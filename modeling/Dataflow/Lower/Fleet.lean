import Dataflow.Lower.Compiled

/-!
# Instances that share code

The instances of a compiled transform run the code of one module and share its data. A call on an
instance runs with the data as the calls before have left them, and leaves them to the calls that
come after, on whatever instance.
-/

namespace Dataflow

open Code (Executable Surroundings Trap)

structure Fleet where
  code : Executable
  instances : List Compiled

namespace Fleet

/-- What can be asked of the instance at a position. -/
inductive Call
  | fork (i : Nat)
  | bind (i : Nat) (t : ElemType)
  | compute (i : Nat) (t : ElemType) (input : Values)
  | lastOutput (i : Nat) (t : ElemType)

inductive Reply
  | done
  | values (v : Values)
  | refused (f : Fault)
  | trapped (t : Trap)
  | unfinished
  | absent

def ofCompiled (c : Compiled) : Fleet := ⟨c.code, [c]⟩

/-- The instance at a position, with the data as they are now. -/
def member? (F : Fleet) (i : Nat) : Option Compiled :=
  (F.instances[i]?).map fun c => { c with code := F.code }

/-- Puts an instance back, and the data with it. -/
def put (F : Fleet) (i : Nat) (c : Compiled) : Fleet := ⟨c.code, F.instances.set i c⟩

/-- What the instance itself does in a call. Code runs for at most `fuel` steps. -/
def Call.answer (fuel : Nat) (ω : Surroundings) : Call → Compiled.Instance Reply
  | .fork _ => return .done
  | .bind _ t => do
    Compiled.bind t
    return .done
  | .compute _ t input => do
    match ← Compiled.compute fuel t input ω with
    | .returned .. => values t
    | .trapped t => return .trapped t
    | .unfinished => return .unfinished
  | .lastOutput _ t => values t
where
  values (t : ElemType) : Compiled.Instance Reply := do
    match (← get).lastOutput t with
    | .ok v => return .values v
    | .error f => throw f

/-- The position of the instance that is called. -/
def Call.target : Call → Nat
  | .fork i | .bind i _ | .compute i .. | .lastOutput i _ => i

/-- A call on an instance, which is put back as the call has left it, answered or refused. -/
def call (F : Fleet) (fuel : Nat) (ω : Surroundings) (c : Call) : Reply × Fleet :=
  match F.member? c.target with
  | none => (.absent, F)
  | some m =>
    let (r, m) := (c.answer fuel ω).run.run m
    let F := F.put c.target m
    match r, c with
    | .ok reply, .fork _ => (reply, { F with instances := F.instances ++ [m.fresh] })
    | .ok reply, _ => (reply, F)
    | .error f, _ => (.refused f, F)

end Fleet

end Dataflow
