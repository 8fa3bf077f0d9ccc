import Dataflow.Code.Declarations
import Dataflow.Code.Memory

/-!
# Running function bodies

A small machine that runs recorded bodies one instruction at a time. A frame holds the values
and variables of one call; the places of its buffers are regions of memory that go away when the
call returns. Reading a variable that was never written gives zero. What a place holds that was
never written, and where the regions are, is up to the surroundings.
-/

namespace Dataflow.Code

structure Frame where
  body : Body
  block : BlockId
  /-- Position of the next instruction in its block. -/
  next : Nat
  values : Array (Option Word)
  vars : Array Word
  /-- How many regions there were before the frame. -/
  base : Nat

/-- A frame that waits for a call to return, and where it wants the result. -/
structure Caller where
  frame : Frame
  result : Option ValueId

structure Machine where
  frame : Frame
  callers : List Caller
  memory : Memory

inductive Outcome
  | running (m : Machine)
  | finished (result : Option Word) (memory : Memory)
  | trapped (t : Trap)

/-- The bodies of a module, and the surroundings in which they run. -/
structure Program where
  body? : FunctionId → Option Body
  surroundings : Surroundings := {}

namespace Frame

def get (f : Frame) (v : ValueId) : Except Trap Word :=
  match f.values[v.index]? with
  | some (some w) => .ok w
  | _ => .error .undefined

def set (f : Frame) (v : ValueId) (w : Word) : Frame :=
  { f with values := f.values.setIfInBounds v.index (some w) }

def getPointer (f : Frame) (v : ValueId) : Except Trap Pointer := do
  match ← f.get v with
  | .ptr p => return p
  | _ => throw .illTyped

def getBool (f : Frame) (v : ValueId) : Except Trap Bool := do
  match ← f.get v with
  | .bool b => return b
  | _ => throw .illTyped

def bind (values : Array (Option Word)) : List ValueId → List Word → Array (Option Word)
  | v :: vs, w :: ws => bind (values.setIfInBounds v.index (some w)) vs ws
  | _, _ => values

/-- A frame at the beginning of a body, with the arguments bound. -/
def enter (b : Body) (args : List Word) (base : Nat) : Frame where
  body := b
  block := ⟨0⟩
  next := 0
  values := bind (Array.replicate b.valueTypes.size none) b.args args
  vars := b.varTypes.map Word.zero
  base := base

def typeOf (f : Frame) (v : ValueId) : Except Trap Ty :=
  match f.body.valueTypes[v.index]? with
  | some t => .ok t
  | none => .error .illTyped

def require (w : Option Word) : Except Trap Word :=
  match w with
  | some w => .ok w
  | none => .error .illTyped

end Frame

namespace Machine

/-- A call of a body on top of a list of waiting frames. -/
def call (ω : Surroundings) (b : Body) (args : List Word) (callers : List Caller)
    (memory : Memory) : Machine where
  frame := Frame.enter b args memory.size
  callers := callers
  memory := memory.enter ω b.stack

/-- What an instruction that stays in its frame does. -/
def perform (ω : Surroundings) (f : Frame) (memory : Memory) : Instr → Except Trap (Frame × Memory)
  | .location _ => return (f, memory)
  | .const result value => return (f.set result (.ofLiteral value), memory)
  | .stackAddress result slot => return (f.set result (.ptr ⟨f.base + slot.index + 1, 0⟩), memory)
  | .datumAddress result datum => return (f.set result (.ptr ⟨datum.index + 1, 0⟩), memory)
  | .offset result base index scale => do
    let p ← f.getPointer base
    match (← f.get index).toIndex with
    | some n => return (f.set result (.ptr (p.move (n * Int64.ofNat scale))), memory)
    | none => throw .illTyped
  | .load result address offset => do
    let p ← f.getPointer address
    let w ← memory.load (ω.layout memory.size) (← f.typeOf result) p offset
    return (f.set result w, memory)
  | .store address offset value => do
    let p ← f.getPointer address
    let w ← f.get value
    return (f, ← memory.store (ω.layout memory.size) p offset w)
  | .binary result op lhs rhs => do
    let w ← Frame.require (Word.binary op (← f.get lhs) (← f.get rhs))
    return (f.set result w, memory)
  | .unary result op operand => do
    let w ← Frame.require (Word.unary op (← f.get operand))
    return (f.set result w, memory)
  | .compare result op lhs rhs => do
    let w ← Frame.require (.bool <$> Word.compare op (← f.get lhs) (← f.get rhs))
    return (f.set result w, memory)
  | .select result condition ifTrue ifFalse => do
    let c ← f.getBool condition
    let t ← f.get ifTrue
    let e ← f.get ifFalse
    return (f.set result (if c then t else e), memory)
  | .cast result value => do
    let w ← Frame.require (Word.cast (ω.layout memory.size) (← f.get value) (← f.typeOf result))
    return (f.set result w, memory)
  | .readVar result var =>
    match f.vars[var.index]? with
    | some w => return (f.set result w, memory)
    | none => throw .illTyped
  | .writeVar var value => do
    let w ← f.get value
    return ({ f with vars := f.vars.setIfInBounds var.index w }, memory)
  | .call .. => throw .noBody

def goto (f : Frame) (target : BlockId) : Frame := { f with block := target, next := 0 }

/-- Leaves the frame of a call and hands its result to the caller. -/
def leave (m : Machine) (result : Option Word) : Outcome :=
  let memory := m.memory.leave m.frame.base
  match m.callers with
  | [] => .finished result memory
  | caller :: callers =>
    match caller.result, result with
    | some v, some w => .running ⟨caller.frame.set v w, callers, memory⟩
    | some _, none => .trapped .illTyped
    | none, _ => .running ⟨caller.frame, callers, memory⟩

def follow (m : Machine) : Terminator → Except Trap Outcome
  | .jump target => return .running { m with frame := goto m.frame target }
  | .branch condition ifTrue ifFalse => do
    let c ← m.frame.getBool condition
    return .running { m with frame := goto m.frame (if c then ifTrue else ifFalse) }
  | .ret none => return m.leave none
  | .ret (some v) => return m.leave (some (← m.frame.get v))

def advance (f : Frame) : Frame := { f with next := f.next + 1 }

/-- Runs the next instruction or terminator. -/
def stepOrTrap (program : Program) (m : Machine) : Except Trap Outcome := do
  match m.frame.body.blocks[m.frame.block.index]? with
  | none => throw .noBody
  | some block =>
    match block.instrs[m.frame.next]? with
    | some (.call result function args) =>
      let words ← args.mapM m.frame.get
      match program.body? function with
      | none => throw .noBody
      | some b =>
        return .running
          (call program.surroundings b words (⟨advance m.frame, result⟩ :: m.callers) m.memory)
    | some i =>
      let (f, memory) ← perform program.surroundings (advance m.frame) m.memory i
      return .running ⟨f, m.callers, memory⟩
    | none =>
      match block.terminator with
      | some t => m.follow t
      | none => throw .noBody

def step (program : Program) (m : Machine) : Outcome :=
  match stepOrTrap program m with
  | .ok o => o
  | .error t => .trapped t

/-- Runs at most `fuel` steps. -/
def run (program : Program) : Nat → Machine → Outcome
  | 0, m => .running m
  | fuel + 1, m =>
    match step program m with
    | .running m => run program fuel m
    | o => o

end Machine

end Dataflow.Code
