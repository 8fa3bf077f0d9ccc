import Dataflow.Code.Executable
import Dataflow.Proofs.Code.Body
import Dataflow.Proofs.Code.Memory

/-!
# Runs of a body

The machine is followed through one call of a body that is taken as given, together with the
helpers that it calls. A store is what changes in the meantime: values, variables and memory. The
machine stands at the end of what a part of the body has recorded so far; what is recorded next is
what it does next.
-/

namespace Dataflow.Code

namespace Machine

variable {program : Program} {m m' : Machine}

def Reaches (program : Program) : Machine → Machine → Prop :=
  Relation.ReflTransGen fun m m' => step program m = .running m'

theorem reaches_of_step (h : stepOrTrap program m = .ok (.running m')) :
    Reaches program m m' := by
  refine .single ?_
  rw [Machine.step, h]

theorem reaches_of_run {n : Nat} (h : run program n m = .running m') : Reaches program m m' := by
  induction n generalizing m with
  | zero =>
      obtain rfl := Outcome.running.inj h
      exact .refl
  | succ n ih =>
      rw [run] at h
      cases hstep : step program m with
      | running m₁ =>
          rw [hstep] at h
          exact .head hstep (ih h)
      | finished result memory =>
          rw [hstep] at h
          cases h
      | trapped t =>
          rw [hstep] at h
          cases h

theorem run_of_reaches {o : Outcome} (h : Reaches program m m') (hend : step program m' = o)
    (ho : ∀ m, o ≠ .running m) : ∃ n, ∀ fuel ≥ n, run program fuel m = o := by
  subst hend
  induction h using Relation.ReflTransGen.head_induction_on with
  | refl =>
      refine ⟨1, fun fuel hfuel => ?_⟩
      obtain ⟨fuel, rfl⟩ : ∃ k, fuel = k + 1 := ⟨fuel - 1, by omega⟩
      rw [run]
      cases hstep : step program m' with
      | running m => exact absurd hstep (ho m)
      | finished result memory => rfl
      | trapped t => rfl
  | head hstep _ ih =>
      obtain ⟨n, hn⟩ := ih
      refine ⟨n + 1, fun fuel hfuel => ?_⟩
      obtain ⟨fuel, rfl⟩ : ∃ k, fuel = k + 1 := ⟨fuel - 1, by omega⟩
      rw [run, hstep]
      exact hn fuel (by omega)

end Machine

namespace Operator

def apply : Operator → List Word → Option Word
  | binary op, [a, b] => Word.binary op a b
  | unary op, [a] => Word.unary op a
  | _, _ => none

def instr : Operator → Instr
  | binary op => .binary ⟨2⟩ op ⟨0⟩ ⟨1⟩
  | unary op => .unary ⟨1⟩ op ⟨0⟩

end Operator

/-- The body applies the operator to its arguments and returns the result. -/
structure Body.Applies (b : Body) (op : Operator) : Prop where
  block : ∃ label, b.blocks[0]? = some ⟨label, #[op.instr], some (.ret (some ⟨op.arity⟩))⟩
  args : b.args = (List.range op.arity).map ValueId.mk
  values : b.valueTypes.size = op.arity + 1
  stack : b.stack = #[]

namespace Machine

variable {program : Program} {b : Body} {op : Operator} {words : List Word} {w : Word}

theorem stepOrTrap_instr {m : Machine} {block : Block} {i : Instr} {f : Frame} {memory : Memory}
    (hblock : m.frame.body.blocks[m.frame.block.index]? = some block)
    (hi : block.instrs[m.frame.next]? = some i) (hcall : i.callee = none)
    (hperf : perform program.surroundings (advance m.frame) m.memory i = .ok (f, memory)) :
    stepOrTrap program m = .ok (.running ⟨f, m.callers, memory⟩) := by
  unfold stepOrTrap
  simp only [hblock, hi]
  cases i
  case call => cases hcall
  all_goals
    dsimp only
    rw [hperf]
    rfl

theorem stepOrTrap_terminator {m : Machine} {block : Block} {t : Terminator}
    (hblock : m.frame.body.blocks[m.frame.block.index]? = some block)
    (hi : block.instrs[m.frame.next]? = none) (ht : block.terminator = some t) :
    stepOrTrap program m = m.follow t := by
  unfold stepOrTrap
  simp only [hblock, hi, ht]

section Perform

variable {ω : Surroundings} {f : Frame} {memory : Memory} {v x y z : ValueId} {a c : Word}
  {p : Pointer}

theorem getPointer_eq (h : f.get v = .ok (.ptr p)) : f.getPointer v = .ok p := by
  unfold Frame.getPointer
  rw [h]
  rfl

theorem getBool_eq {b : Bool} (h : f.get v = .ok (.bool b)) : f.getBool v = .ok b := by
  unfold Frame.getBool
  rw [h]
  rfl

theorem perform_offset {n : Int64} {scale : Nat} (hx : f.get x = .ok (.ptr p)) (hy : f.get y = .ok a)
    (hn : a.toIndex = some n) : perform ω f memory (.offset v x y scale) =
      .ok (f.set v (.ptr (p.move (n * Int64.ofNat scale))), memory) := by
  simp only [perform, getPointer_eq hx, hy, bind, Except.bind, hn]
  rfl

theorem perform_load {t : Ty} {offset : Nat} (hx : f.get x = .ok (.ptr p))
    (ht : f.body.valueTypes[v.index]? = some t) (hload : memory.load (ω.layout memory.size) t p offset = .ok w) :
    perform ω f memory (.load v x offset) = .ok (f.set v w, memory) := by
  simp only [perform, getPointer_eq hx, Frame.typeOf, ht, bind, Except.bind, hload]
  rfl

theorem perform_store {memory' : Memory} {offset : Nat} (hx : f.get x = .ok (.ptr p))
    (hy : f.get y = .ok a) (hstore : memory.store (ω.layout memory.size) p offset a = .ok memory') :
    perform ω f memory (.store x offset y) = .ok (f, memory') := by
  simp only [perform, getPointer_eq hx, hy, bind, Except.bind, hstore]
  rfl

theorem perform_binary {op : BinaryOp} (hx : f.get x = .ok a) (hy : f.get y = .ok c)
    (hw : Word.binary op a c = some w) :
    perform ω f memory (.binary v op x y) = .ok (f.set v w, memory) := by
  simp only [perform, hx, hy, bind, Except.bind, hw]
  rfl

theorem perform_unary {op : UnaryOp} (hx : f.get x = .ok a) (hw : Word.unary op a = some w) :
    perform ω f memory (.unary v op x) = .ok (f.set v w, memory) := by
  simp only [perform, hx, bind, Except.bind, hw]
  rfl

theorem perform_compare {op : CompareOp} (hx : f.get x = .ok a) (hy : f.get y = .ok c)
    (hw : .bool <$> Word.compare op a c = some w) :
    perform ω f memory (.compare v op x y) = .ok (f.set v w, memory) := by
  simp only [perform, hx, hy, bind, Except.bind, hw]
  rfl

theorem perform_select {b : Bool} (hx : f.get x = .ok (.bool b)) (hy : f.get y = .ok a)
    (hz : f.get z = .ok c) :
    perform ω f memory (.select v x y z) = .ok (f.set v (if b then a else c), memory) := by
  simp only [perform, getBool_eq hx, hy, hz, bind, Except.bind]
  rfl

theorem perform_cast {t : Ty} (hx : f.get x = .ok a) (ht : f.body.valueTypes[v.index]? = some t)
    (hw : a.cast (ω.layout memory.size) t = some w) : perform ω f memory (.cast v x) = .ok (f.set v w, memory) := by
  simp only [perform, Frame.typeOf, ht, hx, bind, Except.bind, hw]
  rfl

theorem perform_readVar {i : VarId} (hi : f.vars[i.index]? = some w) :
    perform ω f memory (.readVar v i) = .ok (f.set v w, memory) := by
  simp only [perform, hi]
  rfl

theorem perform_writeVar {i : VarId} (hx : f.get x = .ok a) :
    perform ω f memory (.writeVar i x) =
      .ok ({ f with vars := f.vars.setIfInBounds i.index a }, memory) := by
  simp only [perform, hx]
  rfl

end Perform

section Helpers

theorem size_bind (values : Array (Option Word)) (vs : List ValueId) (words : List Word) :
    (Frame.bind values vs words).size = values.size := by
  induction vs generalizing values words with
  | nil => rfl
  | cons v vs ih =>
      cases words with
      | nil => rfl
      | cons w words => exact (ih _ _).trans Array.size_setIfInBounds

/-- The body of a helper does to its arguments what its operator does. -/
theorem perform_helper (hb : b.Applies op) (hlength : words.length = op.arity) (ω : Surroundings)
    (base : Nat) (memory : Memory) : perform ω (advance (Frame.enter b words base)) memory op.instr =
      (Frame.require (op.apply words)).map fun w =>
        ((advance (Frame.enter b words base)).set ⟨op.arity⟩ w, memory) := by
  cases op with
  | binary op =>
      match words, hlength with
      | [x, y], _ =>
          have hvalues : (Frame.enter b [x, y] base).values = #[some x, some y, none] := by
            rw [Frame.enter, hb.args, hb.values]
            rfl
          have hx : (advance (Frame.enter b [x, y] base)).get ⟨0⟩ = .ok x := by
            simp only [Frame.get, advance, hvalues]
            rfl
          have hy : (advance (Frame.enter b [x, y] base)).get ⟨1⟩ = .ok y := by
            simp only [Frame.get, advance, hvalues]
            rfl
          simp only [Operator.instr, perform, hx, hy, bind, Except.bind, Operator.apply]
          cases Word.binary op x y <;> rfl
  | unary op =>
      match words, hlength with
      | [x], _ =>
          have hvalues : (Frame.enter b [x] base).values = #[some x, none] := by
            rw [Frame.enter, hb.args, hb.values]
            rfl
          have hx : (advance (Frame.enter b [x] base)).get ⟨0⟩ = .ok x := by
            simp only [Frame.get, advance, hvalues]
            rfl
          simp only [Operator.instr, perform, hx, bind, Except.bind, Operator.apply]
          cases Word.unary op x <;> rfl

theorem length_of_apply (hw : op.apply words = some w) : words.length = op.arity := by
  cases op with
  | binary op =>
      match words, hw with
      | [_, _], _ => rfl
  | unary op =>
      match words, hw with
      | [_], _ => rfl

/-- A helper hands the result of its operator to the caller and leaves memory as it was. -/
theorem reaches_helper (hb : b.Applies op) (hw : op.apply words = some w) (f : Frame) (v : ValueId)
    (callers : List Caller) (memory : Memory) :
    Reaches program (call program.surroundings b words (⟨f, some v⟩ :: callers) memory)
      ⟨f.set v w, callers, memory⟩ := by
  obtain ⟨label, hblock⟩ := hb.block
  have hmemory : memory.enter program.surroundings b.stack = memory := by
    rw [hb.stack, Memory.enter_empty]
  have hperf := perform_helper hb (length_of_apply hw) program.surroundings memory.size memory
  rw [hw] at hperf
  have hstart : Reaches program (call program.surroundings b words (⟨f, some v⟩ :: callers) memory)
      ⟨(advance (Frame.enter b words memory.size)).set ⟨op.arity⟩ w, ⟨f, some v⟩ :: callers,
        memory⟩ := by
    rw [call, hmemory]
    refine reaches_of_step (stepOrTrap_instr hblock rfl ?_ hperf)
    cases op <;> rfl
  have hget : ((advance (Frame.enter b words memory.size)).set ⟨op.arity⟩ w).get ⟨op.arity⟩ =
      .ok w := by
    have hsize : op.arity < (Frame.enter b words memory.size).values.size := by
      rw [Frame.enter, size_bind, Array.size_replicate, hb.values]
      exact Nat.lt_succ_self _
    simp only [Frame.get, Frame.set, advance, Array.getElem?_setIfInBounds_self_of_lt hsize]
  refine hstart.trans (reaches_of_step ?_)
  rw [stepOrTrap_terminator (m := ⟨_, _, _⟩) hblock rfl rfl]
  simp only [follow, hget, leave]
  change Except.ok (Outcome.running ⟨f.set v w, callers, memory.leave memory.size⟩) = _
  rw [Memory.leave_size]

end Helpers

end Machine

structure Store where
  values : Array (Option Word)
  vars : Array Word
  memory : Memory

namespace Store

variable (σ : Store) (v : ValueId) (w : Word)

def Has : Prop := σ.values[v.index]? = some (some w)

def set : Store := { σ with values := σ.values.setIfInBounds v.index (some w) }

def setVar (x : VarId) : Store := { σ with vars := σ.vars.setIfInBounds x.index w }

end Store

/-- A call of a body in a module that defines the helpers of its operators. -/
structure Context where
  program : Program
  body : Body
  /-- How many regions there are before those of the frame. -/
  base : Nat
  data : Array Datum
  helpers : Table (Operator × Ty) FunctionId
  extents : Array (Nat × Bool)
  applies : ∀ op t id, helpers.find? (op, t) = some id →
    ∃ b, program.body? id = some b ∧ b.Applies op
  places : ∀ (i n : Nat), body.stack[i]? = some n → extents[base + i]? = some (n, true)

namespace Context

/-- Where the regions are while the call goes on. -/
def layout (C : Context) : Layout := C.program.surroundings.layout C.extents.size

/-- The store has what the body asks for, and module data are as they were declared. -/
structure Fits (C : Context) (σ : Store) : Prop where
  values : σ.values.size = C.body.valueTypes.size
  vars : σ.vars.size = C.body.varTypes.size
  extents : σ.memory.extents = C.extents
  data : ∀ (i : Nat) (d : Datum), C.data[i]? = some d →
    σ.memory[i]? = some (Executable.dataRegion d)

variable {C : Context} {σ σ' : Store}

theorem Fits.layout_eq (h : C.Fits σ) :
    C.program.surroundings.layout σ.memory.size = C.layout := by
  rw [layout, ← h.extents, Memory.extents, Array.size_map]

theorem Fits.set (h : C.Fits σ) (v : ValueId) (w : Word) : C.Fits (σ.set v w) :=
  ⟨by rw [Store.set, Array.size_setIfInBounds, h.values], h.vars, h.extents, h.data⟩

theorem Fits.setVar (h : C.Fits σ) (x : VarId) (w : Word) : C.Fits (σ.setVar w x) :=
  ⟨h.values, by rw [Store.setVar, Array.size_setIfInBounds, h.vars], h.extents, h.data⟩

theorem Fits.put (h : C.Fits σ) {l : Layout} {r start : Nat} {w : Word} (hr : C.data.size ≤ r) :
    C.Fits { σ with memory := σ.memory.put l r start w } := by
  refine ⟨h.values, h.vars, Memory.extents_put.trans h.extents, fun i d hd => ?_⟩
  have hi := (Array.getElem?_eq_some_iff.1 hd).1
  exact (Memory.getElem?_put_of_ne (by omega)).trans (h.data i d hd)

def frame (C : Context) (id : BlockId) (next : Nat) (σ : Store) : Frame :=
  ⟨C.body, id, next, σ.values, σ.vars, C.base⟩

def machine (C : Context) (id : BlockId) (next : Nat) (σ : Store) : Machine :=
  ⟨C.frame id next σ, [], σ.memory⟩

/-- The machine stands where the current block of a part of the body ends. -/
def here (C : Context) (b : Body) (σ : Store) : Machine := C.machine b.current b.position σ

def Reaches (C : Context) (b : Body) (σ : Store) (b' : Body) (σ' : Store) : Prop :=
  Machine.Reaches C.program (C.here b σ) (C.here b' σ')

section Instructions

variable {b b' : Body}

/-- What has been pushed is what the machine does next. -/
theorem reaches_push {i : Instr} (h : b.push i = .ok b') (hC : b'.Within C.body)
    (hcall : i.callee = none) (hperf : ∀ next, Machine.perform C.program.surroundings
      (C.frame b.current next σ) σ.memory i = .ok (C.frame b.current next σ', σ'.memory)) :
    C.Reaches b σ b' σ' := by
  obtain ⟨k, hk, hi⟩ := Body.instr_of_push h hC
  have hstep : Machine.stepOrTrap C.program (C.here b σ) =
      .ok (.running (C.machine b.current (b.position + 1) σ')) :=
    Machine.stepOrTrap_instr hk hi hcall (hperf _)
  rw [← Body.position_of_push h, ← Body.current_of_push h] at hstep
  exact Machine.reaches_of_step hstep

theorem get_frame {id : BlockId} {next : Nat} {v : ValueId} {w : Word} (h : σ.Has v w) :
    (C.frame id next σ).get v = .ok w := by
  rw [Frame.get, frame, h]

/-- A call of a helper does to its operands what its operator does. -/
theorem reaches_call {v : ValueId} {op : Operator} {t : Ty} {id : FunctionId}
    {args : List ValueId} {words : List Word} {w : Word}
    (h : b.push (.call (some v) id args) = .ok b') (hC : b'.Within C.body)
    (hhelper : C.helpers.find? (op, t) = some id) (hargs : List.Forall₂ σ.Has args words)
    (hw : op.apply words = some w) : C.Reaches b σ b' (σ.set v w) := by
  obtain ⟨k, hk, hi⟩ := Body.instr_of_push h hC
  obtain ⟨helper, hprogram, happlies⟩ := C.applies op t id hhelper
  have hwords : args.mapM (C.here b σ).frame.get = .ok words :=
    mapM_eq_ok_iff.2 (hargs.imp fun v w hv => get_frame hv)
  have hstep : Machine.stepOrTrap C.program (C.here b σ) =
      .ok (.running (Machine.call C.program.surroundings helper words
        [⟨C.frame b.current (b.position + 1) σ, some v⟩] σ.memory)) := by
    unfold Machine.stepOrTrap
    have hblock : (C.here b σ).frame.body.blocks[(C.here b σ).frame.block.index]? = some k := hk
    have hinstr : k.instrs[(C.here b σ).frame.next]? = some (.call (some v) id args) := hi
    simp only [hblock, hinstr, hwords, bind, Except.bind, hprogram]
    rfl
  refine (Machine.reaches_of_step hstep).trans ?_
  rw [here, Body.position_of_push h, Body.current_of_push h]
  exact Machine.reaches_helper happlies hw (C.frame b.current (b.position + 1) σ) v [] σ.memory

end Instructions

end Context

end Dataflow.Code
