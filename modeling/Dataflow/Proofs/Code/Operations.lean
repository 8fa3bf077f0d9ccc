import Dataflow.Proofs.Code.Body
import Dataflow.Proofs.Code.Call
import Dataflow.Proofs.Fails
import Dataflow.Proofs.Code.Slot

/-!
# Operations of an emitter

What becomes of an emitter when one of its operations succeeds or fails. A relation between emitters
that the elementary operations respect is respected by every other one, since these are made of them
and an operation that fails has only done less.
-/

namespace Dataflow.Code

def Instr.Unindexed : Instr → Prop
  | .offset .. => False
  | _ => True

def Instr.Plain : Instr → Prop
  | .offset .. | .stackAddress .. => False
  | _ => True

theorem Instr.Plain.unindexed {i : Instr} (h : i.Plain) : i.Unindexed := by
  cases i with
  | offset _ _ _ _ => exact h
  | _ => trivial

namespace Emit

variable {α β : Type}

section Primitives

variable {e e' : Emitter} {u : Unit}

@[simp] theorem succeeds_check {r : Except Fault α} {a : α} :
    Succeeds (Emit.check r) e a e' ↔ r = .ok a ∧ e = e' := by
  cases r <;> simp [Emit.check]

@[simp] theorem succeeds_body {b : Body} : Succeeds Emit.body e b e' ↔ e.body = b ∧ e = e' := by
  simp [Emit.body]
  exact and_comm

@[simp] theorem succeeds_settings {s : Settings} :
    Succeeds Emit.settings e s e' ↔ e.settings = s ∧ e = e' := by
  simp [Emit.settings]
  exact and_comm

@[simp] theorem succeeds_setBody {b : Body} :
    Succeeds (setBody b) e u e' ↔ { e with body := b } = e' := by
  simp [setBody]

@[simp] theorem succeeds_newValue {t : Ty} {v : ValueId} : Succeeds (newValue t) e v e' ↔
    ⟨e.body.valueTypes.size⟩ = v ∧ { e with body := (e.body.newValue t).2 } = e' := by
  simp [newValue]
  exact and_comm

@[simp] theorem succeeds_newVar {t : Ty} {x : VarId} : Succeeds (newVar t) e x e' ↔
    ⟨e.body.varTypes.size⟩ = x ∧ { e with body := (e.body.newVar t).2 } = e' := by
  simp [newVar]
  exact and_comm

@[simp] theorem succeeds_createBlock {label : String} {id : BlockId} :
    Succeeds (createBlock label) e id e' ↔
      ⟨e.body.blocks.size⟩ = id ∧ { e with body := (e.body.newBlock label).2 } = e' := by
  simp [createBlock]
  exact and_comm

theorem succeeds_change {g : Block → Block} : Succeeds (change g) e u e' ↔
    e.body.requireOpen = .ok () ∧ { e with body := e.body.modifyCurrent g } = e' := by
  unfold change
  simp only [succeeds_bind, succeeds_body, succeeds_check, succeeds_modify]
  constructor
  · rintro ⟨_, _, ⟨rfl, rfl⟩, _, _, ⟨h, rfl⟩, h'⟩
    exact ⟨h, h'⟩
  · rintro ⟨h, h'⟩
    exact ⟨_, _, ⟨rfl, rfl⟩, (), _, ⟨h, rfl⟩, h'⟩

@[simp] theorem succeeds_push {i : Instr} : Succeeds (push i) e u e' ↔
    ∃ b, e.body.push i = .ok b ∧ { e with body := b } = e' := by
  simp [push, succeeds_change, Body.push_eq_ok_iff, Body.requireOpen_eq_ok_iff, Body.modifyCurrent,
    and_assoc]

@[simp] theorem succeeds_terminate {t : Terminator} : Succeeds (terminate t) e u e' ↔
    ∃ b, e.body.terminate t = .ok b ∧ { e with body := b } = e' := by
  simp [terminate, succeeds_change, Body.terminate_eq_ok_iff, Body.requireOpen_eq_ok_iff,
    Body.modifyCurrent, and_assoc]

@[simp] theorem succeeds_switchTo {id : BlockId} : Succeeds (switchTo id) e u e' ↔
    ∃ b, e.body.switchTo id = .ok b ∧ { e with body := b } = e' := by
  simp only [switchTo, succeeds_bind, succeeds_body, succeeds_check, succeeds_refuse, succeeds_modify,
    Body.switchTo_eq_ok_iff]
  constructor
  · rintro ⟨_, _, ⟨rfl, rfl⟩, k, _, ⟨hk, rfl⟩, hopen, rfl⟩
    exact ⟨_, ⟨⟨k, Body.openAt_iff.2 ⟨hk, hopen⟩⟩, rfl⟩, rfl⟩
  · rintro ⟨_, ⟨⟨k, hk⟩, rfl⟩, rfl⟩
    obtain ⟨hk, hopen⟩ := Body.openAt_iff.1 hk
    exact ⟨_, _, ⟨rfl, rfl⟩, k, _, ⟨hk, rfl⟩, hopen, rfl⟩

theorem succeeds_define {t : Ty} {instr : ValueId → Instr} {v : ValueId} :
    Succeeds (define t instr) e v e' ↔ ⟨e.body.valueTypes.size⟩ = v ∧
      ∃ b, (e.body.newValue t).2.push (instr v) = .ok b ∧ { e with body := b } = e' := by
  simp [define]
  constructor
  · rintro ⟨h, rfl⟩
    exact ⟨rfl, h⟩
  · rintro ⟨rfl, h⟩
    exact ⟨h, rfl⟩

theorem type_of_define {t : Ty} {instr : ValueId → Instr} {v : ValueId}
    (h : Succeeds (define t instr) e v e') : e'.body.valueTypes[v.index]? = some t := by
  obtain ⟨rfl, b, hb, rfl⟩ := succeeds_define.1 h
  exact (Body.within_push hb).valueTypes _ _ Array.getElem?_push_size

@[simp] theorem succeeds_valueType {v : ValueId} {t : Ty} :
    Succeeds (valueType v) e t e' ↔ e.body.valueTypes[v.index]? = some t ∧ e = e' := by
  simp [valueType, Body.valueType_eq_ok_iff]
  exact and_comm

@[simp] theorem succeeds_expectType {v : ValueId} {t : Ty} :
    Succeeds (expectType v t) e u e' ↔ e.body.valueTypes[v.index]? = some t ∧ e = e' := by
  simp only [expectType, succeeds_bind, succeeds_valueType]
  constructor
  · rintro ⟨found, _, ⟨hfound, rfl⟩, h⟩
    by_cases ht : found = t
    · simp only [ht, ne_eq, not_true_eq_false, if_false, succeeds_pure] at h
      exact ⟨ht ▸ hfound, h.2⟩
    · simp [ht] at h
  · rintro ⟨ht, rfl⟩
    exact ⟨t, e, ⟨ht, rfl⟩, by simp⟩

theorem succeeds_operandType_iff {op : BinaryOp} {x y : ValueId} {t : Ty} :
    Succeeds (operandType op x y) e t e' ↔ (e.body.valueTypes[x.index]? = some t ∧
      e.body.valueTypes[y.index]? = some t ∧ op.accepts t = true) ∧ e = e' := by
  simp only [operandType, succeeds_bind, succeeds_valueType, succeeds_expectType, succeeds_refuse,
    succeeds_pure]
  constructor
  · rintro ⟨t', _, ⟨hx, rfl⟩, _, _, ⟨hy, rfl⟩, hop, rfl, rfl⟩
    exact ⟨⟨hx, hy, by simpa using hop⟩, rfl⟩
  · rintro ⟨⟨hx, hy, hop⟩, rfl⟩
    exact ⟨t, e, ⟨hx, rfl⟩, ⟨⟩, e, ⟨hy, rfl⟩, by simpa using hop, rfl, rfl⟩

@[simp] theorem succeeds_elementOffset {t : Ty} {i n : Nat} :
    Succeeds (elementOffset t i) e n e' ↔ i * t.size < 2 ^ 31 ∧ i * t.size = n ∧ e = e' := by
  unfold elementOffset
  split
  case isTrue h =>
    rw [succeeds_pure]
    exact ⟨fun hn => ⟨h, hn⟩, fun hn => hn.2⟩
  case isFalse h => exact ⟨fun hn => absurd hn succeeds_throw, fun hn => absurd hn.1 h⟩

theorem succeeds_allocate {scope : Scope} {slot : Slot} : Succeeds (allocate scope) e slot e' ↔
    (e.pools.allocate scope).1 = slot ∧ { e with pools := (e.pools.allocate scope).2 } = e' := by
  unfold allocate
  simp
  exact and_comm

theorem run_release (slot : Slot) (e : Emitter) : (release slot).run.run e =
    (((Pools.release slot).run.run e.pools).1,
      { e with pools := ((Pools.release slot).run.run e.pools).2 }) := by
  rcases h : (Pools.release slot).run.run e.pools with ⟨r, ps⟩
  cases r with
  | ok u => exact (show Succeeds (release slot) e u _ by simp [release, h])
  | error f => exact (show Fails (release slot) e f _ by simp [release, h, check])

theorem succeeds_release {slot : Slot} : Succeeds (release slot) e u e' ↔
    ∃ ps, Succeeds (Pools.release slot) e.pools () ps ∧ { e with pools := ps } = e' := by
  rw [Succeeds, run_release]
  constructor
  · intro h
    obtain ⟨hr, he⟩ := Prod.mk.inj h
    exact ⟨_, Prod.ext hr rfl, he⟩
  · rintro ⟨ps, hps, rfl⟩
    rw [show (Pools.release slot).run.run e.pools = _ from hps]

end Primitives

section Failures

variable {e e' : Emitter} {f : Fault}

@[simp] theorem fails_check {r : Except Fault α} :
    Fails (Emit.check r) e f e' ↔ r = .error f ∧ e = e' := by
  cases r <;> simp [Emit.check]

@[simp] theorem fails_body : ¬ Fails Emit.body e f e' := by simp [Emit.body]

@[simp] theorem fails_setBody {b : Body} : ¬ Fails (setBody b) e f e' := by simp [setBody]

@[simp] theorem fails_newValue {t : Ty} : ¬ Fails (newValue t) e f e' := by simp [newValue]

@[simp] theorem fails_newVar {t : Ty} : ¬ Fails (newVar t) e f e' := by simp [newVar]

@[simp] theorem fails_createBlock {label : String} : ¬ Fails (createBlock label) e f e' := by
  simp [createBlock]

/-- Where the current block is not open, nothing has changed when the change is refused. -/
theorem fails_change {g : Block → Block} :
    Fails (change g) e f e' ↔ e.body.requireOpen = .error f ∧ e = e' := by
  simp [change, and_comm]

@[simp] theorem fails_push {i : Instr} :
    Fails (push i) e f e' ↔ e.body.push i = .error f ∧ e = e' := by
  rw [push, fails_change, Body.push_eq_error_iff]

theorem fails_define {t : Ty} {instr : ValueId → Instr} : Fails (define t instr) e f e' ↔
    (e.body.newValue t).2.push (instr ⟨e.body.valueTypes.size⟩) = .error f ∧
      e' = { e with body := (e.body.newValue t).2 } := by
  simp only [define, fails_bind, fails_newValue, fails_push, fails_pure, succeeds_newValue, false_or,
    and_false, exists_false, or_false]
  constructor
  · rintro ⟨_, _, ⟨rfl, rfl⟩, hpush, rfl⟩
    exact ⟨hpush, rfl⟩
  · rintro ⟨hpush, rfl⟩
    exact ⟨_, _, ⟨rfl, rfl⟩, hpush, rfl⟩

@[simp] theorem fails_terminate {t : Terminator} :
    Fails (terminate t) e f e' ↔ e.body.terminate t = .error f ∧ e = e' := by
  rw [terminate, fails_change, Body.terminate_eq_error_iff]

@[simp] theorem fails_switchTo {id : BlockId} :
    Fails (switchTo id) e f e' ↔ e.body.switchTo id = .error f ∧ e = e' := by
  simp only [switchTo, fails_bind, fails_body, fails_check, fails_refuse, fails_modify, succeeds_body,
    succeeds_check, Body.switchTo, bind_eq_error_iff]
  constructor
  · rintro (h | ⟨_, _, ⟨rfl, rfl⟩, ⟨h, rfl⟩ | ⟨k, _, ⟨hk, rfl⟩, ⟨hclosed, rfl, rfl⟩ | ⟨-, h⟩⟩⟩)
    · exact h.elim
    · exact ⟨.inl h, rfl⟩
    · exact ⟨.inr ⟨k, hk, if_pos hclosed⟩, rfl⟩
    · exact h.elim
  · rintro ⟨h | ⟨k, hk, h⟩, rfl⟩
    · exact .inr ⟨_, _, ⟨rfl, rfl⟩, .inl ⟨h, rfl⟩⟩
    · split at h
      case isTrue hclosed =>
        exact .inr ⟨_, _, ⟨rfl, rfl⟩, .inr ⟨k, _, ⟨hk, rfl⟩, .inl ⟨hclosed, Except.error.inj h, rfl⟩⟩⟩
      case isFalse => cases h

@[simp] theorem fails_allocate {scope : Scope} : ¬ Fails (allocate scope) e f e' := by
  simp [allocate]

/-- A slot that is refused leaves everything as it was. -/
@[simp] theorem fails_release {s : Slot} :
    Fails (release s) e f e' ↔ Fails (Pools.release s) e.pools f e.pools ∧ e = e' := by
  rw [Fails, run_release]
  constructor
  · intro h
    obtain ⟨hr, he⟩ := Prod.mk.inj h
    have hfails : Fails (Pools.release s) e.pools f _ := Prod.ext hr rfl
    have hps := (Pools.of_fails_releaseIn hfails).2
    rw [← hps] at hfails
    exact ⟨hfails, (congrArg (fun ps => ({ e with pools := ps } : Emitter)) hps).trans he⟩
  · rintro ⟨h, rfl⟩
    rw [show (Pools.release s).run.run e.pools = _ from h]

end Failures

section Queries

variable {R : Emitter → Emitter → Prop} [Std.Refl R]

theorem leaves_check (r : Except Fault α) : Leaves R (Emit.check r) := by
  cases r with
  | ok a => exact .pure a
  | error f => exact .throw f

theorem leaves_elementOffset (t : Ty) (i : Nat) : Leaves R (elementOffset t i) :=
  .ite (.pure _) (.throw _)

variable [IsTrans Emitter R]

theorem leaves_body : Leaves R Emit.body := .bind .get fun _ => .pure _

theorem leaves_settings : Leaves R Emit.settings := .bind .get fun _ => .pure _

theorem leaves_valueType (v : ValueId) : Leaves R (valueType v) :=
  leaves_body.bind fun _ => leaves_check _

theorem leaves_expectType (v : ValueId) (t : Ty) : Leaves R (expectType v t) :=
  (leaves_valueType v).bind fun _ => .ite (.throw _) (.pure _)

theorem leaves_expectTypes (vs : List ValueId) (ts : List Ty) : Leaves R (expectTypes vs ts) := by
  induction vs generalizing ts with
  | nil => exact .pure _
  | cons v vs ih =>
      cases ts with
      | nil => exact .pure _
      | cons t ts => exact (leaves_expectType v t).bind fun _ => ih ts

theorem leaves_operandType (op : BinaryOp) (lhs rhs : ValueId) :
    Leaves R (operandType op lhs rhs) :=
  (leaves_valueType _).bind fun _ => (leaves_expectType _ _).bind fun _ => .refuse (.pure _)

theorem leaves_argument (name : String) : Leaves R (argument name) := by
  refine leaves_body.bind fun b => ?_
  split
  · exact .pure _
  · exact .throw _

theorem leaves_argumentSlot (name : String) : Leaves R (argumentSlot name) := by
  refine leaves_body.bind fun b => ?_
  split
  · exact .pure _
  · exact .throw _

end Queries

def takeScratch (t : Ty) : Emit (Slot × VarId) := do
  let slot ← allocate .scratch
  let x ← scratchVar slot t
  return (slot, x)

theorem scratch_eq (initial : ValueId) : scratch initial = (do
    let r ← takeScratch (← valueType initial)
    push (.writeVar r.2 initial)
    return r) := by
  simp [scratch, takeScratch]

/-- The relation holds wherever values are computed, and stored in memory, without a helper, an index or
a place in the frame. -/
class Computes (R : Emitter → Emitter → Prop) : Prop extends Std.Refl R, IsTrans Emitter R where
  define : ∀ t (instr : ValueId → Instr), (∀ v, (instr v).Plain) →
    (∀ v, (instr v).defines = some v) → Leaves R (define t instr)
  store : ∀ address offset value, Leaves R (push (.store address offset value))
  stackBuffer : ∀ t length, Leaves R (stackBuffer t length)

/-- The relation holds wherever straight-line code is recorded that asks for no helper and computes no
address from an index or of a place in the frame. Slots may be taken, but none is given back. -/
class Notes (R : Emitter → Emitter → Prop) : Prop extends Std.Refl R, IsTrans Emitter R where
  newValue : ∀ t, Leaves R (newValue t)
  newVar : ∀ t, Leaves R (newVar t)
  push : ∀ i : Instr, i.Plain → i.defines = none → Leaves R (push i)
  define : ∀ t (instr : ValueId → Instr), (∀ v, (instr v).Plain) →
    (∀ v, (instr v).defines = some v) → Leaves R (define t instr)
  allocate : ∀ scope, Leaves R (allocate scope)
  takeScratch : ∀ t, Leaves R (takeScratch t)
  stackBuffer : ∀ t length, Leaves R (stackBuffer t length)
  datum : ∀ (e : Emitter) (s : Slot) bytes writable, R e { e with
    declarations := (e.declarations.addDatum ⟨s.name, bytes, writable⟩).2 }
  describe : ∀ (e : Emitter) (text : String), R e { e with
    body := { e.body with locations := e.body.locations.push text } }

instance {R : Emitter → Emitter → Prop} [Notes R] : Computes R where
  define := Notes.define
  store _ _ _ := Notes.push _ trivial rfl
  stackBuffer := Notes.stackBuffer

class Asks (R : Emitter → Emitter → Prop) : Prop extends Computes R where
  helper : ∀ (e : Emitter) op t r, e.declarations.helper op t = .ok r →
    R e { e with declarations := r.2 }

class Records (R : Emitter → Emitter → Prop) : Prop extends Notes R where
  helper : ∀ (e : Emitter) op t r, e.declarations.helper op t = .ok r →
    R e { e with declarations := r.2 }

instance {R : Emitter → Emitter → Prop} [Records R] : Asks R where
  helper := Records.helper

class Offsets (R : Emitter → Emitter → Prop) : Prop extends Computes R where
  offset : ∀ address index size, Leaves R (Emit.define .ptr (.offset · address index size))

class Frames (R : Emitter → Emitter → Prop) : Prop extends Computes R where
  bufferAddress : ∀ buffer, Leaves R (bufferAddress buffer)

class Blocks (R : Emitter → Emitter → Prop) : Prop extends Notes R where
  createBlock : ∀ label, Leaves R (createBlock label)
  terminate : ∀ t, Leaves R (terminate t)

class Branches (R : Emitter → Emitter → Prop) : Prop extends Blocks R where
  switchTo : ∀ id, Leaves R (switchTo id)

section Computing

variable {R : Emitter → Emitter → Prop} [Computes R]

theorem leaves_define (t : Ty) {instr : ValueId → Instr} (hi : ∀ v, (instr v).Plain)
    (hd : ∀ v, (instr v).defines = some v) : Leaves R (define t instr) :=
  Computes.define t instr hi hd

theorem leaves_literal (l : Literal) : Leaves R (literal l) :=
  leaves_define _ (fun _ => trivial) fun _ => rfl

theorem leaves_load (t : Ty) (address : ValueId) (i : Nat) : Leaves R (load t address i) :=
  (leaves_expectType _ _).bind fun _ => (leaves_elementOffset _ _).bind fun _ =>
    leaves_define _ (fun _ => trivial) fun _ => rfl

theorem leaves_store (address : ValueId) (i : Nat) (value : ValueId) :
    Leaves R (store address i value) :=
  (leaves_expectType _ _).bind fun _ => (leaves_valueType _).bind fun _ =>
    (leaves_elementOffset _ _).bind fun _ => Computes.store _ _ _

theorem leaves_binary (op : BinaryOp) (lhs rhs : ValueId) : Leaves R (binary op lhs rhs) :=
  (leaves_operandType _ _ _).bind fun _ => leaves_define _ (fun _ => trivial) fun _ => rfl

theorem leaves_compare (op : CompareOp) (lhs rhs : ValueId) : Leaves R (compare op lhs rhs) :=
  (leaves_valueType _).bind fun _ => (leaves_expectType _ _).bind fun _ =>
    .refuse (leaves_define _ (fun _ => trivial) fun _ => rfl)

theorem leaves_select (c x y : ValueId) : Leaves R (select c x y) :=
  (leaves_expectType _ _).bind fun _ => (leaves_valueType _).bind fun _ =>
    (leaves_expectType _ _).bind fun _ => leaves_define _ (fun _ => trivial) fun _ => rfl

theorem leaves_cast (value : ValueId) (t : Ty) : Leaves R (cast value t) :=
  (leaves_valueType _).bind fun _ => .ite (.pure _)
    (.refuse (leaves_define _ (fun _ => trivial) fun _ => rfl))

theorem leaves_getVar (x : VarId) : Leaves R (getVar x) :=
  leaves_body.bind fun _ => (leaves_check _).bind fun _ =>
    leaves_define _ (fun _ => trivial) fun _ => rfl

theorem leaves_dataAddress (id : DatumId) : Leaves R (dataAddress id) :=
  .bind .get fun _ => (leaves_check _).bind fun _ => leaves_define _ (fun _ => trivial) fun _ => rfl

theorem leaves_counter (l : CountedLoop) : Leaves R l.counter := by
  cases l with
  | idle => exact .throw _
  | closed parts => exact .throw _
  | opened parts => exact leaves_getVar parts.var

end Computing

section Recording

variable {R : Emitter → Emitter → Prop} [Notes R]

theorem leaves_push {i : Instr} (hi : i.Plain) (hd : i.defines = none) : Leaves R (push i) :=
  Notes.push i hi hd

theorem leaves_writeVar (x : VarId) (value : ValueId) : Leaves R (push (.writeVar x value)) :=
  leaves_push trivial rfl

theorem leaves_localVar (initial : ValueId) : Leaves R (localVar initial) :=
  (leaves_valueType _).bind fun _ => (Notes.newVar _).bind fun _ =>
    (leaves_writeVar _ _).bind fun _ => .pure _

theorem leaves_setVar (x : VarId) (value : ValueId) : Leaves R (setVar x value) :=
  leaves_body.bind fun _ => (leaves_check _).bind fun _ => (leaves_expectType _ _).bind fun _ =>
    leaves_push trivial rfl

theorem leaves_scratch (initial : ValueId) : Leaves R (scratch initial) := by
  rw [scratch_eq]
  exact (leaves_valueType _).bind fun _ => (Notes.takeScratch _).bind fun _ =>
    (leaves_writeVar _ _).bind fun _ => .pure _

theorem leaves_freeScratch {slot : Slot} (h : slot.scope = .scratch → Leaves R (release slot)) :
    Leaves R (freeScratch slot) := by
  by_cases hslot : slot.scope = .scratch
  · exact .refuse (h hslot)
  · rw [freeScratch, if_pos hslot]
    exact fun e => Std.Refl.refl e

/-- Data are named after a slot that has been taken before. -/
theorem leaves_addDatum (scope : Scope) (bytes : List UInt8) (writable : Bool) :
    Leaves R (allocate scope >>= fun slot => addDatum ⟨slot.name, bytes, writable⟩) :=
  (Notes.allocate scope).bind fun slot e => Notes.datum e slot bytes writable

theorem leaves_literalData (values : Values) : Leaves R (literalData values) :=
  leaves_addDatum .literal values.bytes false

theorem leaves_globalArray (t : Ty) (length : Nat) : Leaves R (globalArray t length) :=
  .refuse (leaves_addDatum .global (List.replicate (length * t.size) 0) true)

theorem leaves_literalArray (values : Values) : Leaves R (literalArray values) :=
  (leaves_literalData values).bind fun _ => leaves_dataAddress _

theorem leaves_call (name : String) (args : List ValueId) : Leaves R (call name args) := by
  refine .bind .get fun e => ?_
  dsimp only
  split
  · refine (leaves_check _).bind fun s => .refuse ((leaves_expectTypes _ _).bind fun _ => ?_)
    split
    · refine .map ?_
      exact leaves_define _ (fun _ => trivial) fun _ => rfl
    · refine .bind ?_ fun _ => .pure _
      exact leaves_push trivial rfl
  · exact .throw _

theorem leaves_location (text : String) : Leaves R (location text) := by
  refine leaves_settings.bind fun s => ?_
  split
  · refine .after_modify fun e => IsTrans.trans _ _ _ (Notes.describe e text) ?_
    have hpush : ∀ b : Body, Leaves R (push (.location b.locations.size)) := fun _ =>
      leaves_push trivial rfl
    exact (leaves_body.bind hpush) _
  · exact .pure _

end Recording

section Asking

variable {R : Emitter → Emitter → Prop} [Asks R]

theorem leaves_callHelper (op : Operator) (t : Ty) (args : List ValueId) :
    Leaves R (callHelper op t args) := by
  refine .after_get fun e => ?_
  cases hd : e.declarations.helper op t with
  | error f => exact Leaves.throw (R := R) f e
  | ok r =>
      exact IsTrans.trans _ _ _ (Asks.helper e op t r hd)
        ((leaves_define t (fun _ => trivial) (fun _ => rfl) :
          Leaves R (define t fun v => .call (some v) r.1 args)) _)

theorem leaves_operator (op : BinaryOp) (lhs rhs : ValueId) : Leaves R (operator op lhs rhs) :=
  leaves_settings.bind fun _ => .ite (leaves_binary _ _ _)
    ((leaves_operandType _ _ _).bind fun _ => leaves_callHelper _ _ _)

theorem leaves_unary (op : UnaryOp) (operand : ValueId) : Leaves R (unary op operand) :=
  (leaves_valueType _).bind fun _ => .refuse (leaves_settings.bind fun _ =>
    .ite (leaves_define _ (fun _ => trivial) fun _ => rfl) (leaves_callHelper _ _ _))

end Asking

section Offsets

variable {R : Emitter → Emitter → Prop} [Offsets R]

theorem leaves_elementAddress (t : Ty) (address index : ValueId) :
    Leaves R (elementAddress t address index) :=
  (leaves_expectType _ _).bind fun _ => (leaves_valueType _).bind fun _ =>
    .refuse (Offsets.offset _ _ _)

theorem leaves_loadDynamic (t : Ty) (address index : ValueId) :
    Leaves R (loadDynamic t address index) :=
  (leaves_elementAddress _ _ _).bind fun _ => leaves_define _ (fun _ => trivial) fun _ => rfl

theorem leaves_storeDynamic (address index value : ValueId) :
    Leaves R (storeDynamic address index value) :=
  (leaves_valueType _).bind fun _ => (leaves_elementAddress _ _ _).bind fun _ => Computes.store _ _ _

end Offsets

section Blocks

variable {R : Emitter → Emitter → Prop} [Blocks R]

theorem leaves_createBlock (label : String) : Leaves R (createBlock label) :=
  Blocks.createBlock label

theorem leaves_jump (target : BlockId) : Leaves R (jump target) :=
  leaves_body.bind fun _ => (leaves_check _).bind fun _ => Blocks.terminate _

theorem leaves_branch (condition : ValueId) (ifTrue ifFalse : BlockId) :
    Leaves R (branch condition ifTrue ifFalse) :=
  (leaves_expectType _ _).bind fun _ => leaves_body.bind fun _ => (leaves_check _).bind fun _ =>
    (leaves_check _).bind fun _ => Blocks.terminate _

theorem leaves_returnValue (value : ValueId) : Leaves R (returnValue value) := by
  refine leaves_body.bind fun b => ?_
  split
  · exact (leaves_expectType _ _).bind fun _ => Blocks.terminate _
  · exact (leaves_valueType _).bind fun _ => (Leaves.throw _).bind fun _ => Blocks.terminate _

theorem leaves_returnVoid : Leaves R returnVoid := by
  refine leaves_body.bind fun b => ?_
  split
  · exact (Leaves.throw _).bind fun _ => Blocks.terminate _
  · exact Blocks.terminate _

def opening (start : Literal) (numbers : Emit (ValueId × ValueId × ValueId))
    (init condition body increment after : BlockId) : Emit LoopParts := do
  jump init
  switchTo init
  let (slot, var) ← scratch (← literal start)
  let (step, limit, bound) ← numbers
  return { condition, body, increment, after, slot, var, step, limit, bound }

theorem enter_eq (start : Literal) (numbers : Emit (ValueId × ValueId × ValueId)) :
    CountedLoop.enter start numbers = (do
      let init ← createBlock "for.init"
      let condition ← createBlock "for.cond"
      let body ← createBlock "for.body"
      let increment ← createBlock "for.inc"
      let after ← createBlock "for.after"
      opening start numbers init condition body increment after) := rfl

theorem leaves_opening (start : Literal) {numbers : Emit (ValueId × ValueId × ValueId)}
    (hnumbers : Leaves R numbers) {init : BlockId} (hinit : Leaves R (switchTo init))
    (condition body increment after : BlockId) :
    Leaves R (opening start numbers init condition body increment after) :=
  (leaves_jump _).bind fun _ => hinit.bind fun _ => (leaves_literal _).bind fun _ =>
    (leaves_scratch _).bind fun _ => hnumbers.bind fun _ => .pure _

theorem leaves_test {parts : LoopParts} (hcondition : Leaves R (switchTo parts.condition))
    (hbody : Leaves R (switchTo parts.body)) : Leaves R (CountedLoop.test parts) :=
  (leaves_jump _).bind fun _ => hcondition.bind fun _ => (leaves_getVar _).bind fun _ =>
    (leaves_compare _ _ _).bind fun _ => (leaves_branch _ _ _).bind fun _ => hbody.bind fun _ => .pure _

theorem succeeds_requireIdle {e e' : Emitter} {l : CountedLoop} {u : Unit} :
    Succeeds l.requireIdle e u e' ↔ l = .idle ∧ e = e' := by
  cases l with
  | idle => simp [CountedLoop.requireIdle]
  | _ => exact ⟨fun h => absurd h succeeds_throw, fun h => nomatch h.1⟩

theorem leaves_requireIdle (l : CountedLoop) : Leaves R l.requireIdle := by
  cases l with
  | idle => exact .pure _
  | opened parts => exact .throw _
  | closed parts => exact .throw _

def close (parts : LoopParts) : Emit Unit := do
  jump parts.increment
  switchTo parts.increment
  let i ← getVar parts.var
  let stepped ← binary .add i parts.step
  let inRange ← compare .less i parts.limit
  let next ← select inRange stepped parts.bound
  setVar parts.var next
  jump parts.condition
  switchTo parts.after

theorem finish_opened (parts : LoopParts) : (CountedLoop.opened parts).finish = (do
    close parts
    freeScratch parts.slot
    return .closed parts) := by
  simp [CountedLoop.finish, close]

theorem leaves_close {parts : LoopParts} (hincrement : Leaves R (switchTo parts.increment))
    (hafter : Leaves R (switchTo parts.after)) : Leaves R (close parts) :=
  (leaves_jump _).bind fun _ => hincrement.bind fun _ => (leaves_getVar _).bind fun _ =>
    (leaves_binary _ _ _).bind fun _ => (leaves_compare _ _ _).bind fun _ =>
    (leaves_select _ _ _).bind fun _ => (leaves_setVar _ _).bind fun _ => (leaves_jump _).bind fun _ =>
    hafter

/-- Where the blocks that a loop ends with may be entered, it may be ended. -/
theorem leaves_finish {l : CountedLoop} (h : ∀ parts, l = .opened parts →
    Leaves R (switchTo parts.increment) ∧ Leaves R (switchTo parts.after) ∧
      (parts.slot.scope = .scratch → Leaves R (release parts.slot))) : Leaves R l.finish := by
  cases l with
  | idle => exact .throw _
  | closed parts => exact .throw _
  | opened parts =>
      obtain ⟨hincrement, hafter, hrelease⟩ := h parts rfl
      rw [finish_opened]
      exact (leaves_close hincrement hafter).bind fun _ => (leaves_freeScratch hrelease).bind fun _ =>
        .pure _

end Blocks

section Branches

variable {R : Emitter → Emitter → Prop} [Branches R]

theorem leaves_switchTo (id : BlockId) : Leaves R (switchTo id) := Branches.switchTo id

theorem leaves_enter (start : Literal) {numbers : Emit (ValueId × ValueId × ValueId)}
    (hnumbers : Leaves R numbers) : Leaves R (CountedLoop.enter start numbers) := by
  rw [enter_eq]
  exact (leaves_createBlock _).bind fun _ => (leaves_createBlock _).bind fun _ =>
    (leaves_createBlock _).bind fun _ => (leaves_createBlock _).bind fun _ =>
    (leaves_createBlock _).bind fun _ => leaves_opening start hnumbers (leaves_switchTo _) _ _ _ _

theorem leaves_beginRange (l : CountedLoop) (start bound step : Int32) :
    Leaves R (l.beginRange start bound step) := by
  refine .refuse ((leaves_requireIdle l).bind fun _ => (leaves_enter _ ?_).bind fun _ =>
    leaves_test (leaves_switchTo _) (leaves_switchTo _))
  exact (leaves_literal _).bind fun _ => (leaves_literal _).bind fun _ =>
    (leaves_literal _).bind fun _ => .pure _

theorem leaves_beginDynamic (l : CountedLoop) (count : ValueId) :
    Leaves R (l.beginDynamic count) := by
  refine (leaves_valueType _).bind fun _ => .refuse ((leaves_requireIdle l).bind fun _ =>
    (leaves_enter _ ?_).bind fun _ => leaves_test (leaves_switchTo _) (leaves_switchTo _))
  exact (leaves_literal _).bind fun _ => (leaves_binary _ _ _).bind fun _ => .pure _

end Branches

end Emit

/-- The slot that a call gives back, unless it has to be one for scratch values. -/
def Call.frees? : Call → Option Slot
  | .release slot => some slot
  | .releaseBuffer buffer => some buffer.slot
  | _ => none

def Call.freesScratch? : Call → Option Slot
  | .freeScratch slot => some slot
  | .finish (.opened parts) => some parts.slot
  | _ => none

def Call.asks : Call → Bool
  | .operator .. | .unary .. => true
  | _ => false

def Call.stays : Call → Bool
  | .switchTo _ | .beginRange .. | .beginCount .. | .beginDynamic .. | .finish _ => false
  | _ => true

namespace Emit

variable {R : Emitter → Emitter → Prop} {c : Call}

/-- What is respected where blocks are made and closed, every call respects that stays in its block. -/
theorem leaves_perform_of_stays [Offsets R] [Blocks R] (hstays : c.stays = true)
    (hasks : c.asks = true → Leaves R c.perform)
    (hc : ∀ slot, c.frees? = some slot → Leaves R (release slot))
    (hs : ∀ slot, c.freesScratch? = some slot → slot.scope = .scratch → Leaves R (release slot))
    (ha : ∀ buffer, c = .bufferAddress buffer → Leaves R (bufferAddress buffer)) :
    Leaves R c.perform := by
  cases c with
  | argument name => exact (leaves_argument name).map
  | argumentSlot name => exact (leaves_argumentSlot name).map
  | allocate scope => exact (Notes.allocate scope).map
  | release slot => exact (hc slot rfl).map
  | createBlock label => exact (leaves_createBlock label).map
  | literal value => exact (leaves_literal value).map
  | load t address index => exact (leaves_load t address index).map
  | loadDynamic t address index => exact (leaves_loadDynamic t address index).map
  | store address index value => exact (leaves_store address index value).map
  | storeDynamic address index value => exact (leaves_storeDynamic address index value).map
  | operator op lhs rhs => exact hasks rfl
  | binary op lhs rhs => exact (leaves_binary op lhs rhs).map
  | unary op operand => exact hasks rfl
  | compare op lhs rhs => exact (leaves_compare op lhs rhs).map
  | select condition ifTrue ifFalse => exact (leaves_select condition ifTrue ifFalse).map
  | cast value target => exact (leaves_cast value target).map
  | localVar initial => exact (leaves_localVar initial).map
  | getVar x => exact (leaves_getVar x).map
  | setVar x value => exact (leaves_setVar x value).map
  | scratch initial => exact (leaves_scratch initial).map
  | freeScratch slot => exact (leaves_freeScratch (hs slot rfl)).map
  | stackBuffer t length => exact (Notes.stackBuffer t length).map
  | bufferAddress buffer => exact (ha buffer rfl).map
  | releaseBuffer buffer => exact (hc buffer.slot rfl).map
  | literalData values => exact (leaves_literalData values).map
  | literalArray values => exact (leaves_literalArray values).map
  | globalArray t length => exact (leaves_globalArray t length).map
  | dataAddress id => exact (leaves_dataAddress id).map
  | call name args => exact (leaves_call name args).map
  | jump target => exact (leaves_jump target).map
  | branch condition ifTrue ifFalse => exact (leaves_branch condition ifTrue ifFalse).map
  | returnValue value => exact (leaves_returnValue value).map
  | returnVoid => exact leaves_returnVoid.map
  | location description => exact (leaves_location description).map
  | counter l => exact (leaves_counter l).map
  | _ => exact absurd hstays Bool.false_ne_true

/-- What the elementary operations respect, every call does that asks for no helper. -/
theorem leaves_perform_of_asks [Offsets R] [Branches R] (hasks : c.asks = true → Leaves R c.perform)
    (hc : ∀ slot, c.frees? = some slot → Leaves R (release slot))
    (hs : ∀ slot, c.freesScratch? = some slot → slot.scope = .scratch → Leaves R (release slot))
    (ha : ∀ buffer, c = .bufferAddress buffer → Leaves R (bufferAddress buffer)) :
    Leaves R c.perform := by
  cases c with
  | switchTo id => exact (leaves_switchTo id).map
  | beginRange l start bound step => exact (leaves_beginRange l start bound step).map
  | beginCount l count => exact (leaves_beginRange l 0 count 1).map
  | beginDynamic l count => exact (leaves_beginDynamic l count).map
  | finish l =>
      refine (leaves_finish fun parts hl => ⟨leaves_switchTo _, leaves_switchTo _, hs parts.slot ?_⟩).map
      rw [hl]
      rfl
  | _ => exact leaves_perform_of_stays rfl hasks hc hs ha

theorem leaves_asking [Records R] (h : c.asks = true) : Leaves R c.perform := by
  cases c with
  | operator op lhs rhs => exact (leaves_operator op lhs rhs).map
  | unary op operand => exact (leaves_unary op operand).map
  | _ => exact absurd h Bool.false_ne_true

/-- What the elementary operations respect, every call does. -/
theorem leaves_perform [Records R] [Offsets R] [Branches R]
    (hc : ∀ slot, c.frees? = some slot → Leaves R (release slot))
    (hs : ∀ slot, c.freesScratch? = some slot → slot.scope = .scratch → Leaves R (release slot))
    (ha : ∀ buffer, c = .bufferAddress buffer → Leaves R (bufferAddress buffer)) :
    Leaves R c.perform :=
  leaves_perform_of_asks leaves_asking hc hs ha

end Emit

end Dataflow.Code
