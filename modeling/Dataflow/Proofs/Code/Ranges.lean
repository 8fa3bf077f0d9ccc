import Dataflow.Proofs.Code.Once
import Dataflow.Proofs.Code.Stranded

/-!
# Ids in range

Whatever is named in a call, also what belongs to a function that has ended: a call that takes values,
variables, blocks or data is granted only if they are there, and recorded code refers to nothing else.
Places in the frame are the exception. The address of a buffer is recorded unseen, and when the buffer
has no place in the frame of the open function, the end of the function breaches the contract.
-/

namespace Dataflow.Code

section Definitions

def Instr.var? : Instr → Option VarId
  | .readVar _ x | .writeVar x _ => some x
  | _ => none

def Instr.datum? : Instr → Option DatumId
  | .datumAddress _ id => some id
  | _ => none

/-- What an instruction refers to is there, its place in the frame apart. -/
structure Instr.InRange (b : Body) (d : Declarations) (i : Instr) : Prop where
  uses : ∀ v ∈ i.uses, v.index < b.valueTypes.size
  defines : ∀ v, i.defines = some v → v.index < b.valueTypes.size
  var : ∀ x, i.var? = some x → x.index < b.varTypes.size
  datum : ∀ id, i.datum? = some id → id.index < d.data.size
  callee : ∀ id, i.callee = some id → id.index < d.functions.size

structure Terminator.InRange (b : Body) (t : Terminator) : Prop where
  uses : ∀ v ∈ t.uses, v.index < b.valueTypes.size
  targets : ∀ id ∈ t.targets, id.index < b.blocks.size

namespace Body

def Contains (b : Body) (i : Instr) : Prop := ∃ k ∈ b.blocks, i ∈ k.instrs

structure InRange (b : Body) (d : Declarations) : Prop where
  args : ∀ v ∈ b.args, v.index < b.valueTypes.size
  instrs : ∀ i, b.Contains i → i.InRange b d
  terminators : ∀ k ∈ b.blocks, ∀ t, k.terminator = some t → t.InRange b

def Framed (b : Body) : Prop := ∀ v s, b.Contains (.stackAddress v s) → s.index < b.stack.size

end Body

namespace Emitter

def HasValue (e : Emitter) (v : ValueId) : Prop := v.index < e.body.valueTypes.size

def HasVar (e : Emitter) (x : VarId) : Prop := x.index < e.body.varTypes.size

def HasBlock (e : Emitter) (id : BlockId) : Prop := id.index < e.body.blocks.size

def HasDatum (e : Emitter) (id : DatumId) : Prop := id.index < e.declarations.data.size

end Emitter

/-- What a call names is there. The parts of a loop are looked up where they are used. -/
def Call.InRange (e : Emitter) : Call → Prop
  | .load _ x _ | .unary _ x | .cast x _ | .localVar x | .scratch x | .returnValue x
  | .beginDynamic _ x => e.HasValue x
  | .loadDynamic _ x y | .store x _ y | .operator _ x y | .binary _ x y | .compare _ x y =>
    e.HasValue x ∧ e.HasValue y
  | .storeDynamic x y z | .select x y z => e.HasValue x ∧ e.HasValue y ∧ e.HasValue z
  | .getVar x => e.HasVar x
  | .setVar x y => e.HasVar x ∧ e.HasValue y
  | .call _ args => ∀ x ∈ args, e.HasValue x
  | .dataAddress id => e.HasDatum id
  | .switchTo id | .jump id => e.HasBlock id
  | .branch x ifTrue ifFalse => e.HasValue x ∧ e.HasBlock ifTrue ∧ e.HasBlock ifFalse
  | .counter (.opened parts) => e.HasVar parts.var
  | _ => True

end Definitions

section Instructions

variable {Γ : TypeEnv} {b : Body} {d : Declarations} {i : Instr} {v : ValueId}

/-- What a typed instruction uses has a type. -/
theorem Instr.Typed.exists_has_of_mem (h : i.Typed Γ) (hv : v ∈ i.uses) : ∃ t, Γ.Has v t := by
  cases i with
  | location _ | const _ _ | stackAddress _ _ | datumAddress _ _ | readVar _ _ => cases hv
  | offset _ base index _ =>
      obtain ⟨-, hb, t, hi, -⟩ := h
      rcases List.mem_pair.1 hv with rfl | rfl
      · exact ⟨_, hb⟩
      · exact ⟨t, hi⟩
  | load _ _ _ =>
      obtain rfl := List.mem_singleton.1 hv
      exact ⟨_, h.1⟩
  | store _ _ _ =>
      rcases List.mem_pair.1 hv with rfl | rfl
      · exact ⟨_, h.1⟩
      · exact h.2
  | binary _ _ _ _ =>
      obtain ⟨t, -, hl, hr, -⟩ := h
      rcases List.mem_pair.1 hv with rfl | rfl
      · exact ⟨t, hl⟩
      · exact ⟨t, hr⟩
  | unary _ _ _ =>
      obtain rfl := List.mem_singleton.1 hv
      exact h.imp fun _ h => h.2.1
  | compare _ _ _ _ =>
      obtain ⟨-, t, hl, hr, -⟩ := h
      rcases List.mem_pair.1 hv with rfl | rfl
      · exact ⟨t, hl⟩
      · exact ⟨t, hr⟩
  | select _ _ _ _ =>
      obtain ⟨hc, t, -, hl, hr⟩ := h
      rcases List.mem_cons.1 hv with rfl | hv
      · exact ⟨_, hc⟩
      rcases List.mem_pair.1 hv with rfl | rfl
      · exact ⟨t, hl⟩
      · exact ⟨t, hr⟩
  | cast _ _ =>
      obtain rfl := List.mem_singleton.1 hv
      obtain ⟨t, -, ht, -⟩ := h
      exact ⟨t, ht⟩
  | writeVar _ _ =>
      obtain rfl := List.mem_singleton.1 hv
      exact h.imp fun _ h => h.2
  | call _ _ _ =>
      obtain ⟨s, -, hargs, -⟩ := h
      obtain ⟨t, -, ht⟩ := Assembler.forall₂_mem_left hargs hv
      exact ⟨t, ht⟩

theorem Terminator.Typed.exists_has {t : Terminator} (h : t.Typed Γ) (hv : v ∈ t.uses) :
    ∃ ty, Γ.Has v ty := by
  cases t with
  | jump target => cases hv
  | branch condition ifTrue ifFalse =>
      obtain rfl := List.mem_singleton.1 hv
      exact ⟨_, h.1⟩
  | ret value =>
      obtain rfl : value = some v := Option.mem_toList.1 hv
      change Option.Rel Γ.Has (some v) Γ.result at h
      generalize Γ.result = t at h
      cases h with
      | some ht => exact ⟨_, ht⟩

/-- Typed code refers to nothing that is not there. -/
theorem Body.Typed.inRange (h : b.Typed d) : b.InRange d := by
  have hvalue : ∀ {v : ValueId} {t : Ty}, (b.typing d).Has v t → v.index < b.valueTypes.size :=
    fun hv => (Array.getElem?_eq_some_iff.1 hv).1
  refine ⟨fun v hv => ?_, ?_, fun k hk t ht => ?_⟩
  · obtain ⟨t, -, hvt⟩ := Assembler.forall₂_mem_left h.args hv
    exact hvalue hvt
  · rintro i ⟨k, hk, hi⟩
    have hi := (h.blocks k hk).instrs i hi
    refine ⟨fun v hv => ?_, fun v hv => ?_, fun x hx => ?_, fun id hid => ?_, fun id hid => ?_⟩
    · obtain ⟨t, hvt⟩ := hi.exists_has_of_mem hv
      exact hvalue hvt
    · obtain ⟨t, hvt⟩ := hi.exists_has hv
      exact hvalue hvt
    · cases i with
      | readVar _ _ | writeVar _ _ =>
          obtain rfl := Option.some.inj hx
          obtain ⟨t, ht, -⟩ := hi
          exact (Array.getElem?_eq_some_iff.1 ht).1
      | _ => cases hx
    · cases i with
      | datumAddress _ _ =>
          obtain rfl := Option.some.inj hid
          exact hi.2
      | _ => cases hid
    · cases i with
      | call _ _ _ =>
          obtain rfl := Option.some.inj hid
          obtain ⟨s, hs, -⟩ := hi
          exact (Array.getElem?_eq_some_iff.1 hs).1
      | _ => cases hid
  · have ht := (h.blocks k hk).terminator t ht
    refine ⟨fun v hv => ?_, fun id hid => ?_⟩
    · obtain ⟨ty, hvt⟩ := ht.exists_has hv
      exact hvalue hvt
    · cases t with
      | jump target =>
          obtain rfl := List.mem_singleton.1 hid
          exact ht
      | branch condition ifTrue ifFalse =>
          rcases List.mem_pair.1 hid with rfl | rfl
          · exact ht.2.1
          · exact ht.2.2
      | ret value => cases hid

end Instructions

namespace Emit

variable {α β : Type}

def Requires (P : Emitter → Prop) (m : Emit α) : Prop := ∀ e a e', Succeeds m e a e' → P e

namespace Requires

variable {P Q : Emitter → Prop} {m : Emit α} {k : α → Emit β} {f : Fault}

theorem bind (h : Requires P m) : Requires P (m >>= k) := by
  intro e b e' hb
  obtain ⟨a, e₁, ha, -⟩ := succeeds_bind.1 hb
  exact h e a e₁ ha

theorem after (hm : Leaves Eq m) (h : ∀ a, Requires P (k a)) : Requires P (m >>= k) := by
  intro e b e' hb
  obtain ⟨a, e₁, ha, hb⟩ := succeeds_bind.1 hb
  obtain rfl := hm.of_succeeds ha
  exact h a e b e' hb

theorem and (h : Requires P m) (h' : Requires Q m) : Requires (fun e => P e ∧ Q e) m :=
  fun e a e' ha => ⟨h e a e' ha, h' e a e' ha⟩

theorem ite {c : Prop} [Decidable c] {m' : Emit α} (h : Requires P m) (h' : Requires P m') :
    Requires P (if c then m else m') := by
  split
  · exact h
  · exact h'

theorem map {g : α → β} (h : Requires P m) : Requires P (g <$> m) := by
  rw [map_eq_pure_bind]
  exact h.bind

end Requires

section Operands

variable (v w : ValueId) (x : VarId) (t : Ty)

theorem requires_valueType : Requires (·.HasValue v) (valueType v) := fun _ _ _ h =>
  (Array.getElem?_eq_some_iff.1 (succeeds_valueType.1 h).1).1

theorem requires_expectType : Requires (·.HasValue v) (expectType v t) := fun _ _ _ h =>
  (Array.getElem?_eq_some_iff.1 (succeeds_expectType.1 h).1).1

theorem requires_operandType (op : BinaryOp) :
    Requires (fun e => e.HasValue v ∧ e.HasValue w) (operandType op v w) :=
  .and (requires_valueType v).bind (.after (leaves_valueType v) fun t => (requires_expectType w t).bind)

theorem requires_elementAddress :
    Requires (fun e => e.HasValue v ∧ e.HasValue w) (elementAddress t v w) :=
  .and (requires_expectType v .ptr).bind
    (.after (leaves_expectType v .ptr) fun _ => (requires_valueType w).bind)

theorem requires_getVar : Requires (·.HasVar x) (getVar x) := by
  intro e a e' h
  obtain ⟨b, _, hb, h⟩ := succeeds_bind.1 h
  obtain ⟨rfl, rfl⟩ := succeeds_body.1 hb
  obtain ⟨t, _, ht, -⟩ := succeeds_bind.1 h
  exact (Array.getElem?_eq_some_iff.1 (Body.varType_eq_ok_iff.1 (succeeds_check.1 ht).1)).1

theorem requires_setVar : Requires (fun e => e.HasVar x ∧ e.HasValue v) (setVar x v) := by
  intro e a e' h
  simp only [setVar, succeeds_bind, succeeds_body, succeeds_check, succeeds_expectType] at h
  obtain ⟨_, _, ⟨rfl, rfl⟩, t, _, ⟨ht, rfl⟩, _, _, ⟨hv, rfl⟩, -⟩ := h
  exact ⟨(Array.getElem?_eq_some_iff.1 (Body.varType_eq_ok_iff.1 ht)).1,
    (Array.getElem?_eq_some_iff.1 hv).1⟩

theorem requires_block {id : BlockId} {k : Body → Block → Emit α} :
    Requires (·.HasBlock id) (Emit.body >>= fun b => Emit.check (b.block id) >>= k b) := by
  intro e a e' h
  simp only [succeeds_bind, succeeds_body, succeeds_check] at h
  obtain ⟨_, _, ⟨rfl, rfl⟩, _, _, ⟨hk, rfl⟩, -⟩ := h
  exact (Array.getElem?_eq_some_iff.1 (Body.block_eq_ok_iff.1 hk)).1

theorem requires_switchTo (id : BlockId) : Requires (·.HasBlock id) (switchTo id) := by
  intro e a e' h
  obtain ⟨b, hb, -⟩ := succeeds_switchTo.1 h
  obtain ⟨⟨k, hk, -⟩, -⟩ := Body.switchTo_eq_ok hb
  exact (Array.getElem?_eq_some_iff.1 hk).1

theorem requires_branch (ifTrue ifFalse : BlockId) :
    Requires (fun e => e.HasValue v ∧ e.HasBlock ifTrue ∧ e.HasBlock ifFalse)
      (branch v ifTrue ifFalse) := by
  refine .and (requires_expectType v .bool).bind (.after (leaves_expectType v .bool) fun _ => ?_)
  refine .and requires_block ?_
  intro e a e' h
  simp only [succeeds_bind, succeeds_body, succeeds_check] at h
  obtain ⟨_, _, ⟨rfl, rfl⟩, _, _, ⟨-, rfl⟩, _, _, ⟨hk, rfl⟩, -⟩ := h
  exact (Array.getElem?_eq_some_iff.1 (Body.block_eq_ok_iff.1 hk)).1

theorem requires_dataAddress (id : DatumId) : Requires (·.HasDatum id) (dataAddress id) := by
  intro e a e' h
  simp only [dataAddress, succeeds_bind, succeeds_get, succeeds_check] at h
  obtain ⟨_, _, ⟨rfl, rfl⟩, d, _, ⟨hd, rfl⟩, -⟩ := h
  unfold Declarations.datum at hd
  split at hd
  · next hget => exact (Array.getElem?_eq_some_iff.1 hget).1
  · cases hd

theorem requires_expectTypes {vs : List ValueId} {ts : List Ty} (h : ts.length = vs.length) :
    Requires (fun e => ∀ v ∈ vs, e.HasValue v) (expectTypes vs ts) := by
  induction vs generalizing ts with
  | nil => exact fun _ _ _ _ v hv => by cases hv
  | cons v vs ih =>
      cases ts with
      | nil => cases h
      | cons t ts =>
          have hrest := Requires.and (requires_expectType v t).bind
            (.after (leaves_expectType v t) fun _ => ih (Nat.succ.inj h))
          exact fun e a e' ha => List.forall_mem_cons.2 (hrest e a e' ha)

theorem requires_call (name : String) (args : List ValueId) :
    Requires (fun e => ∀ v ∈ args, e.HasValue v) (call name args) := by
  intro e a e' h
  obtain ⟨_, _, hget, h⟩ := succeeds_bind.1 h
  obtain ⟨rfl, rfl⟩ := succeeds_get.1 hget
  dsimp only at h
  split at h
  · obtain ⟨s, _, hs, h⟩ := succeeds_bind.1 h
    obtain ⟨-, rfl⟩ := succeeds_check.1 hs
    obtain ⟨hlength, h⟩ := succeeds_refuse.1 h
    obtain ⟨_, _, hargs, -⟩ := succeeds_bind.1 h
    exact requires_expectTypes (not_not.1 hlength) _ _ _ hargs
  · exact absurd h succeeds_throw

theorem requires_returnValue : Requires (·.HasValue v) (returnValue v) := by
  refine .after leaves_body fun b => ?_
  split
  · exact (requires_expectType _ _).bind
  · exact (requires_valueType v).bind

end Operands

/-- A call is granted only if what it names is there. -/
theorem requires_perform (c : Call) : Requires c.InRange c.perform := by
  cases c with
  | load t address index => exact (requires_expectType _ _).bind.map
  | loadDynamic t address index => exact (requires_elementAddress _ _ _).bind.map
  | store address index value =>
      exact (Requires.and (requires_expectType _ _).bind
        (.after (leaves_expectType _ _) fun _ => (requires_valueType _).bind)).map
  | storeDynamic address index value =>
      have h : Requires (fun e => e.HasValue value ∧ e.HasValue address ∧ e.HasValue index)
          (storeDynamic address index value) :=
        .and (requires_valueType _).bind
          (.after (leaves_valueType _) fun _ => (requires_elementAddress _ _ _).bind)
      exact fun e a e' ha => and_rotate.1 (h.map e a e' ha)
  | operator op lhs rhs =>
      exact (Requires.after leaves_settings fun _ =>
        .ite (requires_operandType _ _ _).bind (requires_operandType _ _ _).bind).map
  | binary op lhs rhs => exact (requires_operandType _ _ _).bind.map
  | unary op operand => exact (requires_valueType _).bind.map
  | compare op lhs rhs =>
      exact (Requires.and (requires_valueType _).bind
        (.after (leaves_valueType _) fun _ => (requires_expectType _ _).bind)).map
  | select condition ifTrue ifFalse =>
      exact (Requires.and (requires_expectType _ _).bind (.after (leaves_expectType _ _) fun _ =>
        .and (requires_valueType _).bind
          (.after (leaves_valueType _) fun _ => (requires_expectType _ _).bind))).map
  | cast value target => exact (requires_valueType _).bind.map
  | localVar initial => exact (requires_valueType _).bind.map
  | getVar x => exact (requires_getVar x).map
  | setVar x value => exact (requires_setVar _ _).map
  | scratch initial => exact (requires_valueType _).bind.map
  | call name args => exact (requires_call _ _).map
  | dataAddress id => exact (requires_dataAddress id).map
  | switchTo id => exact (requires_switchTo id).map
  | jump target => exact requires_block.map
  | branch condition ifTrue ifFalse => exact (requires_branch _ _ _).map
  | returnValue value => exact (requires_returnValue value).map
  | beginDynamic l count => exact (requires_valueType _).bind.map
  | counter l =>
      cases l with
      | opened parts => exact (requires_getVar parts.var).map
      | _ => exact fun _ _ _ _ => trivial
  | _ => exact fun _ _ _ _ => trivial

end Emit

section Frames

namespace Body

variable {b b' : Body} {d : Declarations} {i j : Instr}

theorem Echoes.contains (h : b.Echoes b') (hi : b'.Contains i) : b.Contains i := by
  obtain ⟨k', hk', hi⟩ := hi
  obtain ⟨g, hg⟩ := Array.mem_iff_getElem?.1 hk'
  rcases h.blocks g k' hg with hempty | ⟨k, hk, hinstrs⟩
  · rw [hempty] at hi
    cases Array.not_mem_empty _ hi
  · exact ⟨k, Array.mem_of_getElem? hk, hinstrs ▸ hi⟩

theorem Within.contains (h : b.Within b') (hi : b.Contains i) : b'.Contains i := by
  obtain ⟨k, hk, hi⟩ := hi
  obtain ⟨g, hg⟩ := Array.mem_iff_getElem?.1 hk
  obtain ⟨p, hp⟩ := Array.mem_iff_getElem?.1 hi
  obtain ⟨k', hk', hw⟩ := h.blocks g k hg
  exact ⟨k', Array.mem_of_getElem? hk', Array.mem_of_getElem? (hw.instrs p i hp)⟩

theorem contains_of_push (h : b.push j = .ok b') (hi : b'.Contains i) : b.Contains i ∨ i = j := by
  obtain ⟨-, -, k, hk, -, hblocks⟩ := blocks_of_push h
  obtain ⟨k', hk', hi⟩ := hi
  obtain ⟨g, hg⟩ := Array.mem_iff_getElem?.1 hk'
  rw [hblocks] at hg
  split at hg
  · obtain rfl := Option.some.inj hg
    exact (Array.mem_push.1 hi).imp_left fun hi => ⟨k, Array.mem_of_getElem? hk, hi⟩
  · exact .inl ⟨k', Array.mem_of_getElem? hg, hi⟩

/-- A body whose operands have passed their check takes no address that is not in its frame. -/
theorem framed_of_checkOrder (h : b.checkOrder = .ok ()) : b.Framed := by
  rintro v s ⟨k, hk, hi⟩
  obtain ⟨g, hg⟩ := Array.mem_iff_getElem?.1 hk
  obtain ⟨n, hn⟩ := List.mem_iff_getElem?.1 (mem_fullLayout hg)
  obtain ⟨D, hfold, -⟩ := bind_eq_ok_iff.1 h
  obtain ⟨-, hblocks⟩ := states_of_foldlM (I := fun _ _ => True) hfold trivial fun _ _ _ _ _ _ _ => trivial
  obtain ⟨D₁, D₂, -, hblock⟩ := hblocks n _ hn
  obtain ⟨k', hk', hfold⟩ := checkBlock_eq_ok hblock
  obtain rfl := Option.some.inj (hk'.symm.trans hg)
  obtain ⟨p, hp⟩ := List.mem_iff_getElem?.1 (Array.mem_toList_iff.2 hi)
  rw [← Array.foldlM_toList] at hfold
  obtain ⟨-, hinstrs⟩ := states_of_foldlM (I := fun _ _ => True) hfold trivial fun _ _ _ _ _ _ _ => trivial
  obtain ⟨D₃, D₄, -, hinstr⟩ := hinstrs p _ hp
  obtain ⟨_, -, hinstr⟩ := bind_eq_ok_iff.1 hinstr
  obtain ⟨_, htypes, -⟩ := bind_eq_ok_iff.1 hinstr
  by_contra hs
  change requireIndex b.stack.size s.index = .ok () at htypes
  rw [requireIndex, if_neg hs] at htypes
  cases htypes

/-- Helpers take no addresses. -/
theorem IsHelper.framed {op : Operator} {t : Ty} (h : b.IsHelper op t) : b.Framed := by
  rintro v s ⟨k, hk, hi⟩
  rw [h.blocks] at hk
  obtain rfl := Array.mem_singleton.1 hk
  have hi := Array.mem_singleton.1 hi
  cases op <;> cases hi

theorem framed_of_implicitReturn (h : Assembler.implicitReturn b = .ok b') :
    b'.Framed ↔ b.Framed := by
  obtain rfl | ⟨-, h⟩ := Assembler.implicitReturn_eq_ok h
  · rfl
  have hstack : b'.stack = b.stack := by
    obtain ⟨-, rfl⟩ := terminate_eq_ok_iff.1 h
    rfl
  have hcontains : ∀ i, b'.Contains i ↔ b.Contains i :=
    fun i => ⟨(Echoes.terminate h).contains, (within_terminate h).contains⟩
  simp only [Framed, hcontains, hstack]

/-- The check of typed operands breaches the contract only for an address that is not in the frame. -/
theorem not_framed_of_checkOrder (ht : b.Typed d) {w : Breach} (h : b.checkOrder = .error (.breach w)) :
    ¬ b.Framed := by
  intro hframed
  rcases of_checkOrder_eq_error h with ⟨id, h⟩ | ⟨_, vs, h⟩ | ⟨k, hk, i, hi, h⟩ | ⟨k, -, -, h⟩
  · unfold block at h
    split at h <;> cases h
  · induction vs with
    | nil => cases h
    | cons v vs ih =>
        rw [requireDefined] at h
        split at h
        · exact ih h
        · cases h
  · obtain ⟨v, s, rfl, hs, -⟩ := checkTypes_eq_error ((ht.blocks k hk).instrs i hi) h
    exact Nat.not_lt.2 hs (hframed v s ⟨k, hk, hi⟩)
  · cases h

end Body

namespace Emitter.Steps

variable {P : Instr → Prop} {e e' : Emitter} {i : Instr}

/-- What has been recorded in the end was there before or is of the kind that is recorded. -/
theorem recorded (h : Steps P e e') (hi : e'.body.Contains i) : e.body.Contains i ∨ P i := by
  refine h.keeps (R := fun e₁ => ∀ i, e₁.body.Contains i → e.body.Contains i ∨ P i)
    (fun e₁ e₂ hstep h₁ i hi => ?_) (fun _ hi => .inl hi) i hi
  rcases hstep.records with hecho | ⟨j, hj, ⟨-, hb⟩ | ⟨t, -, hb⟩⟩
  · exact h₁ i (hecho.contains hi)
  · rcases Body.contains_of_push hb hi with hi | rfl
    · exact h₁ i hi
    · exact .inr hj
  · rcases Body.contains_of_push hb hi with hi | rfl
    · exact h₁ i ((Body.Echoes.newValue _ t).contains hi)
    · exact .inr hj

end Emitter.Steps

namespace Emit

/-- The address of a place is recorded only by the call that asks for it. -/
theorem moves_perform (c : Call) : Moves (fun i => ∀ v s, i = .stackAddress v s →
    ∃ buffer, c = .bufferAddress buffer ∧ s = buffer.place) c.perform := by
  have hrecords : Records (Emitter.Steps fun i => ∀ v s, i = .stackAddress v s →
      ∃ buffer, c = .bufferAddress buffer ∧ s = buffer.place) :=
    Moves.records fun i hi v s hs => absurd hi (hs ▸ id)
  have hoffsets : Offsets (Emitter.Steps fun i => ∀ v s, i = .stackAddress v s →
      ∃ buffer, c = .bufferAddress buffer ∧ s = buffer.place) :=
    ⟨fun _ _ _ => Moves.define _ (fun _ _ _ h => by cases h) fun _ => rfl⟩
  refine leaves_perform (fun slot _ => Moves.release slot) (fun slot _ _ => Moves.release slot)
    fun buffer hc => ?_
  refine Moves.define _ (fun w v s hs => ⟨buffer, hc, ?_⟩) fun _ => rfl
  exact (Instr.stackAddress.inj hs).2.symm

/-- The frame still has all places whose addresses are taken if the call asks for none but these. -/
theorem framed_perform {c : Call} {e : Emitter} (he : e.body.Framed)
    (hc : ∀ buffer, c = .bufferAddress buffer → buffer.place.index < e.body.stack.size) :
    (c.perform.run.run e).2.body.Framed := by
  have hsteps := moves_perform c e
  have hle := hsteps.within.stack.size_le
  intro v s hi
  rcases hsteps.recorded hi with hi | hi
  · exact (he v s hi).trans_le hle
  · obtain ⟨buffer, rfl, rfl⟩ := hi v s rfl
    exact (hc buffer rfl).trans_le hle

end Emit

namespace Assembler

variable {a : Assembler} {body b : Body} {lost : FunctionId → Prop} {owned : Prop}

/-- A request for the address of a buffer is made while a function is open that has its place. -/
def Owns (a : Assembler) (r : Request) : Prop := ∀ buffer, r = .emit (.bufferAddress buffer) →
  ∀ b, a.current? = some b → buffer.place.index < b.stack.size

def OwnsAll (a : Assembler) : List Request → Prop
  | [] => True
  | r :: rs => a.Owns r ∧ OwnsAll (r.perform.run.run a).2 rs

structure Framing (a : Assembler) (owned : Prop) : Prop where
  defined : ∀ b ∈ a.defined, b.Framed
  opened : owned → ∀ b, a.current? = some b → b.Framed

theorem Framing.mono {owned' : Prop} (h : a.Framing owned) (ho : owned' → owned) : a.Framing owned' :=
  ⟨h.defined, fun ho' => h.opened (ho ho')⟩

theorem Framing.begin (h : a.Framing owned) (name : String) (params : List Param)
    (result : Option Ty) :
    ((Request.begin name params result).perform.run.run a).2.Framing owned := by
  rw [run_begin]
  rcases a.beginFunction_cases name params result with ⟨-, -, hbegin⟩ | ⟨-, f, hbegin⟩
  swap
  · rw [hbegin]
    exact h
  rw [hbegin]
  refine ⟨h.defined, fun _ b hb => ?_⟩
  obtain rfl := Option.some.inj (current?_eq_some_iff.1 hb).2
  rintro v s ⟨k, hk, hi⟩
  obtain ⟨g, hg⟩ := Array.mem_iff_getElem?.1 hk
  rw [Body.instrs_new params hg] at hi
  cases Array.not_mem_empty _ hi

theorem Framing.emit (h : a.Framing owned) (c : Call) :
    ((Request.emit c).perform.run.run a).2.Framing (owned ∧ a.Owns (.emit c)) := by
  change ((Assembler.emit c.perform).run.run a).2.Framing _
  by_cases hopen : ∃ body, a.current? = some body
  · obtain ⟨body, hbody⟩ := hopen
    rw [run_emit_of_opened (m := c.perform) hbody rfl]
    refine ⟨h.defined, fun ho b hb => ?_⟩
    obtain rfl := Option.some.inj (current?_eq_some_iff.1 hb).2
    refine Emit.framed_perform (h.opened ho.1 body hbody) fun buffer hc => ?_
    exact ho.2 buffer (congrArg _ hc) body hbody
  · rw [run_emit_of_not_opened _ fun body hbody => hopen ⟨body, hbody⟩]
    exact h.mono And.left

theorem Framing.finish (h : a.Framing owned) (ha : a.Accounts lost) :
    (Request.finish.perform.run.run a).2.Framing owned := by
  rw [run_finish]
  by_cases hopen : ∃ body, a.current? = some body
  swap
  · rw [run_endFunction_of_not_opened fun b hb => hopen ⟨b, hb⟩]
    exact h
  obtain ⟨body, hbody⟩ := hopen
  have houtcome := ha.outcome hbody
  generalize (endFunction.run.run a).1 = r, (endFunction.run.run a).2 = a' at houtcome ⊢
  cases houtcome with
  | refused w => exact h
  | failed hf hstage hdeclarations hdefined henters =>
      exact ⟨hdefined ▸ h.defined, fun _ b hb => by cases hstage.symm.trans (current?_eq_some_iff.1 hb).1⟩
  | defined hends henters hcallees =>
      refine ⟨fun b hb => ?_, fun _ b hb => ?_⟩
      swap
      · cases hends.stage.symm.trans (current?_eq_some_iff.1 hb).1
      rw [hends.defined] at hb
      rcases List.mem_append.1 hb with hb | hb
      · exact h.defined b hb
      rcases List.mem_cons.1 hb with rfl | hb
      · exact Body.framed_of_checkOrder hends.ordered
      · obtain ⟨r, -, -, hhelper⟩ := hends.exists_request ha.typed.declarations hb
        exact hhelper.framed

theorem Framing.perform (h : a.Framing owned) (ha : a.Accounts lost) (r : Request) :
    (r.perform.run.run a).2.Framing (owned ∧ a.Owns r) := by
  cases r with
  | settings s =>
      rw [run_settings]
      rcases setSettings_cases a s with ⟨-, hset⟩ | ⟨-, hset⟩ <;> rw [hset]
      · exact ⟨h.defined, fun ho => h.opened ho.1⟩
      · exact h.mono And.left
  | begin name params result => exact (h.begin name params result).mono And.left
  | emit c => exact h.emit c
  | finish => exact (h.finish ha).mono And.left

theorem Framing.after (h : a.Framing owned) (ha : a.Accounts lost) (rs : List Request) :
    (a.after rs).Framing (owned ∧ a.OwnsAll rs) := by
  induction rs generalizing a lost owned with
  | nil => exact h.mono And.left
  | cons r rs ih => exact (ih (h.perform ha r) (ha.perform r)).mono fun ho => ⟨⟨ho.1, ho.2.1⟩, ho.2.2⟩

theorem framing_new (name : String) (s : Settings) : (new name s).Framing True where
  defined _ hb := by cases hb
  opened _ _ hb := by cases hb

/-- Ending a function breaches the contract only for an address that is not in its frame, and it fails
for such an address in any case. -/
theorem Accounts.framed_iff (ha : a.Accounts lost) (hbody : a.current? = some body) :
    (∀ w, (endFunction.run.run a).1 = .error (.breach w) → ¬ body.Framed) ∧
      ∀ u, (endFunction.run.run a).1 = .ok u → body.Framed := by
  constructor
  · intro w hw
    cases hb : implicitReturn body with
    | error f =>
        rw [run_endFunction_of_error hbody hb] at hw
        obtain rfl := Except.error.inj hw
        rcases implicitReturn_cases body with ⟨-, h⟩ | ⟨-, -, _, -, h⟩ | ⟨-, -, labels, h⟩
        · cases h.symm.trans hb
        · cases h.symm.trans hb
        · cases h.symm.trans hb
    | ok b =>
        rw [← Body.framed_of_implicitReturn hb]
        rcases (of_fails_define (ha.fails_define hbody hb (Prod.ext hw rfl))).2 with hf | hf
        · exact hf.elim
        · exact Body.not_framed_of_checkOrder (implicitReturn_typed (ha.typed.opened body hbody) hb) hf
  · intro u hu
    obtain ⟨body', b, helpers, hends⟩ := succeeds_endFunction (Prod.ext hu rfl)
    obtain rfl := Option.some.inj (hends.opened.symm.trans hbody)
    exact (Body.framed_of_implicitReturn hends.finished).1 (Body.framed_of_checkOrder hends.ordered)

/-- Whatever is requested of a new module and whichever ids are passed: the code that it holds refers
only to values, variables, blocks, functions and data that are there; a call is granted only if what
it names is there; and finished functions and helpers take addresses of places in their own frames.
So does the open function, and its end keeps the contract, as long as the address of a buffer is only
asked for where the buffer has its place. Otherwise its end fails. -/
theorem in_range_of_recording (name : String) (settings : Settings) (requests : List Request) :
    (∀ b, ((new name settings).after requests).Holds b →
      b.InRange ((new name settings).after requests).declarations) ∧
    (∀ (body : Body) (c : Call) (r : Reply), ((new name settings).after requests).current? = some body →
      ((emit c.perform).run.run ((new name settings).after requests)).1 = .ok r →
        c.InRange ⟨body, ((new name settings).after requests).declarations,
          ((new name settings).after requests).pools,
          ((new name settings).after requests).settings⟩) ∧
    (∀ b, ((new name settings).after requests).Holds b →
      ((new name settings).after requests).current? ≠ some b → b.Framed) ∧
    ((new name settings).OwnsAll requests →
      (∀ b, ((new name settings).after requests).Holds b → b.Framed) ∧
      ∀ w, (endFunction.run.run ((new name settings).after requests)).1 ≠ .error (.breach w)) ∧
    ∀ body, ((new name settings).after requests).current? = some body → ¬ body.Framed →
      ∀ u, (endFunction.run.run ((new name settings).after requests)).1 ≠ .ok u := by
  have ha := (accounts_new name settings).after requests
  have hframing := (framing_new name settings).after (accounts_new name settings) requests
  generalize (new name settings).after requests = a at ha hframing ⊢
  have hothers : ∀ b, a.Holds b → a.current? ≠ some b → b.Framed := by
    intro b hb hopen
    cases hb with
    | opened h => exact absurd h hopen
    | defined h => exact hframing.defined b h
    | helper hr hs hb =>
        have hmade : HasBody a.declarations _ b := ⟨_, hs, hb⟩
        exact (hmade.isHelper_of_typed (ha.typed.declarations.pending _ hr)).2.1.framed
  refine ⟨fun b hb => (ha.typed.body hb).inRange, fun body c r hbody hc => ?_, hothers,
    fun howns => ⟨fun b hb => ?_, fun w hw => ?_⟩, fun body hbody hframed u hu => ?_⟩
  · rw [run_emit_of_opened (m := c.perform) hbody rfl] at hc
    exact Emit.requires_perform c _ r _ (Prod.ext hc rfl)
  · by_cases hopen : a.current? = some b
    · exact hframing.opened ⟨trivial, howns⟩ b hopen
    · exact hothers b hb hopen
  · by_cases hopen : ∃ body, a.current? = some body
    · obtain ⟨body, hbody⟩ := hopen
      exact (ha.framed_iff hbody).1 w hw (hframing.opened ⟨trivial, howns⟩ body hbody)
    · rw [run_endFunction_of_not_opened fun b hb => hopen ⟨b, hb⟩] at hw
      cases hw
  · exact hframed ((ha.framed_iff hbody).2 u hu)

/-- A buffer of a function that has ended is passed on to the next one. -/
def borrowed : List Request :=
  [.begin "f" [] none, .emit (.stackBuffer .i32 1), .emit .returnVoid, .finish, .begin "g" [] none,
    .emit (.bufferAddress ⟨⟨.buffer, 0⟩, ⟨0⟩, .i32, 1⟩), .emit .returnVoid]

/-- The call is granted, the function takes the address of a place that its frame does not have, and
its end breaches the contract. -/
theorem breach_borrowed :
    ((emit (Call.bufferAddress ⟨⟨.buffer, 0⟩, ⟨0⟩, .i32, 1⟩).perform).run.run
      ((new "m").after (borrowed.take 5))).1 = .ok (.value ⟨0⟩) ∧
    (∃ body, ((new "m").after borrowed).current? = some body ∧ ¬ body.Framed) ∧
    (endFunction.run.run ((new "m").after borrowed)).1 = .error (.breach (.subscript 0 0)) := by
  refine ⟨by cbv, ⟨?body, ?hbody, fun h => ?_⟩, by cbv⟩
  case body =>
    exact {
      id := ⟨1⟩
      name := "g"
      params := []
      result := none
      blocks := #[⟨"entry", #[.stackAddress ⟨0⟩ ⟨0⟩], some (.ret none)⟩]
      layout := [⟨0⟩]
      valueTypes := #[.ptr] }
  case hbody => cbv
  exact Nat.not_lt_zero _ (h ⟨0⟩ ⟨0⟩ ⟨_, Array.mem_singleton_self _, Array.mem_singleton_self _⟩)

/-- Two functions that take the addresses of their buffers. The second one is given the value and the
buffer of the first one again. -/
def addressed : List Request :=
  let buffer : StackBuffer := ⟨⟨.buffer, 0⟩, ⟨0⟩, .i32, 1⟩
  [.begin "f" [] none, .emit (.stackBuffer .i32 1), .emit (.bufferAddress buffer), .emit .returnVoid,
    .finish, .begin "g" [] none, .emit (.stackBuffer .i64 3), .emit (.load .i32 ⟨0⟩ 0),
    .emit (.bufferAddress buffer), .emit .returnVoid]

/-- The value means nothing to the second function. The buffer means a place of its own, and the address
keeps the contract. -/
theorem addressed_keeps_contract : (new "m").OwnsAll addressed ∧
    (∀ r, ((emit (Call.load .i32 ⟨0⟩ 0).perform).run.run ((new "m").after (addressed.take 7))).1 ≠
      .ok r) ∧
    ∀ w, (endFunction.run.run ((new "m").after addressed)).1 ≠ .error (.breach w) := by
  have hopen : ∀ k ∈ [2, 7, 8], ((new "m").after (addressed.take k)).current?.map
      (fun b => (b.stack.size, b.valueTypes.size)) = some (1, 0) := by
    decide +kernel
  have hstack : ∀ k ∈ [2, 7, 8], ∀ b, ((new "m").after (addressed.take k)).current? = some b →
      0 < b.stack.size := by
    intro k hk b hb
    have hsizes := hopen k hk
    rw [hb] at hsizes
    obtain ⟨hplaces, -⟩ := Prod.mk.inj (Option.some.inj hsizes)
    rw [hplaces]
    exact Nat.one_pos
  have howns : (new "m").OwnsAll addressed := by
    refine ⟨nofun, nofun, ?_, nofun, nofun, nofun, nofun, nofun, ?_, nofun, trivial⟩
    · rintro _ ⟨⟩
      exact hstack 2 (by decide)
    · rintro _ ⟨⟩
      exact hstack 8 (by decide)
  refine ⟨howns, fun r hr => ?_, ((in_range_of_recording "m" {} addressed).2.2.2.1 howns).2⟩
  obtain ⟨body, hbody, hsizes⟩ := Option.map_eq_some_iff.1 (hopen 7 (by decide))
  obtain ⟨-, hvalues⟩ := Prod.mk.inj hsizes
  have hlt : 0 < body.valueTypes.size :=
    (in_range_of_recording "m" {} (addressed.take 7)).2.1 body _ r hbody hr
  rw [hvalues] at hlt
  exact Nat.lt_irrefl 0 hlt

end Assembler

end Frames

end Dataflow.Code
