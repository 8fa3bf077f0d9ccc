import Dataflow.Proofs.Code.Alike
import Dataflow.Proofs.Code.Call

/-!
# Recording the same calls twice

The same calls are made on two emitters whose settings differ. As long as no function has the name
of a helper, operators are accepted by both or refused by both, with the same answer, and the two
bodies stay alike. Only source locations can be refused by one of them alone, which records them
while the other leaves them out.
-/

namespace Dataflow.Code

section Names

theorem Operator.name_injective : Function.Injective Operator.name := by
  intro op op' h
  rcases op with op | op <;> rcases op' with op' | op' <;> cases op <;> cases op' <;>
    first | rfl | (simp [Operator.name, BinaryOp.name, UnaryOp.name] at h)

theorem Ty.name_injective : Function.Injective Ty.name := by
  intro t t' h
  cases t <;> cases t' <;> first | rfl | (simp [Ty.name] at h)

theorem Operator.notMem_name (op : Operator) : '_' ∉ op.name.toList := by
  rcases op with op | op <;> cases op <;> simp [Operator.name, BinaryOp.name, UnaryOp.name]

theorem Ty.notMem_name (t : Ty) : '_' ∉ t.name.toList := by
  cases t <;> simp [Ty.name]

namespace Declarations

theorem helperName_injective {op op' : Operator} {t t' : Ty}
    (h : helperName op t = helperName op' t') : op = op' ∧ t = t' := by
  have h := congrArg String.toList h
  simp only [helperName, toString, String.toList_append, List.append_assoc,
    List.append_cancel_left_eq] at h
  have h : op.name.toList ++ '_' :: t.name.toList = op'.name.toList ++ '_' :: t'.name.toList := h
  obtain ⟨hop, -, ht⟩ := (List.append_cons_inj_of_notMem op.notMem_name t.notMem_name).1 h
  exact ⟨Operator.name_injective (String.ext hop), Ty.name_injective (String.ext ht)⟩

/-- No two functions have one name, and those that are not exported are the helpers. -/
structure Regular (d : Declarations) : Prop where
  distinct : ∀ (i j : Nat) (s s' : Signature), d.functions[i]? = some s →
    d.functions[j]? = some s' → s.name = s'.name → i = j
  exported : ∀ s ∈ d.functions, s.exported = true → ∀ op t, s.name ≠ helperName op t
  hidden : ∀ (i : Nat) (s : Signature), d.functions[i]? = some s → s.exported = false →
    ∃ op t, s.name = helperName op t ∧ d.helpers.find? (op, t) = some ⟨i⟩
  helpers : ∀ op t id, d.helpers.find? (op, t) = some id →
    ∃ s, d.functions[id.index]? = some s ∧ s.exported = false ∧ s.name = helperName op t
  asked : ∀ r ∈ d.pending, d.helpers.find? (r.op, r.ty) = some r.function

structure AddsHelpers (d d' : Declarations) : Prop where
  within : d.Within d'
  exported : ∀ s, s.exported = true → (s ∈ d'.functions ↔ s ∈ d.functions)
  data : d'.data = d.data
  regular : d'.Regular

structure Alike (d₁ d₂ : Declarations) : Prop where
  exported : ∀ s, s.exported = true → (s ∈ d₁.functions ↔ s ∈ d₂.functions)
  data : d₂.data = d₁.data
  left : d₁.Regular
  right : d₂.Regular

variable {d d' d₁ d₂ : Declarations}

theorem find?_eq_some {name : String} {id : FunctionId} (h : d.find? name = some id) :
    ∃ s, d.functions[id.index]? = some s ∧ s.name = name := by
  obtain ⟨i, hi, rfl⟩ := Option.map_eq_some_iff.1 h
  obtain ⟨hlt, hname, -⟩ := Array.findIdx?_eq_some_iff_getElem.1 hi
  exact ⟨_, Array.getElem?_eq_getElem hlt, by simpa using hname⟩

theorem find?_eq_none {name : String} (h : d.find? name = none) {s : Signature}
    (hs : s ∈ d.functions) : s.name ≠ name := by
  have h := Option.map_eq_none_iff.1 h
  rw [Array.findIdx?_eq_none_iff] at h
  simpa using h s hs

theorem distinct_push {functions : Array Signature} {s : Signature}
    (h : ∀ (i j : Nat) (s s' : Signature), functions[i]? = some s → functions[j]? = some s' →
      s.name = s'.name → i = j) (hs : ∀ s' ∈ functions, s'.name ≠ s.name) (i j : Nat)
    (s₁ s₂ : Signature) (h₁ : (functions.push s)[i]? = some s₁)
    (h₂ : (functions.push s)[j]? = some s₂) (heq : s₁.name = s₂.name) : i = j := by
  rcases getElem?_of_push h₁ with hi | ⟨hi, rfl⟩
  · rcases getElem?_of_push h₂ with hj | ⟨-, rfl⟩
    · exact h i j s₁ s₂ hi hj heq
    · exact absurd heq (hs s₁ (Array.mem_of_getElem? hi))
  · rcases getElem?_of_push h₂ with hj | ⟨hj, -⟩
    · exact absurd heq.symm (hs s₂ (Array.mem_of_getElem? hj))
    · rw [hi, hj]

/-- A function of a new name can be declared. -/
theorem Regular.declare (h : d.Regular) {s : Signature} (hfind : d.find? s.name = none)
    (hname : ∀ op t, s.name ≠ helperName op t) (hs : s.exported = true) :
    Regular { d with functions := d.functions.push s } := by
  refine ⟨distinct_push h.distinct fun _ => find?_eq_none hfind, fun s' hs' he => ?_,
    fun i s' hs' he => ?_, fun op t id hid => ?_, h.asked⟩
  · rcases Array.mem_push.1 hs' with hs' | rfl
    · exact h.exported s' hs' he
    · exact hname
  · rcases getElem?_of_push hs' with hs' | ⟨-, rfl⟩
    · exact h.hidden i s' hs' he
    · rw [hs] at he
      cases he
  · obtain ⟨s', hs', he⟩ := h.helpers op t id hid
    exact ⟨s', Prefix.push _ _ _ _ hs', he⟩

/-- The name of a helper is free until it is asked for. -/
theorem Regular.name_ne_helperName (h : d.Regular) {op : Operator} {t : Ty}
    (hfind : d.helpers.find? (op, t) = none) {s : Signature} (hs : s ∈ d.functions) :
    s.name ≠ helperName op t := by
  intro hname
  cases he : s.exported with
  | true => exact h.exported s hs he op t hname
  | false =>
      obtain ⟨i, hi⟩ := Array.mem_iff_getElem?.1 hs
      obtain ⟨op', t', hname', hid⟩ := h.hidden i s hi he
      obtain ⟨rfl, rfl⟩ := helperName_injective (hname.symm.trans hname')
      rw [hfind] at hid
      cases hid

/-- The helper of an operator is there or can be declared. -/
theorem Regular.exists_helper (h : d.Regular) (op : Operator) (t : Ty) : ∃ id d',
    d.helper op t = .ok (id, d') ∧ d'.helpers.find? (op, t) = some id ∧ d.AddsHelpers d' := by
  cases hfind : d.helpers.find? (op, t) with
  | some id =>
      refine ⟨id, d, ?_, hfind, .refl d, fun _ _ => .rfl, rfl, h⟩
      rw [helper, hfind]
      rfl
  | none =>
      have hname : d.find? (helperName op t) = none := by
        cases hname : d.find? (helperName op t) with
        | none => rfl
        | some id =>
            obtain ⟨s, hs, hsname⟩ := find?_eq_some hname
            exact absurd hsname (h.name_ne_helperName hfind (Array.mem_of_getElem? hs))
      have hok : d.helper op t = .ok (⟨d.functions.size⟩, { d with
          functions := d.functions.push ⟨helperName op t, List.replicate op.arity t, some t, false⟩
          helpers := d.helpers.insert (op, t) ⟨d.functions.size⟩
          pending := d.pending ++ [⟨⟨d.functions.size⟩, op, t⟩] }) := by
        simp only [helper, hfind, Declarations.declare, hname]
        rfl
      refine ⟨_, _, hok, (Table.find?_insert ..).trans (if_pos rfl),
        ⟨.push _ _, (helper_eq_ok hok).2.helpers⟩, fun s hs => ?_, rfl, ?_⟩
      · rw [Array.mem_push]
        refine ⟨fun hmem => hmem.resolve_right ?_, .inl⟩
        rintro rfl
        cases hs
      · refine ⟨distinct_push h.distinct fun _ => h.name_ne_helperName hfind, fun s hs he => ?_,
          fun i s hs he => ?_, fun op' t' id hid => ?_, fun r hr => ?_⟩
        · rcases Array.mem_push.1 hs with hs | rfl
          · exact h.exported s hs he
          · cases he
        · rcases getElem?_of_push hs with hs | ⟨rfl, rfl⟩
          · obtain ⟨op', t', hname', hid⟩ := h.hidden i s hs he
            exact ⟨op', t', hname', (helper_eq_ok hok).2.helpers _ _ hid⟩
          · exact ⟨op, t, rfl, (Table.find?_insert ..).trans (if_pos rfl)⟩
        · rw [Table.find?_insert] at hid
          split at hid
          case isTrue hkey =>
            obtain ⟨rfl, rfl⟩ := Prod.mk.inj hkey
            obtain rfl := Option.some.inj hid
            exact ⟨_, Array.getElem?_push_size, rfl, rfl⟩
          case isFalse =>
            obtain ⟨s, hs, he⟩ := h.helpers op' t' id hid
            exact ⟨s, Prefix.push _ _ _ _ hs, he⟩
        · rcases List.mem_append.1 hr with hr | hr
          · exact (helper_eq_ok hok).2.helpers _ _ (h.asked r hr)
          · obtain rfl := List.mem_singleton.1 hr
            exact (Table.find?_insert ..).trans (if_pos rfl)

theorem Alike.addsHelpers {d₁' d₂' : Declarations} (h : d₁.Alike d₂) (h₁ : d₁.AddsHelpers d₁')
    (h₂ : d₂.AddsHelpers d₂') : d₁'.Alike d₂' :=
  ⟨fun s hs => (h₁.exported s hs).trans ((h.exported s hs).trans (h₂.exported s hs).symm),
    h₂.data.trans (h.data.trans h₁.data.symm), h₁.regular, h₂.regular⟩

theorem Regular.addsHelpers (h : d.Regular) : d.AddsHelpers d :=
  ⟨.refl d, fun _ _ => .rfl, rfl, h⟩

/-- A name that is not a helper's is looked up alike. -/
theorem Alike.find? (h : d₁.Alike d₂) {name : String} (hname : ∀ op t, name ≠ helperName op t) :
    Option.Rel (d₁.Twin d₂) (d₁.find? name) (d₂.find? name) := by
  have hexported {d : Declarations} (hd : d.Regular) {i : Nat} {s : Signature}
      (hs : d.functions[i]? = some s) (hsname : s.name = name) : s.exported = true := by
    cases he : s.exported with
    | true => rfl
    | false =>
        obtain ⟨op, t, heq, -⟩ := hd.hidden i s hs he
        exact absurd (hsname.symm.trans heq) (hname op t)
  cases h₁ : d₁.find? name with
  | none =>
      cases h₂ : d₂.find? name with
      | none => exact .none
      | some id =>
          obtain ⟨s, hs, hsname⟩ := find?_eq_some h₂
          have hmem := (h.exported s (hexported h.right hs hsname)).2 (Array.mem_of_getElem? hs)
          exact absurd hsname (find?_eq_none h₁ hmem)
  | some id₁ =>
      obtain ⟨s, hs, hsname⟩ := find?_eq_some h₁
      have he := hexported h.left hs hsname
      have hmem := (h.exported s he).1 (Array.mem_of_getElem? hs)
      cases h₂ : d₂.find? name with
      | none => exact absurd hsname (find?_eq_none h₂ hmem)
      | some id₂ =>
          obtain ⟨s', hs', hsname'⟩ := find?_eq_some h₂
          obtain ⟨j, hj⟩ := Array.mem_iff_getElem?.1 hmem
          obtain rfl := h.right.distinct _ _ _ _ hj hs' (hsname.trans hsname'.symm)
          exact .some ⟨s, he, hs, hj⟩

end Declarations

end Names

inductive Matches {α : Type} (R : α → α → Prop) : Except Fault α → Except Fault α → Prop
  | ok {a b : α} : R a b → Matches R (.ok a) (.ok b)
  | error (f : Fault) : Matches R (.error f) (.error f)

theorem Matches.bind {α β : Type} {R : α → α → Prop} {S : β → β → Prop} {x y : Except Fault α}
    {f g : α → Except Fault β} (h : Matches R x y) (hk : ∀ a b, R a b → Matches S (f a) (g b)) :
    Matches S (x >>= f) (y >>= g) := by
  cases h with
  | ok hab => exact hk _ _ hab
  | error f => exact .error f

theorem Matches.imp {α : Type} {R S : α → α → Prop} {x y : Except Fault α} (h : Matches R x y)
    (hk : ∀ a b, x = .ok a → y = .ok b → R a b → S a b) : Matches S x y := by
  cases h with
  | ok hab => exact .ok (hk _ _ rfl rfl hab)
  | error f => exact .error f

section Bodies

variable {d₁ d₂ : Declarations} {b₁ b₂ : Body}

theorem Instrs.Alike.append {is js is' js' : List Instr} (h : Alike d₁ d₂ is js)
    (h' : Alike d₁ d₂ is' js') : Alike d₁ d₂ (is ++ is') (js ++ js') := by
  induction h with
  | nil => exact h'
  | left _ ih => exact .left ih
  | right _ ih => exact .right ih
  | cons hi hj _ ih => exact .cons hi hj ih

namespace Body.Alike

theorem valueType (h : b₁.Alike d₁ d₂ b₂) (v : ValueId) : b₂.valueType v = b₁.valueType v := by
  rw [h.rest]
  rfl

theorem varType (h : b₁.Alike d₁ d₂ b₂) (x : VarId) : b₂.varType x = b₁.varType x := by
  rw [h.rest]
  rfl

theorem block (h : b₁.Alike d₁ d₂ b₂) (id : BlockId) :
    Matches (Block.Alike d₁ d₂) (b₁.block id) (b₂.block id) := by
  have hname : b₂.name = b₁.name := by rw [h.rest]
  have hblock := h.blocks id.index
  unfold Body.block
  rw [hname]
  generalize b₁.blocks[id.index]? = x at hblock
  generalize b₂.blocks[id.index]? = y at hblock
  cases hblock with
  | none => exact .error _
  | some hk => exact .ok hk

theorem requireOpen (h : b₁.Alike d₁ d₂ b₂) :
    Matches (fun _ _ => True) b₁.requireOpen b₂.requireOpen := by
  have hcurrent : b₂.current = b₁.current := by rw [h.rest]
  have hname : b₂.name = b₁.name := by rw [h.rest]
  unfold Body.requireOpen
  rw [hcurrent, hname]
  refine (h.block _).bind fun k₁ k₂ hk => ?_
  have hclosed : k₂.isClosed = k₁.isClosed := by rw [Block.isClosed, hk.terminator, Block.isClosed]
  rw [hclosed, hk.label]
  cases k₁.isClosed with
  | true => exact .error _
  | false => exact .ok trivial

/-- The current blocks are changed alike. -/
theorem modifyCurrent (h : b₁.Alike d₁ d₂ b₂) {f g : Block → Block}
    (hfg : ∀ k₁ k₂, k₁.Alike d₁ d₂ k₂ → (f k₁).Alike d₁ d₂ (g k₂)) :
    (b₁.modifyCurrent f).Alike d₁ d₂ (b₂.modifyCurrent g) := by
  have hcurrent : b₂.current = b₁.current := by rw [h.rest]
  unfold Body.modifyCurrent
  refine ⟨?_, fun i => ?_, h.twin⟩
  · rw [h.rest]
  · dsimp only
    rw [Array.getElem?_modify, Array.getElem?_modify, hcurrent]
    have hblock := h.blocks i
    generalize b₁.blocks[i]? = x at hblock ⊢
    generalize b₂.blocks[i]? = y at hblock ⊢
    split
    · cases hblock with
      | none => exact .none
      | some hk => exact .some (hfg _ _ hk)
    · exact hblock

theorem terminate (h : b₁.Alike d₁ d₂ b₂) (t : Terminator) :
    Matches (Body.Alike d₁ d₂) (b₁.terminate t) (b₂.terminate t) :=
  h.requireOpen.bind fun _ _ _ => .ok (h.modifyCurrent fun _ _ hk => ⟨hk.label, rfl, hk.instrs⟩)

theorem moveTo (h : b₁.Alike d₁ d₂ b₂) (id : BlockId) :
    (b₁.moveTo id).Alike d₁ d₂ (b₂.moveTo id) := by
  refine ⟨?_, h.blocks, h.twin⟩
  rw [h.rest]
  rfl

theorem size_blocks (h : b₁.Alike d₁ d₂ b₂) : b₂.blocks.size = b₁.blocks.size := by
  have hnone (i : Nat) : b₁.blocks[i]? = none ↔ b₂.blocks[i]? = none := by
    have hblock := h.blocks i
    generalize b₁.blocks[i]? = x at hblock
    generalize b₂.blocks[i]? = y at hblock
    cases hblock <;> simp
  have h₁ := (hnone b₁.blocks.size).1 (Array.getElem?_eq_none (Nat.le_refl _))
  have h₂ := (hnone b₂.blocks.size).2 (Array.getElem?_eq_none (Nat.le_refl _))
  exact Nat.le_antisymm (Array.getElem?_eq_none_iff.1 h₁) (Array.getElem?_eq_none_iff.1 h₂)

theorem newBlock (h : b₁.Alike d₁ d₂ b₂) (label : String) :
    (b₁.newBlock label).2.Alike d₁ d₂ (b₂.newBlock label).2 ∧
      (b₂.newBlock label).1 = (b₁.newBlock label).1 := by
  refine ⟨⟨?_, fun i => ?_, h.twin⟩, congrArg BlockId.mk h.size_blocks⟩
  · unfold Body.newBlock
    rw [h.rest]
  · change Option.Rel _ (b₁.blocks.push _)[i]? (b₂.blocks.push _)[i]?
    rw [Array.getElem?_push, Array.getElem?_push, h.size_blocks]
    split
    · exact .some ⟨rfl, rfl, .nil⟩
    · exact h.blocks i

theorem newValue (h : b₁.Alike d₁ d₂ b₂) (t : Ty) :
    (b₁.newValue t).2.Alike d₁ d₂ (b₂.newValue t).2 ∧
      (b₂.newValue t).1 = (b₁.newValue t).1 := by
  refine ⟨⟨?_, h.blocks, h.twin⟩, ?_⟩
  · unfold Body.newValue
    rw [h.rest]
  · rw [h.rest]
    rfl

theorem newVar (h : b₁.Alike d₁ d₂ b₂) (t : Ty) :
    (b₁.newVar t).2.Alike d₁ d₂ (b₂.newVar t).2 ∧ (b₂.newVar t).1 = (b₁.newVar t).1 := by
  refine ⟨⟨?_, h.blocks, h.twin⟩, ?_⟩
  · unfold Body.newVar
    rw [h.rest]
  · rw [h.rest]
    rfl

theorem newPlace (h : b₁.Alike d₁ d₂ b₂) (slot : Slot) (bytes : Nat) : Body.Alike d₁ d₂
      { (b₁.newPlace bytes).2 with
        bufferPlaces := b₁.bufferPlaces.insert slot.index (b₁.newPlace bytes).1 }
      { (b₂.newPlace bytes).2 with
        bufferPlaces := b₂.bufferPlaces.insert slot.index (b₂.newPlace bytes).1 } := by
  refine ⟨?_, h.blocks, h.twin⟩
  unfold Body.newPlace
  rw [h.rest]

/-- A source location in one of the bodies only. -/
theorem push_location (h : b₁.Alike d₁ d₂ b₂) {n : Nat} {b : Body}
    (hb : b₁.push (.location n) = .ok b) : b.Alike d₁ d₂ b₂ := by
  obtain ⟨-, rfl⟩ := Body.push_eq_ok_iff.1 hb
  refine ⟨?_, fun i => ?_, h.twin⟩
  · rw [h.rest]
  · dsimp only
    rw [Array.getElem?_modify]
    have hblock := h.blocks i
    generalize b₁.blocks[i]? = x at hblock ⊢
    generalize b₂.blocks[i]? = y at hblock ⊢
    split
    · cases hblock with
      | none => exact .none
      | @some k₁ k₂ hk =>
          have hinstrs := hk.instrs.append (.left (n := n) .nil)
          rw [List.append_nil, ← Array.toList_push] at hinstrs
          exact .some ⟨hk.label, hk.terminator, hinstrs⟩
    · exact hblock

end Body.Alike

section Symmetry

theorem Instrs.Alike.symm {is js : List Instr} (h : Alike d₁ d₂ is js) : Alike d₂ d₁ js is := by
  induction h with
  | nil => exact .nil
  | left _ ih => exact .right ih
  | right _ ih => exact .left ih
  | cons hi hj _ ih => exact .cons hj hi ih

theorem Body.Alike.symm (h : b₁.Alike d₁ d₂ b₂) : b₂.Alike d₂ d₁ b₁ := by
  obtain ⟨s, he, hs₁, hs₂⟩ := h.twin
  refine ⟨?_, fun i => ?_, s, he, hs₂, hs₁⟩
  · rw [h.rest]
  · have hblock := h.blocks i
    generalize b₁.blocks[i]? = x at hblock ⊢
    generalize b₂.blocks[i]? = y at hblock ⊢
    cases hblock with
    | none => exact .none
    | some hk => exact .some ⟨hk.label.symm, hk.terminator.symm, hk.instrs.symm⟩

theorem Declarations.Alike.symm (h : d₁.Alike d₂) : d₂.Alike d₁ :=
  ⟨fun s hs => (h.exported s hs).symm, h.data.symm, h.right, h.left⟩

end Symmetry

end Bodies

structure Emitter.Alike (e₁ e₂ : Emitter) : Prop where
  body : e₁.body.Alike e₁.declarations e₂.declarations e₂.body
  declarations : e₁.declarations.Alike e₂.declarations
  pools : e₂.pools = e₁.pools

theorem Emitter.Alike.symm {e₁ e₂ : Emitter} (h : e₁.Alike e₂) : e₂.Alike e₁ :=
  ⟨h.body.symm, h.declarations.symm, h.pools.symm⟩

namespace Emit

variable {α β : Type} {e₁ e₂ : Emitter}

def Agrees (m₁ m₂ : Emit α) (e₁ e₂ : Emitter) : Prop :=
  e₁.Alike e₂ → (m₂.run.run e₂).1 = (m₁.run.run e₁).1 ∧
    (m₁.run.run e₁).2.Alike (m₂.run.run e₂).2 ∧
    e₁.declarations.Within (m₁.run.run e₁).2.declarations ∧
    e₂.declarations.Within (m₂.run.run e₂).2.declarations

namespace Agrees

theorem pure (a : α) : Agrees (Pure.pure a) (Pure.pure a) e₁ e₂ :=
  fun h => ⟨rfl, h, .refl _, .refl _⟩

theorem pure_eq {a b : α} (h : b = a) : Agrees (Pure.pure a) (Pure.pure b) e₁ e₂ :=
  h ▸ pure a

theorem throw (f : Fault) :
    Agrees (MonadExcept.throw f : Emit α) (MonadExcept.throw f) e₁ e₂ :=
  fun h => ⟨rfl, h, .refl _, .refl _⟩

theorem bind {m₁ m₂ : Emit β} {k₁ k₂ : β → Emit α} (hm : Agrees m₁ m₂ e₁ e₂)
    (hk : ∀ b e₁' e₂', e₁.declarations.Within e₁'.declarations →
      e₂.declarations.Within e₂'.declarations → Agrees (k₁ b) (k₂ b) e₁' e₂') :
    Agrees (m₁ >>= k₁) (m₂ >>= k₂) e₁ e₂ := by
  intro he
  obtain ⟨hr, h, hw₁, hw₂⟩ := hm he
  rw [run_bind, run_bind]
  rcases hrun₁ : m₁.run.run e₁ with ⟨r₁, e₁'⟩
  rcases hrun₂ : m₂.run.run e₂ with ⟨r₂, e₂'⟩
  rw [hrun₁, hrun₂] at hr h
  rw [hrun₁] at hw₁
  rw [hrun₂] at hw₂
  obtain rfl : r₂ = r₁ := hr
  cases r₂ with
  | error f => exact ⟨rfl, h, hw₁, hw₂⟩
  | ok b =>
      obtain ⟨hr', h', hw₁', hw₂'⟩ := hk b e₁' e₂' hw₁ hw₂ h
      exact ⟨hr', h', hw₁.trans hw₁', hw₂.trans hw₂'⟩

theorem map {m₁ m₂ : Emit β} {f : β → α} (hm : Agrees m₁ m₂ e₁ e₂) :
    Agrees (f <$> m₁) (f <$> m₂) e₁ e₂ := by
  rw [map_eq_pure_bind, map_eq_pure_bind]
  exact hm.bind fun b _ _ _ _ => pure (f b)

/-- Looking at the state, what is looked at is alike. -/
theorem get {k₁ k₂ : Emitter → Emit α}
    (h : e₁.Alike e₂ → Agrees (k₁ e₁) (k₂ e₂) e₁ e₂) :
    Agrees (MonadState.get >>= k₁) (MonadState.get >>= k₂) e₁ e₂ :=
  fun he => h he he

theorem body {k₁ k₂ : Body → Emit α}
    (h : e₁.Alike e₂ → Agrees (k₁ e₁.body) (k₂ e₂.body) e₁ e₂) :
    Agrees (Emit.body >>= k₁) (Emit.body >>= k₂) e₁ e₂ :=
  fun he => h he he

theorem settings {k₁ k₂ : Settings → Emit α}
    (h : Agrees (k₁ e₁.settings) (k₂ e₂.settings) e₁ e₂) :
    Agrees (Emit.settings >>= k₁) (Emit.settings >>= k₂) e₁ e₂ := h

theorem check {R : β → β → Prop} {r₁ r₂ : Except Fault β} {k₁ k₂ : β → Emit α}
    (h : Matches R r₁ r₂) (hk : ∀ a b, R a b → Agrees (k₁ a) (k₂ b) e₁ e₂) :
    Agrees (Emit.check r₁ >>= k₁) (Emit.check r₂ >>= k₂) e₁ e₂ := by
  cases h with
  | ok hab => exact hk _ _ hab
  | error f => exact fun he => ⟨rfl, he, .refl _, .refl _⟩

theorem check_eq {r₁ r₂ : Except Fault β} {k₁ k₂ : β → Emit α} (h : r₂ = r₁)
    (hk : ∀ a, Agrees (k₁ a) (k₂ a) e₁ e₂) :
    Agrees (Emit.check r₁ >>= k₁) (Emit.check r₂ >>= k₂) e₁ e₂ := by
  subst h
  cases r₂ with
  | ok a => exact hk a
  | error f => exact fun he => ⟨rfl, he, .refl _, .refl _⟩

theorem check_same (r : Except Fault α) : Agrees (Emit.check r) (Emit.check r) e₁ e₂ := by
  cases r with
  | ok a => exact pure a
  | error f => exact throw f

/-- An operation that refuses some operands and goes on with the others. -/
theorem refuse {c : Prop} [Decidable c] {f : Fault} {k₁ k₂ : β → Emit α} {m₁ m₂ : Emit α}
    (h : ¬ c → Agrees m₁ m₂ e₁ e₂) :
    Agrees (if c then MonadExcept.throw f >>= k₁ else m₁)
      (if c then MonadExcept.throw f >>= k₂ else m₂) e₁ e₂ := by
  split
  · exact fun he => ⟨rfl, he, .refl _, .refl _⟩
  · next hc => exact h hc

theorem modify {f₁ f₂ : Emitter → Emitter} (h : e₁.Alike e₂ → (f₁ e₁).Alike (f₂ e₂))
    (h₁ : e₁.declarations.Within (f₁ e₁).declarations)
    (h₂ : e₂.declarations.Within (f₂ e₂).declarations) :
    Agrees (modify f₁ : Emit PUnit) (modify f₂) e₁ e₂ :=
  fun he => ⟨rfl, h he, h₁, h₂⟩

theorem setBody {b₁ b₂ : Body} (h : b₁.Alike e₁.declarations e₂.declarations b₂) :
    Agrees (setBody b₁) (setBody b₂) e₁ e₂ :=
  modify (fun he => ⟨h, he.declarations, he.pools⟩) (.refl _) (.refl _)

theorem set {e₁' e₂' : Emitter} (h : e₁'.Alike e₂')
    (h₁ : e₁.declarations.Within e₁'.declarations)
    (h₂ : e₂.declarations.Within e₂'.declarations) :
    Agrees (MonadStateOf.set e₁' : Emit PUnit) (MonadStateOf.set e₂') e₁ e₂ :=
  fun _ => ⟨rfl, h, h₁, h₂⟩

end Agrees

section Operations

theorem agrees_valueType (v : ValueId) : Agrees (valueType v) (valueType v) e₁ e₂ := by
  refine Agrees.body fun h => ?_
  rw [h.body.valueType]
  exact Agrees.check_same _

theorem agrees_expectType (v : ValueId) (t : Ty) :
    Agrees (expectType v t) (expectType v t) e₁ e₂ := by
  refine (agrees_valueType v).bind fun found _ _ _ _ => ?_
  split
  · exact Agrees.throw _
  · exact Agrees.pure _

theorem agrees_elementOffset (t : Ty) (index : Nat) :
    Agrees (elementOffset t index) (elementOffset t index) e₁ e₂ := by
  unfold elementOffset
  split
  · exact Agrees.pure _
  · exact Agrees.throw _

theorem agrees_newValue (t : Ty) : Agrees (newValue t) (newValue t) e₁ e₂ := by
  refine Agrees.body fun h => ?_
  obtain ⟨hb, hv⟩ := h.body.newValue t
  exact (Agrees.setBody hb).bind fun _ _ _ _ _ => Agrees.pure_eq hv

theorem agrees_newVar (t : Ty) : Agrees (newVar t) (newVar t) e₁ e₂ := by
  refine Agrees.body fun h => ?_
  obtain ⟨hb, hx⟩ := h.body.newVar t
  exact (Agrees.setBody hb).bind fun _ _ _ _ _ => Agrees.pure_eq hx

theorem agrees_createBlock (label : String) :
    Agrees (createBlock label) (createBlock label) e₁ e₂ := by
  refine Agrees.body fun h => ?_
  obtain ⟨hb, hid⟩ := h.body.newBlock label
  exact (Agrees.setBody hb).bind fun _ _ _ _ _ => Agrees.pure_eq hid

theorem agrees_change {f g : Block → Block} (hfg : ∀ k₁ k₂,
    k₁.Alike e₁.declarations e₂.declarations k₂ →
      (f k₁).Alike e₁.declarations e₂.declarations (g k₂)) :
    Agrees (change f) (change g) e₁ e₂ :=
  Agrees.body fun h => Agrees.check h.body.requireOpen fun _ _ _ =>
    Agrees.modify (fun he => ⟨he.body.modifyCurrent hfg, he.declarations, he.pools⟩) (.refl _)
      (.refl _)

theorem agrees_pushed {i j : Instr} (h : Instrs.Alike e₁.declarations e₂.declarations [i] [j]) :
    Agrees (push i) (push j) e₁ e₂ := by
  refine agrees_change fun k₁ k₂ hk => ⟨hk.label, hk.terminator, ?_⟩
  rw [Array.toList_push, Array.toList_push]
  exact hk.instrs.append h

/-- What has been pushed on both sides does the same. -/
theorem agrees_push {i j : Instr} {act : Act} (hi : i.Does e₁.declarations act)
    (hj : j.Does e₂.declarations act) : Agrees (push i) (push j) e₁ e₂ :=
  agrees_pushed (.cons hi hj .nil)

theorem agrees_plain {i : Instr} (hl : i.isLocation = false) (hc : i.callee = none) :
    Agrees (push i) (push i) e₁ e₂ := agrees_push (.plain hl hc) (.plain hl hc)

theorem agrees_terminate (t : Terminator) : Agrees (terminate t) (terminate t) e₁ e₂ :=
  agrees_change fun _ _ hk => ⟨hk.label, rfl, hk.instrs⟩

theorem agrees_switchTo (id : BlockId) : Agrees (switchTo id) (switchTo id) e₁ e₂ := by
  refine Agrees.body fun h => Agrees.check (h.body.block id) fun k₁ k₂ hk => ?_
  have hclosed : k₂.isClosed = k₁.isClosed := by rw [Block.isClosed, hk.terminator, Block.isClosed]
  rw [hclosed, hk.label]
  exact Agrees.refuse fun _ =>
    Agrees.modify (fun he => ⟨he.body.moveTo id, he.declarations, he.pools⟩) (.refl _) (.refl _)

theorem agrees_define (t : Ty) {i j : ValueId → Instr} {act : ValueId → Act}
    (hi : ∀ v, (i v).Does e₁.declarations (act v)) (hj : ∀ v, (j v).Does e₂.declarations (act v)) :
    Agrees (define t i) (define t j) e₁ e₂ :=
  (agrees_newValue t).bind fun v _ _ h₁ h₂ =>
    (agrees_push ((hi v).mono h₁) ((hj v).mono h₂)).bind fun _ _ _ _ _ => Agrees.pure v

theorem agrees_defined (t : Ty) {i : ValueId → Instr} (hl : ∀ v, (i v).isLocation = false)
    (hc : ∀ v, (i v).callee = none) : Agrees (define t i) (define t i) e₁ e₂ :=
  agrees_define t (fun v => .plain (hl v) (hc v)) fun v => .plain (hl v) (hc v)

theorem agrees_literal (value : Literal) : Agrees (literal value) (literal value) e₁ e₂ :=
  agrees_defined _ (fun _ => rfl) fun _ => rfl

theorem agrees_load (t : Ty) (address : ValueId) (index : Nat) :
    Agrees (load t address index) (load t address index) e₁ e₂ :=
  (agrees_expectType _ _).bind fun _ _ _ _ _ => (agrees_elementOffset _ _).bind fun _ _ _ _ _ =>
    agrees_defined _ (fun _ => rfl) fun _ => rfl

theorem agrees_elementAddress (t : Ty) (address index : ValueId) :
    Agrees (elementAddress t address index) (elementAddress t address index) e₁ e₂ :=
  (agrees_expectType _ _).bind fun _ _ _ _ _ => (agrees_valueType _).bind fun _ _ _ _ _ =>
    Agrees.refuse fun _ => agrees_defined _ (fun _ => rfl) fun _ => rfl

theorem agrees_loadDynamic (t : Ty) (address index : ValueId) :
    Agrees (loadDynamic t address index) (loadDynamic t address index) e₁ e₂ :=
  (agrees_elementAddress _ _ _).bind fun _ _ _ _ _ =>
    agrees_defined _ (fun _ => rfl) fun _ => rfl

theorem agrees_store (address : ValueId) (index : Nat) (value : ValueId) :
    Agrees (store address index value) (store address index value) e₁ e₂ :=
  (agrees_expectType _ _).bind fun _ _ _ _ _ => (agrees_valueType _).bind fun _ _ _ _ _ =>
    (agrees_elementOffset _ _).bind fun _ _ _ _ _ => agrees_plain rfl rfl

theorem agrees_storeDynamic (address index value : ValueId) :
    Agrees (storeDynamic address index value) (storeDynamic address index value) e₁ e₂ :=
  (agrees_valueType _).bind fun _ _ _ _ _ => (agrees_elementAddress _ _ _).bind fun _ _ _ _ _ =>
    agrees_plain rfl rfl

theorem agrees_operandType (op : BinaryOp) (lhs rhs : ValueId) :
    Agrees (operandType op lhs rhs) (operandType op lhs rhs) e₁ e₂ :=
  (agrees_valueType _).bind fun _ _ _ _ _ => (agrees_expectType _ _).bind fun _ _ _ _ _ =>
    Agrees.refuse fun _ => Agrees.pure _

theorem agrees_binary (op : BinaryOp) (lhs rhs : ValueId) :
    Agrees (binary op lhs rhs) (binary op lhs rhs) e₁ e₂ :=
  (agrees_operandType _ _ _).bind fun _ _ _ _ _ => agrees_defined _ (fun _ => rfl) fun _ => rfl

def Applies (m : Emit ValueId) (e : Emitter) (op : Operator) (t : Ty) (args : List ValueId) : Prop :=
  ∃ d instr, m.run.run e = (define t instr).run.run { e with declarations := d } ∧
    e.declarations.AddsHelpers d ∧ ∀ v, (instr v).Does d (.apply op v args)

theorem applies_define {e : Emitter} {t : Ty} {op : Operator} {args : List ValueId}
    {instr : ValueId → Instr} (he : e.declarations.Regular)
    (h : ∀ v, (instr v).Does e.declarations (.apply op v args)) :
    Applies (define t instr) e op t args :=
  ⟨e.declarations, instr, rfl, he.addsHelpers, h⟩

theorem applies_callHelper {e : Emitter} {t : Ty} {op : Operator} {args : List ValueId}
    (he : e.declarations.Regular) (hargs : args.length = op.arity) :
    Applies (callHelper op t args) e op t args := by
  obtain ⟨id, d, hd, hid, hadds⟩ := he.exists_helper op t
  refine ⟨d, fun v => .call (some v) id args, ?_, hadds, fun v => .helper hid hargs⟩
  unfold callHelper
  rw [run_bind]
  change ((check (e.declarations.helper op t) >>= _).run.run e) = _
  rw [hd]
  rfl

/-- However each side applies the operator, they agree. -/
theorem Applies.agrees {m₁ m₂ : Emit ValueId} {op : Operator} {t : Ty} {args : List ValueId}
    (h₁ : e₁.Alike e₂ → Applies m₁ e₁ op t args) (h₂ : e₁.Alike e₂ → Applies m₂ e₂ op t args) :
    Agrees m₁ m₂ e₁ e₂ := by
  intro he
  obtain ⟨d₁, i, hrun₁, hd₁, hi⟩ := h₁ he
  obtain ⟨d₂, j, hrun₂, hd₂, hj⟩ := h₂ he
  have he' : Emitter.Alike { e₁ with declarations := d₁ } { e₂ with declarations := d₂ } :=
    ⟨he.body.mono hd₁.within hd₂.within, he.declarations.addsHelpers hd₁ hd₂, he.pools⟩
  have hagrees : Agrees (define t i) (define t j) { e₁ with declarations := d₁ }
    { e₂ with declarations := d₂ } := agrees_define t hi hj
  obtain ⟨hr, h, hw₁, hw₂⟩ := hagrees he'
  rw [hrun₁, hrun₂]
  exact ⟨hr, h, hd₁.within.trans hw₁, hd₂.within.trans hw₂⟩

theorem agrees_operator (op : BinaryOp) (lhs rhs : ValueId) :
    Agrees (operator op lhs rhs) (operator op lhs rhs) e₁ e₂ := by
  have hbranch (inline : Bool) (e : Emitter) (t : Ty) (he : e.declarations.Regular) :
      Applies (if inline then define t (.binary · op lhs rhs)
        else callHelper (.binary op) t [lhs, rhs]) e (.binary op) t [lhs, rhs] := by
    cases inline with
    | true => exact applies_define he fun v => .binary
    | false => exact applies_callHelper he rfl
  have hform (inline : Bool) : (if inline then binary op lhs rhs else do
      let t ← operandType op lhs rhs
      callHelper (.binary op) t [lhs, rhs]) = operandType op lhs rhs >>= fun t =>
        if inline then define t (.binary · op lhs rhs)
        else callHelper (.binary op) t [lhs, rhs] := by
    cases inline <;> rfl
  refine Agrees.settings ?_
  rw [hform, hform]
  refine (agrees_operandType op lhs rhs).bind fun t e₁' e₂' _ _ => ?_
  exact Applies.agrees (fun he => hbranch _ _ t he.declarations.left)
    fun he => hbranch _ _ t he.declarations.right

theorem agrees_unary (op : UnaryOp) (operand : ValueId) :
    Agrees (unary op operand) (unary op operand) e₁ e₂ := by
  have hbranch (inline : Bool) (e : Emitter) (t : Ty) (he : e.declarations.Regular) :
      Applies (if inline then define t (.unary · op operand)
        else callHelper (.unary op) t [operand]) e (.unary op) t [operand] := by
    cases inline with
    | true => exact applies_define he fun v => .unary
    | false => exact applies_callHelper he rfl
  refine (agrees_valueType operand).bind fun t e₁' e₂' _ _ => Agrees.refuse fun _ =>
    Agrees.settings ?_
  exact Applies.agrees (fun he => hbranch _ _ t he.declarations.left)
    fun he => hbranch _ _ t he.declarations.right

theorem agrees_compare (op : CompareOp) (lhs rhs : ValueId) :
    Agrees (compare op lhs rhs) (compare op lhs rhs) e₁ e₂ :=
  (agrees_valueType _).bind fun _ _ _ _ _ => (agrees_expectType _ _).bind fun _ _ _ _ _ =>
    Agrees.refuse fun _ => agrees_defined _ (fun _ => rfl) fun _ => rfl

theorem agrees_select (condition ifTrue ifFalse : ValueId) :
    Agrees (select condition ifTrue ifFalse) (select condition ifTrue ifFalse) e₁ e₂ :=
  (agrees_expectType _ _).bind fun _ _ _ _ _ => (agrees_valueType _).bind fun _ _ _ _ _ =>
    (agrees_expectType _ _).bind fun _ _ _ _ _ => agrees_defined _ (fun _ => rfl) fun _ => rfl

theorem agrees_cast (value : ValueId) (target : Ty) :
    Agrees (cast value target) (cast value target) e₁ e₂ := by
  refine (agrees_valueType value).bind fun source _ _ _ _ => ?_
  split
  · exact Agrees.pure _
  · exact Agrees.refuse fun _ => agrees_defined _ (fun _ => rfl) fun _ => rfl

theorem agrees_localVar (initial : ValueId) :
    Agrees (localVar initial) (localVar initial) e₁ e₂ :=
  (agrees_valueType _).bind fun _ _ _ _ _ => (agrees_newVar _).bind fun _ _ _ _ _ =>
    (agrees_plain rfl rfl).bind fun _ _ _ _ _ => Agrees.pure _

theorem agrees_getVar (x : VarId) : Agrees (getVar x) (getVar x) e₁ e₂ :=
  Agrees.body fun h => Agrees.check_eq (h.body.varType x) fun _ =>
    agrees_defined _ (fun _ => rfl) fun _ => rfl

theorem agrees_setVar (x : VarId) (value : ValueId) :
    Agrees (setVar x value) (setVar x value) e₁ e₂ :=
  Agrees.body fun h => Agrees.check_eq (h.body.varType x) fun _ =>
    (agrees_expectType _ _).bind fun _ _ _ _ _ => agrees_plain rfl rfl

theorem agrees_allocate (scope : Scope) : Agrees (allocate scope) (allocate scope) e₁ e₂ := by
  refine Agrees.get fun h => ?_
  rw [h.pools]
  refine Agrees.bind (Agrees.set ?_ (.refl _) (.refl _)) fun _ _ _ _ _ => Agrees.pure _
  exact ⟨h.body, h.declarations, rfl⟩

theorem agrees_release (slot : Slot) : Agrees (release slot) (release slot) e₁ e₂ := by
  refine Agrees.get fun h => ?_
  rw [h.pools]
  exact Agrees.bind (Agrees.set ⟨h.body, h.declarations, rfl⟩ (.refl _) (.refl _))
    fun _ _ _ _ _ => Agrees.check_same _

theorem agrees_scratchVar (slot : Slot) (t : Ty) :
    Agrees (scratchVar slot t) (scratchVar slot t) e₁ e₂ := by
  have hnew {e₁ e₂ : Emitter} : Agrees (do
      let x ← newVar t
      modify fun e => { e with
        body := { e.body with scratchVars := e.body.scratchVars.insert slot.index x } }
      return x) (do
      let x ← newVar t
      modify fun e => { e with
        body := { e.body with scratchVars := e.body.scratchVars.insert slot.index x } }
      return x) e₁ e₂ := by
    refine (agrees_newVar t).bind fun x e₁' e₂' _ _ => ?_
    refine Agrees.bind (Agrees.modify (fun he => ⟨⟨?_, he.body.blocks, he.body.twin⟩,
      he.declarations, he.pools⟩) (.refl _) (.refl _)) fun _ _ _ _ _ => Agrees.pure x
    rw [he.body.rest]
  refine Agrees.body fun h => ?_
  have hfind : e₂.body.scratchVars = e₁.body.scratchVars := by rw [h.body.rest]
  rw [hfind]
  cases e₁.body.scratchVars.find? slot.index with
  | none => exact hnew
  | some x =>
      refine Agrees.check_eq (h.body.varType x) fun u => ?_
      split
      · exact Agrees.pure x
      · exact hnew

theorem agrees_scratch (initial : ValueId) : Agrees (scratch initial) (scratch initial) e₁ e₂ :=
  (agrees_valueType _).bind fun _ _ _ _ _ => (agrees_allocate _).bind fun _ _ _ _ _ =>
    (agrees_scratchVar _ _).bind fun _ _ _ _ _ => (agrees_plain rfl rfl).bind fun _ _ _ _ _ =>
    Agrees.pure _

theorem agrees_freeScratch (slot : Slot) : Agrees (freeScratch slot) (freeScratch slot) e₁ e₂ :=
  Agrees.refuse fun _ => agrees_release slot

theorem agrees_bufferPlace (slot : Slot) (bytes : Nat) :
    Agrees (bufferPlace slot bytes) (bufferPlace slot bytes) e₁ e₂ := by
  refine Agrees.body fun h => ?_
  have hfind : e₂.body.bufferPlaces = e₁.body.bufferPlaces := by rw [h.body.rest]
  have hstack : e₂.body.stack = e₁.body.stack := by rw [h.body.rest]
  have hid : (e₂.body.newPlace bytes).1 = (e₁.body.newPlace bytes).1 := by
    unfold Body.newPlace
    rw [hstack]
  have hnew : Agrees (do
      setBody { (e₁.body.newPlace bytes).2 with
        bufferPlaces := e₁.body.bufferPlaces.insert slot.index (e₁.body.newPlace bytes).1 }
      return (e₁.body.newPlace bytes).1) (do
      setBody { (e₂.body.newPlace bytes).2 with
        bufferPlaces := e₂.body.bufferPlaces.insert slot.index (e₂.body.newPlace bytes).1 }
      return (e₂.body.newPlace bytes).1) e₁ e₂ :=
    (Agrees.setBody (h.body.newPlace slot bytes)).bind fun _ _ _ _ _ =>
      Agrees.pure_eq hid
  have hlookup : e₂.body.bufferPlaces.find? slot.index =
      e₁.body.bufferPlaces.find? slot.index := by rw [hfind]
  cases hplace : e₁.body.bufferPlaces.find? slot.index with
  | none =>
      rw [hplace] at hlookup
      rw [hlookup]
      exact hnew
  | some place =>
      rw [hplace] at hlookup
      rw [hlookup, hstack]
      dsimp only
      split
      · exact Agrees.pure place
      · exact hnew

theorem agrees_stackBuffer (t : Ty) (length : Nat) :
    Agrees (stackBuffer t length) (stackBuffer t length) e₁ e₂ :=
  Agrees.refuse fun _ => (agrees_allocate _).bind fun _ _ _ _ _ =>
    (agrees_bufferPlace _ _).bind fun _ _ _ _ _ => Agrees.pure _

theorem agrees_bufferAddress (buffer : StackBuffer) :
    Agrees (bufferAddress buffer) (bufferAddress buffer) e₁ e₂ :=
  agrees_defined _ (fun _ => rfl) fun _ => rfl

theorem agrees_addDatum (d : Datum) : Agrees (addDatum d) (addDatum d) e₁ e₂ := by
  have hregular {e : Emitter} (h : e.declarations.Regular) :
      Declarations.Regular { e.declarations with data := e.declarations.data.push d } :=
    ⟨h.distinct, h.exported, h.hidden, h.helpers, h.asked⟩
  refine Agrees.get fun h => ?_
  refine Agrees.bind (Agrees.set ⟨?_, ?_, h.pools⟩ ⟨.refl _, fun _ _ h => h⟩
    ⟨.refl _, fun _ _ h => h⟩) fun _ _ _ _ _ => Agrees.pure_eq ?_
  · exact h.body.mono ⟨.refl _, fun _ _ h => h⟩ ⟨.refl _, fun _ _ h => h⟩
  · exact ⟨h.declarations.exported, congrArg (Array.push · d) h.declarations.data,
      hregular h.declarations.left, hregular h.declarations.right⟩
  · exact congrArg (fun data => DatumId.mk data.size) h.declarations.data

theorem agrees_literalData (values : Values) :
    Agrees (literalData values) (literalData values) e₁ e₂ :=
  (agrees_allocate _).bind fun _ _ _ _ _ => agrees_addDatum _

theorem agrees_globalArray (t : Ty) (length : Nat) :
    Agrees (globalArray t length) (globalArray t length) e₁ e₂ :=
  Agrees.refuse fun _ => (agrees_allocate _).bind fun _ _ _ _ _ => agrees_addDatum _

theorem agrees_dataAddress (id : DatumId) : Agrees (dataAddress id) (dataAddress id) e₁ e₂ := by
  refine Agrees.get fun h => Agrees.check_eq ?_ fun _ => agrees_defined _ (fun _ => rfl) fun _ => rfl
  rw [Declarations.datum, h.declarations.data]
  rfl

theorem agrees_literalArray (values : Values) :
    Agrees (literalArray values) (literalArray values) e₁ e₂ :=
  (agrees_literalData values).bind fun _ _ _ _ _ => agrees_dataAddress _

theorem agrees_expectTypes (vs : List ValueId) (ts : List Ty) :
    Agrees (expectTypes vs ts) (expectTypes vs ts) e₁ e₂ := by
  induction vs generalizing ts e₁ e₂ with
  | nil => exact Agrees.pure _
  | cons v vs ih =>
      cases ts with
      | nil => exact Agrees.pure _
      | cons t ts => exact (agrees_expectType v t).bind fun _ _ _ _ _ => ih ts

/-- A function that has not the name of a helper is called by both under its own number. -/
theorem agrees_call {name : String} (hname : ∀ op t, name ≠ Declarations.helperName op t)
    (args : List ValueId) : Agrees (call name args) (call name args) e₁ e₂ := by
  refine Agrees.get fun h => ?_
  have hfind := h.declarations.find? hname
  dsimp only
  cases h₁ : e₁.declarations.find? name with
  | none =>
      cases h₂ : e₂.declarations.find? name with
      | none => exact Agrees.throw _
      | some id₂ =>
          rw [h₁, h₂] at hfind
          cases hfind
  | some id₁ =>
      cases h₂ : e₂.declarations.find? name with
      | none =>
          rw [h₁, h₂] at hfind
          cases hfind
      | some id₂ =>
          rw [h₁, h₂] at hfind
          dsimp only
          obtain ⟨s, he, hs₁, hs₂⟩ : e₁.declarations.Twin e₂.declarations id₁ id₂ := by
            cases hfind with
            | some h => exact h
          have hsignature : e₂.declarations.function id₂ = e₁.declarations.function id₁ := by
            rw [Declarations.function, Declarations.function, hs₁, hs₂]
          refine Agrees.check_eq hsignature fun s' => Agrees.refuse fun _ => ?_
          refine (agrees_expectTypes _ _).bind fun _ e₁' e₂' hw₁ hw₂ => ?_
          have hcall₁ (v : Option ValueId) : (Instr.call v id₁ args).Does e₁'.declarations
            (.call s v args) := .call (hw₁.functions _ _ hs₁) he
          have hcall₂ (v : Option ValueId) : (Instr.call v id₂ args).Does e₂'.declarations
            (.call s v args) := .call (hw₂.functions _ _ hs₂) he
          cases s'.result with
          | some t => exact (agrees_define t (fun v => hcall₁ (some v)) fun v => hcall₂ (some v)).map
          | none =>
              exact (agrees_push (hcall₁ none) (hcall₂ none)).bind fun _ _ _ _ _ => Agrees.pure _

/-- A block is there for both or for neither. -/
theorem agrees_block {k₁ k₂ : Block → Emit α} {b₁ b₂ : Body} (id : BlockId)
    (h : b₁.Alike e₁.declarations e₂.declarations b₂) (hk : ∀ b b', Agrees (k₁ b) (k₂ b') e₁ e₂) :
    Agrees (check (b₁.block id) >>= k₁) (check (b₂.block id) >>= k₂) e₁ e₂ :=
  Agrees.check (h.block id) fun b b' _ => hk b b'

theorem agrees_jump (target : BlockId) : Agrees (jump target) (jump target) e₁ e₂ :=
  Agrees.body fun h => agrees_block target h.body fun _ _ => agrees_terminate _

theorem agrees_branch (condition : ValueId) (ifTrue ifFalse : BlockId) :
    Agrees (branch condition ifTrue ifFalse) (branch condition ifTrue ifFalse) e₁ e₂ :=
  (agrees_expectType _ _).bind fun _ _ _ _ _ => Agrees.body fun h =>
    agrees_block ifTrue h.body fun _ _ => agrees_block ifFalse h.body fun _ _ =>
    agrees_terminate _

theorem agrees_returnValue (value : ValueId) :
    Agrees (returnValue value) (returnValue value) e₁ e₂ := by
  refine Agrees.body fun h => ?_
  have hresult : e₂.body.result = e₁.body.result := by rw [h.body.rest]
  rw [hresult]
  cases e₁.body.result with
  | some t => exact (agrees_expectType _ _).bind fun _ _ _ _ _ => agrees_terminate _
  | none =>
      refine (agrees_valueType value).bind fun t _ _ _ _ => ?_
      exact fun he => ⟨rfl, he, .refl _, .refl _⟩

theorem agrees_returnVoid : Agrees returnVoid returnVoid e₁ e₂ := by
  refine Agrees.body fun h => ?_
  have hresult : e₂.body.result = e₁.body.result := by rw [h.body.rest]
  rw [hresult]
  cases e₁.body.result with
  | some t => exact fun he => ⟨rfl, he, .refl _, .refl _⟩
  | none => exact agrees_terminate _

theorem agrees_argument (name : String) : Agrees (argument name) (argument name) e₁ e₂ := by
  refine Agrees.body fun h => ?_
  rw [h.body.rest]
  dsimp only
  split
  · exact Agrees.pure _
  · exact Agrees.throw _

theorem agrees_argumentSlot (name : String) :
    Agrees (argumentSlot name) (argumentSlot name) e₁ e₂ := by
  refine Agrees.body fun h => ?_
  rw [h.body.rest]
  dsimp only
  split
  · exact Agrees.pure _
  · exact Agrees.throw _

end Operations

section Loops

theorem agrees_enter (start : Literal) {numbers : Emit (ValueId × ValueId × ValueId)}
    (hnumbers : ∀ e₁ e₂, Agrees numbers numbers e₁ e₂) :
    Agrees (CountedLoop.enter start numbers) (CountedLoop.enter start numbers) e₁ e₂ :=
  (agrees_createBlock _).bind fun _ _ _ _ _ => (agrees_createBlock _).bind fun _ _ _ _ _ =>
    (agrees_createBlock _).bind fun _ _ _ _ _ => (agrees_createBlock _).bind fun _ _ _ _ _ =>
    (agrees_createBlock _).bind fun _ _ _ _ _ => (agrees_jump _).bind fun _ _ _ _ _ =>
    (agrees_switchTo _).bind fun _ _ _ _ _ => (agrees_literal _).bind fun _ _ _ _ _ =>
    (agrees_scratch _).bind fun _ _ _ _ _ => (hnumbers _ _).bind fun _ _ _ _ _ => Agrees.pure _

theorem agrees_test (parts : LoopParts) :
    Agrees (CountedLoop.test parts) (CountedLoop.test parts) e₁ e₂ :=
  (agrees_jump _).bind fun _ _ _ _ _ => (agrees_switchTo _).bind fun _ _ _ _ _ =>
    (agrees_getVar _).bind fun _ _ _ _ _ => (agrees_compare _ _ _).bind fun _ _ _ _ _ =>
    (agrees_branch _ _ _).bind fun _ _ _ _ _ => (agrees_switchTo _).bind fun _ _ _ _ _ =>
    Agrees.pure _

theorem agrees_requireIdle (l : CountedLoop) : Agrees l.requireIdle l.requireIdle e₁ e₂ := by
  cases l with
  | idle => exact Agrees.pure _
  | opened parts => exact Agrees.throw _
  | closed parts => exact Agrees.throw _

theorem agrees_beginRange (l : CountedLoop) (start bound step : Int32) :
    Agrees (l.beginRange start bound step) (l.beginRange start bound step) e₁ e₂ := by
  refine Agrees.refuse fun _ => (agrees_requireIdle l).bind fun _ _ _ _ _ => ?_
  refine (agrees_enter _ fun e₁ e₂ => ?_).bind fun parts _ _ _ _ => agrees_test parts
  exact (agrees_literal _).bind fun _ _ _ _ _ => (agrees_literal _).bind fun _ _ _ _ _ =>
    (agrees_literal _).bind fun _ _ _ _ _ => Agrees.pure _

theorem agrees_beginDynamic (l : CountedLoop) (count : ValueId) :
    Agrees (l.beginDynamic count) (l.beginDynamic count) e₁ e₂ := by
  refine (agrees_valueType count).bind fun t _ _ _ _ => Agrees.refuse fun _ => ?_
  refine (agrees_requireIdle l).bind fun _ _ _ _ _ => ?_
  refine (agrees_enter _ fun e₁ e₂ => ?_).bind fun parts _ _ _ _ => agrees_test parts
  exact (agrees_literal _).bind fun _ _ _ _ _ => (agrees_binary _ _ _).bind fun _ _ _ _ _ =>
    Agrees.pure _

theorem agrees_finish (l : CountedLoop) : Agrees l.finish l.finish e₁ e₂ := by
  cases l with
  | idle => exact Agrees.throw _
  | closed parts => exact Agrees.throw _
  | opened parts =>
      exact (agrees_jump _).bind fun _ _ _ _ _ => (agrees_switchTo _).bind fun _ _ _ _ _ =>
        (agrees_getVar _).bind fun _ _ _ _ _ => (agrees_binary _ _ _).bind fun _ _ _ _ _ =>
        (agrees_compare _ _ _).bind fun _ _ _ _ _ => (agrees_select _ _ _).bind fun _ _ _ _ _ =>
        (agrees_setVar _ _).bind fun _ _ _ _ _ => (agrees_jump _).bind fun _ _ _ _ _ =>
        (agrees_switchTo _).bind fun _ _ _ _ _ => (agrees_freeScratch _).bind fun _ _ _ _ _ =>
        Agrees.pure _

theorem agrees_counter (l : CountedLoop) : Agrees l.counter l.counter e₁ e₂ := by
  cases l with
  | idle => exact Agrees.throw _
  | closed parts => exact Agrees.throw _
  | opened parts => exact agrees_getVar parts.var

end Loops

section Locations

theorem locations_alike (h : e₁.Alike e₂) (description : String) : Emitter.Alike
    { e₁ with body := { e₁.body with locations := e₁.body.locations.push description } } e₂ := by
  refine ⟨⟨?_, h.body.blocks, h.body.twin⟩, h.declarations, h.pools⟩
  rw [h.body.rest]

theorem agrees_location (description : String)
    (h : e₂.settings.diagnostics = e₁.settings.diagnostics) :
    Agrees (location description) (location description) e₁ e₂ := by
  refine Agrees.settings ?_
  rw [h]
  split
  · refine (Agrees.modify (fun he => ?_) (.refl _) (.refl _)).bind fun _ _ _ _ _ =>
      Agrees.body fun _ => agrees_pushed (.left (.right .nil))
    exact (locations_alike (locations_alike he _).symm _).symm
  · exact Agrees.pure _

/-- What a granted mark adds on one side does not count. -/
theorem alike_location {description : String} {u : Unit} {e : Emitter} (h : e₁.Alike e₂)
    (hm : Succeeds (location description) e₁ u e) :
    e.Alike e₂ ∧ e.declarations = e₁.declarations := by
  unfold location at hm
  obtain ⟨s, _, hs, hm⟩ := succeeds_bind.1 hm
  obtain ⟨rfl, rfl⟩ := succeeds_settings.1 hs
  split at hm
  · obtain ⟨_, _, hmod, hm⟩ := succeeds_bind.1 hm
    obtain rfl := succeeds_modify.1 hmod
    obtain ⟨b, _, hb, hm⟩ := succeeds_bind.1 hm
    obtain ⟨rfl, rfl⟩ := succeeds_body.1 hb
    obtain ⟨b', hb', rfl⟩ := succeeds_push.1 hm
    have hl := locations_alike h description
    exact ⟨⟨hl.body.push_location hb', hl.declarations, hl.pools⟩, rfl⟩
  · obtain ⟨-, rfl⟩ := succeeds_pure.1 hm
    exact ⟨h, rfl⟩

end Locations

end Emit

/-- The call does not ask for a function that has the name of a helper. -/
def Call.NamesNoHelper : Call → Prop
  | .call name _ => ∀ op t, name ≠ Declarations.helperName op t
  | _ => True

def Call.isLocation : Call → Bool
  | .location _ => true
  | _ => false

section Calls

open Emit

variable {e₁ e₂ : Emitter}

/-- Whatever is called, both agree on it, except for source locations that one does not record. -/
theorem agrees_perform {c : Call} (hname : c.NamesNoHelper)
    (h : c.isLocation = false ∨ e₂.settings.diagnostics = e₁.settings.diagnostics) :
    Agrees c.perform c.perform e₁ e₂ := by
  cases c with
  | argument name => exact (agrees_argument name).map
  | argumentSlot name => exact (agrees_argumentSlot name).map
  | allocate scope => exact (agrees_allocate scope).map
  | release slot => exact (agrees_release slot).map
  | createBlock label => exact (agrees_createBlock label).map
  | switchTo id => exact (agrees_switchTo id).map
  | literal value => exact (agrees_literal value).map
  | load t address index => exact (agrees_load t address index).map
  | loadDynamic t address index => exact (agrees_loadDynamic t address index).map
  | store address index value => exact (agrees_store address index value).map
  | storeDynamic address index value => exact (agrees_storeDynamic address index value).map
  | operator op lhs rhs => exact (agrees_operator op lhs rhs).map
  | binary op lhs rhs => exact (agrees_binary op lhs rhs).map
  | unary op operand => exact (agrees_unary op operand).map
  | compare op lhs rhs => exact (agrees_compare op lhs rhs).map
  | select condition ifTrue ifFalse => exact (agrees_select condition ifTrue ifFalse).map
  | cast value target => exact (agrees_cast value target).map
  | localVar initial => exact (agrees_localVar initial).map
  | getVar x => exact (agrees_getVar x).map
  | setVar x value => exact (agrees_setVar x value).map
  | scratch initial => exact (agrees_scratch initial).map
  | freeScratch slot => exact (agrees_freeScratch slot).map
  | stackBuffer t length => exact (agrees_stackBuffer t length).map
  | bufferAddress buffer => exact (agrees_bufferAddress buffer).map
  | releaseBuffer buffer => exact (agrees_release buffer.slot).map
  | literalData values => exact (agrees_literalData values).map
  | literalArray values => exact (agrees_literalArray values).map
  | globalArray t length => exact (agrees_globalArray t length).map
  | dataAddress id => exact (agrees_dataAddress id).map
  | call name args => exact (agrees_call hname args).map
  | jump target => exact (agrees_jump target).map
  | branch condition ifTrue ifFalse => exact (agrees_branch condition ifTrue ifFalse).map
  | returnValue value => exact (agrees_returnValue value).map
  | returnVoid => exact agrees_returnVoid.map
  | location description =>
      exact (agrees_location description (h.resolve_left Bool.true_eq_false.mp)).map
  | beginRange l start bound step => exact (agrees_beginRange l start bound step).map
  | beginCount l count => exact (agrees_beginRange l 0 count 1).map
  | beginDynamic l count => exact (agrees_beginDynamic l count).map
  | counter l => exact (agrees_counter l).map
  | finish l => exact (agrees_finish l).map

/-- After a call that both grant, whatever their settings, the emitters are alike. -/
theorem alike_perform {c : Call} (hname : c.NamesNoHelper) (he : e₁.Alike e₂) {r₁ r₂ : Reply}
    {e₁' e₂' : Emitter} (h₁ : Succeeds c.perform e₁ r₁ e₁') (h₂ : Succeeds c.perform e₂ r₂ e₂') :
    e₁'.Alike e₂' ∧ e₁.declarations.Within e₁'.declarations ∧
      e₂.declarations.Within e₂'.declarations := by
  cases hc : c.isLocation with
  | false =>
      obtain ⟨-, halike, hw₁, hw₂⟩ := agrees_perform hname (.inl hc) he
      rw [show c.perform.run.run e₁ = _ from h₁] at halike hw₁
      rw [show c.perform.run.run e₂ = _ from h₂] at halike hw₂
      exact ⟨halike, hw₁, hw₂⟩
  | true =>
      cases c with
      | location description =>
          obtain ⟨u₁, h₁, -⟩ := succeeds_map.1 h₁
          obtain ⟨u₂, h₂, -⟩ := succeeds_map.1 h₂
          obtain ⟨halike, hd₁⟩ := alike_location he h₁
          obtain ⟨halike, hd₂⟩ := alike_location halike.symm h₂
          exact ⟨halike.symm, hd₁ ▸ .refl _, hd₂ ▸ .refl _⟩
      | _ => cases hc

end Calls

end Dataflow.Code
