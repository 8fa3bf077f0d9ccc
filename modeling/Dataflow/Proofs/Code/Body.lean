import Dataflow.Code.Body
import Dataflow.Proofs.Outcome

/-!
# Parts of bodies

While a body is recorded, it only grows. A body is a part of a later one: open blocks have got
more instructions or a terminator, closed ones are the same, and values, variables and places in
the frame keep their numbers. What a part says about a block that it has closed is therefore true
of the finished body.
-/

namespace Dataflow.Code

theorem getElem?_of_push {α : Type} {xs : Array α} {a x : α} {i : Nat}
    (h : (xs.push a)[i]? = some x) : xs[i]? = some x ∨ i = xs.size ∧ x = a := by
  rw [Array.getElem?_push] at h
  split at h
  · next hi => exact .inr ⟨hi, (Option.some.inj h).symm⟩
  · exact .inl h

/-- The first elements of an array are those of another one. -/
def Prefix {α : Type} (xs ys : Array α) : Prop :=
  ∀ (i : Nat) (x : α), xs[i]? = some x → ys[i]? = some x

namespace Prefix

variable {α : Type} {xs ys zs : Array α}

theorem refl (xs : Array α) : Prefix xs xs := fun _ _ h => h

theorem trans (h : Prefix xs ys) (h' : Prefix ys zs) : Prefix xs zs :=
  fun i x hx => h' i x (h i x hx)

theorem push (xs : Array α) (x : α) : Prefix xs (xs.push x) := by
  intro i y hy
  obtain ⟨hi, rfl⟩ := Array.getElem?_eq_some_iff.1 hy
  exact Array.getElem?_push_lt hi

theorem mem (h : Prefix xs ys) {x : α} (hx : x ∈ xs) : x ∈ ys := by
  obtain ⟨i, hi⟩ := Array.mem_iff_getElem?.1 hx
  exact Array.mem_of_getElem? (h i x hi)

theorem size_le (h : Prefix xs ys) : xs.size ≤ ys.size := by
  by_contra hlt
  have hx := h ys.size _ (Array.getElem?_eq_getElem (by omega))
  rw [Array.getElem?_eq_none (Nat.le_refl _)] at hx
  cases hx

end Prefix

structure Block.Within (k k' : Block) : Prop where
  instrs : Prefix k.instrs k'.instrs
  closed : k.isClosed = true → k' = k

namespace Block.Within

theorem refl (k : Block) : k.Within k := ⟨.refl _, fun _ => rfl⟩

theorem trans {k k' k'' : Block} (h : k.Within k') (h' : k'.Within k'') : k.Within k'' where
  instrs := h.instrs.trans h'.instrs
  closed hk := by
    obtain rfl := h.closed hk
    exact h'.closed hk

end Block.Within

namespace Body

/-- The arguments of a body are values. -/
theorem newArgs_eq (b : Body) (ps : List Param) :
    ∃ args types, b.newArgs ps = { b with args := args, valueTypes := types } := by
  induction ps generalizing b with
  | nil => exact ⟨b.args, b.valueTypes, rfl⟩
  | cons p ps ih =>
      obtain ⟨args, types, h⟩ := ih { (b.newValue p.ty).2 with args := b.args ++ [(b.newValue p.ty).1] }
      exact ⟨args, types, h⟩

/-- A body begins with an open entry block and its arguments. -/
theorem new_eq (id : FunctionId) (name : String) (params : List Param) (result : Option Ty) :
    ∃ args types, Body.new id name params result =
      { id, name, params, result, blocks := #[{ label := "entry" }], layout := [⟨0⟩], args := args,
        valueTypes := types } :=
  newArgs_eq _ params

structure Within (b b' : Body) : Prop where
  id : b'.id = b.id
  args : b'.args = b.args
  blocks : ∀ (i : Nat) (k : Block), b.blocks[i]? = some k →
    ∃ k', b'.blocks[i]? = some k' ∧ k.Within k'
  valueTypes : Prefix b.valueTypes b'.valueTypes
  varTypes : Prefix b.varTypes b'.varTypes
  stack : Prefix b.stack b'.stack

namespace Within

theorem refl (b : Body) : b.Within b :=
  ⟨rfl, rfl, fun _ k hk => ⟨k, hk, .refl k⟩, .refl _, .refl _, .refl _⟩

theorem trans {b b' b'' : Body} (h : b.Within b') (h' : b'.Within b'') : b.Within b'' where
  id := h'.id.trans h.id
  args := h'.args.trans h.args
  blocks i k hk := by
    obtain ⟨k', hk', hw⟩ := h.blocks i k hk
    obtain ⟨k'', hk'', hw'⟩ := h'.blocks i k' hk'
    exact ⟨k'', hk'', hw.trans hw'⟩
  valueTypes := h.valueTypes.trans h'.valueTypes
  varTypes := h.varTypes.trans h'.varTypes
  stack := h.stack.trans h'.stack

/-- A closed block stays as it is. -/
theorem closed {b b' : Body} {id : BlockId} {k : Block} (h : b.Within b')
    (hk : b.blocks[id.index]? = some k) (ht : k.terminator.isSome = true) :
    b'.blocks[id.index]? = some k := by
  obtain ⟨k', hk', hw⟩ := h.blocks _ k hk
  exact hw.closed ht ▸ hk'

end Within

def position (b : Body) : Nat := ((b.blocks[b.current.index]?).map (·.instrs.size)).getD 0

def OpenAt (b : Body) (id : BlockId) (k : Block) : Prop :=
  b.blocks[id.index]? = some k ∧ k.terminator = none

def ClosedAt (b : Body) (id : BlockId) (k : Block) : Prop :=
  b.blocks[id.index]? = some k ∧ k.isClosed = true

section Recording

variable {b b' : Body} {i : Instr} {t : Terminator} {id : BlockId} {k : Block} {f : Fault}

theorem ClosedAt.of_within (h : b.ClosedAt id k) (hb : b.Within b') : b'.ClosedAt id k :=
  ⟨hb.closed h.1 h.2, h.2⟩

theorem block_eq_ok_iff : b.block id = .ok k ↔ b.blocks[id.index]? = some k := by
  unfold block
  cases b.blocks[id.index]? <;> simp

theorem block_eq_error_iff : b.block id = .error f ↔
    b.blocks[id.index]? = none ∧ f = .missing (.block id.index b.name) := by
  unfold block
  cases b.blocks[id.index]? <;> simp [eq_comm]

theorem valueType_eq_ok_iff {v : ValueId} {ty : Ty} :
    b.valueType v = .ok ty ↔ b.valueTypes[v.index]? = some ty := by
  unfold valueType
  cases b.valueTypes[v.index]? <;> simp

theorem varType_eq_ok_iff {x : VarId} {ty : Ty} :
    b.varType x = .ok ty ↔ b.varTypes[x.index]? = some ty := by
  unfold varType
  cases b.varTypes[x.index]? <;> simp

theorem openAt_iff {k : Block} : b.OpenAt id k ↔ b.block id = .ok k ∧ ¬ k.isClosed = true := by
  rw [block_eq_ok_iff, OpenAt, Block.isClosed, Bool.not_eq_true, Option.isSome_eq_false_iff,
    Option.isNone_iff_eq_none]

theorem requireOpen_eq_ok_iff : b.requireOpen = .ok () ↔ ∃ k, b.OpenAt b.current k := by
  unfold requireOpen OpenAt
  rw [bind_eq_ok_iff]
  constructor
  · rintro ⟨k, hk, h⟩
    refine ⟨k, block_eq_ok_iff.1 hk, ?_⟩
    cases ht : k.terminator with
    | none => rfl
    | some t =>
        simp only [Block.isClosed, ht, Option.isSome_some, if_true] at h
        cases h
  · rintro ⟨k, hk, ht⟩
    refine ⟨k, block_eq_ok_iff.2 hk, ?_⟩
    simp [Block.isClosed, ht]
    rfl

theorem requireOpen_eq_error_iff : b.requireOpen = .error f ↔
    (b.blocks[b.current.index]? = none ∧ f = .missing (.block b.current.index b.name)) ∨
      ∃ k, b.ClosedAt b.current k ∧
        f = .sequencing (.closedBlock b.current.index k.label b.name) := by
  unfold requireOpen
  rw [bind_eq_error_iff, block_eq_error_iff]
  refine or_congr_right (exists_congr fun k => ?_)
  rw [block_eq_ok_iff, ClosedAt, and_assoc]
  refine and_congr_right fun _ => ?_
  split
  case isTrue hclosed =>
    exact ⟨fun h => ⟨hclosed, (Except.error.inj h).symm⟩, fun h => congrArg _ h.2.symm⟩
  case isFalse hopen => exact ⟨nofun, fun h => absurd h.1 hopen⟩

theorem push_eq_ok_iff : b.push i = .ok b' ↔ (∃ k, b.OpenAt b.current k) ∧
    b' = { b with blocks := b.blocks.modify b.current.index fun k =>
      { k with instrs := k.instrs.push i } } := by
  unfold push
  rw [bind_eq_ok_iff, ← requireOpen_eq_ok_iff]
  constructor
  · rintro ⟨_, h, h'⟩
    exact ⟨h, (Except.ok.inj h').symm⟩
  · rintro ⟨h, rfl⟩
    exact ⟨_, h, rfl⟩

theorem terminate_eq_ok_iff : b.terminate t = .ok b' ↔ (∃ k, b.OpenAt b.current k) ∧
    b' = { b with blocks := b.blocks.modify b.current.index fun k =>
      { k with terminator := some t } } := by
  unfold terminate
  rw [bind_eq_ok_iff, ← requireOpen_eq_ok_iff]
  constructor
  · rintro ⟨_, h, h'⟩
    exact ⟨h, (Except.ok.inj h').symm⟩
  · rintro ⟨h, rfl⟩
    exact ⟨_, h, rfl⟩

theorem push_eq_error_iff : b.push i = .error f ↔ b.requireOpen = .error f := by
  unfold push
  rw [bind_eq_error_iff]
  exact or_iff_left fun ⟨_, _, h⟩ => nomatch h

theorem terminate_eq_error_iff : b.terminate t = .error f ↔ b.requireOpen = .error f := by
  unfold terminate
  rw [bind_eq_error_iff]
  exact or_iff_left fun ⟨_, _, h⟩ => nomatch h

theorem switchTo_eq_ok_iff : b.switchTo id = .ok b' ↔ (∃ k, b.OpenAt id k) ∧ b' = { b with
    layout := if b.layout.contains id then b.layout else b.layout ++ [id], current := id } := by
  unfold switchTo OpenAt
  rw [bind_eq_ok_iff]
  constructor
  · rintro ⟨k, hk, h⟩
    cases ht : k.terminator with
    | none =>
        simp only [Block.isClosed, ht, Option.isSome_none, Bool.false_eq_true, if_false] at h
        exact ⟨⟨k, block_eq_ok_iff.1 hk, ht⟩, (Except.ok.inj h).symm⟩
    | some t =>
        simp only [Block.isClosed, ht, Option.isSome_some, if_true] at h
        cases h
  · rintro ⟨⟨k, hk, ht⟩, rfl⟩
    refine ⟨k, block_eq_ok_iff.2 hk, ?_⟩
    rw [Block.isClosed, ht]
    rfl

theorem switchTo_eq_error_iff : b.switchTo id = .error f ↔
    (b.blocks[id.index]? = none ∧ f = .missing (.block id.index b.name)) ∨
      ∃ k, b.ClosedAt id k ∧ f = .sequencing (.terminatedBlock id.index k.label) := by
  unfold switchTo
  rw [bind_eq_error_iff, block_eq_error_iff]
  refine or_congr_right (exists_congr fun k => ?_)
  rw [block_eq_ok_iff, ClosedAt, and_assoc]
  refine and_congr_right fun _ => ?_
  cases hclosed : k.isClosed with
  | true => exact ⟨fun h => ⟨rfl, (Except.error.inj h).symm⟩, fun h => congrArg _ h.2.symm⟩
  | false => exact ⟨nofun, fun h => nomatch h.1⟩

theorem switchTo_eq_ok (h : b.switchTo id = .ok b') : (∃ k, b.OpenAt id k) ∧
    ∃ layout, b' = { b with layout, current := id } :=
  (switchTo_eq_ok_iff.1 h).imp_right fun hb => ⟨_, hb⟩

theorem mem_blockIds : id ∈ b.blockIds ↔ id.index < b.blocks.size := by
  rw [blockIds, List.mem_map]
  constructor
  · rintro ⟨i, hi, rfl⟩
    exact List.mem_range.1 hi
  · exact fun h => ⟨id.index, List.mem_range.2 h, rfl⟩

/-- An open block of a body may be exchanged for one that it can grow into. -/
theorem within_modify {f : Block → Block} {k : Block} (hk : b.OpenAt id k)
    (hf : Prefix k.instrs (f k).instrs) :
    b.Within { b with blocks := b.blocks.modify id.index f } where
  id := rfl
  args := rfl
  blocks j k' hk' := by
    rw [Array.getElem?_modify]
    by_cases hj : id.index = j
    · subst hj
      obtain rfl := Option.some.inj (hk.1.symm.trans hk')
      refine ⟨f k, by rw [if_pos rfl, hk', Option.map_some], hf, fun hclosed => ?_⟩
      rw [Block.isClosed, hk.2] at hclosed
      cases hclosed
    · exact ⟨k', by rw [if_neg hj, hk'], .refl k'⟩
  valueTypes := .refl _
  varTypes := .refl _
  stack := .refl _

theorem within_push (h : b.push i = .ok b') : b.Within b' := by
  obtain ⟨⟨k, hk⟩, rfl⟩ := push_eq_ok_iff.1 h
  exact within_modify hk (.push _ _)

theorem within_terminate (h : b.terminate t = .ok b') : b.Within b' := by
  obtain ⟨⟨k, hk⟩, rfl⟩ := terminate_eq_ok_iff.1 h
  exact within_modify hk (.refl _)

theorem within_switchTo (h : b.switchTo id = .ok b') : b.Within b' := by
  obtain ⟨-, layout, rfl⟩ := switchTo_eq_ok h
  exact ⟨rfl, rfl, fun _ k hk => ⟨k, hk, .refl k⟩, .refl _, .refl _, .refl _⟩

theorem within_newValue (b : Body) (ty : Ty) : b.Within (b.newValue ty).2 :=
  ⟨rfl, rfl, fun _ k hk => ⟨k, hk, .refl k⟩, .push _ _, .refl _, .refl _⟩

theorem within_newVar (b : Body) (ty : Ty) : b.Within (b.newVar ty).2 :=
  ⟨rfl, rfl, fun _ k hk => ⟨k, hk, .refl k⟩, .refl _, .push _ _, .refl _⟩

theorem within_newPlace (b : Body) (size : Nat) : b.Within (b.newPlace size).2 :=
  ⟨rfl, rfl, fun _ k hk => ⟨k, hk, .refl k⟩, .refl _, .refl _, .push _ _⟩

theorem within_newBlock (b : Body) (label : String) : b.Within (b.newBlock label).2 :=
  ⟨rfl, rfl, fun i k hk => ⟨k, Prefix.push _ _ i k hk, .refl k⟩, .refl _, .refl _, .refl _⟩

theorem position_eq (hk : b.OpenAt b.current k) : b.position = k.instrs.size := by
  rw [position, hk.1]
  rfl

theorem current_of_push (h : b.push i = .ok b') : b'.current = b.current := by
  obtain ⟨-, rfl⟩ := push_eq_ok_iff.1 h
  rfl

theorem position_of_push (h : b.push i = .ok b') : b'.position = b.position + 1 := by
  obtain ⟨⟨k, hk⟩, rfl⟩ := push_eq_ok_iff.1 h
  rw [position_eq hk, position, Array.getElem?_modify, if_pos rfl, hk.1]
  exact Array.size_push _

/-- What has been pushed stands at the end of what was there before. -/
theorem instr_of_push (h : b.push i = .ok b') {B : Body} (hB : b'.Within B) :
    ∃ k, B.blocks[b.current.index]? = some k ∧ k.instrs[b.position]? = some i := by
  obtain ⟨⟨k, hk⟩, rfl⟩ := push_eq_ok_iff.1 h
  obtain ⟨k', hk', hw⟩ := hB.blocks b.current.index { k with instrs := k.instrs.push i } (by
    rw [Array.getElem?_modify, if_pos rfl, hk.1]
    rfl)
  refine ⟨k', hk', hw.instrs _ _ ?_⟩
  rw [position_eq hk, Array.getElem?_push_size]

/-- The terminator of a block follows what was there before it was closed. -/
theorem terminator_of_terminate (h : b.terminate t = .ok b') {B : Body} (hB : b'.Within B) :
    ∃ k, B.blocks[b.current.index]? = some k ∧ k.instrs[b.position]? = none ∧
      k.terminator = some t := by
  obtain ⟨⟨k, hk⟩, rfl⟩ := terminate_eq_ok_iff.1 h
  obtain ⟨k', hk', hw⟩ := hB.blocks b.current.index { k with terminator := some t } (by
    rw [Array.getElem?_modify, if_pos rfl, hk.1]
    rfl)
  obtain rfl := hw.closed rfl
  refine ⟨_, hk', ?_, rfl⟩
  rw [position_eq hk, Array.getElem?_eq_none (Nat.le_refl _)]

end Recording

end Body

end Dataflow.Code
