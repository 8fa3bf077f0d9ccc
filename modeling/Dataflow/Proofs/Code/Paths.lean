import Dataflow.Proofs.Code.Once
import Dataflow.Proofs.Code.Stranded

/-!
# Control flow and layout

At the end of a function its blocks are gone through in the order in which they were first entered,
and every value has to be defined before it is used. A run takes the blocks in another order. Where
each block is entered after one that leads to it, code that defines every value in time on each way
from the entry passes the check. Otherwise it may be refused: a value is used in a block that has been
entered before the ones that define it.
-/

namespace Dataflow.Code

/-- Some event reads the value, which is not known and has not been written before. -/
def ReadEarly (known : List ValueId) : List Event → ValueId → Prop
  | [], _ => False
  | (vs, r) :: xs, v => v ∈ vs ∧ v ∉ known ∨ ReadEarly (known ++ r.toList) xs v

namespace ReadEarly

variable {known known' : List ValueId} {xs ys : List Event} {v : ValueId}

instance instDecidable (known : List ValueId) (xs : List Event) (v : ValueId) :
    Decidable (ReadEarly known xs v) :=
  match xs with
  | [] => inferInstanceAs (Decidable False)
  | (vs, r) :: xs =>
      haveI := instDecidable (known ++ r.toList) xs v
      inferInstanceAs (Decidable (v ∈ vs ∧ v ∉ known ∨ ReadEarly (known ++ r.toList) xs v))

theorem append_iff : ReadEarly known (xs ++ ys) v ↔
    ReadEarly known xs v ∨ ReadEarly (known ++ xs.filterMap Prod.snd) ys v := by
  induction xs generalizing known with
  | nil => simp [ReadEarly]
  | cons x xs ih =>
      obtain ⟨vs, r⟩ := x
      have hwritten : known ++ r.toList ++ xs.filterMap Prod.snd =
          known ++ ((vs, r) :: xs).filterMap Prod.snd := by
        cases r <;> simp
      rw [List.cons_append, ReadEarly, ReadEarly, ih, hwritten, or_assoc]

theorem not_mem (h : ReadEarly known xs v) : v ∉ known := by
  induction xs generalizing known with
  | nil => exact h.elim
  | cons x xs ih =>
      rcases h with h | h
      · exact h.2
      · exact fun hv => ih h (List.mem_append_left _ hv)

theorem exists_reads (h : ReadEarly known xs v) : ∃ x ∈ xs, v ∈ x.1 := by
  induction xs generalizing known with
  | nil => exact h.elim
  | cons x xs ih =>
      rcases h with h | h
      · exact ⟨x, List.mem_cons_self, h.1⟩
      · obtain ⟨y, hy, hv⟩ := ih h
        exact ⟨y, List.mem_cons_of_mem _ hy, hv⟩

/-- It only matters whether the value itself is known. -/
theorem congr (h : ReadEarly known xs v) (hv : v ∉ known') : ReadEarly known' xs v := by
  induction xs generalizing known known' with
  | nil => exact h.elim
  | cons x xs ih =>
      rcases h with h | h
      · exact .inl ⟨h.1, hv⟩
      · refine .inr (ih h fun hmem => ?_)
        rcases List.mem_append.1 hmem with hmem | hmem
        · exact hv hmem
        · exact h.not_mem (List.mem_append_right _ hmem)

/-- A value that is read early while a list is gone through is read early at one of its elements. -/
theorem exists_of_flatMap {α : Type} {g : α → List Event} {as : List α}
    (h : ReadEarly known (as.flatMap g) v) : ∃ before a after, as = before ++ a :: after ∧
      ReadEarly (known ++ (before.flatMap g).filterMap Prod.snd) (g a) v := by
  induction as generalizing known with
  | nil => exact h.elim
  | cons a as ih =>
      rcases append_iff.1 h with h | h
      · exact ⟨[], a, as, rfl, by simpa using h⟩
      · obtain ⟨before, a', after, rfl, h'⟩ := ih h
        refine ⟨a :: before, a', after, rfl, ?_⟩
        rwa [List.flatMap_cons, List.filterMap_append, ← List.append_assoc]

end ReadEarly

namespace Defined

structure Exactly (D : Defined) (vs : List ValueId) (size : Nat) : Prop where
  size : D.size = size
  has : ∀ v, D.has v = true ↔ v ∈ vs

variable {D : Defined} {vs us : List ValueId} {v : ValueId} {size n : Nat}

theorem Exactly.add (h : D.Exactly vs size) (hv : v.index < size) :
    (D.add v).Exactly (vs ++ [v]) size where
  size := (Array.size_setIfInBounds ..).trans h.size
  has w := by
    rw [has_add, h.size, List.mem_append, List.mem_singleton, ← h.has w]
    by_cases hvw : v.index = w.index
    · obtain rfl : v = w := congrArg ValueId.mk hvw
      simp [hv]
    · have hne : w ≠ v := fun heq => hvw (by rw [heq])
      simp [hvw, hne]

theorem exactly_ofArgs {b : Body} (h : ∀ v ∈ b.args, v.index < b.valueTypes.size) :
    (ofArgs b).Exactly b.args b.valueTypes.size := by
  have hfold : ∀ (us vs : List ValueId) (D : Defined), D.Exactly vs b.valueTypes.size →
      (∀ v ∈ us, v.index < b.valueTypes.size) →
      (us.foldl add D).Exactly (vs ++ us) b.valueTypes.size := by
    intro us
    induction us with
    | nil => exact fun vs D hD _ => by simpa using hD
    | cons u us ih =>
        intro vs D hD hus
        have hrest := ih _ _ (hD.add (hus u List.mem_cons_self))
          fun v hv => hus v (List.mem_cons_of_mem _ hv)
        rwa [List.append_assoc] at hrest
  refine hfold b.args [] _ ⟨Array.size_replicate, fun v => ?_⟩ h
  simp only [has, Array.getD_eq_getD_getElem?, Array.getElem?_replicate]
  split <;> simp

theorem Exactly.not_mem_of_requireDefined (h : D.Exactly vs size)
    (hus : requireDefined D us = .error (.rejected (.undefinedValue n))) :
    ⟨n⟩ ∈ us ∧ ⟨n⟩ ∉ vs := by
  induction us with
  | nil => cases hus
  | cons u us ih =>
      rw [requireDefined] at hus
      split at hus
      · exact (ih hus).imp_left (List.mem_cons_of_mem _)
      · next hu =>
          cases hus
          exact ⟨List.mem_cons_self, fun hv => hu ((h.has u).2 hv)⟩

end Defined

/-- How a check of events comes out when the values `vs` are defined before. It only passes where no
value is read early, and the value that it names is one. -/
def Checks (size : Nat) (vs : List ValueId) (xs : List Event) : Except Fault Defined → Prop
  | .ok D => (∀ v, ¬ ReadEarly vs xs v) ∧ D.Exactly (vs ++ xs.filterMap Prod.snd) size
  | .error f => ∀ n, f = .rejected (.undefinedValue n) → ReadEarly vs xs ⟨n⟩

namespace Checks

variable {size : Nat} {vs : List ValueId} {xs ys : List Event} {D : Defined}

theorem pure (h : D.Exactly vs size) : Checks size vs [] (.ok D) := by
  refine ⟨fun v hv => hv, ?_⟩
  simpa using h

theorem bind {m : Except Fault Defined} {k : Defined → Except Fault Defined}
    (hm : Checks size vs xs m)
    (hk : ∀ D, D.Exactly (vs ++ xs.filterMap Prod.snd) size →
      Checks size (vs ++ xs.filterMap Prod.snd) ys (k D)) : Checks size vs (xs ++ ys) (m >>= k) := by
  cases m with
  | error f => exact fun n hn => ReadEarly.append_iff.2 (.inl (hm n hn))
  | ok D =>
      obtain ⟨hxs, hD⟩ := hm
      have hrest := hk D hD
      change Checks size vs (xs ++ ys) (k D)
      cases hkD : k D with
      | error f =>
          rw [hkD] at hrest
          exact fun n hn => ReadEarly.append_iff.2 (.inr (hrest n hn))
      | ok D' =>
          rw [hkD] at hrest
          refine ⟨fun v hv => (ReadEarly.append_iff.1 hv).elim (hxs v) (hrest.1 v), ?_⟩
          rw [List.filterMap_append, ← List.append_assoc]
          exact hrest.2

theorem foldlM {α : Type} {g : α → List Event} {f : Defined → α → Except Fault Defined}
    {as : List α} (h : D.Exactly vs size)
    (hf : ∀ a ∈ as, ∀ vs D, D.Exactly vs size → Checks size vs (g a) (f D a)) :
    Checks size vs (as.flatMap g) (as.foldlM f D) := by
  induction as generalizing vs D with
  | nil => exact .pure h
  | cons a as ih =>
      rw [List.foldlM_cons]
      exact (hf a List.mem_cons_self vs D h).bind fun D' hD' =>
        ih hD' fun a' ha' => hf a' (List.mem_cons_of_mem _ ha')

/-- A check of operands passes the values on. -/
theorem requireDefined {us : List ValueId} (h : D.Exactly vs size) :
    Checks size vs [(us, none)] (Code.requireDefined D us >>= fun _ => .ok D) := by
  cases hus : Code.requireDefined D us with
  | error f =>
      rintro n rfl
      exact .inl (h.not_mem_of_requireDefined hus)
  | ok u =>
      refine ⟨fun v hv => ?_, by simpa using h⟩
      rcases hv with ⟨hv, hnew⟩ | hv
      · exact hnew ((h.has v).1 (Defined.mem_of_requireDefined hus v hv))
      · exact hv

end Checks

namespace Body

variable {b : Body} {d : Declarations} {ids before after : List BlockId} {id : BlockId} {v : ValueId}
  {vs : List ValueId} {D : Defined} {n : Nat}

def traceAt (b : Body) (id : BlockId) : List Event := ((b.blocks[id.index]?).map Block.trace).getD []

theorem traceAt_of_block {k : Block} (hk : b.blocks[id.index]? = some k) : b.traceAt id = k.trace := by
  rw [traceAt, hk]
  rfl

section Layout

theorem checks_checkInstr {i : Instr} (hi : i.Typed (b.typing d))
    (hD : D.Exactly vs b.valueTypes.size) :
    Checks b.valueTypes.size vs [i.event] (b.checkInstr D i) := by
  cases huses : requireDefined D i.uses with
  | error f =>
      have hrun : b.checkInstr D i = .error f := by
        rw [checkInstr, huses]
        rfl
      rw [hrun]
      rintro n rfl
      exact .inl (hD.not_mem_of_requireDefined huses)
  | ok u =>
      cases htypes : b.checkTypes i with
      | error f =>
          have hrun : b.checkInstr D i = .error f := by
            rw [checkInstr, huses]
            exact bind_eq_error_iff.2 (.inr ⟨(), rfl, bind_eq_error_iff.2 (.inl htypes)⟩)
          rw [hrun]
          rintro n rfl
          obtain ⟨_, _, _, _, hf⟩ := checkTypes_eq_error hi htypes
          cases hf
      | ok u' =>
          have hrun : b.checkInstr D i = .ok ((i.defines.map D.add).getD D) :=
            bind_eq_ok_iff.2 ⟨u, huses, bind_eq_ok_iff.2 ⟨u', htypes, rfl⟩⟩
          rw [hrun]
          refine ⟨fun v hv => ?_, ?_⟩
          · rcases hv with ⟨hv, hnew⟩ | hv
            · exact hnew ((hD.has v).1 (Defined.mem_of_requireDefined huses v hv))
            · exact hv
          · cases hdef : i.defines with
            | none => simpa [Instr.event, hdef] using hD
            | some v =>
                obtain ⟨t, hvt⟩ := hi.exists_has hdef
                have hlt := (Array.getElem?_eq_some_iff.1 hvt).1
                simpa [Instr.event, hdef] using hD.add hlt

theorem checks_checkBlock (ht : b.Typed d) (id : BlockId) (hD : D.Exactly vs b.valueTypes.size) :
    Checks b.valueTypes.size vs (b.traceAt id) (b.checkBlock D id) := by
  cases hk : b.block id with
  | error f =>
      have hrun : b.checkBlock D id = .error f := bind_eq_error_iff.2 (.inl hk)
      rw [hrun]
      rintro n rfl
      unfold block at hk
      split at hk <;> cases hk
  | ok k =>
      have hblock := block_eq_ok_iff.1 hk
      have htyped := ht.blocks k (Array.mem_of_getElem? hblock)
      rw [traceAt_of_block hblock, Block.trace]
      have hinstrs : Checks b.valueTypes.size vs (k.instrs.toList.map Instr.event)
          (k.instrs.toList.foldlM b.checkInstr D) := by
        rw [List.map_eq_flatMap]
        exact .foldlM hD fun i hi vs D hD =>
          checks_checkInstr (htyped.instrs i (Array.mem_toList_iff.1 hi)) hD
      cases hterm : k.terminator with
      | none =>
          have hrun : b.checkBlock D id = k.instrs.toList.foldlM b.checkInstr D >>= fun _ =>
              .error (.sequencing (.missingTerminator k.label b.name)) := by
            rw [checkBlock, hk, Array.foldlM_toList]
            change (k.instrs.foldlM b.checkInstr D >>= _) = _
            rw [hterm]
            rfl
          rw [hrun]
          exact hinstrs.bind fun D' hD' n hn => by cases hn
      | some t =>
          have hrun : b.checkBlock D id = k.instrs.toList.foldlM b.checkInstr D >>= fun D' =>
              requireDefined D' t.uses >>= fun _ => .ok D' := by
            rw [checkBlock, hk, Array.foldlM_toList]
            change (k.instrs.foldlM b.checkInstr D >>= _) = _
            rw [hterm]
            rfl
          rw [hrun]
          exact hinstrs.bind fun D' hD' => .requireDefined hD'

/-- The layout defines every value before it is used if the check of a body passes, and if the check
finds a value that is used too early, the layout has it so. -/
theorem checks_checkOrder (ht : b.Typed d) :
    (b.checkOrder = .ok () → ∀ v, ¬ ReadEarly b.args (b.fullLayout.flatMap b.traceAt) v) ∧
    ∀ n, b.checkOrder = .error (.rejected (.undefinedValue n)) →
      ReadEarly b.args (b.fullLayout.flatMap b.traceAt) ⟨n⟩ := by
  have hargs : ∀ v ∈ b.args, v.index < b.valueTypes.size := by
    intro v hv
    obtain ⟨t, -, hvt⟩ := Assembler.forall₂_mem_left ht.args hv
    exact (Array.getElem?_eq_some_iff.1 hvt).1
  have hlayout : Checks b.valueTypes.size b.args (b.fullLayout.flatMap b.traceAt)
      (b.fullLayout.foldlM b.checkBlock (Defined.ofArgs b)) :=
    .foldlM (Defined.exactly_ofArgs hargs) fun id _ vs D hD => checks_checkBlock ht id hD
  constructor
  · intro hok
    obtain ⟨D, hD, -⟩ := bind_eq_ok_iff.1 hok
    rw [hD] at hlayout
    exact hlayout.1
  · intro n hn
    rcases bind_eq_error_iff.1 hn with hn | ⟨D, -, hn⟩
    · rw [hn] at hlayout
      exact hlayout n rfl
    · cases hn

end Layout

/-- A way from the entry to a block, through the blocks `ids` one after the other. -/
inductive Way (b : Body) : List BlockId → BlockId → Prop
  | entry : Way b [] ⟨0⟩
  | step {ids : List BlockId} {id id' : BlockId} : Way b ids id → id' ∈ b.successors id →
      Way b (ids ++ [id]) id'

/-- On every way from the entry, each value is defined before it is used. -/
def DefinesFirst (b : Body) : Prop :=
  ∀ ids id, b.Way ids id → ∀ v, ¬ ReadEarly b.args ((ids ++ [id]).flatMap b.traceAt) v

/-- In the layout some value is used before it is defined: in the block `id`, when the blocks of
`before` have been gone through. -/
structure Misplaces (b : Body) (before : List BlockId) (id : BlockId) (after : List BlockId)
    (v : ValueId) : Prop where
  layout : b.fullLayout = before ++ id :: after
  reads : ReadEarly (b.args ++ (before.flatMap b.traceAt).filterMap Prod.snd) (b.traceAt id) v

def Follows (b : Body) : Prop :=
  ∀ n, (h : n < b.fullLayout.length) → b.fullLayout[n] = ⟨0⟩ ∨
    ∃ j ∈ b.fullLayout.take n, b.fullLayout[n] ∈ b.successors j

section Ways

theorem mem_defines_of_written (hv : v ∈ (ids.flatMap b.traceAt).filterMap Prod.snd) :
    ∃ id ∈ ids, ∃ k, b.blocks[id.index]? = some k ∧ v ∈ k.defines := by
  obtain ⟨x, hx, hxv⟩ := List.mem_filterMap.1 hv
  obtain ⟨id, hid, hx⟩ := List.mem_flatMap.1 hx
  cases hk : b.blocks[id.index]? with
  | none =>
      rw [traceAt, hk] at hx
      cases hx
  | some k =>
      rw [traceAt_of_block hk] at hx
      refine ⟨id, hid, k, hk, ?_⟩
      rw [← k.defines_eq]
      exact List.mem_filterMap.2 ⟨x, hx, hxv⟩

theorem written_of_mem_defines {k : Block} (hid : id ∈ ids) (hk : b.blocks[id.index]? = some k)
    (hv : v ∈ k.defines) : v ∈ (ids.flatMap b.traceAt).filterMap Prod.snd := by
  rw [← k.defines_eq] at hv
  obtain ⟨x, hx, hxv⟩ := List.mem_filterMap.1 hv
  exact List.mem_filterMap.2 ⟨x, List.mem_flatMap.2 ⟨id, hid, by rwa [traceAt_of_block hk]⟩, hxv⟩

/-- A way to a block goes on from the first time that it has got there. -/
theorem Way.exists_first (h : b.Way ids id) {j : BlockId} (hj : j ∈ ids ++ [id]) :
    ∃ ids', b.Way ids' j ∧ ids' ⊆ ids ∧ j ∉ ids' := by
  induction h with
  | entry =>
      obtain rfl := List.mem_singleton.1 hj
      exact ⟨[], .entry, List.nil_subset _, List.not_mem_nil⟩
  | @step ids id id' h hid ih =>
      by_cases hmem : j ∈ ids ++ [id]
      · obtain ⟨ids', hway, hsub, hnew⟩ := ih hmem
        exact ⟨ids', hway, List.subset_append_of_subset_left _ hsub, hnew⟩
      · obtain rfl := List.mem_singleton.1 ((List.mem_append.1 hj).resolve_left hmem)
        exact ⟨ids ++ [id], h.step hid, List.Subset.refl _, hmem⟩

/-- On a way to a block, what is used there too early, some other block has defined. -/
theorem DefinesFirst.exists_defines (h : b.DefinesFirst) (hway : b.Way ids id)
    (hv : ReadEarly (b.args ++ vs) (b.traceAt id) v) :
    ∃ j ∈ ids, j ≠ id ∧ ∃ k, b.blocks[j.index]? = some k ∧ v ∈ k.defines := by
  obtain ⟨ids', hway', hsub, hnew⟩ := hway.exists_first (List.mem_append_right ids List.mem_cons_self)
  have hdefined : v ∈ (ids'.flatMap b.traceAt).filterMap Prod.snd := by
    by_contra hnot
    have harg : v ∉ b.args := fun hmem => hv.not_mem (List.mem_append_left _ hmem)
    refine h ids' id hway' v ?_
    rw [List.flatMap_append, List.flatMap_singleton]
    exact ReadEarly.append_iff.2 (.inr (hv.congr fun hmem => (List.mem_append.1 hmem).elim harg hnot))
  obtain ⟨j, hj, hdefines⟩ := mem_defines_of_written hdefined
  exact ⟨j, hsub hj, fun heq => hnew (heq ▸ hj), hdefines⟩

theorem Misplaces.not_defines (h : b.Misplaces before id after v) {j : BlockId} {k : Block}
    (hj : j ∈ before) (hk : b.blocks[j.index]? = some k) : v ∉ k.defines := fun hv =>
  h.reads.not_mem (List.mem_append_right _ (written_of_mem_defines hj hk hv))

/-- The block that uses the value too early has been entered too early: on every way there comes a
block that defines the value, and it is laid out later. -/
theorem Misplaces.exists_defines_after (h : b.Misplaces before id after v) (hb : b.DefinesFirst)
    (hway : b.Way ids id) :
    ∃ j ∈ ids, j ∈ after ∧ ∃ k, b.blocks[j.index]? = some k ∧ v ∈ k.defines := by
  obtain ⟨j, hj, hne, k, hk, hv⟩ := hb.exists_defines hway h.reads
  have hmem : j ∈ before ++ id :: after := h.layout ▸ mem_fullLayout hk
  refine ⟨j, hj, ?_, k, hk, hv⟩
  rcases List.mem_append.1 hmem with hmem | hmem
  · exact absurd hv (h.not_defines hmem hk)
  · exact (List.mem_cons.1 hmem).resolve_left hne

/-- Where each block is laid out after one that leads to it, there is a way to it through blocks
that are laid out before. -/
theorem Follows.exists_way (h : b.Follows) (hlayout : b.fullLayout = before ++ id :: after) :
    ∃ ids, b.Way ids id ∧ ids ⊆ before := by
  induction hn : before.length using Nat.strong_induction_on generalizing before id after with
  | _ n ih =>
  have hstep := h before.length (by simp [hlayout])
  simp only [hlayout, List.take_left, List.getElem_append_right,
    Nat.le_refl, Nat.sub_self, List.getElem_cons_zero] at hstep
  rcases hstep with rfl | ⟨j, hj, hid⟩
  · exact ⟨[], .entry, List.nil_subset _⟩
  · obtain ⟨xs, ys, rfl⟩ := List.append_of_mem hj
    have hearlier : b.fullLayout = xs ++ j :: (ys ++ id :: after) := by
      rw [hlayout, List.append_assoc, List.cons_append]
    obtain ⟨ids, hway, hsub⟩ := ih xs.length (by simp [← hn]) hearlier rfl
    refine ⟨ids ++ [j], hway.step hid, ?_⟩
    exact List.append_subset.2 ⟨List.subset_append_of_subset_left _ hsub, by simp⟩

theorem Follows.not_misplaces (h : b.Follows) (hb : b.DefinesFirst) :
    ¬ b.Misplaces before id after v := by
  intro hm
  obtain ⟨ids, hway, hsub⟩ := h.exists_way hm.layout
  obtain ⟨j, hj, -, k, hk, hv⟩ := hb.exists_defines hway hm.reads
  exact hm.not_defines (hsub hj) hk hv

/-- Values are defined in time on every way if what is known on entry to each block will do for the
block and is there whichever block leads to it. -/
theorem definesFirst_of_solution (known : BlockId → List ValueId) (hentry : known ⟨0⟩ ⊆ b.args)
    (hblocks : ∀ p ∈ b.blocks.toList.zipIdx,
      (∀ x ∈ p.1.trace, ∀ v ∈ x.1, ¬ ReadEarly (known ⟨p.2⟩) p.1.trace v) ∧
        ∀ id ∈ p.1.targets, known id ⊆ known ⟨p.2⟩ ++ p.1.defines) : b.DefinesFirst := by
  have hmem : ∀ {id : BlockId} {k : Block}, b.blocks[id.index]? = some k →
      (k, id.index) ∈ b.blocks.toList.zipIdx := fun hk =>
    List.mem_zipIdx_iff_getElem?.2 (by simpa using hk)
  have hblock : ∀ id v, ¬ ReadEarly (known id) (b.traceAt id) v := by
    intro id v hv
    cases hk : b.blocks[id.index]? with
    | none =>
        rw [traceAt, hk] at hv
        exact hv
    | some k =>
        rw [traceAt_of_block hk] at hv
        obtain ⟨x, hx, hxv⟩ := hv.exists_reads
        exact (hblocks _ (hmem hk)).1 x hx v hxv hv
  have hnext : ∀ id, ∀ id' ∈ b.successors id,
      known id' ⊆ known id ++ (b.traceAt id).filterMap Prod.snd := by
    intro id id' hid
    cases hk : b.blocks[id.index]? with
    | none => simp [successors, hk] at hid
    | some k =>
        rw [traceAt_of_block hk, k.defines_eq]
        refine (hblocks _ (hmem hk)).2 id' ?_
        simpa [successors, hk] using hid
  have hstep : ∀ ids id, known id ⊆ b.args ++ (ids.flatMap b.traceAt).filterMap Prod.snd →
      (∀ v, ¬ ReadEarly b.args (ids.flatMap b.traceAt) v) →
        ∀ v, ¬ ReadEarly b.args ((ids ++ [id]).flatMap b.traceAt) v := by
    intro ids id hknown hids v hv
    rw [List.flatMap_append, List.flatMap_singleton] at hv
    rcases ReadEarly.append_iff.1 hv with hv | hv
    · exact hids v hv
    · exact hblock id v (hv.congr fun hmem => hv.not_mem (hknown hmem))
  have hall : ∀ ids id, b.Way ids id →
      known id ⊆ b.args ++ (ids.flatMap b.traceAt).filterMap Prod.snd ∧
        ∀ v, ¬ ReadEarly b.args (ids.flatMap b.traceAt) v := by
    intro ids id hway
    induction hway with
    | entry => exact ⟨by simpa using hentry, fun v hv => hv⟩
    | @step ids id id' _ hid ih =>
        refine ⟨fun v hv => ?_, hstep ids id ih.1 ih.2⟩
        rw [List.flatMap_append, List.filterMap_append, List.flatMap_singleton, ← List.append_assoc]
        rcases List.mem_append.1 (hnext id id' hid hv) with hv | hv
        · exact List.mem_append_left _ (ih.1 hv)
        · exact List.mem_append_right _ hv
  exact fun ids id hway => hstep ids id (hall ids id hway).1 (hall ids id hway).2

end Ways

end Body

namespace Assembler

variable {a : Assembler}

/-- Let the function that is open have a body in which each value is defined before it is used on every
way from the entry. Its end finds a value used too early only where a block has been entered before
the blocks that define the value; it always fails then; and it never does if each block has been
entered after one that leads to it. -/
theorem endFunction_of_definesFirst (name : String) (settings : Settings) (requests : List Request)
    {body b : Body} (hbody : ((new name settings).after requests).current? = some body)
    (hb : implicitReturn body = .ok b) (hfirst : b.DefinesFirst) :
    (∀ n, (endFunction.run.run ((new name settings).after requests)).1 =
        .error (.rejected (.undefinedValue n)) →
      ∃ before id after, b.Misplaces before id after ⟨n⟩ ∧
        ∀ ids, b.Way ids id →
          ∃ j ∈ ids, j ∈ after ∧ ∃ k, b.blocks[j.index]? = some k ∧ ⟨n⟩ ∈ k.defines) ∧
    ((∃ before id after v, b.Misplaces before id after v) →
      ∃ f, (endFunction.run.run ((new name settings).after requests)).1 = .error f) ∧
    (b.Follows → ∀ n, (endFunction.run.run ((new name settings).after requests)).1 ≠
      .error (.rejected (.undefinedValue n))) := by
  have h := (accounts_new name settings).after requests
  have ht : b.Typed ((new name settings).after requests).declarations :=
    implicitReturn_typed (h.typed.opened body hbody) hb
  obtain ⟨hok, hearly⟩ := Body.checks_checkOrder ht
  have herror : ∀ n, (endFunction.run.run ((new name settings).after requests)).1 =
      .error (.rejected (.undefinedValue n)) → ∃ before id after, b.Misplaces before id after ⟨n⟩ := by
    intro n hn
    have hdefine := h.fails_define hbody hb (Prod.ext hn rfl)
    rcases (of_fails_define hdefine).2 with hf | hf
    · exact hf.elim
    · obtain ⟨before, id, after, hlayout, hreads⟩ := (hearly n hf).exists_of_flatMap
      exact ⟨before, id, after, hlayout, hreads⟩
  refine ⟨fun n hn => ?_, ?_, fun hfollows n hn => ?_⟩
  · obtain ⟨before, id, after, hm⟩ := herror n hn
    exact ⟨before, id, after, hm, fun ids hway => hm.exists_defines_after hfirst hway⟩
  · rintro ⟨before, id, after, v, hm⟩
    cases hend : (endFunction.run.run ((new name settings).after requests)).1 with
    | error f => exact ⟨f, rfl⟩
    | ok u =>
        obtain ⟨body', b', helpers, hends⟩ := succeeds_endFunction (Prod.ext hend rfl)
        obtain rfl := Option.some.inj (hends.opened.symm.trans hbody)
        obtain rfl := Except.ok.inj (hends.finished.symm.trans hb)
        refine absurd ?_ (hok hends.ordered v)
        rw [hm.layout, List.flatMap_append, List.flatMap_cons]
        exact ReadEarly.append_iff.2 (.inr (ReadEarly.append_iff.2 (.inl hm.reads)))
  · obtain ⟨before, id, after, hm⟩ := herror n hn
    exact hfollows.not_misplaces hfirst hm

/-- The body of the function whose blocks are laid out in another order than they run in. -/
def lateFirst : Body where
  id := ⟨0⟩
  name := "f"
  params := []
  result := none
  blocks := #[⟨"entry", #[], some (.jump ⟨2⟩)⟩, ⟨"late", #[.writeVar ⟨0⟩ ⟨0⟩], some (.ret none)⟩,
    ⟨"early", #[.const ⟨0⟩ (.i32 1)], some (.jump ⟨1⟩)⟩]
  layout := [⟨0⟩, ⟨1⟩, ⟨2⟩]
  current := ⟨1⟩
  valueTypes := #[.i32]
  varTypes := #[.i32]

/-- On its only way the value is defined before it is used, and its end fails all the same. -/
theorem refused_outOfOrder :
    ((new "m").after outOfOrder.dropLast).current? = some lateFirst ∧
    implicitReturn lateFirst = .ok lateFirst ∧ lateFirst.DefinesFirst ∧
    (endFunction.run.run ((new "m").after outOfOrder.dropLast)).1 =
      .error (.rejected (.undefinedValue 0)) := by
  refine ⟨by cbv, rfl, ?_, by cbv⟩
  exact Body.definesFirst_of_solution (fun id => if id = ⟨1⟩ then [⟨0⟩] else []) (by simp) (by decide)

/-- A function with a block that is entered, left and entered again. -/
def reentered : List Request :=
  [.begin "g" [] none, .emit (.createBlock "then"), .emit (.createBlock "join"),
    .emit (.literal (.bool true)), .emit (.branch ⟨0⟩ ⟨1⟩ ⟨2⟩), .emit (.switchTo ⟨2⟩),
    .emit (.switchTo ⟨1⟩), .emit (.literal (.i32 5)), .emit (.jump ⟨2⟩), .emit (.switchTo ⟨2⟩),
    .emit (.localVar ⟨0⟩), .emit .returnVoid]

def diamond : Body where
  id := ⟨0⟩
  name := "g"
  params := []
  result := none
  blocks := #[⟨"entry", #[.const ⟨0⟩ (.bool true)], some (.branch ⟨0⟩ ⟨1⟩ ⟨2⟩)⟩,
    ⟨"then", #[.const ⟨1⟩ (.i32 5)], some (.jump ⟨2⟩)⟩,
    ⟨"join", #[.writeVar ⟨0⟩ ⟨0⟩], some (.ret none)⟩]
  layout := [⟨0⟩, ⟨2⟩, ⟨1⟩]
  current := ⟨2⟩
  valueTypes := #[.bool, .i32]
  varTypes := #[.bool]

/-- Its blocks have been entered after ones that lead to them, and its end finds no value used too
early. -/
theorem endFunction_reentered :
    ((new "m").after reentered).current? = some diamond ∧ implicitReturn diamond = .ok diamond ∧
    diamond.DefinesFirst ∧ diamond.Follows ∧
    ∀ n, (endFunction.run.run ((new "m").after reentered)).1 ≠
      .error (.rejected (.undefinedValue n)) := by
  have hstage : ((new "m").after reentered).current? = some diamond := by cbv
  have hfirst : diamond.DefinesFirst :=
    Body.definesFirst_of_solution (fun id => if id = ⟨0⟩ then [] else [⟨0⟩]) (by simp) (by decide)
  have hfollows : diamond.Follows := by
    unfold Body.Follows
    decide
  exact ⟨hstage, rfl, hfirst, hfollows,
    (endFunction_of_definesFirst "m" {} reentered hstage rfl hfirst).2.2 hfollows⟩

end Assembler

end Dataflow.Code
