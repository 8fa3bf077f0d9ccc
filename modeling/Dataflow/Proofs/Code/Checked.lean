import Dataflow.Proofs.Code.Lined
import Dataflow.Proofs.Code.Recording

/-!
# Code in line passes the checks

A body whose blocks have been closed one after the other passes both checks of a finished body: every
value is defined before it is used, in layout order, and on every way to its use.
-/

namespace Dataflow.Code

namespace Defined

theorem has_add (D : Defined) (v w : ValueId) :
    (D.add v).has w = if v.index = w.index ∧ v.index < D.size then true else D.has w := by
  simp only [has, add, Array.getD_eq_getD_getElem?, Array.getElem?_setIfInBounds]
  by_cases hvw : v.index = w.index
  · by_cases hlt : v.index < D.size
    · simp [hvw, hvw ▸ hlt]
    · simp [hvw, hvw ▸ hlt]
  · simp [hvw]

structure UpTo (D : Defined) (n size : Nat) : Prop where
  size : D.size = size
  has : ∀ v : ValueId, D.has v = true ↔ v.index < n

variable {D : Defined} {n m size : Nat}

theorem UpTo.add (h : D.UpTo n size) (hn : n < size) : (D.add ⟨n⟩).UpTo (n + 1) size where
  size := (Array.size_setIfInBounds ..).trans h.size
  has v := by
    have hv := h.has v
    rw [Defined.has, Array.getD_eq_getD_getElem?] at hv ⊢
    rw [Defined.add, Array.getElem?_setIfInBounds]
    by_cases hvn : n = v.index
    · subst hvn
      simp [h.size, hn]
    · rw [if_neg hvn, hv]
      omega

theorem upTo_ofArgs {b : Body} (h : b.args = (List.range b.args.length).map ValueId.mk)
    (hle : b.args.length ≤ b.valueTypes.size) :
    (ofArgs b).UpTo b.args.length b.valueTypes.size := by
  have hfold : ∀ a ≤ b.valueTypes.size,
      UpTo (((List.range a).map ValueId.mk).foldl add (Array.replicate b.valueTypes.size false)) a
        b.valueTypes.size := by
    intro a
    induction a with
    | zero =>
        refine fun _ => ⟨Array.size_replicate, fun v => ?_⟩
        simp [has, Array.getElem?_replicate]
        split <;> simp
    | succ a ih =>
        intro ha
        rw [List.range_succ, List.map_append, List.foldl_append]
        exact (ih (Nat.le_of_succ_le ha)).add ha
  unfold ofArgs
  rw [h]
  simpa using hfold _ hle

theorem UpTo.requireDefined (h : D.UpTo n size) {vs : List ValueId} (hvs : ∀ v ∈ vs, v.index < n) :
    Code.requireDefined D vs = .ok () := by
  induction vs with
  | nil => rfl
  | cons v vs ih =>
      rw [Code.requireDefined, if_pos ((h.has v).2 (hvs v (by simp)))]
      exact ih fun w hw => hvs w (by simp [hw])

end Defined

/-- What a typed instruction defines has a type. -/
theorem Instr.Typed.exists_has {Γ : TypeEnv} {i : Instr} {v : ValueId} (h : i.Typed Γ)
    (hv : i.defines = some v) : ∃ t, Γ.Has v t := by
  cases i with
  | location _ | store _ _ _ | writeVar _ _ => cases hv
  | const _ _ | stackAddress _ _ =>
      obtain rfl := Option.some.inj hv
      exact ⟨_, h⟩
  | datumAddress _ _ | offset _ _ _ _ | compare _ _ _ _ =>
      obtain rfl := Option.some.inj hv
      exact ⟨_, h.1⟩
  | binary _ _ _ _ | unary _ _ _ =>
      obtain rfl := Option.some.inj hv
      exact h.imp fun _ h => h.1
  | load _ _ _ =>
      obtain rfl := Option.some.inj hv
      exact h.2
  | select _ _ _ _ =>
      obtain rfl := Option.some.inj hv
      exact h.2.imp fun _ h => h.1
  | cast _ _ =>
      obtain rfl := Option.some.inj hv
      obtain ⟨-, t, -, hr, -⟩ := h
      exact ⟨t, hr⟩
  | readVar _ _ =>
      obtain rfl := Option.some.inj hv
      exact h.imp fun _ h => h.2
  | call result _ _ =>
      obtain rfl : result = some v := hv
      obtain ⟨s, -, -, hr⟩ := h
      generalize s.result = t at hr
      cases hr with
      | some hr => exact ⟨_, hr⟩

namespace Body

variable {b : Body} {d : Declarations} {n m size : Nat} {D : Defined} {i : Instr}

theorem requireIndex_of_lt {length index : Nat} (h : index < length) :
    requireIndex length index = .ok () := by
  rw [requireIndex, if_pos h]

/-- What is typed can be lowered. -/
theorem checkTypes_eq_ok (hi : i.Typed (b.typing d))
    (hplace : ∀ v s, i = .stackAddress v s → s.index < b.stack.size) : b.checkTypes i = .ok () := by
  have htype : ∀ {v t}, (b.typing d).Has v t → b.valueType v = .ok t :=
    fun hv => valueType_eq_ok_iff.2 hv
  have hvar : ∀ {x t}, (b.typing d).HasVar x t → requireIndex b.varTypes.size x.index = .ok () :=
    fun hx => requireIndex_of_lt (Array.getElem?_eq_some_iff.1 hx).1
  cases i with
  | binary result op lhs rhs =>
      obtain ⟨t, -, hl, -, hop⟩ := hi
      refine bind_eq_ok_iff.2 ⟨t, htype hl, ?_⟩
      rw [BinaryOp.lowers_eq, hop]
      rfl
  | unary result op operand =>
      obtain ⟨t, -, hx, hop⟩ := hi
      refine bind_eq_ok_iff.2 ⟨t, htype hx, ?_⟩
      rw [UnaryOp.lowers_eq, hop]
      rfl
  | cast result value =>
      obtain ⟨source, target, hv, hr, hconv⟩ := hi
      refine bind_eq_ok_iff.2 ⟨source, htype hv, bind_eq_ok_iff.2 ⟨target, htype hr, ?_⟩⟩
      rw [castable_eq, hconv]
      rfl
  | stackAddress result slot => exact requireIndex_of_lt (hplace result slot rfl)
  | readVar result var =>
      obtain ⟨t, hx, -⟩ := hi
      exact hvar hx
  | writeVar var value =>
      obtain ⟨t, hx, -⟩ := hi
      exact hvar hx
  | _ => rfl

/-- A typed instruction only fails to be lowered for the place that it takes the address of. -/
theorem checkTypes_eq_error {f : Fault} (hi : i.Typed (b.typing d))
    (h : b.checkTypes i = .error f) : ∃ v s, i = .stackAddress v s ∧ b.stack.size ≤ s.index ∧
      f = .breach (.subscript b.stack.size s.index) := by
  by_cases hplace : ∀ v s, i = .stackAddress v s → s.index < b.stack.size
  · cases (checkTypes_eq_ok hi hplace).symm.trans h
  · push Not at hplace
    obtain ⟨v, s, rfl, hs⟩ := hplace
    refine ⟨v, s, rfl, hs, ?_⟩
    change requireIndex b.stack.size s.index = .error f at h
    rw [requireIndex, if_neg (Nat.not_lt.2 hs)] at h
    exact (Except.error.inj h).symm

theorem exists_checkInstr (hi : i.Typed (b.typing d))
    (hplace : ∀ v s, i = .stackAddress v s → s.index < b.stack.size) (hD : D.UpTo n size)
    (hx : Numbered n [i.event] m) (hm : m ≤ size) :
    ∃ D', b.checkInstr D i = .ok D' ∧ D'.UpTo m size := by
  have hstep : ∀ D', (i.defines.map D.add).getD D = D' → (∀ v ∈ i.uses, v.index < n) →
      b.checkInstr D i = .ok D' := by
    rintro D' rfl huses
    refine bind_eq_ok_iff.2 ⟨(), hD.requireDefined huses, ?_⟩
    exact bind_eq_ok_iff.2 ⟨(), checkTypes_eq_ok hi hplace, rfl⟩
  generalize hevent : i.event = x at hx
  obtain ⟨vs, r⟩ := x
  obtain ⟨rfl, hdefines⟩ := Prod.mk.inj hevent
  cases hx with
  | use huses hrest =>
      cases hrest
      exact ⟨D, hstep D (by rw [hdefines]; rfl) huses, hD⟩
  | define huses hrest =>
      cases hrest
      exact ⟨_, hstep _ (by rw [hdefines]; rfl) huses, hD.add hm⟩

theorem exists_checkInstrs {is : List Instr} (hi : ∀ i ∈ is, i.Typed (b.typing d))
    (hplace : ∀ v s, .stackAddress v s ∈ is → s.index < b.stack.size) (hD : D.UpTo n size)
    (hx : Numbered n (is.map Instr.event) m) (hm : m ≤ size) :
    ∃ D', is.foldlM b.checkInstr D = .ok D' ∧ D'.UpTo m size := by
  induction is generalizing n D with
  | nil =>
      cases hx
      exact ⟨D, rfl, hD⟩
  | cons i is ih =>
      have hx : Numbered n ([i.event] ++ is.map Instr.event) m := hx
      obtain ⟨l, hfirst, hrest⟩ := hx.exists_of_append
      obtain ⟨D₁, h₁, hD₁⟩ := exists_checkInstr (hi i (by simp))
        (fun v s hs => hplace v s (by simp [hs])) hD hfirst (hrest.le.trans hm)
      obtain ⟨D₂, h₂, hD₂⟩ := ih (fun j hj => hi j (by simp [hj]))
        (fun v s hs => hplace v s (by simp [hs])) hD₁ hrest
      exact ⟨D₂, by rw [List.foldlM_cons]; exact bind_eq_ok_iff.2 ⟨D₁, h₁, h₂⟩, hD₂⟩

structure Complete (b : Body) (n : Nat) : Prop extends Ordered b n where
  layout : b.layout = b.blockIds
  closed : ∀ k ∈ b.blocks, k.isClosed = true

theorem Complete.exists_checkBlock (h : b.Complete n) (ht : b.Typed d) {id : BlockId} {k : Block}
    (hk : b.blocks[id.index]? = some k) {l m : Nat} (hD : D.UpTo l size)
    (hx : Numbered l k.trace m) (hm : m ≤ size) :
    ∃ D', b.checkBlock D id = .ok D' ∧ D'.UpTo m size := by
  have hmem := Array.mem_of_getElem? hk
  obtain ⟨t, hterm⟩ := Option.isSome_iff_exists.1 (h.closed k hmem)
  obtain ⟨l', hinstrs, hlast⟩ := Numbered.exists_of_append hx
  rw [hterm, Option.map_some, Option.toList_some] at hlast
  have htyped := ht.blocks k hmem
  obtain ⟨D', hD', hupTo⟩ := exists_checkInstrs (fun i hi => htyped.instrs i (by simpa using hi))
    (fun v s hs => h.places k hmem v s (by simpa using hs)) hD hinstrs (hlast.le.trans hm)
  cases hlast with
  | use huses hrest =>
      cases hrest
      refine ⟨D', ?_, hupTo⟩
      refine bind_eq_ok_iff.2 ⟨k, block_eq_ok_iff.2 hk, bind_eq_ok_iff.2 ⟨D', ?_, ?_⟩⟩
      · rw [← Array.foldlM_toList]
        exact hD'
      · rw [hterm]
        exact bind_eq_ok_iff.2 ⟨(), hupTo.requireDefined huses, rfl⟩

theorem Complete.fullLayout_eq (h : b.Complete n) : b.fullLayout = b.blockIds := by
  rw [fullLayout, h.layout]
  simp

/-- Every value is defined before it is used. -/
theorem Complete.checkOrder (h : b.Complete n) (ht : b.Typed d) (hn : n ≤ b.valueTypes.size) :
    b.checkOrder = .ok () := by
  -- The blocks from the first one that is still to be checked, and what is defined before it.
  have hblocks : ∀ (ks : List Block) (i l : Nat) (D : Defined),
      (∀ j, ks[j]? = b.blocks[i + j]?) → D.UpTo l b.valueTypes.size →
      Numbered l (ks.flatMap Block.trace) n →
      ∃ D', ((List.range' i ks.length).map BlockId.mk).foldlM b.checkBlock D = .ok D' := by
    intro ks
    induction ks with
    | nil => exact fun i l D _ _ _ => ⟨D, rfl⟩
    | cons k ks ih =>
        intro i l D hks hD hx
        obtain ⟨l', hfirst, hrest⟩ := Numbered.exists_of_append hx
        have hk : b.blocks[(⟨i⟩ : BlockId).index]? = some k := (hks 0).symm
        obtain ⟨D₁, h₁, hD₁⟩ := h.exists_checkBlock ht hk hD hfirst
          (hrest.le.trans hn)
        obtain ⟨D₂, h₂⟩ := ih (i + 1) l' D₁ (fun j => (hks (j + 1)).trans (by
          rw [Nat.add_assoc, Nat.add_comm 1 j])) hD₁ hrest
        refine ⟨D₂, ?_⟩
        rw [List.length_cons, List.range'_succ, List.map_cons, List.foldlM_cons]
        exact bind_eq_ok_iff.2 ⟨D₁, h₁, h₂⟩
  obtain ⟨D, hD⟩ := hblocks b.blocks.toList 0 _ _ (fun j => by simp)
    (Defined.upTo_ofArgs h.args (h.numbered.le.trans hn)) h.numbered
  refine bind_eq_ok_iff.2 ⟨D, ?_, rfl⟩
  rw [h.fullLayout_eq, blockIds, List.range_eq_range']
  exact hD

theorem Ordered.entryIsFirst (h : b.Ordered n) : b.entryIsFirst = true := by
  rw [Body.entryIsFirst, Array.all_eq_true_iff_forall_mem]
  intro k hk
  simpa using h.first k hk

/-- A value has one block in which it is defined, and is no argument then. -/
theorem Ordered.definition_unique (h : b.Ordered n) {i j : Nat} {k k' : Block} {v : ValueId}
    (hk : b.blocks[i]? = some k) (hk' : b.blocks[j]? = some k') (hv : v ∈ k.defines)
    (hv' : v ∈ k'.defines) : i = j ∧ b.args.length ≤ v.index := by
  have hdefines : b.blocks.toList.flatMap Block.defines =
      (List.range' b.args.length (n - b.args.length)).map ValueId.mk := by
    rw [← h.numbered.defines_eq, List.filterMap_flatMap]
    exact List.flatMap_congr fun k _ => k.defines_eq.symm
  have hnodup : (b.blocks.toList.flatMap Block.defines).Nodup := by
    rw [hdefines]
    exact (List.nodup_range' 1).map fun _ _ h => congrArg ValueId.index h
  have hlt : ∀ {i : Nat} {k : Block}, b.blocks[i]? = some k → b.blocks.toList[i]? = some k := by
    simp
  constructor
  · by_contra hne
    have hdisjoint := List.pairwise_iff_getElem.1 (List.nodup_flatMap.1 hnodup).2
    obtain ⟨hi, rfl⟩ := List.getElem?_eq_some_iff.1 (hlt hk)
    obtain ⟨hj, rfl⟩ := List.getElem?_eq_some_iff.1 (hlt hk')
    rcases Nat.lt_or_gt_of_ne hne with hij | hij
    · exact hdisjoint i j hi hj hij hv hv'
    · exact hdisjoint j i hj hi hij hv' hv
  · have hmem : v ∈ b.blocks.toList.flatMap Block.defines :=
      List.mem_flatMap.2 ⟨k, List.mem_of_getElem? (hlt hk), hv⟩
    rw [hdefines] at hmem
    obtain ⟨l, hl, rfl⟩ := List.mem_map.1 hmem
    exact (List.mem_range'_1.1 hl).1

/-- The site that is noted for a value is a block that defines it. -/
theorem exists_of_definitionSites {v : Nat} {site : BlockId}
    (h : b.definitionSites[v]?.join = some site) :
    ∃ k, b.blocks[site.index]? = some k ∧ ⟨v⟩ ∈ k.defines := by
  suffices hall : ∀ (v : Nat) site, b.definitionSites[v]?.join = some site →
      ∃ k, b.blocks[site.index]? = some k ∧ ⟨v⟩ ∈ k.defines from hall v site h
  unfold definitionSites
  refine List.foldlRecOn (motive := fun sites : Array (Option BlockId) => ∀ (v : Nat) site,
    sites[v]?.join = some site → ∃ k, b.blocks[site.index]? = some k ∧ ⟨v⟩ ∈ k.defines) _ _ ?_ ?_
  · intro v site hsite
    rw [Array.getElem?_replicate] at hsite
    split at hsite <;> cases hsite
  · rintro sites hsites ⟨k, i⟩ hki
    have hk : b.blocks[i]? = some k := by
      simpa using List.mem_zipIdx_iff_getElem?.1 hki
    refine List.foldlRecOn (motive := fun sites : Array (Option BlockId) => ∀ (v : Nat) site,
      sites[v]?.join = some site → ∃ k, b.blocks[site.index]? = some k ∧ ⟨v⟩ ∈ k.defines) _ _
      hsites fun sites hsites w hw v site hsite => ?_
    rw [Array.getElem?_setIfInBounds] at hsite
    split at hsite
    · next hwv =>
        split at hsite
        · obtain rfl := Option.some.inj hsite
          exact ⟨k, hk, hwv ▸ hw⟩
        · cases hsite
    · exact hsites v site hsite

/-- The sources of a block define what it uses, and are other blocks. -/
theorem exists_of_mem_sources {sites : Array (Option BlockId)} {id site : BlockId}
    (h : site ∈ b.sources sites id) : site ≠ id ∧ ∃ k, b.blocks[id.index]? = some k ∧
      ∃ v ∈ k.uses, sites[v.index]?.join = some site := by
  cases hk : b.blocks[id.index]? with
  | none => simp [sources, hk] at h
  | some k =>
      simp only [sources, hk, Option.map_some, Option.getD_some] at h
      suffices hall : ∀ site ∈ _, site ≠ id ∧ ∃ v ∈ k.uses, sites[v.index]?.join = some site by
        obtain ⟨hne, hv⟩ := hall site h
        exact ⟨hne, k, rfl, hv⟩
      refine List.foldlRecOn (motive := fun found : List BlockId => ∀ site ∈ found, site ≠ id ∧
        ∃ v ∈ k.uses, sites[v.index]?.join = some site) _ _ (by simp)
        fun found hfound v hv site hsite => ?_
      split at hsite
      · next s hs =>
          split at hsite
          · exact hfound site hsite
          · next hnew =>
              rcases List.mem_cons.1 hsite with rfl | hsite
              · refine ⟨fun heq => hnew ?_, v, hv, hs⟩
                simp [heq]
              · exact hfound site hsite
      · exact hfound site hsite

/-- Runs that avoid a gate stay before it. -/
theorem Gate.lt_of_mem_reach {g : Nat} (h : b.Gate g) {steps : Nat} {seen frontier : List BlockId}
    (hseen : ∀ id ∈ seen, id.index < g) (hfrontier : ∀ id ∈ frontier, id.index < g) {id : BlockId}
    (hid : id ∈ b.reach (some ⟨g⟩) steps seen frontier) : id.index < g := by
  induction steps generalizing seen frontier with
  | zero => exact hseen id hid
  | succ steps ih =>
      cases frontier with
      | nil => exact hseen id hid
      | cons f fs =>
          obtain ⟨fresh, hfresh, hid⟩ : ∃ fresh, (∀ id ∈ fresh, id.index < g) ∧
              id ∈ b.reach (some ⟨g⟩) steps (seen ++ fresh) fresh := by
            refine ⟨_, ?_, hid⟩
            intro id hid
            obtain ⟨hmem, hnot⟩ := List.mem_filter.1 hid
            obtain ⟨j, hj, hmem⟩ := List.mem_flatMap.1 (List.mem_eraseDups.1 hmem)
            obtain ⟨k, hk, -, htargets⟩ := h j.index (hfrontier j hj)
            rw [successors, hk] at hmem
            refine lt_of_le_of_ne (htargets id hmem) fun heq => ?_
            simp [← heq] at hnot
          refine ih (fun id hid => ?_) hfresh hid
          rcases List.mem_append.1 hid with hid | hid
          · exact hseen id hid
          · exact hfresh id hid

/-- A gate lies on every way to the blocks behind it. -/
theorem Gate.dominates {g : Nat} (h : b.Gate g) {id : BlockId} (hid : g < id.index) :
    b.dominates ⟨g⟩ id = true := by
  rw [Body.dominates, Bool.not_eq_true', List.contains_eq_mem, decide_eq_false_iff_not, reachable]
  split
  · exact List.not_mem_nil
  · next hg =>
      intro hmem
      have hpos : 0 < g := Nat.pos_of_ne_zero fun hzero => hg (by rw [hzero])
      exact absurd (h.lt_of_mem_reach (by simpa using hpos) (by simpa using hpos) hmem)
        (Nat.not_lt.2 hid.le)

/-- What is used in a block has been defined on every way there. -/
theorem Ordered.definitionsDominate (h : b.Ordered n) : b.definitionsDominate = true := by
  rw [Body.definitionsDominate, List.all_eq_true]
  intro id _
  rw [Bool.or_eq_true, List.all_eq_true]
  refine Or.inr fun site hsite => ?_
  obtain ⟨hne, k, hk, v, hv, hnoted⟩ := exists_of_mem_sources hsite
  obtain ⟨k', hk', hdefines⟩ := exists_of_definitionSites hnoted
  rcases h.near id.index k hk v hv with harg | ⟨g, k'', hk'', hv', hg⟩
  · exact absurd harg (Nat.not_lt.2 (h.definition_unique hk' hk' hdefines hdefines).2)
  · obtain ⟨rfl, -⟩ := h.definition_unique hk'' hk' hv' hdefines
    rcases hg with hid | ⟨hlt, hgate⟩
    · exact absurd (congrArg BlockId.mk hid) hne
    · exact hgate.dominates hlt

theorem Ordered.isWellFormed (h : b.Ordered n) : b.isWellFormed = true := by
  rw [Body.isWellFormed, h.entryIsFirst, h.definitionsDominate]
  rfl

/-- Closing the last block completes the body. -/
theorem Lined.complete (h : b.Lined n) (hl : b.Level) {t : Terminator} {b' : Body}
    (ht : b.terminate t = .ok b') (ho : b'.Ordered n) : b'.Complete n := by
  obtain ⟨⟨k, hk⟩, rfl⟩ := terminate_eq_ok_iff.1 ht
  refine ⟨ho, ?_, fun k' hk' => ?_⟩
  · change b.layout = (List.range (b.blocks.modify _ _).size).map BlockId.mk
    rw [Array.size_modify, hl.last, h.layout]
  · obtain ⟨i, hi⟩ := Array.mem_iff_getElem?.1 hk'
    have hlt := (Array.getElem?_eq_some_iff.1 hi).1
    rw [Array.size_modify, hl.last] at hlt
    rw [Array.getElem?_modify] at hi
    split at hi
    · next hcurrent =>
        subst hcurrent
        rw [hk.1, Option.map_some] at hi
        obtain rfl := Option.some.inj hi
        rfl
    · next hne =>
        obtain ⟨k'', hk'', hclosed⟩ := h.before i (by omega)
        obtain rfl := Option.some.inj (hi.symm.trans hk'')
        exact hclosed

end Body

end Dataflow.Code
