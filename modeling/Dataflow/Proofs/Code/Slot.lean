import Dataflow.Code.Slot
import Dataflow.Proofs.Fails

/-!
# Slots in use

A slot that a pool hands out was not in use before and is in use from then on, and the slots in
use stay so until they are given back themselves. No two slots have one name.
-/

namespace Dataflow.Code

theorem Scope.stem_injective : Function.Injective stem := by
  intro a b h
  cases a <;> cases b <;> first | rfl | exact absurd h (by decide)

theorem Scope.underscore_notMem_stem (a : Scope) : '_' ∉ a.stem.toList := by
  cases a <;> decide

/-- No stem has an underscore in it, so a name can be taken apart at the first one. -/
theorem Slot.name_injective : Function.Injective name := by
  rintro ⟨a, i⟩ ⟨b, j⟩ h
  have hname : ∀ s : Slot, s.name.toList = s.scope.stem.toList ++ '_' :: (Nat.repr s.index).toList := by
    intro s
    simp [name, toString]
  have hsplit : ∀ s : Slot, s.name.toList.takeWhile (· ≠ '_') = s.scope.stem.toList := by
    intro s
    have hstem : ∀ c ∈ s.scope.stem.toList, decide (c ≠ '_') = true := fun c hc =>
      decide_eq_true (ne_of_mem_of_not_mem hc s.scope.underscore_notMem_stem)
    rw [hname, List.takeWhile_append_of_pos hstem, List.takeWhile_cons_of_neg (by simp),
      List.append_nil]
  have hstem : a.stem.toList = b.stem.toList := by
    rw [← hsplit ⟨a, i⟩, h, hsplit ⟨b, j⟩]
  obtain rfl := Scope.stem_injective (String.toList_injective hstem)
  have hlist := (hname ⟨a, i⟩).symm.trans ((congrArg String.toList h).trans (hname ⟨a, j⟩))
  obtain rfl := Nat.repr_injective
    (String.toList_injective (List.cons.inj (List.append_cancel_left hlist)).2)
  rfl

namespace Pool

/-- The free slots are counted once and have been handed out before. -/
structure Sound (p : Pool) : Prop where
  nodup : p.free.Nodup
  below : ∀ i ∈ p.free, i < p.next

variable {p p' : Pool} {s s' : Slot} {f : Fault} {u : Unit}

theorem isAllocated_iff :
    p.isAllocated s = true ↔ s.scope = p.scope ∧ s.index < p.next ∧ s.index ∉ p.free := by
  simp [isAllocated, and_assoc]

theorem allocate_cases (p : Pool) :
    (∃ i rest, p.free = i :: rest ∧ p.allocate = (⟨p.scope, i⟩, { p with free := rest })) ∨
      p.free = [] ∧ p.allocate = (⟨p.scope, p.next⟩, { p with next := p.next + 1 }) := by
  unfold allocate
  cases hfree : p.free with
  | nil => exact Or.inr ⟨rfl, rfl⟩
  | cons i rest => exact Or.inl ⟨i, rest, rfl, rfl⟩

theorem scope_allocate (p : Pool) : p.allocate.2.scope = p.scope := by
  rcases allocate_cases p with ⟨i, rest, -, h⟩ | ⟨-, h⟩ <;> rw [h]

theorem scope_slot_allocate (p : Pool) : p.allocate.1.scope = p.scope := by
  rcases allocate_cases p with ⟨i, rest, -, h⟩ | ⟨-, h⟩ <;> rw [h]

theorem not_isAllocated_allocate (p : Pool) : p.isAllocated p.allocate.1 = false := by
  rw [Bool.eq_false_iff, Ne, isAllocated_iff]
  rcases allocate_cases p with ⟨i, rest, hfree, h⟩ | ⟨hfree, h⟩
  · rw [h, hfree]
    simp
  · rw [h]
    simp

theorem isAllocated_allocate (hp : p.Sound) : p.allocate.2.isAllocated p.allocate.1 = true := by
  rw [isAllocated_iff]
  rcases allocate_cases p with ⟨i, rest, hfree, h⟩ | ⟨hfree, h⟩
  · have hnodup := hp.nodup
    rw [hfree, List.nodup_cons] at hnodup
    rw [h]
    exact ⟨rfl, hp.below i (by simp [hfree]), hnodup.1⟩
  · rw [h]
    exact ⟨rfl, Nat.lt_succ_self _, by simp [hfree]⟩

theorem isAllocated_of_allocate (h : p.isAllocated s = true) :
    p.allocate.2.isAllocated s = true := by
  rw [isAllocated_iff] at h ⊢
  obtain ⟨hscope, hlt, hfree⟩ := h
  rcases allocate_cases p with ⟨i, rest, hp, h⟩ | ⟨hp, h⟩
  · rw [h]
    rw [hp, List.mem_cons, not_or] at hfree
    exact ⟨hscope, hlt, hfree.2⟩
  · rw [h]
    exact ⟨hscope, Nat.lt_succ_of_lt hlt, hfree⟩

theorem Sound.allocate (hp : p.Sound) : p.allocate.2.Sound := by
  rcases allocate_cases p with ⟨i, rest, hfree, h⟩ | ⟨hfree, h⟩
  · have hnodup := hp.nodup
    rw [hfree, List.nodup_cons] at hnodup
    rw [h]
    exact ⟨hnodup.2, fun j hj => hp.below j (by simp [hfree, hj])⟩
  · rw [h]
    exact ⟨hp.nodup, fun j hj => Nat.lt_succ_of_lt (hp.below j hj)⟩

theorem mem_insertSorted {n m : Nat} {l : List Nat} :
    m ∈ insertSorted n l ↔ m = n ∨ m ∈ l := by
  induction l with
  | nil => simp [insertSorted]
  | cons k l ih =>
      unfold insertSorted
      split
      · simp
      · simp only [List.mem_cons, ih]
        tauto

theorem nodup_insertSorted {n : Nat} {l : List Nat} (hn : n ∉ l) (hl : l.Nodup) :
    (insertSorted n l).Nodup := by
  induction l with
  | nil => simp [insertSorted]
  | cons k l ih =>
      rw [List.mem_cons, not_or] at hn
      rw [List.nodup_cons] at hl
      unfold insertSorted
      split
      · exact List.nodup_cons.2 ⟨by simp [hn.1, hn.2], List.nodup_cons.2 hl⟩
      · refine List.nodup_cons.2 ⟨?_, ih hn.2 hl.2⟩
        rw [mem_insertSorted, not_or]
        exact ⟨Ne.symm hn.1, hl.1⟩

/-- A slot that is not in use, or that belongs to another pool, is refused and the pool stays as it
was. -/
theorem run_release (s : Slot) (p : Pool) : (release s).run.run p =
    if p.isAllocated s then (.ok (), { p with free := insertSorted s.index p.free })
    else if s.scope = p.scope then (.error (.invalid (.freeSlot s.name)), p)
    else (.error (.invalid (.foreignSlot s.name p.scope.label)), p) := by
  by_cases hs : s.scope = p.scope
  · by_cases hn : p.next ≤ s.index
    · have hfree : p.isAllocated s ≠ true := fun h => Nat.not_lt.2 hn (isAllocated_iff.1 h).2.1
      rw [if_neg hfree, if_pos hs]
      exact (show Fails (release s) p _ p by simp [release, hs, hn])
    · by_cases hf : s.index ∈ p.free
      · have hfree : p.isAllocated s ≠ true := fun h => (isAllocated_iff.1 h).2.2 hf
        rw [if_neg hfree, if_pos hs]
        exact (show Fails (release s) p _ p by simp [release, insertFree, hs, hn, hf])
      · rw [if_pos (isAllocated_iff.2 ⟨hs, Nat.lt_of_not_le hn, hf⟩)]
        exact (show Succeeds (release s) p _ _ by simp [release, insertFree, hs, hn, hf])
  · have hfree : p.isAllocated s ≠ true := fun h => hs (isAllocated_iff.1 h).1
    rw [if_neg hfree, if_neg hs]
    exact (show Fails (release s) p _ p by simp [release, hs])

theorem succeeds_release : Succeeds (release s) p u p' ↔
    p.isAllocated s = true ∧ p' = { p with free := insertSorted s.index p.free } := by
  rw [Succeeds, run_release]
  by_cases hs : p.isAllocated s = true
  · rw [if_pos hs]
    exact ⟨fun h => ⟨hs, (Prod.mk.inj h).2.symm⟩, fun h => by rw [h.2]⟩
  · rw [if_neg hs]
    refine ⟨fun h => ?_, fun h => absurd h.1 hs⟩
    split at h <;> cases h

theorem of_fails_release (h : Fails (release s) p f p') : p.isAllocated s = false ∧ p = p' := by
  rw [Fails, run_release] at h
  split at h
  case isTrue => cases h
  case isFalse hs =>
    rw [Bool.not_eq_true] at hs
    split at h <;> exact ⟨hs, (Prod.mk.inj h).2⟩

theorem Sound.release (hp : p.Sound) (h : Succeeds (release s) p u p') : p'.Sound := by
  obtain ⟨hs, rfl⟩ := succeeds_release.1 h
  obtain ⟨-, hlt, hfree⟩ := isAllocated_iff.1 hs
  refine ⟨nodup_insertSorted hfree hp.nodup, fun i hi => ?_⟩
  rcases mem_insertSorted.1 hi with rfl | hi
  · exact hlt
  · exact hp.below i hi

/-- Only the slot that is given back is no longer in use. -/
theorem isAllocated_of_release (h : Succeeds (release s) p u p') (hs' : p.isAllocated s' = true)
    (hne : s' ≠ s) : p'.isAllocated s' = true := by
  obtain ⟨hs, rfl⟩ := succeeds_release.1 h
  rw [isAllocated_iff] at hs hs' ⊢
  refine ⟨hs'.1, hs'.2.1, ?_⟩
  rw [mem_insertSorted, not_or]
  refine ⟨fun hi => hne ?_, hs'.2.2⟩
  obtain ⟨scope, index⟩ := s
  obtain ⟨scope', index'⟩ := s'
  obtain rfl : index' = index := hi
  obtain rfl : scope' = scope := hs'.1.trans hs.1.symm
  rfl

end Pool

namespace Pools

variable {ps ps' : Pools} {scope scope' : Scope} {s : Slot} {f : Fault} {u : Unit}

theorem get_allocate_of_ne (h : scope' ≠ scope) : (ps.allocate scope).2.get scope' = ps.get scope' :=
  get_set_of_ne ps _ h

theorem set_get (ps : Pools) (scope : Scope) : ps.set scope (ps.get scope) = ps := by
  cases scope <;> rfl

theorem run_releaseIn (scope : Scope) (s : Slot) (ps : Pools) : (releaseIn scope s).run.run ps =
    (((Pool.release s).run.run (ps.get scope)).1,
      ps.set scope ((Pool.release s).run.run (ps.get scope)).2) := by
  rcases h : (Pool.release s).run.run (ps.get scope) with ⟨r, p⟩
  cases r with
  | ok u => exact (show Succeeds (releaseIn scope s) ps u _ by simp [releaseIn, h])
  | error f => exact (show Fails (releaseIn scope s) ps f _ by simp [releaseIn, h])

theorem succeeds_releaseIn : Succeeds (releaseIn scope s) ps u ps' ↔
    ∃ p, Succeeds (Pool.release s) (ps.get scope) () p ∧ ps.set scope p = ps' := by
  rw [Succeeds, run_releaseIn]
  constructor
  · intro h
    obtain ⟨hr, hps⟩ := Prod.mk.inj h
    exact ⟨_, Prod.ext hr rfl, hps⟩
  · rintro ⟨p, hp, rfl⟩
    rw [show (Pool.release s).run.run (ps.get scope) = _ from hp]

/-- A pool that refuses a slot stays as it was, and so do the others. -/
theorem of_fails_releaseIn (h : Fails (releaseIn scope s) ps f ps') :
    (ps.get scope).isAllocated s = false ∧ ps = ps' := by
  rw [Fails, run_releaseIn] at h
  obtain ⟨hr, hps⟩ := Prod.mk.inj h
  obtain ⟨hs, hp⟩ := Pool.of_fails_release (Prod.ext hr rfl)
  exact ⟨hs, (set_get ps scope).symm.trans ((congrArg (ps.set scope) hp).trans hps)⟩

theorem get_release_of_ne (hrel : Succeeds (release s) ps u ps') (h : scope ≠ s.scope) :
    ps'.get scope = ps.get scope := by
  obtain ⟨p, -, rfl⟩ := succeeds_releaseIn.1 hrel
  exact get_set_of_ne ps _ h

theorem get_release (hrel : Succeeds (release s) ps u ps') (h : s.scope = scope) :
    Succeeds (Pool.release s) (ps.get scope) () (ps'.get scope) := by
  obtain ⟨p, hp, rfl⟩ := succeeds_releaseIn.1 hrel
  rw [h] at hp ⊢
  rwa [get_set_same]

end Pools

end Dataflow.Code
