import Dataflow.Graph.Arena
import Mathlib

/-!
# Keys of an arena are handed out once

A key is spent once it has been handed out: its place holds that generation or a later one. What
is stored is stored under a spent key, every operation keeps spent keys spent, and the key of the
next insertion is not spent. So a key that was given away never reaches anything but what was
stored under it.
-/

namespace Dataflow.Arena

variable {α : Type} {a : Arena α}

structure Sound (a : Arena α) : Prop where
  nodup : a.vacant.Nodup
  vacant : ∀ slot ∈ a.vacant, ∃ p, a.places[slot]? = some p ∧ p.content = none
  positive : ∀ (slot : Nat) (p : Place α), a.places[slot]? = some p → 0 < p.generation

def Spent (a : Arena α) (k : Key) : Prop :=
  ∃ p, a.places[k.slot]? = some p ∧
    (k.generation < p.generation ∨ k.generation = p.generation ∧ p.content.isSome)

theorem get?_eq_some_iff {k : Key} {x : α} :
    a.get? k = some x ↔ a.places[k.slot]? = some ⟨k.generation, some x⟩ := by
  unfold get?
  cases hp : a.places[k.slot]? with
  | none => simp
  | some p =>
      obtain ⟨generation, content⟩ := p
      by_cases hg : generation = k.generation
      · simp [hg]
      · simp [hg]

theorem spent_of_get? {k : Key} {x : α} (h : a.get? k = some x) : a.Spent k :=
  ⟨_, get?_eq_some_iff.1 h, Or.inr ⟨rfl, rfl⟩⟩

theorem sound_empty : ({} : Arena α).Sound where
  nodup := List.nodup_nil
  vacant := by simp
  positive := by simp

section Insert

variable (make : Key → α)

theorem insert_fst : (a.insert make).1 = a.nextKey := by
  unfold insert
  split <;> rfl

theorem nextKey_of_vacant {slot : Nat} {vacant : List Nat} {p : Place α}
    (hv : a.vacant = slot :: vacant) (hp : a.places[slot]? = some p) :
    a.nextKey = ⟨slot, p.generation⟩ := by
  simp [nextKey, hv, hp]

theorem not_spent_nextKey (h : a.Sound) : ¬ a.Spent a.nextKey := by
  rintro ⟨p, hp, hspent⟩
  cases hv : a.vacant with
  | nil => simp [nextKey, hv] at hp
  | cons slot vacant =>
      obtain ⟨q, hq, hnone⟩ := h.vacant slot (by simp [hv])
      rw [nextKey_of_vacant hv hq] at hp hspent
      obtain rfl : q = p := by simpa [hq] using hp
      rcases hspent with hlt | ⟨_, hsome⟩
      · exact absurd hlt (Nat.lt_irrefl _)
      · simp [hnone] at hsome

/-- Inserting writes the place of the next key and no other. -/
theorem places_insert (h : a.Sound) (slot : Nat) :
    (a.insert make).2.places[slot]? =
      if slot = a.nextKey.slot then some ⟨a.nextKey.generation, some (make a.nextKey)⟩
      else a.places[slot]? := by
  cases hv : a.vacant with
  | nil =>
      have hk : a.nextKey = ⟨a.places.size, 1⟩ := by simp [nextKey, hv]
      simp only [insert, hv, hk]
      rw [Array.getElem?_push]
  | cons s vacant =>
      obtain ⟨q, hq, _⟩ := h.vacant s (by simp [hv])
      have hk : a.nextKey = ⟨s, q.generation⟩ := nextKey_of_vacant hv hq
      have hs : s < a.places.size := (Array.getElem?_eq_some_iff.1 hq).1
      simp only [insert, hv, hk]
      rw [Array.getElem?_setIfInBounds]
      by_cases he : slot = s
      · subst he; simp [hs]
      · simp [he, Ne.symm he]

theorem get?_insert (h : a.Sound) (k : Key) :
    (a.insert make).2.get? k = if k = a.nextKey then some (make k) else a.get? k := by
  have hp := places_insert make h k.slot
  by_cases hk : k = a.nextKey
  · subst hk
    rw [if_pos rfl] at hp
    simp [get?, hp]
  · rw [if_neg hk]
    by_cases hs : k.slot = a.nextKey.slot
    · have hg : a.nextKey.generation ≠ k.generation := by
        intro hg
        exact hk (by cases k; cases hn : a.nextKey; simp_all)
      rw [if_pos hs] at hp
      have hold : a.get? k = none := by
        cases ho : a.get? k with
        | none => rfl
        | some x =>
            exfalso
            obtain ⟨p, hpl, hsp⟩ := spent_of_get? ho
            cases hv : a.vacant with
            | nil => simp [nextKey, hv] at hs; simp [hs] at hpl
            | cons slot vacant =>
                obtain ⟨q, hq, hnone⟩ := h.vacant slot (by simp [hv])
                rw [nextKey_of_vacant hv hq] at hs
                have := get?_eq_some_iff.1 ho
                rw [hs, hq] at this
                obtain rfl : q = _ := Option.some.inj this
                simp at hnone
      rw [hold]
      simp [get?, hp, hg]
    · rw [if_neg hs] at hp
      simp [get?, hp]

theorem sound_insert (h : a.Sound) : (a.insert make).2.Sound where
  nodup := by
    cases hv : a.vacant with
    | nil => simp [insert, hv]
    | cons slot vacant =>
        have := h.nodup
        rw [hv] at this
        simpa [insert, hv] using (List.nodup_cons.1 this).2
  vacant := by
    intro s hs
    have hp := places_insert make h s
    cases hv : a.vacant with
    | nil => simp [insert, hv] at hs
    | cons slot vacant =>
        have hnd := h.nodup
        rw [hv] at hnd
        have hs' : s ∈ vacant := by simpa [insert, hv] using hs
        have hne : s ≠ slot := fun he => (List.nodup_cons.1 hnd).1 (he ▸ hs')
        obtain ⟨q, hq, _⟩ := h.vacant slot (by simp [hv])
        rw [nextKey_of_vacant hv hq, if_neg hne] at hp
        rw [hp]
        exact h.vacant s (by simp [hv, hs'])
  positive := by
    intro s p hs
    rw [places_insert make h s] at hs
    split_ifs at hs with he
    · obtain rfl := Option.some.inj hs
      cases hv : a.vacant with
      | nil => simp [nextKey, hv]
      | cons slot vacant =>
          obtain ⟨q, hq, _⟩ := h.vacant slot (by simp [hv])
          rw [nextKey_of_vacant hv hq]
          exact h.positive slot q hq
    · exact h.positive s p hs

theorem spent_insert (h : a.Sound) {k : Key} (hk : a.Spent k ∨ k = a.nextKey) :
    (a.insert make).2.Spent k := by
  rcases hk with ⟨p, hp, hspent⟩ | rfl
  · by_cases hs : k.slot = a.nextKey.slot
    · cases hv : a.vacant with
      | nil =>
          have : a.nextKey.slot = a.places.size := by simp [nextKey, hv]
          rw [hs, this] at hp
          simp at hp
      | cons slot vacant =>
          obtain ⟨q, hq, hnone⟩ := h.vacant slot (by simp [hv])
          have hn := nextKey_of_vacant hv hq
          rw [hs, hn] at hp
          obtain rfl : q = p := by simpa [hq] using hp
          refine ⟨_, by rw [places_insert make h, if_pos hs], ?_⟩
          rcases hspent with hlt | ⟨_, hsome⟩
          · exact Or.inl (by rw [hn]; exact hlt)
          · simp [hnone] at hsome
    · exact ⟨p, by rw [places_insert make h, if_neg hs]; exact hp, hspent⟩
  · exact ⟨_, by rw [places_insert make h, if_pos rfl], Or.inr ⟨rfl, rfl⟩⟩

end Insert

section Modify

variable (k : Key) (f : α → α)

theorem places_modify (slot : Nat) :
    (a.modify k f).places[slot]? = (a.places[slot]?).map fun p =>
      if k.slot = slot ∧ p.generation = k.generation then { p with content := p.content.map f }
      else p := by
  simp only [modify, Array.getElem?_modify]
  by_cases hs : k.slot = slot
  · simp [hs]
  · simp [hs]

theorem get?_modify (k' : Key) :
    (a.modify k f).get? k' = if k' = k then (a.get? k).map f else a.get? k' := by
  have hp := places_modify (a := a) k f k'.slot
  unfold get?
  rw [hp]
  by_cases hk : k' = k
  · subst hk
    cases a.places[k'.slot]? with
    | none => simp
    | some p => by_cases hg : p.generation = k'.generation <;> simp [hg]
  · rw [if_neg hk]
    cases a.places[k'.slot]? with
    | none => rfl
    | some p =>
        by_cases hc : k.slot = k'.slot ∧ p.generation = k.generation
        · have hg : p.generation ≠ k'.generation := by
            intro hg
            exact hk (by cases k; cases k'; simp_all)
          simp [hc, hc.2 ▸ hg]
        · simp [hc]

theorem sound_modify (h : a.Sound) : (a.modify k f).Sound where
  nodup := h.nodup
  vacant := by
    intro s hs
    obtain ⟨p, hp, hnone⟩ := h.vacant s hs
    rw [places_modify, hp]
    refine ⟨_, rfl, ?_⟩
    dsimp only
    split_ifs
    · simp [hnone]
    · exact hnone
  positive := by
    intro s p hs
    rw [places_modify] at hs
    obtain ⟨q, hq, rfl⟩ := Option.map_eq_some_iff.1 hs
    have := h.positive s q hq
    split_ifs <;> exact this

theorem spent_modify {k' : Key} (hk : a.Spent k') : (a.modify k f).Spent k' := by
  obtain ⟨p, hp, hspent⟩ := hk
  rw [Spent, places_modify, hp]
  refine ⟨_, rfl, ?_⟩
  dsimp only
  split_ifs
  · simpa using hspent
  · exact hspent

end Modify

section Remove

variable {k : Key} {x : α} {b : Arena α}

theorem remove_eq_some_iff :
    a.remove k = some (x, b) ↔ a.get? k = some x ∧
      b = ⟨a.places.setIfInBounds k.slot ⟨k.generation + 1, none⟩, k.slot :: a.vacant⟩ := by
  unfold remove
  cases a.get? k with
  | none => simp
  | some y => simp [eq_comm]

theorem places_remove (h : a.remove k = some (x, b)) (slot : Nat) :
    b.places[slot]? =
      if slot = k.slot then some ⟨k.generation + 1, none⟩ else a.places[slot]? := by
  obtain ⟨hx, rfl⟩ := remove_eq_some_iff.1 h
  have hs : k.slot < a.places.size :=
    (Array.getElem?_eq_some_iff.1 (get?_eq_some_iff.1 hx)).1
  simp only [Array.getElem?_setIfInBounds]
  by_cases he : slot = k.slot
  · subst he; simp [hs]
  · simp [he, Ne.symm he]

theorem get?_remove (h : a.remove k = some (x, b)) (k' : Key) :
    b.get? k' = if k' = k then none else a.get? k' := by
  have hx := get?_eq_some_iff.1 (remove_eq_some_iff.1 h).1
  have hp := places_remove h k'.slot
  by_cases hs : k'.slot = k.slot
  · rw [if_pos hs] at hp
    have hb : b.get? k' = none := by
      unfold get?
      rw [hp]
      simp
    rw [hb]
    by_cases hk : k' = k
    · simp [hk]
    · have hg : k.generation ≠ k'.generation := by
        intro hg
        exact hk (by cases k; cases k'; simp_all)
      rw [if_neg hk, get?, hs, hx]
      simp [hg]
  · have hk : k' ≠ k := fun he => hs (by rw [he])
    rw [if_neg hs] at hp
    rw [if_neg hk, get?, get?, hp]

theorem sound_remove (ha : a.Sound) (h : a.remove k = some (x, b)) : b.Sound := by
  have hx := get?_eq_some_iff.1 (remove_eq_some_iff.1 h).1
  have hv : b.vacant = k.slot :: a.vacant := by rw [(remove_eq_some_iff.1 h).2]
  have hfull : k.slot ∉ a.vacant := by
    intro hm
    obtain ⟨p, hp, hnone⟩ := ha.vacant _ hm
    rw [hx] at hp
    obtain rfl := Option.some.inj hp
    simp at hnone
  refine ⟨?_, ?_, ?_⟩
  · rw [hv]
    exact List.nodup_cons.2 ⟨hfull, ha.nodup⟩
  · intro s hs
    rw [places_remove h]
    by_cases he : s = k.slot
    · rw [if_pos he]
      exact ⟨_, rfl, rfl⟩
    · rw [if_neg he]
      rw [hv] at hs
      exact ha.vacant s (by simpa [he] using hs)
  · intro s p hs
    rw [places_remove h] at hs
    split_ifs at hs
    · obtain rfl := Option.some.inj hs
      exact Nat.succ_pos _
    · exact ha.positive s p hs

theorem spent_remove (h : a.remove k = some (x, b)) {k' : Key} (hk : a.Spent k') :
    b.Spent k' := by
  have hx := get?_eq_some_iff.1 (remove_eq_some_iff.1 h).1
  obtain ⟨p, hp, hspent⟩ := hk
  rw [Spent, places_remove h]
  by_cases hs : k'.slot = k.slot
  · rw [hs, hx] at hp
    obtain rfl := Option.some.inj hp
    refine ⟨_, if_pos hs, Or.inl ?_⟩
    rcases hspent with hlt | ⟨he, _⟩
    · exact Nat.lt_succ_of_lt hlt
    · exact he ▸ Nat.lt_succ_self _
  · exact ⟨p, by rw [if_neg hs]; exact hp, hspent⟩

end Remove

end Dataflow.Arena
