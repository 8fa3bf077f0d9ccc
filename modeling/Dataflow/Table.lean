/-!
# Tables

A finite map kept as a list of pairs, newest binding first. The order of the pairs is never
observed: two tables are used alike when `find?` answers alike.
-/

namespace Dataflow

structure Table (κ : Type) (α : Type) where
  pairs : List (κ × α) := []

namespace Table

variable {κ α : Type} [DecidableEq κ]

def empty : Table κ α := {}

instance : EmptyCollection (Table κ α) := ⟨empty⟩

instance : Inhabited (Table κ α) := ⟨empty⟩

def find? (t : Table κ α) (k : κ) : Option α := t.pairs.lookup k

def contains (t : Table κ α) (k : κ) : Bool := (t.find? k).isSome

def erase (t : Table κ α) (k : κ) : Table κ α := ⟨t.pairs.filter (·.1 ≠ k)⟩

def insert (t : Table κ α) (k : κ) (a : α) : Table κ α := ⟨(k, a) :: (t.erase k).pairs⟩

@[simp] theorem find?_empty (k : κ) : (∅ : Table κ α).find? k = none := rfl

theorem find?_erase (t : Table κ α) (k k' : κ) :
    (t.erase k).find? k' = if k' = k then none else t.find? k' := by
  obtain ⟨ps⟩ := t
  simp only [erase, find?]
  induction ps with
  | nil => simp
  | cons p ps ih =>
      obtain ⟨a, b⟩ := p
      by_cases h : a = k
      · subst h
        by_cases h' : k' = a
        · subst h'; simpa using ih
        · have : (k' == a) = false := by simpa using h'
          simp only [ne_eq, not_true_eq_false, decide_false, Bool.false_eq_true,
            not_false_eq_true, List.filter_cons_of_neg, List.lookup_cons, this]
          simpa [h'] using ih
      · simp only [ne_eq, h, not_false_eq_true, decide_true, List.filter_cons_of_pos,
          List.lookup_cons]
        by_cases h' : k' = a
        · subst h'; simp [h]
        · have : (k' == a) = false := by simpa using h'
          simp only [this]
          exact ih

theorem find?_insert (t : Table κ α) (k k' : κ) (a : α) :
    (t.insert k a).find? k' = if k' = k then some a else t.find? k' := by
  have := t.find?_erase k k'
  by_cases h : k' = k
  · subst h; simp [insert, find?]
  · have hb : (k' == k) = false := by simpa using h
    simp only [insert, find?, List.lookup_cons, hb, h, if_false]
    simpa [find?, h] using this

/-- No two keys lead to the same entry, also after a new one has been put in. -/
theorem injective_insert {t : Table κ α} {k : κ} {a : α} (hnew : ∀ i, t.find? i ≠ some a)
    (ht : ∀ i j b, t.find? i = some b → t.find? j = some b → i = j) (i j : κ) (b : α)
    (hi : (t.insert k a).find? i = some b) (hj : (t.insert k a).find? j = some b) : i = j := by
  rw [find?_insert] at hi hj
  split at hi <;> split at hj
  case isTrue.isTrue h₁ h₂ => rw [h₁, h₂]
  case isTrue.isFalse => exact absurd (hj.trans hi.symm) (hnew j)
  case isFalse.isTrue => exact absurd (hi.trans hj.symm) (hnew i)
  case isFalse.isFalse => exact ht i j b hi hj

end Table

end Dataflow
