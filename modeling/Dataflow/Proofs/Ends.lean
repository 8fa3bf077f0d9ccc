import Dataflow.Proofs.Outcome

/-!
# Computations that end with a result

Where `Succeeds` says what has become of a computation that did not fail, `Ends` says that it does
not fail: started in a state, it has a result and a last state of which a property holds.
-/

namespace Dataflow

variable {σ α β : Type}

def Ends (m : ExceptT Fault (StateM σ) α) (s : σ) (Q : α → σ → Prop) : Prop :=
  ∃ a s', Succeeds m s a s' ∧ Q a s'

namespace Ends

variable {s : σ} {Q R : α → σ → Prop} {P : β → σ → Prop}

theorem imp {m : ExceptT Fault (StateM σ) α} (h : Ends m s Q) (hQ : ∀ a s', Q a s' → R a s') :
    Ends m s R := by
  obtain ⟨a, s', hm, ha⟩ := h
  exact ⟨a, s', hm, hQ a s' ha⟩

/-- What is known of a computation that succeeds is known of one that ends. -/
theorem of_succeeds {m : ExceptT Fault (StateM σ) α} (h : Ends m s Q)
    (hR : ∀ a s', Succeeds m s a s' → Q a s' → R a s') : Ends m s R := by
  obtain ⟨a, s', hm, ha⟩ := h
  exact ⟨a, s', hm, hR a s' hm ha⟩

/-- A computation has one outcome. -/
theorem holds {m : ExceptT Fault (StateM σ) α} {a : α} {s' : σ} (h : Ends m s Q)
    (hm : Succeeds m s a s') : Q a s' := by
  obtain ⟨b, t, hb, hQ⟩ := h
  obtain ⟨hr, rfl⟩ := Prod.mk.inj (hb.symm.trans hm)
  obtain rfl := Except.ok.inj hr
  exact hQ

theorem pure {a : α} (h : Q a s) : Ends (Pure.pure a) s Q := ⟨a, s, succeeds_pure.2 ⟨rfl, rfl⟩, h⟩

theorem bind {m : ExceptT Fault (StateM σ) β} {f : β → ExceptT Fault (StateM σ) α}
    (hm : Ends m s P) (hf : ∀ b s', P b s' → Ends (f b) s' Q) : Ends (m >>= f) s Q := by
  obtain ⟨b, s', hb, hP⟩ := hm
  obtain ⟨a, s'', ha, hQ⟩ := hf b s' hP
  exact ⟨a, s'', succeeds_bind.2 ⟨b, s', hb, ha⟩, hQ⟩

/-- A computation that is known to succeed goes on with its result. -/
theorem after {m : ExceptT Fault (StateM σ) β} {f : β → ExceptT Fault (StateM σ) α} {b : β} {s' : σ}
    (hm : Succeeds m s b s') (hf : Ends (f b) s' Q) : Ends (m >>= f) s Q := by
  obtain ⟨a, s'', ha, hQ⟩ := hf
  exact ⟨a, s'', succeeds_bind.2 ⟨b, s', hm, ha⟩, hQ⟩

theorem after_get {f : σ → ExceptT Fault (StateM σ) α} (h : Ends (f s) s Q) :
    Ends (get >>= f) s Q :=
  .after (succeeds_get.2 ⟨rfl, rfl⟩) h

theorem after_set {t : σ} {f : PUnit → ExceptT Fault (StateM σ) α} (h : Ends (f ⟨⟩) t Q) :
    Ends (set t >>= f) s Q :=
  .after (b := ⟨⟩) (succeeds_set.2 rfl) h

theorem after_modify {g : σ → σ} {f : PUnit → ExceptT Fault (StateM σ) α}
    (h : Ends (f ⟨⟩) (g s) Q) : Ends (modify g >>= f) s Q :=
  .after (b := ⟨⟩) (succeeds_modify.2 rfl) h

/-- A computation that does not refuse goes on. -/
theorem refuse {c : Prop} [Decidable c] {f : Fault} {k : β → ExceptT Fault (StateM σ) α}
    {m : ExceptT Fault (StateM σ) α} (hc : ¬ c) (h : Ends m s Q) :
    Ends (if c then throw f >>= k else m) s Q := by
  rwa [if_neg hc]

/-- What every step keeps is kept by all of them. -/
theorem forM {I : σ → Prop} {f : β → ExceptT Fault (StateM σ) PUnit} {xs : List β} (hs : I s)
    (hf : ∀ x ∈ xs, ∀ s, I s → Ends (f x) s fun _ => I) : Ends (xs.forM f) s fun _ => I := by
  induction xs generalizing s with
  | nil => exact pure hs
  | cons x xs ih =>
      exact (hf x (by simp) s hs).bind fun _ s' hs' =>
        ih hs' fun y hy => hf y (List.mem_cons_of_mem x hy)

/-- A loop whose steps all end and never break off ends. -/
theorem forIn {I : σ → Prop} {f : β → PUnit → ExceptT Fault (StateM σ) (ForInStep PUnit)}
    {xs : List β} (hs : I s) (hf : ∀ x ∈ xs, ∀ s, I s →
      Ends (f x ⟨⟩) s fun r s' => r = .yield ⟨⟩ ∧ I s') :
    Ends (ForIn.forIn xs PUnit.unit f) s fun _ => I := by
  induction xs generalizing s with
  | nil => exact pure hs
  | cons x xs ih =>
      rw [List.forIn_cons]
      refine (hf x (by simp) s hs).bind fun r s' hr => ?_
      obtain ⟨rfl, hs'⟩ := hr
      exact ih hs' fun y hy => hf y (List.mem_cons_of_mem x hy)

end Ends

end Dataflow
