import Dataflow.Proofs.Ends

/-!
# Computations that fail

A failing computation tells its fault and the state that it has got to. A sequence fails where its
first failing step does, after the steps before it have succeeded.
-/

namespace Dataflow

variable {σ α β : Type}

/-- Started in state `s`, a computation fails in state `s'`. -/
def Fails (m : ExceptT Fault (StateM σ) α) (s : σ) (f : Fault) (s' : σ) : Prop :=
  m.run.run s = (.error f, s')

variable {s s' : σ} {f : Fault}

theorem run_tryCatch (m : ExceptT Fault (StateM σ) α) (k : Fault → ExceptT Fault (StateM σ) α)
    (s : σ) : (tryCatchThe Fault m k).run.run s =
      match m.run.run s with
      | (.ok a, t) => (.ok a, t)
      | (.error f, t) => (k f).run.run t := by
  unfold tryCatchThe
  simp only [MonadExceptOf.tryCatch, ExceptT.tryCatch, ExceptT.run, ExceptT.mk]
  rw [StateT.run_bind]
  rcases StateT.run m s with ⟨r, t⟩
  cases r <;> rfl

/-- A computation succeeds or fails. -/
theorem succeeds_or_fails (m : ExceptT Fault (StateM σ) α) (s : σ) :
    (∃ a, Succeeds m s a (m.run.run s).2) ∨ ∃ f, Fails m s f (m.run.run s).2 := by
  unfold Succeeds Fails
  rcases m.run.run s with ⟨r, s'⟩
  cases r with
  | ok a => exact .inl ⟨a, rfl⟩
  | error f => exact .inr ⟨f, rfl⟩

theorem Succeeds.not_fails {m : ExceptT Fault (StateM σ) α} {a : α} {t : σ}
    (h : Succeeds m s a t) : ¬ Fails m s f s' := by
  intro h'
  cases (Prod.mk.inj (h.symm.trans h')).1

theorem Ends.not_fails {m : ExceptT Fault (StateM σ) α} {Q : α → σ → Prop} (h : Ends m s Q) :
    ¬ Fails m s f s' := by
  obtain ⟨_, _, h, -⟩ := h
  exact h.not_fails

@[simp] theorem fails_pure {a : α} : ¬ Fails (pure a) s f s' := fun h => by cases h

@[simp] theorem fails_throw {f' : Fault} :
    Fails (throw f' : ExceptT Fault (StateM σ) α) s f s' ↔ f' = f ∧ s = s' := by
  change (Except.error f', s) = (Except.error f, s') ↔ _
  simp

@[simp] theorem fails_bind {m : ExceptT Fault (StateM σ) β}
    {k : β → ExceptT Fault (StateM σ) α} : Fails (m >>= k) s f s' ↔
      Fails m s f s' ∨ ∃ b t, Succeeds m s b t ∧ Fails (k b) t f s' := by
  unfold Fails Succeeds
  rw [run_bind]
  rcases m.run.run s with ⟨r, t⟩
  cases r with
  | ok b =>
      constructor
      · exact fun h => .inr ⟨b, t, rfl, h⟩
      · rintro (h | ⟨b', t', hb, h⟩)
        · cases h
        · cases hb
          exact h
  | error e =>
      constructor
      · intro h
        cases h
        exact .inl rfl
      · rintro (h | ⟨b', t', hb, -⟩)
        · cases h
          rfl
        · cases hb

@[simp] theorem fails_map {m : ExceptT Fault (StateM σ) β} {g : β → α} :
    Fails (g <$> m) s f s' ↔ Fails m s f s' := by
  rw [map_eq_pure_bind, fails_bind]
  simp

/-- A computation that refuses some cases fails there or where it goes on. -/
@[simp] theorem fails_refuse {c : Prop} [Decidable c] {f' : Fault}
    {k : β → ExceptT Fault (StateM σ) α} {m : ExceptT Fault (StateM σ) α} :
    Fails (if c then throw f' >>= k else m) s f s' ↔
      (c ∧ f' = f ∧ s = s') ∨ (¬ c ∧ Fails m s f s') := by
  by_cases hc : c <;> simp [hc]

@[simp] theorem fails_get : ¬ Fails (get : ExceptT Fault (StateM σ) σ) s f s' :=
  fun h => by cases h

@[simp] theorem fails_set {t : σ} : ¬ Fails (set t : ExceptT Fault (StateM σ) PUnit) s f s' :=
  fun h => by cases h

@[simp] theorem fails_modify {g : σ → σ} :
    ¬ Fails (modify g : ExceptT Fault (StateM σ) PUnit) s f s' :=
  fun h => by cases h

section Loops

variable {I : σ → Prop}

/-- What every step of a loop keeps, the loop does. -/
theorem holds_of_forM {g : β → ExceptT Fault (StateM σ) PUnit} {xs : List β} {u : PUnit} (hs : I s)
    (hg : ∀ x ∈ xs, ∀ s u s', I s → Succeeds (g x) s u s' → I s') (h : Succeeds (xs.forM g) s u s') :
    I s' := by
  induction xs generalizing s with
  | nil =>
      obtain ⟨-, rfl⟩ := succeeds_pure.1 h
      exact hs
  | cons x xs ih =>
      obtain ⟨v, t, hx, h⟩ := succeeds_bind.1 h
      exact ih (hg x (by simp) s v t hs hx) (fun y hy => hg y (List.mem_cons_of_mem x hy)) h

/-- Where steps that succeed keep what is known of the state, a loop fails in one of its steps. -/
theorem exists_of_fails_forM {g : β → ExceptT Fault (StateM σ) PUnit} {xs : List β} (hs : I s)
    (hg : ∀ x ∈ xs, ∀ s u s', I s → Succeeds (g x) s u s' → I s') (h : Fails (xs.forM g) s f s') :
    ∃ x ∈ xs, ∃ t, I t ∧ Fails (g x) t f s' := by
  induction xs generalizing s with
  | nil => exact absurd h fails_pure
  | cons x xs ih =>
      rcases fails_bind.1 h with h | ⟨u, t, hx, h⟩
      · exact ⟨x, by simp, s, hs, h⟩
      · obtain ⟨y, hy, t', ht', h⟩ := ih (hg x (by simp) s u t hs hx)
          (fun y hy => hg y (List.mem_cons_of_mem x hy)) h
        exact ⟨y, List.mem_cons_of_mem x hy, t', ht', h⟩

theorem exists_of_fails_forIn {g : β → PUnit → ExceptT Fault (StateM σ) (ForInStep PUnit)}
    {xs : List β} (hs : I s)
    (hg : ∀ x ∈ xs, ∀ s r s', I s → Succeeds (g x ⟨⟩) s r s' → r = .yield ⟨⟩ ∧ I s')
    (h : Fails (forIn xs PUnit.unit g) s f s') : ∃ x ∈ xs, ∃ t, I t ∧ Fails (g x ⟨⟩) t f s' := by
  induction xs generalizing s with
  | nil => exact absurd h fails_pure
  | cons x xs ih =>
      rw [List.forIn_cons] at h
      rcases fails_bind.1 h with h | ⟨r, t, hx, h⟩
      · exact ⟨x, by simp, s, hs, h⟩
      · obtain ⟨rfl, ht⟩ := hg x (by simp) s r t hs hx
        obtain ⟨y, hy, t', ht', h⟩ := ih ht (fun y hy => hg y (List.mem_cons_of_mem x hy)) h
        exact ⟨y, List.mem_cons_of_mem x hy, t', ht', h⟩

end Loops

/-- A computation that is known to succeed goes on from there. -/
theorem run_of_succeeds {m : ExceptT Fault (StateM σ) β} {k : β → ExceptT Fault (StateM σ) α} {b : β}
    (h : Succeeds m s b s') : (m >>= k).run.run s = (k b).run.run s' := by
  rw [run_bind, show m.run.run s = _ from h]

/-- What becomes of the result does not matter to the state. -/
theorem snd_run_map (m : ExceptT Fault (StateM σ) α) (g : α → β) (s : σ) :
    ((g <$> m).run.run s).2 = (m.run.run s).2 := by
  rw [map_eq_pure_bind, run_bind]
  rcases m.run.run s with ⟨r, t⟩
  cases r <;> rfl

section Leftovers

variable {R : σ → σ → Prop}

/-- Where the parts of a computation leave related states, so does the whole, wherever it fails. -/
theorem leaves_bind (htrans : ∀ s s' s'', R s s' → R s' s'' → R s s'')
    {m : ExceptT Fault (StateM σ) β} {k : β → ExceptT Fault (StateM σ) α}
    (hm : R s (m.run.run s).2)
    (hk : ∀ b t, Succeeds m s b t → R s t → R t ((k b).run.run t).2) :
    R s ((m >>= k).run.run s).2 := by
  rw [run_bind]
  rcases hrun : m.run.run s with ⟨r, t⟩
  rw [hrun] at hm
  cases r with
  | ok b => exact htrans _ _ _ hm (hk b t hrun hm)
  | error f => exact hm

theorem leaves_forM (hrefl : ∀ s, R s s) (htrans : ∀ s s' s'', R s s' → R s' s'' → R s s'')
    {g : β → ExceptT Fault (StateM σ) PUnit} {xs : List β}
    (hg : ∀ x ∈ xs, ∀ t, R s t → R t ((g x).run.run t).2) : R s ((xs.forM g).run.run s).2 := by
  induction xs generalizing s with
  | nil => exact hrefl s
  | cons x xs ih =>
      refine leaves_bind htrans (hg x (by simp) s (hrefl s)) fun _ t _ ht => ih fun y hy t' ht' => ?_
      exact hg y (List.mem_cons_of_mem x hy) t' (htrans _ _ _ ht ht')

theorem leaves_forIn (hrefl : ∀ s, R s s) (htrans : ∀ s s' s'', R s s' → R s' s'' → R s s'')
    {g : β → PUnit → ExceptT Fault (StateM σ) (ForInStep PUnit)} {xs : List β}
    (hg : ∀ x ∈ xs, ∀ t, R s t → R t ((g x ⟨⟩).run.run t).2) :
    R s ((forIn xs PUnit.unit g).run.run s).2 := by
  induction xs generalizing s with
  | nil => exact hrefl s
  | cons x xs ih =>
      rw [List.forIn_cons]
      refine leaves_bind htrans (hg x (by simp) s (hrefl s)) fun r t _ ht => ?_
      cases r with
      | done u => exact hrefl t
      | yield u =>
          exact ih fun y hy t' ht' => hg y (List.mem_cons_of_mem x hy) t' (htrans _ _ _ ht ht')

/-- Whatever comes of a computation, it leaves a state that is related to the one it has found. -/
def Leaves (R : σ → σ → Prop) (m : ExceptT Fault (StateM σ) α) : Prop := ∀ s, R s (m.run.run s).2

namespace Leaves

variable {m : ExceptT Fault (StateM σ) α} {m' : ExceptT Fault (StateM σ) β}

theorem of_runs (hs : ∀ s a s', Succeeds m s a s' → R s s') (hf : ∀ s f s', Fails m s f s' → R s s') :
    Leaves R m := by
  intro s
  rcases succeeds_or_fails m s with ⟨a, h⟩ | ⟨f, h⟩
  · exact hs s a _ h
  · exact hf s f _ h

theorem of_succeeds {a : α} (h : Leaves R m) (hm : Succeeds m s a s') : R s s' := by
  have hs := h s
  rwa [show m.run.run s = (.ok a, s') from hm] at hs

theorem of_fails (h : Leaves R m) (hm : Fails m s f s') : R s s' := by
  have hs := h s
  rwa [show m.run.run s = (.error f, s') from hm] at hs

theorem mono {R' : σ → σ → Prop} (hR : ∀ s s', R s s' → R' s s') (h : Leaves R m) : Leaves R' m :=
  fun s => hR _ _ (h s)

theorem ite {c : Prop} [Decidable c] {k : ExceptT Fault (StateM σ) α} (hm : Leaves R m)
    (hk : Leaves R k) : Leaves R (if c then m else k) := by
  split
  · exact hm
  · exact hk

/-- A computation that goes on from the state that it finds. -/
theorem after_get {k : σ → ExceptT Fault (StateM σ) α} (h : ∀ s, R s ((k s).run.run s).2) :
    Leaves R (MonadState.get >>= k) := h

theorem after_modify {g : σ → σ} {k : PUnit → ExceptT Fault (StateM σ) α}
    (h : ∀ s, R s ((k ⟨⟩).run.run (g s)).2) : Leaves R (modify g >>= k) := h

theorem bind [IsTrans σ R] {k : β → ExceptT Fault (StateM σ) α} (hm : Leaves R m')
    (hk : ∀ b, Leaves R (k b)) : Leaves R (m' >>= k) :=
  fun s => leaves_bind (fun _ _ _ => IsTrans.trans _ _ _) (hm s) fun b t _ _ => hk b t

variable [Std.Refl R]

theorem pure (a : α) : Leaves R (Pure.pure a) := fun s => Std.Refl.refl s

theorem throw (f : Fault) : Leaves R (MonadExcept.throw f : ExceptT Fault (StateM σ) α) :=
  fun s => Std.Refl.refl s

theorem get : Leaves R (MonadState.get : ExceptT Fault (StateM σ) σ) := fun s => Std.Refl.refl s

/-- Some cases are refused. -/
theorem refuse {c : Prop} [Decidable c] {f : Fault} {k : β → ExceptT Fault (StateM σ) α}
    (hm : Leaves R m) : Leaves R (if c then MonadExcept.throw f >>= k else m) :=
  ite (fun s => Std.Refl.refl s) hm

theorem map [IsTrans σ R] {g : β → α} (hm : Leaves R m') : Leaves R (g <$> m') := by
  rw [map_eq_pure_bind]
  exact hm.bind fun _ => pure _

theorem forM [IsTrans σ R] {xs : List β} {f : β → ExceptT Fault (StateM σ) Unit}
    (hf : ∀ x, Leaves R (f x)) : Leaves R (xs.forM f) := by
  induction xs with
  | nil => exact pure _
  | cons x xs ih => exact (hf x).bind fun _ => ih

end Leaves

end Leftovers

end Dataflow
