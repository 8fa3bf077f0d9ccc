import Dataflow.Fault
import Mathlib

/-!
# Outcomes of computations that can fail

When a sequence of steps succeeds, every step did; when it fails, one of them failed with the same
fault. The same is said of computations over a state: `Succeeds m s a s'` means that `m`, started
in state `s`, ends with the result `a` in state `s'`.
-/

namespace Dataflow

section Except

variable {ε α β γ : Type}

theorem bind_eq_ok_iff {x : Except ε α} {f : α → Except ε β} {b : β} :
    x >>= f = .ok b ↔ ∃ a, x = .ok a ∧ f a = .ok b := by
  cases x with
  | error e => simp [bind, Except.bind]
  | ok a => simp [bind, Except.bind]

theorem map_eq_ok_iff {x : Except ε α} {f : α → β} {b : β} :
    f <$> x = .ok b ↔ ∃ a, x = .ok a ∧ f a = b := by
  cases x with
  | error e => simp [Functor.map, Except.map]
  | ok a => simp [Functor.map, Except.map]

theorem toOption_eq_some_iff {x : Except ε α} {a : α} : x.toOption = some a ↔ x = .ok a := by
  cases x with
  | error e => simp [Except.toOption]
  | ok b => simp [Except.toOption]

theorem mapM_eq_ok_iff {f : α → Except ε β} {xs : List α} {ys : List β} :
    xs.mapM f = .ok ys ↔ List.Forall₂ (fun x y => f x = .ok y) xs ys := by
  induction xs generalizing ys with
  | nil =>
      rw [List.mapM_nil, List.forall₂_nil_left_iff]
      exact ⟨fun h => (Except.ok.inj h).symm, fun h => by rw [h]; rfl⟩
  | cons x xs ih =>
      rw [List.mapM_cons, bind_eq_ok_iff]
      constructor
      · rintro ⟨y, hy, h⟩
        obtain ⟨ys', hys, h⟩ := bind_eq_ok_iff.1 h
        obtain rfl : y :: ys' = ys := Except.ok.inj h
        exact .cons hy (ih.1 hys)
      · intro h
        obtain ⟨y, ys', hy, hys, rfl⟩ := List.forall₂_cons_left_iff.1 h
        exact ⟨y, hy, bind_eq_ok_iff.2 ⟨ys', ih.2 hys, rfl⟩⟩

theorem exists_of_mem_mapM {f : α → Except ε β} {xs : List α} {ys : List β}
    (h : xs.mapM f = .ok ys) {y : β} (hy : y ∈ ys) : ∃ x ∈ xs, f x = .ok y := by
  have hall := mapM_eq_ok_iff.1 h
  obtain ⟨i, hi, rfl⟩ := List.getElem_of_mem hy
  have hi' : i < xs.length := hall.length_eq ▸ hi
  exact ⟨xs[i], List.getElem_mem hi', hall.get hi' hi⟩

theorem exists_mapM_eq_ok {f : α → Except ε β} {P : α → β → Prop} {xs : List α}
    (h : ∀ x ∈ xs, ∃ y, f x = .ok y ∧ P x y) : ∃ ys, xs.mapM f = .ok ys ∧ List.Forall₂ P xs ys := by
  induction xs with
  | nil => exact ⟨[], rfl, .nil⟩
  | cons x xs ih =>
      obtain ⟨y, hy, hp⟩ := h x (by simp)
      obtain ⟨ys, hys, hall⟩ := ih fun a ha => h a (by simp [ha])
      exact ⟨y :: ys, mapM_eq_ok_iff.2 (.cons hy (mapM_eq_ok_iff.1 hys)), .cons hp hall⟩

theorem mapM_congr {f g : α → Except ε β} {xs : List α} (h : ∀ x ∈ xs, f x = g x) :
    xs.mapM f = xs.mapM g := by
  induction xs with
  | nil => rfl
  | cons x xs ih =>
      rw [List.mapM_cons, List.mapM_cons, h x (by simp), ih fun y hy => h y (by simp [hy])]

theorem bind_eq_error_iff {x : Except ε α} {f : α → Except ε β} {e : ε} :
    x >>= f = .error e ↔ x = .error e ∨ ∃ a, x = .ok a ∧ f a = .error e := by
  cases x with
  | error e' => simp [bind, Except.bind]
  | ok a => simp [bind, Except.bind]

theorem exists_of_mapM_eq_error {f : α → Except ε β} {xs : List α} {e : ε}
    (h : xs.mapM f = .error e) : ∃ x ∈ xs, f x = .error e := by
  induction xs with
  | nil => cases h
  | cons x xs ih =>
      rw [List.mapM_cons] at h
      rcases bind_eq_error_iff.1 h with hx | ⟨y, _, h⟩
      · exact ⟨x, by simp, hx⟩
      · rcases bind_eq_error_iff.1 h with hxs | ⟨ys, _, h⟩
        · obtain ⟨z, hz, hfz⟩ := ih hxs
          exact ⟨z, List.mem_cons_of_mem _ hz, hfz⟩
        · cases h

/-- Steps that succeed where `P` holds of the result and fail with the one fault `e` elsewhere. -/
theorem mapM_of_forall₂ {f : α → Except ε β} {e : ε} {P : β → Prop} {xs : List α} {ys : List β}
    (h : List.Forall₂ (fun x y => (P y → f x = .ok y) ∧ (¬ P y → f x = .error e)) xs ys) :
    ((∀ y ∈ ys, P y) → xs.mapM f = .ok ys) ∧ ((∃ y ∈ ys, ¬ P y) → xs.mapM f = .error e) := by
  induction h with
  | nil => exact ⟨fun _ => rfl, fun ⟨_, hy, _⟩ => by cases hy⟩
  | @cons x y xs ys hxy _ ih =>
      rw [List.mapM_cons, List.forall_mem_cons, List.exists_mem_cons_iff]
      by_cases hy : P y
      · rw [hxy.1 hy]
        refine ⟨fun hall => ?_, fun hsome => ?_⟩
        · rw [ih.1 hall.2]
          rfl
        · rw [ih.2 (hsome.resolve_left (not_not_intro hy))]
          rfl
      · rw [hxy.2 hy]
        exact ⟨fun hall => absurd hall.1 hy, fun _ => rfl⟩

theorem forM_eq_ok_iff {f : α → Except ε Unit} {xs : List α} :
    xs.forM f = .ok () ↔ ∀ x ∈ xs, f x = .ok () := by
  induction xs with
  | nil => exact ⟨fun _ x hx => (by cases hx), fun _ => rfl⟩
  | cons x xs ih =>
      change (f x >>= fun _ => xs.forM f) = .ok () ↔ _
      rw [bind_eq_ok_iff]
      constructor
      · rintro ⟨_, hx, h⟩ y hy
        rcases List.mem_cons.1 hy with rfl | hy
        · exact hx
        · exact ih.1 h y hy
      · intro h
        exact ⟨(), h x (by simp), ih.2 fun y hy => h y (by simp [hy])⟩

theorem exists_of_forM_eq_error {f : α → Except ε Unit} {xs : List α} {e : ε}
    (h : xs.forM f = .error e) : ∃ x ∈ xs, f x = .error e := by
  induction xs with
  | nil => cases h
  | cons x xs ih =>
      rcases bind_eq_error_iff.1 (h : (f x >>= fun _ => xs.forM f) = .error e) with hx | ⟨_, _, h⟩
      · exact ⟨x, by simp, hx⟩
      · obtain ⟨z, hz, hfz⟩ := ih h
        exact ⟨z, List.mem_cons_of_mem _ hz, hfz⟩

theorem exists_of_foldlM_eq_error {f : β → α → Except ε β} {xs : List α} {b : β} {e : ε}
    (h : xs.foldlM f b = .error e) : ∃ x ∈ xs, ∃ b', f b' x = .error e := by
  induction xs generalizing b with
  | nil => cases h
  | cons x xs ih =>
      rw [List.foldlM_cons] at h
      rcases bind_eq_error_iff.1 h with hx | ⟨b', _, h⟩
      · exact ⟨x, by simp, b, hx⟩
      · obtain ⟨z, hz, b'', hfz⟩ := ih h
        exact ⟨z, List.mem_cons_of_mem _ hz, b'', hfz⟩

/-- A fold that succeeds meets each element in a state that belongs to its place. -/
theorem states_of_foldlM {f : β → α → Except ε β} {I : Nat → β → Prop} {xs : List α} {b b' : β}
    (h : xs.foldlM f b = .ok b') (h₀ : I 0 b)
    (hstep : ∀ n x y z, xs[n]? = some x → f y x = .ok z → I n y → I (n + 1) z) :
    I xs.length b' ∧ ∀ n x, xs[n]? = some x → ∃ y z, I n y ∧ f y x = .ok z := by
  induction xs generalizing b I with
  | nil =>
      obtain rfl := Except.ok.inj h
      exact ⟨h₀, fun n x hx => by cases hx⟩
  | cons a xs ih =>
      rw [List.foldlM_cons] at h
      obtain ⟨c, hc, h⟩ := bind_eq_ok_iff.1 h
      obtain ⟨hlast, hall⟩ := ih (I := fun n => I (n + 1)) h (hstep 0 a b c rfl hc h₀)
        fun n => hstep (n + 1)
      refine ⟨hlast, fun n x hx => ?_⟩
      cases n with
      | zero =>
          obtain rfl := Option.some.inj hx
          exact ⟨b, c, h₀, hc⟩
      | succ n => exact hall n x hx

end Except

section Stateful

variable {σ α β : Type}

/-- Started in state `s`, a computation ends with a result in state `s'`. -/
def Succeeds (m : ExceptT Fault (StateM σ) α) (s : σ) (a : α) (s' : σ) : Prop :=
  m.run.run s = (.ok a, s')

variable {s s' : σ} {a : α}

@[simp] theorem succeeds_pure {b : α} :
    Succeeds (pure b) s a s' ↔ b = a ∧ s = s' := by
  change (Except.ok b, s) = (Except.ok a, s') ↔ _
  simp

@[simp] theorem succeeds_throw {f : Fault} :
    ¬ Succeeds (throw f : ExceptT Fault (StateM σ) α) s a s' := by
  change ¬ (Except.error f, s) = (Except.ok a, s')
  simp

theorem run_bind (m : ExceptT Fault (StateM σ) β) (f : β → ExceptT Fault (StateM σ) α) (s : σ) :
    (m >>= f).run.run s = match m.run.run s with
      | (.ok b, t) => (f b).run.run t
      | (.error e, t) => (.error e, t) := by
  change (ExceptT.bindCont f (m s).1) (m s).2 = _
  change _ = match m s with
    | (.ok b, t) => (f b) t
    | (.error e, t) => (.error e, t)
  rcases m s with ⟨r, t⟩
  cases r with
  | ok b => rfl
  | error e => rfl

@[simp] theorem succeeds_bind {m : ExceptT Fault (StateM σ) β}
    {f : β → ExceptT Fault (StateM σ) α} :
    Succeeds (m >>= f) s a s' ↔ ∃ b t, Succeeds m s b t ∧ Succeeds (f b) t a s' := by
  unfold Succeeds
  rw [run_bind]
  rcases hm : m.run.run s with ⟨r, t⟩
  cases r with
  | ok b =>
      constructor
      · intro h
        exact ⟨b, t, rfl, h⟩
      · rintro ⟨b', t', hb, h⟩
        obtain ⟨hr, rfl⟩ := Prod.mk.inj hb
        obtain rfl := Except.ok.inj hr
        exact h
  | error e =>
      constructor
      · intro h
        cases (Prod.mk.inj h).1
      · rintro ⟨b', t', hb, _⟩
        cases (Prod.mk.inj hb).1

@[simp] theorem succeeds_map {m : ExceptT Fault (StateM σ) β} {f : β → α} :
    Succeeds (f <$> m) s a s' ↔ ∃ b, Succeeds m s b s' ∧ f b = a := by
  rw [map_eq_pure_bind, succeeds_bind]
  simp [and_comm]

/-- A computation that goes on only where it does not refuse. -/
@[simp] theorem succeeds_refuse {c : Prop} [Decidable c] {f : Fault}
    {k : β → ExceptT Fault (StateM σ) α} {m : ExceptT Fault (StateM σ) α} :
    Succeeds (if c then throw f >>= k else m) s a s' ↔ ¬ c ∧ Succeeds m s a s' := by
  by_cases hc : c
  · simp [hc]
  · simp [hc]

@[simp] theorem succeeds_get {t : σ} :
    Succeeds (get : ExceptT Fault (StateM σ) σ) s t s' ↔ t = s ∧ s = s' := by
  change (Except.ok s, s) = (Except.ok t, s') ↔ _
  simp [eq_comm]

@[simp] theorem succeeds_set {t : σ} {u : PUnit} :
    Succeeds (set t : ExceptT Fault (StateM σ) PUnit) s u s' ↔ t = s' := by
  change (Except.ok _, t) = (Except.ok u, s') ↔ _
  simp

@[simp] theorem succeeds_modify {f : σ → σ} {u : PUnit} :
    Succeeds (modify f : ExceptT Fault (StateM σ) PUnit) s u s' ↔ f s = s' := by
  change (Except.ok _, f s) = (Except.ok u, s') ↔ _
  simp

end Stateful

end Dataflow
