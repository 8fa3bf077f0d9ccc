import Dataflow.Proofs.Digraph

/-!
# Closures are depth-first preorders

`closure` finds what some roots depend on with an explicit stack. The order in which it finds the keys
is that of the recursive walk `Meets`, which goes through the dependencies of a key as soon as it
meets the key. A key can be on the stack several times, so there is no walk for each stack entry;
instead the walk through the whole stack is split where the dependencies of the top end.
-/

namespace Dataflow.Digraph

open Relation

variable {κ : Type}

/-- A recursive walk through the keys `ks` from left to right. What it has met already it passes over;
when it meets a new key it goes through the dependencies of that key first. -/
inductive Meets (deps : κ → List κ) : List κ → List κ → List κ → Prop
  | done (seen : List κ) : Meets deps seen [] seen
  | again {k : κ} {seen ks met : List κ} :
      k ∈ seen → Meets deps seen ks met → Meets deps seen (k :: ks) met
  | new {k : κ} {seen ks below met : List κ} :
      k ∉ seen → Meets deps (seen ++ [k]) (deps k) below → Meets deps below ks met →
        Meets deps seen (k :: ks) met

/-- A key is one of the roots, or a root depends on it. -/
def Found (deps : κ → List κ) (roots : List κ) (k : κ) : Prop :=
  ∃ r ∈ roots, ReflTransGen (fun a b => b ∈ deps a) r k

variable {deps : κ → List κ} {seen stack ks met roots : List κ} {k : κ}

theorem Meets.unique {met' : List κ} (h : Meets deps seen ks met) (h' : Meets deps seen ks met') :
    met = met' := by
  induction h generalizing met' with
  | done seen =>
      cases h'
      rfl
  | again hk _ ih =>
      cases h' with
      | again _ h' => exact ih h'
      | new hn _ _ => exact absurd hk hn
  | new hn _ _ ihbelow ih =>
      cases h' with
      | again hk _ => exact absurd hk hn
      | new _ hbelow h' =>
          obtain rfl := ihbelow hbelow
          exact ih h'

theorem Meets.nodup (h : Meets deps seen ks met) (hseen : seen.Nodup) : met.Nodup := by
  induction h with
  | done seen => exact hseen
  | again _ _ ih => exact ih hseen
  | new hn _ _ ihbelow ih => exact ih (ihbelow (List.concat_eq_append ▸ hseen.concat hn))

theorem Meets.exists_of_append {ls : List κ} (h : Meets deps seen (ks ++ ls) met) :
    ∃ mid, Meets deps seen ks mid ∧ Meets deps mid ls met := by
  induction ks generalizing seen with
  | nil => exact ⟨seen, .done seen, h⟩
  | cons k ks ih =>
      cases h with
      | again hk h =>
          obtain ⟨mid, hks, hls⟩ := ih h
          exact ⟨mid, .again hk hks, hls⟩
      | new hn hbelow h =>
          obtain ⟨mid, hks, hls⟩ := ih h
          exact ⟨mid, .new hn hbelow hks, hls⟩

theorem Found.of_tail (h : Found deps stack k) {top : κ} : Found deps (top :: stack) k := by
  obtain ⟨r, hr, hrk⟩ := h
  exact ⟨r, List.mem_cons_of_mem _ hr, hrk⟩

theorem found_top (deps : κ → List κ) (k : κ) (stack : List κ) : Found deps (k :: stack) k :=
  ⟨k, List.mem_cons_self, .refl⟩

theorem Found.of_next {top : κ} (h : Found deps (deps top ++ stack) k) :
    Found deps (top :: stack) k := by
  obtain ⟨r, hr, hrk⟩ := h
  rcases List.mem_append.1 hr with hr | hr
  · exact ⟨top, List.mem_cons_self, hrk.head hr⟩
  · exact ⟨r, List.mem_cons_of_mem _ hr, hrk⟩

section Loop

variable [DecidableEq κ] {g : Digraph κ}

/-- One round of the loop of `closureFrom`, over dependencies that are not restricted to a list of
nodes. If it finds new keys for ever, the stack does not run empty. -/
def scan (deps : κ → List κ) : List κ × List κ → List κ × List κ
  | (seen, []) => (seen, [])
  | (seen, k :: stack) =>
    if k ∈ seen then (seen, stack)
    else (seen ++ [k], deps k ++ stack)

/-- On a graph with the given dependencies the loop ends as the recursive walk does. The induction is
that of the loop: after a new key it goes on with the dependencies of the key and the rest of the stack,
which the walk does one after the other. -/
theorem meets_closureFrom (h : ∀ k, Found deps stack k → g.next k = deps k) :
    (∃ rounds, (scan deps)^[rounds] (seen, stack) = (g.closureFrom seen stack, [])) ∧
      Meets deps seen stack (g.closureFrom seen stack) := by
  induction seen, stack using closureFrom.induct g with
  | case1 seen =>
      rw [closureFrom]
      exact ⟨⟨0, rfl⟩, .done seen⟩
  | case2 seen k stack hk ih =>
      obtain ⟨⟨rounds, hscan⟩, hmeets⟩ := ih fun x hx => h x hx.of_tail
      rw [closureFrom, if_pos hk]
      refine ⟨⟨rounds + 1, ?_⟩, .again hk hmeets⟩
      rw [Function.iterate_succ_apply, scan, if_pos hk, hscan]
  | case3 seen k stack hk ih =>
      have hnext := h k (found_top deps k stack)
      rw [hnext] at ih
      obtain ⟨⟨rounds, hscan⟩, hmeets⟩ := ih fun x hx => h x hx.of_next
      rw [closureFrom, if_neg hk, hnext]
      obtain ⟨below, hbelow, hrest⟩ := hmeets.exists_of_append
      refine ⟨⟨rounds + 1, ?_⟩, .new hk hbelow hrest⟩
      rw [Function.iterate_succ_apply, scan, if_neg hk, hscan]

theorem found_iff_reached (h : ∀ k, Found deps roots k → g.next k = deps k) :
    Found deps roots k ↔ g.Reached roots k := by
  constructor
  · rintro ⟨r, hr, hrk⟩
    refine ⟨r, hr, ?_⟩
    induction hrk with
    | refl => exact .refl
    | @tail a b hra hab ih =>
        have hnext := h a ⟨r, hr, hra⟩
        exact ih.tail (hnext ▸ hab : b ∈ g.next a)
  · rintro ⟨r, hr, hrk⟩
    induction hrk with
    | refl => exact ⟨r, hr, .refl⟩
    | @tail a b _ hab ih =>
        obtain ⟨r', hr', hra⟩ := ih
        have hnext := h a ⟨r', hr', hra⟩
        exact ⟨r', hr', hra.tail (hnext ▸ hab : b ∈ deps a)⟩

/-- **The stack loop is a depth-first walk.** If only finitely many keys are found from the roots, then
the loop ends with all of them, each once, in the order in which the recursive walk meets them.
The closure of the roots in a graph with these dependencies is the same list. -/
theorem closure_eq_preorder (deps : κ → List κ) (roots : List κ)
    (h : {k | Found deps roots k}.Finite) :
    ∃ order, (∃ rounds, (scan deps)^[rounds] ([], roots) = (order, [])) ∧
      (∀ met, Meets deps [] roots met ↔ met = order) ∧
      order.Nodup ∧ (∀ k, k ∈ order ↔ Found deps roots k) ∧
      ∀ g : Digraph κ, (∀ k, Found deps roots k → g.next k = deps k) → g.closure roots = order := by
  let g : Digraph κ := ⟨h.toFinset.toList, deps⟩
  have hg : ∀ k, Found deps roots k → g.next k = deps k := fun k hk => if_pos (by simpa [g] using hk)
  have hwalk : ∀ g' : Digraph κ, (∀ k, Found deps roots k → g'.next k = deps k) →
      (∃ rounds, (scan deps)^[rounds] ([], roots) = (g'.closure roots, [])) ∧
        Meets deps [] roots (g'.closure roots) :=
    fun g' hg' => meets_closureFrom hg'
  obtain ⟨hscan, hmeets⟩ := hwalk g hg
  refine ⟨g.closure roots, hscan, fun met => ⟨fun h => h.unique hmeets, fun h => h ▸ hmeets⟩,
    hmeets.nodup List.nodup_nil, fun k => ?_, fun g' hg' => ?_⟩
  · rw [mem_closure_iff, found_iff_reached hg]
  · exact (hwalk g' hg').2.unique hmeets

end Loop

/-- Four keys in a ring, each of which depends on the two that come next. -/
def ring (k : Nat) : List Nat := [(k + 2) % 4, (k + 1) % 4]

theorem closure_ring : {k | Found ring [1, 3, 1] k}.Finite ∧
    (∃ rounds, (scan ring)^[rounds] ([], [1, 3, 1]) = ([1, 3, 0, 2], [])) ∧
    (⟨[0, 1, 2, 3], ring⟩ : Digraph Nat).closure [1, 3, 1] = [1, 3, 0, 2] := by
  have hlt : ∀ k, Found ring [1, 3, 1] k → k < 4 := by
    rintro k ⟨r, hr, hrk⟩
    rcases ReflTransGen.cases_tail hrk with rfl | ⟨a, -, hak⟩
    · simp only [List.mem_cons, List.not_mem_nil, or_false] at hr
      omega
    · simp only [ring, List.mem_cons, List.not_mem_nil, or_false] at hak
      omega
  have hfinite := (Set.finite_lt_nat 4).subset hlt
  obtain ⟨order, hscan, hmeets, -, -, hclosure⟩ := closure_eq_preorder ring [1, 3, 1] hfinite
  have hbelow : Meets ring [1] (ring 1) [1, 3, 0, 2] :=
    .new (by decide) (.again (by decide) (.new (by decide) (.new (by decide)
      (.again (by decide) (.again (by decide) (.done _))) (.again (by decide) (.done _)))
      (.done _))) (.again (by decide) (.done _))
  have horder := (hmeets [1, 3, 0, 2]).1
    (.new (by decide) hbelow (.again (by decide) (.again (by decide) (.done _))))
  refine ⟨hfinite, horder ▸ hscan, horder ▸ hclosure _ fun k hk => if_pos ?_⟩
  have hk := hlt k hk
  simp only [List.mem_cons, List.not_mem_nil, or_false]
  omega

end Dataflow.Digraph
