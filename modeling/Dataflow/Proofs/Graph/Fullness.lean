import Dataflow.Proofs.Graph.Drawn

/-!
# When a span is said to be full

A span answers from the size it has cached. Spans made of outlets cache the size of the outlet, and
merging, cutting and resolving keep it or take it anew, so their answers are right. A span made of a
picked cell caches no more than that the outlet reaches as far as the cell. From the first cell on this
passes for the size: the first cell of a longer outlet is said to be full, and all of its cells, picked
one by one and merged, are not.
-/

namespace Dataflow

open Dataflow.Graph (Coherent SizedAt Stages)

namespace Span

/-- The span follows its outlet, or it has all of its values. -/
def Fills (stage : Graph → Prop) (s : Span) : Prop :=
  s.isFixed = false ∨ ∃ n, SizedAt stage s.port n ∧ s.start = 0 ∧ s.length = n

/-- The span begins with the first cell of an outlet that goes on, takes this cell for all of the outlet,
and has either this cell alone or in fact all of them. -/
def Misled (stage : Graph → Prop) (s : Span) : Prop :=
  s.isFixed = true ∧ s.start = 0 ∧ s.outletSize = 1 ∧
    ∃ n, SizedAt stage s.port n ∧ 1 < n ∧ (s.length = 1 ∨ s.length = n)

variable {stage : Graph → Prop} {picks : Prop} {s : Span} {n : Nat}

theorem isFull_iff : s.isFull = true ↔ s.isFixed = false ∨ s.start = 0 ∧ s.length = s.outletSize := by
  simp [isFull]

theorem fills_iff (hc : Coherent stage) (hn : SizedAt stage s.port n) :
    s.Fills stage ↔ s.isFixed = false ∨ s.start = 0 ∧ s.length = n := by
  refine or_congr_right ⟨?_, fun ⟨hstart, hlength⟩ => ⟨n, hn, hstart, hlength⟩⟩
  rintro ⟨m, hm, hstart, rfl⟩
  exact ⟨hstart, hc.size _ _ _ hm hn⟩

theorem misled_iff (hc : Coherent stage) (hn : SizedAt stage s.port n) :
    s.Misled stage ↔ s.isFixed = true ∧ s.start = 0 ∧ s.outletSize = 1 ∧ 1 < n ∧
      (s.length = 1 ∨ s.length = n) := by
  refine and_congr_right fun _ => and_congr_right fun _ => and_congr_right fun _ =>
    ⟨?_, fun ⟨hlt, hlength⟩ => ⟨n, hn, hlt, hlength⟩⟩
  rintro ⟨m, hm, h⟩
  rwa [hc.size _ _ _ hm hn] at h

/-- A span that knows how far it reaches answers right unless it is misled, which takes picking. -/
theorem Traced.isFull_iff_fills (hc : Coherent stage) (h : s.Traced stage picks) :
    ((s.isFull = true ↔ s.Fills stage) ↔ ¬ s.Misled stage) ∧ (s.Misled stage → picks) := by
  cases h with
  | measured hsize _ _ =>
      have hright : ¬ s.Misled stage := by
        rw [misled_iff hc hsize]
        rintro ⟨-, -, hone, hlt, -⟩
        exact hlt.ne' hone
      exact ⟨iff_of_true (isFull_iff.trans (fills_iff hc hsize).symm) hright, fun h => absurd h hright⟩
  | pending hfixed _ _ =>
      have hright : ¬ s.Misled stage := fun h => Bool.false_ne_true (hfixed.symm.trans h.1)
      exact ⟨iff_of_true (iff_of_true (isFull_iff.2 (.inl hfixed)) (.inl hfixed)) hright,
        fun h => absurd h hright⟩
  | @picked n hp hfixed hpos hle hreach hsize _ =>
      refine ⟨?_, fun _ => hp⟩
      rw [isFull_iff, fills_iff hc hsize, misled_iff hc hsize, hfixed]
      -- At the start of the outlet the cached size is one.
      by_cases hstart : s.start = 0
      · have hone : s.outletSize = 1 := by omega
        have hn : 1 ≤ n := hone ▸ hreach
        simp only [hstart, hone, Bool.true_eq_false, false_or, true_and]
        omega
      · simp [hstart]

end Span

namespace Tally

variable {stage : Graph → Prop} {picks : Prop} {t : Tally}

theorem isFullOutlet_iff : t.selection.isFullOutlet = true ↔ ∃ s, t.spans = [s] ∧ s.isFull = true := by
  obtain ⟨spans, total⟩ := t
  match spans with
  | [] => simp [selection, Selection.isFullOutlet]
  | [s] => simp [selection, Selection.isFullOutlet]
  | s :: u :: ss => simp [selection, Selection.isFullOutlet]

/-- The answers of whatever is drawn are right exactly where no span is misled by a picked cell. -/
theorem isFull_of_drawn (actions : List Graph.Action) (picks : Prop) (k : Option ElemType) (t : Tally)
    (h : Drawn (Stages actions) picks k t) :
    (∀ s ∈ t.spans, ((s.isFull = true ↔ s.Fills (Stages actions)) ↔ ¬ s.Misled (Stages actions)) ∧
        (s.Misled (Stages actions) → picks)) ∧
      ((t.selection.isFullOutlet = true ↔ ∃ s, t.spans = [s] ∧ s.Fills (Stages actions)) ↔
        ¬ ∃ s, t.spans = [s] ∧ s.Misled (Stages actions)) := by
  have hc := Graph.coherent_stages actions
  have hspans : ∀ s ∈ t.spans, _ := fun s hs => ((h.sound hc).traced s hs).isFull_iff_fills hc
  refine ⟨hspans, ?_⟩
  rw [isFullOutlet_iff]
  by_cases hone : ∃ s, t.spans = [s]
  · obtain ⟨s, hs⟩ := hone
    have hright := (hspans s (hs ▸ List.mem_singleton_self s)).1
    simpa [hs] using hright
  · have hnone : ∀ P : Span → Prop, ¬ ∃ s, t.spans = [s] ∧ P s :=
      fun P ⟨s, hs, _⟩ => hone ⟨s, hs⟩
    exact iff_of_true (iff_of_false (hnone _) (hnone _)) (hnone _)

def first : Tally := ofCell ⟨pairPort, .real, 0⟩

def both : Tally := ⟨[⟨pairPort, .real, 0, 2, 1, true⟩], 2⟩

theorem drawn_ofCell_pair {i : Nat} {c : Cell} (h : whole.selection.cell i = .ok c) :
    Drawn (Stages pair) True none (ofCell c) := .ofCell trivial drawn_whole h

theorem drawn_both : Drawn (Stages pair) True none both := by
  have hcells : ofCells [⟨pairPort, .real, 0⟩, ⟨pairPort, .real, 1⟩] = .ok both := rfl
  refine .ofCells (fun c hc => ?_) hcells
  obtain rfl | rfl : c = ⟨pairPort, .real, 0⟩ ∨ c = ⟨pairPort, .real, 1⟩ := by simpa using hc
  · exact drawn_ofCell_pair (i := 0) rfl
  · exact drawn_ofCell_pair (i := 1) rfl

/-- Both are all of the outlet and are said not to be. -/
theorem isFull_of_drawn_both : Drawn (Stages pair) True none both ∧
    both.selection.isFullOutlet = false ∧ (∃ s, both.spans = [s] ∧ s.Fills (Stages pair)) ∧
      ∃ s, both.spans = [s] ∧ s.Misled (Stages pair) := by
  have hfills : ∃ s, both.spans = [s] ∧ s.Fills (Stages pair) :=
    ⟨_, rfl, .inr ⟨2, sizedAt_pair, rfl, rfl⟩⟩
  have hsaid : both.selection.isFullOutlet = false := rfl
  refine ⟨drawn_both, hsaid, hfills, ?_⟩
  by_contra hright
  have hfull := ((isFull_of_drawn pair True none both drawn_both).2.2 hright).2 hfills
  exact Bool.false_ne_true (hsaid.symm.trans hfull)

/-- The first of them is not all of the outlet and is said to be. -/
theorem not_isFull_of_first : ¬ ∀ (actions : List Graph.Action) (k : Option ElemType) (t : Tally),
    Drawn (Stages actions) True k t →
      ∀ s ∈ t.spans, (s.isFull = true ↔ s.Fills (Stages actions)) := by
  intro h
  have hfirst : Drawn (Stages pair) True none first := drawn_ofCell_pair (i := 0) rfl
  have hfills := (h pair none first hfirst _ (List.mem_singleton_self _)).1 rfl
  rcases (Span.fills_iff (Graph.coherent_stages pair) sizedAt_pair).1 hfills with hfixed | hall
  · cases hfixed
  · exact absurd hall.2 (by decide)

end Tally

end Dataflow
