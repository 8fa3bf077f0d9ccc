import Dataflow.Graph.Tally
import Dataflow.Proofs.Graph.Selection

/-!
# Tallies stand for selections

What an operation does to a tally is what the operation on selections does to the selection that the
tally stands for; where the one is refused so is the other, with the same fault. The count goes along:
every operation leaves the sum of the lengths of the spans. Appending in place either adds all spans
or changes nothing.
-/

namespace Dataflow

namespace Selection

theorem size_eq_sum (e : Selection) : e.size = (e.spans.map Span.length).sum := by
  obtain ⟨spans⟩ := e
  induction spans with
  | nil => rfl
  | cons s spans ih => exact congrArg (s.length + ·) ih

theorem size_append (ss ts : List Span) : size ⟨ss ++ ts⟩ = size ⟨ss⟩ + size ⟨ts⟩ := by
  simp [size_eq_sum]

end Selection

namespace Span

/-- A span is extended, or it is not adjacent and stays as it was. -/
theorem run_extend (a b : Span) : b.extend.run.run a = match a.append b with
    | .ok r => (.ok (), r)
    | .error f => (.error f, a) := by
  unfold extend append
  rw [run_bind]
  change (if !a.isAdjacent b then _ else _ : ExceptT Fault (StateM Span) Unit).run.run a = _
  cases a.isAdjacent b <;> rfl

end Span

namespace Tally

variable {a b t r : Tally} {ss : List Span}

theorem addAll_eq (t : Tally) (ss : List Span) :
    t.addAll ss = ⟨t.spans ++ ss, t.total + Selection.size ⟨ss⟩⟩ := by
  induction ss generalizing t with
  | nil => simp [addAll, Selection.size]
  | cons s ss ih =>
      rw [addAll, List.foldl_cons, ← addAll, ih]
      simp [add, Selection.size_eq_sum, Nat.add_assoc]

@[simp] theorem spans_addAll (t : Tally) (ss : List Span) :
    (t.addAll ss).spans = t.spans ++ ss := by rw [addAll_eq]

@[simp] theorem selection_addAll (t : Tally) (ss : List Span) :
    (t.addAll ss).selection = ⟨t.spans ++ ss⟩ := by rw [addAll_eq, selection]

theorem addAll_addAll (t : Tally) (ss ts : List Span) :
    (t.addAll ss).addAll ts = t.addAll (ss ++ ts) := List.foldl_append.symm

theorem map_addChecked (t : Tally) (s : Span) :
    selection <$> t.addChecked s = t.selection.addSpan s := by
  unfold addChecked Selection.addSpan
  cases t.selection.checkType s.elemType <;> rfl

theorem foldlM_addChecked (t : Tally) (ss : List Span) :
    selection <$> ss.foldlM addChecked t = ss.foldlM Selection.addSpan t.selection ∧
      ∀ r, ss.foldlM addChecked t = .ok r → r = t.addAll ss := by
  induction ss generalizing t with
  | nil => exact ⟨rfl, fun r h => (Except.ok.inj h).symm⟩
  | cons s ss ih =>
      have hadd := map_addChecked t s
      rw [List.foldlM_cons, List.foldlM_cons, ← hadd]
      cases hs : t.addChecked s with
      | error f => exact ⟨rfl, fun r h => by cases h⟩
      | ok u =>
          obtain ⟨_, -, hu⟩ := bind_eq_ok_iff.1 hs
          obtain rfl : t.add s = u := Except.ok.inj hu
          exact ih (t.add s)

theorem map_ofSpans (ss : List Span) : selection <$> ofSpans ss = Selection.ofSpans ss :=
  (foldlM_addChecked {} ss).1

theorem ofSpans_eq_ok_iff :
    ofSpans ss = .ok t ↔ t = addAll {} ss ∧ Selection.Uniform ⟨ss⟩ := by
  have hmap := map_ofSpans ss
  constructor
  · intro h
    rw [h] at hmap
    obtain ⟨hspans, hu⟩ := Selection.ofSpans_eq_ok_iff.1 hmap.symm
    exact ⟨(foldlM_addChecked {} ss).2 t h, hspans ▸ hu⟩
  · rintro ⟨rfl, hu⟩
    rw [Selection.ofSpans_eq_self hu] at hmap
    obtain ⟨r, hr, -⟩ := map_eq_ok_iff.1 hmap
    rw [hr, (foldlM_addChecked {} ss).2 r hr]

/-- Either all spans are added, or the tally stays as it was. -/
theorem run_append (a b : Tally) : b.append.run.run a =
    match a.selection.append b.selection with
    | .ok _ => (.ok (), a.addAll b.spans)
    | .error f => (.error f, a) := by
  unfold append Selection.append
  cases b.selection.elemType? with
  | none => rfl
  | some u =>
      change (liftM (a.selection.checkType u) >>= fun _ => modify (·.addAll b.spans) :
        ExceptT Fault (StateM Tally) Unit).run.run a = match a.selection.checkType u >>= fun _ =>
          Except.ok (⟨a.spans ++ b.spans⟩ : Selection) with
        | .ok _ => (.ok (), a.addAll b.spans)
        | .error f => (.error f, a)
      cases a.selection.checkType u <;> rfl

/-- Appending one tally after the other adds all spans, or it is refused as it is for selections. -/
theorem run_forM_append (a : Tally) (parts : List Tally) :
    (∀ e, (parts.map selection).foldlM Selection.append a.selection = .ok e →
      e = ⟨a.spans ++ parts.flatMap (·.spans)⟩ ∧
        (parts.forM append).run.run a = (.ok (), a.addAll (parts.flatMap (·.spans)))) ∧
    ∀ f, (parts.map selection).foldlM Selection.append a.selection = .error f →
      ((parts.forM append).run.run a).1 = .error f := by
  induction parts generalizing a with
  | nil =>
      refine ⟨fun e h => ?_, fun f h => by cases h⟩
      obtain rfl := Except.ok.inj h
      exact ⟨by simp [selection], rfl⟩
  | cons b parts ih =>
      rw [List.map_cons, List.foldlM_cons]
      change (∀ e, _ → _ ∧ (append b >>= fun _ => parts.forM append).run.run a = _) ∧
        ∀ f, _ → ((append b >>= fun _ => parts.forM append).run.run a).1 = _
      rw [run_bind, run_append]
      cases hab : a.selection.append b.selection with
      | error f => exact ⟨fun e h => (by cases h), fun f' h => congrArg _ (Except.error.inj h)⟩
      | ok e =>
          obtain ⟨-, rfl⟩ := Selection.append_eq_ok_iff.1 hab
          obtain ⟨hok, herror⟩ := ih (a.addAll b.spans)
          rw [selection_addAll] at hok herror
          refine ⟨fun e h => ?_, herror⟩
          obtain ⟨he, hrun⟩ := hok e h
          rw [spans_addAll, List.append_assoc, ← List.flatMap_cons] at he
          rw [addAll_addAll, ← List.flatMap_cons] at hrun
          exact ⟨he, hrun⟩

theorem map_concat (parts : List Tally) :
    selection <$> concat parts = Selection.concat (parts.map selection) := by
  obtain ⟨hok, herror⟩ := run_forM_append {} parts
  unfold concat Selection.concat
  cases h : (parts.map selection).foldlM Selection.append Selection.empty with
  | ok e =>
      obtain ⟨rfl, hrun⟩ := hok e h
      rw [hrun]
      exact congrArg _ (selection_addAll {} _)
  | error f =>
      have hrun := herror f h
      rcases hr : (parts.forM append).run.run {} with ⟨r, t⟩
      rw [hr] at hrun
      obtain rfl : r = .error f := hrun
      rfl

theorem eq_of_concat (h : concat parts = .ok t) : t = addAll {} (parts.flatMap (·.spans)) := by
  have hmap := map_concat parts
  rw [h] at hmap
  obtain ⟨-, hrun⟩ := (run_forM_append {} parts).1 t.selection hmap.symm
  rw [concat, hrun] at h
  exact (Except.ok.inj h).symm

theorem concatTyped_eq (parts : List Tally) : concatTyped parts = addAll {} (parts.flatMap (·.spans)) := by
  have hfold : ∀ a : Tally, parts.foldl (fun a b => a.addAll b.spans) a =
      a.addAll (parts.flatMap (·.spans)) := by
    induction parts with
    | nil => exact fun a => rfl
    | cons b parts ih =>
        intro a
        rw [List.foldl_cons, ih, addAll_addAll, List.flatMap_cons]
  exact hfold {}

theorem cut_zero (ss : List Span) (start : Nat) : Selection.cut ss start 0 = [] := by
  cases ss <;> rfl

/-- What the loop adds is what is cut out of the spans that are left: `cut` counts from the first of
them and knows how many values are missing. -/
theorem sliceFrom_eq (start stop : Nat) (r : Tally) (offset : Nat) (ss : List Span) :
    sliceFrom start stop r offset ss =
      r.addAll (Selection.cut ss (start - offset) (stop - max start offset)) := by
  induction ss generalizing r offset with
  | nil => rfl
  | cons s ss ih =>
      set next := offset + s.length with hnext
      have hrest : ∀ r : Tally, (if stop ≤ next then r else sliceFrom start stop r next ss) =
          r.addAll (Selection.cut ss (start - next) (stop - max start next)) := by
        intro r
        split
        · rw [show stop - max start next = 0 by omega, cut_zero]
          rfl
        · exact ih r next
      rw [sliceFrom, ← hnext]
      rw [hrest, Selection.cut]
      by_cases hdone : stop - max start offset = 0
      · rw [if_pos hdone, if_neg (by omega), show stop - max start next = 0 by omega, cut_zero]
      · rw [if_neg hdone]
        by_cases hskip : s.length ≤ start - offset
        · rw [if_pos hskip, if_neg (by omega), Nat.sub_sub, ← hnext,
            show max start next = max start offset by omega]
        · have htaken : min stop next - max start offset =
              min (s.length - (start - offset)) (stop - max start offset) := by omega
          rw [if_neg hskip, if_pos (by omega), htaken,
            show max start offset - offset = start - offset by omega,
            show start - next = 0 by omega,
            show stop - max start next = stop - max start offset -
              min (s.length - (start - offset)) (stop - max start offset) by omega]
          rfl

theorem slice_eq_ok_iff {start count : Nat} : t.slice start count = .ok r ↔
    start + count ≤ t.total ∧ r = addAll {} (Selection.cut t.spans start count) := by
  have hcut : sliceFrom start (start + count) {} 0 t.spans =
      addAll {} (Selection.cut t.spans start count) := by
    rw [sliceFrom_eq]
    simp
  unfold slice
  rw [hcut]
  split <;> simp_all [eq_comm]

theorem map_slice (h : t.total = t.selection.size) (start count : Nat) :
    selection <$> t.slice start count = t.selection.slice start count := by
  unfold slice Selection.slice
  rw [h, sliceFrom_eq, Nat.sub_zero, Nat.max_zero, Nat.add_sub_cancel_left]
  split
  · exact congrArg _ (selection_addAll {} _)
  · rfl

theorem map_ofCells (cs : List Cell) : selection <$> ofCells cs = Selection.ofCells cs := by
  unfold ofCells Selection.ofCells
  rw [← map_ofSpans]
  cases ofSpans (cs.map Cell.span) <;> rfl

theorem map_resolve (g : Graph) (t : Tally) :
    selection <$> t.resolve g = g.resolve t.selection := by
  unfold resolve Graph.resolve
  change _ = t.spans.mapM g.resolveSpan >>= _
  cases t.spans.mapM g.resolveSpan with
  | error f => rfl
  | ok ss => exact map_ofSpans ss

theorem map_parse (g : Graph) (text : String) :
    selection <$> parse g text = Reference.parse g text := by
  unfold parse
  cases Reference.parse g text with
  | error f => rfl
  | ok e => exact congrArg _ (selection_addAll {} e.spans)

theorem expect_eq_ok_iff {u : ElemType} :
    t.expect u = .ok () ↔ ∃ x, TypedSelection.ofSelection u t.selection = .ok x := by
  unfold expect
  cases TypedSelection.ofSelection u t.selection <;> simp [bind, Except.bind, pure, Except.pure]

/-- Each operation on tallies is the one on selections; where that is refused it is refused, and what
would have been changed stays as it was. -/
structure Mirrors : Prop where
  extend : ∀ s u r : Span, s.append u = .ok r → u.extend.run.run s = (.ok (), r)
  extend_refused : ∀ (s u : Span) f, s.append u = .error f → u.extend.run.run s = (.error f, s)
  append : ∀ (a b : Tally) e, a.selection.append b.selection = .ok e →
    ∃ r, b.append.run.run a = (.ok (), r) ∧ r.selection = e
  append_refused : ∀ (a b : Tally) f, a.selection.append b.selection = .error f →
    b.append.run.run a = (.error f, a)
  concat : ∀ parts, selection <$> concat parts = Selection.concat (parts.map selection)
  ofSpans : ∀ ss, selection <$> ofSpans ss = Selection.ofSpans ss
  ofCells : ∀ cs, selection <$> ofCells cs = Selection.ofCells cs
  consolidate : ∀ t : Tally, t.consolidate.selection = t.selection.consolidate
  slice : ∀ t : Tally, t.total = t.selection.size → ∀ start count,
    selection <$> t.slice start count = t.selection.slice start count
  resolve : ∀ g (t : Tally), selection <$> t.resolve g = g.resolve t.selection
  parse : ∀ g text, selection <$> parse g text = Reference.parse g text
  expect : ∀ (t : Tally) u, t.expect u = .ok () ↔ ∃ x, TypedSelection.ofSelection u t.selection = .ok x
  addAll : ∀ (u : ElemType) (a b : Tally), (a.addAll b.spans).selection =
    (TypedSelection.append (⟨a.selection⟩ : TypedSelection u) ⟨b.selection⟩).base
  concatTyped : ∀ (u : ElemType) (parts : List Tally), (concatTyped parts).selection =
    (TypedSelection.concat (parts.map fun p => (⟨p.selection⟩ : TypedSelection u))).base

theorem selection_concatTyped (u : ElemType) (parts : List Tally) : (concatTyped parts).selection =
    (TypedSelection.concat (parts.map fun p => (⟨p.selection⟩ : TypedSelection u))).base := by
  have hfold : ∀ a : Tally, (parts.foldl (fun a b => a.addAll b.spans) a).selection =
      ((parts.map fun p => (⟨p.selection⟩ : TypedSelection u)).foldl TypedSelection.append
        ⟨a.selection⟩).base := by
    induction parts with
    | nil => exact fun a => rfl
    | cons b parts ih =>
        intro a
        rw [List.map_cons, List.foldl_cons, List.foldl_cons, ih, selection_addAll]
        rfl
  exact hfold {}

theorem mirrors : Mirrors where
  extend s u r h := by rw [Span.run_extend, h]
  extend_refused s u f h := by rw [Span.run_extend, h]
  append a b e h := by
    obtain ⟨-, rfl⟩ := Selection.append_eq_ok_iff.1 h
    exact ⟨_, by rw [run_append, h], selection_addAll a b.spans⟩
  append_refused a b f h := by rw [run_append, h]
  concat := map_concat
  ofSpans := map_ofSpans
  ofCells := map_ofCells
  consolidate _ := rfl
  slice _ h := map_slice h
  resolve := map_resolve
  parse := map_parse
  expect _ _ := expect_eq_ok_iff
  addAll _ a b := selection_addAll a b.spans
  concatTyped := selection_concatTyped

end Tally

end Dataflow
