import Dataflow.Proofs.Graph.Held

/-!
# Consolidating is a normal form

Consolidating a selection merges what is adjacent and nothing else. The cells stay the same, nothing
adjacent is left over, and a second pass changes nothing. It makes no difference whether a selection is
consolidated before or after it is resolved, since a span that may still change its size is adjacent to
nothing: resolving leaves alone what is adjacent to what, and the parts of a merged span fit together with
it. What is gathered does not depend on how the cells are split into spans.
-/

namespace Dataflow

namespace Values

variable {v w source : Values} {start m n : Nat}

theorem extend_eq_ok_iff : v.extend source start n = .ok w ↔
    start + n ≤ source.length ∧ v.append? (source.extract start n) = some w := by
  unfold extend
  split
  case isTrue h => cases v.append? (source.extract start n) <;> simp [h]
  case isFalse h => simp [h]

theorem append?_extract_add : v.append? (source.extract start (m + n)) = some w ↔
    ∃ u, v.append? (source.extract start m) = some u ∧
      u.append? (source.extract (start + m) n) = some w := by
  cases v <;> cases source <;> simp [append?, extract, List.take_add, List.drop_drop]

/-- Two runs one after the other are taken at once or one by one. -/
theorem extend_add : v.extend source start (m + n) = .ok w ↔
    ∃ u, v.extend source start m = .ok u ∧ u.extend source (start + m) n = .ok w := by
  simp only [extend_eq_ok_iff]
  rw [append?_extract_add]
  constructor
  · rintro ⟨hlen, u, hu, hw⟩
    exact ⟨u, ⟨by omega, hu⟩, by omega, hw⟩
  · rintro ⟨u, ⟨-, hu⟩, hlen, hw⟩
    exact ⟨by omega, u, hu, hw⟩

end Values

namespace Span

variable {a b : Span} {m n : Nat}

theorem refresh_of_isFixed (h : a.isFixed = true) :
    (a.refresh m).start = a.start ∧ (a.refresh m).length = a.length := by
  simp [refresh, h]

/-- What is not fixed is adjacent to nothing, whatever its length. -/
theorem isAdjacent_refresh : (a.refresh m).isAdjacent (b.refresh n) = a.isAdjacent b := by
  cases h : a.isFixed <;> simp [isAdjacent, refresh, stop, h]

theorem refresh_merge (h : a.isAdjacent b = true) :
    (a.merge b).refresh m = (a.refresh m).merge (b.refresh m) := by
  obtain ⟨ha, hb, -⟩ := isAdjacent_iff.1 h
  simp [merge, refresh, ha, hb]

end Span
theorem Selection.head?_mergeFrom (a : Span) (ss : List Span) :
    (mergeFrom a ss).head?.map (·.elemType) = some a.elemType := by
  fun_induction mergeFrom a ss with
  | case1 => rfl
  | case2 _ _ _ _ ih => exact ih
  | case3 => rfl

theorem Selection.elemType?_consolidate (e : Selection) :
    e.consolidate.elemType? = e.elemType? := by
  obtain ⟨spans⟩ := e
  cases spans with
  | nil => rfl
  | cons t ts => exact head?_mergeFrom t ts

namespace Graph

variable {g : Graph} {a b r : Span} {ss rs : List Span} {e : Selection} {u v : Values}

theorem isAdjacent_of_resolveSpan {a' b' : Span} (ha : g.resolveSpan a = .ok a')
    (hb : g.resolveSpan b = .ok b') : a'.isAdjacent b' = a.isAdjacent b := by
  obtain ⟨_, _, -, -, -, -, rfl⟩ := resolveSpan_eq_ok_iff.1 ha
  obtain ⟨_, _, -, -, -, -, rfl⟩ := resolveSpan_eq_ok_iff.1 hb
  exact Span.isAdjacent_refresh

/-- A merged span resolves to what its parts resolve to, merged. -/
theorem resolveSpan_merge_iff (hadj : a.isAdjacent b = true) (ht : b.elemType = a.elemType) :
    g.resolveSpan (a.merge b) = .ok r ↔ ∃ a' b', g.resolveSpan a = .ok a' ∧
      g.resolveSpan b = .ok b' ∧ a'.merge b' = r := by
  obtain ⟨ha, hb, hport, hstop⟩ := Span.isAdjacent_iff.1 hadj
  have hends : ∀ size, ((a.merge b).refresh size).stop = (b.refresh size).stop ∧
      (a.refresh size).stop ≤ (b.refresh size).stop := by
    intro size
    obtain ⟨hsa, hla⟩ := Span.refresh_of_isFixed (m := size) ha
    obtain ⟨hsb, hlb⟩ := Span.refresh_of_isFixed (m := size) hb
    simp only [Span.stop] at hstop
    rw [Span.refresh_merge hadj]
    simp only [Span.stop, Span.merge] at *
    omega
  simp only [resolveSpan_eq_ok_iff]
  constructor
  · rintro ⟨o, size, ho, hsize, hto, hle, rfl⟩
    rw [(hends size).1] at hle
    exact ⟨_, _, ⟨o, size, ho, hsize, hto, (hends size).2.trans hle, rfl⟩,
      ⟨o, size, hport ▸ ho, hsize, hto.trans ht.symm, hle, rfl⟩, (Span.refresh_merge hadj).symm⟩
  · rintro ⟨_, _, ⟨o, size, ho, hsize, hto, -, rfl⟩, ⟨o', size', ho', hsize', -, hle, rfl⟩, rfl⟩
    obtain rfl : o = o' := Except.ok.inj (ho.symm.trans (hport ▸ ho'))
    obtain rfl : size = size' := Option.some.inj (hsize.symm.trans hsize')
    exact ⟨o, size, ho, hsize, hto, (hends size).1 ▸ hle, Span.refresh_merge hadj⟩

/-- Merged spans resolve to what the spans resolve to, merged. The cases are those of the merging: what
is resolved is merged in the same places. -/
theorem forall₂_mergeFrom_iff (h : ∀ b ∈ ss, b.elemType = a.elemType) :
    List.Forall₂ (fun x y => g.resolveSpan x = .ok y) (Selection.mergeFrom a ss) rs ↔
      ∃ a' ss', g.resolveSpan a = .ok a' ∧
        List.Forall₂ (fun x y => g.resolveSpan x = .ok y) ss ss' ∧
        Selection.mergeFrom a' ss' = rs := by
  fun_induction Selection.mergeFrom a ss generalizing rs with
  | case1 a =>
      simp only [List.forall₂_cons_left_iff, List.forall₂_nil_left_iff]
      constructor
      · rintro ⟨a', _, ha, rfl, rfl⟩
        exact ⟨a', [], ha, rfl, rfl⟩
      · rintro ⟨a', _, ha, rfl, rfl⟩
        exact ⟨a', [], ha, rfl, rfl⟩
  | case2 a b ss hadj ih =>
      have ht := h b List.mem_cons_self
      rw [ih fun c hc => h c (List.mem_cons_of_mem _ hc)]
      simp only [resolveSpan_merge_iff hadj ht, List.forall₂_cons_left_iff]
      constructor
      · rintro ⟨_, ss', ⟨a', b', ha, hb, rfl⟩, hss, rfl⟩
        have hadj' := (isAdjacent_of_resolveSpan ha hb).trans hadj
        exact ⟨a', _, ha, ⟨b', ss', hb, hss, rfl⟩, by rw [Selection.mergeFrom, if_pos hadj']⟩
      · rintro ⟨a', _, ha, ⟨b', ss', hb, hss, rfl⟩, rfl⟩
        have hadj' := (isAdjacent_of_resolveSpan ha hb).trans hadj
        exact ⟨_, ss', ⟨a', b', ha, hb, rfl⟩, hss, by rw [Selection.mergeFrom, if_pos hadj']⟩
  | case3 a b ss hadj ih =>
      have ht := h b List.mem_cons_self
      have hrest : ∀ c ∈ ss, c.elemType = b.elemType := fun c hc =>
        (h c (List.mem_cons_of_mem _ hc)).trans ht.symm
      simp only [List.forall₂_cons_left_iff, ih hrest]
      constructor
      · rintro ⟨a', _, ha, ⟨b', ss', hb, hss, rfl⟩, rfl⟩
        have hadj' := isAdjacent_of_resolveSpan ha hb ▸ hadj
        exact ⟨a', _, ha, ⟨b', ss', hb, hss, rfl⟩, by rw [Selection.mergeFrom, if_neg hadj']⟩
      · rintro ⟨a', _, ha, ⟨b', ss', hb, hss, rfl⟩, rfl⟩
        have hadj' := isAdjacent_of_resolveSpan ha hb ▸ hadj
        exact ⟨a', _, ha, ⟨b', ss', hb, hss, rfl⟩, by rw [Selection.mergeFrom, if_neg hadj']⟩

theorem resolve_iff_of_uniform {e e' : Selection} (h : e.Uniform) : g.resolve e = .ok e' ↔
    List.Forall₂ (fun x y => g.resolveSpan x = .ok y) e.spans e'.spans := by
  rw [resolve_eq_ok_iff, and_iff_left_iff_imp]
  intro hall
  have htype : ∀ y ∈ e'.spans, ∃ x ∈ e.spans, y.elemType = x.elemType := by
    intro y hy
    obtain ⟨x, hx, hxy⟩ := exists_of_mem_mapM (mapM_eq_ok_iff.2 hall) hy
    obtain ⟨_, _, -, -, -, -, rfl⟩ := resolveSpan_eq_ok_iff.1 hxy
    exact ⟨x, hx, rfl⟩
  intro y hy z hz
  obtain ⟨x, hx, hyx⟩ := htype y hy
  obtain ⟨w, hw, hzw⟩ := htype z hz
  rw [hyx, hzw, h x hx w hw]

/-- Resolving and consolidating can be done in either order, and the one succeeds if the other does. -/
theorem resolve_consolidate_iff {e r : Selection} (h : e.Uniform) :
    g.resolve e.consolidate = .ok r ↔ ∃ e', g.resolve e = .ok e' ∧ e'.consolidate = r := by
  simp only [resolve_iff_of_uniform h, resolve_iff_of_uniform h.consolidate]
  obtain ⟨spans⟩ := e
  obtain ⟨rs⟩ := r
  cases spans with
  | nil =>
      constructor
      · intro hall
        obtain rfl := List.forall₂_nil_left_iff.1 hall
        exact ⟨⟨[]⟩, .nil, rfl⟩
      · rintro ⟨⟨es⟩, hall, he⟩
        obtain rfl := List.forall₂_nil_left_iff.1 hall
        obtain rfl := Selection.mk.inj he
        exact .nil
  | cons a ss =>
      refine (forall₂_mergeFrom_iff fun b hb =>
        h b (List.mem_cons_of_mem _ hb) a List.mem_cons_self).trans ?_
      constructor
      · rintro ⟨a', ss', ha, hss, rfl⟩
        exact ⟨⟨a' :: ss'⟩, .cons ha hss, rfl⟩
      · rintro ⟨⟨es⟩, hall, he⟩
        obtain ⟨a', ss', ha, hss, rfl⟩ := List.forall₂_cons_left_iff.1 hall
        exact ⟨a', ss', ha, hss, Selection.mk.inj he⟩

theorem gatherSpans_merge (h : a.isAdjacent b = true) :
    g.gatherSpans u (a.merge b :: ss) = .ok v ↔ g.gatherSpans u (a :: b :: ss) = .ok v := by
  obtain ⟨-, -, hport, hstop⟩ := Span.isAdjacent_iff.1 h
  have hextend : ∀ (o : Outlet) (w : Values),
      u.extend o.values (a.merge b).start (a.merge b).length = .ok w ↔
        ∃ x, u.extend o.values a.start a.length = .ok x ∧
          x.extend o.values b.start b.length = .ok w := by
    intro o w
    rw [← hstop]
    exact Values.extend_add
  simp only [gatherSpans, bind_eq_ok_iff, hextend, ← hport]
  constructor
  · rintro ⟨o, ho, w, ⟨x, hx, hw⟩, hv⟩
    exact ⟨o, ho, x, hx, o, ho, w, hw, hv⟩
  · rintro ⟨o, ho, x, hx, o', ho', w, hw, hv⟩
    obtain rfl : o = o' := Except.ok.inj (ho.symm.trans ho')
    exact ⟨o, ho, w, ⟨x, hx, hw⟩, hv⟩

theorem gatherSpans_mergeFrom : g.gatherSpans u (Selection.mergeFrom a ss) = .ok v ↔
    g.gatherSpans u (a :: ss) = .ok v := by
  fun_induction Selection.mergeFrom a ss generalizing u with
  | case1 a => rfl
  | case2 a b ss hadj ih => rw [ih, gatherSpans_merge hadj]
  | case3 a b ss _ ih =>
      rw [gatherSpans, gatherSpans.eq_def g u (a :: b :: ss)]
      simp only [bind_eq_ok_iff, ih]

theorem gatherSpans_consolidate :
    g.gatherSpans u e.consolidate.spans = .ok v ↔ g.gatherSpans u e.spans = .ok v := by
  obtain ⟨spans⟩ := e
  cases spans with
  | nil => rfl
  | cons t ts => exact gatherSpans_mergeFrom

theorem gather_consolidate (h : e.Uniform) :
    g.gather e.consolidate = .ok v ↔ g.gather e = .ok v := by
  unfold gather
  simp only [bind_eq_ok_iff, resolve_consolidate_iff h]
  constructor
  · rintro ⟨_, ⟨e', he, rfl⟩, hv⟩
    rw [Selection.elemType?_consolidate, gatherSpans_consolidate] at hv
    exact ⟨e', he, hv⟩
  · rintro ⟨e', he, hv⟩
    refine ⟨_, ⟨e', he, rfl⟩, ?_⟩
    rw [Selection.elemType?_consolidate, gatherSpans_consolidate]
    exact hv

end Graph

namespace Selection

/-- **Consolidating is a normal form.** However a selection was made, and whatever was known of the
outlets then, its consolidation has the same cells, is its own consolidation, has no span adjacent to
the one after it, and in every graph resolves to the consolidation of what the selection resolves to
and gathers the same values. -/
theorem consolidate_normal {e : Selection} (h : e.Made) :
    e.consolidate.cells = e.cells ∧ e.consolidate.size = e.size ∧
      e.consolidate.consolidate = e.consolidate ∧ Separate e.consolidate.spans ∧
      ∀ g : Graph,
        (∀ r, g.resolve e = .ok r → g.resolve e.consolidate = .ok r.consolidate) ∧
        ((∃ r, g.resolve e.consolidate = .ok r) → ∃ r, g.resolve e = .ok r) ∧
        ∀ v, g.gather e.consolidate = .ok v ↔ g.gather e = .ok v := by
  have hcells := cells_consolidate h.uniform
  refine ⟨hcells, ?_, consolidate_of_separate (separate_consolidate e), separate_consolidate e,
    fun g => ⟨fun r hr => ?_, ?_, fun v => Graph.gather_consolidate h.uniform⟩⟩
  · rw [← length_cells, ← length_cells, hcells]
  · exact (Graph.resolve_consolidate_iff h.uniform).2 ⟨r, hr, rfl⟩
  · rintro ⟨r, hr⟩
    obtain ⟨e', he, -⟩ := (Graph.resolve_consolidate_iff h.uniform).1 hr
    exact ⟨e', he⟩

/-- Three spans of a constant, one of them without values, and twice the whole of an input that had
no size yet. -/
def deferred : Selection :=
  ⟨[⟨⟨⟨1, 1⟩, 0⟩, .integer, 0, 1, 3, true⟩, ⟨⟨⟨1, 1⟩, 0⟩, .integer, 1, 0, 3, true⟩,
    ⟨⟨⟨1, 1⟩, 0⟩, .integer, 1, 2, 3, true⟩, ⟨⟨⟨0, 1⟩, 0⟩, .integer, 0, 0, 0, false⟩,
    ⟨⟨⟨0, 1⟩, 0⟩, .integer, 0, 0, 0, false⟩]⟩

def sizedLater : Graph :=
  (Graph.replay [.addNumbered 0 (Builtin.input .integer none).toNode,
    .addNumbered 1 (Builtin.constant (.integers [4, 5, 6])).toNode,
    .compute [⟨1, 1⟩], .setSize ⟨⟨0, 1⟩, 0⟩ 2]).2

theorem consolidate_normal_deferred : deferred.Made ∧ deferred.consolidate.spans.length = 3 ∧
    deferred.consolidate.size = 3 ∧ ∃ r, sizedLater.resolve deferred.consolidate = .ok r ∧
      r.size = 7 ∧ sizedLater.gather deferred.consolidate = .ok (.integers [4, 5, 6, 0, 0, 0, 0]) := by
  have hmade : deferred.Made := .ofSpans (ofSpans_eq_self (by unfold Uniform; decide))
  obtain ⟨-, hsize, -, -, hgraph⟩ := consolidate_normal hmade
  obtain ⟨hresolve, -, hgather⟩ := hgraph sizedLater
  refine ⟨hmade, by decide, hsize.trans (by decide), _, hresolve _ (by cbv), by decide,
    (hgather _).2 (by cbv)⟩

end Selection

end Dataflow
