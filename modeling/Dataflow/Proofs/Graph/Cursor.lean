import Dataflow.Graph.Cursor
import Dataflow.Proofs.Graph.Held

/-!
# What a cursor goes through

A cursor has cells ahead of it, those of its first span from its offset on and then those of the
other spans. Each step takes the first of them off, numbers it and gives its value; where the
outlet of the cell holds no value for it, the step is a breach. So a cursor over a resolved
selection gives one value for each cell, unless a value is missing.
-/

namespace Dataflow

def Graph.real? (g : Graph) (c : Cell) : Option Float :=
  match g.outlet c.port with
  | .ok o => o.values.real? c.index
  | .error _ => none

theorem Values.real?_eq_none_iff {v : Values} {i : Nat} : v.real? i = none ↔ v.length ≤ i := by
  cases v <;> simp [real?, length]

theorem Graph.real?_eq_none_iff {g : Graph} {c : Cell} {o : Outlet} (ho : g.outlet c.port = .ok o) :
    g.real? c = none ↔ o.values.length ≤ c.index := by
  simp only [real?, ho]
  exact Values.real?_eq_none_iff

/-- Where every outlet holds as many values as it says, the cells of a fitting span have values. -/
theorem Graph.Held.real?_ne_none {g : Graph} (h : g.Held) {s : Span} (hs : g.Fits s) {a : Cell}
    (ha : a ∈ s.cells) : g.real? a ≠ none := by
  obtain ⟨o, ho, hsize, -, hstop, -⟩ := hs
  obtain ⟨i, hi, rfl⟩ := List.mem_map.1 ha
  obtain ⟨-, hlen⟩ := h.outlet ho
  rw [Ne, Graph.real?_eq_none_iff ho, hlen, hsize, Option.getD_some]
  have hlt := (List.mem_range'_1.1 hi).2
  change s.start + s.length ≤ s.outletSize at hstop
  change ¬ s.outletSize ≤ i
  omega

namespace Cursor

variable {g : Graph} {c c' : Cursor} {a : Cell} {s : Span} {ss : List Span}

def ahead (c : Cursor) : List Cell := (c.spans.flatMap Span.cells).drop c.offset

structure Stands (g : Graph) (c : Cursor) : Prop where
  offset : ∀ s ∈ c.spans.head?, c.offset < s.length
  spans : ∀ s ∈ c.spans, 0 < s.length
  fits : ∀ s ∈ c.spans, g.Fits s

theorem cells_drop (s : Span) {n : Nat} (hn : n < s.length) :
    s.cells.drop n = ⟨s.port, s.elemType, s.start + n⟩ :: s.cells.drop (n + 1) := by
  have hlen : n < s.cells.length := by rwa [Selection.length_cells_span]
  rw [List.drop_eq_getElem_cons hlen]
  congr 1
  simp [Span.cells]

theorem Stands.ahead_eq (h : c.Stands g) :
    c.ahead = match c.spans with
      | [] => []
      | s :: _ => ⟨s.port, s.elemType, s.start + c.offset⟩ :: c.advance.ahead := by
  obtain ⟨spans, offset, index⟩ := c
  cases spans with
  | nil => simp [ahead]
  | cons s ss =>
      have hoff : offset < s.length := h.offset s rfl
      have hcells : offset ≤ s.cells.length := by
        rw [Selection.length_cells_span]
        exact hoff.le
      simp only [ahead, List.flatMap_cons]
      rw [List.drop_append_of_le_length hcells, cells_drop s hoff, List.cons_append]
      congr 1
      by_cases hlast : s.length ≤ offset + 1
      · have hdrop : s.cells.drop (offset + 1) = [] := by
          rw [List.drop_eq_nil_iff, Selection.length_cells_span]
          exact hlast
        simp [advance, hlast, hdrop]
      · simp only [advance, if_neg hlast, List.flatMap_cons]
        rw [List.drop_append_of_le_length (by rw [Selection.length_cells_span]; omega)]

theorem Stands.advance (h : c.Stands g) : c.advance.Stands g := by
  obtain ⟨spans, offset, index⟩ := c
  cases spans with
  | nil => exact ⟨by simp [Cursor.advance], by simp [Cursor.advance], by simp [Cursor.advance]⟩
  | cons s ss =>
      have hspans := List.forall_mem_cons.1 h.spans
      have hfits := List.forall_mem_cons.1 h.fits
      by_cases hlast : s.length ≤ offset + 1
      · simp only [Cursor.advance, if_pos hlast]
        exact ⟨fun t ht => hspans.2 t (List.mem_of_mem_head? ht), hspans.2, hfits.2⟩
      · simp only [Cursor.advance, if_neg hlast]
        refine ⟨fun t ht => ?_, h.spans, h.fits⟩
        obtain rfl : s = t := Option.some.inj ht
        exact not_le.1 hlast

theorem index_advance (c : Cursor) : c.advance.index = c.index + 1 := by
  unfold advance
  split
  · rfl
  · split <;> rfl

/-- A step takes the first cell off, or it is a breach. -/
theorem Stands.next_eq (h : c.Stands g) :
    c.next g = match c.ahead with
      | [] => .ok none
      | a :: _ =>
        match g.real? a with
        | some x => .ok (some (c.index, x, c.advance))
        | none => .error (.breach .cursorBeyondValues) := by
  rw [h.ahead_eq]
  unfold next isValid current
  cases hs : c.spans with
  | nil => rfl
  | cons s ss =>
      obtain ⟨o, ho, -⟩ := h.fits s (by simp [hs])
      simp only [Graph.real?, ho]
      cases hx : o.values.real? (s.start + c.offset) with
      | none =>
          change (match o.values.real? (s.start + c.offset) with | some x => _ | none => _) >>= _ = _
          rw [hx]
          rfl
      | some x =>
          change (match o.values.real? (s.start + c.offset) with | some x => _ | none => _) >>= _ = _
          rw [hx]
          rfl

theorem Stands.ahead_cases (h : c.Stands g) :
    (c.ahead = [] ∧ c.isValid = false) ∨ ∃ a, c.ahead = a :: c.advance.ahead := by
  have hcells := h.ahead_eq
  cases hs : c.spans with
  | nil =>
      rw [hs] at hcells
      exact Or.inl ⟨hcells, by simp [isValid, hs]⟩
  | cons s ss =>
      rw [hs] at hcells
      exact Or.inr ⟨_, hcells⟩

theorem Stands.exists_span (h : c.Stands g) (ha : a ∈ c.ahead) :
    ∃ s, g.Fits s ∧ a ∈ s.cells := by
  obtain ⟨s, hs, hmem⟩ := List.mem_flatMap.1 (List.mem_of_mem_drop ha)
  exact ⟨s, h.fits s hs, hmem⟩

theorem Stands.take_succ (h : c.Stands g) (n : Nat) :
    c.take g (n + 1) = match c.ahead with
      | [] => .ok ([], c)
      | a :: _ =>
        match g.real? a with
        | some x => (fun p => ((c.index, x) :: p.1, p.2)) <$> c.advance.take g n
        | none => .error (.breach .cursorBeyondValues) := by
  rw [take, h.next_eq]
  rcases h.ahead_cases with ⟨ha, -⟩ | ⟨a, ha⟩
  · rw [ha]
    rfl
  · rw [ha]
    dsimp only
    cases g.real? a with
    | none => rfl
    | some x =>
        change (c.advance.take g n >>= _) = _
        cases c.advance.take g n <;> rfl

/-- A cursor whose cells all have values gives them one after the other and ends. -/
theorem Stands.take_eq_ok (h : c.Stands g) (hv : ∀ a ∈ c.ahead, ∃ x, g.real? a = some x)
    {n : Nat} (hn : c.ahead.length ≤ n) :
    ∃ items c', c.take g n = .ok (items, c') ∧ c'.isValid = false ∧
      List.Forall₂ (fun a item => g.real? a = some item.2) c.ahead items ∧
      items.map Prod.fst = List.range' c.index c.ahead.length := by
  induction n generalizing c with
  | zero =>
      have hnil := List.eq_nil_of_length_eq_zero (Nat.le_zero.1 hn)
      rcases h.ahead_cases with ⟨-, hend⟩ | ⟨a, ha⟩
      · exact ⟨[], c, rfl, hend, by rw [hnil]; exact .nil, by rw [hnil]; rfl⟩
      · rw [hnil] at ha
        cases ha
  | succ n ih =>
      have htake := h.take_succ n
      rcases h.ahead_cases with ⟨ha, hend⟩ | ⟨a, ha⟩
      · rw [ha] at htake ⊢
        exact ⟨[], c, htake, hend, .nil, rfl⟩
      · rw [ha] at htake hv hn ⊢
        obtain ⟨⟨x, hx⟩, hrest⟩ := List.forall_mem_cons.1 hv
        obtain ⟨items, c', hitems, hend, hall, hindex⟩ :=
          ih h.advance hrest (Nat.succ_le_succ_iff.1 hn)
        simp only [hx, hitems] at htake
        refine ⟨(c.index, x) :: items, c', htake, hend, .cons hx hall, ?_⟩
        rw [List.map_cons, hindex, index_advance]
        rfl

/-- A cursor that meets a cell without a value ends in a breach. -/
theorem Stands.take_eq_breach (h : c.Stands g) (ha : a ∈ c.ahead) (hx : g.real? a = none)
    {n : Nat} (hn : c.ahead.length ≤ n) : c.take g n = .error (.breach .cursorBeyondValues) := by
  induction n generalizing c with
  | zero =>
      rw [List.eq_nil_of_length_eq_zero (Nat.le_zero.1 hn)] at ha
      cases ha
  | succ n ih =>
      have htake := h.take_succ n
      rcases h.ahead_cases with ⟨hnil, -⟩ | ⟨b, hb⟩
      · rw [hnil] at ha
        cases ha
      · rw [hb] at htake ha hn
        cases hxb : g.real? b with
        | none =>
            simp only [hxb] at htake
            exact htake
        | some x =>
            have hmem : a ∈ c.advance.ahead := by
              rcases List.mem_cons.1 ha with rfl | hmem
              · cases hxb.symm.trans hx
              · exact hmem
            simp only [hxb, ih h.advance hmem (Nat.succ_le_succ_iff.1 hn)] at htake
            exact htake

theorem flatMap_cells_filter (spans : List Span) :
    (spans.filter (0 < ·.length)).flatMap Span.cells = spans.flatMap Span.cells := by
  induction spans with
  | nil => rfl
  | cons s ss ih =>
      by_cases hs : 0 < s.length
      · rw [List.filter_cons_of_pos (by simpa using hs), List.flatMap_cons, List.flatMap_cons, ih]
      · have hnil : s.cells = [] := by
          rw [← List.length_eq_zero_iff, Selection.length_cells_span]
          omega
        rw [List.filter_cons_of_neg (by simpa using hs), List.flatMap_cons, hnil, ih]
        rfl

/-- A new cursor stands before all cells of the resolved selection. -/
theorem ofSelection_eq_ok {s : Selection} (h : ofSelection g s = .ok c) :
    ∃ r, g.resolve s = .ok r ∧ c.Stands g ∧ c.ahead = r.cells ∧ c.index = 0 := by
  obtain ⟨r, hr, hc⟩ := bind_eq_ok_iff.1 h
  obtain rfl := Except.ok.inj hc
  have hfit := Graph.fitsAll_of_resolve hr
  refine ⟨r, hr, ⟨fun t ht => ?_, fun t ht => ?_, fun t ht => ?_⟩,
    flatMap_cells_filter r.spans, rfl⟩
  · exact of_decide_eq_true (List.mem_filter.1 (List.mem_of_mem_head? ht)).2
  · exact of_decide_eq_true (List.mem_filter.1 ht).2
  · exact hfit.2 t (List.mem_filter.1 ht).1

end Cursor

end Dataflow
