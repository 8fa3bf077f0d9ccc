import Dataflow.Graph.Selection.Typed
import Dataflow.Proofs.Graph.Resolution

/-!
# Selections as lists of cells

A selection stands for the list of its cells. Merging adjacent spans, cutting a part out, putting
selections together and looking a cell up are all described by what they do to that list, whatever
spans it is made of; spans without cells are no exception. Every selection that these operations make has
one element type.
-/

namespace Dataflow

namespace Span

variable {a b c : Span}

theorem isAdjacent_iff : a.isAdjacent b = true ↔
    a.isFixed = true ∧ b.isFixed = true ∧ a.port = b.port ∧ a.stop = b.start := by
  simp [isAdjacent, and_assoc]

theorem cells_merge (h : a.isAdjacent b = true) (ht : b.elemType = a.elemType) :
    (a.merge b).cells = a.cells ++ b.cells := by
  obtain ⟨-, -, hport, hstart⟩ := isAdjacent_iff.1 h
  unfold cells
  rw [← hport, ht, ← hstart, ← List.map_append, stop, List.range'_append_1]
  rfl

/-- What leads up to a span leads up to the same span with more behind it. -/
theorem isAdjacent_merge : c.isAdjacent (a.merge b) = c.isAdjacent a := rfl

@[simp] theorem start_sub (s : Span) (offset count : Nat) :
    (s.sub offset count).start = s.start + offset := rfl

@[simp] theorem length_sub (s : Span) (offset count : Nat) : (s.sub offset count).length = count :=
  rfl

theorem cells_sub (s : Span) {offset count : Nat} (h : offset + count ≤ s.length) :
    (s.sub offset count).cells = (s.cells.drop offset).take count := by
  refine List.ext_getElem (by simp; omega) fun i _ _ => ?_
  simp [cells, Nat.add_assoc]
  exact ⟨rfl, rfl⟩

end Span

namespace Selection

section Merging

variable {s a : Span} {ss : List Span}

/-- What adjacent spans pass on to the span merged of them, all merged spans have. -/
theorem mergeFrom_induction {P : Span → Prop}
    (hmerge : ∀ a b, P a → P b → a.isAdjacent b = true → P (a.merge b)) (h : ∀ a ∈ s :: ss, P a) :
    ∀ a ∈ mergeFrom s ss, P a := by
  fun_induction mergeFrom s ss with
  | case1 => exact h
  | case2 s t ts hadj ih =>
      obtain ⟨hs, hts⟩ := List.forall_mem_cons.1 h
      obtain ⟨ht, hts⟩ := List.forall_mem_cons.1 hts
      exact ih (List.forall_mem_cons.2 ⟨hmerge s t hs ht hadj, hts⟩)
  | case3 s t ts _ ih =>
      obtain ⟨hs, hts⟩ := List.forall_mem_cons.1 h
      exact List.forall_mem_cons.2 ⟨hs, ih hts⟩

theorem consolidate_induction {P : Span → Prop}
    (hmerge : ∀ a b, P a → P b → a.isAdjacent b = true → P (a.merge b)) {e : Selection}
    (h : ∀ a ∈ e.spans, P a) : ∀ a ∈ e.consolidate.spans, P a := by
  obtain ⟨spans⟩ := e
  cases spans with
  | nil => exact h
  | cons s ss => exact mergeFrom_induction hmerge h

theorem exists_of_mem_consolidate {e : Selection} (ha : a ∈ e.consolidate.spans) :
    ∃ b ∈ e.spans, a.elemType = b.elemType :=
  consolidate_induction (P := fun a => ∃ b ∈ e.spans, a.elemType = b.elemType)
    (fun _ _ ha _ _ => ha) (fun a ha => ⟨a, ha, rfl⟩) a ha

theorem cells_mergeFrom (h : ∀ a ∈ ss, a.elemType = s.elemType) :
    (mergeFrom s ss).flatMap Span.cells = s.cells ++ ss.flatMap Span.cells := by
  fun_induction mergeFrom s ss with
  | case1 s => simp
  | case2 s t ts hadj ih =>
      have ht := h t List.mem_cons_self
      rw [ih fun a ha => h a (List.mem_cons_of_mem _ ha), Span.cells_merge hadj ht,
        List.flatMap_cons, List.append_assoc]
  | case3 s t ts _ ih =>
      have ht := h t List.mem_cons_self
      rw [List.flatMap_cons, List.flatMap_cons,
        ih fun a ha => (h a (List.mem_cons_of_mem _ ha)).trans ht.symm]

def Separate (spans : List Span) : Prop := spans.IsChain fun a b => a.isAdjacent b = false

/-- The first of the merged spans begins where the first span did. -/
theorem separate_mergeFrom (s : Span) (ss : List Span) : Separate (mergeFrom s ss) ∧
    ∀ a ∈ (mergeFrom s ss).head?, ∀ c : Span, c.isAdjacent a = c.isAdjacent s := by
  fun_induction mergeFrom s ss with
  | case1 s => exact ⟨.singleton s, by simp⟩
  | case2 s t ts hadj ih =>
      refine ⟨ih.1, fun a ha c => ?_⟩
      rw [ih.2 a ha c, Span.isAdjacent_merge]
  | case3 s t ts hadj ih =>
      refine ⟨List.isChain_cons.2 ⟨fun a ha => ?_, ih.1⟩, by simp⟩
      rw [ih.2 a ha s]
      exact Bool.eq_false_iff.2 hadj

theorem mergeFrom_of_separate (h : Separate (s :: ss)) : mergeFrom s ss = s :: ss := by
  induction ss generalizing s with
  | nil => rfl
  | cons t ts ih =>
      obtain ⟨hfirst, hrest⟩ := List.isChain_cons_cons.1 h
      rw [mergeFrom, hfirst, ih hrest]
      rfl

variable {e : Selection}

theorem separate_consolidate (e : Selection) : Separate e.consolidate.spans := by
  obtain ⟨spans⟩ := e
  cases spans with
  | nil => exact .nil
  | cons t ts => exact (separate_mergeFrom t ts).1

theorem consolidate_of_separate (h : Separate e.spans) : e.consolidate = e := by
  obtain ⟨spans⟩ := e
  cases spans with
  | nil => rfl
  | cons t ts => exact congrArg Selection.mk (mergeFrom_of_separate h)

theorem cells_consolidate (h : e.Uniform) : e.consolidate.cells = e.cells := by
  obtain ⟨spans⟩ := e
  cases spans with
  | nil => rfl
  | cons t ts =>
      exact cells_mergeFrom fun a ha => h a (List.mem_cons_of_mem _ ha) t List.mem_cons_self

theorem Uniform.consolidate (h : e.Uniform) : e.consolidate.Uniform := by
  intro a ha b hb
  obtain ⟨a', ha', hta⟩ := exists_of_mem_consolidate ha
  obtain ⟨b', hb', htb⟩ := exists_of_mem_consolidate hb
  rw [hta, htb, h a' ha' b' hb']

end Merging

section Cutting

variable {e r : Selection} {spans : List Span} {start count n : Nat}

/-- No span that is cut out is without values. -/
theorem exists_of_mem_cut {a : Span} (ha : a ∈ cut spans start count) :
    ∃ b ∈ spans, ∃ offset length, 0 < length ∧ offset + length ≤ b.length ∧
      a = b.sub offset length := by
  fun_induction cut spans start count with
  | case1 => cases ha
  | case2 => cases ha
  | case3 _ _ _ _ _ _ ih =>
      obtain ⟨b, hb, hab⟩ := ih ha
      exact ⟨b, List.mem_cons_of_mem _ hb, hab⟩
  | case4 s _ _ _ _ _ taken ih =>
      rcases List.mem_cons.1 ha with rfl | ha
      · exact ⟨s, List.mem_cons_self, _, taken, by omega, by omega, rfl⟩
      · obtain ⟨b, hb, hab⟩ := ih ha
        exact ⟨b, List.mem_cons_of_mem _ hb, hab⟩

theorem cells_cut (spans : List Span) (start count : Nat) :
    (cut spans start count).flatMap Span.cells =
      ((spans.flatMap Span.cells).drop start).take count := by
  fun_induction cut spans start count with
  | case1 => simp
  | case2 => simp
  | case3 s ss start count _ hle ih =>
      have hnone : s.cells.drop start = [] := by
        rw [List.drop_eq_nil_iff, length_cells_span]
        exact hle
      rw [ih, List.flatMap_cons, List.drop_append, length_cells_span, hnone, List.nil_append]
  | case4 s ss start count _ hle taken ih =>
      have hlen : (s.cells.drop start).length = s.length - start := by
        rw [List.length_drop, length_cells_span]
      have hrest : count - taken = count - (s.cells.drop start).length := by omega
      have htaken : (s.cells.drop start).take taken = (s.cells.drop start).take count := by
        rw [List.take_eq_take_iff]
        omega
      rw [List.flatMap_cons, ih, Span.cells_sub s (by omega), List.flatMap_cons,
        List.drop_append_of_le_length (by rw [length_cells_span]; omega), List.take_append,
        List.drop_zero, hrest, htaken]

theorem slice_eq_ok_iff :
    e.slice start count = .ok r ↔ start + count ≤ e.size ∧ r = ⟨cut e.spans start count⟩ := by
  unfold slice
  split <;> simp_all [eq_comm]

theorem cells_of_slice (h : e.slice start count = .ok r) :
    r.cells = (e.cells.drop start).take count := by
  obtain ⟨-, rfl⟩ := slice_eq_ok_iff.1 h
  exact cells_cut e.spans start count

theorem findCell_eq (spans : List Span) (n : Nat) :
    findCell spans n = (spans.flatMap Span.cells)[n]? := by
  induction spans generalizing n with
  | nil => rfl
  | cons a spans ih =>
      rw [findCell, List.flatMap_cons, List.getElem?_append, length_cells_span]
      split
      case isTrue hn => simp [Span.cells, hn]
      case isFalse => exact ih _

theorem cell_eq_ok_iff {s : Selection} {n : Nat} {c : Cell} :
    s.cell n = .ok c ↔ s.cells[n]? = some c := by
  rw [cell, findCell_eq, cells]
  cases (s.spans.flatMap Span.cells)[n]? <;> simp

theorem exists_cell_iff : (∃ c, e.cell n = .ok c) ↔ n < e.size := by
  simp only [cell_eq_ok_iff]
  rw [← Option.isSome_iff_exists, isSome_getElem?, length_cells]

end Cutting

section Joining

variable {a b e r : Selection} {t : ElemType}

def OfType (t : ElemType) (e : Selection) : Prop := ∀ a ∈ e.spans, a.elemType = t

theorem OfType.uniform (h : e.OfType t) : e.Uniform := fun a ha b hb => (h a ha).trans (h b hb).symm

theorem OfType.eq_of_elemType? (h : e.OfType t) {u : ElemType} (hu : e.elemType? = some u) :
    u = t := by
  obtain ⟨a, ha, rfl⟩ := Option.map_eq_some_iff.1 hu
  exact h a (List.mem_of_mem_head? ha)

theorem append_eq_ok_iff : a.append b = .ok r ↔
    (∀ u, b.elemType? = some u → ∀ t, a.elemType? = some t → t = u) ∧
      r = ⟨a.spans ++ b.spans⟩ := by
  unfold append
  cases hb : b.elemType? with
  | none => simp [eq_comm, pure, Except.pure]
  | some u =>
      change (a.checkType u >>= fun _ => _) = _ ↔ _
      rw [bind_eq_ok_iff]
      constructor
      · rintro ⟨_, hcheck, h⟩
        refine ⟨fun u' hu t ht => ?_, (Except.ok.inj h).symm⟩
        obtain rfl := Option.some.inj hu
        exact checkType_eq_ok_iff.1 hcheck t ht
      · rintro ⟨h, rfl⟩
        exact ⟨(), checkType_eq_ok_iff.2 (h u rfl), rfl⟩

theorem append_eq_error_iff {f : Fault} : a.append b = .error f ↔
    ∃ t u, a.elemType? = some t ∧ b.elemType? = some u ∧ t ≠ u ∧
      f = .mismatch (.element t) (.element u) := by
  unfold append checkType
  cases a.elemType? with
  | none => cases b.elemType? <;> simp [bind, Except.bind, pure, Except.pure]
  | some t =>
      cases b.elemType? with
      | none => simp [pure, Except.pure]
      | some u =>
          by_cases htu : t = u <;> simp [htu, bind, Except.bind, pure, Except.pure, eq_comm]

theorem OfType.append_eq (ha : a.OfType t) (hb : b.OfType t) :
    a.append b = .ok ⟨a.spans ++ b.spans⟩ :=
  append_eq_ok_iff.2 ⟨fun _ hu _ ht => (ha.eq_of_elemType? ht).trans (hb.eq_of_elemType? hu).symm, rfl⟩

theorem OfType.append (ha : a.OfType t) (hb : b.OfType t) : OfType t ⟨a.spans ++ b.spans⟩ :=
  List.forall_mem_append.2 ⟨ha, hb⟩

theorem OfType.concat_eq {parts : List Selection} (h : ∀ p ∈ parts, p.OfType t) :
    concat parts = .ok ⟨parts.flatMap (·.spans)⟩ := by
  have fold : ∀ (parts : List Selection) (acc : Selection), acc.OfType t →
      (∀ p ∈ parts, p.OfType t) →
      parts.foldlM Selection.append acc = .ok ⟨acc.spans ++ parts.flatMap (·.spans)⟩ := by
    intro parts
    induction parts with
    | nil => intro acc _ _; simp [pure, Except.pure]
    | cons p parts ih =>
        intro acc hacc h
        obtain ⟨hp, hparts⟩ := List.forall_mem_cons.1 h
        rw [List.foldlM_cons, hacc.append_eq hp]
        refine (ih _ (hacc.append hp) hparts).trans ?_
        rw [List.flatMap_cons, List.append_assoc]
  exact (fold parts empty (by simp [OfType, empty]) h).trans (by simp [empty])

theorem cells_join (parts : List Selection) :
    (⟨parts.flatMap (·.spans)⟩ : Selection).cells = parts.flatMap cells :=
  List.flatMap_assoc

theorem ofCells_eq {cs : List Cell} (h : ∀ c ∈ cs, c.elemType = t) :
    ∃ r, ofCells cs = .ok r ∧ r.cells = cs := by
  have htype : OfType t ⟨cs.map Cell.span⟩ := by
    intro a ha
    obtain ⟨c, hc, rfl⟩ := List.mem_map.1 ha
    exact h c hc
  have hspans : ofSpans (cs.map Cell.span) = .ok ⟨cs.map Cell.span⟩ :=
    ofSpans_eq_self htype.uniform
  refine ⟨_, bind_eq_ok_iff.2 ⟨_, hspans, rfl⟩, ?_⟩
  rw [cells_consolidate htype.uniform, cells, List.flatMap_map]
  exact List.flatMap_singleton' cs

end Joining

end Selection

namespace TypedSelection

variable {t : ElemType} {s r : TypedSelection t}

def Typed (s : TypedSelection t) : Prop := ∀ a ∈ s.base.spans, a.elemType = t

theorem ofSelection_eq_ok_iff {b : Selection} : ofSelection t b = .ok s ↔
    (∀ u, b.elemType? = some u → u = t) ∧ s = ⟨b⟩ := by
  unfold ofSelection
  cases b.elemType? with
  | none => simp [eq_comm]
  | some u =>
      by_cases hut : u = t
      · simp [hut, eq_comm]
      · simp [hut]

theorem typed_ofSelection {b : Selection} (h : ofSelection t b = .ok s) (hu : b.Uniform) :
    s.Typed := by
  obtain ⟨htype, rfl⟩ := ofSelection_eq_ok_iff.1 h
  exact fun a ha => htype _ (Selection.elemType?_of_uniform hu ha)

theorem Typed.append (hs : s.Typed) (hr : r.Typed) : (s.append r).Typed := by
  intro a ha
  rcases List.mem_append.1 ha with ha | ha
  · exact hs a ha
  · exact hr a ha

theorem Typed.slice (hs : s.Typed) {start count : Nat} (h : s.slice start count = .ok r) :
    r.Typed := by
  obtain ⟨b, hb, h⟩ := bind_eq_ok_iff.1 h
  obtain rfl := Except.ok.inj h
  unfold Selection.slice at hb
  split at hb
  case isTrue =>
    obtain rfl := Except.ok.inj hb
    intro a ha
    obtain ⟨a', ha', _, _, -, -, rfl⟩ := Selection.exists_of_mem_cut ha
    exact hs a' ha'
  case isFalse => cases hb

theorem Typed.consolidate (hs : s.Typed) : s.consolidate.Typed := by
  intro a ha
  obtain ⟨a', ha', ht⟩ := Selection.exists_of_mem_consolidate ha
  exact ht.trans (hs a' ha')

end TypedSelection

namespace Selection

theorem Uniform.append {a b r : Selection} (ha : a.Uniform) (hb : b.Uniform)
    (h : a.append b = .ok r) : r.Uniform := by
  obtain ⟨htypes, rfl⟩ := append_eq_ok_iff.1 h
  have hcross : ∀ x ∈ a.spans, ∀ y ∈ b.spans, x.elemType = y.elemType := fun x hx y hy =>
    htypes _ (elemType?_of_uniform hb hy) _ (elemType?_of_uniform ha hx)
  intro x hx y hy
  rcases List.mem_append.1 hx with hx | hx <;> rcases List.mem_append.1 hy with hy | hy
  · exact ha x hx y hy
  · exact hcross x hx y hy
  · exact (hcross y hy x hx).symm
  · exact hb x hx y hy

theorem Uniform.concat {parts : List Selection} {e : Selection} (h : ∀ p ∈ parts, p.Uniform)
    (he : concat parts = .ok e) : e.Uniform := by
  have hfold : ∀ acc : Selection, acc.Uniform → parts.foldlM Selection.append acc = .ok e →
      e.Uniform := by
    clear he
    induction parts with
    | nil =>
        intro acc hacc he
        obtain rfl := Except.ok.inj he
        exact hacc
    | cons p parts ih =>
        intro acc hacc he
        obtain ⟨hp, hparts⟩ := List.forall_mem_cons.1 h
        rw [List.foldlM_cons] at he
        obtain ⟨acc', happend, he⟩ := bind_eq_ok_iff.1 he
        exact ih hparts acc' (hacc.append hp happend) he
  exact hfold .empty (fun _ h => by cases h) he

theorem Uniform.slice {a r : Selection} {start count : Nat} (ha : a.Uniform)
    (h : a.slice start count = .ok r) : r.Uniform := by
  obtain ⟨-, rfl⟩ := slice_eq_ok_iff.1 h
  intro x hx y hy
  obtain ⟨x', hx', _, _, -, -, rfl⟩ := exists_of_mem_cut hx
  obtain ⟨y', hy', _, _, -, -, rfl⟩ := exists_of_mem_cut hy
  exact ha x' hx' y' hy'

inductive Made : Selection → Prop
  | ofSpan (a : Span) : Made (ofSpan a)
  | ofSpans {spans : List Span} {r : Selection} : ofSpans spans = .ok r → Made r
  | ofCells {cs : List Cell} {r : Selection} : ofCells cs = .ok r → Made r
  | append {a b r : Selection} : Made a → Made b → a.append b = .ok r → Made r
  | appendTyped {t : ElemType} {a b : Selection} {x y : TypedSelection t} : Made a → Made b →
      TypedSelection.ofSelection t a = .ok x → TypedSelection.ofSelection t b = .ok y →
        Made (x.append y).base
  | consolidate {a : Selection} : Made a → Made a.consolidate
  | slice {a r : Selection} {start count : Nat} : Made a → a.slice start count = .ok r → Made r
  | resolve {g : Graph} {a r : Selection} : Made a → g.resolve a = .ok r → Made r

/-- Whatever is made has one element type. -/
theorem Made.uniform {e : Selection} (h : e.Made) : e.Uniform := by
  induction h with
  | ofSpan a => simp [Uniform, Selection.ofSpan]
  | ofSpans h => exact (ofSpans_eq_ok_iff.1 h).2
  | ofCells h =>
      obtain ⟨s, hs, h⟩ := bind_eq_ok_iff.1 h
      obtain rfl := Except.ok.inj h
      exact (ofSpans_eq_ok_iff.1 hs).2.consolidate
  | append _ _ h iha ihb => exact iha.append ihb h
  | appendTyped _ _ hx hy iha ihb =>
      exact OfType.uniform ((TypedSelection.typed_ofSelection hx iha).append
        (TypedSelection.typed_ofSelection hy ihb))
  | consolidate _ ih => exact ih.consolidate
  | slice _ h ih => exact ih.slice h
  | resolve _ h _ => exact (Graph.resolve_eq_ok_iff.1 h).2

end Selection

end Dataflow
