import Dataflow.Graph.Basic
import Dataflow.Proofs.Outcome

/-!
# What it means to resolve

A span fits a graph when it lies in an outlet of its type and of the size it was resolved for.
Resolving succeeds exactly on what can be made to fit, and its result fits; what fits resolves to
itself. Whether a span fits depends on the outlet it reads and not on the values there.
-/

namespace Dataflow

def Selection.Uniform (s : Selection) : Prop :=
  ∀ a ∈ s.spans, ∀ b ∈ s.spans, a.elemType = b.elemType

namespace Selection

theorem checkType_eq_ok_iff {s : Selection} {t : ElemType} :
    s.checkType t = .ok () ↔ ∀ u, s.elemType? = some u → u = t := by
  unfold checkType
  cases h : s.elemType? with
  | none => simp
  | some u =>
      by_cases hu : u = t
      · simp [hu]
      · simp [hu]

theorem elemType?_of_uniform {s : Selection} (h : s.Uniform) {a : Span} (ha : a ∈ s.spans) :
    s.elemType? = some a.elemType := by
  obtain ⟨spans⟩ := s
  cases spans with
  | nil => cases ha
  | cons b spans => exact congrArg some (h b (by simp) a ha)

theorem foldlM_addSpan_iff {spans : List Span} {acc r : Selection} (hacc : acc.Uniform) :
    spans.foldlM addSpan acc = .ok r ↔ r.spans = acc.spans ++ spans ∧ r.Uniform := by
  induction spans generalizing acc with
  | nil =>
      rw [List.foldlM_nil]
      constructor
      · intro h
        obtain rfl := Except.ok.inj h
        exact ⟨by simp, hacc⟩
      · rintro ⟨h, -⟩
        obtain ⟨rs⟩ := r
        obtain ⟨as⟩ := acc
        simp only [List.append_nil] at h
        rw [h]
        rfl
  | cons s spans ih =>
      rw [List.foldlM_cons, bind_eq_ok_iff]
      constructor
      · rintro ⟨next, hnext, h⟩
        obtain ⟨_, hcheck, hnext⟩ := bind_eq_ok_iff.1 hnext
        obtain rfl : (⟨acc.spans ++ [s]⟩ : Selection) = next := Except.ok.inj hnext
        have hs : ∀ a ∈ acc.spans, a.elemType = s.elemType := fun a ha =>
          checkType_eq_ok_iff.1 hcheck _ (elemType?_of_uniform hacc ha)
        have hu : Uniform ⟨acc.spans ++ [s]⟩ := by
          intro a ha b hb
          simp only [List.mem_append, List.mem_singleton] at ha hb
          rcases ha with ha | rfl <;> rcases hb with hb | rfl
          · exact hacc a ha b hb
          · exact hs a ha
          · exact (hs b hb).symm
          · rfl
        obtain ⟨hr, hru⟩ := (ih hu).1 h
        exact ⟨by simpa using hr, hru⟩
      · rintro ⟨hr, hru⟩
        have hmem : ∀ a ∈ acc.spans ++ [s], a ∈ r.spans := by
          intro a ha
          rw [hr]
          simp only [List.mem_append, List.mem_cons] at ha ⊢
          tauto
        have hu : Uniform ⟨acc.spans ++ [s]⟩ := fun a ha b hb =>
          hru a (hmem a ha) b (hmem b hb)
        refine ⟨⟨acc.spans ++ [s]⟩, ?_, (ih hu).2 ⟨by simpa using hr, hru⟩⟩
        refine bind_eq_ok_iff.2 ⟨(), checkType_eq_ok_iff.2 ?_, rfl⟩
        intro u hu'
        obtain ⟨a, ha, rfl⟩ : ∃ a ∈ acc.spans, a.elemType = u := by
          obtain ⟨as⟩ := acc
          cases as with
          | nil => simp [elemType?] at hu'
          | cons b as => exact ⟨b, by simp, by simpa [elemType?] using hu'⟩
        exact hu a (by simp [ha]) s (by simp)

theorem ofSpans_eq_ok_iff {spans : List Span} {r : Selection} :
    ofSpans spans = .ok r ↔ r.spans = spans ∧ r.Uniform := by
  have h : spans.foldlM addSpan empty = .ok r ↔ _ :=
    foldlM_addSpan_iff fun _ ha => by simp [empty] at ha
  simpa [ofSpans, empty] using h

theorem ofSpans_eq_self {s : Selection} (h : s.Uniform) : ofSpans s.spans = .ok s :=
  ofSpans_eq_ok_iff.2 ⟨rfl, h⟩

theorem eq_mismatch_of_ofSpans_eq_error {spans : List Span} {f : Fault}
    (h : ofSpans spans = .error f) : ∃ t u, f = .mismatch (.element t) (.element u) := by
  unfold ofSpans at h
  generalize empty = acc at h
  induction spans generalizing acc with
  | nil => cases h
  | cons s spans ih =>
      rw [List.foldlM_cons] at h
      rcases bind_eq_error_iff.1 h with h | ⟨acc', -, h⟩
      · rcases bind_eq_error_iff.1 h with h | ⟨_, -, h⟩
        · unfold checkType at h
          split at h
          · split at h
            · cases h
            · exact ⟨_, _, (Except.error.inj h).symm⟩
          · cases h
        · cases h
      · exact ih acc' h

end Selection

/-- A span that follows its outlet begins where the outlet does. -/
def Span.Tracks (s : Span) : Prop := s.isFixed = false → s.start = 0

/-- Only the last size counts. -/
@[simp] theorem Span.refresh_refresh (s : Span) (m n : Nat) :
    (s.refresh m).refresh n = s.refresh n := by
  cases h : s.isFixed <;> simp [refresh, h]

def Outlet.blank (o : Outlet) : Outlet := o.hold (.booleans [])

theorem Outlet.eq_of_blank {o o' : Outlet} (h : o'.blank = o.blank) :
    o'.name = o.name ∧ o'.port = o.port ∧ o'.elemType = o.elemType ∧ o'.size = o.size := by
  simpa [blank, hold] using h

def Entry.blank (e : Entry) : Entry := { e with outlets := e.outlets.map Outlet.blank }

namespace Graph

def Live (g : Graph) (k : Key) : Prop := (g.entry? k).isSome

theorem live_of_entry {g : Graph} {k : Key} {e : Entry} (h : g.entry? k = some e) : g.Live k := by
  simp [Live, h]

theorem Live.exists_entry {g : Graph} {k : Key} (h : g.Live k) : ∃ e, g.entry? k = some e :=
  Option.isSome_iff_exists.1 h

theorem outlet_eq_ok_iff {g : Graph} {p : Port} {o : Outlet} :
    g.outlet p = .ok o ↔ ∃ e, g.entry? p.node = some e ∧ e.outlets[p.index]? = some o := by
  unfold outlet
  cases g.entry? p.node with
  | none => simp
  | some e =>
      cases ho : e.outlets[p.index]? with
      | none => simp [ho]
      | some o' => simp [ho]

theorem live_of_outlet {g : Graph} {p : Port} {o : Outlet} (h : g.outlet p = .ok o) :
    g.Live p.node := by
  obtain ⟨e, he, _⟩ := outlet_eq_ok_iff.1 h
  exact live_of_entry he

/-- The span lies in an outlet of its type and of the size it was resolved for. -/
def Fits (g : Graph) (s : Span) : Prop :=
  ∃ o, g.outlet s.port = .ok o ∧ o.size = some s.outletSize ∧ o.elemType = s.elemType ∧
    s.stop ≤ s.outletSize ∧ s.refresh s.outletSize = s

theorem Fits.live {g : Graph} {s : Span} (h : g.Fits s) : g.Live s.port.node := by
  obtain ⟨o, ho, _⟩ := h
  exact live_of_outlet ho

theorem Fits.of_blank {g g' : Graph} {s : Span} (h : g.Fits s)
    (hsame : ∀ o, g.outlet s.port = .ok o → ∃ o', g'.outlet s.port = .ok o' ∧ o'.blank = o.blank) :
    g'.Fits s := by
  obtain ⟨o, ho, hsize, htype, hstop⟩ := h
  obtain ⟨o', ho', hb⟩ := hsame o ho
  obtain ⟨-, -, ht, hs⟩ := Outlet.eq_of_blank hb
  exact ⟨o', ho', hs.trans hsize, ht.trans htype, hstop⟩

theorem resolveSpan_eq_ok_iff {g : Graph} {s r : Span} :
    g.resolveSpan s = .ok r ↔ ∃ o size, g.outlet s.port = .ok o ∧ o.size = some size ∧
      o.elemType = s.elemType ∧ (s.refresh size).stop ≤ size ∧ s.refresh size = r := by
  unfold resolveSpan
  rw [bind_eq_ok_iff]
  constructor
  · rintro ⟨o, ho, h⟩
    cases hsize : o.size with
    | none =>
        rw [hsize] at h
        cases h
    | some size =>
        simp only [hsize] at h
        by_cases ht : o.elemType = s.elemType
        · by_cases hstop : size < (s.refresh size).stop
          · simp [ht, hstop, bind, Except.bind, throw, throwThe, MonadExceptOf.throw] at h
          · simp only [ht, hstop, ne_eq, not_true_eq_false, if_false] at h
            exact ⟨o, size, ho, hsize, ht, Nat.le_of_not_lt hstop, Except.ok.inj h⟩
        · simp [ht, bind, Except.bind, throw, throwThe, MonadExceptOf.throw] at h
  · rintro ⟨o, size, ho, hsize, ht, hstop, rfl⟩
    refine ⟨o, ho, ?_⟩
    simp only [hsize, ht, Nat.not_lt.2 hstop, ne_eq, not_true_eq_false, if_false]
    rfl

theorem fits_of_resolveSpan {g : Graph} {s r : Span} (h : g.resolveSpan s = .ok r) :
    g.Fits r ∧ r.port = s.port := by
  obtain ⟨o, size, ho, hsize, ht, hstop, rfl⟩ := resolveSpan_eq_ok_iff.1 h
  exact ⟨⟨o, ho, hsize, ht, hstop, s.refresh_refresh size size⟩, rfl⟩

theorem resolveSpan_of_fits {g : Graph} {s : Span} (h : g.Fits s) : g.resolveSpan s = .ok s := by
  obtain ⟨o, ho, hsize, ht, hstop, hself⟩ := h
  exact resolveSpan_eq_ok_iff.2 ⟨o, s.outletSize, ho, hsize, ht, hself.symm ▸ hstop, hself⟩

/-- Every span fits, and all have one element type. -/
def FitsAll (g : Graph) (s : Selection) : Prop := s.Uniform ∧ ∀ a ∈ s.spans, g.Fits a

theorem resolve_eq_ok_iff {g : Graph} {s r : Selection} :
    g.resolve s = .ok r ↔
      List.Forall₂ (fun a b => g.resolveSpan a = .ok b) s.spans r.spans ∧ r.Uniform := by
  unfold resolve
  rw [bind_eq_ok_iff]
  constructor
  · rintro ⟨spans, hspans, h⟩
    obtain ⟨rfl, hu⟩ := Selection.ofSpans_eq_ok_iff.1 h
    exact ⟨mapM_eq_ok_iff.1 hspans, hu⟩
  · rintro ⟨hspans, hu⟩
    exact ⟨r.spans, mapM_eq_ok_iff.2 hspans, Selection.ofSpans_eq_self hu⟩

theorem fitsAll_of_resolve {g : Graph} {s r : Selection} (h : g.resolve s = .ok r) :
    g.FitsAll r := by
  obtain ⟨hspans, hu⟩ := resolve_eq_ok_iff.1 h
  refine ⟨hu, fun b hb => ?_⟩
  obtain ⟨a, -, hab⟩ := exists_of_mem_mapM (mapM_eq_ok_iff.2 hspans) hb
  exact (fits_of_resolveSpan hab).1

theorem map_port_of_resolve {g : Graph} {s r : Selection} (h : g.resolve s = .ok r) :
    r.spans.map (·.port) = s.spans.map (·.port) := by
  have hspans := (resolve_eq_ok_iff.1 h).1
  generalize s.spans = as, r.spans = bs at hspans ⊢
  induction hspans with
  | nil => rfl
  | cons hab _ ih => rw [List.map_cons, List.map_cons, ih, (fits_of_resolveSpan hab).2]

theorem resolve_of_fitsAll {g : Graph} {s : Selection} (h : g.FitsAll s) :
    g.resolve s = .ok s := by
  refine resolve_eq_ok_iff.2 ⟨?_, h.1⟩
  rw [List.forall₂_same]
  exact fun a ha => resolveSpan_of_fits (h.2 a ha)

theorem resolveInlet_eq_ok_iff {g : Graph} {i j : Inlet} :
    g.resolveInlet i = .ok j ↔ g.resolve i.selection = .ok j.selection ∧ j.name = i.name := by
  unfold resolveInlet
  rw [bind_eq_ok_iff]
  constructor
  · rintro ⟨r, hr, h⟩
    obtain rfl := Except.ok.inj h
    exact ⟨hr, rfl⟩
  · rintro ⟨hr, hn⟩
    refine ⟨j.selection, hr, ?_⟩
    obtain ⟨name, selection⟩ := j
    obtain rfl : name = i.name := hn
    rfl

end Graph

end Dataflow
