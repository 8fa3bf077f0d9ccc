import Dataflow.Proofs.Graph.Breach

/-!
# Sessions

A session is a transform in use: its input is set, its outputs are computed, and between the calls
that may change the graph its values are gathered and gone through by cursors. Whatever the nodes
write, a request of a session is answered, with two exceptions that depend on the outlets as they
are: the vector of the input has come to have another length than the values that are set, or a
cursor steps on a cell beyond the vector of its outlet. Built-in nodes never lead to either.
-/

namespace Dataflow

open Dataflow.Graph (History)

/-- A transform in use and the cursors that are open on it. -/
structure Session where
  transform : Transform
  cursors : List Cursor := []

namespace Session

inductive Request
  | call (c : Transform.Call)
  | gather (s : Selection)
  | iterate (s : Selection)
  | next (i : Nat)

inductive Answer
  | done
  | values (v : Values)
  | item (x : Option (Nat × Float))

/-- A call closes all cursors: they borrow the graph, which it may change. -/
def serve (u : Session) : Request → Except Fault Answer × Session
  | .call c => ((·.elim .done .values) <$> u.transform.outcome c, ⟨u.transform.after c, []⟩)
  | .gather s => (.values <$> u.transform.graph.gather s, u)
  | .iterate s =>
    match Cursor.ofSelection u.transform.graph s with
    | .ok c => (.ok .done, { u with cursors := u.cursors ++ [c] })
    | .error f => (.error f, u)
  | .next i =>
    match u.cursors[i]? with
    | none => (.ok (.item none), u)
    | some c =>
      match c.next u.transform.graph with
      | .ok none => (.ok (.item none), u)
      | .ok (some (index, x, c)) =>
        (.ok (.item (some (index, x))), { u with cursors := u.cursors.set i c })
      | .error f => (.error f, u)

def after (u : Session) (r : Request) : Session := (u.serve r).2

/-- What a request must not meet: an input vector of another length than the values that are set, or
a cell that its outlet holds no value for. -/
def Exposed (u : Session) : Request → Prop
  | .call (.setInput values) | .call (.compute _ values) => u.transform.Clashes values
  | .next i => ∃ c a, u.cursors[i]? = some c ∧ c.ahead.head? = some a ∧
      u.transform.graph.real? a = none
  | _ => False

structure Steady (u : Session) : Prop where
  contained : u.transform.graph.Contained
  stands : ∀ c ∈ u.cursors, c.Stands u.transform.graph

variable {u : Session} {r : Request}

theorem Steady.after (h : u.Steady) (r : Request) : (u.after r).Steady := by
  cases r with
  | call c => exact ⟨Transform.contained_after h.contained c, by simp [Session.after, serve]⟩
  | gather s => exact h
  | iterate s =>
      simp only [Session.after, serve]
      cases hc : Cursor.ofSelection u.transform.graph s with
      | error f => exact h
      | ok c =>
          obtain ⟨-, -, hstands, -⟩ := Cursor.ofSelection_eq_ok hc
          refine ⟨h.contained, fun d hd => ?_⟩
          rcases List.mem_append.1 hd with hd | hd
          · exact h.stands d hd
          · exact List.mem_singleton.1 hd ▸ hstands
  | next i =>
      simp only [Session.after, serve]
      cases hi : u.cursors[i]? with
      | none => exact h
      | some c =>
          have hc := h.stands c (List.mem_of_getElem? hi)
          simp only [hc.next_eq]
          rcases hc.ahead_cases with ⟨ha, -⟩ | ⟨a, ha⟩
          · rw [ha]
            exact h
          · rw [ha]
            cases hx : u.transform.graph.real? a with
            | none =>
                simp only [hx]
                exact h
            | some x =>
                simp only [hx]
                refine ⟨h.contained, fun d hd => ?_⟩
                rcases List.mem_or_eq_of_mem_set hd with hd | rfl
                · exact h.stands d hd
                · exact hc.advance

theorem Steady.foldl (h : u.Steady) (rs : List Request) : (rs.foldl Session.after u).Steady := by
  induction rs generalizing u with
  | nil => exact h
  | cons r rs ih => exact ih (h.after r)

theorem Steady.breaks_serve_iff (h : u.Steady) : Breaks (u.serve r).1 ↔ u.Exposed r := by
  cases r with
  | call c =>
      change Breaks (_ <$> u.transform.outcome c) ↔ _
      rw [breaks_map_iff]
      cases c with
      | setInput values => exact breaks_map_iff.trans Transform.breaks_setInput_iff
      | computeOutput elemType index =>
          exact iff_of_false
            (mt breaks_map_iff.1 (Transform.not_breaks_computeOutput h.contained elemType index)) id
      | compute elemType values =>
          exact breaks_map_iff.trans (Transform.breaks_compute_iff h.contained elemType)
  | gather s =>
      exact iff_of_false (mt breaks_map_iff.1 (Graph.not_breaks_gather u.transform.graph s)) id
  | iterate s =>
      refine iff_of_false ?_ id
      have hresolve := Graph.not_breaks_resolve u.transform.graph s
      have hopen : ¬ Breaks (Cursor.ofSelection u.transform.graph s) :=
        not_breaks_bind hresolve fun _ _ => not_breaks_ok _
      simp only [serve]
      cases hc : Cursor.ofSelection u.transform.graph s with
      | ok c => exact not_breaks_ok _
      | error f =>
          rintro ⟨b, hb⟩
          exact hopen ⟨b, hc.trans (congrArg _ (Except.error.inj hb))⟩
  | next i =>
      simp only [serve, Exposed]
      cases hi : u.cursors[i]? with
      | none => simp [Breaks]
      | some c =>
          have hc := h.stands c (List.mem_of_getElem? hi)
          simp only [hc.next_eq, Option.some.injEq, ↓existsAndEq, true_and]
          cases ha : c.ahead with
          | nil => simp [Breaks]
          | cons a rest =>
              cases hx : u.transform.graph.real? a with
              | none => simp [Breaks, hx]
              | some x => simp [Breaks, hx]

/-- Nothing is exposed while every outlet holds as many values as it says. -/
theorem Steady.not_exposed (h : u.Steady) (hh : u.transform.graph.Held) : ¬ u.Exposed r := by
  have hclash : ∀ values, ¬ u.transform.Clashes values := by
    rintro values ⟨e, o, he, ho, hsize, -, hlen⟩
    obtain ⟨-, hfull⟩ := hh _ e he o (List.mem_of_getElem? ho)
    exact hlen (hfull.trans hsize.symm)
  cases r with
  | call c =>
      cases c with
      | setInput values => exact hclash values
      | computeOutput elemType index => exact id
      | compute elemType values => exact hclash values
  | gather s => exact id
  | iterate s => exact id
  | next i =>
      rintro ⟨c, a, hi, ha, hx⟩
      obtain ⟨s, hs, hmem⟩ :=
        (h.stands c (List.mem_of_getElem? hi)).exists_span (List.mem_of_mem_head? ha)
      exact hh.real?_ne_none hs hmem hx

/-- A session on a transform of built-in nodes answers every request. -/
theorem not_breaks_of_builtFrom {log : List Key} {graph : Graph} {kind : Key → Builtin}
    {inputs : List (String × Key)} {outputs : List (String × Selection)} {t : Transform}
    (h : History log graph) (hk : graph.BuiltFrom kind)
    (hnew : Transform.new graph inputs outputs = .ok t) (rs : List Request) (r : Request) :
    ¬ Breaks ((rs.foldl after { transform := t }).serve r).1 := by
  obtain ⟨rfl, -⟩ := Transform.new_eq_ok hnew
  have hrun : ∀ (rs : List Request) (u : Session), u.Steady →
      Transform.Follows log kind t u.transform → u.transform.graph.Held →
      (rs.foldl after u).Steady ∧ (rs.foldl after u).transform.graph.Held := by
    intro rs
    induction rs with
    | nil => exact fun u hu _ hh => ⟨hu, hh⟩
    | cons r rs ih =>
        intro u hu hf hh
        have hstep : Transform.Follows log kind t (u.after r).transform ∧
            (u.after r).transform.graph.Held := by
          cases r with
          | call c => exact ⟨hf.after c, hf.held_after hh c⟩
          | gather s => exact ⟨hf, hh⟩
          | iterate s =>
              simp only [after, serve]
              cases Cursor.ofSelection u.transform.graph s <;> exact ⟨hf, hh⟩
          | next i =>
              simp only [after, serve]
              cases u.cursors[i]? with
              | none => exact ⟨hf, hh⟩
              | some c =>
                  dsimp only
                  split <;> exact ⟨hf, hh⟩
        exact ih _ (hu.after r) hstep.1 hstep.2
  obtain ⟨hu, hh⟩ := hrun rs { transform := t } ⟨(h.built hk).contained, by simp⟩
    ⟨rfl, rfl, .refl h hk⟩ (h.held hk)
  exact mt hu.breaks_serve_iff.1 (hu.not_exposed hh)

/-- Whatever the nodes write, in a session each request is answered unless it is exposed. A cursor
that could be opened gives the values of the resolved selection one by one, if the outlets have all
of them, and ends in a breach if not. -/
theorem breaks_serve_iff_exposed (t : Transform) (h : t.graph.Contained) (rs : List Request) :
    let u := rs.foldl after { transform := t }
    let g := u.transform.graph
    (∀ r, Breaks (u.serve r).1 ↔ u.Exposed r) ∧
    ∀ s c, Cursor.ofSelection g s = .ok c → ∃ r, g.resolve s = .ok r ∧
      ((∀ a ∈ r.cells, g.real? a ≠ none) → ∀ n, r.size ≤ n →
        ∃ items c', c.take g n = .ok (items, c') ∧ c'.isValid = false ∧
          items.map Prod.fst = List.range r.size ∧
          List.Forall₂ (fun a item => g.real? a = some item.2) r.cells items) ∧
      ((∃ a ∈ r.cells, g.real? a = none) → ∀ n, r.size ≤ n →
        c.take g n = .error (.breach .cursorBeyondValues)) := by
  intro u g
  have hu : u.Steady := Steady.foldl ⟨h, by simp⟩ rs
  refine ⟨fun r => hu.breaks_serve_iff, fun s c hc => ?_⟩
  obtain ⟨r, hr, hstands, hahead, hindex⟩ := Cursor.ofSelection_eq_ok hc
  have hlen : c.ahead.length = r.size := by rw [hahead, Selection.length_cells]
  refine ⟨r, hr, fun hv n hn => ?_, fun ⟨a, ha, hx⟩ n hn => ?_⟩
  · have hsome : ∀ a ∈ c.ahead, ∃ x, g.real? a = some x := fun a ha =>
      Option.ne_none_iff_exists'.1 (hv a (hahead ▸ ha))
    obtain ⟨items, c', htake, hend, hall, hitems⟩ := hstands.take_eq_ok hsome (hlen ▸ hn)
    rw [hindex, hlen, ← List.range_eq_range'] at hitems
    exact ⟨items, c', htake, hend, hitems, hahead ▸ hall⟩
  · exact hstands.take_eq_breach (hahead ▸ ha) hx (hlen ▸ hn)

/-- An input node that is said to have two values and computes none. -/
def shortInput : Script where
  typeName := "ShortInput"
  isInput := true
  outlets := [⟨"output", .boolean, some 2⟩]
  compute := [.put 0 (.booleans [])]

def shortening : Graph := (Graph.replay [.addNumbered 0 shortInput.toNode]).2

def shortOutput : Selection := .ofSpan ⟨⟨⟨0, 1⟩, 0⟩, .boolean, 0, 2, 2, false⟩

def shortener : Transform := ⟨shortening, "input", ⟨0, 1⟩, [("output", shortOutput)]⟩

theorem contained_shortener : shortener.graph.Contained := by
  intro k e he
  have hk : k ∈ [(⟨0, 1⟩ : Key)] :=
    ((Graph.history_replay _).sound.mem_order_iff k).2 (Graph.live_of_entry he)
  obtain rfl := List.mem_singleton.1 hk
  obtain rfl := Option.some.inj he
  refine Script.contained rfl fun a ha => ?_
  obtain rfl := List.mem_singleton.1 ha
  exact Nat.zero_lt_one

/-- Once the input has been computed, its values can no longer be set, and a cursor that is opened
over them cannot be stepped. -/
theorem exposed_shortener :
    Transform.new shortening [("input", ⟨0, 1⟩)] shortener.outputs = .ok shortener ∧
    ([.call (.computeOutput .boolean 0)].foldl after { transform := shortener }).Exposed
      (.call (.setInput (.booleans [true, false]))) ∧
    ([.call (.computeOutput .boolean 0), .iterate shortOutput].foldl after
      { transform := shortener }).Exposed (.next 0) := by
  refine ⟨by cbv, ?_, ?_⟩
  · have hheld : (fun o => (o.size, o.values.elemType, o.values.length)) <$>
        ([.call (.computeOutput .boolean 0)].foldl after
          { transform := shortener }).transform.graph.outlet
          ⟨([.call (.computeOutput .boolean 0)].foldl after
            { transform := shortener }).transform.input, 0⟩ = .ok (some 2, .boolean, 0) := by
      cbv
    obtain ⟨o, ho, hheld⟩ := map_eq_ok_iff.1 hheld
    obtain ⟨e, he, ho⟩ := Graph.outlet_eq_ok_iff.1 ho
    obtain ⟨hsize, htype, hlen⟩ := by simpa only [Prod.mk.injEq] using hheld
    exact ⟨e, o, he, ho, by rw [hsize]; rfl, htype, by rw [hlen]; decide⟩
  · have hahead : ([.call (.computeOutput .boolean 0), .iterate shortOutput].foldl after
        { transform := shortener }).cursors.map Cursor.ahead =
        [[⟨⟨⟨0, 1⟩, 0⟩, .boolean, 0⟩, ⟨⟨⟨0, 1⟩, 0⟩, .boolean, 1⟩]] := by
      cbv
    obtain ⟨c, hc, hahead⟩ := List.map_eq_singleton_iff.1 hahead
    exact ⟨c, _, by rw [hc]; rfl, by rw [hahead]; rfl, by cbv⟩

theorem breaks_shortener :
    Breaks (([.call (.computeOutput .boolean 0)].foldl after { transform := shortener }).serve
      (.call (.setInput (.booleans [true, false])))).1 ∧
    Breaks (([.call (.computeOutput .boolean 0), .iterate shortOutput].foldl after
      { transform := shortener }).serve (.next 0)).1 := by
  have h := breaks_serve_iff_exposed shortener contained_shortener
  exact ⟨((h _).1 _).2 exposed_shortener.2.1, ((h _).1 _).2 exposed_shortener.2.2⟩

theorem not_always_answered : ¬ ∀ t : Transform, t.graph.Contained →
    ∀ (rs : List Request) (r : Request), ¬ Breaks ((rs.foldl after { transform := t }).serve r).1 := by
  intro hall
  have hu : Steady { transform := shortener } := ⟨contained_shortener, by simp⟩
  exact hall shortener contained_shortener _ _
    ((hu.foldl _).breaks_serve_iff.2 exposed_shortener.2.2)

end Session

end Dataflow
