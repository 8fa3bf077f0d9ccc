import Dataflow.Proofs.Graph.Cursor
import Dataflow.Proofs.Graph.Elements

/-!
# Going through a selection and gathering it

A cursor gives one by one, with its position, what gathering the selection gives at once as reals.
Where a cursor stands on a list of reals is an invariant of its steps: the reals of the cells ahead of
it are those of the list from this position on. All that a cursor answers at a position follows from
it. In a graph of built-in nodes every outlet holds as many values as it says, so a new cursor stands at
the beginning of what is gathered.
-/

namespace Dataflow

open Dataflow.Graph (History)

namespace Values

theorem toReals_eq (v : Values) : v.toReals = v.scalars.map Scalar.toReal := by
  cases v <;> simp [toReals, scalars, Scalar.toReal, Function.comp_def]

theorem real?_eq (v : Values) (i : Nat) : v.real? i = v.scalars[i]?.map Scalar.toReal := by
  cases v <;> simp [real?, scalars, Scalar.toReal, Function.comp_def]

@[simp] theorem length_toReals (v : Values) : v.toReals.length = v.length := by
  rw [toReals_eq, List.length_map, length_scalars]

end Values

namespace Graph

variable {g : Graph} {e r : Selection} {v : Values}

theorem real?_eq (g : Graph) (c : Cell) : g.real? c = (g.scalarAt c).map Scalar.toReal := by
  unfold real? scalarAt
  cases g.outlet c.port with
  | error f => rfl
  | ok o => exact o.values.real?_eq c.index

/-- What is gathered is in its order what the cells hold. -/
theorem forall₂_real?_of_gather (hfit : g.FitsAll e) (h : g.gather e = .ok v) :
    List.Forall₂ (fun a x => g.real? a = some x) e.cells v.toReals := by
  have hcells : e.cells.map g.real? = v.toReals.map some := calc
    e.cells.map g.real? = (e.cells.map g.scalarAt).map (Option.map Scalar.toReal) := by
      rw [List.map_map]
      exact List.map_congr_left fun c _ => g.real?_eq c
    _ = v.toReals.map some := by
      rw [← scalars_of_gather hfit h, Values.toReals_eq, List.map_map, List.map_map]
      rfl
  rw [← List.forall₂_eq_eq_eq, List.forall₂_map_left_iff, List.forall₂_map_right_iff] at hcells
  exact hcells

theorem gather_of_resolve (h : g.resolve e = .ok r) : g.gather r = g.gather e := by
  unfold gather
  rw [h, resolve_of_fitsAll (fitsAll_of_resolve h)]

end Graph

namespace Cursor

variable {g : Graph} {c : Cursor} {xs : List Float} {k : Nat}

theorem length_ahead (c : Cursor) : c.ahead.length = c.remaining := by
  rw [ahead, List.length_drop, remaining, ← Selection.length_cells]
  rfl

theorem Stands.isValid_iff (h : c.Stands g) : c.isValid = true ↔ c.ahead ≠ [] := by
  have hcells := h.ahead_eq
  cases hs : c.spans with
  | nil => simp [isValid, ahead, hs]
  | cons s ss =>
      rw [hs] at hcells
      simp [isValid, hs, hcells]

/-- A step from a valid cursor does not pass the end of the spans. -/
theorem Stands.offset_advance_le (h : c.Stands g) (hvalid : c.isValid = true) :
    c.advance.offset ≤ Selection.size ⟨c.advance.spans⟩ := by
  obtain ⟨spans, offset, index⟩ := c
  cases spans with
  | nil => cases hvalid
  | cons s ss =>
      have hoff : offset < s.length := h.offset s rfl
      by_cases hlast : s.length ≤ offset + 1
      · simp only [Cursor.advance, if_pos hlast]
        exact Nat.zero_le _
      · simp only [Cursor.advance, if_neg hlast]
        exact le_trans hoff (Nat.le_add_right _ _)

structure StandsAt (g : Graph) (xs : List Float) (k : Nat) (c : Cursor) : Prop where
  stands : c.Stands g
  offset : c.offset ≤ Selection.size ⟨c.spans⟩
  ahead : List.Forall₂ (fun a x => g.real? a = some x) c.ahead (xs.drop k)
  index : k < xs.length → c.index = k

theorem StandsAt.remaining_eq (h : c.StandsAt g xs k) : c.remaining = xs.length - k := by
  rw [← length_ahead, h.ahead.length_eq, List.length_drop]

theorem StandsAt.isValid_eq (h : c.StandsAt g xs k) : c.isValid = decide (k < xs.length) := by
  have hlen := h.remaining_eq
  rw [← length_ahead] at hlen
  rw [Bool.eq_iff_iff, h.stands.isValid_iff, decide_eq_true_iff, ← List.length_pos_iff_ne_nil]
  omega

/-- Before the end a step gives the item of this position and moves on by one. -/
theorem StandsAt.next_of_lt (h : c.StandsAt g xs k) (hk : k < xs.length) :
    c.current g = .ok (k, xs[k]) ∧ c.next g = .ok (some (k, xs[k], c.advance)) ∧
      c.advance.StandsAt g xs (k + 1) := by
  have hall := h.ahead
  rw [List.drop_eq_getElem_cons hk] at hall
  rcases h.stands.ahead_cases with ⟨hnil, -⟩ | ⟨a, ha⟩
  · rw [hnil] at hall
    cases hall
  · rw [ha] at hall
    obtain ⟨hx, hrest⟩ := List.forall₂_cons.1 hall
    have hnext : c.next g = .ok (some (k, xs[k], c.advance)) := by
      rw [h.stands.next_eq, ha]
      simp only [hx, h.index hk]
    have hvalid : c.isValid = true := by rw [h.isValid_eq, decide_eq_true hk]
    refine ⟨?_, hnext, h.stands.advance, h.stands.offset_advance_le hvalid, hrest, fun _ => ?_⟩
    · unfold next at hnext
      rw [hvalid] at hnext
      obtain ⟨⟨i, x⟩, hcurrent, hitem⟩ := bind_eq_ok_iff.1 hnext
      simp only [pure, Except.pure, Except.ok.injEq, Option.some.injEq, Prod.mk.injEq] at hitem
      rw [hcurrent, hitem.1, hitem.2.1]
    · rw [index_advance, h.index hk]

theorem StandsAt.next_of_le (h : c.StandsAt g xs k) (hk : xs.length ≤ k) : c.next g = .ok none := by
  have hnil : c.ahead = [] := by
    rw [← List.length_eq_zero_iff, length_ahead, h.remaining_eq, Nat.sub_eq_zero_of_le hk]
  rw [h.stands.next_eq, hnil]

/-- Any number of steps gives as many items from the position on, as far as there are any. -/
theorem StandsAt.take (h : c.StandsAt g xs k) (n : Nat) :
    ∃ c', c.take g n = .ok (((xs.mapIdx Prod.mk).drop k).take n, c') ∧ c'.StandsAt g xs (k + n) := by
  induction n generalizing c k with
  | zero => exact ⟨c, rfl, h⟩
  | succ n ih =>
      rcases lt_or_ge k xs.length with hk | hk
      · obtain ⟨-, hnext, hadvance⟩ := h.next_of_lt hk
        obtain ⟨c', htake, hc'⟩ := ih hadvance
        refine ⟨c', ?_, Nat.add_right_comm k 1 n ▸ hc'⟩
        have hlen : k < (xs.mapIdx Prod.mk).length := by simpa using hk
        rw [Cursor.take, hnext, List.drop_eq_getElem_cons hlen, List.take_succ_cons]
        simp [bind, Except.bind, htake, pure, Except.pure]
      · refine ⟨c, ?_, h.stands, h.offset, ?_, fun hlt => by omega⟩
        · rw [Cursor.take, h.next_of_le hk, List.drop_of_length_le (by simpa using hk)]
          rfl
        · have hall := h.ahead
          rw [List.drop_of_length_le hk] at hall
          rwa [List.drop_of_length_le (by omega)]

/-- The cursor gives the pairs of the list and then ends. After `k` steps it has given the first `k` of
them and knows how many are left, without having passed the end of its spans; if there is another pair it
is valid, shows it and gives it next; if there is none it gives none, however often it is asked. -/
def Traverses (g : Graph) (c : Cursor) (xs : List Float) : Prop :=
  ∀ k, ∃ c', c.take g k = .ok ((xs.mapIdx Prod.mk).take k, c') ∧
    c'.isValid = decide (k < xs.length) ∧ c'.remaining = xs.length - k ∧
    c'.offset ≤ Selection.size ⟨c'.spans⟩ ∧
    (∀ x, xs[k]? = some x → c'.current g = .ok (k, x) ∧ ∃ c'', c'.next g = .ok (some (k, x, c''))) ∧
    (xs.length ≤ k → c'.next g = .ok none)

theorem StandsAt.traverses (h : c.StandsAt g xs 0) : c.Traverses g xs := by
  intro k
  obtain ⟨c', htake, hc'⟩ := h.take k
  rw [Nat.zero_add] at hc'
  refine ⟨c', htake, hc'.isValid_eq, hc'.remaining_eq, hc'.offset, fun x hx => ?_, hc'.next_of_le⟩
  obtain ⟨hk, rfl⟩ := List.getElem?_eq_some_iff.1 hx
  obtain ⟨hcurrent, hnext, -⟩ := hc'.next_of_lt hk
  exact ⟨hcurrent, _, hnext⟩

end Cursor

namespace Graph

variable {g : Graph} {e r : Selection}

theorem Held.traverses (hh : g.Held) (hr : g.resolve e = .ok r) :
    ∃ c v, Cursor.ofSelection g e = .ok c ∧ g.gather e = .ok v ∧ v.toReals.length = r.size ∧
      c.Traverses g v.toReals := by
  have hfit := fitsAll_of_resolve hr
  obtain ⟨v, hv, -, hlen⟩ := hh.exists_gather hfit
  have hc : Cursor.ofSelection g e = .ok (Cursor.ofSpans r.spans) := bind_eq_ok_iff.2 ⟨r, hr, rfl⟩
  obtain ⟨r', hr', hstands, hahead, hindex⟩ := Cursor.ofSelection_eq_ok hc
  obtain rfl := Except.ok.inj (hr.symm.trans hr')
  refine ⟨_, v, hc, gather_of_resolve hr ▸ hv, by rw [Values.length_toReals, hlen], ?_⟩
  refine Cursor.StandsAt.traverses ⟨hstands, Nat.zero_le _, ?_, fun _ => hindex⟩
  rw [hahead]
  exact forall₂_real?_of_gather hfit hv

end Graph

/-- **A cursor gives what is gathered.** However a graph of built-in nodes came about, whatever was
refused or failed on the way, and whatever a transform of it was asked for: a cursor over a selection
that resolves gives the gathered values as reals, each with its position, and ends behind the last. -/
theorem Transform.traverses_gathered {log : List Key} {kind : Key → Builtin} (t : Transform)
    (h : History log t.graph) (hk : t.graph.BuiltFrom kind) (calls : List Call) :
    let g := (calls.foldl Transform.after t).graph
    ∀ e r, g.resolve e = .ok r → ∃ c v, Cursor.ofSelection g e = .ok c ∧ g.gather e = .ok v ∧
      v.toReals.length = r.size ∧ c.Traverses g v.toReals := by
  intro g e r hr
  have hfollows : Follows log kind t t := ⟨rfl, rfl, .refl h hk⟩
  exact (hfollows.held_foldl (h.held hk) calls).traverses hr

/-- Both of an input that is set, none of a constant and then the second of it. -/
def mixed : Selection :=
  ⟨[⟨⟨⟨0, 1⟩, 0⟩, .integer, 0, 0, 0, false⟩, ⟨⟨⟨1, 1⟩, 0⟩, .integer, 0, 0, 3, true⟩,
    ⟨⟨⟨1, 1⟩, 0⟩, .integer, 1, 1, 3, true⟩]⟩

def laterInput : Transform := ⟨Selection.sizedLater, "input", ⟨0, 1⟩, []⟩

theorem Transform.traverses_gathered_mixed :
    let g := ([Call.setInput (.integers [7, 8])].foldl Transform.after laterInput).graph
    ∃ c c', Cursor.ofSelection g mixed = .ok c ∧ c'.isValid = false ∧
      c.take g 5 = .ok ((Values.integers [7, 8, 5]).toReals.mapIdx Prod.mk, c') := by
  intro g
  have hgather : g.gather mixed = .ok (.integers [7, 8, 5]) := rfl
  obtain ⟨r, hr, -⟩ := bind_eq_ok_iff.1 hgather
  obtain ⟨c, v, hc, hv, -, htraverses⟩ := traverses_gathered laterInput (Graph.history_replay _)
    Selection.builtFrom_sizedLater [.setInput (.integers [7, 8])] mixed r hr
  obtain rfl := Except.ok.inj (hgather.symm.trans hv)
  obtain ⟨c', htake, hvalid, -⟩ := htraverses 5
  exact ⟨c, c', hc, hvalid, htake⟩

end Dataflow
