import Dataflow.Proofs.Graph.Consolidation
import Dataflow.Proofs.Graph.Interpretation

/-!
# Selections are vectors

A selection behaves as the list of its cells: it is looked up and cut by position, and joined, as that
list is. In a graph of built-in nodes the values gathered for a resolved selection are those of its cells,
one after the other, so that joining, cutting and consolidating selections does the same to their
values.
-/

namespace Dataflow

open Dataflow.Graph (History)

namespace Graph

variable {g : Graph} {a b e r : Selection} {x : Values}

def scalarAt (g : Graph) (c : Cell) : Option Scalar :=
  match g.outlet c.port with
  | .ok o => o.values.scalars[c.index]?
  | .error _ => none

theorem scalars_of_gather (hfit : g.FitsAll e) (h : g.gather e = .ok x) :
    x.scalars.map some = e.cells.map g.scalarAt := by
  have hbears : ∀ p, g.Bears (fun c y => g.scalarAt c = some y) p := by
    intro p o ho i y hy t
    simp only [scalarAt, ho, hy]
  have hall := gather_bears hfit (fun a _ => hbears a.port) h
  rw [← List.forall₂_eq_eq_eq, List.forall₂_map_left_iff, List.forall₂_map_right_iff]
  exact hall.flip.imp fun _ _ h => h.symm

/-- The selection is what another one resolves to. -/
def Resolved (g : Graph) (e : Selection) : Prop := ∃ s, g.resolve s = .ok e

theorem Resolved.fitsAll (h : g.Resolved e) : g.FitsAll e := fitsAll_of_resolve h.choose_spec

theorem FitsAll.append (ha : g.FitsAll a) (hb : g.FitsAll b) (h : a.append b = .ok r) :
    g.FitsAll r := by
  refine ⟨ha.1.append hb.1 h, ?_⟩
  obtain ⟨-, rfl⟩ := Selection.append_eq_ok_iff.1 h
  exact List.forall_mem_append.2 ⟨ha.2, hb.2⟩

theorem Fits.sub {s : Span} (h : g.Fits s) {offset count : Nat} (hle : offset + count ≤ s.length) :
    g.Fits (s.sub offset count) := by
  obtain ⟨o, ho, hsize, ht, hstop, -⟩ := h
  refine ⟨o, ho, hsize, ht, le_trans ?_ hstop, rfl⟩
  simp only [Span.stop, Span.start_sub, Span.length_sub]
  omega

theorem FitsAll.slice (ha : g.FitsAll a) {start count : Nat} (h : a.slice start count = .ok r) :
    g.FitsAll r := by
  refine ⟨ha.1.slice h, ?_⟩
  obtain ⟨-, rfl⟩ := Selection.slice_eq_ok_iff.1 h
  intro s hs
  obtain ⟨b, hb, offset, length, -, hle, rfl⟩ := Selection.exists_of_mem_cut hs
  exact (ha.2 b hb).sub hle

end Graph

namespace Selection

/-- The selection is looked up and cut as the list of its cells is. -/
structure ListsCells (e : Selection) : Prop where
  size : e.cells.length = e.size
  cell : ∀ i, ((∃ c, e.cell i = .ok c) ↔ i < e.size) ∧ ∀ c, e.cell i = .ok c ↔ e.cells[i]? = some c
  slice : ∀ start count, ((∃ r, e.slice start count = .ok r) ↔ start + count ≤ e.size) ∧
    ∀ r, e.slice start count = .ok r → r.cells = (e.cells.drop start).take count

theorem listsCells (e : Selection) : e.ListsCells where
  size := length_cells e
  cell i := ⟨exists_cell_iff, fun _ => cell_eq_ok_iff⟩
  slice start count := by
    refine ⟨?_, fun r => cells_of_slice⟩
    simp only [slice_eq_ok_iff]
    exact ⟨fun ⟨_, h, _⟩ => h, fun h => ⟨_, h, rfl⟩⟩

/-- Selections of the type are put together as the lists of their cells are. -/
structure JoinsCells (t : ElemType) : Prop where
  append : ∀ a b : Selection, a.OfType t → b.OfType t →
    ∃ r, a.append b = .ok r ∧ r.cells = a.cells ++ b.cells
  concat : ∀ parts : List Selection, (∀ p ∈ parts, p.OfType t) →
    ∃ r, concat parts = .ok r ∧ r.cells = parts.flatMap cells
  ofCells : ∀ cs : List Cell, (∀ c ∈ cs, c.elemType = t) → ∃ r, ofCells cs = .ok r ∧ r.cells = cs

theorem joinsCells (t : ElemType) : JoinsCells t where
  append _ _ ha hb := ⟨_, ha.append_eq hb, List.flatMap_append⟩
  concat parts h := ⟨_, OfType.concat_eq h, cells_join parts⟩
  ofCells _ h := ofCells_eq h

theorem cells_of_append {a b r : Selection} (h : a.append b = .ok r) :
    r.cells = a.cells ++ b.cells := by
  obtain ⟨-, rfl⟩ := append_eq_ok_iff.1 h
  exact List.flatMap_append

end Selection

namespace Graph

variable {g : Graph} {a b e r : Selection} {x y z : Values}

/-- What is gathered for resolved selections is joined, cut and merged with them. The values are
compared one by one: of which type a vector without values is does not matter. -/
structure GathersCells (g : Graph) : Prop where
  gather : ∀ a, g.Resolved a → ∃ x, g.gather a = .ok x ∧ x.length = a.size
  append : ∀ a b r, g.Resolved a → g.Resolved b → a.append b = .ok r →
    ∃ x y z, g.gather a = .ok x ∧ g.gather b = .ok y ∧ g.gather r = .ok z ∧
      z.scalars = x.scalars ++ y.scalars
  concat : ∀ parts r, (∀ p ∈ parts, g.Resolved p) → Selection.concat parts = .ok r →
    ∃ xs z, parts.mapM g.gather = .ok xs ∧ g.gather r = .ok z ∧
      z.scalars = xs.flatMap Values.scalars
  slice : ∀ a start count r, g.Resolved a → a.slice start count = .ok r →
    ∃ x z, g.gather a = .ok x ∧ g.gather r = .ok z ∧
      z.scalars = (x.scalars.drop start).take count
  consolidate : ∀ a, g.Resolved a → ∃ x, g.gather a = .ok x ∧ g.gather a.consolidate = .ok x

theorem scalars_of_append (ha : g.FitsAll a) (hb : g.FitsAll b) (h : a.append b = .ok r)
    (hx : g.gather a = .ok x) (hy : g.gather b = .ok y) (hz : g.gather r = .ok z) :
    z.scalars = x.scalars ++ y.scalars := by
  refine List.map_injective_iff.2 (Option.some_injective _) ?_
  rw [List.map_append, scalars_of_gather ha hx, scalars_of_gather hb hy,
    scalars_of_gather (ha.append hb h) hz, Selection.cells_of_append h, List.map_append]

theorem scalars_of_slice {start count : Nat} (ha : g.FitsAll a) (h : a.slice start count = .ok r)
    (hx : g.gather a = .ok x) (hz : g.gather r = .ok z) :
    z.scalars = (x.scalars.drop start).take count := by
  refine List.map_injective_iff.2 (Option.some_injective _) ?_
  rw [List.map_take, List.map_drop, scalars_of_gather ha hx, scalars_of_gather (ha.slice h) hz,
    Selection.cells_of_slice h, List.map_take, List.map_drop]

theorem Held.exists_foldlM_append (hh : g.Held) {parts : List Selection}
    (hparts : ∀ p ∈ parts, g.FitsAll p) (ha : g.FitsAll a) (hx : g.gather a = .ok x)
    (h : parts.foldlM Selection.append a = .ok r) :
    ∃ xs z, parts.mapM g.gather = .ok xs ∧ g.gather r = .ok z ∧
      z.scalars = x.scalars ++ xs.flatMap Values.scalars := by
  induction parts generalizing a x with
  | nil =>
      obtain rfl := Except.ok.inj h
      exact ⟨[], x, rfl, hx, by simp⟩
  | cons p parts ih =>
      rw [List.foldlM_cons] at h
      obtain ⟨next, hnext, h⟩ := bind_eq_ok_iff.1 h
      obtain ⟨hp, hparts⟩ := List.forall_mem_cons.1 hparts
      obtain ⟨y, hy, -⟩ := hh.exists_gather hp
      obtain ⟨w, hw, -⟩ := hh.exists_gather (ha.append hp hnext)
      obtain ⟨xs, z, hxs, hz, hscalars⟩ := ih hparts (ha.append hp hnext) hw h
      refine ⟨y :: xs, z, ?_, hz, ?_⟩
      · rw [List.mapM_cons, hy]
        simp only [bind, Except.bind, hxs]
        rfl
      · rw [hscalars, scalars_of_append ha hp hnext hx hy hw, List.flatMap_cons, List.append_assoc]

theorem Held.gathersCells (hh : g.Held) : g.GathersCells where
  gather a ha := by
    obtain ⟨x, hx, -, hlen⟩ := hh.exists_gather ha.fitsAll
    exact ⟨x, hx, hlen⟩
  append a b r ha hb h := by
    obtain ⟨x, hx, -⟩ := hh.exists_gather ha.fitsAll
    obtain ⟨y, hy, -⟩ := hh.exists_gather hb.fitsAll
    obtain ⟨z, hz, -⟩ := hh.exists_gather (ha.fitsAll.append hb.fitsAll h)
    exact ⟨x, y, z, hx, hy, hz, scalars_of_append ha.fitsAll hb.fitsAll h hx hy hz⟩
  concat parts r hparts h := by
    have hempty : g.FitsAll .empty := ⟨by simp [Selection.Uniform, Selection.empty],
      by simp [Selection.empty]⟩
    obtain ⟨x, hx, -⟩ := hh.exists_gather hempty
    obtain ⟨xs, z, hxs, hz, hscalars⟩ :=
      hh.exists_foldlM_append (fun p hp => (hparts p hp).fitsAll) hempty hx h
    refine ⟨xs, z, hxs, hz, ?_⟩
    have hnone := scalars_of_gather hempty hx
    rw [List.map_eq_nil_iff.1 hnone] at hscalars
    exact hscalars
  slice a start count r ha h := by
    obtain ⟨x, hx, -⟩ := hh.exists_gather ha.fitsAll
    obtain ⟨z, hz, -⟩ := hh.exists_gather (ha.fitsAll.slice h)
    exact ⟨x, z, hx, hz, scalars_of_slice ha.fitsAll h hx hz⟩
  consolidate a ha := by
    obtain ⟨x, hx, -⟩ := hh.exists_gather ha.fitsAll
    exact ⟨x, hx, (gather_consolidate ha.fitsAll.1).2 hx⟩

end Graph

namespace Selection

/-- **Selections are vectors.** A selection is looked up and cut as the list of its cells is, selections
of one type are put together as their lists are, and however a graph of built-in nodes came about, the
values gathered for resolved selections follow suit. -/
theorem acts_as_vector : (∀ e : Selection, e.ListsCells) ∧ (∀ t, JoinsCells t) ∧
    ∀ log g kind, History log g → g.BuiltFrom kind → g.GathersCells :=
  ⟨listsCells, joinsCells, fun _ _ _ h hk => (h.held hk).gathersCells⟩

def laterKind (k : Key) : Builtin :=
  if k = ⟨1, 1⟩ then .constant (.integers [4, 5, 6]) else .input .integer none

theorem builtFrom_sizedLater : sizedLater.BuiltFrom laterKind := by
  intro k e he
  have hk := ((Graph.history_replay _).sound.mem_order_iff k).2 (Graph.live_of_entry he)
  have horder : k ∈ [(⟨0, 1⟩ : Key), ⟨1, 1⟩] := hk
  fin_cases horder <;>
  · obtain rfl := Option.some.inj he
    rfl

/-- Two values of the constant and both of the input. -/
theorem acts_as_vector_sizedLater : sizedLater.BuiltFrom laterKind ∧
    ∃ a b r z, sizedLater.Resolved a ∧ sizedLater.Resolved b ∧ a.append b = .ok r ∧
      sizedLater.gather r = .ok z ∧ z.scalars = [.integer 5, .integer 6, .integer 0, .integer 0] := by
  obtain ⟨-, -, hgraph⟩ := acts_as_vector
  let a : Selection := .ofSpan ⟨⟨⟨1, 1⟩, 0⟩, .integer, 1, 2, 3, true⟩
  let b : Selection := .ofSpan ⟨⟨⟨0, 1⟩, 0⟩, .integer, 0, 2, 2, false⟩
  have ha : sizedLater.Resolved a := ⟨a, by cbv⟩
  have hb : sizedLater.Resolved b := ⟨b, by cbv⟩
  have hgathers := hgraph _ _ _ (Graph.history_replay _) builtFrom_sizedLater
  obtain ⟨x, y, z, hx, hy, hz, happend⟩ := hgathers.append a b _ ha hb rfl
  have hxa : sizedLater.gather a = .ok (.integers [5, 6]) := by cbv
  have hyb : sizedLater.gather b = .ok (.integers [0, 0]) := by cbv
  obtain rfl := Except.ok.inj (hxa.symm.trans hx)
  obtain rfl := Except.ok.inj (hyb.symm.trans hy)
  exact ⟨builtFrom_sizedLater, a, b, _, z, ha, hb, rfl, hz, happend⟩

end Selection

end Dataflow
