import Dataflow.Graph.Evaluate
import Dataflow.Proofs.Graph.Arena
import Dataflow.Proofs.Graph.Resolution

/-!
# The shape of a graph

The shape is everything but the values at the outlets. Computing nodes, whatever they compute, and
setting the values of outlets leaves the shape alone, and with it which spans fit, what selections
resolve to and what depends on what.
-/

namespace Dataflow.Graph

structure SameShape (g g' : Graph) : Prop where
  order : g'.order = g.order
  ids : g'.ids = g.ids
  entry : ∀ k, (g'.entry? k).map Entry.blank = (g.entry? k).map Entry.blank

namespace SameShape

variable {g g' g'' : Graph}

theorem refl (g : Graph) : SameShape g g := ⟨rfl, rfl, fun _ => rfl⟩

theorem symm (h : SameShape g g') : SameShape g' g :=
  ⟨h.order.symm, h.ids.symm, fun k => (h.entry k).symm⟩

theorem trans (h : SameShape g g') (h' : SameShape g' g'') : SameShape g g'' :=
  ⟨h'.order.trans h.order, h'.ids.trans h.ids, fun k => (h'.entry k).trans (h.entry k)⟩

theorem exists_entry (h : SameShape g g') {k : Key} {e : Entry} (he : g.entry? k = some e) :
    ∃ e', g'.entry? k = some e' ∧ e'.blank = e.blank := by
  have := h.entry k
  rw [he] at this
  exact Option.map_eq_some_iff.1 this

theorem live_iff (h : SameShape g g') (k : Key) : g'.Live k ↔ g.Live k := by
  have := congrArg Option.isSome (h.entry k)
  simpa [Live] using this

end SameShape

theorem toSite_eq_of_blank {e e' : Entry} (h : e'.blank = e.blank) :
    e'.id = e.id ∧ e'.key = e.key ∧ e'.typeName = e.typeName ∧ e'.inlets = e.inlets ∧
      e'.node = e.node ∧ e'.outlets.map Outlet.blank = e.outlets.map Outlet.blank := by
  simp only [Entry.blank, Entry.mk.injEq, Site.mk.injEq] at h
  tauto

theorem outlet_of_blank {e e' : Entry} (h : e'.blank = e.blank) {i : Nat} {o : Outlet}
    (ho : e.outlets[i]? = some o) : ∃ o', e'.outlets[i]? = some o' ∧ o'.blank = o.blank := by
  have := congrArg (·[i]?) (toSite_eq_of_blank h).2.2.2.2.2
  simp only [List.getElem?_map, ho, Option.map_some] at this
  exact Option.map_eq_some_iff.1 this

namespace SameShape

variable {g g' : Graph}

theorem outlet (h : SameShape g g') {p : Port} {o : Outlet} (ho : g.outlet p = .ok o) :
    ∃ o', g'.outlet p = .ok o' ∧ o'.blank = o.blank := by
  obtain ⟨e, he, hi⟩ := outlet_eq_ok_iff.1 ho
  obtain ⟨e', he', hb⟩ := h.exists_entry he
  obtain ⟨o', ho', hob⟩ := outlet_of_blank hb hi
  exact ⟨o', outlet_eq_ok_iff.2 ⟨e', he', ho'⟩, hob⟩

theorem fits (h : SameShape g g') {s : Span} (hs : g.Fits s) : g'.Fits s :=
  hs.of_blank fun _ ho => h.outlet ho

theorem fitsAll (h : SameShape g g') {s : Selection} (hs : g.FitsAll s) : g'.FitsAll s :=
  ⟨hs.1, fun a ha => h.fits (hs.2 a ha)⟩

theorem dependencies (h : SameShape g g') (k : Key) : g'.dependencies k = g.dependencies k := by
  unfold Graph.dependencies
  cases he : g.entry? k with
  | none =>
      have := h.entry k
      rw [he, Option.map_none, Option.map_eq_none_iff] at this
      rw [this]
  | some e =>
      obtain ⟨e', he', hb⟩ := h.exists_entry he
      rw [he']
      simp [Entry.dependencies, (toSite_eq_of_blank hb).2.2.2.1]

theorem entry_eq (h : SameShape g g') {k : Key} {e e' : Entry} (he : g.entry? k = some e)
    (he' : g'.entry? k = some e') : e'.blank = e.blank := by
  obtain ⟨e₁, he₁, hb⟩ := h.exists_entry he
  obtain rfl := Option.some.inj (he'.symm.trans he₁)
  exact hb

end SameShape

section SetOutlets

variable {g : Graph} {k : Key}

theorem lookup_setOutlets (outlets : List Outlet) (k' : Key) :
    entry? (g.setOutlets k outlets) k' =
      if k' = k then (g.entry? k).map fun e => { e with outlets } else g.entry? k' :=
  Arena.get?_modify k _ k'

theorem sameShape_setOutlets {e : Entry} {outlets : List Outlet} (he : g.entry? k = some e)
    (h : outlets.map Outlet.blank = e.outlets.map Outlet.blank) :
    SameShape g (g.setOutlets k outlets) where
  order := rfl
  ids := rfl
  entry k' := by
    rw [lookup_setOutlets]
    by_cases hk : k' = k
    · subst hk
      rw [if_pos rfl, he]
      simp [Entry.blank, h]
    · rw [if_neg hk]

/-- Other values at an outlet leave its shape alone. -/
theorem map_blank_set {outlets : List Outlet} {i : Nat} {o : Outlet} (ho : outlets[i]? = some o)
    (values : Values) : (outlets.set i (o.hold values)).map Outlet.blank =
      outlets.map Outlet.blank := by
  rw [List.map_set, show (o.hold values).blank = o.blank from rfl]
  obtain ⟨hlt, rfl⟩ := List.getElem?_eq_some_iff.1 ho
  rw [← List.map_set, List.set_getElem_self]

end SetOutlets

theorem snd_apply (c : Compute Unit) (outlets : List Outlet) :
    (c.apply outlets).2 = outlets.mapIdx fun i o =>
      o.hold (((c.run outlets).run.run (outlets.map (·.values))).2.getD i o.values) :=
  rfl

/-- A computation can write the values of its outlets and nothing else. -/
theorem blank_apply (c : Compute Unit) (outlets : List Outlet) :
    (c.apply outlets).2.map Outlet.blank = outlets.map Outlet.blank := by
  rw [snd_apply]
  apply List.ext_getElem?
  intro i
  simp only [List.getElem?_map, List.getElem?_mapIdx, Option.map_map]
  rfl

theorem run_computeNode (k : Key) (g : Graph) :
    (computeNode k).run.run g =
      match g.entry? k with
      | none => (.error (.missing .computedNode), g)
      | some e =>
        match e.inlets.mapM fun i => g.gather i.selection with
        | .error f => (.error f, g)
        | .ok inputs =>
          (((e.node.compute inputs).apply e.outlets).1,
            g.setOutlets k ((e.node.compute inputs).apply e.outlets).2) := by
  unfold computeNode
  rw [run_bind]
  change (match g.entry? k with | none => _ | some e => _ : GraphM Unit).run.run g = _
  cases g.entry? k with
  | none => rfl
  | some e =>
      change (match e.inlets.mapM fun i => g.gather i.selection with
        | .error f => _ | .ok inputs => _ : GraphM Unit).run.run g = _
      cases hi : e.inlets.mapM fun i => g.gather i.selection with
      | error f => simp only [hi]; rfl
      | ok inputs =>
          cases hr : ((e.node.compute inputs).apply e.outlets).1 with
          | ok u => simp only [hi, hr, run_bind]; rfl
          | error f => simp only [hi, hr, run_bind]; rfl

/-- Computing a node changes the graph at the outlets of the node, if at all. -/
theorem computeNode_cases (k : Key) (g : Graph) :
    ((computeNode k).run.run g).2 = g ∨
      ∃ e inputs, g.entry? k = some e ∧
        e.inlets.mapM (fun i => g.gather i.selection) = .ok inputs ∧
        (computeNode k).run.run g =
          (((e.node.compute inputs).apply e.outlets).1,
            g.setOutlets k ((e.node.compute inputs).apply e.outlets).2) := by
  rw [run_computeNode]
  cases he : g.entry? k with
  | none => exact Or.inl rfl
  | some e =>
      dsimp only
      cases hi : e.inlets.mapM fun i => g.gather i.selection with
      | error f => exact Or.inl rfl
      | ok inputs => exact Or.inr ⟨e, inputs, rfl, hi, rfl⟩

/-- Whatever keeps `P` when a node computes its outlets keeps it through a computation. -/
theorem compute_induction {P : Graph → Prop}
    (hstep : ∀ g k e inputs, P g → g.entry? k = some e →
      P (g.setOutlets k ((e.node.compute inputs).apply e.outlets).2))
    (order : List Key) {g : Graph} (hg : P g) : P ((compute order).run.run g).2 := by
  induction order generalizing g with
  | nil => exact hg
  | cons k order ih =>
      have hk : P ((computeNode k).run.run g).2 := by
        rcases computeNode_cases k g with h | ⟨e, inputs, he, -, h⟩
        · rw [h]
          exact hg
        · rw [h]
          exact hstep g k e inputs hg he
      change P ((computeNode k >>= fun _ => compute order).run.run g).2
      rw [run_bind]
      rcases hc : (computeNode k).run.run g with ⟨r, g'⟩
      rw [hc] at hk
      cases r with
      | ok u => exact ih hk
      | error f => exact hk

theorem sameShape_compute (order : List Key) (g : Graph) :
    SameShape g ((compute order).run.run g).2 :=
  compute_induction (P := SameShape g)
    (fun _ _ _ _ h he => h.trans (sameShape_setOutlets he (blank_apply _ _))) order (.refl g)

end Dataflow.Graph
