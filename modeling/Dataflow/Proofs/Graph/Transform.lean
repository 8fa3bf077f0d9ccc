import Dataflow.Graph.Transform
import Dataflow.Proofs.Graph.Denotation

/-!
# What a transform computes

Between its calls a transform keeps the shape of its graph, and the nodes that take their values
from outside keep theirs, but for the input of the transform. Hence a computation that succeeds
finds what it needs in place, whatever calls came before it, and its result is the value of the
output in the graph.
-/

namespace Dataflow

open Dataflow.Graph (History Sound SameShape Settled Built Alike InOrder lookup_setOutlets)

structure Graph.Evolved (log : List Key) (kind : Key → Builtin) (input : Key) (g g' : Graph) :
    Prop where
  shape : SameShape g g'
  sound : Sound log g'
  built : g'.Built kind
  idle : ∀ k, k ≠ input → (kind k).isInput = true → g'.entry? k = g.entry? k

namespace Graph.Evolved

variable {log : List Key} {kind : Key → Builtin} {input : Key} {g g' : Graph}

theorem refl (h : History log g) (hk : g.BuiltFrom kind) : Evolved log kind input g g :=
  ⟨.refl g, h.sound, h.built hk, fun _ _ _ => rfl⟩

/-- The outlet of a node gets new values, unless it is the outlet of an idle input. -/
theorem setOutlets (h : Evolved log kind input g g') {k : Key} {e : Entry} {o o' : Outlet}
    (he : g'.entry? k = some e) (ho : e.outlets = [o]) (hblank : o'.blank = o.blank)
    (hidle : k ≠ input → (kind k).isInput = true → o' = o) :
    Evolved log kind input g (g'.setOutlets k [o']) := by
  have hb : [o'].map Outlet.blank = e.outlets.map Outlet.blank := by simp [ho, hblank]
  refine ⟨h.shape.trans (sameShape_setOutlets he hb), h.sound.setOutlets he hb,
    h.built.setOutlets ?_, fun j hj hin => ?_⟩
  · obtain ⟨o₁, ho₁, ht⟩ := h.built.outlet k e he
    obtain rfl : o = o₁ := List.singleton_inj.1 (ho.symm.trans ho₁)
    exact (Outlet.eq_of_blank hblank).2.2.1.trans ht
  · rw [lookup_setOutlets]
    by_cases hjk : j = k
    · subst hjk
      rw [if_pos rfl, ← h.idle j hj hin, he, hidle hj hin, ← ho]
      rfl
    · rw [if_neg hjk]
      exact h.idle j hj hin

theorem compute (h : Evolved log kind input g g') (order : List Key) :
    Evolved log kind input g ((Graph.compute order).run.run g').2 := by
  refine compute_induction (P := Evolved log kind input g) ?_ order h
  intro g' k e inputs h he
  obtain ⟨o, ho, -⟩ := h.built.outlet k e he
  rw [h.built.node k e he, ho]
  rcases (kind k).apply_compute inputs o with ⟨v, hv, -, hr⟩ | ⟨-, hr⟩ | ⟨f, hr⟩
  · rw [hr]
    refine h.setOutlets he ho rfl fun _ hin => ?_
    rw [Builtin.eval_input inputs hin] at hv
    cases hv
  · rw [hr]
    exact h.setOutlets he ho rfl fun _ _ => rfl
  · rw [hr]
    exact h.setOutlets he ho rfl fun _ _ => rfl

end Graph.Evolved

namespace Transform

inductive Call
  | setInput (values : Values)
  | computeOutput (t : ElemType) (index : Nat)
  | compute (t : ElemType) (values : Values)

/-- The transform after a call, whether it succeeds or fails. -/
def after (t : Transform) : Call → Transform
  | .setInput values =>
    match t.setInput values with
    | .ok t' => t'
    | .error _ => t
  | .computeOutput elemType index => ((Transform.computeOutput elemType index).run.run t).2
  | .compute elemType values => ((Transform.compute elemType values).run.run t).2

theorem run_get (t : Transform) : (get : TransformM Transform).run.run t = (.ok t, t) := rfl

theorem run_check {α : Type} (x : Except Fault α) (t : Transform) :
    (check x).run.run t = (x, t) := by
  cases x with
  | error f => rfl
  | ok a => rfl

theorem run_evaluate {α : Type} (m : GraphM α) (t : Transform) :
    (evaluate m).run.run t =
      ((m.run.run t.graph).1, { t with graph := (m.run.run t.graph).2 }) := by
  unfold evaluate
  rw [run_bind]
  change (do
    set { t with graph := (m.run.run t.graph).2 }
    check (m.run.run t.graph).1 : TransformM α).run.run t = _
  rw [run_bind]
  exact run_check _ _

theorem run_computeOutput (elemType : ElemType) (index : Nat) (t : Transform) :
    (computeOutput elemType index).run.run t =
      match t.output index with
      | .error f => (.error f, t)
      | .ok s =>
        match t.graph.dependencyOrder [s] with
        | .error f => (.error f, t)
        | .ok order =>
          match (Graph.compute order).run.run t.graph with
          | (.error f, g) => (.error f, { t with graph := g })
          | (.ok _, g) => (g.gather s >>= fun w => w.expect elemType, { t with graph := g }) := by
  unfold computeOutput
  rw [run_bind, run_get]
  dsimp only
  rw [run_bind, run_check]
  cases t.output index with
  | error f => rfl
  | ok s =>
      dsimp only
      rw [run_bind, run_get]
      dsimp only
      rw [run_bind, run_check]
      cases t.graph.dependencyOrder [s] with
      | error f => rfl
      | ok order =>
          dsimp only
          rw [run_bind, run_evaluate]
          rcases (Graph.compute order).run.run t.graph with ⟨r, g⟩
          cases r with
          | error f => rfl
          | ok u =>
              dsimp only
              rw [run_bind, run_get]
              dsimp only
              rw [run_bind, run_check]
              cases g.gather s with
              | error f => rfl
              | ok w => exact run_check _ _

theorem run_compute (elemType : ElemType) (values : Values) (t : Transform) :
    (compute elemType values).run.run t =
      match t.setInput values with
      | .error f => (.error f, t)
      | .ok t' => (computeOutput elemType 0).run.run t' := by
  unfold compute
  rw [run_bind, run_get]
  dsimp only
  rw [run_bind, run_check]
  cases t.setInput values with
  | error f => rfl
  | ok t' => rfl

theorem setInput_eq_ok {t t' : Transform} {values : Values} (h : t.setInput values = .ok t') :
    ∃ e o, t.graph.entry? t.input = some e ∧ e.outlets[0]? = some o ∧
      t' = { t with
        graph := t.graph.setOutlets t.input (e.outlets.set 0 (o.hold values)) } := by
  unfold setInput at h
  obtain ⟨size, -, h⟩ := bind_eq_ok_iff.1 h
  by_cases hsize : values.length = size
  · simp only [hsize, ne_eq, not_true_eq_false, if_false] at h
    cases he : t.graph.entry? t.input with
    | none =>
        simp only [he] at h
        cases h
    | some e =>
        cases ho : e.outlets[0]? with
        | none =>
            simp only [he, ho] at h
            cases h
        | some o =>
            simp only [he, ho] at h
            obtain ⟨held, -, h⟩ := bind_eq_ok_iff.1 h
            by_cases hheld : held.length = size
            · simp only [hheld, not_true_eq_false, if_false] at h
              exact ⟨e, o, rfl, ho, (Except.ok.inj h).symm⟩
            · simp only [hheld, not_false_eq_true, if_true] at h
              cases h
  · simp only [hsize, ne_eq, not_false_eq_true, if_true] at h
    cases he : t.graph.entry? t.input with
    | none =>
        simp only [he] at h
        cases h
    | some e =>
        simp only [he] at h
        cases h

/-- What new values of the input keep, and what computing nodes keeps, every call keeps. -/
theorem after_induction {P : Transform → Prop}
    (hset : ∀ t t' values, P t → t.setInput values = .ok t' → P t')
    (hcompute : ∀ t order, P t → P { t with graph := ((Graph.compute order).run.run t.graph).2 })
    {t : Transform} (h : P t) (c : Call) : P (t.after c) := by
  have houtput : ∀ t elemType index, P t →
      P ((Transform.computeOutput elemType index).run.run t).2 := by
    intro t elemType index h
    rw [run_computeOutput]
    cases t.output index with
    | error f => exact h
    | ok s =>
        dsimp only
        cases t.graph.dependencyOrder [s] with
        | error f => exact h
        | ok order =>
            have hg := hcompute t order h
            dsimp only
            rcases hr : (Graph.compute order).run.run t.graph with ⟨r, g⟩
            rw [hr] at hg
            cases r <;> exact hg
  cases c with
  | setInput values =>
      simp only [Transform.after]
      cases hs : t.setInput values with
      | error f => exact h
      | ok t' => exact hset t t' values h hs
  | computeOutput elemType index => exact houtput t elemType index h
  | compute elemType values =>
      change P ((Transform.compute elemType values).run.run t).2
      rw [run_compute]
      cases hs : t.setInput values with
      | error f => exact h
      | ok t' => exact houtput t' elemType 0 (hset t t' values h hs)

structure Retains (log : List Key) (t₀ t : Transform) : Prop where
  input : t.input = t₀.input
  outputs : t.outputs = t₀.outputs
  shape : SameShape t₀.graph t.graph
  sound : Sound log t.graph

theorem Retains.after {log : List Key} {t₀ t : Transform} (h : Retains log t₀ t) (c : Call) :
    Retains log t₀ (t.after c) := by
  refine after_induction (fun t t' values h hs => ?_) (fun t order h => ?_) h c
  · obtain ⟨e, o, he, ho, rfl⟩ := setInput_eq_ok hs
    have hblank := Graph.map_blank_set ho values
    exact ⟨h.input, h.outputs, h.shape.trans (Graph.sameShape_setOutlets he hblank),
      h.sound.setOutlets he hblank⟩
  · exact ⟨h.input, h.outputs, h.shape.trans (Graph.sameShape_compute order t.graph),
      h.sound.compute order⟩

theorem Retains.foldl {log : List Key} {t₀ t : Transform} (h : Retains log t₀ t)
    (calls : List Call) : Retains log t₀ (calls.foldl Transform.after t) := by
  induction calls generalizing t with
  | nil => exact h
  | cons c calls ih => exact ih (h.after c)

structure Follows (log : List Key) (kind : Key → Builtin) (t₀ t : Transform) : Prop where
  input : t.input = t₀.input
  outputs : t.outputs = t₀.outputs
  graph : Graph.Evolved log kind t₀.input t₀.graph t.graph

section Follows

variable {log : List Key} {kind : Key → Builtin} {t₀ t t' : Transform} {values : Values}

theorem Follows.setInput (h : Follows log kind t₀ t) (hs : t.setInput values = .ok t') :
    Follows log kind t₀ t' := by
  obtain ⟨e, o, he, ho, rfl⟩ := setInput_eq_ok hs
  obtain ⟨o₁, ho₁, -⟩ := h.graph.built.outlet _ e he
  rw [ho₁] at ho
  obtain rfl : o₁ = o := Option.some.inj ho
  refine ⟨h.input, h.outputs, ?_⟩
  rw [ho₁]
  exact h.graph.setOutlets he ho₁ rfl fun hne => absurd h.input hne

theorem Follows.after (h : Follows log kind t₀ t) (c : Call) : Follows log kind t₀ (t.after c) :=
  after_induction (fun _ _ _ h hs => h.setInput hs)
    (fun _ order h => ⟨h.input, h.outputs, h.graph.compute order⟩) h c

theorem Follows.output_eq (h : Follows log kind t₀ t) (index : Nat) :
    t.output index = t₀.output index := by
  unfold output
  rw [h.outputs]

theorem Follows.foldl (h : Follows log kind t₀ t) (calls : List Call) :
    Follows log kind t₀ (calls.foldl Transform.after t) := by
  induction calls generalizing t with
  | nil => exact h
  | cons c calls ih => exact ih (h.after c)

end Follows

/-- A new transform takes its input from an input node, and its outputs fit the graph. -/
theorem new_eq_ok {graph : Graph} {inputs : List (String × Key)}
    {outputs : List (String × Selection)} {t : Transform} (h : new graph inputs outputs = .ok t) :
    t.graph = graph ∧ (∃ e, graph.entry? t.input = some e ∧ e.node.isInput = true) ∧
      ∀ p ∈ t.outputs, graph.FitsAll p.2 ∧ p.2.size ≠ 0 := by
  obtain ⟨⟨name, input⟩, -, h⟩ := bind_eq_ok_iff.1 h
  obtain ⟨_, hinput, h⟩ := bind_eq_ok_iff.1 h
  split at h
  · cases h
  obtain ⟨resolved, hresolved, h⟩ := bind_eq_ok_iff.1 h
  obtain ⟨_, hcheck, h⟩ := bind_eq_ok_iff.1 h
  obtain rfl := Except.ok.inj h
  refine ⟨rfl, ?_, fun p hp => ⟨?_, ?_⟩⟩
  · unfold checkInput at hinput
    cases he : graph.entry? input with
    | none =>
        simp only [he] at hinput
        cases hinput
    | some e =>
        simp only [he] at hinput
        cases hi : e.node.isInput with
        | true => exact ⟨e, rfl, hi⟩
        | false =>
            simp only [hi, Bool.not_false, if_true] at hinput
            cases hinput
  · obtain ⟨q, -, hq⟩ := exists_of_mem_mapM hresolved hp
    obtain ⟨s, hs, hq⟩ := bind_eq_ok_iff.1 hq
    obtain rfl := Except.ok.inj hq
    exact Graph.fitsAll_of_resolve hs
  · have hc := forM_eq_ok_iff.1 hcheck p hp
    intro hzero
    simp [checkOutput, Selection.isEmpty, hzero] at hc

theorem isInput_of_new {graph : Graph} {inputs : List (String × Key)}
    {outputs : List (String × Selection)} {t : Transform} {kind : Key → Builtin}
    (h : new graph inputs outputs = .ok t) (hkind : graph.BuiltFrom kind) :
    (kind t.input).isInput = true := by
  obtain ⟨-, ⟨e, he, hi⟩, -⟩ := new_eq_ok h
  rwa [hkind _ e he] at hi

theorem fitsAll_of_new {graph : Graph} {inputs : List (String × Key)}
    {outputs : List (String × Selection)} {t : Transform} {s : Selection} {index : Nat}
    (h : new graph inputs outputs = .ok t) (hs : t.output index = .ok s) :
    graph.FitsAll s ∧ s.size ≠ 0 := by
  obtain ⟨-, -, hout⟩ := new_eq_ok h
  unfold output at hs
  split at hs
  case h_1 name r hr =>
    obtain rfl := Except.ok.inj hs
    exact hout _ (List.mem_of_getElem? hr)
  case h_2 => cases hs

section Computing

variable {log : List Key} {kind : Key → Builtin} {t₀ t t' : Transform} {x v : Values}

/-- How a graph ends when an output has been computed for the input `x`: the nodes that the output
needs are settled, and the values of the output are gathered from them. -/
structure Finished (log : List Key) (kind : Key → Builtin) (t₀ : Transform) (x v : Values)
    (s : Selection) (order : List Key) (g : Graph) : Prop where
  output : t₀.output 0 = .ok s
  graph : Graph.Evolved log kind t₀.input t₀.graph g
  live : ∀ k, g.Needed [s] k → ¬ g.ReadsRemoved k
  needed : ∀ k, k ∈ order ↔ g.Needed [s] k
  inOrder : g.InOrder order
  settled : ∀ k ∈ order, g.Settled kind k
  given : ∀ o, g.outlet ⟨t₀.input, 0⟩ = .ok o → o.values = x
  result : g.gather s = .ok v

theorem of_computeOutput {elemType : ElemType} {index : Nat}
    (h : Succeeds (computeOutput elemType index) t v t') : ∃ s order g, t.output index = .ok s ∧
      t.graph.dependencyOrder [s] = .ok order ∧ Succeeds (Graph.compute order) t.graph () g ∧
      g.gather s = .ok v ∧ v.elemType = elemType := by
  unfold Succeeds at h
  rw [run_computeOutput] at h
  cases hs : t.output index with
  | error f =>
      rw [hs] at h
      cases h
  | ok s =>
      rw [hs] at h
      dsimp only at h
      cases ho : t.graph.dependencyOrder [s] with
      | error f =>
          rw [ho] at h
          cases h
      | ok order =>
          rw [ho] at h
          dsimp only at h
          rcases hc : (Graph.compute order).run.run t.graph with ⟨r, g⟩
          rw [hc] at h
          cases r with
          | error f => cases (Prod.mk.inj h).1
          | ok u =>
              obtain ⟨hv, -⟩ := Prod.mk.inj h
              obtain ⟨w, hw, hexpect⟩ := bind_eq_ok_iff.1 hv
              obtain ⟨htype, rfl⟩ := Values.expect_eq_ok_iff.1 hexpect
              exact ⟨s, order, g, rfl, ho, hc, hw, htype⟩

theorem of_compute {elemType : ElemType} (h : Succeeds (compute elemType x) t v t') :
    ∃ t₁, t.setInput x = .ok t₁ ∧ Succeeds (computeOutput elemType 0) t₁ v t' := by
  unfold Succeeds at h
  rw [run_compute] at h
  cases hset : t.setInput x with
  | error f =>
      rw [hset] at h
      cases h
  | ok t₁ =>
      rw [hset] at h
      exact ⟨t₁, rfl, h⟩

theorem exists_finished (h : Follows log kind t₀ t) (hin : (kind t₀.input).isInput = true)
    (hfit : ∀ s, t₀.output 0 = .ok s → t₀.graph.FitsAll s) {elemType : ElemType}
    (hrun : Succeeds (compute elemType x) t v t') :
    ∃ s order g, Finished log kind t₀ x v s order g ∧ v.elemType = elemType := by
  obtain ⟨t₁, hset, hrun⟩ := of_compute hrun
  obtain ⟨s, order, g, hs, ho, hc, hv, htype⟩ := of_computeOutput hrun
  have h₁ := h.setInput hset
  have hs₀ : t₀.output 0 = .ok s := (h₁.output_eq 0).symm.trans hs
  have hres : ∀ s' ∈ [s], ∃ r, t₁.graph.resolve s' = .ok r := by
    refine List.forall_mem_singleton.2 ⟨s, ?_⟩
    exact Graph.resolve_of_fitsAll (h₁.graph.shape.fitsAll (hfit s hs₀))
  obtain ⟨hlive, -, hmem, horder⟩ := h₁.graph.sound.of_dependencyOrder hres ho
  have hnone : ∀ j ∈ ([] : List Key), t₁.graph.Settled kind j := by simp
  obtain ⟨hsettled, hkeep⟩ := Graph.settled_of_compute h₁.graph.built hnone horder hc
  have hg : g = ((Graph.compute order).run.run t₁.graph).2 := (congrArg Prod.snd hc).symm
  have hshape : SameShape t₁.graph g := hg ▸ Graph.sameShape_compute order t₁.graph
  refine ⟨s, order, g, ⟨hs₀, hg ▸ h₁.graph.compute order, ?_, ?_, horder.of_sameShape hshape,
    hsettled, ?_, hv⟩, htype⟩
  · rw [hshape.needed_eq]
    rintro k hk ⟨d, hd, hdead⟩
    exact hlive k hk ⟨d, hshape.reads_eq ▸ hd, fun hl => hdead ((hshape.live_iff d).2 hl)⟩
  · rwa [hshape.needed_eq]
  · intro o hgo
    obtain ⟨-, e, he, ho, -⟩ := Graph.outlet_eq_ok_of_built (hg ▸ h₁.graph.compute order).built hgo
    rw [hkeep t₀.input (Or.inr hin)] at he
    obtain ⟨e₀, o₀, he₀, ho₀, rfl⟩ := setInput_eq_ok hset
    change Graph.entry? (t.graph.setOutlets t.input _) t₀.input = _ at he
    rw [lookup_setOutlets, if_pos h.input.symm, he₀] at he
    obtain rfl := Option.some.inj he
    obtain ⟨o₁, ho₁, -⟩ := h.graph.built.outlet _ e₀ he₀
    simp only [ho₁, List.set_cons_zero, List.cons.injEq, and_true] at ho
    rw [← ho, Outlet.values_hold]

/-- Whatever a needed node reads is there. -/
theorem Finished.fits {s : Selection} {order : List Key} {g : Graph}
    (h : Finished log kind t₀ x v s order g) {k : Key} (hk : k ∈ order) {e : Entry}
    (he : g.entry? k = some e) {i : Inlet} (hi : i ∈ e.inlets) : g.FitsAll i.selection :=
  h.graph.sound.fitsAll (h.live k ((h.needed k).1 hk)) he hi

/-- In the end the cells of the output hold their values in the graph. -/
theorem Finished.denotes {s : Selection} {order : List Key} {g : Graph}
    (h : Finished log kind t₀ x v s order g) (hgraph : History log t₀.graph)
    (hkind : t₀.graph.BuiltFrom kind) (hin : (kind t₀.input).isInput = true)
    (hfit : t₀.graph.FitsAll s) :
    List.Forall₂ (t₀.graph.Denotes kind t₀.input x) s.cells v.scalars := by
  have hsupplied : g.Supplied kind t₀.input x order := by
    refine ⟨hin, h.given, fun k _ hk hik o ho => ?_, fun k hk s hs => ?_⟩
    · obtain ⟨-, e, he, ho, -⟩ := Graph.outlet_eq_ok_of_built h.graph.built ho
      rw [h.graph.idle k hk hik] at he
      obtain ⟨-, o', ho', ht, -, -, hz⟩ := hgraph.seated he (hkind k e he)
      obtain rfl : o = o' := List.singleton_inj.1 (ho.symm.trans ho')
      exact hz hik
    · obtain ⟨e, he⟩ : ∃ e, g.entry? k = some e := by
        obtain ⟨e, _, _, he, -⟩ := h.settled k hk
        exact ⟨e, he⟩
      simp only [Graph.selections, he, Option.map_some, Option.getD_some, List.mem_map] at hs
      obtain ⟨i, hi, rfl⟩ := hs
      exact h.fits hk he hi
  have hbears := Graph.bears_of_inOrder h.graph.built hsupplied h.inOrder h.settled
  have hall := Graph.gather_bears (h.graph.shape.fitsAll hfit) (fun a ha => by
    have hmem : a.port.node ∈ order :=
      (h.needed _).2 ⟨s, List.mem_singleton_self s, a, ha, .refl⟩
    exact hbears _ hmem a.port.index) h.result
  exact hall.imp fun c a hc => hc.of_alike fun k _ =>
    Graph.alike_of_sameShape h.graph.shape.symm k

end Computing

/-- `v` is what a new transform of a graph of built-in nodes computes for `x` after some calls. -/
def Answers (graph : Graph) (kind : Key → Builtin) (t₀ : Transform) (x v : Values) : Prop :=
  ∃ log inputs outputs calls elemType t', History log graph ∧ graph.BuiltFrom kind ∧
    new graph inputs outputs = .ok t₀ ∧
    Succeeds (compute elemType x) (List.foldl after t₀ calls) v t'

section Answers

variable {graph graph' : Graph} {kind kind' : Key → Builtin} {t₀ t₀' : Transform} {x v v' : Values}

theorem Answers.denotes (h : Answers graph kind t₀ x v) : ∃ s, t₀.output 0 = .ok s ∧
    s.size ≠ 0 ∧ List.Forall₂ (graph.Denotes kind t₀.input x) s.cells v.scalars := by
  obtain ⟨log, inputs, outputs, calls, elemType, t', hgraph, hkind, hnew, hrun⟩ := h
  obtain ⟨rfl, -⟩ := new_eq_ok hnew
  have hin := isInput_of_new hnew hkind
  have hfollows : Follows log kind t₀ t₀ := ⟨rfl, rfl, .refl hgraph hkind⟩
  obtain ⟨s, order, g, hdone, -⟩ := exists_finished (hfollows.foldl calls) hin
    (fun s hs => (fitsAll_of_new hnew hs).1) hrun
  obtain ⟨hs, hsize⟩ := fitsAll_of_new hnew hdone.output
  exact ⟨s, hdone.output, hsize, hdone.denotes hgraph hkind hin hs⟩

theorem unique_values {s : Selection} {as bs : List Scalar}
    (ha : List.Forall₂ (graph.Denotes kind t₀.input x) s.cells as)
    (hb : List.Forall₂ (graph.Denotes kind t₀.input x) s.cells bs) : as = bs := by
  refine List.ext_get (ha.length_eq.symm.trans hb.length_eq) fun n h₁ h₂ => ?_
  have hn : n < s.cells.length := ha.length_eq ▸ h₁
  exact (ha.get hn h₁).unique (hb.get hn h₂)

/-- What a transform computes is the value of its output, whatever calls came before. It depends
on the input and on the nodes that the output needs, and on nothing else. -/
theorem denotes_of_answers (h : Answers graph kind t₀ x v) :
    ∃ s, t₀.output 0 = .ok s ∧
      (∀ as, List.Forall₂ (graph.Denotes kind t₀.input x) s.cells as ↔ as = v.scalars) ∧
      ∀ graph' kind' t₀' v', Answers graph' kind' t₀' x v' → t₀'.input = t₀.input →
        t₀'.output 0 = .ok s → (∀ k, graph.Needed [s] k → Alike graph graph' kind kind' k) →
        v' = v := by
  obtain ⟨s, hs, hsize, hall⟩ := h.denotes
  refine ⟨s, hs, fun as => ⟨fun has => unique_values has hall, fun has => has ▸ hall⟩, ?_⟩
  intro graph' kind' t₀' v' h' hinput hs' halike
  obtain ⟨s', hs'', -, hall'⟩ := h'.denotes
  obtain rfl : s = s' := Except.ok.inj (hs'.symm.trans hs'')
  have hmoved : List.Forall₂ (graph'.Denotes kind' t₀'.input x) s.cells v.scalars := by
    rw [hinput]
    rw [List.forall₂_iff_get] at hall ⊢
    refine ⟨hall.1, fun n h₁ h₂ => (hall.2 n h₁ h₂).of_alike fun k hk => halike k ?_⟩
    obtain ⟨a, ha, hport⟩ := Graph.exists_span_of_mem_cells (List.get_mem s.cells ⟨n, h₁⟩)
    exact ⟨s, List.mem_singleton_self s, a, ha, hport ▸ hk⟩
  have hscalars : v'.scalars = v.scalars := unique_values hall' hmoved
  refine Values.eq_of_scalars_eq ?_ hscalars
  have hlen := hall.length_eq
  rw [Selection.length_cells] at hlen
  obtain ⟨a, ha⟩ := List.exists_mem_of_length_pos (l := v.scalars) (by omega)
  rw [← Values.elemType_of_mem_scalars ha, ← Values.elemType_of_mem_scalars (hscalars ▸ ha)]

def pair (k : Key) : Selection := .ofSpan ⟨⟨k, 0⟩, .boolean, 0, 2, 2, false⟩

def comparison (k : Key) : Builtin :=
  if k = ⟨2, 1⟩ then .binary .boolean .xor ⟨pair ⟨0, 1⟩⟩ ⟨pair ⟨1, 1⟩⟩ rfl rfl
  else .input .boolean (some 2)

def comparing : Graph :=
  (Graph.replay [.addNumbered 0 (comparison ⟨0, 1⟩).toNode,
    .addNumbered 1 (comparison ⟨1, 1⟩).toNode, .addNumbered 2 (comparison ⟨2, 1⟩).toNode]).2

theorem builtFrom_comparing : comparing.BuiltFrom comparison := by
  intro k e he
  have horder : comparing.order = [⟨0, 1⟩, ⟨1, 1⟩, ⟨2, 1⟩] := by decide +kernel
  have hk : k ∈ comparing.order :=
    ((Graph.history_replay _).sound.mem_order_iff k).2 (Graph.live_of_entry he)
  rw [horder] at hk
  fin_cases hk <;>
  · obtain rfl := Option.some.inj he
    rfl

def comparer : Transform := ⟨comparing, "input", ⟨0, 1⟩, [("output", pair ⟨2, 1⟩)]⟩

/-- Two calls that fail, one of them half way, and one that succeeds come before. -/
theorem answers_comparer :
    Answers comparing comparison comparer (.booleans [true, false]) (.booleans [true, false]) := by
  have hrun : ((compute .boolean (.booleans [true, false])).run.run
      ([Call.setInput (.booleans [true]), .computeOutput .real 0,
        .compute .boolean (.booleans [true, true])].foldl after comparer)).1 =
      .ok (.booleans [true, false]) := by
    cbv
  exact ⟨_, [("input", ⟨0, 1⟩)], [("output", pair ⟨2, 1⟩)], _, _, _, Graph.history_replay _,
    builtFrom_comparing, rfl, Prod.ext hrun rfl⟩

theorem denotes_comparer : ∃ s, comparer.output 0 = .ok s ∧
    List.Forall₂ (comparing.Denotes comparison ⟨0, 1⟩ (.booleans [true, false])) s.cells
      [.boolean true, .boolean false] := by
  obtain ⟨s, hs, hall, -⟩ := denotes_of_answers answers_comparer
  exact ⟨s, hs, (hall _).2 rfl⟩

end Answers

end Transform

end Dataflow
