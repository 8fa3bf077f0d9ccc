import Dataflow.Proofs.Graph.Held

/-!
# Which computations succeed

A built-in node whose inlets fit the graph can be computed exactly when it takes what they select,
and this does not depend on the values at hand. So it is with a list of nodes, and with the output
of a transform of a valid graph: it can be computed unless a needed node has an inlet without spans
that is of no use to it.
-/

namespace Dataflow

open Dataflow.Graph (History Sound SameShape Evolved lookup_setOutlets)

namespace Builtin

variable {b : Builtin} {inputs : List Values} {o : Outlet} {v : Values}

theorem apply_of_eval (h : b.eval inputs = .ok (some v)) (hs : Suits o v) :
    (b.toNode.compute inputs).apply [o] = (.ok (), [o.hold v]) := by
  change (b.compute inputs).apply [o] = _
  unfold compute
  rw [h]
  dsimp only
  rw [apply_eq, run_setOutput, if_neg (not_not.2 hs.1), if_neg (not_not.2 hs.2)]
  rfl

theorem apply_of_isInput (h : b.isInput = true) :
    (b.toNode.compute inputs).apply [o] = (.ok (), [o]) := by
  change (b.compute inputs).apply [o] = _
  unfold compute
  rw [eval_input inputs h]
  rfl

theorem accepts_of_isInput {types : List ElemType} (h : b.isInput = true) : b.Accepts types := by
  cases b <;> trivial

end Builtin

theorem Selection.elemType_of_uniform {s : Selection} (h : s.Uniform) {a : Span}
    (ha : a ∈ s.spans) : a.elemType = s.gatheredType := by
  rw [gatheredType, elemType?_of_uniform h ha, Option.getD_some]

namespace Graph

def Prepared (g : Graph) (kind : Key → Builtin) (k : Key) : Prop :=
  ∃ e, g.entry? k = some e ∧ (kind k).Fitted e ∧ ∀ i ∈ e.inlets, g.FitsAll i.selection

section Prepared

variable {g g' : Graph} {kind : Key → Builtin} {k : Key}

theorem Prepared.of_sameShape (h : g.Prepared kind k) (hs : SameShape g g') :
    g'.Prepared kind k := by
  obtain ⟨e, he, hfitted, hfit⟩ := h
  obtain ⟨e', he', hblank⟩ := hs.exists_entry he
  have hinlets := (toSite_eq_of_blank hblank).2.2.2.1
  exact ⟨e', he', hfitted.of_blank hblank, fun i hi => hs.fitsAll (hfit i (hinlets ▸ hi))⟩

theorem selections_eq {e : Entry} (he : g.entry? k = some e) :
    g.selections k = e.inlets.map (·.selection) := by
  rw [selections, he]
  rfl

theorem Held.exists_gather (hh : g.Held) {s : Selection} (hfit : g.FitsAll s) :
    ∃ v, g.gather s = .ok v ∧ v.elemType = s.gatheredType ∧ v.length = s.size := by
  rw [gather_eq hfit]
  exact exists_gatherAs hh hfit fun _ ha => Selection.elemType_of_uniform hfit.1 ha

theorem Prepared.exists_inputs (h : g.Prepared kind k) (hh : g.Held) {e : Entry}
    (he : g.entry? k = some e) :
    ∃ inputs, e.inlets.mapM (fun i => g.gather i.selection) = .ok inputs ∧
      List.Forall₂ (fun s v => Values.length v = Selection.size s) (g.selections k) inputs ∧
      inputs.map (·.elemType) = (g.selections k).map (·.gatheredType) := by
  obtain ⟨e', he', hfitted, hfit⟩ := h
  obtain rfl : e = e' := Option.some.inj (he.symm.trans he')
  have hgather : ∀ i ∈ e.inlets, ∃ v, g.gather i.selection = .ok v ∧
      (v.length = i.selection.size ∧ v.elemType = i.selection.gatheredType) := fun i hi => by
    obtain ⟨v, hv, hvt, hvl⟩ := hh.exists_gather (hfit i hi)
    exact ⟨v, hv, hvl, hvt⟩
  obtain ⟨inputs, hinputs, hall⟩ := exists_mapM_eq_ok hgather
  refine ⟨inputs, hinputs, ?_, ?_⟩
  · rw [selections_eq he, List.forall₂_map_left_iff]
    exact hall.imp fun _ _ h => h.1
  · rw [selections_eq he, List.map_map, ← List.forall₂_eq_eq_eq, List.forall₂_map_left_iff,
      List.forall₂_map_right_iff]
    exact hall.flip.imp fun _ _ h => h.2

theorem Sound.not_readsRemoved {log : List Key} (h : Sound log g) (hvalid : g.validate = .ok ())
    (k : Key) : ¬ g.ReadsRemoved k := fun hr =>
  h.validate_eq_ok_iff.1 hvalid k hr.choose_spec.1.live hr

/-- A node that reads from no removed one is prepared. -/
theorem History.prepared {log : List Key} (h : History log g) (hk : g.BuiltFrom kind)
    (htyped : ∀ k, (kind k).Typed) (hl : g.Live k) (hvalid : ¬ g.ReadsRemoved k) :
    g.Prepared kind k := by
  obtain ⟨e, he⟩ := hl.exists_entry
  exact ⟨e, he, h.fitted he (hk k e he) (htyped k), fun i hi => h.sound.fitsAll hvalid he hi⟩

/-- A node in its place can be computed exactly when it takes what its inlets select. -/
theorem Prepared.computeNode_iff (h : g.Prepared kind k) (hb : g.Built kind) (hh : g.Held) :
    (∃ g', Succeeds (computeNode k) g () g') ↔ (kind k).Takes (g.selections k) := by
  obtain ⟨e, he, hfitted, hfit⟩ := id h
  obtain ⟨inputs, hinputs, hlen, htypes⟩ := h.exists_inputs hh he
  have hcount : (g.selections k).length = (kind k).inlets.length := by
    rw [selections_eq he, List.length_map, hfitted.inlets]
  have hspans : ∀ s ∈ g.selections k, ∀ a ∈ s.spans, a.elemType = (kind k).operandType := by
    rw [selections_eq he, List.forall_mem_map]
    exact hfitted.types
  rw [← Builtin.accepts_gatheredType_iff hcount hspans, ← htypes]
  constructor
  · rintro ⟨g', hrun⟩
    obtain ⟨e', o, inputs', o', he', ho, hinputs', -, hblank, hv⟩ := computeNode_succeeds hb hrun
    obtain rfl : e = e' := Option.some.inj (he.symm.trans he')
    obtain rfl : inputs = inputs' := Except.ok.inj (hinputs.symm.trans hinputs')
    rcases hv with ⟨hin, -⟩ | ⟨hv, hsuits⟩
    · exact Builtin.accepts_of_isInput hin
    · obtain ⟨o₁, ho₁, ht⟩ := hb.outlet k e he
      obtain rfl : o = o₁ := List.singleton_inj.1 (ho.symm.trans ho₁)
      refine Builtin.accepts_of_eval hv ?_ (hlen.length_eq.symm.trans hcount)
      exact hsuits.1.trans ((Outlet.eq_of_blank hblank).2.2.1.trans ht)
  · intro haccepts
    obtain ⟨o, ho, ht, hsize⟩ := hfitted.outlet
    have hrun : ∃ o', ((kind k).toNode.compute inputs).apply [o] = (.ok (), [o']) := by
      cases hin : (kind k).isInput with
      | true => exact ⟨o, Builtin.apply_of_isInput hin⟩
      | false =>
          obtain ⟨v, hv, hvt, hvl⟩ := Builtin.exists_eval (hsize hin)
            (selections_eq he ▸ hlen) (selections_eq he ▸ hcount) haccepts hin
          exact ⟨_, Builtin.apply_of_eval hv ⟨hvt.trans ht.symm, hvl⟩⟩
    obtain ⟨o', ho'⟩ := hrun
    refine ⟨g.setOutlets k [o'], ?_⟩
    unfold Succeeds
    rw [run_computeNode, he]
    simp only [hinputs, hb.node k e he, ho, ho']

theorem Held.computeNode (hh : g.Held) (hb : g.Built kind)
    (h : Succeeds (computeNode k) g () g') : g'.Held := by
  obtain ⟨e, o, inputs, o', he, ho, -, rfl, hblank, hv⟩ := computeNode_succeeds hb h
  refine hh.setOutlets ?_
  rcases hv with ⟨-, rfl⟩ | ⟨-, hsuits⟩
  · exact hh k e he o' (by simp [ho])
  · exact ⟨hsuits.1, by simp [← hsuits.2]⟩

theorem Held.compute (hh : g.Held) (hb : g.Built kind) (order : List Key) :
    ((Graph.compute order).run.run g).2.Held := by
  refine (compute_induction (P := fun g => g.Held ∧ g.Built kind) ?_ order ⟨hh, hb⟩).1
  rintro g k e inputs ⟨hh, hb⟩ he
  obtain ⟨o, ho, ht⟩ := hb.outlet k e he
  rw [hb.node k e he, ho]
  have hkeep : (g.setOutlets k [o]).Held ∧ (g.setOutlets k [o]).Built kind :=
    ⟨hh.setOutlets (hh k e he o (by simp [ho])), hb.setOutlets ht⟩
  rcases (kind k).apply_compute inputs o with ⟨v, -, hsuits, hr⟩ | ⟨-, hr⟩ | ⟨f, hr⟩
  · rw [hr]
    exact ⟨hh.setOutlets ⟨hsuits.1, by simp [← hsuits.2]⟩, hb.setOutlets ht⟩
  · rw [hr]
    exact hkeep
  · rw [hr]
    exact hkeep

/-- A list of nodes can be computed exactly when each of them takes what its inlets select. -/
theorem compute_iff {order : List Key} (hb : g.Built kind) (hh : g.Held)
    (h : ∀ k ∈ order, g.Prepared kind k) :
    (∃ g', Succeeds (Graph.compute order) g () g') ↔
      ∀ k ∈ order, (kind k).Takes (g.selections k) := by
  induction order generalizing g with
  | nil => exact iff_of_true ⟨g, rfl⟩ (by simp)
  | cons k order ih =>
      have hnode := (h k (by simp)).computeNode_iff hb hh
      -- What the first node leaves behind has the shape of what it found.
      have hrest : ∀ {g₁}, Succeeds (computeNode k) g () g₁ →
          ((∃ g', Succeeds (Graph.compute order) g₁ () g') ↔
            ∀ j ∈ order, (kind j).Takes (g.selections j)) := by
        intro g₁ hk
        have hshape := sameShape_computeNode hb hk
        rw [ih (built_of_computeNode hb hk) (hh.computeNode hb hk)
          fun j hj => (h j (by simp [hj])).of_sameShape hshape]
        simp only [hshape.selections_eq]
      rw [List.forall_mem_cons, ← hnode]
      constructor
      · rintro ⟨g', hrun⟩
        obtain ⟨u, g₁, hk, hgo⟩ := succeeds_bind.1
          (hrun : Succeeds (computeNode k >>= fun _ => Graph.compute order) g () g')
        exact ⟨⟨g₁, hk⟩, (hrest hk).1 ⟨g', hgo⟩⟩
      · rintro ⟨⟨g₁, hk⟩, htakes⟩
        obtain ⟨g', hgo⟩ := (hrest hk).2 htakes
        exact ⟨g', succeeds_bind.2 ⟨(), g₁, hk, hgo⟩⟩

end Prepared

end Graph

namespace Transform

section SetInput

variable {t t' : Transform} {e : Entry} {o : Outlet} {values : Values}

theorem setInput_eq_ok_iff (he : t.graph.entry? t.input = some e) (ho : e.outlets = [o]) :
    t.setInput values = .ok t' ↔ values.length = o.size.getD 0 ∧
      o.values.elemType = values.elemType ∧ o.values.length = values.length ∧
      t' = { t with graph := t.graph.setOutlets t.input [o.hold values] } := by
  have hsize : t.inputSize = .ok (o.size.getD 0) := by
    simp only [inputSize, inputOutlet, he, firstOutlet, ho]
    rfl
  unfold setInput
  rw [bind_eq_ok_iff]
  simp only [hsize, Except.ok.injEq, exists_eq_left']
  by_cases hlen : values.length = o.size.getD 0
  · simp only [hlen, ne_eq, not_true_eq_false, if_false, he, ho, List.getElem?_cons_zero,
      List.set_cons_zero, true_and]
    rw [bind_eq_ok_iff]
    constructor
    · rintro ⟨held, hheld, h⟩
      obtain ⟨ht, rfl⟩ := Values.expect_eq_ok_iff.1 hheld
      by_cases hheld : o.values.length = o.size.getD 0
      · rw [if_neg (not_not.2 hheld)] at h
        exact ⟨ht, hheld, (Except.ok.inj h).symm⟩
      · rw [if_pos hheld] at h
        cases h
    · rintro ⟨ht, hheld, rfl⟩
      refine ⟨o.values, Values.expect_eq_ok_iff.2 ⟨ht, rfl⟩, ?_⟩
      rw [if_neg (not_not.2 hheld)]
      rfl
  · simp only [hlen, ne_eq, not_false_eq_true, if_true, he, false_and, iff_false]
    intro h
    cases h

end SetInput

section Follows

variable {log : List Key} {kind : Key → Builtin} {t₀ t t' : Transform} {x : Values}

theorem Follows.held_setInput (h : Follows log kind t₀ t) (hh : t.graph.Held)
    (hs : t.setInput x = .ok t') : t'.graph.Held := by
  obtain ⟨e, o, he, ho, -⟩ := setInput_eq_ok hs
  obtain ⟨o₁, ho₁, -⟩ := h.graph.built.outlet _ e he
  obtain ⟨-, ht, hlen, rfl⟩ := (setInput_eq_ok_iff he ho₁).1 hs
  obtain ⟨hfull, hfull'⟩ := hh _ e he o₁ (by simp [ho₁])
  exact hh.setOutlets ⟨ht.symm.trans hfull, hlen.symm.trans hfull'⟩

theorem Follows.held_after (h : Follows log kind t₀ t) (hh : t.graph.Held) (c : Call) :
    (t.after c).graph.Held :=
  (after_induction (P := fun t => Follows log kind t₀ t ∧ t.graph.Held)
    (fun _ _ _ h hs => ⟨h.1.setInput hs, h.1.held_setInput h.2 hs⟩)
    (fun _ order h => ⟨⟨h.1.input, h.1.outputs, h.1.graph.compute order⟩,
      h.2.compute h.1.graph.built order⟩) ⟨h, hh⟩ c).2

theorem Follows.held_foldl (h : Follows log kind t₀ t) (hh : t.graph.Held) (calls : List Call) :
    (calls.foldl Transform.after t).graph.Held := by
  induction calls generalizing t with
  | nil => exact hh
  | cons c calls ih => exact ih (h.after c) (h.held_after hh c)

/-- The input can be set to all values of its type and size. -/
theorem Follows.exists_setInput (h : Follows log kind t₀ t) (hh : t.graph.Held)
    (htype : t₀.inputType = .ok x.elemType) (hsize : t₀.inputSize = .ok x.length) :
    ∃ t', t.setInput x = .ok t' := by
  obtain ⟨o, ho, hxt⟩ := map_eq_ok_iff.1 htype
  obtain ⟨o', ho', hxl⟩ := map_eq_ok_iff.1 hsize
  obtain rfl : o = o' := Except.ok.inj (ho.symm.trans ho')
  unfold inputOutlet at ho
  cases he₀ : t₀.graph.entry? t₀.input with
  | none =>
      rw [he₀] at ho
      cases ho
  | some e₀ =>
      rw [he₀] at ho
      obtain ⟨e, he, hblank⟩ := h.graph.shape.exists_entry he₀
      obtain ⟨o₁, ho₁, -⟩ := h.graph.built.outlet _ e he
      have hout := (Graph.toSite_eq_of_blank hblank).2.2.2.2.2
      rw [ho₁, List.map_singleton, eq_comm] at hout
      obtain ⟨o₂, ho₂, hob⟩ := List.map_eq_singleton_iff.1 hout
      simp only [firstOutlet, ho₂] at ho
      obtain rfl := Except.ok.inj ho
      obtain ⟨-, -, ht, hsize⟩ := Outlet.eq_of_blank hob
      obtain ⟨hfull, hfull'⟩ := hh _ e he o₁ (by simp [ho₁])
      rw [← h.input] at he
      refine ⟨_, (setInput_eq_ok_iff he ho₁).2 ⟨?_, ?_, ?_, rfl⟩⟩
      · rw [← hsize, hxl]
      · rw [hfull, ← ht, hxt]
      · rw [hfull', ← hsize, hxl]

end Follows

section Valid

variable {log : List Key} {kind : Key → Builtin} {t₀ t : Transform} {x : Values} {s : Selection}
  {elemType : ElemType} {index : Nat}

/-- The needed nodes of a transform can be put in order when none of them reads from a removed
one. -/
theorem Follows.exists_dependencyOrder (h : Follows log kind t₀ t)
    (hvalid : ∀ k, t₀.graph.Needed [s] k → ¬ t₀.graph.ReadsRemoved k)
    (hfit : t₀.graph.FitsAll s) :
    ∃ order, t.graph.dependencyOrder [s] = .ok order ∧
      (∀ k, k ∈ order ↔ t₀.graph.Needed [s] k) ∧
      ∀ k, t₀.graph.Needed [s] k → t₀.graph.Live k := by
  have hshape := h.graph.shape
  have hlive : ∀ k, t.graph.Needed [s] k → ¬ t.graph.ReadsRemoved k := by
    rintro k hk ⟨d, hd, hdead⟩
    exact hvalid k (hshape.needed_eq ▸ hk) ⟨d, hshape.reads_eq ▸ hd, fun hl => hdead ((hshape.live_iff d).2 hl)⟩
  have hres : ∀ s' ∈ [s], ∃ r, t.graph.resolve s' = .ok r :=
    List.forall_mem_singleton.2 ⟨s, Graph.resolve_of_fitsAll (hshape.fitsAll hfit)⟩
  rcases h.graph.sound.dependencyOrder_eq hres with ⟨-, ho⟩ | ⟨⟨k, hk, hr⟩, -⟩
  · obtain ⟨-, -, hmem, -⟩ := h.graph.sound.of_dependencyOrder hres ho
    refine ⟨_, ho, fun k => by rw [hmem, hshape.needed_eq], fun k hk => ?_⟩
    exact (hshape.live_iff k).1 (Graph.live_of_needed hres hlive (hshape.needed_eq ▸ hk))
  · exact absurd hr (hlive k hk)

/-- An output of a valid graph can be computed exactly when each node that it needs takes what its
inlets select. -/
theorem Follows.computeOutput_iff (h : Follows log kind t₀ t) (hh : t.graph.Held)
    (hprepared : ∀ k, t₀.graph.Live k → t₀.graph.Prepared kind k)
    (hvalid : ∀ k, ¬ t₀.graph.ReadsRemoved k) (hs : t₀.output index = .ok s)
    (hfit : t₀.graph.FitsAll s) (ht : t₀.outputType index = .ok elemType) :
    (∃ v t', Succeeds (Transform.computeOutput elemType index) t v t') ↔
      ∀ k, t₀.graph.Needed [s] k → (kind k).Takes (t₀.graph.selections k) := by
  have hshape := h.graph.shape
  obtain ⟨order, ho, hmem, hlive⟩ := h.exists_dependencyOrder (fun k _ => hvalid k) hfit
  have hready : ∀ k ∈ order, t.graph.Prepared kind k := fun k hk =>
    (hprepared k (hlive k ((hmem k).1 hk))).of_sameShape hshape
  have hnodes := Graph.compute_iff h.graph.built hh hready
  simp only [hmem, hshape.selections_eq] at hnodes
  rw [← hnodes]
  have htype : s.gatheredType = elemType := by
    obtain ⟨s', hs', ht⟩ := bind_eq_ok_iff.1 ht
    obtain rfl : s = s' := Except.ok.inj (hs.symm.trans hs')
    unfold Selection.gatheredType
    split at ht
    case h_1 u hu => rw [hu, Except.ok.inj ht, Option.getD_some]
    case h_2 => cases ht
  unfold Succeeds
  rw [run_computeOutput, (h.output_eq index).trans hs]
  dsimp only
  rw [ho]
  dsimp only
  rcases hc : (Graph.compute order).run.run t.graph with ⟨r, g⟩
  cases r with
  | error f =>
      refine iff_of_false ?_ ?_
      · rintro ⟨v, t', h⟩
        cases h
      · rintro ⟨g', h⟩
        cases h
  | ok u =>
      -- The output is gathered from outlets that are full.
      have hg : g = ((Graph.compute order).run.run t.graph).2 := (congrArg Prod.snd hc).symm
      obtain ⟨v, hv, hvt, -⟩ := Graph.Held.exists_gather (hg ▸ hh.compute h.graph.built order)
        ((hg ▸ h.graph.compute order).shape.fitsAll hfit)
      have hexpect : v.expect elemType = .ok v :=
        Values.expect_eq_ok_iff.2 ⟨hvt.trans htype, rfl⟩
      dsimp only
      rw [hv]
      exact iff_of_true ⟨v, _, congrArg (·, _) hexpect⟩ ⟨g, rfl⟩

theorem Follows.compute_iff (h : Follows log kind t₀ t) (hh : t.graph.Held)
    (hprepared : ∀ k, t₀.graph.Live k → t₀.graph.Prepared kind k)
    (hvalid : ∀ k, ¬ t₀.graph.ReadsRemoved k) (htype : t₀.inputType = .ok x.elemType)
    (hsize : t₀.inputSize = .ok x.length) (hs : t₀.output 0 = .ok s) (hfit : t₀.graph.FitsAll s)
    (ht : t₀.outputType 0 = .ok elemType) :
    (∃ v t', Succeeds (Transform.compute elemType x) t v t') ↔
      ∀ k, t₀.graph.Needed [s] k → (kind k).Takes (t₀.graph.selections k) := by
  obtain ⟨t₁, hset⟩ := h.exists_setInput hh htype hsize
  rw [← (h.setInput hset).computeOutput_iff (h.held_setInput hh hset) hprepared hvalid hs hfit ht]
  simp only [Succeeds, run_compute, hset]

/-- A transform of a valid graph of built-in nodes has a result for every input of its type and
size, whatever calls came before, exactly when each node that the output needs takes what its
inlets select. So it is when no inlet is without spans. -/
theorem compute_iff_takes {graph : Graph} (h : History log graph) (hk : graph.BuiltFrom kind)
    (htyped : ∀ k, (kind k).Typed) (hvalid : graph.validate = .ok ())
    {inputs : List (String × Key)} {outputs : List (String × Selection)}
    (hnew : new graph inputs outputs = .ok t₀) (calls : List Call)
    (htype : t₀.inputType = .ok x.elemType) (hsize : t₀.inputSize = .ok x.length)
    (hs : t₀.output 0 = .ok s) (ht : t₀.outputType 0 = .ok elemType) :
    (∃ v t', Succeeds (compute elemType x) (calls.foldl after t₀) v t') ↔
      ∀ k, graph.Needed [s] k → (kind k).Takes (graph.selections k) := by
  obtain ⟨rfl, -⟩ := new_eq_ok hnew
  have hremoved := h.sound.not_readsRemoved hvalid
  have hfollows : Follows log kind t₀ t₀ := ⟨rfl, rfl, .refl h hk⟩
  exact (hfollows.foldl calls).compute_iff (hfollows.held_foldl (h.held hk) calls)
    (fun k hl => h.prepared hk htyped hl (hremoved k)) hremoved htype hsize hs
    (fitsAll_of_new hnew hs).1 ht

def summation (s : Selection) (k : Key) : Builtin :=
  if k = ⟨1, 1⟩ then .sum .integer ⟨s⟩ rfl else .input .integer (some 2)

def summing (s : Selection) : Graph :=
  (Graph.replay [.addNumbered 0 (summation s ⟨0, 1⟩).toNode,
    .addNumbered 1 (summation s ⟨1, 1⟩).toNode]).2

def bothIntegers : Selection := .ofSpan ⟨⟨⟨0, 1⟩, 0⟩, .integer, 0, 2, 2, false⟩

theorem builtFrom_summing : (summing bothIntegers).BuiltFrom (summation bothIntegers) ∧
    (summing .empty).BuiltFrom (summation .empty) := by
  constructor <;>
  · intro k e he
    have hk := ((Graph.history_replay _).sound.mem_order_iff k).2 (Graph.live_of_entry he)
    have horder : k ∈ [(⟨0, 1⟩ : Key), ⟨1, 1⟩] := hk
    fin_cases horder <;>
    · obtain rfl := Option.some.inj he
      rfl

def summer (s : Selection) : Transform :=
  ⟨summing s, "input", ⟨0, 1⟩, [("output", .ofSpan ⟨⟨⟨1, 1⟩, 0⟩, .integer, 0, 1, 1, false⟩)]⟩

theorem new_summing (s : Selection) (h : s = bothIntegers ∨ s = .empty) :
    (summing s).validate = .ok () ∧
      new (summing s) [("input", ⟨0, 1⟩)] (summer s).outputs = .ok (summer s) := by
  rcases h with rfl | rfl <;> exact ⟨by cbv, by cbv⟩

theorem typed_summation {s : Selection} (h : ∀ a ∈ s.spans, a.elemType = .integer) (k : Key) :
    (summation s k).Typed := by
  unfold summation
  split
  · simpa [Builtin.Typed, Builtin.inlets, Builtin.operandType] using h
  · simp [Builtin.Typed, Builtin.inlets]

theorem exists_compute_summer : ∃ v t',
    Succeeds (compute .integer (.integers [1, 2])) (summer bothIntegers) v t' := by
  obtain ⟨hvalid, hnew⟩ := new_summing bothIntegers (Or.inl rfl)
  refine (compute_iff_takes (Graph.history_replay _) builtFrom_summing.1
    (typed_summation (by decide)) hvalid hnew [] rfl rfl rfl rfl).2 fun k _ => Or.inr (Or.inl ?_)
  change ∀ s ∈ (summing bothIntegers).selections k, s.spans ≠ []
  intro s hs
  cases he : Graph.entry? (summing bothIntegers) k with
  | none =>
      rw [Graph.selections, he] at hs
      cases hs
  | some e =>
      have hk : k ∈ [(⟨0, 1⟩ : Key), ⟨1, 1⟩] :=
        ((Graph.history_replay _).sound.mem_order_iff k).2 (Graph.live_of_entry he)
      obtain rfl | rfl := List.mem_pair.1 hk
      · cases hs
      · obtain rfl := List.mem_singleton.1 hs
        exact List.cons_ne_nil _ _

/-- The sum of no integers has no result: what is gathered for it is of type real. -/
theorem not_compute_summer : (summing .empty).BuiltFrom (summation .empty) ∧
    (summing .empty).validate = .ok () ∧
    new (summing .empty) [("input", ⟨0, 1⟩)] (summer .empty).outputs = .ok (summer .empty) ∧
    (summer .empty).inputType = .ok .integer ∧ (summer .empty).inputSize = .ok 2 ∧
    (summer .empty).outputType 0 = .ok .integer ∧
    ¬ ∃ v t', Succeeds (compute .integer (.integers [1, 2])) (summer .empty) v t' := by
  obtain ⟨hvalid, hnew⟩ := new_summing .empty (Or.inr rfl)
  refine ⟨builtFrom_summing.2, hvalid, hnew, rfl, rfl, rfl, fun hrun => ?_⟩
  have h := Graph.history_replay [.addNumbered 0 (summation .empty ⟨0, 1⟩).toNode,
    .addNumbered 1 (summation .empty ⟨1, 1⟩).toNode]
  have hremoved := h.sound.not_readsRemoved hvalid
  have hfollows : Follows _ (summation .empty) (summer .empty) (summer .empty) :=
    ⟨rfl, rfl, .refl h builtFrom_summing.2⟩
  have hfit := fitsAll_of_new hnew (rfl : Transform.output _ 0 = .ok _)
  have htakes := (hfollows.compute_iff (h.held builtFrom_summing.2) (fun k hl =>
    h.prepared builtFrom_summing.2 (typed_summation (by decide)) hl (hremoved k)) hremoved rfl rfl rfl
    hfit.1 rfl).1 hrun ⟨1, 1⟩
    ⟨_, List.mem_singleton_self _, _, List.mem_singleton_self _, .refl⟩
  rcases htakes with h | h | ⟨h, -⟩
  · cases h
  · exact h .empty (List.mem_singleton_self _) rfl
  · cases h

end Valid

end Transform

end Dataflow
