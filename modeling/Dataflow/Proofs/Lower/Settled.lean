import Dataflow.Proofs.Graph.Transform
import Dataflow.Proofs.Lower.Copy

/-!
# Results that the code has to reach

In a solution every node that the output needs holds its result for what its inlets collect, as it
does when a transform has computed its output. The code of the same transform is made from a graph
that has the same shape, whatever its outlets hold: so these results are what the code for the
nodes has to put into storage, and what it has to copy.
-/

namespace Dataflow

def Graph.Small (g : Graph) : Prop :=
  ∀ p o, g.outlet p = .ok o → o.size.getD 0 < 2 ^ 31

/-- The outlet of the node holds the result for what the inlets collect, unless the result is
supplied from outside. -/
def Graph.Solved (g : Graph) (kind : Key → Builtin) (k : Key) : Prop :=
  ∃ e o inputs, g.entry? k = some e ∧ e.outlets = [o] ∧
    List.Forall₂ (fun i v => g.Collects i.selection v) e.inlets inputs ∧
    ((kind k).isInput = true ∨
      ((kind k).eval inputs = .ok (some o.values) ∧ Builtin.Suits o o.values))

namespace Transform

/-- Everything that the output needs for the input `x` is in the graph, and `v` is collected from
it for the output. -/
structure Solution (log : List Key) (kind : Key → Builtin) (t₀ : Transform) (x v : Values)
    (s : Selection) (order : List Key) (g : Graph) : Prop where
  output : t₀.output 0 = .ok s
  graph : Graph.Evolved log kind t₀.input t₀.graph g
  live : ∀ k, g.Needed [s] k → ¬ g.ReadsRemoved k
  needed : ∀ k, k ∈ order ↔ g.Needed [s] k
  inOrder : g.InOrder order
  solved : ∀ k ∈ order, g.Solved kind k
  given : ∀ o, g.outlet ⟨t₀.input, 0⟩ = .ok o → o.values = x
  result : g.Collects s v

section Solution

variable {log : List Key} {kind : Key → Builtin} {t₀ : Transform} {x v : Values} {s : Selection}
  {order : List Key} {g g' : Graph}

/-- What the interpreter ends with is a solution. -/
theorem Finished.solution (h : Finished log kind t₀ x v s order g)
    (hfit : t₀.graph.FitsAll s) : Solution log kind t₀ x v s order g where
  output := h.output
  graph := h.graph
  live := h.live
  needed := h.needed
  inOrder := h.inOrder
  solved k hk := by
    obtain ⟨e, o, inputs, he, ho, hinputs, hv⟩ := h.settled k hk
    have hall := mapM_eq_ok_iff.1 hinputs
    refine ⟨e, o, inputs, he, ho, List.forall₂_iff_get.2 ⟨hall.length_eq, fun i h₁ h₂ => ?_⟩, hv⟩
    exact Graph.collects_of_gather (h.fits hk he (List.get_mem _ _)) (hall.get h₁ h₂)
  given := h.given
  result := Graph.collects_of_gather (h.graph.shape.fitsAll hfit) h.result

theorem Solution.small (h : Solution log kind t₀ x v s order g) (hsmall : t₀.graph.Small) :
    g.Small := by
  intro p o ho
  obtain ⟨o', ho', hblank⟩ := h.graph.shape.symm.outlet ho
  rw [← (Outlet.eq_of_blank hblank).2.2.2]
  exact hsmall p o' ho'

/-- What a needed node reads is gathered from other nodes. -/
theorem Solution.reads (h : Solution log kind t₀ x v s order g) (hsmall : t₀.graph.Small)
    {k : Key} (hk : k ∈ order) {e : Entry} (he : g.entry? k = some e) {c : LowerContext}
    (hc : c.site.inlets = e.inlets) {o : Outlet} (ho : o.port = ⟨k, 0⟩) {inputs : List Values}
    (hinputs : List.Forall₂ (fun i v => g.Collects i.selection v) e.inlets inputs) :
    Reads g c [o] inputs where
  gathers := hc ▸ hinputs
  fits l hl := h.graph.sound.fitsAll (h.live k ((h.needed k).1 hk)) he (hc ▸ hl)
  other l hl a ha := Outlet.notMem_single.2 fun hport => by
    have hread : g.Reads k a.port.node :=
      (Graph.reads_iff he).2 ⟨l, hc ▸ hl, a, ha, rfl⟩
    rw [hport, ho] at hread
    obtain ⟨pre, post, hsplit⟩ := List.append_of_mem hk
    have hpre := h.inOrder.2 pre k post hsplit k hread
    have hnodup := h.inOrder.1
    rw [hsplit] at hnodup
    exact (List.nodup_append.1 hnodup).2.2 k hpre k (by simp) rfl
  small := h.small hsmall

/-- A needed node of the graph that the code is made from has a result in the end. -/
theorem Solution.sited (h : Solution log kind t₀ x v s order g) (hsmall : t₀.graph.Small)
    (hg' : Graph.Evolved log kind t₀.input t₀.graph g') {k : Key} (hk : k ∈ order) :
    Lower.Sited g' g kind k where
  entry e' he' := by
    obtain ⟨o', ho', -⟩ := hg'.built.outlet k e' he'
    have hport : o'.port = ⟨k, 0⟩ := (hg'.sound.placed k e' he').ports 0 o' (by rw [ho']; rfl)
    refine ⟨hg'.built.node k e' he', o', ho', hport, fun hin => ?_⟩
    obtain ⟨e, o, inputs, he, ho, hinputs, hv⟩ := h.solved k hk
    obtain ⟨heval, hsuits⟩ := hv.resolve_left (by rw [hin]; exact Bool.false_ne_true)
    have hblank := (h.graph.shape.symm.trans hg'.shape).entry_eq he he'
    obtain ⟨-, -, -, hinlets, -, houtlets⟩ := Graph.toSite_eq_of_blank hblank
    rw [ho, ho'] at houtlets
    have hsame := Outlet.eq_of_blank (List.singleton_inj.1 houtlets)
    obtain ⟨o₁, ho₁, ht⟩ := h.graph.built.outlet k e he
    obtain rfl : o = o₁ := List.singleton_inj.1 (ho.symm.trans ho₁)
    refine ⟨inputs, o.values, h.reads hsmall hk he hinlets hport hinputs, heval,
      hsuits.1.trans ht, hsuits.1.trans hsame.2.2.1.symm, hsuits.2.trans hsame.2.2.2.symm,
      fun o₂ ho₂ => ?_⟩
    rw [hport] at ho₂
    obtain ⟨-, e₂, he₂, ho₂, -⟩ := Graph.outlet_eq_ok_of_built h.graph.built ho₂
    obtain rfl := Option.some.inj (he.symm.trans he₂)
    rw [List.singleton_inj.1 (ho.symm.trans ho₂)]

/-- A node is needed by an output no matter what the outlets hold. -/
theorem Solution.mem_order_iff (h : Solution log kind t₀ x v s order g)
    (hg' : Graph.Evolved log kind t₀.input t₀.graph g') (k : Key) :
    k ∈ order ↔ g'.Needed [s] k := by
  rw [h.needed, (h.graph.shape.symm.trans hg'.shape).needed_eq]

/-- The outlet of the input holds the input. -/
theorem Solution.exists_input (h : Solution log kind t₀ x v s order g) {e : Entry}
    (he : t₀.graph.entry? t₀.input = some e) :
    ∃ o, g.outlet ⟨t₀.input, 0⟩ = .ok o ∧ o.values = x := by
  obtain ⟨e', he', -⟩ := h.graph.shape.exists_entry he
  obtain ⟨o, ho, -⟩ := h.graph.built.outlet _ e' he'
  have hgo : g.outlet ⟨t₀.input, 0⟩ = .ok o :=
    Graph.outlet_eq_ok_iff.2 ⟨e', he', by rw [ho]; rfl⟩
  exact ⟨o, hgo, h.given o hgo⟩

theorem Solution.length_eq (h : Solution log kind t₀ x v s order g)
    (hfit : t₀.graph.FitsAll s) : v.length = s.size := by
  have hcells := h.result.cells (h.graph.shape.fitsAll hfit)
  rw [← Values.length_scalars, ← hcells.length_eq, Selection.length_cells]

/-- The cells of the output hold what has been computed. -/
theorem Solution.supplies (h : Solution log kind t₀ x v s order g)
    (hsmall : t₀.graph.Small) (hfit : t₀.graph.FitsAll s) (hsize : s.size < 2 ^ 31) :
    Supplies g v s.spans 0 := by
  have hfit' := h.graph.shape.fitsAll hfit
  have hcells := h.result.cells hfit'
  refine ⟨fun sp hsp => ?_, fun k c hc => ?_, ?_⟩
  · exact (h.result.elemType hfit' (Selection.elemType?_of_uniform hfit.1 hsp)).symm
  · have hmem := List.mem_of_getElem? hc
    obtain ⟨hk, hck⟩ := List.getElem?_eq_some_iff.1 hc
    have hk' : k < v.scalars.length := hcells.length_eq ▸ hk
    obtain ⟨o, ho, hheld⟩ := hcells.get hk hk'
    rw [show s.cells.get ⟨k, hk⟩ = c from hck] at ho hheld
    refine ⟨?_, _, o, by rw [Nat.zero_add]; exact List.getElem?_eq_getElem hk', ho, hheld⟩
    obtain ⟨sp, hsp, hc⟩ := List.mem_flatMap.1 hmem
    obtain ⟨i, hi, rfl⟩ := List.mem_map.1 hc
    obtain ⟨o', ho', hsize', -, hstop, -⟩ := hfit'.2 sp hsp
    have hlt := h.small hsmall _ _ ho'
    rw [hsize', Option.getD_some] at hlt
    have hi' := (List.mem_range'_1.1 hi).2
    unfold Span.stop at hstop
    exact hi'.trans_le (hstop.trans hlt.le)
  · rw [h.length_eq hfit]
    exact hsize

end Solution

end Transform

end Dataflow
