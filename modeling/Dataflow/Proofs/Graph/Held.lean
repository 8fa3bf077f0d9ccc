import Dataflow.Proofs.Graph.Selection
import Dataflow.Proofs.Graph.Transform
import Dataflow.Proofs.Node.Result

/-!
# What outlets hold and inlets gather

In a graph of built-in nodes every outlet holds as many values as its size says, all of its type.
Hence a selection that fits the graph can be gathered, and what is gathered has the size of the
selection. The types of the selected values and the size of the outlet are settled when a node is
added: the inlets read values of the node's operand type, and the outlet is as large as the node
makes it for them.
-/

namespace Dataflow

open Dataflow.Graph (SameShape History lookup_setOutlets)

theorem Values.exists_extend {v source : Values} {start count : Nat}
    (hlen : start + count ≤ source.length) (ht : source.elemType = v.elemType) :
    ∃ u, v.extend source start count = .ok u ∧ u.elemType = v.elemType ∧
      u.length = v.length + count := by
  have happend : ∃ u, v.append? (source.extract start count) = some u := by
    cases v <;> cases source <;> first | exact ⟨_, rfl⟩ | cases ht
  obtain ⟨u, hu⟩ := happend
  have hextend : v.extend source start count = .ok u := by
    rw [extend, if_pos hlen, hu]
  obtain ⟨-, -, htype, hscalars⟩ := extend_eq_ok hextend
  refine ⟨u, hextend, htype, ?_⟩
  rw [← length_scalars, hscalars]
  simp only [List.length_append, List.length_take, List.length_drop, length_scalars]
  omega

structure Outlet.Full (o : Outlet) : Prop where
  elemType : o.values.elemType = o.elemType
  length : o.values.length = o.size.getD 0

/-- The inlets select values of the operand type, which is that of their typed selections. -/
def Builtin.Typed (b : Builtin) : Prop :=
  ∀ i ∈ b.inlets, ∀ a ∈ i.selection.spans, a.elemType = b.operandType

/-- The node in its place reads values of the operand type, and its outlet is as large as the node
makes it for what is read. -/
structure Builtin.Fitted (b : Builtin) (e : Entry) : Prop where
  inlets : e.inlets.length = b.inlets.length
  types : ∀ i ∈ e.inlets, ∀ a ∈ i.selection.spans, a.elemType = b.operandType
  outlet : ∃ o, e.outlets = [o] ∧ o.elemType = b.elemType ∧
    (b.isInput = false → b.outletSize (e.inlets.map (·.selection)) = .ok o.size)

theorem Builtin.Fitted.of_blank {b : Builtin} {e e' : Entry} (h : b.Fitted e)
    (hblank : e'.blank = e.blank) : b.Fitted e' := by
  obtain ⟨-, -, -, hinlets, -, houtlets⟩ := Graph.toSite_eq_of_blank hblank
  obtain ⟨o, ho, ht, hsize⟩ := h.outlet
  rw [ho] at houtlets
  obtain ⟨o', ho', ho''⟩ := List.map_eq_singleton_iff.1 houtlets
  have hsame := Outlet.eq_of_blank ho''
  refine ⟨hinlets ▸ h.inlets, hinlets ▸ h.types, o', ho', hsame.2.2.1.trans ht, fun hin => ?_⟩
  rw [hinlets, hsame.2.2.2]
  exact hsize hin

namespace Graph

theorem types_of_resolve {g : Graph} {s r : Selection} (h : g.resolve s = .ok r) {t : ElemType}
    (ht : ∀ a ∈ s.spans, a.elemType = t) : ∀ a ∈ r.spans, a.elemType = t := by
  intro b hb
  obtain ⟨a, ha, hab⟩ := exists_of_mem_mapM (mapM_eq_ok_iff.2 (resolve_eq_ok_iff.1 h).1) hb
  obtain ⟨_, _, -, -, -, -, rfl⟩ := resolveSpan_eq_ok_iff.1 hab
  exact ht a ha

/-- However a graph came about, its built-in nodes are fitted. -/
theorem History.fitted {log : List Key} {g : Graph} (h : History log g) {k : Key} {e : Entry}
    (he : g.entry? k = some e) {b : Builtin} (hb : e.node = b.toNode) (hty : b.Typed) :
    b.Fitted e := by
  refine h.entry_induction (P := fun e => ∀ b : Builtin, e.node = b.toNode → b.Typed → b.Fitted e)
    ?_ ?_ ?_ k e he b hb hty
  · intro g id node inlets specs k hinlets hspecs b hb hty
    obtain rfl : node = b.toNode := hb
    obtain ⟨size, hsize, hs⟩ := bind_eq_ok_iff.1 hspecs
    obtain rfl := Except.ok.inj hs
    refine ⟨(mapM_eq_ok_iff.1 hinlets).length_eq.symm, fun l hl => ?_, _, rfl, rfl, fun _ => hsize⟩
    obtain ⟨i, hi, hil⟩ := exists_of_mem_mapM hinlets hl
    exact types_of_resolve (resolveInlet_eq_ok_iff.1 hil).1 (hty i hi)
  · intro e inputs hfitted b hb hty
    refine (hfitted b hb hty).of_blank ?_
    rw [Entry.blank, Entry.blank, blank_apply]
  · intro e i o size hfitted hi hnone b hb hty
    obtain ⟨hlen, htypes, o', ho, ht, hsize⟩ := hfitted b hb hty
    rw [ho] at hi
    obtain ⟨rfl, rfl⟩ : i = 0 ∧ o' = o := by
      cases i with
      | zero => exact ⟨rfl, Option.some.inj hi⟩
      | succ i => cases hi
    refine ⟨hlen, htypes, o'.setSize size, by simp [ho], ht, fun hin => ?_⟩
    -- Only the outlet of an input can be without a size.
    have hsome := hsize hin
    rw [hnone] at hsome
    cases b with
    | input t size => cases hin
    | constant values => cases hsome
    | sum t x => cases hsome
    | _ =>
        obtain ⟨_, -, hsome⟩ := map_eq_ok_iff.1 hsome
        cases hsome

def Held (g : Graph) : Prop := ∀ k e, g.entry? k = some e → ∀ o ∈ e.outlets, o.Full

section Held

variable {g : Graph} {kind : Key → Builtin} {k : Key}

theorem History.held {log : List Key} (h : History log g) (hk : g.BuiltFrom kind) : g.Held := by
  intro k e he o ho
  obtain ⟨-, o', ho', -, ht, hl, -⟩ := h.seated he (hk k e he)
  rw [ho'] at ho
  obtain rfl := List.mem_singleton.1 ho
  exact ⟨ht, hl⟩

theorem Held.outlet (h : g.Held) {p : Port} {o : Outlet} (ho : g.outlet p = .ok o) : o.Full := by
  obtain ⟨e, he, hi⟩ := outlet_eq_ok_iff.1 ho
  exact h _ e he o (List.mem_of_getElem? hi)

theorem Held.setOutlets (h : g.Held) {o : Outlet} (ho : o.Full) : (g.setOutlets k [o]).Held := by
  intro k' e he o' ho'
  rcases entry_of_setOutlets he with ⟨-, he⟩ | ⟨e', -, he', rfl⟩
  · exact h k' e he o' ho'
  · obtain rfl := List.mem_singleton.1 ho'
    exact ho

/-- The values of a selection, of type `t` if there are none. -/
def gatherAs (g : Graph) (t : ElemType) (s : Selection) : Except Fault Values := do
  let resolved ← g.resolve s
  g.gatherSpans (.zeros t 0) resolved.spans

theorem gather_eq {s : Selection} (hfit : g.FitsAll s) :
    g.gather s = g.gatherAs s.gatheredType s := by
  rw [gather, gatherAs, resolve_of_fitsAll hfit]
  rfl

theorem elemType_of_gatherSpans {spans : List Span} {values v : Values}
    (h : g.gatherSpans values spans = .ok v) : v.elemType = values.elemType := by
  induction spans generalizing values with
  | nil => rw [Except.ok.inj h]
  | cons a spans ih =>
      obtain ⟨o, -, h⟩ := bind_eq_ok_iff.1 h
      obtain ⟨u, hu, h⟩ := bind_eq_ok_iff.1 h
      exact (ih h).trans (Values.extend_eq_ok hu).2.2.1

/-- The values of a selection. What their type is if there are none is left open. -/
def Collects (g : Graph) (s : Selection) (v : Values) : Prop :=
  ∃ t, (∀ u, s.elemType? = some u → u = t) ∧ g.gatherAs t s = .ok v

theorem collects_of_gather {s : Selection} (hfit : g.FitsAll s) {v : Values}
    (h : g.gather s = .ok v) : g.Collects s v :=
  ⟨s.gatheredType, fun u hu => by rw [Selection.gatheredType, hu, Option.getD_some],
    gather_eq hfit ▸ h⟩

theorem exists_gatherSpans (h : g.Held) {spans : List Span} {values : Values}
    (hfit : ∀ a ∈ spans, g.Fits a) (ht : ∀ a ∈ spans, a.elemType = values.elemType) :
    ∃ v, g.gatherSpans values spans = .ok v ∧ v.elemType = values.elemType ∧
      v.length = values.length + Selection.size ⟨spans⟩ := by
  induction spans generalizing values with
  | nil => exact ⟨values, rfl, rfl, rfl⟩
  | cons a spans ih =>
      obtain ⟨o, ho, hsize, hot, hstop, -⟩ := hfit a (by simp)
      obtain ⟨hvt, hvl⟩ := h.outlet ho
      rw [hsize, Option.getD_some] at hvl
      have hwithin : a.start + a.length ≤ o.values.length := by rw [hvl]; exact hstop
      have htype : o.values.elemType = values.elemType := by rw [hvt, hot]; exact ht a (by simp)
      obtain ⟨u, hu, hut, hul⟩ := Values.exists_extend hwithin htype
      obtain ⟨v, hv, hvt', hvl'⟩ := ih (fun b hb => hfit b (by simp [hb]))
        fun b hb => (ht b (by simp [hb])).trans hut.symm
      refine ⟨v, ?_, hvt'.trans hut, ?_⟩
      · rw [gatherSpans, ho]
        simp only [bind, Except.bind, hu, hv]
      · rw [hvl', hul, Nat.add_assoc]
        rfl

/-- A selection that fits can be gathered. -/
theorem exists_gatherAs (h : g.Held) {s : Selection} (hfit : g.FitsAll s) {t : ElemType}
    (ht : ∀ a ∈ s.spans, a.elemType = t) :
    ∃ v, g.gatherAs t s = .ok v ∧ v.elemType = t ∧ v.length = s.size := by
  have ht : ∀ a ∈ s.spans, a.elemType = (Values.zeros t 0).elemType := by simpa using ht
  obtain ⟨v, hv, hvt, hvl⟩ := exists_gatherSpans h hfit.2 ht
  refine ⟨v, ?_, by simpa using hvt, by simpa using hvl⟩
  rw [gatherAs, resolve_of_fitsAll hfit]
  exact hv

end Held

end Graph

end Dataflow
