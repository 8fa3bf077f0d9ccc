import Dataflow.Proofs.Graph.Interpretation
import Dataflow.Proofs.Lower.Settled

/-!
# Every input has a solution

A built-in node has a result for whatever its inlets select, as long as values of its operand type
are taken for the ones that an inlet without spans selects. So the needed nodes can be given their
results one after the other in dependency order, also where the interpreter has none, and every
input of a transform has a solution.
-/

namespace Dataflow

namespace Builtin

theorem accepts_of_operandType {b : Builtin} {types : List ElemType}
    (h : ∀ u ∈ types, u = b.operandType) : b.Accepts types := by
  cases b with
  | input t size => trivial
  | constant values => trivial
  | predicate t op x y => exact fun u hu w hw => (h u hu).trans (h w hw).symm
  | _ => exact h

end Builtin

namespace Graph

section Solved

variable {log : List Key} {g₀ g g' : Graph} {kind : Key → Builtin} {input k j : Key}
  {s : Selection} {v : Values}

theorem gatherAs_congr (t : ElemType)
    (h : ∀ a ∈ s.spans, g'.outlet a.port = g.outlet a.port) :
    g'.gatherAs t s = g.gatherAs t s := by
  unfold gatherAs
  rw [resolve_congr h]
  cases hr : g.resolve s with
  | error f => rfl
  | ok r => exact gatherSpans_congr (outlet_congr_of_resolve hr h)

/-- What an inlet of a node collects stays while an outlet changes that the node does not read. -/
theorem Collects.setOutlets {i : Inlet} (h : g.Collects i.selection v) {e : Entry}
    (he : g.entry? j = some e) (hi : i ∈ e.inlets) (hreads : ¬ g.Reads j k)
    (outlets : List Outlet) : (g.setOutlets k outlets).Collects i.selection v := by
  obtain ⟨t, ht, hv⟩ := h
  refine ⟨t, ht, ?_⟩
  rw [gatherAs_congr t fun a ha => outlet_setOutlets_of_ne ?_, hv]
  rintro rfl
  exact hreads ((reads_iff he).2 ⟨i, hi, a, ha, rfl⟩)

theorem Solved.setOutlets (h : g.Solved kind j) (hjk : j ≠ k) (hreads : ¬ g.Reads j k)
    (outlets : List Outlet) : (g.setOutlets k outlets).Solved kind j := by
  obtain ⟨e, o, inputs, he, ho, hinputs, hv⟩ := h
  refine ⟨e, o, inputs, ?_, ho, ?_, hv⟩
  · rw [lookup_setOutlets, if_neg hjk]
    exact he
  · rw [List.forall₂_iff_get] at hinputs ⊢
    exact ⟨hinputs.1, fun n h₁ h₂ =>
      (hinputs.2 n h₁ h₂).setOutlets he (List.get_mem _ _) hreads outlets⟩

/-- Values of the operand type can be collected for the inlets, and the node has a result for
them, unless it is an input. -/
theorem Prepared.exists_eval (h : g.Prepared kind k) (hh : g.Held) {e : Entry}
    (he : g.entry? k = some e) : ∃ inputs,
      List.Forall₂ (fun i v => g.Collects i.selection v) e.inlets inputs ∧
      ∀ o, e.outlets = [o] → (kind k).isInput = false →
        ∃ v, (kind k).eval inputs = .ok (some v) ∧ Builtin.Suits o v := by
  obtain ⟨e', he', hfitted, hfit⟩ := h
  obtain rfl : e = e' := Option.some.inj (he.symm.trans he')
  have hgather : ∀ i ∈ e.inlets, ∃ v, g.gatherAs (kind k).operandType i.selection = .ok v ∧
      (g.Collects i.selection v ∧ v.elemType = (kind k).operandType ∧
        v.length = i.selection.size) := fun i hi => by
    have htypes := hfitted.types i hi
    obtain ⟨v, hv, hvt, hvl⟩ := exists_gatherAs hh (hfit i hi) htypes
    refine ⟨v, hv, ⟨_, fun u hu => ?_, hv⟩, hvt, hvl⟩
    obtain ⟨a, ha, hau⟩ := Option.map_eq_some_iff.1 hu
    exact hau.symm.trans (htypes a (List.mem_of_mem_head? ha))
  obtain ⟨inputs, -, hall⟩ := exists_mapM_eq_ok hgather
  refine ⟨inputs, hall.imp fun _ _ h => h.1, fun o ho hin => ?_⟩
  obtain ⟨o', ho', ht, hsize⟩ := hfitted.outlet
  obtain rfl : o = o' := List.singleton_inj.1 (ho.symm.trans ho')
  have hlen : List.Forall₂ (fun s v => Values.length v = Selection.size s)
      (e.inlets.map (·.selection)) inputs := by
    rw [List.forall₂_map_left_iff]
    exact hall.imp fun _ _ h => h.2.2
  have htypes : ∀ u ∈ inputs.map (·.elemType), u = (kind k).operandType := by
    rw [List.forall_mem_map]
    intro v hv
    obtain ⟨n, hn, rfl⟩ := List.getElem_of_mem hv
    exact (hall.get (hall.length_eq.symm ▸ hn) hn).2.1
  obtain ⟨v, hv, hvt, hvl⟩ := Builtin.exists_eval (hsize hin) hlen
    (by rw [List.length_map, hfitted.inlets]) (Builtin.accepts_of_operandType htypes) hin
  exact ⟨v, hv, hvt.trans ht.symm, hvl⟩

/-- A node that does not read itself can be given its result. -/
theorem Prepared.exists_solved (h : g.Prepared kind k) (hh : g.Held) (hb : g.Built kind)
    (hself : ¬ g.Reads k k) : ∃ e o o', g.entry? k = some e ∧ e.outlets = [o] ∧
      o'.blank = o.blank ∧ o'.Full ∧ ((kind k).isInput = true → o' = o) ∧
      (g.setOutlets k [o']).Solved kind k := by
  obtain ⟨e, he, -⟩ := id h
  obtain ⟨o, ho, -⟩ := hb.outlet k e he
  obtain ⟨inputs, hinputs, heval⟩ := h.exists_eval hh he
  have hsolved : ∀ o', ((kind k).isInput = true ∨
      ((kind k).eval inputs = .ok (some o'.values) ∧ Builtin.Suits o' o'.values)) →
      (g.setOutlets k [o']).Solved kind k := by
    intro o' hv
    refine ⟨{ e with outlets := [o'] }, o', inputs, ?_, rfl, ?_, hv⟩
    · rw [lookup_setOutlets, if_pos rfl, he]
      rfl
    · rw [List.forall₂_iff_get] at hinputs ⊢
      exact ⟨hinputs.1, fun n h₁ h₂ =>
        (hinputs.2 n h₁ h₂).setOutlets he (List.get_mem _ _) hself [o']⟩
  cases hin : (kind k).isInput with
  | true => exact ⟨e, o, o, he, ho, rfl, hh k e he o (by simp [ho]), fun _ => rfl,
      hsolved o (Or.inl hin)⟩
  | false =>
      obtain ⟨v, hv, hsuits⟩ := heval o ho hin
      exact ⟨e, o, o.hold v, he, ho, rfl, ⟨hsuits.1, by simp [← hsuits.2]⟩, nofun,
        hsolved _ (Or.inr ⟨hv, hsuits⟩)⟩

/-- The nodes of an order can be given their results from first to last. -/
theorem Evolved.exists_solved {pre post : List Key} (h : Evolved log kind input g₀ g)
    (hh : g.Held) (hprepared : ∀ j ∈ post, g.Prepared kind j) (hpre : ∀ j ∈ pre, g.Solved kind j)
    (horder : g.InOrder (pre ++ post)) : ∃ g', Evolved log kind input g₀ g' ∧ g'.Held ∧
      (∀ j ∈ pre ++ post, g'.Solved kind j) ∧
      ∀ j, (kind j).isInput = true → g'.entry? j = g.entry? j := by
  induction post generalizing pre g with
  | nil => exact ⟨g, h, hh, by simpa using hpre, fun _ _ => rfl⟩
  | cons k post ih =>
      have hnotin : k ∉ pre := fun hm =>
        (List.nodup_append.1 horder.1).2.2 k hm k (by simp) rfl
      have hself : ¬ g.Reads k k := fun hread => hnotin (horder.2 pre k post rfl k hread)
      obtain ⟨e, o, o', he, ho, hblank, hfull, hin, hsolved⟩ :=
        (hprepared k (by simp)).exists_solved hh h.built hself
      have hshape : SameShape g (g.setOutlets k [o']) :=
        sameShape_setOutlets he (by simp [ho, hblank])
      -- The nodes that are done do not read the next one.
      have hpre' : ∀ j ∈ pre ++ [k], (g.setOutlets k [o']).Solved kind j := by
        intro j hj
        rcases List.mem_append.1 hj with hj | hj
        · refine (hpre j hj).setOutlets (ne_of_mem_of_not_mem hj hnotin) (fun hread => ?_) _
          obtain ⟨before, after, rfl⟩ := List.append_of_mem hj
          have hd := horder.2 before j (after ++ k :: post) (by simp) k hread
          exact hnotin (by simp [hd])
        · obtain rfl := List.mem_singleton.1 hj
          exact hsolved
      obtain ⟨g', h', hh', hall, hkeep⟩ := ih (h.setOutlets he ho hblank fun _ => hin)
        (hh.setOutlets hfull) (fun j hj => (hprepared j (by simp [hj])).of_sameShape hshape) hpre'
        (by simpa using horder.of_sameShape hshape)
      refine ⟨g', h', hh', by simpa using hall, fun j hj => (hkeep j hj).trans ?_⟩
      rw [lookup_setOutlets]
      by_cases hjk : j = k
      · subst hjk
        rw [if_pos rfl, he, hin hj, ← ho]
        rfl
      · rw [if_neg hjk]

end Solved

end Graph

namespace Transform

variable {log : List Key} {kind : Key → Builtin} {t₀ t : Transform} {x : Values} {s : Selection}
  {order : List Key}

/-- The input keeps its type and its size between the calls. -/
theorem Follows.exists_inputOutlet (h : Follows log kind t₀ t) {o : Outlet}
    (ho : t.inputOutlet = .ok o) :
    ∃ o₀, t₀.inputOutlet = .ok o₀ ∧ o₀.elemType = o.elemType ∧ o₀.size = o.size := by
  unfold inputOutlet at ho
  cases he : t.graph.entry? t.input with
  | none =>
      rw [he] at ho
      cases ho
  | some e =>
      rw [he] at ho
      obtain ⟨o₁, ho₁, -⟩ := h.graph.built.outlet _ e he
      simp only [firstOutlet, ho₁] at ho
      obtain rfl := Except.ok.inj ho
      obtain ⟨e₀, he₀, hblank⟩ := h.graph.shape.symm.exists_entry he
      have hout := (Graph.toSite_eq_of_blank hblank).2.2.2.2.2
      rw [ho₁, List.map_singleton] at hout
      obtain ⟨o₀, ho₀, hob⟩ := List.map_eq_singleton_iff.1 hout
      obtain ⟨-, -, ht, hsize⟩ := Outlet.eq_of_blank hob
      refine ⟨o₀, ?_, ht, hsize⟩
      rw [inputOutlet, ← h.input, he₀]
      simp only [firstOutlet, ho₀]

/-- Every input of its type and size has a solution when the output has a dependency order. -/
theorem Follows.exists_solution (h : Follows log kind t₀ t) (hgraph : Graph.History log t₀.graph)
    (hkind : t₀.graph.BuiltFrom kind) (htyped : ∀ k, (kind k).Typed)
    (hin : (kind t₀.input).isInput = true) (hs : t₀.output 0 = .ok s)
    (hfit : t₀.graph.FitsAll s) (hsorted : t.graph.dependencyOrder [s] = .ok order)
    (htype : t₀.inputType = .ok x.elemType) (hsize : t₀.inputSize = .ok x.length) :
    ∃ v g, Solution log kind t₀ x v s order g := by
  have hstart : Follows log kind t₀ t₀ := ⟨rfl, rfl, .refl hgraph hkind⟩
  have hheld := hgraph.held hkind
  obtain ⟨t₁, hset⟩ := hstart.exists_setInput hheld htype hsize
  have h₁ := hstart.setInput hset
  have hshape := h.graph.shape.symm.trans h₁.graph.shape
  have hres : ∀ s' ∈ [s], ∃ r, t.graph.resolve s' = .ok r :=
    List.forall_mem_singleton.2 ⟨s, Graph.resolve_of_fitsAll (h.graph.shape.fitsAll hfit)⟩
  obtain ⟨hremoved, -, hmem, horder⟩ := h.graph.sound.of_dependencyOrder hres hsorted
  have hprepared : ∀ k ∈ order, t₁.graph.Prepared kind k := by
    intro k hk
    have hneeded := (hmem k).1 hk
    have hlive := Graph.live_of_needed hres hremoved hneeded
    refine (hgraph.prepared hkind htyped ((h.graph.shape.live_iff k).1 hlive) ?_).of_sameShape
      h₁.graph.shape
    rintro ⟨d, hd, hdead⟩
    exact hremoved k hneeded ⟨d, h.graph.shape.reads_eq ▸ hd,
      fun hl => hdead ((h.graph.shape.live_iff d).1 hl)⟩
  obtain ⟨g, hg, hgheld, hsolved, hkeep⟩ := h₁.graph.exists_solved
    (hstart.held_setInput hheld hset) hprepared (List.forall_mem_nil _) (horder.of_sameShape hshape)
  have hsame : Graph.SameShape t.graph g := h.graph.shape.symm.trans hg.shape
  obtain ⟨v, hv, -⟩ := hgheld.exists_gather (hg.shape.fitsAll hfit)
  refine ⟨v, g, hs, hg, ?_, ?_, horder.of_sameShape hsame, hsolved, ?_,
    Graph.collects_of_gather (hg.shape.fitsAll hfit) hv⟩
  · rw [hsame.needed_eq]
    rintro k hk ⟨d, hd, hdead⟩
    exact hremoved k hk ⟨d, hsame.reads_eq ▸ hd, fun hl => hdead ((hsame.live_iff d).2 hl)⟩
  · rwa [hsame.needed_eq]
  · intro o hgo
    obtain ⟨-, e, he, ho, -⟩ := Graph.outlet_eq_ok_of_built hg.built hgo
    rw [hkeep t₀.input hin] at he
    obtain ⟨e₀, o₀, he₀, ho₀, rfl⟩ := setInput_eq_ok hset
    obtain ⟨o₁, ho₁, -⟩ := hstart.graph.built.outlet _ e₀ he₀
    change Graph.entry? (t₀.graph.setOutlets t₀.input _) t₀.input = _ at he
    rw [Graph.lookup_setOutlets, if_pos rfl, he₀] at he
    obtain rfl := Option.some.inj he
    simp only [ho₁, List.set_cons_zero, List.cons.injEq, and_true] at ho
    rw [← ho, Outlet.values_hold]

end Transform

end Dataflow
