import Dataflow.Proofs.Digraph
import Dataflow.Proofs.Graph.History

/-!
# What the dependency order is

The nodes that some outputs need are those they read and whatever these depend on. When all of
them read from nodes that are still there, the dependency order is the list of nodes restricted
to the needed ones, which puts dependencies first because nodes are listed as they were added.
Otherwise something is reported missing. A graph with a history has no cycles to report.
-/

namespace Dataflow.Graph

open Relation

/-- Some output reads the node, or a node that depends on it. -/
def Needed (g : Graph) (outputs : List Selection) (k : Key) : Prop :=
  ∃ s ∈ outputs, ∃ a ∈ s.spans, ReflTransGen g.Reads a.port.node k

/-- The node reads a port of a node that is no longer there. -/
def ReadsRemoved (g : Graph) (k : Key) : Prop := ∃ d, g.Reads k d ∧ ¬ g.Live d

def InOrder (g : Graph) (order : List Key) : Prop :=
  order.Nodup ∧ ∀ pre k post, order = pre ++ k :: post → ∀ d, g.Reads k d → d ∈ pre

theorem SameShape.reads_eq {g g' : Graph} (h : SameShape g g') : g'.Reads = g.Reads := by
  ext a b
  rw [Reads, Reads, h.dependencies]

theorem SameShape.needed_eq {g g' : Graph} (h : SameShape g g') : g'.Needed = g.Needed := by
  ext outputs k
  rw [Needed, Needed, h.reads_eq]

theorem resolveSpan_of_not_live {g : Graph} {s : Span} (h : ¬ g.Live s.port.node) :
    g.resolveSpan s = .error (.missing .removedPort) := by
  have hnone : g.entry? s.port.node = none := by simpa [Live] using h
  simp only [resolveSpan, outlet, hnone]
  rfl

theorem live_of_resolve {g : Graph} {s r : Selection} (h : g.resolve s = .ok r) :
    ∀ a ∈ s.spans, g.Live a.port.node := by
  intro a ha
  have hport := map_port_of_resolve h
  have hm : a.port ∈ r.spans.map (·.port) := hport ▸ List.mem_map_of_mem ha
  obtain ⟨b, hb, hab⟩ := List.mem_map.1 hm
  exact hab ▸ ((fitsAll_of_resolve h).2 b hb).live

/-- A selection whose spans fit wherever there still is a node can fail to resolve in one way. -/
theorem resolve_eq_self_or_error {g : Graph} {s : Selection} (hu : s.Uniform)
    (hfit : ∀ a ∈ s.spans, g.Live a.port.node → g.Fits a) :
    g.resolve s = .ok s ∨ g.resolve s = .error (.missing .removedPort) := by
  cases hm : s.spans.mapM g.resolveSpan with
  | ok spans =>
      left
      refine resolve_of_fitsAll ⟨hu, fun a ha => hfit a ha ?_⟩
      obtain ⟨i, hi, rfl⟩ := List.getElem_of_mem ha
      have hall := mapM_eq_ok_iff.1 hm
      obtain ⟨hf, hp⟩ := fits_of_resolveSpan (hall.get hi (hall.length_eq ▸ hi))
      exact congrArg Port.node hp ▸ hf.live
  | error f =>
      right
      obtain ⟨a, ha, hf⟩ := exists_of_mapM_eq_error hm
      have hdead : ¬ g.Live a.port.node := fun hl => by
        rw [resolveSpan_of_fits (hfit a ha hl)] at hf
        cases hf
      rw [resolveSpan_of_not_live hdead] at hf
      rw [resolve, hm, ← Except.error.inj hf]
      rfl

theorem reads_iff {g : Graph} {k d : Key} {e : Entry} (he : g.entry? k = some e) :
    g.Reads k d ↔ ∃ i ∈ e.inlets, ∃ s ∈ i.selection.spans, s.port.node = d := by
  simp [Reads, Graph.dependencies, he, Entry.dependencies]

theorem Reads.live {g : Graph} {k d : Key} (h : g.Reads k d) : g.Live k := by
  cases he : g.entry? k with
  | none => simp [Reads, Graph.dependencies, he] at h
  | some e => exact live_of_entry he

section Check

variable {log : List Key} {g : Graph} {k : Key} {e : Entry}

/-- What a node reads fits the graph as long as none of it has been removed. -/
theorem Sound.fitsAll (h : Sound log g) (hk : ¬ g.ReadsRemoved k) (he : g.entry? k = some e)
    {i : Inlet} (hi : i ∈ e.inlets) : g.FitsAll i.selection := by
  have hplaced := h.placed k e he
  refine ⟨hplaced.uniform i hi, fun a ha => hplaced.fits i hi a ha ?_⟩
  by_contra hdead
  exact hk ⟨_, (reads_iff he).2 ⟨i, hi, a, ha, rfl⟩, hdead⟩

/-- The inlets of a node resolve as long as nothing they read has been removed. -/
theorem Sound.checkInlets_eq (h : Sound log g) (he : g.entry? k = some e) :
    (¬ g.ReadsRemoved k ∧ g.checkInlets e = .ok ()) ∨
      (g.ReadsRemoved k ∧ g.checkInlets e = .error (.missing .removedPort)) := by
  have hpl := h.placed k e he
  have hresolve : ∀ i ∈ e.inlets, g.resolve i.selection = .ok i.selection ∨
      g.resolve i.selection = .error (.missing .removedPort) := fun i hi =>
    resolve_eq_self_or_error (hpl.uniform i hi) (hpl.fits i hi)
  cases hc : g.checkInlets e with
  | ok u =>
      refine Or.inl ⟨?_, rfl⟩
      rintro ⟨d, hd, hdead⟩
      obtain ⟨i, hi, s, hs, rfl⟩ := (reads_iff he).1 hd
      obtain ⟨r, hr, -⟩ := bind_eq_ok_iff.1 (forM_eq_ok_iff.1 hc i hi)
      exact hdead (live_of_resolve hr s hs)
  | error f =>
      obtain ⟨i, hi, hf⟩ := exists_of_forM_eq_error hc
      rcases hresolve i hi with hr | hr
      · rw [hr] at hf
        cases hf
      · rw [hr] at hf
        refine Or.inr ⟨?_, congrArg _ (Except.error.inj hf).symm⟩
        by_contra hlive
        rw [resolve_of_fitsAll (h.fitsAll hlive he hi)] at hr
        cases hr

end Check

section Sorting

variable {log : List Key} {g : Graph}

theorem pairwise_idxOf {l : List Key} (h : l.Nodup) :
    l.Pairwise fun a b => l.idxOf a < l.idxOf b := by
  rw [List.pairwise_iff_getElem]
  intro i j hi hj hij
  rwa [h.idxOf_getElem, h.idxOf_getElem]

/-- No cycle is ever found, whatever nodes are to be sorted. -/
theorem Sound.exists_sort_eq_ok (h : Sound log g) (keys : List Key) :
    ∃ order, g.sort keys = .ok order := by
  have hrank : ∀ a b, (g.digraph keys).Edge a b → log.idxOf b < log.idxOf a := fun a b hab =>
    (h.reads (((g.digraph keys).edge_iff).1 hab).2).2.2
  obtain ⟨order, ho⟩ := Digraph.exists_sort_eq_ok hrank
  exact ⟨order, by rw [sort, ho]⟩

/-- Nodes are listed as they were added. -/
theorem Sound.pairwise_filter (h : Sound log g) (p : Key → Bool) :
    (g.order.filter p).Pairwise fun a b => log.idxOf a < log.idxOf b :=
  (pairwise_idxOf h.nodup).sublist (List.filter_sublist.trans (h.order ▸ List.filter_sublist))

/-- Part of the list of nodes that has all its dependencies is sorted. -/
theorem Sound.sort_filter (h : Sound log g) (p : Key → Bool)
    (hclosed : ∀ a b, g.Reads a b → p a = true → p b = true ∧ g.Live b) :
    g.sort (g.order.filter p) = .ok (g.order.filter p) := by
  have hdeps : ∀ k ∈ g.order.filter p, ∀ d, g.Reads k d →
      d ∈ g.order.filter p ∧ log.idxOf d < log.idxOf k := by
    intro k hk d hd
    obtain ⟨hpd, hl⟩ := hclosed k d hd (List.mem_filter.1 hk).2
    exact ⟨List.mem_filter.2 ⟨(h.mem_order_iff d).2 hl, hpd⟩, (h.reads hd).2.2⟩
  have hself := Digraph.sort_eq_self (g := g.digraph (g.order.filter p)) (h.pairwise_filter p) hdeps
  rw [sort, hself]
  rfl

theorem Sound.reached_iff (h : Sound log g) (roots : List Key) (k : Key) :
    (g.digraph g.order).Reached roots k ↔ ∃ r ∈ roots, ReflTransGen g.Reads r k := by
  have hedge : (g.digraph g.order).Edge = g.Reads := by
    ext a b
    rw [Digraph.edge_iff]
    exact and_iff_right_of_imp fun hab => (h.mem_order_iff a).2 (Reads.live hab)
  rw [Digraph.Reached, hedge]

theorem roots_eq_ok {outputs : List Selection}
    (hres : ∀ s ∈ outputs, ∃ r, g.resolve s = .ok r) :
    g.roots outputs = .ok (outputs.flatMap fun s => s.spans.map (·.port.node)) := by
  induction outputs with
  | nil => rfl
  | cons s outputs ih =>
      obtain ⟨r, hr⟩ := hres s (by simp)
      have hports : r.spans.map (·.port.node) = s.spans.map (·.port.node) := by
        have := congrArg (List.map Port.node) (map_port_of_resolve hr)
        rwa [List.map_map, List.map_map] at this
      rw [roots, hr, ih fun s hs => hres s (by simp [hs])]
      simp only [List.flatMap_cons, ← hports]
      rfl

theorem Sound.mem_closure_iff (h : Sound log g) (outputs : List Selection) (k : Key) :
    k ∈ (g.digraph g.order).closure (outputs.flatMap fun s => s.spans.map (·.port.node)) ↔
      g.Needed outputs k := by
  rw [Digraph.mem_closure_iff, h.reached_iff]
  simp only [List.mem_flatMap, List.mem_map, Needed]
  constructor
  · rintro ⟨_, ⟨s, hs, a, ha, rfl⟩, hk⟩
    exact ⟨s, hs, a, ha, hk⟩
  · rintro ⟨s, hs, a, ha, hk⟩
    exact ⟨_, ⟨s, hs, a, ha, rfl⟩, hk⟩

/-- Needed nodes are there when the outputs resolve and nothing needed reads a removed node. -/
theorem live_of_needed {outputs : List Selection}
    (hres : ∀ s ∈ outputs, ∃ r, g.resolve s = .ok r)
    (hlive : ∀ k, g.Needed outputs k → ¬ g.ReadsRemoved k) {k : Key}
    (hk : g.Needed outputs k) : g.Live k := by
  obtain ⟨s, hs, a, ha, hpath⟩ := hk
  induction hpath with
  | refl =>
      obtain ⟨r, hr⟩ := hres s hs
      exact live_of_resolve hr a ha
  | tail hpath hread _ =>
      by_contra hdead
      exact hlive _ ⟨s, hs, a, ha, hpath⟩ ⟨_, hread, hdead⟩

theorem Needed.tail {outputs : List Selection} {a b : Key} (ha : g.Needed outputs a)
    (hab : g.Reads a b) : g.Needed outputs b := by
  obtain ⟨s, hs, c, hc, hpath⟩ := ha
  exact ⟨s, hs, c, hc, hpath.tail hab⟩

/-- The checks of the needed nodes pass, or some node that is needed reads from a removed one. -/
theorem Sound.checks_eq (h : Sound log g) {outputs : List Selection}
    (hres : ∀ s ∈ outputs, ∃ r, g.resolve s = .ok r) {closure : List Key}
    (hclosure : ∀ k, k ∈ closure ↔ g.Needed outputs k) {check : Key → Except Fault Unit}
    (hsome : ∀ k e, g.entry? k = some e → check k = g.checkInlets e)
    (hnone : ∀ k, g.entry? k = none → check k = .error (.missing .dependency)) :
    ((∀ k, g.Needed outputs k → ¬ g.ReadsRemoved k) ∧ closure.forM check = .ok ()) ∨
      ((∃ k, g.Needed outputs k ∧ g.ReadsRemoved k) ∧
        ∃ m, closure.forM check = .error (.missing m)) := by
  by_cases hlive : ∀ k, g.Needed outputs k → ¬ g.ReadsRemoved k
  · refine Or.inl ⟨hlive, forM_eq_ok_iff.2 fun k hk => ?_⟩
    have hneed := (hclosure k).1 hk
    obtain ⟨e, he⟩ := (live_of_needed hres hlive hneed).exists_entry
    rw [hsome k e he]
    rcases h.checkInlets_eq he with ⟨-, hc⟩ | ⟨hr, -⟩
    · exact hc
    · exact absurd hr (hlive k hneed)
  · push Not at hlive
    refine Or.inr ⟨hlive, ?_⟩
    obtain ⟨k, hneed, hr⟩ := hlive
    cases hf : closure.forM check with
    | ok u =>
        obtain ⟨d, hd, -⟩ := id hr
        obtain ⟨e, he⟩ := (Reads.live hd).exists_entry
        have hc := forM_eq_ok_iff.1 hf k ((hclosure k).2 hneed)
        rcases h.checkInlets_eq he with ⟨hr', -⟩ | ⟨-, hc'⟩
        · exact absurd hr hr'
        · rw [hsome k e he, hc'] at hc
          cases hc
    | error f =>
        obtain ⟨x, hx, hfx⟩ := exists_of_forM_eq_error hf
        cases he : g.entry? x with
        | none =>
            rw [hnone x he] at hfx
            exact ⟨_, congrArg _ (Except.error.inj hfx).symm⟩
        | some e =>
            rw [hsome x e he] at hfx
            rcases h.checkInlets_eq he with ⟨-, hc⟩ | ⟨-, hc⟩
            · rw [hc] at hfx
              cases hfx
            · rw [hc] at hfx
              exact ⟨_, congrArg _ (Except.error.inj hfx).symm⟩

open scoped Classical in
theorem Sound.dependencyOrder_eq (h : Sound log g) {outputs : List Selection}
    (hres : ∀ s ∈ outputs, ∃ r, g.resolve s = .ok r) :
    ((∀ k, g.Needed outputs k → ¬ g.ReadsRemoved k) ∧ g.dependencyOrder outputs =
        .ok (g.order.filter fun k => decide (g.Needed outputs k))) ∨
      ((∃ k, g.Needed outputs k ∧ g.ReadsRemoved k) ∧
        ∃ m, g.dependencyOrder outputs = .error (.missing m)) := by
  have hmem := h.mem_closure_iff outputs
  set closure := (g.digraph g.order).closure (outputs.flatMap fun s => s.spans.map (·.port.node))
  let check : Key → Except Fault Unit := fun k =>
    (g.entry? k).elim (.error (.missing .dependency)) g.checkInlets
  have hrun : g.dependencyOrder outputs = closure.forM check >>= fun _ =>
      g.sort (g.order.filter (closure.contains ·)) := by
    unfold dependencyOrder
    rw [roots_eq_ok hres]
    refine congrArg (fun f : Key → Except Fault Unit => closure.forM f >>= fun _ =>
      g.sort (g.order.filter (closure.contains ·))) (funext fun k => ?_)
    cases he : g.entry? k <;> simp only [check, he] <;> rfl
  have hsome : ∀ k e, g.entry? k = some e → check k = g.checkInlets e := by
    intro k e he
    simp only [check, he, Option.elim_some]
  have hnone : ∀ k, g.entry? k = none → check k = .error (.missing .dependency) := by
    intro k he
    simp only [check, he, Option.elim_none]
  rcases h.checks_eq hres hmem hsome hnone with ⟨hlive, hc⟩ | ⟨hr, m, hc⟩
  · refine Or.inl ⟨hlive, ?_⟩
    have hfilter : g.order.filter (closure.contains ·) =
        g.order.filter fun k => decide (g.Needed outputs k) := by
      apply List.filter_congr
      intro k _
      rw [List.contains_eq_mem]
      exact decide_eq_decide.2 (hmem k)
    rw [hrun, hc, hfilter]
    refine h.sort_filter _ fun a b hab ha => ?_
    have hneed := (of_decide_eq_true ha).tail hab
    exact ⟨decide_eq_true hneed, live_of_needed hres hlive hneed⟩
  · exact Or.inr ⟨hr, m, by rw [hrun, hc]; rfl⟩

/-- The graph is valid when nothing in it reads from a removed node. -/
theorem Sound.validate_eq_ok_iff (h : Sound log g) :
    g.validate = .ok () ↔ ∀ k, g.Live k → ¬ g.ReadsRemoved k := by
  obtain ⟨order, horder⟩ := h.exists_sort_eq_ok g.order
  have hrun : g.validate = .ok () ↔ ∀ e ∈ g.entries, g.checkInlets e = .ok () := by
    unfold validate
    rw [bind_eq_ok_iff, horder, ← forM_eq_ok_iff]
    constructor
    · rintro ⟨_, hf, -⟩
      exact hf
    · exact fun hf => ⟨(), hf, rfl⟩
  rw [hrun]
  constructor
  · intro hall k hk
    obtain ⟨e, he⟩ := hk.exists_entry
    have hmem : e ∈ g.entries := List.mem_filterMap.2 ⟨k, (h.mem_order_iff k).2 hk, he⟩
    rcases h.checkInlets_eq he with ⟨hr, -⟩ | ⟨-, hc⟩
    · exact hr
    · rw [hall e hmem] at hc
      cases hc
  · intro hlive e hmem
    obtain ⟨k, -, he⟩ := List.mem_filterMap.1 hmem
    rcases h.checkInlets_eq he with ⟨-, hc⟩ | ⟨hr, -⟩
    · exact hc
    · exact absurd hr (hlive k (live_of_entry he))

end Sorting

section Cycles

def IsCycle (f : Fault) : Prop := ∃ path, f = .invalid (.cycle path)

variable {log : List Key} {g : Graph} {f : Fault}

theorem not_isCycle_of_outlet {p : Port} (h : g.outlet p = .error f) : ¬ IsCycle f := by
  rintro ⟨path, rfl⟩
  unfold outlet at h
  split at h
  · cases h
  · split at h
    · cases h
    · cases h

theorem not_isCycle_of_resolveSpan {s : Span} (h : g.resolveSpan s = .error f) : ¬ IsCycle f := by
  unfold resolveSpan at h
  rcases bind_eq_error_iff.1 h with ho | ⟨o, -, h⟩
  · exact not_isCycle_of_outlet ho
  rintro ⟨path, rfl⟩
  cases hsize : o.size with
  | none =>
      rw [hsize] at h
      cases h
  | some size =>
      simp only [hsize] at h
      by_cases ht : o.elemType = s.elemType
      · by_cases hstop : size < (s.refresh size).stop
        · simp [ht, hstop, bind, Except.bind, throw, throwThe, MonadExceptOf.throw] at h
        · simp [ht, hstop, pure, Except.pure] at h
      · simp [ht, bind, Except.bind, throw, throwThe, MonadExceptOf.throw] at h

theorem not_isCycle_of_ofSpans {spans : List Span} (h : Selection.ofSpans spans = .error f) :
    ¬ IsCycle f := by
  rintro ⟨path, rfl⟩
  obtain ⟨_, _, h⟩ := Selection.eq_mismatch_of_ofSpans_eq_error h
  cases h

theorem not_isCycle_of_resolve {s : Selection} (h : g.resolve s = .error f) : ¬ IsCycle f := by
  rcases bind_eq_error_iff.1 h with h | ⟨spans, -, h⟩
  · obtain ⟨a, -, ha⟩ := exists_of_mapM_eq_error h
    exact not_isCycle_of_resolveSpan ha
  · exact not_isCycle_of_ofSpans h

theorem not_isCycle_of_roots {outputs : List Selection} (h : g.roots outputs = .error f) :
    ¬ IsCycle f := by
  induction outputs with
  | nil => cases h
  | cons s outputs ih =>
      rw [roots] at h
      rcases bind_eq_error_iff.1 h with h | ⟨_, -, h⟩
      · exact not_isCycle_of_resolve h
      · rcases bind_eq_error_iff.1 h with h | ⟨_, -, h⟩
        · exact ih h
        · cases h

theorem not_isCycle_of_checkInlets {e : Entry} (h : g.checkInlets e = .error f) :
    ¬ IsCycle f := by
  obtain ⟨i, -, hi⟩ := exists_of_forM_eq_error h
  rcases bind_eq_error_iff.1 hi with hi | ⟨_, -, hi⟩
  · exact not_isCycle_of_resolve hi
  · cases hi

theorem Sound.not_isCycle_of_validate (h : Sound log g) (hf : g.validate = .error f) :
    ¬ IsCycle f := by
  rcases bind_eq_error_iff.1 hf with hf | ⟨_, -, hf⟩
  · obtain ⟨e, -, he⟩ := exists_of_forM_eq_error hf
    exact not_isCycle_of_checkInlets he
  · obtain ⟨order, horder⟩ := h.exists_sort_eq_ok g.order
    rw [horder] at hf
    cases hf

theorem Sound.not_isCycle_of_dependencyOrder (h : Sound log g) {outputs : List Selection}
    (hf : g.dependencyOrder outputs = .error f) : ¬ IsCycle f := by
  rcases bind_eq_error_iff.1 hf with hf | ⟨roots, -, hf⟩
  · exact not_isCycle_of_roots hf
  · rcases bind_eq_error_iff.1 hf with hf | ⟨_, -, hf⟩
    · obtain ⟨k, -, hk⟩ := exists_of_forM_eq_error hf
      cases he : g.entry? k with
      | none =>
          rw [he] at hk
          rintro ⟨path, rfl⟩
          cases hk
      | some e =>
          rw [he] at hk
          exact not_isCycle_of_checkInlets hk
    · obtain ⟨order, horder⟩ := h.exists_sort_eq_ok (g.order.filter _)
      rw [horder] at hf
      cases hf

end Cycles

section Main

open scoped Classical

variable {log : List Key} {g : Graph}

/-- Part of the list of nodes that has all its dependencies puts them first. -/
theorem Sound.inOrder_filter (h : Sound log g) (p : Key → Bool)
    (hclosed : ∀ a b, g.Reads a b → p a = true → p b = true ∧ g.Live b) :
    g.InOrder (g.order.filter p) := by
  refine ⟨h.consistent.order_nodup.filter _, fun pre k post hsplit d hd => ?_⟩
  have hk : k ∈ g.order.filter p := by
    rw [hsplit]
    simp
  obtain ⟨hpd, hl⟩ := hclosed k d hd (List.mem_filter.1 hk).2
  have hmem : d ∈ g.order.filter p := List.mem_filter.2 ⟨(h.mem_order_iff d).2 hl, hpd⟩
  have hpw := h.pairwise_filter p
  rw [hsplit] at hmem hpw
  rw [List.pairwise_append, List.pairwise_cons] at hpw
  have hlt := (h.reads hd).2.2
  rcases List.mem_append.1 hmem with hm | hm
  · exact hm
  · rcases List.mem_cons.1 hm with rfl | hm
    · omega
    · have := hpw.2.1.1 d hm
      omega

/-- What is known of a dependency order. -/
theorem Sound.of_dependencyOrder (h : Sound log g) {outputs : List Selection}
    (hres : ∀ s ∈ outputs, ∃ r, g.resolve s = .ok r) {order : List Key}
    (ho : g.dependencyOrder outputs = .ok order) :
    (∀ k, g.Needed outputs k → ¬ g.ReadsRemoved k) ∧
      order = g.order.filter (fun k => decide (g.Needed outputs k)) ∧
      (∀ k, k ∈ order ↔ g.Needed outputs k) ∧ g.InOrder order := by
  rcases h.dependencyOrder_eq hres with ⟨hlive, ho'⟩ | ⟨-, m, ho'⟩
  · rw [ho'] at ho
    obtain rfl := Except.ok.inj ho
    refine ⟨hlive, rfl, fun k => ?_, h.inOrder_filter _ fun a b hab ha => ?_⟩
    · rw [List.mem_filter, decide_eq_true_iff]
      exact and_iff_right_of_imp fun hk =>
        (h.mem_order_iff k).2 (live_of_needed hres hlive hk)
    · have hneed := (of_decide_eq_true ha).tail hab
      exact ⟨decide_eq_true hneed, live_of_needed hres hlive hneed⟩
  · rw [ho'] at ho
    cases ho

/-- For outputs that resolve there is a dependency order unless a needed node reads from a removed
one; it is the list of nodes without those not needed, and whatever a node reads stands before it
there. The graph is valid unless some node reads from a removed one. No cycle is ever reported. -/
theorem dependencyOrder_of_history (h : History log g) :
    (∀ outputs, (∀ s ∈ outputs, ∃ r, g.resolve s = .ok r) →
      ((∃ order, g.dependencyOrder outputs = .ok order) ↔
        ∀ k, g.Needed outputs k → ¬ g.ReadsRemoved k) ∧
      (∀ order, g.dependencyOrder outputs = .ok order →
        order = g.order.filter (fun k => decide (g.Needed outputs k)) ∧
        (∀ k, k ∈ order ↔ g.Needed outputs k) ∧ order.Nodup ∧
        ∀ pre k post, order = pre ++ k :: post → ∀ d, g.Reads k d → d ∈ pre) ∧
      (∀ f, g.dependencyOrder outputs = .error f → ∃ m, f = .missing m)) ∧
    (g.validate = .ok () ↔ ∀ k, g.Live k → ¬ g.ReadsRemoved k) ∧
    (∀ keys, ∃ order, g.sort keys = .ok order) ∧
    (∀ f, g.validate = .error f → ¬ IsCycle f) ∧
    ∀ outputs f, g.dependencyOrder outputs = .error f → ¬ IsCycle f := by
  have hs := h.sound
  refine ⟨fun outputs hres => ?_, hs.validate_eq_ok_iff, hs.exists_sort_eq_ok,
    fun f hf => hs.not_isCycle_of_validate hf,
    fun outputs f hf => hs.not_isCycle_of_dependencyOrder hf⟩
  refine ⟨?_, fun order ho => ?_, fun f hf => ?_⟩
  · rcases hs.dependencyOrder_eq hres with ⟨hlive, ho⟩ | ⟨⟨k, hk, hr⟩, m, ho⟩
    · exact iff_of_true ⟨_, ho⟩ hlive
    · refine iff_of_false ?_ fun hlive => hlive k hk hr
      rintro ⟨order, horder⟩
      rw [ho] at horder
      cases horder
  · obtain ⟨-, heq, hmem, horder⟩ := hs.of_dependencyOrder hres ho
    exact ⟨heq, hmem, horder.1, horder.2⟩
  · rcases hs.dependencyOrder_eq hres with ⟨-, ho⟩ | ⟨-, m, ho⟩
    · rw [ho] at hf
      cases hf
    · rw [ho] at hf
      exact ⟨m, (Except.error.inj hf).symm⟩

/-- The node whose source was removed has no dependency order; the one in the place of that source
has. -/
theorem dependencyOrder_after_reuse :
    let whole (k : Key) : Selection := .ofSpan ⟨⟨k, 0⟩, .boolean, 0, 2, 2, false⟩
    (∃ order, (replay reuse).2.dependencyOrder [whole ⟨0, 2⟩] = .ok order) ∧
      (¬ ∃ order, (replay reuse).2.dependencyOrder [whole ⟨1, 1⟩] = .ok order) ∧
      (replay reuse).2.validate ≠ .ok () := by
  intro whole
  obtain ⟨horder, hvalidate, -⟩ := dependencyOrder_of_history (history_replay reuse)
  have hreads : ∀ d, (replay reuse).2.Reads ⟨0, 2⟩ d → False := by
    have : (replay reuse).2.dependencies ⟨0, 2⟩ = [] := by decide +kernel
    intro d hd
    simp [Reads, this] at hd
  have hremoved : (replay reuse).2.ReadsRemoved ⟨1, 1⟩ := by
    refine ⟨⟨0, 1⟩, ?_, ?_⟩
    · unfold Reads
      decide +kernel
    · unfold Live
      decide +kernel
  refine ⟨?_, ?_, ?_⟩
  · refine (horder [whole ⟨0, 2⟩] ?_).1.2 ?_
    · exact List.forall_mem_singleton.2 ⟨whole ⟨0, 2⟩, rfl⟩
    · rintro k ⟨s, hs, a, ha, hpath⟩ ⟨d, hd, -⟩
      obtain rfl := List.mem_singleton.1 hs
      obtain rfl := List.mem_singleton.1 ha
      rcases hpath.cases_head with rfl | ⟨c, hc, -⟩
      · exact hreads d hd
      · exact hreads c hc
  · intro hok
    refine (horder [whole ⟨1, 1⟩] ?_).1.1 hok ⟨1, 1⟩ ?_ hremoved
    · exact List.forall_mem_singleton.2 ⟨whole ⟨1, 1⟩, rfl⟩
    · exact ⟨_, List.mem_singleton_self _, _, List.mem_singleton_self _, .refl⟩
  · intro hok
    refine hvalidate.1 hok ⟨1, 1⟩ ?_ hremoved
    unfold Live
    decide +kernel

end Main

end Dataflow.Graph
