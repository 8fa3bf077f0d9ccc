import Dataflow.Proofs.Graph.DependencyOrder
import Dataflow.Proofs.Node.Builtin

/-!
# Settled values

A built-in node is settled when its outlet holds the result for what its inlets gather now. Nodes
that are computed in dependency order are all settled in the end: when a node is computed,
whatever it reads has been computed before and is not computed again.
-/

namespace Dataflow.Graph

section Gather

variable {g g' : Graph}

theorem resolveSpan_congr {s : Span} (h : g'.outlet s.port = g.outlet s.port) :
    g'.resolveSpan s = g.resolveSpan s := by
  unfold resolveSpan
  rw [h]

theorem resolve_congr {s : Selection}
    (h : ∀ a ∈ s.spans, g'.outlet a.port = g.outlet a.port) : g'.resolve s = g.resolve s := by
  have hall : s.spans.mapM g'.resolveSpan = s.spans.mapM g.resolveSpan :=
    mapM_congr fun a ha => resolveSpan_congr (h a ha)
  rw [resolve, resolve, hall]

theorem gatherSpans_congr {spans : List Span} {values : Values}
    (h : ∀ a ∈ spans, g'.outlet a.port = g.outlet a.port) :
    g'.gatherSpans values spans = g.gatherSpans values spans := by
  induction spans generalizing values with
  | nil => rfl
  | cons a spans ih =>
      rw [gatherSpans, gatherSpans, h a (by simp)]
      congr 1
      funext o
      congr 1
      funext values
      exact ih fun b hb => h b (by simp [hb])

/-- A selection reads the same outlets after it has been resolved. -/
theorem outlet_congr_of_resolve {s r : Selection} (hr : g.resolve s = .ok r)
    (h : ∀ a ∈ s.spans, g'.outlet a.port = g.outlet a.port) :
    ∀ b ∈ r.spans, g'.outlet b.port = g.outlet b.port := by
  intro b hb
  have hport : b.port ∈ s.spans.map (·.port) := by
    rw [← map_port_of_resolve hr]
    exact List.mem_map_of_mem hb
  obtain ⟨a, ha, hab⟩ := List.mem_map.1 hport
  rw [← hab]
  exact h a ha

/-- What is gathered depends on the outlets that are read and on nothing else. -/
theorem gather_congr {s : Selection} (h : ∀ a ∈ s.spans, g'.outlet a.port = g.outlet a.port) :
    g'.gather s = g.gather s := by
  unfold gather
  rw [resolve_congr h]
  cases hr : g.resolve s with
  | error f => rfl
  | ok r => exact gatherSpans_congr (outlet_congr_of_resolve hr h)

theorem outlet_setOutlets_of_ne {k : Key} {outlets : List Outlet} {p : Port} (h : p.node ≠ k) :
    (g.setOutlets k outlets).outlet p = g.outlet p := by
  unfold outlet
  rw [lookup_setOutlets, if_neg h]

end Gather

def BuiltFrom (g : Graph) (kind : Key → Builtin) : Prop :=
  ∀ k e, g.entry? k = some e → e.node = (kind k).toNode

structure Built (g : Graph) (kind : Key → Builtin) : Prop where
  node : g.BuiltFrom kind
  outlet : ∀ k e, g.entry? k = some e → ∃ o, e.outlets = [o] ∧ o.elemType = (kind k).elemType

/-- The outlet of the node holds the result for what the inlets gather, unless the result is
supplied from outside. -/
def Settled (g : Graph) (kind : Key → Builtin) (k : Key) : Prop :=
  ∃ e o inputs, g.entry? k = some e ∧ e.outlets = [o] ∧
    e.inlets.mapM (fun i => g.gather i.selection) = .ok inputs ∧
    ((kind k).isInput = true ∨
      ((kind k).eval inputs = .ok (some o.values) ∧ Builtin.Suits o o.values))

theorem History.built {log : List Key} {g : Graph} (h : History log g) {kind : Key → Builtin}
    (hk : g.BuiltFrom kind) : g.Built kind where
  node := hk
  outlet k e he := by
    obtain ⟨o, ho, ht, -⟩ := (h.seated he (hk k e he)).outlet
    exact ⟨o, ho, ht⟩

theorem entry_of_setOutlets {g : Graph} {k k' : Key} {outlets : List Outlet} {e : Entry}
    (he : entry? (g.setOutlets k outlets) k' = some e) :
    (k' ≠ k ∧ g.entry? k' = some e) ∨
      ∃ e', k' = k ∧ g.entry? k = some e' ∧ e = { e' with outlets } := by
  rw [lookup_setOutlets] at he
  by_cases hk : k' = k
  · rw [if_pos hk, Option.map_eq_some_iff] at he
    obtain ⟨e', he', rfl⟩ := he
    exact Or.inr ⟨e', hk, he', rfl⟩
  · rw [if_neg hk] at he
    exact Or.inl ⟨hk, he⟩

section Compute

variable {g g' : Graph} {kind : Key → Builtin} {k : Key}

theorem Built.setOutlets (hb : g.Built kind) {o : Outlet}
    (ho : o.elemType = (kind k).elemType) : (g.setOutlets k [o]).Built kind where
  node k' e he := by
    rcases entry_of_setOutlets he with ⟨-, he⟩ | ⟨e', rfl, he', rfl⟩
    · exact hb.node k' e he
    · exact hb.node k' e' he'
  outlet k' e he := by
    rcases entry_of_setOutlets he with ⟨-, he⟩ | ⟨e', rfl, he', rfl⟩
    · exact hb.outlet k' e he
    · exact ⟨o, rfl, ho⟩

/-- What the computation of one node does when it succeeds. -/
theorem computeNode_succeeds (hb : g.Built kind) (h : Succeeds (computeNode k) g () g') :
    ∃ e o inputs o', g.entry? k = some e ∧ e.outlets = [o] ∧
      e.inlets.mapM (fun i => g.gather i.selection) = .ok inputs ∧
      g' = g.setOutlets k [o'] ∧ o'.blank = o.blank ∧
      (((kind k).isInput = true ∧ o' = o) ∨
        ((kind k).eval inputs = .ok (some o'.values) ∧ Builtin.Suits o' o'.values)) := by
  unfold Succeeds at h
  rw [run_computeNode] at h
  cases he : g.entry? k with
  | none =>
      rw [he] at h
      cases h
  | some e =>
      obtain ⟨o, ho, -⟩ := hb.outlet k e he
      simp only [he] at h
      cases hi : e.inlets.mapM fun i => g.gather i.selection with
      | error f =>
          rw [hi] at h
          cases h
      | ok inputs =>
          simp only [hi, hb.node k e he, ho] at h
          rcases (kind k).apply_compute inputs o with ⟨v, hv, hs, hr⟩ | ⟨hn, hr⟩ | ⟨f, hr⟩
          · rw [hr] at h
            obtain ⟨-, rfl⟩ := Prod.mk.inj h
            exact ⟨e, o, inputs, o.hold v, rfl, ho, hi, rfl, rfl, Or.inr ⟨hv, hs⟩⟩
          · rw [hr] at h
            obtain ⟨-, rfl⟩ := Prod.mk.inj h
            exact ⟨e, o, inputs, o, rfl, ho, hi, rfl, rfl,
              Or.inl ⟨Builtin.isInput_of_eval inputs hn, rfl⟩⟩
          · rw [hr] at h
            cases (Prod.mk.inj h).1

/-- Computing a node leaves a settled one settled that is another one and does not read it. -/
theorem Settled.setOutlets {j : Key} (h : g.Settled kind j) {outlets : List Outlet} (hjk : j ≠ k)
    (hreads : ¬ g.Reads j k) : (g.setOutlets k outlets).Settled kind j := by
  obtain ⟨e, o, inputs, he, ho, hi, hv⟩ := h
  refine ⟨e, o, inputs, ?_, ho, ?_, hv⟩
  · rw [lookup_setOutlets, if_neg hjk]
    exact he
  · rw [← hi]
    refine mapM_congr fun i hi => gather_congr fun a ha => outlet_setOutlets_of_ne ?_
    rintro rfl
    exact hreads ((reads_iff he).2 ⟨i, hi, a, ha, rfl⟩)

/-- A node that does not read itself is settled by its computation. -/
theorem settled_of_computeNode (hb : g.Built kind) (h : Succeeds (computeNode k) g () g')
    (hself : ¬ g.Reads k k) : g'.Settled kind k := by
  obtain ⟨e, o, inputs, o', he, ho, hi, rfl, -, hv⟩ := computeNode_succeeds hb h
  refine ⟨{ e with outlets := [o'] }, o', inputs, ?_, rfl, ?_, ?_⟩
  · rw [lookup_setOutlets, if_pos rfl, he]
    rfl
  · rw [← hi]
    refine mapM_congr fun i hi => gather_congr fun a ha => outlet_setOutlets_of_ne ?_
    rintro rfl
    exact hself ((reads_iff he).2 ⟨i, hi, a, ha, rfl⟩)
  · rcases hv with ⟨hv, -⟩ | hv
    · exact Or.inl hv
    · exact Or.inr hv

theorem entry_of_computeNode (hb : g.Built kind) (h : Succeeds (computeNode k) g () g') {j : Key}
    (hj : j ≠ k ∨ (kind j).isInput = true) : g'.entry? j = g.entry? j := by
  obtain ⟨e, o, inputs, o', he, ho, -, rfl, -, hv⟩ := computeNode_succeeds hb h
  rw [lookup_setOutlets]
  by_cases hjk : j = k
  · subst hjk
    rw [if_pos rfl, he]
    have hin := hj.resolve_left (not_not.2 rfl)
    rcases hv with ⟨-, rfl⟩ | ⟨hv, -⟩
    · rw [← ho]
      rfl
    · rw [Builtin.eval_input inputs hin] at hv
      cases hv
  · rw [if_neg hjk]

theorem built_of_computeNode (hb : g.Built kind) (h : Succeeds (computeNode k) g () g') :
    g'.Built kind := by
  obtain ⟨e, o, -, o', he, ho, -, rfl, hblank, -⟩ := computeNode_succeeds hb h
  obtain ⟨o₁, ho₁, ht⟩ := hb.outlet k e he
  obtain rfl : o = o₁ := List.singleton_inj.1 (ho.symm.trans ho₁)
  exact hb.setOutlets ((Outlet.eq_of_blank hblank).2.2.1.trans ht)

theorem sameShape_computeNode (hb : g.Built kind) (h : Succeeds (computeNode k) g () g') :
    SameShape g g' := by
  obtain ⟨e, o, -, o', he, ho, -, rfl, hblank, -⟩ := computeNode_succeeds hb h
  exact sameShape_setOutlets he (by simp [ho, hblank])

theorem InOrder.of_sameShape {order : List Key} (h : g.InOrder order) (hs : SameShape g g') :
    g'.InOrder order := by
  refine ⟨h.1, fun pre k post hsplit d hd => h.2 pre k post hsplit d ?_⟩
  rwa [Reads, hs.dependencies] at hd

/-- The part of the order that is done is settled, and goes on to be while the rest is computed. -/
theorem settled_of_compute {pre post : List Key} (hb : g.Built kind)
    (hpre : ∀ j ∈ pre, g.Settled kind j) (horder : g.InOrder (pre ++ post))
    (h : Succeeds (compute post) g () g') :
    (∀ j ∈ pre ++ post, g'.Settled kind j) ∧
      ∀ j, (j ∉ post ∨ (kind j).isInput = true) → g'.entry? j = g.entry? j := by
  induction post generalizing pre g with
  | nil =>
      obtain ⟨-, rfl⟩ := Prod.mk.inj h
      exact ⟨by simpa using hpre, fun _ _ => rfl⟩
  | cons k post ih =>
      obtain ⟨u, g₁, hk, hrest⟩ := succeeds_bind.1
        (h : Succeeds (computeNode k >>= fun _ => compute post) g () g')
      have hnotin : k ∉ pre := fun hm =>
        (List.nodup_append.1 horder.1).2.2 k hm k (by simp) rfl
      have hbefore := horder.2 pre k post rfl
      have hpre₁ : ∀ j ∈ pre ++ [k], g₁.Settled kind j := by
        intro j hj
        rcases List.mem_append.1 hj with hj | hj
        · obtain ⟨-, -, -, o', -, -, -, rfl, -⟩ := computeNode_succeeds hb hk
          refine (hpre j hj).setOutlets (ne_of_mem_of_not_mem hj hnotin) fun hread => ?_
          obtain ⟨before, after, rfl⟩ := List.append_of_mem hj
          have hd := horder.2 before j (after ++ k :: post) (by simp) k hread
          exact hnotin (by simp [hd])
        · obtain rfl := List.mem_singleton.1 hj
          exact settled_of_computeNode hb hk fun hread => hnotin (hbefore j hread)
      have hshape := sameShape_computeNode hb hk
      obtain ⟨hall, hkeep⟩ := ih (built_of_computeNode hb hk) hpre₁
        (by simpa using horder.of_sameShape hshape) hrest
      refine ⟨by simpa using hall, fun j hj => ?_⟩
      have hj₁ : j ∉ post ∨ (kind j).isInput = true :=
        hj.imp_left fun hn hm => hn (List.mem_cons_of_mem _ hm)
      have hj₂ : j ≠ k ∨ (kind j).isInput = true :=
        hj.imp_left fun hn hjk => hn (by simp [hjk])
      rw [hkeep j hj₁, entry_of_computeNode hb hk hj₂]

end Compute

end Dataflow.Graph
