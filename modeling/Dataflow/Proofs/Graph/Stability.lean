import Dataflow.Proofs.Graph.DependencyOrder

/-!
# What becomes of references

What a selection resolved to once it resolves to for ever, or for as long as the nodes it reads are
there. No request can do more to it than remove one of these nodes: an outlet that has a size keeps
it, and a key that was handed out names no other node, whatever takes the place or the name of the
one that is gone.
-/

namespace Dataflow.Graph

def after (g : Graph) (actions : List Action) : Graph :=
  actions.foldl (fun g a => (g.perform a).2) g

structure Persists (log : List Key) (g g' : Graph) : Prop where
  live : ∀ k ∈ log, g'.Live k → g.Live k
  fits : ∀ s : Span, s.port.node ∈ log → g.Fits s → g'.Live s.port.node → g'.Fits s

section Steps

variable {log log' : List Key} {g g' g'' : Graph}

theorem Persists.refl (log : List Key) (g : Graph) : Persists log g g :=
  ⟨fun _ _ h => h, fun _ _ h _ => h⟩

theorem Persists.trans (hsub : log ⊆ log') (h : Persists log g g') (h' : Persists log' g' g'') :
    Persists log g g'' where
  live k hk hl := h.live k hk (h'.live k (hsub hk) hl)
  fits s hs hf hl := h'.fits s (hsub hs) (h.fits s hs hf (h'.live _ (hsub hs) hl)) hl

theorem SameShape.persists (h : SameShape g g') : Persists log g g' where
  live k _ hl := (h.live_iff k).1 hl
  fits _ _ hf _ := h.fits hf

theorem Sound.persists_grown {id : NodeId} {node : Node} {k : Key} {e : Entry}
    (h : Sound log g) (hg : Grown g g' id node k e) : Persists log g g' where
  live k' hk' hl := by
    have hne : k' ≠ k := ne_of_mem_of_not_mem hk' (hg.key ▸ h.nextKey_notMem)
    rwa [Live, hg.entry, if_neg hne] at hl
  fits _ _ hf _ := hg.fits h hf

theorem persists_remove {k : Key} {e : Entry} (hr : (remove k).run g = (some e, g')) :
    Persists log g g' := by
  obtain ⟨arena, ha, rfl⟩ := remove_eq_some_iff.1 hr
  set g' : Graph := { arena, order := g.order.filter (· ≠ k), ids := g.ids.erase e.id } with hg'
  have hentry : ∀ k', g'.Live k' → g'.entry? k' = g.entry? k' := by
    intro k' hl
    have hget : g'.entry? k' = if k' = k then none else g.entry? k' := Arena.get?_remove ha k'
    rw [Live, hget] at hl
    by_cases hk : k' = k
    · rw [if_pos hk] at hl
      cases hl
    · rw [hget, if_neg hk]
  refine ⟨fun k' _ hl => ?_, fun s _ hf hl => ?_⟩
  · rwa [Live, hentry k' hl] at hl
  · refine hf.of_blank fun o ho => ⟨o, ?_, rfl⟩
    unfold outlet at ho ⊢
    rwa [hentry _ hl]

theorem persists_setSize {p : Port} {size : Nat} (hs : Succeeds (setSize p size) g () g') :
    Persists log g g' := by
  obtain ⟨e, o, he, ho, hnone, rfl⟩ := succeeds_setSize.1 hs
  refine ⟨fun k _ hl => ?_, fun s _ hf _ => fits_setSize he ho hnone hf⟩
  rw [Live, lookup_setOutlets] at hl
  by_cases hk : k = p.node
  · rw [hk]
    exact live_of_entry he
  · rwa [if_neg hk] at hl

theorem Sound.persists_perform (h : Sound log g) (a : Action) :
    Persists log g (g.perform a).2 := by
  rcases hr : g.perform a with ⟨r, g'⟩
  cases effect_of_perform hr with
  | added _ hplace =>
      obtain ⟨e, hg⟩ := grown_of_place h.arena hplace
      exact h.persists_grown hg
  | removed hr => exact persists_remove hr
  | sized hs => exact persists_setSize hs
  | computed => exact (sameShape_compute _ g).persists
  | unchanged => exact .refl log g

theorem Sound.persists_after (h : Sound log g) (actions : List Action) :
    Persists log g (g.after actions) := by
  induction actions generalizing log g with
  | nil => exact .refl log g
  | cons a actions ih =>
      exact (h.persists_perform a).trans (List.subset_append_left _ _) (ih (h.perform a))

end Steps

section Resolution

variable {log : List Key} {g g' : Graph} {s r : Selection}

/-- A span resolves to what it resolved to once wherever that fits. -/
theorem Fits.resolveSpan {a b : Span} (hf : g'.Fits b) (h : g.resolveSpan a = .ok b) :
    g'.resolveSpan a = .ok b := by
  obtain ⟨-, size, -, -, -, -, rfl⟩ := resolveSpan_eq_ok_iff.1 h
  obtain ⟨o, ho, hsize, ht, hstop, -⟩ := hf
  exact resolveSpan_eq_ok_iff.2 ⟨o, size, ho, hsize, ht, hstop, rfl⟩

/-- As long as the nodes stay the selection resolves to what it resolved to before, and once one
of them is gone it refers to a removed port. -/
theorem Persists.resolve (hp : Persists log g g') (hlog : ∀ b ∈ r.spans, b.port.node ∈ log)
    (hr : g.resolve s = .ok r) :
    ((∀ b ∈ r.spans, g'.Live b.port.node) → g'.resolve s = .ok r) ∧
      ((∃ b ∈ r.spans, ¬ g'.Live b.port.node) →
        g'.resolve s = .error (.missing .removedPort)) := by
  obtain ⟨hspans, hu⟩ := resolve_eq_ok_iff.1 hr
  have hall : List.Forall₂ (fun a b => (g'.Live b.port.node → g'.resolveSpan a = .ok b) ∧
      (¬ g'.Live b.port.node → g'.resolveSpan a = .error (.missing .removedPort)))
      s.spans r.spans := by
    refine List.forall₂_iff_get.2 ⟨hspans.length_eq, fun i h₁ h₂ => ?_⟩
    have hab := hspans.get h₁ h₂
    obtain ⟨hfits, hport⟩ := fits_of_resolveSpan hab
    refine ⟨fun hl => ?_, fun hl => resolveSpan_of_not_live (hport ▸ hl)⟩
    exact (hp.fits _ (hlog _ (List.get_mem r.spans ⟨i, h₂⟩)) hfits hl).resolveSpan hab
  obtain ⟨hok, herror⟩ := mapM_of_forall₂ hall
  refine ⟨fun hlive => ?_, fun hgone => ?_⟩
  · exact resolve_eq_ok_iff.2 ⟨mapM_eq_ok_iff.1 (hok hlive), hu⟩
  · rw [Graph.resolve, herror hgone]
    rfl

end Resolution

section Main

variable {log : List Key} {g : Graph}

/-- After any further requests a selection that resolved, and what it resolved to, both resolve to
the same as then if all nodes read by it are still there, and both refer to a removed port if not. -/
theorem resolve_after_history (h : History log g) {s r : Selection} (hr : g.resolve s = .ok r)
    (actions : List Action) :
    g.resolve r = .ok r ∧
      ((∀ b ∈ r.spans, (g.after actions).Live b.port.node) →
        (g.after actions).resolve s = .ok r ∧ (g.after actions).resolve r = .ok r) ∧
      ((∃ b ∈ r.spans, ¬ (g.after actions).Live b.port.node) →
        (g.after actions).resolve s = .error (.missing .removedPort) ∧
          (g.after actions).resolve r = .error (.missing .removedPort)) := by
  have hfits := fitsAll_of_resolve hr
  have hself := resolve_of_fitsAll hfits
  have hlog : ∀ b ∈ r.spans, b.port.node ∈ log := fun b hb => h.sound.handed (hfits.2 b hb).live
  have hp := h.sound.persists_after actions
  obtain ⟨hs, hs'⟩ := hp.resolve hlog hr
  obtain ⟨hr, hr'⟩ := hp.resolve hlog hself
  exact ⟨hself, fun hlive => ⟨hs hlive, hr hlive⟩, fun hgone => ⟨hs' hgone, hr' hgone⟩⟩

/-- A reference to the source outlasts a computation, a size that is refused and one that is given,
and it does not come to mean the node that has the place and the name of the source later. -/
theorem resolve_after_reuse :
    let whole (size : Nat) : Selection := .ofSpan ⟨⟨⟨0, 1⟩, 0⟩, .boolean, 0, size, size, false⟩
    let g := (replay (reuse.take 2)).2
    let input := (Builtin.input .real none).toNode
    g.resolve (whole 0) = .ok (whole 2) ∧
      (g.after [.compute [⟨0, 1⟩, ⟨1, 1⟩], .setSize ⟨⟨0, 1⟩, 0⟩ 5, .addNumbered 0 input,
        .setSize ⟨⟨2, 1⟩, 0⟩ 3]).resolve (whole 0) = .ok (whole 2) ∧
      (g.after (reuse.drop 2)).resolve (whole 0) = .error (.missing .removedPort) ∧
      (g.after (reuse.drop 2)).resolve (whole 2) = .error (.missing .removedPort) := by
  intro whole g input
  have hg : g.resolve (whole 0) = .ok (whole 2) := rfl
  have h := resolve_after_history (history_replay (reuse.take 2)) hg
  refine ⟨hg, ((h _).2.1 ?_).1, (h _).2.2 ?_⟩
  · refine List.forall_mem_singleton.2 ?_
    unfold Live
    decide +kernel
  · refine ⟨_, List.mem_singleton_self _, ?_⟩
    unfold Live
    decide +kernel

end Main

end Dataflow.Graph
