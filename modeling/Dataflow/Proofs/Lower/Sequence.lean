import Dataflow.Proofs.Graph.Interpretation
import Dataflow.Proofs.Lower.Progress

/-!
# One node after another can be lowered

Between two nodes every port that is still to be read has storage: its buffer is given back after its
last use, not earlier. So the next node can be lowered, unless it has no elements to store and there
is something that they would be computed from. Such a node is refused.
-/

namespace Dataflow

open Code (Assembler Emit Emitter StackBuffer)

namespace Graph

def ReadsPort (g : Graph) (k : Key) (p : Port) : Prop :=
  ∃ s ∈ g.selections k, ∃ a ∈ s.spans, a.port = p

structure Bounded (g : Graph) (n : Nat) : Prop where
  ports : ∀ p o, g.outlet p = .ok o → o.size.getD 0 ≤ n
  inlets : ∀ k, ∀ s ∈ g.selections k, s.size ≤ n

theorem bounded_of_entries {g : Graph} {n : Nat} (h : ∀ k e, g.entry? k = some e →
    (∀ o ∈ e.outlets, o.size.getD 0 ≤ n) ∧ ∀ i ∈ e.inlets, i.selection.size ≤ n) : g.Bounded n where
  ports p o ho := by
    obtain ⟨e, he, hi⟩ := outlet_eq_ok_iff.1 ho
    exact (h _ e he).1 o (List.mem_of_getElem? hi)
  inlets k s hs := by
    cases he : g.entry? k with
    | none =>
        rw [selections, he] at hs
        cases hs
    | some e =>
        rw [selections_eq he] at hs
        obtain ⟨i, hi, rfl⟩ := List.mem_map.1 hs
        exact (h k e he).2 i hi

theorem Bounded.of_sameShape {g g' : Graph} {n : Nat} (h : g.Bounded n) (hs : SameShape g g') :
    g'.Bounded n where
  ports p o ho := by
    obtain ⟨o', ho', hblank⟩ := hs.symm.outlet ho
    rw [← (Outlet.eq_of_blank hblank).2.2.2]
    exact h.ports p o' ho'
  inlets k := hs.selections_eq k ▸ h.inlets k

/-- The nodes of a list can be lowered one after the other. Each is a built-in one in its place and
reads from those before it. None takes values from outside but the input, and nothing is so large
that an offset in it could be out of range. -/
structure Lowerable (g : Graph) (log : List Key) (kind : Key → Builtin) (input : Key)
    (order : List Key) : Prop where
  sound : g.Sound log
  built : g.Built kind
  isInput : (kind input).isInput = true
  prepared : ∀ k ∈ order, g.Prepared kind k
  inOrder : g.InOrder order
  own : ∀ k ∈ order, (kind k).isInput = true → k = input
  bounded : g.Bounded (2 ^ 28)

end Graph

namespace Lower

section Uses

variable {g : Graph} {order : List Key} {p : Port} {k : Key} {m n last : Nat}

theorem mem_pairs_insert {uses : Table Port Nat} {q : Port}
    (h : (p, last) ∈ (uses.insert q n).pairs) :
    p = q ∧ last = n ∨ p ≠ q ∧ (p, last) ∈ uses.pairs := by
  rcases List.mem_cons.1 h with h | h
  · exact Or.inl (Prod.mk.inj h)
  · obtain ⟨hmem, hne⟩ := List.mem_filter.1 h
    exact Or.inr ⟨of_decide_eq_true hne, hmem⟩

theorem mem_pairs_foldl {ports : List Port} {uses : Table Port Nat}
    (h : (p, last) ∈ (ports.foldl (fun uses q => uses.insert q n) uses).pairs) :
    p ∈ ports ∧ last = n ∨ p ∉ ports ∧ (p, last) ∈ uses.pairs := by
  induction ports generalizing uses with
  | nil => exact Or.inr ⟨List.not_mem_nil, h⟩
  | cons q ports ih =>
      rcases ih h with ⟨hp, hlast⟩ | ⟨hp, h⟩
      · exact Or.inl ⟨List.mem_cons_of_mem q hp, hlast⟩
      · rcases mem_pairs_insert h with ⟨rfl, hlast⟩ | ⟨hne, h⟩
        · exact Or.inl ⟨List.mem_cons_self, hlast⟩
        · exact Or.inr ⟨by simp [hne, hp], h⟩

theorem lastUses_concat (g : Graph) (order : List Key) (k : Key) :
    lastUses g (order ++ [k]) = match g.entry? k with
      | none => lastUses g order
      | some e => (e.outlets.map (·.port) ++
          e.inlets.flatMap fun i => i.selection.spans.map (·.port)).foldl
        (fun uses p => uses.insert p order.length) (lastUses g order) := by
  cases he : g.entry? k <;> simp [lastUses, List.zipIdx_append, he]

/-- No port is read after its last use. -/
theorem le_of_mem_lastUses (h : (p, last) ∈ (lastUses g order).pairs) (hk : order[m]? = some k)
    (hp : g.ReadsPort k p) : m ≤ last := by
  induction order using List.reverseRecOn with
  | nil => cases hk
  | append_singleton order j ih =>
      rw [lastUses_concat] at h
      have hm := (List.getElem?_eq_some_iff.1 hk).1
      rw [List.length_append, List.length_singleton] at hm
      rcases Nat.lt_succ_iff_lt_or_eq.1 hm with hm | rfl
      · -- An earlier use is followed by the last one, whether the node that is added uses the port or not.
        rw [List.getElem?_append_left hm] at hk
        cases he : g.entry? j with
        | none =>
            rw [he] at h
            exact ih h hk
        | some e =>
            rw [he] at h
            rcases mem_pairs_foldl h with ⟨-, rfl⟩ | ⟨-, h⟩
            · exact hm.le
            · exact ih h hk
      · rw [List.getElem?_append_right (Nat.le_refl _), Nat.sub_self] at hk
        obtain rfl : j = k := Option.some.inj hk
        obtain ⟨s, hs, a, ha, rfl⟩ := hp
        cases he : g.entry? j with
        | none =>
            rw [Graph.selections, he] at hs
            cases hs
        | some e =>
            rw [he] at h
            rw [Graph.selections_eq he] at hs
            obtain ⟨i, hi, rfl⟩ := List.mem_map.1 hs
            rcases mem_pairs_foldl h with ⟨-, rfl⟩ | ⟨hnot, -⟩
            · exact Nat.le_refl _
            · refine absurd ?_ hnot
              exact List.mem_append_right _ (List.mem_flatMap.2 ⟨i, hi, List.mem_map_of_mem ha⟩)

end Uses

structure Drafts (t : Assembler × Progress) (s : LowerState) : Prop extends Holds t s where
  symbols : t.1.symbols = ∅

section Module

variable {α : Type} {t t' : Assembler × Progress} {s : LowerState} {g : Graph} {e : Entry} {u : Unit}
  {p : Port}

theorem ends_assemble {m : Code.Assemble α} {a : Assembler} {p : Progress}
    {Q : α → Assembler → Prop} (h : Ends m a Q) :
    Ends (assemble m) (a, p) fun x t => ∃ a', Q x a' ∧ t = (a', p) := by
  obtain ⟨x, a', hm, hQ⟩ := h
  refine .after_get ⟨x, (a', p), ?_, a', hQ, rfl⟩
  unfold Succeeds at hm
  simp only [hm]
  exact succeeds_bind.2 ⟨⟨⟩, _, succeeds_set.2 rfl, succeeds_liftExcept.2 ⟨rfl, rfl⟩⟩

/-- What can be emitted can be emitted into the open function of a module. -/
theorem ends_emitting {m : Emit α} {Q : α → Emitter → Prop} (ht : Drafts t s)
    (h : Ends m s.emitter Q) (hsettings : ∀ x e, Q x e → e.settings = s.emitter.settings) :
    Ends (emitting m) t fun x t' => ∃ e, Q x e ∧ Drafts t' { s with emitter := e } := by
  obtain ⟨a, p⟩ := t
  obtain ⟨x, e, hm, hQ⟩ := h
  have hs := ht.emits
  have hm' : m.run.run ⟨s.emitter.body, a.declarations, a.pools, a.settings⟩ = (.ok x, e) := by
    rw [hs.declarations, hs.pools, hs.settings]
    exact hm
  refine (ends_assemble (Q := fun y a' => y = x ∧ a' = { a with
    body := some e.body, declarations := e.declarations, pools := e.pools })
    ⟨x, _, Assembler.run_emit_of_opened hs.opened hm', rfl, rfl⟩).imp ?_
  rintro _ _ ⟨_, ⟨rfl, rfl⟩, rfl⟩
  exact ⟨e, hQ, ⟨⟨Assembler.current?_of_body hs.opened rfl rfl, rfl, rfl,
    hs.settings.trans (hsettings _ e hQ).symm, hs.defined⟩, ht.storage⟩, ht.symbols⟩

/-- A node can be lowered into the module when its code can be emitted. -/
theorem ends_lowerEntry {Q : Unit → LowerState → Prop} (ht : Drafts t s)
    (h : Completes ⟨e.toSite, g.size⟩ (do e.node.lower; finish)
      { s with gathered := List.replicate e.inlets.length none, remarks := t.2.remarks } Q)
    (hsettings : ∀ u s', Q u s' → s'.emitter.settings = s.emitter.settings) :
    Ends (lowerEntry g e) t fun u t' => ∃ s', Q u s' ∧ Drafts t' { s' with gathered := [] } := by
  obtain ⟨a, p⟩ := t
  obtain ⟨u, s', hrun, hQ⟩ := h
  have hstorage : p.storage = s.storage := ht.storage
  refine .after_get ?_
  dsimp only
  rw [hstorage]
  refine (ends_emitting (Q := fun r e' => r = (.ok u, (⟨s'.storage, s'.remarks⟩ : Progress)) ∧
    e' = s'.emitter) ht ⟨_, _, ?_, rfl, rfl⟩ ?_).bind ?_
  · exact congrArg (fun o => (Except.ok (o.1, (⟨o.2.storage, o.2.remarks⟩ : Progress)),
      o.2.emitter)) hrun
  · rintro _ _ ⟨-, rfl⟩
    exact hsettings u s' hQ
  · rintro _ ⟨a', p'⟩ ⟨_, ⟨rfl, rfl⟩, ht'⟩
    exact .after_modify ⟨u, _, succeeds_liftExcept.2 ⟨rfl, rfl⟩, s', hQ,
      ⟨⟨ht'.emits, rfl⟩, ht'.symbols⟩⟩

end Module

end Lower

namespace LowerState

variable {s s' s'' : LowerState} {ports : List Port} {slots : List Code.Slot}

/-- After buffers have been given back, the storage that is left can be addressed. -/
theorem Able.of_frees (h : s.Able) (hf : s.emitter.Frees slots s'.emitter)
    (he : s'.emitter.Proper) (hs : s'.Orderly)
    (hstorage : ∀ p st, s'.storage.find? p = some st → s.storage.find? p = some st) : s'.Able where
  proper := he
  orderly := hs
  arguments p v hv := by
    rw [hf.pools]
    exact h.arguments p v (hstorage p _ hv)
  data p id hid := by
    rw [hf.pools]
    exact h.data p id (hstorage p _ hid)

theorem Able.ungathered (h : s.Able) (n : Nat) (remarks : List Remark) :
    Able { s with gathered := List.replicate n none, remarks } := by
  exact h.of_grows (.refl _) h.proper (h.orderly.of_grows (.refl _) fun _ _ hb =>
    (buffer_ungathered hb).1) fun _ _ hst _ => hst

structure Drops (ports : List Port) (s s' : LowerState) : Prop extends Sheds ports s s' where
  able : s'.Able

theorem Drops.refl (h : s.Able) : Drops ports s s := ⟨.refl s, h⟩

theorem Drops.trans (h : Drops ports s s') (h' : Drops ports s' s'') : Drops ports s s'' :=
  ⟨h.toSheds.trans h'.toSheds, h'.able⟩

end LowerState

namespace Lower

section Release

variable {t : Assembler × Progress} {s : LowerState} {p : Port} {ports : List Port}

theorem ends_releasePort (ht : Drafts t s) (hs : s.Able) (hp : p ∈ ports) :
    Ends (releasePort p) t fun _ t' => ∃ s', Drafts t' s' ∧ LowerState.Drops ports s s' := by
  obtain ⟨a, progress⟩ := t
  have hstorage : progress.storage = s.storage := ht.storage
  refine .after_get ?_
  dsimp only
  split
  case h_2 => exact .pure ⟨s, ht, .refl hs⟩
  case h_1 b hb =>
    rw [hstorage] at hb ⊢
    refine .after_set ?_
    have ht' : Drafts (a, { progress with storage := s.storage.erase p })
        { s with storage := s.storage.erase p } := ⟨⟨ht.emits, rfl⟩, ht.symbols⟩
    refine (ends_emitting ht' (ends_releaseBuffer hs.proper
      (hs.orderly.held _ b (LowerState.buffer_inl.2 hb))) fun _ e h => h.2.passes.settings).imp
        fun _ t' h => ?_
    obtain ⟨e, ⟨he, hfrees⟩, ht''⟩ := h
    have hsheds : LowerState.Sheds ports s { s with emitter := e, storage := s.storage.erase p } :=
      .of_release hp hb hfrees
    exact ⟨_, ht'', hsheds, hs.of_frees hfrees he (hsheds.orderly hs.orderly) hsheds.storage⟩

theorem ends_releasePorts (ht : Drafts t s) (hs : s.Able) :
    Ends (ports.forM releasePort) t fun _ t' => ∃ s', Drafts t' s' ∧ LowerState.Drops ports s s' := by
  refine .forM (I := fun t' => ∃ s', Drafts t' s' ∧ LowerState.Drops ports s s') ⟨s, ht, .refl hs⟩ ?_
  rintro p hp t' ⟨s', ht', hdrops⟩
  exact (ends_releasePort ht' hdrops.able hp).imp
    fun _ _ ⟨s'', ht'', hdrops'⟩ => ⟨s'', ht'', hdrops.trans hdrops'⟩

end Release

structure Provides (o : Outlet) (s s' : LowerState) : Prop where
  able : LowerState.Able { s' with gathered := [] }
  level : s'.emitter.body.Level
  passes : s.emitter.Passes s'.emitter
  storage : ∀ p st, s.storage.find? p = some st → s'.storage.find? p = some st
  stored : ∃ st, s'.storage.find? o.port = some st
  other : ∀ p, p ≠ o.port → s'.storage.find? p = s.storage.find? p

section Node

variable {c : LowerContext} {b : Builtin} {o : Outlet} {s s' : LowerState}

theorem completes_node (hb : b.Served c o s) (hs : s.Able) (hlevel : s.emitter.body.Level)
    (hfill : b.inlets = [] ∨ o.size.getD 0 ≠ 0) :
    Completes c (do b.lower; finish) s fun _ s' => Provides o s s' := by
  have ho : c.site.outlets[0]? = some o := by rw [hb.outlet]; rfl
  have hm : Completes c (do b.lower; finish) s fun _ s' => ∃ s₁ slots, s₁.Able ∧ s.Enlarges s₁ ∧
      s₁.emitter.body.Level ∧ (∃ st, s₁.storage.find? o.port = some st) ∧
      s₁.emitter.Frees slots s'.emitter ∧ s'.emitter.Proper ∧ s'.storage = s₁.storage := by
    refine (Builtin.completes_lower hb hs hlevel).bind fun _ s₁ ⟨hs₁, h₁, hlevel₁, hst⟩ => ?_
    refine (completes_finish hs₁ hb.outlet (hst hfill)).of_lowers
      fun _ s' h ⟨e, hs', he, _⟩ => ?_
    obtain ⟨hfrees, hstorage⟩ := succeeds_finish h
    exact ⟨s₁, _, hs₁, h₁, hlevel₁, hst hfill, hfrees, hs' ▸ he, hstorage⟩
  refine hm.of_lowers fun _ s' h ⟨s₁, slots, hs₁, h₁, hlevel₁, hst, hfrees, he, hstorage⟩ => ?_
  obtain ⟨horderly, hother⟩ := orderly_node h ho hs.orderly
  exact {
    able := hs₁.of_frees hfrees he horderly fun p st hst => hstorage ▸ hst
    level := hfrees.body ▸ hlevel₁
    passes := h₁.grows.passes.trans hfrees.passes
    storage := fun p st hst => hstorage ▸ h₁.storage p st hst
    stored := hstorage ▸ hst
    other := fun p hp => hother p fun _ => hp }

/-- A node without elements is refused when there is something to compute them from. -/
theorem fills_of_node (hb : b.Served c o s) (h : Lowers c (do b.lower; finish) s () s') :
    b.inlets = [] ∨ o.size.getD 0 ≠ 0 := by
  by_contra hnot
  obtain ⟨hinlets, hzero⟩ := not_or.1 hnot
  obtain ⟨_, s₁, hlower, hfinish⟩ := lowers_bind.1 h
  obtain ⟨st, hst⟩ := stored_of_finish hfinish (o := o) (by rw [hb.outlet]; exact List.mem_singleton_self o)
  rw [Builtin.storage_of_lower hb hlower hinlets (not_not.1 hzero)] at hst
  cases hst

end Node

/-- How things stand between the nodes `done` and the nodes `rest`. What the latter read has storage,
as has what is kept to the end. -/
structure Poised (g : Graph) (kind : Key → Builtin) (input : Key) (kept : List Port) (e₀ : Emitter)
    (done rest : List Key) (t : Assembler × Progress) (s : LowerState) : Prop extends Drafts t s where
  able : s.Able
  level : s.emitter.body.Level
  passes : e₀.Passes s.emitter
  argument : ∃ x, s.storage.find? ⟨input, 0⟩ = some (.argument x)
  vacant : ∀ k ∈ rest, (kind k).isInput = false → s.storage.find? ⟨k, 0⟩ = none
  stored : ∀ k ∈ done, (⟨k, 0⟩ ∈ kept ∨ ∃ j ∈ rest, g.ReadsPort j ⟨k, 0⟩) →
    ∃ st, s.storage.find? ⟨k, 0⟩ = some st

section Nodes

variable {g : Graph} {log : List Key} {kind : Key → Builtin} {input : Key} {kept : List Port}
  {e₀ : Emitter} {done rest order : List Key} {t t' : Assembler × Progress} {s : LowerState}
  {k : Key} {e : Entry} {u : Unit}

theorem Poised.ends_location (h : Poised g kind input kept e₀ done rest t s) (text : String) :
    Ends (emitting (Emit.location text)) t fun _ t' =>
      ∃ s', Poised g kind input kept e₀ done rest t' s' := by
  refine (ends_emitting h.toDrafts (Emit.ends_location h.able.proper text)
    fun _ _ hp => hp.settings).imp fun _ t' ⟨e, hp, ht'⟩ => ⟨_, ht', h.able.proceeds hp, ?_, ?_,
      h.argument, h.vacant, h.stored⟩
  · exact hp.toStraight.level h.able.proper.tidy h.level
  · exact h.passes.trans hp.toGrows.passes

/-- What the next node reads has storage. -/
theorem Poised.served (h : Poised g kind input kept e₀ done (k :: rest) t s)
    (hg : g.Lowerable log kind input order) (horder : order = done ++ k :: rest)
    (he : g.entry? k = some e) (remarks : List Remark) :
    e.node = (kind k).toNode ∧ ∃ o, o.port = ⟨k, 0⟩ ∧ o.size.getD 0 = g.width k ∧
      (kind k).Served ⟨e.toSite, g.size⟩ o
        { s with gathered := List.replicate e.inlets.length none, remarks } := by
  have hk : k ∈ order := by simp [horder]
  obtain ⟨e', he', hfitted, hfit⟩ := hg.prepared k hk
  obtain rfl : e = e' := Option.some.inj (he.symm.trans he')
  obtain ⟨o, ho, ht, hsize⟩ := hfitted.outlet
  have hport : o.port = ⟨k, 0⟩ := (hg.sound.placed k e he).ports 0 o (by rw [ho]; rfl)
  have hwidth : o.size.getD 0 = g.width k := by simp [Graph.width, he, ho]
  refine ⟨hg.built.node k e he, o, hport, hwidth, ho, ht, hsize, ?_, hfitted.inlets,
    fun l hl => ⟨hfitted.types l hl, fun a ha => ?_, fun a ha => ?_, ?_⟩, rfl, fun hin => ?_,
    fun hin => ?_⟩
  · exact hg.bounded.ports ⟨k, 0⟩ o (Graph.outlet_eq_ok_iff.2 ⟨e, he, by rw [ho]; rfl⟩)
  · -- A span is of the outlet of an earlier node, and its storage has not been given back.
    have hmem : l.selection ∈ g.selections k := by
      rw [Graph.selections_eq he]
      exact List.mem_map_of_mem hl
    obtain ⟨o', ho', -⟩ := (hfit l hl).2 a ha
    have hindex := (Graph.outlet_eq_ok_of_built hg.built ho').1
    have heq : a.port = ⟨a.port.node, 0⟩ := congrArg (Port.mk a.port.node) hindex
    have hdone := hg.inOrder.2 done k rest horder _ (Graph.reads_of_mem_selections hmem ha)
    obtain ⟨st, hst⟩ := h.stored _ hdone
      (Or.inr ⟨k, List.mem_cons_self, l.selection, hmem, a, ha, heq⟩)
    exact ⟨st, heq ▸ hst⟩
  · obtain ⟨o', ho', hsize', -, hstop, -⟩ := (hfit l hl).2 a ha
    have hbound := hg.bounded.ports _ o' ho'
    rw [hsize'] at hbound
    exact hstop.trans hbound
  · refine hg.bounded.inlets k _ ?_
    rw [Graph.selections_eq he]
    exact List.mem_map_of_mem hl
  · rw [hport]
    exact h.vacant k List.mem_cons_self hin
  · obtain ⟨x, hx⟩ := h.argument
    rw [hport, hg.own k hk hin]
    exact ⟨_, hx⟩

theorem Poised.ends_lowerEntry (h : Poised g kind input kept e₀ done (k :: rest) t s)
    (hg : g.Lowerable log kind input order) (horder : order = done ++ k :: rest)
    (he : g.entry? k = some e) (hfill : (kind k).inlets = [] ∨ g.width k ≠ 0) :
    Ends (lowerEntry g e) t fun _ t' => ∃ o s', o.port = ⟨k, 0⟩ ∧ Provides o s s' ∧
      Drafts t' { s' with gathered := [] } := by
  obtain ⟨hnode, o, hport, hwidth, hserved⟩ := h.served hg horder he t.2.remarks
  have hable := h.able.ungathered e.inlets.length t.2.remarks
  have hcompletes : Completes ⟨e.toSite, g.size⟩ (do e.node.lower; finish)
      { s with gathered := List.replicate e.inlets.length none, remarks := t.2.remarks }
      fun _ s' => Provides o s s' := by
    rw [hnode]
    exact (completes_node hserved hable h.level (hwidth ▸ hfill)).imp fun _ s' hs' =>
      ⟨hs'.able, hs'.level, hs'.passes, hs'.storage, hs'.stored, hs'.other⟩
  exact (Lower.ends_lowerEntry h.toDrafts hcompletes fun _ _ hs' => hs'.passes.settings).imp
    fun _ t' ⟨s', hs', ht'⟩ => ⟨o, s', hport, hs', ht'⟩

theorem of_mem_releasedAt {uses : Table Port Nat} {position : Nat} {p : Port}
    (h : p ∈ releasedAt uses kept position) : (p, position) ∈ uses.pairs ∧ p ∉ kept := by
  obtain ⟨⟨q, last⟩, hpair, hq⟩ := List.mem_filterMap.1 h
  simp only [Option.ite_none_right_eq_some, Option.some.injEq, Bool.and_eq_true, decide_eq_true_eq,
    Bool.not_eq_true', List.contains_eq_mem, decide_eq_false_iff_not] at hq
  obtain ⟨⟨rfl, hkept⟩, rfl⟩ := hq
  exact ⟨hpair, hkept⟩

/-- What is kept to the end or read later is not given back. -/
theorem not_mem_releasedAt (horder : order = done ++ k :: rest) {p : Port}
    (hread : p ∈ kept ∨ ∃ j ∈ rest, g.ReadsPort j p) :
    p ∉ releasedAt (lastUses g order) kept done.length := by
  intro hmem
  obtain ⟨hpair, hkept⟩ := of_mem_releasedAt hmem
  obtain ⟨j, hj, hread⟩ := hread.resolve_left hkept
  obtain ⟨m, hm⟩ := List.mem_iff_getElem?.1 hj
  have hposition : order[done.length + (m + 1)]? = some j := by
    rw [horder, List.getElem?_append_right (Nat.le_add_right _ _), Nat.add_sub_cancel_left]
    exact hm
  have hle := le_of_mem_lastUses hpair hposition hread
  omega

/-- A node that has elements, or none to compute them from, can be lowered, and so can the next
one then, as far as it depends on storage. -/
theorem Poised.ends_lowerNode (h : Poised g kind input kept e₀ done (k :: rest) t s)
    (hg : g.Lowerable log kind input order) (horder : order = done ++ k :: rest)
    (hfill : (kind k).inlets = [] ∨ g.width k ≠ 0) :
    Ends (lowerNode g (lastUses g order) kept k done.length) t fun _ t' =>
      ∃ s', Poised g kind input kept e₀ (done ++ [k]) rest t' s' := by
  obtain ⟨e, he, -⟩ := hg.prepared k (by simp [horder])
  unfold lowerNode
  rw [he]
  refine (h.ends_location _).bind fun _ t₁ ⟨s₁, h₁⟩ => ?_
  refine (h₁.ends_lowerEntry hg horder he hfill).bind fun _ t₂ ⟨o, s₂, hport, hp, ht₂⟩ => ?_
  refine (ends_releasePorts ht₂ hp.able).imp fun _ t₃ ⟨s₃, ht₃, hd⟩ => ⟨s₃, ht₃, hd.able,
    hd.body ▸ hp.level, (h₁.passes.trans hp.passes).trans hd.passes, ?_, fun j hj hin => ?_,
    fun j hj hread => ?_⟩
  · obtain ⟨x, hx⟩ := h₁.argument
    have hx₂ := hp.storage _ _ hx
    refine ⟨x, (hd.kept _ (Or.inr fun b hb => ?_)).trans hx₂⟩
    cases hx₂.symm.trans hb
  · have hne : (⟨j, 0⟩ : Port) ≠ o.port := by
      rw [hport]
      rintro heq
      obtain rfl : j = k := (Port.mk.inj heq).1
      have hnodup := hg.inOrder.1
      rw [horder] at hnodup
      exact (List.nodup_cons.1 (List.nodup_append.1 hnodup).2.1).1 hj
    cases hst : s₃.storage.find? ⟨j, 0⟩ with
    | none => rfl
    | some st =>
        have hvacant := h₁.vacant j (List.mem_cons_of_mem k hj) hin
        exact absurd ((hd.storage _ _ hst).symm.trans ((hp.other _ hne).trans hvacant)) nofun
  · have hst : ∃ st, s₂.storage.find? ⟨j, 0⟩ = some st := by
      rcases List.mem_append.1 hj with hj | hj
      · exact (h₁.stored j hj (hread.imp_right fun ⟨i, hi, hread⟩ =>
          ⟨i, List.mem_cons_of_mem k hi, hread⟩)).imp (hp.storage _)
      · obtain rfl := List.mem_singleton.1 hj
        exact hport ▸ hp.stored
    have hnot := not_mem_releasedAt horder hread
    rw [show s₃.storage.find? ⟨j, 0⟩ = _ from hd.kept _ (Or.inl hnot)]
    exact hst

/-- A node that has been lowered has elements, or none to compute them from. -/
theorem Poised.fills_of_lowerNode (h : Poised g kind input kept e₀ done (k :: rest) t s)
    (hg : g.Lowerable log kind input order) (horder : order = done ++ k :: rest)
    (hm : Succeeds (lowerNode g (lastUses g order) kept k done.length) t u t') :
    (kind k).inlets = [] ∨ g.width k ≠ 0 := by
  obtain ⟨e, he, -⟩ := hg.prepared k (by simp [horder])
  unfold lowerNode at hm
  rw [he] at hm
  obtain ⟨_, t₁, hlocation, hm⟩ := succeeds_bind.1 hm
  obtain ⟨s₁, h₁⟩ := (h.ends_location _).holds hlocation
  obtain ⟨_, t₂, hentry, -⟩ := succeeds_bind.1 hm
  obtain ⟨s₂, hlower, -⟩ := succeeds_lowerEntry hentry h₁.toHolds
  obtain ⟨hnode, o, -, hwidth, hserved⟩ := h₁.served hg horder he t₁.2.remarks
  rw [hnode] at hlower
  rw [← hwidth]
  exact fills_of_node hserved hlower

theorem Poised.ends_lowerNodes (h : Poised g kind input kept e₀ done rest t s)
    (hg : g.Lowerable log kind input order) (horder : order = done ++ rest)
    (hfill : ∀ k ∈ rest, (kind k).inlets = [] ∨ g.width k ≠ 0) :
    Ends ((rest.zipIdx done.length).forM fun (k, position) =>
      lowerNode g (lastUses g order) kept k position) t fun _ t' =>
        ∃ s', Poised g kind input kept e₀ order [] t' s' := by
  induction rest generalizing done t s with
  | nil => exact .pure ⟨s, by rw [horder, List.append_nil]; exact h⟩
  | cons k rest ih =>
      refine (h.ends_lowerNode hg horder (hfill k List.mem_cons_self)).bind
        fun _ t₁ ⟨s₁, h₁⟩ => ?_
      have hrest := ih h₁ (by simp [horder]) fun j hj => hfill j (List.mem_cons_of_mem k hj)
      rwa [List.length_append, List.length_singleton] at hrest

theorem Poised.fills_of_lowerNodes (h : Poised g kind input kept e₀ done rest t s)
    (hg : g.Lowerable log kind input order) (horder : order = done ++ rest)
    (hm : Succeeds ((rest.zipIdx done.length).forM fun (k, position) =>
      lowerNode g (lastUses g order) kept k position) t u t') :
    ∀ k ∈ rest, (kind k).inlets = [] ∨ g.width k ≠ 0 := by
  induction rest generalizing done t s with
  | nil => exact fun _ hk => absurd hk List.not_mem_nil
  | cons k rest ih =>
      obtain ⟨_, t₁, hnode, hrest⟩ := succeeds_bind.1 hm
      have hfill := h.fills_of_lowerNode hg horder hnode
      obtain ⟨s₁, h₁⟩ := (h.ends_lowerNode hg horder hfill).holds hnode
      refine List.forall_mem_cons.2 ⟨hfill, ih h₁ (by simp [horder]) ?_⟩
      rwa [List.length_append, List.length_singleton]

end Nodes

end Lower

end Dataflow
