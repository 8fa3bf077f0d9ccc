import Dataflow.Node.Builtin
import Dataflow.Proofs.Fails
import Dataflow.Proofs.Graph.Shape

/-!
# Graphs as they come about

A history of a graph is the list of the keys it has handed out, oldest first, while it was brought
from the empty graph to its present state by any requests, granted or refused. After any history
the store is consistent: the list of nodes, the names and the arena agree, and what a node reads
was there before it, so nothing depends on itself.
-/

namespace Dataflow

theorem NodeId.ofNat_injective : Function.Injective ofNat := fun _ _ h =>
  Nat.repr_injective (congrArg text h)

namespace Graph

open Relation

inductive Action
  | add (id : NodeId) (node : Node)
  | addNumbered (next : Nat) (node : Node)
  | remove (k : Key)
  | setSize (p : Port) (size : Nat)
  | compute (order : List Key)

inductive Reply
  | added (k : Key)
  | removed (e : Entry)
  | done
  | refused (f : Fault)
  | absent

def Reply.isGranted : Reply → Bool
  | added _ | removed _ | done => true
  | refused _ | absent => false

def Reply.keys : Reply → List Key
  | added k => [k]
  | removed _ | done | refused _ | absent => []

def answer {α : Type} (g : Graph) (granted : α → Reply) (m : GraphM α) : Reply × Graph :=
  match m.run.run g with
  | (.ok x, g') => (granted x, g')
  | (.error f, g') => (.refused f, g')

def perform (g : Graph) : Action → Reply × Graph
  | .add id node => g.answer .added (Graph.add id node)
  | .addNumbered next node => g.answer .added (Graph.addNumbered next node)
  | .remove k =>
    match (Graph.remove k).run g with
    | (some e, g') => (.removed e, g')
    | (none, g') => (.absent, g')
  | .setSize p size => g.answer (fun _ => .done) (Graph.setSize p size)
  | .compute order => g.answer (fun _ => .done) (Graph.compute order)

inductive History : List Key → Graph → Prop
  | empty : History [] empty
  | step {log : List Key} {g : Graph} (a : Action) :
      History log g → History (log ++ (g.perform a).1.keys) (g.perform a).2

def replay (actions : List Action) : List Key × Graph :=
  actions.foldl (fun r a => (r.1 ++ (r.2.perform a).1.keys, (r.2.perform a).2)) ([], empty)

theorem history_replay (actions : List Action) :
    History (replay actions).1 (replay actions).2 := by
  induction actions using List.reverseRecOn with
  | nil => exact .empty
  | append_singleton actions a ih =>
      rw [replay, List.foldl_concat]
      exact ih.step a

def Reads (g : Graph) (a b : Key) : Prop := b ∈ g.dependencies a

/-- What holds of a node among the keys handed out so far. A span it reads fits as long as the
node there is live. -/
structure Placed (log : List Key) (g : Graph) (k : Key) (e : Entry) : Prop where
  key : e.key = k
  handed : k ∈ log
  ports : ∀ (i : Nat) (o : Outlet), e.outlets[i]? = some o → o.port = ⟨k, i⟩
  earlier : ∀ i ∈ e.inlets, ∀ s ∈ i.selection.spans,
    s.port.node ∈ log ∧ log.idxOf s.port.node < log.idxOf k
  uniform : ∀ i ∈ e.inlets, i.selection.Uniform
  fits : ∀ i ∈ e.inlets, ∀ s ∈ i.selection.spans, g.Live s.port.node → g.Fits s

structure Sound (log : List Key) (g : Graph) : Prop where
  arena : g.arena.Sound
  spent : ∀ k ∈ log, g.arena.Spent k
  nodup : log.Nodup
  order : g.order = log.filter fun k => (g.entry? k).isSome
  ids : ∀ id k, g.key? id = some k ↔ ∃ e, g.entry? k = some e ∧ e.id = id
  placed : ∀ k e, g.entry? k = some e → Placed log g k e

theorem sound_empty : Sound [] empty where
  arena := Arena.sound_empty
  spent := by simp
  nodup := List.nodup_nil
  order := rfl
  ids := by
    intro id k
    constructor
    · intro h
      cases h
    · rintro ⟨e, he, -⟩
      cases he
  placed := by
    intro k e h
    cases h

section Steps

variable {log : List Key} {g : Graph}

theorem Sound.mem_order_iff (h : Sound log g) (k : Key) : k ∈ g.order ↔ g.Live k := by
  rw [h.order, List.mem_filter]
  constructor
  · exact fun hk => hk.2
  · intro hk
    obtain ⟨e, he⟩ := hk.exists_entry
    exact ⟨(h.placed k e he).handed, hk⟩

theorem Sound.setOutlets (h : Sound log g) {k : Key} {e : Entry} {outlets : List Outlet}
    (he : g.entry? k = some e) (hb : outlets.map Outlet.blank = e.outlets.map Outlet.blank) :
    Sound log (g.setOutlets k outlets) := by
  have hshape := sameShape_setOutlets he hb
  refine ⟨Arena.sound_modify _ _ h.arena, fun k' hk' => Arena.spent_modify _ _ (h.spent k' hk'),
    h.nodup, ?_, ?_, ?_⟩
  · rw [hshape.order, h.order]
    apply List.filter_congr
    intro k' _
    exact (Bool.eq_iff_iff.2 (hshape.live_iff k')).symm
  · intro id k'
    change g.key? id = some k' ↔ _
    rw [h.ids]
    constructor
    · rintro ⟨e₁, he₁, hid⟩
      obtain ⟨e₂, he₂, hb₂⟩ := hshape.exists_entry he₁
      exact ⟨e₂, he₂, (toSite_eq_of_blank hb₂).1.trans hid⟩
    · rintro ⟨e₁, he₁, hid⟩
      obtain ⟨e₂, he₂, hb₂⟩ := hshape.symm.exists_entry he₁
      exact ⟨e₂, he₂, (toSite_eq_of_blank hb₂).1.trans hid⟩
  · intro k' e₁ he₁
    obtain ⟨e₂, he₂, hb₂⟩ := hshape.symm.exists_entry he₁
    have hp := h.placed k' e₂ he₂
    obtain ⟨-, hkey, -, hin, -, -⟩ := toSite_eq_of_blank hb₂
    refine ⟨hkey ▸ hp.key, hp.handed, ?_, hin ▸ hp.earlier, hin ▸ hp.uniform, ?_⟩
    · intro i o ho
      obtain ⟨o₂, ho₂, hob⟩ := outlet_of_blank hb₂ ho
      exact (Outlet.eq_of_blank hob).2.1.symm.trans (hp.ports i o₂ ho₂)
    · intro i hi s hs hl
      exact hshape.fits (hp.fits i (hin ▸ hi) s hs ((hshape.live_iff _).1 hl))

theorem Sound.compute (h : Sound log g) (order : List Key) :
    Sound log ((Graph.compute order).run.run g).2 :=
  compute_induction (P := Sound log) (fun _ _ _ _ h he => h.setOutlets he (blank_apply _ _)) order h

end Steps

section Checks

variable {α : Type} {r : Except Fault α} {g g' : Graph}

@[simp] theorem succeeds_check {x : α} : Succeeds (check r) g x g' ↔ r = .ok x ∧ g = g' := by
  cases r <;> simp [check]

@[simp] theorem fails_check {f : Fault} : Fails (check r) g f g' ↔ r = .error f ∧ g = g' := by
  cases r <;> simp [check]

end Checks

section Place

variable {log : List Key} {g g' : Graph} {id : NodeId} {node : Node} {k : Key}

theorem succeeds_place :
    Succeeds (place id node) g k g' ↔
      node.inlets.length ≤ Node.maxPorts ∧ ∃ inlets specs,
        node.inlets.mapM g.resolveInlet = .ok inlets ∧
        node.outlets (inlets.map (·.selection)) = .ok specs ∧ specs.length ≤ Node.maxPorts ∧
        k = g.arena.nextKey ∧
        g' = { arena := (g.arena.insert (newEntry id node inlets specs)).2
               order := g.order ++ [k], ids := g.ids.insert id k } := by
  unfold place
  simp only [succeeds_refuse, Nat.not_lt, succeeds_bind, succeeds_get, succeeds_check, succeeds_modify,
    succeeds_pure, Arena.insert_fst]
  refine and_congr_right fun _ => ?_
  constructor
  · rintro ⟨_, _, ⟨rfl, rfl⟩, inlets, _, ⟨hinlets, rfl⟩, specs, _, ⟨hspecs, rfl⟩, hout, _, _,
      ⟨rfl, rfl⟩, _, _, rfl, _, _, rfl, _, _, rfl, rfl, rfl⟩
    exact ⟨inlets, specs, hinlets, hspecs, hout, rfl, rfl⟩
  · rintro ⟨inlets, specs, hinlets, hspecs, hout, rfl, rfl⟩
    exact ⟨_, _, ⟨rfl, rfl⟩, inlets, _, ⟨hinlets, rfl⟩, specs, _, ⟨hspecs, rfl⟩, hout, _, _,
      ⟨rfl, rfl⟩, ⟨⟩, _, rfl, ⟨⟩, _, rfl, ⟨⟩, _, rfl, rfl, rfl⟩

/-- A node that is refused has changed nothing: all that it is checked for is checked first. -/
theorem eq_of_fails_place {f : Fault} (h : Fails (place id node) g f g') : g = g' := by
  unfold place at h
  simp only [fails_refuse, fails_bind, fails_get, fails_check, fails_modify, fails_pure, succeeds_get,
    succeeds_check, false_or, and_false, exists_false, or_false] at h
  rcases h with ⟨-, -, h⟩ | ⟨-, _, _, ⟨rfl, rfl⟩, ⟨-, h⟩ | ⟨_, _, ⟨-, rfl⟩, ⟨-, h⟩ | ⟨_, _, ⟨-, rfl⟩, -, -, h⟩⟩⟩
  all_goals exact h

theorem succeeds_add : Succeeds (add id node) g k g' ↔
    g.ids.contains id = false ∧ Succeeds (place id node) g k g' := by
  unfold add
  simp only [succeeds_bind, succeeds_get, succeeds_refuse, Bool.not_eq_true]
  constructor
  · rintro ⟨_, _, ⟨rfl, rfl⟩, h⟩
    exact h
  · exact fun h => ⟨_, _, ⟨rfl, rfl⟩, h⟩

theorem eq_of_fails_add {f : Fault} (h : Fails (add id node) g f g') : g = g' := by
  unfold add at h
  simp only [fails_bind, fails_get, succeeds_get, fails_refuse, false_or] at h
  obtain ⟨_, _, ⟨rfl, rfl⟩, ⟨-, -, h⟩ | ⟨-, h⟩⟩ := h
  · exact h
  · exact eq_of_fails_place h

theorem run_addNumbered (next : Nat) (node : Node) (g : Graph) :
    (addNumbered next node).run.run g = (place (.ofNat (g.freeNumber next)) node).run.run g :=
  run_of_succeeds (succeeds_get.2 ⟨rfl, rfl⟩)

theorem Sound.handed (h : Sound log g) (hl : g.Live k) : k ∈ log := by
  obtain ⟨e, he⟩ := hl.exists_entry
  exact (h.placed k e he).handed

theorem Sound.nextKey_notMem (h : Sound log g) : g.arena.nextKey ∉ log := fun hm =>
  Arena.not_spent_nextKey h.arena (h.spent _ hm)

structure Grown (g g' : Graph) (id : NodeId) (node : Node) (k : Key) (e : Entry) : Prop where
  arena : ∃ make, g'.arena = (g.arena.insert make).2
  key : k = g.arena.nextKey
  order : g'.order = g.order ++ [k]
  ids : g'.ids = g.ids.insert id k
  entry : ∀ k', g'.entry? k' = if k' = k then some e else g.entry? k'
  made : ∃ inlets specs, node.inlets.mapM g.resolveInlet = .ok inlets ∧
    node.outlets (inlets.map (·.selection)) = .ok specs ∧ e = newEntry id node inlets specs k
  reads : ∀ i ∈ e.inlets, g.FitsAll i.selection

theorem grown_of_place (ha : g.arena.Sound) (hp : Succeeds (place id node) g k g') :
    ∃ e, Grown g g' id node k e := by
  obtain ⟨-, inlets, specs, hinlets, hspecs, -, rfl, rfl⟩ := succeeds_place.1 hp
  refine ⟨newEntry id node inlets specs g.arena.nextKey, ⟨_, rfl⟩, rfl, rfl, rfl, ?_,
    ⟨inlets, specs, hinlets, hspecs, rfl⟩, ?_⟩
  · intro k'
    refine (Arena.get?_insert (newEntry id node inlets specs) ha k').trans ?_
    by_cases hk : k' = g.arena.nextKey
    · rw [if_pos hk, if_pos hk, hk]
    · rw [if_neg hk, if_neg hk]
      rfl
  · intro i hi
    obtain ⟨j, -, hres⟩ := exists_of_mem_mapM hinlets hi
    exact fitsAll_of_resolve (resolveInlet_eq_ok_iff.1 hres).1

variable {e : Entry}

theorem Grown.name (hg : Grown g g' id node k e) : e.id = id := by
  obtain ⟨_, _, -, -, rfl⟩ := hg.made
  rfl

theorem Grown.own (hg : Grown g g' id node k e) : e.key = k := by
  obtain ⟨_, _, -, -, rfl⟩ := hg.made
  rfl

theorem Grown.ports (hg : Grown g g' id node k e) (i : Nat) (o : Outlet)
    (ho : e.outlets[i]? = some o) : o.port = ⟨k, i⟩ := by
  obtain ⟨_, _, -, -, rfl⟩ := hg.made
  simp only [newEntry, List.getElem?_mapIdx, Option.map_eq_some_iff] at ho
  obtain ⟨spec, -, rfl⟩ := ho
  rfl

theorem Grown.fits (h : Sound log g) (hg : Grown g g' id node k e) {s : Span} (hs : g.Fits s) :
    g'.Fits s := by
  refine hs.of_blank fun o ho => ⟨o, ?_, rfl⟩
  obtain ⟨e', he', hi⟩ := outlet_eq_ok_iff.1 ho
  refine outlet_eq_ok_iff.2 ⟨e', ?_, hi⟩
  rw [hg.entry, if_neg]
  · exact he'
  · intro hk
    exact h.nextKey_notMem (hg.key ▸ hk ▸ h.handed (live_of_entry he'))

theorem Grown.order_eq (h : Sound log g) (hg : Grown g g' id node k e) :
    g'.order = (log ++ [k]).filter fun k => (g'.entry? k).isSome := by
  have hnew : k ∉ log := hg.key ▸ h.nextKey_notMem
  have hold : ∀ x ∈ log, (g'.entry? x).isSome = (g.entry? x).isSome := by
    intro x hx
    rw [hg.entry, if_neg (ne_of_mem_of_not_mem hx hnew)]
  have hlast : [k].filter (fun k => (g'.entry? k).isSome) = [k] :=
    List.filter_cons_of_pos (by rw [hg.entry, if_pos rfl]; rfl)
  rw [List.filter_append, List.filter_congr hold, hlast, hg.order, h.order]

theorem Grown.key?_iff (h : Sound log g) (hid : g.ids.contains id = false)
    (hg : Grown g g' id node k e) (id' : NodeId) (k' : Key) :
    g'.key? id' = some k' ↔ ∃ e', g'.entry? k' = some e' ∧ e'.id = id' := by
  have hnew : k ∉ log := hg.key ▸ h.nextKey_notMem
  have hfind : g'.key? id' = if id' = id then some k else g.key? id' := by
    unfold key?
    rw [hg.ids]
    exact Table.find?_insert g.ids id id' k
  have hnone : g.key? id = none := by simpa [Table.contains, key?] using hid
  rw [hfind, hg.entry]
  by_cases hk : k' = k
  · subst hk
    rw [if_pos rfl]
    by_cases hi : id' = id
    · subst hi
      simp [hg.name]
    · rw [if_neg hi]
      constructor
      · intro hf
        obtain ⟨e', he', _⟩ := (h.ids id' k').1 hf
        exact absurd (h.handed (live_of_entry he')) hnew
      · rintro ⟨e', he', hid'⟩
        obtain rfl : e = e' := Option.some.inj he'
        exact absurd (hid'.symm.trans hg.name) hi
  · rw [if_neg hk, ← h.ids id' k']
    by_cases hi : id' = id
    · subst hi
      rw [if_pos rfl, hnone]
      simp [Ne.symm hk]
    · rw [if_neg hi]

theorem Grown.placed (h : Sound log g) (hg : Grown g g' id node k e) (k' : Key) (e' : Entry)
    (he' : g'.entry? k' = some e') : Placed (log ++ [k]) g' k' e' := by
  have hnew : k ∉ log := hg.key ▸ h.nextKey_notMem
  rw [hg.entry] at he'
  by_cases hk : k' = k
  · subst hk
    rw [if_pos rfl] at he'
    obtain rfl := Option.some.inj he'
    refine ⟨hg.own, by simp, hg.ports, ?_, fun i hi => (hg.reads i hi).1,
      fun i hi s hs _ => hg.fits h ((hg.reads i hi).2 s hs)⟩
    intro i hi s hs
    have hm : s.port.node ∈ log := h.handed ((hg.reads i hi).2 s hs).live
    refine ⟨List.mem_append_left _ hm, ?_⟩
    rw [List.idxOf_append_of_mem hm, List.idxOf_append_of_notMem hnew]
    have := List.idxOf_lt_length_of_mem hm
    omega
  · rw [if_neg hk] at he'
    have hpl := h.placed k' e' he'
    refine ⟨hpl.key, List.mem_append_left _ hpl.handed, hpl.ports, ?_, hpl.uniform, ?_⟩
    · intro i hi s hs
      obtain ⟨hm, hlt⟩ := hpl.earlier i hi s hs
      refine ⟨List.mem_append_left _ hm, ?_⟩
      rwa [List.idxOf_append_of_mem hm, List.idxOf_append_of_mem hpl.handed]
    · intro i hi s hs hl
      have hm := (hpl.earlier i hi s hs).1
      refine hg.fits h (hpl.fits i hi s hs ?_)
      rwa [Live, hg.entry, if_neg (ne_of_mem_of_not_mem hm hnew)] at hl

theorem Sound.grow (h : Sound log g) (hid : g.ids.contains id = false)
    (hg : Grown g g' id node k e) : Sound (log ++ [k]) g' := by
  have hnew : k ∉ log := hg.key ▸ h.nextKey_notMem
  obtain ⟨make, hmake⟩ := hg.arena
  refine ⟨hmake ▸ Arena.sound_insert make h.arena, ?_, ?_, hg.order_eq h, hg.key?_iff h hid,
    hg.placed h⟩
  · intro k' hk'
    rw [hmake]
    refine Arena.spent_insert make h.arena ?_
    rcases List.mem_append.1 hk' with hm | hm
    · exact Or.inl (h.spent k' hm)
    · exact Or.inr ((List.mem_singleton.1 hm).trans hg.key)
  · refine List.nodup_append.2 ⟨h.nodup, by simp, ?_⟩
    intro a ha b hb
    obtain rfl := List.mem_singleton.1 hb
    exact ne_of_mem_of_not_mem ha hnew

/-- Adding a node under a name that is not in use. -/
theorem Sound.place (h : Sound log g) (hid : g.ids.contains id = false)
    (hp : Succeeds (place id node) g k g') : Sound (log ++ [k]) g' := by
  obtain ⟨e, hg⟩ := grown_of_place h.arena hp
  exact h.grow hid hg

end Place

section Remove

variable {log : List Key} {g g' : Graph} {k : Key} {e : Entry}

theorem run_remove (k : Key) (g : Graph) : (remove k).run g =
    match g.arena.remove k with
    | none => (none, g)
    | some (e, arena) =>
      (some e, { arena, order := g.order.filter (· ≠ k), ids := g.ids.erase e.id }) := by
  change StateT.run (match g.arena.remove k with | none => _ | some (e, arena) => _) g = _
  cases g.arena.remove k <;> rfl

theorem remove_eq_some_iff :
    (remove k).run g = (some e, g') ↔ ∃ arena, g.arena.remove k = some (e, arena) ∧
      g' = { arena, order := g.order.filter (· ≠ k), ids := g.ids.erase e.id } := by
  rw [run_remove]
  cases g.arena.remove k with
  | none =>
      constructor
      · intro h
        cases h
      · rintro ⟨_, h, -⟩
        cases h
  | some r =>
      constructor
      · intro h
        obtain ⟨he, rfl⟩ := Prod.mk.inj h
        obtain rfl := Option.some.inj he
        exact ⟨r.2, rfl, rfl⟩
      · rintro ⟨arena, h, rfl⟩
        obtain rfl := Option.some.inj h
        rfl

/-- Where there is no node, none is removed. -/
theorem eq_of_remove_eq_none (h : (remove k).run g = (none, g')) : g = g' := by
  rw [run_remove] at h
  split at h
  · exact (Prod.mk.inj h).2
  · cases (Prod.mk.inj h).1

theorem Sound.remove (h : Sound log g) (hr : (remove k).run g = (some e, g')) : Sound log g' := by
  obtain ⟨arena, ha, rfl⟩ := remove_eq_some_iff.1 hr
  set g' : Graph := { arena, order := g.order.filter (· ≠ k), ids := g.ids.erase e.id } with hg'
  have hek : g.entry? k = some e := (Arena.remove_eq_some_iff.1 ha).1
  have hentry : ∀ k', g'.entry? k' = if k' = k then none else g.entry? k' :=
    Arena.get?_remove ha
  refine ⟨Arena.sound_remove h.arena ha, fun k' hk' => Arena.spent_remove ha (h.spent k' hk'),
    h.nodup, ?_, ?_, ?_⟩
  · change g.order.filter (· ≠ k) = _
    rw [h.order, List.filter_filter]
    apply List.filter_congr
    intro x _
    rw [hentry]
    by_cases hx : x = k
    · simp [hx]
    · simp [hx]
  · intro id' k'
    have hfind : g'.key? id' = if id' = e.id then none else g.key? id' :=
      Table.find?_erase g.ids e.id id'
    rw [hfind, hentry]
    by_cases hkk : k' = k
    · subst hkk
      rw [if_pos rfl]
      by_cases hi : id' = e.id
      · simp [hi]
      · rw [if_neg hi, h.ids, hek]
        simp [Ne.symm hi]
    · rw [if_neg hkk, ← h.ids id' k']
      by_cases hi : id' = e.id
      · subst hi
        have := (h.ids e.id k).2 ⟨e, hek, rfl⟩
        rw [if_pos rfl, this]
        simp [Ne.symm hkk]
      · rw [if_neg hi]
  · intro k' e' he'
    rw [hentry] at he'
    by_cases hkk : k' = k
    · rw [if_pos hkk] at he'
      cases he'
    · rw [if_neg hkk] at he'
      have hpl := h.placed k' e' he'
      refine ⟨hpl.key, hpl.handed, hpl.ports, hpl.earlier, hpl.uniform, ?_⟩
      intro i hi s hs hl
      rw [Live, hentry] at hl
      by_cases hsk : s.port.node = k
      · rw [if_pos hsk] at hl
        cases hl
      · rw [if_neg hsk] at hl
        refine (hpl.fits i hi s hs hl).of_blank fun o ho => ⟨o, ?_, rfl⟩
        obtain ⟨e₁, he₁, hi₁⟩ := outlet_eq_ok_iff.1 ho
        exact outlet_eq_ok_iff.2 ⟨e₁, by rw [hentry, if_neg hsk]; exact he₁, hi₁⟩

end Remove

section SetSize

variable {log : List Key} {g g' : Graph} {p : Port} {size : Nat}

theorem succeeds_setSize {u : Unit} :
    Succeeds (setSize p size) g u g' ↔ ∃ e o, g.entry? p.node = some e ∧
      e.outlets[p.index]? = some o ∧ o.size = none ∧
      g' = g.setOutlets p.node (e.outlets.set p.index (o.setSize size)) := by
  unfold setSize
  rw [succeeds_bind]
  constructor
  · rintro ⟨_, _, hget, h⟩
    obtain ⟨rfl, rfl⟩ := succeeds_get.1 hget
    split at h
    · exact absurd h succeeds_throw
    · next e he =>
        split at h
        · exact absurd h succeeds_throw
        · next o ho =>
            split at h
            · exact absurd h succeeds_throw
            · next hsize => exact ⟨e, o, he, ho, hsize, (succeeds_modify.1 h).symm⟩
  · rintro ⟨e, o, he, ho, hsize, rfl⟩
    refine ⟨_, _, succeeds_get.2 ⟨rfl, rfl⟩, ?_⟩
    rw [he]
    dsimp only
    rw [ho]
    dsimp only
    rw [hsize]
    exact succeeds_modify.2 rfl

/-- A size that is refused has changed nothing. -/
theorem eq_of_fails_setSize {f : Fault} (h : Fails (setSize p size) g f g') : g = g' := by
  unfold setSize at h
  rcases fails_bind.1 h with h | ⟨_, _, hget, h⟩
  · exact absurd h fails_get
  obtain ⟨rfl, rfl⟩ := succeeds_get.1 hget
  split at h
  · exact (fails_throw.1 h).2
  · split at h
    · exact (fails_throw.1 h).2
    · split at h
      · exact (fails_throw.1 h).2
      · exact absurd h fails_modify

/-- Giving an outlet its size moves no outlet that a span can fit. -/
theorem fits_setSize {e : Entry} {o : Outlet} (he : g.entry? p.node = some e)
    (ho : e.outlets[p.index]? = some o) (hnone : o.size = none) {s : Span} (hs : g.Fits s) :
    (g.setOutlets p.node (e.outlets.set p.index (o.setSize size))).Fits s := by
  obtain ⟨o', ho', hsize, -⟩ := id hs
  obtain ⟨e', he', hi⟩ := outlet_eq_ok_iff.1 ho'
  refine hs.of_blank fun o₁ ho₁ => ⟨o₁, ?_, rfl⟩
  obtain ⟨e₁, he₁, hi₁⟩ := outlet_eq_ok_iff.1 ho₁
  refine outlet_eq_ok_iff.2 ?_
  rw [lookup_setOutlets]
  by_cases hk : s.port.node = p.node
  · rw [if_pos hk, he]
    rw [hk, he] at he₁ he'
    obtain rfl := Option.some.inj he₁
    obtain rfl := Option.some.inj he'
    refine ⟨_, rfl, ?_⟩
    have hne : p.index ≠ s.port.index := by
      intro hidx
      rw [hidx, hi] at ho
      obtain rfl := Option.some.inj ho
      rw [hnone] at hsize
      cases hsize
    rw [List.getElem?_set_ne hne]
    exact hi₁
  · rw [if_neg hk]
    exact ⟨e₁, he₁, hi₁⟩

theorem Sound.setSize (h : Sound log g) (hs : Succeeds (setSize p size) g () g') : Sound log g' := by
  obtain ⟨e, o, he, ho, hnone, rfl⟩ := succeeds_setSize.1 hs
  set outlets := e.outlets.set p.index (o.setSize size)
  have hentry : ∀ k, entry? (g.setOutlets p.node outlets) k =
      if k = p.node then some { e with outlets } else g.entry? k := by
    intro k
    rw [lookup_setOutlets, he]
    rfl
  have hlive : ∀ k, ( entry? (g.setOutlets p.node outlets) k).isSome = (g.entry? k).isSome := by
    intro k
    rw [hentry]
    by_cases hk : k = p.node
    · rw [if_pos hk, hk, he]
      rfl
    · rw [if_neg hk]
  refine ⟨Arena.sound_modify _ _ h.arena, fun k hk => Arena.spent_modify _ _ (h.spent k hk),
    h.nodup, ?_, ?_, ?_⟩
  · exact h.order.trans (List.filter_congr fun k _ => (hlive k).symm)
  · intro id k
    change g.key? id = some k ↔ _
    rw [h.ids, hentry]
    by_cases hk : k = p.node
    · rw [if_pos hk, hk, he]
      simp
    · rw [if_neg hk]
  · intro k e' he'
    have keep : ∀ e₁, g.entry? k = some e₁ → e'.inlets = e₁.inlets → e'.key = e₁.key →
        (∀ (i : Nat) (o : Outlet), e'.outlets[i]? = some o → o.port = ⟨k, i⟩) →
        Placed log (g.setOutlets p.node outlets) k e' := by
      intro e₁ he₁ hin hkey hports
      have hpl := h.placed k e₁ he₁
      refine ⟨hkey.trans hpl.key, hpl.handed, hports, hin ▸ hpl.earlier, hin ▸ hpl.uniform, ?_⟩
      intro i hi s hs hl
      rw [Live, hlive] at hl
      exact fits_setSize he ho hnone (hpl.fits i (hin ▸ hi) s hs hl)
    rw [hentry] at he'
    by_cases hk : k = p.node
    · subst hk
      rw [if_pos rfl] at he'
      obtain rfl := Option.some.inj he'
      have hpl := h.placed p.node e he
      refine keep e he rfl rfl fun i o' ho' => ?_
      by_cases hi : p.index = i
      · subst hi
        have hlt := (List.getElem?_eq_some_iff.1 ho).1
        simp only [outlets, List.getElem?_set_self hlt] at ho'
        obtain rfl := Option.some.inj ho'
        exact hpl.ports p.index o ho
      · simp only [outlets, List.getElem?_set_ne hi] at ho'
        exact hpl.ports i o' ho'
    · rw [if_neg hk] at he'
      exact keep e' he' rfl rfl (h.placed k e' he').ports

end SetSize

section Numbers

variable (g : Graph)

/-- The search passes over names that are in use and stops early only at one that is not. -/
theorem exists_freshNumber_eq (fuel n : Nat) :
    ∃ j ≤ fuel, g.freshNumber fuel n = n + j ∧
      (∀ i < j, g.ids.contains (.ofNat (n + i)) = true) ∧
      (j < fuel → g.ids.contains (.ofNat (n + j)) = false) := by
  induction fuel generalizing n with
  | zero => exact ⟨0, Nat.le_refl _, rfl, by simp, by simp⟩
  | succ fuel ih =>
      rw [freshNumber]
      cases hn : g.ids.contains (.ofNat n) with
      | false => exact ⟨0, by omega, rfl, by simp, fun _ => hn⟩
      | true =>
          obtain ⟨j, hj, heq, hused, hfree⟩ := ih (n + 1)
          refine ⟨j + 1, by omega, ?_, ?_, ?_⟩
          · rw [if_pos rfl, heq]
            omega
          · intro i hi
            cases i with
            | zero => exact hn
            | succ i =>
                rw [show n + (i + 1) = n + 1 + i by omega]
                exact hused i (by omega)
          · intro hlt
            rw [show n + (j + 1) = n + 1 + j by omega]
            exact hfree (by omega)

/-- There are more numbers to try than names in use. -/
theorem contains_freeNumber (n : Nat) : g.ids.contains (.ofNat (g.freeNumber n)) = false := by
  unfold freeNumber
  obtain ⟨j, hj, heq, hused, hfree⟩ := g.exists_freshNumber_eq (g.ids.pairs.length + 1) n
  rw [heq]
  apply hfree
  have hnodup : ((List.range j).map fun i => NodeId.ofNat (n + i)).Nodup :=
    List.nodup_range.map fun a b h => by
      have := NodeId.ofNat_injective h
      omega
  have hsub : ((List.range j).map fun i => NodeId.ofNat (n + i)) ⊆ g.ids.pairs.map Prod.fst := by
    intro id hid
    obtain ⟨i, hi, rfl⟩ := List.mem_map.1 hid
    have hc := hused i (List.mem_range.1 hi)
    rw [Table.contains, Table.find?, List.lookup_isSome_iff] at hc
    obtain ⟨p, hp, hpe⟩ := hc
    exact List.mem_map.2 ⟨p, hp, (eq_of_beq hpe).symm⟩
  have := (List.subperm_of_subset hnodup hsub).length_le
  simp only [List.length_map, List.length_range] at this
  omega

end Numbers

section Histories

variable {log : List Key} {g : Graph}

/-- An answer is given by an operation that succeeds or by one that fails. -/
theorem answer_cases {α : Type} (g : Graph) (granted : α → Reply) (m : GraphM α) :
    (∃ x g', Succeeds m g x g' ∧ g.answer granted m = (granted x, g')) ∨
      ∃ f g', Fails m g f g' ∧ g.answer granted m = (.refused f, g') := by
  unfold answer
  rcases hrun : m.run.run g with ⟨r, g'⟩
  cases r with
  | ok x => exact .inl ⟨x, g', hrun, rfl⟩
  | error f => exact .inr ⟨f, g', hrun, rfl⟩

theorem snd_answer {α : Type} (g : Graph) (granted : α → Reply) (m : GraphM α) :
    (g.answer granted m).2 = (m.run.run g).2 := by
  unfold answer
  rcases m.run.run g with ⟨_ | _, g'⟩ <;> rfl

inductive Effect (g : Graph) : Action → Reply → Graph → Prop
  | added {a : Action} {id : NodeId} {node : Node} {k : Key} {g' : Graph} :
      g.ids.contains id = false → Succeeds (place id node) g k g' → Effect g a (.added k) g'
  | removed {k : Key} {e : Entry} {g' : Graph} :
      (remove k).run g = (some e, g') → Effect g (.remove k) (.removed e) g'
  | sized {p : Port} {size : Nat} {g' : Graph} :
      Succeeds (setSize p size) g () g' → Effect g (.setSize p size) .done g'
  | computed {order : List Key} {r : Reply} :
      r.keys = [] → Effect g (.compute order) r ((Graph.compute order).run.run g).2
  | unchanged {a : Action} {r : Reply} : r.isGranted = false → r.keys = [] → Effect g a r g

/-- Only a computation can be refused and leave something behind. -/
theorem effect_perform (g : Graph) (a : Action) :
    Effect g a (g.perform a).1 (g.perform a).2 := by
  cases a with
  | add id node =>
      rw [perform]
      rcases g.answer_cases .added (add id node) with ⟨k, g', h, hans⟩ | ⟨f, g', h, hans⟩
      · obtain ⟨hid, hplace⟩ := succeeds_add.1 h
        rw [hans]
        exact .added hid hplace
      · obtain rfl := eq_of_fails_add h
        rw [hans]
        exact .unchanged rfl rfl
  | addNumbered next node =>
      rw [perform]
      rcases g.answer_cases .added (addNumbered next node) with ⟨k, g', h, hans⟩ | ⟨f, g', h, hans⟩
      · rw [hans]
        exact .added (g.contains_freeNumber next) ((run_addNumbered next node g).symm.trans h)
      · obtain rfl := eq_of_fails_place ((run_addNumbered next node g).symm.trans h)
        rw [hans]
        exact .unchanged rfl rfl
  | remove k =>
      rw [perform]
      rcases hr : (remove k).run g with ⟨_ | e, g'⟩
      · obtain rfl := eq_of_remove_eq_none hr
        exact .unchanged rfl rfl
      · exact .removed hr
  | setSize p size =>
      rw [perform]
      rcases g.answer_cases (fun _ => .done) (setSize p size) with ⟨u, g', h, hans⟩ | ⟨f, g', h, hans⟩
      · rw [hans]
        exact .sized h
      · obtain rfl := eq_of_fails_setSize h
        rw [hans]
        exact .unchanged rfl rfl
  | compute order =>
      rw [perform, snd_answer]
      refine .computed ?_
      rcases g.answer_cases (fun _ => .done) (Graph.compute order) with
        ⟨u, g', h, hans⟩ | ⟨f, g', h, hans⟩
      all_goals
        rw [hans]
        rfl

theorem effect_of_perform {a : Action} {r : Reply} {g' : Graph} (h : g.perform a = (r, g')) :
    Effect g a r g' := by
  have he := g.effect_perform a
  rwa [h] at he

/-- Whatever the request and its answer, the store stays sound. -/
theorem Sound.perform (h : Sound log g) (a : Action) :
    Sound (log ++ (g.perform a).1.keys) (g.perform a).2 := by
  rcases hr : g.perform a with ⟨r, g'⟩
  cases effect_of_perform hr with
  | added hid hplace => exact h.place hid hplace
  | removed hr => simpa only [Reply.keys, List.append_nil] using h.remove hr
  | sized hs => simpa only [Reply.keys, List.append_nil] using h.setSize hs
  | computed hk => simpa only [hk, List.append_nil] using h.compute _
  | unchanged _ hk => simpa only [hk, List.append_nil] using h

theorem History.sound (h : History log g) : Sound log g := by
  induction h with
  | empty => exact sound_empty
  | step a _ ih => exact ih.perform a

section Entries

variable {P : Entry → Prop}

theorem forall_entry_setOutlets (h : ∀ k e, g.entry? k = some e → P e) {k : Key}
    {outlets : List Outlet} (hk : ∀ e, g.entry? k = some e → P { e with outlets }) :
    ∀ k' e, entry? (g.setOutlets k outlets) k' = some e → P e := by
  intro k' e he
  rw [lookup_setOutlets] at he
  by_cases hkk : k' = k
  · rw [if_pos hkk, Option.map_eq_some_iff] at he
    obtain ⟨e', he', rfl⟩ := he
    exact hk e' he'
  · rw [if_neg hkk] at he
    exact h k' e he

/-- What holds of every new node, and goes on to hold when the node computes its outlets or an
outlet is given its size, holds of all nodes of a graph. -/
theorem History.entry_induction (h : History log g)
    (hnew : ∀ (g : Graph) id node inlets specs k, node.inlets.mapM g.resolveInlet = .ok inlets →
      node.outlets (inlets.map (·.selection)) = .ok specs → P (newEntry id node inlets specs k))
    (hcompute : ∀ e inputs, P e →
      P { e with outlets := ((e.node.compute inputs).apply e.outlets).2 })
    (hsize : ∀ e i o size, P e → e.outlets[i]? = some o → o.size = none →
      P { e with outlets := e.outlets.set i (o.setSize size) }) :
    ∀ k e, g.entry? k = some e → P e := by
  induction h with
  | empty =>
      intro k e he
      cases he
  | @step log g a hg ih =>
      rcases hr : g.perform a with ⟨r, g'⟩
      cases effect_of_perform hr with
      | @added _ id node k g' _ hplace =>
          obtain ⟨e', hgrown⟩ := grown_of_place hg.sound.arena hplace
          intro k' e he
          rw [hgrown.entry] at he
          by_cases hk : k' = k
          · rw [if_pos hk] at he
            obtain rfl := Option.some.inj he
            obtain ⟨inlets, specs, hinlets, hspecs, rfl⟩ := hgrown.made
            exact hnew g id node inlets specs k hinlets hspecs
          · rw [if_neg hk] at he
            exact ih k' e he
      | @removed k _ g' hr =>
          obtain ⟨arena, ha, hg'⟩ := remove_eq_some_iff.1 hr
          intro k' e he
          rw [hg'] at he
          change arena.get? k' = some e at he
          rw [Arena.get?_remove ha] at he
          by_cases hk : k' = k
          · rw [if_pos hk] at he
            cases he
          · rw [if_neg hk] at he
            exact ih k' e he
      | @sized p size g' hs =>
          obtain ⟨e, o, he, ho, hnone, hg'⟩ := succeeds_setSize.1 hs
          rw [hg']
          refine forall_entry_setOutlets ih fun e' he' => ?_
          obtain rfl : e = e' := Option.some.inj (he.symm.trans he')
          exact hsize e p.index o size (ih p.node e he) ho hnone
      | @computed order =>
          refine compute_induction (P := fun g => ∀ k e, g.entry? k = some e → P e) ?_ order ih
          intro g k e inputs hP he
          refine forall_entry_setOutlets hP fun e' he' => ?_
          obtain rfl : e = e' := Option.some.inj (he.symm.trans he')
          exact hcompute e inputs (hP k e he)
      | unchanged => exact ih

end Entries

theorem Sound.reads (h : Sound log g) {a b : Key} (hab : g.Reads a b) :
    a ∈ log ∧ b ∈ log ∧ log.idxOf b < log.idxOf a := by
  unfold Reads dependencies at hab
  cases he : g.entry? a with
  | none => simp [he] at hab
  | some e =>
      have hpl := h.placed a e he
      simp only [he, Option.map_some, Option.getD_some, Entry.dependencies, List.mem_eraseDups,
        List.mem_flatMap, List.mem_map] at hab
      obtain ⟨i, hi, s, hs, rfl⟩ := hab
      exact ⟨hpl.handed, hpl.earlier i hi s hs⟩

/-- Reading leads to ever older nodes. -/
theorem Sound.transGen_reads (h : Sound log g) {a b : Key} (hab : TransGen g.Reads a b) :
    log.idxOf b < log.idxOf a := by
  induction hab with
  | single hr => exact (h.reads hr).2.2
  | tail _ hr ih => exact (h.reads hr).2.2.trans ih

/-- What a graph keeps true of itself, seen from outside. The keys handed out so far, oldest
first, are `log`. -/
structure Consistent (log : List Key) (g : Graph) : Prop where
  fresh : log.Nodup
  order_nodup : g.order.Nodup
  mem_order : ∀ k, k ∈ g.order ↔ (g.entry? k).isSome
  order_sublist : g.order.Sublist log
  key?_iff : ∀ id k, g.key? id = some k ↔ ∃ e, g.entry? k = some e ∧ e.id = id
  id_unique : ∀ k k' e e', g.entry? k = some e → g.entry? k' = some e' → e.id = e'.id → k = k'
  key_eq : ∀ k e, g.entry? k = some e → e.key = k
  port_eq : ∀ k e, g.entry? k = some e →
    ∀ (i : Nat) (o : Outlet), e.outlets[i]? = some o → o.port = ⟨k, i⟩
  earlier : ∀ k e, g.entry? k = some e → ∀ i ∈ e.inlets, ∀ s ∈ i.selection.spans,
    s.port.node ∈ log ∧ log.idxOf s.port.node < log.idxOf k
  acyclic : ∀ k, ¬ TransGen g.Reads k k

theorem Sound.consistent (h : Sound log g) : Consistent log g where
  fresh := h.nodup
  order_nodup := h.order ▸ h.nodup.filter _
  mem_order := h.mem_order_iff
  order_sublist := h.order ▸ List.filter_sublist
  key?_iff := h.ids
  id_unique := by
    intro k k' e e' he he' hid
    have hk := (h.ids e.id k).2 ⟨e, he, rfl⟩
    have hk' := (h.ids e.id k').2 ⟨e', he', hid.symm⟩
    exact Option.some.inj (hk.symm.trans hk')
  key_eq k e he := (h.placed k e he).key
  port_eq k e he := (h.placed k e he).ports
  earlier k e he := (h.placed k e he).earlier
  acyclic k hk := Nat.lt_irrefl _ (h.transGen_reads hk)

/-- A graph is consistent after any history, and a request to add, to remove or to set a size
that is refused leaves it as it was. -/
theorem consistent_of_history (h : History log g) :
    Consistent log g ∧ ∀ a : Action, (∀ order, a ≠ .compute order) →
      (g.perform a).1.isGranted = false → (g.perform a).2 = g := by
  refine ⟨h.sound.consistent, fun a hcompute hrefused => ?_⟩
  rcases hr : g.perform a with ⟨r, g'⟩
  rw [hr] at hrefused
  cases effect_of_perform hr with
  | added | removed | sized => cases hrefused
  | computed => exact absurd rfl (hcompute _)
  | unchanged => rfl

/-- A source, a node that reads it and, when the source is gone, another one in its place. -/
def reuse : List Action :=
  let source := (Builtin.constant (.booleans [true, false])).toNode
  let reader := (Builtin.unary .boolean .not
    ⟨.ofSpan ⟨⟨⟨0, 1⟩, 0⟩, .boolean, 0, 2, 2, false⟩⟩ rfl).toNode
  [.add (.ofNat 0) source, .addNumbered 0 reader, .remove ⟨0, 1⟩, .add (.ofNat 0) source]

theorem consistent_after_reuse :
    (replay reuse).1 = [⟨0, 1⟩, ⟨1, 1⟩, ⟨0, 2⟩] ∧ (replay reuse).2.order = [⟨1, 1⟩, ⟨0, 2⟩] ∧
      (replay reuse).2.Reads ⟨1, 1⟩ ⟨0, 1⟩ ∧ Consistent (replay reuse).1 (replay reuse).2 ∧
      ((replay reuse).2.perform (.remove ⟨0, 1⟩)).2 = (replay reuse).2 := by
  have h := consistent_of_history (history_replay reuse)
  refine ⟨by decide +kernel, by decide +kernel, ?_, h.1, ?_⟩
  · unfold Reads
    decide +kernel
  · exact h.2 _ (fun order => by simp) (by decide +kernel)

end Histories

end Graph

end Dataflow
