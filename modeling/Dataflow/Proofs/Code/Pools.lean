import Dataflow.Proofs.Code.Slot

/-!
# What the pools hand out

The pools of the six scopes serve requests in any order, and some they refuse. What has been handed
out and not come back is written into a ledger from the answers alone, without a look at the pools.
After any requests the two are in accord: the next slot of a scope is the least one that the ledger
does not have, a slot is in use if the ledger has it, and only such a slot can be given back.
-/

namespace Dataflow.Code

namespace Pool

variable {p p' : Pool} {s : Slot} {held : List Nat} {n : Nat} {l : List Nat}

theorem length_insertSorted (n : Nat) (l : List Nat) : (insertSorted n l).length = l.length + 1 := by
  induction l with
  | nil => rfl
  | cons m l ih =>
      unfold insertSorted
      split
      · rfl
      · rw [List.length_cons, ih, List.length_cons]

theorem sorted_insertSorted (hl : l.Pairwise (· < ·)) (hn : n ∉ l) :
    (insertSorted n l).Pairwise (· < ·) := by
  induction l with
  | nil => exact List.pairwise_singleton _ _
  | cons m l ih =>
      obtain ⟨hm, hl⟩ := List.pairwise_cons.1 hl
      rw [List.mem_cons, not_or] at hn
      unfold insertSorted
      split
      case isTrue hlt =>
        refine List.pairwise_cons.2 ⟨?_, List.pairwise_cons.2 ⟨hm, hl⟩⟩
        exact List.forall_mem_cons.2 ⟨hlt, fun k hk => hlt.trans (hm k hk)⟩
      case isFalse hge =>
        refine List.pairwise_cons.2 ⟨fun k hk => ?_, ih hl hn.2⟩
        rcases mem_insertSorted.1 hk with rfl | hk
        · omega
        · exact hm k hk

/-- The pool has the given indices in use: all below `next` but the free ones, which are listed in
increasing order. -/
structure Accounts (p : Pool) (held : List Nat) : Prop where
  sorted : p.free.Pairwise (· < ·)
  below : ∀ i ∈ p.free, i < p.next
  nodup : held.Nodup
  mem_iff : ∀ i, i ∈ held ↔ i < p.next ∧ i ∉ p.free
  total : held.length + p.free.length = p.next

theorem accounts_new (scope : Scope) : ({ scope } : Pool).Accounts [] where
  sorted := .nil
  below := by simp
  nodup := .nil
  mem_iff := by simp
  total := rfl

theorem Accounts.isAllocated_iff (h : p.Accounts held) :
    p.isAllocated s = true ↔ s.scope = p.scope ∧ s.index ∈ held := by
  rw [Pool.isAllocated_iff, h.mem_iff]

/-- What is left when the free slots are taken off is what is in use. -/
theorem Accounts.live_eq (h : p.Accounts held) : p.live = held.length ∧ p.free.length ≤ p.next := by
  have htotal := h.total
  unfold live
  omega

theorem Accounts.allocate (h : p.Accounts held) :
    p.allocate.2.Accounts (p.allocate.1.index :: held) ∧ p.allocate.1.index ∉ held ∧
      ∀ j < p.allocate.1.index, j ∈ held := by
  have htotal := h.total
  rcases allocate_cases p with ⟨i, rest, hfree, hp⟩ | ⟨hfree, hp⟩ <;> rw [hp]
  · have hi : i ∈ p.free := by simp [hfree]
    have hsorted := h.sorted
    rw [hfree] at hsorted htotal
    obtain ⟨hleast, hsorted⟩ := List.pairwise_cons.1 hsorted
    have hnew : i ∉ held := fun hm => ((h.mem_iff i).1 hm).2 hi
    refine ⟨⟨hsorted, fun j hj => h.below j (by simp [hfree, hj]), List.nodup_cons.2 ⟨hnew, h.nodup⟩,
      fun j => ?_, by simp only [List.length_cons] at htotal ⊢; omega⟩, hnew, fun j hj => ?_⟩
    · rw [List.mem_cons, h.mem_iff, hfree, List.mem_cons, not_or]
      constructor
      · rintro (rfl | ⟨hlt, -, hrest⟩)
        · exact ⟨h.below j hi, fun hj => lt_irrefl _ (hleast j hj)⟩
        · exact ⟨hlt, hrest⟩
      · rintro ⟨hlt, hrest⟩
        by_cases hj : j = i
        · exact Or.inl hj
        · exact Or.inr ⟨hlt, hj, hrest⟩
    · have hlt : j < i := hj
      refine (h.mem_iff j).2 ⟨hlt.trans (h.below i hi), ?_⟩
      rw [hfree, List.mem_cons, not_or]
      exact ⟨hlt.ne, fun hm => lt_asymm hlt (hleast j hm)⟩
  · have hall : ∀ j, j ∈ held ↔ j < p.next := by simp [h.mem_iff, hfree]
    have hnew : p.next ∉ held := fun hm => lt_irrefl _ ((hall _).1 hm)
    refine ⟨⟨h.sorted, by simp [hfree], List.nodup_cons.2 ⟨hnew, h.nodup⟩, fun j => ?_, ?_⟩, hnew,
      fun j hj => (hall j).2 hj⟩
    · rw [List.mem_cons, hall, hfree]
      simp only [List.not_mem_nil, not_false_eq_true, and_true]
      omega
    · simp only [List.length_cons]
      omega

theorem Accounts.release (h : p.Accounts held) (hrel : Succeeds (Pool.release s) p () p') :
    p'.Accounts (held.erase s.index) := by
  obtain ⟨hs, rfl⟩ := succeeds_release.1 hrel
  have hheld := (h.isAllocated_iff.1 hs).2
  obtain ⟨hlt, hfree⟩ := (h.mem_iff _).1 hheld
  have htotal := h.total
  have hlen := List.length_erase_add_one hheld
  refine ⟨sorted_insertSorted h.sorted hfree, fun i hi => ?_, h.nodup.erase _, fun i => ?_, ?_⟩
  · rcases mem_insertSorted.1 hi with rfl | hi
    · exact hlt
    · exact h.below i hi
  · rw [h.nodup.mem_erase_iff, h.mem_iff, mem_insertSorted, not_or]
    tauto
  · change _ + (insertSorted s.index p.free).length = p.next
    rw [length_insertSorted]
    omega

end Pool

namespace Pools

variable {ps ps' : Pools}

inductive Request
  | allocate (scope : Scope)
  | release (scope : Scope) (s : Slot)
  | reset (scope : Scope)
  | resetFunction

inductive Answer
  | handed (s : Slot)
  | done
  | refused (f : Fault)

/-- A slot is given back to the pool of any scope, its own or another one. -/
def serve (ps : Pools) : Request → Answer × Pools
  | .allocate scope => (.handed (ps.allocate scope).1, (ps.allocate scope).2)
  | .release scope s =>
    match (releaseIn scope s).run.run ps with
    | (.ok _, ps') => (.done, ps')
    | (.error f, ps') => (.refused f, ps')
  | .reset scope => (.done, ps.set scope (ps.get scope).reset)
  | .resetFunction => (.done, ps.resetFunction)

def Request.Concerns : Request → Scope → Prop
  | .allocate scope, a | .release scope _, a | .reset scope, a => a = scope
  | .resetFunction, a => a.isFunctionScoped = true

/-- The indices of each scope that have been handed out and not been given back since. -/
abbrev Ledger := Scope → List Nat

/-- Only the request and its answer are written down. -/
def Ledger.note (l : Ledger) : Request → Answer → Ledger
  | _, .handed s => Function.update l s.scope (s.index :: l s.scope)
  | .release _ s, .done => Function.update l s.scope ((l s.scope).erase s.index)
  | .reset scope, .done => Function.update l scope []
  | .resetFunction, .done => fun scope => if scope.isFunctionScoped then [] else l scope
  | _, _ => l

def serveAll (rs : List Request) : Ledger × Pools :=
  rs.foldl (fun u r => (u.1.note r (u.2.serve r).1, (u.2.serve r).2)) (fun _ => [], {})

def Accounts (ps : Pools) (l : Ledger) : Prop :=
  ∀ scope, (ps.get scope).scope = scope ∧ (ps.get scope).Accounts (l scope)

variable {l : Ledger} {scope : Scope} {s : Slot}

theorem accounts_empty : ({} : Pools).Accounts fun _ => [] := by
  intro scope
  cases scope <;> exact ⟨rfl, Pool.accounts_new _⟩

theorem Accounts.set (h : ps.Accounts l) {p : Pool} {held : List Nat} (hscope : p.scope = scope)
    (hp : p.Accounts held) : (ps.set scope p).Accounts (Function.update l scope held) := by
  intro a
  by_cases ha : a = scope
  · subst ha
    rw [get_set_same, Function.update_self]
    exact ⟨hscope, hp⟩
  · rw [get_set_of_ne ps p ha, Function.update_of_ne ha]
    exact h a

theorem get_resetFunction (ps : Pools) (scope : Scope) : ps.resetFunction.get scope =
    if scope.isFunctionScoped then (ps.get scope).reset else ps.get scope := by
  cases scope <;> rfl

/-- What is given back is either granted, or it is not in use in the pool and nothing changes. -/
theorem release_cases (ps : Pools) (scope : Scope) (s : Slot) :
    ((ps.get scope).isAllocated s = true ∧ ∃ p, Succeeds (Pool.release s) (ps.get scope) () p ∧
      ps.serve (.release scope s) = (.done, ps.set scope p)) ∨
    ((ps.get scope).isAllocated s = false ∧ ∃ f, ps.serve (.release scope s) = (.refused f, ps)) := by
  simp only [serve]
  rcases h : (releaseIn scope s).run.run ps with ⟨r, ps'⟩
  cases r with
  | ok u =>
      obtain ⟨p, hp, rfl⟩ := succeeds_releaseIn.1 (show Succeeds (releaseIn scope s) ps u ps' from h)
      exact .inl ⟨(Pool.succeeds_release.1 hp).1, p, hp, rfl⟩
  | error f =>
      obtain ⟨hs, rfl⟩ := of_fails_releaseIn (show Fails (releaseIn scope s) ps f ps' from h)
      exact .inr ⟨hs, f, rfl⟩

/-- What one request does to the ledger it does to the pools. -/
theorem Accounts.serve (h : ps.Accounts l) (r : Request) :
    (ps.serve r).2.Accounts (l.note r (ps.serve r).1) := by
  cases r with
  | allocate scope =>
      obtain ⟨hscope, hp⟩ := h scope
      have hslot : (ps.get scope).allocate.1.scope = scope :=
        (Pool.scope_slot_allocate _).trans hscope
      have hset := h.set ((Pool.scope_allocate _).trans hscope) hp.allocate.1
      change (ps.set scope (ps.get scope).allocate.2).Accounts (Function.update l
        (ps.get scope).allocate.1.scope
        ((ps.get scope).allocate.1.index :: l (ps.get scope).allocate.1.scope))
      rwa [hslot]
  | release scope s =>
      rcases ps.release_cases scope s with ⟨hs, p, hp, hserve⟩ | ⟨-, f, hserve⟩
      · obtain ⟨hscope, haccounts⟩ := h scope
        obtain rfl : s.scope = scope := (haccounts.isAllocated_iff.1 hs).1.trans hscope
        rw [hserve]
        refine h.set ?_ (haccounts.release hp)
        rw [(Pool.succeeds_release.1 hp).2]
        exact hscope
      · rw [hserve]
        exact h
  | reset scope => exact h.set (h scope).1 (Pool.accounts_new _)
  | resetFunction =>
      intro scope
      change (ps.resetFunction.get scope).scope = _ ∧ Pool.Accounts (ps.resetFunction.get scope)
        (if scope.isFunctionScoped then [] else l scope)
      rw [get_resetFunction]
      split
      · exact ⟨(h scope).1, Pool.accounts_new _⟩
      · exact h scope

theorem accounts_serveAll (rs : List Request) : (serveAll rs).2.Accounts (serveAll rs).1 := by
  induction rs using List.reverseRecOn with
  | nil => exact accounts_empty
  | append_singleton rs r ih =>
      rw [serveAll, List.foldl_concat]
      exact ih.serve r

theorem get_serve_of_not_concerns {r : Request} (h : ¬ r.Concerns scope) :
    (ps.serve r).2.get scope = ps.get scope := by
  cases r with
  | allocate a => exact get_allocate_of_ne h
  | release a s =>
      rcases ps.release_cases a s with ⟨-, p, -, hserve⟩ | ⟨-, f, hserve⟩
      · rw [hserve]
        exact get_set_of_ne ps p h
      · rw [hserve]
  | reset a => exact get_set_of_ne ps _ h
  | resetFunction => exact (get_resetFunction ps scope).trans (if_neg h)

/-- How pools serve the next request when the ledger has what is outstanding. -/
structure InAccord (ps : Pools) (l : Ledger) : Prop where
  allocate : ∀ scope, (ps.allocate scope).1.scope = scope ∧
    (ps.allocate scope).1.index ∉ l scope ∧ ∀ j < (ps.allocate scope).1.index, j ∈ l scope
  isAllocated : ∀ scope s, (ps.get scope).isAllocated s = true ↔ s.scope = scope ∧ s.index ∈ l scope
  live : ∀ scope, (l scope).Nodup ∧ (ps.get scope).live = (l scope).length ∧
    (ps.get scope).free.length ≤ (ps.get scope).next
  release : ∀ scope s, (∃ f, (ps.serve (.release scope s)).1 = .refused f ∧
    (ps.serve (.release scope s)).2 = ps) ↔ (ps.get scope).isAllocated s = false
  others : ∀ r scope, ¬ r.Concerns scope → (ps.serve r).2.get scope = ps.get scope

theorem Accounts.inAccord (h : ps.Accounts l) : ps.InAccord l where
  allocate scope := by
    obtain ⟨hscope, hp⟩ := h scope
    exact ⟨(Pool.scope_slot_allocate _).trans hscope, hp.allocate.2⟩
  isAllocated scope s := by
    obtain ⟨hscope, hp⟩ := h scope
    rw [hp.isAllocated_iff, hscope]
  live scope := ⟨(h scope).2.nodup, (h scope).2.live_eq⟩
  release scope s := by
    rcases ps.release_cases scope s with ⟨hs, p, -, hserve⟩ | ⟨hs, f, hserve⟩
    · simp [hserve, hs]
    · simp [hserve, hs]
  others _ _ := get_serve_of_not_concerns

/-- **The pools hand out the least slot that is not outstanding.** After any requests, granted or
refused, the pools are in accord with the ledger of the answers, and no two slots have one name. -/
theorem inAccord_serveAll (rs : List Request) :
    (serveAll rs).2.InAccord (serveAll rs).1 ∧ Function.Injective Slot.name :=
  ⟨(accounts_serveAll rs).inAccord, Slot.name_injective⟩

/-- A slot that came back is handed out again before a new one, and not twice. -/
example : ((serveAll [.allocate .buffer, .allocate .buffer, .release .buffer ⟨.buffer, 0⟩,
    .release .scratch ⟨.buffer, 1⟩, .allocate .buffer, .allocate .buffer]).1 .buffer) = [2, 0, 1] := by
  decide

end Pools

end Dataflow.Code
