import Dataflow.Lower.Transform
import Dataflow.Proofs.Code.Assembly
import Dataflow.Proofs.Lower.Builtin

/-!
# From node to node

Between two nodes the storage of a port bears what the port holds in the end. The code for a node
keeps it so: it puts the result of the node into the storage of its outlet and leaves the storage
of every other port as it is. Buffers that are given back make room for later ones.
-/

namespace Dataflow

open Code (Context Store Emit Emitter Slot StackBuffer ValueId)

namespace Code

structure Emitter.Frees (slots : List Slot) (e e' : Emitter) : Prop where
  pools : e' = { e with pools := e'.pools }
  tidy : e.Tidy → e'.Tidy
  held : ∀ b, e.Held b → b.slot ∉ slots → e'.Held b

structure Emitter.Passes (e e' : Emitter) : Prop where
  body : e.body.Within e'.body
  declarations : e.declarations.Extends e'.declarations
  settings : e'.settings = e.settings

variable {e e' e'' : Emitter} {slots : List Slot} {b : StackBuffer} {u : Unit} {C : Context}
  {σ : Store}

theorem Emitter.Frees.refl (e : Emitter) : e.Frees slots e := ⟨rfl, fun h => h, fun _ h _ => h⟩

theorem Emitter.Frees.trans (h : e.Frees slots e') (h' : e'.Frees slots e'') :
    e.Frees slots e'' where
  pools := by rw [h'.pools, h.pools]
  tidy he := h'.tidy (h.tidy he)
  held b hb hslot := h'.held b (h.held b hb hslot) hslot

theorem Emitter.Frees.mono {slots' : List Slot} (h : e.Frees slots e') (hsub : slots ⊆ slots') :
    e.Frees slots' e' :=
  ⟨h.pools, h.tidy, fun b hb hslot => h.held b hb fun hmem => hslot (hsub hmem)⟩

theorem Emitter.Passes.refl (e : Emitter) : e.Passes e := ⟨.refl _, .refl _, rfl⟩

theorem Emitter.Passes.trans (h : e.Passes e') (h' : e'.Passes e'') : e.Passes e'' :=
  ⟨h.body.trans h'.body, h.declarations.trans h'.declarations, h'.settings.trans h.settings⟩

theorem Emitter.Grows.passes (h : e.Grows e') : e.Passes e' := ⟨h.body, h.declarations, h.settings⟩

theorem Emitter.Frees.passes (h : e.Frees slots e') : e.Passes e' := by
  rw [h.pools]
  exact ⟨.refl _, .refl _, rfl⟩

theorem Context.Covers.of_passes (h : C.Covers e') (hp : e.Passes e') : C.Covers e where
  body := hp.body.trans h.body
  helpers k id hk := h.helpers k id (hp.declarations.helpers k id hk)
  data := hp.declarations.data.trans h.data

theorem Emitter.Frees.body (h : e.Frees slots e') : e'.body = e.body := by rw [h.pools]

theorem Emit.succeeds_releaseBuffer (h : Succeeds (Emit.releaseBuffer b) e u e')
    (hb : b.slot ∈ slots) : e.Frees slots e' := by
  obtain ⟨ps, hps, rfl⟩ := Emit.succeeds_release.1 h
  by_cases hscope : b.slot.scope = .buffer
  · have hrelease := Pools.get_release hps hscope
    refine ⟨rfl, fun he => ?_, fun k hk hslot => ?_⟩
    · have hpool := (Pool.succeeds_release.1 hrelease).2
      exact ⟨he.pool.release hrelease, (congrArg Pool.scope hpool).trans he.scope, he.place,
        he.injective, he.scratch, he.current⟩
    · refine ⟨Pool.isAllocated_of_release hrelease hk.allocated ?_, hk.place, hk.room⟩
      rintro heq
      exact hslot (heq ▸ hb)
  · have hsame := Pools.get_release_of_ne hps (Ne.symm hscope)
    exact ⟨rfl, (Emitter.Grows.of_pools hsame).tidy, fun k hk _ =>
      (Emitter.Grows.of_pools hsame).held k hk⟩

end Code

namespace LowerState

variable {s s' s'' : LowerState} {slots : List Slot} {ports : List Port}

/-- Buffers that are still in use have not been given back. -/
theorem Orderly.of_frees (h : s.Orderly) (hf : s.emitter.Frees slots s'.emitter)
    (hs : ∀ w b, s'.buffer? w = some b → s.buffer? w = some b ∧ b.slot ∉ slots) : s'.Orderly where
  tidy := hf.tidy h.tidy
  held w b hb := hf.held b (h.held w b (hs w b hb).1) (hs w b hb).2
  distinct w w' b b' hb hb' := h.distinct w w' b b' (hs w b hb).1 (hs w' b' hb').1

structure Sheds (ports : List Port) (s s' : LowerState) : Prop where
  frees : ∃ slots, s.emitter.Frees slots s'.emitter
  gathered : s'.gathered = s.gathered
  storage : ∀ p st, s'.storage.find? p = some st → s.storage.find? p = some st
  kept : ∀ p, p ∉ ports ∨ (∀ b, s.storage.find? p ≠ some (.stack b)) →
    s'.storage.find? p = s.storage.find? p
  orderly : s.Orderly → s'.Orderly

namespace Sheds

theorem refl (s : LowerState) : Sheds ports s s :=
  ⟨⟨[], .refl _⟩, rfl, fun _ _ h => h, fun _ _ => rfl, fun h => h⟩

theorem trans (h : Sheds ports s s') (h' : Sheds ports s' s'') : Sheds ports s s'' where
  frees := by
    obtain ⟨slots, hf⟩ := h.frees
    obtain ⟨slots', hf'⟩ := h'.frees
    exact ⟨slots ++ slots', (hf.mono (List.subset_append_left _ _)).trans
      (hf'.mono (List.subset_append_right _ _))⟩
  gathered := h'.gathered.trans h.gathered
  storage p st hst := h.storage p st (h'.storage p st hst)
  kept p hp := by
    have hsame := h.kept p hp
    exact (h'.kept p (hp.imp_right fun hb b => hsame ▸ hb b)).trans hsame
  orderly hs := h'.orderly (h.orderly hs)

theorem passes (h : Sheds ports s s') : s.emitter.Passes s'.emitter := by
  obtain ⟨slots, hf⟩ := h.frees
  exact hf.passes

theorem body (h : Sheds ports s s') : s'.emitter.body = s.emitter.body := by
  obtain ⟨slots, hf⟩ := h.frees
  exact hf.body

/-- The buffer of a port is given back. -/
theorem of_release {p : Port} {b : StackBuffer} {e : Emitter} (hp : p ∈ ports)
    (hb : s.storage.find? p = some (.stack b)) (hf : s.emitter.Frees [b.slot] e) :
    Sheds ports s { s with emitter := e, storage := s.storage.erase p } := by
  have herase : ∀ q, (s.storage.erase p).find? q = if q = p then none else s.storage.find? q :=
    s.storage.find?_erase p
  have hkeep : ∀ q st, (s.storage.erase p).find? q = some st →
      q ≠ p ∧ s.storage.find? q = some st := by
    intro q st hst
    rw [herase] at hst
    split at hst
    · cases hst
    · next hq => exact ⟨hq, hst⟩
  have hbuffer := buffer_inl.2 hb
  refine ⟨⟨_, hf⟩, rfl, fun q st hst => (hkeep q st hst).2, fun q hq => ?_, fun hs =>
    hs.of_frees hf fun w b' hb' => ?_⟩
  · refine (herase q).trans (if_neg ?_)
    rintro rfl
    exact hq.elim (absurd hp) fun hnot => hnot b hb
  · have hold : s.buffer? w = some b' ∧ w ≠ .inl p := by
      cases w with
      | inr i => exact ⟨hb', fun h => by cases h⟩
      | inl q =>
          obtain ⟨hq, hst⟩ := hkeep q _ (buffer_inl.1 hb')
          exact ⟨buffer_inl.2 hst, fun h => hq (Sum.inl.inj h)⟩
    refine ⟨hold.1, fun hmem => hold.2 ?_⟩
    exact hs.distinct _ _ _ _ hold.1 hbuffer (List.mem_singleton.1 hmem)

end Sheds

end LowerState

namespace Lower

section Finish

variable {c : LowerContext} {s s' : LowerState} {u : Unit} {α : Type}

theorem lowers_forM {R : LowerState → LowerState → Prop} (hrefl : ∀ s, R s s)
    (htrans : ∀ s s' s'', R s s' → R s' s'' → R s s'') {xs : List α} {f : α → Lower Unit}
    (hf : ∀ x ∈ xs, ∀ s u s', Lowers c (f x) s u s' → R s s')
    (h : Lowers c (xs.forM f) s u s') : R s s' := by
  induction xs generalizing s with
  | nil =>
      obtain ⟨-, rfl⟩ := lowers_pure.1 h
      exact hrefl s
  | cons x xs ih =>
      obtain ⟨_, t, hx, h⟩ := lowers_bind.1 h
      exact htrans _ _ _ (hf x (by simp) s _ t hx)
        (ih (fun y hy => hf y (List.mem_cons_of_mem x hy)) h)

/-- A look at each outlet, whether it has storage, changes nothing. -/
theorem succeeds_checks {outlets : List Outlet} {f : Outlet → Fault}
    (h : Lowers c (outlets.forM fun o => do
      if !(← get).storage.contains o.port then throw (f o)) s u s') :
    s' = s ∧ ∀ o ∈ outlets, ∃ st, s.storage.find? o.port = some st := by
  induction outlets generalizing s with
  | nil => exact ⟨(lowers_pure.1 h).2.symm, nofun⟩
  | cons o outlets ih =>
      obtain ⟨_, s₁, ho, h⟩ := lowers_bind.1 h
      obtain ⟨_, _, hget, ho⟩ := lowers_bind.1 ho
      obtain ⟨rfl, rfl⟩ := lowers_get.1 hget
      split at ho
      · exact absurd ho lowers_throw
      · next hcontains =>
          obtain ⟨-, rfl⟩ := lowers_pure.1 ho
          obtain ⟨rfl, hall⟩ := ih h
          refine ⟨rfl, List.forall_mem_cons.2 ⟨Option.ne_none_iff_exists'.1 ?_, hall⟩⟩
          simpa [Table.contains] using hcontains

/-- At the end of a node the buffers of gathered inputs are given back. -/
theorem succeeds_finish (h : Lowers c finish s u s') :
    s.emitter.Frees (s.gathered.reduceOption.map (·.slot)) s'.emitter ∧
      s'.storage = s.storage := by
  obtain ⟨_, _, hget, h⟩ := lowers_bind.1 h
  obtain ⟨rfl, rfl⟩ := lowers_get.1 hget
  obtain ⟨_, s₁, hrelease, h⟩ := lowers_bind.1 h
  obtain ⟨_, _, hsite, h⟩ := lowers_bind.1 h
  obtain ⟨-, rfl⟩ := lowers_site.1 hsite
  obtain ⟨rfl, -⟩ := succeeds_checks h
  refine lowers_forM (R := fun t t' => t.emitter.Frees _ t'.emitter ∧ t'.storage = t.storage)
    (fun t => ⟨.refl _, rfl⟩) (fun _ _ _ h h' => ⟨h.1.trans h'.1, h'.2.trans h.2⟩)
    (fun b hb t _ t' hfree => ?_) hrelease
  obtain ⟨e, he, rfl⟩ := lowers_emit.1 hfree
  exact ⟨Emit.succeeds_releaseBuffer he (List.mem_map_of_mem hb), rfl⟩

/-- A node can only be finished when all its outlets have storage. -/
theorem stored_of_finish (h : Lowers c finish s u s') {o : Outlet} (ho : o ∈ c.site.outlets) :
    ∃ st, s.storage.find? o.port = some st := by
  rw [← (succeeds_finish h).2]
  obtain ⟨_, _, -, h⟩ := lowers_bind.1 h
  obtain ⟨_, s₁, -, h⟩ := lowers_bind.1 h
  obtain ⟨_, _, hsite, h⟩ := lowers_bind.1 h
  obtain ⟨rfl, rfl⟩ := lowers_site.1 hsite
  obtain ⟨rfl, hst⟩ := succeeds_checks h
  exact hst o ho

end Finish

end Lower

structure Stands (C : Context) (g : Graph) (out : ValueId) (s : LowerState) (σ : Store) : Prop where
  fits : C.Fits σ
  backed : ∀ p, Backed C g s σ p
  output : σ.Carries s.emitter.body out (.ptr ⟨C.data.size + 2, 0⟩)

structure Brings (g : Graph) (out : ValueId) (s s' : LowerState) : Prop where
  passes : s.emitter.Passes s'.emitter
  run : ∀ (C : Context) (σ : Store), C.Covers s'.emitter → C.base = C.data.size + 2 →
    Stands C g out s σ →
      ∃ σ', C.Advances s.emitter.body s'.emitter.body σ σ' ∧ Stands C g out s' σ'

/-- The inlets of a node gather values for which the node has a result, and the graph holds the
result at the outlet. -/
def Evaluates (g : Graph) (b : Builtin) (c : LowerContext) (o : Outlet) : Prop :=
  ∃ inputs v, Reads g c [o] inputs ∧ b.eval inputs = .ok (some v) ∧ v.elemType = b.elemType ∧
    v.elemType = o.elemType ∧ some v.length = o.size ∧ ∀ o', g.outlet o.port = .ok o' → o'.values = v

section Brings

variable {C : Context} {g : Graph} {out : ValueId} {s s' s'' : LowerState} {σ σ' : Store}
  {slots : List Slot} {u : Unit}

theorem Brings.refl (s : LowerState) : Brings g out s s :=
  ⟨.refl _, fun _ σ _ _ h => ⟨σ, .refl h.fits, h⟩⟩

theorem Brings.trans (h : Brings g out s s') (h' : Brings g out s' s'') : Brings g out s s'' where
  passes := h.passes.trans h'.passes
  run C σ hC hbase hσ := by
    obtain ⟨σ₁, hadv, hσ₁⟩ := h.run C σ (hC.of_passes h'.passes) hbase hσ
    obtain ⟨σ₂, hadv', hσ₂⟩ := h'.run C σ₁ hC hbase hσ₁
    exact ⟨σ₂, hadv.trans hadv', hσ₂⟩

theorem Stands.mono (h : Stands C g out s σ) (hb : s.emitter.body.Within s'.emitter.body)
    (hstorage : ∀ p st, s'.storage.find? p = some st → s.storage.find? p = some st)
    (hσ : C.Fits σ') (hvalues : ∀ i < s.emitter.body.valueTypes.size, σ'.values[i]? = σ.values[i]?)
    (hmemory : σ'.memory = σ.memory) : Stands C g out s' σ' where
  fits := hσ
  backed p := (h.backed p).mono hb (hstorage p) hvalues fun _ _ _ => by rw [hmemory]
  output := h.output.mono hb hvalues

/-- Where buffers are given back, nothing happens. -/
theorem Brings.of_frees (h : s.emitter.Frees slots s'.emitter)
    (hstorage : ∀ p st, s'.storage.find? p = some st → s.storage.find? p = some st) :
    Brings g out s s' where
  passes := h.passes
  run C σ _ _ hσ := by
    rw [h.body]
    exact ⟨σ, .refl hσ.fits, hσ.mono (h.body ▸ .refl _) hstorage hσ.fits (fun _ _ => rfl) rfl⟩

theorem brings_location {text : String} {e : Emitter}
    (h : Succeeds (Emit.location text) s.emitter u e) :
    Brings g out s { s with emitter := e } := by
  have hstraight := Emit.Linear.straight (Emit.leaves_location _) h
  refine ⟨hstraight.toGrows.passes, fun C σ hC _ hσ => ?_⟩
  have hq := Context.quiet_location h hC hσ.fits
  exact ⟨σ, hq.toAdvances, hσ.mono hstraight.body (fun _ _ h => h) hσ.fits (fun _ _ => rfl) rfl⟩

variable {c : LowerContext} {o : Outlet} {b : Builtin}

/-- The code for a node that has a result puts it where it belongs. -/
theorem brings_lower (h : Lower.Lowers c b.lower s u s') (ho : c.site.outlets[0]? = some o)
    (hs : s.Orderly) (hgathered : ∀ i : Nat, s.gathered[i]?.join = none)
    (hvacant : s.storage.find? o.port = none) (heval : Evaluates g b c o) :
    Brings g out s s' := by
  obtain ⟨inputs, v, hreads, heval, hvb, hvo, hlen, hheld⟩ := heval
  have hgrows := (Builtin.orderly_lower h ho hs).1
  refine ⟨hgrows.passes, fun C σ hC hbase hσ => ?_⟩
  have hsuited : s.Suited [o] := by
    intro o' ho' st hst
    obtain rfl := List.mem_singleton.1 ho'
    rw [hvacant] at hst
    cases hst
  have hready : Ready C g [o] inputs s σ := by
    refine ⟨hσ.fits, fun p _ => hσ.backed p, fun i b v hb _ => ?_⟩
    rw [hgathered] at hb
    cases hb
  obtain ⟨σ', hadv, hready', hstored⟩ := Builtin.stored_lower h ho hC (by omega) hs hsuited hreads
    hready heval hvb hvo hlen
  refine ⟨σ', hadv, hready'.fits, fun p => ?_, hσ.output.mono hgrows.body hadv.values⟩
  by_cases hp : p = o.port
  · subst hp
    intro st hst
    obtain ⟨hreached, hbears⟩ := hstored st hst
    refine ⟨hreached, fun o' ho' => ?_⟩
    rw [hheld o' ho']
    exact hbears
  · exact hready'.stored p (Outlet.notMem_single.2 hp)

end Brings

/-- Between two nodes buffers are in order, the input is an argument, and no node that is still to
come has storage, unless its values are supplied from outside. -/
structure Arranged (kind : Key → Builtin) (input : Key) (later : List Key) (s : LowerState) :
    Prop where
  isInput : (kind input).isInput = true
  orderly : s.Orderly
  argument : ∃ x, s.storage.find? ⟨input, 0⟩ = some (.argument x)
  vacant : ∀ k ∈ later, (kind k).isInput = false → s.storage.find? ⟨k, 0⟩ = none

namespace Lower

open Code (Assembler)

section Entry

variable {C : Context} {g : Graph} {out : ValueId} {s s' : LowerState} {σ σ' : Store} {u : Unit}
  {c : LowerContext} {o : Outlet} {b : Builtin}

/-- When a node has been finished, the buffers that are left in use are in order. -/
theorem orderly_of_finish (h : Lowers c finish s u s') (hs : s.Orderly) :
    LowerState.Orderly { s' with gathered := [] } := by
  obtain ⟨hfrees, hstorage⟩ := succeeds_finish h
  refine hs.of_frees hfrees fun w k hk => ?_
  cases w with
  | inr i => cases hk
  | inl p =>
      have hk' : s.buffer? (.inl p) = some k := by
        rw [LowerState.buffer_inl] at hk ⊢
        rw [← hstorage]
        exact hk
      refine ⟨hk', fun hmem => ?_⟩
      obtain ⟨k', hgathered, hslot⟩ := List.mem_map.1 hmem
      rw [List.reduceOption_mem_iff] at hgathered
      obtain ⟨i, hi⟩ := List.mem_iff_getElem?.1 hgathered
      cases hs.distinct (.inl p) (.inr i) k k' hk' (by rw [LowerState.buffer?, hi]; rfl) hslot.symm

/-- When a node has been lowered, buffers are in order and only its outlet has got storage. -/
theorem orderly_node (h : Lowers c (do b.lower; finish) s u s') (ho : c.site.outlets[0]? = some o)
    (hs : s.Orderly) : LowerState.Orderly { s' with gathered := [] } ∧
      ∀ p, (b.isInput = false → p ≠ o.port) → s'.storage.find? p = s.storage.find? p := by
  obtain ⟨_, s₁, hlower, h⟩ := lowers_bind.1 h
  obtain ⟨-, hother, hs₁⟩ := Builtin.orderly_lower hlower ho hs
  refine ⟨orderly_of_finish h hs₁, fun p hp => ?_⟩
  rw [(succeeds_finish h).2]
  cases hb : b.isInput with
  | true => rw [Builtin.eq_of_lower hlower hb]
  | false => exact hother p (hp hb)

theorem brings_node (h : Lowers c (do b.lower; finish) s u s') (ho : c.site.outlets[0]? = some o)
    (hs : s.Orderly) (hgathered : ∀ i : Nat, s.gathered[i]?.join = none)
    (hvacant : b.isInput = false → s.storage.find? o.port = none ∧ Evaluates g b c o) :
    Brings g out s s' := by
  obtain ⟨_, s₁, hlower, h⟩ := lowers_bind.1 h
  obtain ⟨hfrees, hstorage⟩ := succeeds_finish h
  have hlast : Brings g out s₁ s' := .of_frees hfrees fun p st hst => hstorage ▸ hst
  cases hb : b.isInput with
  | true =>
      obtain rfl := Builtin.eq_of_lower hlower hb
      exact hlast
  | false =>
      obtain ⟨hnone, heval⟩ := hvacant hb
      exact (brings_lower hlower ho hs hgathered hnone heval).trans hlast

end Entry

structure Emits (a : Assembler) (e : Emitter) : Prop where
  opened : a.current? = some e.body
  declarations : a.declarations = e.declarations
  pools : a.pools = e.pools
  settings : a.settings = e.settings
  defined : a.defined = []

section Build

variable {α β : Type} {a a' : Assembler} {p p' : Progress} {t : Assembler × Progress} {x : α}

@[simp] theorem succeeds_liftExcept {r : Except Fault α} {t' : Assembler × Progress} :
    Succeeds (liftExcept r) t x t' ↔ r = .ok x ∧ t = t' := by
  cases r <;> simp [liftExcept]

theorem succeeds_assemble {m : Code.Assemble α} (h : Succeeds (assemble m) (a, p) x t) :
    ∃ a', Succeeds m a x a' ∧ t = (a', p) := by
  obtain ⟨_, _, hget, h⟩ := succeeds_bind.1 h
  obtain ⟨rfl, rfl⟩ := succeeds_get.1 hget
  rcases hm : m.run.run a with ⟨r, a'⟩
  simp only [hm] at h
  obtain ⟨_, _, hset, h⟩ := succeeds_bind.1 h
  obtain rfl := succeeds_set.1 hset
  obtain ⟨rfl, rfl⟩ := succeeds_liftExcept.1 h
  exact ⟨a', hm, rfl⟩

theorem succeeds_emitting {m : Emit α} {e : Emitter} (h : Succeeds (emitting m) (a, p) x t)
    (ha : Emits a e) : ∃ a' e', Succeeds m e x e' ∧ t = (a', p) ∧
      (e'.settings = e.settings → Emits a' e') := by
  obtain ⟨a', hm, rfl⟩ := succeeds_assemble h
  obtain ⟨body, e', hstage, hm, rfl⟩ := Assembler.succeeds_emit hm
  obtain rfl : body = e.body := Option.some.inj (hstage.symm.trans ha.opened)
  rw [ha.declarations, ha.pools, ha.settings] at hm
  exact ⟨_, e', hm, rfl, fun hs => ⟨Assembler.current?_of_body hstage rfl rfl, rfl, rfl, ha.settings.trans hs.symm, ha.defined⟩⟩

structure Holds (t : Assembler × Progress) (s : LowerState) : Prop where
  emits : Emits t.1 s.emitter
  storage : t.2.storage = s.storage

variable {g gf : Graph} {e : Entry} {s : LowerState} {u : Unit} {kind : Key → Builtin}
  {later : List Key} {out : ValueId} {input : Key} {t' : Assembler × Progress} {k : Key}

theorem succeeds_lowerEntry (h : Succeeds (lowerEntry g e) t u t') (ht : Holds t s) :
    ∃ s', Lowers ⟨e.toSite, g.size⟩ (do e.node.lower; finish)
      { s with gathered := List.replicate e.inlets.length none, remarks := t.2.remarks } u s' ∧
        (s'.emitter.settings = s.emitter.settings → Holds t' { s' with gathered := [] }) := by
  obtain ⟨a, p⟩ := t
  obtain ⟨_, _, hget, h⟩ := succeeds_bind.1 h
  obtain ⟨rfl, rfl⟩ := succeeds_get.1 hget
  obtain ⟨⟨r, p'⟩, t₁, hemit, h⟩ := succeeds_bind.1 h
  obtain ⟨a', e', hm, rfl, ha'⟩ := succeeds_emitting hemit ht.emits
  obtain ⟨_, _, hmodify, h⟩ := succeeds_bind.1 h
  obtain rfl := succeeds_modify.1 hmodify
  obtain ⟨rfl, rfl⟩ := succeeds_liftExcept.1 h
  have hstorage : p.storage = s.storage := ht.storage
  rw [hstorage] at hm
  rcases hrun : ((do e.node.lower; finish : Lower Unit).run ⟨e.toSite, g.size⟩).run.run
    { s with gathered := List.replicate e.inlets.length none, remarks := p.remarks } with ⟨r', s'⟩
  have hm' : (Except.ok (r', (⟨s'.storage, s'.remarks⟩ : Progress)), s'.emitter) =
      ((.ok (.ok u, p'), e') : Except Fault (Except Fault Unit × Progress) × Emitter) := by
    rw [← hm]
    exact (congrArg (fun o => (Except.ok (o.1, (⟨o.2.storage, o.2.remarks⟩ : Progress)),
      o.2.emitter)) hrun).symm
  obtain ⟨hr, rfl⟩ := Prod.mk.inj hm'
  obtain ⟨rfl, rfl⟩ := Prod.mk.inj (Except.ok.inj hr)
  exact ⟨s', hrun, fun hs => ⟨ha' hs, rfl⟩⟩

theorem succeeds_releasePort {q : Port} {ports : List Port} (h : Succeeds (releasePort q) t u t')
    (ht : Holds t s) (hq : q ∈ ports) : ∃ s', Holds t' s' ∧ LowerState.Sheds ports s s' := by
  obtain ⟨a, p⟩ := t
  obtain ⟨_, _, hget, h⟩ := succeeds_bind.1 h
  obtain ⟨rfl, rfl⟩ := succeeds_get.1 hget
  have hstorage : p.storage = s.storage := ht.storage
  dsimp only at h
  split at h
  case h_2 =>
    obtain ⟨-, rfl⟩ := succeeds_pure.1 h
    exact ⟨s, ht, .refl s⟩
  case h_1 buffer hbuffer =>
    obtain ⟨_, _, hset, h⟩ := succeeds_bind.1 h
    obtain rfl := succeeds_set.1 hset
    obtain ⟨a', e', hfree, rfl, ha'⟩ := succeeds_emitting h ht.emits
    have hfrees := Emit.succeeds_releaseBuffer hfree (List.mem_singleton_self buffer.slot)
    rw [hstorage] at hbuffer
    exact ⟨_, ⟨ha' hfrees.passes.settings, by rw [hstorage]⟩, .of_release hq hbuffer hfrees⟩

theorem succeeds_releasePorts {ports : List Port} (h : Succeeds (ports.forM releasePort) t u t')
    (ht : Holds t s) : ∃ s', Holds t' s' ∧ LowerState.Sheds ports s s' :=
  holds_of_forM (I := fun t' => ∃ s', Holds t' s' ∧ LowerState.Sheds ports s s') ⟨s, ht, .refl s⟩
    (fun p hp _ _ _ ⟨_, ht₁, hsheds⟩ hrelease => by
      obtain ⟨s₂, ht₂, hsheds'⟩ := succeeds_releasePort hrelease ht₁ hp
      exact ⟨s₂, ht₂, hsheds.trans hsheds'⟩) h

/-- Where buffers are given back, nothing happens at run time. -/
theorem brings_releasePorts {ports : List Port} (h : Succeeds (ports.forM releasePort) t u t')
    (ht : Holds t s) (hs : Arranged kind input later s) :
    ∃ s', Holds t' s' ∧ Brings gf out s s' ∧ Arranged kind input later s' := by
  obtain ⟨s', ht', hsheds⟩ := succeeds_releasePorts h ht
  obtain ⟨slots, hfrees⟩ := hsheds.frees
  refine ⟨s', ht', .of_frees hfrees hsheds.storage, hs.isInput, hsheds.orderly hs.orderly, ?_,
    fun k hk hin => ?_⟩
  · obtain ⟨x, hx⟩ := hs.argument
    exact ⟨x, (hsheds.kept _ (.inr fun b hb => by cases hb.symm.trans hx)).trans hx⟩
  · refine (hsheds.kept _ (.inr fun b hb => ?_)).trans (hs.vacant k hk hin)
    cases hb.symm.trans (hs.vacant k hk hin)

/-- A node that is lowered is a built-in one at its key, with one outlet. Unless its values are
supplied from outside, it has a result. -/
structure Sited (g gf : Graph) (kind : Key → Builtin) (k : Key) : Prop where
  entry : ∀ e, g.entry? k = some e → e.node = (kind k).toNode ∧ ∃ o, e.outlets = [o] ∧
    o.port = ⟨k, 0⟩ ∧ ((kind k).isInput = false → Evaluates gf (kind k) ⟨e.toSite, g.size⟩ o)

theorem brings_lowerEntry (h : Succeeds (lowerEntry g e) t u t') (ht : Holds t s)
    (he : g.entry? k = some e) (hk : Sited g gf kind k) (hlater : k ∉ later)
    (hs : Arranged kind input (k :: later) s) :
    ∃ s', Holds t' s' ∧ Brings gf out s s' ∧ Arranged kind input later s' := by
  obtain ⟨hnode, o, ho, hport, heval⟩ := hk.entry e he
  obtain ⟨s', hlower, ht'⟩ := succeeds_lowerEntry h ht
  rw [hnode] at hlower
  have hstart : LowerState.Orderly { s with
      gathered := List.replicate e.inlets.length none, remarks := t.2.remarks } :=
    hs.orderly.of_grows (.refl _) fun _ _ hb => (LowerState.buffer_ungathered hb).1
  have hgathered : ∀ i : Nat, ((List.replicate e.inlets.length (none : Option StackBuffer))[i]?).join =
      none := by
    intro i
    rw [List.getElem?_replicate]
    split <;> rfl
  have hoc : e.toSite.outlets[0]? = some o := by rw [ho]; rfl
  have hbrings : Brings gf out _ _ := brings_node hlower hoc hstart hgathered
    fun hin => ⟨hport ▸ hs.vacant k (by simp) hin, heval hin⟩
  obtain ⟨horderly, hother⟩ := orderly_node hlower hoc hstart
  refine ⟨{ s' with gathered := [] }, ht' hbrings.passes.settings,
    ⟨hbrings.passes, fun C σ hC hbase hσ => ?_⟩, hs.isInput, horderly, ?_, fun j hj hin => ?_⟩
  · obtain ⟨σ', hadv, hσ'⟩ := hbrings.run C σ hC hbase ⟨hσ.fits, hσ.backed, hσ.output⟩
    exact ⟨σ', hadv, hσ'.fits, hσ'.backed, hσ'.output⟩
  · obtain ⟨x, hx⟩ := hs.argument
    refine ⟨x, (hother _ fun hin heq => ?_).trans hx⟩
    obtain rfl : input = k := (Port.mk.inj (heq.trans hport)).1
    rw [hs.isInput] at hin
    cases hin
  · refine (hother _ fun _ heq => hlater ?_).trans (hs.vacant j (by simp [hj]) hin)
    obtain rfl : j = k := (Port.mk.inj (heq.trans hport)).1
    exact hj

/-- A node is announced, lowered, and what was used for the last time is given back. -/
theorem succeeds_lowerNode {uses : Table Port Nat} {kept : List Port} {position : Nat}
    (h : Succeeds (lowerNode g uses kept k position) t u t') (ht : Holds t s) :
    ∃ e e₁ t₁ t₂, g.entry? k = some e ∧
      Succeeds (Emit.location s!"{e.typeName} {e.id.text}") s.emitter () e₁ ∧
      Holds t₁ { s with emitter := e₁ } ∧ t₁.2 = t.2 ∧ Succeeds (lowerEntry g e) t₁ () t₂ ∧
      Succeeds ((releasedAt uses kept position).forM releasePort) t₂ u t' := by
  unfold lowerNode at h
  cases he : g.entry? k with
  | none =>
      rw [he] at h
      exact absurd h succeeds_throw
  | some e =>
      rw [he] at h
      obtain ⟨_, t₁, hemit, hrest⟩ := succeeds_bind.1 h
      obtain ⟨_, t₂, hentry, hports⟩ := succeeds_bind.1 hrest
      obtain ⟨a, p⟩ := t
      obtain ⟨a₁, e₁, hlocation, rfl, ha₁⟩ := succeeds_emitting hemit ht.emits
      have hstraight := Emit.Linear.straight (Emit.leaves_location _) hlocation
      exact ⟨e, e₁, (a₁, p), t₂, rfl, hlocation, ⟨ha₁ hstraight.settings, ht.storage⟩, rfl, hentry,
        hports⟩

theorem brings_lowerNode {uses : Table Port Nat} {kept : List Port} {position : Nat}
    (h : Succeeds (lowerNode g uses kept k position) t u t') (ht : Holds t s)
    (hk : Sited g gf kind k) (hlater : k ∉ later) (hs : Arranged kind input (k :: later) s) :
    ∃ s', Holds t' s' ∧ Brings gf out s s' ∧ Arranged kind input later s' := by
  obtain ⟨e, e₁, t₁, t₂, he, hlocation, ht₁, -, hentry, hports⟩ := succeeds_lowerNode h ht
  have hstraight := Emit.Linear.straight (Emit.leaves_location _) hlocation
  have hs₁ : Arranged kind input (k :: later) { s with emitter := e₁ } :=
    ⟨hs.isInput, hs.orderly.of_grows hstraight.toGrows fun w b hb => hb, hs.argument, hs.vacant⟩
  obtain ⟨s₂, ht₂, hnode, hs₂⟩ := brings_lowerEntry hentry ht₁ he hk hlater hs₁
  obtain ⟨s₃, ht₃, hrelease, hs₃⟩ := brings_releasePorts hports ht₂ hs₂
  exact ⟨s₃, ht₃, (brings_location hlocation).trans (hnode.trans hrelease), hs₃⟩

/-- The code for all the nodes brings the storage of every port to what the port holds. -/
theorem brings_lowerNodes {uses : Table Port Nat} {kept : List Port} {order : List (Key × Nat)}
    (h : Succeeds (order.forM fun (k, position) => lowerNode g uses kept k position) t u t')
    (ht : Holds t s) (hsites : ∀ k ∈ order.map (·.1), Sited g gf kind k)
    (hnodup : (order.map (·.1)).Nodup) (hs : Arranged kind input (order.map (·.1)) s) :
    ∃ s', Holds t' s' ∧ Brings gf out s s' ∧ Arranged kind input [] s' := by
  induction order generalizing t s with
  | nil =>
      obtain ⟨-, rfl⟩ := succeeds_pure.1 h
      exact ⟨s, ht, .refl s, hs⟩
  | cons x order ih =>
      obtain ⟨k, position⟩ := x
      obtain ⟨_, t₁, hnode, h⟩ := succeeds_bind.1 h
      obtain ⟨hlater, hnodup⟩ := List.nodup_cons.1 hnodup
      obtain ⟨s₁, ht₁, hbrings, hs₁⟩ :=
        brings_lowerNode hnode ht (hsites k (by simp)) hlater hs
      obtain ⟨s₂, ht₂, hbrings', hs₂⟩ :=
        ih h ht₁ (fun j hj => hsites j (List.mem_cons_of_mem k hj)) hnodup hs₁
      exact ⟨s₂, ht₂, hbrings.trans hbrings', hs₂⟩

end Build

end Lower

end Dataflow
