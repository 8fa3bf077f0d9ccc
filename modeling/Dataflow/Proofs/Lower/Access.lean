import Dataflow.Proofs.Graph.Held
import Dataflow.Proofs.Lower.Storage

/-!
# Elements at run time

While a node is lowered, the storage of every other port bears the values of that port, and a
gathered input bears the values gathered for it. What is emitted to load an element of an input
computes that element; what is emitted to store an element of the output changes that element of
its buffer.
-/

namespace Dataflow

open Code (Context Store Emit Emitter Body StackBuffer Ty ValueId Word)

namespace Graph

variable {g : Graph} {s : Selection} {v : Values}

/-- What is collected is what the outlets of the cells hold. -/
theorem Collects.cells (h : g.Collects s v) (hfit : g.FitsAll s) :
    List.Forall₂ (fun c a => ∃ o, g.outlet c.port = .ok o ∧ o.values.scalars[c.index]? = some a)
      s.cells v.scalars := by
  obtain ⟨t, -, h⟩ := h
  unfold gatherAs at h
  rw [resolve_of_fitsAll hfit] at h
  obtain ⟨rest, hrest, -, hall⟩ := gatherSpans_bears
    (D := fun c a => ∃ o, g.outlet c.port = .ok o ∧ o.values.scalars[c.index]? = some a)
    (fun _ _ o ho _ _ ha _ => ⟨o, ho, ha⟩) h
  rw [hrest, Values.scalars_zeros]
  exact hall

theorem Collects.elemType (h : g.Collects s v) (hfit : g.FitsAll s) {t : ElemType}
    (ht : s.elemType? = some t) : v.elemType = t := by
  obtain ⟨u, hu, h⟩ := h
  unfold gatherAs at h
  rw [resolve_of_fitsAll hfit] at h
  rw [elemType_of_gatherSpans h, Values.elemType_zeros, hu t ht]

end Graph

namespace Storage

/-- The region that the storage is in. The buffers of the caller come right after the data. -/
def region (C : Context) : Storage → Nat
  | argument _ => C.data.size
  | stack b => C.base + b.place.index
  | data id => id.index

structure Reached (C : Context) (b : Body) (σ : Store) (st : Storage) : Prop where
  argument : ∀ v, st = .argument v → σ.Carries b v (.ptr ⟨C.data.size + 1, 0⟩)
  data : ∀ id, st = .data id → id.index < C.data.size

end Storage

/-- If the port has storage, then the storage bears the values of the port. -/
def Backed (C : Context) (g : Graph) (s : LowerState) (σ : Store) (p : Port) : Prop :=
  ∀ st, s.storage.find? p = some st → st.Reached C s.emitter.body σ ∧
    ∀ o, g.outlet p = .ok o → σ.memory.Bears (st.region C) o.values

structure Ready (C : Context) (g : Graph) (os : List Outlet) (inputs : List Values)
    (s : LowerState) (σ : Store) : Prop where
  fits : C.Fits σ
  stored : ∀ p, p ∉ os.map (·.port) → Backed C g s σ p
  gathered : ∀ (i : Nat) (b : StackBuffer) (v : Values), s.gathered[i]?.join = some b →
    inputs[i]? = some v → σ.memory.Bears (C.base + b.place.index) v

def Guarded (C : Context) (os : List Outlet) (s : LowerState) (r : Nat) : Prop :=
  (∃ p st, p ∉ os.map (·.port) ∧ s.storage.find? p = some st ∧
    (∀ id, st = .data id → id.index < C.data.size) ∧ st.region C = r) ∨
  ∃ (i : Nat) (b : StackBuffer), s.gathered[i]?.join = some b ∧ C.base + b.place.index = r

section Ready

variable {C : Context} {g : Graph} {o : Outlet} {os : List Outlet} {inputs : List Values}
  {s s' : LowerState} {σ σ' : Store}

theorem Backed.mono {p : Port} (h : Backed C g s σ p)
    (hb : s.emitter.body.Within s'.emitter.body)
    (hstorage : ∀ st, s'.storage.find? p = some st → s.storage.find? p = some st)
    (hvalues : ∀ i < s.emitter.body.valueTypes.size, σ'.values[i]? = σ.values[i]?)
    (hmemory : ∀ st, s.storage.find? p = some st → (∀ id, st = .data id → id.index < C.data.size) →
      σ'.memory[st.region C]? = σ.memory[st.region C]?) : Backed C g s' σ' p := by
  intro st hst
  obtain ⟨⟨hargument, hdata⟩, hbears⟩ := h st (hstorage st hst)
  refine ⟨⟨fun v hv => (hargument v hv).mono hb hvalues, hdata⟩, fun o ho => ?_⟩
  exact (hbears o ho).congr (hmemory st (hstorage st hst) hdata)

/-- What is ready stays so while the guarded regions stay as they are. -/
theorem Ready.mono (h : Ready C g os inputs s σ) (hb : s.emitter.body.Within s'.emitter.body)
    (hstorage : ∀ p, p ∉ os.map (·.port) → s'.storage.find? p = s.storage.find? p)
    (hgathered : s'.gathered = s.gathered) (hσ : C.Fits σ')
    (hvalues : ∀ i < s.emitter.body.valueTypes.size, σ'.values[i]? = σ.values[i]?)
    (hmemory : ∀ r, Guarded C os s r → σ'.memory[r]? = σ.memory[r]?) :
    Ready C g os inputs s' σ' where
  fits := hσ
  stored p hp := by
    refine (h.stored p hp).mono hb (fun st hst => hstorage p hp ▸ hst) hvalues
      fun st hst hdata => hmemory _ (Or.inl ⟨p, st, hp, hst, hdata, rfl⟩)
  gathered i b v hb hv := by
    rw [hgathered] at hb
    exact (h.gathered i b v hb hv).congr (hmemory _ (Or.inr ⟨i, b, hb, rfl⟩))

theorem Ready.of_quiet (h : Ready C g os inputs s σ) (hk : s.Keeps os s')
    (hq : C.Quiet s.emitter.body s'.emitter.body σ σ') : Ready C g os inputs s' σ' :=
  h.mono hk.straight.body hk.storage hk.gathered hq.fits hq.values fun _ _ => by rw [hq.memory]

/-- A buffer whose slot no other one has is no guarded region. -/
theorem not_guarded (hbase : C.data.size < C.base) (hs : s.Orderly) {b : StackBuffer}
    (hb : s.emitter.Held b)
    (hslot : ∀ w k, (∀ p ∈ os.map (·.port), w ≠ .inl p) → s.buffer? w = some k → k.slot ≠ b.slot) :
    ¬ Guarded C os s (C.base + b.place.index) := by
  have hne : ∀ w k, (∀ p ∈ os.map (·.port), w ≠ .inl p) → s.buffer? w = some k →
      k.place.index ≠ b.place.index := by
    intro w k hw hk hplace
    exact hslot w k hw hk ((hs.held w k hk).place_injective hs.tidy hb (congrArg Code.StackId.mk hplace))
  rintro (⟨p, st, hp, hst, hdata, hr⟩ | ⟨i, k, hk, hr⟩)
  · cases st with
    | argument v =>
        have hr' : C.data.size = C.base + b.place.index := hr
        omega
    | stack k =>
        have hr' : C.base + k.place.index = C.base + b.place.index := hr
        have hother : ∀ q ∈ os.map (·.port), (.inl p : Port ⊕ Nat) ≠ .inl q := by
          intro q hq heq
          obtain rfl := Sum.inl.inj heq
          exact hp hq
        have := hne (.inl p) k hother (LowerState.buffer_inl.2 hst)
        omega
    | data id =>
        have hr' : id.index = C.base + b.place.index := hr
        have := hdata id rfl
        omega
  · have := hne (.inr i) k (by simp) hk
    omega

theorem own_not_guarded (hbase : C.data.size < C.base) (hs : s.Orderly) (ho : o.Among os)
    {b : StackBuffer} (hb : s.storage.find? o.port = some (.stack b)) :
    ¬ Guarded C os s (C.base + b.place.index) := by
  have hb' := LowerState.buffer_inl.2 hb
  refine not_guarded hbase hs (hs.held _ _ hb') fun w k hw hk hslot => hw _ ho.port_mem ?_
  exact hs.distinct _ _ _ _ hk hb' hslot

theorem guarded_iff_of_keeps {r : Nat} (hk : s.Keeps os s') :
    Guarded C os s' r ↔ Guarded C os s r := by
  unfold Guarded
  rw [hk.gathered]
  refine or_congr_left ⟨?_, ?_⟩
  · rintro ⟨p, st, hp, hst, hr⟩
    exact ⟨p, st, hp, (hk.storage p hp).symm.trans hst, hr⟩
  · rintro ⟨p, st, hp, hst, hr⟩
    exact ⟨p, st, hp, (hk.storage p hp).trans hst, hr⟩

/-- A store into a region that is not guarded leaves everything ready. -/
theorem Ready.of_writes {r start : Nat} {w : Word} (h : Ready C g os inputs s σ)
    (hk : s.Keeps os s') (hw : C.Writes s.emitter.body s'.emitter.body σ σ' r start w)
    (hr : ¬ Guarded C os s r) : Ready C g os inputs s' σ' := by
  refine h.mono hk.straight.body hk.storage hk.gathered hw.fits hw.values fun r' hr' => ?_
  rw [hw.memory]
  refine Code.Memory.getElem?_put_of_ne ?_
  rintro rfl
  exact hr hr'

theorem room_of_held {e : Emitter} {b : StackBuffer} (hC : C.Covers e) (hb : e.Held b)
    (hbase : C.data.size < C.base) : C.Room (C.base + b.place.index) b.ty b.length := by
  obtain ⟨n, hn, hfit⟩ := hb.room
  exact ⟨by omega, n, C.places _ _ (hC.body.stack _ _ hn), hfit⟩

end Ready

def Position.Is (b : Body) (σ : Store) (n : Nat) : Position → Prop
  | fixed i => i = n
  | computed v => n < 2 ^ 31 ∧ σ.Carries b v (.i32 (.ofNat n))

/-- What the inlets of a node gather. None of them reads an outlet that is lowered. -/
structure Reads (g : Graph) (c : LowerContext) (os : List Outlet) (inputs : List Values) : Prop where
  gathers : List.Forall₂ (fun l v => g.Collects l.selection v) c.site.inlets inputs
  fits : ∀ l ∈ c.site.inlets, g.FitsAll l.selection
  other : ∀ l ∈ c.site.inlets, ∀ a ∈ l.selection.spans, a.port ∉ os.map (·.port)
  small : ∀ p o, g.outlet p = .ok o → o.size.getD 0 < 2 ^ 31

section Reads

variable {g : Graph} {c : LowerContext} {os : List Outlet} {inputs : List Values} {i n : Nat}
  {l : Inlet} {w : Values} {a : Scalar}

theorem Reads.element (h : Reads g c os inputs)
    (hl : c.site.inlets[i]? = some l) (hw : inputs[i]? = some w) {cell : Cell}
    (hcell : l.selection.cells[n]? = some cell) (ha : w.scalars[n]? = some a) :
    cell.port ∉ os.map (·.port) ∧
      ∃ o', g.outlet cell.port = .ok o' ∧ o'.values.scalars[cell.index]? = some a := by
  obtain ⟨hi, rfl⟩ := List.getElem?_eq_some_iff.1 hl
  obtain ⟨hi', rfl⟩ := List.getElem?_eq_some_iff.1 hw
  have hmem := List.getElem_mem hi
  have hall := (h.gathers.get hi hi').cells (h.fits _ hmem)
  obtain ⟨hn, rfl⟩ := List.getElem?_eq_some_iff.1 hcell
  obtain ⟨hn', rfl⟩ := List.getElem?_eq_some_iff.1 ha
  obtain ⟨sp, hsp, hport⟩ := Graph.exists_span_of_mem_cells (List.getElem_mem hn)
  exact ⟨hport ▸ h.other _ hmem sp hsp, hall.get hn hn'⟩

theorem Reads.type {t : ElemType} (h : Reads g c os inputs)
    (hl : c.site.inlets[i]? = some l) (hw : inputs[i]? = some w)
    (ht : l.selection.elemType? = some t) (ha : w.scalars[n]? = some a) : a.word.ty = t.ty := by
  obtain ⟨hi, rfl⟩ := List.getElem?_eq_some_iff.1 hl
  obtain ⟨hi', rfl⟩ := List.getElem?_eq_some_iff.1 hw
  have htype := (h.gathers.get hi hi').elemType (h.fits _ (List.getElem_mem hi)) ht
  rw [Scalar.ty_word, Values.elemType_of_mem_scalars (List.mem_of_getElem? ha)]
  exact congrArg ElemType.ty htype

/-- An input of one span is read from one outlet, which has no more than `2 ^ 31` elements. -/
theorem Reads.contiguous {sp : Span} (h : Reads g c os inputs) (hl : c.site.inlets[i]? = some l)
    (hw : inputs[i]? = some w) (hsp : l.selection.spans = [sp]) (ha : w.scalars[n]? = some a) :
    l.selection.cells[n]? = some ⟨sp.port, sp.elemType, sp.start + n⟩ ∧ n + sp.start < 2 ^ 31 := by
  obtain ⟨hi, rfl⟩ := List.getElem?_eq_some_iff.1 hl
  obtain ⟨hi', rfl⟩ := List.getElem?_eq_some_iff.1 hw
  have hmem := List.getElem_mem hi
  have hall := (h.gathers.get hi hi').cells (h.fits _ hmem)
  have hcells : (c.site.inlets[i]).selection.cells = sp.cells := by
    rw [Selection.cells, hsp]
    simp
  have hn : n < sp.length := by
    have hlt := (List.getElem?_eq_some_iff.1 ha).1
    have hlen := hall.length_eq
    rw [List.get_eq_getElem, hcells, Selection.length_cells_span] at hlen
    rw [hlen]
    exact hlt
  obtain ⟨o', ho', hsize, -, hstop, -⟩ := (h.fits _ hmem).2 sp (by simp [hsp])
  have hsmall := h.small _ o' ho'
  rw [hsize, Option.getD_some] at hsmall
  unfold Span.stop at hstop
  refine ⟨?_, by omega⟩
  rw [hcells]
  simp [Span.cells, hn]

end Reads

/-- The elements of the outlet take as many bytes as some words of a type, if not more. -/
def Outlet.HasRoom (o : Outlet) (n : Nat) (t : Ty) : Prop :=
  n * t.size ≤ o.size.getD 0 * o.elemType.ty.size

instance (o : Outlet) (n : Nat) (t : Ty) : Decidable (o.HasRoom n t) :=
  inferInstanceAs (Decidable (_ ≤ _))

theorem Outlet.HasRoom.mono {o : Outlet} {n m : Nat} {t : Ty} (h : o.HasRoom m t) (hn : n ≤ m) :
    o.HasRoom n t :=
  (Nat.mul_le_mul_right _ hn).trans h

/-- There is room for an element where the outlet has one. -/
theorem Outlet.hasRoom_of_lt {o : Outlet} {n size : Nat} {a : Scalar} (hsize : o.size = some size)
    (hn : n < size) (ha : a.elemType = o.elemType) : o.HasRoom (n + 1) a.word.ty := by
  rw [Outlet.HasRoom, hsize, Scalar.ty_word, ha]
  exact Nat.mul_le_mul_right _ hn

namespace Lower

section Access

variable {C : Context} {g : Graph} {c : LowerContext} {o : Outlet} {os : List Outlet}
  {inputs : List Values} {s s' : LowerState} {e e' : Emitter} {σ : Store} {v : ValueId} {i n : Nat}
  {a : Scalar}

theorem yields_address {storage : Table Port Storage} {p : Port} {st : Storage}
    (h : Succeeds (address storage p) e v e') (hst : storage.find? p = some st)
    (hr : st.Reached C e.body σ) (hC : C.Covers e') (hσ : C.Fits σ) :
    C.Yields e.body e'.body σ v (.ptr ⟨st.region C + 1, 0⟩) := by
  unfold address at h
  rw [hst] at h
  cases st with
  | argument x =>
      obtain ⟨rfl, rfl⟩ := succeeds_pure.1 h
      exact ⟨σ, .refl hσ, hr.argument x rfl⟩
  | stack b => exact Context.yields_bufferAddress h hC hσ
  | data id => exact Context.yields_dataAddress h hC hσ

theorem exists_storage {storage : Table Port Storage} {p : Port}
    (h : Succeeds (address storage p) e v e') : ∃ st, storage.find? p = some st := by
  unfold address at h
  cases hst : storage.find? p with
  | none =>
      rw [hst] at h
      exact absurd h succeeds_throw
  | some st => exact ⟨st, rfl⟩

/-- An index that is moved up stays below the bound of the outlet. -/
theorem yields_moved {x : ValueId} {offset : Nat} (h : Succeeds (moved x offset) e v e')
    (hC : C.Covers e') (hσ : C.Fits σ) (hx : σ.Carries e.body x (.i32 (.ofNat n))) :
    C.Yields e.body e'.body σ v (.i32 (.ofNat (n + offset))) := by
  unfold moved at h
  split at h
  case isTrue hzero =>
    obtain ⟨rfl, rfl⟩ := succeeds_pure.1 h
    rw [hzero]
    exact ⟨σ, .refl hσ, hx⟩
  case isFalse =>
    split at h
    case isFalse => exact absurd h succeeds_throw
    case isTrue =>
      obtain ⟨y, e₁, hy, h⟩ := succeeds_bind.1 h
      have hgrows := (Emit.Linear.straight (Emit.leaves_binary _ _ _) h).toGrows
      obtain ⟨σ₁, hq, hcarries⟩ := Context.yields_literal hy (hC.of_grows hgrows) hσ
      refine .trans hq (Context.yields_binary h hC hq.fits
        (hq.carries (Emit.Linear.straight (Emit.leaves_literal _) hy).body hx) hcarries ?_)
      rw [Int32.ofNat_add]
      rfl

/-- What is emitted to load an element of an input computes that element. -/
theorem yields_inputAt {pos : Position} {w : Values}
    (h : Lowers c (inputAt i pos) s v s') (hC : C.Covers s'.emitter)
    (hr : Ready C g os inputs s σ) (hreads : Reads g c os inputs) (hw : inputs[i]? = some w)
    (ha : w.scalars[n]? = some a) (hpos : pos.Is s.emitter.body σ n) :
    C.Yields s.emitter.body s'.emitter.body σ v a.word := by
  simp only [inputAt, lowers_bind, lowers_inlet, lowers_inputType] at h
  obtain ⟨l, _, ⟨hl, rfl⟩, t, _, ⟨l', hl', ht, rfl⟩, h⟩ := h
  obtain rfl := Option.some.inj (hl.symm.trans hl')
  have htype := hreads.type hl hw ht ha
  cases pos with
  | fixed k =>
      obtain rfl : k = n := hpos
      simp only [lowers_bind, lowers_check, lowers_portAddress, lowers_emit] at h
      obtain ⟨cell, _, ⟨hcell, rfl⟩, base, _, ⟨e₁, hbase, rfl⟩, e₂, hload, rfl⟩ := h
      obtain ⟨hne, o', ho', hheld⟩ :=
        hreads.element hl hw (Selection.cell_eq_ok_iff.1 hcell) ha
      obtain ⟨st, hst⟩ := exists_storage hbase
      obtain ⟨hreach, hbears⟩ := hr.stored _ hne st hst
      have hgrows := (Emit.Linear.straight (Emit.leaves_load _ _ _) hload).toGrows
      obtain ⟨σ₁, hq, hcarries⟩ := yields_address hbase hst hreach (hC.of_grows hgrows) hr.fits
      refine .trans hq (Context.yields_load hload hC hq.fits hcarries ?_ htype)
      rw [hq.memory, ← htype]
      exact hbears o' ho' _ _ _ hheld
  | computed x =>
      obtain ⟨hn, hx⟩ := hpos
      obtain ⟨s₀, s₁, hget, h⟩ := lowers_bind.1 h
      obtain ⟨rfl, rfl⟩ := lowers_get.1 hget
      split at h
      case h_1 b hb =>
        simp only [lowers_bind, lowers_emit] at h
        obtain ⟨base, _, ⟨e₁, hbase, rfl⟩, e₂, hload, rfl⟩ := h
        have hgrows := (Emit.Linear.straight (Emit.leaves_loadDynamic _ _ _) hload).toGrows
        have hstraight := Emit.Linear.straight (Emit.Frames.bufferAddress _) hbase
        obtain ⟨σ₁, hq, hcarries⟩ :=
          Context.yields_bufferAddress hbase (hC.of_grows hgrows) hr.fits
        refine .trans hq (Context.yields_loadDynamic hload hC hq.fits hcarries
          (hq.carries hstraight.body hx) (Int32.toInt_ofNat_of_lt hn) ?_ htype)
        rw [hq.memory, ← htype]
        exact hr.gathered i b w hb hw _ n a ha
      case h_2 =>
        split at h
        case h_2 =>
          obtain ⟨_, _, -, h⟩ := lowers_bind.1 h
          exact absurd h lowers_throw
        case h_1 sp hsp =>
          simp only [lowers_bind, lowers_portAddress, lowers_emit] at h
          obtain ⟨base, _, ⟨e₁, hbase, rfl⟩, y, _, ⟨e₂, hy, rfl⟩, e₃, hload, rfl⟩ := h
          obtain ⟨hcell, hsmall⟩ := hreads.contiguous hl hw hsp ha
          obtain ⟨hne, o', ho', hheld⟩ := hreads.element hl hw hcell ha
          obtain ⟨st, hst⟩ := exists_storage hbase
          obtain ⟨hreach, hbears⟩ := hr.stored _ hne st hst
          have hgrows := (Emit.Linear.straight (Emit.leaves_loadDynamic _ _ _) hload).toGrows
          have hmoved := Emit.Linear.straight (leaves_moved _ _) hy
          have hC₂ := hC.of_grows hgrows
          obtain ⟨σ₁, hq₁, hbase'⟩ :=
            yields_address hbase hst hreach (hC₂.of_grows hmoved.toGrows) hr.fits
          have hx₁ := hq₁.carries (Emit.Linear.straight (leaves_address _ _) hbase).body hx
          obtain ⟨σ₂, hq₂, hy'⟩ := yields_moved hy hC₂ hq₁.fits hx₁
          refine .trans (hq₁.trans hq₂) (Context.yields_loadDynamic hload hC hq₂.fits
            (hq₂.carries hmoved.body hbase') hy' (Int32.toInt_ofNat_of_lt hsmall) ?_ htype)
          rw [(hq₁.trans hq₂).memory, Nat.add_comm, ← htype]
          exact hbears o' ho' _ _ _ hheld

structure Puts (C : Context) (os : List Outlet) (o : Outlet) (n : Nat) (w : Word) (s s' : LowerState)
    (σ σ' : Store) (b : StackBuffer) : Prop where
  storage : s'.storage.find? o.port = some (.stack b)
  room : C.Room (C.base + b.place.index) w.ty (n + 1)
  guarded : ¬ Guarded C os s (C.base + b.place.index)
  writes : C.Writes s.emitter.body s'.emitter.body σ σ' (C.base + b.place.index) (n * w.ty.size) w

theorem Puts.frame {w : Word} {σ' : Store} {b : StackBuffer} (h : Puts C os o n w s s' σ σ' b)
    {r : Nat} (hr : Guarded C os s r) : σ'.memory[r]? = σ.memory[r]? := by
  rw [h.writes.memory]
  refine Code.Memory.getElem?_put_of_ne ?_
  rintro rfl
  exact h.guarded hr

/-- What is emitted to store an element of an output changes just that element. -/
theorem puts_storeOutputAt {pos : Position} {u : Unit} {w : Word}
    (h : Lowers c (storeOutputAt i pos v) s u s') (ho : c.site.outlets[i]? = some o)
    (hos : o.Among os) (hC : C.Covers s'.emitter) (hσ : C.Fits σ) (hbase : C.data.size < C.base)
    (hs : s.Orderly) (hsuited : s.Suited os) (hv : σ.Carries s.emitter.body v w)
    (hpos : pos.Is s.emitter.body σ n) (hw : o.HasRoom (n + 1) w.ty) : ∃ σ' b, Puts C os o n w s s' σ σ' b := by
  have hkeeps' := keeps_storeOutputAt h ho hos
  obtain ⟨s₁, e₂, base, hkeeps, hsilent, ⟨st, hst⟩, hbase', hs', hstore⟩ :=
    succeeds_storeOutputAt h ho hos
  obtain ⟨b, rfl, hty, hlen⟩ := hkeeps.suited hsuited o hos.mem _ hst
  have hb : s'.storage.find? o.port = some (.stack b) := by
    rw [hs']
    exact hst
  have hheld := (hkeeps.orderly hs).held _ _ (LowerState.buffer_inl.2 hst)
  have haddress := Emit.Linear.straight (leaves_address _ _) hbase'
  have hgrows : e₂.Grows s'.emitter := by
    cases pos with
    | fixed k => exact (Emit.Linear.straight (Emit.leaves_store _ _ _) hstore).toGrows
    | computed x => exact (Emit.Linear.straight (Emit.leaves_storeDynamic _ _ _) hstore).toGrows
  have hC₂ := hC.of_grows hgrows
  have hC₁ := hC₂.of_grows haddress.toGrows
  have hq₁ := Context.Quiet.of_silent hsilent hσ
  have hreach : (Storage.stack b).Reached C s₁.emitter.body σ := ⟨nofun, nofun⟩
  obtain ⟨σ₂, hq₂, hbase₂⟩ := yields_address hbase' hst hreach hC₂ hσ
  have hq := hq₁.trans hq₂
  have hwithin := hsilent.body.trans haddress.body
  have hroom : C.Room (C.base + b.place.index) w.ty (n + 1) := by
    rw [Outlet.HasRoom, hlen, Option.getD_some, ← hty] at hw
    exact (room_of_held hC₁ hheld hbase).retype hw
  have hguard : ¬ Guarded C os s (C.base + b.place.index) := by
    rw [← guarded_iff_of_keeps hkeeps']
    exact own_not_guarded hbase (hkeeps'.orderly hs) hos hb
  have hv₂ := hq.carries hwithin hv
  cases pos with
  | fixed k =>
      obtain rfl : k = n := hpos
      obtain ⟨σ₃, hw⟩ := Context.writes_store hstore hC hq₂.fits hroom hbase₂ hv₂
      exact ⟨σ₃, b, hb, hroom, hguard, .of_quiet hq hw⟩
  | computed x =>
      obtain ⟨σ₃, hw⟩ := Context.writes_storeDynamic hstore hC hq₂.fits hroom hbase₂
        (hq.carries hwithin hpos.2) (Int32.toInt_ofNat_of_lt hpos.1) hv₂
      exact ⟨σ₃, b, hb, hroom, hguard, .of_quiet hq hw⟩

end Access

end Lower

end Dataflow
