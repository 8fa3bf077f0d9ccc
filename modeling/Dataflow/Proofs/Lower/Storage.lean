import Dataflow.Lower.Storage
import Dataflow.Proofs.Code.CountedLoop

/-!
# Buffers of a node that is lowered

What the operations do by which a node is lowered. Buffers that are in use, by outputs of nodes or
by gathered inputs, never share a place in the frame, so that a store into one of them leaves the
others as they are.
-/

namespace Dataflow

open Code (Emit Emitter StackBuffer ValueId Ty)

namespace Lower

variable {α β : Type}

/-- Started in a state, a lowering operation ends with a result in another state. -/
def Lowers (c : LowerContext) (m : Lower α) (s : LowerState) (a : α) (s' : LowerState) : Prop :=
  Succeeds (m.run c) s a s'

section Lowers

variable {c : LowerContext} {s s' : LowerState} {a : α}

@[simp] theorem lowers_pure {b : α} : Lowers c (pure b) s a s' ↔ b = a ∧ s = s' := succeeds_pure

@[simp] theorem lowers_throw {f : Fault} : ¬ Lowers c (throw f : Lower α) s a s' := succeeds_throw

@[simp] theorem lowers_bind {m : Lower β} {f : β → Lower α} :
    Lowers c (m >>= f) s a s' ↔ ∃ b t, Lowers c m s b t ∧ Lowers c (f b) t a s' := succeeds_bind

@[simp] theorem lowers_map {m : Lower β} {f : β → α} :
    Lowers c (f <$> m) s a s' ↔ ∃ b, Lowers c m s b s' ∧ f b = a := succeeds_map

@[simp] theorem lowers_refuse {p : Prop} [Decidable p] {f : Fault} {k : β → Lower α}
    {m : Lower α} : Lowers c (if p then throw f >>= k else m) s a s' ↔ ¬ p ∧ Lowers c m s a s' := by
  by_cases hp : p
  · simp [hp]
  · simp [hp]

@[simp] theorem lowers_get {t : LowerState} :
    Lowers c (get : Lower LowerState) s t s' ↔ t = s ∧ s = s' := succeeds_get

@[simp] theorem lowers_set {t : LowerState} {u : PUnit} :
    Lowers c (set t : Lower PUnit) s u s' ↔ t = s' := succeeds_set

@[simp] theorem lowers_modify {f : LowerState → LowerState} {u : PUnit} :
    Lowers c (modify f : Lower PUnit) s u s' ↔ f s = s' := succeeds_modify

@[simp] theorem lowers_site {t : Site} : Lowers c site s t s' ↔ c.site = t ∧ s = s' := by
  change Succeeds (pure c.site) s t s' ↔ _
  exact succeeds_pure

@[simp] theorem lowers_check {r : Except Fault α} : Lowers c (check r) s a s' ↔ r = .ok a ∧ s = s' := by
  cases r <;> simp [check]

@[simp] theorem lowers_emit {m : Emit α} : Lowers c (emit m) s a s' ↔
    ∃ e, Succeeds m s.emitter a e ∧ s' = { s with emitter := e } := by
  unfold emit
  rw [lowers_bind]
  simp only [lowers_get, Succeeds]
  constructor
  · rintro ⟨t, t', ⟨ht, ht'⟩, h⟩
    rw [ht, ← ht'] at h
    rcases hm : m.run.run s.emitter with ⟨r, e⟩
    simp only [hm, lowers_bind, lowers_set] at h
    obtain ⟨_, _, rfl, h⟩ := h
    cases r with
    | ok b =>
        obtain ⟨rfl, rfl⟩ := lowers_pure.1 h
        exact ⟨e, rfl, rfl⟩
    | error f => exact absurd h lowers_throw
  · rintro ⟨e, hm, rfl⟩
    refine ⟨s, s, ⟨rfl, rfl⟩, ?_⟩
    simp [hm]

@[simp] theorem lowers_inlet {i : Nat} {t : Inlet} :
    Lowers c (inlet i) s t s' ↔ c.site.inlets[i]? = some t ∧ s = s' := by
  unfold inlet
  cases h : c.site.inlets[i]? <;> simp [h]

@[simp] theorem lowers_outlet {i : Nat} {o : Outlet} :
    Lowers c (outlet i) s o s' ↔ c.site.outlets[i]? = some o ∧ s = s' := by
  unfold outlet
  cases h : c.site.outlets[i]? <;> simp [h]

@[simp] theorem lowers_settings {t : Code.Settings} :
    Lowers c settings s t s' ↔ s.emitter.settings = t ∧ s = s' := by
  simp only [settings, lowers_emit, Emit.succeeds_settings]
  constructor
  · rintro ⟨e, ⟨rfl, rfl⟩, rfl⟩
    exact ⟨rfl, rfl⟩
  · rintro ⟨rfl, rfl⟩
    exact ⟨_, ⟨rfl, rfl⟩, rfl⟩

@[simp] theorem lowers_inputSize {i n : Nat} : Lowers c (inputSize i) s n s' ↔
    ∃ t, c.site.inlets[i]? = some t ∧ t.selection.size = n ∧ s = s' := by
  unfold inputSize
  simp
  aesop

@[simp] theorem lowers_inputType {i : Nat} {t : ElemType} : Lowers c (inputType i) s t s' ↔
    ∃ l, c.site.inlets[i]? = some l ∧ l.selection.elemType? = some t ∧ s = s' := by
  unfold inputType
  simp only [lowers_bind, lowers_inlet]
  constructor
  · rintro ⟨l, _, ⟨hl, rfl⟩, h⟩
    cases ht : l.selection.elemType? with
    | none => simp [ht] at h
    | some u =>
        obtain ⟨rfl, rfl⟩ : u = t ∧ s = s' := by simpa [ht] using h
        exact ⟨l, hl, ht, rfl⟩
  · rintro ⟨l, hl, ht, rfl⟩
    exact ⟨l, s, ⟨hl, rfl⟩, by simp [ht]⟩

@[simp] theorem lowers_outputSize {i n : Nat} : Lowers c (outputSize i) s n s' ↔
    ∃ o, c.site.outlets[i]? = some o ∧ o.size = some n ∧ s = s' := by
  unfold outputSize
  simp only [lowers_bind, lowers_outlet]
  constructor
  · rintro ⟨o, _, ⟨ho, rfl⟩, h⟩
    cases hn : o.size with
    | none => simp [hn] at h
    | some m =>
        obtain ⟨rfl, rfl⟩ : m = n ∧ s = s' := by simpa [hn] using h
        exact ⟨o, ho, hn, rfl⟩
  · rintro ⟨o, ho, hn, rfl⟩
    exact ⟨o, s, ⟨ho, rfl⟩, by simp [hn]⟩

@[simp] theorem lowers_hasStorage {i : Nat} {b : Bool} : Lowers c (hasStorage i) s b s' ↔
    ∃ o, c.site.outlets[i]? = some o ∧ s.storage.contains o.port = b ∧ s = s' := by
  unfold hasStorage
  simp
  aesop

@[simp] theorem lowers_portAddress {p : Port} {v : ValueId} : Lowers c (portAddress p) s v s' ↔
    ∃ e, Succeeds (address s.storage p) s.emitter v e ∧ s' = { s with emitter := e } := by
  unfold portAddress
  simp

end Lowers

end Lower

structure Outlet.Among (o : Outlet) (os : List Outlet) : Prop where
  mem : o ∈ os
  only : ∀ o' ∈ os, o'.port = o.port → o' = o

theorem Outlet.Among.single (o : Outlet) : o.Among [o] :=
  ⟨List.mem_singleton_self o, fun _ ho' _ => List.mem_singleton.1 ho'⟩

theorem Outlet.Among.port_mem {o : Outlet} {os : List Outlet} (h : o.Among os) :
    o.port ∈ os.map (·.port) :=
  List.mem_map_of_mem h.mem

theorem Outlet.notMem_single {o : Outlet} {p : Port} : p ∉ [o].map (·.port) ↔ p ≠ o.port := by
  simp

namespace LowerState

def buffer? (s : LowerState) : Port ⊕ Nat → Option StackBuffer
  | .inl p =>
    match s.storage.find? p with
    | some (.stack b) => some b
    | _ => none
  | .inr i => s.gathered[i]?.join

structure Orderly (s : LowerState) : Prop where
  tidy : s.emitter.Tidy
  held : ∀ w b, s.buffer? w = some b → s.emitter.Held b
  distinct : ∀ w w' b b', s.buffer? w = some b → s.buffer? w' = some b' → b.slot = b'.slot → w = w'

/-- If one of the outlets has storage, then it is a buffer of just the right size. -/
def Suited (os : List Outlet) (s : LowerState) : Prop :=
  ∀ o ∈ os, ∀ st, s.storage.find? o.port = some st →
    ∃ b, st = .stack b ∧ b.ty = o.elemType.ty ∧ o.size = some b.length

variable {s s' s'' : LowerState} {e : Emitter} {os : List Outlet}

theorem buffer_inl {p : Port} {b : StackBuffer} :
    s.buffer? (.inl p) = some b ↔ s.storage.find? p = some (.stack b) := by
  rw [buffer?]
  cases h : s.storage.find? p with
  | none => simp
  | some st => cases st <;> simp

/-- Before a node is lowered none of its inputs has been gathered. -/
theorem buffer_ungathered {n : Nat} {remarks : List Remark} {w : Port ⊕ Nat} {b : StackBuffer}
    (h : buffer? { s with gathered := List.replicate n none, remarks } w = some b) :
    s.buffer? w = some b ∧ ∃ p, w = .inl p := by
  cases w with
  | inl p => exact ⟨h, p, rfl⟩
  | inr i =>
      have h : ((List.replicate n (none : Option StackBuffer))[i]?).join = some b := h
      rw [List.getElem?_replicate] at h
      split at h <;> cases h

theorem Orderly.of_grows (h : s.Orderly) (hg : s.emitter.Grows s'.emitter)
    (hs : ∀ w b, s'.buffer? w = some b → s.buffer? w = some b) : s'.Orderly where
  tidy := hg.tidy h.tidy
  held w b hb := hg.held b (h.held w b (hs w b hb))
  distinct w w' b b' hb hb' := h.distinct w w' b b' (hs w b hb) (hs w' b' hb')

/-- One more buffer is in use, with a slot that no other one has. -/
theorem Orderly.add (h : s.Orderly) (hg : s.emitter.Grows s'.emitter) {w : Port ⊕ Nat}
    {b : StackBuffer} (hb : s'.emitter.Held b) (hfresh : ∀ k, s.emitter.Held k → k.slot ≠ b.slot)
    (hs : ∀ w' b', s'.buffer? w' = some b' → w' = w ∧ b' = b ∨ s.buffer? w' = some b') :
    s'.Orderly where
  tidy := hg.tidy h.tidy
  held w' b' hb' := by
    rcases hs w' b' hb' with ⟨-, rfl⟩ | hold
    · exact hb
    · exact hg.held b' (h.held w' b' hold)
  distinct w₁ w₂ b₁ b₂ h₁ h₂ hslot := by
    rcases hs w₁ b₁ h₁ with ⟨rfl, rfl⟩ | hold₁ <;> rcases hs w₂ b₂ h₂ with ⟨rfl, rfl⟩ | hold₂
    · rfl
    · exact absurd hslot.symm (hfresh b₂ (h.held w₂ b₂ hold₂))
    · exact absurd hslot (hfresh b₁ (h.held w₁ b₁ hold₁))
    · exact h.distinct w₁ w₂ b₁ b₂ hold₁ hold₂ hslot

def Straight (s s' : LowerState) : Prop :=
  ∃ e, s' = { s with emitter := e } ∧ s.emitter.Straight e

instance : Std.Refl Straight := ⟨fun _ => ⟨_, rfl, .refl _⟩⟩

instance : IsTrans LowerState Straight where
  trans := by
    rintro s _ _ ⟨e, rfl, he⟩ ⟨e', rfl, he'⟩
    exact ⟨e', rfl, he.trans he'⟩

structure Keeps (os : List Outlet) (s s' : LowerState) : Prop where
  straight : s.emitter.Straight s'.emitter
  gathered : s'.gathered = s.gathered
  storage : ∀ p, p ∉ os.map (·.port) → s'.storage.find? p = s.storage.find? p
  stored : ∀ p st, s.storage.find? p = some st → s'.storage.find? p = some st
  fresh : ∀ w b, s'.buffer? w = some b →
    s.buffer? w = some b ∨ ∀ k, s.emitter.Held k → k.slot ≠ b.slot
  orderly : s.Orderly → s'.Orderly
  suited : s.Suited os → s'.Suited os

theorem Keeps.of_straight (h : s.emitter.Straight e) : s.Keeps os { s with emitter := e } :=
  ⟨h, rfl, fun _ _ => rfl, fun _ _ h => h, fun _ _ hb => .inl hb,
    fun hs => hs.of_grows h.toGrows fun _ _ hb => hb, fun hs => hs⟩

theorem Keeps.refl (s : LowerState) : s.Keeps os s := .of_straight (.refl s.emitter)

theorem Keeps.trans (h : s.Keeps os s') (h' : s'.Keeps os s'') : s.Keeps os s'' where
  straight := h.straight.trans h'.straight
  gathered := h'.gathered.trans h.gathered
  storage p hp := (h'.storage p hp).trans (h.storage p hp)
  stored p st hst := h'.stored p st (h.stored p st hst)
  fresh w b hb := by
    rcases h'.fresh w b hb with hb | hfresh
    · exact h.fresh w b hb
    · exact .inr fun k hk => hfresh k (h.straight.held k hk)
  orderly hs := h'.orderly (h.orderly hs)
  suited hs := h'.suited (h.suited hs)

end LowerState

namespace Lower

variable {α β : Type}

/-- Whatever comes of an operation on a node, it leaves a state that is related to the one it has
found. -/
def Turns (R : LowerContext → LowerState → LowerState → Prop) (m : Lower α) : Prop :=
  ∀ c, Leaves (R c) (m.run c)

namespace Turns

variable {R : LowerContext → LowerState → LowerState → Prop} {c : LowerContext} {s s' : LowerState}
  {m : Lower α} {m' : Lower β}

theorem of_lowers {a : α} (h : Turns R m) (hm : Lowers c m s a s') : R c s s' := (h c).of_succeeds hm

theorem mono {R' : LowerContext → LowerState → LowerState → Prop}
    (hR : ∀ c s s', R c s s' → R' c s s') (h : Turns R m) : Turns R' m :=
  fun c => (h c).mono (hR c)

theorem emit {m : Emit α} (h : ∀ c s, R c s { s with emitter := (m.run.run s.emitter).2 }) :
    Turns R (Lower.emit m) := by
  intro c s
  have hs := h c s
  change R c s (((do
    set { s with emitter := (m.run.run s.emitter).2 }
    check (m.run.run s.emitter).1 : Lower α).run c).run.run s).2
  cases hm : (m.run.run s.emitter).1 with
  | ok a => exact hs
  | error f => exact hs

theorem ite {p : Prop} [Decidable p] {k : Lower α} (hm : Turns R m) (hk : Turns R k) :
    Turns R (if p then m else k) := by
  split
  · exact hm
  · exact hk

theorem bind [∀ c, IsTrans LowerState (R c)] {k : β → Lower α} (hm : Turns R m')
    (hk : ∀ b, Turns R (k b)) : Turns R (m' >>= k) :=
  fun c => (hm c).bind fun b => hk b c

variable [∀ c, Std.Refl (R c)]

theorem pure (a : α) : Turns R (Pure.pure a : Lower α) := fun _ => .pure a

theorem throw (f : Fault) : Turns R (MonadExcept.throw f : Lower α) := fun _ => .throw f

theorem get : Turns R (MonadState.get : Lower LowerState) := fun _ => .get

theorem context : Turns R (MonadReader.read : Lower LowerContext) := fun _ => .pure _

theorem check (r : Except Fault α) : Turns R (Lower.check r) := by
  cases r with
  | ok a => exact pure a
  | error f => exact throw f

theorem refuse {p : Prop} [Decidable p] {f : Fault} {k : β → Lower α} (hm : Turns R m) :
    Turns R (if p then MonadExcept.throw f >>= k else m) :=
  ite (fun _ _ => Std.Refl.refl _) hm

variable [∀ c, IsTrans LowerState (R c)]

theorem site : Turns R Lower.site := context.bind fun _ => pure _

theorem inlet (i : Nat) : Turns R (Lower.inlet i) := by
  refine site.bind fun t => ?_
  split
  · exact pure _
  · exact throw _

theorem outlet (i : Nat) : Turns R (Lower.outlet i) := by
  refine site.bind fun t => ?_
  split
  · exact pure _
  · exact throw _

theorem inputType (i : Nat) : Turns R (Lower.inputType i) := by
  refine (inlet i).bind fun l => ?_
  split
  · exact pure _
  · exact throw _

theorem inputSize (i : Nat) : Turns R (Lower.inputSize i) := (inlet i).bind fun _ => pure _

theorem inputIsContiguous (i : Nat) : Turns R (Lower.inputIsContiguous i) :=
  (inlet i).bind fun _ => pure _

theorem outputSize (i : Nat) : Turns R (Lower.outputSize i) := by
  refine (outlet i).bind fun o => ?_
  split
  · exact pure _
  · exact throw _

theorem outputType (i : Nat) : Turns R (Lower.outputType i) := (outlet i).bind fun _ => pure _

theorem hasStorage (i : Nat) : Turns R (Lower.hasStorage i) :=
  (outlet i).bind fun _ => get.bind fun _ => pure _

theorem forM {xs : List β} {f : β → Lower Unit} (hf : ∀ x, Turns R (f x)) : Turns R (xs.forM f) := by
  induction xs with
  | nil => exact pure _
  | cons x xs ih => exact (hf x).bind fun _ => ih

end Turns

abbrev Plain (m : Lower α) : Prop := Turns (fun _ => LowerState.Straight) m

theorem leaves_address {R : Emitter → Emitter → Prop} [Emit.Frames R] (storage : Table Port Storage)
    (p : Port) : Leaves R (address storage p) := by
  unfold address
  split
  · exact .pure _
  · exact Emit.Frames.bufferAddress _
  · exact Emit.leaves_dataAddress _
  · exact .throw _

theorem leaves_moved {R : Emitter → Emitter → Prop} [Emit.Computes R] (index : ValueId)
    (offset : Nat) : Leaves R (moved index offset) :=
  .ite (.pure _) (.ite (.bind (Emit.leaves_literal _) fun _ => Emit.leaves_binary _ _ _) (.throw _))

namespace Plain

theorem emit {m : Emit α} (hm : m.Linear) : Plain (Lower.emit m) :=
  Turns.emit fun _ s => ⟨_, rfl, hm s.emitter⟩

theorem portAddress (p : Port) : Plain (Lower.portAddress p) :=
  Turns.get.bind fun _ => emit (leaves_address _ _)

theorem inputAt (i : Nat) (pos : Position) : Plain (Lower.inputAt i pos) := by
  refine (Turns.inlet i).bind fun l => (Turns.inputType i).bind fun t => ?_
  cases pos with
  | fixed n =>
      exact (Turns.check _).bind fun cell => (portAddress _).bind fun _ =>
        emit (Emit.leaves_load _ _ _)
  | computed v =>
      refine Turns.get.bind fun s => ?_
      split
      · exact (emit (Emit.Frames.bufferAddress _)).bind fun _ => emit (Emit.leaves_loadDynamic _ _ _)
      · split
        · exact (portAddress _).bind fun _ => (emit (leaves_moved _ _)).bind fun _ =>
            emit (Emit.leaves_loadDynamic _ _ _)
        · exact Turns.site.bind fun _ => .throw _

end Plain

section Outputs

variable {c : LowerContext} {s s' : LowerState} {o : Outlet} {os : List Outlet} {i : Nat} {u : Unit}

/-- An output that has no storage yet gets a buffer of its size. -/
theorem succeeds_requireStorage (h : Lowers c (requireStorage i) s u s')
    (ho : c.site.outlets[i]? = some o) (hos : o.Among os) :
    s.Keeps os s' ∧ s.emitter.Silent s'.emitter ∧ ∃ st, s'.storage.find? o.port = some st := by
  simp only [requireStorage, lowers_bind, lowers_outlet, lowers_hasStorage, ho,
    Option.some.injEq] at h
  obtain ⟨_, _, ⟨rfl, rfl⟩, stored, _, ⟨_, rfl, rfl, rfl⟩, h⟩ := h
  cases hfind : s.storage.find? o.port with
  | some st =>
      simp only [Table.contains, hfind, Option.isSome_some, Bool.not_true, Bool.false_eq_true,
        if_false, lowers_pure] at h
      obtain ⟨-, rfl⟩ := h
      exact ⟨.refl s, .refl _, st, hfind⟩
  | none =>
      simp only [Table.contains, hfind, Option.isSome_none, Bool.not_false, if_true, lowers_bind,
        lowers_outputSize, ho, Option.some.injEq, lowers_emit, setStorage, lowers_modify] at h
      obtain ⟨n, _, ⟨_, rfl, hn, rfl⟩, b, _, ⟨e, hb, rfl⟩, rfl⟩ := h
      obtain ⟨hsilent, hty, hlen, hheld, hfresh⟩ := Emit.succeeds_stackBuffer hb
      have hfind' : ∀ p, (s.storage.insert o.port (.stack b)).find? p =
          if p = o.port then some (.stack b) else s.storage.find? p :=
        fun p => Table.find?_insert ..
      have hbuffers : ∀ w k, LowerState.buffer?
          { s with emitter := e, storage := s.storage.insert o.port (.stack b) } w = some k →
            w = .inl o.port ∧ k = b ∨ s.buffer? w = some k := by
        intro w k hk
        cases w with
        | inl p =>
            rw [LowerState.buffer_inl, hfind'] at hk
            split at hk
            case isTrue hp =>
              obtain rfl := Storage.stack.inj (Option.some.inj hk)
              exact .inl ⟨by rw [hp], rfl⟩
            case isFalse => exact .inr (LowerState.buffer_inl.2 hk)
        | inr j => exact .inr hk
      refine ⟨⟨hsilent.straight, rfl, fun p hp => ?_, fun p st hst => ?_, fun w k hk => ?_,
        fun hs => hs.add hsilent.toGrows (hheld hs.tidy) hfresh hbuffers,
        fun hs o' ho' st hst => ?_⟩, hsilent, .stack b, (hfind' _).trans (if_pos rfl)⟩
      · refine (hfind' p).trans (if_neg ?_)
        rintro rfl
        exact hp hos.port_mem
      · refine (hfind' p).trans ((if_neg ?_).trans hst)
        rintro rfl
        cases hfind.symm.trans hst
      · rcases hbuffers w k hk with ⟨-, rfl⟩ | hk
        · exact .inr hfresh
        · exact .inl hk
      · have hst' := (hfind' _).symm.trans hst
        split at hst'
        case isTrue hp =>
          obtain rfl := hos.only o' ho' hp
          obtain rfl := Option.some.inj hst'
          exact ⟨b, rfl, hty, by rw [hlen, hn]⟩
        case isFalse => exact hs o' ho' st hst'

theorem succeeds_storeOutputAt {pos : Position} {v : ValueId}
    (h : Lowers c (storeOutputAt i pos v) s u s') (ho : c.site.outlets[i]? = some o)
    (hos : o.Among os) :
    ∃ (s₁ : LowerState) (e₂ : Emitter) (base : ValueId), s.Keeps os s₁ ∧ s.emitter.Silent s₁.emitter ∧
      (∃ st, s₁.storage.find? o.port = some st) ∧
      Succeeds (address s₁.storage o.port) s₁.emitter base e₂ ∧
      s' = { s₁ with emitter := s'.emitter } ∧
      Succeeds (match pos with
        | .fixed index => Emit.store base index v
        | .computed index => Emit.storeDynamic base index v) e₂ u s'.emitter := by
  simp only [storeOutputAt, lowers_bind, lowers_outlet, ho, Option.some.injEq,
    lowers_portAddress] at h
  obtain ⟨_, _, ⟨rfl, rfl⟩, _, s₁, hreq, base, _, ⟨e₂, hbase, rfl⟩, h⟩ := h
  obtain ⟨hkeeps, hsilent, hst⟩ := succeeds_requireStorage hreq ho hos
  refine ⟨s₁, e₂, base, hkeeps, hsilent, hst, hbase, ?_⟩
  cases pos with
  | fixed n =>
      obtain ⟨e₃, hstore, rfl⟩ := lowers_emit.1 h
      exact ⟨rfl, hstore⟩
  | computed i =>
      obtain ⟨e₃, hstore, rfl⟩ := lowers_emit.1 h
      exact ⟨rfl, hstore⟩

theorem keeps_storeOutputAt {pos : Position} {v : ValueId}
    (h : Lowers c (storeOutputAt i pos v) s u s') (ho : c.site.outlets[i]? = some o)
    (hos : o.Among os) : s.Keeps os s' := by
  obtain ⟨s₁, e₂, base, hkeeps, -, -, hbase, hs', h⟩ := succeeds_storeOutputAt h ho hos
  have hstraight := Emit.Linear.straight (leaves_address _ _) hbase
  have hstore : e₂.Straight s'.emitter := by
    cases pos with
    | fixed n => exact Emit.Linear.straight (Emit.leaves_store _ _ _) h
    | computed i => exact Emit.Linear.straight (Emit.leaves_storeDynamic _ _ _) h
  rw [hs']
  exact hkeeps.trans (.of_straight (hstraight.trans hstore))

end Outputs

end Lower

end Dataflow
