import Dataflow.Node.Scripted
import Dataflow.Proofs.Lower.Node

/-!
# Nodes that are lowered by regular operations

A node may be lowered by whatever is made of the operations on its elements and of calls on the emitter.
It may take buffers to work in and give these back, each of them once, and no other buffers. As far as it
gets, such code has no buffers entered but for outputs that have no storage and for inputs that have not
been gathered. Each has a slot of its own and is of just the right size.
-/

namespace Dataflow

open Code (Call CountedLoop Emit Emitter StackBuffer ValueId)

namespace Code

def Call.Sparing (c : Call) : Prop := ∀ slot, c.frees? = some slot → slot.scope ≠ .buffer

namespace Emit

/-- The operation is made of calls that give no buffer back and of looks at the emitter. -/
inductive Sparing : {α : Type} → Emit α → Prop
  | look {α : Type} {m : Emit α} (hm : Leaves Eq m) : Sparing m
  | call {c : Call} (hc : c.Sparing) : Sparing c.perform
  | bind {α β : Type} {m : Emit β} {k : β → Emit α} (hm : Sparing m) (hk : ∀ b, Sparing (k b)) :
      Sparing (m >>= k)

theorem Sparing.grows {α : Type} {m : Emit α} (h : Sparing m) : Leaves Emitter.Grows m := by
  induction h with
  | look hm =>
      refine hm.mono ?_
      rintro e _ rfl
      exact .refl e
  | call hc =>
      exact leaves_perform (fun slot hslot => (straight_release (hc slot hslot)).grows)
        (fun slot _ hslot => grows_release hslot) fun buffer _ => Frames.bufferAddress buffer
  | bind _ _ hm hk => exact hm.bind hk

theorem Sparing.pure {α : Type} (a : α) : Sparing (Pure.pure a) := .look (.pure a)

/-- An operation that a call performs, its result put into the reply. -/
theorem Sparing.of_call {α : Type} {m : Emit α} {reply : α → Reply} (c : Call) (hc : c.frees? = none)
    (hm : c.perform = reply <$> m) (result : Reply → α) (hr : ∀ a, result (reply a) = a) :
    Sparing m := by
  have hm' : (c.perform >>= fun r => Pure.pure (result r)) = m := by
    rw [hm, ← map_eq_pure_bind, Functor.map_map]
    simp [hr]
  rw [← hm']
  exact .bind (.call fun slot hslot => by rw [hc] at hslot; cases hslot) fun _ => .pure _

/-- An operation that a call performs, its result a value. -/
theorem Sparing.of_value {m : Emit ValueId} (c : Call) (hc : c.frees? = none)
    (hm : c.perform = .value <$> m) : Sparing m :=
  .of_call c hc hm (fun | .value v => v | _ => ⟨0⟩) fun _ => rfl

end Emit

end Code

namespace Lower

/-- What a node may do while it is lowered: look around, note something down, recover from a refusal,
have code emitted, load and store elements, and take buffers to work in and give them back. The lists are
of the buffers that it has taken and may give back, before and afterwards. -/
inductive Uses : {α : Type} → List StackBuffer → Lower α → (α → List StackBuffer) → Prop
  | look {α : Type} {m : Lower α} (hm : Turns (fun _ => Eq) m) : Uses [] m fun _ => []
  | remark (r : Remark) : Uses [] (remark r) fun _ => []
  | emit {α : Type} {m : Emit α} (hm : m.Sparing) : Uses [] (emit m) fun _ => []
  | inputAt (input : Nat) (pos : Position) : Uses [] (inputAt input pos) fun _ => []
  | storeOutputAt (output : Nat) (pos : Position) (value : ValueId) :
      Uses [] (storeOutputAt output pos value) fun _ => []
  | setOutputLiteral (output : Nat) (values : Values) :
      Uses [] (setOutputLiteral output values) fun _ => []
  | forEach (length : Nat) {body : Position → Lower Unit}
      (hbody : ∀ pos, Uses [] (body pos) fun _ => []) : Uses [] (forEach length body) fun _ => []
  | take (t : Code.Ty) (length : Nat) : Uses [] (emit (Emit.stackBuffer t length)) fun b => [b]
  | giveBack (b : StackBuffer) : Uses [b] (emit (Emit.releaseBuffer b)) fun _ => []
  | bind {α β : Type} {own : List StackBuffer} {m : Lower β} {k : β → Lower α}
      {mid : β → List StackBuffer} {left : α → List StackBuffer} (hm : Uses own m mid)
      (hk : ∀ b, Uses (mid b) (k b) left) : Uses own (m >>= k) left
  | attempt {α : Type} {own : List StackBuffer} {m : Lower α} {left : α → List StackBuffer}
      (hm : Uses own m left) : Uses own (attempt m) fun _ => []
  | frame {α : Type} {own : List StackBuffer} {m : Lower α} {left : α → List StackBuffer}
      (hm : Uses own m left) (rest : List StackBuffer) :
      Uses (own ++ rest) m fun a => left a ++ rest
  | forget {α : Type} {own : List StackBuffer} {m : Lower α} {left left' : α → List StackBuffer}
      (hm : Uses own m left) (h : ∀ a, (left' a).Subperm (left a)) : Uses own m left'

/-- Code that gives no buffer back but those that it has taken itself. -/
def Regular {α : Type} (m : Lower α) : Prop := Uses [] m fun _ => []

/-- The code works in a buffer that is taken for it and given back afterwards. -/
def withScratch {α : Type} (t : Code.Ty) (length : Nat) (body : StackBuffer → Lower α) : Lower α := do
  let b ← emit (Emit.stackBuffer t length)
  let a ← body b
  emit (Emit.releaseBuffer b)
  return a

end Lower

/-- The buffer is as large as what is kept in it: the values of an output, or those of an input that
is gathered. -/
def LowerContext.Suits (c : LowerContext) : Port ⊕ Nat → StackBuffer → Prop
  | .inl p, b => ∃ o ∈ c.site.outlets, o.port = p ∧ b.ty = o.elemType.ty ∧ o.size = some b.length
  | .inr i, b => ∃ l t, c.site.inlets[i]? = some l ∧ l.selection.elemType? = some t ∧ b.ty = t.ty ∧
      b.length = l.selection.size

namespace LowerState

def Vacant (s : LowerState) : Port ⊕ Nat → Prop
  | .inl p => s.storage.find? p = none
  | .inr i => s.gathered[i]?.join = none

/-- What code for a node keeps that gives no buffer back. Buffers are entered for the node where there
are none. -/
structure Serves (c : LowerContext) (s s' : LowerState) : Prop where
  grows : s.emitter.Grows s'.emitter
  vacant : ∀ w, s'.Vacant w → s.Vacant w
  buffers : ∀ w b, s'.buffer? w = some b →
    s.buffer? w = some b ∨ s.Vacant w ∧ c.Suits w b ∧ ∀ k, s.emitter.Held k → k.slot ≠ b.slot
  orderly : s.Orderly → s'.Orderly

variable {c : LowerContext} {o : Outlet} {s s' s'' : LowerState}

theorem Serves.of_grows {e : Emitter} (h : s.emitter.Grows e) : s.Serves c { s with emitter := e } :=
  ⟨h, fun _ hw => hw, fun _ _ hb => .inl hb, fun hs => hs.of_grows h fun _ _ hb => hb⟩

instance : Std.Refl (Serves c) := ⟨fun s => .of_grows (.refl s.emitter)⟩

instance : IsTrans LowerState (Serves c) where
  trans s s' s'' h h' := {
    grows := h.grows.trans h'.grows
    vacant := fun w hw => h.vacant w (h'.vacant w hw)
    buffers := fun w b hb => by
      rcases h'.buffers w b hb with hb | ⟨hw, hsuits, hfresh⟩
      · exact h.buffers w b hb
      · exact .inr ⟨h.vacant w hw, hsuits, fun k hk => hfresh k (h.grows.held k hk)⟩
    orderly := fun hs => h'.orderly (h.orderly hs) }

theorem Straight.serves (h : s.Straight s') : s.Serves c s' := by
  obtain ⟨e, rfl, he⟩ := h
  exact .of_grows he.toGrows

theorem Keeps.serves (h : s.Keeps [o] s') (ho : o ∈ c.site.outlets) : s.Serves c s' where
  grows := h.straight.toGrows
  vacant w hw := by
    cases w with
    | inr i => exact (congrArg (fun g => g[i]?.join) h.gathered).symm.trans hw
    | inl p =>
        cases hst : s.storage.find? p with
        | none => exact hst
        | some st => exact absurd ((h.stored p st hst).symm.trans hw) nofun
  buffers w b hb := by
    rcases h.fresh w b hb with hold | hfresh
    · exact .inl hold
    cases w with
    | inr i => exact .inl ((congrArg (fun g => g[i]?.join) h.gathered).symm.trans hb)
    | inl p =>
        rw [buffer_inl] at hb ⊢
        by_cases hp : p = o.port
        · subst hp
          cases hst : s.storage.find? o.port with
          | some st => exact .inl ((h.stored _ st hst).symm.trans hb)
          | none =>
              have hsuited : s.Suited [o] := by
                intro o' ho' st hst'
                obtain rfl := List.mem_singleton.1 ho'
                cases hst.symm.trans hst'
              obtain ⟨k, hk, hty, hlen⟩ := h.suited hsuited o (List.mem_singleton_self o) _ hb
              obtain rfl := Storage.stack.inj hk
              exact .inr ⟨hst, ⟨o, ho, rfl, hty, hlen⟩, hfresh⟩
        · exact .inl ((h.storage p (Outlet.notMem_single.2 hp)).symm.trans hb)
  orderly := h.orderly

end LowerState

namespace Lower

open LowerState (Serves)

section Operations

variable {α : Type} {c : LowerContext} {s s' : LowerState} {u : Unit} {f : Fault} {i : Nat}

theorem Plain.serves {m : Lower α} (h : Plain m) : Turns Serves m := Turns.mono (fun _ _ _ h => h.serves) h

theorem serves_emit {m : Emit α} (hm : Leaves Emitter.Grows m) : Turns Serves (emit m) :=
  Turns.emit fun _ s => .of_grows (hm s.emitter)

theorem fails_run_bind {β : Type} {m : Lower β} {k : β → Lower α} :
    Fails ((m >>= k).run c) s f s' ↔ Fails (m.run c) s f s' ∨
      ∃ b t, Lowers c m s b t ∧ Fails ((k b).run c) t f s' := fails_bind

/-- A sequence whose last step changes the state, and that is all, fails before that step. -/
theorem fails_of_last {β : Type} {m : Lower β} {g : β → LowerState → LowerState}
    (h : Fails ((m >>= fun b => modify (g b) : Lower Unit).run c) s f s') : Fails (m.run c) s f s' :=
  (fails_run_bind.1 h).resolve_right fun ⟨_, _, _, h⟩ => fails_modify h

/-- An output gets a buffer when it is stored for the first time. -/
theorem serves_requireStorage (i : Nat) : Turns Serves (requireStorage i) := by
  refine fun c => .of_runs (fun s u s' h => ?_) fun s f s' h => ?_
  · obtain ⟨o, _, ho, -⟩ := lowers_bind.1 h
    obtain ⟨ho, -⟩ := lowers_outlet.1 ho
    exact (succeeds_requireStorage h ho (.single _)).1.serves (List.mem_of_getElem? ho)
  · -- The buffer is entered last, and that cannot fail.
    have hbuffer : ∀ o : Outlet, Turns Serves (outputSize i >>= fun size =>
        emit (Emit.stackBuffer o.elemType.ty size)) := fun o =>
      (Turns.outputSize i).bind fun _ => serves_emit (Emit.Notes.stackBuffer _ _)
    unfold requireStorage at h
    rcases fails_run_bind.1 h with h | ⟨o, t, ho, h⟩
    · exact (Turns.outlet i c).of_fails h
    obtain ⟨-, rfl⟩ := lowers_outlet.1 ho
    rcases fails_run_bind.1 h with h | ⟨stored, t, hstored, h⟩
    · exact (Turns.hasStorage i c).of_fails h
    obtain ⟨_, -, -, rfl⟩ := lowers_hasStorage.1 hstored
    cases stored with
    | true => exact absurd h fails_pure
    | false =>
        simp only [Bool.not_false, if_true] at h
        rw [← bind_assoc] at h
        exact (hbuffer o c).of_fails (fails_of_last h)

theorem serves_portAddress (p : Port) : Turns Serves (portAddress p) := (Plain.portAddress p).serves

theorem serves_storeOutputAt (i : Nat) (pos : Position) (v : ValueId) :
    Turns Serves (storeOutputAt i pos v) := by
  refine (Turns.outlet i).bind fun o => (serves_requireStorage i).bind fun _ =>
    (serves_portAddress _).bind fun base => ?_
  cases pos with
  | fixed n => exact serves_emit (Emit.leaves_store _ _ _)
  | computed v => exact serves_emit (Emit.leaves_storeDynamic _ _ _)

theorem serves_data (o : Outlet) (id : Code.DatumId) :
    Leaves (Serves c) ((setStorage o.port (.data id)).run c) := by
  intro s
  have hfind : ∀ p, (s.storage.insert o.port (.data id)).find? p =
      if p = o.port then some (.data id) else s.storage.find? p := fun p => Table.find?_insert ..
  have hbuffer : ∀ w b, LowerState.buffer?
      { s with storage := s.storage.insert o.port (.data id) } w = some b →
        s.buffer? w = some b := by
    intro w b hb
    cases w with
    | inr i => exact hb
    | inl p =>
        rw [LowerState.buffer_inl, hfind] at hb
        split at hb
        · cases hb
        · exact LowerState.buffer_inl.2 hb
  refine ⟨.refl _, fun w hw => ?_, fun w b hb => .inl (hbuffer w b hb),
    fun hs => hs.of_grows (.refl _) hbuffer⟩
  cases w with
  | inr i => exact hw
  | inl p =>
      have hw : (s.storage.insert o.port (.data id)).find? p = none := hw
      rw [hfind] at hw
      split at hw
      · cases hw
      · exact hw

theorem serves_run_bind {β : Type} {m : Lower β} {k : β → Lower α} (hm : Turns Serves m)
    (hk : ∀ b t, Lowers c m s b t → t.Serves c (((k b).run c).run.run t).2) :
    s.Serves c (((m >>= k).run c).run.run s).2 :=
  leaves_bind (fun _ _ _ => IsTrans.trans _ _ _) (hm c s) fun b t hb _ => hk b t hb

theorem serves_setOutputLiteral (i : Nat) (v : Values) : Turns Serves (setOutputLiteral i v) := by
  refine fun c s => serves_run_bind (.outlet i) fun o t ho => ?_
  obtain ⟨-, rfl⟩ := lowers_outlet.1 ho
  split
  · exact Std.Refl.refl _
  refine serves_run_bind (Turns.outputSize i) fun size t _ => ?_
  split
  · exact Std.Refl.refl _
  · exact serves_run_bind (serves_emit (Emit.leaves_literalData v)) fun id t _ => serves_data o id t

/-- A buffer is entered for an input that had none. -/
theorem serves_of_gatherInput (h : Lowers c (gatherInput i) s u s') : s.Serves c s' := by
  have hgathers := gathers_gatherInput h
  rcases succeeds_gatherInput h with rfl | ⟨l, t, b, e, s₂, hnone, hl, ht, hb, hcopies, rfl⟩
  · exact Std.Refl.refl _
  obtain ⟨-, hty, hlen, -, hfresh⟩ := Emit.succeeds_stackBuffer hb
  obtain ⟨e', rfl, -⟩ := (plain_copyElements i b).of_lowers hcopies
  refine ⟨hgathers.straight.toGrows, fun w hw => ?_, fun w k hk => ?_,
    hgathers.orderly⟩
  · cases w with
    | inl p => exact hw
    | inr j =>
        have hw : (s.gathered.set i (some b))[j]?.join = none := hw
        rw [join_set_getElem?] at hw
        split at hw
        · cases hw
        · exact hw
  · cases w with
    | inl p => exact .inl hk
    | inr j =>
        have hk : (s.gathered.set i (some b))[j]?.join = some k := hk
        rw [join_set_getElem?] at hk
        split at hk
        case isTrue hj =>
          obtain rfl := Option.some.inj hk
          obtain rfl := hj.1
          exact .inr ⟨hnone, ⟨l, t, hl, ht, hty, hlen⟩, hfresh⟩
        case isFalse => exact .inl hk

theorem serves_gatherInput (i : Nat) : Turns Serves (gatherInput i) := by
  refine fun c => .of_runs (fun s u s' h => serves_of_gatherInput h) fun s f s' h => ?_
  unfold gatherInput at h
  rcases fails_run_bind.1 h with h | ⟨s₀, _, hget, h⟩
  · exact absurd h fails_get
  obtain ⟨rfl, rfl⟩ := lowers_get.1 hget
  split at h
  · exact absurd h fails_pure
  rcases fails_run_bind.1 h with h | ⟨contiguous, t, hcontiguous, h⟩
  · exact (Turns.inputIsContiguous i c).of_fails h
  refine IsTrans.trans _ _ _ ((Turns.inputIsContiguous i c).of_succeeds hcontiguous) ?_
  split at h
  · exact absurd h fails_pure
  rcases fails_run_bind.1 h with h | ⟨ty, t₁, hty, h⟩
  · exact (Turns.inputType i c).of_fails h
  refine IsTrans.trans _ _ _ ((Turns.inputType i c).of_succeeds hty) ?_
  rcases fails_run_bind.1 h with h | ⟨size, t₂, hsize, h⟩
  · exact (Turns.inputSize i c).of_fails h
  refine IsTrans.trans _ _ _ ((Turns.inputSize i c).of_succeeds hsize) ?_
  rcases fails_run_bind.1 h with h | ⟨b, t₃, hb, h⟩
  · exact (serves_emit (Emit.Notes.stackBuffer _ _) c).of_fails h
  exact IsTrans.trans _ _ _ ((serves_emit (Emit.Notes.stackBuffer _ _) c).of_succeeds hb)
    (((plain_copyElements i b).serves c).of_fails (fails_of_last h))

theorem serves_gatherInputs : Turns Serves gatherInputs :=
  Turns.site.bind fun _ => .forM serves_gatherInput

theorem serves_remark (r : Remark) : Turns Serves (remark r) := fun _ s =>
  ⟨.refl s.emitter, fun _ hw => hw, fun _ _ hb => .inl hb,
    fun hs => hs.of_grows (.refl _) fun _ _ hb => hb⟩

end Operations

end Lower

namespace LowerState

structure Aside (own : List StackBuffer) (s : LowerState) : Prop where
  held : ∀ b ∈ own, s.emitter.Held b
  apart : ∀ b ∈ own, ∀ w k, s.buffer? w = some k → k.slot ≠ b.slot
  distinct : (own.map (·.slot)).Nodup

def Fresh (own : List StackBuffer) (s : LowerState) (slot : Code.Slot) : Prop :=
  ∀ k, s.emitter.Held k → k.slot ∉ own.map (·.slot) → k.slot ≠ slot

structure Attends (c : LowerContext) (own : List StackBuffer) (s s' : LowerState) : Prop where
  passes : s.emitter.Passes s'.emitter
  tidy : s.emitter.Tidy → s'.emitter.Tidy
  vacant : ∀ w, s'.Vacant w → s.Vacant w
  held : s.Orderly → s.Aside own → ∀ k, s.emitter.Held k → k.slot ∉ own.map (·.slot) →
    s'.emitter.Held k
  buffers : s.Orderly → s.Aside own → ∀ w b, s'.buffer? w = some b →
    s.buffer? w = some b ∨ s.Vacant w ∧ c.Suits w b ∧ s.Fresh own b.slot
  orderly : s.Orderly → s.Aside own → s'.Orderly

variable {c : LowerContext} {own mid left rest : List StackBuffer} {s s' s'' : LowerState}

theorem aside_nil : s.Aside [] := ⟨nofun, nofun, List.nodup_nil⟩

theorem Serves.attends (h : s.Serves c s') : s.Attends c [] s' where
  passes := h.grows.passes
  tidy := h.grows.tidy
  vacant := h.vacant
  held _ _ k hk _ := h.grows.held k hk
  buffers _ _ w b hb := (h.buffers w b hb).imp_right fun ⟨hw, hsuits, hfresh⟩ =>
    ⟨hw, hsuits, fun k hk _ => hfresh k hk⟩
  orderly hs _ := h.orderly hs

/-- What is in use and is not given back is in use later on, and not to be given back then. -/
theorem Attends.carries (h : s.Attends c own s') (hs : s.Orderly) (ho : s.Aside own)
    (hmid : ∀ b ∈ mid, s.Fresh own b.slot) {k : StackBuffer} (hk : s.emitter.Held k)
    (hown : k.slot ∉ own.map (·.slot)) : s'.emitter.Held k ∧ k.slot ∉ mid.map (·.slot) := by
  refine ⟨h.held hs ho k hk hown, fun hmem => ?_⟩
  obtain ⟨b, hb, hslot⟩ := List.mem_map.1 hmem
  exact hmid b hb k hk hown hslot.symm

theorem Attends.trans (h : s.Attends c own s') (h' : s'.Attends c mid s'')
    (hmid : s.Orderly → s.Aside own → s'.Aside mid ∧ ∀ b ∈ mid, s.Fresh own b.slot) :
    s.Attends c own s'' where
  passes := h.passes.trans h'.passes
  tidy ht := h'.tidy (h.tidy ht)
  vacant w hw := h.vacant w (h'.vacant w hw)
  held hs ho k hk hown := by
    obtain ⟨haside, hfresh⟩ := hmid hs ho
    obtain ⟨hk', hmid'⟩ := h.carries hs ho hfresh hk hown
    exact h'.held (h.orderly hs ho) haside k hk' hmid'
  buffers hs ho w b hb := by
    obtain ⟨haside, hfresh⟩ := hmid hs ho
    rcases h'.buffers (h.orderly hs ho) haside w b hb with hb | ⟨hw, hsuits, hfresh'⟩
    · exact h.buffers hs ho w b hb
    · refine .inr ⟨h.vacant w hw, hsuits, fun k hk hown => ?_⟩
      obtain ⟨hk', hmid'⟩ := h.carries hs ho hfresh hk hown
      exact hfresh' k hk' hmid'
  orderly hs ho := h'.orderly (h.orderly hs ho) (hmid hs ho).1

instance : Std.Refl (Attends c []) := ⟨fun s => Serves.attends (Std.Refl.refl s)⟩

instance : IsTrans LowerState (Attends c []) :=
  ⟨fun _ _ _ h h' => h.trans h' fun _ _ => ⟨aside_nil, nofun⟩⟩

theorem Aside.of_append (h : s.Aside (own ++ rest)) : s.Aside own :=
  ⟨fun b hb => h.held b (List.mem_append_left _ hb), fun b hb => h.apart b (List.mem_append_left _ hb),
    (List.nodup_append.1 (List.map_append ▸ h.distinct)).1⟩

/-- Buffers that are to be given back later are left alone until then. -/
theorem Attends.frame (h : s.Attends c own s') (rest : List StackBuffer) :
    s.Attends c (own ++ rest) s' where
  passes := h.passes
  tidy := h.tidy
  vacant := h.vacant
  held hs ho k hk hown :=
    h.held hs ho.of_append k hk fun hmem => hown (by rw [List.map_append]; exact List.mem_append_left _ hmem)
  buffers hs ho w b hb := (h.buffers hs ho.of_append w b hb).imp_right fun ⟨hw, hsuits, hfresh⟩ =>
    ⟨hw, hsuits, fun k hk hown => hfresh k hk fun hmem => hown (by
      rw [List.map_append]; exact List.mem_append_left _ hmem)⟩
  orderly hs ho := h.orderly hs ho.of_append

theorem Aside.frame (ho : s.Aside (own ++ rest)) (hs : s.Orderly) (h : s.Attends c own s')
    (hleft : s'.Aside left) (hfresh : ∀ b ∈ left, s.Fresh own b.slot) : s'.Aside (left ++ rest) := by
  have hnodup : (own.map (·.slot) ++ rest.map (·.slot)).Nodup := List.map_append ▸ ho.distinct
  obtain ⟨-, hrest, hdisjoint⟩ := List.nodup_append.1 hnodup
  have hheld : ∀ b ∈ rest, s.emitter.Held b := fun b hb => ho.held b (List.mem_append_right _ hb)
  have hown : ∀ b ∈ rest, b.slot ∉ own.map (·.slot) := fun b hb hmem =>
    hdisjoint _ hmem _ (List.mem_map_of_mem hb) rfl
  refine ⟨fun b hb => ?_, fun b hb w k hk => ?_, ?_⟩
  · rcases List.mem_append.1 hb with hb | hb
    · exact hleft.held b hb
    · exact h.held hs ho.of_append b (hheld b hb) (hown b hb)
  · rcases List.mem_append.1 hb with hb' | hb'
    · exact hleft.apart b hb' w k hk
    · rcases h.buffers hs ho.of_append w k hk with hk | ⟨-, -, hnew⟩
      · exact ho.apart b (List.mem_append_right _ hb') w k hk
      · exact (hnew b (hheld b hb') (hown b hb')).symm
  · rw [List.map_append, List.nodup_append]
    refine ⟨hleft.distinct, hrest, fun i hi j hj => ?_⟩
    obtain ⟨b, hb, rfl⟩ := List.mem_map.1 hi
    obtain ⟨b', hb', rfl⟩ := List.mem_map.1 hj
    exact (hfresh b hb b' (hheld b' hb') (hown b' hb')).symm

theorem Aside.of_subperm (h : s.Aside own) (hsub : left.Subperm own) : s.Aside left :=
  ⟨fun b hb => h.held b (hsub.subset hb), fun b hb => h.apart b (hsub.subset hb),
    by
      obtain ⟨l, hperm, hsublist⟩ := hsub
      exact (hperm.map _).nodup_iff.1 (h.distinct.sublist (hsublist.map _))⟩

end LowerState

namespace Lower

open LowerState (Attends)

variable {α β : Type} {own rest : List StackBuffer} {m : Lower α} {left left' : α → List StackBuffer}

/-- What becomes of code that may give the buffers `own` back. When it succeeds, the buffers `left` may
be given back. -/
structure Behaves (own : List StackBuffer) (m : Lower α) (left : α → List StackBuffer) : Prop where
  attends : ∀ (c : LowerContext) (s : LowerState), s.Attends c own ((m.run c).run.run s).2
  leaves : ∀ (c : LowerContext) (s : LowerState) (a : α) (s' : LowerState), Lowers c m s a s' → s.Orderly → s.Aside own →
    s'.Aside (left a) ∧ ∀ b ∈ left a, s.Fresh own b.slot

theorem behaves_of_turns (h : Turns (fun c => Attends c []) m) : Behaves [] m fun _ => [] :=
  ⟨h, fun _ _ _ _ _ _ _ => ⟨LowerState.aside_nil, nofun⟩⟩

theorem behaves_of_serves (h : Turns LowerState.Serves m) : Behaves [] m fun _ => [] :=
  behaves_of_turns (h.mono fun _ _ _ => LowerState.Serves.attends)

namespace Behaves

theorem of_lowers (h : Behaves own m left) {c : LowerContext} {s s' : LowerState} {a : α}
    (hm : Lowers c m s a s') : s.Attends c own s' := by
  have hs := h.attends c s
  rwa [show (m.run c).run.run s = (.ok a, s') from hm] at hs

theorem bind {m : Lower β} {k : β → Lower α} {mid : β → List StackBuffer} (hm : Behaves own m mid)
    (hk : ∀ b, Behaves (mid b) (k b) left) : Behaves own (m >>= k) left where
  attends c s := by
    have hs := hm.attends c s
    change s.Attends c own ((m.run c >>= fun b => (k b).run c).run.run s).2
    rw [run_bind]
    rcases hrun : (m.run c).run.run s with ⟨r, t⟩
    rw [hrun] at hs
    cases r with
    | error f => exact hs
    | ok b => exact hs.trans ((hk b).attends c t) (hm.leaves c s b t hrun)
  leaves c s a s' h hs ho := by
    obtain ⟨b, t, hb, ha⟩ := lowers_bind.1 h
    have hattends := hm.of_lowers hb
    obtain ⟨hmid, hfresh⟩ := hm.leaves c s b t hb hs ho
    obtain ⟨hleft, hfresh'⟩ := (hk b).leaves c t a s' ha (hattends.orderly hs ho) hmid
    refine ⟨hleft, fun j hj k hk hown => ?_⟩
    obtain ⟨hk', hmid'⟩ := hattends.carries hs ho hfresh hk hown
    exact hfresh' j hj k hk' hmid'

theorem frame (h : Behaves own m left) (rest : List StackBuffer) :
    Behaves (own ++ rest) m fun a => left a ++ rest where
  attends c s := (h.attends c s).frame rest
  leaves c s a s' hm hs ho := by
    obtain ⟨hleft, hfresh⟩ := h.leaves c s a s' hm hs ho.of_append
    refine ⟨ho.frame hs (h.of_lowers hm) hleft hfresh, fun b hb k hk hown => ?_⟩
    rw [List.map_append, List.mem_append, not_or] at hown
    rcases List.mem_append.1 hb with hb | hb
    · exact hfresh b hb k hk hown.1
    · exact fun hslot => hown.2 (hslot ▸ List.mem_map_of_mem hb)

theorem forget (h : Behaves own m left) (hsub : ∀ a, (left' a).Subperm (left a)) :
    Behaves own m left' where
  attends := h.attends
  leaves c s a s' hm hs ho := by
    obtain ⟨hleft, hfresh⟩ := h.leaves c s a s' hm hs ho
    exact ⟨hleft.of_subperm (hsub a), fun b hb => hfresh b ((hsub a).subset hb)⟩

/-- A refusal that is recovered from leaves it open which buffers have been given back. -/
theorem attempt (h : Behaves own m left) : Behaves own (attempt m) fun _ => [] where
  attends c s := by
    have hs := h.attends c s
    have hstate : (((Lower.attempt m).run c).run.run s).2 = ((m.run c).run.run s).2 := by
      change ((tryCatchThe Fault (Except.ok <$> m.run c) fun f => Pure.pure (.error f)).run.run s).2 = _
      rw [run_tryCatch, ← snd_run_map (m.run c) Except.ok]
      rcases (Except.ok <$> m.run c : ExceptT Fault (StateM LowerState) (Except Fault α)).run.run s
        with ⟨_ | _, t⟩ <;> rfl
    rwa [hstate]
  leaves _ _ _ _ _ _ _ := ⟨LowerState.aside_nil, nofun⟩

theorem take (t : Code.Ty) (n : Nat) : Behaves [] (emit (Emit.stackBuffer t n)) fun b => [b] where
  attends c s := (serves_emit (Emit.Notes.stackBuffer t n) c s).attends
  leaves c s b s' h hs _ := by
    obtain ⟨e, hb, rfl⟩ := lowers_emit.1 h
    obtain ⟨-, -, -, hheld, hfresh⟩ := Emit.succeeds_stackBuffer hb
    refine ⟨⟨?_, ?_, List.nodup_singleton _⟩, ?_⟩
    · exact List.forall_mem_singleton.2 (hheld hs.tidy)
    · exact List.forall_mem_singleton.2 fun w k hk => hfresh k (hs.held w k hk)
    · exact List.forall_mem_singleton.2 fun k hk _ => hfresh k hk

theorem giveBack (b : StackBuffer) : Behaves [b] (emit (Emit.releaseBuffer b)) fun _ => [] where
  attends := Turns.emit fun c s => by
    have hfrees : s.emitter.Frees [b.slot] ((Emit.releaseBuffer b).run.run s.emitter).2 := by
      rcases succeeds_or_fails (Emit.releaseBuffer b) s.emitter with ⟨_, h⟩ | ⟨_, h⟩
      · exact Emit.succeeds_releaseBuffer h (List.mem_singleton_self b.slot)
      · exact (Emit.fails_release.1 h).2 ▸ .refl s.emitter
    refine ⟨hfrees.passes, hfrees.tidy, fun _ hw => hw, fun _ _ => hfrees.held,
      fun _ _ _ _ hb => .inl hb, fun hs ho => hs.of_frees hfrees fun w k hk => ⟨hk, ?_⟩⟩
    exact fun hmem => ho.apart b (List.mem_singleton_self b) w k hk (List.mem_singleton.1 hmem)
  leaves _ _ _ _ _ _ _ := ⟨LowerState.aside_nil, nofun⟩

end Behaves

/-- In a loop or unrolled, what is kept for each element is kept for all of them. -/
theorem attends_forEach (n : Nat) {body : Position → Lower Unit}
    (hbody : ∀ pos, Turns (fun c => Attends c []) (body pos)) :
    Turns (fun c => Attends c []) (forEach n body) := by
  have hemit {γ : Type} {m : Emit γ} (hm : Leaves Emitter.Grows m) :
      Turns (fun c => Attends c []) (Lower.emit m) :=
    (serves_emit hm).mono fun _ _ _ => LowerState.Serves.attends
  refine (hemit Emit.leaves_settings).bind fun t => ?_
  refine .ite (.forM fun i => hbody (.fixed i))
    ((serves_gatherInputs.mono fun _ _ _ => LowerState.Serves.attends).bind fun _ => .refuse ?_)
  exact (hemit (Emit.leaves_beginRange _ _ _ _)).bind fun l =>
    (hemit (Emit.leaves_counter l)).bind fun i => (hbody (.computed i)).bind fun _ =>
      (hemit (Emit.leaves_finish fun _ _ => ⟨Emit.leaves_switchTo _, Emit.leaves_switchTo _,
        fun hslot => Emit.grows_release hslot⟩)).bind fun _ => .pure _

/-- Whatever comes of code that uses buffers of its own, it keeps what belongs to others. -/
theorem Uses.behaves (h : Uses own m left) : Behaves own m left := by
  induction h with
  | look hm =>
      refine behaves_of_serves (hm.mono ?_)
      rintro c s _ rfl
      exact Std.Refl.refl s
  | remark r => exact behaves_of_serves (serves_remark r)
  | emit hm => exact behaves_of_serves (serves_emit hm.grows)
  | inputAt i pos => exact behaves_of_serves (Plain.inputAt i pos).serves
  | storeOutputAt i pos v => exact behaves_of_serves (serves_storeOutputAt i pos v)
  | setOutputLiteral i v => exact behaves_of_serves (serves_setOutputLiteral i v)
  | forEach n _ hbody => exact behaves_of_turns (attends_forEach n fun pos => (hbody pos).attends)
  | take t n => exact .take t n
  | giveBack b => exact .giveBack b
  | bind _ _ hm hk => exact hm.bind hk
  | attempt _ hm => exact hm.attempt
  | frame _ rest hm => exact hm.frame rest
  | forget _ hsub hm => exact hm.forget hsub

namespace Regular

theorem attends (h : Regular m) : Turns (fun c => Attends c []) m := (Uses.behaves h).attends

theorem bind {m : Lower β} {k : β → Lower α} (hm : Regular m) (hk : ∀ b, Regular (k b)) :
    Regular (m >>= k) := Uses.bind hm hk

theorem look (hm : Turns (fun _ => Eq) m) : Regular m := Uses.look hm

theorem inputAt (i : Nat) (pos : Position) : Regular (Lower.inputAt i pos) := Uses.inputAt i pos

theorem withScratch (t : Code.Ty) (n : Nat) {body : StackBuffer → Lower α}
    (hbody : ∀ b, Regular (body b)) : Regular (Lower.withScratch t n body) :=
  Uses.bind (.take t n) fun b => .bind ((hbody b).frame [b]) fun _ =>
    .bind (.giveBack b) fun _ => .look (.pure _)

theorem pure (a : α) : Regular (Pure.pure a : Lower α) := .look (.pure a)

theorem throw (f : Fault) : Regular (MonadExcept.throw f : Lower α) := .look (.throw f)

theorem forM {β : Type} {xs : List β} {f : β → Lower Unit} (hf : ∀ x, Regular (f x)) :
    Regular (xs.forM f) := by
  induction xs with
  | nil => exact pure _
  | cons x xs ih => exact (hf x).bind fun _ => ih

theorem literal (l : Code.Literal) : Regular (Lower.emit (Emit.literal l)) :=
  .emit (.of_value (.literal l) rfl rfl)

theorem lowerEach {element : Position → Lower ValueId} (h : ∀ pos, Regular (element pos)) :
    Regular (Builtin.lowerEach element) :=
  (look (.outputSize 0)).bind fun _ => .forEach _ fun pos => (h pos).bind fun _ => .storeOutputAt _ _ _

end Regular

end Lower

open Lower (Regular) in
/-- Every built-in node is lowered by regular code. -/
theorem Builtin.regular_lower (b : Builtin) : Regular b.lower := by
  cases b with
  | input t size =>
      refine .bind (.look (.hasStorage 0)) fun stored => ?_
      cases stored with
      | true => exact .pure _
      | false => exact .bind (.look .site) fun _ => .throw _
  | constant values => exact .setOutputLiteral _ _
  | binary t op x y =>
      exact .lowerEach fun pos => (Regular.inputAt 0 pos).bind fun _ => (Regular.inputAt 1 pos).bind
        fun _ => .emit (.of_value (.operator op _ _) rfl rfl)
  | predicate t op x y =>
      exact .lowerEach fun pos => (Regular.inputAt 0 pos).bind fun _ => (Regular.inputAt 1 pos).bind
        fun _ => .emit (.of_value (.compare op _ _) rfl rfl)
  | unary t op x =>
      exact .lowerEach fun pos => (Regular.inputAt 0 pos).bind fun _ =>
        .emit (.of_value (.unary op _) rfl rfl)
  | sum t x =>
      refine (Regular.look (.inputSize 0)).bind fun n => (Regular.literal _).bind fun zero =>
        .bind (.emit (.of_call (.localVar zero) rfl rfl (fun | .var x => x | _ => ⟨0⟩) fun _ => rfl))
          fun total => .bind (.forEach n fun pos => (Regular.inputAt 0 pos).bind fun v => .emit ?_)
            fun _ => .bind (.emit (.of_value (.getVar total) rfl rfl)) fun _ => .storeOutputAt _ _ _
      exact .bind (.of_value (.getVar total) rfl rfl) fun sum =>
        .bind (.of_value (.operator .add sum v) rfl rfl) fun sum =>
          .of_call (.setVar total sum) rfl rfl (fun _ => ()) fun _ => rfl
  | cast t target x =>
      exact .lowerEach fun pos => (Regular.inputAt 0 pos).bind fun _ =>
        .emit (.of_value (.cast _ target.ty) rfl rfl)

open Lower (Regular) in
theorem LowerAction.regular_perform (a : LowerAction) : Regular a.perform := by
  cases a with
  | copy input output =>
      exact (Regular.look (.inputSize input)).bind fun _ => .forEach _ fun pos =>
        (Regular.inputAt input pos).bind fun _ => .storeOutputAt _ _ _
  | double input output =>
      exact (Regular.look (.inputSize input)).bind fun _ => .forEach _ fun pos =>
        (Regular.inputAt input pos).bind fun v =>
          .bind (.emit (.of_value (.operator .add v v) rfl rfl)) fun _ => .storeOutputAt _ _ _
  | literal output values => exact .setOutputLiteral _ _
  | store output index value => exact (Regular.literal _).bind fun _ => .storeOutputAt _ _ _
  | element input index output target =>
      exact (Regular.inputAt input _).bind fun _ => .storeOutputAt _ _ _
  | noteContext =>
      exact .bind (.look .context) fun _ => .bind (.emit (.look Emit.leaves_settings)) fun _ =>
        .remark _
  | noteInput input =>
      exact .bind (.attempt (.look (.inputSize _))) fun _ =>
        .bind (.attempt (.look (.inputType _))) fun _ =>
          .bind (.attempt (.look (.inputIsContiguous _))) fun _ => .remark _
  | noteOutput output =>
      exact .bind (.attempt (.look (.outputSize _))) fun _ =>
        .bind (.attempt (.look (.outputType _))) fun _ =>
          .bind (.attempt (.look (.hasStorage _))) fun _ => .remark _
  | noteLoad input index => exact .bind (.attempt (.inputAt _ _)) fun _ => .remark _
  | noteDynamicLoad input index =>
      exact (Regular.literal _).bind fun _ => .bind (.attempt (.inputAt _ _)) fun _ => .remark _
  | unknown => exact .throw _

/-- Scripts are lowered by regular code, too. -/
theorem Script.regular_lower (s : Script) : Lower.Regular s.toNode.lower := by
  unfold Script.toNode
  cases s.lower with
  | some actions => exact .forM LowerAction.regular_perform
  | none => exact .throw _

end Dataflow
