import Dataflow.Proofs.Code.LoopProgress
import Dataflow.Proofs.Lower.Node

/-!
# Lowering goes on

As long as the ports that a node reads have storage and no port is so large that an offset in it
could leave the range of offsets, every operation by which a node is lowered ends with a result.
Straight-line code can be emitted anywhere, loops in a block that no run gets past.
-/

namespace Dataflow

open Code (CountedLoop Emit Emitter StackBuffer Ty ValueId VarId)

namespace LowerState

structure Able (s : LowerState) : Prop where
  proper : s.emitter.Proper
  orderly : s.Orderly
  arguments : ∀ p v, s.storage.find? p = some (.argument v) →
    v.index < s.emitter.body.args.length ∧ s.emitter.typing.Has v .ptr
  data : ∀ p id, s.storage.find? p = some (.data id) → id.index < s.emitter.declarations.data.size

structure Enlarges (s s' : LowerState) : Prop where
  grows : s.emitter.Grows s'.emitter
  storage : ∀ p st, s.storage.find? p = some st → s'.storage.find? p = some st

def Obtains (s : LowerState) (t : Ty) (v : ValueId) (s' : LowerState) : Prop :=
  ∃ e, s' = { s with emitter := e } ∧ s.emitter.Proceeds e ∧ e.Sees v t

variable {s s' s'' : LowerState} {e : Emitter} {os : List Outlet}

theorem Enlarges.refl (s : LowerState) : s.Enlarges s := ⟨.refl _, fun _ _ h => h⟩

theorem Enlarges.trans (h : s.Enlarges s') (h' : s'.Enlarges s'') : s.Enlarges s'' :=
  ⟨h.grows.trans h'.grows, fun p st hst => h'.storage p st (h.storage p st hst)⟩

theorem Enlarges.of_grows (h : s.emitter.Grows e) : s.Enlarges { s with emitter := e } :=
  ⟨h, fun _ _ h => h⟩

theorem Keeps.enlarges (h : s.Keeps os s') : s.Enlarges s' := ⟨h.straight.toGrows, h.stored⟩

/-- Storage that was there before can still be addressed. -/
theorem Able.of_grows (h : s.Able) (hg : s.emitter.Grows s'.emitter) (he : s'.emitter.Proper)
    (hs : s'.Orderly) (hstorage : ∀ p st, s'.storage.find? p = some st → (∀ b, st ≠ .stack b) →
      s.storage.find? p = some st) : s'.Able where
  proper := he
  orderly := hs
  arguments p v hv := by
    obtain ⟨hlt, htype⟩ := h.arguments p v (hstorage p _ hv nofun)
    exact ⟨hg.body.args ▸ hlt, hg.body.valueTypes _ _ htype⟩
  data p id hid :=
    (h.data p id (hstorage p _ hid nofun)).trans_le hg.declarations.data.size_le

theorem Able.proceeds (h : s.Able) (hp : s.emitter.Proceeds e) : Able { s with emitter := e } :=
  h.of_grows hp.toGrows hp.proper (h.orderly.of_grows hp.toGrows fun _ _ hb => hb)
    fun _ _ hst _ => hst

end LowerState

/-- What an inlet reads has storage, and no offset of its elements is out of range. -/
structure Inlet.Stored (l : Inlet) (t : ElemType) (storage : Table Port Storage) : Prop where
  types : ∀ a ∈ l.selection.spans, a.elemType = t
  ports : ∀ a ∈ l.selection.spans, ∃ st, storage.find? a.port = some st
  reach : ∀ a ∈ l.selection.spans, a.stop ≤ 2 ^ 28
  size : l.selection.size ≤ 2 ^ 28

theorem Inlet.Stored.mono {l : Inlet} {t : ElemType} {s s' : LowerState}
    (h : l.Stored t s.storage) (hs : s.Enlarges s') : l.Stored t s'.storage :=
  ⟨h.types, fun a ha => (h.ports a ha).imp (hs.storage _), h.reach, h.size⟩

theorem Inlet.Stored.elemType? {l : Inlet} {t : ElemType} {storage : Table Port Storage}
    (h : l.Stored t storage) (hpos : 0 < l.selection.size) : l.selection.elemType? = some t := by
  obtain ⟨name, ⟨spans⟩⟩ := l
  cases spans with
  | nil => cases hpos
  | cons a spans =>
      have ha := h.types a (by simp)
      simp [Selection.elemType?, ha]

theorem Inlet.Stored.exists_cell {l : Inlet} {t : ElemType} {storage : Table Port Storage} {n : Nat}
    (h : l.Stored t storage) (hn : n < l.selection.size) : ∃ cell st, l.selection.cell n = .ok cell ∧
      storage.find? cell.port = some st ∧ cell.index < 2 ^ 28 := by
  have hcells : n < l.selection.cells.length := by rwa [Selection.length_cells]
  obtain ⟨a, ha, hcell⟩ := List.mem_flatMap.1 (List.getElem_mem hcells)
  obtain ⟨st, hst⟩ := h.ports a ha
  obtain ⟨k, hk, heq⟩ := List.mem_map.1 hcell
  refine ⟨_, st, Selection.cell_eq_ok_iff.2 (List.getElem?_eq_getElem hcells), ?_, ?_⟩
  · rw [← heq]
    exact hst
  · have hstop := h.reach a ha
    have hlt := (List.mem_range'_1.1 hk).2
    rw [← heq]
    exact hlt.trans_le hstop

def LowerState.InPiece (s : LowerState) (i : Nat) (l : Inlet) : Prop :=
  (∃ b, s.gathered[i]?.join = some b) ∨ l.selection.spans.length ≤ 1

namespace Position

def Reads (s : LowerState) (i : Nat) (l : Inlet) : Position → Prop
  | fixed n => n < l.selection.size
  | computed v => s.emitter.Sees v .i32 ∧ 0 < l.selection.size ∧ s.InPiece i l

def Writes (s : LowerState) : Position → Prop
  | fixed k => k < 2 ^ 28
  | computed v => s.emitter.Sees v .i32

def Within (c : LowerContext) (s : LowerState) (n : Nat) : Position → Prop
  | fixed k => k < n
  | computed v => s.emitter.Sees v .i32 ∧ 0 < n ∧
      ∀ (i : Nat) (l : Inlet), c.site.inlets[i]? = some l → s.InPiece i l

variable {c : LowerContext} {s : LowerState} {e : Emitter} {n i : Nat} {l : Inlet} {pos : Position}

theorem Within.reads (h : pos.Within c s n) (hl : c.site.inlets[i]? = some l)
    (hn : n ≤ l.selection.size) : pos.Reads s i l := by
  cases pos with
  | fixed k => exact Nat.lt_of_lt_of_le h hn
  | computed v => exact ⟨h.1, h.2.1.trans_le hn, h.2.2 i l hl⟩

theorem Within.writes (h : pos.Within c s n) (hn : n ≤ 2 ^ 28) (he : s.emitter.Straight e) :
    pos.Writes { s with emitter := e } := by
  cases pos with
  | fixed k => exact Nat.lt_of_lt_of_le h hn
  | computed v => exact h.1.mono he

theorem Reads.mono (h : pos.Reads s i l) (he : s.emitter.Straight e) :
    pos.Reads { s with emitter := e } i l := by
  cases pos with
  | fixed k => exact h
  | computed v => exact ⟨h.1.mono he, h.2⟩

end Position

theorem Code.Ty.size_le (t : Ty) : t.size ≤ 8 := by cases t <;> decide

namespace Lower

variable {α β : Type}

def Completes (c : LowerContext) (m : Lower α) (s : LowerState) (Q : α → LowerState → Prop) : Prop :=
  Ends (m.run c) s Q

namespace Completes

variable {c : LowerContext} {s : LowerState} {Q R : α → LowerState → Prop}
  {P : β → LowerState → Prop}

theorem imp {m : Lower α} (h : Completes c m s Q) (hQ : ∀ a s', Q a s' → R a s') :
    Completes c m s R := Ends.imp h hQ

theorem of_lowers {m : Lower α} (h : Completes c m s Q)
    (hR : ∀ a s', Lowers c m s a s' → Q a s' → R a s') : Completes c m s R := Ends.of_succeeds h hR

theorem pure {a : α} (h : Q a s) : Completes c (Pure.pure a) s Q := Ends.pure h

theorem bind {m : Lower β} {f : β → Lower α} (hm : Completes c m s P)
    (hf : ∀ b s', P b s' → Completes c (f b) s' Q) : Completes c (m >>= f) s Q := Ends.bind hm hf

theorem after {m : Lower β} {f : β → Lower α} {b : β} {t : LowerState} (hm : Lowers c m s b t)
    (hf : Completes c (f b) t Q) : Completes c (m >>= f) s Q := Ends.after hm hf

theorem emit {m : Emit α} {P : α → Emitter → Prop} (hm : Ends m s.emitter P)
    (hQ : ∀ a e, P a e → Q a { s with emitter := e }) : Completes c (Lower.emit m) s Q := by
  obtain ⟨a, e, hm, ha⟩ := hm
  exact ⟨a, _, lowers_emit.2 ⟨e, hm, rfl⟩, hQ a e ha⟩

theorem value {m : Emit ValueId} {t : Ty}
    (hm : Ends m s.emitter fun v e => s.emitter.Proceeds e ∧ e.Sees v t) :
    Completes c (Lower.emit m) s (s.Obtains t) := emit hm fun _ e h => ⟨e, rfl, h⟩

theorem refuse {p : Prop} [Decidable p] {f : Fault} {k : β → Lower α} {m : Lower α} (hp : ¬ p)
    (h : Completes c m s Q) : Completes c (if p then throw f >>= k else m) s Q := by
  rwa [if_neg hp]

/-- What every step keeps, given how many steps came before, is kept by all of them. -/
theorem range {I : Nat → LowerState → Prop} {f : Nat → Lower Unit} {n : Nat} (hs : I 0 s)
    (hf : ∀ i < n, ∀ s, I i s → Completes c (f i) s fun _ => I (i + 1)) :
    Completes c ((List.range n).forM f) s fun _ => I n := by
  induction n with
  | zero => exact pure hs
  | succ n ih =>
      rw [List.range_succ, List.forM_eq_forM, List.forM_append]
      refine (ih fun i hi => hf i (Nat.lt_succ_of_lt hi)).bind fun _ s' hs' => ?_
      exact (hf n (Nat.lt_succ_self n) s' hs').bind fun _ _ h => pure h

end Completes

section Access

variable {c : LowerContext} {s : LowerState} {e : Emitter} {o : Outlet} {l : Inlet} {t : ElemType}
  {i n : Nat} {p : Port} {v : ValueId}

theorem ends_address (hs : s.Able) {st : Storage} (hp : s.storage.find? p = some st) :
    Ends (address s.storage p) s.emitter fun v e => s.emitter.Proceeds e ∧ e.Sees v .ptr := by
  unfold address
  rw [hp]
  cases st with
  | argument v =>
      obtain ⟨hlt, htype⟩ := hs.arguments p v hp
      exact .pure ⟨.refl hs.proper, htype, Or.inl hlt⟩
  | stack b => exact Emit.ends_bufferAddress hs.proper (hs.orderly.held _ b (LowerState.buffer_inl.2 hp))
  | data id => exact Emit.ends_dataAddress hs.proper (hs.data p id hp)

theorem completes_portAddress (hs : s.Able) {st : Storage} (hp : s.storage.find? p = some st) :
    Completes c (portAddress p) s (s.Obtains .ptr) :=
  .after (lowers_get.2 ⟨rfl, rfl⟩) (.value (ends_address hs hp))

theorem ends_moved (he : e.Proper) (hv : e.Sees v .i32) (hn : n < 2 ^ 31) :
    Ends (moved v n) e fun w e' => e.Proceeds e' ∧ e'.Sees w .i32 := by
  unfold moved
  split
  · exact .pure ⟨.refl he, hv⟩
  · rw [if_pos (show n < 0x80000000 from hn)]
    refine (Emit.ends_literal he _).bind fun w e₁ ⟨h₁, hw⟩ => ?_
    exact (Emit.ends_binary h₁.proper (hv.mono h₁.toStraight) hw rfl).imp
      fun _ _ ⟨h₂, hx⟩ => ⟨h₁.trans h₂, hx⟩

/-- An element of an inlet can be loaded. -/
theorem completes_inputAt (hs : s.Able) (hl : c.site.inlets[i]? = some l)
    (hstored : l.Stored t s.storage) {pos : Position} (hpos : pos.Reads s i l) :
    Completes c (inputAt i pos) s (s.Obtains t.ty) := by
  have hsize := t.ty.size_le
  have hsome : 0 < l.selection.size := by
    cases pos with
    | fixed n => exact Nat.zero_lt_of_lt hpos
    | computed v => exact hpos.2.1
  have htype : Lowers c (inputType i) s t s := lowers_inputType.2 ⟨l, hl, hstored.elemType? hsome, rfl⟩
  refine .after (lowers_inlet.2 ⟨hl, rfl⟩) (.after htype ?_)
  cases pos with
  | fixed n =>
      obtain ⟨cell, st, hcell, hst, hlt⟩ := hstored.exists_cell hpos
      refine .after (lowers_check.2 ⟨hcell, rfl⟩) ?_
      refine (completes_portAddress hs hst).bind fun base s₁ h => ?_
      obtain ⟨e₁, rfl, h₁, hbase⟩ := h
      refine .emit (Emit.ends_load h₁.proper hbase ?_) fun v e₂ h => ⟨e₂, rfl, h₁.trans h.1, h.2⟩
      exact (Nat.mul_le_mul_left _ hsize).trans_lt (by omega)
  | computed v =>
      obtain ⟨hv, -, hpiece⟩ := hpos
      refine .after (lowers_get.2 ⟨rfl, rfl⟩) ?_
      cases hgathered : s.gathered[i]?.join with
      | some b =>
          have hheld := hs.orderly.held (.inr i) b hgathered
          refine (Completes.value (Emit.ends_bufferAddress hs.proper hheld)).bind fun base s₁ h => ?_
          obtain ⟨e₁, rfl, h₁, hbase⟩ := h
          exact .emit (Emit.ends_loadDynamic h₁.proper hbase (hv.mono h₁.toStraight))
            fun w e₂ h => ⟨e₂, rfl, h₁.trans h.1, h.2⟩
      | none =>
          rw [LowerState.InPiece, hgathered] at hpiece
          obtain ⟨a, ha⟩ : ∃ a, l.selection.spans = [a] := by
            have hlen := hpiece.resolve_left fun h => by obtain ⟨_, h⟩ := h; cases h
            cases hspans : l.selection.spans with
            | nil =>
                rw [Selection.size, hspans] at hsome
                cases hsome
            | cons a spans =>
                rw [hspans] at hlen
                cases spans with
                | nil => exact ⟨a, rfl⟩
                | cons _ _ => simp at hlen
          have hmem : a ∈ l.selection.spans := by simp [ha]
          obtain ⟨st, hst⟩ := hstored.ports a hmem
          have hstart : a.start < 2 ^ 31 := by
            have hstop : a.start + a.length ≤ 2 ^ 28 := hstored.reach a hmem
            omega
          simp only [ha]
          refine (completes_portAddress hs hst).bind fun base s₁ h => ?_
          obtain ⟨e₁, rfl, h₁, hbase⟩ := h
          refine (Completes.value (s := { s with emitter := e₁ })
            (ends_moved h₁.proper (hv.mono h₁.toStraight) hstart)).bind fun j s₂ h => ?_
          obtain ⟨e₂, rfl, h₂, hj⟩ := h
          exact .emit (Emit.ends_loadDynamic h₂.proper (hbase.mono h₂.toStraight) hj)
            fun w e₃ h => ⟨e₃, rfl, h₁.trans (h₂.trans h.1), h.2⟩

end Access

section Outputs

variable {c : LowerContext} {s : LowerState} {o : Outlet} {os : List Outlet} {i n : Nat}
  {v : ValueId} {t : Ty}

theorem mul_size_lt (hn : n ≤ 2 ^ 28) (t : Ty) : n * t.size < 2 ^ 32 :=
  (Nat.mul_le_mul hn t.size_le).trans_lt (by norm_num)

theorem completes_requireStorage (hs : s.Able) (ho : c.site.outlets[i]? = some o)
    (hos : o.Among os) (hsize : o.size = some n) (hn : n ≤ 2 ^ 28) :
    Completes c (requireStorage i) s fun _ s' => s'.Able ∧ s.Keeps os s' ∧
      s.emitter.Proceeds s'.emitter ∧ ∃ st, s'.storage.find? o.port = some st := by
  have hm : Completes c (requireStorage i) s fun _ s' => s.emitter.Proceeds s'.emitter ∧
      ∀ p st, s'.storage.find? p = some st → (∀ b, st ≠ .stack b) →
        s.storage.find? p = some st := by
    refine .after (lowers_outlet.2 ⟨ho, rfl⟩) (.after (lowers_hasStorage.2 ⟨o, ho, rfl, rfl⟩) ?_)
    cases s.storage.contains o.port with
    | true => exact .pure ⟨.refl hs.proper, fun _ _ h _ => h⟩
    | false =>
        refine .after (lowers_outputSize.2 ⟨o, ho, hsize, rfl⟩) ?_
        obtain ⟨b, e, hb, hproceeds, -⟩ :=
          Emit.ends_stackBuffer (t := o.elemType.ty) hs.proper (mul_size_lt hn _)
        refine .after (lowers_emit.2 ⟨e, hb, rfl⟩) ?_
        refine ⟨⟨⟩, _, lowers_modify.2 rfl, hproceeds, fun p st hst hstack => ?_⟩
        have hst' : (s.storage.insert o.port (.stack b)).find? p = some st := hst
        rw [Table.find?_insert] at hst'
        split at hst'
        · exact absurd (Option.some.inj hst').symm (hstack b)
        · exact hst'
  refine hm.of_lowers fun _ s' h h' => ?_
  obtain ⟨hproceeds, hstorage⟩ := h'
  obtain ⟨hkeeps, -, hstored⟩ := succeeds_requireStorage h ho hos
  exact ⟨hs.of_grows hproceeds.toGrows hproceeds.proper (hkeeps.orderly hs.orderly) hstorage, hkeeps,
    hproceeds, hstored⟩

theorem completes_storeOutputAt (hs : s.Able) (ho : c.site.outlets[i]? = some o)
    (hos : o.Among os) (hsize : o.size = some n) (hn : n ≤ 2 ^ 28) (hv : s.emitter.Sees v t)
    {pos : Position} (hpos : pos.Writes s) :
    Completes c (storeOutputAt i pos v) s fun _ s' => s'.Able ∧ s.Keeps os s' ∧
      s.emitter.Proceeds s'.emitter ∧ ∃ st, s'.storage.find? o.port = some st := by
  have hm : Completes c (storeOutputAt i pos v) s fun _ s' => s'.Able ∧
      s.emitter.Proceeds s'.emitter ∧ ∃ st, s'.storage.find? o.port = some st := by
    refine .after (lowers_outlet.2 ⟨ho, rfl⟩) ?_
    refine (completes_requireStorage hs ho hos hsize hn).bind fun _ s₁ ⟨hs₁, _, h₁, st, hst⟩ => ?_
    refine (completes_portAddress hs₁ hst).bind fun base s₂ ⟨e₂, hs₂, h₂, hbase⟩ => ?_
    subst hs₂
    have hv₂ := (hv.mono h₁.toStraight).mono h₂.toStraight
    have hlast : ∀ {m : Emit Unit}, Ends m e₂ (fun _ e => e₂.Proceeds e) →
        Completes c (emit m) { s₁ with emitter := e₂ } fun _ s' => s'.Able ∧
          s.emitter.Proceeds s'.emitter ∧ ∃ st, s'.storage.find? o.port = some st := fun hm =>
      .emit hm fun _ e h => ⟨hs₁.proceeds (h₂.trans h), h₁.trans (h₂.trans h), st, hst⟩
    cases pos with
    | fixed k =>
        have hk : k < 2 ^ 28 := hpos
        refine hlast (Emit.ends_store h₂.proper hbase hv₂ ?_)
        exact (Nat.mul_le_mul_left _ t.size_le).trans_lt (by omega)
    | computed i =>
        have hi : s.emitter.Sees i .i32 := hpos
        exact hlast (Emit.ends_storeDynamic h₂.proper hbase ((hi.mono h₁.toStraight).mono
          h₂.toStraight) hv₂)
  exact hm.of_lowers fun _ s' h ⟨hs', hproceeds, hst⟩ =>
    ⟨hs', keeps_storeOutputAt h ho hos, hproceeds, hst⟩

theorem completes_setOutputLiteral {values : Values} (hs : s.Able)
    (ho : c.site.outlets[0]? = some o) (htype : o.elemType = values.elemType)
    (hsize : o.size = some values.length) (hvacant : s.storage.find? o.port = none) :
    Completes c (setOutputLiteral 0 values) s fun _ s' => s'.Able ∧ s.Enlarges s' ∧
      s.emitter.Proceeds s'.emitter ∧ ∃ st, s'.storage.find? o.port = some st := by
  obtain ⟨id, e, hid, hproceeds, hlt⟩ := Emit.ends_literalData hs.proper values
  have hm : Lowers c (setOutputLiteral 0 values) s ()
      { s with emitter := e, storage := s.storage.insert o.port (.data id) } := by
    refine lowers_bind.2 ⟨_, _, lowers_outlet.2 ⟨ho, rfl⟩, lowers_refuse.2 ⟨not_not.2 htype, ?_⟩⟩
    refine lowers_bind.2 ⟨_, _, lowers_outputSize.2 ⟨o, ho, hsize, rfl⟩, lowers_refuse.2 ⟨by simp, ?_⟩⟩
    exact lowers_bind.2 ⟨_, _, lowers_emit.2 ⟨e, hid, rfl⟩, lowers_modify.2 rfl⟩
  have hfind : ∀ p, (s.storage.insert o.port (.data id)).find? p =
      if p = o.port then some (.data id) else s.storage.find? p := fun p => Table.find?_insert ..
  obtain ⟨-, -, horderly⟩ := Builtin.orderly_setOutputLiteral hm ho hs.orderly
  refine ⟨(), _, hm, ⟨hproceeds.proper, horderly, fun p v hv => ?_, fun p id' hid' => ?_⟩,
    ⟨hproceeds.toGrows, fun p st hst => (hfind p).trans ((if_neg ?_).trans hst)⟩, hproceeds,
    _, (hfind _).trans (if_pos rfl)⟩
  · obtain ⟨hlt, hhas⟩ := hs.arguments p v <| by
      have hv' := (hfind p).symm.trans hv
      split at hv'
      · cases hv'
      · exact hv'
    exact ⟨hproceeds.body.args ▸ hlt, hproceeds.body.valueTypes _ _ hhas⟩
  · have hid'' := (hfind p).symm.trans hid'
    split at hid''
    · obtain rfl := Storage.data.inj (Option.some.inj hid'')
      exact hlt
    · exact (hs.data p id' hid'').trans_le hproceeds.declarations.data.size_le
  · rintro rfl
    rw [hvacant] at hst
    cases hst

end Outputs

structure Gains (s s' : LowerState) : Prop where
  able : s'.Able
  proceeds : s.emitter.Proceeds s'.emitter
  storage : s'.storage = s.storage
  length : s'.gathered.length = s.gathered.length
  inPiece : ∀ i l, s.InPiece i l → s'.InPiece i l

section Gather

variable {c : LowerContext} {s s' s'' : LowerState} {l : Inlet} {t : ElemType} {i : Nat}

theorem Gains.refl (hs : s.Able) : Gains s s := ⟨hs, .refl hs.proper, rfl, rfl, fun _ _ h => h⟩

theorem Gains.trans (h : Gains s s') (h' : Gains s' s'') : Gains s s'' :=
  ⟨h'.able, h.proceeds.trans h'.proceeds, h'.storage.trans h.storage, h'.length.trans h.length,
    fun i l hl => h'.inPiece i l (h.inPiece i l hl)⟩

theorem completes_copyElement {b : StackBuffer} {n : Nat} (hs : s.Able)
    (hl : c.site.inlets[i]? = some l) (hstored : l.Stored t s.storage)
    (hn : n < l.selection.size) (hb : s.emitter.Held b) :
    Completes c (copyElement i b n) s fun _ s' =>
      ∃ e, s' = { s with emitter := e } ∧ s.emitter.Proceeds e := by
  have hpos : Position.Reads s i l (.fixed n) := hn
  refine (completes_inputAt hs hl hstored hpos).bind fun v s₁ ⟨e₁, hs₁, h₁, hv⟩ => ?_
  subst hs₁
  refine (Completes.value (s := { s with emitter := e₁ }) (Emit.ends_bufferAddress h₁.proper
    (h₁.toGrows.held b hb))).bind fun base s₂ ⟨e₂, hs₂, h₂, hbase⟩ => ?_
  subst hs₂
  refine .emit (Emit.ends_store h₂.proper hbase (hv.mono h₂.toStraight) ?_)
    fun _ e₃ h₃ => ⟨e₃, rfl, h₁.trans (h₂.trans h₃)⟩
  have hsize := hstored.size
  exact (Nat.mul_le_mul_left _ t.ty.size_le).trans_lt (by omega)

/-- A scattered input can be gathered into a buffer. -/
theorem completes_gatherInput (hs : s.Able) (hl : c.site.inlets[i]? = some l)
    (hstored : l.Stored t s.storage) (hi : i < s.gathered.length) :
    Completes c (gatherInput i) s fun _ s' => Gains s s' ∧ s'.InPiece i l := by
  have hm : Completes c (gatherInput i) s fun _ s' => s.emitter.Proceeds s'.emitter ∧
      s'.gathered.length = s.gathered.length ∧ (∀ j l, s.InPiece j l → s'.InPiece j l) ∧
      s'.InPiece i l := by
    refine .after (lowers_get.2 ⟨rfl, rfl⟩) ?_
    split
    · next hgathered =>
        obtain ⟨b, hb⟩ := Option.isSome_iff_exists.1 hgathered
        exact .pure ⟨.refl hs.proper, rfl, fun _ _ h => h, Or.inl ⟨b, hb⟩⟩
    refine .after (b := decide (l.selection.spans.length ≤ 1)) (t := s)
      (lowers_bind.2 ⟨l, s, lowers_inlet.2 ⟨hl, rfl⟩, lowers_pure.2 ⟨rfl, rfl⟩⟩) ?_
    split
    · next hpiece => exact .pure ⟨.refl hs.proper, rfl, fun _ _ h => h, Or.inr (by simpa using hpiece)⟩
    · next hpiece =>
        have htype : l.selection.elemType? = some t := by
          obtain ⟨name, ⟨spans⟩⟩ := l
          cases spans with
          | nil => simp at hpiece
          | cons a spans =>
              have ha := hstored.types a (by simp)
              simp [Selection.elemType?, ha]
        refine .after (lowers_inputType.2 ⟨l, hl, htype, rfl⟩) ?_
        refine .after (lowers_inputSize.2 ⟨l, hl, rfl, rfl⟩) ?_
        obtain ⟨b, e, hb, h₁, -, hheld⟩ :=
          Emit.ends_stackBuffer (t := t.ty) hs.proper (mul_size_lt hstored.size _)
        refine .after (lowers_emit.2 ⟨e, hb, rfl⟩) ?_
        have hcopies : Completes c ((List.range l.selection.size).forM (copyElement i b))
            { s with emitter := e } fun _ s' =>
              ∃ e', s' = { s with emitter := e' } ∧ e.Proceeds e' := by
          refine .range (I := fun _ s' => ∃ e', s' = { s with emitter := e' } ∧ e.Proceeds e')
            ⟨e, rfl, .refl h₁.proper⟩ fun n hn s₁ h => ?_
          obtain ⟨e₁, rfl, h₂⟩ := h
          refine (completes_copyElement (hs.proceeds (h₁.trans h₂)) hl hstored hn
            (h₂.toGrows.held b hheld)).imp fun _ _ h => ?_
          obtain ⟨e₂, hs₂, h₃⟩ := h
          exact ⟨e₂, hs₂, h₂.trans h₃⟩
        refine hcopies.bind fun _ s₁ h => ?_
        obtain ⟨e₁, rfl, h₂⟩ := h
        refine ⟨⟨⟩, _, lowers_modify.2 rfl, h₁.trans h₂, List.length_set, fun j l' hj => ?_,
          Or.inl ⟨b, ?_⟩⟩
        · refine hj.imp_left fun h => ?_
          obtain ⟨b', hb'⟩ := h
          change ∃ b', (s.gathered.set i (some b))[j]?.join = some b'
          rw [List.getElem?_set]
          split
          · next hij =>
              subst hij
              simp
          · exact ⟨b', hb'⟩
        · change (s.gathered.set i (some b))[i]?.join = some b
          rw [List.getElem?_set_self hi]
          rfl
  refine hm.of_lowers fun _ s' h h' => ?_
  obtain ⟨hproceeds, hlength, hpieces, hpiece⟩ := h'
  have hgathers := gathers_gatherInput h
  refine ⟨⟨?_, hproceeds, hgathers.storage, hlength, hpieces⟩, hpiece⟩
  exact hs.of_grows hproceeds.toGrows hproceeds.proper (hgathers.orderly hs.orderly)
    fun p st hst _ => hgathers.storage ▸ hst

theorem completes_gatherInputs (hs : s.Able)
    (hstored : ∀ l ∈ c.site.inlets, ∃ t, l.Stored t s.storage)
    (hlength : s.gathered.length = c.site.inlets.length) :
    Completes c gatherInputs s fun _ s' => Gains s s' ∧
      ∀ (i : Nat) (l : Inlet), c.site.inlets[i]? = some l → s'.InPiece i l := by
  refine .after (lowers_site.2 ⟨rfl, rfl⟩) ?_
  refine Completes.imp (.range (I := fun n s' => Gains s s' ∧
    ∀ (i : Nat) (l : Inlet), i < n → c.site.inlets[i]? = some l → s'.InPiece i l)
    ⟨.refl hs, fun i _ hi => absurd hi (Nat.not_lt_zero i)⟩ fun n hn s₁ ⟨h₁, hpieces⟩ => ?_)
    fun _ s' ⟨h, hpieces⟩ => ⟨h, fun i l hl =>
      hpieces i l (List.getElem?_eq_some_iff.1 hl).1 hl⟩
  have hl := List.getElem?_eq_getElem hn
  obtain ⟨t, hstored₁⟩ := hstored _ (List.getElem_mem hn)
  rw [← h₁.storage] at hstored₁
  have hlt : n < s₁.gathered.length := by rw [h₁.length, hlength]; exact hn
  refine (completes_gatherInput h₁.able hl hstored₁ hlt).imp
    fun _ s₂ ⟨h₂, hpiece⟩ => ⟨h₁.trans h₂, fun i l' hi hl' => ?_⟩
  rcases Nat.lt_succ_iff_lt_or_eq.1 hi with hi | rfl
  · exact h₂.inPiece i l' (hpieces i l' hi hl')
  · obtain rfl := Option.some.inj (hl.symm.trans hl')
    exact hpiece

end Gather

section ForEach

variable {c : LowerContext} {s : LowerState} {o : Outlet} {n : Nat} {t : ElemType}
  {body : Position → Lower Unit} {K : Table Port Storage → Prop}

/-- Code for each element can be emitted, in a loop or not, if it can be emitted for any element.
What it does to the storage is done unless there are no elements. -/
theorem completes_forEach (hs : s.Able) (hlevel : s.emitter.body.Level)
    (hstored : ∀ l ∈ c.site.inlets, ∃ t, l.Stored t s.storage)
    (hlength : s.gathered.length = c.site.inlets.length) (hn : n ≤ 2 ^ 28)
    (hbody : ∀ pos s₁, s₁.Able → s.Enlarges s₁ → Position.Within c s₁ n pos →
      (∀ v t, s.emitter.Sees v t → s₁.emitter.Sees v t) →
      Completes c (body pos) s₁ fun _ s₂ => s₂.Able ∧ s₁.Enlarges s₂ ∧
        s₁.emitter.Proceeds s₂.emitter ∧ K s₂.storage) :
    Completes c (forEach n body) s fun _ s' => s'.Able ∧ s.Enlarges s' ∧
      s'.emitter.body.Level ∧ (0 < n → K s'.storage) := by
  refine .after (lowers_settings.2 ⟨rfl, rfl⟩) ?_
  split
  · refine (Completes.range (I := fun k s' => s'.Able ∧ s.Enlarges s' ∧ s'.emitter.body.Level ∧
      (∀ v t, s.emitter.Sees v t → s'.emitter.Sees v t) ∧ (0 < k → K s'.storage))
      ⟨hs, .refl s, hlevel, fun _ _ h => h, nofun⟩
      fun k hk s₁ ⟨hs₁, h₁, hlevel₁, hsees, _⟩ => ?_).imp
      fun _ s' ⟨hs', h, hlevel', _, hK⟩ => ⟨hs', h, hlevel', hK⟩
    exact (hbody (.fixed k) s₁ hs₁ h₁ hk hsees).imp fun _ s₂ ⟨hs₂, h₂, hproceeds, hK⟩ =>
      ⟨hs₂, h₁.trans h₂, hproceeds.toStraight.level hs₁.proper.tidy hlevel₁,
        fun v t hv => (hsees v t hv).mono hproceeds.toStraight, fun _ => hK⟩
  · next hmany =>
      have hpos : 0 < n := by
        simp only [Bool.or_eq_true, decide_eq_true_eq, not_or] at hmany
        omega
      refine (completes_gatherInputs hs hstored hlength).bind fun _ s₁ ⟨h₁, hpieces⟩ => ?_
      have hlevel₁ := h₁.proceeds.toStraight.level hs.proper.tidy hlevel
      refine .refuse (by omega) ?_
      obtain ⟨loop, e₂, hbegin, p, rfl, he₂, hgrows, hopened⟩ :=
        CountedLoop.ends_begin h₁.able.proper hlevel₁ (Int32.ofNat n)
      refine .after (lowers_emit.2 ⟨e₂, hbegin, rfl⟩) ?_
      obtain ⟨i, e₃, hcounter, h₃, hi⟩ := CountedLoop.ends_counter he₂ hopened
      refine .after (lowers_emit.2 ⟨e₃, hcounter, rfl⟩) ?_
      have hgrows₃ := hgrows.trans h₃.toGrows
      have hopened₃ := hopened.proceeds he₂ h₃
      have hs₃ : LowerState.Able { s₁ with emitter := e₃ } :=
        h₁.able.of_grows hgrows₃ h₃.proper (h₁.able.orderly.of_grows hgrows₃ fun _ _ hb => hb)
          fun _ _ hst _ => hst
      have henlarges : s.Enlarges { s₁ with emitter := e₃ } :=
        ⟨h₁.proceeds.toGrows.trans hgrows₃, fun p st hst => h₁.storage ▸ hst⟩
      -- No run gets into the loop but through the block that was current before it.
      have hsees : ∀ v t, s.emitter.Sees v t → e₃.Sees v t := by
        intro v t hv
        have hv₁ := hv.mono h₁.proceeds.toStraight
        have hcurrent : e₃.body.current.index = s₁.emitter.body.current.index + 1 + 2 :=
          congrArg Code.BlockId.index hopened₃.current
        refine ⟨hgrows₃.body.valueTypes _ _ hv₁.type, ?_⟩
        rw [hcurrent]
        exact (hv₁.visible.later hlevel₁.gate (by omega)).mono hgrows₃.body
      refine (hbody (.computed i) _ hs₃ henlarges ⟨hi, hpos, hpieces⟩ hsees).bind
        fun _ s₄ ⟨hs₄, h₄, hproceeds, hK⟩ => ?_
      obtain ⟨loop', e₅, hfinish, he₅, hgrows₅, hlevel₅⟩ :=
        CountedLoop.ends_finish hs₄.proper (hopened₃.proceeds h₃.proper hproceeds)
      refine .after (lowers_emit.2 ⟨e₅, hfinish, rfl⟩) (.pure ⟨?_, ?_, hlevel₅, fun _ => hK⟩)
      · exact hs₄.of_grows hgrows₅ he₅ (hs₄.orderly.of_grows hgrows₅ fun _ _ hb => hb)
          fun _ _ hst _ => hst
      · exact henlarges.trans (h₄.trans (.of_grows hgrows₅))

end ForEach

section Elements

variable {c : LowerContext} {s s₀ : LowerState} {o : Outlet} {n : Nat} {t : ElemType} {r : Ty}
  {pos : Position} {l l' : Inlet}

/-- A value can be made of an element of one inlet. -/
theorem completes_one {make : ValueId → Emit ValueId} (hs : s.Able)
    (hl : c.site.inlets[0]? = some l) (hstored : l.Stored t s.storage) (hn : l.selection.size = n)
    (hpos : pos.Within c s n) (hmake : ∀ e x, e.Proper → e.Sees x t.ty →
      Ends (make x) e fun v e' => e.Proceeds e' ∧ e'.Sees v r) :
    Completes c (do emit (make (← inputAt 0 pos))) s (s.Obtains r) := by
  refine (completes_inputAt hs hl hstored (hpos.reads hl hn.ge)).bind fun x s₁ ⟨e₁, hs₁, h₁, hx⟩ => ?_
  subst hs₁
  exact .emit (hmake _ x h₁.proper hx) fun v e₂ ⟨h₂, hv⟩ => ⟨e₂, rfl, h₁.trans h₂, hv⟩

theorem completes_two {make : ValueId → ValueId → Emit ValueId} (hs : s.Able)
    (hl : c.site.inlets[0]? = some l) (hl' : c.site.inlets[1]? = some l')
    (hstored : ∀ l ∈ c.site.inlets, l.Stored t s.storage) (hn : l.selection.size = n)
    (hn' : l'.selection.size = n) (hpos : pos.Within c s n)
    (hmake : ∀ e x y, e.Proper → e.Sees x t.ty → e.Sees y t.ty →
      Ends (make x y) e fun v e' => e.Proceeds e' ∧ e'.Sees v r) :
    Completes c (do
      let x ← inputAt 0 pos
      let y ← inputAt 1 pos
      emit (make x y)) s (s.Obtains r) := by
  have hstored₀ := hstored l (List.mem_of_getElem? hl)
  have hstored₁ := hstored l' (List.mem_of_getElem? hl')
  refine (completes_inputAt hs hl hstored₀ (hpos.reads hl hn.ge)).bind fun x s₁ ⟨e₁, hs₁, h₁, hx⟩ => ?_
  subst hs₁
  refine (completes_inputAt (hs.proceeds h₁) hl' hstored₁
    ((hpos.reads hl' hn'.ge).mono h₁.toStraight)).bind fun y s₂ ⟨e₂, hs₂, h₂, hy⟩ => ?_
  subst hs₂
  exact .emit (hmake _ x y h₂.proper (hx.mono h₂.toStraight) hy)
    fun v e₃ ⟨h₃, hv⟩ => ⟨e₃, rfl, h₁.trans (h₂.trans h₃), hv⟩

/-- If a value can be made for each element of the outlet, then the outlet can be stored. -/
theorem completes_lowerEach {element : Position → Lower ValueId} (hs : s.Able)
    (hlevel : s.emitter.body.Level) (hstored : ∀ l ∈ c.site.inlets, l.Stored t s.storage)
    (hlength : s.gathered.length = c.site.inlets.length) (ho : c.site.outlets[0]? = some o)
    (hsize : o.size = some n) (hn : n ≤ 2 ^ 28)
    (helement : ∀ pos s₁, s₁.Able → s.Enlarges s₁ → Position.Within c s₁ n pos →
      Completes c (element pos) s₁ (s₁.Obtains r)) :
    Completes c (Builtin.lowerEach element) s fun _ s' => s'.Able ∧ s.Enlarges s' ∧
      s'.emitter.body.Level ∧ (0 < n → ∃ st, s'.storage.find? o.port = some st) := by
  refine .after (lowers_outputSize.2 ⟨o, ho, hsize, rfl⟩) ?_
  refine completes_forEach (K := fun storage => ∃ st, storage.find? o.port = some st) hs hlevel
    (fun l hl => ⟨t, hstored l hl⟩) hlength hn fun pos s₁ hs₁ h₁ hpos _ => ?_
  refine (helement pos s₁ hs₁ h₁ hpos).bind fun v s₂ ⟨e₂, hs₂, h₂, hv⟩ => ?_
  subst hs₂
  exact (completes_storeOutputAt (hs₁.proceeds h₂) ho (.single o) hsize hn hv
    (hpos.writes hn h₂.toStraight)).imp
    fun _ s₃ ⟨hs₃, hkeeps, h₃, hst⟩ => ⟨hs₃, (LowerState.Enlarges.of_grows h₂.toGrows).trans
      hkeeps.enlarges, h₂.trans h₃, hst⟩

theorem completes_addElement {total : VarId} (hs : s.Able) (hl : c.site.inlets[0]? = some l)
    (hstored : l.Stored t s.storage) (hn : l.selection.size = n) (hpos : pos.Within c s n)
    (hnumeric : t.isNumeric = true) (htotal : s.emitter.typing.HasVar total t.ty) :
    Completes c (Builtin.addElement total pos) s fun _ s' =>
      ∃ e, s' = { s with emitter := e } ∧ s.emitter.Proceeds e := by
  have hadd : Code.BinaryOp.add.accepts t.ty = true := by
    cases t <;> first | rfl | cases hnumeric
  refine (completes_inputAt hs hl hstored (hpos.reads hl hn.ge)).bind fun x s₁ ⟨e₁, hs₁, h₁, hx⟩ => ?_
  subst hs₁
  refine .emit (P := fun _ e => s.emitter.Proceeds e) ?_ fun _ e h => ⟨e, rfl, h⟩
  have htotal₁ := h₁.toStraight.hasVar htotal
  refine (Emit.ends_getVar h₁.proper htotal₁).bind fun v e₂ ⟨h₂, hv⟩ => ?_
  refine (Emit.ends_operator h₂.proper hv (hx.mono h₂.toStraight) hadd).bind
    fun w e₃ ⟨h₃, hw⟩ => ?_
  have h₁₃ := h₁.trans (h₂.trans h₃)
  exact (Emit.ends_setVar h₃.proper (h₁₃.toStraight.hasVar htotal) hw).imp fun _ _ h => h₁₃.trans h

/-- A sum can be lowered, of no elements as well. -/
theorem completes_lowerSum (hs : s.Able) (hlevel : s.emitter.body.Level)
    (hstored : ∀ l ∈ c.site.inlets, l.Stored t s.storage)
    (hlength : s.gathered.length = c.site.inlets.length) (hl : c.site.inlets[0]? = some l)
    (ho : c.site.outlets[0]? = some o) (hsize : o.size = some 1) (hnumeric : t.isNumeric = true) :
    Completes c (Builtin.lowerSum t) s fun _ s' => s'.Able ∧ s.Enlarges s' ∧
      s'.emitter.body.Level ∧ ∃ st, s'.storage.find? o.port = some st := by
  have hstored₀ := hstored l (List.mem_of_getElem? hl)
  refine .after (lowers_inputSize.2 ⟨l, hl, rfl, rfl⟩) ?_
  obtain ⟨zero, e₁, hzero, h₁, hzero₁⟩ := Emit.ends_literal hs.proper (.zero t.ty)
  have hzero₁ : e₁.Sees zero t.ty := by cases t <;> exact hzero₁
  refine .after (lowers_emit.2 ⟨e₁, hzero, rfl⟩) ?_
  obtain ⟨total, e₂, htotal, h₂, hvar⟩ := Emit.ends_localVar h₁.proper hzero₁
  refine .after (lowers_emit.2 ⟨e₂, htotal, rfl⟩) ?_
  have h₁₂ := h₁.trans h₂
  refine (completes_forEach (s := { s with emitter := e₂ }) (K := fun _ => True) (hs.proceeds h₁₂)
    (h₁₂.toStraight.level hs.proper.tidy hlevel) (fun l hl => ⟨t, hstored l hl⟩) hlength hstored₀.size
    fun pos s₁ hs₁ henlarges hpos _ => ?_).bind fun _ s₃ ⟨hs₃, h₃, hlevel₃, _⟩ => ?_
  · refine (completes_addElement hs₁ hl (hstored₀.mono (s := { s with emitter := e₂ }) henlarges) rfl hpos hnumeric
      (henlarges.grows.body.varTypes _ _ hvar)).imp fun _ s₂ ⟨e, hs₂, h⟩ => ?_
    subst hs₂
    exact ⟨hs₁.proceeds h, .of_grows h.toGrows, h, trivial⟩
  · obtain ⟨result, e₄, hresult, h₄, hv⟩ :=
      Emit.ends_getVar hs₃.proper (h₃.grows.body.varTypes _ _ hvar)
    refine .after (lowers_emit.2 ⟨e₄, hresult, rfl⟩) ?_
    have hfirst : Position.Writes { s₃ with emitter := e₄ } (.fixed 0) := by
      change 0 < 2 ^ 28
      norm_num
    refine (completes_storeOutputAt (hs₃.proceeds h₄) ho (.single o) hsize (by norm_num) hv
      hfirst).imp fun _ s₅ ⟨hs₅, hkeeps, h₅, hst⟩ => ⟨hs₅, ?_, ?_, hst⟩
    · exact (LowerState.Enlarges.of_grows h₁₂.toGrows).trans (h₃.trans
        ((LowerState.Enlarges.of_grows h₄.toGrows).trans hkeeps.enlarges))
    · exact (h₄.trans h₅).toStraight.level hs₃.proper.tidy hlevel₃

end Elements

end Lower

namespace Lower

section Finish

variable {c : LowerContext} {s s' : LowerState} {o : Outlet} {e : Emitter} {b : StackBuffer}

/-- A buffer that is held can be given back. -/
theorem ends_releaseBuffer (he : e.Proper) (hb : e.Held b) :
    Ends (Emit.releaseBuffer b) e fun _ e' => e'.Proper ∧ e.Frees [b.slot] e' := by
  have hscope : b.slot.scope = .buffer := (Code.Pool.isAllocated_iff.1 hb.allocated).1.trans
    he.tidy.scope
  obtain ⟨p, hp⟩ : ∃ p, Succeeds (Code.Pool.release b.slot) e.pools.buffer () p :=
    ⟨_, Code.Pool.succeeds_release.2 ⟨hb.allocated, rfl⟩⟩
  have hpools : Succeeds (Code.Pools.release b.slot) e.pools () { e.pools with buffer := p } := by
    rw [Code.Pools.release, hscope]
    exact Code.Pools.succeeds_releaseIn.2 ⟨p, hp, rfl⟩
  have hm : Succeeds (Emit.releaseBuffer b) e () { e with pools := { e.pools with buffer := p } } :=
    Emit.succeeds_release.2 ⟨_, hpools, rfl⟩
  have hfrees := Emit.succeeds_releaseBuffer hm (List.mem_singleton_self b.slot)
  exact ⟨(), _, hm, ⟨⟨he.typed.body, he.typed.declarations⟩, hfrees.tidy he.tidy, he.sound,
    he.regular, he.lined, he.single, he.entry, he.literals, he.named, he.scratch, he.scope⟩, hfrees⟩

/-- Buffers of different slots can be given back one after the other. -/
theorem completes_releases {bs : List StackBuffer} (he : s.emitter.Proper)
    (hheld : ∀ b ∈ bs, s.emitter.Held b) (hdistinct : (bs.map (·.slot)).Nodup) :
    Completes c (bs.forM fun b => emit (Emit.releaseBuffer b)) s fun _ s' =>
      ∃ e, s' = { s with emitter := e } ∧ e.Proper ∧ e.body = s.emitter.body := by
  induction bs generalizing s with
  | nil => exact .pure ⟨_, rfl, he, rfl⟩
  | cons b bs ih =>
      obtain ⟨hnew, hdistinct⟩ := List.nodup_cons.1 hdistinct
      obtain ⟨u, e₁, hm, he₁, hfrees⟩ := ends_releaseBuffer he (hheld b (by simp))
      refine .after (lowers_emit.2 ⟨e₁, hm, rfl⟩) ?_
      refine (ih (s := { s with emitter := e₁ }) he₁ (fun b' hb' => ?_) hdistinct).imp
        fun _ s' ⟨e₂, hs', he₂, hbody⟩ => ⟨e₂, hs', he₂, hbody.trans hfrees.body⟩
      refine hfrees.held b' (hheld b' (by simp [hb'])) fun hslot => hnew ?_
      exact List.mem_map.2 ⟨b', hb', List.mem_singleton.1 hslot⟩

/-- The buffers of gathered inputs have different slots. -/
theorem nodup_gathered (hs : s.Orderly) : (s.gathered.reduceOption.map (·.slot)).Nodup := by
  rw [List.reduceOption, List.map_filterMap, List.Nodup, List.pairwise_filterMap,
    List.pairwise_iff_getElem]
  intro i j hi hj hij slot hslot slot' hslot' heq
  obtain ⟨b, hb, rfl⟩ := Option.map_eq_some_iff.1 hslot
  obtain ⟨b', hb', rfl⟩ := Option.map_eq_some_iff.1 hslot'
  have hbuffer : ∀ {k : Nat} {b : StackBuffer} (hk : k < s.gathered.length),
      s.gathered[k] = some b → s.buffer? (.inr k) = some b := by
    intro k b hk hb
    rw [LowerState.buffer?, List.getElem?_eq_getElem hk, hb]
    rfl
  have hsame := hs.distinct _ _ b b' (hbuffer hi hb) (hbuffer hj hb') heq
  exact absurd (Sum.inr.inj hsame) (Nat.ne_of_lt hij)

/-- A node whose outlet has storage can be finished. -/
theorem completes_finish (hs : s.Able) (ho : c.site.outlets = [o])
    (hstored : ∃ st, s.storage.find? o.port = some st) :
    Completes c finish s fun _ s' => ∃ e, s' = { s with emitter := e } ∧ e.Proper ∧
      e.body = s.emitter.body := by
  have hheld : ∀ b ∈ s.gathered.reduceOption, s.emitter.Held b := by
    intro b hb
    obtain ⟨i, hi⟩ := List.mem_iff_getElem?.1 (List.reduceOption_mem_iff.1 hb)
    exact hs.orderly.held (.inr i) b (by rw [LowerState.buffer?, hi]; rfl)
  refine .after (lowers_get.2 ⟨rfl, rfl⟩) ?_
  refine (completes_releases hs.proper hheld (nodup_gathered hs.orderly)).bind fun _ s₁ h => ?_
  obtain ⟨e, rfl, he, hbody⟩ := h
  obtain ⟨st, hst⟩ := hstored
  have hcontains : s.storage.contains o.port = true := by
    rw [Table.contains, hst]
    rfl
  refine .after (lowers_site.2 ⟨rfl, rfl⟩) ?_
  rw [ho]
  refine .after (b := ⟨⟩) (t := { s with emitter := e }) ?_ (.pure ⟨e, rfl, he, hbody⟩)
  refine lowers_bind.2 ⟨_, _, lowers_get.2 ⟨rfl, rfl⟩, ?_⟩
  simp [hcontains]

end Finish

end Lower

namespace Builtin

open Lower

/-- What a node reads has storage, and what it offers has none yet, unless it is supplied from
outside. No offset is out of range. -/
structure Served (b : Builtin) (c : LowerContext) (o : Outlet) (s : LowerState) : Prop where
  outlet : c.site.outlets = [o]
  elemType : o.elemType = b.elemType
  size : b.isInput = false → b.outletSize (c.site.inlets.map (·.selection)) = .ok o.size
  bound : o.size.getD 0 ≤ 2 ^ 28
  inlets : c.site.inlets.length = b.inlets.length
  stored : ∀ l ∈ c.site.inlets, l.Stored b.operandType s.storage
  gathered : s.gathered = List.replicate c.site.inlets.length none
  vacant : b.isInput = false → s.storage.find? o.port = none
  supplied : b.isInput = true → ∃ st, s.storage.find? o.port = some st

variable {b : Builtin} {c : LowerContext} {o : Outlet} {s s' : LowerState}

theorem exists_inlet {ls : List Inlet} {i : Nat} {r : Selection}
    (h : (ls.map (·.selection))[i]? = some r) : ∃ l, ls[i]? = some l ∧ l.selection = r := by
  rwa [List.getElem?_map, Option.map_eq_some_iff] at h

/-- A node that is served can be lowered. Its outlet has storage then, unless it has no elements
and there is something that they would be computed from. -/
theorem completes_lower (hb : b.Served c o s) (hs : s.Able) (hlevel : s.emitter.body.Level) :
    Completes c b.lower s fun _ s' => s'.Able ∧ s.Enlarges s' ∧ s'.emitter.body.Level ∧
      (b.inlets = [] ∨ o.size.getD 0 ≠ 0 → ∃ st, s'.storage.find? o.port = some st) := by
  have ho : c.site.outlets[0]? = some o := by rw [hb.outlet]; rfl
  have hlength : s.gathered.length = c.site.inlets.length := by rw [hb.gathered]; simp
  have hstored := hb.stored
  -- What is lowered element by element has storage when there are elements.
  have heach : ∀ {n : Nat} {r : Code.Ty} {element : Position → Lower ValueId}, o.size = some n →
      b.inlets ≠ [] → (∀ pos s₁, s₁.Able → s.Enlarges s₁ → Position.Within c s₁ n pos →
        Completes c (element pos) s₁ (s₁.Obtains r)) →
      Completes c (lowerEach element) s fun _ s' => s'.Able ∧ s.Enlarges s' ∧
        s'.emitter.body.Level ∧
        (b.inlets = [] ∨ o.size.getD 0 ≠ 0 → ∃ st, s'.storage.find? o.port = some st) := by
    intro n r element hn hinlets helement
    have hbound := hb.bound
    rw [hn] at hbound
    refine (completes_lowerEach hs hlevel hstored hlength ho hn hbound helement).imp fun _ s' h => ?_
    obtain ⟨hs', h', hlevel', hst⟩ := h
    refine ⟨hs', h', hlevel', fun hsome => hst ?_⟩
    rw [hn] at hsome
    exact Nat.pos_of_ne_zero (hsome.resolve_left hinlets)
  cases b with
  | input t size =>
      obtain ⟨st, hst⟩ := hb.supplied rfl
      have hcontains : s.storage.contains o.port = true := by
        rw [Table.contains, hst]
        rfl
      refine .after (lowers_hasStorage.2 ⟨o, ho, hcontains, rfl⟩) ?_
      exact .pure ⟨hs, .refl s, hlevel, fun _ => ⟨st, hst⟩⟩
  | constant values =>
      have hsize : o.size = some values.length := (Except.ok.inj (hb.size rfl)).symm
      refine (completes_setOutputLiteral hs ho hb.elemType hsize (hb.vacant rfl)).imp fun _ s' h => ?_
      obtain ⟨hs', h', hproceeds, hst⟩ := h
      exact ⟨hs', h', hproceeds.toStraight.level hs.proper.tidy hlevel, fun _ => hst⟩
  | binary t op x y accepted sizes =>
      obtain ⟨n, hn, hsize⟩ := map_eq_ok_iff.1 (hb.size rfl)
      obtain ⟨_, _, hx, hy, hln, hln'⟩ := commonSize_eq_ok hn
      obtain ⟨l, hl, rfl⟩ := exists_inlet hx
      obtain ⟨l', hl', rfl⟩ := exists_inlet hy
      refine heach (r := t.ty) hsize.symm (List.cons_ne_nil _ _) fun pos s₁ hs₁ h₁ hpos => ?_
      exact completes_two hs₁ hl hl' (fun l hl => (hstored l hl).mono h₁) hln hln' hpos
        fun e x y he hx hy => Emit.ends_operator he hx hy accepted
  | predicate t op x y sizes =>
      obtain ⟨n, hn, hsize⟩ := map_eq_ok_iff.1 (hb.size rfl)
      obtain ⟨_, _, hx, hy, hln, hln'⟩ := commonSize_eq_ok hn
      obtain ⟨l, hl, rfl⟩ := exists_inlet hx
      obtain ⟨l', hl', rfl⟩ := exists_inlet hy
      refine heach (r := .bool) hsize.symm (List.cons_ne_nil _ _) fun pos s₁ hs₁ h₁ hpos => ?_
      exact completes_two hs₁ hl hl' (fun l hl => (hstored l hl).mono h₁) hln hln' hpos
        fun e x y he hx hy => Emit.ends_compare he hx hy (by cases t <;> exact Code.Ty.noConfusion)
  | unary t op x accepted =>
      obtain ⟨n, hn, hsize⟩ := map_eq_ok_iff.1 (hb.size rfl)
      obtain ⟨_, hx, hln⟩ := resolvedSize_eq_ok hn
      obtain ⟨l, hl, rfl⟩ := exists_inlet hx
      refine heach (r := t.ty) hsize.symm (List.cons_ne_nil _ _) fun pos s₁ hs₁ h₁ hpos => ?_
      exact completes_one hs₁ hl ((hstored l (List.mem_of_getElem? hl)).mono h₁) hln hpos
        fun e x he hx => Emit.ends_unary he hx accepted
  | sum t x numeric =>
      have hsize : o.size = some 1 := (Except.ok.inj (hb.size rfl)).symm
      obtain ⟨l, hl⟩ : ∃ l, c.site.inlets[0]? = some l := by
        refine ⟨_, List.getElem?_eq_getElem ?_⟩
        rw [hb.inlets]
        exact Nat.one_pos
      refine (completes_lowerSum hs hlevel hstored hlength hl ho hsize numeric).imp fun _ s' h => ?_
      obtain ⟨hs', h', hlevel', hst⟩ := h
      exact ⟨hs', h', hlevel', fun _ => hst⟩
  | cast t target x =>
      obtain ⟨n, hn, hsize⟩ := map_eq_ok_iff.1 (hb.size rfl)
      obtain ⟨_, hx, hln⟩ := resolvedSize_eq_ok hn
      obtain ⟨l, hl, rfl⟩ := exists_inlet hx
      refine heach (r := target.ty) hsize.symm (List.cons_ne_nil _ _) fun pos s₁ hs₁ h₁ hpos => ?_
      exact completes_one hs₁ hl ((hstored l (List.mem_of_getElem? hl)).mono h₁) hln hpos
        fun e x he hx => Emit.ends_cast he hx (by cases t <;> cases target <;> rfl)

/-- Where there are no elements, no code that stores them is emitted. -/
theorem storage_of_lower (hb : b.Served c o s) (h : Lowers c b.lower s () s')
    (hinlets : b.inlets ≠ []) (hsize : o.size.getD 0 = 0) :
    s'.storage.find? o.port = none := by
  have ho : c.site.outlets[0]? = some o := by rw [hb.outlet]; rfl
  have hvacant : s.storage.find? o.port = none := by
    refine hb.vacant ?_
    cases b with
    | input t size => exact absurd rfl hinlets
    | _ => rfl
  have heach : ∀ {element : Position → Lower ValueId}, Lowers c (lowerEach element) s () s' →
      s'.storage.find? o.port = none := by
    intro element h
    obtain ⟨n, _, hn, h⟩ := lowers_bind.1 h
    obtain ⟨o', ho', hn, rfl⟩ := lowers_outputSize.1 hn
    obtain rfl := Option.some.inj (ho.symm.trans ho')
    rw [hn] at hsize
    obtain rfl : n = 0 := hsize
    obtain ⟨_, _, hsettings, h⟩ := lowers_bind.1 h
    obtain ⟨-, rfl⟩ := lowers_settings.1 hsettings
    rw [if_pos (by simp)] at h
    obtain ⟨-, rfl⟩ := lowers_pure.1 h
    exact hvacant
  cases b with
  | input t size => exact absurd rfl hinlets
  | constant values => exact absurd rfl hinlets
  | sum t x numeric =>
      rw [← Except.ok.inj (hb.size rfl)] at hsize
      cases hsize
  | binary t op x y accepted sizes => exact heach h
  | predicate t op x y sizes => exact heach h
  | unary t op x accepted => exact heach h
  | cast t target x => exact heach h

end Builtin

end Dataflow
