import Dataflow.Proofs.Code.Conclusion
import Dataflow.Proofs.Code.Iteration
import Dataflow.Proofs.Lower.Compiled
import Dataflow.Proofs.Lower.Stock

/-!
# Loops of nodes and of the output

The code for a node addresses elements in loops that run over the elements of its outlet or of an
input, at the number of the round or at that number and the start of the span that an input reads.
The copy of the output has a loop for each span that it reads, which begins where the span starts and
where the spans before it end.
-/

namespace Dataflow

open Code (Access CountedLoop Emit Emitter Instr ValueId VarId)

/-- The code for the node runs over as many elements. -/
def Site.Lengths (t : Site) (n : Nat) : Prop :=
  (∃ o ∈ t.outlets, o.size = some n) ∨ ∃ i ∈ t.inlets, i.selection.size = n

/-- The code for the node moves the number of a round up by as much. -/
def Site.Offsets (t : Site) : Access → Nat → Prop
  | .read, s => s = 0 ∨ ∃ i ∈ t.inlets, ∃ a, i.selection.spans = [a] ∧ a.start = s
  | .write, s => s = 0

/-- The copy of a span moves the number of a round up by as much, when the spans before it have so many
elements. -/
def Span.Offsets (a : Span) (before : Nat) : Access → Nat → Prop
  | .read, s => s = a.start
  | .write, s => s = before

/-- How often a loop of a lowered transform runs, and what is added to the number of a round. -/
inductive Lower.Iterates (g : Graph) (order : List Key) (selection : Selection) :
    Nat → (Access → Nat → Prop) → Prop
  | node {k : Key} {e : Entry} {n : Nat} (hk : k ∈ order) (he : g.entry? k = some e)
      (hn : e.toSite.Lengths n) : Iterates g order selection n e.toSite.Offsets
  | span {before after : List Span} {a : Span} (h : selection.spans = before ++ a :: after) :
      Iterates g order selection a.length (a.Offsets (before.map (·.length)).sum)

namespace LowerState

def Anchored (s : LowerState) : Prop :=
  ∀ p v, s.storage.find? p = some (.argument v) → v ∈ s.emitter.body.args

/-- Straight-line code has been emitted that computes no address of an element and writes none of the
variables, and no argument has become storage. -/
structure Calm (X : VarId → Prop) (s s' : LowerState) : Prop where
  steps : s.emitter.Steps Instr.Unindexed s'.emitter
  inline : s.emitter.Inline X s'.emitter
  arguments : ∀ p v, s'.storage.find? p = some (.argument v) →
    s.storage.find? p = some (.argument v)

/-- Straight-line code has been emitted for a node that may address elements, but if so from the value
of the variable. -/
structure Works (x : VarId) (v : ValueId) (c : LowerContext) (s s' : LowerState) : Prop where
  steps : s.emitter.Steps Instr.Any s'.emitter
  inline : s.emitter.Inline (· = x) s'.emitter
  arguments : ∀ p v, s'.storage.find? p = some (.argument v) →
    s.storage.find? p = some (.argument v)
  indexes : s.Anchored → s.emitter.body.Counts x v →
    s.emitter.body.IndexesSince s'.emitter.body x c.site.Offsets

structure Loops (T : Nat → (Access → Nat → Prop) → Prop) (c : LowerContext) (s s' : LowerState) :
    Prop where
  steps : s.emitter.Steps Instr.Any s'.emitter
  arguments : ∀ p v, s'.storage.find? p = some (.argument v) →
    s.storage.find? p = some (.argument v)
  looped : (∀ n, c.site.Lengths n → T n c.site.Offsets) → s.Anchored → s.emitter.body.Looped T →
    s'.emitter.body.Looped T

structure Upright (T : Nat → (Access → Nat → Prop) → Prop) (s : LowerState) : Prop where
  tidy : s.emitter.Tidy
  sound : s.emitter.declarations.Sound
  id : s.emitter.body.id = ⟨0⟩
  args : s.emitter.body.args = [⟨0⟩, ⟨1⟩]
  anchored : s.Anchored
  single : s.emitter.body.Single
  looped : s.emitter.body.Looped T

variable {X : VarId → Prop} {x : VarId} {v : ValueId} {c : LowerContext} {s s' s'' : LowerState}
  {T : Nat → (Access → Nat → Prop) → Prop}

theorem Anchored.mono (h : s.Anchored) (hw : s.emitter.body.Within s'.emitter.body)
    (hs : ∀ p v, s'.storage.find? p = some (.argument v) → s.storage.find? p = some (.argument v)) :
    s'.Anchored :=
  fun p v hv => hw.args ▸ h p v (hs p v hv)

theorem Calm.refl (s : LowerState) : s.Calm X s := ⟨.refl, .refl _, fun _ _ h => h⟩

theorem Calm.trans (h : s.Calm X s') (h' : s'.Calm X s'') : s.Calm X s'' :=
  ⟨h.steps.trans h'.steps, h.inline.trans h'.inline, fun p v hv => h.arguments p v (h'.arguments p v hv)⟩

instance : Std.Refl (Calm X) := ⟨Calm.refl⟩

instance : IsTrans LowerState (Calm X) := ⟨fun _ _ _ => Calm.trans⟩

theorem Calm.works (h : s.Calm (· = x) s') : s.Works x v c s' :=
  ⟨h.steps.any, h.inline, h.arguments, fun _ _ => h.steps.indexes⟩

/-- At the end of straight-line code an element is addressed. -/
theorem Calm.access {e : Emitter} (h : s.Calm (· = x) s') (hs : s'.emitter.Steps Instr.Any e)
    (hi : s'.emitter.Inline (· = x) e) (ha : s.Anchored → s.emitter.body.Counts x v →
      s'.emitter.Addresses x c.site.Offsets e) : s.Works x v c { s' with emitter := e } where
  steps := h.steps.any.trans hs
  inline := h.inline.trans hi
  arguments := h.arguments
  indexes hs' hv := h.steps.indexes.trans (ha hs' hv).indexes hs.within

theorem Works.trans (h : s.Works x v c s') (h' : s'.Works x v c s'') : s.Works x v c s'' where
  steps := h.steps.trans h'.steps
  inline := h.inline.trans h'.inline
  arguments p w hw := h.arguments p w (h'.arguments p w hw)
  indexes hs hv :=
    (h.indexes hs hv).trans (h'.indexes (hs.mono h.steps.within h.arguments)
      (hv.mono h.steps.within h.inline.current)) h'.steps.within

theorem Calm.loops (h : s.Calm X s') : s.Loops T c s' :=
  ⟨h.steps.any, h.arguments, fun _ _ hs => h.inline.looped h.steps hs⟩

theorem Loops.trans (h : s.Loops T c s') (h' : s'.Loops T c s'') : s.Loops T c s'' where
  steps := h.steps.trans h'.steps
  arguments p w hw := h.arguments p w (h'.arguments p w hw)
  looped hT hs hl := h'.looped hT (hs.mono h.steps.within h.arguments) (h.looped hT hs hl)

theorem Loops.upright (h : s.Loops T c s') (hs : s.Upright T) (hp : s.emitter.Passes s'.emitter)
    (ht : s.emitter.Tidy → s'.emitter.Tidy) (hT : ∀ n, c.site.Lengths n → T n c.site.Offsets) :
    s'.Upright T where
  tidy := ht hs.tidy
  sound := hp.declarations.sound hs.sound
  id := hp.body.id.trans hs.id
  args := hp.body.args.trans hs.args
  anchored := hs.anchored.mono h.steps.within h.arguments
  single := h.steps.single hs.single
  looped := h.looped hT hs.anchored hs.looped

/-- Giving buffers back changes nothing of it. -/
theorem Upright.of_frees {slots : List Code.Slot} (h : s.Upright T)
    (hf : s.emitter.Frees slots s'.emitter) (hs : ∀ p v, s'.storage.find? p = some (.argument v) →
      s.storage.find? p = some (.argument v)) : s'.Upright T where
  tidy := hf.tidy h.tidy
  sound := hf.passes.declarations.sound h.sound
  id := hf.passes.body.id.trans h.id
  args := hf.passes.body.args.trans h.args
  anchored := h.anchored.mono hf.passes.body hs
  single := hf.body ▸ h.single
  looped := hf.body ▸ h.looped

theorem Upright.of_sheds {ports : List Port} (h : s.Upright T) (hs : s.Sheds ports s') :
    s'.Upright T := by
  obtain ⟨slots, hf⟩ := hs.frees
  exact h.of_frees hf fun p v => hs.storage p _

end LowerState

namespace Lower

open LowerState (Calm Works Loops)

section Operations

variable {α : Type} {X : VarId → Prop} {x : VarId} {v w : ValueId} {c : LowerContext}
  {s s' : LowerState} {u : Unit} {i : Nat} {p : Port}

theorem calm_emit {m : Emit α} (hs : Leaves (Emitter.Steps Instr.Unindexed) m)
    (hi : Leaves (Emitter.Inline X) m) : Turns (fun _ => Calm X) (emit m) :=
  Turns.emit fun _ s => ⟨hs s.emitter, hi s.emitter, fun _ _ h => h⟩

theorem calm_setStorage {st : Storage} (hst : ∀ v, st ≠ .argument v) (p : Port) :
    Turns (fun _ => Calm X) (setStorage p st) := by
  refine fun _ s => ⟨.refl, .refl _, fun q v hq => ?_⟩
  have hq : (s.storage.insert p st).find? q = some (.argument v) := hq
  rw [Table.find?_insert] at hq
  split at hq
  · exact absurd (Option.some.inj hq) (hst v)
  · exact hq

theorem calm_portAddress (p : Port) : Turns (fun _ => Calm X) (portAddress p) :=
  Turns.get.bind fun _ => calm_emit (leaves_address _ _) (leaves_address _ _)

/-- A loop is begun only when the inputs lie in one piece each. -/
theorem calm_inputAt (i n : Nat) : Turns (fun _ => Calm X) (inputAt i (.fixed n)) :=
  (Turns.inlet i).bind fun _ => (Turns.inputType i).bind fun _ => (Turns.check _).bind fun _ =>
    (calm_portAddress _).bind fun _ => calm_emit (Emit.leaves_load _ _ _) (Emit.leaves_load _ _ _)

theorem calm_requireStorage (i : Nat) : Turns (fun _ => Calm X) (requireStorage i) := by
  refine (Turns.outlet i).bind fun o => (Turns.hasStorage i).bind fun stored => .ite ?_ (.pure _)
  refine (Turns.outputSize i).bind fun n => ?_
  exact (calm_emit (Emit.Computes.stackBuffer _ _) (Emit.Computes.stackBuffer _ _)).bind fun b =>
    calm_setStorage (fun _ h => by cases h) _

theorem calm_storeOutputAt (i n : Nat) (v : ValueId) :
    Turns (fun _ => Calm X) (storeOutputAt i (.fixed n) v) :=
  (Turns.outlet i).bind fun _ => (calm_requireStorage i).bind fun _ =>
    (calm_portAddress _).bind fun _ => calm_emit (Emit.leaves_store _ _ _) (Emit.leaves_store _ _ _)

theorem calm_gatherInput (i : Nat) : Turns (fun _ => Calm X) (gatherInput i) := by
  refine Turns.get.bind fun _ => .ite (.pure _) ?_
  refine (Turns.inputIsContiguous i).bind fun _ => .ite (.pure _) ?_
  refine (Turns.inputType i).bind fun _ => (Turns.inputSize i).bind fun _ => ?_
  refine (calm_emit (Emit.Computes.stackBuffer _ _) (Emit.Computes.stackBuffer _ _)).bind fun b => ?_
  refine .bind (.forM fun n => (calm_inputAt i n).bind fun _ => ?_) fun _ => ?_
  · exact (calm_emit (Emit.Frames.bufferAddress _) (Emit.Frames.bufferAddress _)).bind fun _ =>
      calm_emit (Emit.leaves_store _ _ _) (Emit.leaves_store _ _ _)
  · exact fun _ s => ⟨.refl, .refl _, fun _ _ h => h⟩

theorem calm_gatherInputs : Turns (fun _ => Calm X) gatherInputs :=
  Turns.site.bind fun _ => .forM calm_gatherInput

theorem calm_setOutputLiteral (i : Nat) (values : Values) :
    Turns (fun _ => Calm fun _ => False) (setOutputLiteral i values) := by
  refine (Turns.outlet i).bind fun o => .refuse ?_
  refine (Turns.outputSize i).bind fun n => .refuse ?_
  exact (calm_emit (Emit.leaves_literalData _) (Emit.leaves_literalData _)).bind fun id =>
    calm_setStorage (fun _ h => by cases h) _

/-- The address of storage is that of a buffer. -/
theorem anchors_address {e e' : Emitter} {storage : Table Port Storage}
    (h : Succeeds (address storage p) e v e')
    (hs : ∀ v, storage.find? p = some (.argument v) → v ∈ e.body.args) : e'.body.Anchors v := by
  unfold address at h
  split at h
  case h_1 w hw =>
    obtain ⟨rfl, rfl⟩ := succeeds_pure.1 h
    exact .inl (hs _ hw)
  case h_2 buffer _ =>
    obtain ⟨k, hk, hbefore⟩ := Emit.before_of_define h
    exact .inr ⟨k, hk, .inl ⟨_, hbefore⟩⟩
  case h_3 id _ =>
    simp only [Emit.dataAddress, succeeds_bind, succeeds_get] at h
    obtain ⟨_, _, ⟨-, rfl⟩, _, _, hdatum, h⟩ := h
    obtain ⟨k, hk, hbefore⟩ := Emit.before_of_define h
    exact .inr ⟨k, hk, .inr ⟨_, hbefore⟩⟩
  case h_4 => exact absurd h succeeds_throw

/-- An index is the number that has been read from the variable, or it has been moved up. -/
theorem shifts_moved {e e' : Emitter} {n : Nat} {index : ValueId}
    (h : Succeeds (moved v n) e index e') (hv : e.body.Counts x v) :
    e'.body.Shifts x n v index := by
  unfold moved at h
  split at h
  · next hn =>
    obtain ⟨rfl, rfl⟩ := succeeds_pure.1 h
    exact hn ▸ hv.shifts
  split at h
  swap
  · exact absurd h succeeds_throw
  next hn =>
  obtain ⟨o, e₁, hliteral, h⟩ := succeeds_bind.1 h
  have hsteps₁ : e.Steps Instr.Unindexed e₁ := (Emit.leaves_literal _).of_succeeds hliteral
  have hinline₁ : e.Inline (fun _ => False) e₁ := (Emit.leaves_literal _).of_succeeds hliteral
  have hsteps₂ : e₁.Steps Instr.Unindexed e' := (Emit.leaves_binary _ _ _).of_succeeds h
  have hinline₂ : e₁.Inline (fun _ => False) e' := (Emit.leaves_binary _ _ _).of_succeeds h
  obtain ⟨t, e₂, -, hbinary⟩ := succeeds_bind.1 h
  obtain ⟨k, hk, hsum⟩ := Emit.before_of_define hbinary
  have hconst : e'.body.AtEnd fun k p => k.Before p (.const o (.i32 (Int32.ofNat n))) :=
    Code.Body.AtEnd.mono (Emit.before_of_define hliteral) hsteps₂.within hinline₂.current
      fun k k' hk hi => hi.mono hk hk.size_le
  obtain ⟨k₁, hk₁, hcounter⟩ := (hv.mono hsteps₁.within hinline₁.current).mono hsteps₂.within
    hinline₂.current
  obtain ⟨k₂, hk₂, hconst⟩ := hconst
  obtain rfl := Option.some.inj (hk.symm.trans hk₁)
  obtain rfl := Option.some.inj (hk.symm.trans hk₂)
  exact ⟨k, hk, .moved hn hcounter hconst hsum⟩

theorem works_inputAt (h : Lowers c (inputAt i (.computed v)) s w s') : s.Works x v c s' := by
  simp only [inputAt, lowers_bind, lowers_inlet, lowers_inputType, lowers_get] at h
  obtain ⟨l, _, ⟨hl, rfl⟩, t, _, ⟨_, -, -, rfl⟩, _, _, ⟨rfl, rfl⟩, h⟩ := h
  split at h
  · -- The input has been gathered, so its elements are where the numbers are.
    obtain ⟨base, s₁, hbase, h⟩ := lowers_bind.1 h
    have hcalm := (calm_emit (X := (· = x)) (Emit.Frames.bufferAddress _)
      (Emit.Frames.bufferAddress _)).of_lowers hbase
    obtain ⟨e₁, haddress, rfl⟩ := lowers_emit.1 hbase
    obtain ⟨e₂, hload, rfl⟩ := lowers_emit.1 h
    obtain ⟨k, hk, hbefore⟩ := Emit.before_of_define haddress
    exact hcalm.access ((Emit.leaves_loadDynamic _ _ _).of_succeeds hload)
      ((Emit.leaves_loadDynamic _ _ _).of_succeeds hload) fun _ hv =>
        Emit.addresses_loadDynamic hload (.inl rfl)
          (hv.mono hcalm.steps.within hcalm.inline.current).shifts (.inr ⟨k, hk, .inl ⟨_, hbefore⟩⟩)
  split at h
  case h_2 =>
    obtain ⟨_, _, -, h⟩ := lowers_bind.1 h
    exact absurd h lowers_throw
  next span hspan =>
  obtain ⟨base, s₁, hbase, h⟩ := lowers_bind.1 h
  have hcalm₁ := (calm_portAddress (X := (· = x)) _).of_lowers hbase
  obtain ⟨index, s₂, hindex, h⟩ := lowers_bind.1 h
  have hcalm₂ := (calm_emit (X := (· = x)) (leaves_moved _ _) (leaves_moved _ _)).of_lowers hindex
  obtain ⟨e₁, haddress, rfl⟩ := lowers_portAddress.1 hbase
  obtain ⟨e₂, hmoved, rfl⟩ := lowers_emit.1 hindex
  obtain ⟨e₃, hload, rfl⟩ := lowers_emit.1 h
  refine (hcalm₁.trans hcalm₂).access ((Emit.leaves_loadDynamic _ _ _).of_succeeds hload)
    ((Emit.leaves_loadDynamic _ _ _).of_succeeds hload) fun hs hv => ?_
  have hanchors : e₁.body.Anchors base := anchors_address haddress fun v hv => hs _ v hv
  exact Emit.addresses_loadDynamic hload (.inr ⟨l, List.mem_of_getElem? hl, span, hspan, rfl⟩)
    (shifts_moved hmoved (hv.mono hcalm₁.steps.within hcalm₁.inline.current))
    (hanchors.mono hcalm₂.steps.within hcalm₂.inline.current)

theorem works_storeOutputAt (h : Lowers c (storeOutputAt i (.computed v) w) s u s') :
    s.Works x v c s' := by
  obtain ⟨o, s₀, ho, h⟩ := lowers_bind.1 h
  obtain ⟨-, rfl⟩ := lowers_outlet.1 ho
  obtain ⟨_, s₁, hrequire, h⟩ := lowers_bind.1 h
  obtain ⟨base, s₂, hbase, h⟩ := lowers_bind.1 h
  have hcalm := (calm_portAddress (X := (· = x)) _).of_lowers hbase
  obtain ⟨e₂, haddress, rfl⟩ := lowers_portAddress.1 hbase
  obtain ⟨e₃, hstore, rfl⟩ := lowers_emit.1 h
  refine ((calm_requireStorage i).of_lowers hrequire).works.trans (hcalm.access
    ((Emit.leaves_storeDynamic _ _ _).of_succeeds hstore)
    ((Emit.leaves_storeDynamic _ _ _).of_succeeds hstore) fun hs hv => ?_)
  exact Emit.addresses_storeDynamic hstore rfl (hv.mono hcalm.steps.within hcalm.inline.current).shifts
    (anchors_address haddress fun v hv => hs _ v hv)

/-- What is emitted for one element is straight-line code. It addresses elements only in a loop, and from
the number of the round, if the variable of the loop is one of those that it leaves alone. -/
structure Rounds (P : VarId → Prop) (f : Position → Lower α) : Prop where
  fixed : ∀ n, Turns (fun _ => Calm fun _ => False) (f (.fixed n))
  computed : ∀ x v, P x → ∀ c s a s', Lowers c (f (.computed v)) s a s' → s.Works x v c s'

namespace Rounds

variable {β : Type} {P : VarId → Prop} {f : Position → Lower β} {k : Position → β → Lower α}

theorem bind (hf : Rounds P f) (hk : ∀ b, Rounds P fun pos => k pos b) :
    Rounds P fun pos => f pos >>= k pos where
  fixed n := (hf.fixed n).bind fun b => (hk b).fixed n
  computed x v hx c s a s' h := by
    obtain ⟨b, t, hb, ha⟩ := lowers_bind.1 h
    exact (hf.computed x v hx c s b t hb).trans ((hk b).computed x v hx c t a s' ha)

theorem emit {m : Emit α} (hs : Leaves (Emitter.Steps Instr.Unindexed) m)
    (hi : ∀ X : VarId → Prop, (∀ x, X x → P x) → Leaves (Emitter.Inline X) m) :
    Rounds P fun _ => Lower.emit m where
  fixed _ := calm_emit hs (hi _ nofun)
  computed x _ hx _ _ _ _ h :=
    ((calm_emit hs (hi (· = x) fun _ h => h ▸ hx)).of_lowers h).works

theorem inputAt (i : Nat) : Rounds P (Lower.inputAt i) :=
  ⟨calm_inputAt i, fun _ _ _ _ _ _ _ => works_inputAt⟩

theorem storeOutputAt (i : Nat) (w : ValueId) : Rounds P fun pos => Lower.storeOutputAt i pos w :=
  ⟨fun n => calm_storeOutputAt i n w, fun _ _ _ _ _ _ _ => works_storeOutputAt⟩

end Rounds

/-- The number of a round is read from the variable of the loop. -/
theorem counts_counter {e e' : Emitter} {parts : Code.LoopParts}
    (h : Succeeds (CountedLoop.opened parts).counter e v e') : e'.body.Counts parts.var v := by
  obtain ⟨_, _, -, h⟩ := succeeds_bind.1 h
  obtain ⟨_, _, -, h⟩ := succeeds_bind.1 h
  exact Emit.before_of_define h

/-- The code for all elements is a loop if loops are not unrolled. -/
theorem loops_forEach {T : Nat → (Access → Nat → Prop) → Prop} {P : VarId → Prop} {n : Nat}
    {f : Position → Lower Unit} (h : Lowers c (forEach n f) s u s') (hf : Rounds P f)
    (hP : ∀ x, ¬ s.emitter.Own x → P x) (hn : c.site.Lengths n) : s.Loops T c s' := by
  rcases succeeds_forEach h with h | ⟨hlt, s₁, l, e₂, i, e₃, s₃, l', e₄, hgather, hbegin, hcounter,
    hbody, hfinish, rfl⟩
  · exact (Turns.of_lowers (.forM hf.fixed) h).loops
  have hcalm : s.Calm (fun _ => False) s₁ := calm_gatherInputs.of_lowers hgather
  obtain ⟨-, parts, _, rfl, hbegun, -, -, -, -, -, -, hown⟩ :=
    CountedLoop.begun_of_beginRange hbegin
  have hP := hP parts.var fun hx => hown (hx.mono (serves_gatherInputs.of_lowers hgather).grows)
  have hbegins : s₁.emitter.Steps Instr.Any e₂ := (Emit.leaves_beginRange _ _ _ _).of_succeeds hbegin
  have hreads : e₂.Steps Instr.Unindexed e₃ := (Emit.leaves_counter _).of_succeeds hcounter
  have hinline : e₂.Inline (· = parts.var) e₃ := (Emit.leaves_counter _).of_succeeds hcounter
  have hworks := hf.computed parts.var i hP _ _ _ _ hbody
  have hends : s₃.emitter.Steps Instr.Any e₄ := (Emit.leaves_finish fun _ _ =>
    ⟨Emit.leaves_switchTo _, Emit.leaves_switchTo _, fun _ => Emit.Moves.release _⟩).of_succeeds
      hfinish
  have hbefore : s.emitter.Steps Instr.Any e₃ := (hcalm.steps.any.trans hbegins).trans hreads.any
  refine ⟨(hbefore.trans hworks.steps).trans hends,
    fun p w hw => hcalm.arguments p w (hworks.arguments p w hw), fun hT hs hl => ?_⟩
  have hanchored : LowerState.Anchored { s₁ with emitter := e₃ } :=
    hs.mono hbefore.within hcalm.arguments
  exact Emitter.looped_of_loop (hcalm.inline.looped hcalm.steps hl) hlt hbegin
    (hinline.trans hworks.inline) (hreads.addresses.trans ⟨hworks.steps,
      hworks.indexes hanchored (counts_counter hcounter)⟩) hfinish (hT n hn)

theorem loops_lowerEach {T : Nat → (Access → Nat → Prop) → Prop} {element : Position → Lower ValueId}
    (h : Lowers c (Builtin.lowerEach element) s u s') (helement : Rounds (fun _ => True) element) :
    s.Loops T c s' := by
  obtain ⟨n, s₁, hsize, h⟩ := lowers_bind.1 h
  obtain ⟨o, ho, hn, rfl⟩ := lowers_outputSize.1 hsize
  exact loops_forEach h (helement.bind fun w => .storeOutputAt 0 w) (fun _ _ => trivial)
    (.inl ⟨o, List.mem_of_getElem? ho, hn⟩)

theorem rounds_addElement (total : VarId) : Rounds (· ≠ total) (Builtin.addElement total) := by
  refine (Rounds.inputAt 0).bind fun w => .emit ?_ fun X hX => ?_
  · exact (Emit.leaves_getVar _).bind fun _ => (Emit.leaves_operator _ _ _).bind fun _ =>
      Emit.leaves_setVar _ _
  · exact (Emit.leaves_getVar _).bind fun _ => (Emit.leaves_operator _ _ _).bind fun _ =>
      Emit.inline_setVar (fun htotal => hX total htotal rfl) _

/-- The total of a sum has a variable of its own, so that it is not the one of the loop. -/
theorem loops_lowerSum {T : Nat → (Access → Nat → Prop) → Prop} {t : ElemType}
    (h : Lowers c (Builtin.lowerSum t) s u s') (hs : s.emitter.Tidy) : s.Loops T c s' := by
  obtain ⟨l, zero, e₁, total, e₂, s₃, result, e₄, hl, hzero, htotal, heach, hresult, hstore⟩ :=
    Builtin.succeeds_lowerSum h
  have hzero₁ : s.Calm (fun _ => False) { s with emitter := e₁ } :=
    (calm_emit (Emit.leaves_literal _) (Emit.leaves_literal _)).of_lowers (c := c)
      (lowers_emit.2 ⟨e₁, hzero, rfl⟩)
  have htotal₁ : LowerState.Calm (fun _ => False) { s with emitter := e₁ } { s with emitter := e₂ } :=
    (calm_emit (Emit.leaves_localVar _) (Emit.leaves_localVar _)).of_lowers (c := c)
      (lowers_emit.2 ⟨e₂, htotal, rfl⟩)
  have hresult₁ : s₃.Calm (fun _ => False) { s₃ with emitter := e₄ } :=
    (calm_emit (Emit.leaves_getVar _) (Emit.leaves_getVar _)).of_lowers (c := c)
      (lowers_emit.2 ⟨e₄, hresult, rfl⟩)
  have hown := Emit.own_localVar htotal
    ((Emit.Linear.straight (Emit.leaves_literal _) hzero).toGrows.tidy hs)
  have hloop : LowerState.Loops T c { s with emitter := e₂ } s₃ :=
    loops_forEach heach (rounds_addElement total) (fun x hx hxt => hx (hxt ▸ hown))
      (.inr ⟨l, List.mem_of_getElem? hl, rfl⟩)
  exact ((hzero₁.trans htotal₁).loops.trans hloop).trans
    (hresult₁.trans ((calm_storeOutputAt 0 0 result).of_lowers hstore)).loops

/-- The code for a built-in node addresses elements in loops. -/
theorem loops_lower {T : Nat → (Access → Nat → Prop) → Prop} {b : Builtin}
    (h : Lowers c b.lower s u s') (hs : s.emitter.Tidy) : s.Loops T c s' := by
  cases b with
  | input t size =>
      obtain ⟨stored, s₁, hstored, h⟩ := lowers_bind.1 h
      obtain ⟨_, -, -, rfl⟩ := lowers_hasStorage.1 hstored
      split at h
      · obtain ⟨_, _, -, h⟩ := lowers_bind.1 h
        exact absurd h lowers_throw
      · obtain ⟨-, rfl⟩ := lowers_pure.1 h
        exact (LowerState.Calm.refl (X := fun _ => False) s).loops
  | constant values => exact ((calm_setOutputLiteral 0 values).of_lowers h).loops
  | binary t op x y =>
      exact loops_lowerEach h <| (Rounds.inputAt 0).bind fun _ => (Rounds.inputAt 1).bind fun _ =>
        .emit (Emit.leaves_operator _ _ _) fun _ _ => Emit.leaves_operator _ _ _
  | predicate t op x y =>
      exact loops_lowerEach h <| (Rounds.inputAt 0).bind fun _ => (Rounds.inputAt 1).bind fun _ =>
        .emit (Emit.leaves_compare _ _ _) fun _ _ => Emit.leaves_compare _ _ _
  | unary t op x =>
      exact loops_lowerEach h <| (Rounds.inputAt 0).bind fun _ =>
        .emit (Emit.leaves_unary _ _) fun _ _ => Emit.leaves_unary _ _
  | sum t x => exact loops_lowerSum h hs
  | cast t target x =>
      exact loops_lowerEach h <| (Rounds.inputAt 0).bind fun _ =>
        .emit (Emit.leaves_cast _ _) fun _ _ => Emit.leaves_cast _ _

end Operations

section Nodes

variable {T : Nat → (Access → Nat → Prop) → Prop} {g : Graph} {kind : Key → Builtin}
  {t t' : Code.Assembler × Progress} {s : LowerState} {k : Key} {u : Unit} {order : List Key}
  {uses : Table Port Nat} {kept : List Port} {position : Nat}

theorem upright_lowerNode (h : s.Upright T)
    (hg : ∀ e, g.entry? k = some e → e.node = (kind k).toNode)
    (hT : ∀ e, g.entry? k = some e → ∀ n, e.toSite.Lengths n → T n e.toSite.Offsets)
    (ht : Holds t s) (hm : Succeeds (lowerNode g uses kept k position) t u t') :
    ∃ s', Holds t' s' ∧ s'.Upright T := by
  obtain ⟨e, e₁, t₁, t₂, he, hlocation, ht₁, -, hentry, hports⟩ := succeeds_lowerNode hm ht
  obtain ⟨s₂, hlower, ht₂⟩ := succeeds_lowerEntry hentry ht₁
  obtain ⟨_, s₃, hnode, hfinish⟩ := lowers_bind.1 hlower
  rw [hg e he] at hnode
  have hnode : Lowers ⟨e.toSite, g.size⟩ (kind k).lower _ _ s₃ := hnode
  obtain ⟨hfrees, hstorage⟩ := succeeds_finish hfinish
  have hlocated := Emit.Linear.straight (Emit.leaves_location _) hlocation
  have hinline : s.emitter.Inline (fun _ => False) e₁ := (Emit.leaves_location _).of_succeeds hlocation
  have hsteps : s.emitter.Steps Instr.Unindexed e₁ := (Emit.leaves_location _).of_succeeds hlocation
  have hattends := ((kind k).regular_lower.attends).of_lowers hnode
  have h₁ : LowerState.Upright T { s with
      emitter := e₁, gathered := List.replicate e.inlets.length none, remarks := t₁.2.remarks } :=
    ⟨hlocated.toGrows.tidy h.tidy, hlocated.toGrows.declarations.sound h.sound,
      hsteps.within.id.trans h.id, hsteps.within.args.trans h.args,
      LowerState.Anchored.mono h.anchored hsteps.within fun _ _ h => h, hsteps.single h.single, hinline.looped hsteps h.looped⟩
  have h₂ : s₂.Upright T := ((loops_lower hnode h₁.tidy).upright h₁ hattends.passes hattends.tidy
    (hT e he)).of_frees hfrees fun p v hv => hstorage ▸ hv
  obtain ⟨s', ht', hsheds⟩ := succeeds_releasePorts hports
    (ht₂ (hfrees.passes.settings.trans hattends.passes.settings))
  have h₃ : LowerState.Upright T { s₂ with gathered := [] } :=
    ⟨h₂.tidy, h₂.sound, h₂.id, h₂.args, h₂.anchored, h₂.single, h₂.looped⟩
  exact ⟨s', ht', h₃.of_sheds hsheds⟩

theorem upright_lowerNodes (h : s.Upright T)
    (hg : ∀ k ∈ order, ∀ e, g.entry? k = some e → e.node = (kind k).toNode)
    (hT : ∀ k ∈ order, ∀ e, g.entry? k = some e → ∀ n, e.toSite.Lengths n → T n e.toSite.Offsets)
    (ht : Holds t s) (hm : Succeeds (order.zipIdx.forM fun (k, position) =>
      lowerNode g uses kept k position) t u t') : ∃ s', Holds t' s' ∧ s'.Upright T := by
  refine holds_of_forM (I := fun t => ∃ s, Holds t s ∧ s.Upright T) ⟨s, ht, h⟩ ?_ hm
  rintro ⟨k, position⟩ hk t₁ _ t₂ ⟨s₁, ht₁, h₁⟩ hnode
  have hk : k ∈ order := by
    simpa using List.mem_map_of_mem (f := Prod.fst) hk
  exact upright_lowerNode h₁ (hg k hk) (hT k hk) ht₁ hnode

end Nodes

section Copy

variable {T : Nat → (Access → Nat → Prop) → Prop} {e e' : Emitter} {output : ValueId} {a : Span}
  {spans : List Span} {before : Nat} {settings : Code.Settings} {s : LowerState} {u : Unit}
  {x : VarId} {i : ValueId}

theorem addresses_copyComputed (h : Succeeds (copyComputed s.storage output a before i) e u e')
    (hi : e.body.Counts x i) (ho : output ∈ e.body.args)
    (hs : ∀ v, s.storage.find? a.port = some (.argument v) → v ∈ e.body.args) :
    e.Addresses x (a.Offsets before) e' ∧ e.Inline (· = x) e' := by
  obtain ⟨source, e₁, hsource, h⟩ := succeeds_bind.1 h
  obtain ⟨n, e₂, hn, h⟩ := succeeds_bind.1 h
  obtain ⟨value, e₃, hload, h⟩ := succeeds_bind.1 h
  obtain ⟨m, e₄, hm, hstore⟩ := succeeds_bind.1 h
  have hs₁ : e.Steps Instr.Unindexed e₁ := (leaves_address _ _).of_succeeds hsource
  have hi₁ : e.Inline (· = x) e₁ := (leaves_address _ _).of_succeeds hsource
  have hs₂ : e₁.Steps Instr.Unindexed e₂ := (leaves_moved _ _).of_succeeds hn
  have hi₂ : e₁.Inline (· = x) e₂ := (leaves_moved _ _).of_succeeds hn
  have hs₃ : e₂.Steps Instr.Any e₃ := (Emit.leaves_loadDynamic _ _ _).of_succeeds hload
  have hi₃ : e₂.Inline (· = x) e₃ := (Emit.leaves_loadDynamic _ _ _).of_succeeds hload
  have hs₄ : e₃.Steps Instr.Unindexed e₄ := (leaves_moved _ _).of_succeeds hm
  have hi₄ : e₃.Inline (· = x) e₄ := (leaves_moved _ _).of_succeeds hm
  have hs₅ : e₄.Steps Instr.Any e' := (Emit.leaves_storeDynamic _ _ _).of_succeeds hstore
  have hi₅ : e₄.Inline (· = x) e' := (Emit.leaves_storeDynamic _ _ _).of_succeeds hstore
  have hcounts₁ := hi.mono hs₁.within hi₁.current
  have hcounts₃ := (hcounts₁.mono hs₂.within hi₂.current).mono hs₃.within hi₃.current
  have hargs : e₄.body.args = e.body.args := by
    rw [hs₄.within.args, hs₃.within.args, hs₂.within.args, hs₁.within.args]
  have haccess₃ : e₂.Addresses x (a.Offsets before) e₃ :=
    Emit.addresses_loadDynamic hload rfl (shifts_moved hn hcounts₁)
      ((anchors_address hsource hs).mono hs₂.within hi₂.current)
  have haccess₅ : e₄.Addresses x (a.Offsets before) e' :=
    Emit.addresses_storeDynamic hstore rfl (shifts_moved hm hcounts₃) (.inl (hargs ▸ ho))
  exact ⟨hs₁.addresses.trans (hs₂.addresses.trans (haccess₃.trans (hs₄.addresses.trans haccess₅))),
    hi₁.trans (hi₂.trans (hi₃.trans (hi₄.trans hi₅)))⟩

theorem looped_copySpan (h : Succeeds (copySpan settings s.storage output a before) e u e')
    (hl : e.body.Looped T) (hT : T a.length (a.Offsets before)) (ho : output ∈ e.body.args)
    (hs : ∀ v, s.storage.find? a.port = some (.argument v) → v ∈ e.body.args) :
    e.Steps Instr.Any e' ∧ e.Grows e' ∧ e'.body.Looped T := by
  rcases succeeds_copySpan h with h | ⟨hlt, l, e₁, i, e₂, e₃, l', hbegin, hcounter, hcopy, hfinish⟩
  · have hfixed : ∀ {R : Emitter → Emitter → Prop} [Emit.Frames R],
        Leaves R ((List.range a.length).forM (copyFixed s.storage output a before)) := fun {R} _ =>
      .forM fun i => (leaves_address _ _).bind fun _ => (Emit.leaves_load _ _ _).bind fun _ =>
        Emit.leaves_store _ _ _
    have hsteps : e.Steps Instr.Unindexed e' := hfixed.of_succeeds h
    have hinline : e.Inline (fun _ => False) e' := hfixed.of_succeeds h
    exact ⟨hsteps.any, (Emit.Linear.straight hfixed h).toGrows, hinline.looped hsteps hl⟩
  obtain ⟨-, parts, _, rfl, hbegun, -⟩ := CountedLoop.begun_of_beginRange hbegin
  have hbegins : e.Steps Instr.Any e₁ := (Emit.leaves_beginRange _ _ _ _).of_succeeds hbegin
  have hreads : e₁.Steps Instr.Unindexed e₂ := (Emit.leaves_counter _).of_succeeds hcounter
  have hinline : e₁.Inline (· = parts.var) e₂ := (Emit.leaves_counter _).of_succeeds hcounter
  have hends : e₃.Steps Instr.Any e' := (Emit.leaves_finish fun _ _ =>
    ⟨Emit.leaves_switchTo _, Emit.leaves_switchTo _, fun _ => Emit.Moves.release _⟩).of_succeeds
      hfinish
  have hargs : e₂.body.args = e.body.args := hreads.within.args.trans hbegins.within.args
  obtain ⟨hcopies, hinline'⟩ := addresses_copyComputed hcopy (counts_counter hcounter) (hargs ▸ ho)
    (hargs ▸ hs)
  obtain ⟨hgrows, hgrows', -⟩ := CountedLoop.advances_loop hbegin hcounter
    ((linear_copyComputed _ _ _ _ _).straight hcopy) hfinish hlt
  refine ⟨((hbegins.trans hreads.any).trans hcopies.steps).trans hends,
    (hgrows.trans ((linear_copyComputed _ _ _ _ _).straight hcopy).toGrows).trans hgrows', ?_⟩
  exact Emitter.looped_of_loop hl hlt hbegin (hinline.trans hinline') (hreads.addresses.trans hcopies)
    hfinish hT

theorem looped_copySpans (h : Succeeds (copySpans settings s.storage output spans before) e u e')
    (hl : e.body.Looped T) (hT : ∀ front a back, spans = front ++ a :: back →
      T a.length (a.Offsets (before + (front.map (·.length)).sum)))
    (ho : output ∈ e.body.args)
    (hs : ∀ p v, s.storage.find? p = some (.argument v) → v ∈ e.body.args) :
    e.Steps Instr.Any e' ∧ e.Grows e' ∧ e'.body.Looped T := by
  induction spans generalizing before e with
  | nil =>
      obtain ⟨-, rfl⟩ := succeeds_pure.1 h
      exact ⟨.refl, .refl _, hl⟩
  | cons a spans ih =>
      obtain ⟨_, e₁, hfirst, hrest⟩ := succeeds_bind.1 h
      obtain ⟨hsteps₁, hgrows₁, hl₁⟩ := looped_copySpan hfirst hl (hT [] a spans rfl) ho (hs a.port)
      have hargs : e₁.body.args = e.body.args := hsteps₁.within.args
      obtain ⟨hsteps₂, hgrows₂, hl₂⟩ := ih hrest hl₁ (fun front a' back hspans => by
        have hT := hT (a :: front) a' back (by rw [hspans, List.cons_append])
        rwa [List.map_cons, List.sum_cons, ← Nat.add_assoc] at hT) (hargs ▸ ho) (hargs ▸ hs)
      exact ⟨hsteps₁.trans hsteps₂, hgrows₁.trans hgrows₂, hl₂⟩

end Copy

section Build

variable {T : Nat → (Access → Nat → Prop) → Prop} {kind : Key → Builtin} {t : Transform} {plan : Plan}
  {p : Progress} {s : Selection} {order : List Key} {a a₁ a₂ : Code.Assembler} {b b' : Code.Body}
  {e : Emitter}

/-- No block is there but the first one, and it is empty. -/
theorem upright_start (h : Succeeds (Code.Assembler.beginFunction plan.function
    [⟨"input", .ptr⟩, ⟨"output", .ptr⟩] none) (Code.Assembler.new plan.module plan.settings) () a)
    (he : Emits a e) (ho : Opening plan e) : (start t e).Upright T := by
  obtain ⟨-, rfl⟩ := Code.Assembler.succeeds_beginFunction.1 h
  have hbody := Option.some.inj he.opened
  refine ⟨ho.tidy, ho.sound, ho.id, ho.args, fun p v hv => ?_, ?_, ?_⟩
  · change v ∈ e.body.args
    rw [find?_start] at hv
    split at hv
    · rw [← Storage.argument.inj (Option.some.inj hv), ho.args]
      exact List.mem_cons_self
    · cases hv
  · have hecho : (Code.Body.new ⟨0⟩ plan.function [⟨"input", .ptr⟩, ⟨"output", .ptr⟩] none).Echoes
        e.body := by
      rw [← hbody]
      exact .of_blocks rfl (Nat.le_refl _) rfl
    exact hecho.single (Code.Body.single_new _)
  · have hblocks : e.body.blocks = #[{ label := "entry" }] := by
      obtain ⟨args, types, hnew⟩ := Code.Body.new_eq ⟨0⟩ plan.function
        [⟨"input", .ptr⟩, ⟨"output", .ptr⟩] none
      rw [← hbody]
      exact congrArg Code.Body.blocks hnew
    have hblock : ∀ {g : Nat} {k : Code.Block}, e.body.blocks[g]? = some k → k = { label := "entry" } :=
      fun hk => Array.mem_singleton.1 (hblocks ▸ Array.mem_of_getElem? hk)
    refine ⟨?_, fun g t ht => ?_, fun g p result base index scale ho => ?_⟩
    · change e.body.current.index < e.body.blocks.size
      rw [ho.current, hblocks]
      exact Nat.one_pos
    · obtain ⟨k, hk, ht⟩ := ht
      rw [hblock hk] at ht
      cases ht
    · obtain ⟨k, hk, hi⟩ := ho
      rw [hblock hk] at hi
      cases hi

/-- The function of a transform, before it is ended. -/
theorem looped_of_builds (h : Builds t plan p s order a a₁ a₂) (hp : p.storage = ∅)
    (hg : t.graph.BuiltFrom kind) : ∃ e', Emits a₁ e' ∧ e'.declarations.Sound ∧ e'.body.id = ⟨0⟩ ∧
      e'.body.args = [⟨0⟩, ⟨1⟩] ∧ e'.body.Single ∧ e'.body.Looped (Iterates t.graph order s) := by
  obtain ⟨e, ha, he⟩ := exists_opening h.begins
  have hstart := upright_start (T := Iterates t.graph order s) (t := t) h.begins ha he
  obtain ⟨p', hlowers⟩ := h.lowers
  obtain ⟨i, t₁, hinput, h₁⟩ := succeeds_bind.1 hlowers
  obtain ⟨_, e₁, harg, rfl, ha₁⟩ := succeeds_emitting hinput ha
  obtain ⟨rfl, rfl⟩ := (succeeds_arguments he).1.1 harg
  obtain ⟨o, t₂, houtput, h₂⟩ := succeeds_bind.1 h₁
  obtain ⟨a₃, e₂, harg', rfl, ha₂⟩ := succeeds_emitting houtput (ha₁ rfl)
  obtain ⟨rfl, rfl⟩ := (succeeds_arguments he).2.1 harg'
  obtain ⟨_, t₃, hmodify, h₃⟩ := succeeds_bind.1 h₂
  obtain rfl := succeeds_modify.1 hmodify
  obtain ⟨_, t₄, hnodes, h₄⟩ := succeeds_bind.1 h₃
  obtain ⟨⟨a₅, p₅⟩, _, hget, h₅⟩ := succeeds_bind.1 h₄
  obtain ⟨rfl, rfl⟩ := succeeds_get.1 hget
  obtain ⟨_, t₆, hcopy, hreturn⟩ := succeeds_bind.1 h₅
  have hholds : Holds (a₃, { p with storage := p.storage.insert ⟨t.input, 0⟩ (.argument ⟨0⟩) })
      (start t e₂) := ⟨ha₂ rfl, by rw [hp]; rfl⟩
  obtain ⟨s₁, ht₁, hs₁⟩ := upright_lowerNodes hstart (fun k _ => hg k)
    (fun k hk e he n hn => .node hk he hn) hholds hnodes
  obtain ⟨a₆, e₆, hspans, rfl, ha₆⟩ := succeeds_emitting hcopy ht₁.emits
  have hstorage : p₅.storage = s₁.storage := ht₁.storage
  rw [hstorage] at hspans
  obtain ⟨hsteps, hgrows, hlooped⟩ := looped_copySpans hspans hs₁.looped (fun before a after hspans => by
    rw [Nat.zero_add]
    exact .span hspans) (by rw [hs₁.args]; simp) hs₁.anchored
  obtain ⟨a₇, e₇, hvoid, heq, ha₇⟩ := succeeds_emitting hreturn (ha₆ hgrows.settings)
  obtain ⟨rfl, -⟩ := Prod.mk.inj heq
  obtain ⟨b, hb, rfl⟩ := succeeds_returnVoid hvoid
  exact ⟨_, ha₇ rfl, hgrows.declarations.sound hs₁.sound,
    (Code.Body.within_terminate hb).id.trans (hgrows.body.id.trans hs₁.id),
    (Code.Body.within_terminate hb).args.trans (hgrows.body.args.trans hs₁.args),
    (Code.Body.Echoes.terminate hb).single (hsteps.single hs₁.single), hlooped.terminate hb rfl⟩

end Build

end Lower

/-- In compiled code addresses of elements are computed in loops, of which it is known how often they run
and what they add to the number of a round. -/
theorem Compiled.looped_of_compile {kind : Key → Builtin} {t : Transform} {plan : Lower.Plan}
    {c : Compiled} {remarks : List Remark} (hg : t.graph.BuiltFrom kind)
    (h : compile t plan = (.ok c, remarks)) : ∃ s order, t.output 0 = .ok s ∧
      t.graph.dependencyOrder [s] = .ok order ∧
      (∀ b ∈ c.code.bodies, b = c.entry ∨ ∃ op t, b.IsHelper op t) ∧ c.entry.args = [⟨0⟩, ⟨1⟩] ∧
      c.entry.Single ∧ c.entry.checkOrder = .ok () ∧
        c.entry.Looped (Lower.Iterates t.graph order s) := by
  obtain ⟨s, order, a, a₁, a₂, hbuilds, hassembled⟩ := compile_eq_ok h
  obtain ⟨hcode, hentry, -, -⟩ := ofAssembler_eq_ok hassembled
  obtain ⟨e', ha, hsound, hid, hargs, hsingle, hlooped⟩ := Lower.looped_of_builds hbuilds rfl hg
  obtain ⟨body, b, helpers, hends⟩ := Code.Assembler.succeeds_endFunction hbuilds.ends
  obtain rfl : body = e'.body := Option.some.inj (hends.opened.symm.trans ha.opened)
  refine ⟨s, order, hbuilds.output, hbuilds.sorted, ?_⟩
  have hb : b.id = ⟨0⟩ ∧ b.args = [⟨0⟩, ⟨1⟩] ∧ b.Single ∧
      b.Looped (Lower.Iterates t.graph order s) := by
    rcases Code.Assembler.implicitReturn_eq_ok hends.finished with rfl | ⟨-, hret⟩
    · exact ⟨hid, hargs, hsingle, hlooped⟩
    · exact ⟨(Code.Body.within_terminate hret).id.trans hid,
        (Code.Body.within_terminate hret).args.trans hargs,
        (Code.Body.Echoes.terminate hret).single hsingle, hlooped.terminate hret rfl⟩
  have hmodule := hends.module hcode ha.defined (ha.declarations ▸ hsound) hb.1
  obtain rfl := hmodule.exported _ _ hentry
  exact ⟨fun b' => hends.isHelper hcode ha.defined (ha.declarations ▸ hsound), hb.2.1, hb.2.2.1,
    hends.ordered, hb.2.2.2⟩

end Dataflow
