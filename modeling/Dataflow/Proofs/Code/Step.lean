import Dataflow.Proofs.Code.Operations

/-!
# Steps of an emission

Operations change an emitter in a few elementary ways. Whatever is called, granted or refused, what
has become of the emitter has been made by such steps; what each of them keeps, every call keeps. All
but a few operations record no address that depends on an index.
-/

namespace Dataflow.Code

/-- Any instruction at all. -/
abbrev Instr.Any : Instr → Prop := fun _ => True

namespace Emitter

/-- The elementary changes of an emitter, where only some instructions are recorded. A value that an
instruction defines has been handed out for it. -/
inductive Step (P : Instr → Prop) (e : Emitter) : Emitter → Prop
  | value (t : Ty) : Step P e { e with body := (e.body.newValue t).2 }
  | var (t : Ty) : Step P e { e with body := (e.body.newVar t).2 }
  | block (label : String) : Step P e { e with body := (e.body.newBlock label).2 }
  | push {i : Instr} {b : Body} (hi : P i) (hd : i.defines = none) :
      e.body.push i = .ok b → Step P e { e with body := b }
  | define {t : Ty} {i : Instr} {b : Body} (hi : P i)
      (hd : i.defines = some ⟨e.body.valueTypes.size⟩) :
      (e.body.newValue t).2.push i = .ok b → Step P e { e with body := b }
  | terminate {t : Terminator} {b : Body} :
      e.body.terminate t = .ok b → Step P e { e with body := b }
  | switchTo {id : BlockId} {b : Body} :
      e.body.switchTo id = .ok b → Step P e { e with body := b }
  | pools (ps : Pools) : Step P e { e with pools := ps }
  | scratch (index : Nat) (x : VarId) : Step P e { e with
      body := { e.body with scratchVars := e.body.scratchVars.insert index x } }
  | place (index bytes : Nat) : Step P e { e with
      body := { (e.body.newPlace bytes).2 with
        bufferPlaces := e.body.bufferPlaces.insert index (e.body.newPlace bytes).1 } }
  | location (text : String) : Step P e { e with
      body := { e.body with locations := e.body.locations.push text } }
  | helper {op : Operator} {t : Ty} {id : FunctionId} {d : Declarations} :
      e.declarations.helper op t = .ok (id, d) → Step P e { e with declarations := d }
  /-- Data are named after slots. -/
  | datum (s : Slot) (bytes : List UInt8) (writable : Bool) : Step P e { e with
      declarations := (e.declarations.addDatum ⟨s.name, bytes, writable⟩).2 }

abbrev Steps (P : Instr → Prop) : Emitter → Emitter → Prop := Relation.ReflTransGen (Step P)

variable {P Q : Instr → Prop} {e e' : Emitter}

/-- What no step changes is as it was. -/
theorem Steps.keeps {R : Emitter → Prop} (h : Steps P e e')
    (hR : ∀ e e', Step P e e' → R e → R e') (he : R e) : R e' := by
  induction h with
  | refl => exact he
  | tail _ hstep ih => exact hR _ _ hstep ih

theorem Steps.within (h : Steps P e e') : e.body.Within e'.body := by
  refine h.keeps (R := fun e₁ => e.body.Within e₁.body) (fun e₁ e₂ hstep he => he.trans ?_) (.refl _)
  cases hstep with
  | value t => exact Body.within_newValue _ t
  | var t => exact Body.within_newVar _ t
  | block label => exact Body.within_newBlock _ label
  | push hi hd hb => exact Body.within_push hb
  | define hi hd hb => exact (Body.within_newValue _ _).trans (Body.within_push hb)
  | terminate hb => exact Body.within_terminate hb
  | switchTo hb => exact Body.within_switchTo hb
  | place index bytes => exact ⟨rfl, rfl, fun _ k hk => ⟨k, hk, .refl k⟩, .refl _, .refl _, .push _ _⟩
  | _ => exact ⟨rfl, rfl, fun _ k hk => ⟨k, hk, .refl k⟩, .refl _, .refl _, .refl _⟩

theorem Step.mono (hPQ : ∀ i, P i → Q i) (h : Step P e e') : Step Q e e' := by
  cases h with
  | value t => exact .value t
  | var t => exact .var t
  | block label => exact .block label
  | push hi hd hb => exact .push (hPQ _ hi) hd hb
  | define hi hd hb => exact .define (hPQ _ hi) hd hb
  | terminate hb => exact .terminate hb
  | switchTo hb => exact .switchTo hb
  | pools ps => exact .pools ps
  | scratch index x => exact .scratch index x
  | place index bytes => exact .place index bytes
  | location text => exact .location text
  | helper hd => exact .helper hd
  | datum s bytes writable => exact .datum s bytes writable

theorem Steps.any (h : Steps P e e') : Steps Instr.Any e e' :=
  Relation.ReflTransGen.mono (fun _ _ => Step.mono fun _ _ => trivial) _ _ h

end Emitter

namespace Emit

variable {α β : Type}

abbrev Moves (P : Instr → Prop) (m : Emit α) : Prop := Leaves (Emitter.Steps P) m

variable {P : Instr → Prop}

namespace Moves

theorem update {g : Emitter → Emitter} (h : ∀ e : Emitter, Emitter.Step P e (g e)) :
    Moves P (modify g : Emit PUnit) := fun e => .single (h e)

theorem push {i : Instr} (hi : P i) (hd : i.defines = none) : Moves P (Emit.push i) :=
  .of_runs (fun e _ _ h => by
    obtain ⟨b, hb, rfl⟩ := succeeds_push.1 h
    exact .single (.push hi hd hb)) fun _ _ _ h => (fails_push.1 h).2 ▸ .refl

/-- A value is handed out, even if its instruction cannot be recorded. -/
theorem define (t : Ty) {instr : ValueId → Instr} (hi : ∀ v, P (instr v))
    (hd : ∀ v, (instr v).defines = some v) : Moves P (Emit.define t instr) := by
  refine .of_runs (fun e v e' h => ?_) fun e f e' h => ?_
  · obtain ⟨rfl, b, hb, rfl⟩ := succeeds_define.1 h
    exact .single (.define (hi _) (hd _) hb)
  · rw [(fails_define.1 h).2]
    exact .single (.value t)

theorem release (s : Slot) : Moves P (Emit.release s) :=
  fun e => by
    rw [run_release]
    exact .single (.pools _)

theorem scratchVar (slot : Slot) (t : Ty) : Moves P (Emit.scratchVar slot t) := by
  have hnew : Moves P (do
      let x ← newVar t
      modify fun e => { e with
        body := { e.body with scratchVars := e.body.scratchVars.insert slot.index x } }
      return x) :=
    .bind (fun _ => .single (.var t)) fun x =>
      (update fun _ => .scratch slot.index x).bind fun _ => .pure x
  refine leaves_body.bind fun b => ?_
  split
  · exact (leaves_check _).bind fun _ => .ite (.pure _) hnew
  · exact hnew

theorem bufferPlace (slot : Slot) (bytes : Nat) : Moves P (Emit.bufferPlace slot bytes) := by
  refine .after_get fun e => ?_
  have hnew : e.Steps P ((do
      Emit.setBody { (e.body.newPlace bytes).2 with
        bufferPlaces := e.body.bufferPlaces.insert slot.index (e.body.newPlace bytes).1 }
      return (e.body.newPlace bytes).1 : Emit StackId).run.run e).2 :=
    .single (.place slot.index bytes)
  cases e.body.bufferPlaces.find? slot.index with
  | none => exact hnew
  | some place =>
      dsimp only
      split
      · exact .refl
      · exact hnew

theorem records (hP : ∀ i : Instr, i.Plain → P i) : Records (Emitter.Steps P) where
  newValue t := fun _ => .single (.value t)
  newVar t := fun _ => .single (.var t)
  push i hi hd := push (hP i hi) hd
  define t _ hi hd := define t (fun v => hP _ (hi v)) hd
  allocate _ := fun _ => .single (.pools _)
  takeScratch t := .bind (fun _ => .single (.pools _)) fun slot => (scratchVar slot t).bind fun _ =>
    .pure _
  stackBuffer _ _ := .refuse (.bind (fun _ => .single (.pools _)) fun _ =>
    (bufferPlace _ _).bind fun _ => .pure _)
  helper _ _ _ _ h := .single (.helper h)
  datum _ s bytes writable := .single (.datum s bytes writable)
  describe _ text := .single (.location text)

end Moves

instance : Records (Emitter.Steps Instr.Unindexed) := Moves.records fun _ h => h.unindexed

instance : Records (Emitter.Steps Instr.Any) := Moves.records fun _ _ => trivial

instance : Offsets (Emitter.Steps Instr.Any) where
  offset _ _ _ := Moves.define _ (fun _ => trivial) fun _ => rfl

instance [Records (Emitter.Steps P)] : Branches (Emitter.Steps P) where
  createBlock label := fun _ => .single (.block label)
  terminate t := .of_runs (fun e _ _ h => by
    obtain ⟨b, hb, rfl⟩ := succeeds_terminate.1 h
    exact .single (.terminate hb)) fun _ _ _ h => (fails_terminate.1 h).2 ▸ .refl
  switchTo id := .of_runs (fun e _ _ h => by
    obtain ⟨b, hb, rfl⟩ := succeeds_switchTo.1 h
    exact .single (.switchTo hb)) fun _ _ _ h => (fails_switchTo.1 h).2 ▸ .refl

instance : Frames (Emitter.Steps Instr.Unindexed) where
  bufferAddress _ := Moves.define _ (fun _ => trivial) fun _ => rfl

/-- Whatever is called, steps have been made and nothing else. -/
theorem Moves.perform (c : Call) : Moves Instr.Any c.perform :=
  leaves_perform (fun slot _ => release slot) (fun slot _ _ => release slot) fun _ _ => define _ (fun _ => trivial) fun _ => rfl

end Emit

end Dataflow.Code
