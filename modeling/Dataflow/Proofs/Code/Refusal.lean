import Dataflow.Proofs.Code.Stray

/-!
# Calls that are refused

A call may do several things before one fails, and what it has done stays done. Most calls have only
taken numbers then, which nobody notices, and neither does anybody notice the bytes of a literal
array under a name that nothing else bears. A few overreach: the begin of a loop has made its blocks,
its end has closed the body, a source location has been noted, or a helper has been asked for.
-/

namespace Dataflow.Code

namespace Emitter

structure Spares (e e' : Emitter) : Prop where
  rest : e' = { e with body := e'.body, pools := e'.pools }
  body : e.body.Spares e'.body

theorem Spares.refl (e : Emitter) : e.Spares e := ⟨rfl, .refl _⟩

theorem Spares.trans {e e' e'' : Emitter} (h : e.Spares e') (h' : e'.Spares e'') : e.Spares e'' := by
  refine ⟨?_, h.body.trans h'.body⟩
  rw [h'.rest, h.rest]

instance : Std.Refl Spares := ⟨.refl⟩

instance : IsTrans Emitter Spares := ⟨fun _ _ _ => .trans⟩

end Emitter

/-- Asking for the helper of an operator would declare it. -/
def Emitter.Recruits (e : Emitter) (op : Operator) (t : Ty) : Prop :=
  e.settings.inline = false ∧ e.declarations.helpers.find? (op, t) = none ∧
    e.declarations.find? (Declarations.helperName op t) = none

/-- The call gets past its checks to something that stays, and may fail after that. -/
def Call.Overreaches (e : Emitter) : Call → Prop
  | .operator op lhs rhs => ∃ t, e.body.valueType lhs = .ok t ∧ e.body.valueType rhs = .ok t ∧
      op.accepts t = true ∧ e.Recruits (.binary op) t
  | .unary op operand => ∃ t, e.body.valueType operand = .ok t ∧ op.accepts t = true ∧
      e.Recruits (.unary op) t
  | .literalArray _ => e.declarations.Bears (e.pools.allocate .literal).1.name
  | .location _ => e.settings.diagnostics = true
  | .beginRange l _ _ step => l = .idle ∧ 0 < step
  | .beginCount l _ => l = .idle
  | .beginDynamic l count => l = .idle ∧ ∃ t, e.body.valueType count = .ok t ∧ t.isInteger = true
  | .finish l => ∃ parts k, l = .opened parts ∧ parts.increment.index < e.body.blocks.size ∧
      e.body.OpenAt e.body.current k
  | _ => False

/-- The datum that is there before the call is refused. -/
def Call.leftover (ps : Pools) : Call → Option Datum
  | .literalArray values => some ⟨(ps.allocate .literal).1.name, values.bytes, false⟩
  | _ => none

namespace Emit

variable {α β : Type} {e e' : Emitter} {f : Fault}

abbrev Inert (m : Emit α) : Prop := Leaves Emitter.Spares m

namespace Inert

theorem newValue (t : Ty) : Inert (Emit.newValue t) :=
  fun _ => ⟨rfl, rfl, .push _ _, .refl _⟩

theorem newVar (t : Ty) : Inert (Emit.newVar t) := fun _ => ⟨rfl, rfl, .refl _, .push _ _⟩

theorem allocate (scope : Scope) : Inert (Emit.allocate scope) := fun _ => ⟨rfl, .refl _⟩

theorem release (s : Slot) : Inert (Emit.release s) := by
  intro e
  rw [run_release]
  exact ⟨rfl, .refl _⟩

theorem scratchVar (slot : Slot) (t : Ty) : Inert (Emit.scratchVar slot t) := by
  have hnew : Inert (do
      let x ← Emit.newVar t
      modify fun e => { e with
        body := { e.body with scratchVars := e.body.scratchVars.insert slot.index x } }
      return x) :=
    (newVar t).bind fun x e => ⟨rfl, rfl, .refl _, .refl _⟩
  refine leaves_body.bind fun b => ?_
  split
  · exact (leaves_check _).bind fun _ => .ite (.pure _) hnew
  · exact hnew

end Inert

def Clean (m : Emit α) (e : Emitter) : Prop := ∀ f e', Fails m e f e' → e.Spares e'

namespace Clean

theorem of_inert {m : Emit α} (h : Inert m) : Clean m e := by
  intro f e' hf
  have he := h e
  rwa [show m.run.run e = _ from hf] at he

theorem throw (f : Fault) : Clean (MonadExcept.throw f : Emit α) e := of_inert (.throw f)

/-- After numbers have been taken, more of them may be. -/
theorem bind {m : Emit β} {k : β → Emit α} (hm : Inert m)
    (hk : ∀ b t, Succeeds m e b t → Clean (k b) t) : Clean (m >>= k) e := by
  intro f e' hf
  rcases fails_bind.1 hf with hf | ⟨b, t, hb, hf⟩
  · exact of_inert hm f e' hf
  · have ht := hm e
    rw [show m.run.run e = _ from hb] at ht
    exact ht.trans (hk b t hb f e' hf)

/-- What is left to do does not fail. -/
theorem sure {m : Emit β} {k : β → Emit α} (hm : Clean m e)
    (hk : ∀ b t, Succeeds m e b t → ∀ f e', ¬ Fails (k b) t f e') : Clean (m >>= k) e := by
  intro f e' hf
  rcases fails_bind.1 hf with hf | ⟨b, t, hb, hf⟩
  · exact hm f e' hf
  · exact absurd hf (hk b t hb f e')

theorem map {m : Emit β} {g : β → α} (hm : Clean m e) : Clean (g <$> m) e :=
  fun f e' hf => hm f e' (fails_map.1 hf)

theorem refuse {c : Prop} [Decidable c] {f : Fault} {k : β → Emit α} {m : Emit α}
    (hm : ¬ c → Clean m e) : Clean (if c then MonadExcept.throw f >>= k else m) e := by
  by_cases hc : c
  · rw [if_pos hc]
    exact of_inert fun e => .refl e
  · rw [if_neg hc]
    exact hm hc

theorem push (i : Instr) : Clean (Emit.push i) e := fun _ _ hf => (fails_push.1 hf).2 ▸ .refl e

theorem terminate (t : Terminator) : Clean (Emit.terminate t) e :=
  fun _ _ hf => (fails_terminate.1 hf).2 ▸ .refl e

theorem switchTo (id : BlockId) : Clean (Emit.switchTo id) e :=
  fun _ _ hf => (fails_switchTo.1 hf).2 ▸ .refl e

theorem define (t : Ty) (instr : ValueId → Instr) : Clean (Emit.define t instr) e :=
  bind (Inert.newValue t) fun _ _ _ => (push _).sure fun _ _ _ _ _ => fails_pure

end Clean

section Open

variable {i : Instr} {t : Ty} {instr : ValueId → Instr}

/-- A block that has taken an instruction is still open. -/
theorem openAt_of_push {u : Unit} (h : Succeeds (push i) e u e') :
    ∃ k, e'.body.OpenAt e'.body.current k := by
  obtain ⟨b, hb, rfl⟩ := succeeds_push.1 h
  obtain ⟨⟨k, hk, hopen⟩, rfl⟩ := Body.push_eq_ok_iff.1 hb
  refine ⟨{ k with instrs := k.instrs.push i }, ?_, hopen⟩
  change (e.body.blocks.modify e.body.current.index _)[e.body.current.index]? = _
  rw [Array.getElem?_modify, if_pos rfl, hk]
  rfl

theorem openAt_of_define {v : ValueId} (h : Succeeds (define t instr) e v e') :
    ∃ k, e'.body.OpenAt e'.body.current k := by
  obtain ⟨_, _, -, h⟩ := succeeds_bind.1 h
  obtain ⟨_, _, hpush, h⟩ := succeeds_bind.1 h
  obtain ⟨-, rfl⟩ := succeeds_pure.1 h
  exact openAt_of_push hpush

theorem not_fails_push (h : ∃ k, e.body.OpenAt e.body.current k) : ¬ Fails (push i) e f e' := by
  intro hf
  have hpush := (Body.push_eq_ok_iff (i := i)).2 ⟨h, rfl⟩
  cases hpush.symm.trans (fails_push.1 hf).1

theorem not_fails_define (h : ∃ k, e.body.OpenAt e.body.current k) :
    ¬ Fails (define t instr) e f e' := by
  intro hf
  rcases fails_bind.1 hf with hf | ⟨v, _, hv, hf⟩
  · exact fails_newValue hf
  obtain ⟨-, rfl⟩ := succeeds_newValue.1 hv
  rcases fails_bind.1 hf with hf | ⟨_, _, -, hf⟩
  · exact not_fails_push (e := { e with body := (e.body.newValue t).2 }) h hf
  · exact fails_pure hf

end Open

theorem openAt_of_elementAddress {t : Ty} {address index v : ValueId}
    (h : Succeeds (elementAddress t address index) e v e') :
    ∃ k, e'.body.OpenAt e'.body.current k := by
  obtain ⟨_, _, -, h⟩ := succeeds_bind.1 h
  obtain ⟨_, _, -, h⟩ := succeeds_bind.1 h
  split at h
  · obtain ⟨_, _, h, -⟩ := succeeds_bind.1 h
    exact absurd h succeeds_throw
  · exact openAt_of_define h

theorem of_succeeds_jump {target : BlockId} {u : Unit} (h : Succeeds (jump target) e u e') :
    (∃ k, e.body.OpenAt e.body.current k) ∧ target.index < e.body.blocks.size := by
  simp only [jump, succeeds_bind, succeeds_body, succeeds_check, succeeds_terminate] at h
  obtain ⟨_, _, ⟨rfl, rfl⟩, k, _, ⟨hk, rfl⟩, b, hb, -⟩ := h
  exact ⟨(Body.terminate_eq_ok_iff.1 hb).1,
    (Array.getElem?_eq_some_iff.1 (Body.block_eq_ok_iff.1 hk)).1⟩

/-- A jump that is refused has not happened. -/
theorem eq_of_fails_jump {target : BlockId} (h : Fails (jump target) e f e') : e' = e := by
  rcases fails_bind.1 h with h | ⟨_, _, hb, h⟩
  · exact absurd h fails_body
  obtain ⟨rfl, rfl⟩ := succeeds_body.1 hb
  rcases fails_bind.1 h with h | ⟨_, _, hc, h⟩
  · exact (fails_check.1 h).2.symm
  · obtain ⟨-, rfl⟩ := succeeds_check.1 hc
    exact (fails_terminate.1 h).2.symm

theorem not_fails_addDatum (d : Datum) : ¬ Fails (addDatum d) e f e' := by simp [addDatum]

namespace Clean

theorem elementAddress (t : Ty) (address index : ValueId) :
    Clean (Emit.elementAddress t address index) e :=
  bind (leaves_expectType _ _) fun _ _ _ => bind (leaves_valueType _) fun _ _ _ => refuse fun _ => define _ _

theorem load (t : Ty) (address : ValueId) (index : Nat) : Clean (Emit.load t address index) e :=
  bind (leaves_expectType _ _) fun _ _ _ => bind (leaves_elementOffset _ _) fun _ _ _ => define _ _

theorem loadDynamic (t : Ty) (address index : ValueId) :
    Clean (Emit.loadDynamic t address index) e :=
  (elementAddress _ _ _).sure fun _ _ h _ _ => not_fails_define (openAt_of_elementAddress h)

theorem store (address : ValueId) (index : Nat) (value : ValueId) :
    Clean (Emit.store address index value) e :=
  bind (leaves_expectType _ _) fun _ _ _ => bind (leaves_valueType _) fun _ _ _ =>
    bind (leaves_elementOffset _ _) fun _ _ _ => push _

theorem storeDynamic (address index value : ValueId) :
    Clean (Emit.storeDynamic address index value) e :=
  bind (leaves_valueType _) fun _ _ _ => (elementAddress _ _ _).sure fun _ _ h _ _ =>
    not_fails_push (openAt_of_elementAddress h)

theorem binary (op : BinaryOp) (lhs rhs : ValueId) : Clean (Emit.binary op lhs rhs) e :=
  bind (leaves_operandType _ _ _) fun _ _ _ => define _ _

theorem compare (op : CompareOp) (lhs rhs : ValueId) : Clean (Emit.compare op lhs rhs) e :=
  bind (leaves_valueType _) fun _ _ _ => bind (leaves_expectType _ _) fun _ _ _ => refuse fun _ => define _ _

theorem select (c x y : ValueId) : Clean (Emit.select c x y) e :=
  bind (leaves_expectType _ _) fun _ _ _ => bind (leaves_valueType _) fun _ _ _ =>
    bind (leaves_expectType _ _) fun _ _ _ => define _ _

theorem cast (value : ValueId) (t : Ty) : Clean (Emit.cast value t) e := by
  refine bind (leaves_valueType _) fun s _ _ => ?_
  split
  · exact of_inert (.pure _)
  · exact refuse fun _ => define _ _

theorem localVar (initial : ValueId) : Clean (Emit.localVar initial) e :=
  bind (leaves_valueType _) fun _ _ _ => bind (Inert.newVar _) fun _ _ _ => (push _).sure fun _ _ _ _ _ =>
    fails_pure

theorem getVar (x : VarId) : Clean (Emit.getVar x) e :=
  bind leaves_body fun _ _ _ => bind (leaves_check _) fun _ _ _ => define _ _

theorem setVar (x : VarId) (value : ValueId) : Clean (Emit.setVar x value) e :=
  bind leaves_body fun _ _ _ => bind (leaves_check _) fun _ _ _ => bind (leaves_expectType _ _) fun _ _ _ => push _

theorem scratch (initial : ValueId) : Clean (Emit.scratch initial) e :=
  bind (leaves_valueType _) fun _ _ _ => bind (Inert.allocate _) fun _ _ _ => bind (Inert.scratchVar _ _) fun _ _ _ =>
    (push _).sure fun _ _ _ _ _ => fails_pure

/-- Only a frame that is too large is refused, before anything is taken. -/
theorem stackBuffer (t : Ty) (length : Nat) : Clean (Emit.stackBuffer t length) e :=
  refuse fun _ => bind (Inert.allocate _) fun _ _ _ f e' h => by
    rcases fails_bind.1 h with h | ⟨_, _, -, h⟩
    · exact absurd h not_fails_bufferPlace
    · exact absurd h fails_pure

theorem literalData (values : Values) : Clean (Emit.literalData values) e :=
  bind (Inert.allocate _) fun _ _ _ _ _ h => absurd h (not_fails_addDatum _)

theorem globalArray (t : Ty) (length : Nat) : Clean (Emit.globalArray t length) e :=
  refuse fun _ => bind (Inert.allocate _) fun _ _ _ _ _ h => absurd h (not_fails_addDatum _)

theorem dataAddress (id : DatumId) : Clean (Emit.dataAddress id) e :=
  bind .get fun _ _ _ => bind (leaves_check _) fun _ _ _ => define _ _

theorem call (name : String) (args : List ValueId) : Clean (Emit.call name args) e := by
  refine bind .get fun g _ _ => ?_
  dsimp only
  split
  · refine bind (leaves_check _) fun s _ _ => refuse fun _ => bind (leaves_expectTypes _ _) fun _ _ _ => ?_
    split
    · exact (define _ _).map
    · exact (push _).sure fun _ _ _ _ _ => fails_pure
  · exact throw _

theorem jump (target : BlockId) : Clean (Emit.jump target) e :=
  bind leaves_body fun _ _ _ => bind (leaves_check _) fun _ _ _ => terminate _

theorem branch (condition : ValueId) (ifTrue ifFalse : BlockId) :
    Clean (Emit.branch condition ifTrue ifFalse) e :=
  bind (leaves_expectType _ _) fun _ _ _ => bind leaves_body fun _ _ _ => bind (leaves_check _) fun _ _ _ =>
    bind (leaves_check _) fun _ _ _ => terminate _

theorem returnValue (value : ValueId) : Clean (Emit.returnValue value) e := by
  refine bind leaves_body fun b _ _ => ?_
  split
  · exact bind (leaves_expectType _ _) fun _ _ _ => terminate _
  · exact bind (leaves_valueType _) fun _ _ _ => bind (.throw _) fun _ _ _ => terminate _

theorem returnVoid : Clean Emit.returnVoid e := by
  refine bind leaves_body fun b _ _ => ?_
  split
  · exact bind (.throw _) fun _ _ _ => terminate _
  · exact terminate _

theorem location (text : String) (h : e.settings.diagnostics = false) :
    Clean (Emit.location text) e := by
  refine bind leaves_settings fun s t hs => ?_
  obtain ⟨rfl, rfl⟩ := succeeds_settings.1 hs
  rw [h]
  exact of_inert (.pure _)

/-- A helper that is there already is only named, and one that cannot be declared is not. -/
theorem callHelper {op : Operator} {t : Ty} (args : List ValueId)
    (h : e.declarations.helpers.find? (op, t) = none →
      e.declarations.find? (Declarations.helperName op t) ≠ none) :
    Clean (Emit.callHelper op t args) e := by
  refine bind .get fun g _ hg => ?_
  obtain ⟨rfl, rfl⟩ := succeeds_get.1 hg
  refine bind (leaves_check _) fun r _ hr => ?_
  obtain ⟨hd, rfl⟩ := succeeds_check.1 hr
  obtain ⟨id, d⟩ := r
  obtain ⟨-, rfl⟩ | ⟨⟨hfind, hname⟩, -⟩ := Declarations.helper_cases hd
  · intro f e' hf
    rcases fails_bind.1 hf with hf | ⟨_, _, hmodify, hf⟩
    · exact absurd hf fails_modify
    · obtain rfl := succeeds_modify.1 hmodify
      exact define _ _ f e' hf
  · exact absurd hname (h hfind)

theorem operator {op : BinaryOp} {lhs rhs : ValueId} (h : ¬ (Call.operator op lhs rhs).Overreaches e) :
    Clean (Emit.operator op lhs rhs) e := by
  refine bind leaves_settings fun s _ hs => ?_
  obtain ⟨rfl, rfl⟩ := succeeds_settings.1 hs
  split
  · exact binary op lhs rhs
  · next hinline =>
      refine bind (leaves_operandType _ _ _) fun t _ ht => ?_
      obtain ⟨⟨hl, hr, hop⟩, rfl⟩ := succeeds_operandType_iff.1 ht
      exact callHelper _ fun hfind hname => h ⟨t, Body.valueType_eq_ok_iff.2 hl,
        Body.valueType_eq_ok_iff.2 hr, hop, by simpa using hinline, hfind, hname⟩

theorem unary {op : UnaryOp} {operand : ValueId} (h : ¬ (Call.unary op operand).Overreaches e) :
    Clean (Emit.unary op operand) e := by
  refine bind (leaves_valueType _) fun t _ ht => ?_
  obtain ⟨hv, rfl⟩ := succeeds_valueType.1 ht
  refine refuse fun hop => bind leaves_settings fun s _ hs => ?_
  obtain ⟨rfl, rfl⟩ := succeeds_settings.1 hs
  split
  · exact define _ _
  · next hinline =>
      exact callHelper _ fun hfind hname => h ⟨t, Body.valueType_eq_ok_iff.2 hv, by simpa using hop,
        by simpa using hinline, hfind, hname⟩

/-- A loop that has been begun already is refused before blocks are made for it. -/
theorem requireIdle {l : CountedLoop} {k : PUnit → Emit α} (h : l ≠ .idle) :
    Clean (l.requireIdle >>= k) e := by
  cases l with
  | idle => exact absurd rfl h
  | opened parts => exact bind (.throw _) fun _ _ h => absurd h succeeds_throw
  | closed parts => exact bind (.throw _) fun _ _ h => absurd h succeeds_throw

theorem beginRange {l : CountedLoop} {start bound step : Int32} (h : ¬ (l = .idle ∧ 0 < step)) :
    Clean (l.beginRange start bound step) e := by
  refine refuse fun hstep => requireIdle fun hl => h ⟨hl, ?_⟩
  exact Int32.not_le.1 hstep

theorem beginDynamic {l : CountedLoop} {count : ValueId}
    (h : ¬ (Call.beginDynamic l count).Overreaches e) : Clean (l.beginDynamic count) e := by
  refine bind (leaves_valueType _) fun t _ ht => ?_
  obtain ⟨hv, rfl⟩ := succeeds_valueType.1 ht
  refine refuse fun hinteger => requireIdle fun hl => h ⟨hl, t, Body.valueType_eq_ok_iff.2 hv, ?_⟩
  simpa using hinteger

theorem counter (l : CountedLoop) : Clean l.counter e := by
  cases l with
  | idle => exact throw _
  | closed parts => exact throw _
  | opened parts => exact getVar parts.var

/-- A loop whose body cannot be left stays as it is. -/
theorem finish {l : CountedLoop} (h : ¬ (Call.finish l).Overreaches e) : Clean l.finish e := by
  cases l with
  | idle => exact throw _
  | closed parts => exact throw _
  | opened parts =>
      intro f e' hf
      rcases fails_bind.1 hf with hf | ⟨_, _, hjump, -⟩
      · exact jump parts.increment f e' hf
      · obtain ⟨⟨k, hk⟩, htarget⟩ := of_succeeds_jump hjump
        exact absurd ⟨parts, k, rfl, htarget, hk⟩ h

end Clean

/-- What is refused without overreaching has only taken numbers, unless it leaves a datum. -/
theorem clean_perform (c : Call) (h : ¬ c.Overreaches e) (hnone : c.leftover e.pools = none) :
    Clean c.perform e := by
  cases c with
  | argument name => exact .of_inert (leaves_argument name).map
  | argumentSlot name => exact .of_inert (leaves_argumentSlot name).map
  | allocate scope => exact .of_inert (Inert.allocate scope).map
  | release slot => exact .of_inert (Inert.release slot).map
  | createBlock label => exact .map fun f e' hf => absurd hf fails_createBlock
  | switchTo id => exact (Clean.switchTo id).map
  | literal value => exact (Clean.define _ _).map
  | load t address index => exact (Clean.load t address index).map
  | loadDynamic t address index => exact (Clean.loadDynamic t address index).map
  | store address index value => exact (Clean.store address index value).map
  | storeDynamic address index value => exact (Clean.storeDynamic address index value).map
  | operator op lhs rhs => exact (Clean.operator h).map
  | binary op lhs rhs => exact (Clean.binary op lhs rhs).map
  | unary op operand => exact (Clean.unary h).map
  | compare op lhs rhs => exact (Clean.compare op lhs rhs).map
  | select condition ifTrue ifFalse => exact (Clean.select condition ifTrue ifFalse).map
  | cast value target => exact (Clean.cast value target).map
  | localVar initial => exact (Clean.localVar initial).map
  | getVar x => exact (Clean.getVar x).map
  | setVar x value => exact (Clean.setVar x value).map
  | scratch initial => exact (Clean.scratch initial).map
  | freeScratch slot => exact .of_inert (Leaves.refuse (Inert.release slot)).map
  | stackBuffer t length => exact (Clean.stackBuffer t length).map
  | bufferAddress buffer => exact (Clean.define _ _).map
  | releaseBuffer buffer => exact .of_inert (Inert.release buffer.slot).map
  | literalData values => exact (Clean.literalData values).map
  | literalArray values => cases hnone
  | globalArray t length => exact (Clean.globalArray t length).map
  | dataAddress id => exact (Clean.dataAddress id).map
  | call name args => exact (Clean.call name args).map
  | jump target => exact (Clean.jump target).map
  | branch condition ifTrue ifFalse => exact (Clean.branch condition ifTrue ifFalse).map
  | returnValue value => exact (Clean.returnValue value).map
  | returnVoid => exact Clean.returnVoid.map
  | location description => exact (Clean.location description (by simpa [Call.Overreaches] using h)).map
  | beginRange l start bound step => exact (Clean.beginRange h).map
  | beginCount l count => exact (Clean.beginRange fun hl => h hl.1).map
  | beginDynamic l count => exact (Clean.beginDynamic h).map
  | counter l => exact (Clean.counter l).map
  | finish l => exact (Clean.finish h).map

/-- The bytes of a literal array are there before their address is refused. -/
theorem of_fails_literalArray {values : Values} (h : Fails (literalArray values) e f e') : ∃ t,
    e.Spares t ∧ e' = { t with declarations := (e.declarations.addDatum
      ⟨(e.pools.allocate .literal).1.name, values.bytes, false⟩).2 } := by
  have hdata : (literalData values).run.run e = (.ok ⟨e.declarations.data.size⟩, { e with
    pools := (e.pools.allocate .literal).2
    declarations := (e.declarations.addDatum
      ⟨(e.pools.allocate .literal).1.name, values.bytes, false⟩).2 }) := rfl
  have hrun : (literalArray values).run.run e = (.error f, e') := h
  rw [literalArray, run_bind, hdata] at hrun
  have hspares := Clean.dataAddress _ f e' hrun
  refine ⟨{ e' with declarations := e.declarations }, ⟨?_, hspares.body⟩, ?_⟩
  all_goals rw [hspares.rest]

end Emit

namespace Assembler

variable {a a' : Assembler} {f : Fault}

/-- At most the datum has come in. -/
def Gains (x? : Option Datum) (a a' : Assembler) : Prop :=
  a' = a ∨ ∃ x ∈ x?, ∃ id, a.Strays id x a'

/-- What a call has spared in the open function, it has spared in the module. -/
theorem Spares.of_emitter {b : Body} {e : Emitter} (hb : a.current? = some b)
    (h : Emitter.Spares ⟨b, a.declarations, a.pools, a.settings⟩ e) :
    a.Spares { a with body := some e.body, declarations := e.declarations, pools := e.pools } := by
  refine ⟨by rw [h.rest], ?_, (Spares.refl a).defined⟩
  rw [(current?_eq_some_iff.1 hb).2]
  exact .some h.body

theorem spares_of_fails_emit {c : Call} (h : Fails (emit c.perform) a f a') (ha : a.SymbolsNamed)
    (hc : ∀ b, a.current? = some b → ¬ c.Overreaches ⟨b, a.declarations, a.pools, a.settings⟩) :
    ∃ s, a.Spares s ∧ s.Gains (c.leftover a.pools) a' := by
  by_cases hopen : ∃ b, a.current? = some b
  swap
  · have hrun := run_emit_of_not_opened c.perform fun b hb => hopen ⟨b, hb⟩
    obtain ⟨-, rfl⟩ := Prod.mk.inj (hrun.symm.trans h)
    exact ⟨a, .refl a, .inl rfl⟩
  obtain ⟨b, hb⟩ := hopen
  rcases hrun : c.perform.run.run ⟨b, a.declarations, a.pools, a.settings⟩ with ⟨r, e'⟩
  obtain ⟨rfl, rfl⟩ := Prod.mk.inj ((run_emit_of_opened hb hrun).symm.trans h)
  cases hleft : c.leftover a.pools with
  | none => exact ⟨_, .of_emitter hb (Emit.clean_perform c (hc b hb) hleft f e' hrun), .inl rfl⟩
  | some x =>
      cases c with
      | literalArray values =>
          obtain rfl := Option.some.inj hleft
          obtain ⟨t, ht, rfl⟩ := Emit.of_fails_literalArray (fails_map.1 hrun)
          have hspares := Spares.of_emitter hb ht
          have hd : t.declarations = a.declarations := by rw [ht.rest]
          rw [hd] at hspares
          exact ⟨_, hspares, .inr ⟨_, rfl, _, .of_addDatum ha (hc b hb)⟩⟩
      | _ => cases hleft

/-- A call that is refused without overreaching has no effect on the function: ending it has the same
outcome, and the same functions are in the listing. -/
theorem endFunction_of_refused (name : String) (settings : Settings) (requests : List Request)
    (c : Call) (f : Fault) (a' : Assembler)
    (h : Fails (Request.emit c).perform ((new name settings).after requests) f a')
    (hc : ∀ b, ((new name settings).after requests).current? = some b → ¬ c.Overreaches ⟨b,
      ((new name settings).after requests).declarations, ((new name settings).after requests).pools,
      ((new name settings).after requests).settings⟩) :
    (endFunction.run.run a').1 = (endFunction.run.run ((new name settings).after requests)).1 ∧
    (∃ s, (endFunction.run.run ((new name settings).after requests)).2.Spares s ∧
      s.Gains (c.leftover ((new name settings).after requests).pools) (endFunction.run.run a').2) ∧
    (endFunction.run.run a').2.listing =
      (endFunction.run.run ((new name settings).after requests)).2.listing := by
  have ha := typed_after (typed_new name settings) requests
  obtain ⟨s, hspares, hgains⟩ := spares_of_fails_emit h (symbolsNamed_after name settings requests) hc
  obtain ⟨hr, hs⟩ := tallies_endFunction hspares ha
  rcases hgains with rfl | ⟨x, hx, id, hstrays⟩
  · exact ⟨hr.symm, ⟨_, hs, .inl rfl⟩, hs.listing⟩
  · obtain ⟨hr', hs'⟩ := tallies_endFunction_of_strays hstrays
    exact ⟨(hr.trans hr').symm, ⟨_, hs, .inr ⟨x, hx, id, hs'⟩⟩, hs'.listing.trans hs.listing⟩

/-- A function that has returned takes no literal array, and ends as it would have. -/
theorem endFunction_of_refused_literal :
    ((new "m").after [.begin "f" [] none, .emit .returnVoid]).stage = .opened ∧
    ∃ f a', Fails (Request.emit (.literalArray (.integers [1, 2]))).perform
      ((new "m").after [.begin "f" [] none, .emit .returnVoid]) f a' ∧
    a'.declarations.data.size = 1 ∧ (endFunction.run.run a').1 = .ok () := by
  have hrefused : ((Request.emit (.literalArray (.integers [1, 2]))).perform.run.run
      ((new "m").after [.begin "f" [] none, .emit .returnVoid])).1 =
        .error (.sequencing (.closedBlock 0 "entry" "f")) := by cbv
  have hend : (endFunction.run.run
      ((new "m").after [.begin "f" [] none, .emit .returnVoid])).1 = .ok () := by cbv
  have hdata : ((Request.emit (.literalArray (.integers [1, 2]))).perform.run.run
      ((new "m").after [.begin "f" [] none, .emit .returnVoid])).2.declarations.data.size = 1 := by cbv
  have hfunctions : ((new "m").after [.begin "f" [] none, .emit .returnVoid]).declarations.functions =
      #[⟨"f", [], none, true⟩] := by cbv
  have hnone : ((new "m").after [.begin "f" [] none, .emit .returnVoid]).declarations.data = #[] := by
    cbv
  have hname : (((new "m").after [.begin "f" [] none, .emit .returnVoid]).pools.allocate .literal).1.name =
      "c_0" := by cbv
  refine ⟨by cbv, _, _, Prod.ext hrefused rfl, hdata, (endFunction_of_refused "m" {} _ _ _ _
    (Prod.ext hrefused rfl) fun b _ => ?_).1.trans hend⟩
  simp [Call.Overreaches, Declarations.Bears, hfunctions, hnone, hname]

/-- The function could have been ended before the loop was begun in it, and no more after that. -/
theorem effect_of_refused_begin :
    ((Request.emit (.beginCount .idle 1)).perform.run.run
      ((new "m").after [.begin "f" [] none, .emit .returnVoid])).1 =
        .error (.sequencing (.closedBlock 0 "entry" "f")) ∧
    (endFunction.run.run ((new "m").after [.begin "f" [] none, .emit .returnVoid])).1 = .ok () ∧
    (endFunction.run.run ((new "m").after
      [.begin "f" [] none, .emit .returnVoid, .emit (.beginCount .idle 1)])).1 =
        .error (.sequencing (.unterminated "f"
          ["for.init", "for.cond", "for.body", "for.inc", "for.after"])) :=
  ⟨by cbv, by cbv, by cbv⟩

end Assembler

end Dataflow.Code
