import Dataflow.Proofs.Code.Call
import Dataflow.Proofs.Code.Emit

/-!
# Types of recorded code

Every instruction and every terminator that a recording holds has operands of the types that it
takes and a result of the type that it gives. Calls that are refused leave it that way, in whatever
order and state they are made. For what is typed there is always an instruction to lower it to.
-/

namespace Dataflow.Code

/-- What code is typed against: the types of the values and variables of its function, the
signatures of the functions that it can call, its result and how many blocks and data there are. -/
structure TypeEnv where
  values : Array Ty
  vars : Array Ty
  functions : Array Signature
  result : Option Ty
  blocks : Nat
  data : Nat

namespace TypeEnv

def Has (Γ : TypeEnv) (v : ValueId) (t : Ty) : Prop := Γ.values[v.index]? = some t

def HasVar (Γ : TypeEnv) (x : VarId) (t : Ty) : Prop := Γ.vars[x.index]? = some t

structure Within (Γ Γ' : TypeEnv) : Prop where
  values : Prefix Γ.values Γ'.values
  vars : Prefix Γ.vars Γ'.vars
  functions : Prefix Γ.functions Γ'.functions
  result : Γ'.result = Γ.result
  blocks : Γ.blocks ≤ Γ'.blocks
  data : Γ.data ≤ Γ'.data

variable {Γ Γ' Γ'' : TypeEnv} {v : ValueId} {x : VarId} {t : Ty}

theorem Within.refl (Γ : TypeEnv) : Γ.Within Γ :=
  ⟨.refl _, .refl _, .refl _, rfl, Nat.le_refl _, Nat.le_refl _⟩

theorem Within.trans (h : Γ.Within Γ') (h' : Γ'.Within Γ'') : Γ.Within Γ'' :=
  ⟨h.values.trans h'.values, h.vars.trans h'.vars, h.functions.trans h'.functions,
    h'.result.trans h.result, h.blocks.trans h'.blocks, h.data.trans h'.data⟩

theorem Has.mono (h : Γ.Has v t) (hΓ : Γ.Within Γ') : Γ'.Has v t := hΓ.values _ _ h

theorem Has.mono_option {r : Option ValueId} {t : Option Ty} (h : Option.Rel Γ.Has r t)
    (hΓ : Γ.Within Γ') : Option.Rel Γ'.Has r t := by
  cases h with
  | none => exact .none
  | some h => exact .some (h.mono hΓ)

theorem HasVar.mono (h : Γ.HasVar x t) (hΓ : Γ.Within Γ') : Γ'.HasVar x t := hΓ.vars _ _ h

end TypeEnv

/-- Operands have the types that the instruction takes, and its result has the type it gives. -/
def Instr.Typed (Γ : TypeEnv) : Instr → Prop
  | .location _ => True
  | .const result value => Γ.Has result value.ty
  | .stackAddress result _ => Γ.Has result .ptr
  | .datumAddress result datum => Γ.Has result .ptr ∧ datum.index < Γ.data
  | .offset result base index _ =>
    Γ.Has result .ptr ∧ Γ.Has base .ptr ∧ ∃ t, Γ.Has index t ∧ t.isInteger = true
  | .load result address _ => Γ.Has address .ptr ∧ ∃ t, Γ.Has result t
  | .store address _ value => Γ.Has address .ptr ∧ ∃ t, Γ.Has value t
  | .binary result op lhs rhs =>
    ∃ t, Γ.Has result t ∧ Γ.Has lhs t ∧ Γ.Has rhs t ∧ op.accepts t = true
  | .unary result op operand => ∃ t, Γ.Has result t ∧ Γ.Has operand t ∧ op.accepts t = true
  | .compare result _ lhs rhs => Γ.Has result .bool ∧ ∃ t, Γ.Has lhs t ∧ Γ.Has rhs t ∧ t ≠ .ptr
  | .select result condition ifTrue ifFalse =>
    Γ.Has condition .bool ∧ ∃ t, Γ.Has result t ∧ Γ.Has ifTrue t ∧ Γ.Has ifFalse t
  | .cast result value =>
    ∃ source target, Γ.Has value source ∧ Γ.Has result target ∧
      Emit.convertible source target = true
  | .readVar result var => ∃ t, Γ.HasVar var t ∧ Γ.Has result t
  | .writeVar var value => ∃ t, Γ.HasVar var t ∧ Γ.Has value t
  | .call result function args =>
    ∃ s, Γ.functions[function.index]? = some s ∧ List.Forall₂ Γ.Has args s.params ∧
      Option.Rel Γ.Has result s.result

def Terminator.Typed (Γ : TypeEnv) : Terminator → Prop
  | .jump target => target.index < Γ.blocks
  | .branch condition ifTrue ifFalse =>
    Γ.Has condition .bool ∧ ifTrue.index < Γ.blocks ∧ ifFalse.index < Γ.blocks
  | .ret value => Option.Rel Γ.Has value Γ.result

structure Block.Typed (Γ : TypeEnv) (k : Block) : Prop where
  instrs : ∀ i ∈ k.instrs, i.Typed Γ
  terminator : ∀ t, k.terminator = some t → t.Typed Γ

section Mono

variable {Γ Γ' : TypeEnv}

theorem Instr.Typed.mono {i : Instr} (h : i.Typed Γ) (hΓ : Γ.Within Γ') : i.Typed Γ' := by
  cases i with
  | location index => trivial
  | const result value => exact TypeEnv.Has.mono h hΓ
  | stackAddress result slot => exact TypeEnv.Has.mono h hΓ
  | datumAddress result datum => exact ⟨h.1.mono hΓ, h.2.trans_le hΓ.data⟩
  | offset result base index scale =>
      obtain ⟨hr, hb, t, hi, ht⟩ := h
      exact ⟨hr.mono hΓ, hb.mono hΓ, t, hi.mono hΓ, ht⟩
  | load result address offset =>
      obtain ⟨ha, t, hr⟩ := h
      exact ⟨ha.mono hΓ, t, hr.mono hΓ⟩
  | store address offset value =>
      obtain ⟨ha, t, hv⟩ := h
      exact ⟨ha.mono hΓ, t, hv.mono hΓ⟩
  | binary result op lhs rhs =>
      obtain ⟨t, hr, hx, hy, ht⟩ := h
      exact ⟨t, hr.mono hΓ, hx.mono hΓ, hy.mono hΓ, ht⟩
  | unary result op operand =>
      obtain ⟨t, hr, hx, ht⟩ := h
      exact ⟨t, hr.mono hΓ, hx.mono hΓ, ht⟩
  | compare result op lhs rhs =>
      obtain ⟨hr, t, hx, hy, ht⟩ := h
      exact ⟨hr.mono hΓ, t, hx.mono hΓ, hy.mono hΓ, ht⟩
  | select result condition ifTrue ifFalse =>
      obtain ⟨hc, t, hr, hx, hy⟩ := h
      exact ⟨hc.mono hΓ, t, hr.mono hΓ, hx.mono hΓ, hy.mono hΓ⟩
  | cast result value =>
      obtain ⟨s, t, hv, hr, ht⟩ := h
      exact ⟨s, t, hv.mono hΓ, hr.mono hΓ, ht⟩
  | readVar result var =>
      obtain ⟨t, hx, hr⟩ := h
      exact ⟨t, hx.mono hΓ, hr.mono hΓ⟩
  | writeVar var value =>
      obtain ⟨t, hx, hv⟩ := h
      exact ⟨t, hx.mono hΓ, hv.mono hΓ⟩
  | call result function args =>
      obtain ⟨s, hs, hargs, hr⟩ := h
      exact ⟨s, hΓ.functions _ _ hs, hargs.imp fun _ _ ha => ha.mono hΓ,
        TypeEnv.Has.mono_option hr hΓ⟩

theorem Terminator.Typed.mono {t : Terminator} (h : t.Typed Γ) (hΓ : Γ.Within Γ') : t.Typed Γ' := by
  cases t with
  | jump target => exact lt_of_lt_of_le h hΓ.blocks
  | branch condition ifTrue ifFalse =>
      exact ⟨h.1.mono hΓ, h.2.1.trans_le hΓ.blocks, h.2.2.trans_le hΓ.blocks⟩
  | ret value =>
      rw [Typed] at h ⊢
      rw [hΓ.result]
      exact TypeEnv.Has.mono_option h hΓ

theorem Block.Typed.mono {k : Block} (h : k.Typed Γ) (hΓ : Γ.Within Γ') : k.Typed Γ' :=
  ⟨fun i hi => (h.instrs i hi).mono hΓ, fun t ht => (h.terminator t ht).mono hΓ⟩

end Mono

def Body.typing (b : Body) (d : Declarations) : TypeEnv :=
  ⟨b.valueTypes, b.varTypes, d.functions, b.result, b.blocks.size, d.data.size⟩

/-- A body whose code is typed and which takes and returns what is declared of it. -/
structure Body.Typed (b : Body) (d : Declarations) : Prop where
  blocks : ∀ k ∈ b.blocks, k.Typed (b.typing d)
  args : List.Forall₂ (b.typing d).Has b.args (b.params.map (·.ty))
  declared : ∃ s, d.functions[b.id.index]? = some s ∧ s.params = b.params.map (·.ty) ∧
    s.result = b.result

/-- Whatever function is the helper of an operator takes its operands and returns its result. -/
def Declarations.IsHelper (d : Declarations) (op : Operator) (t : Ty) (id : FunctionId) : Prop :=
  op.accepts t = true ∧ ∃ s, d.functions[id.index]? = some s ∧
    s.params = List.replicate op.arity t ∧ s.result = some t

theorem Declarations.IsHelper.mono {d d' : Declarations} {op : Operator} {t : Ty} {id : FunctionId}
    (h : d.IsHelper op t id) (hf : Prefix d.functions d'.functions) : d'.IsHelper op t id := by
  obtain ⟨hop, s, hs, hsig⟩ := h
  exact ⟨hop, s, hf _ _ hs, hsig⟩

structure Declarations.Typed (d : Declarations) : Prop where
  helpers : ∀ op t id, d.helpers.find? (op, t) = some id → d.IsHelper op t id
  pending : ∀ r ∈ d.pending, d.IsHelper r.op r.ty r.function

structure Declarations.Asks (d d' : Declarations) : Prop where
  helpers : ∀ op t id, d'.helpers.find? (op, t) = some id →
    d.helpers.find? (op, t) = some id ∨ ⟨id, op, t⟩ ∈ d'.pending
  pending : ∀ r ∈ d.pending, r ∈ d'.pending

theorem Declarations.Asks.refl (d : Declarations) : d.Asks d :=
  ⟨fun _ _ _ h => .inl h, fun _ h => h⟩

theorem Declarations.Asks.trans {d d' d'' : Declarations} (h : d.Asks d') (h' : d'.Asks d'') :
    d.Asks d'' := by
  refine ⟨fun op t id hid => ?_, fun r hr => h'.pending r (h.pending r hr)⟩
  rcases h'.helpers op t id hid with hid | hid
  · exact (h.helpers op t id hid).imp_right (h'.pending _)
  · exact .inr hid

namespace Emitter

def typing (e : Emitter) : TypeEnv := e.body.typing e.declarations

structure Typed (e : Emitter) : Prop where
  body : e.body.Typed e.declarations
  declarations : e.declarations.Typed

structure Onto (e e' : Emitter) : Prop where
  typing : e.typing.Within e'.typing
  id : e'.body.id = e.body.id
  params : e'.body.params = e.body.params
  args : e'.body.args = e.body.args
  asks : e.declarations.Asks e'.declarations

variable {e e' e'' : Emitter}

theorem Onto.refl (e : Emitter) : e.Onto e := ⟨.refl _, rfl, rfl, rfl, .refl _⟩

theorem Onto.trans (h : e.Onto e') (h' : e'.Onto e'') : e.Onto e'' :=
  ⟨h.typing.trans h'.typing, h'.id.trans h.id, h'.params.trans h.params, h'.args.trans h.args,
    h.asks.trans h'.asks⟩

/-- Code that is new has to be typed; the rest stays so. -/
theorem Typed.onto (h : e.Typed) (ho : e.Onto e') (hd : e'.declarations.Typed)
    (hblocks : ∀ k ∈ e'.body.blocks, k ∈ e.body.blocks ∨ k.Typed e'.typing) : e'.Typed := by
  obtain ⟨s, hs, hparams, hresult⟩ := h.body.declared
  refine ⟨⟨fun k hk => ?_, ?_, s, ?_, ?_, ?_⟩, hd⟩
  · rcases hblocks k hk with hk | hk
    · exact (h.body.blocks k hk).mono ho.typing
    · exact hk
  · rw [ho.args, ho.params]
    exact h.body.args.imp fun _ _ ha => ha.mono ho.typing
  · rw [ho.id]
    exact ho.typing.functions _ _ hs
  · rw [ho.params, hparams]
  · rw [hresult]
    exact ho.typing.result.symm

end Emitter

theorem Declarations.function_eq_ok_iff {d : Declarations} {id : FunctionId} {s : Signature} :
    d.function id = .ok s ↔ d.functions[id.index]? = some s := by
  unfold Declarations.function
  cases d.functions[id.index]? <;> simp

namespace Emit

variable {α β : Type}

/-- Run in the state `e`, the operation keeps the recording typed, whether it succeeds or fails,
and if it succeeds then with `Q`. -/
def Checks (m : Emit α) (e : Emitter) (Q : α → Emitter → Prop) : Prop :=
  e.Typed → (m.run.run e).2.Typed ∧ e.Onto (m.run.run e).2 ∧
    ∀ a, (m.run.run e).1 = .ok a → Q a (m.run.run e).2

namespace Checks

variable {e : Emitter} {Q : α → Emitter → Prop}

theorem pure {a : α} (h : Q a e) : Checks (Pure.pure a) e Q := by
  intro he
  refine ⟨he, .refl e, fun a' ha => ?_⟩
  obtain rfl : a = a' := Except.ok.inj ha
  exact h

theorem throw (f : Fault) : Checks (MonadExcept.throw f) e Q :=
  fun he => ⟨he, .refl e, fun _ ha => by cases ha⟩

theorem bind {m : Emit β} {f : β → Emit α} {R : β → Emitter → Prop} (hm : Checks m e R)
    (hf : ∀ b e', e.Onto e' → R b e' → Checks (f b) e' Q) : Checks (m >>= f) e Q := by
  intro he
  obtain ⟨ht, ho, hr⟩ := hm he
  rw [run_bind]
  rcases hrun : m.run.run e with ⟨r, e'⟩
  rw [hrun] at ht ho hr
  cases r with
  | error f => exact ⟨ht, ho, fun _ ha => by cases ha⟩
  | ok b =>
      obtain ⟨ht', ho', hq⟩ := hf b e' ho (hr b rfl) ht
      exact ⟨ht', ho.trans ho', hq⟩

theorem imp {m : Emit α} {R : α → Emitter → Prop} (hm : Checks m e R)
    (h : ∀ a e', R a e' → Q a e') : Checks m e Q := by
  intro he
  obtain ⟨ht, ho, hr⟩ := hm he
  exact ⟨ht, ho, fun a ha => h _ _ (hr a ha)⟩

theorem weaken {m : Emit α} (hm : Checks m e Q) : Checks m e fun _ _ => True :=
  hm.imp fun _ _ _ => trivial

/-- An operation that refuses some operands and goes on with the others. -/
theorem refuse {c : Prop} [Decidable c] {f : Fault} {k : β → Emit α} {m : Emit α}
    (h : ¬ c → Checks m e Q) : Checks (if c then MonadExcept.throw f >>= k else m) e Q := by
  split
  · exact (throw (Q := fun _ _ => False) f).bind fun _ _ _ h => h.elim
  · next hc => exact h hc

theorem map {m : Emit β} {f : β → α} {R : β → Emitter → Prop} (hm : Checks m e R)
    (h : ∀ b e', R b e' → Q (f b) e') : Checks (f <$> m) e Q := by
  rw [map_eq_pure_bind]
  exact hm.bind fun b e' _ hr => pure (h b e' hr)

theorem assume {m : Emit α} (h : e.Typed → Checks m e Q) : Checks m e Q := fun he => h he he

/-- Looking at the state does not change it. -/
theorem get : Checks MonadState.get e fun a e' => a = e ∧ e' = e := by
  intro he
  refine ⟨he, .refl e, fun a ha => ?_⟩
  obtain rfl : e = a := Except.ok.inj ha
  exact ⟨rfl, rfl⟩

theorem check {r : Except Fault α} : Checks (Emit.check r) e fun a e' => r = .ok a ∧ e' = e := by
  cases r with
  | ok a => exact pure ⟨rfl, rfl⟩
  | error f => exact throw f

theorem body : Checks Emit.body e fun b e' => b = e.body ∧ e' = e := by
  refine get.bind fun a e' _ h => ?_
  obtain ⟨rfl, rfl⟩ := h
  exact pure ⟨rfl, rfl⟩

theorem settings : Checks Emit.settings e fun s e' => s = e.settings ∧ e' = e := by
  refine get.bind fun a e' _ h => ?_
  obtain ⟨rfl, rfl⟩ := h
  exact pure ⟨rfl, rfl⟩

theorem update {f : Emitter → Emitter} (ho : e.Onto (f e))
    (hd : e.declarations.Typed → (f e).declarations.Typed)
    (hblocks : ∀ k ∈ (f e).body.blocks, k ∈ e.body.blocks ∨ k.Typed (f e).typing) :
    Checks (modify f : Emit PUnit) e fun _ e' => e' = f e :=
  fun he => ⟨he.onto ho (hd he.declarations) hblocks, ho, fun _ _ => rfl⟩

end Checks

section Primitives

variable {e : Emitter} {t : Ty}

theorem checks_valueType (v : ValueId) :
    Checks (valueType v) e fun t e' => e.typing.Has v t ∧ e' = e := by
  refine Checks.body.bind fun b e' _ h => ?_
  obtain ⟨rfl, rfl⟩ := h
  exact Checks.check.imp fun t e' h => ⟨Body.valueType_eq_ok_iff.1 h.1, h.2⟩

theorem checks_expectType (v : ValueId) (t : Ty) :
    Checks (expectType v t) e fun _ e' => e.typing.Has v t ∧ e' = e := by
  refine (checks_valueType v).bind fun found e' _ h => ?_
  obtain ⟨hfound, rfl⟩ := h
  split
  · exact Checks.throw _
  · next ht => exact Checks.pure ⟨not_not.1 ht ▸ hfound, rfl⟩

theorem checks_elementOffset (t : Ty) (index : Nat) :
    Checks (elementOffset t index) e fun _ e' => e' = e := by
  unfold elementOffset
  split
  · exact Checks.pure rfl
  · exact Checks.throw _

theorem checks_newValue (t : Ty) : Checks (newValue t) e fun v e' => e'.typing.Has v t := by
  refine Checks.body.bind fun b e' _ h => ?_
  obtain ⟨rfl, rfl⟩ := h
  refine (Checks.update (e := e') (f := fun e => { e with body := (e'.body.newValue t).2 })
    ⟨⟨.push _ _, .refl _, .refl _, rfl, Nat.le_refl _, Nat.le_refl _⟩, rfl, rfl, rfl, .refl _⟩ id
    fun k hk => .inl hk).bind fun _ e'' _ h => ?_
  obtain rfl := h
  exact Checks.pure Array.getElem?_push_size

theorem checks_newVar (t : Ty) : Checks (newVar t) e fun x e' => e'.typing.HasVar x t := by
  refine Checks.body.bind fun b e' _ h => ?_
  obtain ⟨rfl, rfl⟩ := h
  refine (Checks.update (e := e') (f := fun e => { e with body := (e'.body.newVar t).2 })
    ⟨⟨.refl _, .push _ _, .refl _, rfl, Nat.le_refl _, Nat.le_refl _⟩, rfl, rfl, rfl, .refl _⟩ id
    fun k hk => .inl hk).bind fun _ e'' _ h => ?_
  obtain rfl := h
  exact Checks.pure Array.getElem?_push_size

theorem checks_createBlock (label : String) : Checks (createBlock label) e fun _ _ => True := by
  refine Checks.body.bind fun b e' _ h => ?_
  obtain ⟨rfl, rfl⟩ := h
  refine (Checks.update (e := e') (f := fun e => { e with body := (e'.body.newBlock label).2 })
    ⟨⟨.refl _, .refl _, .refl _, rfl, ?_, Nat.le_refl _⟩, rfl, rfl, rfl, .refl _⟩ id
    fun k hk => ?_).bind fun _ _ _ _ => Checks.pure trivial
  · exact (Nat.le_succ _).trans_eq (Array.size_push _).symm
  · rcases Array.mem_push.1 hk with hk | rfl
    · exact .inl hk
    · exact .inr ⟨by simp, by simp⟩

theorem mem_modify {α : Type} {xs : Array α} {i : Nat} {f : α → α} {y : α}
    (h : y ∈ xs.modify i f) : y ∈ xs ∨ ∃ x ∈ xs, y = f x := by
  obtain ⟨j, hj⟩ := Array.mem_iff_getElem?.1 h
  rw [Array.getElem?_modify] at hj
  split at hj
  · obtain ⟨x, hx, rfl⟩ := Option.map_eq_some_iff.1 hj
    exact .inr ⟨x, Array.mem_of_getElem? hx, rfl⟩
  · exact .inl (Array.mem_of_getElem? hj)

/-- A block may be exchanged for one that is typed if it was. -/
theorem checks_change {g : Block → Block} (h : ∀ k, k.Typed e.typing → (g k).Typed e.typing) :
    Checks (change g) e fun _ _ => True := by
  refine Checks.body.bind fun b e' _ hb => ?_
  obtain ⟨rfl, rfl⟩ := hb
  refine Checks.check.bind fun _ e'' _ hb => ?_
  obtain ⟨-, rfl⟩ := hb
  have hΓ : e''.typing.Within { e'' with body := e''.body.modifyCurrent g }.typing :=
    ⟨.refl _, .refl _, .refl _, rfl, (Array.size_modify ..).symm.le, Nat.le_refl _⟩
  refine Checks.assume fun he => (Checks.update ⟨hΓ, rfl, rfl, rfl, .refl _⟩ id fun k hk => ?_).imp
    fun _ _ _ => trivial
  rcases mem_modify hk with hk | ⟨k', hk', rfl⟩
  · exact .inl hk
  · exact .inr ((h k' (he.body.blocks k' hk')).mono hΓ)

theorem checks_push {i : Instr} (h : i.Typed e.typing) : Checks (push i) e fun _ _ => True := by
  refine checks_change fun k hk => ⟨fun j hj => ?_, hk.terminator⟩
  rcases Array.mem_push.1 hj with hj | rfl
  · exact hk.instrs j hj
  · exact h

theorem checks_terminate {t : Terminator} (h : t.Typed e.typing) :
    Checks (terminate t) e fun _ _ => True := by
  refine checks_change fun k hk => ⟨hk.instrs, fun t' ht => ?_⟩
  obtain rfl := Option.some.inj ht
  exact h

theorem checks_switchTo (id : BlockId) : Checks (switchTo id) e fun _ _ => True := by
  refine Checks.body.bind fun b e' _ hb => ?_
  obtain ⟨rfl, rfl⟩ := hb
  refine Checks.check.bind fun k e'' _ hk => ?_
  obtain ⟨-, rfl⟩ := hk
  exact Checks.refuse fun _ => (Checks.update ⟨.refl _, rfl, rfl, rfl, .refl _⟩ (fun h => h)
    fun k hk => .inl hk).imp fun _ _ _ => trivial

theorem checks_define (t : Ty) {instr : ValueId → Instr}
    (h : ∀ v Γ, e.typing.Within Γ → Γ.Has v t → (instr v).Typed Γ) :
    Checks (define t instr) e fun v e' => e'.typing.Has v t := by
  refine (checks_newValue t).bind fun v e' ho hv => ?_
  refine (checks_push (h v _ ho.typing hv)).bind fun _ e'' ho' _ => ?_
  exact Checks.pure (hv.mono ho'.typing)

end Primitives

section Operations

variable {e : Emitter} {t : Ty}

theorem checks_literal (value : Literal) : Checks (literal value) e fun _ _ => True :=
  Checks.weaken (checks_define value.ty fun _ _ _ hv => hv)

theorem checks_load (t : Ty) (address : ValueId) (index : Nat) :
    Checks (load t address index) e fun _ _ => True := by
  refine (checks_expectType address .ptr).bind fun _ e' _ h => ?_
  obtain ⟨haddress, rfl⟩ := h
  refine (checks_elementOffset t index).bind fun _ e'' _ h => ?_
  obtain rfl := h
  exact Checks.weaken (checks_define t fun v Γ hΓ hv => ⟨haddress.mono hΓ, t, hv⟩)

theorem checks_elementAddress (t : Ty) (address index : ValueId) :
    Checks (elementAddress t address index) e fun v e' => e'.typing.Has v .ptr := by
  refine (checks_expectType address .ptr).bind fun _ e' _ h => ?_
  obtain ⟨haddress, rfl⟩ := h
  refine (checks_valueType index).bind fun t' e'' _ h => ?_
  obtain ⟨hindex, rfl⟩ := h
  refine Checks.refuse fun hint => checks_define .ptr fun v Γ hΓ hv => ?_
  exact ⟨hv, haddress.mono hΓ, t', hindex.mono hΓ, by simpa using hint⟩

theorem checks_loadDynamic (t : Ty) (address index : ValueId) :
    Checks (loadDynamic t address index) e fun _ _ => True := by
  refine (checks_elementAddress t address index).bind fun a e' _ ha => ?_
  exact Checks.weaken (checks_define t fun v Γ hΓ hv => ⟨ha.mono hΓ, t, hv⟩)

theorem checks_store (address : ValueId) (index : Nat) (value : ValueId) :
    Checks (store address index value) e fun _ _ => True := by
  refine (checks_expectType address .ptr).bind fun _ e' _ h => ?_
  obtain ⟨haddress, rfl⟩ := h
  refine (checks_valueType value).bind fun t e' _ h => ?_
  obtain ⟨hvalue, rfl⟩ := h
  refine (checks_elementOffset t index).bind fun _ e' _ h => ?_
  obtain rfl := h
  exact checks_push ⟨haddress, t, hvalue⟩

theorem checks_storeDynamic (address index value : ValueId) :
    Checks (storeDynamic address index value) e fun _ _ => True := by
  refine (checks_valueType value).bind fun t e' _ h => ?_
  obtain ⟨hvalue, rfl⟩ := h
  refine (checks_elementAddress t address index).bind fun a e'' ho ha => ?_
  exact checks_push ⟨ha, t, hvalue.mono ho.typing⟩

theorem checks_operandType (op : BinaryOp) (lhs rhs : ValueId) :
    Checks (operandType op lhs rhs) e fun t e' =>
      e.typing.Has lhs t ∧ e.typing.Has rhs t ∧ op.accepts t = true ∧ e' = e := by
  refine (checks_valueType lhs).bind fun t e' _ h => ?_
  obtain ⟨hl, rfl⟩ := h
  refine (checks_expectType rhs t).bind fun _ e' _ h => ?_
  obtain ⟨hr, rfl⟩ := h
  exact Checks.refuse fun hop => Checks.pure ⟨hl, hr, by simpa using hop, rfl⟩

theorem checks_binary (op : BinaryOp) (lhs rhs : ValueId) :
    Checks (binary op lhs rhs) e fun _ _ => True := by
  refine (checks_operandType op lhs rhs).bind fun t e' _ h => ?_
  obtain ⟨hl, hr, hop, rfl⟩ := h
  exact Checks.weaken (checks_define t fun v Γ hΓ hv => ⟨t, hv, hl.mono hΓ, hr.mono hΓ, hop⟩)

/-- The helper of an operator is declared with the types of the operator. -/
theorem helper_typed {d d' : Declarations} {op : Operator} {id : FunctionId} (hd : d.Typed)
    (hop : op.accepts t = true) (h : d.helper op t = .ok (id, d')) :
    d'.Typed ∧ d'.IsHelper op t id ∧ Prefix d.functions d'.functions ∧ d'.data = d.data := by
  obtain ⟨hfind, rfl⟩ | ⟨-, rfl, rfl⟩ := Declarations.helper_cases h
  · exact ⟨hd, hd.helpers op t id hfind, .refl _, rfl⟩
  refine ⟨⟨fun op' t' id hid => ?_, fun r hr => ?_⟩, ?new, .push _ _, rfl⟩
  case new => exact ⟨hop, _, Array.getElem?_push_size, rfl, rfl⟩
  · rw [Table.find?_insert] at hid
    split at hid
    · next hkey =>
        obtain ⟨rfl, rfl⟩ := Prod.mk.inj hkey
        obtain rfl := Option.some.inj hid
        exact ⟨hop, _, Array.getElem?_push_size, rfl, rfl⟩
    · exact (hd.helpers op' t' id hid).mono (.push _ _)
  · rcases List.mem_append.1 hr with hr | hr
    · exact (hd.pending r hr).mono (.push _ _)
    · obtain rfl := List.mem_singleton.1 hr
      exact ⟨hop, _, Array.getElem?_push_size, rfl, rfl⟩

theorem asks_helper {d d' : Declarations} {op : Operator} {id : FunctionId}
    (h : d.helper op t = .ok (id, d')) : d.Asks d' := by
  obtain ⟨-, rfl⟩ | ⟨-, rfl, rfl⟩ := Declarations.helper_cases h
  · exact .refl d'
  refine ⟨fun op' t' id hid => ?_, fun r hr => List.mem_append_left _ hr⟩
  rw [Table.find?_insert] at hid
  split at hid
  · next hkey =>
      obtain ⟨rfl, rfl⟩ := Prod.mk.inj hkey
      obtain rfl := Option.some.inj hid
      exact .inr (by simp)
  · exact .inl hid

theorem checks_callHelper {op : Operator} {args : List ValueId} (hop : op.accepts t = true)
    (hargs : List.Forall₂ e.typing.Has args (List.replicate op.arity t)) :
    Checks (callHelper op t args) e fun _ _ => True := by
  refine Checks.assume fun he => Checks.get.bind fun a e' _ h => ?_
  obtain ⟨rfl, rfl⟩ := h
  refine Checks.check.bind fun r e' _ h => ?_
  obtain ⟨id, d⟩ := r
  obtain ⟨hd, rfl⟩ := h
  obtain ⟨htyped, ⟨-, s, hs, hparams, hresult⟩, hfunctions, hdata⟩ :=
    helper_typed he.declarations hop hd
  refine (Checks.update (e := e') (f := fun e => { e with declarations := d })
    ⟨⟨.refl _, .refl _, hfunctions, rfl, Nat.le_refl _, (congrArg Array.size hdata).ge⟩, rfl, rfl,
      rfl, asks_helper hd⟩ (fun _ => htyped) fun k hk => .inl hk).bind fun _ e'' ho h => ?_
  obtain rfl := h
  refine Checks.weaken (checks_define t fun v Γ hΓ hv => ⟨s, hΓ.functions _ _ hs, ?_, ?_⟩)
  · rw [hparams]
    exact hargs.imp fun _ _ ha => ha.mono (ho.typing.trans hΓ)
  · rw [hresult]
    exact .some hv

theorem checks_operator (op : BinaryOp) (lhs rhs : ValueId) :
    Checks (operator op lhs rhs) e fun _ _ => True := by
  refine Checks.settings.bind fun s e' _ h => ?_
  obtain ⟨-, rfl⟩ := h
  split
  · exact checks_binary op lhs rhs
  · refine (checks_operandType op lhs rhs).bind fun t e' _ h => ?_
    obtain ⟨hl, hr, hop, rfl⟩ := h
    exact checks_callHelper hop (.cons hl (.cons hr .nil))

theorem checks_unary (op : UnaryOp) (operand : ValueId) :
    Checks (unary op operand) e fun _ _ => True := by
  refine (checks_valueType operand).bind fun t e' _ h => ?_
  obtain ⟨hx, rfl⟩ := h
  refine Checks.refuse fun hop => ?_
  have hop : op.accepts t = true := by simpa using hop
  refine Checks.settings.bind fun s e'' _ h => ?_
  obtain ⟨-, rfl⟩ := h
  split
  · exact Checks.weaken (checks_define t fun v Γ hΓ hv => ⟨t, hv, hx.mono hΓ, hop⟩)
  · exact checks_callHelper hop (.cons hx .nil)

theorem checks_compare (op : CompareOp) (lhs rhs : ValueId) :
    Checks (compare op lhs rhs) e fun _ _ => True := by
  refine (checks_valueType lhs).bind fun t e' _ h => ?_
  obtain ⟨hl, rfl⟩ := h
  refine (checks_expectType rhs t).bind fun _ e' _ h => ?_
  obtain ⟨hr, rfl⟩ := h
  refine Checks.refuse fun ht => Checks.weaken (checks_define .bool fun v Γ hΓ hv => ?_)
  exact ⟨hv, t, hl.mono hΓ, hr.mono hΓ, ht⟩

theorem checks_select (condition ifTrue ifFalse : ValueId) :
    Checks (select condition ifTrue ifFalse) e fun _ _ => True := by
  refine (checks_expectType condition .bool).bind fun _ e' _ h => ?_
  obtain ⟨hc, rfl⟩ := h
  refine (checks_valueType ifTrue).bind fun t e' _ h => ?_
  obtain ⟨hx, rfl⟩ := h
  refine (checks_expectType ifFalse t).bind fun _ e' _ h => ?_
  obtain ⟨hy, rfl⟩ := h
  refine Checks.weaken (checks_define t fun v Γ hΓ hv => ?_)
  exact ⟨hc.mono hΓ, t, hv, hx.mono hΓ, hy.mono hΓ⟩

theorem checks_cast (value : ValueId) (target : Ty) :
    Checks (cast value target) e fun _ _ => True := by
  refine (checks_valueType value).bind fun source e' _ h => ?_
  obtain ⟨hv, rfl⟩ := h
  split
  · exact Checks.pure trivial
  · refine Checks.refuse fun hconv => Checks.weaken (checks_define target fun r Γ hΓ hr => ?_)
    exact ⟨source, target, hv.mono hΓ, hr, by simpa using hconv⟩

theorem checks_localVar (initial : ValueId) : Checks (localVar initial) e fun _ _ => True := by
  refine (checks_valueType initial).bind fun t e' _ h => ?_
  obtain ⟨hv, rfl⟩ := h
  refine (checks_newVar t).bind fun x e'' ho hx => ?_
  have hwrite : (Instr.writeVar x initial).Typed e''.typing := ⟨t, hx, hv.mono ho.typing⟩
  exact (checks_push hwrite).bind fun _ _ _ _ => Checks.pure trivial

theorem checks_getVar (x : VarId) : Checks (getVar x) e fun _ _ => True := by
  refine Checks.body.bind fun b e' _ h => ?_
  obtain ⟨rfl, rfl⟩ := h
  refine Checks.check.bind fun t e'' _ h => ?_
  obtain ⟨ht, rfl⟩ := h
  have hx : e''.typing.HasVar x t := Body.varType_eq_ok_iff.1 ht
  exact Checks.weaken (checks_define t fun v Γ hΓ hv => ⟨t, hx.mono hΓ, hv⟩)

theorem checks_setVar (x : VarId) (value : ValueId) :
    Checks (setVar x value) e fun _ _ => True := by
  refine Checks.body.bind fun b e' _ h => ?_
  obtain ⟨rfl, rfl⟩ := h
  refine Checks.check.bind fun t e'' _ h => ?_
  obtain ⟨ht, rfl⟩ := h
  refine (checks_expectType value t).bind fun _ e' _ h => ?_
  obtain ⟨hv, rfl⟩ := h
  exact checks_push ⟨t, Body.varType_eq_ok_iff.1 ht, hv⟩

/-- What an emitter remembers besides its code has no part in the types. -/
theorem checks_update {f : Emitter → Emitter} (hbody : (f e).body.typing (f e).declarations = e.typing)
    (hid : (f e).body.id = e.body.id) (hparams : (f e).body.params = e.body.params)
    (hargs : (f e).body.args = e.body.args) (hblocks : (f e).body.blocks = e.body.blocks)
    (hd : (f e).declarations = e.declarations) :
    Checks (modify f) e fun _ e' => e'.typing = e.typing := by
  have htyping : (f e).typing = e.typing := hbody
  refine (Checks.update ⟨htyping ▸ .refl _, hid, hparams, hargs, hd ▸ .refl _⟩ (fun h => hd ▸ h)
    fun k hk => .inl (hblocks ▸ hk)).imp fun _ _ h => ?_
  rw [h, htyping]

theorem checks_allocate (scope : Scope) :
    Checks (allocate scope) e fun _ e' => e'.typing = e.typing := by
  refine Checks.get.bind fun a e' _ h => ?_
  obtain ⟨rfl, rfl⟩ := h
  refine (checks_update (e := e') (f := fun _ =>
    { e' with pools := (e'.pools.allocate scope).2 }) rfl rfl rfl rfl rfl rfl).bind
    fun _ _ _ h => Checks.pure h

theorem checks_release (slot : Slot) : Checks (release slot) e fun _ _ => True := by
  refine Checks.get.bind fun a e' _ h => ?_
  obtain ⟨rfl, rfl⟩ := h
  refine (checks_update (e := e') (f := fun _ =>
    { e' with pools := ((Pools.release slot).run.run e'.pools).2 }) rfl rfl rfl rfl rfl rfl).bind
    fun _ _ _ _ => Checks.weaken Checks.check

theorem checks_scratchVar (slot : Slot) (t : Ty) :
    Checks (scratchVar slot t) e fun x e' => e'.typing.HasVar x t := by
  have hnew : ∀ {e : Emitter}, Checks (do
      let x ← newVar t
      modify fun e => { e with
        body := { e.body with scratchVars := e.body.scratchVars.insert slot.index x } }
      return x) e fun x e' => e'.typing.HasVar x t := by
    intro e
    refine (checks_newVar t).bind fun x e' _ hx => ?_
    refine (checks_update (f := fun e => { e with
      body := { e.body with scratchVars := e.body.scratchVars.insert slot.index x } })
      rfl rfl rfl rfl rfl rfl).bind fun _ e'' _ h => Checks.pure ?_
    rwa [h]
  refine Checks.body.bind fun b e' _ h => ?_
  obtain ⟨rfl, rfl⟩ := h
  split
  · refine Checks.check.bind fun u e'' _ h => ?_
    obtain ⟨hu, rfl⟩ := h
    split
    · next ht => exact Checks.pure (ht ▸ Body.varType_eq_ok_iff.1 hu)
    · exact hnew
  · exact hnew

theorem checks_scratch (initial : ValueId) : Checks (scratch initial) e fun _ _ => True := by
  refine (checks_valueType initial).bind fun t e' _ h => ?_
  obtain ⟨hv, rfl⟩ := h
  refine (checks_allocate .scratch).bind fun slot e₁ ho₁ _ => ?_
  refine (checks_scratchVar slot t).bind fun x e₂ ho₂ hx => ?_
  have hwrite : (Instr.writeVar x initial).Typed e₂.typing :=
    ⟨t, hx, hv.mono (ho₁.typing.trans ho₂.typing)⟩
  exact (checks_push hwrite).bind fun _ _ _ _ => Checks.pure trivial

theorem checks_freeScratch (slot : Slot) : Checks (freeScratch slot) e fun _ _ => True :=
  Checks.refuse fun _ => checks_release slot

theorem checks_bufferPlace (slot : Slot) (bytes : Nat) :
    Checks (bufferPlace slot bytes) e fun _ _ => True := by
  have hnew : Checks (do
      setBody { (e.body.newPlace bytes).2 with
        bufferPlaces := e.body.bufferPlaces.insert slot.index (e.body.newPlace bytes).1 }
      return (e.body.newPlace bytes).1) e fun _ _ => True :=
    (checks_update (f := fun e' => { e' with body := { (e.body.newPlace bytes).2 with
      bufferPlaces := e.body.bufferPlaces.insert slot.index (e.body.newPlace bytes).1 } })
      rfl rfl rfl rfl rfl rfl).bind fun _ _ _ _ => Checks.pure trivial
  refine Checks.body.bind fun b e' _ h => ?_
  obtain ⟨rfl, rfl⟩ := h
  cases hfind : e'.body.bufferPlaces.find? slot.index with
  | none => exact hnew
  | some place =>
      dsimp only
      split
      · exact Checks.pure trivial
      · exact hnew

theorem checks_stackBuffer (t : Ty) (length : Nat) :
    Checks (stackBuffer t length) e fun _ _ => True := by
  refine Checks.refuse fun _ => (checks_allocate .buffer).bind fun slot _ _ _ => ?_
  exact (checks_bufferPlace slot _).bind fun _ _ _ _ => Checks.pure trivial

theorem checks_bufferAddress (buffer : StackBuffer) :
    Checks (bufferAddress buffer) e fun _ _ => True :=
  Checks.weaken (checks_define .ptr fun _ _ _ hv => hv)

theorem checks_addDatum (d : Datum) : Checks (addDatum d) e fun _ _ => True := by
  refine Checks.get.bind fun a e' _ h => ?_
  obtain ⟨rfl, rfl⟩ := h
  refine Checks.assume fun he => (Checks.update (e := e') (f := fun _ =>
    { e' with declarations := { e'.declarations with data := e'.declarations.data.push d } })
    ⟨⟨.refl _, .refl _, .refl _, rfl, Nat.le_refl _, ?_⟩, rfl, rfl, rfl,
      fun _ _ _ h => .inl h, fun _ h => h⟩
    (fun h => ⟨h.helpers, h.pending⟩) fun k hk => .inl hk).bind fun _ _ _ _ => Checks.pure trivial
  exact (Nat.le_succ _).trans_eq (Array.size_push _).symm

theorem checks_literalData (values : Values) : Checks (literalData values) e fun _ _ => True :=
  (checks_allocate .literal).bind fun _ _ _ _ => checks_addDatum _

theorem checks_globalArray (t : Ty) (length : Nat) :
    Checks (globalArray t length) e fun _ _ => True :=
  Checks.refuse fun _ => (checks_allocate .global).bind fun _ _ _ _ => checks_addDatum _

theorem checks_dataAddress (id : DatumId) : Checks (dataAddress id) e fun _ _ => True := by
  refine Checks.get.bind fun a e' _ h => ?_
  obtain ⟨rfl, rfl⟩ := h
  refine Checks.check.bind fun d e'' _ h => ?_
  obtain ⟨hd, rfl⟩ := h
  have hlt : id.index < e''.typing.data := by
    unfold Declarations.datum at hd
    split at hd
    · next hid => exact (Array.getElem?_eq_some_iff.1 hid).1
    · cases hd
  exact Checks.weaken (checks_define .ptr fun v Γ hΓ hv => ⟨hv, hlt.trans_le hΓ.data⟩)

theorem checks_literalArray (values : Values) : Checks (literalArray values) e fun _ _ => True :=
  (checks_literalData values).bind fun _ _ _ _ => checks_dataAddress _

theorem checks_expectTypes {vs : List ValueId} {ts : List Ty} (hlength : ts.length = vs.length) :
    Checks (expectTypes vs ts) e fun _ e' => List.Forall₂ e.typing.Has vs ts ∧ e' = e := by
  induction vs generalizing ts with
  | nil =>
      obtain rfl := List.length_eq_zero_iff.1 hlength
      exact Checks.pure ⟨.nil, rfl⟩
  | cons v vs ih =>
      cases ts with
      | nil => cases hlength
      | cons t ts =>
          refine (checks_expectType v t).bind fun _ e' _ h => ?_
          obtain ⟨hv, rfl⟩ := h
          exact (ih (Nat.succ.inj hlength)).imp fun _ _ h => ⟨.cons hv h.1, h.2⟩

theorem checks_call (name : String) (args : List ValueId) :
    Checks (call name args) e fun _ _ => True := by
  refine Checks.get.bind fun a e' _ h => ?_
  obtain ⟨rfl, rfl⟩ := h
  dsimp only
  split
  · next function hfind =>
      refine Checks.check.bind fun s e'' _ h => ?_
      obtain ⟨hs, rfl⟩ := h
      have hs : e''.typing.functions[function.index]? = some s := Declarations.function_eq_ok_iff.1 hs
      refine Checks.refuse fun hlength => ?_
      refine (checks_expectTypes (not_not.1 hlength)).bind fun _ e' _ h => ?_
      obtain ⟨hargs, rfl⟩ := h
      split
      · next t ht =>
          refine (checks_define t fun v Γ hΓ hv => ?_).map fun _ _ _ => trivial
          exact ⟨s, hΓ.functions _ _ hs, hargs.imp fun _ _ ha => ha.mono hΓ, ht ▸ .some hv⟩
      · next hnone =>
          have hcall : (Instr.call none function args).Typed e'.typing :=
            ⟨s, hs, hargs, hnone ▸ .none⟩
          exact (checks_push hcall).bind fun _ _ _ _ => Checks.pure trivial
  · exact Checks.throw _

theorem block_index_lt {b : Body} {id : BlockId} {k : Block} (h : b.block id = .ok k) :
    id.index < b.blocks.size :=
  (Array.getElem?_eq_some_iff.1 (Body.block_eq_ok_iff.1 h)).1

theorem checks_jump (target : BlockId) : Checks (jump target) e fun _ _ => True := by
  refine Checks.body.bind fun b e' _ h => ?_
  obtain ⟨rfl, rfl⟩ := h
  refine Checks.check.bind fun k e'' _ h => ?_
  obtain ⟨hk, rfl⟩ := h
  have hjump : (Terminator.jump target).Typed e''.typing := block_index_lt hk
  exact checks_terminate hjump

theorem checks_branch (condition : ValueId) (ifTrue ifFalse : BlockId) :
    Checks (branch condition ifTrue ifFalse) e fun _ _ => True := by
  refine (checks_expectType condition .bool).bind fun _ e' _ h => ?_
  obtain ⟨hc, rfl⟩ := h
  refine Checks.body.bind fun b e' _ h => ?_
  obtain ⟨rfl, rfl⟩ := h
  refine Checks.check.bind fun k e'' _ h => ?_
  obtain ⟨hk, rfl⟩ := h
  refine Checks.check.bind fun k' e' _ h => ?_
  obtain ⟨hk', rfl⟩ := h
  have hbranch : (Terminator.branch condition ifTrue ifFalse).Typed e'.typing :=
    ⟨hc, block_index_lt hk, block_index_lt hk'⟩
  exact checks_terminate hbranch

theorem checks_returnValue (value : ValueId) :
    Checks (returnValue value) e fun _ _ => True := by
  refine Checks.body.bind fun b e' _ h => ?_
  obtain ⟨rfl, rfl⟩ := h
  split
  · next t ht =>
      refine (checks_expectType value t).bind fun _ e'' _ h => ?_
      obtain ⟨hv, rfl⟩ := h
      have hret : Option.Rel e''.typing.Has (some value) e''.body.result := ht ▸ .some hv
      exact checks_terminate (t := .ret (some value)) hret
  · refine (checks_valueType value).bind fun _ _ _ _ => ?_
    exact (Checks.throw (Q := fun _ _ => False) _).bind fun _ _ _ h => h.elim

theorem checks_returnVoid : Checks returnVoid e fun _ _ => True := by
  refine Checks.body.bind fun b e' _ h => ?_
  obtain ⟨rfl, rfl⟩ := h
  split
  · exact (Checks.throw (Q := fun _ _ => False) _).bind fun _ _ _ h => h.elim
  · next hnone =>
      have hret : Option.Rel e'.typing.Has none e'.body.result := by
        cases hr : e'.body.result with
        | none => exact .none
        | some t => exact absurd hr (hnone t)
      exact checks_terminate (t := .ret none) hret

theorem checks_location (description : String) :
    Checks (location description) e fun _ _ => True := by
  refine Checks.settings.bind fun s e' _ h => ?_
  obtain ⟨-, rfl⟩ := h
  split
  · refine (checks_update (f := fun e => { e with
      body := { e.body with locations := e.body.locations.push description } })
      rfl rfl rfl rfl rfl rfl).bind fun _ e'' _ _ => Checks.body.bind fun b e₁ _ _ => ?_
    exact checks_push (i := .location b.locations.size) trivial
  · exact Checks.pure trivial

theorem checks_argument (name : String) : Checks (argument name) e fun _ _ => True := by
  refine Checks.body.bind fun b e' _ _ => ?_
  split
  · exact Checks.pure trivial
  · exact Checks.throw _

theorem checks_argumentSlot (name : String) : Checks (argumentSlot name) e fun _ _ => True := by
  refine Checks.body.bind fun b e' _ _ => ?_
  split
  · exact Checks.pure trivial
  · exact Checks.throw _

end Operations

end Emit

section Loops

open Emit

variable {e : Emitter}

theorem checks_enter (start : Literal) {numbers : Emit (ValueId × ValueId × ValueId)}
    (hnumbers : ∀ e, Checks numbers e fun _ _ => True) :
    Checks (CountedLoop.enter start numbers) e fun _ _ => True :=
  (checks_createBlock _).bind fun _ _ _ _ => (checks_createBlock _).bind fun _ _ _ _ =>
    (checks_createBlock _).bind fun _ _ _ _ => (checks_createBlock _).bind fun _ _ _ _ =>
    (checks_createBlock _).bind fun _ _ _ _ => (checks_jump _).bind fun _ _ _ _ =>
    (checks_switchTo _).bind fun _ _ _ _ => (checks_literal _).bind fun _ _ _ _ =>
    (checks_scratch _).bind fun _ _ _ _ => (hnumbers _).bind fun _ _ _ _ => Checks.pure trivial

theorem checks_test (parts : LoopParts) : Checks (CountedLoop.test parts) e fun _ _ => True :=
  (checks_jump _).bind fun _ _ _ _ => (checks_switchTo _).bind fun _ _ _ _ =>
    (checks_getVar _).bind fun _ _ _ _ => (checks_compare _ _ _).bind fun _ _ _ _ =>
    (checks_branch _ _ _).bind fun _ _ _ _ => (checks_switchTo _).bind fun _ _ _ _ =>
    Checks.pure trivial

theorem checks_requireIdle (l : CountedLoop) : Checks l.requireIdle e fun _ _ => True := by
  cases l with
  | idle => exact Checks.pure trivial
  | opened parts => exact Checks.throw _
  | closed parts => exact Checks.throw _

theorem checks_beginRange (l : CountedLoop) (start bound step : Int32) :
    Checks (l.beginRange start bound step) e fun _ _ => True := by
  refine Checks.refuse fun _ => (checks_requireIdle l).bind fun _ _ _ _ => ?_
  refine (checks_enter _ fun e => ?_).bind fun parts _ _ _ => checks_test parts
  exact (checks_literal _).bind fun _ _ _ _ => (checks_literal _).bind fun _ _ _ _ =>
    (checks_literal _).bind fun _ _ _ _ => Checks.pure trivial

theorem checks_beginDynamic (l : CountedLoop) (count : ValueId) :
    Checks (l.beginDynamic count) e fun _ _ => True := by
  refine (checks_valueType count).bind fun t _ _ _ => Checks.refuse fun _ => ?_
  refine (checks_requireIdle l).bind fun _ _ _ _ => ?_
  refine (checks_enter _ fun e => ?_).bind fun parts _ _ _ => checks_test parts
  exact (checks_literal _).bind fun _ _ _ _ => (checks_binary _ _ _).bind fun _ _ _ _ =>
    Checks.pure trivial

theorem checks_finish (l : CountedLoop) : Checks l.finish e fun _ _ => True := by
  cases l with
  | idle => exact Checks.throw _
  | closed parts => exact Checks.throw _
  | opened parts =>
      exact (checks_jump _).bind fun _ _ _ _ => (checks_switchTo _).bind fun _ _ _ _ =>
        (checks_getVar _).bind fun _ _ _ _ => (checks_binary _ _ _).bind fun _ _ _ _ =>
        (checks_compare _ _ _).bind fun _ _ _ _ => (checks_select _ _ _).bind fun _ _ _ _ =>
        (checks_setVar _ _).bind fun _ _ _ _ => (checks_jump _).bind fun _ _ _ _ =>
        (checks_switchTo _).bind fun _ _ _ _ => (checks_freeScratch _).bind fun _ _ _ _ =>
        Checks.pure trivial

theorem checks_counter (l : CountedLoop) : Checks l.counter e fun _ _ => True := by
  cases l with
  | idle => exact Checks.throw _
  | closed parts => exact Checks.throw _
  | opened parts => exact checks_getVar parts.var

/-- Whatever is called, the recording stays typed. -/
theorem checks_perform (c : Call) : Checks c.perform e fun _ _ => True := by
  have map {α : Type} {m : Emit α} {f : α → Reply} {Q : α → Emitter → Prop} (hm : Checks m e Q) :
      Checks (f <$> m) e fun _ _ => True := hm.map fun _ _ _ => trivial
  cases c with
  | argument name => exact map (checks_argument name)
  | argumentSlot name => exact map (checks_argumentSlot name)
  | allocate scope => exact map (checks_allocate scope)
  | release slot => exact map (checks_release slot)
  | createBlock label => exact map (checks_createBlock label)
  | switchTo id => exact map (checks_switchTo id)
  | literal value => exact map (checks_literal value)
  | load t address index => exact map (checks_load t address index)
  | loadDynamic t address index => exact map (checks_loadDynamic t address index)
  | store address index value => exact map (checks_store address index value)
  | storeDynamic address index value => exact map (checks_storeDynamic address index value)
  | operator op lhs rhs => exact map (checks_operator op lhs rhs)
  | binary op lhs rhs => exact map (checks_binary op lhs rhs)
  | unary op operand => exact map (checks_unary op operand)
  | compare op lhs rhs => exact map (checks_compare op lhs rhs)
  | select condition ifTrue ifFalse => exact map (checks_select condition ifTrue ifFalse)
  | cast value target => exact map (checks_cast value target)
  | localVar initial => exact map (checks_localVar initial)
  | getVar x => exact map (checks_getVar x)
  | setVar x value => exact map (checks_setVar x value)
  | scratch initial => exact map (checks_scratch initial)
  | freeScratch slot => exact map (checks_freeScratch slot)
  | stackBuffer t length => exact map (checks_stackBuffer t length)
  | bufferAddress buffer => exact map (checks_bufferAddress buffer)
  | releaseBuffer buffer => exact map (checks_release buffer.slot)
  | literalData values => exact map (checks_literalData values)
  | literalArray values => exact map (checks_literalArray values)
  | globalArray t length => exact map (checks_globalArray t length)
  | dataAddress id => exact map (checks_dataAddress id)
  | call name args => exact map (checks_call name args)
  | jump target => exact map (checks_jump target)
  | branch condition ifTrue ifFalse => exact map (checks_branch condition ifTrue ifFalse)
  | returnValue value => exact map (checks_returnValue value)
  | returnVoid => exact map checks_returnVoid
  | location description => exact map (checks_location description)
  | beginRange l start bound step => exact map (checks_beginRange l start bound step)
  | beginCount l count => exact map (checks_beginRange l 0 count 1)
  | beginDynamic l count => exact map (checks_beginDynamic l count)
  | counter l => exact map (checks_counter l)
  | finish l => exact map (checks_finish l)

end Loops

end Dataflow.Code
