import Mathlib.Data.Fin.Tuple.Basic
import Dataflow.Node.Scripted
import Dataflow.Proofs.Lower.Progress

/-!
# Code for one element

A node emits its code for each element of a vector. Such code loads elements of inlets, computes
with operators and local variables, and stores elements of outlets; written down as data, it is a
list of steps in which later steps use what earlier ones have made. It can be emitted exactly when
its types match and its inlets and outlets are there, no matter whether a loop runs it or it is
emitted for one element after the other. Only what lies behind the end of an inlet is refused at a
known position alone.
-/

namespace Dataflow

open Code (BinaryOp CompareOp Emit Emitter Literal Ty UnaryOp ValueId VarId)

/-- What stands for the `n` values and the `m` variables that are known, the newest ones first. -/
structure Locals (α β : Type) (n m : Nat) where
  values : Fin n → α
  vars : Fin m → β

namespace Locals

variable {α β α' β' : Type} {n m : Nat}

def none : Locals α β 0 0 := ⟨Fin.elim0, Fin.elim0⟩

def withValue (s : Locals α β n m) (a : α) : Locals α β (n + 1) m := ⟨Fin.cons a s.values, s.vars⟩

def withVar (s : Locals α β n m) (b : β) : Locals α β n (m + 1) := ⟨s.values, Fin.cons b s.vars⟩

def setVar (s : Locals α β n m) (y : Fin m) (b : β) : Locals α β n m :=
  ⟨s.values, Function.update s.vars y b⟩

structure Agrees (R : α → α' → Prop) (S : β → β' → Prop) (s : Locals α β n m)
    (s' : Locals α' β' n m) : Prop where
  values : ∀ x, R (s.values x) (s'.values x)
  vars : ∀ y, S (s.vars y) (s'.vars y)

variable {R R' : α → α' → Prop} {S S' : β → β' → Prop} {s : Locals α β n m}
  {s' : Locals α' β' n m}

theorem Agrees.imp (h : s.Agrees R S s') (hR : ∀ a a', R a a' → R' a a')
    (hS : ∀ b b', S b b' → S' b b') : s.Agrees R' S' s' :=
  ⟨fun x => hR _ _ (h.values x), fun y => hS _ _ (h.vars y)⟩

theorem Agrees.withValue (h : s.Agrees R S s') {a : α} {a' : α'} (ha : R a a') :
    (s.withValue a).Agrees R S (s'.withValue a') where
  values x := by
    cases x using Fin.cases with
    | zero => exact ha
    | succ x => exact h.values x
  vars := h.vars

theorem Agrees.withVar (h : s.Agrees R S s') {b : β} {b' : β'} (hb : S b b') :
    (s.withVar b).Agrees R S (s'.withVar b') where
  values := h.values
  vars y := by
    cases y using Fin.cases with
    | zero => exact hb
    | succ y => exact h.vars y

@[simp] theorem setVar_self (s : Locals α β n m) (y : Fin m) (b : β) :
    (s.setVar y b).vars y = b := Function.update_self ..

theorem setVar_of_ne (s : Locals α β n m) {y z : Fin m} (hz : z ≠ y) (b : β) :
    (s.setVar y b).vars z = s.vars z := Function.update_of_ne hz ..

theorem Agrees.setVar (h : s.Agrees R S s') {y : Fin m} {b : β} (hb : S b (s'.vars y)) :
    (s.setVar y b).Agrees R S s' where
  values := h.values
  vars z := by
    by_cases hz : z = y
    · subst hz
      rwa [setVar_self]
    · rw [setVar_of_ne s hz]
      exact h.vars z

end Locals

inductive Computation (n m : Nat)
  | literal (value : Literal)
  | inPlace (op : BinaryOp) (lhs rhs : Fin n)
  | operator (op : BinaryOp) (lhs rhs : Fin n)
  | unary (op : UnaryOp) (operand : Fin n)
  | compare (op : CompareOp) (lhs rhs : Fin n)
  | select (condition ifTrue ifFalse : Fin n)
  | cast (value : Fin n) (target : Ty)
  | read (var : Fin m)

/-- Code for one element where `n` values and `m` variables are known. -/
inductive ElementCode : Nat → Nat → Type
  | done {n m : Nat} : ElementCode n m
  | input {n m : Nat} (input : Nat) (rest : ElementCode (n + 1) m) : ElementCode n m
  | compute {n m : Nat} (k : Computation n m) (rest : ElementCode (n + 1) m) : ElementCode n m
  | declare {n m : Nat} (initial : Fin n) (rest : ElementCode n (m + 1)) : ElementCode n m
  | write {n m : Nat} (var : Fin m) (value : Fin n) (rest : ElementCode n m) : ElementCode n m
  | store {n m : Nat} (output : Nat) (value : Fin n) (rest : ElementCode n m) : ElementCode n m

namespace Computation

variable {n m : Nat}

def emit (ids : Locals ValueId VarId n m) : Computation n m → Emit ValueId
  | literal value => Emit.literal value
  | inPlace op lhs rhs => Emit.binary op (ids.values lhs) (ids.values rhs)
  | operator op lhs rhs => Emit.operator op (ids.values lhs) (ids.values rhs)
  | unary op operand => Emit.unary op (ids.values operand)
  | compare op lhs rhs => Emit.compare op (ids.values lhs) (ids.values rhs)
  | select condition ifTrue ifFalse =>
    Emit.select (ids.values condition) (ids.values ifTrue) (ids.values ifFalse)
  | cast value target => Emit.cast (ids.values value) target
  | read var => Emit.getVar (ids.vars var)

/-- The type of what is computed, if the operands have the types they need. -/
def type? (types : Locals Ty Ty n m) : Computation n m → Option Ty
  | literal value => some value.ty
  | inPlace op lhs rhs | operator op lhs rhs =>
    let t := types.values lhs
    if types.values rhs = t ∧ op.accepts t then some t else none
  | unary op operand =>
    let t := types.values operand
    if op.accepts t then some t else none
  | compare _ lhs rhs =>
    let t := types.values lhs
    if types.values rhs = t ∧ t ≠ .ptr then some .bool else none
  | select condition ifTrue ifFalse =>
    let t := types.values ifTrue
    if types.values condition = .bool ∧ types.values ifFalse = t then some t else none
  | cast value target =>
    if Emit.convertible (types.values value) target then some target else none
  | read var => some (types.vars var)

end Computation

namespace ElementCode

def emit (pos : Position) : {n m : Nat} → ElementCode n m → Locals ValueId VarId n m → Lower Unit
  | _, _, done, _ => return ()
  | _, _, input i rest, ids => do rest.emit pos (ids.withValue (← Lower.inputAt i pos))
  | _, _, compute k rest, ids => do rest.emit pos (ids.withValue (← Lower.emit (k.emit ids)))
  | _, _, declare x rest, ids => do
    rest.emit pos (ids.withVar (← Lower.emit (Emit.localVar (ids.values x))))
  | _, _, write y x rest, ids => do
    Lower.emit (Emit.setVar (ids.vars y) (ids.values x))
    rest.emit pos ids
  | _, _, store o x rest, ids => do
    Lower.storeOutputAt o pos (ids.values x)
    rest.emit pos ids

/-- The types match, and every inlet that is read and every outlet that is stored into, together
with the type of what is stored, is as demanded. -/
def Meets (c : LowerContext) (reads : Inlet → Prop) (stores : Outlet → Ty → Prop) :
    {n m : Nat} → ElementCode n m → Locals Ty Ty n m → Prop
  | _, _, done, _ => True
  | _, _, input i rest, types => ∃ l t, c.site.inlets[i]? = some l ∧
    l.selection.elemType? = some t ∧ reads l ∧ rest.Meets c reads stores (types.withValue t.ty)
  | _, _, compute k rest, types =>
    ∃ t, k.type? types = some t ∧ rest.Meets c reads stores (types.withValue t)
  | _, _, declare x rest, types => rest.Meets c reads stores (types.withVar (types.values x))
  | _, _, write y x rest, types =>
    types.values x = types.vars y ∧ rest.Meets c reads stores types
  | _, _, store o x rest, types => ∃ out, c.site.outlets[o]? = some out ∧
    stores out (types.values x) ∧ rest.Meets c reads stores types

def inputs : {n m : Nat} → ElementCode n m → List Nat
  | _, _, done => []
  | _, _, input i rest => i :: rest.inputs
  | _, _, compute _ rest => rest.inputs
  | _, _, declare _ rest => rest.inputs
  | _, _, write _ _ rest => rest.inputs
  | _, _, store _ _ rest => rest.inputs

def copy (input output : Nat) : ElementCode 0 0 := .input input (.store output 0 .done)

end ElementCode

section Computation

variable {n m : Nat} {k : Computation n m} {ids : Locals ValueId VarId n m}
  {types : Locals Ty Ty n m} {e e' : Emitter} {v x y : ValueId} {t : Ty}

theorem Code.Emit.type_of_callHelper {op : Code.Operator} {args : List ValueId}
    (h : Succeeds (callHelper op t args) e v e') : e'.typing.Has v t := by
  simp only [callHelper, succeeds_bind, succeeds_get, succeeds_check, succeeds_modify] at h
  obtain ⟨_, _, ⟨rfl, rfl⟩, _, _, ⟨-, rfl⟩, _, _, rfl, h⟩ := h
  exact type_of_define h

namespace Computation

theorem linear_emit (k : Computation n m) (ids : Locals ValueId VarId n m) :
    (k.emit ids).Linear := by
  cases k with
  | literal value => exact Emit.leaves_literal _
  | inPlace op lhs rhs => exact Emit.leaves_binary _ _ _
  | operator op lhs rhs => exact Emit.leaves_operator _ _ _
  | unary op operand => exact Emit.leaves_unary _ _
  | compare op lhs rhs => exact Emit.leaves_compare _ _ _
  | select condition ifTrue ifFalse => exact Emit.leaves_select _ _ _
  | cast value target => exact Emit.leaves_cast _ _
  | read var => exact Emit.leaves_getVar _

theorem type?_binary {op : BinaryOp} {lhs rhs : Fin n} (h : types.values rhs = types.values lhs)
    (hop : op.accepts (types.values lhs) = true) :
    (inPlace op lhs rhs : Computation n m).type? types = some (types.values lhs) ∧
      (operator op lhs rhs : Computation n m).type? types = some (types.values lhs) :=
  ⟨if_pos ⟨h, hop⟩, if_pos ⟨h, hop⟩⟩

/-- What is emitted is of the type that it ought to be of. -/
theorem type_of_emit (h : Succeeds (k.emit ids) e v e')
    (hids : ids.Agrees e.typing.Has e.typing.HasVar types) :
    ∃ t, k.type? types = some t ∧ e'.typing.Has v t := by
  have hsame : ∀ {x : Fin n} {t : Ty}, e.typing.Has (ids.values x) t → types.values x = t :=
    fun h => Option.some.inj ((hids.values _).symm.trans h)
  cases k with
  | literal value => exact ⟨_, rfl, Emit.type_of_define h⟩
  | inPlace op lhs rhs =>
      obtain ⟨t, e₁, ht, h⟩ := succeeds_bind.1 h
      obtain ⟨⟨hl, hr, hop⟩, rfl⟩ := Emit.succeeds_operandType_iff.1 ht
      obtain rfl := hsame hl
      exact ⟨_, (type?_binary (hsame hr) hop).1, Emit.type_of_define h⟩
  | operator op lhs rhs =>
      obtain ⟨s, e₁, hs, h⟩ := succeeds_bind.1 h
      obtain ⟨rfl, rfl⟩ := Emit.succeeds_settings.1 hs
      split at h
      all_goals
        obtain ⟨t, e₁, ht, h⟩ := succeeds_bind.1 h
        obtain ⟨⟨hl, hr, hop⟩, rfl⟩ := Emit.succeeds_operandType_iff.1 ht
        obtain rfl := hsame hl
        refine ⟨_, (type?_binary (hsame hr) hop).2, ?_⟩
      · exact Emit.type_of_define h
      · exact Emit.type_of_callHelper h
  | unary op operand =>
      simp only [emit, Emit.unary, succeeds_bind, Emit.succeeds_valueType, succeeds_refuse,
        Emit.succeeds_settings] at h
      obtain ⟨t, _, ⟨ht, rfl⟩, hop, _, _, ⟨rfl, rfl⟩, h⟩ := h
      obtain rfl := hsame ht
      refine ⟨_, if_pos (by simpa using hop), ?_⟩
      split at h
      · exact Emit.type_of_define h
      · exact Emit.type_of_callHelper h
  | compare op lhs rhs =>
      simp only [emit, Emit.compare, succeeds_bind, Emit.succeeds_expectType,
        Emit.succeeds_valueType, succeeds_refuse] at h
      obtain ⟨t, _, ⟨hl, rfl⟩, _, _, ⟨hr, rfl⟩, hptr, h⟩ := h
      obtain rfl := hsame hl
      exact ⟨_, if_pos ⟨hsame hr, hptr⟩, Emit.type_of_define h⟩
  | select condition ifTrue ifFalse =>
      simp only [emit, Emit.select, succeeds_bind, Emit.succeeds_expectType,
        Emit.succeeds_valueType] at h
      obtain ⟨_, _, ⟨hc, rfl⟩, t, _, ⟨ha, rfl⟩, _, _, ⟨hb, rfl⟩, h⟩ := h
      obtain rfl := hsame ha
      exact ⟨_, if_pos ⟨hsame hc, hsame hb⟩, Emit.type_of_define h⟩
  | cast value target =>
      obtain ⟨t, e₁, hsource, h⟩ := succeeds_bind.1 h
      obtain ⟨ht, rfl⟩ := Emit.succeeds_valueType.1 hsource
      obtain rfl := hsame ht
      split at h
      case isTrue heq =>
        obtain ⟨rfl, rfl⟩ := succeeds_pure.1 h
        refine ⟨target, if_pos ?_, heq ▸ ht⟩
        rw [heq]
        cases target <;> rfl
      case isFalse =>
        obtain ⟨hconv, h⟩ := succeeds_refuse.1 h
        exact ⟨target, if_pos (by simpa using hconv), Emit.type_of_define h⟩
  | read var =>
      simp only [emit, Emit.getVar, succeeds_bind, Emit.succeeds_body, Emit.succeeds_check,
        Code.Body.varType_eq_ok_iff] at h
      obtain ⟨_, _, ⟨rfl, rfl⟩, t, _, ⟨ht, rfl⟩, h⟩ := h
      refine ⟨_, rfl, ?_⟩
      obtain rfl := Option.some.inj ((hids.vars var).symm.trans ht)
      exact Emit.type_of_define h

/-- Code for a value can be emitted where its operands can be used. -/
theorem ends_emit (he : e.Proper) (hids : ids.Agrees e.Sees e.typing.HasVar types)
    (ht : k.type? types = some t) :
    Ends (k.emit ids) e fun v e' => e.Proceeds e' ∧ e'.Sees v t := by
  cases k with
  | literal value =>
      obtain rfl := Option.some.inj ht
      exact Emit.ends_literal he value
  | inPlace op lhs rhs =>
      obtain ⟨⟨hsame, hop⟩, ⟨⟩⟩ := Option.ite_none_right_eq_some.1 ht
      exact Emit.ends_binary he (hids.values lhs) (hsame ▸ hids.values rhs) hop
  | operator op lhs rhs =>
      obtain ⟨⟨hsame, hop⟩, ⟨⟩⟩ := Option.ite_none_right_eq_some.1 ht
      exact Emit.ends_operator he (hids.values lhs) (hsame ▸ hids.values rhs) hop
  | unary op operand =>
      obtain ⟨hop, ⟨⟩⟩ := Option.ite_none_right_eq_some.1 ht
      exact Emit.ends_unary he (hids.values operand) hop
  | compare op lhs rhs =>
      obtain ⟨⟨hsame, hptr⟩, ⟨⟩⟩ := Option.ite_none_right_eq_some.1 ht
      exact Emit.ends_compare he (hids.values lhs) (hsame ▸ hids.values rhs) hptr
  | select condition ifTrue ifFalse =>
      obtain ⟨⟨hbool, hsame⟩, ⟨⟩⟩ := Option.ite_none_right_eq_some.1 ht
      exact Emit.ends_select he (hbool ▸ hids.values condition) (hids.values ifTrue)
        (hsame ▸ hids.values ifFalse)
  | cast value target =>
      obtain ⟨hconv, ⟨⟩⟩ := Option.ite_none_right_eq_some.1 ht
      exact Emit.ends_cast he (hids.values value) hconv
  | read var =>
      obtain rfl := Option.some.inj ht
      exact Emit.ends_getVar he (hids.vars var)

end Computation

end Computation

section Emission

open Lower

variable {c : LowerContext} {s s' : LowerState} {pos : Position} {n m len : Nat}
  {code : ElementCode n m} {ids : Locals ValueId VarId n m} {types : Locals Ty Ty n m}
  {e e' : Emitter} {v : ValueId} {x : VarId} {t : Ty} {o : Outlet} {os : List Outlet} {u : Unit}

theorem Outlet.among_of_nodup (h : (os.map (·.port)).Nodup) (ho : o ∈ os) : o.Among os :=
  ⟨ho, fun _ ho' hport => List.inj_on_of_nodup_map h ho' ho hport⟩

theorem Locals.Agrees.straight (h : ids.Agrees e.typing.Has e.typing.HasVar types)
    (hs : e.Straight e') : ids.Agrees e'.typing.Has e'.typing.HasVar types :=
  h.imp (fun _ _ hv => hs.body.valueTypes _ _ hv) fun _ _ hx => hs.hasVar hx

theorem Locals.Agrees.sees (h : ids.Agrees e.Sees e.typing.HasVar types)
    (hs : e.Straight e') : ids.Agrees e'.Sees e'.typing.HasVar types :=
  h.imp (fun _ _ hv => hv.mono hs) fun _ _ hx => hs.hasVar hx

theorem Code.Emit.type_of_localVar (h : Succeeds (localVar v) e x e') (hv : e.typing.Has v t) :
    e'.typing.HasVar x t := by
  have hstraight := Linear.straight (leaves_localVar v) h
  simp only [localVar, succeeds_bind, succeeds_valueType, succeeds_newVar, succeeds_push,
    succeeds_pure] at h
  obtain ⟨t', _, ⟨ht, rfl⟩, _, _, ⟨rfl, rfl⟩, _, _, ⟨b, hb, rfl⟩, rfl, rfl⟩ := h
  obtain rfl := Option.some.inj (ht.symm.trans hv)
  exact (Code.Body.within_push hb).varTypes _ _ Array.getElem?_push_size

theorem Code.Emit.types_of_setVar (h : Succeeds (setVar x v) e u e') :
    ∃ t, e.typing.HasVar x t ∧ e.typing.Has v t := by
  simp only [setVar, succeeds_bind, succeeds_body, succeeds_check, Code.Body.varType_eq_ok_iff,
    succeeds_expectType] at h
  obtain ⟨_, _, ⟨rfl, rfl⟩, t, _, ⟨hx, rfl⟩, _, _, ⟨hv, rfl⟩, -⟩ := h
  exact ⟨t, hx, hv⟩

theorem Position.Within.zero_lt (h : pos.Within c s n) : 0 < n := by
  cases pos with
  | fixed k => exact Nat.zero_lt_of_lt h
  | computed v => exact h.2.1

theorem Position.Within.keeps (h : pos.Within c s n) (hk : s.Keeps os s') : pos.Within c s' n := by
  cases pos with
  | fixed k => exact h
  | computed v =>
      refine ⟨h.1.mono hk.straight, h.2.1, fun i l hl => ?_⟩
      rw [LowerState.InPiece, hk.gathered]
      exact h.2.2 i l hl

namespace Lower

theorem Plain.keeps {α : Type} {f : Lower α} {a : α} (hf : Plain f) (h : Lowers c f s a s') :
    s.Keeps os s' := by
  obtain ⟨e, rfl, hstraight⟩ := hf.of_lowers h
  exact .of_straight hstraight

/-- An element that is loaded is of the type of its input. -/
theorem typed_inputAt {i : Nat} (h : Lowers c (inputAt i pos) s v s') : ∃ l t,
    c.site.inlets[i]? = some l ∧ l.selection.elemType? = some t ∧
      (∀ k, pos = .fixed k → k < l.selection.size) ∧ s'.emitter.typing.Has v t.ty := by
  simp only [inputAt, lowers_bind, lowers_inlet, lowers_inputType] at h
  obtain ⟨l, _, ⟨hl, rfl⟩, t, _, ⟨l', hl', ht, rfl⟩, h⟩ := h
  obtain rfl := Option.some.inj (hl.symm.trans hl')
  have hdynamic : ∀ {base index : ValueId} {e e' : Emitter},
      Succeeds (Emit.loadDynamic t.ty base index) e v e' → e'.typing.Has v t.ty := by
    intro base index e e' h
    obtain ⟨_, _, -, h⟩ := succeeds_bind.1 h
    exact Emit.type_of_define h
  refine ⟨l, t, hl, ht, ?_⟩
  cases pos with
  | fixed k =>
      simp only [lowers_bind, lowers_check, lowers_portAddress, lowers_emit, Emit.load,
        succeeds_bind] at h
      obtain ⟨cell, _, ⟨hcell, rfl⟩, _, _, ⟨_, -, rfl⟩, _, ⟨_, _, -, _, _, -, h⟩, rfl⟩ := h
      refine ⟨fun k' hk => ?_, Emit.type_of_define h⟩
      obtain rfl := Position.fixed.inj hk
      have hlt := (List.getElem?_eq_some_iff.1 (Selection.cell_eq_ok_iff.1 hcell)).1
      rwa [Selection.length_cells] at hlt
  | computed i =>
      refine ⟨fun k hk => absurd hk Position.noConfusion, ?_⟩
      obtain ⟨_, _, hget, h⟩ := lowers_bind.1 h
      obtain ⟨rfl, rfl⟩ := lowers_get.1 hget
      split at h
      · simp only [lowers_bind, lowers_emit] at h
        obtain ⟨_, _, ⟨_, -, rfl⟩, _, hload, rfl⟩ := h
        exact hdynamic hload
      · split at h
        · simp only [lowers_bind, lowers_portAddress, lowers_emit] at h
          obtain ⟨_, _, ⟨_, -, rfl⟩, _, _, ⟨_, -, rfl⟩, _, hload, rfl⟩ := h
          exact hdynamic hload
        · obtain ⟨_, _, -, h⟩ := lowers_bind.1 h
          exact absurd h lowers_throw

theorem exists_outlet {i : Nat} (h : Lowers c (storeOutputAt i pos v) s u s') :
    ∃ o, c.site.outlets[i]? = some o := by
  obtain ⟨o, _, ho, -⟩ := lowers_bind.1 h
  exact ⟨o, (lowers_outlet.1 ho).1⟩

end Lower

namespace ElementCode

theorem keeps_emit (h : Lowers c (code.emit pos ids) s u s')
    (hports : (c.site.outlets.map (·.port)).Nodup) : s.Keeps c.site.outlets s' := by
  induction code generalizing s with
  | done =>
      obtain ⟨-, rfl⟩ := lowers_pure.1 h
      exact .refl s
  | input i rest ih =>
      obtain ⟨v, s₁, hv, h⟩ := lowers_bind.1 h
      exact ((Plain.inputAt _ _).keeps hv).trans (ih h)
  | compute k rest ih =>
      obtain ⟨v, s₁, hv, h⟩ := lowers_bind.1 h
      exact ((Plain.emit (k.linear_emit _)).keeps hv).trans (ih h)
  | declare x rest ih =>
      obtain ⟨y, s₁, hy, h⟩ := lowers_bind.1 h
      exact ((Plain.emit (Emit.leaves_localVar _)).keeps hy).trans (ih h)
  | write y x rest ih =>
      obtain ⟨_, s₁, hset, h⟩ := lowers_bind.1 h
      exact ((Plain.emit (Emit.leaves_setVar _ _)).keeps hset).trans (ih h)
  | store o x rest ih =>
      obtain ⟨_, s₁, hstore, h⟩ := lowers_bind.1 h
      obtain ⟨out, ho⟩ := exists_outlet hstore
      have hos := Outlet.among_of_nodup hports (List.mem_of_getElem? ho)
      exact (keeps_storeOutputAt hstore ho hos).trans (ih h)

/-- Code that could be emitted fits together. -/
theorem meets_of_emit (h : Lowers c (code.emit pos ids) s u s')
    (hids : ids.Agrees s.emitter.typing.Has s.emitter.typing.HasVar types)
    (hports : (c.site.outlets.map (·.port)).Nodup) (hsuited : s.Suited c.site.outlets) :
    code.Meets c (fun l => ∀ k, pos = .fixed k → k < l.selection.size)
      (fun o _ => o.size.isSome = true) types := by
  induction code generalizing s with
  | done => trivial
  | input i rest ih =>
      obtain ⟨v, s₁, hv, h⟩ := lowers_bind.1 h
      obtain ⟨l, t, hl, ht, hreads, hhas⟩ := typed_inputAt hv
      have hkeeps : s.Keeps c.site.outlets s₁ := (Plain.inputAt _ _).keeps hv
      exact ⟨l, t, hl, ht, hreads,
        ih h ((hids.straight hkeeps.straight).withValue hhas) (hkeeps.suited hsuited)⟩
  | compute k rest ih =>
      obtain ⟨v, s₁, hv, h⟩ := lowers_bind.1 h
      have hkeeps : s.Keeps c.site.outlets s₁ := (Plain.emit (k.linear_emit _)).keeps hv
      obtain ⟨e, hemit, rfl⟩ := lowers_emit.1 hv
      obtain ⟨t, ht, hhas⟩ := Computation.type_of_emit hemit hids
      exact ⟨t, ht, ih h ((hids.straight hkeeps.straight).withValue hhas) (hkeeps.suited hsuited)⟩
  | declare x rest ih =>
      obtain ⟨y, s₁, hy, h⟩ := lowers_bind.1 h
      have hkeeps : s.Keeps c.site.outlets s₁ := (Plain.emit (Emit.leaves_localVar _)).keeps hy
      obtain ⟨e, hemit, rfl⟩ := lowers_emit.1 hy
      have hhas := Emit.type_of_localVar hemit (hids.values x)
      exact ih h ((hids.straight hkeeps.straight).withVar hhas) (hkeeps.suited hsuited)
  | write y x rest ih =>
      obtain ⟨_, s₁, hset, h⟩ := lowers_bind.1 h
      have hkeeps : s.Keeps c.site.outlets s₁ := (Plain.emit (Emit.leaves_setVar _ _)).keeps hset
      obtain ⟨e, hemit, rfl⟩ := lowers_emit.1 hset
      obtain ⟨t, hy, hx⟩ := Emit.types_of_setVar hemit
      have hsame := Option.some.inj ((hids.values x).symm.trans hx)
      have hsame' := Option.some.inj ((hids.vars y).symm.trans hy)
      exact ⟨hsame.trans hsame'.symm, ih h (hids.straight hkeeps.straight) (hkeeps.suited hsuited)⟩
  | store o x rest ih =>
      obtain ⟨_, s₁, hstore, h⟩ := lowers_bind.1 h
      obtain ⟨out, ho⟩ := exists_outlet hstore
      have hos := Outlet.among_of_nodup hports (List.mem_of_getElem? ho)
      have hkeeps := keeps_storeOutputAt hstore ho hos
      obtain ⟨s₂, -, -, hbefore, -, ⟨st, hst⟩, -⟩ := succeeds_storeOutputAt hstore ho hos
      obtain ⟨b, -, -, hsize⟩ := hbefore.suited hsuited out hos.mem st hst
      exact ⟨out, ho, Option.isSome_iff_exists.2 ⟨_, hsize⟩,
        ih h (hids.straight hkeeps.straight) (hkeeps.suited hsuited)⟩

/-- Code that fits together can be emitted for each of as many elements as its inlets have. -/
theorem completes_emit (hs : s.Able) (hstored : ∀ l ∈ c.site.inlets, ∃ t, l.Stored t s.storage)
    (hports : (c.site.outlets.map (·.port)).Nodup)
    (hsizes : ∀ o ∈ c.site.outlets, o.size.getD 0 ≤ 2 ^ 28) (hlen : len ≤ 2 ^ 28)
    (hpos : pos.Within c s len) (hids : ids.Agrees s.emitter.Sees s.emitter.typing.HasVar types)
    (hmeets : code.Meets c (fun l => len ≤ l.selection.size) (fun o _ => o.size.isSome = true)
      types) :
    Completes c (code.emit pos ids) s fun _ s' => s'.Able ∧ s.Enlarges s' ∧
      s.emitter.Proceeds s'.emitter := by
  -- What comes after a step that has been emitted is emitted in its turn.
  have hnext : ∀ {n m : Nat} {rest : ElementCode n m} {ids : Locals ValueId VarId n m}
      {s s₁ : LowerState}, (∀ l ∈ c.site.inlets, ∃ t, l.Stored t s.storage) → pos.Within c s len →
      s₁.Able → s.Keeps c.site.outlets s₁ → s.emitter.Proceeds s₁.emitter →
      (s₁.Able → (∀ l ∈ c.site.inlets, ∃ t, l.Stored t s₁.storage) → pos.Within c s₁ len →
        Completes c (rest.emit pos ids) s₁ fun _ s' => s'.Able ∧ s₁.Enlarges s' ∧
          s₁.emitter.Proceeds s'.emitter) →
      Completes c (rest.emit pos ids) s₁ fun _ s' => s'.Able ∧ s.Enlarges s' ∧
        s.emitter.Proceeds s'.emitter := by
    intro n m rest ids s s₁ hstored hpos hs₁ hkeeps hproceeds hrest
    refine (hrest hs₁ (fun l hl => ?_) (hpos.keeps hkeeps)).imp fun _ s' ⟨hs', h, h'⟩ =>
      ⟨hs', hkeeps.enlarges.trans h, hproceeds.trans h'⟩
    exact (hstored l hl).imp fun _ h => h.mono hkeeps.enlarges
  induction code generalizing s with
  | done => exact .pure ⟨hs, .refl s, .refl hs.proper⟩
  | input i rest ih =>
      obtain ⟨l, t, hl, ht, hsize, hrest⟩ := hmeets
      obtain ⟨t', hl'⟩ := hstored l (List.mem_of_getElem? hl)
      obtain rfl := Option.some.inj ((hl'.elemType? (hpos.zero_lt.trans_le hsize)).symm.trans ht)
      refine (completes_inputAt hs hl hl' (hpos.reads hl hsize)).bind fun v s₁ ⟨e₁, hs₁, h₁, hv⟩ => ?_
      subst hs₁
      exact hnext hstored hpos (hs.proceeds h₁) (.of_straight h₁.toStraight) h₁
        fun hs₁ hstored₁ hpos₁ =>
          ih hs₁ hstored₁ hpos₁ ((hids.sees h₁.toStraight).withValue hv) hrest
  | compute k rest ih =>
      obtain ⟨t, ht, hrest⟩ := hmeets
      refine (Completes.value (Computation.ends_emit hs.proper hids ht)).bind
        fun v s₁ ⟨e₁, hs₁, h₁, hv⟩ => ?_
      subst hs₁
      exact hnext hstored hpos (hs.proceeds h₁) (.of_straight h₁.toStraight) h₁
        fun hs₁ hstored₁ hpos₁ =>
          ih hs₁ hstored₁ hpos₁ ((hids.sees h₁.toStraight).withValue hv) hrest
  | declare x rest ih =>
      obtain ⟨y, e₁, hy, h₁, hvar⟩ := Emit.ends_localVar hs.proper (hids.values x)
      refine .after (lowers_emit.2 ⟨e₁, hy, rfl⟩) ?_
      exact hnext hstored hpos (hs.proceeds h₁) (.of_straight h₁.toStraight) h₁
        fun hs₁ hstored₁ hpos₁ =>
          ih hs₁ hstored₁ hpos₁ ((hids.sees h₁.toStraight).withVar hvar) hmeets
  | write y x rest ih =>
      obtain ⟨hsame, hrest⟩ := hmeets
      obtain ⟨_, e₁, hset, h₁⟩ :=
        Emit.ends_setVar hs.proper (hids.vars y) (hsame ▸ hids.values x)
      refine .after (lowers_emit.2 ⟨e₁, hset, rfl⟩) ?_
      exact hnext hstored hpos (hs.proceeds h₁) (.of_straight h₁.toStraight) h₁
        fun hs₁ hstored₁ hpos₁ => ih hs₁ hstored₁ hpos₁ (hids.sees h₁.toStraight) hrest
  | store o x rest ih =>
      obtain ⟨out, ho, hsome, hrest⟩ := hmeets
      have hmem := List.mem_of_getElem? ho
      obtain ⟨size, hsize⟩ := Option.isSome_iff_exists.1 hsome
      have hbound := hsizes out hmem
      rw [hsize] at hbound
      refine (completes_storeOutputAt hs ho (Outlet.among_of_nodup hports hmem) hsize hbound
        (hids.values x) (hpos.writes hlen (.refl s.emitter))).bind fun _ s₁ ⟨hs₁, hkeeps, h₁, _⟩ => ?_
      exact hnext hstored hpos hs₁ hkeeps h₁ fun hs₁ hstored₁ hpos₁ =>
        ih hs₁ hstored₁ hpos₁ (hids.sees h₁.toStraight) hrest

section Meets

variable {reads reads' : Inlet → Prop} {stores stores' : Outlet → Ty → Prop}

theorem Meets.imp (h : code.Meets c reads stores types) (hreads : ∀ l, reads l → reads' l)
    (hstores : ∀ o t, stores o t → stores' o t) : code.Meets c reads' stores' types := by
  induction code with
  | done => trivial
  | input i rest ih =>
      obtain ⟨l, t, hl, ht, hread, hrest⟩ := h
      exact ⟨l, t, hl, ht, hreads l hread, ih hrest⟩
  | compute k rest ih =>
      obtain ⟨t, ht, hrest⟩ := h
      exact ⟨t, ht, ih hrest⟩
  | declare x rest ih => exact ih h
  | write y x rest ih => exact ⟨h.1, ih h.2⟩
  | store o x rest ih =>
      obtain ⟨out, ho, hstore, hrest⟩ := h
      exact ⟨out, ho, hstores _ _ hstore, ih hrest⟩

theorem Meets.reads_inputs (h : code.Meets c reads stores types) {i : Nat} (hi : i ∈ code.inputs)
    {l : Inlet} (hl : c.site.inlets[i]? = some l) : reads l := by
  induction code with
  | done => cases hi
  | input j rest ih =>
      obtain ⟨l', t, hl', ht, hread, hrest⟩ := h
      rcases List.mem_cons.1 hi with rfl | hi
      · obtain rfl := Option.some.inj (hl'.symm.trans hl)
        exact hread
      · exact ih hrest hi
  | compute k rest ih =>
      obtain ⟨t, ht, hrest⟩ := h
      exact ih hrest hi
  | declare x rest ih => exact ih h hi
  | write y x rest ih => exact ih h.2 hi
  | store o x rest ih =>
      obtain ⟨out, ho, hstore, hrest⟩ := h
      exact ih hrest hi

/-- Of the inlets it is enough to ask something of those that are read. -/
theorem Meets.of_inputs (h : code.Meets c reads stores types)
    (hreads : ∀ i ∈ code.inputs, ∀ l, c.site.inlets[i]? = some l → reads' l) :
    code.Meets c reads' stores types := by
  induction code with
  | done => trivial
  | input j rest ih =>
      obtain ⟨l, t, hl, ht, -, hrest⟩ := h
      obtain ⟨hread, hall⟩ := List.forall_mem_cons.1 hreads
      exact ⟨l, t, hl, ht, hread l hl, ih hrest hall⟩
  | compute k rest ih =>
      obtain ⟨t, ht, hrest⟩ := h
      exact ⟨t, ht, ih hrest hreads⟩
  | declare x rest ih => exact ih h hreads
  | write y x rest ih => exact ⟨h.1, ih h.2 hreads⟩
  | store o x rest ih =>
      obtain ⟨out, ho, hstore, hrest⟩ := h
      exact ⟨out, ho, hstore, ih hrest hreads⟩

end Meets

end ElementCode

/-- Code for each element of a vector can be emitted for a node: what its inlets read has storage,
its outlets have different ports, and no offset is out of range. -/
structure Furnished (c : LowerContext) (s : LowerState) : Prop where
  able : s.Able
  level : s.emitter.body.Level
  stored : ∀ l ∈ c.site.inlets, ∃ t, l.Stored t s.storage
  gathered : s.gathered.length = c.site.inlets.length
  ports : (c.site.outlets.map (·.port)).Nodup
  sizes : ∀ o ∈ c.site.outlets, o.size.getD 0 ≤ 2 ^ 28
  suited : s.Suited c.site.outlets

def LowerState.unrolling (s : LowerState) (unroll : Bool) : LowerState :=
  { s with emitter := { s.emitter with settings := { s.emitter.settings with unroll } } }

namespace Furnished

theorem unrolling (hs : Furnished c s) (unroll : Bool) : Furnished c (s.unrolling unroll) where
  able := by
    have he := hs.able.proper
    have ht := he.tidy
    refine ⟨⟨⟨he.typed.body, he.typed.declarations⟩, ⟨ht.pool, ht.scope, ht.place, ht.injective,
      ht.scratch, ht.current⟩, he.sound, he.regular, he.lined, he.single, he.entry, he.literals,
      he.named, he.scratch, he.scope⟩, ?_, hs.able.arguments, hs.able.data⟩
    have ho := hs.able.orderly
    refine ⟨⟨ht.pool, ht.scope, ht.place, ht.injective, ht.scratch, ht.current⟩, fun w b hb => ?_,
      ho.distinct⟩
    have hheld := ho.held w b hb
    exact ⟨hheld.allocated, hheld.place, hheld.room⟩
  level := hs.level
  stored := hs.stored
  gathered := hs.gathered
  ports := hs.ports
  sizes := hs.sizes
  suited := hs.suited

theorem exists_forEach (hs : Furnished c s) (hlen : len ≤ 2 ^ 28)
    (hids : ids.Agrees s.emitter.Sees s.emitter.typing.HasVar types)
    (hmeets : 0 < len → code.Meets c (fun l => len ≤ l.selection.size)
      (fun o _ => o.size.isSome = true) types) :
    ∃ s', Lowers c (forEach len fun pos => code.emit pos ids) s () s' := by
  have hbody : ∀ pos s₁, s₁.Able → s.Enlarges s₁ → Position.Within c s₁ len pos →
      (∀ v t, s.emitter.Sees v t → s₁.emitter.Sees v t) →
      Completes c (code.emit pos ids) s₁ fun _ s₂ => s₂.Able ∧ s₁.Enlarges s₂ ∧
        s₁.emitter.Proceeds s₂.emitter ∧ True := by
    intro pos s₁ hs₁ h₁ hpos hsees
    refine (ElementCode.completes_emit hs₁ (fun l hl => ?_) hs.ports hs.sizes hlen hpos ?_
      (hmeets hpos.zero_lt)).imp fun _ s₂ ⟨hs₂, h₂, hproceeds⟩ => ⟨hs₂, h₂, hproceeds, trivial⟩
    · exact (hs.stored l hl).imp fun _ h => h.mono h₁
    · exact hids.imp (fun v t hv => hsees v t hv) fun x t hx => h₁.grows.body.varTypes _ _ hx
  obtain ⟨_, s', h, -⟩ := completes_forEach (K := fun _ => True) hs.able hs.level hs.stored
    hs.gathered hlen hbody
  exact ⟨s', h⟩

theorem meets_of_range (hs : Furnished c s)
    (h : Lowers c ((List.range len).forM fun i => code.emit (.fixed i) ids) s u s')
    (hids : ids.Agrees s.emitter.typing.Has s.emitter.typing.HasVar types) (hpos : 0 < len) :
    code.Meets c (fun l => len ≤ l.selection.size) (fun o _ => o.size.isSome = true) types := by
  obtain ⟨ss, rfl, rfl, hsteps⟩ := lowers_range h
  have hbefore := keeps_of_steps (fun k hk => ElementCode.keeps_emit (hsteps k hk) hs.ports)
    (Nat.zero_le (len - 1)) (Nat.sub_le len 1)
  have hlast := hsteps (len - 1) (Nat.sub_lt hpos Nat.one_pos)
  refine (ElementCode.meets_of_emit hlast (hids.straight hbefore.straight) hs.ports
    (hbefore.suited hs.suited)).imp (fun l hl => ?_) fun _ _ h => h
  have := hl (len - 1) rfl
  omega

theorem meets_of_forEach (hs : Furnished c s)
    (h : Lowers c (forEach len fun pos => code.emit pos ids) s u s')
    (hids : ids.Agrees s.emitter.typing.Has s.emitter.typing.HasVar types) (hpos : 0 < len) :
    code.Meets c (fun _ => True) (fun o _ => o.size.isSome = true) types := by
  rcases succeeds_forEach h with h | ⟨hn, s₁, l, e₂, i, e₃, s₃, l', e₄, hgather, hbegin, hcounter,
    hbody, hfinish, rfl⟩
  · exact (hs.meets_of_range h hids hpos).imp (fun _ _ => trivial) fun _ _ h => h
  · have hg := gathers_gatherInputs hgather
    have hkeeps := ElementCode.keeps_emit hbody hs.ports
    obtain ⟨hgrows, -, -⟩ :=
      Code.CountedLoop.advances_loop hbegin hcounter hkeeps.straight hfinish hn
    have hids₃ : ids.Agrees e₃.typing.Has e₃.typing.HasVar types :=
      (hids.straight hg.straight).imp (fun _ _ hv => hgrows.body.valueTypes _ _ hv)
        fun _ _ hx => hgrows.body.varTypes _ _ hx
    have hsuited : s₁.Suited c.site.outlets := fun o ho st hst => hs.suited o ho st (hg.storage ▸ hst)
    exact (ElementCode.meets_of_emit hbody hids₃ hs.ports hsuited).imp (fun _ _ => trivial)
      fun _ _ h => h

/-- Code for each element can be emitted with loops unrolled if it can be emitted in a loop and no
inlet that is read ends before. -/
theorem exists_unrolled_iff (hs : Furnished c s) (hlen : len ≤ 2 ^ 28)
    (hids : ids.Agrees s.emitter.Sees s.emitter.typing.HasVar types) :
    (∃ s', Lowers c (forEach len fun pos => code.emit pos ids) (s.unrolling true) () s') ↔
      (∃ s', Lowers c (forEach len fun pos => code.emit pos ids) (s.unrolling false) () s') ∧
        ∀ i ∈ code.inputs, ∀ l, c.site.inlets[i]? = some l → len ≤ l.selection.size := by
  have hsees : ∀ unroll, ids.Agrees (s.unrolling unroll).emitter.Sees
      (s.unrolling unroll).emitter.typing.HasVar types :=
    fun _ => hids.imp (fun _ _ hv => ⟨hv.type, hv.visible⟩) fun _ _ hx => hx
  have hhas : ∀ unroll, ids.Agrees (s.unrolling unroll).emitter.typing.Has
      (s.unrolling unroll).emitter.typing.HasVar types :=
    fun unroll => (hsees unroll).imp (fun _ _ hv => hv.type) fun _ _ hx => hx
  constructor
  · rintro ⟨s', h⟩
    have hmeets := fun hpos => (hs.unrolling true).meets_of_range (lowers_unrolled h rfl) (hhas true) hpos
    refine ⟨(hs.unrolling false).exists_forEach hlen (hsees false) hmeets, fun i hi l hl => ?_⟩
    rcases Nat.eq_zero_or_pos len with rfl | hpos
    · exact Nat.zero_le _
    · exact (hmeets hpos).reads_inputs hi hl
  · rintro ⟨⟨s', h⟩, hreads⟩
    refine (hs.unrolling true).exists_forEach hlen (hsees true) fun hpos => ?_
    exact ((hs.unrolling false).meets_of_forEach h (hhas false) hpos).of_inputs hreads

end Furnished

end Emission

/-- The loops of scripted nodes run such code. -/
theorem LowerAction.perform_copy (input output : Nat) : (LowerAction.copy input output).perform =
    Lower.inputSize input >>= fun size =>
      Lower.forEach size fun pos => (ElementCode.copy input output).emit pos Locals.none := by
  simp only [ElementCode.copy, ElementCode.emit, bind_pure_unit]
  rfl

end Dataflow
