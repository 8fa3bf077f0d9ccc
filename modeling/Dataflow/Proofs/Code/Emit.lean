import Dataflow.Proofs.Code.Growth
import Dataflow.Proofs.Code.Machine

/-!
# What emitted code computes

An operation that emits the computation of a value makes the machine compute it: in a run of any
body that the emission is a part of, the machine goes from where the emission began to where it
ended, and then the value holds the word. Earlier values, variables and memory stay as they are.
Stores and assignments change one element or one variable.
-/

namespace Dataflow.Code

/-- The value has been computed, and its recorded type is that of the word. -/
def Store.Carries (σ : Store) (b : Body) (v : ValueId) (w : Word) : Prop :=
  σ.Has v w ∧ b.valueTypes[v.index]? = some w.ty

theorem Store.Carries.mono {σ σ' : Store} {b b' : Body} {v : ValueId} {w : Word}
    (h : σ.Carries b v w) (hb : b.Within b')
    (hvalues : ∀ i < b.valueTypes.size, σ'.values[i]? = σ.values[i]?) : σ'.Carries b' v w :=
  ⟨(hvalues _ (Array.getElem?_eq_some_iff.1 h.2).1).trans h.1, hb.valueTypes _ _ h.2⟩

namespace Context

structure Covers (C : Context) (e : Emitter) : Prop where
  body : e.body.Within C.body
  helpers : ∀ k id, e.declarations.helpers.find? k = some id → C.helpers.find? k = some id
  data : Prefix e.declarations.data C.data

/-- The machine gets to the end of the later part, and the values of the earlier one are kept. -/
structure Advances (C : Context) (b b' : Body) (σ σ' : Store) : Prop where
  reaches : C.Reaches b σ b' σ'
  fits : C.Fits σ'
  grows : b.valueTypes.size ≤ b'.valueTypes.size
  values : ∀ i < b.valueTypes.size, σ'.values[i]? = σ.values[i]?

structure Quiet (C : Context) (b b' : Body) (σ σ' : Store) : Prop extends
    Advances C b b' σ σ' where
  vars : σ'.vars = σ.vars
  memory : σ'.memory = σ.memory

def Yields (C : Context) (b b' : Body) (σ : Store) (v : ValueId) (w : Word) : Prop :=
  ∃ σ', C.Quiet b b' σ σ' ∧ σ'.Carries b' v w

variable {C : Context} {e e' : Emitter} {b b' b'' : Body} {σ σ' σ'' : Store}

theorem Covers.of_grows (h : C.Covers e') (hg : e.Grows e') : C.Covers e where
  body := hg.body.trans h.body
  helpers k id hk := h.helpers k id (hg.declarations.helpers k id hk)
  data := hg.declarations.data.trans h.data

theorem Advances.refl (h : C.Fits σ) : C.Advances b b σ σ :=
  ⟨.refl, h, Nat.le_refl _, fun _ _ => rfl⟩

theorem Advances.trans (h : C.Advances b b' σ σ') (h' : C.Advances b' b'' σ' σ'') :
    C.Advances b b'' σ σ'' where
  reaches := h.reaches.trans h'.reaches
  fits := h'.fits
  grows := h.grows.trans h'.grows
  values i hi := (h'.values i (hi.trans_le h.grows)).trans (h.values i hi)

theorem Quiet.refl (h : C.Fits σ) : C.Quiet b b σ σ := ⟨.refl h, rfl, rfl⟩

theorem Quiet.trans (h : C.Quiet b b' σ σ') (h' : C.Quiet b' b'' σ' σ'') :
    C.Quiet b b'' σ σ'' :=
  ⟨h.toAdvances.trans h'.toAdvances, h'.vars.trans h.vars, h'.memory.trans h.memory⟩

/-- Where nothing is emitted, nothing happens. -/
theorem Quiet.of_silent (h : e.Silent e') (hσ : C.Fits σ) : C.Quiet e.body e'.body σ σ := by
  refine ⟨⟨?_, hσ, h.body.valueTypes.size_le, fun _ _ => rfl⟩, rfl, rfl⟩
  have hhere : C.here e.body σ = C.here e'.body σ := by
    simp only [here, Body.position, h.current, h.blocks]
  rw [Reaches, hhere]
  exact .refl

theorem Advances.carries (h : C.Advances b b' σ σ') (hb : b.Within b') {v : ValueId} {w : Word}
    (hv : σ.Carries b v w) : σ'.Carries b' v w :=
  hv.mono hb h.values

theorem Yields.trans {v : ValueId} {w : Word} (h : C.Quiet b b' σ σ')
    (h' : C.Yields b' b'' σ' v w) : C.Yields b b'' σ v w := by
  obtain ⟨σ'', hq, hv⟩ := h'
  exact ⟨σ'', h.trans hq, hv⟩

section Values

variable {t : Ty} {v x y z : ValueId} {w a c : Word} {instr : ValueId → Instr}

/-- A new value holds what its instruction writes. -/
theorem yields_of_reaches (h : Succeeds (Emit.define t instr) e v e') (hC : C.Covers e')
    (hσ : C.Fits σ) (ht : w.ty = t)
    (hreaches : ∀ b, (e.body.newValue t).2.push (instr v) = .ok b → b.Within C.body →
      C.body.valueTypes[v.index]? = some t → C.Reaches (e.body.newValue t).2 σ b (σ.set v w)) :
    C.Yields e.body e'.body σ v w := by
  have htype := Emit.type_of_define h
  have htype' := hC.body.valueTypes _ _ htype
  obtain ⟨rfl, b, hb, rfl⟩ := Emit.succeeds_define.1 h
  have hlt : e.body.valueTypes.size < σ.values.size := by
    rw [hσ.values]
    exact (Array.getElem?_eq_some_iff.1 htype').1
  refine ⟨σ.set ⟨e.body.valueTypes.size⟩ w,
    ⟨⟨hreaches b hb hC.body htype', hσ.set _ _, ?_, fun i hi => ?_⟩, rfl, rfl⟩, ?_, ?_⟩
  · refine Nat.le_trans ?_ (Body.within_push hb).valueTypes.size_le
    exact (Prefix.push _ _).size_le
  · exact Array.getElem?_setIfInBounds_ne (by exact Nat.ne_of_gt hi)
  · exact Array.getElem?_setIfInBounds_self_of_lt hlt
  · rw [ht]
    exact htype

theorem yields_define (h : Succeeds (Emit.define t instr) e v e') (hC : C.Covers e')
    (hσ : C.Fits σ) (ht : w.ty = t) (hcall : (instr v).callee = none)
    (hperf : C.body.valueTypes[v.index]? = some t → ∀ f : Frame, f.body = C.body → f.base = C.base →
      f.values = σ.values → f.vars = σ.vars →
        Machine.perform C.program.surroundings f σ.memory (instr v) = .ok (f.set v w, σ.memory)) :
    C.Yields e.body e'.body σ v w :=
  yields_of_reaches h hC hσ ht fun _ hb hw htype =>
    reaches_push hb hw hcall fun _ => hperf htype _ rfl rfl rfl rfl

theorem get_eq {f : Frame} (hf : f.values = σ.values) (h : σ.Has v w) : f.get v = .ok w := by
  rw [Frame.get, hf, h]

theorem yields_literal {l : Literal} (h : Succeeds (Emit.literal l) e v e') (hC : C.Covers e')
    (hσ : C.Fits σ) : C.Yields e.body e'.body σ v (.ofLiteral l) := by
  refine yields_define h hC hσ ?_ rfl fun _ f _ _ _ _ => rfl
  cases l <;> rfl

theorem yields_bufferAddress {buffer : StackBuffer}
    (h : Succeeds (Emit.bufferAddress buffer) e v e') (hC : C.Covers e') (hσ : C.Fits σ) :
    C.Yields e.body e'.body σ v (.ptr ⟨C.base + buffer.place.index + 1, 0⟩) := by
  refine yields_define h hC hσ rfl rfl fun _ f _ hbase _ _ => ?_
  rw [← hbase]
  rfl

theorem yields_dataAddress {id : DatumId} (h : Succeeds (Emit.dataAddress id) e v e')
    (hC : C.Covers e') (hσ : C.Fits σ) :
    C.Yields e.body e'.body σ v (.ptr ⟨id.index + 1, 0⟩) := by
  obtain ⟨_, e₁, hget, h⟩ := succeeds_bind.1 h
  obtain ⟨rfl, rfl⟩ := succeeds_get.1 hget
  obtain ⟨_, e₂, hcheck, h⟩ := succeeds_bind.1 h
  obtain ⟨-, rfl⟩ := Emit.succeeds_check.1 hcheck
  exact yields_define h hC hσ rfl rfl fun _ f _ _ _ _ => rfl

theorem yields_load {r i : Nat} (h : Succeeds (Emit.load t x i) e v e') (hC : C.Covers e')
    (hσ : C.Fits σ) (hx : σ.Carries e.body x (.ptr ⟨r + 1, 0⟩))
    (hw : σ.memory.Holds C.layout r t i w) (ht : w.ty = t) : C.Yields e.body e'.body σ v w := by
  simp only [Emit.load, succeeds_bind, Emit.succeeds_expectType, Emit.succeeds_elementOffset] at h
  obtain ⟨_, _, ⟨-, rfl⟩, _, _, ⟨-, rfl, rfl⟩, h⟩ := h
  refine yields_define h hC hσ ht rfl fun htype f hbody _ hvalues _ => ?_
  refine Machine.perform_load (get_eq hvalues hx.1) (by rw [hbody]; exact htype) ?_
  rw [hσ.layout_eq]
  exact hw.load (by simp)

/-- The place of an element does not wrap around in 64 bits. -/
theorem toInt_scaled (n : Int32) (t : Ty) :
    ((0 : Int64) + n.toInt64 * Int64.ofNat t.size).toInt = n.toInt * t.size := by
  have hle := n.le_toInt
  have hlt := n.toInt_lt
  have hsize : (Int64.ofNat t.size).toInt = t.size := by cases t <;> rfl
  have hbound : -(2 ^ 31) * 8 ≤ n.toInt * t.size ∧ n.toInt * t.size ≤ 2 ^ 31 * 8 := by
    cases t <;> simp only [Ty.size] <;> omega
  rw [Int64.zero_add, Int64.toInt_mul, Int32.toInt_toInt64, hsize]
  apply Int.bmod_eq_of_le <;> omega

/-- An index of 32 bits comes to the place of its element. -/
theorem toInt_offset {n : Int32} {i : Nat} (hn : n.toInt = i) (t : Ty) :
    ((0 : Int64) + n.toInt64 * Int64.ofNat t.size).toInt = (i * t.size : Nat) := by
  rw [toInt_scaled, hn, Int.natCast_mul]

theorem yields_elementAddress {r i : Nat} {n : Int32}
    (h : Succeeds (Emit.elementAddress t x y) e v e') (hC : C.Covers e') (hσ : C.Fits σ)
    (hx : σ.Carries e.body x (.ptr ⟨r + 1, 0⟩)) (hy : σ.Carries e.body y (.i32 n))
    (hn : n.toInt = i) : ∃ off : Int64, off.toInt = (i * t.size : Nat) ∧
      C.Yields e.body e'.body σ v (.ptr ⟨r + 1, off⟩) := by
  simp only [Emit.elementAddress, succeeds_bind, Emit.succeeds_expectType,
    Emit.succeeds_valueType, succeeds_refuse] at h
  obtain ⟨_, _, ⟨-, rfl⟩, _, _, ⟨-, rfl⟩, -, h⟩ := h
  refine ⟨_, toInt_offset hn t, yields_define h hC hσ rfl rfl fun _ f _ _ hvalues _ => ?_⟩
  exact Machine.perform_offset (get_eq hvalues hx.1) (get_eq hvalues hy.1) rfl

theorem yields_loadDynamic {r i : Nat} {n : Int32}
    (h : Succeeds (Emit.loadDynamic t x y) e v e') (hC : C.Covers e') (hσ : C.Fits σ)
    (hx : σ.Carries e.body x (.ptr ⟨r + 1, 0⟩)) (hy : σ.Carries e.body y (.i32 n))
    (hn : n.toInt = i) (hw : σ.memory.Holds C.layout r t i w) (ht : w.ty = t) :
    C.Yields e.body e'.body σ v w := by
  obtain ⟨p, e₁, hp, h⟩ := succeeds_bind.1 h
  have hgrows := ((Emit.straight_define _ _).straight h).toGrows
  obtain ⟨off, hoff, σ₁, hq, hcarries⟩ :=
    yields_elementAddress hp (hC.of_grows hgrows) hσ hx hy hn
  refine .trans hq (yields_define h hC hq.fits ht rfl fun htype f hbody _ hvalues _ => ?_)
  refine Machine.perform_load (get_eq hvalues hcarries.1) (by rw [hbody]; exact htype) ?_
  rw [hq.fits.layout_eq, hq.memory]
  exact hw.load (by simp [hoff])

theorem ty_binary {op : BinaryOp} (h : Word.binary op a c = some w) : w.ty = a.ty := by
  cases a <;> cases c <;> simp only [Word.binary, Option.map_eq_map, Option.map_eq_some_iff,
    reduceCtorEq] at h
  all_goals
    obtain ⟨_, -, rfl⟩ := h
    rfl

theorem ty_unary {op : UnaryOp} (h : Word.unary op a = some w) : w.ty = a.ty := by
  cases op <;> cases a <;> cases h <;> rfl

theorem yields_binary {op : BinaryOp} (h : Succeeds (Emit.binary op x y) e v e')
    (hC : C.Covers e') (hσ : C.Fits σ) (hx : σ.Carries e.body x a) (hy : σ.Carries e.body y c)
    (hw : Word.binary op a c = some w) : C.Yields e.body e'.body σ v w := by
  simp only [Emit.binary, Emit.operandType, succeeds_bind, Emit.succeeds_expectType,
    Emit.succeeds_valueType, succeeds_refuse, succeeds_pure] at h
  obtain ⟨t, _, ⟨_, _, ⟨ht, rfl⟩, _, _, ⟨-, rfl⟩, -, rfl, rfl⟩, h⟩ := h
  obtain rfl := Option.some.inj (hx.2.symm.trans ht)
  refine yields_define h hC hσ (ty_binary hw) rfl fun _ f _ _ hvalues _ => ?_
  exact Machine.perform_binary (get_eq hvalues hx.1) (get_eq hvalues hy.1) hw

/-- An operator that is applied through its helper. -/
theorem yields_callHelper {op : Operator} {args : List ValueId} {words : List Word}
    (h : Succeeds (Emit.callHelper op t args) e v e') (hC : C.Covers e') (hσ : C.Fits σ)
    (hargs : List.Forall₂ σ.Has args words) (hw : op.apply words = some w) (ht : w.ty = t) :
    C.Yields e.body e'.body σ v w := by
  simp only [Emit.callHelper, succeeds_bind, succeeds_get, Emit.succeeds_check,
    succeeds_modify] at h
  obtain ⟨e₀, e₁, ⟨rfl, rfl⟩, ⟨id, d⟩, _, ⟨hd, rfl⟩, _, _, rfl, h⟩ := h
  have hgrows := ((Emit.straight_define _ _).straight h).toGrows
  have hhelper : C.helpers.find? (op, t) = some id :=
    hC.helpers _ _ (hgrows.declarations.helpers _ _ (Declarations.helper_eq_ok hd).1)
  have hyields := yields_of_reaches h hC hσ ht fun _ hb hwithin _ =>
    reaches_call hb hwithin hhelper hargs hw
  exact hyields

theorem yields_operator {op : BinaryOp} (h : Succeeds (Emit.operator op x y) e v e')
    (hC : C.Covers e') (hσ : C.Fits σ) (hx : σ.Carries e.body x a) (hy : σ.Carries e.body y c)
    (hw : Word.binary op a c = some w) : C.Yields e.body e'.body σ v w := by
  obtain ⟨s, e₁, hs, h⟩ := succeeds_bind.1 h
  obtain ⟨rfl, rfl⟩ := Emit.succeeds_settings.1 hs
  split at h
  · exact yields_binary h hC hσ hx hy hw
  · simp only [Emit.operandType, succeeds_bind, Emit.succeeds_expectType,
      Emit.succeeds_valueType, succeeds_refuse, succeeds_pure] at h
    obtain ⟨t, _, ⟨_, _, ⟨ht, rfl⟩, _, _, ⟨-, rfl⟩, -, rfl, rfl⟩, h⟩ := h
    obtain rfl := Option.some.inj (hx.2.symm.trans ht)
    exact yields_callHelper h hC hσ (.cons hx.1 (.cons hy.1 .nil)) hw (ty_binary hw)

theorem yields_unary {op : UnaryOp} (h : Succeeds (Emit.unary op x) e v e') (hC : C.Covers e')
    (hσ : C.Fits σ) (hx : σ.Carries e.body x a) (hw : Word.unary op a = some w) :
    C.Yields e.body e'.body σ v w := by
  simp only [Emit.unary, succeeds_bind, Emit.succeeds_valueType, succeeds_refuse,
    Emit.succeeds_settings] at h
  obtain ⟨t, _, ⟨ht, rfl⟩, -, _, _, ⟨rfl, rfl⟩, h⟩ := h
  obtain rfl := Option.some.inj (hx.2.symm.trans ht)
  split at h
  · refine yields_define h hC hσ (ty_unary hw) rfl fun _ f _ _ hvalues _ => ?_
    exact Machine.perform_unary (get_eq hvalues hx.1) hw
  · exact yields_callHelper h hC hσ (.cons hx.1 .nil) hw (ty_unary hw)

theorem yields_compare {op : CompareOp} {r : Bool} (h : Succeeds (Emit.compare op x y) e v e')
    (hC : C.Covers e') (hσ : C.Fits σ) (hx : σ.Carries e.body x a) (hy : σ.Carries e.body y c)
    (hr : Word.compare op a c = some r) : C.Yields e.body e'.body σ v (.bool r) := by
  simp only [Emit.compare, succeeds_bind, Emit.succeeds_expectType, Emit.succeeds_valueType,
    succeeds_refuse] at h
  obtain ⟨t, _, ⟨-, rfl⟩, _, _, ⟨-, rfl⟩, -, h⟩ := h
  refine yields_define h hC hσ rfl rfl fun _ f _ _ hvalues _ => ?_
  exact Machine.perform_compare (get_eq hvalues hx.1) (get_eq hvalues hy.1) (by rw [hr]; rfl)

theorem yields_select {r : Bool} (h : Succeeds (Emit.select x y z) e v e') (hC : C.Covers e')
    (hσ : C.Fits σ) (hx : σ.Carries e.body x (.bool r)) (hy : σ.Carries e.body y a)
    (hz : σ.Carries e.body z c) : C.Yields e.body e'.body σ v (if r then a else c) := by
  simp only [Emit.select, succeeds_bind, Emit.succeeds_expectType, Emit.succeeds_valueType] at h
  obtain ⟨_, _, ⟨-, rfl⟩, t, _, ⟨ht, rfl⟩, _, _, ⟨ht', rfl⟩, h⟩ := h
  have hta := Option.some.inj (hy.2.symm.trans ht)
  have htc := Option.some.inj (hz.2.symm.trans ht')
  refine yields_define h hC hσ ?_ rfl fun _ f _ _ hvalues _ => ?_
  · cases r
    · exact htc
    · exact hta
  · exact Machine.perform_select (get_eq hvalues hx.1) (get_eq hvalues hy.1) (get_eq hvalues hz.1)

theorem ty_cast {l : Layout} (h : a.cast l t = some w) : w.ty = t := by
  cases a <;> cases t <;> cases h <;> rfl

theorem cast_self (l : Layout) (a : Word) : a.cast l a.ty = some a := by cases a <;> rfl

/-- A conversion of a value to its own type is left out. -/
theorem yields_cast (h : Succeeds (Emit.cast x t) e v e') (hC : C.Covers e') (hσ : C.Fits σ)
    (hx : σ.Carries e.body x a) (hw : a.cast C.layout t = some w) :
    C.Yields e.body e'.body σ v w := by
  obtain ⟨u, _, hu, h⟩ := succeeds_bind.1 h
  obtain ⟨htype, rfl⟩ := Emit.succeeds_valueType.1 hu
  obtain rfl := Option.some.inj (hx.2.symm.trans htype)
  split at h
  case isTrue heq =>
    obtain ⟨rfl, rfl⟩ := succeeds_pure.1 h
    subst heq
    obtain rfl := Option.some.inj ((cast_self _ a).symm.trans hw)
    exact ⟨σ, .refl hσ, hx⟩
  case isFalse =>
    obtain ⟨-, h⟩ := succeeds_refuse.1 h
    refine yields_define h hC hσ (ty_cast hw) rfl fun htype f hbody _ hvalues _ => ?_
    exact Machine.perform_cast (get_eq hvalues hx.1) (by rw [hbody]; exact htype)
      (hσ.layout_eq ▸ hw)

end Values

structure Room (C : Context) (r : Nat) (t : Ty) (n : Nat) : Prop where
  data : C.data.size ≤ r
  extent : ∃ size, C.extents[r]? = some (size, true) ∧ n * t.size ≤ size

section Effects

variable {t : Ty} {v x y : ValueId} {i : VarId} {w : Word} {u : Unit}

theorem yields_getVar (h : Succeeds (Emit.getVar i) e v e') (hC : C.Covers e') (hσ : C.Fits σ)
    (hi : σ.vars[i.index]? = some w) (ht : e.body.varTypes[i.index]? = some w.ty) :
    C.Yields e.body e'.body σ v w := by
  simp only [Emit.getVar, succeeds_bind, Emit.succeeds_body, Emit.succeeds_check,
    Body.varType_eq_ok_iff] at h
  obtain ⟨b, _, ⟨rfl, rfl⟩, t, _, ⟨hvar, rfl⟩, h⟩ := h
  obtain rfl := Option.some.inj (ht.symm.trans hvar)
  refine yields_define h hC hσ rfl rfl fun _ f _ _ _ hvars => ?_
  exact Machine.perform_readVar (by rw [hvars, hi])

/-- An instruction that writes no value changes what it is said to change. -/
theorem advances_push {instr : Instr} (h : Succeeds (Emit.push instr) e u e') (hC : C.Covers e')
    (hfits : C.Fits σ') (hcall : instr.callee = none) (hvalues : σ'.values = σ.values)
    (hperf : ∀ next, Machine.perform C.program.surroundings (C.frame e.body.current next σ)
      σ.memory instr = .ok (C.frame e.body.current next σ', σ'.memory)) :
    C.Advances e.body e'.body σ σ' := by
  obtain ⟨b, hb, rfl⟩ := Emit.succeeds_push.1 h
  refine ⟨reaches_push hb hC.body hcall hperf, hfits, ?_, fun i _ => by rw [hvalues]⟩
  exact (Body.within_push hb).valueTypes.size_le

theorem advances_writeVar (h : Succeeds (Emit.push (.writeVar i v)) e u e') (hC : C.Covers e')
    (hσ : C.Fits σ) (hv : σ.Has v w) : C.Advances e.body e'.body σ (σ.setVar w i) :=
  advances_push h hC (hσ.setVar i w) rfl rfl fun _ => Machine.perform_writeVar (get_frame hv)

theorem advances_setVar (h : Succeeds (Emit.setVar i v) e u e') (hC : C.Covers e')
    (hσ : C.Fits σ) (hv : σ.Has v w) : C.Advances e.body e'.body σ (σ.setVar w i) := by
  simp only [Emit.setVar, succeeds_bind, Emit.succeeds_body, Emit.succeeds_check,
    Emit.succeeds_expectType] at h
  obtain ⟨b, _, ⟨rfl, rfl⟩, t, _, ⟨-, rfl⟩, _, _, ⟨-, rfl⟩, h⟩ := h
  exact advances_writeVar h hC hσ hv

/-- A local variable is a new one. -/
theorem advances_localVar (h : Succeeds (Emit.localVar v) e i e') (hC : C.Covers e')
    (hσ : C.Fits σ) (hv : σ.Carries e.body v w) : i.index = e.body.varTypes.size ∧
      e'.body.varTypes[i.index]? = some w.ty ∧ C.Advances e.body e'.body σ (σ.setVar w i) := by
  simp only [Emit.localVar, succeeds_bind, Emit.succeeds_valueType, succeeds_pure] at h
  obtain ⟨t, _, ⟨ht, rfl⟩, x, e₁, hx, _, e₂, h, rfl, rfl⟩ := h
  obtain rfl := Option.some.inj (hv.2.symm.trans ht)
  have hquiet := Quiet.of_silent (C := C) (Emit.silent_newVar hx) hσ
  have hgrows := ((Emit.straight_push _).straight h).toGrows
  obtain ⟨rfl, rfl⟩ := Emit.succeeds_newVar.1 hx
  exact ⟨rfl, hgrows.body.varTypes _ _ Array.getElem?_push_size,
    hquiet.toAdvances.trans (advances_writeVar h hC hσ hv.1)⟩

structure Writes (C : Context) (b b' : Body) (σ σ' : Store) (r start : Nat) (w : Word) :
    Prop extends Advances C b b' σ σ' where
  vars : σ'.vars = σ.vars
  memory : σ'.memory = σ.memory.put C.layout r start w

theorem Writes.of_quiet {b b' b'' : Body} {σ σ' σ'' : Store} {r start : Nat}
    (hq : C.Quiet b b' σ σ') (h : C.Writes b' b'' σ' σ'' r start w) :
    C.Writes b b'' σ σ'' r start w :=
  ⟨hq.toAdvances.trans h.toAdvances, h.vars.trans hq.vars, by rw [h.memory, hq.memory]⟩

/-- Room for elements of one type is room for as many bytes of another one. -/
theorem Room.retype {r n m : Nat} {t' : Ty} (h : C.Room r t n) (hm : m * t'.size ≤ n * t.size) :
    C.Room r t' m := by
  obtain ⟨size, hsize, hfit⟩ := h.extent
  exact ⟨h.data, size, hsize, hm.trans hfit⟩

theorem Room.mono {r n m : Nat} (h : C.Room r t n) (hm : m ≤ n) : C.Room r t m :=
  h.retype (Nat.mul_le_mul_right _ hm)

theorem Room.exists_region {r n : Nat} (h : C.Room r t n) (hσ : C.Fits σ) :
    ∃ region, σ.memory[r]? = some region ∧ region.writable = true ∧
      n * t.size ≤ region.bytes.size := by
  obtain ⟨size, hextent, hfit⟩ := h.extent
  rw [← hσ.extents, Memory.extents, Array.getElem?_map, Option.map_eq_some_iff] at hextent
  obtain ⟨region, hregion, hsize⟩ := hextent
  obtain ⟨rfl, hwritable⟩ := Prod.mk.inj hsize
  exact ⟨region, hregion, hwritable, hfit⟩

theorem writes_push {r start o : Nat} {off : Int64}
    (h : Succeeds (Emit.push (.store x o v)) e u e') (hC : C.Covers e') (hσ : C.Fits σ)
    (hroom : C.Room r w.ty (start + 1)) (hx : σ.Has x (.ptr ⟨r + 1, off⟩)) (hv : σ.Has v w)
    (hoff : off.toInt + (o : Int) = (start * w.ty.size : Nat)) :
    C.Writes e.body e'.body σ { σ with memory := σ.memory.put C.layout r (start * w.ty.size) w }
      r (start * w.ty.size) w := by
  obtain ⟨region, hregion, hwritable, hfit⟩ := hroom.exists_region hσ
  rw [Nat.succ_mul] at hfit
  refine ⟨advances_push h hC (hσ.put hroom.data) rfl rfl fun next => ?_, rfl, rfl⟩
  refine Machine.perform_store (get_frame hx) (get_frame hv) ?_
  rw [hσ.layout_eq]
  exact Memory.store_eq hregion hwritable hoff hfit

/-- A store of the next value of a vector. -/
theorem Writes.filled {b b' : Body} {σ σ' : Store} {r n : Nat} {values : Values} {a : Scalar}
    (h : C.Writes b b' σ σ' r (n * a.word.ty.size) a.word) (hσ : C.Fits σ)
    (hroom : C.Room r a.word.ty (n + 1)) (hfilled : σ.memory.Filled r values n)
    (ha : values.scalars[n]? = some a) : σ'.memory.Filled r values (n + 1) := by
  obtain ⟨region, hregion, -, hfit⟩ := hroom.exists_region hσ
  rw [h.memory]
  exact hfilled.put ha hregion hfit

theorem writes_store {r n : Nat} (h : Succeeds (Emit.store x n v) e u e') (hC : C.Covers e')
    (hσ : C.Fits σ) (hroom : C.Room r w.ty (n + 1)) (hx : σ.Carries e.body x (.ptr ⟨r + 1, 0⟩))
    (hv : σ.Carries e.body v w) :
    ∃ σ', C.Writes e.body e'.body σ σ' r (n * w.ty.size) w := by
  simp only [Emit.store, succeeds_bind, Emit.succeeds_expectType, Emit.succeeds_valueType,
    Emit.succeeds_elementOffset] at h
  obtain ⟨_, _, ⟨-, rfl⟩, t, _, ⟨ht, rfl⟩, _, _, ⟨-, rfl, rfl⟩, h⟩ := h
  obtain rfl := Option.some.inj (hv.2.symm.trans ht)
  exact ⟨_, writes_push h hC hσ hroom hx.1 hv.1 (by simp)⟩

theorem writes_storeDynamic {r n : Nat} {k : Int32}
    (h : Succeeds (Emit.storeDynamic x y v) e u e') (hC : C.Covers e') (hσ : C.Fits σ)
    (hroom : C.Room r w.ty (n + 1)) (hx : σ.Carries e.body x (.ptr ⟨r + 1, 0⟩))
    (hy : σ.Carries e.body y (.i32 k)) (hk : k.toInt = n) (hv : σ.Carries e.body v w) :
    ∃ σ', C.Writes e.body e'.body σ σ' r (n * w.ty.size) w := by
  obtain ⟨t, _, ht, h⟩ := succeeds_bind.1 h
  obtain ⟨htype, rfl⟩ := Emit.succeeds_valueType.1 ht
  obtain rfl := Option.some.inj (hv.2.symm.trans htype)
  obtain ⟨p, e₁, hp, h⟩ := succeeds_bind.1 h
  have hgrows := (Emit.Linear.straight (Emit.leaves_elementAddress _ _ _) hp).toGrows
  have hgrows' := ((Emit.straight_push _).straight h).toGrows
  obtain ⟨off, hoff, σ₁, hq, hcarries⟩ :=
    yields_elementAddress hp (hC.of_grows hgrows') hσ hx hy hk
  have hw := writes_push h hC hq.fits hroom hcarries.1 (hq.carries hgrows.body hv).1 (by simp [hoff])
  exact ⟨_, .of_quiet hq hw⟩

theorem quiet_location {text : String} (h : Succeeds (Emit.location text) e u e')
    (hC : C.Covers e') (hσ : C.Fits σ) : C.Quiet e.body e'.body σ σ := by
  obtain ⟨s, e₁, hs, h⟩ := succeeds_bind.1 h
  obtain ⟨rfl, rfl⟩ := Emit.succeeds_settings.1 hs
  split at h
  case isTrue =>
    obtain ⟨_, e₂, h₂, h⟩ := succeeds_bind.1 h
    obtain ⟨b, e₃, hb, h⟩ := succeeds_bind.1 h
    obtain rfl := succeeds_modify.1 h₂
    obtain ⟨rfl, rfl⟩ := Emit.succeeds_body.1 hb
    have hadv := advances_push h hC hσ rfl rfl fun _ => rfl
    exact (Quiet.of_silent (Emit.silent_describe e text) hσ).trans ⟨hadv, rfl, rfl⟩
  case isFalse =>
    obtain ⟨-, rfl⟩ := succeeds_pure.1 h
    exact .refl hσ

end Effects

end Context

end Dataflow.Code
