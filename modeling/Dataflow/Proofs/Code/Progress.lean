import Dataflow.Proofs.Code.Agreement
import Dataflow.Proofs.Code.Checked
import Dataflow.Proofs.Code.CountedLoop
import Dataflow.Proofs.Ends

/-!
# Emission goes on

An emitter in which one function is open that has been recorded in line grants every operation on
operands that are visible and of the right types. The emitter is as good for the next operation after
it, and the result is visible in its turn.
-/

namespace Dataflow.Code

namespace Emitter

/-- The function is recorded in line, as the first of the module and the only one that is exported,
and data are all literals. -/
structure Proper (e : Emitter) : Prop where
  typed : e.Typed
  tidy : e.Tidy
  sound : e.declarations.Sound
  regular : e.declarations.Regular
  lined : e.body.Lined e.body.valueTypes.size
  single : ∀ s ∈ e.declarations.functions, s.exported = true →
    e.declarations.functions[0]? = some s
  entry : ∃ s, e.declarations.functions[0]? = some s ∧ s.exported = true ∧ s.name = e.body.name
  literals : e.pools.literal = { scope := .literal, next := e.declarations.data.size }
  named : ∀ (i : Nat) (d : Datum), e.declarations.data[i]? = some d →
    d.name = Slot.name ⟨.literal, i⟩
  scratch : e.pools.scratch.Sound
  scope : e.pools.scratch.scope = .scratch

structure Proceeds (e e' : Emitter) : Prop extends Straight e e' where
  proper : e'.Proper
  pool : e'.pools.scratch = e.pools.scratch

structure Sees (e : Emitter) (v : ValueId) (t : Ty) : Prop where
  type : e.typing.Has v t
  visible : e.body.Visible e.body.current.index v

variable {e e' e'' : Emitter} {v : ValueId} {t : Ty} {x : VarId} {b : StackBuffer}

theorem Proceeds.refl (he : e.Proper) : e.Proceeds e := ⟨.refl e, he, rfl⟩

theorem Proceeds.trans (h : e.Proceeds e') (h' : e'.Proceeds e'') : e.Proceeds e'' :=
  ⟨h.toStraight.trans h'.toStraight, h'.proper, h'.pool.trans h.pool⟩

theorem Sees.lt (h : e.Sees v t) : v.index < e.body.valueTypes.size :=
  (Array.getElem?_eq_some_iff.1 h.type).1

theorem Sees.mono (h : e.Sees v t) (hs : e.Straight e') : e'.Sees v t :=
  ⟨hs.body.valueTypes _ _ h.type, hs.current ▸ h.visible.mono hs.body⟩

theorem Straight.hasVar (h : e.Straight e') (hx : e.typing.HasVar x t) : e'.typing.HasVar x t :=
  h.body.varTypes _ _ hx

/-- The places of the frame and what is not code may have changed with the body. -/
theorem Proper.of_body {b : Body} (he : e.Proper) (hs : e.Straight { e with body := b })
    (ht : Typed { e with body := b }) (hl : b.Lined b.valueTypes.size)
    (hname : b.name = e.body.name) : e.Proceeds { e with body := b } := by
  refine ⟨hs, ⟨ht, hs.tidy he.tidy, he.sound, he.regular, hl, he.single, ?_, he.literals, he.named,
    he.scratch, he.scope⟩, rfl⟩
  dsimp only
  rw [hname]
  exact he.entry

theorem Straight.size_blocks (h : e.Straight e') (he : e.Tidy) :
    e'.body.blocks.size = e.body.blocks.size := by
  obtain ⟨k, hk⟩ := he.current
  obtain ⟨k', hk', -⟩ := h.body.blocks _ k hk
  have hnone : ∀ i : Nat, e'.body.blocks[i]? = none ↔ e.body.blocks[i]? = none := by
    intro i
    by_cases hi : i = e.body.current.index
    · rw [hi, hk, hk']
      simp
    · rw [h.blocks i hi]
  simp only [Array.getElem?_eq_none_iff] at hnone
  exact Nat.le_antisymm ((hnone _).2 (Nat.le_refl _)) ((hnone _).1 (Nat.le_refl _))

theorem Straight.level (h : e.Straight e') (he : e.Tidy) (hl : e.body.Level) : e'.body.Level where
  gate := by
    rw [h.current]
    exact hl.gate.mono h.body
  last := by rw [h.size_blocks he, h.current, hl.last]

end Emitter

namespace Emit

variable {α β : Type} {e e' : Emitter} {v w x y : ValueId} {t : Ty} {u : Unit}

theorem Checks.of_succeeds {m : Emit α} {Q : α → Emitter → Prop} {a : α} (h : Checks m e Q)
    (he : e.Typed) (hm : Succeeds m e a e') : e'.Typed ∧ e.Onto e' ∧ Q a e' := by
  obtain ⟨ht, ho, hQ⟩ := h he
  unfold Succeeds at hm
  rw [hm] at ht ho hQ
  exact ⟨ht, ho, hQ a rfl⟩

section Recording

theorem ends_push {i : Instr} (he : e.Proper) (ht : i.Typed e.typing) (hd : i.defines = none)
    (huses : ∀ w ∈ i.uses, ∃ t, e.Sees w t) : Ends (push i) e fun _ e' => e.Proceeds e' := by
  have hx : Numbered e.body.valueTypes.size [i.event] e.body.valueTypes.size := by
    rw [Instr.event, hd]
    exact .use (fun w hw => (huses w hw).choose_spec.lt) (.nil _)
  obtain ⟨b, hb, hlined⟩ := he.lined.exists_push hx (fun w hw => (huses w hw).choose_spec.visible)
    fun r s hi => by rw [hi] at hd; cases hd
  have hm : Succeeds (push i) e () { e with body := b } := succeeds_push.2 ⟨b, hb, rfl⟩
  have htyped := ((checks_push ht).of_succeeds he.typed hm).1
  refine ⟨(), _, hm, he.of_body ((straight_push _).straight hm) htyped ?_ ?_⟩
  · obtain ⟨-, rfl⟩ := Body.push_eq_ok_iff.1 hb
    exact hlined
  · obtain ⟨-, rfl⟩ := Body.push_eq_ok_iff.1 hb
    rfl

/-- A value can be defined by an instruction whose operands are visible. -/
theorem ends_define (he : e.Proper) (instr : ValueId → Instr)
    (ht : ∀ v Γ, e.typing.Within Γ → Γ.Has v t → (instr v).Typed Γ)
    (hd : ∀ v, (instr v).defines = some v) (huses : ∀ v, ∀ w ∈ (instr v).uses, ∃ t, e.Sees w t)
    (hplace : ∀ v r s, instr v = .stackAddress r s → s.index < e.body.stack.size) :
    Ends (define t instr) e fun v e' => e.Proceeds e' ∧ e'.Sees v t := by
  have hnew : (e.body.newValue t).2.Lined e.body.valueTypes.size :=
    he.lined.of_eq rfl rfl rfl rfl (Nat.le_refl _)
  have hx : Numbered e.body.valueTypes.size [(instr ⟨e.body.valueTypes.size⟩).event]
      (e.body.valueTypes.size + 1) := by
    rw [Instr.event, hd]
    exact .define (fun w hw => (huses _ w hw).choose_spec.lt) (.nil _)
  obtain ⟨b, hb, hlined⟩ := hnew.exists_push hx
    (fun w hw => (huses _ w hw).choose_spec.visible.mono (e.body.within_newValue t))
    (hplace _)
  have hm : Succeeds (define t instr) e ⟨e.body.valueTypes.size⟩ { e with body := b } :=
    succeeds_define.2 ⟨rfl, b, hb, rfl⟩
  obtain ⟨htyped, -, hhas⟩ := (checks_define t ht).of_succeeds he.typed hm
  refine ⟨_, _, hm, he.of_body ((straight_define _ _).straight hm) htyped ?_ ?_, hhas, ?_⟩
  · obtain ⟨-, rfl⟩ := Body.push_eq_ok_iff.1 hb
    exact (Array.size_push _).symm ▸ hlined
  · obtain ⟨-, rfl⟩ := Body.push_eq_ok_iff.1 hb
    rfl
  · obtain ⟨k, hk, hi⟩ := Body.instr_of_push hb (.refl _)
    have hcurrent : b.current = (e.body.newValue t).2.current := Body.current_of_push hb
    refine Or.inr ⟨b.current.index, k, hcurrent ▸ hk, ?_, Or.inl rfl⟩
    exact Block.mem_defines.2 ⟨_, Array.mem_of_getElem? hi, hd _⟩

end Recording

section Values

theorem succeeds_valueType_of_sees (hv : e.Sees v t) : Succeeds (valueType v) e t e :=
  succeeds_valueType.2 ⟨hv.type, rfl⟩

theorem succeeds_expectType_of_sees (hv : e.Sees v t) : Succeeds (expectType v t) e () e :=
  succeeds_expectType.2 ⟨hv.type, rfl⟩

theorem ends_literal (he : e.Proper) (l : Literal) :
    Ends (literal l) e fun v e' => e.Proceeds e' ∧ e'.Sees v l.ty :=
  ends_define he _ (fun _ _ _ hv => hv) (fun _ => rfl) (by simp [Instr.uses]) nofun

theorem ends_load (he : e.Proper) (hx : e.Sees x .ptr) {index : Nat}
    (hi : index * t.size < 2 ^ 31) :
    Ends (load t x index) e fun v e' => e.Proceeds e' ∧ e'.Sees v t := by
  refine .after (succeeds_expectType_of_sees hx) ?_
  refine .after (succeeds_elementOffset.2 ⟨hi, rfl, rfl⟩) ?_
  refine ends_define he _ (fun v Γ hΓ hv => ⟨hx.type.mono hΓ, t, hv⟩) (fun _ => rfl) (fun _ w hw => ?_)
    nofun
  obtain rfl := List.mem_singleton.1 hw
  exact ⟨_, hx⟩

theorem ends_elementAddress (he : e.Proper) (hx : e.Sees x .ptr) {t' : Ty} (hy : e.Sees y t')
    (hint : t'.isInteger = true) :
    Ends (elementAddress t x y) e fun v e' => e.Proceeds e' ∧ e'.Sees v .ptr := by
  refine .after (succeeds_expectType_of_sees hx) ?_
  refine .after (succeeds_valueType_of_sees hy) (.refuse (by simp [hint]) ?_)
  refine ends_define he _ (fun v Γ hΓ hv => ⟨hv, hx.type.mono hΓ, t', hy.type.mono hΓ, hint⟩)
    (fun _ => rfl) (fun _ w hw => ?_) nofun
  rcases List.mem_pair.1 hw with rfl | rfl
  · exact ⟨_, hx⟩
  · exact ⟨_, hy⟩

theorem ends_loadDynamic (he : e.Proper) (hx : e.Sees x .ptr) (hy : e.Sees y .i32) :
    Ends (loadDynamic t x y) e fun v e' => e.Proceeds e' ∧ e'.Sees v t := by
  refine (ends_elementAddress he hx hy rfl).bind fun a e₁ ⟨h₁, ha⟩ => ?_
  refine (ends_define h₁.proper (.load · a 0)
    (fun v Γ hΓ hv => ⟨ha.type.mono hΓ, t, hv⟩) (fun _ => rfl) (fun _ w hw => ?_) nofun).imp
    fun v e₂ h => ⟨h₁.trans h.1, h.2⟩
  obtain rfl := List.mem_singleton.1 hw
  exact ⟨_, ha⟩

theorem ends_store (he : e.Proper) (hx : e.Sees x .ptr) (hv : e.Sees v t) {index : Nat}
    (hi : index * t.size < 2 ^ 31) : Ends (store x index v) e fun _ e' => e.Proceeds e' := by
  refine .after (succeeds_expectType_of_sees hx) ?_
  refine .after (succeeds_valueType_of_sees hv) ?_
  refine .after (succeeds_elementOffset.2 ⟨hi, rfl, rfl⟩) ?_
  refine ends_push he ⟨hx.type, t, hv.type⟩ rfl fun w hw => ?_
  rcases List.mem_pair.1 hw with rfl | rfl
  · exact ⟨_, hx⟩
  · exact ⟨_, hv⟩

theorem ends_storeDynamic (he : e.Proper) (hx : e.Sees x .ptr) (hy : e.Sees y .i32)
    (hv : e.Sees v t) : Ends (storeDynamic x y v) e fun _ e' => e.Proceeds e' := by
  refine .after (succeeds_valueType_of_sees hv) ?_
  refine (ends_elementAddress he hx hy rfl).bind fun a e₁ ⟨h₁, ha⟩ => ?_
  have hv₁ := hv.mono h₁.toStraight
  refine (ends_push h₁.proper (i := .store a 0 v) ⟨ha.type, t, hv₁.type⟩ rfl fun w hw => ?_).imp
    fun _ _ h => h₁.trans h
  rcases List.mem_pair.1 hw with rfl | rfl
  · exact ⟨_, ha⟩
  · exact ⟨_, hv₁⟩

end Values

section Operators

variable {op : BinaryOp}

theorem succeeds_operandType (hx : e.Sees x t) (hy : e.Sees y t) (hop : op.accepts t = true) :
    Succeeds (operandType op x y) e t e :=
  succeeds_operandType_iff.2 ⟨⟨hx.type, hy.type, hop⟩, rfl⟩

theorem ends_binary (he : e.Proper) (hx : e.Sees x t) (hy : e.Sees y t)
    (hop : op.accepts t = true) :
    Ends (binary op x y) e fun v e' => e.Proceeds e' ∧ e'.Sees v t := by
  refine .after (succeeds_operandType hx hy hop) ?_
  refine ends_define he _ (fun v Γ hΓ hv => ⟨t, hv, hx.type.mono hΓ, hy.type.mono hΓ, hop⟩)
    (fun _ => rfl) (fun _ w hw => ?_) nofun
  rcases List.mem_pair.1 hw with rfl | rfl
  · exact ⟨_, hx⟩
  · exact ⟨_, hy⟩

/-- A helper that is asked for is there or can be declared. -/
theorem exists_helper (he : e.Proper) {op : Operator} (hop : op.accepts t = true) : ∃ id d,
    e.declarations.helper op t = .ok (id, d) ∧ d.IsHelper op t id ∧
      e.Proceeds { e with declarations := d } := by
  obtain ⟨id, d, hd, -, hadds⟩ := he.regular.exists_helper op t
  obtain ⟨htyped, hhelper, hfunctions, hdata⟩ := helper_typed he.typed.declarations hop hd
  have hextends := (Declarations.helper_eq_ok hd).2
  have honto : e.Onto { e with declarations := d } :=
    ⟨⟨.refl _, .refl _, hfunctions, rfl, Nat.le_refl _, (congrArg Array.size hdata).ge⟩, rfl, rfl,
      rfl, asks_helper hd⟩
  refine ⟨id, d, hd, hhelper, ⟨.of_declarations hextends, rfl, fun _ _ => rfl⟩, ⟨?_, ?_, ?_,
    hadds.regular, he.lined, fun s hs hexported => ?_, ?_, ?_, ?_, he.scratch, he.scope⟩, rfl⟩
  · exact he.typed.onto honto htyped fun k hk => .inl hk
  · exact (Emitter.Grows.of_declarations hextends).tidy he.tidy
  · exact hextends.sound he.sound
  · exact hfunctions _ _ (he.single s ((hadds.exported s hexported).1 hs) hexported)
  · obtain ⟨s, hs, hentry⟩ := he.entry
    exact ⟨s, hfunctions _ _ hs, hentry⟩
  · rw [he.literals]
    exact congrArg (fun n => Pool.mk .literal n []) (congrArg Array.size hdata).symm
  · rw [hdata]
    exact he.named

theorem ends_callHelper (he : e.Proper) {op : Operator} (hop : op.accepts t = true)
    {args : List ValueId} (hlength : args.length = op.arity) (hargs : ∀ w ∈ args, e.Sees w t) :
    Ends (callHelper op t args) e fun v e' => e.Proceeds e' ∧ e'.Sees v t := by
  obtain ⟨id, d, hd, ⟨-, s, hs, hparams, hresult⟩, hproceeds⟩ := exists_helper he hop
  refine .after_get ?_
  refine .after (succeeds_check.2 ⟨hd, rfl⟩) ?_
  refine .after_modify ?_
  refine (ends_define hproceeds.proper (fun v => .call (some v) id args) (fun v Γ hΓ hv => ?_) (fun _ => rfl) (fun _ w hw => ?_)
    nofun).imp fun v e' h => ⟨hproceeds.trans h.1, h.2⟩
  · refine ⟨s, hΓ.functions _ _ hs, ?_, ?_⟩
    · rw [hparams, ← hlength, List.forall₂_iff_get]
      refine ⟨by simp, fun i hi _ => ?_⟩
      rw [List.get_eq_getElem, List.get_eq_getElem, List.getElem_replicate]
      exact ((hargs _ (List.getElem_mem hi)).mono hproceeds.toStraight).type.mono hΓ
    · rw [hresult]
      exact .some hv
  · exact ⟨t, (hargs w hw).mono hproceeds.toStraight⟩

theorem ends_operator (he : e.Proper) (hx : e.Sees x t) (hy : e.Sees y t)
    (hop : op.accepts t = true) :
    Ends (operator op x y) e fun v e' => e.Proceeds e' ∧ e'.Sees v t := by
  refine .after (succeeds_settings.2 ⟨rfl, rfl⟩) ?_
  split
  · exact ends_binary he hx hy hop
  · refine .after (succeeds_operandType hx hy hop) ?_
    exact ends_callHelper he (show Operator.accepts (.binary op) t = true from hop) rfl
      (List.forall_mem_cons.2 ⟨hx, List.forall_mem_singleton.2 hy⟩)

theorem ends_unary {op : UnaryOp} (he : e.Proper) (hx : e.Sees x t) (hop : op.accepts t = true) :
    Ends (unary op x) e fun v e' => e.Proceeds e' ∧ e'.Sees v t := by
  refine .after (succeeds_valueType_of_sees hx) (.refuse (by simp [hop]) ?_)
  refine .after (succeeds_settings.2 ⟨rfl, rfl⟩) ?_
  split
  · refine ends_define he _ (fun v Γ hΓ hv => ⟨t, hv, hx.type.mono hΓ, hop⟩) (fun _ => rfl)
      (fun _ w hw => ?_) nofun
    obtain rfl := List.mem_singleton.1 hw
    exact ⟨_, hx⟩
  · exact ends_callHelper he (show Operator.accepts (.unary op) t = true from hop) rfl
      (List.forall_mem_singleton.2 hx)

theorem ends_compare {op : CompareOp} (he : e.Proper) (hx : e.Sees x t) (hy : e.Sees y t)
    (ht : t ≠ .ptr) : Ends (compare op x y) e fun v e' => e.Proceeds e' ∧ e'.Sees v .bool := by
  refine .after (succeeds_valueType_of_sees hx) ?_
  refine .after (succeeds_expectType_of_sees hy) (.refuse ht ?_)
  refine ends_define he _ (fun v Γ hΓ hv => ⟨hv, t, hx.type.mono hΓ, hy.type.mono hΓ, ht⟩)
    (fun _ => rfl) (fun _ w hw => ?_) nofun
  rcases List.mem_pair.1 hw with rfl | rfl
  · exact ⟨_, hx⟩
  · exact ⟨_, hy⟩

theorem ends_select (he : e.Proper) (hw : e.Sees w .bool) (hx : e.Sees x t) (hy : e.Sees y t) :
    Ends (select w x y) e fun v e' => e.Proceeds e' ∧ e'.Sees v t := by
  refine .after (succeeds_expectType_of_sees hw) ?_
  refine .after (succeeds_valueType_of_sees hx) ?_
  refine .after (succeeds_expectType_of_sees hy) ?_
  refine ends_define he _ (fun v Γ hΓ hv => ⟨hw.type.mono hΓ, t, hv, hx.type.mono hΓ, hy.type.mono hΓ⟩)
    (fun _ => rfl) (fun _ z hz => ?_) nofun
  rcases List.mem_cons.1 hz with rfl | hz
  · exact ⟨_, hw⟩
  · rcases List.mem_pair.1 hz with rfl | rfl
    · exact ⟨_, hx⟩
    · exact ⟨_, hy⟩

theorem ends_cast (he : e.Proper) (hx : e.Sees x t) {target : Ty}
    (hconv : convertible t target = true) :
    Ends (cast x target) e fun v e' => e.Proceeds e' ∧ e'.Sees v target := by
  refine .after (succeeds_valueType_of_sees hx) ?_
  split
  · next ht => exact .pure ⟨.refl he, ht ▸ hx⟩
  · refine .refuse (by simp [hconv]) (ends_define he _ (fun v Γ hΓ hv => ?_) (fun _ => rfl)
      (fun _ w hw => ?_) nofun)
    · exact ⟨t, target, hx.type.mono hΓ, hv, hconv⟩
    · obtain rfl := List.mem_singleton.1 hw
      exact ⟨_, hx⟩

end Operators

section Variables

variable {i : VarId} {slot : Slot}

theorem ends_getVar (he : e.Proper) (hi : e.typing.HasVar i t) :
    Ends (getVar i) e fun v e' => e.Proceeds e' ∧ e'.Sees v t := by
  refine .after (succeeds_body.2 ⟨rfl, rfl⟩) ?_
  refine .after (succeeds_check.2 ⟨Body.varType_eq_ok_iff.2 hi, rfl⟩) ?_
  exact ends_define he _ (fun v Γ hΓ hv => ⟨t, hi.mono hΓ, hv⟩) (fun _ => rfl) (by simp [Instr.uses])
    nofun

theorem ends_writeVar (he : e.Proper) (hi : e.typing.HasVar i t) (hv : e.Sees v t) :
    Ends (push (.writeVar i v)) e fun _ e' => e.Proceeds e' := by
  refine ends_push he ⟨t, hi, hv.type⟩ rfl fun w hw => ?_
  obtain rfl := List.mem_singleton.1 hw
  exact ⟨_, hv⟩

theorem ends_setVar (he : e.Proper) (hi : e.typing.HasVar i t) (hv : e.Sees v t) :
    Ends (setVar i v) e fun _ e' => e.Proceeds e' := by
  refine .after (succeeds_body.2 ⟨rfl, rfl⟩) ?_
  refine .after (succeeds_check.2 ⟨Body.varType_eq_ok_iff.2 hi, rfl⟩) ?_
  exact Ends.after (succeeds_expectType_of_sees hv) (ends_writeVar he hi hv)

theorem ends_newVar (he : e.Proper) (t : Ty) :
    Ends (newVar t) e fun i e' => e.Proceeds e' ∧ e'.typing.HasVar i t := by
  have hm : Succeeds (newVar t) e ⟨e.body.varTypes.size⟩ { e with body := (e.body.newVar t).2 } :=
    succeeds_newVar.2 ⟨rfl, rfl⟩
  obtain ⟨htyped, -, hhas⟩ := (checks_newVar t).of_succeeds he.typed hm
  exact ⟨_, _, hm, he.of_body (silent_newVar hm).straight htyped
    (he.lined.of_eq rfl rfl rfl rfl (Nat.le_refl _)) rfl, hhas⟩

theorem ends_localVar (he : e.Proper) (hv : e.Sees v t) :
    Ends (localVar v) e fun i e' => e.Proceeds e' ∧ e'.typing.HasVar i t := by
  refine .after (succeeds_valueType_of_sees hv) ?_
  refine (ends_newVar he t).bind fun i e₁ ⟨h₁, hi⟩ => ?_
  refine (ends_writeVar h₁.proper hi (hv.mono h₁.toStraight)).bind fun _ e₂ h₂ => ?_
  exact .pure ⟨h₁.trans h₂, h₂.toStraight.hasVar hi⟩

/-- Slots of a scope of its own do not matter to the code. -/
theorem proper_of_scratch (he : e.Proper) {p : Pool} (hp : p.Sound) (hscope : p.scope = .scratch) :
    Emitter.Proper { e with pools := { e.pools with scratch := p } } :=
  ⟨⟨he.typed.body, he.typed.declarations⟩,
    ⟨he.tidy.pool, he.tidy.scope, he.tidy.place, he.tidy.injective, he.tidy.scratch,
      he.tidy.current⟩, he.sound, he.regular, he.lined, he.single, he.entry, he.literals, he.named, hp,
      hscope⟩

/-- A scratch slot gets a variable, without any code. -/
theorem ends_scratchVar (he : e.Proper) :
    Ends (scratchVar slot t) e fun i e' => e.Proceeds e' ∧ e'.typing.HasVar i t := by
  have hnew : Ends (do
      let i ← newVar t
      modify fun e => { e with
        body := { e.body with scratchVars := e.body.scratchVars.insert slot.index i } }
      return i) e fun _ e' => ∃ vars table,
        e' = { e with body := { e.body with varTypes := vars, scratchVars := table } } :=
    .after (succeeds_newVar.2 ⟨rfl, rfl⟩) (.after_modify (.pure ⟨_, _, rfl⟩))
  have hvar : Ends (scratchVar slot t) e fun _ e' => ∃ vars table,
      e' = { e with body := { e.body with varTypes := vars, scratchVars := table } } := by
    refine .after (succeeds_body.2 ⟨rfl, rfl⟩) ?_
    cases hfind : e.body.scratchVars.find? slot.index with
    | none => exact hnew
    | some i =>
        have hi := Array.getElem?_eq_getElem (he.tidy.scratch _ _ hfind)
        refine .after (succeeds_check.2 ⟨Body.varType_eq_ok_iff.2 hi, rfl⟩) ?_
        split
        · exact .pure ⟨_, _, rfl⟩
        · exact hnew
  refine hvar.of_succeeds fun i e' hm he' => ?_
  obtain ⟨vars, table, rfl⟩ := he'
  obtain ⟨htyped, -, hhas⟩ := (checks_scratchVar slot t).of_succeeds he.typed hm
  exact ⟨he.of_body (succeeds_scratchVar hm).1.straight htyped
    (he.lined.of_eq rfl rfl rfl rfl (Nat.le_refl _)) rfl, hhas⟩

/-- A scratch slot is taken, and its variable holds the value. -/
theorem ends_scratch (he : e.Proper) (hv : e.Sees v t) :
    Ends (scratch v) e fun r e' => e'.Proper ∧ e.Straight e' ∧ e'.typing.HasVar r.2 t ∧
      e'.pools.scratch.isAllocated r.1 = true := by
  have hm : Succeeds (allocate .scratch) e (e.pools.allocate .scratch).1
      { e with pools := (e.pools.allocate .scratch).2 } := succeeds_allocate.2 ⟨rfl, rfl⟩
  have hstraight := (silent_allocate e .scratch).straight
  have he₁ := proper_of_scratch he he.scratch.allocate ((Pool.scope_allocate _).trans he.scope)
  refine .after (succeeds_valueType_of_sees hv) (.after hm ?_)
  refine (ends_scratchVar he₁).bind fun i e₂ ⟨h₂, hi⟩ => ?_
  refine (ends_writeVar h₂.proper hi ((hv.mono hstraight).mono h₂.toStraight)).bind fun _ e₃ h₃ => ?_
  refine .pure ⟨h₃.proper, hstraight.trans (h₂.trans h₃).toStraight, h₃.toStraight.hasVar hi, ?_⟩
  rw [h₃.pool, h₂.pool]
  exact Pool.isAllocated_allocate he.scratch

/-- A scratch slot that is in use can be given back. -/
theorem ends_freeScratch (he : e.Proper) (hslot : e.pools.scratch.isAllocated slot = true) :
    Ends (freeScratch slot) e fun _ e' => e'.Proper ∧ e.Silent e' := by
  obtain ⟨p, hrelease, hm⟩ := exists_freeScratch he.scope hslot
  have hscope := congrArg Pool.scope (Pool.succeeds_release.1 hrelease).2
  exact ⟨(), _, hm, proper_of_scratch he (he.scratch.release hrelease) (hscope.trans he.scope),
    silent_freeScratch hm⟩

end Variables

section Storage

variable {b : StackBuffer} {id : DatumId}

/-- A buffer of less than `2 ^ 32` bytes is handed out. -/
theorem ends_stackBuffer (he : e.Proper) {n : Nat} (hn : n * t.size < 2 ^ 32) :
    Ends (stackBuffer t n) e fun b e' => e.Proceeds e' ∧ b.ty = t ∧ e'.Held b := by
  have hplace : ∀ slot, Ends (bufferPlace slot (n * t.size))
      { e with pools := (e.pools.allocate .buffer).2 } fun _ _ => True := by
    intro slot
    refine .after (succeeds_body.2 ⟨rfl, rfl⟩) ?_
    cases hfind : e.body.bufferPlaces.find? slot.index with
    | none => exact .after (b := ()) (succeeds_setBody.2 rfl) (.pure trivial)
    | some place =>
        dsimp only
        split
        · exact .pure trivial
        · exact .after (b := ()) (succeeds_setBody.2 rfl) (.pure trivial)
  have hm : Ends (stackBuffer t n) e fun _ _ => True :=
    .refuse (Nat.not_le.2 hn) (.after (succeeds_allocate.2 ⟨rfl, rfl⟩)
      ((hplace _).bind fun _ _ _ => .pure trivial))
  refine hm.of_succeeds fun b e' hm _ => ?_
  obtain ⟨hsilent, hty, -, hheld, -⟩ := succeeds_stackBuffer hm
  refine ⟨?_, hty, hheld he.tidy⟩
  have htyped := ((checks_stackBuffer t n).of_succeeds he.typed hm).1
  obtain ⟨-, hm⟩ := succeeds_refuse.1 hm
  obtain ⟨slot, e₁, hslot, hm⟩ := succeeds_bind.1 hm
  obtain ⟨p, e₂, hp, hm⟩ := succeeds_bind.1 hm
  obtain ⟨-, rfl⟩ := succeeds_pure.1 hm
  obtain ⟨-, rfl⟩ := succeeds_allocate.1 hslot
  have hlined : e₂.body.Lined e₂.body.valueTypes.size ∧ e₂.body.name = e.body.name ∧
      e₂.declarations = e.declarations ∧ e₂.pools = (e.pools.allocate .buffer).2 := by
    rcases succeeds_bufferPlace hp with ⟨rfl, -, -⟩ | ⟨-, rfl⟩
    · exact ⟨he.lined, rfl, rfl, rfl⟩
    · refine ⟨he.lined.of_eq rfl rfl rfl rfl ?_, rfl, rfl, rfl⟩
      exact (Nat.le_succ _).trans_eq (Array.size_push _).symm
  obtain ⟨hlined, hname, hdeclarations, hpools⟩ := hlined
  refine ⟨hsilent.straight, ⟨htyped, hsilent.tidy he.tidy, ?_, ?_, hlined, ?_, ?_, ?_, ?_, ?_, ?_⟩, ?_⟩
  all_goals (try rw [hdeclarations]); (try rw [hpools])
  · exact he.sound
  · exact he.regular
  · exact he.single
  · rw [hname]
    exact he.entry
  · exact he.literals
  · exact he.named
  · exact he.scratch
  · exact he.scope
  · rfl

theorem ends_bufferAddress (he : e.Proper) (hb : e.Held b) :
    Ends (bufferAddress b) e fun v e' => e.Proceeds e' ∧ e'.Sees v .ptr := by
  refine ends_define he _ (fun _ _ _ hv => hv) (fun _ => rfl) (by simp [Instr.uses]) fun v r s hs => ?_
  obtain ⟨-, rfl⟩ := Instr.stackAddress.inj hs
  obtain ⟨n, hn, -⟩ := hb.room
  exact (Array.getElem?_eq_some_iff.1 hn).1

/-- Literals are named by their positions. -/
theorem ends_literalData (he : e.Proper) (values : Values) :
    Ends (literalData values) e fun id e' =>
      e.Proceeds e' ∧ id.index < e'.declarations.data.size := by
  have hslot : e.pools.allocate .literal = (⟨.literal, e.declarations.data.size⟩,
      { e.pools with literal := { scope := .literal, next := e.declarations.data.size + 1 } }) := by
    rw [Pools.allocate]
    simp only [Pools.get, he.literals]
    rfl
  have hm : Succeeds (literalData values) e ⟨e.declarations.data.size⟩ { e with
      pools := { e.pools with literal := { scope := .literal, next := e.declarations.data.size + 1 } }
      declarations := { e.declarations with
        data := (e.declarations.data.push
          ⟨Slot.name ⟨.literal, e.declarations.data.size⟩, values.bytes, false⟩) } } := by
    refine succeeds_bind.2 ⟨_, _, succeeds_allocate.2 ⟨rfl, rfl⟩, ?_⟩
    rw [hslot]
    exact succeeds_bind.2 ⟨_, _, succeeds_get.2 ⟨rfl, rfl⟩,
      succeeds_bind.2 ⟨⟨⟩, _, succeeds_set.2 rfl, succeeds_pure.2 ⟨rfl, rfl⟩⟩⟩
  obtain ⟨htyped, -⟩ := (checks_literalData values).of_succeeds he.typed hm
  obtain ⟨hsilent, -⟩ := succeeds_literalData hm
  refine ⟨_, _, hm, ⟨hsilent.straight, ⟨htyped, hsilent.tidy he.tidy,
    hsilent.declarations.sound he.sound, ⟨he.regular.distinct, he.regular.exported,
    he.regular.hidden, he.regular.helpers, he.regular.asked⟩, he.lined, he.single, he.entry, ?_,
    fun i d hd => ?_, he.scratch, he.scope⟩, rfl⟩, ?_⟩
  · exact congrArg (fun n => Pool.mk .literal n []) (Array.size_push _).symm
  · rcases getElem?_of_push hd with hd | ⟨rfl, rfl⟩
    · exact he.named i d hd
    · rfl
  · exact (Nat.lt_succ_self _).trans_eq (Array.size_push _).symm

theorem ends_dataAddress (he : e.Proper) (hid : id.index < e.declarations.data.size) :
    Ends (dataAddress id) e fun v e' => e.Proceeds e' ∧ e'.Sees v .ptr := by
  refine .after_get ?_
  have hdatum : e.declarations.datum id = .ok e.declarations.data[id.index] := by
    rw [Declarations.datum, Array.getElem?_eq_getElem hid]
  refine .after (succeeds_check.2 ⟨hdatum, rfl⟩) ?_
  exact ends_define he _ (fun v Γ hΓ hv => ⟨hv, hid.trans_le hΓ.data⟩) (fun _ => rfl)
    (by simp [Instr.uses]) fun _ _ _ h => by cases h

theorem ends_location (he : e.Proper) (text : String) :
    Ends (location text) e fun _ e' => e.Proceeds e' := by
  refine .after (succeeds_settings.2 ⟨rfl, rfl⟩) ?_
  split
  · have he₁ : e.Proceeds
        { e with body := { e.body with locations := e.body.locations.push text } } :=
      he.of_body (silent_describe e text).straight
        ⟨⟨he.typed.body.blocks, he.typed.body.args, he.typed.body.declared⟩, he.typed.declarations⟩
        (he.lined.of_eq rfl rfl rfl rfl (Nat.le_refl _)) rfl
    refine .after_modify (.after (succeeds_body.2 ⟨rfl, rfl⟩) ?_)
    exact (ends_push (i := .location _) he₁.proper trivial rfl (by simp [Instr.uses])).imp
      fun _ _ h => he₁.trans h
  · exact .pure (.refl he)

end Storage

end Emit

end Dataflow.Code
