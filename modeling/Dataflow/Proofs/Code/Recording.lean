import Dataflow.Proofs.Code.Helper
import Dataflow.Proofs.Code.Typing

/-!
# Recorded modules

Over all the calls that record a module its functions stay typed, those that are finished and the
one that is open, and so do the helpers that are made for them. None of them meets an instruction,
when it is lowered, that its operands do not fit.
-/

namespace Dataflow.Code

section Lowering

theorem BinaryOp.lowers_eq (op : BinaryOp) (t : Ty) : op.lowers t = op.accepts t := by
  cases op <;> cases t <;> rfl

theorem UnaryOp.lowers_eq (op : UnaryOp) (t : Ty) : op.lowers t = op.accepts t := by
  cases op <;> cases t <;> rfl

theorem castable_eq (source target : Ty) :
    castable source target = Emit.convertible source target := by
  cases source <;> cases target <;> rfl

def IsMismatch (f : Fault) : Prop := ∃ expected found, f = .mismatch expected found

variable {b : Body} {d : Declarations} {f : Fault}

theorem not_isMismatch_of_requireDefined {defined : Defined} {vs : List ValueId}
    (h : requireDefined defined vs = .error f) : ¬ IsMismatch f := by
  rintro ⟨_, _, rfl⟩
  induction vs with
  | nil => cases h
  | cons v vs ih =>
      rw [requireDefined] at h
      split at h
      · exact ih h
      · cases h

theorem not_isMismatch_of_requireIndex {length index : Nat}
    (h : requireIndex length index = .error f) : ¬ IsMismatch f := by
  rintro ⟨_, _, rfl⟩
  unfold requireIndex at h
  split at h <;> cases h

/-- There is an instruction for whatever is typed. -/
theorem not_isMismatch_of_checkTypes {i : Instr} (hi : i.Typed (b.typing d))
    (h : b.checkTypes i = .error f) : ¬ IsMismatch f := by
  have htype : ∀ {v t}, (b.typing d).Has v t → b.valueType v = .ok t :=
    fun hv => Body.valueType_eq_ok_iff.2 hv
  cases i with
  | binary result op lhs rhs =>
      obtain ⟨t, -, hl, -, hop⟩ := hi
      simp [Body.checkTypes, htype hl, BinaryOp.lowers_eq, hop, bind, Except.bind, pure, Except.pure] at h
  | unary result op operand =>
      obtain ⟨t, -, hx, hop⟩ := hi
      simp [Body.checkTypes, htype hx, UnaryOp.lowers_eq, hop, bind, Except.bind, pure, Except.pure] at h
  | cast result value =>
      obtain ⟨source, target, hv, hr, hconv⟩ := hi
      simp [Body.checkTypes, htype hv, htype hr, castable_eq, hconv, bind, Except.bind, pure, Except.pure] at h
  | stackAddress result slot => exact not_isMismatch_of_requireIndex h
  | readVar result var => exact not_isMismatch_of_requireIndex h
  | writeVar var value => exact not_isMismatch_of_requireIndex h
  | _ => cases h

/-- What the check of a body fails at: a block that is not there, operands, the types of an instruction
or a block that is open. -/
theorem Body.of_checkOrder_eq_error (h : b.checkOrder = .error f) :
    (∃ id, b.block id = .error f) ∨ (∃ defined vs, requireDefined defined vs = .error f) ∨
    (∃ k ∈ b.blocks, ∃ i ∈ k.instrs, b.checkTypes i = .error f) ∨
    ∃ k ∈ b.blocks, k.terminator = none ∧ f = .sequencing (.missingTerminator k.label b.name) := by
  rcases bind_eq_error_iff.1 h with h | ⟨_, -, h⟩
  swap
  · cases h
  obtain ⟨id, -, defined, h⟩ := exists_of_foldlM_eq_error h
  rcases bind_eq_error_iff.1 h with h | ⟨k, hk, h⟩
  · exact .inl ⟨id, h⟩
  have hk := Array.mem_of_getElem? (Body.block_eq_ok_iff.1 hk)
  rcases bind_eq_error_iff.1 h with h | ⟨defined', -, h⟩
  · rw [← Array.foldlM_toList] at h
    obtain ⟨i, hi, defined', h⟩ := exists_of_foldlM_eq_error h
    rcases bind_eq_error_iff.1 h with h | ⟨_, -, h⟩
    · exact .inr (.inl ⟨_, _, h⟩)
    · rcases bind_eq_error_iff.1 h with h | ⟨_, -, h⟩
      · exact .inr (.inr (.inl ⟨k, hk, i, Array.mem_toList_iff.1 hi, h⟩))
      · cases h
  · cases hterm : k.terminator with
    | some t =>
        rw [hterm] at h
        rcases bind_eq_error_iff.1 h with h | ⟨_, -, h⟩
        · exact .inr (.inl ⟨_, _, h⟩)
        · cases h
    | none =>
        rw [hterm] at h
        exact .inr (.inr (.inr ⟨k, hk, hterm, (Except.error.inj h).symm⟩))

theorem not_isMismatch_of_checkOrder (hb : b.Typed d) (h : b.checkOrder = .error f) :
    ¬ IsMismatch f := by
  rcases Body.of_checkOrder_eq_error h with ⟨id, h⟩ | ⟨_, _, h⟩ | ⟨k, hk, i, hi, h⟩ | ⟨k, -, -, rfl⟩
  · rintro ⟨_, _, rfl⟩
    unfold Body.block at h
    split at h <;> cases h
  · exact not_isMismatch_of_requireDefined h
  · exact not_isMismatch_of_checkTypes ((hb.blocks k hk).instrs i hi) h
  · rintro ⟨_, _, hf⟩
    cases hf

end Lowering

section Bodies

variable {b : Body} {d d' : Declarations}

theorem Body.Typed.mono (h : b.Typed d) (hfunctions : Prefix d.functions d'.functions)
    (hdata : d.data.size ≤ d'.data.size) : b.Typed d' := by
  have hΓ : (b.typing d).Within (b.typing d') :=
    ⟨.refl _, .refl _, hfunctions, rfl, Nat.le_refl _, hdata⟩
  obtain ⟨s, hs, hsig⟩ := h.declared
  exact ⟨fun k hk => (h.blocks k hk).mono hΓ, h.args.imp fun _ _ ha => ha.mono hΓ, s,
    hfunctions _ _ hs, hsig⟩

/-- Arguments are the first values, each of the type of its parameter. -/
theorem newArgs_typed (b : Body) (ps : List Param) {ts : List Ty}
    (h : List.Forall₂ (fun v t => b.valueTypes[v.index]? = some t) b.args ts) :
    List.Forall₂ (fun v t => (b.newArgs ps).valueTypes[v.index]? = some t) (b.newArgs ps).args
        (ts ++ ps.map (·.ty)) ∧
      (b.newArgs ps).blocks = b.blocks ∧ (b.newArgs ps).id = b.id ∧
      (b.newArgs ps).params = b.params ∧ (b.newArgs ps).result = b.result := by
  induction ps generalizing b ts with
  | nil => exact ⟨by simpa [Body.newArgs] using h, rfl, rfl, rfl, rfl⟩
  | cons p ps ih =>
      have hargs : List.Forall₂ (fun v t => (b.valueTypes.push p.ty)[v.index]? = some t)
          (b.args ++ [⟨b.valueTypes.size⟩]) (ts ++ [p.ty]) :=
        List.rel_append (h.imp fun _ _ hv => Prefix.push _ _ _ _ hv)
          (.cons Array.getElem?_push_size .nil)
      have := ih { (b.newValue p.ty).2 with args := b.args ++ [(b.newValue p.ty).1] } hargs
      rw [List.append_assoc] at this
      exact this

theorem new_typed {id : FunctionId} {name : String} {params : List Param} {result : Option Ty}
    {s : Signature} (hs : d.functions[id.index]? = some s)
    (hparams : s.params = params.map (·.ty)) (hresult : s.result = result) :
    (Body.new id name params result).Typed d := by
  obtain ⟨b, hnew, hblocks, hid, hps, hr, hargs⟩ : ∃ b : Body,
      Body.new id name params result = b.newArgs params ∧ b.blocks = #[{ label := "entry" }] ∧
        b.id = id ∧ b.params = params ∧ b.result = result ∧ b.args = [] :=
    ⟨_, rfl, rfl, rfl, rfl, rfl, rfl⟩
  rw [hnew]
  have hnone : List.Forall₂ (fun v t => b.valueTypes[v.index]? = some t) b.args [] := hargs ▸ .nil
  obtain ⟨hargs', hblocks', hid', hps', hr'⟩ := newArgs_typed b params hnone
  refine ⟨fun k hk => ?_, ?_, s, ?_, ?_, ?_⟩
  · rw [hblocks', hblocks] at hk
    obtain rfl := List.mem_singleton.1 (Array.mem_toList_iff.2 hk)
    exact ⟨by simp, by simp⟩
  · rw [hps', hps]
    exact hargs'
  · rw [hid', hid]
    exact hs
  · rw [hps', hps, hparams]
  · rw [hr', hr, hresult]

/-- The body of a helper is typed where its operator takes the type. -/
theorem helper_body_typed {r : HelperRequest} (h : d.IsHelper r.op r.ty r.function) :
    ∃ s b, d.function r.function = .ok s ∧ r.body s = .ok b ∧ b.Typed d := by
  obtain ⟨hop, s, hs, hparams, hresult⟩ := h
  obtain ⟨b, hb, hid, -, hbody⟩ := r.exists_body hparams
  refine ⟨s, b, Declarations.function_eq_ok_iff.2 hs, hb, fun k hk => ?_, ?_, s, hid ▸ hs,
    hparams.trans hbody.params.symm, hresult.trans hbody.result.symm⟩
  · rw [hbody.blocks] at hk
    obtain rfl := List.mem_singleton.1 (Array.mem_toList_iff.2 hk)
    have htype : ∀ i < r.op.arity + 1, (b.typing d).Has ⟨i⟩ r.ty := by
      intro i hi
      change b.valueTypes[i]? = _
      rw [hbody.types]
      simp [hi]
    refine ⟨fun i hi => ?_, fun t ht => ?_⟩
    · obtain rfl := List.mem_singleton.1 (Array.mem_toList_iff.2 hi)
      cases hr : r.op with
      | binary op =>
          rw [hr] at hop htype
          exact ⟨r.ty, htype 2 (Nat.lt_succ_self _), htype 0 (Nat.succ_pos _),
            htype 1 (Nat.succ_lt_succ (Nat.succ_pos _)), hop⟩
      | unary op =>
          rw [hr] at hop htype
          exact ⟨r.ty, htype 1 (Nat.lt_succ_self _), htype 0 (Nat.succ_pos _), hop⟩
    · obtain rfl := Option.some.inj ht
      change Option.Rel _ _ b.result
      rw [hbody.result]
      exact .some (htype _ (Nat.lt_succ_self _))
  · rw [hbody.args, hbody.params, List.forall₂_iff_get]
    refine ⟨by simp, fun i hi _ => ?_⟩
    rw [List.length_map, List.length_range] at hi
    change b.valueTypes[_]? = _
    rw [hbody.types]
    simp [Nat.lt_succ_of_lt hi]

end Bodies

structure Assembler.Typed (a : Assembler) : Prop where
  opened : ∀ b, a.current? = some b → b.Typed a.declarations
  defined : ∀ b ∈ a.defined, b.Typed a.declarations
  declarations : a.declarations.Typed

namespace Assembler

structure Keeps (a a' : Assembler) : Prop where
  functions : a'.declarations.functions = a.declarations.functions
  helpers : a'.declarations.helpers = a.declarations.helpers
  data : a'.declarations.data = a.declarations.data
  pending : a'.declarations.pending ⊆ a.declarations.pending
  stage : a'.stage = a.stage
  body : a'.body = a.body
  pools : a'.pools = a.pools
  settings : a'.settings = a.settings

variable {a a' a'' : Assembler}

theorem Keeps.refl (a : Assembler) : a.Keeps a := ⟨rfl, rfl, rfl, List.Subset.refl _, rfl, rfl, rfl, rfl⟩

theorem Keeps.trans (h : a.Keeps a') (h' : a'.Keeps a'') : a.Keeps a'' :=
  ⟨h'.functions.trans h.functions, h'.helpers.trans h.helpers, h'.data.trans h.data,
    List.Subset.trans h'.pending h.pending, h'.stage.trans h.stage, h'.body.trans h.body,
    h'.pools.trans h.pools, h'.settings.trans h.settings⟩

theorem Keeps.typed {b : Body} (h : a.Keeps a') (hb : b.Typed a.declarations) :
    b.Typed a'.declarations :=
  hb.mono (h.functions ▸ .refl _) (h.data ▸ Nat.le_refl _)

variable {α β : Type}

/-- Run on the module `a`, the operation keeps it typed, whether it succeeds or fails, and it does
not fail for types that do not fit. -/
def Closes (m : Assemble α) (a : Assembler) (Q : α → Assembler → Prop) : Prop :=
  a.Typed → (m.run.run a).2.Typed ∧ a.Keeps (m.run.run a).2 ∧
    (∀ x, (m.run.run a).1 = .ok x → Q x (m.run.run a).2) ∧
    ∀ f, (m.run.run a).1 = .error f → ¬ IsMismatch f

namespace Closes

variable {Q : α → Assembler → Prop}

theorem pure {x : α} (h : Q x a) : Closes (Pure.pure x) a Q := by
  refine fun ha => ⟨ha, .refl a, fun x' hx => ?_, fun f hf => by cases hf⟩
  obtain rfl : x = x' := Except.ok.inj hx
  exact h

theorem throw {f : Fault} (h : ¬ IsMismatch f) : Closes (MonadExcept.throw f) a Q := by
  refine fun ha => ⟨ha, .refl a, fun x hx => (by cases hx), fun f' hf => ?_⟩
  obtain rfl : f = f' := Except.error.inj hf
  exact h

theorem bind {m : Assemble β} {k : β → Assemble α} {R : β → Assembler → Prop} (hm : Closes m a R)
    (hk : ∀ x a', a.Keeps a' → R x a' → Closes (k x) a' Q) : Closes (m >>= k) a Q := by
  intro ha
  obtain ⟨ht, hs, hr, hf⟩ := hm ha
  rw [run_bind]
  rcases hrun : m.run.run a with ⟨r, a'⟩
  rw [hrun] at ht hs hr hf
  cases r with
  | error f =>
      refine ⟨ht, hs, fun x hx => (by cases hx), fun f' hf' => ?_⟩
      obtain rfl : f = f' := Except.error.inj hf'
      exact hf f rfl
  | ok x =>
      obtain ⟨ht', hs', hq⟩ := hk x a' hs (hr x rfl) ht
      exact ⟨ht', hs.trans hs', hq⟩

theorem imp {m : Assemble α} {R : α → Assembler → Prop} (hm : Closes m a R)
    (h : ∀ x a', R x a' → Q x a') : Closes m a Q := by
  intro ha
  obtain ⟨ht, hs, hr, hf⟩ := hm ha
  exact ⟨ht, hs, fun x hx => h _ _ (hr x hx), hf⟩

theorem weaken {m : Assemble α} (hm : Closes m a Q) : Closes m a fun _ _ => True :=
  hm.imp fun _ _ _ => trivial

theorem assume {m : Assemble α} (h : a.Typed → Closes m a Q) : Closes m a Q := fun ha => h ha ha

/-- What is done for each element keeps the names, so it is enough to look at one of them. -/
theorem forM {f : β → Assemble PUnit} {xs : List β}
    (h : ∀ x ∈ xs, ∀ a', a.Keeps a' → Closes (f x) a' fun _ _ => True) :
    Closes (xs.forM f) a fun _ _ => True := by
  induction xs generalizing a with
  | nil => exact pure trivial
  | cons x xs ih =>
      refine (h x (by simp) a (.refl a)).bind fun _ a' hs _ => ih fun y hy a'' hs' => ?_
      exact h y (List.mem_cons_of_mem x hy) a'' (hs.trans hs')

theorem forIn {f : β → PUnit → Assemble (ForInStep PUnit)} {xs : List β}
    (h : ∀ x ∈ xs, ∀ a', a.Keeps a' →
      Closes (f x PUnit.unit) a' fun r _ => r = .yield PUnit.unit) :
    Closes (ForIn.forIn xs PUnit.unit f) a fun _ _ => True := by
  induction xs generalizing a with
  | nil => exact pure trivial
  | cons x xs ih =>
      rw [List.forIn_cons]
      refine (h x (by simp) a (.refl a)).bind fun r a' hs hr => ?_
      subst hr
      exact ih fun y hy a'' hs' => h y (List.mem_cons_of_mem x hy) a'' (hs.trans hs')

theorem get : Closes MonadState.get a fun x a' => x = a ∧ a' = a := by
  refine fun ha => ⟨ha, .refl a, fun x hx => ?_, fun f hf => by cases hf⟩
  obtain rfl : a = x := Except.ok.inj hx
  exact ⟨rfl, rfl⟩

theorem check {r : Except Fault α} (h : ∀ f, r = .error f → ¬ IsMismatch f) :
    Closes (Assembler.check r) a fun x a' => r = .ok x ∧ a' = a := by
  cases r with
  | ok x => exact pure ⟨rfl, rfl⟩
  | error f => exact throw (h f rfl)

theorem modify {f : Assembler → Assembler} (hs : a.Keeps (f a)) (ht : a.Typed → (f a).Typed) :
    Closes (modify f : Assemble PUnit) a fun _ a' => a' = f a :=
  fun ha => ⟨ht ha, hs, fun _ _ => rfl, fun _ hf => by cases hf⟩

end Closes

section Operations

theorem closes_defineDatum (id : DatumId) (d : Datum) :
    Closes (defineDatum id d) a fun _ _ => True := by
  refine Closes.get.bind fun x a' _ h => ?_
  obtain ⟨rfl, rfl⟩ := h
  split
  · exact Closes.pure trivial
  · split
    · exact Closes.throw (by rintro ⟨_, _, ⟨⟩⟩)
    · exact Closes.throw (by rintro ⟨_, _, ⟨⟩⟩)
    · exact Closes.weaken (Closes.modify ⟨rfl, rfl, rfl, List.Subset.refl _, rfl, rfl, rfl, rfl⟩
        fun h => ⟨h.opened, h.defined, h.declarations⟩)

theorem closes_defineData : Closes defineData a fun _ _ => True := by
  refine Closes.get.bind fun x a' _ h => ?_
  obtain ⟨rfl, rfl⟩ := h
  exact (Closes.forIn fun x _ _ _ => (closes_defineDatum ⟨x.2⟩ x.1).bind
    fun _ _ _ _ => Closes.pure rfl).bind fun _ _ _ _ => Closes.pure trivial

theorem not_isMismatch_of_function {d : Declarations} {id : FunctionId} {f : Fault}
    (h : d.function id = .error f) : ¬ IsMismatch f := by
  rintro ⟨_, _, rfl⟩
  unfold Declarations.function at h
  split at h <;> cases h

theorem closes_declareFunction (id : FunctionId) :
    Closes (declareFunction id) a fun _ _ => True := by
  refine Closes.get.bind fun x a' _ h => ?_
  obtain ⟨rfl, rfl⟩ := h
  split
  · exact Closes.pure trivial
  · refine (Closes.check fun _ => not_isMismatch_of_function).bind fun s a' _ h => ?_
    obtain ⟨-, rfl⟩ := h
    split
    · exact (Closes.throw (Q := fun _ _ => False) (by rintro ⟨_, _, ⟨⟩⟩)).bind
        fun _ _ _ h => h.elim
    · exact Closes.weaken (Closes.modify ⟨rfl, rfl, rfl, List.Subset.refl _, rfl, rfl, rfl, rfl⟩
        fun h => ⟨h.opened, h.defined, h.declarations⟩)

/-- A body that is typed is checked without a mismatch and stays typed among those defined. -/
theorem closes_define {b : Body} (hb : b.Typed a.declarations) :
    Closes (define b) a fun _ _ => True := by
  refine closes_defineData.bind fun _ a₁ h₁ _ => ?_
  refine (closes_declareFunction b.id).bind fun _ a₂ h₂ _ => ?_
  refine (Closes.forM fun id _ _ _ => closes_declareFunction id).bind fun _ a₃ h₃ _ => ?_
  have hb := ((h₁.trans h₂).trans h₃).typed hb
  refine (Closes.check fun _ => not_isMismatch_of_checkOrder hb).bind fun _ a' _ h => ?_
  obtain ⟨-, rfl⟩ := h
  split
  · exact (Closes.throw (Q := fun _ _ => False) (by rintro ⟨_, _, ⟨⟩⟩)).bind
      fun _ _ _ h => h.elim
  · refine Closes.weaken (Closes.modify ⟨rfl, rfl, rfl, List.Subset.refl _, rfl, rfl, rfl, rfl⟩
      fun h => ⟨h.opened, fun b' hb' => ?_, h.declarations⟩)
    rcases List.mem_append.1 hb' with hb' | hb'
    · exact h.defined b' hb'
    · obtain rfl := List.mem_singleton.1 hb'
      exact hb

theorem closes_defineHelpers : Closes defineHelpers a fun _ _ => True := by
  refine Closes.get.bind fun x a' _ h => ?_
  obtain ⟨rfl, rfl⟩ := h
  refine Closes.assume fun ha => (Closes.modify ⟨rfl, rfl, rfl, List.nil_subset _, rfl, rfl, rfl, rfl⟩
    fun h => ⟨fun b hb => ?_, fun b hb => ?_, ⟨h.declarations.helpers, by simp⟩⟩).bind
    fun _ a₁ _ h => ?_
  · exact (h.opened b hb).mono (.refl _) (Nat.le_refl _)
  · exact (h.defined b hb).mono (.refl _) (Nat.le_refl _)
  subst h
  refine (Closes.forIn fun r hr a₂ h₂ => ?_).bind fun _ _ _ _ => Closes.pure trivial
  obtain ⟨s, b, hs, hb, hbt⟩ := helper_body_typed (ha.declarations.pending r hr)
  have hs : a₂.declarations.function r.function = .ok s := by
    rw [← hs, Declarations.function, Declarations.function, h₂.functions]
  refine Closes.get.bind fun x a' _ h => ?_
  obtain ⟨rfl, rfl⟩ := h
  refine (Closes.check fun _ => not_isMismatch_of_function).bind fun s' a'' _ h => ?_
  obtain ⟨hs', rfl⟩ := h
  obtain rfl := Except.ok.inj (hs.symm.trans hs')
  refine (Closes.check fun f hf => (by rw [hb] at hf; cases hf)).bind fun b' a' _ h => ?_
  obtain ⟨hb', rfl⟩ := h
  obtain rfl := Except.ok.inj (hb.symm.trans hb')
  have hbt : b.Typed a'.declarations := h₂.typed (hbt.mono (.refl _) (Nat.le_refl _))
  exact (closes_define hbt).bind fun _ _ _ _ => Closes.pure rfl

theorem implicitReturn_eq_ok {b b' : Body} (h : implicitReturn b = .ok b') :
    b' = b ∨ b.result = none ∧ b.terminate (.ret none) = .ok b' := by
  dsimp only [implicitReturn] at h
  split at h
  · next hc =>
      rw [Bool.and_eq_true, Option.isNone_iff_eq_none] at hc
      exact .inr ⟨hc.1, h⟩
  · split at h
    · exact .inl (Except.ok.inj h).symm
    · cases h

theorem within_of_implicitReturn {b b' : Body} (h : implicitReturn b = .ok b') : b.Within b' := by
  obtain rfl | ⟨-, h⟩ := implicitReturn_eq_ok h
  · exact .refl _
  · exact Body.within_terminate h

/-- The return that a function without a result gets at its end is typed. -/
theorem implicitReturn_typed {b b' : Body} {d : Declarations} (hb : b.Typed d)
    (h : implicitReturn b = .ok b') : b'.Typed d := by
  obtain rfl | ⟨hresult, h⟩ := implicitReturn_eq_ok h
  · exact hb
  obtain ⟨-, rfl⟩ := Body.terminate_eq_ok_iff.1 h
  have hΓ : (b.typing d).Within (Body.typing { b with
      blocks := b.blocks.modify b.current.index fun k =>
        { k with terminator := some (.ret none) } } d) :=
    ⟨.refl _, .refl _, .refl _, rfl, (Array.size_modify ..).symm.le, Nat.le_refl _⟩
  refine ⟨fun k hk => ?_, hb.args, hb.declared⟩
  dsimp only at hk
  rcases Emit.mem_modify hk with hk | ⟨k', hk', rfl⟩
  · exact (hb.blocks k hk).mono hΓ
  · refine ⟨fun i hi => ((hb.blocks k' hk').instrs i hi).mono hΓ, fun t ht => ?_⟩
    obtain rfl := Option.some.inj ht
    change Option.Rel _ none b.result
    rw [hresult]
    exact .none

theorem not_isMismatch_of_requireOpen {b : Body} {f : Fault} (h : b.requireOpen = .error f) :
    ¬ IsMismatch f := by
  rcases Body.requireOpen_eq_error_iff.1 h with ⟨-, rfl⟩ | ⟨_, -, rfl⟩ <;> exact nofun

theorem not_isMismatch_of_implicitReturn {b : Body} {f : Fault}
    (h : implicitReturn b = .error f) : ¬ IsMismatch f := by
  dsimp only [implicitReturn] at h
  split at h
  · exact not_isMismatch_of_requireOpen (Body.terminate_eq_error_iff.1 h)
  · rintro ⟨_, _, rfl⟩
    split at h <;> cases h

theorem current?_eq_some_iff {b : Body} : a.current? = some b ↔ a.stage = .opened ∧ a.body = some b := by
  unfold current?
  cases a.stage <;> simp

/-- The body of the open function has been replaced. -/
theorem current?_of_body {b b' : Body} (h : a.current? = some b) (hs : a'.stage = a.stage)
    (hb : a'.body = some b') : a'.current? = some b' :=
  current?_eq_some_iff.2 ⟨hs.trans (current?_eq_some_iff.1 h).1, hb⟩

theorem run_endFunction_of_ok {body b : Body} (h : a.current? = some body)
    (hb : implicitReturn body = .ok b) : endFunction.run.run a =
      (define b >>= fun _ => defineHelpers).run.run { a with stage := .closed, body := none } := by
  have hget : (get : Assemble Assembler).run.run a = (.ok a, a) := rfl
  unfold endFunction
  rw [run_bind, hget]
  dsimp only
  rw [h]
  dsimp only
  rw [hb]
  rfl

theorem run_endFunction_of_error {body : Body} {f : Fault} (h : a.current? = some body)
    (hb : implicitReturn body = .error f) : endFunction.run.run a = (.error f, a) := by
  have hget : (get : Assemble Assembler).run.run a = (.ok a, a) := rfl
  unfold endFunction
  rw [run_bind, hget]
  dsimp only
  rw [h]
  dsimp only
  rw [hb]
  rfl

theorem run_endFunction_of_not_opened (h : ∀ body, a.current? ≠ some body) :
    endFunction.run.run a = (.error (.sequencing .endWithoutBegin), a) := by
  have hnone := Option.eq_none_iff_forall_ne_some.2 h
  exact (show Fails endFunction a _ a by simp [endFunction, hnone])

theorem closes_rest {b : Body} (hb : b.Typed a.declarations) :
    Closes (define b >>= fun _ => defineHelpers) a fun _ _ => True :=
  (closes_define hb).bind fun _ _ _ _ => closes_defineHelpers

theorem typed_endFunction (ha : a.Typed) : (endFunction.run.run a).2.Typed ∧
    ∀ f, (endFunction.run.run a).1 = .error f → ¬ IsMismatch f := by
  by_cases h : ∃ body, a.current? = some body
  · obtain ⟨body, h⟩ := h
    cases hb : implicitReturn body with
    | error f =>
        rw [run_endFunction_of_error h hb]
        refine ⟨ha, fun f' hf => ?_⟩
        obtain rfl : f = f' := Except.error.inj hf
        exact not_isMismatch_of_implicitReturn hb
    | ok b =>
        rw [run_endFunction_of_ok h hb]
        have hbt : b.Typed a.declarations := implicitReturn_typed (ha.opened body h) hb
        have hclosed : Typed { a with stage := .closed, body := none } :=
          ⟨fun b hb => (by cases hb), ha.defined, ha.declarations⟩
        obtain ⟨ht, -, -, hf⟩ := closes_rest (a := { a with stage := .closed, body := none }) hbt hclosed
        exact ⟨ht, hf⟩
  · rw [run_endFunction_of_not_opened fun body hbody => h ⟨body, hbody⟩]
    refine ⟨ha, fun f' hf => ?_⟩
    obtain rfl := Except.error.inj hf
    rintro ⟨_, _, ⟨⟩⟩

end Operations

section Runs

theorem typed_new (name : String) (settings : Settings) : (new name settings).Typed := by
  refine ⟨fun b hb => (by cases hb), fun b hb => (by cases hb), fun op t id h => ?_, fun r hr => ?_⟩
  · cases h
  · cases hr

/-- What a request leaves is what its operation leaves. -/
theorem run_done (m : Assemble Unit) :
    (do m; return .done : Assemble Reply).run.run a =
      ((fun _ => Reply.done) <$> (m.run.run a).1, (m.run.run a).2) := by
  rw [run_bind]
  rcases m.run.run a with ⟨r, a'⟩
  cases r with
  | ok u => rfl
  | error f => rfl

/-- Where the request is granted, so is its operation. -/
theorem of_succeeds_done {m : Assemble Unit} {x : Reply}
    (h : Succeeds (do m; return .done) a x a') : Succeeds m a () a' := by
  obtain ⟨u, a'', hm, hdone⟩ := succeeds_bind.1 h
  obtain ⟨-, rfl⟩ := succeeds_pure.1 hdone
  exact hm

theorem run_settings (s : Settings) : (Request.perform (.settings s)).run.run a =
    ((fun _ => Reply.done) <$> ((setSettings s).run.run a).1, ((setSettings s).run.run a).2) :=
  run_done (setSettings s)

theorem run_begin (name : String) (params : List Param) (result : Option Ty) :
    (Request.perform (.begin name params result)).run.run a =
      ((fun _ => Reply.done) <$> ((beginFunction name params result).run.run a).1,
        ((beginFunction name params result).run.run a).2) :=
  run_done (beginFunction name params result)

theorem run_finish : (Request.perform .finish).run.run a =
    ((fun _ => Reply.done) <$> (endFunction.run.run a).1, (endFunction.run.run a).2) :=
  run_done endFunction

theorem setSettings_of_fresh (h : a.stage = .fresh) (s : Settings) :
    (setSettings s).run.run a = (.ok (), { a with settings := s }) :=
  show Succeeds (setSettings s) a () _ by simp [setSettings, h]

theorem setSettings_of_not_fresh (h : a.stage ≠ .fresh) (s : Settings) :
    (setSettings s).run.run a = (.error (.sequencing .settingsFixed), a) :=
  show Fails (setSettings s) a _ a by simp [setSettings, h]

theorem succeeds_setSettings {s : Settings} {u : Unit} : Succeeds (setSettings s) a u a' ↔
    a.stage = .fresh ∧ a' = { a with settings := s } := by
  rw [Succeeds]
  by_cases h : a.stage = .fresh
  · rw [setSettings_of_fresh h]
    exact ⟨fun he => ⟨h, (Prod.mk.inj he).2.symm⟩, fun he => by rw [he.2]⟩
  · rw [setSettings_of_not_fresh h]
    exact ⟨fun he => (by cases he), fun he => absurd he.1 h⟩

theorem typed_setSettings (ha : a.Typed) (s : Settings) :
    ((setSettings s).run.run a).2.Typed := by
  by_cases h : a.stage = .fresh
  · rw [setSettings_of_fresh h]
    exact ⟨ha.opened, ha.defined, ha.declarations⟩
  · rw [setSettings_of_not_fresh h]
    exact ha

section Begin

variable {name : String} {params : List Param} {result : Option Ty}

theorem beginFunction_of_open (h : a.stage = .opened) :
    (beginFunction name params result).run.run a =
      (.error (.sequencing (.beginWhileOpen name)), a) :=
  show Fails (beginFunction name params result) a _ a by simp [beginFunction, h]

theorem beginFunction_of_declared (h : a.stage ≠ .opened) {id : FunctionId}
    (hfind : a.declarations.find? name = some id) :
    (beginFunction name params result).run.run a = (.error (.invalid (.declared name)), a) :=
  show Fails (beginFunction name params result) a _ a by
    simp [beginFunction, h, Declarations.declare, hfind, check]

/-- The module after a function has been begun. Slots for the arguments and the result are taken from
pools that start afresh. -/
def begun (a : Assembler) (name : String) (params : List Param) (result : Option Ty) : Assembler :=
  { a with
    declarations := { a.declarations with
      functions := a.declarations.functions.push ⟨name, params.map (·.ty), result, true⟩ }
    pools := (allocateAll (allocateAll a.pools.resetFunction .input params.length).2 .output
      result.toList.length).2
    body := some { (Body.new ⟨a.declarations.functions.size⟩ name params result) with
      argSlots := (allocateAll a.pools.resetFunction .input params.length).1
      resultSlot := (allocateAll (allocateAll a.pools.resetFunction .input params.length).2
        .output result.toList.length).1.head? }
    stage := .opened }

theorem beginFunction_of_new (h : a.stage ≠ .opened) (hfind : a.declarations.find? name = none) :
    (beginFunction name params result).run.run a = (.ok (), a.begun name params result) :=
  show Succeeds (beginFunction name params result) a () _ by
    simp [beginFunction, h, Declarations.declare, hfind, check, begun]

/-- A function is begun, or nothing has changed. -/
theorem beginFunction_cases (a : Assembler) (name : String) (params : List Param)
    (result : Option Ty) :
    (a.stage ≠ .opened ∧ a.declarations.find? name = none ∧
      (beginFunction name params result).run.run a = (.ok (), a.begun name params result)) ∨
    ((a.stage = .opened ∨ (a.declarations.find? name).isSome = true) ∧
      ∃ f, (beginFunction name params result).run.run a = (.error f, a)) := by
  by_cases hopen : a.stage = .opened
  · exact .inr ⟨.inl hopen, _, beginFunction_of_open hopen⟩
  · cases hfind : a.declarations.find? name with
    | some id => exact .inr ⟨.inr rfl, _, beginFunction_of_declared hopen hfind⟩
    | none => exact .inl ⟨hopen, rfl, beginFunction_of_new hopen hfind⟩

theorem succeeds_beginFunction {u : Unit} : Succeeds (beginFunction name params result) a u a' ↔
    (a.stage ≠ .opened ∧ a.declarations.find? name = none) ∧ a' = a.begun name params result := by
  rw [Succeeds]
  rcases a.beginFunction_cases name params result with ⟨hstage, hfind, h⟩ | ⟨hn, f, h⟩
  · rw [h]
    exact ⟨fun he => ⟨⟨hstage, hfind⟩, (Prod.mk.inj he).2.symm⟩, fun he => by rw [he.2]⟩
  · rw [h]
    refine ⟨fun he => (by cases he), fun he => ?_⟩
    obtain ⟨⟨hstage, hfind⟩, -⟩ := he
    rcases hn with hopen | hsome
    · exact absurd hopen hstage
    · rw [hfind] at hsome
      cases hsome

end Begin

theorem typed_begun (ha : a.Typed) (name : String) (params : List Param) (result : Option Ty) :
    (a.begun name params result).Typed := by
  have hnew : (Body.new ⟨a.declarations.functions.size⟩ name params result).Typed
      { a.declarations with
        functions := a.declarations.functions.push ⟨name, params.map (·.ty), result, true⟩ } :=
    new_typed Array.getElem?_push_size rfl rfl
  refine ⟨fun b hb => ?_, fun b hb => (ha.defined b hb).mono (.push _ _) (Nat.le_refl _),
    fun op t id h => (ha.declarations.helpers op t id h).mono (.push _ _),
    fun r hr => (ha.declarations.pending r hr).mono (.push _ _)⟩
  obtain rfl := Option.some.inj hb
  exact ⟨hnew.blocks, hnew.args, hnew.declared⟩

theorem typed_beginFunction (ha : a.Typed) (name : String) (params : List Param)
    (result : Option Ty) : ((beginFunction name params result).run.run a).2.Typed := by
  rcases a.beginFunction_cases name params result with ⟨-, -, h⟩ | ⟨-, f, h⟩
  · rw [h]
    exact typed_begun ha name params result
  · rw [h]
    exact ha

theorem run_emit_of_opened {m : Emit α} {body : Body} {r : Except Fault α} {e : Emitter}
    (h : a.current? = some body)
    (hm : m.run.run ⟨body, a.declarations, a.pools, a.settings⟩ = (r, e)) :
    (emit m).run.run a = (r, { a with
      body := some e.body, declarations := e.declarations, pools := e.pools }) := by
  have hget : (get : Assemble Assembler).run.run a = (.ok a, a) := rfl
  unfold emit
  rw [run_bind, hget]
  dsimp only
  rw [h]
  dsimp only
  rw [hm]
  cases r with
  | ok x => rfl
  | error f => rfl

theorem run_emit_of_not_opened (m : Emit α) (h : ∀ body, a.current? ≠ some body) :
    (emit m).run.run a = (.error (.sequencing .noFunction), a) := by
  have hnone := Option.eq_none_iff_forall_ne_some.2 h
  exact (show Fails (emit m) a _ a by simp [emit, hnone])

/-- What is emitted in the open function leaves the other functions as they are. -/
theorem typed_emit (ha : a.Typed) (c : Call) : ((emit c.perform).run.run a).2.Typed := by
  by_cases h : ∃ body, a.current? = some body
  · obtain ⟨body, h⟩ := h
    rw [run_emit_of_opened (m := c.perform) h rfl]
    obtain ⟨ht, ho, -⟩ := checks_perform c (e := ⟨body, a.declarations, a.pools, a.settings⟩)
      ⟨ha.opened body h, ha.declarations⟩
    refine ⟨fun b hb => ?_, fun b hb => ?_, ht.declarations⟩
    · obtain rfl := Option.some.inj (current?_eq_some_iff.1 hb).2
      exact ht.body
    · exact (ha.defined b hb).mono ho.typing.functions ho.typing.data
  · rw [run_emit_of_not_opened _ fun body hbody => h ⟨body, hbody⟩]
    exact ha

/-- Granted or refused, a request leaves the module typed. -/
theorem typed_perform (ha : a.Typed) (r : Request) : (r.perform.run.run a).2.Typed := by
  cases r with
  | settings s =>
      rw [run_settings]
      exact typed_setSettings ha s
  | begin name params result =>
      rw [run_begin]
      exact typed_beginFunction ha name params result
  | emit c => exact typed_emit ha c
  | finish =>
      rw [run_finish]
      exact (typed_endFunction ha).1

theorem typed_after (ha : a.Typed) (requests : List Request) : (a.after requests).Typed := by
  induction requests generalizing a with
  | nil => exact ha
  | cons r rs ih => exact ih (typed_perform ha r)

/-- A body that the module has: of the open function, of one that is finished, or of a helper that
is still to be made. -/
inductive Holds (a : Assembler) : Body → Prop
  | opened {b : Body} : a.current? = some b → a.Holds b
  | defined {b : Body} : b ∈ a.defined → a.Holds b
  | helper {r : HelperRequest} {s : Signature} {b : Body} : r ∈ a.declarations.pending →
      a.declarations.function r.function = .ok s → r.body s = .ok b → a.Holds b

theorem Typed.body {b : Body} (ha : a.Typed) (h : a.Holds b) : b.Typed a.declarations := by
  cases h with
  | opened h => exact ha.opened b h
  | defined h => exact ha.defined b h
  | helper hr hs hb =>
      obtain ⟨s', b', hs', hb', hbt⟩ := helper_body_typed (ha.declarations.pending _ hr)
      obtain rfl := Except.ok.inj (hs.symm.trans hs')
      obtain rfl := Except.ok.inj (hb.symm.trans hb')
      exact hbt

/-- Whatever calls are made on a new module and whichever of them are refused: the code that it
holds is typed; there is an instruction for each operator and cast in it, wherever the check of the
body ends; every helper that was asked for has a body; and ending the function that is open does not
fail for types. -/
theorem typed_of_recording (name : String) (settings : Settings) (requests : List Request) :
    (∀ b, ((new name settings).after requests).Holds b →
      b.Typed ((new name settings).after requests).declarations ∧
        (∀ k ∈ b.blocks, ∀ i ∈ k.instrs, ∀ f, b.checkTypes i = .error f → ¬ IsMismatch f) ∧
        ∀ f, b.checkOrder = .error f → ¬ IsMismatch f) ∧
    (∀ r ∈ ((new name settings).after requests).declarations.pending, ∃ s b,
      ((new name settings).after requests).declarations.function r.function = .ok s ∧
        r.body s = .ok b) ∧
    ∀ f, (endFunction.run.run ((new name settings).after requests)).1 = .error f →
      ¬ IsMismatch f := by
  have ha := typed_after (typed_new name settings) requests
  refine ⟨fun b hb => ?_, fun r hr => ?_, ?_⟩
  · have hb := ha.body hb
    exact ⟨hb, fun k hk i hi f => not_isMismatch_of_checkTypes ((hb.blocks k hk).instrs i hi),
      fun f => not_isMismatch_of_checkOrder hb⟩
  · obtain ⟨s, b, hs, hb, -⟩ := helper_body_typed (ha.declarations.pending r hr)
    exact ⟨s, b, hs, hb⟩
  · exact (typed_endFunction ha).2

end Runs

end Assembler

end Dataflow.Code
