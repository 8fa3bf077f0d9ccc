import Dataflow.Proofs.Code.Checked
import Dataflow.Proofs.Code.Exports
import Dataflow.Proofs.Ends

/-!
# Modules can be concluded

A function whose body passes the checks can be ended, along with the helpers it asks for. Data are
named by numbered slots, which no function is named after, so that every name gets one symbol. All
that the function calls has a body then, and the module can be finished.
-/

namespace Dataflow.Code

section Names

theorem Slot.head?_name_literal (i : Nat) :
    (Slot.name ⟨.literal, i⟩).toList.head? = some 'c' := by
  simp [Slot.name, Scope.stem, toString]

theorem Declarations.head?_helperName (op : Operator) (t : Ty) :
    (helperName op t).toList.head? = some 'f' := by
  simp [helperName, toString]

structure Declarations.Apart (d : Declarations) : Prop where
  data : ∀ (i : Nat) (x : Datum), d.data[i]? = some x → x.name = Slot.name ⟨.literal, i⟩
  functions : ∀ s ∈ d.functions, ∀ i, s.name ≠ Slot.name ⟨.literal, i⟩

/-- If the exported functions are not named after slots, then no function is. -/
theorem Declarations.Regular.apart {d : Declarations} (h : d.Regular)
    (hdata : ∀ (i : Nat) (x : Datum), d.data[i]? = some x → x.name = Slot.name ⟨.literal, i⟩)
    (hexported : ∀ s ∈ d.functions, s.exported = true → ∀ i, s.name ≠ Slot.name ⟨.literal, i⟩) :
    d.Apart := by
  refine ⟨hdata, fun s hs i hname => ?_⟩
  cases he : s.exported with
  | true => exact hexported s hs he i hname
  | false =>
      obtain ⟨j, hj⟩ := Array.mem_iff_getElem?.1 hs
      obtain ⟨op, t, hhelper, -⟩ := h.hidden j s hj he
      have hfirst := head?_helperName op t
      rw [← hhelper, hname, Slot.head?_name_literal] at hfirst
      exact absurd hfirst (by decide)

end Names

section Helpers

variable {b : Body} {d : Declarations} {op : Operator} {t : Ty}

theorem Operator.uses_instr (op : Operator) : ∀ v ∈ op.instr.uses, v.index < op.arity := by
  cases op <;> simp [instr, Instr.uses, arity]

theorem Operator.defines_instr (op : Operator) : op.instr.defines = some ⟨op.arity⟩ := by
  cases op <;> rfl

theorem Body.IsHelper.callees (h : b.IsHelper op t) : b.callees = [] := by
  rw [Body.callees, h.blocks]
  cases op <;> rfl

theorem Body.IsHelper.complete (h : b.IsHelper op t) : b.Complete (op.arity + 1) := by
  have hargs : b.args.length = op.arity := by simp [h.args]
  have hblock : ∀ (i : Nat) (k : Block), b.blocks[i]? = some k →
      i = 0 ∧ k = ⟨"entry", #[op.instr], some (.ret (some ⟨op.arity⟩))⟩ := by
    intro i k hk
    rw [h.blocks] at hk
    cases i with
    | zero => exact ⟨rfl, (Option.some.inj hk).symm⟩
    | succ i => cases hk
  have hmem : ∀ k ∈ b.blocks, k = ⟨"entry", #[op.instr], some (.ret (some ⟨op.arity⟩))⟩ := by
    intro k hk
    obtain ⟨i, hi⟩ := Array.mem_iff_getElem?.1 hk
    exact (hblock i k hi).2
  refine ⟨⟨?_, ?_, fun i k hk v hv => ?_, fun k hk => ?_, fun k hk v s hs => ?_⟩, ?_, fun k hk => ?_⟩
  · rw [hargs, h.args]
  · rw [hargs, h.blocks]
    have htrace : Numbered op.arity [op.instr.event, ([⟨op.arity⟩], none)] (op.arity + 1) := by
      rw [Instr.event, op.defines_instr]
      exact .define op.uses_instr (.use (by simp) (.nil _))
    exact htrace
  · obtain ⟨rfl, rfl⟩ := hblock i k hk
    have hv : v ∈ op.instr.uses ∨ v = ⟨op.arity⟩ := by
      simpa [Block.uses, Terminator.uses] using hv
    rcases hv with hv | rfl
    · exact Or.inl (hargs ▸ op.uses_instr v hv)
    · refine Or.inr ⟨0, _, hk, Block.mem_defines.2 ⟨op.instr, by simp, op.defines_instr⟩, Or.inl rfl⟩
  · rw [hmem k hk]
    simp [Block.targets, Terminator.targets]
  · rw [hmem k hk] at hs
    cases op <;> simp [Operator.instr] at hs
  · rw [h.layout, Body.blockIds, h.blocks]
    rfl
  · rw [hmem k hk]
    rfl

/-- A callee is declared. -/
theorem Body.Typed.exists_callee (h : b.Typed d) {id : FunctionId} (hid : id ∈ b.callees) :
    ∃ s, d.functions[id.index]? = some s := by
  obtain ⟨k, hk, hid⟩ := List.mem_flatMap.1 hid
  obtain ⟨i, hi, hcallee⟩ := List.mem_filterMap.1 hid
  have htyped := (h.blocks k (by simpa using hk)).instrs i (by simpa using hi)
  cases i with
  | call result function args =>
      obtain rfl := Option.some.inj hcallee
      obtain ⟨s, hs, -⟩ := htyped
      exact ⟨s, hs⟩
  | _ => cases hcallee

end Helpers

namespace Assembler

structure Registered (a : Assembler) : Prop where
  apart : a.declarations.Apart
  data : ∀ name, a.symbols.find? name = some .datum →
    ∃ id ∈ a.definedData, name = Slot.name ⟨.literal, id.index⟩
  functions : ∀ name, a.symbols.find? name = some .function →
    ∀ i, name ≠ Slot.name ⟨.literal, i⟩

variable {a a' : Assembler} {b body : Body} {helpers : List Body}

theorem Registered.of_empty (h : a.declarations.Apart) (hs : a.symbols = ∅) : a.Registered := by
  refine ⟨h, fun name hname => ?_, fun name hname => ?_⟩
  · rw [hs] at hname
    cases hname
  · rw [hs] at hname
    cases hname

theorem ends_defineDatum {i : Nat} {x : Datum} (ha : a.Registered)
    (hx : a.declarations.data[i]? = some x) :
    Ends (defineDatum ⟨i⟩ x) a fun _ a' => a'.Registered ∧ a.Registers a' := by
  have hname := ha.apart.data i x hx
  refine .after_get ?_
  split
  · exact .pure ⟨ha, .refl a⟩
  · next hnew =>
      cases hfind : a.symbols.find? x.name with
      | some s =>
          cases s with
          | function => exact absurd hname (ha.functions _ hfind i)
          | datum =>
              obtain ⟨id, hid, heq⟩ := ha.data _ hfind
              obtain ⟨-, hindex⟩ := Slot.mk.inj (Slot.name_injective (hname.symm.trans heq))
              exact absurd (by simpa [hindex] using hid) hnew
      | none =>
          refine ⟨⟨⟩, _, succeeds_set.2 rfl, ⟨ha.apart, fun name hdatum => ?_, fun name hfun j => ?_⟩,
            rfl⟩
          · rw [Table.find?_insert] at hdatum
            split at hdatum
            · next heq => exact ⟨⟨i⟩, by simp, heq.trans hname⟩
            · obtain ⟨id, hid, heq⟩ := ha.data _ hdatum
              exact ⟨id, List.mem_append_left _ hid, heq⟩
          · rw [Table.find?_insert] at hfun
            split at hfun
            · cases hfun
            · exact ha.functions _ hfun j

theorem ends_defineData (ha : a.Registered) :
    Ends defineData a fun _ a' => a'.Registered ∧ a.Registers a' := by
  refine .after_get (Ends.bind (P := fun _ a' => a'.Registered ∧ a.Registers a')
    (.forIn ⟨ha, .refl a⟩ ?_) fun _ _ h => .pure h)
  rintro ⟨x, i⟩ hx a₁ ⟨ha₁, h₁⟩
  have hdata : a.declarations.data[i]? = some x := by
    simpa using List.mem_zipIdx_iff_getElem?.1 hx
  have hdeclarations : a₁.declarations = a.declarations := by rw [h₁]
  refine (ends_defineDatum ha₁ (hdeclarations ▸ hdata)).bind fun _ a₂ ⟨ha₂, h₂⟩ => ?_
  exact .pure ⟨rfl, ha₂, h₁.trans h₂⟩

theorem ends_declareFunction {id : FunctionId} {s : Signature} (ha : a.Registered)
    (hs : a.declarations.functions[id.index]? = some s) :
    Ends (declareFunction id) a fun _ a' => a'.Registered ∧ a.Registers a' := by
  have hname := ha.apart.functions s (Array.mem_of_getElem? hs)
  refine .after_get ?_
  split
  · exact .pure ⟨ha, .refl a⟩
  · refine .after (succeeds_check.2 ⟨Declarations.function_eq_ok_iff.2 hs, rfl⟩)
      (.refuse (fun hfind => ?_) ?_)
    · obtain ⟨id', -, heq⟩ := ha.data _ hfind
      exact hname _ heq
    · refine ⟨⟨⟩, _, succeeds_set.2 rfl, ⟨ha.apart, fun name hdatum => ?_, fun name hfun j => ?_⟩,
        rfl⟩
      · rw [Table.find?_insert] at hdatum
        split at hdatum
        · cases hdatum
        · exact ha.data _ hdatum
      · rw [Table.find?_insert] at hfun
        split at hfun
        · next heq => exact heq ▸ hname j
        · exact ha.functions _ hfun j

/-- A body that passes the checks can be defined. -/
theorem ends_define (ha : a.Registered) (hb : b.Typed a.declarations)
    (horder : b.checkOrder = .ok ()) (hformed : b.isWellFormed = true) :
    Ends (define b) a fun _ a' => a'.Registered ∧ a'.declarations = a.declarations := by
  refine (ends_defineData ha).bind fun _ a₁ ⟨ha₁, h₁⟩ => ?_
  obtain ⟨s, hs, -⟩ := hb.declared
  have hdeclarations : a₁.declarations = a.declarations := by rw [h₁]
  refine (ends_declareFunction ha₁ (hdeclarations ▸ hs)).bind fun _ a₂ ⟨ha₂, h₂⟩ => ?_
  have hcallees : Ends (b.callees.eraseDups.forM declareFunction) a₂
      fun _ a' => a'.Registered ∧ a.Registers a' := by
    refine .forM ⟨ha₂, h₁.trans h₂⟩ fun id hid a' ⟨ha', h'⟩ => ?_
    obtain ⟨s, hs⟩ := hb.exists_callee (List.mem_eraseDups.1 hid)
    have hdeclarations' : a'.declarations = a.declarations := by rw [h']
    exact (ends_declareFunction ha' (hdeclarations' ▸ hs)).imp
      fun _ a'' ⟨ha'', h''⟩ => ⟨ha'', h'.trans h''⟩
  refine hcallees.bind fun _ a₃ ⟨ha₃, h₃⟩ => ?_
  refine .after (b := ()) (succeeds_check.2 ⟨horder, rfl⟩) (.refuse (by simp [hformed]) ?_)
  refine ⟨⟨⟩, _, succeeds_modify.2 rfl, ⟨ha₃.apart, ha₃.data, ha₃.functions⟩, ?_⟩
  change a₃.declarations = _
  rw [h₃]

/-- The helpers that have been asked for can be defined. -/
theorem ends_defineHelpers (ha : a.Registered) (ht : a.declarations.Typed) :
    Ends defineHelpers a fun _ _ => True := by
  refine .after_get (.after_modify (Ends.bind (P := fun _ _ => True) (.imp (.forIn
    (I := fun a' => a'.Registered ∧ a'.declarations = { a.declarations with pending := [] })
    ⟨⟨⟨ha.apart.data, ha.apart.functions⟩, ha.data, ha.functions⟩, rfl⟩ fun r hr a₁ h₁ => ?_)
    fun _ _ _ => trivial) fun _ _ _ => .pure trivial))
  obtain ⟨ha₁, hd⟩ := h₁
  have hhelper := ht.pending r hr
  obtain ⟨-, s', hs', hparams, -⟩ := id hhelper
  obtain ⟨s, b, hs, hb, hbt⟩ := helper_body_typed hhelper
  obtain rfl := Option.some.inj (hs'.symm.trans (Declarations.function_eq_ok_iff.1 hs))
  obtain ⟨b', hb', -, -, hishelper⟩ := r.exists_body hparams
  obtain rfl := Except.ok.inj (hb.symm.trans hb')
  have hs₁ : a₁.declarations.function r.function = .ok s' := by rw [hd, ← hs]; rfl
  have hbt₁ : b.Typed a₁.declarations := by
    rw [hd]
    exact hbt.mono (.refl _) (Nat.le_refl _)
  have hcomplete := hishelper.complete
  refine .after_get (.after (succeeds_check.2 ⟨hs₁, rfl⟩) (.after (succeeds_check.2 ⟨hb, rfl⟩) ?_))
  refine (ends_define ha₁ hbt₁ (hcomplete.checkOrder hbt₁ ?_) hcomplete.isWellFormed).bind
    fun _ a₂ h => .pure ⟨rfl, h.1, h.2.trans hd⟩
  simp [hishelper.types]

theorem implicitReturn_of_complete {n : Nat} (h : b.Complete n) : implicitReturn b = .ok b := by
  have hnone : b.unterminated = [] := by
    refine List.filter_eq_nil_iff.2 fun id _ => ?_
    cases hk : b.blocks[id.index]? with
    | none => simp
    | some k => simp [h.closed k (Array.mem_of_getElem? hk)]
  have hopen : (b.unterminated == [b.current]) = false := by rw [hnone]; rfl
  dsimp only [implicitReturn]
  rw [hopen, hnone, Bool.and_false]
  rfl

/-- The open function can be ended once its last block is closed. -/
theorem ends_endFunction {n : Nat} (hstage : a.current? = some b) (ha : a.Registered)
    (ht : a.declarations.Typed) (hb : b.Typed a.declarations) (hc : b.Complete n)
    (hn : n ≤ b.valueTypes.size) :
    Ends endFunction a fun _ a' => ∃ helpers, a.EndsWith b b helpers a' := by
  have hrest : Ends (define b >>= fun _ => defineHelpers) { a with stage := .closed, body := none }
      fun _ _ => True := by
    have hclosed : Registered { a with stage := .closed, body := none } := ⟨ha.apart, ha.data, ha.functions⟩
    exact (ends_define hclosed hb (hc.checkOrder hb hn) hc.isWellFormed).bind
      fun _ a₁ ⟨ha₁, h₁⟩ => ends_defineHelpers ha₁ (h₁.symm ▸ ht)
  have hend : Ends endFunction a fun _ _ => True := by
    obtain ⟨u, a', hm, htrivial⟩ := hrest
    refine ⟨u, a', ?_, htrivial⟩
    unfold Succeeds at hm ⊢
    rw [run_endFunction_of_ok hstage (implicitReturn_of_complete hc), hm]
  refine hend.of_succeeds fun u a' hm _ => ?_
  obtain ⟨body, b', helpers, hends⟩ := succeeds_endFunction hm
  obtain rfl := Option.some.inj (hends.opened.symm.trans hstage)
  obtain rfl := Except.ok.inj (hends.finished.symm.trans (implicitReturn_of_complete hc))
  exact ⟨helpers, hends⟩

theorem HasBody.isHelper {d : Declarations} {r : HelperRequest} (h : HasBody d r b)
    (hd : d.Sound) (hr : r ∈ d.pending) : b.id = r.function ∧ b.IsHelper r.op r.ty := by
  obtain ⟨s, hs, hb⟩ := h
  obtain ⟨-, name, hname⟩ := hd.declared r hr
  obtain rfl := Option.some.inj (hname.symm.trans (Declarations.function_eq_ok_iff.1 hs))
  obtain ⟨b', hb', hid, -, hhelper⟩ := r.exists_body (s := ⟨name, _, _, false⟩) rfl
  obtain rfl := Except.ok.inj (hb.symm.trans hb')
  exact ⟨hid, hhelper⟩

/-- A module has the one function that has been ended in it, and helpers. -/
theorem EndsWith.isHelper {x : Executable} {b' : Body} (h : a.EndsWith body b helpers a')
    (hx : a'.finalize = .ok x) (hdefined : a.defined = []) (hs : a.declarations.Sound)
    (hb : b' ∈ x.bodies) : b' = b ∨ ∃ op t, b'.IsHelper op t := by
  obtain ⟨-, -, hbodies, -⟩ := finalize_eq_ok hx
  rw [hbodies, h.defined, hdefined, List.nil_append] at hb
  refine (List.mem_cons.1 hb).imp_right fun hb => ?_
  obtain ⟨r, hr, hmade⟩ := forall₂_mem_right h.made hb
  exact ⟨_, _, (hmade.isHelper hs hr).2⟩

/-- A module whose only exported function has been ended can be finished, and exports it. -/
theorem exists_finalize (h : a.EndsWith body b helpers a') (hdefined : a.defined = [])
    (hs : a.declarations.Sound) (hd : a.declarations.Regular) (hb : b.Typed a.declarations)
    (hid : b.id = ⟨0⟩) (hsingle : ∀ s ∈ a.declarations.functions, s.exported = true →
      a.declarations.functions[0]? = some s) {s : Signature}
    (hentry : a.declarations.functions[0]? = some s) (hexported : s.exported = true) :
    ∃ x, a'.finalize = .ok x ∧ x.exported b.name = .ok b := by
  have hbodies : a'.defined = b :: helpers := by rw [h.defined, hdefined, List.nil_append]
  have hmain : a'.isDefined ⟨0⟩ = true := by simp [isDefined, hbodies, hid]
  -- A function that is exported is the first one, and any other is a helper that has been made.
  have hfirst : ∀ (i : Nat) (s : Signature), a.declarations.functions[i]? = some s →
      s.exported = true → i = 0 := fun i s hi he =>
    hd.distinct i 0 s s hi (hsingle s (Array.mem_of_getElem? hi) he) rfl
  have hcallees : ∀ id ∈ a'.defined.flatMap Body.callees, a'.isDefined id = true := by
    intro id hmem
    rw [hbodies] at hmem
    obtain ⟨b', hb', hcallee⟩ := List.mem_flatMap.1 hmem
    rcases List.mem_cons.1 hb' with rfl | hb'
    · obtain ⟨s, hsig⟩ := hb.exists_callee hcallee
      cases he : s.exported with
      | true =>
          obtain rfl : id = ⟨0⟩ := congrArg FunctionId.mk (hfirst _ s hsig he)
          exact hmain
      | false =>
          obtain ⟨op, t, -, hfind⟩ := hd.hidden _ s hsig he
          have hr := hs.asked op t _ hfind
          obtain ⟨b₁, hb₁, hmade⟩ := forall₂_mem_left h.made hr
          have hid₁ := (hmade.isHelper hs hr).1
          rw [isDefined, List.any_eq_true]
          exact ⟨b₁, by simp [hbodies, hb₁], by simp [hid₁]⟩
    · obtain ⟨r, hr, hmade⟩ := forall₂_mem_right h.made hb'
      rw [(hmade.isHelper hs hr).2.callees] at hcallee
      cases hcallee
  have hunresolved : a'.unresolved? = none := by
    rw [unresolved?, List.find?_eq_none.2 fun id hmem => by simp [hcallees id hmem]]
    rfl
  have hlacks : a'.lacksExport = false := by
    rw [lacksExport, List.any_eq_false]
    intro id _
    rw [h.declarations]
    cases hsig : a.declarations.functions[id.index]? with
    | none => simp
    | some s =>
        cases he : s.exported with
        | false => simp [he]
        | true =>
            obtain rfl : id = ⟨0⟩ := congrArg FunctionId.mk (hfirst _ s hsig he)
            simp [hmain]
  have hfinal : a'.finalize = .ok ⟨a'.name, a'.declarations, a'.defined,
      a'.declarations.data.map Executable.dataRegion⟩ := by
    rw [finalize, h.stage, hunresolved, hlacks]
    rfl
  refine ⟨_, hfinal, ?_⟩
  have hisexported : Executable.isExported a'.declarations b = true := by
    rw [h.declarations]
    exact (isExported_eq _ (hid ▸ hentry)).trans hexported
  simp [Executable.exported, Executable.exports, hbodies, hisexported]

end Assembler

end Dataflow.Code
