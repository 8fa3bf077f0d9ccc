import Dataflow.Proofs.Code.Switches

/-!
# Exported functions of two recordings

One sequence of requests is granted twice, with different settings. At every moment of the two
recordings each helper has its body or waits for it, and the exported functions that are finished
are alike, pair by pair. So the two modules that come of it export the same functions, and a
function that both export does the same in both, whatever it is given.
-/

namespace Dataflow.Code

namespace Declarations

variable {d d' : Declarations}

/-- A function that had been declared before becomes no helper later. -/
theorem Regular.helper_of_within (h : d.Regular) (h' : d'.Regular) (hw : d.Within d')
    {op : Operator} {t : Ty} {id : FunctionId} (hid : d'.helpers.find? (op, t) = some id)
    {s : Signature} (hs : d.functions[id.index]? = some s) : d.helpers.find? (op, t) = some id := by
  obtain ⟨s', hs', he, hname⟩ := h'.helpers op t id hid
  obtain rfl := Option.some.inj ((hw.functions _ _ hs).symm.trans hs')
  obtain ⟨op', t', hname', hid'⟩ := h.hidden id.index s hs he
  obtain ⟨rfl, rfl⟩ := helperName_injective (hname.symm.trans hname')
  exact hid'

/-- A function is the helper of one operator and one type at most. -/
theorem Regular.helper_injective (h : d.Regular) {op op' : Operator} {t t' : Ty} {id : FunctionId}
    (hid : d.helpers.find? (op, t) = some id) (hid' : d.helpers.find? (op', t') = some id) :
    op = op' ∧ t = t' := by
  obtain ⟨s, hs, -, hname⟩ := h.helpers op t id hid
  obtain ⟨s', hs', -, hname'⟩ := h.helpers op' t' id hid'
  obtain rfl := Option.some.inj (hs.symm.trans hs')
  exact helperName_injective (hname.symm.trans hname')

end Declarations

namespace Assembler

variable {a a' : Assembler} {d d' : Declarations}

structure Furnished (a : Assembler) : Prop where
  made : ∀ op t id, a.declarations.helpers.find? (op, t) = some id →
    ⟨id, op, t⟩ ∈ a.declarations.pending ∨ ∃ b ∈ a.defined, b.id = id
  applies : ∀ b ∈ a.defined, ∀ op t, a.declarations.helpers.find? (op, t) = some b.id →
    b.Applies op
  settled : a.stage ≠ .opened → a.declarations.pending = []

def exports (a : Assembler) : List Body := a.defined.filter (Executable.isExported a.declarations)

theorem furnished_new (name : String) (s : Settings) : (new name s).Furnished :=
  ⟨fun op t id h => (by cases h), fun b hb => (by cases hb), fun _ => rfl⟩

/-- While a function is open, helpers are only asked for. -/
theorem Furnished.grow (h : a.Furnished) (ha : a.Typed) (hd : a.declarations.Regular)
    (hd' : a'.declarations.Regular) (hw : a.declarations.Within a'.declarations)
    (hasks : a.declarations.Asks a'.declarations) (hdefined : a'.defined = a.defined)
    (hopen : a'.stage = .opened) : a'.Furnished := by
  refine ⟨fun op t id hid => ?_, fun b hb op t hid => ?_, fun h' => ?_⟩
  · rw [hdefined]
    rcases hasks.helpers op t id hid with hid | hid
    · exact (h.made op t id hid).imp_left (hasks.pending _)
    · exact .inl hid
  · rw [hdefined] at hb
    obtain ⟨s, hs, -⟩ := (ha.defined b hb).declared
    exact h.applies b hb op t (hd.helper_of_within hd' hw hid hs)
  · exact absurd hopen h'

section Helpers

/-- The body of a helper that was asked for is that of a helper indeed. -/
theorem HasBody.applies_of_typed (hd : d.Typed) {r : HelperRequest} {b : Body} (hr : r ∈ d.pending)
    (h : HasBody d r b) : b.id = r.function ∧ b.Applies r.op := by
  obtain ⟨-, s, hs, hparams, -⟩ := hd.pending r hr
  exact h.applies hs hparams

variable {body b : Body} {helpers : List Body}

/-- When a function ends, the helpers that were waiting get their bodies. -/
theorem Furnished.finish (h : a.Furnished) (ha : a.Typed) (hd : a.declarations.Regular)
    (hends : a.EndsWith body b helpers a') {s : Signature}
    (hs : a.declarations.functions[b.id.index]? = some s) (hexported : s.exported = true) :
    a'.Furnished := by
  have hhelpers : a'.declarations.helpers = a.declarations.helpers := by rw [hends.declarations]
  refine ⟨fun op t id hid => ?_, fun b' hb' op t hid => ?_, fun _ => ?_⟩
  · rw [hhelpers] at hid
    rw [hends.defined]
    rcases h.made op t id hid with hr | ⟨b', hb', rfl⟩
    · obtain ⟨b', hb', hmade⟩ := forall₂_mem_left hends.made hr
      exact .inr ⟨b', by simp [hb'], (hmade.applies_of_typed ha.declarations hr).1⟩
    · exact .inr ⟨b', by simp [hb'], rfl⟩
  · rw [hhelpers] at hid
    rw [hends.defined] at hb'
    rcases List.mem_append.1 hb' with hb' | hb'
    · exact h.applies b' hb' op t hid
    rcases List.mem_cons.1 hb' with rfl | hb'
    · obtain ⟨s', hs', he, -⟩ := hd.helpers op t b'.id hid
      obtain rfl := Option.some.inj (hs.symm.trans hs')
      rw [he] at hexported
      cases hexported
    · obtain ⟨r, hr, hmade⟩ := forall₂_mem_right hends.made hb'
      obtain ⟨hid', happlies⟩ := hmade.applies_of_typed ha.declarations hr
      rw [hid'] at hid
      obtain ⟨rfl, -⟩ := hd.helper_injective hid (hd.asked r hr)
      exact happlies
  · rw [hends.declarations]

end Helpers

section Exports

theorem isExported_eq (d : Declarations) {b : Body} {s : Signature}
    (hs : d.functions[b.id.index]? = some s) : Executable.isExported d b = s.exported := by
  rw [Executable.isExported, hs]
  rfl

/-- Which bodies are exported is settled once their functions are declared. -/
theorem filter_isExported {bs : List Body} (hbs : ∀ b ∈ bs, b.Typed d) (hw : d.Within d') :
    bs.filter (Executable.isExported d') = bs.filter (Executable.isExported d) := by
  refine List.filter_congr fun b hb => ?_
  obtain ⟨s, hs, -⟩ := (hbs b hb).declared
  rw [isExported_eq d hs, isExported_eq d' (hw.functions _ _ hs)]

theorem exports_of_within (ha : a.Typed) (hw : a.declarations.Within a'.declarations)
    (hdefined : a'.defined = a.defined) : a'.exports = a.exports := by
  unfold exports
  rw [hdefined, filter_isExported ha.defined hw]

/-- Of what is defined at the end of a function, that function alone is exported. -/
theorem exports_finish (ha : a.Typed) (hd : a.declarations.Regular) {body b : Body}
    {helpers : List Body} (hends : a.EndsWith body b helpers a') {s : Signature}
    (hs : a.declarations.functions[b.id.index]? = some s) (hexported : s.exported = true) :
    a'.exports = a.exports ++ [b] := by
  have hw : a.declarations.Within a'.declarations := by
    rw [hends.declarations]
    exact ⟨.refl _, fun _ _ h => h⟩
  have hhelpers : helpers.filter (Executable.isExported a'.declarations) = [] := by
    refine List.filter_eq_nil_iff.2 fun b' hb' => ?_
    obtain ⟨r, hr, hmade⟩ := forall₂_mem_right hends.made hb'
    obtain ⟨hid, -⟩ := hmade.applies_of_typed ha.declarations hr
    obtain ⟨s', hs', he, -⟩ := hd.helpers r.op r.ty r.function (hd.asked r hr)
    rw [isExported_eq _ (hw.functions _ _ (hid ▸ hs')), he]
    exact Bool.false_ne_true
  unfold exports
  rw [hends.defined, List.filter_append, filter_isExported ha.defined hw,
    List.filter_cons_of_pos, hhelpers]
  rw [isExported_eq _ (hw.functions _ _ hs), hexported]

end Exports

section Steps

variable {α : Type} {a₁ a₂ a₁' a₂' : Assembler}

structure Mirrors (a₁ a₂ : Assembler) : Prop extends a₁.Alike a₂ where
  typed₁ : a₁.Typed
  typed₂ : a₂.Typed
  furnished₁ : a₁.Furnished
  furnished₂ : a₂.Furnished
  exports : List.Forall₂ (Body.Alike a₁.declarations a₂.declarations) a₁.exports a₂.exports

theorem mirrors_new (name : String) (s₁ s₂ : Settings) : (new name s₁).Mirrors (new name s₂) :=
  ⟨alike_new name s₁ s₂, typed_new name s₁, typed_new name s₂, furnished_new name s₁,
    furnished_new name s₂, .nil⟩

structure Grows (a a' : Assembler) : Prop where
  within : a.declarations.Within a'.declarations
  asks : a.declarations.Asks a'.declarations
  defined : a'.defined = a.defined
  opened : a'.stage = .opened

theorem Mirrors.grow (h : a₁.Mirrors a₂) (h' : a₁'.Alike a₂') (ht₁ : a₁'.Typed) (ht₂ : a₂'.Typed)
    (h₁ : a₁.Grows a₁') (h₂ : a₂.Grows a₂') : a₁'.Mirrors a₂' := by
  refine ⟨h', ht₁, ht₂, ?_, ?_, ?_⟩
  · exact h.furnished₁.grow h.typed₁ h.declarations.left h'.declarations.left h₁.within h₁.asks
      h₁.defined h₁.opened
  · exact h.furnished₂.grow h.typed₂ h.declarations.right h'.declarations.right h₂.within h₂.asks
      h₂.defined h₂.opened
  · rw [exports_of_within h.typed₁ h₁.within h₁.defined,
      exports_of_within h.typed₂ h₂.within h₂.defined]
    exact h.exports.imp fun _ _ hb => hb.mono h₁.within h₂.within

theorem grows_beginFunction {name : String} {params : List Param} {result : Option Ty} {u : Unit}
    (h : Succeeds (beginFunction name params result) a u a') : a.Grows a' := by
  obtain ⟨-, rfl⟩ := succeeds_beginFunction.1 h
  exact ⟨⟨.push _ _, fun _ _ h => h⟩, ⟨fun _ _ _ h => .inl h, fun _ h => h⟩, rfl, rfl⟩

/-- At the end of a function its body joins those that are exported. -/
theorem Mirrors.finish (h : a₁.Mirrors a₂) {u₁ u₂ : Unit} (h₁ : Succeeds endFunction a₁ u₁ a₁')
    (h₂ : Succeeds endFunction a₂ u₂ a₂') : a₁'.Mirrors a₂' := by
  have hclosed := alike_endFunction h.toAlike h.typed₁ h.typed₂
  have ht₁ := (typed_endFunction h.typed₁).1
  have ht₂ := (typed_endFunction h.typed₂).1
  rw [show endFunction.run.run a₁ = _ from h₁] at hclosed ht₁
  rw [show endFunction.run.run a₂ = _ from h₂] at hclosed ht₂
  obtain ⟨body₁, b₁, helpers₁, hends₁⟩ := succeeds_endFunction h₁
  obtain ⟨body₂, b₂, helpers₂, hends₂⟩ := succeeds_endFunction h₂
  have hb : b₁.Alike a₁.declarations a₂.declarations b₂ := by
    have hcurrent := h.current?
    rw [hends₁.opened, hends₂.opened] at hcurrent
    cases hcurrent with
    | some hbody =>
        have hreturn := hbody.implicitReturn
        rw [hends₁.finished, hends₂.finished] at hreturn
        cases hreturn with
        | ok hb => exact hb
  obtain ⟨s, he, hs₁, hs₂⟩ := hb.twin
  refine ⟨hclosed, ht₁, ht₂, ?_, ?_, ?_⟩
  · exact h.furnished₁.finish h.typed₁ h.declarations.left hends₁ hs₁ he
  · exact h.furnished₂.finish h.typed₂ h.declarations.right hends₂ hs₂ he
  · rw [exports_finish h.typed₁ h.declarations.left hends₁ hs₁ he,
      exports_finish h.typed₂ h.declarations.right hends₂ hs₂ he]
    have hw {a a' : Assembler} {body b : Body} {helpers : List Body}
        (hends : a.EndsWith body b helpers a') : a.declarations.Within a'.declarations := by
      rw [hends.declarations]
      exact ⟨.refl _, fun _ _ h => h⟩
    exact List.rel_append (h.exports.imp fun _ _ hb => hb.mono (hw hends₁) (hw hends₂))
      (.cons (hb.mono (hw hends₁) (hw hends₂)) .nil)

variable {f : Settings → Settings} {r : Request} {x₁ x₂ : Reply}

/-- A request that both grant keeps the recordings the same. -/
theorem Mirrors.perform (h : a₁.Mirrors a₂) (hr : r.NamesNoHelper)
    (h₁ : Succeeds r.perform a₁ x₁ a₁') (h₂ : Succeeds (r.adjust f).perform a₂ x₂ a₂') :
    a₁'.Mirrors a₂' := by
  have ht₁ := typed_perform h.typed₁ r
  have ht₂ := typed_perform h.typed₂ (r.adjust f)
  rw [show r.perform.run.run a₁ = _ from h₁] at ht₁
  rw [show (r.adjust f).perform.run.run a₂ = _ from h₂] at ht₂
  cases r with
  | settings s =>
      obtain ⟨-, rfl⟩ := succeeds_setSettings.1 (of_succeeds_done h₁)
      obtain ⟨-, rfl⟩ := succeeds_setSettings.1 (of_succeeds_done h₂)
      exact ⟨⟨h.stage, h.body, h.declarations, h.pools⟩, ht₁, ht₂,
        ⟨h.furnished₁.made, h.furnished₁.applies, h.furnished₁.settled⟩,
        ⟨h.furnished₂.made, h.furnished₂.applies, h.furnished₂.settled⟩, h.exports⟩
  | begin name params result =>
      have h₁ := of_succeeds_done h₁
      have h₂ := of_succeeds_done h₂
      have halike := alike_beginFunction h.toAlike hr params result
      rw [show (beginFunction name params result).run.run a₁ = _ from h₁,
        show (beginFunction name params result).run.run a₂ = _ from h₂] at halike
      exact h.grow halike ht₁ ht₂ (grows_beginFunction h₁) (grows_beginFunction h₂)
  | emit c =>
      obtain ⟨body₁, e₁, hs₁, hc₁, rfl⟩ := succeeds_emit h₁
      obtain ⟨body₂, e₂, hs₂, hc₂, rfl⟩ := succeeds_emit h₂
      have hbody : body₁.Alike a₁.declarations a₂.declarations body₂ := by
        have hcurrent := h.current?
        rw [hs₁, hs₂] at hcurrent
        cases hcurrent with
        | some hb => exact hb
      obtain ⟨he, hw₁, hw₂⟩ := alike_perform (c := c) hr ⟨hbody, h.declarations, h.pools⟩ hc₁ hc₂
      have hasks {a : Assembler} {body : Body} {x : Reply} {e : Emitter} (ha : a.Typed)
          (hs : a.current? = some body)
          (hc : Succeeds c.perform ⟨body, a.declarations, a.pools, a.settings⟩ x e) :
          a.declarations.Asks e.declarations := by
        obtain ⟨-, ho, -⟩ := checks_perform c (e := ⟨body, a.declarations, a.pools, a.settings⟩)
          ⟨ha.opened body hs, ha.declarations⟩
        rw [show c.perform.run.run _ = _ from hc] at ho
        exact ho.asks
      exact h.grow ⟨h.stage, .some he.body, he.declarations, he.pools⟩ ht₁ ht₂
        ⟨hw₁, hasks h.typed₁ hs₁ hc₁, rfl, (current?_eq_some_iff.1 hs₁).1⟩
        ⟨hw₂, hasks h.typed₂ hs₂ hc₂, rfl, (current?_eq_some_iff.1 hs₂).1⟩
  | finish =>
      exact h.finish (of_succeeds_done h₁) (of_succeeds_done h₂)

def grants (a : Assembler) : List Request → Bool
  | [] => true
  | r :: rs => (r.perform.run.run a).1.toBool && grants (r.perform.run.run a).2 rs

theorem exists_of_toBool {r : Except Fault α} (h : r.toBool = true) : ∃ x, r = .ok x := by
  cases r with
  | ok x => exact ⟨x, rfl⟩
  | error f => cases h

theorem succeeds_of_toBool {m : Assemble α} (h : (m.run.run a).1.toBool = true) :
    ∃ x, Succeeds m a x (m.run.run a).2 := by
  obtain ⟨x, hx⟩ := exists_of_toBool h
  exact ⟨x, Prod.ext hx rfl⟩

theorem Mirrors.after (h : a₁.Mirrors a₂) {rs : List Request} (hr : ∀ r ∈ rs, r.NamesNoHelper)
    (h₁ : a₁.grants rs) (h₂ : a₂.grants (rs.map (.adjust f))) :
    (a₁.after rs).Mirrors (a₂.after (rs.map (.adjust f))) := by
  induction rs generalizing a₁ a₂ with
  | nil => exact h
  | cons r rs ih =>
      obtain ⟨hr₁, h₁⟩ := Bool.and_eq_true_iff.1 h₁
      obtain ⟨hr₂, h₂⟩ := Bool.and_eq_true_iff.1 h₂
      obtain ⟨x₁, hr₁⟩ := succeeds_of_toBool hr₁
      obtain ⟨x₂, hr₂⟩ := succeeds_of_toBool hr₂
      exact ih (h.perform (hr r (by simp)) hr₁ hr₂) (fun r' hr' => hr r' (List.mem_cons_of_mem r hr'))
        h₁ h₂

end Steps

section Modules

variable {α β : Type} {a a₁ a₂ : Assembler} {x x₁ x₂ : Executable}

theorem find?_rel {R : α → β → Prop} {p : α → Bool} {q : β → Bool} {xs : List α} {ys : List β}
    (h : List.Forall₂ R xs ys) (hpq : ∀ x y, R x y → p x = q y) :
    Option.Rel R (xs.find? p) (ys.find? q) := by
  induction h with
  | nil => exact .none
  | @cons x y xs ys hR _ ih =>
      rw [List.find?_cons, List.find?_cons, hpq x y hR]
      cases q y with
      | true => exact .some hR
      | false => exact ih

/-- A finished module has what has been recorded in it. -/
theorem finalize_eq_ok (h : a.finalize = .ok x) : a.stage ≠ .opened ∧
    x.declarations = a.declarations ∧ x.bodies = a.defined ∧
    x.data = a.declarations.data.map Executable.dataRegion := by
  unfold finalize at h
  by_cases hopen : a.stage = .opened
  · rw [if_pos hopen] at h
    cases h
  rw [if_neg hopen] at h
  cases hname : a.unresolved? with
  | some name =>
      rw [hname] at h
      cases h
  | none =>
  cases hlacks : a.lacksExport with
  | true =>
      rw [hname, hlacks] at h
      cases h
  | false =>
      rw [hname, hlacks] at h
      obtain rfl := Except.ok.inj h
      exact ⟨hopen, rfl, rfl, rfl⟩

theorem exports_eq (h : a.finalize = .ok x) : x.exports = a.exports := by
  obtain ⟨-, hd, hbodies, -⟩ := finalize_eq_ok h
  rw [Executable.exports, hbodies, hd, exports]

theorem exists_helper (h : a.finalize = .ok x) (ha : a.Furnished) {op : Operator} {t : Ty}
    {id : FunctionId} (hid : a.declarations.helpers.find? (op, t) = some id) :
    ∃ b, x.body? id = some b ∧ b.Applies op := by
  obtain ⟨hopen, -, hbodies, -⟩ := finalize_eq_ok h
  have hmade : ∃ b ∈ a.defined, b.id = id := by
    have hmade := ha.made op t id hid
    rw [ha.settled hopen] at hmade
    exact hmade.resolve_left List.not_mem_nil
  obtain ⟨b, hb, hbid⟩ := hmade
  cases hfind : x.body? id with
  | none =>
      have hnot := List.find?_eq_none.1 hfind b (hbodies ▸ hb)
      simp [hbid] at hnot
  | some b' =>
      have hid' : b'.id = id := by simpa using List.find?_some hfind
      have hmem : b' ∈ a.defined := hbodies ▸ List.mem_of_find?_eq_some hfind
      exact ⟨b', rfl, ha.applies b' hmem op t (hid' ▸ hid)⟩

/-- An exported function is found among those that are exported. -/
theorem body?_eq (h : a.finalize = .ok x) {id : FunctionId} {s : Signature}
    (hs : a.declarations.functions[id.index]? = some s) (he : s.exported = true) :
    x.body? id = a.exports.find? (·.id == id) := by
  obtain ⟨-, -, hbodies, -⟩ := finalize_eq_ok h
  rw [Executable.body?, hbodies, exports, List.find?_filter]
  refine congrArg (List.find? · a.defined) (funext fun b => ?_)
  rw [Bool.eq_iff_iff, decide_eq_true_iff, beq_iff_eq, iff_and_self]
  rintro rfl
  rw [isExported_eq _ hs, he]

theorem Mirrors.program (h : a₁.Mirrors a₂) (h₁ : a₁.finalize = .ok x₁)
    (h₂ : a₂.finalize = .ok x₂) (ω : Surroundings) :
    Program.Alike a₁.declarations a₂.declarations (x₁.program ω) (x₂.program ω) := by
  refine ⟨fun _ _ _ => exists_helper h₁ h.furnished₁, fun _ _ _ => exists_helper h₂ h.furnished₂,
    fun id₁ id₂ htwin => ?_, rfl⟩
  obtain ⟨s, he, hs₁, hs₂⟩ := htwin
  change Option.Rel _ (x₁.body? id₁) (x₂.body? id₂)
  rw [body?_eq h₁ hs₁ he, body?_eq h₂ hs₂ he]
  refine find?_rel h.exports fun b₁ b₂ hb => ?_
  obtain ⟨s', -, hs₁', hs₂'⟩ := hb.twin
  rw [Bool.eq_iff_iff, beq_iff_eq, beq_iff_eq]
  constructor
  · rintro rfl
    obtain rfl := Option.some.inj (hs₁.symm.trans hs₁')
    exact congrArg FunctionId.mk (h.declarations.right.distinct _ _ _ _ hs₂' hs₂ rfl)
  · rintro rfl
    obtain rfl := Option.some.inj (hs₂.symm.trans hs₂')
    exact congrArg FunctionId.mk (h.declarations.left.distinct _ _ _ _ hs₁' hs₁ rfl)

theorem Mirrors.data (h : a₁.Mirrors a₂) (h₁ : a₁.finalize = .ok x₁)
    (h₂ : a₂.finalize = .ok x₂) : x₂.data = x₁.data := by
  obtain ⟨-, -, -, hd₁⟩ := finalize_eq_ok h₁
  obtain ⟨-, -, -, hd₂⟩ := finalize_eq_ok h₂
  rw [hd₁, hd₂, h.declarations.data]

/-- Both modules export a function or neither does. -/
theorem Mirrors.exported (h : a₁.Mirrors a₂) (h₁ : a₁.finalize = .ok x₁)
    (h₂ : a₂.finalize = .ok x₂) (name : String) :
    Matches (Body.Alike a₁.declarations a₂.declarations) (x₁.exported name) (x₂.exported name) := by
  have hfind := find?_rel (p := fun b => b.name == name) (q := fun b => b.name == name) h.exports
    fun b₁ b₂ hb => by rw [hb.rest]
  unfold Executable.exported
  rw [exports_eq h₁, exports_eq h₂]
  generalize a₁.exports.find? (·.name == name) = y₁ at hfind
  generalize a₂.exports.find? (·.name == name) = y₂ at hfind
  cases hfind with
  | none => exact .error _
  | some hb => exact .ok hb

/-- The body ends in this way, given these words and this memory. -/
def RunsTo (x : Executable) (ω : Surroundings) (b : Body) (words : List Word) (memory : Memory)
    (o : Outcome) : Prop :=
  Machine.Halts (x.program ω) (.call ω b words [] memory) o

/-- The two bodies end in the same way, whatever they are given: with the same result and the same
memory, or with the same trap. The two modules need not lie at the same addresses and a frame need
not find the same bytes, so it is said twice: surroundings that are the same make the same
difference, and an end that does not depend on which surroundings of some kind there are is the end
of both, each in its own of that kind. -/
structure SameRuns (x₁ x₂ : Executable) (b₁ b₂ : Body) : Prop where
  together : ∀ ω words memory o, RunsTo x₁ ω b₁ words memory o ↔ RunsTo x₂ ω b₂ words memory o
  apart : ∀ (kind : Surroundings → Prop) words memory o,
    (∀ ω, kind ω → RunsTo x₁ ω b₁ words memory o) ↔ ∀ ω, kind ω → RunsTo x₂ ω b₂ words memory o

theorem SameRuns.of_together {b₁ b₂ : Body}
    (h : ∀ ω words memory o, RunsTo x₁ ω b₁ words memory o ↔ RunsTo x₂ ω b₂ words memory o) :
    SameRuns x₁ x₂ b₁ b₂ :=
  ⟨h, fun _ words memory o => forall_congr' fun ω => imp_congr_right fun _ => h ω words memory o⟩

/-- The switches of the settings do not change what a module means. Two recordings of one sequence
of requests that name no helper, granted in full under both settings, make modules with the same
data and the same exported functions, which end alike on all arguments and any memory. And where
the settings agree about source locations, the two recordings answer every call alike. -/
theorem settings_keep_meaning (name : String) (s : Settings) (f : Settings → Settings)
    (requests : List Request) (hr : ∀ r ∈ requests, r.NamesNoHelper) :
    ((new name s).grants requests → (new name (f s)).grants (requests.map (.adjust f)) →
      ∀ x₁ x₂, ((new name s).after requests).finalize = .ok x₁ →
        ((new name (f s)).after (requests.map (.adjust f))).finalize = .ok x₂ →
        x₂.data = x₁.data ∧
          ∀ function, Matches (SameRuns x₁ x₂) (x₁.exported function) (x₂.exported function)) ∧
    ((∀ s, (f s).diagnostics = s.diagnostics) → ∀ c : Call, c.NamesNoHelper →
      ((Request.emit c).perform.run.run
        ((new name (f s)).after (requests.map (.adjust f)))).1 =
      ((Request.emit c).perform.run.run ((new name s).after requests)).1) := by
  refine ⟨fun hg₁ hg₂ x₁ x₂ h₁ h₂ => ?_, fun hf c hc => ?_⟩
  · have h := (mirrors_new name s (f s)).after hr hg₁ hg₂
    refine ⟨h.data h₁ h₂, fun function => ?_⟩
    exact (h.exported h₁ h₂ function).imp fun b₁ b₂ _ _ hb => .of_together
      fun ω words memory o => halts_iff (h.program h₁ h₂ ω) (.call hb words .nil ω memory) o
  · have h : Like (new name s) (new name (f s)) := ⟨alike_new name s (f s), hf s⟩
    have h := like_after h (typed_new name s) (typed_new name (f s)) hf hr
    exact (alike_emit h.toAlike h.diagnostics hc).1

section Double

/-- A function that doubles its argument, by an operator and with a source location. -/
def double : List Request :=
  [.settings { diagnostics := true }, .begin "double" [⟨"x", .f64⟩] (some .f64),
    .emit (.argument "x"), .emit (.location "twice"), .emit (.operator .add ⟨0⟩ ⟨0⟩),
    .emit (.returnValue ⟨1⟩), .finish]

def toggleInline (s : Settings) : Settings := { s with inline := !s.inline }

theorem namesNoHelper_double : ∀ r ∈ double, r.NamesNoHelper := by
  have hname (op : Operator) (t : Ty) : "double" ≠ Declarations.helperName op t := by
    intro h
    have h := congrArg (·.toList.head?) h
    simp [Declarations.helperName, toString] at h
  intro r hr
  simp only [double, List.mem_cons, List.not_mem_nil, or_false] at hr
  rcases hr with rfl | rfl | rfl | rfl | rfl | rfl | rfl
  case inr.inl => exact hname
  all_goals exact trivial

/-- In place or by a helper, doubling is the same. -/
theorem settings_keep_double : ∃ x₁ x₂ b₁ b₂,
    ((new "m").after double).finalize = .ok x₁ ∧
    ((new "m" { inline := false }).after (double.map (.adjust toggleInline))).finalize = .ok x₂ ∧
    x₁.exported "double" = .ok b₁ ∧ x₂.exported "double" = .ok b₂ ∧ SameRuns x₁ x₂ b₁ b₂ ∧
    ((Request.emit (.dataAddress ⟨0⟩)).perform.run.run
        ((new "m" { inline := false }).after (double.map (.adjust toggleInline)))).1 =
      ((Request.emit (.dataAddress ⟨0⟩)).perform.run.run ((new "m").after double)).1 := by
  obtain ⟨hsame, hanswer⟩ := settings_keep_meaning "m" {} toggleInline double namesNoHelper_double
  obtain ⟨b₁, hb₁⟩ := exists_of_toBool (r := do
    (← ((new "m").after double).finalize).exported "double") (by cbv)
  obtain ⟨b₂, hb₂⟩ := exists_of_toBool (r := do
    (← ((new "m" { inline := false }).after (double.map (.adjust toggleInline))).finalize).exported
      "double") (by cbv)
  obtain ⟨x₁, h₁, hb₁⟩ := bind_eq_ok_iff.1 hb₁
  obtain ⟨x₂, h₂, hb₂⟩ := bind_eq_ok_iff.1 hb₂
  obtain ⟨-, hexported⟩ := hsame (by cbv) (by cbv) x₁ x₂ h₁ h₂
  have hexported := hexported "double"
  rw [hb₁, hb₂] at hexported
  cases hexported with
  | ok hruns =>
      exact ⟨x₁, x₂, b₁, b₂, h₁, h₂, hb₁, hb₂, hruns, hanswer (fun _ => rfl) _ trivial⟩

end Double

end Modules

end Assembler

end Dataflow.Code
