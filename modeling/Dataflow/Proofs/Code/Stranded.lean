import Dataflow.Proofs.Code.Linking

/-!
# Functions that are left without a body

The end of a function closes it, enters its symbol and only then checks and defines its body. When
that fails the function stays declared and has no body, and no later request gives it one. A module
can be finished exactly as long as no symbol is that of such a function.
-/

namespace Dataflow.Code.Assembler

variable {a a' : Assembler} {lost : FunctionId → Prop} {body b : Body} {id : FunctionId}

def Opens (a : Assembler) (id : FunctionId) : Prop := ∃ b, a.current? = some b ∧ b.id = id

/-- The request ends a function that is open, and fails after the function has been closed. -/
def Strands (a : Assembler) (r : Request) (id : FunctionId) : Prop :=
  r = .finish ∧ a.Opens id ∧ ∃ f, (r.perform.run.run a).1 = .error f ∧ ¬ f.IsRefusal

def Stranded (a : Assembler) (id : FunctionId) : List Request → Prop
  | [] => False
  | r :: rs => a.Strands r id ∨ Stranded (r.perform.run.run a).2 id rs

structure Accounts (a : Assembler) (lost : FunctionId → Prop) : Prop where
  typed : a.Typed
  labelled : a.declarations.Labelled
  symbols : a.SlotSymbols
  known : ∀ id ∈ a.declared, ∃ s, a.declarations.functions[id.index]? = some s
  callees : ∀ b ∈ a.defined, b.callees ⊆ a.declared
  helpers : ∀ (id : FunctionId) (s : Signature), a.declarations.functions[id.index]? = some s →
    s.exported = false →
      (∃ r ∈ a.declarations.pending, r.function = id) ∨ a.isDefined id = true
  /-- A body is defined along with the helpers that it calls. -/
  resolved : ∀ b ∈ a.defined, ∀ id ∈ b.callees, ∀ s : Signature,
    a.declarations.functions[id.index]? = some s → s.exported = false → a.isDefined id = true
  exports : ∀ (id : FunctionId) (s : Signature), a.declarations.functions[id.index]? = some s →
    s.exported = true → (a.isDefined id = true ↔ ¬ lost id ∧ ¬ a.Opens id)
  opened : ∀ id, a.Opens id → ¬ lost id ∧
    ∃ s, a.declarations.functions[id.index]? = some s ∧ s.exported = true
  lost : ∀ id, lost id → ∃ s, a.declarations.functions[id.index]? = some s ∧ s.exported = true

theorem not_opens (h : a.stage ≠ .opened) : ¬ a.Opens id := by
  rintro ⟨b, hb, -⟩
  exact h (current?_eq_some_iff.1 hb).1

theorem opens_iff (h : a.current? = some b) : a.Opens id ↔ b.id = id := by
  constructor
  · rintro ⟨b', hb', hid⟩
    exact Option.some.inj (h.symm.trans hb') ▸ hid
  · exact fun hid => ⟨b, h, hid⟩

theorem accounts_new (name : String) (s : Settings) : (new name s).Accounts fun _ => False where
  typed := typed_new name s
  labelled := ⟨fun x hx => absurd hx (Array.not_mem_empty x), fun r hr => by cases hr⟩
  symbols := fun _ h => by cases h
  known := fun _ h => by cases h
  callees := fun _ h => by cases h
  helpers := fun _ _ h => by cases h
  resolved := fun _ h => by cases h
  exports := fun _ _ h => by cases h
  opened := fun _ h => absurd h (not_opens Stage.noConfusion)
  lost := fun _ h => h.elim

theorem Accounts.congr (h : a.Accounts lost) {lost' : FunctionId → Prop}
    (hlost : ∀ id, lost' id ↔ lost id) : a.Accounts lost' := by
  obtain rfl : lost' = lost := funext fun id => propext (hlost id)
  exact h

section Steps

/-- New settings do not matter. -/
theorem Accounts.settings (h : a.Accounts lost) (s : Settings) :
    ((Request.settings s).perform.run.run a).2.Accounts lost := by
  have ht := typed_perform h.typed (.settings s)
  rw [run_settings] at ht ⊢
  rcases setSettings_cases a s with ⟨-, hset⟩ | ⟨-, hset⟩
  · rw [hset] at ht ⊢
    exact ⟨ht, h.labelled, h.symbols, h.known, h.callees, h.helpers, h.resolved, h.exports, h.opened,
      h.lost⟩
  · rw [hset]
    exact h

/-- A function that is begun is new. -/
theorem Accounts.begin (h : a.Accounts lost) (name : String) (params : List Param)
    (result : Option Ty) :
    ((Request.begin name params result).perform.run.run a).2.Accounts lost := by
  have ht := typed_perform h.typed (.begin name params result)
  rw [run_begin] at ht ⊢
  rcases a.beginFunction_cases name params result with ⟨hopen, -, hbegin⟩ | ⟨-, f, hbegin⟩
  swap
  · rw [hbegin]
    exact h
  obtain ⟨body, ps, hid, hbegun⟩ := a.exists_begun name params result
  rw [hbegin, hbegun] at ht ⊢
  have hfresh : ∀ (id : FunctionId) (s : Signature), a.declarations.functions[id.index]? = some s →
      (⟨a.declarations.functions.size⟩ : FunctionId) ≠ id := by
    rintro _ s hs rfl
    simp at hs
  have hold : ∀ (id : FunctionId) (s : Signature),
      (a.declarations.functions.push ⟨name, params.map (·.ty), result, true⟩)[id.index]? = some s →
        a.declarations.functions[id.index]? = some s ∨
          (⟨a.declarations.functions.size⟩ : FunctionId) = id ∧ s.exported = true := by
    intro id s hs
    rcases getElem?_of_push hs with hs | ⟨hid, rfl⟩
    · exact .inl hs
    · exact .inr ⟨congrArg FunctionId.mk hid.symm, rfl⟩
  have hpush : Prefix a.declarations.functions
    (a.declarations.functions.push ⟨name, params.map (·.ty), result, true⟩) := .push _ _
  have hlost : ¬ lost ⟨a.declarations.functions.size⟩ := by
    intro hl
    obtain ⟨s, hs, -⟩ := h.lost _ hl
    exact hfresh _ s hs rfl
  have hundefined : a.isDefined ⟨a.declarations.functions.size⟩ = false := by
    rw [isDefined, List.any_eq_false]
    intro b hb
    obtain ⟨s, hs, -⟩ := (h.typed.defined b hb).declared
    simpa using (hfresh b.id s hs).symm
  refine ⟨ht, ⟨h.labelled.data, fun r hr => ?_⟩, h.symbols, fun id hid => ?_, h.callees,
    fun id s hs he => ?_, fun b hb id hid s hs he => ?_, fun id s hs he => ?_, fun id hopens => ?_,
    fun id hl => ?_⟩
  · obtain ⟨s, hs, hname⟩ := h.labelled.pending r hr
    exact ⟨s, hpush _ _ hs, hname⟩
  · obtain ⟨s, hs⟩ := h.known id hid
    exact ⟨s, hpush _ _ hs⟩
  · rcases hold id s hs with hs | ⟨-, he'⟩
    · exact h.helpers id s hs he
    · rw [he] at he'
      cases he'
  · rcases hold id s hs with hs | ⟨-, he'⟩
    · exact h.resolved b hb id hid s hs he
    · rw [he] at he'
      cases he'
  · rw [opens_iff rfl, hid]
    rcases hold id s hs with hs | ⟨rfl, -⟩
    · have hexports := h.exports id s hs he
      have hclosed : ¬ a.Opens id := not_opens hopen
      exact hexports.trans ⟨fun hl => ⟨hl.1, hfresh id s hs⟩, fun hl => ⟨hl.1, hclosed⟩⟩
    · exact ⟨fun hd => absurd (hundefined.symm.trans hd) Bool.false_ne_true, fun hl => absurd rfl hl.2⟩
  · obtain rfl := hid.symm.trans ((opens_iff rfl).1 hopens)
    exact ⟨hlost, _, Array.getElem?_push_size, rfl⟩
  · obtain ⟨s, hs, he⟩ := h.lost id hl
    exact ⟨s, hpush _ _ hs, he⟩

/-- Calls add helpers, which wait, and data. -/
theorem Accounts.emit (h : a.Accounts lost) (c : Call) :
    ((Request.emit c).perform.run.run a).2.Accounts lost := by
  have ht := typed_perform h.typed (.emit c)
  change ((Assembler.emit c.perform).run.run a).2.Typed at ht
  change ((Assembler.emit c.perform).run.run a).2.Accounts lost
  by_cases hopen : ∃ b, a.current? = some b
  swap
  · rw [run_emit_of_not_opened c.perform fun b hb => hopen ⟨b, hb⟩]
    exact h
  obtain ⟨body, hbody⟩ := hopen
  obtain ⟨hadds, hid⟩ := (Emit.Moves.perform c ⟨body, a.declarations, a.pools, a.settings⟩).adds
  rcases hrun : c.perform.run.run ⟨body, a.declarations, a.pools, a.settings⟩ with ⟨r, e⟩
  rw [hrun] at hadds hid
  rw [run_emit_of_opened hbody hrun] at ht ⊢
  have hopens : ∀ id, Opens { a with
      body := some e.body, declarations := e.declarations, pools := e.pools } id ↔ a.Opens id := by
    intro id
    have hbody' : current? { a with
        body := some e.body, declarations := e.declarations, pools := e.pools } = some e.body :=
      current?_of_body hbody rfl rfl
    rw [opens_iff hbody', opens_iff hbody, hid]
  have hgrow : ∀ id : FunctionId, (∃ s, a.declarations.functions[id.index]? = some s ∧ s.exported = true) →
      ∃ s : Signature, e.declarations.functions[id.index]? = some s ∧ s.exported = true :=
    fun id ⟨s, hs, he⟩ => ⟨s, hadds.functions _ _ hs, he⟩
  refine ⟨ht, hadds.labelled h.labelled, h.symbols, fun id hid => ?_, h.callees,
    fun id s hs he => ?_, fun b hb id hid s hs he => ?_, fun id s hs he => ?_, fun id hid => ?_,
    fun id hl => hgrow id (h.lost id hl)⟩
  · obtain ⟨s, hs⟩ := h.known id hid
    exact ⟨s, hadds.functions _ _ hs⟩
  · rcases hadds.fresh _ s hs with hs | ⟨-, r, hr, hid⟩
    · exact (h.helpers id s hs he).imp_left fun ⟨r, hr, hid⟩ => ⟨r, hadds.pending hr, hid⟩
    · exact .inl ⟨r, hr, hid⟩
  · obtain ⟨s', hs'⟩ := (h.typed.defined b hb).exists_callee hid
    obtain rfl := Option.some.inj ((hadds.functions _ _ hs').symm.trans hs)
    exact h.resolved b hb id hid s' hs' he
  · rw [hopens]
    rcases hadds.fresh _ s hs with hs | ⟨he', -⟩
    · exact h.exports id s hs he
    · rw [he] at he'
      cases he'
  · obtain ⟨hl, hdeclared⟩ := h.opened id ((hopens id).1 hid)
    exact ⟨hl, hgrow id hdeclared⟩

inductive Outcome (a : Assembler) (body : Body) : Except Fault Unit → Assembler → Prop
  | refused (w : Misstep) : a.Outcome body (.error (.sequencing w)) a
  | defined {b : Body} {helpers : List Body} {a' : Assembler} : a.EndsWith body b helpers a' →
      a.Enters a' → b.callees ⊆ a'.declared → a.Outcome body (.ok ()) a'
  | failed {f : Fault} {a' : Assembler} : ¬ f.IsRefusal → a'.stage = .closed →
      a'.declarations = a.declarations → a'.defined = a.defined → a.Enters a' →
      a.Outcome body (.error f) a'

theorem enters_of_succeeds {α : Type} {m : Assemble α} {x : α} (hm : a.Enters (m.run.run a).2)
    (h : Succeeds m a x a') : a.Enters a' := by
  rwa [show m.run.run a = _ from h] at hm

/-- When the end is not refused, it fails in the body of the function itself if it fails at all. -/
theorem Accounts.fails_define (h : a.Accounts lost) (hbody : a.current? = some body)
    (hb : implicitReturn body = .ok b) {f : Fault} (hend : Fails endFunction a f a') :
    Fails (define b) { a with stage := .closed, body := none } f a' := by
  have hrest : Fails (define b >>= fun _ => defineHelpers) { a with stage := .closed, body := none } f a' :=
    (run_endFunction_of_ok hbody hb).symm.trans hend
  rcases fails_bind.1 hrest with hdefine | ⟨_, a₁, hdefine, hhelpers⟩
  · exact hdefine
  · have hentered := enters_of_succeeds (enters_define b) hdefine
    have hd : a₁.declarations = a.declarations := (appends_define hdefine).declarations
    obtain ⟨hdata, -, -⟩ := of_succeeds_define hdefine
    have hends := ends_helpers (hd ▸ h.typed.declarations) (hd ▸ h.labelled) hdata
      (hentered.symbols h.labelled.data h.symbols)
    exact absurd hhelpers hends.not_fails

theorem Accounts.outcome (h : a.Accounts lost) (hbody : a.current? = some body) :
    a.Outcome body (endFunction.run.run a).1 (endFunction.run.run a).2 := by
  cases hb : implicitReturn body with
  | error f =>
      rcases implicitReturn_cases body with ⟨-, hb'⟩ | ⟨-, -, _, -, hb'⟩ | ⟨-, -, labels, hb'⟩
      · cases hb.symm.trans hb'
      · cases hb.symm.trans hb'
      · rw [run_endFunction_of_error hbody hb']
        exact .refused _
  | ok b =>
  rcases succeeds_or_fails endFunction a with ⟨u, hend⟩ | ⟨f, hend⟩
  · have hrest : Succeeds (define b >>= fun _ => defineHelpers) { a with stage := .closed, body := none } u
        (endFunction.run.run a).2 := (run_endFunction_of_ok hbody hb).symm.trans hend
    obtain ⟨_, a₁, hdefine, hhelpers⟩ := succeeds_bind.1 hrest
    have h₁ := (enters_of_succeeds (enters_define b) hdefine).of_closed
    have h₂ := enters_of_succeeds enters_defineHelpers hhelpers
    obtain ⟨-, -, hcallees⟩ := of_succeeds_define hdefine
    obtain ⟨body', b', helpers, hends⟩ := succeeds_endFunction hend
    obtain rfl := Option.some.inj (hends.opened.symm.trans hbody)
    obtain rfl := Except.ok.inj (hends.finished.symm.trans hb)
    rw [congrArg Prod.fst hend]
    exact .defined hends (h₁.trans h₂) (List.Subset.trans hcallees h₂.declared)
  · have hdefine := h.fails_define hbody hb hend
    obtain ⟨hregisters, -⟩ := of_fails_define hdefine
    have henters := enters_define (a := { a with stage := .closed, body := none }) b
    rw [congrArg Prod.snd hdefine] at henters
    rw [congrArg Prod.fst hend]
    refine .failed (not_isRefusal_of_define hdefine (closed_of_implicitReturn hb)) ?_ ?_ ?_
      henters.of_closed
    all_goals rw [hregisters]

theorem isDefined_iff : a.isDefined id = true ↔ ∃ b ∈ a.defined, b.id = id := by
  simp [isDefined]

/-- Symbols that have been entered are known. -/
theorem Accounts.known_of_enters (h : a.Accounts lost) (henters : a.Enters a') :
    ∀ id ∈ a'.declared, ∃ s, a'.declarations.functions[id.index]? = some s := by
  intro id hid
  rw [henters.functions]
  exact (henters.known id hid).elim (h.known id) fun hs => hs

/-- A function whose end fails is stranded. -/
theorem Accounts.fail (h : a.Accounts lost) (ht : a'.Typed) (hstage : a'.stage = .closed)
    (hdeclarations : a'.declarations = a.declarations) (hdefined : a'.defined = a.defined)
    (henters : a.Enters a') : a'.Accounts fun id => lost id ∨ a.Opens id := by
  have hisDefined : ∀ id, a'.isDefined id = a.isDefined id := fun id => by
    rw [isDefined, hdefined, isDefined]
  have hclosed : ∀ id, ¬ a'.Opens id := fun id => not_opens (by rw [hstage]; exact Stage.noConfusion)
  refine ⟨ht, hdeclarations ▸ h.labelled, henters.symbols h.labelled.data h.symbols,
    h.known_of_enters henters, fun b hb => ?_, fun id s hs he => ?_, fun b hb id hid s hs he => ?_,
    fun id s hs he => ?_, fun id hid => absurd hid (hclosed id), fun id hl => ?_⟩
  · rw [hdefined] at hb
    exact List.Subset.trans (h.callees b hb) henters.declared
  · rw [hdeclarations] at hs ⊢
    rw [hisDefined]
    exact h.helpers id s hs he
  · rw [hdeclarations] at hs
    rw [hdefined] at hb
    rw [hisDefined]
    exact h.resolved b hb id hid s hs he
  · rw [hdeclarations] at hs
    rw [hisDefined, h.exports id s hs he, not_or]
    exact (and_iff_left (hclosed id)).symm
  · rw [hdeclarations]
    exact hl.elim (h.lost id) fun hopens => (h.opened id hopens).2

/-- What is defined at the end of a function is the function and all helpers that are waiting. -/
theorem Accounts.isDefined_endsWith (h : a.Accounts lost) {helpers : List Body}
    (hends : a.EndsWith body b helpers a') (id : FunctionId) : a'.isDefined id = true ↔
      a.isDefined id = true ∨ body.id = id ∨ ∃ r ∈ a.declarations.pending, r.function = id := by
  have hid := (within_of_implicitReturn hends.finished).id
  simp only [isDefined_iff, hends.defined, List.mem_append, List.mem_cons, or_and_right, exists_or,
    exists_eq_left, hid]
  refine or_congr_right (or_congr_right ⟨?_, ?_⟩)
  · rintro ⟨b', hb', rfl⟩
    obtain ⟨r, hr, hid, -⟩ := hends.exists_request h.typed.declarations hb'
    exact ⟨r, hr, hid.symm⟩
  · rintro ⟨r, hr, rfl⟩
    obtain ⟨b', hb', hmade⟩ := forall₂_mem_left hends.made hr
    exact ⟨b', hb', (hmade.isHelper_of_typed (h.typed.declarations.pending r hr)).1⟩

/-- When a function is defined, so are all helpers that are waiting. -/
theorem Accounts.define (h : a.Accounts lost) (ht : a'.Typed) {helpers : List Body}
    (hends : a.EndsWith body b helpers a') (henters : a.Enters a')
    (hcallees : b.callees ⊆ a'.declared) : a'.Accounts lost := by
  have hfunctions : a'.declarations.functions = a.declarations.functions := henters.functions
  have hclosed : ∀ id, ¬ a'.Opens id := fun id => not_opens (by rw [hends.stage]; exact Stage.noConfusion)
  have hhelpers : ∀ (id : FunctionId) (s : Signature),
      a.declarations.functions[id.index]? = some s → s.exported = false → a'.isDefined id = true := by
    intro id s hs he
    rw [h.isDefined_endsWith hends]
    rcases h.helpers id s hs he with hr | hd
    · exact .inr (.inr hr)
    · exact .inl hd
  refine ⟨ht, ⟨?_, fun r hr => ?_⟩, henters.symbols h.labelled.data h.symbols,
    h.known_of_enters henters, fun b' hb' => ?_, fun id s hs he => ?_,
    fun b' hb' id hid s hs he => ?_, fun id s hs he => ?_, fun id hid => absurd hid (hclosed id),
    fun id hl => ?_⟩
  · rw [hends.declarations]
    exact h.labelled.data
  · rw [hends.declarations] at hr
    cases hr
  · rw [hends.defined, List.mem_append, List.mem_cons] at hb'
    rcases hb' with hb' | rfl | hb'
    · exact List.Subset.trans (h.callees b' hb') henters.declared
    · exact hcallees
    · obtain ⟨r, -, -, hhelper⟩ := hends.exists_request h.typed.declarations hb'
      rw [hhelper.callees]
      exact List.nil_subset _
  · rw [hfunctions] at hs
    exact .inr (hhelpers id s hs he)
  · rw [hfunctions] at hs
    exact hhelpers id s hs he
  · rw [hfunctions] at hs
    rw [h.isDefined_endsWith hends, h.exports id s hs he, opens_iff hends.opened]
    constructor
    · rintro (⟨hl, -⟩ | rfl | ⟨r, hr, rfl⟩)
      · exact ⟨hl, hclosed id⟩
      · exact ⟨(h.opened _ ((opens_iff hends.opened).2 rfl)).1, hclosed _⟩
      · obtain ⟨s', hs', -, he'⟩ := h.labelled.pending r hr
        obtain rfl := Option.some.inj (hs.symm.trans hs')
        rw [he'] at he
        cases he
    · rintro ⟨hl, -⟩
      by_cases hid : body.id = id
      · exact .inr (.inl hid)
      · exact .inl ⟨hl, hid⟩
  · rw [hfunctions]
    exact h.lost id hl

theorem Accounts.finish (h : a.Accounts lost) :
    (Request.finish.perform.run.run a).2.Accounts fun id => lost id ∨ a.Strands .finish id := by
  have ht := typed_perform h.typed .finish
  have hanswer : ∀ f, ((fun _ => Reply.done) <$> (endFunction.run.run a).1 : Except Fault Reply) =
      .error f ↔ (endFunction.run.run a).1 = .error f := by
    intro f
    cases (endFunction.run.run a).1 with
    | ok u => exact ⟨fun h => (by cases h), fun h => (by cases h)⟩
    | error f' => exact ⟨fun h => congrArg _ (Except.error.inj h), fun h => congrArg _ (Except.error.inj h)⟩
  unfold Strands
  rw [run_finish] at ht ⊢
  simp only [hanswer, true_and]
  by_cases hopen : ∃ b, a.current? = some b
  swap
  · rw [run_endFunction_of_not_opened fun b hb => hopen ⟨b, hb⟩]
    refine h.congr fun id => or_iff_left ?_
    rintro ⟨⟨b, hb, -⟩, -⟩
    exact hopen ⟨b, hb⟩
  obtain ⟨body, hbody⟩ := hopen
  have houtcome := h.outcome hbody
  revert ht
  generalize (endFunction.run.run a).1 = r, (endFunction.run.run a).2 = a' at houtcome
  intro ht
  cases houtcome with
  | refused w =>
      refine h.congr fun id => or_iff_left ?_
      rintro ⟨-, f, hf, hrefusal⟩
      obtain rfl := Except.error.inj hf
      exact hrefusal trivial
  | defined hends henters hcallees =>
      refine (h.define ht hends henters hcallees).congr fun id => or_iff_left ?_
      rintro ⟨-, f, hf, -⟩
      cases hf
  | failed hf hstage hdeclarations hdefined henters =>
      refine (h.fail ht hstage hdeclarations hdefined henters).congr fun id => or_congr_right ?_
      exact and_iff_left ⟨_, rfl, hf⟩

theorem Accounts.perform (h : a.Accounts lost) (r : Request) :
    (r.perform.run.run a).2.Accounts fun id => lost id ∨ a.Strands r id := by
  cases r with
  | settings s => exact (h.settings s).congr fun id => or_iff_left fun h => by cases h.1
  | begin name params result =>
      exact (h.begin name params result).congr fun id => or_iff_left fun h => by cases h.1
  | emit c => exact (h.emit c).congr fun id => or_iff_left fun h => by cases h.1
  | finish => exact h.finish

theorem Accounts.after (h : a.Accounts lost) (rs : List Request) :
    (a.after rs).Accounts fun id => lost id ∨ a.Stranded id rs := by
  induction rs generalizing a lost with
  | nil => exact h.congr fun id => or_iff_left fun h => h
  | cons r rs ih => exact (ih (h.perform r)).congr fun id => (or_assoc).symm

end Steps

section Finishing

/-- A module outside of functions can be finished if all that it calls and all that it exports is
defined. There is nothing else that it can fail for. -/
theorem exists_finalize_iff (hclosed : a.stage ≠ .opened) :
    ((∃ x, a.finalize = .ok x) ↔ a.unresolved? = none ∧ a.lacksExport = false) ∧
      ∀ f, a.finalize = .error f → ∃ w, f = .breach w := by
  unfold Assembler.finalize
  rw [if_neg hclosed]
  cases hname : a.unresolved? with
  | some name =>
      refine ⟨⟨fun ⟨x, hx⟩ => (by cases hx), fun h => (by cases h.1)⟩, fun f hf => ?_⟩
      cases hf
      exact ⟨_, rfl⟩
  | none =>
      cases hlacks : a.lacksExport with
      | true =>
          refine ⟨⟨fun ⟨x, hx⟩ => (by cases hx), fun h => (by cases h.2)⟩, fun f hf => ?_⟩
          cases hf
          exact ⟨_, rfl⟩
      | false => exact ⟨⟨fun _ => ⟨rfl, rfl⟩, fun _ => ⟨_, rfl⟩⟩, fun f hf => by cases hf⟩

theorem Accounts.isDefined_iff (h : a.Accounts lost) (hclosed : a.stage ≠ .opened)
    {s : Signature} (hs : a.declarations.functions[id.index]? = some s) (he : s.exported = true) :
    a.isDefined id = true ↔ ¬ lost id :=
  (h.exports id s hs he).trans (and_iff_left (not_opens hclosed))

/-- If no function with a symbol is stranded, then all that is called is defined. -/
theorem Accounts.unresolved?_eq_none (h : a.Accounts lost) (hclosed : a.stage ≠ .opened)
    (hlost : ∀ id ∈ a.declared, ¬ lost id) : a.unresolved? = none := by
  have hall : ∀ id ∈ a.defined.flatMap Body.callees, a.isDefined id = true := by
    intro id hid
    obtain ⟨b, hb, hid⟩ := List.mem_flatMap.1 hid
    obtain ⟨s, hs⟩ := (h.typed.defined b hb).exists_callee hid
    cases he : s.exported with
    | true => exact (h.isDefined_iff hclosed hs he).2 (hlost id (h.callees b hb hid))
    | false => exact h.resolved b hb id hid s hs he
  rw [unresolved?, List.find?_eq_none.2 fun id hid => by simp [hall id hid]]
  rfl

theorem Accounts.lacksExport_eq_false_iff (h : a.Accounts lost) (hclosed : a.stage ≠ .opened) :
    a.lacksExport = false ↔ ∀ id ∈ a.declared, ¬ lost id := by
  rw [lacksExport, List.any_eq_false]
  refine forall₂_congr fun id hid => ?_
  obtain ⟨s, hs⟩ := h.known id hid
  rw [hs]
  cases he : s.exported with
  | true => simp [he, ← h.isDefined_iff hclosed hs he]
  | false =>
      simp only [Option.map_some, Option.getD_some, he, Bool.and_false, Bool.false_eq_true,
        not_false_eq_true, true_iff]
      intro hl
      obtain ⟨s', hs', he'⟩ := h.lost id hl
      obtain rfl := Option.some.inj (hs.symm.trans hs')
      rw [he] at he'
      cases he'

/-- Whatever has been requested of a module, while no function is open: an exported function that has
a symbol is defined unless it has been stranded, and the module can be finished if no function that
has a symbol has been. If one has, finishing the module breaks its contract. -/
theorem finalize_of_recording (name : String) (settings : Settings) (requests : List Request)
    (hclosed : ((new name settings).after requests).stage ≠ .opened) :
    (∀ id ∈ ((new name settings).after requests).declared, ∀ s,
      ((new name settings).after requests).declarations.function id = .ok s → s.exported = true →
        (((new name settings).after requests).isDefined id = true ↔
          ¬ (new name settings).Stranded id requests)) ∧
    ((∃ x, ((new name settings).after requests).finalize = .ok x) ↔
      ∀ id ∈ ((new name settings).after requests).declared,
        ¬ (new name settings).Stranded id requests) ∧
    ∀ f, ((new name settings).after requests).finalize = .error f → ∃ w, f = .breach w := by
  have h := (accounts_new name settings).after requests
  simp only [false_or] at h
  obtain ⟨hiff, hbreach⟩ := exists_finalize_iff hclosed
  refine ⟨fun id _ s hs he => ?_, ?_, hbreach⟩
  · exact h.isDefined_iff hclosed (Declarations.function_eq_ok_iff.1 hs) he
  · rw [hiff, h.lacksExport_eq_false_iff hclosed]
    exact and_iff_right_of_imp (h.unresolved?_eq_none hclosed)

/-- A function whose blocks are laid out in another order than they run in, so that a value is used
before it is defined. -/
def outOfOrder : List Request :=
  [.begin "f" [] none, .emit (.createBlock "late"), .emit (.createBlock "early"),
    .emit (.jump ⟨2⟩), .emit (.switchTo ⟨1⟩), .emit (.switchTo ⟨2⟩), .emit (.literal (.i32 1)),
    .emit (.jump ⟨1⟩), .emit (.switchTo ⟨1⟩), .emit (.localVar ⟨0⟩), .emit .returnVoid, .finish]

/-- No function is open after it, and yet finishing breaks the contract: the one function is exported
and has no body. -/
theorem breach_outOfOrder : ((new "m").after outOfOrder).stage ≠ .opened ∧
    ⟨0⟩ ∈ ((new "m").after outOfOrder).declared ∧
    ((new "m").after outOfOrder).declarations.function ⟨0⟩ = .ok ⟨"f", [], none, true⟩ ∧
    ((new "m").after outOfOrder).isDefined ⟨0⟩ = false ∧
    ((new "m").after outOfOrder).listing.functions = [] ∧
    ((new "m").after outOfOrder).finalize = .error (.breach .undefinedExport) := by
  have hstage : ((new "m").after outOfOrder).stage = .closed := by cbv
  refine ⟨by simp [hstage], ?_, by cbv, by cbv, by cbv, by cbv⟩
  simp [show ((new "m").after outOfOrder).declared = [⟨0⟩] by cbv]

/-- The next function is defined all the same, and the first one is stranded. -/
theorem stranded_outOfOrder :
    ((new "m").after (outOfOrder ++ [.begin "g" [] none, .finish])).stage ≠ .opened ∧
    (new "m").Stranded ⟨0⟩ (outOfOrder ++ [.begin "g" [] none, .finish]) ∧
    ¬ (new "m").Stranded ⟨1⟩ (outOfOrder ++ [.begin "g" [] none, .finish]) ∧
    ¬ ∃ x, ((new "m").after (outOfOrder ++ [.begin "g" [] none, .finish])).finalize = .ok x := by
  have hstage : ((new "m").after
      (outOfOrder ++ [.begin "g" [] none, .finish])).stage = .closed := by cbv
  have hclosed : ((new "m").after
      (outOfOrder ++ [.begin "g" [] none, .finish])).stage ≠ .opened := by simp [hstage]
  have hdeclared : ((new "m").after
      (outOfOrder ++ [.begin "g" [] none, .finish])).declared = [⟨0⟩, ⟨1⟩] := by cbv
  obtain ⟨hdefined, hfinal, -⟩ := finalize_of_recording "m" {} _ hclosed
  rw [hdeclared] at hdefined hfinal
  have hfirst := hdefined ⟨0⟩ (by simp) ⟨"f", [], none, true⟩ (by cbv) rfl
  have hsecond := hdefined ⟨1⟩ (by simp) ⟨"g", [], none, true⟩ (by cbv) rfl
  have hundefined : ((new "m").after
      (outOfOrder ++ [.begin "g" [] none, .finish])).isDefined ⟨0⟩ = false := by cbv
  have hstranded : (new "m").Stranded ⟨0⟩ (outOfOrder ++ [.begin "g" [] none, .finish]) :=
    not_not.1 fun h => Bool.false_ne_true (hundefined.symm.trans (hfirst.2 h))
  exact ⟨hclosed, hstranded, hsecond.1 (by cbv), fun h => hfinal.1 h ⟨0⟩ (by simp) hstranded⟩

end Finishing

end Dataflow.Code.Assembler
