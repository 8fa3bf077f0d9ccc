import Dataflow.Proofs.Code.Conclusion
import Dataflow.Proofs.Lower.Compiled
import Dataflow.Proofs.Lower.Sequence

/-!
# Transforms that can be compiled

A transform whose needed nodes can be lowered can be compiled: the output can be copied, the function
can be ended, and the module can be finished. Conversely, a transform that has been compiled has had
all its needed nodes lowered. So it can be compiled unless a needed node has no elements and there is
something that they would be computed from. Whether it can be run does not matter.
-/

namespace Dataflow

open Code (Assembler Body CountedLoop Emit Emitter Settings Ty ValueId)

namespace Lower

structure Given (e : Emitter) (v : ValueId) (t : Ty) : Prop where
  lt : v.index < e.body.args.length
  type : e.typing.Has v t

section Copy

variable {s : LowerState} {e : Emitter} {out : ValueId} {sp : Span} {spans : List Span}
  {offset k : Nat} {settings : Settings} {t : Ty}

theorem Given.sees (h : Given e out t) : e.Sees out t := ⟨h.type, Or.inl h.lt⟩

theorem Given.grows {e' : Emitter} (h : Given e out t) (hg : e.Grows e') : Given e' out t :=
  ⟨hg.body.args ▸ h.lt, hg.body.valueTypes _ _ h.type⟩

theorem index_mul_size_lt {n : Nat} (hn : n < 2 ^ 28) (t : Ty) : n * t.size < 2 ^ 31 :=
  (Nat.mul_le_mul_left n t.size_le).trans_lt (by omega)

theorem ends_copyFixed (hs : s.Able) (hout : Given s.emitter out .ptr)
    (hport : ∃ st, s.storage.find? sp.port = some st) (hstart : sp.start + k < 2 ^ 28)
    (hoffset : offset + k < 2 ^ 28) :
    Ends (copyFixed s.storage out sp offset k) s.emitter fun _ e => s.emitter.Proceeds e := by
  obtain ⟨st, hst⟩ := hport
  refine (ends_address hs hst).bind fun source e₁ ⟨h₁, hsource⟩ => ?_
  refine (Emit.ends_load h₁.proper hsource (index_mul_size_lt hstart _)).bind
    fun value e₂ ⟨h₂, hvalue⟩ => ?_
  have h₁₂ := h₁.trans h₂
  exact (Emit.ends_store h₂.proper (hout.sees.mono h₁₂.toStraight) hvalue
    (index_mul_size_lt hoffset _)).imp fun _ e₃ h₃ => h₁₂.trans h₃

/-- A span that has storage can be copied to the output, in a loop or not. -/
theorem ends_copySpan (hs : s.Able) (hlevel : s.emitter.body.Level)
    (hout : Given s.emitter out .ptr) (hport : ∃ st, s.storage.find? sp.port = some st)
    (hstop : sp.stop ≤ 2 ^ 28) (hoffset : offset + sp.length ≤ 2 ^ 28) :
    Ends (copySpan settings s.storage out sp offset) s.emitter fun _ e =>
      e.Proper ∧ s.emitter.Grows e ∧ e.body.Level := by
  have hstop : sp.start + sp.length ≤ 2 ^ 28 := hstop
  unfold copySpan
  dsimp only
  split
  · refine (Ends.forM (I := fun e => s.emitter.Proceeds e) (.refl hs.proper) fun i hi e he => ?_).imp
      fun _ e he => ⟨he.proper, he.toGrows, he.toStraight.level hs.proper.tidy hlevel⟩
    have hi := List.mem_range.1 hi
    exact (ends_copyFixed (s := { s with emitter := e }) (hs.proceeds he) (hout.grows he.toGrows)
      hport (by omega) (by omega)).imp fun _ _ h => he.trans h
  · obtain ⟨st, hst⟩ := hport
    refine .refuse (by omega) ?_
    refine (CountedLoop.ends_begin hs.proper hlevel _).bind
      fun _ e₁ ⟨p, hp, he₁, hgrows, hopened⟩ => ?_
    subst hp
    refine (CountedLoop.ends_counter he₁ hopened).bind fun i e₂ ⟨h₂, hi⟩ => ?_
    have hgrows₂ := hgrows.trans h₂.toGrows
    have hs₂ : LowerState.Able { s with emitter := e₂ } :=
      hs.of_grows hgrows₂ h₂.proper (hs.orderly.of_grows hgrows₂ fun _ _ hb => hb) fun _ _ hst _ => hst
    have hout₂ := (hout.grows hgrows₂).sees
    refine (ends_address (s := { s with emitter := e₂ }) hs₂ hst).bind
      fun source e₃ ⟨h₃, hsource⟩ => ?_
    refine (ends_moved h₃.proper (hi.mono h₃.toStraight) (by omega)).bind fun x e₄ ⟨h₄, hx⟩ => ?_
    refine (Emit.ends_loadDynamic h₄.proper (hsource.mono h₄.toStraight) hx).bind
      fun value e₅ ⟨h₅, hvalue⟩ => ?_
    have h₃₅ := h₃.trans (h₄.trans h₅)
    refine (ends_moved h₅.proper (hi.mono h₃₅.toStraight) (by omega)).bind fun y e₆ ⟨h₆, hy⟩ => ?_
    have h₃₆ := h₃₅.trans h₆
    refine (Emit.ends_storeDynamic h₆.proper (hout₂.mono h₃₆.toStraight) hy
      (hvalue.mono h₆.toStraight)).bind fun _ e₇ h₇ => ?_
    have h₃₇ := h₃₆.trans h₇
    have hopened₇ := (hopened.proceeds he₁ h₂).proceeds h₂.proper h₃₇
    refine (CountedLoop.ends_finish h₇.proper hopened₇).bind
      fun _ e₈ ⟨he₈, hgrows₈, hlevel₈⟩ => .pure ⟨he₈, ?_, hlevel₈⟩
    exact hgrows₂.trans (h₃₇.toGrows.trans hgrows₈)

theorem ends_copySpans (hs : s.Able) (hlevel : s.emitter.body.Level)
    (hout : Given s.emitter out .ptr)
    (hports : ∀ sp ∈ spans, ∃ st, s.storage.find? sp.port = some st)
    (hstop : ∀ sp ∈ spans, sp.stop ≤ 2 ^ 28)
    (hsize : offset + Selection.size ⟨spans⟩ ≤ 2 ^ 28) :
    Ends (copySpans settings s.storage out spans offset) s.emitter fun _ e =>
      e.Proper ∧ s.emitter.Grows e ∧ e.body.Level := by
  induction spans generalizing s offset with
  | nil => exact .pure ⟨hs.proper, .refl _, hlevel⟩
  | cons sp spans ih =>
      have hsize : offset + (sp.length + Selection.size ⟨spans⟩) ≤ 2 ^ 28 := hsize
      refine (ends_copySpan hs hlevel hout (hports sp List.mem_cons_self) (hstop sp List.mem_cons_self)
        (by omega)).bind fun _ e₁ ⟨he₁, hgrows, hlevel₁⟩ => ?_
      have hs₁ : LowerState.Able { s with emitter := e₁ } :=
        hs.of_grows hgrows he₁ (hs.orderly.of_grows hgrows fun _ _ hb => hb) fun _ _ hst _ => hst
      refine (ih (s := { s with emitter := e₁ }) hs₁ hlevel₁ (hout.grows hgrows)
        (fun sp hsp => hports sp (List.mem_cons_of_mem _ hsp))
        (fun sp hsp => hstop sp (List.mem_cons_of_mem _ hsp)) (by omega)).imp
        fun _ e₂ ⟨he₂, hgrows₂, hlevel₂⟩ => ⟨he₂, hgrows.trans hgrows₂, hlevel₂⟩

/-- Where the code ends, a function without a result can return. -/
theorem ends_returnVoid (he : e.Proper) (hlevel : e.body.Level) (hresult : e.body.result = none) :
    Ends Emit.returnVoid e fun _ e' => ∃ b, e' = { e with body := b } ∧ b.id = e.body.id ∧
      b.name = e.body.name ∧ b.Typed e.declarations ∧ b.Complete e.body.valueTypes.size ∧
      b.valueTypes = e.body.valueTypes := by
  obtain ⟨b, hb, hordered⟩ := he.lined.exists_terminate (t := .ret none) (by simp [Code.Terminator.uses])
    (by simp [Code.Terminator.targets])
  have hm : Succeeds Emit.returnVoid e () { e with body := b } := by
    refine succeeds_bind.2 ⟨_, _, Emit.succeeds_body.2 ⟨rfl, rfl⟩, ?_⟩
    rw [hresult]
    exact Emit.succeeds_terminate.2 ⟨b, hb, rfl⟩
  have htyped := (Emit.checks_returnVoid.of_succeeds he.typed hm).1
  have hcomplete := he.lined.complete hlevel hb hordered
  obtain ⟨-, rfl⟩ := Body.terminate_eq_ok_iff.1 hb
  exact ⟨(), _, hm, _, rfl, rfl, rfl, htyped.body, hcomplete, rfl⟩

end Copy

structure Plan.Unclaimed (plan : Plan) : Prop where
  helper : ∀ op t, plan.function ≠ Code.Declarations.helperName op t
  datum : ∀ i, plan.function ≠ Code.Slot.name ⟨.literal, i⟩

structure Opens (plan : Plan) (a : Assembler) (e : Emitter) : Prop extends Opening plan e where
  begins : Succeeds (Assembler.beginFunction plan.function
    [⟨"input", .ptr⟩, ⟨"output", .ptr⟩] none) (Assembler.new plan.module plan.settings) () a
  emits : Emits a e
  symbols : a.symbols = ∅
  proper : e.Proper
  level : e.body.Level

section Opening

variable {plan : Plan} {a : Assembler} {e : Emitter}

theorem Plan.unclaimed_predict (h : plan.function = "predict") : plan.Unclaimed where
  helper op t hname := by
    have hfirst := Code.Declarations.head?_helperName op t
    rw [← hname, h] at hfirst
    exact absurd hfirst (by decide)
  datum i hname := by
    have hfirst := Code.Slot.head?_name_literal i
    rw [← hname, h] at hfirst
    exact absurd hfirst (by decide)

/-- In a new module a function can be opened, and code can be emitted into it. -/
theorem exists_opens (hplan : plan.Unclaimed) : ∃ a e, Opens plan a e := by
  have hfind : (Assembler.new plan.module plan.settings).declarations.find? plan.function = none := by
    simp [Code.Declarations.find?, Assembler.new]
  have hbegin : Succeeds (Assembler.beginFunction plan.function
      [⟨"input", .ptr⟩, ⟨"output", .ptr⟩] none) (Assembler.new plan.module plan.settings) () _ :=
    Assembler.beginFunction_of_new Code.Stage.noConfusion hfind
  obtain ⟨e, ha, he⟩ := exists_opening hbegin
  have htyped := Assembler.typed_begun (Assembler.typed_new plan.module plan.settings) plan.function
    [⟨"input", .ptr⟩, ⟨"output", .ptr⟩] none
  have hbody : e.body = _ := (Option.some.inj ha.opened).symm
  have hdeclarations : e.declarations = _ := ha.declarations.symm
  have hpools : e.pools = _ := ha.pools.symm
  have hargs : e.body.args = (List.range e.body.valueTypes.size).map ValueId.mk := by
    rw [he.args, he.types]
    rfl
  obtain ⟨hlined, hlevel⟩ := Body.lined_of_entry (b := e.body) (by rw [hbody]; rfl) hargs
    (by rw [hbody]; rfl) he.current
  have hfunctions : e.declarations.functions = #[⟨plan.function, [.ptr, .ptr], none, true⟩] := by
    rw [hdeclarations]
    rfl
  have hdata : e.declarations.data = #[] := by
    rw [hdeclarations]
    rfl
  have hregular : e.declarations.Regular := by
    rw [hdeclarations]
    exact Assembler.regular_empty.declare hfind hplan.helper rfl
  refine ⟨_, e, he, hbegin, ha, rfl, ⟨⟨?_, ?_⟩, he.tidy, he.sound, hregular, hlined, fun s hs _ => ?_,
    ⟨_, he.function, rfl, ?_⟩, ?_, ?_, ?_, ?_⟩, hlevel⟩
  · exact ha.declarations ▸ htyped.opened _ ha.opened
  · exact ha.declarations ▸ htyped.declarations
  · rw [hfunctions] at hs ⊢
    rw [Array.mem_singleton.1 hs]
    rfl
  · rw [hbody]
    rfl
  · rw [hdata, hpools]
    rfl
  · rw [hdata]
    exact fun _ d hd => absurd (Array.mem_of_getElem? hd) (Array.not_mem_empty d)
  · rw [hpools]
    exact ⟨List.nodup_nil, fun _ h => by cases h⟩
  · rw [hpools]
    rfl

end Opening

structure Completed (plan : Plan) (a : Assembler) (b : Body) : Prop where
  opened : a.current? = some b
  defined : a.defined = []
  registered : a.Registered
  sound : a.declarations.Sound
  regular : a.declarations.Regular
  declarations : a.declarations.Typed
  typed : b.Typed a.declarations
  complete : b.Complete b.valueTypes.size
  id : b.id = ⟨0⟩
  name : b.name = plan.function
  single : ∀ s ∈ a.declarations.functions, s.exported = true →
    a.declarations.functions[0]? = some s
  entry : ∃ s, a.declarations.functions[0]? = some s ∧ s.exported = true

section Body

variable {t : Transform} {plan : Plan} {log : List Key} {kind : Key → Builtin} {order : List Key}
  {a a' : Assembler} {p : Progress} {r r' : Assembler × Progress} {e : Emitter} {b : Body}
  {s : Selection} {state : LowerState} {u : Unit} {kept : List Port}

/-- A complete function can be ended, and its module finished. -/
theorem Completed.ends_endFunction (h : Completed plan a b) : Ends Assembler.endFunction a
    fun _ a' => ∃ x, a'.finalize = .ok x ∧ x.exported plan.function = .ok b := by
  obtain ⟨s, hentry, hexported⟩ := h.entry
  refine (Assembler.ends_endFunction h.opened h.registered h.declarations h.typed h.complete
    (Nat.le_refl _)).imp fun _ a' ⟨helpers, hends⟩ => ?_
  rw [← h.name]
  exact Assembler.exists_finalize hends h.defined h.sound h.regular h.typed h.id h.single hentry
    hexported

theorem Opens.ends_arguments (ho : Opens plan a e) (hr : Drafts r state)
    (hstate : state.emitter = e) :
    Ends (emitting (Emit.argument "input")) r (fun v r' => v = ⟨0⟩ ∧ Drafts r' state) ∧
      Ends (emitting (Emit.argument "output")) r fun v r' => v = ⟨1⟩ ∧ Drafts r' state := by
  subst hstate
  constructor
  · refine (ends_emitting (Q := fun v e' => v = ⟨0⟩ ∧ e' = state.emitter) hr
      ⟨_, _, (succeeds_arguments ho.toOpening).1.2 ⟨rfl, rfl⟩, rfl, rfl⟩ fun _ _ h => h.2 ▸ rfl).imp ?_
    rintro _ _ ⟨_, ⟨rfl, rfl⟩, hr'⟩
    exact ⟨rfl, hr'⟩
  · refine (ends_emitting (Q := fun v e' => v = ⟨1⟩ ∧ e' = state.emitter) hr
      ⟨_, _, (succeeds_arguments ho.toOpening).2.2 ⟨rfl, rfl⟩, rfl, rfl⟩ fun _ _ h => h.2 ▸ rfl).imp ?_
    rintro _ _ ⟨_, ⟨rfl, rfl⟩, hr'⟩
    exact ⟨rfl, hr'⟩

/-- Before the first node only the input has storage. -/
theorem Opens.poised (ho : Opens plan a e) (hin : (kind t.input).isInput = true)
    (hr : Drafts r (start t e)) : Poised t.graph kind t.input kept e [] order r (start t e) := by
  have harranged : Arranged kind t.input order (start t e) := arranged_start ho.tidy hin
  have hstorage : ∀ q st, (start t e).storage.find? q = some st → st = .argument ⟨0⟩ := by
    intro q st hst
    rw [find?_start] at hst
    split at hst
    · exact (Option.some.inj hst).symm
    · cases hst
  refine ⟨hr, ⟨ho.proper, harranged.orderly, fun q v hv => ?_, fun q id hid => ?_⟩, ho.level, .refl _,
    harranged.argument, harranged.vacant, fun _ hk => absurd hk List.not_mem_nil⟩
  · obtain rfl := Storage.argument.inj (hstorage q _ hv)
    refine ⟨?_, ?_⟩
    · change 0 < e.body.args.length
      rw [ho.args]
      exact Nat.succ_pos _
    · change e.body.valueTypes[0]? = _
      rw [ho.types]
      rfl
  · cases hstorage q _ hid

/-- The outlets that the output selects have kept their storage, and their indices are small. -/
theorem Poised.selected (h : Poised t.graph kind t.input (s.spans.map (·.port)) e order [] r state)
    (hg : t.graph.Lowerable log kind t.input order) (hout : t.graph.FitsAll s)
    (hneeded : ∀ sp ∈ s.spans, sp.port.node ∈ order) : ∀ sp ∈ s.spans,
      (∃ st, state.storage.find? sp.port = some st) ∧ sp.stop ≤ 2 ^ 28 := by
  intro sp hsp
  obtain ⟨o, ho, hsize, -, hstop, -⟩ := hout.2 sp hsp
  have hindex := (Graph.outlet_eq_ok_of_built hg.built ho).1
  have heq : sp.port = ⟨sp.port.node, 0⟩ := congrArg (Port.mk sp.port.node) hindex
  obtain ⟨st, hst⟩ := h.stored _ (hneeded sp hsp) (Or.inl (heq ▸ List.mem_map_of_mem hsp))
  have hbound := hg.bounded.ports _ o ho
  rw [hsize] at hbound
  exact ⟨⟨st, heq ▸ hst⟩, hstop.trans hbound⟩

theorem Opens.given_output {e' : Emitter} (ho : Opens plan a e) (h : e.Passes e') :
    Given e' ⟨1⟩ .ptr := by
  refine ⟨?_, h.body.valueTypes _ _ ?_⟩
  · rw [h.body.args, ho.args]
    exact Nat.one_lt_two
  · rw [ho.types]
    rfl

/-- Where the code for the output ends, the function can return, and then it is complete. -/
theorem Opens.ends_return (ho : Opens plan a e) (hplan : plan.Unclaimed)
    (hpasses : e.Passes state.emitter) (he : state.emitter.Proper)
    (hlevel : state.emitter.body.Level) (hr : Drafts r state) :
    Ends (emitting Emit.returnVoid) r fun _ r' => ∃ b, Completed plan r'.1 b := by
  have hid : state.emitter.body.id = ⟨0⟩ := hpasses.body.id.trans ho.id
  have hfirst := hpasses.declarations.functions _ _ ho.function
  have hresult : state.emitter.body.result = none := by
    obtain ⟨sig, hsig, -, hresult⟩ := he.typed.body.declared
    rw [hid] at hsig
    obtain rfl := Option.some.inj (hfirst.symm.trans hsig)
    exact hresult.symm
  refine (ends_emitting hr (ends_returnVoid he hlevel hresult) ?_).imp ?_
  · rintro _ _ ⟨b, rfl, -⟩
    rfl
  rintro _ r' ⟨_, ⟨b, rfl, hid', hname, htyped, hcomplete, htypes⟩, hr'⟩
  have hdeclarations : r'.1.declarations = state.emitter.declarations := hr'.emits.declarations
  obtain ⟨sig, hsig, hexported, hsigname⟩ := he.entry
  have hfunction : sig.name = plan.function := by
    rw [← Option.some.inj (hfirst.symm.trans hsig)]
  have hapart : r'.1.declarations.Apart := by
    rw [hdeclarations]
    refine he.regular.apart he.named fun sig' hmem hexported i => ?_
    rw [← Option.some.inj (hsig.symm.trans (he.single sig' hmem hexported)), hfunction]
    exact hplan.datum i
  refine ⟨b, hr'.emits.opened, hr'.emits.defined, .of_empty hapart hr'.symbols,
    hdeclarations ▸ he.sound, hdeclarations ▸ he.regular, hdeclarations ▸ he.typed.declarations,
    hdeclarations ▸ htyped, htypes ▸ hcomplete, hid'.trans hid,
    hname.trans (hsigname.symm.trans hfunction), hdeclarations ▸ he.single, ?_⟩
  rw [hdeclarations]
  exact ⟨sig, hsig, hexported⟩

/-- If the nodes can be lowered, then the function can be completed. -/
theorem ends_lowerBody (ho : Opens plan a e) (hplan : plan.Unclaimed) (hp : p.storage = ∅)
    (hg : t.graph.Lowerable log kind t.input order) (hout : t.graph.FitsAll s)
    (hneeded : ∀ sp ∈ s.spans, sp.port.node ∈ order) (hsize : s.size ≤ 2 ^ 28)
    (hfill : ∀ k ∈ order, (kind k).inlets = [] ∨ t.graph.width k ≠ 0) :
    Ends (lowerBody t plan s order) (a, p) fun _ r => ∃ b, Completed plan r.1 b := by
  have hblank : Drafts (a, p) ⟨e, ∅, [], []⟩ := ⟨⟨ho.emits, hp⟩, ho.symbols⟩
  refine (ho.ends_arguments hblank rfl).1.bind fun v r₁ ⟨hv, hr₁⟩ => ?_
  subst hv
  refine (ho.ends_arguments hr₁ rfl).2.bind fun v r₂ ⟨hv, hr₂⟩ => ?_
  subst hv
  obtain ⟨a₂, p₂⟩ := r₂
  have hstart : Drafts (a₂, { p₂ with storage := p₂.storage.insert ⟨t.input, 0⟩ (.argument ⟨0⟩) })
      (start t e) := by
    refine ⟨⟨hr₂.emits, ?_⟩, hr₂.symbols⟩
    rw [show p₂.storage = ∅ from hr₂.storage]
    rfl
  refine .after_modify ?_
  refine ((ho.poised hg.isInput hstart).ends_lowerNodes hg rfl hfill).bind
    fun _ r₃ ⟨s₃, h₃⟩ => .after_get ?_
  obtain ⟨a₃, p₃⟩ := r₃
  have hstorage : p₃.storage = s₃.storage := h₃.storage
  dsimp only
  rw [hstorage]
  have hselected := h₃.selected hg hout hneeded
  refine (ends_emitting h₃.toDrafts (ends_copySpans h₃.able h₃.level (ho.given_output h₃.passes)
    (fun sp hsp => (hselected sp hsp).1) (fun sp hsp => (hselected sp hsp).2)
    (by rw [Nat.zero_add]; exact hsize)) fun _ _ h => h.2.1.settings).bind
    fun _ r₄ ⟨e₄, ⟨he₄, hgrows, hlevel₄⟩, hr₄⟩ => ?_
  exact ho.ends_return hplan (h₃.passes.trans hgrows.passes) he₄ hlevel₄ hr₄

/-- If the function has been completed, then the nodes have been lowered. -/
theorem fills_of_lowerBody (ho : Opens plan a e) (hp : p.storage = ∅)
    (hg : t.graph.Lowerable log kind t.input order)
    (h : Succeeds (lowerBody t plan s order) (a, p) u r) :
    ∀ k ∈ order, (kind k).inlets = [] ∨ t.graph.width k ≠ 0 := by
  have hblank : Drafts (a, p) ⟨e, ∅, [], []⟩ := ⟨⟨ho.emits, hp⟩, ho.symbols⟩
  obtain ⟨v, r₁, hinput, h⟩ := succeeds_bind.1 h
  obtain ⟨rfl, hr₁⟩ := (ho.ends_arguments hblank rfl).1.holds hinput
  obtain ⟨v, r₂, houtput, h⟩ := succeeds_bind.1 h
  obtain ⟨rfl, hr₂⟩ := (ho.ends_arguments hr₁ rfl).2.holds houtput
  obtain ⟨_, r₃, hmodify, h⟩ := succeeds_bind.1 h
  obtain rfl := succeeds_modify.1 hmodify
  obtain ⟨_, r₄, hnodes, -⟩ := succeeds_bind.1 h
  obtain ⟨a₂, p₂⟩ := r₂
  have hstart : Drafts (a₂, { p₂ with storage := p₂.storage.insert ⟨t.input, 0⟩ (.argument ⟨0⟩) })
      (start t e) := by
    refine ⟨⟨hr₂.emits, ?_⟩, hr₂.symbols⟩
    rw [show p₂.storage = ∅ from hr₂.storage]
    rfl
  exact (ho.poised hg.isInput hstart).fills_of_lowerNodes hg rfl hnodes

/-- If the nodes can be lowered, then the transform can be built and its module finished. -/
theorem ends_build (hplan : plan.Unclaimed) (hp : p.storage = ∅) (hone : t.outputs.length = 1)
    (hs : t.output 0 = .ok s) (hsort : t.graph.dependencyOrder [s] = .ok order)
    (hg : t.graph.Lowerable log kind t.input order) (hout : t.graph.FitsAll s)
    (hneeded : ∀ sp ∈ s.spans, sp.port.node ∈ order) (hsize : s.size ≤ 2 ^ 28)
    (hfill : ∀ k ∈ order, (kind k).inlets = [] ∨ t.graph.width k ≠ 0) :
    Ends (build t plan) (Assembler.new plan.module plan.settings, p) fun _ r =>
      ∃ x b, r.1.finalize = .ok x ∧ x.exported plan.function = .ok b := by
  obtain ⟨a, e, ho⟩ := exists_opens hplan
  refine .refuse (not_not.2 hone) ?_
  refine .after (succeeds_liftExcept.2 ⟨hs, rfl⟩) (.after (succeeds_liftExcept.2 ⟨hsort, rfl⟩) ?_)
  have hbegins := (ends_assemble (p := p)
    (Q := fun _ a' => a' = a) ⟨(), a, ho.begins, rfl⟩)
  refine hbegins.bind ?_
  rintro _ _ ⟨_, rfl, rfl⟩
  refine (ends_lowerBody ho hplan hp hg hout hneeded hsize hfill).bind fun _ r ⟨b, hb⟩ => ?_
  obtain ⟨a₁, p₁⟩ := r
  refine (ends_assemble hb.ends_endFunction).imp ?_
  rintro _ _ ⟨a₂, ⟨x, hx, hexported⟩, rfl⟩
  exact ⟨x, b, hx, hexported⟩

end Body

end Lower

namespace Compiled

open Lower

section Compilable

variable {log : List Key} {graph : Graph} {kind : Key → Builtin} {inputs : List (String × Key)}
  {outputs : List (String × Selection)} {t₀ t : Transform} {plan : Plan} {a : Assembler}
  {code : Code.Executable} {b : Body} {s : Selection} {order : List Key} {p : Progress} {u : Unit}
  {r : Assembler × Progress}

theorem exists_ofAssembler (hcode : a.finalize = .ok code)
    (hentry : code.exported plan.function = .ok b) (hinput : ∃ o, t.inputOutlet = .ok o)
    (hs : t.output 0 = .ok s) (hu : s.Uniform) (hsize : s.size ≠ 0) :
    ∃ c, ofAssembler t plan a = .ok c := by
  obtain ⟨o, ho⟩ := hinput
  have helem : ∃ elemType, t.outputType 0 = .ok elemType := by
    obtain ⟨spans⟩ := s
    cases spans with
    | nil => exact absurd rfl hsize
    | cons a spans =>
        refine ⟨a.elemType, bind_eq_ok_iff.2 ⟨_, hs, ?_⟩⟩
        rw [Selection.elemType?_of_uniform hu List.mem_cons_self]
        rfl
  obtain ⟨elemType, helem⟩ := helem
  refine ⟨_, bind_eq_ok_iff.2 ⟨code, hcode, bind_eq_ok_iff.2
    ⟨_, map_eq_ok_iff.2 ⟨o, ho, rfl⟩, bind_eq_ok_iff.2 ⟨elemType, helem, bind_eq_ok_iff.2
      ⟨_, map_eq_ok_iff.2 ⟨o, ho, rfl⟩, bind_eq_ok_iff.2 ⟨_, map_eq_ok_iff.2 ⟨s, hs, rfl⟩,
        bind_eq_ok_iff.2 ⟨b, hentry, rfl⟩⟩⟩⟩⟩⟩⟩

/-- A transform can be compiled when it can be built and its module finished. -/
theorem exists_compile (h : Ends (Lower.build t plan) (.new plan.module plan.settings, { storage := ∅ })
    fun _ r => ∃ c, ofAssembler t plan r.1 = .ok c) : ∃ c, (compile t plan).1 = .ok c := by
  obtain ⟨u, r, hrun, c, hc⟩ := h
  refine ⟨c, ?_⟩
  unfold Succeeds at hrun
  simp only [compile, hrun]
  exact hc

/-- The needed nodes of a transform can be lowered, as far as their places and sizes go. -/
theorem lowerable_of_follows (ht : Transform.Follows log kind t₀ t)
    (hgraph : Graph.History log t₀.graph) (hkind : t₀.graph.BuiltFrom kind)
    (htyped : ∀ k, (kind k).Typed) (hin : (kind t₀.input).isInput = true)
    (hfit : t₀.graph.FitsAll s) (hsort : t.graph.dependencyOrder [s] = .ok order)
    (hlive : ∀ k ∈ order, t₀.graph.Live k ∧ ¬ t₀.graph.ReadsRemoved k)
    (hown : ∀ k ∈ order, (kind k).isInput = true → k = t₀.input)
    (hbounded : t₀.graph.Bounded (2 ^ 28)) :
    t.graph.Lowerable log kind t.input order where
  sound := ht.graph.sound
  built := ht.graph.built
  isInput := ht.input ▸ hin
  prepared k hk := (hgraph.prepared hkind htyped (hlive k hk).1 (hlive k hk).2).of_sameShape
    ht.graph.shape
  inOrder := by
    have hres : ∀ r ∈ [s], ∃ r', t.graph.resolve r = .ok r' :=
      List.forall_mem_singleton.2 ⟨_, Graph.resolve_of_fitsAll (ht.graph.shape.fitsAll hfit)⟩
    exact (ht.graph.sound.of_dependencyOrder hres hsort).2.2.2
  own := ht.input ▸ hown
  bounded := hbounded.of_sameShape ht.graph.shape

/-- A transform of built-in nodes of moderate size that needs no input but its own can be compiled
exactly when every node that it needs either reads nothing or has elements. Neither the settings nor
the calls that came before make a difference, nor does it matter that the interpreter could run it:
a node without elements is no obstacle there. -/
theorem exists_compile_iff (hgraph : Graph.History log graph) (hkind : graph.BuiltFrom kind)
    (htyped : ∀ k, (kind k).Typed) (hnew : Transform.new graph inputs outputs = .ok t₀)
    (hone : t₀.outputs.length = 1) (hs : t₀.output 0 = .ok s)
    (hsort : graph.dependencyOrder [s] = .ok order)
    (hown : ∀ k ∈ order, (kind k).isInput = true → k = t₀.input)
    (hbounded : graph.Bounded (2 ^ 28)) (hsize : s.size ≤ 2 ^ 28) (hname : plan.function = "predict")
    (before : List Transform.Call) :
    (∃ c, (compile (before.foldl Transform.after t₀) plan).1 = .ok c) ↔
      ∀ k ∈ order, (kind k).inlets = [] ∨ graph.width k ≠ 0 := by
  have hin := Transform.isInput_of_new hnew hkind
  have hfit := Transform.fitsAll_of_new hnew hs
  obtain ⟨rfl, ⟨e₀, he₀, -⟩, -⟩ := Transform.new_eq_ok hnew
  have hstart : Transform.Follows log kind t₀ t₀ := ⟨rfl, rfl, .refl hgraph hkind⟩
  have ht := hstart.foldl before
  generalize before.foldl Transform.after t₀ = t at ht
  have hshape := ht.graph.shape
  -- The nodes that are needed are the same ones as they were in the beginning.
  have hres : ∀ r ∈ [s], ∃ r', t₀.graph.resolve r = .ok r' :=
    List.forall_mem_singleton.2 ⟨_, Graph.resolve_of_fitsAll hfit.1⟩
  obtain ⟨hlive, -, hneeded, -⟩ := hgraph.sound.of_dependencyOrder hres hsort
  obtain ⟨order', hsort', hneeded', hlive'⟩ := ht.exists_dependencyOrder hlive hfit.1
  have hmem : ∀ k, k ∈ order' ↔ k ∈ order := fun k => (hneeded' k).trans (hneeded k).symm
  have hg : t.graph.Lowerable log kind t.input order' := by
    refine lowerable_of_follows ht hgraph hkind htyped hin hfit.1 hsort' (fun k hk => ?_)
      (fun k hk => hown k ((hmem k).1 hk)) hbounded
    have hneed := (hneeded' k).1 hk
    exact ⟨hlive' k hneed, hlive k hneed⟩
  have hwidth : ∀ k, t.graph.width k = t₀.graph.width k := hshape.width_eq
  have hout : t.output 0 = .ok s := (ht.output_eq 0).trans hs
  constructor
  · rintro ⟨c, hc⟩ k hk
    obtain ⟨s', order₁, a, a₁, a₂, hbuilds, -⟩ := compile_eq_ok (Prod.ext hc rfl)
    obtain rfl : s' = s := Except.ok.inj (hbuilds.output.symm.trans hout)
    obtain rfl : order₁ = order' := Except.ok.inj (hbuilds.sorted.symm.trans hsort')
    obtain ⟨a', e, ho⟩ := exists_opens (Plan.unclaimed_predict hname)
    obtain rfl : a = a' := (Prod.mk.inj (hbuilds.begins.symm.trans ho.begins)).2
    obtain ⟨p', hbody⟩ := hbuilds.lowers
    rw [← hwidth k]
    exact fills_of_lowerBody ho rfl hg hbody k ((hmem k).2 hk)
  · intro hfill
    have hneedsOutput : ∀ sp ∈ s.spans, sp.port.node ∈ order' := fun sp hsp =>
      (hneeded' _).2 ⟨s, List.mem_singleton_self s, sp, hsp, .refl⟩
    have hbuild := ends_build (Plan.unclaimed_predict hname) (p := { storage := ∅ }) rfl
      (ht.outputs ▸ hone) hout hsort' hg (hshape.fitsAll hfit.1) hneedsOutput hsize fun k hk => by
        rw [hwidth k]
        exact hfill k ((hmem k).1 hk)
    have hinput : ∃ o, t.inputOutlet = .ok o := by
      obtain ⟨e, he, -⟩ := hshape.exists_entry he₀
      obtain ⟨o, ho, -⟩ := ht.graph.built.outlet _ e he
      refine ⟨o, ?_⟩
      rw [Transform.inputOutlet, ht.input, he]
      simp only [Transform.firstOutlet, ho]
    refine exists_compile (hbuild.imp fun _ r h => ?_)
    obtain ⟨code, b, hcode, hentry⟩ := h
    exact exists_ofAssembler hcode hentry hinput hout hfit.1.1 hfit.2

theorem bounded_doubling : doubling.Bounded (2 ^ 28) := by
  refine Graph.bounded_of_entries fun k e he => ?_
  have horder : doubling.order = [⟨0, 1⟩, ⟨1, 1⟩] := by decide +kernel
  have hk : k ∈ doubling.order :=
    ((Graph.history_replay _).sound.mem_order_iff k).2 (Graph.live_of_entry he)
  rw [horder] at hk
  fin_cases hk <;>
  · obtain rfl := Option.some.inj he
    decide +kernel

/-- The doubled input can be computed by straight-line code. -/
theorem exists_compile_unrolled :
    ∃ c, (compile doubler { settings := { unroll := true } }).1 = .ok c := by
  have horder : doubling.dependencyOrder [integerPair ⟨1, 1⟩] = .ok [⟨0, 1⟩, ⟨1, 1⟩] := by cbv
  have htyped : ∀ k, (doublingKind k).Typed := by
    intro k
    unfold doublingKind
    split <;> simp [Builtin.Typed, Builtin.inlets, Builtin.operandType, upperPair, Selection.ofSpan]
  refine (exists_compile_iff (Graph.history_replay _) (fun k e he => (entry_doubling he).1) htyped
    new_doubling rfl rfl horder (by decide) bounded_doubling (by decide) rfl []).2 fun k hk => ?_
  obtain rfl | rfl := List.mem_pair.1 hk
  · exact Or.inl rfl
  · exact Or.inr (by decide)

/-- A node over no elements of its input, and the sum of that node. -/
def vanishingKind (k : Key) : Builtin :=
  if k = ⟨1, 1⟩ then
    .unary .integer .negate ⟨.ofSpan ⟨⟨⟨0, 1⟩, 0⟩, .integer, 0, 0, 1, true⟩⟩ (.refl true)
  else if k = ⟨2, 1⟩ then .sum .integer ⟨.ofSpan ⟨⟨⟨1, 1⟩, 0⟩, .integer, 0, 0, 0, false⟩⟩ (.refl true)
  else .input .integer (some 1)

def vanishing : Graph :=
  (Graph.replay [.addNumbered 0 (vanishingKind ⟨0, 1⟩).toNode,
    .addNumbered 1 (vanishingKind ⟨1, 1⟩).toNode, .addNumbered 2 (vanishingKind ⟨2, 1⟩).toNode]).2

def vanisher : Transform :=
  ⟨vanishing, "input", ⟨0, 1⟩, [("output", .ofSpan ⟨⟨⟨2, 1⟩, 0⟩, .integer, 0, 1, 1, false⟩)]⟩

theorem entry_vanishing {k : Key} {e : Entry} (he : vanishing.entry? k = some e) :
    e.node = (vanishingKind k).toNode ∧ (∀ o ∈ e.outlets, o.size.getD 0 ≤ 1) ∧
      ∀ i ∈ e.inlets, i.selection.size ≤ 1 := by
  have horder : vanishing.order = [⟨0, 1⟩, ⟨1, 1⟩, ⟨2, 1⟩] := by decide +kernel
  have hk : k ∈ vanishing.order :=
    ((Graph.history_replay _).sound.mem_order_iff k).2 (Graph.live_of_entry he)
  rw [horder] at hk
  fin_cases hk <;>
  · obtain rfl := Option.some.inj he
    exact ⟨rfl, by decide +kernel⟩

/-- The interpreter adds up no elements where the compiler refuses the node that has none. -/
theorem not_compile_vanisher : vanishing.BuiltFrom vanishingKind ∧ vanishing.validate = .ok () ∧
    vanishing.Bounded (2 ^ 28) ∧
    Transform.new vanishing [("input", ⟨0, 1⟩)] vanisher.outputs = .ok vanisher ∧
    (∃ s, vanisher.output 0 = .ok s ∧
      vanishing.dependencyOrder [s] = .ok [⟨0, 1⟩, ⟨1, 1⟩, ⟨2, 1⟩]) ∧
    (∃ t', Succeeds (Transform.compute .integer (.integers [3])) vanisher (.integers [0]) t') ∧
    (compile vanisher).1 = .error (.unsupported (.unwrittenOutput "1" "output")) := by
  have hrun : ((Transform.compute .integer (.integers [3])).run.run vanisher).1 =
      .ok (.integers [0]) := by
    cbv
  refine ⟨fun k e he => (entry_vanishing he).1, by cbv, Graph.bounded_of_entries fun k e he => ?_,
    by cbv, ⟨_, rfl, by cbv⟩, ⟨_, Prod.ext hrun rfl⟩, by cbv⟩
  obtain ⟨-, hports, hinlets⟩ := entry_vanishing he
  exact ⟨fun o ho => (hports o ho).trans (by norm_num), fun i hi => (hinlets i hi).trans (by norm_num)⟩

end Compilable

end Compiled

end Dataflow
