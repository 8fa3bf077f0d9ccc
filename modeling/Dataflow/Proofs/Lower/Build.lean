import Dataflow.Proofs.Lower.Settled

/-!
# The function of a transform

A transform is lowered to one function, whose two arguments are the addresses of the input and of
the output. A run of that function begins with the input behind the first address. It goes from
node to node, copies the output behind the second address and returns.
-/

namespace Dataflow

open Code (Assembler Body Context Emit Emitter Machine Store ValueId)

namespace Lower

structure Opening (plan : Plan) (e : Emitter) : Prop where
  tidy : e.Tidy
  sound : e.declarations.Sound
  function : e.declarations.functions[0]? = some ⟨plan.function, [.ptr, .ptr], none, true⟩
  id : e.body.id = ⟨0⟩
  current : e.body.current = ⟨0⟩
  position : e.body.position = 0
  params : e.body.params = [⟨"input", .ptr⟩, ⟨"output", .ptr⟩]
  args : e.body.args = [⟨0⟩, ⟨1⟩]
  types : e.body.valueTypes = #[.ptr, .ptr]

section Opening

variable {plan : Plan} {a : Assembler} {e e' : Emitter} {v : ValueId} {u : Unit}

theorem exists_opening (h : Succeeds (Assembler.beginFunction plan.function
    [⟨"input", .ptr⟩, ⟨"output", .ptr⟩] none) (Assembler.new plan.module plan.settings) u a) :
    ∃ e, Emits a e ∧ Opening plan e := by
  obtain ⟨-, rfl⟩ := Assembler.succeeds_beginFunction.1 h
  refine ⟨⟨_, _, _, _⟩, ⟨rfl, rfl, rfl, rfl, rfl⟩, ?_, ?_, rfl, rfl, rfl, rfl, rfl, rfl, rfl⟩
  · exact ⟨⟨List.nodup_nil, nofun⟩, rfl, nofun, nofun, nofun, _, rfl⟩
  · exact ⟨Nat.one_pos, nofun, nofun, List.nodup_nil⟩

theorem succeeds_arguments (h : Opening plan e) :
    (Succeeds (Emit.argument "input") e v e' ↔ v = ⟨0⟩ ∧ e' = e) ∧
      (Succeeds (Emit.argument "output") e v e' ↔ v = ⟨1⟩ ∧ e' = e) := by
  have hargument : ∀ name i, (e.body.params.findIdx? (·.name == name)).bind (e.body.args[·]?) =
      some ⟨i⟩ → (Succeeds (Emit.argument name) e v e' ↔ v = ⟨i⟩ ∧ e' = e) := by
    intro name i hi
    constructor
    · intro hname
      obtain ⟨b, _, hb, hname⟩ := succeeds_bind.1 hname
      obtain ⟨rfl, rfl⟩ := Emit.succeeds_body.1 hb
      rw [hi] at hname
      obtain ⟨rfl, rfl⟩ := succeeds_pure.1 hname
      exact ⟨rfl, rfl⟩
    · rintro ⟨rfl, rfl⟩
      refine succeeds_bind.2 ⟨_, _, Emit.succeeds_body.2 ⟨rfl, rfl⟩, ?_⟩
      rw [hi]
      exact succeeds_pure.2 ⟨rfl, rfl⟩
  refine ⟨hargument "input" 0 ?_, hargument "output" 1 ?_⟩
  · rw [h.params, h.args]
    rfl
  · rw [h.params, h.args]
    rfl

theorem succeeds_returnVoid (h : Succeeds Emit.returnVoid e u e') :
    ∃ b, e.body.terminate (.ret none) = .ok b ∧ e' = { e with body := b } := by
  obtain ⟨b, _, hb, h₁⟩ := succeeds_bind.1 h
  obtain ⟨rfl, rfl⟩ := Emit.succeeds_body.1 hb
  cases hresult : e.body.result with
  | some t =>
      rw [hresult] at h₁
      exact absurd h₁ succeeds_throw
  | none =>
      rw [hresult] at h₁
      obtain ⟨b, hb, rfl⟩ := Emit.succeeds_terminate.1 h₁
      exact ⟨b, hb, rfl⟩

end Opening

section Body

variable {t : Transform} {plan : Plan} {g : Graph} {kind : Key → Builtin} {a : Assembler}
  {p : Progress} {t' : Assembler × Progress} {e e' : Emitter} {v : Values} {s : Selection}
  {order : List Key} {u : Unit}

/-- The state before the first node: the input is behind the first address. -/
def start (t : Transform) (e : Emitter) : LowerState where
  emitter := e
  storage := (∅ : Table Port Storage).insert ⟨t.input, 0⟩ (.argument ⟨0⟩)

structure Finishes (t : Transform) (g : Graph) (v : Values) (e e' : Emitter) : Prop where
  passes : e.Passes e'
  run : ∀ (C : Context) (σ : Store), C.Covers e' → Receives C v → Stands C g ⟨1⟩ (start t e) σ →
    ∃ m σ', Machine.Reaches C.program (C.here e.body σ) m ∧
      Machine.step C.program m = .finished none (σ'.memory.leave C.base) ∧ C.Fits σ' ∧
      σ'.memory.Bears (C.data.size + 1) v ∧
      ∀ o, g.outlet ⟨t.input, 0⟩ = .ok o → σ'.memory.Bears C.data.size o.values

theorem find?_start (q : Port) : (start t e).storage.find? q =
    if q = ⟨t.input, 0⟩ then some (.argument ⟨0⟩) else none := by
  rw [start, Table.find?_insert]
  rfl

theorem arranged_start (he : e.Tidy) (hin : (kind t.input).isInput = true) :
    Arranged kind t.input order (start t e) := by
  have hnone : ∀ w b, (start t e).buffer? w ≠ some b := by
    intro w b hb
    cases w with
    | inr i => cases hb
    | inl q =>
        rw [LowerState.buffer_inl, find?_start] at hb
        split at hb <;> cases hb
  refine ⟨hin, ⟨he, fun w b hb => absurd hb (hnone w b), fun w _ b _ hb => absurd hb (hnone w b)⟩,
    ⟨⟨0⟩, ?_⟩, fun k _ hk => ?_⟩
  · rw [find?_start, if_pos rfl]
  · rw [find?_start, if_neg]
    rintro heq
    obtain rfl : k = t.input := (Port.mk.inj heq).1
    rw [hin] at hk
    cases hk

/-- The nodes, the copy and the return come one after the other. -/
theorem finishes_of_copies {s₁ : LowerState} {e₂ : Emitter} {b : Body}
    (hbrings : Brings g ⟨1⟩ (start t e) s₁) {x : ValueId}
    (hinput : s₁.storage.find? ⟨t.input, 0⟩ = some (.argument x))
    (hcopies : Copies g ⟨1⟩ v s₁ 0 e₂ v.length) (hret : e₂.body.terminate (.ret none) = .ok b) :
    Finishes t g v e { e₂ with body := b } := by
  have hlast : e₂.Passes { e₂ with body := b } := ⟨Code.Body.within_terminate hret, .refl _, rfl⟩
  refine ⟨(hbrings.passes.trans hcopies.grows.passes).trans hlast, fun C σ hC hv hσ => ?_⟩
  have hC₂ := hC.of_passes hlast
  obtain ⟨σ₁, hadv, hσ₁⟩ := hbrings.run C σ (hC₂.of_grows hcopies.grows) hv.base hσ
  obtain ⟨σ₂, hadv', hσ₂⟩ :=
    hcopies.run C σ₁ hC₂ hv ⟨hσ₁, Code.Memory.filled_zero⟩
  obtain ⟨k, hk, hi, ht⟩ := Code.Body.terminator_of_terminate hret hC.body
  refine ⟨C.here e₂.body σ₂, σ₂, (hadv.trans hadv').reaches, ?_, hσ₂.fits, hσ₂.filled.bears,
    fun o ho => (hσ₂.backed _ _ hinput).2 o ho⟩
  have hstep : Machine.stepOrTrap C.program (C.here e₂.body σ₂) = _ :=
    Machine.stepOrTrap_terminator hk hi ht
  rw [Machine.step, hstep]
  rfl

theorem finishes_lowerBody (h : Succeeds (lowerBody t plan s order) (a, p) u t') (ha : Emits a e)
    (he : Opening plan e) (hp : p.storage = ∅) (hin : (kind t.input).isInput = true)
    (hsites : ∀ k ∈ order, Sited t.graph g kind k) (hnodup : order.Nodup)
    (hsupplies : Supplies g v s.spans 0) (hlen : v.length = s.size) :
    ∃ e', Emits t'.1 e' ∧ Finishes t g v e e' := by
  obtain ⟨i, t₁, hinput, h₁⟩ := succeeds_bind.1 h
  obtain ⟨a₁, e₁, harg, rfl, ha₁⟩ := succeeds_emitting hinput ha
  obtain ⟨rfl, rfl⟩ := (succeeds_arguments he).1.1 harg
  obtain ⟨o, t₂, houtput, h₂⟩ := succeeds_bind.1 h₁
  obtain ⟨a₂, e₂, harg', rfl, ha₂⟩ := succeeds_emitting houtput (ha₁ rfl)
  obtain ⟨rfl, rfl⟩ := (succeeds_arguments he).2.1 harg'
  obtain ⟨_, t₃, hmodify, h₃⟩ := succeeds_bind.1 h₂
  obtain rfl := succeeds_modify.1 hmodify
  obtain ⟨_, t₄, hnodes, h₄⟩ := succeeds_bind.1 h₃
  obtain ⟨⟨a₅, p₅⟩, _, hget, h₅⟩ := succeeds_bind.1 h₄
  obtain ⟨rfl, rfl⟩ := succeeds_get.1 hget
  obtain ⟨_, t₆, hcopy, hreturn⟩ := succeeds_bind.1 h₅
  have hholds : Holds (a₂, { p with storage := p.storage.insert ⟨t.input, 0⟩ (.argument ⟨0⟩) })
      (start t e₂) := ⟨ha₂ rfl, by rw [hp]; rfl⟩
  have horder : order.zipIdx.map (·.1) = order := by simp
  obtain ⟨s₁, ht₁, hbrings, hs₁⟩ : ∃ s₁, Holds _ s₁ ∧ Brings g ⟨1⟩ (start t e₂) s₁ ∧
      Arranged kind t.input [] s₁ :=
    brings_lowerNodes hnodes hholds (by rw [horder]; exact hsites) (by rw [horder]; exact hnodup)
      (arranged_start he.tidy hin)
  obtain ⟨a₆, e₆, hspans, rfl, ha₆⟩ := succeeds_emitting hcopy ht₁.emits
  have hstorage : p₅.storage = s₁.storage := ht₁.storage
  rw [hstorage] at hspans
  have hcopies := copies_spans hsupplies hspans
  rw [Nat.zero_add, show (s.spans.flatMap Span.cells).length = v.length by
    rw [hlen, ← Selection.length_cells, Selection.cells]] at hcopies
  obtain ⟨a₇, e₇, hvoid, rfl, ha₇⟩ := succeeds_emitting hreturn (ha₆ hcopies.grows.settings)
  obtain ⟨b, hb, rfl⟩ := succeeds_returnVoid hvoid
  obtain ⟨x, hx⟩ := hs₁.argument
  exact ⟨_, ha₇ rfl, finishes_of_copies hbrings hx hcopies hb⟩

end Body

section Order

def buildInOrder (t : Transform) (plan : Plan) (selection : Selection) (order : List Key) :
    Build Unit := do
  assemble (Assembler.beginFunction plan.function [⟨"input", .ptr⟩, ⟨"output", .ptr⟩] none)
  lowerBody t plan selection order
  assemble Assembler.endFunction

/-- The order is found by a recursion that is not structural. Once it is known, the rest of a lowering
can be evaluated as it is. -/
theorem run_build_of_order {t : Transform} {selection : Selection} {order : List Key}
    (hone : t.outputs.length = 1) (hselection : t.output 0 = .ok selection)
    (horder : t.graph.dependencyOrder [selection] = .ok order) (plan : Plan)
    (x : Assembler × Progress) :
    (build t plan).run.run x = (buildInOrder t plan selection order).run.run x := by
  unfold build
  rw [if_neg (not_not.2 hone), hselection, run_of_succeeds (succeeds_liftExcept.2 ⟨rfl, rfl⟩), horder,
    run_of_succeeds (succeeds_liftExcept.2 ⟨rfl, rfl⟩)]
  rfl

end Order

end Lower

end Dataflow
