import Dataflow.Proofs.Code.Assembly
import Dataflow.Proofs.Code.Step

/-!
# The protocol of a recording

A module is in one of three stages, and the answers that it has given tell which. The stage and the
names that have been declared decide which requests on the module are granted. One that is refused
for its time or for its arguments leaves the module as it was.
-/

namespace Dataflow

/-- The fault tells that a request came at the wrong time or with arguments that do not do. -/
def Fault.IsRefusal : Fault → Prop
  | .sequencing _ | .invalid _ => True
  | _ => False

def Fault.IsLinkage : Fault → Prop
  | .missing (.declaration _) | .rejected (.declaration _) | .rejected (.definition _) => True
  | _ => False

theorem Fault.IsLinkage.not_isRefusal {f : Fault} (h : f.IsLinkage) : ¬ f.IsRefusal := by
  intro hf
  cases f with
  | sequencing _ => exact h
  | invalid _ => exact h
  | _ => exact hf

namespace Code

section Ending

variable {b b' : Body} {f : Fault}

theorem Body.mem_unterminated {id : BlockId} : id ∈ b.unterminated ↔ ∃ k, b.OpenAt id k := by
  rw [Body.unterminated, List.mem_filter, Body.mem_blockIds]
  cases hk : b.blocks[id.index]? with
  | none => simp [Body.OpenAt, hk]
  | some k =>
      obtain ⟨hlt, rfl⟩ := Array.getElem?_eq_some_iff.1 hk
      simp [Body.OpenAt, hlt, Block.isClosed]

theorem Body.closed_of_unterminated (h : b.unterminated = []) :
    ∀ k ∈ b.blocks, k.isClosed = true := by
  intro k hk
  obtain ⟨i, hi⟩ := Array.mem_iff_getElem?.1 hk
  cases ht : k.terminator with
  | none =>
      have hmem : (⟨i⟩ : BlockId) ∈ b.unterminated := Body.mem_unterminated.2 ⟨k, hi, ht⟩
      rw [h] at hmem
      cases hmem
  | some t => rw [Block.isClosed, ht]; rfl

/-- At its end a function has closed all its blocks, or the last one is closed for it, or some are
open that should not be. -/
theorem Assembler.implicitReturn_cases (b : Body) :
    (b.unterminated = [] ∧ implicitReturn b = .ok b) ∨
    (b.result = none ∧ b.unterminated = [b.current] ∧
      ∃ b', b.terminate (.ret none) = .ok b' ∧ implicitReturn b = .ok b') ∨
    (b.unterminated ≠ [] ∧ ¬ (b.result = none ∧ b.unterminated = [b.current]) ∧
      ∃ labels, implicitReturn b = .error (.sequencing (.unterminated b.name labels))) := by
  by_cases hlast : b.result = none ∧ b.unterminated = [b.current]
  · obtain ⟨k, hk⟩ := Body.mem_unterminated.1 (hlast.2 ▸ List.mem_singleton_self b.current)
    obtain ⟨b', hterm⟩ : ∃ b', b.terminate (.ret none) = .ok b' :=
      ⟨_, Body.terminate_eq_ok_iff.2 ⟨⟨k, hk⟩, rfl⟩⟩
    refine .inr (.inl ⟨hlast.1, hlast.2, _, hterm, ?_⟩)
    rw [← hterm, implicitReturn, hlast.1, hlast.2]
    simp
  · have hcond : (b.result.isNone && b.unterminated == [b.current]) = false := by
      rw [Bool.eq_false_iff]
      simpa [Option.isNone_iff_eq_none] using hlast
    cases hopen : b.unterminated with
    | nil =>
        refine .inl ⟨rfl, ?_⟩
        rw [hopen] at hcond
        rw [implicitReturn, hopen, hcond]
        rfl
    | cons id ids =>
        refine .inr (.inr ⟨List.cons_ne_nil _ _, hopen ▸ hlast, ?_⟩)
        rw [hopen] at hcond
        rw [implicitReturn, hopen, hcond]
        exact ⟨_, rfl⟩

/-- Whatever is left open when the function ends is its last block. -/
theorem Assembler.closed_of_implicitReturn (h : implicitReturn b = .ok b') :
    ∀ k ∈ b'.blocks, k.isClosed = true := by
  rcases implicitReturn_cases b with ⟨hnone, hb⟩ | ⟨-, hlast, b'', hterm, hb⟩ | ⟨-, -, _, hb⟩
  · obtain rfl := Except.ok.inj (hb.symm.trans h)
    exact Body.closed_of_unterminated hnone
  · obtain rfl := Except.ok.inj (hb.symm.trans h)
    obtain ⟨-, rfl⟩ := Body.terminate_eq_ok_iff.1 hterm
    intro k hk
    obtain ⟨i, hi⟩ := Array.mem_iff_getElem?.1 hk
    rw [Array.getElem?_modify] at hi
    split at hi
    · obtain ⟨k', -, rfl⟩ := Option.map_eq_some_iff.1 hi
      rfl
    · next hne =>
        cases ht : k.terminator with
        | none =>
            have hmem : (⟨i⟩ : BlockId) ∈ b.unterminated := Body.mem_unterminated.2 ⟨k, hi, ht⟩
            rw [hlast] at hmem
            exact absurd (congrArg BlockId.index (List.mem_singleton.1 hmem)).symm hne
        | some t => rw [Block.isClosed, ht]; rfl
  · rw [hb] at h
    cases h

theorem not_isRefusal_of_requireDefined {D : Defined} {vs : List ValueId}
    (h : requireDefined D vs = .error f) : ¬ f.IsRefusal := by
  induction vs with
  | nil => cases h
  | cons v vs ih =>
      rw [requireDefined] at h
      split at h
      · exact ih h
      · cases h
        exact id

theorem not_isRefusal_of_requireIndex {length index : Nat}
    (h : requireIndex length index = .error f) : ¬ f.IsRefusal := by
  unfold requireIndex at h
  split at h
  · cases h
  · cases h
    exact id

theorem not_isRefusal_of_valueType {v : ValueId} (h : b.valueType v = .error f) :
    ¬ f.IsRefusal := by
  unfold Body.valueType at h
  split at h
  · cases h
  · cases h
    exact id

theorem not_isRefusal_of_block {id : BlockId} (h : b.block id = .error f) : ¬ f.IsRefusal := by
  unfold Body.block at h
  split at h
  · cases h
  · cases h
    exact fun h => h

theorem not_isRefusal_of_checkTypes {i : Instr} (h : b.checkTypes i = .error f) :
    ¬ f.IsRefusal := by
  cases i with
  | binary result op lhs rhs =>
      rcases bind_eq_error_iff.1 h with h | ⟨t, -, h⟩
      · exact not_isRefusal_of_valueType h
      · split at h <;> cases h
        exact id
  | unary result op operand =>
      rcases bind_eq_error_iff.1 h with h | ⟨t, -, h⟩
      · exact not_isRefusal_of_valueType h
      · split at h <;> cases h
        exact id
  | cast result value =>
      rcases bind_eq_error_iff.1 h with h | ⟨t, -, h⟩
      · exact not_isRefusal_of_valueType h
      · rcases bind_eq_error_iff.1 h with h | ⟨t', -, h⟩
        · exact not_isRefusal_of_valueType h
        · split at h <;> cases h
          exact id
  | stackAddress result slot => exact not_isRefusal_of_requireIndex h
  | readVar result var => exact not_isRefusal_of_requireIndex h
  | writeVar var value => exact not_isRefusal_of_requireIndex h
  | _ => cases h

/-- A body whose blocks are closed is not sent back for its order. -/
theorem not_isRefusal_of_checkOrder (hclosed : ∀ k ∈ b.blocks, k.isClosed = true)
    (h : b.checkOrder = .error f) : ¬ f.IsRefusal := by
  rcases Body.of_checkOrder_eq_error h with ⟨id, h⟩ | ⟨_, _, h⟩ | ⟨k, -, i, -, h⟩ | ⟨k, hk, hterm, -⟩
  · exact not_isRefusal_of_block h
  · exact not_isRefusal_of_requireDefined h
  · exact not_isRefusal_of_checkTypes h
  · have hk := hclosed k hk
    rw [Block.isClosed, hterm] at hk
    cases hk

end Ending

namespace Assembler

variable {a a' : Assembler} {b : Body} {f : Fault}

@[simp] theorem fails_check {α : Type} {r : Except Fault α} :
    Fails (check r) a f a' ↔ r = .error f ∧ a = a' := by
  cases r <;> simp [check]

theorem of_fails_defineDatum {id : DatumId} {d : Datum} (h : Fails (defineDatum id d) a f a') :
    a = a' ∧ f.IsLinkage := by
  rcases fails_bind.1 h with h | ⟨x, _, hx, h⟩
  · exact absurd h fails_get
  obtain ⟨rfl, rfl⟩ := succeeds_get.1 hx
  split at h
  · exact absurd h fails_pure
  · split at h
    · obtain ⟨rfl, rfl⟩ := fails_throw.1 h
      exact ⟨rfl, trivial⟩
    · obtain ⟨rfl, rfl⟩ := fails_throw.1 h
      exact ⟨rfl, trivial⟩
    · exact absurd h fails_set

theorem of_fails_defineData (h : Fails defineData a f a') : a.Registers a' ∧ f.IsLinkage := by
  rcases fails_bind.1 h with h | ⟨x, _, hx, h⟩
  · exact absurd h fails_get
  obtain ⟨rfl, rfl⟩ := succeeds_get.1 hx
  rcases fails_bind.1 h with h | ⟨_, _, -, h⟩
  · obtain ⟨d, -, a₁, h₁, h⟩ := exists_of_fails_forIn (I := x.Registers) (.refl x)
      (fun d _ s r s' hs hd => by
        obtain ⟨_, _, hdatum, hr⟩ := succeeds_bind.1 hd
        obtain ⟨rfl, rfl⟩ := succeeds_pure.1 hr
        exact ⟨rfl, hs.trans (registers_defineDatum hdatum)⟩) h
    rcases fails_bind.1 h with h | ⟨_, _, -, h⟩
    · obtain ⟨rfl, hf⟩ := of_fails_defineDatum h
      exact ⟨h₁, hf⟩
    · exact absurd h fails_pure
  · exact absurd h fails_pure

theorem isLinkage_of_function {d : Declarations} {id : FunctionId}
    (h : d.function id = .error f) : f.IsLinkage := by
  unfold Declarations.function at h
  split at h <;> cases h
  trivial

theorem of_fails_declareFunction {id : FunctionId} (h : Fails (declareFunction id) a f a') :
    a = a' ∧ f.IsLinkage := by
  rcases fails_bind.1 h with h | ⟨x, _, hx, h⟩
  · exact absurd h fails_get
  obtain ⟨rfl, rfl⟩ := succeeds_get.1 hx
  dsimp only at h
  split at h
  · exact absurd h fails_pure
  · rcases fails_bind.1 h with h | ⟨s, _, hs, h⟩
    · exact ⟨(fails_check.1 h).2, isLinkage_of_function (fails_check.1 h).1⟩
    · obtain ⟨-, rfl⟩ := succeeds_check.1 hs
      rcases fails_refuse.1 h with ⟨-, rfl, rfl⟩ | ⟨-, h⟩
      · exact ⟨rfl, trivial⟩
      · exact absurd h fails_set

/-- A body that cannot be defined leaves symbols at most, and if it is not for its symbols or for its
control flow, it has not passed the check of its operands. -/
theorem of_fails_define (h : Fails (define b) a f a') :
    a.Registers a' ∧ (f.IsLinkage ∨ b.checkOrder = .error f) := by
  rcases fails_bind.1 h with h | ⟨_, a₁, h₁, h⟩
  · exact (of_fails_defineData h).imp_right .inl
  rcases fails_bind.1 h with h | ⟨_, a₂, h₂, h⟩
  · obtain ⟨rfl, hf⟩ := of_fails_declareFunction h
    exact ⟨registers_defineData h₁, .inl hf⟩
  have h₂ := (registers_defineData h₁).trans (registers_declareFunction h₂)
  rcases fails_bind.1 h with h | ⟨_, a₃, h₃, h⟩
  · obtain ⟨id, -, a₃, h₃, h⟩ := exists_of_fails_forM (I := a.Registers) h₂
      (fun _ _ _ _ _ hs hx => hs.trans (registers_declareFunction hx)) h
    obtain ⟨rfl, hf⟩ := of_fails_declareFunction h
    exact ⟨h₃, .inl hf⟩
  have h₃ := h₂.trans (succeeds_forM Registers.refl (fun _ _ _ h h' => h.trans h')
    (fun _ _ _ _ _ hx => registers_declareFunction hx) h₃)
  rcases fails_bind.1 h with h | ⟨_, a₄, h₄, h⟩
  · obtain ⟨hf, rfl⟩ := fails_check.1 h
    exact ⟨h₃, .inr hf⟩
  obtain ⟨-, rfl⟩ := succeeds_check.1 h₄
  rcases fails_refuse.1 h with ⟨-, rfl, rfl⟩ | ⟨-, h⟩
  · exact ⟨h₃, .inl trivial⟩
  · exact absurd h fails_modify

/-- With its blocks closed, it is neither its time nor an argument that keeps a body from being
defined. -/
theorem not_isRefusal_of_define (h : Fails (define b) a f a')
    (hclosed : ∀ k ∈ b.blocks, k.isClosed = true) : ¬ f.IsRefusal := by
  rcases (of_fails_define h).2 with hf | hf
  · exact hf.not_isRefusal
  · exact not_isRefusal_of_checkOrder hclosed hf

/-- Ending a function with helpers fails, after its body, where one of their bodies is defined. -/
theorem exists_of_fails_defineHelpers (ha : a.declarations.Typed) (h : Fails defineHelpers a f a') :
    ∃ r ∈ a.declarations.pending, ∃ b a₁, HasBody a.declarations r b ∧
      a₁.declarations = { a.declarations with pending := [] } ∧ Fails (define b) a₁ f a' := by
  rcases fails_bind.1 h with h | ⟨x, _, hx, h⟩
  · exact absurd h fails_get
  obtain ⟨rfl, rfl⟩ := succeeds_get.1 hx
  rcases fails_bind.1 h with h | ⟨_, a₁, hmodify, h⟩
  · exact absurd h fails_modify
  obtain rfl := succeeds_modify.1 hmodify
  rcases fails_bind.1 h with h | ⟨_, _, -, h⟩
  swap
  · exact absurd h fails_pure
  obtain ⟨r, hr, a₂, hd, h⟩ := exists_of_fails_forIn
    (I := fun s => s.declarations = { x.declarations with pending := [] }) rfl
    (fun r _ s u s' hI hs => by
      simp only [succeeds_bind, succeeds_get, succeeds_check, succeeds_pure] at hs
      obtain ⟨_, _, ⟨rfl, rfl⟩, _, _, ⟨-, rfl⟩, _, _, ⟨-, rfl⟩, _, _, hdefine, rfl, rfl⟩ := hs
      exact ⟨rfl, (appends_define hdefine).declarations.trans hI⟩) h
  obtain ⟨s, b, hs, hb, -⟩ := helper_body_typed (ha.pending r hr)
  have hs₂ : a₂.declarations.function r.function = .ok s := by rw [hd, ← hs]; rfl
  refine ⟨r, hr, b, a₂, ⟨s, hs, hb⟩, hd, ?_⟩
  rcases fails_bind.1 h with h | ⟨_, _, hget, h⟩
  · exact absurd h fails_get
  obtain ⟨rfl, rfl⟩ := succeeds_get.1 hget
  rcases fails_bind.1 h with h | ⟨s₁, _, hcheck, h⟩
  · cases hs₂.symm.trans (fails_check.1 h).1
  obtain ⟨hs₁, rfl⟩ := succeeds_check.1 hcheck
  obtain rfl := Except.ok.inj (hs₂.symm.trans hs₁)
  rcases fails_bind.1 h with h | ⟨b₁, _, hcheck, h⟩
  · cases hb.symm.trans (fails_check.1 h).1
  obtain ⟨hb₁, rfl⟩ := succeeds_check.1 hcheck
  obtain rfl := Except.ok.inj (hb.symm.trans hb₁)
  rcases fails_bind.1 h with h | ⟨_, _, -, h⟩
  · exact h
  · exact absurd h fails_pure

/-- The body of a helper that was asked for with the types of its operator. -/
theorem HasBody.isHelper_of_typed {d : Declarations} {r : HelperRequest} (h : HasBody d r b)
    (hr : d.IsHelper r.op r.ty r.function) :
    b.id = r.function ∧ b.IsHelper r.op r.ty ∧ b.Typed d := by
  obtain ⟨s, hs, hb⟩ := h
  obtain ⟨s', b', hs', hb', htyped⟩ := helper_body_typed hr
  obtain rfl := Except.ok.inj (hs.symm.trans hs')
  obtain rfl := Except.ok.inj (hb.symm.trans hb')
  obtain ⟨-, s', hs', hparams, -⟩ := hr
  obtain rfl := Option.some.inj (hs'.symm.trans (Declarations.function_eq_ok_iff.1 hs))
  obtain ⟨b', hb', hid, -, hhelper⟩ := r.exists_body hparams
  obtain rfl := Except.ok.inj (hb.symm.trans hb')
  exact ⟨hid, hhelper, htyped⟩

theorem EndsWith.exists_request {body b b' : Body} {helpers : List Body}
    (h : a.EndsWith body b helpers a') (ht : a.declarations.Typed) (hb : b' ∈ helpers) :
    ∃ r ∈ a.declarations.pending, b'.id = r.function ∧ b'.IsHelper r.op r.ty := by
  obtain ⟨r, hr, hmade⟩ := forall₂_mem_right h.made hb
  obtain ⟨hid, hhelper, -⟩ := hmade.isHelper_of_typed (ht.pending r hr)
  exact ⟨r, hr, hid, hhelper⟩

/-- The one block of a helper is closed. -/
theorem HasBody.closed {d : Declarations} {r : HelperRequest} (h : HasBody d r b)
    (hr : d.IsHelper r.op r.ty r.function) : ∀ k ∈ b.blocks, k.isClosed = true := by
  intro k hk
  rw [(h.isHelper_of_typed hr).2.1.blocks] at hk
  obtain rfl := List.mem_singleton.1 (Array.mem_toList_iff.2 hk)
  rfl

/-- Once a function is closed, its end is not refused any more. -/
theorem not_isRefusal_of_rest (ha : a.declarations.Typed)
    (hclosed : ∀ k ∈ b.blocks, k.isClosed = true)
    (h : Fails (define b >>= fun _ => defineHelpers) a f a') : ¬ f.IsRefusal := by
  rcases fails_bind.1 h with h | ⟨_, a₁, h₁, h⟩
  · exact not_isRefusal_of_define h hclosed
  · have hd := (appends_define h₁).declarations
    obtain ⟨r, hr, b', a₂, hb, -, h⟩ := exists_of_fails_defineHelpers (hd ▸ ha) h
    rw [hd] at hr hb
    exact not_isRefusal_of_define h (hb.closed (ha.pending r hr))

end Assembler

/-- The stage after a request, as the answer tells it. A function whose end comes too early stays
open; one whose end fails for any other reason does not. -/
def Stage.next (p : Stage) : Request → Except Fault Reply → Stage
  | .begin .., .ok _ => .opened
  | .finish, .error (.sequencing _) => p
  | .finish, _ => .closed
  | _, _ => p

def Request.begins? : Request → Option String
  | .begin name .. => some name
  | _ => none

def Declarations.HasHelper (d : Declarations) (name : String) : Prop :=
  ∃ op t id, d.helpers.find? (op, t) = some id ∧ name = helperName op t

def Declarations.Declares (d : Declarations) (name : String) : Prop :=
  ∃ s ∈ d.functions, s.name = name

namespace Assembler

section Requests

variable {a a' : Assembler} {r : Request}

def Accepts (a : Assembler) (r : Request) : Prop := ∃ x, (r.perform.run.run a).1 = .ok x

/-- The stage that the answers tell of, from the stage `p` on. -/
def stageAfter (a : Assembler) (p : Stage) : List Request → Stage
  | [] => p
  | r :: rs => stageAfter (r.perform.run.run a).2 (p.next r (r.perform.run.run a).1) rs

def Begun (a : Assembler) (name : String) : List Request → Prop
  | [] => False
  | r :: rs => (r.begins? = some name ∧ a.Accepts r) ∨ Begun (r.perform.run.run a).2 name rs

theorem declares_iff {d : Declarations} {name : String} :
    d.Declares name ↔ (d.find? name).isSome = true := by
  unfold Declarations.Declares Declarations.find?
  rw [Option.isSome_map, Array.findIdx?_isSome, Array.any_eq_true']
  simp

/-- When the end of an open function is refused nothing has happened; otherwise the function is
closed. -/
theorem run_endFunction_cases (ha : a.Typed) (hb : a.current? = some b) :
    (b.unterminated ≠ [] ∧ ¬ (b.result = none ∧ b.unterminated = [b.current]) ∧
      ∃ w, endFunction.run.run a = (.error (.sequencing w), a)) ∨
    ((b.unterminated = [] ∨ b.result = none ∧ b.unterminated = [b.current]) ∧
      (endFunction.run.run a).2.stage = .closed ∧ (endFunction.run.run a).2.body = none ∧
      a.Keeps { (endFunction.run.run a).2 with stage := a.stage, body := a.body } ∧
      ∀ f, (endFunction.run.run a).1 = .error f → ¬ f.IsRefusal) := by
  have hrest : ∀ b', implicitReturn b = .ok b' → (endFunction.run.run a).2.stage = .closed ∧
      (endFunction.run.run a).2.body = none ∧
      a.Keeps { (endFunction.run.run a).2 with stage := a.stage, body := a.body } ∧
      ∀ f, (endFunction.run.run a).1 = .error f → ¬ f.IsRefusal := by
    intro b' hb'
    rw [run_endFunction_of_ok hb hb']
    obtain ⟨-, hk, -⟩ := closes_rest (a := { a with stage := .closed, body := none })
      (implicitReturn_typed (ha.opened b hb) hb')
      ⟨fun b hb => (by cases hb), ha.defined, ha.declarations⟩
    refine ⟨hk.stage, hk.body, ⟨hk.functions, hk.helpers, hk.data, hk.pending, rfl, rfl, hk.pools,
      hk.settings⟩, fun f hf => ?_⟩
    exact not_isRefusal_of_rest (a := { a with stage := .closed, body := none }) ha.declarations
      (closed_of_implicitReturn hb') (Prod.ext hf rfl)
  rcases implicitReturn_cases b with ⟨hnone, hb'⟩ | ⟨hr, hlast, b', -, hb'⟩ | ⟨hopen, hlast, _, hb'⟩
  · exact .inr ⟨.inl hnone, hrest b hb'⟩
  · exact .inr ⟨.inr ⟨hr, hlast⟩, hrest b' hb'⟩
  · exact .inl ⟨hopen, hlast, _, run_endFunction_of_error hb hb'⟩

end Requests

section Names

variable {d d' : Declarations} {begun : String → Prop}

theorem declares_push {functions : Array Signature} {s : Signature} {name : String} :
    (∃ s' ∈ functions.push s, s'.name = name) ↔
      (∃ s' ∈ functions, s'.name = name) ∨ s.name = name := by
  simp only [Array.mem_push, or_and_right, exists_or, exists_eq_left]

/-- A helper that is asked for is declared, if it has not been before. -/
theorem declares_helper {op : Operator} {t : Ty} {id : FunctionId}
    (h : d.helper op t = .ok (id, d'))
    (hd : ∀ name, d.Declares name ↔ begun name ∨ d.HasHelper name) (name : String) :
    d'.Declares name ↔ begun name ∨ d'.HasHelper name := by
  obtain ⟨-, rfl⟩ | ⟨⟨hfind, -⟩, rfl, rfl⟩ := Declarations.helper_cases h
  · exact hd name
  rw [Declarations.Declares, declares_push, ← Declarations.Declares, hd name, or_assoc]
  refine or_congr_right ⟨?_, ?_⟩
  · rintro (⟨op', t', id', hid, hname⟩ | hname)
    · refine ⟨op', t', id', (Table.find?_insert ..).trans ((if_neg ?_).trans hid), hname⟩
      rintro heq
      rw [heq, hfind] at hid
      cases hid
    · exact ⟨op, t, ⟨d.functions.size⟩, by rw [Table.find?_insert, if_pos rfl], hname.symm⟩
  · rintro ⟨op', t', id', hid, hname⟩
    rw [Table.find?_insert] at hid
    split at hid
    · next heq =>
        obtain ⟨rfl, rfl⟩ := Prod.mk.inj heq
        exact .inr hname.symm
    · exact .inl ⟨op', t', id', hid, hname⟩

end Names

section Recording

variable {a a' : Assembler} {p : Stage} {begun : String → Prop}

structure Tracks (a : Assembler) (p : Stage) (begun : String → Prop) : Prop where
  typed : a.Typed
  stage : a.stage = p
  body : a.body.isSome = true ↔ p = .opened
  fresh : p = .fresh ↔ ∀ name, ¬ begun name
  declared : ∀ name, a.declarations.Declares name ↔ begun name ∨ a.declarations.HasHelper name

theorem tracks_new (name : String) (s : Settings) :
    (new name s).Tracks .fresh fun _ => False := by
  refine ⟨typed_new name s, rfl, by simp [new], by simp, fun name => ?_⟩
  constructor
  · rintro ⟨s, hs, -⟩
    exact absurd hs (Array.not_mem_empty s)
  · rintro (h | ⟨op, t, id, hid, -⟩)
    · exact h.elim
    · cases hid

/-- Where a request begins no function, nothing is known of more functions. -/
theorem Tracks.of_not_begins (h : a.Tracks p begun) {r : Request} (ht : a'.Typed) {p' : Stage}
    (hstage : a'.stage = p') (hbody : a'.body.isSome = true ↔ p' = .opened) (hfresh : p' = .fresh ↔ p = .fresh)
    (hdeclared : ∀ name, a'.declarations.Declares name ↔ begun name ∨ a'.declarations.HasHelper name)
    (hr : ∀ name, ¬ (r.begins? = some name ∧ a.Accepts r)) :
    a'.Tracks p' fun name => begun name ∨ (r.begins? = some name ∧ a.Accepts r) := by
  refine ⟨ht, hstage, hbody, ?_, fun name => ?_⟩
  · simp only [hr, or_false, hfresh, h.fresh]
  · simp only [hr, or_false]
    exact hdeclared name

theorem Tracks.keeps (h : a.Tracks p begun) (hk : a.Keeps { a' with stage := a.stage, body := a.body })
    (name : String) :
    a'.declarations.Declares name ↔ begun name ∨ a'.declarations.HasHelper name := by
  have hf : a'.declarations.functions = a.declarations.functions := hk.functions
  have hh : a'.declarations.helpers = a.declarations.helpers := hk.helpers
  have hd := h.declared name
  unfold Declarations.Declares Declarations.HasHelper at hd ⊢
  rwa [hf, hh]

/-- Settings are replaced while nothing has been begun, and else nothing happens. -/
theorem setSettings_cases (a : Assembler) (s : Settings) :
    (a.stage = .fresh ∧ (setSettings s).run.run a = (.ok (), { a with settings := s })) ∨
      a.stage ≠ .fresh ∧ (setSettings s).run.run a = (.error (.sequencing .settingsFixed), a) := by
  by_cases h : a.stage = .fresh
  · exact .inl ⟨h, setSettings_of_fresh h s⟩
  · exact .inr ⟨h, setSettings_of_not_fresh h s⟩

theorem accepts_begin_iff {name : String} {params : List Param} {result : Option Ty} :
    a.Accepts (.begin name params result) ↔
      a.stage ≠ .opened ∧ ¬ a.declarations.Declares name := by
  rw [Accepts, run_begin, declares_iff]
  rcases a.beginFunction_cases name params result with ⟨hp, hd, h⟩ | ⟨hn, f, h⟩
  · rw [h, hd]
    exact ⟨fun _ => ⟨hp, by simp⟩, fun _ => ⟨_, rfl⟩⟩
  · rw [h]
    exact ⟨fun ⟨_, h⟩ => (by cases h), fun h => absurd hn (not_or.2 ⟨h.1, h.2⟩)⟩

theorem accepts_settings_iff {s : Settings} :
    a.Accepts (.settings s) ↔ a.stage = .fresh := by
  rw [Accepts, run_settings]
  rcases setSettings_cases a s with ⟨hs, h⟩ | ⟨hs, h⟩
  · rw [h]
    exact ⟨fun _ => hs, fun _ => ⟨_, rfl⟩⟩
  · rw [h]
    exact ⟨fun ⟨_, h⟩ => (by cases h), fun h => absurd h hs⟩

theorem Tracks.settings (h : a.Tracks p begun) (s : Settings) :
    ((Request.settings s).perform.run.run a).2.Tracks
      (p.next (.settings s) ((Request.settings s).perform.run.run a).1)
      fun name => begun name ∨ ((Request.settings s).begins? = some name ∧ a.Accepts (.settings s)) := by
  have hr : ∀ name, ¬ ((Request.settings s).begins? = some name ∧ a.Accepts (.settings s)) :=
    fun _ hn => by cases hn.1
  have ht := typed_perform h.typed (.settings s)
  rw [run_settings] at ht ⊢
  rcases setSettings_cases a s with ⟨hs, hset⟩ | ⟨hs, hset⟩
  · rw [hset] at ht ⊢
    exact h.of_not_begins ht h.stage h.body .rfl h.declared hr
  · rw [hset] at ht ⊢
    exact h.of_not_begins ht h.stage h.body .rfl h.declared hr

theorem Tracks.begin (h : a.Tracks p begun) (name : String) (params : List Param)
    (result : Option Ty) :
    ((Request.begin name params result).perform.run.run a).2.Tracks
      (p.next (.begin name params result) ((Request.begin name params result).perform.run.run a).1)
      fun n => begun n ∨ ((Request.begin name params result).begins? = some n ∧
        a.Accepts (.begin name params result)) := by
  have ht := typed_perform h.typed (.begin name params result)
  by_cases hacc : a.Accepts (.begin name params result)
  · obtain ⟨hp, hd⟩ := accepts_begin_iff.1 hacc
    rw [declares_iff, Bool.not_eq_true, Option.isSome_eq_false_iff, Option.isNone_iff_eq_none] at hd
    rw [run_begin, beginFunction_of_new hp hd] at ht ⊢
    refine ⟨ht, rfl, ⟨fun _ => rfl, fun _ => rfl⟩, ?_, fun n => ?_⟩
    · refine ⟨fun h => (by cases h), fun hn => ?_⟩
      exact absurd (.inr ⟨rfl, hacc⟩) (hn name)
    · have hd := h.declared n
      simp only [Declarations.Declares, Declarations.HasHelper, Assembler.begun, declares_push] at hd ⊢
      rw [hd]
      simp only [Request.begins?, Option.some.injEq, hacc, and_true]
      exact or_right_comm
  · have hr : ∀ n, ¬ ((Request.begin name params result).begins? = some n ∧
        a.Accepts (.begin name params result)) := fun n hn => hacc hn.2
    rw [accepts_begin_iff] at hacc
    rw [run_begin] at ht ⊢
    rcases a.beginFunction_cases name params result with ⟨hp, hd, -⟩ | ⟨-, f, hf⟩
    · exact absurd ⟨hp, by simp [declares_iff, hd]⟩ hacc
    · rw [hf] at ht ⊢
      exact h.of_not_begins ht h.stage h.body .rfl h.declared hr

theorem Tracks.emit (h : a.Tracks p begun) (c : Call) :
    ((Request.emit c).perform.run.run a).2.Tracks
      (p.next (.emit c) ((Request.emit c).perform.run.run a).1)
      fun name => begun name ∨ ((Request.emit c).begins? = some name ∧ a.Accepts (.emit c)) := by
  have hr : ∀ name, ¬ ((Request.emit c).begins? = some name ∧ a.Accepts (.emit c)) :=
    fun _ hn => by cases hn.1
  have ht := typed_perform h.typed (.emit c)
  by_cases hopen : ∃ b, a.current? = some b
  · obtain ⟨b, hb⟩ := hopen
    have hrun := run_emit_of_opened (m := c.perform) hb rfl
    change ((Assembler.emit c.perform).run.run a).2.Typed at ht
    change ((Assembler.emit c.perform).run.run a).2.Tracks _ _
    rw [hrun] at ht ⊢
    have hp : p = .opened := h.stage.symm.trans (current?_eq_some_iff.1 hb).1
    refine h.of_not_begins ht h.stage ⟨fun _ => hp, fun _ => rfl⟩ .rfl (fun name => ?_) hr
    refine (Emit.Moves.perform c ⟨b, a.declarations, a.pools, a.settings⟩).keeps
        (R := fun e => ∀ name, e.declarations.Declares name ↔
        begun name ∨ e.declarations.HasHelper name) (fun e e' hstep he => ?_) h.declared name
    cases hstep with
    | helper hd => exact declares_helper hd he
    | _ => exact he
  · have hrun := run_emit_of_not_opened c.perform fun b hb => hopen ⟨b, hb⟩
    change ((Assembler.emit c.perform).run.run a).2.Tracks _ _
    rw [hrun]
    exact h.of_not_begins h.typed h.stage h.body .rfl h.declared hr

theorem Tracks.finish (h : a.Tracks p begun) :
    (Request.finish.perform.run.run a).2.Tracks
      (p.next .finish (Request.finish.perform.run.run a).1)
      fun name => begun name ∨ (Request.finish.begins? = some name ∧ a.Accepts .finish) := by
  have hr : ∀ name, ¬ (Request.finish.begins? = some name ∧ a.Accepts .finish) :=
    fun _ hn => by cases hn.1
  have ht := typed_perform h.typed .finish
  rw [run_finish] at ht ⊢
  by_cases hopen : ∃ b, a.current? = some b
  · obtain ⟨b, hb⟩ := hopen
    have hp : p = .opened := h.stage.symm.trans (current?_eq_some_iff.1 hb).1
    rcases run_endFunction_cases h.typed hb with ⟨-, -, w, hrun⟩ | ⟨-, hstage, hbody, hk, hf⟩
    · rw [hrun] at ht ⊢
      exact h.of_not_begins ht h.stage h.body .rfl h.declared hr
    · have hnext : p.next .finish ((fun _ => Reply.done) <$> (endFunction.run.run a).1) = .closed := by
        cases hans : (endFunction.run.run a).1 with
        | ok u => rfl
        | error f =>
            have hf := hf f hans
            cases f with
            | sequencing w => exact absurd trivial hf
            | _ => rfl
      rw [hnext]
      exact h.of_not_begins ht hstage (by simp [hbody]) (by simp [hp]) (h.keeps hk) hr
  · rw [run_endFunction_of_not_opened fun b hb => hopen ⟨b, hb⟩]
    exact h.of_not_begins h.typed h.stage h.body .rfl h.declared hr

theorem Tracks.perform (h : a.Tracks p begun) (r : Request) :
    (r.perform.run.run a).2.Tracks (p.next r (r.perform.run.run a).1)
      fun name => begun name ∨ (r.begins? = some name ∧ a.Accepts r) := by
  cases r with
  | settings s => exact h.settings s
  | begin name params result => exact h.begin name params result
  | emit c => exact h.emit c
  | finish => exact h.finish

/-- Over a whole recording the answers tell the stage and the names of the functions. -/
theorem Tracks.after (h : a.Tracks p begun) (rs : List Request) :
    (a.after rs).Tracks (a.stageAfter p rs) fun name => begun name ∨ a.Begun name rs := by
  induction rs generalizing a p begun with
  | nil => simpa [stageAfter, Begun, after] using h
  | cons r rs ih =>
      have h := ih (h.perform r)
      simp only [or_assoc] at h
      exact h

end Recording

section Promise

variable {a a' : Assembler} {p : Stage} {begun : String → Prop}

/-- What the protocol promises of a module in the stage `p` on which the functions `begun` have been
begun. -/
structure Protocol (a : Assembler) (p : Stage) (begun : String → Prop) : Prop where
  stage : a.stage = p
  /-- There is a body while a function is open, and only then. -/
  body : (∃ b, a.body = some b) ↔ p = .opened
  /-- The emitter of the open function is there for the asking, and for calls. -/
  emitter : (∃ a', Succeeds (Assembler.emit (pure ())) a () a') ↔ p = .opened
  call : p ≠ .opened → ∀ c, Fails (Request.emit c).perform a (.sequencing .noFunction) a
  /-- Names are declared by functions that are begun and by helpers that are asked for. -/
  declared : ∀ name, a.declarations.Declares name ↔ begun name ∨ a.declarations.HasHelper name
  begins : ∀ name params result,
    a.Accepts (.begin name params result) ↔ p ≠ .opened ∧ ¬ a.declarations.Declares name
  settings : ∀ s, a.Accepts (.settings s) ↔ ∀ name, ¬ begun name
  /-- The end of a function is early as long as blocks are open, but for the last one of a function
  without a result. -/
  ends : ∀ b, a.current? = some b → ((∃ w a', Fails Request.finish.perform a (.sequencing w) a') ↔
    b.unterminated ≠ [] ∧ ¬ (b.result = none ∧ b.unterminated = [b.current]))
  early : p ≠ .opened → Fails Request.finish.perform a (.sequencing .endWithoutBegin) a
  /-- Requests on the module that are refused change nothing. -/
  refused : ∀ (r : Request) f a', (∀ c, r ≠ .emit c) → Fails r.perform a f a' → f.IsRefusal → a' = a

theorem fails_finish_iff {f : Fault} : Fails Request.finish.perform a f a' ↔ Fails endFunction a f a' := by
  change Fails (endFunction >>= fun _ => pure Reply.done) a f a' ↔ _
  simp

theorem Tracks.protocol (h : a.Tracks p begun) : a.Protocol p begun := by
  have hbody : (∃ b, a.body = some b) ↔ p = .opened := Option.isSome_iff_exists.symm.trans h.body
  have hclosed : p ≠ .opened → ∀ b, a.current? ≠ some b :=
    fun hp b hb => hp (hbody.1 ⟨b, (current?_eq_some_iff.1 hb).2⟩)
  refine ⟨h.stage, hbody, ?_, fun hp c => ?_, h.declared, fun name params result => ?_, fun s => ?_,
    fun b hb => ?_, fun hp => ?_, fun r f a' hr hf hrefusal => ?_⟩
  · constructor
    · rintro ⟨a', ha'⟩
      obtain ⟨b, -, hb, -⟩ := succeeds_emit ha'
      exact hbody.1 ⟨b, (current?_eq_some_iff.1 hb).2⟩
    · intro hp
      obtain ⟨b, hb⟩ := hbody.2 hp
      have hcurrent : a.current? = some b := current?_eq_some_iff.2 ⟨h.stage.trans hp, hb⟩
      exact ⟨_, run_emit_of_opened hcurrent rfl⟩
  · exact run_emit_of_not_opened c.perform (hclosed hp)
  · rw [accepts_begin_iff, h.stage]
  · rw [accepts_settings_iff, h.stage, h.fresh]
  · simp only [fails_finish_iff]
    rcases run_endFunction_cases h.typed hb with ⟨hopen, hlast, w, hrun⟩ | ⟨hdone, -, -, -, hf⟩
    · exact ⟨fun _ => ⟨hopen, hlast⟩, fun _ => ⟨w, a, hrun⟩⟩
    · constructor
      · rintro ⟨w, a', hfail⟩
        exact absurd trivial (hf (.sequencing w) (congrArg Prod.fst hfail))
      · rintro ⟨hopen, hlast⟩
        exact (hdone.elim hopen hlast).elim
  · exact fails_finish_iff.2 (run_endFunction_of_not_opened (hclosed hp))
  · cases r with
    | settings s =>
        rw [Fails, run_settings] at hf
        rcases setSettings_cases a s with ⟨-, hset⟩ | ⟨-, hset⟩
        · rw [hset] at hf
          cases hf
        · rw [hset] at hf
          exact (Prod.mk.inj hf).2.symm
    | begin name params result =>
        rw [Fails, run_begin] at hf
        rcases a.beginFunction_cases name params result with ⟨-, -, hbegin⟩ | ⟨-, _, hbegin⟩
        · rw [hbegin] at hf
          cases hf
        · rw [hbegin] at hf
          exact (Prod.mk.inj hf).2.symm
    | emit c => exact absurd rfl (hr c)
    | finish =>
        rw [fails_finish_iff] at hf
        by_cases hopen : ∃ b, a.current? = some b
        · obtain ⟨b, hb⟩ := hopen
          rcases run_endFunction_cases h.typed hb with ⟨-, -, w, hrun⟩ | ⟨-, -, -, -, hend⟩
          · exact (Prod.mk.inj (hrun.symm.trans hf)).2.symm
          · exact absurd hrefusal (hend f (congrArg Prod.fst hf))
        · have hrun := run_endFunction_of_not_opened fun b hb => hopen ⟨b, hb⟩
          exact (Prod.mk.inj (hrun.symm.trans hf)).2.symm

/-- Whatever is requested of a new module, granted or refused, it keeps to the protocol, in the stage
that its answers tell and with the functions that they say have been begun. -/
theorem protocol_of_recording (name : String) (settings : Settings) (requests : List Request) :
    ((new name settings).after requests).Protocol
      ((new name settings).stageAfter .fresh requests)
      fun function => (new name settings).Begun function requests := by
  simpa using ((tracks_new name settings).after requests).protocol

/-- A block that was created and never closed keeps its function open. -/
example : (new "m").stageAfter .fresh
    [.begin "f" [] none, .emit (.createBlock "rest"), .finish, .settings {}] = .opened := by
  cbv

end Promise

end Assembler

end Code

end Dataflow
