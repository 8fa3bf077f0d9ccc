import Dataflow.Proofs.Code.Exports
import Dataflow.Proofs.Code.Stranded

/-!
# The functions that a module lists

A helper is declared where it is asked for first, and gets its body at the next end of a function
that is granted. So the functions that a module lists, and their order, can be told from the requests
and their answers alone: each function that has ended, and behind it the helpers that had not been
asked for before.
-/

namespace Dataflow.Code

/-- The name of the helper that applies an operator to values of a type. -/
def Declarations.nameOf (k : Operator × Ty) : String := helperName k.1 k.2

theorem Declarations.nameOf_injective : Function.Injective nameOf := by
  intro k k' h
  obtain ⟨hop, ht⟩ := helperName_injective h
  exact Prod.ext hop ht

/-- The operator that a call applies and the type that it is applied to. The operands have to be
values of one type that the operator takes. -/
def Call.applies? (b : Body) : Call → Option (Operator × Ty)
  | .operator op lhs rhs => (b.valueTypes[lhs.index]?).bind fun t =>
    if b.valueTypes[rhs.index]? = some t ∧ op.accepts t then some (.binary op, t) else none
  | .unary op operand => (b.valueTypes[operand.index]?).bind fun t =>
    if op.accepts t then some (.unary op, t) else none
  | _ => none

/-- The operator and the type whose helper a call asks for. Where operators are emitted in place it
is none. -/
def Emitter.wants? (e : Emitter) (c : Call) : Option (Operator × Ty) :=
  if e.settings.inline then none else c.applies? e.body

def Declarations.Names (d : Declarations) (id : FunctionId) (name : String) : Prop :=
  ∃ s, d.functions[id.index]? = some s ∧ s.name = name

theorem Declarations.Names.mono {d d' : Declarations} {id : FunctionId} {name : String}
    (h : d.Names id name) (hp : Prefix d.functions d'.functions) : d'.Names id name := by
  obtain ⟨s, hs, hname⟩ := h
  exact ⟨s, hp _ _ hs, hname⟩

section Asking

def Emitter.Unasked (e e' : Emitter) : Prop :=
  e'.declarations = { e.declarations with data := e'.declarations.data }

variable {e e' : Emitter} {α : Type}

theorem Emitter.Unasked.of_eq (h : e'.declarations = e.declarations) : e.Unasked e' := by
  unfold Unasked
  rw [h]

theorem Emitter.Unasked.refl (e : Emitter) : e.Unasked e := .of_eq rfl

theorem Emitter.Unasked.trans {e'' : Emitter} (h : e.Unasked e') (h' : e'.Unasked e'') :
    e.Unasked e'' := by
  unfold Unasked at *
  rw [h', h]

open Emitter (Unasked)

namespace Emit

instance : Std.Refl Unasked := ⟨.refl⟩

instance : IsTrans Emitter Unasked := ⟨fun _ _ _ => .trans⟩

/-- What is recorded in the body alone asks for nothing. -/
theorem unasked_push (i : Instr) : Leaves Unasked (push i) := by
  refine .of_runs (fun e u e' h => ?_) fun e f e' h => ?_
  · obtain ⟨b, -, rfl⟩ := succeeds_push.1 h
    exact .of_eq rfl
  · exact (fails_push.1 h).2 ▸ .refl e

theorem unasked_define (t : Ty) (instr : ValueId → Instr) : Leaves Unasked (define t instr) :=
  .bind (fun _ => .of_eq rfl) fun _ => (unasked_push _).bind fun _ => .pure _

theorem unasked_release (s : Slot) : Leaves Unasked (release s) := by
  intro e
  rw [run_release]
  exact .of_eq rfl

theorem unasked_scratchVar (slot : Slot) (t : Ty) : Leaves Unasked (scratchVar slot t) := by
  have hnew : Leaves Unasked (do
      let x ← newVar t
      modify fun e => { e with
        body := { e.body with scratchVars := e.body.scratchVars.insert slot.index x } }
      return x) := fun _ => .of_eq rfl
  refine leaves_body.bind fun b => ?_
  split
  · exact (leaves_check _).bind fun _ => .ite (.pure _) hnew
  · exact hnew

theorem unasked_bufferPlace (slot : Slot) (bytes : Nat) :
    Leaves Unasked (bufferPlace slot bytes) := by
  refine .after_get fun e => ?_
  have hnew : e.Unasked ((do
      Emit.setBody { (e.body.newPlace bytes).2 with
        bufferPlaces := e.body.bufferPlaces.insert slot.index (e.body.newPlace bytes).1 }
      return (e.body.newPlace bytes).1 : Emit StackId).run.run e).2 := .of_eq rfl
  cases e.body.bufferPlaces.find? slot.index with
  | none => exact hnew
  | some place =>
      dsimp only
      split
      · exact .refl e
      · exact hnew

instance : Notes Unasked where
  newValue _ := fun _ => .of_eq rfl
  newVar _ := fun _ => .of_eq rfl
  push i _ _ := unasked_push i
  define t instr _ _ := unasked_define t instr
  allocate _ := fun _ => .of_eq rfl
  takeScratch _ := .bind (fun _ => .of_eq rfl) fun slot => (unasked_scratchVar slot _).bind fun _ =>
    .pure _
  stackBuffer _ _ := .refuse (.bind (fun _ => .of_eq rfl) fun _ =>
    (unasked_bufferPlace _ _).bind fun _ => .pure _)
  datum _ _ _ _ := rfl
  describe _ _ := .of_eq rfl

instance : Offsets Unasked where
  offset _ _ _ := unasked_define _ _

instance : Branches Unasked where
  createBlock _ := fun _ => .of_eq rfl
  terminate t := .of_runs (fun e u e' h => by
    obtain ⟨b, -, rfl⟩ := succeeds_terminate.1 h
    exact .of_eq rfl) fun e f e' h => (fails_terminate.1 h).2 ▸ .refl e
  switchTo id := .of_runs (fun e u e' h => by
    obtain ⟨b, -, rfl⟩ := succeeds_switchTo.1 h
    exact .of_eq rfl) fun e f e' h => (fails_switchTo.1 h).2 ▸ .refl e

theorem unasked_perform {c : Call} (h : c.asks = false) : Leaves Unasked c.perform := by
  refine leaves_perform_of_asks (fun hasks => ?_) (fun slot _ => unasked_release slot)
    (fun slot _ _ => unasked_release slot) fun _ _ => unasked_define _ _
  rw [h] at hasks
  cases hasks

structure Asked (e : Emitter) (k : Operator × Ty) (e' : Emitter) : Prop where
  granted : ∀ r, e.declarations.helper k.1 k.2 = .ok r →
    Unasked { e with declarations := r.2 } e'
  refused : ∀ f, e.declarations.helper k.1 k.2 = .error f → e.Unasked e'

theorem asked_callHelper (e : Emitter) (op : Operator) (t : Ty) (args : List ValueId) :
    Asked e (op, t) ((callHelper op t args).run.run e).2 := by
  have hrun : (callHelper op t args).run.run e = ((do
      let r ← check (e.declarations.helper op t)
      modify fun e => { e with declarations := r.2 }
      define t fun v => .call (some v) r.1 args : Emit ValueId)).run.run e := rfl
  rw [hrun]
  constructor
  · intro r hr
    rw [show e.declarations.helper op t = .ok r from hr]
    exact unasked_define t (fun v => .call (some v) r.1 args) { e with declarations := r.2 }
  · intro f hf
    rw [show e.declarations.helper op t = .error f from hf]
    exact .refl e

variable {op : BinaryOp} {x y : ValueId} {t : Ty}

theorem run_settings (k : Settings → Emit α) (e : Emitter) :
    (Emit.settings >>= k).run.run e = (k e.settings).run.run e := rfl

theorem asked_operator (hinline : e.settings.inline = false)
    (h : Succeeds (operandType op x y) e t e) :
    Asked e (.binary op, t) ((operator op x y).run.run e).2 := by
  have hrun : (operator op x y).run.run e = (callHelper (.binary op) t [x, y]).run.run e := by
    rw [operator, run_settings, hinline, if_neg Bool.false_ne_true, run_bind,
      show (operandType op x y).run.run e = _ from h]
  rw [hrun]
  exact asked_callHelper e _ t [x, y]

theorem unasked_operator (h : e.settings.inline = true ∨ ∀ t, ¬ Succeeds (operandType op x y) e t e) :
    e.Unasked ((operator op x y).run.run e).2 := by
  rw [operator, run_settings]
  by_cases hinline : e.settings.inline = true
  · rw [if_pos hinline]
    exact leaves_binary op x y e
  · rw [if_neg hinline, run_bind]
    rcases succeeds_or_fails (operandType op x y) e with ⟨t, ht⟩ | ⟨f, hf⟩
    · obtain ⟨-, he⟩ := succeeds_operandType_iff.1 ht
      rw [← he] at ht
      exact absurd ht (h.resolve_left hinline t)
    · have hleaves := leaves_operandType (R := Unasked) op x y e
      rw [show (operandType op x y).run.run e = _ from hf]
      exact hleaves

variable {op₁ : UnaryOp}

theorem asked_unary (hinline : e.settings.inline = false) (ht : e.body.valueTypes[x.index]? = some t)
    (hop : op₁.accepts t = true) : Asked e (.unary op₁, t) ((unary op₁ x).run.run e).2 := by
  have hrun : (unary op₁ x).run.run e = (callHelper (.unary op₁) t [x]).run.run e := by
    rw [unary, run_bind, show (valueType x).run.run e = _ from succeeds_valueType.2 ⟨ht, rfl⟩]
    simp only [hop, Bool.not_true, Bool.false_eq_true, if_false]
    rw [run_settings, hinline, if_neg Bool.false_ne_true]
  rw [hrun]
  exact asked_callHelper e _ t [x]

theorem unasked_unary (h : e.settings.inline = true ∨
    ∀ t, e.body.valueTypes[x.index]? = some t → op₁.accepts t = false) :
    e.Unasked ((unary op₁ x).run.run e).2 := by
  rw [unary]
  refine leaves_bind (fun _ _ _ => .trans) (leaves_valueType x e) fun t e₁ hx _ => ?_
  obtain ⟨ht, rfl⟩ := succeeds_valueType.1 hx
  by_cases hop : op₁.accepts t = true
  · have hinline := h.resolve_right fun h => Bool.false_ne_true ((h t ht).symm.trans hop)
    rw [hop, Bool.not_true, if_neg Bool.false_ne_true, run_settings, hinline, if_pos rfl]
    exact unasked_define t _ e
  · rw [Bool.not_eq_true] at hop
    rw [hop]
    exact .refl e

variable {c : Call} {k : Operator × Ty}

theorem applies_operator_iff : (Call.operator op x y).applies? e.body = some k ↔
    ∃ t, Succeeds (operandType op x y) e t e ∧ k = (.binary op, t) := by
  simp only [Call.applies?, succeeds_operandType_iff, Option.bind_eq_some_iff,
    Option.ite_none_right_eq_some, Option.some.injEq, and_true, and_assoc, eq_comm (a := k)]

theorem applies_unary_iff : (Call.unary op₁ x).applies? e.body = some k ↔
    ∃ t, e.body.valueTypes[x.index]? = some t ∧ op₁.accepts t = true ∧ k = (.unary op₁, t) := by
  simp only [Call.applies?, Option.bind_eq_some_iff, Option.ite_none_right_eq_some, Option.some.injEq,
    eq_comm (a := k)]

/-- A call asks for the helper of the operator that it applies, unless operators are emitted in
place. -/
theorem asked_perform (h : e.wants? c = some k) : Asked e k (c.perform.run.run e).2 := by
  unfold Emitter.wants? at h
  split at h
  · cases h
  next hinline =>
    rw [Bool.not_eq_true] at hinline
    cases c with
    | operator op lhs rhs =>
        obtain ⟨t, ht, rfl⟩ := applies_operator_iff.1 h
        rw [Call.perform, snd_run_map]
        exact asked_operator hinline ht
    | unary op operand =>
        obtain ⟨t, ht, hop, rfl⟩ := applies_unary_iff.1 h
        rw [Call.perform, snd_run_map]
        exact asked_unary hinline ht hop
    | _ => cases h

theorem unasked_of_wants (h : e.wants? c = none) : e.Unasked (c.perform.run.run e).2 := by
  have hcases : e.settings.inline = true ∨ c.applies? e.body = none := by
    unfold Emitter.wants? at h
    split at h
    · next hinline => exact .inl hinline
    · exact .inr h
  cases c with
  | operator op lhs rhs =>
      rw [Call.perform, snd_run_map]
      refine unasked_operator (hcases.imp_right fun h t ht => ?_)
      have hk := applies_operator_iff.2 ⟨t, ht, rfl⟩
      rw [h] at hk
      cases hk
  | unary op operand =>
      rw [Call.perform, snd_run_map]
      refine unasked_unary (hcases.imp_right fun h t ht => ?_)
      by_contra hop
      have hk := applies_unary_iff.2 ⟨t, ht, Bool.not_eq_false _ ▸ hop, rfl⟩
      rw [h] at hk
      cases hk
  | _ => exact unasked_perform rfl e

end Emit

end Asking

namespace Assembler

variable {a a' : Assembler} {body b : Body}

/-- The helper that a call asks for in the open function. A call is refused, and asks for none, when
an exported function has the name. -/
def wants? (a : Assembler) (c : Call) : Option (Operator × Ty) :=
  match a.current? with
  | some b => (Emitter.wants? ⟨b, a.declarations, a.pools, a.settings⟩ c).filter fun k =>
    !a.declarations.functions.toList.any fun s => s.exported && s.name == Declarations.nameOf k
  | none => none

end Assembler

/-- What is written down of the requests for a module and of their answers. -/
structure Log where
  /-- The name under which a function was begun last. -/
  name : String := ""
  /-- The helpers that had been asked for when a function last ended, in the order in which they
  were asked for first. -/
  settled : List (Operator × Ty) := []
  /-- The helpers that have been asked for since then for the first time. -/
  fresh : List (Operator × Ty) := []
  /-- The name of each function that has ended, and behind it those of the helpers that were fresh
  when it did. -/
  listed : List String := []

namespace Log

def asked (l : Log) : List (Operator × Ty) := l.settled ++ l.fresh

def ask (l : Log) (k : Operator × Ty) : Log :=
  if k ∈ l.asked then l else { l with fresh := l.fresh ++ [k] }

def turn (l : Log) : Log :=
  { l with
    settled := l.asked
    fresh := []
    listed := l.listed ++ l.name :: l.fresh.map Declarations.nameOf }

/-- What one request adds, which is nothing if a function is neither begun nor ended by it. -/
def next (l : Log) (a : Assembler) (r : Request) : Log :=
  match r, (r.perform.run.run a).1 with
  | .begin name _ _, .ok _ => { l with name }
  | .emit c, _ => (a.wants? c).elim l l.ask
  | .finish, .ok _ => l.turn
  | _, _ => l

def after (l : Log) (a : Assembler) : List Request → Log
  | [] => l
  | r :: rs => (l.next a r).after (r.perform.run.run a).2 rs

structure Tells (l : Log) (a : Assembler) : Prop where
  distinct : (a.declarations.functions.toList.map (·.name)).Nodup
  nodup : l.asked.Nodup
  hidden : (a.declarations.functions.toList.filter (!·.exported)).map (·.name) =
    l.asked.map Declarations.nameOf
  helpers : ∀ k, (a.declarations.helpers.find? k).isSome = true ↔ k ∈ l.asked
  pending : a.declarations.pending.map (fun r => (r.op, r.ty)) = l.fresh
  opened : ∀ b, a.current? = some b → b.name = l.name ∧ a.declarations.Names b.id b.name
  named : ∀ b ∈ a.defined, a.declarations.Names b.id b.name
  listed : a.defined.map (·.name) = l.listed
  once : l.listed.Nodup
  lowered : ∀ k ∈ l.settled, ∃ b ∈ a.defined, b.name = Declarations.nameOf k ∧ b.IsHelper k.1 k.2
  waiting : ∀ k ∈ l.fresh, Declarations.nameOf k ∉ l.listed
  idle : a.stage ≠ .opened → l.fresh = []

variable {l : Log} {a a' : Assembler} {body b : Body} {r : HelperRequest}

theorem tells_new (name : String) (s : Settings) : Tells {} (.new name s) where
  distinct := .nil
  nodup := .nil
  hidden := rfl
  helpers k := by simp [Assembler.new, Table.find?_empty, asked]
  pending := rfl
  opened b h := by cases h
  named b h := by cases h
  listed := rfl
  once := .nil
  lowered k h := by cases h
  waiting k h := by cases h
  idle _ := rfl

/-- Functions of one name are one function. -/
theorem Tells.index_eq (h : l.Tells a) {i j : Nat} {s s' : Signature}
    (hs : a.declarations.functions[i]? = some s) (hs' : a.declarations.functions[j]? = some s')
    (hname : s.name = s'.name) : i = j := by
  have hi : (a.declarations.functions.toList.map (·.name))[i]? = some s.name := by simp [hs]
  have hj : (a.declarations.functions.toList.map (·.name))[j]? = some s'.name := by simp [hs']
  obtain ⟨hlt, -⟩ := List.getElem?_eq_some_iff.1 hi
  exact (List.getElem?_inj hlt h.distinct).1 (hi.trans (hname ▸ hj.symm))

/-- The functions that have been asked for are there and are not exported. -/
theorem Tells.exists_hidden (h : l.Tells a) {k : Operator × Ty} (hk : k ∈ l.asked) :
    ∃ s ∈ a.declarations.functions, s.exported = false ∧ s.name = Declarations.nameOf k := by
  have hmem := List.mem_map_of_mem (f := Declarations.nameOf) hk
  rw [← h.hidden] at hmem
  obtain ⟨s, hs, hname⟩ := List.mem_map.1 hmem
  rw [List.mem_filter] at hs
  exact ⟨s, by simpa using hs.1, by simpa using hs.2, hname⟩

/-- Only helpers that have been asked for have their names, apart from exported functions. -/
theorem Tells.mem_asked (h : l.Tells a) {k : Operator × Ty} {s : Signature}
    (hs : s ∈ a.declarations.functions) (he : s.exported = false)
    (hname : s.name = Declarations.nameOf k) : k ∈ l.asked := by
  have hmem : s.name ∈ l.asked.map Declarations.nameOf := by
    rw [← h.hidden]
    exact List.mem_map_of_mem (List.mem_filter.2 ⟨by simpa using hs, by simp [he]⟩)
  obtain ⟨k', hk', hname'⟩ := List.mem_map.1 hmem
  obtain rfl := Declarations.nameOf_injective (hname'.trans hname)
  exact hk'

/-- No exported function has the name of a helper that has been asked for. -/
theorem Tells.ne_nameOf (h : l.Tells a) {k : Operator × Ty} (hk : k ∈ l.asked) {s : Signature}
    (hs : s ∈ a.declarations.functions) (he : s.exported = true) : s.name ≠ Declarations.nameOf k := by
  intro hname
  obtain ⟨s', hs', he', hname'⟩ := h.exists_hidden hk
  obtain rfl := List.inj_on_of_nodup_map h.distinct (by simpa using hs) (by simpa using hs')
    (hname.trans hname'.symm)
  rw [he] at he'
  cases he'

section Steps

open Assembler (Accounts EndsWith)

theorem name_new (id : FunctionId) (name : String) (params : List Param) (result : Option Ty) :
    (Body.new id name params result).name = name := by
  obtain ⟨args, types, h⟩ := Body.new_eq id name params result
  exact congrArg Body.name h

/-- A function of a new name is declared. -/
theorem distinct_declare {d : Declarations} {s : Signature}
    (h : (d.functions.toList.map (·.name)).Nodup) (hfind : d.find? s.name = none) :
    ((d.functions.push s).toList.map (·.name)).Nodup := by
  rw [Array.toList_push, List.map_append, List.nodup_append]
  refine ⟨h, List.nodup_singleton _, ?_⟩
  rintro x hx y hy rfl
  obtain ⟨s', hs', rfl⟩ := List.mem_map.1 hx
  exact Declarations.find?_eq_none hfind (by simpa using hs') (List.mem_singleton.1 hy)

theorem Tells.begin (h : l.Tells a) (name : String) (params : List Param) (result : Option Ty) :
    (l.next a (.begin name params result)).Tells
      ((Request.begin name params result).perform.run.run a).2 := by
  unfold next
  rw [Assembler.run_begin]
  rcases a.beginFunction_cases name params result with ⟨-, hfind, hbegin⟩ | ⟨-, f, hbegin⟩
  swap
  · rw [hbegin]
    exact h
  rw [hbegin]
  have hpush : Prefix a.declarations.functions
    (a.declarations.functions.push ⟨name, params.map (·.ty), result, true⟩) := .push _ _
  refine ⟨distinct_declare h.distinct hfind, h.nodup, ?_, h.helpers, h.pending, fun b hb => ?_,
    fun b hb => (h.named b hb).mono hpush, h.listed, h.once, h.lowered, h.waiting, fun h => ?_⟩
  · simpa [asked, Assembler.begun] using h.hidden
  · obtain rfl := Option.some.inj (Assembler.current?_eq_some_iff.1 hb).2
    refine ⟨name_new _ name params result, ?_⟩
    dsimp only
    rw [Body.id_new, name_new]
    exact ⟨_, Array.getElem?_push_size, rfl⟩
  · exact absurd rfl h

/-- Whatever is called, the body keeps its name. -/
theorem name_of_steps {P : Instr → Prop} {e e' : Emitter} (h : e.Steps P e') :
    e'.body.name = e.body.name := by
  refine h.keeps (R := fun e₁ => e₁.body.name = e.body.name) (fun e₁ e₂ hstep he => ?_) rfl
  refine Eq.trans ?_ he
  cases hstep with
  | push hi hd hb =>
      obtain ⟨-, rfl⟩ := Body.push_eq_ok_iff.1 hb
      rfl
  | define hi hd hb =>
      obtain ⟨-, rfl⟩ := Body.push_eq_ok_iff.1 hb
      rfl
  | terminate hb =>
      obtain ⟨-, rfl⟩ := Body.terminate_eq_ok_iff.1 hb
      rfl
  | switchTo hb =>
      obtain ⟨-, layout, rfl⟩ := Body.switchTo_eq_ok hb
      rfl
  | _ => rfl

/-- What is recorded while a function is open, if no helper is asked for. -/
theorem Tells.record (h : l.Tells a) (hstage : a.current? = some body)
    (hname : b.name = body.name) (hid : b.id = body.id) {d : Declarations} {ps : Pools}
    (hd : d = { a.declarations with data := d.data }) :
    l.Tells { a with body := some b, declarations := d, pools := ps } := by
  rw [hd]
  refine ⟨h.distinct, h.nodup, h.hidden, h.helpers, h.pending, fun b' hb' => ?_, h.named, h.listed,
    h.once, h.lowered, h.waiting, h.idle⟩
  obtain rfl := Option.some.inj (Assembler.current?_eq_some_iff.1 hb').2
  rw [hname, hid]
  exact h.opened body hstage

/-- A helper is declared where it is asked for first. -/
theorem Tells.ask (h : l.Tells a) {k : Operator × Ty} (hk : k ∉ l.asked)
    (hopen : a.stage = .opened) (hfind : a.declarations.find? (Declarations.nameOf k) = none)
    {s : Signature} (hs : s.name = Declarations.nameOf k) (he : s.exported = false) :
    (l.ask k).Tells { a with declarations := { a.declarations with
      functions := a.declarations.functions.push s
      helpers := a.declarations.helpers.insert k ⟨a.declarations.functions.size⟩
      pending := a.declarations.pending ++ [⟨⟨a.declarations.functions.size⟩, k.1, k.2⟩] } } := by
  have hpush : Prefix a.declarations.functions (a.declarations.functions.push s) := .push _ _
  have hasked : (l.ask k).asked = l.asked ++ [k] := by
    rw [Log.ask, if_neg hk, asked, asked, List.append_assoc]
  rw [← hs] at hfind
  have hfresh : (l.ask k).fresh = l.fresh ++ [k] := by rw [Log.ask, if_neg hk]
  have hrest : (l.ask k).name = l.name ∧ (l.ask k).settled = l.settled ∧
      (l.ask k).listed = l.listed := by
    rw [Log.ask, if_neg hk]
    exact ⟨rfl, rfl, rfl⟩
  obtain ⟨hname, hsettled, hlisted⟩ := hrest
  refine ⟨distinct_declare h.distinct hfind, ?_, ?_, fun k' => ?_, ?_, fun b hb => ?_,
    fun b hb => (h.named b hb).mono hpush, hlisted ▸ h.listed, hlisted ▸ h.once, ?_, fun k' hk' => ?_,
    fun hclosed => ?_⟩
  · rw [hasked]
    exact List.nodup_append.2 ⟨h.nodup, List.nodup_singleton k, by
      rintro x hx y hy rfl
      exact hk (List.mem_singleton.1 hy ▸ hx)⟩
  · rw [hasked, List.map_append, ← h.hidden, Array.toList_push, List.filter_append, List.map_append]
    simp [he, hs]
  · rw [hasked, List.mem_append, List.mem_singleton, ← h.helpers, Table.find?_insert]
    by_cases hkey : k' = k
    · simp [hkey]
    · simp [hkey]
  · rw [hfresh, List.map_append, h.pending]
    rfl
  · obtain ⟨hb, hnames⟩ := h.opened b hb
    exact ⟨hb.trans hname.symm, hnames.mono hpush⟩
  · rw [hsettled]
    exact h.lowered
  · rw [hlisted]
    rw [hfresh, List.mem_append, List.mem_singleton] at hk'
    rcases hk' with hk' | rfl
    · exact h.waiting k' hk'
    · intro hmem
      rw [← h.listed] at hmem
      obtain ⟨b, hb, hbname⟩ := List.mem_map.1 hmem
      obtain ⟨s', hs', hname'⟩ := h.named b hb
      exact Declarations.find?_eq_none hfind (Array.mem_of_getElem? hs')
        (hname'.trans (hbname.trans hs.symm))
  · exact absurd hopen hclosed

theorem ask_of_mem {k : Operator × Ty} (hk : k ∈ l.asked) : l.ask k = l := if_pos hk

/-- A helper that is refused has not been asked for, and its name is taken. -/
theorem find?_of_refused {d : Declarations} {k : Operator × Ty} {f : Fault}
    (h : d.helper k.1 k.2 = .error f) : ∃ s ∈ d.functions, s.name = Declarations.nameOf k := by
  unfold Declarations.helper at h
  split at h
  · cases h
  · rcases bind_eq_error_iff.1 h with h | ⟨_, -, h⟩
    · unfold Declarations.declare at h
      split at h
      · next hfind =>
          obtain ⟨id, hid⟩ := Option.isSome_iff_exists.1 hfind
          obtain ⟨s, hs, hname⟩ := Declarations.find?_eq_some hid
          exact ⟨s, Array.mem_of_getElem? hs, hname⟩
      · cases h
    · cases h

/-- Asking again, or for a helper whose name an exported function has, changes nothing. -/
theorem Tells.elim_wants (h : l.Tells a) {c : Call} {k : Operator × Ty} (hbody : a.current? = some body)
    (hk : Emitter.wants? ⟨body, a.declarations, a.pools, a.settings⟩ c = some k)
    (htaken : k ∈ l.asked ∨ ∃ s ∈ a.declarations.functions, s.name = Declarations.nameOf k) :
    (a.wants? c).elim l l.ask = l := by
  unfold Assembler.wants?
  rw [hbody]
  dsimp only
  rw [hk, Option.filter_some]
  split
  · next hnone =>
      refine ask_of_mem (htaken.elim id ?_)
      rintro ⟨s, hs, hname⟩
      refine h.mem_asked hs ?_ hname
      by_contra he
      rw [Bool.not_eq_false] at he
      simp only [Bool.not_eq_true', List.any_eq_false] at hnone
      exact hnone s (by simpa using hs) (by simp [he, hname])
  · rfl

/-- Asking for the first time is written down. -/
theorem wants_of_find? {c : Call} {k : Operator × Ty} (hbody : a.current? = some body)
    (hk : Emitter.wants? ⟨body, a.declarations, a.pools, a.settings⟩ c = some k)
    (hfind : a.declarations.find? (Declarations.nameOf k) = none) : a.wants? c = some k := by
  unfold Assembler.wants?
  rw [hbody]
  dsimp only
  rw [hk, Option.filter_some, if_pos]
  rw [Bool.not_eq_true', List.any_eq_false]
  intro s hs
  simp [Declarations.find?_eq_none hfind (Array.mem_toList_iff.1 hs)]

theorem Tells.emit (h : l.Tells a) (c : Call) :
    (l.next a (.emit c)).Tells ((Request.emit c).perform.run.run a).2 := by
  change ((a.wants? c).elim l l.ask).Tells ((Assembler.emit c.perform).run.run a).2
  by_cases hopen : ∃ b, a.current? = some b
  swap
  · have hwants : a.wants? c = none := by
      unfold Assembler.wants?
      split
      · next b hb => exact absurd ⟨b, hb⟩ hopen
      · rfl
    rw [Assembler.run_emit_of_not_opened c.perform fun b hb => hopen ⟨b, hb⟩, hwants]
    exact h
  obtain ⟨body, hbody⟩ := hopen
  have hsteps := Emit.Moves.perform c ⟨body, a.declarations, a.pools, a.settings⟩
  have hname := name_of_steps hsteps
  have hid := hsteps.within.id
  rcases hrun : c.perform.run.run ⟨body, a.declarations, a.pools, a.settings⟩ with ⟨r, e⟩
  rw [hrun] at hname hid
  rw [Assembler.run_emit_of_opened hbody hrun]
  cases hk : Emitter.wants? ⟨body, a.declarations, a.pools, a.settings⟩ c with
  | none =>
      have hunasked := Emit.unasked_of_wants hk
      have hwants : a.wants? c = none := by
        unfold Assembler.wants?
        rw [hbody]
        dsimp only
        rw [hk, Option.filter_none]
      rw [hrun] at hunasked
      rw [hwants]
      exact h.record hbody hname hid hunasked
  | some k =>
      have hasked := Emit.asked_perform hk
      rw [hrun] at hasked
      cases hhelper : a.declarations.helper k.1 k.2 with
      | error f =>
          rw [h.elim_wants hbody hk (.inr (find?_of_refused hhelper))]
          exact h.record hbody hname hid (hasked.refused f hhelper)
      | ok r =>
          have hunasked := hasked.granted r hhelper
          obtain ⟨id, d⟩ := r
          rcases Declarations.helper_cases hhelper with ⟨hfind, rfl⟩ | ⟨⟨hfind, hfree⟩, rfl, rfl⟩
          · have hmem : k ∈ l.asked := (h.helpers k).1 (Option.isSome_iff_exists.2 ⟨id, hfind⟩)
            rw [h.elim_wants hbody hk (.inl hmem)]
            exact h.record hbody hname hid hunasked
          · have hnew : k ∉ l.asked := by
              intro hmem
              rw [← h.helpers, show a.declarations.helpers.find? k = none from hfind] at hmem
              cases hmem
            rw [wants_of_find? hbody hk hfree]
            exact (h.ask hnew (Assembler.current?_eq_some_iff.1 hbody).1 hfree rfl rfl).record hbody hname hid hunasked

theorem name_of_implicitReturn (h : Assembler.implicitReturn body = .ok b) : b.name = body.name := by
  obtain rfl | ⟨-, hterminate⟩ := Assembler.implicitReturn_eq_ok h
  · rfl
  · obtain ⟨-, rfl⟩ := Body.terminate_eq_ok_iff.1 hterminate
    rfl

/-- The body of a helper has the name of the helper. -/
theorem name_of_hasBody {d : Declarations} (hd : d.Labelled) (hr : d.IsHelper r.op r.ty r.function)
    (hmem : r ∈ d.pending) (h : Assembler.HasBody d r b) :
    b.name = Declarations.nameOf (r.op, r.ty) := by
  obtain ⟨s, hs, hb⟩ := h
  obtain ⟨s', hs', hname, -⟩ := hd.pending r hmem
  obtain ⟨-, s'', hs'', hparams, -⟩ := hr
  obtain rfl := Option.some.inj (hs'.symm.trans hs'')
  obtain rfl := Option.some.inj (hs'.symm.trans (Declarations.function_eq_ok_iff.1 hs))
  obtain ⟨b', hb', -, hbname, -⟩ := r.exists_body hparams
  obtain rfl := Except.ok.inj (hb.symm.trans hb')
  exact hbname.trans hname

theorem map_eq_of_forall₂ {α β γ : Type} {R : α → β → Prop} {f : α → γ} {g : β → γ} {xs : List α}
    {ys : List β} (h : List.Forall₂ R xs ys) (hR : ∀ x ∈ xs, ∀ y, R x y → g y = f x) :
    ys.map g = xs.map f := by
  induction h with
  | nil => rfl
  | cons hxy _ ih =>
      rw [List.map_cons, List.map_cons, hR _ (by simp) _ hxy, ih fun x hx => hR x (by simp [hx])]

/-- The function that is open has a name that is neither listed nor that of a helper. -/
theorem Tells.name_free (h : l.Tells a) (ha : a.Accounts fun _ => False)
    (hbody : a.current? = some body) :
    body.name ∉ l.listed ∧ ∀ k ∈ l.asked, Declarations.nameOf k ≠ body.name := by
  have hopens : a.Opens body.id := ⟨body, hbody, rfl⟩
  obtain ⟨-, s, hs, he⟩ := ha.opened body.id hopens
  obtain ⟨-, s', hs', hname⟩ := h.opened body hbody
  obtain rfl := Option.some.inj (hs.symm.trans hs')
  constructor
  · intro hmem
    rw [← h.listed] at hmem
    obtain ⟨b, hb, hbname⟩ := List.mem_map.1 hmem
    obtain ⟨s', hs', hname'⟩ := h.named b hb
    have hid : b.id.index = body.id.index :=
      h.index_eq hs' hs (hname'.trans (hbname.trans hname.symm))
    have hdefined : a.isDefined body.id = true :=
      Assembler.isDefined_iff.2 ⟨b, hb, congrArg FunctionId.mk hid⟩
    exact ((ha.exports body.id s hs he).1 hdefined).2 hopens
  · intro k hk hkname
    exact h.ne_nameOf hk (Array.mem_of_getElem? hs) he (hname.trans hkname.symm)

/-- At the end of a function the helpers that are fresh are lowered behind it, in their order. -/
theorem Tells.turn (h : l.Tells a) (ha : a.Accounts fun _ => False) {helpers : List Body}
    (hends : a.EndsWith body b helpers a')
    (hfunctions : a'.declarations.functions = a.declarations.functions) : l.turn.Tells a' := by
  have hmade : ∀ r ∈ a.declarations.pending, ∀ b', Assembler.HasBody a.declarations r b' →
      b'.name = Declarations.nameOf (r.op, r.ty) ∧ b'.id = r.function ∧ b'.IsHelper r.op r.ty := by
    intro r hr b' hb'
    have hhelper := ha.typed.declarations.pending r hr
    obtain ⟨hid, his, -⟩ := hb'.isHelper_of_typed hhelper
    exact ⟨name_of_hasBody ha.labelled hhelper hr hb', hid, his⟩
  have hnames : helpers.map (·.name) = l.fresh.map Declarations.nameOf := by
    rw [← h.pending, List.map_map]
    exact map_eq_of_forall₂ hends.made fun r hr b' hb' => (hmade r hr b' hb').1
  have hname : b.name = l.name :=
    (name_of_implicitReturn hends.finished).trans (h.opened body hends.opened).1
  have hid : b.id = body.id := (Assembler.within_of_implicitReturn hends.finished).id
  have hasked : l.turn.asked = l.asked := List.append_nil _
  obtain ⟨hbname, hnames'⟩ := h.opened body hends.opened
  obtain ⟨hlisted, hhelper⟩ := h.name_free ha hends.opened
  rw [hbname] at hlisted hhelper hnames'
  refine ⟨hfunctions ▸ h.distinct, hasked ▸ h.nodup, by rw [hfunctions, hasked, h.hidden],
    fun k => ?_, by rw [hends.declarations]; rfl, fun b' hb' => ?_, fun b' hb' => ?_, ?_, ?_,
    fun k hk => ?_, fun k hk => (by cases hk), fun _ => rfl⟩
  · rw [hasked, ← h.helpers, hends.declarations]
  · cases hends.stage.symm.trans (Assembler.current?_eq_some_iff.1 hb').1
  · have hprefix : Prefix a.declarations.functions a'.declarations.functions := by
      rw [hfunctions]
      exact .refl _
    refine Declarations.Names.mono ?_ hprefix
    rw [hends.defined, List.mem_append, List.mem_cons] at hb'
    rcases hb' with hb' | rfl | hb'
    · exact h.named b' hb'
    · rw [hid, hname]
      exact hnames'
    · obtain ⟨r, hr, hb'⟩ := Assembler.forall₂_mem_right hends.made hb'
      obtain ⟨hbname, hbid, -⟩ := hmade r hr b' hb'
      obtain ⟨s, hs, hsname, -⟩ := ha.labelled.pending r hr
      rw [hbname, hbid]
      exact ⟨s, hs, hsname⟩
  · rw [hends.defined, List.map_append, List.map_cons, h.listed, hname, hnames]
    rfl
  · have hfresh : (l.fresh.map Declarations.nameOf).Nodup :=
      (List.nodup_append.1 h.nodup).2.1.map Declarations.nameOf_injective
    refine List.nodup_append.2 ⟨h.once, List.nodup_cons.2 ⟨fun hmem => ?_, hfresh⟩, ?_⟩
    · obtain ⟨k, hk, hkname⟩ := List.mem_map.1 hmem
      exact hhelper k (List.mem_append_right _ hk) hkname
    · rintro x hx y hy rfl
      rcases List.mem_cons.1 hy with rfl | hy
      · exact hlisted hx
      · obtain ⟨k, hk, rfl⟩ := List.mem_map.1 hy
        exact h.waiting k hk hx
  · rw [hends.defined]
    rcases List.mem_append.1 hk with hk | hk
    · obtain ⟨b', hb', hrest⟩ := h.lowered k hk
      exact ⟨b', List.mem_append_left _ hb', hrest⟩
    · rw [← h.pending] at hk
      obtain ⟨r, hr, rfl⟩ := List.mem_map.1 hk
      obtain ⟨b', hb', hbody⟩ := Assembler.forall₂_mem_left hends.made hr
      obtain ⟨hbname, -, his⟩ := hmade r hr b' hbody
      exact ⟨b', List.mem_append_right _ (List.mem_cons_of_mem _ hb'), hbname, his⟩

/-- An end that is granted turns the page, and one that is refused is not written down. -/
theorem Tells.finish (h : l.Tells a) (ha : a.Accounts fun _ => False)
    (hnot : ∀ id, ¬ a.Strands .finish id) :
    (l.next a .finish).Tells (Request.finish.perform.run.run a).2 := by
  unfold next
  rw [Assembler.run_finish]
  by_cases hopen : ∃ b, a.current? = some b
  swap
  · rw [Assembler.run_endFunction_of_not_opened fun b hb => hopen ⟨b, hb⟩]
    exact h
  obtain ⟨body, hbody⟩ := hopen
  have houtcome := ha.outcome hbody
  have hfails : ∀ f, (Assembler.endFunction.run.run a).1 = .error f → f.IsRefusal := by
    intro f hf
    by_contra hrefusal
    refine hnot body.id ⟨rfl, ⟨body, hbody, rfl⟩, f, ?_, hrefusal⟩
    rw [Assembler.run_finish, hf]
    rfl
  revert hfails
  generalize (Assembler.endFunction.run.run a).1 = r, (Assembler.endFunction.run.run a).2 = a'
    at houtcome ⊢
  intro hfails
  cases houtcome with
  | refused w => exact h
  | defined hends henters hcallees => exact h.turn ha hends henters.functions
  | failed hf => exact absurd (hfails _ rfl) hf

theorem Tells.perform (h : l.Tells a) (ha : a.Accounts fun _ => False) (r : Request)
    (hnot : ∀ id, ¬ a.Strands r id) : (l.next a r).Tells (r.perform.run.run a).2 := by
  cases r with
  | settings s =>
      rw [Assembler.run_settings]
      rcases Assembler.setSettings_cases a s with ⟨-, hset⟩ | ⟨-, hset⟩
      · rw [hset]
        exact ⟨h.distinct, h.nodup, h.hidden, h.helpers, h.pending, h.opened, h.named, h.listed, h.once,
          h.lowered, h.waiting, h.idle⟩
      · rw [hset]
        exact h
  | begin name params result => exact h.begin name params result
  | emit c => exact h.emit c
  | finish => exact h.finish ha hnot

theorem Tells.after (h : l.Tells a) (ha : a.Accounts fun _ => False) {rs : List Request}
    (hnot : ∀ id, ¬ a.Stranded id rs) :
    (l.after a rs).Tells (a.after rs) ∧ (a.after rs).Accounts fun _ => False := by
  induction rs generalizing l a with
  | nil => exact ⟨h, ha⟩
  | cons r rs ih =>
      have hr : ∀ id, ¬ a.Strands r id := fun id hid => hnot id (.inl hid)
      have ha' : (r.perform.run.run a).2.Accounts fun _ => False :=
        (ha.perform r).congr fun id => ⟨False.elim, fun hid => hid.elim False.elim (hr id)⟩
      exact ih (h.perform ha r hr) ha' fun id hid => hnot id (.inr hid)

end Steps

section Runs

/-- What has one name in a list in which names are not repeated. -/
theorem filter_name {bs : List Body} (h : (bs.map (·.name)).Nodup) (hb : b ∈ bs) :
    bs.filter (·.name == b.name) = [b] := by
  induction bs with
  | nil => cases hb
  | cons b' bs ih =>
      rw [List.map_cons, List.nodup_cons] at h
      obtain ⟨hnot, hnodup⟩ := h
      rcases List.mem_cons.1 hb with rfl | hb
      · rw [List.filter_cons_of_pos (by simp), List.filter_eq_nil_iff.2]
        intro c hc hname
        exact hnot (List.mem_map.2 ⟨c, hc, by simpa using hname⟩)
      · rw [List.filter_cons_of_neg, ih hnodup hb]
        intro hname
        exact hnot (List.mem_map.2 ⟨b, hb, (by simpa using hname : b'.name = b.name).symm⟩)

/-- While no function is open, whatever a lowered body calls has a body. -/
theorem Tells.exists_callee (h : l.Tells a) (ha : a.Accounts fun _ => False)
    (hclosed : a.stage ≠ .opened) (hb : b ∈ a.defined) {id : FunctionId} (hid : id ∈ b.callees) :
    ∃ s, a.declarations.function id = .ok s ∧ s.name ∈ l.listed := by
  obtain ⟨s, hs⟩ := (ha.typed.defined b hb).exists_callee hid
  have hdefined : a.isDefined id = true := by
    cases he : s.exported with
    | true => exact (ha.isDefined_iff hclosed hs he).2 not_false
    | false => exact ha.resolved b hb id hid s hs he
  obtain ⟨b', hb', rfl⟩ := Assembler.isDefined_iff.1 hdefined
  obtain ⟨s', hs', hname⟩ := h.named b' hb'
  obtain rfl := Option.some.inj (hs.symm.trans hs')
  refine ⟨s, Declarations.function_eq_ok_iff.2 hs, ?_⟩
  rw [hname, ← h.listed]
  exact List.mem_map_of_mem hb'

end Runs

end Log

namespace Assembler

open Declarations (nameOf)

/-- A request that is granted strands nothing. -/
theorem not_stranded_of_grants {a : Assembler} {rs : List Request} (h : a.grants rs = true)
    (id : FunctionId) : ¬ a.Stranded id rs := by
  induction rs generalizing a with
  | nil => exact fun h => h
  | cons r rs ih =>
      obtain ⟨hr, hrs⟩ := Bool.and_eq_true_iff.1 h
      rintro (⟨-, -, f, hf, -⟩ | hrest)
      · rw [hf] at hr
        cases hr
      · exact ih hrs hrest

/-- Whatever has been requested of a module, if no function has been stranded: the functions that it
lists are those that have ended, each followed by the helpers that were asked for the first time since
the last end that was granted, and no name is listed twice. Each helper is declared once, where it is
asked for first, and lowered once, when the function that was open then has ended. While no function
is open, all that lowered bodies call is listed. -/
theorem listing_of_recording (name : String) (settings : Settings) (requests : List Request)
    (h : ∀ id, ¬ (new name settings).Stranded id requests) :
    let a := (new name settings).after requests
    let l := ({} : Log).after (new name settings) requests
    (a.listing.functions.map (·.name) = l.listed ∧ l.listed.Nodup) ∧
    ((a.declarations.functions.toList.map (·.name)).Nodup ∧ l.asked.Nodup ∧
      (a.declarations.functions.toList.filter (!·.exported)).map (·.name) = l.asked.map nameOf) ∧
    (∀ k ∈ l.settled, ∃ b, a.defined.filter (·.name == nameOf k) = [b] ∧ b.IsHelper k.1 k.2) ∧
    (∀ k ∈ l.fresh, a.defined.filter (·.name == nameOf k) = []) ∧
    (a.stage ≠ .opened → l.fresh = [] ∧ ∀ b ∈ a.defined, ∀ id ∈ b.callees,
      ∃ s, a.declarations.function id = .ok s ∧ s.name ∈ l.listed) := by
  intro a l
  obtain ⟨htells, haccounts⟩ :=
    (Log.tells_new name settings).after (accounts_new name settings) h
  have honce : (a.defined.map (·.name)).Nodup := htells.listed ▸ htells.once
  refine ⟨⟨?_, htells.once⟩, ⟨htells.distinct, htells.nodup, htells.hidden⟩, fun k hk => ?_,
    fun k hk => ?_, fun hclosed => ⟨htells.idle hclosed, fun b hb id hid => ?_⟩⟩
  · rw [← htells.listed]
    simp [a, listing, Body.listing]
  · obtain ⟨b, hb, hname, hhelper⟩ := htells.lowered k hk
    exact ⟨b, hname ▸ Log.filter_name honce hb, hhelper⟩
  · rw [List.filter_eq_nil_iff]
    intro b hb hname
    refine htells.waiting k hk ?_
    rw [← htells.listed, ← (by simpa using hname : b.name = nameOf k)]
    exact List.mem_map_of_mem hb
  · exact htells.exists_callee haccounts hclosed hb hid

/-- Two functions that apply operators through helpers, one of them through a helper of the other. -/
def sharing : List Request :=
  [.settings { inline := false }, .begin "f" [⟨"x", .i32⟩, ⟨"y", .i32⟩] (some .i32),
    .emit (.operator .add ⟨0⟩ ⟨1⟩), .emit (.operator .multiply ⟨2⟩ ⟨2⟩),
    .emit (.operator .add ⟨3⟩ ⟨3⟩), .emit (.returnValue ⟨4⟩), .finish,
    .begin "g" [⟨"x", .i32⟩] (some .i32), .emit (.operator .multiply ⟨0⟩ ⟨0⟩),
    .emit (.unary .negate ⟨1⟩), .emit (.returnValue ⟨2⟩), .finish]

/-- Each function is listed with the helpers that were new to it, and each helper is lowered once. -/
theorem listing_sharing :
    ((new "m").after sharing).listing.functions.map (·.name) =
      ["f", "flowc_op_add_i32", "flowc_op_mul_i32", "g", "flowc_op_neg_i32"] ∧
    ∃ b, ((new "m").after sharing).defined.filter
      (·.name == nameOf (.binary .multiply, .i32)) = [b] ∧
      b.IsHelper (.binary .multiply) .i32 := by
  have hgrants : (new "m").grants sharing = true := by decide +kernel
  have hlisted : (({} : Log).after (new "m") sharing).listed =
      ["f", "flowc_op_add_i32", "flowc_op_mul_i32", "g", "flowc_op_neg_i32"] := by decide +kernel
  have hsettled : (({} : Log).after (new "m") sharing).settled =
      [(.binary .add, .i32), (.binary .multiply, .i32), (.unary .negate, .i32)] := by decide +kernel
  obtain ⟨⟨hnames, -⟩, -, honce, -, -⟩ :=
    listing_of_recording "m" {} sharing (not_stranded_of_grants hgrants)
  refine ⟨hnames.trans hlisted, honce (.binary .multiply, .i32) ?_⟩
  rw [hsettled]
  simp

end Assembler

end Dataflow.Code
