import Dataflow.Proofs.Lower.ElementCode
import Dataflow.Proofs.Lower.Compilable
import Dataflow.Proofs.Lower.Stock

/-!
# Loops and unrolled loops agree

Code for one element has a meaning of its own: from the elements of the inputs it computes what the
variables hold afterwards and which bytes it stores into the outlets. Whether a loop runs it or it is
emitted for one element after the other, running it for each element comes to that meaning, and so the
variables and all bytes that are stored agree in the end. Bytes that are never stored have no meaning:
in a buffer they are what was in its place of the frame before.
-/

namespace Dataflow

open Code (BinaryOp Body CompareOp Context Emit Emitter Layout StackBuffer Store Ty UnaryOp ValueId VarId Word)

def Image : Type := Port → Nat → Option UInt8

namespace Image

def blank : Image := fun _ _ => none

def put (im : Image) (l : Layout) (p : Port) (start : Nat) (w : Word) : Image := fun q i =>
  if q = p ∧ start ≤ i ∧ i < start + w.ty.size then (w.bytes l)[i - start]? else im q i

def Covers (im : Image) (p : Port) (start stop : Nat) : Prop :=
  ∀ i, start ≤ i → i < stop → (im p i).isSome = true

def Within (im im' : Image) : Prop := ∀ p i, (im p i).isSome = true → (im' p i).isSome = true

variable {im im' im'' : Image} {p : Port} {start stop : Nat} {w : Word} {l : Layout}

theorem Within.refl (im : Image) : im.Within im := fun _ _ h => h

theorem Within.trans (h : im.Within im') (h' : im'.Within im'') : im.Within im'' :=
  fun p i hi => h' p i (h p i hi)

theorem Covers.mono (h : im.Covers p start stop) (hw : im.Within im') : im'.Covers p start stop :=
  fun i hi hi' => hw p i (h i hi hi')

theorem covers_put : (im.put l p start w).Covers p start (start + w.ty.size) := by
  intro i hi hi'
  have hlt : i - start < (w.bytes l).length := by
    rw [Word.length_bytes]
    omega
  rw [put, if_pos ⟨rfl, hi, hi'⟩, List.getElem?_eq_getElem hlt]
  rfl

theorem within_put : im.Within (im.put l p start w) := by
  intro q i hi
  by_cases h : q = p ∧ start ≤ i ∧ i < start + w.ty.size
  · obtain ⟨rfl, hle, hlt⟩ := h
    exact covers_put i hle hlt
  · rwa [put, if_neg h]

end Image

namespace Computation

variable {n m : Nat}

def eval (l : Layout) (words : Locals Word Word n m) : Computation n m → Option Word
  | literal value => some (.ofLiteral value)
  | inPlace op lhs rhs | operator op lhs rhs =>
    Word.binary op (words.values lhs) (words.values rhs)
  | unary op operand => Word.unary op (words.values operand)
  | compare op lhs rhs => Word.bool <$> Word.compare op (words.values lhs) (words.values rhs)
  | select condition ifTrue ifFalse =>
    match words.values condition with
    | .bool b => some (if b then words.values ifTrue else words.values ifFalse)
    | _ => none
  | cast value target => (words.values value).cast l target
  | read var => some (words.vars var)

end Computation

namespace ElementCode

/-- What the variables hold and what has been stored after the code for element `k` of the inputs. -/
def eval (c : LowerContext) (l : Layout) (inputs : List Values) (k : Nat) :
    {n m : Nat} → ElementCode n m → Locals Word Word n m → Image → Option ((Fin m → Word) × Image)
  | _, _, done, words, im => some (words.vars, im)
  | _, _, input i rest, words, im => do
    let a ← (← inputs[i]?).scalars[k]?
    rest.eval c l inputs k (words.withValue a.word) im
  | _, _, compute f rest, words, im => do
    rest.eval c l inputs k (words.withValue (← f.eval l words)) im
  | _, _, declare x rest, words, im =>
    (rest.eval c l inputs k (words.withVar (words.values x)) im).map fun r => (Fin.tail r.1, r.2)
  | _, _, write y x rest, words, im =>
    rest.eval c l inputs k (words.setVar y (words.values x)) im
  | _, _, store o x rest, words, im => do
    let out ← c.site.outlets[o]?
    let w := words.values x
    if out.HasRoom (k + 1) w.ty then
      rest.eval c l inputs k words (im.put l out.port (k * w.ty.size) w)
    else none

/-- The same after the code for each of the first elements, one after the other. -/
def evalUpTo (c : LowerContext) (l : Layout) (inputs : List Values) {n m : Nat} (code : ElementCode n m)
    (words : Locals Word Word n m) : Nat → Option ((Fin m → Word) × Image)
  | 0 => some (words.vars, .blank)
  | k + 1 => (code.evalUpTo c l inputs words k).bind fun r =>
    code.eval c l inputs k ⟨words.values, r.1⟩ r.2

end ElementCode

section Meaning

open Lower

variable {c : LowerContext} {g : Graph} {inputs : List Values} {n m k len : Nat}
  {code : ElementCode n m} {words : Locals Word Word n m} {types : Locals Ty Ty n m} {t : Ty}
  {os : List Outlet} {im : Image} {l : Layout}

namespace Code.Word

theorem exists_binary {op : BinaryOp} {a b : Word} (ht : b.ty = a.ty)
    (hop : op.accepts a.ty = true) : ∃ w, binary op a b = some w := by
  cases a <;> cases b <;> cases ht
  all_goals cases op <;> first | exact ⟨_, rfl⟩ | cases hop

theorem exists_unary {op : UnaryOp} {a : Word} (hop : op.accepts a.ty = true) :
    ∃ w, unary op a = some w := by
  cases op <;> cases a <;> first | exact ⟨_, rfl⟩ | cases hop

theorem exists_compare {op : CompareOp} {a b : Word} (ht : b.ty = a.ty) (hptr : a.ty ≠ .ptr) :
    ∃ r, compare op a b = some r := by
  cases a <;> cases b <;> cases ht
  all_goals first | exact ⟨_, rfl⟩ | exact absurd rfl hptr

theorem exists_cast {a : Word} (h : Emit.convertible a.ty t = true) : ∃ w, a.cast l t = some w := by
  cases a <;> cases t <;> first | exact ⟨_, rfl⟩ | cases h

end Code.Word

namespace Computation

variable {f : Computation n m}

/-- On words of the right types every value can be computed. -/
theorem exists_eval (hwords : words.Agrees (·.ty = ·) (·.ty = ·) types)
    (ht : f.type? types = some t) : ∃ w, f.eval l words = some w ∧ w.ty = t := by
  have hvalue := hwords.values
  cases f with
  | literal value =>
      obtain rfl := Option.some.inj ht
      exact ⟨_, rfl, by cases value <;> rfl⟩
  | inPlace op lhs rhs | operator op lhs rhs =>
      obtain ⟨⟨hsame, hop⟩, ⟨⟩⟩ := Option.ite_none_right_eq_some.1 ht
      rw [← hvalue, ← hvalue] at hsame
      rw [← hvalue] at hop ⊢
      obtain ⟨w, hw⟩ := Code.Word.exists_binary hsame hop
      exact ⟨w, hw, Context.ty_binary hw⟩
  | unary op operand =>
      obtain ⟨hop, ⟨⟩⟩ := Option.ite_none_right_eq_some.1 ht
      rw [← hvalue] at hop ⊢
      obtain ⟨w, hw⟩ := Code.Word.exists_unary hop
      exact ⟨w, hw, Context.ty_unary hw⟩
  | compare op lhs rhs =>
      obtain ⟨⟨hsame, hptr⟩, ⟨⟩⟩ := Option.ite_none_right_eq_some.1 ht
      rw [← hvalue, ← hvalue] at hsame
      rw [← hvalue] at hptr
      obtain ⟨r, hr⟩ := Code.Word.exists_compare hsame hptr
      exact ⟨.bool r, congrArg (Option.map Word.bool) hr, rfl⟩
  | select condition ifTrue ifFalse =>
      obtain ⟨⟨hbool, hsame⟩, ⟨⟩⟩ := Option.ite_none_right_eq_some.1 ht
      rw [← hvalue] at hbool
      obtain ⟨b, hb⟩ : ∃ b, words.values condition = .bool b := by
        cases hw : words.values condition with
        | bool b => exact ⟨b, rfl⟩
        | _ => rw [hw] at hbool; cases hbool
      refine ⟨if b then words.values ifTrue else words.values ifFalse, by rw [eval, hb], ?_⟩
      cases b with
      | false => exact (hvalue ifFalse).trans hsame
      | true => exact hvalue ifTrue
  | cast value target =>
      obtain ⟨hconv, ⟨⟩⟩ := Option.ite_none_right_eq_some.1 ht
      rw [← hvalue] at hconv
      obtain ⟨w, hw⟩ := Code.Word.exists_cast hconv
      exact ⟨w, hw, Context.ty_cast hw⟩
  | read var =>
      obtain rfl := Option.some.inj ht
      exact ⟨_, rfl, hwords.vars var⟩

end Computation

namespace ElementCode

theorem Meets.and {reads reads' : Inlet → Prop} {stores stores' : Outlet → Ty → Prop}
    (h : code.Meets c reads stores types) (h' : code.Meets c reads' stores' types) :
    code.Meets c (fun l => reads l ∧ reads' l) (fun o t => stores o t ∧ stores' o t) types := by
  induction code with
  | done => trivial
  | input i rest ih =>
      obtain ⟨l, t, hl, ht, hread, hrest⟩ := h
      obtain ⟨l', t', hl', ht', hread', hrest'⟩ := h'
      obtain rfl := Option.some.inj (hl.symm.trans hl')
      obtain rfl := Option.some.inj (ht.symm.trans ht')
      exact ⟨l, t, hl, ht, ⟨hread, hread'⟩, ih hrest hrest'⟩
  | compute f rest ih =>
      obtain ⟨t, ht, hrest⟩ := h
      obtain ⟨t', ht', hrest'⟩ := h'
      obtain rfl := Option.some.inj (ht.symm.trans ht')
      exact ⟨t, ht, ih hrest hrest'⟩
  | declare x rest ih => exact ih h h'
  | write y x rest ih => exact ⟨h.1, ih h.2 h'.2⟩
  | store o x rest ih =>
      obtain ⟨out, ho, hstore, hrest⟩ := h
      obtain ⟨out', ho', hstore', hrest'⟩ := h'
      obtain rfl := Option.some.inj (ho.symm.trans ho')
      exact ⟨out, ho, ⟨hstore, hstore'⟩, ih hrest hrest'⟩

/-- Where inlets and outlets reach far enough the code has a meaning for every element. It stores the
element of each outlet that it stores into. -/
theorem exists_eval (hreads : Reads g c os inputs) (hk : k < len)
    (hmeets : code.Meets c (fun l => len ≤ l.selection.size) (fun o t => o.HasRoom len t) types)
    (hwords : words.Agrees (·.ty = ·) (·.ty = ·) types) :
    ∃ after im', code.eval c l inputs k words im = some (after, im') ∧
      (∀ y, (after y).ty = types.vars y) ∧ im.Within im' ∧ code.Meets c (fun _ => True)
        (fun o t => im'.Covers o.port (k * t.size) ((k + 1) * t.size)) types := by
  induction code generalizing im with
  | done => exact ⟨_, _, rfl, hwords.vars, .refl im, trivial⟩
  | input i rest ih =>
      obtain ⟨l, t, hl, ht, hsize, hrest⟩ := hmeets
      obtain ⟨v, hv, hlength, htype⟩ := Reads.exists_input hreads hl
      obtain ⟨a, ha⟩ : ∃ a, v.scalars[k]? = some a := by
        refine ⟨_, List.getElem?_eq_getElem ?_⟩
        rw [Values.length_scalars, hlength]
        exact hk.trans_le hsize
      have hty : a.word.ty = t.ty := by
        rw [Scalar.ty_word, Values.elemType_of_mem_scalars (List.mem_of_getElem? ha), htype t ht]
      obtain ⟨after, im', heval, hafter, hwithin, hcovers⟩ := ih hrest (hwords.withValue hty)
      refine ⟨after, im', ?_, hafter, hwithin, l, t, hl, ht, trivial, hcovers⟩
      simp only [eval, hv, ha, Option.bind_eq_bind, Option.bind_some]
      exact heval
  | compute f rest ih =>
      obtain ⟨t, ht, hrest⟩ := hmeets
      obtain ⟨w, hw, hty⟩ := Computation.exists_eval (l := l) hwords ht
      obtain ⟨after, im', heval, hafter, hwithin, hcovers⟩ := ih hrest (hwords.withValue hty)
      refine ⟨after, im', ?_, hafter, hwithin, t, ht, hcovers⟩
      simp only [eval, hw, Option.bind_eq_bind, Option.bind_some]
      exact heval
  | declare x rest ih =>
      obtain ⟨after, im', heval, hafter, hwithin, hcovers⟩ :=
        ih hmeets (hwords.withVar (hwords.values x))
      exact ⟨Fin.tail after, im', congrArg (Option.map _) heval, fun y => hafter y.succ, hwithin,
        hcovers⟩
  | write y x rest ih =>
      obtain ⟨hsame, hrest⟩ := hmeets
      obtain ⟨after, im', heval, hafter, hwithin, hcovers⟩ :=
        ih hrest (hwords.setVar ((hwords.values x).trans hsame))
      exact ⟨after, im', heval, hafter, hwithin, hsame, hcovers⟩
  | store o x rest ih =>
      obtain ⟨out, ho, hroom, hrest⟩ := hmeets
      have hty := hwords.values x
      obtain ⟨after, im', heval, hafter, hwithin, hcovers⟩ :=
        @ih words types (im.put l out.port (k * (words.values x).ty.size) (words.values x)) hrest hwords
      refine ⟨after, im', ?_, hafter, Image.within_put.trans hwithin, out, ho, ?_, hcovers⟩
      · rw [← hty] at hroom
        simp only [eval, ho, Option.bind_eq_bind, Option.bind_some]
        rw [if_pos (hroom.mono hk)]
        exact heval
      · beta_reduce
        rw [← hty, Nat.succ_mul]
        exact Image.covers_put.mono hwithin

/-- The same for all of the first elements. What they have stored is without gaps. -/
theorem exists_evalUpTo (hreads : Reads g c os inputs) (hk : k ≤ len)
    (hmeets : code.Meets c (fun l => len ≤ l.selection.size) (fun o t => o.HasRoom len t) types)
    (hwords : words.Agrees (·.ty = ·) (·.ty = ·) types) :
    ∃ after im, code.evalUpTo c l inputs words k = some (after, im) ∧
      (∀ y, (after y).ty = types.vars y) ∧
      code.Meets c (fun _ => True) (fun o t => im.Covers o.port 0 (k * t.size)) types := by
  induction k with
  | zero =>
      refine ⟨_, _, rfl, hwords.vars, hmeets.imp (fun _ _ => trivial) fun o t _ i _ hi => ?_⟩
      rw [Nat.zero_mul] at hi
      exact absurd hi (Nat.not_lt_zero i)
  | succ k ih =>
      obtain ⟨vars, im, heval, hvars, hcovers⟩ := ih (Nat.le_of_succ_le hk)
      obtain ⟨after, im', heval', hafter, hwithin, hcovers'⟩ :=
        @exists_eval c g inputs n m k len code ⟨words.values, vars⟩ types os im l hreads hk hmeets
          ⟨hwords.values, hvars⟩
      refine ⟨after, im', ?_, hafter, (hcovers.and hcovers').imp (fun _ _ => trivial) ?_⟩
      · rw [evalUpTo, heval]
        exact heval'
      · rintro o t ⟨hbefore, hhere⟩ i hi hlt
        by_cases hik : i < k * t.size
        · exact hbefore.mono hwithin i hi hik
        · exact hhere i (Nat.le_of_not_lt hik) hlt

end ElementCode

end Meaning

/-- The values and variables hold the words, which are of the recorded types. -/
def Locals.Hold {n m : Nat} (ids : Locals ValueId VarId n m) (b : Body) (σ : Store)
    (words : Locals Word Word n m) : Prop :=
  ids.Agrees (σ.Carries b)
    (fun x w => σ.vars[x.index]? = some w ∧ b.varTypes[x.index]? = some w.ty) words

def Shows (C : Context) (s : LowerState) (im : Image) (σ : Store) : Prop :=
  ∀ p i x, im p i = some x → ∃ b region, s.storage.find? p = some (.stack b) ∧
    σ.memory[C.base + b.place.index]? = some region ∧ region.bytes[i]? = some x

structure Performs (C : Context) (os : List Outlet) (W : VarId → Prop) (s s' : LowerState)
    (σ σ' : Store) : Prop extends C.Advances s.emitter.body s'.emitter.body σ σ' where
  guarded : ∀ r, Guarded C os s r → σ'.memory[r]? = σ.memory[r]?
  others : ∀ x, ¬ W x → x.index < s.emitter.body.varTypes.size → σ'.vars[x.index]? = σ.vars[x.index]?

/-- How things stand before a step of the code for element `k`. In the end the outlets have their
buffers in the state `final`. -/
structure Underway (C : Context) (g : Graph) (c : LowerContext) (inputs : List Values)
    (pos : Position) (k : Nat) (final : LowerState) {n m : Nat} (ids : Locals ValueId VarId n m)
    (words : Locals Word Word n m) (im : Image) (s : LowerState) (σ : Store) : Prop where
  orderly : s.Orderly
  suited : s.Suited c.site.outlets
  ready : Ready C g c.site.outlets inputs s σ
  position : pos.Is s.emitter.body σ k
  holds : ids.Hold s.emitter.body σ words
  distinct : Function.Injective ids.vars
  shown : Shows C final im σ

section Run

open Lower

variable {C : Context} {g : Graph} {c : LowerContext} {inputs : List Values} {pos : Position}
  {k n m len : Nat} {s s' s'' final : LowerState} {σ σ' σ'' : Store} {os : List Outlet} {u : Unit}
  {code : ElementCode n m} {ids : Locals ValueId VarId n m} {words : Locals Word Word n m}
  {im im' : Image} {b b' : Body} {e e' : Emitter} {v : ValueId} {y : Fin m} {w : Word}

theorem Locals.Hold.mono (h : ids.Hold b σ words) (hb : b.Within b')
    (hvalues : ∀ i < b.valueTypes.size, σ'.values[i]? = σ.values[i]?)
    (hvars : ∀ y, σ'.vars[(ids.vars y).index]? = σ.vars[(ids.vars y).index]?) :
    ids.Hold b' σ' words where
  values x := (h.values x).mono hb hvalues
  vars y := ⟨(hvars y).trans (h.vars y).1, hb.varTypes _ _ (h.vars y).2⟩

theorem Locals.Hold.quiet (h : ids.Hold b σ words) (hb : b.Within b') (hq : C.Quiet b b' σ σ') :
    ids.Hold b' σ' words :=
  h.mono hb hq.values fun _ => by rw [hq.vars]

/-- What is emitted to compute a value computes it. -/
theorem Computation.yields_emit {f : Computation n m} (h : Succeeds (f.emit ids) e v e')
    (hC : C.Covers e') (hσ : C.Fits σ) (hids : ids.Hold e.body σ words)
    (hw : f.eval C.layout words = some w) : C.Yields e.body e'.body σ v w := by
  cases f with
  | literal value =>
      obtain rfl := Option.some.inj hw
      exact Context.yields_literal h hC hσ
  | inPlace op lhs rhs =>
      exact Context.yields_binary h hC hσ (hids.values lhs) (hids.values rhs) hw
  | operator op lhs rhs =>
      exact Context.yields_operator h hC hσ (hids.values lhs) (hids.values rhs) hw
  | unary op operand => exact Context.yields_unary h hC hσ (hids.values operand) hw
  | compare op lhs rhs =>
      obtain ⟨r, hr, rfl⟩ := Option.map_eq_some_iff.1 hw
      exact Context.yields_compare h hC hσ (hids.values lhs) (hids.values rhs) hr
  | select condition ifTrue ifFalse =>
      have hcondition := hids.values condition
      rw [eval] at hw
      split at hw
      case h_2 => cases hw
      case h_1 r hr =>
        obtain rfl := Option.some.inj hw
        rw [hr] at hcondition
        exact Context.yields_select h hC hσ hcondition (hids.values ifTrue) (hids.values ifFalse)
  | cast value target => exact Context.yields_cast h hC hσ (hids.values value) hw
  | read var =>
      obtain rfl := Option.some.inj hw
      exact Context.yields_getVar h hC hσ (hids.vars var).1 (hids.vars var).2

section Shows

theorem shows_blank : Shows C s .blank σ := nofun

theorem Shows.of_memory (h : Shows C s im σ) (hm : σ'.memory = σ.memory) : Shows C s im σ' := by
  intro p i x hx
  rw [hm]
  exact h p i x hx

/-- A word that is put into the buffer of a port is shown from then on. -/
theorem Shows.put (h : Shows C s im σ) (hs : s.Orderly) {p : Port} {b : StackBuffer}
    {region : Code.Region} {start : Nat} (hb : s.storage.find? p = some (.stack b))
    (hregion : σ.memory[C.base + b.place.index]? = some region)
    (hfit : start + w.ty.size ≤ region.bytes.size)
    (hm : σ'.memory = σ.memory.put C.layout (C.base + b.place.index) start w) :
    Shows C s (im.put C.layout p start w) σ' := by
  intro q i x hx
  have hlength := Word.length_bytes C.layout w
  rw [hm]
  by_cases hhere : q = p ∧ start ≤ i ∧ i < start + w.ty.size
  · obtain ⟨rfl, hle, hlt⟩ := hhere
    rw [Image.put, if_pos ⟨rfl, hle, hlt⟩] at hx
    refine ⟨b, _, hb, Code.Memory.getElem?_put hregion, ?_⟩
    rw [Code.Memory.getElem?_overwrite, if_pos ⟨hle, by omega, by omega⟩]
    exact hx
  · rw [Image.put, if_neg hhere] at hx
    obtain ⟨b', region', hb', hregion', hx'⟩ := h q i x hx
    by_cases hq : q = p
    · subst hq
      obtain rfl := Storage.stack.inj (Option.some.inj (hb.symm.trans hb'))
      obtain rfl := Option.some.inj (hregion.symm.trans hregion')
      refine ⟨b, _, hb, Code.Memory.getElem?_put hregion, ?_⟩
      rw [Code.Memory.getElem?_overwrite, if_neg fun hi => hhere ⟨rfl, hi.1, by omega⟩]
      exact hx'
    · refine ⟨b', region', hb', ?_, hx'⟩
      rw [Code.Memory.getElem?_put_of_ne fun hsame => hq ?_]
      · exact hregion'
      · have hheld := hs.held (.inl p) b (LowerState.buffer_inl.2 hb)
        have hheld' := hs.held (.inl q) b' (LowerState.buffer_inl.2 hb')
        have hslot := hheld'.place_injective hs.tidy hheld
          (congrArg Code.StackId.mk (Nat.add_left_cancel hsame))
        exact Sum.inl.inj (hs.distinct _ _ _ _ (LowerState.buffer_inl.2 hb')
          (LowerState.buffer_inl.2 hb) hslot)

end Shows

theorem Performs.of_quiet {W : VarId → Prop} (hq : C.Quiet s.emitter.body s'.emitter.body σ σ') :
    Performs C os W s s' σ σ' :=
  ⟨hq.toAdvances, fun _ _ => by rw [hq.memory], fun _ _ _ => by rw [hq.vars]⟩

theorem Performs.trans {W W' : VarId → Prop} (h : Performs C os W s s' σ σ')
    (h' : Performs C os W' s' s'' σ' σ'') (hk : s.Keeps os s')
    (hW : ∀ x, W' x → W x ∨ s.emitter.body.varTypes.size ≤ x.index) :
    Performs C os W s s'' σ σ'' where
  toAdvances := h.toAdvances.trans h'.toAdvances
  guarded r hr := (h'.guarded r ((guarded_iff_of_keeps hk).2 hr)).trans (h.guarded r hr)
  others x hx hlt := by
    have hlt' := hlt.trans_le hk.straight.body.varTypes.size_le
    refine (h'.others x (fun hx' => ?_) hlt').trans (h.others x hx hlt)
    exact (hW x hx').elim hx fun hle => absurd hlt (Nat.not_lt_of_le hle)

theorem Underway.step {n' m' : Nat} {ids' : Locals ValueId VarId n' m'}
    {words' : Locals Word Word n' m'} {W : VarId → Prop}
    (h : Underway C g c inputs pos k final ids words im s σ) (hk : s.Keeps c.site.outlets s')
    (hp : Performs C c.site.outlets W s s' σ σ') (hholds : ids'.Hold s'.emitter.body σ' words')
    (hdistinct : Function.Injective ids'.vars) (hshown : Shows C final im' σ') :
    Underway C g c inputs pos k final ids' words' im' s' σ' where
  orderly := hk.orderly h.orderly
  suited := hk.suited h.suited
  ready := h.ready.mono hk.straight.body hk.storage hk.gathered hp.fits hp.values hp.guarded
  position := by
    cases pos with
    | fixed i => exact h.position
    | computed i => exact ⟨h.position.1, hp.toAdvances.carries hk.straight.body h.position.2⟩
  holds := hholds
  distinct := hdistinct
  shown := hshown

/-- A variable has got another word. -/
theorem Performs.setVar {W : VarId → Prop} {x : VarId}
    (hadv : C.Advances s.emitter.body s'.emitter.body σ (σ.setVar w x))
    (hx : W x ∨ s.emitter.body.varTypes.size ≤ x.index) : Performs C os W s s' σ (σ.setVar w x) := by
  refine ⟨hadv, fun _ _ => rfl, fun y hy hlt => Array.getElem?_setIfInBounds_ne fun hindex => ?_⟩
  rcases hx with hx | hle
  · obtain rfl : x = y := congrArg VarId.mk hindex
    exact hy hx
  · omega

theorem Locals.Hold.lt (h : ids.Hold b σ words) (y : Fin m) :
    (ids.vars y).index < b.varTypes.size :=
  (Array.getElem?_eq_some_iff.1 (h.vars y).2).1

theorem Locals.Hold.setVar (h : ids.Hold b σ words) (hdistinct : Function.Injective ids.vars)
    (hσ : (ids.vars y).index < σ.vars.size) (ht : b.varTypes[(ids.vars y).index]? = some w.ty) :
    ids.Hold b (σ.setVar w (ids.vars y)) (words.setVar y w) where
  values := h.values
  vars z := by
    by_cases hz : z = y
    · subst hz
      rw [Locals.setVar_self]
      exact ⟨Array.getElem?_setIfInBounds_self_of_lt hσ, ht⟩
    · rw [Locals.setVar_of_ne words hz]
      refine ⟨(Array.getElem?_setIfInBounds_ne fun hindex => hz ?_).trans (h.vars z).1, (h.vars z).2⟩
      exact hdistinct (congrArg VarId.mk hindex.symm)

/-- A new variable holds its first word, and the others hold theirs. -/
theorem Locals.Hold.declare (h : ids.Hold b σ words) {x : VarId} (hb : b.Within b')
    (hx : x.index = b.varTypes.size) (hσ : x.index < σ.vars.size)
    (ht : b'.varTypes[x.index]? = some w.ty) :
    (ids.withVar x).Hold b' (σ.setVar w x) (words.withVar w) := by
  have hold : ids.Hold b' (σ.setVar w x) words := by
    refine h.mono hb (fun _ _ => rfl) fun y => ?_
    have hlt := h.lt y
    exact Array.getElem?_setIfInBounds_ne (by omega)
  exact hold.withVar ⟨Array.getElem?_setIfInBounds_self_of_lt hσ, ht⟩

section Steps

variable {W : VarId → Prop} {after : Fin m → Word}

theorem Underway.withValue (h : Underway C g c inputs pos k final ids words im s σ)
    (hk : s.Keeps c.site.outlets s') (hq : C.Quiet s.emitter.body s'.emitter.body σ σ')
    (hv : σ'.Carries s'.emitter.body v w) :
    Underway C g c inputs pos k final (ids.withValue v) (words.withValue w) im s' σ' :=
  h.step hk (.of_quiet (W := fun _ => False) hq)
    ((h.holds.quiet hk.straight.body hq).withValue hv) h.distinct (h.shown.of_memory hq.memory)

theorem Underway.input (h : Underway C g c inputs pos k final ids words im s σ) {i : Nat}
    {values : Values} {a : Scalar} (hv : Lowers c (inputAt i pos) s v s') (hC : C.Covers s'.emitter)
    (hreads : Reads g c c.site.outlets inputs) (hvalues : inputs[i]? = some values)
    (ha : values.scalars[k]? = some a) : ∃ σ', Performs C c.site.outlets W s s' σ σ' ∧
      Underway C g c inputs pos k final (ids.withValue v) (words.withValue a.word) im s' σ' := by
  obtain ⟨σ', hq, hcarries⟩ := yields_inputAt hv hC h.ready hreads hvalues ha h.position
  exact ⟨σ', .of_quiet hq, h.withValue ((Plain.inputAt _ _).keeps hv) hq hcarries⟩

theorem Underway.compute (h : Underway C g c inputs pos k final ids words im s σ)
    {f : Computation n m} (hv : Lowers c (Lower.emit (f.emit ids)) s v s')
    (hC : C.Covers s'.emitter) (hw : f.eval C.layout words = some w) :
    ∃ σ', Performs C c.site.outlets W s s' σ σ' ∧
      Underway C g c inputs pos k final (ids.withValue v) (words.withValue w) im s' σ' := by
  have hkeeps : s.Keeps c.site.outlets s' := (Plain.emit (f.linear_emit _)).keeps hv
  obtain ⟨e, hemit, rfl⟩ := lowers_emit.1 hv
  obtain ⟨σ', hq, hcarries⟩ := Computation.yields_emit hemit hC h.ready.fits h.holds hw
  exact ⟨σ', .of_quiet hq, h.withValue hkeeps hq hcarries⟩

theorem Underway.declare (h : Underway C g c inputs pos k final ids words im s σ) {x : Fin n}
    {y : VarId} (hy : Lowers c (Lower.emit (Emit.localVar (ids.values x))) s y s')
    (hC : C.Covers s'.emitter) : s.emitter.body.varTypes.size ≤ y.index ∧
      ∃ σ', Performs C c.site.outlets W s s' σ σ' ∧ Underway C g c inputs pos k final
        (ids.withVar y) (words.withVar (words.values x)) im s' σ' := by
  have hkeeps : s.Keeps c.site.outlets s' := (Plain.emit (Emit.leaves_localVar _)).keeps hy
  obtain ⟨e, hemit, rfl⟩ := lowers_emit.1 hy
  obtain ⟨hindex, htype, hadv⟩ :=
    Context.advances_localVar hemit hC h.ready.fits (h.holds.values x)
  have hlt : y.index < σ.vars.size := by
    rw [h.ready.fits.vars]
    exact (Array.getElem?_eq_some_iff.1 (hC.body.varTypes _ _ htype)).1
  have hnew : y ∉ Set.range ids.vars := by
    rintro ⟨z, rfl⟩
    exact Nat.ne_of_lt (h.holds.lt z) hindex
  have hperforms {W : VarId → Prop} : Performs C c.site.outlets W s { s with emitter := e } σ _ :=
    .setVar hadv (.inr hindex.ge)
  exact ⟨hindex.ge, _, hperforms, h.step hkeeps (hperforms (W := fun _ => False))
    (h.holds.declare hkeeps.straight.body hindex hlt htype)
    (Fin.cons_injective_iff.2 ⟨hnew, h.distinct⟩) (h.shown.of_memory rfl)⟩

theorem Underway.write (h : Underway C g c inputs pos k final ids words im s σ) {x : Fin n}
    (hset : Lowers c (Lower.emit (Emit.setVar (ids.vars y) (ids.values x))) s u s')
    (hC : C.Covers s'.emitter) :
    ∃ σ', Performs C c.site.outlets (fun z => ∃ y, ids.vars y = z) s s' σ σ' ∧
      Underway C g c inputs pos k final ids (words.setVar y (words.values x)) im s' σ' := by
  have hkeeps : s.Keeps c.site.outlets s' := (Plain.emit (Emit.leaves_setVar _ _)).keeps hset
  obtain ⟨e, hemit, rfl⟩ := lowers_emit.1 hset
  obtain ⟨t, hy, hx⟩ := Emit.types_of_setVar hemit
  obtain ⟨hhas, hrecorded⟩ := h.holds.values x
  obtain rfl := Option.some.inj (hrecorded.symm.trans hx)
  have hy' : e.body.varTypes[(ids.vars y).index]? = some (words.values x).ty :=
    hkeeps.straight.body.varTypes _ _ hy
  have hlt : (ids.vars y).index < σ.vars.size := by
    rw [h.ready.fits.vars]
    exact (Array.getElem?_eq_some_iff.1 (hC.body.varTypes _ _ hy')).1
  have hholds := (h.holds.mono hkeeps.straight.body (fun _ _ => rfl) fun _ => rfl).setVar
    h.distinct hlt hy'
  have hperforms : Performs C c.site.outlets (fun z => ∃ y, ids.vars y = z) s { s with emitter := e }
      σ _ := .setVar (Context.advances_setVar hemit hC h.ready.fits hhas) (.inl ⟨y, rfl⟩)
  exact ⟨_, hperforms, h.step hkeeps hperforms hholds h.distinct (h.shown.of_memory rfl)⟩

theorem Underway.store (h : Underway C g c inputs pos k final ids words im s σ) {o : Nat}
    {out : Outlet} {x : Fin n} (hstore : Lowers c (storeOutputAt o pos (ids.values x)) s u s')
    (hC : C.Covers s'.emitter) (hbase : C.data.size < C.base)
    (hports : (c.site.outlets.map (·.port)).Nodup) (ho : c.site.outlets[o]? = some out)
    (hroom : out.HasRoom (k + 1) (words.values x).ty) (horderly : final.Orderly)
    (hfinal : ∀ p st, s'.storage.find? p = some st → final.storage.find? p = some st) :
    ∃ σ', Performs C c.site.outlets W s s' σ σ' ∧ Underway C g c inputs pos k final ids words
      (im.put C.layout out.port (k * (words.values x).ty.size) (words.values x)) s' σ' := by
  have hos := Outlet.among_of_nodup hports (List.mem_of_getElem? ho)
  have hkeeps := keeps_storeOutputAt hstore ho hos
  obtain ⟨σ', b, hputs⟩ := puts_storeOutputAt hstore ho hos hC h.ready.fits hbase h.orderly
    h.suited (h.holds.values x) h.position hroom
  obtain ⟨region, hregion, -, hfit⟩ := hputs.room.exists_region h.ready.fits
  rw [Nat.succ_mul] at hfit
  have hshown := h.shown.put horderly (hfinal _ _ hputs.storage) hregion hfit hputs.writes.memory
  have hperforms {W : VarId → Prop} : Performs C c.site.outlets W s s' σ σ' :=
    ⟨hputs.writes.toAdvances, fun _ => hputs.frame, fun _ _ _ => by rw [hputs.writes.vars]⟩
  have hholds := h.holds.mono hkeeps.straight.body hputs.writes.values fun _ => by
    rw [hputs.writes.vars]
  exact ⟨σ', hperforms, h.step hkeeps (hperforms (W := fun _ => False)) hholds h.distinct hshown⟩

/-- The code for one element does what it means. -/
theorem ElementCode.performs_emit (h : Lowers c (code.emit pos ids) s u s')
    (hC : C.Covers s'.emitter) (hbase : C.data.size < C.base)
    (hports : (c.site.outlets.map (·.port)).Nodup) (hreads : Reads g c c.site.outlets inputs)
    (hfinal : ∀ p st, s'.storage.find? p = some st → final.storage.find? p = some st)
    (horderly : final.Orderly) (hp : Underway C g c inputs pos k final ids words im s σ)
    (heval : code.eval c C.layout inputs k words im = some (after, im')) :
    ∃ σ', Performs C c.site.outlets (fun x => ∃ y, ids.vars y = x) s s' σ σ' ∧
      ids.Hold s'.emitter.body σ' ⟨words.values, after⟩ ∧ Shows C final im' σ' := by
  induction code generalizing s σ im with
  | done =>
      obtain ⟨-, rfl⟩ := lowers_pure.1 h
      obtain ⟨rfl, rfl⟩ := Prod.mk.inj (Option.some.inj heval)
      exact ⟨σ, .of_quiet (.refl hp.ready.fits), hp.holds, hp.shown⟩
  | input i rest ih =>
      obtain ⟨v, s₁, hv, h⟩ := lowers_bind.1 h
      simp only [eval, Option.bind_eq_bind, Option.bind_eq_some_iff] at heval
      obtain ⟨values, hvalues, a, ha, heval⟩ := heval
      have hC₁ := hC.of_grows (keeps_emit h hports).straight.toGrows
      obtain ⟨σ₁, hperforms₁, hp₁⟩ := hp.input hv hC₁ hreads hvalues ha
      obtain ⟨σ', hperforms, hholds, hshown⟩ := ih h hp₁ heval
      exact ⟨σ', hperforms₁.trans hperforms ((Plain.inputAt _ _).keeps hv) fun _ => .inl,
        ⟨fun x => hholds.values x.succ, hholds.vars⟩, hshown⟩
  | compute f rest ih =>
      obtain ⟨v, s₁, hv, h⟩ := lowers_bind.1 h
      simp only [eval, Option.bind_eq_bind, Option.bind_eq_some_iff] at heval
      obtain ⟨w, hw, heval⟩ := heval
      have hC₁ := hC.of_grows (keeps_emit h hports).straight.toGrows
      obtain ⟨σ₁, hperforms₁, hp₁⟩ := hp.compute hv hC₁ hw
      obtain ⟨σ', hperforms, hholds, hshown⟩ := ih h hp₁ heval
      exact ⟨σ', hperforms₁.trans hperforms ((Plain.emit (f.linear_emit _)).keeps hv) fun _ => .inl,
        ⟨fun x => hholds.values x.succ, hholds.vars⟩, hshown⟩
  | declare x rest ih =>
      obtain ⟨y, s₁, hy, h⟩ := lowers_bind.1 h
      obtain ⟨⟨after, im''⟩, hrest, hafter⟩ := Option.map_eq_some_iff.1 heval
      obtain ⟨rfl, rfl⟩ := Prod.mk.inj hafter
      have hC₁ := hC.of_grows (keeps_emit h hports).straight.toGrows
      obtain ⟨hnew, σ₁, hperforms₁, hp₁⟩ := hp.declare hy hC₁
      obtain ⟨σ', hperforms, hholds, hshown⟩ := ih h hp₁ hrest
      refine ⟨σ', hperforms₁.trans hperforms ((Plain.emit (Emit.leaves_localVar _)).keeps hy) ?_,
        ⟨hholds.values, fun z => hholds.vars z.succ⟩, hshown⟩
      -- What the rest sets is the new variable or one that was there before.
      rintro z ⟨j, rfl⟩
      cases j using Fin.cases with
      | zero => exact .inr hnew
      | succ j => exact .inl ⟨j, rfl⟩
  | write y x rest ih =>
      obtain ⟨_, s₁, hset, h⟩ := lowers_bind.1 h
      have hC₁ := hC.of_grows (keeps_emit h hports).straight.toGrows
      obtain ⟨σ₁, hperforms₁, hp₁⟩ := hp.write hset hC₁
      obtain ⟨σ', hperforms, hholds, hshown⟩ := ih h hp₁ heval
      exact ⟨σ', hperforms₁.trans hperforms ((Plain.emit (Emit.leaves_setVar _ _)).keeps hset)
        fun _ => .inl, hholds, hshown⟩
  | store o x rest ih =>
      obtain ⟨_, s₁, hstore, h⟩ := lowers_bind.1 h
      simp only [eval, Option.bind_eq_bind, Option.bind_eq_some_iff] at heval
      obtain ⟨out, ho, heval⟩ := heval
      obtain ⟨hroom, heval⟩ := Option.ite_none_right_eq_some.1 heval
      have hafter := keeps_emit h hports
      have hC₁ := hC.of_grows hafter.straight.toGrows
      obtain ⟨σ₁, hperforms₁, hp₁⟩ := hp.store hstore hC₁ hbase hports ho hroom horderly
        fun p st hst => hfinal p st (hafter.stored p st hst)
      obtain ⟨σ', hperforms, hholds, hshown⟩ := ih h hp₁ heval
      have hos := Outlet.among_of_nodup hports (List.mem_of_getElem? ho)
      exact ⟨σ', hperforms₁.trans hperforms (keeps_storeOutputAt hstore ho hos) fun _ => .inl,
        hholds, hshown⟩

end Steps

/-- The types of what was there before have been recorded before. -/
theorem Locals.Hold.of_within (h : ids.Hold b' σ words) (hb : b.Within b')
    (hvalues : ∀ x, (ids.values x).index < b.valueTypes.size)
    (hvars : ∀ y, (ids.vars y).index < b.varTypes.size) : ids.Hold b σ words where
  values x := by
    obtain ⟨hhas, htype⟩ := h.values x
    have hbefore := Array.getElem?_eq_getElem (hvalues x)
    exact ⟨hhas, hbefore.trans ((hb.valueTypes _ _ hbefore).symm.trans htype)⟩
  vars y := by
    obtain ⟨hhas, htype⟩ := h.vars y
    have hbefore := Array.getElem?_eq_getElem (hvars y)
    exact ⟨hhas, hbefore.trans ((hb.varTypes _ _ hbefore).symm.trans htype)⟩

def Ran (C : Context) (c : LowerContext) (inputs : List Values) (code : ElementCode n m)
    (ids : Locals ValueId VarId n m) (words : Locals Word Word n m) (s final : LowerState) (k : Nat)
    (σ : Store) : Prop :=
  ∃ vars im, code.evalUpTo c C.layout inputs words k = some (vars, im) ∧
    ids.Hold s.emitter.body σ ⟨words.values, vars⟩ ∧ Shows C final im σ

namespace Furnished

theorem carrying (hs : Furnished c s) (hbase : C.data.size < C.base)
    (hreads : Reads g c c.site.outlets inputs) (hown : ∀ y, s.emitter.Own (ids.vars y))
    (hdistinct : Function.Injective ids.vars)
    (htotal : ∀ k ≤ len, ∃ r, code.evalUpTo c C.layout inputs words k = some r) (horderly : s'.Orderly) :
    Carrying C g c c.site.outlets inputs s s' (fun pos => code.emit pos ids) len
      (Ran C c inputs code ids words s s') where
  keeps _ _ _ h := ElementCode.keeps_emit h hs.ports
  stable k σ σ' e hg halike := by
    rintro ⟨vars, im, heval, hholds, hshown⟩
    refine ⟨vars, im, heval, hholds.mono (.refl _) (fun i hi => ?_) (fun y => ?_),
      hshown.of_memory halike.memory⟩
    · exact halike.values i (hi.trans_le hg.body.valueTypes.size_le)
    · exact halike.vars _ ((hown y).mono hg)
  step k hk pos s₁ s₂ σ h hC hg hs₁ hsuited hfinal hr hpos := by
    rintro ⟨vars, im, heval, hholds, hshown⟩
    obtain ⟨⟨after, im'⟩, hnext⟩ := htotal (k + 1) hk
    have heval' : code.eval c C.layout inputs k ⟨words.values, vars⟩ im = some (after, im') := by
      rw [ElementCode.evalUpTo, heval] at hnext
      exact hnext
    obtain ⟨σ', hperforms, hholds', hshown'⟩ := ElementCode.performs_emit h hC hbase hs.ports hreads
      hfinal horderly ⟨hs₁, hsuited, hr, hpos, hholds.mono hg.body (fun _ _ => rfl) fun _ => rfl,
        hdistinct, hshown⟩ heval'
    have hwithin := hg.body.trans (ElementCode.keeps_emit h hs.ports).straight.body
    refine ⟨σ', hperforms.toAdvances, hperforms.guarded, fun x hx hlt => ?_, after, im', hnext,
      hholds'.of_within hwithin (fun x => ?_) hholds.lt, hshown'⟩
    · refine hperforms.others x (fun hx' => hx ?_) hlt
      obtain ⟨y, rfl⟩ := hx'
      exact hown y
    · exact (Array.getElem?_eq_some_iff.1 (hholds.values x).2).1

/-- Whether the code runs in a loop or not, it comes to what it means. -/
theorem ran_of_forEach (hs : Furnished c s) (hreads : Reads g c c.site.outlets inputs)
    (hown : ∀ y, s.emitter.Own (ids.vars y)) (hdistinct : Function.Injective ids.vars)
    (htotal : ∀ k ≤ len, ∃ r, code.evalUpTo c C.layout inputs words k = some r)
    (h : Lowers c (forEach len fun pos => code.emit pos ids) s u s') (hC : C.Covers s'.emitter)
    (hbase : C.data.size < C.base) (hr : Ready C g c.site.outlets inputs s σ)
    (hholds : ids.Hold s.emitter.body σ words) :
    ∃ σ', C.Advances s.emitter.body s'.emitter.body σ σ' ∧ Ready C g c.site.outlets inputs s' σ' ∧
      Ran C c inputs code ids words s s' len σ' := by
  have horderly := (follows_forEach h hs.able.orderly fun _ _ _ h =>
    ElementCode.keeps_emit h hs.ports).orderly hs.able.orderly
  refine advances_forEach h (hs.carrying hbase hreads hown hdistinct htotal horderly) hC hbase
    hs.able.orderly hs.suited hreads hr fun σ' hvars hvalues => ?_
  exact ⟨words.vars, .blank, rfl, hholds.mono (.refl _) hvalues fun _ => by rw [hvars], shows_blank⟩

/-- Code for each element can be emitted with loops unrolled exactly if it can be emitted in a loop
and no inlet that it reads ends before. Where the outlets have room for what it stores, both come to
the same: the variables hold the same words, and every byte of the elements that are stored is the
same. -/
theorem unrolled_agrees {types : Locals Ty Ty n m} (hs : Furnished c s) (hlen : len ≤ 2 ^ 28)
    (hids : ids.Agrees s.emitter.Sees s.emitter.typing.HasVar types)
    (hown : ∀ y, s.emitter.Own (ids.vars y)) (hdistinct : Function.Injective ids.vars) :
    ((∃ s', Lowers c (forEach len fun pos => code.emit pos ids) (s.unrolling true) () s') ↔
      (∃ s', Lowers c (forEach len fun pos => code.emit pos ids) (s.unrolling false) () s') ∧
        ∀ i ∈ code.inputs, ∀ l, c.site.inlets[i]? = some l → len ≤ l.selection.size) ∧
    ∀ (g : Graph) (inputs : List Values) (words : Locals Word Word n m),
      Reads g c c.site.outlets inputs → words.Agrees (·.ty = ·) (·.ty = ·) types →
      code.Meets c (fun l => len ≤ l.selection.size) (fun o t => o.HasRoom len t) types →
      ∀ l, ∃ after im, code.evalUpTo c l inputs words len = some (after, im) ∧
        code.Meets c (fun _ => True) (fun o t => im.Covers o.port 0 (len * t.size)) types ∧
        ∀ unroll,
          (∃ s', Lowers c (forEach len fun pos => code.emit pos ids) (s.unrolling unroll) () s') ∧
          ∀ s', Lowers c (forEach len fun pos => code.emit pos ids) (s.unrolling unroll) () s' →
            ∀ (C : Context) (σ : Store), C.layout = l → C.Covers s'.emitter → C.data.size < C.base →
              Ready C g c.site.outlets inputs (s.unrolling unroll) σ →
              ids.Hold s.emitter.body σ words →
              ∃ σ', C.Advances s.emitter.body s'.emitter.body σ σ' ∧
                Ready C g c.site.outlets inputs s' σ' ∧
                ids.Hold s.emitter.body σ' ⟨words.values, after⟩ ∧ Shows C s' im σ' := by
  refine ⟨hs.exists_unrolled_iff hlen hids, fun g inputs words hreads hwords hmeets l => ?_⟩
  have htotal : ∀ k ≤ len, ∃ r, code.evalUpTo c l inputs words k = some r := by
    intro k hk
    obtain ⟨vars, im, heval, -⟩ := ElementCode.exists_evalUpTo hreads hk hmeets hwords
    exact ⟨_, heval⟩
  obtain ⟨after, im, heval, -, hcovers⟩ :=
    ElementCode.exists_evalUpTo hreads (Nat.le_refl len) hmeets hwords
  refine ⟨after, im, heval, hcovers, fun unroll => ⟨?_, fun s' h C σ hl hC hbase hr hholds => ?_⟩⟩
  · refine (hs.unrolling unroll).exists_forEach hlen
      (hids.imp (fun _ _ hv => ⟨hv.type, hv.visible⟩) fun _ _ hx => hx) fun hpos => ?_
    refine hmeets.imp (fun _ h => h) fun o t hroom => ?_
    cases hsize : o.size with
    | some size => rfl
    | none =>
        rw [Outlet.HasRoom, hsize, Option.getD_none, Nat.zero_mul] at hroom
        have := Nat.mul_pos hpos t.size_pos
        omega
  · obtain ⟨σ', hadv, hr', vars, im', heval', hholds', hshown⟩ :=
      (hs.unrolling unroll).ran_of_forEach hreads hown hdistinct (hl ▸ htotal) h hC hbase hr hholds
    rw [hl] at heval'
    obtain ⟨rfl, rfl⟩ := Prod.mk.inj (Option.some.inj (heval.symm.trans heval'))
    exact ⟨σ', hadv, hr', hholds', hshown⟩

end Furnished

end Run

section Swap

open Lower

def opening : Emitter where
  body := { Body.new ⟨0⟩ "predict" [⟨"input", .ptr⟩, ⟨"output", .ptr⟩] none with
    argSlots := [⟨.input, 0⟩, ⟨.input, 1⟩] }
  declarations := { functions := #[⟨"predict", [.ptr, .ptr], none, true⟩] }
  pools := { input := { scope := .input, next := 2 } }
  settings := {}

theorem exists_opens_opening : ∃ a, Opens {} a opening := by
  have hplan : Plan.Unclaimed {} := Plan.unclaimed_predict rfl
  obtain ⟨a, e, ho⟩ := exists_opens hplan
  obtain ⟨-, rfl⟩ := Code.Assembler.succeeds_beginFunction.1 ho.begins
  obtain ⟨body, declarations, pools, settings⟩ := e
  obtain rfl := Option.some.inj ho.emits.opened
  obtain rfl := ho.emits.declarations
  obtain rfl := ho.emits.pools
  obtain rfl := ho.emits.settings
  exact ⟨_, ho⟩

/-- A node that stores the two truth values of the input in reverse order. -/
def swapping : LowerContext where
  site :=
    { id := .ofNat 1, key := ⟨1, 1⟩, typeName := "Swap", inlets := [⟨"input", swapped ⟨0, 1⟩⟩],
      outlets := [.ofSpec ⟨"output", .boolean, some 2⟩ ⟨⟨1, 1⟩, 0⟩] }
  graphSize := 2

def unswapped : LowerState := { start negator opening with gathered := [none] }

theorem furnished_unswapped : Furnished swapping unswapped := by
  obtain ⟨a, ho⟩ := exists_opens_opening
  have hstorage : ∀ q st, unswapped.storage.find? q = some st → q = ⟨⟨0, 1⟩, 0⟩ ∧ st = .argument ⟨0⟩ := by
    intro q st hst
    rw [unswapped, find?_start] at hst
    split at hst
    case isTrue hq => exact ⟨hq, (Option.some.inj hst).symm⟩
    case isFalse => cases hst
  have hbuffer : ∀ w b, unswapped.buffer? w ≠ some b := by
    rintro (p | i) b hb
    · cases (hstorage p _ (LowerState.buffer_inl.1 hb)).2
    · cases i <;> cases hb
  refine ⟨⟨ho.proper, ⟨ho.tidy, fun w b hb => absurd hb (hbuffer w b), fun w _ b _ hb =>
    absurd hb (hbuffer w b)⟩, fun p v hv => ?_, fun p id hid => ?_⟩, ho.level, fun l hl => ?_, rfl,
    List.nodup_singleton _, fun o ho => ?_, fun o ho st hst => ?_⟩
  · obtain rfl := Storage.argument.inj (hstorage p _ hv).2
    exact ⟨by decide, rfl⟩
  · cases (hstorage p _ hid).2
  · obtain rfl := List.mem_singleton.1 hl
    refine ⟨.boolean, by decide, fun a ha => ⟨.argument ⟨0⟩, ?_⟩, by decide, by decide⟩
    have hport : a.port = ⟨⟨0, 1⟩, 0⟩ := by
      revert a
      decide
    rw [hport]
    rfl
  · obtain rfl := List.mem_singleton.1 ho
    decide
  · obtain rfl := List.mem_singleton.1 ho
    cases (hstorage _ _ hst).1

def truths : Outlet :=
  (Outlet.ofSpec ⟨"output", .boolean, some 2⟩ ⟨⟨0, 1⟩, 0⟩).hold (.booleans [true, false])

def unfilled : Graph := (Graph.replay [.addNumbered 0 (negation ⟨0, 1⟩).toNode]).2

def filled : Graph := unfilled.setOutlets ⟨0, 1⟩ [truths]

theorem outlet_filled {p : Port} {o : Outlet} (h : filled.outlet p = .ok o) : o = truths := by
  obtain ⟨e, he, hi⟩ := Graph.outlet_eq_ok_iff.1 h
  rcases Graph.entry_of_setOutlets he with ⟨hne, he⟩ | ⟨e', -, -, rfl⟩
  · have hmem : p.node ∈ unfilled.order :=
      ((Graph.history_replay _).sound.mem_order_iff _).2 (Graph.live_of_entry he)
    have horder : unfilled.order = [⟨0, 1⟩] := by decide +kernel
    rw [horder] at hmem
    exact absurd (List.mem_singleton.1 hmem) hne
  · exact List.mem_singleton.1 (List.mem_of_getElem? hi)

theorem reads_filled : Reads filled swapping swapping.site.outlets [.booleans [false, true]] where
  gathers := .cons ⟨.boolean, fun u hu => (Option.some.inj hu).symm, rfl⟩ .nil
  fits l hl := by
    obtain rfl := List.mem_singleton.1 hl
    have hspans : ∀ a ∈ (swapped ⟨0, 1⟩).spans, a.port = ⟨⟨0, 1⟩, 0⟩ ∧ a.outletSize = 2 ∧
        a.elemType = .boolean ∧ a.stop ≤ a.outletSize ∧ a.refresh a.outletSize = a := by
      decide
    refine ⟨fun a ha b hb => (hspans a ha).2.2.1.trans (hspans b hb).2.2.1.symm, fun a ha => ?_⟩
    obtain ⟨hport, hsize, htype, hstop⟩ := hspans a ha
    exact ⟨truths, by rw [hport]; rfl, by rw [hsize]; rfl, htype.symm, hstop⟩
  other := by decide
  small p o ho := by
    rw [outlet_filled ho]
    decide

theorem helpers_unswapped (unroll : Bool) : (((LowerAction.copy 0 0).perform.run swapping).run.run
    (unswapped.unrolling unroll)).2.emitter.declarations.helpers = ∅ := by
  refine congrArg Table.mk ?_
  revert unroll
  decide +kernel

/-- The code of the node can be run on the input. -/
theorem exists_ready {unroll : Bool} {s' : LowerState}
    (h : Lowers swapping (LowerAction.copy 0 0).perform (unswapped.unrolling unroll) () s')
    (hgrows : unswapped.emitter.body.Within s'.emitter.body) : ∃ (C : Context) (σ : Store),
      C.layout = .spaced ∧ C.Covers s'.emitter ∧ C.data.size < C.base ∧ Ready C filled swapping.site.outlets
        [.booleans [false, true]] (unswapped.unrolling unroll) σ := by
  have hhelpers : s'.emitter.declarations.helpers = ∅ := by
    have hstate : (((LowerAction.copy 0 0).perform.run swapping).run.run
        (unswapped.unrolling unroll)).2 = s' := congrArg Prod.snd h
    rw [← hstate]
    exact helpers_unswapped unroll
  let data := s'.emitter.declarations.data.map Code.Executable.dataRegion
  let x : Code.Executable := ⟨"", s'.emitter.declarations, [s'.emitter.body], data⟩
  have hm : Code.Module x s'.emitter.declarations s'.emitter.body := by
    refine ⟨rfl, List.mem_singleton_self _, fun op t id hid => ?_, fun name b hb => ?_⟩
    · rw [hhelpers] at hid
      cases hid
    · unfold Code.Executable.exported at hb
      split at hb
      case h_2 => cases hb
      case h_1 b' hfind =>
        obtain rfl := Except.ok.inj hb
        exact List.mem_singleton.1 (List.mem_filter.1 (List.mem_of_find?_eq_some hfind)).1
  obtain ⟨a, ho⟩ := exists_opens_opening
  have hstands : Stands (hm.context {} (.booleans [true, false]) (.booleans [])) filled ⟨1⟩
      (start negator opening)
      (Code.Module.entry s'.emitter.body x {} (.booleans [true, false]) (.booleans [])) :=
    stands_entry hm ho.toOpening hgrows fun o hgo => by rw [outlet_filled hgo]; rfl
  refine ⟨hm.context {} (.booleans [true, false]) (.booleans []), _, rfl, ⟨.refl _, fun _ _ h => h, .refl _⟩, ?_, hstands.fits, fun p _ => hstands.backed p,
    fun i b v hb _ => ?_⟩
  · change s'.emitter.declarations.data.size < x.data.size + 2
    simp [x, data]
  · cases i <;> cases hb

/-- The node swaps two values in a loop and without one. -/
theorem swaps_unswapped : ∃ im : Image, im ⟨⟨1, 1⟩, 0⟩ 0 = some 0 ∧ im ⟨⟨1, 1⟩, 0⟩ 1 = some 1 ∧
    ∀ unroll, ∃ s', Lowers swapping (LowerAction.copy 0 0).perform (unswapped.unrolling unroll) () s' ∧
      ∃ (C : Context) (σ σ' : Store),
        Ready C filled swapping.site.outlets [.booleans [false, true]] (unswapped.unrolling unroll) σ ∧
        C.Advances unswapped.emitter.body s'.emitter.body σ σ' ∧ Shows C s' im σ' := by
  obtain ⟨-, hrun⟩ := @Furnished.unrolled_agrees swapping 0 0 2 unswapped (.copy 0 0) .none .none
    furnished_unswapped (by decide) ⟨nofun, nofun⟩ nofun fun x => x.elim0
  obtain ⟨after, im, heval, -, hagree⟩ := hrun filled [.booleans [false, true]] .none reads_filled
    ⟨nofun, nofun⟩ ⟨_, .boolean, rfl, rfl, by decide, _, rfl, by decide, trivial⟩ .spaced
  have hvalue : ((ElementCode.copy 0 0).evalUpTo swapping .spaced [.booleans [false, true]] .none 2).map
      (fun r => (r.2 ⟨⟨1, 1⟩, 0⟩ 0, r.2 ⟨⟨1, 1⟩, 0⟩ 1)) = some (some 0, some 1) := by
    decide
  rw [heval] at hvalue
  obtain ⟨h₀, h₁⟩ := Prod.mk.inj (Option.some.inj hvalue)
  refine ⟨im, h₀, h₁, fun unroll => ?_⟩
  obtain ⟨⟨s', h⟩, hall⟩ := hagree unroll
  have hperform : Lowers swapping (LowerAction.copy 0 0).perform (unswapped.unrolling unroll) () s' := by
    rw [LowerAction.perform_copy]
    exact lowers_bind.2 ⟨2, _, lowers_inputSize.2 ⟨_, rfl, rfl, rfl⟩, h⟩
  have hgrows := (follows_forEach h (furnished_unswapped.unrolling unroll).able.orderly fun _ _ _ h =>
    ElementCode.keeps_emit h furnished_unswapped.ports).grows
  obtain ⟨C, σ, hlayout, hC, hbase, hready⟩ := exists_ready hperform hgrows.body
  obtain ⟨σ', hadv, -, -, hshown⟩ := hall s' h C σ hlayout hC hbase hready ⟨nofun, nofun⟩
  exact ⟨s', hperform, C, σ, σ', hready, hadv, hshown⟩

end Swap

section Half

/-- Two outlets of four elements, of which the last two are stored, and one of two elements. -/
def source : Script where
  typeName := "Source"
  outlets := [⟨"a", .integer, some 4⟩, ⟨"b", .integer, some 4⟩, ⟨"c", .integer, some 2⟩]
  lower := some [.store 0 2 1, .store 0 3 1, .store 1 2 2, .store 1 3 2, .store 2 0 7, .store 2 1 9]

/-- The two elements, in reverse order, are copied into an outlet of four. -/
def half : Script where
  typeName := "Half"
  inlets := [⟨"input", ⟨[⟨⟨⟨1, 1⟩, 2⟩, .integer, 1, 1, 2, true⟩, ⟨⟨⟨1, 1⟩, 2⟩, .integer, 0, 1, 2, true⟩]⟩⟩]
  outlets := [⟨"output", .integer, some 4⟩]
  lower := some [.copy 0 0]

def halves : Graph :=
  (Graph.replay [.addNumbered 0 (Builtin.input .integer (some 1)).toNode,
    .addNumbered 1 source.toNode, .addNumbered 2 half.toNode]).2

def halver : Transform :=
  ⟨halves, "input", ⟨0, 1⟩, [("output", .ofSpan ⟨⟨⟨2, 1⟩, 0⟩, .integer, 0, 4, 4, false⟩)]⟩

/-- The integers in the output after a run of a compiled transform. -/
def outputOf (compiled : Except Fault Compiled) (input : List Int32) : Option (List Int32) :=
  match compiled.toOption.map (Compiled.compute 300 .integer (.integers input)).run.run with
  | some (.ok (.returned ..), ⟨_, _, _, _, _, _, .integers xs, _⟩) => some xs
  | _ => none

/-- Elements that are not stored mean nothing: they are what was in the place of the buffer before.
That is another place where inputs have been gathered for a loop. -/
theorem unrolled_disagrees_halver : halves.validate = .ok () ∧
    Transform.new halves [("input", ⟨0, 1⟩)] halver.outputs = .ok halver ∧
    outputOf (Compiled.compile halver { settings := { unroll := true } }).1 [5] = some [9, 7, 1, 1] ∧
    outputOf (Compiled.compile halver { settings := { unroll := false } }).1 [5] = some [9, 7, 2, 2] := by
  have horder : halves.dependencyOrder [.ofSpan ⟨⟨⟨2, 1⟩, 0⟩, .integer, 0, 4, 4, false⟩] =
      .ok [⟨1, 1⟩, ⟨2, 1⟩] := by cbv
  have hrun := @Lower.run_build_of_order halver _ _ rfl rfl horder
  unfold Compiled.compile
  simp only [hrun]
  exact ⟨by cbv, rfl, by decide +kernel, by decide +kernel⟩

end Half

end Dataflow
