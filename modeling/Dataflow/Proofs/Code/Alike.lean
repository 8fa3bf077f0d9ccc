import Dataflow.Proofs.Code.Machine
import Dataflow.Proofs.Code.Growth

/-!
# Bodies that do the same

An operator can be recorded in place or as a call of its helper, and source locations can be
recorded or left out. Two bodies are alike if they differ in nothing else: block by block their
instructions do the same acts. Functions are known to both by their signatures; the numbers that
the functions have may differ, because helpers are numbered among them.
-/

namespace Dataflow.Code

inductive Act
  | plain (i : Instr)
  | apply (op : Operator) (result : ValueId) (args : List ValueId)
  | call (function : Signature) (result : Option ValueId) (args : List ValueId)

inductive Instr.Does (d : Declarations) : Instr → Act → Prop
  | plain {i : Instr} : i.isLocation = false → i.callee = none → Does d i (.plain i)
  | binary {v x y : ValueId} {op : BinaryOp} :
      Does d (.binary v op x y) (.apply (.binary op) v [x, y])
  | unary {v x : ValueId} {op : UnaryOp} : Does d (.unary v op x) (.apply (.unary op) v [x])
  | helper {v : ValueId} {op : Operator} {t : Ty} {id : FunctionId} {args : List ValueId} :
      d.helpers.find? (op, t) = some id → args.length = op.arity →
      Does d (.call (some v) id args) (.apply op v args)
  | call {v : Option ValueId} {s : Signature} {id : FunctionId} {args : List ValueId} :
      d.functions[id.index]? = some s → s.exported = true → Does d (.call v id args) (.call s v args)

namespace Declarations

structure Within (d d' : Declarations) : Prop where
  functions : Prefix d.functions d'.functions
  helpers : ∀ k id, d.helpers.find? k = some id → d'.helpers.find? k = some id

variable {d d' d'' : Declarations}

theorem Within.refl (d : Declarations) : d.Within d := ⟨.refl _, fun _ _ h => h⟩

theorem Within.trans (h : d.Within d') (h' : d'.Within d'') : d.Within d'' :=
  ⟨h.functions.trans h'.functions, fun k id hk => h'.helpers k id (h.helpers k id hk)⟩

end Declarations

inductive Instrs.Alike (d₁ d₂ : Declarations) : List Instr → List Instr → Prop
  | nil : Alike d₁ d₂ [] []
  | left {n : Nat} {is js : List Instr} : Alike d₁ d₂ is js → Alike d₁ d₂ (.location n :: is) js
  | right {n : Nat} {is js : List Instr} : Alike d₁ d₂ is js → Alike d₁ d₂ is (.location n :: js)
  | cons {i j : Instr} {act : Act} {is js : List Instr} : i.Does d₁ act → j.Does d₂ act →
      Alike d₁ d₂ is js → Alike d₁ d₂ (i :: is) (j :: js)

structure Block.Alike (d₁ d₂ : Declarations) (k₁ k₂ : Block) : Prop where
  label : k₂.label = k₁.label
  terminator : k₂.terminator = k₁.terminator
  instrs : Instrs.Alike d₁ d₂ k₁.instrs.toList k₂.instrs.toList

def Declarations.Twin (d₁ d₂ : Declarations) (id₁ id₂ : FunctionId) : Prop :=
  ∃ s, s.exported = true ∧ d₁.functions[id₁.index]? = some s ∧ d₂.functions[id₂.index]? = some s

structure Body.Alike (d₁ d₂ : Declarations) (b₁ b₂ : Body) : Prop where
  rest : b₂ = { b₁ with id := b₂.id, blocks := b₂.blocks, locations := b₂.locations }
  blocks : ∀ i : Nat, Option.Rel (Block.Alike d₁ d₂) b₁.blocks[i]? b₂.blocks[i]?
  twin : d₁.Twin d₂ b₁.id b₂.id

section Mono

theorem rel_imp {α β : Type} {R S : α → β → Prop} (h : ∀ a b, R a b → S a b) {x : Option α}
    {y : Option β} (hR : Option.Rel R x y) : Option.Rel S x y := by
  cases hR with
  | none => exact .none
  | some hab => exact .some (h _ _ hab)

variable {d₁ d₂ d₁' d₂' : Declarations}

theorem Instr.Does.mono {i : Instr} {act : Act} (h : i.Does d₁ act) (hd : d₁.Within d₁') :
    i.Does d₁' act := by
  cases h with
  | plain hl hc => exact .plain hl hc
  | binary => exact .binary
  | unary => exact .unary
  | helper hid hargs => exact .helper (hd.helpers _ _ hid) hargs
  | call hs he => exact .call (hd.functions _ _ hs) he

theorem Instrs.Alike.mono {is js : List Instr} (h : Alike d₁ d₂ is js) (h₁ : d₁.Within d₁')
    (h₂ : d₂.Within d₂') : Alike d₁' d₂' is js := by
  induction h with
  | nil => exact .nil
  | left _ ih => exact .left ih
  | right _ ih => exact .right ih
  | cons hi hj _ ih => exact .cons (hi.mono h₁) (hj.mono h₂) ih

theorem Block.Alike.mono {k₁ k₂ : Block} (h : k₁.Alike d₁ d₂ k₂) (h₁ : d₁.Within d₁')
    (h₂ : d₂.Within d₂') : k₁.Alike d₁' d₂' k₂ :=
  ⟨h.label, h.terminator, h.instrs.mono h₁ h₂⟩

theorem Body.Alike.mono {b₁ b₂ : Body} (h : b₁.Alike d₁ d₂ b₂) (h₁ : d₁.Within d₁')
    (h₂ : d₂.Within d₂') : b₁.Alike d₁' d₂' b₂ := by
  obtain ⟨s, he, hs₁, hs₂⟩ := h.twin
  exact ⟨h.rest, fun i => rel_imp (fun _ _ hk => hk.mono h₁ h₂) (h.blocks i), s, he,
    h₁.functions _ _ hs₁, h₂.functions _ _ hs₂⟩

end Mono

end Dataflow.Code
