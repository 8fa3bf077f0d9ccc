import Dataflow.Code.Flow
import Dataflow.Proofs.Code.LoopRuns
import Dataflow.Proofs.Code.Once

/-!
# Edges between blocks

A block that has been closed goes on to the blocks that its terminator names. Straight-line code adds
no edge. What is closed while code is emitted gets edges to blocks that are new, so an edge that leads
back can only stay between the blocks of one loop.
-/

namespace Dataflow.Code

def Instr.Spares (X : VarId → Prop) : Instr → Prop
  | .writeVar x _ => ¬ X x
  | _ => True

theorem Instr.spares_of_defines {X : VarId → Prop} {i : Instr} {v : ValueId} (h : i.defines = some v) :
    i.Spares X := by
  cases i with
  | writeVar x value => cases h
  | _ => trivial

namespace Body

def Edge (b : Body) (g t : Nat) : Prop := ∃ k, b.blocks[g]? = some k ∧ ⟨t⟩ ∈ k.targets

variable {b b' : Body} {g t : Nat} {k : Block}

theorem Edge.congr (h : b'.Edge g t) (hblock : ∀ k', b'.blocks[g]? = some k' →
    ∃ k, b.blocks[g]? = some k ∧ k'.terminator = k.terminator) : b.Edge g t := by
  obtain ⟨k', hk', ht⟩ := h
  obtain ⟨k, hk, hterminator⟩ := hblock k' hk'
  refine ⟨k, hk, ?_⟩
  unfold Block.targets at ht ⊢
  rwa [← hterminator]

/-- The block that is closed gets the edges that its terminator names. -/
theorem Edge.of_terminate {r : Terminator} (h : b.terminate r = .ok b') (ht : b'.Edge g t) :
    b.Edge g t ∨ g = b.current.index ∧ ⟨t⟩ ∈ r.targets := by
  obtain ⟨-, rfl⟩ := terminate_eq_ok_iff.1 h
  obtain ⟨k, hk, ht⟩ := ht
  rw [Array.getElem?_modify] at hk
  split at hk
  · next hg =>
      obtain ⟨k', -, rfl⟩ := Option.map_eq_some_iff.1 hk
      exact .inr ⟨hg.symm, ht⟩
  · exact .inl ⟨k, hk, ht⟩

end Body

namespace Emitter

variable {X X' : VarId → Prop} {e e' e'' : Emitter} {L L' : List (Nat × Nat)}

/-- Only the current block has changed, which is as open as before, and none of the variables has been
written. -/
structure Inline (X : VarId → Prop) (e e' : Emitter) : Prop where
  size : e'.body.blocks.size = e.body.blocks.size
  current : e'.body.current = e.body.current
  others : ∀ g : Nat, g ≠ e.body.current.index → e'.body.blocks[g]? = e.body.blocks[g]?
  block : ∀ k', e'.body.blocks[e.body.current.index]? = some k' →
    ∃ k, e.body.blocks[e.body.current.index]? = some k ∧ k'.terminator = k.terminator ∧
      ∀ (p : Nat) (x : VarId) (v : ValueId), k'.instrs[p]? = some (.writeVar x v) → X x →
        k.instrs[p]? = some (.writeVar x v)

namespace Inline

theorem of_blocks (hcurrent : e'.body.current = e.body.current)
    (hblocks : e'.body.blocks = e.body.blocks) : e.Inline X e' where
  size := congrArg Array.size hblocks
  current := hcurrent
  others _ _ := by rw [hblocks]
  block k hk := ⟨k, hblocks ▸ hk, rfl, fun _ _ _ hi _ => hi⟩

theorem refl (e : Emitter) : e.Inline X e := .of_blocks rfl rfl

theorem trans (h : e.Inline X e') (h' : e'.Inline X e'') : e.Inline X e'' where
  size := h'.size.trans h.size
  current := h'.current.trans h.current
  others g hg := (h'.others g (h.current ▸ hg)).trans (h.others g hg)
  block k'' hk'' := by
    obtain ⟨k', hk', ht', hwrites'⟩ := h'.block k'' (h.current ▸ hk'')
    obtain ⟨k, hk, ht, hwrites⟩ := h.block k' (h.current ▸ hk')
    exact ⟨k, hk, ht'.trans ht, fun p x v hi hx => hwrites p x v (hwrites' p x v hi hx) hx⟩

instance : Std.Refl (Inline X) := ⟨refl⟩

instance : IsTrans Emitter (Inline X) := ⟨fun _ _ _ => trans⟩

theorem of_silent (h : e.Silent e') : e.Inline X e' := .of_blocks h.current h.blocks

theorem of_push {b : Body} {i : Instr} (hb : e.body.push i = .ok b) (hi : i.Spares X) :
    e.Inline X { e with body := b } := by
  obtain ⟨-, -, k, hk, -, hblocks⟩ := Body.blocks_of_push hb
  refine ⟨?_, Body.current_of_push hb, fun g hg => (hblocks g).trans (if_neg hg), fun k' hk' => ?_⟩
  · obtain ⟨-, rfl⟩ := Body.push_eq_ok_iff.1 hb
    exact Array.size_modify
  · obtain rfl := Option.some.inj (((hblocks _).trans (if_pos rfl)).symm.trans hk')
    refine ⟨k, hk, rfl, fun p x v hp hx => ?_⟩
    rw [Array.getElem?_push] at hp
    split at hp
    · obtain rfl := Option.some.inj hp
      exact absurd hx hi
    · exact hp

/-- Straight-line code adds no edge. -/
theorem edge (h : e.Inline X e') {g t : Nat} (ht : e'.body.Edge g t) : e.body.Edge g t := by
  refine ht.congr fun k' hk' => ?_
  by_cases hg : g = e.body.current.index
  · subst hg
    obtain ⟨k, hk, hterminator, -⟩ := h.block k' hk'
    exact ⟨k, hk, hterminator⟩
  · exact ⟨k', (h.others g hg).symm.trans hk', rfl⟩

end Inline

def Joins (L : List (Nat × Nat)) (e e' : Emitter) : Prop :=
  ∀ g t, e'.body.Edge g t → e.body.Edge g t ∨ (g, t) ∈ L

theorem Joins.trans (h : e.Joins L e') (h' : e'.Joins L' e'') : e.Joins (L ++ L') e'' := by
  intro g t ht
  rcases h' g t ht with ht | ht
  · exact (h g t ht).imp_right (List.mem_append_left _)
  · exact .inr (List.mem_append_right _ ht)

theorem Inline.joins (h : e.Inline X e') : e.Joins [] e' := fun _ _ ht => .inl (h.edge ht)

structure Chains (e e' : Emitter) : Prop where
  size : e.body.blocks.size ≤ e'.body.blocks.size
  edges : ∀ g t, e'.body.Edge g t →
    e.body.Edge g t ∨ e.body.blocks.size ≤ t ∧ t < e'.body.blocks.size

end Emitter

namespace Emit

open Emitter

variable {α : Type} {X : VarId → Prop} {e e' : Emitter} {u : Unit}

theorem inline_push {i : Instr} (hi : i.Spares X) : Leaves (Inline X) (push i) := by
  refine .of_runs (fun e u e' h => ?_) fun e f e' h => by
    obtain rfl := (fails_push.1 h).2
    exact .refl _
  obtain ⟨b, hb, rfl⟩ := succeeds_push.1 h
  exact .of_push hb hi

theorem inline_define {t : Ty} {instr : ValueId → Instr} (hd : ∀ v, (instr v).defines = some v) :
    Leaves (Inline X) (define t instr) :=
  .bind (fun _ => .of_blocks rfl rfl) fun v =>
    (inline_push (Instr.spares_of_defines (hd v))).bind fun _ => .pure _

instance : Asks (Inline X) where
  define _ _ _ hd := inline_define hd
  store _ _ _ := inline_push trivial
  stackBuffer _ _ := .of_runs (fun _ _ _ h => .of_silent (succeeds_stackBuffer h).1) fun _ _ _ h => by
    obtain rfl := eq_of_fails_stackBuffer h
    exact .refl _
  helper _ _ _ _ _ := .of_blocks rfl rfl

instance : Offsets (Inline X) where
  offset _ _ _ := inline_define fun _ => rfl

instance : Frames (Inline X) where
  bufferAddress _ := inline_define fun _ => rfl

theorem inline_setVar {x : VarId} (hx : ¬ X x) (value : ValueId) :
    Leaves (Inline X) (setVar x value) :=
  leaves_body.bind fun _ => (leaves_check _).bind fun _ => (leaves_expectType _ _).bind fun _ =>
    inline_push hx

instance : Notes (Inline fun _ => False) where
  newValue _ _ := .of_blocks rfl rfl
  newVar _ _ := .of_blocks rfl rfl
  push i _ _ := inline_push (by cases i <;> first | exact id | trivial)
  define _ _ _ hd := inline_define hd
  allocate scope e := .of_silent (silent_allocate e scope)
  takeScratch _ := .bind (fun e => .of_silent (silent_allocate e .scratch)) fun _ =>
    .bind (.of_runs (fun _ _ _ h => .of_silent (succeeds_scratchVar h).1) fun _ _ _ h => by
      obtain rfl := eq_of_fails_scratchVar h
      exact .refl _) fun _ => .pure _
  stackBuffer _ _ := Computes.stackBuffer _ _
  datum _ _ _ _ := .of_blocks rfl rfl
  describe _ _ := .of_blocks rfl rfl

theorem joins_createBlock {label : String} {id : BlockId} (h : Succeeds (createBlock label) e id e') :
    e.Joins [] e' := by
  obtain ⟨-, rfl⟩ := succeeds_createBlock.1 h
  rintro g t ⟨k, hk, ht⟩
  have hk : (e.body.blocks.push { label })[g]? = some k := hk
  rw [Array.getElem?_push] at hk
  split at hk
  · obtain rfl := Option.some.inj hk
    cases ht
  · exact .inl ⟨k, hk, ht⟩

theorem joins_of_terminate {b : Body} {r : Terminator} (h : e.body.terminate r = .ok b) :
    e.Joins (r.targets.map fun id => (e.body.current.index, id.index)) { e with body := b } := by
  intro g t ht
  refine (Body.Edge.of_terminate h ht).imp_right fun ⟨hg, ht⟩ => ?_
  exact List.mem_map.2 ⟨⟨t⟩, ht, by rw [hg]⟩

theorem joins_jump {id : BlockId} (h : Succeeds (jump id) e u e') :
    e.Joins [(e.body.current.index, id.index)] e' ∧ e'.body.current = e.body.current ∧
      e'.body.blocks.size = e.body.blocks.size := by
  obtain ⟨b, hb, rfl⟩ := succeeds_jump h
  refine ⟨joins_of_terminate hb, ?_⟩
  obtain ⟨-, rfl⟩ := Body.terminate_eq_ok_iff.1 hb
  exact ⟨rfl, Array.size_modify⟩

theorem joins_branch {v : ValueId} {id id' : BlockId} (h : Succeeds (branch v id id') e u e') :
    e.Joins [(e.body.current.index, id.index), (e.body.current.index, id'.index)] e' ∧
      e'.body.blocks.size = e.body.blocks.size := by
  obtain ⟨b, hb, rfl⟩ := succeeds_branch h
  refine ⟨joins_of_terminate hb, ?_⟩
  obtain ⟨-, rfl⟩ := Body.terminate_eq_ok_iff.1 hb
  exact Array.size_modify

theorem joins_switchTo {id : BlockId} (h : Succeeds (switchTo id) e u e') :
    e.Joins [] e' ∧ e'.body.current = id ∧ e'.body.blocks.size = e.body.blocks.size := by
  obtain ⟨b, hb, rfl⟩ := succeeds_switchTo.1 h
  obtain ⟨-, layout, rfl⟩ := Body.switchTo_eq_ok hb
  exact ⟨fun _ _ => .inl, rfl, rfl⟩

end Emit

end Dataflow.Code
