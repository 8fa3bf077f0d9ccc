import Dataflow.Proofs.Code.Activation
import Dataflow.Proofs.Code.Alike

/-!
# Runs of bodies that do the same

Two machines that run bodies that are alike stay alike: each of them takes at least one step until
both have done the next act, or both of them halt in the same way. So the one halts if and only if
the other does, with the same result and the same memory or by the same trap.
-/

namespace Dataflow.Code

namespace Machine

variable {program P₁ P₂ : Program} {m m' m₁ m₂ : Machine} {o : Outcome} {n : Nat}

def Halts (program : Program) (m : Machine) (o : Outcome) : Prop :=
  (∀ m', o ≠ .running m') ∧ ∃ fuel, run program fuel m = o

def Steps (program : Program) (m m' : Machine) : Prop := step program m = .running m'

theorem run_of_step (h : Steps program m m') (n : Nat) :
    run program (n + 1) m = run program n m' := by
  rw [run, h]

theorem halts_of_step (h : step program m = o) (ho : ∀ m', o ≠ .running m') :
    Halts program m o := by
  refine ⟨ho, 1, ?_⟩
  rw [run, h]
  cases o with
  | running m' => exact absurd rfl (ho m')
  | finished result memory => rfl
  | trapped t => rfl

theorem Halts.of_steps (h : Steps program m m') (hm : Halts program m' o) : Halts program m o := by
  obtain ⟨ho, fuel, hrun⟩ := hm
  exact ⟨ho, fuel + 1, (run_of_step h fuel).trans hrun⟩

theorem Halts.of_transGen (h : Relation.TransGen (Steps program) m m') (hm : Halts program m' o) :
    Halts program m o := by
  induction h with
  | single h => exact hm.of_steps h
  | tail _ h ih => exact ih (hm.of_steps h)

/-- More fuel changes nothing once a run has ended. -/
theorem run_of_le {k : Nat} (ho : ∀ m', o ≠ .running m') (h : run program n m = o) (hk : n ≤ k) :
    run program k m = o := by
  induction n generalizing m k with
  | zero => exact absurd h.symm (ho m)
  | succ n ih =>
      obtain ⟨k, rfl⟩ : ∃ j, k = j + 1 := ⟨k - 1, by omega⟩
      rw [run] at h ⊢
      cases hstep : step program m with
      | running m' =>
          rw [hstep] at h
          exact ih h (by omega)
      | finished result memory => rwa [hstep] at h
      | trapped t => rwa [hstep] at h

theorem Halts.eq {o' : Outcome} (h : Halts program m o) (h' : Halts program m o') : o = o' := by
  obtain ⟨ho, n, hn⟩ := h
  obtain ⟨ho', k, hk⟩ := h'
  exact (run_of_le ho hn (le_max_left n k)).symm.trans (run_of_le ho' hk (le_max_right n k))

/-- What is left to run after some steps takes less fuel. -/
theorem run_of_transGen (h : Relation.TransGen (Steps program) m m') (ho : ∀ m', o ≠ .running m')
    (hrun : run program n m = o) : ∃ k < n, run program k m' = o := by
  have hone {n : Nat} {m m' : Machine} (h : Steps program m m') (hrun : run program n m = o) :
      ∃ k < n, run program k m' = o := by
    cases n with
    | zero => exact absurd hrun.symm (ho m)
    | succ n => exact ⟨n, Nat.lt_succ_self n, (run_of_step h n).symm.trans hrun⟩
  induction h with
  | single h => exact hone h hrun
  | tail _ h ih =>
      obtain ⟨k, hk, hrun⟩ := ih
      obtain ⟨j, hj, hrun⟩ := hone h hrun
      exact ⟨j, hj.trans hk, hrun⟩

def Meets (P₁ P₂ : Program) (R : Machine → Machine → Prop) (m₁ m₂ : Machine) : Prop :=
  (∃ m₁' m₂', Relation.TransGen (Steps P₁) m₁ m₁' ∧ Relation.TransGen (Steps P₂) m₂ m₂' ∧
    R m₁' m₂') ∨
  ∃ o, Halts P₁ m₁ o ∧ Halts P₂ m₂ o

section Meets

variable {R : Machine → Machine → Prop}

theorem Meets.left (h : Steps P₁ m₁ m) (hm : Meets P₁ P₂ R m m₂) : Meets P₁ P₂ R m₁ m₂ := by
  rcases hm with ⟨m₁', m₂', h₁, h₂, hR⟩ | ⟨o, h₁, h₂⟩
  · exact .inl ⟨m₁', m₂', .head h h₁, h₂, hR⟩
  · exact .inr ⟨o, h₁.of_steps h, h₂⟩

theorem Meets.right (h : Steps P₂ m₂ m) (hm : Meets P₁ P₂ R m₁ m) : Meets P₁ P₂ R m₁ m₂ := by
  rcases hm with ⟨m₁', m₂', h₁, h₂, hR⟩ | ⟨o, h₁, h₂⟩
  · exact .inl ⟨m₁', m₂', h₁, .head h h₂, hR⟩
  · exact .inr ⟨o, h₁, h₂.of_steps h⟩

theorem Meets.swap (h : Meets P₁ P₂ R m₁ m₂) : Meets P₂ P₁ (fun m₂ m₁ => R m₁ m₂) m₂ m₁ := by
  rcases h with ⟨m₁', m₂', h₁, h₂, hR⟩ | ⟨o, h₁, h₂⟩
  · exact .inl ⟨m₂', m₁', h₂, h₁, hR⟩
  · exact .inr ⟨o, h₂, h₁⟩

theorem halts_of_meets (hR : ∀ m₁ m₂, R m₁ m₂ → Meets P₁ P₂ R m₁ m₂) (h : R m₁ m₂)
    (ho : Halts P₁ m₁ o) : Halts P₂ m₂ o := by
  obtain ⟨hend, n, hn⟩ := ho
  induction n using Nat.strongRecOn generalizing m₁ m₂ with
  | ind n ih =>
      rcases hR m₁ m₂ h with ⟨m₁', m₂', h₁, h₂, hR'⟩ | ⟨o', h₁, h₂⟩
      · obtain ⟨k, hk, hrun⟩ := run_of_transGen h₁ hend hn
        exact (ih k hk hR' hrun).of_transGen h₂
      · rwa [Halts.eq ⟨hend, n, hn⟩ h₁]

theorem halts_iff_of_meets (hR : ∀ m₁ m₂, R m₁ m₂ → Meets P₁ P₂ R m₁ m₂) (h : R m₁ m₂) :
    Halts P₁ m₁ o ↔ Halts P₂ m₂ o :=
  ⟨halts_of_meets hR h, halts_of_meets (R := fun m₂ m₁ => R m₁ m₂)
    (fun m₂ m₁ h => (hR m₁ m₂ h).swap) h⟩

end Meets

section Acts

variable {op : Operator} {v : ValueId} {args : List ValueId} {block : Block} {i : Instr}

/-- An instruction that stays in its frame is what the machine does next. -/
theorem stepOrTrap_eq (hblock : m.frame.body.blocks[m.frame.block.index]? = some block)
    (hi : block.instrs[m.frame.next]? = some i) (hcall : i.callee = none) :
    stepOrTrap program m = (perform program.surroundings (advance m.frame) m.memory i).map fun r =>
      .running ⟨r.1, m.callers, r.2⟩ := by
  unfold stepOrTrap
  simp only [hblock, hi]
  cases i
  case call => cases hcall
  all_goals
    dsimp only
    cases perform program.surroundings (advance m.frame) m.memory _ <;> rfl

theorem step_of_ok (h : stepOrTrap program m = .ok o) : step program m = o := by
  rw [step, h]

theorem halts_of_trap {t : Trap} (h : stepOrTrap program m = .error t) :
    Halts program m (.trapped t) := by
  refine halts_of_step ?_ (by simp)
  rw [step, h]

/-- A helper traps if its operator has no result. -/
theorem halts_helper {b : Body} {words : List Word} (hb : b.Applies op)
    (hlength : words.length = op.arity) (hw : op.apply words = none) (callers : List Caller)
    (memory : Memory) :
    Halts program (call program.surroundings b words callers memory) (.trapped .illTyped) := by
  obtain ⟨label, hblock⟩ := hb.block
  let m := call program.surroundings b words callers memory
  have hperf := perform_helper hb hlength program.surroundings memory.size m.memory
  rw [hw] at hperf
  refine halts_of_trap ((stepOrTrap_eq (m := m) hblock rfl ?_).trans ?_)
  · cases op <;> rfl
  · exact congrArg _ hperf

section Calls

variable {result : Option ValueId} {id : FunctionId} {words : List Word}

theorem stepOrTrap_call (hblock : m.frame.body.blocks[m.frame.block.index]? = some block)
    (hi : block.instrs[m.frame.next]? = some (.call result id args))
    (hwords : args.mapM m.frame.get = .ok words) {b : Body} (hb : program.body? id = some b) :
    stepOrTrap program m = .ok (.running
      (call program.surroundings b words (⟨advance m.frame, result⟩ :: m.callers) m.memory)) := by
  unfold stepOrTrap
  simp only [hblock, hi, hwords, bind, Except.bind, hb]
  rfl

theorem stepOrTrap_call_none (hblock : m.frame.body.blocks[m.frame.block.index]? = some block)
    (hi : block.instrs[m.frame.next]? = some (.call result id args))
    (hwords : args.mapM m.frame.get = .ok words) (hb : program.body? id = none) :
    stepOrTrap program m = .error .noBody := by
  unfold stepOrTrap
  simp only [hblock, hi, hwords, bind, Except.bind, hb]
  rfl

theorem stepOrTrap_call_error {t : Trap}
    (hblock : m.frame.body.blocks[m.frame.block.index]? = some block)
    (hi : block.instrs[m.frame.next]? = some (.call result id args))
    (hwords : args.mapM m.frame.get = .error t) : stepOrTrap program m = .error t := by
  unfold stepOrTrap
  simp only [hblock, hi, hwords, bind, Except.bind]

end Calls

def applied (f : Frame) (op : Operator) (args : List ValueId) : Except Trap Word := do
  Frame.require (op.apply (← args.mapM f.get))

theorem perform_binary_eq (ω : Surroundings) (f : Frame) (memory : Memory) (op : BinaryOp) (v x y : ValueId) :
    perform ω f memory (.binary v op x y) =
      (applied f (.binary op) [x, y]).map fun w => (f.set v w, memory) := by
  simp only [perform, applied, List.mapM_cons, List.mapM_nil, bind, Except.bind]
  cases f.get x with
  | error t => rfl
  | ok a =>
      cases f.get y with
      | error t => rfl
      | ok c =>
          change _ = Except.map _ (Frame.require (Word.binary op a c))
          dsimp only
          cases Frame.require (Word.binary op a c) <;> rfl

theorem perform_unary_eq (ω : Surroundings) (f : Frame) (memory : Memory) (op : UnaryOp) (v x : ValueId) :
    perform ω f memory (.unary v op x) =
      (applied f (.unary op) [x]).map fun w => (f.set v w, memory) := by
  simp only [perform, applied, List.mapM_cons, List.mapM_nil, bind, Except.bind]
  cases f.get x with
  | error t => rfl
  | ok a =>
      change _ = Except.map _ (Frame.require (Word.unary op a))
      dsimp only
      cases Frame.require (Word.unary op a) <;> rfl

/-- However an operator has been recorded, the machine goes on with its result or traps. -/
theorem meets_apply {d : Declarations}
    (hP : ∀ op t id, d.helpers.find? (op, t) = some id →
      ∃ b, program.body? id = some b ∧ b.Applies op)
    (hblock : m.frame.body.blocks[m.frame.block.index]? = some block)
    (hi : block.instrs[m.frame.next]? = some i) (hdoes : i.Does d (.apply op v args)) :
    (∀ w, applied m.frame op args = .ok w → Relation.TransGen (Steps program) m
      ⟨(advance m.frame).set v w, m.callers, m.memory⟩) ∧
    ∀ t, applied m.frame op args = .error t → Halts program m (.trapped t) := by
  have hinline (hcall : i.callee = none) (hperf : perform program.surroundings (advance m.frame) m.memory i =
      (applied m.frame op args).map fun w => ((advance m.frame).set v w, m.memory)) :
      (∀ w, applied m.frame op args = .ok w → Relation.TransGen (Steps program) m
        ⟨(advance m.frame).set v w, m.callers, m.memory⟩) ∧
      ∀ t, applied m.frame op args = .error t → Halts program m (.trapped t) := by
    have hstep : stepOrTrap program m = _ := stepOrTrap_eq hblock hi hcall
    rw [hperf] at hstep
    refine ⟨fun w hw => .single (step_of_ok ?_), fun t ht => halts_of_trap ?_⟩
    · rw [hstep, hw]
      rfl
    · rw [hstep, ht]
      rfl
  cases hdoes with
  | binary => exact hinline rfl (perform_binary_eq ..)
  | unary => exact hinline rfl (perform_unary_eq ..)
  | helper hid hargs =>
      obtain ⟨b, hb, happlies⟩ := hP _ _ _ hid
      unfold applied
      cases hwords : args.mapM m.frame.get with
      | error t => 
          refine ⟨fun w hw => (by cases hw), fun t' ht => ?_⟩
          obtain rfl : t = t' := Except.error.inj ht
          exact halts_of_trap (stepOrTrap_call_error hblock hi hwords)
      | ok words =>
          have hlength : words.length = op.arity :=
            (mapM_eq_ok_iff.1 hwords).length_eq.symm.trans hargs
          have hstep := stepOrTrap_call hblock hi hwords hb
          change (∀ w, Frame.require (op.apply words) = .ok w → _) ∧
            ∀ t, Frame.require (op.apply words) = .error t → _
          cases hw : op.apply words with
          | none =>
              refine ⟨fun w hw => (by cases hw), fun t ht => ?_⟩
              obtain rfl : Trap.illTyped = t := Except.error.inj ht
              exact (halts_helper happlies hlength hw _ _).of_steps (step_of_ok hstep)
          | some w =>
              refine ⟨fun w' hw' => ?_, fun t ht => by cases ht⟩
              obtain rfl : w = w' := Except.ok.inj hw'
              exact .head' (step_of_ok hstep) (reaches_helper happlies hw _ _ _ _)

/-- What an instruction does depends on the values and variables of the frame and on the types of
the values, not on where in which body it stands. -/
theorem perform_congr (ω : Surroundings) (f : Frame) (memory : Memory) {b : Body} (id : BlockId)
    (n : Nat) (i : Instr) (hb : b.valueTypes = f.body.valueTypes) :
    perform ω { f with body := b, block := id, next := n } memory i = (perform ω f memory i).map
      fun r => ({ r.1 with body := b, block := id, next := n }, r.2) := by
  have hget : Frame.get { f with body := b, block := id, next := n } = f.get := rfl
  have hpointer : Frame.getPointer { f with body := b, block := id, next := n } = f.getPointer := rfl
  have hbool : Frame.getBool { f with body := b, block := id, next := n } = f.getBool := rfl
  have htype : Frame.typeOf { f with body := b, block := id, next := n } = f.typeOf := by
    funext v
    simp only [Frame.typeOf, hb]
  have hmap {α β γ : Type} (x : Except Trap α) (k : α → Except Trap β) (g : β → γ) :
      (x >>= k).map g = x >>= fun a => (k a).map g := by cases x <;> rfl
  cases i with
  | offset result base index scale =>
      simp only [perform, hget, hpointer, hmap]
      congr 2
      funext p
      congr 2
      funext w
      cases w.toIndex <;> rfl
  | readVar result var =>
      simp only [perform]
      cases f.vars[var.index]? <;> rfl
  | _ =>
      simp only [perform, hget, hpointer, hbool, htype, hmap]
      rfl

end Acts

end Machine

section Bodies

variable {d₁ d₂ : Declarations} {P₁ P₂ : Program}

/-- Programs in the same surroundings that know the helpers of both and have bodies that are alike
for the functions that both export. -/
structure Program.Alike (d₁ d₂ : Declarations) (P₁ P₂ : Program) : Prop where
  left : ∀ op t id, d₁.helpers.find? (op, t) = some id → ∃ b, P₁.body? id = some b ∧ b.Applies op
  right : ∀ op t id, d₂.helpers.find? (op, t) = some id → ∃ b, P₂.body? id = some b ∧ b.Applies op
  functions : ∀ id₁ id₂, d₁.Twin d₂ id₁ id₂ →
    Option.Rel (Body.Alike d₁ d₂) (P₁.body? id₁) (P₂.body? id₂)
  surroundings : P₂.surroundings = P₁.surroundings

structure Frame.Shares (d₁ d₂ : Declarations) (f₁ f₂ : Frame) : Prop where
  body : f₁.body.Alike d₁ d₂ f₂.body
  same : f₂ = { f₁ with body := f₂.body, next := f₂.next }

structure Frame.Alike (d₁ d₂ : Declarations) (f₁ f₂ : Frame) : Prop extends Shares d₁ d₂ f₁ f₂ where
  rest : ∀ k₁ k₂, f₁.body.blocks[f₁.block.index]? = some k₁ →
    f₂.body.blocks[f₁.block.index]? = some k₂ →
    Instrs.Alike d₁ d₂ (k₁.instrs.toList.drop f₁.next) (k₂.instrs.toList.drop f₂.next)

structure Caller.Alike (d₁ d₂ : Declarations) (c₁ c₂ : Caller) : Prop where
  frame : c₁.frame.Alike d₁ d₂ c₂.frame
  result : c₂.result = c₁.result

structure Machine.Alike (d₁ d₂ : Declarations) (m₁ m₂ : Machine) : Prop where
  frame : m₁.frame.Alike d₁ d₂ m₂.frame
  callers : List.Forall₂ (Caller.Alike d₁ d₂) m₁.callers m₂.callers
  memory : m₂.memory = m₁.memory

section Frames

variable {f₁ f₂ : Frame}

theorem Body.Alike.instrs {b₁ b₂ : Body} (h : b₁.Alike d₁ d₂ b₂) {i : Nat} {k₁ k₂ : Block}
    (h₁ : b₁.blocks[i]? = some k₁) (h₂ : b₂.blocks[i]? = some k₂) : k₁.Alike d₁ d₂ k₂ := by
  have hrel := h.blocks i
  rw [h₁, h₂] at hrel
  cases hrel with
  | some h => exact h

theorem Frame.Shares.get (h : f₁.Shares d₁ d₂ f₂) : f₂.get = f₁.get := by
  rw [h.same]
  rfl

theorem Frame.Shares.block (h : f₁.Shares d₁ d₂ f₂) : f₂.block = f₁.block := by
  rw [h.same]

/-- Frames at the beginning of the same block. -/
theorem Frame.Shares.alike (h : f₁.Shares d₁ d₂ f₂) (h₁ : f₁.next = 0) (h₂ : f₂.next = 0) :
    f₁.Alike d₁ d₂ f₂ := by
  refine ⟨h, fun k₁ k₂ hk₁ hk₂ => ?_⟩
  rw [h₁, h₂, List.drop_zero, List.drop_zero]
  exact (h.body.instrs hk₁ hk₂).instrs

theorem Frame.Alike.goto (h : f₁.Shares d₁ d₂ f₂) (id : BlockId) :
    (Machine.goto f₁ id).Alike d₁ d₂ (Machine.goto f₂ id) := by
  refine Frame.Shares.alike ⟨h.body, ?_⟩ rfl rfl
  rw [h.same]
  rfl

theorem Frame.Alike.set (h : f₁.Alike d₁ d₂ f₂) (v : ValueId) (w : Word) :
    (f₁.set v w).Alike d₁ d₂ (f₂.set v w) := by
  refine ⟨⟨h.body, ?_⟩, h.rest⟩
  rw [h.same]
  rfl

theorem Frame.Alike.enter {b₁ b₂ : Body} (h : b₁.Alike d₁ d₂ b₂) (words : List Word) (base : Nat) :
    (Frame.enter b₁ words base).Alike d₁ d₂ (Frame.enter b₂ words base) := by
  refine Frame.Shares.alike ⟨h, ?_⟩ rfl rfl
  change Frame.enter b₂ words base = ⟨b₂, _, _, _, _, _⟩
  unfold Frame.enter
  rw [h.rest]

end Frames

section Machines

open Machine

variable {m₁ m₂ : Machine}

theorem Machine.Alike.call {b₁ b₂ : Body} (h : b₁.Alike d₁ d₂ b₂) (words : List Word)
    {callers₁ callers₂ : List Caller}
    (hcallers : List.Forall₂ (Caller.Alike d₁ d₂) callers₁ callers₂) (ω : Surroundings)
    (memory : Memory) : (Machine.call ω b₁ words callers₁ memory).Alike d₁ d₂
      (Machine.call ω b₂ words callers₂ memory) := by
  refine ⟨.enter h words _, hcallers, ?_⟩
  unfold Machine.call
  rw [h.rest]

/-- A call that returns goes on in the caller or ends the run. -/
theorem meets_leave (h : m₁.Alike d₁ d₂ m₂) (result : Option Word)
    (h₁ : step P₁ m₁ = m₁.leave result) (h₂ : step P₂ m₂ = m₂.leave result) :
    Meets P₁ P₂ (Machine.Alike d₁ d₂) m₁ m₂ := by
  obtain ⟨f₁, callers₁, memory⟩ := m₁
  obtain ⟨f₂, callers₂, memory₂⟩ := m₂
  obtain ⟨hf, hcallers, hmemory⟩ := h
  dsimp only at hf hcallers hmemory
  subst hmemory
  have hbase : f₂.base = f₁.base := by
    rw [hf.same]
  unfold leave at h₁ h₂
  dsimp only at h₁ h₂
  rw [hbase] at h₂
  cases hcallers with
  | nil => exact .inr ⟨_, halts_of_step h₁ (by simp), halts_of_step h₂ (by simp)⟩
  | @cons c₁ c₂ callers₁ callers₂ hc hcallers =>
      obtain ⟨hframe, hresult⟩ := hc
      dsimp only at h₁ h₂
      rw [hresult] at h₂
      cases hr : c₁.result with
      | none =>
          rw [hr] at h₁ h₂
          exact .inl ⟨_, _, .single h₁, .single h₂, hframe, hcallers, rfl⟩
      | some v =>
          rw [hr] at h₁ h₂
          cases result with
          | none => exact .inr ⟨_, halts_of_step h₁ (by simp), halts_of_step h₂ (by simp)⟩
          | some w =>
              exact .inl ⟨_, _, .single h₁, .single h₂, hframe.set v w, hcallers, rfl⟩

theorem stepOrTrap_open {program : Program} {m : Machine} {k : Block}
    (hk : m.frame.body.blocks[m.frame.block.index]? = some k)
    (hi : k.instrs[m.frame.next]? = none) (ht : k.terminator = none) :
    stepOrTrap program m = .error .noBody := by
  unfold stepOrTrap
  simp only [hk, hi, ht]
  rfl

theorem meets_terminator {k₁ k₂ : Block} (h : m₁.Alike d₁ d₂ m₂)
    (hk₁ : m₁.frame.body.blocks[m₁.frame.block.index]? = some k₁)
    (hk₂ : m₂.frame.body.blocks[m₂.frame.block.index]? = some k₂)
    (h₁ : k₁.instrs[m₁.frame.next]? = none) (h₂ : k₂.instrs[m₂.frame.next]? = none)
    (ht : k₂.terminator = k₁.terminator) : Meets P₁ P₂ (Machine.Alike d₁ d₂) m₁ m₂ := by
  have hget := h.frame.get
  cases ht₁ : k₁.terminator with
  | none =>
      exact .inr ⟨_, halts_of_trap (stepOrTrap_open hk₁ h₁ ht₁),
        halts_of_trap (stepOrTrap_open hk₂ h₂ (ht.trans ht₁))⟩
  | some t =>
      have hs₁ : stepOrTrap P₁ m₁ = _ := stepOrTrap_terminator hk₁ h₁ ht₁
      have hs₂ : stepOrTrap P₂ m₂ = _ := stepOrTrap_terminator hk₂ h₂ (ht.trans ht₁)
      cases t with
      | jump target =>
          exact .inl ⟨_, _, .single (step_of_ok hs₁), .single (step_of_ok hs₂),
            .goto h.frame.toShares target, h.callers, h.memory⟩
      | branch condition ifTrue ifFalse =>
          have hbool : m₂.frame.getBool condition = m₁.frame.getBool condition := by
            unfold Frame.getBool
            rw [hget]
          rw [follow, hbool] at hs₂
          rw [follow] at hs₁
          cases hc : m₁.frame.getBool condition with
          | error t =>
              rw [hc] at hs₁ hs₂
              exact .inr ⟨_, halts_of_trap hs₁, halts_of_trap hs₂⟩
          | ok c =>
              rw [hc] at hs₁ hs₂
              exact .inl ⟨_, _, .single (step_of_ok hs₁), .single (step_of_ok hs₂),
                .goto h.frame.toShares _, h.callers, h.memory⟩
      | ret value =>
          cases value with
          | none => exact meets_leave h none (step_of_ok hs₁) (step_of_ok hs₂)
          | some v =>
              rw [follow, hget] at hs₂
              rw [follow] at hs₁
              cases hv : m₁.frame.get v with
              | error t =>
                  rw [hv] at hs₁ hs₂
                  exact .inr ⟨_, halts_of_trap hs₁, halts_of_trap hs₂⟩
              | ok w =>
                  rw [hv] at hs₁ hs₂
                  exact meets_leave h (some w) (step_of_ok hs₁) (step_of_ok hs₂)

theorem getElem?_of_drop {xs : List Instr} {n : Nat} {i : Instr} {is : List Instr}
    (h : xs.drop n = i :: is) : xs[n]? = some i ∧ xs.drop (n + 1) = is := by
  rw [← List.head?_drop, ← List.tail_drop, h]
  exact ⟨rfl, rfl⟩

theorem steps_location {program : Program} {m : Machine} {k : Block} {n : Nat}
    (hk : m.frame.body.blocks[m.frame.block.index]? = some k)
    (hi : k.instrs[m.frame.next]? = some (.location n)) :
    Steps program m { m with frame := Machine.advance m.frame } :=
  step_of_ok (stepOrTrap_eq hk hi rfl)

/-- Frames with the same acts behind the next instruction. -/
theorem Frame.Shares.advance {f₁ f₂ : Frame} (hf : f₁.Shares d₁ d₂ f₂) {k₁ k₂ : Block}
    {is js : List Instr} (hk₁ : f₁.body.blocks[f₁.block.index]? = some k₁)
    (hk₂ : f₂.body.blocks[f₂.block.index]? = some k₂)
    (his : k₁.instrs.toList.drop (f₁.next + 1) = is)
    (hjs : k₂.instrs.toList.drop (f₂.next + 1) = js) (h : Instrs.Alike d₁ d₂ is js) :
    (Machine.advance f₁).Alike d₁ d₂ (Machine.advance f₂) := by
  refine ⟨⟨hf.body, ?_⟩, fun k₁' k₂' hk₁' hk₂' => ?_⟩
  · rw [Machine.advance, hf.same]
    rfl
  · obtain rfl := Option.some.inj (hk₁.symm.trans hk₁')
    rw [hf.block] at hk₂
    obtain rfl := Option.some.inj (hk₂.symm.trans hk₂')
    change Instrs.Alike d₁ d₂ (k₁.instrs.toList.drop (f₁.next + 1))
      (k₂.instrs.toList.drop (f₂.next + 1))
    rwa [his, hjs]

section Acts

variable {k₁ k₂ : Block} {i j : Instr}

theorem meets_plain (hP : Program.Alike d₁ d₂ P₁ P₂)
    (hf : (Machine.advance m₁.frame).Alike d₁ d₂ (Machine.advance m₂.frame))
    (hcallers : List.Forall₂ (Caller.Alike d₁ d₂) m₁.callers m₂.callers)
    (hmemory : m₂.memory = m₁.memory)
    (hk₁ : m₁.frame.body.blocks[m₁.frame.block.index]? = some k₁)
    (hk₂ : m₂.frame.body.blocks[m₂.frame.block.index]? = some k₂)
    (hi : k₁.instrs[m₁.frame.next]? = some i) (hj : k₂.instrs[m₂.frame.next]? = some i)
    (hcall : i.callee = none) : Meets P₁ P₂ (Machine.Alike d₁ d₂) m₁ m₂ := by
  have hs₁ : stepOrTrap P₁ m₁ = _ := stepOrTrap_eq hk₁ hi hcall
  have hs₂ : stepOrTrap P₂ m₂ = _ := stepOrTrap_eq hk₂ hj hcall
  have hvalues : m₂.frame.body.valueTypes = (Machine.advance m₁.frame).body.valueTypes := by
    change m₂.frame.body.valueTypes = m₁.frame.body.valueTypes
    have hrest : m₂.frame.body = _ := hf.body.rest
    rw [hrest]
    rfl
  have hcongr := perform_congr P₁.surroundings (Machine.advance m₁.frame) m₁.memory m₁.frame.block
    (m₂.frame.next + 1) i hvalues
  have hsame : Machine.advance m₂.frame = { Machine.advance m₁.frame with
      body := m₂.frame.body, block := m₁.frame.block, next := m₂.frame.next + 1 } := hf.same
  rw [hP.surroundings, hmemory, hsame, hcongr] at hs₂
  cases hperf : perform P₁.surroundings (Machine.advance m₁.frame) m₁.memory i with
  | error t =>
      rw [hperf] at hs₁ hs₂
      exact .inr ⟨_, halts_of_trap hs₁, halts_of_trap hs₂⟩
  | ok r =>
      obtain ⟨⟨body, id, next, values, vars, base⟩, memory⟩ := r
      rw [hperf] at hs₁ hs₂
      obtain ⟨hbody, hblock, hnext⟩ := place_of_perform hperf
      dsimp only at hbody hblock hnext
      subst hbody hblock hnext
      exact .inl ⟨_, _, .single (step_of_ok hs₁), .single (step_of_ok hs₂),
        ⟨⟨hf.body, rfl⟩, hf.rest⟩, hcallers, rfl⟩

theorem meets_operator {op : Operator} {v : ValueId} {args : List ValueId}
    (hP : Program.Alike d₁ d₂ P₁ P₂)
    (hf : (Machine.advance m₁.frame).Alike d₁ d₂ (Machine.advance m₂.frame))
    (hcallers : List.Forall₂ (Caller.Alike d₁ d₂) m₁.callers m₂.callers)
    (hmemory : m₂.memory = m₁.memory)
    (hk₁ : m₁.frame.body.blocks[m₁.frame.block.index]? = some k₁)
    (hk₂ : m₂.frame.body.blocks[m₂.frame.block.index]? = some k₂)
    (hi : k₁.instrs[m₁.frame.next]? = some i) (hj : k₂.instrs[m₂.frame.next]? = some j)
    (hi' : i.Does d₁ (.apply op v args)) (hj' : j.Does d₂ (.apply op v args)) :
    Meets P₁ P₂ (Machine.Alike d₁ d₂) m₁ m₂ := by
  obtain ⟨hgo₁, htrap₁⟩ := meets_apply hP.left hk₁ hi hi'
  obtain ⟨hgo₂, htrap₂⟩ := meets_apply hP.right hk₂ hj hj'
  have hsame : applied m₂.frame op args = applied m₁.frame op args := by
    have hget : m₂.frame.get = m₁.frame.get := hf.get
    unfold applied
    rw [hget]
  cases hw : applied m₁.frame op args with
  | error t => exact .inr ⟨_, htrap₁ t hw, htrap₂ t (hsame.trans hw)⟩
  | ok w => exact .inl ⟨_, _, hgo₁ w hw, hgo₂ w (hsame.trans hw), hf.set v w, hcallers, hmemory⟩

theorem meets_call {s : Signature} {v : Option ValueId} {args : List ValueId}
    (hP : Program.Alike d₁ d₂ P₁ P₂)
    (hf : (Machine.advance m₁.frame).Alike d₁ d₂ (Machine.advance m₂.frame))
    (hcallers : List.Forall₂ (Caller.Alike d₁ d₂) m₁.callers m₂.callers)
    (hmemory : m₂.memory = m₁.memory)
    (hk₁ : m₁.frame.body.blocks[m₁.frame.block.index]? = some k₁)
    (hk₂ : m₂.frame.body.blocks[m₂.frame.block.index]? = some k₂)
    (hi : k₁.instrs[m₁.frame.next]? = some i) (hj : k₂.instrs[m₂.frame.next]? = some j)
    (hi' : i.Does d₁ (.call s v args)) (hj' : j.Does d₂ (.call s v args)) :
    Meets P₁ P₂ (Machine.Alike d₁ d₂) m₁ m₂ := by
  cases hi' with
  | @call _ _ id₁ _ hs₁ he =>
  cases hj' with
  | @call _ _ id₂ _ hs₂ _ =>
  have hget : m₂.frame.get = m₁.frame.get := hf.get
  have hfunctions := hP.functions id₁ id₂ ⟨s, he, hs₁, hs₂⟩
  cases hwords : args.mapM m₁.frame.get with
  | error t =>
      exact .inr ⟨_, halts_of_trap (stepOrTrap_call_error hk₁ hi hwords),
        halts_of_trap (stepOrTrap_call_error hk₂ hj (hget ▸ hwords))⟩
  | ok words =>
      cases hb₁ : P₁.body? id₁ with
      | none =>
          cases hb₂ : P₂.body? id₂ with
          | some b₂ =>
              rw [hb₁, hb₂] at hfunctions
              cases hfunctions
          | none =>
              exact .inr ⟨_, halts_of_trap (stepOrTrap_call_none hk₁ hi hwords hb₁),
                halts_of_trap (stepOrTrap_call_none hk₂ hj (hget ▸ hwords) hb₂)⟩
      | some b₁ =>
          cases hb₂ : P₂.body? id₂ with
          | none =>
              rw [hb₁, hb₂] at hfunctions
              cases hfunctions
          | some b₂ =>
              rw [hb₁, hb₂] at hfunctions
              cases hfunctions with
              | some hb =>
                  have hs₁ := stepOrTrap_call hk₁ hi hwords hb₁
                  have hs₂ := stepOrTrap_call hk₂ hj (hget ▸ hwords) hb₂
                  rw [hP.surroundings, hmemory] at hs₂
                  have hcaller : Caller.Alike d₁ d₂ ⟨Machine.advance m₁.frame, v⟩
                    ⟨Machine.advance m₂.frame, v⟩ := ⟨hf, rfl⟩
                  exact .inl ⟨_, _, .single (step_of_ok hs₁), .single (step_of_ok hs₂),
                    .call hb words (.cons hcaller hcallers) _ m₁.memory⟩

end Acts

/-- From where the same acts lie ahead, the next act is done by both. -/
theorem meets_instrs (hP : Program.Alike d₁ d₂ P₁ P₂) {is js : List Instr}
    (h : Instrs.Alike d₁ d₂ is js) (hf : m₁.frame.Shares d₁ d₂ m₂.frame)
    (hcallers : List.Forall₂ (Caller.Alike d₁ d₂) m₁.callers m₂.callers)
    (hmemory : m₂.memory = m₁.memory) {k₁ k₂ : Block}
    (hk₁ : m₁.frame.body.blocks[m₁.frame.block.index]? = some k₁)
    (hk₂ : m₂.frame.body.blocks[m₂.frame.block.index]? = some k₂)
    (his : k₁.instrs.toList.drop m₁.frame.next = is)
    (hjs : k₂.instrs.toList.drop m₂.frame.next = js) :
    Meets P₁ P₂ (Machine.Alike d₁ d₂) m₁ m₂ := by
  induction h generalizing m₁ m₂ with
  | nil =>
      have hblock : m₂.frame.block = m₁.frame.block := hf.block
      have hterminator := (hf.body.instrs hk₁ (hblock ▸ hk₂)).terminator
      refine meets_terminator ⟨⟨hf, fun k₁' k₂' hk₁' hk₂' => ?_⟩, hcallers, hmemory⟩ hk₁ hk₂ ?_ ?_
        hterminator
      · obtain rfl := Option.some.inj (hk₁.symm.trans hk₁')
        obtain rfl := Option.some.inj (hk₂.symm.trans (hblock ▸ hk₂'))
        rw [his, hjs]
        exact .nil
      · rw [← Array.getElem?_toList, ← List.head?_drop, his]
        rfl
      · rw [← Array.getElem?_toList, ← List.head?_drop, hjs]
        rfl
  | @left n is js h ih =>
      obtain ⟨hi, his⟩ := getElem?_of_drop his
      rw [Array.getElem?_toList] at hi
      refine .left (steps_location hk₁ hi) (ih ⟨hf.body, ?_⟩ hcallers hmemory hk₁ hk₂ his hjs)
      exact hf.same
  | @right n is js h ih =>
      obtain ⟨hj, hjs⟩ := getElem?_of_drop hjs
      rw [Array.getElem?_toList] at hj
      refine .right (steps_location hk₂ hj) (ih ⟨hf.body, ?_⟩ hcallers hmemory hk₁ hk₂ his hjs)
      rw [Machine.advance, hf.same]
  | @cons i j act is js hi hj h ih =>
      obtain ⟨hi', his⟩ := getElem?_of_drop his
      obtain ⟨hj', hjs⟩ := getElem?_of_drop hjs
      rw [Array.getElem?_toList] at hi' hj'
      have hadvance := hf.advance hk₁ hk₂ his hjs h
      cases act with
      | plain i' =>
          cases hi with
          | plain _ hcall =>
              cases hj with
              | plain => exact meets_plain hP hadvance hcallers hmemory hk₁ hk₂ hi' hj' hcall
      | apply op v args =>
          exact meets_operator hP hadvance hcallers hmemory hk₁ hk₂ hi' hj' hi hj
      | call s v args => exact meets_call hP hadvance hcallers hmemory hk₁ hk₂ hi' hj' hi hj

theorem stepOrTrap_missing {program : Program} {m : Machine}
    (hk : m.frame.body.blocks[m.frame.block.index]? = none) :
    stepOrTrap program m = .error .noBody := by
  unfold stepOrTrap
  simp only [hk]
  rfl

theorem meets_alike (hP : Program.Alike d₁ d₂ P₁ P₂) (h : m₁.Alike d₁ d₂ m₂) :
    Meets P₁ P₂ (Machine.Alike d₁ d₂) m₁ m₂ := by
  have hblock : m₂.frame.block = m₁.frame.block := h.frame.block
  have hblocks := h.frame.body.blocks m₁.frame.block.index
  cases hk₁ : m₁.frame.body.blocks[m₁.frame.block.index]? with
  | none =>
      rw [hk₁] at hblocks
      have hk₂ : m₂.frame.body.blocks[m₂.frame.block.index]? = none := by
        rw [hblock]
        generalize m₂.frame.body.blocks[m₁.frame.block.index]? = x at hblocks
        cases hblocks
        rfl
      exact .inr ⟨_, halts_of_trap (stepOrTrap_missing hk₁), halts_of_trap (stepOrTrap_missing hk₂)⟩
  | some k₁ =>
      rw [hk₁] at hblocks
      obtain ⟨k₂, hk₂⟩ : ∃ k₂, m₂.frame.body.blocks[m₁.frame.block.index]? = some k₂ := by
        generalize m₂.frame.body.blocks[m₁.frame.block.index]? = x at hblocks
        cases hblocks
        exact ⟨_, rfl⟩
      exact meets_instrs hP (h.frame.rest k₁ k₂ hk₁ hk₂) h.frame.toShares h.callers h.memory hk₁
        (hblock.symm ▸ hk₂) rfl rfl

/-- Machines that are alike halt in the same way or not at all. -/
theorem halts_iff (hP : Program.Alike d₁ d₂ P₁ P₂) (h : m₁.Alike d₁ d₂ m₂) (o : Outcome) :
    Halts P₁ m₁ o ↔ Halts P₂ m₂ o :=
  halts_iff_of_meets (fun _ _ h => meets_alike hP h) h

end Machines

end Bodies

end Dataflow.Code
