import Dataflow.Proofs.Code.Machine

/-!
# One call among others

A call of a body runs above the frames that wait for it, and frames of further calls come and go above
its own. What the machine does in the blocks of the call itself is what is recorded there: instructions
turn one store into the next, and a terminator leads to another block. However the machine gets on, the
frame of the call keeps room for the same values and variables.
-/

namespace Dataflow.Code

namespace Machine

variable {program : Program} {m m' : Machine}

inductive Picks (f : Frame) : Terminator → BlockId → Prop
  | jump {target : BlockId} : Picks f (.jump target) target
  | branch {condition : ValueId} {ifTrue ifFalse : BlockId} {c : Bool}
      (hc : f.getBool condition = .ok c) :
      Picks f (.branch condition ifTrue ifFalse) (if c then ifTrue else ifFalse)

theorem Picks.mem {f : Frame} {t : Terminator} {target : BlockId} (h : Picks f t target) :
    target ∈ t.targets := by
  cases h with
  | jump => exact List.mem_singleton_self _
  | @branch _ _ _ c =>
      cases c
      · exact List.mem_cons_of_mem _ (List.mem_singleton_self _)
      · exact List.mem_cons_self

inductive Goes (ω : Surroundings) (m : Machine) : Machine → Prop
  | perform {k : Block} {i : Instr} {f : Frame} {memory : Memory}
      (hk : m.frame.body.blocks[m.frame.block.index]? = some k) (hi : k.instrs[m.frame.next]? = some i)
      (hperf : Machine.perform ω (advance m.frame) m.memory i = .ok (f, memory)) :
      Goes ω m ⟨f, m.callers, memory⟩
  | call {k : Block} {result : Option ValueId} {function : FunctionId} {args : List ValueId}
      {callee : Body} {words : List Word}
      (hk : m.frame.body.blocks[m.frame.block.index]? = some k)
      (hi : k.instrs[m.frame.next]? = some (.call result function args)) :
      Goes ω m (Machine.call ω callee words (⟨advance m.frame, result⟩ :: m.callers) m.memory)
  | goto {k : Block} {t : Terminator} {target : BlockId}
      (hk : m.frame.body.blocks[m.frame.block.index]? = some k) (hi : k.instrs[m.frame.next]? = none)
      (ht : k.terminator = some t) (hpicks : Picks m.frame t target) :
      Goes ω m { m with frame := Machine.goto m.frame target }
  | leave {caller : Caller} {callers : List Caller} {f : Frame} {memory : Memory}
      (hcallers : m.callers = caller :: callers)
      (hf : f = caller.frame ∨ ∃ v w, caller.result = some v ∧ f = caller.frame.set v w) :
      Goes ω m ⟨f, callers, memory⟩

theorem goes_of_leave {ω : Surroundings} {r : Option Word} (h : m.leave r = .running m') :
    Goes ω m m' := by
  unfold leave at h
  dsimp only at h
  split at h
  · cases h
  · next caller callers hcallers =>
      split at h
      · next v w hv =>
          obtain rfl := Outcome.running.inj h
          exact .leave hcallers (.inr ⟨v, _, hv, rfl⟩)
      · cases h
      · obtain rfl := Outcome.running.inj h
        exact .leave hcallers (.inl rfl)

theorem goes_of_step (h : step program m = .running m') : Goes program.surroundings m m' := by
  have hstep : stepOrTrap program m = .ok (.running m') := by
    unfold step at h
    split at h
    · next o ho => rw [ho, h]
    · cases h
  unfold stepOrTrap at hstep
  split at hstep
  · cases hstep
  next k hk =>
  split at hstep
  · next result function args hi =>
      obtain ⟨words, -, hstep⟩ := bind_eq_ok_iff.1 hstep
      split at hstep
      · cases hstep
      · obtain rfl := Outcome.running.inj (Except.ok.inj hstep)
        exact .call hk hi
  · next i _ hi =>
      obtain ⟨⟨f, memory⟩, hperf, hstep⟩ := bind_eq_ok_iff.1 hstep
      obtain rfl := Outcome.running.inj (Except.ok.inj hstep)
      exact .perform hk hi hperf
  · next hi =>
    split at hstep
    swap
    · cases hstep
    next t ht =>
    cases t with
    | jump target =>
        obtain rfl := Outcome.running.inj (Except.ok.inj hstep)
        exact .goto hk hi ht .jump
    | branch condition ifTrue ifFalse =>
        obtain ⟨c, hc, hstep⟩ := bind_eq_ok_iff.1 hstep
        obtain rfl := Outcome.running.inj (Except.ok.inj hstep)
        exact .goto hk hi ht (.branch hc)
    | ret value =>
        cases value with
        | none => exact goes_of_leave (Except.ok.inj hstep)
        | some v =>
            obtain ⟨w, -, hstep⟩ := bind_eq_ok_iff.1 hstep
            exact goes_of_leave (Except.ok.inj hstep)

end Machine

section Sizes

def Frame.sizes (f : Frame) : Nat × Nat := (f.values.size, f.vars.size)

def Machine.sizes (m : Machine) : List (Nat × Nat) :=
  m.frame.sizes :: m.callers.map fun c => c.frame.sizes

theorem Frame.sizes_set (f : Frame) (v : ValueId) (w : Word) : (f.set v w).sizes = f.sizes :=
  Prod.ext (Array.size_setIfInBounds ..) rfl

/-- An instruction that stays in its frame gives a word to the value that it defines, or to a variable,
or to nothing. -/
theorem Machine.frame_of_perform {ω : Surroundings} {f f' : Frame} {memory memory' : Memory} {i : Instr}
    (h : Machine.perform ω f memory i = .ok (f', memory')) :
    f' = f ∨ (∃ v w, i.defines = some v ∧ f' = f.set v w) ∨
      ∃ x v w, i = .writeVar x v ∧ f' = { f with vars := f.vars.setIfInBounds x.index w } := by
  cases i with
  | call result function args => cases h
  | offset result base index scale =>
      obtain ⟨p, -, h⟩ := bind_eq_ok_iff.1 h
      obtain ⟨w, -, h⟩ := bind_eq_ok_iff.1 h
      split at h
      · obtain ⟨rfl, -⟩ := Prod.mk.inj (Except.ok.inj h)
        exact .inr (.inl ⟨result, _, rfl, rfl⟩)
      · cases h
  | readVar result x =>
      simp only [Machine.perform] at h
      split at h
      · obtain ⟨rfl, -⟩ := Prod.mk.inj (Except.ok.inj h)
        exact .inr (.inl ⟨result, _, rfl, rfl⟩)
      · cases h
  | writeVar x value =>
      obtain ⟨w, -, h⟩ := bind_eq_ok_iff.1 h
      obtain ⟨rfl, -⟩ := Prod.mk.inj (Except.ok.inj h)
      exact .inr (.inr ⟨x, value, w, rfl, rfl⟩)
  | _ =>
      repeat obtain ⟨_, -, h⟩ := bind_eq_ok_iff.1 h
      obtain ⟨rfl, -⟩ := Prod.mk.inj (Except.ok.inj h)
      first | exact .inl rfl | exact .inr (.inl ⟨_, _, rfl, rfl⟩)

/-- An instruction that stays in its frame leaves the frame where it is. -/
theorem Machine.place_of_perform {ω : Surroundings} {f f' : Frame} {memory memory' : Memory} {i : Instr}
    (h : Machine.perform ω f memory i = .ok (f', memory')) :
    f'.body = f.body ∧ f'.block = f.block ∧ f'.next = f.next := by
  obtain rfl | ⟨v, w, -, rfl⟩ | ⟨x, v, w, -, rfl⟩ := frame_of_perform h <;> exact ⟨rfl, rfl, rfl⟩

theorem Frame.sizes_of_perform {ω : Surroundings} {f f' : Frame} {memory memory' : Memory}
    {i : Instr} (h : Machine.perform ω f memory i = .ok (f', memory')) : f'.sizes = f.sizes := by
  obtain rfl | ⟨v, w, -, rfl⟩ | ⟨x, v, w, -, rfl⟩ := Machine.frame_of_perform h
  · rfl
  · exact f.sizes_set v w
  · exact Prod.ext rfl (Array.size_setIfInBounds ..)

/-- Frames come and go, but none of them changes its size. -/
theorem Machine.Goes.sizes {ω : Surroundings} {m m' : Machine} (h : Goes ω m m') :
    m'.sizes = m.sizes ∨ (∃ s, m'.sizes = s :: m.sizes) ∨ ∃ s, m.sizes = s :: m'.sizes := by
  cases h with
  | perform hk hi hperf =>
      have hsizes := Frame.sizes_of_perform hperf
      exact .inl (congrArg (· :: _) hsizes)
  | call hk hi => exact .inr (.inl ⟨_, rfl⟩)
  | goto hk hi ht hpicks => exact .inl rfl
  | @leave caller callers f memory hcallers hf =>
      have hsizes : f.sizes = caller.frame.sizes := by
        rcases hf with rfl | ⟨v, w, -, rfl⟩
        · rfl
        · exact Frame.sizes_set ..
      refine .inr (.inr ⟨m.frame.sizes, ?_⟩)
      simp only [Machine.sizes, hcallers, hsizes, List.map_cons]

end Sizes

/-- The instruction turns one store into another, whichever frame it is performed in and whatever
the surroundings are. -/
def Instr.Turns (i : Instr) (σ σ' : Store) : Prop :=
  ∀ (ω : Surroundings) (f : Frame), f.values = σ.values → f.vars = σ.vars →
    Machine.perform ω f σ.memory i = .ok ({ f with values := σ'.values, vars := σ'.vars }, σ'.memory)

inductive Instrs.Turns : List Instr → Store → Store → Prop
  | nil {σ : Store} : Instrs.Turns [] σ σ
  | cons {i : Instr} {is : List Instr} {σ σ₁ σ' : Store} :
      i.Turns σ σ₁ → Instrs.Turns is σ₁ σ' → Instrs.Turns (i :: is) σ σ'

section Turns

variable {σ : Store} {v x y z : ValueId} {a c w : Word} {i : VarId} {is js : List Instr} {σ₁ σ' : Store}

theorem Store.Has.get {f : Frame} (h : σ.Has v w) (hf : f.values = σ.values) : f.get v = .ok w := by
  rw [Frame.get, hf, h]

theorem turns_const (v : ValueId) (l : Literal) :
    (Instr.const v l).Turns σ (σ.set v (.ofLiteral l)) := by
  rintro _ ⟨⟩ rfl rfl
  rfl

theorem turns_readVar (v : ValueId) (h : σ.vars[i.index]? = some w) :
    (Instr.readVar v i).Turns σ (σ.set v w) := by
  rintro _ ⟨⟩ rfl rfl
  exact Machine.perform_readVar h

theorem turns_writeVar (i : VarId) (h : σ.Has x w) :
    (Instr.writeVar i x).Turns σ (σ.setVar w i) := by
  rintro _ ⟨⟩ rfl rfl
  exact Machine.perform_writeVar (h.get rfl)

theorem turns_binary {op : BinaryOp} (v : ValueId) (hx : σ.Has x a) (hy : σ.Has y c)
    (hw : Word.binary op a c = some w) : (Instr.binary v op x y).Turns σ (σ.set v w) := by
  rintro _ ⟨⟩ rfl rfl
  exact Machine.perform_binary (hx.get rfl) (hy.get rfl) hw

theorem turns_compare {op : CompareOp} {r : Bool} (v : ValueId) (hx : σ.Has x a) (hy : σ.Has y c)
    (hr : Word.compare op a c = some r) :
    (Instr.compare v op x y).Turns σ (σ.set v (.bool r)) := by
  rintro _ ⟨⟩ rfl rfl
  exact Machine.perform_compare (hx.get rfl) (hy.get rfl) (by rw [hr]; rfl)

theorem turns_select {r : Bool} (v : ValueId) (hx : σ.Has x (.bool r)) (hy : σ.Has y a)
    (hz : σ.Has z c) : (Instr.select v x y z).Turns σ (σ.set v (if r then a else c)) := by
  rintro _ ⟨⟩ rfl rfl
  exact Machine.perform_select (hx.get rfl) (hy.get rfl) (hz.get rfl)

end Turns

/-- A call of a body, and the frames that wait for it. -/
structure Activation where
  program : Program
  body : Body
  /-- How many regions there were before those of the frame. -/
  base : Nat
  callers : List Caller

namespace Activation

variable {A : Activation} {P Q : BlockId → Prop} {m m' : Machine} {σ σ' : Store} {id id' : BlockId}

def machine (A : Activation) (id : BlockId) (next : Nat) (σ : Store) : Machine :=
  ⟨⟨A.body, id, next, σ.values, σ.vars, A.base⟩, A.callers, σ.memory⟩

/-- The machine stands where the current block of a part of the body ends. -/
def here (A : Activation) (b : Body) (σ : Store) : Machine := A.machine b.current b.position σ

structure Sized (A : Activation) (σ : Store) : Prop where
  values : σ.values.size = A.body.valueTypes.size
  vars : σ.vars.size = A.body.varTypes.size

/-- The machine runs from one state to another while the call goes on, and whenever the call does not
wait for one of its own it is in a block with the property. -/
def Along (A : Activation) (P : BlockId → Prop) : Machine → Machine → Prop :=
  Relation.ReflTransGen fun m m' => Machine.step A.program m = .running m' ∧
    A.callers <:+ m'.callers ∧ (m.callers = A.callers → P m.frame.block)

theorem Along.trans {m'' : Machine} (h : A.Along P m m') (h' : A.Along P m' m'') : A.Along P m m'' :=
  Relation.ReflTransGen.trans h h'

theorem Along.mono (h : A.Along P m m') (hPQ : ∀ id, P id → Q id) : A.Along Q m m' :=
  Relation.ReflTransGen.mono (fun _ _ h => ⟨h.1, h.2.1, fun hc => hPQ _ (h.2.2 hc)⟩) _ _ h

theorem Along.reaches (h : A.Along P m m') : Machine.Reaches A.program m m' :=
  Relation.ReflTransGen.mono (fun _ _ h => h.1) _ _ h

theorem along_of_step {next next' : Nat}
    (h : Machine.stepOrTrap A.program (A.machine id next σ) = .ok (.running (A.machine id' next' σ'))) :
    A.Along (· = id) (A.machine id next σ) (A.machine id' next' σ') := by
  refine .single ⟨?_, List.suffix_refl _, fun _ => rfl⟩
  rw [Machine.step, h]

/-- The frame of a call keeps its size. -/
theorem Along.sized {next next' : Nat} (h : A.Along P (A.machine id next σ) (A.machine id' next' σ'))
    (hσ : A.Sized σ) : A.Sized σ' := by
  let waiting : List (Nat × Nat) := A.callers.map fun c => c.frame.sizes
  have hsizes : ∀ m, A.Along P (A.machine id next σ) m →
      (σ.values.size, σ.vars.size) :: waiting <:+ m.sizes := by
    intro m hm
    induction hm with
    | refl => exact List.suffix_refl _
    | tail _ hstep ih =>
        obtain ⟨hstep, hcallers, -⟩ := hstep
        rcases (Machine.goes_of_step hstep).sizes with heq | ⟨s, heq⟩ | ⟨s, heq⟩
        · rwa [heq]
        · rw [heq]
          exact ih.trans (List.suffix_cons _ _)
        · rw [heq] at ih
          -- The frame that has gone was none of the call's own.
          refine (List.suffix_cons_iff.1 ih).resolve_left fun hcons => ?_
          have hlength := congrArg List.length (List.cons.inj hcons).2
          have hle := hcallers.length_le
          simp only [waiting, Machine.sizes, List.length_map, List.length_cons] at hlength
          omega
  have hlast := (hsizes _ h).eq_of_length (by simp [waiting, Machine.sizes, machine])
  obtain ⟨hvalues, hvars⟩ := Prod.mk.inj (List.cons.inj hlast).1
  exact ⟨hvalues.symm.trans hσ.values, hvars.symm.trans hσ.vars⟩

section Blocks

variable {k : Block} {is before : List Instr} {t : BlockId}

/-- What instructions of a block do, the machine does. -/
theorem along_instrs (hk : A.body.blocks[id.index]? = some k)
    (hinstrs : k.instrs.toList = before ++ is) (h : Instrs.Turns is σ σ') :
    A.Along (· = id) (A.machine id before.length σ) (A.machine id (before.length + is.length) σ') := by
  induction h generalizing before with
  | nil => exact .refl
  | @cons i is σ σ₁ σ' hi _ ih =>
      have hnext : k.instrs[before.length]? = some i := by
        rw [← Array.getElem?_toList, hinstrs]
        simp
      have hperf := hi A.program.surroundings (Machine.advance (A.machine id before.length σ).frame) rfl rfl
      have hcall : i.callee = none := by
        cases i with
        | call => cases hperf
        | _ => rfl
      have hstep : Machine.stepOrTrap A.program (A.machine id before.length σ) =
          .ok (.running (A.machine id (before.length + 1) σ₁)) :=
        Machine.stepOrTrap_instr hk hnext hcall hperf
      have hrest := @ih (before ++ [i]) (by simp [hinstrs])
      rw [List.length_append, List.length_singleton] at hrest
      rw [List.length_cons, Nat.add_comm is.length, ← Nat.add_assoc]
      exact (along_of_step hstep).trans hrest

/-- A block is left by its terminator when its instructions have been performed. -/
theorem along_jump (hk : A.body.blocks[id.index]? = some k) (ht : k.terminator = some (.jump t)) :
    A.Along (· = id) (A.machine id k.instrs.size σ) (A.machine t 0 σ) := by
  have hend : k.instrs[k.instrs.size]? = none := Array.getElem?_eq_none (Nat.le_refl _)
  exact along_of_step (Machine.stepOrTrap_terminator hk hend ht)

theorem along_branch {v : ValueId} {c : Bool} {t' : BlockId} (hk : A.body.blocks[id.index]? = some k)
    (ht : k.terminator = some (.branch v t t')) (hv : σ.Has v (.bool c)) :
    A.Along (· = id) (A.machine id k.instrs.size σ) (A.machine (if c then t else t') 0 σ) := by
  have hend : k.instrs[k.instrs.size]? = none := Array.getElem?_eq_none (Nat.le_refl _)
  refine along_of_step ((Machine.stepOrTrap_terminator hk hend ht).trans ?_)
  have hget : (A.machine id k.instrs.size σ).frame.getBool v = .ok c :=
    Machine.getBool_eq (hv.get rfl)
  rw [Machine.follow, hget]
  rfl

end Blocks

end Activation

end Dataflow.Code
