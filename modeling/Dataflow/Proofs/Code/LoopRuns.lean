import Dataflow.Proofs.Code.Retained
import Dataflow.Proofs.Code.LoopBlocks
import Dataflow.Proofs.Code.Refusal

/-!
# Loops that run

Between the beginning and the end of a loop two of its blocks are open and wait: the one in which the
variable is raised and the one behind the loop. They stay so whatever is recorded that enters neither
of them. The beginning of another loop does not, since it enters new blocks only, and the end of a loop
that has left its body does not fail any more.
-/

namespace Dataflow.Code

namespace Emitter

variable {e e' e'' : Emitter} {K : BlockId → Prop} {id : BlockId} {k : Block}

structure Avoids (K : BlockId → Prop) (e e' : Emitter) : Prop where
  blocks : ∀ id k, K id → id ≠ e.body.current → e.body.blocks[id.index]? = some k →
    e'.body.blocks[id.index]? = some k
  current : e'.body.current = e.body.current ∨ ¬ K e'.body.current

namespace Avoids

theorem of_eq (h : e'.body = e.body) : e.Avoids K e' :=
  ⟨fun _ _ _ _ hk => h ▸ hk, .inl (congrArg Body.current h)⟩

theorem refl (e : Emitter) : e.Avoids K e := .of_eq rfl

/-- A block that is avoided does not become the current one. -/
theorem ne (h : e.Avoids K e') (hid : K id) (hne : id ≠ e.body.current) : id ≠ e'.body.current := by
  rintro rfl
  exact h.current.elim (fun hcurrent => hne hcurrent) fun hnot => hnot hid

theorem trans (h : e.Avoids K e') (h' : e'.Avoids K e'') : e.Avoids K e'' where
  blocks id k hid hne hk := h'.blocks id k hid (h.ne hid hne) (h.blocks id k hid hne hk)
  current := by
    rcases h'.current with hcurrent | hnot
    · rw [hcurrent]
      exact h.current
    · exact .inr hnot

theorem mono {K' : BlockId → Prop} (h : e.Avoids K e') (hK : ∀ id, K' id → K id) : e.Avoids K' e' :=
  ⟨fun id k hid => h.blocks id k (hK id hid), h.current.imp_right fun hnot hid => hnot (hK _ hid)⟩

theorem of_straight (h : e.Straight e') : e.Avoids K e' :=
  ⟨fun _ _ _ hne hk => (h.blocks _ fun hi => hne (congrArg BlockId.mk hi)).trans hk, .inl h.current⟩

theorem of_adds (h : e.Adds e') : e.Avoids K e' := ⟨fun _ _ _ _ hk => h.blocks _ _ hk, .inl h.current⟩

theorem openAt (h : e.Avoids K e') (hid : K id) (hne : id ≠ e.body.current)
    (hk : e.body.OpenAt id k) : e'.body.OpenAt id k := ⟨h.blocks id k hid hne hk.1, hk.2⟩

end Avoids

instance : Std.Refl (Avoids K) := ⟨.refl⟩

instance : IsTrans Emitter (Avoids K) := ⟨fun _ _ _ => .trans⟩

end Emitter

namespace Emit

open Emitter

variable {e e' : Emitter} {K : BlockId → Prop} {α : Type}

theorem Linear.avoids {m : Emit α} (h : m.Linear) : Leaves (Avoids K) m :=
  h.mono fun _ _ => .of_straight

instance : Records (Avoids K) where
  newValue t := Linear.avoids (Notes.newValue t)
  newVar t := Linear.avoids (Notes.newVar t)
  push i hi hd := Linear.avoids (Notes.push i hi hd)
  define t instr hi hd := Linear.avoids (Notes.define t instr hi hd)
  allocate scope := Linear.avoids (Notes.allocate scope)
  takeScratch t := Linear.avoids (Notes.takeScratch t)
  stackBuffer t length := Linear.avoids (Notes.stackBuffer t length)
  helper e op t r h := .of_straight (Records.helper e op t r h)
  datum e s bytes writable := .of_straight (Notes.datum e s bytes writable)
  describe e text := .of_straight (Notes.describe e text)

instance : Offsets (Avoids K) where
  offset address index size := Linear.avoids (Offsets.offset address index size)

instance : Frames (Avoids K) where
  bufferAddress buffer := Linear.avoids (Frames.bufferAddress buffer)

instance : Blocks (Avoids K) where
  createBlock _ := fun e => ⟨fun _ _ _ _ hk => Prefix.push _ _ _ _ hk, .inl rfl⟩
  terminate t := by
    refine .of_runs (fun e u e' h => ?_) fun e f e' h => (fails_terminate.1 h).2 ▸ .refl e
    obtain ⟨b, hb, rfl⟩ := succeeds_terminate.1 h
    obtain ⟨-, rfl⟩ := Body.terminate_eq_ok_iff.1 hb
    refine ⟨fun id k _ hne hk => ?_, .inl rfl⟩
    exact (Array.getElem?_modify ..).trans ((if_neg fun hi => hne (congrArg BlockId.mk hi.symm)).trans hk)

theorem avoids_switchTo {id : BlockId} (hid : ¬ K id) : Leaves (Avoids K) (switchTo id) := by
  refine .of_runs (fun e u e' h => ?_) fun e f e' h => (fails_switchTo.1 h).2 ▸ .refl e
  obtain ⟨b, hb, rfl⟩ := succeeds_switchTo.1 h
  obtain ⟨-, layout, rfl⟩ := Body.switchTo_eq_ok hb
  exact ⟨fun _ _ _ _ hk => hk, .inr hid⟩

theorem avoids_release (slot : Slot) : Leaves (Avoids K) (release slot) := by
  intro e
  rw [run_release]
  exact .of_eq rfl

/-- A call that stays in its block changes no other one. -/
theorem avoids_perform {c : Call} (h : c.stays = true) : Leaves (Avoids K) c.perform :=
  leaves_perform_of_stays h leaves_asking (fun slot _ => avoids_release slot)
    (fun slot _ _ => avoids_release slot) fun buffer _ => Frames.bufferAddress buffer

end Emit

namespace Emitter

variable {e e' : Emitter} {p : LoopParts} {K : BlockId → Prop} {L : Slot → Prop}

/-- A loop has been begun and not been ended: the block in which its variable is raised and the one
behind it are open, and what they need is there. -/
structure Running (e : Emitter) (p : LoopParts) : Prop where
  opened : ∀ id ∈ [p.increment, p.after], ∃ k, e.body.OpenAt id k
  outside : ∀ id ∈ [p.increment, p.after], id ≠ e.body.current
  ne : p.increment ≠ p.after
  condition : ∃ k, e.body.blocks[p.condition.index]? = some k
  bound : e.Bound p.slot p.var
  steered : ∃ t, t.isInteger = true ∧ e.body.varTypes[p.var.index]? = some t ∧
    ∀ v ∈ [p.step, p.limit, p.bound], e.body.valueTypes[v.index]? = some t

/-- A loop runs on as long as its blocks are avoided and its slot is not given back. -/
theorem Running.keep (h : e.Running p) (ha : e.Avoids K e') (hK : ∀ id ∈ [p.increment, p.after], K id)
    (hr : e.Retains L e') (hslot : L p.slot) : e'.Running p where
  opened id hid := (h.opened id hid).imp fun _ hk => ha.openAt (hK id hid) (h.outside id hid) hk
  outside id hid := ha.ne (hK id hid) (h.outside id hid)
  ne := h.ne
  condition := by
    obtain ⟨k, hk⟩ := h.condition
    obtain ⟨k', hk', -⟩ := hr.body.blocks _ k hk
    exact ⟨k', hk'⟩
  bound := hr.bound _ _ hslot h.bound
  steered := by
    obtain ⟨t, ht, hvar, hsteers⟩ := h.steered
    exact ⟨t, ht, hr.body.varTypes _ _ hvar, fun v hv => hr.body.valueTypes _ _ (hsteers v hv)⟩

def Open (e : Emitter) : Prop := ∃ k, e.body.OpenAt e.body.current k

structure Flows (e e' : Emitter) : Prop where
  straight : e.Straight e'
  retains : e.Retains (fun _ => True) e'
  opened : e'.Open

end Emitter

namespace Emitter.Open

open Emit

variable {e : Emitter} {c x y v : ValueId} {i : VarId} {t : Ty}

abbrev Gets (t : Ty) (e : Emitter) (v : ValueId) (e' : Emitter) : Prop :=
  e.Flows e' ∧ e'.body.valueTypes[v.index]? = some t

theorem push (h : e.Open) (i : Instr) : Ends (Emit.push i) e fun _ e' => e.Flows e' := by
  rcases succeeds_or_fails (Emit.push i) e with ⟨u, hpush⟩ | ⟨f, hpush⟩
  · exact ⟨u, _, hpush, (straight_push i).straight hpush, (retains_push i).of_succeeds hpush,
      openAt_of_push hpush⟩
  · exact absurd hpush (not_fails_push h)

theorem define (h : e.Open) (t : Ty) (instr : ValueId → Instr) :
    Ends (Emit.define t instr) e (Gets t e) := by
  rcases succeeds_or_fails (Emit.define t instr) e with ⟨v, hdefine⟩ | ⟨f, hdefine⟩
  · exact ⟨v, _, hdefine, ⟨(straight_define t instr).straight hdefine,
      (retains_define t instr).of_succeeds hdefine, openAt_of_define hdefine⟩, type_of_define hdefine⟩
  · exact absurd hdefine (not_fails_define h)

theorem getVar (h : e.Open) (hi : e.body.varTypes[i.index]? = some t) :
    Ends (Emit.getVar i) e (Gets t e) :=
  .after (succeeds_body.2 ⟨rfl, rfl⟩) (.after (succeeds_check.2 ⟨Body.varType_eq_ok_iff.2 hi, rfl⟩)
    (h.define _ _))

theorem binary {op : BinaryOp} (h : e.Open) (hx : e.body.valueTypes[x.index]? = some t)
    (hy : e.body.valueTypes[y.index]? = some t) (hop : op.accepts t = true) :
    Ends (Emit.binary op x y) e (Gets t e) :=
  .after (succeeds_operandType_iff.2 ⟨⟨hx, hy, hop⟩, rfl⟩) (h.define _ _)

theorem compare {op : CompareOp} (h : e.Open) (hx : e.body.valueTypes[x.index]? = some t)
    (hy : e.body.valueTypes[y.index]? = some t) (ht : t ≠ .ptr) :
    Ends (Emit.compare op x y) e (Gets .bool e) := by
  refine .after (succeeds_valueType.2 ⟨hx, rfl⟩) (.after (b := ()) (succeeds_expectType.2 ⟨hy, rfl⟩) ?_)
  exact .refuse (by simpa using ht) (h.define _ _)

theorem select (h : e.Open) (hc : e.body.valueTypes[c.index]? = some .bool)
    (hx : e.body.valueTypes[x.index]? = some t) (hy : e.body.valueTypes[y.index]? = some t) :
    Ends (Emit.select c x y) e (Gets t e) := by
  refine .after (b := ()) (succeeds_expectType.2 ⟨hc, rfl⟩) (.after (succeeds_valueType.2 ⟨hx, rfl⟩) ?_)
  exact .after (b := ()) (succeeds_expectType.2 ⟨hy, rfl⟩) (h.define _ _)

theorem jump {id : BlockId} (h : e.Open) (hid : ∃ k, e.body.blocks[id.index]? = some k) :
    ∃ b, Succeeds (Emit.jump id) e () { e with body := b } := by
  obtain ⟨k, hk⟩ := hid
  obtain ⟨b, hb⟩ : ∃ b, e.body.terminate (.jump id) = .ok b :=
    ⟨_, Body.terminate_eq_ok_iff.2 ⟨h, rfl⟩⟩
  refine ⟨b, succeeds_bind.2 ⟨_, _, succeeds_body.2 ⟨rfl, rfl⟩, ?_⟩⟩
  refine succeeds_bind.2 ⟨_, _, succeeds_check.2 ⟨Body.block_eq_ok_iff.2 hk, rfl⟩, ?_⟩
  exact succeeds_terminate.2 ⟨b, hb, rfl⟩

theorem setVar (h : e.Open) (hi : e.body.varTypes[i.index]? = some t)
    (hv : e.body.valueTypes[v.index]? = some t) : Ends (Emit.setVar i v) e fun _ e' => e.Flows e' := by
  refine .after (succeeds_body.2 ⟨rfl, rfl⟩) ?_
  refine .after (succeeds_check.2 ⟨Body.varType_eq_ok_iff.2 hi, rfl⟩) ?_
  exact .after (b := ()) (succeeds_expectType.2 ⟨hv, rfl⟩) (h.push _)

end Emitter.Open

/-- An open block can be entered. -/
theorem Emit.exists_switchTo {e : Emitter} {id : BlockId} (h : ∃ k, e.body.OpenAt id k) :
    ∃ layout, Succeeds (switchTo id) e () { e with body := { e.body with layout, current := id } } :=
  ⟨_, succeeds_switchTo.2 ⟨_, Body.switchTo_eq_ok_iff.2 ⟨h, rfl⟩, rfl⟩⟩

namespace CountedLoop

open Emit Emitter

variable {e e' e₁ : Emitter} {p : LoopParts} {l l' : CountedLoop} {t : Ty} {f : Fault}

section Ending

def raise (p : LoopParts) : Emit CountedLoop := do
  switchTo p.increment
  let i ← getVar p.var
  let stepped ← binary .add i p.step
  let inRange ← compare .less i p.limit
  let next ← select inRange stepped p.bound
  setVar p.var next
  jump p.condition
  switchTo p.after
  freeScratch p.slot
  return closed p

structure Raising (p : LoopParts) (t : Ty) (e : Emitter) : Prop where
  neat : e.Neat
  opened : e.Open
  after : ∃ k, e.body.OpenAt p.after k
  outside : p.after ≠ e.body.current
  condition : ∃ k, e.body.blocks[p.condition.index]? = some k
  bound : e.Bound p.slot p.var
  var : e.body.varTypes[p.var.index]? = some t
  steers : ∀ v ∈ [p.step, p.limit, p.bound], e.body.valueTypes[v.index]? = some t

theorem Raising.flows (h : Raising p t e) (hf : e.Flows e') : Raising p t e' where
  neat := hf.retains.neat h.neat
  opened := hf.opened
  after := h.after.imp fun _ hk =>
    (Avoids.of_straight hf.straight).openAt (K := fun _ => True) trivial h.outside hk
  outside := hf.straight.current ▸ h.outside
  condition := by
    obtain ⟨k, hk⟩ := h.condition
    obtain ⟨k', hk', -⟩ := hf.retains.body.blocks _ k hk
    exact ⟨k', hk'⟩
  bound := hf.retains.bound _ _ trivial h.bound
  var := hf.retains.body.varTypes _ _ h.var
  steers v hv := hf.retains.body.valueTypes _ _ (h.steers v hv)

/-- The end of the block in which the variable is raised is reached without fail. -/
theorem Raising.ends (h : Raising p t e) : Ends (do
    jump p.condition
    switchTo p.after
    freeScratch p.slot
    return closed p) e fun _ _ => True := by
  obtain ⟨b, hjump⟩ := h.opened.jump h.condition
  have havoids : e.Avoids (fun _ => True) { e with body := b } := (leaves_jump _).of_succeeds hjump
  obtain ⟨k, hafter⟩ := h.after
  obtain ⟨layout, hswitch⟩ := exists_switchTo ⟨k, havoids.openAt trivial h.outside hafter⟩
  obtain ⟨ps, -, hfree⟩ := exists_freeScratch (e := { e with body := { b with layout, current := p.after } })
    h.neat.scratchScope h.bound.allocated
  exact .after hjump (.after hswitch (.after hfree (.pure trivial)))

/-- A loop whose body has been left is ended without fail. -/
theorem ends_raise (h : e.Running p) (he : e.Neat) : Ends (raise p) e fun _ _ => True := by
  obtain ⟨t, ht, hvar, hsteers⟩ := h.steered
  have hnumeric : BinaryOp.accepts .add t = true ∧ t ≠ .ptr := by
    revert ht
    cases t <;> decide
  obtain ⟨layout, hswitch⟩ := exists_switchTo (h.opened p.increment (by simp))
  refine .after hswitch ?_
  have hr₁ : Raising p t { e with body := { e.body with layout, current := p.increment } } :=
    ⟨⟨⟨he.pool, he.scope, he.place, he.injective, he.scratch, (h.opened p.increment (by simp)).imp
      fun _ hk => hk.1⟩, he.scratchPool, he.scratchScope, he.scratchInjective⟩,
      h.opened p.increment (by simp), h.opened p.after (by simp), h.ne.symm, h.condition,
      ⟨h.bound.allocated, h.bound.var⟩, hvar, hsteers⟩
  -- Every instruction finds the block open and leaves it so, and the types are those of the loop.
  refine (hr₁.opened.getVar hr₁.var).bind fun i e₂ ⟨h₂, hi⟩ => ?_
  have hr₂ := hr₁.flows h₂
  refine (hr₂.opened.binary hi (hr₂.steers p.step (by simp)) hnumeric.1).bind
    fun stepped e₃ ⟨h₃, hstepped⟩ => ?_
  have hr₃ := hr₂.flows h₃
  have hi₃ := h₃.retains.body.valueTypes _ _ hi
  refine (hr₃.opened.compare hi₃ (hr₃.steers p.limit (by simp)) hnumeric.2).bind
    fun inRange e₄ ⟨h₄, hrange⟩ => ?_
  have hr₄ := hr₃.flows h₄
  have hstepped₄ := h₄.retains.body.valueTypes _ _ hstepped
  refine (hr₄.opened.select hrange hstepped₄ (hr₄.steers p.bound (by simp))).bind
    fun next e₅ ⟨h₅, hnext⟩ => ?_
  have hr₅ := hr₄.flows h₅
  refine (hr₅.opened.setVar hr₅.var hnext).bind fun _ e₆ h₆ => ?_
  exact (hr₅.flows h₆).ends

/-- Where the end of a loop that runs is refused, nothing has happened. -/
theorem eq_of_fails_finish (h : e.Running p) (he : e.Neat) (hf : Fails (opened p).finish e f e') :
    e' = e := by
  have hf : Fails (jump p.increment >>= fun _ => raise p) e f e' := hf
  rcases fails_bind.1 hf with hf | ⟨_, e₁, hjump, hf⟩
  · exact eq_of_fails_jump hf
  · have havoids : e.Avoids (fun _ => True) e₁ := (leaves_jump _).of_succeeds hjump
    have hretains : e.Retains (fun _ => True) e₁ := (leaves_jump _).of_succeeds hjump
    have hrun := h.keep havoids (fun _ _ => trivial) hretains trivial
    exact absurd hf (ends_raise hrun (hretains.neat he)).not_fails

end Ending

section Beginning

variable {start : Literal} {numbers : Emit (ValueId × ValueId × ValueId)} {K : BlockId → Prop}
  {init condition body increment after : BlockId}

theorem exists_createBlock (e : Emitter) (label : String) : ∃ e',
    Succeeds (createBlock label) e ⟨e.body.blocks.size⟩ e' ∧ e.Adds e' ∧
      e'.body.blocks.size = e.body.blocks.size + 1 ∧ e'.body.Fresh ⟨e.body.blocks.size⟩ := by
  have h : Succeeds (createBlock label) e ⟨e.body.blocks.size⟩
      { e with body := (e.body.newBlock label).2 } := succeeds_createBlock.2 ⟨rfl, rfl⟩
  obtain ⟨hadds, -, hsize, hfresh⟩ := adds_createBlock h
  exact ⟨_, h, hadds, hsize, hfresh⟩

/-- The blocks of a loop are the next five. -/
theorem run_enter {n : Nat} (hn : e.body.blocks.size = n) : ∃ e₁, e.Adds e₁ ∧
    e₁.body.blocks.size = n + 5 ∧ e₁.body.Fresh ⟨n + 3⟩ ∧ e₁.body.Fresh ⟨n + 4⟩ ∧
      ∀ start numbers, (enter start numbers).run.run e =
        (opening start numbers ⟨n⟩ ⟨n + 1⟩ ⟨n + 2⟩ ⟨n + 3⟩ ⟨n + 4⟩).run.run e₁ := by
  obtain ⟨e₁, h₁, ha₁, hn₁, -⟩ := exists_createBlock e "for.init"
  obtain ⟨e₂, h₂, ha₂, hn₂, -⟩ := exists_createBlock e₁ "for.cond"
  obtain ⟨e₃, h₃, ha₃, hn₃, -⟩ := exists_createBlock e₂ "for.body"
  obtain ⟨e₄, h₄, ha₄, hn₄, hf₄⟩ := exists_createBlock e₃ "for.inc"
  obtain ⟨e₅, h₅, ha₅, hn₅, hf₅⟩ := exists_createBlock e₄ "for.after"
  rw [hn] at h₁ hn₁
  rw [hn₁] at h₂ hn₂
  rw [hn₂] at h₃ hn₃
  rw [hn₃] at h₄ hn₄ hf₄
  rw [hn₄] at h₅ hn₅ hf₅
  refine ⟨e₅, (((ha₁.trans ha₂).trans ha₃).trans ha₄).trans ha₅, hn₅, ha₅.fresh hf₄, hf₅,
    fun start numbers => ?_⟩
  rw [enter_eq, run_of_succeeds h₁, run_of_succeeds h₂, run_of_succeeds h₃, run_of_succeeds h₄,
    run_of_succeeds h₅]

theorem parts_of_opening
    (h : Succeeds (opening start numbers init condition body increment after) e p e') :
    p.condition = condition ∧ p.body = body ∧ p.increment = increment ∧ p.after = after ∧
      ∃ e₁, e.body.Within e₁.body ∧ Succeeds numbers e₁ (p.step, p.limit, p.bound) e' := by
  obtain ⟨_, e₁, h₁, h⟩ := succeeds_bind.1 h
  obtain ⟨_, e₂, h₂, h⟩ := succeeds_bind.1 h
  obtain ⟨z, e₃, h₃, h⟩ := succeeds_bind.1 h
  obtain ⟨r, e₄, h₄, h⟩ := succeeds_bind.1 h
  obtain ⟨q, e₅, hnumbers, h⟩ := succeeds_bind.1 h
  obtain ⟨rfl, rfl⟩ := succeeds_pure.1 h
  have h₁ : e.Retains (fun _ => True) e₁ := (leaves_jump _).of_succeeds h₁
  have h₂ : e₁.Retains (fun _ => True) e₂ := (leaves_switchTo _).of_succeeds h₂
  have h₃ : e₂.Retains (fun _ => True) e₃ := (leaves_literal _).of_succeeds h₃
  have h₄ : e₃.Retains (fun _ => True) e₄ := (leaves_scratch _).of_succeeds h₄
  exact ⟨rfl, rfl, rfl, rfl, e₄, (h₁.trans (h₂.trans (h₃.trans h₄))).body, hnumbers⟩

/-- The beginning of a loop enters its first three blocks. -/
theorem avoids_opening (hnumbers : numbers.Linear) (hinit : ¬ K init) (hcondition : ¬ K condition)
    (hbody : ¬ K body) : Leaves (Avoids K)
      (opening start numbers init condition body increment after >>= test) := by
  intro e
  refine leaves_bind (fun _ _ _ => .trans)
    (leaves_opening start hnumbers.avoids (avoids_switchTo hinit) _ _ _ _ e) fun q e₁ hq _ => ?_
  obtain ⟨rfl, rfl, -⟩ := parts_of_opening hq
  exact leaves_test (avoids_switchTo hcondition) (avoids_switchTo hbody) e₁

/-- Of the blocks that there were before a loop none is entered when it is begun. -/
theorem avoids_entering (start : Literal) (hnumbers : numbers.Linear) :
    Leaves (fun e e' => e.Avoids (·.index < e.body.blocks.size) e') (enter start numbers >>= test) := by
  intro e
  obtain ⟨e₁, hadds, -, -, -, hrun⟩ := run_enter (e := e) rfl
  rw [run_bind, hrun, ← run_bind]
  exact (Avoids.of_adds hadds).trans (avoids_opening hnumbers (by simp) (by simp) (by simp) e₁)

structure Steering (e : Emitter) (t : Ty) (numbers : Emit (ValueId × ValueId × ValueId)) : Prop where
  linear : numbers.Linear
  retains : Leaves (Retains fun _ => True) numbers
  types : ∀ e₁ q e₂, e.body.Within e₁.body → Succeeds numbers e₁ q e₂ →
    ∀ v ∈ [q.1, q.2.1, q.2.2], e₂.body.valueTypes[v.index]? = some t

structure Starts (e e' : Emitter) (p : LoopParts) : Prop where
  running : e'.Running p
  fresh : ∀ id ∈ [p.increment, p.after], e.body.blocks.size ≤ id.index
  slot : ∀ s x, e.Bound s x → s ≠ p.slot

theorem starts_of_enter (he : e.Neat) (hinteger : start.ty.isInteger = true)
    (hnumbers : Steering e start.ty numbers) (h : Succeeds (enter start numbers >>= test) e l e') :
    ∃ p, l = opened p ∧ Starts e e' p := by
  obtain ⟨p, rfl, hhands⟩ := hands_opening hnumbers.retains h
  obtain ⟨q, e₂, henter, htest⟩ := succeeds_bind.1 h
  obtain rfl : q = p := by
    simp only [test, succeeds_bind, succeeds_pure] at htest
    obtain ⟨_, _, -, _, _, -, _, _, -, _, _, -, _, _, -, _, _, -, hl, -⟩ := htest
    exact opened.inj hl
  -- Of the five new blocks the last two are avoided from where they have been made.
  obtain ⟨e₁, hadds, hsize, hfinc, hfafter, hrun⟩ := run_enter (e := e) rfl
  have hopening := (hrun start numbers).symm.trans henter
  obtain ⟨hcondition, hbody, hincrement, hafter, e₃, hwithin, hq⟩ := parts_of_opening hopening
  have hfresh : ∀ id ∈ [q.increment, q.after], e₁.body.Fresh id ∧ e.body.blocks.size + 3 ≤ id.index := by
    rw [hincrement, hafter]
    refine List.forall_mem_cons.2 ⟨⟨hfinc, Nat.le_refl _⟩, List.forall_mem_singleton.2 ⟨hfafter, ?_⟩⟩
    exact Nat.le_succ _
  have hcurrent : e₁.body.current.index < e.body.blocks.size := by
    obtain ⟨k, hk⟩ := he.current
    rw [hadds.current]
    exact (Array.getElem?_eq_some_iff.1 hk).1
  have havoids : e₁.Avoids (e.body.blocks.size + 3 ≤ ·.index) e' :=
    (avoids_opening hnumbers.linear (by simp) (by simp) (by simp)).of_succeeds
      (succeeds_bind.2 ⟨q, e₂, hopening, htest⟩)
  have hretains : e₂.Retains (fun _ => True) e' :=
    (leaves_test (leaves_switchTo _) (leaves_switchTo _)).of_succeeds htest
  have hsteers := hnumbers.types e₃ _ e₂ (hadds.body.trans hwithin) hq
  have houtside : ∀ id ∈ [q.increment, q.after], id ≠ e₁.body.current := by
    rintro id hid rfl
    have hle := (hfresh _ hid).2
    omega
  refine ⟨q, rfl, ⟨?_, ?_, ?_, ?_, hhands.bound he, start.ty, hinteger, hhands.type, ?_⟩, ?_,
    hhands.fresh⟩
  · intro id hid
    obtain ⟨⟨label, hlabel⟩, hle⟩ := hfresh id hid
    exact ⟨_, havoids.openAt hle (houtside id hid) ⟨hlabel, rfl⟩⟩
  · exact fun id hid => havoids.ne (hfresh id hid).2 (houtside id hid)
  · rw [hincrement, hafter]
    simp
  · obtain ⟨k, hk⟩ : ∃ k, e₁.body.blocks[q.condition.index]? = some k := by
      rw [hcondition]
      exact ⟨_, Array.getElem?_eq_getElem (by rw [hsize]; dsimp only; omega)⟩
    obtain ⟨k₂, hk₂, -⟩ := ((hwithin.trans ((hnumbers.retains).of_succeeds hq).body).trans
      hretains.body).blocks _ k hk
    exact ⟨k₂, hk₂⟩
  · exact fun v hv => hretains.body.valueTypes _ _ (hsteers v hv)
  · exact fun id hid => Nat.le_of_add_right_le (hfresh id hid).2

theorem steering_literals (e : Emitter) (step limit bound : Int32) : Steering e .i32 (do
    let stepValue ← literal (.i32 step)
    let limitValue ← literal (.i32 limit)
    return (stepValue, limitValue, ← literal (.i32 bound))) where
  linear := (leaves_literal _).bind fun _ => (leaves_literal _).bind fun _ =>
    (leaves_literal _).bind fun _ => .pure _
  retains := (leaves_literal _).bind fun _ => (leaves_literal _).bind fun _ =>
    (leaves_literal _).bind fun _ => .pure _
  types e₁ q e₂ _ h := by
    obtain ⟨v, e₃, hv, h⟩ := succeeds_bind.1 h
    obtain ⟨w, e₄, hw, h⟩ := succeeds_bind.1 h
    obtain ⟨x, e₅, hx, h⟩ := succeeds_bind.1 h
    obtain ⟨rfl, rfl⟩ := succeeds_pure.1 h
    have h₄ : e₃.Retains (fun _ => True) e₄ := (leaves_literal _).of_succeeds hw
    have h₅ : e₄.Retains (fun _ => True) e₅ := (leaves_literal _).of_succeeds hx
    refine List.forall_mem_cons.2 ⟨(h₄.trans h₅).body.valueTypes _ _ (type_of_define hv), ?_⟩
    exact List.forall_mem_cons.2 ⟨h₅.body.valueTypes _ _ (type_of_define hw),
      List.forall_mem_singleton.2 (type_of_define hx)⟩

theorem steering_count {count : ValueId} (ht : e.body.valueTypes[count.index]? = some t) :
    Steering e t (do
      let step ← literal (one t)
      let limit ← binary .subtract count step
      return (step, limit, count)) where
  linear := (leaves_literal _).bind fun _ => (leaves_binary _ _ _).bind fun _ => .pure _
  retains := (leaves_literal _).bind fun _ => (leaves_binary _ _ _).bind fun _ => .pure _
  types e₁ q e₂ hwithin h := by
    obtain ⟨v, e₃, hv, h⟩ := succeeds_bind.1 h
    obtain ⟨w, e₄, hw, h⟩ := succeeds_bind.1 h
    obtain ⟨rfl, rfl⟩ := succeeds_pure.1 h
    have h₃ : e₁.Retains (fun _ => True) e₃ := (leaves_literal _).of_succeeds hv
    have h₄ : e₃.Retains (fun _ => True) e₄ := (leaves_binary _ _ _).of_succeeds hw
    have hcount := h₃.body.valueTypes _ _ (hwithin.valueTypes _ _ ht)
    obtain ⟨t', _, htype, hdefine⟩ := succeeds_bind.1 hw
    obtain ⟨⟨hcount', hv', -⟩, rfl⟩ := succeeds_operandType_iff.1 htype
    obtain rfl := Option.some.inj (hcount.symm.trans hcount')
    refine List.forall_mem_cons.2 ⟨h₄.body.valueTypes _ _ hv', ?_⟩
    exact List.forall_mem_cons.2 ⟨type_of_define hdefine,
      List.forall_mem_singleton.2 (h₄.body.valueTypes _ _ hcount)⟩

theorem starts_beginRange {l₀ : CountedLoop} {start bound step : Int32} (he : e.Neat)
    (h : Succeeds (l₀.beginRange start bound step) e l e') : ∃ p, l = opened p ∧ Starts e e' p := by
  obtain ⟨-, h⟩ := succeeds_refuse.1 h
  obtain ⟨_, _, hidle, h⟩ := succeeds_bind.1 h
  obtain ⟨-, rfl⟩ := succeeds_requireIdle.1 hidle
  have hinteger : (Literal.i32 start).ty.isInteger = true := rfl
  exact starts_of_enter he hinteger (steering_literals e _ _ _) h

theorem starts_beginDynamic {l₀ : CountedLoop} {count : ValueId} (he : e.Neat)
    (h : Succeeds (l₀.beginDynamic count) e l e') : ∃ p, l = opened p ∧ Starts e e' p := by
  obtain ⟨t, _, htype, h⟩ := succeeds_bind.1 h
  obtain ⟨ht, rfl⟩ := succeeds_valueType.1 htype
  obtain ⟨hinteger, h⟩ := succeeds_refuse.1 h
  obtain ⟨_, _, hidle, h⟩ := succeeds_bind.1 h
  obtain ⟨-, rfl⟩ := succeeds_requireIdle.1 hidle
  have hinteger : t.isInteger = true := by simpa using hinteger
  have hzero := Literal.ty_zero hinteger
  exact starts_of_enter he (hzero.symm ▸ hinteger) (hzero.symm ▸ steering_count ht) h

/-- Of the blocks that there were before a loop none is entered when it is begun. -/
theorem avoids_beginRange (l : CountedLoop) (start bound step : Int32) :
    Leaves (fun e e' => e.Avoids (·.index < e.body.blocks.size) e') (l.beginRange start bound step) := by
  intro e
  unfold beginRange
  split
  · exact .refl e
  · refine leaves_bind (fun _ _ _ => .trans) (leaves_requireIdle l e) fun _ e₀ hidle _ => ?_
    obtain ⟨-, rfl⟩ := succeeds_requireIdle.1 hidle
    exact avoids_entering _ (steering_literals e _ _ _).linear e

theorem avoids_beginDynamic (l : CountedLoop) (count : ValueId) :
    Leaves (fun e e' => e.Avoids (·.index < e.body.blocks.size) e') (l.beginDynamic count) := by
  intro e
  refine leaves_bind (fun _ _ _ => .trans) (leaves_valueType count e) fun t e₀ htype _ => ?_
  obtain ⟨ht, rfl⟩ := succeeds_valueType.1 htype
  split
  · exact .refl e
  · refine leaves_bind (fun _ _ _ => .trans) (leaves_requireIdle l e) fun _ e₀ hidle _ => ?_
    obtain ⟨-, rfl⟩ := succeeds_requireIdle.1 hidle
    exact avoids_entering _ ((leaves_literal _).bind fun _ => (leaves_binary _ _ _).bind fun _ =>
      .pure _) e

end Beginning

end CountedLoop

end Dataflow.Code
