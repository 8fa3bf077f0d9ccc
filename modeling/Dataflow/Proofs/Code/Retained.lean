import Dataflow.Proofs.Code.Growth

/-!
# Storage in use

A buffer that is in use has its place in the frame, and a scratch slot that is in use has its variable.
Whatever is called, no place and no variable comes to stand behind two slots, and storage in use stays
as it is until its slot is given back. What is handed out was not in use before.
-/

namespace Dataflow.Code

namespace Emitter

structure Bound (e : Emitter) (s : Slot) (x : VarId) : Prop where
  allocated : e.pools.scratch.isAllocated s = true
  var : e.body.scratchVars.find? s.index = some x

structure Neat (e : Emitter) : Prop extends Tidy e where
  scratchPool : e.pools.scratch.Sound
  scratchScope : e.pools.scratch.scope = .scratch
  scratchInjective : ∀ i j x, e.body.scratchVars.find? i = some x →
    e.body.scratchVars.find? j = some x → i = j

structure Retains (K : Slot → Prop) (e e' : Emitter) : Prop where
  body : e.body.Within e'.body
  settings : e'.settings = e.settings
  neat : e.Neat → e'.Neat
  held : ∀ b, K b.slot → e.Held b → e'.Held b
  bound : ∀ s x, K s → e.Bound s x → e'.Bound s x

structure Hands (t : Ty) (s : Slot) (x : VarId) (e e' : Emitter) : Prop where
  bound : e.Neat → e'.Bound s x
  type : e'.body.varTypes[x.index]? = some t
  fresh : ∀ s' x', e.Bound s' x' → s' ≠ s

variable {e e' e'' : Emitter} {s s' : Slot} {x x' : VarId} {K : Slot → Prop} {t : Ty}

theorem Bound.injective (he : e.Neat) (h : e.Bound s x) (h' : e.Bound s' x') (hx : x = x') :
    s = s' := by
  have hindex := he.scratchInjective _ _ _ h.var (hx ▸ h'.var)
  have hscope := (Pool.isAllocated_iff.1 h.allocated).1
  have hscope' := (Pool.isAllocated_iff.1 h'.allocated).1
  exact Slot.mk.injEq _ _ _ _ ▸ ⟨hscope.trans hscope'.symm, hindex⟩

namespace Retains

theorem refl (e : Emitter) : e.Retains K e := ⟨.refl _, rfl, fun h => h, fun _ _ h => h, fun _ _ _ h => h⟩

theorem trans (h : e.Retains K e') (h' : e'.Retains K e'') : e.Retains K e'' where
  body := h.body.trans h'.body
  settings := h'.settings.trans h.settings
  neat he := h'.neat (h.neat he)
  held b hb hheld := h'.held b hb (h.held b hb hheld)
  bound s x hs hbound := h'.bound s x hs (h.bound s x hs hbound)

/-- Nothing has happened to scratch slots. -/
theorem of_grows (h : e.Grows e') (hpool : e'.pools.scratch = e.pools.scratch)
    (hvars : e'.body.scratchVars = e.body.scratchVars) : e.Retains K e' where
  body := h.body
  settings := h.settings
  neat he := ⟨h.tidy he.toTidy, hpool ▸ he.scratchPool, hpool ▸ he.scratchScope,
    fun i j x hi hj => he.scratchInjective i j x (hvars ▸ hi) (hvars ▸ hj)⟩
  held b _ hb := h.held b hb
  bound _ _ _ hs := ⟨hpool ▸ hs.allocated, hvars ▸ hs.var⟩

end Retains

/-- A slot that is taken next is not in use. -/
theorem Bound.ne_allocate (h : e.Bound s x) : s ≠ (e.pools.allocate .scratch).1 := by
  intro hs
  have hfree : e.pools.scratch.isAllocated (e.pools.allocate .scratch).1 = false :=
    Pool.not_isAllocated_allocate _
  rw [← hs, h.allocated] at hfree
  cases hfree

theorem Bound.index_ne_allocate (h : e.Bound s x) :
    s.index ≠ (e.pools.allocate .scratch).1.index := by
  intro hindex
  have hscope := (Pool.isAllocated_iff.1 h.allocated).1
  exact h.ne_allocate (Slot.mk.injEq _ _ _ _ ▸
    ⟨hscope.trans (Pool.scope_slot_allocate e.pools.scratch).symm, hindex⟩)

/-- Storage in use stays as it is on the way to where something is handed out, and from there on. -/
theorem Hands.after (h : e.Retains (fun _ => True) e') (h' : Hands t s x e' e'') : Hands t s x e e'' :=
  ⟨fun he => h'.bound (h.neat he), h'.type, fun s' x' hs => h'.fresh s' x' (h.bound s' x' trivial hs)⟩

theorem Hands.before (h : Hands t s x e e') (h' : e'.Retains (fun _ => True) e'') : Hands t s x e e'' :=
  ⟨fun he => h'.bound _ _ trivial (h.bound he), h'.body.varTypes _ _ h.type, h.fresh⟩

end Emitter

namespace Emit

open Emitter

variable {e e' : Emitter} {K : Slot → Prop} {t : Ty} {slot : Slot} {r : Slot × VarId}

theorem retains_allocate (scope : Scope) : Leaves (Retains K) (allocate scope) := by
  intro e
  have hgrows : e.Grows ((allocate scope).run.run e).2 := (silent_allocate e scope).toGrows
  by_cases hscope : scope = .scratch
  · subst hscope
    exact ⟨hgrows.body, rfl, fun he => ⟨hgrows.tidy he.toTidy, he.scratchPool.allocate,
      (Pool.scope_allocate _).trans he.scratchScope, he.scratchInjective⟩, fun b _ hb => hgrows.held b hb,
      fun _ _ _ h => ⟨Pool.isAllocated_of_allocate h.allocated, h.var⟩⟩
  · exact .of_grows hgrows (Pools.get_allocate_of_ne (Ne.symm hscope)) rfl

/-- The slot that is given back is the only one that is not in use any more. -/
theorem retains_release (hK : ∀ s, K s → s ≠ slot) : Leaves (Retains K) (release slot) := by
  refine .of_runs (fun e u e' h => ?_) fun e f e' h => (fails_release.1 h).2 ▸ .refl e
  obtain ⟨ps, hps, rfl⟩ := succeeds_release.1 h
  by_cases hbuffer : slot.scope = .buffer
  · have hrelease : Succeeds (Pool.release slot) e.pools.buffer () ps.buffer :=
      Pools.get_release hps hbuffer
    have hscope := congrArg Pool.scope (Pool.succeeds_release.1 hrelease).2
    have hne : Scope.scratch ≠ slot.scope := by
      rw [hbuffer]
      decide
    have hpool : ps.scratch = e.pools.scratch := Pools.get_release_of_ne hps hne
    exact ⟨.refl _, rfl, fun he => ⟨⟨he.pool.release hrelease, hscope.trans he.scope, he.place, he.injective,
        he.scratch, he.current⟩, hpool ▸ he.scratchPool, hpool ▸ he.scratchScope, he.scratchInjective⟩,
      fun b hb h => ⟨Pool.isAllocated_of_release hrelease h.allocated (hK _ hb), h.place, h.room⟩,
      fun _ _ _ h => ⟨hpool ▸ h.allocated, h.var⟩⟩
  have hgrows : e.Grows { e with pools := ps } :=
    .of_pools (Pools.get_release_of_ne hps (Ne.symm hbuffer))
  by_cases hscratch : slot.scope = .scratch
  · have hrelease : Succeeds (Pool.release slot) e.pools.scratch () ps.scratch :=
      Pools.get_release hps hscratch
    have hscope := congrArg Pool.scope (Pool.succeeds_release.1 hrelease).2
    exact ⟨.refl _, rfl, fun he => ⟨hgrows.tidy he.toTidy, he.scratchPool.release hrelease,
        hscope.trans he.scratchScope, he.scratchInjective⟩, fun b _ hb => hgrows.held b hb,
      fun s _ hs h => ⟨Pool.isAllocated_of_release hrelease h.allocated (hK s hs), h.var⟩⟩
  · exact .of_grows hgrows (Pools.get_release_of_ne hps (Ne.symm hscratch)) rfl

theorem succeeds_takeScratch (h : Succeeds (takeScratch t) e r e') :
    r.1 = (e.pools.allocate .scratch).1 ∧
      Succeeds (scratchVar r.1 t) { e with pools := (e.pools.allocate .scratch).2 } r.2 e' := by
  obtain ⟨slot, e₁, hslot, h⟩ := succeeds_bind.1 h
  obtain ⟨x, e₂, hx, h⟩ := succeeds_bind.1 h
  obtain ⟨rfl, rfl⟩ := succeeds_pure.1 h
  obtain ⟨rfl, rfl⟩ := succeeds_allocate.1 hslot
  exact ⟨rfl, hx⟩

/-- The variable that comes with a scratch slot stands behind no other one. -/
theorem retains_takeScratch (t : Ty) : Leaves (Retains K) (takeScratch t) := by
  refine .of_runs (fun e r e' h => ?_) fun e f e' h => ?_
  · have hgrows : e.Grows e' := (Notes.takeScratch t).of_succeeds h
    obtain ⟨hslot, h⟩ := succeeds_takeScratch h
    have htaken : e.Retains K { e with pools := (e.pools.allocate .scratch).2 } :=
      retains_allocate .scratch e
    rcases scratchVar_cases h with ⟨rfl, -, -⟩ | ⟨hx, rfl⟩
    · exact htaken
    have hnew : ∀ he : e.Neat, ∀ i, e.body.scratchVars.find? i ≠ some r.2 := by
      intro he i hi
      rw [hx] at hi
      exact Nat.lt_irrefl _ (he.scratch i _ hi)
    refine ⟨hgrows.body, rfl, fun he => ⟨hgrows.tidy he.toTidy, (htaken.neat he).scratchPool,
      (htaken.neat he).scratchScope, Table.injective_insert (hnew he) he.scratchInjective⟩,
      fun b _ hb => hgrows.held b hb, fun s x hs h => ⟨(htaken.bound s x hs h).allocated, ?_⟩⟩
    refine ((Table.find?_insert ..).trans (if_neg ?_)).trans h.var
    rw [hslot]
    exact h.index_ne_allocate
  · obtain ⟨slot, e₁, hslot, h⟩ : ∃ slot e₁, Succeeds (allocate .scratch) e slot e₁ ∧ e' = e₁ := by
      rcases fails_bind.1 h with h | ⟨slot, e₁, hslot, h⟩
      · exact absurd h fails_allocate
      rcases fails_bind.1 h with h | ⟨x, e₂, -, h⟩
      · exact ⟨slot, e₁, hslot, eq_of_fails_scratchVar h⟩
      · exact absurd h fails_pure
    rw [h]
    exact (retains_allocate .scratch).of_succeeds hslot

/-- A variable that is handed out has the type that was asked for, and its slot was not in use. -/
theorem hands_takeScratch (h : Succeeds (takeScratch t) e r e') : Hands t r.1 r.2 e e' := by
  obtain ⟨hslot, h⟩ := succeeds_takeScratch h
  have hbound : e.Neat → e'.Bound r.1 r.2 := by
    intro he
    have hallocated : (e.pools.allocate .scratch).2.scratch.isAllocated r.1 = true :=
      hslot ▸ Pool.isAllocated_allocate he.scratchPool
    rcases scratchVar_cases h with ⟨rfl, hfind, -⟩ | ⟨-, rfl⟩
    · exact ⟨hallocated, hfind⟩
    · exact ⟨hallocated, (Table.find?_insert ..).trans (if_pos rfl)⟩
  exact ⟨hbound, (succeeds_scratchVar h).2.1, fun s x hs => hslot ▸ hs.ne_allocate⟩

theorem leaves_bufferPlace (slot : Slot) (bytes : Nat) :
    Leaves (fun e e' => e'.pools = e.pools ∧ e'.body.scratchVars = e.body.scratchVars)
      (bufferPlace slot bytes) :=
  .of_runs (fun e p e' h => by
    rcases succeeds_bufferPlace h with ⟨rfl, -, -⟩ | ⟨-, rfl⟩
    · exact ⟨rfl, rfl⟩
    · exact ⟨rfl, rfl⟩) fun _ _ _ h => absurd h not_fails_bufferPlace

/-- A buffer takes no scratch slot. -/
theorem retains_stackBuffer (t : Ty) (length : Nat) : Leaves (Retains K) (stackBuffer t length) := by
  refine .of_runs (fun e b e' h => ?_) fun e f e' h => ?_
  swap
  · rw [eq_of_fails_stackBuffer h]
    exact .refl e
  have hgrows := (succeeds_stackBuffer h).1.toGrows
  obtain ⟨-, h⟩ := succeeds_refuse.1 h
  obtain ⟨slot, e₁, hslot, h⟩ := succeeds_bind.1 h
  obtain ⟨p, e₂, hp, h⟩ := succeeds_bind.1 h
  obtain ⟨-, rfl⟩ := succeeds_pure.1 h
  obtain ⟨rfl, rfl⟩ := succeeds_allocate.1 hslot
  obtain ⟨hpools, hvars⟩ := (leaves_bufferPlace _ _).of_succeeds hp
  have hne : Scope.scratch ≠ .buffer := by decide
  refine .of_grows hgrows ?_ hvars
  rw [hpools]
  exact Pools.get_allocate_of_ne hne

instance : Std.Refl (Retains K) := ⟨.refl⟩

instance : IsTrans Emitter (Retains K) := ⟨fun _ _ _ => .trans⟩

theorem retains_push (i : Instr) : Leaves (Retains K) (push i) := by
  refine .of_runs (fun e u e' h => ?_) fun e f e' h => (fails_push.1 h).2 ▸ .refl e
  have hgrows := ((straight_push i).straight h).toGrows
  obtain ⟨b, hb, rfl⟩ := succeeds_push.1 h
  obtain ⟨-, rfl⟩ := Body.push_eq_ok_iff.1 hb
  exact .of_grows hgrows rfl rfl

theorem retains_newValue (t : Ty) : Leaves (Retains K) (newValue t) :=
  fun e => .of_grows (.of_body (e.body.within_newValue t) id rfl rfl) rfl rfl

theorem retains_define (t : Ty) (instr : ValueId → Instr) : Leaves (Retains K) (define t instr) :=
  (retains_newValue t).bind fun _ => (retains_push _).bind fun _ => .pure _

instance : Records (Retains K) where
  newValue := retains_newValue
  newVar t := fun e => .of_grows (.of_body (e.body.within_newVar t) id rfl rfl) rfl rfl
  push i _ _ := retains_push i
  define t instr _ _ := retains_define t instr
  allocate := retains_allocate
  takeScratch := retains_takeScratch
  stackBuffer := retains_stackBuffer
  helper e op t r h := .of_grows (Records.helper e op t r h) rfl rfl
  datum e s bytes writable := .of_grows (Notes.datum e s bytes writable) rfl rfl
  describe e text := .of_grows (Notes.describe e text) rfl rfl

instance : Offsets (Retains K) where
  offset _ _ _ := retains_define _ _

instance : Frames (Retains K) where
  bufferAddress _ := retains_define _ _

instance : Branches (Retains K) where
  createBlock label := fun e => .of_grows (Blocks.createBlock (R := Grows) label e) rfl rfl
  terminate t := .of_runs (fun e _ _ h => by
    have hgrows := (Blocks.terminate (R := Grows) t).of_succeeds h
    obtain ⟨b, hb, rfl⟩ := succeeds_terminate.1 h
    obtain ⟨-, rfl⟩ := Body.terminate_eq_ok_iff.1 hb
    exact .of_grows hgrows rfl rfl) fun e _ _ h => (fails_terminate.1 h).2 ▸ .refl e
  switchTo id := .of_runs (fun e _ _ h => by
    have hgrows := (Branches.switchTo (R := Grows) id).of_succeeds h
    obtain ⟨b, hb, rfl⟩ := succeeds_switchTo.1 h
    obtain ⟨-, layout, rfl⟩ := Body.switchTo_eq_ok hb
    exact .of_grows hgrows rfl rfl) fun e _ _ h => (fails_switchTo.1 h).2 ▸ .refl e

section Handing

variable {v : ValueId}

theorem hands_scratch (h : Succeeds (scratch v) e r e') :
    ∃ t, e.body.valueTypes[v.index]? = some t ∧ Hands t r.1 r.2 e e' := by
  rw [scratch_eq] at h
  obtain ⟨t, _, htype, h⟩ := succeeds_bind.1 h
  obtain ⟨ht, rfl⟩ := succeeds_valueType.1 htype
  obtain ⟨_, e₁, htake, h⟩ := succeeds_bind.1 h
  obtain ⟨_, e₂, hpush, h⟩ := succeeds_bind.1 h
  obtain ⟨rfl, rfl⟩ := succeeds_pure.1 h
  exact ⟨t, ht, (hands_takeScratch htake).before ((retains_push _).of_succeeds hpush)⟩

end Handing

end Emit

namespace CountedLoop

open Emit Emitter

variable {e e' : Emitter} {p : LoopParts} {start : Literal}
  {numbers : Emit (ValueId × ValueId × ValueId)} {l l' : CountedLoop}

theorem hands_enter (hnumbers : Leaves (Retains fun _ => True) numbers)
    (h : Succeeds (enter start numbers) e p e') : Hands start.ty p.slot p.var e e' := by
  unfold enter at h
  obtain ⟨init, e₁, h₁, h⟩ := succeeds_bind.1 h
  obtain ⟨condition, e₂, h₂, h⟩ := succeeds_bind.1 h
  obtain ⟨body, e₃, h₃, h⟩ := succeeds_bind.1 h
  obtain ⟨increment, e₄, h₄, h⟩ := succeeds_bind.1 h
  obtain ⟨after, e₅, h₅, h⟩ := succeeds_bind.1 h
  obtain ⟨_, e₆, h₆, h⟩ := succeeds_bind.1 h
  obtain ⟨_, e₇, h₇, h⟩ := succeeds_bind.1 h
  obtain ⟨z, e₈, hz, h⟩ := succeeds_bind.1 h
  obtain ⟨r, e₉, hr, h⟩ := succeeds_bind.1 h
  obtain ⟨_, e₁₀, hn, h⟩ := succeeds_bind.1 h
  obtain ⟨rfl, rfl⟩ := succeeds_pure.1 h
  obtain ⟨t, ht, hhands⟩ := hands_scratch hr
  obtain rfl := Option.some.inj ((type_of_define hz).symm.trans ht)
  refine .after ((leaves_createBlock _).of_succeeds h₁) ?_
  refine .after ((leaves_createBlock _).of_succeeds h₂) ?_
  refine .after ((leaves_createBlock _).of_succeeds h₃) ?_
  refine .after ((leaves_createBlock _).of_succeeds h₄) ?_
  refine .after ((leaves_createBlock _).of_succeeds h₅) ?_
  refine .after ((leaves_jump _).of_succeeds h₆) ?_
  refine .after ((leaves_switchTo _).of_succeeds h₇) ?_
  exact .after ((leaves_literal _).of_succeeds hz) (hhands.before (hnumbers.of_succeeds hn))

/-- A loop has taken the variable that it counts with when its body begins. -/
theorem hands_opening (hnumbers : Leaves (Retains fun _ => True) numbers)
    (h : Succeeds (enter start numbers >>= test) e l e') :
    ∃ p, l = opened p ∧ Hands start.ty p.slot p.var e e' := by
  obtain ⟨p, e₁, henter, h⟩ := succeeds_bind.1 h
  have htest := (leaves_test (R := Retains fun _ => True) (leaves_switchTo p.condition)
    (leaves_switchTo p.body)).of_succeeds h
  simp only [test, succeeds_bind, succeeds_pure] at h
  obtain ⟨_, _, -, _, _, -, _, _, -, _, _, -, _, _, -, _, _, -, rfl, rfl⟩ := h
  exact ⟨p, rfl, (hands_enter hnumbers henter).before htest⟩

theorem hands_beginRange {start bound step : Int32} (h : Succeeds (l.beginRange start bound step) e l' e') :
    ∃ p, l' = opened p ∧ Hands .i32 p.slot p.var e e' := by
  obtain ⟨-, h⟩ := succeeds_refuse.1 h
  obtain ⟨_, e₁, hidle, h⟩ := succeeds_bind.1 h
  obtain ⟨p, hl, hhands⟩ := hands_opening ((leaves_literal _).bind fun _ => (leaves_literal _).bind fun _ =>
    (leaves_literal _).bind fun _ => .pure _) h
  exact ⟨p, hl, hhands.after ((leaves_requireIdle l).of_succeeds hidle)⟩

theorem hands_beginDynamic {count : ValueId} (h : Succeeds (l.beginDynamic count) e l' e') :
    ∃ t p, e.body.valueTypes[count.index]? = some t ∧ l' = opened p ∧ Hands t p.slot p.var e e' := by
  obtain ⟨t, _, htype, h⟩ := succeeds_bind.1 h
  obtain ⟨ht, rfl⟩ := succeeds_valueType.1 htype
  obtain ⟨hinteger, h⟩ := succeeds_refuse.1 h
  obtain ⟨_, e₁, hidle, h⟩ := succeeds_bind.1 h
  obtain ⟨p, hl, hhands⟩ := hands_opening ((leaves_literal _).bind fun _ => (leaves_binary _ _ _).bind fun _ =>
    .pure _) h
  rw [Literal.ty_zero (by simpa using hinteger)] at hhands
  exact ⟨t, p, ht, hl, .after ((leaves_requireIdle l).of_succeeds hidle) hhands⟩

end CountedLoop

end Dataflow.Code
