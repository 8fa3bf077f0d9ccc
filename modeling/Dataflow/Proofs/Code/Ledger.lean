import Dataflow.Proofs.Code.Protocol
import Dataflow.Proofs.Code.Retained

/-!
# Storage that has been handed out

Calls hand out buffers and scratch values and take them back, and a loop holds the value that it counts
with from its beginning to its end. A ledger lists what has been handed out and not been taken back. As
long as nothing is given back that is not in the ledger, no two entries share their storage.
-/

namespace Dataflow.Code

structure Scalar where
  slot : Slot
  var : VarId
  /-- The type of its initial value. -/
  initial : Option Ty
  /-- The loop that counts with it, if one does. -/
  loop : Option LoopParts

structure Ledger where
  buffers : List StackBuffer := []
  scalars : List Scalar := []

namespace Ledger

def add (L : Ledger) (r : Scalar) : Ledger := { L with scalars := r :: L.scalars }

/-- What is given back has been handed out and not been given back: a buffer, a scratch value that no
loop counts with, or a loop at its end. The pools are not used directly, except that slots may be taken
and those given back that belong neither to buffers nor to scratch values. -/
def Permits (L : Ledger) : Call → Prop
  | .release slot => slot.scope ≠ .buffer ∧ slot.scope ≠ .scratch
  | .releaseBuffer buffer => buffer ∈ L.buffers
  | .freeScratch slot => slot.scope = .scratch → ∃ r ∈ L.scalars, r.slot = slot ∧ r.loop = none
  | .finish (.opened parts) => ∃ r ∈ L.scalars, r.loop = some parts
  | _ => True

/-- The ledger behind a call that has been granted in the emitter `e`. -/
def book (L : Ledger) (e : Emitter) : Call → Reply → Ledger
  | .stackBuffer _ _, .buffer b => { L with buffers := b :: L.buffers }
  | .releaseBuffer b, _ => { L with buffers := L.buffers.erase b }
  | .scratch v, .scratch s x => L.add ⟨s, x, e.body.valueTypes[v.index]?, none⟩
  | .freeScratch s, _ =>
    { L with scalars := L.scalars.eraseP fun r => r.slot = s ∧ r.loop = none }
  | .beginRange .., .loop (.opened p) => L.add ⟨p.slot, p.var, some .i32, some p⟩
  | .beginCount .., .loop (.opened p) => L.add ⟨p.slot, p.var, some .i32, some p⟩
  | .beginDynamic _ v, .loop (.opened p) => L.add ⟨p.slot, p.var, e.body.valueTypes[v.index]?, some p⟩
  | .finish (.opened p), _ => { L with scalars := L.scalars.eraseP fun r => r.loop = some p }
  | _, _ => L

def next (L : Ledger) (e : Emitter) (c : Call) : Ledger :=
  match (c.perform.run.run e).1 with
  | .ok reply => L.book e c reply
  | .error _ => L

def after (L : Ledger) (e : Emitter) : List Call → Ledger
  | [] => L
  | c :: cs => (L.next e c).after (c.perform.run.run e).2 cs

def PermitsAll (L : Ledger) (e : Emitter) : List Call → Prop
  | [] => True
  | c :: cs => L.Permits c ∧ (L.next e c).PermitsAll (c.perform.run.run e).2 cs

end Ledger

namespace Emitter

def after (e : Emitter) (calls : List Call) : Emitter :=
  calls.foldl (fun e c => (c.perform.run.run e).2) e

variable {e e' : Emitter} {s : Slot} {x : VarId} {b : StackBuffer}

theorem Held.scope (he : e.Neat) (h : e.Held b) : b.slot.scope = .buffer :=
  (Pool.isAllocated_iff.1 h.allocated).1.trans he.scope

theorem Bound.scope (he : e.Neat) (h : e.Bound s x) : s.scope = .scratch :=
  (Pool.isAllocated_iff.1 h.allocated).1.trans he.scratchScope

end Emitter

namespace Emit

open Emitter

variable {e e' : Emitter} {c : Call} {f : Fault}

/-- Whatever is called, places and variables belong to one slot each. -/
theorem retains_any (c : Call) : Leaves (Retains fun _ => False) c.perform :=
  leaves_perform (fun _ _ => retains_release nofun) (fun _ _ _ => retains_release nofun)
    fun buffer _ => Frames.bufferAddress buffer

/-- Storage in use stays so unless a call gives it back. -/
theorem retains_perform (hc : c.frees? = none) (hs : c.freesScratch? = none) :
    Leaves (Retains fun _ => True) c.perform :=
  leaves_perform (fun slot h => by rw [hc] at h; cases h) (fun slot h => by rw [hs] at h; cases h)
    fun buffer _ => Frames.bufferAddress buffer

/-- A call that is refused gives nothing back. -/
theorem retains_of_fails (h : Fails c.perform e f e') : e.Retains (fun _ => True) e' := by
  have hrelease : ∀ {slot : Slot}, Fails (release slot) e f e' → e.Retains (fun _ => True) e' :=
    fun h => (fails_release.1 h).2 ▸ .refl e
  cases c with
  | release slot => exact hrelease (fails_map.1 h)
  | releaseBuffer buffer => exact hrelease (fails_map.1 h)
  | freeScratch slot =>
      rcases fails_refuse.1 (fails_map.1 h) with ⟨-, -, rfl⟩ | ⟨-, h⟩
      · exact .refl _
      · exact hrelease h
  | finish l =>
      cases l with
      | opened parts =>
          have h := fails_map.1 h
          rw [finish_opened] at h
          have hleaves : Leaves (Retains fun _ => True) (close parts) :=
            leaves_close (leaves_switchTo _) (leaves_switchTo _)
          rcases fails_bind.1 h with h | ⟨_, e₁, hclose, h⟩
          · exact hleaves.of_fails h
          have hretains := hleaves.of_succeeds hclose
          rcases fails_bind.1 h with h | ⟨_, _, -, h⟩
          · rcases fails_refuse.1 h with ⟨-, -, rfl⟩ | ⟨-, h⟩
            · exact hretains
            · exact (fails_release.1 h).2 ▸ hretains
          · exact absurd h fails_pure
      | _ => exact (retains_perform rfl rfl).of_fails h
  | _ => exact (retains_perform rfl rfl).of_fails h

end Emit

theorem Emitter.within_after (e : Emitter) (calls : List Call) : e.body.Within (e.after calls).body := by
  induction calls generalizing e with
  | nil => exact .refl _
  | cons c cs ih => exact (Emit.retains_any c e).body.trans (ih _)

namespace Ledger

open Emitter Emit

variable {L L' : Ledger} {e e' : Emitter} {c : Call} {K : Slot → Prop} {reply : Reply}

structure Sound (L : Ledger) (e : Emitter) : Prop where
  neat : e.Neat
  held : ∀ b ∈ L.buffers, e.Held b
  buffers : (L.buffers.map (·.slot)).Nodup
  bound : ∀ r ∈ L.scalars, e.Bound r.slot r.var
  typed : ∀ r ∈ L.scalars, ∃ t, r.initial = some t ∧ e.body.varTypes[r.var.index]? = some t
  scalars : (L.scalars.map (·.slot)).Nodup
  loops : ∀ r ∈ L.scalars, ∀ p, r.loop = some p → r.slot = p.slot

/-- Entries may be struck out, and those that are left keep their slots. -/
theorem Sound.retain (h : L.Sound e) (hr : e.Retains K e') (hbuffers : L'.buffers.Sublist L.buffers)
    (hscalars : L'.scalars.Sublist L.scalars) (hb : ∀ b ∈ L'.buffers, K b.slot)
    (hs : ∀ r ∈ L'.scalars, K r.slot) : L'.Sound e' where
  neat := hr.neat h.neat
  held b hmem := hr.held b (hb b hmem) (h.held b (hbuffers.subset hmem))
  buffers := (hbuffers.map _).nodup h.buffers
  bound r hmem := hr.bound _ _ (hs r hmem) (h.bound r (hscalars.subset hmem))
  typed r hmem := (h.typed r (hscalars.subset hmem)).imp fun _ ht =>
    ⟨ht.1, hr.body.varTypes _ _ ht.2⟩
  scalars := (hscalars.map _).nodup h.scalars
  loops r hmem := h.loops r (hscalars.subset hmem)

theorem Sound.keep (h : L.Sound e) (hr : e.Retains (fun _ => True) e') : L.Sound e' :=
  h.retain hr (.refl _) (.refl _) (fun _ _ => trivial) fun _ _ => trivial

theorem Sound.addBuffer {t : Ty} {n : Nat} {b : StackBuffer} (h : L.Sound e)
    (hs : Succeeds (stackBuffer t n) e b e') : { L with buffers := b :: L.buffers }.Sound e' := by
  obtain ⟨-, -, -, hheld, hfresh⟩ := succeeds_stackBuffer hs
  have hkept := h.keep ((retains_stackBuffer t n).of_succeeds hs)
  refine { hkept with held := ?_, buffers := ?_ }
  · exact List.forall_mem_cons.2 ⟨hheld h.neat.toTidy, hkept.held⟩
  · refine List.nodup_cons.2 ⟨fun hmem => ?_, h.buffers⟩
    obtain ⟨k, hk, hslot⟩ := List.mem_map.1 hmem
    exact hfresh k (h.held k hk) hslot

theorem Sound.add {t : Ty} {s : Slot} {x : VarId} (h : L.Sound e)
    (hr : e.Retains (fun _ => True) e') (hhands : Hands t s x e e') (loop : Option LoopParts)
    (hloop : ∀ p, loop = some p → s = p.slot) : (L.add ⟨s, x, some t, loop⟩).Sound e' := by
  have hkept := h.keep hr
  refine { hkept with bound := ?_, typed := ?_, scalars := ?_, loops := ?_ }
  · exact List.forall_mem_cons.2 ⟨hhands.bound h.neat, hkept.bound⟩
  · exact List.forall_mem_cons.2 ⟨⟨t, rfl, hhands.type⟩, hkept.typed⟩
  · refine List.nodup_cons.2 ⟨fun hmem => ?_, h.scalars⟩
    obtain ⟨r, hr, hslot⟩ := List.mem_map.1 hmem
    exact hhands.fresh _ _ (h.bound r hr) hslot
  · exact List.forall_mem_cons.2 ⟨hloop, hkept.loops⟩

/-- The slot of an entry that is struck out belongs to no other one. -/
theorem forall_ne_of_nodup {α β : Type} {f : α → β} {l₁ l₂ : List α} {a : α}
    (h : ((l₁ ++ a :: l₂).map f).Nodup) : ∀ b ∈ l₁ ++ l₂, f b ≠ f a := by
  rw [List.map_append, List.map_cons, List.nodup_middle, List.nodup_cons, ← List.map_append] at h
  exact fun b hb heq => h.1 (heq ▸ List.mem_map_of_mem hb)

theorem Sound.releaseBuffer {b : StackBuffer} (h : L.Sound e) (hb : b ∈ L.buffers)
    (hr : e.Retains (· ≠ b.slot) e') : { L with buffers := L.buffers.erase b }.Sound e' := by
  obtain ⟨l₁, l₂, -, hl, herase⟩ := List.exists_erase_eq hb
  refine h.retain hr List.erase_sublist (.refl _) (fun k hk => ?_) fun r hr' => ?_
  · exact forall_ne_of_nodup (hl ▸ h.buffers) k (herase ▸ hk)
  · intro hslot
    have hscope := (h.bound r hr').scope h.neat
    rw [hslot, (h.held b hb).scope h.neat] at hscope
    cases hscope

theorem Sound.freeScalar {p : Scalar → Bool} {r : Scalar} {slot : Slot} (h : L.Sound e)
    (hr : r ∈ L.scalars) (hp : p r = true) (hslot : ∀ r ∈ L.scalars, p r = true → r.slot = slot)
    (hretains : e.Retains (· ≠ slot) e') : { L with scalars := L.scalars.eraseP p }.Sound e' := by
  obtain ⟨a, l₁, l₂, -, ha, hl, herase⟩ := List.exists_of_eraseP hr hp
  have hmem : a ∈ L.scalars := hl ▸ List.mem_append_right _ List.mem_cons_self
  obtain rfl := hslot a hmem ha
  refine h.retain hretains (.refl _) List.eraseP_sublist (fun b hb hslot => ?_) fun r hr' => ?_
  · have hscope := (h.bound a hmem).scope h.neat
    rw [← hslot, (h.held b hb).scope h.neat] at hscope
    cases hscope
  · exact forall_ne_of_nodup (hl ▸ h.scalars) r (herase ▸ hr')

/-- A granted call leaves the ledger in order. -/
theorem Sound.book (h : L.Sound e) (hc : L.Permits c) (hs : Succeeds c.perform e reply e') :
    (L.book e c reply).Sound e' := by
  have hother : ∀ {slot : Slot}, slot.scope ≠ .buffer ∧ slot.scope ≠ .scratch →
      e.Retains (· ≠ slot) e' → L.Sound e' := by
    intro slot hslot hr
    refine h.retain hr (.refl _) (.refl _) (fun b hb heq => ?_) fun r hr heq => ?_
    · exact hslot.1 (heq ▸ (h.held b hb).scope h.neat)
    · exact hslot.2 (heq ▸ (h.bound r hr).scope h.neat)
  cases c with
  | release slot =>
      obtain ⟨_, hrelease, -⟩ := succeeds_map.1 hs
      exact hother hc ((retains_release fun _ h => h).of_succeeds hrelease)
  | stackBuffer t n =>
      obtain ⟨b, hbuffer, rfl⟩ := succeeds_map.1 hs
      exact h.addBuffer hbuffer
  | releaseBuffer b =>
      obtain ⟨_, hrelease, -⟩ := succeeds_map.1 hs
      exact h.releaseBuffer hc ((retains_release fun _ h => h).of_succeeds hrelease)
  | scratch v =>
      have hretains := (retains_perform rfl rfl).of_succeeds hs
      obtain ⟨r, hscratch, rfl⟩ := succeeds_map.1 hs
      obtain ⟨t, ht, hhands⟩ := hands_scratch hscratch
      have hadd := h.add hretains hhands none nofun
      rwa [← ht] at hadd
  | freeScratch slot =>
      obtain ⟨_, hfree, -⟩ := succeeds_map.1 hs
      obtain ⟨hscope, hrelease⟩ := succeeds_refuse.1 hfree
      obtain ⟨r, hr, hslot, hloop⟩ := hc (not_not.1 hscope)
      refine h.freeScalar hr (by simp [hslot, hloop]) (fun r _ hr => ?_)
        ((retains_release fun _ h => h).of_succeeds hrelease)
      exact (of_decide_eq_true hr).1
  | beginRange l start bound step =>
      have hretains := (retains_perform rfl rfl).of_succeeds hs
      obtain ⟨l', hbegin, rfl⟩ := succeeds_map.1 hs
      obtain ⟨p, rfl, hhands⟩ := CountedLoop.hands_beginRange hbegin
      exact h.add hretains hhands (some p) fun q hq => by cases hq; rfl
  | beginCount l count =>
      have hretains := (retains_perform rfl rfl).of_succeeds hs
      obtain ⟨l', hbegin, rfl⟩ := succeeds_map.1 hs
      obtain ⟨p, rfl, hhands⟩ := CountedLoop.hands_beginRange hbegin
      exact h.add hretains hhands (some p) fun q hq => by cases hq; rfl
  | beginDynamic l count =>
      have hretains := (retains_perform rfl rfl).of_succeeds hs
      obtain ⟨l', hbegin, rfl⟩ := succeeds_map.1 hs
      obtain ⟨t, p, ht, rfl, hhands⟩ := CountedLoop.hands_beginDynamic hbegin
      have hadd := h.add hretains hhands (some p) fun q hq => by cases hq; rfl
      rwa [← ht] at hadd
  | finish l =>
      cases l with
      | opened p =>
          obtain ⟨_, hfinish, -⟩ := succeeds_map.1 hs
          obtain ⟨r, hr, hloop⟩ := hc
          refine h.freeScalar hr (decide_eq_true hloop)
            (fun r hr hloop => h.loops r hr p (of_decide_eq_true hloop)) ?_
          refine (leaves_finish fun q hq => ⟨leaves_switchTo _, leaves_switchTo _,
            fun _ => retains_release ?_⟩).of_succeeds hfinish
          cases hq
          exact fun _ h => h
      | _ => exact h.keep ((retains_perform rfl rfl).of_succeeds hs)
  | _ => exact h.keep ((retains_perform rfl rfl).of_succeeds hs)

theorem Sound.next (h : L.Sound e) (hc : L.Permits c) :
    (L.next e c).Sound (c.perform.run.run e).2 := by
  unfold Ledger.next
  cases hr : (c.perform.run.run e).1 with
  | ok reply => exact h.book hc (Prod.ext hr rfl)
  | error f => exact h.keep (retains_of_fails (Prod.ext hr rfl))

theorem Sound.after {calls : List Call} (h : L.Sound e) (hcalls : L.PermitsAll e calls) :
    (L.after e calls).Sound (e.after calls) := by
  induction calls generalizing L e with
  | nil => exact h
  | cons c cs ih => exact ih (h.next hcalls.1) hcalls.2

/-- The storage of the entries, as the body has it: buffers have places of their own that are large
enough, and scratch values have variables of their own, of the type of their initial values. -/
structure Apart (L : Ledger) (b : Body) : Prop where
  places : L.buffers.Pairwise (·.place ≠ ·.place)
  rooms : ∀ k ∈ L.buffers, ∃ n, b.stack[k.place.index]? = some n ∧ k.length * k.ty.size ≤ n
  vars : L.scalars.Pairwise (·.var ≠ ·.var)
  types : ∀ r ∈ L.scalars, ∃ t, r.initial = some t ∧ b.varTypes[r.var.index]? = some t

theorem Sound.apart (h : L.Sound e) : L.Apart e.body where
  places := by
    refine (List.pairwise_map.1 h.buffers).imp_of_mem fun {b b'} hb hb' hslot hplace => hslot ?_
    exact (h.held b hb).place_injective h.neat.toTidy (h.held b' hb') hplace
  rooms b hb := (h.held b hb).room
  vars := by
    refine (List.pairwise_map.1 h.scalars).imp_of_mem fun {r r'} hr hr' hslot hvar => hslot ?_
    exact (h.bound r hr).injective h.neat (h.bound r' hr') hvar
  types := h.typed

end Ledger

namespace Assembler

open Emit

variable {a a' : Assembler} {body : Body} {calls : List Call}

def emitter (a : Assembler) (body : Body) : Emitter := ⟨body, a.declarations, a.pools, a.settings⟩

structure Neat (a : Assembler) : Prop where
  typed : a.Typed
  bufferScope : a.pools.buffer.scope = .buffer
  scratchScope : a.pools.scratch.scope = .scratch
  opened : ∀ body, a.current? = some body → (a.emitter body).Neat

theorem neat_new (name : String) (s : Settings) : (new name s).Neat :=
  ⟨typed_new name s, rfl, rfl, nofun⟩

theorem get_allocateAll_of_ne {ps : Pools} {scope scope' : Scope} (h : scope' ≠ scope) (n : Nat) :
    (allocateAll ps scope n).2.get scope' = ps.get scope' := by
  induction n generalizing ps with
  | zero => rfl
  | succ n ih => exact ih.trans (Pools.get_allocate_of_ne h)

/-- A function begins with pools that start afresh and with empty tables. -/
theorem Neat.begun (h : a.Neat) (name : String) (params : List Param) (result : Option Ty) :
    (a.begun name params result).Neat := by
  have htyped := typed_begun h.typed name params result
  have hpool : ∀ scope : Scope, scope ≠ .input → scope ≠ .output →
      (allocateAll (allocateAll a.pools.resetFunction .input params.length).2 .output
        result.toList.length).2.get scope = a.pools.resetFunction.get scope :=
    fun scope hi ho => (get_allocateAll_of_ne ho _).trans (get_allocateAll_of_ne hi _)
  have hbuffer := hpool .buffer (by decide) (by decide)
  have hscratch := hpool .scratch (by decide) (by decide)
  have hbufferScope := (congrArg Pool.scope hbuffer).trans h.bufferScope
  have hscratchScope := (congrArg Pool.scope hscratch).trans h.scratchScope
  refine ⟨htyped, hbufferScope, hscratchScope, fun body hbody => ?_⟩
  have hreset : ∀ {p q : Pool}, p = q.reset → p.Sound := by
    rintro _ q rfl
    exact ⟨List.nodup_nil, nofun⟩
  obtain rfl := Option.some.inj (current?_eq_some_iff.1 hbody).2
  obtain ⟨args, types, hnew⟩ := Body.new_eq ⟨a.declarations.functions.size⟩ name params result
  rw [hnew]
  exact ⟨⟨hreset hbuffer, hbufferScope, nofun, nofun, nofun, _, rfl⟩, hreset hscratch, hscratchScope,
    nofun⟩

theorem Neat.beginFunction {name : String} {params : List Param} {result : Option Ty} {u : Unit}
    (h : a.Neat) (hbegin : Succeeds (beginFunction name params result) a u a') : a'.Neat := by
  obtain ⟨-, rfl⟩ := succeeds_beginFunction.1 hbegin
  exact h.begun name params result

/-- A call on the open function is a call on its emitter. -/
theorem emitter_emit (hbody : a.current? = some body) (c : Call) :
    ((Request.emit c).perform.run.run a).2.current? =
      some (c.perform.run.run (a.emitter body)).2.body ∧
    ((Request.emit c).perform.run.run a).2.emitter (c.perform.run.run (a.emitter body)).2.body =
      (c.perform.run.run (a.emitter body)).2 := by
  have hsettings := (retains_any c (a.emitter body)).settings
  change ((Assembler.emit c.perform).run.run a).2.current? = _ ∧
    ((Assembler.emit c.perform).run.run a).2.emitter _ = _
  rw [run_emit_of_opened (m := c.perform) (e := (c.perform.run.run (a.emitter body)).2) hbody rfl]
  generalize (c.perform.run.run (a.emitter body)).2 = e at hsettings ⊢
  obtain ⟨b, declarations, pools, settings⟩ := e
  obtain rfl : settings = a.settings := hsettings
  exact ⟨current?_of_body hbody rfl rfl, rfl⟩

/-- Whatever is requested, places and variables belong to one slot each. -/
theorem Neat.perform (h : a.Neat) (r : Request) : (r.perform.run.run a).2.Neat := by
  have htyped := typed_perform h.typed r
  cases r with
  | settings s =>
      rw [run_settings] at htyped ⊢
      rcases setSettings_cases a s with ⟨hstage, hset⟩ | ⟨-, hset⟩
      · rw [hset] at htyped ⊢
        refine ⟨htyped, h.bufferScope, h.scratchScope, fun body hbody => ?_⟩
        cases hstage.symm.trans (current?_eq_some_iff.1 hbody).1
      · rw [hset]
        exact h
  | begin name params result =>
      rw [run_begin]
      rcases a.beginFunction_cases name params result with ⟨-, -, hbegin⟩ | ⟨-, f, hbegin⟩
      · rw [hbegin]
        exact h.begun name params result
      · rw [hbegin]
        exact h
  | emit c =>
      by_cases hopen : ∃ body, a.current? = some body
      · obtain ⟨body, hbody⟩ := hopen
        obtain ⟨hcurrent, hemitter⟩ := emitter_emit hbody c
        have hneat := (retains_any c (a.emitter body)).neat (h.opened body hbody)
        rw [← hemitter] at hneat
        refine ⟨htyped, hneat.scope, hneat.scratchScope, fun b hb => ?_⟩
        obtain rfl := Option.some.inj (hcurrent.symm.trans hb)
        exact hneat
      · have hrun := run_emit_of_not_opened c.perform fun body hbody => hopen ⟨body, hbody⟩
        change ((Assembler.emit c.perform).run.run a).2.Neat
        rw [hrun]
        exact h
  | finish =>
      rw [run_finish] at htyped ⊢
      by_cases hopen : ∃ body, a.current? = some body
      · obtain ⟨body, hbody⟩ := hopen
        rcases run_endFunction_cases h.typed hbody with ⟨-, -, w, hend⟩ | ⟨-, hstage, -, hkeeps, -⟩
        · rw [hend]
          exact h
        · have hpools : (endFunction.run.run a).2.pools = a.pools := hkeeps.pools
          refine ⟨htyped, hpools ▸ h.bufferScope, hpools ▸ h.scratchScope, fun b hb => ?_⟩
          cases hstage.symm.trans (current?_eq_some_iff.1 hb).1
      · rw [run_endFunction_of_not_opened fun b hb => hopen ⟨b, hb⟩]
        exact h

theorem Neat.after (h : a.Neat) (rs : List Request) : (a.after rs).Neat := by
  induction rs generalizing a with
  | nil => exact h
  | cons r rs ih => exact ih (h.perform r)

theorem current?_after_emit (hbody : a.current? = some body) :
    (a.after (calls.map .emit)).current? = some ((a.emitter body).after calls).body := by
  induction calls generalizing a body with
  | nil => exact hbody
  | cons c cs ih =>
      obtain ⟨hcurrent, hemitter⟩ := emitter_emit hbody c
      have hrest := ih hcurrent
      rw [hemitter] at hrest
      exact hrest

/-- **Storage that has been handed out is never shared.** A function is begun in a module on which
anything has been requested before, and calls are made on its emitter, granted or refused, of which
none gives back what it does not hold. Then the buffers that have not been released have places of their
own, each as large as the buffer, and the scratch values that have not been freed, also those that open
loops count with, have variables of their own, of the type of their initial values. A place that there
was after some of the calls is there with the same size after all of them. -/
theorem storage_apart_of_recording {name f : String} {settings : Settings} {requests : List Request}
    {params : List Param} {result : Option Ty}
    (hbegin : Succeeds (beginFunction f params result) ((new name settings).after requests) () a)
    (hbody : a.current? = some body)
    (hcalls : ({} : Ledger).PermitsAll (a.emitter body) calls) :
    (a.after (calls.map .emit)).current? = some ((a.emitter body).after calls).body ∧
    (({} : Ledger).after (a.emitter body) calls).Apart ((a.emitter body).after calls).body ∧
    ∀ n, Prefix ((a.emitter body).after (calls.take n)).body.stack
      ((a.emitter body).after calls).body.stack := by
  have hneat := (((neat_new name settings).after requests).beginFunction hbegin).opened body hbody
  have hempty : ({} : Ledger).Sound (a.emitter body) :=
    ⟨hneat, nofun, List.nodup_nil, nofun, nofun, List.nodup_nil, nofun⟩
  refine ⟨current?_after_emit hbody, (hempty.after hcalls).apart, fun n => ?_⟩
  have hsplit := congrArg (a.emitter body).after (List.take_append_drop n calls)
  rw [Emitter.after, List.foldl_append] at hsplit
  rw [← hsplit]
  exact (Emitter.within_after _ _).stack

def blank : Body where
  id := ⟨0⟩
  name := "f"
  params := []
  result := none
  blocks := #[⟨"entry", #[], none⟩]
  layout := [⟨0⟩]

def started : Assembler :=
  { new "m" with
    declarations := { functions := #[⟨"f", [], none, true⟩] }
    body := some blank
    stage := .opened }

def counting : LoopParts := ⟨⟨2⟩, ⟨3⟩, ⟨4⟩, ⟨5⟩, ⟨.scratch, 1⟩, ⟨1⟩, ⟨2⟩, ⟨3⟩, ⟨4⟩⟩

/-- While the loop is open, a buffer makes room for a larger one, and a scratch value for one of another
type. -/
def replacing : List Call := [.stackBuffer .i32 4, .literal (.i32 7), .scratch ⟨0⟩,
  .beginCount .idle 3, .stackBuffer .f64 1, .releaseBuffer ⟨⟨.buffer, 0⟩, ⟨0⟩, .i32, 4⟩,
  .stackBuffer .i32 8, .freeScratch ⟨.scratch, 0⟩, .literal (.bool true), .scratch ⟨7⟩,
  .finish (.opened counting)]

theorem permits_replacing : ({} : Ledger).PermitsAll (started.emitter blank) replacing := by
  have hbuffers : (({} : Ledger).after (started.emitter blank) (replacing.take 5)).buffers =
      [⟨⟨.buffer, 1⟩, ⟨1⟩, .f64, 1⟩, ⟨⟨.buffer, 0⟩, ⟨0⟩, .i32, 4⟩] := by cbv
  have hscalars : (({} : Ledger).after (started.emitter blank) (replacing.take 7)).scalars =
      [⟨⟨.scratch, 1⟩, ⟨1⟩, some .i32, some counting⟩, ⟨⟨.scratch, 0⟩, ⟨0⟩, some .i32, none⟩] := by cbv
  have hloop : (({} : Ledger).after (started.emitter blank) (replacing.take 10)).scalars =
      [⟨⟨.scratch, 0⟩, ⟨2⟩, some .bool, none⟩, ⟨⟨.scratch, 1⟩, ⟨1⟩, some .i32, some counting⟩] := by cbv
  refine ⟨trivial, trivial, trivial, trivial, trivial, ?_, trivial, ?_, trivial, trivial, ?_, trivial⟩
  · change _ ∈ (({} : Ledger).after (started.emitter blank) (replacing.take 5)).buffers
    rw [hbuffers]
    decide
  · intro _
    change ∃ r ∈ (({} : Ledger).after (started.emitter blank) (replacing.take 7)).scalars, _
    rw [hscalars]
    exact ⟨_, List.mem_cons_of_mem _ List.mem_cons_self, rfl, rfl⟩
  · change ∃ r ∈ (({} : Ledger).after (started.emitter blank) (replacing.take 10)).scalars, _
    rw [hloop]
    exact ⟨_, List.mem_cons_of_mem _ List.mem_cons_self, rfl⟩

theorem storage_apart_replacing :
    Succeeds (beginFunction "f" [] none) ((new "m").after []) () started ∧
    ({} : Ledger).PermitsAll (started.emitter blank) replacing ∧
    (({} : Ledger).after (started.emitter blank) replacing).Apart
      ((started.emitter blank).after replacing).body := by
  have hbegin : Succeeds (beginFunction "f" [] none) ((new "m").after []) () started := by cbv
  exact ⟨hbegin, permits_replacing,
    (storage_apart_of_recording hbegin rfl permits_replacing).2.1⟩

example : ({} : Ledger).after (started.emitter blank) replacing =
    ⟨[⟨⟨.buffer, 0⟩, ⟨2⟩, .i32, 8⟩, ⟨⟨.buffer, 1⟩, ⟨1⟩, .f64, 1⟩],
      [⟨⟨.scratch, 0⟩, ⟨2⟩, some .bool, none⟩]⟩ := by cbv

end Assembler

end Dataflow.Code
