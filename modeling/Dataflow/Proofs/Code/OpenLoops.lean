import Dataflow.Proofs.Code.Ledger
import Dataflow.Proofs.Code.LoopRuns

/-!
# Loops that have not been ended

Two blocks of a loop are not told to anybody before its end: the one in which the variable is raised and
the one behind the loop. No call but the end of the loop enters them, so that both stay open until
then, in whatever order blocks are entered and closed, and loops begun. A function with an open block
besides the current one cannot be ended.
-/

namespace Dataflow.Code

/-- What is known of an open function from the outside: the blocks that anybody has been told of, and
the loops that have been begun and not been ended, whatever has become of their emitters. -/
structure Session where
  blocks : List BlockId := [⟨0⟩]
  running : List LoopParts := []

namespace Session

/-- Blocks are entered that the caller has been told of, slots given back that no loop counts with, and
loops ended that run. -/
def Permits (S : Session) : Call → Prop
  | .switchTo id => id ∈ S.blocks
  | .release slot => ∀ p ∈ S.running, p.slot ≠ slot
  | .freeScratch slot => ∀ p ∈ S.running, p.slot ≠ slot
  | .releaseBuffer buffer => ∀ p ∈ S.running, p.slot ≠ buffer.slot
  | .finish (.opened parts) => parts ∈ S.running
  | _ => True

def tell (S : Session) (id : BlockId) : Session := { S with blocks := id :: S.blocks }

def start (S : Session) (p : LoopParts) : Session := { S with running := p :: S.running }

def book (S : Session) : Call → Reply → Session
  | .createBlock _, .block id => S.tell id
  | .beginRange .., .loop (.opened p) => S.start p
  | .beginCount .., .loop (.opened p) => S.start p
  | .beginDynamic .., .loop (.opened p) => S.start p
  | .finish (.opened p), _ => { S with running := S.running.erase p }
  | _, _ => S

/-- The session behind a call, granted or refused. Anybody may ask for the current block. -/
def next (S : Session) (e : Emitter) (c : Call) : Session :=
  let S' := match (c.perform.run.run e).1 with
    | .ok reply => S.book c reply
    | .error _ => S
  S'.tell (c.perform.run.run e).2.body.current

def after (S : Session) (e : Emitter) : List Call → Session
  | [] => S
  | c :: cs => (S.next e c).after (c.perform.run.run e).2 cs

def PermitsAll (S : Session) (e : Emitter) : List Call → Prop
  | [] => True
  | c :: cs => S.Permits c ∧ (S.next e c).PermitsAll (c.perform.run.run e).2 cs

open Emitter Emit

variable {S : Session} {e e' : Emitter} {c : Call} {p : LoopParts} {id : BlockId} {reply : Reply}
  {slot : Slot} {f : Fault} {l : CountedLoop}

def Hides (S : Session) (id : BlockId) : Prop := ∃ p ∈ S.running, id ∈ [p.increment, p.after]

def Holds (S : Session) (slot : Slot) : Prop := ∃ p ∈ S.running, p.slot = slot

def Apart (p q : LoopParts) : Prop :=
  p.slot ≠ q.slot ∧ ∀ id ∈ [p.increment, p.after], id ∉ [q.increment, q.after]

theorem Apart.symm {p q : LoopParts} (h : Apart p q) : Apart q p :=
  ⟨h.1.symm, fun id hq hp => h.2 id hp hq⟩

structure Sound (S : Session) (e : Emitter) : Prop where
  neat : e.Neat
  running : ∀ p ∈ S.running, e.Running p
  known : ∀ id ∈ S.blocks, ∃ k, e.body.blocks[id.index]? = some k
  hidden : ∀ id, S.Hides id → id ∉ S.blocks
  apart : S.running.Pairwise Apart

namespace Sound

theorem not_hides_current (h : S.Sound e) : ¬ S.Hides e.body.current :=
  fun ⟨p, hp, hid⟩ => (h.running p hp).outside _ hid rfl

theorem lt_of_hides (h : S.Sound e) (hid : S.Hides id) : id.index < e.body.blocks.size := by
  obtain ⟨p, hp, hid⟩ := hid
  obtain ⟨k, hk, -⟩ := (h.running p hp).opened id hid
  exact (Array.getElem?_eq_some_iff.1 hk).1

theorem keep (h : S.Sound e) (ha : e.Avoids S.Hides e') (hr : e.Retains S.Holds e') : S.Sound e' where
  neat := hr.neat h.neat
  running p hp := (h.running p hp).keep ha (fun _ hid => ⟨p, hp, hid⟩) hr ⟨p, hp, rfl⟩
  known id hid := by
    obtain ⟨k, hk⟩ := h.known id hid
    obtain ⟨k', hk', -⟩ := hr.body.blocks _ k hk
    exact ⟨k', hk'⟩
  hidden := h.hidden
  apart := h.apart

theorem tell (h : S.Sound e) (hk : ∃ k, e.body.blocks[id.index]? = some k) (hid : ¬ S.Hides id) :
    (S.tell id).Sound e where
  neat := h.neat
  running := h.running
  known := List.forall_mem_cons.2 ⟨hk, h.known⟩
  hidden id' hid' hmem := by
    rcases List.mem_cons.1 hmem with rfl | hmem
    · exact hid hid'
    · exact h.hidden id' hid' hmem
  apart := h.apart

/-- The blocks of a new loop have not been there before, and its slot was not in use. -/
theorem start (h : S.Sound e) (hkept : S.Sound e') (hp : CountedLoop.Starts e e' p) :
    (S.start p).Sound e' where
  neat := hkept.neat
  running := List.forall_mem_cons.2 ⟨hp.running, hkept.running⟩
  known := hkept.known
  hidden := by
    rintro id ⟨q, hq, hid⟩ hmem
    rcases List.mem_cons.1 hq with rfl | hq
    · obtain ⟨k, hk⟩ := h.known id hmem
      exact Nat.not_lt_of_le (hp.fresh id hid) (Array.getElem?_eq_some_iff.1 hk).1
    · exact h.hidden id ⟨q, hq, hid⟩ hmem
  apart := by
    refine List.pairwise_cons.2 ⟨fun q hq => ⟨?_, fun id hid hid' => ?_⟩, h.apart⟩
    · exact ((hp.slot _ _ (h.running q hq).bound)).symm
    · exact Nat.not_lt_of_le (hp.fresh id hid) (h.lt_of_hides ⟨q, hq, hid'⟩)

/-- The loop that is ended shares nothing with the others. -/
theorem finish (h : S.Sound e) (hp : p ∈ S.running)
    (hs : Succeeds (CountedLoop.opened p).finish e l e') :
    ({ S with running := S.running.erase p } : Session).Sound e' := by
  obtain ⟨l₁, l₂, -, hrunning, herase⟩ := List.exists_erase_eq hp
  have hapart := h.apart
  rw [hrunning, List.pairwise_middle Apart.symm] at hapart
  obtain ⟨hothers, hrest⟩ := List.pairwise_cons.1 hapart
  have hothers : ∀ q ∈ S.running.erase p, Apart p q := by
    rw [herase]
    exact hothers
  have hsub : ∀ q ∈ S.running.erase p, q ∈ S.running := fun q hq => List.mem_of_mem_erase hq
  have havoids : e.Avoids (· ∉ [p.increment, p.after]) e' := by
    refine (leaves_finish fun q hq => ?_).of_succeeds hs
    obtain rfl := CountedLoop.opened.inj hq
    exact ⟨avoids_switchTo (by simp), avoids_switchTo (by simp), fun _ => avoids_release _⟩
  have hretains : e.Retains (· ≠ p.slot) e' := by
    refine (leaves_finish fun q hq => ?_).of_succeeds hs
    obtain rfl := CountedLoop.opened.inj hq
    exact ⟨leaves_switchTo _, leaves_switchTo _, fun _ => retains_release fun _ h => h⟩
  refine ⟨hretains.neat h.neat, fun q hq => ?_, fun id hid => ?_, ?_, ?_⟩
  · exact (h.running q (hsub q hq)).keep havoids (fun id hid hid' => (hothers q hq).2 id hid' hid)
      hretains (hothers q hq).1.symm
  · obtain ⟨k, hk⟩ := h.known id hid
    obtain ⟨k', hk', -⟩ := hretains.body.blocks _ k hk
    exact ⟨k', hk'⟩
  · rintro id ⟨q, hq, hid⟩
    exact h.hidden id ⟨q, hsub q hq, hid⟩
  · exact h.apart.sublist List.erase_sublist

end Sound

section Calls

theorem Permits.frees (h : S.Permits c) (hc : c.frees? = some slot) : ∀ s, S.Holds s → s ≠ slot := by
  rintro _ ⟨p, hp, rfl⟩
  cases c with
  | release _ =>
      cases hc
      exact h p hp
  | releaseBuffer _ =>
      cases hc
      exact h p hp
  | _ => cases hc

theorem Permits.freesScratch (h : S.Permits c) (hc : c.freesScratch? = some slot)
    (hfinish : ∀ p, c ≠ .finish (.opened p)) : ∀ s, S.Holds s → s ≠ slot := by
  rintro _ ⟨p, hp, rfl⟩
  cases c with
  | freeScratch _ =>
      cases hc
      exact h p hp
  | finish l =>
      cases l with
      | opened q => exact absurd rfl (hfinish q)
      | _ => cases hc
  | _ => cases hc

/-- A call that ends no loop keeps all of them running, granted or refused. -/
theorem Sound.call (h : S.Sound e) (hc : S.Permits c) (hfinish : ∀ p, c ≠ .finish (.opened p)) :
    S.Sound (c.perform.run.run e).2 := by
  have hretains : e.Retains S.Holds (c.perform.run.run e).2 :=
    leaves_perform (fun _ hs => retains_release (hc.frees hs))
      (fun _ hs _ => retains_release (hc.freesScratch hs hfinish)) (fun _ _ => Frames.bufferAddress _) e
  have hold : ∀ {e'}, e.Avoids (·.index < e.body.blocks.size) e' → e.Avoids S.Hides e' :=
    fun ha => ha.mono fun _ => h.lt_of_hides
  refine h.keep ?_ hretains
  -- Blocks are entered by a switch, to one that is not hidden, and by the beginning of a loop.
  cases c with
  | switchTo id => exact (avoids_switchTo fun hid => h.hidden id hid hc).map e
  | beginRange l start bound step =>
      rw [Call.perform, snd_run_map]
      exact hold (CountedLoop.avoids_beginRange l start bound step e)
  | beginCount l count =>
      rw [Call.perform, snd_run_map]
      exact hold (CountedLoop.avoids_beginRange l 0 count 1 e)
  | beginDynamic l count =>
      rw [Call.perform, snd_run_map]
      exact hold (CountedLoop.avoids_beginDynamic l count e)
  | finish l =>
      cases l with
      | opened p => exact absurd rfl (hfinish p)
      | idle => exact (Leaves.throw _).map e
      | closed p => exact (Leaves.throw _).map e
  | _ => exact avoids_perform rfl e

/-- A granted call leaves the session in order. -/
theorem Sound.book (h : S.Sound e) (hc : S.Permits c) (hs : Succeeds c.perform e reply e') :
    (S.book c reply).Sound e' := by
  have hkept : (∀ p, c ≠ .finish (.opened p)) → S.Sound e' := by
    intro hfinish
    have hcall := h.call hc hfinish
    rwa [show c.perform.run.run e = _ from hs] at hcall
  cases c with
  | createBlock label =>
      have hkept := hkept nofun
      obtain ⟨id, hcreate, rfl⟩ := succeeds_map.1 hs
      obtain ⟨-, rfl, -, label, hlabel⟩ := adds_createBlock hcreate
      exact hkept.tell ⟨_, hlabel⟩ fun hid => Nat.lt_irrefl _ (h.lt_of_hides hid)
  | beginRange l start bound step =>
      have hkept := hkept nofun
      obtain ⟨l', hbegin, rfl⟩ := succeeds_map.1 hs
      obtain ⟨p, rfl, hp⟩ := CountedLoop.starts_beginRange h.neat hbegin
      exact h.start hkept hp
  | beginCount l count =>
      have hkept := hkept nofun
      obtain ⟨l', hbegin, rfl⟩ := succeeds_map.1 hs
      obtain ⟨p, rfl, hp⟩ := CountedLoop.starts_beginRange h.neat hbegin
      exact h.start hkept hp
  | beginDynamic l count =>
      have hkept := hkept nofun
      obtain ⟨l', hbegin, rfl⟩ := succeeds_map.1 hs
      obtain ⟨p, rfl, hp⟩ := CountedLoop.starts_beginDynamic h.neat hbegin
      exact h.start hkept hp
  | finish l =>
      cases l with
      | opened p =>
          obtain ⟨_, hfinish, -⟩ := succeeds_map.1 hs
          exact h.finish hc hfinish
      | _ => exact hkept nofun
  | _ => exact hkept nofun

/-- A refused call ends no loop: what may be refused of its end is the jump out of the body. -/
theorem Sound.refuse (h : S.Sound e) (hc : S.Permits c) (hf : Fails c.perform e f e') : S.Sound e' := by
  by_cases hfinish : ∃ p, c = .finish (.opened p)
  · obtain ⟨p, rfl⟩ := hfinish
    obtain rfl := CountedLoop.eq_of_fails_finish (h.running p hc) h.neat (fails_map.1 hf)
    exact h
  · have hcall := h.call hc fun p hp => hfinish ⟨p, hp⟩
    rwa [show c.perform.run.run e = _ from hf] at hcall

theorem Sound.next (h : S.Sound e) (hc : S.Permits c) : (S.next e c).Sound (c.perform.run.run e).2 := by
  unfold Session.next
  have htell : ∀ {S' : Session} {e'}, S'.Sound e' → (S'.tell e'.body.current).Sound e' :=
    fun hS => hS.tell hS.neat.current hS.not_hides_current
  cases hr : (c.perform.run.run e).1 with
  | ok reply => exact htell (h.book hc (Prod.ext hr rfl))
  | error f => exact htell (h.refuse hc (Prod.ext hr rfl))

theorem Sound.after {calls : List Call} (h : S.Sound e) (hcalls : S.PermitsAll e calls) :
    (S.after e calls).Sound (e.after calls) := by
  induction calls generalizing S e with
  | nil => exact h
  | cons c cs ih => exact ih (h.next hcalls.1) hcalls.2

end Calls

end Session

namespace Assembler

open Emit

variable {a : Assembler} {body : Body} {calls : List Call}

/-- A function with two open blocks cannot be ended. -/
theorem fails_endFunction_of_unterminated {i j : BlockId} (hb : a.current? = some body)
    (hij : i ≠ j) (hi : i ∈ body.unterminated) (hj : j ∈ body.unterminated) :
    ∃ w, Fails endFunction a (.sequencing w) a := by
  rcases implicitReturn_cases body with ⟨hnone, -⟩ | ⟨-, hlast, -⟩ | ⟨-, -, labels, herror⟩
  · rw [hnone] at hi
    cases hi
  · rw [hlast, List.mem_singleton] at hi hj
    exact absurd (hi.trans hj.symm) hij
  · exact ⟨_, run_endFunction_of_error hb herror⟩

/-- **A loop that has not been ended is always caught.** A function is begun in a module on which
anything has been requested before, and calls are made on its emitter and on those of loops in it,
granted or refused, in any order: blocks are entered that the caller has been told of, and closed, loops
begun, ended and forgotten, and no slot is given back that a loop counts with. As long as some loop that
has been begun has not been ended, the end of the function is refused, and the function stays open. -/
theorem endFunction_of_running {name f : String} {settings : Settings} {requests : List Request}
    {params : List Param} {result : Option Ty}
    (hbegin : Succeeds (beginFunction f params result) ((new name settings).after requests) () a)
    (hbody : a.current? = some body)
    (hcalls : ({} : Session).PermitsAll (a.emitter body) calls)
    (hrunning : (({} : Session).after (a.emitter body) calls).running ≠ []) :
    (a.after (calls.map .emit)).stage = .opened ∧
    ∃ w, endFunction.run.run (a.after (calls.map .emit)) =
      (.error (.sequencing w), a.after (calls.map .emit)) := by
  have hneat := (((neat_new name settings).after requests).beginFunction hbegin).opened body hbody
  have hentry : ∃ k, body.blocks[0]? = some k := by
    obtain ⟨k, hk⟩ := hneat.current
    exact ⟨_, Array.getElem?_eq_getElem (Nat.zero_lt_of_lt (Array.getElem?_eq_some_iff.1 hk).1)⟩
  have hstart : ({} : Session).Sound (a.emitter body) :=
    ⟨hneat, nofun, List.forall_mem_singleton.2 hentry, fun _ ⟨_, hp, _⟩ => (nomatch hp), .nil⟩
  obtain ⟨p, hp⟩ := List.exists_mem_of_ne_nil _ hrunning
  have hrun := (hstart.after hcalls).running p hp
  have hcurrent : (Assembler.after _ (calls.map .emit)).current? = _ := current?_after_emit hbody
  obtain ⟨w, hend⟩ := fails_endFunction_of_unterminated hcurrent hrun.ne
    (Body.mem_unterminated.2 (hrun.opened p.increment (by simp)))
    (Body.mem_unterminated.2 (hrun.opened p.after (by simp)))
  exact ⟨(current?_eq_some_iff.1 hcurrent).1, w, hend⟩

def outer : LoopParts := ⟨⟨2⟩, ⟨3⟩, ⟨4⟩, ⟨5⟩, ⟨.scratch, 0⟩, ⟨0⟩, ⟨1⟩, ⟨2⟩, ⟨3⟩⟩

def inner : LoopParts := ⟨⟨8⟩, ⟨9⟩, ⟨10⟩, ⟨11⟩, ⟨.scratch, 1⟩, ⟨1⟩, ⟨7⟩, ⟨8⟩, ⟨9⟩⟩

/-- The emitter of a loop is cleared and used for another one, the body of the first one returns, and
then it is too late to end it. -/
def forgetting : List Call := [.beginCount .idle 3, .createBlock "exit", .beginCount .idle 2,
  .finish (.opened inner), .jump ⟨6⟩, .switchTo ⟨6⟩, .returnVoid, .finish (.opened outer)]

theorem permits_forgetting : ({} : Session).PermitsAll (started.emitter blank) forgetting := by
  have hinner : (({} : Session).after (started.emitter blank) (forgetting.take 3)).running =
      [inner, outer] := by decide +kernel
  have hblocks : (({} : Session).after (started.emitter blank) (forgetting.take 5)).blocks =
      [⟨11⟩, ⟨11⟩, ⟨9⟩, ⟨3⟩, ⟨6⟩, ⟨3⟩, ⟨0⟩] := by decide +kernel
  have houter : (({} : Session).after (started.emitter blank) (forgetting.take 7)).running =
      [outer] := by decide +kernel
  refine ⟨trivial, trivial, trivial, ?_, trivial, ?_, trivial, ?_, trivial⟩
  · change inner ∈ (({} : Session).after (started.emitter blank) (forgetting.take 3)).running
    rw [hinner]
    exact List.mem_cons_self
  · change ⟨6⟩ ∈ (({} : Session).after (started.emitter blank) (forgetting.take 5)).blocks
    rw [hblocks]
    decide
  · change outer ∈ (({} : Session).after (started.emitter blank) (forgetting.take 7)).running
    rw [houter]
    exact List.mem_cons_self

/-- The function that has returned from the body of a loop is not ended. -/
theorem endFunction_of_forgetting :
    Succeeds (beginFunction "f" [] none) ((new "m").after []) () started ∧
    ({} : Session).PermitsAll (started.emitter blank) forgetting ∧
    (({} : Session).after (started.emitter blank) forgetting).running = [outer] ∧
    ∃ w, (endFunction.run.run (started.after (forgetting.map .emit))).1 = .error (.sequencing w) := by
  have hbegin : Succeeds (beginFunction "f" [] none) ((new "m").after []) () started := by cbv
  have hrunning : (({} : Session).after (started.emitter blank) forgetting).running = [outer] := by decide +kernel
  obtain ⟨-, w, hend⟩ := endFunction_of_running hbegin rfl permits_forgetting
    (hrunning ▸ List.cons_ne_nil _ _)
  exact ⟨hbegin, permits_forgetting, hrunning, w, congrArg Prod.fst hend⟩

end Assembler

end Dataflow.Code
