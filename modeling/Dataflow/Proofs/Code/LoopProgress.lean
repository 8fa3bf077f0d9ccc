import Dataflow.Proofs.Code.Progress

/-!
# Counted loops can be recorded

Behind straight-line code a loop can be begun, whose body is open then, and ended, as long as the body
is straight-line code again. Behind the loop the recording is where it was before it: in a last block
that no run gets past.
-/

namespace Dataflow.Code

open Emit

structure Emitter.Enters (e e' : Emitter) (t : Terminator) (next : BlockId) : Prop
    extends Moves e e' next where
  proper : e'.Proper
  pool : e'.pools.scratch = e.pools.scratch
  size : e'.body.blocks.size = e.body.blocks.size
  below : ∀ g, e.body.Below e.body.current.index g → (∀ id ∈ t.targets, id.index ≤ g) →
    e'.body.Below next.index g

namespace Emit

variable {α : Type} {e e' : Emitter} {v : ValueId} {Q : α → Emitter → Prop} {k : Emit α}
  {next target : BlockId}

theorem ends_createBlock (he : e.Proper) (label : String) :
    Ends (createBlock label) e fun id e' => e'.Proper ∧ e.Adds e' ∧ id = ⟨e.body.blocks.size⟩ ∧
      e'.body.blocks.size = e.body.blocks.size + 1 := by
  have hm : Succeeds (createBlock label) e ⟨e.body.blocks.size⟩
      { e with body := (e.body.newBlock label).2 } := succeeds_createBlock.2 ⟨rfl, rfl⟩
  obtain ⟨hadds, hid, hsize, -⟩ := adds_createBlock hm
  have htyped := ((checks_createBlock label).of_succeeds he.typed hm).1
  exact ⟨_, _, hm, ⟨htyped, hadds.tidy he.tidy, he.sound, he.regular, he.lined.newBlock label,
    he.single, he.entry, he.literals, he.named, he.scratch, he.scope⟩, hadds, hid, hsize⟩

/-- The current block can be closed and the next one entered. -/
theorem exists_enters {t : Terminator} {m : Emit Unit} (he : e.Proper)
    (hm : ∀ b, e.body.terminate t = .ok b → Succeeds m e () { e with body := b })
    (ht : Checks m e fun _ _ => True) (huses : ∀ v ∈ t.uses, ∃ ty, e.Sees v ty)
    (hfirst : ⟨0⟩ ∉ t.targets) (hnext : next.index = e.body.current.index + 1)
    (hlt : next.index < e.body.blocks.size) :
    ∃ e₁ e', Succeeds m e () e₁ ∧ Succeeds (switchTo next) e₁ () e' ∧ e.Enters e' t next := by
  obtain ⟨b, hb, ho⟩ := he.lined.exists_terminate
    (fun v hv => ⟨(huses v hv).choose_spec.lt, (huses v hv).choose_spec.visible⟩) hfirst
  obtain ⟨b', hb', hlined⟩ := he.lined.exists_switchTo hb ho hnext hlt
  have hm₁ := hm b hb
  have hm₂ : Succeeds (switchTo next) { e with body := b } () { e with body := b' } :=
    succeeds_switchTo.2 ⟨b', hb', rfl⟩
  have hmoves := (closes_of_terminate hb hm₂).toMoves
  have htyped := ((checks_switchTo next).of_succeeds (ht.of_succeeds he.typed hm₁).1 hm₂).1
  obtain ⟨-, layout, rfl⟩ := Body.switchTo_eq_ok hb'
  obtain ⟨hvalues, hsize, hname⟩ : b.valueTypes = e.body.valueTypes ∧
      b.blocks.size = e.body.blocks.size ∧ b.name = e.body.name := by
    obtain ⟨-, rfl⟩ := Body.terminate_eq_ok_iff.1 hb
    exact ⟨rfl, Array.size_modify, rfl⟩
  refine ⟨_, _, hm₁, hm₂, hmoves, ⟨htyped, hmoves.tidy he.tidy, he.sound, he.regular, ?_, he.single,
    ?_, he.literals, he.named, he.scratch, he.scope⟩, rfl, hsize, fun g hg htargets => ?_⟩
  · exact hvalues ▸ hlined
  · dsimp only
    rw [hname]
    exact he.entry
  · exact hnext ▸ (hg.terminate hb htargets).mono (Body.within_switchTo hb')

theorem succeeds_block {id : BlockId} (h : id.index < e.body.blocks.size) :
    Succeeds (check (e.body.block id)) e e.body.blocks[id.index] e :=
  succeeds_check.2 ⟨Body.block_eq_ok_iff.2 (Array.getElem?_eq_getElem h), rfl⟩

theorem ends_jump (he : e.Proper) (htarget : 0 < target.index)
    (htarget' : target.index < e.body.blocks.size) (hnext : next.index = e.body.current.index + 1)
    (hlt : next.index < e.body.blocks.size)
    (hk : ∀ e', e.Enters e' (.jump target) next → Ends k e' Q) :
    Ends (do jump target; switchTo next; k) e Q := by
  have hm : ∀ b, e.body.terminate (.jump target) = .ok b →
      Succeeds (jump target) e () { e with body := b } := by
    intro b hb
    refine succeeds_bind.2 ⟨_, _, succeeds_body.2 ⟨rfl, rfl⟩, ?_⟩
    exact succeeds_bind.2 ⟨_, _, succeeds_block htarget', succeeds_terminate.2 ⟨b, hb, rfl⟩⟩
  have hfirst : (⟨0⟩ : BlockId) ∉ (Terminator.jump target).targets := fun h => by
    obtain rfl := List.mem_singleton.1 h
    exact Nat.lt_irrefl 0 htarget
  obtain ⟨e₁, e', h₁, h₂, henters⟩ := exists_enters he hm (checks_jump target) nofun hfirst hnext hlt
  exact .after h₁ (.after h₂ (hk e' henters))

theorem ends_branch {target' : BlockId} (he : e.Proper) (hv : e.Sees v .bool)
    (htarget : 0 < target.index) (htarget' : 0 < target'.index)
    (hblock : target.index < e.body.blocks.size) (hblock' : target'.index < e.body.blocks.size)
    (hnext : next.index = e.body.current.index + 1) (hlt : next.index < e.body.blocks.size)
    (hk : ∀ e', e.Enters e' (.branch v target target') next → Ends k e' Q) :
    Ends (do branch v target target'; switchTo next; k) e Q := by
  have hm : ∀ b, e.body.terminate (.branch v target target') = .ok b →
      Succeeds (branch v target target') e () { e with body := b } := by
    intro b hb
    refine succeeds_bind.2 ⟨_, _, succeeds_expectType_of_sees hv, ?_⟩
    refine succeeds_bind.2 ⟨_, _, succeeds_body.2 ⟨rfl, rfl⟩, ?_⟩
    refine succeeds_bind.2 ⟨_, _, succeeds_block hblock, ?_⟩
    exact succeeds_bind.2 ⟨_, _, succeeds_block hblock', succeeds_terminate.2 ⟨b, hb, rfl⟩⟩
  have hfirst : (⟨0⟩ : BlockId) ∉ (Terminator.branch v target target').targets := fun h => by
    rcases List.mem_pair.1 h with rfl | rfl
    · exact Nat.lt_irrefl 0 htarget
    · exact Nat.lt_irrefl 0 htarget'
  obtain ⟨e₁, e', h₁, h₂, henters⟩ := exists_enters he hm (checks_branch v target target')
    (List.forall_mem_singleton.2 ⟨_, hv⟩) hfirst hnext hlt
  exact .after h₁ (.after h₂ (hk e' henters))

end Emit

namespace CountedLoop

variable {e e' : Emitter} {p : LoopParts} {n : Nat}

structure Prepared (p : LoopParts) (n : Nat) (e : Emitter) : Prop where
  condition : p.condition = ⟨n + 1⟩
  body : p.body = ⟨n + 2⟩
  increment : p.increment = ⟨n + 3⟩
  after : p.after = ⟨n + 4⟩
  last : e.body.blocks.size = n + 5
  slot : e.pools.scratch.isAllocated p.slot = true
  var : e.typing.HasVar p.var .i32
  steers : ∀ v ∈ [p.step, p.limit, p.bound], e.typing.Has v .i32 ∧ ∀ i > n, e.body.Visible i v

theorem Prepared.mono (h : Prepared p n e) (hw : e.body.Within e'.body)
    (hsize : e'.body.blocks.size = e.body.blocks.size)
    (hpool : e'.pools.scratch = e.pools.scratch) : Prepared p n e' :=
  ⟨h.condition, h.body, h.increment, h.after, hsize.trans h.last, hpool ▸ h.slot,
    hw.varTypes _ _ h.var, fun v hv => ⟨hw.valueTypes _ _ (h.steers v hv).1,
      fun i hi => ((h.steers v hv).2 i hi).mono hw⟩⟩

theorem Prepared.proceeds (h : Prepared p n e) (he : e.Proper) (hp : e.Proceeds e') :
    Prepared p n e' :=
  h.mono hp.body (hp.size_blocks he.tidy) hp.pool

theorem Prepared.enters {t : Terminator} {next : BlockId} (h : Prepared p n e)
    (he : e.Enters e' t next) : Prepared p n e' :=
  h.mono he.body he.size he.pool

/-- A value that steers the loop can be used in the blocks of the loop. -/
theorem Prepared.sees (h : Prepared p n e) (hn : n < e.body.current.index) {v : ValueId}
    (hv : v ∈ [p.step, p.limit, p.bound]) : e.Sees v .i32 :=
  ⟨(h.steers v hv).1, (h.steers v hv).2 _ hn⟩

structure Opened (p : LoopParts) (n : Nat) (e : Emitter) : Prop extends Prepared p n e where
  current : e.body.current = ⟨n + 2⟩
  below : e.body.Below (n + 2) (n + 4)

theorem Opened.proceeds (h : Opened p n e) (he : e.Proper) (hp : e.Proceeds e') : Opened p n e' :=
  ⟨h.toPrepared.proceeds he hp, hp.current.trans h.current, h.below.mono hp.body⟩

/-- Behind the last block there is room for the blocks of a loop. -/
theorem ends_blocks {α : Type} {Q : α → Emitter → Prop} (he : e.Proper) (hl : e.body.Level)
    {c : Nat} (hc : e.body.current.index = c) (labels : Fin 5 → String)
    {k : BlockId → BlockId → BlockId → BlockId → BlockId → Emit α}
    (hk : ∀ e', e'.Proper → e.Adds e' → e'.body.blocks.size = c + 6 →
      Ends (k ⟨c + 1⟩ ⟨c + 2⟩ ⟨c + 3⟩ ⟨c + 4⟩ ⟨c + 5⟩) e' Q) :
    Ends (do
      let init ← createBlock (labels 0)
      let condition ← createBlock (labels 1)
      let body ← createBlock (labels 2)
      let increment ← createBlock (labels 3)
      let after ← createBlock (labels 4)
      k init condition body increment after) e Q := by
  have hlast := hl.last
  rw [hc] at hlast
  refine (ends_createBlock he _).bind fun _ e₁ ⟨he₁, ha₁, hid₁, hn₁⟩ => ?_
  rw [hlast] at hid₁ hn₁
  refine (ends_createBlock he₁ _).bind fun _ e₂ ⟨he₂, ha₂, hid₂, hn₂⟩ => ?_
  rw [hn₁] at hid₂ hn₂
  refine (ends_createBlock he₂ _).bind fun _ e₃ ⟨he₃, ha₃, hid₃, hn₃⟩ => ?_
  rw [hn₂] at hid₃ hn₃
  refine (ends_createBlock he₃ _).bind fun _ e₄ ⟨he₄, ha₄, hid₄, hn₄⟩ => ?_
  rw [hn₃] at hid₄ hn₄
  refine (ends_createBlock he₄ _).bind fun _ e₅ ⟨he₅, ha₅, hid₅, hn₅⟩ => ?_
  rw [hn₄] at hid₅ hn₅
  subst hid₁ hid₂ hid₃ hid₄ hid₅
  exact hk e₅ he₅ ((((ha₁.trans ha₂).trans ha₃).trans ha₄).trans ha₅) hn₅

theorem ends_numbers (he : e.Proper) (step limit bound : Int32) :
    Ends (do
      let stepValue ← literal (.i32 step)
      let limitValue ← literal (.i32 limit)
      return (stepValue, limitValue, ← literal (.i32 bound))) e fun q e' =>
        e.Proceeds e' ∧ ∀ v ∈ [q.1, q.2.1, q.2.2], e'.Sees v .i32 := by
  refine (ends_literal he _).bind fun v e₁ ⟨h₁, hv⟩ => ?_
  refine (ends_literal h₁.proper _).bind fun w e₂ ⟨h₂, hw⟩ => ?_
  refine (ends_literal h₂.proper _).bind fun x e₃ ⟨h₃, hx⟩ => .pure ⟨h₁.trans (h₂.trans h₃), ?_⟩
  refine List.forall_mem_cons.2 ⟨hv.mono (h₂.trans h₃).toStraight, ?_⟩
  exact List.forall_mem_cons.2 ⟨hw.mono h₃.toStraight, List.forall_mem_singleton.2 hx⟩

/-- The variable of a loop and what steers it are made in a block that is a gate. -/
theorem ends_enter (he : e.Proper) (hl : e.body.Level) {c : Nat}
    (hc : e.body.current.index = c) (start step limit bound : Int32) :
    Ends (enter (.i32 start) do
      let stepValue ← literal (.i32 step)
      let limitValue ← literal (.i32 limit)
      return (stepValue, limitValue, ← literal (.i32 bound))) e fun p e' =>
        e'.Proper ∧ e.Grows e' ∧ Prepared p (c + 1) e' ∧ e'.body.current = ⟨c + 1⟩ ∧
          e'.body.Gate (c + 1) := by
  refine ends_blocks he hl hc ![_, _, _, _, _] fun e₁ he₁ h₁ hn₁ => ?_
  have hc₁ : e₁.body.current.index = c := by rw [h₁.current, hc]
  refine ends_jump he₁ (Nat.succ_pos c) (by rw [hn₁]; dsimp only; omega) (by rw [hc₁])
    (by rw [hn₁]; dsimp only; omega) fun e₂ h₂ => ?_
  have hgate : e₂.body.Gate (c + 1) := by
    refine h₂.below (c + 1) ?_ (by simp [Terminator.targets])
    have hlevel := hl.gate
    rw [hc] at hlevel
    rw [hc₁]
    exact (hlevel.mono h₁.body).weaken (Nat.le_succ c)
  refine (ends_literal h₂.proper _).bind fun v e₃ ⟨h₃, hv⟩ => ?_
  refine (ends_scratch h₃.proper hv).bind fun r e₄ ⟨he₄, h₄, hvar, hslot⟩ => ?_
  refine (ends_numbers he₄ step limit bound).bind fun q e₅ ⟨h₅, hq⟩ => ?_
  have hstraight : e₂.Straight e₅ := h₃.toStraight.trans (h₄.trans h₅.toStraight)
  have hcurrent : e₅.body.current = ⟨c + 1⟩ := hstraight.current.trans h₂.current
  have hgate₅ : e₅.body.Gate (c + 1) := hgate.mono hstraight.body
  refine .pure ⟨h₅.proper, (h₁.toGrows.trans h₂.toGrows).trans hstraight.toGrows,
    ⟨rfl, rfl, rfl, rfl, ?_, ?_, h₅.toStraight.hasVar hvar, fun w hw => ?_⟩, hcurrent, hgate₅⟩
  · rw [hstraight.size_blocks h₂.proper.tidy, h₂.size, hn₁]
  · rw [h₅.pool]
    exact hslot
  · obtain ⟨htype, hvisible⟩ := hq w hw
    rw [hcurrent] at hvisible
    exact ⟨htype, fun i hi => hvisible.later hgate₅ hi⟩

theorem ends_test (he : e.Proper) (hp : Prepared p n e) (hcurrent : e.body.current = ⟨n⟩)
    (hgate : e.body.Gate n) :
    Ends (test p) e fun l e' => l = opened p ∧ e'.Proper ∧ e.Grows e' ∧ Opened p n e' := by
  have hlast := hp.last
  obtain ⟨condition, body, increment, after, slot, var, step, limit, bound⟩ := p
  obtain rfl : condition = ⟨n + 1⟩ := hp.condition
  obtain rfl : body = ⟨n + 2⟩ := hp.body
  obtain rfl : increment = ⟨n + 3⟩ := hp.increment
  obtain rfl : after = ⟨n + 4⟩ := hp.after
  refine ends_jump he (Nat.succ_pos n) (by rw [hlast]; dsimp only; omega) (by rw [hcurrent])
    (by rw [hlast]; dsimp only; omega) fun e₁ h₁ => ?_
  have hp₁ := hp.enters h₁
  refine (ends_getVar h₁.proper hp₁.var).bind fun i e₂ ⟨h₂, hi⟩ => ?_
  have hp₂ := hp₁.proceeds h₁.proper h₂
  have hcurrent₂ : e₂.body.current = ⟨n + 1⟩ := h₂.current.trans h₁.current
  have hbound : e₂.Sees bound .i32 := hp₂.sees (by rw [hcurrent₂]; exact Nat.lt_succ_self n) (by simp)
  refine (ends_compare h₂.proper hi hbound nofun).bind fun v e₃ ⟨h₃, hv⟩ => ?_
  have hp₃ := hp₂.proceeds h₂.proper h₃
  have hcurrent₃ : e₃.body.current = ⟨n + 1⟩ := h₃.current.trans hcurrent₂
  have hlast₃ := hp₃.last
  refine ends_branch h₃.proper hv (Nat.succ_pos _) (Nat.succ_pos _) (by rw [hlast₃]; dsimp only; omega)
    (by rw [hlast₃]; dsimp only; omega) (by rw [hcurrent₃]) (by rw [hlast₃]; dsimp only; omega)
    fun e₄ h₄ => .pure ⟨rfl, h₄.proper, ?_, hp₃.enters h₄, h₄.current, ?_⟩
  · exact h₁.toGrows.trans (h₂.toGrows.trans (h₃.toGrows.trans h₄.toGrows))
  · refine h₄.below (n + 4) ?_ (by simp [Terminator.targets])
    have hbelow : e₁.body.Below (n + 1) (n + 4) := by
      refine h₁.below (n + 4) ?_ (by simp [Terminator.targets])
      rw [hcurrent]
      exact Body.Below.weaken hgate (by omega)
    rw [hcurrent₃]
    exact (hbelow.mono h₂.body).mono h₃.body

/-- A loop can be begun that has not been begun yet. -/
theorem ends_begin (he : e.Proper) (hl : e.body.Level) (count : Int32) :
    Ends (idle.begin count) e fun l e' => ∃ p, l = opened p ∧ e'.Proper ∧ e.Grows e' ∧
      Opened p (e.body.current.index + 1) e' := by
  unfold begin beginRange
  refine .refuse (by decide) (.after (b := ()) (succeeds_pure.2 ⟨rfl, rfl⟩) ?_)
  refine (ends_enter he hl rfl 0 1 _ _).bind fun p e₁ ⟨he₁, hgrows, hp, hcurrent, hgate⟩ => ?_
  exact (ends_test he₁ hp hcurrent hgate).imp fun l e₂ ⟨hl, he₂, hgrows', hopened⟩ =>
    ⟨p, hl, he₂, hgrows.trans hgrows', hopened⟩

theorem ends_counter (he : e.Proper) (hp : Opened p n e) :
    Ends (opened p).counter e fun v e' => e.Proceeds e' ∧ e'.Sees v .i32 :=
  ends_getVar he hp.var

/-- A loop whose body is open can be ended. -/
theorem ends_finish (he : e.Proper) (hp : Opened p n e) :
    Ends (opened p).finish e fun _ e' => e'.Proper ∧ e.Grows e' ∧ e'.body.Level := by
  have hlast := hp.last
  have hcurrent := hp.current
  have hbelow := hp.below
  replace hp := hp.toPrepared
  obtain ⟨condition, body, increment, after, slot, var, step, limit, bound⟩ := p
  obtain rfl : condition = ⟨n + 1⟩ := hp.condition
  obtain rfl : body = ⟨n + 2⟩ := hp.body
  obtain rfl : increment = ⟨n + 3⟩ := hp.increment
  obtain rfl : after = ⟨n + 4⟩ := hp.after
  refine ends_jump he (Nat.succ_pos _) (by rw [hlast]; dsimp only; omega) (by rw [hcurrent])
    (by rw [hlast]; dsimp only; omega) fun e₁ h₁ => ?_
  have hp₁ := hp.enters h₁
  have hstep₁ : e₁.Sees step .i32 := hp₁.sees (by rw [h₁.current]; dsimp only; omega) (by simp)
  have hlimit₁ : e₁.Sees limit .i32 := hp₁.sees (by rw [h₁.current]; dsimp only; omega) (by simp)
  have hbound₁ : e₁.Sees bound .i32 := hp₁.sees (by rw [h₁.current]; dsimp only; omega) (by simp)
  refine (ends_getVar h₁.proper hp₁.var).bind fun i e₂ ⟨h₂, hi⟩ => ?_
  refine (ends_binary h₂.proper hi (hstep₁.mono h₂.toStraight) rfl).bind fun stepped e₃ ⟨h₃, hstepped⟩ => ?_
  refine (ends_compare h₃.proper (hi.mono h₃.toStraight)
    (hlimit₁.mono (h₂.trans h₃).toStraight) nofun).bind fun inRange e₄ ⟨h₄, hrange⟩ => ?_
  refine (ends_select h₄.proper hrange (hstepped.mono h₄.toStraight)
    (hbound₁.mono (h₂.trans (h₃.trans h₄)).toStraight)).bind fun w e₅ ⟨h₅, hw⟩ => ?_
  have h₂₅ := h₂.trans (h₃.trans (h₄.trans h₅))
  refine (ends_setVar h₅.proper (h₂₅.toStraight.hasVar hp₁.var) hw).bind fun _ e₆ h₆ => ?_
  have h₂₆ := h₂₅.trans h₆
  have hp₆ := hp₁.proceeds h₁.proper h₂₆
  have hcurrent₆ : e₆.body.current = ⟨n + 3⟩ := h₂₆.current.trans h₁.current
  have hlast₆ := hp₆.last
  refine ends_jump h₆.proper (Nat.succ_pos _) (by rw [hlast₆]; dsimp only; omega) (by rw [hcurrent₆])
    (by rw [hlast₆]; dsimp only; omega) fun e₇ h₇ => ?_
  refine (ends_freeScratch h₇.proper (hp₆.enters h₇).slot).bind fun _ e₈ ⟨he₈, h₈⟩ => .pure ?_
  have hcurrent₈ : e₈.body.current = ⟨n + 4⟩ := h₈.current.trans h₇.current
  refine ⟨he₈, (h₁.toGrows.trans h₂₆.toGrows).trans (h₇.toGrows.trans h₈.toGrows), ?_, ?_⟩
  · rw [hcurrent₈]
    refine Body.Below.mono (h₇.below (n + 4) ?_ (by simp [Terminator.targets])) h₈.body
    rw [hcurrent₆]
    refine Body.Below.mono (h₁.below (n + 4) ?_ (by simp [Terminator.targets])) h₂₆.body
    rw [hcurrent]
    exact hbelow
  · rw [h₈.blocks, h₇.size, hlast₆, hcurrent₈]

end CountedLoop

end Dataflow.Code
