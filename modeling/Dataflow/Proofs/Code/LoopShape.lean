import Dataflow.Proofs.Code.Edges

/-!
# The shape of a loop

A loop that has been begun, given straight-line code for its body and ended makes up five blocks in a
row. The first of them is entered from outside, once. The head is entered from there and from the block
that raises the variable, the body from the head, and the block that raises the variable from the body.
Whatever is recorded later leaves these blocks as they are and leads to none of them.
-/

namespace Dataflow.Code

/-- A closed block is kept. -/
theorem Body.Within.getElem?_closed {b b' : Body} {g : Nat} {k : Block} (h : b.Within b')
    (hk : b.blocks[g]? = some k) (ht : k.terminator.isSome = true) : b'.blocks[g]? = some k :=
  h.closed (show b.blocks[(⟨g⟩ : BlockId).index]? = some k from hk) ht

namespace CountedLoop

open Emit Emitter

/-- The five blocks from `n` on are those of a loop that runs `count` times. Its variable is set in the
first of them, tested in the second and raised in the fourth. -/
structure Laid (b : Body) (n : Nat) (p : LoopParts) (count : Nat) : Prop where
  condition : p.condition = ⟨n + 1⟩
  body : p.body = ⟨n + 2⟩
  increment : p.increment = ⟨n + 3⟩
  lt : count < 2 ^ 31
  declared : b.varTypes[p.var.index]? = some .i32
  first : ∃ k z, b.blocks[n]? = some k ∧
    k.instrs.toList = rangeInstrs p z 0 (Int32.ofNat count) 1 ∧ k.terminator = some (.jump p.condition)
  head : ∃ k i c, b.blocks[n + 1]? = some k ∧ k.instrs.toList = headInstrs p i c ∧
    k.terminator = some (.branch c p.body p.after)
  round : ∃ k, b.blocks[n + 2]? = some k ∧ k.terminator = some (.jump p.increment) ∧
    ∀ (q : Nat) (v : ValueId), k.instrs[q]? ≠ some (.writeVar p.var v)
  raise : ∃ k i s r m, b.blocks[n + 3]? = some k ∧ k.instrs.toList = raiseInstrs p i s r m ∧
    k.terminator = some (.jump p.condition)
  toHead : ∀ g, b.Edge g (n + 1) → g = n ∨ g = n + 3
  toRound : ∀ g, b.Edge g (n + 2) → g = n + 1
  toRaise : ∀ g, b.Edge g (n + 3) → g = n + 2
  beside : p.after.index = n + 4

variable {b b' : Body} {n count : Nat} {p : LoopParts} {e e' e₁ e₂ e₃ : Emitter} {l : CountedLoop}
  {start : Literal} {numbers : Emit (ValueId × ValueId × ValueId)} {X : VarId → Prop}

/-- The blocks of a loop are closed, and they have all edges to them that they will have. -/
theorem Laid.mono (h : Laid b n p count) (hw : b.Within b')
    (hedges : ∀ g t, b'.Edge g t → b.Edge g t ∨ n + 5 ≤ t) : Laid b' n p count where
  condition := h.condition
  body := h.body
  increment := h.increment
  lt := h.lt
  declared := hw.varTypes _ _ h.declared
  first := by
    obtain ⟨k, z, hk, hinstrs, ht⟩ := h.first
    exact ⟨k, z, hw.getElem?_closed hk (by simp [ht]), hinstrs, ht⟩
  head := by
    obtain ⟨k, i, c, hk, hinstrs, ht⟩ := h.head
    exact ⟨k, i, c, hw.getElem?_closed hk (by simp [ht]), hinstrs, ht⟩
  round := by
    obtain ⟨k, hk, ht, hwrites⟩ := h.round
    exact ⟨k, hw.getElem?_closed hk (by simp [ht]), ht, hwrites⟩
  raise := by
    obtain ⟨k, i, s, r, m, hk, hinstrs, ht⟩ := h.raise
    exact ⟨k, i, s, r, m, hw.getElem?_closed hk (by simp [ht]), hinstrs, ht⟩
  toHead g ht := by
    rcases hedges g _ ht with ht | hlt
    · exact h.toHead g ht
    · omega
  toRound g ht := by
    rcases hedges g _ ht with ht | hlt
    · exact h.toRound g ht
    · omega
  toRaise g ht := by
    rcases hedges g _ ht with ht | hlt
    · exact h.toRaise g ht
    · omega
  beside := h.beside

/-- The five blocks of a loop are new, and the first of them is entered. -/
theorem joins_enter (hnumbers : Leaves (Inline fun _ => False) numbers)
    (h : Succeeds (enter start numbers) e p e') (hn : e.body.blocks.size = n) :
    (p.condition = ⟨n + 1⟩ ∧ p.body = ⟨n + 2⟩ ∧ p.increment = ⟨n + 3⟩ ∧ p.after = ⟨n + 4⟩) ∧
      e'.body.current = ⟨n⟩ ∧ e'.body.blocks.size = n + 5 ∧
      e.Joins [(e.body.current.index, n)] e' := by
  rw [enter_eq] at h
  obtain ⟨init, e₁, h₁, h⟩ := succeeds_bind.1 h
  obtain ⟨condition, e₂, h₂, h⟩ := succeeds_bind.1 h
  obtain ⟨body, e₃, h₃, h⟩ := succeeds_bind.1 h
  obtain ⟨increment, e₄, h₄, h⟩ := succeeds_bind.1 h
  obtain ⟨after, e₅, h₅, h⟩ := succeeds_bind.1 h
  obtain ⟨_, e₆, hjump, h⟩ := succeeds_bind.1 h
  obtain ⟨_, e₇, hswitch, h⟩ := succeeds_bind.1 h
  obtain ⟨z, e₈, hz, h⟩ := succeeds_bind.1 h
  obtain ⟨r, e₉, hr, h⟩ := succeeds_bind.1 h
  obtain ⟨q, e₁₀, hq, h⟩ := succeeds_bind.1 h
  obtain ⟨rfl, rfl⟩ := succeeds_pure.1 h
  obtain ⟨ha₁, hid₁, hs₁, -⟩ := adds_createBlock h₁
  obtain ⟨ha₂, hid₂, hs₂, -⟩ := adds_createBlock h₂
  obtain ⟨ha₃, hid₃, hs₃, -⟩ := adds_createBlock h₃
  obtain ⟨ha₄, hid₄, hs₄, -⟩ := adds_createBlock h₄
  obtain ⟨ha₅, hid₅, hs₅, -⟩ := adds_createBlock h₅
  have hcurrent := ((((ha₁.trans ha₂).trans ha₃).trans ha₄).trans ha₅).current
  have hblocks := ((((joins_createBlock h₁).trans (joins_createBlock h₂)).trans
    (joins_createBlock h₃)).trans (joins_createBlock h₄)).trans (joins_createBlock h₅)
  obtain ⟨hj, -, hs₆⟩ := joins_jump hjump
  obtain ⟨hs, hcurrent₇, hs₇⟩ := joins_switchTo hswitch
  have hz : Inline (fun _ => False) e₇ e₈ := (leaves_literal start).of_succeeds hz
  have hr : Inline (fun _ => False) e₈ e₉ := (leaves_scratch z).of_succeeds hr
  have hinline := (hz.trans hr).trans (hnumbers.of_succeeds hq)
  have hjoins := ((hblocks.trans hj).trans hs).trans hinline.joins
  rw [hcurrent] at hjoins
  subst hid₁ hid₂ hid₃ hid₄ hid₅ hn
  refine ⟨⟨?_, ?_, ?_, ?_⟩, hinline.current.trans hcurrent₇, ?_, hjoins⟩
  · exact congrArg BlockId.mk hs₁
  · exact congrArg BlockId.mk (by omega)
  · exact congrArg BlockId.mk (by omega)
  · exact congrArg BlockId.mk (by omega)
  · have := hinline.size
    omega

/-- The head is entered from the first block, and the body from the head. -/
theorem joins_beginRange {start bound step : Int32} {l₀ : CountedLoop}
    (h : Succeeds (l₀.beginRange start bound step) e (opened p) e') (hn : e.body.blocks.size = n) :
    (p.condition = ⟨n + 1⟩ ∧ p.body = ⟨n + 2⟩ ∧ p.increment = ⟨n + 3⟩ ∧ p.after = ⟨n + 4⟩) ∧
      e'.body.blocks.size = n + 5 ∧
      e.Joins [(e.body.current.index, n), (n, n + 1), (n + 1, n + 2), (n + 1, n + 4)] e' := by
  obtain ⟨-, h⟩ := succeeds_refuse.1 h
  obtain ⟨_, e₀, hidle, h⟩ := succeeds_bind.1 h
  obtain ⟨-, rfl⟩ := succeeds_requireIdle.1 hidle
  obtain ⟨q, e₁, henter, h⟩ := succeeds_bind.1 h
  have hnumbers := (leaves_literal (R := Inline fun _ => False) (.i32 step)).bind fun a =>
    (leaves_literal (.i32 (saturate (bound.toInt - step.toInt)))).bind fun c =>
      (leaves_literal (.i32 bound)).bind fun d => .pure (a, c, d)
  obtain ⟨hids, hcurrent, hsize, hjoins⟩ := joins_enter hnumbers henter hn
  obtain ⟨_, e₂, hjump, h⟩ := succeeds_bind.1 h
  obtain ⟨_, e₃, hswitch, h⟩ := succeeds_bind.1 h
  obtain ⟨i, e₄, hi, h⟩ := succeeds_bind.1 h
  obtain ⟨c, e₅, hc, h⟩ := succeeds_bind.1 h
  obtain ⟨_, e₆, hbranch, h⟩ := succeeds_bind.1 h
  obtain ⟨_, e₇, hswitch', h⟩ := succeeds_bind.1 h
  obtain ⟨hq, rfl⟩ := succeeds_pure.1 h
  obtain rfl := opened.inj hq
  obtain ⟨hj, -, hs₂⟩ := joins_jump hjump
  obtain ⟨hs, hcurrent₃, hs₃⟩ := joins_switchTo hswitch
  have hi : Inline (fun _ => False) e₃ e₄ := (leaves_getVar _).of_succeeds hi
  have hinline := hi.trans ((leaves_compare _ _ _).of_succeeds hc)
  obtain ⟨hb, hs₆⟩ := joins_branch hbranch
  obtain ⟨hs', -, hs₇⟩ := joins_switchTo hswitch'
  have hall := hjoins.trans (((hj.trans hs).trans hinline.joins).trans (hb.trans hs'))
  obtain ⟨hcondition, hbody, hincrement, hafter⟩ := hids
  rw [hinline.current, hcurrent₃, hcurrent, hcondition, hbody, hafter] at hall
  refine ⟨⟨hcondition, hbody, hincrement, hafter⟩, ?_, hall⟩
  have := hinline.size
  omega

/-- Where the variable is raised is entered from the body, and the head from there. -/
theorem joins_finish (h : Succeeds (opened p).finish e l e') :
    e'.body.blocks.size = e.body.blocks.size ∧
      e.Joins [(e.body.current.index, p.increment.index),
        (p.increment.index, p.condition.index)] e' := by
  unfold finish at h
  obtain ⟨_, e₁, hjump, h⟩ := succeeds_bind.1 h
  obtain ⟨_, e₂, hswitch, h⟩ := succeeds_bind.1 h
  obtain ⟨i, e₃, hi, h⟩ := succeeds_bind.1 h
  obtain ⟨s, e₄, hadd, h⟩ := succeeds_bind.1 h
  obtain ⟨r, e₅, hr, h⟩ := succeeds_bind.1 h
  obtain ⟨m, e₆, hm, h⟩ := succeeds_bind.1 h
  obtain ⟨_, e₇, hset, h⟩ := succeeds_bind.1 h
  obtain ⟨_, e₈, hjump', h⟩ := succeeds_bind.1 h
  obtain ⟨_, e₉, hswitch', h⟩ := succeeds_bind.1 h
  obtain ⟨_, e₁₀, hfree, h⟩ := succeeds_bind.1 h
  obtain ⟨-, rfl⟩ := succeeds_pure.1 h
  obtain ⟨hj, -, hs₁⟩ := joins_jump hjump
  obtain ⟨hs, hcurrent, hs₂⟩ := joins_switchTo hswitch
  have hi : Inline (fun _ => False) e₂ e₃ := (leaves_getVar _).of_succeeds hi
  have hadd : Inline (fun _ => False) e₃ e₄ := (leaves_binary _ _ _).of_succeeds hadd
  have hr : Inline (fun _ => False) e₄ e₅ := (leaves_compare _ _ _).of_succeeds hr
  have hm : Inline (fun _ => False) e₅ e₆ := (leaves_select _ _ _).of_succeeds hm
  have hinline := ((hi.trans hadd).trans hr).trans (hm.trans ((leaves_setVar _ _).of_succeeds hset))
  obtain ⟨hj', -, hs₈⟩ := joins_jump hjump'
  obtain ⟨hs', -, hs₉⟩ := joins_switchTo hswitch'
  have hsilent : Inline (fun _ => False) e₉ e₁₀ := .of_silent (silent_freeScratch hfree)
  have hall := ((hj.trans hs).trans hinline.joins).trans ((hj'.trans hs').trans hsilent.joins)
  rw [hinline.current, hcurrent] at hall
  refine ⟨?_, hall⟩
  have := hinline.size
  have := hsilent.size
  omega

/-- The first block of a loop is the one that is entered from outside. -/
theorem first_of_begun {is : List Instr} (h : Begun e e₁ p is) (hcondition : p.condition = ⟨n + 1⟩)
    (hjoins : e.Joins [(e.body.current.index, n), (n, n + 1), (n + 1, n + 2), (n + 1, n + 4)] e₁)
    (hedges : ∀ g t, e.body.Edge g t → t < n) (hcurrent : e.body.current.index < n) :
    ∃ k, e₁.body.blocks[n]? = some k ∧ k.instrs.toList = is ∧
      k.terminator = some (.jump p.condition) := by
  obtain ⟨init, -, k, -, -, -, hk, hinstrs, ht⟩ := h.jump
  have hedge : e₁.body.Edge init.index (n + 1) := by
    refine ⟨k, hk, ?_⟩
    rw [Block.targets, ht, hcondition]
    exact List.mem_singleton_self _
  have hinit : init.index = n := by
    rcases hjoins _ _ hedge with hold | hnew
    · have := hedges _ _ hold
      omega
    · simp only [List.mem_cons, Prod.mk.injEq, List.not_mem_nil, or_false] at hnew
      omega
  exact ⟨k, hinit ▸ hk, hinstrs, ht⟩

/-- Straight-line code for the body is all that its block gets before the jump. -/
theorem round_of_inline {is : List Instr} (hbegun : Begun e e₁ p is) (hbody : Inline X e₁ e₂)
    (hX : X p.var) (hended : Ended e₂ e₃ p) :
    ∃ k, e₃.body.blocks[p.body.index]? = some k ∧ k.terminator = some (.jump p.increment) ∧
      ∀ (q : Nat) (v : ValueId), k.instrs[q]? ≠ some (.writeVar p.var v) := by
  obtain ⟨label, hlabel⟩ := hbegun.entered
  have hcurrent : e₂.body.current = p.body := hbody.current.trans hbegun.current
  obtain ⟨k₂, hk₂⟩ : ∃ k₂, e₂.body.blocks[e₂.body.current.index]? = some k₂ := by
    refine ⟨_, Array.getElem?_eq_getElem ?_⟩
    rw [hcurrent, hbody.size]
    exact (Array.getElem?_eq_some_iff.1 hlabel).1
  obtain ⟨k, hk, hposition, ht⟩ := hended.jump
  refine ⟨k, hcurrent ▸ hk, ht, fun q v hq => ?_⟩
  obtain ⟨k', hk', hrest⟩ := hended.body.blocks _ k₂ hk₂
  obtain rfl := Option.some.inj (hk.symm.trans hk')
  have hlt : q < k₂.instrs.size := by
    have hlt := (Array.getElem?_eq_some_iff.1 hq).1
    rwa [hposition, show e₂.body.position = k₂.instrs.size from Body.length_eq hk₂] at hlt
  have hq₂ := Array.getElem?_eq_getElem hlt
  rw [Option.some.inj ((hrest.instrs _ _ hq₂).symm.trans hq)] at hq₂
  obtain ⟨k₁, hk₁, -, hwrites⟩ := hbody.block k₂ (hbody.current ▸ hk₂)
  rw [hbegun.current, hlabel] at hk₁
  obtain rfl := Option.some.inj hk₁
  cases hwrites q _ v hq₂ hX

/-- Straight-line code for the body leaves the block empty where the variable is raised. -/
theorem raise_of_inline {is : List Instr} (hbegun : Begun e e₁ p is) (hbody : Inline X e₁ e₂)
    (hended : Ended e₂ e₃ p) (hne : p.increment.index ≠ p.body.index) :
    ∃ k i s r m, e₃.body.blocks[p.increment.index]? = some k ∧
      k.instrs.toList = raiseInstrs p i s r m ∧ k.terminator = some (.jump p.condition) := by
  obtain ⟨k, before, i, s, r, m, hk, hinstrs, hlen, ht, -⟩ := hended.raised
  obtain ⟨k₂, hopen⟩ := hended.openAt p.increment (by simp)
  have hblock : e₂.body.blocks[p.increment.index]? = e₁.body.blocks[p.increment.index]? :=
    hbody.others _ (hbegun.current ▸ hne)
  obtain ⟨label, hlabel⟩ := hbegun.untouched p.increment (by simp) k₂ ⟨hblock ▸ hopen.1, hopen.2⟩
  rw [Body.length_of_fresh ⟨label, hblock.trans hlabel⟩] at hlen
  obtain rfl := List.eq_nil_of_length_eq_zero hlen
  exact ⟨k, i, s, r, m, hk, hinstrs, ht⟩

/-- A loop whose body is straight-line code that does not write its
variable gets five blocks that are entered as they should be. -/
theorem laid_of_loop (hcount : count < 2 ^ 31)
    (hbegin : Succeeds (idle.begin (Int32.ofNat count)) e (opened p) e₁) (hbody : Inline X e₁ e₂)
    (hX : X p.var) (hwithin : e₁.body.Within e₂.body) (hend : Succeeds (opened p).finish e₂ l e₃)
    (hcurrent : e.body.current.index < e.body.blocks.size)
    (hedges : ∀ g t, e.body.Edge g t → t < e.body.blocks.size) :
    Laid e₃.body e.body.blocks.size p count ∧ e.Chains e₃ ∧
      e₃.body.blocks.size = e.body.blocks.size + 5 := by
  obtain ⟨-, q, z, hq, hbegun, htested, -, -, -, -, hvar, -⟩ := begun_of_beginRange hbegin
  obtain rfl := opened.inj hq
  obtain ⟨⟨hcondition, hround, hincrement, hafter⟩, hsize₁, hjoins₁⟩ := joins_beginRange hbegin rfl
  obtain ⟨hsize₃, hjoins₃⟩ := joins_finish hend
  have hended := ended_of_finish hend
  have hsize := hbody.size
  have hall := (hjoins₁.trans hbody.joins).trans hjoins₃
  rw [hbody.current.trans hbegun.current, hround, hincrement, hcondition] at hall
  have hw : e₁.body.Within e₃.body := hwithin.trans hended.body
  generalize hn : e.body.blocks.size = n at *
  have hcases : ∀ g t, e₃.body.Edge g t → (g < n ∧ t < n) ∨ g = e.body.current.index ∧ t = n ∨
      g = n ∧ t = n + 1 ∨ g = n + 1 ∧ (t = n + 2 ∨ t = n + 4) ∨ g = n + 2 ∧ t = n + 3 ∨
        g = n + 3 ∧ t = n + 1 := by
    intro g t ht
    rcases hall g t ht with ht | ht
    · obtain ⟨k, hk, -⟩ := id ht
      exact .inl ⟨hn ▸ (Array.getElem?_eq_some_iff.1 hk).1, hedges g t ht⟩
    · simp only [List.append_nil, List.cons_append, List.nil_append, List.mem_cons, Prod.mk.injEq,
        List.not_mem_nil, or_false] at ht
      omega
  refine ⟨⟨hcondition, hround, hincrement, hcount, hw.varTypes _ _ hvar, ?_, ?_, ?_, ?_, ?_, ?_, ?_, ?_⟩,
    ⟨?_, ?_⟩, by omega⟩
  · obtain ⟨k, hk, hinstrs, ht⟩ := first_of_begun hbegun hcondition hjoins₁ hedges hcurrent
    exact ⟨k, z, hw.getElem?_closed hk (by simp [ht]), hinstrs, ht⟩
  · obtain ⟨k, i, c, hk, hinstrs, ht, -⟩ := htested
    exact ⟨k, i, c, by rw [← hw.closed hk (by simp [ht]), hcondition], hinstrs, ht⟩
  · obtain ⟨k, hk, hrest⟩ := round_of_inline hbegun hbody hX hended
    exact ⟨k, by rw [← hk, hround], hrest⟩
  · obtain ⟨k, i, s, r, m, hk, hrest⟩ := raise_of_inline hbegun hbody hended (by
      rw [hincrement, hround]
      exact Nat.succ_ne_self _)
    exact ⟨k, i, s, r, m, by rw [← hk, hincrement], hrest⟩
  · intro g ht
    have := hcases g _ ht
    omega
  · intro g ht
    have := hcases g _ ht
    omega
  · intro g ht
    have := hcases g _ ht
    omega
  · rw [hafter]
  · omega
  · intro g t ht
    refine (hall g t ht).imp_right fun hnew => ?_
    simp only [List.append_nil, List.cons_append, List.nil_append, List.mem_cons, Prod.mk.injEq,
      List.not_mem_nil, or_false] at hnew
    omega

end CountedLoop

end Dataflow.Code
