import Dataflow.Proofs.Code.Growth

/-!
# The blocks of a counted loop

A loop is laid out in five blocks. The current block jumps to the first one, where the variable is
written and the numbers are computed that steer the loop; the head tests the variable and branches to
the body or behind the loop; what raises the variable stands in a block of its own, behind whatever the
body has recorded there, and jumps back to the head. A block that has been closed stays as it is.
-/

namespace Dataflow.Code

namespace Body

def Fresh (b : Body) (id : BlockId) : Prop := ∃ label, b.blocks[id.index]? = some { label }

def Untouched (b : Body) (id : BlockId) : Prop := ∀ k, b.OpenAt id k → b.Fresh id

def length (b : Body) (id : BlockId) : Nat := ((b.blocks[id.index]?).map (·.instrs.size)).getD 0

variable {b b' : Body} {id : BlockId} {k : Block}

theorem length_eq (h : b.blocks[id.index]? = some k) : b.length id = k.instrs.size := by
  rw [length, h]
  rfl

theorem length_of_fresh (h : b.Fresh id) : b.length id = 0 := by
  obtain ⟨label, hlabel⟩ := h
  exact length_eq hlabel

theorem position_of_fresh (h : b.Fresh b.current) : b.position = 0 := length_of_fresh h

theorem position_newBlock (b : Body) (label : String) : (b.newBlock label).2.position = b.position := by
  have hblock : (b.blocks.push { label })[b.current.index]? = b.blocks[b.current.index]? ∨
      b.blocks[b.current.index]? = none ∧
        (b.blocks.push { label })[b.current.index]? = some { label } := by
    rw [Array.getElem?_push]
    split
    · next hsize =>
        exact .inr ⟨Array.getElem?_eq_none (Nat.le_of_eq hsize.symm), rfl⟩
    · exact .inl rfl
  unfold position newBlock
  dsimp only
  rcases hblock with heq | ⟨hnone, hsome⟩
  · rw [heq]
  · rw [hnone, hsome]
    rfl

theorem Within.not_openAt (h : b.Within b') (hk : b.blocks[id.index]? = some k)
    (ht : k.terminator.isSome = true) {k' : Block} : ¬ b'.OpenAt id k' := by
  rintro ⟨hk', hnone⟩
  obtain rfl := Option.some.inj ((h.closed hk ht).symm.trans hk')
  rw [hnone] at ht
  cases ht

end Body

namespace Emitter

structure Moves (e e' : Emitter) (id : BlockId) : Prop extends Grows e e' where
  current : e'.body.current = id
  blocks : ∀ i, i ≠ e.body.current.index → e'.body.blocks[i]? = e.body.blocks[i]?

structure Closes (e e' : Emitter) (t : Terminator) (id : BlockId) : Prop extends Moves e e' id where
  ne : id ≠ e.body.current
  openAt : ∃ k, e.body.OpenAt id k
  closed : ∃ k, e.body.OpenAt e.body.current k ∧
    e'.body.blocks[e.body.current.index]? = some { k with terminator := some t }

structure Adds (e e' : Emitter) : Prop extends Grows e e' where
  current : e'.body.current = e.body.current
  blocks : Prefix e.body.blocks e'.body.blocks
  position : e'.body.position = e.body.position
  values : e'.body.valueTypes = e.body.valueTypes

structure Appends (e e' : Emitter) (is : List Instr) : Prop extends Straight e e' where
  instrs : ∀ k, e.body.OpenAt e.body.current k →
    e'.body.OpenAt e.body.current { k with instrs := k.instrs ++ is.toArray }

structure Emits (e e' : Emitter) (v : ValueId) (i : Instr) : Prop extends Appends e e' [i] where
  index : v.index = e.body.valueTypes.size
  values : e'.body.valueTypes.size = e.body.valueTypes.size + 1

variable {e e' e'' : Emitter} {id id' : BlockId} {is js : List Instr} {t : Terminator}

theorem Adds.trans (h : e.Adds e') (h' : e'.Adds e'') : e.Adds e'' :=
  ⟨h.toGrows.trans h'.toGrows, h'.current.trans h.current, h.blocks.trans h'.blocks,
    h'.position.trans h.position, h'.values.trans h.values⟩

theorem Adds.fresh (h : e.Adds e') (hid : e.body.Fresh id) : e'.body.Fresh id := by
  obtain ⟨label, hlabel⟩ := hid
  exact ⟨label, h.blocks _ _ hlabel⟩

theorem Straight.fresh (h : e.Straight e') (hid : e.body.Fresh id) (hne : id ≠ e.body.current) :
    e'.body.Fresh id := by
  obtain ⟨label, hlabel⟩ := hid
  exact ⟨label, (h.blocks _ fun hi => hne (congrArg BlockId.mk hi)).trans hlabel⟩

theorem Moves.fresh (h : e.Moves e' id') (hid : e.body.Fresh id) (hne : id ≠ e.body.current) :
    e'.body.Fresh id := by
  obtain ⟨label, hlabel⟩ := hid
  exact ⟨label, (h.blocks _ fun hi => hne (congrArg BlockId.mk hi)).trans hlabel⟩

/-- A block that is still open later on has not been closed. -/
theorem Closes.ne_of_openAt (h : e.Closes e' t id) (hw : e'.body.Within e''.body) {k : Block}
    (hk : e''.body.OpenAt id' k) : id' ≠ e.body.current := by
  rintro rfl
  obtain ⟨_, -, hclosed⟩ := h.closed
  exact hw.not_openAt hclosed rfl hk

theorem Closes.openAt_current (h : e.Closes e' t id) : ∃ k, e'.body.OpenAt id k := by
  obtain ⟨k, hk, hopen⟩ := h.openAt
  exact ⟨k, (h.blocks _ fun hi => h.ne (congrArg BlockId.mk hi)).trans hk, hopen⟩

/-- A block that instructions go into is closed when another one is entered. -/
theorem Closes.untouched (h : e'.Closes e'' t id) (hs : e.Straight e') (hu : e.body.Untouched id') :
    e''.body.Untouched id' := by
  rintro k hk
  have hne := h.ne_of_openAt (.refl _) hk
  have hne' : id' ≠ e.body.current := hs.current ▸ hne
  have hblock : e''.body.blocks[id'.index]? = e.body.blocks[id'.index]? :=
    (h.blocks _ fun hi => hne (congrArg BlockId.mk hi)).trans
      (hs.blocks _ fun hi => hne' (congrArg BlockId.mk hi))
  exact h.fresh (hs.fresh (hu k ⟨hblock ▸ hk.1, hk.2⟩) hne') hne

theorem Appends.trans (h : e.Appends e' is) (h' : e'.Appends e'' js) : e.Appends e'' (is ++ js) := by
  refine ⟨h.toStraight.trans h'.toStraight, fun k hk => ?_⟩
  have hk' := h.instrs k hk
  rw [← h.current] at hk' ⊢
  simpa using h'.instrs _ hk'

theorem Silent.appends (h : e.Silent e') : e.Appends e' [] := by
  refine ⟨h.straight, fun k hk => ?_⟩
  simpa [Body.OpenAt, h.blocks] using hk

/-- What has been recorded in a fresh block is all that it holds. -/
theorem Appends.of_fresh (h : e.Appends e' is) (hfresh : e.body.Fresh e.body.current) :
    ∃ label, e'.body.OpenAt e'.body.current { label, instrs := is.toArray } := by
  obtain ⟨label, hlabel⟩ := hfresh
  have hopen := h.instrs _ ⟨hlabel, rfl⟩
  rw [h.current]
  exact ⟨label, by simpa using hopen⟩

/-- A block that is left behind holds what was recorded in it, from its beginning to its end. -/
theorem Closes.block (h : e.Closes e' t id) {k : Block} (hk : e.body.OpenAt e.body.current k) :
    e'.body.blocks[e.body.current.index]? = some { k with terminator := some t } := by
  obtain ⟨k', hk', hclosed⟩ := h.closed
  obtain rfl := Option.some.inj (hk.1.symm.trans hk'.1)
  exact hclosed

/-- A variable that does not stand behind a scratch slot. -/
def Own (e : Emitter) (x : VarId) : Prop :=
  x.index < e.body.varTypes.size ∧ ∀ i, e.body.scratchVars.find? i ≠ some x

theorem Grows.not_own {x : VarId} {i : Nat} (h : e.Grows e')
    (hx : e'.body.scratchVars.find? i = some x ∨ e'.body.varTypes.size ≤ x.index) : ¬ e.Own x := by
  rintro ⟨hlt, hno⟩
  have hle := h.body.varTypes.size_le
  rcases hx with hx | hx
  · rcases h.scratch i x hx with hx | hx
    · exact hno i hx
    · omega
  · omega

theorem Own.mono {x : VarId} (h : e.Own x) (hg : e.Grows e') : e'.Own x := by
  refine ⟨h.1.trans_le hg.body.varTypes.size_le, fun i hi => ?_⟩
  exact hg.not_own (Or.inl hi) h

end Emitter

namespace Emit

variable {e e' e'' : Emitter} {id : BlockId} {u : Unit} {v x y z : ValueId} {t : Ty}

theorem succeeds_jump (h : Succeeds (jump id) e u e') :
    ∃ b, e.body.terminate (.jump id) = .ok b ∧ e' = { e with body := b } := by
  simp only [jump, succeeds_bind, succeeds_body, succeeds_check, succeeds_terminate] at h
  obtain ⟨_, _, ⟨rfl, rfl⟩, _, _, ⟨-, rfl⟩, b, hb, rfl⟩ := h
  exact ⟨b, hb, rfl⟩

theorem succeeds_branch {v : ValueId} {id' : BlockId} (h : Succeeds (branch v id id') e u e') :
    ∃ b, e.body.terminate (.branch v id id') = .ok b ∧ e' = { e with body := b } := by
  simp only [branch, succeeds_bind, succeeds_expectType, succeeds_body, succeeds_check,
    succeeds_terminate] at h
  obtain ⟨_, _, ⟨-, rfl⟩, _, _, ⟨rfl, rfl⟩, _, _, ⟨-, rfl⟩, _, _, ⟨-, rfl⟩, b, hb, rfl⟩ := h
  exact ⟨b, hb, rfl⟩

/-- A block is closed and another one is entered. -/
theorem closes_of_terminate {t : Terminator} {b : Body} (ht : e.body.terminate t = .ok b)
    (hs : Succeeds (switchTo id) { e with body := b } u e'') : e.Closes e'' t id := by
  have hw := Body.within_terminate ht
  obtain ⟨⟨k, hk⟩, rfl⟩ := Body.terminate_eq_ok_iff.1 ht
  obtain ⟨b', hb', rfl⟩ := succeeds_switchTo.1 hs
  have hw' := Body.within_switchTo hb'
  obtain ⟨⟨k', hk'⟩, layout, rfl⟩ := Body.switchTo_eq_ok hb'
  have hclosed : (e.body.blocks.modify e.body.current.index fun k =>
      { k with terminator := some t })[e.body.current.index]? =
        some { k with terminator := some t } := by
    rw [Array.getElem?_modify, if_pos rfl, hk.1]
    rfl
  have hne : id ≠ e.body.current := by
    rintro rfl
    obtain ⟨hk', hopen⟩ := hk'
    obtain rfl := Option.some.inj (hclosed.symm.trans hk')
    cases hopen
  have hblocks : ∀ i, i ≠ e.body.current.index →
      (e.body.blocks.modify e.body.current.index fun k => { k with terminator := some t })[i]? =
        e.body.blocks[i]? :=
    fun i hi => (Array.getElem?_modify ..).trans (if_neg (Ne.symm hi))
  refine ⟨⟨.of_body (hw.trans hw') (fun _ => ⟨k', hk'.1⟩) rfl rfl, rfl, hblocks⟩, hne,
    ⟨k', ?_, hk'.2⟩, k, hk, hclosed⟩
  exact (hblocks _ fun hi => hne (congrArg BlockId.mk hi)).symm.trans hk'.1

theorem closes_jump {target : BlockId} {u' : Unit} (hj : Succeeds (jump target) e u e')
    (hs : Succeeds (switchTo id) e' u' e'') : e.Closes e'' (.jump target) id := by
  obtain ⟨b, hb, rfl⟩ := succeeds_jump hj
  exact closes_of_terminate hb hs

theorem closes_branch {c : ValueId} {ifTrue ifFalse : BlockId} {u' : Unit}
    (hbr : Succeeds (branch c ifTrue ifFalse) e u e') (hs : Succeeds (switchTo id) e' u' e'') :
    e.Closes e'' (.branch c ifTrue ifFalse) id := by
  obtain ⟨b, hb, rfl⟩ := succeeds_branch hbr
  exact closes_of_terminate hb hs

/-- A new block is fresh and not entered yet. -/
theorem adds_createBlock {label : String} (h : Succeeds (createBlock label) e id e') :
    e.Adds e' ∧ id = ⟨e.body.blocks.size⟩ ∧ e'.body.blocks.size = e.body.blocks.size + 1 ∧
      e'.body.Fresh id := by
  obtain ⟨rfl, rfl⟩ := succeeds_createBlock.1 h
  refine ⟨⟨.of_body (e.body.within_newBlock label) ?_ rfl rfl, rfl, .push _ _,
    e.body.position_newBlock label, rfl⟩, rfl, Array.size_push _, label, Array.getElem?_push_size⟩
  exact fun hk => hk

theorem appends_push {i : Instr} (h : Succeeds (push i) e u e') : e.Appends e' [i] := by
  refine ⟨(straight_push _).straight h, fun k hk => ?_⟩
  obtain ⟨b, hb, rfl⟩ := succeeds_push.1 h
  obtain ⟨-, rfl⟩ := Body.push_eq_ok_iff.1 hb
  refine ⟨?_, hk.2⟩
  rw [Array.getElem?_modify, if_pos rfl, hk.1]
  simp

theorem emits_define {instr : ValueId → Instr} (h : Succeeds (define t instr) e v e') :
    e.Emits e' v (instr v) := by
  have hlinear := (straight_define _ _).straight h
  obtain ⟨rfl, b, hb, rfl⟩ := succeeds_define.1 h
  have happends := appends_push (u := ()) (e := { e with body := (e.body.newValue t).2 })
    (succeeds_push.2 ⟨b, hb, rfl⟩)
  obtain ⟨-, rfl⟩ := Body.push_eq_ok_iff.1 hb
  exact ⟨⟨hlinear, happends.instrs⟩, rfl, Array.size_push _⟩

theorem emits_literal {l : Literal} (h : Succeeds (literal l) e v e') : e.Emits e' v (.const v l) :=
  emits_define h

theorem emits_getVar {i : VarId} (h : Succeeds (getVar i) e v e') : e.Emits e' v (.readVar v i) := by
  simp only [getVar, succeeds_bind, succeeds_body, succeeds_check] at h
  obtain ⟨_, _, ⟨-, rfl⟩, _, _, ⟨-, rfl⟩, h⟩ := h
  exact emits_define h

theorem emits_binary {op : BinaryOp} (h : Succeeds (binary op x y) e v e') :
    e.Emits e' v (.binary v op x y) := by
  simp only [binary, operandType, succeeds_bind, succeeds_expectType, succeeds_valueType,
    succeeds_refuse, succeeds_pure] at h
  obtain ⟨_, _, ⟨_, _, ⟨-, rfl⟩, _, _, ⟨-, rfl⟩, -, rfl, rfl⟩, h⟩ := h
  exact emits_define h

theorem emits_compare {op : CompareOp} (h : Succeeds (compare op x y) e v e') :
    e.Emits e' v (.compare v op x y) := by
  simp only [compare, succeeds_bind, succeeds_expectType, succeeds_valueType, succeeds_refuse] at h
  obtain ⟨_, _, ⟨-, rfl⟩, _, _, ⟨-, rfl⟩, -, h⟩ := h
  exact emits_define h

theorem emits_select (h : Succeeds (select x y z) e v e') : e.Emits e' v (.select v x y z) := by
  simp only [select, succeeds_bind, succeeds_expectType, succeeds_valueType] at h
  obtain ⟨_, _, ⟨-, rfl⟩, _, _, ⟨-, rfl⟩, _, _, ⟨-, rfl⟩, h⟩ := h
  exact emits_define h

theorem appends_setVar {i : VarId} (h : Succeeds (setVar i x) e u e') :
    e.Appends e' [.writeVar i x] := by
  simp only [setVar, succeeds_bind, succeeds_body, succeeds_check, succeeds_expectType] at h
  obtain ⟨_, _, ⟨-, rfl⟩, _, _, ⟨-, rfl⟩, _, _, ⟨-, rfl⟩, h⟩ := h
  exact appends_push h

end Emit

namespace CountedLoop

open Emit

variable {e e' e₁ : Emitter} {p : LoopParts} {init : BlockId} {is : List Instr}

structure Opens (e e' : Emitter) (p : LoopParts) (init : BlockId) : Prop extends Emitter.Grows e e' where
  current : e'.body.current = init
  values : e'.body.valueTypes = e.body.valueTypes
  jump : ∃ k, e'.body.blocks[e.body.current.index]? = some k ∧ k.instrs.size = e.body.position ∧
    k.terminator = some (.jump init)
  entered : e'.body.Fresh init
  untouched : ∀ id ∈ [p.condition, p.body, p.increment, p.after], e'.body.Untouched id

/-- The variable of a loop is written in its first block, and then come the numbers that steer it. -/
theorem succeeds_enter {start : Literal} {numbers : Emit (ValueId × ValueId × ValueId)}
    (h : Succeeds (enter start numbers) e p e') : ∃ init z e₁ e₂, Opens e e₁ p init ∧
      e₁.Appends e₂ [.const z start, .writeVar p.var z] ∧ z.index = e₁.body.valueTypes.size ∧
      z.index < e₂.body.valueTypes.size ∧ e₂.body.varTypes[p.var.index]? = some start.ty ∧
      ¬ e.Own p.var ∧ Succeeds numbers e₂ (p.step, p.limit, p.bound) e' := by
  unfold enter at h
  obtain ⟨init, e₁, h₁, h⟩ := succeeds_bind.1 h
  obtain ⟨condition, e₂, h₂, h⟩ := succeeds_bind.1 h
  obtain ⟨body, e₃, h₃, h⟩ := succeeds_bind.1 h
  obtain ⟨increment, e₄, h₄, h⟩ := succeeds_bind.1 h
  obtain ⟨after, e₅, h₅, h⟩ := succeeds_bind.1 h
  obtain ⟨_, e₆, hj, h⟩ := succeeds_bind.1 h
  obtain ⟨_, e₇, hs, h⟩ := succeeds_bind.1 h
  obtain ⟨z, e₈, hz, h⟩ := succeeds_bind.1 h
  obtain ⟨⟨slot, x⟩, e₉, hx, h⟩ := succeeds_bind.1 h
  obtain ⟨⟨step, limit, bound⟩, e₁₀, hnumbers, h⟩ := succeeds_bind.1 h
  obtain ⟨rfl, rfl⟩ := succeeds_pure.1 h
  obtain ⟨ha₁, -, -, hf₁⟩ := adds_createBlock h₁
  obtain ⟨ha₂, -, -, hf₂⟩ := adds_createBlock h₂
  obtain ⟨ha₃, -, -, hf₃⟩ := adds_createBlock h₃
  obtain ⟨ha₄, -, -, hf₄⟩ := adds_createBlock h₄
  obtain ⟨ha₅, -, -, hf₅⟩ := adds_createBlock h₅
  have hadds := (((ha₁.trans ha₂).trans ha₃).trans ha₄).trans ha₅
  have hfresh : ∀ id ∈ [init, condition, body, increment, after], e₅.body.Fresh id := by
    intro id hid
    simp only [List.mem_cons, List.not_mem_nil, or_false] at hid
    rcases hid with rfl | rfl | rfl | rfl | rfl
    · exact ha₅.fresh (ha₄.fresh (ha₃.fresh (ha₂.fresh hf₁)))
    · exact ha₅.fresh (ha₄.fresh (ha₃.fresh hf₂))
    · exact ha₅.fresh (ha₄.fresh hf₃)
    · exact ha₅.fresh hf₄
    · exact hf₅
  have hcloses := closes_jump hj hs
  obtain ⟨t, e₈', ht, hsilent, hvar, hor, hwrite⟩ := succeeds_scratch hx
  obtain rfl := Option.some.inj ((type_of_define hz).symm.trans ht)
  have hz := emits_literal hz
  have hwrite := appends_push hwrite
  obtain ⟨k, hk, hclosed⟩ := hcloses.closed
  refine ⟨init, z, e₇, e₉, ⟨hadds.toGrows.trans hcloses.toGrows, hcloses.current, ?_, ?_, ?_, ?_⟩,
    ?_, hz.index, ?_, ?_, ?_, hnumbers⟩
  · obtain ⟨b, hb, rfl⟩ := succeeds_jump hj
    obtain ⟨-, rfl⟩ := Body.terminate_eq_ok_iff.1 hb
    obtain ⟨b', hb', rfl⟩ := succeeds_switchTo.1 hs
    obtain ⟨-, layout, rfl⟩ := Body.switchTo_eq_ok hb'
    exact hadds.values
  · rw [← hadds.current, ← hadds.position]
    exact ⟨_, hclosed, (Body.position_eq hk).symm, rfl⟩
  · exact hcloses.fresh (hfresh init (by simp)) hcloses.ne
  · intro id hid
    exact hcloses.untouched (.refl _) fun _ _ => hfresh id (List.mem_cons_of_mem _ hid)
  · exact hz.toAppends.trans (hsilent.appends.trans hwrite)
  · have hle := (hsilent.body.trans hwrite.body).valueTypes.size_le
    rw [hz.index]
    have hsize := hz.values
    omega
  · exact hwrite.body.varTypes _ _ hvar
  · exact ((hadds.toGrows.trans hcloses.toGrows).trans hz.toGrows).not_own hor

def headInstrs (p : LoopParts) (i c : ValueId) : List Instr :=
  [.readVar i p.var, .compare c .less i p.bound]

def raiseInstrs (p : LoopParts) (i s r n : ValueId) : List Instr :=
  [.readVar i p.var, .binary s .add i p.step, .compare r .less i p.limit, .select n r s p.bound,
    .writeVar p.var n]

/-- The beginning of a loop has been recorded: the machine gets from where it began through the first
block to the head, and the body has been entered. -/
structure Begun (e e₁ : Emitter) (p : LoopParts) (entry : List Instr) : Prop extends
    Emitter.Grows e e₁ where
  current : e₁.body.current = p.body
  entered : e₁.body.Fresh p.body
  untouched : ∀ id ∈ [p.increment, p.after], e₁.body.Untouched id
  jump : ∃ init k k', e₁.body.blocks[e.body.current.index]? = some k ∧
    k.instrs.size = e.body.position ∧ k.terminator = some (.jump init) ∧
    e₁.body.blocks[init.index]? = some k' ∧ k'.instrs.toList = entry ∧
    k'.terminator = some (.jump p.condition)

def Tested (b : Body) (p : LoopParts) (n : Nat) : Prop :=
  ∃ k i c, b.blocks[p.condition.index]? = some k ∧ k.instrs.toList = headInstrs p i c ∧
    k.terminator = some (.branch c p.body p.after) ∧ n ≤ i.index ∧ i.index < c.index ∧
    c.index < b.valueTypes.size

def Raised (b : Body) (p : LoopParts) (n position : Nat) : Prop :=
  ∃ k before i s r m, b.blocks[p.increment.index]? = some k ∧
    k.instrs.toList = before ++ raiseInstrs p i s r m ∧ before.length = position ∧
    k.terminator = some (.jump p.condition) ∧ n ≤ i.index ∧ i.index < s.index ∧
    s.index < r.index ∧ r.index < m.index ∧ m.index < b.valueTypes.size

theorem Tested.mono {b b' : Body} {n : Nat} (h : Tested b p n) (hb : b.Within b') : Tested b' p n := by
  obtain ⟨k, i, c, hk, hinstrs, ht, hi, hc, hlt⟩ := h
  exact ⟨k, i, c, hb.closed hk (by simp [ht]), hinstrs, ht, hi, hc,
    hlt.trans_le hb.valueTypes.size_le⟩

theorem Raised.mono {b b' : Body} {n n' position : Nat} (h : Raised b p n position)
    (hb : b.Within b') (hn : n' ≤ n) : Raised b' p n' position := by
  obtain ⟨k, before, i, s, r, m, hk, hinstrs, hbefore, ht, hi, hs, hr, hm, hlt⟩ := h
  exact ⟨k, before, i, s, r, m, hb.closed hk (by simp [ht]), hinstrs, hbefore, ht, hn.trans hi, hs, hr,
    hm, hlt.trans_le hb.valueTypes.size_le⟩

/-- The first block is closed and the body is entered. -/
theorem succeeds_test {e₀ : Emitter} {l : CountedLoop} (hopens : Opens e e₁ p init)
    (hentry : e₁.Appends e₀ is) (h : Succeeds (test p) e₀ l e') :
    l = opened p ∧ e₀.Grows e' ∧ Begun e e' p is ∧ Tested e'.body p e₀.body.valueTypes.size := by
  unfold test at h
  obtain ⟨_, e₂, hj, h⟩ := succeeds_bind.1 h
  obtain ⟨_, e₃, hs, h⟩ := succeeds_bind.1 h
  obtain ⟨i, e₄, hi, h⟩ := succeeds_bind.1 h
  obtain ⟨c, e₅, hc, h⟩ := succeeds_bind.1 h
  obtain ⟨_, e₆, hbr, h⟩ := succeeds_bind.1 h
  obtain ⟨_, e₇, hs', h⟩ := succeeds_bind.1 h
  obtain ⟨rfl, rfl⟩ := succeeds_pure.1 h
  have hcloses := closes_jump hj hs
  have hcloses' := closes_branch hbr hs'
  have hi := emits_getVar hi
  have hc := emits_compare hc
  have hhead : e₃.Appends e₅ (headInstrs p i c) := hi.toAppends.trans hc.toAppends
  have hinit := hopens.entered
  rw [← hopens.current] at hinit
  obtain ⟨label, hinit⟩ := hentry.of_fresh hinit
  have huntouched : ∀ id ∈ [p.condition, p.body, p.increment, p.after], e₃.body.Untouched id :=
    fun id hid => hcloses.untouched hentry.toStraight (hopens.untouched id hid)
  obtain ⟨k, hk⟩ := hcloses.openAt_current
  have hcondition := huntouched p.condition (by simp) k hk
  rw [← hcloses.current] at hcondition
  obtain ⟨label', hcondition⟩ := hhead.of_fresh hcondition
  have hgrows := hhead.toGrows.trans hcloses'.toGrows
  have hclosed := hgrows.body.closed (hcloses.block hinit) rfl
  have htest := hcloses'.block hcondition
  rw [hentry.current, hopens.current] at hclosed
  rw [hhead.current, hcloses.current] at htest
  obtain ⟨k₀, hk₀, hsize, hjump⟩ := hopens.jump
  have hfirst := (hentry.body.trans (hcloses.body.trans hgrows.body)).closed hk₀ (by simp [hjump])
  have huntouched' : ∀ id ∈ [p.body, p.increment, p.after], e₇.body.Untouched id := fun id hid =>
    hcloses'.untouched hhead.toStraight (huntouched id (List.mem_cons_of_mem _ hid))
  obtain ⟨k', hk'⟩ := hcloses'.openAt_current
  refine ⟨rfl, hcloses.toGrows.trans hgrows, ⟨?_, hcloses'.current, huntouched' _ (by simp) k' hk',
    fun id hid => huntouched' id (List.mem_cons_of_mem _ hid), init, k₀, _, hfirst, hsize, hjump,
    hclosed, ?_, rfl⟩, _, i, c, htest, ?_, rfl, ?_, ?_, ?_⟩
  · exact (hopens.toGrows.trans hentry.toGrows).trans (hcloses.toGrows.trans hgrows)
  · simp
  · simp
  · rw [hi.index]
    exact hcloses.body.valueTypes.size_le
  · rw [hi.index, hc.index, hi.values]
    exact Nat.lt_succ_self _
  · have hsize := hcloses'.body.valueTypes.size_le
    rw [hc.index]
    have hc := hc.values
    omega

/-- The end of a loop has been recorded: the machine gets from the end of the body to where the variable
is raised, and from there to the head. -/
structure Ended (e e' : Emitter) (p : LoopParts) : Prop extends Emitter.Grows e e' where
  current : e'.body.current = p.after
  jump : ∃ k, e'.body.blocks[e.body.current.index]? = some k ∧ k.instrs.size = e.body.position ∧
    k.terminator = some (.jump p.increment)
  raised : Raised e'.body p e.body.valueTypes.size (e.body.length p.increment)
  after : e'.body.blocks[p.after.index]? = e.body.blocks[p.after.index]?
  ne : ∀ id ∈ [p.increment, p.after], id ≠ e.body.current
  openAt : ∀ id ∈ [p.increment, p.after], ∃ k, e.body.OpenAt id k

theorem ended_of_finish {l : CountedLoop} (h : Succeeds (opened p).finish e l e') : Ended e e' p := by
  unfold finish at h
  obtain ⟨_, e₁, hj, h⟩ := succeeds_bind.1 h
  obtain ⟨_, e₂, hs, h⟩ := succeeds_bind.1 h
  obtain ⟨i, e₃, hi, h⟩ := succeeds_bind.1 h
  obtain ⟨s, e₄, hadd, h⟩ := succeeds_bind.1 h
  obtain ⟨r, e₅, hcmp, h⟩ := succeeds_bind.1 h
  obtain ⟨m, e₆, hsel, h⟩ := succeeds_bind.1 h
  obtain ⟨_, e₇, hset, h⟩ := succeeds_bind.1 h
  obtain ⟨_, e₈, hj', h⟩ := succeeds_bind.1 h
  obtain ⟨_, e₉, hs', h⟩ := succeeds_bind.1 h
  obtain ⟨_, e₁₀, hfree, h⟩ := succeeds_bind.1 h
  obtain ⟨-, rfl⟩ := succeeds_pure.1 h
  have hcloses := closes_jump hj hs
  have hcloses' := closes_jump hj' hs'
  have hsilent := silent_freeScratch hfree
  have hi := emits_getVar hi
  have hadd := emits_binary hadd
  have hcmp := emits_compare hcmp
  have hsel := emits_select hsel
  have hset := appends_setVar hset
  have hraise : e₂.Appends e₇ (raiseInstrs p i s r m) :=
    hi.toAppends.trans (hadd.toAppends.trans (hcmp.toAppends.trans (hsel.toAppends.trans hset)))
  have hgrows := hraise.toGrows.trans (hcloses'.toGrows.trans hsilent.toGrows)
  obtain ⟨k, hk, hclosed⟩ := hcloses.closed
  obtain ⟨k', hk', hopen'⟩ := hcloses.openAt
  have hincrement : e₂.body.OpenAt e₂.body.current k' := by
    rw [hcloses.current]
    exact ⟨(hcloses.blocks _ fun hi => hcloses.ne (congrArg BlockId.mk hi)).trans hk', hopen'⟩
  have hraised := hraise.instrs _ hincrement
  rw [← hraise.current] at hraised
  have hblock := hsilent.body.closed (hcloses'.block hraised) rfl
  rw [hraise.current, hcloses.current] at hblock
  obtain ⟨k₁, hafter⟩ := hcloses'.openAt
  have hne : p.after ≠ e.body.current := hcloses.ne_of_openAt hraise.body hafter
  have hne' : p.after ≠ p.increment := by
    have hne := hcloses'.ne
    rwa [hraise.current, hcloses.current] at hne
  have hblocks : e₇.body.blocks[p.after.index]? = e.body.blocks[p.after.index]? := by
    rw [hraise.blocks _ ?_, hcloses.blocks _ fun hi => hne (congrArg BlockId.mk hi)]
    rw [hcloses.current]
    exact fun hi => hne' (congrArg BlockId.mk hi)
  refine ⟨hcloses.toGrows.trans hgrows, hsilent.current.trans hcloses'.current,
    ⟨_, hgrows.body.closed hclosed rfl, (Body.position_eq hk).symm, rfl⟩,
    ⟨_, k'.instrs.toList, i, s, r, m, hblock, ?_, ?_, rfl, ?_, ?_, ?_, ?_, ?_⟩, ?_, ?_, ?_⟩
  · simp
  · rw [Array.length_toList]
    exact (Body.length_eq hk').symm
  · rw [hi.index]
    exact hcloses.body.valueTypes.size_le
  · rw [hi.index, hadd.index, hi.values]
    exact Nat.lt_succ_self _
  · rw [hadd.index, hcmp.index, hadd.values]
    exact Nat.lt_succ_self _
  · rw [hcmp.index, hsel.index, hcmp.values]
    exact Nat.lt_succ_self _
  · have hsize := (hset.body.trans (hcloses'.body.trans hsilent.body)).valueTypes.size_le
    rw [hsel.index]
    have hsel := hsel.values
    omega
  · rw [hsilent.blocks, hcloses'.blocks _ ?_, hblocks]
    rw [hraise.current, hcloses.current]
    exact fun hi => hne' (congrArg BlockId.mk hi)
  · simpa using ⟨hcloses.ne, hne⟩
  · simpa using ⟨⟨k', hk', hopen'⟩, k₁, hblocks ▸ hafter.1, hafter.2⟩

def rangeInstrs (p : LoopParts) (z : ValueId) (start bound step : Int32) : List Instr :=
  [.const z (.i32 start), .writeVar p.var z, .const p.step (.i32 step),
    .const p.limit (.i32 (saturate (bound.toInt - step.toInt))), .const p.bound (.i32 bound)]

def countInstrs (p : LoopParts) (z : ValueId) (t : Ty) : List Instr :=
  [.const z (.zero t), .writeVar p.var z, .const p.step (one t),
    .binary p.limit .subtract p.bound p.step]

theorem begun_of_beginRange {start bound step : Int32} {l₀ l : CountedLoop}
    (h : Succeeds (l₀.beginRange start bound step) e l e') : 0 < step ∧ ∃ p z, l = opened p ∧
      Begun e e' p (rangeInstrs p z start bound step) ∧ Tested e'.body p (p.bound.index + 1) ∧
      e.body.valueTypes.size ≤ z.index ∧ z.index < p.step.index ∧ p.step.index < p.limit.index ∧
      p.limit.index < p.bound.index ∧ e'.body.varTypes[p.var.index]? = some .i32 ∧ ¬ e.Own p.var := by
  unfold beginRange at h
  obtain ⟨hstep, h⟩ := succeeds_refuse.1 h
  obtain ⟨_, e₀, hidle, h⟩ := succeeds_bind.1 h
  obtain ⟨-, rfl⟩ := succeeds_requireIdle.1 hidle
  obtain ⟨p, e₁, henter, htest⟩ := succeeds_bind.1 h
  obtain ⟨init, z, e₂, e₃, hopens, hentry, hz, hzlt, hvar, hown, hnumbers⟩ := succeeds_enter henter
  simp only [succeeds_bind, succeeds_pure, Prod.mk.injEq] at hnumbers
  obtain ⟨_, e₄, hs, _, e₅, hl, _, e₆, hb, ⟨rfl, rfl, rfl⟩, rfl⟩ := hnumbers
  have hs := emits_literal hs
  have hl := emits_literal hl
  have hb := emits_literal hb
  have hline := hs.toAppends.trans (hl.toAppends.trans hb.toAppends)
  obtain ⟨rfl, hgrows, hbegun, htested⟩ := succeeds_test hopens (hentry.trans hline) htest
  refine ⟨?_, p, z, rfl, hbegun, ?_, ?_, ?_, ?_, ?_, ?_, hown⟩
  · exact Int32.not_le.1 hstep
  · rwa [hb.values, ← hb.index] at htested
  · rw [hz, hopens.values]
  · rwa [hs.index]
  · rw [hs.index, hl.index, hs.values]
    exact Nat.lt_succ_self _
  · rw [hl.index, hb.index, hl.values]
    exact Nat.lt_succ_self _
  · exact (hline.toGrows.trans hgrows).body.varTypes _ _ hvar

theorem begun_of_beginDynamic {count : ValueId} {l₀ l : CountedLoop}
    (h : Succeeds (l₀.beginDynamic count) e l e') : ∃ t p z,
      e.body.valueTypes[count.index]? = some t ∧ t.isInteger = true ∧ l = opened p ∧
      p.bound = count ∧ Begun e e' p (countInstrs p z t) ∧ Tested e'.body p (p.limit.index + 1) ∧
      e.body.valueTypes.size ≤ z.index ∧ z.index < p.step.index ∧ p.step.index < p.limit.index ∧
      e'.body.varTypes[p.var.index]? = some t ∧ ¬ e.Own p.var := by
  unfold beginDynamic at h
  obtain ⟨t, _, hcount, h⟩ := succeeds_bind.1 h
  obtain ⟨ht, rfl⟩ := succeeds_valueType.1 hcount
  obtain ⟨hinteger, h⟩ := succeeds_refuse.1 h
  obtain ⟨_, e₀, hidle, h⟩ := succeeds_bind.1 h
  obtain ⟨-, rfl⟩ := succeeds_requireIdle.1 hidle
  obtain ⟨p, e₁, henter, htest⟩ := succeeds_bind.1 h
  obtain ⟨init, z, e₂, e₃, hopens, hentry, hz, hzlt, hvar, hown, hnumbers⟩ := succeeds_enter henter
  simp only [succeeds_bind, succeeds_pure, Prod.mk.injEq] at hnumbers
  obtain ⟨_, e₄, hs, _, e₅, hl, ⟨rfl, rfl, rfl⟩, rfl⟩ := hnumbers
  have hs := emits_literal hs
  have hl := emits_binary hl
  have hline := hs.toAppends.trans hl.toAppends
  obtain ⟨rfl, hgrows, hbegun, htested⟩ := succeeds_test hopens (hentry.trans hline) htest
  have hinteger : t.isInteger = true := by simpa using hinteger
  refine ⟨t, p, z, ht, hinteger, rfl, rfl, hbegun, ?_, ?_, ?_, ?_, ?_, hown⟩
  · rwa [hl.values, ← hl.index] at htested
  · rw [hz, hopens.values]
  · rwa [hs.index]
  · rw [hs.index, hl.index, hs.values]
    exact Nat.lt_succ_self _
  · rw [← Literal.ty_zero hinteger]
    exact (hline.toGrows.trans hgrows).body.varTypes _ _ hvar

end CountedLoop

end Dataflow.Code
