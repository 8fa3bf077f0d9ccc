import Dataflow.Proofs.Code.Checked
import Dataflow.Proofs.Code.Step

/-!
# Values are defined once

Every instruction of a body that defines a value has been given a new one. Where definitions also come
before uses, a block runs upwards: what one of its instructions defines, no earlier one of them reads
or defines.
-/

namespace Dataflow.Code

namespace Defined

theorem has_of_has_add {D : Defined} {v w : ValueId} (h : (D.add v).has w = true) :
    D.has w = true ∨ w = v := by
  rw [has_add] at h
  split at h
  · next hv => exact .inr (congrArg ValueId.mk hv.1.symm)
  · exact .inl h

theorem mem_of_requireDefined {D : Defined} {vs : List ValueId} (h : requireDefined D vs = .ok ()) :
    ∀ v ∈ vs, D.has v = true := by
  induction vs with
  | nil => exact fun v hv => by cases hv
  | cons w vs ih =>
      rw [requireDefined] at h
      split at h
      · next hw => exact List.forall_mem_cons.2 ⟨hw, ih h⟩
      · cases h

end Defined

namespace Body

variable {b b' : Body} {g g' p p' q n : Nat} {v w : ValueId} {i j : Instr} {k : Block} {D D' : Defined}

/-- The instruction at the position of the block defines the value. -/
def DefinedAt (b : Body) (v : ValueId) (g p : Nat) : Prop :=
  ∃ k i, b.blocks[g]? = some k ∧ k.instrs[p]? = some i ∧ i.defines = some v

/-- All values have been handed out, and no value is defined that is defined elsewhere or given. -/
structure Single (b : Body) : Prop where
  args : ∀ v ∈ b.args, v.index < b.valueTypes.size
  lt : ∀ {v g p}, b.DefinedAt v g p → v.index < b.valueTypes.size
  apart : ∀ {v g p}, b.DefinedAt v g p → v ∉ b.args
  once : ∀ {v g p g' p'}, b.DefinedAt v g p → b.DefinedAt v g' p' → g = g' ∧ p = p'

section Recording

structure Echoes (b b' : Body) : Prop where
  args : b'.args = b.args
  size : b.valueTypes.size ≤ b'.valueTypes.size
  blocks : ∀ (g : Nat) (k' : Block), b'.blocks[g]? = some k' →
    k'.instrs = #[] ∨ ∃ k, b.blocks[g]? = some k ∧ k'.instrs = k.instrs

theorem Echoes.of_blocks (hargs : b'.args = b.args) (hsize : b.valueTypes.size ≤ b'.valueTypes.size)
    (hblocks : b'.blocks = b.blocks) : b.Echoes b' :=
  ⟨hargs, hsize, fun _ k hk => .inr ⟨k, hblocks ▸ hk, rfl⟩⟩

theorem Echoes.newValue (b : Body) (t : Ty) : b.Echoes (b.newValue t).2 :=
  .of_blocks rfl (Prefix.push _ t).size_le rfl

theorem Echoes.newBlock (b : Body) (label : String) : b.Echoes (b.newBlock label).2 := by
  refine ⟨rfl, Nat.le_refl _, fun g k hk => ?_⟩
  rcases getElem?_of_push hk with hk | ⟨-, rfl⟩
  · exact .inr ⟨k, hk, rfl⟩
  · exact .inl rfl

theorem Echoes.terminate {t : Terminator} (h : b.terminate t = .ok b') : b.Echoes b' := by
  obtain ⟨-, rfl⟩ := terminate_eq_ok_iff.1 h
  refine ⟨rfl, Nat.le_refl _, fun g k hk => ?_⟩
  rw [Array.getElem?_modify] at hk
  split at hk
  · obtain ⟨k', hk', rfl⟩ := Option.map_eq_some_iff.1 hk
    exact .inr ⟨k', hk', rfl⟩
  · exact .inr ⟨k, hk, rfl⟩

theorem Echoes.definedAt (h : b.Echoes b') (hd : b'.DefinedAt v g p) : b.DefinedAt v g p := by
  obtain ⟨k', i, hk', hi, hdef⟩ := hd
  rcases h.blocks g k' hk' with hempty | ⟨k, hk, hinstrs⟩
  · rw [hempty] at hi
    cases hi
  · exact ⟨k, i, hk, hinstrs ▸ hi, hdef⟩

theorem Echoes.single (h : b.Echoes b') (hb : b.Single) : b'.Single where
  args v hv := (hb.args v (h.args ▸ hv)).trans_le h.size
  lt hd := (hb.lt (h.definedAt hd)).trans_le h.size
  apart hd := h.args ▸ hb.apart (h.definedAt hd)
  once hd hd' := hb.once (h.definedAt hd) (h.definedAt hd')

/-- The blocks behind an instruction that has been recorded. -/
theorem blocks_of_push (h : b.push i = .ok b') : b'.args = b.args ∧ b'.valueTypes = b.valueTypes ∧
    ∃ k, b.blocks[b.current.index]? = some k ∧ k.instrs.size = b.position ∧
      ∀ g : Nat, b'.blocks[g]? =
        if g = b.current.index then some { k with instrs := k.instrs.push i } else b.blocks[g]? := by
  obtain ⟨⟨k, hk⟩, rfl⟩ := push_eq_ok_iff.1 h
  refine ⟨rfl, rfl, k, hk.1, (position_eq hk).symm, fun g => ?_⟩
  rw [Array.getElem?_modify]
  split
  · next hg => rw [if_pos hg.symm, ← hg, hk.1, Option.map_some]
  · next hg => rw [if_neg (Ne.symm hg)]

theorem definedAt_of_push (h : b.push i = .ok b') (hd : b'.DefinedAt v g p) :
    b.DefinedAt v g p ∨ i.defines = some v ∧ g = b.current.index ∧ p = b.position := by
  obtain ⟨-, -, k, hk, hsize, hblocks⟩ := blocks_of_push h
  obtain ⟨k', j, hk', hj, hdef⟩ := hd
  rw [hblocks] at hk'
  split at hk'
  · next hg =>
      subst hg
      obtain rfl := Option.some.inj hk'
      rcases getElem?_of_push hj with hj | ⟨hp, rfl⟩
      · exact .inl ⟨k, j, hk, hj, hdef⟩
      · exact .inr ⟨hdef, rfl, hp.trans hsize⟩
  · exact .inl ⟨k', j, hk', hj, hdef⟩

/-- An instruction may be recorded that defines nothing, or a value that was not there before. -/
theorem Single.push (hb : b.Single) (h : b.push i = .ok b')
    (hi : ∀ v, i.defines = some v → v.index < b.valueTypes.size ∧ v ∉ b.args ∧
      ∀ g p, ¬ b.DefinedAt v g p) : b'.Single := by
  obtain ⟨hargs, htypes, -⟩ := blocks_of_push h
  refine ⟨fun v hv => ?_, fun {v g p} hd => ?_, fun {v g p} hd => ?_, fun {v g p g' p'} hd hd' => ?_⟩
  · rw [htypes]
    exact hb.args v (hargs ▸ hv)
  · rw [htypes]
    rcases definedAt_of_push h hd with hd | ⟨hdef, -⟩
    · exact hb.lt hd
    · exact (hi v hdef).1
  · rw [hargs]
    rcases definedAt_of_push h hd with hd | ⟨hdef, -⟩
    · exact hb.apart hd
    · exact (hi v hdef).2.1
  · rcases definedAt_of_push h hd with hd | ⟨hdef, rfl, rfl⟩
    · rcases definedAt_of_push h hd' with hd' | ⟨hdef', -⟩
      · exact hb.once hd hd'
      · exact absurd hd ((hi v hdef').2.2 _ _)
    · rcases definedAt_of_push h hd' with hd' | ⟨-, rfl, rfl⟩
      · exact absurd hd' ((hi v hdef).2.2 _ _)
      · exact ⟨rfl, rfl⟩

theorem Single.define {t : Ty} (hb : b.Single) (h : (b.newValue t).2.push i = .ok b')
    (hi : i.defines = some ⟨b.valueTypes.size⟩) : b'.Single := by
  have hnew := Echoes.newValue b t
  refine (hnew.single hb).push h fun v hv => ?_
  obtain rfl := Option.some.inj (hi.symm.trans hv)
  refine ⟨(Nat.lt_succ_self _).trans_eq (Array.size_push _).symm, fun harg => ?_, fun g p hd => ?_⟩
  · exact Nat.lt_irrefl _ (hb.args _ harg)
  · exact Nat.lt_irrefl _ (hb.lt (hnew.definedAt hd))

end Recording

section Order

def OnlyAt (b : Body) (R : Nat → Nat → Prop) (D : Defined) : Prop :=
  ∀ v, D.has v = true → v ∈ b.args ∨ ∃ g p, b.DefinedAt v g p ∧ R g p

theorem onlyAt_ofArgs (R : Nat → Nat → Prop) : b.OnlyAt R (Defined.ofArgs b) := by
  have hfold : ∀ (vs : List ValueId) (D : Defined) (v : ValueId), (vs.foldl Defined.add D).has v = true →
      v ∈ vs ∨ D.has v = true := by
    intro vs
    induction vs with
    | nil => exact fun D v h => .inr h
    | cons w vs ih =>
        intro D v h
        rcases ih _ v h with h | h
        · exact .inl (List.mem_cons_of_mem _ h)
        · rcases Defined.has_of_has_add h with h | rfl
          · exact .inr h
          · exact .inl List.mem_cons_self
  intro v hv
  refine .inl ((hfold _ _ v hv).resolve_right ?_)
  simp only [Defined.has, Array.getD_eq_getD_getElem?, Array.getElem?_replicate]
  split <;> simp

/-- An instruction that has been checked uses what is defined before it, and may define something. -/
theorem OnlyAt.checkInstr {R : Nat → Nat → Prop} (h : b.OnlyAt R D) (hk : b.blocks[g]? = some k)
    (hi : k.instrs[p]? = some i) (hD : b.checkInstr D i = .ok D') :
    (∀ v ∈ i.uses, v ∈ b.args ∨ ∃ g p, b.DefinedAt v g p ∧ R g p) ∧
      b.OnlyAt (fun g' p' => R g' p' ∨ g' = g ∧ p' = p) D' := by
  obtain ⟨_, huses, hD⟩ := bind_eq_ok_iff.1 hD
  obtain ⟨_, -, hD⟩ := bind_eq_ok_iff.1 hD
  obtain rfl := Except.ok.inj hD
  refine ⟨fun v hv => h v (Defined.mem_of_requireDefined huses v hv), fun v hv => ?_⟩
  cases hdef : i.defines with
  | none =>
      rw [hdef] at hv
      exact (h v hv).imp_right fun ⟨g, p, hd, hR⟩ => ⟨g, p, hd, .inl hR⟩
  | some w =>
      rw [hdef] at hv
      rcases Defined.has_of_has_add hv with hv | rfl
      · exact (h v hv).imp_right fun ⟨g, p, hd, hR⟩ => ⟨g, p, hd, .inl hR⟩
      · exact .inr ⟨g, p, ⟨k, i, hk, hi, hdef⟩, .inr ⟨rfl, rfl⟩⟩

/-- The instructions of a block are checked one after the other. -/
theorem OnlyAt.checkInstrs {R : Nat → Nat → Prop} (h : b.OnlyAt R D) (hk : b.blocks[g]? = some k)
    (hD : k.instrs.foldlM b.checkInstr D = .ok D') :
    b.OnlyAt (fun g' p' => R g' p' ∨ g' = g) D' ∧ ∀ p i, k.instrs[p]? = some i → ∀ v ∈ i.uses,
      v ∈ b.args ∨ ∃ g' p', b.DefinedAt v g' p' ∧ (R g' p' ∨ g' = g ∧ p' < p) := by
  have hstep : ∀ (n : Nat) i D₁ D₂, k.instrs.toList[n]? = some i → b.checkInstr D₁ i = .ok D₂ →
      b.OnlyAt (fun g' p' => R g' p' ∨ g' = g ∧ p' < n) D₁ →
      b.OnlyAt (fun g' p' => R g' p' ∨ g' = g ∧ p' < n + 1) D₂ := by
    intro n i D₁ D₂ hi hD₁ h₁ v hv
    rw [Array.getElem?_toList] at hi
    refine ((h₁.checkInstr hk hi hD₁).2 v hv).imp_right fun ⟨g', p', hd, hR⟩ => ⟨g', p', hd, ?_⟩
    rcases hR with (hR | ⟨rfl, hlt⟩) | ⟨rfl, rfl⟩
    · exact .inl hR
    · exact .inr ⟨rfl, by omega⟩
    · exact .inr ⟨rfl, by omega⟩
  rw [← Array.foldlM_toList] at hD
  obtain ⟨hlast, hall⟩ := states_of_foldlM hD
    (fun v hv => (h v hv).imp_right fun ⟨g, p, hd, hR⟩ => ⟨g, p, hd, .inl hR⟩) hstep
  constructor
  · exact fun v hv => (hlast v hv).imp_right fun ⟨g', p', hd, hR⟩ => ⟨g', p', hd, hR.imp_right And.left⟩
  · intro p i hi
    obtain ⟨D₁, D₂, h₁, hD₁⟩ := hall p i (by rwa [Array.getElem?_toList])
    exact (h₁.checkInstr hk hi hD₁).1

theorem checkBlock_eq_ok {id : BlockId} (h : b.checkBlock D id = .ok D') :
    ∃ k, b.blocks[id.index]? = some k ∧ k.instrs.foldlM b.checkInstr D = .ok D' := by
  obtain ⟨k, hk, h⟩ := bind_eq_ok_iff.1 h
  obtain ⟨D₁, hD₁, h⟩ := bind_eq_ok_iff.1 h
  refine ⟨k, block_eq_ok_iff.1 hk, ?_⟩
  cases hterm : k.terminator with
  | none =>
      rw [hterm] at h
      cases h
  | some t =>
      rw [hterm] at h
      obtain ⟨_, -, h⟩ := bind_eq_ok_iff.1 h
      rw [hD₁]
      exact h

theorem mem_fullLayout (hk : b.blocks[g]? = some k) : ⟨g⟩ ∈ b.fullLayout := by
  have hid : (⟨g⟩ : BlockId) ∈ b.blockIds := mem_blockIds.2 (Array.getElem?_eq_some_iff.1 hk).1
  by_cases hmem : (⟨g⟩ : BlockId) ∈ b.layout
  · exact List.mem_append_left _ hmem
  · exact List.mem_append_right _ (List.mem_filter.2 ⟨hid, by simpa using hmem⟩)

/-- An instruction does not define again what is defined earlier in its block. -/
theorem Single.defines_ne (h : b.Single) (hk : b.blocks[g]? = some k) (hi : k.instrs[p]? = some i)
    (hj : k.instrs[q]? = some j) (hpq : p < q) (hv : j.defines = some v) : i.defines ≠ some v := by
  intro hdef
  have := (h.once ⟨k, j, hk, hj, hv⟩ ⟨k, i, hk, hi, hdef⟩).2
  omega

/-- An instruction does not use what is defined in its block later or by itself. -/
theorem Single.not_mem_uses (h : b.Single) (ho : b.checkOrder = .ok ()) (hk : b.blocks[g]? = some k)
    (hi : k.instrs[p]? = some i) (hj : k.instrs[q]? = some j) (hpq : p ≤ q)
    (hv : j.defines = some v) : v ∉ i.uses := by
  intro huses
  have hlater : b.DefinedAt v g q := ⟨k, j, hk, hj, hv⟩
  -- When the block is checked for the first time, nothing in it is defined yet.
  obtain ⟨ids, rest, hlayout, hnew⟩ := List.eq_append_cons_of_mem (mem_fullLayout hk)
  have hstep : ∀ (n : Nat) id D₁ D₂, b.fullLayout[n]? = some id → b.checkBlock D₁ id = .ok D₂ →
      b.OnlyAt (fun g' _ => ⟨g'⟩ ∈ b.fullLayout.take n) D₁ →
      b.OnlyAt (fun g' _ => ⟨g'⟩ ∈ b.fullLayout.take (n + 1)) D₂ := by
    intro n id D₁ D₂ hid hD₁ h₁ w hw
    obtain ⟨k', hk', hD₁⟩ := checkBlock_eq_ok hD₁
    refine ((h₁.checkInstrs hk' hD₁).1 w hw).imp_right fun ⟨g', p', hd, hR⟩ => ⟨g', p', hd, ?_⟩
    rw [List.take_add_one, hid]
    rcases hR with hR | rfl
    · exact List.mem_append_left _ hR
    · exact List.mem_append_right _ List.mem_cons_self
  obtain ⟨_, hfold, -⟩ := bind_eq_ok_iff.1 ho
  obtain ⟨-, hall⟩ := states_of_foldlM hfold (onlyAt_ofArgs _) hstep
  obtain ⟨D₁, D₂, h₁, hD₁⟩ := hall ids.length ⟨g⟩ (by rw [hlayout]; simp)
  obtain ⟨k', hk', hD₁⟩ := checkBlock_eq_ok hD₁
  obtain rfl := Option.some.inj (hk.symm.trans hk')
  rcases (h₁.checkInstrs hk hD₁).2 p i hi v huses with harg | ⟨g', p', hd, hR⟩
  · exact h.apart hlater harg
  · obtain ⟨rfl, rfl⟩ := h.once hlater hd
    rcases hR with hR | ⟨-, hlt⟩
    · rw [hlayout, List.take_left] at hR
      exact hnew hR
    · omega

end Order

end Body

section Opening

variable {id : FunctionId} {name : String} {result : Option Ty}

theorem Body.args_newArgs_lt {b : Body} (h : ∀ v ∈ b.args, v.index < b.valueTypes.size)
    (ps : List Param) : ∀ v ∈ (b.newArgs ps).args, v.index < (b.newArgs ps).valueTypes.size := by
  induction ps generalizing b with
  | nil => exact h
  | cons p ps ih =>
      refine ih fun v hv => ?_
      refine Nat.lt_of_lt_of_eq ?_ (Array.size_push _).symm
      rcases List.mem_append.1 hv with hv | hv
      · exact (h v hv).trans (Nat.lt_succ_self _)
      · obtain rfl := List.mem_singleton.1 hv
        exact Nat.lt_succ_self _

theorem Body.instrs_new (ps : List Param) {g : Nat} {k : Block}
    (hk : (Body.new id name ps result).blocks[g]? = some k) : k.instrs = #[] := by
  obtain ⟨args, types, h⟩ := Body.new_eq id name ps result
  rw [h] at hk
  obtain rfl := Array.mem_singleton.1 (Array.mem_of_getElem? hk)
  rfl

theorem Body.single_new (ps : List Param) : (Body.new id name ps result).Single := by
  have hnone : ∀ v g p, ¬ (Body.new id name ps result).DefinedAt v g p := by
    rintro v g p ⟨k, i, hk, hi, -⟩
    rw [Body.instrs_new ps hk] at hi
    cases hi
  exact ⟨Body.args_newArgs_lt (fun v hv => by cases hv) ps, fun hd => absurd hd (hnone _ _ _),
    fun hd => absurd hd (hnone _ _ _), fun hd => absurd hd (hnone _ _ _)⟩

end Opening

/-- A step of an emission records nothing or one instruction. -/
theorem Emitter.Step.records {P : Instr → Prop} {e e' : Emitter}
    (h : Emitter.Step P e e') : e.body.Echoes e'.body ∨ ∃ i, P i ∧
      (i.defines = none ∧ e.body.push i = .ok e'.body ∨ ∃ t,
        i.defines = some ⟨e.body.valueTypes.size⟩ ∧ (e.body.newValue t).2.push i = .ok e'.body) := by
  cases h with
  | push hi hd hb => exact .inr ⟨_, hi, .inl ⟨hd, hb⟩⟩
  | define hi hd hb => exact .inr ⟨_, hi, .inr ⟨_, hd, hb⟩⟩
  | value t => exact .inl (.newValue _ t)
  | block label => exact .inl (.newBlock _ label)
  | terminate hb => exact .inl (.terminate hb)
  | switchTo hb =>
      obtain ⟨-, layout, rfl⟩ := Body.switchTo_eq_ok hb
      exact .inl (.of_blocks rfl (Nat.le_refl _) rfl)
  | _ => exact .inl (.of_blocks rfl (Nat.le_refl _) rfl)

/-- Whatever is emitted, values are defined once. -/
theorem Emitter.Steps.single {P : Instr → Prop} {e e' : Emitter} (h : Emitter.Steps P e e')
    (he : e.body.Single) : e'.body.Single := by
  refine h.keeps (R := fun e => e.body.Single) (fun e₁ e₂ hstep h₁ => ?_) he
  rcases hstep.records with hecho | ⟨i, -, ⟨hd, hb⟩ | ⟨t, hd, hb⟩⟩
  · exact hecho.single h₁
  · exact h₁.push hb fun v hv => by rw [hd] at hv; cases hv
  · exact h₁.define hb hd

end Dataflow.Code
