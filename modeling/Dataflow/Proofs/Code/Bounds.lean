import Dataflow.Proofs.Code.Machine

/-!
# Accesses of a run

An access that leaves its region is a trap. So a run that comes to an end without one has kept
every load and every store inside the region that its address belongs to.
-/

namespace Dataflow.Code

/-- The bytes lie inside the region of their address. -/
def Memory.Contains (memory : Memory) (p : Pointer) (offset size : Nat) : Prop :=
  ∃ r region, p.region = r + 1 ∧ memory[r]? = some region ∧ 0 ≤ p.offset.toInt + offset ∧
    p.offset.toInt + offset + size ≤ region.bytes.size

namespace Memory

variable {memory memory' : Memory} {l : Layout} {p : Pointer} {offset size : Nat} {t : Ty} {w : Word}
  {start : Nat × Nat}

theorem contains_of_place (h : memory.place p offset size = .ok start) :
    memory.Contains p offset size := by
  unfold place at h
  dsimp only at h
  split at h
  case h_1 => cases h
  case h_2 r hr =>
    split at h
    case h_1 => cases h
    case h_2 region hregion =>
      split at h
      case isFalse => cases h
      case isTrue hfit => exact ⟨r, region, hr, hregion, hfit.1, by omega⟩

theorem contains_of_load (h : memory.load l t p offset = .ok w) :
    memory.Contains p offset t.size := by
  obtain ⟨_, hplace, -⟩ := bind_eq_ok_iff.1 h
  exact contains_of_place hplace

theorem contains_of_store (h : memory.store l p offset w = .ok memory') :
    memory.Contains p offset w.ty.size := by
  obtain ⟨_, hplace, -⟩ := bind_eq_ok_iff.1 h
  exact contains_of_place hplace

end Memory

namespace Machine

variable {program : Program} {m m' : Machine} {p : Pointer} {offset size : Nat}

/-- The machine is about to load or store `size` bytes, the first of them `offset` bytes after the
address `p`. -/
inductive Accesses (m : Machine) : Pointer → Nat → Nat → Prop
  | load {block : Block} {result address : ValueId} {offset : Nat} {p : Pointer} {t : Ty}
      (hblock : m.frame.body.blocks[m.frame.block.index]? = some block)
      (hnext : block.instrs[m.frame.next]? = some (.load result address offset))
      (haddress : m.frame.get address = .ok (.ptr p)) (htype : m.frame.typeOf result = .ok t) :
      Accesses m p offset t.size
  | store {block : Block} {address value : ValueId} {offset : Nat} {p : Pointer} {w : Word}
      (hblock : m.frame.body.blocks[m.frame.block.index]? = some block)
      (hnext : block.instrs[m.frame.next]? = some (.store address offset value))
      (haddress : m.frame.get address = .ok (.ptr p)) (hvalue : m.frame.get value = .ok w) :
      Accesses m p offset w.ty.size

/-- A step that is no trap stays inside the region of its access. -/
theorem Accesses.contains {o : Outcome} (h : m.Accesses p offset size)
    (hstep : stepOrTrap program m = .ok o) : m.memory.Contains p offset size := by
  unfold stepOrTrap at hstep
  cases h with
  | load hblock hnext haddress htype =>
      simp only [hblock, hnext] at hstep
      obtain ⟨_, hperform, -⟩ := bind_eq_ok_iff.1 hstep
      obtain ⟨_, hp, h₁⟩ := bind_eq_ok_iff.1 hperform
      obtain rfl := Except.ok.inj ((getPointer_eq haddress).symm.trans hp)
      obtain ⟨_, ht, h₂⟩ := bind_eq_ok_iff.1 h₁
      obtain rfl := Except.ok.inj (htype.symm.trans ht)
      obtain ⟨_, hload, -⟩ := bind_eq_ok_iff.1 h₂
      exact Memory.contains_of_load hload
  | store hblock hnext haddress hvalue =>
      simp only [hblock, hnext] at hstep
      obtain ⟨_, hperform, -⟩ := bind_eq_ok_iff.1 hstep
      obtain ⟨_, hp, h₁⟩ := bind_eq_ok_iff.1 hperform
      obtain rfl := Except.ok.inj ((getPointer_eq haddress).symm.trans hp)
      obtain ⟨_, hw, h₂⟩ := bind_eq_ok_iff.1 h₁
      obtain rfl := Except.ok.inj (hvalue.symm.trans hw)
      obtain ⟨_, hstore, -⟩ := bind_eq_ok_iff.1 h₂
      exact Memory.contains_of_store hstore

def StaysInside (program : Program) (m : Machine) : Prop :=
  ∀ m', Reaches program m m' → ∀ p offset size, m'.Accesses p offset size →
    m'.memory.Contains p offset size

/-- No step of a run that comes to an end is a trap. -/
theorem exists_step_of_run {result : Option Word} {memory : Memory} {n : Nat}
    (h : ∀ fuel ≥ n, run program fuel m = .finished result memory) (hreaches : Reaches program m m') :
    ∃ o, stepOrTrap program m' = .ok o := by
  cases hstep : stepOrTrap program m' with
  | ok o => exact ⟨o, rfl⟩
  | error t =>
      have hend : step program m' = .trapped t := by rw [step, hstep]
      obtain ⟨n', hrun⟩ := run_of_reaches hreaches hend fun _ h => by cases h
      have hboth := (h (max n n') (le_max_left _ _)).symm.trans (hrun _ (le_max_right _ _))
      cases hboth

theorem staysInside_of_run {result : Option Word} {memory : Memory} {n : Nat}
    (h : ∀ fuel ≥ n, run program fuel m = .finished result memory) : StaysInside program m := by
  intro m' hreaches p offset size haccess
  obtain ⟨o, hstep⟩ := exists_step_of_run h hreaches
  exact haccess.contains hstep

end Machine

end Dataflow.Code
