import Dataflow.Proofs.Code.Bounds
import Dataflow.Proofs.Code.Iteration
import Dataflow.Proofs.Code.Rounds

/-!
# Indexes of elements at run time

An index that is computed in the body of a loop is the number of the round moved up by an offset, their
sum in 32 bits. It is exact unless the sum is too large, and then it is negative, so that what is at
the address does not lie in the buffer. A run that comes to its end without a trap has therefore
computed every index exactly.
-/

namespace Dataflow.Code

open CountedLoop (Laid)

namespace Machine

/-- The frame that has been called from outside is about to compute the address of an element. -/
def AtElement (m : Machine) : Prop := m.callers = [] ∧
  ∃ result base index scale,
    m.frame.body.OffsetAt m.frame.block.index m.frame.next result base index scale

/-- An element that is about to be read or written in a loop: in which round it is of how many, what the
code adds to the number of the round, and which index comes out in which buffer. -/
structure Element where
  count : Nat
  round : Nat
  access : Access
  offset : Nat
  index : Int32
  region : Nat
  type : Ty

namespace Element

variable {x : Element}

/-- The index is the sum of the number of the round and the offset. -/
def Exact (x : Element) : Prop := x.index.toInt = x.round + x.offset

/-- The element is one of those that a loop with these offsets runs over. -/
def Among (x : Element) (T : Nat → (Access → Nat → Prop) → Prop) : Prop :=
  ∃ S, T x.count S ∧ S x.access x.offset

/-- The element begins in the buffer. -/
structure Inside (x : Element) (memory : Memory) : Prop where
  nonneg : 0 ≤ x.index.toInt
  region : ∃ r region, x.region = r + 1 ∧ memory[r]? = some region ∧
    x.index.toInt * x.type.size < region.bytes.size

structure Sums (x : Element) : Prop where
  round : x.round < 2 ^ 31
  offset : x.offset < 2 ^ 31
  index : x.index = Int32.ofNat x.round + Int32.ofNat x.offset

/-- A sum that is too large wraps around to a negative index. -/
theorem Sums.toInt_index (h : x.Sums) : x.index.toInt =
    if x.round + x.offset < 2 ^ 31 then (x.round : Int) + x.offset
    else (x.round : Int) + x.offset - 2 ^ 32 := by
  rw [h.index, Int32.toInt_add, Int32.toInt_ofNat_of_lt h.round, Int32.toInt_ofNat_of_lt h.offset,
    Int.bmod_def]
  have := h.round
  have := h.offset
  split <;> omega

theorem Sums.exact_iff (h : x.Sums) : x.Exact ↔ x.round + x.offset < 2 ^ 31 := by
  rw [Exact, h.toInt_index]
  split <;> omega

theorem Sums.exact_of_nonneg (h : x.Sums) (hn : 0 ≤ x.index.toInt) : x.Exact := by
  have := h.round
  have := h.offset
  rw [h.toInt_index] at hn
  refine h.exact_iff.2 (not_not.1 fun hlarge => ?_)
  rw [if_neg hlarge] at hn
  omega

/-- The machine is about to compute the address of the element. It is in the body of a loop whose
variable holds the number of the round, and it has moved this number up by the offset. -/
inductive At (x : Element) (m : Machine) : Prop
  | intro {n : Nat} {p : LoopParts} {k : Block} {i : Instr} {result base counter index : ValueId}
      (hround : x.round < x.count) (hloop : Laid m.frame.body n p x.count)
      (hblock : m.frame.block.index = n + 2) (hvar : m.frame.Holds p.var x.round)
      (hk : m.frame.body.blocks[m.frame.block.index]? = some k)
      (hoffset : k.instrs[m.frame.next]? = some (.offset result base index x.type.size))
      (haccess : k.instrs[m.frame.next + 1]? = some i) (htouches : i.Touches result x.access)
      (hshifts : k.Shifts p.var m.frame.next x.offset counter index)
      (hindex : m.frame.get index = .ok (.i32 x.index))
      (hbase : m.frame.get base = .ok (.ptr ⟨x.region, 0⟩))

end Element

end Machine

section Elements

variable {program : Program} {m m' : Machine} {b : Body} {f f' : Frame} {k : Block} {i : Instr}
  {s round n count : Nat} {v base counter index result : ValueId} {p : LoopParts}
  {T : Nat → (Access → Nat → Prop) → Prop} {a : Access}

/-- What stands before the next instruction of a settled frame is known. -/
theorem Frame.Settled.known (h : f.Settled b) (hk : b.blocks[f.block.index]? = some k)
    (hi : k.Before f.next i) : f.Knows i := by
  obtain ⟨q, hq, hi⟩ := hi
  exact h.knows k hk q hq i hi

theorem Frame.Settled.anchor (h : f.Settled b) (hk : b.blocks[f.block.index]? = some k)
    (hbase : base ∈ b.args ∨ k.Anchors f.next base) : ∃ r, f.get base = .ok (.ptr ⟨r, 0⟩) := by
  rcases hbase with harg | ⟨slot, hslot⟩ | ⟨datum, hdatum⟩
  · exact h.args base harg
  · exact h.known hk hslot
  · exact h.known hk hdatum

/-- In the body of a loop the number of the round is what has been read from its variable, and an index
is the sum of that and an offset. -/
theorem Frame.Settled.shifts (h : f.Settled b) (hl : Laid b n p count) (hblock : f.block.index = n + 2)
    (hvar : f.Holds p.var round) (hk : b.blocks[f.block.index]? = some k)
    (hshifts : k.Shifts p.var f.next s counter index) :
    f.get index = .ok (.i32 (Int32.ofNat round + Int32.ofNat s)) ∧ s < 2 ^ 31 := by
  have hcounter : ∀ i, k.Before f.next (.readVar i p.var) →
      f.get i = .ok (.i32 (Int32.ofNat round)) := by
    rintro i ⟨q, hq, hi⟩
    obtain ⟨k', hk', -, hwrites⟩ := hl.round
    obtain rfl := Option.some.inj (hk.symm.trans (hblock ▸ hk'))
    exact h.ties k hk q hq _ hi p.var i .read (fun q' u _ _ => hwrites q' u) _ hvar
  cases hshifts with
  | counter hi => exact ⟨by simpa using hcounter _ hi, by decide⟩
  | moved hs hi hc hj =>
      obtain ⟨a, c, w, ha, hc', hsum, hw⟩ := h.known hk hj
      obtain rfl := Except.ok.inj ((hcounter _ hi).symm.trans ha)
      obtain rfl := Except.ok.inj (hc'.symm.trans (h.known hk hc))
      obtain rfl := Option.some.inj hsum
      exact ⟨hw, hs⟩

namespace Machine

/-- No other call is in the way. -/
theorem Rooted.steady (h : m.Rooted b) (hcallers : m.callers = []) : m.frame.Steady b := by
  cases h with
  | here h => exact h
  | inside => exact absurd hcallers (by simp)

/-- Where the address of an element is computed, the index is the sum, in 32 bits, of the number of a
round and an offset. -/
theorem Rooted.exists_element (h : m.Rooted b) (hl : b.Looped T) (hm : m.AtElement) :
    ∃ x : Element, x.At m ∧ x.Among T ∧ x.Sums := by
  obtain ⟨hcallers, result, base, index, scale, hoffset⟩ := hm
  have h := h.steady hcallers
  obtain rfl : m.frame.body = b := h.settled.body
  obtain ⟨n, count, p, S, hiterates⟩ := hl.iterates _ _ _ _ _ _ hoffset
  obtain ⟨k, hk, hindexes⟩ := hiterates.indexes
  obtain ⟨k', hk', hoffset⟩ := hoffset
  obtain rfl := Option.some.inj (hk.symm.trans hk')
  obtain ⟨t, rfl⟩ := hindexes.scale
  obtain ⟨i, a, s, counter, hi, htouches, hs, hshifts⟩ := hindexes.access
  obtain ⟨round, hround, hvar⟩ := (h.counts n p count hiterates.laid).round hiterates.block
  obtain ⟨r, hr⟩ := h.settled.anchor hk hindexes.anchors
  obtain ⟨hindex, hlt⟩ := h.settled.shifts hiterates.laid hiterates.block hvar hk hshifts
  exact ⟨⟨count, round, a, s, _, r, t⟩, .intro hround hiterates.laid hiterates.block hvar hk hoffset hi
    htouches hshifts hindex hr, ⟨S, hiterates.offsets, hs⟩,
    hround.trans hiterates.laid.lt, hlt, rfl⟩

/-- What is read or written without a trap lies inside its buffer. -/
theorem contains_of_touches {o : Outcome} {q : Pointer} {callers : List Caller} {memory : Memory}
    (hk : f.body.blocks[f.block.index]? = some k) (hi : k.instrs[f.next]? = some i)
    (ht : i.Touches v a) (hv : f.get v = .ok (.ptr q))
    (hstep : stepOrTrap program ⟨f, callers, memory⟩ = .ok o) :
    ∃ size > 0, memory.Contains q 0 size := by
  unfold stepOrTrap at hstep
  cases ht with
  | load result =>
      simp only [hk, hi] at hstep
      obtain ⟨_, hperform, -⟩ := bind_eq_ok_iff.1 hstep
      obtain ⟨_, hq, h₁⟩ := bind_eq_ok_iff.1 hperform
      obtain rfl := Except.ok.inj ((getPointer_eq hv).symm.trans hq)
      obtain ⟨t, -, h₂⟩ := bind_eq_ok_iff.1 h₁
      obtain ⟨_, hload, -⟩ := bind_eq_ok_iff.1 h₂
      exact ⟨_, t.size_pos, Memory.contains_of_load hload⟩
  | store value =>
      simp only [hk, hi] at hstep
      obtain ⟨_, hperform, -⟩ := bind_eq_ok_iff.1 hstep
      obtain ⟨_, hq, h₁⟩ := bind_eq_ok_iff.1 hperform
      obtain rfl := Except.ok.inj ((getPointer_eq hv).symm.trans hq)
      obtain ⟨w, -, h₂⟩ := bind_eq_ok_iff.1 h₁
      obtain ⟨_, hstore, -⟩ := bind_eq_ok_iff.1 h₂
      exact ⟨_, w.ty.size_pos, Memory.contains_of_store hstore⟩

/-- A run that comes to its end without a trap finds every element in its buffer. -/
theorem Element.At.inside {x : Element} {m₀ : Machine} {w : Option Word} {memory : Memory} {fuel : Nat}
    (hx : x.At m) (h : m.frame.Settled b) (hb : b.Single)
    (hrun : ∀ n ≥ fuel, run program n m₀ = .finished w memory) (hreaches : Reaches program m₀ m) :
    x.Inside m.memory := by
  cases hx with
  | @intro n p k i result base counter index _ _ _ _ hk hoffset haccess htouches _ hindex hbase =>
  -- The address is computed whatever the index is, and then used.
  have hlt : result.index < m.frame.values.size := by
    rw [h.size]
    exact hb.lt ⟨k, _, h.body ▸ hk, hoffset, rfl⟩
  have hperf : perform program.surroundings (advance m.frame) m.memory
      (.offset result base index x.type.size) = .ok ((advance m.frame).set result (.ptr (Pointer.move ⟨x.region, 0⟩
        (x.index.toInt64 * Int64.ofNat x.type.size))), m.memory) :=
    perform_offset hbase hindex rfl
  have hstep : stepOrTrap program m = _ := stepOrTrap_instr hk hoffset rfl hperf
  obtain ⟨o, ho⟩ := exists_step_of_run hrun (hreaches.trans (reaches_of_step hstep))
  obtain ⟨size, hpos, r, region, hr, hregion, hnonneg, hle⟩ :=
    contains_of_touches (f := (advance m.frame).set result _) hk haccess htouches
      (Frame.get_set_self hlt) ho
  have hscaled : ((0 : Int64) + x.index.toInt64 * Int64.ofNat x.type.size).toInt =
      x.index.toInt * x.type.size := Context.toInt_scaled x.index x.type
  rw [Pointer.move, hscaled] at hnonneg hle
  have hsize : (0 : Int) < x.type.size := by exact_mod_cast x.type.size_pos
  refine ⟨?_, r, region, hr, hregion, by omega⟩
  exact nonneg_of_mul_nonneg_left (by simpa using hnonneg) hsize

end Machine

end Elements

end Dataflow.Code
