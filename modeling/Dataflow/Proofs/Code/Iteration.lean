import Dataflow.Proofs.Code.Indexed
import Dataflow.Proofs.Code.LoopShape

/-!
# Elements are addressed in loops

In code that is made of straight-line pieces and of loops with straight-line bodies, the address of an
element is only computed in the body of a loop, from the variable of that loop and an offset. What is
emitted later leaves the loop as it is.
-/

namespace Dataflow.Code

open CountedLoop (Laid)

namespace Body

/-- The address of an element is computed in the body of a loop. Of the loop it is known how often it
runs, and which offsets are added to its variable. -/
structure Iterates (b : Body) (T : Nat → (Access → Nat → Prop) → Prop) (g p : Nat)
    (result base index : ValueId) (scale n count : Nat) (parts : LoopParts)
    (S : Access → Nat → Prop) : Prop where
  block : g = n + 2
  size : n + 5 ≤ b.blocks.size
  laid : Laid b n parts count
  offsets : T count S
  indexes : ∃ k, b.blocks[g]? = some k ∧ k.Indexes b.args parts.var S p result base index scale

structure Looped (T : Nat → (Access → Nat → Prop) → Prop) (b : Body) : Prop where
  current : b.current.index < b.blocks.size
  edges : ∀ g t, b.Edge g t → t < b.blocks.size
  iterates : ∀ g p result base index scale, b.OffsetAt g p result base index scale →
    ∃ n count parts S, b.Iterates T g p result base index scale n count parts S

variable {b b' : Body} {T T' : Nat → (Access → Nat → Prop) → Prop} {g p n count scale : Nat}
  {result base index : ValueId} {parts : LoopParts} {S : Access → Nat → Prop}

theorem Iterates.mono (h : b.Iterates T g p result base index scale n count parts S)
    (hw : b.Within b') (hsize : b.blocks.size ≤ b'.blocks.size)
    (hedges : ∀ g t, b'.Edge g t → b.Edge g t ∨ b.blocks.size ≤ t) :
    b'.Iterates T g p result base index scale n count parts S where
  block := h.block
  size := h.size.trans hsize
  laid := h.laid.mono hw fun g t ht => (hedges g t ht).imp_right h.size.trans
  offsets := h.offsets
  indexes := by
    obtain ⟨k, hk, hindexes⟩ := h.indexes
    obtain ⟨k', hk', hprefix⟩ := hw.blocks _ k hk
    exact ⟨k', hk', hw.args ▸ hindexes.mono hprefix.instrs⟩

/-- A block may be closed that goes on to no other one. -/
theorem Looped.terminate (h : b.Looped T) {r : Terminator} (ht : b.terminate r = .ok b')
    (hnone : r.targets = []) : b'.Looped T := by
  have hedges : ∀ g t, b'.Edge g t → b.Edge g t := fun g t hedge =>
    (hedge.of_terminate ht).resolve_right fun ⟨_, ht⟩ => by
      rw [hnone] at ht
      cases ht
  obtain ⟨-, hb'⟩ := terminate_eq_ok_iff.1 ht
  have hsize : b'.blocks.size = b.blocks.size := by
    rw [hb']
    exact Array.size_modify
  refine ⟨?_, fun g t hedge => ?_, fun g p result base index scale ho => ?_⟩
  · rw [hsize, show b'.current = b.current by rw [hb']]
    exact h.current
  · rw [hsize]
    exact h.edges g t (hedges g t hedge)
  obtain ⟨k', hk', hi⟩ := ho
  rcases (Echoes.terminate ht).blocks g k' hk' with hempty | ⟨k, hk, hinstrs⟩
  · rw [hempty] at hi
    cases hi
  obtain ⟨n, count, parts, S, hit⟩ := h.iterates g p result base index scale ⟨k, hk, hinstrs ▸ hi⟩
  exact ⟨n, count, parts, S, hit.mono (within_terminate ht) hsize.ge fun g t ht => .inl (hedges g t ht)⟩

end Body

namespace Emitter

open CountedLoop (idle opened begun_of_beginRange ended_of_finish laid_of_loop)

variable {e e' e₁ e₂ e₃ : Emitter} {T : Nat → (Access → Nat → Prop) → Prop} {X : VarId → Prop}
  {g p scale count : Nat} {result base index : ValueId} {S : Access → Nat → Prop} {x : VarId}
  {parts : LoopParts} {l : CountedLoop}

/-- What computes no addresses of elements leaves those that there are. -/
theorem Steps.offsetAt (h : Steps Instr.Unindexed e e')
    (ho : e'.body.OffsetAt g p result base index scale) :
    e.body.OffsetAt g p result base index scale := by
  obtain ⟨k, hk, hi⟩ := ho
  have hindexes : e.body.IndexesSince e'.body ⟨0⟩ fun _ _ => False := h.indexes
  refine (hindexes g k p result base index scale hk hi).resolve_right fun hi => ?_
  obtain ⟨_, _, _, _, -, -, hfalse, -⟩ := hi.access
  exact hfalse

/-- Straight-line code that computes no addresses of elements changes nothing. -/
theorem Inline.looped (hi : e.Inline X e') (hs : Steps Instr.Unindexed e e')
    (h : e.body.Looped T) : e'.body.Looped T where
  current := by
    rw [hi.current, hi.size]
    exact h.current
  edges g t ht := (h.edges g t (hi.edge ht)).trans_eq hi.size.symm
  iterates g p result base index scale ho := by
    obtain ⟨n, count, parts, S, hit⟩ := h.iterates g p result base index scale (hs.offsetAt ho)
    exact ⟨n, count, parts, S, hit.mono hs.within hi.size.ge fun g t ht => .inl (hi.edge ht)⟩

/-- In a loop addresses of elements may be computed from its variable. -/
theorem looped_of_loop (h : e.body.Looped T) (hcount : count < 2 ^ 31)
    (hbegin : Succeeds (idle.begin (Int32.ofNat count)) e (opened parts) e₁)
    (hinline : Inline (· = parts.var) e₁ e₂) (hbody : e₁.Addresses parts.var S e₂)
    (hend : Succeeds (opened parts).finish e₂ l e₃) (hT : T count S) : e₃.body.Looped T := by
  have hbegun : Steps Instr.Unindexed e e₁ := (Emit.leaves_beginRange _ _ _ _).of_succeeds hbegin
  have hended : Steps Instr.Unindexed e₂ e₃ := (Emit.leaves_finish fun _ _ =>
    ⟨Emit.leaves_switchTo _, Emit.leaves_switchTo _, fun _ => Emit.Moves.release _⟩).of_succeeds hend
  obtain ⟨hlaid, hchains, hsize⟩ := laid_of_loop hcount hbegin hinline rfl hbody.steps.within hend
    h.current h.edges
  obtain ⟨-, _, _, hparts, hentered, -⟩ := begun_of_beginRange hbegin
  obtain rfl := opened.inj hparts
  have hw : e.body.Within e₃.body := (hbegun.within.trans hbody.steps.within).trans hended.within
  have hold : ∀ g p result base index scale, e.body.OffsetAt g p result base index scale →
      ∃ n count parts S, e₃.body.Iterates T g p result base index scale n count parts S := by
    intro g p result base index scale ho
    obtain ⟨n, count, parts, S, hit⟩ := h.iterates g p result base index scale ho
    exact ⟨n, count, parts, S, hit.mono hw hchains.size fun g t ht =>
      (hchains.edges g t ht).imp_right And.left⟩
  refine ⟨?_, fun g t ht => ?_, fun g p result base index scale ho => ?_⟩
  · rw [(ended_of_finish hend).current, hlaid.beside, hsize]
    exact Nat.lt_succ_self _
  · rcases hchains.edges g t ht with ht | ht
    · exact (h.edges g t ht).trans_le hchains.size
    · exact ht.2
  obtain ⟨k, hk, hi⟩ := hended.offsetAt ho
  rcases hbody.indexes g k p result base index scale hk hi with ho | hindexes
  · exact hold g p result base index scale (hbegun.offsetAt ho)
  by_cases hg : g = e₁.body.current.index
  · obtain ⟨k', hk', hprefix⟩ := hended.within.blocks _ k hk
    refine ⟨_, count, _, S, ?_, hsize.ge, hlaid, hT, k', hk', ?_⟩
    · rw [hg, hentered.current, hlaid.body]
    · exact hended.within.args ▸ hindexes.mono hprefix.instrs
  · rw [hinline.others g hg] at hk
    exact hold g p result base index scale (hbegun.offsetAt ⟨k, hk, hi⟩)

end Emitter

end Dataflow.Code
