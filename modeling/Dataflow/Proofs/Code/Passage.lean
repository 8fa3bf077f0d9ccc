import Dataflow.Proofs.Code.Activation
import Dataflow.Proofs.Code.Once

/-!
# What a call keeps on its way

Other calls come and go above a call, but none of them touches its frame. So a value of the frame keeps
its word on a way that avoids the blocks in which the value is defined. And a way that avoids a block
also avoids the blocks that lead nowhere else.
-/

namespace Dataflow.Code

namespace Activation

variable {A : Activation} {P : BlockId → Prop} {m m' : Machine} {σ σ' : Store} {id id' : BlockId}
  {f : Frame} {awaited : Option ValueId} {v : ValueId} {next next' : Nat}

/-- The frame is that of the call, on top of the machine or under the frames of its own calls, and this
is the value that it waits for. -/
inductive Rests (A : Activation) : Frame → Option ValueId → Machine → Prop
  | top (f : Frame) (hbody : f.body = A.body) (memory : Memory) :
      Rests A f none ⟨f, A.callers, memory⟩
  | under (f : Frame) (hbody : f.body = A.body) (g : Frame) (above : List Caller)
      (awaited : Option ValueId) (memory : Memory) :
      Rests A f awaited ⟨g, above ++ ⟨f, awaited⟩ :: A.callers, memory⟩

theorem rests_machine (id : BlockId) (next : Nat) (σ : Store) :
    A.Rests (A.machine id next σ).frame none (A.machine id next σ) :=
  .top _ rfl σ.memory

/-- When the call does not wait, its frame is the one on top. -/
theorem Rests.eq_frame (h : A.Rests f awaited m) (hm : m.callers = A.callers) : f = m.frame := by
  cases h with
  | top => rfl
  | under hbody g above awaited memory =>
      have hlength := congrArg List.length hm
      rw [List.length_append, List.length_cons] at hlength
      omega

/-- What a step does to the frame of the call: it stays in its block or follows the terminator, and no
value changes but those that are defined in the block, or awaited. -/
structure Passes (A : Activation) (m m' : Machine) (f : Frame) (awaited : Option ValueId) (f' : Frame)
    (awaited' : Option ValueId) : Prop where
  rests : A.Rests f' awaited' m'
  block : f'.block = f.block ∨ m.callers = A.callers ∧ ∃ k t,
    A.body.blocks[f.block.index]? = some k ∧ k.terminator = some t ∧ f'.block ∈ t.targets
  value : ∀ v, awaited ≠ some v →
    (m.callers = A.callers → ∀ p, ¬ A.body.DefinedAt v f.block.index p) →
    awaited' ≠ some v ∧ f'.values[v.index]? = f.values[v.index]?

theorem Rests.goes {ω : Surroundings} (h : A.Rests f awaited m) (hgoes : m.Goes ω m')
    (hcallers : A.callers <:+ m'.callers) : ∃ f' awaited', A.Passes m m' f awaited f' awaited' := by
  cases h with
  | top hbody memory =>
      cases hgoes with
      | @perform k i f' memory' hk hi hperf =>
          have hk : A.body.blocks[f.block.index]? = some k := hbody ▸ hk
          obtain ⟨hbody', hblock, -⟩ := Machine.place_of_perform hperf
          refine ⟨f', none, .top f' (hbody'.trans hbody) memory', .inl hblock, fun v _ hdef => ⟨nofun, ?_⟩⟩
          obtain rfl | ⟨u, w, hu, rfl⟩ | ⟨x, u, w, -, rfl⟩ := Machine.frame_of_perform hperf
          · rfl
          · refine Array.getElem?_setIfInBounds_ne fun huv => ?_
            obtain rfl : u = v := congrArg ValueId.mk huv
            exact hdef rfl f.next ⟨k, i, hk, hi, hu⟩
          · rfl
      | @call k result function args callee words hk hi =>
          have hk : A.body.blocks[f.block.index]? = some k := hbody ▸ hk
          refine ⟨Machine.advance f, result, .under (Machine.advance f) hbody _ [] result _, .inl rfl,
            fun v _ hdef => ⟨fun hv => ?_, rfl⟩⟩
          exact hdef rfl f.next ⟨k, _, hk, hi, hv⟩
      | @goto k t target hk hi ht hpicks =>
          have hk : A.body.blocks[f.block.index]? = some k := hbody ▸ hk
          exact ⟨Machine.goto f target, none, .top (Machine.goto f target) hbody memory,
            .inr ⟨rfl, k, t, hk, ht, hpicks.mem⟩, fun v _ _ => ⟨nofun, rfl⟩⟩
      | leave heq hf =>
          have hlength := congrArg List.length heq
          have hle := hcallers.length_le
          rw [List.length_cons] at hlength
          dsimp only at hlength hle
          omega
  | under hbody g above awaited memory =>
      cases hgoes with
      | @perform k i f' memory' hk hi hperf =>
          exact ⟨f, awaited, .under _ hbody f' above awaited memory', .inl rfl, fun v hv _ => ⟨hv, rfl⟩⟩
      | @call k result function args callee words hk hi =>
          exact ⟨f, awaited, .under _ hbody _ (_ :: above) awaited _, .inl rfl, fun v hv _ => ⟨hv, rfl⟩⟩
      | @goto k t target hk hi ht hpicks =>
          exact ⟨f, awaited, .under _ hbody _ above awaited memory, .inl rfl, fun v hv _ => ⟨hv, rfl⟩⟩
      | @leave caller callers f' memory' heq hf =>
          cases above with
          | cons c above =>
              obtain ⟨rfl, rfl⟩ := List.cons.inj heq
              exact ⟨f, awaited, .under _ hbody f' above awaited memory', .inl rfl,
                fun v hv _ => ⟨hv, rfl⟩⟩
          | nil =>
              obtain ⟨rfl, rfl⟩ := List.cons.inj heq
              rcases hf with rfl | ⟨u, w, hu, rfl⟩
              · exact ⟨_, none, .top _ hbody memory', .inl rfl, fun v _ _ => ⟨nofun, rfl⟩⟩
              · refine ⟨_, none, .top (Frame.set _ u w) hbody memory', .inl rfl, fun v hv _ => ⟨nofun, ?_⟩⟩
                refine Array.getElem?_setIfInBounds_ne fun huv => hv ?_
                obtain rfl : u = v := congrArg ValueId.mk huv
                exact hu

/-- A value keeps its word on a way that avoids the blocks in which it is defined. -/
theorem Along.value_eq (h : A.Along P (A.machine id next σ) (A.machine id' next' σ'))
    (hv : ∀ g p, A.body.DefinedAt v g p → ¬ P ⟨g⟩) : σ'.values[v.index]? = σ.values[v.index]? := by
  have hkept : ∀ m, A.Along P (A.machine id next σ) m → ∃ f awaited, A.Rests f awaited m ∧
      awaited ≠ some v ∧ f.values[v.index]? = σ.values[v.index]? := by
    intro m hm
    induction hm with
    | refl => exact ⟨_, none, rests_machine id next σ, nofun, rfl⟩
    | tail _ hstep ih =>
        obtain ⟨hstep, hcallers, hP⟩ := hstep
        obtain ⟨f, awaited, hrests, hawaited, hvalue⟩ := ih
        obtain ⟨f', awaited', hpasses⟩ := hrests.goes (Machine.goes_of_step hstep) hcallers
        obtain ⟨hawaited', hvalue'⟩ := hpasses.value v hawaited fun hm p hdef =>
          hv _ p hdef (hrests.eq_frame hm ▸ hP hm)
        exact ⟨f', awaited', hpasses.rests, hawaited', hvalue'.trans hvalue⟩
  obtain ⟨f, awaited, hrests, -, hvalue⟩ := hkept _ h
  obtain rfl := hrests.eq_frame rfl
  exact hvalue

/-- A way that avoids a block also avoids a block that only leads there, unless it ends in one of
them. -/
theorem Along.avoids {only target : BlockId} {k : Block} (hk : A.body.blocks[only.index]? = some k)
    (ht : k.terminator = some (.jump target)) (htarget : ¬ P target) (honly : id' ≠ only)
    (hend : id' ≠ target) (h : A.Along P (A.machine id next σ) (A.machine id' next' σ')) :
    A.Along (fun i => P i ∧ i ≠ only) (A.machine id next σ) (A.machine id' next' σ') := by
  -- Whether a block is on the way is known from what comes behind it.
  have hbehind : ∀ m, A.Along P m (A.machine id' next' σ') → ∀ f awaited, A.Rests f awaited m →
      A.Along (fun i => P i ∧ i ≠ only) m (A.machine id' next' σ') ∧
        f.block ≠ only ∧ f.block ≠ target := by
    intro m hm
    induction hm using Relation.ReflTransGen.head_induction_on with
    | refl =>
        intro f awaited hrests
        obtain rfl := hrests.eq_frame rfl
        exact ⟨.refl, honly, hend⟩
    | @head m m₁ hstep _ ih =>
        intro f awaited hrests
        obtain ⟨hgo, hcallers, hP⟩ := hstep
        obtain ⟨f', awaited', hpasses⟩ := hrests.goes (Machine.goes_of_step hgo) hcallers
        obtain ⟨hrest, honly', htarget'⟩ := ih f' awaited' hpasses.rests
        have hblock : f.block ≠ only ∧ f.block ≠ target := by
          rcases hpasses.block with heq | ⟨hm, k', t, hk', ht', hmem⟩
          · rw [← heq]
            exact ⟨honly', htarget'⟩
          · have hhere := hP hm
            rw [← hrests.eq_frame hm] at hhere
            refine ⟨fun heq => htarget' ?_, fun heq => htarget (heq ▸ hhere)⟩
            rw [heq] at hk'
            obtain rfl := Option.some.inj (hk.symm.trans hk')
            obtain rfl := Option.some.inj (ht.symm.trans ht')
            exact List.mem_singleton.1 hmem
        refine ⟨.head ⟨hgo, hcallers, fun hm => ⟨hP hm, ?_⟩⟩ hrest, hblock⟩
        rw [← hrests.eq_frame hm]
        exact hblock.1
  exact (hbehind _ h _ _ (rests_machine id next σ)).1

end Activation

end Dataflow.Code
