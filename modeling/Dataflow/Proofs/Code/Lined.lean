import Dataflow.Proofs.Code.Body
import Dataflow.Code.Flow

/-!
# Code in line

While a function is lowered its blocks are closed one after the other: every block before the current
one is closed, and nothing has been emitted into those that come after. Values are numbered in the
order in which they are defined. A value is used in the block that defines it or behind a gate, a
block that no run gets past without entering it.
-/

namespace Dataflow.Code

abbrev Event := List ValueId × Option ValueId

def Instr.event (i : Instr) : Event := (i.uses, i.defines)

/-- What a block reads and writes, from its first instruction to its terminator. -/
def Block.trace (k : Block) : List Event :=
  k.instrs.toList.map Instr.event ++ (k.terminator.map fun t => (t.uses, none)).toList

/-- From `n` values on, values are defined in the order of their numbers, up to `m` of them, and
used after that. -/
inductive Numbered : Nat → List Event → Nat → Prop
  | nil (n : Nat) : Numbered n [] n
  | use {n m : Nat} {vs : List ValueId} {xs : List Event} (h : ∀ v ∈ vs, v.index < n)
      (hxs : Numbered n xs m) : Numbered n ((vs, none) :: xs) m
  | define {n m : Nat} {vs : List ValueId} {xs : List Event} (h : ∀ v ∈ vs, v.index < n)
      (hxs : Numbered (n + 1) xs m) : Numbered n ((vs, some ⟨n⟩) :: xs) m

namespace Numbered

variable {n m l : Nat} {xs ys : List Event}

theorem append (h : Numbered n xs m) (h' : Numbered m ys l) : Numbered n (xs ++ ys) l := by
  induction h with
  | nil => exact h'
  | use h _ ih => exact .use h (ih h')
  | define h _ ih => exact .define h (ih h')

theorem exists_of_append (h : Numbered n (xs ++ ys) l) :
    ∃ m, Numbered n xs m ∧ Numbered m ys l := by
  induction xs generalizing n with
  | nil => exact ⟨n, .nil n, h⟩
  | cons x xs ih =>
      cases h with
      | use hx h =>
          obtain ⟨m, hxs, hys⟩ := ih h
          exact ⟨m, .use hx hxs, hys⟩
      | define hx h =>
          obtain ⟨m, hxs, hys⟩ := ih h
          exact ⟨m, .define hx hxs, hys⟩

theorem le (h : Numbered n xs m) : n ≤ m := by
  induction h with
  | nil => exact Nat.le_refl _
  | use _ _ ih => exact ih
  | define _ _ ih => omega

/-- The values that are defined are all those from `n` to `m`, each of them once. -/
theorem defines_eq (h : Numbered n xs m) :
    xs.filterMap Prod.snd = (List.range' n (m - n)).map ValueId.mk := by
  induction h with
  | nil => simp
  | use _ _ ih => simpa using ih
  | @define n m vs xs _ h ih =>
      have hle := h.le
      rw [show m - n = (m - (n + 1)) + 1 by omega, List.range'_succ, List.map_cons, ← ih]
      rfl

end Numbered

/-- Where nothing follows the changed element, what is added to it is added at the end. -/
theorem flatMap_modify {α β : Type} {g : α → List β} {f : α → α} {xs : List β} {x : α} {l : List α}
    {i : Nat} (hx : l[i]? = some x) (hf : g (f x) = g x ++ xs)
    (hafter : ∀ j > i, ∀ y, l[j]? = some y → g y = []) :
    (l.modify i f).flatMap g = l.flatMap g ++ xs := by
  induction l generalizing i with
  | nil => cases hx
  | cons y l ih =>
      cases i with
      | zero =>
          obtain rfl := Option.some.inj hx
          have hrest : l.flatMap g = [] := by
            refine List.flatMap_eq_nil_iff.2 fun z hz => ?_
            obtain ⟨j, hj⟩ := List.mem_iff_getElem?.1 hz
            exact hafter (j + 1) (Nat.succ_pos j) z hj
          simp [hf, hrest]
      | succ i =>
          rw [List.modify_succ_cons, List.flatMap_cons, List.flatMap_cons, ih hx fun j hj z hz =>
            hafter (j + 1) (Nat.succ_lt_succ hj) z hz, List.append_assoc]

namespace Block

variable {k k' : Block} {v : ValueId} {i : Instr} {t : Terminator}

theorem mem_defines : v ∈ k.defines ↔ ∃ i ∈ k.instrs, i.defines = some v := by
  simp [defines]

theorem Within.mem_defines (h : k.Within k') (hv : v ∈ k.defines) : v ∈ k'.defines := by
  obtain ⟨i, hi, hdefines⟩ := Block.mem_defines.1 hv
  obtain ⟨j, hj⟩ := Array.mem_iff_getElem?.1 hi
  exact Block.mem_defines.2 ⟨i, Array.mem_of_getElem? (h.instrs j i hj), hdefines⟩

theorem defines_eq (k : Block) : k.trace.filterMap Prod.snd = k.defines := by
  rw [trace, List.filterMap_append, List.filterMap_map, defines]
  cases k.terminator <;> simp [Function.comp_def, Instr.event]

theorem trace_push (h : k.terminator = none) :
    trace { k with instrs := k.instrs.push i } = k.trace ++ [i.event] := by
  simp [trace, h]

theorem trace_terminate (h : k.terminator = none) :
    trace { k with terminator := some t } = k.trace ++ [(t.uses, none)] := by
  simp [trace, h]

theorem mem_uses_push (hv : v ∈ uses { k with instrs := k.instrs.push i }) :
    v ∈ k.uses ∨ v ∈ i.uses := by
  simp only [uses, Array.toList_push, List.flatMap_append, List.flatMap_singleton,
    List.mem_append] at hv ⊢
  tauto

theorem mem_uses_terminate (h : k.terminator = none)
    (hv : v ∈ uses { k with terminator := some t }) : v ∈ k.uses ∨ v ∈ t.uses := by
  simp only [uses, h, List.mem_append, Option.map_some, Option.getD_some] at hv ⊢
  tauto

end Block

namespace Body

variable {b b' : Body} {n m i j : Nat} {v : ValueId} {id : BlockId} {instr : Instr} {t : Terminator}

/-- The blocks before block `i` are closed, and none of them leads beyond block `g`. -/
def Below (b : Body) (i g : Nat) : Prop :=
  ∀ j < i, ∃ k, b.blocks[j]? = some k ∧ k.isClosed = true ∧ ∀ id ∈ k.targets, id.index ≤ g

/-- No run gets past block `g` without entering it. -/
def Gate (b : Body) (g : Nat) : Prop := b.Below g g

/-- Whatever run gets to block `i` has defined the value before or defines it there. -/
def Visible (b : Body) (i : Nat) (v : ValueId) : Prop :=
  v.index < b.args.length ∨
    ∃ g k, b.blocks[g]? = some k ∧ v ∈ k.defines ∧ (g = i ∨ g < i ∧ b.Gate g)

/-- Values are numbered in the order of their definitions, `n` so far, and visible where they are
used. -/
structure Ordered (b : Body) (n : Nat) : Prop where
  args : b.args = (List.range b.args.length).map ValueId.mk
  numbered : Numbered b.args.length (b.blocks.toList.flatMap Block.trace) n
  near : ∀ (i : Nat) (k : Block), b.blocks[i]? = some k → ∀ v ∈ k.uses, b.Visible i v
  first : ∀ k ∈ b.blocks, ⟨0⟩ ∉ k.targets
  places : ∀ k ∈ b.blocks, ∀ v s, .stackAddress v s ∈ k.instrs → s.index < b.stack.size

/-- The blocks have been entered one after the other, and the last one of them is open. -/
structure Lined (b : Body) (n : Nat) : Prop extends Ordered b n where
  layout : b.layout = (List.range (b.current.index + 1)).map BlockId.mk
  current : ∃ k, b.OpenAt b.current k
  before : ∀ i < b.current.index, ∃ k, b.blocks[i]? = some k ∧ k.isClosed = true
  after : ∀ i > b.current.index, ∀ k, b.blocks[i]? = some k →
    k.instrs = #[] ∧ k.terminator = none

structure Level (b : Body) : Prop where
  gate : b.Gate b.current.index
  last : b.blocks.size = b.current.index + 1

theorem Below.mono {g : Nat} (h : b.Below i g) (hw : b.Within b') : b'.Below i g := by
  intro j hj
  obtain ⟨k, hk, hclosed, htargets⟩ := h j hj
  have hclosed' : b.ClosedAt ⟨j⟩ k := ⟨hk, hclosed⟩
  exact ⟨k, (hclosed'.of_within hw).1, hclosed, htargets⟩

theorem Below.weaken {g g' : Nat} (h : b.Below i g) (hg : g ≤ g') : b.Below i g' := by
  intro j hj
  obtain ⟨k, hk, hclosed, htargets⟩ := h j hj
  exact ⟨k, hk, hclosed, fun id hid => (htargets id hid).trans hg⟩

/-- A block is closed that does not lead beyond `g` either. -/
theorem Below.terminate {g : Nat} (h : b.Below b.current.index g) (ht : b.terminate t = .ok b')
    (hg : ∀ id ∈ t.targets, id.index ≤ g) : b'.Below (b.current.index + 1) g := by
  intro j hj
  rcases Nat.lt_succ_iff_lt_or_eq.1 hj with hj | rfl
  · exact h.mono (within_terminate ht) j hj
  · obtain ⟨k, hk, -, hterm⟩ := terminator_of_terminate ht (.refl _)
    refine ⟨k, hk, by rw [Block.isClosed, hterm]; rfl, ?_⟩
    rwa [Block.targets, hterm]

theorem Visible.mono (h : b.Visible i v) (hw : b.Within b') : b'.Visible i v := by
  rcases h with h | ⟨g, k, hk, hv, h⟩
  · exact Or.inl (hw.args ▸ h)
  · obtain ⟨k', hk', hkw⟩ := hw.blocks g k hk
    exact Or.inr ⟨g, k', hk', hkw.mem_defines hv, h.imp_right fun h => ⟨h.1, h.2.mono hw⟩⟩

/-- What is visible in a gate is visible in the blocks behind it. -/
theorem Visible.later (h : b.Visible i v) (hgate : b.Gate i) (hij : i < j) : b.Visible j v := by
  rcases h with h | ⟨g, k, hk, hv, rfl | ⟨hg, hgate'⟩⟩
  · exact Or.inl h
  · exact Or.inr ⟨g, k, hk, hv, Or.inr ⟨hij, hgate⟩⟩
  · exact Or.inr ⟨g, k, hk, hv, Or.inr ⟨hg.trans hij, hgate'⟩⟩

theorem Lined.trace_eq_nil (h : b.Lined n) (hi : b.current.index < i) {k : Block}
    (hk : b.blocks[i]? = some k) : k.trace = [] := by
  obtain ⟨hinstrs, hterm⟩ := h.after i hi k hk
  simp [Block.trace, hinstrs, hterm]

/-- The current block is exchanged for one that has read and written something more. -/
theorem Lined.modify (h : b.Lined n) {f : Block → Block} {k : Block} {x : Event}
    (hk : b.OpenAt b.current k) (hgrown : Prefix k.instrs (f k).instrs)
    (htrace : (f k).trace = k.trace ++ [x]) (hx : Numbered n [x] m)
    (huses : ∀ v ∈ (f k).uses, v ∈ k.uses ∨ v ∈ x.1)
    (hvisible : ∀ v ∈ x.1, b.Visible b.current.index v) (hfirst : ⟨0⟩ ∉ (f k).targets)
    (hplaces : ∀ v s, .stackAddress v s ∈ (f k).instrs → s.index < b.stack.size) :
    Ordered { b with blocks := b.blocks.modify b.current.index f } m := by
  have hw := within_modify hk hgrown
  -- Every block is one that was there before or the one that has been changed.
  have hblock : ∀ (j : Nat) (k' : Block), (b.blocks.modify b.current.index f)[j]? = some k' →
      b.blocks[j]? = some k' ∨ j = b.current.index ∧ k' = f k := by
    intro j k' hk'
    rw [Array.getElem?_modify] at hk'
    split at hk'
    · next hj =>
        subst hj
        rw [hk.1, Option.map_some] at hk'
        exact Or.inr ⟨rfl, (Option.some.inj hk').symm⟩
    · exact Or.inl hk'
  refine ⟨h.args, ?_, fun j k' hk' v hv => ?_, fun k' hk' => ?_, fun k' hk' => ?_⟩
  · have hblocks : (b.blocks.modify b.current.index f).toList.flatMap Block.trace =
        b.blocks.toList.flatMap Block.trace ++ [x] := by
      rw [Array.toList_modify]
      refine flatMap_modify (by rw [Array.getElem?_toList]; exact hk.1) htrace fun j hj k' hk' => ?_
      rw [Array.getElem?_toList] at hk'
      exact h.trace_eq_nil hj hk'
    exact hblocks ▸ h.numbered.append hx
  · rcases hblock j k' hk' with hk' | ⟨rfl, rfl⟩
    · exact (h.near j k' hk' v hv).mono hw
    · rcases huses v hv with hv | hv
      · exact (h.near _ k hk.1 v hv).mono hw
      · exact (hvisible v hv).mono hw
  · obtain ⟨j, hj⟩ := Array.mem_iff_getElem?.1 hk'
    rcases hblock j k' hj with hj | ⟨-, rfl⟩
    · exact h.first k' (Array.mem_of_getElem? hj)
    · exact hfirst
  · obtain ⟨j, hj⟩ := Array.mem_iff_getElem?.1 hk'
    rcases hblock j k' hj with hj | ⟨-, rfl⟩
    · exact h.places k' (Array.mem_of_getElem? hj)
    · exact hplaces

/-- Other blocks than the current one stay as they are. -/
theorem Lined.of_blocks (h : b.Lined n) (ho : b'.Ordered m) (hlayout : b'.layout = b.layout)
    (hcurrent : b'.current = b.current) {k : Block} (hk : b'.OpenAt b.current k)
    (hblocks : ∀ i ≠ b.current.index, b'.blocks[i]? = b.blocks[i]?) : b'.Lined m where
  toOrdered := ho
  layout := by rw [hlayout, hcurrent, h.layout]
  current := ⟨k, hcurrent ▸ hk⟩
  before i hi := by
    rw [hcurrent] at hi
    rw [hblocks i hi.ne]
    exact h.before i hi
  after i hi k' hk' := by
    rw [hcurrent] at hi
    rw [hblocks i hi.ne'] at hk'
    exact h.after i hi k' hk'

/-- An instruction can be recorded whose operands are visible. -/
theorem Lined.exists_push (h : b.Lined n) (hx : Numbered n [instr.event] m)
    (hvisible : ∀ v ∈ instr.uses, b.Visible b.current.index v)
    (hplace : ∀ v s, instr = .stackAddress v s → s.index < b.stack.size) :
    ∃ b', b.push instr = .ok b' ∧ b'.Lined m := by
  obtain ⟨k, hk⟩ := h.current
  refine ⟨_, push_eq_ok_iff.2 ⟨⟨k, hk⟩, rfl⟩, ?_⟩
  have ho : Ordered { b with blocks := b.blocks.modify b.current.index fun k =>
      { k with instrs := k.instrs.push instr } } m := by
    refine h.modify hk (.push _ _) (Block.trace_push hk.2) hx
      (fun _ hv => Block.mem_uses_push hv) hvisible
      (h.first k (Array.mem_of_getElem? hk.1)) fun v s hs => ?_
    rcases Array.mem_push.1 hs with hs | hs
    · exact h.places k (Array.mem_of_getElem? hk.1) v s hs
    · exact hplace v s hs.symm
  refine h.of_blocks ho rfl rfl (k := { k with instrs := k.instrs.push instr }) ⟨?_, hk.2⟩
    fun i hi => ?_
  · exact (Array.getElem?_modify ..).trans ((if_pos rfl).trans (by rw [hk.1]; rfl))
  · exact (Array.getElem?_modify ..).trans (if_neg hi.symm)

/-- The current block can be closed. -/
theorem Lined.exists_terminate (h : b.Lined n)
    (huses : ∀ v ∈ t.uses, v.index < n ∧ b.Visible b.current.index v)
    (htargets : ⟨0⟩ ∉ t.targets) : ∃ b', b.terminate t = .ok b' ∧ b'.Ordered n := by
  obtain ⟨k, hk⟩ := h.current
  refine ⟨_, terminate_eq_ok_iff.2 ⟨⟨k, hk⟩, rfl⟩, ?_⟩
  exact h.modify hk (.refl _) (Block.trace_terminate hk.2)
    (.use (fun v hv => (huses v hv).1) (.nil n)) (fun _ hv => Block.mem_uses_terminate hk.2 hv)
    (fun v hv => (huses v hv).2) htargets (h.places k (Array.mem_of_getElem? hk.1))

/-- From a block that is closed the recording goes on in the next one. -/
theorem Lined.exists_switchTo (h : b.Lined n) (ht : b.terminate t = .ok b') (ho : b'.Ordered n)
    (hid : id.index = b.current.index + 1) (hlt : id.index < b.blocks.size) :
    ∃ b'', b'.switchTo id = .ok b'' ∧ b''.Lined n := by
  obtain ⟨-, rfl⟩ := terminate_eq_ok_iff.1 ht
  obtain ⟨id⟩ := id
  obtain rfl : id = b.current.index + 1 := hid
  obtain ⟨k, hk⟩ := h.current
  have hblock : ∀ i ≠ b.current.index, (b.blocks.modify b.current.index fun k =>
      { k with terminator := some t })[i]? = b.blocks[i]? :=
    fun i hi => (Array.getElem?_modify ..).trans (if_neg hi.symm)
  have hnext : b.blocks[b.current.index + 1]? = some b.blocks[b.current.index + 1] :=
    Array.getElem?_eq_getElem hlt
  have hfresh := (h.after _ (Nat.lt_succ_self _) _ hnext).2
  have hlayout : b.layout.contains ⟨b.current.index + 1⟩ = false := by
    rw [h.layout]
    simp
  have hopen := And.intro ((hblock _ (Nat.succ_ne_self _)).trans hnext) hfresh
  refine ⟨_, switchTo_eq_ok_iff.2 ⟨⟨_, hopen⟩, rfl⟩, ⟨ho.args, ho.numbered, ho.near, ho.first, ho.places⟩,
    ?_, ⟨_, hopen⟩, fun i hi => ?_, fun i hi k' hk' => ?_⟩
  · change (if b.layout.contains ⟨b.current.index + 1⟩ then _ else _) = _
    rw [hlayout, h.layout, List.range_succ (n := b.current.index + 1), List.map_append]
    rfl
  · rcases Nat.lt_succ_iff_lt_or_eq.1 (show i < b.current.index + 1 from hi) with hi | rfl
    · exact (hblock i hi.ne).symm ▸ h.before i hi
    · refine ⟨{ k with terminator := some t }, ?_, rfl⟩
      exact (Array.getElem?_modify ..).trans ((if_pos rfl).trans (by rw [hk.1]; rfl))
  · have hi : b.current.index < i := Nat.lt_of_succ_lt hi
    exact h.after i hi k' ((hblock i hi.ne').symm.trans hk')

theorem Lined.newBlock (h : b.Lined n) (label : String) : (b.newBlock label).2.Lined n := by
  have hw := b.within_newBlock label
  have hpush : ∀ (i : Nat) (k : Block), (b.blocks.push { label })[i]? = some k →
      b.blocks[i]? = some k ∨ k = { label } :=
    fun i k hk => (getElem?_of_push hk).imp_right And.right
  obtain ⟨k, hk⟩ := h.current
  refine ⟨⟨h.args, ?_, fun i k hk v hv => ?_, fun k hk => ?_, fun k hk => ?_⟩, h.layout,
    ⟨k, Prefix.push _ _ _ _ hk.1, hk.2⟩, fun i hi => ?_, fun i hi k hk => ?_⟩
  · simpa [Body.newBlock, Block.trace] using h.numbered
  · rcases hpush i k hk with hk | rfl
    · exact (h.near i k hk v hv).mono hw
    · simp [Block.uses] at hv
  · rcases Array.mem_push.1 hk with hk | rfl
    · exact h.first k hk
    · simp [Block.targets]
  · rcases Array.mem_push.1 hk with hk | rfl
    · exact h.places k hk
    · simp
  · obtain ⟨k, hk, hclosed⟩ := h.before i hi
    exact ⟨k, Prefix.push _ _ _ _ hk, hclosed⟩
  · rcases hpush i k hk with hk | rfl
    · exact h.after i hi k hk
    · exact ⟨rfl, rfl⟩

/-- A body that has just been opened is in line, and its entry is its last block. -/
theorem lined_of_entry {label : String} (hblocks : b.blocks = #[{ label }])
    (hargs : b.args = (List.range n).map ValueId.mk) (hlayout : b.layout = [⟨0⟩])
    (hcurrent : b.current = ⟨0⟩) : b.Lined n ∧ b.Level := by
  have hlength : b.args.length = n := by simp [hargs]
  have hblock : ∀ (i : Nat) (k : Block), b.blocks[i]? = some k → i = 0 ∧ k = { label } := by
    intro i k hk
    rw [hblocks] at hk
    cases i with
    | zero => exact ⟨rfl, (Option.some.inj hk).symm⟩
    | succ i => cases hk
  have hmem : ∀ k ∈ b.blocks, k = { label } := by
    intro k hk
    obtain ⟨i, hi⟩ := Array.mem_iff_getElem?.1 hk
    exact (hblock i k hi).2
  refine ⟨⟨⟨?_, ?_, fun i k hk v hv => ?_, fun k hk => ?_, fun k hk v s hs => ?_⟩, ?_, ?_,
    fun i hi => ?_, fun i hi k hk => ?_⟩, fun i hi => ?_, ?_⟩
  · rw [hlength, hargs]
  · rw [hlength, hblocks]
    exact .nil n
  · obtain ⟨-, rfl⟩ := hblock i k hk
    simp [Block.uses] at hv
  · rw [hmem k hk]
    simp [Block.targets]
  · rw [hmem k hk] at hs
    simp at hs
  · rw [hlayout, hcurrent]
    rfl
  · exact ⟨{ label }, by rw [OpenAt, hcurrent, hblocks]; exact ⟨rfl, rfl⟩⟩
  · rw [hcurrent] at hi
    cases hi
  · rw [hcurrent] at hi
    obtain ⟨rfl, -⟩ := hblock i k hk
    cases hi
  · rw [hcurrent] at hi
    cases hi
  · rw [hblocks, hcurrent]
    rfl

/-- What is not code can change. -/
theorem Lined.of_eq (h : b.Lined n) (hblocks : b'.blocks = b.blocks) (hargs : b'.args = b.args)
    (hlayout : b'.layout = b.layout) (hcurrent : b'.current = b.current)
    (hstack : b.stack.size ≤ b'.stack.size) : b'.Lined n where
  args := hargs ▸ h.args
  numbered := by
    rw [hargs, hblocks]
    exact h.numbered
  near i k hk v hv := by
    have hv := h.near i k (hblocks ▸ hk) v hv
    unfold Visible Gate Below at hv ⊢
    rwa [hargs, hblocks]
  first := hblocks ▸ h.first
  places k hk v s hs := (h.places k (hblocks ▸ hk) v s hs).trans_le hstack
  layout := by rw [hlayout, hcurrent, h.layout]
  current := by
    obtain ⟨k, hk⟩ := h.current
    exact ⟨k, by rw [OpenAt, hblocks, hcurrent]; exact hk⟩
  before := by
    rw [hblocks, hcurrent]
    exact h.before
  after := by
    rw [hblocks, hcurrent]
    exact h.after

end Body

end Dataflow.Code
