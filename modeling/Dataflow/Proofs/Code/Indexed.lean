import Dataflow.Proofs.Code.CountedLoop
import Dataflow.Proofs.Code.Once

/-!
# Addresses of elements

The address of an element is computed from that of a buffer and an index, and the next instruction
loads or stores what is there. The index is a number that has been read from the variable of a loop,
moved up by an offset that was known when the code was emitted. So it is in every block of the code that
is emitted for nodes and for the output.
-/

namespace Dataflow.Code

inductive Access
  | read
  | write

inductive Instr.Touches (address : ValueId) : Access → Instr → Prop
  | load (result : ValueId) : Touches address .read (.load result address 0)
  | store (value : ValueId) : Touches address .write (.store address 0 value)

namespace Block

variable {k k' : Block} {p q s : Nat} {i : Instr} {v base counter index result : ValueId}
  {x : VarId} {args : List ValueId} {S : Access → Nat → Prop} {scale : Nat}

def Before (k : Block) (p : Nat) (i : Instr) : Prop := ∃ q < p, k.instrs[q]? = some i

/-- Before a position a counter is read from a variable, and an index is made of it that is higher by
`s`. The sum is one of 32 bits. -/
inductive Shifts (k : Block) (x : VarId) (p : Nat) : Nat → ValueId → ValueId → Prop
  | counter {i : ValueId} (hi : k.Before p (.readVar i x)) : Shifts k x p 0 i i
  | moved {s : Nat} {i c j : ValueId} (hs : s < 2 ^ 31)
      (hi : k.Before p (.readVar i x)) (hc : k.Before p (.const c (.i32 (Int32.ofNat s))))
      (hj : k.Before p (.binary j .add i c)) : Shifts k x p s i j

def Anchors (k : Block) (p : Nat) (v : ValueId) : Prop :=
  (∃ slot, k.Before p (.stackAddress v slot)) ∨ ∃ datum, k.Before p (.datumAddress v datum)

/-- At a position the address of an element is computed, and used at the next one. The index is higher
than what has been read from the variable by one of the offsets `S`. -/
structure Indexes (k : Block) (args : List ValueId) (x : VarId) (S : Access → Nat → Prop) (p : Nat)
    (result base index : ValueId) (scale : Nat) : Prop where
  anchors : base ∈ args ∨ k.Anchors p base
  scale : ∃ t : Ty, scale = t.size
  access : ∃ i a s counter, k.instrs[p + 1]? = some i ∧ i.Touches result a ∧ S a s ∧
    k.Shifts x p s counter index

theorem Before.mono (h : k.Before p i) (hk : Prefix k.instrs k'.instrs) (hp : p ≤ q) :
    k'.Before q i := by
  obtain ⟨n, hn, hi⟩ := h
  exact ⟨n, hn.trans_le hp, hk n i hi⟩

theorem Shifts.mono (h : k.Shifts x p s counter index) (hk : Prefix k.instrs k'.instrs)
    (hp : p ≤ q) : k'.Shifts x q s counter index := by
  cases h with
  | counter hi => exact .counter (hi.mono hk hp)
  | moved hs hi hc hj => exact .moved hs (hi.mono hk hp) (hc.mono hk hp) (hj.mono hk hp)

theorem Anchors.mono (h : k.Anchors p v) (hk : Prefix k.instrs k'.instrs) (hp : p ≤ q) :
    k'.Anchors q v :=
  h.imp (fun ⟨slot, hv⟩ => ⟨slot, hv.mono hk hp⟩) fun ⟨datum, hv⟩ => ⟨datum, hv.mono hk hp⟩

theorem Indexes.mono (h : k.Indexes args x S p result base index scale)
    (hk : Prefix k.instrs k'.instrs) : k'.Indexes args x S p result base index scale where
  anchors := h.anchors.imp_right fun ha => ha.mono hk (Nat.le_refl p)
  scale := h.scale
  access := by
    obtain ⟨i, a, s, counter, hi, htouches, hs, hshifts⟩ := h.access
    exact ⟨i, a, s, counter, hk _ _ hi, htouches, hs, hshifts.mono hk (Nat.le_refl p)⟩

end Block

namespace Body

variable {b₀ b b' b'' : Body} {S : Access → Nat → Prop} {i : Instr}
  {v base counter index result : ValueId} {x : VarId} {a : Access} {s : Nat} {t : Ty}

/-- The address of an element is computed at the position of the block. -/
def OffsetAt (b : Body) (g p : Nat) (result base index : ValueId) (scale : Nat) : Prop :=
  ∃ k, b.blocks[g]? = some k ∧ k.instrs[p]? = some (.offset result base index scale)

/-- Wherever the address of an element is computed and was not before, it is computed from a number that
has been read from the variable and one of the offsets. -/
def IndexesSince (b₀ b : Body) (x : VarId) (S : Access → Nat → Prop) : Prop :=
  ∀ (g : Nat) (k : Block) (p : Nat) (result base index : ValueId) (scale : Nat),
    b.blocks[g]? = some k → k.instrs[p]? = some (.offset result base index scale) →
      b₀.OffsetAt g p result base index scale ∨ k.Indexes b.args x S p result base index scale

def AtEnd (b : Body) (R : Block → Nat → Prop) : Prop :=
  ∃ k, b.blocks[b.current.index]? = some k ∧ R k k.instrs.size

def Counts (b : Body) (x : VarId) (v : ValueId) : Prop := b.AtEnd fun k p => k.Before p (.readVar v x)

def Shifts (b : Body) (x : VarId) (s : Nat) (counter index : ValueId) : Prop :=
  b.AtEnd fun k p => k.Shifts x p s counter index

def Anchors (b : Body) (v : ValueId) : Prop := v ∈ b.args ∨ b.AtEnd fun k p => k.Anchors p v

theorem AtEnd.mono {R R' : Block → Nat → Prop} (h : b.AtEnd R) (hw : b.Within b')
    (hcurrent : b'.current = b.current)
    (hR : ∀ k k' : Block, Prefix k.instrs k'.instrs → R k k.instrs.size → R' k' k'.instrs.size) :
    b'.AtEnd R' := by
  obtain ⟨k, hk, hend⟩ := h
  obtain ⟨k', hk', hkw⟩ := hw.blocks _ k hk
  exact ⟨k', hcurrent ▸ hk', hR k k' hkw.instrs hend⟩

theorem Counts.mono (h : b.Counts x v) (hw : b.Within b') (hcurrent : b'.current = b.current) :
    b'.Counts x v :=
  AtEnd.mono h hw hcurrent fun _ _ hk hx => hx.mono hk hk.size_le

theorem Anchors.mono (h : b.Anchors v) (hw : b.Within b') (hcurrent : b'.current = b.current) :
    b'.Anchors v :=
  h.imp (fun hv => hw.args ▸ hv) fun h =>
    AtEnd.mono h hw hcurrent fun _ _ hk hv => hv.mono hk hk.size_le

theorem Counts.shifts (h : b.Counts x v) : b.Shifts x 0 v v := by
  obtain ⟨k, hk, hx⟩ := h
  exact ⟨k, hk, .counter hx⟩

/-- What has been recorded last stands before the end of its block. -/
theorem before_of_push (h : b.push i = .ok b') : b'.AtEnd fun k p => k.Before p i := by
  obtain ⟨k, hk, hi⟩ := instr_of_push h (.refl _)
  refine ⟨k, current_of_push h ▸ hk, _, ?_, hi⟩
  exact (Array.getElem?_eq_some_iff.1 hi).1

theorem IndexesSince.refl (b : Body) : b.IndexesSince b x S :=
  fun _ k _ _ _ _ _ hk hi => .inl ⟨k, hk, hi⟩

theorem IndexesSince.trans (h : b.IndexesSince b' x S) (h' : b'.IndexesSince b'' x S)
    (hw : b'.Within b'') : b.IndexesSince b'' x S := by
  intro g k'' p result base index scale hk'' hi
  rcases h' g k'' p result base index scale hk'' hi with ⟨k', hk', hi'⟩ | hindexes
  · refine (h g k' p result base index scale hk' hi').imp_right fun hindexes => ?_
    obtain ⟨k₁, hk₁, hprefix⟩ := hw.blocks _ k' hk'
    obtain rfl := Option.some.inj (hk''.symm.trans hk₁)
    rw [hw.args]
    exact hindexes.mono hprefix.instrs
  · exact .inr hindexes

theorem Echoes.indexes (h : b.Echoes b') (hb : b₀.IndexesSince b x S) :
    b₀.IndexesSince b' x S := by
  intro g k' p result base index scale hk' hi
  rcases h.blocks g k' hk' with hempty | ⟨k, hk, hinstrs⟩
  · rw [hempty] at hi
    cases hi
  · rw [h.args]
    refine (hb g k p result base index scale hk (hinstrs ▸ hi)).imp_right fun hindexes => ?_
    refine hindexes.mono ?_
    rw [hinstrs]
    exact .refl _

theorem IndexesSince.push (hb : b₀.IndexesSince b x S) (h : b.push i = .ok b')
    (hi : i.Unindexed) : b₀.IndexesSince b' x S := by
  obtain ⟨hargs, -, k, hk, -, hblocks⟩ := blocks_of_push h
  intro g k' p result base index scale hk' ho
  rw [hargs]
  rw [hblocks] at hk'
  split at hk'
  · next hg =>
      subst hg
      obtain rfl := Option.some.inj hk'
      rcases getElem?_of_push ho with ho | ⟨-, rfl⟩
      · exact (hb _ k p result base index scale hk ho).imp_right fun h => h.mono (.push _ _)
      · exact hi.elim
  · exact hb g k' p result base index scale hk' ho

/-- The address of an element is computed and used. -/
theorem IndexesSince.access (hb : b₀.IndexesSince b x S) {b₁ : Body} (b₂ : Body)
    (ho : b.push (.offset result base index t.size) = .ok b₁)
    (hargs : b₂.args = b₁.args) (hblocks : b₂.blocks = b₁.blocks) (hcurrent : b₂.current = b₁.current)
    (ha : b₂.push i = .ok b') (htouches : i.Touches result a) (hs : S a s)
    (hshifts : b.Shifts x s counter index) (hbase : b.Anchors base) : b₀.IndexesSince b' x S := by
  obtain ⟨hargs₁, -, k, hk, -, hblocks₁⟩ := blocks_of_push ho
  obtain ⟨hargs₂, -, k₁, hk₁, -, hblocks₂⟩ := blocks_of_push ha
  have hcurrent₁ : b₂.current = b.current := hcurrent.trans (current_of_push ho)
  have hargs' : b'.args = b.args := hargs₂.trans (hargs.trans hargs₁)
  rw [hcurrent₁, hblocks, hblocks₁, if_pos rfl] at hk₁
  obtain rfl := Option.some.inj hk₁
  intro g k' p result' base' index' scale hk' hi
  rw [hblocks₂, hcurrent₁] at hk'
  rw [hargs']
  split at hk'
  swap
  · next hg =>
      rw [hblocks, hblocks₁, if_neg hg] at hk'
      exact hb g k' p result' base' index' scale hk' hi
  next hg =>
  subst hg
  obtain rfl := Option.some.inj hk'
  have hprefix : Prefix k.instrs
      ((k.instrs.push (.offset result base index t.size)).push i) :=
    (Prefix.push _ _).trans (.push _ _)
  obtain hi | ⟨-, rfl⟩ := getElem?_of_push hi
  swap
  · cases htouches
  obtain hi | ⟨hp, hi⟩ := getElem?_of_push hi
  · exact (hb _ k p result' base' index' scale hk hi).imp_right fun h => h.mono hprefix
  obtain ⟨rfl, rfl, rfl, rfl⟩ := Instr.offset.inj hi.symm
  have hshifts : k.Shifts x k.instrs.size s counter index := by
    obtain ⟨k', hk', hshifts⟩ := hshifts
    exact Option.some.inj (hk'.symm.trans hk) ▸ hshifts
  have hbase : base ∈ b.args ∨ k.Anchors k.instrs.size base := by
    refine hbase.imp_right fun ⟨k', hk', hanchors⟩ => ?_
    exact Option.some.inj (hk'.symm.trans hk) ▸ hanchors
  refine .inr ⟨?_, ⟨t, rfl⟩, i, a, s, counter, ?_, htouches, hs, hshifts.mono hprefix hp.ge⟩
  · exact hbase.imp_right fun hanchors => hanchors.mono hprefix hp.ge
  · rw [hp, ← Array.size_push (Instr.offset result base index t.size)]
    exact Array.getElem?_push_size

end Body

namespace Emitter

variable {x : VarId} {S : Access → Nat → Prop} {e e' e'' : Emitter}

theorem Steps.indexes (h : Steps Instr.Unindexed e e') : e.body.IndexesSince e'.body x S := by
  refine h.keeps (R := fun e₁ => e.body.IndexesSince e₁.body x S) (fun e₁ e₂ hstep h₁ => ?_) (.refl _)
  rcases hstep.records with hecho | ⟨i, hi, ⟨-, hb⟩ | ⟨t, -, hb⟩⟩
  · exact hecho.indexes h₁
  · exact h₁.push hb hi
  · exact ((Body.Echoes.newValue e₁.body t).indexes h₁).push hb hi

structure Addresses (x : VarId) (S : Access → Nat → Prop) (e e' : Emitter) : Prop where
  steps : Steps Instr.Any e e'
  indexes : e.body.IndexesSince e'.body x S

theorem Addresses.trans (h : e.Addresses x S e') (h' : e'.Addresses x S e'') : e.Addresses x S e'' :=
  ⟨h.steps.trans h'.steps, h.indexes.trans h'.indexes h'.steps.within⟩

theorem Steps.addresses (h : Steps Instr.Unindexed e e') : e.Addresses x S e' :=
  ⟨h.any, h.indexes⟩

end Emitter

namespace Emit

variable {x : VarId} {S : Access → Nat → Prop} {e e' : Emitter} {t : Ty}
  {v base counter index : ValueId} {s : Nat} {u : Unit}

/-- A new value stands at the end of the current block. -/
theorem before_of_define {instr : ValueId → Instr} (h : Succeeds (define t instr) e v e') :
    e'.body.AtEnd fun k p => k.Before p (instr v) := by
  obtain ⟨rfl, b, hb, rfl⟩ := succeeds_define.1 h
  exact Body.before_of_push hb

theorem addresses_loadDynamic (h : Succeeds (loadDynamic t base index) e v e') (hs : S .read s)
    (hshifts : e.body.Shifts x s counter index) (hbase : e.body.Anchors base) : e.Addresses x S e' := by
  refine ⟨(leaves_loadDynamic t base index).of_succeeds h, ?_⟩
  simp only [loadDynamic, elementAddress, succeeds_bind, succeeds_expectType, succeeds_valueType,
    succeeds_refuse, succeeds_define] at h
  obtain ⟨r, e₁, ⟨_, _, ⟨-, rfl⟩, _, _, ⟨-, rfl⟩, -, rfl, b₁, ho, rfl⟩, rfl, b', ha, rfl⟩ := h
  have hnew : e.body.IndexesSince (e.body.newValue .ptr).2 x S :=
    (Body.Echoes.newValue e.body .ptr).indexes (.refl _)
  exact hnew.access (b₁.newValue t).2 ho rfl rfl rfl ha (.load _) hs hshifts hbase

theorem addresses_storeDynamic (h : Succeeds (storeDynamic base index v) e u e') (hs : S .write s)
    (hshifts : e.body.Shifts x s counter index) (hbase : e.body.Anchors base) : e.Addresses x S e' := by
  refine ⟨(leaves_storeDynamic base index v).of_succeeds h, ?_⟩
  simp only [storeDynamic, elementAddress, succeeds_bind, succeeds_expectType, succeeds_valueType,
    succeeds_refuse, succeeds_define, succeeds_push] at h
  obtain ⟨_, _, ⟨-, rfl⟩, r, e₁, ⟨_, _, ⟨-, rfl⟩, _, _, ⟨-, rfl⟩, -, rfl, b₁, ho, rfl⟩, b', ha, rfl⟩ := h
  have hnew : e.body.IndexesSince (e.body.newValue .ptr).2 x S :=
    (Body.Echoes.newValue e.body .ptr).indexes (.refl _)
  exact hnew.access b₁ ho rfl rfl rfl ha (.store _) hs hshifts hbase

end Emit

end Dataflow.Code
