import Dataflow.Proofs.Code.Emit
import Dataflow.Proofs.Code.LoopBlocks
import Dataflow.Proofs.Code.Passage

/-!
# Counted loops run over their range

A loop over `start, start + step, …` below a bound runs its body once for each of these numbers, in
this order and with the number in its variable, and goes on behind the loop: whatever has been recorded
as its body, as long as the body leaves the variable alone, and a count from before the loop, and runs
through to where the variable is raised. The numbers that steer the loop are defined in its first block,
which the body cannot come to but by way of the head. Near the ends of the integers the sum of the
variable and the step may wrap around. It does so only where it is not taken.
-/

namespace Dataflow.Code

namespace Word

variable {t : Ty} {a c d w : Word} {x y z : Int}

def toInt? : Word → Option Int
  | i32 n => some n.toInt
  | i64 n => some n.toInt
  | _ => none

structure IsInt (w : Word) (t : Ty) (n : Int) : Prop where
  ty : w.ty = t
  value : w.toInt? = some n

theorem isInt_i32 (n : Int32) : (i32 n).IsInt .i32 n.toInt := ⟨rfl, rfl⟩

theorem isInt_i64 (n : Int64) : (i64 n).IsInt .i64 n.toInt := ⟨rfl, rfl⟩

theorem isInt_cases (h : w.IsInt t x) :
    (∃ n : Int32, w = i32 n ∧ t = .i32 ∧ x = n.toInt) ∨
      ∃ n : Int64, w = i64 n ∧ t = .i64 ∧ x = n.toInt := by
  obtain ⟨rfl, h⟩ := h
  cases w with
  | i32 n => exact .inl ⟨n, rfl, rfl, (Option.some.inj h).symm⟩
  | i64 n => exact .inr ⟨n, rfl, rfl, (Option.some.inj h).symm⟩
  | _ => cases h

theorem IsInt.compare_less (ha : a.IsInt t x) (hc : c.IsInt t y) :
    compare .less a c = some (decide (x < y)) := by
  obtain ⟨n, rfl, rfl, rfl⟩ | ⟨n, rfl, rfl, rfl⟩ := isInt_cases ha
  all_goals
    obtain ⟨m, rfl, ht, rfl⟩ | ⟨m, rfl, ht, rfl⟩ := isInt_cases hc <;> cases ht
    rfl

/-- A sum that is no greater than some integer of the type does not wrap around. -/
theorem IsInt.add (ha : a.IsInt t x) (hc : c.IsInt t y) : ∃ w, binary .add a c = some w ∧
    ∀ (d : Word) (z : Int), d.IsInt t z → 0 ≤ y → x + y ≤ z → w.IsInt t (x + y) := by
  obtain ⟨n, rfl, rfl, rfl⟩ | ⟨n, rfl, rfl, rfl⟩ := isInt_cases ha
  all_goals obtain ⟨m, rfl, ht, rfl⟩ | ⟨m, rfl, ht, rfl⟩ := isInt_cases hc <;> cases ht
  · refine ⟨i32 (n + m), rfl, fun d z hd hm hle => ⟨rfl, congrArg some ?_⟩⟩
    obtain ⟨k, rfl, ht, rfl⟩ | ⟨k, rfl, ht, rfl⟩ := isInt_cases hd <;> cases ht
    have hn := n.le_toInt
    have hk := k.toInt_lt
    rw [Int32.toInt_add]
    apply Int.bmod_eq_of_le <;> omega
  · refine ⟨i64 (n + m), rfl, fun d z hd hm hle => ⟨rfl, congrArg some ?_⟩⟩
    obtain ⟨k, rfl, ht, rfl⟩ | ⟨k, rfl, ht, rfl⟩ := isInt_cases hd <;> cases ht
    have hn := n.le_toInt
    have hk := k.toInt_lt
    rw [Int64.toInt_add]
    apply Int.bmod_eq_of_le <;> omega

/-- Only the least integer has no predecessor. -/
theorem IsInt.subtract_one (ha : a.IsInt t x) (hc : c.IsInt t 1) : ∃ w y,
    binary .subtract a c = some w ∧ w.IsInt t y ∧ ∀ (d : Word) (z : Int), d.IsInt t z → z < x → y = x - 1 := by
  obtain ⟨n, rfl, rfl, rfl⟩ | ⟨n, rfl, rfl, rfl⟩ := isInt_cases ha
  all_goals obtain ⟨m, rfl, ht, hm⟩ | ⟨m, rfl, ht, hm⟩ := isInt_cases hc <;> cases ht
  · refine ⟨i32 (n - m), _, rfl, isInt_i32 _, fun d z hd hlt => ?_⟩
    obtain ⟨k, rfl, ht, rfl⟩ | ⟨k, rfl, ht, rfl⟩ := isInt_cases hd <;> cases ht
    have hn := n.toInt_lt
    have hk := k.le_toInt
    rw [Int32.toInt_sub, ← hm]
    apply Int.bmod_eq_of_le <;> omega
  · refine ⟨i64 (n - m), _, rfl, isInt_i64 _, fun d z hd hlt => ?_⟩
    obtain ⟨k, rfl, ht, rfl⟩ | ⟨k, rfl, ht, rfl⟩ := isInt_cases hd <;> cases ht
    have hn := n.toInt_lt
    have hk := k.le_toInt
    rw [Int64.toInt_sub, ← hm]
    apply Int.bmod_eq_of_le <;> omega

end Word

namespace Store

variable {σ σ' σ'' : Store} {n m : Nat} {x : VarId} {u v : ValueId} {a w : Word} {t : Ty}

/-- The stores differ in nothing but the variable and the values from the `n`-th on. -/
structure Apart (n : Nat) (x : VarId) (σ σ' : Store) : Prop where
  values : ∀ i < n, σ'.values[i]? = σ.values[i]?
  vars : ∀ i, i ≠ x.index → σ'.vars[i]? = σ.vars[i]?
  memory : σ'.memory = σ.memory

theorem Apart.trans (h : Apart n x σ σ') (h' : Apart n x σ' σ'') : Apart n x σ σ'' :=
  ⟨fun i hi => (h'.values i hi).trans (h.values i hi),
    fun i hi => (h'.vars i hi).trans (h.vars i hi), h'.memory.trans h.memory⟩

theorem Apart.mono (h : Apart m x σ σ') (hnm : n ≤ m) : Apart n x σ σ' :=
  ⟨fun i hi => h.values i (hi.trans_le hnm), h.vars, h.memory⟩

theorem apart_set (hv : n ≤ v.index) : Apart n x σ (σ.set v w) :=
  ⟨fun _ hi => Array.getElem?_setIfInBounds_ne (Nat.ne_of_gt (hi.trans_le hv)), fun _ _ => rfl, rfl⟩

theorem apart_setVar : Apart n x σ (σ.setVar w x) :=
  ⟨fun _ _ => rfl, fun _ hi => Array.getElem?_setIfInBounds_ne (Ne.symm hi), rfl⟩

@[simp] theorem size_values_set : (σ.set v w).values.size = σ.values.size :=
  Array.size_setIfInBounds

theorem has_set (hv : v.index < σ.values.size) : (σ.set v w).Has v w :=
  Array.getElem?_setIfInBounds_self_of_lt hv

theorem Has.set (h : σ.Has u a) (hne : u.index < v.index) : (σ.set v w).Has u a :=
  (Array.getElem?_setIfInBounds_ne (Nat.ne_of_gt hne)).trans h

def Number (σ : Store) (v : ValueId) (t : Ty) (n : Int) : Prop := ∃ w, σ.Has v w ∧ w.IsInt t n

def Variable (σ : Store) (x : VarId) (t : Ty) (n : Int) : Prop :=
  ∃ w, σ.vars[x.index]? = some w ∧ w.IsInt t n

end Store

namespace CountedLoop

open Activation

variable {A : Activation} {p : LoopParts} {t : Ty} {σ σ' : Store} {n position : Nat}
  {bound step a : Int}

/-- At the head of a loop its variable and its numbers are ready. Below the bound the limit tells
whether the step leads to another number below the bound. -/
structure Ready (A : Activation) (p : LoopParts) (t : Ty) (bound step a : Int) (σ : Store) : Prop where
  sized : A.Sized σ
  holds : σ.Variable p.var t a
  steps : σ.Number p.step t step
  bounds : σ.Number p.bound t bound
  limits : ∃ limit, σ.Number p.limit t limit ∧
    ∀ (w : Word) (x : Int), w.IsInt t x → x < bound → (x < limit ↔ x + step < bound)

theorem Ready.congr {a' : Int} (h : Ready A p t bound step a σ) (hσ : A.Sized σ')
    (hvar : σ'.Variable p.var t a')
    (hvalues : ∀ v ∈ [p.step, p.limit, p.bound], σ'.values[v.index]? = σ.values[v.index]?) :
    Ready A p t bound step a' σ' := by
  have hnumber : ∀ v ∈ [p.step, p.limit, p.bound], ∀ x, σ.Number v t x → σ'.Number v t x := by
    rintro v hv x ⟨w, hw, hx⟩
    exact ⟨w, (hvalues v hv).trans hw, hx⟩
  obtain ⟨limit, hlimit, hiff⟩ := h.limits
  exact ⟨hσ, hvar, hnumber _ (by simp) _ h.steps, hnumber _ (by simp) _ h.bounds, limit,
    hnumber _ (by simp) _ hlimit, hiff⟩

structure Wired (A : Activation) (p : LoopParts) (n position : Nat) : Prop where
  tested : Tested A.body p n
  raised : Raised A.body p n position
  numbers : ∀ v ∈ [p.step, p.limit, p.bound], v.index < n

/-- The head of a loop leads to the body below the bound, and behind the loop otherwise. -/
theorem Wired.test (h : Wired A p n position) (hσ : Ready A p t bound step a σ) : ∃ σ',
    A.Along (· = p.condition) (A.machine p.condition 0 σ)
      (A.machine (if a < bound then p.body else p.after) 0 σ') ∧
    σ.Apart n p.var σ' ∧ Ready A p t bound step a σ' := by
  obtain ⟨k, i, c, hk, hinstrs, ht, hi, hc, hlt⟩ := h.tested
  obtain ⟨w, hw, hwa⟩ := hσ.holds
  obtain ⟨w', hw', hwb⟩ := hσ.bounds
  have hsize := hσ.sized.values
  have hbound := h.numbers p.bound (by simp)
  have hturns : Instrs.Turns (headInstrs p i c) σ
      ((σ.set i w).set c (.bool (decide (a < bound)))) := by
    refine .cons (turns_readVar i hw) (.cons ?_ .nil)
    exact turns_compare c (Store.has_set (by omega)) (hw'.set (by omega)) (hwa.compare_less hwb)
  have hrun := along_instrs hk (show _ = [] ++ headInstrs p i c from hinstrs) hturns
  have hbranch := along_branch (σ := (σ.set i w).set c (.bool (decide (a < bound)))) hk ht
    (Store.has_set (by simp; omega))
  have hpos : k.instrs.size = (headInstrs p i c).length := by rw [← hinstrs, Array.length_toList]
  rw [hpos] at hbranch
  have hall := Along.trans hrun hbranch
  have hapart : σ.Apart n p.var ((σ.set i w).set c (.bool (decide (a < bound)))) :=
    (Store.apart_set hi).trans (Store.apart_set (by omega))
  simp only [decide_eq_true_eq] at hall
  refine ⟨_, hall, hapart, hσ.congr (hall.sized hσ.sized) ⟨w, hw, hwa⟩ fun v hv => ?_⟩
  exact hapart.values _ (h.numbers v hv)

/-- After a number below the bound the variable takes the next one, or the bound if there is none. -/
theorem Wired.raise (h : Wired A p n position) (hσ : Ready A p t bound step a σ) (ha : a < bound)
    (hstep : 0 < step) : ∃ σ', A.Along (· = p.increment) (A.machine p.increment position σ)
      (A.machine p.condition 0 σ') ∧ σ.Apart n p.var σ' ∧
      Ready A p t bound step (min (a + step) bound) σ' := by
  obtain ⟨k, before, i, s, r, m, hk, hinstrs, rfl, ht, hi, hs, hr, hm, hlt⟩ := h.raised
  obtain ⟨w, hw, hwa⟩ := hσ.holds
  obtain ⟨ws, hws, hstepInt⟩ := hσ.steps
  obtain ⟨wb, hwb, hboundInt⟩ := hσ.bounds
  obtain ⟨limit, ⟨wl, hwl, hlimitInt⟩, hiff⟩ := hσ.limits
  obtain ⟨sum, hsum, hexact⟩ := hwa.add hstepInt
  have hsize := hσ.sized.values
  have hstepLt := h.numbers p.step (by simp)
  have hlimitLt := h.numbers p.limit (by simp)
  have hboundLt := h.numbers p.bound (by simp)
  let next := if decide (a < limit) = true then sum else wb
  let σ₁ := σ.set i w
  let σ₂ := σ₁.set s sum
  let σ₃ := σ₂.set r (.bool (decide (a < limit)))
  let σ₄ := σ₃.set m next
  have hi₁ : σ₁.Has i w := Store.has_set (by omega)
  have hs₂ : σ₂.Has s sum := Store.has_set (by simp [σ₁]; omega)
  have hr₃ : σ₃.Has r (.bool (decide (a < limit))) := Store.has_set (by simp [σ₁, σ₂]; omega)
  have hm₄ : σ₄.Has m next := Store.has_set (by simp [σ₁, σ₂, σ₃]; omega)
  have hturns : Instrs.Turns (raiseInstrs p i s r m) σ (σ₄.setVar next p.var) := by
    refine .cons (turns_readVar i hw) (.cons (turns_binary s hi₁ (hws.set (by omega)) hsum) (.cons
      (turns_compare r (hi₁.set hs) ((hwl.set ?_).set ?_) (hwa.compare_less hlimitInt)) (.cons
        (turns_select m hr₃ (hs₂.set hr) (((hwb.set ?_).set ?_).set ?_)) (.cons
          (turns_writeVar p.var hm₄) .nil))))
    all_goals omega
  have hrun := along_instrs hk hinstrs hturns
  have hjump := along_jump (σ := σ₄.setVar next p.var) hk ht
  have hpos : k.instrs.size = before.length + (raiseInstrs p i s r m).length := by
    rw [← Array.length_toList, hinstrs, List.length_append]
  rw [hpos] at hjump
  have hall := Along.trans hrun hjump
  have hapart : σ.Apart n p.var (σ₄.setVar next p.var) :=
    ((((Store.apart_set hi).trans (Store.apart_set (by omega))).trans
      (Store.apart_set (by omega))).trans (Store.apart_set (by omega))).trans Store.apart_setVar
  have hnext : next.IsInt t (min (a + step) bound) := by
    have hlimit := hiff w a hwa ha
    by_cases hlt : a < limit
    · have hle := (hlimit.1 hlt).le
      rw [min_eq_left hle]
      simpa [next, hlt] using hexact wb bound hboundInt hstep.le hle
    · have hle := not_lt.1 (mt hlimit.2 hlt)
      rw [min_eq_right hle]
      simpa [next, hlt] using hboundInt
  refine ⟨_, hall, hapart, hσ.congr (hall.sized hσ.sized) ⟨next, ?_, hnext⟩ fun v hv => ?_⟩
  · exact Array.getElem?_setIfInBounds_self_of_lt (Array.getElem?_eq_some_iff.1 hw).1
  · exact hapart.values _ (h.numbers v hv)

section Rounds

variable {b : Body} {B : Store → Store → Prop} {m : Nat}

/-- The machine runs the body of a loop from its beginning to where the variable is raised. On the way
it comes neither to the head of the loop nor behind the loop, and in the end the variable is what it was,
and so is the bound if it was computed before the loop, among the first `n` values. -/
structure Traverses (A : Activation) (p : LoopParts) (n : Nat) (b : Body) (σ σ' : Store) : Prop where
  along : A.Along (fun id => id ≠ p.condition ∧ id ≠ p.after) (A.machine p.body 0 σ)
    (A.machine p.increment (b.length p.increment) σ')
  var : σ'.vars[p.var.index]? = σ.vars[p.var.index]?
  count : p.bound.index < n → σ'.values[p.bound.index]? = σ.values[p.bound.index]?

structure Spares (A : Activation) (p : LoopParts) (σ σ' : Store) : Prop where
  sized : A.Sized σ → A.Sized σ'
  var : σ'.vars[p.var.index]? = σ.vars[p.var.index]?
  numbers : ∀ v ∈ [p.step, p.limit, p.bound], σ'.values[v.index]? = σ.values[v.index]?

def Feeds (b : Body) (p : LoopParts) (init : BlockId) (v : ValueId) : Prop :=
  ∃ (k : Block) (q : Nat) (i : Instr), b.blocks[init.index]? = some k ∧
    k.terminator = some (.jump p.condition) ∧ k.instrs[q]? = some i ∧ i.defines = some v

theorem Feeds.mono {b' : Body} {init : BlockId} {v : ValueId} (h : Feeds b p init v)
    (hb : b.Within b') : Feeds b' p init v := by
  obtain ⟨k, q, i, hk, ht, hi, hdef⟩ := h
  exact ⟨k, q, i, hb.closed hk (by simp [ht]), ht, hi, hdef⟩

theorem Wired.ne (h : Wired A p n position) : p.increment ≠ p.condition := by
  obtain ⟨k, i, c, hk, -, ht, -⟩ := h.tested
  obtain ⟨k', before, i', s, r, m, hk', -, -, ht', -⟩ := h.raised
  intro heq
  rw [heq] at hk'
  obtain rfl := Option.some.inj (hk.symm.trans hk')
  cases ht.symm.trans ht'

/-- The body of a loop does not come to the first block of the loop, which leads to the head. So it leaves
alone what is defined there. -/
theorem Traverses.value_eq {init : BlockId} {v : ValueId} (h : Traverses A p n b σ σ')
    (hsingle : A.body.Single) (hfeeds : Feeds A.body p init v) (hinit : p.increment ≠ init)
    (hcondition : p.increment ≠ p.condition) : σ'.values[v.index]? = σ.values[v.index]? := by
  obtain ⟨k, q, i, hk, ht, hi, hdef⟩ := hfeeds
  refine (h.along.avoids hk ht (fun hP => hP.1 rfl) hinit hcondition).value_eq fun g q' hdef' hP => ?_
  obtain ⟨rfl, -⟩ := hsingle.once ⟨k, i, hk, hi, hdef⟩ hdef'
  exact hP.2 rfl

/-- A round of a loop: from the head to the body with a number in the variable, through the body, and
back to the head. The loop itself touches nothing but its variable and values of its own. -/
inductive Round (A : Activation) (p : LoopParts) (b : Body) (n : Nat) (B : Store → Store → Prop)
    (a : Int) : Store → Store → Prop
  | mk {σ σ₁ σ₂ σ' : Store}
      (test : A.Along (· = p.condition) (A.machine p.condition 0 σ) (A.machine p.body 0 σ₁))
      (tested : σ.Apart n p.var σ₁)
      (counter : ∃ w, σ₁.vars[p.var.index]? = some w ∧ w.toInt? = some a)
      (body : B σ₁ σ₂)
      (raise : A.Along (· = p.increment) (A.machine p.increment (b.length p.increment) σ₂)
        (A.machine p.condition 0 σ'))
      (raised : σ₂.Apart n p.var σ') : Round A p b n B a σ σ'

inductive Rounds (A : Activation) (p : LoopParts) (b : Body) (n : Nat) (B : Store → Store → Prop) :
    List Int → Store → Store → Prop
  | nil {σ : Store} : Rounds A p b n B [] σ σ
  | cons {a : Int} {as : List Int} {σ σ₁ σ' : Store} :
      Round A p b n B a σ σ₁ → Rounds A p b n B as σ₁ σ' → Rounds A p b n B (a :: as) σ σ'

theorem Rounds.mono {as : List Int} (h : Rounds A p b m B as σ σ') (hnm : n ≤ m) :
    Rounds A p b n B as σ σ' := by
  induction h with
  | nil => exact .nil
  | cons hround _ ih =>
      obtain ⟨htest, htested, hcounter, hbody, hraise, hraised⟩ := hround
      exact .cons (.mk htest (htested.mono hnm) hcounter hbody hraise (hraised.mono hnm)) ih

theorem Rounds.reaches {as : List Int} (h : Rounds A p b n B as σ σ')
    (hB : ∀ σ σ', B σ σ' → Machine.Reaches A.program (A.machine p.body 0 σ)
      (A.machine p.increment (b.length p.increment) σ')) :
    Machine.Reaches A.program (A.machine p.condition 0 σ) (A.machine p.condition 0 σ') := by
  induction h with
  | nil => exact .refl
  | cons hround _ ih =>
      obtain ⟨htest, -, -, hbody, hraise, -⟩ := hround
      exact ((htest.reaches.trans (hB _ _ hbody)).trans hraise.reaches).trans ih

def counterAt (start bound step : Int) (k : Nat) : Int :=
  if start + k * step < bound then start + k * step else max start bound

theorem counterAt_zero (start bound step : Int) : counterAt start bound step 0 = start := by
  unfold counterAt
  rw [Nat.cast_zero, Int.zero_mul, Int.add_zero]
  split <;> omega

theorem counterAt_succ {start : Int} {k : Nat} (hstep : 0 < step) (hk : start + k * step < bound) :
    min (counterAt start bound step k + step) bound = counterAt start bound step (k + 1) := by
  have hsucc : start + ((k + 1 : Nat) : Int) * step = start + k * step + step := by
    rw [Nat.cast_add, Nat.cast_one, Int.add_mul, Int.one_mul, Int.add_assoc]
  have hnonneg : 0 ≤ (k : Int) * step := Int.mul_nonneg (Int.natCast_nonneg k) hstep.le
  unfold counterAt
  rw [if_pos hk, hsucc]
  split <;> omega

theorem exists_trips (start bound : Int) (hstep : 0 < step) :
    ∃ n : Nat, ∀ k : Nat, k < n ↔ start + k * step < bound := by
  refine ⟨((bound - start + step - 1) / step).toNat, fun k => ?_⟩
  rw [Int.lt_toNat, ← Int.add_one_le_iff, Int.le_ediv_iff_mul_le hstep, Int.add_mul, Int.one_mul]
  omega

/-- A property of the head of a loop that each round takes on to the next number holds after the last
one. -/
theorem Wired.rounds {start : Int} {P : Nat → Store → Prop} (h : Wired A p n (b.length p.increment))
    (hstep : 0 < step) (hB : ∀ σ σ', B σ σ' → Spares A p σ σ')
    (hround : ∀ (k : Nat) σ σ₁, start + k * step < bound → P k σ → A.Sized σ₁ →
      A.Along (· = p.condition) (A.machine p.condition 0 σ) (A.machine p.body 0 σ₁) →
      σ.Apart n p.var σ₁ → σ₁.Variable p.var t (start + k * step) → ∃ σ₂, B σ₁ σ₂ ∧
        ∀ σ₃, A.Along (· = p.increment) (A.machine p.increment (b.length p.increment) σ₂)
          (A.machine p.condition 0 σ₃) → σ₂.Apart n p.var σ₃ → P (k + 1) σ₃)
    {k : Nat} (hm : ∀ j ≥ k, j < k + m ↔ start + j * step < bound) (hP : P k σ)
    (hσ : Ready A p t bound step (counterAt start bound step k) σ) :
    ∃ σ', Rounds A p b n B ((List.range' k m).map fun j : Nat => start + j * step) σ σ' ∧
      P (k + m) σ' ∧ Ready A p t bound step (max start bound) σ' := by
  induction m generalizing k σ with
  | zero =>
      have hk : ¬ start + k * step < bound := fun hlt => Nat.lt_irrefl _ ((hm k (Nat.le_refl _)).2 hlt)
      rw [counterAt, if_neg hk] at hσ
      exact ⟨σ, .nil, hP, hσ⟩
  | succ m ih =>
      have hk : start + k * step < bound := (hm k (Nat.le_refl _)).1 (by omega)
      have hcounter : counterAt start bound step k = start + k * step := if_pos hk
      rw [hcounter] at hσ
      obtain ⟨σ₁, htest, htested, hσ₁⟩ := h.test hσ
      rw [if_pos hk] at htest
      obtain ⟨σ₂, hbody, hnext⟩ := hround k σ σ₁ hk hP hσ₁.sized htest htested hσ₁.holds
      have hspares := hB σ₁ σ₂ hbody
      obtain ⟨w, hw, hwa⟩ := hσ₁.holds
      have hσ₂ : Ready A p t bound step (start + k * step) σ₂ :=
        hσ₁.congr (hspares.sized hσ₁.sized) ⟨w, hspares.var.trans hw, hwa⟩ hspares.numbers
      obtain ⟨σ₃, hraise, hraised, hσ₃⟩ := h.raise hσ₂ hk hstep
      rw [← hcounter, counterAt_succ hstep hk] at hσ₃
      obtain ⟨σ', hrounds, hlast, hend⟩ := ih (k := k + 1) (fun j hj => by
        rw [← hm j (by omega)]
        omega) (hnext σ₃ hraise hraised) hσ₃
      rw [Nat.add_right_comm] at hlast
      exact ⟨σ', .cons (.mk htest htested ⟨w, hw, hwa.value⟩ hbody hraise hraised) hrounds, hlast, hend⟩

end Rounds

section Entry

variable {e e' : Emitter} {z : ValueId} {is : List Instr} {σ₀ : Store}

theorem toInt_saturate (n : Int) :
    (saturate n).toInt = Ieee.clamp (-2147483648) 2147483647 n := by
  have hle : -2147483648 ≤ Ieee.clamp (-2147483648) 2147483647 n := Ieee.le_clamp n
  have hge : Ieee.clamp (-2147483648) 2147483647 n ≤ 2147483647 := Ieee.clamp_le (by omega) n
  exact Int32.toInt_ofInt_of_le (by omega) (by omega)

/-- From where a loop has been begun the machine gets to its head, and the body is not run yet. -/
theorem Begun.enters (h : Begun e e' p is) (hA : e'.body.Within A.body)
    (hturns : Instrs.Turns is σ σ₀) :
    A.Along (· ≠ p.body) (A.here e.body σ) (A.machine p.condition 0 σ₀) := by
  obtain ⟨init, k, k', hk, hsize, ht, hk', hinstrs, ht'⟩ := h.jump
  obtain ⟨label, hlabel⟩ := h.entered
  have hne : ∀ (id : BlockId) (k : Block), e'.body.blocks[id.index]? = some k →
      k.terminator.isSome = true → id ≠ p.body := by
    rintro _ k hk ht rfl
    obtain rfl := Option.some.inj (hk.symm.trans hlabel)
    cases ht
  have hfirst := along_jump (σ := σ) (hA.closed hk (by simp [ht])) ht
  rw [hsize] at hfirst
  have hclosed := hA.closed hk' (by simp [ht'])
  have hinit := along_instrs hclosed (show _ = [] ++ is from hinstrs) hturns
  have hlast := along_jump (σ := σ₀) hclosed ht'
  have hpos : k'.instrs.size = is.length := by rw [← hinstrs, Array.length_toList]
  rw [hpos] at hlast
  rw [List.length_nil, Nat.zero_add] at hinit
  refine (hfirst.mono ?_).trans ((Along.trans hinit hlast).mono ?_)
  · rintro id rfl
    exact hne _ k hk (by simp [ht])
  · rintro id rfl
    exact hne _ k' hk' (by simp [ht'])

/-- A loop over a range has its numbers ready when it has been entered. -/
theorem turns_rangeInstrs {start bound step : Int32} (hσ : A.Sized σ)
    (hz : z.index < p.step.index) (hs : p.step.index < p.limit.index)
    (hl : p.limit.index < p.bound.index) (hb : p.bound.index < A.body.valueTypes.size)
    (hvar : p.var.index < A.body.varTypes.size) (hstep : 0 < step) :
    ∃ σ₀, Instrs.Turns (rangeInstrs p z start bound step) σ σ₀ ∧ σ.Apart z.index p.var σ₀ ∧
      (A.Sized σ₀ → Ready A p .i32 bound.toInt step.toInt start.toInt σ₀) := by
  have hsize := hσ.values
  have hvars := hσ.vars
  let limit := saturate (bound.toInt - step.toInt)
  let σ₁ := σ.set z (.i32 start)
  let σ₂ := σ₁.setVar (.i32 start) p.var
  let σ₃ := σ₂.set p.step (.i32 step)
  let σ₄ := σ₃.set p.limit (.i32 limit)
  have hz₁ : σ₁.Has z (.i32 start) := Store.has_set (by omega)
  refine ⟨σ₄.set p.bound (.i32 bound), ?_, ?_, fun hσ₀ => ⟨hσ₀, ?_, ?_, ?_, limit.toInt, ?_, ?_⟩⟩
  · exact .cons (turns_const z _) (.cons (turns_writeVar _ hz₁) (.cons (turns_const p.step _)
      (.cons (turns_const p.limit _) (.cons (turns_const p.bound _) .nil))))
  · exact ((((Store.apart_set (Nat.le_refl _)).trans Store.apart_setVar).trans
      (Store.apart_set (by omega))).trans (Store.apart_set (by omega))).trans
        (Store.apart_set (by omega))
  · exact ⟨_, Array.getElem?_setIfInBounds_self_of_lt (by simp [σ₁, Store.set]; omega),
      Word.isInt_i32 _⟩
  · have hs₃ : σ₃.Has p.step (.i32 step) := Store.has_set (by simp [σ₁, σ₂, Store.setVar]; omega)
    exact ⟨_, (hs₃.set hs).set (by omega), Word.isInt_i32 _⟩
  · exact ⟨_, Store.has_set (by simp [σ₁, σ₂, σ₃, σ₄, Store.setVar]; omega), Word.isInt_i32 _⟩
  · have hl₄ : σ₄.Has p.limit (.i32 limit) :=
      Store.has_set (by simp [σ₁, σ₂, σ₃, Store.setVar]; omega)
    exact ⟨_, hl₄.set hl, Word.isInt_i32 _⟩
  · intro w x hx _
    obtain ⟨n, -, -, rfl⟩ | ⟨n, -, ht, -⟩ := Word.isInt_cases hx
    swap
    · cases ht
    have hn := n.le_toInt
    have hb := bound.toInt_lt
    have hs := Int32.lt_iff_toInt_lt.1 hstep
    have hzero : (0 : Int32).toInt = 0 := rfl
    rw [toInt_saturate, Ieee.clamp]
    omega

/-- So has a loop whose count has been computed before. -/
theorem turns_countInstrs {count : Word} {c : Int} (hσ : A.Sized σ) (hcount : σ.Has p.bound count)
    (hc : count.IsInt t c) (hbound : p.bound.index < z.index) (hz : z.index < p.step.index)
    (hs : p.step.index < p.limit.index) (hl : p.limit.index < A.body.valueTypes.size)
    (hvar : p.var.index < A.body.varTypes.size) :
    ∃ σ₀, Instrs.Turns (countInstrs p z t) σ σ₀ ∧ σ.Apart z.index p.var σ₀ ∧
      (A.Sized σ₀ → Ready A p t c 1 0 σ₀) := by
  have hsize := hσ.values
  have hvars := hσ.vars
  have hzero : (Word.ofLiteral (.zero t)).IsInt t 0 := by
    obtain ⟨n, -, rfl, -⟩ | ⟨n, -, rfl, -⟩ := Word.isInt_cases hc <;> exact ⟨rfl, rfl⟩
  have hone : (Word.ofLiteral (one t)).IsInt t 1 := by
    obtain ⟨n, -, rfl, -⟩ | ⟨n, -, rfl, -⟩ := Word.isInt_cases hc <;> exact ⟨rfl, rfl⟩
  obtain ⟨limit, y, hlimit, hy, hexact⟩ := hc.subtract_one hone
  let σ₁ := σ.set z (.ofLiteral (.zero t))
  let σ₂ := σ₁.setVar (.ofLiteral (.zero t)) p.var
  let σ₃ := σ₂.set p.step (.ofLiteral (one t))
  have hz₁ : σ₁.Has z (.ofLiteral (.zero t)) := Store.has_set (by omega)
  have hs₃ : σ₃.Has p.step (.ofLiteral (one t)) :=
    Store.has_set (by simp [σ₁, σ₂, Store.setVar]; omega)
  have hb₁ : σ₁.Has p.bound count := hcount.set hbound
  have hb₃ : σ₃.Has p.bound count := Store.Has.set (σ := σ₂) hb₁ (by omega)
  refine ⟨σ₃.set p.limit limit, ?_, ?_, fun hσ₀ => ⟨hσ₀, ?_, ?_, ?_, y, ?_, ?_⟩⟩
  · exact .cons (turns_const z _) (.cons (turns_writeVar _ hz₁) (.cons (turns_const p.step _)
      (.cons (turns_binary p.limit hb₃ hs₃ hlimit) .nil)))
  · exact (((Store.apart_set (Nat.le_refl _)).trans Store.apart_setVar).trans
      (Store.apart_set (by omega))).trans (Store.apart_set (by omega))
  · exact ⟨_, Array.getElem?_setIfInBounds_self_of_lt (by simp [σ₁, Store.set]; omega), hzero⟩
  · exact ⟨_, hs₃.set hs, hone⟩
  · exact ⟨_, hb₃.set (by omega), hc⟩
  · exact ⟨_, Store.has_set (by simp [σ₁, σ₂, σ₃, Store.setVar]; omega), hy⟩
  · intro w x hx hlt
    rw [hexact w x hx hlt]
    omega

end Entry

/-- The call begins a loop over `start, start + step, …` below `bound`: numbers that are given, or zero,
one, … below a count that has been computed. -/
inductive Begins (l : CountedLoop) (e : Emitter) (σ : Store) : Emit CountedLoop → Int → Int → Int → Prop
  | range (start bound step : Int32) :
      Begins l e σ (l.beginRange start bound step) start.toInt bound.toInt step.toInt
  | count {v : ValueId} {w : Word} {n : Int} (hv : σ.Carries e.body v w) (hn : w.toInt? = some n) :
      Begins l e σ (l.beginDynamic v) 0 n 1

section Loop

variable {l l₀ : CountedLoop} {opening : Emit CountedLoop} {start : Int} {e e₁ e₂ e₃ : Emitter}

/-- The machine gets to the head of a loop that has been begun, with the first number in its variable. -/
theorem Begins.ready (hopening : Begins l₀ e σ opening start bound step)
    (h : Succeeds opening e (opened p) e₁) (hA : e₁.body.Within A.body) (hσ : A.Sized σ) :
    0 < step ∧ ∃ is t n σ₀, Begun e e₁ p is ∧ e₁.body.varTypes[p.var.index]? = some t ∧
      ¬ e.Own p.var ∧ e.body.valueTypes.size ≤ n ∧ n ≤ e₁.body.valueTypes.size ∧ Tested A.body p n ∧
      (∀ v ∈ [p.step, p.limit, p.bound], v.index < n) ∧
      A.Along (· ≠ p.body) (A.here e.body σ) (A.machine p.condition 0 σ₀) ∧
      σ.Apart e.body.valueTypes.size p.var σ₀ ∧ Ready A p t bound step start σ₀ := by
  have hvalues := hA.valueTypes.size_le
  have hvars := hA.varTypes.size_le
  cases hopening with
  | range start bound step =>
      obtain ⟨hstep, p', z, hp, hbegun, htested, hz, hs, hl, hb, hvar, hown⟩ := begun_of_beginRange h
      obtain rfl := CountedLoop.opened.inj hp
      have hvarlt := (Array.getElem?_eq_some_iff.1 hvar).1
      have htested' := htested.mono hA
      obtain ⟨k, i, c, -, -, -, hi, hc, hlt⟩ := htested
      obtain ⟨σ₀, hturns, hapart, hready⟩ := turns_rangeInstrs (A := A) hσ hs hl hb (by omega)
        (by omega) hstep
      have henters := hbegun.enters hA hturns
      refine ⟨Int32.lt_iff_toInt_lt.1 hstep, _, _, p.bound.index + 1, σ₀, hbegun, hvar, hown,
        by omega, by omega, htested', ?_, henters, hapart.mono hz, hready (henters.sized hσ)⟩
      simp only [List.mem_cons, List.not_mem_nil, or_false, forall_eq_or_imp, forall_eq]
      omega
  | @count v w _ hv hn =>
      obtain ⟨t, p', z, ht, hinteger, hp, hbound, hbegun, htested, hz, hs, hl, hvar, hown⟩ :=
        begun_of_beginDynamic h
      obtain rfl := CountedLoop.opened.inj hp
      subst hbound
      have hvarlt := (Array.getElem?_eq_some_iff.1 hvar).1
      have htested' := htested.mono hA
      obtain ⟨k, i, c, -, -, -, hi, hc, hlt⟩ := htested
      have hword : w.IsInt t bound := ⟨Option.some.inj (hv.2.symm.trans ht), hn⟩
      have hbound := (Array.getElem?_eq_some_iff.1 ht).1
      obtain ⟨σ₀, hturns, hapart, hready⟩ := turns_countInstrs (A := A) hσ hv.1 hword
        (hbound.trans_le hz) hs hl (by omega) (by omega)
      have henters := hbegun.enters hA hturns
      refine ⟨Int.one_pos, _, _, p.limit.index + 1, σ₀, hbegun, hvar, hown, by omega, by omega,
        htested', ?_, henters, hapart.mono hz, hready (henters.sized hσ)⟩
      simp only [List.mem_cons, List.not_mem_nil, or_false, forall_eq_or_imp, forall_eq]
      omega

/-- The numbers that steer a loop are defined in its first block, if it is not the count. -/
theorem Begins.feeds (hopening : Begins l₀ e σ opening start bound step)
    (h : Succeeds opening e (opened p) e₁) : ∃ init, ∀ v ∈ [p.step, p.limit, p.bound],
      Feeds e₁.body p init v ∨ v = p.bound ∧ p.bound.index < e.body.valueTypes.size := by
  simp only [List.mem_cons, List.not_mem_nil, or_false, forall_eq_or_imp, forall_eq]
  cases hopening with
  | range start bound step =>
      obtain ⟨-, p', z, hp, hbegun, -⟩ := begun_of_beginRange h
      obtain rfl := CountedLoop.opened.inj hp
      obtain ⟨init, -, k, -, -, -, hk, hinstrs, ht⟩ := hbegun.jump
      have hinstr : ∀ q : Nat, k.instrs[q]? = (rangeInstrs p z start bound step)[q]? := fun q => by
        rw [← Array.getElem?_toList, hinstrs]
      exact ⟨init, .inl ⟨k, 2, _, hk, ht, hinstr 2, rfl⟩, .inl ⟨k, 3, _, hk, ht, hinstr 3, rfl⟩,
        .inl ⟨k, 4, _, hk, ht, hinstr 4, rfl⟩⟩
  | @count v w _ hv hn =>
      obtain ⟨t, p', z, hcount, -, hp, rfl, hbegun, -⟩ := begun_of_beginDynamic h
      obtain rfl := CountedLoop.opened.inj hp
      obtain ⟨init, -, k, -, -, -, hk, hinstrs, ht⟩ := hbegun.jump
      have hinstr : ∀ q : Nat, k.instrs[q]? = (countInstrs p z t)[q]? := fun q => by
        rw [← Array.getElem?_toList, hinstrs]
      exact ⟨init, .inl ⟨k, 2, _, hk, ht, hinstr 2, rfl⟩, .inl ⟨k, 3, _, hk, ht, hinstr 3, rfl⟩,
        .inr ⟨trivial, (Array.getElem?_eq_some_iff.1 hcount).1⟩⟩

/-- A body that has been run through has spared what the loop relies on. -/
theorem Begins.spares {σ₁ σ₂ : Store} (hopening : Begins l₀ e σ opening start bound step)
    (hbegin : Succeeds opening e (opened p) e₁) (hended : Ended e₂ e₃ p)
    (hwithin : e₁.body.Within e₂.body) (hA : e₁.body.Within A.body) (hsingle : A.body.Single)
    (hwired : Wired A p n position) (h : Traverses A p e.body.valueTypes.size e₂.body σ₁ σ₂) :
    Spares A p σ₁ σ₂ := by
  refine ⟨h.along.sized, h.var, fun v hv => ?_⟩
  obtain ⟨init, hfeeds⟩ := hopening.feeds hbegin
  rcases hfeeds v hv with hfeeds | ⟨rfl, hlt⟩
  · -- The first block is closed, and the one where the variable is raised is still open.
    have hinit : p.increment ≠ init := by
      obtain ⟨k, -, -, hk, ht, -⟩ := hfeeds
      obtain ⟨k', hopen⟩ := hended.openAt p.increment (by simp)
      rintro rfl
      exact hwithin.not_openAt hk (by simp [ht]) hopen
    exact h.value_eq hsingle (hfeeds.mono hA) hinit hwired.ne
  · exact h.count hlt

/-- **A counted loop runs over its range.** Whatever has been recorded between the beginning and the end
of a loop, if it always runs through to the end, then the body is run once for each number
`start + k * step` below the bound, with `k = 0, 1, …` in this order and the number in the variable, and
the machine goes on behind the loop. Every recorded body is one in which values are defined once. -/
theorem runs_over_range (hopening : Begins l₀ e σ opening start bound step)
    (hbegin : Succeeds opening e (opened p) e₁) (hbody : Emitter.Steps Instr.Any e₁ e₂)
    (hend : Succeeds (opened p).finish e₂ l e₃) (hA : e₃.body.Within A.body)
    (hsingle : A.body.Single) (hσ : A.Sized σ)
    (hthrough : ∀ σ₁, A.Sized σ₁ →
      Machine.Reaches A.program (A.here e.body σ) (A.machine p.body 0 σ₁) →
        ∃ σ₂, Traverses A p e.body.valueTypes.size e₂.body σ₁ σ₂) :
    ∃ (n : Nat) (σ₀ σ₁ σ' : Store), (∀ k : Nat, k < n ↔ start + k * step < bound) ∧
      A.Along (· ≠ p.body) (A.here e.body σ) (A.machine p.condition 0 σ₀) ∧
      Rounds A p e₂.body e.body.valueTypes.size (Traverses A p e.body.valueTypes.size e₂.body)
        ((List.range n).map fun k : Nat => start + k * step) σ₀ σ₁ ∧
      A.Along (· = p.condition) (A.machine p.condition 0 σ₁) (A.machine p.after 0 σ') ∧
      ∃ w, σ'.vars[p.var.index]? = some w ∧ w.toInt? = some (max start bound) := by
  have hended := ended_of_finish hend
  have hwithin := hbody.within
  have hA₁ := (hwithin.trans hended.body).trans hA
  obtain ⟨hstep, is, t, n, σ₀, hbegun, -, -, hle, hle', htested, hnumbers, henters, -, hready⟩ :=
    hopening.ready hbegin hA₁ hσ
  have hwired : Wired A p n (e₂.body.length p.increment) :=
    ⟨htested, hended.raised.mono hA (hle'.trans hwithin.valueTypes.size_le), hnumbers⟩
  obtain ⟨trips, htrips⟩ := exists_trips start bound hstep
  rw [← counterAt_zero start bound step] at hready
  obtain ⟨σ₁, hrounds, -, hready₁⟩ := hwired.rounds (m := trips) hstep
    (fun _ _ => hopening.spares hbegin hended hwithin hA₁ hsingle hwired)
    (P := fun _ σ' => Machine.Reaches A.program (A.here e.body σ) (A.machine p.condition 0 σ'))
    (fun k σ₂ σ₃ hk hP hσ₃ htest _ _ => by
      obtain ⟨σ₄, hthrough⟩ := hthrough σ₃ hσ₃ (hP.trans htest.reaches)
      refine ⟨σ₄, hthrough, fun σ₅ hraise _ => ?_⟩
      exact ((hP.trans htest.reaches).trans hthrough.along.reaches).trans hraise.reaches)
    (fun k _ => by rw [Nat.zero_add]; exact htrips k) henters.reaches hready
  obtain ⟨σ', hlast, -, hready'⟩ := hwired.test hready₁
  rw [if_neg (not_lt.2 (le_max_right _ _))] at hlast
  obtain ⟨w, hw, hvalue⟩ := hready'.holds
  rw [← List.range_eq_range'] at hrounds
  exact ⟨trips, σ₀, σ₁, σ', htrips, henters, hrounds.mono hle, hlast, w, hw, hvalue.value⟩

end Loop

section NearMax

/-- A function with a variable for the last number, in which a loop begins three below the greatest
number and goes on by twos. -/
def nearMax : Emitter :=
  ((do Emit.localVar (← Emit.literal (.i32 0))).run.run
    ⟨.new ⟨0⟩ "near_max" [] none, {}, {}, {}⟩).2

def nearMaxParts : LoopParts := ⟨⟨2⟩, ⟨3⟩, ⟨4⟩, ⟨5⟩, ⟨.scratch, 0⟩, ⟨1⟩, ⟨2⟩, ⟨3⟩, ⟨4⟩⟩

def nearMaxBegun : Emitter := ((idle.beginRange 2147483644 2147483647 2).run.run nearMax).2

def takeDown : Emit Unit := do Emit.setVar ⟨0⟩ (← Emit.getVar nearMaxParts.var)

def nearMaxTaken : Emitter := (takeDown.run.run nearMaxBegun).2

def nearMaxEnded : Emitter := ((opened nearMaxParts).finish.run.run nearMaxTaken).2

def nearMaxCall : Activation := ⟨⟨fun _ => none, {}⟩, nearMaxEnded.body, 0, []⟩

theorem steps_nearMaxTaken : Emitter.Steps Instr.Any nearMaxBegun nearMaxTaken :=
  (Emit.leaves_getVar _).bind (fun _ => Emit.leaves_setVar _ _) nearMaxBegun

theorem single_nearMax : nearMaxCall.body.Single := by
  have hstart : Emitter.Steps Instr.Any _ nearMax :=
    (Emit.leaves_literal _).bind (fun _ => Emit.leaves_localVar _) _
  have hbegun : Emitter.Steps Instr.Any nearMax nearMaxBegun := Emit.leaves_beginRange _ _ _ _ _
  have hended : Emitter.Steps Instr.Any nearMaxTaken nearMaxEnded :=
    Emit.leaves_finish (fun _ _ => ⟨Emit.leaves_switchTo _, Emit.leaves_switchTo _,
      fun _ => Emit.Moves.release _⟩) _
  have hall := ((hstart.trans hbegun).trans steps_nearMaxTaken).trans hended
  exact Emitter.Steps.single hall (Body.single_new [])

/-- The body of the loop leads to where the variable is raised, whatever the variable holds. -/
theorem traverses_nearMax {σ : Store} (hσ : nearMaxCall.Sized σ) :
    ∃ σ', Traverses nearMaxCall nearMaxParts 1 nearMaxTaken.body σ σ' := by
  have hblock : nearMaxCall.body.blocks[nearMaxParts.body.index]? = some ⟨"for.body",
      #[.readVar ⟨7⟩ ⟨1⟩, .writeVar ⟨0⟩ ⟨7⟩], some (.jump nearMaxParts.increment)⟩ := rfl
  have hlt : 7 < σ.values.size := Nat.lt_of_lt_of_eq (by decide) hσ.values.symm
  have hvars : σ.vars.size = 2 := hσ.vars
  have hvar : σ.vars[1]? = some σ.vars[1] := Array.getElem?_eq_getElem _
  have hturns : Instrs.Turns [.readVar ⟨7⟩ ⟨1⟩, .writeVar ⟨0⟩ ⟨7⟩] σ
      ((σ.set ⟨7⟩ σ.vars[1]).setVar σ.vars[1] ⟨0⟩) :=
    .cons (turns_readVar ⟨7⟩ hvar) (.cons (turns_writeVar ⟨0⟩ (Store.has_set hlt)) .nil)
  have hrun := (along_instrs hblock (show _ = [] ++ _ from rfl) hturns).trans (along_jump hblock rfl)
  refine ⟨_, hrun.mono ?_, Array.getElem?_setIfInBounds_ne (by decide), fun h => ?_⟩
  · rintro id rfl
    decide
  · exact absurd h (by decide)

/-- The loop runs for two numbers, and then its variable holds the bound and not a sum that has
wrapped around. -/
theorem runs_over_range_nearMax : ∃ σ₀ σ₁ σ' : Store,
    nearMaxCall.Along (· ≠ nearMaxParts.body)
      (nearMaxCall.here nearMax.body ⟨Array.replicate 12 none, #[.i32 0, .i32 0], #[]⟩)
      (nearMaxCall.machine nearMaxParts.condition 0 σ₀) ∧
    Rounds nearMaxCall nearMaxParts nearMaxTaken.body 1
      (Traverses nearMaxCall nearMaxParts 1 nearMaxTaken.body) [2147483644, 2147483646] σ₀ σ₁ ∧
    nearMaxCall.Along (· = nearMaxParts.condition) (nearMaxCall.machine nearMaxParts.condition 0 σ₁)
      (nearMaxCall.machine nearMaxParts.after 0 σ') ∧
    ∃ w, σ'.vars[1]? = some w ∧ w.toInt? = some 2147483647 := by
  have hbegin : Succeeds (idle.beginRange 2147483644 2147483647 2) nearMax (opened nearMaxParts)
      nearMaxBegun := rfl
  have hend : Succeeds (opened nearMaxParts).finish nearMaxTaken (closed nearMaxParts) nearMaxEnded :=
    rfl
  have hsized : nearMaxCall.Sized ⟨Array.replicate 12 none, #[.i32 0, .i32 0], #[]⟩ := ⟨rfl, rfl⟩
  obtain ⟨n, σ₀, σ₁, σ', hn, henters, hrounds, hleaves, w, hw, hvalue⟩ :=
    runs_over_range (.range 2147483644 2147483647 2) hbegin steps_nearMaxTaken hend (.refl _)
      single_nearMax hsized fun σ₁ hσ₁ _ => traverses_nearMax hσ₁
  have hstart : (2147483644 : Int32).toInt = 2147483644 := rfl
  have hbound : (2147483647 : Int32).toInt = 2147483647 := rfl
  have hstep : (2 : Int32).toInt = 2 := rfl
  rw [hstart, hbound, hstep] at hn
  obtain rfl : n = 2 := by
    have h₁ := hn 1
    have h₂ := hn 2
    omega
  exact ⟨σ₀, σ₁, σ', henters, hrounds, hleaves, w, hw, hvalue⟩

end NearMax

end CountedLoop

end Dataflow.Code
