import Dataflow.Node.Elementwise
import Dataflow.Proofs.Outcome

/-!
# Vectors value by value

The single values of a vector, and the operators on single values. What an operator does to
vectors is what it does to the values at each position, and a sum takes the values one after the
other from the left.
-/

namespace Dataflow

inductive Scalar
  | boolean (b : Bool)
  | integer (n : Int32)
  | real (x : Float)

namespace Scalar

open Code (BinaryOp UnaryOp CompareOp)
open Elementwise (onReals onIntegers onBooleans compareReals compareIntegers compareBooleans)

def elemType : Scalar → ElemType
  | boolean _ => .boolean
  | integer _ => .integer
  | real _ => .real

def zero : ElemType → Scalar
  | .boolean => boolean false
  | .integer => integer 0
  | .real => real 0.0

def toReal : Scalar → Float
  | boolean b => Ieee.ofBool b
  | integer n => Ieee.ofInt n.toInt
  | real x => x

def ofReal (t : ElemType) (x : Float) : Scalar :=
  match t with
  | .boolean => boolean (Ieee.toBool x)
  | .integer => integer (Ieee.toInt32 x)
  | .real => real x

def convert (t : ElemType) (a : Scalar) : Scalar := ofReal t a.toReal

def binary (op : BinaryOp) : Scalar → Scalar → Option Scalar
  | real x, real y => (onReals op).map fun f => real (f x y)
  | integer m, integer n => (onIntegers op).map fun f => integer (f m n)
  | boolean a, boolean b => (onBooleans op).map fun f => boolean (f a b)
  | _, _ => none

def compare (op : CompareOp) : Scalar → Scalar → Option Scalar
  | real x, real y => some (boolean (compareReals op x y))
  | integer m, integer n => some (boolean (compareIntegers op m n))
  | boolean a, boolean b => some (boolean (compareBooleans op a b))
  | _, _ => none

def unary : UnaryOp → Scalar → Option Scalar
  | .negate, real x => some (real (-x))
  | .abs, real x => some (real x.abs)
  | .sqrt, real x => some (real x.sqrt)
  | .negate, integer n => some (integer (-n))
  | .abs, integer n => some (integer (if n < 0 then -n else n))
  | .not, boolean b => some (boolean !b)
  | _, _ => none

/-- The sum from zero on, first value first. -/
def sum (t : ElemType) (as : List Scalar) : Option Scalar := as.foldlM (binary .add) (zero t)

@[simp] theorem elemType_zero (t : ElemType) : (zero t).elemType = t := by cases t <;> rfl

end Scalar

namespace Values

def scalars : Values → List Scalar
  | booleans xs => xs.map .boolean
  | integers xs => xs.map .integer
  | reals xs => xs.map .real

@[simp] theorem length_scalars (v : Values) : v.scalars.length = v.length := by
  cases v <;> simp [scalars, length]

theorem elemType_of_mem_scalars {v : Values} {a : Scalar} (h : a ∈ v.scalars) :
    a.elemType = v.elemType := by
  cases v <;>
  · obtain ⟨_, -, rfl⟩ := List.mem_map.1 h
    rfl

theorem scalars_zeros (t : ElemType) (n : Nat) :
    (zeros t n).scalars = List.replicate n (.zero t) := by
  cases t <;> simp [zeros, scalars, Scalar.zero]

theorem eq_of_scalars_eq {v w : Values} (ht : v.elemType = w.elemType)
    (h : v.scalars = w.scalars) : v = w := by
  have hb : Function.Injective Scalar.boolean := fun _ _ h => Scalar.boolean.inj h
  have hi : Function.Injective Scalar.integer := fun _ _ h => Scalar.integer.inj h
  have hr : Function.Injective Scalar.real := fun _ _ h => Scalar.real.inj h
  cases v <;> cases w
  case booleans.booleans xs ys => rw [List.map_injective_iff.2 hb h]
  case integers.integers xs ys => rw [List.map_injective_iff.2 hi h]
  case reals.reals xs ys => rw [List.map_injective_iff.2 hr h]
  all_goals cases ht

theorem scalars_extract (v : Values) (start count : Nat) :
    (v.extract start count).scalars = (v.scalars.drop start).take count := by
  cases v <;> simp [extract, scalars, List.map_take, List.map_drop]

theorem append?_eq_some {v w u : Values} (h : v.append? w = some u) :
    u.elemType = v.elemType ∧ w.elemType = v.elemType ∧ u.scalars = v.scalars ++ w.scalars := by
  cases v <;> cases w
  case booleans.booleans xs ys =>
    obtain rfl := Option.some.inj h
    exact ⟨rfl, rfl, List.map_append⟩
  case integers.integers xs ys =>
    obtain rfl := Option.some.inj h
    exact ⟨rfl, rfl, List.map_append⟩
  case reals.reals xs ys =>
    obtain rfl := Option.some.inj h
    exact ⟨rfl, rfl, List.map_append⟩
  all_goals cases h

@[simp] theorem elemType_extract (v : Values) (start count : Nat) :
    (v.extract start count).elemType = v.elemType := by cases v <;> rfl

theorem extend_eq_ok {v source u : Values} {start count : Nat}
    (h : v.extend source start count = .ok u) :
    start + count ≤ source.length ∧ source.elemType = v.elemType ∧ u.elemType = v.elemType ∧
      u.scalars = v.scalars ++ (source.scalars.drop start).take count := by
  unfold extend at h
  split at h
  case isTrue hlen =>
    split at h
    case h_1 w hw =>
      obtain rfl := Except.ok.inj h
      obtain ⟨hu, hs, hc⟩ := append?_eq_some hw
      rw [elemType_extract] at hs
      rw [scalars_extract] at hc
      exact ⟨hlen, hs, hu, hc⟩
    case h_2 => cases h
  case isFalse => cases h

theorem expect_eq_ok_iff {v w : Values} {t : ElemType} :
    v.expect t = .ok w ↔ v.elemType = t ∧ v = w := by
  unfold expect
  by_cases ht : v.elemType = t
  · simp [ht]
  · simp [ht]

@[simp] theorem elemType_convert (v : Values) (t : ElemType) : (v.convert t).elemType = t := by
  cases t <;> rfl

theorem scalars_convert (v : Values) (t : ElemType) :
    (v.convert t).scalars = v.scalars.map (Scalar.convert t) := by
  cases v <;> cases t <;>
    simp [convert, ofReals, toReals, scalars, Scalar.convert, Scalar.ofReal, Scalar.toReal]

end Values

namespace Elementwise

open Code (BinaryOp UnaryOp CompareOp)

theorem exists_of_getElem?_map_zipWith {α β : Type} {make : α → Scalar} {result : β → Scalar}
    {f : α → α → β} {xs ys : List α} {i : Nat} {c : Scalar}
    (h : ((xs.zipWith f ys).map result)[i]? = some c) : ∃ a b, (xs.map make)[i]? = some (make a) ∧
      (ys.map make)[i]? = some (make b) ∧ c = result (f a b) := by
  rw [List.getElem?_map, Option.map_eq_some_iff] at h
  obtain ⟨r, hr, rfl⟩ := h
  obtain ⟨a, b, ha, hb, rfl⟩ := List.getElem?_zipWith_eq_some.1 hr
  exact ⟨a, b, by simp [ha], by simp [hb], rfl⟩

/-- Each value of the result is made from the two values at its position. -/
theorem binary_eq_ok {op : BinaryOp} {x y v : Values} (h : binary op x y = .ok v) {i : Nat}
    {c : Scalar} (hc : v.scalars[i]? = some c) : ∃ a b, x.scalars[i]? = some a ∧
      y.scalars[i]? = some b ∧ Scalar.binary op a b = some c := by
  unfold binary at h
  cases x <;> cases y
  case reals.reals xs ys =>
    cases hop : onReals op with
    | none => simp [hop, Values.elemType] at h
    | some f =>
        obtain rfl : Values.reals (xs.zipWith f ys) = v := by simpa [hop] using h
        obtain ⟨a, b, ha, hb, rfl⟩ := exists_of_getElem?_map_zipWith hc
        exact ⟨.real a, .real b, ha, hb, by simp [Scalar.binary, hop]⟩
  case integers.integers xs ys =>
    cases hop : onIntegers op with
    | none => simp [hop, Values.elemType] at h
    | some f =>
        obtain rfl : Values.integers (xs.zipWith f ys) = v := by simpa [hop] using h
        obtain ⟨a, b, ha, hb, rfl⟩ := exists_of_getElem?_map_zipWith hc
        exact ⟨.integer a, .integer b, ha, hb, by simp [Scalar.binary, hop]⟩
  case booleans.booleans xs ys =>
    cases hop : onBooleans op with
    | none => simp [hop, Values.elemType] at h
    | some f =>
        obtain rfl : Values.booleans (xs.zipWith f ys) = v := by simpa [hop] using h
        obtain ⟨a, b, ha, hb, rfl⟩ := exists_of_getElem?_map_zipWith hc
        exact ⟨.boolean a, .boolean b, ha, hb, by simp [Scalar.binary, hop]⟩
  all_goals simp [Values.elemType] at h

theorem compare_eq_ok {op : CompareOp} {x y v : Values} (h : compare op x y = .ok v) {i : Nat}
    {c : Scalar} (hc : v.scalars[i]? = some c) : ∃ a b, x.scalars[i]? = some a ∧
      y.scalars[i]? = some b ∧ Scalar.compare op a b = some c := by
  unfold compare at h
  cases x <;> cases y
  case reals.reals xs ys =>
    obtain rfl := Except.ok.inj h
    obtain ⟨a, b, ha, hb, rfl⟩ := exists_of_getElem?_map_zipWith hc
    exact ⟨.real a, .real b, ha, hb, rfl⟩
  case integers.integers xs ys =>
    obtain rfl := Except.ok.inj h
    obtain ⟨a, b, ha, hb, rfl⟩ := exists_of_getElem?_map_zipWith hc
    exact ⟨.integer a, .integer b, ha, hb, rfl⟩
  case booleans.booleans xs ys =>
    obtain rfl := Except.ok.inj h
    obtain ⟨a, b, ha, hb, rfl⟩ := exists_of_getElem?_map_zipWith hc
    exact ⟨.boolean a, .boolean b, ha, hb, rfl⟩
  all_goals cases h

theorem unary_eq_ok {op : UnaryOp} {x v : Values} (h : unary op x = .ok v) {i : Nat}
    {c : Scalar} (hc : v.scalars[i]? = some c) :
    ∃ a, x.scalars[i]? = some a ∧ Scalar.unary op a = some c := by
  unfold unary at h
  cases op <;> cases x <;> simp only [Except.ok.injEq, reduceCtorEq] at h
  all_goals
    subst h
    simp only [Values.scalars, List.getElem?_map, Option.map_eq_some_iff] at hc ⊢
    obtain ⟨_, ⟨a, ha, rfl⟩, rfl⟩ := hc
    exact ⟨_, ⟨a, ha, rfl⟩, rfl⟩

theorem foldlM_map_some {α β : Type} {make : α → β} {f : α → α → α} {g : β → β → Option β}
    (hg : ∀ a b, g (make a) (make b) = some (make (f a b))) (xs : List α) (a : α) :
    (xs.map make).foldlM g (make a) = some (make (xs.foldl f a)) := by
  induction xs generalizing a with
  | nil => rfl
  | cons x xs ih =>
      rw [List.map_cons, List.foldlM_cons, hg]
      exact ih (f a x)

theorem sum?_eq_some {x v : Values} (h : sum? x = some v) :
    v.elemType = x.elemType ∧
      ∃ c, v.scalars = [c] ∧ Scalar.sum x.elemType x.scalars = some c := by
  unfold sum? at h
  cases x with
  | booleans xs => cases h
  | integers xs =>
      obtain rfl := Option.some.inj h
      exact ⟨rfl, _, rfl, foldlM_map_some (fun _ _ => rfl) xs 0⟩
  | reals xs =>
      obtain rfl := Option.some.inj h
      exact ⟨rfl, _, rfl, foldlM_map_some (fun _ _ => rfl) xs 0.0⟩

end Elementwise

end Dataflow
