import Dataflow.Code.Operator
import Dataflow.Value.Values

/-!
# Operators on vectors

Operators and comparisons applied element by element to vectors of equal type, and the sum of a
vector. Integer arithmetic wraps around and a quotient by zero is zero.
-/

namespace Dataflow.Elementwise

open Code (BinaryOp UnaryOp CompareOp)

def onReals : BinaryOp → Option (Float → Float → Float)
  | .add => some (· + ·)
  | .subtract => some (· - ·)
  | .multiply => some (· * ·)
  | .divide => some (· / ·)
  | .min => some Ieee.minimum
  | .max => some Ieee.maximum
  | .and | .or | .xor => none

def onIntegers : BinaryOp → Option (Int32 → Int32 → Int32)
  | .add => some (· + ·)
  | .subtract => some (· - ·)
  | .multiply => some (· * ·)
  | .divide => some fun x y => if y = 0 then 0 else x / y
  | .min => some min
  | .max => some max
  | .and | .or | .xor => none

def onBooleans : BinaryOp → Option (Bool → Bool → Bool)
  | .and => some and
  | .or => some or
  | .xor => some xor
  | _ => none

/-- The result of an operator on two vectors, pair by pair. -/
def binary (op : BinaryOp) (x y : Values) : Except Fault Values :=
  let result := match x, y with
    | .reals xs, .reals ys => (onReals op).map fun f => Values.reals (xs.zipWith f ys)
    | .integers xs, .integers ys => (onIntegers op).map fun f => .integers (xs.zipWith f ys)
    | .booleans xs, .booleans ys => (onBooleans op).map fun f => .booleans (xs.zipWith f ys)
    | _, _ => none
  match result with
  | some v => .ok v
  | none =>
    if x.elemType = y.elemType then
      .error (.mismatch (.operandOf op.name) (.element x.elemType))
    else .error (.mismatch (.element x.elemType) (.element y.elemType))

def unary (op : UnaryOp) (x : Values) : Except Fault Values :=
  match op, x with
  | .negate, .reals xs => .ok (.reals (xs.map (- ·)))
  | .abs, .reals xs => .ok (.reals (xs.map Float.abs))
  | .sqrt, .reals xs => .ok (.reals (xs.map Float.sqrt))
  | .negate, .integers xs => .ok (.integers (xs.map (- ·)))
  | .abs, .integers xs => .ok (.integers (xs.map fun n => if n < 0 then -n else n))
  | .not, .booleans xs => .ok (.booleans (xs.map not))
  | _, _ => .error (.mismatch (.operandOf op.name) (.element x.elemType))

def compareReals : CompareOp → Float → Float → Bool
  | .equal, x, y => x == y
  | .notEqual, x, y => x != y
  | .less, x, y => x < y
  | .lessOrEqual, x, y => x ≤ y
  | .greater, x, y => x > y
  | .greaterOrEqual, x, y => x ≥ y

def compareIntegers : CompareOp → Int32 → Int32 → Bool
  | .equal, x, y => x == y
  | .notEqual, x, y => x != y
  | .less, x, y => x < y
  | .lessOrEqual, x, y => x ≤ y
  | .greater, x, y => x > y
  | .greaterOrEqual, x, y => x ≥ y

/-- False lies below true. -/
def compareBooleans : CompareOp → Bool → Bool → Bool
  | .equal, x, y => x == y
  | .notEqual, x, y => x != y
  | .less, x, y => !x && y
  | .lessOrEqual, x, y => !x || y
  | .greater, x, y => x && !y
  | .greaterOrEqual, x, y => x || !y

def compare (op : CompareOp) (x y : Values) : Except Fault Values :=
  match x, y with
  | .reals xs, .reals ys => .ok (.booleans (xs.zipWith (compareReals op) ys))
  | .integers xs, .integers ys => .ok (.booleans (xs.zipWith (compareIntegers op) ys))
  | .booleans xs, .booleans ys => .ok (.booleans (xs.zipWith (compareBooleans op) ys))
  | _, _ => .error (.mismatch (.element x.elemType) (.element y.elemType))

/-- The sum of a vector, added up from zero, first value first. -/
def sum? : Values → Option Values
  | .reals xs => some (.reals [xs.foldl (· + ·) 0.0])
  | .integers xs => some (.integers [xs.foldl (· + ·) 0])
  | .booleans _ => none

end Dataflow.Elementwise
