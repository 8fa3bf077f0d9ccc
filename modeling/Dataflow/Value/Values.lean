import Dataflow.Fault
import Dataflow.Value.Bytes
import Dataflow.Value.Ieee

/-!
# Vectors of values

The values held by one output of a node: a vector of truth values, of 32 bit integers or of
reals. Conversions between element types go through the reals, so they keep every truth value
and every 32 bit integer.
-/

namespace Dataflow

/-- Two vectors are equal when their types are and their values are pairwise equal as numbers:
a missing number differs from itself and the two zeros are equal. -/
inductive Values
  | booleans (xs : List Bool)
  | integers (xs : List Int32)
  | reals (xs : List Float)
  deriving BEq, Inhabited

namespace Values

def elemType : Values → ElemType
  | booleans _ => .boolean
  | integers _ => .integer
  | reals _ => .real

def length : Values → Nat
  | booleans xs => xs.length
  | integers xs => xs.length
  | reals xs => xs.length

def isEmpty (v : Values) : Bool := v.length == 0

/-- `length` zeros of a type. -/
def zeros (t : ElemType) (length : Nat) : Values :=
  match t with
  | .boolean => booleans (List.replicate length false)
  | .integer => integers (List.replicate length 0)
  | .real => reals (List.replicate length 0.0)

/-- Cuts a list to a length or fills it up with `zero`. -/
def fit {α : Type} (zero : α) (length : Nat) (xs : List α) : List α :=
  xs.take length ++ List.replicate (length - xs.length) zero

def resize (v : Values) (length : Nat) : Values :=
  match v with
  | booleans xs => booleans (fit false length xs)
  | integers xs => integers (fit 0 length xs)
  | reals xs => reals (fit 0.0 length xs)

/-- The values as reals. -/
def toReals : Values → List Float
  | booleans xs => xs.map Ieee.ofBool
  | integers xs => xs.map fun n => Ieee.ofInt n.toInt
  | reals xs => xs

/-- Values of a type from reals. -/
def ofReals (t : ElemType) (xs : List Float) : Values :=
  match t with
  | .boolean => booleans (xs.map Ieee.toBool)
  | .integer => integers (xs.map Ieee.toInt32)
  | .real => reals xs

def real? (v : Values) (index : Nat) : Option Float :=
  match v with
  | booleans xs => xs[index]?.map Ieee.ofBool
  | integers xs => xs[index]?.map fun n => Ieee.ofInt n.toInt
  | reals xs => xs[index]?

def convert (v : Values) (t : ElemType) : Values := ofReals t v.toReals

/-- The vector itself, when it holds values of type `t`. -/
def expect (v : Values) (t : ElemType) : Except Fault Values :=
  if v.elemType = t then .ok v else .error (.mismatch (.element t) (.element v.elemType))

/-- Two vectors of one type one after the other. -/
def append? : Values → Values → Option Values
  | booleans xs, booleans ys => some (booleans (xs ++ ys))
  | integers xs, integers ys => some (integers (xs ++ ys))
  | reals xs, reals ys => some (reals (xs ++ ys))
  | _, _ => none

/-- The `count` values from `start` on, as far as there are any. -/
def extract (v : Values) (start count : Nat) : Values :=
  match v with
  | booleans xs => booleans ((xs.drop start).take count)
  | integers xs => integers ((xs.drop start).take count)
  | reals xs => reals ((xs.drop start).take count)

/-- Appends `count` values of `source` from `start` on. -/
def extend (v source : Values) (start count : Nat) : Except Fault Values :=
  if start + count ≤ source.length then
    match v.append? (source.extract start count) with
    | some w => .ok w
    | none => .error (.mismatch (.element v.elemType) (.element source.elemType))
  else .error (.outOfRange (.values start count source.length))

/-- Appends all values of a vector of the same type. -/
def push (v more : Values) : Except Fault Values := do
  let own ← v.expect more.elemType
  own.extend more 0 more.length

/-- The values as they lie in memory. -/
def bytes : Values → List UInt8
  | booleans xs => xs.map fun b => if b then 1 else 0
  | integers xs => xs.flatMap fun n => Bytes.ofNat 4 n.toUInt32.toNat
  | reals xs => xs.flatMap fun x => Bytes.ofNat 8 x.toBits.toNat

/-- Reads one value out of each run of bytes of the type's size. -/
def chunks (size : Nat) : Nat → List UInt8 → List (List UInt8)
  | 0, _ => []
  | count + 1, bs => bs.take size :: chunks size count (bs.drop size)

/-- `count` values from the bytes they take in memory. -/
def ofBytes (t : ElemType) (count : Nat) (bs : List UInt8) : Values :=
  let parts := (chunks t.size count bs).map Bytes.toNat
  match t with
  | .boolean => booleans (parts.map (· != 0))
  | .integer => integers (parts.map fun n => n.toUInt32.toInt32)
  | .real => reals (parts.map fun n => Float.ofBits n.toUInt64)

@[simp] theorem elemType_zeros (t : ElemType) (n : Nat) : (zeros t n).elemType = t := by
  cases t <;> rfl

@[simp] theorem length_zeros (t : ElemType) (n : Nat) : (zeros t n).length = n := by
  cases t <;> simp [zeros, length]

@[simp] theorem length_fit {α : Type} (zero : α) (n : Nat) (xs : List α) :
    (fit zero n xs).length = n := by
  simp [fit]; omega

@[simp] theorem elemType_resize (v : Values) (n : Nat) : (v.resize n).elemType = v.elemType := by
  cases v <;> rfl

@[simp] theorem length_resize (v : Values) (n : Nat) : (v.resize n).length = n := by
  cases v <;> simp [resize, length]

end Values

end Dataflow
