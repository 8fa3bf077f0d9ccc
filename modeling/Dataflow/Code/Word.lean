import Dataflow.Code.Operator
import Dataflow.Code.Pointer
import Dataflow.Value.Bytes
import Dataflow.Value.Ieee

/-!
# Words and what operators do to them

A word is a value at run time. Integers wrap around; dividing by zero gives zero, and the least
integer divided by minus one is itself. Reals follow IEEE 754. How addresses convert to numbers and
back depends on the layout of memory.
-/

namespace Dataflow.Code

inductive Word
  | bool (b : Bool)
  | i32 (n : Int32)
  | i64 (n : Int64)
  | f64 (x : Float)
  | ptr (p : Pointer)
  deriving Inhabited

namespace Word

def ty : Word → Ty
  | bool _ => .bool
  | i32 _ => .i32
  | i64 _ => .i64
  | f64 _ => .f64
  | ptr _ => .ptr

def ofLiteral : Literal → Word
  | .bool b => bool b
  | .i32 n => i32 n
  | .i64 n => i64 n
  | .f64 x => f64 x

def zero : Ty → Word
  | .bool => bool false
  | .i32 => i32 0
  | .i64 => i64 0
  | .f64 => f64 0.0
  | .ptr => ptr ⟨0, 0⟩

def binaryI32 (op : BinaryOp) (a b : Int32) : Option Int32 :=
  match op with
  | .add => some (a + b)
  | .subtract => some (a - b)
  | .multiply => some (a * b)
  | .divide => some (if b = 0 then 0 else if b = -1 then -a else a / b)
  | .min => some (if a ≤ b then a else b)
  | .max => some (if a ≤ b then b else a)
  | .and | .or | .xor => none

def binaryI64 (op : BinaryOp) (a b : Int64) : Option Int64 :=
  match op with
  | .add => some (a + b)
  | .subtract => some (a - b)
  | .multiply => some (a * b)
  | .divide => some (if b = 0 then 0 else if b = -1 then -a else a / b)
  | .min => some (if a ≤ b then a else b)
  | .max => some (if a ≤ b then b else a)
  | .and | .or | .xor => none

def binaryF64 (op : BinaryOp) (a b : Float) : Option Float :=
  match op with
  | .add => some (a + b)
  | .subtract => some (a - b)
  | .multiply => some (a * b)
  | .divide => some (a / b)
  | .min => some (Ieee.minimum a b)
  | .max => some (Ieee.maximum a b)
  | .and | .or | .xor => none

def binaryBool (op : BinaryOp) (a b : Bool) : Option Bool :=
  match op with
  | .and => some (a && b)
  | .or => some (a || b)
  | .xor => some (a != b)
  | _ => none

/-- The result of a binary operator on two words of a type that it accepts. -/
def binary (op : BinaryOp) : Word → Word → Option Word
  | i32 a, i32 b => i32 <$> binaryI32 op a b
  | i64 a, i64 b => i64 <$> binaryI64 op a b
  | f64 a, f64 b => f64 <$> binaryF64 op a b
  | bool a, bool b => bool <$> binaryBool op a b
  | _, _ => none

def unary : UnaryOp → Word → Option Word
  | .negate, i32 a => some (i32 (-a))
  | .negate, i64 a => some (i64 (-a))
  | .negate, f64 a => some (f64 (-a))
  | .abs, i32 a => some (i32 (if a < 0 then -a else a))
  | .abs, i64 a => some (i64 (if a < 0 then -a else a))
  | .abs, f64 a => some (f64 a.abs)
  | .sqrt, f64 a => some (f64 a.sqrt)
  | .not, bool a => some (bool (!a))
  | _, _ => none

def compareInt (op : CompareOp) (a b : Int) : Bool :=
  match op with
  | .equal => a == b
  | .notEqual => a != b
  | .less => a < b
  | .lessOrEqual => a ≤ b
  | .greater => b < a
  | .greaterOrEqual => b ≤ a

def compareF64 (op : CompareOp) (a b : Float) : Bool :=
  match op with
  | .equal => a == b
  | .notEqual => a != b
  | .less => a < b
  | .lessOrEqual => a ≤ b
  | .greater => b < a
  | .greaterOrEqual => b ≤ a

def compare (op : CompareOp) : Word → Word → Option Bool
  | i32 a, i32 b => some (compareInt op a.toInt b.toInt)
  | i64 a, i64 b => some (compareInt op a.toInt b.toInt)
  | f64 a, f64 b => some (compareF64 op a b)
  | bool a, bool b => some (compareInt op a.toInt b.toInt)
  | _, _ => none

def cast (l : Layout) : Word → Ty → Option Word
  | bool b, .bool => some (bool b)
  | bool b, .i32 => some (i32 (if b then 1 else 0))
  | bool b, .i64 => some (i64 (if b then 1 else 0))
  | bool b, .f64 => some (f64 (Ieee.ofInt b.toInt))
  | i32 n, .bool => some (bool (n != 0))
  | i32 n, .i32 => some (i32 n)
  | i32 n, .i64 => some (i64 n.toInt64)
  | i32 n, .f64 => some (f64 (Ieee.ofInt n.toInt))
  | i64 n, .bool => some (bool (n != 0))
  | i64 n, .i32 => some (i32 n.toInt32)
  | i64 n, .i64 => some (i64 n)
  | i64 n, .f64 => some (f64 (Ieee.ofInt n.toInt))
  | i64 n, .ptr => some (ptr (l.locate n))
  | f64 x, .bool => some (bool (x != 0.0))
  | f64 x, .i32 => some (i32 (Ieee.toInt32 x))
  | f64 x, .i64 => some (i64 (Ieee.toInt64 x))
  | f64 x, .f64 => some (f64 x)
  | ptr p, .i64 => some (i64 (p.toInt64 l))
  | ptr p, .ptr => some (ptr p)
  | _, _ => none

/-- An integer as a distance in bytes. -/
def toIndex : Word → Option Int64
  | i32 n => some n.toInt64
  | i64 n => some n
  | _ => none

/-- The bytes of a word in memory. -/
def bytes (l : Layout) : Word → List UInt8
  | bool b => [if b then 1 else 0]
  | i32 n => Bytes.ofNat 4 n.toUInt32.toNat
  | i64 n => Bytes.ofNat 8 n.toUInt64.toNat
  | f64 x => Bytes.ofNat 8 x.toBits.toNat
  | ptr p => Bytes.ofNat 8 (p.toInt64 l).toUInt64.toNat

/-- The word of a type that some bytes stand for. Stores write the bytes zero and one for Booleans;
any other byte but zero is read as true, and which one it was is not kept. -/
def ofBytes (l : Layout) (t : Ty) (bs : List UInt8) : Word :=
  let n := Bytes.toNat bs
  match t with
  | .bool => bool (n != 0)
  | .i32 => i32 n.toUInt32.toInt32
  | .i64 => i64 n.toUInt64.toInt64
  | .f64 => f64 (Float.ofBits n.toUInt64)
  | .ptr => ptr (l.locate n.toUInt64.toInt64)

@[simp] theorem length_bytes (l : Layout) (w : Word) : (w.bytes l).length = w.ty.size := by
  cases w <;> simp [bytes, ty, Ty.size]

end Word

end Dataflow.Code
