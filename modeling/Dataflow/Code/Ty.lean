import Dataflow.Value.ElemType

/-!
# Types and literals of emitted code

A value of emitted code is a truth value, a 32 or 64 bit integer, a real or the address of a
buffer. The three element types of a graph embed into these types.
-/

namespace Dataflow.Code

inductive Ty
  | bool
  | i32
  | i64
  | f64
  | ptr
  deriving DecidableEq, Repr, Inhabited

namespace Ty

def name : Ty → String
  | bool => "bool"
  | i32 => "i32"
  | i64 => "i64"
  | f64 => "f64"
  | ptr => "ptr"

/-- Bytes taken by one value in memory. -/
def size : Ty → Nat
  | bool => 1
  | i32 => 4
  | i64 | f64 | ptr => 8

def isInteger : Ty → Bool
  | i32 | i64 => true
  | bool | f64 | ptr => false

def isNumeric : Ty → Bool
  | i32 | i64 | f64 => true
  | bool | ptr => false

def all : List Ty := [bool, i32, i64, f64, ptr]

instance : ToString Ty := ⟨name⟩

theorem size_pos (t : Ty) : 0 < t.size := by cases t <;> decide

end Ty

inductive Literal
  | bool (b : Bool)
  | i32 (n : Int32)
  | i64 (n : Int64)
  | f64 (x : Float)

namespace Literal

def ty : Literal → Ty
  | bool _ => .bool
  | i32 _ => .i32
  | i64 _ => .i64
  | f64 _ => .f64

/-- The zero of a type; the zero of an address is written as a 64 bit integer. -/
def zero : Ty → Literal
  | .bool => bool false
  | .i32 => i32 0
  | .i64 | .ptr => i64 0
  | .f64 => f64 0.0

theorem ty_zero {t : Ty} (h : t.isInteger = true) : (zero t).ty = t := by
  cases t with
  | ptr => cases h
  | _ => rfl

end Literal

end Dataflow.Code

namespace Dataflow.ElemType

/-- The type that the elements of a graph have in emitted code. -/
def ty : ElemType → Code.Ty
  | boolean => .bool
  | integer => .i32
  | real => .f64

@[simp] theorem size_ty (t : ElemType) : t.ty.size = t.size := by cases t <;> rfl

end Dataflow.ElemType
