/-!
# Reals as 64 bit floating point numbers

The operations on `Float` that the library adds to core's: the least and the greatest of two
reals, and the conversions between reals and signed integers. A missing number wins over every
number in `minimum` and `maximum`, and the negative zero lies below the positive one. A real
becomes an integer by dropping its fraction; what does not fit goes to the nearest bound, and
a missing number to zero.
-/

namespace Dataflow.Ieee

def nan : Float := Float.ofBits 0x7ff8000000000000

def signBit (x : Float) : Bool := x.toBits >>> 63 == 1

def minimum (x y : Float) : Float :=
  if x.isNaN || y.isNaN then nan
  else if x == y then (if signBit x then x else y)
  else if x < y then x else y

def maximum (x y : Float) : Float :=
  if x.isNaN || y.isNaN then nan
  else if x == y then (if signBit x then y else x)
  else if x < y then y else x

/-- The real nearest to an integer of at most 64 bits, ties going to the even neighbour. -/
def ofInt (n : Int) : Float :=
  match n with
  | .ofNat k => k.toUInt64.toFloat
  | .negSucc k => -(k + 1).toUInt64.toFloat

/-- The integer part of a real, cut off at `2 ^ 64 - 1` in either direction. -/
def truncate (x : Float) : Int :=
  if x < 0.0 then -((-x).toUInt64.toNat : Int) else x.toUInt64.toNat

def clamp (low high n : Int) : Int := max low (min high n)

def toInt32 (x : Float) : Int32 := Int32.ofInt (clamp (-2147483648) 2147483647 (truncate x))

def toInt64 (x : Float) : Int64 :=
  Int64.ofInt (clamp (-9223372036854775808) 9223372036854775807 (truncate x))

def ofBool (b : Bool) : Float := if b then 1.0 else 0.0

/-- Zero, of either sign, is false; everything else is true. -/
def toBool (x : Float) : Bool := x != 0.0

theorem le_clamp {low high : Int} (n : Int) : low ≤ clamp low high n := by
  unfold clamp; omega

theorem clamp_le {low high : Int} (h : low ≤ high) (n : Int) : clamp low high n ≤ high := by
  unfold clamp; omega

theorem clamp_eq {low high n : Int} (hl : low ≤ n) (hh : n ≤ high) : clamp low high n = n := by
  unfold clamp; omega

end Dataflow.Ieee
