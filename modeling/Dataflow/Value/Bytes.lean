/-!
# Little-endian bytes

A number is written lowest byte first. Writing and reading back keeps a number modulo the
range of its bytes.
-/

namespace Dataflow.Bytes

/-- The `count` lowest bytes of a number, lowest first. -/
def ofNat : Nat → Nat → List UInt8
  | 0, _ => []
  | count + 1, n => n.toUInt8 :: ofNat count (n / 256)

def toNat : List UInt8 → Nat
  | [] => 0
  | b :: bs => b.toNat + 256 * toNat bs

@[simp] theorem length_ofNat (count n : Nat) : (ofNat count n).length = count := by
  induction count generalizing n with
  | zero => rfl
  | succ count ih => simp [ofNat, ih]

end Dataflow.Bytes
