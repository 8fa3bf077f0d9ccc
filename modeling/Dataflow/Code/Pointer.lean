/-!
# Addresses and surroundings

An address is a place in a region of memory. Which number it is depends on where the regions have
been put. That is nothing an instruction decides, and neither is what a place in a frame holds
before it is written: both belong to the surroundings of a run.
-/

namespace Dataflow.Code

/-- Regions are numbered from one, and what has the number zero lies in none. The offset counts
bytes. -/
structure Pointer where
  region : Nat
  offset : Int64
  deriving DecidableEq, Inhabited

structure Layout where
  /-- The number of the first address in a region of memory. -/
  start : Nat → Int64
  /-- The address that a number stands for. -/
  locate : Int64 → Pointer

namespace Pointer

def toInt64 (l : Layout) (p : Pointer) : Int64 :=
  match p.region with
  | 0 => p.offset
  | r + 1 => l.start r + p.offset

def move (p : Pointer) (bytes : Int64) : Pointer := { p with offset := p.offset + bytes }

end Pointer

namespace Layout

/-- The distance between the numbers of two regions. -/
def stride : Nat := 0x10000000000

/-- Regions at equal distances. Offsets are counted from the middle of a region's numbers. -/
def spaced : Layout where
  start r := Int64.ofNat ((r + 1) * stride + stride / 2)
  locate n :=
    let k := n.toUInt64.toNat
    if k < stride then ⟨0, n⟩
    else ⟨k / stride, Int64.ofInt ((k % stride : Nat) - (stride / 2 : Nat))⟩

end Layout

structure Surroundings where
  /-- Where the regions are while there have been so many of them. -/
  layout : Nat → Layout := fun _ => .spaced
  /-- What a place holds that has not been written, byte by byte. -/
  residue : Nat → Nat → UInt8 := fun _ _ => 0

end Dataflow.Code
