import Dataflow.Code.Word

/-!
# Memory

Memory is made of regions of bytes that do not touch: module data, buffers of the caller, places
in frames. An access has to lie inside one region, and what must not be written is not.
-/

namespace Dataflow.Code

structure Region where
  bytes : Array UInt8
  writable : Bool := true
  deriving Inhabited

namespace Region

/-- A place in a frame before anything has been written there. -/
def unwritten (ω : Surroundings) (r size : Nat) : Region where
  bytes := (Array.range size).map (ω.residue r)

/-- A place in a frame that has been left. -/
def gone : Region := { bytes := #[], writable := false }

end Region

abbrev Memory := Array Region

/-- What stops a run. -/
inductive Trap
  | outOfBounds
  | readOnly
  | undefined
  | illTyped
  | noBody
  deriving DecidableEq, Repr

namespace Memory

/-- Where an access of `size` bytes begins in its region. -/
def place (m : Memory) (p : Pointer) (offset size : Nat) : Except Trap (Nat × Nat) :=
  let start := p.offset.toInt + offset
  match p.region with
  | 0 => .error .outOfBounds
  | r + 1 =>
    match m[r]? with
    | none => .error .outOfBounds
    | some region =>
      if 0 ≤ start ∧ start.toNat + size ≤ region.bytes.size then .ok (r, start.toNat)
      else .error .outOfBounds

def load (m : Memory) (l : Layout) (t : Ty) (p : Pointer) (offset : Nat) : Except Trap Word := do
  let (r, start) ← m.place p offset t.size
  match m[r]? with
  | some region => return .ofBytes l t (region.bytes.extract start (start + t.size)).toList
  | none => throw .outOfBounds

/-- Overwrites the bytes from a position on. -/
def overwrite (bytes : Array UInt8) (start : Nat) : List UInt8 → Array UInt8
  | [] => bytes
  | b :: bs => overwrite (bytes.setIfInBounds start b) (start + 1) bs

def store (m : Memory) (l : Layout) (p : Pointer) (offset : Nat) (w : Word) : Except Trap Memory := do
  let (r, start) ← m.place p offset w.ty.size
  if !((m[r]?).map (·.writable)).getD false then
    throw .readOnly
  return m.modify r fun region => { region with bytes := overwrite region.bytes start (w.bytes l) }

/-- Memory with the places of a new frame behind it. -/
def enter (m : Memory) (ω : Surroundings) (sizes : Array Nat) : Memory :=
  m ++ sizes.mapIdx fun i size => .unwritten ω (m.size + i) size

/-- Memory after everything from a region on has been given up. The numbers of the regions are not
used again. -/
def leave (m : Memory) (base : Nat) : Memory :=
  m.mapIdx fun r region => if r < base then region else .gone

end Memory

end Dataflow.Code
