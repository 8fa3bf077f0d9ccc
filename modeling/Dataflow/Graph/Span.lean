import Dataflow.Graph.Outlet

/-!
# Spans

A span is a run of consecutive values of one outlet. Either it is fixed or it follows its outlet to
whatever size that has or gets. Only fixed spans can be adjacent and merge: one that follows its outlet
may still change its length.
-/

namespace Dataflow

/-- The size is that of the outlet when the span was made or last resolved, zero for an unsized
outlet. -/
structure Span where
  port : Port
  elemType : ElemType
  start : Nat
  length : Nat
  outletSize : Nat
  isFixed : Bool
  deriving DecidableEq, Repr, Inhabited

namespace Span

def stop (s : Span) : Nat := s.start + s.length

/-- Spans are told apart by their port, start and length alone. -/
def place (s : Span) : Port × Nat × Nat := (s.port, s.start, s.length)

instance : BEq Span := ⟨fun a b => a.place == b.place⟩

/-- All values of an outlet. -/
def whole (o : Outlet) : Span := ⟨o.port, o.elemType, 0, o.size.getD 0, o.size.getD 0, false⟩

/-- `count` values of an outlet from `start` on. -/
def part (o : Outlet) (start count : Nat) : Except Fault Span :=
  match o.size with
  | none => .error (.invalid (.unsizedSlice o.name))
  | some size =>
    if start + count ≤ size then .ok ⟨o.port, o.elemType, start, count, size, true⟩
    else .error (.outOfRange (.span start count o.name size))

def single (o : Outlet) (index : Nat) : Except Fault Span := part o index 1

/-- A span that follows its outlet is full by definition. -/
def isFull (s : Span) : Bool := !s.isFixed || (s.start == 0 && s.length == s.outletSize)

/-- `b` begins on the same port where `a` ends. -/
def isAdjacent (a b : Span) : Bool :=
  a.isFixed && b.isFixed && a.port == b.port && a.stop == b.start

/-- The span from the start of `a` over the length of both. -/
def merge (a b : Span) : Span := { a with length := a.length + b.length }

def append (a b : Span) : Except Fault Span :=
  if a.isAdjacent b then .ok (a.merge b) else .error (.invalid .notAdjacent)

/-- `count` values of a span from its value `offset` on. -/
def sub (s : Span) (offset count : Nat) : Span :=
  { s with start := s.start + offset, length := count, isFixed := true }

/-- The span over an outlet of the given size. -/
def refresh (s : Span) (size : Nat) : Span :=
  { s with length := if s.isFixed then s.length else size - s.start, outletSize := size }

end Span

end Dataflow
