import Dataflow.Graph.Span

/-!
# Selections

A selection is a list of spans, possibly of several outlets, that stands for one vector of
values of a single element type: the values of its spans one after the other.
-/

namespace Dataflow

/-- One value of one outlet. -/
structure Cell where
  port : Port
  elemType : ElemType
  index : Nat
  deriving DecidableEq, Repr, Inhabited

/-- The span of one value. All that is known of the outlet is that it reaches this far. -/
def Cell.span (c : Cell) : Span := ⟨c.port, c.elemType, c.index, 1, c.index + 1, true⟩

def Span.cells (s : Span) : List Cell :=
  (List.range' s.start s.length).map fun index => ⟨s.port, s.elemType, index⟩

structure Selection where
  spans : List Span := []
  deriving Inhabited

namespace Selection

def empty : Selection := {}

def ofSpan (s : Span) : Selection := ⟨[s]⟩

def ofOutlet (o : Outlet) : Selection := ofSpan (.whole o)

def single (o : Outlet) (index : Nat) : Except Fault Selection := ofSpan <$> Span.single o index

def part (o : Outlet) (start count : Nat) : Except Fault Selection :=
  ofSpan <$> Span.part o start count

/-- The element type of the values, unless there are no spans. -/
def elemType? (s : Selection) : Option ElemType := s.spans.head?.map (·.elemType)

def size (s : Selection) : Nat := s.spans.foldr (fun span n => span.length + n) 0

def isEmpty (s : Selection) : Bool := s.size == 0

/-- Exactly one full outlet. -/
def isFullOutlet (s : Selection) : Bool :=
  match s.spans with
  | [span] => span.isFull
  | _ => false

instance : BEq Selection := ⟨fun a b => a.spans == b.spans⟩

/-- Values of type `t` may be added to the selection. -/
def checkType (s : Selection) (t : ElemType) : Except Fault Unit :=
  match s.elemType? with
  | some u => if u = t then .ok () else .error (.mismatch (.element u) (.element t))
  | none => .ok ()

def addSpan (s : Selection) (span : Span) : Except Fault Selection := do
  s.checkType span.elemType
  return ⟨s.spans ++ [span]⟩

/-- The given spans in order, all of one element type. -/
def ofSpans (spans : List Span) : Except Fault Selection := spans.foldlM addSpan empty

/-- The values of `a` followed by those of `b`. -/
def append (a b : Selection) : Except Fault Selection := do
  if let some t := b.elemType? then a.checkType t
  return ⟨a.spans ++ b.spans⟩

def concat (parts : List Selection) : Except Fault Selection := parts.foldlM append empty

/-- Merges a span with those after it as long as they are adjacent. -/
def mergeFrom (s : Span) : List Span → List Span
  | [] => [s]
  | t :: ts => if s.isAdjacent t then mergeFrom (s.merge t) ts else s :: mergeFrom t ts

/-- Merges every span with an adjacent one before it. -/
def consolidate (s : Selection) : Selection :=
  match s.spans with
  | [] => s
  | t :: ts => ⟨mergeFrom t ts⟩

/-- The given cells in order, runs of consecutive ones merged. -/
def ofCells (cells : List Cell) : Except Fault Selection := do
  let s ← ofSpans (cells.map Cell.span)
  return s.consolidate

def ofCell (c : Cell) : Selection := ofSpan c.span

/-- The cells that the selection goes through. -/
def cells (s : Selection) : List Cell := s.spans.flatMap Span.cells

def findCell : List Span → Nat → Option Cell
  | [], _ => none
  | s :: ss, index =>
    if index < s.length then some ⟨s.port, s.elemType, s.start + index⟩
    else findCell ss (index - s.length)

def cell (s : Selection) (index : Nat) : Except Fault Cell :=
  match findCell s.spans index with
  | some c => .ok c
  | none => .error (.outOfRange (.cell index s.size))

/-- Cuts `count` values out of the values of some spans, from the value `start` on. -/
def cut : List Span → Nat → Nat → List Span
  | [], _, _ => []
  | s :: ss, start, count =>
    if count = 0 then []
    else if s.length ≤ start then cut ss (start - s.length) count
    else
      let taken := min (s.length - start) count
      s.sub start taken :: cut ss 0 (count - taken)

/-- `count` values from the value `start` on. -/
def slice (s : Selection) (start count : Nat) : Except Fault Selection :=
  if start + count ≤ s.size then .ok ⟨cut s.spans start count⟩
  else .error (.outOfRange (.slice start count s.size))

@[simp] theorem length_cells_span (s : Span) : s.cells.length = s.length := by
  simp [Span.cells]

@[simp] theorem length_cells (s : Selection) : s.cells.length = s.size := by
  obtain ⟨spans⟩ := s
  induction spans with
  | nil => rfl
  | cons span spans ih => simpa [cells, size] using ih

end Selection

end Dataflow
