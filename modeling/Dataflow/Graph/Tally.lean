import Dataflow.Graph.Reference

/-!
# Tallies

A tally is a selection with its size at hand: next to the spans stands how many values they have
together. The count goes up with every span that is added and is never taken anew, so no operation
has to go through the spans to know the size. Appending changes a tally in place, and what it
refuses it refuses before anything has changed.
-/

namespace Dataflow

/-- Extends a span in place by one that is adjacent to it. -/
def Span.extend (b : Span) : ExceptT Fault (StateM Span) Unit := do
  if !(← get).isAdjacent b then
    throw (.invalid .notAdjacent)
  modify (·.merge b)

structure Tally where
  spans : List Span := []
  total : Nat := 0

namespace Tally

/-- The selection without the count. -/
def selection (t : Tally) : Selection := ⟨t.spans⟩

def add (t : Tally) (s : Span) : Tally := ⟨t.spans ++ [s], t.total + s.length⟩

def addAll (t : Tally) (spans : List Span) : Tally := spans.foldl add t

def ofSpan (s : Span) : Tally := ⟨[s], s.length⟩

def addChecked (t : Tally) (s : Span) : Except Fault Tally := do
  t.selection.checkType s.elemType
  return t.add s

/-- The given spans in order, all of one element type. -/
def ofSpans (spans : List Span) : Except Fault Tally := spans.foldlM addChecked {}

/-- Adds the spans of `b`. -/
def append (b : Tally) : ExceptT Fault (StateM Tally) Unit := do
  if let some t := b.selection.elemType? then
    (← get).selection.checkType t
  modify (·.addAll b.spans)

def concat (parts : List Tally) : Except Fault Tally :=
  match (parts.forM append).run.run {} with
  | (.ok _, t) => .ok t
  | (.error f, _) => .error f

/-- Merges every span with an adjacent one before it. -/
def consolidate (t : Tally) : Tally := { t with spans := t.selection.consolidate.spans }

/-- The given cells in order, runs of consecutive ones merged. -/
def ofCells (cells : List Cell) : Except Fault Tally := do
  return (← ofSpans (cells.map Cell.span)).consolidate

def ofCell (c : Cell) : Tally := ofSpan c.span

/-- Adds to `r` what the spans have from the value `start` up to `stop`, where the first of them
begins with the value `offset`. -/
def sliceFrom (start stop : Nat) (r : Tally) (offset : Nat) : List Span → Tally
  | [] => r
  | s :: ss =>
    let next := offset + s.length
    let first := max start offset
    let last := min stop next
    let r := if first < last then r.add (s.sub (first - offset) (last - first)) else r
    if stop ≤ next then r else sliceFrom start stop r next ss

/-- `count` values from the value `start` on. -/
def slice (t : Tally) (start count : Nat) : Except Fault Tally :=
  if start + count ≤ t.total then .ok (sliceFrom start (start + count) {} 0 t.spans)
  else .error (.outOfRange (.slice start count t.total))

/-- The values are of type `u`, unless there are no spans. -/
def expect (t : Tally) (u : ElemType) : Except Fault Unit := do
  let _ ← TypedSelection.ofSelection u t.selection

/-- The tallies one after the other, whose types have been looked at before. -/
def concatTyped (parts : List Tally) : Tally := parts.foldl (fun a b => a.addAll b.spans) {}

def resolve (g : Graph) (t : Tally) : Except Fault Tally := do
  ofSpans (← t.spans.mapM g.resolveSpan)

def parse (g : Graph) (text : String) : Except Fault Tally := do
  return addAll {} (← Reference.parse g text).spans

end Tally

end Dataflow
