import Dataflow.Graph.Evaluate

/-!
# Cursors

A cursor goes once through the values of a selection, counting them. It is made from a resolved
selection, whose spans without values it leaves out.
-/

namespace Dataflow

structure Cursor where
  spans : List Span
  /-- How many values of the first span have been passed. -/
  offset : Nat := 0
  index : Nat := 0

namespace Cursor

def ofSpans (spans : List Span) : Cursor := { spans := spans.filter (0 < ·.length) }

/-- A cursor at the first value of a selection. -/
def ofSelection (g : Graph) (s : Selection) : Except Fault Cursor := do
  return ofSpans (← g.resolve s).spans

def isValid (c : Cursor) : Bool := !c.spans.isEmpty

/-- How many values are still ahead. -/
def remaining (c : Cursor) : Nat := (⟨c.spans⟩ : Selection).size - c.offset

/-- The current index and value. -/
def current (g : Graph) (c : Cursor) : Except Fault (Nat × Float) := do
  match c.spans with
  | [] => throw (.breach .cursorExhausted)
  | s :: _ =>
    let o ← g.outlet s.port
    match o.values.real? (s.start + c.offset) with
    | some x => return (c.index, x)
    | none => throw (.breach .cursorBeyondValues)

def advance (c : Cursor) : Cursor :=
  match c.spans with
  | [] => { c with index := c.index + 1, offset := c.offset + 1 }
  | s :: ss =>
    if s.length ≤ c.offset + 1 then { spans := ss, offset := 0, index := c.index + 1 }
    else { c with offset := c.offset + 1, index := c.index + 1 }

/-- The current index and value and the cursor behind them, or none at the end. -/
def next (g : Graph) (c : Cursor) : Except Fault (Option (Nat × Float × Cursor)) := do
  if !c.isValid then return none
  let (index, value) ← c.current g
  return some (index, value, c.advance)

/-- At most `count` pairs of index and value, and the cursor behind them. -/
def take (g : Graph) (c : Cursor) : Nat → Except Fault (List (Nat × Float) × Cursor)
  | 0 => .ok ([], c)
  | count + 1 => do
    match ← c.next g with
    | none => return ([], c)
    | some (index, value, c) =>
      let (rest, c) ← take g c count
      return ((index, value) :: rest, c)

end Cursor

end Dataflow
