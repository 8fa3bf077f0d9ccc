import Dataflow.Graph.Basic

/-!
# Evaluating graphs

Values are gathered from the outlets that a selection reads. Computing a node replaces the
values of its outlets; when a computation fails, what was computed before it stays.
-/

namespace Dataflow

namespace Graph

/-- The values of resolved spans, one after the other, appended to the ones at hand. -/
def gatherSpans (g : Graph) (values : Values) : List Span → Except Fault Values
  | [] => .ok values
  | s :: ss => do
    let o ← g.outlet s.port
    gatherSpans g (← values.extend o.values s.start s.length) ss

/-- The current values of a selection. A selection without spans has no values of type real. -/
def gather (g : Graph) (s : Selection) : Except Fault Values := do
  let resolved ← g.resolve s
  g.gatherSpans (.zeros (resolved.elemType?.getD .real) 0) resolved.spans

/-- Computes one node. -/
def computeNode (k : Key) : GraphM Unit := do
  let g ← get
  match g.entry? k with
  | none => throw (.missing .computedNode)
  | some e =>
    match e.inlets.mapM fun i => g.gather i.selection with
    | .error f => throw f
    | .ok inputs =>
      let (r, outlets) := (e.node.compute inputs).apply e.outlets
      set (g.setOutlets k outlets)
      match r with
      | .ok _ => return ()
      | .error f => throw f

/-- Computes nodes in the given order. -/
def compute (order : List Key) : GraphM Unit := order.forM computeNode

end Graph

end Dataflow
