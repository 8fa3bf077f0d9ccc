import Dataflow.Lower.Storage

/-!
# Nodes

What a node has to say for itself: what it reads, which outlets it offers for given inputs, how
its outputs are computed and how it is lowered. A computation can write the values of its
outlets and nothing else, not even when it fails half way.
-/

namespace Dataflow

/-- A computation that sees the outlets of its node and writes one vector of values for each. -/
abbrev Compute := ReaderT (List Outlet) (ExceptT Fault (StateM (List Values)))

namespace Compute

/-- Replaces the values of an output without a look at their type or number. -/
def write (output : Nat) (values : Values) : Compute Unit := do
  let current ← get
  if output < current.length then
    set (current.set output values)
  else throw (.breach (.subscript current.length output))

/-- Replaces the values of an output, which have to be of its type and size. -/
def setOutput (output : Nat) (values : Values) : Compute Unit := do
  match (← read)[output]? with
  | none => throw (.outOfRange (.output output))
  | some o =>
    if values.elemType ≠ o.elemType then
      throw (.mismatch (.element o.elemType) (.element values.elemType))
    if some values.length ≠ o.size then
      throw (.invalid (.computedCount values.length o.name o.size))
    modify fun vs => vs.set output values

/-- Runs a computation on the outlets of a node. An outlet that the computation has no values for
keeps its own. -/
def apply (c : Compute Unit) (outlets : List Outlet) : Except Fault Unit × List Outlet :=
  let (r, values) := (c.run outlets).run.run (outlets.map (·.values))
  (r, outlets.mapIdx fun i o => o.hold (values.getD i o.values))

end Compute

structure Node where
  typeName : String
  /-- The values of the node's outlet are supplied from outside. -/
  isInput : Bool := false
  inlets : List Inlet := []
  /-- The outlets, given what the inlets read once it is resolved. -/
  outlets : List Selection → Except Fault (List OutletSpec)
  compute : List Values → Compute Unit
  lower : Lower Unit

namespace Node

/-- No node has more inlets or outlets than this. -/
def maxPorts : Nat := 32

/-- The lowering of a node that can only be interpreted. -/
def cannotLower (typeName : String) : Lower Unit := throw (.unsupported (.lowering typeName))

end Node

end Dataflow
