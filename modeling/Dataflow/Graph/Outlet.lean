import Dataflow.Graph.Arena
import Dataflow.Value.Values

/-!
# Outlets

A node offers its results at outlets. An outlet has a name, an element type and, once it is
known, a size; it holds the values computed last. A port is the address of an outlet. Zeros that
nobody has asked for take no room, whatever the size.
-/

namespace Dataflow

/-- The position of an outlet: a node and an index among the outlets of that node. -/
structure Port where
  node : Key
  index : Nat
  deriving DecidableEq, Repr, Inhabited

/-- What a node says about one of its outlets. Without a size the outlet stays unsized until it
is given one. -/
structure OutletSpec where
  name : String
  elemType : ElemType
  size : Option Nat

structure Outlet where
  name : String
  port : Port
  elemType : ElemType
  size : Option Nat
  stored : Thunk Values
  deriving Inhabited

namespace Outlet

def values (o : Outlet) : Values := o.stored.get

/-- The outlet with other values. -/
def hold (o : Outlet) (values : Values) : Outlet := { o with stored := .pure values }

def ofSpec (spec : OutletSpec) (port : Port) : Outlet where
  name := spec.name
  port := port
  elemType := spec.elemType
  size := spec.size
  stored := .mk fun _ => .zeros spec.elemType (spec.size.getD 0)

def isSized (o : Outlet) : Bool := o.size.isSome

def setSize (o : Outlet) (size : Nat) : Outlet :=
  { o with size := some size, stored := .mk fun _ => o.values.resize size }

@[simp] theorem values_hold (o : Outlet) (values : Values) : (o.hold values).values = values := rfl

@[simp] theorem elemType_hold (o : Outlet) (values : Values) :
    (o.hold values).elemType = o.elemType := rfl

@[simp] theorem size_hold (o : Outlet) (values : Values) : (o.hold values).size = o.size := rfl

end Outlet

end Dataflow
