import Dataflow.Graph.Selection

/-!
# Selections of a known element type

A selection whose values are known to be of one type. The type is looked at once, when the
selection is made; afterwards selections of the same type combine without a check.
-/

namespace Dataflow

structure TypedSelection (t : ElemType) where
  base : Selection

namespace TypedSelection

variable {t : ElemType}

def ofSelection (t : ElemType) (s : Selection) : Except Fault (TypedSelection t) :=
  match s.elemType? with
  | some u => if u = t then .ok ⟨s⟩ else .error (.mismatch (.element t) (.element u))
  | none => .ok ⟨s⟩

def ofOutlet (t : ElemType) (o : Outlet) : Except Fault (TypedSelection t) :=
  ofSelection t (.ofOutlet o)

def single (t : ElemType) (o : Outlet) (index : Nat) : Except Fault (TypedSelection t) := do
  ofSelection t (← Selection.single o index)

def part (t : ElemType) (o : Outlet) (start count : Nat) : Except Fault (TypedSelection t) := do
  ofSelection t (← Selection.part o start count)

def append (a b : TypedSelection t) : TypedSelection t := ⟨⟨a.base.spans ++ b.base.spans⟩⟩

def concat (parts : List (TypedSelection t)) : TypedSelection t := parts.foldl append ⟨.empty⟩

def slice (s : TypedSelection t) (start count : Nat) : Except Fault (TypedSelection t) := do
  return ⟨← s.base.slice start count⟩

def consolidate (s : TypedSelection t) : TypedSelection t := ⟨s.base.consolidate⟩

def size (s : TypedSelection t) : Nat := s.base.size

end TypedSelection

end Dataflow
