/-!
# Element types

Every vector that flows along an edge of a dataflow graph holds values of one of three element
types.
-/

namespace Dataflow

inductive ElemType
  | boolean
  | integer
  | real
  deriving DecidableEq, Repr, Inhabited

namespace ElemType

def name : ElemType → String
  | boolean => "boolean"
  | integer => "integer"
  | real => "real"

/-- Bytes taken by one value in a native buffer. -/
def size : ElemType → Nat
  | boolean => 1
  | integer => 4
  | real => 8

def isNumeric : ElemType → Bool
  | boolean => false
  | integer | real => true

def all : List ElemType := [boolean, integer, real]

instance : ToString ElemType := ⟨name⟩

end ElemType

end Dataflow
