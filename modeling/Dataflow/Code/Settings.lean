/-!
# Settings

Switches that shape the emitted code. Apart from the source locations, they change how a result
is computed and never the result.
-/

namespace Dataflow.Code

structure Settings where
  /-- Straight-line code in place of loops over the elements of a vector. -/
  unroll : Bool := false
  /-- Operators in place of calls to one helper function per operator. -/
  inline : Bool := true
  optimize : Bool := true
  /-- Source locations of nodes in the emitted code. -/
  diagnostics : Bool := false
  deriving DecidableEq, Repr, Inhabited

end Dataflow.Code
