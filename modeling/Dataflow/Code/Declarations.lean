import Dataflow.Code.Body

/-!
# Declarations of a module

The functions and the data that every function of a module can name. An operator that is not
emitted in place gets a helper function of its own, declared when it is first asked for; its
body is made later, from the request that stays pending until then.
-/

namespace Dataflow.Code

structure Signature where
  name : String
  params : List Ty
  result : Option Ty
  exported : Bool
  deriving DecidableEq, Repr, Inhabited

structure Datum where
  name : String
  bytes : List UInt8
  writable : Bool
  deriving DecidableEq, Inhabited

/-- A helper function that has no body yet. -/
structure HelperRequest where
  function : FunctionId
  op : Operator
  ty : Ty
  deriving DecidableEq, Repr, Inhabited

structure Declarations where
  functions : Array Signature := #[]
  data : Array Datum := #[]
  helpers : Table (Operator × Ty) FunctionId := ∅
  pending : List HelperRequest := []

namespace Declarations

instance : Inhabited Declarations := ⟨{}⟩

def find? (d : Declarations) (name : String) : Option FunctionId :=
  (d.functions.findIdx? (·.name == name)).map FunctionId.mk

def declare (d : Declarations) (s : Signature) : Except Fault (FunctionId × Declarations) :=
  if (d.find? s.name).isSome then .error (.invalid (.declared s.name))
  else .ok (⟨d.functions.size⟩, { d with functions := d.functions.push s })

def function (d : Declarations) (id : FunctionId) : Except Fault Signature :=
  match d.functions[id.index]? with
  | some s => .ok s
  | none => .error (.missing (.declaration id.index))

def addDatum (d : Declarations) (datum : Datum) : DatumId × Declarations :=
  (⟨d.data.size⟩, { d with data := d.data.push datum })

def datum (d : Declarations) (id : DatumId) : Except Fault Datum :=
  match d.data[id.index]? with
  | some datum => .ok datum
  | none => .error (.missing (.datum id.index))

def helperName (op : Operator) (t : Ty) : String := s!"flowc_op_{op.name}_{t.name}"

/-- The helper that applies an operator to values of a type, declared on first use. -/
def helper (d : Declarations) (op : Operator) (t : Ty) :
    Except Fault (FunctionId × Declarations) := do
  if let some id := d.helpers.find? (op, t) then return (id, d)
  let (id, d) ← d.declare
    { name := helperName op t
      params := List.replicate op.arity t
      result := some t
      exported := false }
  return (id, { d with
    helpers := d.helpers.insert (op, t) id
    pending := d.pending ++ [⟨id, op, t⟩] })

/-- The helpers that still need a body, each of them once. -/
def takePending (d : Declarations) : List HelperRequest × Declarations :=
  (d.pending, { d with pending := [] })

end Declarations

/-- The body of a helper: it applies its operator to its arguments and returns the result. -/
def HelperRequest.body (r : HelperRequest) (s : Signature) : Except Fault Body := do
  let params := s.params.mapIdx fun i ty => ⟨s!"a{i}", ty⟩
  let (result, b) := (Body.new r.function s.name params (some r.ty)).newValue r.ty
  let instr ← match r.op, b.args with
    | .binary op, [lhs, rhs] => pure (Instr.binary result op lhs rhs)
    | .unary op, [operand] => pure (Instr.unary result op operand)
    | _, _ => throw (.invalid (.helperArity s.name s.params.length))
  let b ← b.push instr
  b.terminate (.ret (some result))

end Dataflow.Code
