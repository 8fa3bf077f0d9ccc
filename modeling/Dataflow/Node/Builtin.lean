import Dataflow.Graph.Node
import Dataflow.Graph.Selection.Typed
import Dataflow.Node.Elementwise

/-!
# Built-in nodes

Inputs, constants, operators and comparisons element by element, sums and conversions. Each of
them has one outlet. It is computed by an operation on whole vectors, and lowered to code that
works element by element.
-/

namespace Dataflow

open Code (BinaryOp UnaryOp CompareOp Emit)

/-- An operator has to accept its operands, and two operands have to have one size; a sum is one
of numbers. -/
inductive Builtin
  | input (t : ElemType) (size : Option Nat)
  | constant (values : Values)
  | binary (t : ElemType) (op : BinaryOp) (x y : TypedSelection t)
      (accepted : op.accepts t.ty = true) (sizes : x.size = y.size)
  | predicate (t : ElemType) (op : CompareOp) (x y : TypedSelection t) (sizes : x.size = y.size)
  | unary (t : ElemType) (op : UnaryOp) (x : TypedSelection t) (accepted : op.accepts t.ty = true)
  | sum (t : ElemType) (x : TypedSelection t) (numeric : t.isNumeric = true)
  | cast (t target : ElemType) (x : TypedSelection t)

namespace Builtin

/-- The name of the only outlet. -/
def outletName : String := "output"

def ofBinary {t : ElemType} (op : BinaryOp) (x y : TypedSelection t) : Except Fault Builtin :=
  if accepted : op.accepts t.ty = true then
    if sizes : x.size = y.size then .ok (binary t op x y accepted sizes)
    else .error (.invalid (.operandSizes op.name x.size y.size))
  else .error (.mismatch (.operandOf op.name) (.element t))

def ofPredicate {t : ElemType} (op : CompareOp) (x y : TypedSelection t) : Except Fault Builtin :=
  if sizes : x.size = y.size then .ok (predicate t op x y sizes)
  else .error (.invalid (.operandSizes op.name x.size y.size))

def ofUnary {t : ElemType} (op : UnaryOp) (x : TypedSelection t) : Except Fault Builtin :=
  if accepted : op.accepts t.ty = true then .ok (unary t op x accepted)
  else .error (.mismatch (.operandOf op.name) (.element t))

def ofSum {t : ElemType} (x : TypedSelection t) : Except Fault Builtin :=
  if numeric : t.isNumeric = true then .ok (sum t x numeric)
  else .error (.mismatch .numericElements (.element t))

def typeName : Builtin → String
  | input .. => "InputNode"
  | constant .. => "ConstantNode"
  | binary .. => "BinaryOperationNode"
  | predicate .. => "BinaryPredicateNode"
  | unary .. => "UnaryOperationNode"
  | sum .. => "SumNode"
  | cast .. => "TypeCastNode"

def isInput : Builtin → Bool
  | input .. => true
  | _ => false

def inlets : Builtin → List Inlet
  | input .. | constant .. => []
  | binary _ _ x y .. | predicate _ _ x y .. => [⟨"input1", x.base⟩, ⟨"input2", y.base⟩]
  | unary _ _ x _ | sum _ x _ | cast _ _ x => [⟨"input", x.base⟩]

/-- The element type of the outlet. -/
def elemType : Builtin → ElemType
  | input t _ => t
  | constant values => values.elemType
  | binary t .. => t
  | predicate .. => .boolean
  | unary t .. => t
  | sum t .. => t
  | cast _ target _ => target

def resolvedSize (inputs : List Selection) (index : Nat) : Except Fault Nat :=
  match inputs[index]? with
  | some s => .ok s.size
  | none => .error (.outOfRange (.input index))

def commonSize (operator : String) (inputs : List Selection) : Except Fault Nat := do
  let size ← resolvedSize inputs 0
  if (← resolvedSize inputs 1) ≠ size then
    throw (.invalid (.operandsDiffer operator))
  return size

/-- The size of the outlet for resolved inputs. -/
def outletSize (b : Builtin) (inputs : List Selection) : Except Fault (Option Nat) :=
  match b with
  | input _ size => .ok size
  | constant values => .ok (some values.length)
  | binary _ op .. => some <$> commonSize op.name inputs
  | predicate _ op .. => some <$> commonSize op.name inputs
  | unary .. | cast .. => some <$> resolvedSize inputs 0
  | sum .. => .ok (some 1)

def inputValues (inputs : List Values) (index : Nat) : Except Fault Values :=
  match inputs[index]? with
  | some v => .ok v
  | none => .error (.outOfRange (.input index))

/-- The result for the given inputs. The result of an input node is supplied from outside. -/
def eval (b : Builtin) (inputs : List Values) : Except Fault (Option Values) :=
  match b with
  | input .. => .ok none
  | constant values => .ok (some values)
  | binary _ op .. => do
    let x ← inputValues inputs 0
    some <$> Elementwise.binary op x (← inputValues inputs 1)
  | predicate _ op .. => do
    let x ← inputValues inputs 0
    some <$> Elementwise.compare op x (← inputValues inputs 1)
  | unary _ op .. => do some <$> Elementwise.unary op (← inputValues inputs 0)
  | sum t .. => do
    match Elementwise.sum? (← inputValues inputs 0) with
    | some v => return some v
    | none => throw (.mismatch .numericElements (.element t))
  | cast t target _ => do
    let x ← (← inputValues inputs 0).expect t
    return some (x.convert target)

def compute (b : Builtin) (inputs : List Values) : Compute Unit := do
  match b.eval inputs with
  | .ok (some values) => Compute.setOutput 0 values
  | .ok none => return ()
  | .error f => throw f

/-- Adds up an input in a variable and stores the total. -/
def lowerSum (t : ElemType) : Lower Unit := do
  let length ← Lower.inputSize 0
  let zero ← Lower.emit (Emit.literal (.zero t.ty))
  let total ← Lower.emit (Emit.localVar zero)
  Lower.forEach length fun i => do
    let value ← Lower.inputAt 0 i
    Lower.emit do
      let sum ← Emit.getVar total
      Emit.setVar total (← Emit.operator .add sum value)
  let result ← Lower.emit (Emit.getVar total)
  Lower.storeOutputAt 0 (.fixed 0) result

/-- Stores, for each element of the output, what is emitted for it. -/
def lowerEach (element : Position → Lower Code.ValueId) : Lower Unit := do
  let length ← Lower.outputSize 0
  Lower.forEach length fun i => do Lower.storeOutputAt 0 i (← element i)

def lower : Builtin → Lower Unit
  | input .. => do
    if !(← Lower.hasStorage 0) then
      throw (.unsupported (.foreignInput (← Lower.site).id.text))
  | constant values => Lower.setOutputLiteral 0 values
  | binary _ op .. => lowerEach fun i => do
    let x ← Lower.inputAt 0 i
    let y ← Lower.inputAt 1 i
    Lower.emit (Emit.operator op x y)
  | predicate _ op .. => lowerEach fun i => do
    let x ← Lower.inputAt 0 i
    let y ← Lower.inputAt 1 i
    Lower.emit (Emit.compare op x y)
  | unary _ op .. => lowerEach fun i => do
    let x ← Lower.inputAt 0 i
    Lower.emit (Emit.unary op x)
  | sum t .. => lowerSum t
  | cast _ target _ => lowerEach fun i => do
    let x ← Lower.inputAt 0 i
    Lower.emit (Emit.cast x target.ty)

def toNode (b : Builtin) : Node where
  typeName := b.typeName
  isInput := b.isInput
  inlets := b.inlets
  outlets inputs := do return [⟨outletName, b.elemType, ← b.outletSize inputs⟩]
  compute := b.compute
  lower := b.lower

end Builtin

end Dataflow
