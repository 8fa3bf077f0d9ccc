import Dataflow.Code.Ty

/-!
# Operators

Names of the operators of emitted code and the operand types each of them accepts. Arithmetic
takes numbers, logic takes truth values, and every type but an address can be compared.
-/

namespace Dataflow.Code

inductive BinaryOp
  | add
  | subtract
  | multiply
  | divide
  | min
  | max
  | and
  | or
  | xor
  deriving DecidableEq, Repr, Inhabited

namespace BinaryOp

def all : List BinaryOp := [add, subtract, multiply, divide, min, max, and, or, xor]

def name : BinaryOp → String
  | add => "add"
  | subtract => "sub"
  | multiply => "mul"
  | divide => "div"
  | min => "min"
  | max => "max"
  | and => "and"
  | or => "or"
  | xor => "xor"

/-- The word for the operator in diagnostics. -/
def label : BinaryOp → String
  | add => "Add"
  | subtract => "Subtract"
  | multiply => "Multiply"
  | divide => "Divide"
  | min => "Min"
  | max => "Max"
  | and => "LogicalAnd"
  | or => "LogicalOr"
  | xor => "LogicalXor"

def isLogical : BinaryOp → Bool
  | and | or | xor => true
  | _ => false

def accepts (op : BinaryOp) (t : Ty) : Bool :=
  if op.isLogical then t == .bool else t.isNumeric

end BinaryOp

inductive UnaryOp
  | negate
  | abs
  | sqrt
  | not
  deriving DecidableEq, Repr, Inhabited

namespace UnaryOp

def all : List UnaryOp := [negate, abs, sqrt, not]

def name : UnaryOp → String
  | negate => "neg"
  | abs => "abs"
  | sqrt => "sqrt"
  | not => "not"

/-- The word for the operator in diagnostics. -/
def label : UnaryOp → String
  | negate => "Negate"
  | abs => "Abs"
  | sqrt => "Sqrt"
  | not => "LogicalNot"

def accepts : UnaryOp → Ty → Bool
  | negate, t | abs, t => t.isNumeric
  | sqrt, t => t == .f64
  | not, t => t == .bool

end UnaryOp

inductive CompareOp
  | equal
  | notEqual
  | less
  | lessOrEqual
  | greater
  | greaterOrEqual
  deriving DecidableEq, Repr, Inhabited

namespace CompareOp

def all : List CompareOp := [equal, notEqual, less, lessOrEqual, greater, greaterOrEqual]

def name : CompareOp → String
  | equal => "eq"
  | notEqual => "ne"
  | less => "lt"
  | lessOrEqual => "le"
  | greater => "gt"
  | greaterOrEqual => "ge"

/-- The word for the comparison in diagnostics. -/
def label : CompareOp → String
  | equal => "Equal"
  | notEqual => "NotEqual"
  | less => "Less"
  | lessOrEqual => "LessOrEqual"
  | greater => "Greater"
  | greaterOrEqual => "GreaterOrEqual"

end CompareOp

/-- An operator that can stand in a function of its own. -/
inductive Operator
  | binary (op : BinaryOp)
  | unary (op : UnaryOp)
  deriving DecidableEq, Repr, Inhabited

namespace Operator

def name : Operator → String
  | binary op => op.name
  | unary op => op.name

/-- The operator and its number of operands in diagnostics. -/
def label : Operator → String
  | binary op => s!"Binary({op.label})"
  | unary op => s!"Unary({op.label})"

def arity : Operator → Nat
  | binary _ => 2
  | unary _ => 1

def accepts : Operator → Ty → Bool
  | binary op => op.accepts
  | unary op => op.accepts

end Operator

end Dataflow.Code
