import Dataflow.Code.Flow

/-!
# Definitions before uses

A body is gone through in layout order, keeping the values defined so far. Every operand has to
be defined already, and for every operator there has to be an instruction on the recorded types of
its operands.
-/

namespace Dataflow.Code

/-- The values of a body that are defined so far. -/
abbrev Defined := Array Bool

namespace Defined

def has (d : Defined) (v : ValueId) : Bool := d.getD v.index false

def add (d : Defined) (v : ValueId) : Defined := d.setIfInBounds v.index true

def ofArgs (b : Body) : Defined :=
  b.args.foldl add (Array.replicate b.valueTypes.size false)

end Defined

/-- The types that there is an instruction for; a division of integers takes several. -/
def BinaryOp.lowers (op : BinaryOp) (t : Ty) : Bool :=
  if op == .divide && t.isInteger then true
  else
    match op, t with
    | .add, .f64 | .subtract, .f64 | .multiply, .f64 | .divide, .f64 | .min, .f64 | .max, .f64 => true
    | .add, t | .subtract, t | .multiply, t | .min, t | .max, t => t.isInteger
    | .and, .bool | .or, .bool | .xor, .bool => true
    | _, _ => false

def UnaryOp.lowers : UnaryOp → Ty → Bool
  | .negate, .f64 | .abs, .f64 | .sqrt, .f64 => true
  | .negate, t | .abs, t => t.isInteger
  | .not, .bool => true
  | _, _ => false

/-- Conversions between the types of values. -/
def castable : Ty → Ty → Bool
  | .bool, .bool | .bool, .i32 | .bool, .i64 | .bool, .f64 => true
  | .i32, .bool | .i32, .i32 | .i32, .i64 | .i32, .f64 => true
  | .i64, .bool | .i64, .i32 | .i64, .i64 | .i64, .f64 | .i64, .ptr => true
  | .f64, .bool | .f64, .i32 | .f64, .i64 | .f64, .f64 => true
  | .ptr, .i64 | .ptr, .ptr => true
  | _, _ => false

def requireDefined (d : Defined) : List ValueId → Except Fault Unit
  | [] => .ok ()
  | v :: vs =>
    if d.has v then requireDefined d vs else .error (.rejected (.undefinedValue v.index))

def requireIndex (length index : Nat) : Except Fault Unit :=
  if index < length then .ok () else .error (.breach (.subscript length index))

namespace Body

def checkTypes (b : Body) : Instr → Except Fault Unit
  | .binary _ op lhs _ => do
    let t ← b.valueType lhs
    if !op.lowers t then throw (.mismatch (.operandOf op.name) (.code t))
  | .unary _ op operand => do
    let t ← b.valueType operand
    if !op.lowers t then throw (.mismatch (.operandOf op.name) (.code t))
  | .cast result value => do
    let source ← b.valueType value
    let target ← b.valueType result
    if !castable source target then throw (.mismatch (.code target) (.code source))
  | .stackAddress _ slot => requireIndex b.stack.size slot.index
  | .readVar _ var | .writeVar var _ => requireIndex b.varTypes.size var.index
  | _ => .ok ()

def checkInstr (b : Body) (d : Defined) (i : Instr) : Except Fault Defined := do
  requireDefined d i.uses
  b.checkTypes i
  return (i.defines.map d.add).getD d

def checkBlock (b : Body) (d : Defined) (id : BlockId) : Except Fault Defined := do
  let block ← b.block id
  let d ← block.instrs.foldlM b.checkInstr d
  match block.terminator with
  | some t => requireDefined d t.uses
  | none => throw (.sequencing (.missingTerminator block.label b.name))
  return d

/-- Every operand is defined before it is used, in layout order. -/
def checkOrder (b : Body) : Except Fault Unit := do
  let _ ← b.fullLayout.foldlM b.checkBlock (Defined.ofArgs b)

end Body

end Dataflow.Code
