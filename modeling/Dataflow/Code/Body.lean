import Dataflow.Code.Operator
import Dataflow.Code.Slot
import Dataflow.Table

/-!
# Function bodies

A body records the typed instructions of one function in basic blocks. Values are written once;
variables may be written again and carry a value from block to block. Blocks are laid out in the
order in which they were first entered. A block that has a terminator is closed: it takes no
more instructions and is not entered again.
-/

namespace Dataflow.Code

structure ValueId where
  index : Nat
  deriving DecidableEq, Repr, Inhabited

structure BlockId where
  index : Nat
  deriving DecidableEq, Repr, Inhabited

structure VarId where
  index : Nat
  deriving DecidableEq, Repr, Inhabited

/-- A place in the frame of a function. -/
structure StackId where
  index : Nat
  deriving DecidableEq, Repr, Inhabited

/-- A piece of module data. -/
structure DatumId where
  index : Nat
  deriving DecidableEq, Repr, Inhabited

structure FunctionId where
  index : Nat
  deriving DecidableEq, Repr, Inhabited

def ValueId.name (v : ValueId) : String := s!"v{v.index}"

def BlockId.name (b : BlockId) : String := s!"block{b.index}"

def VarId.name (x : VarId) : String := s!"var{x.index}"

def StackId.name (s : StackId) : String := s!"ss{s.index}"

def DatumId.name (d : DatumId) : String := s!"data{d.index}"

def FunctionId.name (f : FunctionId) : String := s!"fn{f.index}"

instance : ToString ValueId := ⟨ValueId.name⟩

instance : ToString BlockId := ⟨BlockId.name⟩

instance : ToString VarId := ⟨VarId.name⟩

instance : ToString StackId := ⟨StackId.name⟩

instance : ToString DatumId := ⟨DatumId.name⟩

instance : ToString FunctionId := ⟨FunctionId.name⟩

inductive Instr
  /-- Gives the instructions that follow a source location. -/
  | location (index : Nat)
  | const (result : ValueId) (value : Literal)
  | stackAddress (result : ValueId) (slot : StackId)
  | datumAddress (result : ValueId) (datum : DatumId)
  /-- The address `base + index * scale`. -/
  | offset (result base index : ValueId) (scale : Nat)
  | load (result address : ValueId) (offset : Nat)
  | store (address : ValueId) (offset : Nat) (value : ValueId)
  | binary (result : ValueId) (op : BinaryOp) (lhs rhs : ValueId)
  | unary (result : ValueId) (op : UnaryOp) (operand : ValueId)
  | compare (result : ValueId) (op : CompareOp) (lhs rhs : ValueId)
  | select (result condition ifTrue ifFalse : ValueId)
  | cast (result value : ValueId)
  | readVar (result : ValueId) (var : VarId)
  | writeVar (var : VarId) (value : ValueId)
  | call (result : Option ValueId) (function : FunctionId) (args : List ValueId)

inductive Terminator
  | jump (target : BlockId)
  | branch (condition : ValueId) (ifTrue ifFalse : BlockId)
  | ret (value : Option ValueId)

structure Block where
  label : String
  instrs : Array Instr := #[]
  terminator : Option Terminator := none
  deriving Inhabited

def Block.isClosed (b : Block) : Bool := b.terminator.isSome

structure Param where
  name : String
  ty : Ty
  deriving DecidableEq, Repr, Inhabited

structure Body where
  id : FunctionId
  name : String
  params : List Param
  result : Option Ty
  blocks : Array Block := #[]
  /-- The blocks in the order in which they were first entered. -/
  layout : List BlockId := []
  current : BlockId := ⟨0⟩
  valueTypes : Array Ty := #[]
  varTypes : Array Ty := #[]
  /-- Sizes of the places in the frame. -/
  stack : Array Nat := #[]
  args : List ValueId := []
  argSlots : List Slot := []
  resultSlot : Option Slot := none
  /-- Descriptions of source locations; location `n + 1` is entry `n`. -/
  locations : Array String := #[]
  /-- The frame place behind each buffer slot. -/
  bufferPlaces : Table Nat StackId := ∅
  /-- The variable behind each scratch slot. -/
  scratchVars : Table Nat VarId := ∅

namespace Body

/-- Places in a frame are aligned to `2 ^ 3` bytes. -/
def alignShift : Nat := 3

def newValue (b : Body) (t : Ty) : ValueId × Body :=
  (⟨b.valueTypes.size⟩, { b with valueTypes := b.valueTypes.push t })

def newVar (b : Body) (t : Ty) : VarId × Body :=
  (⟨b.varTypes.size⟩, { b with varTypes := b.varTypes.push t })

/-- A new place in the frame, of at least one byte. -/
def newPlace (b : Body) (size : Nat) : StackId × Body :=
  (⟨b.stack.size⟩, { b with stack := b.stack.push (max size 1) })

def newBlock (b : Body) (label : String) : BlockId × Body :=
  (⟨b.blocks.size⟩, { b with blocks := b.blocks.push { label } })

def newArgs (b : Body) : List Param → Body
  | [] => b
  | p :: ps =>
    let (v, b) := b.newValue p.ty
    newArgs { b with args := b.args ++ [v] } ps

/-- A body that has an open entry block and its arguments as first values. -/
def new (id : FunctionId) (name : String) (params : List Param) (result : Option Ty) : Body :=
  let blank : Body := { id, name, params, result }
  let (entry, b) := blank.newBlock "entry"
  { b with layout := [entry] }.newArgs params

def valueType (b : Body) (v : ValueId) : Except Fault Ty :=
  match b.valueTypes[v.index]? with
  | some t => .ok t
  | none => .error (.missing (.value v.index b.name))

def varType (b : Body) (x : VarId) : Except Fault Ty :=
  match b.varTypes[x.index]? with
  | some t => .ok t
  | none => .error (.missing (.scalar x.index b.name))

def block (b : Body) (id : BlockId) : Except Fault Block :=
  match b.blocks[id.index]? with
  | some block => .ok block
  | none => .error (.missing (.block id.index b.name))

/-- The body with another current block, which is laid out now if it has not been before. -/
def moveTo (b : Body) (id : BlockId) : Body :=
  { b with
    layout := if b.layout.contains id then b.layout else b.layout ++ [id]
    current := id }

/-- Goes on in a block that is still open. -/
def switchTo (b : Body) (id : BlockId) : Except Fault Body := do
  let block ← b.block id
  if block.isClosed then
    throw (.sequencing (.terminatedBlock id.index block.label))
  return b.moveTo id

/-- The current block is closed. -/
def isTerminated (b : Body) : Bool :=
  match b.blocks[b.current.index]? with
  | some block => block.isClosed
  | none => true

/-- The current block is there and open. -/
def requireOpen (b : Body) : Except Fault Unit := do
  let block ← b.block b.current
  if block.isClosed then
    throw (.sequencing (.closedBlock b.current.index block.label b.name))

def modifyCurrent (b : Body) (g : Block → Block) : Body :=
  { b with blocks := b.blocks.modify b.current.index g }

def push (b : Body) (i : Instr) : Except Fault Body := do
  b.requireOpen
  return b.modifyCurrent fun k => { k with instrs := k.instrs.push i }

def terminate (b : Body) (t : Terminator) : Except Fault Body := do
  b.requireOpen
  return b.modifyCurrent fun k => { k with terminator := some t }

def blockIds (b : Body) : List BlockId := (List.range b.blocks.size).map BlockId.mk

/-- The blocks that are still open. -/
def unterminated (b : Body) : List BlockId :=
  b.blockIds.filter fun id => ((b.blocks[id.index]?).map Block.isClosed) == some false

/-- The blocks as laid out, and after them those that were never entered. -/
def fullLayout (b : Body) : List BlockId :=
  b.layout ++ b.blockIds.filter fun id => !b.layout.contains id

end Body

end Dataflow.Code
