import Dataflow.Code.Declarations
import Dataflow.Code.Settings
import Dataflow.Value.Values

/-!
# Emission into an open function

The operations by which code is recorded. Operands are checked against the recorded types when
an instruction is emitted. An operation that fails may have taken something before it failed, a
value number for instance; the state says what it took.
-/

namespace Dataflow.Code

structure Emitter where
  body : Body
  declarations : Declarations
  pools : Pools
  settings : Settings

abbrev Emit := ExceptT Fault (StateM Emitter)

/-- A buffer in the frame of the open function. -/
structure StackBuffer where
  slot : Slot
  place : StackId
  ty : Ty
  length : Nat
  deriving DecidableEq, Repr, Inhabited

namespace Emit

def check {α : Type} : Except Fault α → Emit α
  | .ok a => pure a
  | .error f => throw f

def body : Emit Body := return (← get).body

def settings : Emit Settings := return (← get).settings

def setBody (b : Body) : Emit Unit := modify fun e => { e with body := b }

def newValue (t : Ty) : Emit ValueId := do
  let (v, b) := (← body).newValue t
  setBody b
  return v

def newVar (t : Ty) : Emit VarId := do
  let (x, b) := (← body).newVar t
  setBody b
  return x

def createBlock (label : String) : Emit BlockId := do
  let (id, b) := (← body).newBlock label
  setBody b
  return id

/-- Changes the current block, which has to be open. -/
def change (g : Block → Block) : Emit Unit := do
  check (← body).requireOpen
  modify fun e => { e with body := e.body.modifyCurrent g }

def push (i : Instr) : Emit Unit := change fun k => { k with instrs := k.instrs.push i }

def terminate (t : Terminator) : Emit Unit := change fun k => { k with terminator := some t }

def switchTo (id : BlockId) : Emit Unit := do
  let block ← check ((← body).block id)
  if block.isClosed then
    throw (.sequencing (.terminatedBlock id.index block.label))
  modify fun e => { e with body := e.body.moveTo id }

/-- Emits an instruction that writes a new value. -/
def define (t : Ty) (instr : ValueId → Instr) : Emit ValueId := do
  let v ← newValue t
  push (instr v)
  return v

def allocate (scope : Scope) : Emit Slot := do
  let e ← get
  let (slot, pools) := e.pools.allocate scope
  set { e with pools }
  return slot

def release (s : Slot) : Emit Unit := do
  let e ← get
  let (r, pools) := (Pools.release s).run.run e.pools
  set { e with pools }
  check r

def valueType (v : ValueId) : Emit Ty := do check ((← body).valueType v)

def expectType (v : ValueId) (expected : Ty) : Emit Unit := do
  let found ← valueType v
  if found ≠ expected then
    throw (.mismatch (.code expected) (.code found))

def argument (name : String) : Emit ValueId := do
  let b ← body
  match (b.params.findIdx? (·.name == name)).bind (b.args[·]?) with
  | some v => return v
  | none => throw (.missing (.argument b.name name))

/-- The input slot bound to a parameter. -/
def argumentSlot (name : String) : Emit Slot := do
  let b ← body
  match (b.params.findIdx? (·.name == name)).bind (b.argSlots[·]?) with
  | some s => return s
  | none => throw (.missing (.argument b.name name))

def literal (value : Literal) : Emit ValueId := define value.ty (.const · value)

/-- The byte offset of an element, which has to fit a signed 32 bit integer. -/
def elementOffset (t : Ty) (index : Nat) : Emit Nat :=
  if index * t.size < 0x80000000 then return index * t.size
  else throw (.outOfRange (.bufferElement index t))

/-- The element of a buffer at a known index. -/
def load (t : Ty) (address : ValueId) (index : Nat) : Emit ValueId := do
  expectType address .ptr
  let offset ← elementOffset t index
  define t (.load · address offset)

def elementAddress (t : Ty) (address index : ValueId) : Emit ValueId := do
  expectType address .ptr
  let indexType ← valueType index
  if !indexType.isInteger then
    throw (.mismatch .integerIndex (.code indexType))
  define .ptr (.offset · address index t.size)

/-- The element of a buffer at an index computed at run time. -/
def loadDynamic (t : Ty) (address index : ValueId) : Emit ValueId := do
  let element ← elementAddress t address index
  define t (.load · element 0)

def store (address : ValueId) (index : Nat) (value : ValueId) : Emit Unit := do
  expectType address .ptr
  let t ← valueType value
  let offset ← elementOffset t index
  push (.store address offset value)

def storeDynamic (address index value : ValueId) : Emit Unit := do
  let t ← valueType value
  let element ← elementAddress t address index
  push (.store element 0 value)

def operandType (op : BinaryOp) (lhs rhs : ValueId) : Emit Ty := do
  let t ← valueType lhs
  expectType rhs t
  if !op.accepts t then
    throw (.mismatch (.operandOf op.name) (.code t))
  return t

/-- Emits a binary operator in place, whatever the settings say. -/
def binary (op : BinaryOp) (lhs rhs : ValueId) : Emit ValueId := do
  let t ← operandType op lhs rhs
  define t (.binary · op lhs rhs)

def callHelper (op : Operator) (t : Ty) (args : List ValueId) : Emit ValueId := do
  let (function, declarations) ← check ((← get).declarations.helper op t)
  modify fun e => { e with declarations }
  define t fun v => .call (some v) function args

/-- Applies a binary operator, in place or through its helper. -/
def operator (op : BinaryOp) (lhs rhs : ValueId) : Emit ValueId := do
  if (← settings).inline then binary op lhs rhs
  else
    let t ← operandType op lhs rhs
    callHelper (.binary op) t [lhs, rhs]

/-- Applies a unary operator, in place or through its helper. -/
def unary (op : UnaryOp) (operand : ValueId) : Emit ValueId := do
  let t ← valueType operand
  if !op.accepts t then
    throw (.mismatch (.operandOf op.name) (.code t))
  if (← settings).inline then define t (.unary · op operand)
  else callHelper (.unary op) t [operand]

def compare (op : CompareOp) (lhs rhs : ValueId) : Emit ValueId := do
  let t ← valueType lhs
  expectType rhs t
  if t = .ptr then
    throw (.mismatch .comparable (.code t))
  define .bool (.compare · op lhs rhs)

def select (condition ifTrue ifFalse : ValueId) : Emit ValueId := do
  expectType condition .bool
  let t ← valueType ifTrue
  expectType ifFalse t
  define t (.select · condition ifTrue ifFalse)

/-- Addresses convert to 64 bit integers and back, and to nothing else. -/
def convertible (source target : Ty) : Bool :=
  if source == .ptr || target == .ptr then
    (source == .ptr || source == .i64) && (target == .ptr || target == .i64)
  else true

def cast (value : ValueId) (target : Ty) : Emit ValueId := do
  let source ← valueType value
  if source = target then return value
  if !convertible source target then
    throw (.mismatch (.code target) (.code source))
  define target (.cast · value)

/-- A new variable that holds `initial`. -/
def localVar (initial : ValueId) : Emit VarId := do
  let x ← newVar (← valueType initial)
  push (.writeVar x initial)
  return x

def getVar (x : VarId) : Emit ValueId := do
  let t ← check ((← body).varType x)
  define t (.readVar · x)

def setVar (x : VarId) (value : ValueId) : Emit Unit := do
  let t ← check ((← body).varType x)
  expectType value t
  push (.writeVar x value)

/-- The variable behind a scratch slot, which is kept as long as the type stays the same. -/
def scratchVar (slot : Slot) (t : Ty) : Emit VarId := do
  let b ← body
  match b.scratchVars.find? slot.index with
  | some x =>
    if (← check (b.varType x)) = t then return x
  | none => pure ()
  let x ← newVar t
  modify fun e => { e with
    body := { e.body with scratchVars := e.body.scratchVars.insert slot.index x } }
  return x

/-- A variable from the scratch pool that holds `initial`. -/
def scratch (initial : ValueId) : Emit (Slot × VarId) := do
  let t ← valueType initial
  let slot ← allocate .scratch
  let x ← scratchVar slot t
  push (.writeVar x initial)
  return (slot, x)

def freeScratch (slot : Slot) : Emit Unit := do
  if slot.scope ≠ .scratch then
    throw (.invalid (.notScratch slot.name))
  release slot

/-- The frame place behind a buffer slot, which is kept as long as it is large enough. -/
def bufferPlace (slot : Slot) (bytes : Nat) : Emit StackId := do
  let b ← body
  match b.bufferPlaces.find? slot.index with
  | some place =>
    if bytes ≤ (b.stack[place.index]?).getD 0 then return place
  | none => pure ()
  let (place, b) := b.newPlace bytes
  setBody { b with bufferPlaces := b.bufferPlaces.insert slot.index place }
  return place

/-- A buffer of `length` elements in the frame. -/
def stackBuffer (t : Ty) (length : Nat) : Emit StackBuffer := do
  let bytes := length * t.size
  if 0x100000000 ≤ bytes then
    throw (.invalid (.stackBuffer length t))
  let slot ← allocate .buffer
  let place ← bufferPlace slot bytes
  return ⟨slot, place, t, length⟩

def bufferAddress (buffer : StackBuffer) : Emit ValueId :=
  define .ptr (.stackAddress · buffer.place)

def releaseBuffer (buffer : StackBuffer) : Emit Unit := release buffer.slot

def addDatum (d : Datum) : Emit DatumId := do
  let e ← get
  let (id, declarations) := e.declarations.addDatum d
  set { e with declarations }
  return id

/-- Module data that holds the given values and is never written. -/
def literalData (values : Values) : Emit DatumId := do
  let slot ← allocate .literal
  addDatum ⟨slot.name, values.bytes, false⟩

/-- Module data of `length` zeros that can be written. -/
def globalArray (t : Ty) (length : Nat) : Emit DatumId := do
  let bytes := length * t.size
  if 0x10000000000000000 ≤ bytes then
    throw (.invalid (.globalArray length t))
  let slot ← allocate .global
  addDatum ⟨slot.name, List.replicate bytes 0, true⟩

def dataAddress (id : DatumId) : Emit ValueId := do
  let _ ← check ((← get).declarations.datum id)
  define .ptr (.datumAddress · id)

def literalArray (values : Values) : Emit ValueId := do dataAddress (← literalData values)

def expectTypes : List ValueId → List Ty → Emit Unit
  | v :: vs, t :: ts => do
    expectType v t
    expectTypes vs ts
  | _, _ => return ()

/-- Calls a declared function by name. -/
def call (name : String) (args : List ValueId) : Emit (Option ValueId) := do
  let d := (← get).declarations
  let some function := d.find? name | throw (.missing (.function name))
  let s ← check (d.function function)
  if s.params.length ≠ args.length then
    throw (.invalid (.arity name s.params.length args.length))
  expectTypes args s.params
  match s.result with
  | some t => some <$> define t fun v => .call (some v) function args
  | none => do
    push (.call none function args)
    return none

def jump (target : BlockId) : Emit Unit := do
  let _ ← check ((← body).block target)
  terminate (.jump target)

def branch (condition : ValueId) (ifTrue ifFalse : BlockId) : Emit Unit := do
  expectType condition .bool
  let b ← body
  let _ ← check (b.block ifTrue)
  let _ ← check (b.block ifFalse)
  terminate (.branch condition ifTrue ifFalse)

def returnValue (value : ValueId) : Emit Unit := do
  match (← body).result with
  | some t => expectType value t
  | none => throw (.mismatch .noResult (.code (← valueType value)))
  terminate (.ret (some value))

def returnVoid : Emit Unit := do
  if let some t := (← body).result then
    throw (.mismatch (.code t) .noResult)
  terminate (.ret none)

/-- Marks the instructions that follow as belonging to a description, if the settings ask for
it. -/
def location (description : String) : Emit Unit := do
  if (← settings).diagnostics then
    modify fun e => { e with
      body := { e.body with locations := e.body.locations.push description } }
    push (.location (← body).locations.size)

end Emit

end Dataflow.Code
