import Dataflow.Code.CountedLoop
import Dataflow.Graph.NodeId
import Dataflow.Graph.Selection

/-!
# Lowering of one node

A node is lowered by operations on the elements of its inputs and outputs. Where the values of
a port live is kept in a storage table: behind an argument of the function, in a buffer of its
frame, or in module data. An output gets its buffer with the first store; an input made of
several spans is gathered into one buffer before a loop over its elements.
-/

namespace Dataflow

/-- A named input of a node and what it reads. -/
structure Inlet where
  name : String
  selection : Selection
  deriving Inhabited

/-- A node's place in a graph: its name and key, what it reads and what it offers. -/
structure Site where
  id : NodeId
  key : Key
  typeName : String
  inlets : List Inlet
  outlets : List Outlet

/-- Where the values of a port live in the emitted function. -/
inductive Storage
  | argument (address : Code.ValueId)
  | stack (buffer : Code.StackBuffer)
  | data (id : Code.DatumId)
  deriving DecidableEq, Repr

/-- The position of an element, known when the code is emitted or computed in a loop. -/
inductive Position
  | fixed (index : Nat)
  | computed (index : Code.ValueId)
  deriving DecidableEq, Repr

/-- What a node notes down while it is lowered. -/
inductive Remark
  | context (inputs : Nat) (node : NodeId) (graphSize : Nat) (settings : Code.Settings)
  | input (size : Except Fault Nat) (elemType : Except Fault ElemType)
      (contiguous : Except Fault Bool)
  | output (size : Except Fault Nat) (elemType : Except Fault ElemType)
      (stored : Except Fault Bool)
  | load (result : Except Fault Unit)

structure LowerState where
  emitter : Code.Emitter
  storage : Table Port Storage
  gathered : List (Option Code.StackBuffer) := []
  remarks : List Remark := []

structure LowerContext where
  site : Site
  graphSize : Nat

abbrev Lower := ReaderT LowerContext (ExceptT Fault (StateM LowerState))

namespace Lower

open Code (Emit ValueId Ty)

def emit {α : Type} (m : Emit α) : Lower α := do
  let s ← get
  let (r, emitter) := m.run.run s.emitter
  set { s with emitter }
  match r with
  | .ok a => return a
  | .error f => throw f

def check {α : Type} : Except Fault α → Lower α
  | .ok a => pure a
  | .error f => throw f

def site : Lower Site := return (← read).site

def settings : Lower Code.Settings := emit Emit.settings

def remark (r : Remark) : Lower Unit := modify fun s => { s with remarks := s.remarks ++ [r] }

/-- The outcome of an operation, kept as a value. What the operation did stays done. -/
def attempt {α : Type} (m : Lower α) : Lower (Except Fault α) :=
  tryCatch (Except.ok <$> m) fun f => pure (.error f)

def inlet (input : Nat) : Lower Inlet := do
  let s ← site
  match s.inlets[input]? with
  | some i => return i
  | none => throw (.outOfRange (.nodeInput input s.id.text))

def outlet (output : Nat) : Lower Outlet := do
  let s ← site
  match s.outlets[output]? with
  | some o => return o
  | none => throw (.outOfRange (.nodeOutput output s.id.text))

def inputSize (input : Nat) : Lower Nat := return (← inlet input).selection.size

def inputType (input : Nat) : Lower ElemType := do
  match (← inlet input).selection.elemType? with
  | some t => return t
  | none => throw (.invalid (.emptyInput input))

/-- The input reads at most one span. -/
def inputIsContiguous (input : Nat) : Lower Bool :=
  return (← inlet input).selection.spans.length ≤ 1

def outputSize (output : Nat) : Lower Nat := do
  let o ← outlet output
  match o.size with
  | some size => return size
  | none => throw (.invalid (.unsizedOutput o.name))

def outputType (output : Nat) : Lower ElemType := return (← outlet output).elemType

def hasStorage (output : Nat) : Lower Bool := do
  let o ← outlet output
  return (← get).storage.contains o.port

/-- The address of the first value of a port, emitted where it is used. -/
def address (storage : Table Port Storage) (p : Port) : Emit ValueId :=
  match storage.find? p with
  | some (.argument v) => return v
  | some (.stack buffer) => Emit.bufferAddress buffer
  | some (.data id) => Emit.dataAddress id
  | none => throw (.missing .storage)

def portAddress (p : Port) : Lower ValueId := do emit (address (← get).storage p)

/-- An index moved up by a known offset. -/
def moved (index : ValueId) (offset : Nat) : Emit ValueId :=
  if offset = 0 then return index
  else if offset < 0x80000000 then do
    let offset ← Emit.literal (.i32 (Int32.ofNat offset))
    Emit.binary .add index offset
  else throw (.outOfRange (.elementOffset offset))

/-- Loads one element of an input. -/
def inputAt (input : Nat) (position : Position) : Lower ValueId := do
  let selection := (← inlet input).selection
  let t := (← inputType input).ty
  match position with
  | .fixed index =>
    let cell ← check (selection.cell index)
    let base ← portAddress cell.port
    emit (Emit.load t base cell.index)
  | .computed index =>
    match (← get).gathered[input]?.join with
    | some buffer =>
      let base ← emit (Emit.bufferAddress buffer)
      emit (Emit.loadDynamic t base index)
    | none =>
      match selection.spans with
      | [span] =>
        let base ← portAddress span.port
        let index ← emit (moved index span.start)
        emit (Emit.loadDynamic t base index)
      | _ => throw (.invalid (.scatteredInput input (← site).id.text))

def setStorage (p : Port) (s : Storage) : Lower Unit :=
  modify fun st => { st with storage := st.storage.insert p s }

/-- Gives an output a buffer if it has no storage yet. -/
def requireStorage (output : Nat) : Lower Unit := do
  let o ← outlet output
  if !(← hasStorage output) then
    let size ← outputSize output
    let buffer ← emit (Emit.stackBuffer o.elemType.ty size)
    setStorage o.port (.stack buffer)

/-- Stores one element of an output. -/
def storeOutputAt (output : Nat) (position : Position) (value : ValueId) : Lower Unit := do
  let o ← outlet output
  requireStorage output
  let base ← portAddress o.port
  match position with
  | .fixed index => emit (Emit.store base index value)
  | .computed index => emit (Emit.storeDynamic base index value)

/-- Backs an output with module data. -/
def setOutputLiteral (output : Nat) (values : Values) : Lower Unit := do
  let o ← outlet output
  if o.elemType ≠ values.elemType then
    throw (.mismatch (.element o.elemType) (.element values.elemType))
  let size ← outputSize output
  if values.length ≠ size then
    throw (.invalid (.literalCount values.length size))
  setStorage o.port (.data (← emit (Emit.literalData values)))

def setGathered (input : Nat) (buffer : Code.StackBuffer) : Lower Unit :=
  modify fun s => { s with gathered := s.gathered.set input (some buffer) }

/-- Copies an input into a buffer, unless it lies in one piece already. -/
def gatherInput (input : Nat) : Lower Unit := do
  if (← get).gathered[input]?.join.isSome then return
  if ← inputIsContiguous input then return
  let t := (← inputType input).ty
  let size ← inputSize input
  let buffer ← emit (Emit.stackBuffer t size)
  (List.range size).forM fun i => do
    let value ← inputAt input (.fixed i)
    let base ← emit (Emit.bufferAddress buffer)
    emit (Emit.store base i value)
  setGathered input buffer

def gatherInputs : Lower Unit := do
  (List.range (← site).inlets.length).forM gatherInput

/-- Emits `body` for each of `length` elements: in a loop, or one after the other if loops are
unrolled or there is at most one element. -/
def forEach (length : Nat) (body : Position → Lower Unit) : Lower Unit := do
  if (← settings).unroll || length ≤ 1 then
    (List.range length).forM fun i => body (.fixed i)
  else
    gatherInputs
    if 0x80000000 ≤ length then
      throw (.invalid (.loopLength length))
    let loop ← emit (Code.CountedLoop.idle.begin (Int32.ofNat length))
    let i ← emit loop.counter
    body (.computed i)
    let _ ← emit loop.finish

/-- Gives the gathered buffers back and checks that every output has been stored. -/
def finish : Lower Unit := do
  (← get).gathered.reduceOption.forM fun buffer => emit (Emit.releaseBuffer buffer)
  let s ← site
  s.outlets.forM fun o => do
    if !(← get).storage.contains o.port then
      throw (.unsupported (.unwrittenOutput s.id.text o.name))

end Lower

end Dataflow
