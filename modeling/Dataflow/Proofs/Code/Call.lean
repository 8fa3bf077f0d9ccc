import Dataflow.Code.Assembler

/-!
# Recordings

A module is recorded by calls: on the module itself, on the emitter of the function that is open,
and on the emitters of loops in it. Calls are accepted or refused; the recording goes on from
whatever state a call leaves, and a caller is free to name any value, block or loop there is or is
not.
-/

namespace Dataflow.Code

inductive Call
  | argument (name : String)
  | argumentSlot (name : String)
  | allocate (scope : Scope)
  | release (slot : Slot)
  | createBlock (label : String)
  | switchTo (id : BlockId)
  | literal (value : Literal)
  | load (t : Ty) (address : ValueId) (index : Nat)
  | loadDynamic (t : Ty) (address index : ValueId)
  | store (address : ValueId) (index : Nat) (value : ValueId)
  | storeDynamic (address index value : ValueId)
  | operator (op : BinaryOp) (lhs rhs : ValueId)
  | binary (op : BinaryOp) (lhs rhs : ValueId)
  | unary (op : UnaryOp) (operand : ValueId)
  | compare (op : CompareOp) (lhs rhs : ValueId)
  | select (condition ifTrue ifFalse : ValueId)
  | cast (value : ValueId) (target : Ty)
  | localVar (initial : ValueId)
  | getVar (x : VarId)
  | setVar (x : VarId) (value : ValueId)
  | scratch (initial : ValueId)
  | freeScratch (slot : Slot)
  | stackBuffer (t : Ty) (length : Nat)
  | bufferAddress (buffer : StackBuffer)
  | releaseBuffer (buffer : StackBuffer)
  | literalData (values : Values)
  | literalArray (values : Values)
  | globalArray (t : Ty) (length : Nat)
  | dataAddress (id : DatumId)
  | call (name : String) (args : List ValueId)
  | jump (target : BlockId)
  | branch (condition : ValueId) (ifTrue ifFalse : BlockId)
  | returnValue (value : ValueId)
  | returnVoid
  | location (description : String)
  | beginRange (l : CountedLoop) (start bound step : Int32)
  | beginCount (l : CountedLoop) (count : Int32)
  | beginDynamic (l : CountedLoop) (count : ValueId)
  | counter (l : CountedLoop)
  | finish (l : CountedLoop)

inductive Reply
  | done
  | block (id : BlockId)
  | value (v : ValueId)
  | var (x : VarId)
  | slot (s : Slot)
  | scratch (s : Slot) (x : VarId)
  | buffer (b : StackBuffer)
  | datum (id : DatumId)
  | called (result : Option ValueId)
  | loop (l : CountedLoop)

def Call.perform : Call → Emit Reply
  | .argument name => .value <$> Emit.argument name
  | .argumentSlot name => .slot <$> Emit.argumentSlot name
  | .allocate scope => .slot <$> Emit.allocate scope
  | .release slot => (fun _ => .done) <$> Emit.release slot
  | .createBlock label => .block <$> Emit.createBlock label
  | .switchTo id => (fun _ => .done) <$> Emit.switchTo id
  | .literal value => .value <$> Emit.literal value
  | .load t address index => .value <$> Emit.load t address index
  | .loadDynamic t address index => .value <$> Emit.loadDynamic t address index
  | .store address index value => (fun _ => .done) <$> Emit.store address index value
  | .storeDynamic address index value => (fun _ => .done) <$> Emit.storeDynamic address index value
  | .operator op lhs rhs => .value <$> Emit.operator op lhs rhs
  | .binary op lhs rhs => .value <$> Emit.binary op lhs rhs
  | .unary op operand => .value <$> Emit.unary op operand
  | .compare op lhs rhs => .value <$> Emit.compare op lhs rhs
  | .select condition ifTrue ifFalse => .value <$> Emit.select condition ifTrue ifFalse
  | .cast value target => .value <$> Emit.cast value target
  | .localVar initial => .var <$> Emit.localVar initial
  | .getVar x => .value <$> Emit.getVar x
  | .setVar x value => (fun _ => .done) <$> Emit.setVar x value
  | .scratch initial => (fun r => .scratch r.1 r.2) <$> Emit.scratch initial
  | .freeScratch slot => (fun _ => .done) <$> Emit.freeScratch slot
  | .stackBuffer t length => .buffer <$> Emit.stackBuffer t length
  | .bufferAddress buffer => .value <$> Emit.bufferAddress buffer
  | .releaseBuffer buffer => (fun _ => .done) <$> Emit.releaseBuffer buffer
  | .literalData values => .datum <$> Emit.literalData values
  | .literalArray values => .value <$> Emit.literalArray values
  | .globalArray t length => .datum <$> Emit.globalArray t length
  | .dataAddress id => .value <$> Emit.dataAddress id
  | .call name args => .called <$> Emit.call name args
  | .jump target => (fun _ => .done) <$> Emit.jump target
  | .branch condition ifTrue ifFalse => (fun _ => .done) <$> Emit.branch condition ifTrue ifFalse
  | .returnValue value => (fun _ => .done) <$> Emit.returnValue value
  | .returnVoid => (fun _ => .done) <$> Emit.returnVoid
  | .location description => (fun _ => .done) <$> Emit.location description
  | .beginRange l start bound step => .loop <$> l.beginRange start bound step
  | .beginCount l count => .loop <$> l.begin count
  | .beginDynamic l count => .loop <$> l.beginDynamic count
  | .counter l => .value <$> l.counter
  | .finish l => .loop <$> l.finish

inductive Request
  | settings (s : Settings)
  | begin (name : String) (params : List Param) (result : Option Ty)
  | emit (c : Call)
  | finish

def Request.perform : Request → Assemble Reply
  | .settings s => do
    Assembler.setSettings s
    return .done
  | .begin name params result => do
    Assembler.beginFunction name params result
    return .done
  | .emit c => Assembler.emit c.perform
  | .finish => do
    Assembler.endFunction
    return .done

/-- The module after some requests, granted or refused. -/
def Assembler.after (a : Assembler) (requests : List Request) : Assembler :=
  requests.foldl (fun a r => (r.perform.run.run a).2) a

end Dataflow.Code
