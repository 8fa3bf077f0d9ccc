import Dataflow.Code.Assembler
import Dataflow.Code.Machine
import Dataflow.Text.Quoted

/-!
# Executable modules

A finished module: its bodies, its listing and its data. Calls share the data, so what one call
writes there the next one reads. Buffers are handed to a call by address and read back after it.
-/

namespace Dataflow.Code

structure Executable where
  name : String
  declarations : Declarations
  bodies : List Body
  data : Memory

/-- What the caller of an exported function passes for a parameter. -/
inductive Argument
  | word (w : Word)
  | buffer (values : Values)

/-- How a call of an exported function ended. -/
inductive CallResult
  | returned (result : Option Word) (buffers : List Values)
  | trapped (t : Trap)
  | unfinished

namespace Executable

/-- A datum without bytes still has an address of its own. -/
def dataRegion (d : Datum) : Region where
  bytes := if d.bytes.isEmpty then #[0] else d.bytes.toArray
  writable := d.writable

def body? (x : Executable) (id : FunctionId) : Option Body := x.bodies.find? (·.id == id)

def program (x : Executable) (ω : Surroundings := {}) : Program := ⟨x.body?, ω⟩

def isExported (d : Declarations) (b : Body) : Bool :=
  ((d.functions[b.id.index]?).map (·.exported)).getD false

def exports (x : Executable) : List Body := x.bodies.filter (isExported x.declarations)

def exported (x : Executable) (name : String) : Except Fault Body :=
  match x.exports.find? (·.name == name) with
  | some b => .ok b
  | none => .error (.missing (.exported name))

def listing (x : Executable) : Listing := ⟨x.name, x.bodies.map Body.listing⟩

def describe (x : Executable) : String :=
  let names := ", ".intercalate (x.exports.map fun b => Text.quoted b.name)
  "ExecutableModule \x7b module: " ++ Text.quoted x.name ++ ", functions: [" ++ names ++ "] \x7d"

/-- The arguments as words, buffers being appended to memory as regions of their own. -/
def place (memory : Memory) : List Argument → List Word × Memory
  | [] => ([], memory)
  | .word w :: rest =>
    let (ws, memory) := place memory rest
    (w :: ws, memory)
  | .buffer values :: rest =>
    let p : Pointer := ⟨memory.size + 1, 0⟩
    let (ws, memory) := place (memory.push { bytes := values.bytes.toArray }) rest
    (.ptr p :: ws, memory)

/-- The buffers among the arguments, read back from the regions that begin at `index`. -/
def collect (memory : Memory) (index : Nat) : List Argument → List Values
  | [] => []
  | .word _ :: rest => collect memory index rest
  | .buffer values :: rest =>
    let bytes := ((memory[index]?).map (·.bytes.toList)).getD []
    Values.ofBytes values.elemType values.length bytes :: collect memory (index + 1) rest

/-- The machine at the beginning of a call of a body. -/
def called (x : Executable) (b : Body) (args : List Argument) (ω : Surroundings := {}) : Machine :=
  let (words, memory) := place x.data args
  .call ω b words [] memory

/-- Calls a body for at most `fuel` steps. -/
def callBody (x : Executable) (b : Body) (fuel : Nat) (args : List Argument)
    (ω : Surroundings := {}) : CallResult × Executable :=
  match Machine.run (x.program ω) fuel (x.called b args ω) with
  | .finished result memory =>
    (.returned result (collect memory x.data.size args),
      { x with data := memory.take x.data.size })
  | .trapped t => (.trapped t, x)
  | .running _ => (.unfinished, x)

/-- Calls an exported function. -/
def invoke (x : Executable) (name : String) (fuel : Nat) (args : List Argument) :
    Except Fault (CallResult × Executable) := do
  return x.callBody (← x.exported name) fuel args

end Executable

namespace Assembler

def isDefined (a : Assembler) (id : FunctionId) : Bool := a.defined.any (·.id == id)

/-- The first function that a defined body calls and that has no body. -/
def unresolved? (a : Assembler) : Option String :=
  ((a.defined.flatMap Body.callees).find? fun id => !a.isDefined id).bind fun id =>
    (a.declarations.functions[id.index]?).map (·.name)

/-- A declared export has no body. -/
def lacksExport (a : Assembler) : Bool :=
  a.declared.any fun id =>
    !a.isDefined id && ((a.declarations.functions[id.index]?).map (·.exported)).getD false

/-- Finishes the module. Whatever is called and whatever is exported has to be defined. -/
def finalize (a : Assembler) : Except Fault Executable := do
  if a.stage = .opened then
    throw (.sequencing .finalizeWhileOpen)
  if let some name := a.unresolved? then
    throw (.breach (.unresolved name))
  if a.lacksExport then
    throw (.breach .undefinedExport)
  return {
    name := a.name
    declarations := a.declarations
    bodies := a.defined
    data := (a.declarations.data.map Executable.dataRegion) }

end Assembler

end Dataflow.Code
