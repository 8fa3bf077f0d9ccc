import Dataflow.Graph.Evaluate
import Dataflow.Graph.Reference

/-!
# Transforms

A graph with one input node and named outputs is a transform of vectors. The values of the input
are set from outside; an output is computed by computing whatever it depends on.
-/

namespace Dataflow

structure Transform where
  graph : Graph
  inputName : String
  input : Key
  outputs : List (String × Selection)

abbrev TransformM := ExceptT Fault (StateM Transform)

namespace Transform

/-- The first outlet of an input node. -/
def firstOutlet (e : Entry) : Except Fault Outlet :=
  match e.outlets with
  | o :: _ => .ok o
  | [] => .error (.missing (.inputOutlet e.id.text))

def oneInput : List (String × Key) → Except Fault (String × Key)
  | [input] => .ok input
  | [] => .error (.invalid .noInput)
  | _ => .error (.unsupported .severalInputs)

/-- The input is a node of the graph that takes its values from outside and has a size. -/
def checkInput (g : Graph) (input : Key) : Except Fault Unit := do
  let some e := g.entry? input | throw (.missing .inputNode)
  if !e.node.isInput then
    throw (.invalid (.notInput e.id.text e.typeName))
  let o ← firstOutlet e
  if !o.isSized then
    throw (.invalid (.unsizedInput e.id.text))

def resolveOutput (g : Graph) (output : String × Selection) :
    Except Fault (String × Selection) := do
  return (output.1, ← g.resolve output.2)

def checkOutput (output : String × Selection) : Except Fault Unit :=
  if output.2.isEmpty then .error (.invalid (.emptyOutput output.1)) else .ok ()

def new (graph : Graph) (inputs : List (String × Key)) (outputs : List (String × Selection)) :
    Except Fault Transform := do
  let (inputName, input) ← oneInput inputs
  checkInput graph input
  if outputs.isEmpty then
    throw (.invalid .noOutputs)
  let outputs ← outputs.mapM (resolveOutput graph)
  outputs.forM checkOutput
  return { graph, inputName, input, outputs }

/-- Gives the input node a size, if an outlet of that node still needs one. -/
def sizeInput (input : Key) (size : Nat) : GraphM Unit := do
  match Graph.entry? (← get) input with
  | some e => if e.outlets.all Outlet.isSized then return () else Graph.setSize ⟨input, 0⟩ size
  | none => return ()

/-- A transform from the name of its input node and the reference text of its output. -/
def load (graph : Graph) (input output : String) (defaultSize : Nat := 1) :
    Except Fault Transform := do
  let id ← NodeId.ofToken input
  let some key := graph.key? id | throw (.missing (.node id.text))
  let (sized, graph) := (sizeInput key defaultSize).run.run graph
  sized
  let selection ← Reference.parse graph output
  new graph [("input", key)] [("output", selection)]

def inputOutlet (t : Transform) : Except Fault Outlet :=
  match t.graph.entry? t.input with
  | some e => firstOutlet e
  | none => .error (.missing .inputNode)

def inputType (t : Transform) : Except Fault ElemType := (·.elemType) <$> t.inputOutlet

def inputSize (t : Transform) : Except Fault Nat := (·.size.getD 0) <$> t.inputOutlet

def output (t : Transform) (index : Nat) : Except Fault Selection :=
  match t.outputs[index]? with
  | some (_, s) => .ok s
  | none => .error (.outOfRange (.transformOutput index t.outputs.length))

def outputName? (t : Transform) (index : Nat) : Option String := (t.outputs[index]?).map (·.1)

def outputType (t : Transform) (index : Nat) : Except Fault ElemType := do
  match (← t.output index).elemType? with
  | some elemType => return elemType
  | none => throw (.invalid (.emptyOutputAt index))

def outputSize (t : Transform) (index : Nat) : Except Fault Nat :=
  (·.size) <$> t.output index

/-- Sets the values of the input. -/
def setInput (t : Transform) (values : Values) : Except Fault Transform := do
  let size ← t.inputSize
  if values.length ≠ size then
    throw (.invalid (.inputCount size values.length))
  let some e := t.graph.entry? t.input | throw (.missing .removedPort)
  let some o := e.outlets[0]? | throw (.missing .removedPort)
  let held ← o.values.expect values.elemType
  if held.length ≠ values.length then
    throw (.breach (.copyLength values.length held.length))
  return { t with graph := t.graph.setOutlets t.input (e.outlets.set 0 (o.hold values)) }

def check {α : Type} : Except Fault α → TransformM α
  | .ok a => pure a
  | .error f => throw f

/-- Runs an evaluation on the graph of a transform. -/
def evaluate {α : Type} (m : GraphM α) : TransformM α := do
  let t ← get
  let (r, graph) := m.run.run t.graph
  set { t with graph }
  check r

/-- Computes an output, which has to be of the given type. -/
def computeOutput (elemType : ElemType) (index : Nat) : TransformM Values := do
  let s ← check ((← get).output index)
  let order ← check ((← get).graph.dependencyOrder [s])
  evaluate (Graph.compute order)
  let values ← check ((← get).graph.gather s)
  check (values.expect elemType)

/-- Computes the first output for the given input values. -/
def compute (elemType : ElemType) (values : Values) : TransformM Values := do
  set (← check ((← get).setInput values))
  computeOutput elemType 0

end Transform

end Dataflow
