import Dataflow.Graph.Node

/-!
# Scripted nodes

Nodes whose computation and lowering are given as lists of actions. A script can do what no
built-in node does, such as write values of the wrong type or leave an output out, and it can
note down what it finds while it is lowered.
-/

namespace Dataflow

open Code (Emit)

inductive ComputeAction
  | copy (input output : Nat)
  | put (output : Nat) (values : Values)
  | fail (text : String)
  | unknown

inductive LowerAction
  | copy (input output : Nat)
  | double (input output : Nat)
  | literal (output : Nat) (values : Values)
  | store (output index : Nat) (value : Int32)
  | element (input index output target : Nat)
  | noteContext
  | noteInput (input : Nat)
  | noteOutput (output : Nat)
  | noteLoad (input index : Nat)
  | noteDynamicLoad (input : Nat) (index : Int32)
  | unknown

/-- Without a list of lowering actions the node can only be interpreted. -/
structure Script where
  typeName : String
  isInput : Bool := false
  inlets : List Inlet := []
  outlets : List OutletSpec := []
  compute : List ComputeAction := []
  lower : Option (List LowerAction) := none

def ComputeAction.perform (inputs : List Values) : ComputeAction → Compute Unit
  | copy input output =>
    match inputs[input]? with
    | some values => Compute.write output values
    | none => throw (.breach (.subscript inputs.length input))
  | put output values => Compute.write output values
  | fail text => throw (.invalid (.script text))
  | unknown => throw (.unsupported .scriptAction)

namespace LowerAction

/-- Notes down whether an operation succeeds. -/
def noteResult (m : Lower Code.ValueId) : Lower Unit := do
  let r ← Lower.attempt m
  Lower.remark (.load (r.map fun _ => ()))

def perform : LowerAction → Lower Unit
  | copy input output => do
    Lower.forEach (← Lower.inputSize input) fun k => do
      Lower.storeOutputAt output k (← Lower.inputAt input k)
  | double input output => do
    Lower.forEach (← Lower.inputSize input) fun k => do
      let value ← Lower.inputAt input k
      Lower.storeOutputAt output k (← Lower.emit (Emit.operator .add value value))
  | literal output values => Lower.setOutputLiteral output values
  | store output index value => do
    let value ← Lower.emit (Emit.literal (.i32 value))
    Lower.storeOutputAt output (.fixed index) value
  | element input index output target => do
    let value ← Lower.inputAt input (.fixed index)
    Lower.storeOutputAt output (.fixed target) value
  | noteContext => do
    let c ← read
    Lower.remark (.context c.site.inlets.length c.site.id c.graphSize (← Lower.settings))
  | noteInput input => do
    let size ← Lower.attempt (Lower.inputSize input)
    let elemType ← Lower.attempt (Lower.inputType input)
    Lower.remark (.input size elemType (← Lower.attempt (Lower.inputIsContiguous input)))
  | noteOutput output => do
    let size ← Lower.attempt (Lower.outputSize output)
    let elemType ← Lower.attempt (Lower.outputType output)
    Lower.remark (.output size elemType (← Lower.attempt (Lower.hasStorage output)))
  | noteLoad input index => noteResult (Lower.inputAt input (.fixed index))
  | noteDynamicLoad input index => do
    let index ← Lower.emit (Emit.literal (.i32 index))
    noteResult (Lower.inputAt input (.computed index))
  | unknown => throw (.unsupported .scriptAction)

end LowerAction

def Script.toNode (s : Script) : Node where
  typeName := s.typeName
  isInput := s.isInput
  inlets := s.inlets
  outlets _ := .ok s.outlets
  compute inputs := s.compute.forM (ComputeAction.perform inputs)
  lower :=
    match s.lower with
    | some actions => actions.forM LowerAction.perform
    | none => Node.cannotLower s.typeName

end Dataflow
