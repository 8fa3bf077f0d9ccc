import Dataflow.Lower.Transform

/-!
# Compiled transforms

A transform lowered to code, with an output buffer of its own. Instances share the code and
nothing else. The first call for the input's type binds the code to it and clears the buffer.
-/

namespace Dataflow

open Code (Argument Assembler Body CallResult Executable Surroundings)

structure Compiled where
  code : Executable
  entry : Body
  inputType : ElemType
  inputSize : Nat
  outputType : ElemType
  outputSize : Nat
  output : Values
  bound : Bool := false

namespace Compiled

def function (c : Compiled) : String := c.entry.name

/-- The code of a lowered transform, with an output of zeros. -/
def ofAssembler (t : Transform) (plan : Lower.Plan) (a : Assembler) : Except Fault Compiled := do
  let code ← a.finalize
  let inputType ← t.inputType
  let outputType ← t.outputType 0
  let inputSize ← t.inputSize
  let outputSize ← t.outputSize 0
  return {
    code, inputType, inputSize, outputType, outputSize
    entry := ← code.exported plan.function
    output := .zeros outputType outputSize }

/-- Compiles a transform. Also gives what its nodes have noted down, whether or not it could be
compiled. -/
def compile (t : Transform) (plan : Lower.Plan := {}) : Except Fault Compiled × List Remark :=
  let start : Assembler × Lower.Progress := (.new plan.module plan.settings, { storage := ∅ })
  let (r, a, p) := (Lower.build t plan).run.run start
  (r.bind fun _ => ofAssembler t plan a, p.remarks)

/-- A copy that shares the code and starts with an output of zeros. -/
def fresh (c : Compiled) : Compiled :=
  { c with output := .zeros c.outputType c.outputSize, bound := false }

/-- Operations on an instance. What a failing one has done stays done. -/
abbrev Instance := ExceptT Fault (StateM Compiled)

/-- Binds the code for inputs of a type, which has to be that of the transform's input. -/
def bind (t : ElemType) : Instance Unit := do
  let c ← get
  if t ≠ c.inputType then
    throw (.mismatch (.element c.inputType) (.element t))
  unless c.bound do
    set { c with output := .zeros c.outputType c.outputSize, bound := true }

/-- Runs the code on an input for at most `fuel` steps. The output stays in the buffer. -/
def run (fuel : Nat) (input : Values) (ω : Surroundings) : Instance CallResult := do
  let c ← get
  let (r, code) := c.code.callBody c.entry fuel [.buffer input, .buffer c.output] ω
  match r with
  | .returned _ [_, output] => set { c with code, output }
  | _ => set { c with code }
  return r

/-- Runs the code on an input, which has to be of the transform's input type and length. -/
def compute (fuel : Nat) (outputType : ElemType) (input : Values) (ω : Surroundings := {}) :
    Instance CallResult := do
  let c ← get
  if outputType ≠ c.outputType then
    throw (.mismatch (.element c.outputType) (.element outputType))
  if input.length ≠ c.inputSize then
    throw (.invalid (.argumentCount c.inputSize input.length))
  bind input.elemType
  run fuel input ω

/-- The output of the last run. -/
def lastOutput (c : Compiled) (t : ElemType) : Except Fault Values := c.output.expect t

def describe (c : Compiled) : String :=
  let port (t : ElemType) (size : Nat) : String :=
    let name := match t with
      | .boolean => "Boolean"
      | .integer => "Integer"
      | .real => "Real"
    s!"({name}, {size})"
  "CompiledMap \x7b function_name: " ++ Text.quoted c.function ++
    ", input: " ++ port c.inputType c.inputSize ++
    ", output: " ++ port c.outputType c.outputSize ++ " \x7d"

end Compiled

end Dataflow
