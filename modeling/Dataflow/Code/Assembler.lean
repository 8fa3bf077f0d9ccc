import Dataflow.Code.CountedLoop
import Dataflow.Code.Order
import Dataflow.Code.Printer

/-!
# Assembling a module

A module is emitted function by function. While a function is open, instructions go into its
body. Ending it checks the body and defines it, and after it the helpers that it was the first
to ask for. Names of data and functions share one table of symbols.
-/

namespace Dataflow.Code

inductive Stage
  | fresh
  | opened
  | closed
  deriving DecidableEq, Repr

inductive Symbol
  | function
  | datum
  deriving DecidableEq, Repr, Inhabited

structure Assembler where
  name : String
  settings : Settings := {}
  stage : Stage := .fresh
  /-- The body of the function that has been begun last, until the function ends. -/
  body : Option Body := none
  declarations : Declarations := {}
  pools : Pools := {}
  symbols : Table String Symbol := ∅
  /-- The functions that have a symbol. -/
  declared : List FunctionId := []
  /-- The data that have been defined. -/
  definedData : List DatumId := []
  /-- The bodies that have been defined, in order. -/
  defined : List Body := []

/-- Operations on a module under construction. What a failing one has done stays done. -/
abbrev Assemble := ExceptT Fault (StateM Assembler)

namespace Assembler

def new (name : String) (settings : Settings := {}) : Assembler := { name, settings }

def listing (a : Assembler) : Listing := ⟨a.name, a.defined.map Body.listing⟩

/-- The body that is emitted into. -/
def current? (a : Assembler) : Option Body :=
  match a.stage with
  | .opened => a.body
  | .fresh | .closed => none

/-- Replaces the settings, as long as nothing has been emitted. -/
def setSettings (settings : Settings) : Assemble Unit := do
  if (← get).stage ≠ .fresh then
    throw (.sequencing .settingsFixed)
  modify fun a => { a with settings }

def check {α : Type} : Except Fault α → Assemble α
  | .ok a => pure a
  | .error f => throw f

def allocateAll (pools : Pools) (scope : Scope) : Nat → List Slot × Pools
  | 0 => ([], pools)
  | n + 1 =>
    let (slot, pools) := pools.allocate scope
    let (slots, pools) := allocateAll pools scope n
    (slot :: slots, pools)

/-- Opens an exported function. -/
def beginFunction (name : String) (params : List Param) (result : Option Ty) : Assemble Unit := do
  if (← get).stage = .opened then
    throw (.sequencing (.beginWhileOpen name))
  let (id, declarations) ← check ((← get).declarations.declare
    { name, params := params.map (·.ty), result, exported := true })
  modify fun a => { a with declarations, pools := a.pools.resetFunction }
  let (argSlots, pools) := allocateAll (← get).pools .input params.length
  let (resultSlots, pools) := allocateAll pools .output result.toList.length
  let body := { Body.new id name params result with argSlots, resultSlot := resultSlots.head? }
  modify fun a => { a with pools, body := some body, stage := .opened }

/-- Runs an emission in the open function. -/
def emit {α : Type} (m : Emit α) : Assemble α := do
  let a ← get
  match a.current? with
  | some body =>
    let (r, e) := m.run.run ⟨body, a.declarations, a.pools, a.settings⟩
    set { a with body := some e.body, declarations := e.declarations, pools := e.pools }
    check r
  | none => throw (.sequencing .noFunction)

/-- Defines a piece of data under its name. -/
def defineDatum (id : DatumId) (d : Datum) : Assemble Unit := do
  let a ← get
  if a.definedData.contains id then return
  match a.symbols.find? d.name with
  | some .function => throw (.rejected (.declaration d.name))
  | some .datum => throw (.rejected (.definition d.name))
  | none =>
    set { a with
      symbols := a.symbols.insert d.name .datum
      definedData := a.definedData ++ [id] }

def defineData : Assemble Unit := do
  for (d, i) in (← get).declarations.data.toList.zipIdx do
    defineDatum ⟨i⟩ d

/-- Gives a function a symbol. -/
def declareFunction (id : FunctionId) : Assemble Unit := do
  let a ← get
  if a.declared.contains id then return
  let s ← check (a.declarations.function id)
  if a.symbols.find? s.name = some .datum then
    throw (.rejected (.declaration s.name))
  set { a with
    symbols := a.symbols.insert s.name .function
    declared := a.declared ++ [id] }

/-- Checks a body and defines it. -/
def define (b : Body) : Assemble Unit := do
  defineData
  declareFunction b.id
  b.callees.eraseDups.forM declareFunction
  check b.checkOrder
  if !b.isWellFormed then
    throw (.rejected (.definition b.name))
  modify fun a => { a with defined := a.defined ++ [b] }

/-- Defines the helpers that were asked for since the last function ended. -/
def defineHelpers : Assemble Unit := do
  let (requests, declarations) := (← get).declarations.takePending
  modify fun a => { a with declarations }
  for r in requests do
    define (← check (r.body (← check ((← get).declarations.function r.function))))

/-- A function without a result returns at the end of its last open block. -/
def implicitReturn (b : Body) : Except Fault Body :=
  let opened := b.unterminated
  if b.result.isNone && opened == [b.current] then b.terminate (.ret none)
  else if opened.isEmpty then .ok b
  else
    let labels := opened.filterMap fun id => (b.blocks[id.index]?).map (·.label)
    .error (.sequencing (.unterminated b.name labels))

/-- Closes the open function and defines it. -/
def endFunction : Assemble Unit := do
  match (← get).current? with
  | some body =>
    let body ← check (implicitReturn body)
    modify fun a => { a with stage := .closed, body := none }
    define body
    defineHelpers
  | none => throw (.sequencing .endWithoutBegin)

end Assembler

end Dataflow.Code
