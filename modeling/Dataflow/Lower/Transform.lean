import Dataflow.Code.Executable
import Dataflow.Graph.Transform

/-!
# Lowering of transforms

A transform is lowered to one function of two addresses, the input and the output. Its nodes are
lowered in dependency order; the buffer of a port goes back to the pool after the last node that
reads it, unless the output reads it too. In the end the output is copied together.
-/

namespace Dataflow.Lower

open Code (Assemble Assembler CountedLoop Emit Executable Param Settings StackBuffer ValueId)

/-- What is given to a lowering besides the transform. -/
structure Plan where
  settings : Settings := {}
  module : String := "flowc_module"
  function : String := "predict"

/-- What a lowering remembers from node to node. -/
structure Progress where
  storage : Table Port Storage
  remarks : List Remark := []

abbrev Build := ExceptT Fault (StateM (Assembler × Progress))

def liftExcept {α : Type} : Except Fault α → Build α
  | .ok a => pure a
  | .error f => throw f

def assemble {α : Type} (m : Assemble α) : Build α := do
  let (a, p) ← get
  let (r, a) := m.run.run a
  set (a, p)
  liftExcept r

def emitting {α : Type} (m : Emit α) : Build α := assemble (Assembler.emit m)

/-- For each node in order the last position at which each port is written or read. -/
def lastUses (g : Graph) (order : List Key) : Table Port Nat :=
  order.zipIdx.foldl (fun uses (k, position) =>
    match g.entry? k with
    | none => uses
    | some e =>
      let ports := e.outlets.map (·.port) ++
        e.inlets.flatMap fun i => i.selection.spans.map (·.port)
      ports.foldl (fun uses p => uses.insert p position) uses) ∅

/-- The ports whose storage is no longer needed after the node at a position. -/
def releasedAt (uses : Table Port Nat) (kept : List Port) (position : Nat) : List Port :=
  uses.pairs.filterMap fun (p, last) =>
    if last = position && !kept.contains p then some p else none

/-- Gives the buffer of a port back. -/
def releasePort (p : Port) : Build Unit := do
  let (a, progress) ← get
  match progress.storage.find? p with
  | some (.stack buffer) =>
    set (a, { progress with storage := progress.storage.erase p })
    emitting (Emit.releaseBuffer buffer)
  | _ => return ()

/-- Lowers a node into the open function. -/
def lowerEntry (g : Graph) (e : Entry) : Build Unit := do
  let (_, progress) ← get
  let context : LowerContext := ⟨e.toSite, g.size⟩
  let (r, progress) ← emitting fun emitter =>
    let start : LowerState :=
      { emitter
        storage := progress.storage
        gathered := List.replicate e.inlets.length none
        remarks := progress.remarks }
    let (r, s) := ((do e.node.lower; finish : Lower Unit).run context).run.run start
    (.ok (r, (⟨s.storage, s.remarks⟩ : Progress)), s.emitter)
  modify fun (a, _) => (a, progress)
  liftExcept r

def lowerNode (g : Graph) (uses : Table Port Nat) (kept : List Port) (k : Key) (position : Nat) :
    Build Unit := do
  let some e := g.entry? k | throw (.missing .transformNode)
  emitting (Emit.location s!"{e.typeName} {e.id.text}")
  lowerEntry g e
  (releasedAt uses kept position).forM releasePort

/-- Copies the values of a span to the output, from the position `offset` on. -/
def copySpan (settings : Settings) (storage : Table Port Storage) (output : ValueId) (s : Span)
    (offset : Nat) : Emit Unit := do
  let t := s.elemType.ty
  if settings.unroll || s.length ≤ 1 then
    (List.range s.length).forM fun i => do
      let source ← address storage s.port
      let value ← Emit.load t source (s.start + i)
      Emit.store output (offset + i) value
  else
    if 0x80000000 ≤ s.length then
      throw (.invalid (.copyLength s.length))
    let loop ← CountedLoop.idle.begin (Int32.ofNat s.length)
    let i ← loop.counter
    let source ← address storage s.port
    let value ← Emit.loadDynamic t source (← moved i s.start)
    Emit.storeDynamic output (← moved i offset) value
    let _ ← loop.finish

def copySpans (settings : Settings) (storage : Table Port Storage) (output : ValueId) :
    List Span → Nat → Emit Unit
  | [], _ => return ()
  | s :: ss, offset => do
    copySpan settings storage output s offset
    copySpans settings storage output ss (offset + s.length)

/-- Lowers the nodes of a transform and the copy of its output. -/
def lowerBody (t : Transform) (plan : Plan) (selection : Selection) (order : List Key) :
    Build Unit := do
  let input ← emitting (Emit.argument "input")
  let output ← emitting (Emit.argument "output")
  modify fun (a, p) => (a, { p with storage := p.storage.insert ⟨t.input, 0⟩ (.argument input) })
  let uses := lastUses t.graph order
  let kept := selection.spans.map (·.port)
  order.zipIdx.forM fun (k, position) => lowerNode t.graph uses kept k position
  let storage := (← get).2.storage
  emitting (copySpans plan.settings storage output selection.spans 0)
  emitting Emit.returnVoid

/-- Lowers a transform into a module. -/
def build (t : Transform) (plan : Plan) : Build Unit := do
  if t.outputs.length ≠ 1 then
    throw (.unsupported (.outputCount t.outputs.length))
  let selection ← liftExcept (t.output 0)
  let order ← liftExcept (t.graph.dependencyOrder [selection])
  assemble (Assembler.beginFunction plan.function [⟨"input", .ptr⟩, ⟨"output", .ptr⟩] none)
  lowerBody t plan selection order
  assemble Assembler.endFunction

end Dataflow.Lower
