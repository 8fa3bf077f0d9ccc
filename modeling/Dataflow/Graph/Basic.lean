import Dataflow.Digraph
import Dataflow.Graph.Node
import Dataflow.Graph.Selection.Typed

/-!
# Graphs

A graph owns its nodes. It finds them by key and by name and keeps them in the order in which
they were added. A node reads only what was there when it was added, so dependencies lead from
later nodes to earlier ones. References to a removed node stay behind and resolve no more.
-/

namespace Dataflow

/-- A node in its place. -/
structure Entry extends Site where
  node : Node

structure Graph where
  arena : Arena Entry := {}
  order : List Key := []
  ids : Table NodeId Key := ∅

/-- Operations on a graph. What a failing one has done stays done. -/
abbrev GraphM := ExceptT Fault (StateM Graph)

namespace Entry

def outletNamed (e : Entry) (name : String) : Except Fault Outlet :=
  match e.outlets.find? (·.name == name) with
  | some o => .ok o
  | none => .error (.missing (.outletNamed e.id.text name))

def outputElements (e : Entry) (name : String) : Except Fault Selection := do
  return .ofOutlet (← e.outletNamed name)

def typedOutput (e : Entry) (t : ElemType) (name : String) : Except Fault (TypedSelection t) := do
  TypedSelection.ofOutlet t (← e.outletNamed name)

/-- The nodes that are read from, each of them once, in the order of the inlets. -/
def dependencies (e : Entry) : List Key :=
  (e.inlets.flatMap fun i => i.selection.spans.map (·.port.node)).eraseDups

end Entry

namespace Graph

def empty : Graph := {}

instance : Inhabited Graph := ⟨empty⟩

def check {α : Type} : Except Fault α → GraphM α
  | .ok a => pure a
  | .error f => throw f

def size (g : Graph) : Nat := g.order.length

def isEmpty (g : Graph) : Bool := g.order.isEmpty

def entry? (g : Graph) (k : Key) : Option Entry := g.arena.get? k

def key? (g : Graph) (id : NodeId) : Option Key := g.ids.find? id

def find? (g : Graph) (id : NodeId) : Option Entry := (g.key? id).bind g.entry?

/-- The nodes in the order in which they were added. -/
def entries (g : Graph) : List Entry := g.order.filterMap g.entry?

def outlet (g : Graph) (p : Port) : Except Fault Outlet :=
  match g.entry? p.node with
  | none => .error (.missing .removedPort)
  | some e =>
    match e.outlets[p.index]? with
    | some o => .ok o
    | none => .error (.missing (.outletAt e.id.text p.index))

/-- Checks a span against the graph as it is now, and fits a span that follows its outlet to the
outlet's size. -/
def resolveSpan (g : Graph) (s : Span) : Except Fault Span := do
  let o ← g.outlet s.port
  match o.size with
  | none => throw (.invalid (.unsizedPort o.name))
  | some size =>
    if o.elemType ≠ s.elemType then
      throw (.mismatch (.element s.elemType) (.element o.elemType))
    let resolved := s.refresh size
    if size < resolved.stop then
      throw (.outOfRange (.staleSpan resolved.start resolved.stop o.name size))
    return resolved

def resolve (g : Graph) (s : Selection) : Except Fault Selection := do
  Selection.ofSpans (← s.spans.mapM g.resolveSpan)

def resolveInlet (g : Graph) (i : Inlet) : Except Fault Inlet := do
  return { i with selection := ← g.resolve i.selection }

/-- The node that an addition puts under a key. -/
def newEntry (id : NodeId) (node : Node) (inlets : List Inlet) (specs : List OutletSpec)
    (k : Key) : Entry :=
  { id, key := k, typeName := node.typeName, inlets, node
    outlets := specs.mapIdx fun index spec => Outlet.ofSpec spec ⟨k, index⟩ }

/-- Adds a node under a name, whether or not the name is in use. -/
def place (id : NodeId) (node : Node) : GraphM Key := do
  if Node.maxPorts < node.inlets.length then
    throw (.invalid (.inletCount node.typeName node.inlets.length Node.maxPorts))
  let inlets ← check (node.inlets.mapM (← get).resolveInlet)
  let specs ← check (node.outlets (inlets.map (·.selection)))
  if Node.maxPorts < specs.length then
    throw (.invalid (.outletCount node.typeName specs.length Node.maxPorts))
  let (key, arena) := (← get).arena.insert (newEntry id node inlets specs)
  modify fun g => { g with arena }
  modify fun g => { g with order := g.order ++ [key] }
  modify fun g => { g with ids := g.ids.insert id key }
  return key

/-- Adds a node under a name that is not in use. -/
def add (id : NodeId) (node : Node) : GraphM Key := do
  if (← get).ids.contains id then
    throw (.invalid (.idInUse id.text))
  place id node

/-- The first of `fuel` numbers from `n` on that is no node's name. -/
def freshNumber (g : Graph) : Nat → Nat → Nat
  | 0, n => n
  | fuel + 1, n => if g.ids.contains (.ofNat n) then freshNumber g fuel (n + 1) else n

/-- The first number from `next` on that is no node's name. -/
def freeNumber (g : Graph) (next : Nat) : Nat := g.freshNumber (g.ids.pairs.length + 1) next

/-- Adds a node under the first free number from `next` on. Numbers go on behind it, also when the
node is refused. -/
def addNumbered (next : Nat) (node : Node) : GraphM Key := do
  place (.ofNat ((← get).freeNumber next)) node

/-- Removes a node. What referred to its outlets is stale from then on. -/
def remove (k : Key) : StateM Graph (Option Entry) := do
  match (← get).arena.remove k with
  | none => return none
  | some (e, arena) =>
    modify fun g => { g with arena }
    modify fun g => { g with order := g.order.filter (· ≠ k) }
    modify fun g => { g with ids := g.ids.erase e.id }
    return some e

def setOutlets (g : Graph) (k : Key) (outlets : List Outlet) : Graph :=
  { g with arena := g.arena.modify k fun e => { e with outlets } }

/-- Gives an unsized outlet its size. A size never changes again. -/
def setSize (p : Port) (size : Nat) : GraphM Unit := do
  match Graph.entry? (← get) p.node with
  | none => throw (.missing .removedPort)
  | some e =>
    match e.outlets[p.index]? with
    | none => throw (.missing (.outletAt e.id.text p.index))
    | some o =>
      match o.size with
      | some current => throw (.unsupported (.resize e.id.text o.name current size))
      | none => modify (·.setOutlets p.node (e.outlets.set p.index (o.setSize size)))

/-- The nodes that a node reads from; none for a key of no node. -/
def dependencies (g : Graph) (k : Key) : List Key :=
  ((g.entry? k).map Entry.dependencies).getD []

def digraph (g : Graph) (nodes : List Key) : Digraph Key := ⟨nodes, g.dependencies⟩

/-- Keys are shown with slots counted from one; every other version is that of a vacant slot. -/
def keyText (k : Key) : String := s!"NodeKey({k.slot + 1}v{2 * k.generation - 1})"

def sort (g : Graph) (keys : List Key) : Except Fault (List Key) :=
  match (g.digraph keys).sort with
  | .ok order => .ok order
  | .error c => .error (.invalid (.cycle (c.path.map keyText)))

def checkInlets (g : Graph) (e : Entry) : Except Fault Unit :=
  e.inlets.forM fun i => do let _ ← g.resolve i.selection

/-- Everything that the nodes read is there. -/
def validate (g : Graph) : Except Fault Unit := do
  g.entries.forM g.checkInlets
  let _ ← g.sort g.order

/-- The nodes whose ports are read. -/
def roots (g : Graph) : List Selection → Except Fault (List Key)
  | [] => .ok []
  | s :: ss => do
    let r ← g.resolve s
    let rest ← roots g ss
    return r.spans.map (·.port.node) ++ rest

/-- The nodes that the given outputs depend on, dependencies first. -/
def dependencyOrder (g : Graph) (outputs : List Selection) : Except Fault (List Key) := do
  let closure := (g.digraph g.order).closure (← g.roots outputs)
  closure.forM fun k => do
    match g.entry? k with
    | some e => g.checkInlets e
    | none => throw (.missing .dependency)
  g.sort (g.order.filter (closure.contains ·))

end Graph

end Dataflow
