import Dataflow.Fault

/-!
# Slots

Emitted code names its storage by slots. Each scope has a pool of its own, which hands out the
least index that is not in use. The pools of a function's arguments, result, buffers and scratch
values start afresh with every function; those of module data do not.
-/

namespace Dataflow.Code

inductive Scope
  | input
  | output
  | global
  | literal
  | buffer
  | scratch
  deriving DecidableEq, Repr, Inhabited

namespace Scope

def all : List Scope := [input, output, global, literal, buffer, scratch]

/-- What the names of a scope's slots begin with. -/
def stem : Scope → String
  | input => "in"
  | output => "out"
  | global => "g"
  | literal => "c"
  | buffer => "t"
  | scratch => "r"

def label : Scope → String
  | input => "Input"
  | output => "Output"
  | global => "Global"
  | literal => "Literal"
  | buffer => "Local"
  | scratch => "RValue"

/-- Slots of these scopes live as long as one function. -/
def isFunctionScoped : Scope → Bool
  | input | output | buffer | scratch => true
  | global | literal => false

end Scope

structure Slot where
  scope : Scope
  index : Nat
  deriving DecidableEq, Repr, Inhabited

def Slot.name (s : Slot) : String := s!"{s.scope.stem}_{s.index}"

instance : ToString Slot := ⟨Slot.name⟩

/-- The slots of one scope: those below `next` that are not free are in use. The free ones are
kept in increasing order. -/
structure Pool where
  scope : Scope
  next : Nat := 0
  free : List Nat := []

namespace Pool

def insertSorted (n : Nat) : List Nat → List Nat
  | [] => [n]
  | m :: ms => if n < m then n :: m :: ms else m :: insertSorted n ms

/-- Takes the least free slot, or a new one. -/
def allocate (p : Pool) : Slot × Pool :=
  match p.free with
  | index :: free => (⟨p.scope, index⟩, { p with free })
  | [] => (⟨p.scope, p.next⟩, { p with next := p.next + 1 })

def isAllocated (p : Pool) (s : Slot) : Bool :=
  s.scope == p.scope && s.index < p.next && !p.free.contains s.index

/-- The free indices with one more, and whether it was not among them. -/
def insertFree (n : Nat) (free : List Nat) : Bool × List Nat :=
  if free.contains n then (false, free) else (true, insertSorted n free)

/-- Gives a slot of the pool back, which has to be in use. -/
def release (s : Slot) : ExceptT Fault (StateM Pool) Unit := do
  let p ← get
  if s.scope ≠ p.scope then
    throw (.invalid (.foreignSlot s.name p.scope.label))
  if p.next ≤ s.index then
    throw (.invalid (.freeSlot s.name))
  let (isNew, free) := insertFree s.index p.free
  set { p with free }
  if !isNew then
    throw (.invalid (.freeSlot s.name))

/-- How many slots are in use. -/
def live (p : Pool) : Nat := p.next - p.free.length

def reset (p : Pool) : Pool := { p with next := 0, free := [] }

end Pool

/-- One pool for each scope. -/
structure Pools where
  input : Pool := { scope := .input }
  output : Pool := { scope := .output }
  global : Pool := { scope := .global }
  literal : Pool := { scope := .literal }
  buffer : Pool := { scope := .buffer }
  scratch : Pool := { scope := .scratch }

namespace Pools

instance : Inhabited Pools := ⟨{}⟩

def get (ps : Pools) : Scope → Pool
  | .input => ps.input
  | .output => ps.output
  | .global => ps.global
  | .literal => ps.literal
  | .buffer => ps.buffer
  | .scratch => ps.scratch

def set (ps : Pools) (scope : Scope) (p : Pool) : Pools :=
  match scope with
  | .input => { ps with input := p }
  | .output => { ps with output := p }
  | .global => { ps with global := p }
  | .literal => { ps with literal := p }
  | .buffer => { ps with buffer := p }
  | .scratch => { ps with scratch := p }

def allocate (ps : Pools) (scope : Scope) : Slot × Pools :=
  let (slot, p) := (ps.get scope).allocate
  (slot, ps.set scope p)

/-- Gives a slot back to a pool, which has to be its own. -/
def releaseIn (scope : Scope) (s : Slot) : ExceptT Fault (StateM Pools) Unit := do
  let (r, p) := (Pool.release s).run.run ((← getThe Pools).get scope)
  modify (·.set scope p)
  match r with
  | .ok _ => return ()
  | .error f => throw f

def release (s : Slot) : ExceptT Fault (StateM Pools) Unit := releaseIn s.scope s

/-- Starts the pools afresh whose slots belong to a single function. -/
def resetFunction (ps : Pools) : Pools :=
  { ps with
    input := ps.input.reset
    output := ps.output.reset
    buffer := ps.buffer.reset
    scratch := ps.scratch.reset }

@[simp] theorem get_set_same (ps : Pools) (s : Scope) (p : Pool) : (ps.set s p).get s = p := by
  cases s <;> rfl

theorem get_set_of_ne (ps : Pools) {s s' : Scope} (p : Pool) (h : s' ≠ s) :
    (ps.set s p).get s' = ps.get s' := by
  cases s <;> cases s' <;> first | rfl | exact absurd rfl h

end Pools

end Dataflow.Code
