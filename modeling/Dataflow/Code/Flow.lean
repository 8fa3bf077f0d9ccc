import Dataflow.Code.Body

/-!
# Control flow and definitions

A body can be run when its blocks, taken in layout order, define every value before it is used,
when no block jumps back to the entry, and when every value that is used in another block was
defined on every way there.
-/

namespace Dataflow.Code

/-- The values an instruction reads, in the order in which they are looked up. -/
def Instr.uses : Instr → List ValueId
  | .location _ | .const .. | .stackAddress .. | .datumAddress .. | .readVar .. => []
  | .offset _ base index _ => [base, index]
  | .load _ address _ => [address]
  | .store address _ value => [address, value]
  | .binary _ _ lhs rhs | .compare _ _ lhs rhs => [lhs, rhs]
  | .unary _ _ operand => [operand]
  | .select _ condition ifTrue ifFalse => [condition, ifTrue, ifFalse]
  | .cast _ value | .writeVar _ value => [value]
  | .call _ _ args => args

/-- The value an instruction writes. -/
def Instr.defines : Instr → Option ValueId
  | .location _ | .store .. | .writeVar .. => none
  | .const result _ | .stackAddress result _ | .datumAddress result _ | .offset result ..
  | .load result .. | .binary result .. | .unary result .. | .compare result ..
  | .select result .. | .cast result _ | .readVar result _ => some result
  | .call result _ _ => result

def Terminator.uses : Terminator → List ValueId
  | .jump _ => []
  | .branch condition _ _ => [condition]
  | .ret value => value.toList

def Terminator.targets : Terminator → List BlockId
  | .jump target => [target]
  | .branch _ ifTrue ifFalse => [ifTrue, ifFalse]
  | .ret _ => []

def Instr.callee : Instr → Option FunctionId
  | .call _ function _ => some function
  | _ => none

def Block.targets (b : Block) : List BlockId :=
  match b.terminator with
  | some t => t.targets
  | none => []

def Block.uses (b : Block) : List ValueId :=
  b.instrs.toList.flatMap Instr.uses ++ (b.terminator.map Terminator.uses).getD []

def Block.defines (b : Block) : List ValueId := b.instrs.toList.filterMap Instr.defines

namespace Body

def successors (b : Body) (id : BlockId) : List BlockId :=
  match b.blocks[id.index]? with
  | some block => block.targets
  | none => []

/-- The functions a body calls, in the order of its blocks. -/
def callees (b : Body) : List FunctionId :=
  b.blocks.toList.flatMap fun block => block.instrs.toList.filterMap Instr.callee

/-- The blocks that `steps` further steps reach, from those reached already, without entering
`avoided`. -/
def reach (b : Body) (avoided : Option BlockId) : Nat → List BlockId → List BlockId → List BlockId
  | 0, seen, _ => seen
  | _, seen, [] => seen
  | steps + 1, seen, frontier =>
    let fresh := (frontier.flatMap b.successors).eraseDups.filter fun id =>
      !seen.contains id && some id != avoided
    reach b avoided steps (seen ++ fresh) fresh

/-- The blocks on some way from the entry that does not pass through `avoided`. -/
def reachable (b : Body) (avoided : Option BlockId) : List BlockId :=
  if avoided = some ⟨0⟩ then [] else b.reach avoided b.blocks.size [⟨0⟩] [⟨0⟩]

/-- Every way from the entry to `id` passes through `dominator`. -/
def dominates (b : Body) (dominator id : BlockId) : Bool :=
  !(b.reachable (some dominator)).contains id

/-- The block in which each value is defined, for the values defined by instructions. -/
def definitionSites (b : Body) : Array (Option BlockId) :=
  b.blocks.toList.zipIdx.foldl (fun sites (block, i) =>
    block.defines.foldl (fun sites v => sites.setIfInBounds v.index (some ⟨i⟩)) sites)
    (Array.replicate b.valueTypes.size none)

/-- The other blocks that define what a block uses. -/
def sources (b : Body) (sites : Array (Option BlockId)) (id : BlockId) : List BlockId :=
  ((b.blocks[id.index]?.map Block.uses).getD []).foldl (fun found v =>
    match sites[v.index]?.join with
    | some site => if site = id || found.contains site then found else site :: found
    | none => found) []

/-- No block goes back to the entry. -/
def entryIsFirst (b : Body) : Bool :=
  b.blocks.all fun block => !block.targets.contains ⟨0⟩

/-- A value that is defined in one block and used in another was defined on every way from the
entry to its use. -/
def definitionsDominate (b : Body) : Bool :=
  let sites := b.definitionSites
  let live := b.reachable none
  b.blockIds.all fun id =>
    !live.contains id || (b.sources sites id).all fun site => b.dominates site id

/-- The control flow lets the body be run. -/
def isWellFormed (b : Body) : Bool := b.entryIsFirst && b.definitionsDominate

end Body

end Dataflow.Code
