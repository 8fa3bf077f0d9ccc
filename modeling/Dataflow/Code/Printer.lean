import Dataflow.Code.Declarations
import Dataflow.Code.Listing
import Dataflow.Text.Quoted

/-!
# Text of function bodies

A body is written block by block, one instruction a line. Below the body stands one line for
each source location. In a body that marks source locations every block is moved to the right by
the width of a margin.
-/

namespace Dataflow.Code

def hexPadded (width n : Nat) : String :=
  let digits := Nat.toDigits 16 n
  String.ofList (List.replicate (width - digits.length) '0' ++ digits)

def Literal.text : Literal → String
  | .bool b => if b then "true" else "false"
  | .i32 n => toString n.toInt
  | .i64 n => toString n.toInt
  | .f64 x => "0x" ++ hexPadded 16 x.toBits.toNat

def commaSeparated (names : List String) : String := ", ".intercalate names

def Instr.text : Instr → String
  | .location index => s!"@{hexPadded 4 index}"
  | .const result value => s!"{result.name} = const.{value.ty.name} {value.text}"
  | .stackAddress result slot => s!"{result.name} = stack_addr {slot.name}"
  | .datumAddress result datum => s!"{result.name} = data_addr {datum.name}"
  | .offset result base index scale =>
    s!"{result.name} = offset {base.name}, {index.name} * {scale}"
  | .load result address bytes => s!"{result.name} = load {address.name}+{bytes}"
  | .store address bytes value => s!"store {value.name}, {address.name}+{bytes}"
  | .binary result op lhs rhs => s!"{result.name} = {op.name} {lhs.name}, {rhs.name}"
  | .unary result op operand => s!"{result.name} = {op.name} {operand.name}"
  | .compare result op lhs rhs => s!"{result.name} = cmp.{op.name} {lhs.name}, {rhs.name}"
  | .select result condition ifTrue ifFalse =>
    s!"{result.name} = select {condition.name}, {ifTrue.name}, {ifFalse.name}"
  | .cast result value => s!"{result.name} = cast {value.name}"
  | .readVar result var => s!"{result.name} = get {var.name}"
  | .writeVar var value => s!"set {var.name}, {value.name}"
  | .call (some result) function args =>
    s!"{result.name} = call {function.name}(" ++ commaSeparated (args.map ValueId.name) ++ ")"
  | .call none function args => s!"call {function.name}(" ++ commaSeparated (args.map ValueId.name) ++ ")"

def Terminator.text : Terminator → String
  | .jump target => s!"jump {target.name}"
  | .branch condition ifTrue ifFalse =>
    s!"branch {condition.name}, {ifTrue.name}, {ifFalse.name}"
  | .ret (some value) => s!"return {value.name}"
  | .ret none => "return"

def spaces (n : Nat) : String := String.ofList (List.replicate n ' ')

/-- The lines of a block, moved to the right. -/
def Block.lines (b : Block) (id : BlockId) (margin : Nat) : List String :=
  (spaces margin ++ s!"{id.name}: ; {Text.quoted b.label}") ::
    (b.instrs.toList.map Instr.text ++ b.terminator.toList.map Terminator.text).map fun text =>
      spaces (margin + 4) ++ text

def Instr.isLocation : Instr → Bool
  | .location _ => true
  | _ => false

namespace Body

/-- Some instruction stands at a source location. -/
def marksLocations (b : Body) : Bool := b.blocks.any fun k => k.instrs.any Instr.isLocation

/-- The width of the margin. -/
def margin (b : Body) : Nat := if b.marksLocations then 32 else 0

/-- One line for each source location, numbered from one. -/
def locationLines (b : Body) : List String :=
  b.locations.toList.mapIdx fun i description => s!"; @{hexPadded 4 (i + 1)} {description}"

def lines (b : Body) : List String :=
  let params := (b.params.zip b.args).map fun (p, v) => s!"{v.name}: {p.ty.name}"
  let result := (b.result.map fun t => " -> " ++ t.name).getD ""
  let stack := b.stack.toList.mapIdx fun i size => s!"    ss{i}: {size}"
  let blocks := b.fullLayout.flatMap fun id =>
    ((b.blocks[id.index]?).map (·.lines id b.margin)).getD []
  let heading := s!"function {Text.quoted b.name}({commaSeparated params}){result} \x7b"
  heading :: stack ++ blocks ++ ["\x7d"] ++ b.locationLines

/-- What a listing shows of a body. Bodies are run as they are recorded, so there is no machine
code to show. -/
def listing (b : Body) : FunctionListing where
  name := b.name
  ir := String.join (b.lines.map (· ++ "\n"))
  assembly := ""

end Body

end Dataflow.Code
