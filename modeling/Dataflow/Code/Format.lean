import Dataflow.Fault

/-!
# Output formats

A module is written as text, as a binary container or as machine code in text. The format of a
file follows from the extension of its name, whatever its case.
-/

namespace Dataflow.Code

inductive Format
  | ir
  | bitcode
  | assembly
  deriving DecidableEq, Repr, Inhabited

namespace Format

def all : List Format := [ir, bitcode, assembly]

def name : Format → String
  | ir => "ir"
  | bitcode => "bitcode"
  | assembly => "assembly"

instance : ToString Format := ⟨name⟩

def lower (c : Char) : Char := if 'A' ≤ c ∧ c ≤ 'Z' then Char.ofNat (c.toNat + 32) else c

def ofExtension? (extension : String) : Option Format :=
  match String.ofList (extension.toList.map lower) with
  | "ll" | "clif" => some ir
  | "bc" => some bitcode
  | "s" | "asm" => some assembly
  | _ => none

/-- The parts of a text between the occurrences of a character. -/
def splitAt (sep : Char) : List Char → List (List Char)
  | [] => [[]]
  | c :: cs =>
    if c = sep then [] :: splitAt sep cs
    else
      match splitAt sep cs with
      | [] => [[c]]
      | part :: parts => (c :: part) :: parts

/-- The last component of a path; empty components and single dots do not count, and the parent
directory is no file. -/
def fileName? (path : String) : Option (List Char) :=
  let parts := (splitAt '/' path.toList).filter fun part => part ≠ [] ∧ part ≠ ['.']
  match parts.getLast? with
  | some part => if part = ['.', '.'] then none else some part
  | none => none

/-- What follows the last dot of a file name. A dot at the front begins no extension. -/
def extension? (path : String) : Option String := do
  let name ← fileName? path
  let parts := splitAt '.' name
  let last ← parts.getLast?
  if parts.length ≤ 1 ∨ (parts.length = 2 ∧ parts.head? = some []) then none
  else some (String.ofList last)

def ofPath (path : String) : Except Fault Format :=
  match (extension? path).bind ofExtension? with
  | some f => .ok f
  | none => .error (.format path)

/-- A path that names a file of the working directory. -/
def isInPlace (path : String) : Bool :=
  match (splitAt '/' path.toList).filter (· ≠ ['.']) with
  | [name] => name ≠ []
  | _ => false

end Format

end Dataflow.Code
