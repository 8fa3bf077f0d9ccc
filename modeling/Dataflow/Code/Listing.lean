import Dataflow.Code.Format
import Dataflow.Value.Bytes

/-!
# Module listings

The texts captured for the functions of a module, and the three forms in which a listing is
written. The binary form is a sequence of records: every name and every text is preceded by its
length in four bytes, so a listing can be read back from it.
-/

namespace Dataflow.Code

structure FunctionListing where
  name : String
  ir : String
  assembly : String
  deriving DecidableEq, Inhabited

structure Listing where
  module : String
  functions : List FunctionListing := []
  deriving DecidableEq, Inhabited

namespace Listing

def find? (l : Listing) (name : String) : Option FunctionListing :=
  l.functions.find? (·.name == name)

def magic : String := "FLWC"

def version : Nat := 1

def utf8 (s : String) : List UInt8 := s.toUTF8.data.toList

def heading (l : Listing) : String := s!"; module {l.module}\n"

def irText (l : Listing) : String :=
  l.functions.foldl (fun text f => text ++ "\n" ++ f.ir) l.heading

def assemblyText (l : Listing) : String :=
  l.functions.foldl (fun text f => text ++ "\n" ++ f.name ++ ":\n" ++ f.assembly) l.heading

/-- A length in four bytes. -/
def encodeLength (n : Nat) : Except Fault (List UInt8) :=
  if n < 0x100000000 then .ok (Bytes.ofNat 4 n) else .error (.invalid (.recordLength n))

def encodeRecord (s : String) : Except Fault (List UInt8) := do
  let bytes := utf8 s
  return (← encodeLength bytes.length) ++ bytes

def encodeFunction (f : FunctionListing) : Except Fault (List UInt8) := do
  return (← encodeRecord f.name) ++ (← encodeRecord f.ir)

def bitcode (l : Listing) : Except Fault (List UInt8) := do
  let name ← encodeRecord l.module
  let count ← encodeLength l.functions.length
  let functions ← l.functions.mapM encodeFunction
  return utf8 magic ++ Bytes.ofNat 4 version ++ name ++ count ++ functions.flatten

/-- The bytes of a listing in a format. -/
def encode (l : Listing) (format : Format) : Except Fault (List UInt8) :=
  match format with
  | .ir => .ok (utf8 l.irText)
  | .assembly => .ok (utf8 l.assemblyText)
  | .bitcode => l.bitcode

/-- Writes into a buffer of `room` bytes and tells how many bytes are left. -/
def writeInto (l : Listing) (format : Format) (room : Nat) : Except Fault Nat := do
  let bytes ← l.encode format
  if bytes.length ≤ room then return room - bytes.length
  else throw (.stream .full)

/-- The format for a file: the given one, or else the one that its name stands for. Files are
made in the working directory; a path through other directories leads nowhere. -/
def fileFormat (path : String) (given : Option Format) : Except Fault Format := do
  let format ← match given with
    | some f => pure f
    | none => Format.ofPath path
  if Format.isInPlace path then return format else throw (.stream .noDirectory)

end Listing

end Dataflow.Code
