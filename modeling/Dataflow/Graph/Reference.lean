import Dataflow.Graph.Basic

/-!
# References in text

The text form of a selection:

    elements := '{' range (',' range)* '}' | range
    range    := node '.' port ('[' index (':' index)? ']')?

`[i]` stands for one value and `[i:j]` for the values from `i` up to `j`, `j` not included; a
range without an index follows the whole port. Blanks between tokens do not count.
-/

namespace Dataflow.Reference

/-- A token is a delimiter or a word, a longest run of characters that are neither delimiters
nor blanks. -/
inductive Token
  | delimiter (c : Char)
  | word (text : String)
  deriving DecidableEq, Repr

def Token.text : Token → String
  | delimiter c => c.toString
  | word text => text

/-- The word collected so far, if there is one, in front of the tokens after it. -/
def endWord (word : List Char) (tokens : List Token) : List Token :=
  if word.isEmpty then tokens else .word (String.ofList word.reverse) :: tokens

def tokensFrom (word : List Char) : List Char → List Token
  | [] => endWord word []
  | c :: cs =>
    if isDelimiter c then endWord word (.delimiter c :: tokensFrom [] cs)
    else if Text.isBlank c then endWord word (tokensFrom [] cs)
    else tokensFrom (c :: word) cs

def tokens (text : String) : List Token := tokensFrom [] text.toList

/-- The tokens that are left and how many have been read. -/
structure Input where
  rest : List Token
  position : Nat := 0

abbrev Read := StateT Input (Except Fault)

/-- Fails at the next token, or at the end. -/
def unexpected {α : Type} (wanted : Wanted) : Read α := do
  let i ← get
  throw (.misread i.position (.unexpected wanted (i.rest.head?.map Token.text)))

def skip : Read Unit := modify fun i => ⟨i.rest.tail, i.position + 1⟩

/-- Any word. -/
def readWord (wanted : Wanted) : Read String := do
  match (← get).rest with
  | .word text :: _ => do
    skip
    return text
  | _ => unexpected wanted

/-- A number below `2 ^ 64` in decimal digits, after an optional plus sign. -/
def index? (text : String) : Option Nat :=
  let digits := match text.toList with
    | '+' :: cs => cs
    | cs => cs
  if digits.isEmpty || !digits.all Char.isDigit then none
  else
    let n := digits.foldl (fun n c => 10 * n + (c.toNat - '0'.toNat)) 0
    if n < 0x10000000000000000 then some n else none

def readIndex : Read Nat := do
  match (← get).rest with
  | .word text :: _ =>
    match index? text with
    | some n => do
      skip
      return n
    | none => unexpected .index
  | _ => unexpected .index

def nextIs (c : Char) : Read Bool := return (← get).rest.head? == some (.delimiter c)

def expect (c : Char) : Read Unit := do
  if ← nextIs c then skip else unexpected (.delimiter c)

def findOutlet (g : Graph) (node port : String) : Except Fault Outlet := do
  match (NodeId.ofToken node).toOption.bind g.find? with
  | some e => e.outletNamed port
  | none => throw (.missing (.node node))

def readRange (g : Graph) : Read Span := do
  let node ← readWord .nodeId
  expect '.'
  let port ← readWord .portName
  let o ← findOutlet g node port
  if ← nextIs '[' then
    skip
    let start ← readIndex
    let span ← if ← nextIs ':' then do
        skip
        let stop ← readIndex
        if stop < start then
          throw (.outOfRange (.reversed stop start))
        (Span.part o start (stop - start) : Except Fault Span)
      else (Span.single o start : Except Fault Span)
    expect ']'
    return span
  else return .whole o

/-- The ranges after commas, at most as many as there are tokens. -/
def readMore (g : Graph) : Nat → Read (List Span)
  | 0 => return []
  | fuel + 1 => do
    if ← nextIs ',' then
      skip
      let span ← readRange g
      return span :: (← readMore g fuel)
    else return []

def readElements (g : Graph) : Read Selection := do
  let s ← if ← nextIs '{' then do
      skip
      let first ← readRange g
      let more ← readMore g (← get).rest.length
      expect '}'
      (Selection.ofSpans (first :: more) : Except Fault Selection)
    else Selection.ofSpan <$> readRange g
  let i ← get
  match i.rest with
  | [] => return s
  | t :: _ => throw (.misread i.position (.trailing t.text))

/-- Reads a selection of ports of a graph. -/
def parse (g : Graph) (text : String) : Except Fault Selection :=
  (readElements g).run' { rest := tokens text }

def spanText (g : Graph) (s : Span) : Except Fault String := do
  let some e := g.entry? s.port.node | throw (.missing .removedPort)
  let o ← g.outlet s.port
  let base := s!"{e.id.text}.{o.name}"
  if !s.isFixed then return base
  else if s.length = 1 then return s!"{base}[{s.start}]"
  else return s!"{base}[{s.start}:{s.stop}]"

/-- Writes a selection as a text that reads back as the same selection. -/
def render (g : Graph) (s : Selection) : Except Fault String := do
  if s.spans.isEmpty then
    throw (.invalid .emptyReference)
  match ← s.spans.mapM (spanText g) with
  | [part] => return part
  | parts => return "\x7b" ++ ",".intercalate parts ++ "\x7d"

end Dataflow.Reference
