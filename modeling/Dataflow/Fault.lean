import Dataflow.Code.Ty

/-!
# Faults

Everything that can go wrong while a graph is built, interpreted or lowered. A fault names its
cause; the wording is given once, by `Fault.message`. Faults are grouped by kind: something is
missing, types disagree, an index is out of range, a step comes at the wrong time, and so on.
-/

namespace Dataflow

/-- Something that was asked for is not there, or is there no longer. -/
inductive Missing
  | removedPort
  | outletAt (node : String) (index : Nat)
  | outletNamed (node outlet : String)
  | node (token : String)
  | computedNode
  | dependency
  | inputNode
  | inputOutlet (node : String)
  | transformNode
  | value (index : Nat) (function : String)
  | scalar (index : Nat) (function : String)
  | block (index : Nat) (function : String)
  | declaration (index : Nat)
  | function (name : String)
  | datum (index : Nat)
  | argument (function name : String)
  | exported (name : String)
  | storage

/-- What a type check asks for or meets. -/
inductive Typing
  | element (t : ElemType)
  | code (t : Code.Ty)
  | operandOf (operator : String)
  | numericElements
  | integerIndex
  | integerCount
  | comparable
  | noResult

/-- An index or a run of indices that leaves what it points into. -/
inductive Bound
  | values (start count held : Nat)
  | span (start count : Nat) (outlet : String) (size : Nat)
  | staleSpan (start stop : Nat) (outlet : String) (size : Nat)
  | cell (index size : Nat)
  | slice (start count size : Nat)
  | reversed (stop start : Nat)
  | input (index : Nat)
  | output (index : Nat)
  | transformOutput (index count : Nat)
  | bufferElement (index : Nat) (t : Code.Ty)
  | nodeInput (index : Nat) (node : String)
  | nodeOutput (index : Nat) (node : String)
  | elementOffset (offset : Nat)

/-- A step that comes at the wrong time. -/
inductive Misstep
  | finalizeWhileOpen
  | settingsFixed
  | beginWhileOpen (function : String)
  | endWithoutBegin
  | unterminated (function : String) (labels : List String)
  | noFunction
  | terminatedBlock (block : Nat) (label : String)
  | closedBlock (block : Nat) (label function : String)
  | missingTerminator (label function : String)
  | loopBegunTwice
  | loopFinished
  | loopNotBegun
  | loopNotOpen

/-- A request outside what is implemented. -/
inductive Unsupported
  | resize (node outlet : String) (current size : Nat)
  | severalInputs
  | outputCount (count : Nat)
  | lowering (typeName : String)
  | foreignInput (node : String)
  | unwrittenOutput (node outlet : String)
  | scriptAction

/-- An argument that no call accepts in the given situation. -/
inductive Invalid
  | nodeId (token : String)
  | unsizedSlice (outlet : String)
  | notAdjacent
  | emptyReference
  | idInUse (id : String)
  | inletCount (typeName : String) (count limit : Nat)
  | outletCount (typeName : String) (count limit : Nat)
  | unsizedPort (outlet : String)
  | cycle (path : List String)
  | noInput
  | notInput (node typeName : String)
  | unsizedInput (node : String)
  | noOutputs
  | emptyOutput (name : String)
  | emptyOutputAt (index : Nat)
  | inputCount (size given : Nat)
  | computedCount (count : Nat) (outlet : String) (size : Option Nat)
  | operandSizes (operator : String) (left right : Nat)
  | operandsDiffer (operator : String)
  | foreignSlot (slot scope : String)
  | freeSlot (slot : String)
  | notScratch (slot : String)
  | stackBuffer (length : Nat) (t : Code.Ty)
  | globalArray (length : Nat) (t : Code.Ty)
  | arity (function : String) (count given : Nat)
  | declared (function : String)
  | helperArity (function : String) (count : Nat)
  | loopStep (step : Int)
  | emptyInput (index : Nat)
  | unsizedOutput (outlet : String)
  | scatteredInput (index : Nat) (node : String)
  | literalCount (count size : Nat)
  | loopLength (length : Nat)
  | copyLength (length : Nat)
  | argumentCount (size given : Nat)
  | recordLength (length : Nat)
  | script (text : String)

/-- What a reference text should go on with. -/
inductive Wanted
  | nodeId
  | portName
  | index
  | delimiter (c : Char)

/-- What is wrong with a reference text. -/
inductive Misread
  | unexpected (wanted : Wanted) (found : Option String)
  | trailing (token : String)

/-- A function body that the assembler rejects. -/
inductive Rejected
  | undefinedValue (index : Nat)
  | undefinedDatum (index : Nat)
  | undeclaredFunction (index : Nat)
  | noResult (function : Nat)
  | declaration (name : String)
  | definition (name : String)

inductive StreamFault
  | noDirectory
  | full

/-- A call made outside its contract, which stops everything that led to it. -/
inductive Breach
  | cursorExhausted
  | cursorBeyondValues
  | copyLength (source target : Nat)
  | subscript (length index : Nat)
  | undefinedExport
  | unresolved (name : String)

inductive Fault
  | missing (what : Missing)
  | mismatch (expected found : Typing)
  | outOfRange (what : Bound)
  | sequencing (what : Misstep)
  | unsupported (what : Unsupported)
  | invalid (what : Invalid)
  | misread (position : Nat) (what : Misread)
  | format (path : String)
  | rejected (what : Rejected)
  | stream (what : StreamFault)
  | breach (what : Breach)

def Missing.message : Missing → String
  | removedPort => "port of a removed node"
  | outletAt owner index => s!"node '{owner}' has no output {index}"
  | outletNamed owner outlet => s!"node '{owner}' has no output port '{outlet}'"
  | node token => s!"couldn't find node {token}"
  | computedNode => "compute of a removed node"
  | dependency => "dependency on a removed node"
  | inputNode => "input node is not in the model"
  | inputOutlet owner => s!"input node '{owner}' has no output"
  | transformNode => "map depends on a removed node"
  | value index body => s!"v{index} is not a value of {body}"
  | scalar index body => s!"var{index} is not a variable of {body}"
  | block index body => s!"block{index} is not a block of {body}"
  | declaration index => s!"fn{index} is not declared"
  | function name => s!"function '{name}' is not declared"
  | datum index => s!"data{index} is not defined"
  | argument body name => s!"function {body} has no argument '{name}'"
  | exported name => s!"module has no function '{name}'"
  | storage => "port is read before it has been computed"

def Typing.message : Typing → String
  | element t => t.name
  | code t => t.name
  | operandOf operator => s!"operand of {operator}"
  | numericElements => "numeric elements"
  | integerIndex => "integer index"
  | integerCount => "integer repeat count"
  | comparable => "comparable value"
  | noResult => "no return value"

def Bound.message : Bound → String
  | values start count held => s!"values [{start}, {start}+{count}) of a port holding {held}"
  | span start count outlet size =>
    s!"range [{start}, {start}+{count}) exceeds port '{outlet}' of size {size}"
  | staleSpan start stop outlet size =>
    s!"range [{start}, {stop}) of port '{outlet}' with size {size}"
  | cell index size => s!"element {index} of elements with size {size}"
  | slice start count size =>
    s!"slice [{start}, {start}+{count}) of elements with size {size}"
  | reversed stop start => s!"range end {stop} precedes start {start}"
  | input index => s!"input {index}"
  | output index => s!"output {index}"
  | transformOutput index count => s!"output {index} of a map with {count} outputs"
  | bufferElement index t => s!"element {index} of a {t.name} buffer"
  | nodeInput index node => s!"input {index} of node '{node}'"
  | nodeOutput index node => s!"output {index} of node '{node}'"
  | elementOffset offset => s!"element offset {offset}"

def Misstep.message : Misstep → String
  | finalizeWhileOpen => "cannot finalize a module while a function is open"
  | settingsFixed => "compiler parameters are fixed once emission has started"
  | beginWhileOpen function => s!"cannot begin {function} while another function is open"
  | endWithoutBegin => "end_function without begin_function"
  | unterminated function labels =>
    s!"function {function} has unterminated blocks: " ++ ", ".intercalate labels
  | noFunction => "no function is open"
  | terminatedBlock block label => s!"block block{block} ({label}) is already terminated"
  | closedBlock block label function =>
    s!"cannot emit into terminated block block{block} ({label}) of {function}"
  | missingTerminator label function => s!"block {label} of {function} has no terminator"
  | loopBegunTwice => "loop begun twice"
  | loopFinished => "loop already emitted, clear the emitter to start another"
  | loopNotBegun => "loop end without begin"
  | loopNotOpen => "no open loop"

def Unsupported.message : Unsupported → String
  | resize node outlet current size =>
    s!"resizing port '{node}.{outlet}' from {current} to {size}"
  | severalInputs => "maps with more than one input"
  | outputCount count => s!"maps with {count} outputs"
  | lowering typeName => s!"node type '{typeName}' cannot be compiled"
  | foreignInput node => s!"input node '{node}' is not the input of the map being compiled"
  | unwrittenOutput node outlet => s!"node '{node}' did not emit output '{outlet}'"
  | scriptAction => "custom action"

def Invalid.message : Invalid → String
  | nodeId token => s!"'{token}' is not a valid node identifier"
  | unsizedSlice outlet => s!"cannot slice unsized port '{outlet}'"
  | notAdjacent => "cannot append a range that is not adjacent"
  | emptyReference => "cannot format empty elements"
  | idInUse id => s!"node id '{id}' is already in use"
  | inletCount typeName count limit =>
    s!"{typeName} declares {count} inputs, at most {limit} are supported"
  | outletCount typeName count limit =>
    s!"{typeName} declares {count} outputs, at most {limit} are supported"
  | unsizedPort outlet => s!"port '{outlet}' has not been sized"
  | cycle path => "cycle detected: " ++ " -> ".intercalate path
  | noInput => "a map needs an input node"
  | notInput node typeName => s!"node '{node}' of type {typeName} is not an input node"
  | unsizedInput node => s!"input node '{node}' has not been sized"
  | noOutputs => "a map needs at least one output"
  | emptyOutput name => s!"output '{name}' is empty"
  | emptyOutputAt index => s!"output {index} is empty"
  | inputCount size given => s!"input has {size} elements, {given} were given"
  | computedCount count outlet (some size) =>
    s!"{count} values computed for output '{outlet}' of size Some({size})"
  | computedCount count outlet none =>
    s!"{count} values computed for output '{outlet}' of size None"
  | operandSizes operator left right =>
    s!"operands of {operator} have sizes {left} and {right}"
  | operandsDiffer operator => s!"operands of {operator} differ in size"
  | foreignSlot slot scope => s!"variable {slot} does not belong to the {scope} pool"
  | freeSlot slot => s!"variable {slot} is not allocated"
  | notScratch slot => s!"{slot} is not an r-value"
  | stackBuffer length t => s!"stack buffer of {length} {t.name} elements"
  | globalArray length t => s!"global of {length} {t.name} elements"
  | arity function count given => s!"{function} takes {count} arguments, {given} given"
  | declared function => s!"function '{function}' is already declared"
  | helperArity function count => s!"helper {function} has {count} parameters"
  | loopStep step => s!"loop step must be positive, got {step}"
  | emptyInput index => s!"input {index} has no elements"
  | unsizedOutput outlet => s!"output '{outlet}' has not been sized"
  | scatteredInput index node => s!"input {index} of node '{node}' is not contiguous"
  | literalCount count size => s!"{count} literal values for an output of size {size}"
  | loopLength length => s!"loop over {length} elements"
  | copyLength length => s!"copy of {length} elements"
  | argumentCount size given => s!"expected {size} input values, got {given}"
  | recordLength length => s!"record of {length} bytes is too large"
  | script text => text

def Wanted.message : Wanted → String
  | nodeId => "a node id"
  | portName => "a port name"
  | index => "an index"
  | delimiter c => s!"'{c}'"

def Misread.message : Misread → String
  | unexpected wanted (some token) => s!"expected {wanted.message}, found '{token}'"
  | unexpected wanted none => s!"expected {wanted.message}, found end of input"
  | trailing token => s!"unexpected trailing '{token}'"

def Rejected.message : Rejected → String
  | undefinedValue index => s!"v{index} is used before it is defined"
  | undefinedDatum index => s!"data{index} was not defined"
  | undeclaredFunction index => s!"fn{index} was not declared"
  | noResult function => s!"fn{function} returns nothing"
  | declaration name => s!"failed to declare {name}"
  | definition name => s!"failed to define {name}"

def StreamFault.message : StreamFault → String
  | noDirectory => "No such file or directory (os error 2)"
  | full => "failed to write whole buffer"

def Breach.message : Breach → String
  | cursorExhausted => "IndexValueIter::get called on an exhausted iterator"
  | cursorBeyondValues => "IndexValueIter range exceeds the port's values"
  | copyLength source target =>
    s!"copy_from_slice: source slice length ({source}) does not match " ++
      s!"destination slice length ({target})"
  | subscript length index =>
    s!"index out of bounds: the len is {length} but the index is {index}"
  | undefinedExport => "function must be compiled before it can be finalized"
  | unresolved name => s!"can't resolve symbol {name}"

/-- The name of the kind of a fault, as reports give it. -/
def Fault.kind : Fault → String
  | missing _ => "NullReference"
  | mismatch .. => "TypeMismatch"
  | outOfRange _ => "IndexOutOfRange"
  | sequencing _ => "Sequencing"
  | unsupported _ => "NotImplemented"
  | invalid _ => "InvalidArgument"
  | misread .. => "Parse"
  | format _ => "UnsupportedFormat"
  | rejected _ => "Backend"
  | stream _ => "Io"
  | breach _ => "Panic"

/-- The text of a fault. -/
def Fault.message : Fault → String
  | missing what => "null reference: " ++ what.message
  | mismatch expected found =>
    s!"type mismatch: expected {expected.message}, found {found.message}"
  | outOfRange what => "index out of range: " ++ what.message
  | sequencing what => "sequencing error: " ++ what.message
  | unsupported what => "not implemented: " ++ what.message
  | invalid what => "invalid argument: " ++ what.message
  | misread position what => s!"parse error at token {position}: {what.message}"
  | format path => "unsupported output format: " ++ path
  | rejected what => "backend error: " ++ what.message
  | stream what => what.message
  | breach what => what.message

end Dataflow
