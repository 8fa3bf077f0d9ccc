import Dataflow.Code.Emit

/-!
# Counted loops

Emission of a loop over `i = start, start + step, …` below a bound. Beginning a loop leaves the
emitter in the loop's body; ending it goes on behind the loop. Loops nest, one value of
`CountedLoop` for each level.

The variable only takes the value `i + step` while `i` is below the limit `bound - step`; past
that it jumps to the bound, so it never wraps.
-/

namespace Dataflow.Code

/-- What has to be remembered of a loop between its beginning and its end. -/
structure LoopParts where
  condition : BlockId
  body : BlockId
  increment : BlockId
  after : BlockId
  slot : Slot
  var : VarId
  step : ValueId
  limit : ValueId
  bound : ValueId
  deriving DecidableEq, Repr

inductive CountedLoop
  | idle
  | opened (parts : LoopParts)
  | closed (parts : LoopParts)
  deriving DecidableEq, Repr

namespace CountedLoop

instance : Inhabited CountedLoop := ⟨idle⟩

def bodyBlock? : CountedLoop → Option BlockId
  | idle => none
  | opened parts | closed parts => some parts.body

def requireIdle : CountedLoop → Emit Unit
  | idle => return ()
  | opened _ => throw (.sequencing .loopBegunTwice)
  | closed _ => throw (.sequencing .loopFinished)

/-- The blocks of a loop, entered up to where the variable holds the start. The step, the limit
and the bound are emitted into the same block. -/
def enter (start : Literal) (numbers : Emit (ValueId × ValueId × ValueId)) : Emit LoopParts := do
  let init ← Emit.createBlock "for.init"
  let condition ← Emit.createBlock "for.cond"
  let body ← Emit.createBlock "for.body"
  let increment ← Emit.createBlock "for.inc"
  let after ← Emit.createBlock "for.after"
  Emit.jump init
  Emit.switchTo init
  let (slot, var) ← Emit.scratch (← Emit.literal start)
  let (step, limit, bound) ← numbers
  return { condition, body, increment, after, slot, var, step, limit, bound }

/-- The test at the head of the loop, after which the body is open. -/
def test (parts : LoopParts) : Emit CountedLoop := do
  Emit.jump parts.condition
  Emit.switchTo parts.condition
  let i ← Emit.getVar parts.var
  let continues ← Emit.compare .less i parts.bound
  Emit.branch continues parts.body parts.after
  Emit.switchTo parts.body
  return opened parts

/-- The 32 bit number next to `n`. -/
def saturate (n : Int) : Int32 := Int32.ofInt (Ieee.clamp (-2147483648) 2147483647 n)

/-- A loop over `i = start; i < bound; i += step`. -/
def beginRange (l : CountedLoop) (start bound step : Int32) : Emit CountedLoop := do
  if step ≤ 0 then
    throw (.invalid (.loopStep step.toInt))
  l.requireIdle
  let parts ← enter (.i32 start) do
    let stepValue ← Emit.literal (.i32 step)
    let limit ← Emit.literal (.i32 (saturate (bound.toInt - step.toInt)))
    return (stepValue, limit, ← Emit.literal (.i32 bound))
  test parts

/-- A loop that runs `count` times, with `i` from zero. -/
def begin (l : CountedLoop) (count : Int32) : Emit CountedLoop := l.beginRange 0 count 1

def one : Ty → Literal
  | .i64 => .i64 1
  | _ => .i32 1

/-- A loop that runs as many times as a value computed at run time says. The limit wraps only
for the least number, and then the body never runs. -/
def beginDynamic (l : CountedLoop) (count : ValueId) : Emit CountedLoop := do
  let t ← Emit.valueType count
  if !t.isInteger then
    throw (.mismatch .integerCount (.code t))
  l.requireIdle
  let parts ← enter (.zero t) do
    let step ← Emit.literal (one t)
    let limit ← Emit.binary .subtract count step
    return (step, limit, count)
  test parts

/-- Closes the body and goes on behind the loop. -/
def finish : CountedLoop → Emit CountedLoop
  | opened parts => do
    Emit.jump parts.increment
    Emit.switchTo parts.increment
    let i ← Emit.getVar parts.var
    let stepped ← Emit.binary .add i parts.step
    let inRange ← Emit.compare .less i parts.limit
    let next ← Emit.select inRange stepped parts.bound
    Emit.setVar parts.var next
    Emit.jump parts.condition
    Emit.switchTo parts.after
    Emit.freeScratch parts.slot
    return closed parts
  | idle | closed _ => throw (.sequencing .loopNotBegun)

/-- The loop variable, inside the body. -/
def counter : CountedLoop → Emit ValueId
  | opened parts => Emit.getVar parts.var
  | idle | closed _ => throw (.sequencing .loopNotOpen)

end CountedLoop

end Dataflow.Code
