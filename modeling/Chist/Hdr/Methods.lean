import Chist.Hdr.Ops

/-!
# The other methods of the histogram

The constructor `new`, the clamping and the correcting ways to record,
`subtract`, `set_to`, `clone`, `sum` and the read-outs by value. A method that can fail after it
has changed the histogram carries the histogram it leaves behind in its `Err`.
-/

set_option autoImplicit false

namespace Chist.Hdr

open Res

inductive SubtractionError
  | subtrahendValueExceedsMinuendRange
  | subtrahendCountExceedsMinuendCount
  deriving DecidableEq, Repr

/-- A method that leaves the histogram `h` as it is if it fails. -/
def leaving {ε : Type} (h : Histogram) (r : Res ε Histogram) : Res (Histogram × ε) Histogram :=
  mapErr (fun e => (h, e)) r

/-- The histogram a method leaves, whether it returns `Ok` or `Err`. -/
def left {ε : Type} : Res (Histogram × ε) Histogram → Option Histogram
  | .ok h => some h
  | .error (.err (h, _)) => some h
  | .error (.panic _) => none

namespace Histogram

variable {ε : Type} (h : Histogram)

/-! ## Construction -/

def auto (enabled : Bool) : Histogram := { h with autoResize := enabled }

/-- `new`: an auto-resizing histogram. -/
def new (fl : Floats) (sigfig : Nat) : Res CreationError Histogram := do
  let h ← newWithBounds fl 1 2 sigfig
  return { h with autoResize := true }

/-! ## Setters and resetters -/

/-- `clear`: the statistics stay, but for the total. -/
def clear : Histogram := { h with counts := h.counts.map fun _ => 0, totalCount := 0 }

def reset : Histogram := (h.clear.resetMax originalMax).resetMin originalMin

/-! ## Recording -/

/-- `saturating_record_n`: record clamped to the range, and unwrap. -/
def saturatingRecordN (value count : Nat) : Res ε Histogram :=
  unwrap "saturating_record_n" (h.recordNInner value count true)

/-- The loop of `record_n_correct`. The first argument bounds the turns, of which there are at
most `missing_value`, `interval` being positive. -/
def missingLoop (count interval : Nat) : Nat → Nat → Histogram →
    Res (Histogram × RecordError) Histogram
  | 0, _, h => .ok h
  | fuel + 1, missingValue, h => do
    if interval ≤ missingValue then
      let h ← leaving h (h.recordNInner missingValue count false)
      let missingValue ← subU missingValue interval
      missingLoop count interval fuel missingValue h
    else
      .ok h

def recordNCorrect (value count interval : Nat) : Res (Histogram × RecordError) Histogram := do
  let h ← leaving h (h.recordN value count)
  if interval = 0 then return h
  if interval < value then
    let missingValue ← subU value interval
    missingLoop count interval missingValue missingValue h
  else
    return h

/-! ## Read-outs by value -/

/-- `min`: 0 if slot 0 is occupied or there are no samples. -/
def min : Res ε Nat := do
  if h.totalCount = 0 then return 0
  let first ← expectSome "counts array must be non-empty" (h.countAtIndex 0)
  if first ≠ 0 then return 0 else h.minNz

def equivalent (value1 value2 : Nat) : Res ε Bool := do
  let lowest1 ← h.lowestEquivalent value1
  let lowest2 ← h.lowestEquivalent value2
  return lowest1 = lowest2

/-- `index_for_or_last`. -/
def indexForOrLast (value : Nat) : Res ε Nat := do
  let index ← h.indexFor value
  let last ← h.lastIndex
  return match index with
    | some i => Nat.min i last
    | none => last

def medianEquivalent (value : Nat) : Res ε Nat := do
  let lowest ← h.lowestEquivalent value
  let range ← h.equivalentRange value
  expectSome "median equivalent should not overflow" (checkedAdd lowest (range >>> 1))

/-- One step of the folds of `count_between` and `quantile_below`. -/
def addCountAt (total i : Nat) : Res ε Nat := do
  let count ← expectSome "index is <= last_index()" (h.countAtIndex i)
  return satAdd64 total count

def countBetween (low high : Nat) : Res ε Nat := do
  let lowIndex ← h.indexForOrLast low
  let highIndex ← h.indexForOrLast high
  let stop ← expectSome "usize overflow" (checkedAdd highIndex 1)
  (List.range' lowIndex (stop - lowIndex)).foldlM h.addCountAt 0

def countAt (value : Nat) : Res ε Nat := do
  let i ← h.indexForOrLast value
  expectSome "index is <= last_index()" (h.countAtIndex i)

/-- `quantile_below`: the two integers whose quotient it returns as an `f64`. -/
def quantileBelow (value : Nat) : Res ε (Nat × Nat) := do
  if h.totalCount = 0 then return (1, 1)
  let targetIndex ← h.indexForOrLast value
  let stop ← expectSome "usize overflow" (checkedAdd targetIndex 1)
  let totalToCurrentIndex ← (List.range' 0 stop).foldlM h.addCountAt 0
  return (totalToCurrentIndex, h.totalCount)

/-! ## Subtracting -/

/-- One turn of the loop of `subtract`: the histogram so far and `needs_restat`, and the next slot
of the subtrahend. -/
def subtractSlot (subtrahend : Histogram) (oldMinHighestEquiv oldMaxLowestEquiv : Nat)
    (acc : Histogram × Bool) (i : Nat) :
    Res (Histogram × SubtractionError) (Histogram × Bool) := do
  let h := acc.1
  let otherCount ← expectSome "index inside subtrahend len must exist" (subtrahend.countAtIndex i)
  if otherCount ≠ 0 then
    let otherValue ← subtrahend.valueFor i
    match ← h.mutAt otherValue with
    | some j =>
      let c ← index h.counts j
      if c < otherCount then throw (.err (h, .subtrahendCountExceedsMinuendCount))
      let h := h.modifyCount j fun _ => c - otherCount
      -- the minimum or the maximum may have lost its samples
      let needsRestat : Bool :=
        acc.2 ∨ otherValue ≤ oldMinHighestEquiv ∨ oldMaxLowestEquiv ≤ otherValue
      if ¬ needsRestat then
        let total ← Res.expect (ε := Unit) "total count underflow on subtraction"
          (subU h.totalCount otherCount)
        return ({ h with totalCount := total }, needsRestat)
      else
        return (h, needsRestat)
    | none => Res.panic (.expect "Tried to subtract value outside of range")
  else
    return acc

def subtract (subtrahend : Histogram) : Res (Histogram × SubtractionError) Histogram := do
  let last ← h.lastIndex
  let lastValue ← h.valueFor last
  let top ← h.highestEquivalent lastValue
  let mx ← subtrahend.max
  let mx ← h.highestEquivalent mx
  if top < mx then throw (.err (h, .subtrahendValueExceedsMinuendRange))
  let oldMin ← h.min
  let oldMinHighestEquiv ← h.highestEquivalent oldMin
  let oldMax ← h.max
  let oldMaxLowestEquiv ← h.lowestEquivalent oldMax
  -- a saturated total has to be recomputed
  let needsRestat : Bool := h.totalCount = u64Max
  let (h, needsRestat) ← (List.range subtrahend.distinctValues).foldlM
    (subtractSlot subtrahend oldMinHighestEquiv oldMaxLowestEquiv) (h, needsRestat)
  if needsRestat then h.restat h.distinctValues else return h

/-! ## Copying and summing -/

/-- `set_to`: emptied before the addition is tried. -/
def setTo (source : Histogram) : Res (Histogram × AdditionError) Histogram :=
  leaving h.reset (h.reset.add source)

/-- `h += source`. -/
def addAssign (source : Histogram) : Res ε Histogram := unwrap "add_assign" (h.add source)

/-- `Clone::clone`. -/
def clone (fl : Floats) : Res ε Histogram := do
  let c ← newFrom fl h
  c.addAssign h

/-- `Sum::sum`. -/
def sum (fl : Floats) : List Histogram → Res ε Histogram
  | [] => Res.expect "histograms with sigfig=3 should always work" (new fl 3)
  | first :: rest => rest.foldlM addAssign first

end Histogram

end Chist.Hdr
