import Chist.Hdr.Histogram

/-!
# Recording, adding and quantiles

`record_n`, `add`, `value_at_quantile` and the equality of `Histogram<u64>`.
-/

set_option autoImplicit false

namespace Chist.Hdr

open Res

inductive RecordError
  | valueOutOfRangeResizeDisabled
  | resizeFailedUsizeTypeTooSmall
  deriving DecidableEq, Repr

inductive AdditionError
  | otherAddendValueExceedsRange
  | resizeFailedUsizeTypeTooSmall
  deriving DecidableEq, Repr

namespace Histogram

variable {ε : Type} (h : Histogram)

/-! ## Recording -/

/-- `mut_at`: the index of the slot of `value`, if it is in range. -/
def mutAt (value : Nat) : Res ε (Option Nat) := do
  match ← h.indexFor value with
  | some i => return if i < h.counts.length then some i else none
  | none => return none

/-- `*c = f(*c)` for the slot at index `i`. -/
def modifyCount (i : Nat) (f : Nat → Nat) : Histogram := { h with counts := h.counts.modify i f }

/-- The branch of `record_n_inner` that grows the histogram. -/
def recordResized (value count : Nat) : Res RecordError Histogram := do
  let h ← mapErr (fun _ => .resizeFailedUsizeTypeTooSmall) (h.resize value)
  let last ← h.lastIndex
  let lastValue ← h.valueFor last
  let high ← h.highestEquivalent lastValue
  let h := { h with highestTrackableValue := high }
  let i ← h.mutAt value
  let i ← expectSome "value should fit after resize" i
  let c ← index h.counts i
  let c ← Res.expect (ε := Unit) "count overflow after resize" (checkU 64 (c + count))
  return h.modifyCount i fun _ => c

def recordNInner (value count : Nat) (clamp : Bool) : Res RecordError Histogram := do
  match ← h.mutAt value with
  | some i =>
    let h := h.modifyCount i (satAdd64 · count)
    let h := h.updateMinMax value
    return { h with totalCount := satAdd64 h.totalCount count }
  | none =>
    if clamp then
      let value := if h.highestTrackableValue < value then h.highestTrackableValue
        else h.lowestDiscernibleValue
      let i ← h.mutAt value
      let i ← expectSome "unwrap must succeed since low and high are always representable" i
      let h := h.modifyCount i (satAdd64 · count)
      let h := h.updateMinMax value
      return { h with totalCount := satAdd64 h.totalCount count }
    else if ¬ h.autoResize then
      throw (.err .valueOutOfRangeResizeDisabled)
    else
      let h ← h.recordResized value count
      let h := h.updateMinMax value
      return { h with totalCount := satAdd64 h.totalCount count }

def recordN (value count : Nat) : Res RecordError Histogram := h.recordNInner value count false

/-! ## Adding -/

/-- One turn of the loop of `add` over equal configurations: the slots so far and the total
observed, and the next slot of the other histogram. -/
def addSlot (acc : List Nat × Nat) (slot : Nat × Nat) : Res ε (List Nat × Nat) := do
  let otherCount := slot.1
  if otherCount ≠ 0 then
    let c ← index acc.1 slot.2
    return (acc.1.set slot.2 (satAdd64 c otherCount), satAdd64 acc.2 otherCount)
  else
    return acc

/-- The branch of `add` for equal configurations: slot by slot. -/
def addDirect (source : Histogram) : Res ε Histogram := do
  let acc ← source.counts.zipIdx.foldlM addSlot (h.counts, 0)
  let h := { h with counts := acc.1, totalCount := satAdd64 h.totalCount acc.2 }
  let mx ← source.max
  let selfMax ← h.max
  let h := if selfMax < mx then h.updateMax mx else h
  let mn ← source.minNz
  let selfMin ← h.minNz
  return if mn < selfMin then h.updateMin mn else h

/-- One turn of the loop of `add` over different configurations. -/
def addValue (source : Histogram) (h : Histogram) (i : Nat) : Res ε Histogram := do
  let otherCount ← expectSome "index before max must exist" (source.countAtIndex i)
  if otherCount ≠ 0 then
    let value ← source.valueFor i
    Res.expect "Record must succeed; already recorded max value" (h.recordN value otherCount)
  else
    return h

/-- The branch of `add` for different configurations: value by value, the maximum first. -/
def addByValue (source : Histogram) : Res ε Histogram := do
  let mx ← source.max
  let otherMaxIndex ← source.indexFor mx
  let otherMaxIndex ← expectSome "Index for max value must exist" otherMaxIndex
  let otherCount ← expectSome "max's index must exist" (source.countAtIndex otherMaxIndex)
  let value ← source.valueFor otherMaxIndex
  let h ← Res.expect "Record must succeed; already resized for max value"
    (h.recordN value otherCount)
  (List.range otherMaxIndex).foldlM (addValue source) h

/-- The counts arrays of the two histograms have the same length and meaning. -/
def sameConfig (source : Histogram) : Bool :=
  h.bucketCount = source.bucketCount ∧ h.subBucketCount = source.subBucketCount ∧
    h.unitMagnitude = source.unitMagnitude

/-- The start of `add`: make sure the values in `source` fit. -/
def makeRoom (source : Histogram) : Res AdditionError Histogram := do
  let last ← h.lastIndex
  let lastValue ← h.valueFor last
  let top ← h.highestEquivalent lastValue
  let mx ← source.max
  if mx ≤ top then return h
  else if ¬ h.autoResize then throw (.err .otherAddendValueExceedsRange)
  else mapErr (fun _ => .resizeFailedUsizeTypeTooSmall) (h.resize mx)

def add (source : Histogram) : Res AdditionError Histogram := do
  let h ← h.makeRoom source
  if h.sameConfig source then h.addDirect source else h.addByValue source

/-! ## Quantiles -/

/-- The loop of `value_at_quantile`: the first index whose running total reaches `target`. -/
def quantileIndex (target : Nat) : List Nat → Nat → Nat → Res ε (Option Nat)
  | [], _, _ => .ok none
  | c :: counts, i, totalToCurrentIndex => do
    let totalToCurrentIndex ← checkU 64 (totalToCurrentIndex + c)
    if target ≤ totalToCurrentIndex then .ok (some i)
    else quantileIndex target counts (i + 1) totalToCurrentIndex

/-- The count `value_at_quantile` looks for, at least the first recorded entry. -/
def countAtQuantile (fl : Floats) (quantile : Rat) (totalCount : Nat) : Nat :=
  let quantile := if 1 < quantile then 1 else quantile
  let count := fl.ceilMul quantile totalCount
  if count = 0 then 1 else count

def valueAtQuantile (fl : Floats) (quantile : Rat) : Res ε Nat := do
  match ← quantileIndex (countAtQuantile fl quantile h.totalCount) h.counts 0 0 with
  | some i =>
    let valueAtIndex ← h.valueFor i
    if quantile = 0 then h.lowestEquivalent valueAtIndex else h.highestEquivalent valueAtIndex
  | none => return 0

/-! ## Equality -/

/-- `PartialEq::eq`. -/
def eq (other : Histogram) : Res ε Bool := do
  if h.lowestDiscernibleValue ≠ other.lowestDiscernibleValue ∨
      h.significantValueDigits ≠ other.significantValueDigits then return false
  if h.totalCount ≠ other.totalCount then return false
  if (← h.max) ≠ (← other.max) then return false
  if (← h.minNz) ≠ (← other.minNz) then return false
  return (List.range h.counts.length).all fun i => h.counts[i]? = other.countAtIndex i

end Histogram

end Chist.Hdr
