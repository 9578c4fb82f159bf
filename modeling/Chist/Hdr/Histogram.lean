import Chist.Rust

/-!
# The histogram of the vendored `hdrhistogram` crate

`Histogram<u64>` as the program uses it: the slot arithmetic, the constructors
(`new_with_bounds`, `new_from` and the locally added `new_from_snapshot`) and the bookkeeping of
the maximum, the minimum and the total. `Counter` is instantiated at `u64`, the only counter of
the program. Samples are recorded and histograms added in `Chist.Hdr.Ops`.
-/

set_option autoImplicit false

namespace Chist.Hdr

open Res

def originalMin : Nat := u64Max

/-- `ORIGINAL_MAX`: the maximum of a new histogram. -/
def originalMax : Nat := 0

inductive CreationError
  | lowIsZero
  | lowExceedsMax
  | highLessThanTwiceLow
  | sigFigExceedsMax
  | cannotRepresentSigFigBeyondLow
  | usizeTypeTooSmall
  deriving DecidableEq, Repr

inductive UsizeTypeTooSmall
  | mk
  deriving DecidableEq, Repr

/-- `Histogram<u64>`. -/
structure Histogram where
  autoResize : Bool
  highestTrackableValue : Nat
  lowestDiscernibleValue : Nat
  significantValueDigits : Nat
  bucketCount : Nat
  subBucketCount : Nat
  subBucketHalfCount : Nat
  subBucketHalfCountMagnitude : Nat
  subBucketMask : Nat
  leadingZeroCountBase : Nat
  unitMagnitude : Nat
  unitMagnitudeMask : Nat
  maxValue : Nat
  minNonZeroValue : Nat
  totalCount : Nat
  counts : List Nat
  deriving DecidableEq, Repr

/-- `HistogramSnapshot<u64>`. -/
structure HistogramSnapshot where
  lowestTrackableValue : UInt64
  highestTrackableValue : UInt64
  significantFigures : UInt8
  counts : List UInt64
  deriving DecidableEq, Repr

namespace Histogram

variable {ε : Type} (h : Histogram)

/-! ## Read-outs -/

def distinctValues : Nat := h.counts.length

def len : Nat := h.totalCount

def lastIndex : Res ε Nat :=
  if h.distinctValues = 0 then .panic (.expect "Empty counts array?")
  else .ok (h.distinctValues - 1)

/-- `count_at_index`: `None` out of bounds. -/
def countAtIndex (index : Nat) : Option Nat := h.counts[index]?

/-! ## Slot arithmetic -/

/-- `bucket_for`: the lowest bucket whose sub-buckets can represent `value`. -/
def bucketFor (value : Nat) : Res ε Nat :=
  subU h.leadingZeroCountBase (leadingZeros64 (value ||| h.subBucketMask))

/-- `sub_bucket_for`: the position of `value` inside its bucket. -/
def subBucketFor (value bucketIndex : Nat) : Res ε Nat := do
  let shift ← checkU 8 (bucketIndex + h.unitMagnitude)
  let x ← shrU 64 value shift
  return x % 2 ^ 32

def valueFromLoc (bucketIndex subBucketIndex : Nat) : Res ε Nat := do
  let shift ← checkU 8 (bucketIndex + h.unitMagnitude)
  shlU 64 subBucketIndex shift

/-- `index_for`: `None` if the index does not fit in `usize`. -/
def indexFor (value : Nat) : Res ε (Option Nat) := do
  let bucketIndex ← h.bucketFor value
  let subBucketIndex ← h.subBucketFor value bucketIndex
  assert "sub_bucket_index < self.sub_bucket_count" (subBucketIndex < h.subBucketCount)
  assert "bucket_index == 0 || sub_bucket_index >= self.sub_bucket_half_count"
    (bucketIndex = 0 ∨ h.subBucketHalfCount ≤ subBucketIndex)
  -- the first entry of the bucket that is used, halfway through it
  let bucketBaseIndex ← shlI32 (bucketIndex + 1) h.subBucketHalfCountMagnitude
  -- negative only in the lower half of bucket 0
  let offsetInBucket ← checkI32 ((subBucketIndex : Int) - h.subBucketHalfCount)
  let index ← checkI32 (bucketBaseIndex + offsetInBucket)
  assert "index >= 0" (0 ≤ index)
  return if 0 ≤ index then some index.toNat else none

/-- `value_for`: the lowest value of the slot at `index`. -/
def valueFor (index : Nat) : Res ε Nat := do
  let q ← shrU 64 index h.subBucketHalfCountMagnitude
  let bucketIndex : Int := (q : Int) - 1
  let index32 ← Res.expect (ε := Unit) "index must fit in u32" (checkU 32 index)
  let halfMask ← subU h.subBucketHalfCount 1
  let subBucketIndex ← checkU 32 ((index32 &&& halfMask) + h.subBucketHalfCount)
  if bucketIndex < 0 then
    -- the lower half of the first bucket
    let subBucketIndex ← subU subBucketIndex h.subBucketHalfCount
    h.valueFromLoc 0 subBucketIndex
  else
    h.valueFromLoc (bucketIndex.toNat % 2 ^ 8) subBucketIndex

def lowestEquivalent (value : Nat) : Res ε Nat := do
  let bucketIndex ← h.bucketFor value
  let subBucketIndex ← h.subBucketFor value bucketIndex
  h.valueFromLoc bucketIndex subBucketIndex

def equivalentRange (value : Nat) : Res ε Nat := do
  let bucketIndex ← h.bucketFor value
  let shift ← checkU 8 (h.unitMagnitude + bucketIndex)
  shlU 64 1 shift

def nextNonEquivalent (value : Nat) : Res ε Nat := do
  let lowest ← h.lowestEquivalent value
  let range ← h.equivalentRange value
  return satAdd64 lowest range

def highestEquivalent (value : Nat) : Res ε Nat := do
  if value = u64Max then return u64Max
  let next ← h.nextNonEquivalent value
  subU next 1

/-- `max`: the highest value equivalent to the maximum. -/
def max : Res ε Nat :=
  if h.maxValue = originalMax then .ok originalMax else h.highestEquivalent h.maxValue

/-- `min_nz`: the lowest value equivalent to the non-zero minimum. -/
def minNz : Res ε Nat :=
  if h.minNonZeroValue = originalMin then .ok originalMin
  else h.lowestEquivalent h.minNonZeroValue

/-! ## Size -/

/-- The loop of `buckets_to_cover`. The first argument bounds the doublings: a `u64` has at most
64 of them, so the loop never runs out (`bucketsToCover_eq`). -/
def bucketsToCoverLoop (value : Nat) : Nat → Nat → Nat → Res ε Nat
  | 0, _, bucketsNeeded => .ok bucketsNeeded
  | fuel + 1, smallestUntrackableValue, bucketsNeeded => do
    if smallestUntrackableValue ≤ value then
      if u64Max / 2 < smallestUntrackableValue then
        -- the next shift would overflow: the next bucket is the last
        checkU 8 (bucketsNeeded + 1)
      else
        let smallestUntrackableValue ← shlU 64 smallestUntrackableValue 1
        let bucketsNeeded ← checkU 8 (bucketsNeeded + 1)
        bucketsToCoverLoop value fuel smallestUntrackableValue bucketsNeeded
    else
      .ok bucketsNeeded

/-- `buckets_to_cover`: the number of buckets needed to represent `value`. -/
def bucketsToCover (value : Nat) : Res ε Nat := do
  let smallestUntrackableValue ← shlU 64 h.subBucketCount h.unitMagnitude
  bucketsToCoverLoop value 65 smallestUntrackableValue 1

/-- `num_bins`: the slots of that many buckets, and the lower half of the first. -/
def numBins (numberOfBuckets : Nat) : Res ε Nat := do
  let n ← checkU 32 (numberOfBuckets + 1)
  checkU 32 (n * h.subBucketHalfCount)

/-- `Vec::resize(len, 0)`. -/
def resizeCounts (counts : List Nat) (len : Nat) : List Nat :=
  counts.take len ++ List.replicate (len - counts.length) 0

def resize (high : Nat) : Res UsizeTypeTooSmall Histogram := do
  let twiceLow ← checkU 64 (2 * h.lowestDiscernibleValue)
  assert "highest trackable value must be >= (2 * lowest discernible value)" (twiceLow ≤ high)
  let bucketsNeeded ← h.bucketsToCover high
  let len ← h.numBins bucketsNeeded
  return { h with
    bucketCount := bucketsNeeded
    highestTrackableValue := high
    counts := resizeCounts h.counts len }

/-! ## Maximum, minimum and total -/

def updateMax (value : Nat) : Histogram :=
  let internalValue := value ||| h.unitMagnitudeMask
  if h.maxValue < internalValue then { h with maxValue := internalValue } else h

def updateMin (value : Nat) : Histogram :=
  if value ≤ h.unitMagnitudeMask then h
  else
    let internalValue := value &&& not64 h.unitMagnitudeMask
    if internalValue < h.minNonZeroValue then { h with minNonZeroValue := internalValue } else h

def updateMinMax (value : Nat) : Histogram :=
  let h := if h.maxValue < value then h.updateMax value else h
  if value < h.minNonZeroValue ∧ value ≠ 0 then h.updateMin value else h

/-- `reset_max`: unlike `reset_min`, it masks the sentinel too. -/
def resetMax (max : Nat) : Histogram := { h with maxValue := max ||| h.unitMagnitudeMask }

def resetMin (min : Nat) : Histogram :=
  let internalValue := min &&& not64 h.unitMagnitudeMask
  { h with minNonZeroValue := if min = u64Max then min else internalValue }

end Histogram

structure RestatState where
  maxIndex : Option Nat
  minIndex : Option Nat
  totalCount : Nat
  deriving DecidableEq, Repr

namespace RestatState

def new : RestatState := ⟨none, none, 0⟩

def onNonzeroCount (s : RestatState) (index count : Nat) : RestatState where
  totalCount := satAdd64 s.totalCount count
  maxIndex := some index
  minIndex := if s.minIndex.isNone ∧ index ≠ 0 then some index else s.minIndex

def applyMax {ε : Type} (s : RestatState) (h : Histogram) : Res ε Histogram :=
  match s.maxIndex with
  | some i => do
    let value ← h.valueFor i
    let max ← h.highestEquivalent value
    return h.updateMax max
  | none => .ok h

def applyMin {ε : Type} (s : RestatState) (h : Histogram) : Res ε Histogram :=
  match s.minIndex with
  | some i => do
    let min ← h.valueFor i
    return h.updateMin min
  | none => .ok h

def updateHistogram {ε : Type} (s : RestatState) (h : Histogram) : Res ε Histogram := do
  let h ← s.applyMax h
  let h ← s.applyMin h
  return { h with totalCount := s.totalCount }

/-- One turn of the loop of `restat`. -/
def scan (s : RestatState) (slot : Nat × Nat) : RestatState :=
  if slot.1 ≠ 0 then s.onNonzeroCount slot.2 slot.1 else s

end RestatState

namespace Histogram

/-- `restat`: recalculate the maximum, the minimum and the total from the first slots. -/
def restat {ε : Type} (h : Histogram) (lengthToScan : Nat) : Res ε Histogram := do
  let h := (h.resetMax originalMax).resetMin originalMin
  assert "length_to_scan <= self.counts.len()" (lengthToScan ≤ h.counts.length)
  let state := (h.counts.take lengthToScan).zipIdx.foldl RestatState.scan RestatState.new
  state.updateHistogram h

/-! ## Constructors -/

def newWithBounds (fl : Floats) (low high sigfig : Nat) : Res CreationError Histogram := do
  if low < 1 then throw (.err .lowIsZero)
  if u64Max / 2 < low then throw (.err .lowExceedsMax)
  if high < 2 * low then throw (.err .highLessThanTwiceLow)
  if 5 < sigfig then throw (.err .sigFigExceedsMax)
  let largest := 2 * 10 ^ sigfig
  let unitMagnitude := fl.floorLog2 low
  let unitBit ← shlU 64 1 unitMagnitude
  let unitMagnitudeMask ← subU unitBit 1
  let subBucketCountMagnitude := fl.ceilLog2 largest
  let subBucketHalfCountMagnitude ← subU subBucketCountMagnitude 1
  let subBucketCount ← shlU 32 1 subBucketCountMagnitude
  let magnitudes ← checkU 8 (unitMagnitude + subBucketCountMagnitude)
  if 63 < magnitudes then throw (.err .cannotRepresentSigFigBeyondLow)
  let subBucketHalfCount := subBucketCount / 2
  let bits ← subU subBucketCount 1
  let subBucketMask ← shlU 64 bits unitMagnitude
  let afterUnit ← subU 64 unitMagnitude
  let leadingZeroCountBase ← subU afterUnit subBucketCountMagnitude
  let h : Histogram := {
    autoResize := false
    highestTrackableValue := high
    lowestDiscernibleValue := low
    significantValueDigits := sigfig
    -- set by `resize` below
    bucketCount := 0
    subBucketCount
    leadingZeroCountBase
    subBucketHalfCountMagnitude
    unitMagnitude
    subBucketHalfCount
    subBucketMask
    unitMagnitudeMask
    maxValue := originalMax
    minNonZeroValue := originalMin
    totalCount := 0
    counts := [] }
  mapErr (fun _ => .usizeTypeTooSmall) (h.resize high)

/-- `new_from`: an empty histogram with the range settings of `source`. -/
def newFrom {ε : Type} (fl : Floats) (source : Histogram) : Res ε Histogram := do
  let h ← Res.expect "Using another histogram's parameters failed"
    (newWithBounds fl source.lowestDiscernibleValue source.highestTrackableValue
      source.significantValueDigits)
  return { h with
    autoResize := source.autoResize
    counts := resizeCounts h.counts source.distinctValues }

/-- `new_from_snapshot`: the slots are replaced by those of the snapshot, however many. -/
def newFromSnapshot (fl : Floats) (source : HistogramSnapshot) : Res CreationError Histogram := do
  let h ← newWithBounds fl source.lowestTrackableValue.toNat source.highestTrackableValue.toNat
    source.significantFigures.toNat
  let h := { h with counts := source.counts.map UInt64.toNat }
  h.restat h.counts.length

end Histogram

end Chist.Hdr
