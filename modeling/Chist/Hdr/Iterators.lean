import Chist.Hdr.Methods

/-!
# Iterators

`HistogramIterator`, which goes through the bins of a histogram and asks a picker which to yield,
the pickers of `iter_recorded` and `iter_all`, and the methods that read a histogram through
`iter_recorded`. The quantile of an `IterationValue` is the float
`total_count_to_index as f64 / self.hist.len() as f64`; the model keeps its numerator. Of the
methods with a loop over an iterator, the model returns what the loop leaves behind.
-/

set_option autoImplicit false

namespace Chist.Hdr

open Res

/-- `PickMetadata`, without the quantile only the quantile iterator supplies. -/
structure PickMetadata where
  valueIteratedTo : Option Nat
  deriving DecidableEq, Repr

/-- `PickyIterator`: a picker, whose own state is a `P`. Both methods may change it. -/
structure PickyIterator (ε P : Type) where
  pick (picker : P) (index totalCountToIndex countAtIndex : Nat) : Res ε (Option PickMetadata × P)
  more (picker : P) (indexToPick : Nat) : Res ε (Bool × P)

structure IterationValue where
  valueIteratedTo : Nat
  totalCountToIndex : Nat
  countAtValue : Nat
  countSinceLastIteration : Nat
  deriving DecidableEq, Repr

/-- `HistogramIterator`, apart from the histogram it borrows. -/
structure HistogramIterator (P : Type) where
  totalCountToIndex : Nat
  countSinceLastIteration : Nat
  countAtIndex : Nat
  currentIndex : Nat
  lastPickedIndex : Nat
  maxValueIndex : Nat
  fresh : Bool
  ended : Bool
  picker : P
  deriving DecidableEq, Repr

/-- What a turn of the loop of `next` comes to. -/
inductive Turn
  | stop
  | yield (value : IterationValue)
  | on
  deriving DecidableEq, Repr

namespace HistogramIterator

variable {ε P : Type}

def new (h : Histogram) (picker : P) : Res ε (HistogramIterator P) := do
  let mx ← h.max
  let index ← h.indexFor mx
  let maxValueIndex ← expectSome "Either 0 or an existing index" index
  return {
    totalCountToIndex := 0
    countSinceLastIteration := 0
    countAtIndex := 0
    currentIndex := 0
    lastPickedIndex := 0
    maxValueIndex := maxValueIndex
    picker := picker
    fresh := true
    ended := false }

variable (pk : PickyIterator ε P) (h : Histogram) (it : HistogramIterator P)

/-- The count of a fresh index, added once. -/
def count : Res ε (HistogramIterator P) := do
  assert "self.current_index < self.hist.distinct_values()" (it.currentIndex < h.distinctValues)
  if it.fresh then
    let c ← expectSome "Already checked that current_index is < counts len"
      (h.countAtIndex it.currentIndex)
    return { it with
      countAtIndex := c
      totalCountToIndex := satAdd64 it.totalCountToIndex c
      countSinceLastIteration := satAdd64 it.countSinceLastIteration c
      fresh := false }
  else
    return it

/-- The end of a turn: does the picker yield this value? The index stays if it does. -/
def offer : Res ε (Turn × HistogramIterator P) := do
  let (metadata, picker) ←
    pk.pick it.picker it.currentIndex it.totalCountToIndex it.countAtIndex
  match metadata with
  | some metadata =>
    let valueIteratedTo ← match metadata.valueIteratedTo with
      | some value => pure value
      | none => do
        let value ← h.valueFor it.currentIndex
        h.highestEquivalent value
    let countAtValue ← expectSome "current index cannot exceed counts length"
      (h.countAtIndex it.currentIndex)
    let value := ⟨valueIteratedTo, it.totalCountToIndex, countAtValue, it.countSinceLastIteration⟩
    return (.yield value, { it with
      picker := picker
      countSinceLastIteration := 0
      lastPickedIndex := it.currentIndex })
  | none =>
    let next ← checkU 64 (it.currentIndex + 1)
    return (.on, { it with picker := picker, currentIndex := next, fresh := true })

/-- One turn of the loop of `next`. -/
def turn : Res ε (Turn × HistogramIterator P) := do
  if it.currentIndex = h.distinctValues then return (.stop, { it with ended := true })
  if it.maxValueIndex ≤ it.lastPickedIndex then
    let (more, picker) ← pk.more it.picker it.currentIndex
    let it := { it with picker := picker }
    if ¬ more then return (.stop, { it with ended := true })
    offer pk h it
  else
    let it ← count h it
    offer pk h it

/-- The loop of `next`. The first argument bounds the turns: each goes on to the next index. -/
def nextLoop : Nat → HistogramIterator P → Res ε (Option IterationValue × HistogramIterator P)
  | 0, it => .ok (none, it)
  | turns + 1, it => do
    if it.ended then return (none, it)
    match ← turn pk h it with
    | (.stop, it) => return (none, it)
    | (.yield value, it) => return (some value, it)
    | (.on, it) => nextLoop turns it

def next : Res ε (Option IterationValue × HistogramIterator P) :=
  nextLoop pk h (h.distinctValues + 1) it

/-- `for value in iterator { .. }`. The first argument bounds the values yielded. -/
def forEach {σ : Type} (body : σ → IterationValue → Res ε σ) :
    Nat → HistogramIterator P → σ → Res ε σ
  | 0, _, acc => .ok acc
  | fuel + 1, it, acc => do
    match ← next pk h it with
    | (none, _) => return acc
    | (some value, it) =>
      let acc ← body acc value
      forEach body fuel it acc

end HistogramIterator

/-! ## The pickers of bins -/

section
variable {ε : Type}

/-- A bin that is wanted, the first time it is seen. -/
def pickOnce (wanted : Bool) (visited : Option Nat) (index : Nat) :
    Option PickMetadata × Option Nat :=
  if wanted ∧ visited ≠ some index then (some ⟨none⟩, some index) else (none, visited)

/-- `iterators::recorded::Iter`: the bins with at least one sample. -/
def recordedIter : PickyIterator ε (Option Nat) where
  pick visited index _ countAtIndex := return pickOnce (countAtIndex ≠ 0) visited index
  more visited _ := return (false, visited)

/-- `iterators::all::Iter`: every bin. -/
def allIter : PickyIterator ε (Option Nat) where
  pick visited index _ _ := return pickOnce true visited index
  more visited _ := return (true, visited)

/-- The state of `iterators::linear::Iter`. -/
structure LinearPicker where
  valueUnitsPerBucket : Nat
  currentStepHighestValueReportingLevel : Nat
  currentStepLowestValueReportingLevel : Nat
  deriving DecidableEq, Repr

/-- `iterators::linear::Iter`: steps of `value_units_per_bucket` values. -/
def linearIter (h : Histogram) : PickyIterator ε LinearPicker where
  pick p index _ _ := do
    let val ← h.valueFor index
    let wanted : Bool ←
      if p.currentStepLowestValueReportingLevel ≤ val then pure true
      else do
        let last ← h.lastIndex
        pure (decide (index = last))
    if wanted then
      let highest ← checkU 64 (p.currentStepHighestValueReportingLevel + p.valueUnitsPerBucket)
      let lowest ← h.lowestEquivalent highest
      return (some ⟨some p.currentStepHighestValueReportingLevel⟩, { p with
        currentStepHighestValueReportingLevel := highest
        currentStepLowestValueReportingLevel := lowest })
    else
      return (none, p)
  more p indexToPick := do
    let nextIndex ← expectSome "usize overflow"
      (checkedAdd indexToPick 1)
    let val ← h.valueFor nextIndex
    return (decide (p.currentStepHighestValueReportingLevel < val), p)

/-- `iterators::linear::Iter::new`. -/
def linearIterator (h : Histogram) (valueUnitsPerBucket : Nat) :
    Res ε (HistogramIterator LinearPicker) := do
  assert "value_units_per_bucket must be > 0" (0 < valueUnitsPerBucket)
  let lowest ← h.lowestEquivalent (valueUnitsPerBucket - 1)
  HistogramIterator.new h ⟨valueUnitsPerBucket, valueUnitsPerBucket - 1, lowest⟩

namespace Histogram

variable (h : Histogram)

/-- A loop over the bins a picker takes, each at most once. -/
def forBins {σ : Type} (pk : PickyIterator ε (Option Nat)) (body : σ → IterationValue → Res ε σ)
    (acc : σ) : Res ε σ := do
  let it ← HistogramIterator.new h none
  it.forEach pk h body (h.distinctValues + 1) acc

def iterRecorded : Res ε (List IterationValue) :=
  h.forBins recordedIter (fun vs v => return vs ++ [v]) []

def iterAll : Res ε (List IterationValue) :=
  h.forBins allIter (fun vs v => return vs ++ [v]) []

/-! ## Correcting for coordinated omission -/

def addCorrect (source : Histogram) (interval : Nat) :
    Res (Histogram × RecordError) Histogram :=
  source.forBins recordedIter
    (fun h v => h.recordNCorrect v.valueIteratedTo v.countAtValue interval) h

def cloneCorrect (fl : Floats) (interval : Nat) : Res ε Histogram := do
  let c ← newFrom fl h
  h.forBins recordedIter (fun c v =>
    Res.expect "Same dimensions; all values should be representable"
      (c.recordNCorrect v.valueIteratedTo v.countAtValue interval)) c

/-- `set_to_corrected`: emptied before the addition is tried. -/
def setToCorrected (source : Histogram) (interval : Nat) :
    Res (Histogram × RecordError) Histogram :=
  h.reset.addCorrect source interval

end Histogram

end

end Chist.Hdr
