import Chist.Hdr.Ops

/-!
# Histogram records and file cursors

The records of a `cockroach workload` histogram file, and `HistFileWalkState`, the cursor the
program keeps in each file. `chrono`'s `DateTime<Utc>` is an instant in nanoseconds since the
epoch, within the range of `MIN_DATETIME..=MAX_DATETIME`; an instant within a leap second is not
represented.
-/

set_option autoImplicit false

namespace Chist

open Res

/-! ## Time -/

/-- `MIN_DATETIME`, -262144-01-01T00:00:00Z, in nanoseconds since the epoch. -/
def minDateTime : Int := -8334632851200 * 10 ^ 9

/-- `MAX_DATETIME`, 262143-12-31T23:59:59.999999999Z. -/
def maxDateTime : Int := 8210298412799 * 10 ^ 9 + 999999999

structure DateTime where
  nanos : Int
  inRange : minDateTime ≤ nanos ∧ nanos ≤ maxDateTime
  deriving DecidableEq

namespace DateTime

/-- `t - u` in whole milliseconds, rounded towards zero (`num_milliseconds`). -/
def millisSince (t u : DateTime) : Int := (t.nanos - u.nanos).tdiv 1000000

/-- `(t - u).num_milliseconds().abs()`. -/
def millisApart (t u : DateTime) : Nat := (t.millisSince u).natAbs

/-- `t + Duration::nanoseconds(d)`. -/
def add {ε : Type} (t : DateTime) (d : Nat) : Res ε DateTime :=
  if h : minDateTime ≤ t.nanos + d ∧ t.nanos + d ≤ maxDateTime then .ok ⟨t.nanos + d, h⟩
  else .panic (.expect "`DateTime + Duration` overflowed")

end DateTime

/-! ## Records -/

/-- `HistSnapshot`: the `Hist` object of a record. -/
structure HistSnapshot where
  lowestTrackableValue : UInt64
  highestTrackableValue : UInt64
  significantFigures : UInt8
  counts : List UInt64
  deriving DecidableEq

structure HistRecord where
  name : String
  elapsed : UInt64
  now : DateTime
  hist : HistSnapshot
  deriving DecidableEq

/-- `HistogramSnapshot::from`. -/
def HistSnapshot.toSnapshot (s : HistSnapshot) : Hdr.HistogramSnapshot where
  lowestTrackableValue := s.lowestTrackableValue
  highestTrackableValue := s.highestTrackableValue
  significantFigures := s.significantFigures
  counts := s.counts

/-- `elapsed.try_into().unwrap()` to the `i64` of `Duration::nanoseconds`. -/
def HistRecord.elapsedNanos {ε : Type} (r : HistRecord) : Res ε Nat :=
  if r.elapsed.toNat < 2 ^ 63 then .ok r.elapsed.toNat else .panic (.unwrap "elapsed.try_into()")

/-- The errors of `chist print` once the files are read. -/
inductive ChistError
  | nameMismatch (label : String) (record : Nat) (expected found : String)
  | loadingHistogram (e : Hdr.CreationError)
  | addingHistograms (e : Hdr.AdditionError)
  deriving DecidableEq, Repr

/-! ## Cursors -/

/-- `HistFileWalkState`: a file's records and the index of the next one. -/
structure HistFileWalkState where
  label : String
  records : List HistRecord
  ri : Nat
  deriving DecidableEq

namespace HistFileWalkState

variable (walk : HistFileWalkState)

def peekNextTime : Option DateTime := walk.records[walk.ri]?.map (·.now)

def peekRecord {ε : Type} : Res ε HistRecord := index walk.records walk.ri

/-- `maybe_eat_record_time_name`: the next record, if there is one, and the cursor after it. The
name is compared only when the record is closer to `t1` than to `t2`; a record that is not is
eaten as well. -/
def maybeEatRecordTimeName (t1 t2 : DateTime) (name : String) :
    Res ChistError (Option HistRecord × HistFileWalkState) :=
  match walk.records[walk.ri]? with
  | none => .ok (none, walk)
  | some next =>
    let d1 := next.now.millisApart t1
    let d2 := next.now.millisApart t2
    if d1 < d2 ∧ next.name ≠ name then
      .err (.nameMismatch walk.label (walk.ri + 1) name next.name)
    else
      .ok (some next, { walk with ri := walk.ri + 1 })

end HistFileWalkState

end Chist
