import Chist.Walk

/-!
# `chist summarize`

`do_summarize` on the records of one file, as the list of lines it prints.
-/

set_option autoImplicit false

namespace Chist

open Res

/-- A line `do_summarize` prints. -/
inductive SummaryLine
  | totalRecords (n : Nat)
  | distinctNames (names : List String)
  | timestampWarning (record : Nat) (expected found : DateTime)
  | nameWarning (record : Nat) (expected found : String)
  | initialTimestamp (t : DateTime)
  | expectedTimestamps (n : Nat)
  | expectedInterval (millis : Int)
  | secondTimestamp (t : DateTime) (millis : Int)
  | finalTimestamp (t : DateTime) (millis : Int)
  deriving DecidableEq

/-- `names`: the names up to the first that is repeated (`set` and `names` hold the same). -/
def collectNames : List HistRecord → List String → List String
  | [], names => names
  | rec :: records, names =>
    if rec.name ∈ names then names else collectNames records (names ++ [rec.name])

/-- `which` and `current_timestamp`. -/
structure CheckState where
  which : Nat
  currentTimestamp : Option DateTime

/-- `%` on `usize`. -/
def remU {ε : Type} (a b : Nat) : Res ε Nat := if b = 0 then .panic .divByZero else .ok (a % b)

/-- `/` on `usize`. -/
def divU {ε : Type} (a b : Nat) : Res ε Nat := if b = 0 then .panic .divByZero else .ok (a / b)

/-- `/` on `i64`, by a non-negative number. -/
def divI {ε : Type} (a : Int) (b : Nat) : Res ε Int :=
  if b = 0 then .panic .divByZero else .ok (a.tdiv b)

/-- The timestamp check: its warning, and `current_timestamp` after it. -/
def checkTimestamp {ε : Type} (s : CheckState) (whichname : Nat) (rec : HistRecord) :
    Res ε (List SummaryLine × Option DateTime) :=
  if whichname = 0 then .ok ([], some rec.now)
  else do
    let current ← unwrapSome "current_timestamp" s.currentTimestamp
    return (if current ≠ rec.now then [.timestampWarning (s.which + 1) current rec.now] else [],
      s.currentTimestamp)

/-- One turn of the checking loop: the warnings it prints and the state after it. The number of a
name warning is taken after `which` was bumped. -/
def checkRecord {ε : Type} (names : List String) (s : CheckState) (rec : HistRecord) :
    Res ε (List SummaryLine × CheckState) := do
  let whichname ← remU s.which names.length
  let (timestampWarnings, currentTimestamp) ← checkTimestamp s whichname rec
  let i ← remU s.which names.length
  let expected ← index names i
  let which := s.which + 1
  let nameWarnings :=
    if expected ≠ rec.name then [.nameWarning (which + 1) expected rec.name] else []
  return (timestampWarnings ++ nameWarnings, ⟨which, currentTimestamp⟩)

def checkRecords {ε : Type} (names : List String) :
    CheckState → List HistRecord → Res ε (List SummaryLine)
  | _, [] => .ok []
  | s, rec :: records => do
    let (warnings, s) ← checkRecord names s rec
    let rest ← checkRecords names s records
    return warnings ++ rest

/-- The report on the interval between timestamps, when there is more than one group. -/
def reportInterval {ε : Type} (records : List HistRecord) (names : List String) :
    Res ε (List SummaryLine) := do
  if names.length < records.length then
    let first ← index records 0
    let next ← index records names.length
    let last ← index records (records.length - 1)
    let lastMillis := last.now.millisSince first.now
    let ntimestamps ← divU records.length names.length
    let interval ← divI lastMillis ntimestamps
    return [.expectedTimestamps ntimestamps, .expectedInterval interval,
      .secondTimestamp next.now (next.now.millisSince first.now),
      .finalTimestamp last.now lastMillis]
  else
    return []

def doSummarize {ε : Type} (records : List HistRecord) : Res ε (List SummaryLine) := do
  if records.length = 0 then return [.totalRecords records.length]
  let names := collectNames records []
  let warnings ← checkRecords names ⟨0, none⟩ records
  let first ← index records 0
  let report ← reportInterval records names
  return [.totalRecords records.length, .distinctNames names] ++ warnings ++
    [.initialTimestamp first.now] ++ report

end Chist
