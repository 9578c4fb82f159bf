import Chist.Walk
import Chist.Lib.Loop

/-!
# `chist print`

The merge loop of `main`: one turn picks the earliest next record of all files, lets every file
give up its next record, merges the histograms of the records given up and prints one row.
Reading and parsing the files is outside the model: a run starts from their records.
-/

set_option autoImplicit false

namespace Chist

open Res Hdr

/-- A file on the command line and the records read from it. -/
structure HistFile where
  label : String
  records : List HistRecord
  deriving DecidableEq

/-- A printed row: its columns (`#` is the number of `fileSnapshots`, the throughput is
`summary.len` over `elapsed`), and what they were computed from. `picked` has one entry a file:
the record the file gave up, if it had one left. -/
structure Row where
  time : DateTime
  name : String
  elapsed : UInt64
  picked : List (Option HistRecord)
  fileSnapshots : List Histogram
  summary : Histogram
  p50 : Nat
  p95 : Nat
  p99 : Nat
  pmax : Nat
  deriving DecidableEq

/-- The records merged into a row, in file order. -/
def Row.merged (row : Row) : List HistRecord := row.picked.filterMap id

/-- `.min_by(|(_, t1), (_, t2)| t1.cmp(t2))`: the first of several minima. -/
def minByTime {α : Type} : List (α × DateTime) → Option (α × DateTime)
  | [] => none
  | x :: xs => some (xs.foldl (fun best y => if y.2.nanos < best.2.nanos then y else best) x)

/-- `Histogram::new_from_snapshot(&snapshot).with_context(|| "loading histogram")`. -/
def loadRecord (fl : Floats) (histRecord : HistRecord) : Res ChistError Histogram :=
  mapErr .loadingHistogram (Histogram.newFromSnapshot fl histRecord.hist.toSnapshot)

/-- The histograms of a row merged into an empty one shaped like the first. -/
def mergeSnapshots (fl : Floats) (fileSnapshots : List Histogram) : Res ChistError Histogram := do
  let first ← unwrapSome "file_snapshots.first()" fileSnapshots.head?
  let empty ← Histogram.newFrom fl first
  mapErr .addingHistograms (fileSnapshots.foldlM Histogram.add empty)

/-- The row of the records `picked`: loaded, merged and summarised. -/
def makeRow (fl : Floats) (time : DateTime) (name : String) (elapsed : UInt64)
    (picked : List (Option HistRecord)) : Res ChistError Row := do
  let fileSnapshots ← (picked.filterMap id).mapM (loadRecord fl)
  let summary ← mergeSnapshots fl fileSnapshots
  let p50 ← summary.valueAtQuantile fl (50 / 100)
  let p95 ← summary.valueAtQuantile fl (95 / 100)
  let p99 ← summary.valueAtQuantile fl (99 / 100)
  let pmax ← summary.max
  return { time, name, elapsed, picked, fileSnapshots, summary, p50, p95, p99, pmax }

/-- One iteration of the loop of `main`; `none` is its `break`. -/
def printTurn (fl : Floats) (fileWalkers : List HistFileWalkState) :
    Res ChistError (Option (Row × List HistFileWalkState)) := do
  match minByTime (fileWalkers.filterMap fun walk => walk.peekNextTime.map (walk, ·)) with
  | none => return none
  | some (minWalk, minTime) =>
    let minRecord ← minWalk.peekRecord
    let elapsed ← minRecord.elapsedNanos
    let minNext ← minTime.add elapsed
    let eaten ← fileWalkers.mapM (·.maybeEatRecordTimeName minTime minNext minRecord.name)
    let row ← makeRow fl minTime minRecord.name minRecord.elapsed (eaten.map (·.1))
    return some (row, eaten.map (·.2))

/-- `file_walkers` at the start. -/
def startWalk (file : HistFile) : HistFileWalkState := ⟨file.label, file.records, 0⟩

def totalRecords (files : List HistFile) : Nat := (files.map (·.records.length)).sum

/-- `chist print`: the rows printed and how the run ended. The loop cannot make more turns than
there are records, and one more to notice the end (`print_stops`). -/
def print (fl : Floats) (files : List HistFile) : List Row × Loop.Outcome (Stop ChistError) :=
  Loop.run (printTurn fl) (totalRecords files + 1) (files.map startWalk)

end Chist
