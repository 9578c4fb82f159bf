import Chist.Print.Lockstep
import Chist.Hdr.Merge

/-!
# One row

`makeRow` on the records of a column. Records that are well sized load or are an `Err`
(`loadRecord_ok`, `loadRecord_err`), their histograms merge without loss or are an `Err`
(`mergeSnapshots_spec`), and the statistics of the result never panic: `makeRow_spec`.
-/

set_option autoImplicit false

namespace Chist

open Res Hdr

namespace HistRecord

variable (fl : Floats) (x : HistRecord)

def BoundsOk : Prop := x.hist.toSnapshot.BoundsOk fl

/-- If the bounds are accepted, there are as many counts as they call for. -/
def WellSized : Prop := x.hist.toSnapshot.WellSized fl

instance : Decidable (x.WellSized fl) :=
  inferInstanceAs (Decidable (x.hist.toSnapshot.WellSized fl))

def layout : LogLinear := x.hist.toSnapshot.layout fl

def countList : List Nat := x.hist.toSnapshot.countList

def samples : Nat := x.countList.sum

/-- The histogram of a well-sized record. -/
def loaded : Histogram := x.hist.toSnapshot.loaded fl

end HistRecord

variable {fl : Floats} {x : HistRecord}

theorem loaded_of (hb : x.BoundsOk fl) (hw : x.WellSized fl) : Loaded (x.loaded fl) (x.layout fl) :=
  loaded_loaded hb (hw hb)

theorem loadRecord_ok (hb : x.BoundsOk fl) (hw : x.WellSized fl) :
    loadRecord fl x = .ok (x.loaded fl) := by
  unfold loadRecord
  rw [newFromSnapshot_ok hb (hw hb)]
  rfl

theorem loadRecord_err (hb : ¬ x.BoundsOk fl) : IsErr (loadRecord fl x) := by
  obtain ⟨e, he⟩ := newFromSnapshot_err hb
  exact ⟨.loadingHistogram e, by unfold loadRecord; rw [he, mapErr_err]⟩

/-! ## Loading -/

section
variable {xs : List HistRecord} (hw : ∀ x ∈ xs, x.WellSized fl)
include hw

theorem loadAll_ok (hb : ∀ x ∈ xs, x.BoundsOk fl) :
    xs.mapM (loadRecord fl) = .ok (xs.map (·.loaded fl)) :=
  mapM_of_ok fun x hx => loadRecord_ok (hb x hx) (hw x hx)

/-- Rejected bounds are an `Err`. -/
theorem loadAll_err (hb : ¬ ∀ x ∈ xs, x.BoundsOk fl) : IsErr (xs.mapM (loadRecord fl)) := by
  cases hm : xs.mapM (loadRecord fl) with
  | ok ys =>
    refine absurd (fun x hx => ?_) hb
    by_contra hbx
    obtain ⟨y, hy⟩ := mapM_eq_ok hm x hx
    obtain ⟨e, he⟩ := loadRecord_err hbx
    rw [he] at hy
    cases hy
  | error e =>
    obtain ⟨x, hx, he⟩ := mapM_eq_error hm
    by_cases hbx : x.BoundsOk fl
    · rw [loadRecord_ok hbx (hw x hx)] at he
      cases he
    · obtain ⟨e', he'⟩ := loadRecord_err hbx
      rw [he'] at he
      cases he
      exact ⟨e', rfl⟩

end

/-! ## Merging -/

theorem countsTotal_loaded (xs : List HistRecord) :
    countsTotal (xs.map (·.loaded fl)) = (xs.map (·.samples)).sum := by
  rw [countsTotal, List.map_map]
  rfl

/-- **The merge of a row** rejects a histogram or holds the samples of all. -/
theorem mergeSnapshots_spec {x : HistRecord} {xs : List HistRecord}
    (hb : ∀ y ∈ x :: xs, y.BoundsOk fl) (hw : ∀ y ∈ x :: xs, y.WellSized fl) :
    IsErr (mergeSnapshots fl ((x :: xs).map (·.loaded fl))) ∨
      ∃ g, mergeSnapshots fl ((x :: xs).map (·.loaded fl)) = .ok g ∧ Summary g (x.layout fl) ∧
        (((x :: xs).map (·.samples)).sum < 2 ^ 64 →
          Tallied g ((x :: xs).map (·.samples)).sum) := by
  have hbx := hb x List.mem_cons_self
  have hnew := newFrom_loaded (ε := ChistError) hbx (hw x List.mem_cons_self hbx)
  have hsum := fresh_summary hbx x.hist.toSnapshot.highestTrackableValue.toNat_lt
  have hl : ∀ s ∈ (x :: xs).map (·.loaded fl), ∃ M, Loaded s M := by
    intro s hs
    obtain ⟨y, hy, rfl⟩ := List.mem_map.1 hs
    exact ⟨_, loaded_of (hb y hy) (hw y hy)⟩
  unfold mergeSnapshots
  rw [List.map_cons, List.head?_cons, unwrapSome_some, ok_bind, HistRecord.loaded, hnew, ok_bind,
    ← HistRecord.loaded, ← List.map_cons]
  rcases foldlM_add hsum hl with he | ⟨g, hg, hgs, hgt⟩
  · exact .inl ⟨_, by rw [he, mapErr_err]⟩
  · refine .inr ⟨g, by rw [hg, mapErr_ok], hgs, fun hfit => ?_⟩
    have := hgt 0 fresh_tallied
    rw [Nat.zero_add, countsTotal_loaded] at this
    exact this hfit

/-! ## The row -/

/-- What a row of the records `picked` is made of. -/
structure MadeRow (fl : Floats) (time : DateTime) (name : String) (elapsed : UInt64)
    (picked : List (Option HistRecord)) (row : Row) : Prop where
  time_eq : row.time = time
  name_eq : row.name = name
  elapsed_eq : row.elapsed = elapsed
  picked_eq : row.picked = picked
  loads : row.merged.mapM (loadRecord fl) = .ok row.fileSnapshots
  merges : mergeSnapshots fl row.fileSnapshots = .ok row.summary
  p50_eq : row.summary.valueAtQuantile (ε := ChistError) fl (50 / 100) = .ok row.p50
  p95_eq : row.summary.valueAtQuantile (ε := ChistError) fl (95 / 100) = .ok row.p95
  p99_eq : row.summary.valueAtQuantile (ε := ChistError) fl (99 / 100) = .ok row.p99
  pmax_eq : row.summary.max (ε := ChistError) = .ok row.pmax

theorem makeRow_eq_ok {time : DateTime} {name : String} {elapsed : UInt64}
    {picked : List (Option HistRecord)} {row : Row}
    (h : makeRow fl time name elapsed picked = .ok row) :
    MadeRow fl time name elapsed picked row := by
  obtain ⟨fileSnapshots, h1, h⟩ := bind_eq_ok.1 h
  obtain ⟨summary, h2, h⟩ := bind_eq_ok.1 h
  obtain ⟨p50, h3, h⟩ := bind_eq_ok.1 h
  obtain ⟨p95, h4, h⟩ := bind_eq_ok.1 h
  obtain ⟨p99, h5, h⟩ := bind_eq_ok.1 h
  obtain ⟨pmax, h6, h⟩ := bind_eq_ok.1 h
  cases h
  exact ⟨rfl, rfl, rfl, rfl, h1, h2, h3, h4, h5, h6⟩

section
variable {time : DateTime} {name : String} {elapsed : UInt64} {picked : List (Option HistRecord)}
  {row : Row} (h : MadeRow fl time name elapsed picked row)
  (hw : ∀ x ∈ row.merged, x.WellSized fl)
include h hw

theorem MadeRow.boundsOk : ∀ x ∈ row.merged, x.BoundsOk fl := by
  by_contra hc
  obtain ⟨e, he⟩ := loadAll_err hw hc
  rw [h.loads] at he
  cases he

/-- The summary is the merge of the histograms of the records. -/
theorem MadeRow.merges_loaded :
    mergeSnapshots fl (row.merged.map (·.loaded fl)) = .ok row.summary := by
  have hloads := h.loads
  rw [loadAll_ok hw (h.boundsOk hw), Except.ok.injEq] at hloads
  rw [hloads]
  exact h.merges

end

/-- **A row of well-sized records** is made or is an `Err`. -/
theorem makeRow_spec (time : DateTime) (name : String) (elapsed : UInt64)
    {picked : List (Option HistRecord)} (hne : picked.filterMap id ≠ [])
    (hw : ∀ x ∈ picked.filterMap id, x.WellSized fl)
    (hsum : ((picked.filterMap id).map (·.samples)).sum < 2 ^ 64) :
    IsErr (makeRow fl time name elapsed picked) ∨
      ∃ row, makeRow fl time name elapsed picked = .ok row ∧
        row.fileSnapshots = (picked.filterMap id).map (·.loaded fl) ∧
        Tallied row.summary ((picked.filterMap id).map (·.samples)).sum := by
  unfold makeRow
  by_cases hb : ∀ x ∈ picked.filterMap id, x.BoundsOk fl
  · rw [loadAll_ok hw hb, ok_bind]
    obtain ⟨x, xs, hxs⟩ := List.exists_cons_of_ne_nil hne
    rw [hxs] at hb hw hsum ⊢
    rcases mergeSnapshots_spec hb hw with ⟨e, he⟩ | ⟨g, hg, hgs, hgt⟩
    · exact .inl ⟨e, by rw [he, error_bind]⟩
    have hgt := hgt hsum
    have hscan : ∀ q, ScanFits (Histogram.countAtQuantile fl q g.totalCount) 0 g.counts :=
      fun q => scanFits_of_sum (by rw [hgt.1]; omega)
    right
    rw [hg, ok_bind, valueAtQuantile_eq hgs.toSized (by norm_num) (hscan _), ok_bind,
      valueAtQuantile_eq hgs.toSized (by norm_num) (hscan _), ok_bind,
      valueAtQuantile_eq hgs.toSized (by norm_num) (hscan _), ok_bind,
      max_of_lt hgs.toHasLayout hgs.maxValue_lt, ok_bind]
    exact ⟨_, rfl, rfl, hgt⟩
  · obtain ⟨e, he⟩ := loadAll_err hw hb
    exact .inl ⟨e, by rw [he, error_bind]⟩

/-- The time `s` seconds after the epoch. -/
def sampleTime (s : Nat) : DateTime :=
  ⟨(s % 100 * 1000000000 : Nat), by unfold minDateTime maxDateTime; omega⟩

/-- The histogram of one operation of 1 ns. -/
def sampleHist : HistSnapshot := ⟨1, 2, 0, [0, 1, 0]⟩

/-- A record of one operation, for the second that ends `s` seconds after the epoch. -/
def sampleRecord (name : String) (s : Nat) : HistRecord where
  name := name
  elapsed := 1000000000
  now := sampleTime s
  hist := sampleHist

/-- Two files, one of which starts a second later. -/
def sampleFiles : List HistFile :=
  [⟨"a", [sampleRecord "read" 0, sampleRecord "read" 1]⟩, ⟨"b", [sampleRecord "read" 1]⟩]

example : (print .exact sampleFiles).1.map (·.summary.totalCount) = [2, 1] := by decide +kernel

end Chist
