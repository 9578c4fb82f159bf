import Chist.Print.Row

/-!
# Conservation

A run of `chist print` that returns `Ok` has merged every record of every file once, in file order
and at most one of each file in a row, and its rows hold all samples (`print_conserves`). On
well-shaped files a run ends with `Ok` or an `Err` (`print_noPanic`).
-/

set_option autoImplicit false

namespace Chist

open Res Hdr

def totalSamples (files : List HistFile) : Nat :=
  (files.map fun file => (file.records.map (·.samples)).sum).sum

/-- Every record is well sized. -/
def WellSizedFiles (fl : Floats) (files : List HistFile) : Prop :=
  ∀ file ∈ files, ∀ x ∈ file.records, x.WellSized fl

instance (fl : Floats) (files : List HistFile) : Decidable (WellSizedFiles fl files) :=
  inferInstanceAs (Decidable (∀ file ∈ files, ∀ x ∈ file.records, x.WellSized fl))

/-- The rows hold the records and the samples of the files. `inOrder` reads off, row by row, what
file `j` gave up. -/
structure Conserved (files : List HistFile) (rows : List Row) : Prop where
  width : ∀ row ∈ rows, row.picked.length = files.length
  inOrder : ∀ (j : Nat) (file : HistFile), files[j]? = some file →
    rows.filterMap (fun row => row.picked[j]?.join) = file.records
  counted : (rows.map (·.fileSnapshots.length)).sum = totalRecords files
  summed : (rows.map (·.summary.len)).sum = totalSamples files

variable {fl : Floats} {files : List HistFile} {r : Nat}

/-! ## The rows of a run -/

theorem map_rows {β : Type} (rows : List Row) (f : Row → β) (g : Nat → β)
    (h : ∀ i row, rows[i]? = some row → f row = g i) :
    rows.map f = (List.range rows.length).map g := by
  apply List.ext_getElem (by simp)
  intro i h1 h2
  have hi : i < rows.length := by simpa using h1
  rw [List.getElem_map, List.getElem_map, List.getElem_range]
  exact h i _ (List.getElem?_eq_getElem hi)

theorem wellSized_entries (hw : WellSizedFiles fl files) :
    ∀ x ∈ entries files r, x.WellSized fl := by
  intro x hx
  obtain ⟨file, hf, hxf⟩ := mem_entries.1 hx
  exact hw file hf x (List.mem_of_getElem? hxf)

theorem samples_entries_le (files : List HistFile) (r : Nat) :
    ((entries files r).map (·.samples)).sum ≤ totalSamples files := by
  have h := Columns.sum_entries_le HistRecord.samples (recordLists files) r
  rwa [recordLists, List.map_map] at h

theorem sum_entries (f : HistRecord → Nat) (files : List HistFile) :
    ((List.range (depth files)).map fun r => ((entries files r).map f).sum).sum =
      (files.map fun file => (file.records.map f).sum).sum := by
  have h := Columns.sum_entries f (recordLists files) fun l => Columns.length_le_depth
  rw [recordLists, List.map_map] at h
  exact h

theorem entries_ne_nil {a : HistRecord} (h : anchor files r = some a) : entries files r ≠ [] :=
  List.ne_nil_of_mem (anchor_mem h)

/-- A column of well-sized records is made into a row or is an `Err`. -/
theorem makeRow_column (hw : WellSizedFiles fl files) (hsum : totalSamples files < 2 ^ 64)
    (hne : entries files r ≠ []) (time : DateTime) (name : String) (elapsed : UInt64) :
    IsErr (makeRow fl time name elapsed (column files r)) ∨
      ∃ row, makeRow fl time name elapsed (column files r) = .ok row ∧
        row.fileSnapshots = (entries files r).map (·.loaded fl) ∧
        Tallied row.summary ((entries files r).map (·.samples)).sum :=
  makeRow_spec time name elapsed hne (wellSized_entries hw)
    (Nat.lt_of_le_of_lt (samples_entries_le files r) hsum)

theorem RowAt.spec {a : HistRecord} {next : DateTime} {row : Row} (h : RowAt fl files r a next row)
    (hw : WellSizedFiles fl files) (hsum : totalSamples files < 2 ^ 64) :
    row.fileSnapshots = (entries files r).map (·.loaded fl) ∧
      Tallied row.summary ((entries files r).map (·.samples)).sum := by
  rcases makeRow_column hw hsum (entries_ne_nil h.anchor_eq) a.now a.name a.elapsed with
    ⟨e, he⟩ | ⟨row', hrow, h1, h2⟩
  · rw [h.made] at he
    cases he
  · rw [h.made, Except.ok.injEq] at hrow
    exact hrow ▸ ⟨h1, h2⟩

theorem records_of_picked {rows : List Row} (hlen : rows.length = depth files)
    (hpicked : ∀ i row, rows[i]? = some row → row.picked = column files i) {j : Nat}
    {file : HistFile} (hj : files[j]? = some file) :
    rows.filterMap (fun row => row.picked[j]?.join) = file.records := by
  have hfile : file.records.length ≤ depth files :=
    Columns.length_le_depth (List.mem_map_of_mem (List.mem_of_getElem? hj))
  have hmap := map_rows rows (fun row => row.picked[j]?.join) (file.records[·]?)
    fun i row hrow => by
      rw [hpicked i row hrow, column_eq, List.getElem?_map, hj]
      rfl
  calc rows.filterMap (fun row => row.picked[j]?.join)
      = (rows.map fun row => row.picked[j]?.join).filterMap id := by
        rw [List.filterMap_map]
        rfl
    _ = (List.range (depth files)).filterMap (file.records[·]?) := by
        rw [hmap, hlen, List.filterMap_map]
        rfl
    _ = file.records := by rw [Columns.filterMap_range, List.take_of_length_le hfile]

/-- **Conservation and termination.** The loop stops after at most as many rows as there are
records; if it ends with `Ok`, no record and no sample is lost or counted twice. -/
theorem print_conserves (fl : Floats) (files : List HistFile) (hw : WellSizedFiles fl files)
    (hsum : totalSamples files < 2 ^ 64) :
    (print fl files).2 ≠ .running ∧ (print fl files).1.length ≤ totalRecords files ∧
      ((print fl files).2 = .finished → Conserved files (print fl files).1) := by
  have hp := printed fl files
  refine ⟨hp.stops, (print_stops fl files).2, fun hfin => ?_⟩
  have hlen := hp.finished hfin
  have hpicked : ∀ i row, (print fl files).1[i]? = some row → row.picked = column files i :=
    fun i row hrow => by
      obtain ⟨a, next, h⟩ := hp.rowAt i row hrow
      exact (makeRow_eq_ok h.made).picked_eq
  have hspec : ∀ i row, (print fl files).1[i]? = some row →
      row.fileSnapshots = (entries files i).map (·.loaded fl) ∧
        Tallied row.summary ((entries files i).map (·.samples)).sum := fun i row hrow => by
    obtain ⟨a, next, h⟩ := hp.rowAt i row hrow
    exact h.spec hw hsum
  refine ⟨fun row hrow => ?_, fun j file hj => records_of_picked hlen hpicked hj, ?_, ?_⟩
  · obtain ⟨i, hi⟩ := List.mem_iff_getElem?.1 hrow
    rw [hpicked i row hi, column_eq, List.length_map]
  · have hmap := map_rows (print fl files).1 (·.fileSnapshots.length)
      (fun i => ((entries files i).map fun _ => 1).sum) fun i row hrow => by
        rw [(hspec i row hrow).1]
        simp
    rw [hmap, hlen, sum_entries]
    simp [totalRecords]
  · have hmap := map_rows (print fl files).1 (·.summary.len)
      (fun i => ((entries files i).map HistRecord.samples).sum) fun i row hrow =>
        (hspec i row hrow).2.2
    rw [hmap, hlen, sum_entries]
    rfl

/-- The three samples of `sampleFiles`, in two rows. -/
theorem print_conserves_sample : Conserved sampleFiles (print .exact sampleFiles).1 :=
  (print_conserves .exact sampleFiles (by decide +kernel) (by decide +kernel)).2.2
    (by decide +kernel)

/-! ## No panic -/

/-- **`chist print` never panics on well-shaped data**: the run ends with `Ok` or with an `Err`. -/
theorem print_noPanic (fl : Floats) (files : List HistFile) (hw : WellSizedFiles fl files)
    (htime : ∀ file ∈ files, ∀ x ∈ file.records, x.TimeOk) (hsum : totalSamples files < 2 ^ 64) :
    (print fl files).2 = .finished ∨ ∃ e, (print fl files).2 = .failed (.err e) := by
  have hp := printed fl files
  cases ho : (print fl files).2 with
  | finished => exact .inl rfl
  | running => exact absurd ho hp.stops
  | failed e =>
    right
    obtain ⟨a, ha, he⟩ := turn_error (hp.failed e ho)
    obtain ⟨file, hf, hx⟩ := mem_entries.1 (anchor_mem ha)
    obtain ⟨next, hnext, -⟩ :=
      nextTime_of_timeOk (ε := ChistError) (htime file hf a (List.mem_of_getElem? hx))
    rcases he with he | ⟨next, -, ⟨-, file, -, x, -, -, -, rfl⟩ | ⟨-, he⟩⟩
    · rw [hnext] at he
      cases he
    · exact ⟨_, rfl⟩
    · rcases makeRow_column hw hsum (entries_ne_nil ha) a.now a.name a.elapsed with
        ⟨e', he'⟩ | ⟨row, hrow, -⟩
      · rw [he] at he'
        cases he'
        exact ⟨e', rfl⟩
      · rw [hrow] at he
        cases he

theorem print_noPanic_sample : (print .exact sampleFiles).2 = .finished ∨
    ∃ e, (print .exact sampleFiles).2 = .failed (.err e) :=
  print_noPanic .exact sampleFiles (by decide +kernel) (by decide +kernel) (by decide +kernel)

end Chist
