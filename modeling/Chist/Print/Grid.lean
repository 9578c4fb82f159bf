import Chist.Print.Conserve
import Chist.Print.EqualBounds
import Chist.Lib.Groups

/-!
# Files recorded on a tick grid

`TickGrid` is an input as the merge expects it: every file has, for some of the ticks of a common
grid, one record for each of the same names. The rows it should print are `expected`. Since every
turn takes a record of every file, the run prints them exactly when every file has the first ticks
of the grid and misses none before its end (`grouped_iff`), the times can be represented and the
running totals fit.
-/

set_option autoImplicit false

namespace Chist

open Res Hdr

/-- A file of a tick grid: its ticks, the time of the records of a tick, and the histogram of each
name of a tick, by the position of the name. -/
structure TickFile where
  label : String
  ticks : List Nat
  now : Nat → DateTime
  hist : Nat → Nat → HistSnapshot

/-- Files recorded on a common tick grid, with the same names and the same elapsed. -/
structure TickGrid where
  names : List String
  elapsed : UInt64
  files : List TickFile

namespace TickGrid

variable (g : TickGrid)

/-- The record of `f` for tick `j` and the name `p.1`, at position `p.2`. -/
def record (f : TickFile) (j : Nat) (p : String × Nat) : HistRecord where
  name := p.1
  elapsed := g.elapsed
  now := f.now j
  hist := f.hist j p.2

/-- The records of `f` for tick `j`, one for each name, in order. -/
def group (f : TickFile) (j : Nat) : List HistRecord := g.names.zipIdx.map (g.record f j)

def histFile (f : TickFile) : HistFile := ⟨f.label, f.ticks.flatMap (g.group f)⟩

def histFiles : List HistFile := g.files.map g.histFile

/-- The ticks some file has, in order. -/
def allTicks : List Nat :=
  (List.range ((g.files.flatMap (·.ticks)).foldr max 0 + 1)).filter fun j =>
    ∃ f ∈ g.files, j ∈ f.ticks

/-- What the files that have tick `j` recorded for it under a name. -/
def tickRecords (j : Nat) (p : String × Nat) : List (Option HistRecord) :=
  g.files.map fun f => if j ∈ f.ticks then some (g.record f j p) else none

/-- The number of files that have tick `j`. -/
def filesWith (j : Nat) : Nat := g.files.countP fun f => j ∈ f.ticks

/-- The rows to print, by name, by what each file gives up and by `#`: one for each tick and
name. -/
def expected : List (String × List (Option HistRecord) × Nat) :=
  g.allTicks.flatMap fun j => g.names.zipIdx.map fun p => (p.1, g.tickRecords j p, g.filesWith j)

/-- The run returns `Ok` and prints the rows expected, and every row merges the histograms of
exactly the records of its tick and name. -/
structure Grouped (fl : Floats) : Prop where
  finished : (print fl g.histFiles).2 = .finished
  rows : (print fl g.histFiles).1.map (fun row =>
    (row.name, row.picked, row.fileSnapshots.length)) = g.expected
  holds : ∀ row ∈ (print fl g.histFiles).1, row.Holds fl

/-- A well-formed grid. Times are whole milliseconds and ordered as the ticks are; records of one
tick differ by less than half of the elapsed, records of different ticks by more; all snapshots
have the same accepted bounds and the counts these call for. -/
structure Valid (fl : Floats) : Prop where
  names_ne : g.names ≠ []
  names_nodup : g.names.Nodup
  ticks_ne : ∀ f ∈ g.files, f.ticks ≠ []
  ticks_sorted : ∀ f ∈ g.files, f.ticks.Pairwise (· < ·)
  millis : ∀ f ∈ g.files, ∀ j ∈ f.ticks, (1000000 : Int) ∣ (f.now j).nanos
  ordered : ∀ f ∈ g.files, ∀ f' ∈ g.files, ∀ i ∈ f.ticks, ∀ j ∈ f'.ticks, i < j →
    (f.now i).nanos < (f'.now j).nanos
  near : ∀ f ∈ g.files, ∀ f' ∈ g.files, ∀ j ∈ f.ticks, j ∈ f'.ticks →
    2 * ((f.now j).nanos - (f'.now j).nanos).natAbs < g.elapsed.toNat
  far : ∀ f ∈ g.files, ∀ f' ∈ g.files, ∀ i ∈ f.ticks, ∀ j ∈ f'.ticks, i ≠ j →
    g.elapsed.toNat < 2 * ((f.now i).nanos - (f'.now j).nanos).natAbs
  bounds : ∃ low high : UInt64, ∃ sigfig : UInt8,
    Hdr.BoundsOk fl low.toNat high.toNat sigfig.toNat ∧ high.toNat < 2 ^ 63 ∧
    ∀ f ∈ g.files, ∀ j ∈ f.ticks, ∀ k < g.names.length,
      (f.hist j k).lowestTrackableValue = low ∧ (f.hist j k).highestTrackableValue = high ∧
      (f.hist j k).significantFigures = sigfig ∧
      (f.hist j k).counts.length = (f.hist j k).toSnapshot.binsNeeded fl

/-- Every file has the first ticks of the grid. -/
def Aligned : Prop := ∀ f ∈ g.files, f.ticks <+: g.allTicks

/-- The time after the earliest record of every tick can be represented. -/
def InRange : Prop := ∀ j ∈ g.allTicks, g.elapsed.toNat < 2 ^ 63 ∧
  ∃ f ∈ g.files, j ∈ f.ticks ∧ (f.now j).nanos + g.elapsed.toNat ≤ maxDateTime

/-- The running totals of what is merged for a tick and a name fit. -/
def TotalsFit (fl : Floats) : Prop := ∀ j ∈ g.allTicks, ∀ p ∈ g.names.zipIdx,
  ∀ x ∈ ((g.tickRecords j p).filterMap id).head?,
    QuantilesFit fl (x.bins fl) ((g.tickRecords j p).filterMap id)

variable {g} {fl : Floats}

/-! ## The ticks -/

theorem mem_allTicks {j : Nat} : j ∈ g.allTicks ↔ ∃ f ∈ g.files, j ∈ f.ticks := by
  unfold allTicks
  rw [List.mem_filter, decide_eq_true_iff, List.mem_range]
  refine ⟨And.right, fun h => ⟨?_, h⟩⟩
  obtain ⟨f, hf, hj⟩ := h
  have hmem : j ∈ g.files.flatMap (·.ticks) := List.mem_flatMap.2 ⟨f, hf, hj⟩
  exact Nat.lt_succ_of_le (Columns.foldr_max_le_iff.1 (Nat.le_refl _) j hmem)

theorem allTicks_sorted : g.allTicks.Pairwise (· < ·) := List.pairwise_lt_range.filter _

theorem allTicks_nodup : g.allTicks.Nodup := allTicks_sorted.imp Nat.ne_of_lt

section
variable (hg : g.Valid fl)
include hg

theorem ticks_length_le {f : TickFile} (hf : f ∈ g.files) : f.ticks.length ≤ g.allTicks.length :=
  List.Nodup.length_le_of_subset ((hg.ticks_sorted f hf).imp Nat.ne_of_lt) fun _ hj =>
    mem_allTicks.2 ⟨f, hf, hj⟩

theorem names_pos : 0 < g.names.length := List.length_pos_iff.2 hg.names_ne

end

theorem getElem?_ticks {f : TickFile} (hpre : f.ticks <+: g.allTicks) {i j : Nat}
    (hj : g.allTicks[i]? = some j) : f.ticks[i]? = if j ∈ f.ticks then some j else none := by
  obtain ⟨rest, hrest⟩ := hpre
  have hsome : ∀ i' j', f.ticks[i']? = some j' → g.allTicks[i']? = some j' := fun i' j' h => by
    rw [← hrest, List.getElem?_append_left (List.getElem?_eq_some_iff.1 h).1, h]
  cases hi : f.ticks[i]? with
  | some j' =>
    obtain rfl : j' = j := Option.some.inj ((hsome i j' hi).symm.trans hj)
    rw [if_pos (List.mem_of_getElem? hi)]
  | none =>
    rw [if_neg]
    intro hmem
    obtain ⟨i', hi'⟩ := List.mem_iff_getElem?.1 hmem
    have hlt := (List.getElem?_eq_some_iff.1 hj).1
    obtain rfl := (List.getElem?_inj hlt allTicks_nodup).1 (hj.trans (hsome i' j hi').symm)
    rw [hi] at hi'
    cases hi'

theorem position_eq (hg : g.Valid fl) {r : Nat} (hr : r < g.allTicks.length * g.names.length) :
    ∃ i j k p, r = i * g.names.length + k ∧ g.allTicks[i]? = some j ∧
      g.names.zipIdx[k]? = some p := by
  obtain ⟨i, k, hk, rfl⟩ := Groups.pos_eq (r := r) (names_pos hg)
  have hi : i < g.allTicks.length := by
    by_contra hc
    have := Nat.mul_le_mul_right g.names.length (Nat.le_of_not_lt hc)
    omega
  exact ⟨i, _, k, _, rfl, List.getElem?_eq_getElem hi,
    List.getElem?_eq_getElem (by simpa using hk)⟩

theorem records_getElem? (f : TickFile) (i : Nat) {k : Nat} {p : String × Nat}
    (hp : g.names.zipIdx[k]? = some p) :
    (g.histFile f).records[i * g.names.length + k]? = f.ticks[i]?.map fun j => g.record f j p := by
  have hk : k < g.names.length := by simpa using (List.getElem?_eq_some_iff.1 hp).1
  have hgroup : ∀ j ∈ f.ticks, (g.group f j).length = g.names.length := by simp [group]
  rw [histFile, Groups.getElem?_flatMap hgroup i hk]
  cases f.ticks[i]? with
  | none => rfl
  | some j => simp only [Option.bind_some, group, List.getElem?_map, hp, Option.map_some]

theorem column_histFiles (i : Nat) {k : Nat} {p : String × Nat}
    (hp : g.names.zipIdx[k]? = some p) : column g.histFiles (i * g.names.length + k) =
      g.files.map fun f => f.ticks[i]?.map fun j => g.record f j p := by
  rw [column_eq, histFiles, List.map_map]
  congr 1
  funext f
  exact records_getElem? f i hp

/-- **Of an aligned grid**, the columns are the ticks and names. -/
theorem column_of_aligned (h : g.Aligned) {i j k : Nat} {p : String × Nat}
    (hj : g.allTicks[i]? = some j) (hp : g.names.zipIdx[k]? = some p) :
    column g.histFiles (i * g.names.length + k) = g.tickRecords j p := by
  rw [column_histFiles i hp, tickRecords]
  refine List.map_congr_left fun f hf => ?_
  rw [getElem?_ticks (h f hf) hj]
  split <;> rfl

theorem length_histFile (f : TickFile) :
    (g.histFile f).records.length = f.ticks.length * g.names.length :=
  Groups.length_flatMap (by simp [group])

theorem length_expected : g.expected.length = g.allTicks.length * g.names.length :=
  Groups.length_flatMap (by simp)

theorem expected_getElem? {i j k : Nat} {p : String × Nat} (hj : g.allTicks[i]? = some j)
    (hp : g.names.zipIdx[k]? = some p) :
    g.expected[i * g.names.length + k]? = some (p.1, g.tickRecords j p, g.filesWith j) := by
  have hk : k < g.names.length := by simpa using (List.getElem?_eq_some_iff.1 hp).1
  rw [expected, Groups.getElem?_flatMap (by simp) i hk, hj]
  simp only [Option.bind_some, List.getElem?_map, hp, Option.map_some]

theorem depth_of_aligned (hg : g.Valid fl) (h : g.Aligned) :
    depth g.histFiles = g.allTicks.length * g.names.length := by
  apply Nat.le_antisymm
  · refine Columns.depth_le_iff.2 fun l hl => ?_
    obtain ⟨file, hfile, rfl⟩ := List.mem_map.1 hl
    obtain ⟨f, hf, rfl⟩ := List.mem_map.1 hfile
    rw [length_histFile]
    exact Nat.mul_le_mul_right _ (ticks_length_le hg hf)
  · rcases Nat.eq_zero_or_pos g.allTicks.length with h0 | h0
    · rw [h0, Nat.zero_mul]
      exact Nat.zero_le _
    · -- the file with the last tick
      have hlast := List.getElem?_eq_getElem (l := g.allTicks)
        (show g.allTicks.length - 1 < _ by omega)
      obtain ⟨f, hf, hj⟩ := mem_allTicks.1 (List.getElem_mem (l := g.allTicks)
        (show g.allTicks.length - 1 < _ by omega))
      have hi := getElem?_ticks (h f hf) hlast
      rw [if_pos hj] at hi
      have hlen := (List.getElem?_eq_some_iff.1 hi).1
      have hle : (g.histFile f).records.length ≤ depth g.histFiles :=
        Columns.length_le_depth (List.mem_map_of_mem (List.mem_map_of_mem hf))
      rw [length_histFile] at hle
      exact (Nat.mul_le_mul_right _ (by omega)).trans hle

/-! ## One row -/

theorem mem_tickRecords {j : Nat} {p : String × Nat} {x : HistRecord} :
    x ∈ (g.tickRecords j p).filterMap id ↔ ∃ f ∈ g.files, j ∈ f.ticks ∧ x = g.record f j p := by
  simp only [tickRecords, List.mem_filterMap, List.mem_map, id]
  refine ⟨?_, ?_⟩
  · rintro ⟨o, ⟨f, hf, rfl⟩, ho⟩
    split at ho
    · exact ⟨f, hf, by assumption, (Option.some.inj ho).symm⟩
    · cases ho
  · rintro ⟨f, hf, hj, rfl⟩
    exact ⟨_, ⟨f, hf, rfl⟩, if_pos hj⟩

/-- What is recorded for a tick and a name has one shape. -/
theorem Valid.shape (hg : g.Valid fl) {j : Nat} {p : String × Nat} (hp : p ∈ g.names.zipIdx)
    {x : HistRecord} {xs : List HistRecord} (hxs : (g.tickRecords j p).filterMap id = x :: xs) :
    x.BoundsOk fl ∧ x.hist.highestTrackableValue.toNat < 2 ^ 63 ∧
      (∀ y ∈ x :: xs, y.WellSized fl) ∧ ∀ y ∈ x :: xs, SameBounds x y := by
  have hk : p.2 < g.names.length := List.snd_lt_of_mem_zipIdx hp
  obtain ⟨low, high, sigfig, hb, hhigh, hhist⟩ := hg.bounds
  have hshape : ∀ y ∈ x :: xs, y.hist.lowestTrackableValue = low ∧
      y.hist.highestTrackableValue = high ∧ y.hist.significantFigures = sigfig ∧
      y.hist.counts.length = y.hist.toSnapshot.binsNeeded fl := by
    intro y hy
    obtain ⟨f, hf, hjf, rfl⟩ := mem_tickRecords.1 (hxs ▸ hy)
    exact hhist f hf j hjf p.2 hk
  obtain ⟨h1, h2, h3, -⟩ := hshape x List.mem_cons_self
  refine ⟨?_, h2 ▸ hhigh, fun y hy _ => (hshape y hy).2.2.2, fun y hy => ?_⟩
  · rw [← h1, ← h2, ← h3] at hb
    exact hb
  · obtain ⟨e1, e2, e3, -⟩ := hshape y hy
    exact ⟨e1.trans h1.symm, e2.trans h2.symm, e3.trans h3.symm⟩

/-- **A column that is a tick and a name prints** if the time after the earliest record can be
represented and the running totals fit. -/
theorem rowAt_iff (hg : g.Valid fl) {r j : Nat} {p : String × Nat} (hj : j ∈ g.allTicks)
    (hp : p ∈ g.names.zipIdx) (hcol : column g.histFiles r = g.tickRecords j p) :
    (∃ a next row, RowAt fl g.histFiles r a next row) ↔
      (g.elapsed.toNat < 2 ^ 63 ∧
        ∃ f ∈ g.files, j ∈ f.ticks ∧ (f.now j).nanos + g.elapsed.toNat ≤ maxDateTime) ∧
      ∀ x ∈ ((g.tickRecords j p).filterMap id).head?,
        QuantilesFit fl (x.bins fl) ((g.tickRecords j p).filterMap id) := by
  have hent : entries g.histFiles r = (g.tickRecords j p).filterMap id := by
    rw [← hcol]
    rfl
  obtain ⟨f0, hf0, hj0⟩ := mem_allTicks.1 hj
  obtain ⟨x, xs, hxs⟩ := List.exists_cons_of_ne_nil
    (List.ne_nil_of_mem (mem_tickRecords.2 ⟨f0, hf0, hj0, rfl⟩))
  obtain ⟨hb, hhigh, hw, hsame⟩ := hg.shape hp hxs
  have hmake : ∀ (time : DateTime) (name : String) (elapsed : UInt64),
      (∃ row, makeRow fl time name elapsed (column g.histFiles r) = .ok row) ↔
        QuantilesFit fl (x.bins fl) (x :: xs) := fun time name elapsed =>
    makeRow_same hb hw hsame hhigh (hcol ▸ hxs)
  rw [hxs, List.head?_cons]
  simp only [Option.mem_some_iff, forall_eq']
  refine ⟨?_, ?_⟩
  · rintro ⟨a, next, row, h⟩
    obtain ⟨f, hf, hjf, rfl⟩ := mem_tickRecords.1 (hent ▸ anchor_mem h.anchor_eq)
    obtain ⟨hlt, hle⟩ := (nextTime_eq_ok h.next_eq).1
    exact ⟨⟨hlt, f, hf, hjf, hle⟩, (hmake _ _ _).1 ⟨row, h.made⟩⟩
  · rintro ⟨⟨hlt, f, hf, hjf, hle⟩, hfit⟩
    obtain ⟨a, ha⟩ : ∃ a, anchor g.histFiles r = some a := by
      rw [← Option.ne_none_iff_exists', ne_eq, anchor_eq_none_iff_entries, hent, hxs]
      simp
    obtain ⟨f', hf', hjf', rfl⟩ := mem_tickRecords.1 (hent ▸ anchor_mem ha)
    have hmin := anchor_le ha (g.record f j p)
      (hent ▸ mem_tickRecords.2 ⟨f, hf, hjf, rfl⟩)
    have hok : (g.record f' j p).TimeOk := by
      refine ⟨hlt, ?_⟩
      simp only [record] at hmin ⊢
      omega
    obtain ⟨next, hnext, -⟩ := nextTime_of_timeOk (ε := ChistError) hok
    obtain ⟨row, hrow⟩ := (hmake _ _ _).2 hfit
    refine ⟨_, next, row, ha, hnext, fun y hy _ => ?_, hrow⟩
    rw [hent] at hy
    obtain ⟨f'', -, -, rfl⟩ := mem_tickRecords.1 hy
    rfl

/-! ## All rows -/

theorem rows_getElem? (h : g.Grouped fl) {i j k : Nat} {p : String × Nat}
    (hj : g.allTicks[i]? = some j) (hp : g.names.zipIdx[k]? = some p) :
    ∃ row, (print fl g.histFiles).1[i * g.names.length + k]? = some row ∧
      row.picked = g.tickRecords j p := by
  have hexpected := expected_getElem? hj hp
  rw [← h.rows, List.getElem?_map] at hexpected
  obtain ⟨row, h1, h2⟩ := Option.map_eq_some_iff.1 hexpected
  exact ⟨row, h1, (Prod.mk.inj (Prod.mk.inj h2).2).1⟩

/-- If the rows are those expected, the columns are the ticks and names. -/
theorem column_of_grouped (h : g.Grouped fl) {i j k : Nat} {p : String × Nat}
    (hj : g.allTicks[i]? = some j) (hp : g.names.zipIdx[k]? = some p) :
    column g.histFiles (i * g.names.length + k) = g.tickRecords j p ∧
      ∃ a next row, RowAt fl g.histFiles (i * g.names.length + k) a next row := by
  obtain ⟨row, hrow, hpicked⟩ := rows_getElem? h hj hp
  obtain ⟨a, next, hat⟩ := (printed fl g.histFiles).rowAt _ row hrow
  exact ⟨(makeRow_eq_ok hat.made).picked_eq.symm.trans hpicked, a, next, row, hat⟩

theorem aligned_of_grouped (hg : g.Valid fl) (h : g.Grouped fl) : g.Aligned := by
  intro f hf
  refine Groups.isPrefix_of_getElem? (ticks_length_le hg hf) fun i hi => ?_
  have hj := List.getElem?_eq_getElem hi
  have hp := List.getElem?_eq_getElem (l := g.names.zipIdx) (i := 0)
    (by simpa using names_pos hg)
  have hcol := (column_of_grouped h hj hp).1
  rw [column_histFiles i hp, tickRecords] at hcol
  have hf' := List.map_inj_left.1 hcol f hf
  rw [hj]
  cases hti : f.ticks[i]? with
  | none => exact .inl rfl
  | some j' =>
    -- the record is that of the tick, so the tick is
    right
    rw [hti, Option.map_some] at hf'
    split at hf'
    · rename_i hmem
      have hnow := congrArg HistRecord.now (Option.some.inj hf')
      simp only [record] at hnow
      have hmem' := List.mem_of_getElem? hti
      rcases Nat.lt_trichotomy j' g.allTicks[i] with hlt | heq | hlt
      · have := hg.ordered f hf f hf j' hmem' _ hmem hlt
        rw [hnow] at this
        omega
      · rw [heq]
      · have := hg.ordered f hf f hf _ hmem j' hmem' hlt
        rw [hnow] at this
        omega
    · cases hf'

theorem finished_of_aligned (hg : g.Valid fl) (haligned : g.Aligned) (hrange : g.InRange)
    (htotals : g.TotalsFit fl) : (print fl g.histFiles).2 = .finished := by
  refine (print_finished_iff fl g.histFiles).2 fun r hr => ?_
  obtain ⟨i, j, k, p, rfl, hj, hp⟩ := position_eq hg (depth_of_aligned hg haligned ▸ hr)
  have hj' := List.mem_of_getElem? hj
  have hp' := List.mem_of_getElem? hp
  exact (rowAt_iff hg hj' hp' (column_of_aligned haligned hj hp)).2
    ⟨hrange j hj', htotals j hj' p hp'⟩

theorem length_tickRecords (j : Nat) (p : String × Nat) :
    ((g.tickRecords j p).filterMap id).length = g.filesWith j := by
  unfold tickRecords filesWith
  induction g.files with
  | nil => rfl
  | cons f files ih =>
    rw [List.map_cons, List.countP_cons, ← ih]
    by_cases hj : j ∈ f.ticks <;> simp [hj]

theorem row_of_aligned (hg : g.Valid fl) (haligned : g.Aligned) {i j k : Nat} {p : String × Nat}
    (hj : g.allTicks[i]? = some j) (hp : g.names.zipIdx[k]? = some p) {row : Row}
    (hrow : (print fl g.histFiles).1[i * g.names.length + k]? = some row) :
    row.name = p.1 ∧ row.picked = g.tickRecords j p ∧ row.Holds fl := by
  obtain ⟨a, next, hat⟩ := (printed fl g.histFiles).rowAt _ row hrow
  have hmade := makeRow_eq_ok hat.made
  have hcol := column_of_aligned haligned hj hp
  have ha := anchor_mem hat.anchor_eq
  rw [entries, Columns.entries, ← column, hcol] at ha
  obtain ⟨x, xs, hxs⟩ := List.exists_cons_of_ne_nil (List.ne_nil_of_mem ha)
  obtain ⟨hb, hhigh, hw, hsame⟩ := hg.shape (List.mem_of_getElem? hp) hxs
  obtain ⟨f, -, -, rfl⟩ := mem_tickRecords.1 ha
  exact ⟨hmade.name_eq, hmade.picked_eq.trans hcol, hmade.holds hb hw hsame hhigh (hcol ▸ hxs)⟩

theorem rows_of_aligned (hg : g.Valid fl) (haligned : g.Aligned)
    (hfin : (print fl g.histFiles).2 = .finished) :
    (print fl g.histFiles).1.map (fun row => (row.name, row.picked, row.fileSnapshots.length)) =
      g.expected := by
  have hdepth := depth_of_aligned hg haligned
  have hlen := (printed fl g.histFiles).finished hfin
  apply List.ext_getElem?
  intro r
  by_cases hr : r < depth g.histFiles
  · obtain ⟨i, j, k, p, rfl, hj, hp⟩ := position_eq hg (hdepth ▸ hr)
    have hrow := List.getElem?_eq_getElem (hlen ▸ hr)
    obtain ⟨hname, hpicked, hholds⟩ := row_of_aligned hg haligned hj hp hrow
    have hfiles : (print fl g.histFiles).1[i * g.names.length + k].fileSnapshots.length =
        g.filesWith j := by
      rw [hholds.fileSnapshots, List.length_map, Row.merged, hpicked, length_tickRecords]
    rw [List.getElem?_map, hrow, expected_getElem? hj hp, Option.map_some, hname, hpicked, hfiles]
  · rw [List.getElem?_eq_none (by simpa [hlen] using hr),
      List.getElem?_eq_none (by rw [length_expected, ← hdepth]; omega)]

theorem holds_of_aligned (hg : g.Valid fl) (haligned : g.Aligned)
    (hfin : (print fl g.histFiles).2 = .finished) :
    ∀ row ∈ (print fl g.histFiles).1, row.Holds fl := by
  intro row hrow
  obtain ⟨r, hr⟩ := List.mem_iff_getElem?.1 hrow
  have hlt := (List.getElem?_eq_some_iff.1 hr).1
  rw [(printed fl g.histFiles).finished hfin, depth_of_aligned hg haligned] at hlt
  obtain ⟨i, j, k, p, rfl, hj, hp⟩ := position_eq hg hlt
  exact (row_of_aligned hg haligned hj hp hr).2.2

/-- **The whole run is grouped by tick and name exactly when** every file has the first ticks of
the grid, the time after the earliest record of every tick can be represented, and no running
total overflows before a quantile is found. -/
theorem grouped_iff (fl : Floats) (g : TickGrid) (hg : g.Valid fl) :
    g.Grouped fl ↔ g.Aligned ∧ g.InRange ∧ g.TotalsFit fl := by
  refine ⟨?_, ?_⟩
  · intro h
    refine ⟨aligned_of_grouped hg h, fun j hj => ?_, fun j hj p hp => ?_⟩
    · obtain ⟨i, hi⟩ := List.mem_iff_getElem?.1 hj
      have hp := List.getElem?_eq_getElem (l := g.names.zipIdx) (i := 0)
        (by simpa using names_pos hg)
      obtain ⟨hcol, hrow⟩ := column_of_grouped h hi hp
      exact ((rowAt_iff hg hj (List.mem_of_getElem? hp) hcol).1 hrow).1
    · obtain ⟨i, hi⟩ := List.mem_iff_getElem?.1 hj
      obtain ⟨k, hk⟩ := List.mem_iff_getElem?.1 hp
      obtain ⟨hcol, hrow⟩ := column_of_grouped h hi hk
      exact ((rowAt_iff hg hj hp hcol).1 hrow).2
  · rintro ⟨haligned, hrange, htotals⟩
    have hfin := finished_of_aligned hg haligned hrange htotals
    exact ⟨hfin, rows_of_aligned hg haligned hfin, holds_of_aligned hg haligned hfin⟩

/-- The grid of `sampleFiles`: the second file misses the first tick. -/
def lateStart : TickGrid where
  names := ["read"]
  elapsed := 1000000000
  files := [⟨"a", [0, 1], sampleTime, fun _ _ => sampleHist⟩,
    ⟨"b", [1], sampleTime, fun _ _ => sampleHist⟩]

theorem lateStart_valid : lateStart.Valid .exact where
  names_ne := by decide
  names_nodup := by decide
  ticks_ne := by decide
  ticks_sorted := by decide
  millis := by decide +kernel
  ordered := by decide +kernel
  near := by decide +kernel
  far := by decide +kernel
  bounds := by
    have hlen : sampleHist.counts.length = sampleHist.toSnapshot.binsNeeded .exact := by
      decide +kernel
    refine ⟨1, 2, 0, by decide +kernel, by decide, fun f hf j _ k _ => ?_⟩
    simp only [lateStart, List.mem_cons, List.not_mem_nil, or_false] at hf
    rcases hf with rfl | rfl <;> exact ⟨rfl, rfl, rfl, hlen⟩

theorem grouped_iff_lateStart : lateStart.Grouped .exact ↔
    lateStart.Aligned ∧ lateStart.InRange ∧ lateStart.TotalsFit .exact :=
  grouped_iff .exact lateStart lateStart_valid

/-- The first row merges the only record of the second file, a second too early. -/
theorem lateStart_not_grouped : lateStart.Valid .exact ∧ ¬ lateStart.Grouped .exact := by
  refine ⟨lateStart_valid, fun h => ?_⟩
  have hrows := h.rows
  revert hrows
  decide +kernel

end TickGrid

end Chist
