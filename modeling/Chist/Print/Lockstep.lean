import Chist.Print
import Chist.Lib.Columns

/-!
# The merge loop reads columns

Every file that has a record left gives it up in every turn, whatever its time: after `r` turns all
cursors are at `r` or at their file's end (`walkAt`), and turn `r` merges the `r`-th records of
all files, their `column`. `turn_ok_iff` and `turn_error` say when it prints a row and how it
fails, in terms of the column alone; `Printed` collects what is known of a row of the run.
-/

set_option autoImplicit false

namespace Chist

open Res Hdr

def recordLists (files : List HistFile) : List (List HistRecord) := files.map (·.records)

def column (files : List HistFile) (r : Nat) : List (Option HistRecord) :=
  Columns.column (recordLists files) r

def entries (files : List HistFile) (r : Nat) : List HistRecord :=
  Columns.entries (recordLists files) r

/-- The length of the longest file. -/
def depth (files : List HistFile) : Nat := Columns.depth (recordLists files)

/-- `min_record` in turn `r`: the first of the earliest records of the column. -/
def anchor (files : List HistFile) (r : Nat) : Option HistRecord :=
  (entries files r).minOn? (·.now.nanos)

/-- `min_next`: when the record after `a` is expected. -/
def HistRecord.nextTime {ε : Type} (a : HistRecord) : Res ε DateTime := do
  let elapsed ← a.elapsedNanos
  a.now.add elapsed

/-- `x` is closer to `t1` than to `t2`. -/
def Closer (t1 t2 : DateTime) (x : HistRecord) : Prop := x.now.millisApart t1 < x.now.millisApart t2

instance (t1 t2 : DateTime) (x : HistRecord) : Decidable (Closer t1 t2 x) :=
  inferInstanceAs (Decidable (_ < _))

/-- The cursor of `file` after `r` turns. -/
def walkAt (r : Nat) (file : HistFile) : HistFileWalkState :=
  ⟨file.label, file.records, min r file.records.length⟩

variable {fl : Floats} {files : List HistFile} {r : Nat}

theorem mem_entries {x : HistRecord} :
    x ∈ entries files r ↔ ∃ file ∈ files, file.records[r]? = some x := by
  rw [entries, Columns.mem_entries]
  refine ⟨?_, ?_⟩
  · rintro ⟨l, hl, hx⟩
    obtain ⟨file, hf, rfl⟩ := List.mem_map.1 hl
    exact ⟨file, hf, hx⟩
  · rintro ⟨file, hf, hx⟩
    exact ⟨_, List.mem_map_of_mem hf, hx⟩

theorem column_eq (files : List HistFile) (r : Nat) :
    column files r = files.map (·.records[r]?) := by
  simp [column, recordLists, Columns.column]

/-! ## The time of the next record -/

theorem DateTime.eq_of_nanos {t u : DateTime} (h : t.nanos = u.nanos) : t = u := by
  cases t
  cases u
  simpa using h

/-- The time after the record can be represented. -/
def HistRecord.TimeOk (a : HistRecord) : Prop :=
  a.elapsed.toNat < 2 ^ 63 ∧ a.now.nanos + a.elapsed.toNat ≤ maxDateTime

instance (a : HistRecord) : Decidable a.TimeOk := inferInstanceAs (Decidable (_ ∧ _))

theorem nextTime_of_timeOk {ε : Type} {a : HistRecord} (h : a.TimeOk) : ∃ next : DateTime,
    a.nextTime (ε := ε) = .ok next ∧ next.nanos = a.now.nanos + a.elapsed.toNat := by
  have hrange : minDateTime ≤ a.now.nanos + a.elapsed.toNat ∧
      a.now.nanos + a.elapsed.toNat ≤ maxDateTime := ⟨by have := a.now.inRange.1; omega, h.2⟩
  refine ⟨⟨_, hrange⟩, ?_, rfl⟩
  unfold HistRecord.nextTime HistRecord.elapsedNanos
  rw [if_pos h.1, ok_bind, DateTime.add, dif_pos hrange]

theorem nextTime_of_not_timeOk {ε : Type} {a : HistRecord} (h : ¬ a.TimeOk) :
    IsPanic (a.nextTime (ε := ε)) := by
  unfold HistRecord.nextTime HistRecord.elapsedNanos
  by_cases he : a.elapsed.toNat < 2 ^ 63
  · rw [if_pos he, ok_bind, DateTime.add, dif_neg fun hr => h ⟨he, hr.2⟩]
    exact ⟨_, rfl⟩
  · rw [if_neg he]
    exact ⟨_, rfl⟩

theorem nextTime_eq_ok {ε : Type} {a : HistRecord} {next : DateTime}
    (h : a.nextTime (ε := ε) = .ok next) :
    a.TimeOk ∧ next.nanos = a.now.nanos + a.elapsed.toNat := by
  by_cases ht : a.TimeOk
  · obtain ⟨next', h1, h2⟩ := nextTime_of_timeOk (ε := ε) ht
    rw [h, Except.ok.injEq] at h1
    exact ⟨ht, h1 ▸ h2⟩
  · obtain ⟨p, hp⟩ := nextTime_of_not_timeOk (ε := ε) ht
    rw [h] at hp
    cases hp

/-! ## The anchor -/

theorem anchor_mem {a : HistRecord} (h : anchor files r = some a) : a ∈ entries files r :=
  List.minOn?_mem h

theorem anchor_le {a : HistRecord} (h : anchor files r = some a) :
    ∀ x ∈ entries files r, a.now.nanos ≤ x.now.nanos := by
  intro x hx
  have hmin := List.minOn_eq_of_minOn?_eq_some h
  exact hmin ▸ List.apply_minOn_le_of_mem (f := (·.now.nanos)) hx

theorem anchor_eq_none_iff_entries : anchor files r = none ↔ entries files r = [] := by
  rw [anchor, ← Option.not_isSome_iff_eq_none, List.isSome_minOn?_iff, not_not]

theorem anchor_eq_none_iff : anchor files r = none ↔ depth files ≤ r :=
  anchor_eq_none_iff_entries.trans Columns.entries_eq_nil_iff

/-! ## One turn -/

/-- The files that have an `r`-th record, at their cursors. -/
def heads (files : List HistFile) (r : Nat) : List (HistFileWalkState × HistRecord) :=
  files.filterMap fun file => file.records[r]?.map (walkAt r file, ·)

theorem getElem?_walkAt (r : Nat) (file : HistFile) :
    (walkAt r file).records[(walkAt r file).ri]? = file.records[r]? := by
  unfold walkAt
  rcases Nat.le_total r file.records.length with h | h
  · rw [min_eq_left h]
  · rw [min_eq_right h, List.getElem?_eq_none (Nat.le_refl _), List.getElem?_eq_none h]

theorem entries_eq_heads (files : List HistFile) (r : Nat) :
    entries files r = (heads files r).map (·.2) := by
  unfold heads entries Columns.entries
  rw [← column, column_eq, List.filterMap_map, List.map_filterMap]
  congr 1
  funext file
  cases h : file.records[r]? <;> simp [h]

/-- `min_by` keeps the first of several minima, as `minOn?` does. -/
theorem minByTime_eq {α : Type} (l : List (α × DateTime)) :
    minByTime l = l.minOn? (·.2.nanos) := by
  cases l with
  | nil => rfl
  | cons x xs =>
    refine congrArg (fun f => some (xs.foldl f x)) ?_
    funext best y
    rw [minOn_eq_if]
    by_cases h : y.2.nanos < best.2.nanos
    · rw [if_pos h, if_neg (not_le.2 h)]
    · rw [if_neg h, if_pos (not_lt.1 h)]

theorem minOn?_map {α β : Type} (f : α → β) (key : β → Int) (l : List α) :
    (l.map f).minOn? key = (l.minOn? (key ∘ f)).map f := by
  cases l with
  | nil => rfl
  | cons x xs =>
    refine congrArg some ?_
    rw [List.foldl_map]
    exact List.foldl_hom f fun best y => (apply_ite f _ best y).symm

/-- `maybe_min_time` is the anchor and the cursor it is at. -/
theorem minByTime_heads (files : List HistFile) (r : Nat) :
    minByTime ((files.map (walkAt r)).filterMap fun walk => walk.peekNextTime.map (walk, ·)) =
      ((heads files r).minOn? (·.2.now.nanos)).map fun head => (head.1, head.2.now) := by
  have hmap := minOn?_map (fun head : HistFileWalkState × HistRecord => (head.1, head.2.now))
    (·.2.nanos) (heads files r)
  rw [minByTime_eq]
  refine Eq.trans ?_ hmap
  congr 1
  unfold heads
  rw [List.filterMap_map, List.map_filterMap]
  congr 1
  funext file
  simp only [Function.comp, HistFileWalkState.peekNextTime, getElem?_walkAt, Option.map_map]
  rfl

theorem anchor_eq_heads (files : List HistFile) (r : Nat) :
    anchor files r = ((heads files r).minOn? (·.2.now.nanos)).map (·.2) := by
  rw [anchor, entries_eq_heads, minOn?_map]
  rfl

theorem peekRecord_heads {head : HistFileWalkState × HistRecord} (h : head ∈ heads files r) :
    head.1.peekRecord (ε := ChistError) = .ok head.2 := by
  obtain ⟨file, -, hf⟩ := List.mem_filterMap.1 h
  obtain ⟨x, hx, rfl⟩ := Option.map_eq_some_iff.1 hf
  exact index_ok (by rw [getElem?_walkAt, hx])

/-- A file gives up its record, closer or not, unless it is closer and has another name. -/
theorem maybeEat_walkAt (r : Nat) (file : HistFile) (t1 t2 : DateTime) (name : String) :
    (walkAt r file).maybeEatRecordTimeName t1 t2 name =
      match file.records[r]? with
      | none => .ok (none, walkAt (r + 1) file)
      | some x => if Closer t1 t2 x ∧ x.name ≠ name then
          .err (.nameMismatch file.label (r + 1) name x.name)
        else .ok (some x, walkAt (r + 1) file) := by
  unfold HistFileWalkState.maybeEatRecordTimeName
  rw [getElem?_walkAt]
  cases hx : file.records[r]? with
  | none =>
    have hle := List.getElem?_eq_none_iff.1 hx
    simp only [walkAt, min_eq_right hle, min_eq_right (Nat.le_succ_of_le hle)]
  | some x =>
    have hlt := (List.getElem?_eq_some_iff.1 hx).1
    simp only [walkAt, min_eq_left (Nat.le_of_lt hlt), min_eq_left (Nat.succ_le_of_lt hlt)]
    rfl

/-- The closer records of the column have the name of `a`. -/
def NamesAgree (files : List HistFile) (r : Nat) (a : HistRecord) (next : DateTime) : Prop :=
  ∀ x ∈ entries files r, Closer a.now next x → x.name = a.name

/-- **All files give up their records** if the closer ones have the name of the anchor. -/
theorem eatColumn_ok {a : HistRecord} {next : DateTime} (h : NamesAgree files r a next) :
    (files.map (walkAt r)).mapM (·.maybeEatRecordTimeName a.now next a.name) =
      .ok (files.map fun file => (file.records[r]?, walkAt (r + 1) file)) := by
  rw [List.mapM_map]
  refine mapM_of_ok fun file hf => ?_
  rw [Function.comp, maybeEat_walkAt]
  cases hx : file.records[r]? with
  | none => rfl
  | some x =>
    have hname := h x (mem_entries.2 ⟨file, hf, hx⟩)
    exact if_neg fun hc => hc.2 (hname hc.1)

/-- Otherwise the turn ends with the error of one that has not. -/
theorem eatColumn_error {a : HistRecord} {next : DateTime} (h : ¬ NamesAgree files r a next) :
    ∃ file ∈ files, ∃ x, file.records[r]? = some x ∧ Closer a.now next x ∧ x.name ≠ a.name ∧
      (files.map (walkAt r)).mapM (·.maybeEatRecordTimeName a.now next a.name) =
        .error (.err (.nameMismatch file.label (r + 1) a.name x.name)) := by
  cases hm : (files.map (walkAt r)).mapM
      (·.maybeEatRecordTimeName a.now next a.name) with
  | ok ys =>
    refine absurd (fun x hx hc => ?_) h
    obtain ⟨file, hf, hfx⟩ := mem_entries.1 hx
    obtain ⟨y, hy⟩ := mapM_eq_ok hm _ (List.mem_map_of_mem hf)
    rw [maybeEat_walkAt, hfx] at hy
    by_contra hname
    simp only [hc, hname, ne_eq, not_false_eq_true, and_self, if_true] at hy
    cases hy
  | error e =>
    obtain ⟨walk, hw, he⟩ := mapM_eq_error hm
    obtain ⟨file, hf, rfl⟩ := List.mem_map.1 hw
    rw [maybeEat_walkAt] at he
    cases hx : file.records[r]? with
    | none =>
      rw [hx] at he
      cases he
    | some x =>
      rw [hx] at he
      simp only at he
      split at he
      · rename_i hc
        cases he
        exact ⟨file, hf, x, hx, hc.1, hc.2, rfl⟩
      · cases he

/-- Turn `r`, once its anchor is known. -/
theorem printTurn_walkAt {a : HistRecord} (ha : anchor files r = some a) :
    printTurn fl (files.map (walkAt r)) = (do
      let next ← a.nextTime
      let eaten ← (files.map (walkAt r)).mapM (·.maybeEatRecordTimeName a.now next a.name)
      let row ← makeRow fl a.now a.name a.elapsed (eaten.map (·.1))
      return some (row, eaten.map (·.2))) := by
  rw [anchor_eq_heads] at ha
  obtain ⟨head, hh, rfl⟩ := Option.map_eq_some_iff.1 ha
  unfold printTurn
  rw [minByTime_heads, hh, Option.map_some]
  simp only []
  rw [peekRecord_heads (List.minOn?_mem hh), ok_bind]
  unfold HistRecord.nextTime
  cases head.2.elapsedNanos (ε := ChistError) <;> rfl

theorem printTurn_done (h : depth files ≤ r) : printTurn fl (files.map (walkAt r)) = .ok none := by
  have hn := anchor_eq_none_iff.2 h
  rw [anchor_eq_heads, Option.map_eq_none_iff] at hn
  unfold printTurn
  rw [minByTime_heads, hn]
  rfl

/-- Column `r` is printed as `row`, with anchor `a` and the record after it expected at `next`. -/
structure RowAt (fl : Floats) (files : List HistFile) (r : Nat) (a : HistRecord) (next : DateTime)
    (row : Row) : Prop where
  anchor_eq : anchor files r = some a
  next_eq : a.nextTime (ε := ChistError) = .ok next
  names : NamesAgree files r a next
  made : makeRow fl a.now a.name a.elapsed (column files r) = .ok row

theorem map_eaten (files : List HistFile) (r : Nat) :
    (files.map fun file => (file.records[r]?, walkAt (r + 1) file)).map (·.1) = column files r ∧
      (files.map fun file => (file.records[r]?, walkAt (r + 1) file)).map (·.2) =
        files.map (walkAt (r + 1)) := by
  rw [List.map_map, List.map_map, column_eq]
  exact ⟨rfl, rfl⟩

section
variable {a : HistRecord} {next : DateTime} (ha : anchor files r = some a)
  (hnext : a.nextTime (ε := ChistError) = .ok next)
include ha hnext

/-- A turn whose names agree prints the row of the column or fails with it. -/
theorem turn_of_agree (hn : NamesAgree files r a next) :
    printTurn fl (files.map (walkAt r)) =
      (makeRow fl a.now a.name a.elapsed (column files r)).map fun row =>
        some (row, files.map (walkAt (r + 1))) := by
  obtain ⟨hcol, hwalks⟩ := map_eaten files r
  rw [printTurn_walkAt ha, hnext, ok_bind, eatColumn_ok hn, ok_bind, hcol, hwalks]
  cases makeRow fl a.now a.name a.elapsed (column files r) <;> rfl

/-- A turn whose names do not agree is an `Err`. -/
theorem turn_of_mismatch (hn : ¬ NamesAgree files r a next) :
    IsErr (printTurn fl (files.map (walkAt r))) := by
  obtain ⟨file, -, x, -, -, -, he⟩ := eatColumn_error hn
  exact ⟨_, by rw [printTurn_walkAt ha, hnext, ok_bind, he, error_bind]⟩

end

/-- **A turn that prints a row** prints that of the column and moves every cursor. -/
theorem turn_ok_iff {row : Row} {walks : List HistFileWalkState} :
    printTurn fl (files.map (walkAt r)) = .ok (some (row, walks)) ↔
      walks = files.map (walkAt (r + 1)) ∧ ∃ a next, RowAt fl files r a next row := by
  refine ⟨?_, ?_⟩
  · intro h
    cases ha : anchor files r with
    | none =>
      rw [printTurn_done (anchor_eq_none_iff.1 ha)] at h
      cases h
    | some a =>
    have h' := h
    rw [printTurn_walkAt ha] at h'
    obtain ⟨next, hnext, -⟩ := bind_eq_ok.1 h'
    by_cases hn : NamesAgree files r a next
    · rw [turn_of_agree ha hnext hn] at h
      cases hrow : makeRow fl a.now a.name a.elapsed (column files r) with
      | error e =>
        rw [hrow] at h
        cases h
      | ok row' =>
        rw [hrow] at h
        cases h
        exact ⟨rfl, a, next, ha, hnext, hn, hrow⟩
    · obtain ⟨e, he⟩ : IsErr (printTurn fl (files.map (walkAt r))) :=
        turn_of_mismatch ha hnext hn
      rw [he] at h
      cases h
  · rintro ⟨rfl, a, next, h⟩
    rw [turn_of_agree h.anchor_eq h.next_eq h.names, h.made]
    rfl

theorem turn_done_iff : printTurn fl (files.map (walkAt r)) = .ok none ↔ depth files ≤ r := by
  refine ⟨?_, ?_⟩
  · intro h
    rw [← anchor_eq_none_iff]
    cases ha : anchor files r with
    | none => rfl
    | some a =>
      rw [printTurn_walkAt ha] at h
      obtain ⟨next, -, h⟩ := bind_eq_ok.1 h
      obtain ⟨eaten, -, h⟩ := bind_eq_ok.1 h
      obtain ⟨row, -, h⟩ := bind_eq_ok.1 h
      cases h
  · exact printTurn_done

/-- **How a turn fails**: a time out of range, a closer record with another name, or the merge. -/
theorem turn_error {e : Stop ChistError} (h : printTurn fl (files.map (walkAt r)) = .error e) :
    ∃ a, anchor files r = some a ∧ (a.nextTime = .error e ∨ ∃ next, a.nextTime (ε := ChistError) =
      .ok next ∧ ((¬ NamesAgree files r a next ∧ ∃ file ∈ files, ∃ x, file.records[r]? = some x ∧
          Closer a.now next x ∧ x.name ≠ a.name ∧
          e = .err (.nameMismatch file.label (r + 1) a.name x.name)) ∨
        (NamesAgree files r a next ∧
          makeRow fl a.now a.name a.elapsed (column files r) = .error e))) := by
  cases ha : anchor files r with
  | none =>
    rw [printTurn_done (anchor_eq_none_iff.1 ha)] at h
    cases h
  | some a =>
    refine ⟨a, rfl, ?_⟩
    rw [printTurn_walkAt ha] at h
    rcases bind_eq_error.1 h with h | ⟨next, hnext, h⟩
    · exact .inl h
    refine .inr ⟨next, hnext, ?_⟩
    by_cases hn : NamesAgree files r a next
    · rw [eatColumn_ok hn, ok_bind, List.map_map] at h
      refine .inr ⟨hn, ?_⟩
      rcases bind_eq_error.1 h with h | ⟨row, -, h⟩
      · rwa [column_eq]
      · cases h
    · obtain ⟨file, hf, x, hx, hc, hname, he⟩ := eatColumn_error hn
      rw [he] at h
      cases h
      exact .inl ⟨hn, file, hf, x, hx, hc, hname, rfl⟩

/-! ## The run -/

theorem walkAt_zero (files : List HistFile) : files.map (walkAt 0) = files.map startWalk := by
  simp [walkAt, startWalk]

theorem depth_le_totalRecords (files : List HistFile) : depth files ≤ totalRecords files := by
  have h := Columns.depth_le_sum (recordLists files)
  rwa [recordLists, List.map_map] at h

/-- **The states of a run**: after `r` rows every cursor is at `r`, and row `r` is that of its
column. -/
theorem steps_columns {rows : List Row} {walks : List HistFileWalkState}
    (h : Loop.Steps (printTurn fl) (files.map startWalk) rows walks) :
    walks = files.map (walkAt rows.length) ∧
      ∀ i row, rows[i]? = some row → ∃ a next, RowAt fl files i a next row := by
  rw [← walkAt_zero] at h
  obtain ⟨h1, h2⟩ := h.indexed (fun r => files.map (walkAt r))
    fun r row walks ht => (turn_ok_iff.1 ht).1
  rw [Nat.zero_add] at h1
  refine ⟨h1, fun i row hrow => ?_⟩
  have ht := h2 i row hrow
  rw [Nat.zero_add] at ht
  exact (turn_ok_iff.1 ht).2

theorem rows_le_depth {rows : List Row} {walks : List HistFileWalkState}
    (h : Loop.Steps (printTurn fl) (files.map startWalk) rows walks) :
    rows.length ≤ depth files := by
  by_contra hc
  have hi : depth files < rows.length := Nat.lt_of_not_le hc
  obtain ⟨a, next, hr⟩ := (steps_columns h).2 _ _ (List.getElem?_eq_getElem hi)
  have := anchor_eq_none_iff.2 (Nat.le_refl (depth files))
  rw [hr.anchor_eq] at this
  cases this

/-- What is known of a run of `print`. -/
structure Printed (fl : Floats) (files : List HistFile) : Prop where
  steps : Loop.Steps (printTurn fl) (files.map startWalk) (print fl files).1
    (files.map (walkAt (print fl files).1.length))
  rowAt : ∀ i row, (print fl files).1[i]? = some row → ∃ a next, RowAt fl files i a next row
  finished : (print fl files).2 = .finished → (print fl files).1.length = depth files
  failed : ∀ e, (print fl files).2 = .failed e →
    printTurn fl (files.map (walkAt (print fl files).1.length)) = .error e
  stops : (print fl files).2 ≠ .running

theorem printed (fl : Floats) (files : List HistFile) : Printed fl files := by
  obtain ⟨walks, h1, h2, h3, h4⟩ :=
    Loop.run_steps (printTurn fl) (totalRecords files + 1) (files.map startWalk)
  obtain ⟨rfl, hrows⟩ := steps_columns h1
  have hle := rows_le_depth h1
  refine ⟨h1, hrows, fun h => ?_, h3, fun h => ?_⟩
  · exact Nat.le_antisymm hle (turn_done_iff.1 (h2 h))
  · have := h4 h
    have := depth_le_totalRecords files
    omega

/-- The states of the run of `print` are those of its rows. -/
theorem reach_walkAt (fl : Floats) (files : List HistFile) {r : Nat}
    (h : r ≤ (print fl files).1.length) :
    Loop.Reach (printTurn fl) (files.map startWalk) (files.map (walkAt r)) := by
  obtain ⟨walks, hw⟩ := (printed fl files).steps.take r
  obtain ⟨rfl, -⟩ := steps_columns hw
  rw [List.length_take, min_eq_left h] at hw
  exact ⟨_, hw⟩

/-- A row printed from a state that can be reached is a row of the run. -/
theorem reach_turn {walks walks' : List HistFileWalkState} {row : Row}
    (h : Loop.Reach (printTurn fl) (files.map startWalk) walks)
    (ht : printTurn fl walks = .ok (some (row, walks'))) : ∃ r < (print fl files).1.length,
      walks = files.map (walkAt r) ∧ walks' = files.map (walkAt (r + 1)) ∧
        ∃ a next, RowAt fl files r a next row := by
  obtain ⟨rows, hrows⟩ := h
  have hsteps := hrows.snoc ht
  obtain ⟨rfl, -⟩ := steps_columns hrows
  have hle : (rows ++ [row]).length ≤ totalRecords files :=
    (rows_le_depth hsteps).trans (depth_le_totalRecords files)
  have hrun := Loop.run_of_steps hsteps (totalRecords files + 1 - (rows ++ [row]).length)
  rw [Nat.add_sub_cancel' (Nat.le_succ_of_le hle)] at hrun
  have hlen : rows.length < (print fl files).1.length := by
    unfold print
    rw [hrun]
    simp
  obtain ⟨h1, h2⟩ := turn_ok_iff.1 ht
  exact ⟨rows.length, hlen, rfl, h1, h2⟩

/-- `chist print` always stops, within as many rows as there are records. -/
theorem print_stops (fl : Floats) (files : List HistFile) :
    (print fl files).2 ≠ .running ∧ (print fl files).1.length ≤ totalRecords files :=
  ⟨(printed fl files).stops,
    (rows_le_depth (printed fl files).steps).trans (depth_le_totalRecords files)⟩

/-- **`chist print` returns `Ok` exactly when every column prints.** -/
theorem print_finished_iff (fl : Floats) (files : List HistFile) :
    (print fl files).2 = .finished ↔
      ∀ r < depth files, ∃ a next row, RowAt fl files r a next row := by
  have hp := printed fl files
  refine ⟨?_, ?_⟩
  · intro h r hr
    rw [← hp.finished h] at hr
    obtain ⟨a, next, h⟩ := hp.rowAt r _ (List.getElem?_eq_getElem hr)
    exact ⟨a, next, _, h⟩
  · intro h
    cases ho : (print fl files).2 with
    | finished => rfl
    | running => exact absurd ho hp.stops
    | failed e =>
      have he := hp.failed e ho
      have hlt : (print fl files).1.length < depth files := by
        by_contra hc
        rw [turn_done_iff.2 (Nat.le_of_not_lt hc)] at he
        cases he
      obtain ⟨a, next, row, hr⟩ := h _ hlt
      rw [turn_ok_iff.2 ⟨rfl, a, next, hr⟩] at he
      cases he

end Chist
