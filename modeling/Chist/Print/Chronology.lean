import Chist.Print.Row

/-!
# The order of the rows in time

If the timestamps of every file never decrease, the earliest of the next records is the earliest of
all records left (`anchor_le_unread`), so a turn selects a time that no record left is before, and
the times of the rows never decrease (`print_chronological`).
-/

set_option autoImplicit false

namespace Chist

open Res Loop

/-- The timestamps of every file never decrease. -/
def SortedFiles (files : List HistFile) : Prop :=
  ∀ file ∈ files, file.records.Pairwise fun x y => x.now.nanos ≤ y.now.nanos

instance (files : List HistFile) : Decidable (SortedFiles files) :=
  inferInstanceAs (Decidable (∀ file ∈ files, _))

/-- The records no row has consumed. -/
def unread (walks : List HistFileWalkState) : List HistRecord :=
  walks.flatMap fun walk => walk.records.drop walk.ri

/-- The time an iteration selects: that of `maybe_min_time`, if there is one. -/
def selectedTime (walks : List HistFileWalkState) : Option DateTime :=
  (minByTime (walks.filterMap fun walk => walk.peekNextTime.map (walk, ·))).map (·.2)

/-- Every iteration selects a time that no record left is before, and prints it; the records it
merges are not before it, and neither is any later row. -/
structure Chronological (fl : Floats) (files : List HistFile) : Prop where
  earliest : ∀ walks, Reach (printTurn fl) (files.map startWalk) walks →
    ∀ t ∈ selectedTime walks, ∀ x ∈ unread walks, t.nanos ≤ x.now.nanos
  prints : ∀ walks row walks', Reach (printTurn fl) (files.map startWalk) walks →
    printTurn fl walks = .ok (some (row, walks')) → selectedTime walks = some row.time ∧
      ∀ x ∈ row.merged, row.time.nanos ≤ x.now.nanos
  rows : (print fl files).1.Pairwise fun row row' => row.time.nanos ≤ row'.time.nanos

variable {fl : Floats} {files : List HistFile} {r : Nat}

/-! ## One turn -/

theorem mem_unread {x : HistRecord} : x ∈ unread (files.map (walkAt r)) ↔
    ∃ file ∈ files, ∃ i, r ≤ i ∧ file.records[i]? = some x := by
  simp only [unread, List.mem_flatMap, List.mem_map, exists_exists_and_eq_and, walkAt]
  refine exists_congr fun file => and_congr_right fun _ => ?_
  rw [List.mem_iff_getElem?]
  refine ⟨?_, ?_⟩
  · rintro ⟨k, hk⟩
    rw [List.getElem?_drop] at hk
    have hlt := (List.getElem?_eq_some_iff.1 hk).1
    exact ⟨_, by omega, hk⟩
  · rintro ⟨i, hi, hx⟩
    have hlt := (List.getElem?_eq_some_iff.1 hx).1
    refine ⟨i - min r file.records.length, ?_⟩
    rw [List.getElem?_drop, Nat.add_sub_cancel' (by omega), hx]

theorem selectedTime_walkAt (files : List HistFile) (r : Nat) :
    selectedTime (files.map (walkAt r)) = (anchor files r).map (·.now) := by
  rw [selectedTime, minByTime_heads, anchor_eq_heads, Option.map_map, Option.map_map]
  rfl

/-- **The anchor is the earliest record left** when the files are sorted. -/
theorem anchor_le_unread (h : SortedFiles files) {a : HistRecord} (ha : anchor files r = some a) :
    ∀ x ∈ unread (files.map (walkAt r)), a.now.nanos ≤ x.now.nanos := by
  intro x hx
  obtain ⟨file, hf, i, hi, hx⟩ := mem_unread.1 hx
  have hlt := (List.getElem?_eq_some_iff.1 hx).1
  have hr : r < file.records.length := by omega
  have hle := anchor_le ha _ (mem_entries.2 ⟨file, hf, List.getElem?_eq_getElem hr⟩)
  rw [← (List.getElem?_eq_some_iff.1 hx).2]
  rcases Nat.eq_or_lt_of_le hi with rfl | hri
  · exact hle
  · exact hle.trans (List.pairwise_iff_getElem.1 (h file hf) r i hr hlt hri)

theorem entries_subset_unread {x : HistRecord} {i : Nat} (hi : r ≤ i) (hx : x ∈ entries files i) :
    x ∈ unread (files.map (walkAt r)) := by
  obtain ⟨file, hf, hfx⟩ := mem_entries.1 hx
  exact mem_unread.2 ⟨file, hf, i, hi, hfx⟩

/-! ## The run -/

/-- **The output is chronological** for files in timestamp order. -/
theorem print_chronological (fl : Floats) (files : List HistFile) (h : SortedFiles files) :
    Chronological fl files where
  earliest := by
    rintro walks ⟨rows, hrows⟩ t ht x hx
    obtain ⟨rfl, -⟩ := steps_columns hrows
    rw [selectedTime_walkAt] at ht
    obtain ⟨a, ha, rfl⟩ := Option.map_eq_some_iff.1 ht
    exact anchor_le_unread h ha x hx
  prints := by
    intro walks row walks' hreach ht
    obtain ⟨r, -, rfl, -, a, next, hat⟩ := reach_turn hreach ht
    have hmade := makeRow_eq_ok hat.made
    rw [selectedTime_walkAt, hat.anchor_eq, hmade.time_eq]
    refine ⟨rfl, fun x hx => ?_⟩
    rw [Row.merged, hmade.picked_eq] at hx
    exact anchor_le hat.anchor_eq x hx
  rows := by
    rw [List.pairwise_iff_getElem]
    intro i j hi hj hij
    obtain ⟨a, next, hat⟩ := (printed fl files).rowAt i _ (List.getElem?_eq_getElem hi)
    obtain ⟨a', next', hat'⟩ := (printed fl files).rowAt j _ (List.getElem?_eq_getElem hj)
    rw [(makeRow_eq_ok hat.made).time_eq, (makeRow_eq_ok hat'.made).time_eq]
    exact anchor_le_unread h hat.anchor_eq a'
      (entries_subset_unread (Nat.le_of_lt hij) (anchor_mem hat'.anchor_eq))

theorem print_chronological_sample : Chronological .exact sampleFiles :=
  print_chronological .exact sampleFiles (by decide +kernel)

end Chist
