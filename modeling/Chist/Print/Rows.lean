import Chist.Print.Rejected

/-!
# What a row merges

A row is sound (`SoundStep`) if its records have its name and are closer to its time than to the
next, and the files whose next record is not closer keep it. The cursor of such a file moves all
the same, so the rows of a run are sound exactly when no file ever has such a record
(`rowsSound_iff`).
-/

set_option autoImplicit false

namespace Chist

open Res Hdr Loop

/-- The rule of the merge for a turn from `walks` to `walks'`, the next record of the anchor being
expected at `next`. -/
structure SoundStep (next : DateTime) (walks : List HistFileWalkState) (row : Row)
    (walks' : List HistFileWalkState) : Prop where
  merged : ∀ x ∈ row.merged, x.name = row.name ∧ Closer row.time next x
  kept : ∀ (j : Nat) (walk : HistFileWalkState) (x : HistRecord), walks[j]? = some walk →
    walk.records[walk.ri]? = some x → ¬ Closer row.time next x → walks'[j]? = some walk

/-- Every row with an elapsed of at least 1 ms, printed from any state that can be reached, keeps
the rule. -/
def RowsSound (fl : Floats) (files : List HistFile) : Prop :=
  ∀ walks row walks' next, Reach (printTurn fl) (files.map startWalk) walks →
    printTurn fl walks = .ok (some (row, walks')) → 1000000 ≤ row.elapsed.toNat →
    row.time.add (ε := Empty) row.elapsed.toNat = .ok next → SoundStep next walks row walks'

/-- All next records are closer to the time of the anchor than to the next. -/
def AllCloser (files : List HistFile) (r : Nat) : Prop :=
  ∀ a next, anchor files r = some a → 1000000 ≤ a.elapsed.toNat →
    a.nextTime (ε := Empty) = .ok next → ∀ x ∈ entries files r, Closer a.now next x

variable {fl : Floats} {files : List HistFile} {r : Nat}

theorem add_eq_ok {ε : Type} {t next : DateTime} {d : Nat} (h : t.add (ε := ε) d = .ok next) :
    next.nanos = t.nanos + d := by
  unfold DateTime.add at h
  split at h
  · exact (Except.ok.inj h) ▸ rfl
  · cases h

/-- A run is sound if the turns that print a row find all next records closer. -/
theorem rowsSound_iff_rows (fl : Floats) (files : List HistFile) :
    RowsSound fl files ↔ ∀ r < (print fl files).1.length, AllCloser files r := by
  refine ⟨?_, ?_⟩
  · intro h r hr a next ha helapsed hnext x hx
    obtain ⟨a', next', hat⟩ := (printed fl files).rowAt r _ (List.getElem?_eq_getElem hr)
    obtain rfl : a = a' := Option.some.inj (ha.symm.trans hat.anchor_eq)
    have hmade := makeRow_eq_ok hat.made
    have hadd : (print fl files).1[r].time.add (ε := Empty) (print fl files).1[r].elapsed.toNat =
        .ok next := by
      rw [hmade.time_eq, hmade.elapsed_eq, ← hnext, HistRecord.nextTime, HistRecord.elapsedNanos,
        if_pos (nextTime_eq_ok hnext).1.1, ok_bind]
    have hsound := h _ _ _ next (reach_walkAt fl files (Nat.le_of_lt hr))
      (turn_ok_iff.2 ⟨rfl, a, next', hat⟩) (by rw [hmade.elapsed_eq]; exact helapsed) hadd
    have hx' : x ∈ (print fl files).1[r].merged := by
      rw [Row.merged, hmade.picked_eq]
      exact hx
    have := (hsound.merged x hx').2
    rwa [hmade.time_eq] at this
  · intro h walks row walks' next hreach ht helapsed hadd
    obtain ⟨r, hr, rfl, rfl, a, next', hat⟩ := reach_turn hreach ht
    have hmade := makeRow_eq_ok hat.made
    rw [hmade.time_eq, hmade.elapsed_eq] at hadd
    rw [hmade.elapsed_eq] at helapsed
    have hnext : next' = next := DateTime.eq_of_nanos
      ((nextTime_eq_ok hat.next_eq).2.trans (add_eq_ok hadd).symm)
    obtain ⟨hok, -⟩ := nextTime_eq_ok hat.next_eq
    have hclose := h r hr a next hat.anchor_eq helapsed (by
      rw [HistRecord.nextTime, HistRecord.elapsedNanos, if_pos hok.1, ok_bind, hadd])
    refine ⟨fun x hx => ?_, fun j walk x hj hx hc => ?_⟩
    · rw [Row.merged, hmade.picked_eq] at hx
      rw [hmade.name_eq, hmade.time_eq]
      exact ⟨hat.names x hx (hnext ▸ hclose x hx), hclose x hx⟩
    · -- no next record is kept back
      obtain ⟨file, hf, rfl⟩ := List.mem_map.1 (List.mem_of_getElem? hj)
      rw [getElem?_walkAt] at hx
      rw [hmade.time_eq] at hc
      exact absurd (hclose x (mem_entries.2 ⟨file, hf, hx⟩)) hc

/-- **The rows of a run are sound exactly when** in every turn that comes before the first rejected
column, the next record of every file is closer to the time of the earliest one than to the next
time, should the row be of at least 1 ms. -/
theorem rowsSound_iff (fl : Floats) (files : List HistFile) :
    RowsSound fl files ↔ ∀ r, (∀ i ≤ r, ¬ Rejected fl files i) → AllCloser files r := by
  rw [rowsSound_iff_rows]
  exact forall_congr' fun r => imp_congr_left (lt_rows_iff fl files r)

/-- Of two files, one of which starts 1 s later with another name, the first row merges both. -/
theorem rowsSound_fails : ¬ RowsSound .exact
    [⟨"a", [sampleRecord "read" 0]⟩, ⟨"b", [sampleRecord "write" 1]⟩] := by
  intro h
  have hbad : (match printTurn .exact ([⟨"a", [sampleRecord "read" 0]⟩,
      ⟨"b", [sampleRecord "write" 1]⟩].map startWalk) with
    | .ok (some (row, _)) => decide (1000000 ≤ row.elapsed.toNat ∧
        row.time.nanos + row.elapsed.toNat ≤ maxDateTime ∧ ∃ x ∈ row.merged, x.name ≠ row.name)
    | _ => false) = true := by decide +kernel
  split at hbad
  · rename_i row walks' ht
    obtain ⟨helapsed, hrange, x, hx, hne⟩ := of_decide_eq_true hbad
    have hadd : row.time.add (ε := Empty) row.elapsed.toNat = .ok _ :=
      dif_pos ⟨by have := row.time.inRange.1; omega, hrange⟩
    exact hne ((h _ row walks' _ ⟨[], .refl _⟩ ht helapsed hadd).merged x hx).1
  · cases hbad

end Chist
