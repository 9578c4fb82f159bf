import Chist.Hdr.Add
import Chist.Hdr.Methods
import Mathlib.Order.Bounds.Basic

/-!
# Coherent histograms

`Coherent fl h`: the layout of `h` is the one its bounds call for, it has one count for every slot
of its buckets, and its statistics are those of the counts: the total is the capped sum, the
maximum lies in the last occupied slot and the minimum in the first one past slot 0. `Kept` is the
part that also survives subtracting, where the minimum is only a bound. The statistics are stated
as extrema (`IsGreatest`, `IsLeast`) of the occupied slots `occ h`, so that an operation that joins
the occupied slots of two histograms joins their extrema.

A fresh histogram is coherent (`fresh_coherent`), and so is any histogram after `restat`
(`restat_coherent`).
-/

set_option autoImplicit false

namespace Chist.Hdr

open Res

/-- The occupied slots. -/
def occ (counts : List Nat) : Set Nat := {i | counts.getD i 0 ≠ 0}

/-- The layout the bounds of `h` call for. -/
def Histogram.layout (fl : Floats) (h : Histogram) : LogLinear :=
  layoutOf fl h.lowestDiscernibleValue h.significantValueDigits

/-- The configuration of `h` is the one its bounds call for. -/
structure Shaped (fl : Floats) (h : Histogram) : Prop extends Sized h (h.layout fl) where
  boundsOk : BoundsOk fl h.lowestDiscernibleValue h.highestTrackableValue h.significantValueDigits
  highest_lt : h.highestTrackableValue < 2 ^ 64
  bucketCount : h.bucketCount = bucketsFor (h.layout fl) h.highestTrackableValue

/-- What every operation keeps, subtracting included. -/
structure Kept (fl : Floats) (h : Histogram) : Prop extends Shaped fl h where
  counts_lt : ∀ c ∈ h.counts, c < 2 ^ 64
  totalCount : h.totalCount = min h.counts.sum u64Max
  maxValue_lt : h.maxValue < 2 ^ 64
  maxSlot : IsGreatest (insert 0 (occ h.counts)) ((h.layout fl).slot h.maxValue)
  minNonZeroValue_lt : h.minNonZeroValue < 2 ^ 64
  minPos : (h.layout fl).slot h.minNonZeroValue ≠ 0
  minBound : (h.layout fl).slot h.minNonZeroValue ∈ lowerBounds (occ h.counts \ {0})
  minEmpty : occ h.counts ⊆ {0} → h.minNonZeroValue = originalMin

/-- The statistics are those of the counts. -/
structure Coherent (fl : Floats) (h : Histogram) : Prop extends Kept fl h where
  minSlot : ¬ occ h.counts ⊆ {0} → (h.layout fl).slot h.minNonZeroValue ∈ occ h.counts \ {0}

variable {ε : Type} {fl : Floats} {h : Histogram} {L : LogLinear}

/-! ## Occupied slots -/

theorem mem_occ {counts : List Nat} {i : Nat} : i ∈ occ counts ↔ counts.getD i 0 ≠ 0 := Iff.rfl

theorem lt_length_of_mem_occ {counts : List Nat} {i : Nat} (hi : i ∈ occ counts) :
    i < counts.length := Slots.lt_length_of_mem (Slots.mem_occupied.2 hi)

theorem occ_replicate_zero (n : Nat) : occ (List.replicate n 0) = ∅ := by
  ext i
  simp [occ, List.getD_eq_getElem?_getD, List.getElem?_replicate]
  split <;> rfl

theorem isGreatest_last (counts : List Nat) :
    IsGreatest (insert 0 (occ counts)) (Slots.last counts) := by
  refine ⟨?_, ?_⟩
  · by_cases he : Slots.occupied counts = []
    · left
      simp [Slots.last, he]
    · exact .inr (Slots.getD_last_ne_zero he)
  · intro i hi
    rcases hi with rfl | hi
    · exact Nat.zero_le _
    · exact Slots.le_last hi

theorem isLeast_firstNonzero {counts : List Nat} {i : Nat}
    (hi : Slots.firstNonzero counts = some i) : IsLeast (occ counts \ {0}) i := by
  obtain ⟨hne, as, bs, hsplit, hbefore⟩ := List.find?_eq_some_iff_append.1 hi
  have hsorted : (Slots.occupied counts).Pairwise (· < ·) := Slots.occupied_sorted
  have hmem : i ∈ Slots.occupied counts := List.mem_of_find?_eq_some hi
  refine ⟨⟨Slots.mem_occupied.1 hmem, by simpa using hne⟩, ?_⟩
  rintro j ⟨hj, hj0⟩
  have hj : j ∈ as ++ i :: bs := hsplit ▸ Slots.mem_occupied.2 hj
  rw [hsplit, List.pairwise_append] at hsorted
  rcases List.mem_append.1 hj with hj | hj
  · exact absurd (by simpa using hbefore j hj) hj0
  · rcases List.mem_cons.1 hj with rfl | hj
    · exact Nat.le_refl _
    · exact Nat.le_of_lt ((List.pairwise_cons.1 hsorted.2.1).1 j hj)

theorem firstNonzero_eq_none {counts : List Nat} :
    Slots.firstNonzero counts = none ↔ occ counts ⊆ {0} := by
  unfold Slots.firstNonzero
  rw [List.find?_eq_none]
  refine ⟨?_, ?_⟩
  · intro hnone i hi
    simpa using hnone i (Slots.mem_occupied.2 hi)
  · intro hsub i hi
    simpa using hsub (Slots.mem_occupied.1 hi)

/-! ## Slots of the statistics -/

theorem slot_maxOf (hb : L.base ≤ 63) {m : Nat} (hm : m < 2 ^ 64) :
    L.slot (maxOf L m) = L.slot m := by
  unfold maxOf
  split
  · rename_i h0
    rw [h0]
  · split
    · rename_i h1
      rw [h1]
    · exact slot_highest hb ((L.low_slot_le m).trans_lt hm)

theorem slot_minOf (m : Nat) : L.slot (minOf L m) = L.slot m := by
  unfold minOf
  split
  · rename_i h0
    rw [h0]
  · exact L.slot_low _

theorem maxOf_lt {m : Nat} : maxOf L m < 2 ^ 64 := by
  unfold maxOf LogLinear.highest originalMax u64Max
  split
  · decide
  · split
    · decide
    · omega

theorem slot_u64Max_ne_zero (hb : L.base ≤ 63) : L.slot u64Max ≠ 0 := by
  intro h0
  have hlt : u64Max < L.low 1 := L.slot_lt_iff.1 (h0 ▸ Nat.one_pos)
  have hone : L.low 1 ≤ 2 ^ 63 := by
    have hle : 2 ^ L.unit ≤ 2 ^ 63 :=
      Nat.pow_le_pow_right (by decide) (by unfold LogLinear.base at hb; omega)
    rwa [L.low_succ 0, L.low_zero, L.width_first (by simp [LogLinear.slotBucket]), Nat.zero_add]
  unfold u64Max at hlt
  omega

theorem Sized.le_slot_u64Max (hs : Sized h L) {i : Nat} (hi : i < h.counts.length) :
    i ≤ L.slot u64Max := by
  have hlow := hs.low_lt hi
  calc i = L.slot (L.low i) := (L.slot_low i).symm
    _ ≤ L.slot u64Max := L.slot_mono (by unfold u64Max; omega)

theorem Shaped.stats (hs : Shaped fl h) {counts : List Nat}
    (hlen : counts.length = h.counts.length) (mx mn total : Nat) : Shaped fl { h with
      maxValue := mx, minNonZeroValue := mn, totalCount := total, counts := counts } :=
  ⟨hs.toSized.stats hlen mx mn total, hs.boundsOk, hs.highest_lt, hs.bucketCount⟩

section
variable (hk : Kept fl h)
include hk

theorem Kept.slot_maxValue : (h.layout fl).slot h.maxValue = Slots.last h.counts :=
  hk.maxSlot.unique (isGreatest_last h.counts)

theorem Kept.last_lt : Slots.last h.counts < h.counts.length := Slots.last_lt_length hk.length_pos

theorem Kept.totalCount_le : h.totalCount ≤ u64Max := by
  rw [hk.totalCount]
  exact min_le_right _ _

theorem Kept.getD_le (i : Nat) : h.counts.getD i 0 ≤ u64Max := by
  by_cases hi : i < h.counts.length
  · have hlt := hk.counts_lt _ (List.getElem_mem hi)
    rw [List.getD_eq_getElem _ _ hi]
    unfold u64Max
    omega
  · rw [List.getD_eq_default _ _ (Nat.le_of_not_lt hi)]
    exact Nat.zero_le _

theorem Kept.max : h.max (ε := ε) = .ok (maxOf (h.layout fl) h.maxValue) :=
  max_of_lt hk.toHasLayout hk.maxValue_lt

theorem Kept.minNz : h.minNz (ε := ε) = .ok (minOf (h.layout fl) h.minNonZeroValue) :=
  minNz_of_lt hk.toHasLayout hk.minNonZeroValue_lt

theorem Kept.slot_maxOf :
    (h.layout fl).slot (maxOf (h.layout fl) h.maxValue) = Slots.last h.counts :=
  (Hdr.slot_maxOf hk.base_le hk.maxValue_lt).trans hk.slot_maxValue

end

theorem Coherent.slot_minNonZeroValue (hc : Coherent fl h) {i : Nat}
    (hi : Slots.firstNonzero h.counts = some i) :
    (h.layout fl).slot h.minNonZeroValue = i := by
  have hleast := isLeast_firstNonzero hi
  exact IsLeast.unique ⟨hc.minSlot fun hsub => hleast.1.2 (hsub hleast.1.1), hc.minBound⟩ hleast

/-! ## Histograms whose statistics were just computed -/

/-- The statistics are those of the counts as `restat` computes them. -/
theorem Shaped.coherent (hs : Shaped fl h) (hlt : ∀ c ∈ h.counts, c < 2 ^ 64)
    (htotal : h.totalCount = min h.counts.sum u64Max) (hmax : h.maxValue < 2 ^ 64)
    (hslot : (h.layout fl).slot h.maxValue = Slots.last h.counts)
    (hmin : h.minNonZeroValue = minValue (h.layout fl) (Slots.firstNonzero h.counts)) :
    Coherent fl h where
  toShaped := hs
  counts_lt := hlt
  totalCount := htotal
  maxValue_lt := hmax
  maxSlot := hslot ▸ isGreatest_last h.counts
  minNonZeroValue_lt := by
    rw [hmin]
    cases hf : Slots.firstNonzero h.counts with
    | none => exact (by decide : u64Max < 2 ^ 64)
    | some i => exact hs.low_lt (lt_length_of_mem_occ (isLeast_firstNonzero hf).1.1)
  minPos := by
    rw [hmin]
    cases hf : Slots.firstNonzero h.counts with
    | none => exact slot_u64Max_ne_zero hs.base_le
    | some i =>
      rw [minValue, LogLinear.slot_low]
      exact (isLeast_firstNonzero hf).1.2
  minBound := by
    rw [hmin]
    cases hf : Slots.firstNonzero h.counts with
    | none => exact fun i hi => absurd (firstNonzero_eq_none.1 hf hi.1) hi.2
    | some i =>
      rw [minValue, LogLinear.slot_low]
      exact (isLeast_firstNonzero hf).2
  minEmpty hsub := by rw [hmin, firstNonzero_eq_none.2 hsub, minValue]
  minSlot hsub := by
    rw [hmin]
    cases hf : Slots.firstNonzero h.counts with
    | none => exact absurd (firstNonzero_eq_none.1 hf) hsub
    | some i =>
      rw [minValue, LogLinear.slot_low]
      exact (isLeast_firstNonzero hf).1

theorem length_lt_two_pow (hs : Shaped fl h) : h.counts.length < 2 ^ 64 := by
  have hle := bins_le hs.half_le hs.bucketCount_le
  rw [hs.length]
  omega

theorem fresh_coherent {low high sigfig : Nat} (hb : BoundsOk fl low high sigfig)
    (hhigh : high < 2 ^ 64) : Coherent fl (fresh fl low high sigfig) := by
  have hocc : occ (fresh fl low high sigfig).counts = ∅ := occ_replicate_zero _
  have hnone : Slots.firstNonzero (fresh fl low high sigfig).counts = none :=
    firstNonzero_eq_none.2 (by rw [hocc]; exact Set.empty_subset _)
  have hlast : Slots.last (fresh fl low high sigfig).counts = 0 := by
    have h := (isGreatest_last (fresh fl low high sigfig).counts).1
    simpa [hocc] using h
  refine Shaped.coherent ⟨fresh_sized hb hhigh, hb, hhigh, rfl⟩ ?_ ?_
    (show originalMax < 2 ^ 64 by decide) ?_ ?_
  · intro c hc
    rw [List.eq_of_mem_replicate hc]
    decide
  · simp [fresh]
  · rw [hlast]
    exact LogLinear.slot_low _ 0 ▸ congrArg _ (LogLinear.low_zero _).symm
  · rw [hnone]
    rfl

/-- **`restat` makes a histogram coherent.** -/
theorem restat_coherent (hs : Shaped fl h) (hlt : ∀ c ∈ h.counts, c < 2 ^ 64) :
    ∃ g, h.restat (ε := ε) h.counts.length = .ok g ∧ Coherent fl g ∧ g.counts = h.counts ∧
      g.layout fl = h.layout fl ∧ g.autoResize = h.autoResize := by
  have hocc : ∀ i ∈ Slots.occupied h.counts, (h.layout fl).low i < 2 ^ 64 :=
    fun i hi => hs.low_lt (Slots.lt_length_of_mem hi)
  have hlast := hs.low_lt (Slots.last_lt_length hs.length_pos)
  refine ⟨_, restat_eq hs.toHasLayout hocc, ?_, rfl, rfl, rfl⟩
  exact (hs.stats rfl _ _ _).coherent hlt rfl (topValue_lt hs.base_le hlast)
    (slot_topValue hs.base_le hlast) rfl

/-- **A well-sized snapshot** loads as a coherent histogram. -/
theorem newFromSnapshot_coherent {s : HistogramSnapshot} (hsize : s.WellSized fl)
    (hnew : Histogram.newFromSnapshot fl s = .ok h) : Coherent fl h := by
  by_cases hb : s.BoundsOk fl
  · have hfresh := (fresh_coherent hb s.highestTrackableValue.toNat_lt).toShaped
    have hlen : s.countList.length = (fresh fl s.lowestTrackableValue.toNat
        s.highestTrackableValue.toNat s.significantFigures.toNat).counts.length :=
      ((List.length_map _).trans (hsize hb)).trans List.length_replicate.symm
    obtain ⟨g, hg, hc, -⟩ := restat_coherent (ε := CreationError)
      (hfresh.stats hlen _ _ _) countList_lt
    rw [newFromSnapshot_eq hb] at hnew
    exact Except.ok.inj (hnew.symm.trans hg) ▸ hc
  · obtain ⟨e, he⟩ := newFromSnapshot_err hb
    rw [he] at hnew
    cases hnew

/-- A sample of 0, two of 2 or 3 and three of 8 to 15. -/
def sample : Histogram := loadedOf .exact 1 15 0 [1, 0, 2, 0, 3]

theorem sample_coherent : Coherent .exact sample :=
  newFromSnapshot_coherent (s := ⟨1, 15, 0, [1, 0, 2, 0, 3]⟩) (by decide +kernel) rfl

end Chist.Hdr
