import Chist.Print.EqualBounds

/-!
# Exact merges

The merge of records of equal bounds, with the counts `new_with_bounds` allocates for them. When
`add` accepts them all, the result is exact: the saturated sum in every slot and in the total, and
the largest maximum and smallest minimum (`exactMerge_merge`). `add` rejects one exactly when the
unit is above 1 and the last slot, which ends at `2 ^ 64`, is occupied (`mergesExactly_iff`): the
unit mask makes its maximum the last `u64`, and the end of the last slot is one less.
-/

set_option autoImplicit false

namespace Chist

open Res Hdr

/-- `x` has these bounds, and the counts of `h0`. -/
structure HasBounds (h0 : Histogram) (low high : UInt64) (sigfig : UInt8) (x : HistRecord) :
    Prop where
  low_eq : x.hist.lowestTrackableValue = low
  high_eq : x.hist.highestTrackableValue = high
  sigfig_eq : x.hist.significantFigures = sigfig
  length : x.hist.counts.length = h0.counts.length

/-- `v` is the largest of the values `f` has on `ss`. -/
def Largest (f : Histogram → Res Empty Nat) (ss : List Histogram) (v : Nat) : Prop :=
  (∃ s ∈ ss, f s = .ok v) ∧ ∀ s ∈ ss, ∃ m, f s = .ok m ∧ m ≤ v

/-- `v` is the smallest of the values `f` has on `ss`. -/
def Smallest (f : Histogram → Res Empty Nat) (ss : List Histogram) (v : Nat) : Prop :=
  (∃ s ∈ ss, f s = .ok v) ∧ ∀ s ∈ ss, ∃ m, f s = .ok m ∧ v ≤ m

/-- `g` is the exact merge of the records `xs`, which load as `ss`. -/
structure ExactMerge (xs : List HistRecord) (ss : List Histogram) (g : Histogram) : Prop where
  length : ∀ x ∈ xs, g.counts.length = x.countList.length
  slots : ∀ i, g.counts.getD i 0 = min (xs.map (·.countList.getD i 0)).sum u64Max
  len : g.len = min (xs.map (·.samples)).sum u64Max
  max : ∃ v, g.max (ε := Empty) = .ok v ∧ Largest Histogram.max ss v
  minNz : ∃ v, g.minNz (ε := Empty) = .ok v ∧ Smallest Histogram.minNz ss v

/-- The records load and merge, exactly. -/
def MergesExactly (fl : Floats) (xs : List HistRecord) : Prop :=
  ∃ ss g, xs.mapM (loadRecord fl) = .ok ss ∧ mergeSnapshots fl ss = .ok g ∧ ExactMerge xs ss g

variable {fl : Floats}

/-! ## The maximum and the minimum of a fold -/

theorem largest_foldl {f : Histogram → Res Empty Nat} {k : Histogram → Nat} {ss : List Histogram}
    (hf : ∀ s ∈ ss, f s = .ok (k s)) (hne : ss ≠ []) :
    Largest f ss ((ss.map k).foldl Max.max 0) := by
  have hne' : ss.map k ≠ [] := by simpa using hne
  rw [List.foldl_max_eq_max hne', Nat.zero_max]
  refine ⟨?_, fun s hs => ⟨k s, hf s hs, List.le_max_of_mem (List.mem_map_of_mem hs)⟩⟩
  obtain ⟨s, hs, hk⟩ := List.mem_map.1 (List.max_mem hne')
  exact ⟨s, hs, by rw [hf s hs, hk]⟩

theorem smallest_foldl {f : Histogram → Res Empty Nat} {k : Histogram → Nat} {top : Nat}
    {ss : List Histogram} (hf : ∀ s ∈ ss, f s = .ok (k s)) (htop : ∀ s ∈ ss, k s ≤ top)
    (hne : ss ≠ []) : Smallest f ss ((ss.map k).foldl Min.min top) := by
  have hne' : ss.map k ≠ [] := by simpa using hne
  obtain ⟨s, hs, hk⟩ := List.mem_map.1 (List.min_mem hne')
  have hle := htop s hs
  rw [List.foldl_min_eq_min hne', ← hk, Nat.min_eq_right hle]
  refine ⟨⟨s, hs, hf s hs⟩, fun t ht => ⟨k t, hf t ht, ?_⟩⟩
  rw [hk]
  exact List.min_le_of_mem (List.mem_map_of_mem ht)

theorem maxValue_foldl_max (h : Histogram) (ss : List Histogram) :
    (ss.foldl merged h).maxValue = (ss.map (·.maxValue)).foldl Max.max h.maxValue := by
  rw [List.foldl_map]
  exact (List.foldl_hom Histogram.maxValue fun _ _ => rfl).symm

theorem minNonZeroValue_foldl_min (h : Histogram) (ss : List Histogram) :
    (ss.foldl merged h).minNonZeroValue =
      (ss.map (·.minNonZeroValue)).foldl Min.min h.minNonZeroValue := by
  rw [List.foldl_map]
  exact (List.foldl_hom Histogram.minNonZeroValue fun _ _ => rfl).symm

/-! ## The merge -/

section
variable {x : HistRecord} {xs : List HistRecord} (hb : x.BoundsOk fl)
  (hw : ∀ y ∈ x :: xs, y.WellSized fl) (hsame : ∀ y ∈ x :: xs, SameBounds x y)
include hb hw hsame

/-- **A merge that is not rejected is exact.** -/
theorem exactMerge_merge : ExactMerge (x :: xs) ((x :: xs).map (·.loaded fl))
    (((x :: xs).map (·.loaded fl)).foldl merged (x.fresh fl)) := by
  have hl := loadedAll_same hb hw hsame
  have hne : (x :: xs).map (·.loaded fl) ≠ [] := List.cons_ne_nil _ _
  have hlen : (x.fresh fl).counts.length = x.bins fl := List.length_replicate
  have hfresh : Canon (x.fresh fl) (x.layout fl) :=
    fresh_canon hb x.hist.toSnapshot.highestTrackableValue.toNat_lt
  have hc := foldl_merged_canon hfresh (by rwa [hlen])
  refine ⟨fun y hy => ?_, fun i => ?_, totalCount_merge fl x (x :: xs), ⟨_, hc.max, ?_⟩,
    ⟨_, hc.minNz, ?_⟩⟩
  · obtain ⟨-, hy⟩ := loaded_same hb hw hsame hy
    rw [length_foldl_merged fun s hs => (hl s hs).2.trans hlen.symm, hlen]
    exact hy.symm
  · rw [getD_foldl_merged (fresh_counts x) (fun s hs => (hl s hs).2) i, List.map_map]
    rfl
  · rw [maxValue_foldl_max]
    exact largest_foldl (fun s hs => (hl s hs).1.canon.max) hne
  · rw [minNonZeroValue_foldl_min]
    refine smallest_foldl (fun s hs => (hl s hs).1.canon.minNz) (fun s hs => ?_) hne
    have hlt := (hl s hs).1.summary.minNonZeroValue_lt
    change s.minNonZeroValue ≤ u64Max
    unfold u64Max
    omega

/-- No record is rejected when the unit is 1 or every last occupied slot ends before `2 ^ 64`. -/
theorem fits_iff : (∀ s ∈ (x :: xs).map (·.loaded fl),
      s.maxValue ≤ (x.layout fl).highest (x.bins fl - 1)) ↔
    (x.layout fl).unit = 0 ∨
      ∀ y ∈ x :: xs, (y.layout fl).low (Slots.last y.countList + 1) < 2 ^ 64 := by
  have hiff : ∀ y ∈ x :: xs, (y.loaded fl).maxValue ≤ (x.layout fl).highest (x.bins fl - 1) ↔
      (x.layout fl).unit = 0 ∨ (y.layout fl).low (Slots.last y.countList + 1) < 2 ^ 64 := by
    intro y hy
    obtain ⟨hl, hlen⟩ := loaded_same hb hw hsame hy
    have hlast := Slots.last_lt_length hl.toSized.length_pos
    have hend := hl.toSized.low_length_le
    rw [hlen] at hlast hend
    rw [hl.maxValue, topValue_le_highest_iff hlast hend, (hsame y hy).layout]
    rfl
  rw [List.forall_mem_map]
  simp only [← forall_or_left]
  exact forall₂_congr hiff

theorem mergesExactly_iff_fits : MergesExactly fl (x :: xs) ↔
    ∀ s ∈ (x :: xs).map (·.loaded fl), s.maxValue ≤ (x.layout fl).highest (x.bins fl - 1) := by
  have hload := loadAll_ok hw fun y hy => (hsame y hy).boundsOk.2 hb
  have hmerge := mergeSnapshots_same hb hw hsame
  refine ⟨?_, ?_⟩
  · rintro ⟨ss, g, h1, h2, -⟩
    rw [hload, Except.ok.injEq] at h1
    by_contra hno
    rw [← h1, hmerge, if_neg hno] at h2
    cases h2
  · intro hfit
    rw [if_pos hfit] at hmerge
    exact ⟨_, _, hload, hmerge, exactMerge_merge hb hw hsame⟩

end

/-! ## The bounds -/

theorem HasBounds.sameBounds {h0 : Histogram} {low high : UInt64} {sigfig : UInt8}
    {x y : HistRecord} (hx : HasBounds h0 low high sigfig x)
    (hy : HasBounds h0 low high sigfig y) : SameBounds x y :=
  ⟨hy.low_eq.trans hx.low_eq.symm, hy.high_eq.trans hx.high_eq.symm,
    hy.sigfig_eq.trans hx.sigfig_eq.symm⟩

section
variable {low high : UInt64} {sigfig : UInt8} {x : HistRecord}
  (hb : Hdr.BoundsOk fl low.toNat high.toNat sigfig.toNat)
  (hx : HasBounds (Hdr.fresh fl low.toNat high.toNat sigfig.toNat) low high sigfig x)
include hx

theorem HasBounds.length_eq : x.hist.counts.length = x.bins fl := by
  obtain ⟨h1, h2, h3, h4⟩ := hx
  rw [h4]
  simp only [Hdr.fresh, List.length_replicate, HistRecord.bins, HistogramSnapshot.binsNeeded,
    HistogramSnapshot.layout, HistSnapshot.toSnapshot, h1, h2, h3]

include hb

theorem HasBounds.boundsOk : x.BoundsOk fl := by
  obtain ⟨h1, h2, h3, -⟩ := hx
  simpa only [HistRecord.BoundsOk, HistogramSnapshot.BoundsOk, HistSnapshot.toSnapshot, h1, h2,
    h3] using hb

theorem HasBounds.unit_eq_zero_iff : (x.layout fl).unit = 0 ↔ low = 1 := by
  have hone : low = 1 ↔ low.toNat = 1 := UInt64.toNat_inj.symm
  rw [hone, ← floorLog2_eq_zero_iff fl hb.1 hb.2.1, ← hx.low_eq]
  rfl

theorem HasBounds.low_last_lt_iff :
    (x.layout fl).low (Slots.last x.countList + 1) < 2 ^ 64 ↔
      high.toNat < 2 ^ 63 ∨ x.hist.counts.getLast? = some 0 := by
  have hzero : x.countList.getLast? = some 0 ↔ x.hist.counts.getLast? = some 0 := by
    change (x.hist.counts.map UInt64.toNat).getLast? = some 0 ↔ _
    rw [List.getLast?_map, Option.map_eq_some_iff]
    refine ⟨?_, fun h => ⟨0, h, rfl⟩⟩
    rintro ⟨c, hc, h0⟩
    have hc0 : c = 0 := UInt64.toNat_inj.1 h0
    rw [hc, hc0]
  rw [← hzero, ← hx.high_eq]
  exact low_last_succ_lt_iff (hx.boundsOk hb) hx.length_eq

end

/-- **Records of equal bounds merge exactly when** the lowest trackable value is 1, the highest is
below `2 ^ 63`, or the last count of every record is 0. -/
theorem mergesExactly_iff (fl : Floats) (low high : UInt64) (sigfig : UInt8) {h0 : Histogram}
    (hnew : Histogram.newWithBounds fl low.toNat high.toNat sigfig.toNat = .ok h0)
    {xs : List HistRecord} (hne : xs ≠ []) (hbounds : ∀ x ∈ xs, HasBounds h0 low high sigfig x) :
    MergesExactly fl xs ↔ low = 1 ∨ high.toNat < 2 ^ 63 ∨
      ∀ x ∈ xs, x.hist.counts.getLast? = some 0 := by
  obtain ⟨hb, rfl⟩ := newWithBounds_eq_ok high.toNat_lt hnew
  obtain ⟨x, xs, rfl⟩ := List.exists_cons_of_ne_nil hne
  have hx := hbounds x List.mem_cons_self
  have hsame : ∀ y ∈ x :: xs, SameBounds x y := fun y hy => hx.sameBounds (hbounds y hy)
  have hw : ∀ y ∈ x :: xs, y.WellSized fl := fun y hy _ => (hbounds y hy).length_eq
  have hlast : ∀ y ∈ x :: xs, (y.layout fl).low (Slots.last y.countList + 1) < 2 ^ 64 ↔
      high.toNat < 2 ^ 63 ∨ y.hist.counts.getLast? = some 0 :=
    fun y hy => (hbounds y hy).low_last_lt_iff hb
  rw [mergesExactly_iff_fits (hx.boundsOk hb) hw hsame, fits_iff (hx.boundsOk hb) hw hsame,
    hx.unit_eq_zero_iff hb]
  simp only [← forall_or_left]
  exact forall₂_congr fun y hy => or_congr Iff.rfl (hlast y hy)

/-- A record whose last slot ends at `2 ^ 64`, with `last` operations in it. -/
def topRecord (last : UInt64) : HistRecord where
  name := "read"
  elapsed := 1000000000
  now := sampleTime 0
  hist := ⟨2, 0x8000000000000000, 0, [0, 1] ++ List.replicate 61 0 ++ [last]⟩

theorem mergesExactly_iff_top : MergesExactly .exact [topRecord 0, topRecord 0] ↔
    (2 : UInt64) = 1 ∨ (0x8000000000000000 : UInt64).toNat < 2 ^ 63 ∨
      ∀ x ∈ [topRecord 0, topRecord 0], x.hist.counts.getLast? = some 0 := by
  have hnew : Histogram.newWithBounds .exact (2 : UInt64).toNat
      (0x8000000000000000 : UInt64).toNat (0 : UInt8).toNat =
        .ok (Hdr.fresh .exact 2 (2 ^ 63) 0) := by decide +kernel
  refine mergesExactly_iff .exact 2 0x8000000000000000 0 hnew (by decide) fun x hx => ?_
  obtain rfl : x = topRecord 0 := by simpa using hx
  exact ⟨rfl, rfl, rfl, by decide +kernel⟩

/-- One record with a sample in its last slot is rejected by the empty histogram of its bounds. -/
theorem mergesExactly_fails :
    (∃ h0, Histogram.newWithBounds .exact 2 (2 ^ 63) 0 = .ok h0 ∧
      HasBounds h0 2 0x8000000000000000 0 (topRecord 1)) ∧
    ¬ MergesExactly .exact [topRecord 1] := by
  refine ⟨⟨Hdr.fresh .exact 2 (2 ^ 63) 0, by decide +kernel, rfl, rfl, rfl, by decide +kernel⟩, ?_⟩
  have hload : [topRecord 1].mapM (loadRecord .exact) = .ok [(topRecord 1).loaded .exact] := by
    decide +kernel
  have hmerge : mergeSnapshots .exact [(topRecord 1).loaded .exact] =
      .error (.err (.addingHistograms .otherAddendValueExceedsRange)) := by decide +kernel
  rintro ⟨ss, g, h1, h2, -⟩
  cases h1.symm.trans hload
  cases h2.symm.trans hmerge

end Chist
