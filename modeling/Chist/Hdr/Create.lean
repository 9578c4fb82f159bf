import Chist.Hdr.Layout

/-!
# Creating a histogram

`new_with_bounds` returns `fresh`, the empty histogram of the layout its arguments call for, when
`BoundsOk` holds (`newWithBounds_ok`), and an `Err` otherwise (`newWithBounds_err`). `Sized h L`
is the representation invariant: `h` has layout `L` and one count for every slot of its buckets.
`fresh` establishes it (`fresh_sized`), and its slots cover every value up to the highest
trackable one (`slot_lt_bins`).
-/

set_option autoImplicit false

namespace Chist.Hdr

open Res

/-- The representation invariant of a histogram with layout `L`. -/
structure Sized (h : Histogram) (L : LogLinear) : Prop extends HasLayout h L where
  bucketCount_pos : 1 ≤ h.bucketCount
  bucketCount_le : L.base + h.bucketCount ≤ 65
  length : h.counts.length = L.bins h.bucketCount

/-- The layout `new_with_bounds` chooses. -/
def layoutOf (fl : Floats) (low sigfig : Nat) : LogLinear where
  unit := fl.floorLog2 low
  half := fl.ceilLog2 (2 * 10 ^ sigfig) - 1

/-- The number of buckets of layout `L` needed for `high`. -/
def bucketsFor (L : LogLinear) (high : Nat) : Nat := 1 + (high.size - L.base)

/-- `new_with_bounds` accepts its arguments. -/
def BoundsOk (fl : Floats) (low high sigfig : Nat) : Prop :=
  1 ≤ low ∧ low ≤ u64Max / 2 ∧ 2 * low ≤ high ∧ sigfig ≤ 5 ∧
    fl.floorLog2 low + fl.ceilLog2 (2 * 10 ^ sigfig) ≤ 63

instance (fl : Floats) (low high sigfig : Nat) : Decidable (BoundsOk fl low high sigfig) :=
  inferInstanceAs (Decidable (_ ∧ _ ∧ _ ∧ _ ∧ _))

/-- The histogram `new_with_bounds` returns. -/
def fresh (fl : Floats) (low high sigfig : Nat) : Histogram :=
  let L := layoutOf fl low sigfig
  { autoResize := false
    highestTrackableValue := high
    lowestDiscernibleValue := low
    significantValueDigits := sigfig
    bucketCount := bucketsFor L high
    subBucketCount := 2 ^ (L.half + 1)
    subBucketHalfCount := 2 ^ L.half
    subBucketHalfCountMagnitude := L.half
    subBucketMask := (2 ^ (L.half + 1) - 1) * 2 ^ L.unit
    leadingZeroCountBase := 64 - L.base
    unitMagnitude := L.unit
    unitMagnitudeMask := 2 ^ L.unit - 1
    maxValue := originalMax
    minNonZeroValue := originalMin
    totalCount := 0
    counts := List.replicate (L.bins (bucketsFor L high)) 0 }

variable {ε : Type} {fl : Floats} {low high sigfig : Nat}

/-! ## The slots of a histogram -/

section
variable {h : Histogram} {L : LogLinear} (hs : Sized h L)
include hs

/-- The slots end at `2 ^ (base + bucket_count - 1)`. -/
theorem Sized.low_length : L.low h.counts.length = 2 ^ (L.base + (h.bucketCount - 1)) := by
  rw [hs.length, ← L.low_bins, Nat.sub_add_cancel hs.bucketCount_pos]

theorem Sized.low_length_le : L.low h.counts.length ≤ 2 ^ 64 := by
  rw [hs.low_length]
  have := hs.bucketCount_le
  have := hs.bucketCount_pos
  exact Nat.pow_le_pow_right (by decide) (by omega)

theorem Sized.low_lt {i : Nat} (hi : i < h.counts.length) : L.low i < 2 ^ 64 :=
  (L.low_strictMono hi).trans_le hs.low_length_le

theorem Sized.length_pos : 0 < h.counts.length := by
  rw [hs.length]
  exact Nat.mul_pos (Nat.succ_pos _) (Nat.two_pow_pos _)

theorem Sized.two_le_length : 2 ≤ h.counts.length := by
  have hp := Nat.two_pow_pos L.half
  have hk := hs.bucketCount_pos
  rw [hs.length]
  exact Nat.mul_le_mul (show 2 ≤ h.bucketCount + 1 by omega) hp

theorem Sized.stats {counts : List Nat} (hlen : counts.length = h.counts.length)
    (mx mn total : Nat) : Sized { h with
      maxValue := mx, minNonZeroValue := mn, totalCount := total, counts := counts } L :=
  ⟨hs.toHasLayout.stats mx mn total counts, hs.bucketCount_pos, hs.bucketCount_le,
    hlen.trans hs.length⟩

theorem Sized.lastIndex : h.lastIndex (ε := ε) = .ok (h.counts.length - 1) :=
  if_neg (Nat.ne_of_gt hs.length_pos)

end

/-! ## The magnitudes -/

/-- The sub-buckets hold two significant units up to `10 ^ sigfig`, and are at most `2 ^ 18`. -/
theorem ceilLog2_sigfig (fl : Floats) (h : sigfig ≤ 5) :
    1 ≤ fl.ceilLog2 (2 * 10 ^ sigfig) ∧ fl.ceilLog2 (2 * 10 ^ sigfig) ≤ 18 ∧
      2 * 10 ^ sigfig ≤ 2 ^ fl.ceilLog2 (2 * 10 ^ sigfig) := by
  have h1 : 1 ≤ 10 ^ sigfig := Nat.one_le_pow _ _ (by decide)
  have h5 : 10 ^ sigfig ≤ 10 ^ 5 := Nat.pow_le_pow_right (by decide) h
  rw [fl.ceilLog2_exact _ (by omega) (by omega)]
  have h0 : 2 * 10 ^ sigfig - 1 ≠ 0 := by omega
  have hlt := (Nat.log2_lt h0).1 (Nat.lt_succ_self _)
  have h18 := (Nat.log2_lt h0 (k := 18)).2 (by omega)
  simp only [Nat.succ_eq_add_one] at hlt
  omega

theorem floorLog2_le (fl : Floats) (h1 : 1 ≤ low) (h2 : low ≤ u64Max / 2) :
    fl.floorLog2 low ≤ 63 := by
  have h63 : low < 2 ^ 63 := by unfold u64Max at h2; omega
  have hn := (fl.floorLog2_near low (by omega) h63).2
  have hlog := (Nat.log2_lt (k := 63) (by omega)).2 h63
  omega

theorem layoutOf_base (hb : BoundsOk fl low high sigfig) :
    (layoutOf fl low sigfig).base =
      fl.floorLog2 low + fl.ceilLog2 (2 * 10 ^ sigfig) := by
  have := (ceilLog2_sigfig fl hb.2.2.2.1).1
  simp only [layoutOf, LogLinear.base]
  omega

theorem layoutOf_base_le (hb : BoundsOk fl low high sigfig) :
    (layoutOf fl low sigfig).base ≤ 63 := by
  rw [layoutOf_base hb]
  exact hb.2.2.2.2

theorem layoutOf_half_le (hb : BoundsOk fl low high sigfig) :
    (layoutOf fl low sigfig).half ≤ 17 := by
  have := (ceilLog2_sigfig fl hb.2.2.2.1).2.1
  simp only [layoutOf]
  omega

/-! ## The number of buckets -/

/-- The loop of `buckets_to_cover`, entered after `k` doublings of `2 ^ s`. -/
theorem bucketsToCoverLoop_eq {value s : Nat} (hs : 1 ≤ s) (hv : value < 2 ^ 64) (fuel k : Nat)
    (hk : s + k ≤ 63) (hf : 64 ≤ s + k + fuel) (hle : k ≤ value.size - s) :
    Histogram.bucketsToCoverLoop (ε := ε) value fuel (2 ^ (s + k)) (1 + k) =
      .ok (1 + (value.size - s)) := by
  have hsz := size_le_64 hv
  induction fuel generalizing k with
  | zero => omega
  | succ fuel ih =>
    unfold Histogram.bucketsToCoverLoop
    by_cases hc : 2 ^ (s + k) ≤ value
    · have hlt : s + k < value.size := Nat.lt_size.2 hc
      rw [if_pos hc]
      by_cases htop : u64Max / 2 < 2 ^ (s + k)
      · -- the last bucket
        have h63 : 63 ≤ s + k := by
          by_contra h
          have : 2 ^ (s + k) ≤ 2 ^ 62 := Nat.pow_le_pow_right (by decide) (by omega)
          unfold u64Max at htop
          omega
        rw [if_pos htop, checkU_ok (by omega)]
        congr 1
        omega
      · have hlt63 : s + k < 63 := by
          by_contra h
          have : 2 ^ 63 ≤ 2 ^ (s + k) := Nat.pow_le_pow_right (by decide) (by omega)
          unfold u64Max at htop
          omega
        have hp : 2 ^ (s + k) * 2 ^ 1 = 2 ^ (s + (k + 1)) := by rw [← Nat.pow_add]; rfl
        have hp64 : 2 ^ (s + (k + 1)) < 2 ^ 64 := Nat.pow_lt_pow_right (by decide) (by omega)
        rw [if_neg htop, shlU_ok (by decide) (by omega), ok_bind, checkU_ok (by omega), ok_bind, hp,
          Nat.add_assoc]
        exact ih (k + 1) (by omega) (by omega) (by omega)
    · have : value.size ≤ s + k := Nat.size_le.2 (Nat.lt_of_not_le hc)
      rw [if_neg hc]
      congr 1
      omega

theorem bucketsToCover_eq {h : Histogram} {L : LogLinear} (hh : HasLayout h L)
    {value : Nat} (hv : value < 2 ^ 64) :
    h.bucketsToCover (ε := ε) value = .ok (bucketsFor L value) := by
  have hb := hh.base_le
  have hbase : L.base = L.unit + L.half + 1 := rfl
  have e : 2 ^ (L.half + 1) * 2 ^ L.unit = 2 ^ (L.base + 0) := by
    rw [← Nat.pow_add]; congr 1; omega
  have hlt : 2 ^ (L.base + 0) < 2 ^ 64 := Nat.pow_lt_pow_right (by decide) (by omega)
  unfold Histogram.bucketsToCover
  rw [hh.subBucketCount, hh.unitMagnitude, shlU_ok (by omega) (by omega), ok_bind, e]
  exact bucketsToCoverLoop_eq (by omega) hv 65 0 (by omega) (by omega) (by omega)

theorem bucketsFor_le {L : LogLinear} (hb : L.base ≤ 63) (hv : high < 2 ^ 64) :
    L.base + bucketsFor L high ≤ 65 := by
  have := size_le_64 hv
  unfold bucketsFor
  omega

theorem bins_le {L : LogLinear} (hl : L.half ≤ 17) {n : Nat} (hn : L.base + n ≤ 65) :
    L.bins n ≤ 66 * 2 ^ 17 := by
  unfold LogLinear.bins
  exact Nat.mul_le_mul (by omega) (Nat.pow_le_pow_right (by decide) hl)

theorem numBins_eq {h : Histogram} {L : LogLinear} (hh : HasLayout h L) {n : Nat}
    (hn : L.base + n ≤ 65) : h.numBins (ε := ε) n = .ok (L.bins n) := by
  have := bins_le hh.half_le hn
  unfold Histogram.numBins
  unfold LogLinear.bins at *
  rw [checkU_ok (by omega), ok_bind, hh.subBucketHalfCount, checkU_ok (by omega)]

/-- The slots of the buckets for `high` are those of the values up to `high`, and more. -/
theorem slot_lt_bins {L : LogLinear} {v : Nat} (hv : v ≤ high) :
    L.slot v < L.bins (bucketsFor L high) := by
  rw [L.slot_lt_iff, bucketsFor, Nat.add_comm, L.low_bins, ← Nat.size_le]
  have := Nat.size_le_size hv
  omega

/-! ## `new_with_bounds` -/

theorem fresh_hasLayout (hb : BoundsOk fl low high sigfig) :
    HasLayout (fresh fl low high sigfig) (layoutOf fl low sigfig) :=
  ⟨rfl, rfl, rfl, rfl, rfl, rfl, rfl, layoutOf_base_le hb, layoutOf_half_le hb⟩

theorem fresh_sized (hb : BoundsOk fl low high sigfig) (hhigh : high < 2 ^ 64) :
    Sized (fresh fl low high sigfig) (layoutOf fl low sigfig) where
  toHasLayout := fresh_hasLayout hb
  bucketCount_pos := Nat.le_add_right _ _
  bucketCount_le := bucketsFor_le (layoutOf_base_le hb) hhigh
  length := List.length_replicate

theorem resize_eq {h : Histogram} {L : LogLinear} (hh : HasLayout h L)
    (hlow : 2 * h.lowestDiscernibleValue ≤ high) (hhigh : high < 2 ^ 64) :
    h.resize high = .ok { h with
      bucketCount := bucketsFor L high
      highestTrackableValue := high
      counts := Histogram.resizeCounts h.counts (L.bins (bucketsFor L high)) } := by
  unfold Histogram.resize
  rw [checkU_ok (by omega), ok_bind, assert_ok (by simpa using hlow), ok_bind,
    bucketsToCover_eq hh hhigh, ok_bind, numBins_eq hh (bucketsFor_le hh.base_le hhigh), ok_bind,
    pure_eq_ok]

theorem resizeCounts_replicate (m n : Nat) :
    Histogram.resizeCounts (List.replicate m 0) n = List.replicate n 0 := by
  unfold Histogram.resizeCounts
  rw [List.take_replicate, List.length_replicate, List.replicate_append_replicate]
  congr 1
  omega

/-- `new_with_bounds` after its first four checks. -/
theorem newWithBounds_magnitudes (h1 : 1 ≤ low) (h2 : low ≤ u64Max / 2) (h3 : 2 * low ≤ high)
    (h4 : sigfig ≤ 5) : Histogram.newWithBounds fl low high sigfig =
      if 63 < fl.floorLog2 low + fl.ceilLog2 (2 * 10 ^ sigfig) then
        .error (.err .cannotRepresentSigFigBeyondLow)
      else
        mapErr (fun _ => .usizeTypeTooSmall)
          ({ fresh fl low high sigfig with bucketCount := 0, counts := [] }.resize high) := by
  have hum := floorLog2_le fl h1 h2
  obtain ⟨hc1, hc18, -⟩ := ceilLog2_sigfig fl h4
  have hup : 2 ^ fl.floorLog2 low < 2 ^ 64 := Nat.pow_lt_pow_right (by decide) (by omega)
  have hcp : 2 ^ fl.ceilLog2 (2 * 10 ^ sigfig) < 2 ^ 32 :=
    Nat.pow_lt_pow_right (by decide) (by omega)
  have hpos := Nat.two_pow_pos (fl.floorLog2 low)
  have hcpos := Nat.two_pow_pos (fl.ceilLog2 (2 * 10 ^ sigfig))
  unfold Histogram.newWithBounds
  simp only [Nat.not_lt.2 h1, Nat.not_lt.2 h2, Nat.not_lt.2 h3, Nat.not_lt.2 h4, if_false]
  rw [shlU_ok (by omega) (by omega), ok_bind, Nat.one_mul, subU_ok hpos, ok_bind, subU_ok hc1,
    ok_bind, shlU_ok (by omega) (by omega), ok_bind, Nat.one_mul, checkU_ok (by omega), ok_bind]
  split
  · rfl
  · generalize hk : fl.ceilLog2 (2 * 10 ^ sigfig) = k at *
    obtain ⟨c, rfl⟩ : ∃ c, k = c + 1 := ⟨k - 1, by omega⟩
    have hmask : (2 ^ (c + 1) - 1) * 2 ^ fl.floorLog2 low < 2 ^ 64 := by
      have e : 2 ^ (c + 1) * 2 ^ fl.floorLog2 low ≤ 2 ^ 63 := by
        rw [← Nat.pow_add]
        exact Nat.pow_le_pow_right (by decide) (by omega)
      rw [Nat.sub_mul]
      omega
    have hhalf : 2 ^ (c + 1) / 2 = 2 ^ c := by rw [Nat.pow_succ, Nat.mul_div_cancel _ (by decide)]
    have hbase : 64 - fl.floorLog2 low - (c + 1) = 64 - (fl.floorLog2 low + c + 1) := by omega
    simp only [subU_ok hcpos, subU_ok (show fl.floorLog2 low ≤ 64 by omega),
      subU_ok (show c + 1 ≤ 64 - fl.floorLog2 low by omega), shlU_ok (by omega) hmask, ok_bind,
      hhalf, hbase, fresh, layoutOf, LogLinear.base, hk, Nat.add_sub_cancel]

/-- **`new_with_bounds`** returns the fresh histogram if the bounds are accepted. -/
theorem newWithBounds_ok (hb : BoundsOk fl low high sigfig) (hhigh : high < 2 ^ 64) :
    Histogram.newWithBounds fl low high sigfig = .ok (fresh fl low high sigfig) := by
  obtain ⟨h1, h2, h3, h4, h5⟩ := hb
  have hl : HasLayout (fresh fl low high sigfig) (layoutOf fl low sigfig) :=
    fresh_hasLayout ⟨h1, h2, h3, h4, h5⟩
  have hl' : HasLayout { fresh fl low high sigfig with bucketCount := 0, counts := [] }
      (layoutOf fl low sigfig) := ⟨hl.1, hl.2, hl.3, hl.4, hl.5, hl.6, hl.7, hl.8, hl.9⟩
  rw [newWithBounds_magnitudes h1 h2 h3 h4, if_neg (by omega), resize_eq hl' h3 hhigh]
  simp [fresh, Histogram.resizeCounts]

/-- **`new_with_bounds`** returns an `Err` if they are not. -/
theorem newWithBounds_err (hb : ¬ BoundsOk fl low high sigfig) :
    IsErr (Histogram.newWithBounds fl low high sigfig) := by
  by_cases h1 : low < 1
  · exact ⟨.lowIsZero, by simp [Histogram.newWithBounds, h1]⟩
  by_cases h2 : u64Max / 2 < low
  · exact ⟨.lowExceedsMax, by simp [Histogram.newWithBounds, h1, h2]⟩
  by_cases h3 : high < 2 * low
  · exact ⟨.highLessThanTwiceLow, by simp [Histogram.newWithBounds, h1, h2, h3]⟩
  by_cases h4 : 5 < sigfig
  · exact ⟨.sigFigExceedsMax, by simp [Histogram.newWithBounds, h1, h2, h3, h4]⟩
  rw [not_lt] at h1 h2 h3 h4
  refine ⟨.cannotRepresentSigFigBeyondLow, ?_⟩
  rw [newWithBounds_magnitudes h1 h2 h3 h4, if_pos]
  by_contra hc
  exact hb ⟨h1, h2, h3, h4, by omega⟩

theorem newWithBounds_eq_ok {h : Histogram} (hhigh : high < 2 ^ 64)
    (hok : Histogram.newWithBounds fl low high sigfig = .ok h) :
    BoundsOk fl low high sigfig ∧ h = fresh fl low high sigfig := by
  by_cases hb : BoundsOk fl low high sigfig
  · rw [newWithBounds_ok hb hhigh, Except.ok.injEq] at hok
    exact ⟨hb, hok.symm⟩
  · obtain ⟨e, he⟩ := newWithBounds_err hb
    rw [he] at hok
    cases hok

end Chist.Hdr
