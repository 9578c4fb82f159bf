import Chist.Hdr.Coherent
import Chist.Hdr.Quantile

/-!
# Reading by value

The values of a slot are equivalent (`equivalent_spec`). `count_at`, `count_between` and
`quantile_below` clamp a value to the last slot and add up the counts of slots, capped
(`countBetween_eq`). `value_at_quantile` inverts `count_between(0, ..)`: it returns a value of the
first slot up to which there are as many samples as it looks for (`valueAtQuantile_outcomes`).
-/

set_option autoImplicit false

namespace Chist.Hdr

open Res

variable {ε : Type} {fl : Floats} {h : Histogram} {low high value : Nat}

/-! ## Equivalent values -/

/-- **Equivalent values** are those from `lowest_equivalent` to `highest_equivalent`, and
`median_equivalent` is one of them. `u64::MAX` is left out: it is its own `highest_equivalent`, but
the other values of its slot have `u64::MAX - 1`. -/
theorem equivalent_spec (hs : Shaped fl h) {v w : Nat} (hv : v < u64Max) (hw : w < u64Max) :
    ∃ lowest median highest, h.lowestEquivalent (ε := ε) v = .ok lowest ∧
      h.medianEquivalent (ε := ε) v = .ok median ∧
      h.highestEquivalent (ε := ε) v = .ok highest ∧
      lowest ≤ v ∧ v ≤ highest ∧ lowest ≤ median ∧ median ≤ highest ∧
      h.equivalent (ε := ε) v w = .ok (decide (lowest ≤ w ∧ w ≤ highest)) := by
  have hh := hs.toHasLayout
  have hv64 : v < 2 ^ 64 := hv.trans (by decide)
  have hw64 : w < 2 ^ 64 := hw.trans (by decide)
  have hlow := (h.layout fl).low_slot_le v
  have hend := (h.layout fl).lt_low_slot_succ v
  have hsucc := (h.layout fl).low_succ ((h.layout fl).slot v)
  have hpos := (h.layout fl).width_pos ((h.layout fl).slot v)
  have hle := low_succ_le hh.base_le (hlow.trans_lt hv64)
  have hmid : (h.layout fl).low ((h.layout fl).slot v) +
      (h.layout fl).width ((h.layout fl).slot v) / 2 ≤
      (h.layout fl).highest ((h.layout fl).slot v) := by
    rcases Nat.lt_or_eq_of_le hle with hlt | heq
    · rw [highest_of_lt hlt]
      omega
    · have hwide := four_le_width hh.base_le hh.half_le heq
      rw [highest_of_eq heq]
      unfold u64Max
      omega
  have hhighest : ∀ x < u64Max, x ≤ (h.layout fl).highest ((h.layout fl).slot v) ↔
      x < (h.layout fl).low ((h.layout fl).slot v + 1) := by
    intro x hx
    unfold LogLinear.highest
    omega
  refine ⟨_, _, _, lowestEquivalent_eq hh hv64, ?_, ?_, hlow, (hhighest v hv).2 hend,
    Nat.le_add_right _ _, hmid, ?_⟩
  · unfold Histogram.medianEquivalent
    have hmax : (h.layout fl).highest ((h.layout fl).slot v) < 2 ^ 64 := by
      unfold LogLinear.highest u64Max
      omega
    rw [lowestEquivalent_eq hh hv64, ok_bind, equivalentRange_eq hh hv64, ok_bind,
      Nat.shiftRight_one, checkedAdd_some (hmid.trans_lt hmax)]
    rfl
  · rw [highestEquivalent_eq hh hv64, if_neg (Nat.ne_of_lt hv)]
  · unfold Histogram.equivalent
    rw [lowestEquivalent_eq hh hv64, ok_bind, lowestEquivalent_eq hh hw64, ok_bind, pure_eq_ok]
    refine congrArg Except.ok (decide_eq_decide.2 ?_)
    rw [hhighest w hw, ← (h.layout fl).slot_eq_iff, (h.layout fl).low_strictMono.injective.eq_iff]
    exact eq_comm

theorem equivalent_spec_sample : ∃ lowest median highest,
    sample.lowestEquivalent (ε := Empty) 11 = .ok lowest ∧
    sample.medianEquivalent (ε := Empty) 11 = .ok median ∧
    sample.highestEquivalent (ε := Empty) 11 = .ok highest ∧
    lowest ≤ 11 ∧ 11 ≤ highest ∧ lowest ≤ median ∧ median ≤ highest ∧
    sample.equivalent (ε := Empty) 11 14 = .ok (decide (lowest ≤ 14 ∧ 14 ≤ highest)) :=
  equivalent_spec sample_coherent.toShaped (by decide) (by decide)

/-! ## Counts -/

/-- The slot of a value, or the last one. -/
def slotOrLast (fl : Floats) (h : Histogram) (value : Nat) : Nat :=
  min ((h.layout fl).slot value) (h.counts.length - 1)

theorem foldlM_addCountAt {n : Nat} (i total : Nat) (hend : i + n ≤ h.counts.length)
    (htotal : total ≤ u64Max) : (List.range' i n).foldlM h.addCountAt total =
      (.ok (min (total + ((h.counts.take (i + n)).sum - (h.counts.take i).sum)) u64Max) :
        Res ε Nat) := by
  induction n generalizing i total with
  | zero =>
    rw [Nat.add_zero, Nat.sub_self, Nat.add_zero, Nat.min_eq_left htotal]
    rfl
  | succ n ih =>
    have hi : i < h.counts.length := by omega
    have hstep : h.addCountAt total i = (.ok (satAdd64 total (h.counts.getD i 0)) : Res ε Nat) := by
      unfold Histogram.addCountAt Histogram.countAtIndex
      rw [List.getD_eq_getElem _ _ hi, List.getElem?_eq_getElem hi]
      rfl
    have hle : satAdd64 total (h.counts.getD i 0) ≤ u64Max := Nat.min_le_right _ _
    have hcount := Slots.sum_take_succ h.counts i
    have hmono := Slots.sum_take_mono h.counts (Nat.le_add_right (i + 1) n)
    simp only at hmono
    rw [List.range'_succ, List.foldlM_cons, hstep, ok_bind,
      ih (i + 1) _ (by omega) hle, ← Nat.add_assoc, Nat.add_right_comm i n 1]
    refine congrArg Except.ok ?_
    unfold satAdd64
    omega

section
variable (hs : Shaped fl h)
include hs

theorem slotOrLast_lt (value : Nat) : slotOrLast fl h value < h.counts.length := by
  have hpos := hs.length_pos
  unfold slotOrLast
  omega

theorem indexForOrLast_eq (hv : value < 2 ^ 64) :
    h.indexForOrLast (ε := ε) value = .ok (slotOrLast fl h value) := by
  unfold Histogram.indexForOrLast
  rw [indexFor_eq hs.toHasLayout hv, ok_bind, hs.lastIndex]
  rfl

/-- **`count_at`** is the count of the slot of the value. -/
theorem countAt_eq (hv : value < 2 ^ 64) :
    h.countAt (ε := ε) value = .ok (h.counts.getD (slotOrLast fl h value) 0) := by
  have hlt := slotOrLast_lt hs value
  unfold Histogram.countAt Histogram.countAtIndex
  rw [indexForOrLast_eq hs hv, ok_bind, List.getElem?_eq_getElem hlt,
    List.getD_eq_getElem _ _ hlt]
  rfl

/-- **`count_between`** counts the samples from the slot of `low` to that of `high`. -/
theorem countBetween_eq (hlow : low < 2 ^ 64) (hhigh : high < 2 ^ 64) :
    h.countBetween (ε := ε) low high =
      .ok (min ((h.counts.take (slotOrLast fl h high + 1)).sum -
        (h.counts.take (slotOrLast fl h low)).sum) u64Max) := by
  have hlt := slotOrLast_lt hs low
  have hlt' := slotOrLast_lt hs high
  have hlen := length_lt_two_pow hs
  unfold Histogram.countBetween
  rw [indexForOrLast_eq hs hlow, ok_bind, indexForOrLast_eq hs hhigh, ok_bind,
    checkedAdd_some (by omega), expectSome_some, ok_bind,
    foldlM_addCountAt _ _ (by omega) (Nat.zero_le _), Nat.zero_add]
  rcases Nat.le_total (slotOrLast fl h low) (slotOrLast fl h high + 1) with hle | hle
  · rw [Nat.add_sub_cancel' hle]
  · have hmono := Slots.sum_take_mono h.counts hle
    simp only at hmono
    rw [Nat.sub_eq_zero_of_le hle, Nat.add_zero, Nat.sub_self, Nat.sub_eq_zero_of_le hmono]

theorem countBetween_zero (hhigh : high < 2 ^ 64) : h.countBetween (ε := ε) 0 high =
    .ok (min (h.counts.take (slotOrLast fl h high + 1)).sum u64Max) := by
  have hzero : slotOrLast fl h 0 = 0 := by
    have hslot := (h.layout fl).slot_low 0
    rw [LogLinear.low_zero] at hslot
    rw [slotOrLast, hslot, Nat.zero_min]
  rw [countBetween_eq hs (by decide) hhigh, hzero, List.take_zero, List.sum_nil, Nat.sub_zero]

theorem quantileBelow_eq (hv : value < 2 ^ 64) : h.quantileBelow (ε := ε) value =
    .ok (if h.totalCount = 0 then (1, 1)
      else (min (h.counts.take (slotOrLast fl h value + 1)).sum u64Max, h.totalCount)) := by
  have hlt := slotOrLast_lt hs value
  have hlen := length_lt_two_pow hs
  unfold Histogram.quantileBelow
  split
  · rfl
  · rw [indexForOrLast_eq hs hv, ok_bind, checkedAdd_some (by omega), expectSome_some, ok_bind,
      foldlM_addCountAt _ _ (by omega) (Nat.zero_le _)]
    simp

end

/-- **`quantile_below`** divides what `count_between` counts by the number of samples: the quotient
is at most 1. -/
theorem quantileBelow_spec (hk : Kept fl h) (hv : value < 2 ^ 64) :
    ∃ n d, h.quantileBelow (ε := ε) value = .ok (n, d) ∧ n ≤ d ∧ 0 < d ∧
      (h.totalCount ≠ 0 → h.countBetween (ε := ε) 0 value = .ok n ∧ d = h.totalCount) := by
  have hsplit := List.sum_take_add_sum_drop h.counts (slotOrLast fl h value + 1)
  rw [quantileBelow_eq hk.toShaped hv]
  by_cases h0 : h.totalCount = 0
  · rw [if_pos h0]
    exact ⟨1, 1, rfl, Nat.le_refl 1, Nat.one_pos, fun hne => absurd h0 hne⟩
  · rw [if_neg h0]
    refine ⟨_, h.totalCount, rfl, ?_, Nat.pos_of_ne_zero h0, fun _ =>
      ⟨countBetween_zero hk.toShaped hv, rfl⟩⟩
    rw [hk.totalCount]
    omega

theorem quantileBelow_spec_sample :
    ∃ n d, sample.quantileBelow (ε := Empty) 3 = .ok (n, d) ∧ n ≤ d ∧ 0 < d ∧
      (sample.totalCount ≠ 0 →
        sample.countBetween (ε := Empty) 0 3 = .ok n ∧ d = sample.totalCount) :=
  quantileBelow_spec sample_coherent.toKept (by decide)

/-! ## Quantiles -/

/-- The value returned for the slot reached. -/
theorem valueAtQuantile_reach (hs : Shaped fl h) {q : Rat} {i : Nat}
    (hfit : ScanFits (Histogram.countAtQuantile fl q h.totalCount) 0 h.counts)
    (hreach : Slots.reach (Histogram.countAtQuantile fl q h.totalCount) 0 h.counts = some i) :
    ∃ v < 2 ^ 64, h.valueAtQuantile (ε := ε) fl q = .ok v ∧ (h.layout fl).slot v = i := by
  have hpos := countAtQuantile_pos fl q h.totalCount
  have hi := hs.low_lt (Slots.reach_eq_some hpos hreach).1
  have hslot := (h.layout fl).slot_low i
  unfold Histogram.valueAtQuantile
  rw [(quantileIndex_eq h.counts 0 hpos).1 hfit, hreach, ok_bind]
  simp only [Option.map_some, Nat.zero_add]
  rw [valueFor_eq hs.toHasLayout hi, ok_bind]
  split
  · exact ⟨_, hi, by rw [lowestEquivalent_eq hs.toHasLayout hi, hslot], hslot⟩
  · refine ⟨(h.layout fl).highest i, ?_, ?_, slot_highest hs.base_le hi⟩
    · unfold LogLinear.highest u64Max
      omega
    · rw [highestEquivalent_eq hs.toHasLayout hi,
        if_neg (Nat.ne_of_lt (low_lt_u64Max hs.base_le hi)), hslot]

/-- **The three outcomes of `value_at_quantile`**: it panics when the running total overflows
before it reaches the count looked for, returns 0 when there are too few samples, and else returns
the least value, up to equivalence, up to which `count_between` counts enough. -/
theorem valueAtQuantile_outcomes (hs : Shaped fl h) (q : Rat) {target : Nat}
    (htarget : target = Histogram.countAtQuantile fl q h.totalCount) :
    (¬ ScanFits target 0 h.counts ∧ h.valueAtQuantile (ε := ε) fl q = panic .overflow) ∨
    (ScanFits target 0 h.counts ∧ h.counts.sum < target ∧
      h.valueAtQuantile (ε := ε) fl q = .ok 0) ∨
    (ScanFits target 0 h.counts ∧ ∃ v, h.valueAtQuantile (ε := ε) fl q = .ok v ∧
      (∃ n, h.countBetween (ε := ε) 0 v = .ok n ∧ target ≤ n) ∧
      ∀ w < v, h.equivalent (ε := ε) w v = .ok false →
        ∃ n, h.countBetween (ε := ε) 0 w = .ok n ∧ n < target) := by
  subst htarget
  have hpos := countAtQuantile_pos fl q h.totalCount
  by_cases hfit : ScanFits (Histogram.countAtQuantile fl q h.totalCount) 0 h.counts
  · right
    cases hreach : Slots.reach (Histogram.countAtQuantile fl q h.totalCount) 0 h.counts with
    | none =>
      left
      refine ⟨hfit, ?_, ?_⟩
      · rcases Slots.reach_eq_none hreach with hnil | hlt
        · exact absurd hnil (List.ne_nil_of_length_pos hs.length_pos)
        · rwa [Nat.zero_add] at hlt
      · unfold Histogram.valueAtQuantile
        rw [(quantileIndex_eq h.counts 0 hpos).1 hfit, hreach]
        rfl
    | some i =>
      right
      obtain ⟨v, hv, hvalue, hslot⟩ := valueAtQuantile_reach (ε := ε) hs hfit hreach
      obtain ⟨hi, hbefore, hafter⟩ := Slots.reach_eq_some hpos hreach
      have h64 := hfit i hi hbefore
      simp only [Nat.zero_add] at hbefore hafter h64
      refine ⟨hfit, v, hvalue, ⟨_, countBetween_zero hs hv, ?_⟩, fun w hw hne => ?_⟩
      · have hor : slotOrLast fl h v = i := by
          unfold slotOrLast
          omega
        rw [hor]
        unfold u64Max
        omega
      · have hw64 : w < 2 ^ 64 := hw.trans hv
        have hlt : (h.layout fl).slot w < i := by
          refine Nat.lt_of_le_of_ne (hslot ▸ (h.layout fl).slot_mono (Nat.le_of_lt hw)) fun he => ?_
          unfold Histogram.equivalent at hne
          rw [lowestEquivalent_eq hs.toHasLayout hw64, ok_bind,
            lowestEquivalent_eq hs.toHasLayout hv, ok_bind, he, hslot] at hne
          simp at hne
        have hor : slotOrLast fl h w < i := (Nat.min_le_left _ _).trans_lt hlt
        have hmono := Slots.sum_take_mono h.counts (Nat.succ_le_of_lt hor)
        simp only [Nat.succ_eq_add_one] at hmono
        exact ⟨_, countBetween_zero hs hw64, by omega⟩
  · exact .inl ⟨hfit, valueAtQuantile_panic hfit⟩

theorem valueAtQuantile_outcomes_sample :
    ∃ v, sample.valueAtQuantile (ε := Empty) .exact (1 / 2) = .ok v ∧
      ∃ n, sample.countBetween (ε := Empty) 0 v = .ok n ∧ 3 ≤ n := by
  have htarget : 3 = Histogram.countAtQuantile .exact (1 / 2) sample.totalCount := by
    decide +kernel
  rcases valueAtQuantile_outcomes (ε := Empty) sample_coherent.toShaped (1 / 2) htarget with
    ⟨hfit, -⟩ | ⟨-, hsum, -⟩ | ⟨-, v, hv, hn, -⟩
  · unfold ScanFits at hfit
    exact absurd (by decide +kernel) hfit
  · exact absurd hsum (by decide +kernel)
  · exact ⟨v, hv, hn⟩

end Chist.Hdr
