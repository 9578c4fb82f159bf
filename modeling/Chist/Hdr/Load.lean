import Chist.Hdr.Create
import Chist.Lib.Slots
import Chist.Lib.CapSum

/-!
# Scanning the counts of a snapshot

`restat` recomputes the statistics of a histogram from its counts in one scan (`restat_eq`): the
maximum is `topValue` of the last occupied slot, the minimum the lower end of the first one past
slot 0, the total the saturated sum. `topValue` is in its slot (`slot_topValue`) but never below
the unit mask (`mask_le_topValue`), not even when no slot is occupied. Indices that are not those
of `u64` values count as the slots they are taken for, or panic (`restat_okWhen`).
-/

set_option autoImplicit false

/-- The maximum a histogram of layout `L` keeps for slot `i`. -/
def LogLinear.topValue (L : LogLinear) (i : Nat) : Nat := L.highest i ||| (2 ^ L.unit - 1)

namespace Chist.Hdr

open Res

variable {ε : Type} {fl : Floats} {h : Histogram} {L : LogLinear}

/-! ## Unit masks -/

theorem or_mask (x u : Nat) : x ||| (2 ^ u - 1) = x / 2 ^ u * 2 ^ u + (2 ^ u - 1) := by
  have hp := Nat.two_pow_pos u
  have hq : (x ||| (2 ^ u - 1)) / 2 ^ u = x / 2 ^ u := by
    rw [Nat.or_div_two_pow, Nat.div_eq_of_lt (a := 2 ^ u - 1) (by omega), Nat.or_zero]
  have hr : (x ||| (2 ^ u - 1)) % 2 ^ u = 2 ^ u - 1 := by
    have h1 := Nat.mod_lt (x ||| (2 ^ u - 1)) hp
    have h2 : (x ||| (2 ^ u - 1)) % 2 ^ u = x % 2 ^ u ||| (2 ^ u - 1) := by
      rw [Nat.or_mod_two_pow, Nat.mod_eq_of_lt (a := 2 ^ u - 1) (by omega)]
    have h3 : 2 ^ u - 1 ≤ x % 2 ^ u ||| (2 ^ u - 1) := Nat.right_le_or
    omega
  have hdm := Nat.div_add_mod' (x ||| (2 ^ u - 1)) (2 ^ u)
  rw [hq, hr] at hdm
  exact hdm.symm

theorem and_not64_mask {x u : Nat} (hx : x < 2 ^ 64) (hu : u ≤ 64) :
    x &&& not64 (2 ^ u - 1) = x / 2 ^ u * 2 ^ u := by
  have hp := Nat.two_pow_pos u
  have hle : 2 ^ u ≤ 2 ^ 64 := Nat.pow_le_pow_right (by decide) hu
  have hn : not64 (2 ^ u - 1) = (2 ^ (64 - u) - 1) * 2 ^ u := by
    rw [Nat.sub_mul, ← Nat.pow_add, Nat.sub_add_cancel hu, not64, u64Max]
    omega
  -- quotient and remainder by the unit
  have hq : (x &&& not64 (2 ^ u - 1)) / 2 ^ u = x / 2 ^ u := by
    have hlt : x / 2 ^ u < 2 ^ (64 - u) := by
      rw [Nat.div_lt_iff_lt_mul hp, ← Nat.pow_add, Nat.sub_add_cancel hu]
      exact hx
    rw [hn, Nat.and_div_two_pow, Nat.mul_div_cancel _ hp, Nat.and_two_pow_sub_one_eq_mod,
      Nat.mod_eq_of_lt hlt]
  have hr : (x &&& not64 (2 ^ u - 1)) % 2 ^ u = 0 := by
    rw [hn, Nat.and_mod_two_pow, Nat.mul_mod_left, Nat.and_zero]
  have hdm := Nat.div_add_mod' (x &&& not64 (2 ^ u - 1)) (2 ^ u)
  rw [hq, hr, Nat.add_zero] at hdm
  exact hdm.symm

theorem low_or_mask (i : Nat) : L.low i ||| (2 ^ L.unit - 1) = L.low i + (2 ^ L.unit - 1) := by
  rw [or_mask, Nat.div_mul_cancel (L.unit_dvd_low i)]

theorem low_and_not64 (hb : L.base ≤ 63) {i : Nat} (hi : L.low i < 2 ^ 64) :
    L.low i &&& not64 (2 ^ L.unit - 1) = L.low i := by
  rw [and_not64_mask hi (by unfold LogLinear.base at hb; omega),
    Nat.div_mul_cancel (L.unit_dvd_low i)]

/-! ## The maximum of a slot -/

theorem topValue_of_lt {i : Nat} (hi : L.low (i + 1) < 2 ^ 64) :
    L.topValue i = L.low (i + 1) - 1 := by
  obtain ⟨q, hq⟩ := L.unit_dvd_low (i + 1)
  have hp := Nat.two_pow_pos L.unit
  have hlt := L.low_strictMono (Nat.lt_succ_self i)
  simp only [Nat.succ_eq_add_one] at hlt
  obtain ⟨q, rfl⟩ : ∃ k, q = k + 1 := ⟨q - 1, by
    rcases q with _ | q
    · simp at hq; omega
    · rfl⟩
  rw [LogLinear.topValue, highest_of_lt hi, or_mask]
  have e : L.low (i + 1) - 1 = 2 ^ L.unit * q + (2 ^ L.unit - 1) := by
    rw [hq, Nat.mul_succ]; omega
  have hd : (L.low (i + 1) - 1) / 2 ^ L.unit = q := by
    rw [e, Nat.mul_add_div hp, Nat.div_eq_of_lt (by omega), Nat.add_zero]
  rw [hd, e, Nat.mul_comm]

theorem topValue_of_eq {i : Nat} (hi : L.low (i + 1) = 2 ^ 64) :
    L.topValue i = if L.unit = 0 then u64Max - 1 else u64Max := by
  rw [LogLinear.topValue, highest_of_eq hi]
  split
  · rename_i h0
    rw [h0]
    rfl
  · rename_i h0
    obtain ⟨u, hu⟩ := Nat.exists_eq_succ_of_ne_zero h0
    have hp := Nat.two_pow_pos u
    have hle : 2 ^ L.unit ≤ 2 ^ 64 := by
      rw [← hi]
      exact (L.unit_le_width i).trans (by rw [L.low_succ]; omega)
    have h1 : u64Max - 1 ||| (2 ^ L.unit - 1) < 2 ^ 64 := by
      refine Nat.or_lt_two_pow (by unfold u64Max; omega) (by omega)
    have h2 : u64Max - 1 ≤ u64Max - 1 ||| (2 ^ L.unit - 1) := Nat.left_le_or
    -- the masks set the lowest bit
    have h3 : (u64Max - 1 ||| (2 ^ L.unit - 1)) % 2 = 1 := by
      rw [hu, Nat.succ_eq_add_one, Nat.pow_succ, Nat.or_mod_two_eq_one]
      right
      omega
    unfold u64Max at *
    omega

theorem topValue_lt (hb : L.base ≤ 63) {i : Nat} (hi : L.low i < 2 ^ 64) :
    L.topValue i < 2 ^ 64 := by
  rcases Nat.lt_or_eq_of_le (low_succ_le hb hi) with h | h
  · rw [topValue_of_lt h]; omega
  · rw [topValue_of_eq h]; unfold u64Max; split <;> omega

theorem slot_topValue (hb : L.base ≤ 63) {i : Nat} (hi : L.low i < 2 ^ 64) :
    L.slot (L.topValue i) = i := by
  rcases Nat.lt_or_eq_of_le (low_succ_le hb hi) with h | h
  · rw [topValue_of_lt h, L.slot_low_succ_sub_one]
  · have h1 := low_add_one_lt hb h
    have h2 := Nat.two_pow_pos L.unit
    rw [topValue_of_eq h, L.slot_eq_iff, h]
    unfold u64Max
    split <;> omega

theorem topValue_mono (hb : L.base ≤ 63) {i j : Nat} (hij : i ≤ j) (hj : L.low j < 2 ^ 64) :
    L.topValue i ≤ L.topValue j := by
  have hi := (L.low_strictMono.monotone hij).trans_lt hj
  by_contra hlt
  have hs := L.slot_mono (Nat.le_of_lt (Nat.lt_of_not_le hlt))
  rw [slot_topValue hb hi, slot_topValue hb hj] at hs
  exact hlt (Nat.le_of_eq (by rw [Nat.le_antisymm hij hs]))

/-- The maximum of one of `n` slots is past the last of them when the unit mask makes it the last
`u64`. -/
theorem topValue_le_highest_iff {n i : Nat} (hi : i < n) (hn : L.low n ≤ 2 ^ 64) :
    L.topValue i ≤ L.highest (n - 1) ↔ L.unit = 0 ∨ L.low (i + 1) < 2 ^ 64 := by
  have hle : L.low (i + 1) ≤ L.low n := L.low_strictMono.monotone hi
  have hn1 : n - 1 + 1 = n := by omega
  rcases Nat.lt_or_eq_of_le (hle.trans hn) with h | h
  · refine iff_of_true ?_ (.inr h)
    rw [topValue_of_lt h, LogLinear.highest, hn1]
    unfold u64Max
    omega
  · have hend : L.low (n - 1 + 1) = 2 ^ 64 := by
      rw [hn1]
      omega
    rw [topValue_of_eq h, highest_of_eq hend, h]
    unfold u64Max
    by_cases hu : L.unit = 0 <;> simp [hu]

theorem mask_le_topValue (i : Nat) : 2 ^ L.unit - 1 ≤ L.topValue i := Nat.right_le_or

theorem topValue_zero (hb : L.base ≤ 63) : L.topValue 0 = 2 ^ L.unit - 1 := by
  have h1 : L.low 1 = 2 ^ L.unit := by
    rw [L.low_succ 0, L.low_zero, L.width_first (by simp [LogLinear.slotBucket]), Nat.zero_add]
  have h2 : 2 ^ L.unit < 2 ^ 64 :=
    Nat.pow_lt_pow_right (by decide) (by unfold LogLinear.base at hb; omega)
  rw [topValue_of_lt (by rw [h1]; exact h2), h1]

/-- **`highest_equivalent` keeps the maximum of a slot.** -/
theorem highestEquivalent_topValue (hh : HasLayout h L) {i : Nat} (hi : L.low i < 2 ^ 64) :
    h.highestEquivalent (ε := ε) (L.topValue i) = .ok (L.topValue i) := by
  rw [highestEquivalent_eq hh (topValue_lt hh.base_le hi), slot_topValue hh.base_le hi]
  congr 1
  split
  · rename_i h1; rw [h1]
  · rename_i h1
    rcases Nat.lt_or_eq_of_le (low_succ_le hh.base_le hi) with h2 | h2
    · rw [topValue_of_lt h2, highest_of_lt h2]
    · rw [topValue_of_eq h2] at h1 ⊢
      rw [highest_of_eq h2]
      split at h1
      · rename_i h3; rw [if_pos h3]
      · exact absurd rfl h1

theorem max_eq (hh : HasLayout h L) {i : Nat} (hi : L.low i < 2 ^ 64)
    (hm : h.maxValue = L.topValue i) : h.max (ε := ε) = .ok (L.topValue i) := by
  unfold Histogram.max
  rw [hm]
  split
  · rename_i h0; rw [h0]
  · exact highestEquivalent_topValue hh hi

/-! ## The rescan -/

/-- The minimum a histogram keeps for its first occupied slot past slot 0. -/
def minValue (L : LogLinear) : Option Nat → Nat
  | none => originalMin
  | some i => L.low i

theorem satAdd64_eq : satAdd64 = CapSum.add u64Max := rfl

/-- The scan of `restat` over the occupied slots. -/
theorem foldl_onNonzeroCount (c : Nat → Nat) (l : List Nat) (s : RestatState) :
    l.foldl (fun s i => s.onNonzeroCount i (c i)) s =
      { maxIndex := l.getLast?.or s.maxIndex
        minIndex := s.minIndex.or (l.find? (· ≠ 0))
        totalCount := (l.map c).foldl satAdd64 s.totalCount } := by
  induction l generalizing s with
  | nil => simp
  | cons i l ih =>
    rw [List.foldl_cons, ih]
    simp only [RestatState.onNonzeroCount, RestatState.mk.injEq]
    refine ⟨?_, ?_, by simp⟩
    · rw [List.getLast?_cons]
      cases l.getLast? <;> rfl
    · rw [List.find?_cons]
      cases hm : s.minIndex with
      | some m => simp
      | none =>
        by_cases h0 : i = 0
        · simp [h0]
        · simp [h0]

theorem scan_eq (counts : List Nat) :
    counts.zipIdx.foldl RestatState.scan RestatState.new =
      { maxIndex := (Slots.occupied counts).getLast?
        minIndex := Slots.firstNonzero counts
        totalCount := min counts.sum u64Max } := by
  rw [Slots.foldl_zipIdx _ (fun _ _ => rfl)]
  have hscan : (Slots.occupied counts).foldl
        (fun b i => RestatState.scan b (counts.getD i 0, i)) RestatState.new =
      (Slots.occupied counts).foldl
        (fun b i => b.onNonzeroCount i (counts.getD i 0)) RestatState.new :=
    List.foldl_ext _ _ _ fun s i hi => if_pos (Slots.mem_occupied.1 hi)
  rw [hscan, foldl_onNonzeroCount (counts.getD · 0)]
  simp only [RestatState.new, Option.or_none, Option.none_or, RestatState.mk.injEq, true_and]
  refine ⟨rfl, ?_⟩
  rw [satAdd64_eq, CapSum.foldl_add _ (Nat.zero_le _), Slots.sum_occupied, Nat.zero_add]

theorem updateMax_eq (h : Histogram) (v : Nat) : h.updateMax v =
    { h with maxValue := max h.maxValue (v ||| h.unitMagnitudeMask) } := by
  unfold Histogram.updateMax
  simp only []
  by_cases hlt : h.maxValue < v ||| h.unitMagnitudeMask
  · rw [if_pos hlt, max_eq_right (Nat.le_of_lt hlt)]
  · rw [if_neg hlt, max_eq_left (Nat.le_of_not_lt hlt)]

theorem updateMin_eq (h : Histogram) (v : Nat) : h.updateMin v =
    { h with minNonZeroValue := if v ≤ h.unitMagnitudeMask then h.minNonZeroValue
      else min h.minNonZeroValue (v &&& not64 h.unitMagnitudeMask) } := by
  unfold Histogram.updateMin
  simp only []
  by_cases hm : v ≤ h.unitMagnitudeMask
  · rw [if_pos hm, if_pos hm]
  · rw [if_neg hm, if_neg hm]
    by_cases hlt : v &&& not64 h.unitMagnitudeMask < h.minNonZeroValue
    · rw [if_pos hlt, min_eq_right (Nat.le_of_lt hlt)]
    · rw [if_neg hlt, min_eq_left (Nat.le_of_not_lt hlt)]

theorem unit_le_low {i : Nat} (hi : i ≠ 0) : 2 ^ L.unit ≤ L.low i :=
  Nat.le_of_dvd ((L.low_strictMono (Nat.pos_of_ne_zero hi)).trans_le' (Nat.zero_le _))
    (L.unit_dvd_low i)

theorem low_lt_u64Max (hb : L.base ≤ 63) {i : Nat} (hi : L.low i < 2 ^ 64) : L.low i < u64Max := by
  have hlt := L.low_strictMono (Nat.lt_succ_self i)
  have hp := Nat.two_pow_pos L.unit
  simp only [Nat.succ_eq_add_one] at hlt
  unfold u64Max
  rcases Nat.lt_or_eq_of_le (low_succ_le hb hi) with h | h
  · omega
  · have := low_add_one_lt hb h
    omega

theorem updateMin_low (hh : HasLayout h L) {i : Nat} (h0 : i ≠ 0) (hi : L.low i < 2 ^ 64) :
    h.updateMin (L.low i) = { h with minNonZeroValue := min h.minNonZeroValue (L.low i) } := by
  have hu := unit_le_low (L := L) h0
  have hp := Nat.two_pow_pos L.unit
  have hmask : ¬ L.low i ≤ h.unitMagnitudeMask := by rw [hh.unitMagnitudeMask]; omega
  have hand : L.low i &&& not64 h.unitMagnitudeMask = L.low i := by
    rw [hh.unitMagnitudeMask, low_and_not64 hh.base_le hi]
  rw [updateMin_eq, if_neg hmask, hand]

/-- The minimum a histogram keeps for its first occupied index past 0. An index that is taken for
slot 0 leaves none. -/
def looseMin (L : LogLinear) : Option Nat → Nat
  | none => originalMin
  | some i => if L.wrapped i = 0 then originalMin else L.wrapped i

theorem looseMin_lt (L : LogLinear) (o : Option Nat) : looseMin L o < 2 ^ 64 := by
  have hmin : originalMin < 2 ^ 64 := by decide
  cases o with
  | none => exact hmin
  | some i =>
    rw [looseMin]
    split
    · exact hmin
    · exact L.wrapped_lt i

theorem updateMin_wrapped (hh : HasLayout h L) (hmin : h.minNonZeroValue = originalMin) (i : Nat) :
    h.updateMin (L.wrapped i) = { h with minNonZeroValue := looseMin L (some i) } := by
  have hlt := L.wrapped_lt i
  have hpos := Nat.two_pow_pos L.unit
  have hunit : L.unit ≤ 64 := by
    have := hh.base_le
    unfold LogLinear.base at this
    omega
  obtain ⟨q, hq⟩ := unit_dvd_wrapped hh.base_le i
  rw [updateMin_eq, hh.unitMagnitudeMask, hmin, looseMin, and_not64_mask hlt hunit, hq,
    Nat.mul_div_cancel_left _ hpos, Nat.mul_comm q, ← hq]
  congr 1
  by_cases h0 : L.wrapped i = 0
  · rw [if_pos (by omega), if_pos h0]
  · have hle : 2 ^ L.unit ≤ L.wrapped i :=
      Nat.le_of_dvd (Nat.pos_of_ne_zero h0) (unit_dvd_wrapped hh.base_le i)
    rw [if_neg (by omega), if_neg h0, min_eq_right]
    unfold originalMin u64Max
    omega

theorem applyMax_okWhen (hh : HasLayout h L) (hmax : h.maxValue = 2 ^ L.unit - 1)
    (s : RestatState) : OkWhen (s.applyMax (ε := ε) h) (∀ i ∈ s.maxIndex, L.Addressable i)
      (· = { h with maxValue := L.topValue (L.takenFor (s.maxIndex.getD 0)) }) := by
  unfold RestatState.applyMax
  cases s.maxIndex with
  | none =>
    refine .of_eq (by simp) rfl ?_
    rw [Option.getD_none, L.takenFor_zero, topValue_zero hh.base_le, ← hmax]
  | some i =>
    simp only [Option.mem_some_iff, forall_eq', Option.getD_some]
    refine (valueFor_okWhen hh i).bind_ok fun v _ hv => ?_
    rw [hv, highestEquivalent_wrapped hh, ok_bind, pure_eq_ok, updateMax_eq,
      hh.unitMagnitudeMask, ← LogLinear.topValue, hmax, max_eq_right (mask_le_topValue _)]
    exact ⟨_, rfl, rfl⟩

theorem applyMin_okWhen (hh : HasLayout h L) (hmin : h.minNonZeroValue = originalMin)
    (s : RestatState) : OkWhen (s.applyMin (ε := ε) h) (∀ i ∈ s.minIndex, L.Addressable i)
      (· = { h with minNonZeroValue := looseMin L s.minIndex }) := by
  unfold RestatState.applyMin
  cases s.minIndex with
  | none =>
    refine .of_eq (by simp) rfl ?_
    rw [looseMin, ← hmin]
  | some i =>
    simp only [Option.mem_some_iff, forall_eq']
    refine (valueFor_okWhen hh i).bind_ok fun v _ hv => ?_
    rw [hv, pure_eq_ok, updateMin_wrapped hh hmin]
    exact ⟨_, rfl, rfl⟩

/-- `update_histogram` on a histogram whose statistics were reset. -/
theorem updateHistogram_okWhen (hh : HasLayout h L) (hmax : h.maxValue = 2 ^ L.unit - 1)
    (hmin : h.minNonZeroValue = originalMin) (s : RestatState) :
    OkWhen (s.updateHistogram (ε := ε) h)
      ((∀ i ∈ s.maxIndex, L.Addressable i) ∧ ∀ i ∈ s.minIndex, L.Addressable i)
      (· = { h with
        maxValue := L.topValue (L.takenFor (s.maxIndex.getD 0))
        minNonZeroValue := looseMin L s.minIndex
        totalCount := s.totalCount }) := by
  unfold RestatState.updateHistogram
  refine (applyMax_okWhen hh hmax s).bind fun h1 _ hh1 => ?_
  subst hh1
  have hh1 : HasLayout { h with maxValue := L.topValue (L.takenFor (s.maxIndex.getD 0)) } L :=
    hh.stats _ _ _ _
  refine (applyMin_okWhen hh1 hmin s).bind_ok fun h2 _ hh2 => ?_
  subst hh2
  exact ⟨_, rfl, rfl⟩

theorem looseMin_of_lt (hb : L.base ≤ 63) {o : Option Nat}
    (ho : ∀ i ∈ o, i ≠ 0 ∧ L.low i < 2 ^ 64) : looseMin L o = minValue L o := by
  cases o with
  | none => rfl
  | some i =>
    obtain ⟨h0, hi⟩ := ho i rfl
    have hle := unit_le_low (L := L) h0
    have hpos := Nat.two_pow_pos L.unit
    rw [looseMin, wrapped_of_lt hb hi, if_neg (by omega), minValue]

theorem updateHistogram_eq (hh : HasLayout h L) (hmax : h.maxValue = 2 ^ L.unit - 1)
    (hmin : h.minNonZeroValue = originalMin) {mx mn : Option Nat} {total : Nat}
    (hmx : ∀ i ∈ mx, L.low i < 2 ^ 64) (hmn : ∀ i ∈ mn, i ≠ 0 ∧ L.low i < 2 ^ 64) :
    (RestatState.mk mx mn total).updateHistogram (ε := ε) h = .ok { h with
      maxValue := L.topValue (mx.getD 0)
      minNonZeroValue := minValue L mn
      totalCount := total } := by
  obtain ⟨g, hg, rfl⟩ := (updateHistogram_okWhen (ε := ε) hh hmax hmin ⟨mx, mn, total⟩).ok
    ⟨fun i hi => addressable_of_lt hh.base_le hh.half_le (hmx i hi),
      fun i hi => addressable_of_lt hh.base_le hh.half_le (hmn i hi).2⟩
  have htop : L.takenFor (mx.getD 0) = mx.getD 0 := by
    cases mx with
    | none => exact L.takenFor_zero
    | some i => exact takenFor_of_lt hh.base_le (hmx i rfl)
  simp only [hg, htop, looseMin_of_lt hh.base_le hmn]

/-- **`restat`** over all indices. -/
theorem restat_okWhen (hh : HasLayout h L) :
    OkWhen (h.restat (ε := ε) h.counts.length)
      ((∀ i ∈ (Slots.occupied h.counts).getLast?, L.Addressable i) ∧
        ∀ i ∈ Slots.firstNonzero h.counts, L.Addressable i)
      (· = { h with
        maxValue := L.topValue (L.takenFor (Slots.last h.counts))
        minNonZeroValue := looseMin L (Slots.firstNonzero h.counts)
        totalCount := min h.counts.sum u64Max }) := by
  unfold Histogram.restat
  simp only []
  rw [assert_ok (by simp [Histogram.resetMax, Histogram.resetMin]), ok_bind]
  simp only [Histogram.resetMax, Histogram.resetMin, List.take_length, scan_eq]
  refine updateHistogram_okWhen (hh.stats _ _ _ _) ?_ rfl _
  simp [originalMax, hh.unitMagnitudeMask]

theorem restat_eq (hh : HasLayout h L) (hocc : ∀ i ∈ Slots.occupied h.counts, L.low i < 2 ^ 64) :
    h.restat (ε := ε) h.counts.length = .ok { h with
      maxValue := L.topValue (Slots.last h.counts)
      minNonZeroValue := minValue L (Slots.firstNonzero h.counts)
      totalCount := min h.counts.sum u64Max } := by
  have hmn : ∀ i ∈ Slots.firstNonzero h.counts, i ≠ 0 ∧ L.low i < 2 ^ 64 := fun i hi =>
    ⟨by simpa using List.find?_some hi, hocc i (List.mem_of_find?_eq_some hi)⟩
  obtain ⟨g, hg, rfl⟩ := (restat_okWhen (ε := ε) hh).ok
    ⟨fun i hi => addressable_of_lt hh.base_le hh.half_le (hocc i (List.mem_of_getLast? hi)),
      fun i hi => addressable_of_lt hh.base_le hh.half_le (hmn i hi).2⟩
  have htop : L.takenFor (Slots.last h.counts) = Slots.last h.counts := by
    by_cases he : Slots.occupied h.counts = []
    · rw [Slots.last, he]
      exact L.takenFor_zero
    · exact takenFor_of_lt hh.base_le
        (hocc _ (Slots.mem_occupied.2 (Slots.getD_last_ne_zero he)))
  rw [hg, htop, looseMin_of_lt hh.base_le hmn]

end Chist.Hdr
