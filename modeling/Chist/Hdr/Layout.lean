import Chist.Hdr.Ops
import Chist.Lib.LogLinear

/-!
# The slot arithmetic is a log-linear layout

`HasLayout h L`: the derived fields of `h` are those of the layout `L`. Then `bucket_for`,
`index_for`, `value_for` and the functions on equivalent values do not panic on any `u64`, and
compute `L.bucket`, `L.slot`, `L.low` (`bucketFor_eq` to `highestEquivalent_eq`); a slot whose end
is `2 ^ 64` is the one exception of `highest_equivalent` (`LogLinear.highest`).

A loaded histogram may have more indices than there are slots of `u64` values. For such an index
`value_for` takes the bucket modulo 256 and loses the bits that are shifted out
(`LogLinear.wrapped`), or panics (`LogLinear.Addressable`): `valueFor_okWhen`.
-/

set_option autoImplicit false

/-- The value `highest_equivalent` gives for a slot: its last value, but one less when that is the
last `u64` (the end of the slot is capped before the subtraction). -/
def LogLinear.highest (L : LogLinear) (i : Nat) : Nat := min (L.low (i + 1)) Chist.u64Max - 1

namespace LogLinear

variable (L : LogLinear)

/-- What `value_for` computes for index `i`: the bucket is a `u8`, the value a `u64`. -/
def wrapped (i : Nat) : Nat :=
  (i - L.slotBucket i * 2 ^ L.half) * 2 ^ (L.unit + L.slotBucket i % 2 ^ 8) % 2 ^ 64

/-- `value_for` does not panic for index `i`. -/
def Addressable (i : Nat) : Prop := i < 2 ^ 32 ∧ L.unit + L.slotBucket i % 2 ^ 8 < 64

instance (i : Nat) : Decidable (L.Addressable i) := inferInstanceAs (Decidable (_ ∧ _))

/-- The slot index `i` is taken for. -/
def takenFor (i : Nat) : Nat := L.slot (L.wrapped i)

theorem wrapped_lt (i : Nat) : L.wrapped i < 2 ^ 64 := Nat.mod_lt _ (by decide)

theorem wrapped_le_low (i : Nat) : L.wrapped i ≤ L.low i := by
  have hle : 2 ^ (L.unit + L.slotBucket i % 2 ^ 8) ≤ L.width i :=
    Nat.pow_le_pow_right (by decide) (Nat.add_le_add_left (Nat.mod_le _ _) _)
  exact (Nat.mod_le _ _).trans (Nat.mul_le_mul_left _ hle)

/-- An index is taken for its own slot or for one before it. -/
theorem takenFor_le (i : Nat) : L.takenFor i ≤ i := by
  have h := L.slot_mono (L.wrapped_le_low i)
  rwa [L.slot_low] at h

theorem low_takenFor_lt (i : Nat) : L.low (L.takenFor i) < 2 ^ 64 :=
  (L.low_slot_le _).trans_lt (L.wrapped_lt i)

@[simp] theorem takenFor_zero : L.takenFor 0 = 0 := Nat.le_zero.1 (L.takenFor_le 0)

theorem sub_slotBucket (i : Nat) : i - L.slotBucket i * 2 ^ L.half =
    if i / 2 ^ L.half = 0 then i else i % 2 ^ L.half + 2 ^ L.half := by
  have hdm := Nat.div_add_mod' i (2 ^ L.half)
  unfold slotBucket
  split
  · rename_i hq
    rw [hq, Nat.zero_sub, Nat.zero_mul, Nat.sub_zero]
  · rename_i hq
    obtain ⟨b, hb⟩ := Nat.exists_eq_succ_of_ne_zero hq
    rw [hb, Nat.succ_eq_add_one, Nat.succ_mul] at hdm
    rw [hb, Nat.succ_eq_add_one, Nat.add_sub_cancel]
    omega

end LogLinear

namespace Chist.Hdr

open Res

/-- The fields of `h` that follow from its layout. -/
structure HasLayout (h : Histogram) (L : LogLinear) : Prop where
  subBucketCount : h.subBucketCount = 2 ^ (L.half + 1)
  subBucketHalfCount : h.subBucketHalfCount = 2 ^ L.half
  subBucketHalfCountMagnitude : h.subBucketHalfCountMagnitude = L.half
  subBucketMask : h.subBucketMask = (2 ^ (L.half + 1) - 1) * 2 ^ L.unit
  leadingZeroCountBase : h.leadingZeroCountBase = 64 - L.base
  unitMagnitude : h.unitMagnitude = L.unit
  unitMagnitudeMask : h.unitMagnitudeMask = 2 ^ L.unit - 1
  base_le : L.base ≤ 63
  half_le : L.half ≤ 17

variable {ε : Type} {h : Histogram} {L : LogLinear}

theorem HasLayout.stats (hh : HasLayout h L) (mx mn total : Nat) (counts : List Nat) :
    HasLayout { h with
      maxValue := mx, minNonZeroValue := mn, totalCount := total, counts := counts } L :=
  ⟨hh.1, hh.2, hh.3, hh.4, hh.5, hh.6, hh.7, hh.8, hh.9⟩

/-! ## Bits -/

/-- The mask of the first bucket has the bits `unit .. base`. -/
theorem mask_bounds (L : LogLinear) : 2 ^ (L.base - 1) ≤ (2 ^ (L.half + 1) - 1) * 2 ^ L.unit ∧
    (2 ^ (L.half + 1) - 1) * 2 ^ L.unit < 2 ^ L.base := by
  have hu := Nat.two_pow_pos L.unit
  have hh := Nat.two_pow_pos L.half
  have e : 2 ^ L.base = 2 ^ (L.half + 1) * 2 ^ L.unit := by
    rw [← Nat.pow_add]; congr 1; unfold LogLinear.base; omega
  have e' : 2 ^ (L.base - 1) = 2 ^ L.half * 2 ^ L.unit := by
    rw [← Nat.pow_add]; congr 1; unfold LogLinear.base; omega
  have hs : 2 ^ (L.half + 1) = 2 * 2 ^ L.half := by rw [Nat.pow_succ, Nat.mul_comm]
  refine ⟨?_, ?_⟩
  · rw [e']
    exact Nat.mul_le_mul_right _ (by omega)
  · rw [e]
    exact Nat.mul_lt_mul_of_pos_right (by omega) hu

/-- The bits of `value | sub_bucket_mask` are those of `value`, at least those of the first
bucket. -/
theorem log2_or_mask (L : LogLinear) (v : Nat) :
    v ||| (2 ^ (L.half + 1) - 1) * 2 ^ L.unit ≠ 0 ∧
      (v ||| (2 ^ (L.half + 1) - 1) * 2 ^ L.unit).log2 + 1 = Max.max v.size L.base := by
  obtain ⟨hlo, hhi⟩ := mask_bounds L
  generalize (2 ^ (L.half + 1) - 1) * 2 ^ L.unit = m at *
  have hb : 0 < L.base := by unfold LogLinear.base; omega
  have hm : m ≤ v ||| m := Nat.right_le_or
  have hv : v ≤ v ||| m := Nat.left_le_or
  have h0 : v ||| m ≠ 0 := by
    have := Nat.two_pow_pos (L.base - 1)
    omega
  refine ⟨h0, le_antisymm ?_ ?_⟩
  · -- neither operand has a bit beyond
    rw [Nat.succ_le_iff, Nat.log2_lt h0]
    refine Nat.or_lt_two_pow ?_ (hhi.trans_le (Nat.pow_le_pow_right (by decide) (by omega)))
    rw [← Nat.size_le]
    omega
  · refine Nat.max_le.2 ⟨?_, ?_⟩
    · rw [Nat.size_le]
      exact hv.trans_lt ((Nat.log2_lt h0).1 (Nat.lt_succ_self _))
    · have h1 : 2 ^ (L.base - 1) ≤ v ||| m := hlo.trans hm
      have h2 := (Nat.le_log2 h0).2 h1
      omega

theorem size_le_64 {v : Nat} (hv : v < 2 ^ 64) : v.size ≤ 64 := Nat.size_le.2 hv

theorem bucket_le (hL : L.base ≤ 63) {v : Nat} (hv : v < 2 ^ 64) : L.base + L.bucket v ≤ 64 := by
  have := size_le_64 hv
  unfold LogLinear.bucket
  omega

/-! ## Bucket and position -/

theorem bucketFor_eq (hh : HasLayout h L) {v : Nat} (hv : v < 2 ^ 64) :
    h.bucketFor (ε := ε) v = .ok (L.bucket v) := by
  obtain ⟨h0, hlog⟩ := log2_or_mask L v
  have hs := size_le_64 hv
  have hb := hh.base_le
  unfold Histogram.bucketFor leadingZeros64
  rw [hh.subBucketMask, hh.leadingZeroCountBase, if_neg h0, subU_ok (by omega)]
  congr 1
  unfold LogLinear.bucket
  omega

theorem subBucketFor_eq (hh : HasLayout h L) {v : Nat} (hv : v < 2 ^ 64) :
    h.subBucketFor (ε := ε) v (L.bucket v) = .ok (v / 2 ^ (L.unit + L.bucket v)) := by
  have hb := bucket_le hh.base_le hv
  have hlt := L.sub_lt v
  have h32 : 2 ^ (L.half + 1) ≤ 2 ^ 32 :=
    Nat.pow_le_pow_right (by decide) (by have := hh.half_le; omega)
  have hbase : L.base = L.unit + L.half + 1 := rfl
  unfold Histogram.subBucketFor
  rw [hh.unitMagnitude, checkU_ok (by omega), ok_bind, shrU_ok (by omega), ok_bind,
    Nat.add_comm (L.bucket v), Nat.mod_eq_of_lt (by omega), pure_eq_ok]

theorem valueFromLoc_eq (hh : HasLayout h L) {b s : Nat} (hb : L.unit + b < 64)
    (hs : s * 2 ^ (L.unit + b) < 2 ^ 64) :
    h.valueFromLoc (ε := ε) b s = .ok (s * 2 ^ (L.unit + b)) := by
  unfold Histogram.valueFromLoc
  rw [hh.unitMagnitude, checkU_ok (by omega), ok_bind, Nat.add_comm b, shlU_ok hb hs]

/-! ## Index and value -/

theorem slot_le (hb : L.base ≤ 63) (hl : L.half ≤ 17) {v : Nat} (hv : v < 2 ^ 64) :
    L.slot v ≤ 2 ^ 25 := by
  have hb := bucket_le hb hv
  have hbase : L.base = L.unit + L.half + 1 := rfl
  have hlt := L.sub_lt v
  have h17 : 2 ^ L.half ≤ 2 ^ 17 := Nat.pow_le_pow_right (by decide) hl
  have hbb : L.bucket v * 2 ^ L.half ≤ 63 * 2 ^ 17 := Nat.mul_le_mul (by omega) h17
  unfold LogLinear.slot
  rw [Nat.pow_succ] at hlt
  omega

theorem indexFor_eq (hh : HasLayout h L) {v : Nat} (hv : v < 2 ^ 64) :
    h.indexFor (ε := ε) v = .ok (some (L.slot v)) := by
  have hb := bucket_le hh.base_le hv
  have hle := slot_le hh.base_le hh.half_le hv
  have hlt := L.sub_lt v
  have hbase : L.base = L.unit + L.half + 1 := rfl
  have h17 : 2 ^ L.half ≤ 2 ^ 17 := Nat.pow_le_pow_right (by decide) hh.half_le
  have hpos := Nat.two_pow_pos L.half
  have hbb : (L.bucket v + 1) * 2 ^ L.half ≤ 64 * 2 ^ 17 := Nat.mul_le_mul (by omega) h17
  have hup : L.bucket v = 0 ∨ 2 ^ L.half ≤ v / 2 ^ (L.unit + L.bucket v) :=
    (Nat.eq_zero_or_pos _).imp id fun h => L.le_sub (Nat.pos_iff_ne_zero.1 h)
  have hslot : ((L.bucket v + 1) * 2 ^ L.half : Nat) +
      (((v / 2 ^ (L.unit + L.bucket v) : Nat) : Int) - (2 ^ L.half : Nat)) = (L.slot v : Nat) := by
    unfold LogLinear.slot
    push_cast
    ring
  unfold Histogram.indexFor
  rw [bucketFor_eq hh hv, ok_bind, subBucketFor_eq hh hv, ok_bind, hh.subBucketCount,
    hh.subBucketHalfCount, hh.subBucketHalfCountMagnitude, assert_ok (by simpa using hlt), ok_bind,
    assert_ok (by simpa using hup), ok_bind,
    shlI32_ok (by have := hh.half_le; omega) (by omega), ok_bind, checkI32_ok (by omega) (by omega),
    ok_bind, hslot, checkI32_ok (by omega) (by omega), ok_bind, assert_ok (by simp), ok_bind,
    if_pos (by omega), Int.toNat_natCast, pure_eq_ok]

/-- A slot that starts in a `u64` is in one of the buckets of a `u64`. -/
theorem slotBucket_le (hb : L.base ≤ 63) {i : Nat} (hi : L.low i < 2 ^ 64) :
    L.base + L.slotBucket i ≤ 64 := by
  have := bucket_le hb hi
  rwa [← L.slotBucket_slot, L.slot_low] at this

theorem low_succ_le (hb : L.base ≤ 63) {i : Nat} (hi : L.low i < 2 ^ 64) :
    L.low (i + 1) ≤ 2 ^ 64 := by
  have h1 := slotBucket_le hb hi
  have h2 : L.slotBucket i = L.bucket (L.low i) := by rw [← L.slotBucket_slot, L.slot_low]
  have hlt := L.sub_lt (L.low i)
  have e := L.low_slot (L.low i)
  rw [L.slot_low, ← h2] at e
  rw [← h2] at hlt
  rw [L.low_succ, e, LogLinear.width, ← Nat.succ_mul]
  calc _ ≤ 2 ^ (L.half + 1) * 2 ^ (L.unit + L.slotBucket i) := Nat.mul_le_mul_right _ hlt
    _ = 2 ^ (L.base + L.slotBucket i) := by
      rw [← Nat.pow_add]; congr 1; unfold LogLinear.base; omega
    _ ≤ 2 ^ 64 := Nat.pow_le_pow_right (by decide) h1

theorem valueFromLoc_okWhen (hh : HasLayout h L) (b s : Nat) :
    OkWhen (h.valueFromLoc (ε := ε) b s) (L.unit + b < 64)
      (· = s * 2 ^ (L.unit + b) % 2 ^ 64) := by
  unfold Histogram.valueFromLoc
  rw [hh.unitMagnitude, Nat.add_comm b]
  by_cases hlt : L.unit + b < 64
  · rw [checkU_ok (by omega), ok_bind, shlU, if_pos hlt, Nat.shiftLeft_eq]
    exact .of_eq hlt rfl rfl
  · by_cases h8 : L.unit + b < 2 ^ 8
    · rw [checkU_ok h8, ok_bind, shlU, if_neg hlt]
      exact .of_error hlt rfl
    · rw [checkU, if_neg h8]
      exact .of_error hlt rfl

/-- **`value_for`** of any index. -/
theorem valueFor_okWhen (hh : HasLayout h L) (i : Nat) :
    OkWhen (h.valueFor (ε := ε) i) (L.Addressable i) (· = L.wrapped i) := by
  have hpos := Nat.two_pow_pos L.half
  have h17 : 2 ^ L.half ≤ 2 ^ 17 := Nat.pow_le_pow_right (by decide) hh.half_le
  have hmod := Nat.mod_lt i hpos
  have hsub := L.sub_slotBucket i
  unfold Histogram.valueFor LogLinear.Addressable LogLinear.wrapped
  rw [hh.subBucketHalfCountMagnitude, shrU_ok (by have := hh.half_le; omega), ok_bind]
  simp only []
  by_cases h32 : i < 2 ^ 32
  · rw [checkU_ok h32, expect_ok, ok_bind, hh.subBucketHalfCount, subU_ok hpos, ok_bind,
      Nat.and_two_pow_sub_one_eq_mod, checkU_ok (by omega), ok_bind]
    by_cases hq : i / 2 ^ L.half = 0
    · -- the lower half of the first bucket
      have hsb : L.slotBucket i = 0 := by unfold LogLinear.slotBucket; omega
      have hi' : i % 2 ^ L.half = i := Nat.mod_eq_of_lt ((Nat.div_eq_zero_iff_lt hpos).1 hq)
      rw [if_pos hq] at hsub
      rw [if_pos (by rw [hq]; decide), hi', Nat.add_comm i, subU_ok (by omega), ok_bind,
        Nat.add_sub_cancel_left, hsub, hsb]
      exact (valueFromLoc_okWhen hh 0 i).congr ⟨fun h => ⟨h32, h⟩, And.right⟩
    · have hq' : i / 2 ^ L.half = L.slotBucket i + 1 :=
        (Nat.sub_add_cancel (Nat.pos_of_ne_zero hq)).symm
      have hsb : ((L.slotBucket i + 1 : Nat) - 1 : Int).toNat % 2 ^ 8 = L.slotBucket i % 2 ^ 8 := by
        omega
      rw [if_neg hq] at hsub
      rw [hq', if_neg (by omega), hsb, hsub]
      exact (valueFromLoc_okWhen hh _ _).congr ⟨fun h => ⟨h32, h⟩, And.right⟩
  · rw [checkU, if_neg h32]
    exact .of_error (fun h => h32 h.1) rfl

theorem wrapped_of_lt (hb : L.base ≤ 63) {i : Nat} (hi : L.low i < 2 ^ 64) :
    L.wrapped i = L.low i := by
  have hle := slotBucket_le hb hi
  have hmod : L.slotBucket i % 2 ^ 8 = L.slotBucket i := Nat.mod_eq_of_lt (by omega)
  unfold LogLinear.wrapped
  rw [hmod]
  exact Nat.mod_eq_of_lt hi

theorem takenFor_of_lt (hb : L.base ≤ 63) {i : Nat} (hi : L.low i < 2 ^ 64) :
    L.takenFor i = i := by
  rw [LogLinear.takenFor, wrapped_of_lt hb hi, L.slot_low]

theorem addressable_of_lt (hb : L.base ≤ 63) (hl : L.half ≤ 17) {i : Nat}
    (hi : L.low i < 2 ^ 64) : L.Addressable i := by
  have hle := slotBucket_le hb hi
  have hslot := slot_le hb hl hi
  have hmod := Nat.mod_le (L.slotBucket i) (2 ^ 8)
  have hbase : L.base = L.unit + L.half + 1 := rfl
  rw [L.slot_low] at hslot
  exact ⟨by omega, by omega⟩

theorem valueFor_eq (hh : HasLayout h L) {i : Nat} (hi : L.low i < 2 ^ 64) :
    h.valueFor (ε := ε) i = .ok (L.low i) := by
  obtain ⟨v, hv, rfl⟩ := (valueFor_okWhen (ε := ε) hh i).ok
    (addressable_of_lt hh.base_le hh.half_le hi)
  rw [hv, wrapped_of_lt hh.base_le hi]

/-! ## Equivalent values -/

theorem lowestEquivalent_eq (hh : HasLayout h L) {v : Nat} (hv : v < 2 ^ 64) :
    h.lowestEquivalent (ε := ε) v = .ok (L.low (L.slot v)) := by
  have hb := bucket_le hh.base_le hv
  have hbase : L.base = L.unit + L.half + 1 := rfl
  have hle := Nat.div_mul_le_self v (2 ^ (L.unit + L.bucket v))
  unfold Histogram.lowestEquivalent
  rw [bucketFor_eq hh hv, ok_bind, subBucketFor_eq hh hv, ok_bind,
    valueFromLoc_eq hh (by omega) (by omega), L.low_slot]

theorem equivalentRange_eq (hh : HasLayout h L) {v : Nat} (hv : v < 2 ^ 64) :
    h.equivalentRange (ε := ε) v = .ok (L.width (L.slot v)) := by
  have hb := bucket_le hh.base_le hv
  have hbase : L.base = L.unit + L.half + 1 := rfl
  have hlt : 1 * 2 ^ (L.unit + L.bucket v) < 2 ^ 64 := by
    rw [Nat.one_mul]
    exact Nat.pow_lt_pow_right (by decide) (by omega)
  unfold Histogram.equivalentRange
  rw [bucketFor_eq hh hv, ok_bind, hh.unitMagnitude, checkU_ok (by omega), ok_bind,
    shlU_ok (by omega) hlt, Nat.one_mul, LogLinear.width, L.slotBucket_slot]

theorem nextNonEquivalent_eq (hh : HasLayout h L) {v : Nat} (hv : v < 2 ^ 64) :
    h.nextNonEquivalent (ε := ε) v = .ok (min (L.low (L.slot v + 1)) u64Max) := by
  unfold Histogram.nextNonEquivalent
  rw [lowestEquivalent_eq hh hv, ok_bind, equivalentRange_eq hh hv, ok_bind, satAdd64, L.low_succ,
    pure_eq_ok]

theorem highestEquivalent_eq (hh : HasLayout h L) {v : Nat} (hv : v < 2 ^ 64) :
    h.highestEquivalent (ε := ε) v =
      .ok (if v = u64Max then u64Max else L.highest (L.slot v)) := by
  unfold Histogram.highestEquivalent
  split
  · rfl
  · have := L.lt_low_slot_succ v
    rw [nextNonEquivalent_eq hh hv, ok_bind, subU_ok (by unfold u64Max; omega), LogLinear.highest]

theorem wrapped_ne_u64Max (hhalf : L.half ≤ 17) (i : Nat) : L.wrapped i ≠ u64Max := by
  have hpos := Nat.two_pow_pos L.half
  have h17 : 2 ^ L.half ≤ 2 ^ 17 := Nat.pow_le_pow_right (by decide) hhalf
  have hsub := L.sub_slotBucket i
  have hmod := Nat.mod_lt i hpos
  have hlt : i - L.slotBucket i * 2 ^ L.half < 2 ^ 18 := by
    rw [hsub]
    split
    · rename_i hq
      have := (Nat.div_eq_zero_iff_lt hpos).1 hq
      omega
    · omega
  unfold LogLinear.wrapped u64Max
  generalize i - L.slotBucket i * 2 ^ L.half = x at hlt
  cases L.unit + L.slotBucket i % 2 ^ 8 with
  | zero => omega
  | succ e =>
    -- an even number
    rw [Nat.pow_succ, ← Nat.mul_assoc]
    omega

theorem highestEquivalent_wrapped (hh : HasLayout h L) (i : Nat) :
    h.highestEquivalent (ε := ε) (L.wrapped i) = .ok (L.highest (L.takenFor i)) := by
  rw [highestEquivalent_eq hh (L.wrapped_lt i), if_neg (wrapped_ne_u64Max hh.half_le i)]
  rfl

theorem unit_dvd_wrapped (hb : L.base ≤ 63) (i : Nat) : 2 ^ L.unit ∣ L.wrapped i := by
  have hle : L.unit ≤ 64 := by
    unfold LogLinear.base at hb
    omega
  unfold LogLinear.wrapped
  rw [Nat.dvd_mod_iff (Nat.pow_dvd_pow 2 hle), Nat.pow_add]
  exact ((Nat.dvd_mul_right _ _).mul_left _)

/-! ## The value of a slot's end -/

/-- A slot that ends before `2 ^ 64`: its highest value is its last. -/
theorem highest_of_lt {i : Nat} (hi : L.low (i + 1) < 2 ^ 64) :
    L.highest i = L.low (i + 1) - 1 := by
  unfold LogLinear.highest u64Max
  omega

/-- The slot that ends at `2 ^ 64`: one less than its last value. -/
theorem highest_of_eq {i : Nat} (hi : L.low (i + 1) = 2 ^ 64) : L.highest i = u64Max - 1 := by
  unfold LogLinear.highest u64Max
  omega

theorem low_add_one_lt (hb : L.base ≤ 63) {i : Nat} (hi : L.low (i + 1) = 2 ^ 64) :
    L.low i + 2 ^ L.unit < 2 ^ 64 := by
  have hlt := L.low_strictMono (Nat.lt_succ_self i)
  simp only [Nat.succ_eq_add_one] at hlt
  have h1 := slotBucket_le hb (i := i) (by omega)
  have h2 : L.slotBucket i ≠ 0 := by
    intro h0
    have h3 : L.bucket (L.low (i + 1) - 1) = 0 := by
      rw [← L.slotBucket_slot, L.slot_low_succ_sub_one, h0]
    rw [L.bucket_eq_zero_iff, hi] at h3
    have h4 : 2 ^ L.base ≤ 2 ^ 63 := Nat.pow_le_pow_right (by decide) hb
    omega
  have h3 : 2 ^ (L.unit + 1) ≤ L.width i := Nat.pow_le_pow_right (by decide) (by omega)
  have h4 := Nat.two_pow_pos L.unit
  rw [L.low_succ] at hi
  rw [Nat.pow_succ] at h3
  omega

theorem four_le_width (hb : L.base ≤ 63) (hhalf : L.half ≤ 17) {i : Nat}
    (hi : L.low (i + 1) = 2 ^ 64) : 4 ≤ L.width i := by
  have hbase : L.base = L.unit + L.half + 1 := rfl
  have hlt := L.low_strictMono (Nat.lt_succ_self i)
  simp only [Nat.succ_eq_add_one] at hlt
  have hbucket := slotBucket_le hb (i := i) (by omega)
  have hwidth : L.width i ≤ 2 ^ 63 := Nat.pow_le_pow_right (by decide) (by omega)
  rw [L.low_succ] at hi
  have hsize : 63 < (L.low i).size := Nat.lt_size.2 (by omega)
  have hlast : L.slotBucket i = (L.low i).size - L.base := by
    rw [← L.slot_low i, L.slotBucket_slot, L.slot_low]
    rfl
  have hpow : 2 ^ 2 ≤ L.width i := Nat.pow_le_pow_right (by decide) (by omega)
  exact hpow

theorem slot_highest (hb : L.base ≤ 63) {i : Nat} (hi : L.low i < 2 ^ 64) :
    L.slot (L.highest i) = i := by
  have hlt := L.low_strictMono (Nat.lt_succ_self i)
  simp only [Nat.succ_eq_add_one] at hlt
  rcases Nat.lt_or_eq_of_le (low_succ_le hb hi) with h | h
  · rw [highest_of_lt h, L.slot_low_succ_sub_one]
  · have := low_add_one_lt hb h
    have h1 := Nat.two_pow_pos L.unit
    rw [highest_of_eq h, L.slot_eq_iff]
    unfold u64Max
    omega

end Chist.Hdr
