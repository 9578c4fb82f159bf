import Mathlib.Data.Nat.Size
import Mathlib.Order.Monotone.Basic
import Mathlib.Tactic.Ring

/-!
# Log-linear slot layouts

A log-linear layout cuts `Nat` into slots. The first bucket has `2 ^ (half + 1)` slots of width
`2 ^ unit`; every later bucket has `2 ^ half` slots, each twice as wide as in the bucket before.

`slot v` is the slot of `v`, `low i` the first value of slot `i`. The two determine each other:
`slot v = i` exactly when `low i ≤ v < low (i + 1)` (`slot_eq_iff`), so slots partition `Nat` into
intervals and `slot` is monotone. A slot past the first bucket is narrower than `v / 2 ^ half`
(`width_mul_le`): the relative precision of the layout.
-/

set_option autoImplicit false

/-- A log-linear layout: `unit` and `half` are binary logarithms. -/
structure LogLinear where
  unit : Nat
  half : Nat
  deriving DecidableEq, Repr

namespace LogLinear

variable (L : LogLinear)

/-- The values below `2 ^ base` are those of the first bucket. -/
def base : Nat := L.unit + L.half + 1

/-- The bucket of `v`: the number of doublings after which the first bucket holds `v`. -/
def bucket (v : Nat) : Nat := v.size - L.base

/-- The slot of `v`. -/
def slot (v : Nat) : Nat := L.bucket v * 2 ^ L.half + v / 2 ^ (L.unit + L.bucket v)

/-- The bucket of slot `i` (both halves of the first bucket are bucket 0). -/
def slotBucket (i : Nat) : Nat := i / 2 ^ L.half - 1

def width (i : Nat) : Nat := 2 ^ (L.unit + L.slotBucket i)

/-- The first value of slot `i`. -/
def low (i : Nat) : Nat := (i - L.slotBucket i * 2 ^ L.half) * L.width i

/-! ## Buckets -/

theorem bucket_eq_zero_iff {v : Nat} : L.bucket v = 0 ↔ v < 2 ^ L.base := by
  unfold bucket
  rw [Nat.sub_eq_zero_iff_le, Nat.size_le]

theorem lt_two_pow_bucket (v : Nat) : v < 2 ^ (L.base + L.bucket v) := by
  rw [← Nat.size_le]
  unfold bucket
  omega

/-- A value past the first bucket is in the upper half of its bucket. -/
theorem two_pow_bucket_le {v : Nat} (h : L.bucket v ≠ 0) :
    2 ^ (L.unit + L.half + L.bucket v) ≤ v := by
  rw [← Nat.lt_size]
  unfold bucket base at *
  omega

theorem sub_lt (v : Nat) : v / 2 ^ (L.unit + L.bucket v) < 2 ^ (L.half + 1) := by
  rw [Nat.div_lt_iff_lt_mul (Nat.two_pow_pos _), ← Nat.pow_add]
  have := L.lt_two_pow_bucket v
  rwa [show L.half + 1 + (L.unit + L.bucket v) = L.base + L.bucket v by unfold base; omega]

theorem le_sub {v : Nat} (h : L.bucket v ≠ 0) :
    2 ^ L.half ≤ v / 2 ^ (L.unit + L.bucket v) := by
  rw [Nat.le_div_iff_mul_le (Nat.two_pow_pos _), ← Nat.pow_add]
  have := L.two_pow_bucket_le h
  rwa [show L.half + (L.unit + L.bucket v) = L.unit + L.half + L.bucket v by omega]

@[simp] theorem slotBucket_slot (v : Nat) : L.slotBucket (L.slot v) = L.bucket v := by
  have hp := Nat.two_pow_pos L.half
  have hlt := L.sub_lt v
  unfold slotBucket slot
  rw [Nat.add_comm, Nat.add_mul_div_right _ _ hp]
  rw [Nat.pow_succ] at hlt
  by_cases hb : L.bucket v = 0
  · rw [hb] at hlt ⊢
    have : v / 2 ^ (L.unit + 0) / 2 ^ L.half < 2 := by
      rw [Nat.div_lt_iff_lt_mul hp]; omega
    omega
  · -- the upper half: the quotient is exactly 1
    have : v / 2 ^ (L.unit + L.bucket v) / 2 ^ L.half = 1 :=
      Nat.div_eq_of_lt_le (by simpa using L.le_sub hb) (by omega)
    omega

theorem low_slot (v : Nat) :
    L.low (L.slot v) = v / 2 ^ (L.unit + L.bucket v) * 2 ^ (L.unit + L.bucket v) := by
  unfold low width
  rw [slotBucket_slot]
  rw [slot, Nat.add_sub_cancel_left]

/-! ## Slots are consecutive intervals -/

theorem width_pos (i : Nat) : 0 < L.width i := Nat.two_pow_pos _

@[simp] theorem low_zero : L.low 0 = 0 := by simp [low, slotBucket]

/-- Below the lower end of its bucket, a slot index is not. -/
theorem slotBucket_mul_le (i : Nat) : L.slotBucket i * 2 ^ L.half ≤ i :=
  (Nat.mul_le_mul_right _ (Nat.sub_le _ _)).trans (Nat.div_mul_le_self _ _)

theorem low_succ (i : Nat) : L.low (i + 1) = L.low i + L.width i := by
  have hp := Nat.two_pow_pos L.half
  have hle := L.slotBucket_mul_le i
  by_cases hb : L.slotBucket (i + 1) = L.slotBucket i
  · unfold low width at *
    rw [hb, Nat.succ_sub hle, Nat.succ_mul]
  · -- `i` is the last slot of its bucket
    have hdiv : (i + 1) / 2 ^ L.half = i / 2 ^ L.half + 1 ∧ 1 ≤ i / 2 ^ L.half := by
      have h1 := Nat.succ_div (a := i) (b := 2 ^ L.half)
      unfold slotBucket at hb
      split at h1 <;> omega
    have hmod : i + 1 = (i / 2 ^ L.half + 1) * 2 ^ L.half := by
      have h1 := Nat.succ_div (a := i) (b := 2 ^ L.half)
      split at h1
      · rename_i hd
        rw [← hdiv.1, Nat.div_mul_cancel hd]
      · omega
    obtain ⟨c, hc⟩ : ∃ c, i / 2 ^ L.half = c + 1 := ⟨i / 2 ^ L.half - 1, by omega⟩
    have hmod' : i + 1 = c * 2 ^ L.half + 2 * 2 ^ L.half := by rw [hmod, hc]; ring
    have hi : L.slotBucket i = c := by unfold slotBucket; omega
    have hi1 : L.slotBucket (i + 1) = c + 1 := by unfold slotBucket; omega
    have e1 : i + 1 - (c + 1) * 2 ^ L.half = 2 ^ L.half := by rw [Nat.succ_mul]; omega
    have e2 : i - c * 2 ^ L.half + 1 = 2 * 2 ^ L.half := by omega
    have hw : 2 ^ (L.unit + (c + 1)) = 2 * 2 ^ (L.unit + c) := by
      rw [← Nat.add_assoc, Nat.pow_succ]; ring
    unfold low width
    rw [hi, hi1, e1, hw, ← Nat.succ_mul, Nat.succ_eq_add_one, e2]
    ring

theorem low_strictMono : StrictMono L.low :=
  strictMono_nat_of_lt_succ fun i => by
    rw [low_succ]
    exact Nat.lt_add_of_pos_right (L.width_pos i)

theorem low_slot_le (v : Nat) : L.low (L.slot v) ≤ v := by
  rw [low_slot]
  exact Nat.div_mul_le_self _ _

theorem lt_low_slot_succ (v : Nat) : v < L.low (L.slot v + 1) := by
  rw [low_succ, low_slot, width, slotBucket_slot]
  exact Nat.lt_div_mul_add (Nat.two_pow_pos _)

/-- **Slots are the intervals between consecutive lower ends.** -/
theorem slot_eq_iff {v i : Nat} : L.slot v = i ↔ L.low i ≤ v ∧ v < L.low (i + 1) := by
  refine ⟨?_, ?_⟩
  · rintro rfl
    exact ⟨L.low_slot_le v, L.lt_low_slot_succ v⟩
  · rintro ⟨h1, h2⟩
    have h3 := L.low_strictMono.lt_iff_lt.1 (h1.trans_lt (L.lt_low_slot_succ v))
    have h4 := L.low_strictMono.lt_iff_lt.1 ((L.low_slot_le v).trans_lt h2)
    omega

@[simp] theorem slot_low (i : Nat) : L.slot (L.low i) = i :=
  L.slot_eq_iff.2 ⟨Nat.le_refl _, L.low_strictMono (Nat.lt_succ_self i)⟩

theorem slot_lt_iff {v n : Nat} : L.slot v < n ↔ v < L.low n := by
  refine ⟨?_, ?_⟩
  · exact fun h => (L.lt_low_slot_succ v).trans_le (L.low_strictMono.monotone h)
  · exact fun h => L.low_strictMono.lt_iff_lt.1 ((L.low_slot_le v).trans_lt h)

theorem slot_mono : Monotone L.slot := fun v w h => by
  rw [← Nat.lt_succ_iff, slot_lt_iff]
  exact h.trans_lt (L.lt_low_slot_succ w)

theorem slot_low_succ_sub_one (i : Nat) : L.slot (L.low (i + 1) - 1) = i := by
  have := L.low_strictMono (Nat.lt_succ_self i)
  refine L.slot_eq_iff.2 ⟨?_, ?_⟩ <;> simp only [Nat.succ_eq_add_one] at this <;> omega

/-! ## Precision -/

theorem unit_dvd_low (i : Nat) : 2 ^ L.unit ∣ L.low i := by
  unfold low width
  exact Dvd.dvd.mul_left (Nat.pow_dvd_pow 2 (Nat.le_add_right _ _)) _

theorem unit_le_width (i : Nat) : 2 ^ L.unit ≤ L.width i :=
  Nat.pow_le_pow_right (by decide) (Nat.le_add_right _ _)

theorem width_first {i : Nat} (h : L.slotBucket i = 0) : L.width i = 2 ^ L.unit := by
  simp [width, h]

/-- **The relative precision**: past the first bucket, a slot's width times `2 ^ half` does not
exceed the values in it. -/
theorem width_mul_le {v : Nat} (h : L.bucket v ≠ 0) : L.width (L.slot v) * 2 ^ L.half ≤ v := by
  rw [width, slotBucket_slot, ← Nat.pow_add]
  have := L.two_pow_bucket_le h
  rwa [show L.unit + L.bucket v + L.half = L.unit + L.half + L.bucket v by omega]

/-! ## Whole buckets -/

/-- The number of slots of the first `n` buckets. -/
def bins (n : Nat) : Nat := (n + 1) * 2 ^ L.half

/-- The first `n + 1` buckets cover exactly the values below `2 ^ (base + n)`. -/
theorem low_bins (n : Nat) : L.low (L.bins (n + 1)) = 2 ^ (L.base + n) := by
  have hp := Nat.two_pow_pos L.half
  have hb : L.slotBucket (L.bins (n + 1)) = n + 1 := by
    unfold slotBucket bins
    rw [Nat.mul_div_cancel _ hp]
    omega
  unfold low width
  rw [hb]
  unfold bins base
  rw [Nat.add_mul (n + 1) 1, Nat.add_sub_cancel_left, Nat.one_mul, ← Nat.pow_add]
  congr 1
  omega

end LogLinear
