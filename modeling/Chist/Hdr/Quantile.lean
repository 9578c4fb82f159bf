import Chist.Hdr.Add

/-!
# Quantiles

`valueAtQuantile_eq`: the scan returns the highest value of the slot at which the running total
reaches the count of the quantile (`Slots.reach`), 0 if it never does; it panics exactly when the
running total overflows on the way (`valueAtQuantile_panic`), which it does not while all counts
add up to less than `2 ^ 64`.
-/

set_option autoImplicit false

namespace Chist.Hdr

open Res

variable {ε : Type} {fl : Floats} {h : Histogram} {L : LogLinear}

/-- The running total fits in `u64` until it reaches `target`. -/
def ScanFits (target total : Nat) (counts : List Nat) : Prop :=
  ∀ k < counts.length, total + (counts.take k).sum < target →
    total + (counts.take (k + 1)).sum < 2 ^ 64

theorem scanFits_cons {target total c : Nat} {counts : List Nat} (hlt : total < target) :
    ScanFits target total (c :: counts) ↔ total + c < 2 ^ 64 ∧
      (total + c < target → ScanFits target (total + c) counts) := by
  refine ⟨?_, ?_⟩
  · intro h
    refine ⟨by simpa [hlt] using h 0 (by simp), fun _ k hk hs => ?_⟩
    have := h (k + 1) (by simpa using hk)
    simp only [List.take_succ_cons, List.sum_cons] at this
    omega
  · rintro ⟨h1, h2⟩ k hk hs
    cases k with
    | zero => simpa using h1
    | succ k =>
      simp only [List.take_succ_cons, List.sum_cons] at hs ⊢
      have := h2 (by omega) k (by simpa using hk) (by omega)
      omega

theorem scanFits_of_sum {target total : Nat} {counts : List Nat}
    (h : total + counts.sum < 2 ^ 64) : ScanFits target total counts := by
  intro k _ _
  have := congrArg List.sum (List.take_append_drop (k + 1) counts)
  rw [List.sum_append] at this
  omega

/-- **The scan** finds the slot reached, or overflows. -/
theorem quantileIndex_eq {target : Nat} (counts : List Nat) (i : Nat) {total : Nat}
    (hlt : total < target) :
    (ScanFits target total counts → Histogram.quantileIndex (ε := ε) target counts i total =
      .ok ((Slots.reach target total counts).map (i + ·))) ∧
    (¬ ScanFits target total counts →
      Histogram.quantileIndex (ε := ε) target counts i total = panic .overflow) := by
  induction counts generalizing i total with
  | nil => exact ⟨fun _ => rfl, fun h => absurd (fun _ hk => absurd hk (Nat.not_lt_zero _)) h⟩
  | cons c counts ih =>
    rw [scanFits_cons hlt]
    unfold Histogram.quantileIndex Slots.reach
    by_cases h64 : total + c < 2 ^ 64
    · rw [checkU_ok h64, ok_bind]
      by_cases hr : target ≤ total + c
      · rw [if_pos hr, if_pos hr]
        exact ⟨fun _ => rfl, fun h => absurd ⟨h64, fun h' => absurd h' (by omega)⟩ h⟩
      · obtain ⟨h1, h2⟩ := ih (i + 1) (by omega : total + c < target)
        rw [if_neg hr, if_neg hr]
        refine ⟨fun h => ?_, fun h => h2 fun h' => h ⟨h64, fun _ => h'⟩⟩
        rw [h1 (h.2 (by omega)), Option.map_map]
        congr 2
        funext j
        exact Nat.add_right_comm _ _ _
    · refine ⟨fun h => absurd h.1 h64, fun _ => ?_⟩
      rw [checkU, if_neg h64]
      rfl

theorem countAtQuantile_pos (fl : Floats) (q : Rat) (n : Nat) :
    0 < Histogram.countAtQuantile fl q n := by
  have hpos : ∀ count : Nat, 0 < if count = 0 then 1 else count := by
    intro count
    split <;> omega
  exact hpos _

/-- What the scan returns. -/
def quantileValue (fl : Floats) (L : LogLinear) (h : Histogram) (q : Rat) : Nat :=
  match Slots.reach (Histogram.countAtQuantile fl q h.totalCount) 0 h.counts with
  | some i => L.highest i
  | none => 0

/-- **`value_at_quantile`**, while the running total fits. -/
theorem valueAtQuantile_eq (hs : Sized h L) {q : Rat} (hq : q ≠ 0)
    (hfit : ScanFits (Histogram.countAtQuantile fl q h.totalCount) 0 h.counts) :
    h.valueAtQuantile (ε := ε) fl q = .ok (quantileValue fl L h q) := by
  have hpos := countAtQuantile_pos fl q h.totalCount
  unfold Histogram.valueAtQuantile quantileValue
  rw [(quantileIndex_eq h.counts 0 hpos).1 hfit, ok_bind]
  cases hr : Slots.reach (Histogram.countAtQuantile fl q h.totalCount) 0 h.counts with
  | none => rfl
  | some i =>
    have hi := hs.low_lt (Slots.reach_eq_some hpos hr).1
    simp only [Option.map_some, Nat.zero_add]
    rw [valueFor_eq hs.toHasLayout hi, ok_bind, if_neg hq, highestEquivalent_eq hs.toHasLayout hi,
      if_neg (Nat.ne_of_lt (low_lt_u64Max hs.base_le hi)), L.slot_low]

/-- It panics if the running total does not fit. -/
theorem valueAtQuantile_panic {q : Rat}
    (hfit : ¬ ScanFits (Histogram.countAtQuantile fl q h.totalCount) 0 h.counts) :
    h.valueAtQuantile (ε := ε) fl q = panic .overflow := by
  unfold Histogram.valueAtQuantile
  rw [(quantileIndex_eq h.counts 0 (countAtQuantile_pos fl q h.totalCount)).2 hfit]
  rfl

end Chist.Hdr
