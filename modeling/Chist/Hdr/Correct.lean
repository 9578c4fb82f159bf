import Chist.Hdr.Grow

/-!
# Recording with a correction for coordinated omission

`record_n_correct` records `value` and, below it, the values an interval apart down to the
interval itself (`corrected`). Only the first can be out of range: once it has its slot, so have
the others.
-/

set_option autoImplicit false

namespace Chist.Hdr

open Res

variable {ε : Type} {fl : Floats} {h : Histogram} {L : LogLinear}

/-- The samples `record_n_correct` records, in order. -/
def corrected (value count interval : Nat) : List (Nat × Nat) :=
  (value, count) ::
    (List.range (value / interval - 1)).map fun k => (value - (k + 1) * interval, count)

theorem corrected_le {v c interval : Nat} {p : Nat × Nat} (hp : p ∈ corrected v c interval) :
    p.1 ≤ v ∧ p.2 = c := by
  rcases List.mem_cons.1 hp with rfl | hp
  · exact ⟨Nat.le_refl _, rfl⟩
  · obtain ⟨k, -, rfl⟩ := List.mem_map.1 hp
    exact ⟨Nat.sub_le _ _, rfl⟩

/-- The samples counted: one for every interval in the value, at least one. -/
theorem length_corrected (v c interval : Nat) :
    (corrected v c interval).length = max 1 (v / interval) := by
  simp only [corrected, List.length_cons, List.length_map, List.length_range]
  omega

theorem sum_corrected (v c interval : Nat) :
    ((corrected v c interval).map Prod.snd).sum = max 1 (v / interval) * c := by
  have hrep : (corrected v c interval).map Prod.snd =
      List.replicate (max 1 (v / interval)) c := by
    rw [List.eq_replicate_iff, List.length_map, length_corrected]
    refine ⟨rfl, fun x hx => ?_⟩
    obtain ⟨p, hp, rfl⟩ := List.mem_map.1 hx
    exact (corrected_le hp).2
  rw [hrep, List.sum_replicate, Nat.nsmul_eq_mul]

theorem missing_cons {w interval : Nat} (c : Nat) (h0 : 0 < interval) (hle : interval ≤ w) :
    (List.range (w / interval)).map (fun k => (w - k * interval, c)) =
      (w, c) :: (List.range ((w - interval) / interval)).map
        fun k => (w - interval - k * interval, c) := by
  rw [Nat.div_eq_sub_div h0 hle, List.range_succ_eq_map, List.map_cons, Nat.zero_mul, Nat.sub_zero,
    List.map_map]
  refine congrArg _ (List.map_congr_left fun k _ => ?_)
  simp only [Function.comp_apply, Nat.succ_eq_add_one, Nat.add_mul, Nat.one_mul, Nat.sub_sub,
    Nat.add_comm]

theorem missingLoop_eq {c interval : Nat} (h0 : 0 < interval) {fuel w : Nat} (hfuel : w ≤ fuel)
    (hh : HasLayout h L) (hw : w < 2 ^ 64) (hslot : L.slot w < h.counts.length) :
    Histogram.missingLoop c interval fuel w h =
      .ok (recordedSeq L h ((List.range (w / interval)).map fun k => (w - k * interval, c))) := by
  induction fuel generalizing w h with
  | zero =>
    obtain rfl := Nat.le_zero.1 hfuel
    rw [Nat.zero_div]
    rfl
  | succ fuel ih =>
    unfold Histogram.missingLoop
    by_cases hle : interval ≤ w
    · have hsub : w - interval ≤ w := Nat.sub_le _ _
      have hslot' : L.slot (w - interval) < (recorded h (L.slot w) w c).counts.length :=
        (L.slot_mono hsub).trans_lt (hslot.trans_eq (List.length_modify _ _ _).symm)
      have hL : HasLayout (recorded h (L.slot w) w c) L := hh.stats _ _ _ _
      rw [if_pos hle, show h.recordNInner w c false = h.recordN w c from rfl,
        recordN_eq hh hw hslot, leaving, mapErr_ok, ok_bind, subU_ok hle, ok_bind,
        ih (by omega) hL (by omega) hslot', missing_cons c h0 hle]
      rfl
    · rw [if_neg hle, Nat.div_eq_of_lt (Nat.not_le.1 hle)]
      rfl

section
variable {v : Nat} (hv : v < 2 ^ 64)
include hv

/-- **`record_n_correct`** records the corrected series, growing first if it has to: whatever
number of samples that makes, none is dropped. -/
theorem recordNCorrect_eq (hs : Shaped fl h) {c : Nat} (hc : c < 2 ^ 64) (interval : Nat)
    (hroom : h.autoResize = true ∨ (h.layout fl).slot v < h.counts.length) :
    h.recordNCorrect v c interval =
      .ok (recordedSeq (h.layout fl) (roomFor fl h v) (corrected v c interval)) := by
  have hfirst : h.recordN v c = .ok (recorded (roomFor fl h v) ((h.layout fl).slot v) v c) := by
    rcases hroom with hauto | hi
    · exact recordN_grows hv hs hauto hc
    · rw [roomFor, if_pos hi, recordN_eq hs.toHasLayout hv hi]
  have hL : HasLayout (roomFor fl h v) (h.layout fl) := by
    rw [← roomFor_layout h v]
    exact (roomFor_shaped hv hs).toHasLayout
  unfold Histogram.recordNCorrect
  rw [hfirst, leaving, mapErr_ok, ok_bind]
  by_cases h0 : interval = 0
  · subst h0
    rw [if_pos rfl, corrected, Nat.div_zero]
    rfl
  · rw [if_neg h0]
    by_cases hlt : interval < v
    · have hsub : v - interval ≤ v := Nat.sub_le _ _
      have hslot : (h.layout fl).slot (v - interval) <
          (recorded (roomFor fl h v) ((h.layout fl).slot v) v c).counts.length :=
        (LogLinear.slot_mono _ hsub).trans_lt
          (slot_lt_roomFor.trans_eq (List.length_modify _ _ _).symm)
      have hnum : v / interval - 1 = (v - interval) / interval := by
        rw [Nat.div_eq_sub_div (Nat.pos_of_ne_zero h0) (Nat.le_of_lt hlt), Nat.add_sub_cancel]
      have hL' : HasLayout (recorded (roomFor fl h v) ((h.layout fl).slot v) v c)
          (h.layout fl) := hL.stats _ _ _ _
      rw [if_pos hlt, subU_ok (Nat.le_of_lt hlt), ok_bind,
        missingLoop_eq (Nat.pos_of_ne_zero h0) (Nat.le_refl _) hL' (by omega) hslot,
        corrected, hnum]
      simp only [Nat.add_mul, Nat.one_mul, Nat.sub_sub, Nat.add_comm]
      rfl
    · have hnum : v / interval - 1 = 0 := by
        have hle : v / interval ≤ 1 := by
          rw [Nat.div_le_iff_le_mul_add_pred (Nat.pos_of_ne_zero h0)]
          omega
        omega
      rw [if_neg hlt, corrected, hnum]
      rfl

/-- A value out of range leaves the histogram as it was. -/
theorem recordNCorrect_refuses (hs : Shaped fl h) (hauto : h.autoResize = false)
    (hi : h.counts.length ≤ (h.layout fl).slot v) (c interval : Nat) :
    h.recordNCorrect v c interval = .error (.err (h, .valueOutOfRangeResizeDisabled)) := by
  unfold Histogram.recordNCorrect
  rw [recordN_refuses hv hs hauto hi]
  rfl

theorem recordedSeq_corrected {c : Nat} (hk : Kept fl h) (hc : 0 < c)
    (hslot : (h.layout fl).slot v < h.counts.length) (interval : Nat) :
    Taken fl h (corrected v c interval)
      (recordedSeq (h.layout fl) h (corrected v c interval)) :=
  recordedSeq_taken hk fun p hp => by
    obtain ⟨hle, hpc⟩ := corrected_le hp
    exact ⟨hle.trans_lt hv, (LogLinear.slot_mono _ hle).trans_lt hslot, hpc ▸ hc⟩

end

end Chist.Hdr
