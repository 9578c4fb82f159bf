import Chist.Hdr.Combine
import Chist.Hdr.Correct
import Chist.Hdr.Methods
import Chist.Lib.Loop

/-!
# The order of samples

Two `record_n` calls commute, exactly: whichever comes first, the histogram ends up the same in
every field, whether it grows on the way or not, or the pair fails with the same error
(`recordN_comm`). So samples recorded in any order make the same histogram (`recordAll_perm`).
`record_n_correct` is such a series of calls (`recordNCorrect_recordAll`).
-/

set_option autoImplicit false

namespace Chist.Hdr

open Res

variable {fl : Floats} {h : Histogram} {v w c d : Nat}

/-! ## Maximum and minimum -/

/-- Rounded down to a unit, two values are equal or a unit apart. -/
theorem unit_cases (u v w : Nat) : v / 2 ^ u * 2 ^ u = w / 2 ^ u * 2 ^ u ∨
    v / 2 ^ u * 2 ^ u + 2 ^ u ≤ w / 2 ^ u * 2 ^ u ∨
    w / 2 ^ u * 2 ^ u + 2 ^ u ≤ v / 2 ^ u * 2 ^ u := by
  rcases Nat.lt_trichotomy (v / 2 ^ u) (w / 2 ^ u) with hlt | heq | hlt
  · have := Nat.mul_le_mul_right (2 ^ u) (Nat.succ_le_of_lt hlt)
    rw [Nat.succ_mul] at this
    exact .inr (.inl this)
  · exact .inl (by rw [heq])
  · have := Nat.mul_le_mul_right (2 ^ u) (Nat.succ_le_of_lt hlt)
    rw [Nat.succ_mul] at this
    exact .inr (.inr this)

theorem unit_bounds (u v : Nat) :
    v / 2 ^ u * 2 ^ u ≤ v ∧ v < v / 2 ^ u * 2 ^ u + 2 ^ u := by
  have hsplit := Nat.div_add_mod' v (2 ^ u)
  have hlt := Nat.mod_lt v (Nat.two_pow_pos u)
  omega

/-- `recordedMax`, of the maximum so far. -/
def raised (u m v : Nat) : Nat := if m < v then max m (v ||| (2 ^ u - 1)) else m

/-- `recordedMin`, of the minimum so far. -/
def lowered (u m v : Nat) : Nat :=
  if v < m ∧ v ≠ 0 ∧ 2 ^ u - 1 < v then min m (v &&& not64 (2 ^ u - 1)) else m

theorem raised_comm (u m v w : Nat) : raised u (raised u m v) w = raised u (raised u m w) v := by
  have hcases := unit_cases u v w
  obtain ⟨hv, hv'⟩ := unit_bounds u v
  obtain ⟨hw, hw'⟩ := unit_bounds u w
  unfold raised
  rw [or_mask, or_mask]
  generalize v / 2 ^ u * 2 ^ u = a at *
  generalize w / 2 ^ u * 2 ^ u = b at *
  split_ifs <;> omega

theorem lowered_comm {u : Nat} (hu : u ≤ 64) (m : Nat) (hv : v < 2 ^ 64) (hw : w < 2 ^ 64) :
    lowered u (lowered u m v) w = lowered u (lowered u m w) v := by
  have hcases := unit_cases u v w
  obtain ⟨hv0, hv1⟩ := unit_bounds u v
  obtain ⟨hw0, hw1⟩ := unit_bounds u w
  unfold lowered
  rw [and_not64_mask hv hu, and_not64_mask hw hu]
  generalize v / 2 ^ u * 2 ^ u = a at *
  generalize w / 2 ^ u * 2 ^ u = b at *
  split_ifs <;> omega

/-! ## One slot after the other -/

theorem modify_satAdd_comm (counts : List Nat) (i j : Nat) :
    (counts.modify i (satAdd64 · c)).modify j (satAdd64 · d) =
      (counts.modify j (satAdd64 · d)).modify i (satAdd64 · c) := by
  by_cases hij : i = j
  · subst hij
    rw [List.modify_modify_eq, List.modify_modify_eq]
    refine congrArg (counts.modify i) (funext fun x => ?_)
    exact CapSum.add_right_comm x c d
  · rw [List.modify_modify_ne _ _ _ hij]

theorem recorded_comm (hs : Shaped fl h) (hv : v < 2 ^ 64) (hw : w < 2 ^ 64) (i j : Nat) :
    recorded (recorded h i v c) j w d = recorded (recorded h j w d) i v c := by
  have hmask := hs.unitMagnitudeMask
  have hbase := hs.base_le
  have hunit : (h.layout fl).unit ≤ 64 := by unfold LogLinear.base at hbase; omega
  have hmax : recordedMax (recorded h i v c) w = recordedMax (recorded h j w d) v := by
    simp only [recordedMax, recorded, hmask]
    exact raised_comm _ h.maxValue v w
  have hmin : recordedMin (recorded h i v c) w = recordedMin (recorded h j w d) v := by
    simp only [recordedMin, recorded, hmask]
    exact lowered_comm hunit h.minNonZeroValue hv hw
  have htotal : satAdd64 (satAdd64 h.totalCount c) d = satAdd64 (satAdd64 h.totalCount d) c :=
    CapSum.add_right_comm _ c d
  have hcounts := modify_satAdd_comm (c := c) (d := d) h.counts i j
  change { h with
    maxValue := recordedMax (recorded h i v c) w
    minNonZeroValue := recordedMin (recorded h i v c) w
    totalCount := satAdd64 (satAdd64 h.totalCount c) d
    counts := (h.counts.modify i (satAdd64 · c)).modify j (satAdd64 · d) } = _
  rw [hmax, hmin, htotal, hcounts]
  rfl

/-! ## Making room -/

theorem modify_append {xs : List Nat} {i : Nat} (hi : i < xs.length) (ys : List Nat)
    (f : Nat → Nat) : (xs ++ ys).modify i f = xs.modify i f ++ ys := by
  induction xs generalizing i with
  | nil => simp at hi
  | cons x xs ih =>
    cases i with
    | zero => rfl
    | succ i =>
      rw [List.cons_append, List.modify_succ_cons, List.modify_succ_cons, List.cons_append,
        ih (Nat.lt_of_succ_lt_succ hi)]

theorem roomFor_recorded {i : Nat} (hi : i < h.counts.length) :
    roomFor fl (recorded h i v c) w = recorded (roomFor fl h w) i v c := by
  have hL : (recorded h i v c).layout fl = h.layout fl := rfl
  have hlen : (recorded h i v c).counts.length = h.counts.length := List.length_modify _ _ _
  unfold roomFor
  rw [hL, hlen]
  split
  · rfl
  · have hcounts : (h.counts.modify i (satAdd64 · c)) ++ List.replicate
        ((h.layout fl).bins (bucketsFor (h.layout fl) w) - h.counts.length) 0 =
        (h.counts ++ List.replicate
          ((h.layout fl).bins (bucketsFor (h.layout fl) w) - h.counts.length) 0).modify i
            (satAdd64 · c) := by
      rw [modify_append hi]
    unfold grown
    rw [hL, hlen]
    simp only [recorded, hcounts]
    rfl

/-- Room for the greater of two values is room for both. -/
theorem roomFor_roomFor (hvw : v ≤ w) : roomFor fl (roomFor fl h v) w = roomFor fl h w ∧
    roomFor fl (roomFor fl h w) v = roomFor fl h w := by
  have hslot := (h.layout fl).slot_mono hvw
  have hkeep : ∀ {x : Nat}, (h.layout fl).slot x < (roomFor fl h w).counts.length →
      roomFor fl (roomFor fl h w) x = roomFor fl h w := by
    intro x hx
    rw [roomFor, roomFor_layout, if_pos hx]
  refine ⟨?_, hkeep (hslot.trans_lt slot_lt_roomFor)⟩
  by_cases hi : (h.layout fl).slot v < h.counts.length
  · rw [show roomFor fl h v = h from if_pos hi]
  · have hlen := length_le_bins (L := h.layout fl) (Nat.le_of_not_lt hi)
    have hlen' := length_grown hlen (grownHigh fl h v)
    have hw : ¬ (h.layout fl).slot w < h.counts.length := fun hlt => hi (hslot.trans_lt hlt)
    rw [show roomFor fl h v = grown fl h v (grownHigh fl h v) from if_neg hi,
      show roomFor fl h w = grown fl h w (grownHigh fl h w) from if_neg hw, roomFor]
    have hL : (grown fl h v (grownHigh fl h v)).layout fl = h.layout fl := rfl
    rw [hL, hlen']
    split
    · -- `v` and `w` call for the same buckets
      rename_i hlt
      have hsame : bucketsFor (h.layout fl) v = bucketsFor (h.layout fl) w := by
        have hsize := Nat.size_le_size hvw
        have hend := (h.layout fl).slot_lt_iff.1 hlt
        rw [low_bins_bucketsFor, ← Nat.size_le] at hend
        unfold bucketsFor
        omega
      simp only [grown, grownHigh, hsame]
    · have hbins : (h.layout fl).bins (bucketsFor (h.layout fl) v) ≤
          (h.layout fl).bins (bucketsFor (h.layout fl) w) := bins_bucketsFor_mono hvw
      have hcounts : (grown fl h v (grownHigh fl h v)).counts ++ List.replicate
          ((h.layout fl).bins (bucketsFor (h.layout fl) w) -
            (grown fl h v (grownHigh fl h v)).counts.length) 0 =
          (grown fl h w (grownHigh fl h w)).counts := by
        rw [hlen']
        simp only [grown]
        rw [List.append_assoc, List.replicate_append_replicate]
        congr 2
        omega
      rw [grown, hL, hcounts]
      rfl

theorem roomFor_comm (h : Histogram) (v w : Nat) :
    roomFor fl (roomFor fl h v) w = roomFor fl (roomFor fl h w) v := by
  rcases Nat.le_total v w with hle | hle
  · rw [(roomFor_roomFor hle).1, (roomFor_roomFor hle).2]
  · rw [(roomFor_roomFor hle).1, (roomFor_roomFor hle).2]

/-! ## Samples -/

/-- `v` has a slot in `h`, or `h` can grow to have one. -/
def Fits (fl : Floats) (h : Histogram) (v : Nat) : Prop :=
  h.autoResize = true ∨ (h.layout fl).slot v < h.counts.length

instance : Decidable (Fits fl h v) := inferInstanceAs (Decidable (_ ∨ _))

/-- `h` with `count` samples of `value`, for which room is made. -/
def taken (fl : Floats) (h : Histogram) (value count : Nat) : Histogram :=
  recorded (roomFor fl h value) ((h.layout fl).slot value) value count

/-- **`record_n`** refuses a value only for want of a slot. -/
theorem recordN_ite (hs : Shaped fl h) (hv : v < 2 ^ 64) (hc : c < 2 ^ 64) : h.recordN v c =
    if Fits fl h v then .ok (taken fl h v c)
    else .error (.err .valueOutOfRangeResizeDisabled) := by
  by_cases hauto : h.autoResize = true
  · rw [if_pos (.inl hauto), recordN_grows hv hs hauto hc]
    rfl
  · by_cases hi : (h.layout fl).slot v < h.counts.length
    · rw [if_pos (.inr hi), recordN_eq hs.toHasLayout hv hi c, taken, roomFor, if_pos hi]
    · rw [if_neg (show ¬ Fits fl h v from not_or.2 ⟨hauto, hi⟩)]
      exact recordN_refuses hv hs (by simpa using hauto) (Nat.le_of_not_lt hi) c

theorem taken_shaped (hs : Shaped fl h) (hv : v < 2 ^ 64) : Shaped fl (taken fl h v c) :=
  (roomFor_shaped hv hs).stats (List.length_modify _ _ _) _ _ _

theorem taken_layout : (taken fl h v c).layout fl = h.layout fl := roomFor_layout h v

theorem fits_taken (hfit : Fits fl h v) : Fits fl (taken fl h v c) w ↔ Fits fl h w := by
  have hauto : (taken fl h v c).autoResize = h.autoResize := by
    unfold taken roomFor
    split <;> rfl
  unfold Fits
  rw [hauto, taken_layout]
  rcases hfit with hgrows | hi
  · exact iff_of_true (.inl hgrows) (.inl hgrows)
  · have hlen : (taken fl h v c).counts.length = h.counts.length := by
      rw [taken, roomFor, if_pos hi]
      exact List.length_modify _ _ _
    rw [hlen]

theorem taken_comm (hs : Shaped fl h) (hv : v < 2 ^ 64) (hw : w < 2 ^ 64) :
    taken fl (taken fl h v c) w d = taken fl (taken fl h w d) v c := by
  have hroom : ∀ {v w c : Nat}, roomFor fl (taken fl h v c) w =
      recorded (roomFor fl (roomFor fl h v) w) ((h.layout fl).slot v) v c := fun {v w c} =>
    roomFor_recorded slot_lt_roomFor
  have hshaped := roomFor_shaped hw (roomFor_shaped hv hs)
  rw [taken, hroom, taken_layout, recorded_comm hshaped hv hw, roomFor_comm h v w,
    taken.eq_def fl (taken fl h w d), hroom, taken_layout]

/-- **Two samples commute**, whether they are taken or refused. -/
theorem recordN_comm (hs : Shaped fl h) (hv : v < 2 ^ 64) (hw : w < 2 ^ 64) (hc : c < 2 ^ 64)
    (hd : d < 2 ^ 64) : (h.recordN v c >>= fun g => g.recordN w d) =
      h.recordN w d >>= fun g => g.recordN v c := by
  rw [recordN_ite hs hv hc, recordN_ite hs hw hd]
  by_cases hfv : Fits fl h v
  · by_cases hfw : Fits fl h w
    · rw [if_pos hfv, if_pos hfw, ok_bind, ok_bind, recordN_ite (taken_shaped hs hv) hw hd,
        recordN_ite (taken_shaped hs hw) hv hc, if_pos ((fits_taken hfv).2 hfw),
        if_pos ((fits_taken hfw).2 hfv), taken_comm hs hv hw]
    · rw [if_pos hfv, if_neg hfw, ok_bind, error_bind, recordN_ite (taken_shaped hs hv) hw hd,
        if_neg (mt (fits_taken hfv).1 hfw)]
  · by_cases hfw : Fits fl h w
    · rw [if_neg hfv, if_pos hfw, ok_bind, error_bind, recordN_ite (taken_shaped hs hw) hv hc,
        if_neg (mt (fits_taken hfw).1 hfv)]
    · rw [if_neg hfv, if_neg hfw, error_bind, error_bind]

/-- Samples recorded one after the other. -/
def recordAll (h : Histogram) (ps : List (Nat × Nat)) : Res RecordError Histogram :=
  ps.foldlM (fun h p => h.recordN p.1 p.2) h

/-- **The order of samples does not matter**: recorded in another order they make the same
histogram, in every field, or one of them is refused all the same. -/
theorem recordAll_perm (hs : Shaped fl h) {ps qs : List (Nat × Nat)}
    (hps : ∀ p ∈ ps, p.1 < 2 ^ 64 ∧ p.2 < 2 ^ 64) (hperm : ps.Perm qs) :
    recordAll h ps = recordAll h qs := by
  refine Loop.foldlM_perm (I := Shaped fl) ?_ ?_ hperm hs hps
  · intro h g p hs hp hok
    rw [recordN_ite hs hp.1 hp.2] at hok
    split at hok
    · exact Except.ok.inj hok ▸ taken_shaped hs hp.1
    · cases hok
  · intro h p q hs hp hq
    exact recordN_comm hs hp.1 hq.1 hp.2 hq.2

theorem recordAll_perm_sample :
    recordAll sample [(5, 1), (12, 3), (2, 7)] = recordAll sample [(2, 7), (5, 1), (12, 3)] :=
  recordAll_perm sample_coherent.toShaped (by decide) (by decide)

/-! ## Corrected samples -/

theorem recordAll_recordedSeq (hs : Shaped fl h) {ps : List (Nat × Nat)}
    (hps : ∀ p ∈ ps, p.1 < 2 ^ 64 ∧ (h.layout fl).slot p.1 < h.counts.length) :
    recordAll h ps = .ok (recordedSeq (h.layout fl) h ps) := by
  induction ps generalizing h with
  | nil => rfl
  | cons p ps ih =>
    obtain ⟨⟨hv, hi⟩, hps⟩ := List.forall_mem_cons.1 hps
    have hlen : (recorded h ((h.layout fl).slot p.1) p.1 p.2).counts.length = h.counts.length :=
      List.length_modify _ _ _
    have hrest := ih (h := recorded h ((h.layout fl).slot p.1) p.1 p.2) (hs.stats hlen _ _ _)
      (by rw [hlen]; exact hps)
    rw [recordAll, List.foldlM_cons, recordN_eq hs.toHasLayout hv hi, ok_bind]
    exact hrest

/-- **`record_n_correct`** records the corrected series with `record_n`, and nothing else. -/
theorem recordNCorrect_recordAll (hs : Shaped fl h) (hv : v < 2 ^ 64) (hc : c < 2 ^ 64)
    (interval : Nat) : h.recordNCorrect v c interval =
      leaving h (recordAll h (corrected v c interval)) := by
  have hfirst := recordN_ite hs hv hc
  by_cases hfit : Fits fl h v
  · rw [if_pos hfit] at hfirst
    have hslot : (h.layout fl).slot v < (taken fl h v c).counts.length := by
      rw [taken, recorded, List.length_modify]
      exact slot_lt_roomFor
    have hL : (taken fl h v c).layout fl = h.layout fl := taken_layout
    have hrest : ∀ p ∈ (corrected v c interval).tail, p.1 < 2 ^ 64 ∧
        ((taken fl h v c).layout fl).slot p.1 < (taken fl h v c).counts.length := by
      intro p hp
      have hle := (corrected_le (List.mem_of_mem_tail hp)).1
      rw [hL]
      exact ⟨hle.trans_lt hv, ((h.layout fl).slot_mono hle).trans_lt hslot⟩
    have hall := recordAll_recordedSeq (taken_shaped hs hv) hrest
    have hseries : recordAll h (corrected v c interval) =
        .ok (recordedSeq (h.layout fl) (taken fl h v c) (corrected v c interval).tail) := by
      rw [corrected, recordAll, List.foldlM_cons, hfirst, ok_bind, ← hL]
      exact hall
    rw [recordNCorrect_eq hv hs hc interval hfit, hseries]
    rfl
  · obtain ⟨hauto, hi⟩ := not_or.1 hfit
    rw [if_neg hfit] at hfirst
    rw [recordNCorrect_refuses hv hs (by simpa using hauto) (Nat.le_of_not_lt hi), corrected,
      recordAll, List.foldlM_cons, hfirst]
    rfl

theorem recordNCorrect_recordAll_sample : sample.recordNCorrect 13 2 4 =
    leaving sample (recordAll sample (corrected 13 2 4)) :=
  recordNCorrect_recordAll sample_coherent.toShaped (by decide) (by decide) 4

end Chist.Hdr
