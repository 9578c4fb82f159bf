import Chist.Hdr.Gain
import Chist.Hdr.Visit
import Mathlib.Data.List.TakeWhile

/-!
# Correcting a whole histogram

`add_correct` records, for every occupied bin of the source, its count of corrected series from the
highest value of the bin down (`correctedBins`). It gains them all, or stops at the first bin out
of range with those before it already recorded (`addCorrect_outcomes`). `clone_correct` never
stops: the copy has a slot for everything it records. Both read the source through `iter_recorded`
and so lose the samples of a histogram that has none past slot 0.
-/

set_option autoImplicit false

namespace Chist.Hdr

open Res

variable {ε : Type} {fl : Floats} {h g s : Histogram} {ps : List (Nat × Nat)}

/-! ## Empty histograms -/

theorem map_const_zero (counts : List Nat) :
    counts.map (fun _ => 0) = List.replicate counts.length 0 := by
  rw [List.map_const']

/-- A histogram without samples whose statistics are those of a new or a reset one. -/
theorem Shaped.coherent_empty (hs : Shaped fl h)
    (hcounts : h.counts = List.replicate h.counts.length 0) (htotal : h.totalCount = 0)
    (hmax : (h.layout fl).slot h.maxValue = 0) (hlt : h.maxValue < 2 ^ 64)
    (hmin : h.minNonZeroValue = originalMin) : Coherent fl h := by
  have hocc : occ h.counts = ∅ := by
    rw [hcounts]
    exact occ_replicate_zero _
  have hlast : Slots.last h.counts = 0 := by
    have hl := (isGreatest_last h.counts).1
    simpa [hocc] using hl
  refine hs.coherent ?_ ?_ hlt (hmax.trans hlast.symm) ?_
  · intro c hc
    rw [hcounts] at hc
    rw [List.eq_of_mem_replicate hc]
    decide
  · rw [htotal, hcounts, List.sum_replicate]
    simp
  · rw [firstNonzero_eq_none.2 (by rw [hocc]; exact Set.empty_subset _), hmin]
    rfl

/-- **`reset`** leaves a coherent histogram without samples, whatever it held. -/
theorem reset_coherent (hs : Shaped fl h) :
    Coherent fl h.reset ∧ h.reset.counts = List.replicate h.counts.length 0 := by
  have hcounts : h.reset.counts = List.replicate h.counts.length 0 := map_const_zero h.counts
  have hlen : h.reset.counts.length = h.counts.length := by rw [hcounts, List.length_replicate]
  have hshaped : Shaped fl h.reset := hs.stats hlen _ _ _
  have hmax : h.reset.maxValue = 2 ^ (h.layout fl).unit - 1 := by
    simp [Histogram.reset, Histogram.clear, Histogram.resetMax, Histogram.resetMin, originalMax,
      hs.unitMagnitudeMask]
  have hunit : 2 ^ (h.layout fl).unit ≤ 2 ^ 63 := Nat.pow_le_pow_right (by decide)
    (by have hb := hs.base_le; unfold LogLinear.base at hb; omega)
  refine ⟨hshaped.coherent_empty (by rw [hlen]; exact hcounts) rfl ?_ ?_ ?_, hcounts⟩
  · rw [hmax]
    exact (slot_eq_zero_iff hs.base_le).2 (Nat.le_refl _)
  · rw [hmax]
    omega
  · simp [Histogram.reset, Histogram.resetMin, originalMin]

theorem Kept.auto (hk : Kept fl h) (enabled : Bool) : Kept fl (h.auto enabled) := by
  have hh := hk.toHasLayout
  have hl : HasLayout (h.auto enabled) (h.layout fl) :=
    ⟨hh.1, hh.2, hh.3, hh.4, hh.5, hh.6, hh.7, hh.8, hh.9⟩
  have hs : Shaped fl (h.auto enabled) :=
    ⟨⟨hl, hk.bucketCount_pos, hk.bucketCount_le, hk.length⟩, hk.boundsOk, hk.highest_lt,
      hk.bucketCount⟩
  exact ⟨hs, hk.counts_lt, hk.totalCount, hk.maxValue_lt, hk.maxSlot, hk.minNonZeroValue_lt,
    hk.minPos, hk.minBound, hk.minEmpty⟩

theorem Coherent.auto (hc : Coherent fl h) (enabled : Bool) : Coherent fl (h.auto enabled) :=
  ⟨hc.toKept.auto enabled, hc.minSlot⟩

/-- The histogram `new_from` makes of `h`. -/
def emptied (fl : Floats) (h : Histogram) : Histogram :=
  (fresh fl h.lowestDiscernibleValue h.highestTrackableValue h.significantValueDigits).auto
    h.autoResize

/-- **`new_from`** makes an empty histogram of the same configuration. -/
theorem newFrom_emptied (hs : Shaped fl h) :
    Histogram.newFrom (ε := ε) fl h = .ok (emptied fl h) ∧ Coherent fl (emptied fl h) ∧
      (emptied fl h).layout fl = h.layout fl ∧ (emptied fl h).counts.length = h.counts.length := by
  have hlen : (emptied fl h).counts.length = h.counts.length := by
    rw [hs.length, hs.bucketCount]
    exact List.length_replicate
  refine ⟨?_, (fresh_coherent hs.boundsOk hs.highest_lt).auto _, rfl, hlen⟩
  have hresize : Histogram.resizeCounts (fresh fl h.lowestDiscernibleValue h.highestTrackableValue
      h.significantValueDigits).counts h.distinctValues = (emptied fl h).counts := by
    unfold Histogram.distinctValues
    rw [← hlen]
    simp [Histogram.resizeCounts, emptied, Histogram.auto]
  unfold Histogram.newFrom
  rw [newWithBounds_ok hs.boundsOk hs.highest_lt, expect_ok, ok_bind, hresize]
  rfl

/-! ## Bin by bin -/

/-- The samples `add_correct` records for a bin. -/
def correctedBin (interval : Nat) (b : IterationValue) : List (Nat × Nat) :=
  corrected b.valueIteratedTo b.countAtValue interval

def correctedBins (fl : Floats) (s : Histogram) (interval : Nat) : List (Nat × Nat) :=
  (recordedBins fl s).flatMap (correctedBin interval)

/-- `b` is a bin with samples. -/
def Sampled (b : IterationValue) : Prop :=
  b.valueIteratedTo < 2 ^ 64 ∧ 0 < b.countAtValue ∧ b.countAtValue < 2 ^ 64

theorem highest_lt (L : LogLinear) (i : Nat) : L.highest i < 2 ^ 64 := by
  unfold LogLinear.highest u64Max
  omega

theorem sampled_of_mem (hs : Kept fl s) {b : IterationValue} (hb : b ∈ recordedBins fl s) :
    Sampled b ∧ ∃ i < s.counts.length, b = bin fl s i := by
  unfold recordedBins at hb
  split at hb
  · cases hb
  · obtain ⟨i, hi, rfl⟩ := List.mem_map.1 hb
    have hle := hs.getD_le i
    have hlt : s.counts.getD i 0 < 2 ^ 64 := by unfold u64Max at hle; omega
    exact ⟨⟨highest_lt _ i, Nat.pos_of_ne_zero (Slots.mem_occupied.1 hi), hlt⟩, i,
      Slots.lt_length_of_mem hi, rfl⟩

/-- `b` has a slot in `h`, or `h` can grow to have one. -/
def HasRoom (fl : Floats) (h : Histogram) (b : IterationValue) : Prop :=
  h.autoResize = true ∨ (h.layout fl).slot b.valueIteratedTo < h.counts.length

instance (b : IterationValue) : Decidable (HasRoom fl h b) :=
  inferInstanceAs (Decidable (_ ∨ _))

theorem HasRoom.gained {b : IterationValue} (hb : HasRoom fl h b) (hg : Gained fl h ps g) :
    HasRoom fl g b := by
  unfold HasRoom at hb ⊢
  rw [hg.autoResize, hg.layout]
  exact hb.imp_right fun hlt => hlt.trans_le hg.length

theorem foldlM_correct_ok (interval : Nat) {bs : List IterationValue} (hk : Kept fl h)
    (hbs : ∀ b ∈ bs, Sampled b ∧ HasRoom fl h b) :
    ∃ g, bs.foldlM (fun h b => h.recordNCorrect b.valueIteratedTo b.countAtValue interval) h =
      .ok g ∧ Gained fl h (bs.flatMap (correctedBin interval)) g := by
  induction bs generalizing h with
  | nil => exact ⟨h, rfl, .refl hk⟩
  | cons b bs ih =>
    obtain ⟨⟨⟨hv, h0, hc⟩, hroom⟩, hbs⟩ := List.forall_mem_cons.1 hbs
    obtain ⟨g, hg, hgain⟩ := recordNCorrect_gained hk hv h0 hc interval hroom
    obtain ⟨k, hk', hgain'⟩ := ih hgain.kept fun b' hb' =>
      ⟨(hbs b' hb').1, (hbs b' hb').2.gained hgain⟩
    refine ⟨k, ?_, hgain.trans hgain'⟩
    rw [List.foldlM_cons, hg, ok_bind, hk']

theorem exists_first_without_room (bs : List IterationValue) (h : Histogram)
    (hne : ¬ ∀ b ∈ bs, HasRoom fl h b) : ∃ pre b post, bs = pre ++ b :: post ∧
      (∀ b' ∈ pre, HasRoom fl h b') ∧ ¬ HasRoom fl h b := by
  induction bs with
  | nil => exact absurd (by simp) hne
  | cons b bs ih =>
    by_cases hb : HasRoom fl h b
    · obtain ⟨pre, c, post, rfl, hpre, hc⟩ := ih fun hall => hne
        (List.forall_mem_cons.2 ⟨hb, hall⟩)
      exact ⟨b :: pre, c, post, rfl, List.forall_mem_cons.2 ⟨hb, hpre⟩, hc⟩
    · exact ⟨[], b, bs, rfl, by simp, hb⟩

theorem foldlM_expect {ε' σ α : Type} {msg : String} {f : σ → α → Res ε' σ} {l : List α} {a b : σ}
    (hok : l.foldlM f a = .ok b) :
    l.foldlM (fun a x => (Res.expect msg (f a x) : Res ε σ)) a = .ok b := by
  induction l generalizing a with
  | nil =>
    obtain rfl : a = b := by simpa using hok
    rfl
  | cons x l ih =>
    rw [List.foldlM_cons] at hok ⊢
    obtain ⟨c, hc, hok⟩ := bind_eq_ok.1 hok
    rw [hc, expect_ok, ok_bind, ih hok]

/-! ## `add_correct` -/

/-- The bins of `s` before the first that `h` has no room for. -/
def roomyBins (fl : Floats) (h s : Histogram) : List IterationValue :=
  (recordedBins fl s).takeWhile fun b => decide (HasRoom fl h b)

/-- **`add_correct`** either gains the corrected series of every bin, or stops at the first bin out
of range: then the histogram keeps what the bins before it added. It never panics. -/
theorem addCorrect_outcomes (hk : Kept fl h) (hs : Kept fl s) (interval : Nat) :
    (∃ g, h.addCorrect s interval = .ok g ∧ roomyBins fl h s = recordedBins fl s ∧
      Gained fl h (correctedBins fl s interval) g) ∨
    ∃ b post g, recordedBins fl s = roomyBins fl h s ++ b :: post ∧
      h.addCorrect s interval = .error (.err (g, .valueOutOfRangeResizeDisabled)) ∧
      h.autoResize = false ∧ h.counts.length ≤ (h.layout fl).slot b.valueIteratedTo ∧
      Gained fl h ((roomyBins fl h s).flatMap (correctedBin interval)) g := by
  unfold Histogram.addCorrect
  rw [forBins_recorded hs]
  by_cases hroom : ∀ b ∈ recordedBins fl s, HasRoom fl h b
  · obtain ⟨g, hg, hgain⟩ := foldlM_correct_ok interval hk fun b hb =>
      ⟨(sampled_of_mem hs hb).1, hroom b hb⟩
    refine .inl ⟨g, hg, ?_, hgain⟩
    exact List.takeWhile_eq_self_iff.2 fun b hb => decide_eq_true (hroom b hb)
  · obtain ⟨pre, b, post, hsplit, hpre, hb⟩ := exists_first_without_room _ h hroom
    have hsampled : ∀ b' ∈ pre ++ b :: post, Sampled b' := fun b' hb' =>
      (sampled_of_mem hs (hsplit ▸ hb')).1
    obtain ⟨g, hg, hgain⟩ := foldlM_correct_ok interval hk fun b' hb' =>
      ⟨hsampled b' (List.mem_append_left _ hb'), hpre b' hb'⟩
    have hroomy : roomyBins fl h s = pre := by
      rw [roomyBins, hsplit,
        List.takeWhile_append_of_pos fun b' hb' => decide_eq_true (hpre b' hb'),
        List.takeWhile_cons_of_neg (by simpa using hb), List.append_nil]
    unfold HasRoom at hb
    rw [not_or, Bool.not_eq_true, Nat.not_lt] at hb
    refine .inr ⟨b, post, g, hroomy ▸ hsplit, ?_, hb.1, hb.2, hroomy ▸ hgain⟩
    have hb' := hsampled b (List.mem_append_right _ List.mem_cons_self)
    have hrefuse := recordNCorrect_refuses hb'.1 hgain.kept.toShaped
      (hgain.autoResize.trans hb.1) (by rw [hgain.fixed hb.1, hgain.layout]; exact hb.2)
      b.countAtValue interval
    rw [hsplit, List.foldlM_append, hg, ok_bind, List.foldlM_cons, hrefuse, error_bind]

/-- `set_to_corrected` has emptied the histogram when it fails. -/
theorem setToCorrected_outcomes (hk : Kept fl h) (hs : Kept fl s) (interval : Nat) :
    (∃ g, h.setToCorrected s interval = .ok g ∧ roomyBins fl h.reset s = recordedBins fl s ∧
      Gained fl h.reset (correctedBins fl s interval) g) ∨
    ∃ b post g, recordedBins fl s = roomyBins fl h.reset s ++ b :: post ∧
      h.setToCorrected s interval = .error (.err (g, .valueOutOfRangeResizeDisabled)) ∧
      h.autoResize = false ∧ h.counts.length ≤ (h.layout fl).slot b.valueIteratedTo ∧
      Gained fl h.reset ((roomyBins fl h.reset s).flatMap (correctedBin interval)) g := by
  have hreset := reset_coherent hk.toShaped
  have hlen : h.reset.counts.length = h.counts.length := by
    rw [hreset.2, List.length_replicate]
  have houtcomes := addCorrect_outcomes hreset.1.toKept hs interval
  rw [hlen] at houtcomes
  exact houtcomes

theorem setToCorrected_outcomes_sample : ∃ g, sample.setToCorrected sample 4 = .ok g ∧
    Gained .exact sample.reset (correctedBins .exact sample 4) g := by
  rcases setToCorrected_outcomes sample_coherent.toKept sample_coherent.toKept 4 with
    ⟨g, hg, -, hgain⟩ | ⟨b, post, g, hsplit, -, -, hlen, -⟩
  · exact ⟨g, hg, hgain⟩
  · have hall : ∀ b ∈ recordedBins .exact sample,
        (sample.layout .exact).slot b.valueIteratedTo < sample.counts.length := by decide +kernel
    have hb : b ∈ recordedBins .exact sample := by
      rw [hsplit]
      exact List.mem_append_right _ List.mem_cons_self
    exact absurd (hall b hb) (Nat.not_lt.2 hlen)

/-! ## `clone_correct` -/

/-- **`clone_correct`** never fails: the copy has a slot for every sample it records. -/
theorem cloneCorrect_gained (hk : Kept fl h) (interval : Nat) :
    ∃ g, h.cloneCorrect (ε := ε) fl interval = .ok g ∧ Coherent fl g ∧
      Gained fl (emptied fl h) (correctedBins fl h interval) g := by
  obtain ⟨hnew, hc, hL, hlen⟩ := newFrom_emptied (ε := ε) hk.toShaped
  have hroom : ∀ b ∈ recordedBins fl h, Sampled b ∧ HasRoom fl (emptied fl h) b := by
    intro b hb
    obtain ⟨hsampled, i, hi, rfl⟩ := sampled_of_mem hk hb
    refine ⟨hsampled, .inr ?_⟩
    rw [hL, hlen]
    exact (slot_highest hk.base_le (hk.toSized.low_lt hi)).trans_lt hi
  obtain ⟨g, hg, hgain⟩ := foldlM_correct_ok interval hc.toKept hroom
  refine ⟨g, ?_, hgain.coherent hc, hgain⟩
  unfold Histogram.cloneCorrect
  rw [hnew, ok_bind, forBins_recorded hk]
  exact foldlM_expect hg

theorem sum_correctedBins (fl : Floats) (s : Histogram) (interval : Nat) :
    ((correctedBins fl s interval).map Prod.snd).sum =
      ((recordedBins fl s).map fun b =>
        max 1 (b.valueIteratedTo / interval) * b.countAtValue).sum := by
  unfold correctedBins
  induction recordedBins fl s with
  | nil => rfl
  | cons b bs ih =>
    rw [List.flatMap_cons, List.map_append, List.sum_append, ih, List.map_cons, List.sum_cons,
      correctedBin, sum_corrected]

/-- **The corrected total**: a bin counts once for every interval in its highest value, and at
least once. Without samples past slot 0, the copy is empty. -/
theorem cloneCorrect_totalCount (hk : Kept fl h) (interval : Nat) :
    ∃ g, h.cloneCorrect (ε := ε) fl interval = .ok g ∧ g.totalCount =
      min (if Slots.last h.counts = 0 then 0 else ((Slots.occupied h.counts).map fun i =>
        max 1 ((h.layout fl).highest i / interval) * h.counts.getD i 0).sum) u64Max := by
  obtain ⟨g, hg, -, hgain⟩ := cloneCorrect_gained (ε := ε) hk interval
  refine ⟨g, hg, hgain.totalCount.trans ?_⟩
  rw [sum_correctedBins, show (emptied fl h).totalCount = 0 from rfl, satAdd64, Nat.zero_add]
  refine congrArg (min · u64Max) ?_
  unfold recordedBins
  split
  · rfl
  · rw [List.map_map]
    rfl

theorem cloneCorrect_totalCount_sample :
    ∃ g, sample.cloneCorrect (ε := Empty) .exact 4 = .ok g ∧ g.totalCount = 12 := by
  obtain ⟨g, hg, htotal⟩ := cloneCorrect_totalCount (ε := Empty) sample_coherent.toKept 4
  exact ⟨g, hg, htotal.trans (by decide +kernel)⟩

end Chist.Hdr
