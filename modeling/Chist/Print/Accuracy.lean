import Chist.Print.EqualBounds
import Chist.Lib.Rank
import Mathlib.Tactic.Linarith
import Mathlib.Tactic.GCongr
import Mathlib.Data.Rat.Floor

/-!
# Accuracy of a row

A quantile of a row is the highest value of the slot of the true order statistic
(`quantileValue_eq`), and the values of a slot differ by less than its width, which the layout
bounds by the unit or by the precision asked for (`accurate_highest`). `row_accurate` is the
result for a row of `chist print` whose records have equal bounds.
-/

set_option autoImplicit false

namespace Chist

open Res Hdr Rank

variable {fl : Floats} {L : LogLinear}

/-- `v` reports the sample `x`: it is not below it, and above it by less than the unit of `low` or
the part `10 ^ -sigfig` of `x`. -/
def Accurate (low sigfig x v : Nat) : Prop :=
  x ≤ v ∧ (v : Rat) - x < max ((2 : Rat) ^ low.log2) ((x : Rat) / 10 ^ sigfig)

/-- The columns of a row report the samples `S`: the quantiles, the maximum, and their order. -/
structure AccurateRow (low sigfig : Nat) (S : Multiset Nat) (row : Row) : Prop where
  p50 : Accurate low sigfig (nth S ⌈(50 / 100 : Rat) * S.card⌉₊) row.p50
  p95 : Accurate low sigfig (nth S ⌈(95 / 100 : Rat) * S.card⌉₊) row.p95
  p99 : Accurate low sigfig (nth S ⌈(99 / 100 : Rat) * S.card⌉₊) row.p99
  pmax : Accurate low sigfig (nth S S.card) row.pmax
  p50_le : row.p50 ≤ row.p95
  p95_le : row.p95 ≤ row.p99
  p99_le : row.p99 ≤ row.pmax

/-! ## Precision of a slot -/

/-- Half a bucket has enough slots for the significant figures. -/
theorem pow_sigfig_le (fl : Floats) (low : Nat) {sigfig : Nat} (h : sigfig ≤ 5) :
    10 ^ sigfig ≤ 2 ^ (layoutOf fl low sigfig).half := by
  obtain ⟨h1, -, h3⟩ := ceilLog2_sigfig fl h
  have h4 : fl.ceilLog2 (2 * 10 ^ sigfig) = (layoutOf fl low sigfig).half + 1 := by
    simp only [layoutOf]
    omega
  rw [h4, Nat.pow_succ] at h3
  omega

theorem accurate_highest {low high sigfig : Nat} (hb : Hdr.BoundsOk fl low high sigfig)
    (hlow : low < 2 ^ 48) {x : Nat}
    (hx : (layoutOf fl low sigfig).low ((layoutOf fl low sigfig).slot x + 1) < 2 ^ 64) :
    Accurate low sigfig x ((layoutOf fl low sigfig).highest ((layoutOf fl low sigfig).slot x)) := by
  have hunit : (layoutOf fl low sigfig).unit = low.log2 := fl.floorLog2_exact low hb.1 hlow
  have hhalf := pow_sigfig_le fl low hb.2.2.2.1
  generalize layoutOf fl low sigfig = L at hx hunit hhalf ⊢
  have h1 := L.low_slot_le x
  have h2 := L.lt_low_slot_succ x
  have hsucc := L.low_succ (L.slot x)
  have hdiff : L.highest (L.slot x) - x < L.width (L.slot x) := by
    rw [highest_of_lt hx]
    omega
  have hle : x ≤ L.highest (L.slot x) := by
    rw [highest_of_lt hx]
    omega
  refine ⟨hle, ?_⟩
  have hcast : ((L.highest (L.slot x) : Rat) - x) < L.width (L.slot x) := by
    rw [← Nat.cast_sub hle]
    exact_mod_cast hdiff
  refine hcast.trans_le ?_
  by_cases h0 : L.bucket x = 0
  · -- the first bucket: the width is the unit
    rw [L.width_first (by rw [L.slotBucket_slot, h0]), hunit]
    exact le_max_of_le_left (by norm_cast)
  · refine le_max_of_le_right ?_
    rw [le_div_iff₀ (by positivity)]
    have hw := L.width_mul_le h0
    calc (L.width (L.slot x) : Rat) * 10 ^ sigfig
        ≤ L.width (L.slot x) * 2 ^ L.half := by
          gcongr
          exact_mod_cast hhalf
      _ ≤ x := by exact_mod_cast hw

theorem highest_mono (L : LogLinear) {i j : Nat} (h : i ≤ j) : L.highest i ≤ L.highest j := by
  have := L.low_strictMono.monotone (Nat.succ_le_succ h)
  unfold LogLinear.highest u64Max
  simp only [Nat.succ_eq_add_one] at this
  omega

/-! ## The quantiles of a histogram -/

/-- The rank of a quantile of `n` samples. -/
theorem ceil_mul_mem {n : Nat} (hn : 0 < n) {q : Rat} (h0 : 0 < q) (h1 : q ≤ 1) :
    1 ≤ ⌈q * n⌉₊ ∧ ⌈q * n⌉₊ ≤ n := by
  refine ⟨Nat.ceil_pos.2 (by positivity), ?_⟩
  rw [Nat.ceil_le]
  exact mul_le_of_le_one_left (by positivity) h1

/-- **A quantile** is the highest value of the slot of the order statistic. -/
theorem quantileValue_eq {h : Histogram} {S : Multiset Nat} {q : Rat}
    (hceil : fl.ceilMul q S.card = ⌈q * S.card⌉₊) (hc : Counted L.slot S h.counts)
    (htotal : h.totalCount = S.card) (hS : 0 < S.card) (hq0 : 0 < q) (hq1 : q ≤ 1) :
    quantileValue fl L h q = L.highest (L.slot (nth S ⌈q * S.card⌉₊)) := by
  obtain ⟨hpos, hle⟩ := ceil_mul_mem hS hq0 hq1
  have htarget : Histogram.countAtQuantile fl q h.totalCount = ⌈q * S.card⌉₊ := by
    unfold Histogram.countAtQuantile
    simp only []
    rw [if_neg (not_lt.2 hq1), htotal, hceil, if_neg (Nat.ne_of_gt hpos)]
  have hsum := sum_eq_card hc
  unfold quantileValue
  rw [htarget]
  cases hr : Slots.reach ⌈q * S.card⌉₊ 0 h.counts with
  | none =>
    rcases Slots.reach_eq_none hr with h0 | h0
    · rw [h0] at hsum
      simp only [List.sum_nil] at hsum
      omega
    · omega
  | some i =>
    obtain ⟨-, h1, h2⟩ := Slots.reach_eq_some hpos hr
    rw [Nat.zero_add] at h1 h2
    rw [slot_nth L.slot_mono hc h1 h2]

/-! ## The summary of a row -/

/-- `g` summarises the samples `S` in the layout `L`, whose slots end in `u64`. -/
structure Summarises (L : LogLinear) (S : Multiset Nat) (g : Histogram) : Prop extends
    Sized g L where
  ends : L.low g.counts.length < 2 ^ 64
  counted : Counted L.slot S g.counts
  total : g.totalCount = S.card
  maxValue : g.maxValue = L.topValue (Slots.last g.counts)

/-- The merge of records that count the samples `Ss`. -/
theorem mergeSnapshots_summarises {x : HistRecord} {xs : List HistRecord} (hb : x.BoundsOk fl)
    (hw : ∀ y ∈ x :: xs, y.WellSized fl) (hsame : ∀ y ∈ x :: xs, SameBounds x y)
    (hhigh : x.hist.highestTrackableValue.toNat < 2 ^ 63) {Ss : List (Multiset Nat)}
    (hS : List.Forall₂ (fun y S => Counted (x.layout fl).slot S y.countList) (x :: xs) Ss)
    (hlt : Ss.sum.card < 2 ^ 64) {g : Histogram}
    (hg : mergeSnapshots fl ((x :: xs).map (·.loaded fl)) = .ok g) :
    Summarises (x.layout fl) Ss.sum g := by
  have hS' : List.Forall₂ (fun c S => Counted (x.layout fl).slot S c)
      ((x :: xs).map (·.countList)) Ss := List.forall₂_map_left_iff.2 hS
  have hcard : ((x :: xs).map (·.samples)).sum = Ss.sum.card := by
    rw [← sum_sum_eq_card hS', List.map_map]
    rfl
  obtain ⟨hmerge, hsum⟩ := mergeSnapshots_below hb hw hsame hhigh
  rw [hmerge] at hg
  obtain rfl := Except.ok.inj hg
  refine ⟨hsum.toSized, ?_, fun i => ?_, ?_, maxValue_merge hb hw hsame⟩
  · have hlen : (mergedSlots (x.bins fl) (x :: xs)).length = x.bins fl := by simp [mergedSlots]
    rw [counts_merge hb hw hsame, hlen]
    exact (low_bins_lt_iff hsum.base_le x.hist.highestTrackableValue.toNat_lt).2 hhigh
  · have hsumi : ((x :: xs).map (·.countList.getD i 0)).sum =
        Ss.sum.countP ((x.layout fl).slot · = i) := by
      rw [← sum_getD hS' i, List.map_map]
      rfl
    have hle := Multiset.countP_le_card ((x.layout fl).slot · = i) Ss.sum
    rw [getD_foldl_merged (fresh_counts x) (fun s hs => (loadedAll_same hb hw hsame s hs).2) i,
      List.map_map]
    refine (congrArg (min · u64Max) hsumi).trans (min_eq_left ?_)
    unfold u64Max
    omega
  · rw [totalCount_merge, mergedTotal, hcard]
    unfold u64Max
    omega

section
variable {S : Multiset Nat} {g : Histogram} (h : Summarises L S g)
include h

theorem Summarises.low_nth_lt {k : Nat} (h1 : 1 ≤ k) (h2 : k ≤ S.card) :
    L.low (L.slot (nth S k) + 1) < 2 ^ 64 := by
  have hlt := lt_length h.counted (nth_mem h1 h2)
  exact (L.low_strictMono.monotone (Nat.succ_le_of_lt hlt)).trans_lt h.ends

theorem Summarises.quantile (hpos : 0 < S.card) (hlt : S.card < 2 ^ 64) {q : Rat}
    (hceil : fl.ceilMul q S.card = ⌈q * S.card⌉₊) (h0 : 0 < q) (h1 : q ≤ 1) {v : Nat}
    (hv : g.valueAtQuantile (ε := ChistError) fl q = .ok v) :
    v = L.highest (L.slot (nth S ⌈q * S.card⌉₊)) := by
  have hfit : ScanFits (Histogram.countAtQuantile fl q g.totalCount) 0 g.counts :=
    scanFits_of_sum (by rw [sum_eq_card h.counted]; omega)
  rw [valueAtQuantile_eq h.toSized (ne_of_gt h0) hfit, Except.ok.injEq] at hv
  rw [← hv, quantileValue_eq hceil h.counted h.total hpos h0 h1]

theorem Summarises.max_eq (hpos : 0 < S.card) {v : Nat}
    (hv : g.max (ε := ChistError) = .ok v) : v = L.highest (L.slot (nth S S.card)) := by
  have hlast := Slots.last_lt_length h.length_pos
  have hsucc : L.low (Slots.last g.counts + 1) < 2 ^ 64 :=
    (L.low_strictMono.monotone (Nat.succ_le_of_lt hlast)).trans_lt h.ends
  rw [Hdr.max_eq h.toHasLayout (h.toSized.low_lt hlast) h.maxValue, Except.ok.injEq] at hv
  rw [← hv, slot_nth_card L.slot_mono h.counted hpos, topValue_of_lt hsucc, highest_of_lt hsucc]

end

theorem Summarises.accurate {low high sigfig : Nat} {S : Multiset Nat} {row : Row}
    (h : Summarises (layoutOf fl low sigfig) S row.summary)
    (hceil : ∀ q ∈ [(50 / 100 : Rat), 95 / 100, 99 / 100], fl.ceilMul q S.card = ⌈q * S.card⌉₊)
    (hb : Hdr.BoundsOk fl low high sigfig) (hlow : low < 2 ^ 48) (hpos : 0 < S.card)
    (hlt : S.card < 2 ^ 64)
    (h50 : row.summary.valueAtQuantile (ε := ChistError) fl (50 / 100) = .ok row.p50)
    (h95 : row.summary.valueAtQuantile (ε := ChistError) fl (95 / 100) = .ok row.p95)
    (h99 : row.summary.valueAtQuantile (ε := ChistError) fl (99 / 100) = .ok row.p99)
    (hmax : row.summary.max (ε := ChistError) = .ok row.pmax) :
    AccurateRow low sigfig S row := by
  have hacc : ∀ {k : Nat}, 1 ≤ k → k ≤ S.card → Accurate low sigfig (nth S k)
      ((layoutOf fl low sigfig).highest ((layoutOf fl low sigfig).slot (nth S k))) :=
    fun h1 h2 => accurate_highest hb hlow (h.low_nth_lt h1 h2)
  have hmono : ∀ {j k : Nat}, 1 ≤ j → j ≤ k → k ≤ S.card →
      (layoutOf fl low sigfig).highest ((layoutOf fl low sigfig).slot (nth S j)) ≤
        (layoutOf fl low sigfig).highest ((layoutOf fl low sigfig).slot (nth S k)) :=
    fun h1 h2 h3 => highest_mono _ ((layoutOf fl low sigfig).slot_mono (nth_mono h1 h2 h3))
  have hceilmono : ∀ {p q : Rat}, p ≤ q → ⌈p * S.card⌉₊ ≤ ⌈q * S.card⌉₊ := fun hpq =>
    Nat.ceil_le_ceil (by gcongr)
  obtain ⟨a1, a2⟩ := ceil_mul_mem hpos (q := 50 / 100) (by norm_num) (by norm_num)
  obtain ⟨b1, b2⟩ := ceil_mul_mem hpos (q := 95 / 100) (by norm_num) (by norm_num)
  obtain ⟨c1, c2⟩ := ceil_mul_mem hpos (q := 99 / 100) (by norm_num) (by norm_num)
  have v50 := h.quantile hpos hlt (hceil _ (by simp)) (by norm_num) (by norm_num) h50
  have v95 := h.quantile hpos hlt (hceil _ (by simp)) (by norm_num) (by norm_num) h95
  have v99 := h.quantile hpos hlt (hceil _ (by simp)) (by norm_num) (by norm_num) h99
  have vmax := h.max_eq hpos hmax
  refine ⟨?_, ?_, ?_, ?_, ?_, ?_, ?_⟩
  · exact v50 ▸ hacc a1 a2
  · exact v95 ▸ hacc b1 b2
  · exact v99 ▸ hacc c1 c2
  · exact vmax ▸ hacc hpos (Nat.le_refl _)
  · rw [v50, v95]
    exact hmono a1 (hceilmono (by norm_num)) b2
  · rw [v95, v99]
    exact hmono b1 (hceilmono (by norm_num)) c2
  · rw [v99, vmax]
    exact hmono c1 c2 (Nat.le_refl _)

/-! ## The row -/

/-- **A printed row is accurate**: if its records have the same bounds, within the range the
floating-point logarithm rounds as the exact one and below `2 ^ 63`, and count the samples `Ss`
by the slots of their layout, and if the ranks of the three quantiles of that many samples are
computed exactly, then the quantiles and the maximum report those of all samples. -/
theorem row_accurate (fl : Floats) (files : List HistFile) {row : Row}
    (hrow : row ∈ (print fl files).1) {low high : UInt64} {sigfig : UInt8}
    (hbounds : ∀ x ∈ row.merged, x.hist.lowestTrackableValue = low ∧
      x.hist.highestTrackableValue = high ∧ x.hist.significantFigures = sigfig)
    (hlow : low.toNat < 2 ^ 48) (hhigh : high.toNat < 2 ^ 63)
    (hw : ∀ x ∈ row.merged, x.WellSized fl) {Ss : List (Multiset Nat)}
    (hS : List.Forall₂
      (fun x S => Counted (layoutOf fl low.toNat sigfig.toNat).slot S x.countList) row.merged Ss)
    (hpos : 0 < Ss.sum.card) (hlt : Ss.sum.card < 2 ^ 64)
    (hceil : ∀ q ∈ [(50 / 100 : Rat), 95 / 100, 99 / 100],
      fl.ceilMul q Ss.sum.card = ⌈q * Ss.sum.card⌉₊) :
    AccurateRow low.toNat sigfig.toNat Ss.sum row := by
  obtain ⟨i, hi⟩ := List.mem_iff_getElem?.1 hrow
  obtain ⟨a, next, hat⟩ := (printed fl files).rowAt i row hi
  have hmade := makeRow_eq_ok hat.made
  have hb := hmade.boundsOk hw
  have hmerges := hmade.merges_loaded hw
  obtain ⟨x, xs, hxs⟩ : ∃ x xs, row.merged = x :: xs := by
    cases hm : row.merged with
    | nil =>
      rw [hm] at hS
      cases hS
      simp at hpos
    | cons x xs => exact ⟨x, xs, rfl⟩
  rw [hxs] at hbounds hw hS hb hmerges
  obtain ⟨rfl, rfl, rfl⟩ := hbounds x List.mem_cons_self
  have hbx := hb x List.mem_cons_self
  have hsum := mergeSnapshots_summarises hbx hw hbounds hhigh hS hlt hmerges
  exact Summarises.accurate hsum hceil hbx hlow hpos hlt hmade.p50_eq hmade.p95_eq hmade.p99_eq
    hmade.pmax_eq

/-- The operations of 1 ns that the first row of `sampleFiles` merges. -/
theorem row_accurate_sample :
    ∃ row ∈ (print .exact sampleFiles).1, AccurateRow 1 0 (({1} : Multiset Nat) + {1}) row := by
  obtain ⟨row, hrow, hmerged⟩ : ∃ row ∈ (print .exact sampleFiles).1,
      row.merged = [sampleRecord "read" 0, sampleRecord "read" 1] := by decide +kernel
  have hslot : (layoutOf .exact 1 0).slot 1 = 1 := by decide +kernel
  have hcount : Counted (layoutOf .exact 1 0).slot {1} [0, 1, 0] := by
    intro i
    rw [← Multiset.cons_zero, Multiset.countP_cons, Multiset.countP_zero, hslot]
    rcases i with _ | _ | _ | i <;> simp
  have hbounds : ∀ x ∈ row.merged, x.hist.lowestTrackableValue = 1 ∧
      x.hist.highestTrackableValue = 2 ∧ x.hist.significantFigures = 0 := by
    rw [hmerged]
    decide +kernel
  have hw : ∀ x ∈ row.merged, x.WellSized .exact := by
    rw [hmerged]
    decide +kernel
  have hS : List.Forall₂ (fun x S => Counted (layoutOf .exact 1 0).slot S x.countList) row.merged
      [{1}, {1}] := by
    rw [hmerged]
    exact .cons hcount (.cons hcount .nil)
  refine ⟨row, hrow, ?_⟩
  have h := row_accurate .exact sampleFiles hrow hbounds (by decide) (by decide) hw hS (by decide)
    (by decide) fun _ _ => rfl
  simpa using h

end Chist
