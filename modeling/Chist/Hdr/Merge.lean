import Chist.Hdr.Quantile

/-!
# Merging histograms

`add` folded over a list, into the empty histogram of `new_from`. Loaded histograms of any mix of
configurations are merged without loss while the total fits, or rejected (`foldlM_add`). If all
have the same slots the result is a fold of `merged`, whose order does not matter
(`foldlM_add_same`), and they are rejected exactly when one has its maximum past the last slot.
-/

set_option autoImplicit false

namespace Chist.Hdr

open Res

variable {ε : Type} {fl : Floats} {h s : Histogram} {L : LogLinear}

/-! ## The empty histogram -/

/-- `new_from` of a loaded histogram is the fresh one of the same bounds. -/
theorem newFrom_loaded {snap : HistogramSnapshot} (hb : snap.BoundsOk fl)
    (hlen : snap.counts.length = snap.binsNeeded fl) :
    Histogram.newFrom (ε := ε) fl (snap.loaded fl) =
      .ok (fresh fl snap.lowestTrackableValue.toNat snap.highestTrackableValue.toNat
        snap.significantFigures.toNat) := by
  have hnew : Histogram.newWithBounds fl (snap.loaded fl).lowestDiscernibleValue
      (snap.loaded fl).highestTrackableValue (snap.loaded fl).significantValueDigits = .ok _ :=
    newWithBounds_ok hb snap.highestTrackableValue.toNat_lt
  have hcounts : (snap.loaded fl).distinctValues = snap.binsNeeded fl :=
    (List.length_map _).trans hlen
  unfold Histogram.newFrom
  rw [hnew, expect_ok, ok_bind, hcounts]
  unfold fresh
  simp only [pure_eq_ok, Except.ok.injEq]
  exact congrArg _ (resizeCounts_replicate _ _)

theorem fresh_summary {low high sigfig : Nat} (hb : BoundsOk fl low high sigfig)
    (hhigh : high < 2 ^ 64) : Summary (fresh fl low high sigfig) (layoutOf fl low sigfig) where
  toSized := fresh_sized hb hhigh
  autoResize := rfl
  maxValue_lt := (by decide : originalMax < 2 ^ 64)
  minNonZeroValue_lt := (by decide : originalMin < 2 ^ 64)
  counts_lt := by
    intro c hc
    rw [List.eq_of_mem_replicate hc]
    decide

theorem fresh_tallied {low high sigfig : Nat} : Tallied (fresh fl low high sigfig) 0 :=
  ⟨(List.sum_replicate _ _).trans (Nat.mul_zero _), rfl⟩

/-! ## Any configurations -/

def countsTotal (ss : List Histogram) : Nat := (ss.map fun s => s.counts.sum).sum

/-- **Merging loses nothing**: a fold of `add` rejects one of the histograms or returns one with
the samples of all. -/
theorem foldlM_add (hs : Summary h L) {ss : List Histogram} (hl : ∀ s ∈ ss, ∃ M, Loaded s M) :
    ss.foldlM Histogram.add h = .error (.err .otherAddendValueExceedsRange) ∨
      ∃ g, ss.foldlM Histogram.add h = .ok g ∧ Summary g L ∧ ∀ n, Tallied h n →
        n + countsTotal ss < 2 ^ 64 → Tallied g (n + countsTotal ss) := by
  induction ss generalizing h with
  | nil => exact .inr ⟨h, rfl, hs, fun n hn _ => hn⟩
  | cons s ss ih =>
    obtain ⟨⟨M, hsM⟩, hl⟩ := List.forall_mem_cons.1 hl
    rw [List.foldlM_cons]
    rcases add_spec hs hsM with he | ⟨g, hg, hgs, hgt⟩
    · exact .inl (by rw [he]; rfl)
    rw [hg, ok_bind]
    rcases ih hgs hl with he | ⟨k, hk, hks, hkt⟩
    · exact .inl he
    refine .inr ⟨k, hk, hks, fun n hn hfit => ?_⟩
    rw [countsTotal, List.map_cons, List.sum_cons, ← Nat.add_assoc] at hfit ⊢
    exact hkt _ (hgt n hn (by omega)) hfit

/-! ## Equal slots -/

/-- A summary whose kept maximum and minimum are those it reports. -/
structure Canon (h : Histogram) (L : LogLinear) : Prop extends Summary h L where
  maxOf_eq : maxOf L h.maxValue = h.maxValue
  minOf_eq : minOf L h.minNonZeroValue = h.minNonZeroValue

/-- `h` and `s` merged slot by slot. -/
def merged (h s : Histogram) : Histogram :=
  { h with
    maxValue := max h.maxValue s.maxValue
    minNonZeroValue := min h.minNonZeroValue s.minNonZeroValue
    totalCount := satAdd64 h.totalCount s.totalCount
    counts := List.zipWith satAdd64 h.counts s.counts }

theorem Canon.max (hc : Canon h L) : h.max (ε := ε) = .ok h.maxValue := by
  rw [max_of_lt hc.toHasLayout hc.maxValue_lt, hc.maxOf_eq]

theorem Canon.minNz (hc : Canon h L) : h.minNz (ε := ε) = .ok h.minNonZeroValue := by
  rw [minNz_of_lt hc.toHasLayout hc.minNonZeroValue_lt, hc.minOf_eq]

theorem Loaded.canon (hl : Loaded s L) : Canon s L where
  toSummary := hl.summary
  maxOf_eq := by
    have h1 := max_of_lt (ε := Empty) hl.toHasLayout hl.summary.maxValue_lt
    rw [hl.max, ← hl.maxValue] at h1
    exact (Except.ok.inj h1).symm
  minOf_eq := by
    have h1 := minNz_of_lt (ε := Empty) hl.toHasLayout hl.summary.minNonZeroValue_lt
    rw [hl.minNz, ← hl.minNonZeroValue] at h1
    exact (Except.ok.inj h1).symm

theorem fresh_canon {low high sigfig : Nat} (hb : BoundsOk fl low high sigfig)
    (hhigh : high < 2 ^ 64) : Canon (fresh fl low high sigfig) (layoutOf fl low sigfig) :=
  ⟨fresh_summary hb hhigh, rfl, rfl⟩

theorem addedDirect_eq_merged (hc : Canon h L) : addedDirect h s L = merged h s := by
  have hmax : addedMax h s L = max h.maxValue s.maxValue := by
    unfold addedMax
    rw [hc.maxOf_eq]
    split <;> omega
  have hmin : addedMin h s L = min h.minNonZeroValue s.minNonZeroValue := by
    unfold addedMin
    rw [hc.minOf_eq]
    split <;> omega
  unfold addedDirect merged
  rw [hmax, hmin]

theorem merged_canon (hc : Canon h L) (hl : Loaded s L)
    (hlen : h.counts.length = s.counts.length) : Canon (merged h s) L where
  toSummary := by
    rw [← addedDirect_eq_merged hc]
    exact addedDirect_summary hc.toSummary hl hlen
  maxOf_eq := by
    change maxOf L (max h.maxValue s.maxValue) = max h.maxValue s.maxValue
    rcases max_choice h.maxValue s.maxValue with h | h
    · rw [h, hc.maxOf_eq]
    · rw [h, hl.canon.maxOf_eq]
  minOf_eq := by
    change minOf L (min h.minNonZeroValue s.minNonZeroValue) =
      min h.minNonZeroValue s.minNonZeroValue
    rcases min_choice h.minNonZeroValue s.minNonZeroValue with h | h
    · rw [h, hc.minOf_eq]
    · rw [h, hl.canon.minOf_eq]

theorem foldl_merged_canon (hc : Canon h L) {ss : List Histogram}
    (hl : ∀ s ∈ ss, Loaded s L ∧ s.counts.length = h.counts.length) :
    Canon (ss.foldl merged h) L := by
  induction ss generalizing h with
  | nil => exact hc
  | cons s ss ih =>
    obtain ⟨⟨hsL, hlen⟩, hl⟩ := List.forall_mem_cons.1 hl
    have hlen' : (merged h s).counts.length = h.counts.length := by simp [merged, hlen]
    rw [List.foldl_cons]
    exact ih (merged_canon hc hsL hlen.symm) (by rwa [hlen'])

theorem add_same (hc : Canon h L) (hl : Loaded s L) (hlen : h.counts.length = s.counts.length) :
    h.add s = if s.maxValue ≤ L.highest (h.counts.length - 1) then .ok (merged h s)
      else .error (.err .otherAddendValueExceedsRange) := by
  have hsame := (sameConfig_iff hc.toSized hl.toSized).2 ⟨rfl, hlen⟩
  unfold Histogram.add
  rw [makeRoom_eq hc.toSummary hl, ← hl.maxValue]
  split
  · rw [ok_bind, if_pos hsame, addDirect_eq hc.toSummary hl hlen, addedDirect_eq_merged hc]
  · rfl

/-- **Merging equal slots** is a fold of `merged`, unless one of the maxima is past the last. -/
theorem foldlM_add_same (hc : Canon h L) {ss : List Histogram}
    (hl : ∀ s ∈ ss, Loaded s L ∧ s.counts.length = h.counts.length) :
    ss.foldlM Histogram.add h =
      if ∀ s ∈ ss, s.maxValue ≤ L.highest (h.counts.length - 1) then .ok (ss.foldl merged h)
      else .error (.err .otherAddendValueExceedsRange) := by
  induction ss generalizing h with
  | nil => rw [if_pos (by simp)]; rfl
  | cons s ss ih =>
    obtain ⟨⟨hsL, hlen⟩, hl⟩ := List.forall_mem_cons.1 hl
    rw [List.foldlM_cons, add_same hc hsL hlen.symm]
    by_cases hfit : s.maxValue ≤ L.highest (h.counts.length - 1)
    · have hlen' : (merged h s).counts.length = h.counts.length := by simp [merged, hlen]
      rw [if_pos hfit, ok_bind, ih (merged_canon hc hsL hlen.symm) (by rwa [hlen']), hlen']
      simp only [List.forall_mem_cons, hfit, true_and, List.foldl_cons]
    · rw [if_neg hfit, if_neg fun h => hfit (h s List.mem_cons_self)]
      rfl

theorem zipWith_right_comm (as bs cs : List Nat) :
    List.zipWith satAdd64 (List.zipWith satAdd64 as bs) cs =
      List.zipWith satAdd64 (List.zipWith satAdd64 as cs) bs := by
  induction as generalizing bs cs with
  | nil => simp
  | cons a as ih =>
    cases bs with
    | nil => cases cs <;> rfl
    | cons b bs =>
      cases cs with
      | nil => rfl
      | cons c cs =>
        simp only [List.zipWith_cons_cons, ih bs cs]
        rw [satAdd64_eq, CapSum.add_right_comm]

/-- The order of merging does not matter. -/
instance : RightCommutative merged := ⟨fun h a b => by
  unfold merged
  simp only [Histogram.mk.injEq, true_and]
  refine ⟨max_right_comm _ _ _, min_right_comm _ _ _, ?_, zipWith_right_comm _ _ _⟩
  rw [satAdd64_eq, CapSum.add_right_comm]⟩

end Chist.Hdr
