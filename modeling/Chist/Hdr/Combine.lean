import Chist.Hdr.Grow

/-!
# Adding histograms that were recorded, added or restated

`add` on any two histograms that are kept: it refuses the addend for its maximum, or grows for it
(`makeRoom_spec`), and then joins slot by slot (`addDirect_joined`) or records value by value
(`addByValue_recordAll`). Either way the result is kept, coherent if both operands are, and the
totals add up.
-/

set_option autoImplicit false

namespace Chist.Hdr

open Res

variable {ε : Type} {fl : Floats} {h s : Histogram} {L : LogLinear}

/-! ## Making room -/

theorem bins_bucketsFor_mono {v w : Nat} (hvw : v ≤ w) :
    L.bins (bucketsFor L v) ≤ L.bins (bucketsFor L w) := by
  have hsize := Nat.size_le_size hvw
  unfold LogLinear.bins bucketsFor
  exact Nat.mul_le_mul_right _ (by omega)

/-- The value `add` makes room for: the maximum of the other histogram. -/
def addendMax (fl : Floats) (s : Histogram) : Nat := maxOf (s.layout fl) s.maxValue

/-- The highest value of the last slot. -/
def topOf (fl : Floats) (h : Histogram) : Nat := (h.layout fl).highest (h.counts.length - 1)

/-- `h` as `add` makes room for `s`. -/
def madeRoom (fl : Floats) (h s : Histogram) : Histogram :=
  if addendMax fl s ≤ topOf fl h then h else grown fl h (addendMax fl s) (addendMax fl s)

theorem madeRoom_layout (h s : Histogram) : (madeRoom fl h s).layout fl = h.layout fl := by
  unfold madeRoom
  split <;> rfl

theorem slot_topOf (hs : Shaped fl h) : (h.layout fl).slot (topOf fl h) = h.counts.length - 1 :=
  slot_highest hs.base_le (hs.low_lt (Nat.sub_lt hs.length_pos Nat.one_pos))

/-- A value past the last slot's highest is at least the highest trackable one. -/
theorem highest_le_of_topOf_lt (hs : Shaped fl h) {v : Nat} (hv : topOf fl h < v) :
    h.highestTrackableValue ≤ v := by
  have hlt : (h.layout fl).slot h.highestTrackableValue < h.counts.length := by
    rw [hs.length, hs.bucketCount]
    exact slot_lt_bins (Nat.le_refl _)
  have hend := (h.layout fl).slot_lt_iff.1 hlt
  have hhigh := hs.highest_lt
  have hpos := hs.length_pos
  unfold topOf LogLinear.highest at hv
  rw [Nat.sub_add_cancel hpos] at hv
  unfold u64Max at hv
  omega

theorem length_le_bins_of_topOf_lt (hs : Shaped fl h) {v : Nat} (hv : topOf fl h < v) :
    h.counts.length ≤ (h.layout fl).bins (bucketsFor (h.layout fl) v) := by
  rw [hs.length, hs.bucketCount]
  exact bins_bucketsFor_mono (highest_le_of_topOf_lt hs hv)

section
variable (hs : Shaped fl h)
include hs

theorem madeRoom_shaped (s : Histogram) : Shaped fl (madeRoom fl h s) := by
  unfold madeRoom
  split
  · exact hs
  · rename_i hlt
    have hlt := Nat.lt_of_not_le hlt
    exact grown_shaped (length_le_bins_of_topOf_lt hs hlt) hs maxOf_lt maxOf_lt
      (hs.boundsOk.2.2.1.trans (highest_le_of_topOf_lt hs hlt)) rfl

theorem slot_addendMax_lt (s : Histogram) :
    (h.layout fl).slot (addendMax fl s) < (madeRoom fl h s).counts.length := by
  unfold madeRoom
  split
  · rename_i hle
    have hslot := (h.layout fl).slot_mono hle
    have hpos := hs.length_pos
    rw [slot_topOf hs] at hslot
    omega
  · rename_i hlt
    rw [length_grown (length_le_bins_of_topOf_lt hs (Nat.lt_of_not_le hlt))]
    exact slot_lt_bins (Nat.le_refl _)

variable (hk : Kept fl s)
include hk

theorem makeRoom_eq_ite : h.makeRoom s =
    if addendMax fl s ≤ topOf fl h then .ok h
    else if ¬ h.autoResize then .error (.err .otherAddendValueExceedsRange)
    else mapErr (fun _ => .resizeFailedUsizeTypeTooSmall) (h.resize (addendMax fl s)) := by
  have hlast := hs.low_lt (Nat.sub_lt hs.length_pos Nat.one_pos)
  unfold Histogram.makeRoom
  rw [hs.lastIndex, ok_bind, valueFor_eq hs.toHasLayout hlast, ok_bind,
    highestEquivalent_eq hs.toHasLayout hlast,
    if_neg (Nat.ne_of_lt (low_lt_u64Max hs.base_le hlast)), ok_bind, LogLinear.slot_low, hk.max,
    ok_bind]
  rfl

theorem makeRoom_ok (hroom : h.autoResize = true ∨ addendMax fl s ≤ topOf fl h) :
    h.makeRoom s = .ok (madeRoom fl h s) := by
  rw [makeRoom_eq_ite hs hk, madeRoom]
  split
  · rfl
  · rename_i hlt
    have hauto := hroom.resolve_right hlt
    have hlt := Nat.lt_of_not_le hlt
    rw [if_neg (by simp [hauto]), resize_grown (length_le_bins_of_topOf_lt hs hlt) hs maxOf_lt
      (hs.boundsOk.2.2.1.trans (highest_le_of_topOf_lt hs hlt)), mapErr_ok]

theorem makeRoom_refuses (hauto : h.autoResize = false) (hlt : topOf fl h < addendMax fl s) :
    h.makeRoom s = .error (.err .otherAddendValueExceedsRange) := by
  rw [makeRoom_eq_ite hs hk, if_neg (Nat.not_le.2 hlt), if_pos (by simp [hauto])]

end

theorem madeRoom_kept (hk : Kept fl h) (s : Histogram) : Kept fl (madeRoom fl h s) := by
  have hs := madeRoom_shaped hk.toShaped s
  by_cases hle : addendMax fl s ≤ topOf fl h
  · rwa [madeRoom, if_pos hle]
  · rw [madeRoom, if_neg hle] at hs ⊢
    exact grown_kept hk hs

theorem madeRoom_coherent (hc : Coherent fl h) (s : Histogram) :
    Coherent fl (madeRoom fl h s) := by
  have hs := madeRoom_shaped hc.toShaped s
  by_cases hle : addendMax fl s ≤ topOf fl h
  · rwa [madeRoom, if_pos hle]
  · rw [madeRoom, if_neg hle] at hs ⊢
    exact grown_coherent hc hs

/-! ## Slot by slot -/

def joinedMax (L : LogLinear) (h s : Histogram) : Nat :=
  if maxOf L h.maxValue < maxOf L s.maxValue then
    max h.maxValue (maxOf L s.maxValue ||| (2 ^ L.unit - 1))
  else h.maxValue

def joinedMin (L : LogLinear) (h s : Histogram) : Nat :=
  if minOf L s.minNonZeroValue < minOf L h.minNonZeroValue then
    min h.minNonZeroValue (minOf L s.minNonZeroValue)
  else h.minNonZeroValue

/-- `h` with the slots and the statistics of `s` joined to its own. -/
def joined (L : LogLinear) (h s : Histogram) : Histogram :=
  { h with
    maxValue := joinedMax L h s
    minNonZeroValue := joinedMin L h s
    totalCount := satAdd64 h.totalCount s.totalCount
    counts := List.zipWith satAdd64 h.counts s.counts }

theorem slot_joinedMax (hb : L.base ≤ 63) (hh : h.maxValue < 2 ^ 64) (hs : s.maxValue < 2 ^ 64) :
    L.slot (joinedMax L h s) = max (L.slot h.maxValue) (L.slot s.maxValue) := by
  have h1 := slot_maxOf hb hh
  have h2 := slot_maxOf hb hs
  unfold joinedMax
  split
  · rename_i hlt
    have hle := L.slot_mono (Nat.le_of_lt hlt)
    rw [L.slot_mono.map_max, slot_or_mask, h2]
  · rename_i hle
    have hle := L.slot_mono (Nat.le_of_not_lt hle)
    rw [h1, h2] at hle
    rw [max_eq_left hle]

theorem slot_joinedMin :
    L.slot (joinedMin L h s) = min (L.slot h.minNonZeroValue) (L.slot s.minNonZeroValue) := by
  have h1 := slot_minOf (L := L) h.minNonZeroValue
  have h2 := slot_minOf (L := L) s.minNonZeroValue
  unfold joinedMin
  split
  · rw [L.slot_mono.map_min, h2]
  · rename_i hle
    have hle := L.slot_mono (Nat.le_of_not_lt hle)
    rw [h1, h2] at hle
    rw [min_eq_left hle]

theorem updateMin_minOf (hh : HasLayout h L) (hpos : L.slot s.minNonZeroValue ≠ 0)
    (hlt : s.minNonZeroValue < 2 ^ 64) (hlth : h.minNonZeroValue < 2 ^ 64) :
    (if minOf L s.minNonZeroValue < minOf L h.minNonZeroValue then
      h.updateMin (minOf L s.minNonZeroValue) else h) =
      { h with minNonZeroValue := joinedMin L h s } := by
  unfold joinedMin
  split
  · rename_i hless
    by_cases hmin : s.minNonZeroValue = originalMin
    · -- nothing is above the sentinel
      have hle := minOf_le L h.minNonZeroValue
      rw [minOf, if_pos hmin, originalMin, u64Max] at hless
      omega
    · have hlow := (L.low_slot_le s.minNonZeroValue).trans_lt hlt
      rw [minOf, if_neg hmin]
      exact updateMin_low hh hpos hlow
  · rfl

/-- **`add` of an equal configuration** joins the histograms. -/
theorem addDirect_joined (hk : Kept fl h) (hs : Kept fl s) (hL : s.layout fl = h.layout fl)
    (hlen : h.counts.length = s.counts.length) :
    h.addDirect (ε := ε) s = .ok (joined (h.layout fl) h s) := by
  have hfold : s.counts.zipIdx.foldlM (Histogram.addSlot (ε := ε)) (h.counts, 0) =
      .ok (List.zipWith satAdd64 h.counts s.counts, s.totalCount) := by
    have hsum : s.counts.foldl satAdd64 0 = s.totalCount := by
      rw [hs.totalCount, satAdd64_eq, CapSum.foldl_add _ (Nat.zero_le _), Nat.zero_add]
    rw [← hsum]
    exact foldlM_addSlot s.counts h.counts [] hlen hk.counts_lt (by decide)
  have hmax : s.max (ε := ε) = .ok (maxOf (h.layout fl) s.maxValue) := hL ▸ hs.max
  have hmin : s.minNz (ε := ε) = .ok (minOf (h.layout fl) s.minNonZeroValue) := hL ▸ hs.minNz
  -- the slots, then the maximum, then the minimum
  generalize hg : ({ h with
    counts := List.zipWith satAdd64 h.counts s.counts
    totalCount := satAdd64 h.totalCount s.totalCount } : Histogram) = g
  have hgl : HasLayout g (h.layout fl) := hg ▸ hk.toHasLayout.stats _ _ _ _
  have hgm : g.maxValue < 2 ^ 64 := hg ▸ hk.maxValue_lt
  have hgn : g.minNonZeroValue < 2 ^ 64 := hg ▸ hk.minNonZeroValue_lt
  have hgl' : HasLayout { g with maxValue := joinedMax (h.layout fl) g s } (h.layout fl) :=
    hgl.stats _ _ _ _
  have hupdate : (if maxOf (h.layout fl) g.maxValue < maxOf (h.layout fl) s.maxValue then
      g.updateMax (maxOf (h.layout fl) s.maxValue) else g) =
      { g with maxValue := joinedMax (h.layout fl) g s } := by
    unfold joinedMax
    split
    · rw [updateMax_eq, hgl.unitMagnitudeMask]
    · rfl
  unfold Histogram.addDirect
  rw [hfold, ok_bind]
  simp only []
  rw [hg, hmax, ok_bind, max_of_lt hgl hgm, ok_bind, hmin, ok_bind, hupdate,
    minNz_of_lt hgl' hgn, ok_bind, updateMin_minOf hgl' (hL ▸ hs.minPos) hs.minNonZeroValue_lt
      hgn, pure_eq_ok, ← hg]
  rfl

theorem occ_zipWith {xs ys : List Nat} (hlen : xs.length = ys.length) :
    occ (List.zipWith satAdd64 xs ys) = occ xs ∪ occ ys := by
  ext i
  rw [Set.mem_union, mem_occ, mem_occ, mem_occ, satAdd64_eq,
    Slots.getD_zipWith (CapSum.add_eq_zero_iff (by decide)) hlen, ne_eq,
    CapSum.add_eq_zero_iff (by decide)]
  omega

section
variable (hL : s.layout fl = h.layout fl) (hlen : h.counts.length = s.counts.length)
include hL hlen

theorem joined_kept (hk : Kept fl h) (hs : Kept fl s) :
    Kept fl (joined (h.layout fl) h s) := by
  have hocc := occ_zipWith hlen
  have hmax := slot_joinedMax hk.base_le hk.maxValue_lt hs.maxValue_lt
  have hmin := slot_joinedMin (h := h) (s := s) (L := h.layout fl)
  refine ⟨hk.toShaped.stats (by simp [hlen]) _ _ _, fun c hc => ?_, ?_, ?_, ?_, ?_, ?_, ?_,
    fun hsub => ?_⟩
  · replace hc : c ∈ List.zipWith satAdd64 h.counts s.counts := hc
    obtain ⟨i, hi, rfl⟩ := List.mem_iff_getElem.1 hc
    rw [List.getElem_zipWith]
    exact Nat.lt_of_le_of_lt (CapSum.add_le _ _) (by decide)
  · have hsum := CapSum.min_sum_zipWith (c := u64Max) _ _ hlen
    simp only [joined, satAdd64_eq, CapSum.add, hk.totalCount, hs.totalCount] at hsum ⊢
    omega
  · have h1 := hk.maxValue_lt
    have h2 := or_mask_lt hk.toHasLayout (maxOf_lt (L := h.layout fl) (m := s.maxValue))
    rw [hk.unitMagnitudeMask] at h2
    change joinedMax (h.layout fl) h s < _
    unfold joinedMax
    split <;> omega
  · change IsGreatest (insert 0 (occ (List.zipWith satAdd64 h.counts s.counts)))
      ((h.layout fl).slot (joinedMax (h.layout fl) h s))
    rw [hocc, hmax, Set.insert_union_distrib]
    exact hk.maxSlot.union (hL ▸ hs.maxSlot)
  · have h1 := hk.minNonZeroValue_lt
    change joinedMin (h.layout fl) h s < _
    unfold joinedMin
    split <;> omega
  · have h1 := hk.minPos
    have h2 := hs.minPos
    rw [hL] at h2
    change (h.layout fl).slot (joinedMin (h.layout fl) h s) ≠ 0
    omega
  · change (h.layout fl).slot (joinedMin (h.layout fl) h s) ∈
      lowerBounds (occ (List.zipWith satAdd64 h.counts s.counts) \ {0})
    have hbound := hs.minBound
    rw [hL] at hbound
    rw [hocc, hmin, Set.union_sdiff_distrib, lowerBounds_union]
    exact ⟨fun j hj => (min_le_left _ _).trans (hk.minBound hj),
      fun j hj => (min_le_right _ _).trans (hbound hj)⟩
  · change occ (List.zipWith satAdd64 h.counts s.counts) ⊆ {0} at hsub
    rw [hocc, Set.union_subset_iff] at hsub
    change joinedMin (h.layout fl) h s = originalMin
    rw [joinedMin, hk.minEmpty hsub.1, hs.minEmpty hsub.2, if_neg (Nat.lt_irrefl _)]

theorem joined_coherent (hk : Coherent fl h) (hs : Coherent fl s) :
    Coherent fl (joined (h.layout fl) h s) := by
  have hocc := occ_zipWith hlen
  have hmin := slot_joinedMin (h := h) (s := s) (L := h.layout fl)
  refine ⟨joined_kept hL hlen hk.toKept hs.toKept, fun hsub => ?_⟩
  change ¬ occ (List.zipWith satAdd64 h.counts s.counts) ⊆ {0} at hsub
  change (h.layout fl).slot (joinedMin (h.layout fl) h s) ∈
    occ (List.zipWith satAdd64 h.counts s.counts) \ {0}
  have hslot := hs.minSlot
  rw [hL] at hslot
  rw [hocc, Set.union_subset_iff, not_and_or] at hsub
  rw [hocc, Set.union_sdiff_distrib, hmin]
  -- the sentinel of a histogram without a minimum is past every slot
  by_cases hempty : occ h.counts ⊆ {0}
  · have hmem := hslot (hsub.resolve_left (not_not_intro hempty))
    have hle := hs.toSized.le_slot_u64Max (lt_length_of_mem_occ hmem.1)
    rw [hL] at hle
    rw [hk.minEmpty hempty, originalMin, min_eq_right hle]
    exact .inr hmem
  · have hmem := hk.minSlot hempty
    by_cases hempty' : occ s.counts ⊆ {0}
    · rw [hs.minEmpty hempty', originalMin,
        min_eq_left (hk.toSized.le_slot_u64Max (lt_length_of_mem_occ hmem.1))]
      exact .inl hmem
    · rcases min_choice ((h.layout fl).slot h.minNonZeroValue)
        ((h.layout fl).slot s.minNonZeroValue) with he | he
      · rw [he]
        exact .inl hmem
      · rw [he]
        exact .inr (hslot hempty')

end

/-! ## Value by value -/

/-- The samples of the slots of `s` that the layout `L` puts in slot `j`. -/
def movedTo (L M : LogLinear) (counts : List Nat) (j : Nat) : Nat :=
  (((List.range counts.length).filter fun i => L.slot (M.low i) = j).map (counts.getD · 0)).sum

/-- The samples of slot `i`, under its low value. -/
def sampleAt (s : Histogram) (M : LogLinear) (i : Nat) : Nat × Nat :=
  (M.low i, s.counts.getD i 0)

/-- What adding `s` to `h` makes of it. -/
structure Added (fl : Floats) (h s g : Histogram) : Prop where
  kept : Kept fl g
  coherent : Coherent fl h → Coherent fl s → Coherent fl g
  layout : g.layout fl = h.layout fl
  autoResize : g.autoResize = h.autoResize
  length : g.counts.length = h.counts.length
  totalCount : g.totalCount = satAdd64 h.totalCount s.totalCount
  counts : ∀ j, g.counts.getD j 0 =
    satAdd64 (h.counts.getD j 0) (movedTo (h.layout fl) (s.layout fl) s.counts j)

/-- A histogram with the layout of `h` puts each slot where it was. -/
theorem movedTo_self (L : LogLinear) (counts : List Nat) (j : Nat) :
    movedTo L L counts j = counts.getD j 0 := by
  have hfilter : ((List.range counts.length).filter fun i => L.slot (L.low i) = j) =
      if j < counts.length then [j] else [] := by
    simp only [LogLinear.slot_low]
    rw [List.filter_eq, List.nodup_range.count]
    simp only [List.mem_range]
    split <;> rfl
  unfold movedTo
  rw [hfilter]
  split
  · simp
  · rename_i hj
    rw [List.getD_eq_default _ _ (Nat.le_of_not_lt hj)]
    rfl

theorem joined_added (hk : Kept fl h) (hs : Kept fl s) (hL : s.layout fl = h.layout fl)
    (hlen : h.counts.length = s.counts.length) : Added fl h s (joined (h.layout fl) h s) where
  kept := joined_kept hL hlen hk hs
  coherent := joined_coherent hL hlen
  layout := rfl
  autoResize := rfl
  length := by simp [joined, hlen]
  totalCount := rfl
  counts j := by
    rw [hL, movedTo_self]
    exact Slots.getD_zipWith (CapSum.add_eq_zero_iff (by decide)) hlen j

section
variable {M : LogLinear} (hM : HasLayout s M)
include hM

theorem foldlM_addValue_recorded {is : List Nat} {n : Nat} (hh : HasLayout h L)
    (hlen : h.counts.length = n)
    (his : ∀ i ∈ is, i < s.counts.length ∧ M.low i < 2 ^ 64 ∧ L.slot (M.low i) < n) :
    is.foldlM (Histogram.addValue (ε := ε) s) h =
      .ok ((is.filter (s.counts.getD · 0 ≠ 0)).foldl (recordedFrom s L M) h) := by
  induction is generalizing h with
  | nil => rfl
  | cons i is ih =>
    obtain ⟨⟨hi, hi64, hslot⟩, his⟩ := List.forall_mem_cons.1 his
    have hcount : s.countAtIndex i = some (s.counts.getD i 0) := by
      rw [Histogram.countAtIndex, List.getD_eq_getElem _ _ hi, List.getElem?_eq_getElem hi]
    have hstep : Histogram.addValue (ε := ε) s h i = .ok (if s.counts.getD i 0 ≠ 0 then
        recordedFrom s L M h i else h) := by
      unfold Histogram.addValue
      rw [hcount, expectSome_some, ok_bind]
      split
      · rw [valueFor_eq hM hi64, ok_bind, recordN_eq hh hi64 (hlen ▸ hslot), expect_ok]
        rfl
      · rfl
    rw [List.foldlM_cons, hstep, ok_bind]
    by_cases hc : s.counts.getD i 0 = 0
    · rw [if_neg (not_not_intro hc), List.filter_cons_of_neg (by simpa using hc)]
      exact ih hh hlen his
    · rw [if_pos hc, List.filter_cons_of_pos (by simpa using hc)]
      exact ih (hh.stats _ _ _ _) ((List.length_modify _ _ _).trans hlen) his

end

/-- The slots `add` goes through are the occupied ones, if there are any. -/
theorem addOrder_perm (h0 : Slots.occupied s.counts ≠ []) :
    (addOrder s).Perm (Slots.occupied s.counts) := by
  have hocc : (Slots.occupied s.counts).Pairwise (· < ·) := Slots.occupied_sorted
  refine (List.perm_ext_iff_of_nodup ?_ (hocc.imp Nat.ne_of_lt)).2 fun i => ?_
  · unfold addOrder
    rw [List.nodup_cons]
    refine ⟨fun hmem => ?_, List.nodup_range.filter _⟩
    exact Nat.lt_irrefl _ (List.mem_range.1 (List.mem_filter.1 hmem).1)
  · unfold addOrder
    rw [List.mem_cons, List.mem_filter, List.mem_range, Slots.mem_occupied, decide_eq_true_iff]
    refine ⟨?_, fun hi => ?_⟩
    · rintro (rfl | hi)
      · exact Slots.getD_last_ne_zero h0
      · exact hi.2
    · rcases Nat.lt_or_eq_of_le (Slots.le_last hi) with hlt | he
      · exact .inr ⟨hlt, hi⟩
      · exact .inl he

theorem movedTo_addOrder (L M : LogLinear) (h0 : Slots.occupied s.counts ≠ []) (j : Nat) :
    (((addOrder s).filter fun i => L.slot (M.low i) = j).map (s.counts.getD · 0)).sum =
      movedTo L M s.counts j := by
  rw [(((addOrder_perm h0).filter _).map _).sum_eq, Slots.occupied, List.filter_comm,
    Slots.sum_filter, movedTo]

theorem recordedFrom_empty {M : LogLinear} (hk : Kept fl h) (hzero : s.counts.getD 0 0 = 0) :
    recordedFrom s L M h 0 = h := by
  have hcounts : h.counts.modify (L.slot (M.low 0)) (satAdd64 · 0) = h.counts := by
    refine (modify_congr fun c hc => ?_).trans (List.modify_id _ _)
    have hlt := hk.counts_lt c (List.mem_of_getElem? hc)
    exact CapSum.add_zero_of_le (by unfold u64Max; omega)
  have htotal : satAdd64 h.totalCount 0 = h.totalCount :=
    CapSum.add_zero_of_le (by rw [hk.totalCount]; exact min_le_right _ _)
  unfold recordedFrom recorded
  rw [hzero, hcounts, htotal, M.low_zero]
  simp [recordedMax, recordedMin]

section
variable (hk : Kept fl h) (hs : Kept fl s)
  (hroom : (h.layout fl).slot (addendMax fl s) < h.counts.length)
include hs hroom

theorem slot_low_lt_of_room {i : Nat} (hi : i ≤ Slots.last s.counts) : i < s.counts.length ∧
    (s.layout fl).low i < 2 ^ 64 ∧ (h.layout fl).slot ((s.layout fl).low i) < h.counts.length := by
  have hlt := hi.trans_lt hs.last_lt
  have hle : (s.layout fl).low i ≤ addendMax fl s := by
    calc (s.layout fl).low i ≤ (s.layout fl).low (Slots.last s.counts) :=
          (s.layout fl).low_strictMono.monotone hi
      _ = (s.layout fl).low ((s.layout fl).slot (addendMax fl s)) :=
          congrArg _ hs.slot_maxOf.symm
      _ ≤ addendMax fl s := (s.layout fl).low_slot_le _
  exact ⟨hlt, hs.toSized.low_lt hlt, ((h.layout fl).slot_mono hle).trans_lt hroom⟩

include hk

/-- **`add` of another configuration** records the slots of the addend. -/
theorem addByValue_recordedFrom : h.addByValue (ε := ε) s =
    .ok ((addOrder s).foldl (recordedFrom s (h.layout fl) (s.layout fl)) h) := by
  obtain ⟨hlt, hlast, hslot⟩ := slot_low_lt_of_room hs hroom (Nat.le_refl _)
  have hcount : s.countAtIndex (Slots.last s.counts) =
      some (s.counts.getD (Slots.last s.counts) 0) := by
    rw [Histogram.countAtIndex, List.getD_eq_getElem _ _ hlt, List.getElem?_eq_getElem hlt]
  unfold Histogram.addByValue
  rw [hs.max, ok_bind, indexFor_eq hs.toHasLayout maxOf_lt, ok_bind, hs.slot_maxOf,
    expectSome_some, ok_bind, hcount, expectSome_some, ok_bind, valueFor_eq hs.toHasLayout hlast,
    ok_bind, recordN_eq hk.toHasLayout hlast hslot, expect_ok, ok_bind]
  exact foldlM_addValue_recorded hs.toHasLayout (hk.toHasLayout.stats _ _ _ _)
    (List.length_modify _ _ _) fun i hi =>
      slot_low_lt_of_room hs hroom (Nat.le_of_lt (List.mem_range.1 hi))

theorem recordedFrom_added :
    Added fl h s ((addOrder s).foldl (recordedFrom s (h.layout fl) (s.layout fl)) h) := by
  by_cases h0 : Slots.occupied s.counts = []
  · -- nothing to add
    have hzero : ∀ i, s.counts.getD i 0 = 0 := fun i => by
      by_contra hne
      exact List.ne_nil_of_mem (Slots.mem_occupied.2 hne) h0
    have horder : addOrder s = [0] := by simp [addOrder, Slots.last, h0]
    have hmoved : ∀ j, movedTo (h.layout fl) (s.layout fl) s.counts j = 0 := fun j =>
      List.sum_eq_zero fun c hc => by
        obtain ⟨i, -, rfl⟩ := List.mem_map.1 hc
        exact hzero i
    have htotal : s.totalCount = 0 := by
      rw [hs.totalCount, ← Slots.sum_occupied, h0]
      rfl
    rw [horder, List.foldl_cons, List.foldl_nil, recordedFrom_empty hk (hzero 0)]
    refine ⟨hk, fun hc _ => hc, rfl, rfl, rfl, ?_, fun j => ?_⟩
    · rw [htotal]
      exact (CapSum.add_zero_of_le hk.totalCount_le).symm
    · rw [hmoved]
      exact (CapSum.add_zero_of_le (hk.getD_le j)).symm
  · have hseq : (addOrder s).foldl (recordedFrom s (h.layout fl) (s.layout fl)) h =
        recordedSeq (h.layout fl) h ((addOrder s).map (sampleAt s (s.layout fl))) := by
      rw [recordedSeq, List.foldl_map]
      rfl
    have hps : ∀ p ∈ (addOrder s).map (sampleAt s (s.layout fl)), p.1 < 2 ^ 64 ∧
        (h.layout fl).slot p.1 < h.counts.length ∧ 0 < p.2 := by
      intro p hp
      obtain ⟨i, hi, rfl⟩ := List.mem_map.1 hp
      have hocc := Slots.mem_occupied.1 ((addOrder_perm h0).mem_iff.1 hi)
      exact ⟨(slot_low_lt_of_room hs hroom (Slots.le_last hocc)).2.1,
        (slot_low_lt_of_room hs hroom (Slots.le_last hocc)).2.2, Nat.pos_of_ne_zero hocc⟩
    rw [hseq]
    obtain ⟨h1, h2, h3, h4, h5, h6, h7⟩ := recordedSeq_taken hk hps
    refine ⟨h1, fun hc _ => h2 hc, h3, h4, h5, h6.trans ?_, fun j => (h7 j).trans ?_⟩
    · rw [List.map_map, show Prod.snd ∘ sampleAt s (s.layout fl) = (s.counts.getD · 0) from rfl,
        sum_addOrder, hs.totalCount]
      unfold satAdd64
      omega
    · rw [← movedTo_addOrder _ _ h0, samplesIn, List.filter_map, List.map_map]
      rfl

end

/-! ## Either way -/

theorem layout_eq_of_sameConfig (hk : Shaped fl h) (hs : Shaped fl s)
    (hc : h.sameConfig s = true) :
    s.layout fl = h.layout fl ∧ h.counts.length = s.counts.length := by
  obtain ⟨h1, h2⟩ := (sameConfig_iff hk.toSized hs.toSized).1 hc
  exact ⟨h1.symm, h2⟩

/-- **`add`** returns the histogram that the samples of both operands call for, whether it grows
first or not and whichever way it adds them. -/
theorem add_added (hk : Kept fl h) (hs : Kept fl s)
    (hroom : h.autoResize = true ∨ addendMax fl s ≤ topOf fl h) :
    ∃ g, h.add s = .ok g ∧ Added fl (madeRoom fl h s) s g := by
  have hk' := madeRoom_kept hk s
  have hslot := slot_addendMax_lt hk.toShaped s
  rw [← madeRoom_layout h s] at hslot
  unfold Histogram.add
  rw [makeRoom_ok hk.toShaped hs hroom, ok_bind]
  split
  · rename_i hc
    obtain ⟨hL, hlen⟩ := layout_eq_of_sameConfig hk'.toShaped hs.toShaped hc
    exact ⟨_, addDirect_joined hk' hs hL hlen, joined_added hk' hs hL hlen⟩
  · exact ⟨_, addByValue_recordedFrom hk' hs hslot, recordedFrom_added hk' hs hslot⟩

theorem add_refuses (hk : Kept fl h) (hs : Kept fl s) (hauto : h.autoResize = false)
    (hlt : topOf fl h < addendMax fl s) :
    h.add s = .error (.err .otherAddendValueExceedsRange) := by
  unfold Histogram.add
  rw [makeRoom_refuses hk.toShaped hs hauto hlt, error_bind]

theorem getD_madeRoom (h s : Histogram) (j : Nat) :
    (madeRoom fl h s).counts.getD j 0 = h.counts.getD j 0 := by
  unfold madeRoom
  split
  · rfl
  · exact getD_append_replicate _ _ _

/-- `g` holds the samples of `h` and `s`. -/
structure Summed (fl : Floats) (h s g : Histogram) : Prop where
  kept : Kept fl g
  coherent : Coherent fl h → Coherent fl s → Coherent fl g
  layout : g.layout fl = h.layout fl
  autoResize : g.autoResize = h.autoResize
  length : h.counts.length ≤ g.counts.length
  fixed : h.autoResize = false → g.counts.length = h.counts.length
  totalCount : g.totalCount = satAdd64 h.totalCount s.totalCount
  counts : ∀ j, g.counts.getD j 0 =
    satAdd64 (h.counts.getD j 0) (movedTo (h.layout fl) (s.layout fl) s.counts j)

/-- **`add`** sums up both histograms. -/
theorem add_summed (hk : Kept fl h) (hs : Kept fl s)
    (hroom : h.autoResize = true ∨ addendMax fl s ≤ topOf fl h) :
    ∃ g, h.add s = .ok g ∧ Summed fl h s g := by
  obtain ⟨g, hg, ha⟩ := add_added hk hs hroom
  have hauto : (madeRoom fl h s).autoResize = h.autoResize := by
    unfold madeRoom
    split <;> rfl
  have htotal : (madeRoom fl h s).totalCount = h.totalCount := by
    unfold madeRoom
    split <;> rfl
  have hlength : h.counts.length ≤ (madeRoom fl h s).counts.length := by
    unfold madeRoom
    split
    · exact Nat.le_refl _
    · simp [grown]
  refine ⟨g, hg, ha.kept, fun hc => ha.coherent (madeRoom_coherent hc s),
    ha.layout.trans (madeRoom_layout h s), ha.autoResize.trans hauto, ha.length ▸ hlength,
    fun hfixed => ?_, ha.totalCount.trans (by rw [htotal]), fun j => ?_⟩
  · have hle := hroom.resolve_left (by simp [hfixed])
    rw [ha.length, madeRoom, if_pos hle]
  · rw [ha.counts, getD_madeRoom, madeRoom_layout]

/-- **Either outcome of `add`**: it sums up both histograms, or it refuses an addend past the top
of a fixed one. It never panics. -/
theorem add_outcomes (hk : Kept fl h) (hs : Kept fl s) :
    if h.autoResize = true ∨ addendMax fl s ≤ topOf fl h then
      ∃ g, h.add s = .ok g ∧ Summed fl h s g
    else h.add s = .error (.err .otherAddendValueExceedsRange) := by
  split
  · rename_i hroom
    exact add_summed hk hs hroom
  · rename_i hroom
    obtain ⟨hauto, hle⟩ := not_or.1 hroom
    exact add_refuses hk hs (by simpa using hauto) (Nat.lt_of_not_le hle)

theorem add_outcomes_sample : ∃ g, sample.add sample = .ok g ∧ Summed .exact sample sample g := by
  have houtcomes := add_outcomes sample_coherent.toKept sample_coherent.toKept
  rwa [if_pos (by decide +kernel)] at houtcomes

end Chist.Hdr
