import Chist.Hdr.Record

/-!
# Adding histograms

`Summary h L`: what `add` keeps of the histogram it adds to. A loaded histogram is added unless
its maximum is past the last slot (`makeRoom_eq`): slot by slot if the configurations are equal
(`addDirect_eq`), else value by value (`addByValue_eq`). Neither path panics, and while the total
fits in `u64` neither loses a count (`add_spec`).
-/

set_option autoImplicit false

namespace Chist.Hdr

open Res

variable {ε : Type} {fl : Floats} {h s : Histogram} {L M : LogLinear}

/-- A histogram others are added to: it does not grow, and its statistics fit. -/
structure Summary (h : Histogram) (L : LogLinear) : Prop extends Sized h L where
  autoResize : h.autoResize = false
  maxValue_lt : h.maxValue < 2 ^ 64
  minNonZeroValue_lt : h.minNonZeroValue < 2 ^ 64
  counts_lt : ∀ c ∈ h.counts, c < 2 ^ 64

/-- `h` holds `n` samples, by its slots and by its total. -/
def Tallied (h : Histogram) (n : Nat) : Prop := h.counts.sum = n ∧ h.totalCount = n

/-! ## Loaded histograms -/

section
variable (hl : Loaded s M)
include hl

theorem Loaded.low_last_lt : M.low (Slots.last s.counts) < 2 ^ 64 :=
  hl.toSized.low_lt (Slots.last_lt_length hl.toSized.length_pos)

theorem Loaded.low_firstNonzero_lt : ∀ i ∈ Slots.firstNonzero s.counts, M.low i < 2 ^ 64 :=
  fun _ hi => hl.toSized.low_lt (Slots.lt_length_of_mem (List.mem_of_find?_eq_some hi))

theorem Loaded.max : s.max (ε := ε) = .ok (M.topValue (Slots.last s.counts)) :=
  max_eq hl.toHasLayout hl.low_last_lt hl.maxValue

theorem Loaded.minNz : s.minNz (ε := ε) = .ok (minValue M (Slots.firstNonzero s.counts)) :=
  minNz_eq hl.toHasLayout hl.low_firstNonzero_lt hl.minNonZeroValue

theorem Loaded.summary : Summary s M where
  toSized := hl.toSized
  autoResize := hl.autoResize
  maxValue_lt := by
    rw [hl.maxValue]
    exact topValue_lt hl.base_le hl.low_last_lt
  minNonZeroValue_lt := by
    rw [hl.minNonZeroValue]
    have hlt := hl.low_firstNonzero_lt
    cases hf : Slots.firstNonzero s.counts with
    | none => exact (by decide : originalMin < 2 ^ 64)
    | some i => exact hlt i hf
  counts_lt := hl.counts_lt

end

/-! ## Statistics read back -/

/-- What `max` reports for a kept maximum `m`. -/
def maxOf (L : LogLinear) (m : Nat) : Nat :=
  if m = originalMax then originalMax else if m = u64Max then u64Max else L.highest (L.slot m)

/-- What `min_nz` reports for a kept minimum `m`. -/
def minOf (L : LogLinear) (m : Nat) : Nat :=
  if m = originalMin then originalMin else L.low (L.slot m)

theorem max_of_lt (hh : HasLayout h L) (hm : h.maxValue < 2 ^ 64) :
    h.max (ε := ε) = .ok (maxOf L h.maxValue) := by
  unfold Histogram.max maxOf
  split
  · rfl
  · exact highestEquivalent_eq hh hm

theorem minNz_of_lt (hh : HasLayout h L) (hm : h.minNonZeroValue < 2 ^ 64) :
    h.minNz (ε := ε) = .ok (minOf L h.minNonZeroValue) := by
  unfold Histogram.minNz minOf
  split
  · rfl
  · exact lowestEquivalent_eq hh hm

/-! ## Range check -/

/-- **The start of `add`**: the maximum of the other histogram must not be past the last slot. -/
theorem makeRoom_eq (hs : Summary h L) (hl : Loaded s M) : h.makeRoom s =
    if M.topValue (Slots.last s.counts) ≤ L.highest (h.counts.length - 1) then .ok h
    else .error (.err .otherAddendValueExceedsRange) := by
  have hpos := hs.length_pos
  have hlt := hs.low_lt (show h.counts.length - 1 < h.counts.length by omega)
  unfold Histogram.makeRoom
  rw [hs.lastIndex, ok_bind, valueFor_eq hs.toHasLayout hlt, ok_bind,
    highestEquivalent_eq hs.toHasLayout hlt, if_neg (Nat.ne_of_lt (low_lt_u64Max hs.base_le hlt)),
    ok_bind, L.slot_low, hl.max, ok_bind]
  split
  · rfl
  · rw [if_pos (by simp [hs.autoResize])]
    rfl

/-! ## Slot by slot -/

/-- The slots of `source` added to those after `done`. -/
theorem foldlM_addSlot (source cs done : List Nat) {total : Nat} (hlen : cs.length = source.length)
    (hlt : ∀ c ∈ cs, c < 2 ^ 64) (htotal : total < 2 ^ 64) :
    (source.zipIdx done.length).foldlM (Histogram.addSlot (ε := ε)) (done ++ cs, total) =
      .ok (done ++ List.zipWith satAdd64 cs source, source.foldl satAdd64 total) := by
  induction source generalizing cs done total with
  | nil =>
    obtain rfl := List.length_eq_zero_iff.1 hlen
    rfl
  | cons x source ih =>
    obtain ⟨c, cs, rfl⟩ := List.exists_cons_of_length_eq_add_one hlen
    obtain ⟨hc, hlt⟩ := List.forall_mem_cons.1 hlt
    have hlen : cs.length = source.length := by simpa using hlen
    have hstep : Histogram.addSlot (ε := ε) (done ++ c :: cs, total) (x, done.length) =
        .ok (done ++ [satAdd64 c x] ++ cs, satAdd64 total x) := by
      unfold Histogram.addSlot
      by_cases hx : x = 0
      · subst hx
        rw [satAdd64_eq, CapSum.add_zero_of_le (by unfold u64Max; omega),
          CapSum.add_zero_of_le (by unfold u64Max; omega), List.append_assoc]
        rfl
      · simp only [ne_eq, hx, not_false_eq_true, if_true]
        rw [index_ok (by simp : (done ++ c :: cs)[done.length]? = some c), ok_bind,
          List.set_append_right _ _ (Nat.le_refl _), Nat.sub_self, List.append_assoc]
        rfl
    have htotal' : satAdd64 total x < 2 ^ 64 :=
      Nat.lt_of_le_of_lt (CapSum.add_le _ _) (by unfold u64Max; omega)
    rw [List.zipIdx_cons, List.foldlM_cons, hstep, ok_bind,
      show done.length + 1 = (done ++ [satAdd64 c x]).length by simp, ih _ _ hlen hlt htotal']
    simp

def addedMax (h s : Histogram) (L : LogLinear) : Nat :=
  if maxOf L h.maxValue < s.maxValue then max h.maxValue s.maxValue else h.maxValue

def addedMin (h s : Histogram) (L : LogLinear) : Nat :=
  if s.minNonZeroValue < minOf L h.minNonZeroValue then min h.minNonZeroValue s.minNonZeroValue
  else h.minNonZeroValue

/-- `h` with the slots of `s` added and the statistics updated. -/
def addedDirect (h s : Histogram) (L : LogLinear) : Histogram :=
  { h with
    maxValue := addedMax h s L
    minNonZeroValue := addedMin h s L
    totalCount := satAdd64 h.totalCount s.totalCount
    counts := List.zipWith satAdd64 h.counts s.counts }

theorem topValue_or_mask (i : Nat) : L.topValue i ||| (2 ^ L.unit - 1) = L.topValue i := by
  rw [LogLinear.topValue, Nat.or_assoc, Nat.or_self]

theorem minOf_le (L : LogLinear) (m : Nat) : minOf L m ≤ m := by
  unfold minOf
  split
  · rename_i h
    exact h.ge
  · exact L.low_slot_le m

theorem updateMax_loaded (hh : HasLayout h L) (hl : Loaded s L) :
    (if maxOf L h.maxValue < s.maxValue then h.updateMax s.maxValue else h) =
      { h with maxValue := addedMax h s L } := by
  have hor : s.maxValue ||| h.unitMagnitudeMask = s.maxValue := by
    rw [hl.maxValue, hh.unitMagnitudeMask, topValue_or_mask]
  unfold addedMax
  split
  · rw [updateMax_eq, hor]
  · rfl

theorem updateMin_loaded (hh : HasLayout h L) (hmin : h.minNonZeroValue < 2 ^ 64)
    (hl : Loaded s L) :
    (if s.minNonZeroValue < minOf L h.minNonZeroValue then h.updateMin s.minNonZeroValue else h) =
      { h with minNonZeroValue := addedMin h s L } := by
  have hle := minOf_le L h.minNonZeroValue
  unfold addedMin
  split
  · rename_i hlt
    rw [hl.minNonZeroValue] at hlt ⊢
    cases hf : Slots.firstNonzero s.counts with
    | none =>
      rw [hf] at hlt
      simp only [minValue, originalMin, u64Max] at hlt
      omega
    | some i =>
      have h0 : i ≠ 0 := by simpa using List.find?_some hf
      exact updateMin_low hh h0 (hl.low_firstNonzero_lt i hf)
  · rfl

/-- **`add` of an equal configuration.** -/
theorem addDirect_eq (hs : Summary h L) (hl : Loaded s L)
    (hlen : h.counts.length = s.counts.length) :
    h.addDirect (ε := ε) s = .ok (addedDirect h s L) := by
  have hfold : s.counts.zipIdx.foldlM (Histogram.addSlot (ε := ε)) (h.counts, 0) =
      .ok (List.zipWith satAdd64 h.counts s.counts, s.totalCount) := by
    have hsum : s.counts.foldl satAdd64 0 = s.totalCount := by
      rw [hl.totalCount, satAdd64_eq, CapSum.foldl_add _ (Nat.zero_le _), Nat.zero_add]
    rw [← hsum]
    exact foldlM_addSlot s.counts h.counts [] hlen hs.counts_lt (by decide)
  have hmax : s.max (ε := ε) = .ok s.maxValue := hl.max.trans (by rw [hl.maxValue])
  have hmin : s.minNz (ε := ε) = .ok s.minNonZeroValue :=
    hl.minNz.trans (by rw [hl.minNonZeroValue])
  -- the slots, then the maximum, then the minimum
  generalize hg : ({ h with
    counts := List.zipWith satAdd64 h.counts s.counts
    totalCount := satAdd64 h.totalCount s.totalCount } : Histogram) = g
  have hgl : HasLayout g L := hg ▸ hs.toHasLayout.stats _ _ _ _
  have hgm : g.maxValue < 2 ^ 64 := hg ▸ hs.maxValue_lt
  have hgn : g.minNonZeroValue < 2 ^ 64 := hg ▸ hs.minNonZeroValue_lt
  have hgl' : HasLayout { g with maxValue := addedMax g s L } L := hgl.stats _ _ _ _
  unfold Histogram.addDirect
  rw [hfold, ok_bind]
  simp only []
  rw [hg, hmax, ok_bind, max_of_lt hgl hgm, ok_bind, hmin, ok_bind, updateMax_loaded hgl hl,
    minNz_of_lt hgl' hgn, ok_bind, updateMin_loaded hgl' hgn hl, pure_eq_ok, ← hg]
  rfl

theorem addedDirect_summary (hs : Summary h L) (hl : Loaded s L)
    (hlen : h.counts.length = s.counts.length) : Summary (addedDirect h s L) L where
  toSized := hs.toSized.stats (by simp [hlen]) _ _ _
  autoResize := hs.autoResize
  maxValue_lt := by
    have h1 := hs.maxValue_lt
    have h2 := hl.summary.maxValue_lt
    change addedMax h s L < _
    unfold addedMax
    split <;> omega
  minNonZeroValue_lt := by
    have h1 := hs.minNonZeroValue_lt
    change addedMin h s L < _
    unfold addedMin
    split <;> omega
  counts_lt := by
    intro c hc
    replace hc : c ∈ List.zipWith satAdd64 h.counts s.counts := hc
    obtain ⟨i, hi, rfl⟩ := List.mem_iff_getElem.1 hc
    rw [List.getElem_zipWith]
    exact Nat.lt_of_le_of_lt (CapSum.add_le _ _) (by decide)

theorem addedDirect_tallied (hl : Loaded s L) (hlen : h.counts.length = s.counts.length) {n : Nat}
    (hn : Tallied h n) (hfit : n + s.counts.sum < 2 ^ 64) :
    Tallied (addedDirect h s L) (n + s.counts.sum) := by
  have hle : n + s.counts.sum ≤ u64Max := by unfold u64Max; omega
  refine ⟨?_, ?_⟩
  · change (List.zipWith (CapSum.add u64Max) h.counts s.counts).sum = _
    rw [CapSum.sum_zipWith _ _ hlen (by rwa [hn.1]), hn.1]
  · change CapSum.add u64Max h.totalCount s.totalCount = _
    rw [hl.totalCount, min_eq_left (by omega), hn.2, CapSum.add_of_le hle]

/-! ## Value by value -/

/-- `h` with the samples of slot `i` of `s` recorded at the lower end of the slot. -/
def recordedFrom (s : Histogram) (L M : LogLinear) (h : Histogram) (i : Nat) : Histogram :=
  recorded h (L.slot (M.low i)) (M.low i) (s.counts.getD i 0)

/-- The slots `add` goes through: the last occupied one, then those before it. -/
def addOrder (s : Histogram) : List Nat :=
  Slots.last s.counts :: (List.range (Slots.last s.counts)).filter (s.counts.getD · 0 ≠ 0)

theorem or_mask_lt (hh : HasLayout h L) {v : Nat} (hv : v < 2 ^ 64) :
    v ||| h.unitMagnitudeMask < 2 ^ 64 := by
  have hunit : 2 ^ L.unit ≤ 2 ^ 64 := Nat.pow_le_pow_right (by decide)
    (by have := hh.base_le; unfold LogLinear.base at this; omega)
  have hpos := Nat.two_pow_pos L.unit
  rw [hh.unitMagnitudeMask]
  exact Nat.or_lt_two_pow hv (by omega)

theorem recordedMax_lt (hh : HasLayout h L) (hm : h.maxValue < 2 ^ 64) {v : Nat}
    (hv : v < 2 ^ 64) : recordedMax h v < 2 ^ 64 := by
  have := or_mask_lt hh hv
  unfold recordedMax
  split <;> omega

theorem recordedMin_le (h : Histogram) (v : Nat) : recordedMin h v ≤ h.minNonZeroValue := by
  unfold recordedMin
  split
  · exact min_le_left _ _
  · exact Nat.le_refl _

theorem recorded_summary (hs : Summary h L) {v : Nat} (hv : v < 2 ^ 64) (i c : Nat) :
    Summary (recorded h i v c) L where
  toSized := recorded_sized hs.toSized i v c
  autoResize := hs.autoResize
  maxValue_lt := recordedMax_lt hs.toHasLayout hs.maxValue_lt hv
  minNonZeroValue_lt := (recordedMin_le h v).trans_lt hs.minNonZeroValue_lt
  counts_lt := by
    intro x hx
    replace hx : x ∈ h.counts.modify i (satAdd64 · c) := hx
    obtain ⟨j, hj, rfl⟩ := List.mem_iff_getElem.1 hx
    rw [List.getElem_modify]
    split
    · exact Nat.lt_of_le_of_lt (CapSum.add_le _ _) (by decide)
    · exact hs.counts_lt _ (List.getElem_mem _)

theorem recorded_tallied {i v c n : Nat} (hi : i < h.counts.length) (hn : Tallied h n)
    (hfit : n + c < 2 ^ 64) : Tallied (recorded h i v c) (n + c) := by
  have hle : n + c ≤ u64Max := by unfold u64Max; omega
  refine ⟨?_, ?_⟩
  · change (h.counts.modify i (CapSum.add u64Max · c)).sum = _
    rw [CapSum.sum_modify _ hi (by rwa [hn.1]), hn.1]
  · change CapSum.add u64Max h.totalCount c = _
    rw [hn.2, CapSum.add_of_le hle]

theorem foldl_recordedFrom (hs : Summary h L) {is : List Nat}
    (his : ∀ i ∈ is, M.low i < 2 ^ 64 ∧ L.slot (M.low i) < h.counts.length) :
    Summary (is.foldl (recordedFrom s L M) h) L ∧
      (is.foldl (recordedFrom s L M) h).counts.length = h.counts.length ∧
      ∀ n, Tallied h n → n + (is.map (s.counts.getD · 0)).sum < 2 ^ 64 →
        Tallied (is.foldl (recordedFrom s L M) h) (n + (is.map (s.counts.getD · 0)).sum) := by
  induction is generalizing h with
  | nil => exact ⟨hs, rfl, fun n hn _ => hn⟩
  | cons i is ih =>
    obtain ⟨⟨hi64, hi⟩, his⟩ := List.forall_mem_cons.1 his
    have hlen : (recordedFrom s L M h i).counts.length = h.counts.length := List.length_modify _ _ _
    obtain ⟨h1, h2, h3⟩ := ih (h := recordedFrom s L M h i) (recorded_summary hs hi64 _ _)
      (by rwa [hlen])
    refine ⟨h1, h2.trans hlen, fun n hn hfit => ?_⟩
    rw [List.map_cons, List.sum_cons, ← Nat.add_assoc] at hfit ⊢
    exact h3 _ (recorded_tallied hi hn (by omega)) hfit

theorem sum_addOrder (s : Histogram) :
    ((addOrder s).map (s.counts.getD · 0)).sum = s.counts.sum := by
  rw [addOrder, List.map_cons, List.sum_cons, Slots.sum_filter, Slots.sum_range, Nat.add_comm,
    ← Slots.sum_take_succ, Slots.sum_take_last]

theorem le_last_of_mem_addOrder {i : Nat} (hi : i ∈ addOrder s) : i ≤ Slots.last s.counts := by
  rcases List.mem_cons.1 hi with rfl | hi
  · exact Nat.le_refl _
  · exact Nat.le_of_lt (List.mem_range.1 (List.mem_filter.1 hi).1)

section
variable (hs : Summary h L) (hl : Loaded s M)
  (hroom : M.topValue (Slots.last s.counts) ≤ L.highest (h.counts.length - 1))
include hs hl hroom

theorem slot_low_lt {i : Nat} (hi : i ≤ Slots.last s.counts) :
    M.low i < 2 ^ 64 ∧ L.slot (M.low i) < h.counts.length := by
  have hpos := hs.length_pos
  have hlast := hl.low_last_lt
  have hlow : M.low i ≤ M.low (Slots.last s.counts) := M.low_strictMono.monotone hi
  have htop : M.low (Slots.last s.counts) ≤ M.topValue (Slots.last s.counts) :=
    (M.slot_eq_iff.1 (slot_topValue hl.base_le hlast)).1
  have hslot := L.slot_mono (hlow.trans (htop.trans hroom))
  rw [slot_highest hs.base_le (hs.low_lt (show h.counts.length - 1 < _ by omega))] at hslot
  exact ⟨by omega, by omega⟩

/-- The loop of `add` records the occupied ones of the slots `is`. -/
theorem foldlM_addValue {is : List Nat} (his : ∀ i ∈ is, i ≤ Slots.last s.counts) {g : Histogram}
    (hg : Summary g L) (hlen : g.counts.length = h.counts.length) :
    is.foldlM (Histogram.addValue (ε := ε) s) g =
      .ok ((is.filter (s.counts.getD · 0 ≠ 0)).foldl (recordedFrom s L M) g) := by
  induction is generalizing g with
  | nil => rfl
  | cons i is ih =>
    obtain ⟨hi, his⟩ := List.forall_mem_cons.1 his
    obtain ⟨hi64, hslot⟩ := slot_low_lt hs hl hroom hi
    have hlt : i < s.counts.length := hi.trans_lt (Slots.last_lt_length hl.toSized.length_pos)
    have hcount : s.countAtIndex i = some (s.counts.getD i 0) := by
      rw [Histogram.countAtIndex, List.getD_eq_getElem _ _ hlt, List.getElem?_eq_getElem hlt]
    have hstep : Histogram.addValue (ε := ε) s g i = .ok (if s.counts.getD i 0 ≠ 0 then
        recordedFrom s L M g i else g) := by
      unfold Histogram.addValue
      rw [hcount, expectSome_some, ok_bind]
      split
      · rw [valueFor_eq hl.toHasLayout hi64, ok_bind,
          recordN_eq hg.toHasLayout hi64 (by rwa [hlen]), expect_ok]
        rfl
      · rfl
    rw [List.foldlM_cons, hstep, ok_bind]
    by_cases hc : s.counts.getD i 0 = 0
    · rw [if_neg (by simpa using hc), List.filter_cons_of_neg (by simpa using hc)]
      exact ih his hg hlen
    · rw [if_pos hc, List.filter_cons_of_pos (by simpa using hc)]
      exact ih his (recorded_summary hg hi64 _ _) ((List.length_modify _ _ _).trans hlen)

/-- **`add` of another configuration.** -/
theorem addByValue_eq :
    h.addByValue (ε := ε) s = .ok ((addOrder s).foldl (recordedFrom s L M) h) := by
  have hlast := hl.low_last_lt
  have hlt := Slots.last_lt_length hl.toSized.length_pos
  have hcount : s.countAtIndex (Slots.last s.counts) =
      some (s.counts.getD (Slots.last s.counts) 0) := by
    rw [Histogram.countAtIndex, List.getD_eq_getElem _ _ hlt, List.getElem?_eq_getElem hlt]
  obtain ⟨-, hslot⟩ := slot_low_lt hs hl hroom (Nat.le_refl _)
  unfold Histogram.addByValue
  rw [hl.max, ok_bind, indexFor_eq hl.toHasLayout (topValue_lt hl.base_le hlast), ok_bind,
    slot_topValue hl.base_le hlast, expectSome_some, ok_bind, hcount, expectSome_some, ok_bind,
    valueFor_eq hl.toHasLayout hlast, ok_bind, recordN_eq hs.toHasLayout hlast hslot, expect_ok,
    ok_bind, foldlM_addValue hs hl hroom (fun i hi => Nat.le_of_lt (List.mem_range.1 hi))
      (recorded_summary hs hlast _ _) (List.length_modify _ _ _)]
  rfl

end

/-! ## Either way -/

theorem layout_eq_of_fields (hcount : 2 ^ (L.half + 1) = 2 ^ (M.half + 1))
    (hunit : L.unit = M.unit) : L = M := by
  have hhalf := Nat.pow_right_injective (Nat.le_refl 2) hcount
  cases L
  cases M
  simp_all

theorem sameConfig_iff (hs : Sized h L) (hl : Sized s M) : h.sameConfig s = true ↔
    L = M ∧ h.counts.length = s.counts.length := by
  unfold Histogram.sameConfig
  rw [decide_eq_true_iff, hs.subBucketCount, hl.subBucketCount, hs.unitMagnitude, hl.unitMagnitude,
    hs.length, hl.length]
  refine ⟨?_, ?_⟩
  · rintro ⟨h1, h2, h3⟩
    have h5 := layout_eq_of_fields h2 h3
    exact ⟨h5, by rw [h1, h5]⟩
  · rintro ⟨rfl, h1⟩
    refine ⟨?_, rfl, rfl⟩
    have h2 := Nat.eq_of_mul_eq_mul_right (Nat.two_pow_pos _) h1
    omega

/-- **`add`** of a loaded histogram rejects it for its maximum or returns a histogram that has lost
none of the samples, if they are fewer than `2 ^ 64`. -/
theorem add_spec (hs : Summary h L) (hl : Loaded s M) :
    h.add s = .error (.err .otherAddendValueExceedsRange) ∨
      ∃ g, h.add s = .ok g ∧ Summary g L ∧ ∀ n, Tallied h n → n + s.counts.sum < 2 ^ 64 →
        Tallied g (n + s.counts.sum) := by
  unfold Histogram.add
  rw [makeRoom_eq hs hl]
  by_cases hroom : M.topValue (Slots.last s.counts) ≤ L.highest (h.counts.length - 1)
  · right
    rw [if_pos hroom, ok_bind]
    by_cases hc : h.sameConfig s = true
    · obtain ⟨rfl, hlen⟩ := (sameConfig_iff hs.toSized hl.toSized).1 hc
      exact ⟨_, by rw [if_pos hc, addDirect_eq hs hl hlen], addedDirect_summary hs hl hlen,
        fun n => addedDirect_tallied hl hlen⟩
    · obtain ⟨h1, -, h3⟩ := foldl_recordedFrom (s := s) (M := M) hs fun i hi =>
        slot_low_lt hs hl hroom (le_last_of_mem_addOrder hi)
      rw [sum_addOrder] at h3
      exact ⟨_, by rw [if_neg hc, addByValue_eq hs hl hroom], h1, h3⟩
  · left
    rw [if_neg hroom]
    rfl

end Chist.Hdr
