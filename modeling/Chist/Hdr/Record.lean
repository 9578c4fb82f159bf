import Chist.Hdr.Snapshot

/-!
# Recording samples

`recordN_eq`: recording a value that has a slot adds to the slot and updates the statistics
(`recorded`). `recordSlots_eq`: recording the lower end of every occupied slot, in order, gives the
counts back; its maximum is `recordedTop`, which differs from the maximum of a loaded snapshot
(`topValue`) in two cases: when only slot 0 is occupied, or none, and when the last occupied slot
ends at `2 ^ 64`, both with a unit above 1 (`loadEqualsRecording_iff`).
-/

set_option autoImplicit false

namespace Chist.Hdr

open Res

variable {ε : Type} {fl : Floats} {h : Histogram} {L : LogLinear}

/-! ## One sample -/

def recordedMax (h : Histogram) (v : Nat) : Nat :=
  if h.maxValue < v then max h.maxValue (v ||| h.unitMagnitudeMask) else h.maxValue

def recordedMin (h : Histogram) (v : Nat) : Nat :=
  if v < h.minNonZeroValue ∧ v ≠ 0 ∧ h.unitMagnitudeMask < v then
    min h.minNonZeroValue (v &&& not64 h.unitMagnitudeMask)
  else h.minNonZeroValue

theorem updateMinMax_eq (h : Histogram) (v : Nat) : h.updateMinMax v =
    { h with maxValue := recordedMax h v, minNonZeroValue := recordedMin h v } := by
  have hmax : (if h.maxValue < v then h.updateMax v else h) =
      { h with maxValue := recordedMax h v } := by
    unfold recordedMax
    split
    · rw [updateMax_eq]
    · rfl
  have hmin : ∀ g : Histogram, (if v < g.minNonZeroValue ∧ v ≠ 0 then g.updateMin v else g) =
      { g with minNonZeroValue := recordedMin g v } := by
    intro g
    unfold recordedMin
    by_cases h1 : v < g.minNonZeroValue ∧ v ≠ 0
    · rw [if_pos h1, updateMin_eq]
      by_cases h2 : g.unitMagnitudeMask < v
      · rw [if_neg (Nat.not_le.2 h2), if_pos ⟨h1.1, h1.2, h2⟩]
      · rw [if_pos (Nat.le_of_not_lt h2), if_neg fun h => h2 h.2.2]
    · rw [if_neg h1, if_neg fun h => h1 ⟨h.1, h.2.1⟩]
  unfold Histogram.updateMinMax
  simp only []
  rw [hmax, hmin]
  rfl

/-- `h` with `count` samples of `value` added in slot `i`. -/
def recorded (h : Histogram) (i value count : Nat) : Histogram :=
  { h with
    maxValue := recordedMax h value
    minNonZeroValue := recordedMin h value
    totalCount := satAdd64 h.totalCount count
    counts := h.counts.modify i (satAdd64 · count) }

theorem mutAt_eq (hh : HasLayout h L) {v : Nat} (hv : v < 2 ^ 64)
    (hi : L.slot v < h.counts.length) : h.mutAt (ε := ε) v = .ok (some (L.slot v)) := by
  unfold Histogram.mutAt
  rw [indexFor_eq hh hv, ok_bind]
  simp only [if_pos hi, pure_eq_ok]

/-- **`record_n`** of a value that has a slot. -/
theorem recordN_eq (hh : HasLayout h L) {v : Nat} (hv : v < 2 ^ 64)
    (hi : L.slot v < h.counts.length) (count : Nat) :
    h.recordN v count = .ok (recorded h (L.slot v) v count) := by
  unfold Histogram.recordN Histogram.recordNInner
  rw [mutAt_eq hh hv hi, ok_bind]
  simp only [updateMinMax_eq, pure_eq_ok]
  rfl

theorem recorded_sized (hs : Sized h L) (i v c : Nat) : Sized (recorded h i v c) L :=
  hs.stats (List.length_modify _ _ _) _ _ _

/-! ## The occupied slots, in order -/

/-- Record the lower end of every slot with a non-zero count, with that count. -/
def recordSlots (h : Histogram) (counts : List Nat) : Res RecordError Histogram :=
  counts.zipIdx.foldlM (fun h slot =>
    if slot.1 ≠ 0 then do
      let value ← h.valueFor slot.2
      h.recordN value slot.1
    else .ok h) h

/-- The maximum after recording the lower ends of slots up to slot `i`. -/
def recordedTop (L : LogLinear) (i : Nat) : Nat :=
  if i = 0 then 0 else L.low i + (2 ^ L.unit - 1)

/-- What the slots `is` leave behind in an empty histogram. -/
def recordedAll (h : Histogram) (L : LogLinear) (c : Nat → Nat) (is : List Nat) : Histogram :=
  { h with
    maxValue := recordedTop L (is.getLast?.getD 0)
    minNonZeroValue := minValue L (is.find? (· ≠ 0))
    totalCount := (is.map c).foldl satAdd64 h.totalCount
    counts := is.foldl (fun cs i => cs.modify i (satAdd64 · (c i))) h.counts }

theorem length_foldl_modify (c : Nat → Nat) (is cs : List Nat) :
    (is.foldl (fun cs i => cs.modify i (satAdd64 · (c i))) cs).length = cs.length := by
  induction is generalizing cs with
  | nil => rfl
  | cons i is ih => rw [List.foldl_cons, ih, List.length_modify]

theorem recordedTop_lt {i j : Nat} (hij : i < j) : recordedTop L i < L.low j := by
  have hw := L.unit_le_width i
  have hp := Nat.two_pow_pos L.unit
  have hle := L.low_strictMono.monotone (Nat.succ_le_of_lt hij)
  rw [Nat.succ_eq_add_one, L.low_succ] at hle
  unfold recordedTop
  split
  · exact (L.low_strictMono (Nat.zero_lt_of_lt hij)).trans_le' (Nat.zero_le _)
  · omega

section
variable (hs : Sized h L) (c : Nat → Nat) {is : List Nat} {i : Nat} (hi : i < h.counts.length)
  (hlt : ∀ j ∈ is, j < i)
include hs hlt

theorem recordedMax_recordedAll :
    recordedMax (recordedAll h L c is) (L.low i) = recordedTop L i := by
  have hlast : is = [] ∨ is.getLast?.getD 0 < i := by
    rcases List.eq_nil_or_concat' is with rfl | ⟨is', j, rfl⟩
    · exact .inl rfl
    · right
      simpa using hlt j (by simp)
  unfold recordedMax recordedAll
  simp only [hs.unitMagnitudeMask, low_or_mask]
  by_cases h0 : i = 0
  · subst h0
    rw [L.low_zero, if_neg (Nat.not_lt_zero _)]
    rcases hlast with rfl | h
    · rfl
    · omega
  · have h1 : recordedTop L (is.getLast?.getD 0) < L.low i := by
      refine recordedTop_lt ?_
      rcases hlast with rfl | h
      · exact Nat.pos_of_ne_zero h0
      · exact h
    rw [if_pos h1, max_eq_right (by omega), recordedTop, if_neg h0]

include hi

theorem recordedMin_recordedAll : recordedMin (recordedAll h L c is) (L.low i) =
    minValue L ((is ++ [i]).find? (· ≠ 0)) := by
  have hi64 := hs.low_lt hi
  unfold recordedMin recordedAll
  simp only [hs.unitMagnitudeMask, List.find?_append]
  by_cases h0 : i = 0
  · subst h0
    simp
  · have h1 := unit_le_low (L := L) h0
    have hp := Nat.two_pow_pos L.unit
    rw [low_and_not64 hs.base_le hi64]
    cases hf : is.find? (· ≠ 0) with
    | none =>
      have h2 := low_lt_u64Max hs.base_le hi64
      have h3 : minValue L none = u64Max := rfl
      rw [if_pos ⟨by rw [h3]; exact h2, by omega, by omega⟩, h3, min_eq_right (Nat.le_of_lt h2)]
      simp [h0, minValue]
    | some j =>
      have h2 := L.low_strictMono (hlt j (List.mem_of_find?_eq_some hf))
      rw [if_neg (fun h => Nat.lt_asymm h2 h.1)]
      rfl

theorem recorded_snoc :
    recorded (recordedAll h L c is) i (L.low i) (c i) = recordedAll h L c (is ++ [i]) := by
  have htot : satAdd64 (recordedAll h L c is).totalCount (c i) =
      ((is ++ [i]).map c).foldl satAdd64 h.totalCount := by
    simp [recordedAll]
  have hcnt : (recordedAll h L c is).counts.modify i (satAdd64 · (c i)) =
      (is ++ [i]).foldl (fun cs i => cs.modify i (satAdd64 · (c i))) h.counts := by
    simp [recordedAll]
  unfold recorded
  rw [recordedMax_recordedAll hs c hlt, recordedMin_recordedAll hs c hi hlt, htot, hcnt]
  simp only [recordedAll, List.getLast?_append, List.getLast?_singleton, Option.some_or,
    Option.getD_some]

end

theorem foldlM_recordSlots (hs : Sized h L) {counts : List Nat}
    (hlen : counts.length ≤ h.counts.length) {todo done : List Nat}
    (hd : done ++ todo = Slots.occupied counts) :
    todo.foldlM (fun h i => if counts.getD i 0 ≠ 0 then do
        let value ← h.valueFor i
        h.recordN value (counts.getD i 0)
      else .ok h) (recordedAll h L (counts.getD · 0) done) =
    .ok (recordedAll h L (counts.getD · 0) (done ++ todo)) := by
  induction todo generalizing done with
  | nil =>
    rw [List.append_nil]
    rfl
  | cons i todo ih =>
    have hmem : i ∈ Slots.occupied counts := by simp [← hd]
    have hi : i < h.counts.length := (Slots.lt_length_of_mem hmem).trans_le hlen
    have hi64 := hs.low_lt hi
    have hlt : ∀ j ∈ done, j < i := by
      have hsorted : (Slots.occupied counts).Pairwise (· < ·) := Slots.occupied_sorted
      rw [← hd, List.pairwise_append] at hsorted
      exact fun j hj => hsorted.2.2 j hj i List.mem_cons_self
    have hs' : Sized (recordedAll h L (counts.getD · 0) done) L :=
      hs.stats (length_foldl_modify _ _ _) _ _ _
    have hi' : L.slot (L.low i) < (recordedAll h L (counts.getD · 0) done).counts.length := by
      rw [L.slot_low]
      exact hi.trans_eq (length_foldl_modify _ _ _).symm
    rw [List.foldlM_cons, if_pos (Slots.mem_occupied.1 hmem), valueFor_eq hs'.toHasLayout hi64,
      ok_bind, recordN_eq hs'.toHasLayout hi64 hi', ok_bind, L.slot_low,
      recorded_snoc hs (counts.getD · 0) hi hlt, ih (by simp [← hd])]
    simp

/-- **Recording the slots** of `counts` in an empty histogram. -/
theorem recordSlots_eq (hs : Sized h L) {counts : List Nat}
    (hlen : counts.length ≤ h.counts.length) (hmax : h.maxValue = 0)
    (hmin : h.minNonZeroValue = originalMin) :
    recordSlots h counts =
      .ok (recordedAll h L (counts.getD · 0) (Slots.occupied counts)) := by
  have hnil : h = recordedAll h L (counts.getD · 0) [] := by
    simp only [recordedAll, recordedTop, minValue, List.foldl_nil, List.map_nil, List.getLast?_nil,
      Option.getD_none, List.find?_nil, if_true, ← hmax, ← hmin]
  have hall := foldlM_recordSlots hs hlen (List.nil_append (Slots.occupied counts))
  rw [← hnil] at hall
  unfold recordSlots
  rw [Slots.foldlM_zipIdx _ (fun _ _ => rfl)]
  exact hall

theorem getElem?_foldl_modify (c : Nat → Nat) {is : List Nat} (hnd : is.Nodup) (cs : List Nat)
    (j : Nat) : (is.foldl (fun cs i => cs.modify i (satAdd64 · (c i))) cs)[j]? =
      cs[j]?.map fun a => if j ∈ is then satAdd64 a (c j) else a := by
  induction is generalizing cs with
  | nil => simp
  | cons i is ih =>
    obtain ⟨hi, hnd⟩ := List.nodup_cons.1 hnd
    rw [List.foldl_cons, ih hnd, List.getElem?_modify, Option.map_eq_map, Option.map_map]
    congr 1
    funext a
    by_cases hj : i = j
    · subst hj
      simp [hi]
    · simp [hj, Ne.symm hj]

theorem counts_recordedAll {counts : List Nat} (hzero : h.counts = List.replicate counts.length 0)
    (hlt : ∀ c ∈ counts, c < 2 ^ 64) :
    (recordedAll h L (counts.getD · 0) (Slots.occupied counts)).counts = counts := by
  have hnd : (Slots.occupied counts).Nodup := Slots.occupied_sorted.imp Nat.ne_of_lt
  apply List.ext_getElem?
  intro j
  rw [recordedAll, getElem?_foldl_modify _ hnd, hzero]
  by_cases hj : j < counts.length
  · have hc := hlt _ (List.getElem_mem hj)
    rw [List.getElem?_replicate_of_lt hj, List.getElem?_eq_getElem hj, Option.map_some]
    congr 1
    by_cases hm : j ∈ Slots.occupied counts
    · rw [if_pos hm, List.getD_eq_getElem _ _ hj, satAdd64_eq,
        CapSum.zero_add_of_le (by unfold u64Max; omega)]
    · rw [if_neg hm]
      by_contra hne
      exact hm (Slots.mem_occupied.2 (by rw [List.getD_eq_getElem _ _ hj]; exact Ne.symm hne))
  · rw [List.getElem?_eq_none (by simpa using hj), List.getElem?_eq_none (by simpa using hj)]
    rfl

/-! ## Loading and recording -/

theorem minNz_eq (hh : HasLayout h L) {o : Option Nat} (ho : ∀ i ∈ o, L.low i < 2 ^ 64)
    (hm : h.minNonZeroValue = minValue L o) : h.minNz (ε := ε) = .ok (minValue L o) := by
  unfold Histogram.minNz
  rw [hm]
  cases o with
  | none => rfl
  | some i =>
    have hi := ho i rfl
    rw [minValue, originalMin, if_neg (Nat.ne_of_lt (low_lt_u64Max hh.base_le hi)),
      lowestEquivalent_eq hh hi, L.slot_low]

/-- The maximum recording reports: 0 for slot 0, else the highest value of the slot. -/
theorem max_recordedTop (hh : HasLayout h L) {i : Nat} (hi : L.low i < 2 ^ 64)
    (hm : h.maxValue = recordedTop L i) :
    h.max (ε := ε) = .ok (if i = 0 then 0 else L.highest i) := by
  have hp := Nat.two_pow_pos L.unit
  have hw := L.unit_le_width i
  have hu := unit_le_low (L := L) (i := i)
  have hsucc := L.low_succ i
  have hend := low_succ_le hh.base_le hi
  have hslot : L.slot (L.low i + (2 ^ L.unit - 1)) = i := by
    rw [L.slot_eq_iff]
    omega
  unfold Histogram.max
  rw [hm, recordedTop, originalMax]
  by_cases h0 : i = 0
  · rw [if_pos h0, if_pos rfl, if_pos h0]
  · have hne : L.low i + (2 ^ L.unit - 1) ≠ u64Max := by
      unfold u64Max
      rcases Nat.lt_or_eq_of_le hend with h | h
      · omega
      · have := low_add_one_lt hh.base_le h
        omega
    have := hu h0
    rw [if_neg h0, if_neg (by omega), highestEquivalent_eq hh (by omega), hslot, if_neg hne,
      if_neg h0]

theorem two_pow_sub_one_eq_zero {u : Nat} : 2 ^ u - 1 = 0 ↔ u = 0 := by
  refine ⟨?_, ?_⟩
  · intro h
    by_contra hne
    have := Nat.one_lt_two_pow hne
    omega
  · rintro rfl
    rfl

/-- The two maxima agree except, for a unit above 1, at slot 0 and at the end of `u64`. -/
theorem topValue_eq_recorded (hb : L.base ≤ 63) {i : Nat} (hi : L.low i < 2 ^ 64) :
    L.topValue i = (if i = 0 then 0 else L.highest i) ↔
      L.unit = 0 ∨ (i ≠ 0 ∧ L.low (i + 1) < 2 ^ 64) := by
  by_cases h0 : i = 0
  · subst h0
    rw [topValue_zero hb, if_pos rfl, two_pow_sub_one_eq_zero]
    simp
  rw [if_neg h0]
  rcases Nat.lt_or_eq_of_le (low_succ_le hb hi) with h | h
  · rw [topValue_of_lt h, highest_of_lt h]
    exact iff_of_true rfl (.inr ⟨h0, h⟩)
  · rw [topValue_of_eq h, highest_of_eq h, h]
    unfold u64Max
    by_cases hu : L.unit = 0 <;> simp [hu]

/-- Loading the snapshot gives a histogram equal (by `PartialEq`) to the one that creating it with
the same bounds and recording its slots gives. -/
def LoadEqualsRecording (fl : Floats) (s : HistogramSnapshot) : Prop :=
  ∃ h0 h r, Histogram.newWithBounds fl s.lowestTrackableValue.toNat
      s.highestTrackableValue.toNat s.significantFigures.toNat = .ok h0 ∧
    Histogram.newFromSnapshot fl s = .ok h ∧ recordSlots h0 s.countList = .ok r ∧
    h.eq (ε := Empty) r = .ok true

theorem eq_of_max {h g : Histogram} {mx mg mn : Nat}
    (hlow : h.lowestDiscernibleValue = g.lowestDiscernibleValue)
    (hsig : h.significantValueDigits = g.significantValueDigits)
    (htot : h.totalCount = g.totalCount) (hcnt : h.counts = g.counts)
    (hmax : h.max (ε := ε) = .ok mx) (gmax : g.max (ε := ε) = .ok mg)
    (hmin : h.minNz (ε := ε) = .ok mn) (gmin : g.minNz (ε := ε) = .ok mn) :
    h.eq g = .ok (ε := Stop ε) (decide (mx = mg)) := by
  have hall : ((List.range h.counts.length).all fun i => h.counts[i]? = g.countAtIndex i) =
      true := by
    simp [Histogram.countAtIndex, hcnt]
  unfold Histogram.eq
  simp only [hlow, hsig, htot, ne_eq, not_true_eq_false, or_self, if_false, pure_eq_ok, hmax, gmax,
    ok_bind, hmin, gmin, hall]
  by_cases h : mx = mg <;> simp [h]

/-- The last slot ends at `2 ^ 64` exactly when the highest trackable value needs 64 bits. -/
theorem low_bins_lt_iff (hb : L.base ≤ 63) {high : Nat} (hhigh : high < 2 ^ 64) :
    L.low (L.bins (bucketsFor L high)) < 2 ^ 64 ↔ high < 2 ^ 63 := by
  have hsz := size_le_64 hhigh
  rw [bucketsFor, Nat.add_comm, L.low_bins, Nat.pow_lt_pow_iff_right (by decide), ← Nat.size_le]
  omega

/-- Slot by slot recording of the counts of a well-sized snapshot. -/
def HistogramSnapshot.recorded (fl : Floats) (s : HistogramSnapshot) : Histogram :=
  recordedAll (fresh fl s.lowestTrackableValue.toNat s.highestTrackableValue.toNat
    s.significantFigures.toNat) (s.layout fl) (s.countList.getD · 0) (Slots.occupied s.countList)

section
variable {s : HistogramSnapshot} (hb : s.BoundsOk fl) (hlen : s.counts.length = s.binsNeeded fl)
include hb hlen

theorem recordSlots_snapshot : recordSlots (fresh fl s.lowestTrackableValue.toNat
    s.highestTrackableValue.toNat s.significantFigures.toNat) s.countList =
      .ok (s.recorded fl) := by
  have hs := fresh_sized hb s.highestTrackableValue.toNat_lt
  have hle : s.countList.length = s.binsNeeded fl := (List.length_map _).trans hlen
  exact recordSlots_eq hs (hle.trans hs.length.symm).le rfl rfl

theorem loaded_eq_recorded : (s.loaded fl).eq (s.recorded fl) = .ok (ε := Stop ε)
    (decide ((s.layout fl).topValue (Slots.last s.countList) =
      if Slots.last s.countList = 0 then 0
      else (s.layout fl).highest (Slots.last s.countList))) := by
  have hl := loaded_loaded hb hlen
  have hr : HasLayout (s.recorded fl) (s.layout fl) := (fresh_hasLayout hb).stats _ _ _ _
  have hcounts : (s.recorded fl).counts = s.countList := by
    refine counts_recordedAll ?_ countList_lt
    rw [show s.countList.length = s.binsNeeded fl from (List.length_map _).trans hlen]
    rfl
  have htotal : (s.recorded fl).totalCount = min s.countList.sum u64Max := by
    calc (s.recorded fl).totalCount
        = ((Slots.occupied s.countList).map (s.countList.getD · 0)).foldl
            (CapSum.add u64Max) 0 := rfl
      _ = min s.countList.sum u64Max := by
        rw [CapSum.foldl_add _ (Nat.zero_le _), Slots.sum_occupied, Nat.zero_add]
  have hlast : (s.layout fl).low (Slots.last s.countList) < 2 ^ 64 :=
    hl.toSized.low_lt (Slots.last_lt_length hl.toSized.length_pos)
  have hfirst : ∀ i ∈ Slots.firstNonzero s.countList, (s.layout fl).low i < 2 ^ 64 := fun i hi =>
    hl.toSized.low_lt (Slots.lt_length_of_mem (List.mem_of_find?_eq_some hi))
  exact eq_of_max rfl rfl htotal.symm hcounts.symm (max_eq hl.toHasLayout hlast rfl)
    (max_recordedTop hr hlast rfl) (minNz_eq hl.toHasLayout hfirst rfl) (minNz_eq hr hfirst rfl)

/-- The last occupied slot ends before `2 ^ 64`, or it is the last slot of all. -/
theorem low_last_succ_lt_iff :
    (s.layout fl).low (Slots.last s.countList + 1) < 2 ^ 64 ↔
      s.highestTrackableValue.toNat < 2 ^ 63 ∨ s.countList.getLast? = some 0 := by
  have hs := loaded_sized hb hlen
  have hle : s.countList.length = s.binsNeeded fl := (List.length_map _).trans hlen
  have hpos : 0 < s.countList.length := hs.length_pos
  have hlt := Slots.last_lt_length hpos
  rw [← low_bins_lt_iff hs.base_le s.highestTrackableValue.toNat_lt]
  change _ ↔ (s.layout fl).low (s.binsNeeded fl) < 2 ^ 64 ∨ _
  rw [← hle, List.getLast?_eq_getElem?]
  rcases Nat.lt_or_eq_of_le (Nat.succ_le_of_lt hlt) with h | h
  · -- a later slot follows, and it is empty
    have hzero : s.countList[s.countList.length - 1]? = some 0 := by
      rw [List.getElem?_eq_getElem (by omega), Option.some_inj]
      by_contra hc
      have : s.countList.length - 1 ≤ Slots.last s.countList :=
        Slots.le_last (by rwa [List.getD_eq_getElem _ _ (by omega)])
      omega
    exact iff_of_true (hs.low_lt h) (.inr hzero)
  · have hne : s.countList.getD (Slots.last s.countList) 0 ≠ 0 := by
      refine Slots.getD_last_ne_zero fun h0 => ?_
      have h2 : 2 ≤ s.countList.length := hs.two_le_length
      have hzero : Slots.last s.countList = 0 := by simp [Slots.last, h0]
      omega
    rw [← h, Nat.succ_eq_add_one, Nat.add_sub_cancel, List.getElem?_eq_getElem hlt,
      ← List.getD_eq_getElem _ 0 hlt, Option.some_inj]
    exact ⟨.inl, fun h => h.resolve_right hne⟩

end

/-- The unit is 1 only when the lowest trackable value is. -/
theorem floorLog2_eq_zero_iff (fl : Floats) {low : Nat} (h1 : 1 ≤ low) (h2 : low ≤ u64Max / 2) :
    fl.floorLog2 low = 0 ↔ low = 1 := by
  have hnear := fl.floorLog2_near low h1 (by unfold u64Max at h2; omega)
  refine ⟨?_, ?_⟩
  · intro h
    have hlog : low.log2 < 1 := by omega
    have := (Nat.log2_lt (by omega)).1 hlog
    omega
  · rintro rfl
    exact fl.floorLog2_exact 1 (by decide) (by decide)

/-- **Loading equals recording exactly when** the lowest trackable value is 1, or a slot past
slot 0 is occupied and the last slot, should it end at `2 ^ 64`, is not. -/
theorem loadEqualsRecording_iff (fl : Floats) (s : HistogramSnapshot) {h0 : Histogram}
    (hnew : Histogram.newWithBounds fl s.lowestTrackableValue.toNat
      s.highestTrackableValue.toNat s.significantFigures.toNat = .ok h0)
    (hlen : s.counts.length = h0.counts.length) :
    LoadEqualsRecording fl s ↔ s.lowestTrackableValue.toNat = 1 ∨
      ((∃ i, 0 < i ∧ s.countList.getD i 0 ≠ 0) ∧
        (s.highestTrackableValue.toNat < 2 ^ 63 ∨ s.countList.getLast? = some 0)) := by
  obtain ⟨hb, rfl⟩ := newWithBounds_eq_ok s.highestTrackableValue.toNat_lt hnew
  have hlen : s.counts.length = s.binsNeeded fl := hlen.trans List.length_replicate
  have hs := loaded_sized hb hlen
  have hlast : (s.layout fl).low (Slots.last s.countList) < 2 ^ 64 :=
    hs.low_lt (Slots.last_lt_length hs.length_pos)
  have hmax : LoadEqualsRecording fl s ↔
      (s.layout fl).topValue (Slots.last s.countList) = if Slots.last s.countList = 0 then 0
        else (s.layout fl).highest (Slots.last s.countList) := by
    refine ⟨?_, ?_⟩
    · rintro ⟨h0, h, r, h1, h2, h3, h4⟩
      rw [newWithBounds_ok hb s.highestTrackableValue.toNat_lt, Except.ok.injEq] at h1
      rw [newFromSnapshot_ok hb hlen, Except.ok.injEq] at h2
      rw [← h1, recordSlots_snapshot hb hlen, Except.ok.injEq] at h3
      rw [← h2, ← h3, loaded_eq_recorded hb hlen, Except.ok.injEq] at h4
      exact of_decide_eq_true h4
    · intro h
      refine ⟨_, _, _, newWithBounds_ok hb s.highestTrackableValue.toNat_lt,
        newFromSnapshot_ok hb hlen, recordSlots_snapshot hb hlen, ?_⟩
      rw [loaded_eq_recorded hb hlen, decide_eq_true h]
  rw [hmax, topValue_eq_recorded hs.base_le hlast, ← Slots.last_ne_zero_iff,
    ← floorLog2_eq_zero_iff fl hb.1 hb.2.1]
  exact or_congr Iff.rfl (and_congr_right fun _ => low_last_succ_lt_iff hb hlen)

/-- Samples past slot 0, and a highest trackable value below `2 ^ 63`. -/
theorem loadEqualsRecording_iff_two : LoadEqualsRecording .exact ⟨2, 4, 0, [0, 3, 0]⟩ ↔
    (2 : UInt64).toNat = 1 ∨ ((∃ i, 0 < i ∧ ([0, 3, 0] : List Nat).getD i 0 ≠ 0) ∧
      ((4 : UInt64).toNat < 2 ^ 63 ∨ ([0, 3, 0] : List Nat).getLast? = some 0)) :=
  loadEqualsRecording_iff .exact ⟨2, 4, 0, [0, 3, 0]⟩
    (show Histogram.newWithBounds .exact 2 4 0 = .ok (fresh .exact 2 4 0) by decide +kernel)
    (by decide +kernel)

/-- Of a snapshot without samples and a unit of 2, the maximum loads as 1. -/
theorem loadEqualsRecording_fails : ¬ LoadEqualsRecording .exact ⟨2, 4, 0, [0, 0, 0]⟩ := by
  rintro ⟨h0, h, r, h1, h2, h3, h4⟩
  have e1 : Histogram.newWithBounds .exact 2 4 0 = .ok (fresh .exact 2 4 0) := by decide +kernel
  have e2 : Histogram.newFromSnapshot .exact ⟨2, 4, 0, [0, 0, 0]⟩ =
      .ok (loadedOf .exact 2 4 0 [0, 0, 0]) := by decide +kernel
  have e3 : recordSlots (fresh .exact 2 4 0) [0, 0, 0] = .ok (fresh .exact 2 4 0) := by
    decide +kernel
  have e4 : (loadedOf .exact 2 4 0 [0, 0, 0]).eq (fresh .exact 2 4 0) =
      .ok (ε := Stop Empty) false := by decide +kernel
  cases h1.symm.trans e1
  cases h2.symm.trans e2
  cases h3.symm.trans e3
  cases h4.symm.trans e4

end Chist.Hdr
