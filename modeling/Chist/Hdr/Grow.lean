import Chist.Hdr.Coherent

/-!
# Recording in a histogram that grows

`recordN_grows`: an auto-resizing histogram records every `u64`; a value past the last slot first
makes it grow to `grown`, whose new slots are empty. Recording keeps a histogram coherent whether
it grows, clamps or does neither (`recorded_coherent`, `grown_coherent`).
-/

set_option autoImplicit false

namespace Chist.Hdr

open Res

variable {ε : Type} {fl : Floats} {h : Histogram} {L : LogLinear}

/-! ## Slots and the unit mask -/

theorem low_one (hb : L.base ≤ 63) : L.low 1 = 2 ^ L.unit := by
  have h := topValue_zero hb
  have hp := Nat.two_pow_pos L.unit
  rw [L.low_succ 0, L.low_zero, L.width_first (by simp [LogLinear.slotBucket]), Nat.zero_add]

theorem slot_eq_zero_iff (hb : L.base ≤ 63) {v : Nat} : L.slot v = 0 ↔ v ≤ 2 ^ L.unit - 1 := by
  have hp := Nat.two_pow_pos L.unit
  have hlt : L.slot v < 1 ↔ v < L.low 1 := L.slot_lt_iff
  rw [low_one hb] at hlt
  omega

/-- A value rounded to either end of its unit stays in its slot. -/
theorem slot_of_div_eq {v w : Nat} (h : w / 2 ^ L.unit = v / 2 ^ L.unit) :
    L.slot w = L.slot v := by
  have hp := Nat.two_pow_pos L.unit
  obtain ⟨h1, h2⟩ := L.slot_eq_iff.1 (rfl : L.slot v = L.slot v)
  obtain ⟨q1, hq1⟩ := L.unit_dvd_low (L.slot v)
  obtain ⟨q2, hq2⟩ := L.unit_dvd_low (L.slot v + 1)
  rw [hq1, Nat.mul_comm, ← Nat.le_div_iff_mul_le hp] at h1
  rw [hq2, Nat.mul_comm, ← Nat.div_lt_iff_lt_mul hp] at h2
  rw [L.slot_eq_iff, hq1, hq2, Nat.mul_comm, ← Nat.le_div_iff_mul_le hp, Nat.mul_comm,
    ← Nat.div_lt_iff_lt_mul hp, h]
  exact ⟨h1, h2⟩

theorem slot_or_mask (v : Nat) : L.slot (v ||| (2 ^ L.unit - 1)) = L.slot v := by
  have hp := Nat.two_pow_pos L.unit
  refine slot_of_div_eq ?_
  rw [Nat.or_div_two_pow, Nat.div_eq_of_lt (a := 2 ^ L.unit - 1) (by omega), Nat.or_zero]

theorem slot_and_not64 (hb : L.base ≤ 63) {v : Nat} (hv : v < 2 ^ 64) :
    L.slot (v &&& not64 (2 ^ L.unit - 1)) = L.slot v := by
  refine slot_of_div_eq ?_
  rw [and_not64_mask hv (by unfold LogLinear.base at hb; omega),
    Nat.mul_div_cancel _ (Nat.two_pow_pos _)]

/-! ## The statistics after one sample -/

section
variable (hh : HasLayout h L) {v : Nat}
include hh

theorem slot_recordedMax :
    L.slot (recordedMax h v) = max (L.slot h.maxValue) (L.slot v) := by
  unfold recordedMax
  rw [hh.unitMagnitudeMask]
  split
  · rename_i hlt
    have hle : v ≤ v ||| (2 ^ L.unit - 1) := Nat.left_le_or
    rw [max_eq_right (by omega), slot_or_mask, max_eq_right (L.slot_mono (Nat.le_of_lt hlt))]
  · rename_i hle
    rw [max_eq_left (L.slot_mono (Nat.le_of_not_lt hle))]

/-- Slot 0 has no part in the minimum. -/
theorem recordedMin_of_slot_eq_zero (h0 : L.slot v = 0) : recordedMin h v = h.minNonZeroValue := by
  have hle := (slot_eq_zero_iff hh.base_le).1 h0
  unfold recordedMin
  rw [hh.unitMagnitudeMask, if_neg fun hc => Nat.not_le.2 hc.2.2 hle]

theorem slot_recordedMin (hv : v < 2 ^ 64) (h0 : L.slot v ≠ 0) :
    L.slot (recordedMin h v) = min (L.slot h.minNonZeroValue) (L.slot v) := by
  have hmask : 2 ^ L.unit - 1 < v := by
    rw [ne_eq, slot_eq_zero_iff hh.base_le] at h0
    omega
  unfold recordedMin
  rw [hh.unitMagnitudeMask]
  by_cases hlt : v < h.minNonZeroValue
  · have hle : v &&& not64 (2 ^ L.unit - 1) ≤ v := Nat.and_le_left
    rw [if_pos ⟨hlt, by omega, hmask⟩, min_eq_right (by omega), slot_and_not64 hh.base_le hv,
      min_eq_right (L.slot_mono (Nat.le_of_lt hlt))]
  · rw [if_neg fun hc => hlt hc.1, min_eq_left (L.slot_mono (Nat.le_of_not_lt hlt))]

end

/-! ## Occupied slots after one sample -/

theorem getD_modify {counts : List Nat} {i : Nat} (hi : i < counts.length) (f : Nat → Nat)
    (j : Nat) : (counts.modify i f).getD j 0 =
      if i = j then f (counts.getD j 0) else counts.getD j 0 := by
  rw [List.getD_eq_getElem?_getD, List.getElem?_modify, List.getD_eq_getElem?_getD]
  by_cases hj : i = j
  · subst hj
    simp [hi]
  · simp [hj]

theorem occ_modify {counts : List Nat} {i c : Nat} (hi : i < counts.length) (hc : 0 < c) :
    occ (counts.modify i (satAdd64 · c)) = insert i (occ counts) := by
  ext j
  rw [Set.mem_insert_iff, mem_occ, mem_occ, getD_modify hi]
  by_cases hj : i = j
  · subst hj
    have hne : satAdd64 (counts.getD i 0) c ≠ 0 := by
      unfold satAdd64 u64Max
      omega
    simpa using hne
  · simp [hj, Ne.symm hj]

theorem getD_append_replicate (counts : List Nat) (n j : Nat) :
    (counts ++ List.replicate n 0).getD j 0 = counts.getD j 0 := by
  by_cases hj : j < counts.length
  · rw [List.getD_append _ _ _ _ hj]
  · rw [List.getD_append_right _ _ _ _ (Nat.le_of_not_lt hj),
      List.getD_eq_default counts _ (Nat.le_of_not_lt hj), List.getD_eq_getElem?_getD,
      List.getElem?_replicate]
    split <;> rfl

theorem occ_append_replicate (counts : List Nat) (n : Nat) :
    occ (counts ++ List.replicate n 0) = occ counts := by
  ext j
  rw [mem_occ, mem_occ, getD_append_replicate]

section
variable {v c : Nat} (hv : v < 2 ^ 64) (hc : 0 < c)
  (hi : (h.layout fl).slot v < h.counts.length)
include hv hc hi

theorem recorded_kept (hk : Kept fl h) : Kept fl (recorded h ((h.layout fl).slot v) v c) := by
  have hocc := occ_modify hi hc
  refine ⟨hk.toShaped.stats (List.length_modify _ _ _) _ _ _, fun x hx => ?_, ?_,
    recordedMax_lt hk.toHasLayout hk.maxValue_lt hv, ?_,
    (recordedMin_le h v).trans_lt hk.minNonZeroValue_lt, ?_, fun j hj => ?_, fun hsub => ?_⟩
  · obtain ⟨j, hj, rfl⟩ := List.mem_iff_getElem.1 hx
    simp only [recorded, List.getElem_modify]
    split
    · exact Nat.lt_of_le_of_lt (CapSum.add_le _ _) (by decide)
    · exact hk.counts_lt _ (List.getElem_mem _)
  · have hsum := CapSum.min_sum_modify (c := u64Max) h.counts hi c
    simp only [recorded, satAdd64_eq, CapSum.add, hk.totalCount] at hsum ⊢
    omega
  · change IsGreatest (insert 0 (occ (h.counts.modify _ (satAdd64 · c)))) _
    rw [hocc, Set.insert_comm, show (recorded h _ v c).layout fl = h.layout fl from rfl]
    change IsGreatest _ ((h.layout fl).slot (recordedMax h v))
    rw [slot_recordedMax hk.toHasLayout, max_comm]
    exact hk.maxSlot.insert _
  · change (h.layout fl).slot (recordedMin h v) ≠ 0
    have hpos := hk.minPos
    by_cases h0 : (h.layout fl).slot v = 0
    · rwa [recordedMin_of_slot_eq_zero hk.toHasLayout h0]
    · rw [slot_recordedMin hk.toHasLayout hv h0]
      omega
  · obtain ⟨hj, hj0⟩ := hj
    change (h.layout fl).slot (recordedMin h v) ≤ j
    have hbound : j ∈ occ h.counts → (h.layout fl).slot h.minNonZeroValue ≤ j :=
      fun hm => hk.minBound ⟨hm, hj0⟩
    change j ∈ occ (h.counts.modify _ (satAdd64 · c)) at hj
    rw [hocc] at hj
    by_cases h0 : (h.layout fl).slot v = 0
    · rw [recordedMin_of_slot_eq_zero hk.toHasLayout h0]
      exact hbound (hj.resolve_left fun he => hj0 (he.trans h0))
    · rw [slot_recordedMin hk.toHasLayout hv h0]
      rcases hj with rfl | hj
      · exact min_le_right _ _
      · exact (min_le_left _ _).trans (hbound hj)
  · change occ (h.counts.modify _ (satAdd64 · c)) ⊆ {0} at hsub
    rw [hocc, Set.insert_subset_iff] at hsub
    exact (recordedMin_of_slot_eq_zero hk.toHasLayout hsub.1).trans (hk.minEmpty hsub.2)

/-- **Recording a sample keeps a histogram coherent.** -/
theorem recorded_coherent (hh : Coherent fl h) :
    Coherent fl (recorded h ((h.layout fl).slot v) v c) := by
  have hocc := occ_modify hi hc
  refine ⟨recorded_kept hv hc hi hh.toKept, fun hsub => ?_⟩
  change ¬ occ (h.counts.modify _ (satAdd64 · c)) ⊆ {0} at hsub
  change (h.layout fl).slot (recordedMin h v) ∈ occ (h.counts.modify _ (satAdd64 · c)) \ {0}
  rw [hocc] at hsub ⊢
  by_cases h0 : (h.layout fl).slot v = 0
  · rw [Set.insert_subset_iff, not_and] at hsub
    obtain ⟨hmem, hne⟩ := hh.minSlot (hsub h0)
    rw [recordedMin_of_slot_eq_zero hh.toHasLayout h0]
    exact ⟨.inr hmem, hne⟩
  · rw [slot_recordedMin hh.toHasLayout hv h0]
    rcases Nat.lt_or_ge ((h.layout fl).slot h.minNonZeroValue) ((h.layout fl).slot v) with hlt | hle
    · -- an earlier slot is occupied
      rw [min_eq_left (Nat.le_of_lt hlt)]
      have hne : ¬ occ h.counts ⊆ {0} := by
        intro hempty
        rw [hh.minEmpty hempty] at hlt
        exact Nat.not_le.2 hlt (hh.toSized.le_slot_u64Max hi)
      obtain ⟨hmem, hne⟩ := hh.minSlot hne
      exact ⟨.inr hmem, hne⟩
    · rw [min_eq_right hle]
      exact ⟨.inl rfl, h0⟩

end

/-! ## Many samples -/

/-- The samples `ps`, values with their counts, recorded one after the other. -/
def recordedSeq (L : LogLinear) (h : Histogram) (ps : List (Nat × Nat)) : Histogram :=
  ps.foldl (fun g p => recorded g (L.slot p.1) p.1 p.2) h

/-- The samples of `ps` in slot `j`. -/
def samplesIn (L : LogLinear) (ps : List (Nat × Nat)) (j : Nat) : Nat :=
  ((ps.filter fun p => L.slot p.1 = j).map Prod.snd).sum

/-- What taking in the samples `ps` makes of `h`. -/
structure Taken (fl : Floats) (h : Histogram) (ps : List (Nat × Nat)) (g : Histogram) : Prop where
  kept : Kept fl g
  coherent : Coherent fl h → Coherent fl g
  layout : g.layout fl = h.layout fl
  autoResize : g.autoResize = h.autoResize
  length : g.counts.length = h.counts.length
  totalCount : g.totalCount = satAdd64 h.totalCount (ps.map Prod.snd).sum
  counts : ∀ j, g.counts.getD j 0 = satAdd64 (h.counts.getD j 0) (samplesIn (h.layout fl) ps j)

theorem samplesIn_cons (L : LogLinear) (p : Nat × Nat) (ps : List (Nat × Nat)) (j : Nat) :
    samplesIn L (p :: ps) j = (if L.slot p.1 = j then p.2 else 0) + samplesIn L ps j := by
  unfold samplesIn
  by_cases hj : L.slot p.1 = j
  · rw [if_pos hj, List.filter_cons_of_pos (by simpa using hj), List.map_cons, List.sum_cons]
  · rw [if_neg hj, List.filter_cons_of_neg (by simpa using hj), Nat.zero_add]

theorem recordedSeq_taken {ps : List (Nat × Nat)} (hk : Kept fl h)
    (hps : ∀ p ∈ ps, p.1 < 2 ^ 64 ∧ (h.layout fl).slot p.1 < h.counts.length ∧ 0 < p.2) :
    Taken fl h ps (recordedSeq (h.layout fl) h ps) := by
  induction ps generalizing h with
  | nil =>
    refine ⟨hk, id, rfl, rfl, rfl, ?_, fun j => ?_⟩
    · exact (CapSum.add_zero_of_le hk.totalCount_le).symm
    · exact (CapSum.add_zero_of_le (hk.getD_le j)).symm
  | cons p ps ih =>
    obtain ⟨⟨hv, hi, hc⟩, hps⟩ := List.forall_mem_cons.1 hps
    have hlen : (recorded h ((h.layout fl).slot p.1) p.1 p.2).counts.length = h.counts.length :=
      List.length_modify _ _ _
    have htaken := ih (h := recorded h ((h.layout fl).slot p.1) p.1 p.2)
      (recorded_kept hv hc hi hk) (by rw [hlen]; exact hps)
    refine ⟨htaken.kept, fun hh => htaken.coherent (recorded_coherent hv hc hi hh),
      htaken.layout, htaken.autoResize, htaken.length.trans hlen, ?_, fun j => ?_⟩
    · rw [List.map_cons, List.sum_cons]
      refine htaken.totalCount.trans ?_
      change satAdd64 (satAdd64 h.totalCount p.2) _ = _
      unfold satAdd64
      omega
    · rw [samplesIn_cons]
      refine (htaken.counts j).trans ?_
      change satAdd64 ((h.counts.modify _ (satAdd64 · p.2)).getD j 0) (samplesIn (h.layout fl) ps j)
        = _
      rw [getD_modify hi]
      have hle := hk.getD_le j
      unfold satAdd64
      split <;> omega

/-! ## Growing -/

/-- `h` with the buckets of `value` and a highest trackable value of `high`. -/
def grown (fl : Floats) (h : Histogram) (value high : Nat) : Histogram :=
  let n := bucketsFor (h.layout fl) value
  { h with
    bucketCount := n
    highestTrackableValue := high
    counts := h.counts ++ List.replicate ((h.layout fl).bins n - h.counts.length) 0 }

/-- The highest trackable value after growing for `value`: that of the last slot. -/
def grownHigh (fl : Floats) (h : Histogram) (value : Nat) : Nat :=
  let L := h.layout fl
  L.highest (L.bins (bucketsFor L value) - 1)

/-- The slots for `v` end at a power of two. -/
theorem low_bins_bucketsFor (L : LogLinear) (v : Nat) :
    L.low (L.bins (bucketsFor L v)) = 2 ^ Max.max L.base v.size := by
  rw [bucketsFor, Nat.add_comm, L.low_bins]
  congr 1
  omega

theorem bins_pos (L : LogLinear) (n : Nat) : 0 < L.bins n :=
  Nat.mul_pos (Nat.succ_pos n) (Nat.two_pow_pos _)

/-- The last slot calls for as many buckets as `v`. -/
theorem bucketsFor_grownHigh (hb : (h.layout fl).base ≤ 63) {v : Nat} (hv : v < 2 ^ 64) :
    bucketsFor (h.layout fl) (grownHigh fl h v) = bucketsFor (h.layout fl) v := by
  have hsz := size_le_64 hv
  have hpos := bins_pos (h.layout fl) (bucketsFor (h.layout fl) v)
  have hend := low_bins_bucketsFor (h.layout fl) v
  have hbase : (h.layout fl).base = (h.layout fl).unit + (h.layout fl).half + 1 := rfl
  generalize hm : Max.max (h.layout fl).base v.size = m at hend
  have hpow : 2 ^ m = 2 * 2 ^ (m - 1) := by
    rw [← Nat.pow_succ', Nat.succ_eq_add_one, Nat.sub_add_cancel (by omega)]
  have hle : 2 ^ m ≤ 2 ^ 64 := Nat.pow_le_pow_right (by decide) (by omega)
  have hge : 1 ≤ 2 ^ (m - 1) := Nat.two_pow_pos _
  have hhigh : grownHigh fl h v = min (2 ^ m) u64Max - 1 := by
    unfold grownHigh LogLinear.highest
    simp only []
    rw [Nat.sub_add_cancel hpos, hend]
  have hsize : (grownHigh fl h v).size = m := by
    apply Nat.le_antisymm
    · rw [Nat.size_le, hhigh]
      omega
    · have hlt : m - 1 < (grownHigh fl h v).size := by
        rw [Nat.lt_size, hhigh]
        -- the cap only matters at 64 bits, where a half is far below it
        by_cases h64 : m = 64
        · subst h64
          decide
        · have : 2 ^ m ≤ 2 ^ 63 := Nat.pow_le_pow_right (by decide) (by omega)
          unfold u64Max
          omega
      omega
  unfold bucketsFor
  omega

theorem length_le_bins {v : Nat} (hi : h.counts.length ≤ L.slot v) :
    h.counts.length ≤ L.bins (bucketsFor L v) :=
  Nat.le_of_lt (hi.trans_lt (slot_lt_bins (Nat.le_refl v)))

theorem Shaped.highest_lt_of_length_le (hs : Shaped fl h) {v : Nat}
    (hi : h.counts.length ≤ (h.layout fl).slot v) : h.highestTrackableValue < v := by
  by_contra hle
  have hlt := slot_lt_bins (L := h.layout fl) (Nat.le_of_not_lt hle)
  rw [← hs.bucketCount, ← hs.length] at hlt
  omega

section
variable {v : Nat} (hlen : h.counts.length ≤ (h.layout fl).bins (bucketsFor (h.layout fl) v))
include hlen

theorem length_grown (high : Nat) : (grown fl h v high).counts.length =
    (h.layout fl).bins (bucketsFor (h.layout fl) v) := by
  simp only [grown, List.length_append, List.length_replicate]
  omega

variable (hs : Shaped fl h) (hv : v < 2 ^ 64)
include hs hv

/-- **`resize`** to a value that calls for no fewer slots. -/
theorem resize_grown (hlow : 2 * h.lowestDiscernibleValue ≤ v) :
    h.resize v = .ok (grown fl h v v) := by
  have hcounts : Histogram.resizeCounts h.counts
      ((h.layout fl).bins (bucketsFor (h.layout fl) v)) = (grown fl h v v).counts := by
    rw [Histogram.resizeCounts, List.take_of_length_le hlen]
    rfl
  rw [resize_eq hs.toHasLayout hlow hv, hcounts]
  rfl

theorem grown_shaped {high : Nat} (hhigh : high < 2 ^ 64)
    (hlow : 2 * h.lowestDiscernibleValue ≤ high)
    (hbuckets : bucketsFor (h.layout fl) high = bucketsFor (h.layout fl) v) :
    Shaped fl (grown fl h v high) where
  toHasLayout := by
    have hl := hs.toHasLayout
    exact ⟨hl.1, hl.2, hl.3, hl.4, hl.5, hl.6, hl.7, hl.8, hl.9⟩
  bucketCount_pos := Nat.le_add_right _ _
  bucketCount_le := bucketsFor_le hs.base_le hv
  length := length_grown hlen high
  boundsOk := ⟨hs.boundsOk.1, hs.boundsOk.2.1, hlow, hs.boundsOk.2.2.2⟩
  highest_lt := hhigh
  bucketCount := hbuckets.symm

end

theorem occ_grown (h : Histogram) (v high : Nat) : occ (grown fl h v high).counts = occ h.counts :=
  occ_append_replicate _ _

/-- New slots are empty, so they change no statistics. -/
theorem grown_kept (hk : Kept fl h) {v high : Nat} (hs : Shaped fl (grown fl h v high)) :
    Kept fl (grown fl h v high) where
  toShaped := hs
  counts_lt := by
    intro c hc
    rcases List.mem_append.1 hc with hc | hc
    · exact hk.counts_lt c hc
    · rw [List.eq_of_mem_replicate hc]
      decide
  totalCount := by
    change h.totalCount = min (h.counts ++ List.replicate _ 0).sum u64Max
    simp [hk.totalCount]
  maxValue_lt := hk.maxValue_lt
  maxSlot := by
    rw [occ_grown]
    exact hk.maxSlot
  minNonZeroValue_lt := hk.minNonZeroValue_lt
  minPos := hk.minPos
  minBound := by
    rw [occ_grown]
    exact hk.minBound
  minEmpty hsub := by
    rw [occ_grown] at hsub
    exact hk.minEmpty hsub

theorem grown_coherent (hc : Coherent fl h) {v high : Nat} (hs : Shaped fl (grown fl h v high)) :
    Coherent fl (grown fl h v high) := by
  refine ⟨grown_kept hc.toKept hs, fun hsub => ?_⟩
  rw [occ_grown] at hsub ⊢
  exact hc.minSlot hsub

/-! ## `record_n` -/

theorem modify_congr {α : Type} {l : List α} {i : Nat} {f g : α → α}
    (h : ∀ a, l[i]? = some a → f a = g a) : l.modify i f = l.modify i g := by
  apply List.ext_getElem?
  intro j
  rw [List.getElem?_modify, List.getElem?_modify]
  by_cases hj : i = j
  · subst hj
    cases hl : l[i]? with
    | none => rfl
    | some a => simp [h a hl]
  · simp [hj]

theorem mutAt_none (hh : HasLayout h L) {v : Nat} (hv : v < 2 ^ 64)
    (hi : h.counts.length ≤ L.slot v) : h.mutAt (ε := ε) v = .ok none := by
  unfold Histogram.mutAt
  rw [indexFor_eq hh hv, ok_bind]
  simp only [if_neg (Nat.not_lt.2 hi), pure_eq_ok]

/-- `h` as `record_n` makes room for `value`. -/
def roomFor (fl : Floats) (h : Histogram) (value : Nat) : Histogram :=
  if (h.layout fl).slot value < h.counts.length then h
  else grown fl h value (grownHigh fl h value)

theorem roomFor_layout (h : Histogram) (v : Nat) : (roomFor fl h v).layout fl = h.layout fl := by
  unfold roomFor
  split <;> rfl

section
variable {v : Nat} (hv : v < 2 ^ 64)
include hv

theorem grownHigh_shaped (hi : h.counts.length ≤ (h.layout fl).slot v) (hs : Shaped fl h) :
    Shaped fl (grown fl h v (grownHigh fl h v)) := by
  have hhigh := hs.highest_lt_of_length_le hi
  have hpos := bins_pos (h.layout fl) (bucketsFor (h.layout fl) v)
  have hend : v < (h.layout fl).low ((h.layout fl).bins (bucketsFor (h.layout fl) v)) :=
    (h.layout fl).slot_lt_iff.1 (slot_lt_bins (Nat.le_refl v))
  have h1 := hs.boundsOk.2.1
  have h2 := hs.boundsOk.2.2.1
  have hhigh' : grownHigh fl h v =
      min ((h.layout fl).low ((h.layout fl).bins (bucketsFor (h.layout fl) v))) u64Max - 1 := by
    unfold grownHigh LogLinear.highest
    simp only []
    rw [Nat.sub_add_cancel hpos]
  refine grown_shaped (length_le_bins hi) hs hv ?_ ?_ (bucketsFor_grownHigh hs.base_le hv)
  · unfold u64Max at hhigh'
    omega
  · unfold u64Max at h1 hhigh'
    omega

theorem roomFor_shaped (hs : Shaped fl h) : Shaped fl (roomFor fl h v) := by
  unfold roomFor
  split
  · exact hs
  · rename_i hi
    exact grownHigh_shaped hv (Nat.le_of_not_lt hi) hs

omit hv in
theorem slot_lt_roomFor : (h.layout fl).slot v < (roomFor fl h v).counts.length := by
  unfold roomFor
  split
  · assumption
  · rename_i hi
    rw [length_grown (length_le_bins (Nat.le_of_not_lt hi))]
    exact slot_lt_bins (Nat.le_refl v)

omit hv in
theorem getElem?_grown (hi : h.counts.length ≤ (h.layout fl).slot v) (high : Nat) :
    (grown fl h v high).counts[(h.layout fl).slot v]? = some 0 := by
  have hslot := slot_lt_bins (L := h.layout fl) (Nat.le_refl v)
  simp only [grown]
  rw [List.getElem?_append_right hi, List.getElem?_replicate_of_lt (by omega)]

/-- **A value past the last slot** makes the histogram grow, and takes the first samples of its
slot. -/
theorem recordResized_eq (hi : h.counts.length ≤ (h.layout fl).slot v) (hs : Shaped fl h) {c : Nat}
    (hc : c < 2 ^ 64) : h.recordResized v c =
      .ok ((grown fl h v (grownHigh fl h v)).modifyCount ((h.layout fl).slot v) fun _ => c) := by
  have hg := grownHigh_shaped hv hi hs
  have hhigh := hs.highest_lt_of_length_le hi
  have hlow : 2 * h.lowestDiscernibleValue ≤ v := by
    have := hs.boundsOk.2.2.1
    omega
  have hg0 : Shaped fl (grown fl h v v) :=
    grown_shaped (length_le_bins hi) hs hv hv hlow rfl
  have hlen : (grown fl h v v).counts.length = _ := length_grown (length_le_bins hi) v
  have hpos := bins_pos (h.layout fl) (bucketsFor (h.layout fl) v)
  have hslot := slot_lt_bins (L := h.layout fl) (Nat.le_refl v)
  have hlast : (h.layout fl).low ((grown fl h v v).counts.length - 1) < 2 ^ 64 :=
    hg0.low_lt (by omega)
  have hl0 : HasLayout (grown fl h v v) (h.layout fl) := hg0.toHasLayout
  have hl : HasLayout (grown fl h v (grownHigh fl h v)) (h.layout fl) := hg.toHasLayout
  unfold Histogram.recordResized
  rw [resize_grown (length_le_bins hi) hs hv hlow, mapErr_ok, ok_bind, hg0.lastIndex, ok_bind,
    valueFor_eq hl0 hlast, ok_bind, highestEquivalent_eq hl0 hlast,
    if_neg (Nat.ne_of_lt (low_lt_u64Max hs.base_le hlast)), LogLinear.slot_low, hlen, ok_bind]
  change (do
    let i ← (grown fl h v (grownHigh fl h v)).mutAt v
    let i ← expectSome "value should fit after resize" i
    let d ← index (grown fl h v (grownHigh fl h v)).counts i
    let c ← Res.expect (ε := Unit) "count overflow after resize" (checkU 64 (d + c))
    return (grown fl h v (grownHigh fl h v)).modifyCount i fun _ => c) = _
  rw [mutAt_eq hl hv (by rwa [length_grown (length_le_bins hi)]), ok_bind, expectSome_some, ok_bind,
    index_ok (getElem?_grown hi _), ok_bind, Nat.zero_add, checkU_ok hc, expect_ok, ok_bind,
    pure_eq_ok]

/-- **An auto-resizing histogram records every value**, growing first if it has to. -/
theorem recordN_grows (hs : Shaped fl h) (hauto : h.autoResize = true) {c : Nat}
    (hc : c < 2 ^ 64) :
    h.recordN v c = .ok (recorded (roomFor fl h v) ((h.layout fl).slot v) v c) := by
  by_cases hi : (h.layout fl).slot v < h.counts.length
  · rw [recordN_eq hs.toHasLayout hv hi, roomFor, if_pos hi]
  · have hi' := Nat.le_of_not_lt hi
    have hmodify : (grown fl h v (grownHigh fl h v)).counts.modify ((h.layout fl).slot v)
        (fun _ => c) = (grown fl h v (grownHigh fl h v)).counts.modify ((h.layout fl).slot v)
          (satAdd64 · c) := by
      refine modify_congr fun d hd => ?_
      obtain rfl : 0 = d := Option.some.inj ((getElem?_grown hi' _).symm.trans hd)
      rw [satAdd64_eq, CapSum.zero_add_of_le (by unfold u64Max; omega)]
    unfold Histogram.recordN Histogram.recordNInner
    rw [mutAt_none hs.toHasLayout hv hi', ok_bind]
    simp only [hauto, not_true_eq_false, Bool.false_eq_true, if_false]
    rw [recordResized_eq hv hi' hs hc, ok_bind, updateMinMax_eq, pure_eq_ok, roomFor, if_neg hi]
    simp only [Histogram.modifyCount, hmodify]
    rfl

/-- Without auto-resize, a value past the last slot is refused. -/
theorem recordN_refuses (hs : Shaped fl h) (hauto : h.autoResize = false)
    (hi : h.counts.length ≤ (h.layout fl).slot v) (c : Nat) :
    h.recordN v c = .error (.err .valueOutOfRangeResizeDisabled) := by
  unfold Histogram.recordN Histogram.recordNInner
  rw [mutAt_none hs.toHasLayout hv hi, ok_bind]
  simp [hauto]

/-- The value `saturating_record_n` records for `v`. -/
def clamped (fl : Floats) (h : Histogram) (v : Nat) : Nat :=
  if (h.layout fl).slot v < h.counts.length then v else h.highestTrackableValue

/-- **`saturating_record_n`** never fails: a value past the last slot is recorded as the highest
trackable one. -/
theorem saturatingRecordN_eq (hs : Shaped fl h) (c : Nat) : h.saturatingRecordN (ε := ε) v c =
    .ok (recorded h ((h.layout fl).slot (clamped fl h v)) (clamped fl h v) c) := by
  unfold Histogram.saturatingRecordN Histogram.recordNInner clamped
  by_cases hi : (h.layout fl).slot v < h.counts.length
  · rw [mutAt_eq hs.toHasLayout hv hi, ok_bind, if_pos hi]
    simp only [updateMinMax_eq, pure_eq_ok, unwrap_ok]
    rfl
  · have hi' := Nat.le_of_not_lt hi
    have hhigh := hs.highest_lt_of_length_le hi'
    have hslot : (h.layout fl).slot h.highestTrackableValue < h.counts.length := by
      rw [hs.length, hs.bucketCount]
      exact slot_lt_bins (Nat.le_refl _)
    rw [mutAt_none hs.toHasLayout hv hi', ok_bind, if_neg hi]
    simp only [if_true, if_pos hhigh]
    rw [mutAt_eq hs.toHasLayout hs.highest_lt hslot, ok_bind, expectSome_some, ok_bind,
      updateMinMax_eq, pure_eq_ok, unwrap_ok]
    rfl

omit hv in
theorem slot_clamped_lt (hs : Shaped fl h) :
    (h.layout fl).slot (clamped fl h v) < h.counts.length := by
  unfold clamped
  split
  · assumption
  · rw [hs.length, hs.bucketCount]
    exact slot_lt_bins (Nat.le_refl _)

end

end Chist.Hdr
