import Chist.Hdr.Combine
import Mathlib.Algebra.Order.BigOperators.Group.List

/-!
# Subtracting histograms

`subtract` takes the samples of every slot of the subtrahend from the slot of its lowest value
(`foldlM_subtractSlot`). It refuses a subtrahend whose maximum is past the last slot, or that has
more samples for a slot than the minuend; in the second case it leaves the slots before that one
subtracted. What it returns is kept (`subtract_kept`), but the minimum past slot 0 can be stale:
with samples in slot 0, `min` is 0 and emptying the first slot past it is not noticed
(`subtract_coherent_iff`).
-/

set_option autoImplicit false

namespace Chist.Hdr

open Res

variable {ε : Type} {fl : Floats} {h s : Histogram} {L M : LogLinear}

/-! ## The loop -/

/-- The samples of the slots `is` of `counts` that the layout `L` puts in slot `j`. -/
def movedFrom (L M : LogLinear) (counts is : List Nat) (j : Nat) : Nat :=
  ((is.filter fun i => L.slot (M.low i) = j).map (counts.getD · 0)).sum

/-- Taking samples of the value `v` may take those of the minimum or the maximum. -/
def touches (lo hi v : Nat) : Bool := v ≤ lo ∨ hi ≤ v

theorem movedFrom_cons (L M : LogLinear) (counts is : List Nat) (i j : Nat) :
    movedFrom L M counts (i :: is) j =
      (if L.slot (M.low i) = j then counts.getD i 0 else 0) + movedFrom L M counts is j := by
  unfold movedFrom
  by_cases hj : L.slot (M.low i) = j
  · rw [if_pos hj, List.filter_cons_of_pos (by simpa using hj), List.map_cons, List.sum_cons]
  · rw [if_neg hj, List.filter_cons_of_neg (by simpa using hj), Nat.zero_add]

/-- `h` after the samples of slot `i` of `s` are taken from it. The total is kept up only while no
sample of the minimum or the maximum is taken (`needsRestat`). -/
def takenFrom (h s : Histogram) (L M : LogLinear) (i : Nat) (needsRestat : Bool) : Histogram :=
  { h with
    counts := h.counts.modify (L.slot (M.low i)) (· - s.counts.getD i 0)
    totalCount := if needsRestat then h.totalCount else h.totalCount - s.counts.getD i 0 }

section
variable {i : Nat} (hslot : L.slot (M.low i) < h.counts.length)
  (hle : s.counts.getD i 0 ≤ h.counts.getD (L.slot (M.low i)) 0) (b : Bool)
include hslot hle

theorem getD_takenFrom (j : Nat) : (takenFrom h s L M i b).counts.getD j 0 +
    (if L.slot (M.low i) = j then s.counts.getD i 0 else 0) = h.counts.getD j 0 := by
  unfold takenFrom
  rw [getD_modify hslot]
  by_cases hj : L.slot (M.low i) = j
  · subst hj
    rw [if_pos rfl, if_pos rfl]
    omega
  · rw [if_neg hj, if_neg hj, Nat.add_zero]

theorem sum_takenFrom :
    (takenFrom h s L M i b).counts.sum + s.counts.getD i 0 = h.counts.sum := by
  have := Slots.sum_modify hslot (· - s.counts.getD i 0)
  unfold takenFrom
  simp only at this ⊢
  omega

end

section
variable (lo hi : Nat) {n : Nat} (hM : HasLayout s M)

include hM in
theorem subtractSlot_eq {i : Nat} (hi' : i < s.counts.length) (hlow : M.low i < 2 ^ 64)
    (hh : HasLayout h L) (hslot : L.slot (M.low i) < h.counts.length) {b : Bool}
    (htotal : b = false → h.totalCount = h.counts.sum) :
    Histogram.subtractSlot s lo hi (h, b) i =
      if s.counts.getD i 0 = 0 then .ok (h, b)
      else if h.counts.getD (L.slot (M.low i)) 0 < s.counts.getD i 0 then
        .error (.err (h, .subtrahendCountExceedsMinuendCount))
      else .ok (takenFrom h s L M i (b || touches lo hi (M.low i)),
        b || touches lo hi (M.low i)) := by
  have hcount : s.countAtIndex i = some (s.counts.getD i 0) := by
    rw [Histogram.countAtIndex, List.getD_eq_getElem _ _ hi', List.getElem?_eq_getElem hi']
  have hget : h.counts[L.slot (M.low i)]? = some (h.counts.getD (L.slot (M.low i)) 0) := by
    rw [List.getD_eq_getElem _ _ hslot, List.getElem?_eq_getElem hslot]
  unfold Histogram.subtractSlot
  simp only [hcount, expectSome_some, ok_bind]
  by_cases h0 : s.counts.getD i 0 = 0
  · rw [if_pos h0, if_neg (not_not_intro h0), pure_eq_ok]
  · rw [if_neg h0, if_pos h0, valueFor_eq hM hlow, ok_bind, mutAt_eq hh hlow hslot, ok_bind]
    simp only [index_ok hget, ok_bind]
    by_cases hlt : h.counts.getD (L.slot (M.low i)) 0 < s.counts.getD i 0
    · rw [if_pos hlt, if_pos hlt]
      rfl
    · have hmodify : h.counts.modify (L.slot (M.low i))
          (fun _ => h.counts.getD (L.slot (M.low i)) 0 - s.counts.getD i 0) =
          h.counts.modify (L.slot (M.low i)) (· - s.counts.getD i 0) :=
        modify_congr fun c hc => by rw [Option.some.inj (hget.symm.trans hc)]
      have hneeds : decide (b = true ∨ M.low i ≤ lo ∨ hi ≤ M.low i) =
          (b || touches lo hi (M.low i)) := by
        unfold touches
        cases b <;> simp
      rw [if_neg hlt, if_neg hlt]
      simp only [Histogram.modifyCount, hmodify, hneeds, takenFrom]
      cases hb : b || touches lo hi (M.low i) with
      | true => simp
      | false =>
        -- the total is still exact, and no less than any count
        have hsum := Slots.sum_modify hslot fun _ => 0
        have htotal := htotal (Bool.or_eq_false_iff.1 hb).1
        simp only [Bool.false_eq_true, not_false_eq_true, if_true, if_false]
        rw [subU_ok (by omega), expect_ok, ok_bind, pure_eq_ok]

/-- The loop over the slots `is`, from `h` and `b`: it runs to its end and takes the samples of all
of them, or stops at one that has too many. -/
def LoopTakes (h s : Histogram) (L M : LogLinear) (lo hi n : Nat) (is : List Nat) (b : Bool) :
    Prop :=
  ∃ cs total, cs.length = n ∧
    ((∀ j, movedFrom L M s.counts is j ≤ h.counts.getD j 0) →
      is.foldlM (Histogram.subtractSlot s lo hi) (h, b) =
          .ok ({ h with counts := cs, totalCount := total },
            b || is.any fun i => s.counts.getD i 0 ≠ 0 && touches lo hi (M.low i)) ∧
        (∀ j, cs.getD j 0 + movedFrom L M s.counts is j = h.counts.getD j 0) ∧
        cs.sum + (is.map (s.counts.getD · 0)).sum = h.counts.sum ∧
        ((b || is.any fun i => s.counts.getD i 0 ≠ 0 && touches lo hi (M.low i)) = false →
          total = cs.sum)) ∧
    ((∃ j, h.counts.getD j 0 < movedFrom L M s.counts is j) →
      is.foldlM (Histogram.subtractSlot s lo hi) (h, b) =
          .error (.err ({ h with counts := cs, totalCount := total },
            .subtrahendCountExceedsMinuendCount)) ∧
        ∀ j, cs.getD j 0 ≤ h.counts.getD j 0 ∧
          h.counts.getD j 0 ≤ cs.getD j 0 + movedFrom L M s.counts is j)

theorem LoopTakes.cons {i : Nat} {is : List Nat} {b : Bool} (h0 : s.counts.getD i 0 ≠ 0)
    (hle : s.counts.getD i 0 ≤ h.counts.getD (L.slot (M.low i)) 0)
    (hslot : L.slot (M.low i) < h.counts.length)
    (hstep : Histogram.subtractSlot s lo hi (h, b) i =
      .ok (takenFrom h s L M i (b || touches lo hi (M.low i)), b || touches lo hi (M.low i)))
    (hloop : LoopTakes (takenFrom h s L M i (b || touches lo hi (M.low i))) s L M lo hi n is
      (b || touches lo hi (M.low i))) : LoopTakes h s L M lo hi n (i :: is) b := by
  obtain ⟨cs, total, hcs, hok, hfail⟩ := hloop
  have hmoved := movedFrom_cons L M s.counts is i
  have hcounts := getD_takenFrom hslot hle (b || touches lo hi (M.low i))
  have hsum := sum_takenFrom hslot hle (b || touches lo hi (M.low i))
  have hdec : decide (s.counts.getD i 0 ≠ 0) = true := by simpa using h0
  refine ⟨cs, total, hcs, fun hfit => ?_, fun ⟨j, hj⟩ => ?_⟩
  · obtain ⟨h1, h2, h3, h4⟩ := hok fun j => by
      have := hfit j
      have := hcounts j
      rw [hmoved] at *
      omega
    rw [List.foldlM_cons, hstep, ok_bind, List.any_cons, hdec, Bool.true_and, ← Bool.or_assoc]
    refine ⟨h1, fun j => ?_, ?_, h4⟩
    · have := h2 j
      have := hcounts j
      rw [hmoved]
      omega
    · rw [List.map_cons, List.sum_cons]
      omega
  · obtain ⟨h1, h2⟩ := hfail ⟨j, by
      have := hcounts j
      rw [hmoved] at hj
      omega⟩
    rw [List.foldlM_cons, hstep, ok_bind]
    refine ⟨h1, fun j => ?_⟩
    have := h2 j
    have := hcounts j
    rw [hmoved]
    omega

include hM in
/-- The loop over slots that have their place. -/
theorem foldlM_subtractSlot {is : List Nat}
    (his : ∀ i ∈ is, i < s.counts.length ∧ M.low i < 2 ^ 64 ∧ L.slot (M.low i) < n) {b : Bool}
    (hh : HasLayout h L) (hlen : h.counts.length = n)
    (htotal : b = false → h.totalCount = h.counts.sum) : LoopTakes h s L M lo hi n is b := by
  induction is generalizing h b with
  | nil =>
    refine ⟨h.counts, h.totalCount, hlen, fun _ => ⟨by simp [pure_eq_ok], by simp [movedFrom], by
      simp, by simpa using htotal⟩, ?_⟩
    simp [movedFrom]
  | cons i is ih =>
    obtain ⟨⟨hi', hlow, hslot⟩, his⟩ := List.forall_mem_cons.1 his
    rw [← hlen] at hslot
    have hmoved := movedFrom_cons L M s.counts is i
    have hstep := subtractSlot_eq lo hi hM hi' hlow hh hslot htotal
    by_cases h0 : s.counts.getD i 0 = 0
    · -- an empty slot
      simp only [h0, ite_self, Nat.zero_add] at hmoved
      unfold LoopTakes
      simp only [List.foldlM_cons, List.any_cons]
      rw [hstep, if_pos h0, ok_bind]
      simp only [h0, hmoved, ne_eq, not_true_eq_false, decide_false, Bool.false_and, Bool.false_or,
        List.map_cons, List.sum_cons, Nat.zero_add]
      exact ih his hh hlen htotal
    rw [if_neg h0] at hstep
    by_cases hlt : h.counts.getD (L.slot (M.low i)) 0 < s.counts.getD i 0
    · -- the subtraction ends here
      rw [if_pos hlt] at hstep
      refine ⟨h.counts, h.totalCount, hlen, fun hfit => ?_, fun _ => ⟨?_, fun j => ⟨?_, ?_⟩⟩⟩
      · have hle := hfit (L.slot (M.low i))
        rw [hmoved, if_pos rfl] at hle
        omega
      · rw [List.foldlM_cons, hstep, error_bind]
      · exact Nat.le_refl _
      · exact Nat.le_add_right _ _
    rw [if_neg hlt] at hstep
    have hle := Nat.le_of_not_lt hlt
    refine .cons lo hi h0 hle hslot hstep (ih his ?_ ?_ fun hf => ?_)
    · exact hh.stats _ _ _ _
    · exact (List.length_modify _ _ _).trans hlen
    · have htotal := htotal (Bool.or_eq_false_iff.1 hf).1
      have hsum := sum_takenFrom hslot hle (b || touches lo hi (M.low i))
      have hgt : (takenFrom h s L M i (b || touches lo hi (M.low i))).totalCount =
          h.totalCount - s.counts.getD i 0 := by rw [takenFrom, hf]; rfl
      omega

end

/-! ## Range and extrema -/

theorem le_highest_iff {v k : Nat} (hv : v < u64Max) : v ≤ L.highest k ↔ L.slot v ≤ k := by
  have hlt : L.slot v < k + 1 ↔ v < L.low (k + 1) := L.slot_lt_iff
  have hpos : L.low k < L.low (k + 1) := L.low_strictMono (Nat.lt_succ_self k)
  unfold LogLinear.highest
  omega

theorem low_le_iff {v k : Nat} : L.low k ≤ v ↔ k ≤ L.slot v := by
  have hlt : L.slot v < k ↔ v < L.low k := L.slot_lt_iff
  omega

def minReported (fl : Floats) (h : Histogram) : Nat :=
  if h.totalCount = 0 ∨ h.counts.getD 0 0 ≠ 0 then 0 else minOf (h.layout fl) h.minNonZeroValue

theorem minReported_lt (hk : Kept fl h) : minReported fl h < 2 ^ 64 := by
  have hle := minOf_le (h.layout fl) h.minNonZeroValue
  have hlt := hk.minNonZeroValue_lt
  unfold minReported
  split <;> omega

/-- **`min`** is 0 with a sample in slot 0 or none at all. -/
theorem Kept.min (hk : Kept fl h) : h.min (ε := ε) = .ok (minReported fl h) := by
  have hfirst : h.countAtIndex 0 = some (h.counts.getD 0 0) := by
    rw [Histogram.countAtIndex, List.getD_eq_getElem _ _ hk.length_pos,
      List.getElem?_eq_getElem hk.length_pos]
  unfold Histogram.min minReported
  by_cases htotal : h.totalCount = 0
  · rw [if_pos htotal, if_pos (.inl htotal)]
    rfl
  · rw [if_neg htotal, pure_eq_ok, hfirst, expectSome_some]
    simp only [ok_bind]
    by_cases h0 : h.counts.getD 0 0 ≠ 0
    · rw [if_pos h0, if_pos (.inr h0)]
    · rw [if_neg h0, if_neg (not_or.2 ⟨htotal, h0⟩), hk.minNz]

theorem slot_minReported_le (hk : Kept fl h) {j : Nat} (hj : h.counts.getD j 0 ≠ 0) :
    (h.layout fl).slot (minReported fl h) ≤ j := by
  have hzero := (h.layout fl).slot_low 0
  rw [LogLinear.low_zero] at hzero
  unfold minReported
  split
  · rw [hzero]
    exact Nat.zero_le j
  · rename_i hc
    rw [slot_minOf]
    refine hk.minBound ⟨hj, fun h0 => ?_⟩
    obtain rfl : j = 0 := h0
    exact (not_or.1 hc).2 hj

theorem minReported_mem (hc : Coherent fl h) (htotal : h.totalCount ≠ 0) :
    h.counts.getD ((h.layout fl).slot (minReported fl h)) 0 ≠ 0 := by
  have hzero := (h.layout fl).slot_low 0
  rw [LogLinear.low_zero] at hzero
  unfold minReported
  split
  · rename_i hfirst
    rw [hzero]
    exact hfirst.resolve_left htotal
  · rename_i hfirst
    rw [slot_minOf]
    refine (hc.minSlot fun hsub => htotal ?_).1
    have hnone : h.counts.sum = 0 := by
      rw [← Slots.sum_occupied]
      refine List.sum_eq_zero fun c hmem => ?_
      obtain ⟨j, hj, rfl⟩ := List.mem_map.1 hmem
      obtain rfl : j = 0 := hsub (Slots.mem_occupied.1 hj)
      exact absurd (Slots.mem_occupied.1 hj) (not_or.1 hfirst).2
    rw [hc.totalCount, hnone]
    rfl

/-- The maximum of the subtrahend has a slot, and its slot's end is representable. -/
def InRange (fl : Floats) (h s : Histogram) : Prop :=
  (h.layout fl).slot (addendMax fl s) < h.counts.length ∧ addendMax fl s ≠ u64Max

/-- Slot `j` is not strictly between the minimum and the maximum that `h` reports. -/
def AtExtremum (fl : Floats) (h : Histogram) (j : Nat) : Prop :=
  j ≤ (h.layout fl).slot (minReported fl h) ∨ Slots.last h.counts ≤ j

/-- `subtract` recomputes the statistics. -/
def Restats (fl : Floats) (h s : Histogram) : Prop :=
  h.totalCount = u64Max ∨
    ∃ i ∈ occ s.counts, AtExtremum fl h ((h.layout fl).slot ((s.layout fl).low i))

instance (fl : Floats) (h s : Histogram) : Decidable (InRange fl h s) :=
  inferInstanceAs (Decidable (_ ∧ _))

/-! ## `subtract` -/

/-- The highest value equivalent to the reported minimum. -/
def minHighest (fl : Floats) (h : Histogram) : Nat :=
  if minReported fl h = u64Max then u64Max
  else (h.layout fl).highest ((h.layout fl).slot (minReported fl h))

theorem addendMax_lt (fl : Floats) (s : Histogram) : addendMax fl s < 2 ^ 64 := maxOf_lt

section
variable (hk : Kept fl h)
include hk

/-- The test for the range compares the ends of two slots. -/
theorem le_topOf_iff : (if addendMax fl s = u64Max then u64Max
    else (h.layout fl).highest ((h.layout fl).slot (addendMax fl s))) ≤ topOf fl h ↔
      InRange fl h s := by
  have hpos := hk.length_pos
  have hslot := slot_topOf hk.toShaped
  have hmax := addendMax_lt fl s
  have htop : topOf fl h < u64Max := by
    unfold topOf LogLinear.highest u64Max
    omega
  unfold InRange
  split
  · rename_i he
    simp only [he, ne_eq, not_true_eq_false, and_false, iff_false]
    omega
  · rename_i hne
    refine ⟨fun hle => ⟨?_, hne⟩, fun hin => ?_⟩
    · have hle := (h.layout fl).slot_mono hle
      rw [hslot, slot_highest hk.base_le (((h.layout fl).low_slot_le _).trans_lt hmax)] at hle
      omega
    · have hle := (h.layout fl).low_strictMono.monotone (Nat.succ_le_of_lt hin.1)
      simp only [Nat.succ_eq_add_one] at hle
      unfold topOf LogLinear.highest
      rw [Nat.sub_add_cancel hpos]
      omega

variable (hs : Kept fl s)
include hs

omit hk in
/-- The loop's test for the extrema, slot by slot. -/
theorem touches_iff {i : Nat} (hi : i < s.counts.length) :
    touches (minHighest fl h) ((h.layout fl).low (Slots.last h.counts)) ((s.layout fl).low i) =
      true ↔ AtExtremum fl h ((h.layout fl).slot ((s.layout fl).low i)) := by
  have hmax := low_lt_u64Max hs.base_le (hs.toSized.low_lt hi)
  unfold touches AtExtremum minHighest
  rw [decide_eq_true_iff]
  refine or_congr ?_ low_le_iff
  split
  · rename_i he
    rw [he]
    exact iff_of_true (Nat.le_of_lt hmax) ((h.layout fl).slot_mono (Nat.le_of_lt hmax))
  · exact le_highest_iff hmax

/-- The start of `subtract`: the range test, and what the loop is run with. -/
theorem subtract_eq : h.subtract s =
    if InRange fl h s then do
      let (g, needsRestat) ← (List.range s.counts.length).foldlM (Histogram.subtractSlot s
        (minHighest fl h) ((h.layout fl).low (Slots.last h.counts))) (h, h.totalCount = u64Max)
      if needsRestat then g.restat g.counts.length else return g
    else .error (.err (h, .subtrahendValueExceedsMinuendRange)) := by
  have hlast := hk.toSized.low_lt (Nat.sub_lt hk.length_pos Nat.one_pos)
  have hrange := le_topOf_iff (s := s) hk
  unfold addendMax topOf at hrange
  unfold Histogram.subtract
  rw [hk.toSized.lastIndex, ok_bind, valueFor_eq hk.toHasLayout hlast, ok_bind,
    highestEquivalent_eq hk.toHasLayout hlast,
    if_neg (Nat.ne_of_lt (low_lt_u64Max hk.base_le hlast)), ok_bind, LogLinear.slot_low, hs.max,
    ok_bind, highestEquivalent_eq hk.toHasLayout maxOf_lt, ok_bind]
  by_cases hin : InRange fl h s
  · rw [if_pos hin, if_neg (Nat.not_lt.2 (hrange.2 hin)), hk.min]
    simp only [pure_eq_ok, ok_bind]
    rw [highestEquivalent_eq hk.toHasLayout (minReported_lt hk), ok_bind, hk.max, ok_bind,
      lowestEquivalent_eq hk.toHasLayout maxOf_lt, ok_bind, hk.slot_maxOf]
    rfl
  · rw [if_neg hin, if_pos (Nat.lt_of_not_le (mt hrange.1 hin))]
    rfl

omit hk in
theorem slots_of_inRange (hin : InRange fl h s) : ∀ i ∈ Slots.occupied s.counts,
    i < s.counts.length ∧ (s.layout fl).low i < 2 ^ 64 ∧
      (h.layout fl).slot ((s.layout fl).low i) < h.counts.length :=
  fun _ hi => slot_low_lt_of_room hs hin.1 (Slots.le_last (Slots.mem_occupied.1 hi))

end

theorem foldlM_subtractSlot_occupied (s : Histogram) (lo hi : Nat) (acc : Histogram × Bool) :
    (List.range s.counts.length).foldlM (Histogram.subtractSlot s lo hi) acc =
      (Slots.occupied s.counts).foldlM (Histogram.subtractSlot s lo hi) acc := by
  refine Slots.foldlM_range _ (fun i hi' h0 acc => ?_) acc
  have hcount : s.countAtIndex i = some 0 := by
    rw [Histogram.countAtIndex, List.getElem?_eq_getElem hi', ← List.getD_eq_getElem _ 0 hi', h0]
  unfold Histogram.subtractSlot
  rw [hcount]
  rfl

theorem movedFrom_occupied (L M : LogLinear) (counts : List Nat) (j : Nat) :
    movedFrom L M counts (Slots.occupied counts) j = movedTo L M counts j := by
  rw [movedFrom, Slots.occupied, List.filter_comm, Slots.sum_filter, movedTo]

/-- What subtracting `s` from `h` makes of it. -/
structure Subtracted (fl : Floats) (h s g : Histogram) : Prop where
  kept : Kept fl g
  layout : g.layout fl = h.layout fl
  autoResize : g.autoResize = h.autoResize
  counts : ∀ j, g.counts.getD j 0 + movedTo (h.layout fl) (s.layout fl) s.counts j =
    h.counts.getD j 0
  sum : g.counts.sum + s.counts.sum = h.counts.sum
  restat : Restats fl h s → Coherent fl g
  noRestat : ¬ Restats fl h s → g.maxValue = h.maxValue ∧ g.minNonZeroValue = h.minNonZeroValue

/-! ## What is left -/

/-- Without `restat`, no sample is taken from a slot at an extremum. -/
theorem movedTo_eq_zero (hno : ¬ Restats fl h s) {j : Nat} (hj : AtExtremum fl h j) :
    movedTo (h.layout fl) (s.layout fl) s.counts j = 0 := by
  refine List.sum_eq_zero fun c hc => ?_
  obtain ⟨i, hi, rfl⟩ := List.mem_map.1 hc
  have hslot : (h.layout fl).slot ((s.layout fl).low i) = j := by
    simpa using (List.mem_filter.1 hi).2
  by_contra hne
  exact hno (.inr ⟨i, hne, by rwa [hslot]⟩)

section
variable (hk : Kept fl h) (hno : ¬ Restats fl h s) {cs : List Nat}
  (hcounts : ∀ j, cs.getD j 0 + movedTo (h.layout fl) (s.layout fl) s.counts j =
    h.counts.getD j 0)
include hcounts

theorem occ_subset_of_subtracted : occ cs ⊆ occ h.counts := by
  intro j hj
  have := hcounts j
  rw [mem_occ] at hj ⊢
  omega

include hno

theorem last_mem_of_untouched (h0 : Slots.last h.counts ≠ 0) : Slots.last h.counts ∈ occ cs := by
  have hlast := (isGreatest_last h.counts).1.resolve_left h0
  have hzero := movedTo_eq_zero hno (j := Slots.last h.counts) (.inr (Nat.le_refl _))
  have := hcounts (Slots.last h.counts)
  rw [mem_occ] at hlast ⊢
  omega

include hk

/-- Without a sample taken from the extrema, the statistics are still kept. -/
theorem untouched_kept {total : Nat} (hsum : cs.sum + s.counts.sum = h.counts.sum)
    (hshaped : Shaped fl { h with counts := cs, totalCount := total })
    (hlt : ∀ c ∈ cs, c < 2 ^ 64) (htotal : total = cs.sum) :
    Kept fl { h with counts := cs, totalCount := total } where
  toShaped := hshaped
  counts_lt := hlt
  totalCount := by
    have hne : h.totalCount ≠ u64Max := fun he => hno (.inl he)
    have := hk.totalCount
    change total = min cs.sum u64Max
    omega
  maxValue_lt := hk.maxValue_lt
  maxSlot := by
    change IsGreatest (insert 0 (occ cs)) ((h.layout fl).slot h.maxValue)
    refine ⟨?_, fun j hj => hk.maxSlot.2 ?_⟩
    · rw [hk.slot_maxValue]
      by_cases h0 : Slots.last h.counts = 0
      · exact .inl h0
      · exact .inr (last_mem_of_untouched hno hcounts h0)
    · exact Set.insert_subset_insert (occ_subset_of_subtracted hcounts) hj
  minNonZeroValue_lt := hk.minNonZeroValue_lt
  minPos := hk.minPos
  minBound := fun j hj => hk.minBound ⟨occ_subset_of_subtracted hcounts hj.1, hj.2⟩
  minEmpty hsub := by
    refine hk.minEmpty fun j hj => ?_
    by_contra hj0
    have hle : j ≤ Slots.last h.counts := Slots.le_last hj
    have h0 : Slots.last h.counts ≠ 0 := fun h0 => hj0 (by simpa [h0] using hle)
    exact h0 (hsub (last_mem_of_untouched hno hcounts h0))

end

section
variable (hk : Kept fl h) (hs : Kept fl s) (hin : InRange fl h s)
include hk hs hin

/-- The loop of `subtract`, when it runs to its end and when it does not. -/
theorem subtract_loop : ∃ cs total, cs.length = h.counts.length ∧
    ((∀ j, movedTo (h.layout fl) (s.layout fl) s.counts j ≤ h.counts.getD j 0) →
      ∃ b, (b = true ↔ Restats fl h s) ∧
        h.subtract s = (if b then
          Histogram.restat { h with counts := cs, totalCount := total } cs.length
          else .ok { h with counts := cs, totalCount := total }) ∧
        (∀ j, cs.getD j 0 + movedTo (h.layout fl) (s.layout fl) s.counts j =
          h.counts.getD j 0) ∧
        cs.sum + s.counts.sum = h.counts.sum ∧ (b = false → total = cs.sum)) ∧
    ((∃ j, h.counts.getD j 0 < movedTo (h.layout fl) (s.layout fl) s.counts j) →
      h.subtract s = .error (.err ({ h with counts := cs, totalCount := total },
        .subtrahendCountExceedsMinuendCount)) ∧
      ∀ j, cs.getD j 0 ≤ h.counts.getD j 0 ∧ h.counts.getD j 0 ≤
        cs.getD j 0 + movedTo (h.layout fl) (s.layout fl) s.counts j) := by
  have htotal : decide (h.totalCount = u64Max) = false → h.totalCount = h.counts.sum := by
    intro hne
    have hne := of_decide_eq_false hne
    have := hk.totalCount
    omega
  obtain ⟨cs, total, hlen, hok, hfail⟩ := foldlM_subtractSlot (minHighest fl h)
    ((h.layout fl).low (Slots.last h.counts)) hs.toHasLayout (slots_of_inRange hs hin)
    hk.toHasLayout rfl htotal
  simp only [movedFrom_occupied, Slots.sum_occupied] at hok hfail
  refine ⟨cs, total, hlen, fun hfit => ?_, fun hover => ?_⟩
  · obtain ⟨h1, h2, h3, h4⟩ := hok hfit
    refine ⟨_, ?_, ?_, h2, h3, h4⟩
    · rw [Bool.or_eq_true, decide_eq_true_iff, List.any_eq_true]
      refine or_congr_right (exists_congr fun i => ?_)
      rw [Slots.mem_occupied, Bool.and_eq_true, decide_eq_true_iff, mem_occ]
      refine and_congr_right fun hi => ?_
      have htouch := touches_iff (h := h) hs (lt_length_of_mem_occ hi)
      exact ⟨fun ht => htouch.1 ht.2, fun ht => ⟨hi, htouch.2 ht⟩⟩
    · rw [subtract_eq hk hs, if_pos hin, foldlM_subtractSlot_occupied, h1, ok_bind]
      rfl
  · obtain ⟨h1, h2⟩ := hfail hover
    refine ⟨?_, h2⟩
    rw [subtract_eq hk hs, if_pos hin, foldlM_subtractSlot_occupied, h1, error_bind]

/-- **`subtract`** of a subtrahend that fits returns the rest of the samples. -/
theorem subtract_subtracted
    (hfit : ∀ j, movedTo (h.layout fl) (s.layout fl) s.counts j ≤ h.counts.getD j 0) :
    ∃ g, h.subtract s = .ok g ∧ Subtracted fl h s g := by
  obtain ⟨cs, total, hlen, hok, -⟩ := subtract_loop hk hs hin
  obtain ⟨b, hb, heq, hcounts, hsum, htotal⟩ := hok hfit
  have hle : ∀ j, cs.getD j 0 ≤ h.counts.getD j 0 := fun j => by
    have := hcounts j
    omega
  have hlt : ∀ c ∈ cs, c < 2 ^ 64 := fun c hc => by
    obtain ⟨j, hj, rfl⟩ := List.mem_iff_getElem.1 hc
    have := hle j
    have := hk.getD_le j
    rw [← List.getD_eq_getElem _ 0 hj]
    unfold u64Max at this
    omega
  have hshaped : Shaped fl { h with counts := cs, totalCount := total } :=
    hk.toShaped.stats hlen _ _ _
  cases hb' : b with
  | true =>
    have hneeds := hb.1 hb'
    obtain ⟨g, hg, hcoh, hgcs, hgl, hga⟩ :=
      restat_coherent (ε := Histogram × SubtractionError) hshaped hlt
    refine ⟨g, heq.trans ((if_pos hb').trans hg), hcoh.toKept, hgl, hga, fun j => ?_, ?_,
      fun _ => hcoh, fun hno => absurd hneeds hno⟩
    · rw [hgcs]
      exact hcounts j
    · rw [hgcs]
      exact hsum
  | false =>
    have hno : ¬ Restats fl h s := fun hneeds => by simp [hb.2 hneeds] at hb'
    refine ⟨_, heq.trans (if_neg (by simp [hb'])), ?_, rfl, rfl, hcounts, hsum,
      fun hneeds => absurd hneeds hno, fun _ => ⟨rfl, rfl⟩⟩
    exact untouched_kept hk hno hcounts hsum hshaped hlt (htotal hb')

end

/-- What a subtraction that ran out of samples leaves of `h`: no slot has gained samples, or lost
more than the subtrahend has for it. -/
def PartlySubtracted (fl : Floats) (h s left : Histogram) : Prop :=
  Shaped fl left ∧ ∀ j, left.counts.getD j 0 ≤ h.counts.getD j 0 ∧ h.counts.getD j 0 ≤
    left.counts.getD j 0 + movedTo (h.layout fl) (s.layout fl) s.counts j

/-- **The three outcomes of `subtract`**, each exactly when its condition holds. It does not
panic. -/
theorem subtract_outcomes (hk : Kept fl h) (hs : Kept fl s) :
    (¬ InRange fl h s ∧ h.subtract s = .error (.err (h, .subtrahendValueExceedsMinuendRange))) ∨
    (InRange fl h s ∧
      (∃ j, h.counts.getD j 0 < movedTo (h.layout fl) (s.layout fl) s.counts j) ∧
      ∃ left, h.subtract s = .error (.err (left, .subtrahendCountExceedsMinuendCount)) ∧
        PartlySubtracted fl h s left) ∨
    (InRange fl h s ∧
      (∀ j, movedTo (h.layout fl) (s.layout fl) s.counts j ≤ h.counts.getD j 0) ∧
      ∃ g, h.subtract s = .ok g ∧ Subtracted fl h s g) := by
  by_cases hin : InRange fl h s
  · right
    by_cases hfit : ∀ j, movedTo (h.layout fl) (s.layout fl) s.counts j ≤ h.counts.getD j 0
    · exact .inr ⟨hin, hfit, subtract_subtracted hk hs hin hfit⟩
    · left
      obtain ⟨j, hj⟩ := not_forall.1 hfit
      have hover : ∃ j, h.counts.getD j 0 < movedTo (h.layout fl) (s.layout fl) s.counts j :=
        ⟨j, Nat.lt_of_not_le hj⟩
      obtain ⟨cs, total, hlen, -, hfail⟩ := subtract_loop hk hs hin
      obtain ⟨h1, h2⟩ := hfail hover
      exact ⟨hin, hover, _, h1, hk.toShaped.stats hlen _ _ _, h2⟩
  · left
    exact ⟨hin, by rw [subtract_eq hk hs, if_neg hin]⟩

theorem subtracted_of_ok {g : Histogram} (hk : Kept fl h) (hs : Kept fl s)
    (hok : h.subtract s = .ok g) : Subtracted fl h s g := by
  rcases subtract_outcomes hk hs with ⟨-, he⟩ | ⟨-, -, left, he, -⟩ | ⟨-, -, g', hg, hsub⟩
  · rw [he] at hok
    cases hok
  · rw [he] at hok
    cases hok
  · obtain rfl : g' = g := Except.ok.inj (hg.symm.trans hok)
    exact hsub

/-! ## The minimum past slot 0 -/

/-- Without samples in slot 0, the first occupied slot past it is that of the reported minimum. -/
theorem atExtremum_firstNonzero (hc : Coherent fl h) (h0 : h.counts.getD 0 0 = 0) {i : Nat}
    (hi : Slots.firstNonzero h.counts = some i) : AtExtremum fl h i := by
  have hocc : h.counts.getD i 0 ≠ 0 := (isLeast_firstNonzero hi).1.1
  have htotal : h.totalCount ≠ 0 := by
    have hsum := Slots.sum_modify (lt_length_of_mem_occ hocc) fun _ => 0
    rw [hc.totalCount]
    unfold u64Max
    omega
  left
  rw [minReported, if_neg (not_or.2 ⟨htotal, not_not_intro h0⟩), slot_minOf,
    hc.slot_minNonZeroValue hi]

theorem coherent_iff_firstNonzero_mem {g : Histogram} (hc : Coherent fl h)
    (hsub : Subtracted fl h s g) (hno : ¬ Restats fl h s) :
    Coherent fl g ↔ ∀ i, Slots.firstNonzero h.counts = some i → i ∈ occ g.counts := by
  have hslot : ∀ i, Slots.firstNonzero h.counts = some i →
      (g.layout fl).slot g.minNonZeroValue = i := by
    intro i hi
    rw [hsub.layout, (hsub.noRestat hno).2]
    exact hc.slot_minNonZeroValue hi
  refine ⟨fun hg i hi => ?_, fun hall => ⟨hsub.kept, fun hne => ?_⟩⟩
  · obtain ⟨hocc, hi0⟩ := (isLeast_firstNonzero hi).1
    have hle : i ≤ Slots.last h.counts := Slots.le_last hocc
    have hlast0 : Slots.last h.counts ≠ 0 := fun h0 => hi0 (by simpa [h0] using hle)
    have hlast := last_mem_of_untouched hno hsub.counts hlast0
    have hmin := hg.minSlot fun hempty => hlast0 (hempty hlast)
    rw [hslot i hi] at hmin
    exact hmin.1
  · cases hi : Slots.firstNonzero h.counts with
    | none =>
      have hempty := firstNonzero_eq_none.1 hi
      exact absurd ((occ_subset_of_subtracted hsub.counts).trans hempty) hne
    | some i =>
      rw [hslot i hi]
      exact ⟨hall i hi, (isLeast_firstNonzero hi).1.2⟩

/-- **When the minimum is stale.** After a subtraction the statistics are those of the counts
unless `restat` was skipped, slot 0 holds samples and the first occupied slot past it lost its
last one. -/
theorem subtract_coherent_iff {g : Histogram} (hc : Coherent fl h) (hs : Kept fl s)
    (hok : h.subtract s = .ok g) :
    Coherent fl g ↔ Restats fl h s ∨ h.counts.getD 0 0 = 0 ∨
      ∀ i, Slots.firstNonzero h.counts = some i →
        movedTo (h.layout fl) (s.layout fl) s.counts i < h.counts.getD i 0 := by
  have hsub := subtracted_of_ok hc.toKept hs hok
  by_cases hneeds : Restats fl h s
  · exact iff_of_true (hsub.restat hneeds) (.inl hneeds)
  rw [coherent_iff_firstNonzero_mem hc hsub hneeds]
  refine ⟨fun hall => ?_, fun hcases i hi => ?_⟩
  · right; right
    intro i hi
    have hmem := hall i hi
    have := hsub.counts i
    rw [mem_occ] at hmem
    omega
  · have hocc : h.counts.getD i 0 ≠ 0 := (isLeast_firstNonzero hi).1.1
    have := hsub.counts i
    rw [mem_occ]
    rcases hcases with hneeds' | h0 | hlt
    · exact absurd hneeds' hneeds
    · have := movedTo_eq_zero hneeds (atExtremum_firstNonzero hc h0 hi)
      omega
    · have := hlt i hi
      omega

theorem subtract_coherent_iff_sample :
    ∃ g, sample.subtract (loadedOf .exact 1 15 0 [0, 0, 2, 0, 0]) = .ok g ∧
      ¬ Coherent .exact g := by
  have hs : Kept .exact (loadedOf .exact 1 15 0 [0, 0, 2, 0, 0]) :=
    (newFromSnapshot_coherent (s := ⟨1, 15, 0, [0, 0, 2, 0, 0]⟩) (by decide +kernel) rfl).toKept
  cases hok : sample.subtract (loadedOf .exact 1 15 0 [0, 0, 2, 0, 0]) with
  | error e =>
    have hsome : (sample.subtract (loadedOf .exact 1 15 0 [0, 0, 2, 0, 0])).toOption.isSome := by
      decide +kernel
    rw [hok] at hsome
    cases hsome
  | ok g =>
    refine ⟨g, rfl, fun hc => ?_⟩
    rcases (subtract_coherent_iff sample_coherent hs hok).1 hc with hr | h0 | hall
    · rcases hr with htotal | ⟨i, hi, hend⟩
      · exact absurd htotal (by decide)
      · obtain rfl : i = 2 := by
          match i, hi with
          | 0, hi | 1, hi | 3, hi | 4, hi | _ + 5, hi => exact absurd rfl hi
          | 2, _ => rfl
        unfold AtExtremum at hend
        revert hend
        decide +kernel
    · exact absurd h0 (by decide)
    · exact absurd (hall 2 (by decide +kernel)) (by decide +kernel)

/-! ## Subtracting what was added -/

theorem movedTo_le_sum (L M : LogLinear) (counts : List Nat) (j : Nat) :
    movedTo L M counts j ≤ counts.sum := by
  have hsub : (((List.range counts.length).filter fun i => L.slot (M.low i) = j).map
      (counts.getD · 0)).Sublist ((List.range counts.length).map (counts.getD · 0)) :=
    List.filter_sublist.map _
  have hsum := Slots.sum_range counts counts.length
  rw [List.take_length] at hsum
  exact hsum ▸ hsub.sum_le_sum fun _ _ => Nat.zero_le _

theorem getD_le_sum (counts : List Nat) (j : Nat) : counts.getD j 0 ≤ counts.sum := by
  by_cases hj : j < counts.length
  · have := Slots.sum_modify hj fun _ => 0
    omega
  · rw [List.getD_eq_default _ _ (Nat.le_of_not_lt hj)]
    exact Nat.zero_le _

/-- **Subtracting what was added** gives every count and the total back, while the total stays
below the cap and the largest `u64` is not among the samples added. -/
theorem add_subtract {g : Histogram} (hk : Kept fl h) (hs : Kept fl s) (hadd : h.add s = .ok g)
    (hmax : addendMax fl s ≠ u64Max) (hfit : h.counts.sum + s.counts.sum < u64Max) :
    ∃ r, g.subtract s = .ok r ∧ Kept fl r ∧
      (∀ j, r.counts.getD j 0 = h.counts.getD j 0) ∧ r.totalCount = h.totalCount := by
  have hroom : h.autoResize = true ∨ addendMax fl s ≤ topOf fl h := by
    by_contra hc
    rw [not_or, Bool.not_eq_true, not_le] at hc
    rw [add_refuses hk hs hc.1 hc.2] at hadd
    cases hadd
  obtain ⟨g', hg', hadded⟩ := add_added hk hs hroom
  obtain rfl : g' = g := Except.ok.inj (hg'.symm.trans hadd)
  have hL : g'.layout fl = h.layout fl := hadded.layout.trans (madeRoom_layout h s)
  -- the samples of the sum
  have hcounts : ∀ j, g'.counts.getD j 0 =
      h.counts.getD j 0 + movedTo (g'.layout fl) (s.layout fl) s.counts j := by
    intro j
    have h1 := getD_le_sum h.counts j
    have h2 := movedTo_le_sum (g'.layout fl) (s.layout fl) s.counts j
    rw [hadded.counts, getD_madeRoom, hadded.layout]
    rw [hadded.layout] at h2
    exact CapSum.add_of_le (by omega)
  have hin : InRange fl g' s := by
    refine ⟨?_, hmax⟩
    rw [hL, hadded.length]
    exact slot_addendMax_lt hk.toShaped s
  obtain ⟨r, hr, hsub⟩ := subtract_subtracted hadded.kept hs hin fun j => by
    rw [hcounts]
    exact Nat.le_add_left _ _
  have hrcounts : ∀ j, r.counts.getD j 0 = h.counts.getD j 0 := fun j => by
    have h1 := hsub.counts j
    have h2 := hcounts j
    omega
  refine ⟨r, hr, hsub.kept, hrcounts, ?_⟩
  have htotal : (madeRoom fl h s).totalCount = h.totalCount := by
    unfold madeRoom
    split <;> rfl
  have h1 := hadded.totalCount
  have h2 := hadded.kept.totalCount
  have h3 := hsub.sum
  rw [htotal, hk.totalCount, hs.totalCount] at h1
  unfold satAdd64 at h1
  rw [hsub.kept.totalCount, hk.totalCount]
  omega

theorem add_subtract_sample : ∃ g r, sample.add sample = .ok g ∧ g.subtract sample = .ok r ∧
    (∀ j, r.counts.getD j 0 = sample.counts.getD j 0) ∧ r.totalCount = sample.totalCount := by
  obtain ⟨g, hadd, -⟩ := add_summed sample_coherent.toKept sample_coherent.toKept
    (by decide +kernel)
  obtain ⟨r, hr, -, hcounts, htotal⟩ := add_subtract sample_coherent.toKept
    sample_coherent.toKept hadd (by decide +kernel) (by decide +kernel)
  exact ⟨g, r, hadd, hr, hcounts, htotal⟩

end Chist.Hdr
