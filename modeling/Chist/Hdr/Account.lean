import Chist.Hdr.Visit

/-!
# Iterators lose no counts

Whatever the picker of an iterator takes, the counts it reports since the last value add up: each
value's running total is the sum of the counts reported so far, and the number of samples up to its
bin (`forEach_accounts`).
-/

set_option autoImplicit false

namespace Chist.Hdr

open Res

variable {ε P : Type} {fl : Floats} {h : Histogram} {pk : PickyIterator ε P}
  {it it' : HistogramIterator P} {vs : List IterationValue}

/-- The value after the values `vs`: its counts are those of a bin, and add up. -/
def Accounted (h : Histogram) (vs : List IterationValue) (v : IterationValue) : Prop :=
  v.totalCountToIndex = (vs.map (·.countSinceLastIteration)).sum + v.countSinceLastIteration ∧
    ∃ i < h.counts.length, v.totalCountToIndex = (h.counts.take (i + 1)).sum ∧
      v.countAtValue = h.counts.getD i 0

/-- The bins counted so far. -/
def HistogramIterator.reach (it : HistogramIterator P) : Nat :=
  if it.fresh then it.currentIndex else it.currentIndex + 1

/-- The iterator that has yielded `vs`. -/
structure Account (h : Histogram) (vs : List IterationValue) (it : HistogramIterator P) :
    Prop where
  index : it.currentIndex ≤ h.counts.length
  maxIndex : it.maxValueIndex = Slots.last h.counts
  total : it.totalCountToIndex = (h.counts.take it.reach).sum
  since : (vs.map (·.countSinceLastIteration)).sum + it.countSinceLastIteration =
    it.totalCountToIndex
  past : it.maxValueIndex ≤ it.lastPickedIndex → it.maxValueIndex < it.reach
  yielded : ∀ k v, vs[k]? = some v → Accounted h (vs.take k) v

/-- What a turn leaves of the account: the iterator may have yielded one value more. -/
def AccountAfter (h : Histogram) (vs : List IterationValue) (t : Turn)
    (it : HistogramIterator P) : Prop :=
  match t with
  | .stop => True
  | .yield v => Account h (vs ++ [v]) it
  | .on => Account h vs it

theorem getD_of_expect {msg : String} {i c : Nat}
    (hc : expectSome (ε := ε) msg (h.countAtIndex i) = .ok c) : h.counts.getD i 0 = c := by
  unfold Histogram.countAtIndex at hc
  rw [List.getD_eq_getElem?_getD]
  cases hget : h.counts[i]? with
  | some c' => rw [hget] at hc; exact Except.ok.inj hc
  | none => rw [hget] at hc; cases hc

/-! ## One turn -/

/-- An offer yields the counts gathered and starts over, or goes on to the next index. -/
theorem offer_cases {t : Turn} (hoffer : HistogramIterator.offer pk h it = .ok (t, it')) :
    (∃ value picker, t = .yield ⟨value, it.totalCountToIndex, h.counts.getD it.currentIndex 0,
        it.countSinceLastIteration⟩ ∧
      it' = { it with
        picker := picker
        countSinceLastIteration := 0
        lastPickedIndex := it.currentIndex }) ∨
    ∃ picker, t = .on ∧
      it' = { it with picker := picker, currentIndex := it.currentIndex + 1, fresh := true } := by
  unfold HistogramIterator.offer at hoffer
  obtain ⟨⟨metadata, picker⟩, -, hoffer⟩ := bind_eq_ok.1 hoffer
  cases metadata with
  | some metadata =>
    left
    obtain ⟨value, hvalue⟩ : ∃ value, (do
        let countAtValue ← expectSome "current index cannot exceed counts length"
          (h.countAtIndex it.currentIndex)
        let value := ⟨value, it.totalCountToIndex, countAtValue, it.countSinceLastIteration⟩
        return (.yield value, { it with
          picker := picker
          countSinceLastIteration := 0
          lastPickedIndex := it.currentIndex })) = (.ok (t, it') : Res ε _) := by
      simp only at hoffer
      split at hoffer
      · exact ⟨_, hoffer⟩
      · obtain ⟨_, -, hoffer⟩ := bind_eq_ok.1 hoffer
        obtain ⟨value, -, hoffer⟩ := bind_eq_ok.1 hoffer
        exact ⟨value, hoffer⟩
    obtain ⟨c, hc, hvalue⟩ := bind_eq_ok.1 hvalue
    obtain ⟨rfl, rfl⟩ := Prod.mk.inj (Except.ok.inj hvalue)
    have hc := getD_of_expect hc
    exact ⟨value, picker, by rw [hc], rfl⟩
  | none =>
    right
    obtain ⟨next, hnext, hoffer⟩ := bind_eq_ok.1 hoffer
    obtain ⟨rfl, rfl⟩ := Prod.mk.inj (Except.ok.inj hoffer)
    unfold checkU at hnext
    split at hnext
    · exact ⟨picker, rfl, by rw [← Except.ok.inj hnext]⟩
    · cases hnext

theorem Account.picker (ha : Account h vs it) (picker : P) :
    Account h vs { it with picker := picker } :=
  ⟨ha.index, ha.maxIndex, ha.total, ha.since, ha.past, ha.yielded⟩

/-- The index is offered once its count is in, or past the last occupied bin. -/
theorem Account.offer (ha : Account h vs it) (hindex : it.currentIndex < h.counts.length)
    (hcounted : it.fresh = false ∨ it.maxValueIndex ≤ it.lastPickedIndex) {t : Turn}
    (hoffer : HistogramIterator.offer pk h it = .ok (t, it')) :
    AccountAfter h vs t it' := by
  -- past the last occupied bin the running total is that of the histogram
  have hreach : (h.counts.take it.reach).sum = (h.counts.take (it.currentIndex + 1)).sum ∧
      (it.maxValueIndex ≤ it.lastPickedIndex → it.maxValueIndex < it.currentIndex + 1) := by
    have hle : it.reach ≤ it.currentIndex + 1 := by
      unfold HistogramIterator.reach
      split <;> omega
    refine ⟨?_, fun hp => (ha.past hp).trans_le hle⟩
    rcases hcounted with hfresh | hp
    · rw [HistogramIterator.reach, hfresh]
      rfl
    · have hlt := ha.past hp
      rw [ha.maxIndex] at hlt
      rw [Slots.sum_take_of_last_lt hlt, Slots.sum_take_of_last_lt (hlt.trans_le hle)]
  rcases offer_cases hoffer with ⟨value, picker, rfl, rfl⟩ | ⟨picker, rfl, rfl⟩
  · refine ⟨ha.index, ha.maxIndex, ha.total, ?_, ?_, ?_⟩
    · rw [List.map_append, List.sum_append]
      exact ha.since
    · intro hp
      show it.maxValueIndex < it.reach
      by_cases hp' : it.maxValueIndex ≤ it.lastPickedIndex
      · exact ha.past hp'
      · have hfresh : it.fresh = false := hcounted.resolve_right hp'
        rw [HistogramIterator.reach, hfresh]
        exact Nat.lt_succ_of_le hp
    · intro k v hv
      rcases Nat.lt_or_ge k vs.length with hk | hk
      · rw [List.getElem?_append_left hk] at hv
        rw [List.take_append_of_le_length (Nat.le_of_lt hk)]
        exact ha.yielded k v hv
      · rw [List.getElem?_append_right hk] at hv
        obtain ⟨hk', rfl⟩ := List.getElem?_eq_some_iff.1 hv
        obtain rfl : k = vs.length := by simp at hk'; omega
        rw [List.take_left]
        simp only [Nat.sub_self, List.getElem_singleton]
        exact ⟨ha.since.symm, it.currentIndex, hindex, ha.total.trans hreach.1, rfl⟩
  · refine ⟨hindex, ha.maxIndex, ha.total.trans hreach.1, ha.since, ?_, ha.yielded⟩
    exact hreach.2

theorem Account.count (ha : Account h vs it) (hsum : h.counts.sum ≤ u64Max)
    (hcount : HistogramIterator.count (ε := ε) h it = .ok it') :
    Account h vs it' ∧ it'.fresh = false := by
  unfold HistogramIterator.count at hcount
  obtain ⟨-, -, hcount⟩ := bind_eq_ok.1 hcount
  split at hcount
  · rename_i hfresh
    obtain ⟨c, hc, hcount⟩ := bind_eq_ok.1 hcount
    obtain rfl := Except.ok.inj hcount
    have hc := getD_of_expect hc
    have htotal : it.totalCountToIndex = (h.counts.take it.currentIndex).sum := by
      rw [ha.total, HistogramIterator.reach, if_pos hfresh]
    have hsucc := Slots.sum_take_succ h.counts it.currentIndex
    have hsplit := List.sum_take_add_sum_drop h.counts (it.currentIndex + 1)
    have hsince := ha.since
    have hadd : satAdd64 it.totalCountToIndex c = it.totalCountToIndex + c := by
      unfold satAdd64; omega
    have hadd' : satAdd64 it.countSinceLastIteration c = it.countSinceLastIteration + c := by
      unfold satAdd64; omega
    refine ⟨⟨ha.index, ha.maxIndex, ?_, ?_, ?_, ha.yielded⟩, rfl⟩
    · show satAdd64 it.totalCountToIndex c = (h.counts.take (it.currentIndex + 1)).sum
      omega
    · show _ + satAdd64 it.countSinceLastIteration c = satAdd64 it.totalCountToIndex c
      omega
    · intro hp
      have hlt := ha.past hp
      rw [HistogramIterator.reach, if_pos hfresh] at hlt
      exact Nat.lt_succ_of_lt hlt
  · rename_i hfresh
    obtain rfl := Except.ok.inj hcount
    exact ⟨ha, by simpa using hfresh⟩

theorem index_of_count (hcount : HistogramIterator.count (ε := ε) h it = .ok it') :
    it'.currentIndex = it.currentIndex := by
  unfold HistogramIterator.count at hcount
  obtain ⟨-, -, hcount⟩ := bind_eq_ok.1 hcount
  split at hcount
  · obtain ⟨_, -, hcount⟩ := bind_eq_ok.1 hcount
    exact (Except.ok.inj hcount) ▸ rfl
  · exact (Except.ok.inj hcount) ▸ rfl

theorem Account.turn (ha : Account h vs it) (hsum : h.counts.sum ≤ u64Max) {t : Turn}
    (hturn : HistogramIterator.turn pk h it = .ok (t, it')) :
    AccountAfter h vs t it' := by
  unfold HistogramIterator.turn at hturn
  split at hturn
  · obtain ⟨rfl, -⟩ := Prod.mk.inj (Except.ok.inj hturn)
    trivial
  · rename_i hne
    have hindex : it.currentIndex < h.counts.length := Nat.lt_of_le_of_ne ha.index hne
    split at hturn
    · rename_i hpast
      obtain ⟨⟨more, picker⟩, -, hturn⟩ := bind_eq_ok.1 hturn
      simp only at hturn
      split at hturn
      · obtain ⟨rfl, -⟩ := Prod.mk.inj (Except.ok.inj hturn)
        trivial
      · exact (ha.picker picker).offer hindex (.inr hpast) hturn
    · obtain ⟨it₁, hcount, hturn⟩ := bind_eq_ok.1 hturn
      obtain ⟨ha₁, hfresh⟩ := ha.count hsum hcount
      exact ha₁.offer (index_of_count hcount ▸ hindex) (.inl hfresh) hturn

/-! ## Runs -/

theorem Account.nextLoop (hsum : h.counts.sum ≤ u64Max) (turns : Nat) (ha : Account h vs it)
    {v : IterationValue} (hnext : HistogramIterator.nextLoop pk h turns it = .ok (some v, it')) :
    Account h (vs ++ [v]) it' := by
  induction turns generalizing it with
  | zero => cases hnext
  | succ turns ih =>
    rw [HistogramIterator.nextLoop] at hnext
    split at hnext
    · cases hnext
    · obtain ⟨⟨t, it₁⟩, hturn, hnext⟩ := bind_eq_ok.1 hnext
      have ha₁ := ha.turn hsum hturn
      cases t with
      | stop => cases hnext
      | yield w =>
        obtain ⟨hw, rfl⟩ := Prod.mk.inj (Except.ok.inj hnext)
        exact Option.some.inj hw ▸ ha₁
      | on => exact ih ha₁ hnext

theorem Account.forEach (hsum : h.counts.sum ≤ u64Max) (fuel : Nat) (ha : Account h vs it)
    {ws : List IterationValue}
    (hloop : it.forEach pk h (fun vs v => return vs ++ [v]) fuel vs = .ok ws) :
    ∀ k v, ws[k]? = some v → Accounted h (ws.take k) v := by
  induction fuel generalizing it vs with
  | zero => exact Except.ok.inj hloop ▸ ha.yielded
  | succ fuel ih =>
    rw [HistogramIterator.forEach] at hloop
    obtain ⟨⟨value, it₁⟩, hnext, hloop⟩ := bind_eq_ok.1 hloop
    cases value with
    | none => exact Except.ok.inj hloop ▸ ha.yielded
    | some v =>
      simp only [pure_eq_ok, ok_bind] at hloop
      exact ih (ha.nextLoop hsum _ hnext) hloop

/-- **No iterator loses counts.** Whichever bins its picker takes, the running total of a value is
the number of samples up to a bin of the histogram, and the counts since the last value add up to
it; unless every sample is in slot 0. -/
theorem forEach_accounts (hk : Kept fl h) (hlast : Slots.last h.counts ≠ 0)
    (hsum : h.counts.sum ≤ u64Max) (pk : PickyIterator ε P) (picker : P)
    (hnew : HistogramIterator.new (ε := ε) h picker = .ok it) (fuel : Nat)
    (hloop : it.forEach pk h (fun vs v => return vs ++ [v]) fuel [] = .ok vs) :
    ∀ k v, vs[k]? = some v → Accounted h (vs.take k) v := by
  rw [iterator_new hk] at hnew
  obtain rfl := Except.ok.inj hnew
  have ha : Account h [] ⟨0, 0, 0, 0, 0, Slots.last h.counts, true, false, picker⟩ := by
    refine ⟨Nat.zero_le _, rfl, rfl, rfl, ?_, by simp⟩
    intro hp
    exact absurd (Nat.le_zero.1 hp) hlast
  exact ha.forEach hsum fuel hloop

theorem forEach_accounts_sample : ∃ (it : HistogramIterator LinearPicker)
    (vs : List IterationValue), linearIterator (ε := Empty) sample 4 = .ok it ∧
    HistogramIterator.forEach (linearIter (ε := Empty) sample) sample
      (fun vs v => return vs ++ [v]) 9 it [] = .ok vs ∧
    vs.length = 4 ∧ ∀ k v, vs[k]? = some v → Accounted sample (vs.take k) v := by
  have hnew : HistogramIterator.new (ε := Empty) sample (LinearPicker.mk 4 3 2) =
      .ok ⟨0, 0, 0, 0, 0, 4, true, false, ⟨4, 3, 2⟩⟩ := by decide +kernel
  have hloop : HistogramIterator.forEach (linearIter (ε := Empty) sample) sample
      (fun vs v => return vs ++ [v]) 9 ⟨0, 0, 0, 0, 0, 4, true, false, ⟨4, 3, 2⟩⟩ [] =
      .ok [⟨3, 3, 2, 3⟩, ⟨7, 3, 0, 0⟩, ⟨11, 6, 3, 3⟩, ⟨15, 6, 3, 0⟩] := by decide +kernel
  refine ⟨_, _, ?_, hloop, rfl, ?_⟩
  · decide +kernel
  · exact forEach_accounts sample_coherent.toKept (by decide +kernel) (by decide +kernel)
      (linearIter (ε := Empty) sample) ⟨4, 3, 2⟩ hnew 9 hloop

end Chist.Hdr
