import Chist.Hdr.Combine
import Chist.Hdr.Correct
import Chist.Hdr.Iterators

/-!
# What the iterators yield

`Yields pk h it vs`: from the state `it` the iterator yields `vs`, then ends; a loop over the
iterator is then the fold of its body over `vs` (`Yields.forEach`). `iter_recorded` yields the
occupied bins in order, each with its count and the samples up to it (`iterRecorded_eq`) — but
nothing at all when every sample is in slot 0, since it takes the last occupied bin, index 0, for
already picked. `iter_all` yields every bin (`iterAll_eq`).
-/

set_option autoImplicit false

namespace Chist.Hdr

open Res

variable {ε P : Type} {fl : Floats} {h s : Histogram}

/-! ## Runs of an iterator -/

/-- From `it` on, the iterator yields the values of the list and then ends. -/
inductive Yields (pk : PickyIterator ε P) (h : Histogram) :
    HistogramIterator P → List IterationValue → Prop
  | stop {it it' : HistogramIterator P} (hended : it.ended = false)
      (hturn : HistogramIterator.turn pk h it = .ok (.stop, it')) : Yields pk h it []
  | yield {it it' : HistogramIterator P} {v : IterationValue} {vs : List IterationValue}
      (hended : it.ended = false) (hturn : HistogramIterator.turn pk h it = .ok (.yield v, it'))
      (hindex : it'.currentIndex = it.currentIndex) (hrest : Yields pk h it' vs) :
      Yields pk h it (v :: vs)
  | on {it it' : HistogramIterator P} {vs : List IterationValue} (hended : it.ended = false)
      (hturn : HistogramIterator.turn pk h it = .ok (.on, it'))
      (hlt : it.currentIndex < h.distinctValues)
      (hindex : it'.currentIndex = it.currentIndex + 1) (hrest : Yields pk h it' vs) :
      Yields pk h it vs

section
variable {pk : PickyIterator ε P} {it : HistogramIterator P} {vs : List IterationValue}

/-- The loop of `next` has the turns it needs: one for each index left, and one to end. -/
theorem Yields.nextLoop (hy : Yields pk h it vs) (turns : Nat)
    (hturns : h.distinctValues < turns + it.currentIndex)
    (hle : it.currentIndex ≤ h.distinctValues) :
    ∃ it', HistogramIterator.nextLoop pk h turns it = .ok (vs.head?, it') ∧
      ∀ v rest, vs = v :: rest → it'.currentIndex ≤ h.distinctValues ∧ Yields pk h it' rest := by
  induction hy generalizing turns with
  | @stop it it' hended hturn =>
    obtain ⟨turns, rfl⟩ : ∃ t, turns = t + 1 := ⟨turns - 1, by omega⟩
    refine ⟨it', ?_, by simp⟩
    simp only [HistogramIterator.nextLoop, hended, Bool.false_eq_true, if_false, hturn, ok_bind]
    rfl
  | @yield it it' v vs hended hturn hindex hrest =>
    obtain ⟨turns, rfl⟩ : ∃ t, turns = t + 1 := ⟨turns - 1, by omega⟩
    refine ⟨it', ?_, ?_⟩
    · simp only [HistogramIterator.nextLoop, hended, Bool.false_eq_true, if_false, hturn, ok_bind]
      rfl
    · intro w rest hcons
      obtain ⟨-, rfl⟩ := List.cons.inj hcons
      exact ⟨hindex.trans_le hle, hrest⟩
  | on hended hturn hlt hindex hrest ih =>
    obtain ⟨turns, rfl⟩ : ∃ t, turns = t + 1 := ⟨turns - 1, by omega⟩
    obtain ⟨it', h1, h2⟩ := ih turns (by omega) (by omega)
    refine ⟨it', ?_, h2⟩
    simp only [HistogramIterator.nextLoop, hended, Bool.false_eq_true, if_false, hturn, ok_bind]
    exact h1

/-- **A loop over an iterator** is the fold of its body over the values yielded. -/
theorem Yields.forEach (hy : Yields pk h it vs) (hle : it.currentIndex ≤ h.distinctValues)
    {σ : Type} (body : σ → IterationValue → Res ε σ) {fuel : Nat} (hfuel : vs.length < fuel)
    (acc : σ) : it.forEach pk h body fuel acc = vs.foldlM body acc := by
  induction vs generalizing it fuel acc with
  | nil =>
    obtain ⟨fuel, rfl⟩ : ∃ n, fuel = n + 1 := ⟨fuel - 1, by simp at hfuel; omega⟩
    obtain ⟨it', h1, -⟩ := hy.nextLoop (h.distinctValues + 1) (by omega) hle
    simp only [HistogramIterator.forEach, HistogramIterator.next, h1, ok_bind, List.head?_nil]
    rfl
  | cons v vs ih =>
    obtain ⟨fuel, rfl⟩ : ∃ n, fuel = n + 1 := ⟨fuel - 1, by simp at hfuel; omega⟩
    obtain ⟨it', h1, h2⟩ := hy.nextLoop (h.distinctValues + 1) (by omega) hle
    simp only [HistogramIterator.forEach, HistogramIterator.next, h1, ok_bind, List.head?_cons,
      List.foldlM_cons]
    refine congrArg _ (funext fun acc' => ?_)
    obtain ⟨hle', hy'⟩ := h2 _ _ rfl
    exact ih hy' hle' (by simp at hfuel; omega) acc'

end

/-! ## One bin -/

/-- The samples in the bins before `i`. -/
def countTo (counts : List Nat) (i : Nat) : Nat := min (counts.take i).sum u64Max

/-- Bin `i` as the iterators yield it. -/
def bin (fl : Floats) (h : Histogram) (i : Nat) : IterationValue where
  valueIteratedTo := (h.layout fl).highest i
  totalCountToIndex := countTo h.counts (i + 1)
  countAtValue := h.counts.getD i 0
  countSinceLastIteration := h.counts.getD i 0

theorem countTo_succ (counts : List Nat) (i : Nat) :
    satAdd64 (countTo counts i) (counts.getD i 0) = countTo counts (i + 1) := by
  unfold satAdd64 countTo
  rw [Slots.sum_take_succ]
  omega

/-- The picker takes the bins whose count is wanted, each once, and goes on past the last occupied
bin if `goesOn`. -/
structure PicksOnce (pk : PickyIterator ε (Option Nat)) (wanted : Nat → Bool) (goesOn : Bool) :
    Prop where
  pick : ∀ visited i total c,
    pk.pick visited i total c = .ok (pickOnce (wanted c) visited i)
  more : ∀ visited i, pk.more visited i = .ok (goesOn, visited)
  /-- Only empty bins are left out. -/
  eq_zero : ∀ c, wanted c = false → c = 0

theorem recordedIter_picksOnce :
    PicksOnce (recordedIter (ε := ε)) (fun c => decide (c ≠ 0)) false where
  pick _ _ _ _ := rfl
  more _ _ := rfl
  eq_zero c hc := by simpa using hc

theorem allIter_picksOnce : PicksOnce (allIter (ε := ε)) (fun _ => true) true where
  pick _ _ _ _ := rfl
  more _ _ := rfl
  eq_zero _ hc := by cases hc

theorem pickOnce_new {visited : Option Nat} {i : Nat} (hi : visited ≠ some i) :
    pickOnce true visited i = (some ⟨none⟩, some i) := by
  simp [pickOnce, hi]

theorem pickOnce_again (wanted : Bool) (i : Nat) :
    pickOnce wanted (some i) i = (none, some i) := by
  simp [pickOnce]

theorem pickOnce_unwanted (visited : Option Nat) (i : Nat) :
    pickOnce false visited i = (none, visited) := by
  simp [pickOnce]

section
variable {pk : PickyIterator ε (Option Nat)} {wanted : Nat → Bool} {goesOn : Bool}
  (hk : Kept fl h) {i t n c p m : Nat} {visited : Option Nat}

theorem getElem?_counts (hi : i < h.counts.length) :
    h.counts[i]? = some (h.counts.getD i 0) := by
  rw [List.getD_eq_getElem _ _ hi, List.getElem?_eq_getElem hi]

include hk

theorem highestOfBin (hi : i < h.counts.length) :
    (do let value ← h.valueFor i
        h.highestEquivalent value) = (.ok ((h.layout fl).highest i) : Res ε Nat) := by
  have hlow := hk.toSized.low_lt hi
  rw [valueFor_eq hk.toHasLayout hlow, ok_bind, highestEquivalent_eq hk.toHasLayout hlow,
    if_neg (Nat.ne_of_lt (low_lt_u64Max hk.base_le hlow)), LogLinear.slot_low]

theorem offer_yield (hi : i < h.counts.length) {it : HistogramIterator (Option Nat)}
    (hindex : it.currentIndex = i)
    (hpick : pk.pick it.picker i it.totalCountToIndex it.countAtIndex =
      .ok (some ⟨none⟩, some i)) :
    HistogramIterator.offer pk h it = .ok (.yield ⟨(h.layout fl).highest i, it.totalCountToIndex,
      h.counts.getD i 0, it.countSinceLastIteration⟩, { it with
        picker := some i
        countSinceLastIteration := 0
        lastPickedIndex := i }) := by
  have hvalue := highestOfBin (ε := ε) hk hi
  unfold HistogramIterator.offer
  simp only [hindex, hpick, ok_bind, Histogram.countAtIndex, getElem?_counts hi,
    expectSome_some, pure_eq_ok]
  rw [← bind_assoc, hvalue]
  rfl

theorem offer_on (hi : i < h.counts.length) {it : HistogramIterator (Option Nat)}
    {q : Option Nat} (hindex : it.currentIndex = i)
    (hpick : pk.pick it.picker i it.totalCountToIndex it.countAtIndex = .ok (none, q)) :
    HistogramIterator.offer pk h it =
      .ok (.on, { it with picker := q, currentIndex := i + 1, fresh := true }) := by
  have hlen := length_lt_two_pow hk.toShaped
  unfold HistogramIterator.offer
  simp only [hindex, hpick, ok_bind]
  rw [checkU_ok (by omega)]
  rfl

omit hk in
/-- A fresh bin up to the last occupied one is counted before it is offered. -/
theorem turn_fresh (hi : i < h.counts.length) (hp : p < m) :
    HistogramIterator.turn pk h ⟨t, n, c, i, p, m, true, false, visited⟩ =
      HistogramIterator.offer pk h ⟨satAdd64 t (h.counts.getD i 0),
        satAdd64 n (h.counts.getD i 0), h.counts.getD i 0, i, p, m, false, false, visited⟩ := by
  have hne : i ≠ h.distinctValues := Nat.ne_of_lt hi
  have hassert : decide (i < h.distinctValues) = true := decide_eq_true hi
  unfold HistogramIterator.turn HistogramIterator.count
  simp only [hne, if_false, Nat.not_le.2 hp, assert_ok hassert, ok_bind, if_true,
    Histogram.countAtIndex, getElem?_counts hi, expectSome_some, pure_eq_ok]

omit hk in
/-- A bin that was picked, before the last occupied one, is only offered again. -/
theorem turn_again (hi : i < h.counts.length) (hp : p < m) :
    HistogramIterator.turn pk h ⟨t, n, c, i, p, m, false, false, visited⟩ =
      HistogramIterator.offer pk h ⟨t, n, c, i, p, m, false, false, visited⟩ := by
  have hne : i ≠ h.distinctValues := Nat.ne_of_lt hi
  have hassert : decide (i < h.distinctValues) = true := decide_eq_true hi
  unfold HistogramIterator.turn HistogramIterator.count
  simp only [hne, if_false, Nat.not_le.2 hp, assert_ok hassert, ok_bind, Bool.false_eq_true,
    pure_eq_ok]

omit hk in
/-- Once the last occupied bin is picked, the picker decides. -/
theorem turn_past (hpk : PicksOnce pk wanted goesOn) (hi : i < h.counts.length) (hp : m ≤ p)
    (f : Bool) : HistogramIterator.turn pk h ⟨t, n, c, i, p, m, f, false, visited⟩ =
      if goesOn then HistogramIterator.offer pk h ⟨t, n, c, i, p, m, f, false, visited⟩
      else .ok (.stop, ⟨t, n, c, i, p, m, f, true, visited⟩) := by
  have hne : i ≠ h.distinctValues := Nat.ne_of_lt hi
  unfold HistogramIterator.turn
  simp only [hne, if_false, hp, if_true, hpk.more, ok_bind]
  cases goesOn <;> rfl

/-! ## Runs over the bins -/

section
variable (hpk : PicksOnce pk wanted goesOn) (hi : i < h.counts.length) (hp : p < m)
  (hvisited : ∀ j, visited = some j → j < i)
include hpk hi hp

include hvisited in
theorem turn_yield (hw : wanted (h.counts.getD i 0) = true) :
    HistogramIterator.turn pk h ⟨countTo h.counts i, 0, c, i, p, m, true, false, visited⟩ =
      .ok (.yield (bin fl h i), ⟨countTo h.counts (i + 1), 0, h.counts.getD i 0, i, i, m, false,
        false, some i⟩) := by
  have hne : visited ≠ some i := fun he => Nat.lt_irrefl i (hvisited i he)
  have hsince : satAdd64 0 (h.counts.getD i 0) = h.counts.getD i 0 :=
    CapSum.zero_add_of_le (hk.getD_le i)
  rw [turn_fresh hi hp, countTo_succ, hsince,
    offer_yield hk hi rfl (by rw [hpk.pick, hw, pickOnce_new hne])]
  rfl

theorem turn_skip (hw : wanted (h.counts.getD i 0) = false) :
    HistogramIterator.turn pk h ⟨countTo h.counts i, 0, c, i, p, m, true, false, visited⟩ =
      .ok (.on, ⟨countTo h.counts (i + 1), 0, 0, i + 1, p, m, true, false, visited⟩) := by
  have hzero := hpk.eq_zero _ hw
  rw [turn_fresh hi hp, countTo_succ,
    offer_on hk hi rfl (by rw [hpk.pick, hw, pickOnce_unwanted]), hzero]
  rfl

end

/-- Up to bin `m`, the last occupied one: the bins that are wanted. -/
theorem yields_upTo (i p c : Nat) (visited : Option Nat) (hpk : PicksOnce pk wanted goesOn)
    (hm : m < h.counts.length) (hwanted : wanted (h.counts.getD m 0) = true)
    {rest : List IterationValue}
    (hrest : Yields pk h ⟨countTo h.counts (m + 1), 0, h.counts.getD m 0, m, m, m, false, false,
      some m⟩ rest)
    (hi : i ≤ m) (hp : p < m) (hvisited : ∀ j, visited = some j → j < i) :
    Yields pk h ⟨countTo h.counts i, 0, c, i, p, m, true, false, visited⟩
      (((List.range' i (m + 1 - i)).filter fun j => wanted (h.counts.getD j 0)).map (bin fl h) ++
        rest) := by
  induction hd : m - i generalizing i p c visited with
  | zero =>
    obtain rfl : i = m := by omega
    have hone : (List.range' i (i + 1 - i)).filter (fun j => wanted (h.counts.getD j 0)) = [i] := by
      rw [Nat.add_sub_cancel_left, List.range'_one,
        List.filter_cons_of_pos (p := fun j => wanted (h.counts.getD j 0)) hwanted, List.filter_nil]
    rw [hone, List.map_singleton, List.singleton_append]
    exact .yield rfl (turn_yield hk hpk hm hp hvisited hwanted) rfl hrest
  | succ d ih =>
    have hlt : i < h.counts.length := by omega
    have hrange : List.range' i (m + 1 - i) = i :: List.range' (i + 1) (m + 1 - (i + 1)) := by
      rw [show m + 1 - i = (m + 1 - (i + 1)) + 1 by omega, List.range'_succ]
    rw [hrange]
    cases hw : wanted (h.counts.getD i 0) with
    | true =>
      have hagain : HistogramIterator.turn pk h ⟨countTo h.counts (i + 1), 0, h.counts.getD i 0, i,
          i, m, false, false, some i⟩ = .ok (.on, ⟨countTo h.counts (i + 1), 0, h.counts.getD i 0,
            i + 1, i, m, true, false, some i⟩) := by
        rw [turn_again hlt (by omega)]
        exact offer_on hk hlt rfl (by rw [hpk.pick, pickOnce_again])
      have hnext := ih (i + 1) i (h.counts.getD i 0) (some i) (by omega) (by omega) (by simp)
        (by omega)
      rw [List.filter_cons_of_pos (p := fun j => wanted (h.counts.getD j 0)) hw, List.map_cons,
        List.cons_append]
      exact .yield rfl (turn_yield hk hpk hlt hp hvisited hw) rfl (.on rfl hagain hlt rfl hnext)
    | false =>
      have hnext := ih (i + 1) p 0 visited (by omega) hp
        (fun j hj => Nat.lt_succ_of_lt (hvisited j hj)) (by omega)
      rw [List.filter_cons_of_neg (p := fun j => wanted (h.counts.getD j 0))
        (ne_true_of_eq_false hw)]
      exact .on rfl (turn_skip hk hpk hlt hp hw) hlt rfl hnext

/-- Past it, every bin, for a picker that goes on. -/
theorem yields_past (i p : Nat) (visited : Option Nat)
    (hpk : PicksOnce pk (fun _ => true) true) (hi : i ≤ h.counts.length) (hm : m ≤ i)
    (hp : m ≤ p) (hvisited : ∀ j, visited = some j → j < i) :
    Yields pk h ⟨t, 0, c, i, p, m, true, false, visited⟩
      ((List.range' i (h.counts.length - i)).map fun j =>
        ⟨(h.layout fl).highest j, t, h.counts.getD j 0, 0⟩) := by
  induction hd : h.counts.length - i generalizing i p visited with
  | zero =>
    have hend : i = h.distinctValues := by unfold Histogram.distinctValues; omega
    have hstop : HistogramIterator.turn pk h ⟨t, 0, c, i, p, m, true, false, visited⟩ =
        .ok (.stop, ⟨t, 0, c, i, p, m, true, true, visited⟩) := by
      unfold HistogramIterator.turn
      simp only [hend, if_true]
      rfl
    exact .stop rfl hstop
  | succ d ih =>
    have hlt : i < h.counts.length := by omega
    have hne : visited ≠ some i := fun he => Nat.lt_irrefl i (hvisited i he)
    have hnext := ih (i + 1) i (some i) (by omega) (by omega) hm (by simp) (by omega)
    have hagain : HistogramIterator.turn pk h ⟨t, 0, c, i, i, m, true, false, some i⟩ =
        .ok (.on, ⟨t, 0, c, i + 1, i, m, true, false, some i⟩) := by
      rw [turn_past hpk hlt hm, if_pos rfl]
      exact offer_on hk hlt rfl (by rw [hpk.pick, pickOnce_again])
    have hfirst : HistogramIterator.turn pk h ⟨t, 0, c, i, p, m, true, false, visited⟩ =
        .ok (.yield ⟨(h.layout fl).highest i, t, h.counts.getD i 0, 0⟩,
          ⟨t, 0, c, i, i, m, true, false, some i⟩) := by
      rw [turn_past hpk hlt hp, if_pos rfl]
      exact offer_yield hk hlt rfl (by rw [hpk.pick, pickOnce_new hne])
    rw [List.range'_succ, List.map_cons]
    exact .yield rfl hfirst rfl (.on rfl hagain hlt rfl hnext)

end

/-! ## `iter_recorded` and `iter_all` -/

theorem occupied_eq_filter (counts : List Nat) (h0 : 0 < counts.length) :
    Slots.occupied counts =
      (List.range' 0 (Slots.last counts + 1)).filter fun i => decide (counts.getD i 0 ≠ 0) := by
  have hlt := Slots.last_lt_length h0
  have hrest : (List.range' (0 + 1 * (Slots.last counts + 1))
      (counts.length - (Slots.last counts + 1))).filter (fun i => decide (counts.getD i 0 ≠ 0)) =
      [] := by
    rw [List.filter_eq_nil_iff]
    intro i hi hne
    have hle := Slots.le_last (of_decide_eq_true hne)
    have hge := (List.mem_range'_1.1 hi).1
    omega
  unfold Slots.occupied
  conv_lhs => rw [List.range_eq_range', show counts.length =
    Slots.last counts + 1 + (counts.length - (Slots.last counts + 1)) by omega,
    ← List.range'_append, List.filter_append, hrest, List.append_nil]

def recordedBins (fl : Floats) (h : Histogram) : List IterationValue :=
  if Slots.last h.counts = 0 then [] else (Slots.occupied h.counts).map (bin fl h)

/-- The bins `iter_all` yields. With no sample past slot 0, none is ever counted. -/
def allBins (fl : Floats) (h : Histogram) : List IterationValue :=
  (List.range h.counts.length).map fun i =>
    if Slots.last h.counts = 0 then ⟨(h.layout fl).highest i, 0, h.counts.getD i 0, 0⟩
    else bin fl h i

/-- The iterator that just yielded the last occupied bin. -/
def pickedLast (h : Histogram) : HistogramIterator (Option Nat) where
  totalCountToIndex := countTo h.counts (Slots.last h.counts + 1)
  countSinceLastIteration := 0
  countAtIndex := h.counts.getD (Slots.last h.counts) 0
  currentIndex := Slots.last h.counts
  lastPickedIndex := Slots.last h.counts
  maxValueIndex := Slots.last h.counts
  fresh := false
  ended := false
  picker := some (Slots.last h.counts)

section
variable (hk : Kept fl h)
include hk

theorem iterator_new (picker : P) : HistogramIterator.new (ε := ε) h picker =
    .ok ⟨0, 0, 0, 0, 0, Slots.last h.counts, true, false, picker⟩ := by
  unfold HistogramIterator.new
  rw [hk.max, ok_bind, indexFor_eq hk.toHasLayout maxOf_lt, ok_bind, hk.slot_maxOf,
    expectSome_some, ok_bind]
  rfl

theorem yields_recorded : Yields (recordedIter (ε := ε)) h
    ⟨0, 0, 0, 0, 0, Slots.last h.counts, true, false, none⟩ (recordedBins fl h) := by
  have hlast := hk.last_lt
  unfold recordedBins
  by_cases h0 : Slots.last h.counts = 0
  · rw [if_pos h0]
    exact .stop rfl (turn_past recordedIter_picksOnce hk.length_pos (Nat.le_of_eq h0) true)
  · have hne : Slots.occupied h.counts ≠ [] := fun he => h0 (by simp [Slots.last, he])
    have hwanted : decide (h.counts.getD (Slots.last h.counts) 0 ≠ 0) = true :=
      decide_eq_true (Slots.getD_last_ne_zero hne)
    have hdone : Yields (recordedIter (ε := ε)) h (pickedLast h) [] :=
      .stop rfl (turn_past recordedIter_picksOnce hlast (Nat.le_refl _) false)
    rw [if_neg h0, occupied_eq_filter _ hk.length_pos]
    have hrun := yields_upTo hk 0 0 0 none recordedIter_picksOnce hlast hwanted hdone
      (Nat.zero_le _) (Nat.pos_of_ne_zero h0) (by simp)
    rwa [List.append_nil] at hrun

omit hk in
theorem countTo_past {i : Nat} (hi : Slots.last h.counts < i) :
    countTo h.counts i = countTo h.counts (Slots.last h.counts + 1) ∧ h.counts.getD i 0 = 0 := by
  have hzero : ∀ j, Slots.last h.counts < j → h.counts.getD j 0 = 0 := fun j hj => by
    by_contra hne
    exact Nat.not_le.2 hj (Slots.le_last hne)
  refine ⟨?_, hzero i hi⟩
  obtain ⟨d, rfl⟩ : ∃ d, i = Slots.last h.counts + 1 + d :=
    ⟨i - (Slots.last h.counts + 1), by omega⟩
  clear hi
  induction d with
  | zero => rfl
  | succ d ih =>
    unfold countTo at ih ⊢
    rw [← Nat.add_assoc, Slots.sum_take_succ, hzero _ (by omega), Nat.add_zero, ih]

theorem yields_all : Yields (allIter (ε := ε)) h
    ⟨0, 0, 0, 0, 0, Slots.last h.counts, true, false, none⟩ (allBins fl h) := by
  have hlast := hk.last_lt
  unfold allBins
  by_cases h0 : Slots.last h.counts = 0
  · simp only [h0, if_true]
    rw [List.range_eq_range']
    exact yields_past hk 0 0 none allIter_picksOnce (Nat.zero_le _) (Nat.le_refl 0)
      (Nat.le_refl 0) (by simp)
  · have hpast := yields_past (ε := ε) (t := countTo h.counts (Slots.last h.counts + 1))
      (c := h.counts.getD (Slots.last h.counts) 0) hk (Slots.last h.counts + 1)
      (Slots.last h.counts) (some (Slots.last h.counts)) allIter_picksOnce hlast (Nat.le_succ _)
      (Nat.le_refl _) (by simp)
    have hagain : HistogramIterator.turn (allIter (ε := ε)) h (pickedLast h) =
        .ok (.on, { pickedLast h with
          currentIndex := Slots.last h.counts + 1, fresh := true }) := by
      rw [pickedLast, turn_past allIter_picksOnce hlast (Nat.le_refl _), if_pos rfl]
      exact offer_on hk hlast rfl (by rw [allIter_picksOnce.pick, pickOnce_again])
    have hrun := yields_upTo hk 0 0 0 none allIter_picksOnce hlast rfl
      (.on rfl hagain hlast rfl hpast) (Nat.zero_le _) (Nat.pos_of_ne_zero h0) (by simp)
    have hsplit : (List.range h.counts.length).map (bin fl h) =
        ((List.range' 0 (Slots.last h.counts + 1 - 0)).filter fun _ => true).map (bin fl h) ++
          (List.range' (Slots.last h.counts + 1)
            (h.counts.length - (Slots.last h.counts + 1))).map fun j =>
              (⟨(h.layout fl).highest j, countTo h.counts (Slots.last h.counts + 1),
                h.counts.getD j 0, 0⟩ : IterationValue) := by
      have hmap : ∀ j ∈ List.range' (Slots.last h.counts + 1)
          (h.counts.length - (Slots.last h.counts + 1)), bin fl h j =
          ⟨(h.layout fl).highest j, countTo h.counts (Slots.last h.counts + 1),
            h.counts.getD j 0, 0⟩ := by
        intro j hj
        have hge := (List.mem_range'_1.1 hj).1
        obtain ⟨-, hj0⟩ := countTo_past (h := h) (i := j) (by omega)
        obtain ⟨htotal, -⟩ := countTo_past (h := h) (i := j + 1) (by omega)
        rw [bin, htotal, hj0]
      rw [← List.map_congr_left hmap, List.filter_true, ← List.map_append]
      refine congrArg _ ?_
      rw [List.range_eq_range', Nat.sub_zero]
      conv_lhs => rw [show h.counts.length = Slots.last h.counts + 1 +
        (h.counts.length - (Slots.last h.counts + 1)) by omega, ← List.range'_append]
      rw [Nat.zero_add, Nat.one_mul]
    simp only [h0, if_false]
    rw [hsplit]
    exact hrun

omit hk in
theorem length_bins_le (fl : Floats) (h : Histogram) :
    (recordedBins fl h).length < h.distinctValues + 1 ∧
      (allBins fl h).length < h.distinctValues + 1 := by
  refine ⟨?_, ?_⟩
  · unfold recordedBins
    split
    · exact Nat.succ_pos _
    · rw [List.length_map]
      exact Nat.lt_succ_of_le ((List.length_filter_le _ _).trans_eq List.length_range)
  · unfold allBins
    rw [List.length_map, List.length_range]
    exact Nat.lt_succ_self _

theorem forBins_recorded {σ : Type} (body : σ → IterationValue → Res ε σ) (acc : σ) :
    h.forBins recordedIter body acc = (recordedBins fl h).foldlM body acc := by
  unfold Histogram.forBins
  rw [iterator_new hk, ok_bind]
  exact (yields_recorded hk).forEach (Nat.zero_le _) body (length_bins_le fl h).1 acc

theorem forBins_all {σ : Type} (body : σ → IterationValue → Res ε σ) (acc : σ) :
    h.forBins allIter body acc = (allBins fl h).foldlM body acc := by
  unfold Histogram.forBins
  rw [iterator_new hk, ok_bind]
  exact (yields_all hk).forEach (Nat.zero_le _) body (length_bins_le fl h).2 acc

end

theorem foldlM_push (vs acc : List IterationValue) :
    vs.foldlM (fun vs v => (return vs ++ [v] : Res ε _)) acc = .ok (acc ++ vs) := by
  induction vs generalizing acc with
  | nil => rw [List.append_nil]; rfl
  | cons v vs ih => rw [List.foldlM_cons, pure_eq_ok, ok_bind, ih, List.append_assoc]; rfl

/-- **`iter_recorded`** yields the occupied bins in order, each with its count and the samples up
to it, unless all samples are in slot 0: then it yields nothing. -/
theorem iterRecorded_eq (hk : Kept fl h) :
    h.iterRecorded (ε := ε) = .ok (recordedBins fl h) := by
  unfold Histogram.iterRecorded
  rw [forBins_recorded hk, foldlM_push, List.nil_append]

theorem iterRecorded_eq_sample :
    sample.iterRecorded (ε := Empty) = .ok (recordedBins .exact sample) :=
  iterRecorded_eq sample_coherent.toKept

/-- **`iter_all`** yields every bin in order. -/
theorem iterAll_eq (hk : Kept fl h) : h.iterAll (ε := ε) = .ok (allBins fl h) := by
  unfold Histogram.iterAll
  rw [forBins_all hk, foldlM_push, List.nil_append]

end Chist.Hdr
