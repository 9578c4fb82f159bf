import Mathlib.Algebra.BigOperators.Group.List.Basic
import Mathlib.Algebra.Order.Ring.Nat
import Mathlib.Data.List.GetD
import Mathlib.Data.List.Pairwise

/-!
# Count vectors

A list of counts, one for each slot. `occupied counts` are the indices of the non-zero counts, in
order; a loop over all slots that skips the empty ones is a loop over `occupied`
(`foldl_zipIdx`, `foldlM_zipIdx`). `last counts` is the last occupied slot, 0 if there is none.
-/

set_option autoImplicit false

namespace Slots

/-- The indices of the non-zero counts. -/
def occupied (counts : List Nat) : List Nat :=
  (List.range counts.length).filter fun i => counts.getD i 0 ≠ 0

/-- The last occupied slot, or slot 0. -/
def last (counts : List Nat) : Nat := (occupied counts).getLast?.getD 0

/-- The first occupied slot after slot 0. -/
def firstNonzero (counts : List Nat) : Option Nat := (occupied counts).find? (· ≠ 0)

variable {counts : List Nat}

theorem mem_occupied {i : Nat} : i ∈ occupied counts ↔ counts.getD i 0 ≠ 0 := by
  unfold occupied
  rw [List.mem_filter, List.mem_range, decide_eq_true_iff]
  refine ⟨And.right, fun h => ⟨?_, h⟩⟩
  by_contra hc
  exact h (List.getD_eq_default _ _ (Nat.le_of_not_lt hc))

theorem lt_length_of_mem {i : Nat} (h : i ∈ occupied counts) : i < counts.length :=
  List.mem_range.1 (List.mem_filter.1 h).1

theorem occupied_sorted : (occupied counts).Pairwise (· < ·) :=
  List.pairwise_lt_range.filter _

/-! ## Loops over slots -/

theorem zipIdx_eq_map (counts : List Nat) :
    counts.zipIdx = (List.range counts.length).map fun i => (counts.getD i 0, i) := by
  apply List.ext_getElem (by simp)
  intro i h1 h2
  have hi : i < counts.length := by simpa using h1
  simp [List.getD_eq_getElem?_getD, List.getElem?_eq_getElem hi]

/-- A loop over the slots that skips the empty ones. -/
theorem foldl_zipIdx {β : Type} (f : β → Nat × Nat → β) (hf : ∀ b i, f b (0, i) = b) (b : β) :
    counts.zipIdx.foldl f b =
      (occupied counts).foldl (fun b i => f b (counts.getD i 0, i)) b := by
  rw [zipIdx_eq_map, List.foldl_map, occupied, List.foldl_filter]
  congr 1
  funext b i
  by_cases h : counts.getD i 0 = 0
  · rw [if_neg (by simpa using h), h, hf]
  · rw [if_pos (by simpa using h)]

theorem foldlM_zipIdx {ε β : Type} (f : β → Nat × Nat → Except ε β)
    (hf : ∀ b i, f b (0, i) = .ok b) (b : β) :
    counts.zipIdx.foldlM f b =
      (occupied counts).foldlM (fun b i => f b (counts.getD i 0, i)) b := by
  rw [zipIdx_eq_map, List.foldlM_map, occupied]
  generalize List.range counts.length = is
  induction is generalizing b with
  | nil => rfl
  | cons i is ih =>
    by_cases h : counts.getD i 0 = 0
    · rw [List.filter_cons_of_neg (by simpa using h), List.foldlM_cons, h, hf]
      exact ih b
    · rw [List.filter_cons_of_pos (by simpa using h), List.foldlM_cons, List.foldlM_cons]
      congr 1
      funext b'
      exact ih b'

/-- A loop over the indices that has nothing to do at an empty slot. -/
theorem foldlM_range {ε β : Type} (f : β → Nat → Except ε β)
    (hf : ∀ i < counts.length, counts.getD i 0 = 0 → ∀ b, f b i = .ok b) (b : β) :
    (List.range counts.length).foldlM f b = (occupied counts).foldlM f b := by
  have hall : ∀ i ∈ List.range counts.length, counts.getD i 0 = 0 → ∀ b, f b i = .ok b :=
    fun i hi => hf i (List.mem_range.1 hi)
  unfold occupied
  generalize List.range counts.length = is at hall ⊢
  induction is generalizing b with
  | nil => rfl
  | cons i is ih =>
    obtain ⟨hi, hall⟩ := List.forall_mem_cons.1 hall
    by_cases h : counts.getD i 0 = 0
    · rw [List.filter_cons_of_neg (by simpa using h), List.foldlM_cons, hi h]
      exact ih b hall
    · rw [List.filter_cons_of_pos (by simpa using h), List.foldlM_cons, List.foldlM_cons]
      congr 1
      funext b'
      exact ih b' hall

theorem sum_filter (counts is : List Nat) :
    ((is.filter (counts.getD · 0 ≠ 0)).map (counts.getD · 0)).sum =
      (is.map (counts.getD · 0)).sum := by
  induction is with
  | nil => rfl
  | cons i is ih =>
    by_cases h : counts.getD i 0 = 0
    · rw [List.filter_cons_of_neg (by simpa using h), List.map_cons, List.sum_cons, h, ih,
        Nat.zero_add]
    · rw [List.filter_cons_of_pos (by simpa using h), List.map_cons, List.map_cons, List.sum_cons,
        List.sum_cons, ih]

theorem sum_take_succ (counts : List Nat) (n : Nat) :
    (counts.take (n + 1)).sum = (counts.take n).sum + counts.getD n 0 := by
  rw [List.take_add_one, List.sum_append, List.getD_eq_getElem?_getD]
  cases counts[n]? <;> simp

theorem sum_take_mono (counts : List Nat) : Monotone fun n => (counts.take n).sum :=
  monotone_nat_of_le_succ fun n => by
    rw [sum_take_succ]
    exact Nat.le_add_right _ _

theorem sum_range (counts : List Nat) (n : Nat) :
    ((List.range n).map (counts.getD · 0)).sum = (counts.take n).sum := by
  induction n with
  | zero => rfl
  | succ n ih =>
    rw [List.range_succ, List.map_append, List.sum_append, ih, sum_take_succ]
    simp

theorem sum_modify {counts : List Nat} {i : Nat} (hi : i < counts.length) (f : Nat → Nat) :
    (counts.modify i f).sum + counts.getD i 0 = counts.sum + f (counts.getD i 0) := by
  induction counts generalizing i with
  | nil => simp at hi
  | cons c counts ih =>
    cases i with
    | zero =>
      rw [List.modify_zero_cons, List.sum_cons, List.sum_cons, List.getD_cons_zero]
      omega
    | succ i =>
      have h := ih (i := i) (by simpa using hi)
      rw [List.modify_succ_cons, List.sum_cons, List.sum_cons, List.getD_cons_succ]
      omega

theorem sum_occupied (counts : List Nat) :
    ((occupied counts).map (counts.getD · 0)).sum = counts.sum := by
  rw [occupied, sum_filter, sum_range, List.take_length]

/-! ## The last slot -/

theorem getD_last_ne_zero (h : occupied counts ≠ []) : counts.getD (last counts) 0 ≠ 0 := by
  rw [← mem_occupied, last, List.getLast?_eq_some_getLast h, Option.getD_some]
  exact List.getLast_mem h

/-- No slot after the last is occupied. -/
theorem le_last {i : Nat} (h : counts.getD i 0 ≠ 0) : i ≤ last counts := by
  have hm := mem_occupied.2 h
  have hne := List.ne_nil_of_mem hm
  rw [last, List.getLast?_eq_some_getLast hne, Option.getD_some]
  exact (occupied_sorted.imp Nat.le_of_lt).rel_getLast hm

theorem last_lt_length (h : 0 < counts.length) : last counts < counts.length := by
  by_cases he : occupied counts = []
  · simpa [last, he] using h
  · exact lt_length_of_mem (mem_occupied.2 (getD_last_ne_zero he))

theorem last_ne_zero_iff : last counts ≠ 0 ↔ ∃ i, 0 < i ∧ counts.getD i 0 ≠ 0 := by
  refine ⟨?_, ?_⟩
  · intro h
    have hne : occupied counts ≠ [] := fun he => h (by simp [last, he])
    exact ⟨_, Nat.pos_of_ne_zero h, getD_last_ne_zero hne⟩
  · rintro ⟨i, hi, hc⟩
    have := le_last hc
    omega

theorem sum_take_last (counts : List Nat) : (counts.take (last counts + 1)).sum = counts.sum := by
  conv_rhs => rw [← List.take_append_drop (last counts + 1) counts, List.sum_append]
  have : (counts.drop (last counts + 1)).sum = 0 := by
    refine List.sum_eq_zero fun c hc => ?_
    obtain ⟨k, hk, rfl⟩ := List.mem_iff_getElem.1 hc
    rw [List.length_drop] at hk
    rw [List.getElem_drop]
    by_contra hne
    have : last counts + 1 + k ≤ last counts :=
      le_last (by rwa [List.getD_eq_getElem _ _ (by omega)])
    omega
  omega

theorem sum_take_of_last_lt {i : Nat} (hi : last counts < i) :
    (counts.take i).sum = counts.sum := by
  refine Nat.le_antisymm ?_ ?_
  · have := List.sum_take_add_sum_drop counts i
    omega
  · rw [← sum_take_last counts]
    exact sum_take_mono counts hi

/-! ## Slot by slot -/

section
variable {f : Nat → Nat → Nat} (hf : ∀ x y, f x y = 0 ↔ x = 0 ∧ y = 0) {xs ys : List Nat}
  (hlen : xs.length = ys.length)
include hf hlen

theorem getD_zipWith (i : Nat) :
    (List.zipWith f xs ys).getD i 0 = f (xs.getD i 0) (ys.getD i 0) := by
  by_cases hi : i < xs.length
  · rw [List.getD_eq_getElem _ _ (by rw [List.length_zipWith]; omega), List.getElem_zipWith,
      List.getD_eq_getElem _ _ hi, List.getD_eq_getElem _ _ (hlen ▸ hi)]
  · rw [List.getD_eq_default _ _ (by rw [List.length_zipWith]; omega),
      List.getD_eq_default _ _ (by omega), List.getD_eq_default _ _ (by omega),
      (hf 0 0).2 ⟨rfl, rfl⟩]

/-- The last occupied slot of a slot by slot sum. -/
theorem last_zipWith : last (List.zipWith f xs ys) = max (last xs) (last ys) := by
  apply Nat.le_antisymm
  · by_cases he : occupied (List.zipWith f xs ys) = []
    · simp [last, he]
    · have h := getD_last_ne_zero he
      rw [getD_zipWith hf hlen, ne_eq, hf, not_and_or] at h
      rcases h with h | h
      · exact Nat.le_trans (le_last h) (Nat.le_max_left _ _)
      · exact Nat.le_trans (le_last h) (Nat.le_max_right _ _)
  · refine Nat.max_le.2 ⟨?_, ?_⟩
    · by_cases he : occupied xs = []
      · simp [last, he]
      · refine le_last ?_
        rw [getD_zipWith hf hlen, ne_eq, hf]
        exact fun h => getD_last_ne_zero he h.1
    · by_cases he : occupied ys = []
      · simp [last, he]
      · refine le_last ?_
        rw [getD_zipWith hf hlen, ne_eq, hf]
        exact fun h => getD_last_ne_zero he h.2

end

/-! ## Running totals -/

/-- The slot at which the running total, started at `total`, reaches `target`. -/
def reach (target total : Nat) : List Nat → Option Nat
  | [] => none
  | c :: counts =>
    if target ≤ total + c then some 0 else (reach target (total + c) counts).map (· + 1)

/-- **The slot reached**: the total before it is short of the target, the total after it not. -/
theorem reach_eq_some {target total k : Nat} (hlt : total < target)
    (h : reach target total counts = some k) : k < counts.length ∧
      total + (counts.take k).sum < target ∧ target ≤ total + (counts.take (k + 1)).sum := by
  induction counts generalizing total k with
  | nil => simp [reach] at h
  | cons c counts ih =>
    unfold reach at h
    split at h
    · obtain rfl : 0 = k := by simpa using h
      simpa using ⟨hlt, by assumption⟩
    · obtain ⟨j, hj, rfl⟩ := Option.map_eq_some_iff.1 h
      obtain ⟨h1, h2, h3⟩ := ih (by omega) hj
      simp only [List.take_succ_cons, List.sum_cons, List.length_cons]
      omega

theorem reach_eq_none {target total : Nat} (h : reach target total counts = none) :
    counts = [] ∨ total + counts.sum < target := by
  induction counts generalizing total with
  | nil => exact .inl rfl
  | cons c counts ih =>
    unfold reach at h
    split at h
    · cases h
    · right
      rw [List.sum_cons]
      rcases ih (Option.map_eq_none_iff.1 h) with rfl | h
      · simp only [List.sum_nil]
        omega
      · omega

end Slots
