import Chist.Lib.Slots
import Mathlib.Data.Multiset.Sort
import Mathlib.Data.Multiset.Count

/-!
# Order statistics from slot counts

`nth S k` is the `k`-th smallest sample of `S`, from 1. Samples are counted by a monotone slot map
`f`: `Counted f S counts` says that `counts` has in slot `i` the number of samples with `f s = i`.
Then the first slot at which the running total of the counts reaches `k` is the slot of `nth S k`
(`slot_nth`), and the last occupied slot that of the largest sample (`slot_nth_card`).
-/

set_option autoImplicit false

namespace Rank

variable {α : Type} [LinearOrder α] [Inhabited α]

/-- The `k`-th smallest element, from 1. -/
def nth (S : Multiset α) (k : Nat) : α := (S.sort (· ≤ ·)).getD (k - 1) default

/-- `counts` counts the samples of `S` by slot. -/
def Counted (f : α → Nat) (S : Multiset α) (counts : List Nat) : Prop :=
  ∀ i, counts.getD i 0 = S.countP (f · = i)

/-! ## Ranks in a sorted list -/

omit [Inhabited α] in
/-- In a sorted list, the elements of a downward closed set come first. -/
theorem lt_countP_iff {p : α → Prop} [DecidablePred p] (hp : ∀ a b, a ≤ b → p b → p a)
    {l : List α} (hl : l.Pairwise (· ≤ ·)) {k : Nat} (hk : k < l.length) :
    k < l.countP (p ·) ↔ p l[k] := by
  induction l generalizing k with
  | nil => simp at hk
  | cons x l ih =>
    obtain ⟨hx, hl⟩ := List.pairwise_cons.1 hl
    by_cases hpx : p x
    · rw [List.countP_cons_of_pos (by simpa using hpx)]
      cases k with
      | zero => simpa using hpx
      | succ k => simpa using ih hl (by simpa using hk)
    · have hnone : ∀ y ∈ l, ¬ p y := fun y hy hpy => hpx (hp x y (hx y hy) hpy)
      have h0 : l.countP (p ·) = 0 := by
        rw [List.countP_eq_zero]
        simpa using hnone
      rw [List.countP_cons_of_neg (by simpa using hpx), h0]
      refine iff_of_false (Nat.not_lt_zero _) ?_
      cases k with
      | zero => exact hpx
      | succ k => exact hnone _ (List.getElem_mem _)

variable {S : Multiset α}

/-- The `k`-th smallest element is in a downward closed set exactly when `k` elements are. -/
theorem le_countP_iff {p : α → Prop} [DecidablePred p] (hp : ∀ a b, a ≤ b → p b → p a)
    {k : Nat} (h1 : 1 ≤ k) (hk : k ≤ S.card) : k ≤ S.countP p ↔ p (nth S k) := by
  have hlen : k - 1 < (S.sort (· ≤ ·)).length := by
    rw [Multiset.length_sort]; omega
  have hc : S.countP p = (S.sort (· ≤ ·)).countP (p ·) := by
    conv_lhs => rw [← Multiset.sort_eq S (· ≤ ·)]
    exact Multiset.coe_countP p _
  rw [hc, nth, List.getD_eq_getElem _ _ hlen, ← lt_countP_iff hp (Multiset.pairwise_sort _ _) hlen]
  omega

theorem nth_mem {k : Nat} (h1 : 1 ≤ k) (hk : k ≤ S.card) : nth S k ∈ S := by
  have hlen : k - 1 < (S.sort (· ≤ ·)).length := by
    rw [Multiset.length_sort]; omega
  rw [nth, List.getD_eq_getElem _ _ hlen, ← Multiset.mem_sort (· ≤ ·)]
  exact List.getElem_mem _

theorem nth_mono {j k : Nat} (h1 : 1 ≤ j) (hjk : j ≤ k) (hk : k ≤ S.card) :
    nth S j ≤ nth S k := by
  have hp : ∀ a b, a ≤ b → b ≤ nth S k → a ≤ nth S k := fun _ _ => le_trans
  refine (le_countP_iff hp h1 (hjk.trans hk)).1 (hjk.trans ?_)
  exact (le_countP_iff hp (h1.trans hjk) hk).2 (le_refl _)

/-! ## Running totals -/

variable {f : α → Nat} {counts : List Nat}

omit [LinearOrder α] [Inhabited α] in
theorem countP_lt_succ (f : α → Nat) (S : Multiset α) (n : Nat) :
    S.countP (f · < n + 1) = S.countP (f · < n) + S.countP (f · = n) := by
  induction S using Multiset.induction_on with
  | empty => rfl
  | cons a S ih =>
    simp only [Multiset.countP_cons, ih]
    rcases Nat.lt_trichotomy (f a) n with h | h | h
    · simp [h, Nat.lt_succ_of_lt h, Nat.ne_of_lt h]; omega
    · simp [h]; omega
    · simp [Nat.not_lt_of_lt h, Nat.ne_of_gt h, show ¬ f a < n + 1 by omega]

omit [LinearOrder α] [Inhabited α] in
/-- The running total of the counts is the number of samples in the slots so far. -/
theorem sum_take (h : Counted f S counts) (n : Nat) :
    (counts.take n).sum = S.countP (f · < n) := by
  induction n with
  | zero => simp
  | succ n ih =>
    rw [countP_lt_succ, ← ih, ← h n, Slots.sum_take_succ]

omit [LinearOrder α] [Inhabited α] in
theorem lt_length (h : Counted f S counts) {a : α} (ha : a ∈ S) : f a < counts.length := by
  by_contra hc
  have h0 := h (f a)
  rw [List.getD_eq_default _ _ (Nat.le_of_not_lt hc)] at h0
  exact Multiset.countP_eq_zero.1 h0.symm a ha rfl

omit [LinearOrder α] [Inhabited α] in
theorem sum_eq_card (h : Counted f S counts) : counts.sum = S.card := by
  rw [← Multiset.countP_eq_card.2 fun a => lt_length h, ← sum_take h, List.take_length]

/-- **The scan**: the slot at which the running total reaches `k` is that of the `k`-th smallest
sample. -/
theorem slot_nth (hf : Monotone f) (h : Counted f S counts) {k i : Nat}
    (hlo : (counts.take i).sum < k) (hhi : k ≤ (counts.take (i + 1)).sum) :
    f (nth S k) = i := by
  rw [sum_take h] at hlo hhi
  have hk : k ≤ S.card := hhi.trans (Multiset.countP_le_card _ _)
  have hdown : ∀ n, ∀ a b, a ≤ b → f b < n → f a < n := fun n a b hab hb => (hf hab).trans_lt hb
  have h1 := (le_countP_iff (hdown (i + 1)) (by omega) hk).1 hhi
  have h2 := mt (le_countP_iff (hdown i) (by omega) hk).2 (Nat.not_le.2 hlo)
  omega

theorem slot_nth_card (hf : Monotone f) (h : Counted f S counts) (hS : 0 < S.card) :
    f (nth S S.card) = Slots.last counts := by
  have hsum := Slots.sum_take_last counts
  rw [sum_eq_card h] at hsum
  have hocc : Slots.occupied counts ≠ [] := by
    intro he
    have := Slots.sum_occupied counts
    rw [he, sum_eq_card h] at this
    simp at this
    omega
  have hne := Slots.getD_last_ne_zero hocc
  refine slot_nth hf h ?_ (Nat.le_of_eq hsum.symm)
  have htake := Slots.sum_take_succ counts (Slots.last counts)
  omega

/-! ## Several multisets -/

omit [LinearOrder α] [Inhabited α] in
/-- The counts of several multisets add up to those of their union. -/
theorem sum_getD {cs : List (List Nat)} {Ss : List (Multiset α)}
    (h : List.Forall₂ (fun c S => Counted f S c) cs Ss) (i : Nat) :
    (cs.map (·.getD i 0)).sum = Ss.sum.countP (f · = i) := by
  induction h with
  | nil => rfl
  | cons hc _ ih =>
    rw [List.map_cons, List.sum_cons, List.sum_cons, Multiset.countP_add, ih, hc i]

omit [LinearOrder α] [Inhabited α] in
theorem sum_sum_eq_card {cs : List (List Nat)} {Ss : List (Multiset α)}
    (h : List.Forall₂ (fun c S => Counted f S c) cs Ss) :
    (cs.map List.sum).sum = Ss.sum.card := by
  induction h with
  | nil => rfl
  | cons hc _ ih =>
    rw [List.map_cons, List.sum_cons, List.sum_cons, Multiset.card_add, ih, sum_eq_card hc]

end Rank
