import Chist.Lib.Slots
import Mathlib.Algebra.BigOperators.Group.List.Basic
import Mathlib.Algebra.Order.Monoid.Unbundled.MinMax

/-!
# Saturating sums

Addition of naturals capped at `c`. A fold of capped additions is one capping of the true sum
(`foldl_add`), so its order does not matter, and it is exact while the true sum fits.
-/

set_option autoImplicit false

namespace CapSum

/-- Addition capped at `c`. -/
def add (c x y : Nat) : Nat := min (x + y) c

variable {c : Nat}

theorem add_of_le {x y : Nat} (h : x + y ≤ c) : add c x y = x + y := min_eq_left h

theorem add_le (x y : Nat) : add c x y ≤ c := min_le_right _ _

@[simp] theorem add_zero_of_le {x : Nat} (h : x ≤ c) : add c x 0 = x := add_of_le h

@[simp] theorem zero_add_of_le {x : Nat} (h : x ≤ c) : add c 0 x = x := by
  rw [add_of_le (by omega), Nat.zero_add]

theorem add_right_comm (x y z : Nat) : add c (add c x y) z = add c (add c x z) y := by
  unfold add
  omega

/-- **A fold of capped additions is one capping of the sum.** -/
theorem foldl_add (l : List Nat) {x : Nat} (h : x ≤ c) :
    l.foldl (add c) x = min (x + l.sum) c := by
  induction l generalizing x with
  | nil => simp [h]
  | cons y l ih =>
    rw [List.foldl_cons, ih (add_le x y), List.sum_cons]
    unfold add
    omega

theorem add_eq_zero_iff (hc : 0 < c) (x y : Nat) : add c x y = 0 ↔ x = 0 ∧ y = 0 := by
  unfold add
  omega

/-- Slot by slot, a fold of capped additions is the fold in that slot. -/
theorem getD_foldl_zipWith (hc : 0 < c) (ls : List (List Nat)) (xs : List Nat)
    (hl : ∀ l ∈ ls, l.length = xs.length) (i : Nat) :
    (ls.foldl (List.zipWith (add c)) xs).getD i 0 =
      (ls.map (·.getD i 0)).foldl (add c) (xs.getD i 0) := by
  induction ls generalizing xs with
  | nil => rfl
  | cons l ls ih =>
    obtain ⟨hlen, hl⟩ := List.forall_mem_cons.1 hl
    rw [List.foldl_cons, ih _ (by simpa [hlen] using hl), List.map_cons, List.foldl_cons,
      Slots.getD_zipWith (add_eq_zero_iff hc) hlen.symm]

/-- Capped sums of two lists are exact while the total fits. -/
theorem sum_zipWith (xs ys : List Nat) (hlen : xs.length = ys.length)
    (h : xs.sum + ys.sum ≤ c) : (List.zipWith (add c) xs ys).sum = xs.sum + ys.sum := by
  induction xs generalizing ys with
  | nil =>
    obtain rfl := List.length_eq_zero_iff.1 hlen.symm
    rfl
  | cons x xs ih =>
    obtain ⟨y, ys, rfl⟩ := List.exists_cons_of_length_eq_add_one hlen.symm
    rw [List.sum_cons, List.sum_cons] at h
    rw [List.zipWith_cons_cons, List.sum_cons, List.sum_cons, List.sum_cons,
      add_of_le (by omega), ih ys (by simpa using hlen) (by omega)]
    omega

/-- A capped addition in one place is exact while the total fits. -/
theorem sum_modify (xs : List Nat) {i : Nat} (hi : i < xs.length) {y : Nat} (h : xs.sum + y ≤ c) :
    (xs.modify i (add c · y)).sum = xs.sum + y := by
  induction xs generalizing i with
  | nil => simp at hi
  | cons x xs ih =>
    rw [List.sum_cons] at h
    cases i with
    | zero =>
      rw [List.modify_zero_cons, List.sum_cons, List.sum_cons, add_of_le (by omega)]
      omega
    | succ i =>
      rw [List.modify_succ_cons, List.sum_cons, List.sum_cons, ih (by simpa using hi) (by omega)]
      omega

/-- Capped or not, the sum of two lists is the same up to the cap. -/
theorem min_sum_zipWith (xs ys : List Nat) (hlen : xs.length = ys.length) :
    min (List.zipWith (add c) xs ys).sum c = min (xs.sum + ys.sum) c := by
  induction xs generalizing ys with
  | nil =>
    obtain rfl := List.length_eq_zero_iff.1 hlen.symm
    rfl
  | cons x xs ih =>
    obtain ⟨y, ys, rfl⟩ := List.exists_cons_of_length_eq_add_one hlen.symm
    have h := ih ys (by simpa using hlen)
    rw [List.zipWith_cons_cons, List.sum_cons, List.sum_cons, List.sum_cons]
    unfold add at h ⊢
    omega

theorem min_sum_modify (xs : List Nat) {i : Nat} (hi : i < xs.length) (y : Nat) :
    min (xs.modify i (add c · y)).sum c = min (xs.sum + y) c := by
  induction xs generalizing i with
  | nil => simp at hi
  | cons x xs ih =>
    cases i with
    | zero =>
      rw [List.modify_zero_cons, List.sum_cons, List.sum_cons]
      unfold add
      omega
    | succ i =>
      have h := ih (i := i) (by simpa using hi)
      rw [List.modify_succ_cons, List.sum_cons, List.sum_cons]
      unfold add at h ⊢
      omega

/-! ## Tallies -/

/-- The sums of what the entries of `ps` hold for the `n` first slots, capped. -/
def tally (c n : Nat) (ps : List (Nat × Nat)) : List Nat :=
  (List.range n).map fun i => min ((ps.filter (·.1 = i)).map Prod.snd).sum c

theorem length_tally (n : Nat) (ps : List (Nat × Nat)) : (tally c n ps).length = n := by
  simp [tally]

theorem tally_nil (n : Nat) : tally c n [] = List.replicate n 0 := by
  simp [tally]

theorem tally_concat (n : Nat) (ps : List (Nat × Nat)) (i x : Nat) :
    tally c n (ps ++ [(i, x)]) = (tally c n ps).modify i (add c · x) := by
  apply List.ext_getElem
  · rw [List.length_modify, length_tally, length_tally]
  · intro j h1 h2
    rw [List.getElem_modify]
    simp only [tally, List.getElem_map, List.getElem_range, List.filter_append, List.map_append,
      List.sum_append]
    by_cases hij : i = j
    · rw [if_pos hij, List.filter_cons_of_pos (by simpa using hij), add]
      simp only [List.filter_nil, List.map_cons, List.map_nil, List.sum_singleton]
      omega
    · rw [if_neg hij, List.filter_cons_of_neg (by simpa using hij)]
      simp

theorem tally_concat_zero (n : Nat) (ps : List (Nat × Nat)) (i : Nat) :
    tally c n (ps ++ [(i, 0)]) = tally c n ps := by
  unfold tally
  refine List.map_congr_left fun j _ => ?_
  rw [List.filter_append, List.map_append, List.sum_append]
  by_cases hij : i = j <;> simp [hij]

end CapSum

/-! ## The monoid -/

/-- The naturals up to `c`, added with the cap. -/
def Capped (c : Nat) : Type := {x : Nat // x ≤ c}

namespace Capped

variable {c : Nat}

def of (c x : Nat) : Capped c := ⟨min x c, min_le_right _ _⟩

instance : Zero (Capped c) := ⟨⟨0, Nat.zero_le c⟩⟩

instance : Add (Capped c) := ⟨fun x y => ⟨CapSum.add c x.1 y.1, CapSum.add_le _ _⟩⟩

theorem val_add (x y : Capped c) : (x + y).1 = min (x.1 + y.1) c := rfl

theorem val_zero : (0 : Capped c).1 = 0 := rfl

instance : AddCommMonoid (Capped c) where
  add_assoc x y z := Subtype.ext (by
    simp only [val_add]
    omega)
  zero_add x := Subtype.ext (by
    simpa only [val_add, val_zero, Nat.zero_add] using min_eq_left x.2)
  add_zero x := Subtype.ext (by
    simpa only [val_add, val_zero, Nat.add_zero] using min_eq_left x.2)
  add_comm x y := Subtype.ext (by
    simp only [val_add]
    omega)
  nsmul := nsmulRec

theorem of_add (x y : Nat) : of c (x + y) = of c x + of c y := Subtype.ext (by
  change min (x + y) c = min (min x c + min y c) c
  omega)

theorem of_zero : of c 0 = 0 := Subtype.ext (Nat.zero_min c)

theorem of_sum (l : List Nat) : of c l.sum = (l.map (of c)).sum := by
  induction l with
  | nil => exact of_zero
  | cons x l ih => rw [List.sum_cons, of_add, ih, List.map_cons, List.sum_cons]

end Capped
