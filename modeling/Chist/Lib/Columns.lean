import Mathlib.Algebra.Order.BigOperators.Group.List
import Mathlib.Algebra.Order.Ring.Nat
import Mathlib.Data.List.Perm.Basic

/-!
# Columns of ragged lists

Lists of different lengths read side by side: `column ls r` has the `r`-th entry of every list
that has one. Going through all columns reads every list in order (`filterMap_range`), so a sum
over columns is a sum over lists (`sum_entries`).
-/

set_option autoImplicit false

namespace Columns

variable {α β : Type}

/-- The `r`-th entries. -/
def column (ls : List (List α)) (r : Nat) : List (Option α) := ls.map (·[r]?)

/-- The `r`-th entries of the lists that have one. -/
def entries (ls : List (List α)) (r : Nat) : List α := (column ls r).filterMap id

/-- The number of columns: the length of the longest list. -/
def depth (ls : List (List α)) : Nat := (ls.map List.length).foldr max 0

variable {ls : List (List α)} {r : Nat}

theorem column_cons (l : List α) (ls : List (List α)) (r : Nat) :
    column (l :: ls) r = l[r]? :: column ls r := rfl

theorem entries_cons (l : List α) (ls : List (List α)) (r : Nat) :
    entries (l :: ls) r = l[r]?.toList ++ entries ls r := by
  unfold entries
  rw [column_cons]
  cases l[r]? <;> rfl

theorem mem_entries {a : α} : a ∈ entries ls r ↔ ∃ l ∈ ls, l[r]? = some a := by
  simp [entries, column]

theorem foldr_max_le_iff {l : List Nat} {n : Nat} : l.foldr max 0 ≤ n ↔ ∀ a ∈ l, a ≤ n := by
  induction l with
  | nil => simp
  | cons a l ih =>
    rw [List.forall_mem_cons, ← ih]
    exact Nat.max_le

theorem depth_le_iff {n : Nat} : depth ls ≤ n ↔ ∀ l ∈ ls, l.length ≤ n := by
  unfold depth
  rw [foldr_max_le_iff, List.forall_mem_map]

theorem length_le_depth {l : List α} (h : l ∈ ls) : l.length ≤ depth ls :=
  depth_le_iff.1 (Nat.le_refl _) l h

theorem entries_eq_nil_iff : entries ls r = [] ↔ depth ls ≤ r := by
  rw [depth_le_iff, List.eq_nil_iff_forall_not_mem]
  refine ⟨?_, ?_⟩
  · intro h l hl
    by_contra hc
    exact h l[r] (mem_entries.2 ⟨l, hl, List.getElem?_eq_getElem (Nat.lt_of_not_le hc)⟩)
  · intro h a ha
    obtain ⟨l, hl, hla⟩ := mem_entries.1 ha
    rw [List.getElem?_eq_none (h l hl)] at hla
    cases hla

theorem depth_le_sum (ls : List (List α)) : depth ls ≤ (ls.map List.length).sum := by
  rw [depth_le_iff]
  exact fun l hl => List.le_sum_of_mem (List.mem_map_of_mem hl)

/-- **Going through the columns** reads a list in order. -/
theorem filterMap_range (l : List α) (n : Nat) :
    (List.range n).filterMap (l[·]?) = l.take n := by
  induction n with
  | zero => simp
  | succ n ih =>
    rw [List.range_succ, List.filterMap_append, ih, List.take_add_one]
    congr 1

/-- **A sum over columns is a sum over lists.** -/
theorem sum_entries (f : α → Nat) (ls : List (List α)) {n : Nat} (h : ∀ l ∈ ls, l.length ≤ n) :
    ((List.range n).map fun r => ((entries ls r).map f).sum).sum =
      (ls.map fun l => (l.map f).sum).sum := by
  induction ls with
  | nil => simp [entries, column]
  | cons l ls ih =>
    obtain ⟨hl, hls⟩ := List.forall_mem_cons.1 h
    have hsplit : ((List.range n).map fun r => ((entries (l :: ls) r).map f).sum).sum =
        ((List.range n).map fun r => (l[r]?.toList.map f).sum).sum +
          ((List.range n).map fun r => ((entries ls r).map f).sum).sum := by
      rw [← List.sum_map_add]
      simp only [entries_cons, List.map_append, List.sum_append]
    have hone : ((List.range n).map fun r => (l[r]?.toList.map f).sum).sum = (l.map f).sum := by
      calc ((List.range n).map fun r => (l[r]?.toList.map f).sum).sum
          = (((List.range n).filterMap (l[·]?)).map f).sum := by
            induction List.range n with
            | nil => rfl
            | cons r rs ih =>
              rw [List.map_cons, List.sum_cons, ih]
              cases hr : l[r]? <;> simp [hr]
        _ = (l.map f).sum := by rw [filterMap_range, List.take_of_length_le hl]
    rw [hsplit, hone, ih hls, List.map_cons, List.sum_cons]

/-- One column is part of the sum. -/
theorem sum_entries_le (f : α → Nat) (ls : List (List α)) (r : Nat) :
    ((entries ls r).map f).sum ≤ (ls.map fun l => (l.map f).sum).sum := by
  induction ls with
  | nil => exact Nat.le_refl _
  | cons l ls ih =>
    rw [entries_cons, List.map_append, List.sum_append, List.map_cons, List.sum_cons]
    refine Nat.add_le_add ?_ ih
    cases h : l[r]? with
    | none => exact Nat.zero_le _
    | some a =>
      simpa using List.le_sum_of_mem (List.mem_map_of_mem (f := f) (List.mem_of_getElem? h))

theorem entries_perm {ls' : List (List α)} (h : ls.Perm ls') (r : Nat) :
    (entries ls r).Perm (entries ls' r) := (h.map _).filterMap _

end Columns
