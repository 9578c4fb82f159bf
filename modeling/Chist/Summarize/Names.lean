import Chist.Summarize
import Chist.Lib.Groups

/-!
# The names of a file

`do_summarize` takes the longest prefix of the names without a repetition for the list that the
file repeats. If the file repeats any list of distinct names, that prefix is the list, or as much of
it as there are records (`RepeatsNames.collect`), and the file repeats the prefix too
(`RepeatsNames.guess`).
-/

set_option autoImplicit false

namespace Chist

open Res

/-- The records go through the distinct `names` in order, over and over. -/
structure RepeatsNames (names : List String) (records : List HistRecord) : Prop where
  ne_nil : names ≠ []
  nodup : names.Nodup
  name : ∀ i x, records[i]? = some x → names[i % names.length]? = some x.name

variable {names : List String} {records : List HistRecord}

/-! ## The prefix -/

theorem collectNames_nodup (records : List HistRecord) (h : names.Nodup) :
    (collectNames records names).Nodup := by
  induction records generalizing names with
  | nil => exact h
  | cons x records ih =>
    unfold collectNames
    split
    · exact h
    · rename_i hx
      refine ih (List.nodup_append.2 ⟨h, List.pairwise_singleton _ _, fun a ha b hb => ?_⟩)
      rw [List.mem_singleton.1 hb]
      exact fun hab => hx (hab ▸ ha)

theorem prefix_collectNames (records : List HistRecord) (names : List String) :
    names <+: collectNames records names := by
  induction records generalizing names with
  | nil => exact List.prefix_rfl
  | cons x records ih =>
    unfold collectNames
    split
    · exact List.prefix_rfl
    · exact (List.prefix_append _ _).trans (ih _)

theorem collectNames_ne_nil (h : records ≠ []) : collectNames records [] ≠ [] := by
  obtain ⟨x, records, rfl⟩ := List.exists_cons_of_ne_nil h
  intro hnil
  have hx : [x.name] <+: collectNames (x :: records) [] := prefix_collectNames records [x.name]
  rw [hnil, List.prefix_nil] at hx
  cases hx

theorem collectNames_take (hne : names ≠ []) (hnd : names.Nodup) (todo : List HistRecord) {m : Nat}
    (hm : m ≤ names.length)
    (hname : ∀ j x, todo[j]? = some x → names[(m + j) % names.length]? = some x.name) :
    collectNames todo (names.take m) = names.take (m + todo.length) := by
  have hpos := List.length_pos_iff.2 hne
  induction todo generalizing m with
  | nil => rfl
  | cons x todo ih =>
    have hx := hname 0 x rfl
    rw [Nat.add_zero] at hx
    unfold collectNames
    rcases Nat.lt_or_eq_of_le hm with hlt | rfl
    · -- a name of the list that was not taken yet
      rw [Nat.mod_eq_of_lt hlt] at hx
      have hsnoc : names.take m ++ [x.name] = names.take (m + 1) := by
        rw [List.take_add_one, hx]
        rfl
      have hnew : x.name ∉ names.take m := by
        have h := hnd.sublist (List.take_sublist (m + 1) names)
        rw [← hsnoc] at h
        exact fun hmem => (List.nodup_append.1 h).2.2 _ hmem _ (List.mem_singleton.2 rfl) rfl
      have hname' : ∀ j y, todo[j]? = some y →
          names[(m + 1 + j) % names.length]? = some y.name := by
        intro j y hy
        rw [Nat.add_assoc, Nat.add_comm 1]
        exact hname (j + 1) y hy
      rw [if_neg hnew, hsnoc, ih hlt hname', List.length_cons, Nat.succ_add_eq_add_succ]
    · -- the list starts again
      rw [Nat.mod_self] at hx
      rw [List.take_length, if_pos (List.mem_of_getElem? hx), List.take_of_length_le (by omega)]

/-! ## The guess is right -/

section
variable (h : RepeatsNames names records)
include h

/-- **The names collected** are those the file repeats, as far as it reaches. -/
theorem RepeatsNames.collect : collectNames records [] = names.take records.length := by
  have := collectNames_take h.ne_nil h.nodup records (Nat.zero_le _) fun j x hx => by
    rw [Nat.zero_add]
    exact h.name j x hx
  rwa [Nat.zero_add] at this

/-- **The file repeats the names collected.** -/
theorem RepeatsNames.guess (hne : records ≠ []) :
    RepeatsNames (collectNames records []) records where
  ne_nil := collectNames_ne_nil hne
  nodup := collectNames_nodup records List.nodup_nil
  name := by
    intro i x hx
    have hi := (List.getElem?_eq_some_iff.1 hx).1
    have hpos := List.length_pos_iff.2 h.ne_nil
    have hlt : i % names.length < min records.length names.length :=
      Nat.lt_min.2 ⟨Nat.lt_of_le_of_lt (Nat.mod_le _ _) hi, Nat.mod_lt _ hpos⟩
    rw [h.collect, List.length_take, (Groups.mod_min_of_lt _ hi).1,
      List.getElem?_take_of_lt (Nat.lt_min.1 hlt).1]
    exact h.name i x hx

end

end Chist
