import Mathlib.Data.List.Basic

/-!
# Groups of equal length

A list made of groups of `K` entries: entry `i * K + k` is entry `k` of group `i`.
-/

set_option autoImplicit false

namespace Groups

variable {α β : Type} {f : α → List β} {K : Nat} {l : List α}

theorem length_flatMap (hK : ∀ a ∈ l, (f a).length = K) : (l.flatMap f).length = l.length * K := by
  induction l with
  | nil => simp
  | cons a l ih =>
    obtain ⟨ha, hl⟩ := List.forall_mem_cons.1 hK
    rw [List.flatMap_cons, List.length_append, ha, ih hl, List.length_cons, Nat.succ_mul,
      Nat.add_comm]

/-- **An entry of a group.** -/
theorem getElem?_flatMap (hK : ∀ a ∈ l, (f a).length = K) (i : Nat) {k : Nat} (hk : k < K) :
    (l.flatMap f)[i * K + k]? = l[i]?.bind fun a => (f a)[k]? := by
  induction l generalizing i with
  | nil => simp
  | cons a l ih =>
    obtain ⟨ha, hl⟩ := List.forall_mem_cons.1 hK
    rw [List.flatMap_cons]
    cases i with
    | zero =>
      rw [Nat.zero_mul, Nat.zero_add, List.getElem?_append_left (by omega)]
      rfl
    | succ i =>
      rw [Nat.succ_mul, List.getElem?_append_right (by omega), List.getElem?_cons_succ, ← ih hl i]
      congr 1
      omega

/-- Lists made of groups of the same lengths are equal exactly when the groups are. -/
theorem flatMap_inj {g : α → List β} (hlen : ∀ a ∈ l, (f a).length = (g a).length) :
    l.flatMap f = l.flatMap g ↔ ∀ a ∈ l, f a = g a := by
  induction l with
  | nil => simp
  | cons a l ih =>
    obtain ⟨ha, hl⟩ := List.forall_mem_cons.1 hlen
    rw [List.flatMap_cons, List.flatMap_cons, List.forall_mem_cons, ← ih hl]
    refine ⟨fun h => List.append_inj h ha, ?_⟩
    rintro ⟨h1, h2⟩
    rw [h1, h2]

/-- The group of entry `i` has a first entry, which is entry `i` itself if it starts the group. -/
theorem exists_start {i : Nat} {a : α} (ha : l[i]? = some a) :
    ∃ first, l[K * (i / K)]? = some first ∧ (i % K = 0 → first = a) := by
  have hlt := (List.getElem?_eq_some_iff.1 ha).1
  refine ⟨_, List.getElem?_eq_getElem (Nat.lt_of_le_of_lt (Nat.mul_div_le i K) hlt), fun h0 => ?_⟩
  have hi : K * (i / K) = i := by
    have := Nat.div_add_mod i K
    omega
  simpa [hi, List.getElem?_eq_getElem hlt] using ha

theorem mod_min_of_lt {i n : Nat} (K : Nat) (hi : i < n) :
    i % min n K = i % K ∧ min n K * (i / min n K) = K * (i / K) := by
  rcases Nat.le_total K n with hk | hk
  · rw [Nat.min_eq_right hk]
    exact ⟨rfl, rfl⟩
  · rw [Nat.min_eq_left hk, Nat.mod_eq_of_lt hi, Nat.mod_eq_of_lt (Nat.lt_of_lt_of_le hi hk),
      Nat.div_eq_of_lt hi, Nat.div_eq_of_lt (Nat.lt_of_lt_of_le hi hk)]
    exact ⟨rfl, rfl⟩

/-- A position in a list of groups is a group and a position in it. -/
theorem pos_eq {r : Nat} (hK : 0 < K) : ∃ i k, k < K ∧ r = i * K + k :=
  ⟨r / K, r % K, Nat.mod_lt _ hK, (Nat.div_add_mod' r K).symm⟩

/-- A list that has in every place the entry of `l` or none is a prefix of `l`. -/
theorem isPrefix_of_getElem? {l l' : List α} (hlen : l'.length ≤ l.length)
    (h : ∀ i < l.length, l'[i]? = none ∨ l'[i]? = l[i]?) : l' <+: l := by
  rw [List.prefix_iff_eq_take]
  apply List.ext_getElem?
  intro i
  rw [List.getElem?_take]
  by_cases hi : i < l'.length
  · rw [if_pos hi]
    rcases h i (by omega) with h | h
    · rw [List.getElem?_eq_getElem hi] at h
      cases h
    · exact h
  · rw [if_neg hi, List.getElem?_eq_none (Nat.le_of_not_lt hi)]

end Groups
