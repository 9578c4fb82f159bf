import Mathlib.Data.List.TakeWhile

/-!
# Runs of zeros

A list of naturals as signed numbers: a number stands for itself, a negative one for that many
zeros. `tokens` writes the zeros of a run as one number, a run of one as 0; expanding the numbers
gives the list back (`flatMap_expand_tokens`).
-/

set_option autoImplicit false

namespace ZeroRuns

/-- The numbers for a run of `run` zeros. -/
def runTokens : Nat → List Int
  | 0 => []
  | 1 => [0]
  | run + 2 => [-(run + 2 : Nat)]

/-- The numbers for `run` zeros and the list. -/
def tokensFrom (run : Nat) : List Nat → List Int
  | [] => runTokens run
  | c :: cs =>
    if c = 0 then tokensFrom (run + 1) cs else runTokens run ++ (c : Int) :: tokensFrom 0 cs

def tokens (cs : List Nat) : List Int := tokensFrom 0 cs

/-- What a number stands for. -/
def expand (t : Int) : List Nat := if t < 0 then List.replicate (-t).toNat 0 else [t.toNat]

theorem flatMap_expand_runTokens (run : Nat) :
    (runTokens run).flatMap expand = List.replicate run 0 := by
  match run with
  | 0 => rfl
  | 1 => rfl
  | run + 2 =>
    have hneg : (-(run + 2 : Nat) : Int) < 0 := by omega
    simp only [runTokens, List.flatMap_cons, List.flatMap_nil, List.append_nil, expand, hneg,
      if_true]
    congr 1

theorem flatMap_expand_tokensFrom (run : Nat) (cs : List Nat) :
    (tokensFrom run cs).flatMap expand = List.replicate run 0 ++ cs := by
  induction cs generalizing run with
  | nil => rw [tokensFrom, flatMap_expand_runTokens, List.append_nil]
  | cons c cs ih =>
    rw [tokensFrom]
    split
    · rename_i h0
      rw [ih, h0, List.replicate_succ', List.append_assoc, List.singleton_append]
    · have hpos : ¬ (c : Int) < 0 := by omega
      rw [List.flatMap_append, flatMap_expand_runTokens, List.flatMap_cons, ih, expand,
        if_neg hpos, Int.toNat_natCast]
      rfl

/-- **Expanding the numbers** gives the list back. -/
theorem flatMap_expand_tokens (cs : List Nat) : (tokens cs).flatMap expand = cs :=
  flatMap_expand_tokensFrom 0 cs

theorem length_runTokens_le (run : Nat) : (runTokens run).length ≤ run := by
  match run with
  | 0 => exact Nat.le_refl _
  | 1 => exact Nat.le_refl _
  | run + 2 => exact Nat.succ_le_succ (Nat.zero_le _)

theorem length_tokensFrom_le (run : Nat) (cs : List Nat) :
    (tokensFrom run cs).length ≤ run + cs.length := by
  induction cs generalizing run with
  | nil => exact length_runTokens_le run
  | cons c cs ih =>
    rw [tokensFrom]
    split
    · have hle := ih (run + 1)
      rw [List.length_cons]
      omega
    · have hrun := length_runTokens_le run
      have hle := ih 0
      simp only [List.length_append, List.length_cons]
      omega

/-- A number is a count of the list, or a run no longer than the list. -/
theorem mem_tokensFrom {run : Nat} {cs : List Nat} {t : Int} (ht : t ∈ tokensFrom run cs) :
    (∃ c ∈ cs, t = c) ∨ t = 0 ∨ (t < 0 ∧ -t ≤ run + cs.length) := by
  have hrun : ∀ {r : Nat}, t ∈ runTokens r → t = 0 ∨ (t < 0 ∧ -t ≤ r) := by
    intro r hr
    match r with
    | 0 => cases hr
    | 1 => exact .inl (List.mem_singleton.1 hr)
    | r + 2 =>
      obtain rfl := List.mem_singleton.1 hr
      omega
  induction cs generalizing run with
  | nil => simpa using hrun ht
  | cons c cs ih =>
    rw [tokensFrom] at ht
    split at ht
    · rcases ih ht with ⟨d, hd, rfl⟩ | h0 | hneg
      · exact .inl ⟨d, List.mem_cons_of_mem _ hd, rfl⟩
      · exact .inr (.inl h0)
      · refine .inr (.inr ?_)
        rw [List.length_cons]
        omega
    · rcases List.mem_append.1 ht with ht | ht
      · rcases hrun ht with h0 | hneg
        · exact .inr (.inl h0)
        · exact .inr (.inr (by omega))
      · rcases List.mem_cons.1 ht with rfl | ht
        · exact .inl ⟨c, List.mem_cons_self, rfl⟩
        · rcases ih ht with ⟨d, hd, rfl⟩ | h0 | hneg
          · exact .inl ⟨d, List.mem_cons_of_mem _ hd, rfl⟩
          · exact .inr (.inl h0)
          · refine .inr (.inr ?_)
            rw [List.length_cons]
            omega

/-- The run that has begun ends at the first number that is not 0. -/
theorem tokensFrom_succ (run : Nat) (cs : List Nat) :
    tokensFrom (run + 1) cs = runTokens (run + 1 + (cs.takeWhile (· = 0)).length) ++
      tokensFrom 0 (cs.dropWhile (· = 0)) := by
  induction cs generalizing run with
  | nil => rw [tokensFrom]; simp [tokensFrom, runTokens]
  | cons c cs ih =>
    by_cases h0 : c = 0
    · rw [tokensFrom, if_pos h0, ih, List.takeWhile_cons_of_pos (by simpa using h0),
        List.dropWhile_cons_of_pos (by simpa using h0), List.length_cons]
      congr 2
      omega
    · have hzero : tokensFrom 0 (c :: cs) = (c : Int) :: tokensFrom 0 cs := by
        rw [tokensFrom, if_neg h0]
        rfl
      rw [tokensFrom, if_neg h0, List.takeWhile_cons_of_neg (by simpa using h0),
        List.dropWhile_cons_of_neg (by simpa using h0), List.length_nil, Nat.add_zero, hzero]

end ZeroRuns
