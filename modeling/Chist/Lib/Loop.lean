import Mathlib.Data.List.Basic

/-!
# Loops that emit

A loop is a function `turn : σ → Except ε (Option (ω × σ))`: a turn fails, ends the loop, or emits
an output and goes on from a new state. `run turn n s` makes at most `n` turns from `s`.

* `Steps turn s os s'`: from `s`, turns emitting `os` lead to `s'`.
* `run_steps`: every run is such a sequence, ended as its outcome says; `run_of_steps`: such a
  sequence is the start of every run of enough turns.
* `Steps.indexed`: a loop with one state for each turn is in the state of its turn.
* `run_sim`: two loops whose turns agree under a relation between their states emit related
  outputs and end alike.
* `foldlM_perm`: a loop over a list whose turns commute does not depend on the order of the list.
-/

set_option autoImplicit false

namespace Loop

/-- How a run ended, or that it was cut off. -/
inductive Outcome (ε : Type)
  | finished
  | failed (e : ε)
  | running
  deriving DecidableEq, Repr

variable {ε ω σ : Type} (turn : σ → Except ε (Option (ω × σ)))

/-- At most `n` turns from `s`: what they emitted, and how they ended. -/
def run : Nat → σ → List ω × Outcome ε
  | 0, _ => ([], .running)
  | n + 1, s =>
    match turn s with
    | .error e => ([], .failed e)
    | .ok none => ([], .finished)
    | .ok (some (o, s')) => (o :: (run n s').1, (run n s').2)

/-- Turns that emit `os` lead from one state to another. -/
inductive Steps : σ → List ω → σ → Prop
  | refl (s : σ) : Steps s [] s
  | turn {s s' s'' : σ} {o : ω} {os : List ω} :
      turn s = .ok (some (o, s')) → Steps s' os s'' → Steps s (o :: os) s''

/-- The states some turns lead to. -/
def Reach (s s' : σ) : Prop := ∃ os, Steps turn s os s'

variable {turn}

theorem Steps.trans {s s' s'' : σ} {os os' : List ω} (h : Steps turn s os s')
    (h' : Steps turn s' os' s'') : Steps turn s (os ++ os') s'' := by
  induction h with
  | refl => exact h'
  | turn ht _ ih => exact .turn ht (ih h')

theorem Steps.snoc {s s' s'' : σ} {os : List ω} {o : ω} (h : Steps turn s os s')
    (ht : turn s' = .ok (some (o, s''))) : Steps turn s (os ++ [o]) s'' :=
  h.trans (.turn ht (.refl _))

theorem Steps.take {s s' : σ} {os : List ω} (h : Steps turn s os s') (n : Nat) :
    ∃ s1, Steps turn s (os.take n) s1 := by
  induction h generalizing n with
  | refl s => exact ⟨s, by rw [List.take_nil]; exact .refl s⟩
  | @turn s s1 s2 o os ht _ ih =>
    cases n with
    | zero => exact ⟨s, .refl s⟩
    | succ n =>
      obtain ⟨s3, h3⟩ := ih n
      exact ⟨s3, .turn ht h3⟩

/-- **A run is a sequence of turns**, ended as its outcome says. -/
theorem run_steps (turn : σ → Except ε (Option (ω × σ))) (n : Nat) (s : σ) :
    ∃ s', Steps turn s (run turn n s).1 s' ∧
      ((run turn n s).2 = .finished → turn s' = .ok none) ∧
      (∀ e, (run turn n s).2 = .failed e → turn s' = .error e) ∧
      ((run turn n s).2 = .running → (run turn n s).1.length = n) := by
  induction n generalizing s with
  | zero => exact ⟨s, .refl s, by simp [run], by simp [run], by simp [run]⟩
  | succ n ih =>
    unfold run
    split
    · rename_i e he
      exact ⟨s, .refl s, by simp, by simp [he], by simp⟩
    · rename_i he
      exact ⟨s, .refl s, by simp [he], by simp, by simp⟩
    · rename_i o s1 ht
      obtain ⟨s', h1, h2, h3, h4⟩ := ih s1
      exact ⟨s', .turn ht h1, h2, h3, fun h => by simp [h4 h]⟩

/-- A state reached by turns that end the loop determines the run. -/
theorem run_of_steps {s s' : σ} {os : List ω} (h : Steps turn s os s') (n : Nat) :
    run turn (os.length + n) s = (os ++ (run turn n s').1, (run turn n s').2) := by
  induction h with
  | refl => simp
  | @turn s s1 s2 o os ht _ ih =>
    rw [List.length_cons, show os.length + 1 + n = os.length + n + 1 by omega, run, ht]
    simp only [ih, List.cons_append]

/-- A loop whose `r`-th state is `st r`, whatever it emits. -/
theorem Steps.indexed (st : Nat → σ)
    (hst : ∀ r o s', turn (st r) = .ok (some (o, s')) → s' = st (r + 1)) {a : Nat} {os : List ω}
    {s' : σ} (h : Steps turn (st a) os s') : s' = st (a + os.length) ∧
      ∀ i o, os[i]? = some o → turn (st (a + i)) = .ok (some (o, st (a + i + 1))) := by
  generalize hs : st a = s at h
  induction h generalizing a with
  | refl => exact ⟨hs.symm, by simp⟩
  | @turn s s1 s2 o os ht _ ih =>
    subst hs
    obtain rfl := hst _ _ _ ht
    obtain ⟨h1, h2⟩ := ih rfl
    refine ⟨by rw [h1, List.length_cons, Nat.add_assoc, Nat.add_comm 1], fun i o' ho => ?_⟩
    cases i with
    | zero =>
      obtain rfl : o = o' := by simpa using ho
      exact ht
    | succ i =>
      have := h2 i o' (by simpa using ho)
      rwa [Nat.add_assoc a 1, Nat.add_comm 1] at this

/-! ## Simulation -/

section
variable {ε' ω' τ : Type} {turn' : τ → Except ε' (Option (ω' × τ))}

/-- The outcomes of two loops agree up to a relation between their failures. -/
def Outcome.Rel (E : ε → ε' → Prop) : Outcome ε → Outcome ε' → Prop
  | .finished, .finished => True
  | .failed e, .failed e' => E e e'
  | .running, .running => True
  | _, _ => False

/-- Two turns agree: both fail, both end, or both emit and go on in related states. -/
inductive TurnRel (E : ε → ε' → Prop) (O : ω → ω' → Prop) (R : σ → τ → Prop) :
    Except ε (Option (ω × σ)) → Except ε' (Option (ω' × τ)) → Prop
  | error {e : ε} {e' : ε'} : E e e' → TurnRel E O R (.error e) (.error e')
  | done : TurnRel E O R (.ok none) (.ok none)
  | emit {o : ω} {o' : ω'} {s : σ} {t : τ} : O o o' → R s t →
      TurnRel E O R (.ok (some (o, s))) (.ok (some (o', t)))

/-- **Simulation**: loops whose turns agree in related states (`hR`, along the turns of the first)
emit related outputs and end alike. -/
theorem run_sim {E : ε → ε' → Prop} {O : ω → ω' → Prop} {R : σ → τ → Prop} {s0 : σ}
    (hR : ∀ s t, Reach turn s0 s → R s t → TurnRel E O R (turn s) (turn' t)) (n : Nat)
    {s : σ} {t : τ} (hs : Reach turn s0 s) (h : R s t) :
    List.Forall₂ O (run turn n s).1 (run turn' n t).1 ∧
      Outcome.Rel E (run turn n s).2 (run turn' n t).2 := by
  induction n generalizing s t with
  | zero => exact ⟨.nil, trivial⟩
  | succ n ih =>
    have ht := hR s t hs h
    unfold run
    cases hts : turn s with
    | error e =>
      rw [hts] at ht
      cases htt : turn' t with
      | error e' =>
        rw [htt] at ht
        cases ht with
        | error he => exact ⟨.nil, he⟩
      | ok r => rw [htt] at ht; cases ht
    | ok r =>
      rw [hts] at ht
      generalize turn' t = q at ht
      cases ht with
      | done => exact ⟨.nil, trivial⟩
      | @emit o o' s1 t1 ho hr =>
        obtain ⟨os, hos⟩ := hs
        obtain ⟨h1, h2⟩ := ih ⟨_, hos.snoc hts⟩ hr
        exact ⟨.cons ho h1, h2⟩

end

/-! ## Loops over a list -/

section
variable {α : Type} {f : σ → α → Except ε σ} {I : σ → Prop} {A : α → Prop}
  (hkeep : ∀ {s s' a}, I s → A a → f s a = .ok s' → I s')
  (hcomm : ∀ {s a b}, I s → A a → A b → (f s a >>= fun s' => f s' b) = f s b >>= fun s' => f s' a)
include hkeep hcomm

/-- **A loop whose turns commute** does not depend on the order, nor does its failure. -/
theorem foldlM_perm {l l' : List α} (h : l.Perm l') {s : σ} (hs : I s) (hl : ∀ a ∈ l, A a) :
    l.foldlM f s = l'.foldlM f s := by
  induction h generalizing s with
  | nil => rfl
  | cons a _ ih =>
    obtain ⟨ha, hl⟩ := List.forall_mem_cons.1 hl
    rw [List.foldlM_cons, List.foldlM_cons]
    cases hf : f s a with
    | error e => rfl
    | ok s' => exact ih (hkeep hs ha hf) hl
  | swap a b l =>
    obtain ⟨hb, hl⟩ := List.forall_mem_cons.1 hl
    obtain ⟨ha, -⟩ := List.forall_mem_cons.1 hl
    simp only [List.foldlM_cons]
    rw [← bind_assoc, ← bind_assoc, hcomm hs hb ha]
  | trans h _ ih ih' => exact (ih hs hl).trans (ih' hs fun a ha => hl a (h.mem_iff.2 ha))

end

end Loop
