import Chist.Summarize.Consistent

/-!
# The interval reported

For a file of `n` complete groups, `e` milliseconds from one to the next, `do_summarize` reports
`(n - 1) * e / n` for the interval (`doSummarize_even`): it divides the span of `n - 1` intervals by
the number of timestamps. That is never `e` (`not_reportsInterval`).
-/

set_option autoImplicit false

namespace Chist

open Res

variable {names : List String} {records : List HistRecord} {n e : Nat}

/-- The records are `n` complete groups, `e` milliseconds from one to the next. -/
structure EvenGroups (names : List String) (records : List HistRecord) (n e : Nat) : Prop where
  complete : records.length = n * names.length
  spaced : ∀ g x y, records[g * names.length]? = some x →
    records[(g + 1) * names.length]? = some y → y.now.nanos = x.now.nanos + e * 1000000

/-- `n` timestamps are reported, and `e` milliseconds between them. -/
def ReportsInterval (records : List HistRecord) (n e : Nat) : Prop :=
  ∃ lines, doSummarize (ε := Empty) records = .ok lines ∧
    .expectedTimestamps n ∈ lines ∧ .expectedInterval e ∈ lines

theorem millisSince_eq {t u : DateTime} {m : Nat} (h : t.nanos = u.nanos + m * 1000000) :
    t.millisSince u = m := by
  have hd : t.nanos - u.nanos = m * 1000000 := by omega
  rw [DateTime.millisSince, hd, Int.mul_tdiv_cancel _ (by decide)]

theorem EvenGroups.nanos (h : EvenGroups names records n e) {first : HistRecord}
    (h0 : records[0]? = some first) {g : Nat} {x : HistRecord}
    (hx : records[g * names.length]? = some x) :
    x.now.nanos = first.now.nanos + (g * e : Nat) * 1000000 := by
  induction g generalizing x with
  | zero =>
    rw [Nat.zero_mul, h0, Option.some_inj] at hx
    simp [hx]
  | succ g ih =>
    have hlt := (List.getElem?_eq_some_iff.1 hx).1
    have hle : g * names.length ≤ (g + 1) * names.length :=
      Nat.mul_le_mul_right _ (Nat.le_succ g)
    have hz := List.getElem?_eq_getElem (Nat.lt_of_le_of_lt hle hlt)
    rw [h.spaced g _ x hz hx, ih hz, Nat.succ_mul]
    omega

theorem EvenGroups.nanos_last (h : EvenGroups names records n e) (hrep : Repeats names records)
    (hn : 1 ≤ n) {first last : HistRecord} (h0 : records[0]? = some first)
    (hlast : records[records.length - 1]? = some last) :
    last.now.nanos = first.now.nanos + ((n - 1) * e : Nat) * 1000000 := by
  have hpos := List.length_pos_iff.2 hrep.ne_nil
  obtain ⟨k, rfl⟩ : ∃ k, n = k + 1 := ⟨n - 1, by omega⟩
  have hlen := h.complete
  rw [Nat.succ_mul] at hlen
  have hdiv : (records.length - 1) / names.length = k :=
    Nat.div_eq_of_lt_le (by omega) (by rw [Nat.succ_mul]; omega)
  obtain ⟨x, hx, hnow⟩ := hrep.now _ last hlast
  rw [hdiv, Nat.mul_comm] at hx
  rw [hnow, h.nanos h0 hx, Nat.add_sub_cancel]

/-- **The report on evenly spaced groups.** -/
theorem doSummarize_even (h : WarningFree records names) (hn : 2 ≤ n)
    (heven : EvenGroups names records n e) : ∃ lines next last,
      (∀ line ∈ lines, ∀ m, line ≠ .expectedInterval m) ∧
      doSummarize (ε := Empty) records = .ok (lines ++ [.expectedTimestamps n,
        .expectedInterval ((n - 1) * e / n : Nat), .secondTimestamp next e,
        .finalTimestamp last ((n - 1) * e : Nat)]) := by
  have hrep := h.repeats
  have hpos := List.length_pos_iff.2 hrep.ne_nil
  have hlen := heven.complete
  have hlt : 2 * names.length ≤ records.length := by
    rw [hlen]
    exact Nat.mul_le_mul_right _ hn
  obtain ⟨first, h0⟩ : ∃ first, records[0]? = some first :=
    ⟨_, List.getElem?_eq_getElem (by omega)⟩
  obtain ⟨next, h1⟩ : ∃ next, records[names.length]? = some next :=
    ⟨_, List.getElem?_eq_getElem (by omega)⟩
  obtain ⟨last, h2⟩ : ∃ last, records[records.length - 1]? = some last :=
    ⟨_, List.getElem?_eq_getElem (by omega)⟩
  have hnext : next.now.millisSince first.now = e := by
    refine millisSince_eq ?_
    rw [heven.nanos h0 (g := 1) (by rwa [Nat.one_mul]), Nat.one_mul]
  have hlast : last.now.millisSince first.now = ((n - 1) * e : Nat) :=
    millisSince_eq (heven.nanos_last hrep (by omega) h0 h2)
  have hcount : records.length / names.length = n := by
    rw [hlen, Nat.mul_div_cancel _ hpos]
  obtain ⟨time, report, hreport, -, hlines⟩ := doSummarize_eq (ε := Empty) h.ne_nil
  rw [← h.names_eq, reportInterval_eq hpos h0 h1 h2, hnext, hlast, hcount, ← Int.ofNat_tdiv,
    Except.ok.injEq] at hreport
  refine ⟨_, next.now, last.now, ?_, by rw [hlines, ← hreport]⟩
  intro line hline m hm
  subst hm
  simp only [List.mem_append, List.mem_cons, List.not_mem_nil, or_false, reduceCtorEq,
    false_or] at hline
  exact isWarning_of_mem hline

/-- **The interval reported is never that of the groups**: it is at most `(n - 1) / n` of it. -/
theorem not_reportsInterval (h : WarningFree records names) (hn : 2 ≤ n) (he : 1 ≤ e)
    (heven : EvenGroups names records n e) : ¬ ReportsInterval records n e := by
  obtain ⟨lines, next, last, hother, hrun⟩ := doSummarize_even h hn heven
  have hlt : (n - 1) * e / n < e := by
    rw [Nat.div_lt_iff_lt_mul (by omega), Nat.mul_comm e]
    exact Nat.mul_lt_mul_of_pos_right (by omega) he
  rintro ⟨lines', hrun', -, hmem⟩
  cases hrun.symm.trans hrun'
  rcases List.mem_append.1 hmem with hmem | hmem
  · exact hother _ hmem e rfl
  · simp only [List.mem_cons, List.not_mem_nil, or_false, reduceCtorEq, false_or,
      SummaryLine.expectedInterval.injEq] at hmem
    omega

/-- Three groups of two names. -/
theorem not_reportsInterval_three : ¬ ReportsInterval
    [recordAt "read" 0, recordAt "write" 0, recordAt "read" 1, recordAt "write" 1,
      recordAt "read" 2, recordAt "write" 2] 3 1000 := by
  have hfree : WarningFree [recordAt "read" 0, recordAt "write" 0, recordAt "read" 1,
      recordAt "write" 1, recordAt "read" 2, recordAt "write" 2] ["read", "write"] :=
    ⟨_, rfl, rfl, by decide +kernel⟩
  refine not_reportsInterval hfree (by decide) (by decide) ⟨rfl, fun g x y hx hy => ?_⟩
  have hlt : (g + 1) * 2 < 6 := (List.getElem?_eq_some_iff.1 hy).1
  rcases g with _ | _ | g
  · cases hx
    cases hy
    rfl
  · cases hx
    cases hy
    rfl
  · omega

/-- Of two records a second apart, the interval is reported as 500 ms. -/
theorem reportsInterval_fails :
    WarningFree [recordAt "read" 0, recordAt "read" 1] ["read"] ∧
      EvenGroups ["read"] [recordAt "read" 0, recordAt "read" 1] 2 1000 ∧
      ¬ ReportsInterval [recordAt "read" 0, recordAt "read" 1] 2 1000 := by
  have hrun : doSummarize (ε := Empty) [recordAt "read" 0, recordAt "read" 1] =
      .ok [.totalRecords 2, .distinctNames ["read"], .initialTimestamp (timeAt 0),
        .expectedTimestamps 2, .expectedInterval 500, .secondTimestamp (timeAt 1) 1000,
        .finalTimestamp (timeAt 1) 1000] := by decide +kernel
  refine ⟨⟨_, hrun, rfl, by decide +kernel⟩, ⟨rfl, fun g x y hx hy => ?_⟩, ?_⟩
  · have hlt : (g + 1) * 1 < 2 := (List.getElem?_eq_some_iff.1 hy).1
    obtain rfl : g = 0 := by omega
    cases hx
    cases hy
    rfl
  · rintro ⟨lines, hlines, -, hmem⟩
    cases hrun.symm.trans hlines
    revert hmem
    decide +kernel

end Chist
