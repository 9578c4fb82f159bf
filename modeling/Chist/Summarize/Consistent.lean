import Chist.Summarize.Warnings

/-!
# Files without warnings

`do_summarize` has no warning about a file exactly when the file repeats some list of distinct
names, with one timestamp a group (`summarize_consistent`). The list it guesses is the longest
prefix of distinct names, and if any list will do that one does (`Repeats.guess`).
-/

set_option autoImplicit false

namespace Chist

open Res

variable {names : List String} {records : List HistRecord}

/-- The records go through the distinct `names` over and over, and every record has the timestamp
of the first of its group. -/
structure Repeats (names : List String) (records : List HistRecord) : Prop
    extends RepeatsNames names records where
  now : ∀ i x, records[i]? = some x →
    ∃ first, records[names.length * (i / names.length)]? = some first ∧ x.now = first.now

theorem timestampWarningAt_eq_nil_iff {k i : Nat} {x : HistRecord} (hx : records[i]? = some x) :
    timestampWarningAt records k i x = [] ↔
      ∃ first, records[k * (i / k)]? = some first ∧ x.now = first.now := by
  obtain ⟨first, hfirst, hself⟩ := Groups.exists_start (K := k) hx
  unfold timestampWarningAt
  rw [hfirst]
  by_cases h0 : i % k = 0
  · simp [h0, hself h0]
  · simp [h0, eq_comm]

/-- There is nothing to warn about exactly when the records repeat `names`. -/
theorem warnings_eq_nil_iff (hne : names ≠ []) (hnd : names.Nodup) {shift : Nat} :
    warnings names records shift = [] ↔ Repeats names records := by
  have hslot : warnings names records shift = [] ↔ ∀ i x, records[i]? = some x →
      timestampWarningAt records names.length i x = [] ∧ nameWarningAt names shift i x = [] := by
    simp only [warnings, List.flatMap_eq_nil_iff, Prod.forall, List.mem_zipIdx_iff_getElem?,
      warningsAt, List.append_eq_nil_iff]
    exact forall_comm
  rw [hslot]
  refine ⟨fun h => ⟨⟨hne, hnd, fun i x hx => ?_⟩, fun i x hx => ?_⟩, fun h i x hx => ⟨?_, ?_⟩⟩
  · exact (nameWarningAt_eq_nil_iff hne).1 (h i x hx).2
  · exact (timestampWarningAt_eq_nil_iff hx).1 (h i x hx).1
  · exact (timestampWarningAt_eq_nil_iff hx).2 (h.now i x hx)
  · exact (nameWarningAt_eq_nil_iff hne).2 (h.name i x hx)

/-- **If the file repeats a list, it repeats the names collected.** -/
theorem Repeats.guess (h : Repeats names records) (hne : records ≠ []) :
    Repeats (collectNames records []) records where
  toRepeatsNames := h.toRepeatsNames.guess hne
  now := by
    intro i x hx
    have hi := (List.getElem?_eq_some_iff.1 hx).1
    rw [h.collect, List.length_take, (Groups.mod_min_of_lt _ hi).2]
    exact h.now i x hx

theorem WarningFree.ne_nil (h : WarningFree records names) : records ≠ [] := by
  rintro rfl
  obtain ⟨lines, hl, hnames, -⟩ := h
  cases hl
  cases hnames

theorem WarningFree.names_eq (h : WarningFree records names) : names = collectNames records [] := by
  have hne := h.ne_nil
  obtain ⟨lines, hl, hnames, -⟩ := h
  have h1 := (doSummarize_lines hne hl).1
  rwa [hnames, Option.some_inj, SummaryLine.distinctNames.injEq] at h1

/-- **A file without warnings repeats the names reported.** -/
theorem WarningFree.repeats (h : WarningFree records names) : Repeats names records := by
  have hne := h.ne_nil
  rw [h.names_eq]
  obtain ⟨lines, hl, -, hno⟩ := h
  exact (warnings_eq_nil_iff (collectNames_ne_nil hne) (collectNames_nodup _ List.nodup_nil)).1
    ((noWarning_iff hne hl).1 hno)

/-- **What a summary without warnings means.** -/
theorem summarize_consistent (records : List HistRecord) :
    ∃ lines, doSummarize (ε := Empty) records = .ok lines ∧ (records ≠ [] →
      ((∀ line ∈ lines, ¬ line.IsWarning) ↔ ∃ names, Repeats names records) ∧
        ∀ names, Repeats names records → names.length < records.length →
          lines[1]? = some (.distinctNames names)) := by
  by_cases hne : records = []
  · subst hne
    exact ⟨_, rfl, fun h => absurd rfl h⟩
  obtain ⟨first, report, -, -, hlines⟩ := doSummarize_eq (ε := Empty) hne
  have hguess := collectNames_ne_nil hne
  have hnd := collectNames_nodup records List.nodup_nil
  refine ⟨_, hlines, fun _ => ⟨?_, fun names h hlt => ?_⟩⟩
  · rw [noWarning_iff hne hlines, warnings_eq_nil_iff hguess hnd]
    refine ⟨fun h => ⟨_, h⟩, ?_⟩
    rintro ⟨names, h⟩
    exact h.guess hne
  · rw [(doSummarize_lines hne hlines).1, h.collect, List.take_of_length_le (Nat.le_of_lt hlt)]

-- the last group may be incomplete
example : WarningFree [recordAt "read" 0, recordAt "write" 0, recordAt "read" 1]
    ["read", "write"] := ⟨_, rfl, rfl, by decide +kernel⟩

end Chist
