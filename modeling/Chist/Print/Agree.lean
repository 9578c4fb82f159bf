import Chist.Print.Row
import Chist.Summarize.Consistent

/-!
# `summarize` and `print` agree

A file that `summarize` has no warning about repeats its names in order (`WarningFree.repeats`).
The loop of `print` goes through all files in lockstep, so if they repeat the same names every
column has one name, and the name check never fails (`print_noNameMismatch`).
-/

set_option autoImplicit false

namespace Chist

open Res Hdr

variable {ε : Type}

/-! ## The errors of a row -/

theorem noErr_quantileIndex (target : Nat) (counts : List Nat) (i total : Nat) :
    NoErr (Histogram.quantileIndex (ε := ε) target counts i total) := by
  induction counts generalizing i total with
  | nil => exact noErr_ok _
  | cons c counts ih =>
    exact (noErr_checkU _ _).bind fun _ => noErr_ite (noErr_ok _) (ih _ _)

theorem noErr_valueAtQuantile (fl : Floats) (h : Histogram) {q : Rat} (hq : q ≠ 0) :
    NoErr (h.valueAtQuantile (ε := ε) fl q) := by
  refine (noErr_quantileIndex _ _ _ _).bind fun o => ?_
  cases o with
  | none => exact noErr_ok _
  | some i =>
    refine (noErr_valueFor h i).bind fun v => ?_
    rw [if_neg hq]
    exact noErr_highestEquivalent h v

theorem noErr_max (h : Histogram) : NoErr (h.max (ε := ε)) :=
  noErr_ite (noErr_ok _) (noErr_highestEquivalent h _)

theorem noErr_newFrom (fl : Floats) (h : Histogram) : NoErr (Histogram.newFrom (ε := ε) fl h) :=
  (noErr_expect _ _).bind fun _ => noErr_ok _

theorem mapErr_eq_err {ε' α : Type} {f : ε → ε'} {r : Res ε α} {e : ε'}
    (h : mapErr f r = .error (.err e)) : ∃ e', e = f e' := by
  cases r with
  | ok a => cases h
  | error s =>
    cases s with
    | err e' => exact ⟨e', by cases h; rfl⟩
    | panic p => cases h

/-- **The `Err`s of a row** are about loading or adding its histograms. -/
theorem makeRow_err {fl : Floats} {time : DateTime} {name : String} {elapsed : UInt64}
    {picked : List (Option HistRecord)} {e : ChistError}
    (h : makeRow fl time name elapsed picked = .error (.err e)) :
    (∃ e', e = .loadingHistogram e') ∨ ∃ e', e = .addingHistograms e' := by
  rcases bind_eq_error.1 h with h | ⟨fileSnapshots, -, h⟩
  · obtain ⟨x, -, hx⟩ := mapM_eq_error h
    exact .inl (mapErr_eq_err hx)
  rcases bind_eq_error.1 h with h | ⟨summary, -, h⟩
  · right
    unfold mergeSnapshots at h
    rcases bind_eq_error.1 h with h | ⟨first, -, h⟩
    · cases fileSnapshots <;> cases h
    rcases bind_eq_error.1 h with h | ⟨empty, -, h⟩
    · exact absurd h (noErr_newFrom fl first e)
    · exact mapErr_eq_err h
  · refine absurd h (NoErr.bind (noErr_valueAtQuantile fl summary (by norm_num)) (fun _ => ?_) e)
    refine NoErr.bind (noErr_valueAtQuantile fl summary (by norm_num)) fun _ => ?_
    refine NoErr.bind (noErr_valueAtQuantile fl summary (by norm_num)) fun _ => ?_
    exact NoErr.bind (noErr_max summary) fun _ => noErr_ok _

/-! ## No name mismatch -/

/-- **`summarize` and `print` agree**: files it has no warning about, with the same names in the
same order, never end in a name mismatch. -/
theorem print_noNameMismatch (fl : Floats) (files : List HistFile) (names : List String)
    (h : ∀ file ∈ files, WarningFree file.records names) (label : String) (record : Nat)
    (expected found : String) :
    (print fl files).2 ≠ .failed (.err (.nameMismatch label record expected found)) := by
  intro ho
  obtain ⟨a, ha, he⟩ := turn_error ((printed fl files).failed _ ho)
  have hname : ∀ x ∈ entries files (print fl files).1.length,
      names[(print fl files).1.length % names.length]? = some x.name := by
    intro x hx
    obtain ⟨file, hf, hfx⟩ := mem_entries.1 hx
    exact (h file hf).repeats.name _ x hfx
  rcases he with he | ⟨next, -, ⟨-, file, hf, x, hx, -, hne, -⟩ | ⟨-, he⟩⟩
  · by_cases ht : a.TimeOk
    · obtain ⟨next, hnext, -⟩ := nextTime_of_timeOk (ε := ChistError) ht
      rw [hnext] at he
      cases he
    · obtain ⟨p, hp⟩ := nextTime_of_not_timeOk (ε := ChistError) ht
      rw [hp] at he
      cases he
  · have h1 := hname x (mem_entries.2 ⟨file, hf, hx⟩)
    rw [hname a (anchor_mem ha), Option.some_inj] at h1
    exact hne h1.symm
  · rcases makeRow_err he with ⟨e', he'⟩ | ⟨e', he'⟩ <;> cases he'

/-- Two files of two names, the second of which ends inside a group. -/
theorem print_noNameMismatch_sample :
    (print .exact [⟨"a", [sampleRecord "read" 0, sampleRecord "write" 0, sampleRecord "read" 1,
      sampleRecord "write" 1]⟩, ⟨"b", [sampleRecord "read" 0, sampleRecord "write" 0,
        sampleRecord "read" 1]⟩]).2 ≠ .failed (.err (.nameMismatch "b" 3 "write" "read")) := by
  refine print_noNameMismatch .exact _ ["read", "write"] (fun file hf => ?_) "b" 3 "write" "read"
  simp only [List.mem_cons, List.not_mem_nil, or_false] at hf
  rcases hf with rfl | rfl
  · exact ⟨_, rfl, rfl, by decide +kernel⟩
  · exact ⟨_, rfl, rfl, by decide +kernel⟩

end Chist
