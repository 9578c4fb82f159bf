import Chist.Print.Rejected

/-!
# The assumptions of the merge

The merge is documented to rest on three assumptions about its files (`Assumptions`), and to bail
out where they do not hold. A turn looks at its own column only, and of a record that is not near
the anchor not even at the name. `Unchecked` is what the assumptions say beyond that: with the
columns not rejected it gives them back (`Unchecked.assumptions`). So a run that returns `Ok` shows
the assumptions exactly when some column is rejected or the unchecked part holds (`detects_iff`).
-/

set_option autoImplicit false

namespace Chist

open Res Hdr

/-- The assumptions: in every file the timestamps never decrease and records of one timestamp have
different names, and all files repeat the same distinct names in the same order. -/
structure Assumptions (files : List HistFile) : Prop where
  sorted : ∀ file ∈ files, file.records.Pairwise fun x y => x.now.nanos ≤ y.now.nanos
  distinct : ∀ file ∈ files, file.records.Pairwise fun x y => x.now = y.now → x.name ≠ y.name
  ordered : ∃ names : List String, names ≠ [] ∧ names.Nodup ∧ ∀ file ∈ files,
    ∀ (i : Nat) (x : HistRecord), file.records[i]? = some x →
      names[i % names.length]? = some x.name

/-- What no turn looks at: the times of neighbours, whether the names of the anchors repeat, the
names of the records that are not near their anchor, and the times of records a round apart. -/
structure Unchecked (files : List HistFile) (names : List String) : Prop where
  names_ne : names ≠ []
  nodup : names.Nodup
  neighbours : ∀ file ∈ files, (file.records.map (·.now.nanos)).IsChain (· ≤ ·)
  anchors : ∀ (r : Nat) (a : HistRecord), anchor files r = some a →
    names[r % names.length]? = some a.name
  far : ∀ (r : Nat) (a x : HistRecord), anchor files r = some a → x ∈ entries files r →
    ¬ a.Near x → x.name = a.name
  rounds : ∀ file ∈ files, ∀ (i : Nat) (x y : HistRecord), file.records[i]? = some x →
    file.records[i + names.length]? = some y → x.now.nanos < y.now.nanos

variable {fl : Floats} {files : List HistFile} {names : List String}

theorem neighbours_iff (l : List HistRecord) :
    (l.map (·.now.nanos)).IsChain (· ≤ ·) ↔ l.Pairwise fun x y => x.now.nanos ≤ y.now.nanos := by
  rw [List.isChain_iff_pairwise, List.pairwise_map]

theorem Assumptions.unchecked (h : Assumptions files) : ∃ names, Unchecked files names := by
  obtain ⟨names, hne, hnodup, hnames⟩ := h.ordered
  have hname : ∀ {r : Nat} {x : HistRecord}, x ∈ entries files r →
      names[r % names.length]? = some x.name := by
    intro r x hx
    obtain ⟨file, hf, hx⟩ := mem_entries.1 hx
    exact hnames file hf r x hx
  refine ⟨names, hne, hnodup, fun file hf => (neighbours_iff _).2 (h.sorted file hf),
    fun r a ha => hname (anchor_mem ha), fun r a x ha hx _ => ?_, fun file hf i x y hx hy => ?_⟩
  · exact Option.some.inj ((hname hx).symm.trans (hname (anchor_mem ha)))
  · -- a round apart the names are the same, so the times are not
    have hlt : i < i + names.length := Nat.lt_add_of_pos_right (List.length_pos_of_ne_nil hne)
    have hxn := hnames file hf i x hx
    have hyn := hnames file hf _ y hy
    rw [Nat.add_mod_right, hxn, Option.some_inj] at hyn
    obtain ⟨hi, rfl⟩ := List.getElem?_eq_some_iff.1 hx
    obtain ⟨hj, rfl⟩ := List.getElem?_eq_some_iff.1 hy
    have hle := List.pairwise_iff_getElem.1 (h.sorted file hf) i _ hi hj hlt
    have hdistinct := List.pairwise_iff_getElem.1 (h.distinct file hf) i _ hi hj hlt
    exact lt_of_le_of_ne hle fun heq => hdistinct (DateTime.eq_of_nanos heq) hyn

/-- **What is noticed and what is not looked at** make up the assumptions. -/
theorem Unchecked.assumptions (h : Unchecked files names)
    (hno : ∀ r < depth files, ¬ Rejected fl files r) : Assumptions files := by
  have hpos := List.length_pos_of_ne_nil h.names_ne
  have hsorted := fun file hf => (neighbours_iff _).1 (h.neighbours file hf)
  have hnames : ∀ file ∈ files, ∀ (i : Nat) (x : HistRecord), file.records[i]? = some x →
      names[i % names.length]? = some x.name := by
    intro file hf i x hx
    have hmem := mem_entries.2 ⟨file, hf, hx⟩
    have hi : i < depth files := by
      rw [← Nat.not_le, ← anchor_eq_none_iff]
      intro hnone
      exact List.ne_nil_of_mem hmem (anchor_eq_none_iff_entries.1 hnone)
    obtain ⟨a, ha⟩ : ∃ a, anchor files i = some a := by
      rw [← Option.ne_none_iff_exists', ne_eq, anchor_eq_none_iff]
      omega
    have hxa : x.name = a.name := by
      by_cases hnear : a.Near x
      · by_contra hne
        exact hno i hi (.name ha hmem hnear hne)
      · exact h.far i a x ha hmem hnear
    rw [hxa]
    exact h.anchors i a ha
  refine ⟨hsorted, fun file hf => ?_, names, h.names_ne, h.nodup, hnames⟩
  rw [List.pairwise_iff_getElem]
  intro i j hi hj hij hnow hname
  -- records of one name are at least a round apart
  have hmod : i % names.length = j % names.length := by
    have h1 := hnames file hf i _ (List.getElem?_eq_getElem hi)
    have h2 := hnames file hf j _ (List.getElem?_eq_getElem hj)
    rw [hname, ← h2] at h1
    exact (List.getElem?_inj (Nat.mod_lt _ hpos) h.nodup).1 h1
  have hround : i + names.length ≤ j := by
    have hdvd := Nat.dvd_of_mod_eq_zero (Nat.sub_mod_eq_zero_of_mod_eq hmod.symm)
    have := Nat.le_of_dvd (Nat.sub_pos_of_lt hij) hdvd
    omega
  have hmid : i + names.length < file.records.length := hround.trans_lt hj
  have hlt := h.rounds file hf i _ _ (List.getElem?_eq_getElem hi) (List.getElem?_eq_getElem hmid)
  have hle : file.records[i + names.length].now.nanos ≤ file.records[j].now.nanos := by
    rcases Nat.lt_or_eq_of_le hround with hlt' | heq
    · exact List.pairwise_iff_getElem.1 (hsorted file hf) _ j hmid hj hlt'
    · simp only [heq, le_refl]
  rw [hnow] at hlt
  omega

/-- **Violated assumptions are detected exactly when** some column is rejected, or what no turn
looks at is as assumed. -/
theorem detects_iff (fl : Floats) (files : List HistFile) :
    ((print fl files).2 = .finished → Assumptions files) ↔
      (∃ r < depth files, Rejected fl files r) ∨ ∃ names, Unchecked files names := by
  rw [print_finished_iff_rejected]
  refine ⟨?_, ?_⟩
  · intro h
    by_cases hrej : ∃ r < depth files, Rejected fl files r
    · exact .inl hrej
    · exact .inr (h fun r hr hc => hrej ⟨r, hr, hc⟩).unchecked
  · rintro (⟨r, hr, hrej⟩ | ⟨names, hun⟩) hno
    · exact absurd hrej (hno r hr)
    · exact hun.assumptions hno

/-- A file whose second record is earlier than its first is printed. -/
theorem detects_fails : ¬ ((print .exact
    [⟨"a", [sampleRecord "read" 1, sampleRecord "read" 0]⟩]).2 = .finished →
    Assumptions [⟨"a", [sampleRecord "read" 1, sampleRecord "read" 0]⟩]) := by
  intro h
  have hsorted := (h (by decide +kernel)).sorted _ List.mem_cons_self
  revert hsorted
  decide +kernel

end Chist
