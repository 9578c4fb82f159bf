import Chist.Hdr.AddCorrect

/-!
# Copies and sums

`clone` adds the histogram to an empty one of its own configuration. That loses nothing, but the
addition can be refused, and `clone` then panics: a fixed histogram whose range ends at `u64::MAX`
reports a maximum past the top of an empty one (`clone_outcomes`). `set_to` has emptied the
histogram when it fails (`setTo_outcomes`). `sum` adds to the first histogram, and panics when one
of the others is refused (`sum_outcomes`).
-/

set_option autoImplicit false

namespace Chist.Hdr

open Res

variable {ε : Type} {fl : Floats} {h s : Histogram}

theorem topOf_lt (fl : Floats) (h : Histogram) : topOf fl h < u64Max := by
  unfold topOf LogLinear.highest u64Max
  omega

/-- An addend with the layout of `h` fits by its slot, unless its maximum is `u64::MAX`. -/
theorem addendMax_le_topOf (hL : s.layout fl = h.layout fl) (hne : s.maxValue ≠ u64Max)
    (hslot : (h.layout fl).slot s.maxValue < h.counts.length) :
    addendMax fl s ≤ topOf fl h := by
  unfold addendMax maxOf topOf
  rw [hL, if_neg hne]
  split
  · exact Nat.zero_le _
  · have hmono := (LogLinear.low_strictMono (h.layout fl)).monotone (Nat.succ_le_of_lt hslot)
    unfold LogLinear.highest
    rw [Nat.sub_add_cancel (by omega)]
    simp only [Nat.succ_eq_add_one] at hmono
    omega

theorem getD_emptied (h : Histogram) (j : Nat) : (emptied fl h).counts.getD j 0 = 0 := by
  by_contra hne
  have hmem : j ∈ occ (emptied fl h).counts := hne
  rw [show (emptied fl h).counts = List.replicate _ 0 from rfl, occ_replicate_zero] at hmem
  exact hmem

/-- `g` holds the samples of `h` and no others. -/
structure Copied (fl : Floats) (h g : Histogram) : Prop where
  kept : Kept fl g
  coherent : Coherent fl h → Coherent fl g
  layout : g.layout fl = h.layout fl
  autoResize : g.autoResize = h.autoResize
  totalCount : g.totalCount = h.totalCount
  counts : ∀ j, g.counts.getD j 0 = h.counts.getD j 0

section
variable (hk : Kept fl h)
include hk

theorem clone_eq : h.clone (ε := ε) fl = (emptied fl h).addAssign h := by
  unfold Histogram.clone
  rw [(newFrom_emptied (ε := ε) hk.toShaped).1, ok_bind]

theorem clone_panics (hauto : h.autoResize = false) (hmax : h.maxValue = u64Max) :
    h.clone (ε := ε) fl = panic (.unwrap "add_assign") := by
  obtain ⟨-, hc, -⟩ := newFrom_emptied (ε := ε) hk.toShaped
  have haddend : addendMax fl h = u64Max := by
    unfold addendMax maxOf
    rw [hmax, if_neg (by decide), if_pos rfl]
  have hrefuse := add_refuses hc.toKept hk hauto (haddend ▸ topOf_lt fl (emptied fl h))
  rw [clone_eq hk, Histogram.addAssign, hrefuse]
  rfl

theorem clone_copies (hfits : ¬ (h.autoResize = false ∧ h.maxValue = u64Max)) :
    ∃ g, h.clone (ε := ε) fl = .ok g ∧ Copied fl h g := by
  obtain ⟨-, hc, hL, hlen⟩ := newFrom_emptied (ε := ε) hk.toShaped
  have hroom : (emptied fl h).autoResize = true ∨ addendMax fl h ≤ topOf fl (emptied fl h) := by
    by_cases hauto : h.autoResize = true
    · exact .inl hauto
    · refine .inr (addendMax_le_topOf hL.symm (fun he => hfits ⟨by simpa using hauto, he⟩) ?_)
      rw [hL, hlen, hk.slot_maxValue]
      exact hk.last_lt
  obtain ⟨g, hg, hsum⟩ := add_summed hc.toKept hk hroom
  refine ⟨g, by rw [clone_eq hk, Histogram.addAssign, hg]; rfl, hsum.kept, hsum.coherent hc,
    hsum.layout.trans hL, hsum.autoResize, ?_, fun j => ?_⟩
  · exact hsum.totalCount.trans (CapSum.zero_add_of_le hk.totalCount_le)
  · rw [hsum.counts, hL, movedTo_self, getD_emptied]
    exact CapSum.zero_add_of_le (hk.getD_le j)

/-- **`clone`** panics for a fixed histogram whose maximum is `u64::MAX`, and else copies. -/
theorem clone_outcomes : if h.autoResize = false ∧ h.maxValue = u64Max then
      h.clone (ε := ε) fl = panic (.unwrap "add_assign")
    else ∃ g, h.clone (ε := ε) fl = .ok g ∧ Copied fl h g := by
  split
  · rename_i hfull
    exact clone_panics hk hfull.1 hfull.2
  · rename_i hfits
    exact clone_copies hk hfits

omit hk in
theorem clone_outcomes_sample :
    ∃ g, sample.clone (ε := Empty) .exact = .ok g ∧ Copied .exact sample g := by
  have houtcomes := clone_outcomes (ε := Empty) sample_coherent.toKept
  rwa [if_neg (by decide)] at houtcomes

end

/-- **`set_to`** leaves the samples of the source, or none. -/
theorem setTo_outcomes (hk : Kept fl h) (hs : Kept fl s) :
    if h.autoResize = false ∧ topOf fl h < addendMax fl s then
      h.setTo s = .error (.err (h.reset, .otherAddendValueExceedsRange))
    else ∃ g, h.setTo s = .ok g ∧ Summed fl h.reset s g := by
  obtain ⟨hc, hcounts⟩ := reset_coherent hk.toShaped
  have htop : topOf fl h.reset = topOf fl h := by
    unfold topOf
    rw [hcounts, List.length_replicate]
    rfl
  unfold Histogram.setTo
  split
  · rename_i hfull
    rw [add_refuses hc.toKept hs hfull.1 (htop.trans_lt hfull.2)]
    rfl
  · rename_i hfits
    have hroom : h.reset.autoResize = true ∨ addendMax fl s ≤ topOf fl h.reset := by
      by_cases hauto : h.autoResize = true
      · exact .inl hauto
      · rw [htop]
        exact .inr (Nat.le_of_not_lt fun hlt => hfits ⟨by simpa using hauto, hlt⟩)
    obtain ⟨g, hg, hsum⟩ := add_summed hc.toKept hs hroom
    exact ⟨g, by rw [hg]; rfl, hsum⟩

/-! ## Sums -/

/-- `g` holds the samples of `h` and of all of `rest`. -/
structure Totalled (fl : Floats) (h : Histogram) (rest : List Histogram) (g : Histogram) :
    Prop where
  kept : Kept fl g
  layout : g.layout fl = h.layout fl
  autoResize : g.autoResize = h.autoResize
  totalCount : g.totalCount = min (h.totalCount + (rest.map (·.totalCount)).sum) u64Max
  counts : ∀ j, g.counts.getD j 0 = min (h.counts.getD j 0 +
    (rest.map fun s => movedTo (h.layout fl) (s.layout fl) s.counts j).sum) u64Max

/-- No histogram to be added exceeds a fixed range. -/
def HasRoomFor (fl : Floats) (h : Histogram) (rest : List Histogram) : Prop :=
  h.autoResize = true ∨ ∀ s ∈ rest, addendMax fl s ≤ topOf fl h

theorem Totalled.nil (hk : Kept fl h) : Totalled fl h [] h :=
  ⟨hk, rfl, rfl, (min_eq_left hk.totalCount_le).symm, fun j => (min_eq_left (hk.getD_le j)).symm⟩

theorem Totalled.cons {g g' : Histogram} {rest : List Histogram} (hsum : Summed fl h s g)
    (ht : Totalled fl g rest g') : Totalled fl h (s :: rest) g' := by
  refine ⟨ht.kept, ht.layout.trans hsum.layout, ht.autoResize.trans hsum.autoResize, ?_,
    fun j => ?_⟩
  · rw [ht.totalCount, hsum.totalCount, List.map_cons, List.sum_cons]
    unfold satAdd64
    omega
  · rw [ht.counts, hsum.counts, hsum.layout, List.map_cons, List.sum_cons]
    unfold satAdd64
    omega

theorem hasRoomFor_cons {g : Histogram} {rest : List Histogram} (hsum : Summed fl h s g)
    (hroom : h.autoResize = true ∨ addendMax fl s ≤ topOf fl h) :
    HasRoomFor fl g rest ↔ HasRoomFor fl h (s :: rest) := by
  unfold HasRoomFor
  rw [hsum.autoResize, List.forall_mem_cons]
  by_cases hauto : h.autoResize = true
  · exact iff_of_true (.inl hauto) (.inl hauto)
  · have htop : topOf fl g = topOf fl h := by
      unfold topOf
      rw [hsum.layout, hsum.fixed (by simpa using hauto)]
    rw [htop]
    simp only [hauto, false_or, Bool.false_eq_true]
    exact (and_iff_right (hroom.resolve_left hauto)).symm

/-- **`sum`** adds up all samples, or panics when a histogram exceeds the range of a fixed first
one. -/
theorem sum_outcomes {rest : List Histogram} (hk : Kept fl h) (hrest : ∀ s ∈ rest, Kept fl s) :
    (HasRoomFor fl h rest ∧
      ∃ g, Histogram.sum (ε := ε) fl (h :: rest) = .ok g ∧ Totalled fl h rest g) ∨
    (¬ HasRoomFor fl h rest ∧
      Histogram.sum (ε := ε) fl (h :: rest) = panic (.unwrap "add_assign")) := by
  induction rest generalizing h with
  | nil =>
    have hfits : HasRoomFor fl h [] := .inr (by simp)
    exact .inl ⟨hfits, h, rfl, .nil hk⟩
  | cons s rest ih =>
    have hs := hrest s List.mem_cons_self
    have hcons : Histogram.sum (ε := ε) fl (h :: s :: rest) =
        h.addAssign s >>= fun g => Histogram.sum fl (g :: rest) := List.foldlM_cons
    by_cases hroom : h.autoResize = true ∨ addendMax fl s ≤ topOf fl h
    · obtain ⟨g, hg, hsum⟩ := add_summed hk hs hroom
      have hstep : h.addAssign (ε := ε) s = .ok g := by
        rw [Histogram.addAssign, hg]
        rfl
      rw [hcons, hstep, ok_bind, ← hasRoomFor_cons hsum hroom]
      rcases ih hsum.kept fun x hx => hrest x (List.mem_cons_of_mem _ hx) with
        ⟨hfits, g', hg', ht⟩ | ⟨hfull, hpanic⟩
      · exact .inl ⟨hfits, g', hg', ht.cons hsum⟩
      · exact .inr ⟨hfull, hpanic⟩
    · obtain ⟨hauto, hle⟩ := not_or.1 hroom
      refine .inr ⟨fun hfits => hroom (hfits.imp_right fun hall => hall s List.mem_cons_self), ?_⟩
      rw [hcons, Histogram.addAssign,
        add_refuses hk hs (by simpa using hauto) (Nat.lt_of_not_le hle)]
      rfl

theorem sum_outcomes_sample :
    ∃ g, Histogram.sum (ε := Empty) .exact [sample, sample, sample] = .ok g ∧
      Totalled .exact sample [sample, sample] g := by
  have hrest : ∀ s ∈ [sample, sample], Kept .exact s := by
    simp [sample_coherent.toKept]
  have hfits : HasRoomFor .exact sample [sample, sample] := .inr (by decide +kernel)
  rcases sum_outcomes (ε := Empty) sample_coherent.toKept hrest with ⟨-, hsum⟩ | ⟨hfull, -⟩
  · exact hsum
  · exact absurd hfits hfull

end Chist.Hdr
