import Chist.Hdr.Combine
import Chist.Hdr.Correct

/-!
# What a histogram gains

`Gained fl h ps g`: `g` is `h` after the samples `ps`, with as many slots, or with more if `h`
resizes itself. Recording in any way, with or without the correction, and adding another histogram
all gain samples, and gains compose (`Gained.trans`): the counts and the total are capped sums, so
it does not matter how the samples came in.
-/

set_option autoImplicit false

namespace Chist.Hdr

open Res

variable {ε : Type} {fl : Floats} {h g k s : Histogram} {ps qs : List (Nat × Nat)}

/-- `g` is `h` after the samples `ps`. -/
structure Gained (fl : Floats) (h : Histogram) (ps : List (Nat × Nat)) (g : Histogram) : Prop where
  kept : Kept fl g
  coherent : Coherent fl h → Coherent fl g
  layout : g.layout fl = h.layout fl
  autoResize : g.autoResize = h.autoResize
  length : h.counts.length ≤ g.counts.length
  fixed : h.autoResize = false → g.counts.length = h.counts.length
  totalCount : g.totalCount = satAdd64 h.totalCount (ps.map Prod.snd).sum
  counts : ∀ j, g.counts.getD j 0 = satAdd64 (h.counts.getD j 0) (samplesIn (h.layout fl) ps j)

theorem satAdd64_assoc (x y z : Nat) : satAdd64 (satAdd64 x y) z = satAdd64 x (y + z) := by
  unfold satAdd64
  omega

theorem samplesIn_append (L : LogLinear) (ps qs : List (Nat × Nat)) (j : Nat) :
    samplesIn L (ps ++ qs) j = samplesIn L ps j + samplesIn L qs j := by
  unfold samplesIn
  rw [List.filter_append, List.map_append, List.sum_append]

theorem Gained.refl (hk : Kept fl h) : Gained fl h [] h :=
  ⟨hk, id, rfl, rfl, Nat.le_refl _, fun _ => rfl, (CapSum.add_zero_of_le hk.totalCount_le).symm,
    fun j => (CapSum.add_zero_of_le (hk.getD_le j)).symm⟩

theorem Gained.trans (hg : Gained fl h ps g) (hk : Gained fl g qs k) :
    Gained fl h (ps ++ qs) k where
  kept := hk.kept
  coherent hc := hk.coherent (hg.coherent hc)
  layout := hk.layout.trans hg.layout
  autoResize := hk.autoResize.trans hg.autoResize
  length := hg.length.trans hk.length
  fixed hauto := (hk.fixed (hg.autoResize.trans hauto)).trans (hg.fixed hauto)
  totalCount := by
    rw [hk.totalCount, hg.totalCount, satAdd64_assoc, List.map_append, List.sum_append]
  counts j := by
    rw [hk.counts, hg.counts, satAdd64_assoc, hg.layout, samplesIn_append]

theorem Taken.gained (ht : Taken fl h ps g) : Gained fl h ps g :=
  ⟨ht.kept, ht.coherent, ht.layout, ht.autoResize, ht.length.ge, fun _ => ht.length,
    ht.totalCount, ht.counts⟩

/-! ## Making room -/

theorem grown_gained (hk : Kept fl h) (hauto : h.autoResize = true) {v high : Nat}
    (hs : Shaped fl (grown fl h v high)) : Gained fl h [] (grown fl h v high) := by
  refine ⟨grown_kept hk hs, fun hc => grown_coherent hc hs, rfl, rfl, ?_, ?_,
    (CapSum.add_zero_of_le hk.totalCount_le).symm, fun j => ?_⟩
  · simp [grown]
  · simp [hauto]
  · exact (getD_append_replicate _ _ j).trans (CapSum.add_zero_of_le (hk.getD_le j)).symm

theorem roomFor_gained (hk : Kept fl h) {v : Nat} (hv : v < 2 ^ 64)
    (hroom : h.autoResize = true ∨ (h.layout fl).slot v < h.counts.length) :
    Gained fl h [] (roomFor fl h v) := by
  have hs := roomFor_shaped hv hk.toShaped
  by_cases hi : (h.layout fl).slot v < h.counts.length
  · rw [roomFor, if_pos hi]
    exact .refl hk
  · rw [roomFor, if_neg hi] at hs ⊢
    exact grown_gained hk (hroom.resolve_right hi) hs

/-! ## Recording -/

section
variable (hk : Kept fl h) {v c : Nat} (hv : v < 2 ^ 64) (h0 : 0 < c)
include hk hv h0

theorem recordNCorrect_gained (hc : c < 2 ^ 64) (interval : Nat)
    (hroom : h.autoResize = true ∨ (h.layout fl).slot v < h.counts.length) :
    ∃ g, h.recordNCorrect v c interval = .ok g ∧ Gained fl h (corrected v c interval) g := by
  refine ⟨_, recordNCorrect_eq hv hk.toShaped hc interval hroom, ?_⟩
  have hg := roomFor_gained hk hv hroom
  have hslot : ((roomFor fl h v).layout fl).slot v < (roomFor fl h v).counts.length := by
    rw [roomFor_layout]
    exact slot_lt_roomFor
  have ht := recordedSeq_corrected hv hg.kept h0 hslot interval
  rw [roomFor_layout] at ht
  exact hg.trans ht.gained

theorem recordN_gained (hc : c < 2 ^ 64)
    (hroom : h.autoResize = true ∨ (h.layout fl).slot v < h.counts.length) :
    ∃ g, h.recordN v c = .ok g ∧ Gained fl h [(v, c)] g := by
  obtain ⟨g, hg, hgain⟩ := recordNCorrect_gained hk hv h0 hc 0 hroom
  refine ⟨g, ?_, by simpa [corrected] using hgain⟩
  have hrec : h.recordNCorrect v c 0 = leaving h (h.recordN v c) := by
    unfold Histogram.recordNCorrect
    cases h.recordN v c with
    | ok g => rfl
    | error e => cases e <;> rfl
  rw [hrec] at hg
  cases hr : h.recordN v c with
  | ok g' =>
    rw [hr] at hg
    obtain rfl : g' = g := by simpa [leaving] using hg
    rfl
  | error e =>
    rw [hr] at hg
    cases e <;> cases hg

theorem saturatingRecordN_gained :
    ∃ g, h.saturatingRecordN (ε := ε) v c = .ok g ∧ Gained fl h [(clamped fl h v, c)] g := by
  have hlt : clamped fl h v < 2 ^ 64 := by
    unfold clamped
    split
    · exact hv
    · exact hk.highest_lt
  have ht : Taken fl h [(clamped fl h v, c)] (recordedSeq (h.layout fl) h [(clamped fl h v, c)]) :=
    recordedSeq_taken hk (by
      simp only [List.mem_singleton, forall_eq]
      exact ⟨hlt, slot_clamped_lt hk.toShaped, h0⟩)
  exact ⟨_, saturatingRecordN_eq hv hk.toShaped c, ht.gained⟩

end

/-! ## Adding -/

/-- The samples of `s` by the low values of its slots. -/
def contents (fl : Floats) (s : Histogram) : List (Nat × Nat) :=
  (List.range s.counts.length).map (sampleAt s (s.layout fl))

theorem sum_contents (fl : Floats) (s : Histogram) :
    ((contents fl s).map Prod.snd).sum = s.counts.sum := by
  rw [contents, List.map_map,
    show Prod.snd ∘ sampleAt s (s.layout fl) = (s.counts.getD · 0) from rfl, Slots.sum_range,
    List.take_length]

theorem samplesIn_contents (L : LogLinear) (s : Histogram) (j : Nat) :
    samplesIn L (contents fl s) j = movedTo L (s.layout fl) s.counts j := by
  rw [samplesIn, contents, List.filter_map, List.map_map]
  rfl

theorem add_gained (hk : Kept fl h) (hs : Coherent fl s)
    (hroom : h.autoResize = true ∨ addendMax fl s ≤ topOf fl h) :
    ∃ g, h.add s = .ok g ∧ Gained fl h (contents fl s) g := by
  obtain ⟨g, hg, ha⟩ := add_summed hk hs.toKept hroom
  refine ⟨g, hg, ha.kept, fun hc => ha.coherent hc hs, ha.layout, ha.autoResize, ha.length,
    ha.fixed, ?_, fun j => ?_⟩
  · rw [ha.totalCount, hs.totalCount, sum_contents]
    unfold satAdd64
    omega
  · rw [ha.counts, samplesIn_contents]

end Chist.Hdr
