import Chist.Print.Row

/-!
# Rows of equal bounds

Records whose histograms have the same bounds are merged slot by slot: the merge is a fold of
`merged` into the fresh histogram of the bounds (`mergeSnapshots_same`). Its slots hold the
saturated sums (`getD_foldl_merged`), and its maximum is that of its last occupied slot
(`maxValue_foldl_merged`).
-/

set_option autoImplicit false

namespace Chist

open Res Hdr

variable {fl : Floats}

/-- The histograms of `x` and `y` have the same bounds and precision. -/
def SameBounds (x y : HistRecord) : Prop :=
  y.hist.lowestTrackableValue = x.hist.lowestTrackableValue ∧
    y.hist.highestTrackableValue = x.hist.highestTrackableValue ∧
    y.hist.significantFigures = x.hist.significantFigures

instance (x y : HistRecord) : Decidable (SameBounds x y) := inferInstanceAs (Decidable (_ ∧ _ ∧ _))

/-- The empty histogram of the bounds of `x`. -/
def HistRecord.fresh (fl : Floats) (x : HistRecord) : Histogram :=
  Hdr.fresh fl x.hist.lowestTrackableValue.toNat x.hist.highestTrackableValue.toNat
    x.hist.significantFigures.toNat

def HistRecord.bins (fl : Floats) (x : HistRecord) : Nat := x.hist.toSnapshot.binsNeeded fl

section
variable {x y : HistRecord} (h : SameBounds x y)
include h

theorem SameBounds.layout : y.layout fl = x.layout fl := by
  simp only [HistRecord.layout, HistogramSnapshot.layout, HistSnapshot.toSnapshot, h.1, h.2.2]

theorem SameBounds.bins : y.bins fl = x.bins fl := by
  have hlayout : y.layout fl = x.layout fl := h.layout
  simp only [HistRecord.layout] at hlayout
  simp only [HistRecord.bins, HistogramSnapshot.binsNeeded, hlayout]
  simp only [HistSnapshot.toSnapshot, h.2.1]

theorem SameBounds.boundsOk : y.BoundsOk fl ↔ x.BoundsOk fl := by
  simp only [HistRecord.BoundsOk, HistogramSnapshot.BoundsOk, HistSnapshot.toSnapshot, h.1, h.2.1,
    h.2.2]

theorem SameBounds.fresh : y.fresh fl = x.fresh fl := by
  simp only [HistRecord.fresh, h.1, h.2.1, h.2.2]

end

theorem fresh_counts (x : HistRecord) :
    (x.fresh fl).counts = List.replicate (x.bins fl) 0 := rfl

theorem length_loaded {x : HistRecord} (hb : x.BoundsOk fl) (hw : x.WellSized fl) :
    (x.loaded fl).counts.length = x.bins fl := (List.length_map _).trans (hw hb)

/-! ## The merge -/

section
variable {x : HistRecord} {xs : List HistRecord} (hb : x.BoundsOk fl)
  (hw : ∀ y ∈ x :: xs, y.WellSized fl) (hsame : ∀ y ∈ x :: xs, SameBounds x y)
include hb hw hsame

theorem loaded_same {y : HistRecord} (hy : y ∈ x :: xs) :
    Loaded (y.loaded fl) (x.layout fl) ∧ (y.loaded fl).counts.length = x.bins fl := by
  have hby := (hsame y hy).boundsOk.2 hb
  rw [← (hsame y hy).layout, ← (hsame y hy).bins]
  exact ⟨loaded_of hby (hw y hy), length_loaded hby (hw y hy)⟩

theorem loadedAll_same : ∀ s ∈ (x :: xs).map (·.loaded fl), Loaded s (x.layout fl) ∧
    s.counts.length = x.bins fl := by
  rw [List.forall_mem_map]
  exact fun y hy => loaded_same hb hw hsame hy

/-- **The merge of equal bounds**: a fold of `merged`, unless a maximum is past the last slot. -/
theorem mergeSnapshots_same : mergeSnapshots fl ((x :: xs).map (·.loaded fl)) =
    if ∀ s ∈ (x :: xs).map (·.loaded fl),
        s.maxValue ≤ (x.layout fl).highest (x.bins fl - 1) then
      .ok (((x :: xs).map (·.loaded fl)).foldl merged (x.fresh fl))
    else .error (.err (.addingHistograms .otherAddendValueExceedsRange)) := by
  have hwx := hw x List.mem_cons_self
  have hnew := newFrom_loaded (ε := ChistError) hb (hwx hb)
  have hlen : (x.fresh fl).counts.length = x.bins fl := List.length_replicate
  have hc : Canon (x.fresh fl) (x.layout fl) :=
    fresh_canon hb x.hist.toSnapshot.highestTrackableValue.toNat_lt
  have hl : ∀ s ∈ (x :: xs).map (·.loaded fl), Loaded s (x.layout fl) ∧
      s.counts.length = (x.fresh fl).counts.length := by
    rw [hlen]
    exact loadedAll_same hb hw hsame
  have hfold := foldlM_add_same hc hl
  rw [hlen] at hfold
  unfold mergeSnapshots
  rw [List.map_cons, List.head?_cons, unwrapSome_some, ok_bind, HistRecord.loaded, hnew, ok_bind,
    ← HistRecord.loaded, ← List.map_cons]
  change mapErr _ (List.foldlM _ (x.fresh fl) _) = _
  rw [hfold]
  split
  · rfl
  · rfl

end

/-! ## Its slots and its maximum -/

theorem counts_foldl_merged (h : Histogram) (ss : List Histogram) :
    (ss.foldl merged h).counts = (ss.map (·.counts)).foldl (List.zipWith satAdd64) h.counts := by
  rw [List.foldl_map]
  exact (List.foldl_hom Histogram.counts fun _ _ => rfl).symm

theorem length_foldl_merged {h : Histogram} {ss : List Histogram}
    (hl : ∀ s ∈ ss, s.counts.length = h.counts.length) :
    (ss.foldl merged h).counts.length = h.counts.length := by
  induction ss generalizing h with
  | nil => rfl
  | cons s ss ih =>
    obtain ⟨hlen, hl⟩ := List.forall_mem_cons.1 hl
    have hlen' : (merged h s).counts.length = h.counts.length := by simp [merged, hlen]
    rw [List.foldl_cons, ih (by rwa [hlen']), hlen']

theorem getD_foldl_merged {h : Histogram} {ss : List Histogram} {n : Nat}
    (hn : h.counts = List.replicate n 0) (hl : ∀ s ∈ ss, s.counts.length = n) (i : Nat) :
    (ss.foldl merged h).counts.getD i 0 = min (ss.map (·.counts.getD i 0)).sum u64Max := by
  have hl' : ∀ l ∈ ss.map (·.counts), l.length = h.counts.length := by
    rw [List.forall_mem_map, hn, List.length_replicate]
    exact hl
  have h0 : h.counts.getD i 0 = 0 := by
    rw [hn, List.getD_eq_getElem?_getD, List.getElem?_replicate]
    split <;> rfl
  rw [counts_foldl_merged, satAdd64_eq, CapSum.getD_foldl_zipWith (by decide) _ _ hl', h0,
    CapSum.foldl_add _ (Nat.zero_le _), Nat.zero_add, List.map_map]
  rfl

/-- Merging two histograms whose maximum is that of their last occupied slot. -/
theorem maxValue_merged {h s : Histogram} {L : LogLinear} (hb : L.base ≤ 63)
    (hlen : h.counts.length = s.counts.length)
    (hh : h.maxValue = L.topValue (Slots.last h.counts))
    (hs : s.maxValue = L.topValue (Slots.last s.counts))
    (hh64 : L.low (Slots.last h.counts) < 2 ^ 64) (hs64 : L.low (Slots.last s.counts) < 2 ^ 64) :
    (merged h s).maxValue = L.topValue (Slots.last (merged h s).counts) := by
  have hlast : Slots.last (merged h s).counts =
      max (Slots.last h.counts) (Slots.last s.counts) :=
    Slots.last_zipWith (CapSum.add_eq_zero_iff (by decide)) hlen
  have hmax : (merged h s).maxValue = max h.maxValue s.maxValue := rfl
  rw [hmax, hlast, hh, hs]
  rcases Nat.le_total (Slots.last h.counts) (Slots.last s.counts) with hle | hle
  · rw [max_eq_right hle, max_eq_right (topValue_mono hb hle hs64)]
  · rw [max_eq_left hle, max_eq_left (topValue_mono hb hle hh64)]

/-- **The maximum of the merge** is that of its last occupied slot. -/
theorem maxValue_foldl_merged {h : Histogram} {ss : List Histogram} {L : LogLinear}
    (hs : Sized h L) (hl : ∀ s ∈ ss, Loaded s L ∧ s.counts.length = h.counts.length)
    (hh : h.maxValue = L.topValue (Slots.last h.counts)) :
    (ss.foldl merged h).maxValue = L.topValue (Slots.last (ss.foldl merged h).counts) := by
  induction ss generalizing h with
  | nil => exact hh
  | cons s ss ih =>
    obtain ⟨⟨hsL, hlen⟩, hl⟩ := List.forall_mem_cons.1 hl
    have hlen' : (merged h s).counts.length = h.counts.length := by simp [merged, hlen]
    refine ih (hs.stats hlen' _ _ _) (by rwa [hlen']) ?_
    exact maxValue_merged hs.base_le hlen.symm hh hsL.maxValue
      (hs.low_lt (Slots.last_lt_length hs.length_pos)) hsL.low_last_lt

theorem maxValue_merged_fresh {h s : Histogram} {L : LogLinear} {n : Nat} (hl : Loaded s L)
    (hlen : s.counts.length = n) (hn : h.counts = List.replicate n 0) (h0 : h.maxValue = 0) :
    (merged h s).maxValue = L.topValue (Slots.last (merged h s).counts) := by
  have hcounts : (merged h s).counts = s.counts := by
    change List.zipWith satAdd64 h.counts s.counts = s.counts
    rw [hn, ← hlen]
    apply List.ext_getElem (by simp)
    intro i h1 h2
    have hlt := hl.counts_lt _ (List.getElem_mem h2)
    rw [List.getElem_zipWith, List.getElem_replicate]
    exact CapSum.zero_add_of_le (by unfold u64Max; omega)
  have hmax : (merged h s).maxValue = max h.maxValue s.maxValue := rfl
  rw [hmax, h0, Nat.zero_max, hcounts, hl.maxValue]

/-! ## Below `2 ^ 63` -/

/-- The slots of the merge of `xs`, of `n` slots each. -/
def mergedSlots (n : Nat) (xs : List HistRecord) : List Nat :=
  (List.range n).map fun i => min (xs.map (·.countList.getD i 0)).sum u64Max

def mergedTotal (xs : List HistRecord) : Nat := min (xs.map (·.samples)).sum u64Max

/-- The running totals of the merge of `xs` fit in `u64` until they reach the count of each
quantile. -/
def QuantilesFit (fl : Floats) (n : Nat) (xs : List HistRecord) : Prop :=
  ∀ q ∈ [(50 / 100 : Rat), 95 / 100, 99 / 100],
    ScanFits (Histogram.countAtQuantile fl q (mergedTotal xs)) 0 (mergedSlots n xs)

theorem totalCount_foldl_merged (h : Histogram) (ss : List Histogram) :
    (ss.foldl merged h).totalCount = (ss.map (·.totalCount)).foldl satAdd64 h.totalCount := by
  rw [List.foldl_map]
  exact (List.foldl_hom Histogram.totalCount fun _ _ => rfl).symm

theorem totalCount_merge (fl : Floats) (x : HistRecord) (xs : List HistRecord) :
    ((xs.map (·.loaded fl)).foldl merged (x.fresh fl)).totalCount = mergedTotal xs := by
  have hmap : (xs.map (·.loaded fl)).map (·.totalCount) =
      (xs.map (·.samples)).map (min · u64Max) := by
    rw [List.map_map, List.map_map]
    rfl
  have hsum : ∀ l : List Nat, ∀ n ≤ u64Max,
      (l.map (min · u64Max)).foldl satAdd64 n = min (n + l.sum) u64Max := by
    intro l n hn
    rw [satAdd64_eq, CapSum.foldl_add _ hn]
    clear hn
    induction l generalizing n with
    | nil => rfl
    | cons a l ih =>
      have := ih (n + min a u64Max)
      rw [List.map_cons, List.sum_cons, List.sum_cons, ← Nat.add_assoc, this]
      omega
  rw [totalCount_foldl_merged, hmap]
  refine (hsum _ 0 (Nat.zero_le _)).trans ?_
  rw [Nat.zero_add, mergedTotal]

/-- A row holds its records: `#` counts their histograms, and the summary is the merge of these,
with the sum of their counts in every slot and of their samples in all. -/
structure Row.Holds (fl : Floats) (row : Row) : Prop where
  fileSnapshots : row.fileSnapshots = row.merged.map (·.loaded fl)
  summary : mergeSnapshots fl row.fileSnapshots = .ok row.summary
  counts : ∀ x ∈ row.merged.head?, row.summary.counts = mergedSlots (x.bins fl) row.merged
  totalCount : row.summary.totalCount = mergedTotal row.merged

section
variable {x : HistRecord} {xs : List HistRecord} (hb : x.BoundsOk fl)
  (hw : ∀ y ∈ x :: xs, y.WellSized fl) (hsame : ∀ y ∈ x :: xs, SameBounds x y)
include hb hw hsame

theorem counts_merge : (((x :: xs).map (·.loaded fl)).foldl merged (x.fresh fl)).counts =
    mergedSlots (x.bins fl) (x :: xs) := by
  have hl : ∀ s ∈ (x :: xs).map (·.loaded fl), s.counts.length = x.bins fl :=
    fun s hs => (loadedAll_same hb hw hsame s hs).2
  have hlen : (x.fresh fl).counts.length = x.bins fl := List.length_replicate
  apply List.ext_getElem
  · rw [length_foldl_merged fun s hs => (hl s hs).trans hlen.symm, hlen]
    simp [mergedSlots]
  · intro i h1 h2
    have h := getD_foldl_merged (fresh_counts x) hl i
    rw [List.getD_eq_getElem _ _ h1, List.map_map] at h
    rw [h]
    simp only [mergedSlots, List.getElem_map, List.getElem_range]
    rfl

theorem maxValue_merge : (((x :: xs).map (·.loaded fl)).foldl merged (x.fresh fl)).maxValue =
    (x.layout fl).topValue
      (Slots.last (((x :: xs).map (·.loaded fl)).foldl merged (x.fresh fl)).counts) := by
  have hlen : (x.fresh fl).counts.length = x.bins fl := List.length_replicate
  have hsized : Sized (x.fresh fl) (x.layout fl) :=
    fresh_sized hb x.hist.toSnapshot.highestTrackableValue.toNat_lt
  obtain ⟨⟨h1, h2⟩, hrest⟩ := List.forall_mem_cons.1 (loadedAll_same hb hw hsame)
  have hlen1 : (merged (x.fresh fl) (x.loaded fl)).counts.length = x.bins fl := by
    simp [merged, hlen, h2]
  rw [List.map_cons, List.foldl_cons]
  refine maxValue_foldl_merged (hsized.stats (hlen1.trans hlen.symm) _ _ _) ?_
    (maxValue_merged_fresh h1 h2 (fresh_counts x) rfl)
  rw [hlen1]
  exact hrest

/-- Below `2 ^ 63` no maximum is past the last slot. -/
theorem maxValue_le_highest (hhigh : x.hist.highestTrackableValue.toNat < 2 ^ 63) :
    ∀ s ∈ (x :: xs).map (·.loaded fl),
      s.maxValue ≤ (x.layout fl).highest (x.bins fl - 1) := by
  rw [List.forall_mem_map]
  intro y hy
  obtain ⟨hl, hlen⟩ := loaded_same hb hw hsame hy
  have hlast := Slots.last_lt_length hl.toSized.length_pos
  rw [hlen] at hlast
  have hend : (x.layout fl).low (x.bins fl) < 2 ^ 64 :=
    (low_bins_lt_iff hl.base_le x.hist.highestTrackableValue.toNat_lt).2 hhigh
  have hle := (x.layout fl).low_strictMono.monotone (Nat.succ_le_of_lt hlast)
  rw [hl.maxValue, topValue_le_highest_iff hlast (Nat.le_of_lt hend)]
  exact .inr (Nat.lt_of_le_of_lt hle hend)

/-- **The merge of equal bounds below `2 ^ 63`** always succeeds. -/
theorem mergeSnapshots_below (hhigh : x.hist.highestTrackableValue.toNat < 2 ^ 63) :
    mergeSnapshots fl ((x :: xs).map (·.loaded fl)) =
        .ok (((x :: xs).map (·.loaded fl)).foldl merged (x.fresh fl)) ∧
      Summary (((x :: xs).map (·.loaded fl)).foldl merged (x.fresh fl)) (x.layout fl) := by
  have hmerge := mergeSnapshots_same hb hw hsame
  rw [if_pos (maxValue_le_highest hb hw hsame hhigh)] at hmerge
  refine ⟨hmerge, ?_⟩
  rcases mergeSnapshots_spec (fun y hy => (hsame y hy).boundsOk.2 hb) hw with
    ⟨e, he⟩ | ⟨g, hg, h, -⟩
  · rw [hmerge] at he
    cases he
  · rw [hmerge, Except.ok.injEq] at hg
    exact hg ▸ h

/-- **A row of equal bounds below `2 ^ 63`** is made exactly when its running totals fit. -/
theorem makeRow_same (hhigh : x.hist.highestTrackableValue.toNat < 2 ^ 63) {time : DateTime}
    {name : String} {elapsed : UInt64} {picked : List (Option HistRecord)}
    (hpicked : picked.filterMap id = x :: xs) :
    (∃ row, makeRow fl time name elapsed picked = .ok row) ↔
      QuantilesFit fl (x.bins fl) (x :: xs) := by
  have hload := loadAll_ok hw fun y hy => (hsame y hy).boundsOk.2 hb
  obtain ⟨hmerge, hsum⟩ := mergeSnapshots_below hb hw hsame hhigh
  have hcounts := counts_merge hb hw hsame
  have htotal := totalCount_merge fl x (x :: xs)
  generalize ((x :: xs).map (·.loaded fl)).foldl merged (x.fresh fl) = g at *
  refine ⟨?_, ?_⟩
  · rintro ⟨row, hrow⟩ q hq
    have hmade := makeRow_eq_ok hrow
    have hmerged : row.merged = x :: xs := by rw [Row.merged, hmade.picked_eq, hpicked]
    have hg := hmade.merges_loaded (by rwa [hmerged])
    rw [hmerged, hmerge, Except.ok.injEq] at hg
    by_contra hno
    rw [← hcounts, ← htotal, hg] at hno
    have hpanic := valueAtQuantile_panic (ε := ChistError) hno
    simp only [List.mem_cons, List.not_mem_nil, or_false] at hq
    rcases hq with rfl | rfl | rfl
    · rw [hmade.p50_eq] at hpanic
      cases hpanic
    · rw [hmade.p95_eq] at hpanic
      cases hpanic
    · rw [hmade.p99_eq] at hpanic
      cases hpanic
  · intro hfit
    unfold QuantilesFit at hfit
    rw [← hcounts, ← htotal] at hfit
    refine ⟨⟨time, name, elapsed, picked, (x :: xs).map (·.loaded fl), g,
      quantileValue fl (x.layout fl) g (50 / 100),
      quantileValue fl (x.layout fl) g (95 / 100), quantileValue fl (x.layout fl) g (99 / 100),
      maxOf (x.layout fl) g.maxValue⟩, ?_⟩
    unfold makeRow
    rw [hpicked, hload, ok_bind, hmerge, ok_bind,
      valueAtQuantile_eq hsum.toSized (by norm_num) (hfit _ (by simp)), ok_bind,
      valueAtQuantile_eq hsum.toSized (by norm_num) (hfit _ (by simp)), ok_bind,
      valueAtQuantile_eq hsum.toSized (by norm_num) (hfit _ (by simp)), ok_bind,
      max_of_lt hsum.toHasLayout hsum.maxValue_lt, ok_bind, pure_eq_ok]

/-- **A row of equal bounds below `2 ^ 63`** holds what it merged. -/
theorem MadeRow.holds (hhigh : x.hist.highestTrackableValue.toNat < 2 ^ 63) {time : DateTime}
    {name : String} {elapsed : UInt64} {picked : List (Option HistRecord)} {row : Row}
    (h : MadeRow fl time name elapsed picked row) (hpicked : picked.filterMap id = x :: xs) :
    row.Holds fl := by
  have hmerged : row.merged = x :: xs := by rw [Row.merged, h.picked_eq, hpicked]
  have hloads := h.loads
  rw [hmerged, loadAll_ok hw fun y hy => (hsame y hy).boundsOk.2 hb, Except.ok.injEq] at hloads
  have hmerges := h.merges
  rw [← hloads, (mergeSnapshots_below hb hw hsame hhigh).1, Except.ok.injEq] at hmerges
  refine ⟨by rw [hmerged, hloads], h.merges, fun y hy => ?_, ?_⟩
  · rw [hmerged, List.head?_cons, Option.mem_some_iff] at hy
    rw [← hmerges, hmerged, ← hy]
    exact counts_merge hb hw hsame
  · rw [← hmerges, hmerged]
    exact totalCount_merge fl x (x :: xs)

end

end Chist
