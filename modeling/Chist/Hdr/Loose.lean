import Chist.Hdr.Quantile

/-!
# Merging any number of counts

`Receives fl x ps h`: `h` is the empty histogram of `new_from`, for one loaded from `x`, after the
entries `ps` (a slot and the samples added to it) were merged into it. `add` of a histogram loaded
from `y` returns exactly when its maximum is not past the last slot (`Admits`) and every count it
looks at has its place (`Places`), and then adds the entries `placed` (`add_okWhen`); the quantile
`q` of the result can be read when `Reads` holds (`valueAtQuantile_okWhen`).
-/

set_option autoImplicit false

namespace Chist.Hdr

open Res

namespace HistogramSnapshot

variable (fl : Floats) (x y : HistogramSnapshot)

/-- The histogram of `x` has a last slot, and the maximum of `y` is not past it. -/
structure Admits : Prop where
  counts_ne : x.countList ≠ []
  last : (x.layout fl).Addressable (x.countList.length - 1)
  room : (y.layout fl).topValue (y.top fl) ≤
    (x.layout fl).highest ((x.layout fl).takenFor (x.countList.length - 1))

/-- The bounds of `x` and `y` call for the same buckets. -/
def SameBuckets : Prop :=
  bucketsFor (x.layout fl) x.highestTrackableValue.toNat =
      bucketsFor (y.layout fl) y.highestTrackableValue.toNat ∧
    x.layout fl = y.layout fl

instance : Decidable (x.SameBuckets fl y) := inferInstanceAs (Decidable (_ ∧ _))

/-- The counts of `y` that `add` looks at have their place: all of them by their index if the
buckets are the same, else those up to its maximum, of which there has to be one. -/
def Places : Prop :=
  if x.SameBuckets fl y then ∀ i ∈ Slots.occupied y.countList, i < x.countList.length
  else y.countList ≠ []

/-- The slots of `x` the counts of `y` are added to, with these counts. -/
def placed : List (Nat × Nat) :=
  if x.SameBuckets fl y then
    (List.range y.countList.length).map fun i => (i, y.countList.getD i 0)
  else
    (y.top fl :: List.range (y.top fl)).map fun i =>
      ((x.layout fl).slot ((y.layout fl).low i), y.countList.getD i 0)

/-- The slots of the histogram that `ys` merge into. -/
def mergeSlots (ys : List HistogramSnapshot) : List Nat :=
  CapSum.tally u64Max x.countList.length (ys.flatMap (x.placed fl))

def mergeTotal (ys : List HistogramSnapshot) : Nat :=
  min ((ys.flatMap (x.placed fl)).map Prod.snd).sum u64Max

/-- The running total of the slots fits until it reaches the count of quantile `q`, and the loader
does not panic for the index where it does. -/
structure Reads (ys : List HistogramSnapshot) (q : Rat) : Prop where
  fits : ScanFits (max 1 (fl.ceilMul q (x.mergeTotal fl ys))) 0 (x.mergeSlots fl ys)
  reached : ∀ i ∈ Slots.reach (max 1 (fl.ceilMul q (x.mergeTotal fl ys))) 0 (x.mergeSlots fl ys),
    (x.layout fl).Addressable i

end HistogramSnapshot

/-- `h` is empty but for the entries `ps`. -/
structure Receives (fl : Floats) (x : HistogramSnapshot) (ps : List (Nat × Nat)) (h : Histogram) :
    Prop where
  layout : HasLayout h (x.layout fl)
  autoResize : h.autoResize = false
  bucketCount : h.bucketCount = bucketsFor (x.layout fl) x.highestTrackableValue.toNat
  maxValue_lt : h.maxValue < 2 ^ 64
  minNonZeroValue_lt : h.minNonZeroValue < 2 ^ 64
  counts : h.counts = CapSum.tally u64Max x.countList.length ps
  totalCount : h.totalCount = min (ps.map Prod.snd).sum u64Max

variable {ε : Type} {fl : Floats} {x y : HistogramSnapshot} {h : Histogram}
  {ps : List (Nat × Nat)}

theorem looselyLoaded_hasLayout (hb : y.BoundsOk fl) :
    HasLayout (y.looselyLoaded fl) (y.layout fl) := (fresh_hasLayout hb).stats _ _ _ _

theorem low_top_lt (y : HistogramSnapshot) : (y.layout fl).low (y.top fl) < 2 ^ 64 :=
  (y.layout fl).low_takenFor_lt _

theorem looselyLoaded_max (hb : y.BoundsOk fl) :
    (y.looselyLoaded fl).max (ε := ε) = .ok ((y.layout fl).topValue (y.top fl)) :=
  max_eq (looselyLoaded_hasLayout hb) (low_top_lt y) rfl

theorem newFrom_receives (hb : x.BoundsOk fl) :
    ∃ h, Histogram.newFrom (ε := ε) fl (x.looselyLoaded fl) = .ok h ∧ Receives fl x [] h := by
  have hnew : Histogram.newWithBounds fl (x.looselyLoaded fl).lowestDiscernibleValue
      (x.looselyLoaded fl).highestTrackableValue (x.looselyLoaded fl).significantValueDigits =
        .ok _ :=
    newWithBounds_ok hb x.highestTrackableValue.toNat_lt
  unfold Histogram.newFrom
  rw [hnew, expect_ok, ok_bind, pure_eq_ok]
  refine ⟨_, rfl, (fresh_hasLayout hb).stats _ _ _ _, rfl, rfl, (by decide : originalMax < 2 ^ 64),
    (by decide : originalMin < 2 ^ 64), ?_, rfl⟩
  rw [CapSum.tally_nil]
  exact resizeCounts_replicate _ _

section
variable (hr : Receives fl x ps h)
include hr

theorem Receives.concat_zero (i : Nat) : Receives fl x (ps ++ [(i, 0)]) h where
  layout := hr.layout
  autoResize := hr.autoResize
  bucketCount := hr.bucketCount
  maxValue_lt := hr.maxValue_lt
  minNonZeroValue_lt := hr.minNonZeroValue_lt
  counts := by rw [CapSum.tally_concat_zero, hr.counts]
  totalCount := by rw [List.map_append, List.sum_append, hr.totalCount]; rfl

theorem Receives.length : h.counts.length = x.countList.length := by
  rw [hr.counts, CapSum.length_tally]

theorem Receives.updateMax {v : Nat} (hv : v < 2 ^ 64) : Receives fl x ps (h.updateMax v) := by
  have hmask := or_mask_lt hr.layout hv
  rw [updateMax_eq]
  exact ⟨hr.layout.stats _ _ _ _, hr.autoResize, hr.bucketCount, max_lt hr.maxValue_lt hmask,
    hr.minNonZeroValue_lt, hr.counts, hr.totalCount⟩

theorem Receives.updateMin (v : Nat) : Receives fl x ps (h.updateMin v) := by
  rw [updateMin_eq]
  refine ⟨hr.layout.stats _ _ _ _, hr.autoResize, hr.bucketCount, hr.maxValue_lt, ?_, hr.counts,
    hr.totalCount⟩
  have hmin := hr.minNonZeroValue_lt
  change (if _ then _ else _) < _
  split
  · exact hmin
  · exact (min_le_left _ _).trans_lt hmin

theorem makeRoom_okWhen (hb : y.BoundsOk fl) :
    OkWhen (h.makeRoom (y.looselyLoaded fl)) (x.Admits fl y) (· = h) := by
  unfold Histogram.makeRoom Histogram.lastIndex Histogram.distinctValues
  rw [hr.length]
  by_cases hne : x.countList = []
  · rw [if_pos (by rw [hne]; rfl)]
    exact .of_error (fun h => h.counts_ne hne) rfl
  rw [if_neg fun h0 => hne (List.length_eq_zero_iff.1 h0), ok_bind]
  refine OkWhen.congr ((valueFor_okWhen hr.layout _).bind fun v _ hv => ?_)
    ⟨fun h => ⟨hne, h.1, h.2⟩, fun h => ⟨h.last, h.room⟩⟩
  rw [hv, highestEquivalent_wrapped hr.layout, ok_bind, looselyLoaded_max hb, ok_bind]
  by_cases hroom : (y.layout fl).topValue (y.top fl) ≤
      (x.layout fl).highest ((x.layout fl).takenFor (x.countList.length - 1))
  · rw [if_pos hroom]
    exact .of_eq hroom rfl rfl
  · rw [if_neg hroom, if_pos (by simp [hr.autoResize])]
    exact .of_error hroom rfl

end

/-! ## Slot by slot -/

/-- The slots and the total observed, after the entries `done`. -/
def Observed (n : Nat) (ps done : List (Nat × Nat)) (acc : List Nat × Nat) : Prop :=
  acc.1 = CapSum.tally u64Max n (ps ++ done) ∧ acc.2 = min (done.map Prod.snd).sum u64Max

theorem addSlot_okWhen {n : Nat} {done : List (Nat × Nat)} {acc : List Nat × Nat}
    (h : Observed n ps done acc) (i c : Nat) :
    OkWhen (Histogram.addSlot (ε := ε) acc (c, i)) (c ≠ 0 → i < n)
      (Observed n ps (done ++ [(i, c)])) := by
  obtain ⟨h1, h2⟩ := h
  unfold Histogram.addSlot Observed
  rw [← List.append_assoc, List.map_append, List.sum_append]
  simp only [List.map_cons, List.map_nil, List.sum_singleton]
  by_cases hc : c = 0
  · subst hc
    rw [if_neg (not_not.2 rfl)]
    exact .of_eq (absurd rfl) rfl ⟨by rw [h1, CapSum.tally_concat_zero], h2⟩
  rw [if_pos hc]
  by_cases hi : i < n
  · obtain ⟨d, hd⟩ : ∃ d, acc.1[i]? = some d :=
      ⟨_, List.getElem?_eq_getElem (by rwa [h1, CapSum.length_tally])⟩
    rw [index_ok hd, ok_bind]
    refine .of_eq (fun _ => hi) rfl ⟨?_, ?_⟩
    · rw [CapSum.tally_concat, ← h1, List.modify_eq_set_getElem?, hd]
      rfl
    · rw [h2]
      unfold satAdd64
      omega
  · have hd : acc.1[i]? = none := List.getElem?_eq_none (by rw [h1, CapSum.length_tally]; omega)
    refine .of_error (fun h => hi (h hc)) (e := .panic .indexOutOfBounds) ?_
    rw [index, hd]
    rfl

section
variable (hr : Receives fl x ps h) (hb : y.BoundsOk fl)
include hr hb

theorem addDirect_okWhen : OkWhen (h.addDirect (ε := ε) (y.looselyLoaded fl))
    (∀ i ∈ Slots.occupied y.countList, i < x.countList.length)
    (Receives fl x (ps ++ (List.range y.countList.length).map fun i =>
      (i, y.countList.getD i 0))) := by
  have hl := looselyLoaded_hasLayout hb
  have hstart : Observed x.countList.length ps [] (h.counts, 0) :=
    ⟨by rw [hr.counts, List.append_nil], rfl⟩
  have hfold : OkWhen ((List.range y.countList.length).foldlM
      (fun acc i => Histogram.addSlot (ε := ε) acc (y.countList.getD i 0, i)) (h.counts, 0))
      (∀ i ∈ List.range y.countList.length, y.countList.getD i 0 ≠ 0 → i < x.countList.length)
      (Observed x.countList.length ps ([] ++ (List.range y.countList.length).flatMap fun i =>
        [(i, y.countList.getD i 0)])) :=
    .foldlM (Observed x.countList.length ps)
      (fun i _ done acc hacc => addSlot_okWhen hacc i (y.countList.getD i 0)) hstart
  have hocc : (∀ i ∈ List.range y.countList.length, y.countList.getD i 0 ≠ 0 →
      i < x.countList.length) ↔ ∀ i ∈ Slots.occupied y.countList, i < x.countList.length := by
    simp only [Slots.occupied, List.mem_filter, decide_eq_true_eq, and_imp]
  unfold Histogram.addDirect
  change OkWhen (y.countList.zipIdx.foldlM _ _ >>= _) _ _
  rw [Slots.zipIdx_eq_map, List.foldlM_map]
  refine (hfold.congr hocc).bind_ok fun acc _ hacc => ?_
  rw [List.nil_append, ← List.map_eq_flatMap] at hacc
  -- the slots, then the maximum, then the minimum
  have h1 : Receives fl x (ps ++ (List.range y.countList.length).map fun i =>
      (i, y.countList.getD i 0))
      { h with counts := acc.1, totalCount := satAdd64 h.totalCount acc.2 } := by
    refine ⟨hr.layout.stats _ _ _ _, hr.autoResize, hr.bucketCount, hr.maxValue_lt,
      hr.minNonZeroValue_lt, hacc.1, ?_⟩
    change satAdd64 h.totalCount acc.2 = _
    rw [hacc.2, hr.totalCount, List.map_append, List.sum_append]
    unfold satAdd64
    omega
  generalize ({ h with counts := acc.1, totalCount := satAdd64 h.totalCount acc.2 } : Histogram) =
    g at h1
  have h2 : Receives fl x _ (if maxOf (x.layout fl) g.maxValue <
      (y.layout fl).topValue (y.top fl) then g.updateMax ((y.layout fl).topValue (y.top fl))
      else g) :=
    iteInduction (fun _ => h1.updateMax (topValue_lt hl.base_le (low_top_lt y))) fun _ => h1
  rw [looselyLoaded_max hb, ok_bind, max_of_lt h1.layout h1.maxValue_lt, ok_bind,
    minNz_of_lt hl (looseMin_lt _ _), ok_bind, minNz_of_lt h2.layout h2.minNonZeroValue_lt,
    ok_bind, pure_eq_ok]
  exact ⟨_, rfl, iteInduction (fun _ => h2.updateMin _) fun _ => h2⟩

end

/-! ## Value by value -/

theorem Receives.recordN (hr : Receives fl x ps h) {v : Nat} (hv : v < 2 ^ 64)
    (hi : (x.layout fl).slot v < x.countList.length) (c : Nat) :
    ∃ g, h.recordN v c = .ok g ∧ Receives fl x (ps ++ [((x.layout fl).slot v, c)]) g := by
  refine ⟨_, recordN_eq hr.layout hv (by rwa [hr.length]) c, hr.layout.stats _ _ _ _,
    hr.autoResize, hr.bucketCount, recordedMax_lt hr.layout hr.maxValue_lt hv,
    (recordedMin_le h v).trans_lt hr.minNonZeroValue_lt, ?_, ?_⟩
  · rw [CapSum.tally_concat, ← hr.counts]
    rfl
  · change satAdd64 h.totalCount c = _
    rw [hr.totalCount, List.map_append, List.sum_append]
    simp only [satAdd64, List.map_cons, List.map_nil, List.sum_singleton]
    omega

section
variable (ha : x.Admits fl y) (hbx : x.BoundsOk fl) (hb : y.BoundsOk fl)
include ha hbx hb

/-- The slots of `y` up to that of its maximum have their place in `x`. -/
theorem slot_low_lt_of_admits {i : Nat} (hi : i ≤ y.top fl) :
    (y.layout fl).low i < 2 ^ 64 ∧
      (x.layout fl).slot ((y.layout fl).low i) < x.countList.length := by
  have hlow : (y.layout fl).low i ≤ (y.layout fl).low (y.top fl) :=
    (y.layout fl).low_strictMono.monotone hi
  have hslot_top := slot_topValue (looselyLoaded_hasLayout hb).base_le (low_top_lt y)
  have htop : (y.layout fl).low (y.top fl) ≤ (y.layout fl).topValue (y.top fl) :=
    ((y.layout fl).slot_eq_iff.1 hslot_top).1
  have hslot := (x.layout fl).slot_mono (hlow.trans (htop.trans ha.room))
  have hle := (x.layout fl).takenFor_le (x.countList.length - 1)
  have hpos := List.length_pos_of_ne_nil ha.counts_ne
  rw [slot_highest (looselyLoaded_hasLayout hbx).base_le ((x.layout fl).low_takenFor_lt _)] at hslot
  exact ⟨hlow.trans_lt (low_top_lt y), by omega⟩

theorem addByValue_okWhen (hr : Receives fl x ps h) :
    OkWhen (h.addByValue (ε := ε) (y.looselyLoaded fl)) (y.countList ≠ [])
      (Receives fl x (ps ++ (y.top fl :: List.range (y.top fl)).map fun i =>
        ((x.layout fl).slot ((y.layout fl).low i), y.countList.getD i 0))) := by
  have hl := looselyLoaded_hasLayout hb
  unfold Histogram.addByValue
  rw [looselyLoaded_max hb, ok_bind, indexFor_eq hl (topValue_lt hl.base_le (low_top_lt y)),
    ok_bind, slot_topValue hl.base_le (low_top_lt y), expectSome_some, ok_bind]
  by_cases hne : y.countList = []
  · have hcount : (y.looselyLoaded fl).countAtIndex (y.top fl) = none :=
      (congrArg (·[y.top fl]?) hne).trans rfl
    rw [hcount]
    exact .of_error (not_not.2 hne) rfl
  -- the index of the maximum and those before it have counts
  have htop : y.top fl < y.countList.length :=
    ((y.layout fl).takenFor_le _).trans_lt (Slots.last_lt_length (List.length_pos_of_ne_nil hne))
  have hcount : ∀ i ≤ y.top fl,
      (y.looselyLoaded fl).countAtIndex i = some (y.countList.getD i 0) := by
    intro i hi
    rw [List.getD_eq_getElem _ _ (hi.trans_lt htop)]
    exact List.getElem?_eq_getElem (hi.trans_lt htop)
  have hstep : ∀ i ∈ List.range (y.top fl), ∀ done g, Receives fl x (ps ++ done) g →
      OkWhen (Histogram.addValue (ε := ε) (y.looselyLoaded fl) g i) True
        (Receives fl x (ps ++ (done ++
          [((x.layout fl).slot ((y.layout fl).low i), y.countList.getD i 0)]))) := by
    intro i hi done g hg
    have hi := Nat.le_of_lt (List.mem_range.1 hi)
    obtain ⟨hi64, hslot⟩ := slot_low_lt_of_admits ha hbx hb hi
    unfold Histogram.addValue
    rw [hcount i hi, expectSome_some, ok_bind, ← List.append_assoc]
    split
    · obtain ⟨g', hrec, hg'⟩ := hg.recordN hi64 hslot (y.countList.getD i 0)
      rw [valueFor_eq hl hi64, ok_bind, hrec, expect_ok]
      exact .of_eq trivial rfl hg'
    · rename_i h0
      refine .of_eq trivial rfl ?_
      rw [not_not.1 h0]
      exact hg.concat_zero _
  obtain ⟨hi64, hslot⟩ := slot_low_lt_of_admits ha hbx hb (Nat.le_refl _)
  obtain ⟨g, hrec, hg⟩ := hr.recordN hi64 hslot (y.countList.getD (y.top fl) 0)
  rw [hcount _ (Nat.le_refl _), expectSome_some, ok_bind, valueFor_eq hl hi64, ok_bind, hrec,
    expect_ok, ok_bind]
  have hfold := OkWhen.foldlM (fun done => Receives fl x (ps ++ done)) hstep hg
  rw [← List.map_eq_flatMap] at hfold
  exact hfold.congr (iff_of_true (fun _ _ => trivial) hne)

end

/-! ## Either way -/

theorem sameConfig_iff_sameBuckets (hb : y.BoundsOk fl) (hr : Receives fl x ps h) :
    h.sameConfig (y.looselyLoaded fl) = true ↔ x.SameBuckets fl y := by
  have hl := looselyLoaded_hasLayout hb
  unfold Histogram.sameConfig
  rw [decide_eq_true_iff, hr.layout.subBucketCount, hl.subBucketCount, hr.layout.unitMagnitude,
    hl.unitMagnitude, hr.bucketCount]
  refine and_congr_right fun _ => ⟨fun h => layout_eq_of_fields h.1 h.2, fun h => ?_⟩
  rw [h]
  exact ⟨rfl, rfl⟩

/-- **`add`** of a histogram loaded from any snapshot. -/
theorem add_okWhen (hbx : x.BoundsOk fl) (hb : y.BoundsOk fl) (hr : Receives fl x ps h) :
    OkWhen (h.add (y.looselyLoaded fl)) (x.Admits fl y ∧ x.Places fl y)
      (Receives fl x (ps ++ x.placed fl y)) := by
  unfold Histogram.add
  refine (makeRoom_okWhen hr hb).bind fun g ha hg => ?_
  subst hg
  unfold HistogramSnapshot.Places HistogramSnapshot.placed
  by_cases hc : x.SameBuckets fl y
  · rw [if_pos ((sameConfig_iff_sameBuckets hb hr).2 hc), if_pos hc, if_pos hc]
    exact addDirect_okWhen hr hb
  · rw [if_neg fun h => hc ((sameConfig_iff_sameBuckets hb hr).1 h), if_neg hc, if_neg hc]
    exact addByValue_okWhen ha hbx hb hr

/-! ## Quantiles -/

theorem countAtQuantile_of_le {q : Rat} (hq : q ≤ 1) (n : Nat) :
    Histogram.countAtQuantile fl q n = max 1 (fl.ceilMul q n) := by
  unfold Histogram.countAtQuantile
  simp only [if_neg (not_lt.2 hq)]
  split <;> omega

/-- **`value_at_quantile`** of any counts. -/
theorem valueAtQuantile_okWhen {ys : List HistogramSnapshot}
    (hr : Receives fl x (ys.flatMap (x.placed fl)) h) {q : Rat} (h0 : q ≠ 0) (h1 : q ≤ 1) :
    OkWhen (h.valueAtQuantile (ε := ε) fl q) (x.Reads fl ys q) fun _ => True := by
  have hcounts : h.counts = x.mergeSlots fl ys := hr.counts
  have htarget : Histogram.countAtQuantile fl q h.totalCount =
      max 1 (fl.ceilMul q (x.mergeTotal fl ys)) := by
    rw [countAtQuantile_of_le h1, hr.totalCount, HistogramSnapshot.mergeTotal]
  by_cases hfit : ScanFits (max 1 (fl.ceilMul q (x.mergeTotal fl ys))) 0 (x.mergeSlots fl ys)
  · unfold Histogram.valueAtQuantile
    rw [htarget, hcounts, (quantileIndex_eq _ 0 (by omega)).1 hfit, ok_bind]
    cases hi : Slots.reach (max 1 (fl.ceilMul q (x.mergeTotal fl ys))) 0 (x.mergeSlots fl ys) with
    | none => exact .of_eq ⟨hfit, by simp [hi]⟩ rfl trivial
    | some i =>
      have hreads : (x.layout fl).Addressable i ↔ x.Reads fl ys q :=
        ⟨fun h => ⟨hfit, by simpa [hi] using h⟩, fun h => h.reached i hi⟩
      simp only [Option.map_some, Nat.zero_add, if_neg h0]
      refine OkWhen.congr ((valueFor_okWhen hr.layout i).bind_ok fun v _ hv => ?_) hreads
      rw [hv, highestEquivalent_wrapped hr.layout]
      exact ⟨_, rfl, trivial⟩
  · refine .of_error (fun h => hfit h.fits) (valueAtQuantile_panic ?_)
    rwa [htarget, hcounts]

end Chist.Hdr
