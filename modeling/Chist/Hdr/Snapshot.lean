import Chist.Hdr.Load

/-!
# Snapshots

`new_from_snapshot` on any snapshot. With accepted bounds and one count a slot it returns
`loadedOf`, which satisfies `Loaded` (`newFromSnapshot_ok`); with rejected bounds it returns the
`Err` of `new_with_bounds`; with any other number of counts it is not an `Err`
(`newFromSnapshot_noErr`): the number is not checked, and it returns exactly when it can tell the
values of the last and the first occupied index (`newFromSnapshot_okWhen`).
-/

set_option autoImplicit false

namespace Chist.Hdr

open Res

/-- A histogram as a well-sized snapshot loads: the statistics are those of the counts. -/
structure Loaded (h : Histogram) (L : LogLinear) : Prop extends Sized h L where
  autoResize : h.autoResize = false
  maxValue : h.maxValue = L.topValue (Slots.last h.counts)
  minNonZeroValue : h.minNonZeroValue = minValue L (Slots.firstNonzero h.counts)
  totalCount : h.totalCount = min h.counts.sum u64Max
  counts_lt : ∀ c ∈ h.counts, c < 2 ^ 64

/-- What a snapshot loads as. -/
def loadedOf (fl : Floats) (low high sigfig : Nat) (counts : List Nat) : Histogram :=
  let L := layoutOf fl low sigfig
  { fresh fl low high sigfig with
    maxValue := L.topValue (Slots.last counts)
    minNonZeroValue := minValue L (Slots.firstNonzero counts)
    totalCount := min counts.sum u64Max
    counts }

namespace HistogramSnapshot

variable (fl : Floats) (s : HistogramSnapshot)

def BoundsOk : Prop :=
  Hdr.BoundsOk fl s.lowestTrackableValue.toNat s.highestTrackableValue.toNat
    s.significantFigures.toNat

instance : Decidable (s.BoundsOk fl) := inferInstanceAs (Decidable (Hdr.BoundsOk ..))

def layout : LogLinear := layoutOf fl s.lowestTrackableValue.toNat s.significantFigures.toNat

/-- The number of counts the bounds of `s` call for. -/
def binsNeeded : Nat :=
  (s.layout fl).bins (bucketsFor (s.layout fl) s.highestTrackableValue.toNat)

/-- If the bounds of `s` are accepted, it has the counts they call for. -/
def WellSized : Prop := s.BoundsOk fl → s.counts.length = s.binsNeeded fl

instance : Decidable (s.WellSized fl) := inferInstanceAs (Decidable (_ → _))

def countList : List Nat := s.counts.map UInt64.toNat

/-- What `s` loads as if it is well sized. -/
def loaded : Histogram :=
  loadedOf fl s.lowestTrackableValue.toNat s.highestTrackableValue.toNat
    s.significantFigures.toNat s.countList

/-- The loader takes `s`: its bounds are accepted, and it does not panic for the last and the first
occupied index. -/
structure Loads : Prop where
  boundsOk : s.BoundsOk fl
  last : ∀ i ∈ (Slots.occupied s.countList).getLast?, (s.layout fl).Addressable i
  first : ∀ i ∈ Slots.firstNonzero s.countList, (s.layout fl).Addressable i

/-- The slot that the last occupied index of `s` is taken for. -/
def top : Nat := (s.layout fl).takenFor (Slots.last s.countList)

/-- What `s` loads as, whatever the number of its counts. -/
def looselyLoaded : Histogram :=
  { fresh fl s.lowestTrackableValue.toNat s.highestTrackableValue.toNat
      s.significantFigures.toNat with
    maxValue := (s.layout fl).topValue (s.top fl)
    minNonZeroValue := looseMin (s.layout fl) (Slots.firstNonzero s.countList)
    totalCount := min s.countList.sum u64Max
    counts := s.countList }

end HistogramSnapshot

variable {ε : Type} {fl : Floats} {s : HistogramSnapshot}

theorem countList_lt : ∀ c ∈ s.countList, c < 2 ^ 64 := by
  intro c hc
  obtain ⟨x, -, rfl⟩ := List.mem_map.1 hc
  exact x.toNat_lt

/-- `new_from_snapshot` starts from the fresh histogram of its bounds. -/
theorem newFromSnapshot_eq (hb : s.BoundsOk fl) : Histogram.newFromSnapshot fl s =
    Histogram.restat { fresh fl s.lowestTrackableValue.toNat s.highestTrackableValue.toNat
      s.significantFigures.toNat with counts := s.countList } s.countList.length := by
  unfold Histogram.newFromSnapshot
  rw [newWithBounds_ok hb s.highestTrackableValue.toNat_lt, ok_bind]
  rfl

theorem newFromSnapshot_err (hb : ¬ s.BoundsOk fl) : IsErr (Histogram.newFromSnapshot fl s) := by
  obtain ⟨e, he⟩ := newWithBounds_err hb
  exact ⟨e, by unfold Histogram.newFromSnapshot; rw [he, error_bind]⟩

/-- **`new_from_snapshot`** of any snapshot. -/
theorem newFromSnapshot_okWhen (fl : Floats) (s : HistogramSnapshot) :
    OkWhen (Histogram.newFromSnapshot fl s) (s.Loads fl) (· = s.looselyLoaded fl) := by
  by_cases hb : s.BoundsOk fl
  · have hh := fresh_hasLayout hb
    rw [newFromSnapshot_eq hb]
    exact (restat_okWhen (hh.stats _ _ _ _)).congr
      ⟨fun h => ⟨hb, h.1, h.2⟩, fun h => ⟨h.last, h.first⟩⟩
  · obtain ⟨e, he⟩ := newFromSnapshot_err hb
    exact .of_error (fun h => hb h.boundsOk) he

theorem loaded_sized (hb : s.BoundsOk fl) (hlen : s.counts.length = s.binsNeeded fl) :
    Sized (s.loaded fl) (s.layout fl) := by
  have h := fresh_sized hb s.highestTrackableValue.toNat_lt
  exact h.stats (((List.length_map _).trans hlen).trans h.length.symm) _ _ _

theorem loaded_loaded (hb : s.BoundsOk fl) (hlen : s.counts.length = s.binsNeeded fl) :
    Loaded (s.loaded fl) (s.layout fl) :=
  ⟨loaded_sized hb hlen, rfl, rfl, rfl, rfl, countList_lt⟩

/-- **A well-sized snapshot loads.** -/
theorem newFromSnapshot_ok (hb : s.BoundsOk fl) (hlen : s.counts.length = s.binsNeeded fl) :
    Histogram.newFromSnapshot fl s = .ok (s.loaded fl) := by
  have hs := loaded_sized hb hlen
  rw [newFromSnapshot_eq hb]
  refine restat_eq (L := s.layout fl) ((fresh_hasLayout hb).stats _ _ _ _) fun i hi => ?_
  exact hs.low_lt (Slots.lt_length_of_mem hi)

/-! ## Any number of counts -/

section
variable (h : Histogram)

theorem noErr_checkU (w x : Nat) : NoErr (checkU (ε := ε) w x) :=
  noErr_ite (noErr_ok _) (noErr_panic _)

theorem noErr_subU (x y : Nat) : NoErr (subU (ε := ε) x y) := noErr_ite (noErr_ok _) (noErr_panic _)

theorem noErr_shlU (w x s : Nat) : NoErr (shlU (ε := ε) w x s) :=
  noErr_ite (noErr_ok _) (noErr_panic _)

theorem noErr_shrU (w x s : Nat) : NoErr (shrU (ε := ε) w x s) :=
  noErr_ite (noErr_ok _) (noErr_panic _)

theorem noErr_bucketFor (v : Nat) : NoErr (h.bucketFor (ε := ε) v) := noErr_subU _ _

theorem noErr_subBucketFor (v b : Nat) : NoErr (h.subBucketFor (ε := ε) v b) :=
  (noErr_checkU _ _).bind fun _ => (noErr_shrU _ _ _).bind fun _ => noErr_ok _

theorem noErr_valueFromLoc (b s : Nat) : NoErr (h.valueFromLoc (ε := ε) b s) :=
  (noErr_checkU _ _).bind fun _ => noErr_shlU _ _ _

theorem noErr_valueFor (i : Nat) : NoErr (h.valueFor (ε := ε) i) :=
  (noErr_shrU _ _ _).bind fun _ => (noErr_expect _ _).bind fun _ =>
    (noErr_subU _ _).bind fun _ => (noErr_checkU _ _).bind fun _ =>
      noErr_ite ((noErr_subU _ _).bind fun _ => noErr_valueFromLoc h _ _) (noErr_valueFromLoc h _ _)

theorem noErr_highestEquivalent (v : Nat) : NoErr (h.highestEquivalent (ε := ε) v) := by
  have hlow : NoErr (h.lowestEquivalent (ε := ε) v) :=
    (noErr_bucketFor h v).bind fun _ => (noErr_subBucketFor h v _).bind fun _ =>
      noErr_valueFromLoc h _ _
  have hrange : NoErr (h.equivalentRange (ε := ε) v) :=
    (noErr_bucketFor h v).bind fun _ => (noErr_checkU _ _).bind fun _ => noErr_shlU _ _ _
  have hnext : NoErr (h.nextNonEquivalent (ε := ε) v) :=
    hlow.bind fun _ => hrange.bind fun _ => noErr_ok _
  exact noErr_ite (noErr_ok _) (hnext.bind fun _ => noErr_subU _ _)

theorem noErr_restat (n : Nat) : NoErr (h.restat (ε := ε) n) := by
  have hmax : ∀ (s : RestatState) (h : Histogram), NoErr (s.applyMax (ε := ε) h) := by
    intro s h
    unfold RestatState.applyMax
    split
    · exact (noErr_valueFor h _).bind fun _ =>
        (noErr_highestEquivalent h _).bind fun _ => noErr_ok _
    · exact noErr_ok _
  have hmin : ∀ (s : RestatState) (h : Histogram), NoErr (s.applyMin (ε := ε) h) := by
    intro s h
    unfold RestatState.applyMin
    split
    · exact (noErr_valueFor h _).bind fun _ => noErr_ok _
    · exact noErr_ok _
  exact (noErr_ite (noErr_ok _) (noErr_panic _)).bind fun _ =>
    (hmax _ _).bind fun _ => (hmin _ _).bind fun _ => noErr_ok _

end

/-- **Accepted bounds are never an `Err`**, whatever the number of counts. -/
theorem newFromSnapshot_noErr (hb : s.BoundsOk fl) :
    NoErr (Histogram.newFromSnapshot fl s) := by
  rw [newFromSnapshot_eq hb]
  exact noErr_restat _ _

/-! ## The loader and the representation invariant -/

/-- The representation invariant of a loaded histogram, in terms of its own functions: it has the
counts of its buckets, every value up to the highest trackable one has its index in the counts,
every index is that of a range of `u64` values, and there is a last index. -/
structure ReprInv (h : Histogram) : Prop where
  length : h.counts.length = (h.bucketCount + 1) * h.subBucketHalfCount
  indexFor : ∀ v ≤ h.highestTrackableValue, ∃ i < h.counts.length,
    h.indexFor (ε := Empty) v = .ok (some i)
  valueFor : ∀ i < h.counts.length, ∃ v w, h.valueFor (ε := Empty) i = .ok v ∧
    h.equivalentRange (ε := Empty) v = .ok w ∧ v + w ≤ 2 ^ 64
  lastIndex : ∃ i, h.lastIndex (ε := Empty) = .ok i

/-- The loader establishes the invariant, and rejects every snapshot that has another number of
counts than `new_with_bounds` allocates for its bounds. -/
structure LoaderSound (fl : Floats) (s : HistogramSnapshot) : Prop where
  establishes : ∀ h, Histogram.newFromSnapshot fl s = .ok h → ReprInv h
  rejects : ∀ h, Histogram.newWithBounds fl s.lowestTrackableValue.toNat
      s.highestTrackableValue.toNat s.significantFigures.toNat = .ok h →
    s.counts.length ≠ h.counts.length → IsErr (Histogram.newFromSnapshot fl s)

theorem loaded_reprInv (hb : s.BoundsOk fl) (hlen : s.counts.length = s.binsNeeded fl) :
    ReprInv (s.loaded fl) := by
  have hs := loaded_sized hb hlen
  refine ⟨?_, fun v hv => ?_, fun i hi => ?_, _, hs.lastIndex⟩
  · rw [hs.length, hs.subBucketHalfCount, LogLinear.bins]
  · have hv64 : v < 2 ^ 64 := Nat.lt_of_le_of_lt hv s.highestTrackableValue.toNat_lt
    refine ⟨_, ?_, indexFor_eq hs.toHasLayout hv64⟩
    rw [hs.length]
    exact slot_lt_bins hv
  · have hi64 := hs.low_lt hi
    refine ⟨_, _, valueFor_eq hs.toHasLayout hi64, equivalentRange_eq hs.toHasLayout hi64, ?_⟩
    rw [(s.layout fl).slot_low, ← (s.layout fl).low_succ]
    exact low_succ_le hs.base_le hi64

/-- **The loader is sound exactly when the bounds are rejected or the snapshot has the counts they
call for**: a snapshot with another number of counts is loaded all the same. -/
theorem loaderSound_iff_wellSized (fl : Floats) (s : HistogramSnapshot) :
    LoaderSound fl s ↔ s.WellSized fl := by
  refine ⟨?_, ?_⟩
  · intro h hb
    by_contra hlen
    have hnew := newWithBounds_ok hb s.highestTrackableValue.toNat_lt
    obtain ⟨e, he⟩ := h.rejects _ hnew fun h => hlen (h.trans List.length_replicate)
    exact newFromSnapshot_noErr hb e he
  · intro hlen
    refine ⟨fun h hok => ?_, fun h hok hne => ?_⟩
    · by_cases hb : s.BoundsOk fl
      · rw [newFromSnapshot_ok hb (hlen hb), Except.ok.injEq] at hok
        exact hok ▸ loaded_reprInv hb (hlen hb)
      · obtain ⟨e, he⟩ := newFromSnapshot_err hb
        rw [he] at hok
        cases hok
    · obtain ⟨hb, rfl⟩ := newWithBounds_eq_ok s.highestTrackableValue.toNat_lt hok
      exact absurd ((hlen hb).trans List.length_replicate.symm) hne

/-- A snapshot of three slots that has none is loaded. -/
theorem loaderSound_fails : ¬ LoaderSound .exact ⟨1, 2, 0, []⟩ := by
  intro h
  have hok : Histogram.newFromSnapshot .exact ⟨1, 2, 0, []⟩ =
      .ok (loadedOf .exact 1 2 0 []) := by decide +kernel
  have hlen := (h.establishes _ hok).length
  revert hlen
  decide +kernel

end Chist.Hdr
