import Chist.Hdr.Commute
import Chist.Hdr.Copy
import Chist.Hdr.Reading
import Chist.Hdr.Subtract
import Chist.Serialization.Accept

/-!
# The life of a histogram

`Built fl falls h`: `h` comes out of a sequence of calls, from a constructor, a well-sized snapshot
or a serialized histogram on; `falls` allows `subtract`. In every histogram built the statistics are
those of the counts (`Built.kept`, `Built.coherent`), so its read-outs are right
(`built_reads`), and none of its methods panics (`built_never_panics`). A histogram that `new` made
takes every sample (`new_records`).

Three ways to call the methods are left out, since they leave statistics behind that are not those
of the counts: `clear`, which keeps the maximum; recording a value 0 times, which takes it for a
maximum; and a `subtract` that runs out of samples, which keeps the total.
-/

set_option autoImplicit false

namespace Chist

open Res Hdr

variable {fl : Floats} {falls : Prop} {h g s : Histogram}

/-- The histograms that calls make. -/
inductive Built (fl : Floats) (falls : Prop) : Histogram → Prop
  | newWithBounds {low high : UInt64} {sigfig : UInt8} {h : Histogram}
    (hnew : Histogram.newWithBounds fl low.toNat high.toNat sigfig.toNat = .ok h) : Built fl falls h
  | newFromSnapshot {s : HistogramSnapshot} {h : Histogram} (hsize : s.WellSized fl)
    (hnew : Histogram.newFromSnapshot fl s = .ok h) : Built fl falls h
  | deserialize {zlib : Serialization.Zlib} {reader rest : List UInt8} {h : Histogram}
    (hread : Serialization.deserialize fl zlib reader = .ok (h, rest)) : Built fl falls h
  | newFrom {h g : Histogram} (hb : Built fl falls h)
    (hnew : Histogram.newFrom (ε := Empty) fl h = .ok g) : Built fl falls g
  | clone {h g : Histogram} (hb : Built fl falls h) (hclone : h.clone (ε := Empty) fl = .ok g) :
    Built fl falls g
  | cloneCorrect {h g : Histogram} (hb : Built fl falls h) (interval : UInt64)
    (hclone : h.cloneCorrect (ε := Empty) fl interval.toNat = .ok g) : Built fl falls g
  | auto {h : Histogram} (hb : Built fl falls h) (enabled : Bool) : Built fl falls (h.auto enabled)
  | reset {h : Histogram} (hb : Built fl falls h) : Built fl falls h.reset
  | recordN {h g : Histogram} (hb : Built fl falls h) (value count : UInt64)
    (hcount : 0 < count.toNat) (hok : h.recordN value.toNat count.toNat = .ok g) : Built fl falls g
  | saturatingRecordN {h g : Histogram} (hb : Built fl falls h) (value count : UInt64)
    (hcount : 0 < count.toNat)
    (hok : h.saturatingRecordN (ε := Empty) value.toNat count.toNat = .ok g) : Built fl falls g
  | recordNCorrect {h g : Histogram} (hb : Built fl falls h) (value count interval : UInt64)
    (hcount : 0 < count.toNat)
    (hleft : left (h.recordNCorrect value.toNat count.toNat interval.toNat) = some g) :
    Built fl falls g
  | add {h s g : Histogram} (hb : Built fl falls h) (hs : Built fl falls s)
    (hok : h.add s = .ok g) : Built fl falls g
  | addCorrect {h s g : Histogram} (hb : Built fl falls h) (hs : Built fl falls s)
    (interval : UInt64) (hleft : left (h.addCorrect s interval.toNat) = some g) : Built fl falls g
  | setTo {h s g : Histogram} (hb : Built fl falls h) (hs : Built fl falls s)
    (hleft : left (h.setTo s) = some g) : Built fl falls g
  | setToCorrected {h s g : Histogram} (hb : Built fl falls h) (hs : Built fl falls s)
    (interval : UInt64) (hleft : left (h.setToCorrected s interval.toNat) = some g) :
    Built fl falls g
  | subtract {h s g : Histogram} (hb : Built fl falls h) (hs : Built fl falls s) (hfalls : falls)
    (hok : h.subtract s = .ok g) : Built fl falls g

/-- What every call keeps; without `subtract`, the minimum is exact too. -/
def Sound (fl : Floats) (falls : Prop) (h : Histogram) : Prop :=
  Kept fl h ∧ (¬ falls → Coherent fl h)

theorem Hdr.Coherent.sound (hc : Coherent fl h) : Sound fl falls h := ⟨hc.toKept, fun _ => hc⟩

theorem Sound.gained {ps : List (Nat × Nat)} (hh : Sound fl falls h) (hg : Gained fl h ps g) :
    Sound fl falls g :=
  ⟨hg.kept, fun hf => hg.coherent (hh.2 hf)⟩

theorem Sound.summed (hh : Sound fl falls h) (hs : Sound fl falls s) (hg : Summed fl h s g) :
    Sound fl falls g :=
  ⟨hg.kept, fun hf => hg.coherent (hh.2 hf) (hs.2 hf)⟩

theorem Sound.recordN (hh : Sound fl falls h) (value count : UInt64) (hcount : 0 < count.toNat)
    (hok : h.recordN value.toNat count.toNat = .ok g) : Sound fl falls g := by
  by_cases hfit : Fits fl h value.toNat
  · obtain ⟨g', hg', hgain⟩ := recordN_gained hh.1 value.toNat_lt hcount count.toNat_lt hfit
    exact Except.ok.inj (hg'.symm.trans hok) ▸ hh.gained hgain
  · rw [recordN_ite hh.1.toShaped value.toNat_lt count.toNat_lt, if_neg hfit] at hok
    cases hok

theorem Sound.recordNCorrect (hh : Sound fl falls h) (value count interval : UInt64)
    (hcount : 0 < count.toNat)
    (hleft : left (h.recordNCorrect value.toNat count.toNat interval.toNat) = some g) :
    Sound fl falls g := by
  by_cases hfit : Fits fl h value.toNat
  · obtain ⟨g', hg', hgain⟩ := recordNCorrect_gained hh.1 value.toNat_lt hcount count.toNat_lt
      interval.toNat hfit
    rw [hg'] at hleft
    exact Option.some.inj hleft ▸ hh.gained hgain
  · obtain ⟨hauto, hi⟩ := not_or.1 hfit
    rw [recordNCorrect_refuses value.toNat_lt hh.1.toShaped (by simpa using hauto)
      (Nat.le_of_not_lt hi)] at hleft
    exact Option.some.inj hleft ▸ hh

theorem Sound.add (hh : Sound fl falls h) (hs : Sound fl falls s) (hok : h.add s = .ok g) :
    Sound fl falls g := by
  by_cases hroom : h.autoResize = true ∨ addendMax fl s ≤ topOf fl h
  · obtain ⟨g', hg', hsum⟩ := add_summed hh.1 hs.1 hroom
    exact Except.ok.inj (hg'.symm.trans hok) ▸ hh.summed hs hsum
  · obtain ⟨hauto, hle⟩ := not_or.1 hroom
    rw [add_refuses hh.1 hs.1 (by simpa using hauto) (Nat.lt_of_not_le hle)] at hok
    cases hok

theorem Sound.addCorrect (hh : Sound fl falls h) (hs : Sound fl falls s) (interval : UInt64)
    (hleft : left (h.addCorrect s interval.toNat) = some g) : Sound fl falls g := by
  rcases addCorrect_outcomes hh.1 hs.1 interval.toNat with
    ⟨g', hg', -, hgain⟩ | ⟨b, post, g', -, hg', -, -, hgain⟩
  · rw [hg'] at hleft
    exact Option.some.inj hleft ▸ hh.gained hgain
  · rw [hg'] at hleft
    exact Option.some.inj hleft ▸ hh.gained hgain

theorem Sound.reset (hh : Sound fl falls h) : Sound fl falls h.reset :=
  (reset_coherent hh.1.toShaped).1.sound

theorem Sound.setTo (hh : Sound fl falls h) (hs : Sound fl falls s)
    (hleft : left (h.setTo s) = some g) : Sound fl falls g := by
  have houtcomes := setTo_outcomes hh.1 hs.1
  split at houtcomes
  · rw [houtcomes] at hleft
    exact Option.some.inj hleft ▸ hh.reset
  · obtain ⟨g', hg', hsum⟩ := houtcomes
    rw [hg'] at hleft
    exact Option.some.inj hleft ▸ hh.reset.summed hs hsum

/-- **What every call keeps.** -/
theorem Built.sound (hb : Built fl falls h) : Sound fl falls h := by
  induction hb with
  | @newWithBounds low high sigfig h hnew =>
    obtain ⟨hok, rfl⟩ := newWithBounds_eq_ok high.toNat_lt hnew
    exact (fresh_coherent hok high.toNat_lt).sound
  | newFromSnapshot hsize hnew => exact (newFromSnapshot_coherent hsize hnew).sound
  | @deserialize zlib reader rest h hread =>
    exact ((Serialization.deserialize_ends zlib reader).of_ok hread).1.coherent.sound
  | newFrom _ hnew ih =>
    obtain ⟨hok, hc, -⟩ := newFrom_emptied (ε := Empty) ih.1.toShaped
    exact Except.ok.inj (hok.symm.trans hnew) ▸ hc.sound
  | @clone h g _ hclone ih =>
    by_cases hfull : h.autoResize = false ∧ h.maxValue = u64Max
    · rw [clone_panics ih.1 hfull.1 hfull.2] at hclone
      cases hclone
    · obtain ⟨g', hg', hcopied⟩ := clone_copies (ε := Empty) ih.1 hfull
      exact Except.ok.inj (hg'.symm.trans hclone) ▸
        ⟨hcopied.kept, fun hf => hcopied.coherent (ih.2 hf)⟩
  | cloneCorrect _ interval hclone ih =>
    obtain ⟨g', hg', hc, -⟩ := cloneCorrect_gained (ε := Empty) ih.1 interval.toNat
    exact Except.ok.inj (hg'.symm.trans hclone) ▸ hc.sound
  | auto _ enabled ih => exact ⟨ih.1.auto enabled, fun hf => (ih.2 hf).auto enabled⟩
  | reset _ ih => exact ih.reset
  | recordN _ value count hcount hok ih => exact ih.recordN value count hcount hok
  | saturatingRecordN _ value count hcount hok ih =>
    obtain ⟨g', hg', hgain⟩ := saturatingRecordN_gained (ε := Empty) ih.1 value.toNat_lt hcount
    exact Except.ok.inj (hg'.symm.trans hok) ▸ ih.gained hgain
  | recordNCorrect _ value count interval hcount hleft ih =>
    exact ih.recordNCorrect value count interval hcount hleft
  | add _ _ hok ih ihs => exact ih.add ihs hok
  | addCorrect _ _ interval hleft ih ihs => exact ih.addCorrect ihs interval hleft
  | setTo _ _ hleft ih ihs => exact ih.setTo ihs hleft
  | setToCorrected _ _ interval hleft ih ihs => exact ih.reset.addCorrect ihs interval hleft
  | subtract _ _ hfalls hok ih ihs =>
    rcases subtract_outcomes ih.1 ihs.1 with ⟨-, he⟩ | ⟨-, -, left, he, -⟩ | ⟨-, -, g', hg', hsub⟩
    · rw [he] at hok
      cases hok
    · rw [he] at hok
      cases hok
    · exact Except.ok.inj (hg'.symm.trans hok) ▸ ⟨hsub.kept, fun hf => absurd hfalls hf⟩

theorem Built.sample : Built .exact falls Hdr.sample :=
  .newFromSnapshot (s := ⟨1, 15, 0, [1, 0, 2, 0, 3]⟩) (by decide +kernel) rfl

/-! ## What a histogram reports -/

/-- **The read-outs are right**: the total is the capped sum of the counts, the maximum lies in the
last occupied slot, no sample is below the minimum, which is exact without `subtract`, and
`count_between` finds all samples. -/
theorem built_reads (hb : Built fl falls h) :
    h.len = min h.counts.sum u64Max ∧
    (∃ m, h.max (ε := Empty) = .ok m ∧
      h.indexFor (ε := Empty) m = .ok (some (Slots.last h.counts))) ∧
    (∃ m i, h.min (ε := Empty) = .ok m ∧ h.indexFor (ε := Empty) m = .ok (some i) ∧
      (∀ j, h.counts.getD j 0 ≠ 0 → i ≤ j) ∧
      (¬ falls → h.len ≠ 0 → h.counts.getD i 0 ≠ 0)) ∧
    h.countBetween (ε := Empty) 0 u64Max = .ok h.len := by
  obtain ⟨hk, hcoherent⟩ := hb.sound
  refine ⟨hk.totalCount, ⟨_, hk.max, ?_⟩, ⟨minReported fl h, (h.layout fl).slot (minReported fl h),
    hk.min, indexFor_eq hk.toHasLayout (minReported_lt hk), fun j hj => slot_minReported_le hk hj,
    fun hf htotal => minReported_mem (hcoherent hf) htotal⟩, ?_⟩
  · rw [indexFor_eq hk.toHasLayout maxOf_lt, hk.slot_maxOf]
  · have hlast : slotOrLast fl h u64Max + 1 = h.counts.length := by
      have hpos := hk.length_pos
      have hle := hk.toSized.le_slot_u64Max (i := h.counts.length - 1) (by omega)
      unfold slotOrLast
      omega
    rw [countBetween_zero hk.toShaped (by decide), hlast, List.take_length, Histogram.len,
      hk.totalCount]

theorem built_reads_sample : ∃ m, Hdr.sample.max (ε := Empty) = .ok m ∧
    Hdr.sample.indexFor (ε := Empty) m = .ok (some 4) := by
  have hb : Built .exact False Hdr.sample := .sample
  exact (built_reads hb).2.1

/-! ## What calls do not do -/

/-- No method of `h`, with `s` for the other histogram, panics. -/
structure NeverPanics (fl : Floats) (h s : Histogram) : Prop where
  recordN (value count : UInt64) : ¬ IsPanic (h.recordN value.toNat count.toNat)
  saturatingRecordN (value count : UInt64) :
    ¬ IsPanic (h.saturatingRecordN (ε := Empty) value.toNat count.toNat)
  recordNCorrect (value count interval : UInt64) :
    ¬ IsPanic (h.recordNCorrect value.toNat count.toNat interval.toNat)
  add : ¬ IsPanic (h.add s)
  subtract : ¬ IsPanic (h.subtract s)
  addCorrect (interval : UInt64) : ¬ IsPanic (h.addCorrect s interval.toNat)
  setTo : ¬ IsPanic (h.setTo s)
  setToCorrected (interval : UInt64) : ¬ IsPanic (h.setToCorrected s interval.toNat)
  newFrom : ¬ IsPanic (Histogram.newFrom (ε := Empty) fl h)
  cloneCorrect (interval : UInt64) : ¬ IsPanic (h.cloneCorrect (ε := Empty) fl interval.toNat)
  min : ¬ IsPanic (h.min (ε := Empty))
  max : ¬ IsPanic (h.max (ε := Empty))
  minNz : ¬ IsPanic (h.minNz (ε := Empty))
  countAt (value : UInt64) : ¬ IsPanic (h.countAt (ε := Empty) value.toNat)
  countBetween (low high : UInt64) :
    ¬ IsPanic (h.countBetween (ε := Empty) low.toNat high.toNat)
  quantileBelow (value : UInt64) : ¬ IsPanic (h.quantileBelow (ε := Empty) value.toNat)
  iterRecorded : ¬ IsPanic (h.iterRecorded (ε := Empty))
  iterAll : ¬ IsPanic (h.iterAll (ε := Empty))
  serialize (uninit : Nat → UInt8) : ¬ IsPanic (Serialization.serialize h uninit)

theorem Hdr.Kept.addCorrect_noPanic (hk : Kept fl h) (hs : Kept fl s) (interval : Nat) :
    ¬ IsPanic (h.addCorrect s interval) := by
  rcases addCorrect_outcomes hk hs interval with ⟨g, hg, -⟩ | ⟨b, post, g, -, hg, -⟩
  · exact not_isPanic_ok hg
  · exact not_isPanic_err hg

theorem Hdr.Kept.add_noPanic (hk : Kept fl h) (hs : Kept fl s) : ¬ IsPanic (h.add s) := by
  by_cases hroom : h.autoResize = true ∨ addendMax fl s ≤ topOf fl h
  · obtain ⟨g, hg, -⟩ := add_summed hk hs hroom
    exact not_isPanic_ok hg
  · obtain ⟨hauto, hle⟩ := not_or.1 hroom
    exact not_isPanic_err (add_refuses hk hs (by simpa using hauto) (Nat.lt_of_not_le hle))

/-- **No method panics** on histograms that calls have made. `clone` and `value_at_quantile` do:
see `clone_outcomes` and `valueAtQuantile_outcomes`. -/
theorem built_never_panics {falls' : Prop} (hb : Built fl falls h) (hs : Built fl falls' s) :
    NeverPanics fl h s := by
  have hk := hb.sound.1
  have hks := hs.sound.1
  have hreset := (reset_coherent hk.toShaped).1.toKept
  refine {
    recordN := fun value count => ?_
    saturatingRecordN := fun value count =>
      not_isPanic_ok (saturatingRecordN_eq value.toNat_lt hk.toShaped count.toNat)
    recordNCorrect := fun value count interval => ?_
    add := hk.add_noPanic hks
    subtract := ?_
    addCorrect := fun interval => hk.addCorrect_noPanic hks interval.toNat
    setTo := ?_
    setToCorrected := fun interval => hreset.addCorrect_noPanic hks interval.toNat
    newFrom := not_isPanic_ok (newFrom_emptied hk.toShaped).1
    cloneCorrect := fun interval => ?_
    min := not_isPanic_ok hk.min
    max := not_isPanic_ok hk.max
    minNz := not_isPanic_ok hk.minNz
    countAt := fun value => not_isPanic_ok (countAt_eq hk.toShaped value.toNat_lt)
    countBetween := fun low high =>
      not_isPanic_ok (countBetween_eq hk.toShaped low.toNat_lt high.toNat_lt)
    quantileBelow := fun value => not_isPanic_ok (quantileBelow_eq hk.toShaped value.toNat_lt)
    iterRecorded := not_isPanic_ok ((forBins_recorded hk _ _).trans (foldlM_push _ _))
    iterAll := not_isPanic_ok (iterAll_eq hk)
    serialize := fun uninit => ?_ }
  · rw [recordN_ite hk.toShaped value.toNat_lt count.toNat_lt]
    split
    · exact not_isPanic_ok rfl
    · exact not_isPanic_err rfl
  · by_cases hfit : Fits fl h value.toNat
    · exact not_isPanic_ok
        (recordNCorrect_eq value.toNat_lt hk.toShaped count.toNat_lt interval.toNat hfit)
    · obtain ⟨hauto, hi⟩ := not_or.1 hfit
      exact not_isPanic_err (recordNCorrect_refuses value.toNat_lt hk.toShaped
        (by simpa using hauto) (Nat.le_of_not_lt hi) count.toNat interval.toNat)
  · rcases subtract_outcomes hk hks with ⟨-, he⟩ | ⟨-, -, left, he, -⟩ | ⟨-, -, g, hg, -⟩
    · exact not_isPanic_err he
    · exact not_isPanic_err he
    · exact not_isPanic_ok hg
  · have houtcomes := setTo_outcomes hk hks
    split at houtcomes
    · exact not_isPanic_err houtcomes
    · obtain ⟨g, hg, -⟩ := houtcomes
      exact not_isPanic_ok hg
  · obtain ⟨g, hg, -⟩ := cloneCorrect_gained (ε := Empty) hk interval.toNat
    exact not_isPanic_ok hg
  · rw [Serialization.serialize_eq hk]
    split
    · exact not_isPanic_ok rfl
    · exact not_isPanic_err rfl

theorem built_never_panics_sample : NeverPanics .exact Hdr.sample Hdr.sample := by
  have hb : Built .exact False Hdr.sample := .sample
  exact built_never_panics hb hb

/-- **When `subtract` does what**: for histograms that calls have made, each of its three results
has its exact condition. -/
theorem built_subtract {falls' : Prop} (hb : Built fl falls h) (hs : Built fl falls' s) :
    (h.subtract s = .error (.err (h, .subtrahendValueExceedsMinuendRange)) ↔ ¬ InRange fl h s) ∧
    ((∃ left, h.subtract s = .error (.err (left, .subtrahendCountExceedsMinuendCount)) ∧
        PartlySubtracted fl h s left) ↔
      InRange fl h s ∧
        ∃ j, h.counts.getD j 0 < movedTo (h.layout fl) (s.layout fl) s.counts j) ∧
    ((∃ g, h.subtract s = .ok g ∧ Subtracted fl h s g) ↔
      InRange fl h s ∧
        ∀ j, movedTo (h.layout fl) (s.layout fl) s.counts j ≤ h.counts.getD j 0) := by
  rcases subtract_outcomes hb.sound.1 hs.sound.1 with
    ⟨hno, he⟩ | ⟨hin, hshort, left, he, hleft⟩ | ⟨hin, hfit, g, hg, hsub⟩
  · refine ⟨iff_of_true he hno, iff_of_false ?_ fun hc => hno hc.1,
      iff_of_false ?_ fun hc => hno hc.1⟩
    · rintro ⟨left, he', -⟩
      cases he.symm.trans he'
    · rintro ⟨g, hg, -⟩
      cases he.symm.trans hg
  · obtain ⟨j, hj⟩ := hshort
    refine ⟨iff_of_false (fun he' => ?_) (not_not.2 hin),
      iff_of_true ⟨left, he, hleft⟩ ⟨hin, j, hj⟩,
      iff_of_false ?_ fun hc => Nat.not_le.2 hj (hc.2 j)⟩
    · cases he.symm.trans he'
    · rintro ⟨g, hg, -⟩
      cases he.symm.trans hg
  · refine ⟨iff_of_false (fun he' => ?_) (not_not.2 hin), iff_of_false ?_ ?_,
      iff_of_true ⟨g, hg, hsub⟩ ⟨hin, hfit⟩⟩
    · cases hg.symm.trans he'
    · rintro ⟨left, he', -⟩
      cases hg.symm.trans he'
    · rintro ⟨-, j, hj⟩
      exact Nat.not_le.2 hj (hfit j)

theorem built_subtract_sample : ∃ g, Hdr.sample.subtract Hdr.sample = .ok g ∧
    Subtracted .exact Hdr.sample Hdr.sample g := by
  have hb : Built .exact False Hdr.sample := .sample
  exact (built_subtract hb hb).2.2.2 ⟨by decide +kernel, fun j => (movedTo_self _ _ j).le⟩

/-! ## Auto-resizing histograms -/

theorem Hdr.Kept.recordAll (hk : Kept fl h) (hauto : h.autoResize = true) {ps : List (Nat × Nat)}
    (hps : ∀ p ∈ ps, p.1 < 2 ^ 64 ∧ 0 < p.2 ∧ p.2 < 2 ^ 64) :
    ∃ g, Hdr.recordAll h ps = .ok g ∧ Gained fl h ps g := by
  induction ps generalizing h with
  | nil => exact ⟨h, rfl, .refl hk⟩
  | cons p ps ih =>
    obtain ⟨⟨hv, hpos, hcount⟩, hrest⟩ := List.forall_mem_cons.1 hps
    obtain ⟨k, hrecord, hgain⟩ := recordN_gained hk hv hpos hcount (.inl hauto)
    obtain ⟨g, hall, hgains⟩ := ih hgain.kept (hgain.autoResize.trans hauto) hrest
    refine ⟨g, ?_, hgain.trans hgains⟩
    rw [Hdr.recordAll, List.foldlM_cons, hrecord, ok_bind]
    exact hall

/-- **A histogram made by `new`** takes every sample: with at most 5 significant digits it can be
made, and nothing recorded in it is refused. -/
theorem new_records {sigfig : Nat} (hsigfig : sigfig ≤ 5) {ps : List (Nat × Nat)}
    (hps : ∀ p ∈ ps, p.1 < 2 ^ 64 ∧ 0 < p.2 ∧ p.2 < 2 ^ 64) :
    ∃ h g, Histogram.new fl sigfig = .ok h ∧ recordAll h ps = .ok g ∧ Coherent fl g ∧
      g.totalCount = min (ps.map Prod.snd).sum u64Max ∧
      ∀ j, g.counts.getD j 0 = min (samplesIn (layoutOf fl 1 sigfig) ps j) u64Max := by
  have hbounds : BoundsOk fl 1 2 sigfig := by
    have hunit := fl.floorLog2_exact 1 (by decide) (by decide)
    obtain ⟨-, hle, -⟩ := ceilLog2_sigfig fl hsigfig
    refine ⟨by decide, by decide, by decide, hsigfig, ?_⟩
    rw [hunit]
    show 0 + _ ≤ 63
    omega
  have hc : Coherent fl ((fresh fl 1 2 sigfig).auto true) :=
    (fresh_coherent hbounds (by decide)).auto true
  obtain ⟨g, hall, hgain⟩ := hc.toKept.recordAll rfl hps
  refine ⟨_, g, ?_, hall, hgain.coherent hc, ?_, fun j => ?_⟩
  · rw [Histogram.new, newWithBounds_ok hbounds (by decide)]
    rfl
  · rw [hgain.totalCount]
    exact congrArg (min · u64Max) (Nat.zero_add _)
  · have hzero : ((fresh fl 1 2 sigfig).auto true).counts.getD j 0 = 0 := by
      simp only [Histogram.auto, fresh, List.getD_eq_getElem?_getD, List.getElem?_replicate]
      split <;> rfl
    rw [hgain.counts, hzero, satAdd64, Nat.zero_add]
    rfl

theorem new_records_sample : ∃ h g, Histogram.new .exact 3 = .ok h ∧
    recordAll h [(5, 1), (70000, 2), (2 ^ 64 - 1, 3)] = .ok g ∧ Coherent .exact g ∧
    g.totalCount = 6 ∧ ∀ j, g.counts.getD j 0 = min (samplesIn (layoutOf .exact 1 3)
      [(5, 1), (70000, 2), (2 ^ 64 - 1, 3)] j) u64Max :=
  new_records (by decide) (by decide)

end Chist
