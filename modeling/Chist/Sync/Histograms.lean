import Chist.Hdr.Copy
import Chist.Sync.Complete

/-!
# Refreshing histograms

The protocol with the histograms themselves (`histogramOps`). Recorders clone the configuration of
the merged histogram, so their histograms fit into it, and no `add` of a refresh fails; the content
of a histogram is its counts, as capped sums.

A fixed histogram whose range needs 64 bits is left out: once `u64::MAX` was recorded, its maximum
is past the top of an empty one of the same configuration, and the `add` of the refresh panics.
-/

set_option autoImplicit false

namespace Chist.Sync

open Res Hdr

variable {fl : Floats} {b h g s : Histogram}

/-! ## The methods of `Recorder` -/

/-- A call of a method of `Recorder` that records samples, with counts that are not 0. `subtract`
takes samples away. -/
inductive Write (fl : Floats)
  | recordN (value count : UInt64) (hcount : 0 < count.toNat)
  | saturatingRecordN (value count : UInt64) (hcount : 0 < count.toNat)
  | recordNCorrect (value count interval : UInt64) (hcount : 0 < count.toNat)
  | add (source : Histogram) (hsource : Coherent fl source)
  | addCorrect (source : Histogram) (interval : UInt64) (hsource : Kept fl source)

def Write.call (h : Histogram) : Write fl → Option Histogram
  | .recordN value count _ => left (leaving h (h.recordN value.toNat count.toNat))
  | .saturatingRecordN value count _ =>
    left (leaving h (h.saturatingRecordN (ε := Empty) value.toNat count.toNat))
  | .recordNCorrect value count interval _ =>
    left (h.recordNCorrect value.toNat count.toNat interval.toNat)
  | .add source _ => left (leaving h (h.add source))
  | .addCorrect source interval _ => left (h.addCorrect source interval.toNat)

/-- The protocol's operations on histograms. -/
def histogramOps (fl : Floats) : Ops Histogram (Write fl) where
  newFrom h := (Histogram.newFrom (ε := Empty) fl h).toOption
  write w h := w.call h
  add h source := (h.add source).toOption

/-! ## Samples -/

/-- The samples a method records. -/
def Write.samples (h : Histogram) : Write fl → List (Nat × Nat)
  | .recordN value count _ =>
    if h.autoResize = true ∨ (h.layout fl).slot value.toNat < h.counts.length then
      [(value.toNat, count.toNat)] else []
  | .saturatingRecordN value count _ => [(clamped fl h value.toNat, count.toNat)]
  | .recordNCorrect value count interval _ =>
    if h.autoResize = true ∨ (h.layout fl).slot value.toNat < h.counts.length then
      corrected value.toNat count.toNat interval.toNat else []
  | .add source _ =>
    if h.autoResize = true ∨ addendMax fl source ≤ topOf fl h then contents fl source else []
  | .addCorrect source interval _ =>
    (roomyBins fl h source).flatMap (correctedBin interval.toNat)

/-- **Every method** gains its samples, whatever it returns. -/
theorem Write.call_gained (hk : Kept fl h) (w : Write fl) :
    ∃ g, w.call h = some g ∧ Gained fl h (w.samples h) g := by
  have hrefused : ∀ {p : Prop}, ¬ (h.autoResize = true ∨ p) → h.autoResize = false ∧ ¬ p := by
    intro p hno
    rw [not_or, Bool.not_eq_true] at hno
    exact hno
  cases w with
  | recordN value count hcount =>
    simp only [Write.call, Write.samples]
    split
    · rename_i hroom
      obtain ⟨g, hg, hgain⟩ := recordN_gained hk value.toNat_lt hcount count.toNat_lt hroom
      exact ⟨g, by rw [hg]; rfl, hgain⟩
    · rename_i hroom
      obtain ⟨hauto, hi⟩ := hrefused hroom
      rw [recordN_refuses value.toNat_lt hk.toShaped hauto (Nat.le_of_not_lt hi)]
      exact ⟨h, rfl, .refl hk⟩
  | saturatingRecordN value count hcount =>
    obtain ⟨g, hg, hgain⟩ := saturatingRecordN_gained (ε := Empty) hk value.toNat_lt hcount
    exact ⟨g, by rw [Write.call, hg]; rfl, hgain⟩
  | recordNCorrect value count interval hcount =>
    simp only [Write.call, Write.samples]
    split
    · rename_i hroom
      obtain ⟨g, hg, hgain⟩ := recordNCorrect_gained hk value.toNat_lt hcount count.toNat_lt
        interval.toNat hroom
      exact ⟨g, by rw [hg]; rfl, hgain⟩
    · rename_i hroom
      obtain ⟨hauto, hi⟩ := hrefused hroom
      rw [recordNCorrect_refuses value.toNat_lt hk.toShaped hauto (Nat.le_of_not_lt hi)]
      exact ⟨h, rfl, .refl hk⟩
  | add source hsource =>
    simp only [Write.call, Write.samples]
    split
    · rename_i hroom
      obtain ⟨g, hg, hgain⟩ := add_gained hk hsource hroom
      exact ⟨g, by rw [hg]; rfl, hgain⟩
    · rename_i hroom
      obtain ⟨hauto, hi⟩ := hrefused hroom
      rw [add_refuses hk hsource.toKept hauto (Nat.lt_of_not_le hi)]
      exact ⟨h, rfl, .refl hk⟩
  | addCorrect source interval hsource =>
    simp only [Write.call, Write.samples]
    rcases addCorrect_outcomes hk hsource interval.toNat with
      ⟨g, hg, hroomy, hgain⟩ | ⟨bin, post, g, -, hg, -, -, hgain⟩
    · exact ⟨g, by rw [hg]; rfl, hroomy ▸ hgain⟩
    · exact ⟨g, by rw [hg]; rfl, hgain⟩

/-! ## Lawful histograms -/

/-- The counts by slot, as capped numbers. -/
def counts (h : Histogram) (j : Nat) : Capped u64Max := Capped.of u64Max (h.counts.getD j 0)

/-- The counts a method adds. -/
def added (w : Write fl) (h : Histogram) (j : Nat) : Capped u64Max :=
  Capped.of u64Max (samplesIn (h.layout fl) (w.samples h) j)

/-- `h` is coherent and of the configuration of `b`. -/
structure Alike (fl : Floats) (b h : Histogram) : Prop where
  coherent : Coherent fl h
  layout : h.layout fl = b.layout fl
  autoResize : h.autoResize = b.autoResize
  fixed : b.autoResize = false → h.counts.length = b.counts.length

/-- A histogram that resizes itself, or whose range needs no 64 bits. -/
def Refreshable (b : Histogram) : Prop := b.autoResize = true ∨ b.highestTrackableValue < 2 ^ 63

theorem counts_of_gained {ps : List (Nat × Nat)} (hg : Gained fl h ps g) : counts g =
    counts h + fun j => Capped.of u64Max (samplesIn (h.layout fl) ps j) := by
  funext j
  change Capped.of u64Max (g.counts.getD j 0) =
    Capped.of u64Max (h.counts.getD j 0) + Capped.of u64Max (samplesIn (h.layout fl) ps j)
  rw [← Capped.of_add, hg.counts]
  refine Subtype.ext ?_
  change min (min _ u64Max) u64Max = min _ u64Max
  rw [min_assoc, min_self]

theorem Alike.gained {ps : List (Nat × Nat)} (ha : Alike fl b h) (hg : Gained fl h ps g) :
    Alike fl b g where
  coherent := hg.coherent ha.coherent
  layout := hg.layout.trans ha.layout
  autoResize := hg.autoResize.trans ha.autoResize
  fixed hauto := (hg.fixed (ha.autoResize.trans hauto)).trans (ha.fixed hauto)

theorem counts_emptied (h : Histogram) : counts (emptied fl h) = 0 := by
  funext j
  rw [counts, getD_emptied]
  rfl

/-- Histograms of one fixed configuration fit into each other. -/
theorem addendMax_le (hh : Alike fl b h) (hs : Alike fl b s) (hb : Shaped fl b)
    (hauto : b.autoResize = false) (hhigh : b.highestTrackableValue < 2 ^ 63) :
    addendMax fl s ≤ topOf fl h := by
  have hlen : s.counts.length = h.counts.length := (hs.fixed hauto).trans (hh.fixed hauto).symm
  have hL : s.layout fl = h.layout fl := hs.layout.trans hh.layout.symm
  have hend : (h.layout fl).low h.counts.length < 2 ^ 64 := by
    rw [hh.layout, hh.fixed hauto, hb.length, hb.bucketCount]
    exact (low_bins_lt_iff hb.base_le hb.highest_lt).2 hhigh
  have hslot : (h.layout fl).slot s.maxValue < h.counts.length := by
    rw [← hL, hs.coherent.slot_maxValue, ← hlen]
    exact hs.coherent.last_lt
  have hne : s.maxValue ≠ u64Max := by
    intro he
    have hle := LogLinear.slot_lt_iff _ |>.1 hslot
    unfold u64Max at he
    omega
  exact addendMax_le_topOf hL hne hslot

example : ((fresh .exact 1 u64Max 0).recordN u64Max 1).toOption.map (fresh .exact 1 u64Max 0).add =
    some (.error (.err .otherAddendValueExceedsRange)) := by decide +kernel

theorem histograms_lawful (hb : Shaped fl b) (hr : Refreshable b) :
    Lawful (histogramOps fl) (Alike fl b) counts added where
  newFrom {h} hh := by
    obtain ⟨hnew, hc, hL, hlen⟩ := newFrom_emptied (ε := Empty) hh.coherent.toShaped
    refine ⟨emptied fl h, ?_, ⟨hc, hL.trans hh.layout, hh.autoResize, fun hauto =>
      hlen.trans (hh.fixed hauto)⟩, counts_emptied h⟩
    change Except.toOption (Histogram.newFrom (ε := Empty) fl h) = _
    rw [hnew]
    rfl
  write {h} hh w := by
    obtain ⟨g, hg, hgain⟩ := w.call_gained hh.coherent.toKept
    exact ⟨g, hg, hh.gained hgain, counts_of_gained hgain⟩
  add {h s} hh hs := by
    have hroom : h.autoResize = true ∨ addendMax fl s ≤ topOf fl h := by
      rcases Bool.eq_false_or_eq_true b.autoResize with hauto | hauto
      · exact .inl (hh.autoResize.trans hauto)
      · refine .inr (addendMax_le hh hs hb hauto (hr.resolve_left ?_))
        rw [hauto]
        exact Bool.false_ne_true
    obtain ⟨g, hg, hgain⟩ := add_gained hh.coherent.toKept hs.coherent hroom
    refine ⟨g, ?_, hh.gained hgain, ?_⟩
    · change Except.toOption (h.add s) = _
      rw [hg]
      rfl
    · rw [counts_of_gained hgain]
      funext j
      have hL : h.layout fl = s.layout fl := hh.layout.trans hs.layout.symm
      change counts h j + Capped.of u64Max (samplesIn (h.layout fl) (contents fl s) j) =
        counts h j + counts s j
      rw [samplesIn_contents, hL, movedTo_self]
      rfl

/-! ## Runs -/

/-- The samples an event writes. -/
def written (s : State Histogram) : Action (Write fl) → List (Nat × Nat)
  | .recorder i (.write w) => s.handles[i]?.elim [] fun r => w.samples r.loc
  | _ => []

/-- The samples written along a run. -/
def samples (s : State Histogram) : List (Action (Write fl)) → List (Nat × Nat)
  | [] => []
  | a :: actions =>
    written s a ++ (step (histogramOps fl) s a).elim [] fun s' => samples s' actions

/-- The count of slot `j` in all histograms of the state. -/
def State.countIn (s : State Histogram) (j : Nat) : Nat :=
  s.merged.counts.getD j 0 + (s.shared.channel.map fun x => x.counts.getD j 0).sum +
    (s.handles.map fun r => r.loc.counts.getD j 0).sum

theorem sum_apply {α : Type} (f : α → Nat → Capped u64Max) (l : List α) (j : Nat) :
    (l.map f).sum j = (l.map fun a => f a j).sum := by
  induction l with
  | nil => rfl
  | cons a l ih =>
    rw [List.map_cons, List.sum_cons, List.map_cons, List.sum_cons, ← ih]
    rfl

theorem total_counts (s : State Histogram) (j : Nat) :
    s.total counts j = Capped.of u64Max (s.countIn j) := by
  have hsum : ∀ {α : Type} (f : α → Histogram) (l : List α),
      (l.map fun a => counts (f a)).sum j =
        Capped.of u64Max (l.map fun a => (f a).counts.getD j 0).sum := by
    intro α f l
    rw [sum_apply, Capped.of_sum, List.map_map]
    rfl
  rw [State.countIn, Capped.of_add, Capped.of_add, ← hsum fun x => x, ← hsum Recorder.loc]
  rfl

theorem gains_eq (hb : Shaped fl b) (hr : Refreshable b) {s : State Histogram}
    (hs : s.Sound (Alike fl b)) {actions : List (Action (Write fl))} (j : Nat) :
    gains (histogramOps fl) added s actions j =
      Capped.of u64Max (samplesIn (b.layout fl) (samples s actions) j) := by
  induction actions generalizing s with
  | nil => exact Capped.of_zero.symm
  | cons a actions ih =>
    have hfirst : gained added s a j =
        Capped.of u64Max (samplesIn (b.layout fl) (written s a) j) := by
      cases a with
      | recorder i a =>
        cases hi : s.handles[i]? with
        | none => cases a <;> simp only [gained, written, hi] <;> exact Capped.of_zero.symm
        | some r =>
          have hL := (hs.handles r (List.mem_of_getElem? hi)).layout
          cases a with
          | write w =>
            simp only [gained, written, hi, Option.elim_some, Recorder.gained, added, hL]
          | _ =>
            simp only [gained, written, hi, Option.elim_some, Recorder.gained]
            exact Capped.of_zero.symm
      | _ => exact Capped.of_zero.symm
    rw [samples, samplesIn_append, Capped.of_add, ← hfirst]
    cases hstep : step (histogramOps fl) s a with
    | none =>
      rw [gains, hstep]
      exact congrArg (gained added s a j + ·) Capped.of_zero.symm
    | some s' =>
      have hs' := (step_total (histograms_lawful hb hr) hstep hs).1
      rw [gains, hstep, Option.elim_some, Option.elim_some, ← ih hs']
      rfl

/-! ## Runs -/

/-- A recorder writes a sample, and a refresh finds the channel empty. -/
def sampleBefore : List (Action (Write .exact)) :=
  [.newRecorder, .recorder 0 (.write (.recordN 5 2 (by decide))), .refresh, .turn]

/-- The recorder sends its histogram, and the refresh merges it. -/
def sampleBetween : List (Action (Write .exact)) :=
  [.turn, .recorder 0 .load, .recorder 0 .send, .turn, .turn]

def sampleRun : List (Action (Write .exact)) := sampleBefore ++ .turn :: sampleBetween ++ [.turn]

theorem sampleRun_isSome :
    (run (histogramOps .exact) (State.from sample) sampleRun).isSome := by
  decide +kernel

section
variable (hc : Coherent fl h) (hr : Refreshable h)
include hc hr

omit hr in
theorem sound_from : (State.from h).Sound (Alike fl h) :=
  ⟨⟨hc, rfl, rfl, fun _ => rfl⟩, by simp [State.from], by simp [State.from]⟩

/-- **No sample is lost or merged twice**: after any run, the counts of the merged histogram, the
channel and the recorders are those at the start and the samples written, up to the cap. -/
theorem sync_lossless {s : State Histogram} {actions : List (Action (Write fl))}
    (hrun : run (histogramOps fl) (State.from h) actions = some s) (j : Nat) :
    min (s.countIn j) u64Max = min (h.counts.getD j 0 +
      samplesIn (h.layout fl) (samples (State.from h) actions) j) u64Max := by
  have hl := histograms_lawful hc.toShaped hr
  have htotal := congrFun (run_total hl hrun (sound_from hc)).2 j
  rw [Pi.add_apply, total_counts, total_counts, gains_eq hc.toShaped hr (sound_from hc),
    ← Capped.of_add] at htotal
  exact congrArg Subtype.val htotal

omit hc hr in
theorem sync_lossless_sample : ∃ s,
    run (histogramOps .exact) (State.from sample) sampleRun = some s ∧ ∀ j,
      min (s.countIn j) u64Max = min (sample.counts.getD j 0 +
        samplesIn (sample.layout .exact) (samples (State.from sample) sampleRun) j) u64Max := by
  obtain ⟨s, hs⟩ := Option.isSome_iff_exists.1 sampleRun_isSome
  exact ⟨s, hs, sync_lossless sample_coherent (.inr (by decide)) hs⟩

/-- **Nothing panics**: no `add` of a refresh fails, no method of a recorder panics, and
`truth.recorders` never underflows. -/
theorem sync_never_panics {s : State Histogram} {actions : List (Action (Write fl))}
    (hrun : run (histogramOps fl) (State.from h) actions = some s) :
    (∀ x ∈ s.shared.channel, ∃ g, s.merged.add x = .ok g) ∧
      ∀ r ∈ s.handles, (r.active = true → 0 < s.shared.recorders) ∧
        (∃ g, Histogram.newFrom (ε := Empty) fl r.loc = .ok g) ∧
        ∀ w : Write fl, ∃ g, w.call r.loc = some g := by
  have hl := histograms_lawful hc.toShaped hr
  have hs := (run_total hl hrun (sound_from hc)).1
  have hcounted := counted_run hrun (counted_from h)
  have hok : ∀ {ε : Type} {r : Res ε Histogram} {g : Histogram}, r.toOption = some g →
      r = .ok g := by
    intro ε r g hr
    cases r with
    | ok g' => exact congrArg Except.ok (Option.some.inj hr)
    | error e => cases hr
  refine ⟨fun x hx => ?_, fun r hr => ⟨fun hactive => ?_, ?_, fun w => ?_⟩⟩
  · obtain ⟨g, hg, -⟩ := hl.add hs.merged (hs.channel x hx)
    exact ⟨g, hok hg⟩
  · rw [hcounted.recorders]
    exact countP_pos_of_mem hr hactive
  · obtain ⟨g, hg, -⟩ := hl.newFrom (hs.handles r hr)
    exact ⟨g, hok hg⟩
  · obtain ⟨g, hg, -⟩ := hl.write (hs.handles r hr) w
    exact ⟨g, hg⟩

omit hc hr in
theorem sync_never_panics_sample : ∃ s,
    run (histogramOps .exact) (State.from sample) sampleRun = some s ∧
      ∀ r ∈ s.handles, ∀ w : Write .exact, ∃ g, w.call r.loc = some g := by
  obtain ⟨s, hs⟩ := Option.isSome_iff_exists.1 sampleRun_isSome
  exact ⟨s, hs, fun r hr =>
    ((sync_never_panics sample_coherent (.inr (by decide)) hs).2 r hr).2.2⟩

/-- **What a refresh brings**: under the conditions of `refresh_complete`, the counts that the
counted recorders had when they were counted. -/
theorem refresh_brings {s s1 s2 s' : State Histogram} {before actions : List (Action (Write fl))}
    (hreach : run (histogramOps fl) (State.from h) before = some s)
    (hdrained : s.reader = .drained) (hempty : s.shared.channel = [])
    (hfirst : turn (histogramOps fl) s = some s1)
    (hrun : run (histogramOps fl) s1 actions = some s2)
    (hlast : turn (histogramOps fl) s2 = some s') (houtside : s'.reader = .outside)
    (hactions : ∀ a ∈ actions, a ≠ .timeout ∧ a ≠ .refresh)
    (hcounted : ∀ i ∈ actions.filterMap Action.sender, i ∈ s.counted)
    (hnodup : (actions.filterMap Action.sender).Nodup) (j : Nat) :
    min (s.merged.counts.getD j 0 + (s.counted.map fun i =>
      s.handles[i]?.elim 0 fun r => r.loc.counts.getD j 0).sum) u64Max ≤
      s'.merged.counts.getD j 0 := by
  have hl := histograms_lawful hc.toShaped hr
  have hs := (run_total hl hreach (sound_from hc)).1
  obtain ⟨x, hx⟩ := refresh_complete hl hs (counted_run hreach (counted_from h)) hdrained hempty
    hfirst hrun hlast houtside hactions hcounted hnodup
  have hheld : (s.counted.map (s.held counts)).sum j = Capped.of u64Max (s.counted.map fun i =>
      s.handles[i]?.elim 0 fun r => r.loc.counts.getD j 0).sum := by
    rw [sum_apply, Capped.of_sum, List.map_map]
    refine congrArg List.sum (List.map_congr_left fun i _ => ?_)
    simp only [State.held, Function.comp_apply]
    cases s.handles[i]? with
    | none => exact Capped.of_zero.symm
    | some r => rfl
  have hj := congrFun hx j
  rw [Pi.add_apply, Pi.add_apply, hheld] at hj
  have hval : min (s'.merged.counts.getD j 0) u64Max =
      min (min (min (s.merged.counts.getD j 0) u64Max + min (s.counted.map fun i =>
        s.handles[i]?.elim 0 fun r => r.loc.counts.getD j 0).sum u64Max) u64Max + (x j).1)
        u64Max := congrArg Subtype.val hj
  omega

omit hc hr in
theorem refresh_brings_sample : ∃ s s1 s2 s' : State Histogram,
    run (histogramOps .exact) (State.from sample) sampleBefore = some s ∧
    turn (histogramOps .exact) s = some s1 ∧
    run (histogramOps .exact) s1 sampleBetween = some s2 ∧
    turn (histogramOps .exact) s2 = some s' ∧
    ∀ j, min (s.merged.counts.getD j 0 + (s.counted.map fun i =>
      s.handles[i]?.elim 0 fun r => r.loc.counts.getD j 0).sum) u64Max ≤
      s'.merged.counts.getD j 0 := by
  have hreach : (run (histogramOps .exact) (State.from sample) sampleBefore).isSome := by
    decide +kernel
  have hfirst : (turn (histogramOps .exact) (Option.get _ hreach)).isSome := by
    decide +kernel +revert
  have hrun : (run (histogramOps .exact) (Option.get _ hfirst) sampleBetween).isSome := by
    decide +kernel +revert
  have hlast : (turn (histogramOps .exact) (Option.get _ hrun)).isSome := by
    decide +kernel +revert
  refine ⟨_, _, _, _, (Option.some_get hreach).symm, (Option.some_get hfirst).symm,
    (Option.some_get hrun).symm, (Option.some_get hlast).symm, ?_⟩
  exact refresh_brings sample_coherent (.inr (by decide)) (Option.some_get hreach).symm
    (by decide +kernel +revert) (by decide +kernel +revert) (Option.some_get hfirst).symm
    (Option.some_get hrun).symm (Option.some_get hlast).symm (by decide +kernel +revert)
    (by simp [sampleBetween]) (by decide +kernel +revert) (by decide +kernel +revert)

/-- **No refresh hangs**, as long as no recorder goes idle between the count and the phase shift:
the reader can go on at once, or after the next write or send of one recorder. -/
theorem sync_never_stuck {s : State Histogram}
    (hreach : Relation.ReflTransGen (Steps (histogramOps fl) Calm) (State.from h) s)
    (hreader : s.reader ≠ .outside) (w : Write fl) : ∃ i, Unblocks (histogramOps fl) s i :=
  refresh_never_stuck (histograms_lawful hc.toShaped hr) ⟨hc, rfl, rfl, fun _ => rfl⟩ hreach
    hreader w

omit hc hr in
theorem sync_never_stuck_sample : ∃ s,
    run (histogramOps .exact) (State.from sample) (sampleBefore ++ [.turn, .turn]) = some s ∧
      s.reader = .waiting 1 0 ∧ s.shared.channel = [] ∧ s.handles.map (·.lastPhase) = [0] ∧
      s.shared.phase = 1 ∧ ∃ i, Unblocks (histogramOps .exact) s i := by
  have hrun : (run (histogramOps .exact) (State.from sample)
      (sampleBefore ++ [.turn, .turn])).isSome := by decide +kernel
  have hwait : (Option.get _ hrun).reader = .waiting 1 0 ∧
      (Option.get _ hrun).shared.channel = [] ∧
      (Option.get _ hrun).handles.map (·.lastPhase) = [0] ∧
      (Option.get _ hrun).shared.phase = 1 := by
    decide +kernel +revert
  obtain ⟨hreader, hchannel, hbehind, hphase⟩ := hwait
  refine ⟨_, (Option.some_get hrun).symm, hreader, hchannel, hbehind, hphase, ?_⟩
  exact sync_never_stuck sample_coherent (.inr (by decide))
    (reach_of_run (Option.some_get hrun).symm (by simp [sampleBefore])) (by simp [hreader])
    (.recordN 5 2 (by decide))

end

end Chist.Sync
