import Chist.Print.Row
import Chist.Hdr.Loose

/-!
# Rejected columns

A turn rejects a column for one of three reasons (`Rejected`): the time after its anchor cannot be
represented, a record nearer to the anchor has another name, or its histograms do not merge
(`Mergeable`), which their bounds and counts tell (`makeRow_okWhen`). Any other column prints
(`rejected_iff`), so the rows printed are the columns before the first one rejected
(`lt_rows_iff`).
-/

set_option autoImplicit false

namespace Chist

open Res Hdr

/-- The snapshots `ys`, the first of which is `x`, load and merge, and the quantiles of the result
can be read. -/
structure Mergeable (fl : Floats) (ys : List HistogramSnapshot) (x : HistogramSnapshot) : Prop where
  first : ys.head? = some x
  loads : ∀ y ∈ ys, y.Loads fl
  admits : ∀ y ∈ ys, x.Admits fl y
  places : ∀ y ∈ ys, x.Places fl y
  reads : ∀ q ∈ [(50 / 100 : Rat), 95 / 100, 99 / 100], x.Reads fl ys q

/-- `x` is nearer, in whole milliseconds, to the time of `a` than to the time `a.elapsed` later. -/
def HistRecord.Near (a x : HistRecord) : Prop :=
  ((x.now.nanos - a.now.nanos).tdiv 1000000).natAbs <
    ((x.now.nanos - (a.now.nanos + a.elapsed.toNat)).tdiv 1000000).natAbs

/-- The histograms of column `r`. -/
def snapshots (files : List HistFile) (r : Nat) : List HistogramSnapshot :=
  (entries files r).map (·.hist.toSnapshot)

/-- Column `r` does not print. -/
inductive Rejected (fl : Floats) (files : List HistFile) (r : Nat) : Prop
  | time {a : HistRecord} : anchor files r = some a → ¬ a.TimeOk → Rejected fl files r
  | name {a x : HistRecord} : anchor files r = some a → x ∈ entries files r → a.Near x →
      x.name ≠ a.name → Rejected fl files r
  | merge : (∀ x, ¬ Mergeable fl (snapshots files r) x) → Rejected fl files r

variable {fl : Floats} {files : List HistFile} {r : Nat}

/-! ## The histograms -/

theorem loadAll_okWhen (fl : Floats) (xs : List HistRecord) :
    OkWhen (xs.mapM (loadRecord fl)) (∀ y ∈ xs.map (·.hist.toSnapshot), y.Loads fl)
      (· = (xs.map (·.hist.toSnapshot)).map (·.looselyLoaded fl)) := by
  rw [List.forall_mem_map, List.map_map]
  exact .mapM fun x _ => (newFromSnapshot_okWhen fl x.hist.toSnapshot).mapErr _

theorem mergeSnapshots_okWhen {x : HistogramSnapshot} {ys : List HistogramSnapshot}
    (hb : ∀ y ∈ x :: ys, y.BoundsOk fl) :
    OkWhen (mergeSnapshots fl ((x :: ys).map (·.looselyLoaded fl)))
      (∀ y ∈ x :: ys, x.Admits fl y ∧ x.Places fl y)
      (Receives fl x ((x :: ys).flatMap (x.placed fl))) := by
  have hbx := hb x List.mem_cons_self
  obtain ⟨h, hnew, hr⟩ := newFrom_receives (ε := ChistError) hbx
  have hadd : ∀ y ∈ x :: ys, ∀ done g, Receives fl x done g →
      OkWhen (g.add (y.looselyLoaded fl)) (x.Admits fl y ∧ x.Places fl y)
        (Receives fl x (done ++ x.placed fl y)) :=
    fun y hy done g hg => add_okWhen hbx (hb y hy) hg
  have hfold := OkWhen.foldlM (Receives fl x) hadd hr
  unfold mergeSnapshots
  rw [List.map_cons, List.head?_cons, unwrapSome_some, ok_bind, hnew, ok_bind, ← List.map_cons,
    List.foldlM_map]
  exact hfold.mapErr _

/-- **Which rows are made**, told by the snapshots. -/
theorem makeRow_okWhen (fl : Floats) (time : DateTime) (name : String) (elapsed : UInt64)
    (picked : List (Option HistRecord)) :
    OkWhen (makeRow fl time name elapsed picked)
      (∃ x, Mergeable fl ((picked.filterMap id).map (·.hist.toSnapshot)) x) fun _ => True := by
  have hload := loadAll_okWhen fl (picked.filterMap id)
  unfold makeRow
  generalize (picked.filterMap id).map (·.hist.toSnapshot) = ys at hload ⊢
  cases ys with
  | nil =>
    obtain ⟨fileSnapshots, hok, hs⟩ := hload.ok (by simp)
    rw [hok, ok_bind, hs]
    refine .of_error ?_ rfl
    rintro ⟨x, hx⟩
    cases hx.first
  | cons x ys =>
    refine OkWhen.congr (hload.bind (q := (∀ y ∈ x :: ys, x.Admits fl y ∧ x.Places fl y) ∧
      x.Reads fl (x :: ys) (50 / 100) ∧ x.Reads fl (x :: ys) (95 / 100) ∧
      x.Reads fl (x :: ys) (99 / 100)) fun fileSnapshots hl hs => ?_) ?_
    · rw [hs]
      refine (mergeSnapshots_okWhen fun y hy => (hl y hy).boundsOk).bind fun summary _ hr => ?_
      refine (valueAtQuantile_okWhen hr (by norm_num) (by norm_num)).bind fun p50 _ _ => ?_
      refine (valueAtQuantile_okWhen hr (by norm_num) (by norm_num)).bind fun p95 _ _ => ?_
      refine (valueAtQuantile_okWhen hr (by norm_num) (by norm_num)).bind_ok fun p99 _ _ => ?_
      rw [max_of_lt hr.layout hr.maxValue_lt, ok_bind]
      exact ⟨_, rfl, trivial⟩
    · refine ⟨?_, ?_⟩
      · rintro ⟨hl, hadd, h50, h95, h99⟩
        exact ⟨x, rfl, hl, fun y hy => (hadd y hy).1, fun y hy => (hadd y hy).2, by
          simpa using ⟨h50, h95, h99⟩⟩
      · rintro ⟨x', h⟩
        cases h.first
        have hreads := h.reads
        simp only [List.forall_mem_cons, List.not_mem_nil, false_implies, implies_true,
          and_true] at hreads
        exact ⟨h.loads, fun y hy => ⟨h.admits y hy, h.places y hy⟩, hreads⟩

/-! ## Columns -/

theorem closer_iff_near {ε : Type} {a x : HistRecord} {next : DateTime}
    (h : a.nextTime (ε := ε) = .ok next) : Closer a.now next x ↔ a.Near x := by
  unfold Closer HistRecord.Near DateTime.millisApart DateTime.millisSince
  rw [(nextTime_eq_ok h).2]

/-- **A column prints or is rejected.** -/
theorem rejected_iff (hr : r < depth files) :
    Rejected fl files r ↔ ¬ ∃ a next row, RowAt fl files r a next row := by
  obtain ⟨a, ha⟩ : ∃ a, anchor files r = some a := by
    rw [← Option.ne_none_iff_exists', ne_eq, anchor_eq_none_iff]
    omega
  refine ⟨?_, ?_⟩
  · rintro hrej ⟨a', next, row, h⟩
    obtain rfl : a = a' := Option.some.inj (ha.symm.trans h.anchor_eq)
    cases hrej with
    | time ha' hno =>
      cases ha.symm.trans ha'
      exact hno (nextTime_eq_ok h.next_eq).1
    | name ha' hx hnear hne =>
      cases ha.symm.trans ha'
      exact hne (h.names _ hx ((closer_iff_near h.next_eq).2 hnear))
    | merge hno =>
      obtain ⟨x, hx⟩ := (makeRow_okWhen fl _ _ _ _).of_ok _ h.made
      exact hno x hx
  · intro hno
    by_cases hok : a.TimeOk
    · obtain ⟨next, hnext, -⟩ := nextTime_of_timeOk (ε := ChistError) hok
      by_cases hn : NamesAgree files r a next
      · refine .merge fun x hx => ?_
        obtain ⟨row, hrow, -⟩ := (makeRow_okWhen fl a.now a.name a.elapsed (column files r)).ok
          ⟨x, hx⟩
        exact hno ⟨a, next, row, ha, hnext, hn, hrow⟩
      · unfold NamesAgree at hn
        push Not at hn
        obtain ⟨x, hx, hc, hne⟩ := hn
        exact .name ha hx ((closer_iff_near hnext).1 hc) hne
    · exact .time ha hok

/-- **The run ends well** if no column is rejected. -/
theorem print_finished_iff_rejected (fl : Floats) (files : List HistFile) :
    (print fl files).2 = .finished ↔ ∀ r < depth files, ¬ Rejected fl files r := by
  rw [print_finished_iff]
  exact forall₂_congr fun r hr => by rw [rejected_iff hr, not_not]

theorem rejected_of_depth_le (h : depth files ≤ r) : Rejected fl files r := by
  refine .merge fun x hx => ?_
  have hfirst := hx.first
  rw [snapshots, entries, Columns.entries_eq_nil_iff.2 h] at hfirst
  cases hfirst

/-- **The rows printed** are the columns before the first one rejected. -/
theorem lt_rows_iff (fl : Floats) (files : List HistFile) (r : Nat) :
    r < (print fl files).1.length ↔ ∀ i ≤ r, ¬ Rejected fl files i := by
  have hp := printed fl files
  have hle := rows_le_depth hp.steps
  refine ⟨?_, ?_⟩
  · intro hr i hi hrej
    have hlt : i < (print fl files).1.length := Nat.lt_of_le_of_lt hi hr
    obtain ⟨a, next, hat⟩ := hp.rowAt i _ (List.getElem?_eq_getElem hlt)
    exact (rejected_iff (hlt.trans_le hle)).1 hrej ⟨a, next, _, hat⟩
  · intro h
    by_contra hc
    have hno := h _ (Nat.le_of_not_lt hc)
    have hdepth : (print fl files).1.length < depth files := by
      by_contra hd
      exact hno (rejected_of_depth_le (Nat.le_of_not_lt hd))
    obtain ⟨a, next, row, hat⟩ := not_not.1 fun h => hno ((rejected_iff hdepth).2 h)
    have hturn := turn_ok_iff.2 ⟨rfl, a, next, hat⟩
    cases ho : (print fl files).2 with
    | finished => exact Nat.ne_of_lt hdepth (hp.finished ho)
    | failed e =>
      rw [hp.failed e ho] at hturn
      cases hturn
    | running => exact hp.stops ho

end Chist
