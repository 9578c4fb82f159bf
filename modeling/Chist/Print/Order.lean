import Chist.Print.Conserve
import Chist.Print.EqualBounds

/-!
# The order of the files

The order of the files on the command line enters a turn in three places: which of several
earliest records is the anchor, which record gives the merge its shape, and the order of the
merge. With equal bounds, and equal times only among records of equal name and elapsed, none of
them shows (`turn_perm`), and permuted files print the same rows and end alike (`print_perm`).
-/

set_option autoImplicit false

namespace Chist

open Res Hdr Loop

/-- The printed columns of a row. -/
structure RowColumns where
  time : DateTime
  name : String
  files : Nat
  total : Nat
  elapsed : UInt64
  p50 : Nat
  p95 : Nat
  p99 : Nat
  pmax : Nat
  deriving DecidableEq

def Row.columns (row : Row) : RowColumns where
  time := row.time
  name := row.name
  files := row.fileSnapshots.length
  total := row.summary.len
  elapsed := row.elapsed
  p50 := row.p50
  p95 := row.p95
  p99 := row.p99
  pmax := row.pmax

/-- Both are an `Err`, or both a panic. -/
def SameKind {ε : Type} : Stop ε → Stop ε → Prop
  | .err _, .err _ => True
  | .panic _, .panic _ => True
  | _, _ => False

/-- All snapshots have the same bounds, and the counts these call for. -/
structure EqualBounds (fl : Floats) (files : List HistFile) : Prop where
  wellSized : WellSizedFiles fl files
  sameBounds : ∀ file ∈ files, ∀ x ∈ file.records, ∀ file' ∈ files, ∀ x' ∈ file'.records,
    SameBounds x x'

/-- In a reachable state, next records of equal time have equal name and elapsed. -/
def TiesAgree (fl : Floats) (files : List HistFile) : Prop :=
  ∀ walks, Reach (printTurn fl) (files.map startWalk) walks → ∀ walk ∈ walks, ∀ walk' ∈ walks,
    ∀ x x', walk.records[walk.ri]? = some x → walk'.records[walk'.ri]? = some x' →
      x.now = x'.now → x.name = x'.name ∧ x.elapsed = x'.elapsed

theorem SameKind.refl {ε : Type} (e : Stop ε) : SameKind e e := by
  cases e <;> trivial

/-- Two attempts at a row fail alike or make rows of the same columns. -/
inductive RowRel : Res ChistError Row → Res ChistError Row → Prop
  | error {e e' : Stop ChistError} : SameKind e e' → RowRel (.error e) (.error e')
  | ok {row row' : Row} : row.columns = row'.columns → RowRel (.ok row) (.ok row')

variable {fl : Floats} {files files' : List HistFile} {r : Nat}

/-! ## The row -/

/-- The statistics of a row do not depend on how its summary came about. -/
theorem makeRow_rel (time : DateTime) (name : String) (elapsed : UInt64)
    {picked picked' : List (Option HistRecord)} {fs fs' : List Histogram} {g : Histogram}
    (hlen : fs.length = fs'.length)
    (hl : (picked.filterMap id).mapM (loadRecord fl) = .ok fs)
    (hl' : (picked'.filterMap id).mapM (loadRecord fl) = .ok fs')
    (hg : mergeSnapshots fl fs = .ok g) (hg' : mergeSnapshots fl fs' = .ok g) :
    RowRel (makeRow fl time name elapsed picked) (makeRow fl time name elapsed picked') := by
  unfold makeRow
  rw [hl, hl', ok_bind, ok_bind, hg, hg', ok_bind, ok_bind]
  cases g.valueAtQuantile (ε := ChistError) fl (50 / 100) with
  | error e => exact .error (.refl e)
  | ok p50 =>
  cases g.valueAtQuantile (ε := ChistError) fl (95 / 100) with
  | error e => exact .error (.refl e)
  | ok p95 =>
  cases g.valueAtQuantile (ε := ChistError) fl (99 / 100) with
  | error e => exact .error (.refl e)
  | ok p99 =>
  cases g.max (ε := ChistError) with
  | error e => exact .error (.refl e)
  | ok pmax =>
    refine .ok ?_
    simp only [Row.columns, hlen]

/-- **The merge of permuted records** of equal bounds. -/
theorem mergeSnapshots_perm {xs ys : List HistRecord} (hperm : xs.Perm ys) (hne : xs ≠ [])
    (hb : ∀ x ∈ xs, x.BoundsOk fl) (hw : ∀ x ∈ xs, x.WellSized fl)
    (hsame : ∀ x ∈ xs, ∀ y ∈ xs, SameBounds x y) :
    mergeSnapshots fl (ys.map (·.loaded fl)) = mergeSnapshots fl (xs.map (·.loaded fl)) := by
  obtain ⟨x, xs, rfl⟩ := List.exists_cons_of_ne_nil hne
  obtain ⟨y, ys, rfl⟩ := List.exists_cons_of_ne_nil fun h => hne (List.perm_nil.1 (h ▸ hperm))
  have hx : x ∈ x :: xs := List.mem_cons_self
  have hy : y ∈ x :: xs := hperm.mem_iff.2 List.mem_cons_self
  have hxy : SameBounds x y := hsame x hx y hy
  have hmerge := mergeSnapshots_same (hb x hx) hw (hsame x hx)
  have hmerge' := mergeSnapshots_same (hb y hy) (fun z hz => hw z (hperm.mem_iff.2 hz))
    fun z hz => hsame y hy z (hperm.mem_iff.2 hz)
  have hmap : ((x :: xs).map (·.loaded fl)).Perm ((y :: ys).map (·.loaded fl)) := hperm.map _
  -- the same histograms are tested and folded, in another order
  have hfit : (∀ s ∈ (y :: ys).map (·.loaded fl),
        s.maxValue ≤ (x.layout fl).highest (x.bins fl - 1)) ↔
      ∀ s ∈ (x :: xs).map (·.loaded fl), s.maxValue ≤ (x.layout fl).highest (x.bins fl - 1) :=
    forall_congr' fun s => imp_congr_left hmap.mem_iff.symm
  rw [hmerge, hmerge', hxy.layout, hxy.bins, hxy.fresh, ← hmap.foldl_eq]
  simp only [hfit]

/-- **The row of permuted records** of equal bounds. -/
theorem makeRow_perm (time : DateTime) (name : String) (elapsed : UInt64)
    {picked picked' : List (Option HistRecord)}
    (hperm : (picked.filterMap id).Perm (picked'.filterMap id)) (hne : picked.filterMap id ≠ [])
    (hw : ∀ x ∈ picked.filterMap id, x.WellSized fl)
    (hsame : ∀ x ∈ picked.filterMap id, ∀ y ∈ picked.filterMap id, SameBounds x y) :
    RowRel (makeRow fl time name elapsed picked) (makeRow fl time name elapsed picked') := by
  have hw' : ∀ x ∈ picked'.filterMap id, x.WellSized fl := fun x hx => hw x (hperm.mem_iff.2 hx)
  by_cases hb : ∀ x ∈ picked.filterMap id, x.BoundsOk fl
  · have hload := loadAll_ok hw hb
    have hload' := loadAll_ok hw' fun x hx => hb x (hperm.mem_iff.2 hx)
    have hmerge := mergeSnapshots_perm hperm hne hb hw hsame
    cases hg : mergeSnapshots fl ((picked.filterMap id).map (·.loaded fl)) with
    | ok g =>
      exact makeRow_rel time name elapsed (hperm.map _).length_eq hload hload' hg
        (hmerge.trans hg)
    | error e =>
      unfold makeRow
      rw [hload, hload', ok_bind, ok_bind, hmerge, hg, error_bind, error_bind]
      exact .error (.refl e)
  · obtain ⟨e, he⟩ := loadAll_err hw hb
    obtain ⟨e', he'⟩ := loadAll_err hw' fun h => hb fun x hx => h x (hperm.mem_iff.1 hx)
    unfold makeRow
    rw [he, he', error_bind, error_bind]
    exact .error (trivial : SameKind (.err _) (.err _))

/-! ## The turn -/

theorem entries_perm (hperm : files.Perm files') (r : Nat) :
    (entries files r).Perm (entries files' r) := Columns.entries_perm (hperm.map _) r

theorem depth_perm (hperm : files.Perm files') : depth files ≤ r ↔ depth files' ≤ r := by
  rw [depth, depth, ← Columns.entries_eq_nil_iff, ← Columns.entries_eq_nil_iff]
  exact ⟨fun h => List.perm_nil.1 (h ▸ (entries_perm hperm r).symm),
    fun h => List.perm_nil.1 (h ▸ entries_perm hperm r)⟩

theorem mem_heads {x : HistRecord} (hx : x ∈ entries files r) :
    ∃ walk ∈ files.map (walkAt r), walk.records[walk.ri]? = some x := by
  obtain ⟨file, hf, hfx⟩ := mem_entries.1 hx
  exact ⟨_, List.mem_map_of_mem hf, by rw [getElem?_walkAt, hfx]⟩

/-- The anchors of permuted columns agree in what a turn uses. -/
theorem anchor_perm (hperm : files.Perm files') {a a' : HistRecord} (ha : anchor files r = some a)
    (ha' : anchor files' r = some a')
    (htie : ∀ x ∈ entries files r, ∀ y ∈ entries files r, x.now = y.now →
      x.name = y.name ∧ x.elapsed = y.elapsed) :
    a'.now = a.now ∧ a'.name = a.name ∧ a'.elapsed = a.elapsed := by
  have hmem := (entries_perm hperm r).mem_iff.2 (anchor_mem ha')
  have h1 := anchor_le ha a' hmem
  have h2 := anchor_le ha' a ((entries_perm hperm r).mem_iff.1 (anchor_mem ha))
  have hnow : a'.now = a.now := DateTime.eq_of_nanos (Int.le_antisymm h2 h1)
  exact ⟨hnow, htie a' hmem a (anchor_mem ha) hnow⟩

theorem namesAgree_perm (hperm : files.Perm files') {a a' : HistRecord} (hnow : a'.now = a.now)
    (hname : a'.name = a.name) {next : DateTime} :
    NamesAgree files' r a' next ↔ NamesAgree files r a next := by
  unfold NamesAgree
  rw [hnow, hname]
  exact forall_congr' fun x => imp_congr_left (entries_perm hperm r).mem_iff.symm

theorem EqualBounds.entries (heq : EqualBounds fl files) (r : Nat) :
    ∀ x ∈ entries files r, ∀ y ∈ entries files r, SameBounds x y := by
  intro x hx y hy
  obtain ⟨file, hf, hfx⟩ := mem_entries.1 hx
  obtain ⟨file', hf', hfy⟩ := mem_entries.1 hy
  exact heq.sameBounds file hf x (List.mem_of_getElem? hfx) file' hf' y (List.mem_of_getElem? hfy)

theorem RowRel.turn {made made' : Res ChistError Row} (h : RowRel made made') (n : Nat) :
    TurnRel SameKind (fun row row' => row.columns = row'.columns)
      (fun walks walks' => ∃ n, walks = files.map (walkAt n) ∧ walks' = files'.map (walkAt n))
      (made.map fun row => some (row, files.map (walkAt n)))
      (made'.map fun row => some (row, files'.map (walkAt n))) := by
  cases h with
  | error h => exact .error h
  | ok h => exact .emit h ⟨n, rfl, rfl⟩

/-- **One turn of permuted files**: both end, both fail alike, or both print the same columns. -/
theorem turn_perm (hperm : files.Perm files') (heq : EqualBounds fl files)
    (htie : ∀ x ∈ entries files r, ∀ y ∈ entries files r, x.now = y.now →
      x.name = y.name ∧ x.elapsed = y.elapsed) :
    TurnRel SameKind (fun row row' => row.columns = row'.columns)
      (fun walks walks' => ∃ n, walks = files.map (walkAt n) ∧ walks' = files'.map (walkAt n))
      (printTurn fl (files.map (walkAt r))) (printTurn fl (files'.map (walkAt r))) := by
  cases ha : anchor files r with
  | none =>
    have hd := anchor_eq_none_iff.1 ha
    rw [printTurn_done hd, printTurn_done ((depth_perm hperm).1 hd)]
    exact .done
  | some a =>
  cases ha' : anchor files' r with
  | none =>
    rw [anchor_eq_none_iff, ← depth_perm hperm, ← anchor_eq_none_iff, ha] at ha'
    cases ha'
  | some a' =>
    obtain ⟨hnow, hname, helapsed⟩ := anchor_perm hperm ha ha' htie
    have hnext : a'.nextTime (ε := ChistError) = a.nextTime := by
      unfold HistRecord.nextTime HistRecord.elapsedNanos
      rw [hnow, helapsed]
    cases hn : a.nextTime (ε := ChistError) with
    | error e =>
      rw [printTurn_walkAt ha, printTurn_walkAt ha', hnext, hn, error_bind, error_bind]
      exact .error (.refl e)
    | ok next =>
      have hagree' : NamesAgree files' r a' next ↔ NamesAgree files r a next :=
        namesAgree_perm hperm hnow hname
      by_cases hagree : NamesAgree files r a next
      · have hrow : RowRel (makeRow fl a.now a.name a.elapsed (column files r))
            (makeRow fl a.now a.name a.elapsed (column files' r)) :=
          makeRow_perm a.now a.name a.elapsed (entries_perm hperm r) (entries_ne_nil ha)
            (wellSized_entries heq.wellSized) (heq.entries r)
        rw [turn_of_agree ha hn hagree, turn_of_agree ha' (hnext.trans hn) (hagree'.2 hagree),
          hnow, hname, helapsed]
        exact hrow.turn (r + 1)
      · obtain ⟨e, he⟩ : IsErr (printTurn fl (files.map (walkAt r))) :=
          turn_of_mismatch ha hn hagree
        obtain ⟨e', he'⟩ : IsErr (printTurn fl (files'.map (walkAt r))) :=
          turn_of_mismatch ha' (hnext.trans hn) fun h => hagree (hagree'.1 h)
        rw [he, he']
        exact .error (trivial : SameKind (.err _) (.err _))

/-! ## The run -/

theorem totalRecords_perm (hperm : files.Perm files') : totalRecords files = totalRecords files' :=
  (hperm.map _).sum_eq

/-- **The order of the files does not matter**: permuted files print the same columns row by row,
and all orders end with `Ok`, or all with an `Err`, or all with a panic. -/
theorem print_perm (fl : Floats) {files files' : List HistFile} (hperm : files.Perm files')
    (heq : EqualBounds fl files) (htie : TiesAgree fl files) :
    (print fl files).1.map Row.columns = (print fl files').1.map Row.columns ∧
      Outcome.Rel SameKind (print fl files).2 (print fl files').2 := by
  -- both runs have all cursors at the same turn
  have hturn : ∀ walks walks', Reach (printTurn fl) (files.map startWalk) walks →
      (∃ n, walks = files.map (walkAt n) ∧ walks' = files'.map (walkAt n)) →
      TurnRel SameKind (fun row row' => row.columns = row'.columns)
        (fun walks walks' => ∃ n, walks = files.map (walkAt n) ∧ walks' = files'.map (walkAt n))
        (printTurn fl walks) (printTurn fl walks') := by
    rintro walks walks' hreach ⟨n, rfl, rfl⟩
    refine turn_perm hperm heq fun x hx y hy => ?_
    obtain ⟨walk, hw, hwx⟩ := mem_heads hx
    obtain ⟨walk', hw', hwy⟩ := mem_heads hy
    exact htie _ hreach walk hw walk' hw' x y hwx hwy
  have hsim := Loop.run_sim hturn (totalRecords files + 1) ⟨[], .refl _⟩
    ⟨0, (walkAt_zero files).symm, (walkAt_zero files').symm⟩
  unfold print
  rw [← totalRecords_perm hperm]
  refine ⟨?_, hsim.2⟩
  generalize (run (printTurn fl) (totalRecords files + 1) (files.map startWalk)).1 = rows at hsim
  generalize (run (printTurn fl) (totalRecords files + 1) (files'.map startWalk)).1 = rows' at hsim
  exact List.forall₂_eq_eq_eq ▸ List.forall₂_map_left_iff.2 (List.forall₂_map_right_iff.2 hsim.1)

theorem tiesAgree_of_records (h : ∀ file ∈ files, ∀ x ∈ file.records, ∀ file' ∈ files,
    ∀ x' ∈ file'.records, x.now = x'.now → x.name = x'.name ∧ x.elapsed = x'.elapsed) :
    TiesAgree fl files := by
  rintro walks ⟨rows, hrows⟩ walk hw walk' hw' x x' hx hx' hnow
  obtain ⟨rfl, -⟩ := steps_columns hrows
  obtain ⟨file, hf, rfl⟩ := List.mem_map.1 hw
  obtain ⟨file', hf', rfl⟩ := List.mem_map.1 hw'
  exact h file hf x (List.mem_of_getElem? hx) file' hf' x' (List.mem_of_getElem? hx') hnow

theorem print_perm_sample : (print .exact sampleFiles).1.map Row.columns =
      (print .exact sampleFiles.reverse).1.map Row.columns ∧
    Outcome.Rel SameKind (print .exact sampleFiles).2 (print .exact sampleFiles.reverse).2 :=
  print_perm .exact (List.reverse_perm _).symm ⟨by decide +kernel, by decide +kernel⟩
    (tiesAgree_of_records (by decide +kernel))

end Chist
