import Chist.Summarize.Names

/-!
# The warnings of `summarize`

The lines `do_summarize` prints: it never panics, and its warnings are those of `warnings`, for the
names it collected and name warnings numbered one too high (`doSummarize_eq`). So every warning has
the number of its record exactly when there is no name warning (`warnsAtRecords_iff`).
-/

set_option autoImplicit false

namespace Chist

open Res

variable {ε : Type}

def SummaryLine.IsWarning : SummaryLine → Prop
  | timestampWarning .. => True
  | nameWarning .. => True
  | _ => False

instance (line : SummaryLine) : Decidable line.IsWarning :=
  match line with
  | .timestampWarning .. => isTrue trivial
  | .nameWarning .. => isTrue trivial
  | .totalRecords .. | .distinctNames .. | .initialTimestamp .. | .expectedTimestamps ..
  | .expectedInterval .. | .secondTimestamp .. | .finalTimestamp .. => isFalse id

/-- `do_summarize` finds the distinct `names` in the records, and has no warning about them. -/
def WarningFree (records : List HistRecord) (names : List String) : Prop :=
  ∃ lines, doSummarize (ε := Empty) records = .ok lines ∧
    lines[1]? = some (.distinctNames names) ∧ ∀ line ∈ lines, ¬ line.IsWarning

/-- The warning about the timestamp of record `i`, if it is not that of the first record of its
group of `k`. -/
def timestampWarningAt (records : List HistRecord) (k i : Nat) (x : HistRecord) :
    List SummaryLine :=
  match records[k * (i / k)]? with
  | some first =>
    if i % k ≠ 0 ∧ first.now ≠ x.now then [.timestampWarning (i + 1) first.now x.now] else []
  | none => []

/-- The warning about the name of record `i`, if it is not the one at its place in `names`. The
warning is numbered `i + shift`. -/
def nameWarningAt (names : List String) (shift i : Nat) (x : HistRecord) : List SummaryLine :=
  match names[i % names.length]? with
  | some expected =>
    if expected ≠ x.name then [.nameWarning (i + shift) expected x.name] else []
  | none => []

/-- The warnings about record `i`. -/
def warningsAt (names : List String) (records : List HistRecord) (shift : Nat)
    (slot : HistRecord × Nat) : List SummaryLine :=
  timestampWarningAt records names.length slot.2 slot.1 ++ nameWarningAt names shift slot.2 slot.1

/-- The warnings about all records, in record order. -/
def warnings (names : List String) (records : List HistRecord) (shift : Nat) : List SummaryLine :=
  records.zipIdx.flatMap (warningsAt names records shift)

/-- The warnings printed are those about the records, with the one-based positions of the records
for their numbers. -/
def WarnsAtRecords (records : List HistRecord) : Prop :=
  ∃ lines names, doSummarize (ε := Empty) records = .ok lines ∧
    lines[1]? = some (.distinctNames names) ∧ lines.filter (·.IsWarning) = warnings names records 1

variable {names : List String} {records : List HistRecord}

/-! ## The checking loop -/

theorem remU_ok {a b : Nat} (hb : 0 < b) : remU (ε := ε) a b = .ok (a % b) :=
  if_neg (Nat.ne_of_gt hb)

theorem divU_ok {a b : Nat} (hb : 0 < b) : divU (ε := ε) a b = .ok (a / b) :=
  if_neg (Nat.ne_of_gt hb)

theorem divI_ok {a : Int} {b : Nat} (hb : 0 < b) : divI (ε := ε) a b = .ok (a.tdiv b) :=
  if_neg (Nat.ne_of_gt hb)

/-- The timestamp kept after record `i`: that of the first record of its group. -/
def groupTime (records : List HistRecord) (k i : Nat) : Option DateTime :=
  records[k * (i / k)]?.map (·.now)

theorem checkTimestamp_eq {k i : Nat} {x : HistRecord} (hx : records[i]? = some x)
    {current : Option DateTime} (hcur : i % k ≠ 0 → current = groupTime records k i) :
    checkTimestamp (ε := ε) ⟨i, current⟩ (i % k) x =
      .ok (timestampWarningAt records k i x, groupTime records k i) := by
  obtain ⟨first, hfirst, hself⟩ := Groups.exists_start (K := k) hx
  unfold checkTimestamp timestampWarningAt groupTime
  unfold groupTime at hcur
  rw [hfirst] at hcur ⊢
  by_cases h0 : i % k = 0
  · rw [if_pos h0, hself h0]
    simp [h0]
  · rw [if_neg h0, hcur h0, Option.map_some, unwrapSome_some, ok_bind]
    simp [h0]

/-- **One turn of the checking loop**: the warnings about record `i`, its name warning one number
too high. -/
theorem checkRecord_eq (hne : names ≠ []) {i : Nat} {x : HistRecord} (hx : records[i]? = some x)
    {current : Option DateTime}
    (hcur : i % names.length ≠ 0 → current = groupTime records names.length i) :
    checkRecord (ε := ε) names ⟨i, current⟩ x =
      .ok (warningsAt names records 2 (x, i), ⟨i + 1, groupTime records names.length i⟩) := by
  have hpos := List.length_pos_iff.2 hne
  obtain ⟨expected, hexp⟩ : ∃ expected, names[i % names.length]? = some expected :=
    ⟨_, List.getElem?_eq_getElem (Nat.mod_lt _ hpos)⟩
  unfold checkRecord warningsAt nameWarningAt
  rw [remU_ok hpos, ok_bind, checkTimestamp_eq hx hcur, ok_bind]
  simp only []
  rw [ok_bind, index_ok hexp, ok_bind, hexp, pure_eq_ok]

theorem groupTime_succ {k i : Nat} (h : (i + 1) % k ≠ 0) :
    groupTime records k i = groupTime records k (i + 1) := by
  unfold groupTime
  rw [Nat.succ_div_of_mod_ne_zero h]

/-- **The checking loop** after the records `done`. -/
theorem checkRecords_eq (hne : names ≠ []) (done todo : List HistRecord)
    (hrec : done ++ todo = records) {current : Option DateTime}
    (hcur : done.length % names.length ≠ 0 →
      current = groupTime records names.length done.length) :
    checkRecords (ε := ε) names ⟨done.length, current⟩ todo =
      .ok ((todo.zipIdx done.length).flatMap (warningsAt names records 2)) := by
  induction todo generalizing done current with
  | nil => rfl
  | cons x todo ih =>
    have hx : records[done.length]? = some x := by simp [← hrec]
    have hlen : (done ++ [x]).length = done.length + 1 := by simp
    have hgroup : (done ++ [x]).length % names.length ≠ 0 →
        groupTime records names.length done.length =
          groupTime records names.length (done ++ [x]).length := by
      rw [hlen]
      exact groupTime_succ
    have hnext := ih (done ++ [x]) (by simp [← hrec]) hgroup
    rw [hlen] at hnext
    unfold checkRecords
    rw [checkRecord_eq hne hx hcur, ok_bind]
    simp only []
    rw [hnext, ok_bind, pure_eq_ok, List.zipIdx_cons, List.flatMap_cons]

/-! ## The lines -/

theorem reportInterval_eq (hpos : 0 < names.length) {first next last : HistRecord}
    (h0 : records[0]? = some first) (h1 : records[names.length]? = some next)
    (h2 : records[records.length - 1]? = some last) : reportInterval (ε := ε) records names =
      .ok [.expectedTimestamps (records.length / names.length),
        .expectedInterval ((last.now.millisSince first.now).tdiv
          (records.length / names.length : Nat)),
        .secondTimestamp next.now (next.now.millisSince first.now),
        .finalTimestamp last.now (last.now.millisSince first.now)] := by
  have hlt := (List.getElem?_eq_some_iff.1 h1).1
  unfold reportInterval
  rw [if_pos hlt, index_ok h0, ok_bind, index_ok h1, ok_bind, index_ok h2, ok_bind, divU_ok hpos,
    ok_bind, divI_ok (Nat.div_pos (Nat.le_of_lt hlt) hpos), ok_bind]
  rfl

theorem reportInterval_ok (records : List HistRecord) (hpos : 0 < names.length) : ∃ report,
    reportInterval (ε := ε) records names = .ok report ∧ ∀ line ∈ report, ¬ line.IsWarning := by
  by_cases hlt : names.length < records.length
  · refine ⟨_, reportInterval_eq hpos (List.getElem?_eq_getElem (by omega))
      (List.getElem?_eq_getElem hlt) (List.getElem?_eq_getElem (by omega)), ?_⟩
    simp [SummaryLine.IsWarning]
  · exact ⟨[], if_neg hlt, by simp⟩

/-- **The lines printed** for a file with records. -/
theorem doSummarize_eq (hne : records ≠ []) : ∃ first report,
    reportInterval (ε := ε) records (collectNames records []) = .ok report ∧
    (∀ line ∈ report, ¬ line.IsWarning) ∧
    doSummarize (ε := ε) records =
      .ok ([.totalRecords records.length, .distinctNames (collectNames records [])] ++
        warnings (collectNames records []) records 2 ++ [.initialTimestamp first] ++ report) := by
  have hpos := List.length_pos_iff.2 hne
  have hnames := collectNames_ne_nil hne
  obtain ⟨report, hreport, hno⟩ :=
    reportInterval_ok (ε := ε) records (List.length_pos_iff.2 hnames)
  have hcheck : checkRecords (ε := ε) (collectNames records []) ⟨0, none⟩ records =
      .ok (warnings (collectNames records []) records 2) :=
    checkRecords_eq hnames [] records rfl (by simp)
  refine ⟨records[0].now, report, hreport, hno, ?_⟩
  unfold doSummarize
  rw [if_neg (Nat.ne_of_gt hpos)]
  simp only []
  rw [hcheck, ok_bind, index_ok (List.getElem?_eq_getElem hpos), ok_bind, hreport, ok_bind,
    pure_eq_ok]

theorem isWarning_of_mem {shift : Nat} {line : SummaryLine}
    (h : line ∈ warnings names records shift) : line.IsWarning := by
  obtain ⟨⟨x, i⟩, -, h⟩ := List.mem_flatMap.1 h
  rcases List.mem_append.1 h with h | h
  · unfold timestampWarningAt at h
    split at h
    · rw [List.mem_singleton.1 (List.mem_ite_nil_right.1 h).2]
      trivial
    · cases h
  · unfold nameWarningAt at h
    split at h
    · rw [List.mem_singleton.1 (List.mem_ite_nil_right.1 h).2]
      trivial
    · cases h

theorem doSummarize_lines (hne : records ≠ []) {lines : List SummaryLine}
    (h : doSummarize (ε := ε) records = .ok lines) :
    lines[1]? = some (.distinctNames (collectNames records [])) ∧
      lines.filter (·.IsWarning) = warnings (collectNames records []) records 2 := by
  obtain ⟨first, report, -, hno, hlines⟩ := doSummarize_eq (ε := ε) hne
  rw [hlines, Except.ok.injEq] at h
  have hwarn : (warnings (collectNames records []) records 2).filter (·.IsWarning) =
      warnings (collectNames records []) records 2 :=
    List.filter_eq_self.2 fun line hl => decide_eq_true (isWarning_of_mem hl)
  have hreport : report.filter (·.IsWarning) = [] :=
    List.filter_eq_nil_iff.2 fun line hl => by simpa using hno line hl
  have hhead : [SummaryLine.totalRecords records.length,
      SummaryLine.distinctNames (collectNames records [])].filter (·.IsWarning) = [] := rfl
  have htime : [SummaryLine.initialTimestamp first].filter (·.IsWarning) = [] := rfl
  refine ⟨by rw [← h]; rfl, ?_⟩
  rw [← h, List.filter_append, List.filter_append, List.filter_append, hhead, hwarn, htime, hreport,
    List.append_nil, List.append_nil, List.nil_append]

/-- No warning is printed when there is none to print. -/
theorem noWarning_iff (hne : records ≠ []) {lines : List SummaryLine}
    (h : doSummarize (ε := ε) records = .ok lines) :
    (∀ line ∈ lines, ¬ line.IsWarning) ↔ warnings (collectNames records []) records 2 = [] := by
  rw [← (doSummarize_lines hne h).2, List.filter_eq_nil_iff]
  simp only [decide_eq_true_eq]

/-! ## Their numbers -/

theorem nameWarningAt_eq_nil_iff (hne : names ≠ []) {shift i : Nat} {x : HistRecord} :
    nameWarningAt names shift i x = [] ↔ names[i % names.length]? = some x.name := by
  obtain ⟨expected, hexp⟩ : ∃ expected, names[i % names.length]? = some expected :=
    ⟨_, List.getElem?_eq_getElem (Nat.mod_lt _ (List.length_pos_iff.2 hne))⟩
  unfold nameWarningAt
  rw [hexp, Option.some_inj]
  simp

theorem nameWarningAt_inj (hne : names ≠ []) {i : Nat} {x : HistRecord} :
    nameWarningAt names 2 i x = nameWarningAt names 1 i x ↔
      names[i % names.length]? = some x.name := by
  obtain ⟨expected, hexp⟩ : ∃ expected, names[i % names.length]? = some expected :=
    ⟨_, List.getElem?_eq_getElem (Nat.mod_lt _ (List.length_pos_iff.2 hne))⟩
  unfold nameWarningAt
  rw [hexp, Option.some_inj]
  by_cases h : expected = x.name <;> simp [h]

theorem length_nameWarningAt (shift shift' i : Nat) (x : HistRecord) :
    (nameWarningAt names shift i x).length = (nameWarningAt names shift' i x).length := by
  unfold nameWarningAt
  split
  · split <;> rfl
  · rfl

theorem warnings_inj (hne : names ≠ []) : warnings names records 2 = warnings names records 1 ↔
    ∀ i x, records[i]? = some x → names[i % names.length]? = some x.name := by
  unfold warnings
  rw [Groups.flatMap_inj fun a _ => by
    simp only [warningsAt, List.length_append, length_nameWarningAt 2 1]]
  simp only [Prod.forall, List.mem_zipIdx_iff_getElem?, warningsAt, List.append_cancel_left_eq,
    nameWarningAt_inj hne]
  exact forall_comm

/-- **Every warning has the number of its record exactly when** the records go through a list of
distinct names in order, so that there is no name warning. -/
theorem warnsAtRecords_iff (hne : records ≠ []) :
    WarnsAtRecords records ↔ ∃ names, RepeatsNames names records := by
  have hnames := collectNames_ne_nil hne
  have hmain : WarnsAtRecords records ↔
      warnings (collectNames records []) records 2 =
        warnings (collectNames records []) records 1 := by
    obtain ⟨first, report, -, -, hlines⟩ := doSummarize_eq (ε := Empty) hne
    refine ⟨?_, fun h => ⟨_, _, hlines, (doSummarize_lines hne hlines).1, ?_⟩⟩
    · rintro ⟨lines, names, h1, h2, h3⟩
      obtain ⟨h4, h5⟩ := doSummarize_lines hne h1
      rw [h2, Option.some_inj, SummaryLine.distinctNames.injEq] at h4
      rw [← h5, h3, h4]
    · rw [← h]
      exact (doSummarize_lines hne hlines).2
  rw [hmain, warnings_inj hnames]
  refine ⟨fun h => ⟨_, hnames, collectNames_nodup records List.nodup_nil, h⟩, ?_⟩
  rintro ⟨names, h⟩
  exact (h.guess hne).name

/-- Second `s` of the first day of the epoch. -/
def timeAt (s : Nat) : DateTime :=
  ⟨(s % 86400 * 1000000000 : Nat), by unfold minDateTime maxDateTime; omega⟩

/-- A record of one operation of 1 ns, for the second that ends `s` seconds after the epoch. -/
def recordAt (name : String) (s : Nat) : HistRecord :=
  ⟨name, 1000000000, timeAt s, ⟨1, 2, 0, [0, 1, 0]⟩⟩

/-- Three records of two names, the second with a timestamp of its own. -/
theorem warnsAtRecords_iff_three :
    WarnsAtRecords [recordAt "read" 0, recordAt "write" 1, recordAt "read" 2] ↔
      ∃ names, RepeatsNames names
        [recordAt "read" 0, recordAt "write" 1, recordAt "read" 2] :=
  warnsAtRecords_iff (by decide)

/-- The fourth record has another name than the second, and the warning says record 5. -/
theorem warnsAtRecords_fails : ¬ WarnsAtRecords [recordAt "read" 0, recordAt "write" 0,
    recordAt "read" 1, recordAt "delete" 1] := by
  have hrun : doSummarize (ε := Empty) [recordAt "read" 0, recordAt "write" 0,
      recordAt "read" 1, recordAt "delete" 1] =
        .ok [.totalRecords 4, .distinctNames ["read", "write"], .nameWarning 5 "write" "delete",
          .initialTimestamp (timeAt 0), .expectedTimestamps 2, .expectedInterval 500,
          .secondTimestamp (timeAt 1) 1000, .finalTimestamp (timeAt 1) 1000] := by
    decide +kernel
  have hwarn : warnings ["read", "write"] [recordAt "read" 0, recordAt "write" 0,
      recordAt "read" 1, recordAt "delete" 1] 1 = [.nameWarning 4 "write" "delete"] := by
    decide +kernel
  rintro ⟨lines, names, h1, h2, h3⟩
  cases hrun.symm.trans h1
  cases h2
  rw [hwarn] at h3
  revert h3
  decide +kernel

end Chist
