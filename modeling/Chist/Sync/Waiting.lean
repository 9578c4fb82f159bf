import Chist.Sync.Conserve

/-!
# What a refresh waits for

`truth.recorders` counts the active recorders (`Counted`), so no decrement of it underflows. A
refresh waits for as many histograms as it counted there. As long as no recorder goes idle between
the count and the phase shift, there is always a recorder whose next write or send lets a waiting
refresh go on (`refresh_never_stuck`). A recorder that goes idle just there has no reason to send
and is waited for in vain: the lock is dropped before the phase is bumped.
-/

set_option autoImplicit false

namespace Chist.Sync

variable {H W : Type} {ops : Ops H W}

/-! ## Counts of recorders -/

/-- `truth.recorders` counts the recorder. -/
def Recorder.active (r : Recorder H) : Bool :=
  match r.pc with
  | .ready | .wrote | .phasing _ => true
  | _ => false

/-- The recorder holds the lock. -/
def Recorder.locking (r : Recorder H) : Bool :=
  match r.pc with
  | .idling _ => true
  | _ => false

/-- The recorder is to send, at its next write or in the call it is in. -/
def Recorder.owes (phase : Nat) (r : Recorder H) : Bool :=
  match r.pc with
  | .ready | .wrote => decide (r.lastPhase ≠ phase)
  | .phasing _ | .idling _ => true
  | _ => false

theorem countP_set {l : List (Recorder H)} {i : Nat} {r : Recorder H} (h : l[i]? = some r)
    (r' : Recorder H) (p : Recorder H → Bool) :
    (l.set i r').countP p + (p r).toNat = l.countP p + (p r').toNat := by
  obtain ⟨as, bs, hl, hset⟩ := set_split h r'
  rw [hset, hl, List.countP_append, List.countP_append, List.countP_cons, List.countP_cons]
  cases p r <;> cases p r' <;> simp <;> omega

theorem countP_pos_of_mem {l : List (Recorder H)} {p : Recorder H → Bool} {r : Recorder H}
    (hmem : r ∈ l) (hr : p r = true) : 0 < l.countP p :=
  List.countP_pos_iff.2 ⟨r, hmem, hr⟩

/-- What is counted is there, and no phase is ahead of the shared one. -/
structure Counted (s : State H) : Prop where
  recorders : s.shared.recorders = s.handles.countP Recorder.active
  locked : s.handles.countP Recorder.locking = s.shared.locked.toNat
  lastPhase : ∀ r ∈ s.handles, r.lastPhase ≤ s.shared.phase
  loaded : ∀ r ∈ s.handles, ∀ phase, r.pc = .phasing phase ∨ r.pc = .idling phase →
    phase ≤ s.shared.phase

theorem counted_from (h : H) : Counted (State.from h) :=
  ⟨rfl, rfl, fun _ hr => (List.not_mem_nil hr).elim, fun _ hr => (List.not_mem_nil hr).elim⟩

/-- What an event of a recorder does to the counts. -/
theorem Recorder.Event.counts {x x' : Shared H} {r r' : Recorder H} {a : RecorderAction W}
    (he : r.Event ops x a x' r') (hlocking : r.locking = true → x.locked = true) :
    x'.recorders + r.active.toNat = x.recorders + r'.active.toNat ∧
      x'.locked.toNat + r.locking.toNat = x.locked.toNat + r'.locking.toNat ∧
      x'.phase = x.phase := by
  cases he with
  | write hpc | stay hpc | load hpc | send hpc =>
    simp [Recorder.active, Recorder.locking, hpc]
  | idle hpc hlock hpos | idling hpc hlock hpos | drop hpc hlock hpos =>
    simp [Recorder.active, Recorder.locking, hpc, hlock]
    omega
  | idleSend hpc =>
    have hlock := hlocking (by simp [Recorder.locking, hpc])
    simp [Recorder.active, Recorder.locking, hpc, hlock]
  | activate hpc hlock => simp [Recorder.active, Recorder.locking, hpc, hlock]

theorem Recorder.Event.phases {x x' : Shared H} {r r' : Recorder H} {a : RecorderAction W}
    (he : r.Event ops x a x' r') (hlast : r.lastPhase ≤ x.phase)
    (hloaded : ∀ phase, r.pc = .phasing phase ∨ r.pc = .idling phase → phase ≤ x.phase) :
    r'.lastPhase ≤ x.phase ∧
      ∀ phase, r'.pc = .phasing phase ∨ r'.pc = .idling phase → phase ≤ x.phase := by
  cases he with
  | send hpc => exact ⟨hloaded _ (.inl hpc), by simp⟩
  | idleSend hpc => exact ⟨hloaded _ (.inr hpc), by simp⟩
  | write | stay | drop => exact ⟨hlast, by simp⟩
  | load | idling => exact ⟨hlast, by simp⟩
  | idle | activate => exact ⟨Nat.le_refl _, by simp⟩

/-- **One step keeps the counts.** -/
theorem counted_step {s s' : State H} {a : Action W} (h : step ops s a = some s')
    (hc : Counted s) : Counted s' := by
  have hnew : ∀ {loc : H} {phase : Nat}, phase ≤ s.shared.phase →
      Counted { s with shared := { s.shared with recorders := s.shared.recorders + 1 },
                       handles := s.handles ++ [⟨loc, phase, .ready⟩] } := by
    intro loc phase hphase
    refine ⟨?_, ?_, ?_, ?_⟩
    · simp [hc.recorders, Recorder.active]
    · simpa [Recorder.locking] using hc.locked
    · simpa [or_imp, forall_and] using ⟨hc.lastPhase, hphase⟩
    · intro r hr
      rcases List.mem_append.1 hr with hr | hr
      · exact hc.loaded r hr
      · rw [List.mem_singleton.1 hr]
        simp
  cases step_event h with
  | recorder hr he =>
    rename_i i a r r' x
    have hmem := List.mem_of_getElem? hr
    have hlocking : r.locking = true → s.shared.locked = true := fun hk => by
      have hpos := countP_pos_of_mem hmem hk
      rw [hc.locked] at hpos
      cases hlock : s.shared.locked with
      | true => rfl
      | false => simp [hlock] at hpos
    obtain ⟨h1, h2, h3⟩ := he.counts hlocking
    obtain ⟨h4, h5⟩ := he.phases (hc.lastPhase r hmem) (hc.loaded r hmem)
    have hcount := countP_set hr r' Recorder.active
    have hlocks := countP_set hr r' Recorder.locking
    refine ⟨?_, ?_, ?_, ?_⟩
    · have := hc.recorders
      simp only
      omega
    · have := hc.locked
      simp only
      omega
    · intro q hq
      rw [h3]
      rcases List.mem_or_eq_of_mem_set hq with hq | rfl
      · exact hc.lastPhase q hq
      · exact h4
    · intro q hq
      rw [h3]
      rcases List.mem_or_eq_of_mem_set hq with hq | rfl
      · exact hc.loaded q hq
      · exact h5
  | clone hr hpc hlock hloc => exact hnew (hc.lastPhase _ (List.mem_of_getElem? hr))
  | newRecorder hpc hlock hloc => exact hnew (Nat.le_refl _)
  | refresh hpc => exact ⟨hc.recorders, hc.locked, hc.lastPhase, hc.loaded⟩
  | timeout hpc hlt => exact ⟨hc.recorders, hc.locked, hc.lastPhase, hc.loaded⟩
  | turn he =>
    cases he with
    | shift hpc =>
      exact ⟨hc.recorders, hc.locked, fun r hr => Nat.le_succ_of_le (hc.lastPhase r hr),
        fun r hr phase hphase => Nat.le_succ_of_le (hc.loaded r hr phase hphase)⟩
    | _ => exact ⟨hc.recorders, hc.locked, hc.lastPhase, hc.loaded⟩

theorem counted_run {s s' : State H} {actions : List (Action W)}
    (h : run ops s actions = some s') (hc : Counted s) : Counted s' := by
  induction actions generalizing s with
  | nil =>
    obtain rfl := Option.some.inj h
    exact hc
  | cons a actions ih =>
    obtain ⟨s1, hstep, hrun⟩ := Option.bind_eq_some_iff.1 h
    exact ih hrun (counted_step hstep hc)

/-! ## Demand -/

/-- No recorder goes idle between the count and the phase shift. -/
def Calm (s : State H) (a : Action W) : Prop :=
  ∀ i n, a = .recorder i .idle → s.reader ≠ .counted n

/-- A step that `ok` allows. -/
def Steps (ops : Ops H W) (ok : State H → Action W → Prop) (s s' : State H) : Prop :=
  ∃ a, ok s a ∧ step ops s a = some s'

theorem reach_of_run {s s' : State H} {actions : List (Action W)}
    (h : run ops s actions = some s') (hidle : ∀ a ∈ actions, ∀ i, a ≠ .recorder i .idle) :
    Relation.ReflTransGen (Steps ops Calm) s s' := by
  induction actions generalizing s with
  | nil =>
    obtain rfl := Option.some.inj h
    exact .refl
  | cons a actions ih =>
    obtain ⟨ha, hidle⟩ := List.forall_mem_cons.1 hidle
    obtain ⟨s1, hstep, hrun⟩ := Option.bind_eq_some_iff.1 h
    exact .head ⟨a, fun i _ heq => absurd heq (ha i), hstep⟩ (ih hrun hidle)

/-- The refresh does not wait for more histograms than are in the channel or to be sent. -/
def Met (s : State H) : Prop :=
  match s.reader with
  | .counted n => n ≤ s.shared.channel.length + s.handles.countP Recorder.active
  | .waiting n k =>
    n ≤ k + s.shared.channel.length + s.handles.countP (Recorder.owes s.shared.phase)
  | _ => True

/-- A recorder that owes a histogram owes it until it has sent. -/
theorem Recorder.Event.owes {x x' : Shared H} {r r' : Recorder H} {a : RecorderAction W}
    (he : r.Event ops x a x' r') : x'.phase = x.phase ∧
      x.channel.length + (r.owes x.phase).toNat ≤ x'.channel.length + (r'.owes x.phase).toNat := by
  cases he with
  | write hpc hloc => simp [Recorder.owes, hpc]
  | stay hpc hphase => simp [Recorder.owes, hpc, hphase]
  | load hpc hphase => simp [Recorder.owes, hpc, Bool.toNat_le]
  | send hpc hloc => simp [Recorder.owes, hpc]
  | idle hpc hlock hpos hphase => simp [Recorder.owes, hpc, hphase]
  | idling hpc hlock hpos hphase => simp [Recorder.owes, hpc, Bool.toNat_le]
  | idleSend hpc hloc => simp [Recorder.owes, hpc]
  | activate hpc hlock => simp [Recorder.owes, hpc]
  | drop hpc hlock hpos hloc => simp [Recorder.owes, hpc, Bool.toNat_le]

/-- An active recorder stays so, goes idle or sends. -/
theorem Recorder.Event.active {x x' : Shared H} {r r' : Recorder H} {a : RecorderAction W}
    (he : r.Event ops x a x' r') (ha : a ≠ .idle) :
    x.channel.length + r.active.toNat ≤ x'.channel.length + r'.active.toNat := by
  cases he with
  | idle | idling => exact absurd rfl ha
  | write hpc | stay hpc | load hpc | send hpc | activate hpc | idleSend hpc | drop hpc =>
    simp [Recorder.active, hpc]

theorem met_step {s s' : State H} {a : Action W} (h : step ops s a = some s') (hcalm : Calm s a)
    (hc : Counted s) (hm : Met s) : Met s' := by
  unfold Met at hm ⊢
  cases step_event h with
  | recorder hr he =>
    rename_i i a r r' x
    obtain ⟨hphase, howes⟩ := he.owes
    have hcount := countP_set hr r' (Recorder.owes s.shared.phase)
    cases hpc : s.reader with
    | counted n =>
      have hactive := he.active fun ha => hcalm i n (ha ▸ rfl) hpc
      have hcount := countP_set hr r' Recorder.active
      simp only [hpc] at hm ⊢
      omega
    | waiting n k =>
      simp only [hpc, hphase] at hm ⊢
      omega
    | _ => trivial
  | clone hr hpc hlock hloc =>
    cases hreader : s.reader with
    | counted n =>
      simp only [hreader, List.countP_append] at hm ⊢
      omega
    | waiting n k =>
      simp only [hreader, List.countP_append] at hm ⊢
      omega
    | _ => trivial
  | newRecorder hpc hlock hloc => simp only [hpc]
  | refresh hpc => trivial
  | timeout hpc hlt => trivial
  | turn he =>
    cases he with
    | merge hchannel hadd hafter =>
      rcases hafter with ⟨-, rfl⟩ | ⟨n, k, hpc, -, rfl⟩ | ⟨-, rfl⟩
      · trivial
      · simp only [hpc, hchannel, List.length_cons] at hm ⊢
        omega
      · trivial
    | count hpc hlock =>
      simp only [hc.recorders]
      omega
    | shift hpc =>
      -- every active recorder is behind the new phase
      have hle : s.handles.countP Recorder.active ≤
          s.handles.countP (Recorder.owes (s.shared.phase + 1)) := by
        refine List.countP_mono_left fun r hr hactive => ?_
        have hlast := hc.lastPhase r hr
        cases hr : r.pc <;> simp [Recorder.active, Recorder.owes, hr] at hactive ⊢ <;> omega
      simp only [hpc] at hm ⊢
      omega
    | _ => trivial

/-! ## Never stuck -/

/-- Some events of recorder `i` alone after which the reader has its next event. -/
def Unblocks (ops : Ops H W) (s : State H) (i : Nat) : Prop :=
  ∃ actions s1 s2, (∀ a ∈ actions, ∃ b, a = .recorder i b) ∧ run ops s actions = some s1 ∧
    turn ops s1 = some s2

theorem Unblocks.step {s s' : State H} {i : Nat} {b : RecorderAction W}
    (h : step ops s (.recorder i b) = some s') (hu : Unblocks ops s' i) : Unblocks ops s i := by
  obtain ⟨actions, s1, s2, hi, hrun, hturn⟩ := hu
  refine ⟨.recorder i b :: actions, s1, s2, ?_, ?_, hturn⟩
  · exact List.forall_mem_cons.2 ⟨⟨b, rfl⟩, hi⟩
  · rw [run, List.foldlM_cons, h]
    exact hrun

theorem step_recorder {s : State H} {i : Nat} {r r' : Recorder H} {b : RecorderAction W}
    {x : Shared H} (hr : s.handles[i]? = some r) (h : r.step ops s.shared b = some (x, r')) :
    step ops s (.recorder i b) =
      some { s with shared := x, handles := s.handles.set i r' } := by
  simp only [step, hr, Option.bind_eq_bind, Option.bind_some, h]
  rfl

section
variable {M : Type} [AddCommMonoid M] {Good : H → Prop} {content : H → M} {gain : W → H → M}
  (hl : Lawful ops Good content gain)
include hl

theorem merge_some {s : State H} (hs : s.Sound Good) (hne : s.shared.channel ≠ [])
    (after : ReaderPc) (empty : Option (State H)) : ∃ s', merge ops s after empty = some s' := by
  obtain ⟨h, channel, hchannel⟩ := List.exists_cons_of_ne_nil hne
  have hgood := hs.channel h (by rw [hchannel]; exact List.mem_cons_self)
  obtain ⟨merged, hadd, -⟩ := hl.add hs.merged hgood
  refine ⟨{ s with merged := merged, shared := { s.shared with channel := channel },
                   reader := after }, ?_⟩
  simp only [merge, hchannel, hadd, Option.bind_eq_bind, Option.bind_some]
  rfl

/-- Only a held lock and an empty channel hold the reader up. -/
theorem turn_some {s : State H} (hs : s.Sound Good) (hreader : s.reader ≠ .outside)
    (hlock : s.reader = .drained → s.shared.locked = false)
    (hchannel : ∀ n k, s.reader = .waiting n k → k < n → s.shared.channel ≠ []) :
    ∃ s', turn ops s = some s' := by
  unfold turn
  cases hpc : s.reader with
  | outside => exact absurd hpc hreader
  | draining =>
    by_cases hnil : s.shared.channel = []
    · simp [merge, hnil]
    · exact merge_some hl hs hnil _ _
  | drained => simp [hlock hpc]
  | counted n => simp
  | waiting n k =>
    by_cases hlt : k < n
    · simp only [hlt, if_true]
      exact merge_some hl hs (hchannel n k hpc hlt) _ _
    · simp [hlt]
  | gobbling =>
    by_cases hnil : s.shared.channel = []
    · simp [merge, hnil]
    · exact merge_some hl hs hnil _ _

theorem unblocks_of_phasing {s : State H} {i n k : Nat} {r : Recorder H} (hs : s.Sound Good)
    (hr : s.handles[i]? = some r) {phase : Nat} (hpc : r.pc = .phasing phase)
    (hreader : s.reader = .waiting n k) : Unblocks ops s i := by
  obtain ⟨loc, hloc, -⟩ := hl.newFrom (hs.handles r (List.mem_of_getElem? hr))
  have hsend : r.step ops s.shared .send = some
      ({ s.shared with channel := s.shared.channel ++ [r.loc] }, ⟨loc, phase, .ready⟩) := by
    simp [Recorder.step, hpc, shed, hloc]
  have hstep := step_recorder hr hsend
  have hs' := (step_total hl hstep hs).1
  obtain ⟨s2, hturn⟩ := turn_some hl hs' (by simp [hreader]) (by simp [hreader]) (by simp)
  exact Unblocks.step hstep ⟨[], _, s2, by simp, rfl, hturn⟩

theorem unblocks_of_wrote {s : State H} {i n k : Nat} {r : Recorder H} (hs : s.Sound Good)
    (hr : s.handles[i]? = some r) (hpc : r.pc = .wrote) (hphase : s.shared.phase ≠ r.lastPhase)
    (hreader : s.reader = .waiting n k) : Unblocks ops s i := by
  have hload : r.step ops s.shared .load =
      some (s.shared, { r with pc := .phasing s.shared.phase }) := by
    simp [Recorder.step, hpc, hphase]
  have hstep := step_recorder hr hload
  have hlen : i < s.handles.length := (List.getElem?_eq_some_iff.1 hr).1
  exact Unblocks.step hstep (unblocks_of_phasing hl (step_total hl hstep hs).1
    (List.getElem?_set_self hlen) rfl hreader)

theorem unblocks_of_ready {s : State H} {i n k : Nat} {r : Recorder H} (hs : s.Sound Good)
    (hr : s.handles[i]? = some r) (hpc : r.pc = .ready) (hphase : s.shared.phase ≠ r.lastPhase)
    (hreader : s.reader = .waiting n k) (w : W) : Unblocks ops s i := by
  obtain ⟨loc, hloc, -⟩ := hl.write (hs.handles r (List.mem_of_getElem? hr)) w
  have hwrite : r.step ops s.shared (.write w) =
      some (s.shared, { r with loc := loc, pc := .wrote }) := by
    simp [Recorder.step, hpc, hloc]
  have hstep := step_recorder hr hwrite
  have hlen : i < s.handles.length := (List.getElem?_eq_some_iff.1 hr).1
  exact Unblocks.step hstep (unblocks_of_wrote hl (step_total hl hstep hs).1
    (List.getElem?_set_self hlen) rfl hphase hreader)

theorem unblocks_of_idling {s : State H} {i : Nat} {r : Recorder H} (hs : s.Sound Good)
    (hr : s.handles[i]? = some r) {phase : Nat} (hpc : r.pc = .idling phase)
    (hreader : s.reader ≠ .outside) : Unblocks ops s i := by
  obtain ⟨loc, hloc, -⟩ := hl.newFrom (hs.handles r (List.mem_of_getElem? hr))
  have hsend : r.step ops s.shared .idleSend = some
      ({ s.shared with channel := s.shared.channel ++ [r.loc], locked := false },
        ⟨loc, phase, .idle⟩) := by
    simp [Recorder.step, hpc, shed, hloc]
  have hstep := step_recorder hr hsend
  have hs' := (step_total hl hstep hs).1
  obtain ⟨s2, hturn⟩ := turn_some hl hs' hreader (by simp) (by simp)
  exact Unblocks.step hstep ⟨[], _, s2, by simp, rfl, hturn⟩

theorem reach_invariants {h : H} (hgood : Good h) {s : State H}
    (hs : Relation.ReflTransGen (Steps ops Calm) (State.from h) s) :
    s.Sound Good ∧ Counted s ∧ Met s := by
  induction hs with
  | refl => exact ⟨⟨hgood, by simp [State.from], by simp [State.from]⟩, counted_from h, trivial⟩
  | tail _ hstep ih =>
    obtain ⟨a, hcalm, hstep⟩ := hstep
    obtain ⟨hs, hc, hm⟩ := ih
    exact ⟨(step_total hl hstep hs).1, counted_step hstep hc, met_step hstep hcalm hc hm⟩

/-- **A refresh is never stuck**: as long as no recorder goes idle between the count and the phase
shift, the reader can go on at once, or after the next write or send of one recorder. -/
theorem refresh_never_stuck {h : H} (hgood : Good h) {s : State H}
    (hs : Relation.ReflTransGen (Steps ops Calm) (State.from h) s)
    (hreader : s.reader ≠ .outside) (w : W) : ∃ i, Unblocks ops s i := by
  obtain ⟨hsound, hc, hm⟩ := reach_invariants hl hgood hs
  have hindex : ∀ {p : Recorder H → Bool}, 0 < s.handles.countP p →
      ∃ (i : Nat) (r : Recorder H), s.handles[i]? = some r ∧ p r = true := by
    intro p hpos
    obtain ⟨r, hr, hp⟩ := List.countP_pos_iff.1 hpos
    obtain ⟨i, hi⟩ := List.mem_iff_getElem?.1 hr
    exact ⟨i, r, hi, hp⟩
  by_cases hlock : s.reader = .drained ∧ s.shared.locked = true
  · obtain ⟨i, r, hr, hp⟩ := hindex (p := Recorder.locking) (by
      rw [hc.locked, hlock.2]
      exact Nat.one_pos)
    cases hpc : r.pc with
    | idling phase => exact ⟨i, unblocks_of_idling hl hsound hr hpc hreader⟩
    | _ => simp [Recorder.locking, hpc] at hp
  by_cases hempty : ∃ n k, s.reader = .waiting n k ∧ k < n ∧ s.shared.channel = []
  · obtain ⟨n, k, hwait, hlt, hnil⟩ := hempty
    simp only [Met, hwait, hnil, List.length_nil] at hm
    obtain ⟨i, r, hr, hp⟩ := hindex (p := Recorder.owes s.shared.phase) (by omega)
    refine ⟨i, ?_⟩
    cases hpc : r.pc with
    | ready =>
      simp only [Recorder.owes, hpc, decide_eq_true_eq] at hp
      exact unblocks_of_ready hl hsound hr hpc (Ne.symm hp) hwait w
    | wrote =>
      simp only [Recorder.owes, hpc, decide_eq_true_eq] at hp
      exact unblocks_of_wrote hl hsound hr hpc (Ne.symm hp) hwait
    | phasing phase => exact unblocks_of_phasing hl hsound hr hpc hwait
    | idling phase => exact unblocks_of_idling hl hsound hr hpc hreader
    | idle => simp [Recorder.owes, hpc] at hp
    | dropped => simp [Recorder.owes, hpc] at hp
  · obtain ⟨s2, hturn⟩ := turn_some hl hsound hreader
      (fun hd => by
        cases hlocked : s.shared.locked with
        | false => rfl
        | true => exact absurd ⟨hd, hlocked⟩ hlock)
      fun n k hw hlt hnil => hempty ⟨n, k, hw, hlt, hnil⟩
    exact ⟨0, [], s, s2, by simp, rfl, hturn⟩

end

-- a recorder that goes idle between the count and the shift
example : (run tallies (State.from 0) [.newRecorder, .refresh, .turn, .turn, .recorder 0 .idle,
    .turn]).map (fun s => (s.reader, s.shared.channel, s.handles.map (·.owes s.shared.phase))) =
      some (.waiting 1 0, [], [false]) := by decide

end Chist.Sync
