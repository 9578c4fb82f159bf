import Chist.Sync.Protocol

/-!
# What a step does

One constructor an event (`Event`), with what it needs and what it changes; every step is one of
them (`step_event`).
-/

set_option autoImplicit false

namespace Chist.Sync

variable {H W : Type} {ops : Ops H W}

/-- What an event of its thread does to a recorder, and to what is shared. -/
inductive Recorder.Event (ops : Ops H W) (x : Shared H) (r : Recorder H) :
    RecorderAction W → Shared H → Recorder H → Prop
  | write {w : W} {loc : H} (hpc : r.pc = .ready) (hloc : ops.write w r.loc = some loc) :
    Event ops x r (.write w) x { r with loc := loc, pc := .wrote }
  | stay (hpc : r.pc = .wrote) (hphase : x.phase = r.lastPhase) :
    Event ops x r .load x { r with pc := .ready }
  | load (hpc : r.pc = .wrote) (hphase : x.phase ≠ r.lastPhase) :
    Event ops x r .load x { r with pc := .phasing x.phase }
  | send {phase : Nat} {loc : H} (hpc : r.pc = .phasing phase)
    (hloc : ops.newFrom r.loc = some loc) :
    Event ops x r .send { x with channel := x.channel ++ [r.loc] } ⟨loc, phase, .ready⟩
  | idle (hpc : r.pc = .ready) (hlock : x.locked = false) (hpos : 0 < x.recorders)
    (hphase : x.phase = r.lastPhase) :
    Event ops x r .idle { x with recorders := x.recorders - 1 } ⟨r.loc, x.phase, .idle⟩
  | idling (hpc : r.pc = .ready) (hlock : x.locked = false) (hpos : 0 < x.recorders)
    (hphase : x.phase ≠ r.lastPhase) :
    Event ops x r .idle { x with recorders := x.recorders - 1, locked := true }
      { r with pc := .idling x.phase }
  | idleSend {phase : Nat} {loc : H} (hpc : r.pc = .idling phase)
    (hloc : ops.newFrom r.loc = some loc) :
    Event ops x r .idleSend { x with channel := x.channel ++ [r.loc], locked := false }
      ⟨loc, phase, .idle⟩
  | activate (hpc : r.pc = .idle) (hlock : x.locked = false) :
    Event ops x r .activate { x with recorders := x.recorders + 1 } ⟨r.loc, x.phase, .ready⟩
  | drop {loc : H} (hpc : r.pc = .ready) (hlock : x.locked = false) (hpos : 0 < x.recorders)
    (hloc : ops.newFrom r.loc = some loc) :
    Event ops x r .drop
      { x with recorders := x.recorders - 1, channel := x.channel ++ [r.loc] }
      { r with loc := loc, pc := .dropped }

/-- What an event of the reader's thread does. -/
inductive ReaderEvent (ops : Ops H W) (s : State H) : State H → Prop
  | merge {h merged : H} {channel : List H} {after : ReaderPc}
    (hchannel : s.shared.channel = h :: channel) (hadd : ops.add s.merged h = some merged)
    (hafter : (s.reader = .draining ∧ after = .draining) ∨ (∃ n k, s.reader = .waiting n k ∧
      k < n ∧ after = .waiting n (k + 1)) ∨ (s.reader = .gobbling ∧ after = .gobbling)) :
    ReaderEvent ops s { s with merged := merged, shared := { s.shared with channel := channel },
                               reader := after }
  | drained (hpc : s.reader = .draining) (hchannel : s.shared.channel = []) :
    ReaderEvent ops s { s with reader := .drained }
  | count (hpc : s.reader = .drained) (hlock : s.shared.locked = false) :
    ReaderEvent ops s { s with reader := .counted s.shared.recorders }
  | shift {n : Nat} (hpc : s.reader = .counted n) :
    ReaderEvent ops s { s with shared := { s.shared with phase := s.shared.phase + 1 },
                               reader := .waiting n 0 }
  | waited {n k : Nat} (hpc : s.reader = .waiting n k) (hle : n ≤ k) :
    ReaderEvent ops s { s with reader := .gobbling }
  | done (hpc : s.reader = .gobbling) (hchannel : s.shared.channel = []) :
    ReaderEvent ops s { s with reader := .outside }

/-- What a step does. -/
inductive Event (ops : Ops H W) (s : State H) : Action W → State H → Prop
  | recorder {i : Nat} {a : RecorderAction W} {r r' : Recorder H} {x : Shared H}
    (hr : s.handles[i]? = some r) (he : r.Event ops s.shared a x r') :
    Event ops s (.recorder i a) { s with shared := x, handles := s.handles.set i r' }
  | clone {i : Nat} {r : Recorder H} {loc : H} (hr : s.handles[i]? = some r)
    (hpc : r.pc = .ready ∨ r.pc = .idle) (hlock : s.shared.locked = false)
    (hloc : ops.newFrom r.loc = some loc) :
    Event ops s (.clone i)
      { s with shared := { s.shared with recorders := s.shared.recorders + 1 },
               handles := s.handles ++ [⟨loc, r.lastPhase, .ready⟩] }
  | newRecorder {loc : H} (hpc : s.reader = .outside) (hlock : s.shared.locked = false)
    (hloc : ops.newFrom s.merged = some loc) :
    Event ops s .newRecorder
      { s with shared := { s.shared with recorders := s.shared.recorders + 1 },
               handles := s.handles ++ [⟨loc, s.shared.phase, .ready⟩] }
  | refresh (hpc : s.reader = .outside) : Event ops s .refresh { s with reader := .draining }
  | turn {s' : State H} (he : ReaderEvent ops s s') : Event ops s .turn s'
  | timeout {n k : Nat} (hpc : s.reader = .waiting n k) (hlt : k < n) :
    Event ops s .timeout { s with reader := .gobbling }

theorem leave_eq_some {x x' : Shared H} (h : leave x = some x') :
    x.locked = false ∧ 0 < x.recorders ∧ x' = { x with recorders := x.recorders - 1 } := by
  unfold leave at h
  split at h
  · rename_i hc
    exact ⟨hc.1, hc.2, (Option.some.inj h).symm⟩
  · cases h

theorem join_eq_some {x x' : Shared H} (h : join x = some x') :
    x.locked = false ∧ x' = { x with recorders := x.recorders + 1 } := by
  unfold join at h
  split at h
  · rename_i hc
    exact ⟨hc, (Option.some.inj h).symm⟩
  · cases h

theorem shed_eq_some {x : Shared H} {r : Recorder H} {p : Shared H × Recorder H}
    (h : shed ops x r = some p) : ∃ loc, ops.newFrom r.loc = some loc ∧
      p = ({ x with channel := x.channel ++ [r.loc] }, { r with loc := loc }) := by
  obtain ⟨loc, hloc, h⟩ := Option.bind_eq_some_iff.1 h
  exact ⟨loc, hloc, (Option.some.inj h).symm⟩

theorem Recorder.step_event {x x' : Shared H} {r r' : Recorder H} {a : RecorderAction W}
    (h : r.step ops x a = some (x', r')) : r.Event ops x a x' r' := by
  cases a with
  | write w =>
    simp only [Recorder.step] at h
    split at h
    · rename_i hpc
      obtain ⟨loc, hloc, h⟩ := Option.bind_eq_some_iff.1 h
      obtain ⟨rfl, rfl⟩ := Prod.mk.inj (Option.some.inj h)
      exact .write hpc hloc
    · cases h
  | load =>
    simp only [Recorder.step] at h
    split at h
    · rename_i hpc
      obtain ⟨rfl, rfl⟩ := Prod.mk.inj (Option.some.inj h)
      by_cases hphase : x.phase = r.lastPhase
      · rw [if_neg (absurd hphase)]
        exact .stay hpc hphase
      · rw [if_pos hphase]
        exact .load hpc hphase
    · cases h
  | send =>
    simp only [Recorder.step] at h
    split at h
    · rename_i phase hpc
      obtain ⟨p, hp, h⟩ := Option.bind_eq_some_iff.1 h
      obtain ⟨loc, hloc, rfl⟩ := shed_eq_some hp
      obtain ⟨rfl, rfl⟩ := Prod.mk.inj (Option.some.inj h)
      exact .send hpc hloc
    · cases h
  | idle =>
    simp only [Recorder.step] at h
    split at h
    · rename_i hpc
      obtain ⟨y, hy, h⟩ := Option.bind_eq_some_iff.1 h
      obtain ⟨hlock, hpos, rfl⟩ := leave_eq_some hy
      by_cases hphase : x.phase = r.lastPhase
      · rw [if_neg (absurd hphase)] at h
        obtain ⟨rfl, rfl⟩ := Prod.mk.inj (Option.some.inj h)
        exact .idle hpc hlock hpos hphase
      · rw [if_pos hphase] at h
        obtain ⟨rfl, rfl⟩ := Prod.mk.inj (Option.some.inj h)
        exact .idling hpc hlock hpos hphase
    · cases h
  | idleSend =>
    simp only [Recorder.step] at h
    split at h
    · rename_i phase hpc
      obtain ⟨p, hp, h⟩ := Option.bind_eq_some_iff.1 h
      obtain ⟨loc, hloc, rfl⟩ := shed_eq_some hp
      obtain ⟨rfl, rfl⟩ := Prod.mk.inj (Option.some.inj h)
      exact .idleSend hpc hloc
    · cases h
  | activate =>
    simp only [Recorder.step] at h
    split at h
    · rename_i hpc
      obtain ⟨y, hy, h⟩ := Option.bind_eq_some_iff.1 h
      obtain ⟨hlock, rfl⟩ := join_eq_some hy
      obtain ⟨rfl, rfl⟩ := Prod.mk.inj (Option.some.inj h)
      exact .activate hpc hlock
    · cases h
  | drop =>
    simp only [Recorder.step] at h
    split at h
    · rename_i hpc
      obtain ⟨y, hy, h⟩ := Option.bind_eq_some_iff.1 h
      obtain ⟨hlock, hpos, rfl⟩ := leave_eq_some hy
      obtain ⟨p, hp, h⟩ := Option.bind_eq_some_iff.1 h
      obtain ⟨loc, hloc, rfl⟩ := shed_eq_some hp
      obtain ⟨rfl, rfl⟩ := Prod.mk.inj (Option.some.inj h)
      exact .drop hpc hlock hpos hloc
    · cases h

theorem merge_event {s s' : State H} {after : ReaderPc} {empty : Option (State H)}
    (hafter : (s.reader = .draining ∧ after = .draining) ∨ (∃ n k, s.reader = .waiting n k ∧
      k < n ∧ after = .waiting n (k + 1)) ∨ (s.reader = .gobbling ∧ after = .gobbling))
    (h : merge ops s after empty = some s') :
    ReaderEvent ops s s' ∨ (s.shared.channel = [] ∧ empty = some s') := by
  unfold merge at h
  cases hchannel : s.shared.channel with
  | nil =>
    rw [hchannel] at h
    exact .inr ⟨rfl, h⟩
  | cons x channel =>
    rw [hchannel] at h
    obtain ⟨merged, hadd, h⟩ := Option.bind_eq_some_iff.1 h
    obtain rfl := Option.some.inj h
    exact .inl (.merge hchannel hadd hafter)

theorem turn_event {s s' : State H} (h : turn ops s = some s') : ReaderEvent ops s s' := by
  unfold turn at h
  split at h
  · cases h
  · rename_i hpc
    rcases merge_event (.inl ⟨hpc, rfl⟩) h with he | ⟨hchannel, h⟩
    · exact he
    · obtain rfl := Option.some.inj h
      exact .drained hpc hchannel
  · rename_i hpc
    split at h
    · rename_i hlock
      obtain rfl := Option.some.inj h
      exact .count hpc hlock
    · cases h
  · rename_i n hpc
    obtain rfl := Option.some.inj h
    exact .shift hpc
  · rename_i n k hpc
    split at h
    · rename_i hlt
      rcases merge_event (.inr (.inl ⟨n, k, hpc, hlt, rfl⟩)) h with he | ⟨-, h⟩
      · exact he
      · cases h
    · rename_i hle
      obtain rfl := Option.some.inj h
      exact .waited hpc (Nat.le_of_not_lt hle)
  · rename_i hpc
    rcases merge_event (.inr (.inr ⟨hpc, rfl⟩)) h with he | ⟨hchannel, h⟩
    · exact he
    · obtain rfl := Option.some.inj h
      exact .done hpc hchannel

/-- **Every step is an event.** -/
theorem step_event {s s' : State H} {a : Action W} (h : step ops s a = some s') :
    Event ops s a s' := by
  cases a with
  | recorder i a =>
    obtain ⟨r, hr, h⟩ := Option.bind_eq_some_iff.1 h
    obtain ⟨⟨x, r'⟩, he, h⟩ := Option.bind_eq_some_iff.1 h
    obtain rfl := Option.some.inj h
    exact .recorder hr (Recorder.step_event he)
  | clone i =>
    obtain ⟨r, hr, h⟩ := Option.bind_eq_some_iff.1 h
    split at h
    · rename_i hpc
      obtain ⟨x, hx, h⟩ := Option.bind_eq_some_iff.1 h
      obtain ⟨hlock, rfl⟩ := join_eq_some hx
      obtain ⟨loc, hloc, h⟩ := Option.bind_eq_some_iff.1 h
      obtain rfl := Option.some.inj h
      exact .clone hr hpc hlock hloc
    · cases h
  | newRecorder =>
    simp only [step] at h
    split at h
    · rename_i hpc
      obtain ⟨x, hx, h⟩ := Option.bind_eq_some_iff.1 h
      obtain ⟨hlock, rfl⟩ := join_eq_some hx
      obtain ⟨loc, hloc, h⟩ := Option.bind_eq_some_iff.1 h
      obtain rfl := Option.some.inj h
      exact .newRecorder hpc hlock hloc
    · cases h
  | refresh =>
    simp only [step] at h
    split at h
    · rename_i hpc
      obtain rfl := Option.some.inj h
      exact .refresh hpc
    · cases h
  | turn => exact .turn (turn_event h)
  | timeout =>
    simp only [step] at h
    split at h
    · rename_i n k hpc
      split at h
      · rename_i hlt
        obtain rfl := Option.some.inj h
        exact .timeout hpc hlt
      · cases h
    · cases h

end Chist.Sync
