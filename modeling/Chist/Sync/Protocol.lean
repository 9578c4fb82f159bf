import Mathlib.Logic.Relation

/-!
# Recorders and refreshes

A `SyncHistogram`, its `Recorder`s and the channel between them, as a step function. The state is
what the threads share, the histograms, and how far each thread is in its method; a step is one
event that other threads can see (a load or an addition of `phase`, a send or a receive, a critical
section of `truth`), with the events of its own thread around it. `deactivate` holds the lock over
two of them, so the lock is part of the state; the critical sections of one event are one step.

What the histograms are is left open (`Ops`). Counters do not wrap, and the `SyncHistogram` is
neither dropped nor changed through `DerefMut`.
-/

set_option autoImplicit false

namespace Chist.Sync

variable {H W : Type}

/-- `Histogram::new_from`, a method of `Recorder` on the local histogram, and the `add` of
`refresh_inner`; `none` stands for a panic. -/
structure Ops (H W : Type) where
  newFrom : H → Option H
  write : W → H → Option H
  add : H → H → Option H

/-- Where the thread of a `Recorder` is. -/
inductive RecorderPc
  | ready
  /-- in `with_hist`, before the load of `phase` -/
  | wrote
  /-- in `with_hist`, before `update`, with the phase loaded -/
  | phasing (phase : Nat)
  /-- in `deactivate`, before the send, with the phase loaded and the lock held -/
  | idling (phase : Nat)
  | idle
  | dropped
  deriving DecidableEq, Repr

structure Recorder (H : Type) where
  loc : H
  lastPhase : Nat
  pc : RecorderPc
  deriving DecidableEq, Repr

/-- `Shared`, with `truth.recorders`, whether `truth` is locked, and what is in the channel. -/
structure Shared (H : Type) where
  recorders : Nat
  locked : Bool
  phase : Nat
  channel : List H
  deriving DecidableEq, Repr

/-- Where `refresh_inner` is. -/
inductive ReaderPc
  | outside
  | draining
  /-- before the read of `truth.recorders` -/
  | drained
  /-- before the addition to `phase` -/
  | counted (recorders : Nat)
  | waiting (recorders phased : Nat)
  | gobbling
  deriving DecidableEq, Repr

/-- A `SyncHistogram` with all the recorders it ever had. -/
structure State (H : Type) where
  merged : H
  shared : Shared H
  handles : List (Recorder H)
  reader : ReaderPc
  deriving DecidableEq, Repr

/-- `SyncHistogram::from`. -/
def State.from (h : H) : State H := ⟨h, ⟨0, false, 0, []⟩, [], .outside⟩

/-! ## Recorders -/

/-- The events of a recorder's thread. -/
inductive RecorderAction (W : Type)
  | write (w : W)
  | load
  | send
  | idle
  | idleSend
  | activate
  | drop
  deriving DecidableEq, Repr

/-- `shed` and `send`: the recorder with a cleared histogram, and the channel. -/
def shed (ops : Ops H W) (x : Shared H) (r : Recorder H) : Option (Shared H × Recorder H) := do
  let cleared ← ops.newFrom r.loc
  return ({ x with channel := x.channel ++ [r.loc] }, { r with loc := cleared })

/-- `truth.recorders -= 1`, under the lock. -/
def leave (x : Shared H) : Option (Shared H) :=
  if x.locked = false ∧ 0 < x.recorders then some { x with recorders := x.recorders - 1 } else none

/-- `truth.recorders += 1`, under the lock. -/
def join (x : Shared H) : Option (Shared H) :=
  if x.locked = false then some { x with recorders := x.recorders + 1 } else none

/-- One event of a recorder's thread. -/
def Recorder.step (ops : Ops H W) (x : Shared H) (r : Recorder H) :
    RecorderAction W → Option (Shared H × Recorder H)
  -- `with_hist`
  | .write w =>
    if r.pc = .ready then do
      let loc ← ops.write w r.loc
      return (x, { r with loc := loc, pc := .wrote })
    else none
  | .load =>
    if r.pc = .wrote then
      some (x, { r with pc := if x.phase ≠ r.lastPhase then .phasing x.phase else .ready })
    else none
  | .send =>
    match r.pc with
    | .phasing phase => do
      let (x, r) ← shed ops x r
      return (x, { r with lastPhase := phase, pc := .ready })
    | _ => none
  -- `deactivate`
  | .idle =>
    if r.pc = .ready then do
      let x ← leave x
      if x.phase ≠ r.lastPhase then
        return ({ x with locked := true }, { r with pc := .idling x.phase })
      else return (x, { r with lastPhase := x.phase, pc := .idle })
    else none
  | .idleSend =>
    match r.pc with
    | .idling phase => do
      let (x, r) ← shed ops x r
      return ({ x with locked := false }, { r with lastPhase := phase, pc := .idle })
    | _ => none
  -- `reactivate`
  | .activate =>
    if r.pc = .idle then do
      let x ← join x
      return (x, { r with lastPhase := x.phase, pc := .ready })
    else none
  -- `Drop for Recorder`
  | .drop =>
    if r.pc = .ready then do
      let x ← leave x
      let (x, r) ← shed ops x r
      return (x, { r with pc := .dropped })
    else none

/-! ## The reader -/

/-- The `add` of the next histogram of the channel, or what is done where there is none. -/
def merge (ops : Ops H W) (s : State H) (after : ReaderPc) (empty : Option (State H)) :
    Option (State H) :=
  match s.shared.channel with
  | h :: channel => do
    let merged ← ops.add s.merged h
    return { s with
      merged := merged, shared := { s.shared with channel := channel }, reader := after }
  | [] => empty

/-- The next event of `refresh_inner`. -/
def turn (ops : Ops H W) (s : State H) : Option (State H) :=
  match s.reader with
  | .outside => none
  | .draining => merge ops s .draining (some { s with reader := .drained })
  | .drained =>
    if s.shared.locked = false then some { s with reader := .counted s.shared.recorders } else none
  | .counted recorders =>
    some { s with shared := { s.shared with phase := s.shared.phase + 1 },
                  reader := .waiting recorders 0 }
  | .waiting recorders phased =>
    if phased < recorders then merge ops s (.waiting recorders (phased + 1)) none
    else some { s with reader := .gobbling }
  | .gobbling => merge ops s .gobbling (some { s with reader := .outside })

/-! ## The whole -/

inductive Action (W : Type)
  | recorder (i : Nat) (a : RecorderAction W)
  /-- `Clone for Recorder`, and `IdleRecorder::recorder` -/
  | clone (i : Nat)
  /-- `SyncHistogram::recorder` -/
  | newRecorder
  | refresh
  | turn
  /-- the end of the wait of `refresh_timeout` -/
  | timeout
  deriving DecidableEq, Repr

def step (ops : Ops H W) (s : State H) : Action W → Option (State H)
  | .recorder i a => do
    let r ← s.handles[i]?
    let (x, r) ← r.step ops s.shared a
    return { s with shared := x, handles := s.handles.set i r }
  | .clone i => do
    let r ← s.handles[i]?
    if r.pc = .ready ∨ r.pc = .idle then
      let x ← join s.shared
      let loc ← ops.newFrom r.loc
      return { s with shared := x, handles := s.handles ++ [⟨loc, r.lastPhase, .ready⟩] }
    else none
  | .newRecorder =>
    if s.reader = .outside then do
      let x ← join s.shared
      let loc ← ops.newFrom s.merged
      return { s with shared := x, handles := s.handles ++ [⟨loc, x.phase, .ready⟩] }
    else none
  | .refresh => if s.reader = .outside then some { s with reader := .draining } else none
  | .turn => turn ops s
  | .timeout =>
    match s.reader with
    | .waiting recorders phased =>
      if phased < recorders then some { s with reader := .gobbling } else none
    | _ => none

/-- The state after some steps. -/
def run (ops : Ops H W) (s : State H) (actions : List (Action W)) : Option (State H) :=
  actions.foldlM (step ops) s

end Chist.Sync
