import Chist.Sync.Events
import Mathlib.Algebra.BigOperators.Group.List.Basic
import Mathlib.Tactic.Abel

/-!
# No sample is lost

A histogram has a content in a commutative monoid, which writes add to, `new_from` leaves behind and
`add` adds up (`Lawful`). The content of the merged histogram, of the channel and of the recorders
together is then what was written, in whatever order the threads run (`run_total`): nothing is lost
and nothing is merged twice.
-/

set_option autoImplicit false

namespace Chist.Sync

variable {H W M : Type} [AddCommMonoid M] {ops : Ops H W}

/-- What the protocol needs of its histograms: on good ones nothing panics, and the content is
kept. -/
structure Lawful (ops : Ops H W) (Good : H → Prop) (content : H → M) (gain : W → H → M) :
    Prop where
  newFrom : ∀ {h}, Good h → ∃ h', ops.newFrom h = some h' ∧ Good h' ∧ content h' = 0
  write : ∀ {h}, Good h → ∀ w, ∃ h', ops.write w h = some h' ∧ Good h' ∧
    content h' = content h + gain w h
  add : ∀ {g h}, Good g → Good h → ∃ g', ops.add g h = some g' ∧ Good g' ∧
    content g' = content g + content h

/-- Histograms that only tally. -/
def tallies : Ops Nat Nat where
  newFrom _ := some 0
  write w h := some (h + w)
  add g h := some (g + h)

/-- Every histogram of the state is good. -/
structure State.Sound (Good : H → Prop) (s : State H) : Prop where
  merged : Good s.merged
  channel : ∀ h ∈ s.shared.channel, Good h
  handles : ∀ r ∈ s.handles, Good r.loc

/-- The content of all histograms of the state. -/
def State.total (content : H → M) (s : State H) : M :=
  content s.merged + (s.shared.channel.map content).sum + (s.handles.map fun r => content r.loc).sum

/-- What an event of a recorder writes. -/
def Recorder.gained (gain : W → H → M) (r : Recorder H) : RecorderAction W → M
  | .write w => gain w r.loc
  | _ => 0

/-- What a step writes. -/
def gained (gain : W → H → M) (s : State H) : Action W → M
  | .recorder i a => s.handles[i]?.elim 0 fun r => r.gained gain a
  | _ => 0

/-- What is written along a run. -/
def gains (ops : Ops H W) (gain : W → H → M) (s : State H) : List (Action W) → M
  | [] => 0
  | a :: as => gained gain s a + (step ops s a).elim 0 fun s' => gains ops gain s' as

/-! ## One recorder of many -/

theorem set_split {α : Type} {l : List α} {i : Nat} {a : α} (h : l[i]? = some a) (b : α) :
    ∃ as bs, l = as ++ a :: bs ∧ l.set i b = as ++ b :: bs := by
  obtain ⟨hi, rfl⟩ := List.getElem?_eq_some_iff.1 h
  have hset : ∃ as bs, l = as ++ l[i] :: bs ∧ as.length = i ∧ l.set i b = as ++ b :: bs :=
    List.exists_of_set hi
  obtain ⟨as, bs, hl, -, hset⟩ := hset
  exact ⟨as, bs, hl, hset⟩

theorem sum_set {l : List (Recorder H)} {i : Nat} {r : Recorder H} (h : l[i]? = some r)
    (r' : Recorder H) (f : Recorder H → M) :
    ∃ rest, (l.map f).sum = f r + rest ∧ ((l.set i r').map f).sum = f r' + rest := by
  obtain ⟨as, bs, hl, hset⟩ := set_split h r'
  refine ⟨(as.map f).sum + (bs.map f).sum, ?_, ?_⟩
  · rw [hl, List.map_append, List.sum_append, List.map_cons, List.sum_cons]
    abel
  · rw [hset, List.map_append, List.sum_append, List.map_cons, List.sum_cons]
    abel

/-! ## Steps -/

section
variable {Good : H → Prop} {content : H → M} {gain : W → H → M}
  (hl : Lawful ops Good content gain)
include hl

theorem Recorder.Event.content_eq {x x' : Shared H} {r r' : Recorder H} {a : RecorderAction W}
    (he : r.Event ops x a x' r') (hr : Good r.loc) (hx : ∀ h ∈ x.channel, Good h) :
    Good r'.loc ∧ (∀ h ∈ x'.channel, Good h) ∧
      (x'.channel.map content).sum + content r'.loc =
        (x.channel.map content).sum + content r.loc + r.gained gain a := by
  have hsend : ∀ {loc}, ops.newFrom r.loc = some loc → Good loc ∧
      (∀ h ∈ x.channel ++ [r.loc], Good h) ∧
      ((x.channel ++ [r.loc]).map content).sum + content loc =
        (x.channel.map content).sum + content r.loc + 0 := by
    intro loc hloc
    obtain ⟨loc', hloc', hgood, hcontent⟩ := hl.newFrom hr
    obtain rfl : loc' = loc := Option.some.inj (hloc'.symm.trans hloc)
    refine ⟨hgood, ?_, ?_⟩
    · simpa [or_imp, forall_and] using ⟨hx, hr⟩
    · rw [List.map_append, List.sum_append, hcontent]
      simp
  cases he with
  | write hpc hloc =>
    rename_i w loc
    obtain ⟨loc', hloc', hgood, hcontent⟩ := hl.write hr w
    obtain rfl : loc' = loc := Option.some.inj (hloc'.symm.trans hloc)
    refine ⟨hgood, hx, ?_⟩
    rw [hcontent, add_assoc]
    rfl
  | send hpc hloc => exact hsend hloc
  | idleSend hpc hloc => exact hsend hloc
  | drop hpc hlock hpos hloc => exact hsend hloc
  | _ => exact ⟨hr, hx, (add_zero _).symm⟩

theorem ReaderEvent.content_eq {s s' : State H} (he : ReaderEvent ops s s') (hs : s.Sound Good) :
    s'.Sound Good ∧ content s'.merged + (s'.shared.channel.map content).sum =
      content s.merged + (s.shared.channel.map content).sum ∧ s'.handles = s.handles := by
  cases he with
  | merge hchannel hadd hafter =>
    rename_i h merged channel after
    have hgood := hs.channel
    rw [hchannel] at hgood
    obtain ⟨hh, hrest⟩ := List.forall_mem_cons.1 hgood
    obtain ⟨merged', hadd', hm, hcontent⟩ := hl.add hs.merged hh
    obtain rfl : merged' = merged := Option.some.inj (hadd'.symm.trans hadd)
    refine ⟨⟨hm, hrest, hs.handles⟩, ?_, rfl⟩
    rw [hcontent, hchannel, List.map_cons, List.sum_cons, add_assoc]
  | _ => exact ⟨⟨hs.merged, hs.channel, hs.handles⟩, rfl, rfl⟩

/-- **One step** adds what it writes to the content of the whole. -/
theorem step_total {s s' : State H} {a : Action W} (h : step ops s a = some s')
    (hs : s.Sound Good) :
    s'.Sound Good ∧ s'.total content = s.total content + gained gain s a := by
  have hjoin : ∀ {x : Shared H} {loc : H} {phase : Nat}, x.channel = s.shared.channel → Good loc →
      content loc = 0 →
      (State.mk s.merged x (s.handles ++ [⟨loc, phase, .ready⟩]) s.reader).Sound Good ∧
      (State.mk s.merged x (s.handles ++ [⟨loc, phase, .ready⟩]) s.reader).total content =
        s.total content + 0 := by
    intro x loc phase hx hgood hcontent
    refine ⟨⟨hs.merged, hx ▸ hs.channel, ?_⟩, ?_⟩
    · simpa [or_imp, forall_and] using ⟨hs.handles, hgood⟩
    · simp [State.total, hx, hcontent]
  cases step_event h with
  | recorder hr he =>
    rename_i i a r r' x
    have hmem := List.mem_of_getElem? hr
    obtain ⟨hr', hx', hsum⟩ := he.content_eq hl (hs.handles r hmem) hs.channel
    obtain ⟨rest, h1, h2⟩ := sum_set hr r' fun r => content r.loc
    refine ⟨⟨hs.merged, hx', ?_⟩, ?_⟩
    · intro q hq
      rcases List.mem_or_eq_of_mem_set hq with hq | rfl
      · exact hs.handles q hq
      · exact hr'
    · have hgained : gained gain s (.recorder i a) = r.gained gain a := by
        rw [gained, hr, Option.elim_some]
      calc content s.merged + (x.channel.map content).sum +
            ((s.handles.set i r').map fun r => content r.loc).sum
          = content s.merged + ((x.channel.map content).sum + content r'.loc) + rest := by
            rw [h2]
            abel
        _ = content s.merged + ((s.shared.channel.map content).sum + content r.loc +
            gained gain s (.recorder i a)) + rest := by
            rw [hsum, hgained]
        _ = content s.merged + (s.shared.channel.map content).sum +
            (s.handles.map fun r => content r.loc).sum + gained gain s (.recorder i a) := by
            rw [h1]
            abel
  | clone hr hpc hlock hloc =>
    obtain ⟨loc', hloc', hgood, hcontent⟩ := hl.newFrom (hs.handles _ (List.mem_of_getElem? hr))
    obtain rfl := Option.some.inj (hloc'.symm.trans hloc)
    exact hjoin rfl hgood hcontent
  | newRecorder hpc hlock hloc =>
    obtain ⟨loc', hloc', hgood, hcontent⟩ := hl.newFrom hs.merged
    obtain rfl := Option.some.inj (hloc'.symm.trans hloc)
    exact hjoin rfl hgood hcontent
  | turn he =>
    obtain ⟨hgood, hsum, hhandles⟩ := he.content_eq hl hs
    refine ⟨hgood, ?_⟩
    rw [State.total, hsum, hhandles]
    exact (add_zero _).symm
  | refresh hpc => exact ⟨⟨hs.merged, hs.channel, hs.handles⟩, (add_zero _).symm⟩
  | timeout hpc hlt => exact ⟨⟨hs.merged, hs.channel, hs.handles⟩, (add_zero _).symm⟩

/-- **No sample is lost, and none is merged twice**: after any run, the merged histogram, the
channel and the recorders together hold what they held and what was written. -/
theorem run_total {s s' : State H} {actions : List (Action W)}
    (h : run ops s actions = some s') (hs : s.Sound Good) :
    s'.Sound Good ∧ s'.total content = s.total content + gains ops gain s actions := by
  induction actions generalizing s with
  | nil =>
    obtain rfl := Option.some.inj h
    exact ⟨hs, (add_zero _).symm⟩
  | cons a actions ih =>
    obtain ⟨s1, hstep, hrun⟩ := Option.bind_eq_some_iff.1 h
    obtain ⟨hs1, htotal1⟩ := step_total hl hstep hs
    obtain ⟨hs', htotal⟩ := ih hrun hs1
    refine ⟨hs', ?_⟩
    rw [htotal, htotal1, gains, hstep, add_assoc]
    rfl

end

end Chist.Sync
