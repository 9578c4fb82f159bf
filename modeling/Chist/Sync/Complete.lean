import Chist.Sync.Waiting
import Mathlib.Data.List.Perm.Subperm

/-!
# What a refresh has merged

A refresh counts the histograms it receives, not whose they are. If the channel is empty at the
count, and no recorder that was not counted sends before the refresh returns, and none sends twice,
then all counted recorders have sent when it returns: what they held at the count is in the merged
histogram (`refresh_complete`). A recorder that phases and is then dropped sends twice, and the
refresh may return without another one.
-/

set_option autoImplicit false

namespace Chist.Sync

variable {H W M : Type} [AddCommMonoid M] {ops : Ops H W}

/-! ## Senders -/

def RecorderAction.sends : RecorderAction W → Bool
  | .send | .idleSend | .drop => true
  | _ => false

/-- The recorder whose histogram a step sends. -/
def Action.sender : Action W → Option Nat
  | .recorder i a => if a.sends then some i else none
  | _ => none

/-- The recorders that `truth.recorders` counts. -/
def State.counted (s : State H) : List Nat :=
  (s.handles.zipIdx.filter fun p => p.1.active).map Prod.snd

/-- What recorder `i` holds. -/
def State.held (content : H → M) (s : State H) (i : Nat) : M :=
  s.handles[i]?.elim 0 fun r => content r.loc

theorem length_counted (s : State H) : s.counted.length = s.handles.countP Recorder.active := by
  have hfst : s.handles.zipIdx.map Prod.fst = s.handles := List.zipIdx_map_fst 0 s.handles
  rw [State.counted, List.length_map, ← List.countP_eq_length_filter]
  conv_rhs => rw [← hfst, List.countP_map]
  rfl

theorem exists_of_mem_counted {s : State H} {i : Nat} (hi : i ∈ s.counted) :
    ∃ r, s.handles[i]? = some r := by
  obtain ⟨⟨r, j⟩, hp, rfl⟩ := List.mem_map.1 hi
  exact ⟨r, List.mem_zipIdx_iff_getElem?.1 (List.mem_filter.1 hp).1⟩

/-! ## One refresh -/

/-- A refresh that counts the recorders in `s`, with `sent` sent since. -/
structure Shift (content : H → M) (s : State H) (sent : List Nat) (s' : State H) : Prop where
  kept : ∀ i r, s.handles[i]? = some r → i ∉ sent → ∃ r' x, s'.handles[i]? = some r' ∧
    content r'.loc = content r.loc + x
  moved : ∃ x, content s'.merged + (s'.shared.channel.map content).sum =
    content s.merged + (sent.map (s.held content)).sum + x
  count : match s'.reader with
    | .counted n => n = s.shared.recorders ∧ s'.shared.channel.length = sent.length
    | .waiting n k => n = s.shared.recorders ∧ k + s'.shared.channel.length = sent.length
    | .gobbling => s.shared.recorders ≤ sent.length
    | .outside => True
    | _ => False

section
variable {content : H → M} {s s1 : State H} {sent : List Nat} (hsh : Shift content s sent s1)
  {i : Nat} {r : Recorder H} (hr : s1.handles[i]? = some r) (r' : Recorder H) {x : Shared H}
include hsh hr

theorem Shift.send (hi : i ∈ s.counted) (hfresh : i ∉ sent)
    (hchannel : x.channel = s1.shared.channel ++ [r.loc]) :
    Shift content s (sent ++ [i]) { s1 with shared := x, handles := s1.handles.set i r' } := by
  have hcount := hsh.count
  obtain ⟨r0, hr0⟩ := exists_of_mem_counted hi
  obtain ⟨r1, y, hr1, hy⟩ := hsh.kept i r0 hr0 hfresh
  obtain rfl : r1 = r := Option.some.inj (hr1.symm.trans hr)
  refine ⟨fun j q hq hj => ?_, ?_, ?_⟩
  · simp only [List.mem_append, List.mem_singleton, not_or] at hj
    obtain ⟨q', z, hq', hz⟩ := hsh.kept j q hq hj.1
    exact ⟨q', z, by rw [List.getElem?_set_ne (Ne.symm hj.2)]; exact hq', hz⟩
  · obtain ⟨z, hz⟩ := hsh.moved
    have hheld : s.held content i = content r0.loc := by rw [State.held, hr0, Option.elim_some]
    refine ⟨z + y, ?_⟩
    calc content s1.merged + (x.channel.map content).sum
        = content s1.merged + (s1.shared.channel.map content).sum + content r1.loc := by
          rw [hchannel, List.map_append, List.sum_append]
          simp [add_assoc]
      _ = content s.merged + ((sent ++ [i]).map (s.held content)).sum + (z + y) := by
          rw [hz, hy, List.map_append, List.sum_append, ← hheld]
          simp only [List.map_cons, List.map_nil, List.sum_singleton]
          abel
  · cases hreader : s1.reader with
    | outside => trivial
    | _ => simp [hreader, hchannel] at hcount ⊢ <;> omega

theorem Shift.keep {y : M} (hchannel : x.channel = s1.shared.channel)
    (hy : content r'.loc = content r.loc + y) :
    Shift content s sent { s1 with shared := x, handles := s1.handles.set i r' } := by
  have hlen : i < s1.handles.length := (List.getElem?_eq_some_iff.1 hr).1
  refine ⟨fun j q hq hj => ?_, by simpa only [hchannel] using hsh.moved, ?_⟩
  · obtain ⟨q', z, hq', hz⟩ := hsh.kept j q hq hj
    by_cases hij : j = i
    · subst hij
      obtain rfl : q' = r := Option.some.inj (hq'.symm.trans hr)
      exact ⟨r', z + y, List.getElem?_set_self hlen, by rw [hy, hz, add_assoc]⟩
    · exact ⟨q', z, by rw [List.getElem?_set_ne (Ne.symm hij)]; exact hq', hz⟩
  · simpa only [hchannel] using hsh.count

end

section
variable {Good : H → Prop} {content : H → M} {gain : W → H → M}
  (hl : Lawful ops Good content gain)
include hl

/-- A recorder sends all it holds, or goes on holding it. -/
theorem Recorder.Event.sent {x x' : Shared H} {r r' : Recorder H} {a : RecorderAction W}
    (he : r.Event ops x a x' r') (hr : Good r.loc) :
    (a.sends = true ∧ x'.channel = x.channel ++ [r.loc]) ∨
      (a.sends = false ∧ x'.channel = x.channel ∧ ∃ y, content r'.loc = content r.loc + y) := by
  cases he with
  | write hpc hloc =>
    rename_i w loc
    obtain ⟨loc', hloc', -, hcontent⟩ := hl.write hr w
    obtain rfl : loc' = loc := Option.some.inj (hloc'.symm.trans hloc)
    exact .inr ⟨rfl, rfl, _, hcontent⟩
  | send | idleSend | drop => exact .inl ⟨rfl, rfl⟩
  | _ => exact .inr ⟨rfl, rfl, 0, (add_zero _).symm⟩

theorem shift_step {s s1 s2 : State H} {sent : List Nat} {a : Action W}
    (h : step ops s1 a = some s2) (hs : s1.Sound Good) (hsh : Shift content s sent s1)
    (ha : a ≠ .timeout ∧ a ≠ .refresh) (hnew : ∀ i ∈ a.sender, i ∈ s.counted ∧ i ∉ sent) :
    Shift content s (sent ++ a.sender.toList) s2 := by
  have hcount := hsh.count
  have happend : ∀ (r' : Recorder H) i r, s.handles[i]? = some r → i ∉ sent →
      ∃ q x, (s1.handles ++ [r'])[i]? = some q ∧ content q.loc = content r.loc + x := by
    intro r' i r hr hi
    obtain ⟨q, x, hq, hx⟩ := hsh.kept i r hr hi
    exact ⟨q, x, by rw [List.getElem?_append_left (List.getElem?_eq_some_iff.1 hq).1]; exact hq, hx⟩
  cases step_event h with
  | recorder hr he =>
    rename_i i a r r' x
    rcases he.sent hl (hs.handles r (List.mem_of_getElem? hr)) with
      ⟨hsends, hchannel⟩ | ⟨hsends, hchannel, y, hy⟩
    · have hsender : Action.sender (.recorder i a) = some i := by simp [Action.sender, hsends]
      obtain ⟨hi, hfresh⟩ := hnew i hsender
      rw [hsender, Option.toList_some]
      exact hsh.send hr r' hi hfresh hchannel
    · have hsender : Action.sender (.recorder i a) = none := by simp [Action.sender, hsends]
      rw [hsender, Option.toList_none, List.append_nil]
      exact hsh.keep hr r' hchannel hy
  | clone hr hpc hlock hloc =>
    change Shift content s (sent ++ []) _
    rw [List.append_nil]
    exact ⟨happend _, hsh.moved, hcount⟩
  | newRecorder hpc hlock hloc =>
    change Shift content s (sent ++ []) _
    rw [List.append_nil]
    exact ⟨happend _, hsh.moved, hcount⟩
  | refresh hpc => exact absurd rfl ha.2
  | timeout hpc hlt => exact absurd rfl ha.1
  | turn he =>
    obtain ⟨-, hsum, hhandles⟩ := he.content_eq hl hs
    change Shift content s (sent ++ []) _
    rw [List.append_nil]
    refine ⟨hhandles ▸ hsh.kept, hsum ▸ hsh.moved, ?_⟩
    cases he with
    | merge hchannel hadd hafter =>
      rcases hafter with ⟨hpc, -⟩ | ⟨n, k, hpc, -, rfl⟩ | ⟨hpc, rfl⟩
      · simp only [hpc] at hcount
      · simp only [hpc, hchannel, List.length_cons] at hcount ⊢
        exact ⟨hcount.1, by omega⟩
      · simpa only [hpc] using hcount
    | drained hpc hchannel => simp only [hpc] at hcount
    | count hpc hlock => simp only [hpc] at hcount
    | shift hpc =>
      simp only [hpc] at hcount ⊢
      exact ⟨hcount.1, by omega⟩
    | waited hpc hle =>
      simp only [hpc] at hcount ⊢
      omega
    | done hpc hchannel => trivial

theorem shift_run {s s1 s2 : State H} {sent : List Nat} {actions : List (Action W)}
    (h : run ops s1 actions = some s2) (hs : s1.Sound Good) (hsh : Shift content s sent s1)
    (hactions : ∀ a ∈ actions, a ≠ .timeout ∧ a ≠ .refresh)
    (hcounted : ∀ i ∈ actions.filterMap Action.sender, i ∈ s.counted)
    (hnodup : (sent ++ actions.filterMap Action.sender).Nodup) :
    s2.Sound Good ∧ Shift content s (sent ++ actions.filterMap Action.sender) s2 := by
  induction actions generalizing s1 sent with
  | nil =>
    obtain rfl := Option.some.inj h
    rw [List.filterMap_nil, List.append_nil]
    exact ⟨hs, hsh⟩
  | cons a actions ih =>
    obtain ⟨s', hstep, hrun⟩ := Option.bind_eq_some_iff.1 h
    obtain ⟨ha, hactions⟩ := List.forall_mem_cons.1 hactions
    have hsplit : (a :: actions).filterMap Action.sender =
        a.sender.toList ++ actions.filterMap Action.sender := by
      cases hsender : a.sender with
      | none => rw [List.filterMap_cons_none hsender, Option.toList_none, List.nil_append]
      | some i => rw [List.filterMap_cons_some hsender, Option.toList_some, List.singleton_append]
    rw [hsplit] at hcounted hnodup ⊢
    rw [← List.append_assoc] at hnodup ⊢
    refine ih hrun (step_total hl hstep hs).1 (shift_step hl hstep hs hsh ha fun i hi => ?_)
      hactions (fun i hi => hcounted i (List.mem_append_right _ hi)) hnodup
    have hmem : i ∈ a.sender.toList := Option.mem_toList.2 hi
    refine ⟨hcounted i (List.mem_append_left _ hmem), fun hsent => ?_⟩
    exact (List.nodup_append.1 (List.nodup_append.1 hnodup).1).2.2 i hsent i hmem rfl

/-- **A refresh is complete**: if the channel is empty when it counts the recorders, and those that
send before it returns were counted and send once, what the counted recorders held at the count is
in the merged histogram. -/
theorem refresh_complete {s s1 s2 s' : State H} {actions : List (Action W)}
    (hs : s.Sound Good) (hc : Counted s) (hdrained : s.reader = .drained)
    (hempty : s.shared.channel = []) (hfirst : turn ops s = some s1)
    (hrun : run ops s1 actions = some s2) (hlast : turn ops s2 = some s')
    (houtside : s'.reader = .outside) (hactions : ∀ a ∈ actions, a ≠ .timeout ∧ a ≠ .refresh)
    (hcounted : ∀ i ∈ actions.filterMap Action.sender, i ∈ s.counted)
    (hnodup : (actions.filterMap Action.sender).Nodup) :
    ∃ x, content s'.merged =
      content s.merged + (s.counted.map (s.held content)).sum + x := by
  have hstart : s1.Sound Good ∧ Shift content s [] s1 := by
    cases turn_event hfirst with
    | count hpc hlock =>
      refine ⟨⟨hs.merged, hs.channel, hs.handles⟩, ⟨fun i r hr _ => ?_, ⟨0, ?_⟩, ?_⟩⟩
      · exact ⟨r, 0, hr, (add_zero _).symm⟩
      · simp [hempty]
      · simp [hempty]
    | merge hchannel => simp [hempty] at hchannel
    | drained hpc | shift hpc | waited hpc | done hpc => simp [hdrained] at hpc
  obtain ⟨hs2, hsh⟩ := shift_run hl hrun hstart.1 hstart.2 hactions hcounted (by simpa using hnodup)
  rw [List.nil_append] at hsh
  cases turn_event hlast with
  | done hpc hchannel =>
    -- as many have sent as were counted, so all counted have
    have hle : s.shared.recorders ≤ (actions.filterMap Action.sender).length := by
      simpa only [hpc] using hsh.count
    rw [hc.recorders, ← length_counted] at hle
    have hperm : (actions.filterMap Action.sender).Perm s.counted :=
      (hnodup.subperm hcounted).perm_of_length_le hle
    obtain ⟨x, hx⟩ := hsh.moved
    refine ⟨x, ?_⟩
    rw [hchannel, List.map_nil, List.sum_nil, add_zero] at hx
    rw [hx, (hperm.map _).sum_eq]
  | merge hchannel hadd hafter =>
    rcases hafter with ⟨-, rfl⟩ | ⟨n, k, -, -, rfl⟩ | ⟨-, rfl⟩ <;> cases houtside
  | drained | count | shift | waited => cases houtside

end

-- recorder 0 sends twice, and what recorder 1 had before the refresh is not merged
example : (run tallies (State.from 0) [.newRecorder, .newRecorder, .recorder 1 (.write 5),
    .recorder 1 .load, .refresh, .turn, .turn, .turn, .recorder 0 (.write 1), .recorder 0 .load,
    .recorder 0 .send, .recorder 0 .drop, .turn, .turn, .turn, .turn]).map
      (fun s => (s.reader, s.merged, s.handles.map (·.loc))) = some (.outside, 1, [0, 5]) := by
  decide

end Chist.Sync
