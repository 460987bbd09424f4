import Wraft.Raft.Application
import Wraft.Raft.Repair

/-!
# The progress of a worker

A follower takes over the commit index of its leader, but no more than the last entry of the batch
that it came with. A batch that arrives late, behind one that came later in the log, can lower the
commit index in this way (`not_progresses`), even below the last applied index. When no late batch
is accepted (`RaftWorkerState.Overtaken`, which is exactly when the commit index falls:
`commitIndex_lt_iff`), a worker makes progress throughout its life (`progresses`).

The requests are those of a leader (`AppendEntriesRequest.FromLeader`, which is what
`append_entries` builds: `fromLeader_appendRequest`), in any order and any number of times.
-/

namespace Wraft

open TransitionSystem

variable {Cmd : Type}

/-! ### The requests of a leader -/

/-- The entries follow the previous entry in a log that goes on to `last`, are not all of it only
if there are some, and the leader has committed no more than that log. -/
def AppendEntriesRequest.FromLeader (req : AppendEntriesRequest Cmd) : Prop :=
  req.Contiguous ∧ ∃ last, req.prevLogIndex + req.entries.length ≤ last ∧
    (req.entries = [] → req.prevLogIndex = last) ∧ req.leaderCommit ≤ last

/-- A request without entries commits no more than the log up to its previous entry. -/
theorem AppendEntriesRequest.FromLeader.leaderCommit_le {req : AppendEntriesRequest Cmd}
    (h : req.FromLeader) (hnil : req.entries = []) : req.leaderCommit ≤ req.prevLogIndex := by
  obtain ⟨-, last, -, hlast, hcommit⟩ := h
  rw [hlast hnil]
  exact hcommit

theorem AppendEntriesRequest.Contiguous.idx_le_getLast {req : AppendEntriesRequest Cmd}
    (h : req.Contiguous) {e f : LogEntry Cmd} (he : e ∈ req.entries)
    (hf : req.entries.getLast? = some f) : 0 < e.idx ∧ e.idx ≤ f.idx := by
  obtain ⟨j, hj, rfl⟩ := List.getElem_of_mem he
  rw [List.getLast?_eq_getElem?] at hf
  have hej := h j _ (List.getElem?_eq_getElem hj)
  have hfl := h _ f hf
  omega

variable [Bincode (LogEntry Cmd)]

/-- The requests that `append_entries` makes of a log are such requests. -/
theorem Leader.fromLeader_appendRequest {w : RaftWorkerInner Cmd} (h : w.storage.Wf) {n : ℕ}
    (hn : n ≤ w.storage.log.length) (hcommit : w.commitIndex ≤ w.storage.log.length) :
    (appendRequest w n).FromLeader := by
  refine ⟨fun j e he => ?_, w.storage.log.length, ?_, fun hnil => ?_, hcommit⟩
  · have he' : ((w.storage.log.drop n).take maxBatchSize)[j]? = some e := he
    rw [List.getElem?_take] at he'
    split_ifs at he' with hj
    rw [List.getElem?_drop] at he'
    exact h.idx_eq he'
  · show n + ((w.storage.log.drop n).take maxBatchSize).length ≤ w.storage.log.length
    rw [List.length_take, List.length_drop]
    omega
  · have hlen : ((w.storage.log.drop n).take maxBatchSize).length = 0 :=
      congrArg List.length (hnil : (w.storage.log.drop n).take maxBatchSize = [])
    rw [List.length_take, List.length_drop] at hlen
    simp only [maxBatchSize] at hlen
    show n = w.storage.log.length
    omega

/-! ### Late batches -/

/-- The log has all the entries already, as far as their terms tell. -/
def Storage.HasEntries (s : Storage Cmd) (es : List (LogEntry Cmd)) : Prop :=
  ∀ e ∈ es, ∃ a, s.getLog e.idx = .ok (some a) ∧ a.term = e.term

namespace RaftWorkerInner

omit [Bincode (LogEntry Cmd)] in
/-- The batch ends below the commit index, and its leader has committed more than the node knew. -/
def Exceeds (w : RaftWorkerInner Cmd) (req : AppendEntriesRequest Cmd) : Prop :=
  w.commitIndex < req.leaderCommit ∧ ∃ e, req.entries.getLast? = some e ∧ e.idx < w.commitIndex

omit [Bincode (LogEntry Cmd)] in
theorem followCommit_lt_iff {w : RaftWorkerInner Cmd} {req : AppendEntriesRequest Cmd} :
    followCommit w.commitIndex req < w.commitIndex ↔ w.Exceeds req := by
  rw [followCommit, Exceeds]
  split_ifs with hcommit
  · rcases req.entries.getLast? with _ | e
    · simp only [Option.elim_none, min_self, reduceCtorEq, false_and, exists_false, and_false,
        iff_false, not_lt]
      exact hcommit.le
    · simp only [Option.elim_some, Option.some.injEq, exists_eq_left', hcommit, true_and]
      omega
  · simp [hcommit]

/-- Entries below the last index are all in the log already, or the loop panics. -/
theorem hasEntries_of_handleEntries {s s' : Storage Cmd} {es : List (LogEntry Cmd)}
    (hidx : ∀ e ∈ es, 0 < e.idx ∧ e.idx < s.lastLogIndex)
    (h : (handleEntries es).run s = .ok () s') : s.HasEntries es := by
  induction es with
  | nil => exact fun e he => absurd he List.not_mem_nil
  | cons e es ih =>
    obtain ⟨⟨hpos, hlt⟩, hes⟩ := List.forall_mem_cons.mp hidx
    rcases hget : s.getLog e.idx with p | _ | a
    · rw [handleEntries, EStateM.run_bind_of_ok (EStateM.run_get _), hget] at h
      cases h
    -- an index below the last one is read
    · exact absurd (Storage.lt_of_getLog_none hpos.ne' hget) (Nat.lt_asymm hlt)
    · by_cases hterm : a.term = e.term
      · rw [handleEntries_of_eq es hget hterm] at h
        exact List.forall_mem_cons.mpr ⟨⟨a, hget, hterm⟩, ih hes h⟩
      -- a conflict below the last index is what the assertion refuses
      · rw [handleEntries_of_ne es hget hterm,
          EStateM.run_bind_of_error (Storage.overwriteLog_eq_error hlt)] at h
        cases h

/-- Entries that are in the log already leave it as it is. -/
theorem handleEntries_of_hasEntries {s : Storage Cmd} {es : List (LogEntry Cmd)}
    (h : s.HasEntries es) : (handleEntries es).run s = .ok () s := by
  induction es with
  | nil => rfl
  | cons e es ih =>
    obtain ⟨⟨a, hget, hterm⟩, hes⟩ := List.forall_mem_cons.mp h
    rw [handleEntries_of_eq es hget hterm, ih hes]

/-- A late batch that is accepted: the request is not old, its previous entry and all its entries
are in the log, and it ends below the commit index though it commits more. -/
def Overtaken (w : RaftWorkerInner Cmd) (req : AppendEntriesRequest Cmd) : Prop :=
  w.storage.currentTerm ≤ req.term ∧ w.HasPrev req ∧ w.storage.HasEntries req.entries ∧
    w.Exceeds req

/-- **`handle_append_entries` lowers the commit index** exactly for a late batch that it
accepts. -/
theorem commitIndex_lt_iff {w : RaftWorkerInner Cmd} (hw : w.commitIndex ≤ w.storage.lastLogIndex)
    {req : AppendEntriesRequest Cmd} (hreq : req.Contiguous) :
    (∃ resp w', (handleAppendEntries req).run w = .ok resp w' ∧ w'.commitIndex < w.commitIndex) ↔
      w.Overtaken req := by
  constructor
  · rintro ⟨resp, v, hv, hlt⟩
    obtain rfl | ⟨-, hcommit, hterm, hprev, hentries⟩ := handleAppendEntries_eq_ok hv
    · exact absurd hlt (Nat.lt_irrefl _)
    · rw [hcommit] at hlt
      have hexceeds := followCommit_lt_iff.mp hlt
      refine ⟨hterm, hprev, hasEntries_of_handleEntries (fun e he => ?_) hentries, hexceeds⟩
      -- the batch ends below the commit index, and so below the last index
      obtain ⟨-, f, hf, hfidx⟩ := hexceeds
      obtain ⟨hpos, hle⟩ := hreq.idx_le_getLast he hf
      exact ⟨hpos, by omega⟩
  · rintro ⟨hterm, hprev, hhas, hexceeds⟩
    have heq := handleAppendEntries_of_hasPrev hterm hprev
    rw [handleEntries_of_hasEntries hhas] at heq
    exact ⟨_, _, heq, followCommit_lt_iff.mpr hexceeds⟩

/-- A leader's request moves the commit index no further than the log reaches. -/
theorem commitIndex_le_of_eq_ok {w w' : RaftWorkerInner Cmd} {req : AppendEntriesRequest Cmd}
    {resp : AppendEntriesResponse} (hreq : req.FromLeader)
    (hw : w.commitIndex ≤ w.storage.lastLogIndex)
    (h : (handleAppendEntries req).run w = .ok resp w') :
    w'.commitIndex ≤ w'.storage.lastLogIndex := by
  obtain rfl | ⟨hreceives, hcommit, -, hprev, hentries⟩ := handleAppendEntries_eq_ok h
  · exact hw
  · rw [hcommit, followCommit]
    split_ifs with hlt
    · rcases hlast : req.entries.getLast? with _ | f
      · -- an empty batch commits no more than the log up to its previous entry
        have hle := hreq.leaderCommit_le (List.getLast?_eq_none_iff.mp hlast)
        have := hprev.le.trans hreceives.storage.lastLogIndex
        rw [Option.elim_none, min_self]
        omega
      · exact (min_le_right _ _).trans
          (idx_le_of_handleEntries hentries f (List.mem_of_getLast? hlast))
    · exact hw.trans hreceives.storage.lastLogIndex

end RaftWorkerInner

/-! ### Progress -/

/-- The request of the event, if it is one for entries, is that of a leader. -/
def Event.FromLeader : Event Cmd → Prop
  | .rpc _ _ (.appendEntries req) => req.FromLeader
  | _ => True

namespace RaftWorkerInner

omit [Bincode (LogEntry Cmd)] in
/-- No more is applied than is committed, and no more committed than is in the log. -/
structure Bounded (w : RaftWorkerInner Cmd) : Prop where
  applied : w.lastApplied ≤ w.commitIndex
  committed : w.commitIndex ≤ w.storage.lastLogIndex

theorem Frame.overtaken {w w' : RaftWorkerInner Cmd} {req : AppendEntriesRequest Cmd}
    (h : w.Frame w') (ho : w'.Overtaken req) : w.Overtaken req := by
  obtain ⟨hterm, hprev, hhas, hexceeds⟩ := ho
  refine ⟨h.currentTerm.trans hterm, ?_, fun e he => ?_, ?_⟩
  · rwa [HasPrev, h.getLog] at hprev
  · obtain ⟨a, ha, haterm⟩ := hhas e he
    exact ⟨a, by rwa [h.getLog] at ha, haterm⟩
  · rwa [Exceeds, h.commitIndex] at hexceeds

end RaftWorkerInner

namespace RaftWorkerState

open RaftWorkerInner

variable {w : RaftWorkerState Cmd} {e : Event Cmd} {n : Node Cmd}

/-- The event is a late batch that the worker accepts. -/
def Overtaken (w : RaftWorkerState Cmd) : Event Cmd → Prop
  | .rpc _ _ (.appendEntries req) =>
    (w.role = .leader → w.inner.storage.currentTerm < req.term) ∧ w.inner.Overtaken req
  | _ => False

/-- The commit index stays in the log. -/
theorem Effect.commitIndex_le (h : w.Effect e n) (hplaced : w.inner.storage.Placed)
    (he : e.FromLeader) (hw : w.inner.commitIndex ≤ w.inner.storage.lastLogIndex) :
    n.worker.inner.commitIndex ≤ n.worker.inner.storage.lastLogIndex := by
  cases h with
  | aside hframe =>
    rw [hframe.commitIndex, hframe.lastLogIndex]
    exact hw
  | answers _ _ hn =>
    rw [hn, inner_withInner]
    exact hw
  | forwards _ hn =>
    rw [hn, inner_withInner]
    exact hw
  | @receives _ _ req _ resp inner _ hrun hn =>
    have hheard := frame_heard w req
    rw [← hheard.commitIndex, ← hheard.lastLogIndex] at hw
    rw [hn]
    exact commitIndex_le_of_eq_ok he hw hrun
  | @breaks _ _ req _ p inner _ hrun hn =>
    have hheard := frame_heard w req
    rw [← hheard.commitIndex, ← hheard.lastLogIndex] at hw
    rw [hn, inner_withInner]
    obtain ⟨hreceives, hcommit⟩ := handleAppendEntries_eq_error hrun
    rw [hcommit]
    exact hw.trans hreceives.storage.lastLogIndex
  | @takes _ _ tx cmd l v hl he hsends hn =>
    obtain ⟨calls, hcalls⟩ := hsends.inner
    rw [hl] at hw
    rw [hn]
    show v.inner.commitIndex ≤ v.inner.storage.lastLogIndex
    rw [hcalls]
    -- the log has grown by the entry
    exact hw.trans (Nat.le_succ _)
  | @advances _ l c hl hle hlast hn =>
    obtain ⟨answers, hinner⟩ := inner_advanced l c
    rw [hl] at hw
    have hc : c ≤ l.inner.storage.lastLogIndex := hlast.trans (max_le hw le_rfl)
    obtain rfl | ⟨p, rfl⟩ := hn
    · show (Leader.advanced l c).inner.commitIndex ≤
        (Leader.advanced l c).inner.storage.lastLogIndex
      rw [hinner]
      exact hc
    · exact hc
  | applies hn =>
    rw [hn]
    obtain hinner | ⟨es, hinner, -⟩ := innerStep_applyLog hplaced
    · rwa [hinner]
    · rwa [hinner]

/-- The commit index does not fall, unless a late batch is accepted. -/
theorem Effect.le_commitIndex (h : w.Effect e n) (hplaced : w.inner.storage.Placed)
    (he : e.FromLeader) (hw : w.inner.commitIndex ≤ w.inner.storage.lastLogIndex)
    (hlate : ¬w.Overtaken e) :
    w.inner.commitIndex ≤ n.worker.inner.commitIndex := by
  cases h with
  | aside hframe => exact hframe.commitIndex.ge
  | answers _ _ hn =>
    rw [hn, inner_withInner]
    exact le_rfl
  | forwards _ hn =>
    rw [hn, inner_withInner]
    exact le_rfl
  | @receives _ _ req _ resp inner hlead hrun hn =>
    have hheard := frame_heard w req
    rw [hn, ← hheard.commitIndex]
    -- the index falls for late batches only
    refine Nat.not_lt.mp fun hlt => hlate ⟨hlead, hheard.overtaken ?_⟩
    rw [← hheard.commitIndex, ← hheard.lastLogIndex] at hw
    exact (commitIndex_lt_iff hw he.1).mp ⟨resp, inner, hrun, hlt⟩
  | @breaks _ _ req _ p inner _ hrun hn =>
    have hheard := frame_heard w req
    rw [hn, inner_withInner, ← hheard.commitIndex]
    exact (handleAppendEntries_eq_error hrun).2.ge
  | takes hl he hsends hn =>
    obtain ⟨calls, hcalls⟩ := hsends.inner
    rw [hl, hn]
    exact (congrArg (·.commitIndex) hcalls).ge
  | @advances _ l c hl hle hlast hn =>
    obtain ⟨answers, hinner⟩ := inner_advanced l c
    rw [hl]
    obtain rfl | ⟨p, rfl⟩ := hn
    · exact hle.trans (congrArg (·.commitIndex) hinner).ge
    · exact hle
  | applies hn =>
    rw [hn]
    obtain hinner | ⟨es, hinner, -⟩ := innerStep_applyLog hplaced
    · rw [hinner]
    · rw [hinner]
      exact le_rfl

end RaftWorkerState

namespace Node

/-- A node that may have been at work for long. -/
structure Sound (n : Node Cmd) : Prop where
  placed : n.worker.inner.storage.Placed
  bounded : n.worker.inner.Bounded

theorem Starts.sound {n : Node Cmd} (h : n.Starts) : n.Sound := by
  obtain ⟨_, _, _, _, _, _, inner, hstart, hplaced, rfl⟩ := h
  obtain ⟨-, -, hcommit, happlied, -⟩ := start_eq_ok hstart
  exact ⟨hplaced, ⟨happlied.le.trans (Nat.zero_le _), hcommit.le.trans (Nat.zero_le _)⟩⟩

/-- **A step makes progress**, unless it accepts a late batch. -/
theorem Sound.react {n n' : Node Cmd} {e : Event Cmd} (hn : n.Sound) (he : e.FromLeader)
    (hlate : ¬n.worker.Overtaken e) (h : n.react e = some n') :
    n'.Sound ∧ n.worker.inner.commitIndex ≤ n'.worker.inner.commitIndex ∧
      n.worker.inner.lastApplied ≤ n'.worker.inner.lastApplied := by
  obtain ⟨-, resp, hon, heffect⟩ := effect_react h
  have hplaced := (RaftWorkerState.changes_storage_on hon hn.placed).placed hn.placed
  have hlast := heffect.commitIndex_le hn.placed he hn.bounded.committed
  have hcommit := heffect.le_commitIndex hn.placed he hn.bounded.committed hlate
  have happlied := hn.bounded.applied
  -- only `apply_log` moves the last applied index
  obtain rfl | hk := heffect.keeps
  · obtain hinner | ⟨es, hinner, hlen, -⟩ := RaftWorkerState.innerStep_applyLog hn.placed
    · refine ⟨⟨hplaced, ⟨?_, hlast⟩⟩, hcommit, ?_⟩
      · rwa [hinner]
      · rw [hinner]
    · have hle : n.worker.inner.lastApplied + es.length ≤ n.worker.inner.commitIndex := by omega
      refine ⟨⟨hplaced, ⟨?_, hlast⟩⟩, hcommit, ?_⟩
      · rw [hinner]
        exact hle
      · rw [hinner]
        exact Nat.le_add_right _ _
  · exact ⟨⟨hplaced, ⟨hk.lastApplied ▸ happlied.trans hcommit, hlast⟩⟩, hcommit,
      hk.lastApplied.ge⟩

end Node

/-- **Commit index and last applied index move forward**, and stay within each other and the
log. -/
structure Progresses (r : List (Node Cmd)) : Prop where
  bounded : ∀ n ∈ r, n.worker.inner.Bounded
  commits : ∀ n n', Moves r n n' → n.worker.inner.commitIndex ≤ n'.worker.inner.commitIndex
  applies : ∀ n n', Moves r n n' → n.worker.inner.lastApplied ≤ n'.worker.inner.lastApplied

/-- **A worker makes progress throughout its life**, when it accepts no late batch. -/
theorem progresses {r : List (Node Cmd)} (h : IsRun Node.Sound
    (Acts Node.react fun n e => e.FromLeader ∧ ¬n.worker.Overtaken e) r) : Progresses r := by
  have hsound : ∀ n ∈ r, n.Sound := by
    refine h.invariant (fun n hn => hn) ?_
    rintro n n' hn ⟨e, ⟨he, hlate⟩, hreact⟩
    exact (hn.react he hlate hreact).1
  have hstep : ∀ n n', Moves r n n' → n.worker.inner.commitIndex ≤ n'.worker.inner.commitIndex ∧
      n.worker.inner.lastApplied ≤ n'.worker.inner.lastApplied := by
    intro n n' hm
    obtain ⟨⟨e, ⟨he, hlate⟩, hreact⟩, -⟩ := h.of_moves hm
    exact ((hsound n hm.mem_left).react he hlate hreact).2
  exact ⟨fun n hn => (hsound n hn).bounded, fun n n' hm => (hstep n n' hm).1,
    fun n n' hm => (hstep n n' hm).2⟩

/-! ### A run of either kind -/

instance (w : RaftWorkerInner Cmd) (req : AppendEntriesRequest Cmd) : Decidable (w.Exceeds req) :=
  decidable_of_iff (w.commitIndex < req.leaderCommit ∧
    req.entries.getLast?.any (·.idx < w.commitIndex) = true) (by
      rw [RaftWorkerInner.Exceeds, Option.any_eq_true]
      simp)

/-- The heartbeat behind `earlyCommit`, when both entries are committed. -/
def timelyCommit : AppendEntriesRequest ℕ where
  term := 1
  leaderId := 1
  prevLogIndex := 2
  prevLogTerm := 1
  entries := []
  leaderCommit := 2

theorem fromLeader_earlyCommit : earlyCommit.FromLeader := by
  refine ⟨?_, 2, le_rfl, nofun, by decide⟩
  rintro (_ | _ | j) e he
  · obtain rfl := Option.some.inj he
    rfl
  · obtain rfl := Option.some.inj he
    rfl
  · cases he

theorem fromLeader_timelyCommit : timelyCommit.FromLeader := by
  refine ⟨fun j e he => ?_, 2, le_rfl, fun _ => rfl, le_rfl⟩
  cases he

/-- A leader's request is not one of the two, or ends below the commit index. -/
def strays (n : Node ℕ) : Event ℕ → Bool
  | .rpc _ _ (.appendEntries req) =>
    req ∉ [earlyCommit, timelyCommit] || n.worker.inner.Exceeds req
  | _ => false

theorem fromLeader_of_strays {n : Node ℕ} {e : Event ℕ} (h : strays n e = false) :
    e.FromLeader ∧ ¬n.worker.Overtaken e := by
  cases e with
  | rpc caller k req =>
    cases req with
    | appendEntries req =>
      simp only [strays, Bool.or_eq_false_iff, decide_eq_false_iff_not, not_not] at h
      obtain ⟨hreq, hexceeds⟩ := h
      refine ⟨?_, fun hover => hexceeds hover.2.2.2.2⟩
      rcases List.mem_cons.mp hreq with rfl | hreq
      · exact fromLeader_earlyCommit
      · rw [List.mem_singleton.mp hreq]
        exact fromLeader_timelyCommit
    | requestVote req => exact ⟨trivial, id⟩
    | forwardClientRequest req => exact ⟨trivial, id⟩
  | _ => exact ⟨trivial, id⟩

/-- A node follows its leader up to the second entry. -/
theorem progresses_run : ∃ r : List (Node ℕ), Progresses r ∧
    ∃ n ∈ r, n.worker.inner.lastApplied = 2 := by
  obtain ⟨r, -, hr, hf⟩ := exists_run_of_play Node.Sound Node.react strays Node.starts_fresh.sound
    [.rpc 1 0 (.appendEntries earlyCommit), .applyLog, .rpc 1 1 (.appendEntries timelyCommit),
      .applyLog]
    (fun r => r.any fun n => n.worker.inner.lastApplied = 2)
    (by decide +kernel)
  simp only [List.any_eq_true, decide_eq_true_eq] at hf
  exact ⟨r, progresses (IsRun.mono (fun _ _ => Acts.mono fun _ _ => fromLeader_of_strays) hr), hf⟩

/-- Batch `k` of a leader of term `1` that has committed `300` entries. -/
def fullBatch (k : ℕ) : AppendEntriesRequest ℕ where
  term := 1
  leaderId := 1
  prevLogIndex := 100 * k
  prevLogTerm := if k = 0 then 0 else 1
  entries := (List.range' (100 * k + 1) Leader.maxBatchSize).map fun i => ⟨0, 1, i⟩
  leaderCommit := 300

theorem getElem?_fullBatch {k j : ℕ} {e : LogEntry ℕ} (h : (fullBatch k).entries[j]? = some e) :
    j < 100 ∧ e = ⟨0, 1, 100 * k + j + 1⟩ := by
  simp only [fullBatch, Leader.maxBatchSize, List.getElem?_map, Option.map_eq_some_iff,
    List.getElem?_eq_some_iff, List.length_range', List.getElem_range'] at h
  obtain ⟨i, ⟨hj, rfl⟩, rfl⟩ := h
  exact ⟨hj, by congr 1; omega⟩

theorem fromLeader_fullBatch {k : ℕ} (hk : k ≤ 2) : (fullBatch k).FromLeader := by
  refine ⟨fun j e he => ?_, 300, ?_, nofun, le_rfl⟩
  · rw [(getElem?_fullBatch he).2]
    rfl
  · simp only [fullBatch, Leader.maxBatchSize, List.length_map, List.length_range']
    omega

/-- Batch `k` commits its own entries. -/
theorem followCommit_fullBatch {k c : ℕ} (hk : k ≤ 2) (hc : c < 300) :
    RaftWorkerInner.followCommit c (fullBatch k) = 100 * (k + 1) := by
  have hlast : (fullBatch k).entries.getLast? = some ⟨0, 1, 100 * k + 100⟩ := by
    simp [fullBatch, Leader.maxBatchSize, List.getLast?_range']
  have hcommit : c < (fullBatch k).leaderCommit := hc
  rw [RaftWorkerInner.followCommit, if_pos hcommit, hlast, Option.elim_some]
  show min 300 (100 * k + 100) = _
  omega

/-- The worker has followed the leader through the first `k` batches. -/
structure FollowedTo (k : ℕ) (w : RaftWorkerInner ℕ) : Prop where
  wf : w.storage.Wf
  term : w.storage.currentTerm ≤ 1
  log : w.storage.log.length = 100 * k
  entries : ∀ e ∈ w.storage.log, e.term = 1
  commit : w.commitIndex = 100 * k

namespace FollowedTo

variable {k : ℕ}

/-- What the worker has heard changes its term at most. -/
theorem heard {v : RaftWorker Follower ℕ} (h : FollowedTo k v.inner) (j : ℕ) :
    FollowedTo k ((RaftWorkerState.follower v).heard (fullBatch j)) := by
  have hlog : (v.inner.storage.updateTerm 1).2.log = v.inner.storage.log :=
    Storage.log_updateTerm _ 1
  refine ⟨Storage.wf_updateTerm h.wf 1, ?_, ?_, ?_, h.commit⟩
  · exact (Storage.currentTerm_updateTerm _ 1).le.trans (max_le h.term le_rfl)
  · exact (congrArg List.length hlog).trans h.log
  · exact fun e he => h.entries e (hlog ▸ he)

theorem getLog {w : RaftWorkerInner ℕ} (h : FollowedTo k w) {i : ℕ} (hpos : 0 < i)
    (hi : i ≤ 100 * k) : ∃ e, w.storage.getLog i = .ok (some e) ∧ e.term = 1 := by
  have hlt : i - 1 < w.storage.log.length := by
    rw [h.log]
    omega
  refine ⟨w.storage.log[i - 1], ?_, h.entries _ (List.getElem_mem hlt)⟩
  rw [h.wf.getLog_eq, if_neg hpos.ne', List.getElem?_eq_getElem hlt]

theorem hasPrev {w : RaftWorkerInner ℕ} (h : FollowedTo k w) {j : ℕ} (hj : j ≤ k) :
    w.HasPrev (fullBatch j) := by
  rcases Nat.eq_zero_or_pos j with rfl | hpos
  · exact .inl rfl
  · obtain ⟨e, he, hterm⟩ := h.getLog (i := 100 * j) (by omega) (by omega)
    exact .inr ⟨e, he, hterm.trans (if_neg hpos.ne').symm⟩

/-- The next batch is appended and committed. -/
theorem react {v : RaftWorker Follower ℕ} (h : FollowedTo k v.inner) (hk : k ≤ 2) (c : ℕ) :
    ∃ v' : RaftWorker Follower ℕ, FollowedTo (k + 1) v'.inner ∧
      Node.react ⟨.follower v, none⟩ (.rpc 1 c (.appendEntries (fullBatch k))) =
        some ⟨.follower v', none⟩ := by
  have hheard := h.heard k
  generalize hw : (RaftWorkerState.follower v).heard (fullBatch k) = w at hheard
  have hindexed : Indexed (w.storage.log ++ (fullBatch k).entries) := by
    refine Indexed.append (fun _ _ => hheard.wf.idx_eq) fun j e he => ?_
    rw [(getElem?_fullBatch he).2, hheard.log]
  obtain ⟨s, hrun, hwf, hvote, hlog⟩ := RaftWorkerInner.handleEntries_append hheard.wf hindexed
  have hterm : w.storage.currentTerm ≤ (fullBatch k).term := hheard.term
  have heq := RaftWorkerInner.handleAppendEntries_of_hasPrev hterm (hheard.hasPrev le_rfl)
  rw [hrun] at heq
  have hreact : Node.react ⟨.follower v, none⟩ (.rpc 1 c (.appendEntries (fullBatch k))) =
      some ((RaftWorkerState.follower v).onRpc 1 c (.appendEntries (fullBatch k))).1 := rfl
  rw [RaftWorkerState.onRpc_appendEntries 1 c (fun hl => by cases hl), hw, heq] at hreact
  refine ⟨⟨_, {}⟩, ⟨hwf, hvote.currentTerm.le.trans hterm, ?_, fun e he => ?_, ?_⟩, hreact⟩
  · show s.log.length = 100 * (k + 1)
    rw [hlog, List.length_append, hheard.log]
    simp only [fullBatch, Leader.maxBatchSize, List.length_map, List.length_range']
    omega
  · have he' : e ∈ w.storage.log ++ (fullBatch k).entries := hlog ▸ he
    rcases List.mem_append.mp he' with he' | he'
    · exact hheard.entries e he'
    · obtain ⟨j, hj⟩ := List.getElem?_of_mem he'
      rw [(getElem?_fullBatch hj).2]
  · refine followCommit_fullBatch hk ?_
    rw [hheard.commit]
    omega

/-- The first batch is late once two have been followed. -/
theorem react_late {v : RaftWorker Follower ℕ} (h : FollowedTo 2 v.inner) (c : ℕ) :
    ∃ v' : RaftWorker Follower ℕ, v'.inner.commitIndex < v.inner.commitIndex ∧
      Node.react ⟨.follower v, none⟩ (.rpc 1 c (.appendEntries (fullBatch 0))) =
        some ⟨.follower v', none⟩ := by
  have hheard := h.heard 0
  have hcommit : ((RaftWorkerState.follower v).heard (fullBatch 0)).commitIndex =
      v.inner.commitIndex := rfl
  generalize hw : (RaftWorkerState.follower v).heard (fullBatch 0) = w at hheard hcommit
  have hover : w.Overtaken (fullBatch 0) := by
    refine ⟨hheard.term, hheard.hasPrev (Nat.zero_le 2), fun e he => ?_, ?_⟩
    · obtain ⟨j, hj⟩ := List.getElem?_of_mem he
      obtain ⟨hlt, rfl⟩ := getElem?_fullBatch hj
      exact hheard.getLog (Nat.succ_pos _) (show 100 * 0 + j + 1 ≤ 100 * 2 by omega)
    · rw [← RaftWorkerInner.followCommit_lt_iff, hheard.commit,
        followCommit_fullBatch (Nat.zero_le 2) (by omega)]
      omega
  have hlast : w.commitIndex ≤ w.storage.lastLogIndex := by
    rw [hheard.commit, ← hheard.wf.length_log, hheard.log]
  obtain ⟨resp, w', hrun, hlt⟩ := (RaftWorkerInner.commitIndex_lt_iff hlast
    (fromLeader_fullBatch (Nat.zero_le 2)).1).mpr hover
  have hreact : Node.react ⟨.follower v, none⟩ (.rpc 1 c (.appendEntries (fullBatch 0))) =
      some ((RaftWorkerState.follower v).onRpc 1 c (.appendEntries (fullBatch 0))).1 := rfl
  rw [RaftWorkerState.onRpc_appendEntries 1 c (fun hl => by cases hl), hw, hrun] at hreact
  exact ⟨⟨w', {}⟩, hcommit ▸ hlt, hreact⟩

end FollowedTo

theorem followedTo_fresh : FollowedTo 0 Voter.fresh.inner :=
  ⟨Storage.wf_empty 1, Nat.zero_le 1, rfl, fun _ he => absurd he List.not_mem_nil, rfl⟩

/-- A leader has sent two full batches, and the first of them arrives once more. -/
theorem not_progresses : ¬∀ r : List (Node ℕ),
    IsRun Node.Starts (Acts Node.react fun _ e => e.FromLeader) r → Progresses r := by
  intro h
  obtain ⟨v₁, h₁, hreact₁⟩ := FollowedTo.react
    (v := { inner := Voter.fresh.inner, state := {} }) followedTo_fresh (Nat.zero_le 2) 0
  obtain ⟨v₂, h₂, hreact₂⟩ := h₁.react (Nat.le_succ 1) 1
  obtain ⟨v₃, hlt, hreact₃⟩ := h₂.react_late 2
  have hrun : IsRun Node.Starts (Acts Node.react fun _ e => e.FromLeader)
      [⟨.follower v₃, none⟩, ⟨.follower v₂, none⟩, ⟨.follower v₁, none⟩, Voter.fresh.node] := by
    refine .next (.next (.next (.start Node.starts_fresh) ⟨_, ?_, hreact₁⟩) ⟨_, ?_, hreact₂⟩)
      ⟨_, ?_, hreact₃⟩
    · exact fromLeader_fullBatch (Nat.zero_le 2)
    · exact fromLeader_fullBatch (Nat.le_succ 1)
    · exact fromLeader_fullBatch (Nat.zero_le 2)
  have hle := (h _ hrun).commits ⟨.follower v₂, none⟩ ⟨.follower v₃, none⟩
    (moves_cons_cons.mpr (.inl ⟨rfl, rfl⟩))
  exact absurd hlt (Nat.not_lt.mpr hle)

end Wraft
