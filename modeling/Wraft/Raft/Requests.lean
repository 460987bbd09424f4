import Wraft.Raft.Follows

/-!
# Requests of other nodes

What a worker makes of a `RequestVote` or an `AppendEntries` request, in each of the three roles.

* `onRpc_requestVote_cases` — a leader refuses a request of its term or an older one; any other
  worker answers it with `RaftWorkerInner.vote`.
* `onRpc_appendEntries_of_le`, `onRpc_appendEntries` — a leader refuses such a request; any other
  worker notes the term and runs `handle_append_entries`.
-/

namespace Wraft

variable {Cmd : Type}

/-! ### The roles -/

inductive Role where
  | follower
  | candidate
  | leader
  deriving DecidableEq, Repr

def RaftWorkerState.role : RaftWorkerState Cmd → Role
  | .follower _ => .follower
  | .candidate _ => .candidate
  | .leader _ => .leader

theorem RaftWorkerState.role_withInner (w : RaftWorkerState Cmd) (inner : RaftWorkerInner Cmd) :
    (w.withInner inner).role = w.role := by
  cases w <;> rfl

namespace RaftWorkerInner

/-- A term that is not newer changes nothing. -/
theorem updateTerm_eq_of_le {w : RaftWorkerInner Cmd} {t : ℕ} (h : t ≤ w.storage.currentTerm) :
    w.updateTerm t = (false, w) := by
  rw [updateTerm, Storage.updateTerm_of_le h]

theorem updateTerm_fst_eq (w : RaftWorkerInner Cmd) (t : ℕ) :
    (w.updateTerm t).1 = decide (w.storage.currentTerm < t) := Storage.updateTerm_fst _ t

theorem currentTerm_updateTerm (w : RaftWorkerInner Cmd) (t : ℕ) :
    (w.updateTerm t).2.storage.currentTerm = max w.storage.currentTerm t :=
  Storage.currentTerm_updateTerm _ t

/-- The worker's answer to a request for its vote, and the worker after it. -/
def vote (w : RaftWorkerInner Cmd) (req : RequestVoteRequest) :
    RequestVoteResponse × RaftWorkerInner Cmd :=
  (w.updateTerm req.term).2.handleRequestVote req

@[simp]
theorem currentTerm_vote (w : RaftWorkerInner Cmd) (req : RequestVoteRequest) :
    (w.vote req).2.storage.currentTerm = max w.storage.currentTerm req.term := by
  rw [vote, handleRequestVote, ← currentTerm_updateTerm]
  split_ifs
  · exact Storage.currentTerm_setVotedFor _ _
  · rfl

theorem term_vote (w : RaftWorkerInner Cmd) (req : RequestVoteRequest) : (w.vote req).1.term =
    if (w.updateTerm req.term).2.grantsVote req then req.lastLogTerm else 0 := by
  rw [vote, handleRequestVote]
  split_ifs <;> rfl

/-- A request of an old term gets no vote and leaves no trace. -/
theorem vote_of_lt {w : RaftWorkerInner Cmd} {req : RequestVoteRequest}
    (h : req.term < w.storage.currentTerm) :
    w.vote req = ({ term := 0, voteGranted := false }, w) := by
  rw [vote, updateTerm_eq_of_le h.le, handleRequestVote, if_neg]
  exact fun hg => absurd hg.1 (Nat.not_le.mpr h)

variable [Bincode (LogEntry Cmd)]

theorem handleAppendEntries_of_lt {w : RaftWorkerInner Cmd} {req : AppendEntriesRequest Cmd}
    (h : req.term < w.storage.currentTerm) : (handleAppendEntries req).run w =
      .ok { term := w.storage.currentTerm, success := false } w := by
  simp [handleAppendEntries, h]

end RaftWorkerInner

/-! ### A leader -/

namespace Leader

theorem withInner_updateTerm (w : RaftWorker Leader Cmd) (t : ℕ) :
    (withInner (modifyGet (·.updateTerm t)) : Rust (RaftWorker Leader Cmd) Bool).run w =
      .ok (decide (w.inner.storage.currentTerm < t))
        { w with inner := (w.inner.updateTerm t).2 } := by
  rw [← RaftWorkerInner.updateTerm_fst_eq]
  exact withInner_run_of_ok (EStateM.run_modifyGet _ _)

variable [Bincode (LogEntry Cmd)] (caller : NodeId) (k : ℕ) {w : RaftWorker Leader Cmd}

/-- A leader refuses a request of its own term or an older one. -/
theorem handleRpc_requestVote_of_le {req : RequestVoteRequest}
    (h : req.term ≤ w.inner.storage.currentTerm) :
    (handleRpc caller k (.requestVote req)).run w = .ok (some (.requestVote
      { term := w.inner.storage.currentTerm, voteGranted := false }), .continue) w := by
  rw [handleRpc, EStateM.run_bind_of_ok (EStateM.run_get _),
    EStateM.run_bind_of_ok (withInner_updateTerm w req.term),
    RaftWorkerInner.updateTerm_eq_of_le h, decide_eq_false (Nat.not_lt.mpr h)]
  rfl

theorem handleRpc_requestVote_of_lt {req : RequestVoteRequest}
    (h : w.inner.storage.currentTerm < req.term) :
    (handleRpc caller k (.requestVote req)).run w = .ok (some (.requestVote (w.inner.vote req).1),
      .becomeFollower) { w with inner := (w.inner.vote req).2 } := by
  rw [handleRpc, EStateM.run_bind_of_ok (EStateM.run_get _),
    EStateM.run_bind_of_ok (withInner_updateTerm w req.term), decide_eq_true h, if_pos rfl,
    EStateM.run_bind_of_ok (withInner_run_of_ok (EStateM.run_modifyGet _ _))]
  rfl

theorem handleRpc_appendEntries_of_le {req : AppendEntriesRequest Cmd}
    (h : req.term ≤ w.inner.storage.currentTerm) :
    (handleRpc caller k (.appendEntries req)).run w = .ok (some (.appendEntries
      { term := w.inner.storage.currentTerm, success := false }), .continue) w := by
  rw [handleRpc, EStateM.run_bind_of_ok (EStateM.run_get _),
    EStateM.run_bind_of_ok (withInner_updateTerm w req.term),
    RaftWorkerInner.updateTerm_eq_of_le h, decide_eq_false (Nat.not_lt.mpr h)]
  rfl

/-- A leader that hears of a newer term handles the request as the others do. -/
theorem handleRpc_appendEntries_of_lt {req : AppendEntriesRequest Cmd}
    (h : w.inner.storage.currentTerm < req.term) :
    (handleRpc caller k (.appendEntries req)).run w =
      match (RaftWorkerInner.handleAppendEntries req).run (w.inner.updateTerm req.term).2 with
      | .ok resp i => .ok (some (.appendEntries resp), .becomeFollower) { w with inner := i }
      | .error p i => .error p { w with inner := i } := by
  rw [handleRpc, EStateM.run_bind_of_ok (EStateM.run_get _),
    EStateM.run_bind_of_ok (withInner_updateTerm w req.term), decide_eq_true h, if_pos rfl]
  cases hrun : (RaftWorkerInner.handleAppendEntries req).run (w.inner.updateTerm req.term).2 with
  | ok resp i =>
    rw [EStateM.run_bind_of_ok (withInner_run_of_ok hrun)]
    rfl
  | error p i => rw [EStateM.run_bind_of_error (withInner_run_of_error hrun)]

end Leader

/-! ### Any role -/

namespace RaftWorkerState

variable [Bincode (LogEntry Cmd)]

/-- **A request for a vote** is refused by a leader of its term or a newer one. Any other worker
answers it with `vote`, and is a follower afterwards if the request's term is newer. -/
theorem onRpc_requestVote_cases (w : RaftWorkerState Cmd) (caller : NodeId) (k : ℕ)
    (req : RequestVoteRequest) :
    (w.role = .leader ∧ req.term ≤ w.inner.storage.currentTerm ∧
      w.onRpc caller k (.requestVote req) = (⟨w, none⟩, some (.requestVote
        { term := w.inner.storage.currentTerm, voteGranted := false }))) ∨
    ((w.role = .leader → w.inner.storage.currentTerm < req.term) ∧ ∃ w' : RaftWorkerState Cmd,
      w.onRpc caller k (.requestVote req) =
        (⟨w', none⟩, some (.requestVote (w.inner.vote req).1)) ∧
      w'.inner = (w.inner.vote req).2 ∧
      (w.inner.storage.currentTerm < req.term ∧ w'.role = .follower ∨
        req.term ≤ w.inner.storage.currentTerm ∧ w' = w.withInner (w.inner.vote req).2)) := by
  cases w with
  | follower w =>
    refine .inr ⟨nofun, .follower { w with inner := (w.inner.vote req).2 }, rfl, rfl, ?_⟩
    rcases Nat.lt_or_ge w.inner.storage.currentTerm req.term with hlt | hge
    · exact .inl ⟨hlt, rfl⟩
    · exact .inr ⟨hge, rfl⟩
  | candidate w =>
    have hrun : (Candidate.handleRpc (.requestVote req)).run w.inner =
        .ok (.requestVote (w.inner.vote req).1,
          if (w.inner.updateTerm req.term).1 then .becomeFollower else .continue)
          (w.inner.vote req).2 := rfl
    refine .inr ⟨nofun, ?_⟩
    rcases Nat.lt_or_ge w.inner.storage.currentTerm req.term with hlt | hge
    · rw [RaftWorkerInner.updateTerm_fst_eq, decide_eq_true hlt, if_pos rfl] at hrun
      refine ⟨.follower ⟨(w.inner.vote req).2, {}⟩, ?_, rfl, .inl ⟨hlt, rfl⟩⟩
      simp only [onRpc, hrun]
      rfl
    · rw [RaftWorkerInner.updateTerm_fst_eq, decide_eq_false (Nat.not_lt.mpr hge),
        if_neg Bool.false_ne_true] at hrun
      refine ⟨.candidate { w with inner := (w.inner.vote req).2 }, ?_, rfl, .inr ⟨hge, rfl⟩⟩
      simp only [onRpc, hrun]
      rfl
  | leader w =>
    rcases Nat.lt_or_ge w.inner.storage.currentTerm req.term with hlt | hge
    · refine .inr ⟨fun _ => hlt, .follower ⟨(w.inner.vote req).2, {}⟩, ?_, rfl, .inl ⟨hlt, rfl⟩⟩
      simp only [onRpc, Leader.handleRpc_requestVote_of_lt caller k hlt]
      rfl
    · refine .inl ⟨rfl, hge, ?_⟩
      simp only [onRpc, Leader.handleRpc_requestVote_of_le caller k hge]
      rfl

/-- The worker when it has noted the term, and a follower also the sender, of a request. -/
def heard (w : RaftWorkerState Cmd) (req : AppendEntriesRequest Cmd) : RaftWorkerInner Cmd :=
  match w with
  | .follower w => { (w.inner.updateTerm req.term).2 with leaderId := some req.leaderId }
  | .candidate w => (w.inner.updateTerm req.term).2
  | .leader w => (w.inner.updateTerm req.term).2

/-- A leader refuses entries in a request of its own term or an older one. -/
theorem onRpc_appendEntries_of_le {w : RaftWorkerState Cmd} (hw : w.role = .leader)
    (caller : NodeId) (k : ℕ) {req : AppendEntriesRequest Cmd}
    (h : req.term ≤ w.inner.storage.currentTerm) :
    w.onRpc caller k (.appendEntries req) = (⟨w, none⟩, some (.appendEntries
      { term := w.inner.storage.currentTerm, success := false })) := by
  cases w with
  | leader w =>
    simp only [onRpc, Leader.handleRpc_appendEntries_of_le caller k h]
    rfl
  | follower w => cases hw
  | candidate w => cases hw

/-- **An `AppendEntries` request** that no leader refuses is a matter of
`handle_append_entries`, and makes the worker a follower. -/
theorem onRpc_appendEntries {w : RaftWorkerState Cmd} (caller : NodeId) (k : ℕ)
    {req : AppendEntriesRequest Cmd}
    (h : w.role = .leader → w.inner.storage.currentTerm < req.term) :
    w.onRpc caller k (.appendEntries req) =
      match (RaftWorkerInner.handleAppendEntries req).run (w.heard req) with
      | .ok resp inner => (⟨.follower { inner, state := {} }, none⟩, some (.appendEntries resp))
      | .error p inner => (⟨w.withInner inner, some p⟩, none) := by
  cases w with
  | follower w =>
    -- the sender is noted before the request is looked at
    have hrpc : (Follower.handleRpc (.appendEntries req)).run w.inner =
        ((RaftWorkerInner.handleAppendEntries req >>= fun resp => pure (.appendEntries resp)) :
          Rust (RaftWorkerInner Cmd) RpcResponse).run
          (heard (.follower w) req) := rfl
    simp only [onRpc, hrpc, EStateM.run_bind]
    cases (RaftWorkerInner.handleAppendEntries req).run (heard (.follower w) req) <;> rfl
  | candidate w =>
    have hrpc : (Candidate.handleRpc (.appendEntries req)).run w.inner =
        ((RaftWorkerInner.handleAppendEntries req >>= fun resp =>
          pure (.appendEntries resp, .becomeFollower)) :
          Rust (RaftWorkerInner Cmd) (RpcResponse × StateChange)).run
          (heard (.candidate w) req) := rfl
    simp only [onRpc, hrpc, EStateM.run_bind]
    cases (RaftWorkerInner.handleAppendEntries req).run (heard (.candidate w) req) <;> rfl
  | leader w =>
    simp only [onRpc, Leader.handleRpc_appendEntries_of_lt caller k (h rfl)]
    have hheard : heard (.leader w) req = (w.inner.updateTerm req.term).2 := rfl
    rw [hheard]
    cases (RaftWorkerInner.handleAppendEntries req).run (w.inner.updateTerm req.term).2 <;> rfl

end RaftWorkerState

end Wraft
