import Wraft.Raft.Effects

/-!
# The terms of requests and replies

* A request of an old term should have no effect. Requests for a vote have none, and neither have
  any at a leader; but a follower notes the sender of an old `AppendEntries` request as its leader,
  and a candidate gives up its election for it (`inert_iff`).
* A reply should carry the term of its sender, so that a node that is behind catches up. Replies
  to `AppendEntries` do, but a vote carries the term of the *requester's* last log entry and a
  refusal carries `0` (`informs_iff`), and a candidate looks at neither.
-/

namespace Wraft

variable {Cmd : Type}

/-- The term in which a request was made, unless it forwards the request of a client. -/
def RpcRequest.term? : RpcRequest Cmd → Option ℕ
  | .appendEntries req => some req.term
  | .requestVote req => some req.term
  | .forwardClientRequest _ => none

/-- The term that a reply carries. -/
def RpcResponse.term? : RpcResponse → Option ℕ
  | .appendEntries resp => some resp.term
  | .requestVote resp => some resp.term
  | .forwardClientRequest _ => none

/-- The reply refuses what was asked for. -/
def RpcResponse.Negative : RpcResponse → Prop
  | .appendEntries resp => resp.success = false
  | .requestVote resp => resp.voteGranted = false
  | .forwardClientRequest _ => False

namespace RaftWorkerState

variable [Bincode (LogEntry Cmd)]

/-! ### Old requests -/

/-- The request has no effect on the worker, and is refused. -/
structure Inert (w : RaftWorkerState Cmd) (caller : NodeId) (k : ℕ) (req : RpcRequest Cmd) : Prop
    where
  running : (w.onRpc caller k req).1.panicked = none
  role : (w.onRpc caller k req).1.worker.role = w.role
  currentTerm : (w.onRpc caller k req).1.worker.inner.storage.currentTerm =
    w.inner.storage.currentTerm
  votedFor : (w.onRpc caller k req).1.worker.inner.storage.votedFor = w.inner.storage.votedFor
  log : (w.onRpc caller k req).1.worker.inner.storage.log = w.inner.storage.log
  commitIndex : (w.onRpc caller k req).1.worker.inner.commitIndex = w.inner.commitIndex
  lastApplied : (w.onRpc caller k req).1.worker.inner.lastApplied = w.inner.lastApplied
  leaderId : (w.onRpc caller k req).1.worker.inner.leaderId = w.inner.leaderId
  refused : ∃ resp, (w.onRpc caller k req).2 = some resp ∧ resp.Negative

omit [Bincode (LogEntry Cmd)] in
/-- The worker has nothing to lose to an old request: it is no `AppendEntries` request, or the
worker is a leader, or a follower of the request's sender. -/
def Withstands (w : RaftWorkerState Cmd) : RpcRequest Cmd → Prop
  | .appendEntries req => match w with
    | .follower w => w.inner.leaderId = some req.leaderId
    | .candidate _ => False
    | .leader _ => True
  | _ => True

theorem Inert.of_eq {w w' : RaftWorkerState Cmd} {caller : NodeId} {k : ℕ} {req : RpcRequest Cmd}
    {resp : RpcResponse} (h : w.onRpc caller k req = (⟨w', none⟩, some resp))
    (hrole : w'.role = w.role) (hinner : w'.inner = w.inner) (hresp : resp.Negative) :
    w.Inert caller k req := by
  constructor <;> rw [h]
  · exact hrole
  · exact congrArg (·.storage.currentTerm) hinner
  · exact congrArg (·.storage.votedFor) hinner
  · exact congrArg (·.storage.log) hinner
  · exact congrArg (·.commitIndex) hinner
  · exact congrArg (·.lastApplied) hinner
  · exact congrArg (·.leaderId) hinner
  · exact ⟨resp, rfl, hresp⟩

/-- An old request for a vote leaves any worker as it is. -/
theorem inert_requestVote {w : RaftWorkerState Cmd} (caller : NodeId) (k : ℕ)
    {req : RequestVoteRequest} (h : req.term < w.inner.storage.currentTerm) :
    w.Inert caller k (.requestVote req) := by
  rcases w.onRpc_requestVote_cases caller k req with ⟨-, -, hrpc⟩ | ⟨-, w', hrpc, hinner, hrole⟩
  · exact .of_eq hrpc rfl rfl rfl
  · rw [RaftWorkerInner.vote_of_lt h] at hrpc hinner hrole
    obtain ⟨hlt, -⟩ | ⟨-, rfl⟩ := hrole
    · exact absurd hlt (Nat.lt_asymm h)
    · exact .of_eq hrpc (role_withInner w _) hinner rfl

/-- What an old `AppendEntries` request leaves behind, unless it meets a leader. -/
theorem onRpc_appendEntries_of_lt {w : RaftWorkerState Cmd} (hw : w.role ≠ .leader)
    (caller : NodeId) (k : ℕ) {req : AppendEntriesRequest Cmd} {inner : RaftWorkerInner Cmd}
    (hheard : w.heard req = inner) (h : req.term < inner.storage.currentTerm) :
    w.onRpc caller k (.appendEntries req) =
      (⟨.follower { inner, state := {} }, none⟩, some (.appendEntries
        { term := inner.storage.currentTerm, success := false })) := by
  rw [onRpc_appendEntries caller k (fun hl => absurd hl hw), hheard,
    RaftWorkerInner.handleAppendEntries_of_lt h]

/-- **A request of an old term has no effect** exactly when the worker withstands it. -/
theorem inert_iff {w : RaftWorkerState Cmd} {caller : NodeId} {k : ℕ} {req : RpcRequest Cmd}
    {t : ℕ} (ht : req.term? = some t) (hold : t < w.inner.storage.currentTerm) :
    w.Inert caller k req ↔ w.Withstands req := by
  cases req with
  | requestVote req =>
    obtain rfl := Option.some.inj ht
    exact iff_of_true (inert_requestVote caller k hold) trivial
  | forwardClientRequest req => cases ht
  | appendEntries req =>
    obtain rfl := Option.some.inj ht
    cases w with
    | leader w =>
      exact iff_of_true (.of_eq (onRpc_appendEntries_of_le rfl caller k hold.le) rfl rfl rfl)
        trivial
    | candidate w =>
      -- a candidate is a follower after any `AppendEntries` request
      have hrpc := onRpc_appendEntries_of_lt (w := .candidate w) nofun caller k
        (congrArg Prod.snd (RaftWorkerInner.updateTerm_eq_of_le hold.le)) hold
      refine iff_of_false (fun hi => ?_) id
      have hrole := hi.role
      rw [hrpc] at hrole
      have : Role.follower = Role.candidate := hrole
      cases this
    | follower w =>
      have hupdate : w.inner.updateTerm req.term = (false, w.inner) :=
        RaftWorkerInner.updateTerm_eq_of_le hold.le
      have hheard : heard (.follower w) req = { w.inner with leaderId := some req.leaderId } := by
        rw [heard, hupdate]
      have hrpc := onRpc_appendEntries_of_lt (w := .follower w) nofun caller k hheard hold
      constructor
      · intro hi
        have hleader := hi.leaderId
        rw [hrpc] at hleader
        exact hleader.symm
      · intro hleader
        refine .of_eq hrpc rfl ?_ rfl
        rw [← show w.inner.leaderId = some req.leaderId from hleader]

/-- A node of three that has heard of `term` and of the leader `leaderId`, and of nothing else. -/
def informed (term : ℕ) (leaderId : Option NodeId) : RaftWorkerInner ℕ where
  leaderId
  nodeId := 0
  sessionKey := 1
  clusterSize := 3
  peers := [1, 2]
  peerClients := (∅ : AList fun _ : NodeId => Client).insert 1 { connected := true }
  commitIndex := 0
  lastApplied := 0
  storage := ((Storage.mk 1 0 0 none [] : Storage ℕ).updateTerm term).2
  stateMachineTx := []
  forwarded := []
  transport := { calls := [], answers := [] }

/-- The heartbeat of a leader without a log in `term`. -/
def heartbeatOf (leaderId : NodeId) (term : ℕ) : AppendEntriesRequest ℕ where
  term
  leaderId
  prevLogIndex := 0
  prevLogTerm := 0
  entries := []
  leaderCommit := 0

/-- A follower in term `2` gets a heartbeat that its leader sent in term `1`. -/
theorem inert_iff_heartbeat :
    (RaftWorkerState.follower ⟨informed 2 (some 1), {}⟩).Inert 1 0
      (.appendEntries (heartbeatOf 1 1)) :=
  (inert_iff (t := 1) rfl (by decide)).mpr rfl

/-- A candidate in term `2` gives up its election for a heartbeat of term `1`. -/
theorem not_inert : ¬∀ (w : RaftWorkerState ℕ) (caller : NodeId) (k : ℕ) (req : RpcRequest ℕ)
    (t : ℕ),
    req.term? = some t → t < w.inner.storage.currentTerm → w.Inert caller k req := by
  intro h
  have hrole := (h (onElectionTimeout.elect (informed 1 none)).worker 1 0
    (.appendEntries (heartbeatOf 1 1)) 1 rfl (by decide +kernel)).role
  exact absurd hrole (by decide +kernel)

/-! ### Replies -/

omit [Bincode (LogEntry Cmd)] in
/-- The worker is in the role and in the term in which it made the request, its call `k`, and
waits for the reply. -/
def Awaits (v : RaftWorkerState Cmd) (k : ℕ) : RpcRequest Cmd → Prop
  | .requestVote req => ∃ w, v = .candidate w ∧ k ∈ w.state.votesRx ∧
      req.term = w.inner.storage.currentTerm
  | .appendEntries req => ∃ w task, v = .leader w ∧
      w.state.responsesRx.find? (·.call = k) = some task ∧
      req.term = w.inner.storage.currentTerm
  | .forwardClientRequest _ => False

/-- The reply of `w` to call `k` of `v` tells the term of `w` to `v`: the reply carries it, and
with the reply `v` has reached it, as a follower if its own term was behind. -/
structure Informs (w v : RaftWorkerState Cmd) (caller : NodeId) (k : ℕ) (req : RpcRequest Cmd) :
    Prop where
  carries : ∀ resp, (w.onRpc caller k req).2 = some resp →
    resp.term? = some (w.onRpc caller k req).1.worker.inner.storage.currentTerm
  reaches : ∀ resp, (w.onRpc caller k req).2 = some resp → ∃ n, v.onResponse k (.ok resp) = some n ∧
    (w.onRpc caller k req).1.worker.inner.storage.currentTerm ≤
      n.worker.inner.storage.currentTerm ∧
    (v.inner.storage.currentTerm < n.worker.inner.storage.currentTerm → n.worker.role = .follower)

omit [Bincode (LogEntry Cmd)] in
/-- What the terms have to be like for the reply to inform: the request carries entries, or it is
for the vote of a leader of the same term, or the vote is given to a candidate whose last entry is
of the term it stands in, or it is refused and both nodes are still in term `0`. -/
def TermsAgree (w : RaftWorkerState Cmd) : RpcRequest Cmd → Prop
  | .requestVote req =>
    w.role = .leader ∧ req.term = w.inner.storage.currentTerm ∨
    if (w.inner.updateTerm req.term).2.grantsVote req then req.lastLogTerm = req.term
    else req.term = 0 ∧ w.inner.storage.currentTerm = 0
  | _ => True

omit [Bincode (LogEntry Cmd)] in
/-- The end of a vote call leaves the term of a candidate. -/
theorem currentTerm_onVote (w : RaftWorker Candidate Cmd) (k : ℕ) (res : RpcResult) :
    (onVote w k res).worker.inner.storage.currentTerm = w.inner.storage.currentTerm := by
  rw [onVote.eq_def]
  dsimp only
  split
  · split_ifs <;> rfl
  · rfl
  · rfl

/-- The end of an `AppendEntries` call brings a leader to the term of the reply, and a leader that
was behind steps down. -/
theorem currentTerm_onAppend (w : RaftWorker Leader Cmd) (task : InFlightAppend)
    (resp : AppendEntriesResponse) :
    (onAppend w task (.ok (.appendEntries resp))).worker.inner.storage.currentTerm =
      max w.inner.storage.currentTerm resp.term ∧
    (w.inner.storage.currentTerm < resp.term →
      (onAppend w task (.ok (.appendEntries resp))).worker.role = .follower) := by
  set u : RaftWorker Leader Cmd := { w with state := { w.state with
    responsesRx := w.state.responsesRx.filter (·.call ≠ task.call) } } with hu
  rw [onAppend, ← hu]
  obtain ⟨resp', v, heq, hlt, hrun, hinner⟩ | ⟨hle, v, ⟨⟨calls, hcalls⟩, -⟩, hrun⟩ :=
    Leader.handleAppendEntriesResponse_cases task.peerId task.firstEntry task.lastEntry
      (.ok (.appendEntries resp)) u
  · obtain rfl : resp = resp' := by simpa using heq
    rw [hrun]
    refine ⟨?_, fun _ => rfl⟩
    show v.inner.storage.currentTerm = _
    rw [hinner, RaftWorkerInner.currentTerm_updateTerm]
  · have hterm : v.inner.storage.currentTerm = max w.inner.storage.currentTerm resp.term := by
      rw [hcalls, max_eq_left (hle resp rfl)]
    refine ⟨?_, fun hlt => absurd hlt (Nat.not_lt.mpr (hle resp rfl))⟩
    obtain hrun | ⟨p, hrun⟩ := hrun <;> rw [hrun] <;> exact hterm

/-- A reply to entries carries the term of its sender. -/
theorem term_of_appendEntries {w : RaftWorkerState Cmd} {caller : NodeId} {k : ℕ}
    {req : AppendEntriesRequest Cmd} {resp : RpcResponse}
    (h : (w.onRpc caller k (.appendEntries req)).2 = some resp) :
    ∃ success, resp = .appendEntries
      { term := (w.onRpc caller k (.appendEntries req)).1.worker.inner.storage.currentTerm,
        success } := by
  by_cases hrefuse : w.role = .leader ∧ req.term ≤ w.inner.storage.currentTerm
  · rw [onRpc_appendEntries_of_le hrefuse.1 caller k hrefuse.2] at h ⊢
    exact ⟨false, (Option.some.inj h).symm⟩
  · rw [onRpc_appendEntries caller k fun hl => Nat.not_le.mp fun hle => hrefuse ⟨hl, hle⟩] at h ⊢
    obtain ⟨p, w', hrun, -⟩ | hrun | ⟨w', hrun, hreceives, -⟩ :=
      RaftWorkerInner.handleAppendEntries_run (w.heard req) req
    · rw [hrun] at h
      cases h
    · rw [hrun] at h ⊢
      exact ⟨false, (Option.some.inj h).symm⟩
    · rw [hrun] at h ⊢
      refine ⟨true, (Option.some.inj h).symm.trans ?_⟩
      rw [← hreceives.storage.sameVote.currentTerm]
      rfl

/-- What the reply to a request for a vote informs of. -/
theorem informs_requestVote_iff {w v : RaftWorkerState Cmd} {caller : NodeId} {k : ℕ}
    {req : RequestVoteRequest} {resp : RequestVoteResponse} {n : Node Cmd}
    (hv : v.Awaits k (.requestVote req))
    (h : w.onRpc caller k (.requestVote req) = (n, some (.requestVote resp))) :
    w.Informs v caller k (.requestVote req) ↔
      resp.term = n.worker.inner.storage.currentTerm ∧
        n.worker.inner.storage.currentTerm ≤ req.term := by
  obtain ⟨v, rfl, hk, hterm⟩ := hv
  have hresponse : (RaftWorkerState.candidate v).onResponse k (.ok (.requestVote resp)) =
      some (onVote v k (.ok (.requestVote resp))) := by
    rw [onResponse, if_pos hk]
  have hafter := currentTerm_onVote v k (.ok (.requestVote resp))
  constructor
  · intro hi
    have hcarries := hi.carries (.requestVote resp) (by rw [h])
    obtain ⟨n', hn', hle, -⟩ := hi.reaches (.requestVote resp) (by rw [h])
    rw [hresponse] at hn'
    obtain rfl := Option.some.inj hn'
    rw [h] at hcarries hle
    exact ⟨Option.some.inj hcarries, by rwa [hafter, ← hterm] at hle⟩
  · rintro ⟨hcarries, hle⟩
    constructor <;> rw [h] <;> rintro _ ⟨rfl⟩
    · exact congrArg some hcarries
    · refine ⟨_, hresponse, by rwa [hafter, ← hterm], fun hlt => ?_⟩
      rw [hafter] at hlt
      exact absurd hlt (Nat.lt_irrefl _)

/-- **A reply tells the term of its sender** exactly when the terms agree: always to a leader, and
by accident to a candidate. -/
theorem informs_iff {w v : RaftWorkerState Cmd} {caller : NodeId} {k : ℕ} {req : RpcRequest Cmd}
    (hv : v.Awaits k req) : w.Informs v caller k req ↔ w.TermsAgree req := by
  cases req with
  | forwardClientRequest req => exact absurd hv id
  | appendEntries req =>
    refine iff_of_true ?_ trivial
    obtain ⟨v, task, rfl, htask, -⟩ := hv
    constructor
    · intro resp hresp
      obtain ⟨success, rfl⟩ := term_of_appendEntries hresp
      rfl
    · intro resp hresp
      obtain ⟨success, rfl⟩ := term_of_appendEntries hresp
      have hresponse : ∀ res : RpcResult,
          (RaftWorkerState.leader v).onResponse k res = some (onAppend v task res) := by
        intro res
        rw [onResponse, htask]
      obtain ⟨hterm, hrole⟩ := currentTerm_onAppend v task
        { term := (w.onRpc caller k (.appendEntries req)).1.worker.inner.storage.currentTerm
          success }
      refine ⟨_, hresponse _, by rw [hterm]; exact le_max_right _ _, fun hlt => hrole ?_⟩
      rw [hterm] at hlt
      exact (lt_max_iff.mp hlt).resolve_left (Nat.lt_irrefl _)
  | requestVote req =>
    obtain ⟨hrole, hle, hrpc⟩ | ⟨hlead, w', hrpc, hinner, -⟩ :=
      w.onRpc_requestVote_cases caller k req
    · -- a leader tells its term, which the candidate has reached if it is the same
      rw [informs_requestVote_iff hv hrpc, TermsAgree, RaftWorkerInner.updateTerm_eq_of_le hle]
      constructor
      · rintro ⟨-, hge⟩
        exact .inl ⟨hrole, le_antisymm hle hge⟩
      · rintro (⟨-, heq⟩ | hagree)
        · exact ⟨rfl, heq.ge⟩
        · split_ifs at hagree with hg
          · exact ⟨rfl, hg.1⟩
          · exact ⟨rfl, hagree.2.le.trans (Nat.zero_le _)⟩
    · have hnot : ¬(w.role = .leader ∧ req.term = w.inner.storage.currentTerm) :=
        fun h => absurd h.2 (hlead h.1).ne'
      rw [informs_requestVote_iff hv hrpc, TermsAgree, hinner, RaftWorkerInner.currentTerm_vote,
        RaftWorkerInner.term_vote, or_iff_right hnot]
      split_ifs with hg
      · -- a vote is given in the term of the request only
        have hmax : max w.inner.storage.currentTerm req.term = req.term := by
          have hle := hg.1
          rw [RaftWorkerInner.currentTerm_updateTerm] at hle
          exact le_antisymm hle (le_max_right _ _)
        rw [hmax]
        exact and_iff_left le_rfl
      · omega

/-- Node `1`, a follower in `term`. -/
def informedFollower (term : ℕ) : RaftWorkerState ℕ :=
  .follower ⟨{ informed term none with nodeId := 1, peers := [0, 2] }, {}⟩

/-- A leader in term `1`, whose heartbeat is its call `0`. -/
def waitingLeader : RaftWorkerState ℕ :=
  .leader
    { inner := informed 1 none
      state :=
        { nextIndices := ∅
          matchIndices := ∅
          inFlightClientRequests := ∅
          inFlightPeers := {1}
          responsesRx := [{ call := 0, peerId := 1, firstEntry := 0, lastEntry := 0 }] } }

/-- A deposed leader hears from a follower in term `2`. -/
theorem informs_iff_heartbeat : (informedFollower 2).Informs waitingLeader 0 0
    (.appendEntries (heartbeatOf 0 1)) := by
  have hv : waitingLeader.Awaits 0 (.appendEntries (heartbeatOf 0 1)) :=
    ⟨_, _, rfl, rfl, by decide +kernel⟩
  exact (informs_iff hv).mpr trivial

/-- The candidate of term `2` is told term `0` by a follower in term `3`, and stays in its own. -/
theorem not_informs : ¬∀ (w v : RaftWorkerState ℕ) (caller : NodeId) (k : ℕ) (req : RpcRequest ℕ),
    v.Awaits k req → w.Informs v caller k req := by
  intro h
  have hcarries := (h (informedFollower 3)
    (onElectionTimeout.elect (informed 1 none)).worker 0 0
    (.requestVote { term := 2, candidate := 0, lastLogIndex := 0, lastLogTerm := 0 })
    ⟨_, rfl, by decide +kernel, by decide +kernel⟩).carries _ rfl
  exact absurd hcarries (by decide +kernel)

end RaftWorkerState

end Wraft
