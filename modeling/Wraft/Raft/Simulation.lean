import Wraft.Consensus.Turn
import Wraft.Raft.Cluster
import Wraft.Raft.WorkerSpec

/-!
# How a cluster stands for a state of the protocol

`Sim cfg g c a` relates a cluster `c` to a state `a` of the abstract protocol: each node's
storage holds the term, vote and log that `a` has for it, every call on record says something
true of `a`, and so does every reply. What a candidate counts as votes was cast for it, and what
a leader counts as matched was acknowledged.

A `Guard` says what may be assumed of the run. Two facts need an assumption: that commit indices
cover committed entries only (`AppliedSim`, for runs whose votes go to candidates with an up to
date log), and that a leader's next index stays above its match index (`LeaderSim.above`).
-/

namespace Wraft

open Consensus

variable {Cmd : Type}

/-- What may be assumed of a run. -/
structure Guard where
  /-- Votes are granted to candidates whose log is at least as up to date as the voter's. -/
  upToDate : Prop
  /-- No empty request that was sent with a log of one entry is refused. -/
  longProbes : Prop

/-- What the voters of a run can be said to compare. -/
def Guard.Compared (g : Guard) (l l' : List (LogEntry Cmd)) : Prop :=
  g.upToDate → UpToDate LogEntry.term l l'

/-- The states of the protocol for a cluster. -/
abbrev Spec (Cmd : Type) := Consensus.State NodeId (LogEntry Cmd)

variable (cfg : Config) (g : Guard)

/-- The responses given so far, as `Cluster.replies` lists them. -/
abbrev Replies := List ((NodeId × ℕ) × RpcResponse)

/-! ### Calls and replies -/

/-- What a leader says about its commit index is so. -/
structure LeaderCommitSim (a : Spec Cmd) (r : AppendEntriesRequest Cmd) : Prop where
  le : r.leaderCommit ≤ (a.leaderLog r.term).length
  committed : Committed LogEntry.term cfg.ids a r.term ((a.leaderLog r.term).take r.leaderCommit)
  empty : r.entries = [] → r.leaderCommit ≤ r.prevLogIndex

/-- What a request says about its sender is so. -/
def RequestSim (a : Spec Cmd) (src : NodeId) : RpcRequest Cmd → Prop
  | .appendEntries r => a.leader r.term = some src ∧ r.SliceOf (a.leaderLog r.term) ∧
      (g.upToDate → LeaderCommitSim cfg a r)
  | .requestVote r => r.candidate = src ∧ ∃ l, a.stood src r.term = some l ∧
      r.lastLogIndex = l.length ∧ r.lastLogTerm = lastTerm LogEntry.term l
  | .forwardClientRequest _ => True

/-- A call of `src` goes to another member, and says something true. -/
def CallSim (a : Spec Cmd) (src : NodeId) (call : NodeId × RpcRequest Cmd) : Prop :=
  call.1 ∈ cfg.ids ∧ call.1 ≠ src ∧ RequestSim cfg g a src call.2

/-- What a response to a call of `src` says stays so. -/
def ReplySim (a : Spec Cmd) (src : NodeId) (calls : List (NodeId × RpcRequest Cmd)) (k : ℕ) :
    RpcResponse → Prop
  | .appendEntries resp => ∃ dst r, calls[k]? = some (dst, .appendEntries r) ∧
      (resp.success = true → r.prevLogIndex + r.entries.length ≤ a.acked dst r.term)
  | .requestVote resp => ∃ dst r, calls[k]? = some (dst, .requestVote r) ∧
      (resp.voteGranted = true → a.vote dst r.term = some src)
  | .forwardClientRequest _ => True

/-- What a response says when it is given. A refusal in the leader's term is news about what the
follower has acknowledged, but only for the moment. -/
def FreshSim (a : Spec Cmd) (src dst : NodeId) : RpcRequest Cmd → RpcResponse → Prop
  | .appendEntries r, .appendEntries resp =>
      (resp.success = true → r.prevLogIndex + r.entries.length ≤ a.acked dst r.term) ∧
      (resp.success = false → resp.term = r.term → a.acked dst r.term < r.prevLogIndex)
  | .requestVote r, .requestVote resp => resp.voteGranted = true → a.vote dst r.term = some src
  | .forwardClientRequest _, .forwardClientRequest _ => True
  | _, _ => False

/-! ### Nodes -/

/-- The parts of a worker that never change, and its clients, which are for peers. -/
def Member (i : NodeId) (w : RaftWorkerInner Cmd) : Prop :=
  w.nodeId = i ∧ w.peers = cfg.peers i ∧ w.clusterSize = (cfg.peers i).length + 1 ∧
    w.storage.sessionKey = w.sessionKey ∧ ∀ p ∈ w.peerClients, p ∈ cfg.ids ∧ p ≠ i

/-- What is up to a commit index, and what was applied, is committed. -/
structure AppliedSim (a : Spec Cmd) (i : NodeId) (commitIndex lastApplied : ℕ)
    (stateMachineTx : List (LogEntry Cmd)) : Prop where
  commit_le : commitIndex ≤ (a.log i).length
  commit : Committed LogEntry.term cfg.ids a (a.term i) ((a.log i).take commitIndex)
  last : lastApplied = stateMachineTx.length
  applied_prefix : stateMachineTx <+: a.log i
  applied : Committed LogEntry.term cfg.ids a (a.term i) stateMachineTx

/-- A candidate has counted the votes of `G`, and waits for the votes of others. -/
structure CandidateSim (a : Spec Cmd) (i : NodeId) (w : RaftWorker Candidate Cmd) : Prop where
  stood : a.stood i (a.term i) ≠ none
  lost : a.leader (a.term i) ≠ some i
  votes : ∃ G : Finset NodeId, G ⊆ cfg.ids ∧ w.state.votes = G.card ∧
    (∀ q ∈ G, a.vote q (a.term i) = some i) ∧
    ∀ k ∈ w.state.votesRx, ∃ dst r, w.inner.transport.calls[k]? = some (dst, .requestVote r) ∧
      r.term = a.term i ∧ dst ∉ G
  distinct : ∀ k ∈ w.state.votesRx, ∀ k' ∈ w.state.votesRx, ∀ dst r r',
    w.inner.transport.calls[k]? = some (dst, r) →
    w.inner.transport.calls[k']? = some (dst, r') → k = k'

/-- A task that waits for the response to request `r`. -/
structure TaskSim (replies : Replies) (a : Spec Cmd) (i : NodeId) (w : RaftWorker Leader Cmd)
    (task : InFlightAppend) (r : AppendEntriesRequest Cmd) : Prop where
  call : w.inner.transport.calls[task.call]? = some (task.peerId, .appendEntries r)
  term : r.term = a.term i
  last : task.lastEntry = r.prevLogIndex + r.entries.length
  first : task.firstEntry = if r.entries = [] then task.lastEntry else r.prevLogIndex + 1
  next : w.state.nextIndices.lookup task.peerId = some (r.prevLogIndex + 1)
  peer : task.peerId ∈ w.state.inFlightPeers
  refused : ∀ {m resp}, w.state.matchIndices.lookup task.peerId = some m →
    ((i, task.call), .appendEntries resp) ∈ replies → resp.success = false →
    resp.term = a.term i → m < r.prevLogIndex

/-- What a leader counts as matched was acknowledged. -/
structure LeaderSim (replies : Replies) (a : Spec Cmd) (i : NodeId) (w : RaftWorker Leader Cmd) :
    Prop where
  leader : a.leader (a.term i) = some i
  has_next : ∀ p ∈ cfg.peers i, p ∈ w.state.nextIndices
  has_match : ∀ p ∈ cfg.peers i, p ∈ w.state.matchIndices
  next_le : ∀ {p n}, w.state.nextIndices.lookup p = some n → n ≤ (a.log i).length + 1
  acked : ∀ {p m}, w.state.matchIndices.lookup p = some m →
    p ∈ cfg.ids ∧ p ≠ i ∧ m ≤ a.acked p (a.term i)
  tasks : ∀ task ∈ w.state.responsesRx, ∃ r, TaskSim replies a i w task r
  distinct : ∀ task ∈ w.state.responsesRx, ∀ task' ∈ w.state.responsesRx,
    task.peerId = task'.peerId → task = task'
  above : g.longProbes → ∀ {p n m}, w.state.nextIndices.lookup p = some n →
    w.state.matchIndices.lookup p = some m → 1 ≤ n ∧ (m = 0 ∨ m + 1 = n)

def RoleSim (replies : Replies) (a : Spec Cmd) (i : NodeId) : RaftWorkerState Cmd → Prop
  | .follower _ => True
  | .candidate w => CandidateSim cfg a i w
  | .leader w => LeaderSim cfg g replies a i w

section Nodes

variable [Bincode (LogEntry Cmd)]

/-- A worker of node `i`, whatever its role. -/
structure InnerSim (replies : Replies) (a : Spec Cmd) (i : NodeId) (w : RaftWorkerInner Cmd) :
    Prop where
  member : Member cfg i w
  wf : w.storage.Wf
  log : w.storage.log = a.log i
  term : w.storage.currentTerm = a.term i
  vote : w.storage.votedFor = a.vote i (a.term i)
  calls : ∀ call ∈ w.transport.calls, CallSim cfg g a i call
  replies : ∀ {k resp}, ((i, k), resp) ∈ replies → ReplySim a i w.transport.calls k resp
  applied : g.upToDate → AppliedSim cfg a i w.commitIndex w.lastApplied w.stateMachineTx

/-- A node, running or not. -/
structure NodeSim (replies : Replies) (a : Spec Cmd) (i : NodeId) (n : Node Cmd) : Prop where
  inner : InnerSim cfg g replies a i n.worker.inner
  role : n.panicked = none → RoleSim cfg g replies a i n.worker
  sound : g.longProbes → n.panicked ≠ some .subOverflow ∧ n.panicked ≠ some .prevEntry

/-- A cluster that stands for the state `a`. -/
structure Sim (c : Cluster Cmd) (a : Spec Cmd) : Prop where
  nodes : ∀ i ∈ cfg.ids, NodeSim cfg g c.replies a i (c.nodes i)
  indexed : ∀ t, Indexed (a.leaderLog t)

end Nodes

variable {cfg g}

/-! ### While other nodes act -/

section Later

variable {a a' : Spec Cmd} {i : NodeId}

theorem LeaderCommitSim.later {r : AppendEntriesRequest Cmd} (h : LeaderCommitSim cfg a r)
    (hi : Inv LogEntry.term cfg.ids a) (hs : Later a a') (hl : a.leader r.term ≠ none) :
    LeaderCommitSim cfg a' r where
  le := h.le.trans (hs.grows _ hl).2.length_le
  committed := by
    rw [hi.take_leaderLog_eq hs.grows h.le]
    exact h.committed.later hi hs
  empty := h.empty

theorem RequestSim.later {src : NodeId} {req : RpcRequest Cmd}
    (h : RequestSim cfg g a src req) (hi : Inv LogEntry.term cfg.ids a) (hs : Later a a') :
    RequestSim cfg g a' src req := by
  rcases req with r | r | r
  · obtain ⟨hl, hslice, hcommit⟩ := h
    have hne : a.leader r.term ≠ none := by simp [hl]
    obtain ⟨hl', hlog⟩ := hs.grows r.term hne
    exact ⟨hl'.trans hl, hslice.mono hlog, fun hg => (hcommit hg).later hi hs hne⟩
  · obtain ⟨hc, l, hl, hlen, hlast⟩ := h
    exact ⟨hc, l, hs.stood_eq hl, hlen, hlast⟩
  · trivial

theorem CallSim.later {src : NodeId} {call : NodeId × RpcRequest Cmd}
    (h : CallSim cfg g a src call) (hi : Inv LogEntry.term cfg.ids a) (hs : Later a a') :
    CallSim cfg g a' src call :=
  ⟨h.1, h.2.1, h.2.2.later hi hs⟩

theorem ReplySim.later {src : NodeId} {calls calls' : List (NodeId × RpcRequest Cmd)} {k : ℕ}
    {resp : RpcResponse} (h : ReplySim a src calls k resp) (hs : Later a a')
    (hcalls : calls <+: calls') : ReplySim a' src calls' k resp := by
  have hget : ∀ {x}, calls[k]? = some x → calls'[k]? = some x := by
    intro x hx
    obtain ⟨s, rfl⟩ := hcalls
    rw [List.getElem?_append_left (List.getElem?_eq_some_iff.mp hx).1, hx]
  cases resp with
  | appendEntries resp =>
    obtain ⟨dst, r, hk, hack⟩ := h
    exact ⟨dst, r, hget hk, fun hsucc => (hack hsucc).trans (hs.acked_le _ _)⟩
  | requestVote resp =>
    obtain ⟨dst, r, hk, hvote⟩ := h
    exact ⟨dst, r, hget hk, fun hgr => hs.vote_eq (hvote hgr)⟩
  | forwardClientRequest resp => trivial

/-- Commit indices and applied entries stay good through everybody's turns. -/
theorem AppliedSim.turn {q : NodeId} {ok : List (LogEntry Cmd) → List (LogEntry Cmd) → Prop}
    {commitIndex lastApplied : ℕ} {tx : List (LogEntry Cmd)}
    (h : AppliedSim cfg a q commitIndex lastApplied tx) (hi : Inv LogEntry.term cfg.ids a)
    (hc : Complete LogEntry.term cfg.ids a) (ht : Turn LogEntry.term cfg.ids ok i a a') :
    AppliedSim cfg a' q commitIndex lastApplied tx := by
  have hlater := ht.later hi
  have hkeep := ht.keeps hi hc h.commit (List.take_prefix _ _)
  have hle : commitIndex ≤ (a'.log q).length := by
    have := hkeep.length_le
    rwa [List.length_take_of_le h.commit_le] at this
  have htake : (a'.log q).take commitIndex = (a.log q).take commitIndex := by
    have := List.prefix_iff_eq_take.mp hkeep
    rw [List.length_take_of_le h.commit_le] at this
    exact this.symm
  exact
    { commit_le := hle
      commit := htake ▸ (h.commit.later hi hlater).mono_term (hlater.term_le q)
      last := h.last
      applied_prefix := ht.keeps hi hc h.applied h.applied_prefix
      applied := (h.applied.later hi hlater).mono_term (hlater.term_le q) }

variable {replies : Replies} {j : NodeId}

/-- The assumptions under which turns are taken. -/
structure Turns (cfg : Config) (g : Guard) (i : NodeId) (a a' : Spec Cmd) : Prop where
  reachable : Reachable LogEntry.term cfg.ids g.Compared a
  turn : Turn LogEntry.term cfg.ids g.Compared i a a'

namespace Turns

theorem inv (ht : Turns cfg g i a a') : Inv LogEntry.term cfg.ids a := ht.reachable.inv

theorem later (ht : Turns cfg g i a a') : Later a a' := ht.turn.later ht.inv

theorem frame (ht : Turns cfg g i a a') : Frame i a a' := ht.turn.frame

theorem complete (ht : Turns cfg g i a a') (hg : g.upToDate) :
    Complete LogEntry.term cfg.ids a :=
  (ht.reachable.mono fun _ _ h => h hg).complete

theorem applied (ht : Turns cfg g i a a') {q : NodeId} {commitIndex lastApplied : ℕ}
    {tx : List (LogEntry Cmd)} (hg : g.upToDate)
    (h : AppliedSim cfg a q commitIndex lastApplied tx) :
    AppliedSim cfg a' q commitIndex lastApplied tx :=
  h.turn ht.inv (ht.complete hg) ht.turn

end Turns

theorem CandidateSim.other {w : RaftWorker Candidate Cmd} (h : CandidateSim cfg a j w)
    (ht : Turns cfg g i a a') (hj : j ≠ i) : CandidateSim cfg a' j w := by
  have hterm := ht.frame.term hj
  refine { stood := ?stood, lost := ?lost, votes := ?votes, distinct := h.distinct }
  case stood =>
    rw [hterm, ht.frame.stood hj]
    exact h.stood
  case lost =>
    rw [hterm]
    rcases ht.frame.leader (a.term j) with heq | heq
    · rw [heq]
      exact h.lost
    · rw [heq]
      exact fun h => hj (Option.some.inj h).symm
  case votes =>
    rw [hterm]
    obtain ⟨G, hG, hcard, hv, hrx⟩ := h.votes
    exact ⟨G, hG, hcard, fun q hq => ht.later.vote_eq (hv q hq), hrx⟩

theorem TaskSim.other {w : RaftWorker Leader Cmd} {task : InFlightAppend}
    {r : AppendEntriesRequest Cmd} (h : TaskSim replies a j w task r)
    (ht : Turns cfg g i a a') (hj : j ≠ i) : TaskSim replies a' j w task r :=
  { h with
    term := h.term.trans (ht.frame.term hj).symm
    refused := fun hm hr hf => by
      rw [ht.frame.term hj]
      exact h.refused hm hr hf }

theorem LeaderSim.other {w : RaftWorker Leader Cmd} (h : LeaderSim cfg g replies a j w)
    (ht : Turns cfg g i a a') (hj : j ≠ i) : LeaderSim cfg g replies a' j w := by
  have hterm := ht.frame.term hj
  have hl : a.leader (a.term j) ≠ none := by simp [h.leader]
  exact
    { h with
      leader := by rw [hterm, (ht.later.grows _ hl).1, h.leader]
      next_le := fun hn => by
        rw [ht.frame.log hj]
        exact h.next_le hn
      acked := fun hm => by
        rw [hterm]
        obtain ⟨h1, h2, h3⟩ := h.acked hm
        exact ⟨h1, h2, h3.trans (ht.later.acked_le _ _)⟩
      tasks := fun task hmem =>
        let ⟨r, hr⟩ := h.tasks task hmem
        ⟨r, hr.other ht hj⟩ }

variable [Bincode (LogEntry Cmd)]

theorem InnerSim.other {w : RaftWorkerInner Cmd} (h : InnerSim cfg g replies a j w)
    (ht : Turns cfg g i a a') (hj : j ≠ i) : InnerSim cfg g replies a' j w where
  member := h.member
  wf := h.wf
  log := h.log.trans (ht.frame.log hj).symm
  term := h.term.trans (ht.frame.term hj).symm
  vote := by rw [h.vote, ht.frame.vote hj, ht.frame.term hj]
  calls call hc := (h.calls call hc).later ht.inv ht.later
  replies hr := (h.replies hr).later ht.later List.prefix_rfl
  applied hg := ht.applied hg (h.applied hg)

/-- A node whose turn it is not keeps standing for its part of the state. -/
theorem NodeSim.other {n : Node Cmd} (h : NodeSim cfg g replies a j n)
    (ht : Turns cfg g i a a') (hj : j ≠ i) : NodeSim cfg g replies a' j n := by
  refine { inner := h.inner.other ht hj, role := fun hp => ?_, sound := h.sound }
  have hrole := h.role hp
  rcases n with ⟨w | w | w, p⟩
  · trivial
  · exact CandidateSim.other hrole ht hj
  · exact LeaderSim.other hrole ht hj

end Later

/-! ### New replies -/

section Replies

variable [Bincode (LogEntry Cmd)] {a : Spec Cmd} {i : NodeId} {replies : Replies}

/-- A reply is news only to its caller. -/
theorem NodeSim.reply {j dst : NodeId} {k : ℕ} {n : Node Cmd} {req : RpcRequest Cmd}
    {resp : RpcResponse} (h : NodeSim cfg g replies a j n)
    (hk : j = i → n.worker.inner.transport.calls[k]? = some (dst, req))
    (hresp : j = i → FreshSim a i dst req resp) :
    NodeSim cfg g (((i, k), resp) :: replies) a j n := by
  by_cases hj : j = i
  swap
  · -- nothing that speaks of the replies to another node changes
    have hmem : ∀ {k' resp'}, ((j, k'), resp') ∈ ((i, k), resp) :: replies →
        ((j, k'), resp') ∈ replies := by
      intro k' resp' h
      rcases List.mem_cons.mp h with heq | h
      · exact absurd (congrArg (·.1.1) heq) hj
      · exact h
    refine { inner := { h.inner with replies := fun hr => h.inner.replies (hmem hr) }
             role := fun hp => ?_, sound := h.sound }
    have hrole := h.role hp
    rcases n with ⟨w | w | w, p⟩
    · trivial
    · exact hrole
    · have hl : LeaderSim cfg g replies a j w := hrole
      exact { hl with tasks := fun task ht =>
        let ⟨r, hr⟩ := hl.tasks task ht
        ⟨r, { hr with refused := fun hm hr' => hr.refused hm (hmem hr') }⟩ }
  subst hj
  have hk := hk rfl
  have hresp := hresp rfl
  have hold : ReplySim a j n.worker.inner.transport.calls k resp := by
    cases req <;> cases resp <;> first | exact hresp.elim | skip
    · exact ⟨dst, _, hk, hresp.1⟩
    · exact ⟨dst, _, hk, hresp⟩
    · trivial
  refine { inner := { h.inner with replies := ?_ }, role := fun hp => ?_, sound := h.sound }
  · intro k' resp' hr
    rcases List.mem_cons.mp hr with heq | hr
    · simp only [Prod.mk.injEq, true_and] at heq
      obtain ⟨rfl, rfl⟩ := heq
      exact hold
    · exact h.inner.replies hr
  have hrole := h.role hp
  rcases n with ⟨w | w | w, p⟩
  · trivial
  · exact hrole
  · have hl : LeaderSim cfg g replies a j w := hrole
    refine { hl with tasks := fun task ht => ?_ }
    obtain ⟨r, hr⟩ := hl.tasks task ht
    refine ⟨r, { hr with refused := fun {m resp'} hm hr' hf hterm => ?_ }⟩
    rcases List.mem_cons.mp hr' with heq | hr'
    · simp only [Prod.mk.injEq, true_and] at heq
      obtain ⟨rfl, rfl⟩ := heq
      have hcall := Option.some.inj (hr.call.symm.trans hk)
      simp only [Prod.mk.injEq] at hcall
      obtain ⟨rfl, rfl⟩ := hcall
      have hack := hresp.2 hf (hterm.trans hr.term.symm)
      rw [hr.term] at hack
      exact (hl.acked hm).2.2.trans_lt hack
    · exact hr.refused hm hr' hf hterm

/-- A relayed answer to a client tells the caller nothing about the protocol. -/
theorem NodeSim.relay {j : NodeId} {call : NodeId × ℕ} {res : ClientResult} {n : Node Cmd}
    (h : NodeSim cfg g replies a j n) :
    NodeSim cfg g ((call, .forwardClientRequest res) :: replies) a j n := by
  refine { inner := { h.inner with replies := fun hr => ?_ }, role := fun hp => ?_
           sound := h.sound }
  · rcases List.mem_cons.mp hr with heq | hr
    · obtain ⟨-, rfl⟩ := Prod.mk.inj heq
      trivial
    · exact h.inner.replies hr
  have hrole := h.role hp
  rcases n with ⟨w | w | w, p⟩
  · trivial
  · exact hrole
  · have hl : LeaderSim cfg g replies a j w := hrole
    refine { hl with tasks := fun task ht => ?_ }
    obtain ⟨r, hr⟩ := hl.tasks task ht
    refine ⟨r, { hr with refused := fun hm hmem => hr.refused hm ?_ }⟩
    rcases List.mem_cons.mp hmem with heq | hmem
    · cases (Prod.mk.inj heq).2
    · exact hmem

end Replies

end Wraft
