import Mathlib.Data.Finset.Range
import Mathlib.Logic.Function.Basic
import Wraft.ForMathlib.Run
import Wraft.Raft.Node

/-!
# A cluster of nodes

The nodes of a fixed cluster and the calls between them. Every call of a node is on record in
its transport; it may reach its peer at any later time, or never, and at most once; its
response may reach the caller at any later time, or never; and the caller may instead see the
call fail at any time, whether or not it was processed. Nothing orders different calls. A node
may be restarted at any time, which loses everything but its local storage.

The server of a connection handles the calls of its peer one after the other. This is left out: here
a node may also get a call while it owes its caller the answer to a forwarded request, so that there
are more runs than those of the code. What is shown of every run does not depend on it, and what
shows that a state can be reached asks for free servers (`Cluster.Unblocked`).

`Config` is the fixed membership, `Cluster.boot` the start on empty local storages,
`Cluster.exec` one step and `Cluster.IsRun` a finite run. `grantsOutdated` and
`shortProbeRefused` are the steps without which more can be said of a run.
-/

namespace Wraft

/-- A fixed membership: distinct ids, and every node's peers are all the others. -/
structure Config where
  ids : Finset NodeId
  peers : NodeId → List NodeId
  nodup_peers : ∀ i ∈ ids, (peers i).Nodup
  mem_peers : ∀ i ∈ ids, ∀ p, p ∈ peers i ↔ p ∈ ids ∧ p ≠ i
  sessionKey : ℕ

structure Cluster (Cmd : Type) where
  nodes : NodeId → Node Cmd
  /-- The calls that have reached their peer: the caller and the call's number. -/
  delivered : List (NodeId × ℕ)
  /-- The responses given. -/
  replies : List ((NodeId × ℕ) × RpcResponse)
  /-- The number of client requests made so far. -/
  tokens : ℕ

/-- The steps of a cluster. -/
inductive Action (Cmd : Type) where
  /-- Node `i` reacts to something that needs no other node. -/
  | electionTimeout (i : NodeId)
  | heartbeat (i : NodeId)
  | advanceCommitIndex (i : NodeId)
  | applyLog (i : NodeId)
  /-- A client of node `i` makes a request. -/
  | client (i : NodeId) (req : ClientRequest Cmd)
  /-- Call `k` of node `i` reaches its peer, and is handled. -/
  | deliver (i : NodeId) (k : ℕ)
  /-- The response to call `k` of node `i` reaches node `i`. -/
  | receive (i : NodeId) (k : ℕ)
  /-- Call `k` of node `i` fails at node `i`. -/
  | fail (i : NodeId) (k : ℕ) (err : TransportError)
  /-- The task of a forwarded request relays the `n`-th answer of node `j` to the caller. -/
  | relay (j : NodeId) (n : ℕ)
  | connect (i p : NodeId)
  | disconnect (i p : NodeId)
  /-- Node `i` is restarted from its local storage. -/
  | restart (i : NodeId)
  deriving DecidableEq, Repr

variable {Cmd : Type}

/-- The candidate's log is at least as up to date as the voter's, by the terms of their last
entries and then by their lengths: what a request carries `last_log_term` for, and what
`handle_request_vote` does not compare. -/
def RaftWorkerInner.upToDate [Bincode (LogEntry Cmd)] (w : RaftWorkerInner Cmd)
    (req : RequestVoteRequest) : Bool :=
  match w.storage.lastLogTerm with
  | .ok t => t < req.lastLogTerm ∨ t = req.lastLogTerm ∧ w.storage.lastLogIndex ≤ req.lastLogIndex
  | .error _ => true

/-- The cluster of the nodes `0`, …, `n - 1`. -/
def Config.ofSize (n : ℕ) : Config where
  ids := Finset.range n
  peers i := (List.range n).filter (· ≠ i)
  nodup_peers _ _ := List.nodup_range.filter _
  mem_peers i _ p := by simp
  sessionKey := 1

namespace Cluster

def worker (c : Cluster Cmd) (i : NodeId) : RaftWorkerState Cmd := (c.nodes i).worker

def inner (c : Cluster Cmd) (i : NodeId) : RaftWorkerInner Cmd := (c.worker i).inner

def storage (c : Cluster Cmd) (i : NodeId) : Storage Cmd := (c.inner i).storage

def currentTerm (c : Cluster Cmd) (i : NodeId) : ℕ := (c.storage i).currentTerm

/-- Node `i` runs and is the leader `l`. -/
def LeaderAt (c : Cluster Cmd) (i : NodeId) (w : RaftWorker Leader Cmd) : Prop :=
  c.nodes i = ⟨.leader w, none⟩

/-- Node `i` runs and is a candidate. -/
def CandidateAt (c : Cluster Cmd) (i : NodeId) (w : RaftWorker Candidate Cmd) : Prop :=
  c.nodes i = ⟨.candidate w, none⟩

/-- The leader's worker, if node `i` runs and is a leader. -/
def leader? (c : Cluster Cmd) (i : NodeId) : Option (RaftWorker Leader Cmd) :=
  match c.nodes i with
  | ⟨.leader w, none⟩ => some w
  | _ => none

/-- The candidate's worker, if node `i` runs and is a candidate. -/
def candidate? (c : Cluster Cmd) (i : NodeId) : Option (RaftWorker Candidate Cmd) :=
  match c.nodes i with
  | ⟨.candidate w, none⟩ => some w
  | _ => none

theorem leaderAt_of_leader? {c : Cluster Cmd} {i : NodeId} {w : RaftWorker Leader Cmd}
    (h : c.leader? i = some w) : c.LeaderAt i w := by
  unfold leader? at h
  split at h
  · rw [LeaderAt, ← Option.some.inj h]
    assumption
  · cases h

theorem candidateAt_of_candidate? {c : Cluster Cmd} {i : NodeId} {w : RaftWorker Candidate Cmd}
    (h : c.candidate? i = some w) : c.CandidateAt i w := by
  unfold candidate? at h
  split at h
  · rw [CandidateAt, ← Option.some.inj h]
    assumption
  · cases h

def setNode (c : Cluster Cmd) (i : NodeId) (n : Node Cmd) : Cluster Cmd :=
  { c with nodes := Function.update c.nodes i n }

/-- All nodes just started on empty local storages, connected to one another. -/
def boot (cfg : Config) : Cluster Cmd where
  nodes i := ⟨.follower { inner :=
    { leaderId := none
      nodeId := i
      sessionKey := cfg.sessionKey
      clusterSize := (cfg.peers i).length + 1
      peers := cfg.peers i
      peerClients := ((cfg.peers i).map fun p => ⟨p, { connected := true }⟩).toAList
      commitIndex := 0
      lastApplied := 0
      storage :=
        { sessionKey := cfg.sessionKey, lastLogIndex := 0, currentTerm := 0, votedFor := none,
          storage := [] }
      stateMachineTx := []
      forwarded := []
      transport := { calls := [], answers := [] } }, state := {} }, none⟩
  delivered := []
  replies := []
  tokens := 0

variable [Bincode (LogEntry Cmd)]

/-- Node `i` reacts to an event; a panicked node does not. -/
def react (c : Cluster Cmd) (i : NodeId) (e : Event Cmd) :
    Option (Cluster Cmd × Option RpcResponse) :=
  match (c.nodes i).panicked with
  | some _ => none
  | none => ((c.worker i).on e).map fun r => (c.setNode i r.1, r.2)

/-- One step of the cluster; `none` when it is not possible. -/
def exec (cfg : Config) (c : Cluster Cmd) : Action Cmd → Option (Cluster Cmd)
  | .electionTimeout i =>
    if i ∈ cfg.ids then (c.react i .electionTimeout).map (·.1) else none
  | .heartbeat i => if i ∈ cfg.ids then (c.react i .heartbeat).map (·.1) else none
  | .advanceCommitIndex i =>
    if i ∈ cfg.ids then (c.react i .advanceCommitIndex).map (·.1) else none
  | .applyLog i => if i ∈ cfg.ids then (c.react i .applyLog).map (·.1) else none
  | .client i req =>
    if i ∈ cfg.ids then
      (c.react i (.client c.tokens req)).map fun r => { r.1 with tokens := c.tokens + 1 }
    else none
  | .deliver i k =>
    if i ∈ cfg.ids ∧ (i, k) ∉ c.delivered then
      match (c.inner i).transport.calls[k]? with
      | none => none
      | some (dst, req) =>
        (c.react dst (.rpc i k req)).map fun r =>
          { r.1 with
            delivered := (i, k) :: c.delivered
            replies := (r.2.map ((i, k), ·)).toList ++ c.replies }
    else none
  | .receive i k =>
    if i ∈ cfg.ids then
      match c.replies.lookup (i, k) with
      | none => none
      | some resp => (c.react i (.response k (.ok resp))).map (·.1)
    else none
  | .fail i k err =>
    if i ∈ cfg.ids then (c.react i (.response k (.error err))).map (·.1) else none
  | .relay j n =>
    match (c.inner j).transport.answers[n]? with
    | some (.rpc i k, res) =>
      some { c with replies := ((i, k), .forwardClientRequest res) :: c.replies }
    | _ => none
  | .connect i p =>
    if i ∈ cfg.ids ∧ p ∈ cfg.ids ∧ p ≠ i then (c.react i (.connect p)).map (·.1) else none
  | .disconnect i p => if i ∈ cfg.ids then (c.react i (.disconnect p)).map (·.1) else none
  | .restart i =>
    if i ∈ cfg.ids then some (c.setNode i (c.nodes i).restart) else none

/-- The finite runs of a cluster from its start, latest state first, all of whose steps meet the
condition `G`. -/
def IsRunWhere (cfg : Config) (G : Cluster Cmd → Action Cmd → Prop) : List (Cluster Cmd) → Prop :=
  TransitionSystem.IsRun (· = boot cfg) (TransitionSystem.Acts (exec cfg) G)

/-- The finite runs of a cluster from its start, latest state first. -/
def IsRun (cfg : Config) : List (Cluster Cmd) → Prop := IsRunWhere cfg fun _ _ => True

theorem IsRunWhere.isRun {cfg : Config} {G : Cluster Cmd → Action Cmd → Prop}
    {r : List (Cluster Cmd)} (h : IsRunWhere cfg G r) : IsRun cfg r :=
  TransitionSystem.IsRun.mono (fun _ _ => TransitionSystem.Acts.mono fun _ _ _ => trivial) h

/-- A run of the cluster from its start, with an observation made of it. -/
theorem exists_run_of_play (cfg : Config) (bad : Cluster Cmd → Action Cmd → Bool)
    (as : List (Action Cmd)) (f : List (Cluster Cmd) → Bool)
    (h : (TransitionSystem.play (exec cfg) bad (boot cfg) [] as).any f = true) :
    ∃ r, TransitionSystem.play (exec cfg) bad (boot cfg) [] as = some r ∧
      IsRunWhere cfg (fun c a => bad c a = false) r ∧ f r = true :=
  TransitionSystem.exists_run_of_play (· = boot cfg) (exec cfg) bad rfl as f h

/-- In the step from `c` to `c'`, the leader `i` answers the client that waits for index `n`. -/
def Acks (cfg : Config) (c c' : Cluster Cmd) (i : NodeId) (n : ℕ) : Prop :=
  c.exec cfg (.advanceCommitIndex i) = some c' ∧ ∃ w w' tx, c.LeaderAt i w ∧ c'.LeaderAt i w' ∧
    w.state.inFlightClientRequests.lookup n = some tx ∧
    w'.state.inFlightClientRequests.lookup n = none ∧
    (tx, .ok .ack) ∈ w'.inner.transport.answers

/-! ### Conditions on steps -/

/-- In the step a vote is granted to a candidate whose log is not as up to date as the voter's. -/
def grantsOutdated (c : Cluster Cmd) : Action Cmd → Bool
  | .deliver i k =>
    match (c.inner i).transport.calls[k]? with
    | some (dst, .requestVote req) =>
      decide (((c.inner dst).updateTerm req.term).2.grantsVote req) && !(c.inner dst).upToDate req
    | _ => false
  | _ => false

/-- In the step a leader learns that a follower in its own term refused an empty request, which
the leader sent when its log had exactly one entry. -/
def shortProbeRefused (c : Cluster Cmd) : Action Cmd → Bool
  | .receive i k =>
    match c.nodes i, c.replies.lookup (i, k), (c.inner i).transport.calls[k]? with
    | ⟨.leader w, none⟩, some (.appendEntries resp), some (_, .appendEntries req) =>
      w.state.responsesRx.any (·.call = k) && !resp.success &&
        resp.term = w.inner.storage.currentTerm && req.entries.isEmpty && req.prevLogIndex = 1
    | _, _, _ => false
  | _ => false

end Cluster

end Wraft
