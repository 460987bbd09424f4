import Wraft.Raft.Worker

/-!
# The loops of a worker

One `Event` is what the `select!` of a role's `next` picks, or one of the calls around it that
need nothing from outside (`advance_commit_index`, `apply_log`): everything between two points
at which the worker waits. `RaftWorkerState.on` is the worker's reaction: its next state, or the
panic it stops with, and the reply to an RPC request.

A node that panicked stays as it was until it is restarted from its storage (`Node.start`).
-/

namespace Wraft

/-- A node: its worker, and the panic that stopped it if one did. -/
structure Node (Cmd : Type) where
  worker : RaftWorkerState Cmd
  panicked : Option Panic

/-- What happens at one node. -/
inductive Event (Cmd : Type) where
  /-- The election timeout of a follower or a candidate. -/
  | electionTimeout
  /-- An RPC request arrives: call `k` of `caller`. -/
  | rpc (caller : NodeId) (k : ℕ) (req : RpcRequest Cmd)
  /-- Call `k` of this node ends, with a response or an error. -/
  | response (k : ℕ) (res : RpcResult)
  /-- The heartbeat of a leader. -/
  | heartbeat
  /-- A client of this node makes a request. -/
  | client (token : ℕ) (req : ClientRequest Cmd)
  | advanceCommitIndex
  | applyLog
  /-- `handle_new_peer` -/
  | connect (peer : NodeId)
  /-- The connection to a peer is lost. -/
  | disconnect (peer : NodeId)

variable {Cmd : Type}

namespace RaftWorkerState

def withInner (w : RaftWorkerState Cmd) (inner : RaftWorkerInner Cmd) : RaftWorkerState Cmd :=
  match w with
  | .follower w => .follower { w with inner }
  | .candidate w => .candidate { w with inner }
  | .leader w => .leader { w with inner }

/-- The client whose forwarded request was call `k` gets its answer. -/
def answerForwarded (w : RaftWorkerState Cmd) (k : ℕ) (res : RpcResult) :
    Option (Node Cmd) :=
  (w.inner.forwarded.lookup k).map fun token =>
    let inner := { w.inner with forwarded := w.inner.forwarded.filter (·.1 ≠ k) }
    match res with
    | .ok (.forwardClientRequest resp) =>
      ⟨w.withInner (inner.answer (.client token) resp), none⟩
    | .error _ => ⟨w.withInner (inner.answer (.client token) (.error .unavailable)), none⟩
    | .ok _ => ⟨w.withInner inner, some .responseKind⟩

variable [Bincode (LogEntry Cmd)]

def onElectionTimeout : RaftWorkerState Cmd → Option (Node Cmd)
  | .follower w => some (elect { w.inner with leaderId := none })
  | .candidate w => some (elect w.inner)
  | .leader _ => none
where
  elect (inner : RaftWorkerInner Cmd) : Node Cmd :=
    match Candidate.startElection.run inner with
    | .ok state inner => ⟨.candidate { inner, state }, none⟩
    | .error p inner => ⟨.candidate { inner, state := { votes := 1, votesRx := [] } }, some p⟩

def onRpc (caller : NodeId) (k : ℕ) (req : RpcRequest Cmd) :
    RaftWorkerState Cmd → Node Cmd × Option RpcResponse
  | .follower w =>
    match (Follower.handleRpc req).run w.inner with
    | .ok resp inner => (⟨.follower { w with inner }, none⟩, some resp)
    | .error p inner => (⟨.follower { w with inner }, some p⟩, none)
  | .candidate w =>
    match (Candidate.handleRpc req).run w.inner with
    | .ok (resp, .continue) inner => (⟨.candidate { w with inner }, none⟩, some resp)
    | .ok (resp, .becomeFollower) inner =>
      (⟨.follower { w with inner }.toFollower, none⟩, some resp)
    | .error p inner => (⟨.candidate { w with inner }, some p⟩, none)
  | .leader w =>
    match (Leader.handleRpc caller k req).run w with
    | .ok (resp, .continue) w => (⟨.leader w, none⟩, resp)
    | .ok (resp, .becomeFollower) w => (⟨.follower w.toFollower, none⟩, resp)
    | .error p w => (⟨.leader w, some p⟩, none)

/-- A vote call of a candidate ends. -/
def onVote (w : RaftWorker Candidate Cmd) (k : ℕ) (res : RpcResult) : Node Cmd :=
  let votesRx := w.state.votesRx.filter (· ≠ k)
  match res with
  | .ok (.requestVote resp) =>
    if resp.voteGranted then
      let votes := w.state.votes + 1
      if w.inner.quorum ≤ votes then ⟨.leader w.toLeader, none⟩
      else ⟨.candidate { w with state := { votes, votesRx } }, none⟩
    else ⟨.candidate { w with state := { w.state with votesRx } }, none⟩
  | .error _ => ⟨.candidate { w with state := { w.state with votesRx } }, none⟩
  | .ok _ => ⟨.candidate { w with state := { w.state with votesRx } }, some .responseKind⟩

/-- An `AppendEntries` call of a leader ends. -/
def onAppend (w : RaftWorker Leader Cmd) (task : InFlightAppend) (res : RpcResult) : Node Cmd :=
  let responsesRx := w.state.responsesRx.filter (·.call ≠ task.call)
  match (Leader.handleAppendEntriesResponse task.peerId task.firstEntry task.lastEntry res).run
      { w with state := { w.state with responsesRx } } with
  | .ok .continue w => ⟨.leader w, none⟩
  | .ok .becomeFollower w => ⟨.follower w.toFollower, none⟩
  | .error p w => ⟨.leader w, some p⟩

def onResponse (k : ℕ) (res : RpcResult) : RaftWorkerState Cmd → Option (Node Cmd)
  | .follower w => answerForwarded (.follower w) k res
  | .candidate w =>
    if k ∈ w.state.votesRx then some (onVote w k res) else answerForwarded (.candidate w) k res
  | .leader w =>
    match w.state.responsesRx.find? (·.call = k) with
    | some task => some (onAppend w task res)
    | none => answerForwarded (.leader w) k res

/-- A step of a leader that has no result. -/
def leaderStep (x : Rust (RaftWorker Leader Cmd) Unit) :
    RaftWorkerState Cmd → Option (Node Cmd)
  | .leader w =>
    match x.run w with
    | .ok () w => some ⟨.leader w, none⟩
    | .error p w => some ⟨.leader w, some p⟩
  | _ => none

/-- A step of the inner worker that has no result. -/
def innerStep (x : Rust (RaftWorkerInner Cmd) Unit) (w : RaftWorkerState Cmd) : Node Cmd :=
  match x.run w.inner with
  | .ok () inner => ⟨w.withInner inner, none⟩
  | .error p inner => ⟨w.withInner inner, some p⟩

def onClient (token : ℕ) (req : ClientRequest Cmd) (w : RaftWorkerState Cmd) : Option (Node Cmd) :=
  match w with
  | .follower _ => some (innerStep (Follower.forwardClientRequest req token) w)
  | .candidate _ =>
    some (innerStep (modify (·.answer (.client token) (.error .unavailable))) w)
  | .leader _ => leaderStep (Leader.handleClientRequest req (.client token)) w

/-- The reaction of a worker, with the reply to an RPC request; `none` when the role does not
wait for such an event. -/
def on (e : Event Cmd) (w : RaftWorkerState Cmd) : Option (Node Cmd × Option RpcResponse) :=
  match e with
  | .electionTimeout => w.onElectionTimeout.map (·, none)
  | .rpc caller k req => some (w.onRpc caller k req)
  | .response k res => (w.onResponse k res).map (·, none)
  | .heartbeat => (leaderStep Leader.heartbeat w).map (·, none)
  | .client token req => (w.onClient token req).map (·, none)
  | .advanceCommitIndex => (leaderStep Leader.advanceCommitIndex w).map (·, none)
  | .applyLog => some (innerStep RaftWorkerInner.applyLog w, none)
  | .connect peer =>
    some (innerStep (modify fun w =>
      { w with peerClients := w.peerClients.insert peer { connected := true } }) w, none)
  | .disconnect peer =>
    some (innerStep (modify fun w =>
      match w.peerClients.lookup peer with
      | some _ => { w with peerClients := w.peerClients.insert peer { connected := false } }
      | none => w) w, none)

end RaftWorkerState

/-! ### Starting -/

/-- `WorkerBuilder::start`, up to the loop. The transport keeps what earlier workers of the node
have handed to the outside. -/
def WorkerBuilder.start (nodeId : NodeId) (sessionKey : ℕ) (peers : List NodeId)
    (peerClients : AList fun _ : NodeId => Client) (ls : LocalStorage)
    (transport : Transport Cmd) : Except Panic (RaftWorkerInner Cmd) := do
  let storage ← Storage.new sessionKey ls
  return {
    leaderId := none
    nodeId
    sessionKey
    clusterSize := peers.length + 1
    peers
    peerClients
    commitIndex := 0
    lastApplied := 0
    storage
    stateMachineTx := []
    forwarded := []
    transport }

/-- A node whose worker is started again: it keeps its local storage and nothing else. Clients
connect afterwards. -/
def Node.restart (n : Node Cmd) : Node Cmd :=
  let w := n.worker.inner
  match WorkerBuilder.start w.nodeId w.sessionKey w.peers ∅ w.storage.storage w.transport with
  | .ok inner => ⟨.follower { inner, state := {} }, none⟩
  | .error p => { n with panicked := some p }

end Wraft
