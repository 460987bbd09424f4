import Mathlib.Data.Finset.Erase
import Mathlib.Data.Finset.Insert
import Mathlib.Data.List.AList
import Wraft.Raft.Storage

/-!
# `raft/worker.rs`

The Raft worker of a node in its three roles. `RaftWorkerInner` is what the roles share;
functions that any role runs are computations on it, and those of a leader are computations on
`RaftWorker (Leader Cmd) Cmd`.

What a worker hands to the outside is recorded in its `Transport`: the RPC calls its spawned
tasks make, named by their position, and the answers it gives to clients. A spawned task that
waits for a call lives on in the role that can still hear of it: the vote channel of a
candidate (`votesRx`), the response channel of a leader (`responsesRx`) and, whatever the role,
the client request that was forwarded (`forwarded`). Leaving a role closes its channel, and what
a task sends on a closed channel is lost.
-/

namespace Wraft

/-! ### The data of a worker -/

/-- `Client` of `transport.rs`, as far as the worker asks: is it connected? -/
structure Client where
  connected : Bool
  deriving DecidableEq, Repr

/-- Who waits for the answer to a client request: a client of this node, or the caller of a
`ForwardClientRequest`. -/
inductive ClientSender where
  | client (token : ℕ)
  | rpc (caller : NodeId) (call : ℕ)
  deriving DecidableEq, Repr

/-- What a node has handed to the outside. -/
structure Transport (Cmd : Type) where
  /-- The RPC calls made, with the peer they are for. -/
  calls : List (NodeId × RpcRequest Cmd)
  /-- The answers given to client requests. -/
  answers : List (ClientSender × ClientResult)

structure RaftWorkerInner (Cmd : Type) where
  leaderId : Option NodeId
  nodeId : NodeId
  sessionKey : ℕ
  clusterSize : ℕ
  peers : List NodeId
  peerClients : AList fun _ : NodeId => Client
  commitIndex : ℕ
  lastApplied : ℕ
  storage : Storage Cmd
  /-- The entries whose commands were sent on `state_machine_tx`. -/
  stateMachineTx : List (LogEntry Cmd)
  /-- Forwarded client requests: the call and the client's token. -/
  forwarded : List (ℕ × ℕ)
  transport : Transport Cmd

structure Follower where
  deriving DecidableEq, Repr

/-- A candidate, with the `votes` and `votes_rx` of its `next`. -/
structure Candidate where
  votes : ℕ
  /-- The calls whose tasks can send on the vote channel. -/
  votesRx : List ℕ
  deriving DecidableEq, Repr

/-- A task that waits for the response to an `AppendEntries` call. -/
structure InFlightAppend where
  call : ℕ
  peerId : NodeId
  firstEntry : ℕ
  lastEntry : ℕ
  deriving DecidableEq, Repr

structure Leader where
  nextIndices : AList fun _ : NodeId => ℕ
  matchIndices : AList fun _ : NodeId => ℕ
  inFlightClientRequests : AList fun _ : ℕ => ClientSender
  inFlightPeers : Finset NodeId
  /-- The tasks that can send on the response channel. -/
  responsesRx : List InFlightAppend

structure RaftWorker (S Cmd : Type) where
  inner : RaftWorkerInner Cmd
  state : S

inductive RaftWorkerState (Cmd : Type) where
  | follower (worker : RaftWorker Follower Cmd)
  | candidate (worker : RaftWorker Candidate Cmd)
  | leader (worker : RaftWorker Leader Cmd)

inductive StateChange where
  | continue
  | becomeFollower
  deriving DecidableEq, Repr

variable {Cmd : Type}

def RaftWorkerState.inner : RaftWorkerState Cmd → RaftWorkerInner Cmd
  | .follower w => w.inner
  | .candidate w => w.inner
  | .leader w => w.inner

/-- A result that does not depend on how it was computed. -/
def ofExcept {σ α : Type} : Except Panic α → Rust σ α
  | .ok a => pure a
  | .error p => throw p

namespace RaftWorkerInner

/-- A computation on the storage, run on the worker's. -/
def withStorage {α : Type} (x : Rust (Storage Cmd) α) : Rust (RaftWorkerInner Cmd) α := fun w =>
  match x.run w.storage with
  | .ok a s => .ok a { w with storage := s }
  | .error p s => .error p { w with storage := s }

/-- `Client::call`, made by a spawned task. -/
def call (peer : NodeId) (req : RpcRequest Cmd) : Rust (RaftWorkerInner Cmd) ℕ :=
  modifyGet fun w => (w.transport.calls.length,
    { w with transport := { w.transport with calls := w.transport.calls ++ [(peer, req)] } })

/-- The answer to a client request. -/
def answer (w : RaftWorkerInner Cmd) (tx : ClientSender) (res : ClientResult) :
    RaftWorkerInner Cmd :=
  { w with transport := { w.transport with answers := w.transport.answers ++ [(tx, res)] } }

/-! ### Any role -/

def quorum (w : RaftWorkerInner Cmd) : ℕ := w.clusterSize / 2 + 1

def updateTerm (w : RaftWorkerInner Cmd) (term : ℕ) : Bool × RaftWorkerInner Cmd :=
  ((w.storage.updateTerm term).1, { w with storage := (w.storage.updateTerm term).2 })

/-- The test of `handle_request_vote`. -/
def grantsVote (w : RaftWorkerInner Cmd) (req : RequestVoteRequest) : Prop :=
  w.storage.currentTerm ≤ req.term ∧
    (w.storage.votedFor = none ∨ w.storage.votedFor = some req.candidate) ∧
    w.commitIndex ≤ req.lastLogIndex

instance (w : RaftWorkerInner Cmd) (req : RequestVoteRequest) : Decidable (w.grantsVote req) :=
  inferInstanceAs (Decidable (_ ∧ _ ∧ _))

def handleRequestVote (w : RaftWorkerInner Cmd) (req : RequestVoteRequest) :
    RequestVoteResponse × RaftWorkerInner Cmd :=
  if w.grantsVote req then
    ({ term := req.lastLogTerm, voteGranted := true },
      { w with storage := w.storage.setVotedFor (some req.candidate) })
  else ({ term := 0, voteGranted := false }, w)

variable [Bincode (LogEntry Cmd)]

/-- The loop of `handle_append_entries` over the request's entries. -/
def handleEntries : List (LogEntry Cmd) → Rust (Storage Cmd) Unit
  | [] => pure ()
  | e :: es => do
    match ← ofExcept ((← get).getLog e.idx) with
    | some existing => if existing.term ≠ e.term then Storage.overwriteLog e
    | none => Storage.appendLog e
    handleEntries es

def handleAppendEntries (req : AppendEntriesRequest Cmd) :
    Rust (RaftWorkerInner Cmd) AppendEntriesResponse := do
  let w ← get
  let currentTerm := w.storage.currentTerm
  if req.term < currentTerm then
    return { term := currentTerm, success := false }
  else
    let entry ← ofExcept (w.storage.getLog req.prevLogIndex)
    if req.prevLogIndex ≠ 0 ∧ entry.all (·.term != req.prevLogTerm) then
      return { term := currentTerm, success := false }
    else
      withStorage (handleEntries req.entries)
      modify fun w =>
        if w.commitIndex < req.leaderCommit then
          { w with
            commitIndex :=
              min req.leaderCommit (req.entries.getLast?.elim req.leaderCommit (·.idx)) }
        else w
      return { term := currentTerm, success := true }

/-- The receiver of `state_machine_tx` is not dropped while the worker runs: the `unwrap` of
`unbounded_send` would panic then. -/
def applyLog : Rust (RaftWorkerInner Cmd) Unit := do
  let w ← get
  let entries ← ofExcept
    (w.storage.sublog (List.range' (w.lastApplied + 1) (w.commitIndex - w.lastApplied)))
  modify fun w => entries.foldl (fun w entry =>
    { w with lastApplied := entry.idx, stateMachineTx := w.stateMachineTx ++ [entry] }) w

end RaftWorkerInner

/-! ### Follower -/

namespace Follower

open RaftWorkerInner

def forwardClientRequest (req : ClientRequest Cmd) (token : ℕ) :
    Rust (RaftWorkerInner Cmd) Unit := do
  let w ← get
  match w.leaderId.bind w.peerClients.lookup with
  | some client =>
    if client.connected then
      let k ← call (w.leaderId.getD w.nodeId) (.forwardClientRequest req)
      modify fun w => { w with forwarded := (k, token) :: w.forwarded }
    else modify (·.answer (.client token) (.error .unavailable))
  | none => modify (·.answer (.client token) (.error .unavailable))

variable [Bincode (LogEntry Cmd)]

def handleRpc : RpcRequest Cmd → Rust (RaftWorkerInner Cmd) RpcResponse
  | .requestVote req => do
    let _ ← modifyGet (·.updateTerm req.term)
    let resp ← modifyGet (·.handleRequestVote req)
    return .requestVote resp
  | .appendEntries req => do
    let _ ← modifyGet (·.updateTerm req.term)
    modify ({ · with leaderId := some req.leaderId })
    let resp ← handleAppendEntries req
    return .appendEntries resp
  | .forwardClientRequest _ => return .forwardClientRequest (.error .unavailable)

end Follower

/-! ### Candidate -/

namespace Candidate

open RaftWorkerInner

def voteForSelf (w : RaftWorkerInner Cmd) : RaftWorkerInner Cmd :=
  { w with storage := w.storage.setVotedFor (some w.nodeId) }

/-- The peers with a connected client. -/
def connectedPeers (w : RaftWorkerInner Cmd) : List NodeId :=
  (w.peerClients.entries.filter (·.2.connected)).map (·.1)

variable [Bincode (LogEntry Cmd)]

/-- The loop of `request_votes` over the connected clients. -/
def requestVotesFrom : List NodeId → Rust (RaftWorkerInner Cmd) (List ℕ)
  | [] => pure []
  | peer :: peers => do
    let w ← get
    let lastLogTerm ← ofExcept w.storage.lastLogTerm
    let k ← call peer (.requestVote
      { term := w.storage.currentTerm
        candidate := w.nodeId
        lastLogIndex := w.storage.lastLogIndex
        lastLogTerm })
    let ks ← requestVotesFrom peers
    return k :: ks

def requestVotes : Rust (RaftWorkerInner Cmd) (List ℕ) := do
  requestVotesFrom (connectedPeers (← get))

/-- What `next` of a candidate does before its loop. -/
def startElection : Rust (RaftWorkerInner Cmd) Candidate := do
  modify fun w => { w with storage := w.storage.incrementTerm }
  modify voteForSelf
  let votesRx ← requestVotes
  -- voted for self
  return { votes := 1, votesRx }

def handleRpc : RpcRequest Cmd → Rust (RaftWorkerInner Cmd) (RpcResponse × StateChange)
  | .requestVote req => do
    let newTerm ← modifyGet (·.updateTerm req.term)
    let resp ← modifyGet (·.handleRequestVote req)
    return (.requestVote resp, if newTerm then .becomeFollower else .continue)
  | .appendEntries req => do
    let _ ← modifyGet (·.updateTerm req.term)
    let resp ← handleAppendEntries req
    return (.appendEntries resp, .becomeFollower)
  | .forwardClientRequest _ => return (.forwardClientRequest (.error .unavailable), .continue)

end Candidate

/-! ### Leader -/

namespace Leader

open RaftWorkerInner

/-- `MAX_BATCH_SIZE` of `append_entries`. -/
def maxBatchSize : ℕ := 100

/-- A computation on the inner worker, run on the leader's. -/
def withInner {α : Type} (x : Rust (RaftWorkerInner Cmd) α) : Rust (RaftWorker Leader Cmd) α :=
  fun w =>
    match x.run w.inner with
    | .ok a i => .ok a { w with inner := i }
    | .error p i => .error p { w with inner := i }

/-- The peers that agree on index `n`. -/
def agree (l : Leader) (n : ℕ) : ℕ := (l.matchIndices.entries.filter (n ≤ ·.2)).length

variable [Bincode (LogEntry Cmd)]

/-- The loop of `advance_commit_index` over the indices behind the commit index. -/
def advanceFrom : List ℕ → Rust (RaftWorker Leader Cmd) Unit
  | [] => pure ()
  | n :: ns => do
    let w ← get
    -- we implicitly agree, so we need (quorum - 1) peers to agree in order to commit
    if w.state.agree n < w.inner.quorum - 1 then pure ()
    else
      match ← ofExcept (w.inner.storage.getLog n) with
      | none => throw .commitEntry
      | some entry =>
        if entry.term ≠ w.inner.storage.currentTerm then pure ()
        else
          set { w with inner := { w.inner with commitIndex := n } }
          advanceFrom ns

/-- The waiting clients at `indices` are told that their request is committed. -/
def acknowledge : List ℕ → RaftWorker Leader Cmd → RaftWorker Leader Cmd
  | [], w => w
  | idx :: is, w =>
    match w.state.inFlightClientRequests.lookup idx with
    | some tx =>
      acknowledge is
        { inner := w.inner.answer tx (.ok .ack)
          state := { w.state with
            inFlightClientRequests := w.state.inFlightClientRequests.erase idx } }
    | none => acknowledge is w

def advanceCommitIndex : Rust (RaftWorker Leader Cmd) Unit := do
  let w ← get
  let nextCommitIndex := w.inner.commitIndex + 1
  advanceFrom
    (List.range' nextCommitIndex (w.inner.storage.lastLogIndex + 1 - nextCommitIndex))
  modify fun w => acknowledge
    (List.range' nextCommitIndex (w.inner.commitIndex + 1 - nextCommitIndex)) w

/-- The `prev_log_term` of `append_entries`. -/
def prevLogTerm (s : Storage Cmd) (prevLogIndex : ℕ) : Except Panic ℕ :=
  if 0 < prevLogIndex then do
    match ← s.getLog prevLogIndex with
    | some entry => return entry.term
    | none => throw .prevEntry
  else return 0

def appendEntries (peerId : NodeId) : Rust (RaftWorker Leader Cmd) Unit := do
  let w ← get
  match w.inner.peerClients.lookup peerId with
  | none => pure ()
  | some client =>
    if ¬client.connected ∨ peerId ∈ w.state.inFlightPeers then pure ()
    else
      match w.state.nextIndices.lookup peerId with
      | none => throw .peerIndex
      | some nextIndex =>
        let prevLogIndex ← u64Sub nextIndex 1
        let prevLogTerm ← ofExcept (prevLogTerm w.inner.storage prevLogIndex)
        let entries ← ofExcept (w.inner.storage.sublog (List.range' nextIndex maxBatchSize))
        let lastEntry := entries.getLast?.elim w.inner.storage.lastLogIndex (·.idx)
        let firstEntry := entries.head?.elim lastEntry (·.idx)
        let k ← withInner (call peerId (.appendEntries
          { leaderId := w.inner.nodeId
            term := w.inner.storage.currentTerm
            prevLogIndex
            prevLogTerm
            entries
            leaderCommit := w.inner.commitIndex }))
        modify fun w => { w with
          state := { w.state with
            inFlightPeers := insert peerId w.state.inFlightPeers
            responsesRx := { call := k, peerId, firstEntry, lastEntry } :: w.state.responsesRx } }

/-- `append_entries` for each of the peers. -/
def appendEntriesToAll : List NodeId → Rust (RaftWorker Leader Cmd) Unit
  | [] => pure ()
  | peer :: peers => do
    appendEntries peer
    appendEntriesToAll peers

/-- The end of `handle_append_entries_response`, for a response of the leader's own term. -/
def moveIndices (peerId : NodeId) (firstEntry lastEntry : ℕ) (success : Bool) :
    Rust (RaftWorker Leader Cmd) Unit := do
  let w ← get
  match w.state.nextIndices.lookup peerId with
  | none => throw .peerIndex
  | some next =>
    if success then
      set { w with state := { w.state with
        nextIndices := w.state.nextIndices.insert peerId (max next (lastEntry + 1)) } }
      match w.state.matchIndices.lookup peerId with
      | none => throw .peerIndex
      | some m =>
        modify fun w => { w with state := { w.state with
          matchIndices := w.state.matchIndices.insert peerId (max m lastEntry) } }
    else
      -- try again with an earlier log
      let start ← u64Sub firstEntry 1
      set { w with state := { w.state with
        nextIndices := w.state.nextIndices.insert peerId (min next start) } }
      appendEntries peerId

def handleAppendEntriesResponse (peerId : NodeId) (firstEntry lastEntry : ℕ) (res : RpcResult) :
    Rust (RaftWorker Leader Cmd) StateChange := do
  modify fun w =>
    { w with state := { w.state with inFlightPeers := w.state.inFlightPeers.erase peerId } }
  match res with
  | .error _ => return .continue
  | .ok (.appendEntries resp) =>
    if ← withInner (modifyGet (·.updateTerm resp.term)) then return .becomeFollower
    else
      unless resp.term < (← get).inner.storage.currentTerm do
        moveIndices peerId firstEntry lastEntry resp.success
      return .continue
  | .ok _ => throw .responseKind

def handleLogUpdate (cmd : Cmd) (tx : ClientSender) : Rust (RaftWorker Leader Cmd) Unit := do
  let w ← get
  let idx := w.inner.storage.lastLogIndex + 1
  withInner (withStorage (Storage.appendLog
    { cmd, idx, term := w.inner.storage.currentTerm }))
  modify fun w => { w with state := { w.state with
    inFlightClientRequests := w.state.inFlightClientRequests.insert idx tx } }
  appendEntriesToAll w.inner.peers

def handleClientRequest : ClientRequest Cmd → ClientSender → Rust (RaftWorker Leader Cmd) Unit
  | .apply cmd, tx => handleLogUpdate cmd tx

/-- The heartbeat of `next`. -/
def heartbeat : Rust (RaftWorker Leader Cmd) Unit := do
  appendEntriesToAll (← get).inner.peers

/-- `handle_rpc` of a leader. A forwarded client request is answered later, if at all. -/
def handleRpc (caller : NodeId) (k : ℕ) :
    RpcRequest Cmd → Rust (RaftWorker Leader Cmd) (Option RpcResponse × StateChange)
  | .appendEntries req => do
    let term := (← get).inner.storage.currentTerm
    if ← withInner (modifyGet (·.updateTerm req.term)) then
      let resp ← withInner (handleAppendEntries req)
      return (some (.appendEntries resp), .becomeFollower)
    else return (some (.appendEntries { term, success := false }), .continue)
  | .requestVote req => do
    let term := (← get).inner.storage.currentTerm
    if ← withInner (modifyGet (·.updateTerm req.term)) then
      let resp ← withInner (modifyGet (·.handleRequestVote req))
      return (some (.requestVote resp), .becomeFollower)
    else return (some (.requestVote { term, voteGranted := false }), .continue)
  | .forwardClientRequest req => do
    handleClientRequest req (.rpc caller k)
    return (none, .continue)

end Leader

/-! ### State machine transitions -/

/-- From a candidate or a leader back to a follower. -/
def RaftWorker.toFollower {S : Type} (w : RaftWorker S Cmd) : RaftWorker Follower Cmd :=
  { inner := w.inner, state := {} }

/-- From a candidate to a leader. -/
def RaftWorker.toLeader (w : RaftWorker Candidate Cmd) : RaftWorker Leader Cmd :=
  { inner := { w.inner with leaderId := some w.inner.nodeId }
    state :=
      { nextIndices :=
          (w.inner.peers.map fun p => ⟨p, w.inner.storage.lastLogIndex + 1⟩).toAList
        matchIndices := (w.inner.peers.map fun p => ⟨p, 0⟩).toAList
        inFlightClientRequests := ∅
        inFlightPeers := ∅
        responsesRx := [] } }

end Wraft
