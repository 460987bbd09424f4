import Mathlib.Data.Finset.Dedup
import Mathlib.Data.Finset.Filter
import Wraft.ForMathlib.Run
import Wraft.Introducer.Channels

/-!
# Introductions

A node is introduced to the peers of its session by the messages that the introducer sends it. It
offers a connection to the peers with greater ids and answers the offers of the others. Both end
in `send_peer`, which hands the connection over to the loop of `initiate`.

Everything runs on one thread, in tasks that give way to each other at their await points only. A
step goes from one await point to the next. What the browser does is not modelled: promises are
resolved, data channels open and timers fire at any time, and any call of the browser may fail. It
is only on record which calls the browser is bound to reject: those that a connection is in no state
for (`Promise.refused`).
-/

namespace Wraft

namespace Introduction

open Introducer (SessionId Session Offer IceCandidate Command)

/-- A task of `introduce` or `handle_offer` is named by its position among the tasks spawned. -/
abbrev TaskId := ℕ

/-- A connection is named by the task that makes it, and so is its data channel. -/
abbrev ConnId := TaskId

inductive Error where
  /-- An error of the browser -/
  | js
  /-- A command that cannot be read, or a closed channel -/
  | rust
  | alreadyInitialized (peerId : Introducer.NodeId)
  deriving DecidableEq

inductive Panic where
  /-- `panic!("peer {:#} sent twice", peer_id)` -/
  | sentTwice (peerId : Introducer.NodeId)
  /-- `unreachable!()` -/
  | unreachable
  /-- `errors.send(err).await.unwrap()` -/
  | errorsClosed
  /-- `expect("peer transport done channel dropped")` -/
  | doneDropped
  /-- `send_command(..).unwrap()` for a candidate -/
  | sendCommand
  /-- `initiate(..).await.unwrap()`, as `initiate` returns errors only -/
  | initiate
  deriving DecidableEq

/-- Where a task is. -/
inductive Phase where
  /-- `introduce`, at `local_description` -/
  | describing
  /-- `introduce`, in its loop, with the data of the offer that it repeats -/
  | offering (sdpData : String)
  /-- `handle_offer`, at `remote_description` for the data of the offer -/
  | answering (sdpData : String)
  /-- `handle_offer`, at `dc_rx.await` -/
  | awaitingChannel
  | returned (ok : Bool)
  | panicked
  deriving DecidableEq

/-- The task is `introduce`, between its start and its `send_peer`. -/
def Phase.introducing : Phase → Bool
  | .describing | .offering _ => true
  | _ => false

/-- The task has inserted its connection, and its `send_peer` is still to come. -/
def Phase.inserted : Phase → Bool
  | .offering _ | .answering _ | .awaitingChannel => true
  | _ => false

structure Task where
  peerId : Introducer.NodeId
  phase : Phase
  deriving DecidableEq

/-- What a handler waits for that was given a connection. A connection takes an answer only when it
has no remote description, and a candidate only when it has one; `refused` records that the call
came at the wrong time. No code reads this. -/
inductive Promise where
  | setRemoteDescription (pc : ConnId) (sdpData : String) (refused : Bool)
  | addIceCandidate (pc : ConnId) (candidate : String) (sdpMid : Option String) (refused : Bool)
  deriving DecidableEq

/-- The browser rejects the promise, as the connection was in no state for the call. -/
def Promise.refused : Promise → Bool
  | .setRemoteDescription _ _ refused | .addIceCandidate _ _ _ refused => refused

structure PeerInfo where
  peerId : Introducer.NodeId
  pc : ConnId
  dc : ConnId
  deriving DecidableEq

end Introduction

open Introducer (SessionId Command) in
/-- A node that is being introduced. -/
structure Introduction where
  nodeId : Introducer.NodeId
  sessionId : SessionId
  peers : Introducer.NodeId → Option Introduction.ConnId
  online : Finset Introducer.NodeId
  tasks : List Introduction.Task
  promises : List Introduction.Promise
  /-- What was sent over the web socket. -/
  sent : List Command
  /-- The connections on their way to the loop of `initiate`. -/
  peerRx : List Introduction.PeerInfo
  /-- The peers whose transports the loop has passed on, and which are not done. -/
  transports : List Introducer.NodeId
  /-- The errors on their way to the loop. -/
  errorsRx : List Introduction.Error
  /-- The loop has not returned. -/
  running : Bool
  panics : List Introduction.Panic
  /-- The connections that were taken out of `peers`, each with the task that did so. No code
  reads this. -/
  taken : List (Introduction.TaskId × Introduction.ConnId)
  /-- The connections that were given a remote description: the offer that they answer, or the
  answer to theirs. No code reads this. -/
  described : List Introduction.ConnId

namespace Introduction

open Introducer (SessionId Session Offer IceCandidate Command)

/-- A node that has sent its `Join`. -/
def joined (nodeId : Introducer.NodeId) (sessionId : SessionId) : Introduction where
  nodeId
  sessionId
  peers _ := none
  online := ∅
  tasks := []
  promises := []
  sent := [.join { nodeId, sessionId }]
  peerRx := []
  transports := []
  errorsRx := []
  running := true
  panics := []
  taken := []
  described := []

def setPhase (s : Introduction) (k : TaskId) (task : Task) (phase : Phase) : Introduction :=
  { s with tasks := s.tasks.set k { task with phase } }

/-- A handler of a message fails; nobody can receive the error when the loop has returned. -/
def raise (s : Introduction) (err : Error) : Introduction :=
  if s.running then { s with errorsRx := s.errorsRx ++ [err] }
  else { s with panics := s.panics ++ [.errorsClosed] }

/-- A task returns an error, which `handle_session_update` ignores if the task is `introduce`. -/
def fail (s : Introduction) (k : TaskId) (task : Task) (err : Error) : Introduction :=
  let t := s.setPhase k task (.returned false)
  if task.phase.introducing then t else t.raise err

def insertPeer (s : Introduction) (peerId : Introducer.NodeId) (pc : ConnId) : Introduction :=
  { s with
    peers := Function.update s.peers peerId (some pc)
    online := insert peerId s.online }

/-- `send_peer` on the data channel of task `k`. Its `tx.send` fails when the loop has returned. -/
def sendPeer (s : Introduction) (k : TaskId) (task : Task) : Introduction :=
  match s.peers task.peerId with
  | none =>
    { s.setPhase k task .panicked with panics := s.panics ++ [.sentTwice task.peerId] }
  | some pc =>
    let s :=
      { s with
        peers := Function.update s.peers task.peerId none
        taken := s.taken ++ [(k, pc)] }
    if s.running then
      { s.setPhase k task (.returned true) with
        peerRx := s.peerRx ++ [{ peerId := task.peerId, pc, dc := k }] }
    else s.fail k task .rust

/-! ### `handle_message` -/

/-- `handle_session_update` up to the await points of the introductions. The introductions come in
some order, as the set of nodes has none. -/
def handleSessionUpdate (s : Introduction) (session : Session) (order : List Introducer.NodeId) :
    Option Introduction :=
  if order.Nodup ∧
      order.toFinset = session.online.filter fun p => s.nodeId < p ∧ p ∉ s.online then
    some { s with tasks := s.tasks ++ order.map fun peerId => { peerId, phase := .describing } }
  else none

/-- `handle_offer` up to its first await point. Without a connection it fails. -/
def handleOffer (s : Introduction) (offer : Offer) (ok : Bool) : Introduction :=
  if ok then
    { s.insertPeer offer.nodeId s.tasks.length with
      tasks := s.tasks ++ [{ peerId := offer.nodeId, phase := .answering offer.sdpData }]
      described := s.tasks.length :: s.described }
  else s.raise .js

def handleAnswer (s : Introduction) (answer : Offer) : Introduction :=
  match s.peers answer.nodeId with
  | some pc =>
    { s with
      promises := s.promises ++
        [.setRemoteDescription pc answer.sdpData (decide (pc ∈ s.described))]
      described := pc :: s.described }
  | none => s.raise (.alreadyInitialized answer.nodeId)

def handleIceCandidate (s : Introduction) (candidate : IceCandidate) : Introduction :=
  match s.peers candidate.nodeId with
  | some pc =>
    { s with
      promises := s.promises ++
        [.addIceCandidate pc candidate.candidate candidate.sdpMid (decide (pc ∉ s.described))] }
  | none => s

/-- A message arrives; `none` is one that cannot be read. -/
def handleMessage (s : Introduction) (msg : Option Command) (order : List Introducer.NodeId)
    (ok : Bool) : Option Introduction :=
  match msg with
  | some (.sessionStatus session) => s.handleSessionUpdate session order
  | some (.offer offer) => some (s.handleOffer offer ok)
  | some (.answer answer) => some (s.handleAnswer answer)
  | some (.iceCandidate candidate) => some (s.handleIceCandidate candidate)
  | some (.join _) => some { s with panics := s.panics ++ [.unreachable] }
  | none => some (s.raise .rust)

/-! ### Tasks -/

/-- `send_offer`, which may fail -/
def sendOffer (s : Introduction) (k : TaskId) (task : Task) (sdpData : String) (ok : Bool) :
    Introduction :=
  if ok then
    { s with
      sent := s.sent ++ [.offer
        { sessionId := s.sessionId, nodeId := s.nodeId, targetId := task.peerId, sdpData }] }
  else s.fail k task .js

/-- `introduce` from `local_description` to its loop. A task without a connection is one whose
description fails. -/
def describe (s : Introduction) (k : TaskId) (task : Task) (sdpData : Option String) (ok : Bool) :
    Option Introduction :=
  match task.phase, sdpData with
  | .describing, none => some (s.fail k task .js)
  | .describing, some sdpData =>
    let task' : Task := { task with phase := .offering sdpData }
    some (((s.insertPeer task.peerId k).setPhase k task (.offering sdpData)).sendOffer
      k task' sdpData ok)
  | _, _ => none

/-- The offer is repeated. -/
def retry (s : Introduction) (k : TaskId) (task : Task) (ok : Bool) : Option Introduction :=
  match task.phase with
  | .offering sdpData => some (s.sendOffer k task sdpData ok)
  | _ => none

/-- `handle_offer` from `remote_description` to `dc_rx.await`, with `send_answer`, which may
fail. -/
def answer (s : Introduction) (k : TaskId) (task : Task) (sdpData : Option String) (ok : Bool) :
    Option Introduction :=
  match task.phase, sdpData with
  | .answering _, some sdpData =>
    if ok then
      some { s.setPhase k task .awaitingChannel with
        sent := s.sent ++ [.answer
          { sessionId := s.sessionId, nodeId := s.nodeId, targetId := task.peerId, sdpData }] }
    else some (s.fail k task .js)
  | .answering _, none => some (s.fail k task .js)
  | _, _ => none

/-- The data channel on the task's connection is open. -/
def opened (s : Introduction) (k : TaskId) (task : Task) : Option Introduction :=
  match task.phase with
  | .offering _ | .awaitingChannel => some (s.sendPeer k task)
  | _ => none

/-- The browser finds a candidate for the task's connection. -/
def foundCandidate (s : Introduction) (task : Task) (candidate : String) (sdpMid : Option String)
    (ok : Bool) : Introduction :=
  if ok then
    { s with
      sent := s.sent ++ [.iceCandidate
        { sessionId := s.sessionId, nodeId := s.nodeId, targetId := task.peerId, candidate,
          sdpMid }] }
  else { s with panics := s.panics ++ [.sendCommand] }

/-! ### `initiate` and what waits for a promise -/

/-- The promise of an answer or candidate is resolved or rejected. -/
def resolve (s : Introduction) (i : ℕ) (ok : Bool) : Option Introduction :=
  if i < s.promises.length then
    let s := { s with promises := s.promises.eraseIdx i }
    some (if ok then s else s.raise .js)
  else none

/-- The loop receives a connection and passes its transport on. If that fails the loop returns,
and the transport is dropped. -/
def receivePeer (s : Introduction) (ok : Bool) : Option Introduction :=
  match s.running, s.peerRx with
  | true, info :: peerRx =>
    if ok then some { s with peerRx, transports := s.transports ++ [info.peerId] }
    else some { s with peerRx, running := false, panics := s.panics ++ [.doneDropped, .initiate] }
  | _, _ => none

/-- The loop receives an error and returns it. -/
def receiveError (s : Introduction) : Option Introduction :=
  match s.running, s.errorsRx with
  | true, _ :: errorsRx =>
    some { s with errorsRx, running := false, panics := s.panics ++ [.initiate] }
  | _, _ => none

/-- The transport of a peer is done, or it was dropped before it started. -/
def shutdown (s : Introduction) (i : ℕ) (done : Bool) : Option Introduction :=
  s.transports[i]?.map fun peerId =>
    let s := { s with transports := s.transports.eraseIdx i }
    if done then { s with online := s.online.erase peerId }
    else { s with panics := s.panics ++ [.doneDropped] }

/-! ### Steps -/

inductive Action where
  | message (msg : Option Command) (order : List Introducer.NodeId) (ok : Bool)
  | describe (k : TaskId) (sdpData : Option String) (ok : Bool)
  | retry (k : TaskId) (ok : Bool)
  | answer (k : TaskId) (sdpData : Option String) (ok : Bool)
  | opened (k : TaskId)
  | foundCandidate (k : TaskId) (candidate : String) (sdpMid : Option String) (ok : Bool)
  | resolve (i : ℕ) (ok : Bool)
  | receivePeer (ok : Bool)
  | receiveError
  | shutdown (i : ℕ) (done : Bool)
  deriving DecidableEq

/-- One step; `none` when it is not possible. -/
def exec (s : Introduction) : Action → Option Introduction
  | .message msg order ok => s.handleMessage msg order ok
  | .describe k sdpData ok => s.tasks[k]?.bind fun task => s.describe k task sdpData ok
  | .retry k ok => s.tasks[k]?.bind fun task => s.retry k task ok
  | .answer k sdpData ok => s.tasks[k]?.bind fun task => s.answer k task sdpData ok
  | .opened k => s.tasks[k]?.bind fun task => s.opened k task
  | .foundCandidate k candidate sdpMid ok =>
    s.tasks[k]?.map fun task => s.foundCandidate task candidate sdpMid ok
  | .resolve i ok => s.resolve i ok
  | .receivePeer ok => s.receivePeer ok
  | .receiveError => s.receiveError
  | .shutdown i done => s.shutdown i done

/-- What a step does, by the branch of the code that it takes. -/
inductive Branch (s : Introduction) : Action → Introduction → Prop
  | sessionStatus {session : Session} {order : List Introducer.NodeId} {ok : Bool}
    (hnodup : order.Nodup)
    (hset : order.toFinset = session.online.filter fun p => s.nodeId < p ∧ p ∉ s.online) :
    Branch s (.message (some (.sessionStatus session)) order ok)
      { s with tasks := s.tasks ++ order.map fun peerId => { peerId, phase := .describing } }
  | offer {offer : Offer} {order : List Introducer.NodeId} {ok : Bool} :
    Branch s (.message (some (.offer offer)) order ok) (s.handleOffer offer ok)
  | answered {answer : Offer} {order : List Introducer.NodeId} {ok : Bool} :
    Branch s (.message (some (.answer answer)) order ok) (s.handleAnswer answer)
  | iceCandidate {candidate : IceCandidate} {order : List Introducer.NodeId} {ok : Bool} :
    Branch s (.message (some (.iceCandidate candidate)) order ok) (s.handleIceCandidate candidate)
  | join {session : Introducer.Join} {order : List Introducer.NodeId} {ok : Bool} :
    Branch s (.message (some (.join session)) order ok)
      { s with panics := s.panics ++ [.unreachable] }
  | unread {order : List Introducer.NodeId} {ok : Bool} :
    Branch s (.message none order ok) (s.raise .rust)
  | undescribed {k : TaskId} {task : Task} {ok : Bool} (htask : s.tasks[k]? = some task)
    (hphase : task.phase = .describing) : Branch s (.describe k none ok) (s.fail k task .js)
  | described {k : TaskId} {task : Task} {sdpData : String} {ok : Bool}
    (htask : s.tasks[k]? = some task) (hphase : task.phase = .describing) :
    Branch s (.describe k (some sdpData) ok)
      (((s.insertPeer task.peerId k).setPhase k task (.offering sdpData)).sendOffer k
        { task with phase := .offering sdpData } sdpData ok)
  | retried {k : TaskId} {task : Task} {sdpData : String} {ok : Bool}
    (htask : s.tasks[k]? = some task) (hphase : task.phase = .offering sdpData) :
    Branch s (.retry k ok) (s.sendOffer k task sdpData ok)
  | answerSent {k : TaskId} {task : Task} {offered sdpData : String}
    (htask : s.tasks[k]? = some task) (hphase : task.phase = .answering offered) :
    Branch s (.answer k (some sdpData) true)
      { s.setPhase k task .awaitingChannel with
        sent := s.sent ++ [.answer
          { sessionId := s.sessionId, nodeId := s.nodeId, targetId := task.peerId, sdpData }] }
  | answerFailed {k : TaskId} {task : Task} {offered : String} {sdpData : Option String} {ok : Bool}
    (htask : s.tasks[k]? = some task) (hphase : task.phase = .answering offered)
    (hfails : sdpData = none ∨ ok = false) :
    Branch s (.answer k sdpData ok) (s.fail k task .js)
  | opened {k : TaskId} {task : Task} (htask : s.tasks[k]? = some task)
    (hins : task.phase.inserted) : Branch s (.opened k) (s.sendPeer k task)
  | foundCandidate {k : TaskId} {task : Task} {candidate : String} {sdpMid : Option String}
    {ok : Bool} (htask : s.tasks[k]? = some task) :
    Branch s (.foundCandidate k candidate sdpMid ok) (s.foundCandidate task candidate sdpMid ok)
  | resolved {i : ℕ} (hi : i < s.promises.length) :
    Branch s (.resolve i true) { s with promises := s.promises.eraseIdx i }
  | rejected {i : ℕ} (hi : i < s.promises.length) :
    Branch s (.resolve i false) (raise { s with promises := s.promises.eraseIdx i } .js)
  | received {info : PeerInfo} {peerRx : List PeerInfo} (hrunning : s.running = true)
    (hrx : s.peerRx = info :: peerRx) :
    Branch s (.receivePeer true) { s with peerRx, transports := s.transports ++ [info.peerId] }
  | dropped {info : PeerInfo} {peerRx : List PeerInfo} (hrunning : s.running = true)
    (hrx : s.peerRx = info :: peerRx) :
    Branch s (.receivePeer false)
      { s with peerRx, running := false, panics := s.panics ++ [.doneDropped, .initiate] }
  | failed {err : Error} {errorsRx : List Error} (hrunning : s.running = true)
    (hrx : s.errorsRx = err :: errorsRx) :
    Branch s .receiveError
      { s with errorsRx, running := false, panics := s.panics ++ [.initiate] }
  | done {i : ℕ} {peerId : Introducer.NodeId} (hpeer : s.transports[i]? = some peerId) :
    Branch s (.shutdown i true)
      { s with transports := s.transports.eraseIdx i, online := s.online.erase peerId }
  | doneDropped {i : ℕ} {peerId : Introducer.NodeId} (hpeer : s.transports[i]? = some peerId) :
    Branch s (.shutdown i false)
      { s with transports := s.transports.eraseIdx i, panics := s.panics ++ [.doneDropped] }

theorem branch_of_exec {s s' : Introduction} {a : Action} (h : s.exec a = some s') :
    s.Branch a s' := by
  cases a with
  | message msg order ok =>
    replace h : s.handleMessage msg order ok = some s' := h
    rw [handleMessage.eq_def] at h
    split at h
    · rw [handleSessionUpdate] at h
      split_ifs at h with hset
      obtain rfl := Option.some.inj h
      exact .sessionStatus hset.1 hset.2
    · obtain rfl := Option.some.inj h
      exact .offer
    · obtain rfl := Option.some.inj h
      exact .answered
    · obtain rfl := Option.some.inj h
      exact .iceCandidate
    · obtain rfl := Option.some.inj h
      exact .join
    · obtain rfl := Option.some.inj h
      exact .unread
  | describe k sdpData ok =>
    obtain ⟨task, htask, hrun⟩ := Option.bind_eq_some_iff.mp h
    rw [describe.eq_def] at hrun
    split at hrun
    · obtain rfl := Option.some.inj hrun
      exact .undescribed htask ‹_›
    · obtain rfl := Option.some.inj hrun
      exact .described htask ‹_›
    · cases hrun
  | retry k ok =>
    obtain ⟨task, htask, hrun⟩ := Option.bind_eq_some_iff.mp h
    rw [retry] at hrun
    split at hrun
    · obtain rfl := Option.some.inj hrun
      exact .retried htask ‹_›
    · cases hrun
  | answer k sdpData ok =>
    obtain ⟨task, htask, hrun⟩ := Option.bind_eq_some_iff.mp h
    rw [answer.eq_def] at hrun
    split at hrun
    · split_ifs at hrun with hok
      · obtain rfl := Option.some.inj hrun
        exact hok ▸ .answerSent htask ‹_›
      · obtain rfl := Option.some.inj hrun
        exact .answerFailed htask ‹_› (.inr (eq_false_of_ne_true hok))
    · obtain rfl := Option.some.inj hrun
      exact .answerFailed htask ‹_› (.inl rfl)
    · cases hrun
  | opened k =>
    obtain ⟨task, htask, hrun⟩ := Option.bind_eq_some_iff.mp h
    rw [opened] at hrun
    split at hrun
    · rename_i hphase
      obtain rfl := Option.some.inj hrun
      exact .opened htask (by rw [hphase]; rfl)
    · rename_i hphase
      obtain rfl := Option.some.inj hrun
      exact .opened htask (by rw [hphase]; rfl)
    · cases hrun
  | foundCandidate k candidate sdpMid ok =>
    obtain ⟨task, htask, rfl⟩ := Option.map_eq_some_iff.mp h
    exact .foundCandidate htask
  | resolve i ok =>
    replace h : s.resolve i ok = some s' := h
    rw [resolve] at h
    split_ifs at h with hi hok
    · obtain rfl := Option.some.inj h
      exact hok ▸ .resolved hi
    · obtain rfl := Option.some.inj h
      exact eq_false_of_ne_true hok ▸ .rejected hi
  | receivePeer ok =>
    replace h : s.receivePeer ok = some s' := h
    rw [receivePeer] at h
    split at h
    · rename_i hrunning hrx
      split_ifs at h with hok
      · obtain rfl := Option.some.inj h
        exact hok ▸ .received hrunning hrx
      · obtain rfl := Option.some.inj h
        exact eq_false_of_ne_true hok ▸ .dropped hrunning hrx
    · cases h
  | receiveError =>
    replace h : s.receiveError = some s' := h
    rw [receiveError] at h
    split at h
    · obtain rfl := Option.some.inj h
      exact .failed ‹_› ‹_›
    · cases h
  | shutdown i done =>
    obtain ⟨peerId, hpeer, rfl⟩ := Option.map_eq_some_iff.mp h
    cases done with
    | true => exact .done hpeer
    | false => exact .doneDropped hpeer

/-- The finite runs of a node, latest state first, all of whose steps meet the condition `G`. -/
def IsRunWhere (nodeId : Introducer.NodeId) (sessionId : SessionId)
    (G : Introduction → Action → Prop) : List Introduction → Prop :=
  TransitionSystem.IsRun (· = joined nodeId sessionId) (TransitionSystem.Acts exec G)

end Introduction

end Wraft
