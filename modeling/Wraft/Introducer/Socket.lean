import Wraft.ForMathlib.Run
import Wraft.Introducer.Channels

/-!
# The sockets of `webrtc-introducer`

`process_socket` runs two tasks for each socket: the receive loop and the spawned task that
forwards what is broadcast in the session. They are connected by two channels of one element,
for the ids of a `Join` and for the end of the loop. `Main` and `Task` say where the two are;
between two of these places a task takes at most one lock, so that any interleaving of sockets
is a sequence of the steps of this file.

A client may send any command at any time. What arrives at a socket and is not a command is
ignored by the receive loop and has no step here.
-/

namespace Wraft.Introducer

/-- What a `Join` asks for: the node and the session. -/
abbrev JoinInfo := NodeId × SessionId

/-- Where `process_socket` is. -/
inductive Main where
  /-- In its loop, at `recv.next()`. -/
  | receiving
  /-- In `process_message`, at `join_tx.send(info)`. -/
  | joining (info : JoinInfo)
  /-- At `left_tx.send(())`. -/
  | sendingLeft
  /-- At `recv_handle.await`. -/
  | awaiting
  /-- In `left`, before it takes the write lock. -/
  | leaving (info : JoinInfo)
  /-- In `left`, before it announces the session. -/
  | announcing (sessionId : SessionId)
  /-- Returned, with `Ok` or an error. -/
  | done (ok : Bool)
  | panicked (p : Panic)
  deriving DecidableEq

/-- The parts of the spawned task after it has subscribed. -/
inductive Phase where
  /-- In `joined`, before it takes the write lock. -/
  | inserting
  /-- In `joined`, before it announces the session. -/
  | announcing
  /-- In its loop. -/
  | running
  deriving DecidableEq

/-- Where the spawned task is. -/
inductive Task where
  /-- At `join_rx.recv()`. -/
  | waiting
  /-- At `ensure_session`. -/
  | ensuring (info : JoinInfo)
  /-- At `subscribe`. -/
  | subscribing (info : JoinInfo)
  | subscribed (phase : Phase) (info : JoinInfo)
  /-- Returned, with `Ok` or an error. -/
  | ended (ok : Bool)
  | panicked (p : Panic)
  deriving DecidableEq

structure Socket where
  /-- The connection is up. -/
  isOpen : Bool
  main : Main
  /-- The `ids` of `process_socket`. -/
  ids : Option JoinInfo
  /-- What is in the join channel. -/
  joinQueue : List JoinInfo
  /-- Something is in the left channel. -/
  leftSent : Bool
  task : Task
  /-- The node and the session for which `joined` has put the node online. -/
  joinedAs : Option JoinInfo
  /-- What the client was sent. -/
  sent : List Command
  deriving DecidableEq

/-- `process_socket` is over, and what it owned is dropped. -/
def Main.isOver : Main → Bool
  | .done _ | .panicked _ => true
  | _ => false

/-- The spawned task is over, and what it owned is dropped. -/
def Task.isOver : Task → Bool
  | .ended _ | .panicked _ => true
  | _ => false

namespace Socket

/-- A socket that was just accepted. -/
def accepted : Socket where
  isOpen := true
  main := .receiving
  ids := none
  joinQueue := []
  leftSent := false
  task := .waiting
  joinedAs := none
  sent := []

/-! ### The receive loop -/

/-- `process_message` on a command that is broadcast. When it fails `ids` stays as it is. -/
def relay (sessionId : SessionId) (cmd : Command) (ch : Channels) (x : Socket) :
    Channels × Socket :=
  match (Channels.broadcast sessionId cmd).run ch with
  | .ok (.ok ()) ch => (ch, { x with ids := none })
  | .ok (.error _) ch => (ch, x)
  | .error p ch => (ch, { x with main := .panicked p })

/-- A command arrives. -/
def receive (cmd : Command) (ch : Channels) (x : Socket) : Option (Channels × Socket) :=
  match x.main with
  | .receiving =>
    match cmd with
    | .join join => some (ch, { x with main := .joining (join.nodeId, join.sessionId) })
    | .offer offer => some (x.relay offer.sessionId cmd ch)
    | .answer answer => some (x.relay answer.sessionId cmd ch)
    | .iceCandidate candidate => some (x.relay candidate.sessionId cmd ch)
    | .sessionStatus _ => some (ch, { x with main := .panicked .unreachable })
  | _ => none

/-- `join_tx.send(info)`, which waits until there is room and fails when nobody can receive. -/
def sendJoin (ch : Channels) (x : Socket) : Option (Channels × Socket) :=
  match x.main with
  | .joining info =>
    if x.task.isOver then some (ch, { x with main := .receiving })
    else if x.joinQueue = [] then
      some (ch, { x with main := .receiving, ids := some info, joinQueue := [info] })
    else none
  | _ => none

/-- The connection goes down. -/
def close (ch : Channels) (x : Socket) : Option (Channels × Socket) :=
  if x.isOpen then some (ch, { x with isOpen := false }) else none

/-- The loop ends with the connection. -/
def endLoop (ch : Channels) (x : Socket) : Option (Channels × Socket) :=
  if x.main = .receiving ∧ ¬x.isOpen then some (ch, { x with main := .sendingLeft }) else none

/-- `left_tx.send(())` -/
def sendLeft (ch : Channels) (x : Socket) : Option (Channels × Socket) :=
  if x.main = .sendingLeft then
    if x.task.isOver then some (ch, { x with main := .done false })
    else some (ch, { x with main := .awaiting, leftSent := true })
  else none

/-- `recv_handle.await.unwrap()?` -/
def awaitTask (ch : Channels) (x : Socket) : Option (Channels × Socket) :=
  if x.main = .awaiting then
    match x.task with
    | .ended true =>
      match x.ids with
      | some info => some (ch, { x with main := .leaving info })
      | none => some (ch, { x with main := .done true })
    | .ended false => some (ch, { x with main := .done false })
    | .panicked _ => some (ch, { x with main := .panicked .joinError })
    | _ => none
  else none

/-- `left`, up to its announcement -/
def leave (ch : Channels) (x : Socket) : Option (Channels × Socket) :=
  match x.main with
  | .leaving (nodeId, sessionId) =>
    match (Channels.leftOnline nodeId sessionId).run ch with
    | .ok () ch => some (ch, { x with main := .announcing sessionId })
    | .error p ch => some (ch, { x with main := .panicked p })
  | _ => none

/-- The announcement of `left` -/
def announceLeft (ch : Channels) (x : Socket) : Option (Channels × Socket) :=
  match x.main with
  | .announcing sessionId =>
    match (Channels.broadcastSessionInfo sessionId).run ch with
    | .ok (.ok ()) ch => some (ch, { x with main := .done true })
    | .ok (.error _) ch => some (ch, { x with main := .done false })
    | .error p ch => some (ch, { x with main := .panicked p })
  | _ => none

/-! ### The spawned task -/

/-- `join_rx.recv()`, which fails when the channel is empty and nobody can send. -/
def takeJoin (ch : Channels) (x : Socket) : Option (Channels × Socket) :=
  match x.task, x.joinQueue with
  | .waiting, info :: rest => some (ch, { x with task := .ensuring info, joinQueue := rest })
  | .waiting, [] => if x.main.isOver then some (ch, { x with task := .ended true }) else none
  | _, _ => none

def ensureSession (ch : Channels) (x : Socket) : Option (Channels × Socket) :=
  match x.task with
  | .ensuring info =>
    match (Channels.ensureSession info.2).run ch with
    | .ok () ch => some (ch, { x with task := .subscribing info })
    | .error p ch => some (ch, { x with task := .panicked p })
  | _ => none

def subscribe (i : SocketId) (ch : Channels) (x : Socket) : Option (Channels × Socket) :=
  match x.task with
  | .subscribing info =>
    match (Channels.subscribe i info.2).run ch with
    | .ok () ch => some (ch, { x with task := .subscribed .inserting info })
    | .error p ch => some (ch, { x with task := .panicked p })
  | _ => none

/-- `joined`, up to its announcement -/
def join (i : SocketId) (ch : Channels) (x : Socket) : Option (Channels × Socket) :=
  match x.task with
  | .subscribed .inserting info =>
    match (Channels.joinedOnline info.1 info.2).run ch with
    | .ok () ch =>
      some (ch, { x with task := .subscribed .announcing info, joinedAs := some info })
    | .error p ch => some (ch.unsubscribe i info.2, { x with task := .panicked p })
  | _ => none

/-- The announcement of `joined` -/
def announceJoined (i : SocketId) (ch : Channels) (x : Socket) : Option (Channels × Socket) :=
  match x.task with
  | .subscribed .announcing info =>
    match (Channels.broadcastSessionInfo info.2).run ch with
    | .ok (.ok ()) ch => some (ch, { x with task := .subscribed .running info })
    | .ok (.error _) ch => some (ch.unsubscribe i info.2, { x with task := .ended false })
    | .error p ch => some (ch.unsubscribe i info.2, { x with task := .panicked p })
  | _ => none

/-- The task of a node forwards session statuses, and what else is meant for the node. -/
def forwards (info : JoinInfo) : Command → Bool
  | .sessionStatus _ => true
  | .offer offer => offer.sessionId = info.2 ∧ offer.targetId = info.1
  | .answer answer => answer.sessionId = info.2 ∧ answer.targetId = info.1
  | .iceCandidate candidate => candidate.sessionId = info.2 ∧ candidate.targetId = info.1
  | .join _ => false

/-- The task sends a message to the client, with success or not; a connection on which sending
fails is down. -/
def send (i : SocketId) (sessionId : SessionId) (ok : Bool) (msg : Option Command)
    (ch : Channels) (x : Socket) : Channels × Socket :=
  if ok then (ch, { x with sent := x.sent ++ msg.toList })
  else (ch.unsubscribe i sessionId, { x with task := .ended false, isOpen := false })

/-- The loop receives a broadcast message and forwards it, if it is to be forwarded. -/
def forward (i : SocketId) (ok : Bool) (ch : Channels) (x : Socket) :
    Option (Channels × Socket) :=
  match x.task with
  | .subscribed .running info =>
    match ch.receiver i info.2 with
    | some { queue, lagged := true } =>
      -- `rx.recv()` reports the loss once, and the `select!` goes on with another branch
      some (ch.setReceiver i info.2 { queue, lagged := false }, x)
    | some { queue := msg :: queue, lagged := false } =>
      let ch := ch.setReceiver i info.2 { queue, lagged := false }
      match msg with
      | .join _ => some (ch.unsubscribe i info.2, { x with task := .panicked .unreachable })
      | msg => some (if forwards info msg then x.send i info.2 ok (some msg) ch else (ch, x))
    | _ => none
  | _ => none

/-- The loop sends a ping. -/
def ping (i : SocketId) (ok : Bool) (ch : Channels) (x : Socket) : Option (Channels × Socket) :=
  match x.task with
  | .subscribed .running info => some (x.send i info.2 ok none ch)
  | _ => none

/-- `left_rx.recv()`, which also ends when nobody can send. -/
def endTask (i : SocketId) (ch : Channels) (x : Socket) : Option (Channels × Socket) :=
  match x.task with
  | .subscribed .running info =>
    if x.leftSent ∨ x.main.isOver then
      some (ch.unsubscribe i info.2, { x with task := .ended true })
    else none
  | _ => none

end Socket

end Introducer

/-- The introducer: what its sockets share, and the sockets accepted so far. -/
structure Introducer where
  channels : Introducer.Channels
  sockets : List Introducer.Socket

namespace Introducer

/-- What happens at one socket. -/
inductive SocketAction where
  | receive (cmd : Command)
  | sendJoin
  | close
  | endLoop
  | sendLeft
  | awaitTask
  | leave
  | announceLeft
  | takeJoin
  | ensureSession
  | subscribe
  | join
  | announceJoined
  | forward (ok : Bool)
  | ping (ok : Bool)
  | endTask
  deriving DecidableEq

/-- The steps of the introducer. -/
inductive Action where
  /-- A socket is accepted. -/
  | accept
  | socket (i : SocketId) (a : SocketAction)
  deriving DecidableEq

/-- One step of socket `i`; `none` when it is not possible. -/
def Socket.exec (i : SocketId) (ch : Channels) (x : Socket) :
    SocketAction → Option (Channels × Socket)
  | .receive cmd => x.receive cmd ch
  | .sendJoin => x.sendJoin ch
  | .close => x.close ch
  | .endLoop => x.endLoop ch
  | .sendLeft => x.sendLeft ch
  | .awaitTask => x.awaitTask ch
  | .leave => x.leave ch
  | .announceLeft => x.announceLeft ch
  | .takeJoin => x.takeJoin ch
  | .ensureSession => x.ensureSession ch
  | .subscribe => x.subscribe i ch
  | .join => x.join i ch
  | .announceJoined => x.announceJoined i ch
  | .forward ok => x.forward i ok ch
  | .ping ok => x.ping i ok ch
  | .endTask => x.endTask i ch

/-- The introducer when it starts. -/
def start (capacity : ℕ) : Introducer where
  channels := .default capacity
  sockets := []

/-- The introducer starts, and a channel keeps the 10 messages that it is made for, or more: tokio
rounds the number up. -/
def Starts (c : Introducer) : Prop := ∃ capacity, 10 ≤ capacity ∧ c = start capacity

/-- The channels of the version in use keep 16 messages. -/
theorem starts_start : (start 16).Starts := ⟨16, by decide, rfl⟩

/-- One step of the introducer; `none` when it is not possible. -/
def exec (c : Introducer) : Action → Option Introducer
  | .accept => some { c with sockets := c.sockets ++ [Socket.accepted] }
  | .socket i a =>
    c.sockets[i]?.bind fun x => (x.exec i c.channels a).map fun r =>
      { channels := r.1, sockets := c.sockets.set i r.2 }

/-- The finite runs of the introducer, latest state first, all of whose steps meet the condition
`G`. -/
def IsRunWhere (G : Introducer → Action → Prop) : List Introducer → Prop :=
  TransitionSystem.IsRun Starts (TransitionSystem.Acts exec G)

end Introducer

end Wraft
