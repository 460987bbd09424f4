import Mathlib.Data.Finset.Erase
import Mathlib.Data.Finset.Insert
import Mathlib.Logic.Function.Basic
import Wraft.ForMathlib.EStateM

/-!
# `Channels` of `webrtc-introducer`

The state that the sockets of the introducer share: a broadcast channel for each session and the
set of its nodes that are online, each map under a lock. The data types are those of
`webrtc-introducer-types`. Functions are named after the source's; `joined` and `left` take the
lock twice, and each of the two parts is a function of its own.

A lock is poisoned by a panic under its write guard, and from then on everyone who takes it
panics as well.
-/

namespace Wraft.Introducer

abbrev NodeId := ℕ

abbrev SessionId := ℕ

/-- A socket is named by its position among the sockets accepted. -/
abbrev SocketId := ℕ

/-! ### Commands -/

structure Join where
  nodeId : NodeId
  sessionId : SessionId
  deriving DecidableEq

structure Session where
  sessionId : SessionId
  online : Finset NodeId
  deriving DecidableEq

structure Offer where
  sessionId : SessionId
  nodeId : NodeId
  targetId : NodeId
  sdpData : String
  deriving DecidableEq

structure IceCandidate where
  sessionId : SessionId
  nodeId : NodeId
  targetId : NodeId
  candidate : String
  sdpMid : Option String
  deriving DecidableEq

inductive Command where
  | join (join : Join)
  | sessionStatus (status : Session)
  | offer (offer : Offer)
  | answer (answer : Offer)
  | iceCandidate (candidate : IceCandidate)
  deriving DecidableEq

/-! ### Channels -/

/-- The errors that `Channels` can return. -/
inductive Error where
  | sessionNotFound (sessionId : SessionId)
  /-- A broadcast without receivers. -/
  | send
  deriving DecidableEq

/-- The places of the introducer that can panic. -/
inductive Panic where
  /-- A lock is poisoned. -/
  | poisoned
  /-- `get_messages(session_id).unwrap()` -/
  | noChannel
  /-- `onlines.get(&session_id).unwrap()`, and `get_mut` in `left` -/
  | notOnline
  /-- `unreachable!()` -/
  | unreachable
  /-- `recv_handle.await.unwrap()` on a task that panicked -/
  | joinError
  deriving DecidableEq

/-- What a receiver of a broadcast channel has not received yet. -/
structure Receiver where
  queue : List Command
  /-- Messages were lost, and the receiver has not been told yet. -/
  lagged : Bool
  deriving DecidableEq

/-- A message is queued; the oldest one is lost if there is no room. -/
def Receiver.push (rx : Receiver) (capacity : ℕ) (cmd : Command) : Receiver :=
  if rx.queue.length < capacity then { rx with queue := rx.queue ++ [cmd] }
  else { queue := rx.queue.tail ++ [cmd], lagged := true }

/-- A broadcast channel, by its receivers. -/
abbrev Sender := List (SocketId × Receiver)

structure RwLock (α : Type) where
  val : α
  poisoned : Bool

structure Channels where
  /-- How many messages the channel of a session keeps for a slow receiver. -/
  capacity : ℕ
  messages : RwLock (SessionId → Option Sender)
  online : RwLock (SessionId → Option (Finset NodeId))

/-- Code that works on the channels and may panic. -/
abbrev Shared (α : Type) := EStateM Panic Channels α

namespace Channels

/-- `Channels::default`, where `channel(10)` makes channels that keep `capacity` messages. -/
def default (capacity : ℕ) : Channels where
  capacity
  messages := { val := fun _ => none, poisoned := false }
  online := { val := fun _ => none, poisoned := false }

def setMessages (ch : Channels) (m : SessionId → Option Sender) : Channels :=
  { ch with messages := { ch.messages with val := m } }

def setOnline (ch : Channels) (o : SessionId → Option (Finset NodeId)) : Channels :=
  { ch with online := { ch.online with val := o } }

/-- `self.messages.read().unwrap()`, and `write` -/
def lockMessages : Shared (SessionId → Option Sender) := do
  let ch ← get
  if ch.messages.poisoned then throw .poisoned else return ch.messages.val

/-- `self.online.read().unwrap()`, and `write` -/
def lockOnline : Shared (SessionId → Option (Finset NodeId)) := do
  let ch ← get
  if ch.online.poisoned then throw .poisoned else return ch.online.val

/-- The part of `joined` under the write lock. -/
def joinedOnline (nodeId : NodeId) (sessionId : SessionId) : Shared Unit := do
  let os ← lockOnline
  modify (·.setOnline
    (Function.update os sessionId (some (insert nodeId ((os sessionId).getD ∅)))))

/-- The part of `left` under the write lock. -/
def leftOnline (nodeId : NodeId) (sessionId : SessionId) : Shared Unit := do
  let o ← lockOnline
  match o sessionId with
  | none =>
    modify fun ch => { ch with online := { ch.online with poisoned := true } }
    throw .notOnline
  | some online => modify (·.setOnline (Function.update o sessionId (some (online.erase nodeId))))

def broadcast (sessionId : SessionId) (command : Command) : Shared (Except Error Unit) := do
  let m ← lockMessages
  match m sessionId with
  | none => return .error (.sessionNotFound sessionId)
  | some tx =>
    if tx = [] then return .error .send
    else
      modify fun ch => ch.setMessages (Function.update m sessionId
        (some (tx.map fun rx => (rx.1, rx.2.push ch.capacity command))))
      return .ok ()

/-- `broadcast_session_info`, which holds the lock on `online` until it has sent. -/
def broadcastSessionInfo (sessionId : SessionId) : Shared (Except Error Unit) := do
  let onlines ← lockOnline
  match onlines sessionId with
  | none => throw .notOnline
  | some online => broadcast sessionId (.sessionStatus { sessionId, online })

def ensureSession (sessionId : SessionId) : Shared Unit := do
  let m ← lockMessages
  if (m sessionId).isSome then return ()
  else modify (·.setMessages (Function.update m sessionId (some [])))

/-- `get_messages(session_id).unwrap().subscribe()` -/
def subscribe (i : SocketId) (sessionId : SessionId) : Shared Unit := do
  let m ← lockMessages
  match m sessionId with
  | none => throw .noChannel
  | some tx => modify (·.setMessages
      (Function.update m sessionId (some (tx ++ [(i, { queue := [], lagged := false })]))))

/-- The receiver of socket `i` in a session's channel. -/
def receiver (ch : Channels) (i : SocketId) (sessionId : SessionId) : Option Receiver :=
  (ch.messages.val sessionId).bind (·.lookup i)

/-- The receiver of socket `i` is left with what `rx` holds. -/
def setReceiver (ch : Channels) (i : SocketId) (sessionId : SessionId) (rx : Receiver) : Channels :=
  ch.setMessages (Function.update ch.messages.val sessionId
    ((ch.messages.val sessionId).map (·.map fun p => if p.1 = i then (i, rx) else p)))

/-- The receiver of socket `i` is dropped. -/
def unsubscribe (ch : Channels) (i : SocketId) (sessionId : SessionId) : Channels :=
  ch.setMessages (Function.update ch.messages.val sessionId
    ((ch.messages.val sessionId).map (·.filter (·.1 ≠ i))))

end Channels

end Wraft.Introducer
