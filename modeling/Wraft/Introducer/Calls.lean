import Wraft.ForMathlib.Guards
import Wraft.ForMathlib.Run
import Wraft.Introducer.Channels

/-!
# Concurrent calls of `joined` and `left`

Any number of calls of `Channels::joined` and `Channels::left` that run at the same time, one lock
acquisition or release after the other. A call takes the write lock on `online`, updates the
session's set and drops the guard; it then takes the read lock on `online`, looks the set up, takes
the read lock on `messages`, sends the set, and drops the two guards in the reverse order. What is
done under a lock are the functions of `Channels`.

Meanwhile the sockets make new sessions, subscribe and unsubscribe, receive, and relay commands of
their clients, each in one step (`Channels.step`). `Calls.announced` records what was sent.
-/

namespace Wraft.Introducer

/-- A call is named by its position among the calls made. -/
abbrev CallId := ℕ

/-- Which function is called. -/
inductive Membership where
  | joined
  | left
  deriving DecidableEq

/-- Where a call is. -/
inductive CallPhase where
  /-- Before it takes the write lock on `online`. -/
  | called
  /-- It holds the write guard. -/
  | writing
  /-- Before `broadcast_session_info` takes the read lock on `online`. -/
  | updated
  /-- It holds the read guard on `online`. -/
  | reading
  /-- It also holds the read guard on `messages`, and is to send the set. -/
  | sending (online : Finset NodeId)
  /-- It has sent, with success or not, and still holds the read guard on `online`. -/
  | sent (ok : Bool)
  | returned (ok : Bool)
  /-- It panicked, before or after its update. -/
  | panicked (updated : Bool)
  deriving DecidableEq

structure Call where
  membership : Membership
  nodeId : NodeId
  sessionId : SessionId
  phase : CallPhase
  deriving DecidableEq

/-- What the sockets do to the channel of a session, apart from the calls. -/
inductive ChannelStep where
  | ensureSession (sessionId : SessionId)
  | subscribe (i : SocketId) (sessionId : SessionId)
  /-- Socket `i` takes the oldest message from its queue, or is told that it has lost some. -/
  | receive (i : SocketId) (sessionId : SessionId)
  | unsubscribe (i : SocketId) (sessionId : SessionId)
  /-- An offer, an answer or a candidate is broadcast. -/
  | relay (sessionId : SessionId) (command : Command)

namespace Channels

/-- The channels after an operation, whether it has returned or panicked. -/
def after {α : Type} (ch : Channels) (op : Shared α) : Channels :=
  match op.run ch with
  | .ok _ ch' | .error _ ch' => ch'

/-- One step of the sockets; `none` when it is not possible. -/
def step (ch : Channels) : ChannelStep → Option Channels
  | .ensureSession sessionId => some (ch.after (ensureSession sessionId))
  | .subscribe i sessionId => some (ch.after (subscribe i sessionId))
  | .receive i sessionId =>
    match ch.receiver i sessionId with
    | some { queue, lagged := true } =>
      some (ch.setReceiver i sessionId { queue, lagged := false })
    | some { queue := _ :: queue, lagged := false } =>
      some (ch.setReceiver i sessionId { queue, lagged := false })
    | _ => none
  | .unsubscribe i sessionId => some (ch.unsubscribe i sessionId)
  | .relay sessionId command =>
    match command with
    | .offer _ | .answer _ | .iceCandidate _ => some (ch.after (broadcast sessionId command))
    | _ => none

end Channels

/-- The update under the write lock. -/
def Call.update (call : Call) : Shared Unit :=
  match call.membership with
  | .joined => Channels.joinedOnline call.nodeId call.sessionId
  | .left => Channels.leftOnline call.nodeId call.sessionId

/-- The shared channels, the guards on their two locks, the calls, and the sets sent in each
session. -/
structure Calls where
  channels : Channels
  onlineGuards : Guards CallId
  messagesGuards : Guards CallId
  calls : List Call
  announced : SessionId → List (Finset NodeId)

/-- The steps of the calls. -/
inductive CallAction where
  | call (membership : Membership) (nodeId : NodeId) (sessionId : SessionId)
  /-- Call `i` goes on. -/
  | step (i : CallId)
  | sockets (step : ChannelStep)

namespace Calls

/-- Call `i` is at a new place. -/
def setPhase (c : Calls) (i : CallId) (call : Call) (phase : CallPhase) : Calls :=
  { c with calls := c.calls.set i { call with phase } }

/-- `self.online.write().unwrap()` -/
def lockWrite (c : Calls) (i : CallId) (call : Call) : Option Calls :=
  (c.onlineGuards.writeLock i).map fun g =>
    if c.channels.online.poisoned then c.setPhase i call (.panicked false)
    else { c with onlineGuards := g }.setPhase i call .writing

/-- The update, and the end of the write guard. -/
def update (c : Calls) (i : CallId) (call : Call) : Calls :=
  match call.update.run c.channels with
  | .ok () channels =>
    { c with channels, onlineGuards := c.onlineGuards.release i }.setPhase i call .updated
  | .error _ channels =>
    { c with channels, onlineGuards := c.onlineGuards.release i }.setPhase i call
      (.panicked false)

/-- `self.online.read().unwrap()` -/
def lockRead (c : Calls) (i : CallId) (call : Call) : Option Calls :=
  (c.onlineGuards.readLock i).map fun g =>
    if c.channels.online.poisoned then c.setPhase i call (.panicked true)
    else { c with onlineGuards := g }.setPhase i call .reading

/-- The set is looked up, and `self.messages.read().unwrap()` -/
def lockMessages (c : Calls) (i : CallId) (call : Call) : Option Calls :=
  match c.channels.online.val call.sessionId with
  | none =>
    some ({ c with onlineGuards := c.onlineGuards.release i }.setPhase i call (.panicked true))
  | some online =>
    (c.messagesGuards.readLock i).map fun g =>
      if c.channels.messages.poisoned then
        { c with onlineGuards := c.onlineGuards.release i }.setPhase i call (.panicked true)
      else { c with messagesGuards := g }.setPhase i call (.sending online)

/-- `tx.send(command)`, and the end of the guard on `messages` -/
def send (c : Calls) (i : CallId) (call : Call) (online : Finset NodeId) : Calls :=
  match (Channels.broadcast call.sessionId
    (.sessionStatus { sessionId := call.sessionId, online })).run c.channels with
  | .ok (.ok ()) channels =>
    { c with
      channels
      messagesGuards := c.messagesGuards.release i
      announced := Function.update c.announced call.sessionId
        (c.announced call.sessionId ++ [online]) }.setPhase i call (.sent true)
  | .ok (.error _) channels =>
    { c with channels, messagesGuards := c.messagesGuards.release i }.setPhase i call (.sent false)
  | .error _ channels =>
    { c with
      channels
      messagesGuards := c.messagesGuards.release i
      onlineGuards := c.onlineGuards.release i }.setPhase i call (.panicked true)

/-- The end of the guard on `online` -/
def finish (c : Calls) (i : CallId) (call : Call) (ok : Bool) : Calls :=
  { c with onlineGuards := c.onlineGuards.release i }.setPhase i call (.returned ok)

/-- Call `i` goes on; `none` when it waits for a lock or is over. -/
def step (c : Calls) (i : CallId) (call : Call) : Option Calls :=
  match call.phase with
  | .called => c.lockWrite i call
  | .writing => some (c.update i call)
  | .updated => c.lockRead i call
  | .reading => c.lockMessages i call
  | .sending online => some (c.send i call online)
  | .sent ok => some (c.finish i call ok)
  | .returned _ | .panicked _ => none

/-- One step; `none` when it is not possible. -/
def exec (c : Calls) : CallAction → Option Calls
  | .call membership nodeId sessionId =>
    some { c with calls := c.calls ++ [{ membership, nodeId, sessionId, phase := .called }] }
  | .step i => c.calls[i]?.bind (c.step i)
  | .sockets step => (c.channels.step step).map fun channels => { c with channels }

/-- Nobody is online, nothing was announced, and there are no calls; the sessions may have any
channels that keep at least 10 messages, with subscribers whose queues are empty. -/
structure Starts (c : Calls) : Prop where
  capacity : 10 ≤ c.channels.capacity
  online : c.channels.online = { val := fun _ => none, poisoned := false }
  messages : c.channels.messages.poisoned = false
  queues : ∀ i s rx, c.channels.receiver i s = some rx → rx.queue = []
  onlineGuards : c.onlineGuards = .free
  messagesGuards : c.messagesGuards = .free
  calls : c.calls = []
  announced : c.announced = fun _ => []

/-- The session has a subscriber. -/
def Listened (s : SessionId) (c : Calls) : Prop :=
  ∃ tx, c.channels.messages.val s = some tx ∧ tx ≠ []

/-- The finite runs of the calls, latest state first, in which session `s` has a subscriber in
every state that a step is taken from. -/
def IsRun (s : SessionId) : List Calls → Prop :=
  TransitionSystem.IsRun Starts (TransitionSystem.Acts exec fun c _ => c.Listened s)

end Calls

/-- The call has updated the set and has not come to the end of its broadcast; if it panicked on
the way, it never does. -/
def CallPhase.announcing : CallPhase → Bool
  | .updated | .reading | .sending _ | .sent _ | .panicked true => true
  | _ => false

end Wraft.Introducer
