import Wraft.ForMathlib.Run
import Wraft.Raft.Message
import Wraft.WebrtcRpc.RingBuf

/-!
# The RPC transport

Two ends joined by a data channel. At each end a client makes calls, a request manager sends the
requests and waits for the responses, and a server answers the requests of the other end.

The calls of an end are numbered, and the sender on which a call waits for its result is its
number. A packet is a message together with the number of the call for which it was sent, which is
not on the wire and which no code reads. Likewise `requests` only records what was asked for by the
calls, and `handled` what a handler was given for a call and what it computed.

Nothing orders what is in flight: packets are delivered in any order or lost, handlers complete in
any order, and a timer may fire, and its index be processed, at any time after it was started.
-/

namespace Wraft.WebrtcRpc

/-- The ends of a data channel. -/
inductive Side where
  | left
  | right
  deriving DecidableEq

def Side.other : Side → Side
  | .left => .right
  | .right => .left

theorem Side.other_ne (s : Side) : s.other ≠ s := by cases s <;> decide

theorem Side.other_other (s : Side) : s.other.other = s := by cases s <;> rfl

theorem Side.eq_other {s u : Side} (h : s ≠ u) : s = u.other := by
  cases s <;> cases u <;> first | rfl | exact absurd rfl h

variable {w : ℕ} {Req Resp : Type}

inductive Message (w : ℕ) (Req Resp : Type) where
  | request (idx : Usize w) (req : Req)
  | response (idx : Usize w) (resp : Except TransportError Resp)
  deriving DecidableEq

/-- A message in flight, and the call for which it was sent. -/
structure Packet (w : ℕ) (Req Resp : Type) where
  message : Message w Req Resp
  origin : ℕ
  deriving DecidableEq

/-- A request that waits for its handler. -/
structure Pending (w : ℕ) (Req : Type) where
  idx : Usize w
  req : Req
  origin : ℕ
  deriving DecidableEq

/-- What a handler has computed: the call, the request that the handler was given, and its
response. -/
structure Handled (Req Resp : Type) where
  origin : ℕ
  req : Req
  resp : Except TransportError Resp
  deriving DecidableEq

/-- A response that waits for the request manager. -/
structure Reply (w : ℕ) (Resp : Type) where
  idx : Usize w
  resp : Except TransportError Resp
  origin : ℕ
  deriving DecidableEq

/-- What runs at one end. -/
structure Endpoint (w : ℕ) (Req Resp : Type) where
  /-- The requests of the calls made so far. -/
  requests : List Req
  connected : Bool
  /-- The channels are closed. -/
  closed : Bool
  /-- The request manager has returned. -/
  stopped : Bool
  /-- A request that was just added could not be removed. -/
  panicked : Bool
  /-- The requests on their way to the manager. -/
  reqRx : List (Req × ℕ)
  /-- The responses on their way to the manager. -/
  respRx : List (Reply w Resp)
  /-- The timers that were started and not yet processed. -/
  timeoutRx : List (Usize w)
  inFlight : RingBuf w ℕ
  /-- The requests of the other end that the server has received. -/
  serverReqRx : List (Pending w Req)
  /-- The results that calls have returned. -/
  results : List (ℕ × Except TransportError Resp)

def maxInFlightRequests (w : ℕ) : Usize w := 1024

/-- The buffer has slots if `usize` can count them. -/
theorem maxInFlightRequests_pos (hw : 10 < w) : 0 < (maxInFlightRequests w).toNat := by
  have hlt : 2 ^ 10 < 2 ^ w := Nat.pow_lt_pow_right (by omega) hw
  have heq : (maxInFlightRequests w).toNat = 1024 % 2 ^ w := BitVec.toNat_ofNat ..
  rw [heq, Nat.mod_eq_of_lt (by omega)]
  omega

namespace Endpoint

/-- The number of calls made so far. -/
def calls (e : Endpoint w Req Resp) : ℕ := e.requests.length

/-- An end after `PeerTransport::start`. -/
def started (hw : 10 < w) : Endpoint w Req Resp where
  requests := []
  connected := true
  closed := false
  stopped := false
  panicked := false
  reqRx := []
  respRx := []
  timeoutRx := []
  inFlight := .withCapacity (maxInFlightRequests w) (maxInFlightRequests_pos hw)
  serverReqRx := []
  results := []

/-- `tx.send(result)` on the sender of a call -/
def complete (e : Endpoint w Req Resp) (tx : ℕ) (result : Except TransportError Resp) :
    Endpoint w Req Resp :=
  { e with results := e.results ++ [(tx, result)] }

/-- `Client::call` -/
def call (e : Endpoint w Req Resp) (req : Req) : Endpoint w Req Resp :=
  let tx := e.calls
  let e := { e with requests := e.requests ++ [req] }
  if !e.connected then e.complete tx (.error .disconnected)
  else if e.closed then { e.complete tx (.error .disconnected) with connected := false }
  else { e with reqRx := e.reqRx ++ [(req, tx)] }

/-- `handle_request`, which may fail to send, and the packet that it sends otherwise. -/
def handleRequest (e : Endpoint w Req Resp) (req : Req) (tx : ℕ) (sent : Bool) :
    Endpoint w Req Resp × Option (Packet w Req Resp) :=
  match e.inFlight.add tx with
  | (.ok idx, inFlight) =>
    if sent then
      ({ e with inFlight, timeoutRx := e.timeoutRx ++ [idx] }, some ⟨.request idx req, tx⟩)
    else
      match inFlight.remove idx with
      | (some tx, inFlight) => ({ e with inFlight }.complete tx (.error .js), none)
      | (none, inFlight) => ({ e with inFlight, panicked := true }, none)
  | (.error (.overflow tx), inFlight) =>
    ({ e with inFlight }.complete tx (.error .tooManyInFlightRequests), none)

/-- The request in flight under an index is completed, if there is one. -/
def finish (e : Endpoint w Req Resp) (idx : Usize w) (result : Except TransportError Resp) :
    Endpoint w Req Resp :=
  match e.inFlight.remove idx with
  | (some tx, inFlight) => { e with inFlight }.complete tx result
  | (none, inFlight) => { e with inFlight }

def handleResponse (e : Endpoint w Req Resp) (idx : Usize w) (resp : Except TransportError Resp) :
    Endpoint w Req Resp :=
  e.finish idx resp

def handleTimeout (e : Endpoint w Req Resp) (idx : Usize w) : Endpoint w Req Resp :=
  e.finish idx (.error .requestTimeout)

/-- A message arrives. -/
def onMessage (e : Endpoint w Req Resp) (p : Packet w Req Resp) : Endpoint w Req Resp :=
  match p.message with
  | .request idx req => { e with serverReqRx := e.serverReqRx ++ [⟨idx, req, p.origin⟩] }
  | .response idx resp => { e with respRx := e.respRx ++ [⟨idx, resp, p.origin⟩] }

/-- The senders that the manager holds. -/
def waiting (e : Endpoint w Req Resp) : List ℕ :=
  e.reqRx.map Prod.snd ++ e.inFlight.data.filterMap fun p => p.map Prod.snd

/-- The manager returns, which drops the senders that it holds: their calls see that nobody will
answer. -/
def stop (e : Endpoint w Req Resp) : Endpoint w Req Resp :=
  { e with
    stopped := true
    results := e.results ++ e.waiting.map (·, .error .disconnected) }

end Endpoint

/-- The two ends, and what is between them. -/
structure Transport (w : ℕ) (Req Resp : Type) where
  ends : Side → Endpoint w Req Resp
  /-- The packets on their way to an end. -/
  dataChannel : Side → List (Packet w Req Resp)
  /-- What was computed for the calls of an end by the other one. -/
  handled : Side → List (Handled Req Resp)

inductive Action (Req Resp : Type) where
  | call (s : Side) (req : Req)
  /-- The manager takes a request from its channel. -/
  | request (s : Side) (sent : Bool)
  /-- The manager takes the `k`-th response. -/
  | response (s : Side) (k : ℕ)
  /-- The manager takes the index of the `k`-th timer. -/
  | timeout (s : Side) (k : ℕ)
  /-- The `k`-th packet on its way to an end arrives. -/
  | deliver (s : Side) (k : ℕ)
  /-- The `k`-th packet on its way to an end is lost. -/
  | lose (s : Side) (k : ℕ)
  /-- The handler of the `k`-th request returns, and sending its response fails or not. -/
  | handle (s : Side) (k : ℕ) (resp : Except TransportError Resp) (sent : Bool)
  /-- The data channel is closed. -/
  | close (s : Side)
  /-- The manager sees that its channels are closed. -/
  | stop (s : Side)

namespace Transport

variable (c : Transport w Req Resp)

/-- Both ends after they started. -/
def started (hw : 10 < w) : Transport w Req Resp where
  ends _ := .started hw
  dataChannel _ := []
  handled _ := []

def setEnd (s : Side) (e : Endpoint w Req Resp) : Transport w Req Resp :=
  { c with ends := Function.update c.ends s e }

def setDataChannel (s : Side) (ps : List (Packet w Req Resp)) : Transport w Req Resp :=
  { c with dataChannel := Function.update c.dataChannel s ps }

/-- A packet is sent to an end. -/
def send (s : Side) (p : Packet w Req Resp) : Transport w Req Resp :=
  c.setDataChannel s (c.dataChannel s ++ [p])

/-- The handler of the `k`-th request at an end returns. -/
def handle (s : Side) (k : ℕ) (p : Pending w Req) (resp : Except TransportError Resp) :
    Transport w Req Resp :=
  { c.setEnd s { c.ends s with serverReqRx := (c.ends s).serverReqRx.eraseIdx k } with
    handled := Function.update c.handled s.other
      (c.handled s.other ++ [⟨p.origin, p.req, resp⟩]) }

/-- One step; `none` when it is not possible. -/
def exec : Action Req Resp → Option (Transport w Req Resp)
  | .call s req => some (c.setEnd s ((c.ends s).call req))
  | .request s sent =>
    if (c.ends s).stopped then none
    else
      match (c.ends s).reqRx with
      | [] => none
      | (req, tx) :: reqRx =>
        match { c.ends s with reqRx }.handleRequest req tx sent with
        | (e, some p) => some ((c.setEnd s e).send s.other p)
        | (e, none) => some (c.setEnd s e)
  | .response s k =>
    if (c.ends s).stopped then none
    else
      (c.ends s).respRx[k]?.map fun r =>
        c.setEnd s
          ({ c.ends s with respRx := (c.ends s).respRx.eraseIdx k }.handleResponse r.idx r.resp)
  | .timeout s k =>
    if (c.ends s).stopped then none
    else
      (c.ends s).timeoutRx[k]?.map fun idx =>
        c.setEnd s
          ({ c.ends s with timeoutRx := (c.ends s).timeoutRx.eraseIdx k }.handleTimeout idx)
  | .deliver s k =>
    (c.dataChannel s)[k]?.map fun p =>
      (c.setDataChannel s ((c.dataChannel s).eraseIdx k)).setEnd s ((c.ends s).onMessage p)
  | .lose s k =>
    (c.dataChannel s)[k]?.map fun _ => c.setDataChannel s ((c.dataChannel s).eraseIdx k)
  | .handle s k resp sent =>
    (c.ends s).serverReqRx[k]?.map fun p =>
      if sent then (c.handle s k p resp).send s.other ⟨.response p.idx resp, p.origin⟩
      else c.handle s k p resp
  | .close s => some (c.setEnd s { c.ends s with closed := true })
  | .stop s =>
    if (c.ends s).closed ∧ ¬(c.ends s).stopped then some (c.setEnd s (c.ends s).stop) else none

/-- The finite runs from the start of both ends, latest state first. -/
def IsRun (hw : 10 < w) : List (Transport w Req Resp) → Prop :=
  TransitionSystem.IsRun (· = started hw) (TransitionSystem.Acts exec fun _ _ => True)

end Transport

end Wraft.WebrtcRpc
