import Wraft.Introducer.Panics

/-!
# Routing by the introducer

The task of a socket that joined as node `n` of session `s` forwards to its client, of the commands
that are broadcast in the session, those that are addressed to it. Every receiver has its own
queue, which holds what was broadcast and not yet received, so that what was forwarded and what is
still to be forwarded are together what was accepted since the task subscribed (`Listens`).

A queue that is full loses its oldest message to a broadcast. If that is a message for the
receiver's own node, it is never forwarded (`not_exactRouting`); without such losses the routing is
exact (`exact_routing`).
-/

namespace Wraft

namespace Introducer

/-! ### What is broadcast -/

/-- The node and the session that a command is addressed to. -/
def Command.address : Command → Option JoinInfo
  | .offer o | .answer o => some (o.targetId, o.sessionId)
  | .iceCandidate o => some (o.targetId, o.sessionId)
  | .join _ | .sessionStatus _ => none

namespace Socket

/-- The command and its session, if broadcasting it succeeds. -/
def relays (ch : Channels) (cmd : Command) : Option (SessionId × Command) :=
  cmd.address.bind fun info =>
    match (Channels.broadcast info.2 cmd).run ch with
    | .ok (.ok ()) _ => some (info.2, cmd)
    | _ => none

/-- The status of a session, if announcing it succeeds. -/
def announces (ch : Channels) (s : SessionId) : Option (SessionId × Command) :=
  match (Channels.broadcastSessionInfo s).run ch, ch.online.val s with
  | .ok (.ok ()) _, some online => some (s, .sessionStatus { sessionId := s, online })
  | _, _ => none

/-- What a step of a socket broadcasts, and in which session. -/
def broadcasts (ch : Channels) (x : Socket) : SocketAction → Option (SessionId × Command)
  | .receive cmd => if x.main = .receiving then relays ch cmd else none
  | .announceLeft =>
    match x.main with
    | .announcing s => announces ch s
    | _ => none
  | .announceJoined =>
    match x.task with
    | .subscribed .announcing info => announces ch info.2
    | _ => none
  | _ => none

/-- The offers, answers and candidates that the client was sent. -/
def forwarded (x : Socket) : List Command := x.sent.filter (·.address.isSome)

end Socket

/-- What a step broadcasts, and in which session. -/
def broadcasts (c : Introducer) : Action → Option (SessionId × Command)
  | .accept => none
  | .socket i a => c.sockets[i]?.bind fun x => x.broadcasts c.channels a

/-- Of what is broadcast, what is addressed to somebody. -/
def arrived (sent : Option (SessionId × Command)) : List Command :=
  (sent.map (·.2)).toList.filter (·.address.isSome)

/-- By a broadcast the socket loses a message that is addressed to it: the queue of its receiver is
full, and this is the oldest message of the queue. -/
def Socket.loses (capacity : ℕ) (sent : Option (SessionId × Command))
    (receiver : SessionId → Option Receiver) (x : Socket) : Bool :=
  match sent, x.task with
  | some (u, _), .subscribed _ info => (receiver u).any fun rx =>
      capacity ≤ rx.queue.length && rx.queue.head?.any (·.address = some info)
  | _, _ => false

/-- Socket `i`, which is like one just accepted as long as it is not. -/
def socket (c : Introducer) (i : SocketId) : Socket := c.sockets[i]?.getD .accepted

/-- In the step, socket `i` loses a message that is addressed to it. -/
def loses (i : SocketId) (c : Introducer) (a : Action) : Bool :=
  (c.socket i).loses c.channels.capacity (c.broadcasts a) (c.channels.receiver i)

/-- The introducer with the commands it has accepted so far, and how many of them there were when
each socket subscribed. -/
structure Traced where
  state : Introducer
  accepted : List Command
  since : SocketId → ℕ

namespace Traced

/-- The start, with nothing accepted. -/
def start (capacity : ℕ) : Traced where
  state := .start capacity
  accepted := []
  since _ := 0

/-- One step; a command that is addressed to somebody is accepted when it is broadcast. -/
def exec (t : Traced) (a : Action) : Option Traced :=
  (t.state.exec a).map fun state =>
    { state
      accepted := t.accepted ++ arrived (t.state.broadcasts a)
      since := fun i => if a = .socket i .subscribe then t.accepted.length else t.since i }

/-- The introducer starts with channels that keep 10 messages, or more. -/
def Starts (t : Traced) : Prop := ∃ capacity, 10 ≤ capacity ∧ t = start capacity

/-- The finite runs of the introducer, latest state first, all of whose steps meet the condition
`G`. -/
def IsRunWhere (G : Introducer → Action → Prop) : List Traced → Prop :=
  TransitionSystem.IsRun Starts (TransitionSystem.Acts exec fun t => G t.state)

end Traced

namespace Channels

variable {ch : Channels}

/-- An announcement reaches every receiver of its session, or nobody. -/
theorem receiver_announce (ch : Channels) (u : SessionId) :
    match (broadcastSessionInfo u).run ch with
    | .ok (.ok ()) ch' => ∀ i,
        ch'.receiver i = heard ch.capacity (Socket.announces ch u) (ch.receiver i)
    | .ok (.error _) ch' => ch' = ch ∧ Socket.announces ch u = none
    | .error _ ch' => ch' = ch ∧ Socket.announces ch u = none := by
  rw [Socket.announces]
  obtain hpoison | hpoison := Bool.eq_false_or_eq_true ch.online.poisoned
  · simp [broadcastSessionInfo, lockOnline, hpoison]
  rcases honline : ch.online.val u with _ | online
  · simp [broadcastSessionInfo, lockOnline, hpoison, honline]
  have hrun : (broadcastSessionInfo u).run ch =
      (broadcast u (.sessionStatus { sessionId := u, online })).run ch := by
    simp [broadcastSessionInfo, lockOnline, hpoison, honline]
  have hch := receiver_broadcast ch u (.sessionStatus { sessionId := u, online })
  rw [hrun]
  cases hb : (broadcast u (.sessionStatus { sessionId := u, online })).run ch with
  | ok res ch' =>
    rw [hb] at hch
    cases res with
    | ok _ => exact hch
    | error e => exact ⟨hch, rfl⟩
  | error p ch' =>
    rw [hb] at hch
    exact ⟨hch, rfl⟩

end Channels

/-! ### What a receiver still has to receive -/

/-- The commands of a list that are addressed to a node and session. -/
def own (info : JoinInfo) (l : List Command) : List Command :=
  l.filter fun cmd => cmd.address = some info

theorem own_append (info : JoinInfo) (l l' : List Command) :
    own info (l ++ l') = own info l ++ own info l' :=
  List.filter_append l l'

theorem own_singleton_of_ne {info : JoinInfo} {cmd : Command} (h : cmd.address ≠ some info) :
    own info [cmd] = [] := by
  simp [own, h]

/-- What is addressed to a node is addressed to somebody. -/
theorem own_arrived (info : JoinInfo) (sent : Option (SessionId × Command)) :
    own info (arrived sent) = own info ((sent.map (·.2)).toList) := by
  rw [own, arrived, List.filter_filter]
  refine List.filter_congr fun cmd _ => ?_
  by_cases h : cmd.address = some info <;> simp [h]

/-- A broadcast adds its command to what a receiver has for its node, if nothing is lost. -/
theorem own_queue_push {info : JoinInfo} {rx : Receiver} {capacity : ℕ} {cmd : Command}
    (h : capacity ≤ rx.queue.length → rx.queue.head?.any (·.address = some info) = false) :
    own info (rx.push capacity cmd).queue = own info rx.queue ++ own info [cmd] := by
  rw [Receiver.push]
  split_ifs with hroom
  · exact own_append info rx.queue [cmd]
  · -- the oldest message makes room
    rw [own_append]
    congr 1
    replace h := h (Nat.le_of_not_lt hroom)
    rcases hq : rx.queue with _ | ⟨msg, queue⟩
    · rfl
    · rw [hq] at h
      rw [List.tail_cons, own, own, List.filter_cons_of_neg (by simpa using h)]

/-- The task of a socket has not subscribed and has sent nothing, or what it has sent and its
receiver still holds for its node is what arrived for it, as `log` has it. -/
def Listens (log : List Command) (receiver : SessionId → Option Receiver) (x : Socket) : Prop :=
  match x.task with
  | .waiting | .ensuring _ | .subscribing _ => x.sent = [] ∧ ∀ s, receiver s = none
  | .subscribed _ info =>
    ∃ rx, receiver info.2 = some rx ∧ x.forwarded ++ own info rx.queue = own info log
  | .ended _ | .panicked _ => True

namespace Listens

variable {log : List Command} {receiver : SessionId → Option Receiver} {x x' : Socket}
  {info : JoinInfo} {phase : Phase}

theorem of_isOver (h : x.task.isOver) : Listens log receiver x := by
  rw [Listens]
  cases hx : x.task <;> first | trivial | (rw [hx] at h; cases h)

theorem congr (h : Listens log receiver x) (htask : x'.task = x.task) (hsent : x'.sent = x.sent) :
    Listens log receiver x' := by
  rw [Listens, Socket.forwarded, htask, hsent]
  exact h

/-- Before a task subscribes nothing is for it. -/
theorem waiting (h : Listens log receiver x)
    (hx : x.task = .waiting ∨ (∃ info, x.task = .ensuring info) ∨
      ∃ info, x.task = .subscribing info) :
    x.sent = [] ∧ ∀ s, receiver s = none := by
  rw [Listens] at h
  obtain hx | ⟨info, hx⟩ | ⟨info, hx⟩ := hx <;> rwa [hx] at h

theorem subscribed (h : Listens log receiver x) (hx : x.task = .subscribed phase info) :
    ∃ rx, receiver info.2 = some rx ∧ x.forwarded ++ own info rx.queue = own info log := by
  rwa [Listens, hx] at h

theorem of_subscribed (hx : x.task = .subscribed phase info) {rx : Receiver}
    (hrx : receiver info.2 = some rx) (h : x.forwarded ++ own info rx.queue = own info log) :
    Listens log receiver x := by
  rw [Listens, hx]
  exact ⟨rx, hrx, h⟩

/-- A broadcast that loses nothing of the socket's keeps the balance. -/
theorem heard {capacity : ℕ} {sent : Option (SessionId × Command)}
    (hsent : ∀ u cmd info, sent = some (u, cmd) → cmd.address = some info → info.2 = u)
    (hloses : x.loses capacity sent receiver = false) (h : Listens log receiver x) :
    Listens (log ++ arrived sent) (Channels.heard capacity sent receiver) x := by
  rcases sent with _ | ⟨u, cmd⟩
  · rw [arrived, Option.map_none, Option.toList_none, List.filter_nil, List.append_nil]
    exact h
  cases htask : x.task with
  | waiting | ensuring _ | subscribing _ =>
    obtain ⟨hsent, hnone⟩ := h.waiting (by simp [htask])
    rw [Listens, htask]
    refine ⟨hsent, fun s => ?_⟩
    rw [Channels.heard, hnone s]
    split_ifs <;> rfl
  | ended _ | panicked _ => exact of_isOver (by rw [htask]; rfl)
  | subscribed phase info =>
    obtain ⟨rx, hrx, heq⟩ := h.subscribed htask
    have hnew : own info (arrived (some (u, cmd))) = own info [cmd] := own_arrived info _
    by_cases hu : info.2 = u
    · have hrx' : Channels.heard capacity (some (u, cmd)) receiver info.2 =
          some (rx.push capacity cmd) := by
        rw [Channels.heard, if_pos hu, hrx]
        rfl
      refine of_subscribed htask hrx' ?_
      rw [own_queue_push fun hfull => ?_, ← List.append_assoc, heq, own_append, hnew]
      simpa [Socket.loses, htask, ← hu, hrx, hfull] using hloses
    · -- a broadcast in another session is not for this node
      have hrx' : Channels.heard capacity (some (u, cmd)) receiver info.2 = some rx := by
        rw [Channels.heard, if_neg hu, hrx]
      refine of_subscribed htask hrx' ?_
      rw [own_append, hnew, own_singleton_of_ne fun haddr => hu (hsent u cmd info rfl haddr),
        List.append_nil, heq]

end Listens

/-! ### Steps -/

namespace Socket

variable {i : SocketId} {ch ch' : Channels} {x x' : Socket} {a : SocketAction}
  {sent : Option (SessionId × Command)}

theorem address_of_relays {cmd : Command} (h : relays ch cmd = sent) :
    ∀ u cmd' info, sent = some (u, cmd') → cmd'.address = some info → info.2 = u := by
  rintro u cmd' info rfl haddr
  obtain ⟨info', haddr', h⟩ := Option.bind_eq_some_iff.mp h
  split at h
  · obtain ⟨rfl, rfl⟩ := Prod.mk.inj (Option.some.inj h)
    rw [haddr] at haddr'
    rw [Option.some.inj haddr']
  · exact nomatch h

theorem address_of_announces {s : SessionId} (h : announces ch s = sent) :
    ∀ u cmd info, sent = some (u, cmd) → cmd.address = some info → info.2 = u := by
  rintro u cmd info rfl haddr
  rw [announces] at h
  split at h
  · obtain ⟨-, rfl⟩ := Prod.mk.inj (Option.some.inj h)
    exact nomatch haddr
  · exact nomatch h

/-- What is addressed to a node is broadcast in the session of its address. -/
theorem address_of_broadcasts : ∀ u cmd info, x.broadcasts ch a = some (u, cmd) →
    cmd.address = some info → info.2 = u := by
  intro u cmd info h
  rw [broadcasts.eq_def] at h
  split at h
  · split_ifs at h
    exact address_of_relays h u cmd info rfl
  · split at h
    · exact address_of_announces h u cmd info rfl
    · exact nomatch h
  · split at h
    · exact address_of_announces h u cmd info rfl
    · exact nomatch h
  · exact nomatch h

/-- What a step of socket `i` that broadcasts `sent` does to the receivers: those of other sockets
hear it, and the balance of socket `i` is kept, if nothing of its own is lost. -/
structure Routes (i : SocketId) (ch : Channels) (x : Socket) (a : SocketAction) (ch' : Channels)
    (x' : Socket) : Prop where
  others : ∀ j, j ≠ i →
    ch'.receiver j = Channels.heard ch.capacity (x.broadcasts ch a) (ch.receiver j)
  listens : ∀ log, x.loses ch.capacity (x.broadcasts ch a) (ch.receiver i) = false →
    Listens log (ch.receiver i) x →
    Listens (if a = .subscribe then [] else log ++ arrived (x.broadcasts ch a)) (ch'.receiver i) x'

/-- A step that leaves the task where it is and sends nothing to the client. -/
theorem Routes.of_heard (ha : a ≠ .subscribe)
    (hheard : ∀ j,
      ch'.receiver j = Channels.heard ch.capacity (x.broadcasts ch a) (ch.receiver j))
    (htask : x'.task = x.task) (hsent : x'.sent = x.sent) : Routes i ch x a ch' x' where
  others j _ := hheard j
  listens log hloses h := by
    rw [if_neg ha, hheard i]
    exact (h.heard address_of_broadcasts hloses).congr htask hsent

/-- The task of socket `i` ends. -/
theorem Routes.of_isOver (hheard : ∀ j, j ≠ i → ch'.receiver j = ch.receiver j)
    (hb : x.broadcasts ch a = none) (hover : x'.task.isOver) : Routes i ch x a ch' x' where
  others j hj := by
    rw [hb]
    exact hheard j hj
  listens _ _ _ := Listens.of_isOver hover

/-- A step without a broadcast. -/
theorem Routes.of_quiet (ha : a ≠ .subscribe) (hb : x.broadcasts ch a = none)
    (hothers : ∀ j, j ≠ i → ch'.receiver j = ch.receiver j)
    (hlistens : ∀ log, Listens log (ch.receiver i) x → Listens log (ch'.receiver i) x') :
    Routes i ch x a ch' x' where
  others j hj := by
    rw [hb]
    exact hothers j hj
  listens log _ h := by
    rw [if_neg ha, hb, arrived, Option.map_none, Option.toList_none, List.filter_nil,
      List.append_nil]
    exact hlistens log h

theorem receiver_unsubscribe_of_ne {j : SocketId} (hj : j ≠ i) (s : SessionId) :
    (ch.unsubscribe i s).receiver j = ch.receiver j := by
  funext u
  rw [Channels.receiver_unsubscribe, if_neg fun h => hj h.1]

theorem receiver_setReceiver_of_ne {j : SocketId} (hj : j ≠ i) (s : SessionId) (rx : Receiver) :
    (ch.setReceiver i s rx).receiver j = ch.receiver j := by
  funext u
  rw [Channels.receiver_setReceiver, if_neg fun h => hj h.1]

/-! #### The receive loop -/

theorem relay_routes {cmd : Command} {info : JoinInfo} (hcmd : cmd.address = some info)
    (hmain : x.main = .receiving) (h : x.relay info.2 cmd ch = (ch', x')) :
    Routes i ch x (.receive cmd) ch' x' := by
  have hb : x.broadcasts ch (.receive cmd) = relays ch cmd := if_pos hmain
  have hch := Channels.receiver_broadcast ch info.2 cmd
  rw [relay] at h
  cases hrun : (Channels.broadcast info.2 cmd).run ch with
  | ok res ch₁ =>
    cases res with
    | ok _ =>
      rw [hrun] at h hch
      cases h
      refine .of_heard nofun (fun j => ?_) rfl rfl
      rw [hb, relays, hcmd, Option.bind_some, hrun]
      exact hch j
    | error e =>
      rw [hrun] at h hch
      cases h
      refine .of_heard nofun (fun j => ?_) rfl rfl
      rw [hb, relays, hcmd, Option.bind_some, hrun, hch]
      rfl
  | error p ch₁ =>
    rw [hrun] at h hch
    cases h
    refine .of_heard nofun (fun j => ?_) rfl rfl
    rw [hb, relays, hcmd, Option.bind_some, hrun, hch]
    rfl

theorem receive_routes {cmd : Command} (h : x.receive cmd ch = some (ch', x')) :
    Routes i ch x (.receive cmd) ch' x' := by
  rw [receive.eq_def] at h
  split at h
  · rename_i hmain
    -- a `Join` and a `SessionStatus` are not addressed to anybody
    have hquiet : cmd.address = none → x.broadcasts ch (.receive cmd) = none := by
      intro haddr
      rw [broadcasts, if_pos hmain, relays, haddr]
      rfl
    cases cmd with
    | join join =>
      cases h
      refine .of_heard nofun (fun j => ?_) rfl rfl
      rw [hquiet rfl]
      rfl
    | sessionStatus st =>
      cases h
      refine .of_heard nofun (fun j => ?_) rfl rfl
      rw [hquiet rfl]
      rfl
    | offer offer => exact relay_routes rfl hmain (Option.some.inj h)
    | answer answer => exact relay_routes rfl hmain (Option.some.inj h)
    | iceCandidate candidate => exact relay_routes rfl hmain (Option.some.inj h)
  · exact nomatch h

theorem announceLeft_routes (h : x.announceLeft ch = some (ch', x')) :
    Routes i ch x .announceLeft ch' x' := by
  rw [announceLeft] at h
  split at h
  · rename_i s hmain
    have hb : x.broadcasts ch .announceLeft = announces ch s := by rw [broadcasts, hmain]
    have hch := Channels.receiver_announce ch s
    split at h
    · rename_i hrun
      rw [hrun] at hch
      cases h
      exact .of_heard nofun (fun j => by rw [hb]; exact hch j) rfl rfl
    · rename_i hrun
      rw [hrun] at hch
      obtain ⟨rfl, hnone⟩ := hch
      cases h
      exact .of_heard nofun (fun j => by rw [hb, hnone]; rfl) rfl rfl
    · rename_i hrun
      rw [hrun] at hch
      obtain ⟨rfl, hnone⟩ := hch
      cases h
      exact .of_heard nofun (fun j => by rw [hb, hnone]; rfl) rfl rfl
  · exact nomatch h

/-- The other steps of the receive loop leave the channels of the sessions. -/
theorem main_routes (ha : a ≠ .subscribe) (hb : x.broadcasts ch a = none)
    (hmessages : ch'.messages = ch.messages) (htask : x'.task = x.task)
    (hsent : x'.sent = x.sent) : Routes i ch x a ch' x' := by
  refine .of_heard ha (fun j => ?_) htask hsent
  rw [Channels.receiver_congr hmessages, hb]
  rfl

theorem sendJoin_routes (h : x.sendJoin ch = some (ch', x')) : Routes i ch x .sendJoin ch' x' := by
  rw [sendJoin] at h
  split at h
  · split_ifs at h <;> cases h <;> exact main_routes nofun rfl rfl rfl rfl
  · exact nomatch h

theorem close_routes (h : x.close ch = some (ch', x')) : Routes i ch x .close ch' x' := by
  rw [close] at h
  split_ifs at h
  cases h
  exact main_routes nofun rfl rfl rfl rfl

theorem endLoop_routes (h : x.endLoop ch = some (ch', x')) : Routes i ch x .endLoop ch' x' := by
  rw [endLoop] at h
  split_ifs at h
  cases h
  exact main_routes nofun rfl rfl rfl rfl

theorem sendLeft_routes (h : x.sendLeft ch = some (ch', x')) : Routes i ch x .sendLeft ch' x' := by
  rw [sendLeft] at h
  split_ifs at h <;> cases h <;> exact main_routes nofun rfl rfl rfl rfl

theorem awaitTask_routes (h : x.awaitTask ch = some (ch', x')) :
    Routes i ch x .awaitTask ch' x' := by
  rw [awaitTask] at h
  split_ifs at h
  split at h
  · split at h <;> cases h <;> exact main_routes nofun rfl rfl rfl rfl
  · cases h
    exact main_routes nofun rfl rfl rfl rfl
  · cases h
    exact main_routes nofun rfl rfl rfl rfl
  · exact nomatch h

/-- The parts of `joined` and `left` under the lock on `online` leave the channels of the
sessions. -/
theorem messages_joinedOnline (ch : Channels) (n : NodeId) (s : SessionId) :
    EStateM.Follows (fun c c' => c'.messages = c.messages) ch (Channels.joinedOnline n s) := by
  rintro _ rfl
  obtain hpoison | hpoison := Bool.eq_false_or_eq_true ch.online.poisoned
  · simp [Channels.joinedOnline, Channels.lockOnline, hpoison]
  · simp [Channels.joinedOnline, Channels.lockOnline, hpoison, Channels.setOnline]

theorem messages_leftOnline (ch : Channels) (n : NodeId) (s : SessionId) :
    EStateM.Follows (fun c c' => c'.messages = c.messages) ch (Channels.leftOnline n s) := by
  rintro _ rfl
  obtain hpoison | hpoison := Bool.eq_false_or_eq_true ch.online.poisoned
  · simp [Channels.leftOnline, Channels.lockOnline, hpoison]
  · rcases honline : ch.online.val s with _ | online
    · simp [Channels.leftOnline, Channels.lockOnline, hpoison, honline]
    · simp [Channels.leftOnline, Channels.lockOnline, hpoison, honline, Channels.setOnline]

theorem leave_routes (h : x.leave ch = some (ch', x')) : Routes i ch x .leave ch' x' := by
  rw [leave] at h
  split at h
  · rename_i n s _
    have hch := messages_leftOnline ch n s
    rcases hrun : (Channels.leftOnline n s).run ch with ⟨_, ch₁⟩ | ⟨p, ch₁⟩
    · rw [hrun] at h
      cases h
      exact main_routes (by decide) rfl (hch.of_ok hrun) rfl rfl
    · rw [hrun] at h
      cases h
      exact main_routes (by decide) rfl (hch.of_error hrun) rfl rfl
  · cases h

/-! #### The spawned task -/

theorem takeJoin_routes (h : x.takeJoin ch = some (ch', x')) : Routes i ch x .takeJoin ch' x' := by
  rw [takeJoin] at h
  split at h
  · rename_i info rest htask _
    cases h
    refine .of_quiet nofun rfl (fun _ _ => rfl) fun log hl => ?_
    rw [Listens]
    exact hl.waiting (.inl htask)
  · split_ifs at h
    cases h
    exact .of_isOver (fun _ _ => rfl) rfl rfl
  · exact nomatch h

theorem ensureSession_routes (h : x.ensureSession ch = some (ch', x')) :
    Routes i ch x .ensureSession ch' x' := by
  rw [ensureSession] at h
  split at h
  · rename_i info htask
    have hch := Channels.receiver_ensureSession ch info.2
    split at h
    · rename_i hrun
      rw [hrun] at hch
      cases h
      refine .of_quiet nofun rfl (fun j _ => hch j) fun log hl => ?_
      rw [Listens, hch i]
      exact hl.waiting (.inr (.inl ⟨info, htask⟩))
    · rename_i hrun
      rw [hrun] at hch
      obtain rfl := hch
      cases h
      exact .of_isOver (fun _ _ => rfl) rfl rfl
  · exact nomatch h

/-- The task subscribes, and from then on what arrives for its node is for its receiver. -/
theorem subscribe_routes (h : x.subscribe i ch = some (ch', x')) :
    Routes i ch x .subscribe ch' x' := by
  rw [subscribe] at h
  split at h
  · rename_i info htask
    have hch := Channels.receiver_subscribe ch i info.2
    split at h
    · rename_i hrun
      rw [hrun] at hch
      cases h
      refine ⟨fun j hj => ?_, fun log _ hl => ?_⟩
      · funext s
        rw [hch j s, if_neg hj, Option.or_none]
        split_ifs <;> rfl
      · obtain ⟨hsent, hnone⟩ := hl.waiting (.inr (.inr ⟨info, htask⟩))
        have hrx : ch'.receiver i info.2 = some { queue := [], lagged := false } := by
          rw [hch i info.2, if_pos rfl, if_pos rfl, hnone]
          rfl
        refine Listens.of_subscribed rfl hrx ?_
        rw [if_pos rfl, forwarded, hsent]
        rfl
    · rename_i hrun
      rw [hrun] at hch
      obtain rfl := hch
      cases h
      exact .of_isOver (fun _ _ => rfl) rfl rfl
  · exact nomatch h

/-- A step of a task that has subscribed and stays so, with its receiver as it is. -/
theorem Routes.of_phase {phase phase' : Phase} {info : JoinInfo} (ha : a ≠ .subscribe)
    (hb : x.broadcasts ch a = none) (htask : x.task = .subscribed phase info)
    (htask' : x'.task = .subscribed phase' info) (hforwarded : x'.forwarded = x.forwarded)
    (hch : ∀ j, ch'.receiver j = ch.receiver j) : Routes i ch x a ch' x' := by
  refine .of_quiet ha hb (fun j _ => hch j) fun log hl => ?_
  obtain ⟨rx, hrx, heq⟩ := hl.subscribed htask
  exact .of_subscribed htask' (by rw [hch, hrx]) (by rw [hforwarded, heq])

theorem join_routes (h : x.join i ch = some (ch', x')) : Routes i ch x .join ch' x' := by
  rw [join] at h
  split at h
  · rename_i info htask
    have hch := messages_joinedOnline ch info.1 info.2
    split at h
    · rename_i hrun
      cases h
      exact .of_phase nofun rfl htask rfl rfl fun j => by
        rw [Channels.receiver_congr (hch.of_ok hrun)]
    · rename_i hrun
      cases h
      refine .of_isOver (fun j hj => ?_) rfl rfl
      rw [receiver_unsubscribe_of_ne hj, Channels.receiver_congr (hch.of_error hrun)]
  · exact nomatch h

theorem announceJoined_routes (h : x.announceJoined i ch = some (ch', x')) :
    Routes i ch x .announceJoined ch' x' := by
  rw [announceJoined] at h
  split at h
  · rename_i info htask
    have hb : x.broadcasts ch .announceJoined = announces ch info.2 := by rw [broadcasts, htask]
    have hch := Channels.receiver_announce ch info.2
    split at h
    · rename_i ch₁ hrun
      rw [hrun] at hch
      cases h
      refine ⟨fun j _ => by rw [hb]; exact hch j, fun log hloses hl => ?_⟩
      obtain ⟨rx, hrx, heq⟩ := (hl.heard address_of_broadcasts hloses).subscribed htask
      rw [if_neg nofun]
      exact .of_subscribed rfl (by rw [hch, ← hb, hrx]) heq
    · rename_i hrun
      rw [hrun] at hch
      obtain ⟨rfl, hnone⟩ := hch
      cases h
      exact .of_isOver (fun j hj => receiver_unsubscribe_of_ne hj _) (by rw [hb, hnone]) rfl
    · rename_i hrun
      rw [hrun] at hch
      obtain ⟨rfl, hnone⟩ := hch
      cases h
      exact .of_isOver (fun j hj => receiver_unsubscribe_of_ne hj _) (by rw [hb, hnone]) rfl
  · exact nomatch h

/-- What is addressed to its node is what a task forwards, session statuses apart. -/
theorem forwards_iff {info : JoinInfo} {msg : Command} (h : ∀ st, msg ≠ .sessionStatus st) :
    forwards info msg = true ↔ msg.address = some info := by
  obtain ⟨n, s⟩ := info
  cases msg with
  | join join => simp [forwards, Command.address]
  | sessionStatus st => exact absurd rfl (h st)
  | offer o | answer o | iceCandidate o => simp [forwards, Command.address, and_comm]

/-- Of what a task forwards, the offers, answers and candidates are those for its node. -/
theorem filter_toList_forwards (info : JoinInfo) (msg : Command) :
    (if forwards info msg then [msg] else []).filter (·.address.isSome) = own info [msg] := by
  by_cases hst : ∃ st, msg = .sessionStatus st
  · obtain ⟨st, rfl⟩ := hst
    rfl
  · have hiff : forwards info msg = true ↔ msg.address = some info :=
      forwards_iff fun st h => hst ⟨st, h⟩
    by_cases haddr : msg.address = some info
    · simp [own, hiff.mpr haddr, haddr]
    · rw [if_neg fun h => haddr (hiff.mp h), own_singleton_of_ne haddr]
      rfl

/-- Sending to the client, when what is sent leaves the balance. -/
theorem send_routes {info : JoinInfo} {ok : Bool} {msg : Option Command} {ch₀ : Channels}
    {phase : Phase} (ha : a ≠ .subscribe) (hb : x.broadcasts ch a = none)
    (htask : x.task = .subscribed phase info)
    (hothers : ∀ j, j ≠ i → ch₀.receiver j = ch.receiver j)
    (hmsg : ∀ log, Listens log (ch.receiver i) x → ∃ rx, ch₀.receiver i info.2 = some rx ∧
      x.forwarded ++ msg.toList.filter (·.address.isSome) ++ own info rx.queue = own info log)
    (h : x.send i info.2 ok msg ch₀ = (ch', x')) : Routes i ch x a ch' x' := by
  rw [send] at h
  split_ifs at h
  · cases h
    refine .of_quiet ha hb hothers fun log hl => ?_
    obtain ⟨rx, hrx, heq⟩ := hmsg log hl
    refine .of_subscribed htask hrx ?_
    rw [← heq, forwarded, List.filter_append]
    rfl
  · cases h
    refine .of_isOver (fun j hj => ?_) hb rfl
    rw [receiver_unsubscribe_of_ne hj, hothers j hj]

theorem ping_routes {ok : Bool} (h : x.ping i ok ch = some (ch', x')) :
    Routes i ch x (.ping ok) ch' x' := by
  rw [ping] at h
  split at h
  · rename_i info htask
    refine send_routes nofun rfl htask (fun _ _ => rfl) (fun log hl => ?_) (Option.some.inj h)
    obtain ⟨rx, hrx, heq⟩ := hl.subscribed htask
    exact ⟨rx, hrx, by simpa using heq⟩
  · exact nomatch h

theorem endTask_routes (h : x.endTask i ch = some (ch', x')) : Routes i ch x .endTask ch' x' := by
  rw [endTask] at h
  split at h
  · split_ifs at h
    cases h
    exact .of_isOver (fun j hj => receiver_unsubscribe_of_ne hj _) rfl rfl
  · exact nomatch h

theorem receiver_setReceiver_self {s : SessionId} {rx : Receiver} (h : ch.receiver i s = some rx)
    (rx' : Receiver) : (ch.setReceiver i s rx').receiver i s = some rx' := by
  rw [Channels.receiver_setReceiver, if_pos ⟨rfl, rfl⟩, h]
  rfl

/-- The loop takes one message from its receiver, and forwards it if it is for its node. -/
theorem forward_routes {ok : Bool} (h : x.forward i ok ch = some (ch', x')) :
    Routes i ch x (.forward ok) ch' x' := by
  rw [forward] at h
  split at h
  · rename_i info htask
    split at h
    · -- the loss is reported, and nothing is taken
      rename_i queue hrx
      cases h
      refine .of_quiet nofun rfl (fun j hj => receiver_setReceiver_of_ne hj _ _) fun log hl => ?_
      obtain ⟨rx, hrx', heq⟩ := hl.subscribed htask
      obtain rfl := Option.some.inj (hrx.symm.trans hrx')
      exact .of_subscribed htask (receiver_setReceiver_self hrx _) heq
    · rename_i msg queue hrx
      have hothers : ∀ j, j ≠ i → (ch.setReceiver i info.2 { queue, lagged := false }).receiver j =
          ch.receiver j := fun j hj => receiver_setReceiver_of_ne hj _ _
      have hself := receiver_setReceiver_self hrx { queue, lagged := false }
      split at h
      · cases h
        refine .of_isOver (fun j hj => ?_) rfl rfl
        rw [receiver_unsubscribe_of_ne hj, hothers j hj]
      · have hbalance : ∀ log, Listens log (ch.receiver i) x → x.forwarded ++
            (if forwards info msg then [msg] else []).filter (·.address.isSome) ++
              own info queue = own info log := by
          intro log hl
          obtain ⟨rx, hrx', heq⟩ := hl.subscribed htask
          obtain rfl := Option.some.inj (hrx.symm.trans hrx')
          rw [filter_toList_forwards, List.append_assoc, ← own_append, List.singleton_append, heq]
        split_ifs at h with hforwards
        · refine send_routes nofun rfl htask hothers (fun log hl => ⟨_, hself, ?_⟩)
            (Option.some.inj h)
          rw [← hbalance log hl, if_pos hforwards]
          rfl
        · cases h
          refine .of_quiet nofun rfl hothers fun log hl => .of_subscribed htask hself ?_
          rw [← hbalance log hl, if_neg hforwards, List.filter_nil, List.append_nil]
    · exact nomatch h
  · exact nomatch h

/-- **Step lemma.** What any step of a socket does to the receivers. -/
theorem exec_routes (h : x.exec i ch a = some (ch', x')) : Routes i ch x a ch' x' := by
  cases a with
  | receive cmd => exact receive_routes h
  | sendJoin => exact sendJoin_routes h
  | close => exact close_routes h
  | endLoop => exact endLoop_routes h
  | sendLeft => exact sendLeft_routes h
  | awaitTask => exact awaitTask_routes h
  | leave => exact leave_routes h
  | announceLeft => exact announceLeft_routes h
  | takeJoin => exact takeJoin_routes h
  | ensureSession => exact ensureSession_routes h
  | subscribe => exact subscribe_routes h
  | join => exact join_routes h
  | announceJoined => exact announceJoined_routes h
  | forward ok => exact forward_routes h
  | ping ok => exact ping_routes h
  | endTask => exact endTask_routes h

end Socket

/-! ### Runs -/

theorem socket_of_getElem? {c : Introducer} {i : SocketId} {x : Socket}
    (h : c.sockets[i]? = some x) : c.socket i = x := by
  rw [socket, h]
  rfl

theorem socket_accept (c : Introducer) (i : SocketId) :
    (Introducer.mk c.channels (c.sockets ++ [Socket.accepted])).socket i = c.socket i := by
  rw [socket, socket, List.getElem?_append]
  split_ifs with hi
  · rfl
  · rw [List.getElem?_eq_none (Nat.le_of_not_lt hi), List.getElem?_singleton]
    split_ifs <;> rfl

theorem socket_set {c : Introducer} {i : SocketId} {x : Socket} (h : c.sockets[i]? = some x)
    (ch : Channels) (x' : Socket) (j : SocketId) :
    (Introducer.mk ch (c.sockets.set i x')).socket j = if j = i then x' else c.socket j := by
  obtain ⟨hi, -⟩ := List.getElem?_eq_some_iff.mp h
  rw [socket, socket, List.getElem?_set]
  split_ifs with hij hji hji
  · rfl
  · exact absurd hij.symm hji
  · exact absurd hji.symm hij
  · rfl

namespace Traced

/-- What socket `i` has forwarded and what its receiver still holds for it are what was accepted
since it subscribed. -/
structure Balanced (i : SocketId) (t : Traced) : Prop where
  since : t.since i ≤ t.accepted.length
  listens : Listens (t.accepted.drop (t.since i)) (t.state.channels.receiver i) (t.state.socket i)

theorem balanced_start (capacity : ℕ) (i : SocketId) : (start capacity).Balanced i where
  since := le_rfl
  listens := ⟨rfl, fun _ => rfl⟩

theorem Balanced.exec {i : SocketId} {t t' : Traced} {a : Action} (h : t.Balanced i)
    (hloses : loses i t.state a = false) (hexec : t.exec a = some t') : t'.Balanced i := by
  obtain ⟨c, hc, rfl⟩ := Option.map_eq_some_iff.mp hexec
  cases a with
  | accept =>
    obtain rfl := Option.some.inj hc
    refine ⟨?_, ?_⟩
    · simpa [Introducer.broadcasts, arrived] using h.since
    · simpa [Introducer.broadcasts, arrived, socket_accept] using h.listens
  | socket j a =>
    obtain ⟨x, hx, hc⟩ := Option.bind_eq_some_iff.mp hc
    obtain ⟨⟨ch', x'⟩, hstep, rfl⟩ := Option.map_eq_some_iff.mp hc
    have hroutes := Socket.exec_routes hstep
    have hb : t.state.broadcasts (.socket j a) = x.broadcasts t.state.channels a := by
      rw [Introducer.broadcasts, hx]
      rfl
    rw [loses, hb] at hloses
    by_cases hij : i = j
    · subst hij
      rw [socket_of_getElem? hx] at hloses
      have hlistens := h.listens
      rw [socket_of_getElem? hx] at hlistens
      -- the step is one of the socket itself
      have hnew := hroutes.listens _ hloses hlistens
      by_cases ha : a = .subscribe
      · subst ha
        refine ⟨?_, ?_⟩
        · simp
        · simpa [socket_set hx, hb, Socket.broadcasts, arrived] using hnew
      · refine ⟨?_, ?_⟩
        · simpa [ha] using Nat.le_add_right_of_le h.since
        · simpa [ha, socket_set hx, hb, List.drop_append_of_le_length h.since] using hnew
    · -- another socket's broadcast reaches the receiver at most
      have hnew : Listens _ (ch'.receiver i) (t.state.socket i) :=
        hroutes.others i hij ▸ h.listens.heard Socket.address_of_broadcasts hloses
      refine ⟨?_, ?_⟩
      · simpa [Ne.symm hij] using Nat.le_add_right_of_le h.since
      · simpa [hij, Ne.symm hij, socket_set hx, hb, List.drop_append_of_le_length h.since]
          using hnew

/-- Once its receiver holds nothing, socket `i` has forwarded what was accepted for its node since
it subscribed. -/
def ExactRouting (i : SocketId) (t : Traced) : Prop :=
  ∀ x phase info rx, t.state.sockets[i]? = some x → x.task = .subscribed phase info →
    t.state.channels.receiver i info.2 = some rx → rx.queue = [] →
      x.forwarded = own info (t.accepted.drop (t.since i))

/-- **Exact routing.** In a run in which a socket loses nothing that is addressed to it, its task
forwards what is for its node, in the order of the broadcasts, and nothing else. -/
theorem exact_routing {i : SocketId} {r : List Traced}
    (hr : IsRunWhere (fun c a => loses i c a = false) r) : ∀ t ∈ r, t.ExactRouting i := by
  intro t ht x phase info rx hx htask hrx hqueue
  have hinv := TransitionSystem.IsRun.invariant (I := Balanced i)
    (fun _ ⟨capacity, _, h⟩ => h ▸ balanced_start capacity i)
    (fun _ _ h ⟨_, ha, hexec⟩ => h.exec ha hexec) hr t ht
  have hlistens := hinv.listens
  rw [socket_of_getElem? hx] at hlistens
  obtain ⟨rx', hrx', heq⟩ := hlistens.subscribed htask
  obtain rfl := Option.some.inj (hrx.symm.trans hrx')
  rwa [hqueue, own, List.filter_nil, List.append_nil] at heq

/-- What client `1`, which is node `2`, sends node `1` over its socket: an offer and `n` ICE
candidates. -/
def signals (n : ℕ) : List Action :=
  .socket 1 (.receive (.offer ⟨7, 2, 1, "sdp"⟩)) ::
    List.replicate n (.socket 1 (.receive (.iceCandidate ⟨7, 2, 1, "candidate", none⟩)))

/-- Nodes `1` and `2` have joined session `7`, and node `1` has received all there is. -/
def joinBoth : List Action :=
  joinActions 0 1 7 ++ joinActions 1 2 7 ++ List.replicate 2 (.socket 0 (.forward true))

/-- An offer and two candidates. -/
theorem exact_routing_signals : ∃ r : List Traced,
    IsRunWhere (fun c a => loses 0 c a = false) r ∧
    (r.head?.any fun t => (t.state.socket 0).forwarded.length = 3) = true ∧
    ∀ t ∈ r, t.ExactRouting 0 := by
  obtain ⟨r, -, hr, hf⟩ := TransitionSystem.exists_run_of_play Starts exec
    (fun t => loses 0 t.state) ⟨16, by decide, rfl⟩
    (joinBoth ++ signals 2 ++ List.replicate 3 (.socket 0 (.forward true)))
    (fun r => r.head?.any fun t => (t.state.socket 0).forwarded.length = 3) (by decide +kernel)
  exact ⟨r, hr, hf, exact_routing hr⟩

/-- An offer and candidates that come faster than they are received, one more than a channel keeps,
be it the 10 messages that it is made for or the 16 that tokio makes of them: the offer is lost. -/
theorem not_exactRouting : ¬∃ capacity ∈ [10, 16], ∀ r : List Traced,
    IsRunWhere (fun _ _ => True) r → (∀ t ∈ r, t.state.channels.capacity = capacity) →
      ∀ t ∈ r, ∀ i, t.ExactRouting i := by
  rintro ⟨capacity, hcapacity, h⟩
  have hlarge : 10 ≤ capacity := by
    clear h
    revert capacity
    decide
  obtain ⟨r, -, hr, hf⟩ := TransitionSystem.exists_run_of_play Starts exec
    (fun _ _ => false) ⟨capacity, hlarge, rfl⟩
    (joinBoth ++ signals capacity ++
      List.replicate (capacity + 1) (.socket 0 (.forward true)))
    (fun r => r.all (·.state.channels.capacity = capacity) && r.any fun t =>
      t.state.sockets[0]?.any fun x => x.task = .subscribed .running (1, 7) ∧
        (t.state.channels.receiver 0 7).any (·.queue = []) ∧
        x.forwarded.length = capacity ∧
        (own (1, 7) (t.accepted.drop (t.since 0))).length = capacity + 1)
    (by clear h hlarge; revert capacity; decide +kernel)
  obtain ⟨hkeep, hf⟩ := Bool.and_eq_true_iff.mp hf
  obtain ⟨t, ht, hf⟩ := List.any_eq_true.mp hf
  obtain ⟨x, hx, hf⟩ := (Option.any_eq_true _ _).mp hf
  obtain ⟨htask, hrx, hlength, haccepted⟩ := of_decide_eq_true hf
  obtain ⟨rx, hrx, hqueue⟩ := (Option.any_eq_true _ _).mp hrx
  have hrun : IsRunWhere (fun _ _ => True) r :=
    TransitionSystem.IsRun.mono (fun _ _ => TransitionSystem.Acts.mono fun _ _ _ => trivial) hr
  have heq := h r hrun (by simpa using hkeep) t ht 0 x _ _ rx hx htask hrx
    (of_decide_eq_true hqueue)
  rw [heq, haccepted] at hlength
  omega

end Traced

end Introducer

end Wraft
