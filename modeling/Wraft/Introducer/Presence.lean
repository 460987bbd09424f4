import Wraft.Introducer.Panics

/-!
# Presence in the introducer

A session's online set is meant to be the set of the nodes that have an open socket in the
session. Each socket puts its node online when it joins and takes it offline when it is over, but

* the ids to take offline are those that the last command returned, and a command that is broadcast
  returns none;
* when sending to the client fails, `process_socket` returns before it gets there;
* a set cannot tell two sockets of one node apart.

Each of these lets the set go wrong (`not_present`). Without them it is right whenever no socket
is just being put online or taken offline (`present`).
-/

namespace Wraft

namespace Introducer

/-! ### Clients that join first -/

/-- No command has arrived at the socket yet. -/
def Socket.IsNew (x : Socket) : Prop :=
  x.main = .receiving ∧ x.task = .waiting ∧ x.joinQueue = []

instance (x : Socket) : Decidable x.IsNew := inferInstanceAs (Decidable (_ ∧ _ ∧ _))

/-- The session in which a command is to be broadcast. -/
def Command.target : Command → Option SessionId
  | .offer o | .answer o => some o.sessionId
  | .iceCandidate o => some o.sessionId
  | _ => none

/-- The first command of every client is a `Join`, and then come only commands to broadcast. -/
def obeys (c : Introducer) : Action → Bool
  | .socket i (.receive cmd) =>
    match c.sockets[i]? with
    | some x =>
      match cmd with
      | .join _ => x.IsNew
      | cmd => cmd.target.isSome && !decide x.IsNew
    | none => true
  | _ => true

/-- Sending to a client fails, or a socket that has joined is cleaned up without its ids, as a
command was broadcast after the `Join`, or a node is taken offline that has another open socket in
the session. -/
def disrupts (c : Introducer) : Action → Bool
  | .socket _ (.forward ok) | .socket _ (.ping ok) => !ok
  | .socket i .awaitTask => c.sockets[i]?.any fun x => x.ids = none && x.joinedAs.isSome
  | .socket i .leave =>
    match c.sockets[i]?.map Socket.main with
    | some (.leaving info) => c.sockets.any fun x => x.isOpen && x.joinedAs = some info
    | _ => false
  | _ => false

/-- The task is on its way to put its node online. -/
def Task.isJoining : Task → Bool
  | .ensuring _ | .subscribing _ | .subscribed .inserting _ => true
  | _ => false

/-- The socket is neither just being put online nor just being taken offline. -/
def Socket.Settled (x : Socket) : Prop :=
  x.main.isOver ∨ x.isOpen ∧ x.main = .receiving ∧ x.joinQueue = [] ∧ x.task.isJoining = false

instance (x : Socket) : Decidable x.Settled := inferInstanceAs (Decidable (_ ∨ _ ∧ _ ∧ _ ∧ _))

/-- The online sets are those of the nodes with an open socket. -/
def Present (c : Introducer) : Prop :=
  ∀ s n, n ∈ c.channels.onlineIn s ↔ ∃ x ∈ c.sockets, x.isOpen ∧ x.joinedAs = some (n, s)

/-! ### The way of a socket -/

/-- `left` has taken the node offline. -/
def Main.hasLeft : Main → Bool
  | .announcing _ | .done _ => true
  | _ => false

/-- `recv_handle` is over. -/
def Main.hasAwaited : Main → Bool
  | .leaving _ | .announcing _ | .done _ => true
  | _ => false

/-- The end of the receive loop was sent. -/
def Main.isAwaiting : Main → Bool
  | .receiving | .joining _ | .sendingLeft => false
  | _ => true

theorem Main.hasAwaited_of_hasLeft {m : Main} (h : m.hasLeft) : m.hasAwaited := by
  cases m <;> first | rfl | cases h

/-- The ids a task works with. -/
def Task.info? : Task → Option JoinInfo
  | .ensuring info | .subscribing info | .subscribed _ info => some info
  | _ => none

/-- What the client has asked to join. -/
def Socket.asked (x : Socket) : Option JoinInfo :=
  match x.task with
  | .waiting => x.joinQueue.head?
  | .ensuring info | .subscribing info | .subscribed _ info => some info
  | .ended _ | .panicked _ => x.joinedAs

/-- How a socket is between its acceptance and the end of its tasks. Its ids may be gone. -/
structure Socket.Orderly (x : Socket) : Prop where
  queue : x.task ≠ .waiting → x.joinQueue = []
  single : ∀ info rest, x.joinQueue = info :: rest → rest = []
  ids : ∀ info, x.ids = some info → x.asked = some info
  noError : x.task ≠ .ended false
  ended : x.task = .ended true → x.leftSent = true
  joining : ∀ info, x.main = .joining info → x.task = .waiting ∧ x.joinQueue = [] ∧ x.ids = none
  leaving : ∀ info, x.main = .leaving info → x.joinedAs = some info
  hasAwaited : x.main.hasAwaited → x.task = .ended true
  leftSent : x.leftSent = true → x.main.isAwaiting
  closed : x.main ≠ .receiving → (∀ info, x.main ≠ .joining info) → x.isOpen = false

namespace Socket

variable {i : SocketId} {ch ch' : Channels} {x x' : Socket}

theorem orderly_accepted : Orderly accepted := by
  constructor <;> simp [accepted, Main.hasAwaited]

/-- A step that an obedient client and an undisturbed connection can take. -/
def Quiet (x : Socket) : SocketAction → Prop
  | .receive (.join _) => x.IsNew
  | .receive (.sessionStatus _) => False
  | .forward ok | .ping ok => ok = true
  | .awaitTask => x.ids = none → x.joinedAs = none
  | _ => True

/-- What a step does apart from `joined` and `left`: the online sets, and what the socket has
joined, stay as they are, and the socket is not taken offline. -/
structure Calm (ch : Channels) (x : Socket) (ch' : Channels) (x' : Socket) : Prop where
  online : ch'.online = ch.online
  joinedAs : x'.joinedAs = x.joinedAs
  isOpen : x'.isOpen = true → x.isOpen = true
  hasLeft : x'.main.hasLeft = true → x.main.hasLeft = true ∨ x.joinedAs = none

/-- The receive loop goes on to another place. -/
theorem Orderly.main (ho : x.Orderly) {m : Main}
    (hjoining : ∀ info, m = .joining info → x.task = .waiting ∧ x.joinQueue = [] ∧ x.ids = none)
    (hleaving : ∀ info, m = .leaving info → x.joinedAs = some info)
    (hawaited : m.hasAwaited → x.task = .ended true) (hsent : x.leftSent = true → m.isAwaiting)
    (hclosed : m ≠ .receiving → (∀ info, m ≠ .joining info) → x.isOpen = false) :
    Orderly { x with main := m } :=
  { ho with
    joining := hjoining
    leaving := hleaving
    hasAwaited := hawaited
    leftSent := hsent
    closed := hclosed }

theorem asked_of_info? {info : JoinInfo} (h : x.task.info? = some info) : x.asked = some info := by
  rw [asked]
  cases htask : x.task <;> rw [htask] at h <;> first | exact h | cases h

/-- The task goes on to another place with the same ids. -/
theorem Orderly.task (ho : x.Orderly) {t : Task} {info : JoinInfo}
    (hinfo : x.task.info? = some info)
    (hinfo' : t.info? = some info) : Orderly { x with task := t } where
  queue _ := ho.queue (fun h => by rw [h] at hinfo; cases hinfo)
  single := ho.single
  ids info' h := by
    rw [asked_of_info? (x := { x with task := t }) hinfo', ← asked_of_info? hinfo]
    exact ho.ids info' h
  noError h := by rw [show t = .ended false from h] at hinfo'; cases hinfo'
  ended h := by rw [show t = .ended true from h] at hinfo'; cases hinfo'
  joining info' h := by rw [(ho.joining info' h).1] at hinfo; cases hinfo
  leaving := ho.leaving
  hasAwaited h := by rw [ho.hasAwaited h] at hinfo; cases hinfo
  leftSent := ho.leftSent
  closed := ho.closed

/-- While the task goes on the receive loop is not over. -/
theorem Orderly.not_isOver (ho : x.Orderly) (hx : x.Fine i ch) (h : x.task ≠ .ended true) :
    x.main.isOver = false := by
  cases hmain : x.main with
  | done ok => exact absurd (ho.hasAwaited (by rw [hmain]; rfl)) h
  | panicked p => exact absurd hmain (hx.main p)
  | _ => rfl

/-- Nothing was sent before the end of the receive loop. -/
theorem Orderly.not_leftSent (ho : x.Orderly) (h : x.main.isAwaiting = false) :
    x.leftSent = false := by
  rw [Bool.eq_false_iff]
  intro hsent
  rw [ho.leftSent hsent] at h
  cases h

/-- A command that is broadcast takes the ids away. -/
theorem relay_orderly (hs : ch.Sound) (ho : x.Orderly) (s : SessionId) {cmd : Command}
    (hcmd : ∀ join, cmd ≠ .join join) (h : x.relay s cmd ch = (ch', x')) :
    x'.Orderly ∧ Calm ch x ch' x' := by
  unfold relay at h
  rcases broadcast_cases hs s hcmd with ⟨e, hrun, -⟩ | ⟨ch₁, hrun, -, -, heq, -⟩
  · rw [hrun] at h
    cases h
    exact ⟨ho, rfl, rfl, id, .inl⟩
  · rw [hrun] at h
    cases h
    refine ⟨?_, heq, rfl, id, .inl⟩
    exact
      { ho with
        ids := by simp
        joining := fun info hinfo => ⟨(ho.joining info hinfo).1, (ho.joining info hinfo).2.1, rfl⟩ }

theorem receive_orderly (hs : ch.Sound) (ho : x.Orderly) {cmd : Command}
    (hq : x.Quiet (.receive cmd)) (h : x.receive cmd ch = some (ch', x')) :
    x'.Orderly ∧ Calm ch x ch' x' := by
  unfold receive at h
  split at h
  · rename_i hmain
    cases cmd with
    | join join =>
      cases h
      obtain ⟨-, htask, hqueue⟩ := hq
      have hids : x.ids = none := by
        rw [Option.eq_none_iff_forall_ne_some]
        intro info hinfo
        have hasked := ho.ids info hinfo
        rw [asked, htask, hqueue] at hasked
        cases hasked
      have hsent := ho.not_leftSent (by rw [hmain]; rfl)
      exact ⟨ho.main (fun _ _ => ⟨htask, hqueue, hids⟩) (by simp) (by simp [Main.hasAwaited])
        (by simp [hsent]) (by simp), rfl, rfl, id, by simp [Main.hasLeft]⟩
    | sessionStatus st => exact hq.elim
    | offer o => exact relay_orderly hs ho _ (by simp) (Option.some.inj h)
    | answer o => exact relay_orderly hs ho _ (by simp) (Option.some.inj h)
    | iceCandidate o => exact relay_orderly hs ho _ (by simp) (Option.some.inj h)
  · cases h

theorem sendJoin_orderly (ho : x.Orderly) (h : x.sendJoin ch = some (ch', x')) :
    x'.Orderly ∧ Calm ch x ch' x' := by
  unfold sendJoin at h
  split at h
  · rename_i info hmain
    obtain ⟨htask, hqueue, -⟩ := ho.joining info hmain
    have hsent := ho.not_leftSent (by rw [hmain]; rfl)
    rw [htask] at h
    simp only [Task.isOver, Bool.false_eq_true, if_false] at h
    rw [if_pos hqueue] at h
    cases h
    refine ⟨?_, rfl, rfl, id, by simp [Main.hasLeft]⟩
    exact
      { queue := by simp
        single := by simp
        ids := by simp [asked]
        noError := by simp
        ended := by simp
        joining := by simp
        leaving := by simp
        hasAwaited := by simp [Main.hasAwaited]
        leftSent := by simp [hsent]
        closed := by simp }
  · cases h

theorem close_orderly (ho : x.Orderly) (h : x.close ch = some (ch', x')) :
    x'.Orderly ∧ Calm ch x ch' x' := by
  unfold close at h
  split_ifs at h with hopen
  cases h
  exact ⟨{ ho with closed := fun _ _ => rfl }, rfl, rfl, fun _ => hopen, .inl⟩

theorem endLoop_orderly (ho : x.Orderly) (h : x.endLoop ch = some (ch', x')) :
    x'.Orderly ∧ Calm ch x ch' x' := by
  unfold endLoop at h
  split_ifs at h with hmain
  cases h
  have hsent := ho.not_leftSent (by rw [hmain.1]; rfl)
  exact ⟨ho.main (by simp) (by simp) (by simp [Main.hasAwaited]) (by simp [hsent])
    (fun _ _ => by simpa using hmain.2), rfl, rfl, id, by simp [Main.hasLeft]⟩

theorem sendLeft_orderly (ho : x.Orderly) (hx : x.Fine i ch)
    (h : x.sendLeft ch = some (ch', x')) : x'.Orderly ∧ Calm ch x ch' x' := by
  unfold sendLeft at h
  split_ifs at h with hmain hover
  · -- the task cannot be over before it hears of the end of the loop
    exfalso
    cases htask : x.task with
    | ended ok =>
      cases ok with
      | true =>
        have := ho.leftSent (ho.ended htask)
        rw [hmain] at this
        cases this
      | false => exact ho.noError htask
    | panicked p => exact hx.task p htask
    | _ => rw [htask] at hover; cases hover
  · cases h
    have hclosed := ho.closed (by simp [hmain]) (by simp [hmain])
    refine ⟨?_, rfl, rfl, id, by simp [Main.hasLeft]⟩
    exact
      { ho with
        ended := fun _ => rfl
        joining := by simp
        leaving := by simp
        hasAwaited := by simp [Main.hasAwaited]
        leftSent := fun _ => rfl
        closed := fun _ _ => hclosed }

theorem awaitTask_orderly (ho : x.Orderly) (hx : x.Fine i ch) (hq : x.Quiet .awaitTask)
    (h : x.awaitTask ch = some (ch', x')) : x'.Orderly ∧ Calm ch x ch' x' := by
  unfold awaitTask at h
  split_ifs at h with hmain
  split at h
  · rename_i htask
    split at h
    · rename_i info hids
      cases h
      have hclosed := ho.closed (by simp [hmain]) (by simp [hmain])
      refine ⟨ho.main (by simp) (fun info' hinfo' => ?_) (fun _ => htask) (fun _ => rfl)
        (fun _ _ => hclosed), rfl, rfl, id, by simp [Main.hasLeft]⟩
      cases hinfo'
      -- the ids are those that the task has joined with
      have hasked := ho.ids info hids
      rwa [asked, htask] at hasked
    · rename_i hids
      cases h
      have hclosed := ho.closed (by simp [hmain]) (by simp [hmain])
      exact ⟨ho.main (by simp) (by simp) (fun _ => htask) (fun _ => rfl) (fun _ _ => hclosed),
        rfl, rfl, id, fun _ => .inr (hq hids)⟩
  · exact absurd ‹_› ho.noError
  · exact absurd ‹_› (hx.task _)
  · cases h

theorem announceLeft_orderly (hs : ch.Sound) (ho : x.Orderly) (hx : x.Fine i ch)
    (h : x.announceLeft ch = some (ch', x')) : x'.Orderly ∧ Calm ch x ch' x' := by
  unfold announceLeft at h
  split at h
  · rename_i s hmain
    have hclosed := ho.closed (by simp [hmain]) (by simp [hmain])
    have htask := ho.hasAwaited (by rw [hmain]; rfl)
    have hdone : ∀ ok, Orderly { x with main := .done ok } := fun ok =>
      ho.main (by simp) (by simp) (fun _ => htask) (fun _ => rfl) fun _ _ => hclosed
    have hleft : x.main.hasLeft = true := by
      rw [hmain]
      rfl
    rcases announce_cases hs (hx.announcing s hmain) with ⟨e, hrun, -⟩ | ⟨ch₁, hrun, -, -, heq⟩
    · rw [hrun] at h
      cases h
      exact ⟨hdone _, rfl, rfl, id, fun _ => .inl hleft⟩
    · rw [hrun] at h
      cases h
      exact ⟨hdone _, heq, rfl, id, fun _ => .inl hleft⟩
  · cases h

theorem takeJoin_orderly (ho : x.Orderly) (hx : x.Fine i ch)
    (h : x.takeJoin ch = some (ch', x')) : x'.Orderly ∧ Calm ch x ch' x' := by
  unfold takeJoin at h
  split at h
  · rename_i info rest htask hqueue
    cases h
    refine ⟨?_, rfl, rfl, id, .inl⟩
    obtain rfl := ho.single info rest hqueue
    have hnot : x.main.hasAwaited = false := by
      rw [Bool.eq_false_iff]
      intro hawaited
      cases htask.symm.trans (ho.hasAwaited hawaited)
    exact
      { ho with
        queue := by simp
        single := by simp
        ids := fun info' hinfo' => by
          have hasked := ho.ids info' hinfo'
          rwa [asked, htask, hqueue] at hasked
        noError := by simp
        ended := by simp
        joining := fun info' hinfo' => by
          have hnil := (ho.joining info' hinfo').2.1
          rw [hqueue] at hnil
          cases hnil
        hasAwaited := by simp [hnot] }
  · rename_i htask hqueue
    have hnot := ho.not_isOver hx (by simp [htask])
    rw [hnot] at h
    cases h
  · cases h

theorem ensureSession_orderly (hs : ch.Sound) (ho : x.Orderly)
    (h : x.ensureSession ch = some (ch', x')) : x'.Orderly ∧ Calm ch x ch' x' := by
  unfold ensureSession at h
  split at h
  · rename_i info htask
    have hnext : Orderly { x with task := .subscribing info } :=
      ho.task (by rw [htask]; rfl) rfl
    rcases hm : ch.messages.val info.2 with _ | tx
    · rw [Channels.ensureSession_run_of_none hs hm] at h
      cases h
      exact ⟨hnext, rfl, rfl, id, .inl⟩
    · rw [Channels.ensureSession_run_of_some hs (by rw [hm]; rfl)] at h
      cases h
      exact ⟨hnext, rfl, rfl, id, .inl⟩
  · cases h

theorem subscribe_orderly (hs : ch.Sound) (ho : x.Orderly) (hx : x.Fine i ch)
    (h : x.subscribe i ch = some (ch', x')) : x'.Orderly ∧ Calm ch x ch' x' := by
  unfold subscribe at h
  split at h
  · rename_i info htask
    obtain ⟨tx, htx⟩ := Option.isSome_iff_exists.mp (hx.channel info.2 (by rw [htask]; rfl))
    rw [Channels.subscribe_run hs htx] at h
    cases h
    exact ⟨ho.task (by rw [htask]; rfl) rfl, rfl, rfl, id, .inl⟩
  · cases h

theorem announceJoined_orderly (hs : ch.Sound) (ho : x.Orderly) (hx : x.Fine i ch)
    (h : x.announceJoined i ch = some (ch', x')) : x'.Orderly ∧ Calm ch x ch' x' := by
  unfold announceJoined at h
  split at h
  · rename_i info htask
    have hjoined := hx.joined _ _ htask (by simp)
    rcases announce_cases hs (hx.online info.1 info.2 hjoined) with
      ⟨e, hrun, hnone⟩ | ⟨ch₁, hrun, -, -, heq⟩
    · exact absurd (hx.subscribed _ _ htask) (hnone i)
    · rw [hrun] at h
      cases h
      exact ⟨ho.task (by rw [htask]; rfl) rfl, heq, rfl, id, .inl⟩
  · cases h

/-- The loop sends to the client. -/
theorem send_orderly (ho : x.Orderly) {s : SessionId} {msg : Option Command} {ch₁ : Channels}
    (heq : ch₁.online = ch.online) (h : x.send i s true msg ch₁ = (ch', x')) :
    x'.Orderly ∧ Calm ch x ch' x' := by
  unfold send at h
  rw [if_pos rfl] at h
  cases h
  exact ⟨{ ho with }, heq, rfl, id, .inl⟩

theorem forward_orderly (hs : ch.Sound) (ho : x.Orderly)
    (h : x.forward i true ch = some (ch', x')) : x'.Orderly ∧ Calm ch x ch' x' := by
  unfold forward at h
  split at h
  · rename_i info htask
    split at h
    · cases h
      exact ⟨ho, rfl, rfl, id, .inl⟩
    · rename_i msg queue hrx
      dsimp only at h
      split at h
      · exact absurd List.mem_cons_self (hs.queue_receiver hrx _)
      · split_ifs at h
        · exact send_orderly ho (by rfl) (Option.some.inj h)
        · cases h
          exact ⟨ho, rfl, rfl, id, .inl⟩
    · cases h
  · cases h

theorem ping_orderly (ho : x.Orderly) (h : x.ping i true ch = some (ch', x')) :
    x'.Orderly ∧ Calm ch x ch' x' := by
  unfold ping at h
  split at h
  · exact send_orderly ho rfl (Option.some.inj h)
  · cases h

theorem endTask_orderly (ho : x.Orderly) (hx : x.Fine i ch)
    (h : x.endTask i ch = some (ch', x')) : x'.Orderly ∧ Calm ch x ch' x' := by
  unfold endTask at h
  split at h
  · rename_i info htask
    split_ifs at h with hleft
    cases h
    refine ⟨?_, rfl, rfl, id, .inl⟩
    have hsent : x.leftSent = true :=
      hleft.resolve_right (by simp [ho.not_isOver hx (by simp [htask])])
    have hjoined := hx.joined _ _ htask (by simp)
    exact
      { ho with
        queue := fun _ => ho.queue (by simp [htask])
        ids := fun info' hinfo' => by
          have hasked := ho.ids info' hinfo'
          rw [asked_of_info? (by rw [htask]; rfl)] at hasked
          exact hjoined.trans hasked
        noError := by simp
        ended := fun _ => hsent
        joining := fun info' hinfo' => by cases htask.symm.trans (ho.joining info' hinfo').1
        hasAwaited := fun _ => rfl }
  · cases h

/-- The node is put online. -/
theorem join_orderly (hs : ch.Sound) (ho : x.Orderly) (hx : x.Fine i ch)
    (h : x.join i ch = some (ch', x')) : x'.Orderly ∧ ∃ info, x.joinedAs = none ∧
      x'.joinedAs = some info ∧ x'.main.hasLeft = false ∧
      ch' = ch.setOnline (Function.update ch.online.val info.2
        (some (insert info.1 (ch.onlineIn info.2)))) := by
  unfold join at h
  split at h
  · rename_i info htask
    rw [Channels.joinedOnline_run hs] at h
    cases h
    have hnot : x.main.hasAwaited = false := by
      rw [Bool.eq_false_iff]
      intro hawaited
      cases htask.symm.trans (ho.hasAwaited hawaited)
    refine ⟨?_, info, hx.unjoined (by rw [htask]; rfl), rfl, ?_, rfl⟩
    · exact
        { ho with
          queue := fun _ => ho.queue (by simp [htask])
          ids := fun info' hinfo' => by
            have hasked := ho.ids info' hinfo'
            rwa [asked, htask] at hasked
          noError := by simp
          ended := by simp
          joining := fun info' hinfo' => by cases htask.symm.trans (ho.joining info' hinfo').1
          leaving := fun info' hinfo' => by
            replace hinfo' : x.main = .leaving info' := hinfo'
            rw [hinfo'] at hnot
            cases hnot
          hasAwaited := by simp [hnot] }
    · rw [Bool.eq_false_iff]
      intro hleft
      rw [Main.hasAwaited_of_hasLeft hleft] at hnot
      cases hnot
  · cases h

/-- The node is taken offline. -/
theorem leave_orderly (hs : ch.Sound) (ho : x.Orderly) (hx : x.Fine i ch)
    (h : x.leave ch = some (ch', x')) :
    x'.Orderly ∧ ∃ info, x.main = .leaving info ∧ x'.joinedAs = some info ∧ x'.isOpen = false ∧
      ch' = ch.setOnline (Function.update ch.online.val info.2
        (some ((ch.onlineIn info.2).erase info.1))) := by
  unfold leave at h
  split at h
  · rename_i n s hmain
    have hclosed := ho.closed (by simp [hmain]) (by simp [hmain])
    have htask := ho.hasAwaited (by rw [hmain]; rfl)
    have hjoined := ho.leaving _ hmain
    obtain ⟨online, honline⟩ := Option.isSome_iff_exists.mp (hx.online n s hjoined)
    rw [Channels.leftOnline_run_of_some hs honline] at h
    cases h
    refine ⟨ho.main (by simp) (by simp) (fun _ => htask) (fun _ => rfl) fun _ _ => hclosed,
      (n, s), hmain, hjoined, hclosed, ?_⟩
    simp [Channels.onlineIn, honline]
  · cases h

end Socket

/-! ### Runs -/

/-- The online sets are those of the sockets that have joined and not left; what has an open
socket is online. -/
structure Tracked (c : Introducer) : Prop where
  inv : c.Inv
  orderly : ∀ x ∈ c.sockets, x.Orderly
  joined : ∀ s n, n ∈ c.channels.onlineIn s →
    ∃ x ∈ c.sockets, x.joinedAs = some (n, s) ∧ x.main.hasLeft = false
  online : ∀ x ∈ c.sockets, x.isOpen = true → ∀ n s, x.joinedAs = some (n, s) →
    n ∈ c.channels.onlineIn s

theorem tracked_start (capacity : ℕ) : (start capacity).Tracked where
  inv := inv_start capacity
  orderly x hx := by cases hx
  joined s n hn := by simp [start, Channels.default, Channels.onlineIn] at hn
  online x hx := by cases hx

/-- A step of socket `i` that neither joins nor leaves. -/
theorem Tracked.calm {c : Introducer} (h : c.Tracked) {i : SocketId} {x x' : Socket}
    {ch' : Channels} (hx : c.sockets[i]? = some x)
    (hinv : Inv { channels := ch', sockets := c.sockets.set i x' }) (ho : x'.Orderly)
    (hc : Socket.Calm c.channels x ch' x') :
    Tracked { channels := ch', sockets := c.sockets.set i x' } where
  inv := hinv
  orderly y hy := (List.mem_or_eq_of_mem_set hy).elim (h.orderly y) (fun h => h ▸ ho)
  joined s n hn := by
    have hn : n ∈ c.channels.onlineIn s := by
      unfold Channels.onlineIn at hn ⊢
      rwa [hc.online] at hn
    obtain ⟨y, hy, hj, hleft⟩ := h.joined s n hn
    obtain ⟨j, hj'⟩ := List.mem_iff_getElem?.mp hy
    by_cases hij : i = j
    · subst hij
      obtain rfl := Option.some.inj (hx.symm.trans hj')
      refine ⟨x', List.mem_set (List.getElem?_eq_some_iff.mp hx).1 x', hc.joinedAs ▸ hj, ?_⟩
      rw [Bool.eq_false_iff]
      intro hleft'
      rcases hc.hasLeft hleft' with hleft' | hnone
      · rw [hleft'] at hleft
        cases hleft
      · cases hj.symm.trans hnone
    · exact ⟨y, List.mem_iff_getElem?.mpr ⟨j, by rw [List.getElem?_set_ne hij, hj']⟩, hj, hleft⟩
  online y hy hopen n s hj := by
    have hn : n ∈ c.channels.onlineIn s := by
      rcases List.mem_or_eq_of_mem_set hy with hy | rfl
      · exact h.online y hy hopen n s hj
      · exact h.online x (List.mem_of_getElem? hx) (hc.isOpen hopen) n s (hc.joinedAs ▸ hj)
    unfold Channels.onlineIn at hn ⊢
    rwa [hc.online]

/-- Socket `i` puts its node online. -/
theorem Tracked.join {c : Introducer} (h : c.Tracked) {i : SocketId} {x x' : Socket}
    {info : JoinInfo} {ch' : Channels} (hx : c.sockets[i]? = some x)
    (hinv : Inv { channels := ch', sockets := c.sockets.set i x' }) (ho : x'.Orderly)
    (hnone : x.joinedAs = none) (hj : x'.joinedAs = some info) (hleft : x'.main.hasLeft = false)
    (hch : ch' = c.channels.setOnline (Function.update c.channels.online.val info.2
      (some (insert info.1 (c.channels.onlineIn info.2))))) :
    Tracked { channels := ch', sockets := c.sockets.set i x' } where
  inv := hinv
  orderly y hy := (List.mem_or_eq_of_mem_set hy).elim (h.orderly y) (fun h => h ▸ ho)
  joined s n hn := by
    have hmem := List.mem_set (List.getElem?_eq_some_iff.mp hx).1 x'
    have hold : n ∈ c.channels.onlineIn s →
        ∃ y ∈ c.sockets.set i x', y.joinedAs = some (n, s) ∧ y.main.hasLeft = false := by
      intro hn
      obtain ⟨y, hy, hjy, hlefty⟩ := h.joined s n hn
      obtain ⟨j, hj'⟩ := List.mem_iff_getElem?.mp hy
      -- socket `i` itself had not joined before
      have hij : i ≠ j := by
        rintro rfl
        obtain rfl := Option.some.inj (hx.symm.trans hj')
        cases hnone.symm.trans hjy
      exact ⟨y, List.mem_iff_getElem?.mpr ⟨j, by rw [List.getElem?_set_ne hij, hj']⟩, hjy, hlefty⟩
    subst hch
    rw [Channels.onlineIn_setOnline] at hn
    split_ifs at hn with hs
    · subst hs
      rcases Finset.mem_insert.mp hn with rfl | hn
      · exact ⟨x', hmem, hj, hleft⟩
      · exact hold hn
    · exact hold hn
  online y hy hopen n s hjy := by
    subst hch
    rw [Channels.onlineIn_setOnline]
    rcases List.mem_or_eq_of_mem_set hy with hy | rfl
    · have hn := h.online y hy hopen n s hjy
      split_ifs with hs
      · subst hs
        exact Finset.mem_insert_of_mem hn
      · exact hn
    · cases hj.symm.trans hjy
      simp

/-- Socket `i` takes its node offline, and no other open socket has joined as this node. -/
theorem Tracked.leave {c : Introducer} (h : c.Tracked) {i : SocketId} {x x' : Socket}
    {info : JoinInfo} {ch' : Channels} (hx : c.sockets[i]? = some x)
    (hinv : Inv { channels := ch', sockets := c.sockets.set i x' }) (ho : x'.Orderly)
    (hother : ∀ y ∈ c.sockets, y.isOpen = true → y.joinedAs ≠ some info)
    (hj : x'.joinedAs = some info) (hclosed : x'.isOpen = false)
    (hch : ch' = c.channels.setOnline (Function.update c.channels.online.val info.2
      (some ((c.channels.onlineIn info.2).erase info.1))))
    (hjx : x.joinedAs = some info) :
    Tracked { channels := ch', sockets := c.sockets.set i x' } where
  inv := hinv
  orderly y hy := (List.mem_or_eq_of_mem_set hy).elim (h.orderly y) (fun h => h ▸ ho)
  joined s n hn := by
    -- whoever is online still is another node, or in another session
    have hold : n ∈ c.channels.onlineIn s ∧ (n, s) ≠ info := by
      subst hch
      rw [Channels.onlineIn_setOnline] at hn
      split_ifs at hn with hs
      · subst hs
        obtain ⟨hne, hn⟩ := Finset.mem_erase.mp hn
        exact ⟨hn, fun h => hne (congrArg Prod.fst h)⟩
      · exact ⟨hn, fun h => hs (congrArg Prod.snd h)⟩
    obtain ⟨y, hy, hjy, hlefty⟩ := h.joined s n hold.1
    obtain ⟨j, hj'⟩ := List.mem_iff_getElem?.mp hy
    have hij : i ≠ j := by
      rintro rfl
      obtain rfl := Option.some.inj (hx.symm.trans hj')
      exact hold.2 (Option.some.inj (hjy.symm.trans hjx))
    exact ⟨y, List.mem_iff_getElem?.mpr ⟨j, by rw [List.getElem?_set_ne hij, hj']⟩, hjy, hlefty⟩
  online y hy hopen n s hjy := by
    rcases List.mem_or_eq_of_mem_set hy with hmem | rfl
    · have hn := h.online y hmem hopen n s hjy
      subst hch
      rw [Channels.onlineIn_setOnline]
      split_ifs with hs
      · subst hs
        refine Finset.mem_erase.mpr ⟨?_, hn⟩
        rintro rfl
        -- an open socket of the same node is ruled out
        exact hother y hmem hopen hjy
      · exact hn
    · rw [hclosed] at hopen
      cases hopen

/-- What is not disrupted is quiet. -/
theorem quiet_of_not_disrupts {c : Introducer} {i : SocketId} {x : Socket}
    (hx : c.sockets[i]? = some x) {a : SocketAction} (ho : c.obeys (.socket i a) = true)
    (hd : c.disrupts (.socket i a) = false) : x.Quiet a := by
  cases a with
  | receive cmd =>
    simp only [obeys, hx] at ho
    cases cmd with
    | join join => simpa [Socket.Quiet] using ho
    | sessionStatus st => cases ho
    | _ => trivial
  | awaitTask => simpa [disrupts, hx, Socket.Quiet] using hd
  | forward ok => simpa [disrupts, Socket.Quiet] using hd
  | ping ok => simpa [disrupts, Socket.Quiet] using hd
  | _ => trivial

/-- An undisrupted step of an obedient client keeps track of the nodes that are online. -/
theorem Tracked.exec {c c' : Introducer} (h : c.Tracked) {a : Action} (ho : c.obeys a = true)
    (hd : c.disrupts a = false) (hexec : c.exec a = some c') : c'.Tracked := by
  cases a with
  | accept =>
    cases hexec
    refine ⟨h.inv.accept, fun y hy => ?_, fun s n hn => ?_, fun y hy hopen n s hj => ?_⟩
    · rcases List.mem_append.mp hy with hy | hy
      · exact h.orderly y hy
      · rw [List.mem_singleton.mp hy]
        exact Socket.orderly_accepted
    · obtain ⟨y, hy, hj⟩ := h.joined s n hn
      exact ⟨y, List.mem_append_left _ hy, hj⟩
    · rcases List.mem_append.mp hy with hy | hy
      · exact h.online y hy hopen n s hj
      · rw [List.mem_singleton.mp hy] at hj
        cases hj
  | socket i a =>
    obtain ⟨x, hx, hexec⟩ := Option.bind_eq_some_iff.mp hexec
    obtain ⟨⟨ch', x'⟩, hstep, rfl⟩ := Option.map_eq_some_iff.mp hexec
    have hs := h.inv.sound
    have hfine := h.inv.fine i x hx
    have hox := h.orderly x (List.mem_of_getElem? hx)
    have hq := quiet_of_not_disrupts hx ho hd
    -- a socket that leaves finds its session, as its node is online there
    have hmis : ¬x.Misused c.channels a := by
      cases a with
      | receive cmd =>
        cases cmd with
        | sessionStatus st => exact hq.elim
        | _ => exact id
      | leave =>
        rintro ⟨n, s, hmain, hnone⟩
        have := hfine.online n s (hox.leaving _ hmain)
        rw [hnone] at this
        cases this
      | _ => exact id
    have hinv := h.inv.step hx (Socket.exec_steps hs hfine hmis hstep)
    have hcalm : x'.Orderly ∧ Socket.Calm c.channels x ch' x' →
        Tracked { channels := ch', sockets := c.sockets.set i x' } :=
      fun hc => h.calm hx hinv hc.1 hc.2
    cases a with
    | receive cmd => exact hcalm (Socket.receive_orderly hs hox hq hstep)
    | sendJoin => exact hcalm (Socket.sendJoin_orderly hox hstep)
    | close => exact hcalm (Socket.close_orderly hox hstep)
    | endLoop => exact hcalm (Socket.endLoop_orderly hox hstep)
    | sendLeft => exact hcalm (Socket.sendLeft_orderly hox hfine hstep)
    | awaitTask => exact hcalm (Socket.awaitTask_orderly hox hfine hq hstep)
    | leave =>
      obtain ⟨ho', info, hmain, hj, hclosed, hch⟩ := Socket.leave_orderly hs hox hfine hstep
      refine h.leave hx hinv ho' (fun y hy hopen hjy => ?_) hj hclosed hch (hox.leaving _ hmain)
      -- another open socket of the node would make this a disruption
      have : c.sockets.any (fun x => x.isOpen && x.joinedAs = some info) = true :=
        List.any_eq_true.mpr ⟨y, hy, by simp [hopen, hjy]⟩
      simp only [disrupts, hx, Option.map_some, hmain] at hd
      rw [this] at hd
      cases hd
    | announceLeft => exact hcalm (Socket.announceLeft_orderly hs hox hfine hstep)
    | takeJoin => exact hcalm (Socket.takeJoin_orderly hox hfine hstep)
    | ensureSession => exact hcalm (Socket.ensureSession_orderly hs hox hstep)
    | subscribe => exact hcalm (Socket.subscribe_orderly hs hox hfine hstep)
    | join =>
      obtain ⟨ho', info, hnone, hj, hleft, hch⟩ := Socket.join_orderly hs hox hfine hstep
      exact h.join hx hinv ho' hnone hj hleft hch
    | announceJoined => exact hcalm (Socket.announceJoined_orderly hs hox hfine hstep)
    | forward ok =>
      obtain rfl : ok = true := hq
      exact hcalm (Socket.forward_orderly hs hox hstep)
    | ping ok =>
      obtain rfl : ok = true := hq
      exact hcalm (Socket.ping_orderly hox hstep)
    | endTask => exact hcalm (Socket.endTask_orderly hox hfine hstep)

theorem Tracked.present_of_settled {c : Introducer} (h : c.Tracked)
    (hsettled : ∀ x ∈ c.sockets, x.Settled) :
    c.Present := by
  intro s n
  refine ⟨fun hn => ?_, fun ⟨x, hx, hopen, hj⟩ => h.online x hx hopen n s hj⟩
  obtain ⟨x, hx, hj, hleft⟩ := h.joined s n hn
  refine ⟨x, hx, ?_, hj⟩
  rcases hsettled x hx with hover | hopen
  · cases hmain : x.main with
    | done ok =>
      rw [hmain] at hleft
      cases hleft
    | panicked p =>
      obtain ⟨i, hi⟩ := List.mem_iff_getElem?.mp hx
      exact absurd hmain ((h.inv.fine i x hi).main p)
    | _ =>
      rw [hmain] at hover
      cases hover
  · exact hopen.1

/-- **Presence.** When clients join first and are not disrupted, the nodes online in a session are
those with an open socket in it, whenever no socket is just being put online or taken offline. -/
theorem present {r : List Introducer}
    (hr : IsRunWhere (fun c a => c.obeys a = true ∧ c.disrupts a = false) r) {c : Introducer}
    (hc : c ∈ r) (hsettled : ∀ x ∈ c.sockets, x.Settled) : c.Present := by
  have htracked : c.Tracked :=
    TransitionSystem.IsRun.invariant (fun _ ⟨capacity, _, h⟩ => h ▸ tracked_start capacity)
      (fun _ _ h ⟨_, ⟨ho, hd⟩, hexec⟩ => h.exec ho hd hexec) hr c hc
  exact htracked.present_of_settled hsettled

/-- The way of socket `i` from its close to the end of both its tasks. -/
def closeActions (i : SocketId) : List Action :=
  [.close, .endLoop, .sendLeft, .endTask, .awaitTask, .leave, .announceLeft].map (.socket i)

/-- Nodes `1` and `2` join, node `2` sends node `1` an offer, and node `1` leaves. -/
theorem present_run : ∃ (c : Introducer) (r : List Introducer),
    IsRunWhere (fun c a => c.obeys a = true ∧ c.disrupts a = false) (c :: r) ∧
    c.sockets.length = 2 ∧ c.channels.onlineIn 7 = {2} ∧ c.Present := by
  obtain ⟨r, -, hr, hf⟩ := TransitionSystem.exists_run_of_play Starts exec
    (fun (c : Introducer) a => !c.obeys a || c.disrupts a) starts_start
    (joinActions 0 1 7 ++ joinActions 1 2 7 ++
      Action.socket 1 (.receive (.offer ⟨7, 2, 1, "sdp"⟩)) :: closeActions 0)
    (fun r => r.head?.any fun c : Introducer =>
      decide ((∀ x ∈ c.sockets, x.Settled) ∧ c.sockets.length = 2 ∧
      c.channels.onlineIn 7 = {2})) (by decide +kernel)
  simp only [Option.any_eq_true, decide_eq_true_eq] at hf
  obtain ⟨c, hc, hsettled, hlength, honline⟩ := hf
  obtain ⟨r, rfl⟩ := List.head?_eq_some_iff.mp hc
  have hrun : IsRunWhere (fun c a => c.obeys a = true ∧ c.disrupts a = false) (c :: r) :=
    TransitionSystem.IsRun.mono (fun _ _ => TransitionSystem.Acts.mono fun c a h => by
      simpa using h) hr
  exact ⟨c, r, hrun, hlength, honline, present hrun (by simp) hsettled⟩

/-- A client that joins, sends an offer and closes stays online. -/
theorem not_present : ¬∀ r : List Introducer, IsRunWhere (fun c a => c.obeys a = true) r →
    ∀ c ∈ r, (∀ x ∈ c.sockets, x.Settled) → c.Present := by
  intro h
  obtain ⟨r, -, hr, hf⟩ := TransitionSystem.exists_run_of_play Starts exec
    (fun (c : Introducer) a => !c.obeys a) starts_start
    (joinActions 0 1 7 ++ [.receive (.offer ⟨7, 1, 2, ""⟩), .close, .endLoop, .sendLeft, .endTask,
      .awaitTask].map (Action.socket 0))
    (fun r => r.head?.any fun c : Introducer =>
      decide ((∀ x ∈ c.sockets, x.Settled ∧ x.isOpen = false) ∧
      1 ∈ c.channels.onlineIn 7)) (by decide +kernel)
  simp only [Option.any_eq_true, decide_eq_true_eq] at hf
  obtain ⟨c, hc, hsettled, honline⟩ := hf
  obtain ⟨r, rfl⟩ := List.head?_eq_some_iff.mp hc
  have hrun : IsRunWhere (fun c a => c.obeys a = true) (c :: r) :=
    TransitionSystem.IsRun.mono (fun _ _ => TransitionSystem.Acts.mono fun c a h => by
      simpa using h) hr
  have hpresent := h _ hrun c (by simp) fun x hx => (hsettled x hx).1
  obtain ⟨x, hx, hopen, -⟩ := (hpresent 7 1).mp honline
  rw [(hsettled x hx).2] at hopen
  cases hopen

end Introducer

end Wraft
