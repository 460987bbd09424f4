import Mathlib.Data.List.Basic
import Mathlib.Data.Nat.Notation
import Wraft.ForMathlib.EStateM
import Wraft.Raft.Message

/-!
# The state machine of a page

`Raft::handle_state_machine` of `raft/mod.rs`: the task that applies the commands of the worker to
the replicated state, tells the page about each of them and answers the requests of `Client::get`.

A `StateMachine` is an instance of the trait `State`. A `Handler` is the task with the ends of the
channels that others hold: the update channel, which drops what it has no room for, the requests of
`state_get_rx`, and the answers that have been sent on their oneshots. All of them are queues, and
the answers come in the order of the requests.

`Handler.Follows` says what the state of the task has to do with the commands: it is what the
commands it has taken make of the default.
-/

namespace Wraft

/-- The trait `State`. Applying a command may panic. -/
structure StateMachine (St Cmd Key Item Note ε : Type) where
  default : St
  apply : Cmd → EStateM ε St Note
  get : St → Key → Option Item

variable {St Cmd Key Item Note ε : Type}

/-- The commands, one after the other, with the notifications. -/
def StateMachine.applyAll (S : StateMachine St Cmd Key Item Note ε) (cmds : List Cmd) :
    EStateM ε St (List Note) := cmds.mapM S.apply

/-- Where the loop of `handle_state_machine` stands. -/
inductive Handler.Status (ε : Type) where
  | running
  | returned
  | panicked (e : ε)
  deriving DecidableEq, Repr

/-- `handle_state_machine` between two rounds of its loop. -/
structure Handler (St Key Item Note ε : Type) where
  state : St
  status : Handler.Status ε
  /-- The number of the commands received on `state_machine_rx`. -/
  received : ℕ
  /-- The update channel. -/
  updates : List Note
  /-- The requests of `Client::get` in their channel. -/
  stateGetRx : List Key
  /-- What the calls of `Client::get` will return. -/
  answers : List (Except ClientError (Option Item))
  /-- No sender of `state_machine_rx` is left. -/
  stateMachineClosed : Bool
  /-- The `Raft` that the updates are for is gone. -/
  updatesClosed : Bool
  /-- No sender of `state_get_rx` is left. -/
  stateGetClosed : Bool
  deriving DecidableEq

namespace Handler

/-- The task as it is spawned. -/
def spawn (S : StateMachine St Cmd Key Item Note ε) : Handler St Key Item Note ε where
  state := S.default
  status := .running
  received := 0
  updates := []
  stateGetRx := []
  answers := []
  stateMachineClosed := false
  updatesClosed := false
  stateGetClosed := false

/-- The capacity of the update channel, to which its one sender adds one message. -/
def updatesBuffer : ℕ := 1

/-- The task returns, which drops its ends of the channels and with them the requests. -/
def leave (h : Handler St Key Item Note ε) : Handler St Key Item Note ε :=
  { h with
    status := .returned
    stateGetRx := []
    answers := h.answers ++ h.stateGetRx.map fun _ => .error .unavailable }

/-- `updates_tx.try_send(update)`, and what is done about its error. -/
def trySend (h : Handler St Key Item Note ε) (update : Note) : Handler St Key Item Note ε :=
  if h.updatesClosed then h.leave
  else if h.updates.length ≤ updatesBuffer then { h with updates := h.updates ++ [update] }
  else h

/-- The `select!` picks `state_machine_rx`, on which the worker has sent the commands `sent` so
far. -/
def onStateMachine (S : StateMachine St Cmd Key Item Note ε) (sent : List Cmd)
    (h : Handler St Key Item Note ε) : Option (Handler St Key Item Note ε) :=
  match h.status with
  | .running =>
    match sent[h.received]? with
    | some cmd =>
      match (S.apply cmd).run h.state with
      | .ok update state => some ({ h with state, received := h.received + 1 }.trySend update)
      | .error e state =>
        some { h with state, received := h.received + 1, status := .panicked e }
    | none => if h.stateMachineClosed then some h.leave else none
  | _ => none

/-- The `select!` picks `state_get_rx`. -/
def onStateGet (S : StateMachine St Cmd Key Item Note ε) (h : Handler St Key Item Note ε) :
    Option (Handler St Key Item Note ε) :=
  match h.status with
  | .running =>
    match h.stateGetRx with
    | k :: rest =>
      some { h with stateGetRx := rest, answers := h.answers ++ [.ok (S.get h.state k)] }
    | [] => if h.stateGetClosed then some h.leave else none
  | _ => none

/-- `Raft::poll_next` of a stream that has an update. -/
def pollNext (h : Handler St Key Item Note ε) : Option (Note × Handler St Key Item Note ε) :=
  match h.updates with
  | update :: updates => some (update, { h with updates })
  | [] => none

/-- `Client::get` sends its request. -/
def request (k : Key) (h : Handler St Key Item Note ε) : Handler St Key Item Note ε :=
  match h.status with
  | .returned => { h with answers := h.answers ++ [.error .unavailable] }
  | _ => { h with stateGetRx := h.stateGetRx ++ [k] }

/-- The oldest call of `Client::get` returns. -/
def answer (h : Handler St Key Item Note ε) :
    Option (Except ClientError (Option Item) × Handler St Key Item Note ε) :=
  match h.answers with
  | res :: answers => some (res, { h with answers })
  | [] => none

end Handler

/-! ### What the state is made of -/

namespace StateMachine

variable {S : StateMachine St Cmd Key Item Note ε}

@[simp]
theorem applyAll_nil (s : St) : (S.applyAll []).run s = .ok [] s := rfl

/-- One more command, after commands that have not panicked. -/
theorem applyAll_concat_ok {cmds : List Cmd} {cmd : Cmd} {s s' s'' : St} {notes : List Note}
    {note : Note} (h : (S.applyAll cmds).run s = .ok notes s')
    (hcmd : (S.apply cmd).run s' = .ok note s'') :
    (S.applyAll (cmds ++ [cmd])).run s = .ok (notes ++ [note]) s'' := by
  rw [applyAll] at h
  rw [applyAll, List.mapM_append, EStateM.run_bind_of_ok h, List.mapM_cons]
  simp only [List.mapM_nil, bind_assoc, pure_bind]
  rw [EStateM.run_bind_of_ok hcmd, EStateM.run_pure]

/-- One more command, which panics. -/
theorem applyAll_concat_error {cmds : List Cmd} {cmd : Cmd} {s s' s'' : St} {notes : List Note}
    {e : ε} (h : (S.applyAll cmds).run s = .ok notes s')
    (hcmd : (S.apply cmd).run s' = .error e s'') :
    (S.applyAll (cmds ++ [cmd])).run s = .error e s'' := by
  rw [applyAll] at h
  rw [applyAll, List.mapM_append, EStateM.run_bind_of_ok h, List.mapM_cons]
  simp only [List.mapM_nil, bind_assoc, pure_bind]
  rw [EStateM.run_bind_of_error hcmd]

/-- A panic among the first commands is a panic of all of them. -/
theorem applyAll_append_of_error {cmds : List Cmd} {s s' : St} {e : ε}
    (h : (S.applyAll cmds).run s = .error e s') (cmds' : List Cmd) :
    (S.applyAll (cmds ++ cmds')).run s = .error e s' := by
  rw [applyAll, List.mapM_append]
  exact EStateM.run_bind_of_error h

end StateMachine

namespace Handler

variable {S : StateMachine St Cmd Key Item Note ε} {sent sent' : List Cmd}
  {h h' : Handler St Key Item Note ε}

/-- The state is what the commands received make of the default, and a panic is that of the last
of them. -/
structure Follows (S : StateMachine St Cmd Key Item Note ε) (sent : List Cmd)
    (h : Handler St Key Item Note ε) : Prop where
  received_le : h.received ≤ sent.length
  panicked : ∀ e, h.status = .panicked e →
    (S.applyAll (sent.take h.received)).run S.default = .error e h.state
  ok : (∀ e, h.status ≠ .panicked e) →
    ∃ notes, (S.applyAll (sent.take h.received)).run S.default = .ok notes h.state

theorem Follows.spawn : (spawn S).Follows S sent where
  received_le := Nat.zero_le _
  panicked _ he := by cases he
  ok _ := ⟨[], rfl⟩

/-- The worker sends more commands. -/
theorem Follows.sends (hh : h.Follows S sent) (hsent : sent <+: sent') : h.Follows S sent' := by
  obtain ⟨more, rfl⟩ := hsent
  have htake : (sent ++ more).take h.received = sent.take h.received :=
    List.take_append_of_le_length hh.received_le
  refine ⟨?_, ?_, ?_⟩
  · have := hh.received_le
    rw [List.length_append]
    omega
  · rw [htake]
    exact hh.panicked
  · rw [htake]
    exact hh.ok

/-- What happens to the channels does not matter. -/
theorem Follows.of_eq (hh : h.Follows S sent) (hstate : h'.state = h.state)
    (hreceived : h'.received = h.received)
    (hstatus : ∀ e, h'.status = .panicked e ↔ h.status = .panicked e) : h'.Follows S sent where
  received_le := hreceived ▸ hh.received_le
  panicked e he := by
    rw [hreceived, hstate]
    exact hh.panicked e ((hstatus e).mp he)
  ok hne := by
    rw [hreceived, hstate]
    exact hh.ok fun e he => hne e ((hstatus e).mpr he)

/-- What a round of the loop that picks `state_machine_rx` does. -/
theorem onStateMachine_cases (hrun : h.onStateMachine S sent = some h') : h.status = .running ∧
    ((∃ cmd update state, sent[h.received]? = some cmd ∧
        (S.apply cmd).run h.state = .ok update state ∧
        h' = { h with state, received := h.received + 1 }.trySend update) ∨
      (∃ cmd e state, sent[h.received]? = some cmd ∧ (S.apply cmd).run h.state = .error e state ∧
        h' = { h with state, received := h.received + 1, status := .panicked e }) ∨
      h.stateMachineClosed = true ∧ h' = h.leave) := by
  unfold onStateMachine at hrun
  split at hrun
  · next hstatus =>
    refine ⟨hstatus, ?_⟩
    split at hrun
    · next cmd hcmd =>
      split at hrun
      · next update state happly =>
        exact .inl ⟨cmd, update, state, hcmd, happly, (Option.some.inj hrun).symm⟩
      · next e state happly =>
        exact .inr (.inl ⟨cmd, e, state, hcmd, happly, (Option.some.inj hrun).symm⟩)
    · split at hrun
      · next hclosed => exact .inr (.inr ⟨hclosed, (Option.some.inj hrun).symm⟩)
      · cases hrun
  · cases hrun

/-- What a round of the loop that picks `state_get_rx` does. -/
theorem onStateGet_cases (hrun : h.onStateGet S = some h') : h.status = .running ∧
    ((∃ k rest, h.stateGetRx = k :: rest ∧
        h' = { h with stateGetRx := rest, answers := h.answers ++ [.ok (S.get h.state k)] }) ∨
      h.stateGetClosed = true ∧ h' = h.leave) := by
  unfold onStateGet at hrun
  split at hrun
  · next hstatus =>
    refine ⟨hstatus, ?_⟩
    split at hrun
    · next k rest hrx => exact .inl ⟨k, rest, hrx, (Option.some.inj hrun).symm⟩
    · split at hrun
      · next hclosed => exact .inr ⟨hclosed, (Option.some.inj hrun).symm⟩
      · cases hrun
  · cases hrun

theorem updates_eq_nil (hnone : h.pollNext = none) : h.updates = [] := by
  rcases hupdates : h.updates with _ | ⟨update, updates⟩
  · rfl
  · simp [pollNext, hupdates] at hnone

theorem answers_eq_nil (hnone : h.answer = none) : h.answers = [] := by
  rcases hanswers : h.answers with _ | ⟨res, answers⟩
  · rfl
  · simp [answer, hanswers] at hnone

theorem stateGetRx_eq_nil (hstatus : h.status = .running) (hnone : h.onStateGet S = none) :
    h.stateGetRx = [] := by
  rcases hrx : h.stateGetRx with _ | ⟨k, rest⟩
  · rfl
  · simp [onStateGet, hstatus, hrx] at hnone

/-- A running task that does not pick `state_machine_rx` has received all the commands. -/
theorem le_received (hstatus : h.status = .running) (hnone : h.onStateMachine S sent = none) :
    sent.length ≤ h.received := by
  refine Nat.le_of_not_lt fun hlt => ?_
  simp only [onStateMachine, hstatus, List.getElem?_eq_getElem hlt] at hnone
  split at hnone <;> cases hnone

/-- A task that returns has not panicked. -/
theorem Follows.leave (hh : h.Follows S sent) (hstatus : h.status = .running) :
    h.leave.Follows S sent :=
  hh.of_eq rfl rfl fun e => by simp [Handler.leave, hstatus]

theorem Follows.trySend (hh : h.Follows S sent) (hstatus : h.status = .running) (update : Note) :
    (h.trySend update).Follows S sent := by
  unfold Handler.trySend
  split
  · exact hh.leave hstatus
  · split
    · exact hh.of_eq rfl rfl fun _ => Iff.rfl
    · exact hh

/-- **A command is applied**, or panics. -/
theorem Follows.onStateMachine (hh : h.Follows S sent) (hrun : h.onStateMachine S sent = some h') :
    h'.Follows S sent := by
  obtain ⟨hstatus, ⟨cmd, update, state, hcmd, happly, rfl⟩ | ⟨cmd, e, state, hcmd, happly, rfl⟩ |
    ⟨-, rfl⟩⟩ := onStateMachine_cases hrun
  · obtain ⟨hlt, rfl⟩ := List.getElem?_eq_some_iff.mp hcmd
    have hne : ∀ e, h.status ≠ .panicked e := by simp [hstatus]
    obtain ⟨notes, hnotes⟩ := hh.ok hne
    have hall := S.applyAll_concat_ok hnotes happly
    rw [List.take_append_getElem hlt] at hall
    have hnext : { h with state, received := h.received + 1 }.Follows S sent :=
      ⟨hlt, fun e he => absurd he (hne e), fun _ => ⟨_, hall⟩⟩
    exact hnext.trySend hstatus update
  · obtain ⟨hlt, rfl⟩ := List.getElem?_eq_some_iff.mp hcmd
    obtain ⟨notes, hnotes⟩ := hh.ok (by simp [hstatus])
    have hall := S.applyAll_concat_error hnotes happly
    rw [List.take_append_getElem hlt] at hall
    refine ⟨hlt, fun e' he => ?_, fun hne => absurd rfl (hne e)⟩
    obtain rfl := Status.panicked.inj he
    exact hall
  · exact hh.leave hstatus

theorem Follows.onStateGet (hh : h.Follows S sent) (hrun : h.onStateGet S = some h') :
    h'.Follows S sent := by
  obtain ⟨hstatus, ⟨k, rest, -, rfl⟩ | ⟨-, rfl⟩⟩ := onStateGet_cases hrun
  · exact hh.of_eq rfl rfl fun _ => Iff.rfl
  · exact hh.leave hstatus

theorem Follows.request (hh : h.Follows S sent) (k : Key) : (h.request k).Follows S sent := by
  unfold Handler.request
  split
  · exact hh.of_eq rfl rfl fun _ => Iff.rfl
  · exact hh.of_eq rfl rfl fun _ => Iff.rfl

theorem Follows.pollNext {update : Note} (hh : h.Follows S sent)
    (hrun : h.pollNext = some (update, h')) : h'.Follows S sent := by
  unfold Handler.pollNext at hrun
  split at hrun
  · obtain ⟨-, rfl⟩ := Prod.mk.inj (Option.some.inj hrun)
    exact hh.of_eq rfl rfl fun _ => Iff.rfl
  · cases hrun

theorem Follows.answer {res : Except ClientError (Option Item)} (hh : h.Follows S sent)
    (hrun : h.answer = some (res, h')) : h'.Follows S sent := by
  unfold Handler.answer at hrun
  split at hrun
  · obtain ⟨-, rfl⟩ := Prod.mk.inj (Option.some.inj hrun)
    exact hh.of_eq rfl rfl fun _ => Iff.rfl
  · cases hrun

end Handler

end Wraft
