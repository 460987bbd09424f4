import Mathlib.Data.List.Forall2
import Wraft.ForMathlib.Run
import Wraft.Raft.StateMachine
import Wraft.Todo.State

/-!
# What a page of `todo.rs` shows

The page of the todo list holds a copy of the replicated state. `run_raft` turns each update of the
stream into the message `StateUpdate`, which spawns a task that asks for the state, and the answer
becomes the message `GotState`, which replaces the copy. Updates may be dropped on the way, since
their channel has room for two only.

`Page.exec` is one step of a page, on which the worker has sent the commands `sent` so far. The
scheduler of the page runs one of its tasks at a time, in any order, save that the tasks that ask
for the state keep their order among themselves.

No update is lost for good: a page that has nothing left to do shows what all the commands have made
of the state, and it has something to do for a bounded number of steps only (`Page.settles`). What a
page shows on the way are states of the replica, never an older one after a newer one
(`Page.shows_in_order`).
-/

namespace Wraft.Todo

open TransitionSystem

/-- The todo list as the state of a cluster. -/
def machine : StateMachine State Msg Unit State Unit Panic where
  default := default
  apply := State.apply
  get s _ := some s

/-- `Msg` of `todo.rs` -/
inductive Page.Msg where
  | stateUpdate
  | gotState (state : State)
  | focus
  deriving DecidableEq, Repr

/-- A page with its part of the `Raft`. -/
structure Page where
  handler : Handler State Unit State Unit Panic
  /-- The messages sent to the component. -/
  link : List Page.Msg
  /-- The tasks of `StateUpdate` that have not called `Client::get` yet. -/
  spawned : ℕ
  /-- What the page shows. -/
  state : State

/-- The steps of a page. -/
inductive Page.Action where
  /-- `handle_state_machine` takes a command. -/
  | stateMachine
  /-- `handle_state_machine` answers a request. -/
  | stateGet
  /-- `run_raft` takes an update. -/
  | runRaft
  /-- The component handles its next message. -/
  | update
  /-- A task of `StateUpdate` calls `Client::get`. -/
  | get
  /-- `Client::get` returns in a task of `StateUpdate`. -/
  | got
  /-- The pointer is over the input. -/
  | mouseover
  deriving DecidableEq, Repr

namespace Page

/-- `Model::create` -/
def create : Page where
  handler := .spawn machine
  link := []
  spawned := 0
  state := default

/-- `Model::update` -/
def onMsg (p : Page) : Msg → Page
  | .focus => p
  | .stateUpdate => { p with spawned := p.spawned + 1 }
  | .gotState state => { p with state }

/-- What a task of `StateUpdate` does with the result of `Client::get`. -/
def onGet (p : Page) : Except ClientError (Option State) → Page
  | .ok (some newState) => { p with link := p.link ++ [.gotState newState] }
  | _ => p

/-- One step of a page; `none` when it is not possible. -/
def exec (sent : List Todo.Msg) (p : Page) : Action → Option Page
  | .stateMachine => (p.handler.onStateMachine machine sent).map fun handler => { p with handler }
  | .stateGet => (p.handler.onStateGet machine).map fun handler => { p with handler }
  | .runRaft => p.handler.pollNext.map fun r =>
      { p with handler := r.2, link := p.link ++ [.stateUpdate] }
  | .update =>
    match p.link with
    | msg :: link => some ({ p with link }.onMsg msg)
    | [] => none
  | .get =>
    match p.spawned with
    | spawned + 1 => some { p with handler := p.handler.request (), spawned }
    | 0 => none
  | .got => p.handler.answer.map fun r => { p with handler := r.2 }.onGet r.1
  | .mouseover => some { p with link := p.link ++ [.focus] }

/-- What happens to a page: its worker sends a command, or the page takes a step. -/
inductive Event where
  | send (cmd : Todo.Msg)
  | act (a : Action)
  deriving DecidableEq, Repr

/-- A page, and the commands that its worker has sent. -/
def next (s : List Todo.Msg × Page) : Event → Option (List Todo.Msg × Page)
  | .send cmd => some (s.1 ++ [cmd], s.2)
  | .act a => (s.2.exec s.1 a).map (s.1, ·)

/-- The finite runs of a page from its start, latest state first. -/
def IsRun : List (List Todo.Msg × Page) → Prop :=
  TransitionSystem.IsRun (· = ([], create)) (Acts next fun _ _ => True)

/-- The page has nothing left to do. -/
def Quiet (sent : List Todo.Msg) (p : Page) : Prop := ∀ a, a ≠ .mouseover → p.exec sent a = none

/-! ### The states on their way to the page -/

/-- `s` is what the first `n` commands make of the state. -/
def Shows (sent : List Todo.Msg) (n : ℕ) (s : State) : Prop :=
  n ≤ sent.length ∧ (handleStateMachine (sent.take n)).run default = .ok () s

def Msg.state? : Msg → Option State
  | .gotState state => some state
  | _ => none

def answered : Except ClientError (Option State) → Option State
  | .ok res => res
  | .error _ => none

/-- What the page shows, followed by what it is going to show. -/
def snapshots (p : Page) : List State :=
  p.state :: (p.link.filterMap Msg.state? ++ p.handler.answers.filterMap answered)

/-- The page is going to ask for the state. -/
def Pending (p : Page) : Prop :=
  p.handler.updates ≠ [] ∨ .stateUpdate ∈ p.link ∨ p.spawned ≠ 0 ∨ p.handler.stateGetRx ≠ []

/-- The states of `snapshots` come after so many commands each. -/
structure Versions (sent : List Todo.Msg) (p : Page) (vs : List ℕ) : Prop where
  all_shows : List.Forall₂ (Shows sent) vs p.snapshots
  ascending : vs.Pairwise (· ≤ ·)
  le_received : ∀ v ∈ vs, v ≤ p.handler.received
  /-- The page is going to ask for the state, or has asked since the last command. -/
  current : p.handler.status = .running → p.Pending ∨ vs.getLast? = some p.handler.received

/-- The channels of a page stay open as long as the page does. -/
structure Attended (p : Page) : Prop where
  status : p.handler.status ≠ .returned
  stateMachine : p.handler.stateMachineClosed = false
  updates : p.handler.updatesClosed = false
  stateGet : p.handler.stateGetClosed = false

end Page

/-- `handleStateMachine` is the loop of the trait over the commands. -/
theorem handleStateMachine_eq (cmds : List Msg) :
    handleStateMachine cmds = (fun _ => ()) <$> machine.applyAll cmds := by
  induction cmds with
  | nil => rfl
  | cons cmd cmds ih =>
    rw [StateMachine.applyAll, List.mapM_cons]
    rw [StateMachine.applyAll] at ih
    simp only [map_bind, map_pure]
    rw [show handleStateMachine (cmd :: cmds) = State.apply cmd >>= fun _ =>
      handleStateMachine cmds from rfl, ih]
    simp only [map_eq_pure_bind]
    rfl

theorem handleStateMachine_ok {cmds : List Msg} {s s' : State} {notes : List Unit}
    (h : (machine.applyAll cmds).run s = .ok notes s') :
    (handleStateMachine cmds).run s = .ok () s' := by
  rw [handleStateMachine_eq, map_eq_pure_bind, EStateM.run_bind_of_ok h, EStateM.run_pure]

theorem handleStateMachine_error {cmds : List Msg} {s s' : State} {e : Panic}
    (h : (machine.applyAll cmds).run s = .error e s') :
    (handleStateMachine cmds).run s = .error e s' := by
  rw [handleStateMachine_eq, map_eq_pure_bind, EStateM.run_bind_of_error h]

namespace Page

variable {sent sent' : List Todo.Msg} {p p' : Page} {vs : List ℕ}

theorem Shows.sends {n : ℕ} {s : State} (h : Shows sent n s) (hsent : sent <+: sent') :
    Shows sent' n s := by
  obtain ⟨more, rfl⟩ := hsent
  refine ⟨h.1.trans (by simp), ?_⟩
  rw [List.take_append_of_le_length h.1]
  exact h.2

/-- The state of the replica. -/
theorem shows_of_follows (h : p.handler.Follows machine sent)
    (hne : ∀ e, p.handler.status ≠ .panicked e) :
    Shows sent p.handler.received p.handler.state := by
  obtain ⟨notes, hnotes⟩ := h.ok hne
  exact ⟨h.received_le, handleStateMachine_ok hnotes⟩

/-! ### One step -/

/-- No state gets lost between the replica and the page, and the page forgets nothing. -/
theorem Versions.keep (h : Versions sent p vs) (hsnap : p'.snapshots = p.snapshots)
    (hreceived : p.handler.received ≤ p'.handler.received)
    (hcurrent : p'.handler.status = .running → p'.Pending ∨ p.handler.status = .running ∧
      p'.handler.received = p.handler.received ∧ (p.Pending → p'.Pending)) :
    Versions sent p' vs where
  all_shows := hsnap ▸ h.all_shows
  ascending := h.ascending
  le_received v hv := (h.le_received v hv).trans hreceived
  current hrunning := by
    obtain hpending | ⟨hrunning, heq, hpending⟩ := hcurrent hrunning
    · exact .inl hpending
    · rw [heq]
      exact (h.current hrunning).imp_left hpending

/-- A request is answered with the state of the replica. -/
theorem Versions.serve (h : Versions sent p vs)
    (hsnap : p'.snapshots = p.snapshots ++ [p.handler.state])
    (hshows : Shows sent p.handler.received p.handler.state)
    (hreceived : p'.handler.received = p.handler.received) :
    Versions sent p' (vs ++ [p.handler.received]) where
  all_shows := hsnap ▸ List.rel_append h.all_shows (.cons hshows .nil)
  ascending := by
    rw [List.pairwise_append]
    refine ⟨h.ascending, List.pairwise_singleton _ _, fun v hv w hw => ?_⟩
    obtain rfl := List.mem_singleton.mp hw
    exact h.le_received v hv
  le_received v hv := by
    rw [hreceived]
    rcases List.mem_append.mp hv with hv | hv
    · exact h.le_received v hv
    · exact (List.mem_singleton.mp hv).le
  current _ := .inr (by rw [hreceived, List.getLast?_concat])

/-- The page shows the next state. -/
theorem Versions.shown {v : ℕ} (h : Versions sent p (v :: vs))
    (hsnap : p'.snapshots = p.snapshots.tail) (hne : vs ≠ [])
    (hhandler : p'.handler = p.handler) (hpending : p.Pending → p'.Pending) :
    Versions sent p' vs where
  all_shows := by
    have := h.all_shows
    rw [snapshots, List.forall₂_cons] at this
    rw [hsnap]
    exact this.2
  ascending := h.ascending.tail
  le_received w hw := hhandler ▸ h.le_received w (List.mem_cons_of_mem _ hw)
  current hrunning := by
    rw [hhandler] at hrunning ⊢
    refine (h.current hrunning).imp hpending fun hlast => ?_
    rwa [List.getLast?_cons_of_ne_nil hne] at hlast

/-- The invariant of a page. -/
structure Inv (sent : List Todo.Msg) (p : Page) : Prop where
  attended : p.Attended
  follows : p.handler.Follows machine sent
  versions : ∃ vs, p.Versions sent vs

theorem inv_create : Inv [] create where
  attended := ⟨by simp [create, Handler.spawn], rfl, rfl, rfl⟩
  follows := .spawn
  versions := by
    refine ⟨[0], ?_, List.pairwise_singleton _ _, fun v hv => ?_, fun _ => .inr rfl⟩
    · exact .cons ⟨le_rfl, rfl⟩ .nil
    · exact (List.mem_singleton.mp hv).le

theorem Versions.sends (h : Versions sent p vs) (hsent : sent <+: sent') : Versions sent' p vs :=
  ⟨h.all_shows.imp fun _ _ hs => hs.sends hsent, h.ascending, h.le_received, h.current⟩

/-- The worker sends more commands. -/
theorem Inv.sends (h : Inv sent p) (hsent : sent <+: sent') : Inv sent' p :=
  ⟨h.attended, h.follows.sends hsent, h.versions.imp fun _ hv => hv.sends hsent⟩

/-- The page keeps its invariant, and shows nothing older than what the first `v` commands made of
the state. -/
def Advances (sent : List Todo.Msg) (v : ℕ) (p : Page) : Prop :=
  Inv sent p ∧ ∃ v' vs', Versions sent p (v' :: vs') ∧ v ≤ v'

theorem Versions.advances {v v' : ℕ} (h : Versions sent p (v' :: vs)) (ha : p.Attended)
    (hf : p.handler.Follows machine sent) (hle : v ≤ v') : Advances sent v p :=
  ⟨⟨ha, hf, _, h⟩, v', vs, h, hle⟩

/-- Nothing gets lost between the replica and the page, and nothing is forgotten. -/
theorem Versions.stays {v : ℕ} (h : Versions sent p (v :: vs))
    (hsnap : p'.snapshots = p.snapshots) (hreceived : p.handler.received ≤ p'.handler.received)
    (ha : p'.Attended) (hf : p'.handler.Follows machine sent)
    (hcurrent : p'.handler.status = .running → p'.Pending ∨ p.handler.status = .running ∧
      p'.handler.received = p.handler.received ∧ (p.Pending → p'.Pending)) :
    Advances sent v p' :=
  (h.keep hsnap hreceived hcurrent).advances ha hf le_rfl

/-- Only the handler knows about the channels. -/
theorem Attended.of_eq (h : p.Attended) (hstatus : p'.handler.status = p.handler.status)
    (hstate : p'.handler.stateMachineClosed = p.handler.stateMachineClosed)
    (hupdates : p'.handler.updatesClosed = p.handler.updatesClosed)
    (hget : p'.handler.stateGetClosed = p.handler.stateGetClosed) : p'.Attended :=
  ⟨hstatus ▸ h.status, hstate ▸ h.stateMachine, hupdates ▸ h.updates, hget ▸ h.stateGet⟩

variable {v : ℕ} {handler : Handler State Unit State Unit Panic}

/-- A command is taken: the page will hear of it, or of one before it. -/
theorem Versions.onStateMachine (hv : Versions sent p (v :: vs)) (h : Inv sent p)
    (hrun : p.handler.onStateMachine machine sent = some handler) :
    Advances sent v { p with handler } := by
  have hf := h.follows.onStateMachine hrun
  obtain ⟨hstatus, ⟨cmd, update, state, -, -, rfl⟩ | ⟨cmd, e, state, -, -, rfl⟩ | ⟨hclosed, -⟩⟩ :=
    Handler.onStateMachine_cases hrun
  · rw [Handler.trySend, if_neg (by simp [h.attended.updates])] at hf ⊢
    split at hf
    · next hroom =>
      rw [if_pos hroom]
      refine hv.stays rfl (Nat.le_succ _) (h.attended.of_eq rfl rfl rfl rfl) hf
        fun _ => .inl (.inl ?_)
      exact List.append_ne_nil_of_right_ne_nil _ (List.cons_ne_nil _ _)
    · next hfull =>
      -- no room, so there are updates that the page has not seen
      rw [if_neg hfull]
      refine hv.stays rfl (Nat.le_succ _) (h.attended.of_eq rfl rfl rfl rfl) hf
        fun _ => .inl (.inl fun hnil => ?_)
      have hnil : p.handler.updates = [] := hnil
      simp [hnil] at hfull
  · refine hv.stays rfl (Nat.le_succ _)
      ⟨by simp, h.attended.stateMachine, h.attended.updates, h.attended.stateGet⟩ hf
      fun hrunning => ?_
    cases hrunning
  · rw [h.attended.stateMachine] at hclosed
    cases hclosed

/-- A request is answered. -/
theorem Versions.onStateGet (hv : Versions sent p (v :: vs)) (h : Inv sent p)
    (hrun : p.handler.onStateGet machine = some handler) : Advances sent v { p with handler } := by
  have hf := h.follows.onStateGet hrun
  obtain ⟨hstatus, ⟨k, rest, -, rfl⟩ | ⟨hclosed, -⟩⟩ := Handler.onStateGet_cases hrun
  · have hshows := shows_of_follows h.follows (by simp [hstatus])
    refine Versions.advances (hv.serve ?_ hshows rfl) (h.attended.of_eq rfl rfl rfl rfl) hf le_rfl
    simp [snapshots, answered, machine]
  · rw [h.attended.stateGet] at hclosed
    cases hclosed

/-- An update becomes a message. -/
theorem Versions.runRaft {update : Unit} (hv : Versions sent p (v :: vs)) (h : Inv sent p)
    (hrun : p.handler.pollNext = some (update, handler)) :
    Advances sent v { p with handler, link := p.link ++ [.stateUpdate] } := by
  have hf := h.follows.pollNext hrun
  unfold Handler.pollNext at hrun
  split at hrun
  · obtain ⟨-, rfl⟩ := Prod.mk.inj (Option.some.inj hrun)
    refine hv.stays ?_ le_rfl (h.attended.of_eq rfl rfl rfl rfl) hf
      fun _ => .inl (.inr (.inl ?_))
    · simp [snapshots, Msg.state?]
    · simp
  · cases hrun

/-- The component handles a message. -/
theorem Versions.onMsg {msg : Msg} {link : List Msg} (hv : Versions sent p (v :: vs))
    (h : Inv sent p) (hlink : p.link = msg :: link) :
    Advances sent v ({ p with link }.onMsg msg) := by
  have hpending : ∀ {q : Page}, q.handler = p.handler → q.link = link → q.spawned = p.spawned →
      msg ≠ .stateUpdate → p.Pending → q.Pending := by
    rintro q hhandler hq hspawned hmsg (hp | hp | hp | hp)
    · exact .inl (hhandler ▸ hp)
    · rw [hlink] at hp
      exact .inr (.inl (hq ▸ (List.mem_cons.mp hp).resolve_left hmsg.symm))
    · exact .inr (.inr (.inl (hspawned ▸ hp)))
    · exact .inr (.inr (.inr (hhandler ▸ hp)))
  cases msg with
  | stateUpdate =>
    refine hv.stays ?_ le_rfl (h.attended.of_eq rfl rfl rfl rfl) h.follows
      fun _ => .inl (.inr (.inr (.inl (Nat.succ_ne_zero _))))
    simp [snapshots, hlink, Page.onMsg, List.filterMap_cons, Msg.state?]
  | gotState state =>
    have hsnap : snapshots ({ p with link }.onMsg (.gotState state)) = p.snapshots.tail := by
      simp [snapshots, hlink, Page.onMsg, Msg.state?]
    cases vs with
    | nil =>
      have := hv.all_shows.length_eq
      simp [snapshots, hlink, Msg.state?] at this
    | cons w vs =>
      exact Versions.advances
        (hv.shown hsnap (List.cons_ne_nil _ _) rfl (hpending rfl rfl rfl (by simp)))
        (h.attended.of_eq rfl rfl rfl rfl) h.follows
        (List.rel_of_pairwise_cons hv.ascending (by simp))
  | focus =>
    refine hv.stays ?_ le_rfl (h.attended.of_eq rfl rfl rfl rfl) h.follows
      fun hrunning => .inr ⟨hrunning, rfl, hpending rfl rfl rfl (by simp)⟩
    simp [snapshots, hlink, Page.onMsg, List.filterMap_cons, Msg.state?]

/-- A task asks for the state. -/
theorem Versions.get {spawned : ℕ} (hv : Versions sent p (v :: vs)) (h : Inv sent p) :
    Advances sent v { p with handler := p.handler.request (), spawned } := by
  have hf := h.follows.request ()
  have hreq : p.handler.request () =
      { p.handler with stateGetRx := p.handler.stateGetRx ++ [()] } := by
    unfold Handler.request
    split
    · next hreturned => exact absurd hreturned h.attended.status
    · rfl
  rw [hreq] at hf ⊢
  refine hv.stays rfl le_rfl (h.attended.of_eq rfl rfl rfl rfl) hf
    fun _ => .inl (.inr (.inr (.inr ?_)))
  exact List.append_ne_nil_of_right_ne_nil _ (List.cons_ne_nil _ _)

/-- An answer becomes a message. -/
theorem Versions.onGet {res : Except ClientError (Option State)} (hv : Versions sent p (v :: vs))
    (h : Inv sent p) (hrun : p.handler.answer = some (res, handler)) :
    Advances sent v ({ p with handler }.onGet res) := by
  have hf := h.follows.answer hrun
  unfold Handler.answer at hrun
  split at hrun
  · next res' answers hanswers =>
    obtain ⟨rfl, rfl⟩ := Prod.mk.inj (Option.some.inj hrun)
    rcases res' with err | _ | state
    · refine hv.stays ?_ le_rfl (h.attended.of_eq rfl rfl rfl rfl) hf
        fun hrunning => .inr ⟨hrunning, rfl, id⟩
      simp [snapshots, hanswers, List.filterMap_cons, answered, Page.onGet]
    · refine hv.stays ?_ le_rfl (h.attended.of_eq rfl rfl rfl rfl) hf
        fun hrunning => .inr ⟨hrunning, rfl, id⟩
      simp [snapshots, hanswers, List.filterMap_cons, answered, Page.onGet]
    · refine hv.stays ?_ le_rfl (h.attended.of_eq rfl rfl rfl rfl) hf
        fun hrunning => .inr ⟨hrunning, rfl, ?_⟩
      · simp [snapshots, hanswers, answered, Page.onGet, Msg.state?]
      · simp [Pending, Page.onGet]
  · cases hrun

/-- **Step lemma.** The channels stay open, and what the page shows next comes no earlier than what
it shows. -/
theorem Inv.exec (h : Inv sent p) (hv : Versions sent p (v :: vs)) {a : Action}
    (hexec : p.exec sent a = some p') : Advances sent v p' := by
  cases a with
  | stateMachine =>
    obtain ⟨handler, hrun, rfl⟩ := Option.map_eq_some_iff.mp hexec
    exact hv.onStateMachine h hrun
  | stateGet =>
    obtain ⟨handler, hrun, rfl⟩ := Option.map_eq_some_iff.mp hexec
    exact hv.onStateGet h hrun
  | runRaft =>
    obtain ⟨r, hrun, rfl⟩ := Option.map_eq_some_iff.mp hexec
    exact hv.runRaft h hrun
  | update =>
    rw [Page.exec] at hexec
    split at hexec
    · next msg link hlink =>
      obtain rfl := Option.some.inj hexec
      exact hv.onMsg h hlink
    · cases hexec
  | get =>
    rw [Page.exec] at hexec
    split at hexec
    · obtain rfl := Option.some.inj hexec
      exact hv.get h
    · cases hexec
  | got =>
    obtain ⟨r, hrun, rfl⟩ := Option.map_eq_some_iff.mp hexec
    exact hv.onGet h hrun
  | mouseover =>
    obtain rfl := Option.some.inj hexec
    refine hv.stays ?_ le_rfl (h.attended.of_eq rfl rfl rfl rfl) h.follows
      fun hrunning => .inr ⟨hrunning, rfl, ?_⟩
    · simp [snapshots, Msg.state?]
    · simp [Pending]

/-! ### Runs -/

theorem Inv.next (h : Inv sent p) (hv : Versions sent p (v :: vs)) {e : Event}
    {s : List Todo.Msg × Page} (hnext : next (sent, p) e = some s) :
    sent <+: s.1 ∧ Advances s.1 v s.2 := by
  cases e with
  | send cmd =>
    obtain rfl := Option.some.inj hnext
    have hsent : sent <+: sent ++ [cmd] := List.prefix_append _ _
    exact ⟨hsent, h.sends hsent, v, vs, hv.sends hsent, le_rfl⟩
  | act a =>
    obtain ⟨q, hexec, rfl⟩ := Option.map_eq_some_iff.mp hnext
    exact ⟨List.prefix_rfl, h.exec hv hexec⟩

theorem Inv.exists_version (h : Inv sent p) : ∃ v vs, Versions sent p (v :: vs) := by
  obtain ⟨_ | ⟨v, vs⟩, hv⟩ := h.versions
  · have := hv.all_shows.length_eq
    simp [snapshots] at this
  · exact ⟨v, vs, hv⟩

theorem Versions.shows (h : Versions sent p (v :: vs)) : Shows sent v p.state :=
  (List.forall₂_cons.mp h.all_shows).1

/-- The page has shown, in a run, what the first `n` commands make of the state, with `n` from `ns`;
both lists have the latest first, and what is shown later comes after no fewer commands. -/
def ShownIn (ns : List ℕ) (r : List (List Todo.Msg × Page)) : Prop :=
  ns.Pairwise (· ≥ ·) ∧ List.Forall₂ (fun n s => Shows s.1 n s.2.state) ns r

theorem ShownIn.next {n n' : ℕ} {ns : List ℕ} {s : List Todo.Msg × Page}
    {r : List (List Todo.Msg × Page)} (h : ShownIn (n :: ns) r) (hle : n ≤ n')
    (hshows : Shows s.1 n' s.2.state) : ShownIn (n' :: n :: ns) (s :: r) := by
  obtain ⟨hdesc, hall⟩ := h
  refine ⟨List.pairwise_cons.mpr ⟨fun m hm => ?_, hdesc⟩, .cons hshows hall⟩
  rcases List.mem_cons.mp hm with rfl | hm
  · exact hle
  · exact (List.rel_of_pairwise_cons hdesc hm).trans hle

/-- **Run lemma.** The invariant holds at the end of a run, and what the page has shown in the run
comes before what it shows at the end. -/
theorem IsRun.inv {r : List (List Todo.Msg × Page)} {s : List Todo.Msg × Page}
    (hr : IsRun (s :: r)) : Inv s.1 s.2 ∧ ∃ n vs ns, Versions s.1 s.2 (n :: vs) ∧
      ShownIn (n :: ns) (s :: r) := by
  generalize hq : s :: r = q at hr
  induction hr generalizing s r with
  | start hinit =>
    obtain ⟨rfl, rfl⟩ := List.cons.inj hq
    subst hinit
    obtain ⟨n, vs, hv⟩ := inv_create.exists_version
    exact ⟨inv_create, n, vs, [], hv, List.pairwise_singleton _ _, .cons hv.shows .nil⟩
  | next _ hstep ih =>
    obtain ⟨rfl, rfl⟩ := List.cons.inj hq
    obtain ⟨e, -, hnext⟩ := hstep
    obtain ⟨hinv, n, vs, ns, hv, hshown⟩ := ih rfl
    obtain ⟨-, hinv', n', vs', hv', hle⟩ := hinv.next hv hnext
    exact ⟨hinv', n', vs', n :: ns, hv', hshown.next hle hv'.shows⟩

/-- Two entries are added before the page runs again, and two of the four updates are dropped. -/
def lossyEvents : List Event :=
  [.send (.update "a"), .send .add, .send (.update "b"), .send .add, .act .stateMachine,
    .act .stateMachine, .act .stateMachine, .act .stateMachine]

/-- The page then runs until it has nothing left to do. -/
def catchUp : List Action :=
  [.runRaft, .runRaft, .update, .update, .get, .stateGet, .got, .get, .update, .stateGet, .got,
    .update]

/-- **What a page shows are states of the replica, in order**: the states of a run can be numbered
so that each shows what so many commands of the worker make of the state, and the number never goes
down. -/
theorem shows_in_order {r : List (List Todo.Msg × Page)} (hr : IsRun r) : ∃ ns, ShownIn ns r := by
  cases r with
  | nil => exact ⟨[], .nil, .nil⟩
  | cons s r =>
    obtain ⟨-, n, -, ns, -, hshown⟩ := hr.inv
    exact ⟨n :: ns, hshown⟩

theorem shows_in_order_lossyEvents : ∃ r s s', IsRun r ∧ r[0]? = some s' ∧ r[9]? = some s ∧
    s.2.state.entries = [] ∧ s'.2.state.entries.map (·.description) = ["a", "b"] ∧
    ∃ ns, ShownIn ns r := by
  obtain ⟨r, -, hr, hf⟩ := exists_run_of_play (· = ([], create)) next (fun _ _ => false) rfl
    (lossyEvents ++ catchUp.map .act)
    (fun r => r[9]?.any fun s => r[0]?.any fun s' => s.2.state.entries = [] &&
      s'.2.state.entries.map (·.description) = ["a", "b"])
    (by decide +kernel)
  simp only [Option.any_eq_true, Bool.and_eq_true, decide_eq_true_eq] at hf
  obtain ⟨s, hs, s', hs', hempty, hentries⟩ := hf
  have hrun : IsRun r := TransitionSystem.IsRun.mono (fun _ _ => Acts.mono fun _ _ _ => trivial) hr
  exact ⟨r, s, s', hrun, hs', hs, hempty, hentries, shows_in_order hrun⟩

/-! ### Settling -/

/-- What is left to do about a message. -/
def Msg.work : Msg → ℕ
  | .stateUpdate => 5
  | _ => 1

/-- What is left to do about the messages on the link. -/
def linkWork : List Msg → ℕ
  | [] => 0
  | msg :: link => msg.work + linkWork link

@[simp]
theorem linkWork_concat (link : List Msg) (msg : Msg) :
    linkWork (link ++ [msg]) = linkWork link + msg.work := by
  induction link with
  | nil => exact Nat.add_comm _ _
  | cons m link ih => rw [List.cons_append, linkWork, linkWork, ih, Nat.add_assoc]

/-- What is left to do, when no more commands come. -/
def work (sent : List Todo.Msg) (p : Page) : ℕ :=
  7 * (sent.length - p.handler.received) + 6 * p.handler.updates.length +
    linkWork p.link + 4 * p.spawned + 3 * p.handler.stateGetRx.length +
    2 * p.handler.answers.length

/-- Every step does some of the work. -/
theorem Inv.work_exec (h : Inv sent p) {a : Action} (ha : a ≠ .mouseover)
    (hexec : p.exec sent a = some p') : p'.work sent + 1 ≤ p.work sent := by
  cases a with
  | stateMachine =>
    obtain ⟨handler, hrun, rfl⟩ := Option.map_eq_some_iff.mp hexec
    obtain ⟨-, ⟨cmd, update, state, hcmd, -, rfl⟩ | ⟨cmd, e, state, hcmd, -, rfl⟩ | ⟨hclosed, -⟩⟩ :=
      Handler.onStateMachine_cases hrun
    · obtain ⟨hlt, -⟩ := List.getElem?_eq_some_iff.mp hcmd
      rw [Handler.trySend, if_neg (by simp [h.attended.updates])]
      split
      · simp only [work, List.length_append, List.length_singleton]
        omega
      · simp only [work]
        omega
    · obtain ⟨hlt, -⟩ := List.getElem?_eq_some_iff.mp hcmd
      simp only [work]
      omega
    · rw [h.attended.stateMachine] at hclosed
      cases hclosed
  | stateGet =>
    obtain ⟨handler, hrun, rfl⟩ := Option.map_eq_some_iff.mp hexec
    obtain ⟨-, ⟨k, rest, hrest, rfl⟩ | ⟨hclosed, -⟩⟩ := Handler.onStateGet_cases hrun
    · simp only [work, hrest, List.length_append, List.length_cons, List.length_nil]
      omega
    · rw [h.attended.stateGet] at hclosed
      cases hclosed
  | runRaft =>
    obtain ⟨r, hrun, rfl⟩ := Option.map_eq_some_iff.mp hexec
    unfold Handler.pollNext at hrun
    split at hrun
    · next update updates hupdates =>
      obtain rfl := Option.some.inj hrun
      simp only [work, hupdates, linkWork_concat, Msg.work, List.length_cons]
      omega
    · cases hrun
  | update =>
    rw [Page.exec] at hexec
    split at hexec
    · next msg link hlink =>
      obtain rfl := Option.some.inj hexec
      cases msg
      all_goals
        simp only [work, hlink, Page.onMsg, linkWork, Msg.work]
        omega
    · cases hexec
  | get =>
    rw [Page.exec] at hexec
    split at hexec
    · next spawned hspawned =>
      obtain rfl := Option.some.inj hexec
      unfold Handler.request
      split
      · next hreturned => exact absurd hreturned h.attended.status
      · simp only [work, hspawned, List.length_append, List.length_singleton]
        omega
    · cases hexec
  | got =>
    obtain ⟨r, hrun, rfl⟩ := Option.map_eq_some_iff.mp hexec
    unfold Handler.answer at hrun
    split at hrun
    · next res answers hanswers =>
      obtain rfl := Option.some.inj hrun
      rcases res with err | _ | state
      all_goals
        simp only [work, hanswers, Page.onGet, linkWork_concat, Msg.work, List.length_cons]
        omega
    · cases hrun
  | mouseover => exact absurd rfl ha

/-- The steps of a page keep its invariant, and are bounded by the work to do. -/
theorem Inv.steps (h : Inv sent p) {as : List Action} (has : Action.mouseover ∉ as)
    (hexec : as.foldlM (Page.exec sent) p = some p') :
    Inv sent p' ∧ as.length + p'.work sent ≤ p.work sent := by
  induction as generalizing p with
  | nil =>
    obtain rfl := Option.some.inj hexec
    exact ⟨h, by simp⟩
  | cons a as ih =>
    rw [List.foldlM_cons] at hexec
    obtain ⟨q, hq, hexec⟩ := Option.bind_eq_some_iff.mp hexec
    rw [List.mem_cons, not_or] at has
    obtain ⟨v, vs, hv⟩ := h.exists_version
    have hdone := h.work_exec (Ne.symm has.1) hq
    obtain ⟨hinv, hle⟩ := ih (h.exec hv hq).1 has.2 hexec
    refine ⟨hinv, ?_⟩
    rw [List.length_cons]
    omega

/-- A page that has nothing left to do shows what all the commands make of the state, if none of
them panics. -/
theorem Inv.shows_of_quiet (h : Inv sent p) (hquiet : p.Quiet sent)
    (hne : ∀ e, p.handler.status ≠ .panicked e) : Shows sent sent.length p.state := by
  obtain ⟨v, vs, hv⟩ := h.exists_version
  have hupdates := Handler.updates_eq_nil (Option.map_eq_none_iff.mp (hquiet .runRaft (by simp)))
  have hanswers := Handler.answers_eq_nil (Option.map_eq_none_iff.mp (hquiet .got (by simp)))
  have hlink : p.link = [] := by
    have := hquiet .update (by simp)
    rw [Page.exec] at this
    split at this
    · cases this
    · assumption
  have hspawned : p.spawned = 0 := by
    have := hquiet .get (by simp)
    rw [Page.exec] at this
    split at this
    · cases this
    · assumption
  have hstatus : p.handler.status = .running := by
    rcases hstatus : p.handler.status with _ | _ | e
    · rfl
    · exact absurd hstatus h.attended.status
    · exact absurd hstatus (hne e)
  -- every request is answered and every command taken
  have hrx := Handler.stateGetRx_eq_nil hstatus
    (Option.map_eq_none_iff.mp (hquiet .stateGet (by simp)))
  have hreceived := le_antisymm h.follows.received_le (Handler.le_received hstatus
    (Option.map_eq_none_iff.mp (hquiet .stateMachine (by simp))))
  have hlast := (hv.current hstatus).resolve_left fun hpending => by
    simp [Pending, hupdates, hlink, hspawned, hrx] at hpending
  have hvs : vs = [] := by
    have := hv.all_shows.length_eq
    simpa [snapshots, hlink, hanswers] using this
  subst hvs
  obtain rfl : v = sent.length := (Option.some.inj hlast).trans hreceived
  exact hv.shows

/-- A handler that has panicked has panicked on one of the commands. -/
theorem Inv.not_panicked (h : Inv sent p) {s : State}
    (hs : (handleStateMachine sent).run default = .ok () s) (e : Panic) :
    p.handler.status ≠ .panicked e := by
  intro hstatus
  have hpanic := StateMachine.applyAll_append_of_error (h.follows.panicked e hstatus)
    (sent.drop p.handler.received)
  rw [List.take_append_drop] at hpanic
  have := handleStateMachine_error hpanic
  rw [show machine.default = (default : State) from rfl, hs] at this
  cases this

/-- **A page settles.** Once its worker sends no more commands, a page takes a bounded number of
steps, in whatever order, and when it has nothing left to do it shows what all the commands make of
the state, however many updates were dropped. -/
theorem settles {r : List (List Todo.Msg × Page)} (hr : IsRun ((sent, p) :: r)) {as : List Action}
    (has : Action.mouseover ∉ as) (hexec : as.foldlM (Page.exec sent) p = some p') :
    as.length ≤ p.work sent ∧ (p'.Quiet sent → ∀ s,
      (handleStateMachine sent).run default = .ok () s → p'.state = s) := by
  obtain ⟨hinv, hle⟩ := hr.inv.1.steps has hexec
  refine ⟨(Nat.le_add_right _ _).trans hle, fun hquiet s hs => ?_⟩
  have hshows := (hinv.shows_of_quiet hquiet (hinv.not_panicked hs)).2
  rw [List.take_length, hs] at hshows
  exact (EStateM.Result.ok.inj hshows).2.symm

theorem settles_lossyEvents : ∃ sent p r p', IsRun ((sent, p) :: r) ∧
    catchUp.foldlM (Page.exec sent) p = some p' ∧ p'.Quiet sent ∧
    p'.state.entries.map (·.description) = ["a", "b"] ∧
    catchUp.length ≤ p.work sent ∧ (p'.Quiet sent → ∀ s,
      (handleStateMachine sent).run default = .ok () s → p'.state = s) := by
  obtain ⟨r, -, hr, hf⟩ := exists_run_of_play (· = ([], create)) next (fun _ _ => false) rfl
    lossyEvents
    (fun r => r.head?.any fun s => s.2.handler.updates.length = 2 &&
      (catchUp.foldlM (Page.exec s.1) s.2).any fun p' =>
        [.stateMachine, .stateGet, .runRaft, .update, .get, .got].all
          (fun a => (p'.exec s.1 a).isNone) &&
        p'.state.entries.map (·.description) = ["a", "b"])
    (by decide +kernel)
  simp only [Option.any_eq_true, Bool.and_eq_true, decide_eq_true_eq] at hf
  obtain ⟨⟨sent, p⟩, hhead, -, p', hexec, hquiet, hentries⟩ := hf
  obtain ⟨r, rfl⟩ := List.head?_eq_some_iff.mp hhead
  have hrun : IsRun ((sent, p) :: r) :=
    TransitionSystem.IsRun.mono (fun _ _ => Acts.mono fun _ _ _ => trivial) hr
  refine ⟨sent, p, r, p', hrun, hexec, fun a ha => ?_, hentries, settles hrun (by decide) hexec⟩
  simp only [List.all_cons, List.all_nil, Bool.and_true, Bool.and_eq_true,
    Option.isNone_iff_eq_none] at hquiet
  obtain ⟨h1, h2, h3, h4, h5, h6⟩ := hquiet
  cases a
  all_goals first | assumption | exact absurd rfl ha

end Page

end Wraft.Todo
