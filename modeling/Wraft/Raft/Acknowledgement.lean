import Wraft.Raft.Progress

/-!
# Acknowledging client requests

A leader keeps those who asked it for a command under the index of the command's entry, and tells
them when its commit index passes that index. A `Ledger` is a node together with the senders it has
heard from and the requests it has taken as a leader, each with the entry that it was appended as.
Senders are handles of one request each, so a run of a ledger never hears twice from the same one.

In every run, through any number of tenures, the acknowledgements are right (`acknowledges`): what
a request waits for is its own entry, which the leader keeps as long as it leads.
-/

namespace Wraft

open TransitionSystem

variable {Cmd : Type}

/-! ### What a leader tells its clients -/

namespace Leader

/-- **The clients that wait for one of the indices are told**, and wait no more. -/
theorem acknowledge_answers {is : List ℕ} (his : is.Nodup) (w : RaftWorker Leader Cmd) :
    (acknowledge is w).inner.transport.answers = w.inner.transport.answers ++
        (is.filterMap w.state.inFlightClientRequests.lookup).map (·, .ok .ack) ∧
      ∀ n, (acknowledge is w).state.inFlightClientRequests.lookup n =
        if n ∈ is then none else w.state.inFlightClientRequests.lookup n := by
  induction is generalizing w with
  | nil => exact ⟨(List.append_nil _).symm, fun _ => rfl⟩
  | cons i is ih =>
    obtain ⟨hi, his⟩ := List.nodup_cons.mp his
    rw [acknowledge]
    rcases hlookup : w.state.inFlightClientRequests.lookup i with _ | tx
    · obtain ⟨hanswers, hwaiting⟩ := ih his w
      refine ⟨?_, fun n => ?_⟩
      · rw [hanswers, List.filterMap_cons, hlookup]
      · rw [hwaiting]
        by_cases hn : n = i
        · rw [hn, hlookup, ite_self, ite_self]
        · simp [hn]
    · set u : RaftWorker Leader Cmd :=
        { inner := w.inner.answer tx (.ok .ack)
          state := { w.state with
            inFlightClientRequests := w.state.inFlightClientRequests.erase i } } with hu
      obtain ⟨hanswers, hwaiting⟩ := ih his u
      -- no other index of the list was erased
      have hrest : is.filterMap u.state.inFlightClientRequests.lookup =
          is.filterMap w.state.inFlightClientRequests.lookup :=
        List.filterMap_congr fun n hn =>
          AList.lookup_erase_ne (ne_of_mem_of_not_mem hn hi)
      refine ⟨?_, fun n => ?_⟩
      · rw [hanswers, hrest, List.filterMap_cons, hlookup]
        exact List.append_assoc _ [_] _
      · rw [hwaiting]
        by_cases hn : n = i
        · subst hn
          simp [hi, u]
        · have hne : u.state.inFlightClientRequests.lookup n =
              w.state.inFlightClientRequests.lookup n := AList.lookup_erase_ne hn
          simp [hn, hne]

/-- The indices behind the commit index, up to `c`. -/
def passed (w : RaftWorker Leader Cmd) (c : ℕ) : List ℕ :=
  List.range' (w.inner.commitIndex + 1) (c - w.inner.commitIndex)

theorem mem_passed {w : RaftWorker Leader Cmd} {c n : ℕ} :
    n ∈ passed w c ↔ w.inner.commitIndex < n ∧ n ≤ c := by
  rw [passed, List.mem_range'_1]
  omega

theorem advanced_answers (w : RaftWorker Leader Cmd) (c : ℕ) :
    (advanced w c).inner.transport.answers = w.inner.transport.answers ++
        ((passed w c).filterMap w.state.inFlightClientRequests.lookup).map (·, .ok .ack) ∧
      ∀ n, (advanced w c).state.inFlightClientRequests.lookup n =
        if n ∈ passed w c then none else w.state.inFlightClientRequests.lookup n :=
  acknowledge_answers List.nodup_range' (committed w c)

end Leader

section

variable [Bincode (LogEntry Cmd)]

/-! ### What a reaction does for the clients -/

theorem Storage.getLog_appended (s : Storage Cmd) (e : LogEntry Cmd) (i : ℕ) :
    (s.appended e).getLog i = if i = s.lastLogIndex + 1 then .ok (some e) else s.getLog i := by
  have hat := entryAt_appended s e i
  have hlast : (s.appended e).lastLogIndex = s.lastLogIndex + 1 := rfl
  rw [entryAt] at hat
  rw [getLog, hlast, hat]
  by_cases hi : i = s.lastLogIndex + 1
  · rw [if_pos hi, if_pos hi, if_neg (by omega)]
  · rw [if_neg hi, if_neg hi, getLog, entryAt]
    by_cases hout : i = 0 ∨ s.lastLogIndex < i
    · rw [if_pos hout, if_pos (by omega)]
    · rw [if_neg hout, if_neg (by omega)]

namespace RaftWorkerInner

/-- The clients whose calls come back are answered, and so may be one that is turned away. -/
structure Relays (w : RaftWorkerInner Cmd) (e : Event Cmd) (w' : RaftWorkerInner Cmd) : Prop where
  forwarded : ∀ p ∈ w'.forwarded, p ∈ w.forwarded ∨ ∃ cmd, e.asks = some (.client p.2, cmd)
  answers : ∃ new, w'.transport.answers = w.transport.answers ++ new ∧
    ∀ tx res, (tx, res) ∈ new →
      (∃ k token, tx = .client token ∧ (k, token) ∈ w.forwarded) ∨
        res ≠ .ok .ack ∧ ∃ cmd, e.asks = some (tx, cmd)

omit [Bincode (LogEntry Cmd)] in
/-- Nobody is answered. -/
theorem relays_of_eq {w w' : RaftWorkerInner Cmd} {e : Event Cmd}
    (hforwarded : w'.forwarded ⊆ w.forwarded)
    (hanswers : w'.transport.answers = w.transport.answers) : w.Relays e w' :=
  ⟨fun _ hp => .inl (hforwarded hp), [], hanswers.trans (List.append_nil _).symm,
    fun _ _ h => absurd h List.not_mem_nil⟩

/-- The log, the term and the commit index are the same. -/
structure SameLog (w w' : RaftWorkerInner Cmd) : Prop where
  lastLogIndex : w'.storage.lastLogIndex = w.storage.lastLogIndex
  getLog : ∀ i, w'.storage.getLog i = w.storage.getLog i
  currentTerm : w'.storage.currentTerm = w.storage.currentTerm
  commitIndex : w'.commitIndex = w.commitIndex

omit [Bincode (LogEntry Cmd)] in
theorem currentTerm_heard (w : RaftWorkerState Cmd) (req : AppendEntriesRequest Cmd) :
    (w.heard req).storage.currentTerm = max w.inner.storage.currentTerm req.term := by
  cases w <;> exact currentTerm_updateTerm _ _

end RaftWorkerInner

namespace RaftWorkerState

open RaftWorkerInner

/-- How a worker goes on when it takes no request and tells nobody. -/
inductive Turns (w : RaftWorkerState Cmd) (n : Node Cmd) : Prop
  /-- A leader goes on. -/
  | reigns (hw : w.role = .leader) (hn : n.worker.role = .leader)
      (hwaiting : n.worker.waiting = w.waiting) (hlog : w.inner.SameLog n.worker.inner) : Turns w n
  /-- The worker does not lead, or just now begins to, or just now steps down. -/
  | follows (hwaiting : n.worker.waiting = ∅)
      (hrole : n.worker.role = .leader → w.role ≠ .leader)
      (hle : w.inner.storage.currentTerm ≤ n.worker.inner.storage.currentTerm)
      (hlt : w.role = .leader →
        w.inner.storage.currentTerm < n.worker.inner.storage.currentTerm) : Turns w n
  /-- The worker panics, with everybody still waiting. -/
  | stops {p : Panic} (hn : n.panicked = some p) (hrole : n.worker.role = w.role)
      (hwaiting : n.worker.waiting = w.waiting) : Turns w n

variable {w : RaftWorkerState Cmd} {e : Event Cmd} {n : Node Cmd}

/-- The role is not touched, and neither is the log. -/
theorem turns_withInner {inner : RaftWorkerInner Cmd} (hn : n.worker = w.withInner inner)
    (hstorage : inner.storage = w.inner.storage)
    (hcommit : inner.commitIndex = w.inner.commitIndex) : w.Turns n := by
  have hinner : n.worker.inner = inner := by rw [hn, inner_withInner]
  have hrole : n.worker.role = w.role := by rw [hn, role_withInner]
  by_cases hw : w.role = .leader
  · refine .reigns hw (hrole.trans hw) ?_ ?_
    · rw [hn, waiting_withInner]
    · rw [hinner]
      exact ⟨by rw [hstorage], fun i => by rw [hstorage], by rw [hstorage], hcommit⟩
  · refine .follows ?_ (fun _ => hw) ?_ (fun h => absurd h hw)
    · exact waiting_of_role (hrole ▸ hw)
    · rw [hinner, hstorage]

theorem turns_aside (hframe : w.inner.Frame n.worker.inner) (hrole : w.Succeeds n.worker) :
    w.Turns n := by
  by_cases hw : w.role = .leader
  · by_cases hn : n.worker.role = .leader
    · obtain ⟨hwaiting, hterm⟩ := hrole.stays hw hn
      exact .reigns hw hn hwaiting ⟨hframe.lastLogIndex, hframe.getLog, hterm, hframe.commitIndex⟩
    · exact .follows (waiting_of_role hn) (fun h => absurd h hn) hframe.currentTerm
        fun _ => hrole.ends hw hn
  · exact .follows (hrole.begins hw) (fun _ => hw) hframe.currentTerm fun h => absurd h hw

/-- **What a reaction does for the clients**, unless a leader is asked for a command: it tells
those whose entries the leader has committed, or it relays at most. -/
theorem Effect.turns (h : w.Effect e n) (hplaced : w.inner.storage.Placed)
    (hasks : ∀ l tx cmd, w = .leader l → e.asks ≠ some (tx, cmd)) :
    (∃ l c, w = .leader l ∧ l.inner.commitIndex ≤ c ∧
      n = ⟨.leader (Leader.advanced l c), none⟩) ∨
    w.inner.Relays e n.worker.inner ∧ w.Turns n := by
  cases h with
  | aside hframe hrole =>
    exact .inr ⟨relays_of_eq hframe.forwarded hframe.answers, turns_aside hframe hrole⟩
  | @answers _ _ token res forwarded hsub hclient hn =>
    refine .inr ⟨?_, turns_withInner hn rfl rfl⟩
    rw [hn, inner_withInner]
    refine ⟨fun p hp => .inl (hsub hp), _, rfl, fun tx res' htx => ?_⟩
    obtain ⟨rfl, rfl⟩ := Prod.mk.inj (List.mem_singleton.mp htx)
    obtain ⟨k, hk⟩ | ⟨-, hres, hcmd⟩ := hclient
    · exact .inl ⟨k, token, rfl, hk⟩
    · exact .inr ⟨hres, hcmd⟩
  | @forwards token cmd _ peer hw hn =>
    refine .inr ⟨?_, turns_withInner hn rfl rfl⟩
    rw [hn, inner_withInner]
    refine ⟨fun p hp => ?_, [], (List.append_nil _).symm, fun _ _ h => absurd h List.not_mem_nil⟩
    rcases List.mem_cons.mp hp with rfl | hp
    · exact .inr ⟨cmd, rfl⟩
    · exact .inl hp
  | @receives _ _ req _ resp inner hlead hrun hn =>
    have hheard := frame_heard w req
    have hreceives := (receives_handleAppendEntries _ req).of_ok hrun
    -- a leader receives entries only when it has stepped down for a newer term
    have hterm : inner.storage.currentTerm = max w.inner.storage.currentTerm req.term :=
      hreceives.storage.sameVote.currentTerm.trans (currentTerm_heard w req)
    rw [hn]
    refine .inr ⟨?_, .follows rfl (fun h => by cases h) ?_ fun hw => ?_⟩
    · exact relays_of_eq (hreceives.forwarded ▸ hheard.forwarded)
        (hreceives.answers.trans hheard.answers)
    · exact (le_max_left _ _).trans hterm.ge
    · exact (lt_max_of_lt_right (hlead hw)).trans_eq hterm.symm
  | @breaks _ _ req _ p inner _ hrun hn =>
    have hheard := frame_heard w req
    have hreceives := (receives_handleAppendEntries _ req).of_error hrun
    rw [hn]
    refine .inr ⟨?_, .stops rfl (role_withInner w inner) (waiting_withInner w inner)⟩
    rw [inner_withInner]
    exact relays_of_eq (hreceives.forwarded ▸ hheard.forwarded)
      (hreceives.answers.trans hheard.answers)
  | takes hw he _ _ => exact absurd he (hasks _ _ _ hw)
  | @advances _ l c hw hle hlast hn =>
    obtain hn | ⟨p, hn⟩ := hn
    · exact .inl ⟨l, c, hw, hle, hn⟩
    · rw [hw, hn]
      exact .inr ⟨relays_of_eq (List.Subset.refl _) rfl, .stops rfl rfl rfl⟩
  | applies hn =>
    have hworker := worker_innerStep applyLog w
    rw [← hn] at hworker
    obtain hinner | ⟨es, hinner, -⟩ := innerStep_applyLog hplaced
    · rw [← hn] at hinner
      rw [hinner] at hworker ⊢
      exact .inr ⟨relays_of_eq (List.Subset.refl _) rfl, turns_withInner hworker rfl rfl⟩
    · rw [← hn] at hinner
      rw [hinner] at hworker ⊢
      exact .inr ⟨relays_of_eq (List.Subset.refl _) rfl, turns_withInner hworker rfl rfl⟩

/-- A leader that is asked for a command takes it. -/
theorem takes_on {l : RaftWorker Leader Cmd} {tx : ClientSender} {cmd : Cmd}
    {resp : Option RpcResponse} (he : e.asks = some (tx, cmd))
    (h : (RaftWorkerState.leader l).on e = some (n, resp)) :
    ∃ v, Leader.Sends (Leader.taken l cmd tx) v ∧ n.worker = .leader v := by
  have hsends := Leader.sendClosed_sends.follows_appendEntriesToAll l.inner.peers
    (Leader.taken l cmd tx)
  have hrun := Leader.handleClientRequest_run cmd tx l
  cases e with
  | client token req =>
    obtain ⟨cmd'⟩ := req
    obtain ⟨rfl, rfl⟩ := Prod.mk.inj (Option.some.inj he)
    obtain ⟨n', hn', hn⟩ := Option.map_eq_some_iff.mp h
    obtain rfl := (Prod.mk.inj hn).1
    rw [onClient, leaderStep, hrun] at hn'
    split at hn'
    · obtain rfl := Option.some.inj hn'
      exact ⟨_, hsends.of_ok ‹_›, rfl⟩
    · obtain rfl := Option.some.inj hn'
      exact ⟨_, hsends.of_error ‹_›, rfl⟩
  | rpc caller k req =>
    cases req with
    | forwardClientRequest req =>
      obtain ⟨cmd'⟩ := req
      obtain ⟨rfl, rfl⟩ := Prod.mk.inj (Option.some.inj he)
      obtain rfl := (Prod.mk.inj (Option.some.inj h)).1
      -- a request that another node forwards is taken like a client's own
      have hrpc : (Leader.handleRpc caller k (.forwardClientRequest (.apply cmd'))).run l =
          ((do
            Leader.handleClientRequest (.apply cmd') (.rpc caller k)
            return (none, .continue)) :
            Rust (RaftWorker Leader Cmd) (Option RpcResponse × StateChange)).run l := rfl
      simp only [hrpc, EStateM.run_bind, hrun]
      cases hall : (Leader.appendEntriesToAll l.inner.peers).run
          (Leader.taken l cmd' (.rpc caller k)) with
      | ok u v => exact ⟨v, hsends.of_ok hall, rfl⟩
      | error p v => exact ⟨v, hsends.of_error hall, rfl⟩
    | _ => cases he
  | _ => cases he

end RaftWorkerState

/-! ### Ledgers -/

/-- A node with a record of its clients' requests. -/
structure Ledger (Cmd : Type) where
  node : Node Cmd
  /-- The senders heard from. -/
  heard : List ClientSender
  /-- The requests taken as a leader, latest first: who asked, and the entry appended. -/
  taken : List (ClientSender × LogEntry Cmd)

namespace Ledger

abbrev worker (s : Ledger Cmd) : RaftWorkerState Cmd := s.node.worker

abbrev inner (s : Ledger Cmd) : RaftWorkerInner Cmd := s.worker.inner

abbrev answers (s : Ledger Cmd) : List (ClientSender × ClientResult) := s.inner.transport.answers

/-- What the node takes when the event happens. -/
def takes (s : Ledger Cmd) (e : Event Cmd) : List (ClientSender × LogEntry Cmd) :=
  match s.worker, e.asks with
  | .leader l, some (tx, cmd) => [(tx, Leader.newEntry l.inner cmd)]
  | _, _ => []

/-- The event is not one of a sender that was heard from before. -/
def Fresh (s : Ledger Cmd) (e : Event Cmd) : Prop :=
  ∀ tx cmd, e.asks = some (tx, cmd) → tx ∉ s.heard

def exec (s : Ledger Cmd) (e : Event Cmd) : Option (Ledger Cmd) :=
  (s.node.react e).map fun node =>
    { node
      heard := (e.asks.map (·.1)).toList ++ s.heard
      taken := s.takes e ++ s.taken }

/-- The moment before, or at the beginning of, a tenure: nobody waits, and whoever was heard from
is on record. -/
structure Opens (s : Ledger Cmd) : Prop where
  placed : s.inner.storage.Placed
  committed : s.inner.commitIndex ≤ s.inner.storage.lastLogIndex
  waiting : s.worker.waiting = ∅
  answers : ∀ a ∈ s.answers, a.1 ∈ s.heard
  forwarded : ∀ p ∈ s.inner.forwarded, .client p.2 ∈ s.heard
  taken : s.taken = []

/-- What holds of the requests in any case. -/
structure Orderly (s : Ledger Cmd) : Prop where
  heard_answers : ∀ a ∈ s.answers, a.1 ∈ s.heard
  heard_forwarded : ∀ p ∈ s.inner.forwarded, .client p.2 ∈ s.heard
  heard_taken : ∀ p ∈ s.taken, p.1 ∈ s.heard
  not_forwarded : ∀ p ∈ s.taken, ∀ q ∈ s.inner.forwarded, p.1 ≠ .client q.2
  nodup : (s.taken.map (·.1)).Nodup
  distinct : s.taken.Pairwise fun p q => p.2.term = q.2.term → p.2.idx ≠ q.2.idx
  once : ∀ p ∈ s.taken, (s.answers.map (·.1)).count p.1 ≤ 1

/-- What holds of a node that runs: as long as it leads, its log has what it took in the tenure,
and those who wait do so for their own entries, behind the commit index. -/
structure Runs (s : Ledger Cmd) : Prop where
  placed : s.inner.storage.Placed
  committed : s.inner.commitIndex ≤ s.inner.storage.lastLogIndex
  term_le : ∀ p ∈ s.taken, p.2.term ≤ s.inner.storage.currentTerm
  term_lt : s.worker.role ≠ .leader → ∀ p ∈ s.taken, p.2.term < s.inner.storage.currentTerm
  getLog : s.worker.role = .leader → ∀ p ∈ s.taken,
    p.2.term = s.inner.storage.currentTerm → s.inner.storage.getLog p.2.idx = .ok (some p.2)
  waits : ∀ n tx, s.worker.waiting.lookup n = some tx →
    s.inner.commitIndex < n ∧ tx ∉ s.answers.map (·.1) ∧
      ∃ e, (tx, e) ∈ s.taken ∧ e.idx = n ∧ e.term = s.inner.storage.currentTerm

/-- Nobody will answer the sender, whose request was taken. -/
structure Lost (s : Ledger Cmd) (tx : ClientSender) : Prop where
  taken : tx ∈ s.taken.map (·.1)
  unanswered : tx ∉ s.answers.map (·.1)
  unheard : ∀ n, s.worker.waiting.lookup n ≠ some tx

variable {s s' : Ledger Cmd} {e : Event Cmd}

omit [Bincode (LogEntry Cmd)] in
theorem takes_of_leader {l : RaftWorker Leader Cmd} {tx : ClientSender} {cmd : Cmd}
    (hw : s.worker = .leader l) (he : e.asks = some (tx, cmd)) :
    s.takes e = [(tx, Leader.newEntry l.inner cmd)] := by
  rw [takes, hw, he]

omit [Bincode (LogEntry Cmd)] in
theorem takes_eq_nil (h : ∀ l tx cmd, s.worker = .leader l → e.asks ≠ some (tx, cmd)) :
    s.takes e = [] := by
  rw [takes]
  split
  · exact absurd ‹_› (h _ _ _ ‹_›)
  · rfl

/-- The leader has taken the request of `tx` as `entry`. -/
structure Takes (s : Ledger Cmd) (tx : ClientSender) (entry : LogEntry Cmd) (s' : Ledger Cmd) :
    Prop where
  role : s.worker.role = .leader
  role' : s'.worker.role = .leader
  idx : entry.idx = s.inner.storage.lastLogIndex + 1
  term : entry.term = s.inner.storage.currentTerm
  storage : s'.inner.storage = s.inner.storage.appended entry
  commitIndex : s'.inner.commitIndex = s.inner.commitIndex
  forwarded : s'.inner.forwarded = s.inner.forwarded
  answers : s'.answers = s.answers
  waiting : s'.worker.waiting = s.worker.waiting.insert entry.idx tx
  taken : s'.taken = (tx, entry) :: s.taken

/-- Those who wait for an entry behind the commit index, up to `c`. -/
def told (s : Ledger Cmd) (c : ℕ) : List ClientSender :=
  (List.range' (s.inner.commitIndex + 1) (c - s.inner.commitIndex)).filterMap
    s.worker.waiting.lookup

/-- The leader has told everybody who waited for an entry up to `c`, where its commit index is. -/
structure Tells (s : Ledger Cmd) (c : ℕ) (s' : Ledger Cmd) : Prop where
  role : s.worker.role = .leader
  role' : s'.worker.role = .leader
  running : s'.node.panicked = none
  le : s.inner.commitIndex ≤ c
  storage : s'.inner.storage = s.inner.storage
  commitIndex : s'.inner.commitIndex = c
  forwarded : s'.inner.forwarded = s.inner.forwarded
  answers : s'.answers = s.answers ++ (s.told c).map (·, .ok .ack)
  waiting : ∀ n, s'.worker.waiting.lookup n =
    if s.inner.commitIndex < n ∧ n ≤ c then none else s.worker.waiting.lookup n
  taken : s'.taken = s.taken

theorem takes_of_sends {l v : RaftWorker Leader Cmd} {tx : ClientSender} {cmd : Cmd}
    (hw : s.worker = .leader l) (hsends : Leader.Sends (Leader.taken l cmd tx) v)
    (hv : s'.worker = .leader v)
    (htaken : s'.taken = (tx, Leader.newEntry l.inner cmd) :: s.taken) :
    s.Takes tx (Leader.newEntry l.inner cmd) s' := by
  obtain ⟨calls, hcalls⟩ := hsends.inner
  constructor
  case role =>
    rw [hw]
    rfl
  case role' =>
    rw [hv]
    rfl
  case idx =>
    rw [inner, hw]
    rfl
  case term =>
    rw [inner, hw]
    rfl
  case storage =>
    rw [inner, inner, hw, hv]
    exact congrArg (·.storage) hcalls
  case commitIndex =>
    rw [inner, inner, hw, hv]
    exact congrArg (·.commitIndex) hcalls
  case forwarded =>
    rw [inner, inner, hw, hv]
    exact congrArg (·.forwarded) hcalls
  case answers =>
    rw [Ledger.answers, Ledger.answers, inner, inner, hw, hv]
    exact congrArg (·.transport.answers) hcalls
  case waiting =>
    rw [hw, hv]
    exact hsends.waiting
  case taken =>
    exact htaken

omit [Bincode (LogEntry Cmd)] in
theorem tells_of_advanced {l : RaftWorker Leader Cmd} {c : ℕ} (hw : s.worker = .leader l)
    (hle : l.inner.commitIndex ≤ c) (hn : s'.node = ⟨.leader (Leader.advanced l c), none⟩)
    (htaken : s'.taken = s.taken) : s.Tells c s' := by
  obtain ⟨answers, hinner⟩ := RaftWorkerState.inner_advanced l c
  obtain ⟨hanswers, hwaiting⟩ := Leader.advanced_answers l c
  have hs' : s'.worker = .leader (Leader.advanced l c) := congrArg (·.worker) hn
  constructor
  case role =>
    rw [hw]
    rfl
  case role' =>
    rw [hs']
    rfl
  case running =>
    rw [hn]
  case le =>
    rw [inner, hw]
    exact hle
  case storage =>
    rw [inner, inner, hw, hs']
    exact congrArg (·.storage) hinner
  case commitIndex =>
    rw [inner, hs']
    exact congrArg (·.commitIndex) hinner
  case forwarded =>
    rw [inner, inner, hw, hs']
    exact congrArg (·.forwarded) hinner
  case answers =>
    rw [Ledger.answers, Ledger.answers, told, inner, inner, hw, hs']
    exact hanswers
  case waiting =>
    intro n
    rw [inner, hw, hs']
    refine (hwaiting n).trans ?_
    simp only [Leader.mem_passed]
    rfl
  case taken =>
    exact htaken

/-- **A step of a ledger**: a leader takes a request, or tells those whose requests it has
committed, or answers are relayed at most. -/
theorem exec_cases (h : s.exec e = some s') (hplaced : s.inner.storage.Placed) :
    s'.heard = (e.asks.map (·.1)).toList ++ s.heard ∧
    ((∃ tx cmd entry, e.asks = some (tx, cmd) ∧ s.Takes tx entry s') ∨
      (∃ c, s.Tells c s') ∨
      s'.taken = s.taken ∧ s.inner.Relays e s'.inner ∧ s.worker.Turns s'.node) := by
  obtain ⟨n, hn, rfl⟩ := Option.map_eq_some_iff.mp h
  obtain ⟨-, resp, hon, heffect⟩ := Node.effect_react hn
  refine ⟨rfl, ?_⟩
  by_cases hasks : ∃ l tx cmd, s.worker = .leader l ∧ e.asks = some (tx, cmd)
  · obtain ⟨l, tx, cmd, hw, he⟩ := hasks
    have hon' : (RaftWorkerState.leader l).on e = some (n, resp) := hw ▸ hon
    -- what follows the append are calls to the peers only
    obtain ⟨v, hsends, hv⟩ := RaftWorkerState.takes_on he hon'
    refine .inl ⟨tx, cmd, _, he, takes_of_sends hw hsends hv ?_⟩
    exact congrArg (· ++ s.taken) (takes_of_leader hw he)
  · have hasks' : ∀ l tx cmd, s.worker = .leader l → e.asks ≠ some (tx, cmd) :=
      fun l tx cmd hw he => hasks ⟨l, tx, cmd, hw, he⟩
    have htaken : s.takes e ++ s.taken = s.taken := by rw [takes_eq_nil hasks', List.nil_append]
    obtain ⟨l, c, hw, hle, hn⟩ | ⟨hrelays, hturns⟩ := heffect.turns hplaced hasks'
    · exact .inr (.inl ⟨c, tells_of_advanced hw hle hn htaken⟩)
    · exact .inr (.inr ⟨htaken, hrelays, hturns⟩)

/-! ### Who waits for what -/

omit [Bincode (LogEntry Cmd)] in
theorem mem_told {c : ℕ} {tx : ClientSender} :
    tx ∈ s.told c ↔
      ∃ n, (s.inner.commitIndex < n ∧ n ≤ c) ∧ s.worker.waiting.lookup n = some tx := by
  rw [told, List.mem_filterMap]
  refine exists_congr fun n => and_congr_left' ?_
  rw [List.mem_range'_1]
  omega

/-- Nobody waits twice. -/
theorem Runs.eq_of_lookup (hr : s.Runs) (ho : s.Orderly) {n m : ℕ} {tx : ClientSender}
    (hn : s.worker.waiting.lookup n = some tx) (hm : s.worker.waiting.lookup m = some tx) :
    n = m := by
  obtain ⟨-, -, a, ha, rfl, -⟩ := hr.waits n tx hn
  obtain ⟨-, -, b, hb, rfl, -⟩ := hr.waits m tx hm
  have hab : ((tx, a) : ClientSender × LogEntry Cmd) = (tx, b) :=
    List.inj_on_of_nodup_map ho.nodup ha hb rfl
  rw [(Prod.mk.inj hab).2]

theorem Runs.nodup_told (hr : s.Runs) (ho : s.Orderly) (c : ℕ) : (s.told c).Nodup :=
  List.Nodup.filterMap (fun _ _ _ hn hm => hr.eq_of_lookup ho hn hm) List.nodup_range'

/-- A request that waits has been taken. -/
theorem Runs.mem_taken (hr : s.Runs) {n : ℕ} {tx : ClientSender}
    (hn : s.worker.waiting.lookup n = some tx) : tx ∈ s.taken.map (·.1) := by
  obtain ⟨-, -, entry, he, -⟩ := hr.waits n tx hn
  exact List.mem_map_of_mem he

/-- What the leader took in its tenure is in its log. -/
theorem Runs.idx_le (hr : s.Runs) (hw : s.worker.role = .leader)
    {p : ClientSender × LogEntry Cmd} (hp : p ∈ s.taken)
    (hterm : p.2.term = s.inner.storage.currentTerm) : p.2.idx ≤ s.inner.storage.lastLogIndex :=
  Storage.le_of_getLog (hr.getLog hw p hp hterm)

/-! ### The requests stay in order -/

theorem Orderly.takes (ho : s.Orderly) (hr : s.Runs) {tx : ClientSender} {entry : LogEntry Cmd}
    (hfresh : tx ∉ s.heard) (hheard : s'.heard = tx :: s.heard) (h : s.Takes tx entry s') :
    s'.Orderly := by
  have hsub : s.heard ⊆ s'.heard := hheard ▸ List.subset_cons_self tx s.heard
  constructor
  case heard_answers =>
    rw [h.answers]
    exact fun a ha => hsub (ho.heard_answers a ha)
  case heard_forwarded =>
    rw [h.forwarded]
    exact fun p hp => hsub (ho.heard_forwarded p hp)
  case heard_taken =>
    rw [h.taken]
    refine List.forall_mem_cons.mpr ⟨?_, fun p hp => hsub (ho.heard_taken p hp)⟩
    rw [hheard]
    exact List.mem_cons_self
  case not_forwarded =>
    rw [h.taken, h.forwarded]
    refine List.forall_mem_cons.mpr ⟨fun q hq htx => hfresh ?_, ho.not_forwarded⟩
    obtain rfl : tx = .client q.2 := htx
    exact ho.heard_forwarded q hq
  case nodup =>
    rw [h.taken, List.map_cons, List.nodup_cons]
    refine ⟨fun hmem => ?_, ho.nodup⟩
    obtain ⟨p, hp, rfl⟩ := List.mem_map.mp hmem
    exact hfresh (ho.heard_taken p hp)
  case distinct =>
    rw [h.taken, List.pairwise_cons]
    refine ⟨fun p hp hterm hidx => ?_, ho.distinct⟩
    -- what was taken in the same term is in the log, and the new entry is behind it
    have hle := hr.idx_le h.role hp (hterm.symm.trans h.term)
    have hidx' : entry.idx = p.2.idx := hidx
    have := h.idx
    omega
  case once =>
    rw [h.taken, h.answers]
    refine List.forall_mem_cons.mpr ⟨?_, ho.once⟩
    rw [List.count_eq_zero_of_not_mem]
    · exact Nat.zero_le 1
    · intro hmem
      obtain ⟨a, ha, rfl⟩ := List.mem_map.mp hmem
      exact hfresh (ho.heard_answers a ha)

omit [Bincode (LogEntry Cmd)] in
theorem Tells.senders {c : ℕ} (h : s.Tells c s') :
    s'.answers.map (·.1) = s.answers.map (·.1) ++ s.told c := by
  rw [h.answers, List.map_append, List.map_map]
  exact congrArg _ (List.map_id _)

theorem Orderly.tells (ho : s.Orderly) (hr : s.Runs) {c : ℕ} (hsub : s.heard ⊆ s'.heard)
    (h : s.Tells c s') : s'.Orderly := by
  -- whoever is told was taken, and not answered before
  have htold : ∀ tx ∈ s.told c, tx ∈ s.taken.map (·.1) ∧ tx ∉ s.answers.map (·.1) := by
    intro tx htx
    obtain ⟨n, -, hn⟩ := mem_told.mp htx
    exact ⟨hr.mem_taken hn, (hr.waits n tx hn).2.1⟩
  constructor
  case heard_answers =>
    intro a ha
    have ha' : a.1 ∈ s.answers.map (·.1) ++ s.told c := h.senders ▸ List.mem_map_of_mem ha
    rcases List.mem_append.mp ha' with hold | hnew
    · obtain ⟨b, hb, hab⟩ := List.mem_map.mp hold
      exact hsub (hab ▸ ho.heard_answers b hb)
    · obtain ⟨p, hp, hap⟩ := List.mem_map.mp (htold _ hnew).1
      exact hsub (hap ▸ ho.heard_taken p hp)
  case heard_forwarded =>
    rw [h.forwarded]
    exact fun p hp => hsub (ho.heard_forwarded p hp)
  case heard_taken =>
    rw [h.taken]
    exact fun p hp => hsub (ho.heard_taken p hp)
  case not_forwarded =>
    rw [h.taken, h.forwarded]
    exact ho.not_forwarded
  case nodup =>
    rw [h.taken]
    exact ho.nodup
  case distinct =>
    rw [h.taken]
    exact ho.distinct
  case once =>
    rw [h.taken, h.senders]
    intro p hp
    rw [List.count_append]
    by_cases hmem : p.1 ∈ s.told c
    · rw [List.count_eq_zero_of_not_mem (htold _ hmem).2, Nat.zero_add]
      exact List.nodup_iff_count_le_one.mp (hr.nodup_told ho c) _
    · rw [List.count_eq_zero_of_not_mem hmem]
      exact ho.once p hp

omit [Bincode (LogEntry Cmd)] in
/-- What is relayed does not concern the requests that were taken. -/
theorem Orderly.relayed (ho : s.Orderly) (he : s.Fresh e) (h : s.inner.Relays e s'.inner) :
    ∃ new, s'.answers = s.answers ++ new ∧ ∀ tx ∈ s.taken.map (·.1), tx ∉ new.map (·.1) := by
  obtain ⟨new, hnew, hall⟩ := h.answers
  refine ⟨new, hnew, fun tx htx hmem => ?_⟩
  obtain ⟨p, hp, rfl⟩ := List.mem_map.mp htx
  obtain ⟨a, ha, hap⟩ := List.mem_map.mp hmem
  obtain ⟨k, token, htoken, hk⟩ | ⟨-, cmd, hcmd⟩ := hall a.1 a.2 ha
  · exact ho.not_forwarded p hp (k, token) hk (hap.symm.trans htoken)
  · exact he _ _ hcmd (hap ▸ ho.heard_taken p hp)

omit [Bincode (LogEntry Cmd)] in
theorem Orderly.relays (ho : s.Orderly) (he : s.Fresh e)
    (hheard : s'.heard = (e.asks.map (·.1)).toList ++ s.heard) (htaken : s'.taken = s.taken)
    (h : s.inner.Relays e s'.inner) : s'.Orderly := by
  have hsub : s.heard ⊆ s'.heard := hheard ▸ List.subset_append_right _ _
  have hasks : ∀ {tx cmd}, e.asks = some (tx, cmd) → tx ∈ s'.heard := by
    intro tx cmd hcmd
    rw [hheard, hcmd]
    exact List.mem_cons_self
  constructor
  case heard_answers =>
    obtain ⟨new, hnew, hall⟩ := h.answers
    intro a ha
    rcases List.mem_append.mp (hnew ▸ ha : a ∈ s.answers ++ new) with hold | ha
    · exact hsub (ho.heard_answers a hold)
    · obtain ⟨k, token, htoken, hk⟩ | ⟨-, cmd, hcmd⟩ := hall a.1 a.2 ha
      · rw [htoken]
        exact hsub (ho.heard_forwarded (k, token) hk)
      · exact hasks hcmd
  case heard_forwarded =>
    intro p hp
    rcases h.forwarded p hp with hold | ⟨cmd, hcmd⟩
    · exact hsub (ho.heard_forwarded p hold)
    · exact hasks hcmd
  case heard_taken =>
    rw [htaken]
    exact fun p hp => hsub (ho.heard_taken p hp)
  case not_forwarded =>
    rw [htaken]
    intro p hp q hq heq
    rcases h.forwarded q hq with hold | ⟨cmd, hcmd⟩
    · exact ho.not_forwarded p hp q hold heq
    -- a sender that was heard before does not ask again
    · exact he _ cmd hcmd (heq ▸ ho.heard_taken p hp)
  case nodup =>
    rw [htaken]
    exact ho.nodup
  case distinct =>
    rw [htaken]
    exact ho.distinct
  case once =>
    obtain ⟨new, hnew, hothers⟩ := ho.relayed he h
    rw [htaken, hnew]
    intro p hp
    rw [List.map_append, List.count_append,
      List.count_eq_zero_of_not_mem (hothers _ (List.mem_map_of_mem hp))]
    exact ho.once p hp

/-- **The requests stay in order.** -/
theorem Orderly.exec (ho : s.Orderly) (hr : s.Runs) (he : s.Fresh e) (h : s.exec e = some s') :
    s'.Orderly := by
  obtain ⟨hheard, hcases⟩ := exec_cases h hr.placed
  obtain ⟨tx, cmd, entry, hasks, htakes⟩ | ⟨c, htells⟩ | ⟨htaken, hrelays, -⟩ := hcases
  · rw [hasks] at hheard
    exact ho.takes hr (he tx cmd hasks) hheard htakes
  · exact ho.tells hr (hheard ▸ List.subset_append_right _ _) htells
  · exact ho.relays he hheard htaken hrelays

/-! ### What holds while the node runs -/

theorem Runs.takes (hr : s.Runs) (ho : s.Orderly) {tx : ClientSender} {entry : LogEntry Cmd}
    (hfresh : tx ∉ s.heard) (h : s.Takes tx entry s') (hplaced : s'.inner.storage.Placed)
    (hcommitted : s'.inner.commitIndex ≤ s'.inner.storage.lastLogIndex) : s'.Runs := by
  have hterm : s'.inner.storage.currentTerm = s.inner.storage.currentTerm := by
    rw [h.storage]
    rfl
  have hlog : ∀ i, s'.inner.storage.getLog i = if i = entry.idx then .ok (some entry) else
      s.inner.storage.getLog i := by
    intro i
    rw [h.storage, Storage.getLog_appended, h.idx]
  constructor
  case placed =>
    exact hplaced
  case committed =>
    exact hcommitted
  case term_le =>
    rw [h.taken, hterm]
    exact List.forall_mem_cons.mpr ⟨h.term.le, hr.term_le⟩
  case term_lt =>
    exact fun hw => absurd h.role' hw
  case getLog =>
    intro _
    rw [h.taken, hterm]
    refine List.forall_mem_cons.mpr ⟨fun _ => ?_, fun p hp hpterm => ?_⟩
    · rw [hlog, if_pos rfl]
    · -- the new entry is behind those of the tenure
      have hle := hr.idx_le h.role hp hpterm
      have := h.idx
      rw [hlog, if_neg (by omega)]
      exact hr.getLog h.role p hp hpterm
  case waits =>
    intro n tx' hn
    rw [h.waiting] at hn
    rw [h.commitIndex, h.answers, h.taken, hterm]
    by_cases hidx : n = entry.idx
    · subst hidx
      rw [AList.lookup_insert] at hn
      obtain rfl := Option.some.inj hn
      refine ⟨?_, fun hmem => ?_, entry, List.mem_cons_self, rfl, h.term⟩
      · have := hr.committed
        have := h.idx
        omega
      · obtain ⟨a, ha, rfl⟩ := List.mem_map.mp hmem
        exact hfresh (ho.heard_answers a ha)
    · rw [AList.lookup_insert_ne hidx] at hn
      obtain ⟨hlt, hanswers, a, ha, hrest⟩ := hr.waits n tx' hn
      exact ⟨hlt, hanswers, a, List.mem_cons_of_mem _ ha, hrest⟩

theorem Runs.tells (hr : s.Runs) (ho : s.Orderly) {c : ℕ} (h : s.Tells c s')
    (hcommitted : s'.inner.commitIndex ≤ s'.inner.storage.lastLogIndex) : s'.Runs := by
  constructor
  case placed =>
    rw [h.storage]
    exact hr.placed
  case committed =>
    exact hcommitted
  case term_le =>
    rw [h.taken, h.storage]
    exact hr.term_le
  case term_lt =>
    exact fun hw => absurd h.role' hw
  case getLog =>
    rw [h.taken, h.storage]
    exact fun _ => hr.getLog h.role
  case waits =>
    intro n tx hn
    rw [h.waiting] at hn
    split_ifs at hn with hpassed
    obtain ⟨hlt, hanswers, a, ha, hidx, hterm⟩ := hr.waits n tx hn
    rw [h.commitIndex, h.senders, h.taken, h.storage]
    refine ⟨by omega, fun hmem => ?_, a, ha, hidx, hterm⟩
    rcases List.mem_append.mp hmem with hold | hnew
    · exact hanswers hold
    · -- nobody waits at two indices
      obtain ⟨m, hm, hmtx⟩ := mem_told.mp hnew
      exact hpassed (hr.eq_of_lookup ho hn hmtx ▸ hm)

theorem Runs.turns (hr : s.Runs) (ho : s.Orderly) (he : s.Fresh e) (htaken : s'.taken = s.taken)
    (hrelays : s.inner.Relays e s'.inner) (h : s.worker.Turns s'.node)
    (hrunning : s'.node.panicked = none) (hplaced : s'.inner.storage.Placed)
    (hcommitted : s'.inner.commitIndex ≤ s'.inner.storage.lastLogIndex) : s'.Runs := by
  cases h with
  | reigns hw hw' hwaiting hlog =>
    obtain ⟨new, hnew, hothers⟩ := ho.relayed he hrelays
    refine ⟨hplaced, hcommitted, ?_, fun h => absurd hw' h, fun _ => ?_, fun n tx hn => ?_⟩
    · rw [htaken, hlog.currentTerm]
      exact hr.term_le
    · rw [htaken, hlog.currentTerm]
      intro p hp hterm
      rw [hlog.getLog]
      exact hr.getLog hw p hp hterm
    · rw [hwaiting] at hn
      obtain ⟨hlt, hanswers, hentry⟩ := hr.waits n tx hn
      rw [hlog.commitIndex, htaken, hlog.currentTerm, hnew, List.map_append, List.mem_append,
        not_or]
      exact ⟨hlt, ⟨hanswers, hothers tx (hr.mem_taken hn)⟩, hentry⟩
  | follows hwaiting hrole hle hlt =>
    -- a tenure that ends leaves its term behind
    have hterm : ∀ p ∈ s.taken, p.2.term < s'.inner.storage.currentTerm := by
      intro p hp
      by_cases hw : s.worker.role = .leader
      · exact (hr.term_le p hp).trans_lt (hlt hw)
      · exact (hr.term_lt hw p hp).trans_le hle
    refine ⟨hplaced, hcommitted, ?_, fun _ => htaken ▸ hterm, fun _ p hp heq => ?_,
      fun n tx hn => ?_⟩
    · rw [htaken]
      exact fun p hp => (hterm p hp).le
    · exact absurd heq (hterm p (htaken ▸ hp)).ne
    · rw [hwaiting] at hn
      cases hn
  | stops hn _ _ =>
    rw [hrunning] at hn
    cases hn

/-- **What holds while the node runs** is kept by every step after which it runs. -/
theorem Runs.exec (hr : s.Runs) (ho : s.Orderly) (he : s.Fresh e) (hleader : e.FromLeader)
    (h : s.exec e = some s') (hrunning : s'.node.panicked = none) : s'.Runs := by
  obtain ⟨n, hn, hs'⟩ := Option.map_eq_some_iff.mp h
  obtain ⟨-, resp, hon, heffect⟩ := Node.effect_react hn
  have hnode : s'.node = n := by rw [← hs']
  have hplaced : s'.inner.storage.Placed := by
    rw [inner, worker, hnode]
    exact (RaftWorkerState.changes_storage_on hon hr.placed).placed hr.placed
  have hcommitted : s'.inner.commitIndex ≤ s'.inner.storage.lastLogIndex := by
    rw [inner, worker, hnode]
    exact heffect.commitIndex_le hr.placed hleader hr.committed
  obtain ⟨-, ⟨tx, cmd, entry, hasks, htakes⟩ | ⟨c, htells⟩ | ⟨htaken, hrelays, hturns⟩⟩ :=
    exec_cases h hr.placed
  · exact hr.takes ho (he tx cmd hasks) htakes hplaced hcommitted
  · exact hr.tells ho htells hcommitted
  · exact hr.turns ho he htaken hrelays hturns hrunning hplaced hcommitted

/-! ### What a step does for those who wait -/

/-- The acknowledgement that `tx` is sent on the way to `s'` is right: the leader has committed the
entry of this very request, and still has it; or the request was not taken but forwarded, and the
acknowledgement is that of another node. -/
def Earned (s s' : Ledger Cmd) (tx : ClientSender) : Prop :=
  (∃ entry, (tx, entry) ∈ s.taken ∧ s'.worker.role = .leader ∧
    entry.term = s'.inner.storage.currentTerm ∧ entry.idx ≤ s'.inner.commitIndex ∧
    s'.inner.storage.getLog entry.idx = .ok (some entry)) ∨
  ∃ k token, tx = .client token ∧ (k, token) ∈ s.inner.forwarded ∧ tx ∉ s.taken.map (·.1)

theorem earned_of_exec (hr : s.Runs) (ho : s.Orderly) (h : s.exec e = some s') :
    ∃ new, s'.answers = s.answers ++ new ∧ ∀ tx, (tx, .ok .ack) ∈ new → s.Earned s' tx := by
  obtain ⟨-, ⟨tx, cmd, entry, hasks, htakes⟩ | ⟨c, htells⟩ | ⟨htaken, hrelays, hturns⟩⟩ :=
    exec_cases h hr.placed
  · exact ⟨[], htakes.answers.trans (List.append_nil _).symm, fun _ h => absurd h List.not_mem_nil⟩
  · refine ⟨_, htells.answers, fun tx htx => ?_⟩
    obtain ⟨tx', htold, heq⟩ := List.mem_map.mp htx
    obtain rfl := (Prod.mk.inj heq).1
    obtain ⟨n, ⟨-, hle⟩, hn⟩ := mem_told.mp htold
    obtain ⟨-, -, entry, hentry, rfl, hterm⟩ := hr.waits n _ hn
    refine .inl ⟨entry, hentry, htells.role', ?_, ?_, ?_⟩
    · rw [htells.storage]
      exact hterm
    · rw [htells.commitIndex]
      exact hle
    · rw [htells.storage]
      exact hr.getLog htells.role _ hentry hterm
  · obtain ⟨new, hnew, hall⟩ := hrelays.answers
    refine ⟨new, hnew, fun tx htx => .inr ?_⟩
    obtain ⟨k, token, htoken, hk⟩ | ⟨hres, -⟩ := hall tx _ htx
    · refine ⟨k, token, htoken, hk, fun hmem => ?_⟩
      obtain ⟨p, hp, rfl⟩ := List.mem_map.mp hmem
      exact ho.not_forwarded p hp (k, token) hk htoken
    · exact absurd rfl hres

/-- A request that is taken is put where nobody waits. -/
theorem takes_of_exec (hr : s.Runs) (h : s.exec e = some s') {p : ClientSender × LogEntry Cmd}
    (hp : p ∈ s'.taken) : p ∈ s.taken ∨
      s.worker.waiting.lookup p.2.idx = none ∧ s'.worker.waiting.lookup p.2.idx = some p.1 := by
  obtain ⟨-, ⟨tx, cmd, entry, hasks, htakes⟩ | ⟨c, htells⟩ | ⟨htaken, -, -⟩⟩ :=
    exec_cases h hr.placed
  · rw [htakes.taken] at hp
    rcases List.mem_cons.mp hp with rfl | hp
    · refine .inr ⟨?_, ?_⟩
      · -- whoever waits waits for an entry of the log
        rcases hlookup : s.worker.waiting.lookup entry.idx with _ | tx'
        · rfl
        · obtain ⟨-, -, a, ha, hidx, hterm⟩ := hr.waits _ _ hlookup
          have hle := hr.idx_le htakes.role ha hterm
          have hidx' : a.idx = entry.idx := hidx
          have := htakes.idx
          simp only at hle
          omega
      · rw [htakes.waiting]
        exact AList.lookup_insert _
    · exact .inl hp
  · exact .inl (htells.taken ▸ hp)
  · exact .inl (htaken ▸ hp)

/-- **Nobody is displaced**: as long as the node leads, whoever waits goes on waiting, or is
told. -/
theorem stays_of_exec (hr : s.Runs) (h : s.exec e = some s') (hrole : s'.worker.role = .leader)
    {n : ℕ} {tx : ClientSender} (hn : s.worker.waiting.lookup n = some tx) :
    s'.worker.waiting.lookup n = some tx ∨ (tx, .ok .ack) ∈ s'.answers := by
  obtain ⟨-, -, a, ha, rfl, hterm⟩ := hr.waits n tx hn
  obtain ⟨-, ⟨tx', cmd, entry, hasks, htakes⟩ | ⟨c, htells⟩ | ⟨-, -, hturns⟩⟩ :=
    exec_cases h hr.placed
  · have hle := hr.idx_le htakes.role ha hterm
    have := htakes.idx
    simp only at hle
    rw [htakes.waiting, AList.lookup_insert_ne (by omega)]
    exact .inl hn
  · by_cases hpassed : s.inner.commitIndex < a.idx ∧ a.idx ≤ c
    · refine .inr ?_
      rw [htells.answers]
      exact List.mem_append_right _ (List.mem_map_of_mem (mem_told.mpr ⟨a.idx, hpassed, hn⟩))
    · rw [htells.waiting, if_neg hpassed]
      exact .inl hn
  · cases hturns with
    | reigns _ _ hwaiting _ => exact .inl (hwaiting ▸ hn)
    | follows _ hbegins _ _ =>
      have hw := RaftWorkerState.waiting_of_role (hbegins hrole)
      rw [hw] at hn
      cases hn
    | stops _ _ hwaiting => exact .inl (hwaiting ▸ hn)

/-- Whoever waits when a leader steps down is lost. -/
theorem lost_of_exec (hr : s.Runs) (ho : s.Orderly) (he : s.Fresh e) (h : s.exec e = some s')
    (hw' : s'.worker.role ≠ .leader) {n : ℕ} {tx : ClientSender}
    (hn : s.worker.waiting.lookup n = some tx) : s'.Lost tx := by
  obtain ⟨-, ⟨_, _, _, _, htakes⟩ | ⟨c, htells⟩ | ⟨htaken, hrelays, hturns⟩⟩ :=
    exec_cases h hr.placed
  · exact absurd htakes.role' hw'
  · exact absurd htells.role' hw'
  · have htx := hr.mem_taken hn
    obtain ⟨new, hnew, hothers⟩ := ho.relayed he hrelays
    refine ⟨htaken ▸ htx, ?_, fun m hm => ?_⟩
    · rw [hnew, List.map_append, List.mem_append, not_or]
      exact ⟨(hr.waits n tx hn).2.1, hothers tx htx⟩
    · rw [RaftWorkerState.waiting_of_role hw'] at hm
      cases hm

theorem Lost.exec {tx : ClientSender} (hl : s.Lost tx) (hr : s.Runs) (ho : s.Orderly)
    (he : s.Fresh e) (h : s.exec e = some s') : s'.Lost tx := by
  obtain ⟨-, ⟨tx', cmd, entry, hasks, htakes⟩ | ⟨c, htells⟩ | ⟨htaken, hrelays, hturns⟩⟩ :=
    exec_cases h hr.placed
  · refine ⟨?_, ?_, fun n hn => ?_⟩
    · rw [htakes.taken]
      exact List.mem_cons_of_mem _ hl.taken
    · rw [htakes.answers]
      exact hl.unanswered
    · rw [htakes.waiting] at hn
      by_cases hidx : n = entry.idx
      · rw [hidx, AList.lookup_insert] at hn
        obtain rfl := Option.some.inj hn
        -- a lost sender is on record, and does not ask again
        obtain ⟨p, hp, rfl⟩ := List.mem_map.mp hl.taken
        exact he _ cmd hasks (ho.heard_taken p hp)
      · rw [AList.lookup_insert_ne hidx] at hn
        exact hl.unheard n hn
  · refine ⟨?_, ?_, fun n hn => ?_⟩
    · rw [htells.taken]
      exact hl.taken
    · rw [htells.senders, List.mem_append, not_or]
      refine ⟨hl.unanswered, fun htold => ?_⟩
      obtain ⟨n, -, hn⟩ := mem_told.mp htold
      exact hl.unheard n hn
    · rw [htells.waiting] at hn
      split_ifs at hn
      exact hl.unheard n hn
  · obtain ⟨new, hnew, hothers⟩ := ho.relayed he hrelays
    refine ⟨htaken ▸ hl.taken, ?_, fun n hn => ?_⟩
    · rw [hnew, List.map_append, List.mem_append, not_or]
      exact ⟨hl.unanswered, hothers tx hl.taken⟩
    · cases hturns with
      | reigns _ _ hwaiting _ => exact hl.unheard n (hwaiting ▸ hn)
      | follows hwaiting _ _ _ =>
        rw [hwaiting] at hn
        cases hn
      | stops _ _ hwaiting => exact hl.unheard n (hwaiting ▸ hn)

/-! ### Runs -/

theorem Opens.orderly (h : s.Opens) : s.Orderly := by
  refine ⟨h.answers, h.forwarded, ?_, ?_, ?_, ?_, ?_⟩
  · rw [h.taken]
    exact fun p hp => absurd hp List.not_mem_nil
  · rw [h.taken]
    exact fun p hp => absurd hp List.not_mem_nil
  · rw [h.taken]
    exact List.nodup_nil
  · rw [h.taken]
    exact List.Pairwise.nil
  · rw [h.taken]
    exact fun p hp => absurd hp List.not_mem_nil

theorem Opens.runs (h : s.Opens) : s.Runs := by
  refine ⟨h.placed, h.committed, ?_, fun _ => ?_, fun _ => ?_, fun n tx hn => ?_⟩
  · rw [h.taken]
    exact fun p hp => absurd hp List.not_mem_nil
  · rw [h.taken]
    exact fun p hp => absurd hp List.not_mem_nil
  · rw [h.taken]
    exact fun p hp => absurd hp List.not_mem_nil
  · rw [h.waiting] at hn
    cases hn

omit [Bincode (LogEntry Cmd)] in
theorem forwarded_of_start {nodeId : NodeId} {key : ℕ} {peers : List NodeId}
    {clients : AList fun _ : NodeId => Client} {ls : LocalStorage} {transport : Transport Cmd}
    {inner : RaftWorkerInner Cmd}
    (h : WorkerBuilder.start nodeId key peers clients ls transport = .ok inner) :
    inner.forwarded = [] := by
  rw [WorkerBuilder.start] at h
  rcases hs : (Storage.new key ls : Except Panic (Storage Cmd)) with p | storage
  · rw [hs] at h
    cases h
  · rw [hs] at h
    obtain rfl := Except.ok.inj h
    rfl

/-- A worker that was just started can be put on record. -/
theorem opens_of_starts (h : s.node.Starts) (hanswers : ∀ a ∈ s.answers, a.1 ∈ s.heard)
    (htaken : s.taken = []) : s.Opens := by
  have hsound := h.sound
  obtain ⟨_, _, _, _, _, _, inner, hstart, -, hn⟩ := h
  refine ⟨hsound.placed, hsound.bounded.committed, ?_, hanswers, ?_, htaken⟩
  · rw [worker, hn]
    rfl
  · rw [Ledger.inner, worker, hn]
    show ∀ p ∈ inner.forwarded, _
    rw [forwarded_of_start hstart]
    exact fun p hp => absurd hp List.not_mem_nil

/-- A step in which a sender is heard for the first time, if at all, and a request for entries is
that of a leader. -/
abbrev Step : Ledger Cmd → Ledger Cmd → Prop :=
  Acts exec fun s e => s.Fresh e ∧ e.FromLeader

variable {r : List (Ledger Cmd)}

theorem orderly_of_mem (h : IsRun Opens Step r) :
    ∀ s ∈ r, Orderly s ∧ (s.node.panicked = none → s.Runs) := by
  refine h.invariant (fun s hs => ⟨hs.orderly, fun _ => hs.runs⟩) ?_
  rintro s s' ⟨ho, hruns⟩ ⟨e, ⟨he, hleader⟩, hexec⟩
  obtain ⟨n, hn, -⟩ := Option.map_eq_some_iff.mp hexec
  have hr := hruns (Node.effect_react hn).1
  exact ⟨ho.exec hr he hexec, hr.exec ho he hleader hexec⟩

/-- A step of a run starts with the requests in order. -/
theorem of_moves (h : IsRun Opens Step r) (hm : Moves r s s') :
    s.Orderly ∧ s.Runs ∧ ∃ e, s.Fresh e ∧ s.exec e = some s' := by
  obtain ⟨⟨e, ⟨he, -⟩, hexec⟩, -⟩ := h.of_moves hm
  obtain ⟨ho, hruns⟩ := orderly_of_mem h s hm.mem_left
  obtain ⟨n, hn, -⟩ := Option.map_eq_some_iff.mp hexec
  exact ⟨ho, hruns (Node.effect_react hn).1, e, he, hexec⟩

/-- Answers are never taken back. -/
theorem answers_subset (h : IsRun Opens Step r) {t : Ledger Cmd} (ht : r.head? = some t) :
    ∀ s ∈ r, s.answers ⊆ t.answers := by
  induction h generalizing t with
  | start h =>
    obtain rfl := Option.some.inj ht
    exact fun s hs => List.mem_singleton.mp hs ▸ List.Subset.refl _
  | @next s s' r h hs ih =>
    obtain rfl := Option.some.inj ht
    obtain ⟨ho, hr, e, he, hexec⟩ := of_moves (.next h hs) (moves_cons_cons.mpr (.inl ⟨rfl, rfl⟩))
    obtain ⟨new, hnew, -⟩ := earned_of_exec hr ho hexec
    intro u hu
    rcases List.mem_cons.mp hu with rfl | hu
    · exact List.Subset.refl _
    · refine List.Subset.trans (ih rfl u hu) ?_
      rw [hnew]
      exact List.subset_append_left _ _

/-- Whoever is lost stays lost. -/
theorem lost_of_moves (h : IsRun Opens Step r) (hm : Moves r s s')
    (hw' : s'.worker.role ≠ .leader) {n : ℕ} {tx : ClientSender}
    (hn : s.worker.waiting.lookup n = some tx) {t : Ledger Cmd} (ht : r.head? = some t) :
    t.Lost tx := by
  induction h generalizing t with
  | start h => exact absurd hm not_moves_singleton
  | @next u u' r h hs ih =>
    obtain rfl := Option.some.inj ht
    obtain ⟨ho, hr, e, he, hexec⟩ := of_moves (.next h hs) (moves_cons_cons.mpr (.inl ⟨rfl, rfl⟩))
    rcases moves_cons_cons.mp hm with ⟨rfl, rfl⟩ | hm
    · exact lost_of_exec hr ho he hexec hw' hn
    · exact (ih hm rfl).exec hr ho he hexec

end Ledger

/-- **The acknowledgements in a run are right.** -/
structure Acknowledges (r : List (Ledger Cmd)) : Prop where
  /-- No request that was taken is answered twice. -/
  once : ∀ s ∈ r, ∀ p ∈ s.taken, (s.answers.map (·.1)).count p.1 ≤ 1
  /-- A request is acknowledged when its own entry is committed, and in the log. -/
  earned : ∀ s s', Moves r s s' → ∃ new, s'.answers = s.answers ++ new ∧
    ∀ tx, (tx, .ok .ack) ∈ new → s.Earned s' tx
  /-- Requests taken in the same term have different indices. -/
  distinct : ∀ s ∈ r, s.taken.Pairwise fun p q => p.2.term = q.2.term → p.2.idx ≠ q.2.idx
  /-- A request that is taken is put where nobody waits. -/
  takes : ∀ s s', Moves r s s' → ∀ p ∈ s'.taken, p ∈ s.taken ∨
    s.worker.waiting.lookup p.2.idx = none ∧ s'.worker.waiting.lookup p.2.idx = some p.1
  /-- As long as the node leads, whoever waits goes on waiting, or is told. -/
  stays : ∀ s s', Moves r s s' → s'.worker.role = .leader → ∀ n tx,
    s.worker.waiting.lookup n = some tx →
      s'.worker.waiting.lookup n = some tx ∨ (tx, .ok .ack) ∈ s'.answers
  /-- Whoever waits, waits behind the commit index, for the entry of the request. -/
  waits : ∀ s ∈ r, s.node.panicked = none → ∀ n tx, s.worker.waiting.lookup n = some tx →
    s.inner.commitIndex < n ∧ ∃ entry, (tx, entry) ∈ s.taken ∧ entry.idx = n
  /-- Whoever waits when the leader steps down is never answered. -/
  lost : ∀ s s', Moves r s s' → s'.worker.role ≠ .leader → ∀ n tx,
    s.worker.waiting.lookup n = some tx → ∀ t ∈ r, ∀ res, (tx, res) ∉ t.answers

/-- **A node acknowledges the requests of its clients rightly**, through any number of tenures. -/
theorem acknowledges {r : List (Ledger Cmd)} (h : IsRun Ledger.Opens Ledger.Step r) :
    Acknowledges r := by
  refine ⟨fun s hs => (Ledger.orderly_of_mem h s hs).1.once, fun s s' hm => ?_,
    fun s hs => (Ledger.orderly_of_mem h s hs).1.distinct, fun s s' hm p hp => ?_,
    fun s s' hm hrole n tx hn => ?_, fun s hs hrunning n tx hn => ?_,
    fun s s' hm hw' n tx hn t ht res hres => ?_⟩
  · obtain ⟨ho, hr, e, he, hexec⟩ := Ledger.of_moves h hm
    exact Ledger.earned_of_exec hr ho hexec
  · obtain ⟨-, hr, e, -, hexec⟩ := Ledger.of_moves h hm
    exact Ledger.takes_of_exec hr hexec hp
  · obtain ⟨-, hr, e, -, hexec⟩ := Ledger.of_moves h hm
    exact Ledger.stays_of_exec hr hexec hrole hn
  · obtain ⟨hlt, -, entry, hentry, hidx, -⟩ :=
      ((Ledger.orderly_of_mem h s hs).2 hrunning).waits n tx hn
    exact ⟨hlt, entry, hentry, hidx⟩
  · obtain ⟨u, q, rfl⟩ := List.exists_cons_of_ne_nil h.ne_nil
    have hlost := Ledger.lost_of_moves h hm hw' hn rfl
    exact hlost.unanswered (List.mem_map_of_mem (Ledger.answers_subset h rfl t ht hres))

end

/-! ### A run -/

namespace Ledger

/-- A node that was just started. -/
def fresh : Ledger ℕ := ⟨Voter.fresh.node, [], []⟩

theorem opens_fresh : fresh.Opens :=
  opens_of_starts Node.starts_fresh (fun _ ha => absurd ha List.not_mem_nil) rfl

/-- The event is a request for entries, or one of a sender heard from before. -/
def repeats (s : Ledger ℕ) : Event ℕ → Bool
  | .rpc _ _ (.appendEntries _) => true
  | e => e.asks.any (·.1 ∈ s.heard)

theorem fresh_of_repeats {s : Ledger ℕ} {e : Event ℕ} (h : s.repeats e = false) :
    s.Fresh e ∧ e.FromLeader := by
  have hfresh : e.asks.any (·.1 ∈ s.heard) = false → s.Fresh e := by
    intro hany tx cmd hasks hmem
    rw [hasks] at hany
    simp [hmem] at hany
  cases e with
  | rpc caller k req =>
    cases req with
    | appendEntries req => cases h
    | requestVote req => exact ⟨hfresh h, trivial⟩
    | forwardClientRequest req => exact ⟨hfresh h, trivial⟩
  | _ => exact ⟨hfresh h, trivial⟩

end Ledger

/-- A leader takes two requests, acknowledges the first of them, and steps down. -/
theorem acknowledges_run : ∃ r : List (Ledger ℕ), Acknowledges r ∧
    ∃ s ∈ r, s.worker.role = .follower ∧ s.taken.map (·.1) = [.rpc 2 0, .client 0] ∧
      s.answers.map (·.1) = [.client 0] := by
  obtain ⟨r, -, hr, hf⟩ := exists_run_of_play Ledger.Opens Ledger.exec Ledger.repeats
    Ledger.opens_fresh
    [.connect 1, .connect 2, .connect 3, .electionTimeout,
      .response 0 (.ok (.requestVote { term := 1, voteGranted := true })),
      .response 1 (.ok (.requestVote { term := 1, voteGranted := true })),
      .client 0 (.apply 5), .rpc 2 0 (.forwardClientRequest (.apply 6)),
      .response 3 (.ok (.appendEntries { term := 1, success := true })),
      .response 4 (.ok (.appendEntries { term := 1, success := true })),
      .advanceCommitIndex, voteEvent 2 3]
    (fun r => r.any fun s => s.worker.role = .follower ∧
      s.taken.map (·.1) = [.rpc 2 0, .client 0] ∧ s.answers.map (·.1) = [.client 0])
    (by decide +kernel)
  simp only [List.any_eq_true, decide_eq_true_eq] at hf
  exact ⟨r, acknowledges (IsRun.mono (fun _ _ => Acts.mono fun _ _ => Ledger.fresh_of_repeats) hr),
    hf⟩

end Wraft
