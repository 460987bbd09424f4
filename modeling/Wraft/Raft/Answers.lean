import Wraft.Raft.Acknowledgement
import Wraft.Raft.CatchUp

/-!
# Where acknowledgements come from

A client of the cluster is told by the node that it asked. Either the node is the leader that takes
the request, and tells the client when it commits the request's entry; or it is a follower that
forwards the request, and passes on what the leader's task relays to it. So every acknowledgement
goes back to a leader that takes the request of this client as an entry and, later in the same term,
commits the entry (`Cluster.Granted`).

`RaftWorkerState.acks_on` says which reactions of a node acknowledge something, and
`RaftWorkerState.waiting_on` who waits for what afterwards. `Cluster.Accounts` keeps what they say
along a run (`Cluster.IsRun.accounts`).
-/

namespace Wraft

open EStateM (Follows)
open TransitionSystem

variable {Cmd : Type} [Bincode (LogEntry Cmd)]

/-! ### One reaction -/

namespace RaftWorkerState

open RaftWorkerInner

variable {w : RaftWorkerState Cmd} {e : Event Cmd} {n : Node Cmd} {resp : Option RpcResponse}

/-- A leader tells a client that its entry is committed. -/
def Tells (w : RaftWorkerState Cmd) (e : Event Cmd) (n : Node Cmd) (tx : ClientSender) : Prop :=
  e = .advanceCommitIndex ∧ ∃ l c, w = .leader l ∧ n = ⟨.leader (Leader.advanced l c), none⟩ ∧
    ∃ i ∈ Leader.passed l c, l.state.inFlightClientRequests.lookup i = some tx

/-- A node tells a client what the leader has said about its request. -/
def PassesOn (w : RaftWorkerState Cmd) (e : Event Cmd) (tx : ClientSender) : Prop :=
  ∃ k token, e = .response k (.ok (.forwardClientRequest (.ok .ack))) ∧ tx = .client token ∧
    (k, token) ∈ w.inner.forwarded

/-- The clients that are told of a commit in a reaction are those that `P` holds of. -/
def AcksOnly (w w' : RaftWorkerInner Cmd) (P : ClientSender → Prop) : Prop :=
  ∃ new, w'.transport.answers = w.transport.answers ++ new ∧ ∀ tx, (tx, .ok .ack) ∈ new → P tx

omit [Bincode (LogEntry Cmd)] in
theorem acks_of_eq {w w' : RaftWorkerInner Cmd} {P : ClientSender → Prop}
    (h : w'.transport.answers = w.transport.answers) : AcksOnly w w' P :=
  ⟨[], h.trans (List.append_nil _).symm, fun _ hmem => absurd hmem List.not_mem_nil⟩

omit [Bincode (LogEntry Cmd)] in
theorem acks_answerForwarded {k : ℕ} {res : RpcResult} (h : w.answerForwarded k res = some n) :
    AcksOnly w.inner n.worker.inner (w.PassesOn (.response k res)) := by
  obtain ⟨token, hk, rfl⟩ := Option.map_eq_some_iff.mp h
  have hmem : (k, token) ∈ w.inner.forwarded := by
    obtain ⟨l, l', hl, -⟩ := List.lookup_eq_some_iff.mp hk
    exact hl ▸ List.mem_append_right _ List.mem_cons_self
  dsimp only
  split
  · rename_i resp
    rw [inner_withInner]
    refine ⟨[(.client token, resp)], rfl, fun tx htx => ?_⟩
    obtain ⟨rfl, rfl⟩ := Prod.mk.inj (List.mem_singleton.mp htx)
    exact ⟨k, token, rfl, rfl, hmem⟩
  · rw [inner_withInner]
    refine ⟨[(.client token, .error .unavailable)], rfl, fun tx htx => ?_⟩
    cases (Prod.mk.inj (List.mem_singleton.mp htx)).2
  · rw [inner_withInner]
    exact acks_of_eq rfl

/-- The end of a call that the worker has made for itself tells no client anything. -/
theorem answers_onAppend (w : RaftWorker Leader Cmd) (task : InFlightAppend) (res : RpcResult) :
    (onAppend w task res).worker.inner.transport.answers = w.inner.transport.answers := by
  refine moves_onAppend (R := fun w w' => w'.transport.answers = w.transport.answers) ?_
  rintro _ rfl
  set u : RaftWorker Leader Cmd := { w with state := { w.state with
    responsesRx := w.state.responsesRx.filter (·.call ≠ task.call) } }
  obtain ⟨resp, v, -, -, hrun, hinner⟩ | ⟨-, v, hv, hrun | ⟨p, hrun⟩⟩ :=
    Leader.handleAppendEntriesResponse_cases task.peerId task.firstEntry task.lastEntry res u
  · rw [hrun]
    show v.inner.transport.answers = _
    rw [hinner]
    exact (RaftWorkerInner.frame_updateTerm u.inner resp.term).answers
  · rw [hrun]
    exact hv.inner.frame.answers
  · rw [hrun]
    exact hv.inner.frame.answers

theorem acks_onResponse {k : ℕ} {res : RpcResult} (h : w.onResponse k res = some n) :
    AcksOnly w.inner n.worker.inner (w.PassesOn (.response k res)) := by
  cases w with
  | follower w => exact acks_answerForwarded h
  | candidate w =>
    rw [onResponse] at h
    split_ifs at h
    · obtain rfl := Option.some.inj h
      refine acks_of_eq ?_
      rw [onVote.eq_def]
      dsimp only
      split
      · split_ifs <;> rfl
      · rfl
      · rfl
    · exact acks_answerForwarded h
  | leader w =>
    rw [onResponse] at h
    split at h
    · obtain rfl := Option.some.inj h
      exact acks_of_eq (answers_onAppend w _ res)
    · exact acks_answerForwarded h

/-- Nobody is answered when a request arrives. -/
theorem answers_onRpc (w : RaftWorkerState Cmd) (caller : NodeId) (k : ℕ) (req : RpcRequest Cmd) :
    (w.onRpc caller k req).1.worker.inner.transport.answers = w.inner.transport.answers := by
  cases req with
  | requestVote req => exact answers_onRpc_requestVote w caller k req
  | appendEntries req => exact answers_onRpc_appendEntries w caller k req
  | forwardClientRequest req =>
    cases w with
    | follower w => rfl
    | candidate w => rfl
    | leader l =>
      obtain ⟨cmd⟩ := req
      have hon : (RaftWorkerState.leader l).on
          (.rpc caller k (.forwardClientRequest (.apply cmd))) =
          some (onRpc caller k (.forwardClientRequest (.apply cmd)) (.leader l)) := rfl
      obtain ⟨v, hsends, hv⟩ := takes_on rfl hon
      have hv : (onRpc caller k (.forwardClientRequest (.apply cmd)) (.leader l)).1.worker =
        .leader v := hv
      rw [hv]
      obtain ⟨calls, hinner⟩ := hsends.inner
      exact congrArg (·.transport.answers) hinner

theorem acks_onClient {token : ℕ} {req : ClientRequest Cmd} (h : w.onClient token req = some n) :
    AcksOnly w.inner n.worker.inner fun _ => False := by
  have hunavailable : ∀ inner : RaftWorkerInner Cmd,
      AcksOnly inner (inner.answer (.client token) (.error .unavailable)) fun _ => False := by
    refine fun inner => ⟨[(.client token, .error .unavailable)], rfl, fun tx htx => ?_⟩
    cases (Prod.mk.inj (List.mem_singleton.mp htx)).2
  obtain ⟨cmd⟩ := req
  cases w with
  | follower w =>
    obtain rfl := Option.some.inj h
    refine moves_innerStep (R := fun w w' => AcksOnly w w' fun _ => False)
      (x := Follower.forwardClientRequest (.apply cmd) token) (.get_bind ?_)
    split
    · split_ifs
      · rintro _ rfl
        exact acks_of_eq rfl
      · exact .modify (hunavailable _)
    · exact .modify (hunavailable _)
  | candidate w =>
    obtain rfl := Option.some.inj h
    exact hunavailable w.inner
  | leader l =>
    have hon : (RaftWorkerState.leader l).on (.client token (.apply cmd)) = some (n, none) := by
      rw [on, h]
      rfl
    obtain ⟨v, hsends, hv⟩ := takes_on rfl hon
    rw [hv]
    obtain ⟨calls, hinner⟩ := hsends.inner
    exact acks_of_eq (congrArg (·.transport.answers) hinner)

/-- **The acknowledgements of a reaction**: a leader tells those whose entries it has committed, and
a node passes on what the leader has told it. -/
theorem acks_on (hplaced : w.inner.storage.Placed) (h : w.on e = some (n, resp)) :
    AcksOnly w.inner n.worker.inner fun tx => w.Tells e n tx ∨ w.PassesOn e tx := by
  cases e with
  | electionTimeout =>
    obtain ⟨n, hn, ⟨rfl, rfl⟩⟩ := Option.map_eq_some_iff.mp h
    have helect : ∀ inner : RaftWorkerInner Cmd,
        (onElectionTimeout.elect inner).worker.inner.transport.answers =
          inner.transport.answers :=
      fun inner => (moves_elect (RaftWorkerInner.follows_startElection_frame inner)).answers
    cases w with
    | follower w =>
      obtain rfl := Option.some.inj hn
      exact acks_of_eq (helect { w.inner with leaderId := none })
    | candidate w =>
      obtain rfl := Option.some.inj hn
      exact acks_of_eq (helect w.inner)
    | leader w => cases hn
  | rpc caller k req =>
    obtain rfl := (Prod.mk.inj (Option.some.inj h)).1
    exact acks_of_eq (answers_onRpc w caller k req)
  | response k res =>
    obtain ⟨n, hn, ⟨rfl, rfl⟩⟩ := Option.map_eq_some_iff.mp h
    obtain ⟨new, hnew, hacks⟩ := acks_onResponse hn
    exact ⟨new, hnew, fun tx htx => .inr (hacks tx htx)⟩
  | heartbeat =>
    obtain ⟨n, hn, ⟨rfl, rfl⟩⟩ := Option.map_eq_some_iff.mp h
    refine acks_of_eq (moves_leaderStep
      (R := fun w w' => w'.transport.answers = w.transport.answers) hn fun l _ => ?_)
    exact (Leader.sendClosed_sends.follows_heartbeat l).mono
      (Q := fun _ v => v.inner.transport.answers = l.inner.transport.answers)
      fun v hv => hv.inner.frame.answers
  | client token req =>
    obtain ⟨n, hn, ⟨rfl, rfl⟩⟩ := Option.map_eq_some_iff.mp h
    obtain ⟨new, hnew, hacks⟩ := acks_onClient hn
    exact ⟨new, hnew, fun tx htx => (hacks tx htx).elim⟩
  | advanceCommitIndex =>
    obtain ⟨n, hn, ⟨rfl, rfl⟩⟩ := Option.map_eq_some_iff.mp h
    cases w with
    | follower w => cases hn
    | candidate w => cases hn
    | leader l =>
      rw [leaderStep] at hn
      obtain ⟨c, -, -, hrun | ⟨p, hrun⟩⟩ := Leader.advanceCommitIndex_run l
      · rw [hrun] at hn
        obtain rfl := Option.some.inj hn
        refine ⟨_, (Leader.advanced_answers l c).1, fun tx htx => .inl ⟨rfl, l, c, rfl, rfl, ?_⟩⟩
        obtain ⟨tx', htold, heq⟩ := List.mem_map.mp htx
        obtain rfl := (Prod.mk.inj heq).1
        exact List.mem_filterMap.mp htold
      · rw [hrun] at hn
        obtain rfl := Option.some.inj hn
        exact acks_of_eq rfl
  | applyLog =>
    obtain rfl := (Prod.mk.inj (Option.some.inj h)).1
    obtain hinner | ⟨es, hinner, -⟩ := innerStep_applyLog hplaced
    · exact acks_of_eq (by rw [hinner])
    · exact acks_of_eq (by rw [hinner]; rfl)
  | connect peer =>
    obtain rfl := (Prod.mk.inj (Option.some.inj h)).1
    exact acks_of_eq (moves_innerStep
      (R := fun w w' => w'.transport.answers = w.transport.answers) (.modify rfl))
  | disconnect peer =>
    obtain rfl := (Prod.mk.inj (Option.some.inj h)).1
    refine acks_of_eq (moves_innerStep
      (R := fun w w' => w'.transport.answers = w.transport.answers) (.modify ?_))
    split <;> rfl

/-- **Who waits after a reaction**: whoever waited before, or the client whose command the leader
has just appended. -/
theorem waiting_on (hplaced : w.inner.storage.Placed) (h : w.on e = some (n, resp))
    {v : RaftWorker Leader Cmd} (hn : n = ⟨.leader v, none⟩) {i : ℕ} {tx : ClientSender}
    (hv : v.state.inFlightClientRequests.lookup i = some tx) : ∃ l, w = .leader l ∧
      (l.state.inFlightClientRequests.lookup i = some tx ∧
          v.inner.storage.currentTerm = l.inner.storage.currentTerm ∨
        ∃ cmd, e.asks = some (tx, cmd) ∧ i = (Leader.newEntry l.inner cmd).idx ∧
          v.inner.storage = l.inner.storage.appended (Leader.newEntry l.inner cmd)) := by
  by_cases hasks : ∃ l tx cmd, w = .leader l ∧ e.asks = some (tx, cmd)
  · obtain ⟨l, tx', cmd, rfl, he⟩ := hasks
    obtain ⟨v', hsends, hv'⟩ := takes_on he h
    rw [hn] at hv'
    obtain rfl := RaftWorkerState.leader.inj hv'
    obtain ⟨calls, hinner⟩ := hsends.inner
    refine ⟨l, rfl, ?_⟩
    rw [hsends.waiting] at hv
    by_cases hi : i = l.inner.storage.lastLogIndex + 1
    · rw [hi] at hv
      obtain rfl := Option.some.inj ((AList.lookup_insert _).symm.trans hv)
      exact .inr ⟨cmd, he, hi, by rw [hinner]; rfl⟩
    · exact .inl ⟨(AList.lookup_insert_ne hi).symm.trans hv, by rw [hinner]; rfl⟩
  · have hasks' : ∀ l tx cmd, w = .leader l → e.asks ≠ some (tx, cmd) :=
      fun l tx cmd hw he => hasks ⟨l, tx, cmd, hw, he⟩
    obtain ⟨l, c, rfl, -, hadvanced⟩ | ⟨-, hturns⟩ := (effect_on h).turns hplaced hasks'
    · rw [hn] at hadvanced
      obtain rfl := RaftWorkerState.leader.inj (congrArg Node.worker hadvanced)
      obtain ⟨answers, hinner⟩ := inner_advanced l c
      refine ⟨l, rfl, .inl ⟨?_, by rw [hinner]⟩⟩
      rw [(Leader.advanced_answers l c).2] at hv
      split_ifs at hv
      exact hv
    · rw [hn] at hturns
      cases hturns with
      | reigns hw _ hwaiting hlog =>
        cases w with
        | leader l =>
          exact ⟨l, rfl, .inl ⟨(congrArg (·.lookup i) hwaiting).symm.trans hv, hlog.currentTerm⟩⟩
        | follower w => cases hw
        | candidate w => cases hw
      | follows hwaiting _ _ _ =>
        rw [show v.state.inFlightClientRequests = ∅ from hwaiting] at hv
        cases hv
      | stops hpanicked _ _ => cases hpanicked

/-- **What is forwarded after a reaction**: what was forwarded before, or the request of a client
that the node has just called another node for, as it does not lead. -/
theorem forwarded_on (hplaced : w.inner.storage.Placed) (h : w.on e = some (n, resp)) {p : ℕ × ℕ}
    (hp : p ∈ n.worker.inner.forwarded) : p ∈ w.inner.forwarded ∨
      ∃ cmd peer, e = .client p.2 (.apply cmd) ∧ w.role ≠ .leader ∧
        p.1 = w.inner.transport.calls.length ∧
        n.worker.inner.transport.calls[p.1]? =
          some (peer, .forwardClientRequest (.apply cmd)) := by
  have heffect := effect_on h
  cases heffect with
  | @forwards token cmd _ peer hw hn =>
    rw [hn, inner_withInner] at hp ⊢
    rcases List.mem_cons.mp hp with rfl | hp
    · exact .inr ⟨cmd, peer, rfl, hw, rfl, List.getElem?_concat_length⟩
    · exact .inl hp
  | aside hframe hrole => exact .inl (hframe.forwarded hp)
  | answers hsub hclient hn =>
    rw [hn, inner_withInner] at hp
    exact .inl (hsub hp)
  | receives _ hrun hn =>
    rw [hn] at hp
    have hreceives := (receives_handleAppendEntries _ _).of_ok hrun
    exact .inl ((frame_heard w _).forwarded (hreceives.forwarded ▸ hp))
  | breaks _ hrun hn =>
    rw [hn, inner_withInner] at hp
    have hreceives := (receives_handleAppendEntries _ _).of_error hrun
    exact .inl ((frame_heard w _).forwarded (hreceives.forwarded ▸ hp))
  | takes hw he hsends hn =>
    obtain ⟨calls, hinner⟩ := hsends.inner
    rw [hn] at hp
    exact .inl (hw ▸ congrArg (·.forwarded) hinner ▸ hp)
  | @advances _ l c hw _ _ hn =>
    obtain ⟨answers, hinner⟩ := inner_advanced l c
    refine .inl (hw ▸ ?_)
    obtain rfl | ⟨p, rfl⟩ := hn
    · exact congrArg (·.forwarded) hinner ▸ hp
    · exact hp
  | applies hn =>
    rw [hn] at hp
    obtain hinner | ⟨es, hinner, -⟩ := innerStep_applyLog hplaced
    · rw [hinner] at hp
      exact .inl hp
    · rw [hinner] at hp
      exact .inl hp

/-- A request that another node forwards is not acknowledged at once. -/
theorem reply_ne_ack {res : ClientResult}
    (h : w.on e = some (n, some (.forwardClientRequest res))) : res ≠ .ok .ack := by
  cases e with
  | rpc caller k req =>
    have hreply : (w.onRpc caller k req).2 = some (.forwardClientRequest res) :=
      congrArg Prod.snd (Option.some.inj h)
    cases req with
    | requestVote req =>
      obtain ⟨-, -, hrpc⟩ | ⟨-, w', hrpc, -⟩ := w.onRpc_requestVote_cases caller k req
      · rw [hrpc] at hreply
        cases hreply
      · rw [hrpc] at hreply
        cases hreply
    | appendEntries req =>
      by_cases hrefuse : w.role = .leader ∧ req.term ≤ w.inner.storage.currentTerm
      · rw [onRpc_appendEntries_of_le hrefuse.1 caller k hrefuse.2] at hreply
        cases hreply
      · rw [onRpc_appendEntries caller k fun hrole =>
          Nat.not_le.mp fun hle => hrefuse ⟨hrole, hle⟩] at hreply
        split at hreply <;> cases hreply
    | forwardClientRequest req =>
      rintro rfl
      cases w with
      | follower w => cases hreply
      | candidate w => cases hreply
      | leader l =>
        have hrpc : (Leader.handleRpc caller k (.forwardClientRequest req)).run l =
            ((do
              Leader.handleClientRequest req (.rpc caller k)
              return (none, .continue)) :
              Rust (RaftWorker Leader Cmd) (Option RpcResponse × StateChange)).run l := rfl
        simp only [onRpc, hrpc, EStateM.run_bind] at hreply
        cases hrun : (Leader.handleClientRequest req (.rpc caller k)).run l with
        | ok u v =>
          rw [hrun] at hreply
          cases hreply
        | error p v =>
          rw [hrun] at hreply
          cases hreply
  | electionTimeout | response | heartbeat | client | advanceCommitIndex =>
    obtain ⟨n, -, heq⟩ := Option.map_eq_some_iff.mp h
    cases heq
  | applyLog | connect | disconnect => cases h

end RaftWorkerState

/-! ### One step of a cluster -/

namespace Cluster

variable {cfg : Config} {c c' : Cluster Cmd} {a : Action Cmd} {i : NodeId}

/-- What the action makes happen, and at which node. -/
def event (c : Cluster Cmd) : Action Cmd → Option (NodeId × Event Cmd)
  | .electionTimeout i => some (i, .electionTimeout)
  | .heartbeat i => some (i, .heartbeat)
  | .advanceCommitIndex i => some (i, .advanceCommitIndex)
  | .applyLog i => some (i, .applyLog)
  | .client i req => some (i, .client c.tokens req)
  | .deliver i k => (c.inner i).transport.calls[k]?.map fun call => (call.1, .rpc i k call.2)
  | .receive i k => (c.replies.lookup (i, k)).map fun resp => (i, .response k (.ok resp))
  | .fail i k err => some (i, .response k (.error err))
  | .relay _ _ => none
  | .connect i p => some (i, .connect p)
  | .disconnect i p => some (i, .disconnect p)
  | .restart _ => none

/-- A step of a cluster is the reaction of a node to an event, or the restart of one, or the answer
of a leader on its way to the node that has forwarded the request. -/
inductive Outcome (c c' : Cluster Cmd) (a : Action Cmd) : Prop
  | reacts {i : NodeId} {e : Event Cmd} {n : Node Cmd} {resp : Option RpcResponse}
      (hevent : c.event a = some (i, e)) (hrunning : (c.nodes i).panicked = none)
      (hon : (c.worker i).on e = some (n, resp)) (hnodes : c'.nodes = (c.setNode i n).nodes)
      (hreplies : ∀ x ∈ c'.replies, x ∈ c.replies ∨ resp = some x.2)
  | restarts {i : NodeId} (hnodes : c'.nodes = (c.setNode i (c.nodes i).restart).nodes)
      (hreplies : c'.replies = c.replies)
  | relays {i j : NodeId} {k : ℕ} {res : ClientResult} (hnodes : c'.nodes = c.nodes)
      (hanswer : (.rpc i k, res) ∈ (c.inner j).transport.answers)
      (hreplies : c'.replies = ((i, k), .forwardClientRequest res) :: c.replies)

theorem running_of_react {e : Event Cmd} {r : Cluster Cmd × Option RpcResponse}
    (h : c.react i e = some r) : (c.nodes i).panicked = none := by
  rw [react] at h
  split at h
  · cases h
  · assumption

/-- What a step comes to, with the requests of clients in it and the calls that were delivered. -/
theorem outcome_of_exec (h : c.exec cfg a = some c') :
    Outcome c c' a ∧ c'.tokens = c.tokens + a.asks.length ∧ c.delivered ⊆ c'.delivered := by
  -- a reaction after which no reply is given
  have hlocal : ∀ {i : NodeId} {e : Event Cmd}, c.event a = some (i, e) → a.asks = [] →
      (if i ∈ cfg.ids then (c.react i e).map (·.1) else none) = some c' →
        Outcome c c' a ∧ c'.tokens = c.tokens + a.asks.length ∧ c.delivered ⊆ c'.delivered := by
    intro i e hevent hasks h
    split_ifs at h with hi
    obtain ⟨r, hr, rfl⟩ := Option.map_eq_some_iff.mp h
    obtain ⟨n, hon, heq⟩ := on_of_react hr
    rw [heq, hasks]
    exact ⟨.reacts hevent (running_of_react hr) hon rfl fun _ => .inl, rfl, List.Subset.refl _⟩
  cases a with
  | electionTimeout i => exact hlocal rfl rfl h
  | heartbeat i => exact hlocal rfl rfl h
  | advanceCommitIndex i => exact hlocal rfl rfl h
  | applyLog i => exact hlocal rfl rfl h
  | disconnect i p => exact hlocal rfl rfl h
  | fail i k err => exact hlocal rfl rfl h
  | connect i p =>
    rw [exec] at h
    split_ifs at h with hmem
    exact hlocal rfl rfl ((if_pos hmem.1).trans h)
  | receive i k =>
    rw [exec] at h
    split_ifs at h with hi
    rcases hresp : c.replies.lookup (i, k) with _ | resp
    · rw [hresp] at h
      cases h
    · rw [hresp] at h
      refine hlocal ?_ rfl ((if_pos hi).trans h)
      rw [event, hresp]
      rfl
  | client i req =>
    rw [exec] at h
    split_ifs at h with hi
    obtain ⟨r, hr, rfl⟩ := Option.map_eq_some_iff.mp h
    obtain ⟨n, hon, heq⟩ := on_of_react hr
    obtain ⟨cmd⟩ := req
    rw [heq]
    exact ⟨.reacts rfl (running_of_react hr) hon rfl fun _ => .inl, rfl, List.Subset.refl _⟩
  | deliver i k =>
    rw [exec] at h
    split_ifs at h with hi
    rcases hcall : (c.inner i).transport.calls[k]? with _ | ⟨dst, req⟩
    · rw [hcall] at h
      cases h
    · rw [hcall] at h
      obtain ⟨r, hr, rfl⟩ := Option.map_eq_some_iff.mp h
      obtain ⟨n, hon, heq⟩ := on_of_react hr
      rw [heq]
      refine ⟨.reacts (by rw [event, hcall]; rfl) (running_of_react hr) hon rfl fun x hx => ?_,
        rfl, List.subset_cons_self _ _⟩
      rcases List.mem_append.mp hx with hx | hx
      · obtain ⟨resp, hresp, rfl⟩ := Option.map_eq_some_iff.mp (Option.mem_toList.mp hx)
        exact .inr hresp
      · exact .inl hx
  | relay j m =>
    rw [exec] at h
    split at h
    · rename_i i k res hanswer
      obtain rfl := Option.some.inj h
      exact ⟨.relays rfl (List.mem_of_getElem? hanswer) rfl, rfl, List.Subset.refl _⟩
    · cases h
  | restart i =>
    rw [exec] at h
    split_ifs at h with hi
    obtain rfl := Option.some.inj h
    exact ⟨.restarts rfl rfl, rfl, List.Subset.refl _⟩

/-! ### What only grows -/

omit [Bincode (LogEntry Cmd)] in
/-- Requests are counted, and calls stay on record, as does that they were delivered. -/
structure Records (c c' : Cluster Cmd) : Prop where
  tokens : c.tokens ≤ c'.tokens
  delivered : c.delivered ⊆ c'.delivered
  calls : ∀ i, (c.inner i).transport.calls <+: (c'.inner i).transport.calls

omit [Bincode (LogEntry Cmd)] in
instance : IsPreorder (Cluster Cmd) Records where
  refl _ := ⟨le_rfl, List.Subset.refl _, fun _ => List.prefix_rfl⟩
  trans _ _ _ h h' := ⟨h.tokens.trans h'.tokens, List.Subset.trans h.delivered h'.delivered,
    fun i => (h.calls i).trans (h'.calls i)⟩

theorem records_of_exec (hc : c.Recorded) (h : c.exec cfg a = some c') : c.Records c' := by
  obtain ⟨houtcome, htokens, hdelivered⟩ := outcome_of_exec h
  refine ⟨htokens.symm ▸ Nat.le_add_right _ _, hdelivered, ?_⟩
  cases houtcome with
  | @reacts i e n resp hevent hrunning hon hnodes hreplies =>
    refine forall_inner (p := fun j w => (c.inner j).transport.calls <+: w.transport.calls) hnodes
      ?_ fun _ => List.prefix_rfl
    rcases RaftWorkerState.changes_on (P := fun _ => True) (hc.ordered i).placed
      (fun _ _ => trivial) hon with hchanges | ⟨token, cmd, peer, -, hinner⟩
    · exact hchanges.prefix_calls
    · rw [hinner]
      exact List.prefix_append _ _
  | @restarts i hnodes hreplies =>
    refine forall_inner (p := fun j w => (c.inner j).transport.calls <+: w.transport.calls) hnodes
      ?_ fun _ => List.prefix_rfl
    rcases (c.nodes i).restart_cases with heq | ⟨s, -, -, -, -, htransport⟩
    · rw [heq]
      exact List.prefix_rfl
    · rw [htransport]
      exact List.prefix_rfl
  | relays hnodes hanswer hreplies =>
    intro j
    rw [inner_congr (congrFun hnodes j)]

/-- What is on record in a state of a run is on record at its end. -/
theorem IsRun.records {r : List (Cluster Cmd)} (h : IsRun cfg (c :: r)) :
    ∀ d ∈ c :: r, d.Records c := by
  refine TransitionSystem.IsRun.rel_head h fun d hd d' hs => ?_
  obtain ⟨a, -, hexec⟩ := hs
  exact records_of_exec (IsRun.recorded h d (List.mem_cons_of_mem _ hd)) hexec

/-! ### Requests -/

variable (cfg) in
/-- In the step from `c` to `c'`, node `i` is asked for a command: by its own client, or by another
node that forwards the request of a client. -/
inductive Asks (c c' : Cluster Cmd) : NodeId → ClientSender → Cmd → Prop
  | client {i : NodeId} {cmd : Cmd} (h : c.exec cfg (.client i (.apply cmd)) = some c') :
      Asks c c' i (.client c.tokens) cmd
  | forwarded {i j : NodeId} {k : ℕ} {cmd : Cmd} (h : c.exec cfg (.deliver i k) = some c')
      (hcall : (c.inner i).transport.calls[k]? = some (j, .forwardClientRequest (.apply cmd))) :
      Asks c c' j (.rpc i k) cmd

theorem asks_of_event (hexec : c.exec cfg a = some c') {e : Event Cmd}
    (hevent : c.event a = some (i, e)) {tx : ClientSender} {cmd : Cmd}
    (he : e.asks = some (tx, cmd)) : Asks cfg c c' i tx cmd := by
  cases a with
  | client j req =>
    obtain ⟨cmd'⟩ := req
    obtain ⟨rfl, rfl⟩ := Prod.mk.inj (Option.some.inj hevent)
    obtain ⟨rfl, rfl⟩ := Prod.mk.inj (Option.some.inj he)
    exact .client hexec
  | deliver j k =>
    obtain ⟨⟨dst, req⟩, hcall, heq⟩ := Option.map_eq_some_iff.mp hevent
    obtain ⟨rfl, rfl⟩ := Prod.mk.inj heq
    cases req with
    | forwardClientRequest req =>
      obtain ⟨cmd'⟩ := req
      obtain ⟨rfl, rfl⟩ := Prod.mk.inj (Option.some.inj he)
      exact .forwarded hexec hcall
    | appendEntries req => cases he
    | requestVote req => cases he
  | receive j k =>
    obtain ⟨resp, -, heq⟩ := Option.map_eq_some_iff.mp hevent
    obtain ⟨rfl, rfl⟩ := Prod.mk.inj heq
    cases he
  | relay | restart => cases hevent
  | electionTimeout | heartbeat | advanceCommitIndex | applyLog | fail | connect | disconnect =>
    obtain ⟨rfl, rfl⟩ := Prod.mk.inj (Option.some.inj hevent)
    cases he

/-- A request of a client is counted, and one that is forwarded is not asked again. -/
theorem Asks.sender {tx : ClientSender} {cmd : Cmd} (h : Asks cfg c c' i tx cmd) :
    tx = .client c.tokens ∧ c'.tokens = c.tokens + 1 ∨
      ∃ j k, tx = .rpc j k ∧ c'.tokens = c.tokens ∧ (j, k) ∉ c.delivered ∧
        c'.delivered = (j, k) :: c.delivered := by
  cases h with
  | client h => exact .inl ⟨rfl, (outcome_of_exec h).2.1⟩
  | @forwarded j _ k cmd h hcall =>
    refine .inr ⟨j, k, rfl, (outcome_of_exec h).2.1, ?_⟩
    rw [exec] at h
    split_ifs at h with hi
    rw [hcall] at h
    obtain ⟨r, hr, rfl⟩ := Option.map_eq_some_iff.mp h
    exact ⟨hi.2, rfl⟩

/-- A step is the request of one sender. -/
theorem Asks.eq_sender {i' : NodeId} {tx tx' : ClientSender} {cmd cmd' : Cmd}
    (h : Asks cfg c c' i tx cmd) (h' : Asks cfg c c' i' tx' cmd') : tx = tx' := by
  rcases h.sender, h'.sender with
    ⟨⟨rfl, hone⟩ | ⟨j, k, rfl, hsame, -, hdelivered⟩,
      ⟨rfl, hone'⟩ | ⟨j', k', rfl, hsame', -, hdelivered'⟩⟩
  · rfl
  · omega
  · omega
  · rw [hdelivered] at hdelivered'
    obtain ⟨rfl, rfl⟩ := Prod.mk.inj (List.cons.inj hdelivered').1
    rfl

variable (cfg) in
/-- In the step from `c` to `c'`, the leader `j` takes the command that `tx` asks for, as an
entry. -/
structure Takes (c c' : Cluster Cmd) (j : NodeId) (tx : ClientSender) (e : LogEntry Cmd) :
    Prop where
  asks : Asks cfg c c' j tx e.cmd
  leader : ∃ l, c.LeaderAt j l ∧ e = Leader.newEntry l.inner e.cmd
  storage : c'.storage j = (c.storage j).appended e

variable (cfg) in
/-- Node `i`, which did not lead, has forwarded the request of its client `token` in call `k`. -/
def Forwarded (r : List (Cluster Cmd)) (i : NodeId) (k token : ℕ) : Prop :=
  ∃ c c' cmd peer, Moves r c c' ∧ Asks cfg c c' i (.client token) cmd ∧
    (∀ l, ¬c.LeaderAt i l) ∧ k = (c.inner i).transport.calls.length ∧
    (c'.inner i).transport.calls[k]? = some (peer, .forwardClientRequest (.apply cmd))

variable (cfg) in
/-- A leader has taken the command of `tx` as the entry `e`, and told `tx` in the same term that it
is committed. -/
def Granted (r : List (Cluster Cmd)) (tx : ClientSender) (e : LogEntry Cmd) : Prop :=
  ∃ j, (∃ c c', Moves r c c' ∧ Takes cfg c c' j tx e) ∧
    ∃ c c', Moves r c c' ∧ c.Acks cfg c' j e.idx ∧ e.term = c.currentTerm j

variable (cfg) in
/-- The sender `tx'` asks for what the client `tx` has asked for. -/
inductive StandsFor (r : List (Cluster Cmd)) : ClientSender → ClientSender → Prop
  | self (tx : ClientSender) : StandsFor r tx tx
  | forwarded {i : NodeId} {k token : ℕ} (h : Forwarded cfg r i k token) :
      StandsFor r (.client token) (.rpc i k)

variable (cfg) in
/-- What `tx` has asked for is granted as the entry `e`, to `tx` itself or to the node that stands
for it. -/
def Answered (r : List (Cluster Cmd)) (tx : ClientSender) (e : LogEntry Cmd) : Prop :=
  ∃ tx', StandsFor cfg r tx tx' ∧ Granted cfg r tx' e

section

variable {q r : List (Cluster Cmd)} {tx tx' : ClientSender} {e : LogEntry Cmd}

theorem Forwarded.of_suffix {k token : ℕ} (h : Forwarded cfg q i k token) (hq : q <:+ r) :
    Forwarded cfg r i k token := by
  obtain ⟨c, c', cmd, peer, hm, hrest⟩ := h
  exact ⟨c, c', cmd, peer, hm.of_suffix hq, hrest⟩

theorem Granted.of_suffix (h : Granted cfg q tx e) (hq : q <:+ r) : Granted cfg r tx e := by
  obtain ⟨j, ⟨c, c', hm, htakes⟩, d, d', hm', hacks⟩ := h
  exact ⟨j, ⟨c, c', hm.of_suffix hq, htakes⟩, d, d', hm'.of_suffix hq, hacks⟩

theorem StandsFor.of_suffix (h : StandsFor cfg q tx tx') (hq : q <:+ r) :
    StandsFor cfg r tx tx' := by
  cases h with
  | self => exact .self tx
  | forwarded h => exact .forwarded (h.of_suffix hq)

theorem Answered.of_suffix (h : Answered cfg q tx e) (hq : q <:+ r) : Answered cfg r tx e := by
  obtain ⟨tx', hstands, hgranted⟩ := h
  exact ⟨tx', hstands.of_suffix hq, hgranted.of_suffix hq⟩

end

/-! ### Along a run -/

variable (cfg) in
/-- What the run `r` up to `c` has to do with those who wait and those who were told. -/
structure Accounts (r : List (Cluster Cmd)) (c : Cluster Cmd) : Prop where
  waits : ∀ i l n tx, c.LeaderAt i l → l.state.inFlightClientRequests.lookup n = some tx →
    ∃ e, (∃ d d', Moves r d d' ∧ Takes cfg d d' i tx e) ∧ e.idx = n ∧ e.term = c.currentTerm i
  forwarded : ∀ i, ∀ p ∈ (c.inner i).forwarded, Forwarded cfg r i p.1 p.2
  answers : ∀ i tx, (tx, .ok .ack) ∈ (c.inner i).transport.answers → ∃ e, Answered cfg r tx e
  replies : ∀ i k, ((i, k), .forwardClientRequest (.ok .ack)) ∈ c.replies →
    ∃ e, Answered cfg r (.rpc i k) e

theorem accounts_boot : Accounts cfg [boot cfg] (boot cfg : Cluster Cmd) where
  waits i l n tx hl _ := by cases hl
  forwarded i p hp := by cases hp
  answers i tx htx := by cases htx
  replies i k hk := by cases hk

omit [Bincode (LogEntry Cmd)] in
/-- Only the leader's own task wakes it to advance the commit index. -/
theorem action_of_advance (h : c.event a = some (i, .advanceCommitIndex)) :
    a = .advanceCommitIndex i := by
  cases a with
  | advanceCommitIndex j =>
    obtain ⟨rfl, -⟩ := Prod.mk.inj (Option.some.inj h)
    rfl
  | deliver j k =>
    obtain ⟨call, -, heq⟩ := Option.map_eq_some_iff.mp h
    cases (Prod.mk.inj heq).2
  | receive j k =>
    obtain ⟨resp, -, heq⟩ := Option.map_eq_some_iff.mp h
    cases (Prod.mk.inj heq).2
  | relay | restart => cases h
  | electionTimeout | heartbeat | applyLog | client | fail | connect | disconnect =>
    cases (Prod.mk.inj (Option.some.inj h)).2

omit [Bincode (LogEntry Cmd)] in
/-- A response that a node receives was given. -/
theorem mem_replies_of_response {k : ℕ} {resp : RpcResponse}
    (h : c.event a = some (i, .response k (.ok resp))) : ((i, k), resp) ∈ c.replies := by
  cases a with
  | receive j m =>
    obtain ⟨resp', hlookup, heq⟩ := Option.map_eq_some_iff.mp h
    obtain ⟨rfl, hresponse⟩ := Prod.mk.inj heq
    obtain ⟨rfl, hres⟩ := Event.response.inj hresponse
    obtain rfl := Except.ok.inj hres
    obtain ⟨l, l', hl, -⟩ := List.lookup_eq_some_iff.mp hlookup
    exact hl ▸ List.mem_append_right _ List.mem_cons_self
  | deliver j m =>
    obtain ⟨call, -, heq⟩ := Option.map_eq_some_iff.mp h
    cases (Prod.mk.inj heq).2
  | fail j m err =>
    obtain ⟨-, heq⟩ := Prod.mk.inj (Option.some.inj h)
    cases (Event.response.inj heq).2
  | relay | restart => cases h
  | electionTimeout | heartbeat | advanceCommitIndex | applyLog | client | connect | disconnect =>
    cases (Prod.mk.inj (Option.some.inj h)).2

section

variable {r : List (Cluster Cmd)}

omit [Bincode (LogEntry Cmd)] in
theorem leaderAt_of_worker {l : RaftWorker Leader Cmd} (hrunning : (c.nodes i).panicked = none)
    (hl : c.worker i = .leader l) : c.LeaderAt i l := by
  rw [LeaderAt, ← hrunning, ← hl]
  rfl

namespace Accounts

/-- Those who wait at a node that has not changed go on waiting. -/
theorem waits_of_eq (h : Accounts cfg (c :: r) c) (hnode : c'.nodes i = c.nodes i)
    {l : RaftWorker Leader Cmd} {n : ℕ} {tx : ClientSender} (hl : c'.LeaderAt i l)
    (hn : l.state.inFlightClientRequests.lookup n = some tx) :
    ∃ e, (∃ d d', Moves (c' :: c :: r) d d' ∧ Takes cfg d d' i tx e) ∧ e.idx = n ∧
      e.term = c'.currentTerm i := by
  obtain ⟨e, ⟨d, d', hm, htakes⟩, hidx, hterm⟩ := h.waits i l n tx (hnode.symm.trans hl) hn
  refine ⟨e, ⟨d, d', hm.of_suffix (List.suffix_cons _ _), htakes⟩, hidx, hterm.trans ?_⟩
  rw [currentTerm, currentTerm, storage_congr hnode]

/-- Nothing but the replies has changed, and no new acknowledgement is among these. -/
theorem of_nodes (h : Accounts cfg (c :: r) c) (hnodes : c'.nodes = c.nodes)
    (hreplies : ∀ i k, ((i, k), .forwardClientRequest (.ok .ack)) ∈ c'.replies →
      ∃ e, Answered cfg (c :: r) (.rpc i k) e) : Accounts cfg (c' :: c :: r) c' := by
  have hsuf : (c :: r) <:+ c' :: c :: r := List.suffix_cons _ _
  have hinner : ∀ i, c'.inner i = c.inner i := fun i => inner_congr (congrFun hnodes i)
  refine ⟨fun i l n tx hl hn => h.waits_of_eq (congrFun hnodes i) hl hn, fun i p hp => ?_,
    fun i tx htx => ?_, fun i k hk => ?_⟩
  · exact (h.forwarded i p (hinner i ▸ hp)).of_suffix hsuf
  · exact (h.answers i tx (hinner i ▸ htx)).imp fun _ he => he.of_suffix hsuf
  · exact (hreplies i k hk).imp fun _ he => he.of_suffix hsuf

section

variable {ev : Event Cmd} {n : Node Cmd} {resp : Option RpcResponse}

/-- Those who wait at the node that has reacted. -/
theorem waits_on (h : Accounts cfg (c :: r) c) (hplaced : (c.worker i).inner.storage.Placed)
    (hexec : c.exec cfg a = some c') (hevent : c.event a = some (i, ev))
    (hrunning : (c.nodes i).panicked = none) (hon : (c.worker i).on ev = some (n, resp))
    (hnode : c'.nodes i = n) {v : RaftWorker Leader Cmd} {m : ℕ} {tx : ClientSender}
    (hv : c'.LeaderAt i v) (hm : v.state.inFlightClientRequests.lookup m = some tx) :
    ∃ e, (∃ d d', Moves (c' :: c :: r) d d' ∧ Takes cfg d d' i tx e) ∧ e.idx = m ∧
      e.term = c'.currentTerm i := by
  obtain ⟨l, hl, ⟨hold, hterm⟩ | ⟨cmd, hasks, hidx, hstorage⟩⟩ :=
    RaftWorkerState.waiting_on hplaced hon (hnode.symm.trans hv) hm
  · have hlead := leaderAt_of_worker hrunning hl
    obtain ⟨e, ⟨d, d', hd, htakes⟩, hidx, heterm⟩ := h.waits i l m tx hlead hold
    refine ⟨e, ⟨d, d', hd.of_suffix (List.suffix_cons _ _), htakes⟩, hidx, heterm.trans ?_⟩
    rw [currentTerm, currentTerm, storage, storage, hlead.inner, hv.inner, hterm]
  · -- the entry has just been taken
    have hlead := leaderAt_of_worker hrunning hl
    have hstorage' : c'.storage i = (c.storage i).appended (Leader.newEntry l.inner cmd) := by
      rw [storage, storage, hv.inner, hlead.inner, hstorage]
    refine ⟨Leader.newEntry l.inner cmd, ⟨c, c', moves_cons_cons.mpr (.inl ⟨rfl, rfl⟩),
      ⟨asks_of_event hexec hevent hasks, ⟨l, hlead, rfl⟩, hstorage'⟩⟩, hidx.symm, ?_⟩
    rw [currentTerm, storage, hv.inner, hstorage]
    rfl

/-- Those who are told something by the node that has reacted. -/
theorem answers_on (h : Accounts cfg (c :: r) c) (hplaced : (c.worker i).inner.storage.Placed)
    (hexec : c.exec cfg a = some c') (hevent : c.event a = some (i, ev))
    (hrunning : (c.nodes i).panicked = none) (hon : (c.worker i).on ev = some (n, resp))
    (hnode : c'.nodes i = n) {tx : ClientSender}
    (htx : (tx, .ok .ack) ∈ n.worker.inner.transport.answers) :
    ∃ e, Answered cfg (c' :: c :: r) tx e := by
  have hsuf : (c :: r) <:+ c' :: c :: r := List.suffix_cons _ _
  obtain ⟨new, hnew, hacks⟩ := RaftWorkerState.acks_on hplaced hon
  have htold := htx
  rw [hnew] at htold
  rcases List.mem_append.mp htold with hold | hmem
  · exact (h.answers i tx hold).imp fun _ he => he.of_suffix hsuf
  rcases hacks tx hmem with ⟨rfl, l, m, hl, hn, k, hk, hlookup⟩ | ⟨k, token, rfl, rfl, hk⟩
  · -- the leader has committed the entry that `tx` waits for
    obtain rfl := action_of_advance hevent
    have hlead := leaderAt_of_worker hrunning hl
    obtain ⟨e, ⟨d, d', hd, htakes⟩, rfl, hterm⟩ := h.waits i l k tx hlead hlookup
    refine ⟨e, tx, .self tx, i, ⟨d, d', hd.of_suffix hsuf, htakes⟩, c, c',
      moves_cons_cons.mpr (.inl ⟨rfl, rfl⟩),
      ⟨hexec, l, Leader.advanced l m, tx, hlead, hnode.trans hn, hlookup, ?_, ?_⟩, hterm⟩
    · rw [(Leader.advanced_answers l m).2, if_pos hk]
    · rwa [hn] at htx
  · -- the leader's answer to the forwarded request
    obtain ⟨e, tx', hstands, hgranted⟩ := h.replies i k (mem_replies_of_response hevent)
    cases hstands with
    | self =>
      exact ⟨e, .rpc i k, .forwarded ((h.forwarded i _ hk).of_suffix hsuf),
        hgranted.of_suffix hsuf⟩

/-- A node reacts. -/
theorem reacts (h : Accounts cfg (c :: r) c) (hplaced : (c.worker i).inner.storage.Placed)
    (hexec : c.exec cfg a = some c') (hevent : c.event a = some (i, ev))
    (hrunning : (c.nodes i).panicked = none) (hon : (c.worker i).on ev = some (n, resp))
    (hnodes : c'.nodes = (c.setNode i n).nodes)
    (hreplies : ∀ x ∈ c'.replies, x ∈ c.replies ∨ resp = some x.2) :
    Accounts cfg (c' :: c :: r) c' := by
  have hsuf : (c :: r) <:+ c' :: c :: r := List.suffix_cons _ _
  have hnode : c'.nodes i = n := by rw [hnodes, nodes_setNode_self]
  refine ⟨fun j v m tx hv hm => ?_, ?_, ?_, fun j k hk => ?_⟩
  · by_cases hj : j = i
    · subst hj
      exact h.waits_on hplaced hexec hevent hrunning hon hnode hv hm
    · exact h.waits_of_eq (by rw [hnodes, nodes_setNode_of_ne c hj]) hv hm
  · refine forall_inner (p := fun j w => ∀ p ∈ w.forwarded,
      Forwarded cfg (c' :: c :: r) j p.1 p.2) hnodes (fun p hp => ?_)
      fun j p hp => (h.forwarded j p hp).of_suffix hsuf
    rcases RaftWorkerState.forwarded_on hplaced hon hp with
      hold | ⟨cmd, peer, rfl, hrole, hk, hcall⟩
    · exact (h.forwarded i p hold).of_suffix hsuf
    · refine ⟨c, c', cmd, peer, moves_cons_cons.mpr (.inl ⟨rfl, rfl⟩),
        asks_of_event hexec hevent rfl, fun l hl => ?_, hk, ?_⟩
      · rw [hl.worker] at hrole
        exact hrole rfl
      · rw [inner, worker, hnode]
        exact hcall
  · exact forall_inner (p := fun _ w => ∀ tx, (tx, .ok .ack) ∈ w.transport.answers →
      ∃ e, Answered cfg (c' :: c :: r) tx e) hnodes
      (fun _ htx => h.answers_on hplaced hexec hevent hrunning hon hnode htx)
      fun j tx htx => (h.answers j tx htx).imp fun _ he => he.of_suffix hsuf
  · rcases hreplies _ hk with hold | rfl
    · exact (h.replies j k hold).imp fun _ he => he.of_suffix hsuf
    · exact absurd rfl (RaftWorkerState.reply_ne_ack hon)

end

/-- A node is restarted: it does not lead, and has forwarded nothing. -/
theorem restarts (h : Accounts cfg (c :: r) c)
    (hnodes : c'.nodes = (c.setNode i (c.nodes i).restart).nodes)
    (hreplies : c'.replies = c.replies) : Accounts cfg (c' :: c :: r) c' := by
  have hsuf : (c :: r) <:+ c' :: c :: r := List.suffix_cons _ _
  refine ⟨fun j v m tx hv hm => ?_, ?_, ?_, fun j k hk => ?_⟩
  · by_cases hj : j = i
    · subst hj
      rw [LeaderAt, hnodes, nodes_setNode_self, Node.restart] at hv
      split at hv
      · cases hv
      · cases congrArg Node.panicked hv
    · exact h.waits_of_eq (by rw [hnodes, nodes_setNode_of_ne c hj]) hv hm
  · refine forall_inner (p := fun j w => ∀ p ∈ w.forwarded,
      Forwarded cfg (c' :: c :: r) j p.1 p.2) hnodes (fun p hp => ?_)
      fun j p hp => (h.forwarded j p hp).of_suffix hsuf
    rw [Node.restart] at hp
    split at hp
    · rw [show _ = [] from Ledger.forwarded_of_start ‹_›] at hp
      cases hp
    · exact (h.forwarded i p hp).of_suffix hsuf
  · refine forall_inner (p := fun _ w => ∀ tx, (tx, .ok .ack) ∈ w.transport.answers →
      ∃ e, Answered cfg (c' :: c :: r) tx e) hnodes
      (fun tx htx => (h.answers i tx ?_).imp fun _ he => he.of_suffix hsuf)
      fun j tx htx => (h.answers j tx htx).imp fun _ he => he.of_suffix hsuf
    rcases (c.nodes i).restart_cases with heq | ⟨s, -, -, -, -, htransport⟩
    · rwa [heq] at htx
    · rwa [htransport] at htx
  · exact (h.replies j k (hreplies ▸ hk)).imp fun _ he => he.of_suffix hsuf

/-- **A step keeps the accounts.** -/
theorem next (h : Accounts cfg (c :: r) c) (hc : c.Recorded) (hexec : c.exec cfg a = some c') :
    Accounts cfg (c' :: c :: r) c' := by
  cases (outcome_of_exec hexec).1 with
  | @reacts i _ _ _ hevent hrunning hon hnodes hreplies =>
    exact h.reacts (hc.ordered i).placed hexec hevent hrunning hon hnodes hreplies
  | restarts hnodes hreplies => exact h.restarts hnodes hreplies
  | relays hnodes hanswer hreplies =>
    refine h.of_nodes hnodes fun i k hk => ?_
    rw [hreplies] at hk
    rcases List.mem_cons.mp hk with heq | hk
    · obtain ⟨hcall, hres⟩ := Prod.mk.inj heq
      obtain ⟨rfl, rfl⟩ := Prod.mk.inj hcall
      obtain rfl := RpcResponse.forwardClientRequest.inj hres
      exact h.answers _ _ hanswer
    · exact h.replies i k hk

end Accounts

/-- **The accounts of a run.** -/
theorem IsRun.accounts (h : IsRun cfg (c :: r)) : Accounts cfg (c :: r) c := by
  induction r generalizing c with
  | nil =>
    cases h with
    | start h =>
      obtain rfl := h
      exact accounts_boot
  | cons d r ih =>
    cases h with
    | next h hs =>
      obtain ⟨a, -, hexec⟩ := hs
      exact (ih h).next (IsRun.recorded h d List.mem_cons_self) hexec

end

end Cluster

end Wraft
