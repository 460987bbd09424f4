import Wraft.Raft.Application
import Wraft.Raft.Provenance
import Wraft.Raft.Replication

/-!
# One call at a time

A leader makes its `AppendEntries` calls to a peer one after the other: `in_flight_peers` are the
peers of the tasks that wait for a response, each of which has one task, and as long as the task
waits no other such call is made to its peer (`Leader.Paced`). The leader keeps this whatever
happens to it (`RaftWorkerState.paced_on`), and a node that leads has it from its election on
(`calls_in_turn`).

A call that fails frees its peer and moves no index, and a heartbeat calls every connected peer
that is free. So what was lost is sent again, from the same index.
-/

namespace Wraft

open EStateM (Follows)
open TransitionSystem

variable {Cmd : Type}

/-! ### Tasks and calls -/

/-- The task waits for an `AppendEntries` call to its peer, and that is the last one made. -/
structure InFlightAppend.Waits (task : InFlightAppend) (calls : List (NodeId × RpcRequest Cmd)) :
    Prop where
  call : ∃ req, calls[task.call]? = some (task.peerId, .appendEntries req)
  last : ∀ k req, calls[k]? = some (task.peerId, .appendEntries req) → k ≤ task.call

namespace InFlightAppend

theorem Waits.concat {task : InFlightAppend} {calls : List (NodeId × RpcRequest Cmd)}
    (h : task.Waits calls) {peer : NodeId} (hne : task.peerId ≠ peer) (req : RpcRequest Cmd) :
    task.Waits (calls ++ [(peer, req)]) where
  call := by
    obtain ⟨req', hk⟩ := h.call
    exact ⟨req', by rw [List.getElem?_append_left (List.getElem?_eq_some_iff.mp hk).1, hk]⟩
  last k req' hk := by
    rcases RaftWorkerInner.getElem?_concat_eq_some hk with hk | ⟨-, heq⟩
    · exact h.last k req' hk
    · exact absurd (congrArg Prod.fst heq).symm hne

/-- The task of a call that was just made. -/
theorem waits_concat (calls : List (NodeId × RpcRequest Cmd)) (peer : NodeId)
    (req : AppendEntriesRequest Cmd) (first last : ℕ) :
    (InFlightAppend.mk calls.length peer first last).Waits
      (calls ++ [(peer, .appendEntries req)]) where
  call := ⟨req, List.getElem?_concat_length⟩
  last k req' hk := by
    have hlt := (List.getElem?_eq_some_iff.mp hk).1
    rw [List.length_append, List.length_singleton] at hlt
    exact Nat.le_of_lt_succ hlt

end InFlightAppend

namespace Leader

/-- What a leader has outstanding: at most one call to each peer, the last one made to it. -/
structure Paced (w : RaftWorker Leader Cmd) : Prop where
  peers : w.state.inFlightPeers = (w.state.responsesRx.map (·.peerId)).toFinset
  nodup : (w.state.responsesRx.map (·.peerId)).Nodup
  waits : ∀ task ∈ w.state.responsesRx, task.Waits w.inner.transport.calls

theorem Paced.mem_inFlightPeers {w : RaftWorker Leader Cmd} (h : Paced w) {p : NodeId} :
    p ∈ w.state.inFlightPeers ↔ ∃ task ∈ w.state.responsesRx, task.peerId = p := by
  rw [h.peers, List.mem_toFinset, List.mem_map]

theorem Paced.eq_of_peerId {w : RaftWorker Leader Cmd} (h : Paced w) {t t' : InFlightAppend}
    (ht : t ∈ w.state.responsesRx) (ht' : t' ∈ w.state.responsesRx) (heq : t.peerId = t'.peerId) :
    t = t' :=
  List.inj_on_of_nodup_map h.nodup ht ht' heq

theorem Paced.eq_of_call {w : RaftWorker Leader Cmd} (h : Paced w) {t t' : InFlightAppend}
    (ht : t ∈ w.state.responsesRx) (ht' : t' ∈ w.state.responsesRx) (heq : t.call = t'.call) :
    t = t' := by
  obtain ⟨req, hcall⟩ := (h.waits t ht).call
  obtain ⟨req', hcall'⟩ := (h.waits t' ht').call
  rw [heq, hcall'] at hcall
  exact h.eq_of_peerId ht ht' (congrArg Prod.fst (Option.some.inj hcall)).symm

/-- The leader keeps its pace. -/
def KeepsPace (w w' : RaftWorker Leader Cmd) : Prop := Paced w → Paced w'

instance : IsPreorder (RaftWorker Leader Cmd) KeepsPace where
  refl _ := id
  trans _ _ _ h h' := h' ∘ h

/-- Nothing that concerns the calls has changed. -/
theorem keepsPace_of_eq {w w' : RaftWorker Leader Cmd}
    (hcalls : w'.inner.transport.calls = w.inner.transport.calls)
    (hpeers : w'.state.inFlightPeers = w.state.inFlightPeers)
    (htasks : w'.state.responsesRx = w.state.responsesRx) : KeepsPace w w' := fun h =>
  { peers := by rw [hpeers, htasks, h.peers]
    nodup := htasks ▸ h.nodup
    waits := by
      rw [htasks, hcalls]
      exact h.waits }

theorem paced_toLeader (w : RaftWorker Candidate Cmd) : Paced w.toLeader where
  peers := rfl
  nodup := List.nodup_nil
  waits _ h := absurd h List.not_mem_nil

/-- The end of a task frees its peer. -/
theorem Paced.ended {w : RaftWorker Leader Cmd} (h : Paced w) {task : InFlightAppend}
    (htask : task ∈ w.state.responsesRx) : Paced (ended w task) where
  peers := by
    ext p
    simp only [Leader.ended, Finset.mem_erase, h.mem_inFlightPeers, List.mem_toFinset,
      List.mem_map, List.mem_filter, decide_eq_true_eq]
    constructor
    · rintro ⟨hne, t, ht, rfl⟩
      exact ⟨t, ⟨ht, fun heq => hne (congrArg (·.peerId) (h.eq_of_call ht htask heq))⟩, rfl⟩
    · rintro ⟨t, ⟨ht, hne⟩, rfl⟩
      exact ⟨fun heq => hne (congrArg (·.call) (h.eq_of_peerId ht htask heq)), t, ht, rfl⟩
  nodup := h.nodup.sublist (List.filter_sublist.map _)
  waits t ht := h.waits t (List.mem_of_mem_filter ht)

/-- The worker after a request was sent to `peer`, whatever is in the request. -/
def asked (w : RaftWorker Leader Cmd) (peer : NodeId) (req : AppendEntriesRequest Cmd)
    (first last : ℕ) : RaftWorker Leader Cmd where
  inner := { w.inner with transport := { w.inner.transport with
    calls := w.inner.transport.calls ++ [(peer, .appendEntries req)] } }
  state := { w.state with
    inFlightPeers := insert peer w.state.inFlightPeers
    responsesRx := ⟨w.inner.transport.calls.length, peer, first, last⟩ :: w.state.responsesRx }

theorem keepsPace_asked {w : RaftWorker Leader Cmd} {peer : NodeId}
    (hfree : peer ∉ w.state.inFlightPeers) (req : AppendEntriesRequest Cmd) (first last : ℕ) :
    KeepsPace w (asked w peer req first last) := by
  intro h
  have hne : ∀ t ∈ w.state.responsesRx, t.peerId ≠ peer := fun t ht heq =>
    hfree (h.mem_inFlightPeers.mpr ⟨t, ht, heq⟩)
  refine { peers := ?_, nodup := ?_, waits := ?_ }
  · rw [asked, List.map_cons, List.toFinset_cons, h.peers]
  · refine List.nodup_cons.mpr ⟨fun hmem => ?_, h.nodup⟩
    obtain ⟨t, ht, heq⟩ := List.mem_map.mp hmem
    exact hne t ht heq
  · intro t ht
    rcases List.mem_cons.mp ht with rfl | ht
    · exact InFlightAppend.waits_concat _ _ _ _ _
    · exact (h.waits t ht).concat (hne t ht) _

variable [Bincode (LogEntry Cmd)]

/-- **`append_entries`**, whatever the log: it does nothing for a peer that is not connected or
that a task waits for, or panics, or makes a call. -/
theorem appendEntries_run (peer : NodeId) (w : RaftWorker Leader Cmd) :
    ((appendEntries peer).run w = .ok () w ∧ (peer ∈ w.state.inFlightPeers ∨
      ∀ client, w.inner.peerClients.lookup peer = some client → client.connected = false)) ∨
    (∃ p, (appendEntries peer).run w = .error p w) ∨
    ∃ req first last, peer ∉ w.state.inFlightPeers ∧
      (appendEntries peer).run w = .ok () (asked w peer req first last) := by
  rw [appendEntries, EStateM.run_bind_of_ok (EStateM.run_get _)]
  rcases w.inner.peerClients.lookup peer with _ | client
  · exact .inl ⟨rfl, .inr fun _ h => absurd h.symm (Option.some_ne_none _)⟩
  dsimp only
  by_cases hskip : ¬client.connected ∨ peer ∈ w.state.inFlightPeers
  · rw [if_pos hskip]
    refine .inl ⟨rfl, hskip.symm.imp_right fun hoff client' heq => ?_⟩
    obtain rfl := Option.some.inj heq
    exact Bool.eq_false_iff.mpr hoff
  rw [if_neg hskip]
  refine .inr ?_
  rcases w.state.nextIndices.lookup peer with _ | next
  · exact .inl ⟨_, rfl⟩
  dsimp only
  rcases Nat.lt_or_ge next 1 with hlt | hge
  · exact .inl ⟨_, EStateM.run_bind_of_error (u64Sub_run_of_lt hlt w)⟩
  rw [EStateM.run_bind_of_ok (u64Sub_run_of_le hge w)]
  rcases prevLogTerm w.inner.storage (next - 1) with p | prevLogTerm
  · exact .inl ⟨p, rfl⟩
  rcases w.inner.storage.sublog (List.range' next maxBatchSize) with p | entries
  · exact .inl ⟨p, rfl⟩
  exact .inr ⟨_, _, _, fun hin => hskip (.inr hin), rfl⟩

theorem keepsPace_appendEntries (peer : NodeId) (w : RaftWorker Leader Cmd) :
    Follows KeepsPace w (appendEntries peer) := by
  rintro _ rfl
  obtain ⟨hrun, -⟩ | ⟨p, hrun⟩ | ⟨req, first, last, hfree, hrun⟩ := appendEntries_run peer w
  · rw [hrun]
    exact id
  · rw [hrun]
    exact id
  · rw [hrun]
    exact keepsPace_asked hfree req first last

theorem keepsPace_appendEntriesToAll (peers : List NodeId) (w : RaftWorker Leader Cmd) :
    Follows KeepsPace w (appendEntriesToAll peers) := by
  induction peers generalizing w with
  | nil => exact .pure
  | cons peer peers ih => exact .bind (keepsPace_appendEntries peer w) fun _ w' => ih w'

theorem keepsPace_moveIndices (peer : NodeId) (first last : ℕ) (success : Bool)
    (w : RaftWorker Leader Cmd) : Follows KeepsPace w (moveIndices peer first last success) := by
  refine .get_bind ?_
  split
  · exact .throw
  split_ifs
  · refine .bind (.set (keepsPace_of_eq rfl rfl rfl)) fun _ w' => ?_
    split
    · exact .throw
    · exact .modify (keepsPace_of_eq rfl rfl rfl)
  · exact follows_u64Sub_bind fun start => .bind (.set (keepsPace_of_eq rfl rfl rfl))
      fun _ w' => keepsPace_appendEntries peer w'

/-- The end of a call: the peer is free, and may be called again. -/
theorem Paced.handleAppendEntriesResponse {w : RaftWorker Leader Cmd} (h : Paced w)
    {task : InFlightAppend} (htask : task ∈ w.state.responsesRx) (res : RpcResult) :
    EStateM.Triple
      ({ w with state := { w.state with
        responsesRx := w.state.responsesRx.filter (·.call ≠ task.call) } } = ·)
      (Leader.handleAppendEntriesResponse task.peerId task.firstEntry task.lastEntry res)
      (fun _ => Paced) (fun _ => Paced) := by
  rintro _ rfl
  have hended := h.ended htask
  match res with
  | .error _ => exact hended
  | .ok (.requestVote _) => exact hended
  | .ok (.forwardClientRequest _) => exact hended
  | .ok (.appendEntries resp) =>
    have hrest : Follows KeepsPace (Leader.ended w task) (do
        if ← withInner (modifyGet (·.updateTerm resp.term)) then return StateChange.becomeFollower
        else
          unless resp.term < (← get).inner.storage.currentTerm do
            moveIndices task.peerId task.firstEntry task.lastEntry resp.success
          return .continue) := by
      refine .bind ?_ fun newTerm u => ?_
      · rintro _ rfl
        rw [withInner_updateTerm]
        refine keepsPace_of_eq ?_ rfl rfl
        rw [RaftWorkerInner.updateTerm]
      · split_ifs
        · exact .pure
        · refine .get_bind ?_
          dsimp only
          split_ifs
          · exact .pure
          · exact .bind (keepsPace_moveIndices _ _ _ _ u) fun _ _ => .pure
    exact hrest.mono (Q := fun _ => Paced) (fun v hv => hv hended) _ rfl

/-- Clients that wait and the commit index have nothing to do with the calls. -/
theorem keepsPace_advanceCommitIndex (w : RaftWorker Leader Cmd) :
    Follows KeepsPace w advanceCommitIndex := by
  rintro _ rfl
  obtain ⟨c, -, -, hrun | ⟨p, hrun⟩⟩ := advanceCommitIndex_run w
  · rw [hrun]
    obtain ⟨answers, waiting, heq, -⟩ := acknowledge_eq
      (List.range' (w.inner.commitIndex + 1) (c - w.inner.commitIndex)) (committed w c)
    show KeepsPace w (acknowledge _ _)
    rw [heq]
    exact keepsPace_of_eq rfl rfl rfl
  · rw [hrun]
    exact keepsPace_of_eq rfl rfl rfl

theorem keepsPace_handleClientRequest (req : ClientRequest Cmd) (tx : ClientSender)
    (w : RaftWorker Leader Cmd) : Follows KeepsPace w (handleClientRequest req tx) := by
  obtain ⟨cmd⟩ := req
  rintro _ rfl
  have htaken : KeepsPace w (taken w cmd tx) := keepsPace_of_eq rfl rfl rfl
  rw [handleClientRequest_run]
  exact ((keepsPace_appendEntriesToAll w.inner.peers (taken w cmd tx)).mono
    (Q := fun _ => KeepsPace w) fun v hv => hv ∘ htaken) _ rfl

/-- After `append_entries` for them, every peer that is connected has been called. -/
theorem mem_inFlightPeers_of_appendEntriesToAll {peers : List NodeId}
    {w w' : RaftWorker Leader Cmd} (h : (appendEntriesToAll peers).run w = .ok () w') :
    w.state.inFlightPeers ⊆ w'.state.inFlightPeers ∧ ∀ p ∈ peers, ∀ client,
      w.inner.peerClients.lookup p = some client → client.connected = true →
        p ∈ w'.state.inFlightPeers := by
  induction peers generalizing w with
  | nil =>
    cases h
    exact ⟨Finset.Subset.refl _, fun p hp => absurd hp List.not_mem_nil⟩
  | cons peer peers ih =>
    obtain ⟨_, v, hpeer, hpeers⟩ := EStateM.run_bind_eq_ok_iff.mp h
    obtain ⟨hgrow, hall⟩ := ih hpeers
    -- what the call to the first peer has done
    have hstep : w.state.inFlightPeers ⊆ v.state.inFlightPeers ∧
        v.inner.peerClients = w.inner.peerClients ∧ ∀ client,
          w.inner.peerClients.lookup peer = some client → client.connected = true →
            peer ∈ v.state.inFlightPeers := by
      obtain ⟨hrun, hskip⟩ | ⟨p, hrun⟩ | ⟨req, first, last, -, hrun⟩ := appendEntries_run peer w
      · rw [hrun] at hpeer
        cases hpeer
        refine ⟨Finset.Subset.refl _, rfl, fun client hclient hon => ?_⟩
        exact hskip.resolve_right fun hoff => absurd hon (by simp [hoff client hclient])
      · rw [hrun] at hpeer
        cases hpeer
      · rw [hrun] at hpeer
        cases hpeer
        exact ⟨Finset.subset_insert _ _, rfl, fun _ _ _ => Finset.mem_insert_self _ _⟩
    obtain ⟨hsub, hclients, hcalled⟩ := hstep
    refine ⟨hsub.trans hgrow, fun p hp client hclient hon => ?_⟩
    rcases List.mem_cons.mp hp with rfl | hp
    · exact hgrow (hcalled client hclient hon)
    · exact hall p hp client (hclients ▸ hclient) hon

end Leader

/-! ### Reactions -/

namespace RaftWorkerState

/-- A worker that makes its calls one at a time, if it is a leader. -/
def Paced : RaftWorkerState Cmd → Prop
  | .leader w => Leader.Paced w
  | _ => True

theorem paced_of_role {w : RaftWorkerState Cmd} (h : w.role ≠ .leader) : w.Paced := by
  cases w with
  | leader w => exact absurd rfl h
  | follower w => trivial
  | candidate w => trivial

theorem Paced.withInner {w : RaftWorkerState Cmd} (h : w.Paced) {inner : RaftWorkerInner Cmd}
    (hcalls : inner.transport.calls = w.inner.transport.calls) : (w.withInner inner).Paced := by
  cases w with
  | leader w => exact Leader.keepsPace_of_eq hcalls rfl rfl h
  | follower w => trivial
  | candidate w => trivial

theorem Paced.answerForwarded {w : RaftWorkerState Cmd} (h : w.Paced) {k : ℕ} {res : RpcResult}
    {n : Node Cmd} (hn : w.answerForwarded k res = some n) : n.worker.Paced := by
  obtain ⟨token, -, rfl⟩ := Option.map_eq_some_iff.mp hn
  dsimp only
  split
  · exact h.withInner rfl
  · exact h.withInner rfl
  · exact h.withInner rfl

/-- The worker has the same calls on record. -/
def SameCalls (w w' : RaftWorkerInner Cmd) : Prop := w'.transport.calls = w.transport.calls

instance : IsPreorder (RaftWorkerInner Cmd) SameCalls where
  refl _ := rfl
  trans _ _ _ h h' := Eq.trans h' h

theorem Paced.innerStep {w : RaftWorkerState Cmd} (h : w.Paced)
    {x : Rust (RaftWorkerInner Cmd) Unit} (hx : Follows SameCalls w.inner x) :
    (innerStep x w).worker.Paced := by
  rw [worker_innerStep]
  exact h.withInner (moves_innerStep hx)

theorem Paced.leaderStep {w : RaftWorkerState Cmd} (h : w.Paced)
    {x : Rust (RaftWorker Leader Cmd) Unit} (hx : ∀ v, Follows Leader.KeepsPace v x) {n : Node Cmd}
    (hn : leaderStep x w = some n) : n.worker.Paced := by
  cases w with
  | follower w => cases hn
  | candidate w => cases hn
  | leader w =>
    rw [RaftWorkerState.leaderStep] at hn
    split at hn
    · obtain rfl := Option.some.inj hn
      exact (hx w).of_ok ‹_› h
    · obtain rfl := Option.some.inj hn
      exact (hx w).of_error ‹_› h

variable [Bincode (LogEntry Cmd)]

theorem Paced.onRpc {w : RaftWorkerState Cmd} (h : w.Paced) (caller : NodeId) (k : ℕ)
    (req : RpcRequest Cmd) : (w.onRpc caller k req).1.worker.Paced := by
  cases req with
  | requestVote req =>
    obtain ⟨-, -, hrpc⟩ | ⟨hlead, w', hrpc, -, ⟨-, hrole⟩ | ⟨hge, rfl⟩⟩ :=
      w.onRpc_requestVote_cases caller k req
    · rw [hrpc]
      exact h
    · rw [hrpc]
      exact paced_of_role (by simp [hrole])
    · rw [hrpc]
      refine paced_of_role fun hrole => ?_
      rw [role_withInner] at hrole
      exact absurd (hlead hrole) (Nat.not_lt.mpr hge)
  | appendEntries req =>
    by_cases hrefuse : w.role = .leader ∧ req.term ≤ w.inner.storage.currentTerm
    · rw [onRpc_appendEntries_of_le hrefuse.1 caller k hrefuse.2]
      exact h
    · rw [onRpc_appendEntries caller k fun hrole =>
        Nat.not_le.mp fun hle => hrefuse ⟨hrole, hle⟩]
      have hcalls : Follows SameCalls (w.heard req) (RaftWorkerInner.handleAppendEntries req) :=
        RaftWorkerInner.follows_handleAppendEntries
          (fun v => RaftWorkerInner.follows_withStorage (S := fun _ _ => True)
            (fun _ _ => by split <;> trivial) fun _ _ => rfl)
          (fun _ _ => rfl) _
      have hheard : (w.heard req).transport.calls = w.inner.transport.calls := by
        cases w <;> rfl
      split
      · trivial
      · exact h.withInner ((hcalls.of_error ‹_›).trans hheard)
  | forwardClientRequest req =>
    cases w with
    | follower w => trivial
    | candidate w => trivial
    | leader w =>
      have hrpc : (Leader.handleRpc caller k (.forwardClientRequest req)).run w =
          ((do
            Leader.handleClientRequest req (.rpc caller k)
            return (none, .continue)) :
            Rust (RaftWorker Leader Cmd) (Option RpcResponse × StateChange)).run w := rfl
      have hkeeps := Leader.keepsPace_handleClientRequest req (.rpc caller k) w
      simp only [RaftWorkerState.onRpc, hrpc, EStateM.run_bind]
      cases hrun : (Leader.handleClientRequest req (.rpc caller k)).run w with
      | ok u v => exact hkeeps.of_ok hrun h
      | error p v => exact hkeeps.of_error hrun h

theorem Paced.onAppend {w : RaftWorker Leader Cmd} (h : Leader.Paced w) {task : InFlightAppend}
    (htask : task ∈ w.state.responsesRx) (res : RpcResult) :
    (onAppend w task res).worker.Paced := by
  have hresponse := h.handleAppendEntriesResponse htask res
  unfold RaftWorkerState.onAppend
  dsimp only
  split
  · exact hresponse.ok rfl ‹_›
  · trivial
  · exact hresponse.error rfl ‹_›

theorem Paced.onResponse {w : RaftWorkerState Cmd} (h : w.Paced) {k : ℕ} {res : RpcResult}
    {n : Node Cmd} (hn : w.onResponse k res = some n) : n.worker.Paced := by
  cases w with
  | follower w => exact h.answerForwarded hn
  | candidate w =>
    rw [RaftWorkerState.onResponse] at hn
    split_ifs at hn
    · obtain rfl := Option.some.inj hn
      rw [onVote.eq_def]
      dsimp only
      split
      · split_ifs
        · exact Leader.paced_toLeader w
        · trivial
        · trivial
      · trivial
      · trivial
    · exact h.answerForwarded hn
  | leader w =>
    rw [RaftWorkerState.onResponse] at hn
    split at hn
    · obtain rfl := Option.some.inj hn
      exact Paced.onAppend h (List.mem_of_find?_eq_some ‹_›) res
    · exact h.answerForwarded hn

/-- **Every reaction keeps the pace.** -/
theorem paced_on {w : RaftWorkerState Cmd} (h : w.Paced) {e : Event Cmd} {n : Node Cmd}
    {resp : Option RpcResponse} (hon : w.on e = some (n, resp)) : n.worker.Paced := by
  cases e with
  | electionTimeout =>
    obtain ⟨n, hn, ⟨rfl, rfl⟩⟩ := Option.map_eq_some_iff.mp hon
    have helect : ∀ inner : RaftWorkerInner Cmd, (onElectionTimeout.elect inner).worker.Paced := by
      intro inner
      rw [onElectionTimeout.elect]
      split <;> trivial
    cases w with
    | follower w =>
      obtain rfl := Option.some.inj hn
      exact helect _
    | candidate w =>
      obtain rfl := Option.some.inj hn
      exact helect _
    | leader w => cases hn
  | rpc caller k req =>
    obtain rfl := (Prod.mk.inj (Option.some.inj hon)).1
    exact h.onRpc caller k req
  | response k res =>
    obtain ⟨n, hn, ⟨rfl, rfl⟩⟩ := Option.map_eq_some_iff.mp hon
    exact h.onResponse hn
  | heartbeat =>
    obtain ⟨n, hn, ⟨rfl, rfl⟩⟩ := Option.map_eq_some_iff.mp hon
    exact h.leaderStep (fun v => .get_bind (Leader.keepsPace_appendEntriesToAll _ v)) hn
  | client token req =>
    obtain ⟨n, hn, ⟨rfl, rfl⟩⟩ := Option.map_eq_some_iff.mp hon
    cases w with
    | follower w =>
      obtain rfl := Option.some.inj hn
      rw [worker_innerStep]
      trivial
    | candidate w =>
      obtain rfl := Option.some.inj hn
      exact h.innerStep (.modify rfl)
    | leader w => exact h.leaderStep (Leader.keepsPace_handleClientRequest req _) hn
  | advanceCommitIndex =>
    obtain ⟨n, hn, ⟨rfl, rfl⟩⟩ := Option.map_eq_some_iff.mp hon
    exact h.leaderStep Leader.keepsPace_advanceCommitIndex hn
  | applyLog =>
    obtain rfl := (Prod.mk.inj (Option.some.inj hon)).1
    refine h.innerStep (.get_bind (follows_ofExcept_bind fun es => .modify ?_))
    rw [RaftWorkerInner.foldl_apply]
    rfl
  | connect peer =>
    obtain rfl := (Prod.mk.inj (Option.some.inj hon)).1
    exact h.innerStep (.modify rfl)
  | disconnect peer =>
    obtain rfl := (Prod.mk.inj (Option.some.inj hon)).1
    refine h.innerStep (.modify ?_)
    split <;> rfl

end RaftWorkerState

/-! ### Runs -/

section

variable [Bincode (LogEntry Cmd)]

/-- The end of a call is a matter of the task that waits for it. -/
theorem Leader.Paced.onResponse_eq {w : RaftWorker Leader Cmd} (h : Leader.Paced w)
    {task : InFlightAppend} (htask : task ∈ w.state.responsesRx) (res : RpcResult) :
    (RaftWorkerState.leader w).onResponse task.call res =
      some (RaftWorkerState.onAppend w task res) := by
  rw [RaftWorkerState.onResponse]
  split
  · next task' hfind =>
    have hcall : task'.call = task.call := by simpa using List.find?_some hfind
    rw [h.eq_of_call (List.mem_of_find?_eq_some hfind) htask hcall]
  · next hfind => exact absurd (List.find?_eq_none.mp hfind task htask) (by simp)

/-- A call that fails frees its peer. -/
theorem react_fail {n n' : Node Cmd} {w : RaftWorker Leader Cmd} (hw : n.worker = .leader w)
    (hpaced : Leader.Paced w) {task : InFlightAppend} (htask : task ∈ w.state.responsesRx)
    {err : TransportError} (h : n.react (.response task.call (.error err)) = some n') :
    n' = ⟨.leader (Leader.ended w task), none⟩ := by
  obtain ⟨-, resp, hon, -⟩ := Node.effect_react h
  rw [hw] at hon
  obtain ⟨n, hn, ⟨rfl, rfl⟩⟩ := Option.map_eq_some_iff.mp hon
  rw [hpaced.onResponse_eq htask] at hn
  exact (Option.some.inj hn).symm

/-- **A leader calls its peers one call at a time.** -/
structure CallsInTurn (r : List (Node Cmd)) : Prop where
  /-- `in_flight_peers` are the peers of the tasks that wait, and no two tasks have one peer. -/
  peers : ∀ n ∈ r, ∀ w, n.worker = .leader w →
    w.state.inFlightPeers = (w.state.responsesRx.map (·.peerId)).toFinset ∧
      (w.state.responsesRx.map (·.peerId)).Nodup
  /-- A task waits for the last `AppendEntries` call to its peer. -/
  waits : ∀ n ∈ r, ∀ w, n.worker = .leader w → ∀ task ∈ w.state.responsesRx,
    task.Waits w.inner.transport.calls
  /-- A call that fails frees its peer and leaves the next index where it was. -/
  fails : ∀ n ∈ r, ∀ n' w task err, n.worker = .leader w → task ∈ w.state.responsesRx →
    n.react (.response task.call (.error err)) = some n' →
      ∃ w', n' = ⟨.leader w', none⟩ ∧ w'.state.nextIndices = w.state.nextIndices ∧
        w'.state.inFlightPeers = w.state.inFlightPeers.erase task.peerId
  /-- After a heartbeat, every connected peer is called. -/
  heartbeat : ∀ n ∈ r, ∀ w w', n.worker = .leader w → n.react .heartbeat = some ⟨.leader w', none⟩ →
    ∀ p ∈ w.inner.peers, ∀ client, w.inner.peerClients.lookup p = some client →
      client.connected = true → ∃ task ∈ w'.state.responsesRx, task.peerId = p

/-- Every node of every run has at most one call to each of its peers, whatever it is sent. -/
theorem calls_in_turn {r : List (Node Cmd)}
    (h : IsRun Node.Starts (Acts Node.react fun _ _ => True) r) : CallsInTurn r := by
  have hpaced : ∀ n ∈ r, n.worker.Paced := by
    refine h.invariant ?_ ?_
    · rintro n ⟨_, _, _, _, _, _, _, -, -, rfl⟩
      trivial
    · rintro n n' hn ⟨e, -, hreact⟩
      obtain ⟨-, resp, hon, -⟩ := Node.effect_react hreact
      exact RaftWorkerState.paced_on hn hon
  have hleader : ∀ n ∈ r, ∀ w, n.worker = .leader w → Leader.Paced w := by
    intro n hn w hw
    have := hpaced n hn
    rwa [hw] at this
  refine ⟨fun n hn w hw => ?_, fun n hn w hw => (hleader n hn w hw).waits, ?_, ?_⟩
  · exact ⟨(hleader n hn w hw).peers, (hleader n hn w hw).nodup⟩
  · intro n hn n' w task err hw htask hreact
    exact ⟨_, react_fail hw (hleader n hn w hw) htask hreact, rfl, rfl⟩
  · intro n hn w w' hw hreact p hp client hclient hon
    obtain ⟨-, resp, hbeat, -⟩ := Node.effect_react hreact
    have hw' := RaftWorkerState.paced_on (hpaced n hn) hbeat
    rw [hw] at hbeat
    obtain ⟨n', hstep, heq⟩ := Option.map_eq_some_iff.mp hbeat
    obtain ⟨rfl, -⟩ := Prod.mk.inj heq
    refine (Leader.Paced.mem_inFlightPeers hw').mp ?_
    rw [RaftWorkerState.leaderStep] at hstep
    split at hstep
    · next hrun =>
      cases hstep
      exact (Leader.mem_inFlightPeers_of_appendEntriesToAll hrun).2 p hp client hclient hon
    · cases hstep

end

/-- Node `0` is elected by node `1` with two of its three peers connected; its first call to node
`1` fails. -/
def pacingEvents : List (Event ℕ) :=
  [.connect 1, .connect 2, .electionTimeout,
    .response 0 (.ok (.requestVote { term := 1, voteGranted := true })),
    .response 1 (.ok (.requestVote { term := 1, voteGranted := true })),
    .client 0 (.apply 7), .heartbeat, .response 2 (.error .requestTimeout), .heartbeat]

/-- The worker's leader, if it is one. -/
def RaftWorkerState.leader? : RaftWorkerState Cmd → Option (RaftWorker Leader Cmd)
  | .leader w => some w
  | _ => none

theorem RaftWorkerState.eq_of_leader? {s : RaftWorkerState Cmd} {w : RaftWorker Leader Cmd}
    (h : s.leader? = some w) : s = .leader w := by
  cases s with
  | leader v => rw [Option.some.inj h]
  | follower v => cases h
  | candidate v => cases h

theorem calls_in_turn_run : ∃ r : List (Node ℕ), CallsInTurn r ∧ ∃ n ∈ r, ∃ w,
    n.worker = .leader w ∧ w.inner.transport.calls.length = 5 ∧
      w.state.responsesRx.map (·.call) = [4, 3] := by
  obtain ⟨r, -, hr, hf⟩ := exists_run_of_play Node.Starts Node.react (fun _ _ => false)
    Node.starts_fresh pacingEvents
    (fun r => r.any fun (n : Node ℕ) => n.worker.leader?.any fun (w : RaftWorker Leader ℕ) =>
      decide (w.inner.transport.calls.length = 5) &&
        decide (w.state.responsesRx.map (·.call) = [4, 3]))
    (by decide +kernel)
  obtain ⟨n, hn, hcheck⟩ := List.any_eq_true.mp hf
  refine ⟨r, calls_in_turn (IsRun.mono (fun _ _ => Acts.mono fun _ _ _ => trivial) hr), n, hn, ?_⟩
  obtain ⟨w, hw, hcheck⟩ := (Option.any_eq_true _ _).mp hcheck
  obtain ⟨hcalls, htasks⟩ := Bool.and_eq_true_iff.mp hcheck
  exact ⟨w, RaftWorkerState.eq_of_leader? hw, of_decide_eq_true hcalls, of_decide_eq_true htasks⟩

end Wraft
