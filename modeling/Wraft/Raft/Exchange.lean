import Wraft.Raft.History
import Wraft.Raft.Pacing
import Wraft.Raft.Repair

/-!
# One exchange between a leader and a peer

What a request of a leader does to the log of a peer that is not ahead of it, and what the response
does to the indices of the leader, as equations between the states before and after.

A log that differs from the leader's in its last entry at most is `Mendable`: it can be brought in
line by requests that are accepted, and no request makes its owner panic (`onRpc_of_mendable`). A
leader whose indices are in order calls every peer that is connected and for which no task waits
(`Leading.appendEntriesToAll_eq_ok`). An accepted request moves its indices up to the last entry
sent (`Leader.onAppend_accepted`), and a refused one moves the next index back and is followed by
the next call at once (`Leader.onAppend_refused`).
-/

namespace Wraft

open Consensus (Adopts lastTerm)

variable {Cmd : Type}

/-! ### Logs that can be mended -/

/-- The log differs from `L` in the term of its last entry at most, which is all that
`overwrite_log` lets pass. -/
def Mendable (log L : List (LogEntry Cmd)) : Prop :=
  ∀ n a e, log[n]? = some a → L[n]? = some e → a.term ≠ e.term → log.length = n + 1

theorem mendable_of_prefix {log L : List (LogEntry Cmd)} (h : log <+: L) : Mendable log L := by
  intro n a e ha he hne
  obtain ⟨t, rfl⟩ := h
  rw [List.getElem?_append_left (List.getElem?_eq_some_iff.mp ha).1, ha] at he
  exact absurd (congrArg (·.term) (Option.some.inj he)) hne

/-- A log that can be mended, and is at most one entry longer, can be mended for a log with one
entry more. -/
theorem Mendable.concat {log L : List (LogEntry Cmd)} (h : Mendable log L)
    (hlen : log.length ≤ L.length + 1) (e : LogEntry Cmd) : Mendable log (L ++ [e]) := by
  intro n a b ha hb hne
  rcases Nat.lt_or_ge n L.length with hlt | hge
  · rw [List.getElem?_append_left hlt] at hb
    exact h n a b ha hb hne
  · have := (List.getElem?_eq_some_iff.mp ha).1
    omega

/-- What a follower adopts of `L` leaves its log mendable. -/
theorem Mendable.adopts {log log' p L : List (LogEntry Cmd)} (h : Mendable log L) (hp : p <+: L)
    (ha : Adopts p log log') : Mendable log' L := by
  rcases ha with ⟨-, rfl⟩ | ⟨-, rfl⟩
  · exact h
  · exact mendable_of_prefix hp

/-- Entries of a slice of `L` are in conflict with the log at its last index only. -/
theorem Mendable.length_of_conflict {log L pre es : List (LogEntry Cmd)} (h : Mendable log L)
    (hL : pre ++ es <+: L) {j : ℕ} (hj : Conflict log es pre.length j) :
    log.length = pre.length + j + 1 := by
  obtain ⟨a, e, ha, he, hne⟩ := hj
  refine h _ a e ha ?_ hne
  obtain ⟨t, rfl⟩ := hL
  rw [List.append_assoc, List.getElem?_append_right (Nat.le_add_right _ _),
    Nat.add_sub_cancel_left, List.getElem?_append_left (List.getElem?_eq_some_iff.mp he).1, he]

section

variable [Bincode (LogEntry Cmd)]

/-- **`handle_append_entries`** of a worker whose log can be mended, on a slice of `L` in the term
of the worker: the request is refused for its previous entry, or adopted. -/
theorem RaftWorkerInner.handleAppendEntries_of_mendable {w : RaftWorkerInner Cmd}
    (h : w.storage.Wf) {req : AppendEntriesRequest Cmd} {L pre : List (LogEntry Cmd)}
    (hcur : w.storage.currentTerm = req.term) (hlen : pre.length = req.prevLogIndex)
    (hL : pre ++ req.entries <+: L)
    (hterm : req.prevLogIndex ≠ 0 → req.prevLogTerm = lastTerm LogEntry.term pre)
    (hidx : Indexed L) (hmatch : Matches w.storage.log L) (hmend : Mendable w.storage.log L) :
    (¬pre <+: w.storage.log ∧ (handleAppendEntries req).run w =
      .ok { term := w.storage.currentTerm, success := false } w) ∨
    ∃ w', (handleAppendEntries req).run w =
        .ok { term := w.storage.currentTerm, success := true } w' ∧
      w'.storage.currentTerm = req.term ∧
      Adopts (pre ++ req.entries) w.storage.log w'.storage.log := by
  obtain ⟨hold, -⟩ | ⟨-, hpre, hrun⟩ | hpanic | ⟨-, s', -, hsame, hadopts, hrun⟩ :=
    handleAppendEntries_cases h hlen hL hterm hidx hmatch
  · omega
  · exact .inl ⟨hpre, hrun⟩
  · -- the assertion of `overwrite_log` holds
    exfalso
    by_cases ha : w.Accepts req
    · have hprev : req.prevLogIndex ≤ w.storage.log.length := by
        have := (ha.hasPrev h).le
        rwa [h.length_log]
      have heq := handleAppendEntries_of_hasPrev hcur.le (ha.hasPrev h)
      have hreq : ∀ j e, req.entries[j]? = some e → e.idx = req.prevLogIndex + j + 1 :=
        fun j e he => hlen ▸ (hidx.of_prefix hL).getElem?_append_right he
      rcases handleEntries_repairs h hprev hreq with ⟨-, s', hrun, -⟩ | ⟨⟨j, hj, hne⟩, -⟩
      · rw [hrun, hpanic] at heq
        cases heq
      · rw [← hlen] at hj hne
        exact hne (hmend.length_of_conflict hL hj)
    · rw [handleAppendEntries_of_not_accepts h ha] at hpanic
      cases hpanic
  · exact .inr ⟨_, hrun, hsame.currentTerm.trans hcur, hadopts⟩

namespace RaftWorkerState

/-- The reaction of a worker that is not ahead of the sender of a request and whose log can be
mended: it follows, and has adopted the entries or refused them. -/
theorem onRpc_of_mendable {w : RaftWorkerState Cmd} (h : w.inner.storage.Wf) (caller : NodeId)
    (k : ℕ) {req : AppendEntriesRequest Cmd} {L pre : List (LogEntry Cmd)}
    (hlead : w.role = .leader → w.inner.storage.currentTerm < req.term)
    (hle : w.inner.storage.currentTerm ≤ req.term) (hlen : pre.length = req.prevLogIndex)
    (hL : pre ++ req.entries <+: L)
    (hterm : req.prevLogIndex ≠ 0 → req.prevLogTerm = lastTerm LogEntry.term pre)
    (hidx : Indexed L) (hmatch : Matches w.inner.storage.log L)
    (hmend : Mendable w.inner.storage.log L) :
    ∃ v resp, w.onRpc caller k (.appendEntries req) =
        (⟨.follower v, none⟩, some (.appendEntries resp)) ∧ resp.term = req.term ∧
      v.inner.storage.currentTerm = req.term ∧ Mendable v.inner.storage.log L ∧
      (resp.success = false ∧ ¬pre <+: w.inner.storage.log ∧
          v.inner.storage.log = w.inner.storage.log ∨
        resp.success = true ∧ pre ++ req.entries <+: v.inner.storage.log) := by
  have hheard : (w.heard req).storage = (w.inner.storage.updateTerm req.term).2 := by
    cases w <;> rfl
  have hcur : (w.heard req).storage.currentTerm = req.term := by
    rw [hheard, Storage.currentTerm_updateTerm, max_eq_right hle]
  have hlog : (w.heard req).storage.log = w.inner.storage.log := by
    rw [hheard, Storage.log_updateTerm]
  rw [onRpc_appendEntries caller k hlead]
  rw [← hlog] at hmatch hmend
  obtain ⟨hpre, hrun⟩ | ⟨v, hrun, hv, hadopts⟩ :=
    RaftWorkerInner.handleAppendEntries_of_mendable (hheard ▸ Storage.wf_updateTerm h req.term)
      hcur hlen hL hterm hidx hmatch hmend
  · rw [hrun]
    exact ⟨_, _, rfl, hcur, hcur, hmend, .inl ⟨rfl, hlog ▸ hpre, hlog⟩⟩
  · rw [hrun]
    exact ⟨_, _, rfl, hcur, hv, hmend.adopts hL hadopts, .inr ⟨rfl, hadopts.prefix⟩⟩

end RaftWorkerState

/-! ### The calls of a leader -/

/-- Whatever calls were made from `w` to `v`, none of them forwards a request. -/
def RaftWorkerInner.KeepsForwards (w v : RaftWorkerInner Cmd) : Prop :=
  ∀ (k : ℕ) (p : NodeId) (req : ClientRequest Cmd),
    v.transport.calls[k]? = some (p, .forwardClientRequest req) →
      w.transport.calls[k]? = some (p, .forwardClientRequest req)

omit [Bincode (LogEntry Cmd)] in
theorem RaftWorkerInner.KeepsForwards.trans {w v u : RaftWorkerInner Cmd} (h : w.KeepsForwards v)
    (h' : v.KeepsForwards u) : w.KeepsForwards u :=
  fun k p req hk => h k p req (h' k p req hk)

omit [Bincode (LogEntry Cmd)] in
theorem RaftWorkerInner.keepsForwards_of_append {w v : RaftWorkerInner Cmd}
    {calls : List (NodeId × RpcRequest Cmd)} (h : v.transport.calls = w.transport.calls ++ calls)
    (hcalls : ∀ p req, (p, .forwardClientRequest req) ∉ calls) : w.KeepsForwards v := by
  intro k p req hk
  rw [h, List.getElem?_append] at hk
  split_ifs at hk
  · exact hk
  · exact absurd (List.mem_of_getElem? hk) (hcalls p req)

namespace Leader

/-- The leader has made calls, and nothing else. -/
structure OnlyCalls (w v : RaftWorker Leader Cmd) : Prop where
  inner : ∃ calls, v.inner = { w.inner with transport := { w.inner.transport with
    calls := w.inner.transport.calls ++ calls } }
  nextIndices : v.state.nextIndices = w.state.nextIndices
  matchIndices : v.state.matchIndices = w.state.matchIndices
  waiting : v.state.inFlightClientRequests = w.state.inFlightClientRequests
  tasks : w.state.responsesRx ⊆ v.state.responsesRx
  forwards : w.inner.KeepsForwards v.inner

omit [Bincode (LogEntry Cmd)] in
theorem OnlyCalls.refl (w : RaftWorker Leader Cmd) : OnlyCalls w w where
  inner := ⟨[], by rw [List.append_nil]⟩
  nextIndices := rfl
  matchIndices := rfl
  waiting := rfl
  tasks := List.Subset.refl _
  forwards _ _ _ := id

omit [Bincode (LogEntry Cmd)] in
theorem OnlyCalls.trans {w v u : RaftWorker Leader Cmd} (h : OnlyCalls w v) (h' : OnlyCalls v u) :
    OnlyCalls w u where
  inner := by
    obtain ⟨calls, hv⟩ := h.inner
    obtain ⟨calls', hu⟩ := h'.inner
    exact ⟨calls ++ calls', by rw [hu, hv, List.append_assoc]⟩
  nextIndices := h'.nextIndices.trans h.nextIndices
  matchIndices := h'.matchIndices.trans h.matchIndices
  waiting := h'.waiting.trans h.waiting
  tasks := List.Subset.trans h.tasks h'.tasks
  forwards := h.forwards.trans h'.forwards

/-- The leader waits for call `k`, which took the entries behind index `n` to `peer`. -/
structure Awaits (w : RaftWorker Leader Cmd) (peer : NodeId) (n k : ℕ) : Prop where
  call : w.inner.transport.calls[k]? = some (peer, .appendEntries (appendRequest w.inner n))
  task : ∃ task ∈ w.state.responsesRx, task.call = k

theorem OnlyCalls.awaits {w v : RaftWorker Leader Cmd} (h : OnlyCalls w v) {peer : NodeId}
    {n k : ℕ} (hw : Awaits w peer n k) : Awaits v peer n k where
  call := by
    obtain ⟨calls, hv⟩ := h.inner
    rw [hv]
    show (w.inner.transport.calls ++ calls)[k]? = _
    rw [List.getElem?_append_left (List.getElem?_eq_some_iff.mp hw.call).1, hw.call]
    rfl
  task :=
    let ⟨task, htask, hk⟩ := hw.task
    ⟨task, h.tasks htask, hk⟩

theorem onlyCalls_sent (w : RaftWorker Leader Cmd) (peer : NodeId) (n : ℕ) :
    OnlyCalls w (sent w peer n) where
  inner := ⟨_, rfl⟩
  nextIndices := rfl
  matchIndices := rfl
  waiting := rfl
  tasks := List.subset_cons_self _ _
  forwards := RaftWorkerInner.keepsForwards_of_append rfl fun p req hmem => by
    cases List.mem_singleton.mp hmem

theorem awaits_sent (w : RaftWorker Leader Cmd) (peer : NodeId) (n : ℕ) :
    Awaits (sent w peer n) peer n w.inner.transport.calls.length where
  call := List.getElem?_concat_length
  task := ⟨_, List.mem_cons_self, rfl⟩

/-- The leader can call `peer`: it is connected, and no task waits for it. -/
structure Free (w : RaftWorker Leader Cmd) (peer : NodeId) : Prop where
  connected : ∃ client, w.inner.peerClients.lookup peer = some client ∧ client.connected = true
  free : peer ∉ w.state.inFlightPeers

/-- A free peer is called, from its next index on. -/
theorem appendEntries_of_free {w : RaftWorker Leader Cmd} (h : w.inner.storage.Wf) {peer : NodeId}
    (hfree : Free w peer) {n : ℕ} (hnext : w.state.nextIndices.lookup peer = some (n + 1))
    (hn : n ≤ w.inner.storage.log.length) :
    (appendEntries peer).run w = .ok () (sent w peer n) := by
  obtain ⟨client, hclient, hon⟩ := hfree.connected
  obtain hrun | ⟨hnone, -⟩ | ⟨-, -, next, hnext', ⟨rfl, -⟩ | ⟨hlong, -⟩ | ⟨m, rfl, -, hrun⟩⟩ :=
    appendEntries_cases h peer
  · -- something is done for a free peer
    exfalso
    obtain ⟨-, hskip⟩ | ⟨p, hrun'⟩ | ⟨req, first, last, -, hrun'⟩ := appendEntries_run peer w
    · exact hskip.elim hfree.free fun hoff => absurd (hoff client hclient) (by simp [hon])
    · rw [hrun] at hrun'
      cases hrun'
    · rw [hrun] at hrun'
      have hmem : peer ∈ (asked w peer req first last).state.inFlightPeers :=
        Finset.mem_insert_self _ _
      rw [← (EStateM.Result.ok.inj hrun').2] at hmem
      exact hfree.free hmem
  · rw [hnext] at hnone
    cases hnone
  · rw [hnext] at hnext'
    cases hnext'
  · obtain rfl := Option.some.inj (hnext.symm.trans hnext')
    omega
  · obtain rfl := Nat.succ.inj (Option.some.inj (hnext.symm.trans hnext'))
    exact hrun

end Leader

section

variable {cfg : Config} {g : Guard} {replies : Replies} {a : Spec Cmd} {i : NodeId}
  {w : RaftWorker Leader Cmd}

/-- A leader whose indices are in order can call any of its peers, or leaves it. -/
theorem Leading.appendEntries_eq_ok (h : Leading cfg g replies a i w) (hg : g.longProbes)
    (hi : i ∈ cfg.ids) (hr : Consensus.Reachable LogEntry.term cfg.ids g.Compared a)
    {peer : NodeId} (hpeer : peer ∈ cfg.peers i) :
    ∃ v, (Leader.appendEntries peer).run w = .ok () v ∧ Leading cfg g replies a i v ∧
      (v = w ∨ ∃ n, v = Leader.sent w peer n) := by
  have htriple := appendEntries_triple hi hr peer w h
  obtain ⟨hp, hne⟩ := (cfg.mem_peers i hi peer).mp hpeer
  obtain hrun | ⟨hnone, -⟩ | ⟨-, -, next, hnext, ⟨rfl, -⟩ | ⟨hlong, -⟩ | ⟨n, rfl, -, hrun⟩⟩ :=
    Leader.appendEntries_cases h.inner.wf peer
  · exact ⟨w, hrun, h, .inl rfl⟩
  · have hhas := AList.lookup_isSome.mpr (h.leader.has_next peer hpeer)
    rw [hnone] at hhas
    cases hhas
  · obtain ⟨m, hm⟩ := h.leader.exists_match hi hp hne
    have := (h.leader.above hg hnext hm).1
    omega
  · have := h.leader.next_le hnext
    rw [← h.inner.log] at this
    omega
  · rw [hrun] at htriple
    exact ⟨_, hrun, htriple, .inr ⟨n, rfl⟩⟩

/-- **The heartbeat of a leader** whose indices are in order calls every free peer, from its next
index on, and panics for none. -/
theorem Leading.appendEntriesToAll_eq_ok (hg : g.longProbes) (hi : i ∈ cfg.ids)
    (hr : Consensus.Reachable LogEntry.term cfg.ids g.Compared a) {peers : List NodeId}
    (hpeers : peers ⊆ cfg.peers i) (h : Leading cfg g replies a i w) :
    ∃ v, (Leader.appendEntriesToAll peers).run w = .ok () v ∧ Leader.OnlyCalls w v ∧
      ∀ j ∈ peers, ∀ n, Leader.Free w j → w.state.nextIndices.lookup j = some (n + 1) →
        ∃ k, w.inner.transport.calls.length ≤ k ∧ Leader.Awaits v j n k := by
  induction peers generalizing w with
  | nil => exact ⟨w, rfl, .refl w, fun j hj => absurd hj List.not_mem_nil⟩
  | cons peer peers ih =>
    obtain ⟨hpeer, hrest⟩ := List.cons_subset.mp hpeers
    obtain ⟨v, hrun, hv, hstep⟩ := h.appendEntries_eq_ok hg hi hr hpeer
    obtain ⟨u, hrun', hcalls, hasks⟩ := ih hrest hv
    have hwv : Leader.OnlyCalls w v := by
      obtain rfl | ⟨n, rfl⟩ := hstep
      · exact .refl v
      · exact Leader.onlyCalls_sent w peer n
    refine ⟨u, (EStateM.run_bind_of_ok hrun).trans hrun', hwv.trans hcalls, ?_⟩
    intro j hj n hfree hnext
    by_cases heq : j = peer
    · -- the peer is called now, and the task waits on
      subst heq
      have hn : n ≤ w.inner.storage.log.length := by
        rw [h.inner.log]
        exact Nat.le_of_succ_le_succ (h.leader.next_le hnext)
      rw [Leader.appendEntries_of_free h.inner.wf hfree hnext hn] at hrun
      obtain rfl := (EStateM.Result.ok.inj hrun).2
      exact ⟨_, le_rfl, hcalls.awaits (Leader.awaits_sent w j n)⟩
    · obtain ⟨calls, hinner⟩ := hwv.inner
      have hfree' : Leader.Free v j := by
        refine ⟨by rw [hinner]; exact hfree.connected, ?_⟩
        obtain rfl | ⟨m, rfl⟩ := hstep
        · exact hfree.free
        · exact fun hmem => (Finset.mem_insert.mp hmem).elim heq hfree.free
      obtain ⟨k, hk, hawaits⟩ := hasks j ((List.mem_cons.mp hj).resolve_left heq) n hfree'
        (by rw [hwv.nextIndices, hnext])
      refine ⟨k, le_trans ?_ hk, hawaits⟩
      rw [hinner]
      show _ ≤ (w.inner.transport.calls ++ calls).length
      rw [List.length_append]
      exact Nat.le_add_right _ _

end

/-! ### The responses -/

namespace Leader

variable {w : RaftWorker Leader Cmd} {task : InFlightAppend} {resp : AppendEntriesResponse}

/-- The leader when the peer of the task has accepted its entries. -/
def matched (w : RaftWorker Leader Cmd) (task : InFlightAppend) (next m : ℕ) :
    RaftWorker Leader Cmd :=
  { ended w task with state := { (ended w task).state with
      nextIndices := w.state.nextIndices.insert task.peerId (max next (task.lastEntry + 1))
      matchIndices := w.state.matchIndices.insert task.peerId (max m task.lastEntry) } }

end Leader

/-! ### Steps of a cluster -/

namespace Cluster

section

variable {cfg : Config} {c : Cluster Cmd} {i j : NodeId} {w : RaftWorker Leader Cmd}

omit [Bincode (LogEntry Cmd)] in
theorem nodes_setNode_self (c : Cluster Cmd) (i : NodeId) (n : Node Cmd) :
    (c.setNode i n).nodes i = n := by
  simp only [setNode, Function.update_self]

omit [Bincode (LogEntry Cmd)] in
theorem nodes_setNode_of_ne (c : Cluster Cmd) {p i : NodeId} (h : p ≠ i) (n : Node Cmd) :
    (c.setNode i n).nodes p = c.nodes p := by
  simp only [setNode, Function.update_of_ne h]

omit [Bincode (LogEntry Cmd)] in
theorem inner_congr {c c' : Cluster Cmd} (h : c'.nodes j = c.nodes j) : c'.inner j = c.inner j := by
  rw [inner, worker, h]
  rfl

omit [Bincode (LogEntry Cmd)] in
theorem storage_congr {c c' : Cluster Cmd} (h : c'.nodes j = c.nodes j) :
    c'.storage j = c.storage j := congrArg (·.storage) (inner_congr h)

theorem react_of_running {e : Event Cmd} (h : (c.nodes i).panicked = none) :
    c.react i e = ((c.worker i).on e).map fun r => (c.setNode i r.1, r.2) := by
  rw [react, h]

omit [Bincode (LogEntry Cmd)] in
theorem LeaderAt.panicked (h : c.LeaderAt i w) : (c.nodes i).panicked = none := by
  rw [show c.nodes i = _ from h]

omit [Bincode (LogEntry Cmd)] in
theorem LeaderAt.worker (h : c.LeaderAt i w) : c.worker i = .leader w := by
  rw [Cluster.worker, show c.nodes i = _ from h]

theorem exec_heartbeat (hi : i ∈ cfg.ids) (hw : c.LeaderAt i w) {v : RaftWorker Leader Cmd}
    (hrun : Leader.heartbeat.run w = .ok () v) :
    c.exec cfg (.heartbeat i) = some (c.setNode i ⟨.leader v, none⟩) := by
  rw [exec, if_pos hi, react_of_running hw.panicked, hw.worker]
  simp only [RaftWorkerState.on, RaftWorkerState.leaderStep, hrun, Option.map_some]

theorem exec_deliver (hi : i ∈ cfg.ids) {k : ℕ} (hfresh : (i, k) ∉ c.delivered)
    {req : RpcRequest Cmd} (hcall : (c.inner i).transport.calls[k]? = some (j, req))
    (hrunning : (c.nodes j).panicked = none) {n : Node Cmd} {resp : RpcResponse}
    (hon : (c.worker j).onRpc i k req = (n, some resp)) :
    ∃ c', c.exec cfg (.deliver i k) = some c' ∧ c'.nodes j = n ∧
      (∀ p ≠ j, c'.nodes p = c.nodes p) ∧ c'.delivered = (i, k) :: c.delivered ∧
      c'.replies = ((i, k), resp) :: c.replies ∧ c'.tokens = c.tokens := by
  refine ⟨{ c.setNode j n with
      delivered := (i, k) :: c.delivered, replies := ((i, k), resp) :: c.replies }, ?_,
    nodes_setNode_self c j n, fun p hp => nodes_setNode_of_ne c hp n, rfl, rfl, rfl⟩
  rw [exec, if_pos ⟨hi, hfresh⟩, hcall]
  simp only [react_of_running hrunning, RaftWorkerState.on, hon, Option.map_some]
  rfl

end

/-! ### Servers -/

omit [Bincode (LogEntry Cmd)]

/-- Node `j` owes an answer to call `k` of node `i`, a request that was forwarded to it: a sender
waits for the entry of the request, or the answer has not been relayed. -/
def Owes (c : Cluster Cmd) (j i : NodeId) (k : ℕ) : Prop :=
  (∃ n, (c.worker j).waiting.lookup n = some (.rpc i k)) ∨
    c.replies.lookup (i, k) = none ∧ ∃ res, (.rpc i k, res) ∈ (c.inner j).transport.answers

/-- The server of node `j` takes the next call of node `i`. It handles the calls of a node one after
the other, and a request that was forwarded to a leader keeps it until there is an answer: there
must be no such request, neither unanswered nor on its way. -/
structure Unblocked (c : Cluster Cmd) (i j : NodeId) : Prop where
  arrived : ∀ k req, (c.inner i).transport.calls[k]? = some (j, .forwardClientRequest req) →
    (i, k) ∈ c.delivered
  answered : ∀ k, ¬c.Owes j i k

/-- A call that arrives in the step does so at a server that takes it. -/
def Admits (c : Cluster Cmd) : Action Cmd → Prop
  | .deliver i k => ∀ j req, (c.inner i).transport.calls[k]? = some (j, req) → c.Unblocked i j
  | _ => True

section

variable {c : Cluster Cmd} {i j p : NodeId} {k : ℕ} {n : Node Cmd}

theorem Unblocked.admits (h : c.Unblocked i j) {req : RpcRequest Cmd}
    (hcall : (c.inner i).transport.calls[k]? = some (j, req)) : c.Admits (.deliver i k) := by
  intro p req' hcall'
  obtain ⟨rfl, -⟩ := Prod.mk.inj (Option.some.inj (hcall.symm.trans hcall'))
  exact h

/-- The caller forwards nothing more. -/
theorem Unblocked.setNode (h : c.Unblocked i j) (hji : j ≠ i)
    (hforwards : (c.inner i).KeepsForwards n.worker.inner) : (c.setNode i n).Unblocked i j where
  arrived k req hcall := by
    have hnode : (c.setNode i n).inner i = n.worker.inner := by
      rw [inner, worker, nodes_setNode_self]
    rw [hnode] at hcall
    exact h.arrived k req (hforwards k j req hcall)
  answered k hk := by
    have hnode := nodes_setNode_of_ne c hji n
    rw [Owes, worker, hnode, inner_congr hnode] at hk
    exact h.answered k hk

/-- A call arrives at a node that is no leader then, and that answers nobody else. -/
theorem Unblocked.deliver {c' : Cluster Cmd} {resp : RpcResponse} (h : c.Unblocked i p)
    (hji : j ≠ i) (hnode : c'.nodes j = n) (hothers : ∀ p ≠ j, c'.nodes p = c.nodes p)
    (hdelivered : c'.delivered = (i, k) :: c.delivered)
    (hreplies : c'.replies = ((i, k), resp) :: c.replies) (hwaiting : n.worker.waiting = ∅)
    (hanswers : n.worker.inner.transport.answers = (c.inner j).transport.answers) :
    c'.Unblocked i p where
  arrived m req hcall := by
    rw [inner_congr (hothers i hji.symm)] at hcall
    rw [hdelivered]
    exact List.mem_cons_of_mem _ (h.arrived m req hcall)
  answered m hm := by
    have hnone : c'.replies.lookup (i, m) = none → c.replies.lookup (i, m) = none := by
      rw [hreplies, List.lookup_cons]
      split
      · exact fun hsome => absurd hsome (Option.some_ne_none _)
      · exact id
    refine h.answered m ?_
    by_cases hpj : p = j
    · subst hpj
      rw [Owes, worker, inner, worker, hnode, hwaiting, hanswers] at hm
      rcases hm with ⟨l, hl⟩ | hm
      · cases hl
      · exact .inr (hm.imp_left hnone)
    · rw [Owes, worker, inner_congr (hothers p hpj), hothers p hpj] at hm
      exact hm.imp_right (And.imp_left hnone)

end

end Cluster

end

end Wraft
