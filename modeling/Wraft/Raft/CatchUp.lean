import Wraft.Raft.Exchange

/-!
# Bringing a peer up to date

A leader can bring the log of a peer up to date, from wherever a run has left the two: `catches_up`
gives a bounded number of steps, all of them heartbeats of the leader and calls of it that arrive,
return or fail, after which the peer has the leader's log and the leader knows it.

What has to be true of the peer is that it runs and is connected, that it is not in a newer term,
that its server does not owe the leader the answer to a forwarded request (`Unblocked`), and that
its log is `Mendable`, as a conflict further down makes `overwrite_log` panic. Of the leader, that
it does not hold a log of one entry which the peer would refuse to an empty request, as this moves
the next index to `0` (`Linked`).

A request either is accepted, and what is matched grows by a batch, or moves the next index back
(`exchange`); and after a request was accepted, those that follow are.
-/

namespace Wraft

open TransitionSystem

variable {Cmd : Type} [Bincode (LogEntry Cmd)]

/-! ### What is on record -/

namespace RaftWorkerInner

variable {P : LogEntry Cmd → Prop} {w w' : RaftWorkerInner Cmd}

/-- Calls stay on record. -/
theorem Changes.prefix_calls (h : Changes P w w') : w.transport.calls <+: w'.transport.calls := by
  induction h with
  | refl => exact List.prefix_rfl
  | tail _ hc ih =>
    cases hc with
    | call => exact ih.trans (List.prefix_append _ _)
    | storage | leaderId | peerClients | forwarded | answer | commitIndex | apply => exact ih

end RaftWorkerInner

namespace Cluster

variable {cfg : Config} {c c' : Cluster Cmd}

/-- What a run keeps of the nodes' records: the logs are in order, what was delivered was called,
and leaders make their calls one at a time. -/
structure Recorded (c : Cluster Cmd) : Prop where
  ordered : ∀ i, (c.inner i).Ordered
  delivered : ∀ i k, (i, k) ∈ c.delivered → k < (c.inner i).transport.calls.length
  paced : ∀ i, (c.worker i).Paced

theorem recorded_boot (cfg : Config) : (boot cfg : Cluster Cmd).Recorded where
  ordered _ :=
    { sessionKey := rfl
      placed := fun i e he => by cases he
      applied_le := fun e he => by cases he
      applied_sorted := .nil }
  delivered _ _ h := by cases h
  paced _ := trivial

omit [Bincode (LogEntry Cmd)] in
theorem Source.delivered {a : Action Cmd} {i : NodeId} {e : Event Cmd} (h : c.Source c' a i e) :
    c'.delivered = c.delivered ∨ ∃ j k call, c'.delivered = (j, k) :: c.delivered ∧
      (c.inner j).transport.calls[k]? = some call := by
  cases e with
  | rpc j k req => exact .inr ⟨j, k, _, h.2.2, h.1⟩
  | client token req => exact .inl h.2
  | electionTimeout | response | heartbeat | advanceCommitIndex | applyLog | connect
  | disconnect => exact .inl h

omit [Bincode (LogEntry Cmd)] in
/-- What holds of the worker that moved and of the workers before holds of all workers. -/
theorem forall_worker {p : NodeId → RaftWorkerState Cmd → Prop} {i : NodeId} {n : Node Cmd}
    (hnodes : c'.nodes = (c.setNode i n).nodes) (hi : p i n.worker)
    (h : ∀ j, p j (c.worker j)) (j : NodeId) : p j (c'.worker j) := by
  rw [worker, hnodes]
  change p j (Function.update c.nodes i n j).worker
  by_cases hj : j = i
  · subst hj
    rwa [Function.update_self]
  · rw [Function.update_of_ne hj]
    exact h j

theorem Recorded.exec (h : c.Recorded) {a : Action Cmd} (hexec : c.exec cfg a = some c') :
    c'.Recorded := by
  -- the worker that moves keeps its calls
  have hstep : ∀ {i : NodeId} {n : Node Cmd}, c'.nodes = (c.setNode i n).nodes →
      n.worker.inner.Ordered → n.worker.Paced →
      (c.inner i).transport.calls <+: n.worker.inner.transport.calls →
      (c'.delivered = c.delivered ∨ ∃ j k call, c'.delivered = (j, k) :: c.delivered ∧
        (c.inner j).transport.calls[k]? = some call) → c'.Recorded := by
    intro i n hnodes hordered hpaced hcalls hdelivered
    have hgrow : ∀ j, (c.inner j).transport.calls.length ≤ (c'.inner j).transport.calls.length :=
      fun j => forall_inner (p := fun j w => (c.inner j).transport.calls.length ≤
        w.transport.calls.length) hnodes hcalls.length_le (fun _ => le_rfl) j
    refine ⟨forall_inner (p := fun _ w => w.Ordered) hnodes hordered h.ordered, ?_,
      forall_worker (p := fun _ w => w.Paced) hnodes hpaced h.paced⟩
    intro j k hk
    refine Nat.lt_of_lt_of_le ?_ (hgrow j)
    obtain heq | ⟨j', k', call, heq, hcall⟩ := hdelivered
    · exact h.delivered j k (heq ▸ hk)
    · rw [heq] at hk
      rcases List.mem_cons.mp hk with hk | hk
      · obtain ⟨rfl, rfl⟩ := Prod.mk.inj hk
        exact (List.getElem?_eq_some_iff.mp hcall).1
      · exact h.delivered j k hk
  cases turn_of_exec hexec with
  | @react i e n resp hon hnodes hsource =>
    have hpaced := RaftWorkerState.paced_on (h.paced i) hon
    rcases RaftWorkerState.changes_on (P := fun _ => True) (h.ordered i).placed
      (fun _ _ => trivial) hon with hc | ⟨token, cmd, peer, -, hinner⟩
    · exact hstep hnodes (hc.ordered (h.ordered i)) hpaced hc.prefix_calls hsource.delivered
    · refine hstep hnodes ?_ hpaced ?_ hsource.delivered
      · rw [hinner]
        exact Follower.ordered_forwarding (h.ordered i)
      · rw [hinner]
        exact List.prefix_append _ _
  | @restart i hnodes hdelivered =>
    refine hstep hnodes (Node.ordered_restart (h.ordered i)) ?_ ?_ (.inl hdelivered)
    · rw [Node.restart, WorkerBuilder.start]
      split
      · trivial
      · exact h.paced i
    · rcases (c.nodes i).restart_cases with heq | ⟨s, -, -, -, -, htransport⟩
      · rw [heq]
        exact List.prefix_rfl
      · rw [htransport]
        exact List.prefix_rfl
  | relay hnodes hdelivered =>
    refine ⟨fun i => ?_, fun i k hk => ?_, fun i => ?_⟩
    · rw [inner, worker, hnodes]
      exact h.ordered i
    · rw [inner, worker, hnodes]
      exact h.delivered i k (hdelivered ▸ hk)
    · rw [worker, hnodes]
      exact h.paced i

theorem IsRun.recorded {r : List (Cluster Cmd)} (h : IsRun cfg r) : ∀ c ∈ r, c.Recorded := by
  refine TransitionSystem.IsRun.invariant ?_ ?_ h
  · rintro _ rfl
    exact recorded_boot cfg
  · rintro c c' hc ⟨a, -, hexec⟩
    exact hc.exec hexec

end Cluster

/-! ### A leader and a peer -/

/-- The leader has made calls, and moved what it knows of peer `j`. -/
structure Leader.SendsTo (j : NodeId) (w v : RaftWorker Leader Cmd) : Prop extends
    Leader.Sends w v where
  next : ∀ p ≠ j, v.state.nextIndices.lookup p = w.state.nextIndices.lookup p
  matched : ∀ p ≠ j, v.state.matchIndices.lookup p = w.state.matchIndices.lookup p
  forwards : w.inner.KeepsForwards v.inner

omit [Bincode (LogEntry Cmd)] in
theorem Leader.SendsTo.trans {j : NodeId} {w v u : RaftWorker Leader Cmd}
    (h : Leader.SendsTo j w v) (h' : Leader.SendsTo j v u) : Leader.SendsTo j w u where
  toSends := trans_of Leader.Sends h.toSends h'.toSends
  next p hp := (h'.next p hp).trans (h.next p hp)
  matched p hp := (h'.matched p hp).trans (h.matched p hp)
  forwards := h.forwards.trans h'.forwards

omit [Bincode (LogEntry Cmd)] in
theorem Leader.OnlyCalls.sendsTo {w v : RaftWorker Leader Cmd} (h : Leader.OnlyCalls w v)
    (j : NodeId) : Leader.SendsTo j w v where
  inner :=
    let ⟨_, hv⟩ := h.inner
    ⟨_, hv⟩
  waiting := h.waiting
  next p _ := by rw [h.nextIndices]
  matched p _ := by rw [h.matchIndices]
  forwards := h.forwards

/-- Node `i` leads with the worker `w`, and nothing stands between it and its peer `j`: the peer
runs, is connected, takes the next call, is not in a newer term and has a log that can be mended;
and it would not refuse an empty request to a leader with a log of one entry. -/
structure Linked (c : Cluster Cmd) (i j : NodeId) (w : RaftWorker Leader Cmd) : Prop where
  leader : c.LeaderAt i w
  running : (c.nodes j).panicked = none
  connected : ∃ client, w.inner.peerClients.lookup j = some client ∧ client.connected = true
  unblocked : c.Unblocked i j
  term_le : c.currentTerm j ≤ w.inner.storage.currentTerm
  mendable : Mendable (c.storage j).log w.inner.storage.log
  probe : w.inner.storage.log.length = 1 →
    w.inner.storage.log <+: (c.storage j).log ∨ w.state.nextIndices.lookup j = some 1

/-- The cluster `c`, with node `i` as leader `w`, has become `c'` with the leader `w'`, and only
node `j` and what concerns it has changed. -/
structure Served (i j : NodeId) (c : Cluster Cmd) (w : RaftWorker Leader Cmd) (c' : Cluster Cmd)
    (w' : RaftWorker Leader Cmd) : Prop where
  leader : c'.LeaderAt i w'
  nodes : ∀ p, p ≠ i → p ≠ j → c'.nodes p = c.nodes p
  sends : Leader.SendsTo j w w'
  unblocked : ∀ p ≠ i, c.Unblocked i p → c'.Unblocked i p

omit [Bincode (LogEntry Cmd)] in
theorem Served.trans {i j : NodeId} {c c' c'' : Cluster Cmd} {w w' w'' : RaftWorker Leader Cmd}
    (h : Served i j c w c' w') (h' : Served i j c' w' c'' w'') : Served i j c w c'' w'' where
  leader := h'.leader
  nodes p hi hj := (h'.nodes p hi hj).trans (h.nodes p hi hj)
  sends := h.sends.trans h'.sends
  unblocked p hp := h'.unblocked p hp ∘ h.unblocked p hp

omit [Bincode (LogEntry Cmd)] in
theorem Served.refl {c : Cluster Cmd} {i : NodeId} {w : RaftWorker Leader Cmd}
    (h : c.LeaderAt i w) (j : NodeId) : Served i j c w c w where
  leader := h
  nodes _ _ _ := rfl
  sends := (Leader.OnlyCalls.refl w).sendsTo j
  unblocked _ _ := id

theorem Served.log_eq {i j : NodeId} {c c' : Cluster Cmd} {w w' : RaftWorker Leader Cmd}
    (h : Served i j c w c' w') : w'.inner.storage.log = w.inner.storage.log := by
  obtain ⟨calls, hinner⟩ := h.sends.inner
  rw [hinner]

/-- The leader stays connected to its peer while it makes calls. -/
theorem Linked.of_served {i j : NodeId} {c c' : Cluster Cmd} {w w' : RaftWorker Leader Cmd}
    (h : Linked c i j w) (hji : j ≠ i) (hs : Served i j c w c' w')
    (hrunning : (c'.nodes j).panicked = none)
    (hterm : c'.currentTerm j ≤ w.inner.storage.currentTerm)
    (hmend : Mendable (c'.storage j).log w.inner.storage.log)
    (hprobe : w.inner.storage.log.length = 1 →
      w.inner.storage.log <+: (c'.storage j).log ∨ w'.state.nextIndices.lookup j = some 1) :
    Linked c' i j w' := by
  obtain ⟨calls, hinner⟩ := hs.sends.inner
  refine ⟨hs.leader, hrunning, ?_, hs.unblocked j hji h.unblocked, ?_, ?_, ?_⟩ <;> rw [hinner]
  · exact h.connected
  · exact hterm
  · exact hmend
  · exact hprobe

/-- What a leader's cluster says of the leader and of a peer. -/
theorem Linked.exists_sim {cfg : Config} {c : Cluster Cmd} {r : List (Cluster Cmd)} {i j : NodeId}
    {w : RaftWorker Leader Cmd}
    (hr : Cluster.IsRunWhere cfg (fun c a => c.shortProbeRefused a = false) (c :: r))
    (hi : i ∈ cfg.ids) (hj : j ∈ cfg.peers i) (h : Linked c i j w) : ∃ a : Spec Cmd,
      Leading cfg ⟨False, True⟩ c.replies a i w ∧
      Consensus.Reachable LogEntry.term cfg.ids (Guard.mk False True).Compared a ∧
      (c.storage j).Wf ∧ Indexed w.inner.storage.log ∧
      Matches (c.storage j).log w.inner.storage.log ∧
      ((c.worker j).role = .leader → c.currentTerm j < w.inner.storage.currentTerm) := by
  obtain ⟨a, hreach, hsim, -⟩ := Cluster.IsRunWhere.sim (g := ⟨False, True⟩)
    (fun c act hact => ⟨False.elim, fun _ => hact⟩) hr
  have hsim := hsim c rfl
  have hlead := hsim.leading hi h.leader
  obtain ⟨hjmem, hji⟩ := (cfg.mem_peers i hi j).mp hj
  have hpeer := hsim.nodes j hjmem
  have hlog := hlead.log_eq hreach
  refine ⟨a, hlead, hreach, hpeer.inner.wf, hlog ▸ hsim.indexed _, ?_, fun hrole => ?_⟩
  · rw [hlog]
    have hmatch := matches_leaderLog hreach.inv j (a.term i)
    rwa [← hpeer.inner.log] at hmatch
  · -- two leaders are in different terms
    refine lt_of_le_of_ne h.term_le fun heq => hji ?_
    have hterm : a.term j = a.term i := by
      rw [← hpeer.inner.term, ← hlead.inner.term]
      exact heq
    have hrolesim := hpeer.role h.running
    rw [show (c.nodes j).worker = c.worker j from rfl] at hrolesim
    cases hw : c.worker j with
    | follower v => simp [hw, RaftWorkerState.role] at hrole
    | candidate v => simp [hw, RaftWorkerState.role] at hrole
    | leader v =>
      rw [hw] at hrolesim
      have hv : a.leader (a.term j) = some j := LeaderSim.leader hrolesim
      rw [hterm, hlead.leader.leader] at hv
      exact (Option.some.inj hv).symm

/-! ### One exchange -/

/-- The index up to which a request takes the entries behind index `n`. -/
def batchEnd (L : List (LogEntry Cmd)) (n : ℕ) : ℕ :=
  n + ((L.drop n).take Leader.maxBatchSize).length

section

variable {L : List (LogEntry Cmd)} {n : ℕ}

omit [Bincode (LogEntry Cmd)]

theorem take_batchEnd (hn : n ≤ L.length) :
    L.take n ++ (L.drop n).take Leader.maxBatchSize = L.take (batchEnd L n) := by
  have hprefix := List.take_prefix (n + Leader.maxBatchSize) L
  rw [List.take_add] at hprefix
  have heq := List.prefix_iff_eq_take.mp hprefix
  rwa [List.length_append, List.length_take_of_le hn] at heq

end

section

variable {cfg : Config} {c : Cluster Cmd} {r : List (Cluster Cmd)} {i j : NodeId}
  {w : RaftWorker Leader Cmd} {n k : ℕ}

/-- The leader has taken note of what peer `j` has accepted, up to index `n`. -/
structure Accepted (c : Cluster Cmd) (j : NodeId) (w : RaftWorker Leader Cmd)
    (L : List (LogEntry Cmd)) (n : ℕ) : Prop where
  next : w.state.nextIndices.lookup j = some (n + 1)
  matched : w.state.matchIndices.lookup j = some n
  free : j ∉ w.state.inFlightPeers
  log : L.take n <+: (c.storage j).log

variable (cfg) in
/-- Peer `j` has got call `k` of the leader `w`, as the worker `v`, and has replied. -/
structure Delivered (c c₁ : Cluster Cmd) (i j : NodeId) (k : ℕ) (w : RaftWorker Leader Cmd)
    (v : RaftWorker Follower Cmd) (resp : AppendEntriesResponse) : Prop where
  exec : c.exec cfg (.deliver i k) = some c₁
  node : c₁.nodes j = ⟨.follower v, none⟩
  others : ∀ p ≠ j, c₁.nodes p = c.nodes p
  delivered : c₁.delivered = (i, k) :: c.delivered
  reply : c₁.replies.lookup (i, k) = some (.appendEntries resp)
  unblocked : ∀ p ≠ i, c.Unblocked i p → c₁.Unblocked i p
  resp_term : resp.term = w.inner.storage.currentTerm
  term : v.inner.storage.currentTerm = w.inner.storage.currentTerm
  mendable : Mendable v.inner.storage.log w.inner.storage.log

/-- The peer gets the request that takes the entries behind index `n`: it refuses it for the entry
before them, or has them afterwards. -/
theorem Linked.delivered
    (hr : Cluster.IsRunWhere cfg (fun c a => c.shortProbeRefused a = false) (c :: r))
    (hi : i ∈ cfg.ids) (hj : j ∈ cfg.peers i) (h : Linked c i j w)
    (hn : n ≤ w.inner.storage.log.length) (hfresh : (i, k) ∉ c.delivered)
    (hcall : w.inner.transport.calls[k]? =
      some (j, .appendEntries (Leader.appendRequest w.inner n))) :
    ∃ c₁ v resp, Delivered cfg c c₁ i j k w v resp ∧
      (resp.success = false ∧ ¬w.inner.storage.log.take n <+: (c.storage j).log ∨
        resp.success = true ∧
          w.inner.storage.log.take (batchEnd w.inner.storage.log n) <+: v.inner.storage.log) := by
  obtain ⟨a, -, -, hwf, hidx, hmatch, hrole⟩ := h.exists_sim hr hi hj
  have hslice : w.inner.storage.log.take n ++ (Leader.appendRequest w.inner n).entries =
    w.inner.storage.log.take (batchEnd w.inner.storage.log n) := take_batchEnd hn
  have hrole : (c.worker j).role = .leader → (c.worker j).inner.storage.currentTerm <
    (Leader.appendRequest w.inner n).term := hrole
  obtain ⟨v, resp, hon, hresp, hterm, hmend, hcase⟩ :=
    RaftWorkerState.onRpc_of_mendable (w := c.worker j) hwf i k hrole h.term_le
      (List.length_take_of_le hn) (hslice ▸ List.take_prefix _ _) (fun _ => rfl) hidx hmatch
      h.mendable
  obtain ⟨c₁, hexec, hnode, hothers, hdelivered, hreplies, -⟩ := Cluster.exec_deliver hi hfresh
    (show (c.inner i).transport.calls[k]? = some (j, _) by rw [h.leader.inner, hcall])
    h.running hon
  have hreply : c₁.replies.lookup (i, k) = some (.appendEntries resp) := by
    rw [hreplies, List.lookup_cons_self]
  have hanswers := RaftWorkerState.answers_onRpc_appendEntries (c.worker j) i k
    (Leader.appendRequest w.inner n)
  rw [hon] at hanswers
  have hunblocked : ∀ p ≠ i, c.Unblocked i p → c₁.Unblocked i p := fun p _ hp =>
    hp.deliver ((cfg.mem_peers i hi j).mp hj).2 hnode hothers hdelivered hreplies rfl hanswers
  refine ⟨c₁, v, resp,
    ⟨hexec, hnode, hothers, hdelivered, hreply, hunblocked, hresp, hterm, hmend⟩, ?_⟩
  rcases hcase with ⟨hrefused, hpre, -⟩ | ⟨haccepted, hadopted⟩
  · exact .inl ⟨hrefused, hpre⟩
  · exact .inr ⟨haccepted, hslice ▸ hadopted⟩

/-- A step of the leader alone that moves no index. -/
theorem Linked.setNode (h : Linked c i j w) (hji : j ≠ i) {v : RaftWorker Leader Cmd}
    (hsends : Leader.SendsTo j w v)
    (hnext : v.state.nextIndices.lookup j = w.state.nextIndices.lookup j) :
    Linked (c.setNode i ⟨.leader v, none⟩) i j v ∧
      Served i j c w (c.setNode i ⟨.leader v, none⟩) v ∧
      (c.setNode i ⟨.leader v, none⟩).storage j = c.storage j := by
  have hnode : (c.setNode i ⟨.leader v, none⟩).nodes j = c.nodes j :=
    Cluster.nodes_setNode_of_ne c hji _
  have hstorage : (c.setNode i ⟨.leader v, none⟩).storage j = c.storage j :=
    Cluster.storage_congr hnode
  have hserved : Served i j c w (c.setNode i ⟨.leader v, none⟩) v :=
    ⟨Cluster.nodes_setNode_self _ _ _, fun p hpi _ => Cluster.nodes_setNode_of_ne _ hpi _, hsends,
      fun p hpi hp => hp.setNode hpi (h.leader.inner ▸ hsends.forwards)⟩
  refine ⟨h.of_served hji hserved (by rw [hnode, h.running]) ?_ ?_ ?_, hserved, hstorage⟩
  · rw [Cluster.currentTerm, hstorage]
    exact h.term_le
  · rw [hstorage]
    exact h.mendable
  · rw [hstorage, hnext]
    exact h.probe

/-- The peer takes the call for which the leader waits. -/
theorem Linked.admits (h : Linked c i j w) (hk : Leader.Awaits w j n k) :
    c.Admits (.deliver i k) :=
  h.unblocked.admits (by rw [h.leader.inner, hk.call])

/-- A leader calls a free peer with a heartbeat. -/
theorem Linked.heartbeat
    (hr : Cluster.IsRunWhere cfg (fun c a => c.shortProbeRefused a = false) (c :: r))
    (hi : i ∈ cfg.ids) (hj : j ∈ cfg.peers i) (h : Linked c i j w)
    (hfree : j ∉ w.state.inFlightPeers) (hnext : w.state.nextIndices.lookup j = some (n + 1)) :
    ∃ c' w' k, c.exec cfg (.heartbeat i) = some c' ∧ Linked c' i j w' ∧ Served i j c w c' w' ∧
      c'.storage j = c.storage j ∧ Leader.Awaits w' j n k ∧ (i, k) ∉ c'.delivered := by
  obtain ⟨a, hlead, hreach, -⟩ := h.exists_sim hr hi hj
  have hji : j ≠ i := ((cfg.mem_peers i hi j).mp hj).2
  obtain ⟨-, hpeers, -⟩ := hlead.inner.member
  have hsub : w.inner.peers ⊆ cfg.peers i := fun p hp => hpeers ▸ hp
  obtain ⟨v, hrun, hcalls, hasks⟩ := hlead.appendEntriesToAll_eq_ok trivial hi hreach hsub
  obtain ⟨k, hk, hawaits⟩ := hasks j (hpeers ▸ hj) n ⟨h.connected, hfree⟩ hnext
  obtain ⟨hlinked, hserved, hstorage⟩ :=
    h.setNode hji (hcalls.sendsTo j) (by rw [hcalls.nextIndices])
  refine ⟨_, v, k, Cluster.exec_heartbeat hi h.leader hrun, hlinked, hserved, hstorage, hawaits, ?_⟩
  intro hmem
  have hlt := (Cluster.IsRun.recorded hr.isRun c List.mem_cons_self).delivered i k hmem
  rw [h.leader.inner] at hlt
  omega

/-- Node `j` has got the log that the leader `w` has in `c`, and the leader knows it. -/
def CaughtUp (i j : NodeId) (c : Cluster Cmd) (w : RaftWorker Leader Cmd) (c' : Cluster Cmd) :
    Prop :=
  ∃ w', Served i j c w c' w' ∧ Linked c' i j w' ∧
    Accepted c' j w' w.inner.storage.log w.inner.storage.log.length

theorem CaughtUp.of_served {c' c'' : Cluster Cmd} {w' : RaftWorker Leader Cmd}
    (hs : Served i j c w c' w') (h : CaughtUp i j c' w' c'') : CaughtUp i j c w c'' := by
  obtain ⟨w'', hs', hlinked, hacc⟩ := h
  rw [hs.log_eq] at hacc
  exact ⟨w'', hs.trans hs', hlinked, hacc⟩

end

end Wraft
