import Wraft.Raft.Reaction

/-!
# Reactions of a leader

`Leading` is what holds of a leader's worker; every function that a leader runs keeps it, or
panics. Sending entries changes nothing of the abstract protocol (`appendEntries_triple`), a
client's command is proposed (`handleLogUpdate_sim`), and the commit index moves over entries
that a majority has acknowledged (`Leading.exists_majority`, `advanceCommitIndex_sim`).

What a leader counts as matched rests on the responses it gets (`handleAppendEntriesResponse_sim`).
The range of an empty request starts at the last index rather than behind the previous one, so a
refusal moves the next index two steps back; that is harmless as long as the follower's log was
refused for an index above `1`.
-/

namespace Wraft

open Consensus
open EStateM (Triple)

variable {Cmd : Type} [Bincode (LogEntry Cmd)] {cfg : Config} {g : Guard} {replies : Replies}
  {a a' : Spec Cmd} {i : NodeId} {w : RaftWorker Leader Cmd}

variable (cfg g replies a i) in
/-- The worker of a running leader. -/
structure Leading (w : RaftWorker Leader Cmd) : Prop where
  inner : InnerSim cfg g replies a i w.inner
  leader : LeaderSim cfg g replies a i w

variable (cfg g replies a i) in
/-- The worker of a leader that panicked. -/
structure Stopped (p : Panic) (w : RaftWorker Leader Cmd) : Prop where
  inner : InnerSim cfg g replies a i w.inner
  sound : g.longProbes → p ≠ .subOverflow ∧ p ≠ .prevEntry

namespace Leading

theorem log_eq (h : Leading cfg g replies a i w) (hr : Reached cfg g a) :
    w.inner.storage.log = a.leaderLog (a.term i) :=
  h.inner.log.trans (hr.inv.leader_log h.leader.leader)

/-- What a leader says about its commit index is so. -/
theorem leaderCommitSim (h : Leading cfg g replies a i w) (hr : Reached cfg g a)
    (hg : g.upToDate) (n : ℕ) : LeaderCommitSim cfg a (Leader.appendRequest w.inner n) := by
  have happ := h.inner.applied hg
  have hlog := h.inner.log.symm.trans (h.log_eq hr)
  refine { le := ?le, committed := ?committed, empty := fun hnil => ?empty }
  case le =>
    show w.inner.commitIndex ≤ (a.leaderLog w.inner.storage.currentTerm).length
    rw [h.inner.term, ← hlog]
    exact happ.commit_le
  case committed =>
    show Committed _ _ a w.inner.storage.currentTerm
      ((a.leaderLog w.inner.storage.currentTerm).take w.inner.commitIndex)
    rw [h.inner.term, ← hlog]
    exact happ.commit
  case empty =>
    have hnil : (w.inner.storage.log.drop n).take Leader.maxBatchSize = [] := hnil
    have hlen := congrArg List.length hnil
    simp only [List.length_take, List.length_drop, List.length_nil, Leader.maxBatchSize,
      h.inner.log] at hlen
    have := happ.commit_le
    show w.inner.commitIndex ≤ n
    omega

/-- A request is sent. -/
theorem sent (h : Leading cfg g replies a i w) (hr : Reached cfg g a) {peer : NodeId} {n : ℕ}
    (hpeer : peer ∈ w.inner.peerClients) (hfree : peer ∉ w.state.inFlightPeers)
    (hnext : w.state.nextIndices.lookup peer = some (n + 1))
    (hn : n ≤ w.inner.storage.log.length) :
    Leading cfg g replies a i (Leader.sent w peer n) := by
  obtain ⟨hmem, hne⟩ := h.inner.member.2.2.2.2 peer hpeer
  have hcall : CallSim cfg g a i (peer, .appendEntries (Leader.appendRequest w.inner n)) := by
    refine ⟨hmem, hne, ?_, ?_, fun hg => h.leaderCommitSim hr hg n⟩
    · show a.leader w.inner.storage.currentTerm = some i
      rw [h.inner.term, h.leader.leader]
    · show (Leader.appendRequest w.inner n).SliceOf (a.leaderLog w.inner.storage.currentTerm)
      rw [h.inner.term, ← h.log_eq hr]
      exact Leader.sliceOf_appendRequest w.inner hn
  have hget : ∀ {k : ℕ} {x}, w.inner.transport.calls[k]? = some x →
      (Leader.sent w peer n).inner.transport.calls[k]? = some x := by
    intro k x hk
    show (w.inner.transport.calls ++ [_])[k]? = _
    rw [List.getElem?_append_left (List.getElem?_eq_some_iff.mp hk).1, hk]
  refine { inner := h.inner.call (by simpa using hcall), leader := { h.leader with
    tasks := ?tasks, distinct := ?distinct } }
  case tasks =>
    intro task htask
    rcases List.mem_cons.mp htask with rfl | htask
    · refine ⟨Leader.appendRequest w.inner n, List.getElem?_concat_length, h.inner.term, rfl, rfl,
        hnext, Finset.mem_insert_self _ _, fun _ hrep => ?_⟩
      -- nobody has answered the call yet
      obtain ⟨dst, r, hk, -⟩ := h.inner.replies hrep
      have := (List.getElem?_eq_some_iff.mp hk).1
      exact absurd this (lt_irrefl _)
    · obtain ⟨r, hr⟩ := h.leader.tasks task htask
      exact ⟨r, { hr with call := hget hr.call, peer := Finset.mem_insert_of_mem hr.peer }⟩
  case distinct =>
    have hold : ∀ task ∈ w.state.responsesRx, task.peerId ≠ peer := by
      rintro task htask rfl
      obtain ⟨r, hr⟩ := h.leader.tasks task htask
      exact hfree hr.peer
    intro task htask task' htask' heq
    rcases List.mem_cons.mp htask with rfl | htask <;>
      rcases List.mem_cons.mp htask' with rfl | htask'
    · rfl
    · exact absurd heq.symm (hold task' htask')
    · exact absurd heq (hold task htask)
    · exact h.leader.distinct task htask task' htask' heq

end Leading

omit [Bincode (LogEntry Cmd)] in
/-- A leader has a match index for each of its peers. -/
theorem LeaderSim.exists_match (h : LeaderSim cfg g replies a i w) (hi : i ∈ cfg.ids) {p : NodeId}
    (hp : p ∈ cfg.ids) (hne : p ≠ i) : ∃ m, w.state.matchIndices.lookup p = some m :=
  Option.isSome_iff_exists.mp
    (AList.lookup_isSome.mpr (h.has_match p ((cfg.mem_peers i hi p).mpr ⟨hp, hne⟩)))

/-- **`append_entries`** keeps what holds of a leader. -/
theorem appendEntries_triple (hi : i ∈ cfg.ids) (hr : Reached cfg g a) (peer : NodeId) :
    Triple (Leading cfg g replies a i) (Leader.appendEntries peer)
      (fun _ => Leading cfg g replies a i) (Stopped cfg g replies a i) := by
  intro w h
  rcases Leader.appendEntries_cases h.inner.wf peer with hrun | ⟨-, hrun⟩ |
    ⟨hpeer, hfree, next, hnext, hcase⟩
  · rw [hrun]
    exact h
  · rw [hrun]
    exact ⟨h.inner, fun _ => by simp⟩
  rcases hcase with ⟨rfl, hrun⟩ | ⟨hlong, hrun⟩ | ⟨n, rfl, hn, hrun⟩
  · rw [hrun]
    refine ⟨h.inner, fun hg => ?_⟩
    obtain ⟨hmem, hne⟩ := h.inner.member.2.2.2.2 peer hpeer
    obtain ⟨m, hm⟩ := h.leader.exists_match hi hmem hne
    have := (h.leader.above hg hnext hm).1
    omega
  · rw [hrun]
    have := h.leader.next_le hnext
    rw [h.inner.log] at hlong
    omega
  · rw [hrun]
    exact h.sent hr hpeer hfree hnext hn

theorem appendEntriesToAll_triple (hi : i ∈ cfg.ids) (hr : Reached cfg g a) (peers : List NodeId) :
    Triple (Leading cfg g replies a i) (Leader.appendEntriesToAll peers)
      (fun _ => Leading cfg g replies a i) (Stopped cfg g replies a i) := by
  induction peers with
  | nil => exact fun _ h => h
  | cons peer peers ih => exact (appendEntries_triple hi hr peer).bind fun _ => ih

theorem heartbeat_triple (hi : i ∈ cfg.ids) (hr : Reached cfg g a) :
    Triple (Leading cfg g replies a i) Leader.heartbeat
      (fun _ => Leading cfg g replies a i) (Stopped cfg g replies a i) := fun w h =>
  appendEntriesToAll_triple hi hr w.inner.peers w h

/-! ### Client requests -/

omit [Bincode (LogEntry Cmd)] in
/-- A leader's bookkeeping survives its own proposals. -/
theorem LeaderSim.propose (h : LeaderSim cfg g replies a i w) (hi : Inv LogEntry.term cfg.ids a)
    {e : LogEntry Cmd} (hstep : Step LogEntry.term cfg.ids g.Compared a (a.propose i e))
    {w' : RaftWorker Leader Cmd} (hstate : w'.state.nextIndices = w.state.nextIndices ∧
      w'.state.matchIndices = w.state.matchIndices ∧
      w'.state.inFlightPeers = w.state.inFlightPeers ∧
      w'.state.responsesRx = w.state.responsesRx ∧
      w'.inner.transport.calls = w.inner.transport.calls) :
    LeaderSim cfg g replies (a.propose i e) i w' := by
  obtain ⟨hnext, hmatch, hpeers, hrx, hcalls⟩ := hstate
  refine
    { leader := h.leader
      has_next := by rw [hnext]; exact h.has_next
      has_match := by rw [hmatch]; exact h.has_match
      next_le := ?next_le
      acked := ?acked
      tasks := ?tasks
      distinct := by rw [hrx]; exact h.distinct
      above := by rw [hnext, hmatch]; exact h.above }
  case next_le =>
    intro p n hn
    rw [hnext] at hn
    rw [State.log_propose, List.length_append]
    exact (h.next_le hn).trans (by simp)
  case acked =>
    intro p m hm
    rw [hmatch] at hm
    obtain ⟨h1, h2, h3⟩ := h.acked hm
    exact ⟨h1, h2, h3.trans (hstep.acked_le hi p _)⟩
  case tasks =>
    intro task htask
    rw [hrx] at htask
    obtain ⟨r, hr⟩ := h.tasks task htask
    exact ⟨r, hcalls ▸ hr.call, hr.term, hr.last, hr.first, hnext ▸ hr.next, hpeers ▸ hr.peer,
      fun hm => hr.refused (hmatch ▸ hm)⟩

/-- **`handle_log_update`** proposes the client's command. -/
theorem handleLogUpdate_sim (hi : i ∈ cfg.ids) (h : Leading cfg g replies a i w)
    (hr : Reached cfg g a) (hidx : ∀ t, Indexed (a.leaderLog t)) (cmd : Cmd) (tx : ClientSender) :
    ∃ a', Turns cfg g i a a' ∧ (∀ t, Indexed (a'.leaderLog t)) ∧
      Triple (w = ·) (Leader.handleLogUpdate cmd tx) (fun _ => Leading cfg g replies a' i)
        (Stopped cfg g replies a' i) := by
  set e : LogEntry Cmd :=
    { cmd, idx := w.inner.storage.lastLogIndex + 1, term := w.inner.storage.currentTerm }
  have hstep : Step LogEntry.term cfg.ids g.Compared a (a.propose i e) :=
    .propose a i e h.leader.leader h.inner.term
  have hturn : Turns cfg g i a (a.propose i e) := ⟨hr, Turn.of_step hstep (frame_propose a i e)⟩
  obtain ⟨s', hrun, hwf, hsame, hlog⟩ := Storage.appendLog_eq h.inner.wf (e := e) rfl
  have hlog' : s'.log = (a.propose i e).log i := by rw [hlog, h.inner.log, State.log_propose]
  have hact := h.inner.act hturn hwf hsame.sessionKey hlog' (hsame.currentTerm.trans h.inner.term)
    (hsame.votedFor.trans h.inner.vote)
  refine ⟨_, hturn, fun t => ?_, ?_⟩
  · by_cases ht : t = a.term i
    · subst ht
      rw [State.leaderLog_propose, ← State.log_propose, ← hlog']
      exact fun _ _ => hwf.idx_eq
    · rw [State.leaderLog_propose_of_ne _ _ _ ht]
      exact hidx t
  · rintro _ rfl
    unfold Leader.handleLogUpdate
    rw [EStateM.run_bind_of_ok (EStateM.run_get _), EStateM.run_bind_of_ok
      (Leader.withInner_run_of_ok (RaftWorkerInner.withStorage_run_of_ok hrun)),
      EStateM.run_bind_of_ok (EStateM.run_modify _ _)]
    exact appendEntriesToAll_triple hi (hturn.turn.reachable hr) w.inner.peers _
      ⟨{ hact with }, h.leader.propose hr.inv hstep ⟨rfl, rfl, rfl, rfl, rfl⟩⟩

/-! ### The commit index -/

/-- What a quorum has matched, a majority has acknowledged. -/
theorem Leading.exists_majority (hi : i ∈ cfg.ids) (h : Leading cfg g replies a i w)
    (hr : Reached cfg g a) {n : ℕ} (hn : Leader.Committable w n) :
    ∃ Q, cfg.ids.IsMajority Q ∧ i ∈ Q ∧ w.inner.quorum ≤ Q.card ∧
      ∀ q ∈ Q, n ≤ a.acked q (a.term i) := by
  obtain ⟨hagree, e, he, -⟩ := hn
  set peers := (w.state.matchIndices.entries.filter (n ≤ ·.2)).map Sigma.fst with hpeers
  have hnodup : peers.Nodup :=
    (List.filter_sublist.map Sigma.fst).nodup w.state.matchIndices.nodupKeys
  have hpeer : ∀ p ∈ peers, p ∈ cfg.ids ∧ p ≠ i ∧ n ≤ a.acked p (a.term i) := by
    intro p hp
    obtain ⟨⟨p, m⟩, hmem, rfl⟩ := List.mem_map.mp hp
    obtain ⟨hmem, hle⟩ := List.mem_filter.mp hmem
    obtain ⟨h1, h2, h3⟩ := h.leader.acked (AList.mem_lookup_iff.mpr hmem)
    exact ⟨h1, h2, (of_decide_eq_true hle).trans h3⟩
  have hcard : (insert i peers.toFinset).card = w.state.agree n + 1 := by
    rw [Finset.card_insert_of_notMem, List.toFinset_card_of_nodup hnodup, hpeers,
      List.length_map, Leader.agree]
    rw [List.mem_toFinset]
    exact fun hp => (hpeer i hp).2.1 rfl
  have hquorum : w.inner.quorum ≤ (insert i peers.toFinset).card := by
    rw [hcard]
    omega
  have hsub : insert i peers.toFinset ⊆ cfg.ids := by
    intro q hq
    rcases Finset.mem_insert.mp hq with rfl | hq
    · exact hi
    · exact (hpeer q (List.mem_toFinset.mp hq)).1
  refine ⟨_, isMajority_of_quorum hi h.inner.member hsub hquorum, Finset.mem_insert_self _ _,
    hquorum, fun q hq => ?_⟩
  rcases Finset.mem_insert.mp hq with rfl | hq
  · rw [hr.inv.leader_acked h.leader.leader, ← h.log_eq hr]
    have := (List.getElem?_eq_some_iff.mp he).1
    omega
  · exact (hpeer q (List.mem_toFinset.mp hq)).2.2

/-- Whatever can be committed is chosen. -/
theorem Leading.chosen (hi : i ∈ cfg.ids) (h : Leading cfg g replies a i w)
    (hr : Reached cfg g a) {n : ℕ} (hpos : 0 < n) (hn : Leader.Committable w n) :
    Chosen LogEntry.term cfg.ids a (a.term i) (n - 1) := by
  obtain ⟨Q, hQ, -, -, hack⟩ := h.exists_majority hi hr hn
  obtain ⟨-, e, he, hterm⟩ := hn
  refine ⟨⟨e, h.log_eq hr ▸ he, hterm.trans h.inner.term⟩, Q, hQ, fun q hq => ?_⟩
  have := hack q hq
  omega

/-- **`advance_commit_index`** commits what is chosen. -/
theorem advanceCommitIndex_triple (hi : i ∈ cfg.ids) (hr : Reached cfg g a) :
    Triple (Leading cfg g replies a i) Leader.advanceCommitIndex
      (fun _ => Leading cfg g replies a i) (Stopped cfg g replies a i) := by
  intro w h
  obtain ⟨n, answers, waiting, hle, hlen, hall, -, -, hrun⟩ :=
    Leader.advanceCommitIndex_eq h.inner.wf
  rw [hrun]
  refine ⟨{ h.inner with applied := fun hg => ?_ }, { h.leader with tasks := fun task htask => ?_ }⟩
  swap
  · obtain ⟨r, hr⟩ := h.leader.tasks task htask
    exact ⟨r, { hr with }⟩
  have happ := h.inner.applied hg
  rcases hle.eq_or_lt with heq | hlt
  · show AppliedSim cfg a i n _ _
    rw [← heq]
    exact happ
  have hch := h.chosen hi hr (by omega) (hall n hlt le_rfl)
  refine { happ with commit_le := ?_, commit := ?_ }
  · rw [← h.inner.log]
    show n ≤ _
    omega
  · show Committed _ _ a _ ((a.log i).take n)
    have := hch.committed
    rwa [Nat.sub_add_cancel (by omega), ← h.log_eq hr, h.inner.log] at this

/-! ### Responses -/

/-- The leader's worker when it has taken the response of `task` from its channel. -/
def Leader.ended (w : RaftWorker Leader Cmd) (task : InFlightAppend) : RaftWorker Leader Cmd :=
  { w with state := { w.state with
      responsesRx := w.state.responsesRx.filter (·.call ≠ task.call)
      inFlightPeers := w.state.inFlightPeers.erase task.peerId } }

namespace Leading

theorem ended_ne (h : Leading cfg g replies a i w) {task : InFlightAppend}
    (htask : task ∈ w.state.responsesRx) :
    ∀ task' ∈ (Leader.ended w task).state.responsesRx, task'.peerId ≠ task.peerId := by
  intro task' htask' heq
  obtain ⟨hmem, hne⟩ := List.mem_filter.mp htask'
  exact of_decide_eq_true hne (h.leader.distinct task' hmem task htask heq ▸ rfl)

theorem ended (h : Leading cfg g replies a i w) {task : InFlightAppend}
    (htask : task ∈ w.state.responsesRx) : Leading cfg g replies a i (Leader.ended w task) := by
  have hsub : ∀ task' ∈ (Leader.ended w task).state.responsesRx, task' ∈ w.state.responsesRx :=
    fun task' hmem => List.mem_of_mem_filter hmem
  refine { inner := h.inner, leader := { h.leader with
    tasks := fun task' hmem => ?_
    distinct := fun t ht t' ht' => h.leader.distinct t (hsub t ht) t' (hsub t' ht') } }
  obtain ⟨r, hr⟩ := h.leader.tasks task' (hsub task' hmem)
  exact ⟨r, { hr with peer := Finset.mem_erase.mpr ⟨h.ended_ne htask task' hmem, hr.peer⟩ }⟩

/-- New indices for a peer that no task waits for. -/
theorem setIndices (h : Leading cfg g replies a i w) {w' : RaftWorker Leader Cmd} {p : NodeId}
    {n m : ℕ} (hfree : ∀ task ∈ w.state.responsesRx, task.peerId ≠ p) (hp : p ∈ cfg.ids)
    (hne : p ≠ i) (hn : n ≤ (a.log i).length + 1) (hm : m ≤ a.acked p (a.term i))
    (habove : g.longProbes → 1 ≤ n ∧ (m = 0 ∨ m + 1 = n)) (hinner : w'.inner = w.inner)
    (hpeers : w'.state.inFlightPeers = w.state.inFlightPeers)
    (hrx : w'.state.responsesRx = w.state.responsesRx)
    (hnext : ∀ q, w'.state.nextIndices.lookup q =
      if q = p then some n else w.state.nextIndices.lookup q)
    (hmatch : ∀ q, w'.state.matchIndices.lookup q =
      if q = p then some m else w.state.matchIndices.lookup q) :
    Leading cfg g replies a i w' := by
  refine { inner := hinner ▸ h.inner, leader :=
    { leader := h.leader.leader
      has_next := fun q hq => ?has_next, has_match := fun q hq => ?has_match
      next_le := ?next_le, acked := ?acked
      tasks := ?tasks, distinct := by rw [hrx]; exact h.leader.distinct, above := ?above } }
  case has_next =>
    rw [← AList.lookup_isSome, hnext]
    split_ifs
    · rfl
    · exact AList.lookup_isSome.mpr (h.leader.has_next q hq)
  case has_match =>
    rw [← AList.lookup_isSome, hmatch]
    split_ifs
    · rfl
    · exact AList.lookup_isSome.mpr (h.leader.has_match q hq)
  case next_le =>
    intro q k hk
    rw [hnext] at hk
    split_ifs at hk
    · exact Option.some.inj hk ▸ hn
    · exact h.leader.next_le hk
  case acked =>
    intro q k hk
    rw [hmatch] at hk
    split_ifs at hk with hq
    · exact hq ▸ Option.some.inj hk ▸ ⟨hp, hne, hm⟩
    · exact h.leader.acked hk
  case tasks =>
    intro task htask
    rw [hrx] at htask
    obtain ⟨r, hr⟩ := h.leader.tasks task htask
    -- the task waits for another peer, whose indices stay
    have htp := hfree task htask
    refine ⟨r, by rw [hinner]; exact hr.call, hr.term, hr.last, hr.first, ?_,
      by rw [hpeers]; exact hr.peer, fun hk => hr.refused ?_⟩
    · rw [hnext, if_neg htp]
      exact hr.next
    · rwa [hmatch, if_neg htp] at hk
  case above =>
    intro hg q k l hk hl
    rw [hnext] at hk
    rw [hmatch] at hl
    split_ifs at hk hl
    · exact Option.some.inj hk ▸ Option.some.inj hl ▸ habove hg
    · exact h.leader.above hg hk hl

end Leading

/-- The indices move only to what the follower has acknowledged, and back to where a refusal
leaves them in order. -/
theorem moveIndices_triple (hi : i ∈ cfg.ids) (h : Leading cfg g replies a i w)
    (hr : Reached cfg g a) {task : InFlightAppend} (htask : task ∈ w.state.responsesRx)
    {r : AppendEntriesRequest Cmd} (hT : TaskSim replies a i w task r)
    {resp : AppendEntriesResponse} (hres : ((i, task.call), .appendEntries resp) ∈ replies)
    (hterm : resp.term = a.term i)
    (hprobe : g.longProbes → resp.success = false → ¬(r.entries = [] ∧ r.prevLogIndex = 1)) :
    Triple (Leader.ended w task = ·)
      (Leader.moveIndices task.peerId task.firstEntry task.lastEntry resp.success)
      (fun _ => Leading cfg g replies a i) (Stopped cfg g replies a i) := by
  rintro _ rfl
  have hend := h.ended htask
  have hfree := h.ended_ne htask
  obtain ⟨hp, hne, -⟩ := h.inner.calls _ (List.mem_of_getElem? hT.call)
  obtain ⟨m, hm⟩ := h.leader.exists_match hi hp hne
  have hnext : (Leader.ended w task).state.nextIndices.lookup task.peerId =
      some (r.prevLogIndex + 1) := hT.next
  have hmatch : (Leader.ended w task).state.matchIndices.lookup task.peerId = some m := hm
  have hack := (h.leader.acked hm).2.2
  have hlookup : ∀ (l : AList fun _ : NodeId => ℕ) (v : ℕ) (q : NodeId),
      (l.insert task.peerId v).lookup q = if q = task.peerId then some v else l.lookup q := by
    intro l v q
    split_ifs with hq
    · rw [hq, AList.lookup_insert]
    · exact AList.lookup_insert_ne hq
  unfold Leader.moveIndices
  rw [EStateM.run_bind_of_ok (EStateM.run_get _)]
  simp only [hnext]
  by_cases hsucc : resp.success = true
  · -- the follower has acknowledged the entries up to the last one of the request
    obtain ⟨dst, r', hcall, hacked⟩ := h.inner.replies hres
    obtain ⟨rfl, rfl⟩ : dst = task.peerId ∧ r' = r := by simpa using hcall.symm.trans hT.call
    have hlast : task.lastEntry ≤ a.acked task.peerId (a.term i) := by
      rw [hT.last, ← hT.term]
      exact hacked hsucc
    have hlog : task.lastEntry ≤ (a.log i).length := by
      rw [← h.inner.log, h.log_eq hr]
      exact hlast.trans (hr.inv.acked_le _ _)
    have hprev : r'.prevLogIndex ≤ task.lastEntry := by
      rw [hT.last]
      exact Nat.le_add_right _ _
    rw [if_pos hsucc, EStateM.run_bind_of_ok (EStateM.run_set _ _)]
    simp only [hmatch, EStateM.run_modify]
    refine hend.setIndices hfree hp hne (n := max (r'.prevLogIndex + 1) (task.lastEntry + 1))
      (m := max m task.lastEntry) (by omega) (max_le hack hlast) (fun hg => ?_) rfl rfl rfl
      (hlookup _ _) (hlookup _ _)
    obtain ⟨-, habove⟩ := h.leader.above hg hT.next hm
    omega
  · rw [Bool.not_eq_true] at hsucc
    -- what is matched lies before the previous entry of a request that was refused
    have hback := hT.refused hm hres hsucc hterm
    -- only the shortest probe moves the next index back to `0`
    have hfirst : 1 ≤ task.firstEntry ∧ task.firstEntry - 1 ≤ r.prevLogIndex ∧
        (¬(r.entries = [] ∧ r.prevLogIndex = 1) → 1 ≤ task.firstEntry - 1) := by
      rw [hT.first, hT.last]
      split_ifs with hes
      · simp only [hes, List.length_nil, true_and]
        omega
      · omega
    rw [hsucc, if_neg (by simp), EStateM.run_bind_of_ok (u64Sub_run_of_le hfirst.1 _),
      EStateM.run_bind_of_ok (EStateM.run_set _ _)]
    refine appendEntries_triple hi hr task.peerId _ (hend.setIndices hfree hp hne
      (n := min (r.prevLogIndex + 1) (task.firstEntry - 1)) (m := m) ?_ hack (fun hg => ?_)
      rfl rfl rfl (hlookup _ _) fun q => ?_)
    · have := h.leader.next_le hT.next
      omega
    · obtain ⟨-, habove⟩ := h.leader.above hg hT.next hm
      have := hfirst.2.2 (hprobe hg hsucc)
      omega
    · split_ifs with hq
      · rw [hq]
        exact hmatch
      · rfl

/-- **`handle_append_entries_response`**: what a follower says it has accepted is matched, and a
refusal moves the next index back. -/
theorem handleAppendEntriesResponse_sim (hi : i ∈ cfg.ids) (h : Leading cfg g replies a i w)
    (hr : Reached cfg g a) {task : InFlightAppend} (htask : task ∈ w.state.responsesRx)
    {res : RpcResult} (hres : ∀ resp, res = .ok resp → ((i, task.call), resp) ∈ replies)
    (hprobe : g.longProbes → ∀ r resp,
      w.inner.transport.calls[task.call]? = some (task.peerId, .appendEntries r) →
      res = .ok (.appendEntries resp) → resp.success = false →
      resp.term = w.inner.storage.currentTerm → ¬(r.entries = [] ∧ r.prevLogIndex = 1)) :
    ∃ a', Turns cfg g i a a' ∧ a'.leaderLog = a.leaderLog ∧
      Triple ({ w with state := { w.state with
            responsesRx := w.state.responsesRx.filter (·.call ≠ task.call) } } = ·)
        (Leader.handleAppendEntriesResponse task.peerId task.firstEntry task.lastEntry res)
        (fun change w' => match change with
          | .continue => Leading cfg g replies a' i w'
          | .becomeFollower => InnerSim cfg g replies a' i w'.inner)
        (Stopped cfg g replies a' i) := by
  have hend := h.ended htask
  have hsame : Turns cfg g i a a := ⟨hr, Turn.refl i a⟩
  have hmodify : (modify fun w : RaftWorker Leader Cmd => { w with state := { w.state with
        inFlightPeers := w.state.inFlightPeers.erase task.peerId } } :
        Rust (RaftWorker Leader Cmd) Unit).run { w with state := { w.state with
        responsesRx := w.state.responsesRx.filter (·.call ≠ task.call) } } =
      .ok () (Leader.ended w task) := rfl
  rcases res with err | resp | resp | resp
  · refine ⟨a, hsame, rfl, ?_⟩
    rintro _ rfl
    unfold Leader.handleAppendEntriesResponse
    rw [EStateM.run_bind_of_ok hmodify]
    exact hend
  rotate_left
  · refine ⟨a, hsame, rfl, ?_⟩
    rintro _ rfl
    unfold Leader.handleAppendEntriesResponse
    rw [EStateM.run_bind_of_ok hmodify]
    exact ⟨hend.inner, fun _ => by simp⟩
  · refine ⟨a, hsame, rfl, ?_⟩
    rintro _ rfl
    unfold Leader.handleAppendEntriesResponse
    rw [EStateM.run_bind_of_ok hmodify]
    exact ⟨hend.inner, fun _ => by simp⟩
  have hupdate : (Leader.withInner (modifyGet (·.updateTerm resp.term)) :
        Rust (RaftWorker Leader Cmd) Bool).run (Leader.ended w task) =
      .ok (decide (a.term i < resp.term)) { Leader.ended w task with
        inner := (w.inner.updateTerm resp.term).2 } := by
    rw [← updateTerm_fst h.inner resp.term]
    exact Leader.withInner_run_of_ok (EStateM.run_modifyGet _ _)
  rcases Nat.lt_or_ge (a.term i) resp.term with hnew | hold
  · -- a newer term: step down
    refine ⟨a.hear i resp.term, ⟨hr, Turn.hear i a _⟩, leaderLog_hear a i _, ?_⟩
    rintro _ rfl
    unfold Leader.handleAppendEntriesResponse
    rw [EStateM.run_bind_of_ok hmodify, EStateM.run_bind_of_ok hupdate]
    simp only [hnew, decide_true, if_true]
    exact h.inner.hear hr resp.term
  · refine ⟨a, hsame, rfl, ?_⟩
    rintro _ rfl
    unfold Leader.handleAppendEntriesResponse
    rw [EStateM.run_bind_of_ok hmodify, EStateM.run_bind_of_ok hupdate,
      updateTerm_of_le h.inner hold]
    simp only [Nat.not_lt.mpr hold, decide_false, Bool.false_eq_true, if_false]
    rw [EStateM.run_bind_of_ok (EStateM.run_get _)]
    by_cases hlt : resp.term < w.inner.storage.currentTerm
    · simp only [hlt, if_true]
      exact hend
    have heq : resp.term = a.term i :=
      Nat.le_antisymm hold (h.inner.term ▸ Nat.not_lt.mp hlt)
    simp only [hlt, if_false]
    obtain ⟨r, hT⟩ := h.leader.tasks task htask
    have hmove := moveIndices_triple hi h hr htask hT (hres _ rfl) heq
      fun hg hsucc => hprobe hg r resp hT.call rfl hsucc (heq.trans h.inner.term.symm)
    have hcont : Triple (Leading cfg g replies a i)
        (pure .continue : Rust (RaftWorker Leader Cmd) StateChange)
        (fun change w' => match change with
          | .continue => Leading cfg g replies a i w'
          | .becomeFollower => InnerSim cfg g replies a i w'.inner)
        (Stopped cfg g replies a i) := fun _ h => h
    exact hmove.bind (fun _ => hcont) _ rfl

end Wraft
