import Wraft.Raft.Simulation

/-!
# Reactions of followers and candidates

What a node does with one event is a turn of the abstract protocol (`Turns`) after which the
node stands for its part of the new state again. This file has the reactions that do not depend
on being a leader: hearing of a term (`InnerSim.hear`), voting (`requestVote_sim`), accepting
entries (`appendEntries_sim`), applying the log (`InnerSim.applyLog`), standing for election
(`elect_sim`) and counting votes (`vote_sim`).
-/

namespace Wraft

open Consensus

variable {Cmd : Type} [Bincode (LogEntry Cmd)] {cfg : Config} {g : Guard} {replies : Replies}
  {a a' : Spec Cmd} {i src : NodeId} {w : RaftWorkerInner Cmd}

/-- A state of the protocol that a run of the cluster may stand for. -/
abbrev Reached (cfg : Config) (g : Guard) (a : Spec Cmd) : Prop :=
  Reachable LogEntry.term cfg.ids g.Compared a

/-! ### Any role -/

/-- The node whose turn it was stands for its part of the new state when its new storage does. -/
theorem InnerSim.act (h : InnerSim cfg g replies a i w) (ht : Turns cfg g i a a')
    {s : Storage Cmd} (hwf : s.Wf) (hkey : s.sessionKey = w.storage.sessionKey)
    (hlog : s.log = a'.log i) (hterm : s.currentTerm = a'.term i)
    (hvote : s.votedFor = a'.vote i (a'.term i)) :
    InnerSim cfg g replies a' i { w with storage := s } where
  member :=
    let ⟨h1, h2, h3, h4, h5⟩ := h.member
    ⟨h1, h2, h3, hkey.trans h4, h5⟩
  wf := hwf
  log := hlog
  term := hterm
  vote := hvote
  calls call hc := (h.calls call hc).later ht.inv ht.later
  replies hr := (h.replies hr).later ht.later List.prefix_rfl
  applied hg := ht.applied hg (h.applied hg)

/-- `update_term` -/
theorem InnerSim.hear (h : InnerSim cfg g replies a i w) (hr : Reached cfg g a) (t : ℕ) :
    InnerSim cfg g replies (a.hear i t) i (w.updateTerm t).2 := by
  refine h.act ⟨hr, Turn.hear i a t⟩ (Storage.wf_updateTerm h.wf t)
    (Storage.sessionKey_updateTerm _ t) ?_ ?_ ?_
  · rw [Storage.log_updateTerm, log_hear, h.log]
  · rw [Storage.currentTerm_updateTerm, term_hear, h.term]
  · rw [Storage.votedFor_updateTerm, vote_hear, term_hear, h.term, h.vote]
    split_ifs with hlt
    · rw [max_eq_right hlt.le, (hr.inv.fresh hlt).1]
    · rw [max_eq_left (Nat.not_lt.mp hlt)]

theorem updateTerm_fst (h : InnerSim cfg g replies a i w) (t : ℕ) :
    (w.updateTerm t).1 = decide (a.term i < t) := by
  rw [← h.term]
  exact Storage.updateTerm_fst _ t

/-- Nothing happens on a term that is not newer. -/
theorem updateTerm_of_le (h : InnerSim cfg g replies a i w) {t : ℕ} (ht : t ≤ a.term i) :
    w.updateTerm t = (false, w) := by
  rw [← h.term] at ht
  rw [RaftWorkerInner.updateTerm, Storage.updateTerm_of_le ht]

/-- A vote that is granted is a step of the protocol. -/
theorem InnerSim.grant (h : InnerSim cfg g replies a i w) (hr : Reached cfg g a)
    {req : RequestVoteRequest} (hreq : RequestSim cfg g a src (.requestVote req))
    (hterm : req.term ≤ a.term i) (hgrant : w.grantsVote req) (hok : g.upToDate → w.upToDate req) :
    Step LogEntry.term cfg.ids g.Compared a (a.grant i src) ∧ req.term = a.term i ∧
      InnerSim cfg g replies (a.grant i src) i
        { w with storage := w.storage.setVotedFor (some src) } := by
  obtain ⟨hle, hvote, -⟩ := hgrant
  obtain ⟨hsrc, l, hstood, hlen, hlast⟩ := hreq
  obtain rfl : src = req.candidate := hsrc.symm
  have heq : req.term = a.term i := Nat.le_antisymm hterm (h.term ▸ hle)
  have hstep : Step LogEntry.term cfg.ids g.Compared a (a.grant i req.candidate) := by
    refine .grant a i _ l (heq ▸ hstood) (h.vote ▸ hvote) fun hg => ?_
    have := hok hg
    rw [RaftWorkerInner.upToDate, h.wf.lastLogTerm_eq, h.log, hlast, ← h.wf.length_log, h.log,
      hlen] at this
    simpa [UpToDate] using this
  refine ⟨hstep, heq, h.act ⟨hr, Turn.of_step hstep (frame_grant a i _)⟩
    (Storage.wf_setVotedFor h.wf _) (Storage.sessionKey_setVotedFor _ _) ?_ ?_ ?_⟩
  · rw [Storage.log_setVotedFor, h.log]
    rfl
  · rw [Storage.currentTerm_setVotedFor, h.term]
    rfl
  · rw [Storage.votedFor_setVotedFor]
    exact (State.vote_grant a i _).symm

omit [Bincode (LogEntry Cmd)] in
theorem handleRequestVote_of_not_grants {req : RequestVoteRequest} (h : ¬w.grantsVote req) :
    w.handleRequestVote req = ({ term := 0, voteGranted := false }, w) := if_neg h

/-- **Voting.** Every role hears of the candidate's term before it tests the request. -/
theorem requestVote_sim (h : InnerSim cfg g replies a i w) (hr : Reached cfg g a)
    {req : RequestVoteRequest} (hreq : RequestSim cfg g a src (.requestVote req))
    (hok : g.upToDate → (w.updateTerm req.term).2.grantsVote req → w.upToDate req) :
    ∃ a', Turns cfg g i a a' ∧ a'.leaderLog = a.leaderLog ∧
      InnerSim cfg g replies a' i ((w.updateTerm req.term).2.handleRequestVote req).2 ∧
      FreshSim a' src i (.requestVote req)
        (.requestVote ((w.updateTerm req.term).2.handleRequestVote req).1 : RpcResponse) := by
  have h₁ := h.hear hr req.term
  by_cases hgrant : (w.updateTerm req.term).2.grantsVote req
  · have hup : g.upToDate → (w.updateTerm req.term).2.upToDate req := by
      intro hg
      have hlast : (w.updateTerm req.term).2.storage.lastLogTerm = w.storage.lastLogTerm := by
        rw [h₁.wf.lastLogTerm_eq, h.wf.lastLogTerm_eq, h₁.log, h.log, log_hear]
      have hlen : (w.updateTerm req.term).2.storage.lastLogIndex = w.storage.lastLogIndex := by
        rw [← h₁.wf.length_log, ← h.wf.length_log, h₁.log, h.log, log_hear]
      have := hok hg hgrant
      rwa [RaftWorkerInner.upToDate, ← hlast, ← hlen] at this
    obtain ⟨hstep, hterm, h₂⟩ := h₁.grant (hr.hear i req.term)
      (hreq.later hr.inv (later_hear hr.inv i req.term))
      (by rw [term_hear]; exact le_max_right _ _) hgrant hup
    refine ⟨_, ⟨hr, Turn.hear_step hstep (frame_grant _ _ _)⟩, leaderLog_hear a i _, ?_, ?_⟩
    · rw [RaftWorkerInner.handleRequestVote, if_pos hgrant, hreq.1]
      exact h₂
    · intro _
      have := State.vote_grant (a.hear i req.term) i src
      rwa [← hterm] at this
  · rw [handleRequestVote_of_not_grants hgrant]
    refine ⟨_, ⟨hr, Turn.hear i a req.term⟩, leaderLog_hear a i _, h₁, ?_⟩
    intro hf
    cases hf

omit [Bincode (LogEntry Cmd)] in
/-- Logs match the leaders' logs. -/
theorem matches_leaderLog (hi : Inv LogEntry.term cfg.ids a) (n : NodeId) (t : ℕ) :
    Matches (a.log n) (a.leaderLog t) := fun _ _ _ he hf ht =>
  (hi.log_genuine n).1.agree (hi.leaderLog_genuine t).1 he hf ht

omit [Bincode (LogEntry Cmd)] in
/-- The commit index that a follower takes over from its leader is good. -/
theorem AppliedSim.follow {req : AppendEntriesRequest Cmd} {pre : List (LogEntry Cmd)}
    {commitIndex lastApplied : ℕ} {tx : List (LogEntry Cmd)}
    (h : AppliedSim cfg a i commitIndex lastApplied tx) (hreq : LeaderCommitSim cfg a req)
    (hterm : req.term = a.term i) (hlen : pre.length = req.prevLogIndex)
    (hL : pre ++ req.entries <+: a.leaderLog req.term) (hidx : Indexed (a.leaderLog req.term))
    (hlog : pre ++ req.entries <+: a.log i) :
    AppliedSim cfg a i (RaftWorkerInner.followCommit commitIndex req) lastApplied tx := by
  unfold RaftWorkerInner.followCommit
  split_ifs with hnew
  swap
  · exact h
  rw [(hidx.of_prefix hL).getLast?_append]
  set c := min req.leaderCommit
    (if req.entries = [] then req.leaderCommit else pre.length + req.entries.length) with hc
  have hle : c ≤ (pre ++ req.entries).length := by
    rw [List.length_append]
    by_cases hes : req.entries = []
    · have := hreq.empty hes
      rw [if_pos hes] at hc
      omega
    · rw [if_neg hes] at hc
      omega
  have htake : (a.log i).take c = (a.leaderLog req.term).take c := by
    obtain ⟨s, hs⟩ := hlog
    obtain ⟨s', hs'⟩ := hL
    rw [← hs, ← hs', List.take_append_of_le_length hle, List.take_append_of_le_length hle]
  exact
    { h with
      commit_le := hle.trans hlog.length_le
      commit := by
        rw [htake, ← hterm]
        exact hreq.committed.of_prefix (List.take_prefix_take_left (min_le_left _ _)) }

/-- **Accepting entries**, in a term that the node has heard of. -/
theorem appendEntries_sim (h : InnerSim cfg g replies a i w) (hr : Reached cfg g a)
    (hidx : ∀ t, Indexed (a.leaderLog t)) {req : AppendEntriesRequest Cmd}
    (hreq : RequestSim cfg g a src (.appendEntries req)) (hsrc : src ≠ i)
    (hterm : req.term ≤ a.term i) :
    (∃ a' resp w', (RaftWorkerInner.handleAppendEntries req).run w = .ok resp w' ∧
      (a' = a ∨ Step LogEntry.term cfg.ids g.Compared a a' ∧ Frame i a a') ∧
      a'.leaderLog = a.leaderLog ∧ InnerSim cfg g replies a' i w' ∧
      FreshSim a' src i (.appendEntries req) (.appendEntries resp : RpcResponse)) ∨
    (RaftWorkerInner.handleAppendEntries req).run w = .error .overwriteOrder w := by
  obtain ⟨hlead, ⟨pre, hlen, hL, hprev⟩, hcommit⟩ := hreq
  have hmatch := matches_leaderLog hr.inv i req.term
  rw [← h.log] at hmatch
  rcases RaftWorkerInner.handleAppendEntries_cases h.wf hlen hL hprev (hidx _) hmatch with
    ⟨hold, hrun⟩ | ⟨hnew, hrefused, hrun⟩ | hrun | ⟨hnew, s', hwf, hsame, hadopt, hrun⟩
  · refine .inl ⟨a, _, w, hrun, .inl rfl, rfl, h, by simp, fun _ heq => ?_⟩
    exact absurd heq hold.ne'
  · -- refused for the previous entry: the node has not acknowledged that much
    refine .inl ⟨a, _, w, hrun, .inl rfl, rfl, h, by simp, fun _ heq => ?_⟩
    by_contra hack
    have heq' : req.term = a.term i := by
      rw [← h.term]
      exact heq.symm
    have hacked := hr.inv.acked_log i
    rw [← heq', ← h.log] at hacked
    refine hrefused (List.IsPrefix.trans ?_ hacked)
    have hpre : pre <+: a.leaderLog req.term := (List.prefix_append _ _).trans hL
    exact List.prefix_take_iff.mpr ⟨hpre, by omega⟩
  · exact .inr hrun
  · have heq : req.term = a.term i := Nat.le_antisymm hterm (h.term ▸ hnew)
    have hpre : pre ++ req.entries =
        (a.leaderLog req.term).take (req.prevLogIndex + req.entries.length) := by
      rw [← hlen, ← List.length_append]
      exact List.prefix_iff_eq_take.mp hL
    have hstep : Step LogEntry.term cfg.ids g.Compared a
        (a.accept i (req.prevLogIndex + req.entries.length) s'.log) := by
      refine .accept a i src _ _ (heq ▸ hlead) hsrc ?_ ?_
      · rw [← heq, ← hlen, ← List.length_append]
        exact hL.length_le
      · rwa [← heq, ← hpre, ← h.log]
    have hframe := frame_accept a i (req.prevLogIndex + req.entries.length) s'.log
    have hlog' : s'.log = (a.accept i (req.prevLogIndex + req.entries.length) s'.log).log i :=
      (State.log_accept _ _ _ _).symm
    have hact := h.act ⟨hr, Turn.of_step hstep hframe⟩ hwf hsame.sessionKey hlog'
      (hsame.currentTerm.trans h.term) (hsame.votedFor.trans h.vote)
    refine .inl ⟨_, _, _, hrun, .inr ⟨hstep, hframe⟩, rfl,
      { hact with applied := fun hg => ?_ }, fun _ => ?_, by simp⟩
    · refine (hact.applied hg).follow ?_ heq hlen hL (hidx _) (hlog' ▸ hadopt.prefix)
      exact (hcommit hg).later hr.inv (hstep.later hr.inv) (by simp [hlead])
    · rw [heq, State.acked_accept]
      exact le_max_right _ _

/-- `apply_log` applies committed entries, in the order of the log. -/
theorem applyLog_sim (h : InnerSim cfg g replies a i w) :
    ∃ w', RaftWorkerInner.applyLog.run w = .ok () w' ∧ InnerSim cfg g replies a i w' := by
  refine ⟨_, RaftWorkerInner.applyLog_eq h.wf, { h with applied := fun hg => ?_ }⟩
  have happ := h.applied hg
  set es := (w.storage.log.drop w.lastApplied).take (w.commitIndex - w.lastApplied) with hes
  have htx : w.stateMachineTx = (a.log i).take w.lastApplied := by
    rw [happ.last]
    exact List.prefix_iff_eq_take.mp happ.applied_prefix
  have hall : w.stateMachineTx ++ es =
      (a.log i).take (w.lastApplied + (w.commitIndex - w.lastApplied)) := by
    rw [hes, h.log, List.take_add, ← htx]
  have hpre : w.stateMachineTx ++ es <+: a.log i := hall ▸ List.take_prefix _ _
  refine { happ with last := ?_, applied_prefix := hpre, applied := ?_ }
  · have hidx : Indexed (w.stateMachineTx ++ es) :=
      Indexed.of_prefix (fun _ _ => h.wf.idx_eq) (h.log ▸ hpre)
    show es.getLast?.elim _ _ = _
    rw [hidx.getLast?_append, List.length_append, ← happ.last]
    split_ifs with hnil
    · simp [hnil]
    · rfl
  · rcases Nat.le_total w.lastApplied w.commitIndex with hle | hle
    · rw [hall, Nat.add_sub_cancel' hle]
      exact happ.commit
    · rw [hall, Nat.sub_eq_zero_of_le hle, Nat.add_zero, ← htx]
      exact happ.applied

/-- Further calls that say something true may be made at any time. -/
theorem InnerSim.call (h : InnerSim cfg g replies a i w)
    {calls : List (NodeId × RpcRequest Cmd)} (hcalls : ∀ call ∈ calls, CallSim cfg g a i call) :
    InnerSim cfg g replies a i
      { w with transport := { w.transport with calls := w.transport.calls ++ calls } } :=
  { h with
    calls := fun call hmem => (List.mem_append.mp hmem).elim (h.calls call) (hcalls call)
    replies := fun hr => (h.replies hr).later (Later.refl a) (List.prefix_append _ _) }

/-! ### Candidates -/

omit [Bincode (LogEntry Cmd)] in
theorem mem_connectedPeers {p : NodeId} (h : p ∈ Candidate.connectedPeers w) :
    p ∈ w.peerClients := by
  simp only [Candidate.connectedPeers, List.mem_map, List.mem_filter] at h
  obtain ⟨⟨p, c⟩, ⟨hmem, -⟩, rfl⟩ := h
  exact List.mem_keys_of_mem hmem

omit [Bincode (LogEntry Cmd)] in
theorem nodup_connectedPeers (w : RaftWorkerInner Cmd) : (Candidate.connectedPeers w).Nodup :=
  (List.filter_sublist.map Sigma.fst).nodup w.peerClients.nodupKeys

/-- **Standing for election.** -/
theorem elect_sim (hi : i ∈ cfg.ids) (h : InnerSim cfg g replies a i w) (hr : Reached cfg g a) :
    Turns cfg g i a (a.stand i) ∧
      NodeSim cfg g replies (a.stand i) i (RaftWorkerState.onElectionTimeout.elect w) := by
  have hturn : Turns cfg g i a (a.stand i) :=
    ⟨hr, Turn.of_step (.stand a i) (frame_stand a i)⟩
  refine ⟨hturn, ?_⟩
  have hid : w.nodeId = i := h.member.1
  -- two writes of the vote and one of the term leave the log
  have hwf := Storage.wf_setVotedFor (Storage.wf_incrementTerm h.wf) (some w.nodeId)
  have hact := h.act hturn hwf (Storage.sessionKey_setVotedFor _ _)
    (by rw [Storage.log_setVotedFor, Storage.log_incrementTerm, h.log]; rfl)
    (by rw [Storage.currentTerm_setVotedFor, State.term_stand, ← h.term]; rfl)
    (by rw [Storage.votedFor_setVotedFor, State.term_stand, State.vote_stand, hid])
  rw [RaftWorkerState.onElectionTimeout.elect, Candidate.startElection_eq h.wf]
  set w' : RaftWorkerInner Cmd :=
    { w with storage := w.storage.incrementTerm.setVotedFor (some w.nodeId) }
  have hpeer : ∀ p ∈ Candidate.connectedPeers w, p ∈ cfg.ids ∧ p ≠ i :=
    fun p hp => h.member.2.2.2.2 p (mem_connectedPeers hp)
  -- every call asks for the vote with the log that the candidate stands with
  have hcalls : ∀ call ∈ (Candidate.connectedPeers w).map
      (fun p => (p, (.requestVote (Candidate.voteRequest w') : RpcRequest Cmd))),
      CallSim cfg g (a.stand i) i call := by
    intro call hcall
    obtain ⟨p, hp, rfl⟩ := List.mem_map.mp hcall
    refine ⟨(hpeer p hp).1, (hpeer p hp).2, hid, a.log i, ?_, ?_, ?_⟩
    · rw [Candidate.voteRequest, hact.term, State.term_stand, State.stood_stand]
    · exact congrArg List.length hact.log
    · exact congrArg (lastTerm LogEntry.term) hact.log
  have hcall : ∀ {k d r}, k ∈ List.range' w.transport.calls.length
      (Candidate.connectedPeers w).length →
      (Candidate.requested w' (Candidate.connectedPeers w)).transport.calls[k]? = some (d, r) →
      (Candidate.connectedPeers w)[k - w.transport.calls.length]? = some d ∧
        r = .requestVote (Candidate.voteRequest w') := by
    intro k d r hk hd
    rw [List.mem_range'_1] at hk
    have hd' : (w.transport.calls ++ (Candidate.connectedPeers w).map fun p =>
      (p, (.requestVote (Candidate.voteRequest w') : RpcRequest Cmd)))[k]? = some (d, r) := hd
    rw [List.getElem?_append_right hk.1, List.getElem?_map] at hd'
    simp only [Option.map_eq_some_iff, Prod.mk.injEq] at hd'
    obtain ⟨p, hp, rfl, rfl⟩ := hd'
    exact ⟨hp, rfl⟩
  refine { inner := hact.call hcalls, role := fun _ => ?_, sound := fun _ => by simp }
  refine { stood := by simp, lost := ?_, votes := ⟨{i}, ?_, by simp, by simp, ?_⟩, distinct := ?_ }
  · rw [State.term_stand]
    exact (hr.inv.fresh (Nat.lt_succ_self _)).2.2.1
  · exact Finset.singleton_subset_iff.mpr hi
  · intro k hk
    have hlt : k - w.transport.calls.length < (Candidate.connectedPeers w).length := by
      have := List.mem_range'_1.mp hk
      omega
    refine ⟨(Candidate.connectedPeers w)[k - w.transport.calls.length],
      Candidate.voteRequest w', ?_, hact.term, ?_⟩
    · show (w.transport.calls ++ (Candidate.connectedPeers w).map fun p =>
        (p, (.requestVote (Candidate.voteRequest w') : RpcRequest Cmd)))[k]? = _
      rw [List.getElem?_append_right (List.mem_range'_1.mp hk).1, List.getElem?_map,
        List.getElem?_eq_getElem hlt]
      rfl
    · rw [Finset.mem_singleton]
      exact (hpeer _ (List.getElem_mem hlt)).2
  · intro k hk k' hk' d r r' hd hd'
    have hkd := (hcall hk hd).1
    have hkd' := (hcall hk' hd').1
    -- no peer is asked twice
    have := (nodup_connectedPeers w).getElem_inj_iff.mp
      ((List.getElem?_eq_some_iff.mp hkd).2.trans (List.getElem?_eq_some_iff.mp hkd').2.symm)
    rw [List.mem_range'_1] at hk hk'
    omega

omit [Bincode (LogEntry Cmd)] in
/-- The members are a node and its peers. -/
theorem card_ids (hi : i ∈ cfg.ids) : cfg.ids.card = (cfg.peers i).length + 1 := by
  have hids : cfg.ids = insert i (cfg.peers i).toFinset := by
    ext p
    rw [Finset.mem_insert, List.mem_toFinset, cfg.mem_peers i hi]
    by_cases hp : p = i
    · simp [hp, hi]
    · simp [hp]
  rw [hids, Finset.card_insert_of_notMem, List.toFinset_card_of_nodup (cfg.nodup_peers i hi)]
  rw [List.mem_toFinset, cfg.mem_peers i hi]
  exact fun h => h.2 rfl

omit [Bincode (LogEntry Cmd)] in
/-- As many members as a quorum asks for are a majority. -/
theorem isMajority_of_quorum (hi : i ∈ cfg.ids) (hw : Member cfg i w) {Q : Finset NodeId}
    (hQ : Q ⊆ cfg.ids) (hcard : w.quorum ≤ Q.card) : cfg.ids.IsMajority Q := by
  refine Finset.isMajority_of_half_lt hQ ?_
  rwa [card_ids hi, ← hw.2.2.1]

theorem lookup_map_const {β : Type} (l : List NodeId) (v : β) (p : NodeId) :
    (l.map fun q => (⟨q, v⟩ : Σ _ : NodeId, β)).toAList.lookup p =
      if p ∈ l then some v else none := by
  rw [AList.lookup_to_alist]
  induction l with
  | nil => rfl
  | cons q l ih =>
    by_cases hp : p = q
    · subst hp
      simp
    · rw [List.map_cons, List.dlookup_cons_ne _ (⟨q, v⟩ : Sigma fun _ => β) hp, ih]
      simp [hp]

/-- A leader right after its election. -/
theorem leaderSim_toLeader {w : RaftWorker Candidate Cmd}
    (h : InnerSim cfg g replies a i w.inner) (hi : i ∈ cfg.ids)
    (hl : a.leader (a.term i) = some i) : LeaderSim cfg g replies a i w.toLeader := by
  have hpeers : w.inner.peers = cfg.peers i := h.member.2.1
  have hlen : w.inner.storage.lastLogIndex = (a.log i).length := by
    rw [← h.wf.length_log, h.log]
  have hnext : ∀ p, w.toLeader.state.nextIndices.lookup p =
      if p ∈ cfg.peers i then some ((a.log i).length + 1) else none := by
    intro p
    rw [← hlen, ← hpeers]
    exact lookup_map_const _ _ p
  have hmatch : ∀ p, w.toLeader.state.matchIndices.lookup p =
      if p ∈ cfg.peers i then some 0 else none := by
    intro p
    rw [← hpeers]
    exact lookup_map_const _ _ p
  refine
    { leader := hl
      has_next := fun p hp => by rw [← AList.lookup_isSome, hnext, if_pos hp]; rfl
      has_match := fun p hp => by rw [← AList.lookup_isSome, hmatch, if_pos hp]; rfl
      next_le := ?next_le
      acked := ?acked
      tasks := fun task hmem => absurd hmem (List.not_mem_nil)
      distinct := fun task hmem => absurd hmem (List.not_mem_nil)
      above := ?above }
  case next_le =>
    intro p n hn
    rw [hnext] at hn
    split_ifs at hn
    exact (Option.some.inj hn).ge
  case acked =>
    intro p m hm
    rw [hmatch] at hm
    split_ifs at hm with hp
    obtain rfl := Option.some.inj hm
    exact ⟨((cfg.mem_peers i hi p).mp hp).1, ((cfg.mem_peers i hi p).mp hp).2, Nat.zero_le _⟩
  case above =>
    intro _ p n m hn hm
    rw [hnext] at hn
    rw [hmatch] at hm
    split_ifs at hn hm
    obtain rfl := Option.some.inj hn
    obtain rfl := Option.some.inj hm
    exact ⟨Nat.le_add_left _ _, .inl rfl⟩

omit [Bincode (LogEntry Cmd)] in
/-- A candidate that has heard from one of its calls waits for fewer votes. -/
theorem CandidateSim.filter {w : RaftWorker Candidate Cmd} (h : CandidateSim cfg a i w) (k : ℕ) :
    CandidateSim cfg a i
      { w with state := { w.state with votesRx := w.state.votesRx.filter (· ≠ k) } } := by
  obtain ⟨G, hG, hcard, hv, hrx⟩ := h.votes
  exact
    { h with
      votes := ⟨G, hG, hcard, hv, fun k' hk' => hrx k' (List.mem_of_mem_filter hk')⟩
      distinct := fun k' hk' k'' hk'' => h.distinct k' (List.mem_of_mem_filter hk') k''
        (List.mem_of_mem_filter hk'') }

/-- **Counting votes.** A candidate that has the votes of a quorum is elected. -/
theorem vote_sim {w : RaftWorker Candidate Cmd} (hi : i ∈ cfg.ids)
    (h : InnerSim cfg g replies a i w.inner) (hc : CandidateSim cfg a i w)
    (hr : Reached cfg g a) (hidx : ∀ t, Indexed (a.leaderLog t)) {k : ℕ} {res : RpcResult}
    (hk : k ∈ w.state.votesRx) (hres : ∀ resp, res = .ok resp → ((i, k), resp) ∈ replies) :
    ∃ a', Turns cfg g i a a' ∧ NodeSim cfg g replies a' i (RaftWorkerState.onVote w k res) ∧
      ∀ t, Indexed (a'.leaderLog t) := by
  have hsame : ∀ {n : Node Cmd}, n.worker = .candidate
        { w with state := { w.state with votesRx := w.state.votesRx.filter (· ≠ k) } } →
      n.panicked = none ∨ n.panicked = some .responseKind →
      ∃ a', Turns cfg g i a a' ∧ NodeSim cfg g replies a' i n ∧ ∀ t, Indexed (a'.leaderLog t) := by
    rintro ⟨_, p⟩ rfl hp
    refine ⟨a, ⟨hr, Turn.refl i a⟩, { inner := h, role := fun _ => hc.filter k, sound := ?_ }, hidx⟩
    rcases hp with rfl | rfl <;> exact fun _ => by simp
  rcases res with err | resp | resp | resp
  · exact hsame rfl (.inl rfl)
  · exact hsame rfl (.inr rfl)
  swap
  · exact hsame rfl (.inr rfl)
  unfold RaftWorkerState.onVote
  by_cases hgranted : resp.voteGranted
  swap
  · simp only [hgranted]
    exact hsame rfl (.inl rfl)
  simp only [hgranted, if_true]
  -- one more vote, of a node that was not counted yet
  obtain ⟨G, hG, hcard, hv, hrx⟩ := hc.votes
  obtain ⟨dst, r, hcall, hterm, hnew⟩ := hrx k hk
  obtain ⟨dst', r', hcall', hvote⟩ := h.replies (hres _ rfl)
  obtain ⟨rfl, rfl⟩ : dst' = dst ∧ r' = r := by
    simpa using hcall'.symm.trans hcall
  have hdst : dst' ∈ cfg.ids := (h.calls _ (List.mem_of_getElem? hcall)).1
  have hvote' : a.vote dst' (a.term i) = some i := hterm ▸ hvote hgranted
  have hG' : insert dst' G ⊆ cfg.ids := Finset.insert_subset hdst hG
  have hcard' : w.state.votes + 1 = (insert dst' G).card := by
    rw [Finset.card_insert_of_notMem hnew, hcard]
  have hv' : ∀ q ∈ insert dst' G, a.vote q (a.term i) = some i := by
    intro q hq
    rcases Finset.mem_insert.mp hq with rfl | hq
    · exact hvote'
    · exact hv q hq
  split_ifs with hquorum
  · obtain ⟨l, hl⟩ := Option.ne_none_iff_exists'.mp hc.stood
    have hmaj := isMajority_of_quorum hi h.member hG' (hcard' ▸ hquorum)
    have hnone : a.leader (a.term i) = none := by
      by_contra hne
      obtain ⟨d, hd⟩ := Option.ne_none_iff_exists'.mp hne
      exact hc.lost (hr.inv.eq_leader_of_majority hd hmaj hv' ▸ hd)
    have hturn : Turns cfg g i a (a.elect i) :=
      ⟨hr, Turn.of_step (.elect a i l hl _ hmaj hv' hnone) (frame_elect a i)⟩
    have hact := h.act hturn h.wf rfl h.log h.term h.vote
    refine ⟨_, hturn,
      { inner := { hact with }, role := fun _ => ?_, sound := fun _ => by simp }, fun t => ?_⟩
    · exact leaderSim_toLeader (w := w) hact hi (State.leader_elect a i)
    · by_cases ht : t = a.term i
      · subst ht
        rw [State.leaderLog_elect, ← h.log]
        exact fun _ _ => h.wf.idx_eq
      · rw [State.leaderLog_elect_of_ne _ _ ht]
        exact hidx t
  · refine ⟨a, ⟨hr, Turn.refl i a⟩, { inner := h, role := fun _ => ?_, sound := fun _ => by simp },
      hidx⟩
    refine { hc.filter k with votes := ⟨insert dst' G, hG', hcard', hv', fun k' hk' => ?_⟩ }
    have hmem := List.mem_of_mem_filter hk'
    obtain ⟨d, r, hd, hrt, hdG⟩ := hrx k' hmem
    refine ⟨d, r, hd, hrt, ?_⟩
    rw [Finset.mem_insert, not_or]
    refine ⟨?_, hdG⟩
    rintro rfl
    have heq := hc.distinct k' hmem k hk _ _ _ hd hcall
    simp [heq] at hk'

end Wraft
