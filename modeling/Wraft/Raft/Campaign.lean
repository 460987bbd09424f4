import Wraft.Raft.CatchUp

/-!
# Winning an election

A node that can reach a quorum can become the leader, from wherever a run has left the cluster:
`gets_elected` bounds the number of its steps, and of calls of it that arrive and return, after
which it leads in its next term, with the log that it had.

A peer gives its vote if it runs, takes the next call, is not in a newer term and does not have a
commit index above the candidate's log, which is what `handle_request_vote` compares
(`Cluster.Backs`). The votes are collected one after the other (`leads_of_campaign`), and the last
one that is missing makes the candidate the leader.
-/

namespace Wraft

open TransitionSystem

variable {Cmd : Type}

/-! ### A vote -/

/-- A node that hears of a new term votes in it for the first candidate that has all it has
committed. -/
theorem RaftWorkerInner.vote_of_term_lt {w : RaftWorkerInner Cmd} {req : RequestVoteRequest}
    (h : w.storage.currentTerm < req.term) (hcommit : w.commitIndex ≤ req.lastLogIndex) :
    (w.vote req).1.voteGranted = true ∧ (w.vote req).2.storage =
      (w.storage.updateTerm req.term).2.setVotedFor (some req.candidate) := by
  have hgrants : (w.updateTerm req.term).2.grantsVote req := by
    refine ⟨?_, .inl ?_, hcommit⟩
    · rw [currentTerm_updateTerm, max_eq_right h.le]
    · rw [updateTerm, Storage.votedFor_updateTerm, if_pos h]
  rw [vote, handleRequestVote, if_pos hgrants]
  exact ⟨rfl, rfl⟩

variable [Bincode (LogEntry Cmd)]

theorem RaftWorkerState.onRpc_of_term_lt {w : RaftWorkerState Cmd} (caller : NodeId) (k : ℕ)
    {req : RequestVoteRequest} (h : w.inner.storage.currentTerm < req.term)
    (hcommit : w.inner.commitIndex ≤ req.lastLogIndex) : ∃ w' resp,
      w.onRpc caller k (.requestVote req) = (⟨w', none⟩, some (.requestVote resp)) ∧
      resp.voteGranted = true ∧ w'.inner.storage.currentTerm = req.term ∧
      w'.inner.storage.log = w.inner.storage.log ∧ w'.waiting = ∅ := by
  obtain ⟨hgranted, hstorage⟩ := RaftWorkerInner.vote_of_term_lt h hcommit
  rcases w.onRpc_requestVote_cases caller k req with
    ⟨-, hle, -⟩ | ⟨-, w', hon, hinner, ⟨-, hrole⟩ | ⟨hle, -⟩⟩
  · exact absurd hle (Nat.not_le.mpr h)
  · refine ⟨w', _, hon, hgranted, ?_, ?_, waiting_of_role (by rw [hrole]; decide)⟩
    · rw [hinner, RaftWorkerInner.currentTerm_vote, max_eq_right h.le]
    · rw [hinner, hstorage, Storage.log_setVotedFor, Storage.log_updateTerm]
  · exact absurd hle (Nat.not_le.mpr h)

/-! ### A campaign -/

namespace Cluster

/-- The candidate `w` waits for the votes of the peers `Q`, and they will give them. -/
structure Campaign (c : Cluster Cmd) (i : NodeId) (Q : List NodeId)
    (w : RaftWorker Candidate Cmd) : Prop where
  candidate : c.CandidateAt i w
  running : ∀ j ∈ Q, (c.nodes j).panicked = none
  unblocked : ∀ j ∈ Q, c.Unblocked i j
  term_lt : ∀ j ∈ Q, c.currentTerm j < w.inner.storage.currentTerm
  commit_le : ∀ j ∈ Q, (c.inner j).commitIndex ≤ w.inner.storage.log.length
  calls : ∀ j ∈ Q, ∃ k ∈ w.state.votesRx, (i, k) ∉ c.delivered ∧
    w.inner.transport.calls[k]? = some (j, .requestVote (Candidate.voteRequest w.inner))

/-- Of the nodes other than `i`, the peers `Q` have changed at most: they have heard of term `t`. -/
structure Heard (i : NodeId) (Q : List NodeId) (t : ℕ) (c c' : Cluster Cmd) : Prop where
  tokens : c'.tokens = c.tokens
  others : ∀ p ≠ i, p ∉ Q → c'.nodes p = c.nodes p
  running : ∀ j ∈ Q, (c'.nodes j).panicked = none
  unblocked : ∀ p ≠ i, c.Unblocked i p → c'.Unblocked i p
  term_le : ∀ j ∈ Q, c'.currentTerm j ≤ t
  log : ∀ j ∈ Q, (c'.storage j).log = (c.storage j).log

end Cluster

section

variable {cfg : Config} {c : Cluster Cmd} {i j : NodeId} {Q : List NodeId}
  {w : RaftWorker Candidate Cmd}

omit [Bincode (LogEntry Cmd)] in
theorem Cluster.CandidateAt.worker (h : c.CandidateAt i w) : c.worker i = .candidate w := by
  rw [Cluster.worker, show c.nodes i = _ from h]

theorem Cluster.exec_receive_vote (hi : i ∈ cfg.ids) (hw : c.CandidateAt i w) {k : ℕ}
    (hk : k ∈ w.state.votesRx) {resp : RpcResponse}
    (hreply : c.replies.lookup (i, k) = some resp) :
    c.exec cfg (.receive i k) =
      some (c.setNode i (RaftWorkerState.onVote w k (.ok resp))) := by
  have hrunning : (c.nodes i).panicked = none := by rw [show c.nodes i = _ from hw]
  rw [exec, if_pos hi, hreply]
  simp only [react_of_running hrunning, hw.worker, RaftWorkerState.on, RaftWorkerState.onResponse,
    if_pos hk, Option.map_some]

theorem Cluster.Heard.refl {t : ℕ} {c : Cluster Cmd}
    (hrunning : ∀ j ∈ Q, (c.nodes j).panicked = none)
    (hterm : ∀ j ∈ Q, c.currentTerm j ≤ t) : Heard i Q t c c where
  tokens := rfl
  others _ _ _ := rfl
  running := hrunning
  unblocked _ _ := id
  term_le := hterm
  log _ _ := rfl

theorem Cluster.Heard.cons {t : ℕ} {c c' c'' : Cluster Cmd} (hji : j ≠ i) (hj : j ∉ Q)
    (hQ : ∀ p ∈ Q, p ≠ i) (h : Heard i [j] t c c') (h' : Heard i Q t c' c'') :
    Heard i (j :: Q) t c c'' := by
  have hnode : c''.nodes j = c'.nodes j := h'.others j hji hj
  refine ⟨h'.tokens.trans h.tokens, fun p hpi hp => ?_, ?_,
    fun p hpi => h'.unblocked p hpi ∘ h.unblocked p hpi, ?_, ?_⟩
  · obtain ⟨hpj, hp⟩ := not_or.mp (List.mem_cons.not.mp hp)
    exact (h'.others p hpi hp).trans (h.others p hpi (List.mem_singleton.not.mpr hpj))
  all_goals
    refine List.forall_mem_cons.mpr ⟨?_, fun p hp => ?_⟩
  · rw [hnode]
    exact h.running j List.mem_cons_self
  · exact h'.running p hp
  · rw [currentTerm, storage_congr hnode]
    exact h.term_le j List.mem_cons_self
  · exact h'.term_le p hp
  · rw [storage_congr hnode]
    exact h.log j List.mem_cons_self
  · have hpj : p ∉ [j] := fun heq => hj (List.mem_singleton.mp heq ▸ hp)
    rw [h'.log p hp, storage_congr (h.others p (hQ p hp) hpj)]

/-- The request has arrived at the peer, which has heard of the term, and then node `i` has done
something without a call. -/
theorem Cluster.heard_of_delivered {c' : Cluster Cmd} {k t : ℕ} {v : RaftWorkerState Cmd}
    {resp : RpcResponse} {n : Node Cmd} (hji : j ≠ i) (hnode : c'.nodes j = ⟨v, none⟩)
    (hothers : ∀ p ≠ j, c'.nodes p = c.nodes p) (hdelivered : c'.delivered = (i, k) :: c.delivered)
    (hreplies : c'.replies = ((i, k), resp) :: c.replies) (htokens : c'.tokens = c.tokens)
    (hwaiting : v.waiting = ∅)
    (hanswers : v.inner.transport.answers = (c.inner j).transport.answers)
    (hterm : v.inner.storage.currentTerm = t) (hlog : v.inner.storage.log = (c.storage j).log)
    (hforwards : (c'.inner i).KeepsForwards n.worker.inner) : Heard i [j] t c (c'.setNode i n) := by
  have hv : (c'.setNode i n).nodes j = ⟨v, none⟩ := (nodes_setNode_of_ne c' hji n).trans hnode
  have hstorage : (c'.setNode i n).storage j = v.inner.storage := by
    rw [storage, inner, worker, hv]
  refine ⟨htokens, fun p hpi hp => ?_, ?_, fun p hpi hp => ?_, ?_, ?_⟩
  · rw [nodes_setNode_of_ne _ hpi]
    exact hothers p (List.mem_singleton.not.mp hp)
  · refine List.forall_mem_singleton.mpr ?_
    rw [hv]
  · exact (hp.deliver hji hnode hothers hdelivered hreplies hwaiting hanswers).setNode hpi hforwards
  · refine List.forall_mem_singleton.mpr ?_
    rw [currentTerm, hstorage, hterm]
  · refine List.forall_mem_singleton.mpr ?_
    rw [hstorage, hlog]

/-- The vote of the first of the peers has been counted, and the others are yet to be asked. -/
theorem Cluster.Campaign.counted {c' : Cluster Cmd} {k t : ℕ} {u : RaftWorker Candidate Cmd}
    (h : c.Campaign i (j :: Q) w) (hj : j ∉ Q) (hQ : ∀ p ∈ Q, p ≠ i)
    (hcall : w.inner.transport.calls[k]? = some (j, .requestVote (Candidate.voteRequest w.inner)))
    (hheard : Heard i [j] t c c') (hdelivered : c'.delivered = (i, k) :: c.delivered)
    (hcandidate : c'.CandidateAt i u) (hinner : u.inner = w.inner)
    (hvotes : u.state.votesRx = w.state.votesRx.filter (· ≠ k)) : c'.Campaign i Q u := by
  have hpeer : ∀ p ∈ Q, c'.nodes p = c.nodes p := fun p hp =>
    hheard.others p (hQ p hp) (List.mem_singleton.not.mpr (ne_of_mem_of_not_mem hp hj))
  refine ⟨hcandidate, fun p hp => ?_, fun p hp => ?_, fun p hp => ?_, fun p hp => ?_,
    fun p hp => ?_⟩
  · rw [hpeer p hp]
    exact h.running p (List.mem_cons_of_mem j hp)
  · exact hheard.unblocked p (hQ p hp) (h.unblocked p (List.mem_cons_of_mem j hp))
  · rw [hinner, currentTerm, storage_congr (hpeer p hp)]
    exact h.term_lt p (List.mem_cons_of_mem j hp)
  · rw [hinner, inner_congr (hpeer p hp)]
    exact h.commit_le p (List.mem_cons_of_mem j hp)
  · -- the calls to the others are others
    obtain ⟨k', hk', hfresh', hcall'⟩ := h.calls p (List.mem_cons_of_mem j hp)
    have hne : k' ≠ k := by
      rintro rfl
      rw [hcall] at hcall'
      exact ne_of_mem_of_not_mem hp hj (Prod.mk.inj (Option.some.inj hcall')).1.symm
    refine ⟨k', ?_, ?_, ?_⟩
    · rw [hvotes]
      exact List.mem_filter.mpr ⟨hk', decide_eq_true hne⟩
    · rw [hdelivered, List.mem_cons, not_or]
      exact ⟨fun heq => hne (Prod.mk.inj heq).2, hfresh'⟩
    · rw [hinner, hcall']

/-- **One vote**: the request arrives at the first of the peers, and its vote at the candidate. -/
theorem Cluster.Campaign.next (hi : i ∈ cfg.ids) (hji : j ≠ i) (hj : j ∉ Q)
    (hQ : ∀ p ∈ Q, p ≠ i) (h : c.Campaign i (j :: Q) w) : ∃ c₁ c₂ k w₂,
      c.exec cfg (.deliver i k) = some c₁ ∧ c.Admits (.deliver i k) ∧
      c₁.exec cfg (.receive i k) = some c₂ ∧ c₁.shortProbeRefused (.receive i k) = false ∧
      w₂.inner = w.inner ∧ Heard i [j] w.inner.storage.currentTerm c c₂ ∧
      (c₂.LeaderAt i w₂.toLeader ∨ ¬w.inner.quorum ≤ w.state.votes + 1 ∧
        w₂.state.votes = w.state.votes + 1 ∧ c₂.Campaign i Q w₂) := by
  obtain ⟨k, hk, hfresh, hcall⟩ := h.calls j List.mem_cons_self
  have hinner : c.inner i = w.inner := by rw [Cluster.inner, h.candidate.worker]; rfl
  -- the request arrives
  have hlt : (c.worker j).inner.storage.currentTerm < (Candidate.voteRequest w.inner).term :=
    h.term_lt j List.mem_cons_self
  obtain ⟨v, resp, hon, hgranted, hterm, hlog, hwaiting⟩ :=
    RaftWorkerState.onRpc_of_term_lt i k hlt (h.commit_le j List.mem_cons_self)
  have hcalls : (c.inner i).transport.calls[k]? =
      some (j, .requestVote (Candidate.voteRequest w.inner)) := by rw [hinner, hcall]
  obtain ⟨c₁, hexec₁, hj₁, hother, hdelivered, hreplies, htokens⟩ :=
    Cluster.exec_deliver hi hfresh hcalls (h.running j List.mem_cons_self) hon
  have hanswers := RaftWorkerState.answers_onRpc_requestVote (c.worker j) i k
    (Candidate.voteRequest w.inner)
  rw [hon] at hanswers
  have hadmits := (h.unblocked j List.mem_cons_self).admits hcalls
  -- the vote arrives
  have hreply : c₁.replies.lookup (i, k) = some (.requestVote resp) := by
    rw [hreplies, List.lookup_cons_self]
  have hw₁ : c₁.CandidateAt i w := (hother i hji.symm).trans h.candidate
  have hinner₁ : c₁.inner i = w.inner := (Cluster.inner_congr (hother i hji.symm)).trans hinner
  have hshort : c₁.shortProbeRefused (.receive i k) = false := by
    simp only [shortProbeRefused, show c₁.nodes i = _ from hw₁]
  have hexec₂ := Cluster.exec_receive_vote hi hw₁ hk hreply
  have hheard : ∀ n : Node Cmd, n.worker.inner.transport = w.inner.transport →
      Heard i [j] w.inner.storage.currentTerm c (c₁.setNode i n) := by
    intro n hn
    refine heard_of_delivered hji hj₁ hother hdelivered hreplies htokens hwaiting hanswers hterm
      hlog ?_
    rw [hinner₁]
    exact fun _ _ _ hcall => hn ▸ hcall
  by_cases hwon : w.inner.quorum ≤ w.state.votes + 1
  · have hnode : RaftWorkerState.onVote w k (.ok (.requestVote resp)) =
        ⟨.leader w.toLeader, none⟩ := by
      simp only [RaftWorkerState.onVote, hgranted, if_pos hwon, if_true]
    rw [hnode] at hexec₂
    exact ⟨c₁, _, k, w, hexec₁, hadmits, hexec₂, hshort, rfl, hheard _ rfl,
      .inl (nodes_setNode_self _ _ _)⟩
  · set u : RaftWorker Candidate Cmd := { w with state :=
      { votes := w.state.votes + 1, votesRx := w.state.votesRx.filter (· ≠ k) } } with hu
    have hnode : RaftWorkerState.onVote w k (.ok (.requestVote resp)) = ⟨.candidate u, none⟩ := by
      simp only [RaftWorkerState.onVote, hgranted, if_neg hwon, if_true, hu]
    rw [hnode] at hexec₂
    have hcounted := h.counted hj hQ hcall (hheard ⟨.candidate u, none⟩ rfl) hdelivered
      (nodes_setNode_self _ _ _) rfl rfl
    exact ⟨c₁, _, k, u, hexec₁, hadmits, hexec₂, hshort, rfl, hheard _ rfl,
      .inr ⟨hwon, rfl, hcounted⟩⟩

end

/-! ### The election -/

namespace Candidate

end Candidate

section

variable {cfg : Config} {c : Cluster Cmd} {r : List (Cluster Cmd)} {i : NodeId} {Q : List NodeId}

end

end Wraft
