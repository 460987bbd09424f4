import Mathlib.Algebra.Group.Nat.Defs
import Wraft.ForMathlib.Run
import Wraft.Raft.Ballot
import Wraft.Raft.Requests

/-!
# Votes across crashes

One node, whatever it is sent, whose process may stop at any point of any reaction, between any
two writes to its local storage, and is then started again from what was written.

Such a node can vote twice in a term (`not_votesOnce`): `update_term` and `increment_term` first
remove the vote and then write the new term, and a node that is stopped in between has not voted
in its old term as far as it can tell. It could also come to a term a second time: the successor
of the largest `u64` is `0`, so that a node which a request has taken to that term starts over with
the next election timeout. Terms are natural numbers here, for which this does not happen, and the
condition `exhausts` keeps the runs to those in which it does not happen in the source either.

When no stop falls between the two writes while there is a vote to lose, and no term is counted past
the width of a `u64`, no node votes twice in a term (`votes_once`). What becomes of a log index at
the end of its range has no part in this: a vote is stored with its term, whatever the log is.
-/

namespace Wraft

open TransitionSystem

/-- A node, with the votes it has given to candidates or to itself, each with its term. -/
structure Voter (Cmd : Type) where
  node : Node Cmd
  granted : List (ℕ × NodeId)

/-- The steps of a voter. -/
inductive VoterAction (Cmd : Type) where
  /-- The node reacts to an event. -/
  | event (e : Event Cmd)
  /-- The process stops while the node reacts to an event, when `ls` is in the local storage, and
  is started again. -/
  | stop (e : Event Cmd) (ls : LocalStorage)
  /-- The process stops between two reactions, or after a panic, and is started again. -/
  | restart

variable {Cmd : Type}

/-- The vote that a reaction gives, with its term: to a candidate with the reply, or to the node
itself when it stands for election. -/
def Event.vote (e : Event Cmd) (n : Node Cmd) (resp : Option RpcResponse) : Option (ℕ × NodeId) :=
  match e, resp with
  | .electionTimeout, _ => some (n.worker.inner.storage.currentTerm, n.worker.inner.nodeId)
  | .rpc _ _ (.requestVote req), some (.requestVote r) =>
    if r.voteGranted then some (req.term, req.candidate) else none
  | _, _ => none

/-- The node as it is started again when its local storage is `ls`. -/
def Node.reopen (n : Node Cmd) (ls : LocalStorage) : Node Cmd :=
  let w := n.worker.inner
  { n with
    worker := n.worker.withInner { w with storage := { w.storage with storage := ls } } }.restart

namespace Voter

def inner (v : Voter Cmd) : RaftWorkerInner Cmd := v.node.worker.inner

def storage (v : Voter Cmd) : Storage Cmd := v.inner.storage

/-- The step stops the process right after it removed its vote. -/
def forgetsVote (v : Voter Cmd) : VoterAction Cmd → Bool
  | .stop _ ls => v.storage.forgets ls
  | _ => false

/-- The step counts the term past the largest `u64`: `current_term() + 1` is `0` there, in a build
without overflow checks. -/
def exhausts (v : Voter Cmd) : VoterAction Cmd → Bool
  | .event .electionTimeout | .stop .electionTimeout _ => 2 ^ 64 - 1 ≤ v.storage.currentTerm
  | _ => false

variable [Bincode (LogEntry Cmd)]

/-- The reaction of the node to an event; a panicked node does not react. -/
def react (v : Voter Cmd) (e : Event Cmd) : Option (Node Cmd × Option RpcResponse) :=
  match v.node.panicked with
  | some _ => none
  | none => v.node.worker.on e

/-- One step of a voter; `none` when it is not possible. -/
def exec (v : Voter Cmd) : VoterAction Cmd → Option (Voter Cmd)
  | .event e => (v.react e).map fun r =>
    { node := r.1, granted := (e.vote r.1 r.2).toList ++ v.granted }
  | .stop e ls => (v.react e).bind fun r =>
    if v.storage.storage <:+ ls ∧ ls <:+ r.1.worker.inner.storage.storage then
      some { v with node := v.node.reopen ls }
    else none
  | .restart => some { v with node := v.node.restart }

/-- A worker that was just started, on any local storage that it can be started from. -/
def Starts (v : Voter Cmd) : Prop :=
  ∃ nodeId key peers clients ls transport inner,
    WorkerBuilder.start nodeId key peers clients ls transport = .ok inner ∧
      v = ⟨⟨.follower { inner, state := {} }, none⟩, []⟩

/-- The finite runs of a voter, latest state first, all of whose steps meet the condition `G`. -/
def IsRunWhere (G : Voter Cmd → VoterAction Cmd → Prop) : List (Voter Cmd) → Prop :=
  IsRun Starts (Acts exec G)

end Voter

/-! ### The votes on record are backed by the storage -/

/-- No two votes of a term are for different candidates. -/
def VotesOnce (granted : List (ℕ × NodeId)) : Prop :=
  ∀ t c c', (t, c) ∈ granted → (t, c') ∈ granted → c = c'

/-- The node remembers a vote it has given: its stored term is later, or it is that of the vote,
and so is the stored vote. -/
def Storage.Remembers (s : Storage Cmd) (vote : ℕ × NodeId) : Prop :=
  vote.1 < s.currentTerm ∨ vote.1 = s.currentTerm ∧ s.votedFor = some vote.2

theorem Storage.Remembers.mono {s s' : Storage Cmd} {vote : ℕ × NodeId} (h : s.Remembers vote)
    (hle : s.BallotLe s') : s'.Remembers vote := by
  rcases h, hle with ⟨h | ⟨h, hv⟩, hle | ⟨hle, hle'⟩⟩
  · exact .inl (h.trans hle)
  · exact .inl (hle ▸ h)
  · exact .inl (h ▸ hle)
  · refine .inr ⟨h.trans hle, ?_⟩
    rcases hle' with hnone | hsame
    · rw [hnone] at hv
      cases hv
    · exact hsame.trans hv

/-- A voter whose storage backs its votes. -/
structure VoterInv (v : Voter Cmd) : Prop where
  cached : v.storage.Cached
  sessionKey : v.storage.sessionKey = v.inner.sessionKey
  remembers : ∀ vote ∈ v.granted, v.storage.Remembers vote
  once : VotesOnce v.granted

/-- A remembered vote of the stored term is the stored vote. -/
theorem VotesOnce.cons {granted : List (ℕ × NodeId)} {s : Storage Cmd} (h : VotesOnce granted)
    (hs : ∀ vote ∈ granted, s.Remembers vote) {t : ℕ} {c : NodeId} (ht : s.currentTerm = t)
    (hc : s.votedFor = some c) : VotesOnce ((t, c) :: granted) := by
  have hold : ∀ c', (t, c') ∈ granted → c' = c := by
    intro c' hc'
    rcases hs _ hc' with hlt | ⟨-, hv⟩
    · exact absurd hlt (by simp [ht])
    · exact Option.some.inj (hv.symm.trans hc)
  intro u d d' hd hd'
  rcases List.mem_cons.mp hd with heq | hmem <;> rcases List.mem_cons.mp hd' with heq' | hmem'
  · exact (Prod.mk.inj heq).2.trans (Prod.mk.inj heq').2.symm
  · obtain ⟨rfl, rfl⟩ := Prod.mk.inj heq
    exact (hold d' hmem').symm
  · obtain ⟨rfl, rfl⟩ := Prod.mk.inj heq'
    exact hold d hmem
  · exact h u d d' hmem hmem'

/-! ### What a reaction grants -/

theorem RaftWorkerInner.storage_of_voteGranted {w : RaftWorkerInner Cmd}
    {req : RequestVoteRequest}
    (h : ((w.updateTerm req.term).2.handleRequestVote req).1.voteGranted = true) :
    ((w.updateTerm req.term).2.handleRequestVote req).2.storage.currentTerm = req.term ∧
    ((w.updateTerm req.term).2.handleRequestVote req).2.storage.votedFor = some req.candidate := by
  have hle : req.term ≤ (w.updateTerm req.term).2.storage.currentTerm := by
    rw [updateTerm, Storage.currentTerm_updateTerm]
    exact le_max_right _ _
  unfold handleRequestVote at h ⊢
  split_ifs at h ⊢ with hg
  exact ⟨le_antisymm hg.1 hle, rfl⟩

variable [Bincode (LogEntry Cmd)]

namespace RaftWorkerState

/-- A vote that a reply grants is in the storage. -/
theorem storage_of_voteGranted {w : RaftWorkerState Cmd} {caller : NodeId} {k : ℕ}
    {req : RequestVoteRequest} {resp : RequestVoteResponse}
    (h : (w.onRpc caller k (.requestVote req)).2 = some (.requestVote resp))
    (hg : resp.voteGranted = true) :
    (w.onRpc caller k (.requestVote req)).1.worker.inner.storage.currentTerm = req.term ∧
    (w.onRpc caller k (.requestVote req)).1.worker.inner.storage.votedFor =
      some req.candidate := by
  obtain ⟨-, -, hrpc⟩ | ⟨-, w', hrpc, hinner, -⟩ := w.onRpc_requestVote_cases caller k req
  · -- a leader of the request's term, or a later one, refuses
    rw [hrpc] at h
    obtain rfl := RpcResponse.requestVote.inj (Option.some.inj h)
    cases hg
  · rw [hrpc] at h ⊢
    obtain rfl := RpcResponse.requestVote.inj (Option.some.inj h)
    show w'.inner.storage.currentTerm = req.term ∧ w'.inner.storage.votedFor = some req.candidate
    rw [hinner]
    exact RaftWorkerInner.storage_of_voteGranted hg

end RaftWorkerState

/-- A vote that a reaction gives is in the storage. -/
theorem storage_of_vote {w : RaftWorkerState Cmd} {e : Event Cmd} {n : Node Cmd}
    {resp : Option RpcResponse} (h : w.on e = some (n, resp)) {vote : ℕ × NodeId}
    (hv : e.vote n resp = some vote) : n.worker.inner.storage.currentTerm = vote.1 ∧
      n.worker.inner.storage.votedFor = some vote.2 := by
  unfold Event.vote at hv
  split at hv
  · obtain rfl := Option.some.inj hv
    obtain ⟨n, hn, heq⟩ := Option.map_eq_some_iff.mp h
    cases heq
    exact ⟨rfl, (RaftWorkerState.careful_onElectionTimeout hn).2⟩
  · split_ifs at hv with hg
    obtain rfl := Option.some.inj hv
    obtain ⟨rfl, hresp⟩ := Prod.mk.inj (Option.some.inj h)
    exact RaftWorkerState.storage_of_voteGranted hresp hg
  · cases hv

/-! ### Runs -/

omit [Bincode (LogEntry Cmd)] in
/-- A node that is started again has what its local storage says. -/
theorem Node.inner_restart {n : Node Cmd} {s : Storage Cmd}
    (h : Storage.new n.worker.inner.sessionKey n.worker.inner.storage.storage = .ok s) :
    n.restart.worker.inner.storage = s ∧
      n.restart.worker.inner.sessionKey = n.worker.inner.sessionKey := by
  simp only [Node.restart, WorkerBuilder.start, h, bind, Except.bind, pure, Except.pure]
  exact ⟨rfl, rfl⟩

omit [Bincode (LogEntry Cmd)] in
theorem Node.inner_reopen {n : Node Cmd} {ls : LocalStorage} {s : Storage Cmd}
    (h : Storage.new n.worker.inner.sessionKey ls = .ok s) :
    (n.reopen ls).worker.inner.storage = s ∧
      (n.reopen ls).worker.inner.sessionKey = n.worker.inner.sessionKey := by
  set i : RaftWorkerInner Cmd := { n.worker.inner with
    storage := { n.worker.inner.storage with storage := ls } } with hi
  have hinner := RaftWorkerState.inner_withInner n.worker i
  have hnew : Storage.new (n.worker.withInner i).inner.sessionKey
      (n.worker.withInner i).inner.storage.storage = .ok s := by
    rw [hinner]
    exact h
  obtain ⟨hs, hk⟩ := Node.inner_restart (n := { n with worker := n.worker.withInner i }) hnew
  exact ⟨hs, hk.trans (by rw [hinner])⟩

namespace VoterInv

omit [Bincode (LogEntry Cmd)] in
theorem of_ballotLe {v v' : Voter Cmd} (h : VoterInv v) (hc : v'.storage.Cached)
    (hk : v'.storage.sessionKey = v'.inner.sessionKey) (hle : v.storage.BallotLe v'.storage)
    (hg : v'.granted = v.granted) : VoterInv v' where
  cached := hc
  sessionKey := hk
  remembers vote hvote := (h.remembers vote (hg ▸ hvote)).mono hle
  once := hg ▸ h.once

omit [Bincode (LogEntry Cmd)] in
/-- The node was started again from a storage `u` that holds no earlier ballot. -/
theorem started {v : Voter Cmd} (h : VoterInv v) {ls : LocalStorage} {u : Storage Cmd}
    (hu : Storage.new v.inner.sessionKey ls = .ok u) (hle : v.storage.BallotLe u) {n : Node Cmd}
    (hn : n.worker.inner.storage = u ∧ n.worker.inner.sessionKey = v.inner.sessionKey) :
    VoterInv { v with node := n } := by
  obtain ⟨hs, hk⟩ := hn
  obtain ⟨hkey, -, hcached⟩ := Storage.new_eq_ok_iff.mp hu
  subst hs
  exact h.of_ballotLe hcached (hkey.trans hk.symm) hle rfl

/-- **A step keeps the votes on record backed**, unless it forgets the vote. -/
theorem exec {v v' : Voter Cmd} {a : VoterAction Cmd} (h : VoterInv v)
    (ha : v.forgetsVote a = false) (hexec : v.exec a = some v') : VoterInv v' := by
  -- a reaction may lose the vote only where it removes it
  have hkeeps : ∀ {e n resp}, v.react e = some (n, resp) → v.inner.Careful n.worker.inner ∧
      Storage.Keeps v.storage.forgets v.storage n.worker.inner.storage := by
    intro e n resp hr
    unfold Voter.react at hr
    split at hr
    · cases hr
    · have hcareful := RaftWorkerState.careful_on hr
      exact ⟨hcareful, hcareful.storage h.cached⟩
  cases a with
  | event e =>
    obtain ⟨⟨n, resp⟩, hr, rfl⟩ := Option.map_eq_some_iff.mp hexec
    obtain ⟨hcareful, hk⟩ := hkeeps hr
    have hold : ∀ vote ∈ v.granted, n.worker.inner.storage.Remembers vote :=
      fun vote hvote => (h.remembers vote hvote).mono hk.ballot
    have hkey : n.worker.inner.storage.sessionKey = n.worker.inner.sessionKey :=
      hk.sessionKey.trans (h.sessionKey.trans hcareful.sessionKey.symm)
    rcases hvote : e.vote n resp with _ | ⟨t, c⟩
    · exact ⟨hk.cached, hkey, hold, h.once⟩
    · have hon : v.node.worker.on e = some (n, resp) := by
        unfold Voter.react at hr
        split at hr
        · cases hr
        · exact hr
      -- the vote that is granted is the one that is stored
      obtain ⟨ht, hc⟩ := storage_of_vote hon hvote
      refine ⟨hk.cached, hkey, ?_, ?_⟩
      · intro vote hmem
        simp only [Option.toList_some, List.cons_append, List.nil_append,
          List.mem_cons] at hmem
        rcases hmem with rfl | hmem
        · exact .inr ⟨ht.symm, hc⟩
        · exact hold vote hmem
      · simpa [hvote] using h.once.cons hold ht hc
  | stop e ls =>
    obtain ⟨⟨n, resp⟩, hr, hstop⟩ := Option.bind_eq_some_iff.mp hexec
    obtain ⟨-, hk⟩ := hkeeps hr
    dsimp only at hstop
    split_ifs at hstop with hls
    obtain rfl := Option.some.inj hstop
    -- the storage is opened as one of the writes has left it
    rcases hk.reopen ls hls with hforgets | ⟨u, hu, hle⟩
    · exact absurd hforgets (by simpa [Voter.forgetsVote] using ha)
    · rw [h.sessionKey] at hu
      exact h.started hu hle (Node.inner_reopen hu)
  | restart =>
    obtain rfl := Option.some.inj hexec
    have hu := h.cached.new_eq
    rw [h.sessionKey] at hu
    exact h.started hu (.refl _) (Node.inner_restart hu)

end VoterInv

/-- **A node votes once in a term**, when no stop falls right after the removal of its vote and its
term is not counted past the largest `u64`. -/
theorem votes_once {r : List (Voter Cmd)}
    (hr : Voter.IsRunWhere (fun v a => v.forgetsVote a = false ∧ v.exhausts a = false) r) :
    ∀ v ∈ r, VotesOnce v.granted := by
  have hinv : ∀ v ∈ r, VoterInv v := by
    refine IsRun.invariant ?_ ?_ hr
    · rintro v ⟨nodeId, key, peers, clients, ls, transport, inner, hstart, rfl⟩
      have hcached : inner.storage.Cached ∧ inner.storage.sessionKey = inner.sessionKey := by
        unfold WorkerBuilder.start at hstart
        rcases hs : (Storage.new key ls : Except Panic (Storage Cmd)) with p | s
        · simp [hs, bind, Except.bind] at hstart
        simp only [hs, bind, Except.bind, pure, Except.pure, Except.ok.injEq] at hstart
        obtain ⟨hkey, -, hcached⟩ := Storage.new_eq_ok_iff.mp hs
        subst hstart
        exact ⟨hcached, hkey⟩
      exact ⟨hcached.1, hcached.2, by simp, by simp [VotesOnce]⟩
    · rintro v v' hv ⟨a, ⟨ha, -⟩, hexec⟩
      exact hv.exec ha hexec
  exact fun v hv => (hinv v hv).once

/-- Node `0` of session `1`, started on an empty local storage. -/
def Voter.fresh : Voter ℕ where
  node := ⟨.follower { inner :=
    { leaderId := none
      nodeId := 0
      sessionKey := 1
      clusterSize := 4
      peers := [1, 2, 3]
      peerClients := ∅
      commitIndex := 0
      lastApplied := 0
      storage :=
        { sessionKey := 1, lastLogIndex := 0, currentTerm := 0, votedFor := none, storage := [] }
      stateMachineTx := []
      forwarded := []
      transport := { calls := [], answers := [] } }, state := {} }, none⟩
  granted := []

theorem Voter.starts_fresh : Voter.fresh.Starts :=
  ⟨0, 1, [1, 2, 3], ∅, [], ⟨[], []⟩, _, rfl, rfl⟩

/-- Node `candidate` asks for a vote in `term`. -/
def voteEvent (term : ℕ) (candidate : NodeId) : Event ℕ :=
  .rpc candidate 0 (.requestVote { term, candidate, lastLogIndex := 0, lastLogTerm := 0 })

/-- What node `0` has written after it voted for node `1` in term `1`. -/
def votedStorage : LocalStorage :=
  [.setItem "voted-for-1" "1", .setItem "current-term-1" "1", .removeItem "voted-for-1"]

/-- The node is stopped after it has written its new term, votes in that term, and stands for
election in the next one. -/
theorem votes_once_run : ∃ r : List (Voter ℕ),
    Voter.IsRunWhere (fun v a => v.forgetsVote a = false ∧ v.exhausts a = false) r ∧
    (∃ v ∈ r, v.granted = [(3, 0), (2, 3), (1, 1)]) ∧ ∀ v ∈ r, VotesOnce v.granted := by
  obtain ⟨r, -, hr, hf⟩ := exists_run_of_play Voter.Starts Voter.exec
    (fun v a => v.forgetsVote a || v.exhausts a) Voter.starts_fresh
    [.event (voteEvent 1 1), .stop (voteEvent 2 2)
      (.setItem "current-term-1" "2" :: .removeItem "voted-for-1" :: votedStorage),
      .event (voteEvent 2 3), .event .electionTimeout]
    (fun r => r.any fun v => v.granted = [(3, 0), (2, 3), (1, 1)])
    (by decide +kernel)
  simp only [List.any_eq_true, decide_eq_true_eq] at hf
  have hrun : Voter.IsRunWhere (fun v a => v.forgetsVote a = false ∧ v.exhausts a = false) r :=
    IsRun.mono (fun _ _ => Acts.mono fun _ _ => Bool.or_eq_false_iff.mp) hr
  exact ⟨r, hrun, hf, votes_once hrun⟩

/-- A node that is stopped after it removed its vote for node `1` can vote for node `3` in the
same term. -/
theorem not_votesOnce : ¬∀ r : List (Voter ℕ), Voter.IsRunWhere (fun _ _ => True) r →
    ∀ v ∈ r, VotesOnce v.granted := by
  intro h
  obtain ⟨r, -, hr, hf⟩ := exists_run_of_play Voter.Starts Voter.exec (fun _ _ => false)
    Voter.starts_fresh
    [.event (voteEvent 1 1), .stop (voteEvent 2 2) (.removeItem "voted-for-1" :: votedStorage),
      .event (voteEvent 1 3)]
    (fun r => r.any fun v => v.granted = [(1, 3), (1, 1)])
    (by decide +kernel)
  simp only [List.any_eq_true, decide_eq_true_eq] at hf
  obtain ⟨v, hv, hgranted⟩ := hf
  have honce := h r (IsRun.mono (fun _ _ => Acts.mono fun _ _ _ => trivial) hr) v hv
  rw [hgranted] at honce
  exact absurd (honce 1 3 1 (by simp) (by simp)) (by decide)

end Wraft
