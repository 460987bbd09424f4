import Wraft.Raft.Follows

/-!
# The ballot of a node

The term and the vote of a storage are its ballot. Whatever requests a node is sent, also ones
that no node of a cluster would make, its ballot only moves forward: to a later term, or from no
vote to a vote. This is so at every point of an operation at which the process can stop, except
for one: `update_term` and `increment_term` remove the vote before they write the term, and
between the two writes the stored ballot is that of a node that has not voted in its old term
(`Storage.forgets`).

* `Storage.Keeps` — a stretch of writes, with the points at which re-opening may find less;
* `on_votes` — every event of a worker keeps its ballot, except at such a point.
-/

namespace Wraft

open EStateM (Follows)

namespace Storage

variable {Cmd : Type}

/-- The ballot of `s'` is that of `s` or comes after it. -/
def BallotLe (s s' : Storage Cmd) : Prop :=
  s.currentTerm < s'.currentTerm ∨
    s.currentTerm = s'.currentTerm ∧ (s.votedFor = none ∨ s'.votedFor = s.votedFor)

theorem BallotLe.refl (s : Storage Cmd) : s.BallotLe s := .inr ⟨rfl, .inr rfl⟩

theorem BallotLe.trans {s s' s'' : Storage Cmd} (h : s.BallotLe s') (h' : s'.BallotLe s'') :
    s.BallotLe s'' := by
  rcases h, h' with ⟨h | ⟨h, hv⟩, h' | ⟨h', hv'⟩⟩
  · exact .inl (h.trans h')
  · exact .inl (h' ▸ h)
  · exact .inl (h ▸ h')
  · refine .inr ⟨h.trans h', ?_⟩
    rcases hv with hv | hv
    · exact .inl hv
    · exact hv'.imp hv.symm.trans fun hv' => hv'.trans hv

/-- The process stopped right after it removed the stored vote. -/
def forgets (s : Storage Cmd) (ls : LocalStorage) : Prop :=
  s.votedFor ≠ none ∧ ls = s.storage.removeItem (Key.votedFor s.sessionKey).format

instance (s : Storage Cmd) (ls : LocalStorage) : Decidable (s.forgets ls) :=
  inferInstanceAs (Decidable (_ ∧ _))

/-- Between `s` and `s'`, the ballot moves forward, and re-opening finds it at every point that
is not `lost`. -/
structure Keeps (lost : LocalStorage → Prop) (s s' : Storage Cmd) : Prop where
  sessionKey : s'.sessionKey = s.sessionKey
  cached : s'.Cached
  writes : s.storage <:+ s'.storage
  ballot : s.BallotLe s'
  reopen : ∀ ls, LocalStorage.Stop s.storage s'.storage ls →
    lost ls ∨ ∃ u, Storage.new s.sessionKey ls = .ok u ∧ s.BallotLe u

theorem Keeps.trans {lost : LocalStorage → Prop} {s s' s'' : Storage Cmd} (h : Keeps lost s s')
    (h' : Keeps (fun _ => False) s' s'') : Keeps lost s s'' where
  sessionKey := h'.sessionKey.trans h.sessionKey
  cached := h'.cached
  writes := h.writes.trans h'.writes
  ballot := h.ballot.trans h'.ballot
  reopen ls hls := by
    rcases List.suffix_or_suffix_of_suffix hls.2 h'.writes with hsuf | hsuf
    · exact h.reopen ls ⟨hls.1, hsuf⟩
    · rcases h'.reopen ls ⟨hsuf, hls.2⟩ with hlost | ⟨u, hu, hle⟩
      · exact hlost.elim
      · exact .inr ⟨u, h.sessionKey ▸ hu, h.ballot.trans hle⟩

/-- Nothing written, nothing lost. -/
theorem Keeps.refl {lost : LocalStorage → Prop} {s : Storage Cmd} (h : s.Cached) :
    Keeps lost s s where
  sessionKey := rfl
  cached := h
  writes := List.suffix_rfl
  ballot := .refl s
  reopen _ hls := .inr ⟨s, hls.eq_of_refl ▸ h.new_eq, .refl s⟩

/-- One write. -/
theorem Keeps.of_write {lost : LocalStorage → Prop} {s s' : Storage Cmd} {w : Write}
    (h : s.Cached) (h' : s'.Cached) (hk : s'.sessionKey = s.sessionKey)
    (hw : s'.storage = w :: s.storage) (hb : s.BallotLe s') : Keeps lost s s' where
  sessionKey := hk
  cached := h'
  writes := hw ▸ List.suffix_cons _ _
  ballot := hb
  reopen ls hls := by
    rw [hw] at hls
    rcases hls.of_cons with rfl | hls
    · exact .inr ⟨s', hw ▸ hk ▸ h'.new_eq, hb⟩
    · exact .inr ⟨s, hls.eq_of_refl ▸ h.new_eq, .refl s⟩

/-- The ballot is safe at every point between `s` and `s'`. -/
def Steady (s s' : Storage Cmd) : Prop := s.Cached → Keeps (fun _ => False) s s'

/-- The ballot is safe between `s` and `s'` but for the point at which the vote is removed. -/
def Careful (s s' : Storage Cmd) : Prop := s.Cached → Keeps s.forgets s s'

instance : IsPreorder (Storage Cmd) Steady where
  refl _ h := .refl h
  trans _ _ _ h h' hs := (h hs).trans (h' (h hs).cached)

theorem Careful.trans {s s' s'' : Storage Cmd} (h : s.Careful s') (h' : s'.Steady s'') :
    s.Careful s'' := fun hs => (h hs).trans (h' (h hs).cached)

theorem Steady.careful {s s' : Storage Cmd} (h : s.Steady s') : s.Careful s' :=
  (show s.Careful s from fun hs => .refl hs).trans h

/-! ### The operations of a storage -/

theorem steady_setLastLogIndex (s : Storage Cmd) (idx : ℕ) : s.Steady (s.setLastLogIndex idx) :=
  fun h => .of_write h (cached_setLastLogIndex h idx) rfl rfl (.refl s)

theorem steady_setEntry (s : Storage Cmd) (i : ℕ) (v : String) :
    s.Steady (s.setPersistent (Key.log s.sessionKey i).format v) :=
  fun h => .of_write h (cached_setEntry h i v) rfl rfl (.refl s)

theorem steady_setVotedFor {s : Storage Cmd} {c : NodeId}
    (h : s.votedFor = none ∨ s.votedFor = some c) : s.Steady (s.setVotedFor (some c)) :=
  fun hs => .of_write hs (cached_setVotedFor hs _) rfl rfl
    (.inr ⟨rfl, h.imp_right fun hc => hc.symm⟩)

/-- The vote is removed and then a later term is written. -/
theorem careful_setCurrentTerm (s : Storage Cmd) {t : ℕ} (ht : s.currentTerm < t) :
    s.Careful ((s.setVotedFor none).setCurrentTerm t) := by
  intro h
  have hnone := cached_setVotedFor h none
  have hterm := cached_setCurrentTerm hnone t
  have hle : s.BallotLe ((s.setVotedFor none).setCurrentTerm t) := .inl ht
  refine ⟨rfl, hterm, (List.suffix_cons _ _).trans (List.suffix_cons _ _), hle, fun ls hls => ?_⟩
  rcases hls.of_cons with rfl | hls
  · exact .inr ⟨_, hterm.new_eq, hle⟩
  rcases hls.of_cons with rfl | hls
  · by_cases hv : s.votedFor = none
    · exact .inr ⟨_, hnone.new_eq, .inr ⟨rfl, .inl hv⟩⟩
    · exact .inl ⟨hv, rfl⟩
  · exact .inr ⟨s, hls.eq_of_refl ▸ h.new_eq, .refl s⟩

theorem careful_updateTerm (s : Storage Cmd) (t : ℕ) : s.Careful (s.updateTerm t).2 := by
  unfold updateTerm
  split_ifs with h
  · exact careful_setCurrentTerm s h
  · exact fun hs => .refl hs

theorem careful_incrementTerm (s : Storage Cmd) : s.Careful s.incrementTerm :=
  careful_setCurrentTerm s (Nat.lt_succ_self _)

variable [Bincode (LogEntry Cmd)]

theorem follows_appendLog (s : Storage Cmd) (e : LogEntry Cmd) :
    Follows Steady s (appendLog e) := by
  refine .get_bind (.bind (.modify (steady_setLastLogIndex s _)) fun _ s' => ?_)
  dsimp only
  split_ifs
  · exact .modify (steady_setEntry s' _ _)
  · exact .throw_bind

theorem follows_overwriteLog (s : Storage Cmd) (e : LogEntry Cmd) :
    Follows Steady s (overwriteLog e) := by
  refine .get_bind ?_
  dsimp only
  split_ifs
  · exact .bind (.modify (steady_setLastLogIndex s _)) fun _ s' => follows_appendLog s' e
  · exact .throw_bind
  · exact .throw_bind
  · exact .throw_bind

end Storage

/-! ### The functions of a worker -/

variable {Cmd : Type}

namespace RaftWorkerInner

/-- Between the two workers the ballot is safe. -/
structure Steady (w w' : RaftWorkerInner Cmd) : Prop where
  nodeId : w'.nodeId = w.nodeId
  sessionKey : w'.sessionKey = w.sessionKey
  storage : w.storage.Steady w'.storage

instance : IsPreorder (RaftWorkerInner Cmd) Steady where
  refl _ := ⟨rfl, rfl, refl_of Storage.Steady _⟩
  trans _ _ _ h h' := ⟨h'.nodeId.trans h.nodeId, h'.sessionKey.trans h.sessionKey,
    trans_of Storage.Steady h.storage h'.storage⟩

/-- Between the two workers the ballot is safe but for the point at which the vote is removed. -/
structure Careful (w w' : RaftWorkerInner Cmd) : Prop where
  nodeId : w'.nodeId = w.nodeId
  sessionKey : w'.sessionKey = w.sessionKey
  storage : w.storage.Careful w'.storage

theorem Careful.trans {w w' w'' : RaftWorkerInner Cmd} (h : w.Careful w') (h' : w'.Steady w'') :
    w.Careful w'' :=
  ⟨h'.nodeId.trans h.nodeId, h'.sessionKey.trans h.sessionKey, h.storage.trans h'.storage⟩

theorem Steady.careful {w w' : RaftWorkerInner Cmd} (h : w.Steady w') : w.Careful w' :=
  ⟨h.nodeId, h.sessionKey, h.storage.careful⟩

/-- A change that leaves the storage. -/
theorem Steady.of_eq {w w' : RaftWorkerInner Cmd} (hn : w'.nodeId = w.nodeId)
    (hk : w'.sessionKey = w.sessionKey) (hs : w'.storage = w.storage) : w.Steady w' :=
  ⟨hn, hk, hs ▸ refl_of Storage.Steady _⟩

/-- The two workers are the same node with the same storage. -/
structure SameStorage (w w' : RaftWorkerInner Cmd) : Prop where
  nodeId : w'.nodeId = w.nodeId
  sessionKey : w'.sessionKey = w.sessionKey
  storage : w'.storage = w.storage

instance : IsPreorder (RaftWorkerInner Cmd) SameStorage where
  refl _ := ⟨rfl, rfl, rfl⟩
  trans _ _ _ h h' := ⟨h'.nodeId.trans h.nodeId, h'.sessionKey.trans h.sessionKey,
    h'.storage.trans h.storage⟩

theorem follows_withStorage_steady {α : Type} {w : RaftWorkerInner Cmd}
    {x : Rust (Storage Cmd) α} (h : Follows Storage.Steady w.storage x) :
    Follows Steady w (withStorage x) :=
  follows_withStorage h fun _ hs => ⟨rfl, rfl, hs⟩

theorem follows_call (w : RaftWorkerInner Cmd) (peer : NodeId) (req : RpcRequest Cmd) :
    Follows Steady w (call peer req) := .modifyGet (.of_eq rfl rfl rfl)

theorem careful_updateTerm (w : RaftWorkerInner Cmd) (t : ℕ) : w.Careful (w.updateTerm t).2 :=
  ⟨rfl, rfl, Storage.careful_updateTerm _ t⟩

theorem follows_updateTerm (w : RaftWorkerInner Cmd) (t : ℕ) :
    Follows Careful w (modifyGet (·.updateTerm t) : Rust (RaftWorkerInner Cmd) Bool) :=
  .modifyGet (careful_updateTerm w t)

/-- What follows `update_term` in a handler leaves the ballot alone or votes. -/
theorem follows_updateTerm_bind {α : Type} (w : RaftWorkerInner Cmd) (t : ℕ)
    {f : Bool → Rust (RaftWorkerInner Cmd) α} (h : ∀ a w', Follows Steady w' (f a)) :
    Follows Careful w (modifyGet (·.updateTerm t) >>= f) :=
  .bind_of Careful.trans (follows_updateTerm w t) h

theorem steady_handleRequestVote (w : RaftWorkerInner Cmd) (req : RequestVoteRequest) :
    w.Steady (w.handleRequestVote req).2 := by
  unfold handleRequestVote
  split_ifs with h
  · exact ⟨rfl, rfl, Storage.steady_setVotedFor h.2.1⟩
  · exact refl_of Steady _

variable [Bincode (LogEntry Cmd)]

theorem follows_handleAppendEntries_steady (w : RaftWorkerInner Cmd)
    (req : AppendEntriesRequest Cmd) : Follows Steady w (handleAppendEntries req) :=
  follows_handleAppendEntries
    (fun _ => follows_withStorage_steady (follows_handleEntries
      (fun e _ s => Storage.follows_appendLog s e)
      (fun e _ s => Storage.follows_overwriteLog s e) _))
    (fun _ _ => .of_eq rfl rfl rfl) w

theorem follows_applyLog (w : RaftWorkerInner Cmd) : Follows Steady w applyLog := by
  refine .get_bind (follows_ofExcept_bind fun entries => .modify ?_)
  induction entries generalizing w with
  | nil => exact refl_of Steady w
  | cons e es ih =>
    rw [List.foldl_cons]
    refine trans_of Steady ?_ (ih _)
    exact .of_eq rfl rfl rfl

end RaftWorkerInner

namespace Leader

open RaftWorkerInner

/-- Between the two leaders the ballot is safe. -/
def Steady (w w' : RaftWorker Leader Cmd) : Prop := w.inner.Steady w'.inner

instance : IsPreorder (RaftWorker Leader Cmd) Steady where
  refl w := refl_of RaftWorkerInner.Steady w.inner
  trans _ _ _ h h' := trans_of RaftWorkerInner.Steady h h'

theorem commitClosed_steady : CommitClosed (Steady : RaftWorker Leader Cmd → _) where
  commitIndex _ _ := .of_eq rfl rfl rfl
  answer _ _ _ := .of_eq rfl rfl rfl

variable [Bincode (LogEntry Cmd)]

theorem sendClosed_steady : SendClosed (Steady : RaftWorker Leader Cmd → _) where
  peers _ := .of_eq rfl rfl rfl
  call _ _ _ _ := .of_eq rfl rfl rfl

theorem follows_handleLogUpdate (cmd : Cmd) (tx : ClientSender) (w : RaftWorker Leader Cmd) :
    Follows Steady w (handleLogUpdate cmd tx) := by
  refine .get_bind (.bind (follows_withInner (follows_withStorage_steady
    (Storage.follows_appendLog _ _))) fun _ w' =>
    .bind (.modify (.of_eq rfl rfl rfl)) fun _ w'' => ?_)
  exact sendClosed_steady.follows_appendEntriesToAll _ w''

theorem follows_handleClientRequest (req : ClientRequest Cmd) (tx : ClientSender)
    (w : RaftWorker Leader Cmd) : Follows Steady w (handleClientRequest req tx) :=
  match req with
  | .apply cmd => follows_handleLogUpdate cmd tx w

/-- Between the two leaders the ballot is safe but for the point at which the vote is removed. -/
def Careful (w w' : RaftWorker Leader Cmd) : Prop := w.inner.Careful w'.inner

omit [Bincode (LogEntry Cmd)] in
theorem follows_updateTerm_bind {α : Type} (w : RaftWorker Leader Cmd) (t : ℕ)
    {f : Bool → Rust (RaftWorker Leader Cmd) α} (h : ∀ a w', Follows Steady w' (f a)) :
    Follows Careful w (withInner (modifyGet (·.updateTerm t)) >>= f) :=
  .bind_of RaftWorkerInner.Careful.trans (follows_withInner (follows_updateTerm w.inner t)) h

theorem follows_handleAppendEntriesResponse (peer : NodeId) (first last : ℕ) (res : RpcResult)
    (w : RaftWorker Leader Cmd) :
    Follows Careful w (handleAppendEntriesResponse peer first last res) := by
  -- the peer is no longer in flight, which leaves the inner worker
  refine .modify_bind (?_ : Follows Careful { w with state := { w.state with
    inFlightPeers := w.state.inFlightPeers.erase peer } } _)
  generalize { w with state := { w.state with
    inFlightPeers := w.state.inFlightPeers.erase peer } } = w
  match res with
  | .error _ => exact .mono (R := Steady) .pure fun _ h => h.careful
  | .ok (.appendEntries resp) =>
    refine follows_updateTerm_bind w _ fun a w' => ?_
    split
    · exact .pure
    · refine .get_bind ?_
      dsimp only
      split_ifs
      · exact .pure
      · exact .bind (sendClosed_steady.follows_moveIndices _ _ _ _ w') fun _ _ => .pure
  | .ok (.requestVote _) | .ok (.forwardClientRequest _) =>
    exact .mono (R := Steady) .throw fun _ h => h.careful

theorem follows_handleRpc (caller : NodeId) (k : ℕ) (req : RpcRequest Cmd)
    (w : RaftWorker Leader Cmd) : Follows Careful w (handleRpc caller k req) := by
  cases req with
  | appendEntries req =>
    refine .get_bind (follows_updateTerm_bind w _ fun a w' => ?_)
    split
    · exact .bind (follows_withInner (follows_handleAppendEntries_steady _ req)) fun _ _ => .pure
    · exact .pure
  | requestVote req =>
    refine .get_bind (follows_updateTerm_bind w _ fun a w' => ?_)
    split
    · exact .bind (follows_withInner (.modifyGet (steady_handleRequestVote _ req))) fun _ _ => .pure
    · exact .pure
  | forwardClientRequest req =>
    exact .mono (R := Steady) (.bind (follows_handleClientRequest req _ w) fun _ _ => .pure)
      fun _ h => h.careful

end Leader

namespace Follower

open RaftWorkerInner

theorem follows_forwardClientRequest (req : ClientRequest Cmd) (token : ℕ)
    (w : RaftWorkerInner Cmd) : Follows Steady w (forwardClientRequest req token) := by
  refine .get_bind ?_
  split
  · split_ifs
    · exact .bind (follows_call _ _ _) fun _ _ => .modify (.of_eq rfl rfl rfl)
    · exact .modify (.of_eq rfl rfl rfl)
  · exact .modify (.of_eq rfl rfl rfl)

variable [Bincode (LogEntry Cmd)]

theorem follows_handleRpc (req : RpcRequest Cmd) (w : RaftWorkerInner Cmd) :
    Follows Careful w (handleRpc req) := by
  cases req with
  | requestVote req =>
    exact follows_updateTerm_bind w _ fun _ _ =>
      .bind (.modifyGet (steady_handleRequestVote _ req)) fun _ _ => .pure
  | appendEntries req =>
    exact follows_updateTerm_bind w _ fun _ _ => .bind (.modify (.of_eq rfl rfl rfl)) fun _ _ =>
      .bind (follows_handleAppendEntries_steady _ req) fun _ _ => .pure
  | forwardClientRequest req => exact .mono (R := Steady) .pure fun _ h => h.careful

end Follower

namespace Candidate

open RaftWorkerInner

variable [Bincode (LogEntry Cmd)]

/-- A candidate votes for itself in its new term. -/
theorem follows_startElection (w : RaftWorkerInner Cmd) :
    Follows (fun w w' => w.Careful w' ∧ w'.storage.votedFor = some w'.nodeId) w startElection := by
  have hrest : ∀ w, Follows SameStorage w
      (do return { votes := 1, votesRx := ← requestVotes } :
        Rust (RaftWorkerInner Cmd) Candidate) :=
    fun w => .bind (follows_requestVotes (fun _ _ _ => ⟨rfl, rfl, rfl⟩) w) fun _ _ => .pure
  rintro _ rfl
  refine (hrest (voteForSelf { w with storage := w.storage.incrementTerm })).mono
    (Q := fun _ w' => w.Careful w' ∧ w'.storage.votedFor = some w'.nodeId)
    (fun w' h => ⟨⟨h.nodeId, h.sessionKey, ?_⟩, ?_⟩) _ rfl
  · rw [h.storage]
    exact (Storage.careful_incrementTerm w.storage).trans (Storage.steady_setVotedFor (.inl rfl))
  · rw [h.storage, h.nodeId]
    rfl

theorem follows_handleRpc (req : RpcRequest Cmd) (w : RaftWorkerInner Cmd) :
    Follows Careful w (handleRpc req) := by
  cases req with
  | requestVote req =>
    exact follows_updateTerm_bind w _ fun _ _ =>
      .bind (.modifyGet (steady_handleRequestVote _ req)) fun _ _ => .pure
  | appendEntries req =>
    exact follows_updateTerm_bind w _ fun _ _ =>
      .bind (follows_handleAppendEntries_steady _ req) fun _ _ => .pure
  | forwardClientRequest req => exact .mono (R := Steady) .pure fun _ h => h.careful

end Candidate

/-! ### The events of a worker -/

namespace RaftWorkerState

theorem careful_answerForwarded {w : RaftWorkerState Cmd} {k : ℕ} {res : RpcResult} {n : Node Cmd}
    (h : w.answerForwarded k res = some n) : w.inner.Careful n.worker.inner := by
  obtain ⟨token, -, rfl⟩ := Option.map_eq_some_iff.mp h
  refine RaftWorkerInner.Steady.careful ?_
  dsimp only
  split <;> simp only [inner_withInner] <;> exact .of_eq rfl rfl rfl

theorem careful_onVote (w : RaftWorker Candidate Cmd) (k : ℕ) (res : RpcResult) :
    w.inner.Careful (onVote w k res).worker.inner := by
  refine RaftWorkerInner.Steady.careful ?_
  unfold onVote
  dsimp only
  split
  · split_ifs <;> exact .of_eq rfl rfl rfl
  · exact .of_eq rfl rfl rfl
  · exact .of_eq rfl rfl rfl

variable [Bincode (LogEntry Cmd)]

theorem careful_onElectionTimeout {w : RaftWorkerState Cmd} {n : Node Cmd}
    (h : w.onElectionTimeout = some n) : w.inner.Careful n.worker.inner ∧
      n.worker.inner.storage.votedFor = some n.worker.inner.nodeId := by
  have helect : ∀ inner : RaftWorkerInner Cmd,
      inner.Careful (onElectionTimeout.elect inner).worker.inner ∧
        (onElectionTimeout.elect inner).worker.inner.storage.votedFor =
          some (onElectionTimeout.elect inner).worker.inner.nodeId :=
    fun inner => moves_elect (Candidate.follows_startElection inner)
  cases w with
  | follower w =>
    obtain rfl := Option.some.inj h
    obtain ⟨⟨hn, hk, hs⟩, hv⟩ := helect { w.inner with leaderId := none }
    exact ⟨⟨hn, hk, hs⟩, hv⟩
  | candidate w =>
    obtain rfl := Option.some.inj h
    exact helect w.inner
  | leader w => cases h

theorem careful_onRpc (caller : NodeId) (k : ℕ) (req : RpcRequest Cmd) (w : RaftWorkerState Cmd) :
    w.inner.Careful (w.onRpc caller k req).1.worker.inner :=
  moves_onRpc (fun v _ => Follower.follows_handleRpc req v.inner)
    (fun v _ => Candidate.follows_handleRpc req v.inner)
    fun v _ => Leader.follows_handleRpc caller k req v

theorem careful_onAppend (w : RaftWorker Leader Cmd) (task : InFlightAppend) (res : RpcResult) :
    w.inner.Careful (onAppend w task res).worker.inner :=
  moves_onAppend (Leader.follows_handleAppendEntriesResponse _ _ _ res _)

theorem careful_onResponse {k : ℕ} {res : RpcResult} {w : RaftWorkerState Cmd} {n : Node Cmd}
    (h : w.onResponse k res = some n) : w.inner.Careful n.worker.inner := by
  cases w with
  | follower w => exact careful_answerForwarded h
  | candidate w =>
    simp only [onResponse] at h
    split_ifs at h
    · obtain rfl := Option.some.inj h
      exact careful_onVote w k res
    · exact careful_answerForwarded h
  | leader w =>
    simp only [onResponse] at h
    split at h
    · obtain rfl := Option.some.inj h
      exact careful_onAppend w _ res
    · exact careful_answerForwarded h

omit [Bincode (LogEntry Cmd)] in
theorem careful_leaderStep {x : Rust (RaftWorker Leader Cmd) Unit} {w : RaftWorkerState Cmd}
    {n : Node Cmd} (hx : ∀ w, Follows Leader.Steady w x) (h : leaderStep x w = some n) :
    w.inner.Careful n.worker.inner :=
  (moves_leaderStep h fun v _ => hx v).careful

omit [Bincode (LogEntry Cmd)] in
theorem careful_innerStep {x : Rust (RaftWorkerInner Cmd) Unit} (w : RaftWorkerState Cmd)
    (hx : ∀ w, Follows RaftWorkerInner.Steady w x) :
    w.inner.Careful (innerStep x w).worker.inner :=
  (moves_innerStep (hx w.inner)).careful

theorem careful_onClient {token : ℕ} {req : ClientRequest Cmd} {w : RaftWorkerState Cmd}
    {n : Node Cmd} (h : w.onClient token req = some n) : w.inner.Careful n.worker.inner := by
  cases w with
  | follower w =>
    obtain rfl := Option.some.inj h
    exact careful_innerStep (.follower w) (Follower.follows_forwardClientRequest req token)
  | candidate w =>
    obtain rfl := Option.some.inj h
    exact careful_innerStep (.candidate w) fun _ => .modify (.of_eq rfl rfl rfl)
  | leader w => exact careful_leaderStep (Leader.follows_handleClientRequest req _) h

/-- **Whatever happens at a worker, its ballot moves forward**, and only the removal of its vote
from the storage can be seen by stopping part way. -/
theorem careful_on {w : RaftWorkerState Cmd} {e : Event Cmd} {n : Node Cmd}
    {resp : Option RpcResponse} (h : w.on e = some (n, resp)) :
    w.inner.Careful n.worker.inner := by
  cases e with
  | electionTimeout =>
    obtain ⟨n, hn, heq⟩ := Option.map_eq_some_iff.mp h
    cases heq
    exact (careful_onElectionTimeout hn).1
  | rpc caller k req =>
    obtain rfl := (Prod.mk.inj (Option.some.inj h)).1
    exact careful_onRpc caller k req w
  | response k res =>
    obtain ⟨n, hn, heq⟩ := Option.map_eq_some_iff.mp h
    cases heq
    exact careful_onResponse hn
  | heartbeat =>
    obtain ⟨n, hn, heq⟩ := Option.map_eq_some_iff.mp h
    cases heq
    exact careful_leaderStep Leader.sendClosed_steady.follows_heartbeat hn
  | client token req =>
    obtain ⟨n, hn, heq⟩ := Option.map_eq_some_iff.mp h
    cases heq
    exact careful_onClient hn
  | advanceCommitIndex =>
    obtain ⟨n, hn, heq⟩ := Option.map_eq_some_iff.mp h
    cases heq
    exact careful_leaderStep Leader.commitClosed_steady.follows_advanceCommitIndex hn
  | applyLog =>
    obtain rfl := (Prod.mk.inj (Option.some.inj h)).1
    exact careful_innerStep w RaftWorkerInner.follows_applyLog
  | connect peer =>
    obtain rfl := (Prod.mk.inj (Option.some.inj h)).1
    exact careful_innerStep w fun _ => .modify (.of_eq rfl rfl rfl)
  | disconnect peer =>
    obtain rfl := (Prod.mk.inj (Option.some.inj h)).1
    refine careful_innerStep w fun w => .modify ?_
    split <;> exact .of_eq rfl rfl rfl

end RaftWorkerState

end Wraft
