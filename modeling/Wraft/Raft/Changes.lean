import Mathlib.Logic.Relation
import Wraft.Raft.Ballot

/-!
# What the events of a worker change

Every reaction of a worker is a sequence of elementary changes (`Change`): items of the storage are
written, an entry that is stored is applied, a call is made that carries stored entries, and so
on. Entries that were not stored before are those that the event brings (`Event.Brings`). The
only reaction that is not one of these is a follower that forwards the request of a client, which
is a call that carries no entry (`changes_on`).
-/

namespace Wraft

open EStateM (Follows)

variable {Cmd : Type} [Bincode (LogEntry Cmd)]

/-! ### Storages -/

namespace Storage

/-- One item of the storage is written; if it is an entry, it is one with `P`. -/
inductive Change (P : LogEntry Cmd → Prop) (s : Storage Cmd) : Storage Cmd → Prop
  | setLastLogIndex (idx : ℕ) : Change P s (s.setLastLogIndex idx)
  | setCurrentTerm (term : ℕ) : Change P s (s.setCurrentTerm term)
  | setVotedFor (val : Option NodeId) : Change P s (s.setVotedFor val)
  | setEntry {e : LogEntry Cmd} (he : P e) :
      Change P s (s.setPersistent (Key.log s.sessionKey e.idx).format (Bincode.serialize e))

def Changes (P : LogEntry Cmd → Prop) : Storage Cmd → Storage Cmd → Prop :=
  Relation.ReflTransGen (Change P)

instance (P : LogEntry Cmd → Prop) : IsPreorder (Storage Cmd) (Changes P) where
  refl _ := .refl
  trans _ _ _ h h' := h.trans h'

/-- Every entry is stored under its index. -/
def Placed (s : Storage Cmd) : Prop := ∀ i e, s.entryAt i = some e → e.idx = i

variable {P : LogEntry Cmd → Prop} {s s' : Storage Cmd}

theorem entryAt_setEntry (s : Storage Cmd) (e : LogEntry Cmd) (i : ℕ) :
    (s.setPersistent (Key.log s.sessionKey e.idx).format (Bincode.serialize e)).entryAt i =
      if i = e.idx then some e else s.entryAt i := by
  split_ifs with hi
  · subst hi
    simp [entryAt, setPersistent, Bincode.deserialize_serialize]
  · exact congrArg (Option.bind · _) (getItem_setPersistent_of_ne _ _ (by simp; omega))

/-- A change leaves an entry where it is, or stores an entry with `P` at its index. -/
theorem Change.entryAt (h : Change P s s') {i : ℕ} {e : LogEntry Cmd}
    (he : s'.entryAt i = some e) : s.entryAt i = some e ∨ P e ∧ e.idx = i := by
  cases h with
  | setLastLogIndex idx => exact .inl (by rwa [entryAt_setLastLogIndex] at he)
  | setCurrentTerm term => exact .inl (by rwa [entryAt_setCurrentTerm] at he)
  | setVotedFor val => exact .inl (by rwa [entryAt_setVotedFor] at he)
  | @setEntry e' hP =>
    rw [entryAt_setEntry] at he
    split_ifs at he with hi
    · obtain rfl := Option.some.inj he
      exact .inr ⟨hP, hi.symm⟩
    · exact .inl he

theorem Change.sessionKey (h : Change P s s') : s'.sessionKey = s.sessionKey := by
  cases h with
  | setVotedFor val => exact sessionKey_setVotedFor s val
  | setLastLogIndex idx => rfl
  | setCurrentTerm term => rfl
  | setEntry he => rfl

theorem changes_updateTerm (s : Storage Cmd) (term : ℕ) : Changes P s (s.updateTerm term).2 := by
  rw [updateTerm]
  split_ifs
  · exact (Relation.ReflTransGen.single (.setVotedFor none)).tail (.setCurrentTerm term)
  · exact .refl

theorem changes_incrementTerm (s : Storage Cmd) : Changes P s s.incrementTerm :=
  (Relation.ReflTransGen.single (.setVotedFor none)).tail (.setCurrentTerm _)

theorem changes_appendLog (s : Storage Cmd) {e : LogEntry Cmd} (he : P e) :
    Follows (Changes P) s (appendLog e) := by
  refine .get_bind (.bind (.modify (.single (.setLastLogIndex _))) fun _ s' => ?_)
  dsimp only
  split_ifs with hidx
  · rw [hidx]
    exact .modify (.single (.setEntry he))
  · exact .throw_bind

theorem changes_overwriteLog (s : Storage Cmd) {e : LogEntry Cmd} (he : P e) :
    Follows (Changes P) s (overwriteLog e) := by
  refine .get_bind ?_
  dsimp only
  split_ifs
  · exact .bind (.modify (.single (.setLastLogIndex _))) fun _ s' => changes_appendLog s' he
  · exact .throw_bind
  · exact .throw_bind
  · exact .throw_bind

/-- A part of the log is in the order of its indices. -/
theorem Placed.sublog_range' (hs : s.Placed) {a n : ℕ} {es : List (LogEntry Cmd)}
    (h : s.sublog (List.range' a n) = .ok es) :
    (∀ e ∈ es, a ≤ e.idx) ∧ es.Pairwise (·.idx < ·.idx) := by
  have hle : ∀ {a n : ℕ} {es : List (LogEntry Cmd)}, s.sublog (List.range' a n) = .ok es →
      ∀ e ∈ es, a ≤ e.idx := by
    intro a n es h e he
    obtain ⟨i, hi, hat⟩ := entryAt_of_sublog h e he
    rw [hs i e hat]
    exact (List.mem_range'_1.mp hi).1
  refine ⟨hle h, ?_⟩
  induction n generalizing a es with
  | zero =>
    obtain rfl := Except.ok.inj h
    exact .nil
  | succ n ih =>
    rw [List.range'_succ] at h
    obtain ⟨entry, rest, hget, hrest, rfl⟩ := sublog_cons_eq_ok h
    refine List.pairwise_append.mpr ⟨?_, ih hrest, fun e he e' he' => ?_⟩
    · cases entry with
      | none => exact .nil
      | some e => exact List.pairwise_singleton _ e
    · rw [Option.mem_toList.mp he] at hget
      rw [hs a e (entryAt_of_getLog hget)]
      exact hle hrest e' he'

end Storage

/-! ### Workers -/

namespace RaftWorkerInner

/-- A call carries entries that are stored, and does not forward a client's request. -/
def Carries (w : RaftWorkerInner Cmd) : RpcRequest Cmd → Prop
  | .appendEntries req => ∀ e ∈ req.entries, w.storage.Has e
  | .requestVote _ => True
  | .forwardClientRequest _ => False

/-- An elementary change of a worker that stores entries with `P` only. -/
inductive Change (P : LogEntry Cmd → Prop) (w : RaftWorkerInner Cmd) : RaftWorkerInner Cmd → Prop
  | storage {s : Storage Cmd} (h : Storage.Change P w.storage s) :
      Change P w { w with storage := s }
  | leaderId (leaderId : Option NodeId) : Change P w { w with leaderId }
  | peerClients (peerClients : AList fun _ : NodeId => Client) : Change P w { w with peerClients }
  | forwarded (forwarded : List (ℕ × ℕ)) : Change P w { w with forwarded }
  | answer (tx : ClientSender) (res : ClientResult) : Change P w (w.answer tx res)
  | commitIndex (commitIndex : ℕ) : Change P w { w with commitIndex }
  | apply (e : LogEntry Cmd) (he : w.storage.Has e) (hlt : w.lastApplied < e.idx) :
      Change P w { w with lastApplied := e.idx, stateMachineTx := w.stateMachineTx ++ [e] }
  | call (peer : NodeId) {req : RpcRequest Cmd} (h : w.Carries req) : Change P w { w with
      transport := { w.transport with calls := w.transport.calls ++ [(peer, req)] } }

def Changes (P : LogEntry Cmd → Prop) : RaftWorkerInner Cmd → RaftWorkerInner Cmd → Prop :=
  Relation.ReflTransGen (Change P)

instance (P : LogEntry Cmd → Prop) : IsPreorder (RaftWorkerInner Cmd) (Changes P) where
  refl _ := .refl
  trans _ _ _ h h' := h.trans h'

variable {P : LogEntry Cmd → Prop}

theorem changes_storage {w : RaftWorkerInner Cmd} {s : Storage Cmd}
    (h : Storage.Changes P w.storage s) : Changes P w { w with storage := s } := by
  induction h with
  | refl => exact .refl
  | tail _ hc ih => exact ih.tail (.storage hc)

theorem changes_withStorage {α : Type} {w : RaftWorkerInner Cmd} {x : Rust (Storage Cmd) α}
    (h : Follows (Storage.Changes P) w.storage x) : Follows (Changes P) w (withStorage x) :=
  follows_withStorage h fun _ => changes_storage

theorem changes_updateTerm (w : RaftWorkerInner Cmd) (term : ℕ) :
    Follows (Changes P) w (modifyGet (·.updateTerm term) : Rust (RaftWorkerInner Cmd) Bool) :=
  .modifyGet (changes_storage (Storage.changes_updateTerm _ term))

theorem changes_handleRequestVote (w : RaftWorkerInner Cmd) (req : RequestVoteRequest) :
    Follows (Changes P) w
      (modifyGet (·.handleRequestVote req) : Rust (RaftWorkerInner Cmd) RequestVoteResponse) := by
  refine .modifyGet ?_
  rw [handleRequestVote]
  split_ifs
  · exact .single (.storage (.setVotedFor _))
  · exact .refl

theorem changes_handleAppendEntries (w : RaftWorkerInner Cmd) {req : AppendEntriesRequest Cmd}
    (hreq : ∀ e ∈ req.entries, P e) : Follows (Changes P) w (handleAppendEntries req) :=
  follows_handleAppendEntries
    (fun _ => changes_withStorage (follows_handleEntries
      (fun e he s => Storage.changes_appendLog s (hreq e he))
      (fun e he s => Storage.changes_overwriteLog s (hreq e he)) _))
    (fun _ n => .single (.commitIndex n)) w

/-- Entries are applied one after the other. -/
theorem changes_applyEntries {es : List (LogEntry Cmd)} {w : RaftWorkerInner Cmd}
    (hhas : ∀ e ∈ es, w.storage.Has e) (hlt : ∀ e ∈ es, w.lastApplied < e.idx)
    (hsorted : es.Pairwise (·.idx < ·.idx)) : Changes P w (es.foldl (fun w entry =>
      { w with lastApplied := entry.idx, stateMachineTx := w.stateMachineTx ++ [entry] }) w) := by
  induction es generalizing w with
  | nil => exact .refl
  | cons e es ih =>
    obtain ⟨he, hhas⟩ := List.forall_mem_cons.mp hhas
    obtain ⟨hfirst, hsorted⟩ := List.pairwise_cons.mp hsorted
    refine .head (.apply e he (hlt e List.mem_cons_self)) ?_
    exact ih hhas hfirst hsorted

theorem changes_applyLog {w : RaftWorkerInner Cmd} (hw : w.storage.Placed) :
    Follows (Changes P) w applyLog := by
  refine .get_bind (follows_ofExcept_bind_of_eq fun entries hentries => .modify ?_)
  obtain ⟨hle, hsorted⟩ := hw.sublog_range' hentries
  refine changes_applyEntries (fun e he => ?_) hle hsorted
  obtain ⟨i, -, hat⟩ := Storage.entryAt_of_sublog hentries e he
  exact ⟨i, hat⟩

end RaftWorkerInner

/-! ### Leaders -/

namespace Leader

open RaftWorkerInner

variable {P : LogEntry Cmd → Prop}

def Changes (P : LogEntry Cmd → Prop) (w w' : RaftWorker Leader Cmd) : Prop :=
  RaftWorkerInner.Changes P w.inner w'.inner

instance (P : LogEntry Cmd → Prop) : IsPreorder (RaftWorker Leader Cmd) (Changes P) where
  refl w := refl_of (RaftWorkerInner.Changes P) w.inner
  trans _ _ _ h h' := trans_of (RaftWorkerInner.Changes P) h h'

theorem sendClosed_changes : SendClosed (Changes P : RaftWorker Leader Cmd → _) where
  peers _ := .refl
  call _ peer _ h := .single (.call peer h)

theorem commitClosed_changes : CommitClosed (Changes P : RaftWorker Leader Cmd → _) where
  commitIndex _ n := .single (.commitIndex n)
  answer _ tx _ := .single (.answer tx (.ok .ack))

/-- The entry that a leader makes of a command. -/
def newEntry (w : RaftWorkerInner Cmd) (cmd : Cmd) : LogEntry Cmd :=
  { cmd, idx := w.storage.lastLogIndex + 1, term := w.storage.currentTerm }

theorem changes_handleClientRequest {cmd : Cmd} {w : RaftWorker Leader Cmd}
    (hP : P (newEntry w.inner cmd)) (tx : ClientSender) :
    Follows (Changes P) w (handleClientRequest (.apply cmd) tx) :=
  .get_bind (.bind (follows_withInner (changes_withStorage (Storage.changes_appendLog _ hP)))
    fun _ _ => .bind (.modify .refl) fun _ w' => sendClosed_changes.follows_appendEntriesToAll _ w')

theorem changes_handleAppendEntriesResponse (peer : NodeId) (first last : ℕ) (res : RpcResult)
    (w : RaftWorker Leader Cmd) :
    Follows (Changes P) w (handleAppendEntriesResponse peer first last res) := by
  refine .bind (.modify .refl) fun _ w => ?_
  match res with
  | .error _ => exact .pure
  | .ok (.appendEntries resp) =>
    refine .bind (follows_withInner (changes_updateTerm _ _)) fun a w' => ?_
    split
    · exact .pure
    · refine .get_bind ?_
      dsimp only
      split_ifs
      · exact .pure
      · exact .bind (sendClosed_changes.follows_moveIndices _ _ _ _ w') fun _ _ => .pure
  | .ok (.requestVote _) | .ok (.forwardClientRequest _) => exact .throw

end Leader

/-! ### Requests of other nodes -/

/-- What a request brings to a worker: its entries, or the entry that a leader makes of a
client's command. -/
def RpcRequest.Brings (w : RaftWorkerInner Cmd) (e : LogEntry Cmd) : RpcRequest Cmd → Prop
  | .appendEntries req => e ∈ req.entries
  | .requestVote _ => False
  | .forwardClientRequest (.apply cmd) => e = Leader.newEntry w cmd

/-- What an event brings to a worker. -/
def Event.Brings (w : RaftWorkerInner Cmd) (e : LogEntry Cmd) : Event Cmd → Prop
  | .rpc _ _ req => req.Brings w e
  | .client _ (.apply cmd) => e = Leader.newEntry w cmd
  | _ => False

/-- The worker has forwarded the command of a client to a peer. -/
def Follower.forwarding (w : RaftWorkerInner Cmd) (token : ℕ) (cmd : Cmd)
    (peer : NodeId) : RaftWorkerInner Cmd :=
  { w with
    forwarded := (w.transport.calls.length, token) :: w.forwarded
    transport := { w.transport with
      calls := w.transport.calls ++ [(peer, .forwardClientRequest (.apply cmd))] } }

section

open RaftWorkerInner

variable {P : LogEntry Cmd → Prop} {req : RpcRequest Cmd}

theorem Leader.changes_handleRpc (caller : NodeId) (k : ℕ) {w : RaftWorker Leader Cmd}
    (hreq : ∀ e, req.Brings w.inner e → P e) :
    Follows (Leader.Changes P) w (handleRpc caller k req) := by
  cases req with
  | appendEntries req =>
    refine .get_bind (.bind (follows_withInner (changes_updateTerm _ _)) fun a w' => ?_)
    split
    · exact .bind (follows_withInner (changes_handleAppendEntries _ hreq)) fun _ _ => .pure
    · exact .pure
  | requestVote req =>
    refine .get_bind (.bind (follows_withInner (changes_updateTerm _ _)) fun a w' => ?_)
    split
    · exact .bind (follows_withInner (changes_handleRequestVote _ req)) fun _ _ => .pure
    · exact .pure
  | forwardClientRequest req =>
    match req with
    | .apply cmd => exact .bind (changes_handleClientRequest (hreq _ rfl) _) fun _ _ => .pure

theorem Follower.changes_handleRpc {w : RaftWorkerInner Cmd}
    (hreq : ∀ e, req.Brings w e → P e) :
    Follows (RaftWorkerInner.Changes P) w (handleRpc req) := by
  cases req with
  | requestVote req =>
    exact .bind (changes_updateTerm _ _) fun _ _ => .bind (changes_handleRequestVote _ req)
      fun _ _ => .pure
  | appendEntries req =>
    exact .bind (changes_updateTerm _ _) fun _ _ => .bind (.modify (.single (.leaderId _)))
      fun _ _ => .bind (changes_handleAppendEntries _ hreq) fun _ _ => .pure
  | forwardClientRequest req => exact .pure

theorem Candidate.changes_handleRpc {w : RaftWorkerInner Cmd}
    (hreq : ∀ e, req.Brings w e → P e) :
    Follows (RaftWorkerInner.Changes P) w (handleRpc req) := by
  cases req with
  | requestVote req =>
    exact .bind (changes_updateTerm _ _) fun _ _ => .bind (changes_handleRequestVote _ req)
      fun _ _ => .pure
  | appendEntries req =>
    exact .bind (changes_updateTerm _ _) fun _ _ =>
      .bind (changes_handleAppendEntries _ hreq) fun _ _ => .pure
  | forwardClientRequest req => exact .pure

/-! ### Elections -/

theorem Candidate.changes_startElection (w : RaftWorkerInner Cmd) :
    Follows (RaftWorkerInner.Changes P) w startElection :=
  .bind (.modify (changes_storage (Storage.changes_incrementTerm _))) fun _ w' =>
    .bind (.modify (.single (.storage (.setVotedFor (some w'.nodeId))))) fun _ w'' =>
      .bind (follows_requestVotes (fun _ peer _ => .single (.call peer trivial)) w'')
        fun _ _ => .pure

end

/-! ### Reactions -/

namespace RaftWorkerState

open RaftWorkerInner

variable {P : LogEntry Cmd → Prop} {w : RaftWorkerState Cmd} {n : Node Cmd}

theorem changes_answer {k : ℕ} {res : RpcResult}
    (h : w.answerForwarded k res = some n) : Changes P w.inner n.worker.inner := by
  obtain ⟨token, -, rfl⟩ := Option.map_eq_some_iff.mp h
  have hforwarded : Changes P w.inner _ :=
    .single (.forwarded (w.inner.forwarded.filter (·.1 ≠ k)))
  dsimp only
  split
  · rw [inner_withInner]
    exact hforwarded.tail (.answer (.client token) _)
  · rw [inner_withInner]
    exact hforwarded.tail (.answer (.client token) (.error .unavailable))
  · rw [inner_withInner]
    exact hforwarded

theorem changes_onVote (w : RaftWorker Candidate Cmd) (k : ℕ) (res : RpcResult) :
    Changes P w.inner (onVote w k res).worker.inner := by
  rw [onVote.eq_def]
  dsimp only
  split
  · split_ifs
    · exact .single (.leaderId (some w.inner.nodeId))
    · exact .refl
    · exact .refl
  · exact .refl
  · exact .refl

theorem changes_onElectionTimeout (h : w.onElectionTimeout = some n) :
    Changes P w.inner n.worker.inner := by
  have helect : ∀ inner : RaftWorkerInner Cmd,
      Changes P inner (onElectionTimeout.elect inner).worker.inner :=
    fun inner => moves_elect (Candidate.changes_startElection inner)
  cases w with
  | follower w =>
    obtain rfl := Option.some.inj h
    exact (helect { w.inner with leaderId := none }).head (.leaderId none)
  | candidate w =>
    obtain rfl := Option.some.inj h
    exact helect w.inner
  | leader w => exact nomatch h

theorem changes_onResponse {k : ℕ} {res : RpcResult} (h : w.onResponse k res = some n) :
    Changes P w.inner n.worker.inner := by
  cases w with
  | follower w => exact changes_answer h
  | candidate w =>
    rw [onResponse] at h
    split_ifs at h
    · obtain rfl := Option.some.inj h
      exact changes_onVote w k res
    · exact changes_answer h
  | leader w =>
    rw [onResponse] at h
    split at h
    · obtain rfl := Option.some.inj h
      exact moves_onAppend (Leader.changes_handleAppendEntriesResponse _ _ _ res _)
    · exact changes_answer h

/-- A client's request at a node that is not a follower. -/
theorem changes_onClient {token : ℕ} {cmd : Cmd} (hw : ∀ v, w ≠ .follower v)
    (hP : P (Leader.newEntry w.inner cmd)) (h : w.onClient token (.apply cmd) = some n) :
    Changes P w.inner n.worker.inner := by
  cases w with
  | follower w => exact absurd rfl (hw w)
  | candidate w =>
    obtain rfl := Option.some.inj h
    exact moves_innerStep (.modify (.single (.answer (.client token) (.error .unavailable))))
  | leader w =>
    refine moves_leaderStep h ?_
    rintro _ ⟨rfl⟩
    exact Leader.changes_handleClientRequest hP (.client token)

/-- A follower answers a client that there is no leader, or forwards the request. -/
theorem onClient_follower {token : ℕ} {cmd : Cmd} {v : RaftWorker Follower Cmd}
    (hw : w = .follower v) (h : w.onClient token (.apply cmd) = some n) :
    Changes P w.inner n.worker.inner ∨
      ∃ peer, n.worker.inner = Follower.forwarding w.inner token cmd peer := by
  obtain rfl := hw
  obtain rfl := Option.some.inj h
  refine moves_innerStep (R := fun w w' => Changes P w w' ∨
    ∃ peer, w' = Follower.forwarding w token cmd peer)
    (x := Follower.forwardClientRequest (.apply cmd) token) (.get_bind ?_)
  have hunavailable : Changes P v.inner (v.inner.answer (.client token) (.error .unavailable)) :=
    .single (.answer _ _)
  split
  · split_ifs
    · rintro _ rfl
      exact .inr ⟨_, rfl⟩
    · exact .modify (.inl hunavailable)
  · exact .modify (.inl hunavailable)

/-- **Whatever happens at a worker, it changes step by step**, and the entries that are new to it
are among those that the event brings; or it is a follower that forwards a client's command. -/
theorem changes_on {e : Event Cmd} {resp : Option RpcResponse} (hplaced : w.inner.storage.Placed)
    (hP : ∀ entry, e.Brings w.inner entry → P entry) (h : w.on e = some (n, resp)) :
    Changes P w.inner n.worker.inner ∨ ∃ token cmd peer, e = .client token (.apply cmd) ∧
      n.worker.inner = Follower.forwarding w.inner token cmd peer := by
  cases e with
  | electionTimeout =>
    obtain ⟨n, hn, ⟨rfl, rfl⟩⟩ := Option.map_eq_some_iff.mp h
    exact .inl (changes_onElectionTimeout hn)
  | rpc caller k req =>
    obtain rfl := (Prod.mk.inj (Option.some.inj h)).1
    refine .inl (moves_onRpc ?_ ?_ ?_)
    · rintro v rfl
      exact Follower.changes_handleRpc hP
    · rintro v rfl
      exact Candidate.changes_handleRpc hP
    · rintro v rfl
      exact Leader.changes_handleRpc caller k hP
  | response k res =>
    obtain ⟨n, hn, ⟨rfl, rfl⟩⟩ := Option.map_eq_some_iff.mp h
    exact .inl (changes_onResponse hn)
  | heartbeat =>
    obtain ⟨n, hn, ⟨rfl, rfl⟩⟩ := Option.map_eq_some_iff.mp h
    exact .inl (moves_leaderStep hn fun v _ => Leader.sendClosed_changes.follows_heartbeat v)
  | client token req =>
    obtain ⟨n, hn, ⟨rfl, rfl⟩⟩ := Option.map_eq_some_iff.mp h
    match req with
    | .apply cmd =>
      by_cases hw : ∃ v, w = .follower v
      · obtain ⟨v, hv⟩ := hw
        rcases onClient_follower (P := P) hv hn with hn | ⟨peer, hn⟩
        · exact .inl hn
        · exact .inr ⟨token, cmd, peer, rfl, hn⟩
      · exact .inl (changes_onClient (fun v hv => hw ⟨v, hv⟩) (hP _ rfl) hn)
  | advanceCommitIndex =>
    obtain ⟨n, hn, ⟨rfl, rfl⟩⟩ := Option.map_eq_some_iff.mp h
    exact .inl (moves_leaderStep hn fun v _ =>
      Leader.commitClosed_changes.follows_advanceCommitIndex v)
  | applyLog =>
    obtain rfl := (Prod.mk.inj (Option.some.inj h)).1
    exact .inl (moves_innerStep (changes_applyLog hplaced))
  | connect peer =>
    obtain rfl := (Prod.mk.inj (Option.some.inj h)).1
    exact .inl (moves_innerStep (.modify (.single (.peerClients _))))
  | disconnect peer =>
    obtain rfl := (Prod.mk.inj (Option.some.inj h)).1
    refine .inl (moves_innerStep (.modify ?_))
    split
    · exact .single (.peerClients _)
    · exact .refl

end RaftWorkerState

end Wraft
