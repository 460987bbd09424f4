import Wraft.Raft.Node
import Wraft.Raft.WorkerSpec

/-!
# Moving a worker along a relation

Rules that carry `Follows`, and with it any fact about what a computation does to its state, from
the parts of a worker to its functions, and from these to its reactions: the state of a reaction
is the one in which the function that handles the event returned or panicked. The loops of a
worker are walked through here, once for all relations that allow their single steps.
-/

namespace Wraft

open EStateM (Follows)

variable {Cmd : Type}

section

variable {σ α β : Type} {R : σ → σ → Prop} [IsPreorder σ R]

/-- What comes after a result may use how it came about. -/
theorem follows_ofExcept_bind_of_eq {s : σ} {x : Except Panic α} {f : α → Rust σ β}
    (h : ∀ a, x = .ok a → Follows R s (f a)) : Follows R s (ofExcept x >>= f) := by
  cases x with
  | error p => exact .throw_bind
  | ok a =>
    rintro _ rfl
    exact h a rfl s rfl

theorem follows_ofExcept_bind {s : σ} {x : Except Panic α} {f : α → Rust σ β}
    (h : ∀ a, Follows R s (f a)) : Follows R s (ofExcept x >>= f) :=
  follows_ofExcept_bind_of_eq fun a _ => h a

theorem follows_u64Sub_bind {s : σ} {a b : ℕ} {f : ℕ → Rust σ β} (h : ∀ n, Follows R s (f n)) :
    Follows R s (u64Sub a b >>= f) := by
  unfold u64Sub
  split_ifs
  · rintro _ rfl
    exact h _ s rfl
  · exact .throw_bind

end

/-! ### The parts of a worker -/

variable {R : RaftWorkerInner Cmd → RaftWorkerInner Cmd → Prop}

/-- A computation on the storage moves the worker as far as the storage moves it. -/
theorem RaftWorkerInner.follows_withStorage {α : Type} {S : Storage Cmd → Storage Cmd → Prop}
    {w : RaftWorkerInner Cmd} {x : Rust (Storage Cmd) α} (h : Follows S w.storage x)
    (hR : ∀ s, S w.storage s → R w { w with storage := s }) : Follows R w (withStorage x) := by
  rintro _ rfl
  cases hrun : x.run w.storage with
  | ok a s =>
    rw [withStorage_run_of_ok hrun]
    exact hR s (h.of_ok hrun)
  | error p s =>
    rw [withStorage_run_of_error hrun]
    exact hR s (h.of_error hrun)

theorem RaftWorkerInner.follows_handleEntries [Bincode (LogEntry Cmd)]
    {S : Storage Cmd → Storage Cmd → Prop} [IsPreorder (Storage Cmd) S] {es : List (LogEntry Cmd)}
    (happend : ∀ e ∈ es, ∀ s, Follows S s (Storage.appendLog e))
    (hoverwrite : ∀ e ∈ es, ∀ s, Follows S s (Storage.overwriteLog e)) (s : Storage Cmd) :
    Follows S s (handleEntries es) := by
  induction es generalizing s with
  | nil => exact .pure
  | cons e es ih =>
    have hrest : ∀ s, Follows S s (handleEntries es) :=
      ih (fun e he => happend e (List.mem_cons_of_mem _ he))
        fun e he => hoverwrite e (List.mem_cons_of_mem _ he)
    refine .get_bind (follows_ofExcept_bind fun existing => ?_)
    dsimp only
    split
    · split_ifs
      · exact .bind (hoverwrite e List.mem_cons_self s) fun _ s' => hrest s'
      · exact hrest s
    · exact .bind (happend e List.mem_cons_self s) fun _ s' => hrest s'

/-- An accepted request writes its entries and may move the commit index. -/
theorem RaftWorkerInner.follows_handleAppendEntries [Bincode (LogEntry Cmd)]
    [IsPreorder (RaftWorkerInner Cmd) R] {req : AppendEntriesRequest Cmd}
    (hentries : ∀ w, Follows R w (withStorage (handleEntries req.entries)))
    (hcommit : ∀ w n, R w { w with commitIndex := n }) (w : RaftWorkerInner Cmd) :
    Follows R w (handleAppendEntries req) := by
  refine .get_bind ?_
  dsimp only
  split_ifs
  · exact .pure
  refine follows_ofExcept_bind fun entry => ?_
  split_ifs
  · exact .pure
  refine .bind (hentries w) fun _ w' => .bind (.modify ?_) fun _ _ => .pure
  split_ifs
  · exact hcommit w' _
  · exact refl_of R w'

/-- To ask for votes is to make calls. -/
theorem Candidate.follows_requestVotes [Bincode (LogEntry Cmd)] [IsPreorder (RaftWorkerInner Cmd) R]
    (hcall : ∀ (w : RaftWorkerInner Cmd) (peer : NodeId) (req : RequestVoteRequest),
      R w { w with transport := { w.transport with
        calls := w.transport.calls ++ [(peer, .requestVote req)] } }) (w : RaftWorkerInner Cmd) :
    Follows R w requestVotes := by
  have hfrom : ∀ peers w, Follows R w (requestVotesFrom peers) := by
    intro peers
    induction peers with
    | nil => exact fun _ => .pure
    | cons peer peers ih =>
      exact fun w => .get_bind (follows_ofExcept_bind fun _ =>
        .bind (.modifyGet (hcall w peer _)) fun _ w' => .bind (ih w') fun _ _ => .pure)
  exact .get_bind (hfrom _ w)

theorem Leader.follows_withInner {α : Type} {w : RaftWorker Leader Cmd}
    {x : Rust (RaftWorkerInner Cmd) α} (h : Follows R w.inner x) :
    Follows (fun w w' => R w.inner w'.inner) w (withInner x) := by
  rintro _ rfl
  cases hrun : x.run w.inner with
  | ok a i =>
    rw [withInner_run_of_ok hrun]
    exact h.of_ok hrun
  | error p i =>
    rw [withInner_run_of_error hrun]
    exact h.of_error hrun

/-! ### The sending and the committing of a leader -/

namespace Leader

variable {R : RaftWorker Leader Cmd → RaftWorker Leader Cmd → Prop}

/-- `R` allows all that a leader does to commit: its commit index moves, and clients that wait
are told. -/
structure CommitClosed (R : RaftWorker Leader Cmd → RaftWorker Leader Cmd → Prop) : Prop where
  commitIndex (w : RaftWorker Leader Cmd) (n : ℕ) :
    R w { w with inner := { w.inner with commitIndex := n } }
  answer (w : RaftWorker Leader Cmd) (tx : ClientSender) (l : Leader) :
    R w { inner := w.inner.answer tx (.ok .ack), state := l }

variable [Bincode (LogEntry Cmd)]

/-- `R` allows all that a leader does to send its log: it moves what it knows of its peers, and
calls them with entries that it has stored. -/
structure SendClosed (R : RaftWorker Leader Cmd → RaftWorker Leader Cmd → Prop) : Prop where
  peers {w : RaftWorker Leader Cmd} {l : Leader}
    (h : l.inFlightClientRequests = w.state.inFlightClientRequests) : R w { w with state := l }
  call (w : RaftWorker Leader Cmd) (peer : NodeId) (req : AppendEntriesRequest Cmd)
    (h : ∀ e ∈ req.entries, w.inner.storage.Has e) :
    R w { w with inner := { w.inner with transport := { w.inner.transport with
      calls := w.inner.transport.calls ++ [(peer, .appendEntries req)] } } }

variable [IsPreorder (RaftWorker Leader Cmd) R]

/-- A leader sends what it has stored. -/
theorem SendClosed.follows_appendEntries (hR : SendClosed R) (peer : NodeId)
    (w : RaftWorker Leader Cmd) : Follows R w (appendEntries peer) := by
  refine .get_bind ?_
  split
  · exact .pure
  split_ifs
  · exact .pure
  split
  · exact .throw
  refine follows_u64Sub_bind fun _ => follows_ofExcept_bind fun _ =>
    follows_ofExcept_bind_of_eq fun entries hentries => .bind ?_ fun _ _ => .modify (hR.peers rfl)
  rintro _ rfl
  refine hR.call w peer _ fun e he => ?_
  obtain ⟨i, -, hat⟩ := Storage.entryAt_of_sublog hentries e he
  exact ⟨i, hat⟩

theorem SendClosed.follows_appendEntriesToAll (hR : SendClosed R) (peers : List NodeId)
    (w : RaftWorker Leader Cmd) : Follows R w (appendEntriesToAll peers) := by
  induction peers generalizing w with
  | nil => exact .pure
  | cons peer peers ih => exact .bind (hR.follows_appendEntries peer w) fun _ w' => ih w'

theorem SendClosed.follows_heartbeat (hR : SendClosed R) (w : RaftWorker Leader Cmd) :
    Follows R w heartbeat :=
  .get_bind (hR.follows_appendEntriesToAll _ w)

theorem SendClosed.follows_moveIndices (hR : SendClosed R) (peer : NodeId) (first last : ℕ)
    (success : Bool) (w : RaftWorker Leader Cmd) :
    Follows R w (moveIndices peer first last success) := by
  refine .get_bind ?_
  split
  · exact .throw
  split_ifs
  · refine .bind (.set (hR.peers rfl)) fun _ w' => ?_
    split
    · exact .throw
    · exact .modify (hR.peers rfl)
  · exact follows_u64Sub_bind fun start => .bind (.set (hR.peers rfl)) fun _ w' =>
      hR.follows_appendEntries peer w'

omit [Bincode (LogEntry Cmd)] in
theorem CommitClosed.acknowledge (hR : CommitClosed R) (is : List ℕ) (w : RaftWorker Leader Cmd) :
    R w (Leader.acknowledge is w) := by
  induction is generalizing w with
  | nil => exact refl_of R w
  | cons i is ih =>
    rw [Leader.acknowledge]
    split
    · exact trans_of R (hR.answer w _ _) (ih _)
    · exact ih w

theorem CommitClosed.follows_advanceFrom (hR : CommitClosed R) (ns : List ℕ)
    (w : RaftWorker Leader Cmd) : Follows R w (advanceFrom ns) := by
  induction ns generalizing w with
  | nil => exact .pure
  | cons n ns ih =>
    refine .get_bind ?_
    split_ifs
    · exact .pure
    refine follows_ofExcept_bind fun entry => ?_
    split
    · exact .throw
    · split_ifs
      · exact .pure
      · exact .bind (.set (hR.commitIndex w n)) fun _ w' => ih w'

theorem CommitClosed.follows_advanceCommitIndex (hR : CommitClosed R)
    (w : RaftWorker Leader Cmd) : Follows R w advanceCommitIndex :=
  .get_bind (.bind (hR.follows_advanceFrom _ w) fun _ w' => .modify (hR.acknowledge _ w'))

end Leader

/-! ### Reactions -/

namespace RaftWorkerState

@[simp]
theorem inner_withInner (w : RaftWorkerState Cmd) (inner : RaftWorkerInner Cmd) :
    (w.withInner inner).inner = inner := by
  cases w <;> rfl

theorem moves_leaderStep {x : Rust (RaftWorker Leader Cmd) Unit} {w : RaftWorkerState Cmd}
    {n : Node Cmd} (h : leaderStep x w = some n)
    (hx : ∀ v, w = .leader v → Follows (fun w w' => R w.inner w'.inner) v x) :
    R w.inner n.worker.inner := by
  cases w with
  | follower w => exact nomatch h
  | candidate w => exact nomatch h
  | leader w =>
    simp only [leaderStep] at h
    split at h
    · obtain rfl := Option.some.inj h
      exact (hx w rfl).of_ok ‹_›
    · obtain rfl := Option.some.inj h
      exact (hx w rfl).of_error ‹_›

theorem moves_innerStep {x : Rust (RaftWorkerInner Cmd) Unit} {w : RaftWorkerState Cmd}
    (hx : Follows R w.inner x) : R w.inner (innerStep x w).worker.inner := by
  unfold innerStep
  split
  · rw [inner_withInner]
    exact hx.of_ok ‹_›
  · rw [inner_withInner]
    exact hx.of_error ‹_›

variable [Bincode (LogEntry Cmd)]

theorem moves_elect {inner : RaftWorkerInner Cmd} (h : Follows R inner Candidate.startElection) :
    R inner (onElectionTimeout.elect inner).worker.inner := by
  unfold onElectionTimeout.elect
  split
  · exact h.of_ok ‹_›
  · exact h.of_error ‹_›

theorem moves_onRpc {caller : NodeId} {k : ℕ} {req : RpcRequest Cmd} {w : RaftWorkerState Cmd}
    (hf : ∀ v, w = .follower v → Follows R v.inner (Follower.handleRpc req))
    (hc : ∀ v, w = .candidate v → Follows R v.inner (Candidate.handleRpc req))
    (hl : ∀ v, w = .leader v →
      Follows (fun w w' => R w.inner w'.inner) v (Leader.handleRpc caller k req)) :
    R w.inner (w.onRpc caller k req).1.worker.inner := by
  cases w with
  | follower w =>
    have hrpc := hf w rfl
    unfold onRpc
    dsimp only
    split
    · exact hrpc.of_ok ‹_›
    · exact hrpc.of_error ‹_›
  | candidate w =>
    have hrpc := hc w rfl
    unfold onRpc
    dsimp only
    split
    · exact hrpc.of_ok ‹_›
    · exact hrpc.of_ok ‹_›
    · exact hrpc.of_error ‹_›
  | leader w =>
    have hrpc := hl w rfl
    unfold onRpc
    dsimp only
    split
    · exact hrpc.of_ok ‹_›
    · exact hrpc.of_ok ‹_›
    · exact hrpc.of_error ‹_›

theorem moves_onAppend {w : RaftWorker Leader Cmd} {task : InFlightAppend} {res : RpcResult}
    (h : Follows (fun w w' => R w.inner w'.inner)
      { w with state := { w.state with
        responsesRx := w.state.responsesRx.filter (·.call ≠ task.call) } }
      (Leader.handleAppendEntriesResponse task.peerId task.firstEntry task.lastEntry res)) :
    R w.inner (onAppend w task res).worker.inner := by
  unfold onAppend
  dsimp only
  split
  · exact h.of_ok ‹_›
  · exact h.of_ok ‹_›
  · exact h.of_error ‹_›

end RaftWorkerState

end Wraft
