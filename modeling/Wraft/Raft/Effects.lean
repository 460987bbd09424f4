import Wraft.Raft.Changes
import Wraft.Raft.Requests

/-!
# The effects of a worker's reactions

What a reaction can do to the log, the commit index, the applied entries and the clients of a
worker, said once for all events (`effect_on`): most reactions leave all of them alone
(`RaftWorkerInner.Frame`), and each of the others is one call of a function that is named in the
constructor of `RaftWorkerState.Effect`.
-/

namespace Wraft

open EStateM (Follows)

variable {Cmd : Type}

/-! ### Frames -/

/-- Calls were made, and nothing else happened. -/
def RaftWorkerInner.Sends (w w' : RaftWorkerInner Cmd) : Prop :=
  ∃ calls, w' = { w with transport := { w.transport with calls } }

instance : IsPreorder (RaftWorkerInner Cmd) RaftWorkerInner.Sends where
  refl w := ⟨w.transport.calls, rfl⟩
  trans _ _ _ := by
    rintro ⟨calls, rfl⟩ ⟨calls', rfl⟩
    exact ⟨calls', rfl⟩

/-- A leader that made calls and moved the indices of its peers. -/
structure Leader.Sends (w w' : RaftWorker Leader Cmd) : Prop where
  inner : w.inner.Sends w'.inner
  waiting : w'.state.inFlightClientRequests = w.state.inFlightClientRequests

instance : IsPreorder (RaftWorker Leader Cmd) Leader.Sends where
  refl w := ⟨refl_of RaftWorkerInner.Sends w.inner, rfl⟩
  trans _ _ _ h h' := ⟨trans_of RaftWorkerInner.Sends h.inner h'.inner, h'.waiting.trans h.waiting⟩

section

variable [Bincode (LogEntry Cmd)]

/-- The log and what depends on it are left alone, and no client is answered. -/
structure RaftWorkerInner.Frame (w w' : RaftWorkerInner Cmd) : Prop where
  lastLogIndex : w'.storage.lastLogIndex = w.storage.lastLogIndex
  entryAt : ∀ i, w'.storage.entryAt i = w.storage.entryAt i
  currentTerm : w.storage.currentTerm ≤ w'.storage.currentTerm
  commitIndex : w'.commitIndex = w.commitIndex
  lastApplied : w'.lastApplied = w.lastApplied
  stateMachineTx : w'.stateMachineTx = w.stateMachineTx
  forwarded : w'.forwarded ⊆ w.forwarded
  answers : w'.transport.answers = w.transport.answers

instance : IsPreorder (RaftWorkerInner Cmd) RaftWorkerInner.Frame where
  refl _ := ⟨rfl, fun _ => rfl, le_rfl, rfl, rfl, rfl, List.Subset.refl _, rfl⟩
  trans _ _ _ h h' :=
    { lastLogIndex := h'.lastLogIndex.trans h.lastLogIndex
      entryAt := fun i => (h'.entryAt i).trans (h.entryAt i)
      currentTerm := h.currentTerm.trans h'.currentTerm
      commitIndex := h'.commitIndex.trans h.commitIndex
      lastApplied := h'.lastApplied.trans h.lastApplied
      stateMachineTx := h'.stateMachineTx.trans h.stateMachineTx
      forwarded := List.Subset.trans h'.forwarded h.forwarded
      answers := h'.answers.trans h.answers }

namespace RaftWorkerInner

theorem Sends.frame {w w' : RaftWorkerInner Cmd} (h : w.Sends w') : w.Frame w' := by
  obtain ⟨calls, rfl⟩ := h
  exact ⟨rfl, fun _ => rfl, le_rfl, rfl, rfl, rfl, List.Subset.refl _, rfl⟩

theorem Frame.getLog {w w' : RaftWorkerInner Cmd} (h : w.Frame w') (i : ℕ) :
    w'.storage.getLog i = w.storage.getLog i := by
  have hat := h.entryAt i
  rw [Storage.entryAt, Storage.entryAt] at hat
  rw [Storage.getLog, Storage.getLog, h.lastLogIndex, hat]

theorem frame_setVotedFor (w : RaftWorkerInner Cmd) (v : Option NodeId) :
    w.Frame { w with storage := w.storage.setVotedFor v } :=
  ⟨by cases v <;> rfl, Storage.entryAt_setVotedFor _ v,
    (Storage.currentTerm_setVotedFor _ v).ge, rfl,
    rfl, rfl, List.Subset.refl _, rfl⟩

theorem frame_setCurrentTerm (w : RaftWorkerInner Cmd) {t : ℕ} (h : w.storage.currentTerm ≤ t) :
    w.Frame { w with storage := w.storage.setCurrentTerm t } :=
  ⟨rfl, Storage.entryAt_setCurrentTerm _ t, h, rfl, rfl, rfl, List.Subset.refl _, rfl⟩

theorem frame_updateTerm (w : RaftWorkerInner Cmd) (t : ℕ) : w.Frame (w.updateTerm t).2 := by
  rcases Nat.lt_or_ge w.storage.currentTerm t with hlt | hge
  · rw [updateTerm, Storage.updateTerm, if_pos hlt]
    exact trans_of Frame (frame_setVotedFor w none) (frame_setCurrentTerm _ hlt.le)
  · rw [updateTerm_eq_of_le hge]
    exact refl_of Frame w

theorem frame_vote (w : RaftWorkerInner Cmd) (req : RequestVoteRequest) :
    w.Frame (w.vote req).2 := by
  refine trans_of Frame (frame_updateTerm w req.term) ?_
  rw [vote, handleRequestVote]
  split_ifs
  · exact frame_setVotedFor _ _
  · exact refl_of Frame _

theorem frame_leaderId (w : RaftWorkerInner Cmd) (leaderId : Option NodeId) :
    w.Frame { w with leaderId } :=
  ⟨rfl, fun _ => rfl, le_rfl, rfl, rfl, rfl, List.Subset.refl _, rfl⟩

theorem frame_heard (w : RaftWorkerState Cmd) (req : AppendEntriesRequest Cmd) :
    w.inner.Frame (w.heard req) := by
  have hupdate := frame_updateTerm w.inner req.term
  cases w with
  | follower w => exact trans_of Frame hupdate (frame_leaderId _ (some req.leaderId))
  | candidate w => exact hupdate
  | leader w => exact hupdate

theorem follows_startElection_frame (w : RaftWorkerInner Cmd) :
    Follows Frame w Candidate.startElection := by
  refine .bind (.modify ?_) fun _ w' => .bind (.modify (frame_setVotedFor w' _)) fun _ w'' =>
    .bind (Candidate.follows_requestVotes (fun _ _ _ => Sends.frame ⟨_, rfl⟩) w'')
      fun _ _ => .pure
  exact trans_of Frame (frame_setVotedFor w none) (frame_setCurrentTerm _ (Nat.le_succ _))

end RaftWorkerInner

/-! ### Entries from a leader -/

namespace Storage

/-- The log is written, but does not get shorter. -/
structure Grows (s s' : Storage Cmd) : Prop where
  sameVote : s.SameVote s'
  lastLogIndex : s.lastLogIndex ≤ s'.lastLogIndex

instance : IsPreorder (Storage Cmd) Grows where
  refl s := ⟨.refl s, le_rfl⟩
  trans _ _ _ h h' := ⟨h.sameVote.trans h'.sameVote, h.lastLogIndex.trans h'.lastLogIndex⟩

theorem grows_appendLog (s : Storage Cmd) (e : LogEntry Cmd) : Follows Grows s (appendLog e) := by
  rintro _ rfl
  rw [appendLog_run]
  split_ifs
  · exact ⟨sameVote_appended s e, Nat.le_succ _⟩
  · exact ⟨⟨rfl, rfl, rfl⟩, Nat.le_succ _⟩

theorem grows_overwriteLog (s : Storage Cmd) (e : LogEntry Cmd) :
    Follows Grows s (overwriteLog e) := by
  rintro _ rfl
  rw [overwriteLog_run]
  split_ifs with hlast h0
  · exact refl_of Grows s
  · exact refl_of Grows s
  · refine ⟨⟨rfl, rfl, rfl⟩, ?_⟩
    show s.lastLogIndex ≤ e.idx - 1 + 1
    omega

theorem le_of_getLog {s : Storage Cmd} {i : ℕ} {e : LogEntry Cmd} (h : s.getLog i = .ok (some e)) :
    i ≤ s.lastLogIndex := by
  rw [getLog] at h
  split_ifs at h with hi
  · cases h
  · omega

end Storage

namespace RaftWorkerInner

theorem grows_handleEntries (es : List (LogEntry Cmd)) (s : Storage Cmd) :
    Follows Storage.Grows s (handleEntries es) :=
  follows_handleEntries (fun e _ s => Storage.grows_appendLog s e)
    (fun e _ s => Storage.grows_overwriteLog s e) s

/-! The three cases of the loop over the entries. -/

theorem handleEntries_of_none {s : Storage Cmd} {e : LogEntry Cmd} (es : List (LogEntry Cmd))
    (h : s.getLog e.idx = .ok none) : (handleEntries (e :: es)).run s =
      (Storage.appendLog e >>= fun _ => handleEntries es).run s := by
  rw [handleEntries, EStateM.run_bind_of_ok (EStateM.run_get _), h]
  rfl

theorem handleEntries_of_eq {s : Storage Cmd} {e existing : LogEntry Cmd}
    (es : List (LogEntry Cmd)) (h : s.getLog e.idx = .ok (some existing))
    (hterm : existing.term = e.term) :
    (handleEntries (e :: es)).run s = (handleEntries es).run s := by
  simp only [handleEntries, EStateM.run_bind_of_ok (EStateM.run_get _), h, ofExcept, pure_bind,
    hterm, ne_eq, not_true_eq_false, if_false]

theorem handleEntries_of_ne {s : Storage Cmd} {e existing : LogEntry Cmd}
    (es : List (LogEntry Cmd)) (h : s.getLog e.idx = .ok (some existing))
    (hterm : existing.term ≠ e.term) : (handleEntries (e :: es)).run s =
      (Storage.overwriteLog e >>= fun _ => handleEntries es).run s := by
  simp only [handleEntries, EStateM.run_bind_of_ok (EStateM.run_get _), h, ofExcept, pure_bind,
    ne_eq, hterm, not_false_eq_true, if_true]

/-- The log reaches as far as the entries that were received. -/
theorem idx_le_of_handleEntries {es : List (LogEntry Cmd)} {s s' : Storage Cmd}
    (h : (handleEntries es).run s = .ok () s') : ∀ e ∈ es, e.idx ≤ s'.lastLogIndex := by
  induction es generalizing s with
  | nil => exact fun e he => absurd he List.not_mem_nil
  | cons e es ih =>
    -- the log does not get shorter afterwards
    have hrest : ∀ {s₁ : Storage Cmd}, (handleEntries es).run s₁ = .ok () s' →
        e.idx ≤ s₁.lastLogIndex → ∀ f ∈ e :: es, f.idx ≤ s'.lastLogIndex :=
      fun hrun hidx => List.forall_mem_cons.mpr
        ⟨hidx.trans ((grows_handleEntries es _).of_ok hrun).lastLogIndex, ih hrun⟩
    rcases hget : s.getLog e.idx with p | _ | existing
    · rw [handleEntries, EStateM.run_bind_of_ok (EStateM.run_get _), hget] at h
      cases h
    · rw [handleEntries_of_none es hget] at h
      obtain ⟨_, s₁, happend, hrun⟩ := EStateM.run_bind_eq_ok_iff.mp h
      refine hrest hrun ?_
      rw [Storage.appendLog_run] at happend
      split_ifs at happend with heq
      · cases happend
        exact heq.ge
    · by_cases hterm : existing.term = e.term
      · rw [handleEntries_of_eq es hget hterm] at h
        exact hrest h (Storage.le_of_getLog hget)
      · rw [handleEntries_of_ne es hget hterm] at h
        obtain ⟨_, s₁, hover, hrun⟩ := EStateM.run_bind_eq_ok_iff.mp h
        refine hrest hrun ?_
        rw [Storage.overwriteLog_run] at hover
        split_ifs at hover
        · cases hover
          show e.idx ≤ e.idx - 1 + 1
          omega

/-- The worker has received entries: its log is written, and its commit index may have moved. -/
structure Receives (w w' : RaftWorkerInner Cmd) : Prop where
  storage : w.storage.Grows w'.storage
  lastApplied : w'.lastApplied = w.lastApplied
  stateMachineTx : w'.stateMachineTx = w.stateMachineTx
  forwarded : w'.forwarded = w.forwarded
  answers : w'.transport.answers = w.transport.answers

/-- The log has the previous entry of the request. -/
def HasPrev (w : RaftWorkerInner Cmd) (req : AppendEntriesRequest Cmd) : Prop :=
  req.prevLogIndex = 0 ∨
    ∃ e, w.storage.getLog req.prevLogIndex = .ok (some e) ∧ e.term = req.prevLogTerm

theorem HasPrev.le {w : RaftWorkerInner Cmd} {req : AppendEntriesRequest Cmd} (h : w.HasPrev req) :
    req.prevLogIndex ≤ w.storage.lastLogIndex := by
  obtain h0 | ⟨e, he, -⟩ := h
  · omega
  · exact Storage.le_of_getLog he

/-- A request that passes the tests of `handle_append_entries` is a matter of its entries. -/
theorem handleAppendEntries_of_hasPrev {w : RaftWorkerInner Cmd} {req : AppendEntriesRequest Cmd}
    (hterm : w.storage.currentTerm ≤ req.term) (hprev : w.HasPrev req) :
    (handleAppendEntries req).run w =
      match (handleEntries req.entries).run w.storage with
      | .ok _ s => .ok { term := w.storage.currentTerm, success := true }
        { w with storage := s, commitIndex := followCommit w.commitIndex req }
      | .error p s => .error p { w with storage := s } := by
  obtain ⟨entry, hget, htest⟩ : ∃ entry, w.storage.getLog req.prevLogIndex = .ok entry ∧
      ¬(req.prevLogIndex ≠ 0 ∧ entry.all (·.term != req.prevLogTerm)) := by
    obtain h0 | ⟨e, he, het⟩ := hprev
    · exact ⟨none, by rw [h0, Storage.getLog, if_pos (.inl rfl)], fun h => h.1 h0⟩
    · exact ⟨some e, he, by simp [het]⟩
  simp only [handleAppendEntries, EStateM.run_bind, EStateM.run_get, if_neg (not_lt.mpr hterm),
    hget, ofExcept, EStateM.run_pure, if_neg htest]
  cases hrun : (handleEntries req.entries).run w.storage with
  | ok u s =>
    simp only [withStorage_run_of_ok hrun, EStateM.run_modify, followCommit]
    split_ifs <;> rfl
  | error p s => rw [withStorage_run_of_error hrun]

/-- **`handle_append_entries`**, whatever the request: it panics with the commit index as it was,
or refuses the request and changes nothing, or goes through the entries of a request that is not
old and whose previous entry is in the log. -/
theorem handleAppendEntries_run (w : RaftWorkerInner Cmd) (req : AppendEntriesRequest Cmd) :
    (∃ p w', (handleAppendEntries req).run w = .error p w' ∧ w.Receives w' ∧
      w'.commitIndex = w.commitIndex) ∨
    (handleAppendEntries req).run w =
      .ok { term := w.storage.currentTerm, success := false } w ∨
    (∃ w', (handleAppendEntries req).run w =
        .ok { term := w.storage.currentTerm, success := true } w' ∧ w.Receives w' ∧
      w'.commitIndex = followCommit w.commitIndex req ∧
      w.storage.currentTerm ≤ req.term ∧ w.HasPrev req ∧
      (handleEntries req.entries).run w.storage = .ok () w'.storage) := by
  have hself : w.Receives w := ⟨refl_of Storage.Grows _, rfl, rfl, rfl, rfl⟩
  rcases Nat.lt_or_ge req.term w.storage.currentTerm with hold | hnew
  · exact .inr (.inl (handleAppendEntries_of_lt hold))
  rcases hget : w.storage.getLog req.prevLogIndex with p | entry
  · refine .inl ⟨p, w, ?_, hself, rfl⟩
    simp [handleAppendEntries, Nat.not_lt.mpr hnew, hget, ofExcept]
  by_cases htest : req.prevLogIndex ≠ 0 ∧ entry.all (·.term != req.prevLogTerm)
  · refine .inr (.inl ?_)
    simp only [handleAppendEntries, EStateM.run_bind, EStateM.run_get, if_neg (not_lt.mpr hnew),
      hget, ofExcept, EStateM.run_pure, if_pos htest]
  have hprev : w.HasPrev req := by
    rw [not_and_or, not_not] at htest
    refine htest.imp id fun hall => ?_
    rcases entry with _ | e
    · exact absurd rfl hall
    · exact ⟨e, hget, by simpa using hall⟩
  have hgrows := grows_handleEntries req.entries w.storage
  have heq := handleAppendEntries_of_hasPrev hnew hprev
  cases hrun : (handleEntries req.entries).run w.storage with
  | error p s =>
    rw [hrun] at heq
    exact .inl ⟨p, _, heq, ⟨hgrows.of_error hrun, rfl, rfl, rfl, rfl⟩, rfl⟩
  | ok _ s =>
    rw [hrun] at heq
    exact .inr (.inr ⟨_, heq, ⟨hgrows.of_ok hrun, rfl, rfl, rfl, rfl⟩, rfl, hnew, hprev, rfl⟩)

/-- What a request that went through has done. -/
theorem handleAppendEntries_eq_ok {w w' : RaftWorkerInner Cmd} {req : AppendEntriesRequest Cmd}
    {resp : AppendEntriesResponse} (h : (handleAppendEntries req).run w = .ok resp w') :
    w' = w ∨ w.Receives w' ∧ w'.commitIndex = followCommit w.commitIndex req ∧
      w.storage.currentTerm ≤ req.term ∧ w.HasPrev req ∧
      (handleEntries req.entries).run w.storage = .ok () w'.storage := by
  obtain ⟨p, v, hrun, -⟩ | hrun | ⟨v, hrun, hv⟩ := handleAppendEntries_run w req
  · rw [hrun] at h
    cases h
  · rw [hrun] at h
    cases h
    exact .inl rfl
  · rw [hrun] at h
    cases h
    exact .inr hv

/-- What a request that made the worker panic has done. -/
theorem handleAppendEntries_eq_error {w w' : RaftWorkerInner Cmd} {req : AppendEntriesRequest Cmd}
    {p : Panic} (h : (handleAppendEntries req).run w = .error p w') :
    w.Receives w' ∧ w'.commitIndex = w.commitIndex := by
  obtain ⟨q, v, hrun, hv⟩ | hrun | ⟨v, hrun, -⟩ := handleAppendEntries_run w req
  · rw [hrun] at h
    cases h
    exact hv
  · rw [hrun] at h
    cases h
  · rw [hrun] at h
    cases h

theorem receives_handleAppendEntries (w : RaftWorkerInner Cmd) (req : AppendEntriesRequest Cmd) :
    Follows Receives w (handleAppendEntries req) := by
  rintro _ rfl
  obtain ⟨p, w', hrun, hreceives, -⟩ | hrun | ⟨w', hrun, hreceives, -⟩ :=
    handleAppendEntries_run w req
  · rw [hrun]
    exact hreceives
  · rw [hrun]
    exact ⟨refl_of Storage.Grows _, rfl, rfl, rfl, rfl⟩
  · rw [hrun]
    exact hreceives

end RaftWorkerInner

namespace Leader

theorem sendClosed_sends : SendClosed (Sends : RaftWorker Leader Cmd → _) where
  peers h := ⟨refl_of RaftWorkerInner.Sends _, h⟩
  call _ _ _ _ := ⟨⟨_, rfl⟩, rfl⟩

/-- **The end of an `AppendEntries` call**: a leader that hears of a newer term steps down, and
any other makes calls at most. -/
theorem handleAppendEntriesResponse_cases (peer : NodeId) (first last : ℕ) (res : RpcResult)
    (w : RaftWorker Leader Cmd) :
    (∃ resp v, res = .ok (.appendEntries resp) ∧ w.inner.storage.currentTerm < resp.term ∧
      (handleAppendEntriesResponse peer first last res).run w = .ok .becomeFollower v ∧
      v.inner = (w.inner.updateTerm resp.term).2) ∨
    ((∀ resp, res = .ok (.appendEntries resp) → resp.term ≤ w.inner.storage.currentTerm) ∧
      ∃ v, Sends w v ∧
        ((handleAppendEntriesResponse peer first last res).run w = .ok .continue v ∨
          ∃ p, (handleAppendEntriesResponse peer first last res).run w = .error p v)) := by
  set u : RaftWorker Leader Cmd := { w with state := { w.state with
    inFlightPeers := w.state.inFlightPeers.erase peer } } with hu
  have hwu : Sends w u := ⟨refl_of RaftWorkerInner.Sends _, rfl⟩
  match res with
  | .error _ => exact .inr ⟨nofun, u, hwu, .inl rfl⟩
  | .ok (.requestVote _) => exact .inr ⟨nofun, u, hwu, .inr ⟨.responseKind, rfl⟩⟩
  | .ok (.forwardClientRequest _) => exact .inr ⟨nofun, u, hwu, .inr ⟨.responseKind, rfl⟩⟩
  | .ok (.appendEntries resp) =>
    -- the end of the flight is written first, whatever the term of the response
    have hrun : (handleAppendEntriesResponse peer first last (.ok (.appendEntries resp))).run w =
        ((do
          if ← withInner (modifyGet (·.updateTerm resp.term)) then return .becomeFollower
          else
            unless resp.term < (← get).inner.storage.currentTerm do
              moveIndices peer first last resp.success
            return .continue) : Rust (RaftWorker Leader Cmd) StateChange).run u := rfl
    rcases Nat.lt_or_ge w.inner.storage.currentTerm resp.term with hlt | hge
    · refine .inl ⟨resp, { u with inner := (u.inner.updateTerm resp.term).2 }, rfl, hlt, ?_, rfl⟩
      rw [hrun, EStateM.run_bind_of_ok (withInner_updateTerm u resp.term), decide_eq_true hlt]
      rfl
    · refine .inr ⟨fun resp' h => ?_, ?_⟩
      · obtain rfl : resp = resp' := by simpa using h
        exact hge
      have hupdate : (withInner (modifyGet (·.updateTerm resp.term)) :
          Rust (RaftWorker Leader Cmd) Bool).run u = .ok false u := by
        rw [withInner_updateTerm, decide_eq_false (Nat.not_lt.mpr hge),
          RaftWorkerInner.updateTerm_eq_of_le hge]
      rw [hrun, EStateM.run_bind_of_ok hupdate, if_neg Bool.false_ne_true,
        EStateM.run_bind_of_ok (EStateM.run_get _)]
      by_cases hold : resp.term < u.inner.storage.currentTerm
      · rw [if_pos hold]
        exact ⟨u, hwu, .inl rfl⟩
      · rw [if_neg hold]
        have hmove := sendClosed_sends.follows_moveIndices peer first last resp.success u
        cases hm : (moveIndices peer first last resp.success).run u with
        | ok a v =>
          rw [EStateM.run_bind_of_ok hm]
          exact ⟨v, trans_of Sends hwu (hmove.of_ok hm), .inl rfl⟩
        | error p v =>
          rw [EStateM.run_bind_of_error hm]
          exact ⟨v, trans_of Sends hwu (hmove.of_error hm), .inr ⟨p, rfl⟩⟩

/-- However far `advance_commit_index` gets, it moves the commit index along the log. -/
theorem advanceFrom_run (k : ℕ) (w : RaftWorker Leader Cmd) :
    ∃ c, w.inner.commitIndex ≤ c ∧ c ≤ w.inner.commitIndex + k ∧
      ((advanceFrom (List.range' (w.inner.commitIndex + 1) k)).run w = .ok () (committed w c) ∨
        ∃ p, (advanceFrom (List.range' (w.inner.commitIndex + 1) k)).run w =
          .error p (committed w c)) := by
  induction k generalizing w with
  | zero => exact ⟨w.inner.commitIndex, le_rfl, le_rfl, .inl rfl⟩
  | succ k ih =>
    rw [List.range'_succ, advanceFrom, EStateM.run_bind_of_ok (EStateM.run_get _)]
    by_cases hagree : w.state.agree (w.inner.commitIndex + 1) < w.inner.quorum - 1
    · rw [if_pos hagree]
      exact ⟨w.inner.commitIndex, le_rfl, by omega, .inl rfl⟩
    rw [if_neg hagree]
    rcases w.inner.storage.getLog (w.inner.commitIndex + 1) with p | _ | entry
    · exact ⟨w.inner.commitIndex, le_rfl, by omega, .inr ⟨p, rfl⟩⟩
    · exact ⟨w.inner.commitIndex, le_rfl, by omega, .inr ⟨.commitEntry, rfl⟩⟩
    by_cases hterm : entry.term = w.inner.storage.currentTerm
    · -- the loop goes on behind the entry that it has committed
      obtain ⟨c, hle, hle', hrun⟩ := ih (committed w (w.inner.commitIndex + 1))
      simp only [committed] at hle hle'
      refine ⟨c, by omega, by omega, ?_⟩
      simp only [ofExcept, pure_bind, hterm, ne_eq, not_true_eq_false, if_false]
      exact hrun
    · refine ⟨w.inner.commitIndex, le_rfl, by omega, .inl ?_⟩
      simp only [ofExcept, pure_bind, ne_eq, hterm, not_false_eq_true, if_true]
      rfl

/-- The leader has moved its commit index to `c` and told the clients that waited for it. -/
def advanced (w : RaftWorker Leader Cmd) (c : ℕ) : RaftWorker Leader Cmd :=
  acknowledge (List.range' (w.inner.commitIndex + 1) (c - w.inner.commitIndex)) (committed w c)

/-- **`advance_commit_index`** moves the commit index to some place in the log, and tells the
clients that wait for the indices passed; or it panics on its way. -/
theorem advanceCommitIndex_run (w : RaftWorker Leader Cmd) :
    ∃ c, w.inner.commitIndex ≤ c ∧ c ≤ max w.inner.commitIndex w.inner.storage.lastLogIndex ∧
      (advanceCommitIndex.run w = .ok () (advanced w c) ∨
        ∃ p, advanceCommitIndex.run w = .error p (committed w c)) := by
  obtain ⟨c, hle, hle', hrun⟩ := advanceFrom_run
    (w.inner.storage.lastLogIndex + 1 - (w.inner.commitIndex + 1)) w
  refine ⟨c, hle, by omega, ?_⟩
  rw [advanceCommitIndex, EStateM.run_bind_of_ok (EStateM.run_get _)]
  rcases hrun with hrun | ⟨p, hrun⟩
  · refine .inl ?_
    rw [EStateM.run_bind_of_ok hrun, advanced, ← Nat.add_sub_add_right c 1]
    rfl
  · exact .inr ⟨p, EStateM.run_bind_of_error hrun⟩

/-- The leader has appended a client's command, and the client waits for it. -/
def taken (w : RaftWorker Leader Cmd) (cmd : Cmd) (tx : ClientSender) : RaftWorker Leader Cmd where
  inner := { w.inner with storage := w.inner.storage.appended (newEntry w.inner cmd) }
  state := { w.state with
    inFlightClientRequests :=
      w.state.inFlightClientRequests.insert (w.inner.storage.lastLogIndex + 1) tx }

/-- **`handle_client_request`** takes the request, and then makes calls. -/
theorem handleClientRequest_run (cmd : Cmd) (tx : ClientSender) (w : RaftWorker Leader Cmd) :
    (handleClientRequest (.apply cmd) tx).run w =
      (appendEntriesToAll w.inner.peers).run (taken w cmd tx) := by
  have happend : (withInner (RaftWorkerInner.withStorage (Storage.appendLog
      { cmd, idx := w.inner.storage.lastLogIndex + 1, term := w.inner.storage.currentTerm })) :
      Rust (RaftWorker Leader Cmd) Unit).run w = .ok () { w with inner := { w.inner with
        storage := w.inner.storage.appended (newEntry w.inner cmd) } } :=
    withInner_run_of_ok (RaftWorkerInner.withStorage_run_of_ok
      ((Storage.appendLog_run _ _).trans (if_pos rfl)))
  rw [handleClientRequest, handleLogUpdate, EStateM.run_bind_of_ok (EStateM.run_get _),
    EStateM.run_bind_of_ok happend]
  rfl

end Leader

/-! ### Roles -/

omit [Bincode (LogEntry Cmd)]

namespace RaftWorkerState

/-- The clients that wait at a leader, by the index of their entry. -/
def waiting : RaftWorkerState Cmd → AList fun _ : ℕ => ClientSender
  | .leader w => w.state.inFlightClientRequests
  | _ => ∅

/-- A worker that goes on as a leader keeps its term and its clients, one that becomes a leader
starts without clients, and one that steps down has heard of a newer term. -/
structure Succeeds (w w' : RaftWorkerState Cmd) : Prop where
  stays : w.role = .leader → w'.role = .leader → w'.waiting = w.waiting ∧
    w'.inner.storage.currentTerm = w.inner.storage.currentTerm
  begins : w.role ≠ .leader → w'.waiting = ∅
  ends : w.role = .leader → w'.role ≠ .leader →
    w.inner.storage.currentTerm < w'.inner.storage.currentTerm

theorem waiting_of_role {w : RaftWorkerState Cmd} (h : w.role ≠ .leader) : w.waiting = ∅ := by
  cases w with
  | leader w => exact absurd rfl h
  | follower w => rfl
  | candidate w => rfl

theorem waiting_withInner (w : RaftWorkerState Cmd) (inner : RaftWorkerInner Cmd) :
    (w.withInner inner).waiting = w.waiting := by
  cases w <;> rfl

/-- The role is not touched. -/
theorem succeeds_withInner {w : RaftWorkerState Cmd} {inner : RaftWorkerInner Cmd}
    (h : inner.storage.currentTerm = w.inner.storage.currentTerm) :
    w.Succeeds (w.withInner inner) where
  stays _ _ := by
    rw [waiting_withInner, inner_withInner]
    exact ⟨rfl, h⟩
  begins hw := by rw [waiting_withInner, waiting_of_role hw]
  ends hw hw' := absurd ((role_withInner w inner).trans hw) hw'

theorem succeeds_of_role {w w' : RaftWorkerState Cmd} (hw : w.role ≠ .leader)
    (hw' : w'.waiting = ∅) : w.Succeeds w' :=
  ⟨fun h => absurd h hw, fun _ => hw', fun h => absurd h hw⟩

/-- A worker that heard of a newer term. -/
theorem succeeds_of_lt {w w' : RaftWorkerState Cmd} (hw' : w'.role ≠ .leader)
    (h : w.inner.storage.currentTerm < w'.inner.storage.currentTerm) : w.Succeeds w' :=
  ⟨fun _ h' => absurd h' hw', fun _ => waiting_of_role hw', fun _ _ => h⟩

theorem succeeds_sends {w w' : RaftWorker Leader Cmd} (h : Leader.Sends w w') :
    (RaftWorkerState.leader w).Succeeds (.leader w') where
  stays _ _ := by
    obtain ⟨calls, hcalls⟩ := h.inner
    exact ⟨h.waiting, congrArg (·.storage.currentTerm) hcalls⟩
  begins hw := absurd rfl hw
  ends _ hw' := absurd rfl hw'

end RaftWorkerState

end

/-! ### Reactions -/

/-- Who asks for what in an event that may make a leader append a command. -/
def Event.asks : Event Cmd → Option (ClientSender × Cmd)
  | .client token (.apply cmd) => some (.client token, cmd)
  | .rpc caller k (.forwardClientRequest (.apply cmd)) => some (.rpc caller k, cmd)
  | _ => none

variable [Bincode (LogEntry Cmd)]

namespace RaftWorkerState

/-- What a reaction to an event does. -/
inductive Effect (w : RaftWorkerState Cmd) : Event Cmd → Node Cmd → Prop
  /-- Nothing that concerns the log or the clients. -/
  | aside {e : Event Cmd} {n : Node Cmd} (hframe : w.inner.Frame n.worker.inner)
      (hrole : w.Succeeds n.worker) : Effect w e n
  /-- A client of the node is answered: one whose request was forwarded, or one that asks a node
  that does not lead, and that is turned away. -/
  | answers {e : Event Cmd} {n : Node Cmd} {token : ℕ} {res : ClientResult}
      {forwarded : List (ℕ × ℕ)} (hsub : forwarded ⊆ w.inner.forwarded)
      (hclient : (∃ k, (k, token) ∈ w.inner.forwarded) ∨
        w.role ≠ .leader ∧ res ≠ .ok .ack ∧ ∃ cmd, e.asks = some (.client token, cmd))
      (hn : n.worker = w.withInner ({ w.inner with forwarded }.answer (.client token) res)) :
      Effect w e n
  /-- The command of a client is forwarded. -/
  | forwards {token : ℕ} {cmd : Cmd} {n : Node Cmd} {peer : NodeId} (hw : w.role ≠ .leader)
      (hn : n.worker = w.withInner (Follower.forwarding w.inner token cmd peer)) :
      Effect w (.client token (.apply cmd)) n
  /-- `handle_append_entries` returns, and the node is a follower. -/
  | receives {caller : NodeId} {k : ℕ} {req : AppendEntriesRequest Cmd} {n : Node Cmd}
      {resp : AppendEntriesResponse} {inner : RaftWorkerInner Cmd}
      (hlead : w.role = .leader → w.inner.storage.currentTerm < req.term)
      (hrun : (RaftWorkerInner.handleAppendEntries req).run (w.heard req) = .ok resp inner)
      (hn : n = ⟨.follower { inner, state := {} }, none⟩) :
      Effect w (.rpc caller k (.appendEntries req)) n
  /-- `handle_append_entries` panics. -/
  | breaks {caller : NodeId} {k : ℕ} {req : AppendEntriesRequest Cmd} {n : Node Cmd} {p : Panic}
      {inner : RaftWorkerInner Cmd}
      (hlead : w.role = .leader → w.inner.storage.currentTerm < req.term)
      (hrun : (RaftWorkerInner.handleAppendEntries req).run (w.heard req) = .error p inner)
      (hn : n = ⟨w.withInner inner, some p⟩) : Effect w (.rpc caller k (.appendEntries req)) n
  /-- A leader takes the command of a client. -/
  | takes {e : Event Cmd} {n : Node Cmd} {tx : ClientSender} {cmd : Cmd}
      {l v : RaftWorker Leader Cmd} (hw : w = .leader l) (he : e.asks = some (tx, cmd))
      (hsends : Leader.Sends (Leader.taken l cmd tx) v) (hn : n.worker = .leader v) : Effect w e n
  /-- A leader advances its commit index to `c`. -/
  | advances {n : Node Cmd} {l : RaftWorker Leader Cmd} {c : ℕ} (hw : w = .leader l)
      (hle : l.inner.commitIndex ≤ c)
      (hlast : c ≤ max l.inner.commitIndex l.inner.storage.lastLogIndex)
      (hn : n = ⟨.leader (Leader.advanced l c), none⟩ ∨
        ∃ p, n = ⟨.leader (Leader.committed l c), some p⟩) :
      Effect w .advanceCommitIndex n
  /-- Entries are applied. -/
  | applies {n : Node Cmd} (hn : n = innerStep RaftWorkerInner.applyLog w) : Effect w .applyLog n

variable {w : RaftWorkerState Cmd} {e : Event Cmd} {n : Node Cmd}

theorem effect_answerForwarded {k : ℕ} {res : RpcResult}
    (h : w.answerForwarded k res = some n) : w.Effect e n := by
  obtain ⟨token, hk, rfl⟩ := Option.map_eq_some_iff.mp h
  have hmem : ∃ k, (k, token) ∈ w.inner.forwarded := by
    obtain ⟨l, l', hl, -⟩ := List.lookup_eq_some_iff.mp hk
    exact ⟨k, hl ▸ by simp⟩
  have hsub : w.inner.forwarded.filter (·.1 ≠ k) ⊆ w.inner.forwarded :=
    fun _ => List.mem_of_mem_filter
  dsimp only
  split
  · exact .answers hsub (.inl hmem) rfl
  · exact .answers hsub (.inl hmem) rfl
  · refine .aside ?_ (succeeds_withInner rfl)
    rw [inner_withInner]
    exact ⟨rfl, fun _ => rfl, le_rfl, rfl, rfl, rfl, hsub, rfl⟩

theorem effect_onElectionTimeout (h : w.onElectionTimeout = some n) : w.Effect e n := by
  have hrole : ∀ inner : RaftWorkerInner Cmd,
      (onElectionTimeout.elect inner).worker.waiting = ∅ := by
    intro inner
    rw [onElectionTimeout.elect]
    split <;> rfl
  have hframe : ∀ inner : RaftWorkerInner Cmd,
      inner.Frame (onElectionTimeout.elect inner).worker.inner :=
    fun inner => moves_elect (RaftWorkerInner.follows_startElection_frame inner)
  cases w with
  | follower w =>
    obtain rfl := Option.some.inj h
    exact .aside (trans_of RaftWorkerInner.Frame (RaftWorkerInner.frame_leaderId w.inner none)
      (hframe _)) (succeeds_of_role nofun (hrole _))
  | candidate w =>
    obtain rfl := Option.some.inj h
    exact .aside (hframe w.inner) (succeeds_of_role nofun (hrole _))
  | leader w => cases h

theorem effect_onVote (w : RaftWorker Candidate Cmd) (k : ℕ) (res : RpcResult) :
    (RaftWorkerState.candidate w).Effect e (onVote w k res) := by
  have hcandidate : ∀ {state : Candidate} {p : Option Panic},
      (RaftWorkerState.candidate w).Effect e ⟨.candidate { w with state }, p⟩ :=
    .aside (refl_of RaftWorkerInner.Frame w.inner) (succeeds_of_role nofun rfl)
  rw [onVote.eq_def]
  dsimp only
  split
  · split_ifs
    · exact .aside (RaftWorkerInner.frame_leaderId w.inner _) (succeeds_of_role nofun rfl)
    · exact hcandidate
    · exact hcandidate
  · exact hcandidate
  · exact hcandidate

theorem effect_sends {l v : RaftWorker Leader Cmd} (h : Leader.Sends l v) {p : Option Panic} :
    (RaftWorkerState.leader l).Effect e ⟨.leader v, p⟩ :=
  .aside h.inner.frame (succeeds_sends h)

theorem effect_onAppend (w : RaftWorker Leader Cmd) (task : InFlightAppend) (res : RpcResult) :
    (RaftWorkerState.leader w).Effect e (onAppend w task res) := by
  set u : RaftWorker Leader Cmd := { w with state := { w.state with
    responsesRx := w.state.responsesRx.filter (·.call ≠ task.call) } } with hu
  have hwu : Leader.Sends w u := ⟨refl_of RaftWorkerInner.Sends _, rfl⟩
  rw [onAppend, ← hu]
  obtain ⟨resp, v, -, hlt, hrun, hinner⟩ | ⟨-, v, hv, hrun | ⟨p, hrun⟩⟩ :=
    Leader.handleAppendEntriesResponse_cases task.peerId task.firstEntry task.lastEntry res u
  · rw [hrun]
    refine .aside ?_ (succeeds_of_lt nofun ?_)
    · show u.inner.Frame v.inner
      rw [hinner]
      exact RaftWorkerInner.frame_updateTerm _ _
    · show u.inner.storage.currentTerm < v.inner.storage.currentTerm
      rw [hinner, RaftWorkerInner.currentTerm_updateTerm]
      exact lt_max_of_lt_right hlt
  · rw [hrun]
    exact effect_sends (trans_of Leader.Sends hwu hv)
  · rw [hrun]
    exact effect_sends (trans_of Leader.Sends hwu hv)

theorem effect_onResponse {k : ℕ} {res : RpcResult} (h : w.onResponse k res = some n) :
    w.Effect e n := by
  cases w with
  | follower w => exact effect_answerForwarded h
  | candidate w =>
    rw [onResponse] at h
    split_ifs at h
    · obtain rfl := Option.some.inj h
      exact effect_onVote w k res
    · exact effect_answerForwarded h
  | leader w =>
    rw [onResponse] at h
    split at h
    · obtain rfl := Option.some.inj h
      exact effect_onAppend w _ res
    · exact effect_answerForwarded h

theorem effect_leaderStep {x : Rust (RaftWorker Leader Cmd) Unit}
    (hok : ∀ l v, w = .leader l → x.run l = .ok () v → w.Effect e ⟨.leader v, none⟩)
    (herror : ∀ l v p, w = .leader l → x.run l = .error p v → w.Effect e ⟨.leader v, some p⟩)
    (h : leaderStep x w = some n) : w.Effect e n := by
  cases w with
  | follower w => cases h
  | candidate w => cases h
  | leader l =>
    rw [leaderStep] at h
    split at h
    · obtain rfl := Option.some.inj h
      exact hok l _ rfl ‹_›
    · obtain rfl := Option.some.inj h
      exact herror l _ _ rfl ‹_›

theorem effect_requestVote (w : RaftWorkerState Cmd) (caller : NodeId) (k : ℕ)
    (req : RequestVoteRequest) : w.Effect e (w.onRpc caller k (.requestVote req)).1 := by
  have hframe := RaftWorkerInner.frame_vote w.inner req
  obtain ⟨-, -, hrpc⟩ | ⟨-, w', hrpc, hinner, ⟨hlt, hrole⟩ | ⟨hge, rfl⟩⟩ :=
    w.onRpc_requestVote_cases caller k req
  · rw [hrpc]
    exact .aside (refl_of RaftWorkerInner.Frame _)
      ⟨fun _ _ => ⟨rfl, rfl⟩, waiting_of_role, fun h h' => absurd h h'⟩
  · rw [hrpc]
    refine .aside (hinner ▸ hframe) (succeeds_of_lt (by simp [hrole]) ?_)
    rw [hinner, RaftWorkerInner.currentTerm_vote]
    exact lt_max_of_lt_right hlt
  · rw [hrpc]
    refine .aside (hinner.symm ▸ hframe) (succeeds_withInner ?_)
    rw [RaftWorkerInner.currentTerm_vote, max_eq_left hge]

theorem effect_appendEntries (w : RaftWorkerState Cmd) (caller : NodeId) (k : ℕ)
    (req : AppendEntriesRequest Cmd) : w.Effect (.rpc caller k (.appendEntries req))
      (w.onRpc caller k (.appendEntries req)).1 := by
  by_cases hrefuse : w.role = .leader ∧ req.term ≤ w.inner.storage.currentTerm
  · rw [onRpc_appendEntries_of_le hrefuse.1 caller k hrefuse.2]
    exact .aside (refl_of RaftWorkerInner.Frame _)
      ⟨fun _ _ => ⟨rfl, rfl⟩, waiting_of_role, fun h h' => absurd h h'⟩
  · have hlead : w.role = .leader → w.inner.storage.currentTerm < req.term :=
      fun h => Nat.not_le.mp fun hle => hrefuse ⟨h, hle⟩
    rw [onRpc_appendEntries caller k hlead]
    cases hrun : (RaftWorkerInner.handleAppendEntries req).run (w.heard req) with
    | ok resp inner => exact .receives hlead hrun rfl
    | error p inner => exact .breaks hlead hrun rfl

/-- A leader takes the command of a client, its own or another node's. -/
theorem effect_takes {l : RaftWorker Leader Cmd} {tx : ClientSender} {cmd : Cmd}
    (he : e.asks = some (tx, cmd)) {v : RaftWorker Leader Cmd} {p : Option Panic}
    (hrun : (Leader.handleClientRequest (.apply cmd) tx).run l = .ok () v ∨
      ∃ q, (Leader.handleClientRequest (.apply cmd) tx).run l = .error q v) :
    (RaftWorkerState.leader l).Effect e ⟨.leader v, p⟩ := by
  rw [Leader.handleClientRequest_run] at hrun
  have hsends := Leader.sendClosed_sends.follows_appendEntriesToAll l.inner.peers
    (Leader.taken l cmd tx)
  obtain hrun | ⟨q, hrun⟩ := hrun
  · exact .takes rfl he (hsends.of_ok hrun) rfl
  · exact .takes rfl he (hsends.of_error hrun) rfl

theorem effect_forwardClientRequest (w : RaftWorkerState Cmd) (caller : NodeId) (k : ℕ)
    (req : ClientRequest Cmd) : w.Effect (.rpc caller k (.forwardClientRequest req))
      (w.onRpc caller k (.forwardClientRequest req)).1 := by
  cases w with
  | follower w => exact .aside (refl_of RaftWorkerInner.Frame w.inner) (succeeds_of_role nofun rfl)
  | candidate w => exact .aside (refl_of RaftWorkerInner.Frame w.inner) (succeeds_of_role nofun rfl)
  | leader l =>
    match req with
    | .apply cmd =>
      have he : (Event.rpc caller k (.forwardClientRequest (.apply cmd))).asks =
        some (.rpc caller k, cmd) := rfl
      have hrpc : (Leader.handleRpc caller k (.forwardClientRequest (.apply cmd))).run l =
          ((do
            Leader.handleClientRequest (.apply cmd) (.rpc caller k)
            return (none, .continue)) :
            Rust (RaftWorker Leader Cmd) (Option RpcResponse × StateChange)).run l := rfl
      simp only [onRpc, hrpc, EStateM.run_bind]
      cases hrun : (Leader.handleClientRequest (.apply cmd) (.rpc caller k)).run l with
      | ok u v => exact effect_takes he (.inl hrun)
      | error p v => exact effect_takes he (.inr ⟨p, hrun⟩)

omit [Bincode (LogEntry Cmd)] in
theorem worker_innerStep (x : Rust (RaftWorkerInner Cmd) Unit) (w : RaftWorkerState Cmd) :
    (innerStep x w).worker = w.withInner (innerStep x w).worker.inner := by
  rw [innerStep]
  split <;> rw [inner_withInner]

theorem effect_onClient {token : ℕ} {cmd : Cmd} (h : w.onClient token (.apply cmd) = some n) :
    w.Effect (.client token (.apply cmd)) n := by
  have hres : (Except.error .unavailable : ClientResult) ≠ .ok .ack := nofun
  cases w with
  | follower w =>
    obtain rfl := Option.some.inj h
    have hinner := moves_innerStep (w := .follower w) (R := fun w w' =>
      w' = w.answer (.client token) (.error .unavailable) ∨
        ∃ peer, w' = Follower.forwarding w token cmd peer)
      (x := Follower.forwardClientRequest (.apply cmd) token) (by
        refine .get_bind ?_
        split
        · split_ifs
          · rintro _ rfl
            exact .inr ⟨_, rfl⟩
          · exact .modify (.inl rfl)
        · exact .modify (.inl rfl))
    have hworker := worker_innerStep (Follower.forwardClientRequest (.apply cmd) token)
      (.follower w)
    obtain hinner | ⟨peer, hinner⟩ := hinner
    · rw [hinner] at hworker
      exact .answers (List.Subset.refl _) (.inr ⟨nofun, hres, cmd, rfl⟩) hworker
    · rw [hinner] at hworker
      exact .forwards nofun hworker
  | candidate w =>
    obtain rfl := Option.some.inj h
    exact .answers (List.Subset.refl _) (.inr ⟨nofun, hres, cmd, rfl⟩) rfl
  | leader l =>
    refine effect_leaderStep ?_ ?_ h
    · intro l v hl hrun
      exact hl ▸ effect_takes rfl (.inl hrun)
    · intro l v p hl hrun
      exact hl ▸ effect_takes rfl (.inr ⟨p, hrun⟩)

theorem effect_advanceCommitIndex (h : leaderStep Leader.advanceCommitIndex w = some n) :
    w.Effect .advanceCommitIndex n := by
  refine effect_leaderStep ?_ ?_ h
  · intro l v hl hrun
    obtain ⟨c, hle, hlast, hrun' | ⟨p, hrun'⟩⟩ := Leader.advanceCommitIndex_run l
    · rw [hrun'] at hrun
      cases hrun
      exact .advances hl hle hlast (.inl rfl)
    · rw [hrun'] at hrun
      cases hrun
  · intro l v p hl hrun
    obtain ⟨c, hle, hlast, hrun' | ⟨q, hrun'⟩⟩ := Leader.advanceCommitIndex_run l
    · rw [hrun'] at hrun
      cases hrun
    · rw [hrun'] at hrun
      cases hrun
      exact .advances hl hle hlast (.inr ⟨p, rfl⟩)

theorem effect_modify {f : RaftWorkerInner Cmd → RaftWorkerInner Cmd}
    (hf : ∃ peerClients, f w.inner = { w.inner with peerClients }) :
    w.Effect e (innerStep (modify f) w) := by
  obtain ⟨peerClients, hf⟩ := hf
  refine .aside ?_ (succeeds_withInner (congrArg (·.storage.currentTerm) hf))
  show w.inner.Frame (w.withInner (f w.inner)).inner
  rw [inner_withInner, hf]
  exact ⟨rfl, fun _ => rfl, le_rfl, rfl, rfl, rfl, List.Subset.refl _, rfl⟩

/-- **Every reaction of a worker has one of the effects.** -/
theorem effect_on {resp : Option RpcResponse} (h : w.on e = some (n, resp)) : w.Effect e n := by
  cases e with
  | electionTimeout =>
    obtain ⟨n, hn, ⟨rfl, rfl⟩⟩ := Option.map_eq_some_iff.mp h
    exact effect_onElectionTimeout hn
  | rpc caller k req =>
    obtain rfl := (Prod.mk.inj (Option.some.inj h)).1
    cases req with
    | requestVote req => exact effect_requestVote w caller k req
    | appendEntries req => exact effect_appendEntries w caller k req
    | forwardClientRequest req => exact effect_forwardClientRequest w caller k req
  | response k res =>
    obtain ⟨n, hn, ⟨rfl, rfl⟩⟩ := Option.map_eq_some_iff.mp h
    exact effect_onResponse hn
  | heartbeat =>
    obtain ⟨n, hn, ⟨rfl, rfl⟩⟩ := Option.map_eq_some_iff.mp h
    refine effect_leaderStep (fun l v hl hrun => ?_) (fun l v p hl hrun => ?_) hn
    · exact hl ▸ effect_sends ((Leader.sendClosed_sends.follows_heartbeat l).of_ok hrun)
    · exact hl ▸ effect_sends ((Leader.sendClosed_sends.follows_heartbeat l).of_error hrun)
  | client token req =>
    obtain ⟨n, hn, ⟨rfl, rfl⟩⟩ := Option.map_eq_some_iff.mp h
    match req with
    | .apply cmd => exact effect_onClient hn
  | advanceCommitIndex =>
    obtain ⟨n, hn, ⟨rfl, rfl⟩⟩ := Option.map_eq_some_iff.mp h
    exact effect_advanceCommitIndex hn
  | applyLog =>
    obtain rfl := (Prod.mk.inj (Option.some.inj h)).1
    exact .applies rfl
  | connect peer =>
    obtain rfl := (Prod.mk.inj (Option.some.inj h)).1
    exact effect_modify ⟨_, rfl⟩
  | disconnect peer =>
    obtain rfl := (Prod.mk.inj (Option.some.inj h)).1
    refine effect_modify ?_
    split
    · exact ⟨_, rfl⟩
    · exact ⟨_, rfl⟩

/-! ### Answers -/

/-- Nobody is answered when a request for a vote arrives. -/
theorem answers_onRpc_requestVote (w : RaftWorkerState Cmd) (caller : NodeId) (k : ℕ)
    (req : RequestVoteRequest) :
    (w.onRpc caller k (.requestVote req)).1.worker.inner.transport.answers =
      w.inner.transport.answers := by
  obtain ⟨-, -, hrpc⟩ | ⟨-, w', hrpc, hinner, -⟩ := w.onRpc_requestVote_cases caller k req
  · rw [hrpc]
  · rw [hrpc, hinner]
    exact (RaftWorkerInner.frame_vote w.inner req).answers

/-- Nobody is answered when entries arrive. -/
theorem answers_onRpc_appendEntries (w : RaftWorkerState Cmd) (caller : NodeId) (k : ℕ)
    (req : AppendEntriesRequest Cmd) :
    (w.onRpc caller k (.appendEntries req)).1.worker.inner.transport.answers =
      w.inner.transport.answers := by
  by_cases hrefuse : w.role = .leader ∧ req.term ≤ w.inner.storage.currentTerm
  · rw [onRpc_appendEntries_of_le hrefuse.1 caller k hrefuse.2]
  · rw [onRpc_appendEntries caller k fun hrole =>
      Nat.not_le.mp fun hle => hrefuse ⟨hrole, hle⟩]
    have hreceives := RaftWorkerInner.receives_handleAppendEntries (w.heard req) req
    have hheard := (RaftWorkerInner.frame_heard w req).answers
    split
    · exact (hreceives.of_ok ‹_›).answers.trans hheard
    · rw [inner_withInner]
      exact (hreceives.of_error ‹_›).answers.trans hheard

end RaftWorkerState

end Wraft
