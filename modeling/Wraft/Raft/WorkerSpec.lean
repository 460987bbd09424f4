import Wraft.Raft.StorageSpec
import Wraft.Raft.Worker

/-!
# What the functions of a worker do

One lemma for each function of `raft/worker.rs` that has a loop or branches, on a worker whose
storage is well formed. The main ones:

* `handleAppendEntries_cases` — a request with a slice of a leader's log is refused as old,
  refused for its previous entry, stopped by the assertion of `overwrite_log` with nothing
  changed, or adopted;
* `appendEntries_cases` — a leader sends nothing, panics with nothing changed, or sends a slice
  of its log and notes its range;
* `advanceCommitIndex_eq` — the commit index moves over entries of the current term that a
  quorum has;
* `applyLog_eq` — what is applied is the next part of the log.
-/

namespace Wraft

open Consensus (lastTerm Adopts)

variable {Cmd : Type}

theorem u64Sub_run_of_le {σ : Type} {a b : ℕ} (h : b ≤ a) (s : σ) :
    (u64Sub a b).run s = .ok (a - b) s := by
  rw [u64Sub, if_pos h, EStateM.run_pure]

theorem u64Sub_run_of_lt {σ : Type} {a b : ℕ} (h : a < b) (s : σ) :
    (u64Sub a b).run s = .error .subOverflow s := by
  rw [u64Sub, if_neg (Nat.not_le.mpr h), EStateM.run_throw_any]

/-! ### Requests with a slice of a log -/

/-- The request's entries are a slice of `L`, behind the previous entry that it names. -/
def AppendEntriesRequest.SliceOf (req : AppendEntriesRequest Cmd) (L : List (LogEntry Cmd)) :
    Prop :=
  ∃ pre, pre.length = req.prevLogIndex ∧ pre ++ req.entries <+: L ∧
    (req.prevLogIndex ≠ 0 → req.prevLogTerm = lastTerm LogEntry.term pre)

theorem AppendEntriesRequest.SliceOf.mono {req : AppendEntriesRequest Cmd}
    {L L' : List (LogEntry Cmd)} (h : req.SliceOf L) (hL : L <+: L') : req.SliceOf L' :=
  let ⟨pre, h1, h2, h3⟩ := h
  ⟨pre, h1, h2.trans hL, h3⟩

/-- Every entry carries its own index, counted from `1`. -/
def Indexed (l : List (LogEntry Cmd)) : Prop := ∀ i e, l[i]? = some e → e.idx = i + 1

theorem Indexed.of_prefix {l l' : List (LogEntry Cmd)} (h : Indexed l) (hp : l' <+: l) :
    Indexed l' := by
  intro i e he
  obtain ⟨s, rfl⟩ := hp
  exact h i e (by rw [List.getElem?_append_left (List.getElem?_eq_some_iff.mp he).1, he])

theorem Indexed.append {l es : List (LogEntry Cmd)} (h : Indexed l)
    (hes : ∀ j e, es[j]? = some e → e.idx = l.length + j + 1) : Indexed (l ++ es) := by
  intro i e he
  rcases Nat.lt_or_ge i l.length with hlt | hge
  · rw [List.getElem?_append_left hlt] at he
    exact h i e he
  · rw [List.getElem?_append_right hge] at he
    rw [hes _ e he]
    omega

theorem Indexed.getElem?_append_right {pre es : List (LogEntry Cmd)} (h : Indexed (pre ++ es))
    {j : ℕ} {e : LogEntry Cmd} (he : es[j]? = some e) : e.idx = pre.length + j + 1 := by
  refine h (pre.length + j) e ?_
  rw [List.getElem?_append_right (by omega)]
  simpa using he

/-- The last entry of the second part of an indexed list sits at the list's length. -/
theorem Indexed.getLast?_append {pre es : List (LogEntry Cmd)} (h : Indexed (pre ++ es)) (d : ℕ) :
    es.getLast?.elim d (·.idx) = if es = [] then d else pre.length + es.length := by
  split_ifs with hes
  · rw [hes]
    rfl
  · have hpos : 0 < es.length := List.length_pos_of_ne_nil hes
    have hlast := List.getLast?_eq_getElem? (l := es)
    rw [List.getLast?_eq_some_getLast hes] at hlast ⊢
    have := h.getElem?_append_right hlast.symm
    simp only [Option.elim_some]
    omega

/-- The first entry of the second part of an indexed list comes right behind the first part. -/
theorem Indexed.head?_append {pre es : List (LogEntry Cmd)} (h : Indexed (pre ++ es)) (d : ℕ) :
    es.head?.elim d (·.idx) = if es = [] then d else pre.length + 1 := by
  cases es with
  | nil => rfl
  | cons e es => simpa using h.getElem?_append_right (j := 0) (e := e) rfl

/-- Two lists with an entry of the same term at the same place agree up to it. -/
def Matches (l L : List (LogEntry Cmd)) : Prop :=
  ∀ i e f, l[i]? = some e → L[i]? = some f → e.term = f.term → l.take (i + 1) = L.take (i + 1)

theorem lastTerm_eq_of_getElem? {pre : List (LogEntry Cmd)} {e : LogEntry Cmd}
    (h : pre[pre.length - 1]? = some e) : lastTerm LogEntry.term pre = e.term := by
  rw [← List.getLast?_eq_getElem?] at h
  exact Consensus.lastTerm_eq_of_getLast? h

namespace RaftWorkerInner

theorem withStorage_run_of_ok {α : Type} {x : Rust (Storage Cmd) α} {w : RaftWorkerInner Cmd}
    {a : α} {s : Storage Cmd} (h : x.run w.storage = .ok a s) :
    (withStorage x).run w = .ok a { w with storage := s } := by
  simp only [EStateM.run, withStorage] at h ⊢
  rw [h]

theorem withStorage_run_of_error {α : Type} {x : Rust (Storage Cmd) α} {w : RaftWorkerInner Cmd}
    {p : Panic} {s : Storage Cmd} (h : x.run w.storage = .error p s) :
    (withStorage x).run w = .error p { w with storage := s } := by
  simp only [EStateM.run, withStorage] at h ⊢
  rw [h]

variable [Bincode (LogEntry Cmd)]

/-- Behind the last entry, entries with the right indices are all appended. -/
theorem handleEntries_append {s : Storage Cmd} (h : s.Wf) {es : List (LogEntry Cmd)}
    (hidx : Indexed (s.log ++ es)) :
    ∃ s', (handleEntries es).run s = .ok () s' ∧ s'.Wf ∧ s.SameVote s' ∧ s'.log = s.log ++ es := by
  induction es generalizing s with
  | nil => exact ⟨s, rfl, h, Storage.SameVote.refl s, (List.append_nil _).symm⟩
  | cons e es ih =>
    have he : e.idx = s.lastLogIndex + 1 := by
      simpa [h.length_log] using hidx.getElem?_append_right (j := 0) (e := e) rfl
    have hget : s.getLog e.idx = .ok none := by
      rw [h.getLog_eq, if_neg (by omega), List.getElem?_eq_none (by rw [h.length_log]; omega)]
    obtain ⟨s₁, hrun₁, hwf₁, hsame₁, hlog₁⟩ := Storage.appendLog_eq h he
    obtain ⟨s', hrun, hwf, hsame, hlog⟩ := ih hwf₁ (by rwa [hlog₁, List.append_assoc])
    refine ⟨s', ?_, hwf, hsame₁.trans hsame, by rw [hlog, hlog₁, List.append_assoc]; rfl⟩
    simp [handleEntries, hget, ofExcept, hrun₁, hrun]

/-- The loop of `handle_append_entries` over a slice of a leader's log adopts the slice, or the
assertion of `overwrite_log` stops it before anything is written. -/
theorem handleEntries_cases {s : Storage Cmd} (h : s.Wf) {L pre es : List (LogEntry Cmd)}
    (hL : pre ++ es <+: L) (hidx : Indexed L) (hmatch : Matches s.log L) (hpre : pre <+: s.log) :
    (∃ s', (handleEntries es).run s = .ok () s' ∧ s'.Wf ∧ s.SameVote s' ∧
      Adopts (pre ++ es) s.log s'.log) ∨
    (handleEntries es).run s = .error .overwriteOrder s := by
  induction es generalizing pre with
  | nil =>
    rw [List.append_nil]
    exact .inl ⟨s, rfl, h, Storage.SameVote.refl s, .inl ⟨hpre, rfl⟩⟩
  | cons e es ih =>
    have hidx' := hidx.of_prefix hL
    have he : e.idx = pre.length + 1 := by
      simpa using hidx'.getElem?_append_right (j := 0) (e := e) rfl
    have hLe : L[pre.length]? = some e := by
      obtain ⟨t, rfl⟩ := hL
      simp
    have hget : s.getLog e.idx = .ok s.log[pre.length]? := by
      rw [h.getLog_eq, if_neg (by omega), he, Nat.add_sub_cancel]
    have hstep : pre ++ [e] ++ es <+: L := by simpa using hL
    rcases hex : s.log[pre.length]? with _ | existing
    · -- behind the last entry: this entry and all that follow are appended
      have hlen : s.log.length ≤ pre.length := List.getElem?_eq_none_iff.mp hex
      obtain rfl : pre = s.log := hpre.eq_of_length_le hlen
      obtain ⟨s', hrun, hwf, hsame, hlog⟩ := handleEntries_append h hidx'
      refine .inl ⟨s', hrun, hwf, hsame, .inr ⟨fun hp => ?_, hlog⟩⟩
      have := hp.length_le
      simp only [List.length_append, List.length_cons] at this
      omega
    by_cases hterm : existing.term = e.term
    · -- the entry is there already
      have htake := hmatch _ _ _ hex hLe hterm
      have hpre' : pre ++ [e] <+: s.log := by
        obtain ⟨t, rfl⟩ := hL
        have : (pre ++ e :: es ++ t).take (pre.length + 1) = pre ++ [e] := by
          simp [List.take_append]
        rw [← this, ← htake]
        exact List.take_prefix _ _
      have hrun : (handleEntries (e :: es)).run s = (handleEntries es).run s := by
        simp [handleEntries, hget, hex, ofExcept, hterm]
      rw [hrun]
      simpa using ih hstep hpre'
    · have hnot : ¬pre ++ e :: es <+: s.log := by
        rintro ⟨t, ht⟩
        rw [← ht] at hex
        simp only [List.append_assoc, List.cons_append, List.getElem?_append_right le_rfl,
          Nat.sub_self, List.getElem?_cons_zero, Option.some.injEq] at hex
        exact hterm (hex ▸ rfl)
      have hlt : pre.length < s.log.length := (List.getElem?_eq_some_iff.mp hex).1
      rw [h.length_log] at hlt
      rcases Nat.lt_or_ge e.idx s.lastLogIndex with hbelow | hlast
      · refine .inr ?_
        simp [handleEntries, hget, hex, ofExcept, hterm, Storage.overwriteLog_eq_error hbelow]
      · -- a conflict at the last index: the entry is replaced and the rest appended
        obtain ⟨s₁, hrun₁, hwf₁, hsame₁, hlog₁⟩ :=
          Storage.overwriteLog_eq h (show e.idx = s.lastLogIndex by omega) (by omega)
        have hcut : s.log.take (e.idx - 1) = pre := by
          rw [he, Nat.add_sub_cancel]
          exact (List.prefix_iff_eq_take.mp hpre).symm
        rw [hcut] at hlog₁
        have hidx₁ : Indexed (s₁.log ++ es) := by
          rw [hlog₁]
          exact hidx.of_prefix hstep
        obtain ⟨s', hrun, hwf, hsame, hlog⟩ := handleEntries_append hwf₁ hidx₁
        refine .inl ⟨s', ?_, hwf, hsame₁.trans hsame, .inr ⟨hnot, by rw [hlog, hlog₁]; simp⟩⟩
        simp [handleEntries, hget, hex, ofExcept, hterm, hrun₁, hrun]

/-- The commit index after an adopted request. -/
def followCommit (commitIndex : ℕ) (req : AppendEntriesRequest Cmd) : ℕ :=
  if commitIndex < req.leaderCommit then
    min req.leaderCommit (req.entries.getLast?.elim req.leaderCommit (·.idx))
  else commitIndex

/-- **`handle_append_entries`** on a slice of a leader's log that the node's log matches. -/
theorem handleAppendEntries_cases {w : RaftWorkerInner Cmd} (h : w.storage.Wf)
    {req : AppendEntriesRequest Cmd} {L pre : List (LogEntry Cmd)}
    (hlen : pre.length = req.prevLogIndex) (hL : pre ++ req.entries <+: L)
    (hterm : req.prevLogIndex ≠ 0 → req.prevLogTerm = lastTerm LogEntry.term pre)
    (hidx : Indexed L) (hmatch : Matches w.storage.log L) :
    (req.term < w.storage.currentTerm ∧ (handleAppendEntries req).run w =
      .ok { term := w.storage.currentTerm, success := false } w) ∨
    (w.storage.currentTerm ≤ req.term ∧ ¬pre <+: w.storage.log ∧
      (handleAppendEntries req).run w =
        .ok { term := w.storage.currentTerm, success := false } w) ∨
    (handleAppendEntries req).run w = .error .overwriteOrder w ∨
    (w.storage.currentTerm ≤ req.term ∧ ∃ s', s'.Wf ∧ w.storage.SameVote s' ∧
      Adopts (pre ++ req.entries) w.storage.log s'.log ∧
      (handleAppendEntries req).run w = .ok { term := w.storage.currentTerm, success := true }
        { w with storage := s', commitIndex := followCommit w.commitIndex req }) := by
  rcases Nat.lt_or_ge req.term w.storage.currentTerm with hold | hnew
  · exact .inl ⟨hold, by simp [handleAppendEntries, hold]⟩
  refine .inr ?_
  have hget := h.getLog_eq req.prevLogIndex
  -- the test of the previous entry is passed exactly when the node's log has all up to it
  have hprev : ¬(req.prevLogIndex ≠ 0 ∧
      (if req.prevLogIndex = 0 then none else w.storage.log[req.prevLogIndex - 1]?).all
        (·.term != req.prevLogTerm)) ↔ pre <+: w.storage.log := by
    by_cases h0 : req.prevLogIndex = 0
    · obtain rfl : pre = [] := List.eq_nil_of_length_eq_zero (hlen.trans h0)
      simp [h0]
    have hlt : pre.length - 1 < pre.length := by omega
    obtain ⟨f, hf⟩ : ∃ f, pre[pre.length - 1]? = some f := ⟨_, List.getElem?_eq_getElem hlt⟩
    have hft : req.prevLogTerm = f.term := (hterm h0).trans (lastTerm_eq_of_getElem? hf)
    rw [if_neg h0, ← hlen, hft]
    constructor
    · intro htest
      rcases hex : w.storage.log[pre.length - 1]? with _ | e
      · exact absurd ⟨by omega, by simp [hex]⟩ htest
      have heq : e.term = f.term := by
        by_contra hne
        exact htest ⟨by omega, by simp [hex, hne]⟩
      have hLf : L[pre.length - 1]? = some f := by
        obtain ⟨t, rfl⟩ := hL
        rw [List.append_assoc, List.getElem?_append_left hlt, hf]
      have htake := hmatch _ _ _ hex hLf heq
      rw [Nat.sub_add_cancel (by omega)] at htake
      have : L.take pre.length = pre := by
        obtain ⟨t, rfl⟩ := hL
        simp
      rw [← this, ← htake]
      exact List.take_prefix _ _
    · rintro ⟨t, ht⟩ ⟨-, hall⟩
      rw [← ht, List.getElem?_append_left hlt, hf] at hall
      simp at hall
  by_cases hp : pre <+: w.storage.log
  · have htest := hprev.mpr hp
    rcases handleEntries_cases h hL hidx hmatch hp with ⟨s', hrun, hwf, hsame, hadopt⟩ | hrun
    · refine .inr (.inr ⟨hnew, s', hwf, hsame, hadopt, ?_⟩)
      simp only [handleAppendEntries, EStateM.run_bind, EStateM.run_get, if_neg (not_lt.mpr hnew),
        hget, ofExcept, EStateM.run_pure, if_neg htest]
      simp only [withStorage_run_of_ok hrun, EStateM.run_modify, followCommit]
      split_ifs <;> rfl
    · refine .inr (.inl ?_)
      simp only [handleAppendEntries, EStateM.run_bind, EStateM.run_get, if_neg (not_lt.mpr hnew),
        hget, ofExcept, EStateM.run_pure, if_neg htest]
      rw [withStorage_run_of_error hrun]
  · refine .inl ⟨hnew, hp, ?_⟩
    have htest := not_not.mp (mt hprev.mp hp)
    simp only [handleAppendEntries, EStateM.run_bind, EStateM.run_get, if_neg (not_lt.mpr hnew),
      hget, ofExcept, EStateM.run_pure, if_pos htest]

omit [Bincode (LogEntry Cmd)] in
/-- The loop of `apply_log` over the entries that were read. -/
theorem foldl_apply (es : List (LogEntry Cmd)) (w : RaftWorkerInner Cmd) :
    es.foldl (fun w entry => { w with
      lastApplied := entry.idx, stateMachineTx := w.stateMachineTx ++ [entry] }) w =
    { w with
      lastApplied := es.getLast?.elim w.lastApplied (·.idx)
      stateMachineTx := w.stateMachineTx ++ es } := by
  induction es generalizing w with
  | nil => simp
  | cons e es ih =>
    rw [List.foldl_cons, ih, List.getLast?_cons]
    cases es.getLast? <;> simp

/-- **`apply_log`** applies the entries between the last applied index and the commit index. -/
theorem applyLog_eq {w : RaftWorkerInner Cmd} (h : w.storage.Wf) :
    applyLog.run w = .ok () { w with
      lastApplied := ((w.storage.log.drop w.lastApplied).take
        (w.commitIndex - w.lastApplied)).getLast?.elim w.lastApplied (·.idx)
      stateMachineTx := w.stateMachineTx ++
        (w.storage.log.drop w.lastApplied).take (w.commitIndex - w.lastApplied) } := by
  simp [applyLog, h.sublog_range', ofExcept, foldl_apply]

end RaftWorkerInner

/-! ### Candidate -/

namespace Candidate

variable [Bincode (LogEntry Cmd)]

/-- The request that a candidate with this worker sends. -/
def voteRequest (w : RaftWorkerInner Cmd) : RequestVoteRequest where
  term := w.storage.currentTerm
  candidate := w.nodeId
  lastLogIndex := w.storage.log.length
  lastLogTerm := lastTerm LogEntry.term w.storage.log

/-- The worker after its votes were requested. -/
def requested (w : RaftWorkerInner Cmd) (peers : List NodeId) : RaftWorkerInner Cmd :=
  { w with transport := { w.transport with
    calls := w.transport.calls ++ peers.map fun p => (p, .requestVote (voteRequest w)) } }

theorem requestVotesFrom_eq (peers : List NodeId) {w : RaftWorkerInner Cmd} (h : w.storage.Wf) :
    (requestVotesFrom peers).run w =
      .ok (List.range' w.transport.calls.length peers.length) (requested w peers) := by
  induction peers generalizing w with
  | nil => simp [requestVotesFrom, requested]
  | cons p peers ih =>
    simp only [requestVotesFrom, EStateM.run_bind, EStateM.run_get, h.lastLogTerm_eq, ofExcept,
      EStateM.run_pure, RaftWorkerInner.call, EStateM.run_modifyGet]
    rw [ih (by exact h)]
    simp [requested, voteRequest, List.range'_succ, h.length_log]

/-- **The start of an election**: the node enters its next term, votes for itself and asks every
connected peer for its vote. -/
theorem startElection_eq {w : RaftWorkerInner Cmd} (h : w.storage.Wf) :
    let w' := { w with storage := w.storage.incrementTerm.setVotedFor (some w.nodeId) }
    startElection.run w =
      .ok { votes := 1
            votesRx := List.range' w.transport.calls.length (connectedPeers w).length }
        (requested w' (connectedPeers w)) := by
  have hwf := Storage.wf_setVotedFor (Storage.wf_incrementTerm h) (some w.nodeId)
  simp only [startElection, requestVotes, EStateM.run_bind, EStateM.run_modify, EStateM.run_get,
    voteForSelf]
  rw [requestVotesFrom_eq _ (by exact hwf)]
  rfl

end Candidate

/-! ### Leader -/

namespace Leader

theorem withInner_run_of_ok {α : Type} {x : Rust (RaftWorkerInner Cmd) α}
    {w : RaftWorker Leader Cmd} {a : α} {i : RaftWorkerInner Cmd} (h : x.run w.inner = .ok a i) :
    (withInner x).run w = .ok a { w with inner := i } := by
  simp only [EStateM.run, withInner] at h ⊢
  rw [h]

theorem withInner_run_of_error {α : Type} {x : Rust (RaftWorkerInner Cmd) α}
    {w : RaftWorker Leader Cmd} {p : Panic} {i : RaftWorkerInner Cmd}
    (h : x.run w.inner = .error p i) :
    (withInner x).run w = .error p { w with inner := i } := by
  simp only [EStateM.run, withInner] at h ⊢
  rw [h]

variable [Bincode (LogEntry Cmd)]

/-- The previous entry is found unless its index is behind the last one. -/
theorem prevLogTerm_eq {s : Storage Cmd} (h : s.Wf) (n : ℕ) :
    prevLogTerm s n = if n ≤ s.log.length then .ok (lastTerm LogEntry.term (s.log.take n))
      else .error .prevEntry := by
  unfold prevLogTerm
  by_cases h0 : n = 0
  · simp [h0, Consensus.lastTerm_nil, pure, Except.pure]
  rw [if_pos (by omega), h.getLog_eq, if_neg h0]
  by_cases hn : n ≤ s.log.length
  · have hlt : n - 1 < s.log.length := by omega
    have hlast : (s.log.take n)[(s.log.take n).length - 1]? = some s.log[n - 1] := by
      rw [List.length_take_of_le hn, List.getElem?_take_of_lt (by omega),
        List.getElem?_eq_getElem hlt]
    rw [if_pos hn, List.getElem?_eq_getElem hlt, lastTerm_eq_of_getElem? hlast]
    rfl
  · rw [if_neg hn, List.getElem?_eq_none (by omega)]
    rfl

/-- The request for a peer whose next index is `n + 1`. -/
def appendRequest (w : RaftWorkerInner Cmd) (n : ℕ) : AppendEntriesRequest Cmd where
  term := w.storage.currentTerm
  leaderId := w.nodeId
  prevLogIndex := n
  prevLogTerm := lastTerm LogEntry.term (w.storage.log.take n)
  entries := (w.storage.log.drop n).take maxBatchSize
  leaderCommit := w.commitIndex

/-- A request is a slice of the log it is made from. -/
theorem sliceOf_appendRequest (w : RaftWorkerInner Cmd) {n : ℕ} (hn : n ≤ w.storage.log.length) :
    (appendRequest w n).SliceOf w.storage.log := by
  refine ⟨w.storage.log.take n, by simp [appendRequest, hn], ?_, fun _ => rfl⟩
  have := List.take_prefix (n + maxBatchSize) w.storage.log
  rwa [List.take_add] at this

/-- The worker after a request was sent to `peer`. -/
def sent (w : RaftWorker Leader Cmd) (peer : NodeId) (n : ℕ) : RaftWorker Leader Cmd :=
  let last := n + (appendRequest w.inner n).entries.length
  { inner := { w.inner with transport := { w.inner.transport with
      calls := w.inner.transport.calls ++ [(peer, .appendEntries (appendRequest w.inner n))] } }
    state := { w.state with
      inFlightPeers := insert peer w.state.inFlightPeers
      responsesRx :=
        { call := w.inner.transport.calls.length, peerId := peer
          firstEntry := if (appendRequest w.inner n).entries = [] then last else n + 1
          lastEntry := last } :: w.state.responsesRx } }

/-- **`append_entries`** does nothing, or finds no index for the peer, or its next index is `0`,
or too large, or it sends the entries from the next index on. -/
theorem appendEntries_cases {w : RaftWorker Leader Cmd} (h : w.inner.storage.Wf) (peer : NodeId) :
    (appendEntries peer).run w = .ok () w ∨
    (w.state.nextIndices.lookup peer = none ∧
      (appendEntries peer).run w = .error .peerIndex w) ∨
    (peer ∈ w.inner.peerClients ∧ peer ∉ w.state.inFlightPeers ∧
      ∃ next, w.state.nextIndices.lookup peer = some next ∧
        (next = 0 ∧ (appendEntries peer).run w = .error .subOverflow w ∨
        w.inner.storage.log.length + 1 < next ∧
          (appendEntries peer).run w = .error .prevEntry w ∨
        ∃ n, next = n + 1 ∧ n ≤ w.inner.storage.log.length ∧
          (appendEntries peer).run w = .ok () (sent w peer n))) := by
  rcases hc : w.inner.peerClients.lookup peer with _ | client
  · exact .inl (by simp [appendEntries, hc])
  have hmem : peer ∈ w.inner.peerClients := by
    rw [← AList.lookup_isSome, hc]
    rfl
  by_cases hskip : ¬client.connected ∨ peer ∈ w.state.inFlightPeers
  · exact .inl (by simp only [appendEntries, EStateM.run_bind, EStateM.run_get, hc, if_pos hskip,
      EStateM.run_pure])
  refine .inr ?_
  rcases hn : w.state.nextIndices.lookup peer with _ | next
  · refine .inl ⟨rfl, ?_⟩
    simp only [appendEntries, EStateM.run_bind, EStateM.run_get, hc, if_neg hskip, hn,
      EStateM.run_throw_any]
  refine .inr ⟨hmem, fun hin => hskip (.inr hin), next, rfl, ?_⟩
  rcases next with _ | n
  · refine .inl ⟨rfl, ?_⟩
    simp only [appendEntries, EStateM.run_bind, EStateM.run_get, hc, if_neg hskip, hn,
      u64Sub_run_of_lt Nat.zero_lt_one]
  refine .inr ?_
  by_cases hlen : n ≤ w.inner.storage.log.length
  · refine .inr ⟨n, rfl, hlen, ?_⟩
    -- the previous entry and what is sent are a part of the log
    have hslice : Indexed (w.inner.storage.log.take n ++
        (w.inner.storage.log.drop n).take maxBatchSize) := by
      rw [← List.take_add]
      exact Indexed.of_prefix (fun _ _ => h.idx_eq) (List.take_prefix _ _)
    simp only [appendEntries, EStateM.run_bind, EStateM.run_get, hc, if_neg hskip, hn,
      u64Sub_run_of_le (Nat.le_add_left 1 n), EStateM.run_pure, Nat.add_sub_cancel,
      prevLogTerm_eq h, if_pos hlen, ofExcept, h.sublog_range']
    rw [withInner_run_of_ok (x := RaftWorkerInner.call _ _) rfl]
    simp only [EStateM.run_modify, sent, appendRequest, hslice.getLast?_append,
      hslice.head?_append, List.length_take_of_le hlen]
    -- the last index of the task is where the batch ends, also when it is empty
    have hlast : ∀ es : List (LogEntry Cmd), es = (w.inner.storage.log.drop n).take maxBatchSize →
        (if es = [] then w.inner.storage.lastLogIndex else n + es.length) = n + es.length := by
      intro es hes
      split_ifs with hnil
      · have := congrArg List.length (hes.symm.trans hnil)
        simp only [List.length_take, List.length_drop, List.length_nil, maxBatchSize] at this
        rw [h.length_log] at this hlen
        rw [hnil, List.length_nil]
        omega
      · rfl
    rw [hlast _ rfl]
    rfl
  · refine .inl ⟨by omega, ?_⟩
    simp only [appendEntries, EStateM.run_bind, EStateM.run_get, hc, if_neg hskip, hn,
      u64Sub_run_of_le (Nat.le_add_left 1 n), Nat.add_sub_cancel, prevLogTerm_eq h, if_neg hlen,
      ofExcept, EStateM.run_throw_any]

/-- Index `n` can be committed: a quorum has it, and its entry is of the current term. -/
def Committable (w : RaftWorker Leader Cmd) (n : ℕ) : Prop :=
  w.inner.quorum - 1 ≤ w.state.agree n ∧
    ∃ e, w.inner.storage.log[n - 1]? = some e ∧ e.term = w.inner.storage.currentTerm

/-- The worker with another commit index. -/
def committed (w : RaftWorker Leader Cmd) (n : ℕ) : RaftWorker Leader Cmd :=
  { w with inner := { w.inner with commitIndex := n } }

theorem advanceFrom_eq {w : RaftWorker Leader Cmd} (h : w.inner.storage.Wf) (k : ℕ)
    (hk : ∀ n, n ≤ w.inner.commitIndex + k → w.inner.commitIndex < n →
      n ≤ w.inner.storage.log.length) :
    ∃ n', w.inner.commitIndex ≤ n' ∧ n' ≤ w.inner.commitIndex + k ∧
      (∀ n, w.inner.commitIndex < n → n ≤ n' → Committable w n) ∧
      (n' < w.inner.commitIndex + k → ¬Committable w (n' + 1)) ∧
      (advanceFrom (List.range' (w.inner.commitIndex + 1) k)).run w = .ok () (committed w n') := by
  induction k generalizing w with
  | zero => exact ⟨w.inner.commitIndex, le_rfl, le_rfl, by omega, by omega, rfl⟩
  | succ k ih =>
    -- the loop stops at the first index that is not committable
    have hstop : ¬Committable w (w.inner.commitIndex + 1) →
        (advanceFrom (List.range' (w.inner.commitIndex + 1) (k + 1))).run w = .ok () w →
        ∃ n', w.inner.commitIndex ≤ n' ∧ n' ≤ w.inner.commitIndex + (k + 1) ∧
          (∀ n, w.inner.commitIndex < n → n ≤ n' → Committable w n) ∧
          (n' < w.inner.commitIndex + (k + 1) → ¬Committable w (n' + 1)) ∧
          (advanceFrom (List.range' (w.inner.commitIndex + 1) (k + 1))).run w =
            .ok () (committed w n') :=
      fun hnot hrun => ⟨w.inner.commitIndex, le_rfl, by omega, by omega, fun _ => hnot, hrun⟩
    rw [List.range'_succ] at hstop ⊢
    by_cases hagree : w.state.agree (w.inner.commitIndex + 1) < w.inner.quorum - 1
    · exact hstop (fun hc => absurd hc.1 (Nat.not_le.mpr hagree)) (by simp only [advanceFrom,
        EStateM.run_bind, EStateM.run_get, if_pos hagree, EStateM.run_pure])
    have hlen := hk (w.inner.commitIndex + 1) (by omega) (by omega)
    have hlt : w.inner.commitIndex < w.inner.storage.log.length := hlen
    have hget : w.inner.storage.getLog (w.inner.commitIndex + 1) =
        .ok (some w.inner.storage.log[w.inner.commitIndex]) := by
      rw [h.getLog_eq, if_neg (by omega), Nat.add_sub_cancel, List.getElem?_eq_getElem hlt]
    by_cases hterm : w.inner.storage.log[w.inner.commitIndex].term = w.inner.storage.currentTerm
    · -- the loop goes on from the next index
      obtain ⟨n', hle, hle', hall, hend, hrun⟩ :=
        ih (w := committed w (w.inner.commitIndex + 1)) h
          (fun n h1 h2 => hk n (by simp only [committed] at h1; omega) (Nat.lt_of_succ_lt h2))
      simp only [committed] at hle hle' hend
      refine ⟨n', by omega, by omega, fun n h1 h2 => ?_, fun hn => hend (by omega), ?_⟩
      · rcases Nat.lt_or_ge (w.inner.commitIndex + 1) n with hn | hn
        · exact hall n hn h2
        · obtain rfl : n = w.inner.commitIndex + 1 := by omega
          exact ⟨Nat.not_lt.mp hagree, _, List.getElem?_eq_getElem hlt, hterm⟩
      · simp only [advanceFrom, EStateM.run_bind, EStateM.run_get, if_neg hagree, hget, ofExcept,
          EStateM.run_pure, hterm, ne_eq, not_true_eq_false, if_false, EStateM.run_set]
        exact hrun
    · refine hstop (fun ⟨_, e, he, het⟩ => hterm ?_) (by simp only [advanceFrom, EStateM.run_bind,
        EStateM.run_get, if_neg hagree, hget, ofExcept, EStateM.run_pure, ne_eq, hterm,
        not_false_eq_true, if_true])
      rw [Nat.add_sub_cancel, List.getElem?_eq_getElem hlt, Option.some.injEq] at he
      rw [he, het]

/-- The worker after some waiting clients got their answer. -/
def acknowledged (w : RaftWorker Leader Cmd) (answers : List (ClientSender × ClientResult))
    (waiting : AList fun _ : ℕ => ClientSender) : RaftWorker Leader Cmd :=
  { inner := { w.inner with transport := { w.inner.transport with answers } }
    state := { w.state with inFlightClientRequests := waiting } }

omit [Bincode (LogEntry Cmd)] in
/-- Only clients that wait for one of the indices are answered. -/
theorem acknowledge_eq (is : List ℕ) (w : RaftWorker Leader Cmd) :
    ∃ answers waiting, acknowledge is w = acknowledged w answers waiting ∧
      ∀ n, n ∉ is → waiting.lookup n = w.state.inFlightClientRequests.lookup n := by
  induction is generalizing w with
  | nil => exact ⟨_, _, rfl, fun _ _ => rfl⟩
  | cons i is ih =>
    rw [acknowledge]
    rcases w.state.inFlightClientRequests.lookup i with _ | tx
    · obtain ⟨answers, waiting, heq, hn⟩ := ih w
      exact ⟨answers, waiting, heq, fun n hn' => hn n (fun h => hn' (List.mem_cons_of_mem _ h))⟩
    · obtain ⟨answers, waiting, heq, hn⟩ := ih
        { inner := w.inner.answer tx (.ok .ack)
          state := { w.state with
            inFlightClientRequests := w.state.inFlightClientRequests.erase i } }
      refine ⟨answers, waiting, heq, fun n hn' => ?_⟩
      rw [List.mem_cons, not_or] at hn'
      rw [hn n hn'.2]
      exact AList.lookup_erase_ne hn'.1

/-- **`advance_commit_index`** moves the commit index over indices that can be committed, up to
the first that cannot, and answers clients that wait for them. -/
theorem advanceCommitIndex_eq {w : RaftWorker Leader Cmd} (h : w.inner.storage.Wf) :
    ∃ n' answers waiting, w.inner.commitIndex ≤ n' ∧
      (n' ≤ w.inner.commitIndex ∨ n' ≤ w.inner.storage.log.length) ∧
      (∀ n, w.inner.commitIndex < n → n ≤ n' → Committable w n) ∧
      (n' < w.inner.storage.lastLogIndex → ¬Committable w (n' + 1)) ∧
      (∀ n, w.state.inFlightClientRequests.lookup n ≠ waiting.lookup n →
        w.inner.commitIndex < n ∧ n ≤ n') ∧
      advanceCommitIndex.run w = .ok () (acknowledged (committed w n') answers waiting) := by
  obtain ⟨n', hle, hle', hall, hend, hrun⟩ := advanceFrom_eq h
    (w.inner.storage.lastLogIndex - w.inner.commitIndex)
    (fun n h1 h2 => by rw [h.length_log]; omega)
  obtain ⟨answers, waiting, hack, hwait⟩ := acknowledge_eq
    (List.range' (w.inner.commitIndex + 1) (n' + 1 - (w.inner.commitIndex + 1))) (committed w n')
  refine ⟨n', answers, waiting, hle, by rw [h.length_log]; omega, hall,
    fun hn => hend (by omega), fun n hn => ?_, ?_⟩
  · by_contra hout
    refine hn (hwait n fun hmem => hout ?_).symm
    rw [List.mem_range'_1] at hmem
    omega
  · have hcount : w.inner.storage.lastLogIndex + 1 - (w.inner.commitIndex + 1) =
        w.inner.storage.lastLogIndex - w.inner.commitIndex := by omega
    simp only [advanceCommitIndex, EStateM.run_bind, EStateM.run_get, hcount, hrun,
      EStateM.run_modify]
    exact congrArg _ hack

end Leader

end Wraft
