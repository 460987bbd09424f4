import Wraft.Raft.Effects

/-!
# Repairing a divergent log

`handle_append_entries` is meant to make the log of a follower agree with the entries of a request,
whatever the log holds behind the previous entry: entries that the log has already are left, missing
ones are appended, and from the first entry of another term on the log is replaced
(`Repaired`).

It does so when a conflict can only be at the last index of the log (`handles_iff`). A conflict
further down ends in the assertion of `overwrite_log`, which is the wrong way around, before
anything has been written.
-/

namespace Wraft

variable {Cmd : Type}

/-! ### What a log should become -/

/-- The log has an entry of another term where entry `j` of `es`, behind index `prev`, belongs. -/
def Conflict (log es : List (LogEntry Cmd)) (prev j : ℕ) : Prop :=
  ∃ a e, log[prev + j]? = some a ∧ es[j]? = some e ∧ a.term ≠ e.term

/-- `log'` is `log` after it has received `es` behind index `prev`. -/
structure Repaired (log es : List (LogEntry Cmd)) (prev : ℕ) (log' : List (LogEntry Cmd)) : Prop
    where
  /-- Without a conflict the missing entries are appended. -/
  extended : (∀ j, ¬Conflict log es prev j) → log' = log ++ es.drop (log.length - prev)
  /-- At the first conflict the log is cut, and goes on with the request's entries. -/
  replaced : ∀ j, Conflict log es prev j → (∀ i < j, ¬Conflict log es prev i) →
    log' = log.take (prev + j) ++ es.drop j

theorem conflict_cons_succ {log es : List (LogEntry Cmd)} {e : LogEntry Cmd} {prev j : ℕ} :
    Conflict log (e :: es) prev (j + 1) ↔ Conflict log es (prev + 1) j := by
  rw [Conflict, Conflict, Nat.add_assoc, Nat.add_comm 1 j]
  rfl

/-- A conflict is inside the log. -/
theorem Conflict.lt_length {log es : List (LogEntry Cmd)} {prev j : ℕ}
    (h : Conflict log es prev j) : prev + j < log.length := by
  obtain ⟨a, -, ha, -⟩ := h
  exact (List.getElem?_eq_some_iff.mp ha).1

theorem not_conflict_nil {log : List (LogEntry Cmd)} {prev j : ℕ} : ¬Conflict log [] prev j := by
  rintro ⟨_, _, -, he, -⟩
  cases he

theorem repaired_nil (log : List (LogEntry Cmd)) (prev : ℕ) : Repaired log [] prev log where
  extended _ := by simp
  replaced _ hj := absurd hj not_conflict_nil

/-- All entries are new. -/
theorem repaired_append (log es : List (LogEntry Cmd)) :
    Repaired log es log.length (log ++ es) where
  extended _ := by simp
  replaced j hj := absurd hj.lt_length (by omega)

/-- The first entry is in the log. -/
theorem Repaired.cons {log es log' : List (LogEntry Cmd)} {e : LogEntry Cmd} {prev : ℕ}
    (h : Repaired log es (prev + 1) log') (hprev : prev < log.length)
    (hnot : ¬Conflict log (e :: es) prev 0) : Repaired log (e :: es) prev log' where
  extended hno := by
    have hlen : log.length - prev = log.length - (prev + 1) + 1 := by omega
    rw [hlen, List.drop_succ_cons]
    exact h.extended fun j hj => hno (j + 1) (conflict_cons_succ.mpr hj)
  replaced j hj hfirst := by
    cases j with
    | zero => exact absurd hj hnot
    | succ j =>
      have hcut : prev + (j + 1) = prev + 1 + j := by omega
      rw [List.drop_succ_cons, hcut]
      exact h.replaced j (conflict_cons_succ.mp hj)
        fun i hi hc => hfirst (i + 1) (by omega) (conflict_cons_succ.mpr hc)

/-- The first entry is in conflict. -/
theorem repaired_of_conflict {log es : List (LogEntry Cmd)} {prev : ℕ}
    (h : Conflict log es prev 0) : Repaired log es prev (log.take prev ++ es) where
  extended hno := absurd h (hno 0)
  replaced j _ hfirst := by
    obtain rfl : j = 0 := by
      by_contra hj
      exact hfirst 0 (Nat.pos_of_ne_zero hj) h
    rfl

/-! ### What it becomes -/

variable [Bincode (LogEntry Cmd)]

namespace RaftWorkerInner

/-- **The loop of `handle_append_entries`** over entries with the right indices repairs the log,
unless there is a conflict below the last index. -/
theorem handleEntries_repairs {s : Storage Cmd} (h : s.Wf) {es : List (LogEntry Cmd)} {prev : ℕ}
    (hprev : prev ≤ s.log.length) (hidx : ∀ j e, es[j]? = some e → e.idx = prev + j + 1) :
    ((∀ j, Conflict s.log es prev j → s.log.length = prev + j + 1) ∧
      ∃ s', (handleEntries es).run s = .ok () s' ∧ Repaired s.log es prev s'.log) ∨
    ((∃ j, Conflict s.log es prev j ∧ s.log.length ≠ prev + j + 1) ∧
      (handleEntries es).run s = .error .overwriteOrder s) := by
  induction es generalizing prev with
  | nil => exact .inl ⟨fun j hj => absurd hj not_conflict_nil, s, rfl, repaired_nil _ _⟩
  | cons e es ih =>
    have he : e.idx = prev + 1 := hidx 0 e rfl
    have hes : ∀ j f, es[j]? = some f → f.idx = prev + 1 + j + 1 := fun j f hf => by
      have := hidx (j + 1) f hf
      omega
    have hget : s.getLog e.idx = .ok s.log[prev]? := by
      rw [h.getLog_eq, if_neg (by omega), he, Nat.add_sub_cancel]
    rcases hex : s.log[prev]? with _ | existing
    · -- behind the last entry: this entry and all that follow are appended
      obtain rfl : prev = s.log.length := le_antisymm hprev (List.getElem?_eq_none_iff.mp hex)
      have hindexed : Indexed (s.log ++ e :: es) := Indexed.append (fun _ _ => h.idx_eq) hidx
      obtain ⟨s', hrun, -, -, hlog⟩ := handleEntries_append h hindexed
      exact .inl ⟨fun j hj => absurd hj.lt_length (by omega), s', hrun,
        hlog ▸ repaired_append s.log (e :: es)⟩
    have hlt : prev < s.log.length := (List.getElem?_eq_some_iff.mp hex).1
    rw [hex] at hget
    by_cases hterm : existing.term = e.term
    · -- the entry is there already
      have hnot : ¬Conflict s.log (e :: es) prev 0 := by
        rintro ⟨a, f, ha, hf, hne⟩
        rw [Nat.add_zero, hex] at ha
        obtain rfl := Option.some.inj ha
        obtain rfl := Option.some.inj hf
        exact hne hterm
      rw [handleEntries_of_eq es hget hterm]
      rcases ih hlt hes with ⟨hlast, s', hrun, hrep⟩ | ⟨⟨j, hj, hlen⟩, hrun⟩
      · refine .inl ⟨fun j hj => ?_, s', hrun, hrep.cons hlt hnot⟩
        cases j with
        | zero => exact absurd hj hnot
        | succ j =>
          rw [hlast j (conflict_cons_succ.mp hj)]
          omega
      · exact .inr ⟨⟨j + 1, conflict_cons_succ.mpr hj, by omega⟩, hrun⟩
    · have hconflict : Conflict s.log (e :: es) prev 0 := ⟨existing, e, hex, rfl, hterm⟩
      rw [handleEntries_of_ne es hget hterm]
      have hlast := h.length_log
      rcases Nat.lt_or_ge e.idx s.lastLogIndex with hbelow | hatlast
      · exact .inr ⟨⟨0, hconflict, by omega⟩,
          EStateM.run_bind_of_error (Storage.overwriteLog_eq_error hbelow)⟩
      · -- a conflict at the last index: the entry is replaced and the rest appended
        obtain ⟨s₁, hrun₁, hwf₁, -, hlog₁⟩ :=
          Storage.overwriteLog_eq h (show e.idx = s.lastLogIndex by omega) (by omega)
        rw [he, Nat.add_sub_cancel] at hlog₁
        have hlen₁ : s₁.log.length = prev + 1 := by
          rw [hlog₁, List.length_append, List.length_take_of_le hprev, List.length_singleton]
        have hindexed : Indexed (s₁.log ++ es) :=
          Indexed.append (fun _ _ => hwf₁.idx_eq) (by rwa [hlen₁])
        obtain ⟨s', hrun, -, -, hlog⟩ := handleEntries_append hwf₁ hindexed
        refine .inl ⟨fun j hj => ?_, s', ?_, ?_⟩
        · have := hj.lt_length
          omega
        · rw [EStateM.run_bind_of_ok hrun₁, hrun]
        · rw [hlog, hlog₁, List.append_assoc]
          exact repaired_of_conflict hconflict

end RaftWorkerInner

/-- The entries of a request carry consecutive indices, from the one behind the previous entry. -/
def AppendEntriesRequest.Contiguous (req : AppendEntriesRequest Cmd) : Prop :=
  ∀ j e, req.entries[j]? = some e → e.idx = req.prevLogIndex + j + 1

namespace RaftWorkerInner

/-- The request is not old, and the log has its previous entry. -/
def Accepts (w : RaftWorkerInner Cmd) (req : AppendEntriesRequest Cmd) : Prop :=
  w.storage.currentTerm ≤ req.term ∧ (req.prevLogIndex = 0 ∨
    ∃ e, w.storage.log[req.prevLogIndex - 1]? = some e ∧ e.term = req.prevLogTerm)

/-- `handle_append_entries` repairs the log with a request that is accepted, and refuses any
other without touching the log or the commit index. -/
structure Handles (w : RaftWorkerInner Cmd) (req : AppendEntriesRequest Cmd) : Prop where
  accepted : w.Accepts req → ∃ resp w', (handleAppendEntries req).run w = .ok resp w' ∧
    resp.success = true ∧ Repaired w.storage.log req.entries req.prevLogIndex w'.storage.log
  refused : ¬w.Accepts req → ∃ resp w', (handleAppendEntries req).run w = .ok resp w' ∧
    resp.success = false ∧ w'.storage.log = w.storage.log ∧ w'.commitIndex = w.commitIndex

theorem Accepts.hasPrev {w : RaftWorkerInner Cmd} (h : w.storage.Wf)
    {req : AppendEntriesRequest Cmd} (ha : w.Accepts req) : w.HasPrev req := by
  refine or_iff_not_imp_left.mpr fun h0 => ?_
  obtain ⟨e, he, het⟩ := ha.2.resolve_left h0
  exact ⟨e, by rw [h.getLog_eq, if_neg h0, he], het⟩

theorem handleAppendEntries_of_not_accepts {w : RaftWorkerInner Cmd} (h : w.storage.Wf)
    {req : AppendEntriesRequest Cmd} (ha : ¬w.Accepts req) : (handleAppendEntries req).run w =
      .ok { term := w.storage.currentTerm, success := false } w := by
  rcases Nat.lt_or_ge req.term w.storage.currentTerm with hold | hnew
  · exact handleAppendEntries_of_lt hold
  have htest : req.prevLogIndex ≠ 0 ∧
      (if req.prevLogIndex = 0 then none else w.storage.log[req.prevLogIndex - 1]?).all
        (·.term != req.prevLogTerm) := by
    obtain ⟨h0, hno⟩ := not_or.mp fun hprev => ha ⟨hnew, hprev⟩
    refine ⟨h0, ?_⟩
    rcases he : w.storage.log[req.prevLogIndex - 1]? with _ | e
    · simp
    · have hne : e.term ≠ req.prevLogTerm := fun het => hno ⟨e, he, het⟩
      simp [h0, hne]
  simp only [handleAppendEntries, EStateM.run_bind, EStateM.run_get, if_neg (not_lt.mpr hnew),
    h.getLog_eq, ofExcept, EStateM.run_pure, if_pos htest]

/-- **`handle_append_entries` repairs the log** exactly when no entry that it would have to replace
is below the last one. -/
theorem handles_iff {w : RaftWorkerInner Cmd} (h : w.storage.Wf) {req : AppendEntriesRequest Cmd}
    (hreq : req.Contiguous) : w.Handles req ↔ (w.Accepts req → ∀ j,
      Conflict w.storage.log req.entries req.prevLogIndex j →
        w.storage.log.length = req.prevLogIndex + j + 1) := by
  by_cases ha : w.Accepts req
  · have hprev : req.prevLogIndex ≤ w.storage.log.length := by
      rcases ha.2 with h0 | ⟨e, he, -⟩
      · omega
      · have := (List.getElem?_eq_some_iff.mp he).1
        omega
    have heq := handleAppendEntries_of_hasPrev ha.1 (ha.hasPrev h)
    rcases handleEntries_repairs h hprev hreq with ⟨hlast, s', hrun, hrep⟩ | ⟨⟨j, hj, hne⟩, hrun⟩
    · rw [hrun] at heq
      exact iff_of_true ⟨fun _ => ⟨_, _, heq, rfl, hrep⟩, fun hn => absurd ha hn⟩ fun _ => hlast
    · rw [hrun] at heq
      refine iff_of_false (fun hh => ?_) fun hall => hne (hall ha j hj)
      obtain ⟨resp, w', hrun', -⟩ := hh.accepted ha
      rw [heq] at hrun'
      cases hrun'
  · refine iff_of_true ⟨fun hy => absurd hy ha, fun _ => ?_⟩ fun hy => absurd hy ha
    exact ⟨_, w, handleAppendEntries_of_not_accepts h ha, rfl, rfl, rfl⟩

/-- A follower in term `2` with two entries of term `1`. -/
def divergent : RaftWorkerInner ℕ where
  leaderId := none
  nodeId := 0
  sessionKey := 1
  clusterSize := 3
  peers := [1, 2]
  peerClients := ∅
  commitIndex := 0
  lastApplied := 0
  storage := ((((Storage.mk 1 0 0 none [] : Storage ℕ).updateTerm 1).2.appended ⟨7, 1, 1⟩).appended
    ⟨8, 1, 2⟩ |>.updateTerm 2).2
  stateMachineTx := []
  forwarded := []
  transport := { calls := [], answers := [] }

theorem divergent_wf : divergent.storage.Wf :=
  Storage.wf_updateTerm (Storage.wf_appended (Storage.wf_appended
    (Storage.wf_updateTerm (Storage.wf_empty 1) 1) rfl) rfl) 2

/-- The leader of term `2` has another entry at index `idx`, behind those of term `1`. -/
def replacing (idx : ℕ) : AppendEntriesRequest ℕ where
  term := 2
  leaderId := 1
  prevLogIndex := idx - 1
  prevLogTerm := 1
  entries := [⟨9, 2, idx⟩]
  leaderCommit := 0

theorem contiguous_replacing {idx : ℕ} (h : 0 < idx) : (replacing idx).Contiguous := by
  rintro (_ | j) e he
  · obtain rfl := Option.some.inj he
    exact (Nat.sub_add_cancel h).symm
  · cases he

/-- The entry to be replaced is the last one. -/
theorem handles_iff_replacing : divergent.Handles (replacing 2) := by
  refine (handles_iff divergent_wf (contiguous_replacing (by decide))).mpr ?_
  rintro - (_ | j) ⟨a, e, -, he, -⟩
  · rw [divergent_wf.length_log]
    rfl
  · cases he

/-- The entry to be replaced is the first of two. -/
theorem not_handles : ¬∀ (w : RaftWorkerInner ℕ) (req : AppendEntriesRequest ℕ), w.storage.Wf →
    req.Contiguous → w.Handles req := by
  intro h
  obtain ⟨resp, w', hrun, -⟩ := (h divergent (replacing 1) divergent_wf
    (contiguous_replacing (by decide))).accepted ⟨by decide, .inl rfl⟩
  have hpanics : (match (handleAppendEntries (replacing 1)).run divergent with
    | .ok _ _ => false
    | .error _ _ => true) = true := by decide +kernel
  rw [hrun] at hpanics
  cases hpanics

end RaftWorkerInner

end Wraft
