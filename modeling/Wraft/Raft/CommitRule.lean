import Mathlib.Data.Nat.Find
import Wraft.Raft.WorkerSpec

/-!
# The commit rule of a leader

A leader may commit the largest index that a quorum has and whose entry is of its own term
(`Leader.quorumIndex`); everything below that index is committed with it. The loop of
`advance_commit_index` walks up from the commit index and stops at the first index that cannot
be committed on its own. In a log whose terms do not decrease, the indices that can be committed
on their own form an interval, so the loop reaches its end if it reaches its beginning: the commit
index is the right one unless an entry of an earlier term stands between it and the interval
(`commit_rule_exact_iff`). Such an entry is there after any leader change with entries that were not
committed, and after a restart, which sets the commit index to `0`.
-/

namespace Wraft

namespace Leader

variable {Cmd : Type}

/-- A higher index has fewer peers that agree on it. -/
theorem agree_antitone (l : Leader) : Antitone l.agree := fun m n h =>
  (List.monotone_filter_right _ fun p hp => by
    simp only [decide_eq_true_eq] at hp ⊢
    exact h.trans hp).length_le

variable [Bincode (LogEntry Cmd)]

instance (w : RaftWorker Leader Cmd) : DecidablePred (Committable w) := fun n =>
  inferInstanceAs (Decidable (_ ∧ ∃ e ∈ w.inner.storage.log[n - 1]?, _))

/-- The largest index with an entry of the current term that a quorum has, or `0`. -/
def quorumIndex (w : RaftWorker Leader Cmd) : ℕ :=
  Nat.findGreatest (Committable w) w.inner.storage.lastLogIndex

/-- The entry behind the commit index is of an earlier term, and an index above it has an entry of
the current term that a quorum has. -/
def Blocked (w : RaftWorker Leader Cmd) : Prop :=
  (∃ e, w.inner.storage.log[w.inner.commitIndex]? = some e ∧
    e.term < w.inner.storage.currentTerm) ∧
  ∃ n, w.inner.commitIndex < n ∧ n ≤ w.inner.storage.lastLogIndex ∧ Committable w n

/-- The terms of the log do not decrease, and none is above the current one. -/
structure TermsSorted (s : Storage Cmd) : Prop where
  sorted : s.log.Pairwise fun a b => a.term ≤ b.term
  le_current : ∀ e ∈ s.log, e.term ≤ s.currentTerm

/-- What lies between an entry of the current term and an index that can be committed can be
committed, too. -/
theorem Committable.of_le {w : RaftWorker Leader Cmd} (hs : TermsSorted w.inner.storage)
    {m n : ℕ} (hn : Committable w n) (hmn : m ≤ n) {e : LogEntry Cmd}
    (he : w.inner.storage.log[m - 1]? = some e) (hcur : ¬e.term < w.inner.storage.currentTerm) :
    Committable w m := by
  refine ⟨hn.1.trans (agree_antitone _ hmn), e, he, ?_⟩
  exact le_antisymm (hs.le_current e (List.mem_of_getElem? he)) (not_lt.mp hcur)

/-- The indices that can be committed form an interval. -/
theorem Committable.between {w : RaftWorker Leader Cmd} (hs : TermsSorted w.inner.storage)
    {k m n : ℕ} (hk : Committable w k) (hn : Committable w n) (hkm : k ≤ m) (hmn : m ≤ n) :
    Committable w m := by
  obtain ⟨-, f, hf, hfcur⟩ := hk
  obtain ⟨-, g, hg, -⟩ := id hn
  obtain ⟨hkl, rfl⟩ := List.getElem?_eq_some_iff.mp hf
  obtain ⟨hnl, -⟩ := List.getElem?_eq_some_iff.mp hg
  have hml : m - 1 < w.inner.storage.log.length := by omega
  refine hn.of_le hs hmn (List.getElem?_eq_getElem hml) (not_lt.mpr ?_)
  rw [← hfcur]
  obtain heq | hlt := (Nat.sub_le_sub_right hkm 1).eq_or_lt
  · simp only [heq, le_refl]
  · exact List.pairwise_iff_getElem.mp hs.sorted _ _ hkl hml hlt

theorem le_quorumIndex {w : RaftWorker Leader Cmd} {n : ℕ} (hn : Committable w n)
    (hlast : n ≤ w.inner.storage.lastLogIndex) : n ≤ quorumIndex w :=
  Nat.le_findGreatest hlast hn

theorem quorumIndex_spec {w : RaftWorker Leader Cmd} (h : 0 < quorumIndex w) :
    Committable w (quorumIndex w) :=
  Nat.findGreatest_of_ne_zero rfl h.ne'

/-- Where a walk up from the commit index over indices that can be committed ends. -/
theorem eq_max_quorumIndex_iff {w : RaftWorker Leader Cmd} (h : w.inner.storage.Wf)
    (hs : TermsSorted w.inner.storage) {c : ℕ} (hle : w.inner.commitIndex ≤ c)
    (hlast : c ≤ w.inner.commitIndex ∨ c ≤ w.inner.storage.log.length)
    (hall : ∀ n, w.inner.commitIndex < n → n ≤ c → Committable w n)
    (hend : c < w.inner.storage.lastLogIndex → ¬Committable w (c + 1)) :
    c = max w.inner.commitIndex (quorumIndex w) ↔ ¬Blocked w := by
  rw [h.length_log] at hlast
  have hbelow : w.inner.commitIndex < c → c ≤ quorumIndex w := fun hlt =>
    le_quorumIndex (hall c hlt le_rfl) (by omega)
  constructor
  · rintro heq ⟨⟨e, he, het⟩, n, hn, hnlast, hcomm⟩
    have hq : n ≤ quorumIndex w := le_quorumIndex hcomm hnlast
    obtain ⟨-, f, hf, hft⟩ := hall (w.inner.commitIndex + 1) (by omega) (by omega)
    obtain rfl : e = f := by simpa [he] using hf
    exact het.ne hft
  · intro hfree
    obtain hq | hq := Nat.lt_or_ge w.inner.commitIndex (quorumIndex w)
    · rw [max_eq_right hq.le]
      have hqlast : quorumIndex w ≤ w.inner.storage.lastLogIndex := Nat.findGreatest_le _
      have hcomm : Committable w (quorumIndex w) := quorumIndex_spec (by omega)
      -- the walk does not end below the quorum's index, wherever it is by then
      have hnext : ∀ {m}, Committable w m → m ≤ c + 1 → ¬c < quorumIndex w := fun hm hmc hlt =>
        hend (by omega) (hm.between hs hcomm hmc hlt)
      obtain heq | hlt := hle.eq_or_lt
      · have hlen : w.inner.commitIndex < w.inner.storage.log.length := by
          rw [h.length_log]
          omega
        have hget := List.getElem?_eq_getElem hlen
        have hfirst : Committable w (w.inner.commitIndex + 1) :=
          hcomm.of_le hs hq hget fun hold => hfree ⟨⟨_, hget, hold⟩, _, hq, hqlast, hcomm⟩
        have := hnext hfirst (by omega)
        omega
      · have := hnext (hall c hlt le_rfl) (by omega)
        have := hbelow hlt
        omega
    · rw [max_eq_left hq]
      omega

end Leader

open Leader

variable {Cmd : Type} [Bincode (LogEntry Cmd)]

/-- **The commit rule.** `advance_commit_index` never panics, and it leaves the commit index at the
maximum of its old value and the largest index with an entry of the current term that a quorum has
if and only if no entry of an earlier term right behind the commit index blocks it. -/
theorem commit_rule_exact_iff {w : RaftWorker Leader Cmd} (h : w.inner.storage.Wf)
    (hs : TermsSorted w.inner.storage) :
    ∃ w', advanceCommitIndex.run w = .ok () w' ∧
      (w'.inner.commitIndex = max w.inner.commitIndex (quorumIndex w) ↔ ¬Blocked w) := by
  obtain ⟨c, answers, waiting, hle, hlast, hall, hend, -, hrun⟩ := advanceCommitIndex_eq h
  exact ⟨_, hrun, eq_max_quorumIndex_iff h hs hle hlast hall hend⟩

/-- A log with an entry of term `1` and an entry of term `2`, in term `2`. -/
def Storage.inherited : Storage ℕ :=
  (({ sessionKey := 1, lastLogIndex := 0, currentTerm := 0, votedFor := none, storage := [] } :
    Storage ℕ).setCurrentTerm 2 |>.appended ⟨5, 1, 1⟩).appended ⟨6, 2, 2⟩

/-- The leader of two nodes in term `2`, with the inherited log and a commit index. -/
def Leader.resumed (commitIndex : ℕ) : RaftWorker Leader ℕ where
  inner :=
    { leaderId := some 0
      nodeId := 0
      sessionKey := 1
      clusterSize := 2
      peers := [1]
      peerClients := [⟨1, { connected := true }⟩].toAList
      commitIndex
      lastApplied := 0
      storage := Storage.inherited
      stateMachineTx := []
      forwarded := []
      transport := { calls := [], answers := [] } }
  state :=
    { nextIndices := [⟨1, 3⟩].toAList
      matchIndices := [⟨1, 2⟩].toAList
      inFlightClientRequests := ∅
      inFlightPeers := ∅
      responsesRx := [] }

theorem Storage.wf_inherited : Storage.inherited.Wf :=
  wf_appended (wf_appended (wf_setCurrentTerm (wf_empty 1) 2) rfl) rfl

theorem Storage.log_inherited : Storage.inherited.log = [⟨5, 1, 1⟩, ⟨6, 2, 2⟩] := by
  rw [inherited, log_appended, log_appended, log_setCurrentTerm]
  rfl

theorem Storage.termsSorted_inherited : TermsSorted Storage.inherited where
  sorted := by simp [log_inherited]
  le_current e he := by
    rw [log_inherited, List.mem_cons, List.mem_singleton] at he
    obtain rfl | rfl := he
    · exact Nat.le_succ 1
    · exact le_rfl

/-- Both entries are on both nodes, and the first one was committed before. -/
theorem commit_rule_exact_iff_resumed : ∃ w', advanceCommitIndex.run (resumed 1) = .ok () w' ∧
    (w'.inner.commitIndex = max 1 (quorumIndex (resumed 1)) ↔ ¬Blocked (resumed 1)) :=
  commit_rule_exact_iff (w := resumed 1) Storage.wf_inherited Storage.termsSorted_inherited

/-- Both entries are on both nodes, and neither is ever committed. -/
theorem not_commitRuleExact : ¬∀ w : RaftWorker Leader ℕ, w.inner.storage.Wf →
    TermsSorted w.inner.storage → w.inner.commitIndex ≤ w.inner.storage.lastLogIndex →
    (∀ p ∈ w.state.matchIndices.entries, p.2 ≤ w.inner.storage.lastLogIndex) →
    ∃ w', advanceCommitIndex.run w = .ok () w' ∧
      w'.inner.commitIndex = max w.inner.commitIndex (quorumIndex w) := by
  intro h
  obtain ⟨w', hrun, hexact⟩ := h (resumed 0) Storage.wf_inherited Storage.termsSorted_inherited
    (Nat.zero_le _) (by decide)
  obtain ⟨c, _, _, hle, hlast, hall, hend, -, hrun₀⟩ :=
    advanceCommitIndex_eq (w := resumed 0) Storage.wf_inherited
  obtain ⟨-, rfl⟩ := EStateM.Result.ok.inj (hrun.symm.trans hrun₀)
  refine (eq_max_quorumIndex_iff Storage.wf_inherited Storage.termsSorted_inherited hle hlast
    hall hend).mp hexact ⟨⟨⟨5, 1, 1⟩, ?_, Nat.lt_succ_self 1⟩, 2, Nat.zero_lt_two, le_rfl, ?_⟩
  · exact congrArg (·[0]?) Storage.log_inherited
  · exact ⟨by decide, ⟨6, 2, 2⟩, congrArg (·[1]?) Storage.log_inherited, rfl⟩

end Wraft
