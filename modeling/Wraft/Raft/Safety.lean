import Wraft.Raft.History

/-!
# Safety of a cluster

What holds in every run of a cluster, whatever is lost, delayed or reordered and whichever nodes
restart:

* `election_safety` — at most one node is elected in a term;
* `log_matching` — logs that share an entry's term at an index agree up to it, and terms do not
  decrease along a log;
* `commit_evidence` — what a leader counts as matched is in its follower's log, and what it
  commits was held by a quorum.

Two further properties do not hold in every run. Since voters compare the candidate's last index
with their own commit index only, an entry that a majority holds and a client was told of can be
lost (`not_stateMachineSafe`, `not_durable`); in runs where every vote goes to a candidate with an
up to date log, no two state machines diverge (`state_machine_safety`) and no acknowledged entry
is lost (`acknowledged_durable`). And since the range of an empty request starts one index early,
a leader with a single entry can underflow (`not_bookkeepingSafe`); without such refusals its
bookkeeping is in order (`bookkeeping_safe`).
-/

namespace Wraft

open Consensus TransitionSystem

section

variable {Cmd : Type} [Bincode (LogEntry Cmd)] {cfg : Config} {r : List (Cluster Cmd)}
  {c c' : Cluster Cmd} {i j : NodeId}

/-- Any run is simulated without assumptions. -/
theorem Cluster.IsRun.sim (hr : Cluster.IsRun cfg r) :
    ∃ a, Reached cfg ⟨False, False⟩ a ∧
      (∀ c, r.head? = some c → Sim cfg ⟨False, False⟩ c a) ∧ History cfg ⟨False, False⟩ r a :=
  Cluster.IsRunWhere.sim (fun _ _ _ => ⟨False.elim, False.elim⟩) hr

/-- A run whose votes go to candidates with an up to date log. -/
theorem sim_of_upToDate (hr : Cluster.IsRunWhere cfg (fun c a => c.grantsOutdated a = false) r) :
    ∃ a, Reached cfg ⟨True, False⟩ a ∧
      (∀ c, r.head? = some c → Sim cfg ⟨True, False⟩ c a) ∧ History cfg ⟨True, False⟩ r a :=
  Cluster.IsRunWhere.sim (fun _ _ h => ⟨fun _ => h, False.elim⟩) hr

/-! ### Runs of three nodes -/

/-- Node `0` is elected with the vote of node `1`, which also takes the entry of a client's
request; node `0` commits and applies it. -/
def commitActions : List (Action ℕ) :=
  [.electionTimeout 0, .deliver 0 0, .receive 0 0, .client 0 (.apply 5), .deliver 0 2,
    .receive 0 2, .advanceCommitIndex 0, .applyLog 0]

/-- Node `1` hears of the commit and applies the entry too. -/
def agreeingActions : List (Action ℕ) :=
  commitActions ++ [.heartbeat 0, .deliver 0 4, .applyLog 1]

/-- Node `1`, which has the entry, is elected after node `0`. -/
def keepingActions : List (Action ℕ) :=
  commitActions ++ [.electionTimeout 1, .deliver 1 1, .receive 1 1]

/-- Node `2`, which has heard nothing, is elected after node `0` with the vote of node `1`. -/
def losingActions : List (Action ℕ) :=
  commitActions ++ [.electionTimeout 2, .electionTimeout 2, .deliver 2 3, .receive 2 3]

/-- Node `2` then commits and applies an entry of its own. -/
def divergingActions : List (Action ℕ) :=
  losingActions ++ [.client 2 (.apply 6), .deliver 2 5, .receive 2 5, .advanceCommitIndex 2,
    .applyLog 2]

/-! ### Elections -/

/-- Node `i` becomes leader in the step of the run `r` that leads to `c`. -/
def BecomesLeader (cfg : Config) (r : List (Cluster Cmd)) (c : Cluster Cmd) (i : NodeId) : Prop :=
  i ∈ cfg.ids ∧ ∃ c₀ w₀ w, Moves r c₀ c ∧ c₀.CandidateAt i w₀ ∧ c.LeaderAt i w

theorem BecomesLeader.elected {g : Guard} {a : Spec Cmd} (h : BecomesLeader cfg r c i)
    (hist : History cfg g r a) : a.leader (c.currentTerm i) = some i ∧
      (c.storage i).log <+: a.leaderLog (c.currentTerm i) ∧
      ∃ l, a.stood i (c.currentTerm i) = some l ∧ l <+: (c.storage i).log := by
  obtain ⟨hi, c₀, w₀, w, hm, -, hw⟩ := h
  exact (hist.witness c hm.mem_right).leader i hi w hw

/-- **Election safety.** At most one node becomes leader in a term. -/
theorem election_safety (hr : Cluster.IsRun cfg r) (t : ℕ) :
    {i | ∃ c, BecomesLeader cfg r c i ∧ c.currentTerm i = t}.Subsingleton := by
  obtain ⟨a, -, -, hist⟩ := hr.sim
  rintro i ⟨c, hc, rfl⟩ j ⟨d, hd, hterm⟩
  have hi := (hc.elected hist).1
  have hj := (hd.elected hist).1
  rw [hterm] at hj
  exact Option.some.inj (hi.symm.trans hj)

omit [Bincode (LogEntry Cmd)] in
/-- Two neighbours of a run show that a node becomes leader. -/
theorem becomesLeader_of_getElem? {k : ℕ} (hi : i ∈ cfg.ids) (hc : r[k + 1]? = some c)
    (hc' : r[k]? = some c') (hw : (c.candidate? i).isSome) (hw' : (c'.leader? i).isSome) :
    BecomesLeader cfg r c' i := by
  obtain ⟨w, hw⟩ := Option.isSome_iff_exists.mp hw
  obtain ⟨w', hw'⟩ := Option.isSome_iff_exists.mp hw'
  exact ⟨hi, c, w, w', moves_of_getElem? hc' hc, Cluster.candidateAt_of_candidate? hw,
    Cluster.leaderAt_of_leader? hw'⟩

theorem election_safety_run : ∃ r : List (Cluster ℕ), Cluster.IsRun (.ofSize 3) r ∧
    (∃ c, BecomesLeader (Config.ofSize 3) r c 0 ∧ c.currentTerm 0 = 1) ∧
    {i | ∃ c, BecomesLeader (Config.ofSize 3) r c i ∧ c.currentTerm i = 1}.Subsingleton := by
  obtain ⟨r, -, hr, hf⟩ := Cluster.exists_run_of_play (.ofSize 3)
    (fun _ _ => false) (commitActions.take 3)
    (fun r => r[1]?.any fun c => r[0]?.any fun c' =>
      (c.candidate? 0).isSome && (c'.leader? 0).isSome && c'.currentTerm 0 = 1)
    (by decide +kernel)
  simp only [Option.any_eq_true, Bool.and_eq_true, decide_eq_true_eq] at hf
  obtain ⟨c, hc, c', hc', ⟨hw, hw'⟩, ht⟩ := hf
  exact ⟨r, hr.isRun, ⟨c', becomesLeader_of_getElem? (by decide) hc hc' hw hw', ht⟩,
    election_safety hr.isRun 1⟩

/-! ### Logs -/

/-- The logs of a cluster match, and terms do not decrease along them. -/
structure LogMatching (cfg : Config) (c : Cluster Cmd) : Prop where
  agree : ∀ i ∈ cfg.ids, ∀ j ∈ cfg.ids, ∀ n e f, (c.storage i).getLog n = .ok (some e) →
    (c.storage j).getLog n = .ok (some f) → e.term = f.term → ∀ m, 1 ≤ m → m ≤ n →
      ∃ x, (c.storage i).getLog m = .ok (some x) ∧ (c.storage j).getLog m = .ok (some x)
  ascending : ∀ i ∈ cfg.ids, ∀ m n e f, m ≤ n → (c.storage i).getLog m = .ok (some e) →
    (c.storage i).getLog n = .ok (some f) → e.term ≤ f.term ∧ f.term ≤ c.currentTerm i

theorem Storage.Wf.getLog_eq_some {s : Storage Cmd} (h : s.Wf) {n : ℕ} {e : LogEntry Cmd} :
    s.getLog n = .ok (some e) ↔ 0 < n ∧ s.log[n - 1]? = some e := by
  rw [h.getLog_eq]
  rcases Nat.eq_zero_or_pos n with rfl | hn
  · simp
  · rw [if_neg (by omega)]
    simp [hn]

/-- **Log matching.** -/
theorem log_matching (hr : Cluster.IsRun cfg r) : ∀ c ∈ r, LogMatching cfg c := by
  intro c hc
  obtain ⟨q, hq, -⟩ := TransitionSystem.IsRun.of_mem hr hc
  obtain ⟨a, ha, hsim, -⟩ := Cluster.IsRun.sim hq
  have hinner : ∀ i ∈ cfg.ids, InnerSim cfg ⟨False, False⟩ c.replies a i (c.inner i) :=
    fun i hi => ((hsim c rfl).nodes i hi).inner
  have hget : ∀ i ∈ cfg.ids, ∀ n e, (c.storage i).getLog n = .ok (some e) ↔
      0 < n ∧ (a.log i)[n - 1]? = some e := by
    intro i hi n e
    rw [← (hinner i hi).log]
    exact (hinner i hi).wf.getLog_eq_some
  refine ⟨fun i hi j hj n e f he hf ht m hm hmn => ?_, fun i hi m n e f hmn he hf => ?_⟩
  · obtain ⟨hn, he⟩ := (hget i hi n e).mp he
    have hf := ((hget j hj n f).mp hf).2
    have htake := ha.inv.take_log_eq he hf ht
    have hlt : m - 1 < (a.log i).length := by
      have := (List.getElem?_eq_some_iff.mp he).1
      omega
    have hx := congrArg (·[m - 1]?) htake
    simp only [List.getElem?_take, show m - 1 < n - 1 + 1 by omega, if_true] at hx
    rw [List.getElem?_eq_getElem hlt] at hx
    exact ⟨(a.log i)[m - 1], (hget i hi m _).mpr ⟨hm, List.getElem?_eq_getElem hlt⟩,
      (hget j hj m _).mpr ⟨hm, hx.symm⟩⟩
  · obtain ⟨hm, he⟩ := (hget i hi m e).mp he
    have hf := ((hget i hi n f).mp hf).2
    refine ⟨ha.inv.log_ascending i (m - 1) (n - 1) e f (by omega) he hf, ?_⟩
    have hterm : c.currentTerm i = a.term i := (hinner i hi).term
    rw [hterm]
    exact (ha.inv.log_genuine i).2 f (List.mem_of_getElem? hf)

theorem log_matching_run : ∃ r : List (Cluster ℕ), Cluster.IsRun (.ofSize 3) r ∧
    (∃ c ∈ r, (c.storage 0).getLog 1 = .ok (some ⟨5, 1, 1⟩) ∧
      (c.storage 1).getLog 1 = .ok (some ⟨5, 1, 1⟩)) ∧
    ∀ c ∈ r, LogMatching (Config.ofSize 3) c := by
  obtain ⟨r, -, hr, hf⟩ := Cluster.exists_run_of_play (.ofSize 3)
    (fun _ _ => false) commitActions
    (fun r => r.any fun c => (c.storage 0).getLog 1 = .ok (some ⟨5, 1, 1⟩) ∧
      (c.storage 1).getLog 1 = .ok (some ⟨5, 1, 1⟩))
    (by decide +kernel)
  simp only [List.any_eq_true, decide_eq_true_eq] at hf
  exact ⟨r, hr.isRun, hf, log_matching hr.isRun⟩

/-- The leaders of the cluster `c` at the end of the run `r` have only ever appended to their logs,
and every entry of their term is one of theirs. -/
structure LeaderAppendOnly (cfg : Config) (r : List (Cluster Cmd)) (c : Cluster Cmd) : Prop where
  grows : ∀ i ∈ cfg.ids, ∀ w, c.LeaderAt i w → ∀ d ∈ r, ∀ j ∈ cfg.ids, ∀ v, d.LeaderAt j v →
    d.currentTerm j = c.currentTerm i → j = i ∧ (d.storage j).log <+: (c.storage i).log
  entries : ∀ i ∈ cfg.ids, ∀ w, c.LeaderAt i w → ∀ j ∈ cfg.ids, ∀ n e,
    (c.storage j).log[n]? = some e → e.term = c.currentTerm i →
      (c.storage j).log.take (n + 1) <+: (c.storage i).log

/-- **A leader only appends to its log**, and the entries of its term that other nodes have are
behind the same entries as in its log. -/
theorem leader_append_only (hr : Cluster.IsRun cfg (c :: r)) :
    LeaderAppendOnly cfg (c :: r) c := by
  obtain ⟨a, ha, hsim, hist⟩ := Cluster.IsRun.sim hr
  have hs := hsim c rfl
  have hlog : ∀ i ∈ cfg.ids, ∀ w, c.LeaderAt i w → (c.storage i).log =
      a.leaderLog (c.currentTerm i) := by
    intro i hi w hw
    rw [show c.currentTerm i = a.term i from (hs.nodes i hi).inner.term, Cluster.storage, hw.inner]
    exact (hs.leading hi hw).log_eq ha
  refine ⟨fun i hi w hw d hd j hj v hv hterm => ?_, fun i hi w hw j hj n e he hterm => ?_⟩
  · obtain ⟨hlead, hpre, -⟩ := (hist.witness d hd).leader j hj v hv
    obtain ⟨hlead', -⟩ := (hist.witness c List.mem_cons_self).leader i hi w hw
    rw [hterm] at hlead hpre
    exact ⟨Option.some.inj (hlead.symm.trans hlead'), (hlog i hi w hw).symm ▸ hpre⟩
  · rw [hlog i hi w hw, ← hterm]
    have hj := (hs.nodes j hj).inner.log
    rw [show (c.storage j).log = a.log j from hj] at he ⊢
    obtain ⟨-, htake⟩ := (ha.inv.log_genuine j).1 n e he
    exact htake ▸ List.take_prefix _ _

theorem leader_append_only_run : ∃ (c d : Cluster ℕ) (r : List (Cluster ℕ)),
    Cluster.IsRun (.ofSize 3) (c :: r) ∧ LeaderAppendOnly (Config.ofSize 3) (c :: r) c ∧ d ∈ r ∧
    (d.leader? 0).isSome ∧ (c.leader? 0).isSome ∧ (d.storage 0).log = [] ∧
    (c.storage 0).log = [⟨5, 1, 1⟩] ∧ (c.storage 1).log = [⟨5, 1, 1⟩] := by
  obtain ⟨r, -, hr, hf⟩ := Cluster.exists_run_of_play (.ofSize 3)
    (fun _ _ => false) commitActions
    (fun r => r.head?.any fun c => r.tail.any fun d =>
      (d.leader? 0).isSome ∧ (c.leader? 0).isSome ∧ (d.storage 0).log = [] ∧
        (c.storage 0).log = [⟨5, 1, 1⟩] ∧ (c.storage 1).log = [⟨5, 1, 1⟩])
    (by decide +kernel)
  cases r with
  | nil => cases hf
  | cons c r =>
    simp only [List.head?_cons, Option.any_some, List.tail_cons, List.any_eq_true,
      decide_eq_true_eq] at hf
    obtain ⟨d, hd, hf⟩ := hf
    exact ⟨c, d, r, hr.isRun, leader_append_only hr.isRun, hd, hf⟩

/-! ### What a leader knows -/

/-- What the leaders of `c` count as matched is matched, and what they commit in a step from `c`
was held by a quorum. The run up to `c` is `r`. -/
structure CommitEvidence (cfg : Config) (r : List (Cluster Cmd)) (c : Cluster Cmd) : Prop where
  matched : ∀ i ∈ cfg.ids, ∀ w, c.LeaderAt i w → ∀ p ∈ w.inner.peers, ∀ m,
    w.state.matchIndices.lookup p = some m → c.currentTerm p = c.currentTerm i →
    ∀ n, 1 ≤ n → n ≤ m →
      ∃ e, (c.storage p).getLog n = .ok (some e) ∧ (c.storage i).getLog n = .ok (some e)
  committed : ∀ i c' w w', c.exec cfg (.advanceCommitIndex i) = some c' → c.LeaderAt i w →
    c'.LeaderAt i w' → ∀ n, w.inner.commitIndex < n → n ≤ w'.inner.commitIndex →
      (∃ e, (c.storage i).getLog n = .ok (some e) ∧ e.term = c.currentTerm i) ∧
      ∃ Q : Finset NodeId, Q ⊆ cfg.ids ∧ i ∈ Q ∧ w.inner.quorum ≤ Q.card ∧
        ∀ q ∈ Q, ∃ d ∈ r, d.currentTerm q = c.currentTerm i ∧ ∀ m, 1 ≤ m → m ≤ n →
          ∃ e, (d.storage q).getLog m = .ok (some e) ∧ (c.storage i).getLog m = .ok (some e)

/-- Storages stay well formed along a run. -/
theorem wf_of_mem (hr : Cluster.IsRun cfg r) (hc : c ∈ r) (hi : i ∈ cfg.ids) :
    (c.storage i).Wf := by
  obtain ⟨q, hq, -⟩ := TransitionSystem.IsRun.of_mem hr hc
  obtain ⟨a, -, hsim, -⟩ := Cluster.IsRun.sim hq
  exact ((hsim c rfl).nodes i hi).inner.wf

/-- Two storages whose logs share a long enough prefix of a third log read the same there. -/
theorem getLog_of_prefix {s s' : Storage Cmd} (hs : s.Wf) (hs' : s'.Wf) {L : List (LogEntry Cmd)}
    {k n : ℕ} (hL : L.take k <+: s.log) (hL' : L.take k <+: s'.log) (hk : k ≤ L.length)
    (hpos : 1 ≤ n) (hn : n ≤ k) : ∃ e, s.getLog n = .ok (some e) ∧ s'.getLog n = .ok (some e) := by
  have hlt : n - 1 < L.length := by omega
  have hget : ∀ {l : List (LogEntry Cmd)}, L.take k <+: l → l[n - 1]? = some L[n - 1] := by
    rintro l ⟨t, rfl⟩
    rw [List.getElem?_append_left (by rw [List.length_take]; omega),
      List.getElem?_take_of_lt (by omega), List.getElem?_eq_getElem hlt]
  exact ⟨L[n - 1], hs.getLog_eq_some.mpr ⟨hpos, hget hL⟩, hs'.getLog_eq_some.mpr ⟨hpos, hget hL'⟩⟩

/-- **Commit evidence.** -/
theorem commit_evidence (hr : Cluster.IsRun cfg (c :: r)) : CommitEvidence cfg (c :: r) c := by
  obtain ⟨a, ha, hsim, hist⟩ := Cluster.IsRun.sim hr
  have hs := hsim c rfl
  have hterm : ∀ i ∈ cfg.ids, c.currentTerm i = a.term i := fun i hi => (hs.nodes i hi).inner.term
  have hleader : ∀ {i w k}, i ∈ cfg.ids → c.LeaderAt i w →
      (a.leaderLog (a.term i)).take k <+: (c.storage i).log := by
    intro i w k hi hw
    have hlog := (hs.leading hi hw).log_eq ha
    rw [Cluster.storage, hw.inner, hlog]
    exact List.take_prefix _ _
  refine ⟨fun i hi w hw p _ m hm hpt n hpos hn => ?_, fun i c' w w' hexec hw hw' n hlt hle => ?_⟩
  · obtain ⟨hp, -, hack⟩ := (hs.leading hi hw).leader.acked hm
    rw [hterm p hp, hterm i hi] at hpt
    have hlog := ha.inv.acked_log p
    rw [← (hs.nodes p hp).inner.log, hpt] at hlog
    exact getLog_of_prefix (hs.nodes p hp).inner.wf (hs.nodes i hi).inner.wf hlog (hleader hi hw)
      (ha.inv.acked_le p _) hpos (hn.trans hack)
  · obtain ⟨hi, hrun⟩ := run_of_exec_advance hexec hw hw'
    have hlead := hs.leading hi hw
    obtain ⟨n', answers, waiting, -, -, hall, -, -, hrun'⟩ :=
      Leader.advanceCommitIndex_eq hlead.inner.wf
    obtain ⟨-, rfl⟩ := EStateM.Result.ok.inj (hrun.symm.trans hrun')
    have hcommit := hall n hlt hle
    obtain ⟨Q, hQ, hiQ, hquorum, hack⟩ := hlead.exists_majority hi ha hcommit
    obtain ⟨-, e, he, het⟩ := hcommit
    rw [hterm i hi]
    refine ⟨⟨e, ?_, het.trans hlead.inner.term⟩, Q, hQ.1, hiQ, hquorum, fun q hq => ?_⟩
    · refine (hs.nodes i hi).inner.wf.getLog_eq_some.mpr ⟨by omega, ?_⟩
      rw [← he, ← hw.inner]
      rfl
    · have hqids := hQ.1 hq
      have hnq := hack q hq
      obtain ⟨d, hd, hdt, hpre⟩ := hist.held q hqids (a.term i) (by omega)
      exact ⟨d, hd, hdt, fun m hpos hm => getLog_of_prefix (wf_of_mem hr hd hqids)
        (hs.nodes i hi).inner.wf hpre (hleader hi hw) (ha.inv.acked_le q _) hpos (hm.trans hnq)⟩

/-- Node `1` has matched the entry that node `0` is about to commit. -/
theorem commit_evidence_run : ∃ (c c' : Cluster ℕ) (r : List (Cluster ℕ))
    (w w' : RaftWorker Leader ℕ),
    Cluster.IsRun (.ofSize 3) (c :: r) ∧
    c.exec (.ofSize 3) (.advanceCommitIndex 0) = some c' ∧ c.LeaderAt 0 w ∧ c'.LeaderAt 0 w' ∧
    w.state.matchIndices.lookup 1 = some 1 ∧ w.inner.commitIndex = 0 ∧ w'.inner.commitIndex = 1 ∧
    CommitEvidence (.ofSize 3) (c :: r) c := by
  obtain ⟨r, -, hr, hf⟩ := Cluster.exists_run_of_play (.ofSize 3)
    (fun _ _ => false) (commitActions.take 6)
    (fun r => r.head?.any fun c => (c.exec (.ofSize 3) (.advanceCommitIndex 0)).any fun c' =>
      (c.leader? 0).any fun w => (c'.leader? 0).any fun w' =>
        w.state.matchIndices.lookup 1 = some 1 ∧ w.inner.commitIndex = 0 ∧
          w'.inner.commitIndex = 1)
    (by decide +kernel)
  simp only [Option.any_eq_true, decide_eq_true_eq] at hf
  obtain ⟨c, hc, c', hexec, w, hw, w', hw', hf⟩ := hf
  obtain ⟨r, rfl⟩ := List.head?_eq_some_iff.mp hc
  exact ⟨c, c', r, w, w', hr.isRun, hexec, Cluster.leaderAt_of_leader? hw,
    Cluster.leaderAt_of_leader? hw', hf.1, hf.2.1, hf.2.2, commit_evidence hr.isRun⟩

/-! ### What clients and state machines are told -/

/-- No two nodes have ever applied different entries at an index. -/
def StateMachineSafe (cfg : Config) (r : List (Cluster Cmd)) : Prop :=
  ∀ c ∈ r, ∀ d ∈ r, ∀ i ∈ cfg.ids, ∀ j ∈ cfg.ids,
    (∀ e ∈ (c.inner i).stateMachineTx, ∀ f ∈ (d.inner j).stateMachineTx, e.idx = f.idx → e = f) ∧
    ((c.inner i).stateMachineTx <+: (d.inner j).stateMachineTx ∨
      (d.inner j).stateMachineTx <+: (c.inner i).stateMachineTx)

omit [Bincode (LogEntry Cmd)] in
theorem Indexed.eq_of_prefix {l l' : List (LogEntry Cmd)} (h' : Indexed l') (hp : l <+: l')
    {e f : LogEntry Cmd} (he : e ∈ l) (hf : f ∈ l') (heq : e.idx = f.idx) : e = f := by
  obtain ⟨m, hm⟩ := List.mem_iff_getElem?.mp (hp.subset he)
  obtain ⟨n, hn⟩ := List.mem_iff_getElem?.mp hf
  have h1 := h' m e hm
  have h2 := h' n f hn
  obtain rfl : m = n := by omega
  exact Option.some.inj (hm.symm.trans hn)

/-- **State machine safety**, in runs whose votes go to candidates with an up to date log. -/
theorem state_machine_safety
    (hr : Cluster.IsRunWhere cfg (fun c a => c.grantsOutdated a = false) r) :
    StateMachineSafe cfg r := by
  obtain ⟨a, ha, -, hist⟩ := sim_of_upToDate hr
  have hcomplete : Complete LogEntry.term cfg.ids a := (ha.mono fun _ _ h => h trivial).complete
  intro c hc d hd i hi j hj
  obtain ⟨hci, t, hct⟩ := (hist.witness c hc).applied trivial i hi
  obtain ⟨hdj, t', hdt⟩ := (hist.witness d hd).applied trivial j hj
  have hpre := hct.prefix_or_prefix hcomplete ha.inv hdt
  refine ⟨fun e he f hf heq => ?_, hpre⟩
  rcases hpre with hp | hp
  · exact hdj.eq_of_prefix hp he hf heq
  · exact (hci.eq_of_prefix hp hf he heq.symm).symm

theorem state_machine_safety_run : ∃ r : List (Cluster ℕ),
    Cluster.IsRunWhere (.ofSize 3) (fun c a => c.grantsOutdated a = false) r ∧
    (∃ c ∈ r, (c.inner 0).stateMachineTx = [⟨5, 1, 1⟩] ∧
      (c.inner 1).stateMachineTx = [⟨5, 1, 1⟩]) ∧
    StateMachineSafe (.ofSize 3) r := by
  obtain ⟨r, -, hr, hf⟩ := Cluster.exists_run_of_play (.ofSize 3)
    Cluster.grantsOutdated agreeingActions
    (fun r => r.any fun c => (c.inner 0).stateMachineTx = [⟨5, 1, 1⟩] ∧
      (c.inner 1).stateMachineTx = [⟨5, 1, 1⟩])
    (by decide +kernel)
  simp only [List.any_eq_true, decide_eq_true_eq] at hf
  exact ⟨r, hr, hf, state_machine_safety hr⟩

/-- Node `0` and node `2` can apply different entries at index `1`. -/
theorem not_stateMachineSafe : ¬∀ r : List (Cluster ℕ), Cluster.IsRun (.ofSize 3) r →
    StateMachineSafe (.ofSize 3) r := by
  intro h
  obtain ⟨r, -, hr, hf⟩ := Cluster.exists_run_of_play (.ofSize 3)
    (fun _ _ => false) divergingActions
    (fun r => r.head?.any fun c => (c.inner 0).stateMachineTx = [⟨5, 1, 1⟩] ∧
      (c.inner 2).stateMachineTx = [⟨6, 2, 1⟩])
    (by decide +kernel)
  simp only [Option.any_eq_true, decide_eq_true_eq] at hf
  obtain ⟨c, hc, h0, h2⟩ := hf
  have hmem := List.mem_of_head? hc
  have heq := (h r hr.isRun c hmem c hmem 0 (by decide) 2 (by decide)).1
    ⟨5, 1, 1⟩ (by simp [h0]) ⟨6, 2, 1⟩ (by simp [h2]) rfl
  cases heq

/-- Every node that becomes leader has what the leader of an earlier term has acknowledged to a
client. -/
def Durable (cfg : Config) (r : List (Cluster Cmd)) : Prop :=
  ∀ c c' i n, Moves r c c' → c.Acks cfg c' i n → ∀ d j, BecomesLeader cfg r d j →
    c.currentTerm i < d.currentTerm j → ∃ e, (c.storage i).getLog n = .ok (some e) ∧
      e.term = c.currentTerm i ∧ (d.storage j).getLog n = .ok (some e)

/-- **Durability of acknowledged entries**, in runs whose votes go to candidates with an up to
date log. -/
theorem acknowledged_durable
    (hr : Cluster.IsRunWhere cfg (fun c a => c.grantsOutdated a = false) r) : Durable cfg r := by
  obtain ⟨a, ha, -, hist⟩ := sim_of_upToDate hr
  have hcomplete : Complete LogEntry.term cfg.ids a := (ha.mono fun _ _ h => h trivial).complete
  intro c c' i n hm hack d j hd hterm
  have hi : i ∈ cfg.ids := by
    have hexec := hack.1
    simp only [Cluster.exec] at hexec
    split_ifs at hexec with hi
    exact hi
  obtain ⟨hpos, e, he, het, hlead, hch⟩ := hist.acks hm hack
  obtain ⟨hj, hlog, l, hstood, hl⟩ := hd.elected hist
  -- the later leader has the entry somewhere in its term, and stood for election with it
  have hpre := hch.prefix_leaderLog hcomplete hterm.le (by simp [hj])
  have hmem : (a.leaderLog (d.currentTerm j))[n - 1]? = some e := by
    obtain ⟨s, hs⟩ := hpre
    rw [← hs, List.getElem?_append_left (by
      have := (List.getElem?_eq_some_iff.mp hlead).1
      rw [List.length_take]
      omega), List.getElem?_take_of_lt (by omega), hlead]
  obtain ⟨l', s, hstood', heq, hs⟩ := ha.leaderLog_eq hj
  obtain rfl : l = l' := Option.some.inj (hstood.symm.trans hstood')
  have hstart : l[n - 1]? = some e := by
    rw [heq] at hmem
    rcases Nat.lt_or_ge (n - 1) l.length with hlt | hge
    · rwa [List.getElem?_append_left hlt] at hmem
    · rw [List.getElem?_append_right hge] at hmem
      have := hs e (List.mem_of_getElem? hmem)
      omega
  have hwf := fun {c i} (hc : c ∈ r) (hi : i ∈ cfg.ids) =>
    wf_of_mem (Cluster.IsRunWhere.isRun hr) (c := c) (i := i) hc hi
  refine ⟨e, (hwf hm.mem_left hi).getLog_eq_some.mpr ⟨hpos, he⟩, het, ?_⟩
  obtain ⟨hjids, c₀, -, -, hmd, -, -⟩ := hd
  refine (hwf hmd.mem_right hjids).getLog_eq_some.mpr ⟨hpos, ?_⟩
  obtain ⟨t, ht⟩ := hl
  rw [← ht, List.getElem?_append_left (List.getElem?_eq_some_iff.mp hstart).1, hstart]

/-- In the step of the run `r` that leads to its state `k`, leader `i` answers the client that
waits for index `n`. -/
def answered (r : List (Cluster Cmd)) (k : ℕ) (i : NodeId) (n : ℕ) : Bool :=
  (r[k + 1]?.bind (·.leader? i)).any fun w => (r[k]?.bind (·.leader? i)).any fun w' =>
    (w.state.inFlightClientRequests.lookup n).any fun tx =>
      w'.state.inFlightClientRequests.lookup n = none ∧
        (tx, .ok .ack) ∈ w'.inner.transport.answers

theorem acks_of_play {bad : Cluster Cmd → Action Cmd → Bool} (as bs : List (Action Cmd)) {n : ℕ}
    (h : play (Cluster.exec cfg) bad (Cluster.boot cfg) []
      (as ++ .advanceCommitIndex i :: bs) = some r)
    (hf : answered r bs.length i n) :
    ∃ c c', r[bs.length + 1]? = some c ∧ r[bs.length]? = some c' ∧ c.Acks cfg c' i n := by
  obtain ⟨c, c', hexec, hc, hc'⟩ := exec_of_play h
  rw [answered, hc, hc'] at hf
  simp only [Option.bind_some, Option.any_eq_true, decide_eq_true_eq] at hf
  obtain ⟨w, hw, w', hw', tx, htx, hf⟩ := hf
  exact ⟨c, c', hc, hc', hexec, w, w', tx, Cluster.leaderAt_of_leader? hw,
    Cluster.leaderAt_of_leader? hw', htx, hf⟩

theorem acknowledged_durable_run : ∃ r : List (Cluster ℕ),
    Cluster.IsRunWhere (.ofSize 3) (fun c a => c.grantsOutdated a = false) r ∧
    (∃ c c' d, Moves r c c' ∧ c.Acks (.ofSize 3) c' 0 1 ∧ BecomesLeader (.ofSize 3) r d 1 ∧
      c.currentTerm 0 < d.currentTerm 1) ∧
    Durable (.ofSize 3) r := by
  obtain ⟨r, hplay, hr, hf⟩ := Cluster.exists_run_of_play (.ofSize 3)
    Cluster.grantsOutdated keepingActions
    (fun r => answered r 4 0 1 && (r[4 + 1]?.any fun c => r[1]?.any fun d => r[0]?.any fun d' =>
      (d.candidate? 1).isSome && (d'.leader? 1).isSome && c.currentTerm 0 < d'.currentTerm 1))
    (by decide +kernel)
  rw [Bool.and_eq_true] at hf
  obtain ⟨c, c', hc, hc', hack⟩ :=
    acks_of_play (commitActions.take 6) (keepingActions.drop 7) hplay hf.1
  have hf := hf.2
  rw [show r[4 + 1]? = some c from hc] at hf
  simp only [Option.any_some, Option.any_eq_true, Bool.and_eq_true, decide_eq_true_eq] at hf
  obtain ⟨d, hd, d', hd', ⟨hw, hw'⟩, hlt⟩ := hf
  exact ⟨r, hr, ⟨c, c', d', moves_of_getElem? hc' hc, hack,
    becomesLeader_of_getElem? (by decide) hd hd' hw hw', hlt⟩, acknowledged_durable hr⟩

/-- Node `2` can become leader without the entry that node `0` has acknowledged. -/
theorem not_durable : ¬∀ r : List (Cluster ℕ), Cluster.IsRun (.ofSize 3) r →
    Durable (.ofSize 3) r := by
  intro h
  obtain ⟨r, hplay, hr, hf⟩ := Cluster.exists_run_of_play (.ofSize 3)
    (fun _ _ => false) losingActions
    (fun r => answered r 5 0 1 && (r[5 + 1]?.any fun c => r[1]?.any fun d => r[0]?.any fun d' =>
      (d.candidate? 2).isSome && (d'.leader? 2).isSome && c.currentTerm 0 < d'.currentTerm 2 &&
        (d'.storage 2).getLog 1 = .ok none))
    (by decide +kernel)
  rw [Bool.and_eq_true] at hf
  obtain ⟨c, c', hc, hc', hack⟩ :=
    acks_of_play (commitActions.take 6) (losingActions.drop 7) hplay hf.1
  have hf := hf.2
  rw [show r[5 + 1]? = some c from hc] at hf
  simp only [Option.any_some, Option.any_eq_true, Bool.and_eq_true, decide_eq_true_eq] at hf
  obtain ⟨d, hd, d', hd', ⟨⟨hw, hw'⟩, hlt⟩, hnone⟩ := hf
  obtain ⟨e, -, -, he⟩ := h r hr.isRun c c' 0 1 (moves_of_getElem? hc' hc) hack d' 2
    (becomesLeader_of_getElem? (by decide) hd hd' hw hw') hlt
  cases hnone.symm.trans he

/-! ### A leader's bookkeeping -/

/-- Leaders' indices are in order, and no subtraction or lookup that rests on them has failed. -/
structure BookkeepingSafe (cfg : Config) (c : Cluster Cmd) : Prop where
  indices : ∀ i ∈ cfg.ids, ∀ w, c.LeaderAt i w → ∀ p ∈ w.inner.peers, ∃ next m,
    w.state.nextIndices.lookup p = some next ∧ w.state.matchIndices.lookup p = some m ∧
    1 ≤ next ∧ next ≤ w.inner.storage.lastLogIndex + 1 ∧ m < next
  sound : ∀ i ∈ cfg.ids, (c.nodes i).panicked ≠ some .subOverflow ∧
    (c.nodes i).panicked ≠ some .prevEntry

/-- **The bookkeeping of leaders**, in runs without refusals of empty requests that were sent with
a log of one entry. -/
theorem bookkeeping_safe
    (hr : Cluster.IsRunWhere cfg (fun c a => c.shortProbeRefused a = false) r) :
    ∀ c ∈ r, BookkeepingSafe cfg c := by
  intro c hc
  obtain ⟨q, hq, -⟩ := TransitionSystem.IsRun.of_mem hr hc
  obtain ⟨a, -, hsim, -⟩ := Cluster.IsRunWhere.sim (g := ⟨False, True⟩)
    (fun _ _ h => ⟨False.elim, fun _ => h⟩) hq
  have hs := hsim c rfl
  refine ⟨fun i hi w hw p hp => ?_, fun i hi => (hs.nodes i hi).sound trivial⟩
  have hlead := hs.leading hi hw
  rw [hlead.inner.member.2.1] at hp
  obtain ⟨next, hnext⟩ := Option.isSome_iff_exists.mp
    (AList.lookup_isSome.mpr (hlead.leader.has_next p hp))
  obtain ⟨m, hm⟩ := Option.isSome_iff_exists.mp
    (AList.lookup_isSome.mpr (hlead.leader.has_match p hp))
  have hle := hlead.leader.next_le hnext
  rw [← hlead.inner.log, hlead.inner.wf.length_log] at hle
  obtain ⟨hpos, habove⟩ := hlead.leader.above trivial hnext hm
  exact ⟨next, m, hnext, hm, hpos, hle, by omega⟩

theorem bookkeeping_safe_run : ∃ r : List (Cluster ℕ),
    Cluster.IsRunWhere (.ofSize 3) (fun c a => c.shortProbeRefused a = false) r ∧
    (∃ c ∈ r, ∃ w, c.LeaderAt 0 w ∧ w.state.matchIndices.lookup 1 = some 1) ∧
    ∀ c ∈ r, BookkeepingSafe (.ofSize 3) c := by
  obtain ⟨r, -, hr, hf⟩ := Cluster.exists_run_of_play (.ofSize 3)
    Cluster.shortProbeRefused commitActions
    (fun r => r.any fun c => (c.leader? 0).any fun w =>
      w.state.matchIndices.lookup 1 = some 1)
    (by decide +kernel)
  simp only [List.any_eq_true, Option.any_eq_true, decide_eq_true_eq] at hf
  obtain ⟨c, hc, w, hw, hmatch⟩ := hf
  exact ⟨r, hr, ⟨c, hc, w, Cluster.leaderAt_of_leader? hw, hmatch⟩, bookkeeping_safe hr⟩

/-- Node `0` restarts with a log of one entry that node `1` does not have, is elected again and
sends it an empty request. -/
def shortProbeActions : List (Action ℕ) :=
  [.electionTimeout 0, .deliver 0 0, .receive 0 0, .client 0 (.apply 5), .restart 0, .connect 0 1,
    .electionTimeout 0, .deliver 0 2, .receive 0 2, .heartbeat 0, .deliver 0 3, .receive 0 3]

/-- The leader of a log of one entry underflows when its empty request is refused. -/
theorem not_bookkeepingSafe : ¬∀ r : List (Cluster ℕ), Cluster.IsRun (.ofSize 2) r →
    ∀ c ∈ r, BookkeepingSafe (.ofSize 2) c := by
  intro h
  obtain ⟨r, -, hr, hf⟩ := Cluster.exists_run_of_play (.ofSize 2)
    (fun _ _ => false) shortProbeActions
    (fun r => r.any fun c => (c.nodes 0).panicked = some .subOverflow)
    (by decide +kernel)
  simp only [List.any_eq_true, decide_eq_true_eq] at hf
  obtain ⟨c, hc, hpanic⟩ := hf
  exact ((h r hr.isRun c hc).sound 0 (by decide)).1 hpanic

end

end Wraft
