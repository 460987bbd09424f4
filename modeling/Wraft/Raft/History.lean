import Wraft.Raft.Refinement

/-!
# What a run leaves behind

The safety properties of a cluster speak of a whole run: of every node that was ever elected, of
every command that was ever applied. `Witness` is what a cluster that a run has passed leaves
behind in the state of the protocol, and `History` collects it over the run. `IsRunWhere.sim` is
the run lemma: the last cluster of a run stands for a reachable state of the protocol in which
all of the run's history is on record.
-/

namespace Wraft

open Consensus TransitionSystem

variable {Cmd : Type} [Bincode (LogEntry Cmd)] (cfg : Config) (g : Guard)

/-- What the cluster `c` has seen happen. -/
structure Witness (c : Cluster Cmd) (a : Spec Cmd) : Prop where
  /-- A leader was elected in its term, with a log that it still has. -/
  leader : ∀ i ∈ cfg.ids, ∀ w, c.LeaderAt i w → a.leader (c.currentTerm i) = some i ∧
    (c.storage i).log <+: a.leaderLog (c.currentTerm i) ∧
    ∃ l, a.stood i (c.currentTerm i) = some l ∧ l <+: (c.storage i).log
  /-- What a node applied is committed. -/
  applied : g.upToDate → ∀ i ∈ cfg.ids, Indexed (c.inner i).stateMachineTx ∧
    ∃ t, Committed LogEntry.term cfg.ids a t (c.inner i).stateMachineTx

/-- An answered index is that of a chosen entry. -/
def AckWitness (c : Cluster Cmd) (a : Spec Cmd) (i : NodeId) (n : ℕ) : Prop :=
  0 < n ∧ ∃ e, (c.storage i).log[n - 1]? = some e ∧ e.term = c.currentTerm i ∧
    (a.leaderLog (c.currentTerm i))[n - 1]? = some e ∧
    Chosen LogEntry.term cfg.ids a (c.currentTerm i) (n - 1)

/-- What the clusters of the run `r` have seen happen. -/
structure History (r : List (Cluster Cmd)) (a : Spec Cmd) : Prop where
  witness : ∀ c ∈ r, Witness cfg g c a
  /-- What counts as acknowledged was in the node's log at some moment of the term. -/
  held : ∀ q ∈ cfg.ids, ∀ t, 0 < a.acked q t → ∃ c ∈ r, c.currentTerm q = t ∧
    (a.leaderLog t).take (a.acked q t) <+: (c.storage q).log
  acks : ∀ {c c' i n}, Moves r c c' → c.Acks cfg c' i n → AckWitness cfg c a i n

variable {cfg g} {a a' : Spec Cmd} {i : NodeId} {c c' : Cluster Cmd}

/-! ### The start -/

theorem boot_sim : Sim cfg g (Cluster.boot cfg) (State.init : Spec Cmd) where
  indexed t i e he := by cases he
  nodes i hi := by
    have hpeer : ∀ p ∈ ((cfg.peers i).map fun p =>
        (⟨p, { connected := true }⟩ : Σ _ : NodeId, Client)).toAList, p ∈ cfg.ids ∧ p ≠ i := by
      intro p hp
      rw [← AList.lookup_isSome, lookup_map_const] at hp
      split_ifs at hp with hmem
      · exact (cfg.mem_peers i hi p).mp hmem
      · cases hp
    refine .running (w := .follower _) ?_ trivial
    exact
      { member := ⟨rfl, rfl, rfl, rfl, hpeer⟩
        wf := Storage.wf_empty cfg.sessionKey
        log := rfl
        term := rfl
        vote := rfl
        calls := fun _ h => by cases h
        replies := fun h => by cases h
        applied := fun _ =>
          { commit_le := Nat.zero_le _
            commit := .nil _
            last := rfl
            applied_prefix := List.nil_prefix
            applied := .nil _ } }

/-! ### Along a run -/

theorem Sim.leading (h : Sim cfg g c a) (hi : i ∈ cfg.ids) {w : RaftWorker Leader Cmd}
    (hw : c.LeaderAt i w) : Leading cfg g c.replies a i w := by
  have := h.nodes i hi
  rw [Cluster.LeaderAt] at hw
  rw [hw] at this
  exact ⟨this.inner, this.role rfl⟩

theorem Sim.witness (h : Sim cfg g c a) (hr : Reached cfg g a) : Witness cfg g c a where
  leader i hi w hw := by
    have hlead := h.leading hi hw
    have hinner : (c.inner i).storage = w.inner.storage := by rw [hw.inner]
    have hterm : c.currentTerm i = a.term i := (h.nodes i hi).inner.term
    have hlog : (c.storage i).log = a.leaderLog (a.term i) :=
      (congrArg Storage.log hinner).trans (hlead.log_eq hr)
    obtain ⟨l, s, hstood, heq, -⟩ := hr.leaderLog_eq hlead.leader.leader
    rw [hterm, hlog]
    exact ⟨hlead.leader.leader, List.prefix_rfl, l, hstood, heq ▸ List.prefix_append _ _⟩
  applied hg i hi := by
    have hinner := (h.nodes i hi).inner
    have happ := hinner.applied hg
    have hidx : Indexed (c.inner i).storage.log := fun _ _ => hinner.wf.idx_eq
    refine ⟨hidx.of_prefix ?_, a.term i, happ.applied⟩
    exact happ.applied_prefix.trans (by rw [← hinner.log]; exact List.prefix_rfl)

omit [Bincode (LogEntry Cmd)] in
theorem prefix_leaderLog_later (hl : Later a a') {t : ℕ} {j : NodeId}
    (hlead : a.leader t = some j) : a'.leader t = some j ∧ a.leaderLog t <+: a'.leaderLog t :=
  let ⟨h1, h2⟩ := hl.grows t (by simp [hlead])
  ⟨h1.trans hlead, h2⟩

theorem Witness.later (h : Witness cfg g c a) (hi : Inv LogEntry.term cfg.ids a)
    (hl : Later a a') : Witness cfg g c a' where
  leader i hmem w hw := by
    obtain ⟨hlead, hlog, l, hstood, hpre⟩ := h.leader i hmem w hw
    obtain ⟨hlead', hgrow⟩ := prefix_leaderLog_later hl hlead
    exact ⟨hlead', hlog.trans hgrow, l, hl.stood_eq hstood, hpre⟩
  applied hg i hmem :=
    let ⟨hidx, t, hc⟩ := h.applied hg i hmem
    ⟨hidx, t, hc.later hi hl⟩

theorem AckWitness.later {n : ℕ} (h : AckWitness cfg c a i n) (hi : Inv LogEntry.term cfg.ids a)
    (hl : Later a a') : AckWitness cfg c a' i n := by
  obtain ⟨hpos, e, he, hterm, hlead, hch⟩ := h
  obtain ⟨hch', htake⟩ := hch.later hi hl
  refine ⟨hpos, e, he, hterm, ?_, hch'⟩
  have := congrArg (·[n - 1]?) htake
  simpa [List.getElem?_take, hlead] using this

/-- A leader that is still running after `advance_commit_index` is what the function left. -/
theorem run_of_exec_advance {w w' : RaftWorker Leader Cmd}
    (hexec : c.exec cfg (.advanceCommitIndex i) = some c') (hw : c.LeaderAt i w)
    (hw' : c'.LeaderAt i w') :
    i ∈ cfg.ids ∧ Leader.advanceCommitIndex.run w = .ok () w' := by
  simp only [Cluster.exec] at hexec
  split_ifs at hexec with hi
  refine ⟨hi, ?_⟩
  have hworker : c.worker i = .leader w := by
    rw [Cluster.worker, show c.nodes i = _ from hw]
  have hp : (c.nodes i).panicked = none := by rw [show c.nodes i = _ from hw]
  rw [Cluster.react, hp] at hexec
  simp only [hworker, RaftWorkerState.on, RaftWorkerState.leaderStep] at hexec
  rcases hrun : Leader.advanceCommitIndex.run w with ⟨u, v⟩ | ⟨p, v⟩
  · rw [hrun] at hexec
    obtain rfl := Option.some.inj hexec
    have hnode : _ = (_ : Node Cmd) := (Function.update_self i _ c.nodes).symm.trans hw'
    simp only [Node.mk.injEq, RaftWorkerState.leader.injEq, and_true] at hnode
    rw [hnode]
  · rw [hrun] at hexec
    obtain rfl := Option.some.inj hexec
    have hnode : _ = (_ : Node Cmd) := (Function.update_self i _ c.nodes).symm.trans hw'
    simp at hnode

/-- A leader answers a client only when its entry is chosen. -/
theorem Sim.ackWitness (h : Sim cfg g c a) (hr : Reached cfg g a) {n : ℕ}
    (hack : c.Acks cfg c' i n) : AckWitness cfg c a i n := by
  obtain ⟨hexec, w, w', tx, hw, hw', hlook, hnone, -⟩ := hack
  obtain ⟨hi, hrun⟩ := run_of_exec_advance hexec hw hw'
  have hlead := h.leading hi hw
  obtain ⟨n', answers, waiting, hle, -, hall, -, hwait, hrun'⟩ :=
    Leader.advanceCommitIndex_eq hlead.inner.wf
  obtain ⟨-, rfl⟩ := EStateM.Result.ok.inj (hrun.symm.trans hrun')
  have hnone' : waiting.lookup n = none := hnone
  obtain ⟨hlt, hle'⟩ := hwait n (by simp [hlook, hnone'])
  have hcommit := hall n hlt hle'
  have hch := hlead.chosen hi hr (by omega) hcommit
  obtain ⟨-, e, he, hterm⟩ := hcommit
  have hcterm : c.currentTerm i = a.term i := (h.nodes i hi).inner.term
  rw [AckWitness, hcterm, Cluster.storage, hw.inner]
  exact ⟨by omega, e, he, hterm.trans hlead.inner.term, hlead.log_eq hr ▸ he, hch⟩

/-- **Step lemma.** The run goes on by a turn of the protocol. -/
theorem History.next {r : List (Cluster Cmd)} (h : History cfg g (c :: r) a)
    (hs : Sim cfg g c a) (ht : Turns cfg g i a a') (hs' : Sim cfg g c' a') :
    History cfg g (c' :: c :: r) a' where
  witness d hd := by
    rcases List.mem_cons.mp hd with rfl | hd
    · exact hs'.witness (ht.turn.reachable ht.reachable)
    · exact (h.witness d hd).later ht.inv ht.later
  held q hq t hpos := by
    rcases ht.turn.acked_eq_or q t with heq | hterm
    · rw [heq] at hpos ⊢
      obtain ⟨d, hd, hdt, hpre⟩ := h.held q hq t hpos
      refine ⟨d, List.mem_cons_of_mem _ hd, hdt, ?_⟩
      rwa [ht.inv.take_leaderLog_eq ht.later.grows (ht.inv.acked_le q t)]
    · -- newly acknowledged, so the node's log has it now
      have hinner := (hs'.nodes q hq).inner
      have hlog := (ht.turn.reachable ht.reachable).inv.acked_log q
      rw [hterm, ← hinner.log] at hlog
      exact ⟨c', List.mem_cons_self, hinner.term.trans hterm, hlog⟩
  acks {d d' j n} hm hack := by
    rcases moves_cons_cons.mp hm with ⟨rfl, rfl⟩ | hm
    · exact (hs.ackWitness ht.reachable hack).later ht.inv ht.later
    · exact (h.acks hm hack).later ht.inv ht.later

/-- **Run lemma.** The last cluster of a run stands for a reachable state of the protocol that
has all of the run's history. -/
theorem Cluster.IsRunWhere.sim {G : Cluster Cmd → Action Cmd → Prop}
    (hG : ∀ c act, G c act →
      (g.upToDate → c.grantsOutdated act = false) ∧
      (g.longProbes → c.shortProbeRefused act = false))
    {r : List (Cluster Cmd)} (hr : Cluster.IsRunWhere cfg G r) :
    ∃ a, Reached cfg g a ∧ (∀ c, r.head? = some c → Sim cfg g c a) ∧ History cfg g r a := by
  refine TransitionSystem.IsRun.simulate
    (R := fun r a => (∀ c, r.head? = some c → Sim cfg g c a) ∧ History cfg g r a) ?_ ?_ hr
  · rintro _ rfl
    have hinit : Reached cfg g (State.init : Spec Cmd) := Relation.ReflTransGen.refl
    refine ⟨State.init, hinit, ?_, ?_, ?_, ?_⟩
    · rintro c hc
      obtain rfl := Option.some.inj hc
      exact boot_sim
    · rintro c hc
      obtain rfl := List.mem_singleton.mp hc
      exact boot_sim.witness hinit
    · exact fun q _ t hpos => absurd hpos (lt_irrefl 0)
    · exact fun hm => absurd hm not_moves_singleton
  · rintro c c' r a - ha ⟨hsim, hist⟩ ⟨act, hact, hexec⟩
    have hs := hsim c rfl
    obtain ⟨i, a', hturn, hs'⟩ := exec_sim hs ha hexec (hG c act hact).1 (hG c act hact).2
    refine ⟨a', hturn.turn.reachable ha, ?_, hist.next hs hturn hs'⟩
    rintro d hd
    obtain rfl := Option.some.inj hd
    exact hs'

end Wraft
