import Wraft.Raft.Application
import Wraft.Raft.History
import Wraft.Todo.Callback
import Wraft.Todo.Page

/-!
# The pages of a cluster

`Pages` are the nodes of a cluster, each with the page that it runs in. The worker of a node sends
the commands of the entries it applies to the state machine of its page; the page of a node that is
restarted starts from nothing, or is not shown at all when the node does not start.

The pages of a cluster show the states of one history (`Pages.one_history`): where votes go to
candidates with an up to date log, there is one sequence of commands such that whatever any page
shows at any time of the run is what the first so many of them make of the empty list.
-/

namespace Wraft.Todo

open TransitionSystem

/-- Lists of which one always continues the other have a common continuation. -/
theorem exists_common_prefix {α : Type} {L : List (List α)}
    (h : ∀ l ∈ L, ∀ l' ∈ L, l <+: l' ∨ l' <+: l) : ∃ m, (m = [] ∨ m ∈ L) ∧ ∀ l ∈ L, l <+: m := by
  induction L with
  | nil => exact ⟨[], .inl rfl, by simp⟩
  | cons l L ih =>
    obtain ⟨m, hm, hall⟩ := ih fun a ha b hb =>
      h a (List.mem_cons_of_mem _ ha) b (List.mem_cons_of_mem _ hb)
    have hlm : l <+: m ∨ m <+: l := by
      obtain rfl | hm := hm
      · exact .inr List.nil_prefix
      · exact h l List.mem_cons_self m (List.mem_cons_of_mem _ hm)
    rcases hlm with hlm | hlm
    · refine ⟨m, hm.imp_right (List.mem_cons_of_mem _), fun a ha => ?_⟩
      rcases List.mem_cons.mp ha with rfl | ha
      · exact hlm
      · exact hall a ha
    · refine ⟨l, .inr List.mem_cons_self, fun a ha => ?_⟩
      rcases List.mem_cons.mp ha with rfl | ha
      · exact List.prefix_rfl
      · exact (hall a ha).trans hlm

/-! ### What a worker has sent -/

section

variable {Cmd : Type} [Bincode (LogEntry Cmd)] {c c' : Cluster Cmd}

theorem prefix_of_react {i : NodeId} {e : Event Cmd} {r : Cluster Cmd × Option RpcResponse}
    (h : c.react i e = some r) (j : NodeId) :
    (c.inner j).stateMachineTx <+: (r.1.inner j).stateMachineTx := by
  rw [Cluster.react] at h
  split at h
  · cases h
  · obtain ⟨⟨n, resp⟩, hon, rfl⟩ := Option.map_eq_some_iff.mp h
    by_cases hj : j = i
    · subst hj
      have heffect := (RaftWorkerState.effect_on hon).prefix_stateMachineTx
      simpa [Cluster.inner, Cluster.worker, Cluster.setNode] using heffect
    · simp [Cluster.inner, Cluster.worker, Cluster.setNode, Function.update_of_ne hj]

/-- What a step does to the nodes: one of them is restarted, or one of them reacts, or nothing. -/
theorem nodes_of_exec {cfg : Config} {a : Wraft.Action Cmd}
    (h : c.exec cfg a = some c') :
    (∃ i, a = .restart i ∧ c' = c.setNode i (c.nodes i).restart) ∨
      (∀ j, a ≠ .restart j) ∧
        ((∃ i e r, c.react i e = some r ∧ c'.nodes = r.1.nodes) ∨ c'.nodes = c.nodes) := by
  -- a reaction that needs nothing from outside
  have hlocal : ∀ {i : NodeId} {e : Event Cmd},
      (if i ∈ cfg.ids then (c.react i e).map (·.1) else none) = some c' →
      (∃ i e r, c.react i e = some r ∧ c'.nodes = r.1.nodes) ∨ c'.nodes = c.nodes := by
    intro i e h
    split_ifs at h with hi
    obtain ⟨r, hr, rfl⟩ := Option.map_eq_some_iff.mp h
    exact .inl ⟨i, e, r, hr, rfl⟩
  cases a with
  | electionTimeout i => exact .inr ⟨by simp, hlocal h⟩
  | heartbeat i => exact .inr ⟨by simp, hlocal h⟩
  | advanceCommitIndex i => exact .inr ⟨by simp, hlocal h⟩
  | applyLog i => exact .inr ⟨by simp, hlocal h⟩
  | disconnect i p => exact .inr ⟨by simp, hlocal h⟩
  | fail i k err => exact .inr ⟨by simp, hlocal h⟩
  | connect i p =>
    rw [Cluster.exec] at h
    split_ifs at h with hmem
    exact .inr ⟨by simp, hlocal ((if_pos hmem.1).trans h)⟩
  | receive i k =>
    rw [Cluster.exec] at h
    split_ifs at h with hi
    split at h
    · cases h
    · exact .inr ⟨by simp, hlocal ((if_pos hi).trans h)⟩
  | client i req =>
    rw [Cluster.exec] at h
    split_ifs at h with hi
    obtain ⟨r, hr, rfl⟩ := Option.map_eq_some_iff.mp h
    exact .inr ⟨by simp, .inl ⟨i, _, r, hr, rfl⟩⟩
  | deliver i k =>
    rw [Cluster.exec] at h
    split_ifs at h with hi
    split at h
    · cases h
    · obtain ⟨r, hr, rfl⟩ := Option.map_eq_some_iff.mp h
      exact .inr ⟨by simp, .inl ⟨_, _, r, hr, rfl⟩⟩
  | relay j n =>
    rw [Cluster.exec] at h
    split at h
    · obtain rfl := Option.some.inj h
      exact .inr ⟨by simp, .inr rfl⟩
    · cases h
  | restart i =>
    rw [Cluster.exec] at h
    split_ifs at h with hi
    exact .inl ⟨i, rfl, (Option.some.inj h).symm⟩

/-- A worker that is not restarted has sent what it had sent, and may send more. -/
theorem prefix_of_exec {cfg : Config} {a : Wraft.Action Cmd} (h : c.exec cfg a = some c')
    (j : NodeId) (ha : a ≠ .restart j) :
    (c.inner j).stateMachineTx <+: (c'.inner j).stateMachineTx := by
  obtain ⟨i, rfl, rfl⟩ | ⟨-, ⟨i, e, r, hr, hnodes⟩ | hnodes⟩ := nodes_of_exec h
  · have hj : j ≠ i := fun hj => ha (hj ▸ rfl)
    simp [Cluster.inner, Cluster.worker, Cluster.setNode, Function.update_of_ne hj]
  · rw [Cluster.inner, Cluster.inner, Cluster.worker, Cluster.worker, hnodes]
    exact prefix_of_react hr j
  · rw [Cluster.inner, Cluster.inner, Cluster.worker, Cluster.worker, hnodes]

end

/-! ### Clusters with pages -/

/-- The nodes of a cluster with their pages. -/
structure Pages where
  cluster : Cluster Msg
  pages : NodeId → Option Page

namespace Pages

/-- The steps of a cluster with its pages. -/
inductive Action where
  | cluster (a : Wraft.Action Msg)
  /-- The page of node `i` takes a step. -/
  | page (i : NodeId) (a : Page.Action)
  deriving DecidableEq, Repr

/-- The commands that the worker of node `i` has sent to its state machine. -/
def sent (t : Pages) (i : NodeId) : List Msg := (t.cluster.inner i).stateMachineTx.map (·.cmd)

def boot (cfg : Config) : Pages where
  cluster := .boot cfg
  pages _ := some .create

/-- The pages after a step of the cluster. -/
def reload (cluster : Cluster Msg) (pages : NodeId → Option Page) :
    Wraft.Action Msg → NodeId → Option Page
  | .restart i => Function.update pages i
      (if (cluster.nodes i).panicked.isNone then some .create else none)
  | _ => pages

section

variable [Bincode (LogEntry Msg)]

/-- One step of a cluster with its pages; `none` when it is not possible. -/
def exec (cfg : Config) (t : Pages) : Action → Option Pages
  | .cluster a => (t.cluster.exec cfg a).map fun cluster =>
      { cluster, pages := reload cluster t.pages a }
  | .page i a => (t.pages i).bind fun p => (p.exec (t.sent i) a).map fun p =>
      { t with pages := Function.update t.pages i (some p) }

/-- The finite runs of a cluster with its pages, latest state first, all of whose steps of the
cluster meet the condition `G`. -/
def IsRunWhere (cfg : Config) (G : Cluster Msg → Wraft.Action Msg → Prop) : List Pages → Prop :=
  TransitionSystem.IsRun (· = boot cfg) (Acts (exec cfg) fun t a => ∀ b, a = .cluster b →
    G t.cluster b)

/-! ### Every page of a run -/

variable {cfg : Config} {t t' : Pages} {i : NodeId}

/-- Every page keeps its invariant. -/
def Inv (t : Pages) : Prop := ∀ i p, t.pages i = some p → Page.Inv (t.sent i) p

omit [Bincode (LogEntry Msg)] in
theorem inv_boot : Inv (boot cfg) := by
  intro i p hp
  obtain rfl := Option.some.inj hp
  exact Page.inv_create

omit [Bincode (LogEntry Msg)] in
/-- A page is what it was, or it has just been created by a restart. -/
theorem reload_cases {cluster : Cluster Msg} {pages : NodeId → Option Page}
    {a : Wraft.Action Msg} {j : NodeId} {p : Page} (h : reload cluster pages a j = some p) :
    a = .restart j ∧ p = .create ∨ a ≠ .restart j ∧ pages j = some p := by
  cases a
  case restart i =>
    by_cases hj : j = i
    · subst hj
      simp only [reload, Function.update_self] at h
      split at h
      · exact .inl ⟨rfl, (Option.some.inj h).symm⟩
      · cases h
    · simp only [reload, Function.update_of_ne hj] at h
      exact .inr ⟨by simpa using Ne.symm hj, h⟩
  all_goals exact .inr ⟨by simp, h⟩

/-- **Step lemma.** -/
theorem Inv.exec (h : Inv t) {a : Action} (hexec : Pages.exec cfg t a = some t') : Inv t' := by
  cases a with
  | cluster a =>
    obtain ⟨c, hc, rfl⟩ := Option.map_eq_some_iff.mp hexec
    intro j p hp
    obtain ⟨rfl, rfl⟩ | ⟨ha, hp⟩ := reload_cases hp
    · exact Page.inv_create.sends List.nil_prefix
    · exact (h j p hp).sends ((prefix_of_exec hc j ha).map _)
  | page i a =>
    obtain ⟨p, hp, hexec⟩ := Option.bind_eq_some_iff.mp hexec
    obtain ⟨p', hp', rfl⟩ := Option.map_eq_some_iff.mp hexec
    intro j q hq
    by_cases hj : j = i
    · subst hj
      simp only [Function.update_self, Option.some.injEq] at hq
      subst hq
      obtain ⟨v, vs, hv⟩ := (h j p hp).exists_version
      exact ((h j p hp).exec hv hp').1
    · simp only [Function.update_of_ne hj] at hq
      exact h j q hq

/-! ### Runs -/

variable {r : List Pages} {G : Cluster Msg → Wraft.Action Msg → Prop}

/-- **Run lemma.** -/
theorem IsRunWhere.inv (hr : IsRunWhere cfg G r) : ∀ t ∈ r, Inv t := by
  refine TransitionSystem.IsRun.invariant ?_ ?_ hr
  · rintro _ rfl
    exact inv_boot
  · rintro t t' hinv ⟨a, -, hexec⟩
    exact hinv.exec hexec

/-- The clusters of a run are those of a run of the cluster. -/
theorem IsRunWhere.exists_run (hr : IsRunWhere cfg G r) :
    ∃ q, Cluster.IsRunWhere cfg G q ∧ q.head? = r.head?.map (·.cluster) ∧
      ∀ t ∈ r, t.cluster ∈ q := by
  induction hr with
  | @start t hinit =>
    subst hinit
    exact ⟨[.boot cfg], .start rfl, rfl, by simp [boot]⟩
  | @next t t' r _ hstep ih =>
    obtain ⟨q, hq, hhead, hall⟩ := ih
    obtain ⟨q', rfl⟩ := List.head?_eq_some_iff.mp hhead
    obtain ⟨a, ha, hexec⟩ := hstep
    cases a with
    | cluster a =>
      obtain ⟨c, hc, rfl⟩ := Option.map_eq_some_iff.mp hexec
      refine ⟨c :: t.cluster :: q', .next hq ⟨a, ha a rfl, hc⟩, rfl, fun u hu => ?_⟩
      rcases List.mem_cons.mp hu with rfl | hu
      · exact List.mem_cons_self
      · exact List.mem_cons_of_mem _ (hall u hu)
    | page i a =>
      obtain ⟨p, hp, hexec⟩ := Option.bind_eq_some_iff.mp hexec
      obtain ⟨p', hp', rfl⟩ := Option.map_eq_some_iff.mp hexec
      refine ⟨t.cluster :: q', hq, rfl, fun u hu => ?_⟩
      rcases List.mem_cons.mp hu with rfl | hu
      · exact List.mem_cons_self
      · exact hall u hu

/-- What the workers of a run have sent to their state machines are beginnings of one list. -/
theorem exists_history (hr : IsRunWhere cfg (fun c a => c.grantsOutdated a = false) r) :
    ∃ history : List Msg, ∀ t ∈ r, ∀ i ∈ cfg.ids, t.sent i <+: history := by
  obtain ⟨q, hq, -, hall⟩ := hr.exists_run
  obtain ⟨a, ha, -, hist⟩ := Cluster.IsRunWhere.sim (g := ⟨True, False⟩)
    (fun _ _ h => ⟨fun _ => h, False.elim⟩) hq
  have hcomplete : Consensus.Complete LogEntry.term cfg.ids a :=
    (ha.mono fun _ _ h => h trivial).complete
  obtain ⟨m, -, hm⟩ := exists_common_prefix
    (L := q.flatMap fun c => cfg.ids.toList.map fun i => (c.inner i).stateMachineTx) <| by
      simp only [List.mem_flatMap, List.mem_map, Finset.mem_toList]
      rintro _ ⟨c, hc, i, hi, rfl⟩ _ ⟨d, hd, j, hj, rfl⟩
      obtain ⟨-, s, hs⟩ := (hist.witness c hc).applied trivial i hi
      obtain ⟨-, s', hs'⟩ := (hist.witness d hd).applied trivial j hj
      exact hs.prefix_or_prefix hcomplete ha.inv hs'
  refine ⟨m.map LogEntry.cmd, fun t ht i hi => (hm _ ?_).map LogEntry.cmd⟩
  simp only [List.mem_flatMap, List.mem_map, Finset.mem_toList]
  exact ⟨t.cluster, hall t ht, i, hi, rfl⟩

/-- Every page shows what the first so many commands of the history make of the empty list, and it
is up to its worker when it has nothing left to do. -/
structure ShowsHistory (cfg : Config) (history : List Msg) (r : List Pages) : Prop where
  shows : ∀ t ∈ r, ∀ i ∈ cfg.ids, ∀ p, t.pages i = some p →
    ∃ n, n ≤ (t.sent i).length ∧ Page.Shows history n p.state
  settled : ∀ t ∈ r, ∀ i ∈ cfg.ids, ∀ p, t.pages i = some p → p.Quiet (t.sent i) →
    (∀ e, p.handler.status ≠ .panicked e) → Page.Shows history (t.sent i).length p.state

/-- **The pages of a cluster show one history**, in runs whose votes go to candidates with an up to
date log. -/
theorem one_history (hr : IsRunWhere cfg (fun c a => c.grantsOutdated a = false) r) :
    ∃ history, ShowsHistory cfg history r := by
  obtain ⟨history, hall⟩ := exists_history hr
  refine ⟨history, fun t ht i hi p hp => ?_, fun t ht i hi p hp hquiet hne => ?_⟩
  · obtain ⟨v, vs, hv⟩ := (hr.inv t ht i p hp).exists_version
    exact ⟨v, hv.shows.1, hv.shows.sends (hall t ht i hi)⟩
  · exact ((hr.inv t ht i p hp).shows_of_quiet hquiet hne).sends (hall t ht i hi)

end

/-- Entries of the todo list, as numbers in unary. -/
instance : Bincode (LogEntry Msg) where
  serialize e := String.ofList (unary (e.term :: e.idx :: e.cmd.codes))
  deserialize s :=
    match ofUnary 0 s.toList with
    | term :: idx :: codes => (Msg.ofCodes codes).map fun cmd => ⟨cmd, term, idx⟩
    | _ => none
  deserialize_serialize e := by
    rw [String.toList_ofList, ofUnary_unary]
    exact (congrArg (Option.map _) (Msg.ofCodes_codes e.cmd)).trans rfl

/-- Node `0` is elected and commits the entry of a client's request, and its page shows it; the page
of node `1` is behind. -/
def showingActions : List Action :=
  [.cluster (.electionTimeout 0), .cluster (.deliver 0 0), .cluster (.receive 0 0),
    .cluster (.client 0 (.apply (.update "a"))), .cluster (.deliver 0 2), .cluster (.receive 0 2),
    .cluster (.advanceCommitIndex 0), .cluster (.applyLog 0), .page 0 .stateMachine,
    .page 0 .runRaft, .page 0 .update, .page 0 .get, .page 0 .stateGet, .page 0 .got,
    .page 0 .update]

/-- The step grants a vote to a candidate whose log is not up to date. -/
def grantsOutdated (t : Pages) : Action → Bool
  | .cluster a => t.cluster.grantsOutdated a
  | .page _ _ => false

theorem one_history_run : ∃ r : List Pages,
    IsRunWhere (.ofSize 3) (fun c a => c.grantsOutdated a = false) r ∧
    (∃ t ∈ r, (t.pages 0).map (·.state.value) = some "a" ∧
      (t.pages 1).map (·.state.value) = some "") ∧
    ∃ history, ShowsHistory (.ofSize 3) history r := by
  obtain ⟨r, -, hr, hf⟩ := exists_run_of_play (· = boot (.ofSize 3)) (exec (.ofSize 3))
    grantsOutdated rfl showingActions
    (fun r => r.any fun t => (t.pages 0).map (·.state.value) = some "a" &&
      (t.pages 1).map (·.state.value) = some "")
    (by decide +kernel)
  simp only [List.any_eq_true, Bool.and_eq_true, decide_eq_true_eq] at hf
  have hrun : IsRunWhere (.ofSize 3) (fun c a => c.grantsOutdated a = false) r := by
    refine TransitionSystem.IsRun.mono (fun _ _ => Acts.mono fun t a ha b hb => ?_) hr
    subst hb
    exact ha
  exact ⟨r, hrun, hf, one_history hrun⟩

end Pages

end Wraft.Todo
