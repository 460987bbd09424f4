import Wraft.Raft.Replication
import Wraft.Raft.Requests

/-!
# The cluster refines the protocol

Every reaction of a running node is a turn of the protocol (`on_sim`), and so is every step of
the cluster (`exec_sim`). Together with what a run leaves behind for good (`History`) this makes
a forward simulation: `IsRunWhere.sim` turns any run of the cluster into a reachable state of the
protocol that the last cluster of the run stands for.
-/

namespace Wraft

open Consensus
open EStateM (Triple)

variable {Cmd : Type} [Bincode (LogEntry Cmd)] {cfg : Config} {g : Guard} {replies : Replies}
  {a a' : Spec Cmd} {i : NodeId}

/-! ### Reactions -/

/-- What a reaction of node `i` to an event must come with. -/
def EventSim (cfg : Config) (g : Guard) (replies : Replies) (a : Spec Cmd) (i : NodeId)
    (w : RaftWorkerState Cmd) : Event Cmd → Prop
  | .rpc caller _ req => CallSim cfg g a caller (i, req) ∧ (g.upToDate → ∀ r,
      req = .requestVote r → (w.inner.updateTerm r.term).2.grantsVote r → w.inner.upToDate r)
  | .response k res => (∀ resp, res = .ok resp → ((i, k), resp) ∈ replies) ∧
      (g.longProbes → ∀ l task r resp, w = .leader l → task ∈ l.state.responsesRx →
        task.call = k → l.inner.transport.calls[k]? = some (task.peerId, .appendEntries r) →
        res = .ok (.appendEntries resp) → resp.success = false →
        resp.term = l.inner.storage.currentTerm → ¬(r.entries = [] ∧ r.prevLogIndex = 1))
  | .connect p => p ∈ cfg.ids ∧ p ≠ i
  | _ => True

variable (cfg g replies a i) in
/-- A reaction of node `i`, to a request if it has a reply, that leaves the node as `n`. -/
def Reaction (e : Event Cmd) (n : Node Cmd) (reply : Option RpcResponse) : Prop :=
  ∃ a', Turns cfg g i a a' ∧ NodeSim cfg g replies a' i n ∧ (∀ t, Indexed (a'.leaderLog t)) ∧
    ∀ resp, reply = some resp → ∃ caller k req, e = .rpc caller k req ∧
      FreshSim a' caller i req resp

/-- A reaction that the protocol does not see. -/
theorem Reaction.of_same {e : Event Cmd} {n : Node Cmd} (hr : Reached cfg g a)
    (hidx : ∀ t, Indexed (a.leaderLog t)) (hn : NodeSim cfg g replies a i n) :
    Reaction cfg g replies a i e n none :=
  ⟨a, ⟨hr, Turn.refl i a⟩, hn, hidx, fun _ h => by cases h⟩

theorem NodeSim.running {w : RaftWorkerState Cmd} (h : InnerSim cfg g replies a i w.inner)
    (hrole : RoleSim cfg g replies a i w) : NodeSim cfg g replies a i ⟨w, none⟩ where
  inner := h
  role _ := hrole
  sound _ := ⟨nofun, nofun⟩

omit [Bincode (LogEntry Cmd)] in
/-- A role asks of the inner worker only that calls stay on record. -/
theorem RoleSim.withInner {w : RaftWorkerState Cmd} {inner : RaftWorkerInner Cmd}
    (h : RoleSim cfg g replies a i w)
    (hcalls : inner.transport.calls = w.inner.transport.calls) :
    RoleSim cfg g replies a i (w.withInner inner) := by
  rcases w with w | w | w
  · trivial
  · have hc : CandidateSim cfg a i w := h
    refine { hc with votes := ?_, distinct := ?_ }
    · show ∃ G : Finset NodeId, _ ∧ _ ∧ _ ∧ ∀ k ∈ _, ∃ dst r, inner.transport.calls[k]? = _ ∧ _
      rw [hcalls]
      exact hc.votes
    · show ∀ k ∈ _, ∀ k' ∈ _, ∀ dst r r', inner.transport.calls[k]? = _ →
        inner.transport.calls[k']? = _ → _
      rw [hcalls]
      exact hc.distinct
  · have hl : LeaderSim cfg g replies a i w := h
    refine { hl with tasks := fun task htask => ?_ }
    obtain ⟨r, hr⟩ := hl.tasks task htask
    exact ⟨r, { hr with call := hcalls ▸ hr.call }⟩

/-- A change of the inner worker that the role does not notice. -/
theorem NodeSim.withInner {w : RaftWorkerState Cmd} {inner : RaftWorkerInner Cmd}
    {p : Option Panic} (h : RoleSim cfg g replies a i w)
    (hinner : InnerSim cfg g replies a i inner)
    (hcalls : inner.transport.calls = w.inner.transport.calls)
    (hp : p ≠ some .subOverflow ∧ p ≠ some .prevEntry) :
    NodeSim cfg g replies a i ⟨w.withInner inner, p⟩ where
  inner := by cases w <;> exact hinner
  role _ := h.withInner hcalls
  sound _ := hp

/-- A leader's step that keeps `Leading`. -/
theorem NodeSim.of_leaderStep {x : Rust (RaftWorker Leader Cmd) Unit} {w : RaftWorker Leader Cmd}
    {n : Node Cmd} (hn : RaftWorkerState.leaderStep x (.leader w) = some n)
    (hx : Triple (w = ·) x (fun _ => Leading cfg g replies a i) (Stopped cfg g replies a i)) :
    NodeSim cfg g replies a i n := by
  have hrun := hx w rfl
  simp only [RaftWorkerState.leaderStep] at hn
  cases hxw : x.run w with
  | ok u w' =>
    rw [hxw] at hrun hn
    obtain rfl := Option.some.inj hn
    exact .running hrun.inner hrun.leader
  | error p w' =>
    rw [hxw] at hrun hn
    obtain rfl := Option.some.inj hn
    exact
      { inner := hrun.inner
        role := fun h => by cases h
        sound := fun hg => by simpa using hrun.sound hg }

/-- An answer to a forwarded request. -/
theorem answerForwarded_sim {w : RaftWorkerState Cmd} {k : ℕ} {res : RpcResult} {n : Node Cmd}
    (hinner : InnerSim cfg g replies a i w.inner) (hrole : RoleSim cfg g replies a i w)
    (hn : w.answerForwarded k res = some n) : NodeSim cfg g replies a i n := by
  simp only [RaftWorkerState.answerForwarded, Option.map_eq_some_iff] at hn
  obtain ⟨token, -, rfl⟩ := hn
  rcases res with err | resp | resp | resp
  · exact .withInner hrole { hinner with } rfl (by simp)
  · exact .withInner hrole { hinner with } rfl (by simp)
  · exact .withInner hrole { hinner with } rfl (by simp)
  · exact .withInner hrole { hinner with } rfl (by simp)

/-- Accepting entries right after hearing of their term. -/
theorem appendEntries_turn {w : RaftWorkerInner Cmd} {src : NodeId}
    {req : AppendEntriesRequest Cmd} (hr : Reached cfg g a) (hidx : ∀ t, Indexed (a.leaderLog t))
    (hreq : CallSim cfg g a src (i, .appendEntries req))
    (h : InnerSim cfg g replies (a.hear i req.term) i w) :
    (∃ a' resp w', (RaftWorkerInner.handleAppendEntries req).run w = .ok resp w' ∧
      Turns cfg g i a a' ∧ (∀ t, Indexed (a'.leaderLog t)) ∧ InnerSim cfg g replies a' i w' ∧
      FreshSim a' src i (.appendEntries req) (.appendEntries resp : RpcResponse)) ∨
    (RaftWorkerInner.handleAppendEntries req).run w = .error .overwriteOrder w := by
  have hidx' : ∀ t, Indexed ((a.hear i req.term).leaderLog t) := by
    rw [leaderLog_hear]
    exact hidx
  rcases appendEntries_sim h (hr.hear i req.term) hidx'
      (hreq.2.2.later hr.inv (later_hear hr.inv i req.term)) hreq.2.1.symm
      (by rw [term_hear]; exact le_max_right _ _) with
    ⟨a', resp, w', hrun, ha', hlog, hinner, hfresh⟩ | hrun
  · refine .inl ⟨a', resp, w', hrun, ⟨hr, ?_⟩, by rwa [hlog], hinner, hfresh⟩
    rcases ha' with rfl | ⟨hstep, hframe⟩
    · exact Turn.hear i a req.term
    · exact Turn.hear_step hstep hframe
  · exact .inr hrun

/-- A reply to a request, from a node that is a follower now. -/
theorem Reaction.reply {w : RaftWorkerInner Cmd} {caller : NodeId} {k : ℕ} {req : RpcRequest Cmd}
    {resp : RpcResponse} {n : Node Cmd} (ht : Turns cfg g i a a')
    (hidx : ∀ t, Indexed (a'.leaderLog t)) (hinner : InnerSim cfg g replies a' i w)
    (hn : n = ⟨.follower { inner := w, state := {} }, none⟩)
    (hfresh : FreshSim a' caller i req resp) :
    Reaction cfg g replies a i (.rpc caller k req) n (some resp) := by
  subst hn
  exact ⟨a', ht, .running hinner trivial, hidx,
    fun _ h => ⟨caller, k, req, rfl, Option.some.inj h ▸ hfresh⟩⟩

/-- A node that panicked while it accepted entries. -/
theorem Reaction.stopped {e : Event Cmd} {n : Node Cmd} {t : ℕ} (hr : Reached cfg g a)
    (hidx : ∀ t, Indexed (a.leaderLog t))
    (hinner : InnerSim cfg g replies (a.hear i t) i n.worker.inner)
    (hp : n.panicked = some .overwriteOrder) : Reaction cfg g replies a i e n none := by
  refine ⟨a.hear i t, ⟨hr, Turn.hear i a t⟩,
    { inner := hinner, role := fun h => by simp [hp] at h, sound := fun _ => by simp [hp] },
    by rwa [leaderLog_hear], fun _ h => by cases h⟩

/-- **A follower's reaction to a request.** -/
theorem follower_rpc_sim {w : RaftWorker Follower Cmd} {caller : NodeId} {k : ℕ}
    {req : RpcRequest Cmd} (h : InnerSim cfg g replies a i w.inner) (hr : Reached cfg g a)
    (hidx : ∀ t, Indexed (a.leaderLog t))
    (he : EventSim cfg g replies a i (.follower w) (.rpc caller k req)) :
    Reaction cfg g replies a i (.rpc caller k req)
      (RaftWorkerState.onRpc caller k req (.follower w)).1
      (RaftWorkerState.onRpc caller k req (.follower w)).2 := by
  obtain ⟨hcall, hvotes⟩ := he
  rcases req with req | req | req
  · have h₁ := h.hear hr req.term
    have h₂ : InnerSim cfg g replies (a.hear i req.term) i
        { (w.inner.updateTerm req.term).2 with leaderId := some req.leaderId } := { h₁ with }
    have hunfold : (Follower.handleRpc (.appendEntries req)).run w.inner =
        ((RaftWorkerInner.handleAppendEntries req >>= fun resp =>
          pure (RpcResponse.appendEntries resp)).run
          { (w.inner.updateTerm req.term).2 with leaderId := some req.leaderId }) := rfl
    rcases appendEntries_turn hr hidx hcall h₂ with
      ⟨a', resp, w', hrun, hturn, hidx', hinner, hfresh⟩ | hrun
    · rw [EStateM.run_bind_of_ok hrun] at hunfold
      simp only [RaftWorkerState.onRpc, hunfold, EStateM.run_pure]
      exact .reply hturn hidx' hinner rfl hfresh
    · rw [EStateM.run_bind_of_error hrun] at hunfold
      simp only [RaftWorkerState.onRpc, hunfold]
      exact .stopped hr hidx h₂ rfl
  · obtain ⟨a', hturn, hlog, hinner, hfresh⟩ := requestVote_sim h hr hcall.2.2
      (fun hg => hvotes hg req rfl)
    exact .reply hturn (by rwa [hlog]) hinner rfl hfresh
  · exact .reply ⟨hr, Turn.refl i a⟩ hidx h rfl trivial

/-- **A candidate's reaction to a request.** -/
theorem candidate_rpc_sim {w : RaftWorker Candidate Cmd} {caller : NodeId} {k : ℕ}
    {req : RpcRequest Cmd} (h : InnerSim cfg g replies a i w.inner) (hc : CandidateSim cfg a i w)
    (hr : Reached cfg g a) (hidx : ∀ t, Indexed (a.leaderLog t))
    (he : EventSim cfg g replies a i (.candidate w) (.rpc caller k req)) :
    Reaction cfg g replies a i (.rpc caller k req)
      (RaftWorkerState.onRpc caller k req (.candidate w)).1
      (RaftWorkerState.onRpc caller k req (.candidate w)).2 := by
  obtain ⟨hcall, hvotes⟩ := he
  rcases req with req | req | req
  · have h₁ := h.hear hr req.term
    have hunfold : (Candidate.handleRpc (.appendEntries req)).run w.inner =
        ((RaftWorkerInner.handleAppendEntries req >>= fun resp =>
          pure (RpcResponse.appendEntries resp, StateChange.becomeFollower)).run
          (w.inner.updateTerm req.term).2) := rfl
    rcases appendEntries_turn hr hidx hcall h₁ with
      ⟨a', resp, w', hrun, hturn, hidx', hinner, hfresh⟩ | hrun
    · rw [EStateM.run_bind_of_ok hrun] at hunfold
      simp only [RaftWorkerState.onRpc, hunfold, EStateM.run_pure]
      exact .reply hturn hidx' hinner rfl hfresh
    · rw [EStateM.run_bind_of_error hrun] at hunfold
      simp only [RaftWorkerState.onRpc, hunfold]
      exact .stopped hr hidx h₁ rfl
  · rcases Nat.lt_or_ge (a.term i) req.term with hnew | hold
    · -- a newer term: the node is a follower from now on
      obtain ⟨a', hturn, hlog, hinner, hfresh⟩ := requestVote_sim h hr hcall.2.2
        (fun hg => hvotes hg req rfl)
      have hrun : (Candidate.handleRpc (.requestVote req)).run w.inner =
          .ok (.requestVote ((w.inner.updateTerm req.term).2.handleRequestVote req).1,
            if (w.inner.updateTerm req.term).1 then .becomeFollower else .continue)
            ((w.inner.updateTerm req.term).2.handleRequestVote req).2 := rfl
      rw [updateTerm_fst h, decide_eq_true hnew, if_pos rfl] at hrun
      simp only [RaftWorkerState.onRpc, hrun]
      exact .reply hturn (by rwa [hlog]) hinner rfl hfresh
    · -- in its own term a candidate has voted for itself
      have hno : ¬w.inner.grantsVote req := by
        rintro ⟨-, hvote, -⟩
        obtain ⟨l, hl⟩ := Option.ne_none_iff_exists'.mp hc.stood
        rw [h.vote, (hr.inv.stood_vote hl).2] at hvote
        have hsrc : i = req.candidate := by simpa using hvote
        exact hcall.2.1 (hsrc.trans hcall.2.2.1)
      have hrun : (Candidate.handleRpc (.requestVote req)).run w.inner =
          .ok (.requestVote ((w.inner.updateTerm req.term).2.handleRequestVote req).1,
            if (w.inner.updateTerm req.term).1 then .becomeFollower else .continue)
            ((w.inner.updateTerm req.term).2.handleRequestVote req).2 := rfl
      rw [updateTerm_of_le h hold, handleRequestVote_of_not_grants hno] at hrun
      simp only [RaftWorkerState.onRpc, hrun, Bool.false_eq_true, if_false]
      exact ⟨a, ⟨hr, Turn.refl i a⟩, .running (w := .candidate w) h hc, hidx,
        fun _ heq => ⟨caller, k, _, rfl, Option.some.inj heq ▸ fun hf => by cases hf⟩⟩
  · exact ⟨a, ⟨hr, Turn.refl i a⟩, .running (w := .candidate w) h hc, hidx,
      fun _ heq => ⟨caller, k, _, rfl, Option.some.inj heq ▸ trivial⟩⟩

/-- **A leader's reaction to a request.** -/
theorem leader_rpc_sim {w : RaftWorker Leader Cmd} {caller : NodeId} {k : ℕ}
    {req : RpcRequest Cmd} (hi : i ∈ cfg.ids) (h : Leading cfg g replies a i w)
    (hr : Reached cfg g a) (hidx : ∀ t, Indexed (a.leaderLog t))
    (he : EventSim cfg g replies a i (.leader w) (.rpc caller k req)) :
    Reaction cfg g replies a i (.rpc caller k req)
      (RaftWorkerState.onRpc caller k req (.leader w)).1
      (RaftWorkerState.onRpc caller k req (.leader w)).2 := by
  obtain ⟨hcall, hvotes⟩ := he
  have hterm := h.inner.term
  rcases req with req | req | req
  · rcases Nat.lt_or_ge (a.term i) req.term with hnew | hold
    · have h₁ := h.inner.hear hr req.term
      have hrpc := Leader.handleRpc_appendEntries_of_lt caller k (hterm.trans_lt hnew)
      rcases appendEntries_turn hr hidx hcall h₁ with
        ⟨a', resp, w', hrun, hturn, hidx', hinner, hfresh⟩ | hrun
      · rw [hrun] at hrpc
        simp only [RaftWorkerState.onRpc, hrpc]
        exact .reply hturn hidx' hinner rfl hfresh
      · rw [hrun] at hrpc
        simp only [RaftWorkerState.onRpc, hrpc]
        exact .stopped hr hidx h₁ rfl
    · have hrpc := Leader.handleRpc_appendEntries_of_le caller k (hold.trans hterm.ge)
      simp only [RaftWorkerState.onRpc, hrpc]
      refine ⟨a, ⟨hr, Turn.refl i a⟩, .running (w := .leader w) h.inner h.leader, hidx,
        fun _ heq => ⟨caller, k, _, rfl, Option.some.inj heq ▸ ⟨by simp, fun _ heq => ?_⟩⟩⟩
      -- nobody else leads the term of a leader
      have hlead := hcall.2.2.1
      rw [← heq, hterm, h.leader.leader] at hlead
      exact absurd (Option.some.inj hlead) hcall.2.1
  · rcases Nat.lt_or_ge (a.term i) req.term with hnew | hold
    · obtain ⟨a', hturn, hlog, hinner, hfresh⟩ := requestVote_sim h.inner hr hcall.2.2
        (fun hg => hvotes hg req rfl)
      have hrpc := Leader.handleRpc_requestVote_of_lt caller k (hterm.trans_lt hnew)
      simp only [RaftWorkerState.onRpc, hrpc]
      exact .reply hturn (by rwa [hlog]) hinner rfl hfresh
    · have hrpc := Leader.handleRpc_requestVote_of_le caller k (hold.trans hterm.ge)
      simp only [RaftWorkerState.onRpc, hrpc]
      exact ⟨a, ⟨hr, Turn.refl i a⟩, .running (w := .leader w) h.inner h.leader, hidx,
        fun _ heq => ⟨caller, k, _, rfl, Option.some.inj heq ▸ fun hf => by cases hf⟩⟩
  · obtain ⟨cmd⟩ := req
    obtain ⟨a', hturn, hidx', hrun⟩ := handleLogUpdate_sim hi h hr hidx cmd (.rpc caller k)
    have hunfold : (Leader.handleRpc caller k (.forwardClientRequest (.apply cmd))).run w =
        (Leader.handleLogUpdate cmd (.rpc caller k) >>= fun _ =>
          pure (none, StateChange.continue)).run w := rfl
    have hwx := hrun w rfl
    rcases hx : (Leader.handleLogUpdate cmd (.rpc caller k)).run w with ⟨u, w'⟩ | ⟨p, w'⟩
    · rw [hx] at hwx
      rw [EStateM.run_bind_of_ok hx] at hunfold
      simp only [RaftWorkerState.onRpc, hunfold, EStateM.run_pure]
      exact ⟨a', hturn, .running (w := .leader w') hwx.inner hwx.leader, hidx',
        fun _ heq => by cases heq⟩
    · rw [hx] at hwx
      rw [EStateM.run_bind_of_error hx] at hunfold
      simp only [RaftWorkerState.onRpc, hunfold]
      exact ⟨a', hturn,
        { inner := hwx.inner
          role := fun h => by cases h
          sound := fun hg => by simpa using hwx.sound hg }, hidx', fun _ heq => by cases heq⟩

/-- **A leader's reaction to a response.** -/
theorem append_sim {w : RaftWorker Leader Cmd} (hi : i ∈ cfg.ids)
    (h : Leading cfg g replies a i w) (hr : Reached cfg g a)
    (hidx : ∀ t, Indexed (a.leaderLog t)) {task : InFlightAppend} {res : RpcResult}
    (htask : task ∈ w.state.responsesRx)
    (he : EventSim cfg g replies a i (.leader w) (.response task.call res)) :
    Reaction cfg g replies a i (.response task.call res)
      (RaftWorkerState.onAppend w task res) none := by
  obtain ⟨a', hturn, hlog, hrun⟩ := handleAppendEntriesResponse_sim hi h hr htask he.1
    fun hg r resp hcall => he.2 hg w task r resp rfl htask rfl hcall
  refine ⟨a', hturn, ?_, by rwa [hlog], fun _ heq => by cases heq⟩
  have hwx := hrun _ rfl
  unfold RaftWorkerState.onAppend
  rcases hx : (Leader.handleAppendEntriesResponse task.peerId task.firstEntry task.lastEntry
      res).run { w with state := { w.state with
        responsesRx := w.state.responsesRx.filter (·.call ≠ task.call) } } with
    ⟨change, w'⟩ | ⟨p, w'⟩
  · rw [hx] at hwx
    simp only [hx]
    cases change with
    | «continue» => exact .running (w := .leader w') hwx.inner hwx.leader
    | becomeFollower => exact .running (w := .follower w'.toFollower) hwx trivial
  · rw [hx] at hwx
    simp only [hx]
    exact
      { inner := hwx.inner
        role := fun h => by cases h
        sound := fun hg => by simpa using hwx.sound hg }

/-- A follower hands a client's request to the leader it knows, or refuses it. -/
theorem forward_sim {w : RaftWorker Follower Cmd} {req : ClientRequest Cmd} {token : ℕ}
    (h : InnerSim cfg g replies a i w.inner) : NodeSim cfg g replies a i
      (RaftWorkerState.innerStep (Follower.forwardClientRequest req token) (.follower w)) := by
  have hanswer : ∀ res, NodeSim cfg g replies a i
      ⟨(RaftWorkerState.follower w).withInner (w.inner.answer (.client token) res), none⟩ :=
    fun res => .running (w := .follower _) { h with } trivial
  unfold RaftWorkerState.innerStep Follower.forwardClientRequest
  rw [EStateM.run_bind_of_ok (EStateM.run_get _)]
  simp only [RaftWorkerState.inner]
  rcases hl : w.inner.leaderId with _ | leader
  · exact hanswer _
  rcases hc : w.inner.peerClients.lookup leader with _ | client
  · simp only [Option.bind_some, hc]
    exact hanswer _
  simp only [Option.bind_some, hc, Option.getD_some]
  split_ifs
  · have hmem : leader ∈ w.inner.peerClients := by
      rw [← AList.lookup_isSome, hc]
      rfl
    obtain ⟨hp, hne⟩ := h.member.2.2.2.2 leader hmem
    have hnew : ∀ call ∈ [(leader, RpcRequest.forwardClientRequest req)],
        CallSim cfg g a i call := by
      intro call hcall
      rw [List.mem_singleton.mp hcall]
      exact ⟨hp, hne, trivial⟩
    have hcall := h.call hnew
    exact .running (w := .follower _) { hcall with } trivial
  · exact hanswer _

/-- **Every reaction is a turn of the protocol.** -/
theorem on_sim {w : RaftWorkerState Cmd} {e : Event Cmd} {n : Node Cmd}
    {reply : Option RpcResponse} (hi : i ∈ cfg.ids) (h : NodeSim cfg g replies a i ⟨w, none⟩)
    (hr : Reached cfg g a) (hidx : ∀ t, Indexed (a.leaderLog t))
    (he : EventSim cfg g replies a i w e) (hon : w.on e = some (n, reply)) :
    Reaction cfg g replies a i e n reply := by
  have hinner := h.inner
  have hrole := h.role rfl
  cases e with
  | electionTimeout =>
    obtain ⟨n', hn', heq⟩ := Option.map_eq_some_iff.mp hon
    obtain ⟨rfl, rfl⟩ := Prod.mk.inj heq
    rcases w with w | w | w
    · -- a follower forgets its leader first
      obtain ⟨hturn, hn⟩ := elect_sim (w := { w.inner with leaderId := none }) hi { hinner with } hr
      exact ⟨_, hturn, Option.some.inj hn' ▸ hn, hidx, fun _ heq => by cases heq⟩
    · obtain ⟨hturn, hn⟩ := elect_sim hi hinner hr
      exact ⟨_, hturn, Option.some.inj hn' ▸ hn, hidx, fun _ heq => by cases heq⟩
    · cases hn'
  | rpc caller k req =>
    obtain ⟨rfl, rfl⟩ := Prod.mk.inj (Option.some.inj hon)
    rcases w with w | w | w
    · exact follower_rpc_sim hinner hr hidx he
    · exact candidate_rpc_sim hinner hrole hr hidx he
    · exact leader_rpc_sim hi ⟨hinner, hrole⟩ hr hidx he
  | response k res =>
    obtain ⟨n', hn', heq⟩ := Option.map_eq_some_iff.mp hon
    obtain ⟨rfl, rfl⟩ := Prod.mk.inj heq
    rcases w with w | w | w
    · exact .of_same hr hidx (answerForwarded_sim hinner hrole hn')
    -- a candidate hears from one of its calls, or from a client's call that it forwarded
    · simp only [RaftWorkerState.onResponse] at hn'
      split_ifs at hn' with hk
      · obtain ⟨a', hturn, hn, hidx'⟩ := vote_sim hi hinner hrole hr hidx hk he.1
        exact ⟨a', hturn, Option.some.inj hn' ▸ hn, hidx', fun _ heq => by cases heq⟩
      · exact .of_same hr hidx (answerForwarded_sim hinner hrole hn')
    · simp only [RaftWorkerState.onResponse] at hn'
      -- which task of the leader waits for this call
      rcases htask : w.state.responsesRx.find? (·.call = k) with _ | task
      · rw [htask] at hn'
        exact .of_same hr hidx (answerForwarded_sim hinner hrole hn')
      · rw [htask] at hn'
        have hk : task.call = k := by simpa using List.find?_some htask
        subst hk
        exact Option.some.inj hn' ▸
          append_sim hi ⟨hinner, hrole⟩ hr hidx (List.mem_of_find?_eq_some htask) he
  | heartbeat =>
    obtain ⟨n', hn', heq⟩ := Option.map_eq_some_iff.mp hon
    obtain ⟨rfl, rfl⟩ := Prod.mk.inj heq
    rcases w with w | w | w
    · cases hn'
    · cases hn'
    · refine .of_same hr hidx (.of_leaderStep hn' ?_)
      rintro _ rfl
      exact heartbeat_triple hi hr w ⟨hinner, hrole⟩
  | client token req =>
    obtain ⟨n', hn', heq⟩ := Option.map_eq_some_iff.mp hon
    obtain ⟨rfl, rfl⟩ := Prod.mk.inj heq
    rcases w with w | w | w
    · exact .of_same hr hidx (Option.some.inj hn' ▸ forward_sim hinner)
    · exact .of_same hr hidx (Option.some.inj hn' ▸ .withInner (w := .candidate w) hrole
        { hinner with } rfl (by simp))
    · obtain ⟨cmd⟩ := req
      obtain ⟨a', hturn, hidx', hrun⟩ :=
        handleLogUpdate_sim hi ⟨hinner, hrole⟩ hr hidx cmd (.client token)
      exact ⟨a', hturn, .of_leaderStep hn' hrun, hidx', fun _ heq => by cases heq⟩
  | advanceCommitIndex =>
    obtain ⟨n', hn', heq⟩ := Option.map_eq_some_iff.mp hon
    obtain ⟨rfl, rfl⟩ := Prod.mk.inj heq
    rcases w with w | w | w
    · cases hn'
    · cases hn'
    · refine .of_same hr hidx (.of_leaderStep hn' ?_)
      rintro _ rfl
      exact advanceCommitIndex_triple hi hr w ⟨hinner, hrole⟩
  | applyLog =>
    obtain ⟨rfl, rfl⟩ := Prod.mk.inj (Option.some.inj hon)
    have hrun := RaftWorkerInner.applyLog_eq hinner.wf
    obtain ⟨w', hrun', happ⟩ := applyLog_sim hinner
    -- the run that is simulated is the one of `applyLog_eq`
    obtain ⟨-, rfl⟩ := EStateM.Result.ok.inj (hrun'.symm.trans hrun)
    refine .of_same hr hidx ?_
    rw [RaftWorkerState.innerStep, hrun]
    exact .withInner hrole happ rfl (by simp)
  | connect peer =>
    obtain ⟨rfl, rfl⟩ := Prod.mk.inj (Option.some.inj hon)
    refine .of_same hr hidx (.withInner hrole { hinner with member := ?_ } rfl (by simp))
    obtain ⟨h1, h2, h3, h4, h5⟩ := hinner.member
    refine ⟨h1, h2, h3, h4, fun p hp => ?_⟩
    rcases (AList.mem_insert _).mp hp with rfl | hp
    · exact he
    · exact h5 p hp
  | disconnect peer =>
    obtain ⟨rfl, rfl⟩ := Prod.mk.inj (Option.some.inj hon)
    refine .of_same hr hidx ?_
    rw [RaftWorkerState.innerStep, EStateM.run_modify]
    rcases hc : w.inner.peerClients.lookup peer with _ | client
    · exact .withInner hrole hinner rfl (by simp)
    · refine .withInner hrole { hinner with member := ?_ } rfl (by simp)
      obtain ⟨h1, h2, h3, h4, h5⟩ := hinner.member
      refine ⟨h1, h2, h3, h4, fun p hp => ?_⟩
      rcases (AList.mem_insert _).mp hp with rfl | hp
      · exact h5 p (by rw [← AList.lookup_isSome, hc]; rfl)
      · exact h5 p hp

/-! ### Steps of the cluster -/

section Cluster

variable {c c' : Cluster Cmd}

theorem Sim.node (h : Sim cfg g c a) (hi : i ∈ cfg.ids) {p : Option Panic}
    (hp : (c.nodes i).panicked = p) : NodeSim cfg g c.replies a i ⟨c.worker i, p⟩ :=
  hp ▸ h.nodes i hi

omit [Bincode (LogEntry Cmd)] in
theorem Cluster.LeaderAt.inner {w : RaftWorker Leader Cmd} (h : c.LeaderAt i w) :
    c.inner i = w.inner := by
  rw [Cluster.inner, Cluster.worker, show c.nodes i = _ from h]
  rfl

/-- One node changes, by a turn of the protocol. -/
theorem Sim.setNode (h : Sim cfg g c a) (ht : Turns cfg g i a a') {n : Node Cmd}
    (hn : NodeSim cfg g c.replies a' i n) (hidx : ∀ t, Indexed (a'.leaderLog t)) :
    Sim cfg g (c.setNode i n) a' := by
  refine ⟨fun j hj => ?_, hidx⟩
  by_cases hji : j = i
  · subst hji
    simpa [Cluster.setNode] using hn
  · have := (h.nodes j hj).other ht hji
    simpa [Cluster.setNode, Function.update_of_ne hji] using this

theorem panicked_of_react {e : Event Cmd} {r : Cluster Cmd × Option RpcResponse}
    (hc : c.react i e = some r) : (c.nodes i).panicked = none := by
  unfold Cluster.react at hc
  rcases hp : (c.nodes i).panicked with _ | p
  · rfl
  · rw [hp] at hc
    cases hc

/-- A node of the cluster reacts. -/
theorem react_sim (hi : i ∈ cfg.ids) (h : Sim cfg g c a) (hr : Reached cfg g a) {e : Event Cmd}
    {reply : Option RpcResponse} (he : EventSim cfg g c.replies a i (c.worker i) e)
    (hc : c.react i e = some (c', reply)) :
    c'.replies = c.replies ∧ (∀ j, (c.inner j).transport = (c'.inner j).transport ∨ j = i) ∧
      ∃ a', Turns cfg g i a a' ∧ Sim cfg g c' a' ∧ ∀ resp, reply = some resp →
        ∃ caller k req, e = .rpc caller k req ∧ FreshSim a' caller i req resp := by
  have hp := panicked_of_react hc
  rw [Cluster.react, hp] at hc
  obtain ⟨⟨n, reply'⟩, hon, heq⟩ := Option.map_eq_some_iff.mp hc
  obtain ⟨rfl, rfl⟩ := Prod.mk.inj heq
  obtain ⟨a', hturn, hn, hidx, hreply⟩ := on_sim hi (h.node hi hp) hr h.indexed he hon
  refine ⟨rfl, fun j => ?_, a', hturn, h.setNode hturn hn hidx, hreply⟩
  by_cases hj : j = i
  · exact .inr hj
  · exact .inl (by simp [Cluster.inner, Cluster.worker, Cluster.setNode, Function.update_of_ne hj])

/-- A restarted node is a follower with its storage. -/
theorem restart_sim {n : Node Cmd} (h : InnerSim cfg g replies a i n.worker.inner) :
    NodeSim cfg g replies a i n.restart := by
  have hkey : n.worker.inner.storage.sessionKey = n.worker.inner.sessionKey := h.member.2.2.2.1
  have hnew := h.wf.cached.new_eq
  rw [hkey] at hnew
  unfold Node.restart WorkerBuilder.start
  dsimp only
  rw [hnew]
  obtain ⟨h1, h2, h3, h4, -⟩ := h.member
  refine .running (w := .follower _) { h with member := ?_, applied := fun _ => ?_ } trivial
  · refine ⟨h1, h2, ?_, h4, fun p hp => absurd hp (AList.notMem_empty p)⟩
    show n.worker.inner.peers.length + 1 = _
    rw [h2]
  · exact
      { commit_le := Nat.zero_le _
        commit := .nil _
        last := rfl
        applied_prefix := List.nil_prefix
        applied := .nil _ }

/-- **Every step of the cluster is a turn of the protocol.** -/
theorem exec_sim (h : Sim cfg g c a) (hr : Reached cfg g a) {act : Action Cmd}
    (hs : c.exec cfg act = some c') (hvotes : g.upToDate → c.grantsOutdated act = false)
    (hprobes : g.longProbes → c.shortProbeRefused act = false) :
    ∃ i a', Turns cfg g i a a' ∧ Sim cfg g c' a' := by
  -- a reaction that needs nothing from outside
  have hlocal : ∀ (i : NodeId) (e : Event Cmd), EventSim cfg g c.replies a i (c.worker i) e →
      (if i ∈ cfg.ids then (c.react i e).map (·.1) else none) = some c' →
      ∃ i a', Turns cfg g i a a' ∧ Sim cfg g c' a' := by
    intro i e he hs
    split_ifs at hs with hi
    obtain ⟨⟨c'', reply⟩, hc, rfl⟩ := Option.map_eq_some_iff.mp hs
    obtain ⟨-, -, a', hturn, hsim, -⟩ := react_sim hi h hr he hc
    exact ⟨i, a', hturn, hsim⟩
  cases act with
  | electionTimeout i => exact hlocal i .electionTimeout trivial hs
  | heartbeat i => exact hlocal i .heartbeat trivial hs
  | advanceCommitIndex i => exact hlocal i .advanceCommitIndex trivial hs
  | applyLog i => exact hlocal i .applyLog trivial hs
  | disconnect i p => exact hlocal i (.disconnect p) trivial hs
  | connect i p =>
    simp only [Cluster.exec] at hs
    split_ifs at hs with hmem
    exact hlocal i (.connect p) ⟨hmem.2.1, hmem.2.2⟩ (by rw [if_pos hmem.1]; exact hs)
  | fail i k err =>
    exact hlocal i (.response k (.error err)) ⟨nofun, fun _ _ _ _ _ _ _ _ _ h => nomatch h⟩ hs
  | client i req =>
    simp only [Cluster.exec] at hs
    split_ifs at hs with hi
    obtain ⟨⟨c'', reply⟩, hc, rfl⟩ := Option.map_eq_some_iff.mp hs
    obtain ⟨-, -, a', hturn, hsim, -⟩ := react_sim hi h hr (e := .client c.tokens req) trivial hc
    exact ⟨i, a', hturn, ⟨hsim.nodes, hsim.indexed⟩⟩
  | receive i k =>
    simp only [Cluster.exec] at hs
    split_ifs at hs with hi
    rcases hresp : c.replies.lookup (i, k) with _ | resp
    · rw [hresp] at hs
      cases hs
    rw [hresp] at hs
    obtain ⟨⟨c'', reply⟩, hc, rfl⟩ := Option.map_eq_some_iff.mp hs
    have hp := panicked_of_react hc
    have he : EventSim cfg g c.replies a i (c.worker i) (.response k (.ok resp)) := by
      refine ⟨fun _ heq => ?_, fun hg l task r resp' hw htask hk hcall heq => ?_⟩
      · obtain rfl := Except.ok.inj heq
        obtain ⟨l₁, l₂, hl, -⟩ := List.lookup_eq_some_iff.mp hresp
        rw [hl]
        simp
      · obtain rfl := Except.ok.inj heq
        have hlead : c.LeaderAt i l := by
          rw [Cluster.LeaderAt, ← hp, ← hw]
          rfl
        intro hfail hterm hshort
        have hcall' : (c.inner i).transport.calls[k]? = some (task.peerId, .appendEntries r) := by
          rw [hlead.inner, hcall]
        have hany : l.state.responsesRx.any (·.call = k) := List.any_eq_true.mpr
          ⟨task, htask, by simp [hk]⟩
        have := hprobes hg
        simp [Cluster.shortProbeRefused, show c.nodes i = _ from hlead, hresp, hcall', hany, hfail,
          hterm, hshort] at this
    obtain ⟨-, -, a', hturn, hsim, -⟩ := react_sim hi h hr he hc
    exact ⟨i, a', hturn, hsim⟩
  | deliver i k =>
    simp only [Cluster.exec] at hs
    split_ifs at hs with hi
    rcases hcall : (c.inner i).transport.calls[k]? with _ | ⟨dst, req⟩
    · rw [hcall] at hs
      cases hs
    rw [hcall] at hs
    obtain ⟨⟨c'', reply⟩, hc, rfl⟩ := Option.map_eq_some_iff.mp hs
    have hsim := (h.nodes i hi.1).inner.calls _ (List.mem_of_getElem? hcall)
    have he : EventSim cfg g c.replies a dst (c.worker dst) (.rpc i k req) :=
      ⟨hsim, fun hg r hreq hgrant => by
        have := hvotes hg
        subst hreq
        simp only [Cluster.grantsOutdated, hcall] at this
        have hgrant' : ((c.inner dst).updateTerm r.term).2.grantsVote r := hgrant
        rw [decide_eq_true hgrant', Bool.true_and, Bool.not_eq_false'] at this
        exact this⟩
    obtain ⟨hreplies, hcalls, a', hturn, hsim', hfresh⟩ := react_sim hsim.1 h hr he hc
    refine ⟨dst, a', hturn, ⟨fun j hj => ?_, hsim'.indexed⟩⟩
    have hj' := hsim'.nodes j hj
    rw [hreplies] at hj'
    cases reply with
    | none => exact hj'
    | some resp =>
      obtain ⟨caller, k', req', heq, hresp⟩ := hfresh resp rfl
      obtain ⟨rfl, rfl, rfl⟩ := Event.rpc.inj heq
      refine hj'.reply (fun hji => ?_) fun _ => hresp
      subst hji
      rw [← hcall]
      exact congrArg (fun t : Transport Cmd => t.calls[k]?)
        ((hcalls j).resolve_right hsim.2.1.symm).symm
  | relay j n =>
    simp only [Cluster.exec] at hs
    split at hs
    · obtain rfl := Option.some.inj hs
      exact ⟨j, a, ⟨hr, Turn.refl j a⟩, ⟨fun q hq => (h.nodes q hq).relay, h.indexed⟩⟩
    · cases hs
  | restart i =>
    simp only [Cluster.exec] at hs
    split_ifs at hs with hi
    obtain rfl := Option.some.inj hs
    have hturn : Turns cfg g i a a := ⟨hr, Turn.refl i a⟩
    exact ⟨i, a, hturn, h.setNode hturn (restart_sim (h.nodes i hi).inner) h.indexed⟩

end Cluster

end Wraft
