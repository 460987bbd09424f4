import Wraft.Raft.Answers
import Wraft.Raft.Safety

/-!
# Acknowledged requests are in order

To a client, a cluster is one machine that carries out requests one after the other. In runs whose
votes go to candidates with an up to date log that is what it is (`Cluster.linearizable`): every
request that was acknowledged has its own place in the log, where every node that applies anything
applies this request's command and where every later leader has it; and a request made after another
one was acknowledged comes after it. It makes no difference whether a client asks the leader or a
follower, nor how many leaders there are in between.

The place of a request is that of the entry that was granted to it (`Granted`). The entry is chosen
in its term (`Settled`), so two such entries at one index are the same entry. An entry that a leader
takes was nowhere before (`not_stored`), so the entry is taken once; and if a leader that takes an
entry does not have the one of an earlier request, then because its term is an older one, in which
case the leader of the newer term had the later entry first.
-/

namespace Wraft

open Consensus TransitionSystem

variable {Cmd : Type} [Bincode (LogEntry Cmd)]

namespace Cluster

variable {cfg : Config} {c c' d d' : Cluster Cmd} {q r : List (Cluster Cmd)} {i j : NodeId}
  {tx tx' : ClientSender} {cmd cmd' : Cmd} {e f : LogEntry Cmd} {token token' : ℕ}

/-! ### Requests are taken once -/

/-- A step in which a node is asked for something is a step of this node. -/
theorem Asks.inner_of_ne (h : Asks cfg c c' i tx cmd) (hj : j ≠ i) : c'.inner j = c.inner j := by
  have hreact : ∀ {e : Event Cmd} {s : Cluster Cmd × Option RpcResponse},
      c.react i e = some s → s.1.inner j = c.inner j := by
    intro e s hs
    obtain ⟨n, -, heq⟩ := on_of_react hs
    rw [heq]
    exact inner_congr (nodes_setNode_of_ne c hj n)
  cases h with
  | client h =>
    rw [exec] at h
    split_ifs at h with hi
    obtain ⟨s, hs, rfl⟩ := Option.map_eq_some_iff.mp h
    exact hreact hs
  | forwarded h hcall =>
    rw [exec] at h
    split_ifs at h with hi
    rw [hcall] at h
    obtain ⟨s, hs, rfl⟩ := Option.map_eq_some_iff.mp h
    exact hreact hs

theorem records_of_suffix (hr : IsRun cfg r) (hq : (d :: q) <:+ r) (hc : c ∈ d :: q) :
    c.Records d :=
  IsRun.records (hr.of_suffix hq (List.cons_ne_nil _ _)) c hc

/-- What is on record before a move of a run is on record after it. -/
theorem records_of_moves (hr : IsRun cfg r) (hm : Moves r c c') : c.Records c' := by
  obtain ⟨-, q, -, hq⟩ := TransitionSystem.IsRun.of_moves hr hm
  exact records_of_suffix hr hq (List.mem_cons_of_mem _ List.mem_cons_self)

/-- A sender asks once. -/
theorem Asks.eq_of_moves (hr : IsRun cfg r) (h : Asks cfg c c' i tx cmd)
    (h' : Asks cfg d d' j tx cmd') (hm : Moves r c c') (hm' : Moves r d d') :
    c = d ∧ c' = d' := by
  refine Moves.unique (P := fun c c' => ∃ i cmd, Asks cfg c c' i tx cmd) ?_ hm ⟨i, cmd, h⟩
    hm' ⟨j, cmd', h'⟩
  rintro c c' d d' q - ⟨i, cmd, h⟩ - ⟨j, cmd', h'⟩ hq hmem
  have hrecords := records_of_suffix hr hq hmem
  rcases h.sender, h'.sender with
    ⟨⟨rfl, hone⟩ | ⟨m, k, rfl, -, -, hdelivered⟩, ⟨htx, -⟩ | ⟨m', k', htx, -, hfresh, -⟩⟩
  · have htokens : c.tokens = d.tokens := ClientSender.client.inj htx
    have := hrecords.tokens
    omega
  · cases htx
  · cases htx
  · obtain ⟨rfl, rfl⟩ := ClientSender.rpc.inj htx
    exact hfresh (hrecords.delivered (hdelivered ▸ List.mem_cons_self))

theorem lt_length_of_getElem? {α : Type} {l : List α} {k : ℕ} {a : α} (h : l[k]? = some a) :
    k < l.length := (List.getElem?_eq_some_iff.mp h).1

/-- A call forwards the request of one client. -/
theorem Forwarded.eq_token (hr : IsRun cfg r) {k : ℕ} (h : Forwarded cfg r i k token)
    (h' : Forwarded cfg r i k token') : token = token' := by
  obtain ⟨c, c', cmd, peer, hm, hasks, -, hk, hcall⟩ := h
  obtain ⟨d, d', cmd', peer', hm', hasks', -, hk', hcall'⟩ := h'
  -- the number of a call is given once
  have honce : c = d ∧ c' = d' := by
    refine Moves.unique (P := fun c c' => k = (c.inner i).transport.calls.length ∧
      k < (c'.inner i).transport.calls.length) ?_ hm ⟨hk, lt_length_of_getElem? hcall⟩
      hm' ⟨hk', lt_length_of_getElem? hcall'⟩
    rintro c c' d d' q - ⟨-, hlt⟩ - ⟨hk, -⟩ hq hmem
    have := ((records_of_suffix hr hq hmem).calls i).length_le
    omega
  obtain ⟨rfl, rfl⟩ := honce
  exact ClientSender.client.inj (hasks.eq_sender hasks')

/-- The request of a client is forwarded in one call. -/
theorem Forwarded.eq_call (hr : IsRun cfg r) {k m : ℕ} (h : Forwarded cfg r i k token)
    (h' : Forwarded cfg r j m token) : i = j ∧ k = m := by
  obtain ⟨c, c', cmd, peer, hm, hasks, -, rfl, hcall⟩ := h
  obtain ⟨d, d', cmd', peer', hm', hasks', -, rfl, hcall'⟩ := h'
  obtain ⟨rfl, rfl⟩ := hasks.eq_of_moves hr hasks' hm hm'
  by_cases hij : i = j
  · subst hij
    exact ⟨rfl, rfl⟩
  · -- the call is new at its node
    rw [hasks'.inner_of_ne hij] at hcall
    exact absurd (lt_length_of_getElem? hcall) (lt_irrefl _)

/-! ### The record of a run -/

/-- As `sim_of_upToDate`; moreover, whatever was ever in a log was taken by the leader of its term,
and stands in this leader's log at the same index. -/
theorem exists_genuine (hr : IsRunWhere cfg (fun c a => c.grantsOutdated a = false) r) :
    ∃ a, Reached cfg ⟨True, False⟩ a ∧ (∀ c, r.head? = some c → Sim cfg ⟨True, False⟩ c a) ∧
      History cfg ⟨True, False⟩ r a ∧
      ∀ d ∈ r, ∀ i ∈ cfg.ids, Genuine LogEntry.term a (d.storage i).log := by
  have hsame : ∀ {c : Cluster Cmd} {a : Spec Cmd}, Reached cfg ⟨True, False⟩ a →
      Sim cfg ⟨True, False⟩ c a → ∀ i ∈ cfg.ids, Genuine LogEntry.term a (c.storage i).log := by
    intro c a ha hs i hi
    have hlog : (c.storage i).log = a.log i := (hs.nodes i hi).inner.log
    exact hlog ▸ (ha.inv.log_genuine i).1
  refine TransitionSystem.IsRun.simulate
    (R := fun r a => (∀ c, r.head? = some c → Sim cfg ⟨True, False⟩ c a) ∧
      History cfg ⟨True, False⟩ r a ∧
      ∀ d ∈ r, ∀ i ∈ cfg.ids, Genuine LogEntry.term a (d.storage i).log) ?_ ?_ hr
  · rintro _ rfl
    have hboot : IsRunWhere cfg (fun c a => c.grantsOutdated a = false)
        [(boot cfg : Cluster Cmd)] := .start rfl
    obtain ⟨a, ha, hsim, hist⟩ := sim_of_upToDate hboot
    refine ⟨a, ha, hsim, hist, fun d hd => ?_⟩
    obtain rfl := List.mem_singleton.mp hd
    exact hsame ha (hsim _ rfl)
  · rintro c c' r a - ha ⟨hsim, hist, hgenuine⟩ ⟨act, hact, hexec⟩
    have hs := hsim c rfl
    obtain ⟨i, a', hturn, hs'⟩ := exec_sim hs ha hexec (fun _ => hact) False.elim
    have ha' := hturn.turn.reachable ha
    refine ⟨a', ha', fun d hd => Option.some.inj hd ▸ hs', hist.next hs hturn hs', fun d hd => ?_⟩
    rcases List.mem_cons.mp hd with rfl | hd
    · exact hsame ha' hs'
    · exact fun j hj => (hgenuine d hd j hj).mono hturn.later.grows

theorem log_eq_leaderLog {g : Guard} {a : Spec Cmd} (hs : Sim cfg g c a) (ha : Reached cfg g a)
    (hj : j ∈ cfg.ids) {l : RaftWorker Leader Cmd} (hl : c.LeaderAt j l) :
    (c.storage j).log = a.leaderLog (c.currentTerm j) := by
  have hterm : c.currentTerm j = a.term j := (hs.nodes j hj).inner.term
  rw [hterm, ← (hs.leading hj hl).log_eq ha, storage, hl.inner]

/-- **What a leader takes next is nowhere yet.** -/
theorem not_stored (hr : IsRunWhere cfg (fun c a => c.grantsOutdated a = false) (c :: q))
    {l : RaftWorker Leader Cmd} (hj : j ∈ cfg.ids) (hl : c.LeaderAt j l) (hd : d ∈ c :: q)
    (hi : i ∈ cfg.ids) (he : (d.storage i).log[(c.storage j).log.length]? = some e) :
    e.term ≠ c.currentTerm j := by
  obtain ⟨a, ha, hsim, -, hgenuine⟩ := exists_genuine hr
  have hlog := log_eq_leaderLog (hsim c rfl) ha hj hl
  intro hterm
  have hlt := (hgenuine d hd i hi).lt_length he
  rw [hterm, ← hlog] at hlt
  exact lt_irrefl _ hlt

/-- Only members are asked for anything. -/
theorem Asks.mem {g : Guard} {a : Spec Cmd} (h : Asks cfg c c' j tx cmd) (hs : Sim cfg g c a) :
    j ∈ cfg.ids := by
  cases h with
  | client h =>
    rw [exec] at h
    split_ifs at h with hj
    exact hj
  | @forwarded i _ k _ h hcall =>
    rw [exec] at h
    split_ifs at h with hi
    exact ((hs.nodes i hi.1).inner.calls _ (List.mem_of_getElem? hcall)).1

/-- What is taken: an entry of the leader's term, which goes to the end of the leader's log. -/
theorem Takes.placed (hr : IsRun cfg r) (hm : Moves r c c') (h : Takes cfg c c' j tx e) :
    j ∈ cfg.ids ∧ e.term = c.currentTerm j ∧ e.idx = (c.storage j).log.length + 1 ∧
      (c'.storage j).log = (c.storage j).log ++ [e] := by
  obtain ⟨-, q, hq, -⟩ := TransitionSystem.IsRun.of_moves hr hm
  obtain ⟨a, -, hsim, -⟩ := IsRun.sim hq
  have hj := h.asks.mem (hsim c rfl)
  have hlength : (c.storage j).log.length = (c.storage j).lastLogIndex :=
    ((hsim c rfl).nodes j hj).inner.wf.length_log
  obtain ⟨l, hl, hentry⟩ := h.leader
  have hstorage : c.storage j = l.inner.storage := by rw [Cluster.storage, hl.inner]
  refine ⟨hj, ?_, ?_, ?_⟩
  · rw [hentry, currentTerm, hstorage]
    rfl
  · rw [hentry, hlength, hstorage]
    rfl
  · rw [h.storage, Storage.log_appended]

/-- **An entry is taken once.** -/
theorem Takes.eq_of_moves (hr : IsRunWhere cfg (fun c a => c.grantsOutdated a = false) r)
    (h : Takes cfg c c' i tx e) (h' : Takes cfg d d' j tx' e) (hm : Moves r c c')
    (hm' : Moves r d d') : c = d ∧ c' = d' := by
  have hrun := IsRunWhere.isRun hr
  refine Moves.unique (P := fun c c' => ∃ i tx, Takes cfg c c' i tx e) ?_ hm ⟨i, tx, h⟩
    hm' ⟨j, tx', h'⟩
  rintro c c' d d' q hm ⟨i, tx, h⟩ hm' ⟨j, tx', h'⟩ hq hmem
  -- after it was taken it is in a log
  obtain ⟨hi, -, hidx, hlog⟩ := h.placed hrun hm
  obtain ⟨hj, hterm, hidx', -⟩ := h'.placed hrun hm'
  obtain ⟨l, hl, -⟩ := h'.leader
  refine not_stored (e := e) (TransitionSystem.IsRun.of_suffix hr hq (List.cons_ne_nil _ _)) hj hl
    hmem hi ?_ hterm
  have hlength : (d.storage j).log.length = (c.storage i).log.length := by omega
  rw [hlog, hlength, List.getElem?_concat_length]

/-! ### What is granted stays -/

/-- The entry is chosen, and its index is its place in the log of the leader of its term. -/
structure Settled (cfg : Config) (a : Spec Cmd) (e : LogEntry Cmd) : Prop where
  pos : 0 < e.idx
  chosen : Chosen LogEntry.term cfg.ids a e.term (e.idx - 1)
  placed : (a.leaderLog e.term)[e.idx - 1]? = some e

namespace Settled

variable {a : Spec Cmd}

omit [Bincode (LogEntry Cmd)] in
theorem getElem?_take (h : Settled cfg a e) :
    ((a.leaderLog e.term).take (e.idx - 1 + 1))[e.idx - 1]? = some e := by
  rw [List.getElem?_take_of_lt (Nat.lt_succ_self _)]
  exact h.placed

omit [Bincode (LogEntry Cmd)] in
/-- Two committed lists have the same entry at an index. -/
theorem eq_of_committed (ha : Reached cfg ⟨True, False⟩ a) (h : Settled cfg a e) {t : ℕ}
    {l : List (LogEntry Cmd)} (hl : Consensus.Committed LogEntry.term cfg.ids a t l)
    (hf : l[e.idx - 1]? = some f) : f = e := by
  have hcomplete : Complete LogEntry.term cfg.ids a := (ha.mono fun _ _ h => h trivial).complete
  rcases hl.prefix_or_prefix hcomplete ha.inv h.chosen.committed with hp | hp
  · exact Option.some.inj ((hp.getElem?_eq_some hf).symm.trans h.getElem?_take)
  · exact Option.some.inj (hf.symm.trans (hp.getElem?_eq_some h.getElem?_take))

omit [Bincode (LogEntry Cmd)] in
/-- **A place is taken by one entry.** -/
theorem eq_of_idx (ha : Reached cfg ⟨True, False⟩ a) (h : Settled cfg a e) (h' : Settled cfg a f)
    (hidx : e.idx = f.idx) : f = e := by
  refine h.eq_of_committed ha h'.chosen.committed ?_
  rw [hidx]
  exact h'.getElem?_take

/-- Whoever leads in a later term has the entry. -/
theorem stored (ha : Reached cfg ⟨True, False⟩ a) (hist : History cfg ⟨True, False⟩ r a)
    (h : Settled cfg a e) (hd : d ∈ r) (hj : j ∈ cfg.ids) {l : RaftWorker Leader Cmd}
    (hl : d.LeaderAt j l) (hterm : e.term < d.currentTerm j) :
    (d.storage j).log[e.idx - 1]? = some e := by
  have hcomplete : Complete LogEntry.term cfg.ids a := (ha.mono fun _ _ h => h trivial).complete
  obtain ⟨hlead, -, s, hstood, hs⟩ := (hist.witness d hd).leader j hj l hl
  have hmem := (h.chosen.prefix_leaderLog hcomplete hterm.le
    (by rw [hlead]; simp)).getElem?_eq_some h.getElem?_take
  -- the entry is older than the term, so the node stood for election with it
  obtain ⟨s', new, hstood', heq, hnew⟩ := ha.leaderLog_eq hlead
  obtain rfl := Option.some.inj (hstood.symm.trans hstood')
  refine hs.getElem?_eq_some ?_
  rw [heq, List.getElem?_append] at hmem
  split_ifs at hmem with hlt
  · exact hmem
  · exact absurd (hnew e (List.mem_of_getElem? hmem)) hterm.ne

end Settled

/-- What was granted is settled. -/
theorem Granted.settled (hr : IsRun cfg r) {a : Spec Cmd} {g : Guard} (hist : History cfg g r a)
    (hgenuine : ∀ d ∈ r, ∀ i ∈ cfg.ids, Genuine LogEntry.term a (d.storage i).log)
    (h : Granted cfg r tx e) : Settled cfg a e := by
  obtain ⟨j, ⟨c, c', hm, htakes⟩, d, d', hm', hacks, hterm⟩ := h
  obtain ⟨hj, -, hidx, hlog⟩ := htakes.placed hr hm
  have hstored : (c'.storage j).log[e.idx - 1]? = some e := by
    rw [hlog, hidx, Nat.add_sub_cancel, List.getElem?_concat_length]
  obtain ⟨hpos, _, -, -, -, hchosen⟩ := hist.acks hm' hacks
  exact ⟨hpos, hterm ▸ hchosen, (hgenuine c' hm.mem_right j hj).getElem?_leaderLog hstored⟩

/-- **Entries are taken behind those that were granted before**, by whichever leader. -/
theorem Granted.idx_lt (hr : IsRunWhere cfg (fun c a => c.grantsOutdated a = false) r)
    (hq : (d :: q) <:+ r) (h : Granted cfg (d :: q) tx e) (hm : Moves r d d')
    (htakes : Takes cfg d d' j tx' f) (hf : Granted cfg r tx' f) : e.idx < f.idx := by
  have hr' : IsRunWhere cfg (fun c a => c.grantsOutdated a = false) (d :: q) :=
    TransitionSystem.IsRun.of_suffix hr hq (List.cons_ne_nil _ _)
  obtain ⟨hj, hterm, hidx, -⟩ := htakes.placed (IsRunWhere.isRun hr) hm
  obtain ⟨l, hl, -⟩ := htakes.leader
  rcases le_or_gt e.term f.term with hle | hlt
  · -- the leader has the earlier entry in its log
    obtain ⟨a, ha, hsim, hist, hgenuine⟩ := exists_genuine hr'
    have hcomplete : Complete LogEntry.term cfg.ids a := (ha.mono fun _ _ h => h trivial).complete
    have hsettled := h.settled (IsRunWhere.isRun hr') hist hgenuine
    obtain ⟨hlead, -⟩ := (hist.witness d List.mem_cons_self).leader j hj l hl
    have hmem := (hsettled.chosen.prefix_leaderLog hcomplete (hle.trans hterm.le)
      (by rw [hlead]; simp)).getElem?_eq_some hsettled.getElem?_take
    rw [← log_eq_leaderLog (hsim d rfl) ha hj hl] at hmem
    have := lt_length_of_getElem? hmem
    have := hsettled.pos
    omega
  · -- the leader of the newer term had the later entry, before it was taken
    obtain ⟨a, ha, -, hist, hgenuine⟩ := exists_genuine hr
    have hsettled := hf.settled (IsRunWhere.isRun hr) hist hgenuine
    obtain ⟨i, ⟨c, c', hmc, htakes'⟩, -⟩ := h
    obtain ⟨hi, hterm', -, -⟩ := htakes'.placed (IsRunWhere.isRun hr') hmc
    obtain ⟨l', hl', -⟩ := htakes'.leader
    have hstored := hsettled.stored ha hist (hq.subset hmc.mem_left) hi hl' (hlt.trans_eq hterm')
    rw [show f.idx - 1 = (d.storage j).log.length by omega] at hstored
    exact absurd hterm (not_stored hr' hj hl hmc.mem_left hi hstored)

/-! ### The entry of a client -/

theorem Asks.call {k : ℕ} (h : Asks cfg c c' j (.rpc i k) cmd) :
    (c.inner i).transport.calls[k]? = some (j, .forwardClientRequest (.apply cmd)) := by
  cases h with
  | forwarded h hcall => exact hcall

/-- A step in which an entry is taken changes the node that takes it. -/
theorem Takes.inner_ne (h : Takes cfg c c' j tx e) : c'.inner j ≠ c.inner j := by
  intro heq
  have hstorage : c.storage j = (c.storage j).appended e :=
    (congrArg RaftWorkerInner.storage heq).symm.trans h.storage
  have hlog := congrArg (·.log.length) hstorage
  simp [Storage.log_appended] at hlog

/-- A step takes one entry. -/
theorem Takes.eq_entry (h : Takes cfg c c' i tx e) (h' : Takes cfg c c' j tx' f) : e = f := by
  by_cases hij : i = j
  · subst hij
    have hlog : (c.storage i).log ++ [e] = (c.storage i).log ++ [f] := by
      rw [← Storage.log_appended, ← Storage.log_appended, ← h.storage, ← h'.storage]
    exact List.singleton_inj.mp (List.append_cancel_left hlog)
  · exact absurd (h'.asks.inner_of_ne hij) h.inner_ne

/-- What a leader takes from its own client is not forwarded. -/
theorem Takes.not_forwarded (hr : IsRun cfg r) (hm : Moves r c c')
    (h : Takes cfg c c' j (.client token) e) {k : ℕ} : ¬Forwarded cfg r i k token := by
  rintro ⟨d, d', cmd, peer, hm', hasks, hfollows, -⟩
  obtain ⟨rfl, rfl⟩ := h.asks.eq_of_moves hr hasks hm hm'
  by_cases hji : j = i
  · subst hji
    obtain ⟨l, hl, -⟩ := h.leader
    exact hfollows l hl
  · exact h.inner_ne (hasks.inner_of_ne hji)

/-- A client has made its request when what stands for it is taken. -/
theorem StandsFor.lt_tokens (hr : IsRun cfg r) (hstands : StandsFor cfg r (.client token) tx)
    (hm : Moves r d d') (h : Asks cfg d d' j tx cmd) : token < d'.tokens := by
  cases hstands with
  | self =>
    rcases h.sender with ⟨htx, hone⟩ | ⟨_, _, htx, -⟩
    · have := ClientSender.client.inj htx
      omega
    · cases htx
  | @forwarded i k _ hf =>
    obtain ⟨c, c', cmd', peer, hm', hasks, -, hk, -⟩ := hf
    rcases hm'.trichotomy hm with ⟨rfl, rfl⟩ | ⟨q, hq, hmem⟩ | ⟨q, hq, hmem⟩
    · cases hasks.eq_sender h
    · have hle := (records_of_suffix hr hq hmem).tokens
      have hle' := (records_of_moves hr hm).tokens
      rcases hasks.sender with ⟨htx, hone⟩ | ⟨_, _, htx, -⟩
      · have := ClientSender.client.inj htx
        omega
      · cases htx
    · -- the call would be taken before it is made
      have hcalls := ((records_of_moves hr hm).calls i).length_le
      have hcalls' := ((records_of_suffix hr hq hmem).calls i).length_le
      have := lt_length_of_getElem? h.call
      omega

namespace Answered

/-- **The entry of a request.** -/
theorem eq_entry (hr : IsRun cfg r) (h : Answered cfg r (.client token) e)
    (h' : Answered cfg r (.client token) f) : e = f := by
  obtain ⟨tx, hstands, i, ⟨c, c', hm, htakes⟩, -⟩ := h
  obtain ⟨tx', hstands', j, ⟨d, d', hm', htakes'⟩, -⟩ := h'
  have htx : tx = tx' := by
    cases hstands with
    | self =>
      cases hstands' with
      | self => rfl
      | forwarded hf => exact (htakes.not_forwarded hr hm hf).elim
    | forwarded hf =>
      cases hstands' with
      | self => exact (htakes'.not_forwarded hr hm' hf).elim
      | forwarded hf' =>
        obtain ⟨rfl, rfl⟩ := hf.eq_call hr hf'
        rfl
  subst htx
  obtain ⟨rfl, rfl⟩ := htakes.asks.eq_of_moves hr htakes'.asks hm hm'
  exact htakes.eq_entry htakes'

/-- **The request of an entry.** -/
theorem eq_token (hr : IsRunWhere cfg (fun c a => c.grantsOutdated a = false) r)
    (h : Answered cfg r (.client token) e) (h' : Answered cfg r (.client token') e) :
    token = token' := by
  obtain ⟨tx, hstands, i, ⟨c, c', hm, htakes⟩, -⟩ := h
  obtain ⟨tx', hstands', j, ⟨d, d', hm', htakes'⟩, -⟩ := h'
  obtain ⟨rfl, rfl⟩ := htakes.eq_of_moves hr htakes' hm hm'
  have htx := htakes.asks.eq_sender htakes'.asks
  cases hstands with
  | self =>
    cases hstands' with
    | self => exact ClientSender.client.inj htx
    | forwarded => cases htx
  | forwarded hf =>
    cases hstands' with
    | self => cases htx
    | forwarded hf' =>
      obtain ⟨rfl, rfl⟩ := ClientSender.rpc.inj htx
      exact hf.eq_token (IsRunWhere.isRun hr) hf'

end Answered

variable (cfg) in
/-- The client `token` has asked for `cmd`. -/
def Requested (r : List (Cluster Cmd)) (token : ℕ) (cmd : Cmd) : Prop :=
  ∃ c c' i, Moves r c c' ∧ c.tokens = token ∧ c.exec cfg (.client i (.apply cmd)) = some c'

theorem Asks.requested (h : Asks cfg c c' i (.client token) cmd) (hm : Moves r c c') :
    Requested cfg r token cmd := by
  cases h with
  | client h => exact ⟨c, c', i, hm, rfl, h⟩

/-- The entry has the client's command. -/
theorem Answered.requested (hr : IsRun cfg r) (h : Answered cfg r (.client token) e) :
    Requested cfg r token e.cmd := by
  obtain ⟨tx, hstands, j, ⟨d, d', hm, htakes⟩, -⟩ := h
  cases hstands with
  | self => exact htakes.asks.requested hm
  | @forwarded i k _ hf =>
    obtain ⟨c, c', cmd, peer, hm', hasks, -, -, hcall⟩ := hf
    -- the call that was made is the call that was taken
    obtain ⟨s, q, rfl⟩ := List.exists_cons_of_ne_nil (TransitionSystem.IsRun.ne_nil hr)
    have hcalled := ((IsRun.records hr c' hm'.mem_right).calls i).getElem?_eq_some hcall
    have htaken := ((IsRun.records hr d hm.mem_left).calls i).getElem?_eq_some htakes.asks.call
    obtain ⟨-, hreq⟩ := Prod.mk.inj (Option.some.inj (hcalled.symm.trans htaken))
    have hcmd : cmd = e.cmd := ClientRequest.apply.inj (RpcRequest.forwardClientRequest.inj hreq)
    exact hcmd ▸ hasks.requested hm'

/-! ### One order -/

/-- The client `token` has been told that its request is committed. -/
def Acknowledged (c : Cluster Cmd) (token : ℕ) : Prop :=
  ∃ i, (.client token, .ok .ack) ∈ (c.inner i).transport.answers

theorem exists_answered (hr : IsRun cfg r) (hc : c ∈ r) (hack : c.Acknowledged token) :
    ∃ e, Answered cfg r (.client token) e := by
  obtain ⟨q, hq, hsuf⟩ := TransitionSystem.IsRun.of_mem hr hc
  obtain ⟨i, hi⟩ := hack
  exact ((IsRun.accounts hq).answers i _ hi).imp fun _ he => he.of_suffix hsuf

/-- A request made after another one was acknowledged comes after it. -/
theorem Acknowledged.idx_lt (hr : IsRunWhere cfg (fun c a => c.grantsOutdated a = false) r)
    (hc : c ∈ r) (hack : c.Acknowledged token) (h : Answered cfg r (.client token) e)
    (h' : Answered cfg r (.client token') f) (hle : c.tokens ≤ token') : e.idx < f.idx := by
  have hrun := IsRunWhere.isRun hr
  obtain ⟨tx', hstands, hgranted⟩ := h'
  obtain ⟨j, ⟨d, d', hm, htakes⟩, -⟩ := id hgranted
  have hlt := hstands.lt_tokens hrun hm htakes.asks
  rcases hm.before_or_after hc with ⟨q, hq, hmem⟩ | ⟨q, hq, hmem⟩
  · -- the first was granted when the second was taken
    obtain ⟨e', he'⟩ := exists_answered (hrun.of_suffix hq (List.cons_ne_nil _ _)) hmem hack
    obtain rfl := h.eq_entry hrun (he'.of_suffix hq)
    obtain ⟨tx, -, hgranted'⟩ := he'
    exact hgranted'.idx_lt hr hq hm htakes hgranted
  · -- the second had been made already
    have := (records_of_suffix hrun hq hmem).tokens
    omega

/-- The requests that are acknowledged in the run `r` are carried out in one order, in which the
request of `token` has the place `place token`. -/
structure Linearized (cfg : Config) (r : List (Cluster Cmd)) (place : ℕ → ℕ) : Prop where
  /-- What stands at the place of a request, for good, is the command that its client asked for. -/
  own : ∀ c ∈ r, ∀ token, c.Acknowledged token → ∃ e : LogEntry Cmd, e.idx = place token ∧
    Requested cfg r token e.cmd ∧
    (∀ d ∈ r, ∀ i ∈ cfg.ids, ∀ f ∈ (d.inner i).stateMachineTx, f.idx = place token → f = e) ∧
    ∀ d ∈ r, ∀ i ∈ cfg.ids, ∀ l, d.LeaderAt i l → e.term < d.currentTerm i →
      (d.storage i).getLog (place token) = .ok (some e)
  /-- A request does not share its place. -/
  apart : ∀ c ∈ r, ∀ d ∈ r, ∀ token token', c.Acknowledged token → d.Acknowledged token' →
    place token = place token' → token = token'
  /-- The order respects real time: tokens are numbered in the order of the requests. -/
  after : ∀ c ∈ r, ∀ d ∈ r, ∀ token token', c.Acknowledged token → d.Acknowledged token' →
    c.tokens ≤ token' → place token < place token'

/-- **Linearizability**, in runs whose votes go to candidates with an up to date log. -/
theorem linearizable (hr : IsRunWhere cfg (fun c a => c.grantsOutdated a = false) r) :
    ∃ place, Linearized cfg r place := by
  classical
  have hrun := IsRunWhere.isRun hr
  obtain ⟨a, ha, -, hist, hgenuine⟩ := exists_genuine hr
  have hsettled : ∀ {token e}, Answered cfg r (.client token) e → Settled cfg a e :=
    fun ⟨_, _, hgranted⟩ => hgranted.settled hrun hist hgenuine
  -- the place of a request is that of its entry
  obtain ⟨place, hplace⟩ : ∃ place : ℕ → ℕ, ∀ token e,
      Answered cfg r (.client token) e → e.idx = place token := by
    refine ⟨fun token => if h : ∃ e, Answered cfg r (.client token) e then h.choose.idx else 0,
      fun token e he => ?_⟩
    have hex : ∃ e, Answered cfg r (.client token) e := ⟨e, he⟩
    dsimp only
    rw [dif_pos hex]
    exact congrArg LogEntry.idx (he.eq_entry hrun hex.choose_spec)
  refine ⟨place, fun c hc token hack => ?_, fun c hc d hd token token' hack hack' hsame => ?_,
    fun c hc d hd token token' hack hack' hle => ?_⟩
  · obtain ⟨e, he⟩ := exists_answered hrun hc hack
    rw [← hplace token e he]
    refine ⟨e, rfl, he.requested hrun, fun d hd i hi f hf hidx => ?_,
      fun d hd i hi l hl hterm => ?_⟩
    · obtain ⟨hindexed, t, hcommitted⟩ := (hist.witness d hd).applied trivial i hi
      obtain ⟨n, hn⟩ := List.mem_iff_getElem?.mp hf
      have hfidx := hindexed n f hn
      refine (hsettled he).eq_of_committed ha hcommitted ?_
      rwa [show e.idx - 1 = n by omega]
    · exact (wf_of_mem hrun hd hi).getLog_eq_some.mpr
        ⟨(hsettled he).pos, (hsettled he).stored ha hist hd hi hl hterm⟩
  · obtain ⟨e, he⟩ := exists_answered hrun hc hack
    obtain ⟨f, hf⟩ := exists_answered hrun hd hack'
    have hidx : e.idx = f.idx := by rw [hplace token e he, hsame, hplace token' f hf]
    obtain rfl := (hsettled he).eq_of_idx ha (hsettled hf) hidx
    exact he.eq_token hr hf
  · obtain ⟨e, he⟩ := exists_answered hrun hc hack
    obtain ⟨f, hf⟩ := exists_answered hrun hd hack'
    rw [← hplace token e he, ← hplace token' f hf]
    exact hack.idx_lt hr hc he hf hle

/-- Node `0` is elected and commits the request of its own client, before a client of node `1` makes
a request, which node `1` forwards. -/
def forwardingActions : List (Action ℕ) :=
  [.electionTimeout 0, .deliver 0 0, .receive 0 0, .client 0 (.apply 5), .deliver 0 2,
    .receive 0 2, .advanceCommitIndex 0, .client 1 (.apply 6), .deliver 1 0, .deliver 0 4,
    .receive 0 4, .advanceCommitIndex 0, .relay 0 1, .receive 1 0]

theorem linearizable_run : ∃ r : List (Cluster ℕ),
    IsRunWhere (.ofSize 3) (fun c a => c.grantsOutdated a = false) r ∧
    (∃ c ∈ r, ∃ d ∈ r, c.Acknowledged 0 ∧ d.Acknowledged 1 ∧ c.tokens ≤ 1) ∧
    ∃ place, Linearized (.ofSize 3) r place := by
  obtain ⟨r, -, hr, hf⟩ := exists_run_of_play (.ofSize 3) grantsOutdated forwardingActions
    (fun r => (r.any fun c =>
        (ClientSender.client 0, .ok .ack) ∈ (c.inner 0).transport.answers ∧ c.tokens ≤ 1) &&
      r.any fun d => (ClientSender.client 1, .ok .ack) ∈ (d.inner 1).transport.answers)
    (by decide +kernel)
  simp only [Bool.and_eq_true, List.any_eq_true, decide_eq_true_eq] at hf
  obtain ⟨⟨c, hc, hacked, htokens⟩, d, hd, hacked'⟩ := hf
  exact ⟨r, hr, ⟨c, hc, d, hd, ⟨0, hacked⟩, ⟨1, hacked'⟩, htokens⟩, linearizable hr⟩

end Cluster

end Wraft
