import Wraft.Raft.Changes
import Wraft.Raft.Cluster

/-!
# Where the entries of a cluster come from

Entries are made of the commands that clients ask for. When no command is asked for twice, it is in
at most one entry (`Provenance`): a command is with one leader, or in one call that forwards it and
that reaches its peer at most once. As a node applies its entries in the order of their indices, it
applies no command twice (`Provenance.nodup_applied`).
-/

namespace Wraft

variable {Cmd : Type} [Bincode (LogEntry Cmd)]

/-! ### One node -/

namespace RaftWorkerInner

/-- The entry is at the node: stored, applied, or in a request that the node has made. -/
inductive Holds (w : RaftWorkerInner Cmd) (e : LogEntry Cmd) : Prop
  | stored (h : w.storage.Has e)
  | applied (h : e ∈ w.stateMachineTx)
  | sent {peer : NodeId} {req : AppendEntriesRequest Cmd}
      (hcall : (peer, .appendEntries req) ∈ w.transport.calls) (h : e ∈ req.entries)

/-- Call `k` of the node forwards the command. -/
def Forwards (w : RaftWorkerInner Cmd) (k : ℕ) (cmd : Cmd) : Prop :=
  ∃ peer, w.transport.calls[k]? = some (peer, .forwardClientRequest (.apply cmd))

/-- The log is stored by index and was applied in its order. -/
structure Ordered (w : RaftWorkerInner Cmd) : Prop where
  sessionKey : w.storage.sessionKey = w.sessionKey
  placed : w.storage.Placed
  applied_le : ∀ e ∈ w.stateMachineTx, e.idx ≤ w.lastApplied
  applied_sorted : w.stateMachineTx.Pairwise (·.idx < ·.idx)

theorem getElem?_concat_eq_some {α : Type} {l : List α} {a b : α} {k : ℕ}
    (h : (l ++ [a])[k]? = some b) : l[k]? = some b ∨ k = l.length ∧ a = b := by
  rw [List.getElem?_append] at h
  split_ifs at h with hk
  · exact .inl h
  · obtain ⟨hlt, hget⟩ := List.getElem?_eq_some_iff.mp h
    rw [List.length_singleton] at hlt
    refine .inr ⟨by omega, ?_⟩
    rw [← hget, List.getElem_singleton]

variable {P : LogEntry Cmd → Prop} {w w' : RaftWorkerInner Cmd}

theorem Change.holds (h : Change P w w') {e : LogEntry Cmd} (he : w'.Holds e) :
    w.Holds e ∨ P e := by
  cases h with
  | storage h =>
    rcases he with ⟨i, hi⟩ | happlied | ⟨hcall, hsent⟩
    · rcases h.entryAt hi with hi | hi
      · exact .inl (.stored ⟨i, hi⟩)
      · exact .inr hi.1
    · exact .inl (.applied happlied)
    · exact .inl (.sent hcall hsent)
  | apply e' hhas =>
    rcases he with hstored | happlied | ⟨hcall, hsent⟩
    · exact .inl (.stored hstored)
    · rcases List.mem_append.mp happlied with happlied | hnew
      · exact .inl (.applied happlied)
      · obtain rfl := List.mem_singleton.mp hnew
        exact .inl (.stored hhas)
    · exact .inl (.sent hcall hsent)
  | call peer hcarries =>
    rcases he with hstored | happlied | ⟨hcall, hsent⟩
    · exact .inl (.stored hstored)
    · exact .inl (.applied happlied)
    · rcases List.mem_append.mp hcall with hcall | hnew
      · exact .inl (.sent hcall hsent)
      · obtain ⟨rfl, rfl⟩ := Prod.mk.inj (List.mem_singleton.mp hnew)
        exact .inl (.stored (hcarries e hsent))
  | leaderId | peerClients | forwarded | answer | commitIndex =>
    rcases he with hstored | happlied | ⟨hcall, hsent⟩
    · exact .inl (.stored hstored)
    · exact .inl (.applied happlied)
    · exact .inl (.sent hcall hsent)

/-- Only a follower with a client's request forwards a command. -/
theorem Change.forwards (h : Change P w w') {k : ℕ} {cmd : Cmd} (hk : w'.Forwards k cmd) :
    w.Forwards k cmd := by
  cases h with
  | call peer hcarries =>
    obtain ⟨peer', hk⟩ := hk
    rcases getElem?_concat_eq_some hk with hk | ⟨-, hnew⟩
    · exact ⟨peer', hk⟩
    · obtain ⟨rfl, rfl⟩ := Prod.mk.inj hnew
      exact hcarries.elim
  | storage | leaderId | peerClients | forwarded | answer | commitIndex | apply => exact hk

theorem Change.ordered (h : Change P w w') (hw : w.Ordered) : w'.Ordered := by
  cases h with
  | storage h =>
    refine ⟨h.sessionKey.trans hw.sessionKey, fun i e he => ?_, hw.applied_le, hw.applied_sorted⟩
    rcases h.entryAt he with he | he
    · exact hw.placed i e he
    · exact he.2
  | apply e hhas hlt =>
    refine ⟨hw.sessionKey, hw.placed, fun e' he' => ?_, ?_⟩
    · rcases List.mem_append.mp he' with he' | he'
      · exact (hw.applied_le e' he').trans hlt.le
      · rw [List.mem_singleton.mp he']
    · refine List.pairwise_append.mpr ⟨hw.applied_sorted, List.pairwise_singleton _ e, ?_⟩
      intro e' he' e'' he''
      rw [List.mem_singleton.mp he'']
      exact (hw.applied_le e' he').trans_lt hlt
  | leaderId | peerClients | forwarded | answer | commitIndex | call =>
    exact ⟨hw.sessionKey, hw.placed, hw.applied_le, hw.applied_sorted⟩

theorem Changes.holds (h : Changes P w w') {e : LogEntry Cmd} (he : w'.Holds e) :
    w.Holds e ∨ P e := by
  induction h with
  | refl => exact .inl he
  | tail _ hc ih =>
    rcases hc.holds he with he | he
    · exact ih he
    · exact .inr he

theorem Changes.forwards (h : Changes P w w') {k : ℕ} {cmd : Cmd} (hk : w'.Forwards k cmd) :
    w.Forwards k cmd := by
  induction h with
  | refl => exact hk
  | tail _ hc ih => exact ih (hc.forwards hk)

theorem Changes.ordered (h : Changes P w w') (hw : w.Ordered) : w'.Ordered := by
  induction h with
  | refl => exact hw
  | tail _ hc ih => exact hc.ordered ih

end RaftWorkerInner

namespace Follower

open RaftWorkerInner

variable {w : RaftWorkerInner Cmd} {token : ℕ} {cmd : Cmd} {peer : NodeId}

theorem holds_forwarding {e : LogEntry Cmd} (he : (forwarding w token cmd peer).Holds e) :
    w.Holds e := by
  rcases he with hstored | happlied | ⟨hcall, hsent⟩
  · exact .stored hstored
  · exact .applied happlied
  · rcases List.mem_append.mp hcall with hcall | hnew
    · exact .sent hcall hsent
    · exact nomatch List.mem_singleton.mp hnew

omit [Bincode (LogEntry Cmd)] in
theorem forwards_forwarding {k : ℕ} {cmd' : Cmd}
    (hk : (forwarding w token cmd peer).Forwards k cmd') :
    w.Forwards k cmd' ∨ k = w.transport.calls.length ∧ cmd' = cmd := by
  obtain ⟨peer', hk⟩ := hk
  rcases getElem?_concat_eq_some hk with hk | ⟨rfl, hnew⟩
  · exact .inl ⟨peer', hk⟩
  · cases hnew
    exact .inr ⟨rfl, rfl⟩

theorem ordered_forwarding (hw : w.Ordered) : (forwarding w token cmd peer).Ordered :=
  ⟨hw.sessionKey, hw.placed, hw.applied_le, hw.applied_sorted⟩

end Follower

/-! ### Restarts -/

omit [Bincode (LogEntry Cmd)] in
/-- A restarted node has its local storage and the record of its calls, and has applied nothing;
unless it does not start. -/
theorem Node.restart_cases (n : Node Cmd) : n.restart.worker.inner = n.worker.inner ∨
    ∃ s, Storage.new n.worker.inner.sessionKey n.worker.inner.storage.storage = .ok s ∧
      n.restart.worker.inner.sessionKey = n.worker.inner.sessionKey ∧
      n.restart.worker.inner.storage = s ∧ n.restart.worker.inner.stateMachineTx = [] ∧
      n.restart.worker.inner.transport = n.worker.inner.transport := by
  rw [restart, WorkerBuilder.start]
  rcases hnew : Storage.new n.worker.inner.sessionKey n.worker.inner.storage.storage with p | s
  · exact .inl rfl
  · exact .inr ⟨s, rfl, rfl, rfl, rfl, rfl⟩

section

open RaftWorkerInner

variable {n : Node Cmd}

theorem Node.holds_restart (hn : n.worker.inner.Ordered) {e : LogEntry Cmd}
    (he : n.restart.worker.inner.Holds e) : n.worker.inner.Holds e := by
  rcases n.restart_cases with heq | ⟨s, hnew, hkey, hs, htx, htransport⟩
  · rwa [heq] at he
  obtain ⟨hskey, hstorage, -⟩ := Storage.new_eq_ok_iff.mp hnew
  rcases he with ⟨i, hi⟩ | happlied | ⟨hcall, hsent⟩
  · rw [hs, Storage.entryAt, hskey, hstorage, ← hn.sessionKey] at hi
    exact .stored ⟨i, hi⟩
  · rw [htx] at happlied
    cases happlied
  · rw [htransport] at hcall
    exact .sent hcall hsent

omit [Bincode (LogEntry Cmd)] in
theorem Node.forwards_restart {k : ℕ} {cmd : Cmd} (hk : n.restart.worker.inner.Forwards k cmd) :
    n.worker.inner.Forwards k cmd := by
  rcases n.restart_cases with heq | ⟨s, hnew, hkey, hs, htx, htransport⟩
  · rwa [heq] at hk
  · rwa [Forwards, htransport] at hk

theorem Node.ordered_restart (hn : n.worker.inner.Ordered) : n.restart.worker.inner.Ordered := by
  rcases n.restart_cases with heq | ⟨s, hnew, hkey, hs, htx, htransport⟩
  · rwa [heq]
  obtain ⟨hskey, hstorage, -⟩ := Storage.new_eq_ok_iff.mp hnew
  refine ⟨by rw [hs, hskey, hkey], fun i e he => ?_, ?_, ?_⟩
  · rw [hs, Storage.entryAt, hskey, hstorage, ← hn.sessionKey] at he
    exact hn.placed i e he
  · rw [htx]
    exact fun e he => absurd he List.not_mem_nil
  · rw [htx]
    exact .nil

end

/-! ### Steps of a cluster -/

/-- The command that a client asks for in the step. -/
def Action.asks : Action Cmd → List Cmd
  | .client _ (.apply cmd) => [cmd]
  | _ => []

namespace Cluster

/-- Where an event of node `i` comes from in the step from `c` to `c'`. -/
def Source (c c' : Cluster Cmd) (a : Action Cmd) (i : NodeId) : Event Cmd → Prop
  | .rpc j k req => (c.inner j).transport.calls[k]? = some (i, req) ∧ (j, k) ∉ c.delivered ∧
      c'.delivered = (j, k) :: c.delivered
  | .client _ req => a = .client i req ∧ c'.delivered = c.delivered
  | _ => c'.delivered = c.delivered

/-- A step of a cluster is a reaction of one of its nodes, a restart, or no change of a node. -/
inductive Turn (c c' : Cluster Cmd) (a : Action Cmd) : Prop
  | react {i : NodeId} {e : Event Cmd} {n : Node Cmd} {resp : Option RpcResponse}
      (hon : (c.worker i).on e = some (n, resp)) (hnodes : c'.nodes = (c.setNode i n).nodes)
      (hsource : c.Source c' a i e)
  | restart {i : NodeId} (hnodes : c'.nodes = (c.setNode i (c.nodes i).restart).nodes)
      (hdelivered : c'.delivered = c.delivered)
  | relay (hnodes : c'.nodes = c.nodes) (hdelivered : c'.delivered = c.delivered)

theorem on_of_react {c : Cluster Cmd} {i : NodeId} {e : Event Cmd}
    {r : Cluster Cmd × Option RpcResponse} (h : c.react i e = some r) :
    ∃ n, (c.worker i).on e = some (n, r.2) ∧ r.1 = c.setNode i n := by
  rw [react] at h
  split at h
  · exact nomatch h
  · obtain ⟨⟨n, resp⟩, hon, rfl⟩ := Option.map_eq_some_iff.mp h
    exact ⟨n, hon, rfl⟩

theorem turn_of_exec {cfg : Config} {c c' : Cluster Cmd} {a : Action Cmd}
    (h : c.exec cfg a = some c') : Turn c c' a := by
  -- a reaction that needs nothing from outside
  have hlocal : ∀ {i : NodeId} {e : Event Cmd},
      (∀ c₂, c₂.delivered = c.delivered → c.Source c₂ a i e) →
      (if i ∈ cfg.ids then (c.react i e).map (·.1) else none) = some c' → Turn c c' a := by
    intro i e hsource h
    split_ifs at h with hi
    obtain ⟨r, hr, rfl⟩ := Option.map_eq_some_iff.mp h
    obtain ⟨n, hon, heq⟩ := on_of_react hr
    rw [heq]
    exact .react hon rfl (hsource _ rfl)
  cases a with
  | electionTimeout i => exact hlocal (fun _ => id) h
  | heartbeat i => exact hlocal (fun _ => id) h
  | advanceCommitIndex i => exact hlocal (fun _ => id) h
  | applyLog i => exact hlocal (fun _ => id) h
  | disconnect i p => exact hlocal (fun _ => id) h
  | fail i k err => exact hlocal (fun _ => id) h
  | connect i p =>
    rw [exec] at h
    split_ifs at h with hmem
    exact hlocal (fun _ => id) ((if_pos hmem.1).trans h)
  | receive i k =>
    rw [exec] at h
    split_ifs at h with hi
    split at h
    · exact nomatch h
    · exact hlocal (fun _ => id) ((if_pos hi).trans h)
  | client i req =>
    rw [exec] at h
    split_ifs at h with hi
    obtain ⟨r, hr, rfl⟩ := Option.map_eq_some_iff.mp h
    obtain ⟨n, hon, heq⟩ := on_of_react hr
    rw [heq]
    exact .react hon rfl ⟨rfl, rfl⟩
  | deliver i k =>
    rw [exec] at h
    split_ifs at h with hi
    split at h
    · exact nomatch h
    · rename_i dst req hcall
      obtain ⟨r, hr, rfl⟩ := Option.map_eq_some_iff.mp h
      obtain ⟨n, hon, heq⟩ := on_of_react hr
      rw [heq]
      exact .react hon rfl ⟨hcall, hi.2, rfl⟩
  | relay j n =>
    rw [exec] at h
    split at h
    · obtain rfl := Option.some.inj h
      exact .relay rfl rfl
    · exact nomatch h
  | restart i =>
    rw [exec] at h
    split_ifs at h with hi
    obtain rfl := Option.some.inj h
    exact .restart rfl rfl

/-! ### Commands -/

/-- Some node holds the entry. -/
def Held (c : Cluster Cmd) (e : LogEntry Cmd) : Prop := ∃ i, (c.inner i).Holds e

/-- **A command is in one entry at most**, and in none as long as a call that forwards it has not
reached its peer. `asked` are the commands that clients have asked for. -/
structure Provenance (asked : List Cmd) (c : Cluster Cmd) : Prop where
  ordered : ∀ i, (c.inner i).Ordered
  held_mem : ∀ {e}, c.Held e → e.cmd ∈ asked
  forwards_mem : ∀ {i k cmd}, (c.inner i).Forwards k cmd → cmd ∈ asked
  held_inj : ∀ {e e'}, c.Held e → c.Held e' → e.cmd = e'.cmd → e = e'
  forwards_inj : ∀ {i k i' k' cmd}, (c.inner i).Forwards k cmd → (c.inner i').Forwards k' cmd →
    (i, k) = (i', k')
  delivered : ∀ {e i k}, c.Held e → (c.inner i).Forwards k e.cmd → (i, k) ∈ c.delivered

variable {asked : List Cmd} {c c' : Cluster Cmd} {a : Action Cmd}

/-- An entry that may come into the cluster. -/
structure Fresh (asked : List Cmd) (c c' : Cluster Cmd) (e : LogEntry Cmd) : Prop where
  mem : e.cmd ∈ asked
  held : ∀ {f}, c.Held f → f.cmd ≠ e.cmd
  delivered : ∀ {i k}, (c.inner i).Forwards k e.cmd → (i, k) ∈ c'.delivered

/-- A step that brings a new entry, or none. -/
theorem Provenance.of_held (h : Provenance asked c) {asked' : List Cmd}
    (new : Option (LogEntry Cmd)) (hordered : ∀ i, (c'.inner i).Ordered)
    (hheld : ∀ {e}, c'.Held e → c.Held e ∨ e ∈ new)
    (hforwards : ∀ {i k cmd}, (c'.inner i).Forwards k cmd → (c.inner i).Forwards k cmd)
    (hdelivered : ∀ x ∈ c.delivered, x ∈ c'.delivered) (hasked : ∀ cmd ∈ asked, cmd ∈ asked')
    (hnew : ∀ e ∈ new, Fresh asked' c c' e) : Provenance asked' c' where
  ordered := hordered
  held_mem he := by
    rcases hheld he with he | he
    · exact hasked _ (h.held_mem he)
    · exact (hnew _ he).mem
  forwards_mem hk := hasked _ (h.forwards_mem (hforwards hk))
  held_inj he he' heq := by
    rcases hheld he, hheld he' with ⟨hold | hold, hold' | hold'⟩
    · exact h.held_inj hold hold' heq
    · exact absurd heq ((hnew _ hold').held hold)
    · exact absurd heq.symm ((hnew _ hold).held hold')
    · exact Option.mem_unique hold hold'
  forwards_inj hk hk' := h.forwards_inj (hforwards hk) (hforwards hk')
  delivered he hk := by
    rcases hheld he with he | he
    · exact hdelivered _ (h.delivered he (hforwards hk))
    · exact (hnew _ he).delivered (hforwards hk)

/-- A step that forwards a new command. -/
theorem Provenance.of_forwards (h : Provenance asked c) (call : NodeId × ℕ) {cmd : Cmd}
    (hcmd : cmd ∉ asked) (hordered : ∀ i, (c'.inner i).Ordered)
    (hheld : ∀ {e}, c'.Held e → c.Held e)
    (hforwards : ∀ {i k cmd'}, (c'.inner i).Forwards k cmd' →
      (c.inner i).Forwards k cmd' ∨ (i, k) = call ∧ cmd' = cmd)
    (hdelivered : c'.delivered = c.delivered) : Provenance (cmd :: asked) c' where
  ordered := hordered
  held_mem he := List.mem_cons_of_mem cmd (h.held_mem (hheld he))
  forwards_mem hk := by
    rcases hforwards hk with hk | ⟨-, rfl⟩
    · exact List.mem_cons_of_mem cmd (h.forwards_mem hk)
    · exact List.mem_cons_self
  held_inj he he' heq := h.held_inj (hheld he) (hheld he') heq
  forwards_inj hk hk' := by
    rcases hforwards hk, hforwards hk' with ⟨hold | ⟨hcall, heq⟩, hold' | ⟨hcall', heq'⟩⟩
    · exact h.forwards_inj hold hold'
    · exact absurd (heq' ▸ h.forwards_mem hold) hcmd
    · exact absurd (heq ▸ h.forwards_mem hold') hcmd
    · rw [hcall, hcall']
  delivered he hk := by
    rw [hdelivered]
    rcases hforwards hk with hk | ⟨-, heq⟩
    · exact h.delivered (hheld he) hk
    · exact absurd (heq ▸ h.held_mem (hheld he)) hcmd

/-! ### Runs -/

theorem provenance_boot (cfg : Config) : Provenance [] (boot cfg : Cluster Cmd) := by
  have hheld : ∀ {e : LogEntry Cmd}, ¬(boot cfg).Held e := by
    rintro e ⟨i, ⟨j, hj⟩ | happlied | ⟨hcall, -⟩⟩
    · exact nomatch hj
    · exact nomatch happlied
    · exact nomatch hcall
  have hforwards : ∀ {i k : ℕ} {cmd : Cmd}, ¬((boot cfg).inner i).Forwards k cmd := by
    rintro i k cmd ⟨peer, hk⟩
    exact nomatch hk
  exact
    { ordered := fun i => ⟨rfl, fun j e he => (nomatch he), nofun, .nil⟩
      held_mem := fun he => (hheld he).elim
      forwards_mem := fun hk => (hforwards hk).elim
      held_inj := fun he => (hheld he).elim
      forwards_inj := fun hk => (hforwards hk).elim
      delivered := fun he => (hheld he).elim }

omit [Bincode (LogEntry Cmd)] in
/-- What holds of the node that moved and of the nodes before holds of all nodes. -/
theorem forall_inner {p : NodeId → RaftWorkerInner Cmd → Prop} {i : NodeId} {n : Node Cmd}
    (hnodes : c'.nodes = (c.setNode i n).nodes) (hi : p i n.worker.inner)
    (h : ∀ j, p j (c.inner j)) (j : NodeId) : p j (c'.inner j) := by
  rw [inner, worker, hnodes]
  change p j (Function.update c.nodes i n j).worker.inner
  by_cases hj : j = i
  · subst hj
    rwa [Function.update_self]
  · rw [Function.update_of_ne hj]
    exact h j

/-- What an event brings to a node is held somewhere, but for one entry. -/
theorem Provenance.exists_new (h : Provenance asked c) (ha : ∀ cmd ∈ a.asks, cmd ∉ asked)
    {i : NodeId} {e : Event Cmd} (hsource : c.Source c' a i e) :
    ∃ new : Option (LogEntry Cmd), (∀ f, e.Brings (c.inner i) f → c.Held f ∨ f ∈ new) ∧
      (∀ x ∈ c.delivered, x ∈ c'.delivered) ∧ ∀ f ∈ new, Fresh (a.asks ++ asked) c c' f := by
  have hmem : ∀ cmd ∈ asked, cmd ∈ a.asks ++ asked := fun _ => List.mem_append_right _
  cases e with
  | rpc j k req =>
    obtain ⟨hcall, hfirst, hdelivered⟩ := hsource
    have hsub : ∀ x ∈ c.delivered, x ∈ c'.delivered := by
      rw [hdelivered]
      exact fun x => List.mem_cons_of_mem _
    match req with
    | .appendEntries req =>
      exact ⟨none, fun f hf => .inl ⟨j, .sent (List.mem_of_getElem? hcall) hf⟩, hsub, nofun⟩
    | .requestVote req => exact ⟨none, nofun, hsub, nofun⟩
    | .forwardClientRequest (.apply cmd) =>
      -- a follower has forwarded the command, and no leader has taken it so far
      have hforwards : (c.inner j).Forwards k cmd := ⟨i, hcall⟩
      refine ⟨some (Leader.newEntry (c.inner i) cmd), ?_, hsub, ?_⟩
      · rintro f rfl
        exact .inr rfl
      · rintro f ⟨rfl⟩
        refine ⟨hmem _ (h.forwards_mem hforwards), fun hf heq => ?_, fun hk => ?_⟩
        · exact hfirst (h.delivered hf (heq ▸ hforwards))
        · rw [hdelivered, h.forwards_inj hk hforwards]
          exact List.mem_cons_self
  | client token req =>
    obtain ⟨rfl, hdelivered⟩ := hsource
    match req with
    | .apply cmd =>
      -- the client asks for it for the first time
      have hcmd : cmd ∉ asked := ha cmd List.mem_cons_self
      refine ⟨some (Leader.newEntry (c.inner i) cmd), ?_, fun _ hx => hdelivered ▸ hx, ?_⟩
      · rintro f rfl
        exact .inr rfl
      · rintro f ⟨rfl⟩
        refine ⟨List.mem_cons_self, fun hf heq => ?_, fun hk => ?_⟩
        · have hf' := h.held_mem hf
          rw [heq] at hf'
          exact hcmd hf'
        · exact absurd (h.forwards_mem hk) hcmd
  | electionTimeout | response | heartbeat | advanceCommitIndex | applyLog | connect
  | disconnect =>
    exact ⟨none, nofun, fun _ hx => hsource ▸ hx, nofun⟩

/-- The commands that clients ask for are new, so every command stays in one entry at most. -/
theorem Provenance.step (h : Provenance asked c) (ha : ∀ cmd ∈ a.asks, cmd ∉ asked)
    (hturn : Turn c c' a) : Provenance (a.asks ++ asked) c' := by
  have hheld : ∀ {j : NodeId} {f : LogEntry Cmd}, (c.inner j).Holds f → c.Held f :=
    fun hf => ⟨_, hf⟩
  have hmem : ∀ cmd ∈ asked, cmd ∈ a.asks ++ asked := fun _ => List.mem_append_right _
  cases hturn with
  | @react i e n resp hon hnodes hsource =>
    rcases RaftWorkerState.changes_on (P := fun f => e.Brings (c.inner i) f)
      (h.ordered i).placed (fun _ => id) hon with hc | ⟨token, cmd, peer, rfl, hn⟩
    · obtain ⟨new, hbrings, hdelivered, hnew⟩ := h.exists_new ha hsource
      refine h.of_held new (forall_inner hnodes (hc.ordered (h.ordered i)) h.ordered) ?_ ?_
        hdelivered hmem hnew
      · rintro f ⟨j, hf⟩
        refine forall_inner (p := fun _ w => w.Holds f → c.Held f ∨ f ∈ new) hnodes
          (fun hf => ?_) (fun j hf => .inl (hheld hf)) j hf
        rcases hc.holds hf with hf | hf
        · exact .inl (hheld hf)
        · exact hbrings f hf
      · intro j k cmd
        exact forall_inner (p := fun j w => w.Forwards k cmd → (c.inner j).Forwards k cmd) hnodes
          hc.forwards (fun _ => id) j
    · obtain ⟨rfl, hdelivered⟩ := hsource
      -- a follower forwards the command of a client: no entry is new
      refine h.of_forwards (i, (c.inner i).transport.calls.length)
        (ha cmd List.mem_cons_self) (forall_inner hnodes ?_ h.ordered) ?_ ?_ hdelivered
      · rw [hn]
        exact Follower.ordered_forwarding (h.ordered i)
      · rintro f ⟨j, hf⟩
        refine forall_inner (p := fun _ w => w.Holds f → c.Held f) hnodes (fun hf => ?_)
          (fun j hf => hheld hf) j hf
        rw [hn] at hf
        exact hheld (Follower.holds_forwarding hf)
      · intro j k cmd'
        refine forall_inner (p := fun j w => w.Forwards k cmd' → (c.inner j).Forwards k cmd' ∨
          (j, k) = (i, (c.inner i).transport.calls.length) ∧ cmd' = cmd) hnodes
          (fun hk => ?_) (fun j hk => .inl hk) j
        rw [hn] at hk
        rcases Follower.forwards_forwarding hk with hk | ⟨rfl, rfl⟩
        · exact .inl hk
        · exact .inr ⟨rfl, rfl⟩
  | @restart i hnodes hdelivered =>
    refine h.of_held none
      (forall_inner hnodes (Node.ordered_restart (h.ordered i)) h.ordered) ?_ ?_
      (fun _ hx => hdelivered ▸ hx) hmem nofun
    · rintro f ⟨j, hf⟩
      exact .inl (forall_inner (p := fun _ w => w.Holds f → c.Held f) hnodes
        (fun hf => hheld (Node.holds_restart (h.ordered i) hf)) (fun j hf => hheld hf) j hf)
    · intro j k cmd
      exact forall_inner (p := fun j w => w.Forwards k cmd → (c.inner j).Forwards k cmd) hnodes
        Node.forwards_restart (fun _ => id) j
  | relay hnodes hdelivered =>
    have hinner : ∀ j, c'.inner j = c.inner j := fun j => by rw [inner, worker, hnodes]; rfl
    refine h.of_held none (fun j => hinner j ▸ h.ordered j) ?_
      (fun {j} _ _ => hinner j ▸ id) (fun _ hx => hdelivered ▸ hx) hmem nofun
    rintro f ⟨j, hf⟩
    exact .inl ⟨j, hinner j ▸ hf⟩

/-- No node applies a command twice. -/
theorem Provenance.nodup_applied (h : Provenance asked c) (i : NodeId) :
    ((c.inner i).stateMachineTx.map (·.cmd)).Nodup := by
  refine List.pairwise_map.mpr ((h.ordered i).applied_sorted.imp_of_mem fun he he' hlt heq => ?_)
  obtain rfl := h.held_inj ⟨i, .applied he⟩ ⟨i, .applied he'⟩ heq
  exact lt_irrefl _ hlt

end Cluster

end Wraft
