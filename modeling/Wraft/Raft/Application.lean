import Wraft.ForMathlib.Run
import Wraft.Raft.Effects
import Wraft.Raft.Voting

/-!
# Applying the log

One worker from its start on, whatever it is sent. The only premise is what every storage keeps: an
entry is stored under its own index (`Storage.Placed`), also in what is left behind when a process
stops (`Node.starts_reopen`).

Such a worker applies its log from the first index on, one entry after the other
(`applies_in_order`), no matter how its commit index moves: `apply_log` reads the log behind the
last applied index, whose entries carry their own indices, and stops at the end of the log.
-/

namespace Wraft

open TransitionSystem

variable {Cmd : Type} [Bincode (LogEntry Cmd)]

/-! ### The life of a worker -/

namespace Node

/-- The reaction of a node to an event; a panicked node does not react. -/
def react (n : Node Cmd) (e : Event Cmd) : Option (Node Cmd) :=
  match n.panicked with
  | some _ => none
  | none => (n.worker.on e).map (·.1)

/-- A worker that was just started, on a local storage with every entry under its index. -/
def Starts (n : Node Cmd) : Prop :=
  ∃ nodeId key peers clients ls transport inner,
    WorkerBuilder.start nodeId key peers clients ls transport = .ok inner ∧
      inner.storage.Placed ∧ n = ⟨.follower { inner, state := {} }, none⟩

theorem effect_react {n n' : Node Cmd} {e : Event Cmd} (h : n.react e = some n') :
    n.panicked = none ∧ ∃ resp, n.worker.on e = some (n', resp) ∧ n.worker.Effect e n' := by
  rw [react] at h
  split at h
  · cases h
  · obtain ⟨⟨_, resp⟩, hon, rfl⟩ := Option.map_eq_some_iff.mp h
    exact ⟨‹_›, resp, hon, RaftWorkerState.effect_on hon⟩

end Node

/-! ### Entries stay in their places -/

namespace Storage

theorem Change.placed {P : LogEntry Cmd → Prop} {s s' : Storage Cmd} (h : Change P s s')
    (hs : s.Placed) : s'.Placed := by
  intro i e he
  rcases h.entryAt he with he | ⟨-, hi⟩
  · exact hs i e he
  · exact hi

theorem Changes.placed {P : LogEntry Cmd → Prop} {s s' : Storage Cmd} (h : Changes P s s')
    (hs : s.Placed) : s'.Placed := by
  induction h with
  | refl => exact hs
  | tail _ hc ih => exact hc.placed ih

theorem Changes.sessionKey {P : LogEntry Cmd → Prop} {s s' : Storage Cmd} (h : Changes P s s') :
    s'.sessionKey = s.sessionKey := by
  induction h with
  | refl => rfl
  | tail _ hc ih => exact hc.sessionKey.trans ih

/-- A change is one write. -/
theorem Change.eq_cons {P : LogEntry Cmd → Prop} {s s' : Storage Cmd} (h : Change P s s') :
    ∃ write, s'.storage = write :: s.storage := by
  cases h with
  | setLastLogIndex idx => exact ⟨_, rfl⟩
  | setCurrentTerm term => exact ⟨_, rfl⟩
  | setVotedFor val => cases val <;> exact ⟨_, rfl⟩
  | setEntry he => exact ⟨_, rfl⟩

/-- What is in the local storage at any point of some changes is there after the first of them. -/
theorem Changes.stop {P : LogEntry Cmd → Prop} {s s' : Storage Cmd} (h : Changes P s s')
    {ls : LocalStorage} (hls : LocalStorage.Stop s.storage s'.storage ls) :
    ∃ s'', Changes P s s'' ∧ s''.storage = ls := by
  induction h with
  | refl => exact ⟨s, .refl, hls.eq_of_refl.symm⟩
  | @tail s₁ s₂ h₁ hc ih =>
    obtain ⟨write, hwrite⟩ := hc.eq_cons
    rw [hwrite] at hls
    rcases hls.of_cons with rfl | hstop
    · exact ⟨s₂, h₁.tail hc, hwrite⟩
    · exact ih hstop

end Storage

namespace RaftWorkerInner

theorem Changes.storage {P : LogEntry Cmd → Prop} {w w' : RaftWorkerInner Cmd}
    (h : Changes P w w') : Storage.Changes P w.storage w'.storage := by
  induction h with
  | refl => exact .refl
  | tail _ hc ih =>
    cases hc with
    | storage hs => exact ih.tail hs
    | leaderId | peerClients | forwarded | answer | commitIndex | apply | call => exact ih

end RaftWorkerInner

namespace RaftWorkerState

/-- What an event does to the storage are changes. -/
theorem changes_storage_on {w : RaftWorkerState Cmd} {e : Event Cmd} {n : Node Cmd}
    {resp : Option RpcResponse} (h : w.on e = some (n, resp)) (hw : w.inner.storage.Placed) :
    Storage.Changes (fun _ => True) w.inner.storage n.worker.inner.storage := by
  rcases changes_on hw (fun _ _ => trivial) h with hc | ⟨token, cmd, peer, -, hinner⟩
  · exact hc.storage
  · rw [hinner]
    exact .refl

end RaftWorkerState

/-! ### Reading the log -/

namespace Storage

theorem lt_of_getLog_none {s : Storage Cmd} {i : ℕ} (hi : i ≠ 0) (h : s.getLog i = .ok none) :
    s.lastLogIndex < i := by
  rw [getLog] at h
  split_ifs at h with hout
  · exact hout.resolve_left hi
  · split at h <;> cases h

/-- A part of the log that can be read goes on to the end of the part, or to that of the log, and
its entries carry their indices. -/
theorem Placed.sublog_eq_ok {s : Storage Cmd} (hs : s.Placed) {a n : ℕ}
    {es : List (LogEntry Cmd)} (h : s.sublog (List.range' (a + 1) n) = .ok es) :
    es.length = min n (s.lastLogIndex - a) ∧ ∀ j e, es[j]? = some e →
      s.getLog (a + j + 1) = .ok (some e) ∧ e.idx = a + j + 1 := by
  induction n generalizing a es with
  | zero =>
    obtain rfl := Except.ok.inj h
    exact ⟨(Nat.zero_min _).symm, fun j e he => by cases he⟩
  | succ n ih =>
    rw [List.range'_succ] at h
    obtain ⟨entry, rest, hget, hrest, rfl⟩ := sublog_cons_eq_ok h
    obtain ⟨hlen, hall⟩ := ih hrest
    cases entry with
    | none =>
      have hlast := lt_of_getLog_none (Nat.succ_ne_zero a) hget
      refine ⟨?_, fun j e he => ?_⟩
      · simp only [Option.toList_none, List.nil_append, hlen]
        omega
      · have := (List.getElem?_eq_some_iff.mp he).1
        simp only [Option.toList_none, List.nil_append, hlen] at this
        omega
    | some e =>
      have hlast := le_of_getLog hget
      refine ⟨?_, fun j f hf => ?_⟩
      · simp only [Option.toList_some, List.cons_append, List.nil_append, List.length_cons, hlen]
        omega
      · cases j with
        | zero =>
          obtain rfl := Option.some.inj hf
          exact ⟨hget, hs _ _ (entryAt_of_getLog hget)⟩
        | succ j =>
          have hj := hall j f hf
          rwa [Nat.add_right_comm a 1 j] at hj

end Storage

namespace RaftWorkerInner

/-- The worker has applied `es`. -/
def applied (w : RaftWorkerInner Cmd) (es : List (LogEntry Cmd)) : RaftWorkerInner Cmd :=
  { w with
    lastApplied := w.lastApplied + es.length
    stateMachineTx := w.stateMachineTx ++ es }

/-- **`apply_log`** panics on an entry that it cannot read, with nothing changed, or applies the
log from the last applied index to the commit index, or to its end. -/
theorem applyLog_run {w : RaftWorkerInner Cmd} (hw : w.storage.Placed) :
    (∃ p, applyLog.run w = .error p w) ∨
    ∃ es, applyLog.run w = .ok () (w.applied es) ∧
      es.length = min (w.commitIndex - w.lastApplied) (w.storage.lastLogIndex - w.lastApplied) ∧
      ∀ j e, es[j]? = some e →
        w.storage.getLog (w.lastApplied + j + 1) = .ok (some e) ∧
          e.idx = w.lastApplied + j + 1 := by
  rcases hsub : w.storage.sublog (List.range' (w.lastApplied + 1) (w.commitIndex - w.lastApplied))
    with p | es
  · exact .inl ⟨p, by simp [applyLog, hsub, ofExcept]⟩
  · obtain ⟨hlen, hall⟩ := hw.sublog_eq_ok hsub
    refine .inr ⟨es, ?_, hlen, hall⟩
    have hlast : es.getLast?.elim w.lastApplied (·.idx) = w.lastApplied + es.length := by
      rcases hl : es.getLast? with _ | e
      · rw [List.getLast?_eq_none_iff.mp hl]
        rfl
      · have hpos : 0 < es.length := List.length_pos_of_ne_nil fun hnil => by
          rw [hnil] at hl
          cases hl
        rw [List.getLast?_eq_getElem?] at hl
        have := (hall _ e hl).2
        simp only [Option.elim_some]
        omega
    rw [applied, ← hlast]
    simp [applyLog, hsub, ofExcept, foldl_apply]

/-- Nothing is applied. -/
structure Keeps (w w' : RaftWorkerInner Cmd) : Prop where
  lastApplied : w'.lastApplied = w.lastApplied
  stateMachineTx : w'.stateMachineTx = w.stateMachineTx

end RaftWorkerInner

namespace RaftWorkerState

open RaftWorkerInner

variable {w : RaftWorkerState Cmd} {e : Event Cmd} {n : Node Cmd}

omit [Bincode (LogEntry Cmd)] in
theorem inner_advanced (l : RaftWorker Leader Cmd) (c : ℕ) : ∃ answers,
    (Leader.advanced l c).inner = { l.inner with
      commitIndex := c, transport := { l.inner.transport with answers } } := by
  obtain ⟨answers, waiting, hack, -⟩ := Leader.acknowledge_eq
    (List.range' (l.inner.commitIndex + 1) (c - l.inner.commitIndex)) (Leader.committed l c)
  exact ⟨answers, congrArg (·.inner) hack⟩

/-- A step that applies: it changes nothing, or applies the next entries of the log. -/
theorem innerStep_applyLog (hw : w.inner.storage.Placed) :
    (innerStep applyLog w).worker.inner = w.inner ∨
    ∃ es, (innerStep applyLog w).worker.inner = w.inner.applied es ∧
      es.length = min (w.inner.commitIndex - w.inner.lastApplied)
        (w.inner.storage.lastLogIndex - w.inner.lastApplied) ∧
      ∀ j e, es[j]? = some e → w.inner.storage.getLog (w.inner.lastApplied + j + 1) = .ok (some e) ∧
        e.idx = w.inner.lastApplied + j + 1 := by
  rw [innerStep]
  obtain ⟨p, hrun⟩ | ⟨es, hrun, hlen, hall⟩ := applyLog_run hw
  · rw [hrun]
    exact .inl (inner_withInner w w.inner)
  · rw [hrun]
    exact .inr ⟨es, inner_withInner w _, hlen, hall⟩

/-- Only `apply_log` applies. -/
theorem Effect.keeps (h : w.Effect e n) :
    n = innerStep applyLog w ∨ w.inner.Keeps n.worker.inner := by
  cases h with
  | aside hframe => exact .inr ⟨hframe.lastApplied, hframe.stateMachineTx⟩
  | answers _ _ hn =>
    rw [hn, inner_withInner]
    exact .inr ⟨rfl, rfl⟩
  | forwards _ hn =>
    rw [hn, inner_withInner]
    exact .inr ⟨rfl, rfl⟩
  | @receives _ _ req _ resp inner _ hrun hn =>
    have hheard := frame_heard w req
    have hreceives := (receives_handleAppendEntries _ req).of_ok hrun
    rw [hn]
    exact .inr ⟨hreceives.lastApplied.trans hheard.lastApplied,
      hreceives.stateMachineTx.trans hheard.stateMachineTx⟩
  | @breaks _ _ req _ p inner _ hrun hn =>
    have hheard := frame_heard w req
    have hreceives := (receives_handleAppendEntries _ req).of_error hrun
    rw [hn, inner_withInner]
    exact .inr ⟨hreceives.lastApplied.trans hheard.lastApplied,
      hreceives.stateMachineTx.trans hheard.stateMachineTx⟩
  | takes hw he hsends hn =>
    obtain ⟨calls, hcalls⟩ := hsends.inner
    rw [hw, hn]
    exact .inr ⟨congrArg (·.lastApplied) hcalls, congrArg (·.stateMachineTx) hcalls⟩
  | @advances _ l c hw hle hlast hn =>
    obtain ⟨answers, hinner⟩ := inner_advanced l c
    rw [hw]
    obtain rfl | ⟨p, rfl⟩ := hn
    · exact .inr ⟨congrArg (·.lastApplied) hinner, congrArg (·.stateMachineTx) hinner⟩
    · exact .inr ⟨rfl, rfl⟩
  | applies hn => exact .inl hn

/-- What has been sent to the state machine stays sent. -/
theorem Effect.prefix_stateMachineTx (h : w.Effect e n) :
    w.inner.stateMachineTx <+: n.worker.inner.stateMachineTx := by
  obtain rfl | hk := h.keeps
  · rw [innerStep]
    rcases hsub : w.inner.storage.sublog (List.range' (w.inner.lastApplied + 1)
      (w.inner.commitIndex - w.inner.lastApplied)) with p | es
    · simp [applyLog, hsub, ofExcept, inner_withInner]
    · simp [applyLog, hsub, ofExcept, foldl_apply, inner_withInner]
  · rw [hk.stateMachineTx]

end RaftWorkerState

/-! ### Runs -/

namespace Node

/-- The commands sent so far, as many as the last applied index says, are numbered from `1` on. -/
structure Numbered (n : Node Cmd) : Prop where
  placed : n.worker.inner.storage.Placed
  counted : n.worker.inner.lastApplied = n.worker.inner.stateMachineTx.length
  indexed : Indexed n.worker.inner.stateMachineTx

/-- What a step sends is, entry by entry, what the log holds behind the entries sent before. -/
def SendsLog (n n' : Node Cmd) : Prop :=
  ∃ es, n'.worker.inner.stateMachineTx = n.worker.inner.stateMachineTx ++ es ∧
    ∀ j e, es[j]? = some e →
      n.worker.inner.storage.getLog (n.worker.inner.stateMachineTx.length + j + 1) = .ok (some e) ∧
      n'.worker.inner.storage.getLog (n.worker.inner.stateMachineTx.length + j + 1) = .ok (some e)

/-- **A step applies the next entries of the log**, or none. -/
theorem Numbered.react {n n' : Node Cmd} {e : Event Cmd} (hn : n.Numbered)
    (h : n.react e = some n') : n'.Numbered ∧ n.SendsLog n' := by
  obtain ⟨-, resp, hon, heffect⟩ := effect_react h
  have hplaced := (RaftWorkerState.changes_storage_on hon hn.placed).placed hn.placed
  have hquiet : n.worker.inner.Keeps n'.worker.inner → n'.Numbered ∧ n.SendsLog n' := by
    intro hk
    refine ⟨⟨hplaced, ?_, ?_⟩, [], ?_, fun j e he => by cases he⟩
    · rw [hk.lastApplied, hk.stateMachineTx, hn.counted]
    · rw [hk.stateMachineTx]
      exact hn.indexed
    · rw [hk.stateMachineTx, List.append_nil]
  obtain rfl | hk := heffect.keeps
  · obtain hinner | ⟨es, hinner, -, hall⟩ := RaftWorkerState.innerStep_applyLog hn.placed
    · exact hquiet ⟨congrArg (·.lastApplied) hinner, congrArg (·.stateMachineTx) hinner⟩
    · rw [hn.counted] at hall
      refine ⟨⟨hplaced, ?_, ?_⟩, es, ?_, fun j e he => ⟨(hall j e he).1, ?_⟩⟩
      · rw [hinner]
        show n.worker.inner.lastApplied + es.length = (n.worker.inner.stateMachineTx ++ es).length
        rw [hn.counted, List.length_append]
      · rw [hinner]
        exact hn.indexed.append fun j e he => (hall j e he).2
      · rw [hinner]
        rfl
      · rw [hinner]
        exact (hall j e he).1
  · exact hquiet hk

omit [Bincode (LogEntry Cmd)] in
theorem start_eq_ok {nodeId : NodeId} {key : ℕ} {peers : List NodeId}
    {clients : AList fun _ : NodeId => Client} {ls : LocalStorage} {transport : Transport Cmd}
    {inner : RaftWorkerInner Cmd}
    (h : WorkerBuilder.start nodeId key peers clients ls transport = .ok inner) :
    Storage.new key ls = .ok inner.storage ∧ inner.sessionKey = key ∧ inner.commitIndex = 0 ∧
      inner.lastApplied = 0 ∧ inner.stateMachineTx = [] := by
  rw [WorkerBuilder.start] at h
  rcases hs : (Storage.new key ls : Except Panic (Storage Cmd)) with p | s
  · rw [hs] at h
    cases h
  · rw [hs] at h
    obtain rfl := Except.ok.inj h
    exact ⟨rfl, rfl, rfl, rfl, rfl⟩

theorem Starts.numbered {n : Node Cmd} (h : n.Starts) : n.Numbered := by
  obtain ⟨_, _, _, _, _, _, inner, hstart, hplaced, rfl⟩ := h
  obtain ⟨-, -, -, happlied, htx⟩ := start_eq_ok hstart
  refine ⟨hplaced, ?_, ?_⟩
  · show inner.lastApplied = inner.stateMachineTx.length
    rw [happlied, htx, List.length_nil]
  · show Indexed inner.stateMachineTx
    rw [htx]
    exact fun i e he => by cases he

/-- Whenever a node stops in the course of a reaction and is started again, it starts as it started
before: with every entry under its index. -/
theorem starts_reopen {n n' : Node Cmd} {e : Event Cmd} {ls : LocalStorage}
    (hplaced : n.worker.inner.storage.Placed)
    (hkey : n.worker.inner.storage.sessionKey = n.worker.inner.sessionKey)
    (h : n.react e = some n')
    (hls : LocalStorage.Stop n.worker.inner.storage.storage n'.worker.inner.storage.storage ls)
    {s : Storage Cmd} (hs : Storage.new n.worker.inner.sessionKey ls = .ok s) :
    (n.reopen ls).Starts := by
  obtain ⟨-, resp, hon, -⟩ := effect_react h
  obtain ⟨s'', hchanges, hstorage⟩ := (RaftWorkerState.changes_storage_on hon hplaced).stop hls
  obtain ⟨hskey, hsls, -⟩ := Storage.new_eq_ok_iff.mp hs
  -- what is read after the stop was stored by the reaction
  have hs' : s.Placed := by
    intro i e he
    refine hchanges.placed hplaced i e ?_
    rwa [Storage.entryAt, hstorage, hchanges.sessionKey, hkey, ← hskey, ← hsls]
  set inner : RaftWorkerInner Cmd := { n.worker.inner with
    storage := { n.worker.inner.storage with storage := ls } } with hinner
  have hstart : WorkerBuilder.start n.worker.inner.nodeId n.worker.inner.sessionKey
      n.worker.inner.peers ∅ ls n.worker.inner.transport = .ok
      { leaderId := none
        nodeId := n.worker.inner.nodeId
        sessionKey := n.worker.inner.sessionKey
        clusterSize := n.worker.inner.peers.length + 1
        peers := n.worker.inner.peers
        peerClients := ∅
        commitIndex := 0
        lastApplied := 0
        storage := s
        stateMachineTx := []
        forwarded := []
        transport := n.worker.inner.transport } := by
    rw [WorkerBuilder.start, hs]
    rfl
  refine ⟨_, _, _, _, _, _, _, hstart, hs', ?_⟩
  rw [reopen, restart]
  simp only [RaftWorkerState.inner_withInner]
  rw [hstart]

end Node

/-- **The log is applied in order, without gaps and once.** -/
structure AppliesInOrder (r : List (Node Cmd)) : Prop where
  /-- The last applied index is the number of the commands sent. -/
  counted : ∀ n ∈ r, n.worker.inner.lastApplied = n.worker.inner.stateMachineTx.length
  /-- The `k`-th command sent is that of an entry with index `k`. -/
  indexed : ∀ n ∈ r, Indexed n.worker.inner.stateMachineTx
  /-- When the `k`-th command is sent, its entry is in the log at index `k`. -/
  sends : ∀ n n', Moves r n n' → n.SendsLog n'

/-- **Every run of a worker from its start applies the log in order**, whatever it is sent. -/
theorem applies_in_order {r : List (Node Cmd)}
    (h : IsRun Node.Starts (Acts Node.react fun _ _ => True) r) : AppliesInOrder r := by
  have hnumbered : ∀ n ∈ r, n.Numbered := by
    refine h.invariant (fun n hn => hn.numbered) ?_
    rintro n n' hn ⟨e, -, hreact⟩
    exact (hn.react hreact).1
  refine ⟨fun n hn => (hnumbered n hn).counted, fun n hn => (hnumbered n hn).indexed, ?_⟩
  intro n n' hm
  obtain ⟨⟨e, -, hreact⟩, -⟩ := h.of_moves hm
  exact ((hnumbered n hm.mem_left).react hreact).2

/-- The leader of term `1` sends two entries, of which it has committed the first. -/
def earlyCommit : AppendEntriesRequest ℕ where
  term := 1
  leaderId := 1
  prevLogIndex := 0
  prevLogTerm := 0
  entries := [⟨7, 1, 1⟩, ⟨8, 1, 2⟩]
  leaderCommit := 1

/-- A heartbeat whose commit index is behind the log's end. -/
def lateCommit : AppendEntriesRequest ℕ where
  term := 1
  leaderId := 1
  prevLogIndex := 2
  prevLogTerm := 1
  entries := []
  leaderCommit := 5

theorem Node.starts_fresh : Voter.fresh.node.Starts := by
  refine ⟨0, 1, [1, 2, 3], ∅, [], ⟨[], []⟩, _, rfl, ?_, rfl⟩
  intro i e he
  cases he

/-- A node applies two entries, though its commit index was set behind the log's end. -/
theorem applies_in_order_run : ∃ r : List (Node ℕ), AppliesInOrder r ∧
    ∃ n ∈ r, n.worker.inner.commitIndex = 5 ∧
      n.worker.inner.stateMachineTx = [⟨7, 1, 1⟩, ⟨8, 1, 2⟩] := by
  obtain ⟨r, -, hr, hf⟩ := exists_run_of_play Node.Starts Node.react (fun _ _ => false)
    Node.starts_fresh
    [.rpc 1 0 (.appendEntries earlyCommit), .applyLog, .rpc 1 1 (.appendEntries lateCommit),
      .applyLog]
    (fun r => r.any fun n => n.worker.inner.commitIndex = 5 &&
      n.worker.inner.stateMachineTx = [⟨7, 1, 1⟩, ⟨8, 1, 2⟩])
    (by decide +kernel)
  simp only [List.any_eq_true, Bool.and_eq_true, decide_eq_true_eq] at hf
  exact ⟨r, applies_in_order (IsRun.mono (fun _ _ => Acts.mono fun _ _ _ => trivial) hr), hf⟩

end Wraft
