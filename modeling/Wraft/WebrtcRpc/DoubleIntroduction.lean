import Wraft.WebrtcRpc.Introduction

/-!
# Double introductions

A peer is kept out of further introductions by the set `online`, to which a task adds it when it
inserts its connection. An introduction does so only after it has waited for its description, and
the answer to an offer inserts its connection without a look at what is there. So a second session
status may start a second introduction, and a second offer may replace a connection: then a task
hands over the connection of another one and leaves nothing for it (`not_once`). As long as no
step does either, every `send_peer` finds its own task's connection (`once_iff`).
-/

namespace Wraft

namespace Introduction

open Introducer (SessionId Session Offer Command)

/-- Each peer is introduced once at a time, and gets the connection that its task has made. -/
structure Once (s : Introduction) : Prop where
  /-- No two introductions of a peer are under way. -/
  introducing : ∀ (i j : TaskId) (x y : Task), s.tasks[i]? = some x → s.tasks[j]? = some y →
    x.phase.introducing → y.phase.introducing → x.peerId = y.peerId → i = j
  /-- What a task has inserted is there for its `send_peer`. This is asked of every task that has
  inserted its connection, also of one that fails before its `send_peer`. -/
  inserted : ∀ (k : TaskId) (x : Task), s.tasks[k]? = some x → x.phase.inserted →
    s.peers x.peerId = some k
  /-- What was taken out is what the task had inserted. -/
  taken : ∀ p ∈ s.taken, p.2 = p.1
  notTwice : ∀ peerId, Panic.sentTwice peerId ∉ s.panics

/-- A step starts an introduction of a peer while another one is under way, or inserts a connection
for a peer while another task's connection has not been sent. -/
def overlaps (s : Introduction) : Action → Bool
  | .message (some (.sessionStatus _)) order _ =>
    order.any fun p => s.tasks.any fun x => x.peerId = p && x.phase.introducing
  | .message (some (.offer offer)) _ true =>
    s.tasks.any fun x => x.peerId = offer.nodeId && x.phase.inserted
  | .describe k (some _) _ =>
    s.tasks[k]?.any fun x => s.tasks.any fun y => y.peerId = x.peerId && y.phase.inserted
  | _ => false

/-! ### Parts of steps -/

/-- A part of a step that inserts and takes out nothing. -/
structure Quiet (s s' : Introduction) : Prop where
  tasks : ∀ (k : TaskId) (y : Task), s'.tasks[k]? = some y →
    ∃ x, s.tasks[k]? = some x ∧ x.peerId = y.peerId ∧ (y.phase.introducing → x.phase.introducing) ∧
      (y.phase.inserted → x.phase.inserted)
  peers : s'.peers = s.peers
  taken : s'.taken = s.taken
  panics : ∀ peerId, Panic.sentTwice peerId ∈ s'.panics → Panic.sentTwice peerId ∈ s.panics

section

variable {s s' s'' : Introduction} {k : TaskId} {task : Task} {phase : Phase}

theorem Quiet.of_eq (htasks : s'.tasks = s.tasks) (hpeers : s'.peers = s.peers)
    (htaken : s'.taken = s.taken)
    (hpanics : ∀ peerId, Panic.sentTwice peerId ∈ s'.panics → Panic.sentTwice peerId ∈ s.panics) :
    Quiet s s' where
  tasks _ y hy := ⟨y, htasks ▸ hy, rfl, id, id⟩
  peers := hpeers
  taken := htaken
  panics := hpanics

theorem Quiet.trans (h : Quiet s s') (h' : Quiet s' s'') : Quiet s s'' where
  tasks k z hz := by
    obtain ⟨y, hy, hyz, hintro, hins⟩ := h'.tasks k z hz
    obtain ⟨x, hx, hxy, hintro', hins'⟩ := h.tasks k y hy
    exact ⟨x, hx, hxy.trans hyz, hintro' ∘ hintro, hins' ∘ hins⟩
  peers := h'.peers.trans h.peers
  taken := h'.taken.trans h.taken
  panics p hp := h.panics p (h'.panics p hp)

theorem getElem?_setPhase {j : TaskId} {y : Task}
    (h : (s.setPhase k task phase).tasks[j]? = some y) :
    j = k ∧ y = { task with phase } ∨ j ≠ k ∧ s.tasks[j]? = some y := by
  rw [setPhase, List.getElem?_set] at h
  split_ifs at h with hkj hlt
  · exact .inl ⟨hkj.symm, (Option.some.inj h).symm⟩
  · exact .inr ⟨Ne.symm hkj, h⟩

/-- A task moves on and neither starts to introduce nor inserts. -/
theorem quiet_setPhase (htask : s.tasks[k]? = some task)
    (hintro : phase.introducing → task.phase.introducing)
    (hins : phase.inserted → task.phase.inserted) : Quiet s (s.setPhase k task phase) where
  tasks j y hy := by
    obtain ⟨rfl, rfl⟩ | ⟨-, hy⟩ := getElem?_setPhase hy
    · exact ⟨task, htask, rfl, hintro, hins⟩
    · exact ⟨y, hy, rfl, id, id⟩
  peers := rfl
  taken := rfl
  panics _ := id

theorem quiet_raise (s : Introduction) (err : Error) : Quiet s (s.raise err) := by
  rw [raise]
  split_ifs
  · exact .of_eq rfl rfl rfl fun _ => id
  · exact .of_eq rfl rfl rfl fun p hp => by simpa using hp

theorem quiet_fail (htask : s.tasks[k]? = some task) (err : Error) :
    Quiet s (s.fail k task err) := by
  have hphase : Quiet s (s.setPhase k task (.returned false)) := quiet_setPhase htask nofun nofun
  rw [fail]
  split_ifs
  · exact hphase
  · exact hphase.trans (quiet_raise _ err)

theorem quiet_sendOffer (htask : s.tasks[k]? = some task) (sdpData : String) (ok : Bool) :
    Quiet s (s.sendOffer k task sdpData ok) := by
  rw [sendOffer]
  split_ifs
  · exact .of_eq rfl rfl rfl fun _ => id
  · exact quiet_fail htask .js

/-! ### What the parts keep -/

theorem once_joined (nodeId : Introducer.NodeId) (sessionId : SessionId) :
    (joined nodeId sessionId).Once where
  introducing _ _ _ _ h := nomatch h
  inserted _ _ h := nomatch h
  taken := nofun
  notTwice _ := nofun

theorem Once.quiet (h : s.Once) (hq : Quiet s s') : s'.Once where
  introducing i j x y hx hy hxi hyi hxy := by
    obtain ⟨x', hx', hxx', hxi', -⟩ := hq.tasks i x hx
    obtain ⟨y', hy', hyy', hyi', -⟩ := hq.tasks j y hy
    exact h.introducing i j x' y' hx' hy' (hxi' hxi) (hyi' hyi) (by rw [hxx', hyy', hxy])
  inserted k x hx hins := by
    obtain ⟨x', hx', hxx', -, hins'⟩ := hq.tasks k x hx
    rw [hq.peers, ← hxx']
    exact h.inserted k x' hx' (hins' hins)
  taken := hq.taken ▸ h.taken
  notTwice p hp := h.notTwice p (hq.panics p hp)

/-- A task inserts a connection while no other task's connection for the peer is unsent. -/
theorem Once.insert (h : s.Once) (htask : s.tasks[k]? = some task)
    (hdesc : task.phase.introducing)
    (hfree : ∀ (j : TaskId) (x : Task), s.tasks[j]? = some x → x.peerId = task.peerId →
      x.phase.inserted = false) :
    ((s.insertPeer task.peerId k).setPhase k task phase).Once where
  introducing i j x y hx hy hxi hyi hxy := by
    have hold : ∀ (i : TaskId) (x : Task),
        ((s.insertPeer task.peerId k).setPhase k task phase).tasks[i]? = some x →
          x.phase.introducing →
        ∃ x', s.tasks[i]? = some x' ∧ x'.phase.introducing ∧ x'.peerId = x.peerId := by
      intro i x hx hxi
      obtain ⟨rfl, rfl⟩ | ⟨-, hx⟩ := getElem?_setPhase hx
      · exact ⟨task, htask, hdesc, rfl⟩
      · exact ⟨x, hx, hxi, rfl⟩
    obtain ⟨x', hx', hxi', hxx'⟩ := hold i x hx hxi
    obtain ⟨y', hy', hyi', hyy'⟩ := hold j y hy hyi
    exact h.introducing i j x' y' hx' hy' hxi' hyi' (by rw [hxx', hyy', hxy])
  inserted j x hx hins := by
    obtain ⟨rfl, rfl⟩ | ⟨-, hx⟩ := getElem?_setPhase hx
    · exact Function.update_self ..
    · -- another task's connection is for another peer
      have hne : x.peerId ≠ task.peerId := fun heq => by
        rw [hfree j x hx heq] at hins
        exact nomatch hins
      exact (Function.update_of_ne hne ..).trans (h.inserted j x hx hins)
  taken := h.taken
  notTwice := h.notTwice

/-- A task takes its connection out. -/
theorem Once.take (h : s.Once) (htask : s.tasks[k]? = some task) (hins : task.phase.inserted)
    (ok : Bool) : (setPhase { s with
      peers := Function.update s.peers task.peerId none
      taken := s.taken ++ [(k, k)] } k task (.returned ok)).Once where
  introducing i j x y hx hy hxi hyi hxy := by
    obtain ⟨-, rfl⟩ | ⟨-, hx⟩ := getElem?_setPhase hx
    · exact nomatch hxi
    obtain ⟨-, rfl⟩ | ⟨-, hy⟩ := getElem?_setPhase hy
    · exact nomatch hyi
    exact h.introducing i j x y hx hy hxi hyi hxy
  inserted j x hx hxins := by
    obtain ⟨-, rfl⟩ | ⟨hne, hx⟩ := getElem?_setPhase hx
    · exact nomatch hxins
    · have hpeer := h.inserted j x hx hxins
      -- the entry that is removed is that of task `k`
      have hother : x.peerId ≠ task.peerId := fun heq => by
        rw [heq, h.inserted k task htask hins] at hpeer
        exact hne (Option.some.inj hpeer).symm
      exact (Function.update_of_ne hother ..).trans hpeer
  taken p hp := by
    obtain hp | hp := List.mem_append.mp hp
    · exact h.taken p hp
    · rw [List.mem_singleton.mp hp]
  notTwice := h.notTwice

/-- The tasks after some were spawned: an old one, or a new one past the end. -/
theorem getElem?_append_tasks {new : List Task} {j : TaskId} {x : Task}
    (h : (s.tasks ++ new)[j]? = some x) :
    s.tasks[j]? = some x ∨ ∃ n, j = s.tasks.length + n ∧ new[n]? = some x := by
  rw [List.getElem?_append] at h
  split_ifs at h with hj
  · exact .inl h
  · exact .inr ⟨_, (Nat.add_sub_cancel' (Nat.le_of_not_lt hj)).symm, h⟩

/-- Introductions of peers start that are not under way. -/
theorem Once.start (h : s.Once) {order : List Introducer.NodeId} (hnodup : order.Nodup)
    (hfree : ∀ p ∈ order, ∀ x ∈ s.tasks, x.peerId = p → x.phase.introducing = false) :
    Once { s with tasks := s.tasks ++ order.map fun peerId => ⟨peerId, .describing⟩ } where
  introducing i j x y hx hy hxi hyi hxy := by
    have hnew : ∀ {n : ℕ} {x : Task},
        (order.map fun peerId => (⟨peerId, .describing⟩ : Task))[n]? = some x →
          order[n]? = some x.peerId := by
      intro n x hx
      obtain ⟨p, hp, rfl⟩ := (List.getElem?_map ..).symm.trans hx |> Option.map_eq_some_iff.mp
      exact hp
    have hold : ∀ {i : TaskId} {n : ℕ} {x y : Task}, s.tasks[i]? = some x → x.phase.introducing →
        order[n]? = some y.peerId → x.peerId ≠ y.peerId := by
      intro i n x y hx hxi hy hxy
      have := hfree y.peerId (List.mem_of_getElem? hy) x (List.mem_of_getElem? hx) hxy
      rw [hxi] at this
      exact nomatch this
    obtain hx' | ⟨m, rfl, hx'⟩ := getElem?_append_tasks hx <;>
      obtain hy' | ⟨n, rfl, hy'⟩ := getElem?_append_tasks hy
    · exact h.introducing i j x y hx' hy' hxi hyi hxy
    · exact absurd hxy (hold hx' hxi (hnew hy'))
    · exact absurd hxy.symm (hold hy' hyi (hnew hx'))
    · obtain ⟨hlt, -⟩ := List.getElem?_eq_some_iff.mp (hnew hx')
      rw [(List.getElem?_inj hlt hnodup).mp ((hnew hx').trans (hxy ▸ (hnew hy').symm))]
  inserted j x hx hins := by
    obtain hx | ⟨n, -, hx⟩ := getElem?_append_tasks hx
    · exact h.inserted j x hx hins
    · obtain ⟨p, -, rfl⟩ := (List.getElem?_map ..).symm.trans hx |> Option.map_eq_some_iff.mp
      exact nomatch hins
  taken := h.taken
  notTwice := h.notTwice

/-- An offer is answered when no other task's connection for the peer is unsent. -/
theorem Once.offer (h : s.Once) (offer : Offer)
    (hfree : ∀ x ∈ s.tasks, x.peerId = offer.nodeId → x.phase.inserted = false) :
    (s.handleOffer offer true).Once where
  introducing i j x y hx hy hxi hyi hxy := by
    obtain hx | ⟨m, -, hx⟩ := getElem?_append_tasks hx
    · obtain hy | ⟨n, -, hy⟩ := getElem?_append_tasks hy
      · exact h.introducing i j x y hx hy hxi hyi hxy
      · rw [List.mem_singleton.mp (List.mem_of_getElem? hy)] at hyi
        exact nomatch hyi
    · rw [List.mem_singleton.mp (List.mem_of_getElem? hx)] at hxi
      exact nomatch hxi
  inserted j x hx hins := by
    obtain hx' | ⟨n, rfl, hx'⟩ := getElem?_append_tasks hx
    · have hne : x.peerId ≠ offer.nodeId := fun heq => by
        rw [hfree x (List.mem_of_getElem? hx') heq] at hins
        exact nomatch hins
      exact (Function.update_of_ne hne ..).trans (h.inserted j x hx' hins)
    · obtain ⟨hlt, -⟩ := List.getElem?_eq_some_iff.mp hx'
      obtain rfl : n = 0 := Nat.lt_one_iff.mp hlt
      rw [List.mem_singleton.mp (List.mem_of_getElem? hx')]
      exact Function.update_self ..
  taken := h.taken
  notTwice := h.notTwice

/-- A task sends the connection that it has inserted. -/
theorem Once.sendPeer (h : s.Once) (htask : s.tasks[k]? = some task)
    (hins : task.phase.inserted) : (s.sendPeer k task).Once := by
  have htake := h.take htask hins
  rw [Introduction.sendPeer, h.inserted k task htask hins]
  simp only
  split_ifs
  · exact (htake true).quiet (.of_eq rfl rfl rfl fun _ => id)
  · rw [fail]
    split_ifs
    · exact htake false
    · exact (htake false).quiet (quiet_raise _ .rust)

/-! ### Steps and runs -/

theorem quiet_handleAnswer (s : Introduction) (answer : Offer) :
    Quiet s (s.handleAnswer answer) := by
  rw [handleAnswer]
  split
  · exact .of_eq rfl rfl rfl fun _ => id
  · exact quiet_raise s _

theorem quiet_handleIceCandidate (s : Introduction) (candidate : Introducer.IceCandidate) :
    Quiet s (s.handleIceCandidate candidate) := by
  rw [handleIceCandidate]
  split
  · exact .of_eq rfl rfl rfl fun _ => id
  · exact .of_eq rfl rfl rfl fun _ => id

/-- **Step lemma.** A step without an overlap keeps the introductions apart. -/
theorem Once.exec (h : s.Once) {a : Action} (hfree : s.overlaps a = false)
    (hexec : s.exec a = some s') : s'.Once := by
  cases branch_of_exec hexec with
  | sessionStatus hnodup =>
    refine h.start hnodup fun p hp x hx hxp => ?_
    simp only [overlaps, List.any_eq_false, Bool.not_eq_true, Bool.and_eq_false_imp,
      decide_eq_true_eq] at hfree
    exact hfree p hp x hx hxp
  | @offer offer order ok =>
    cases ok with
    | true =>
      refine h.offer _ fun x hx hxp => ?_
      simp only [overlaps, List.any_eq_false, Bool.not_eq_true, Bool.and_eq_false_imp,
        decide_eq_true_eq] at hfree
      exact hfree x hx hxp
    | false => exact h.quiet (quiet_raise s .js)
  | answered => exact h.quiet (quiet_handleAnswer s _)
  | iceCandidate => exact h.quiet (quiet_handleIceCandidate s _)
  | unread => exact h.quiet (quiet_raise s .rust)
  | undescribed htask => exact h.quiet (quiet_fail htask .js)
  | @described k task sdpData ok htask hphase =>
    have hins : ((s.insertPeer task.peerId k).setPhase k task (.offering sdpData)).Once := by
      refine h.insert htask (by rw [hphase]; rfl) fun j x hx hxp => ?_
      simp only [overlaps, htask, Option.any_some, List.any_eq_false, Bool.not_eq_true,
        Bool.and_eq_false_imp, decide_eq_true_eq] at hfree
      exact hfree x (List.mem_of_getElem? hx) hxp
    refine hins.quiet (quiet_sendOffer ?_ sdpData ok)
    obtain ⟨hlt, -⟩ := List.getElem?_eq_some_iff.mp htask
    exact List.getElem?_set_self hlt
  | retried htask => exact h.quiet (quiet_sendOffer htask _ _)
  | @answerSent k task offered sdpData htask hphase =>
    have hmove : Quiet s (s.setPhase k task .awaitingChannel) :=
      quiet_setPhase htask nofun fun _ => by rw [hphase]; rfl
    exact h.quiet (hmove.trans (.of_eq rfl rfl rfl fun _ => id))
  | answerFailed htask => exact h.quiet (quiet_fail htask .js)
  | opened htask hins => exact h.sendPeer htask hins
  | foundCandidate =>
    rw [foundCandidate]
    split_ifs
    · exact h.quiet (.of_eq rfl rfl rfl fun _ => id)
    · exact h.quiet (.of_eq rfl rfl rfl fun p hp => by simpa using hp)
  | @rejected i =>
    have herase : Quiet s { s with promises := s.promises.eraseIdx i } :=
      .of_eq rfl rfl rfl fun _ => id
    exact h.quiet (herase.trans (quiet_raise _ .js))
  | resolved | received | done => exact h.quiet (.of_eq rfl rfl rfl fun _ => id)
  | join | dropped | failed | doneDropped =>
    exact h.quiet (.of_eq rfl rfl rfl fun p hp => by simpa using hp)

/-! ### Overlaps -/

/-- A task whose connection is unsent, and the entry of whose peer is another task's. -/
theorem not_once_of_inserted {x : Task} {j : TaskId} (hx : s.tasks[j]? = some x)
    (hins : x.phase.inserted) {pc : ConnId} (hpeer : s.peers x.peerId = some pc) (hne : pc ≠ j) :
    ¬s.Once := by
  intro h
  rw [h.inserted j x hx hins] at hpeer
  exact hne (Option.some.inj hpeer).symm

theorem peers_raise (s : Introduction) (err : Error) : (s.raise err).peers = s.peers := by
  rw [raise]
  split_ifs <;> rfl

theorem tasks_raise (s : Introduction) (err : Error) : (s.raise err).tasks = s.tasks := by
  rw [raise]
  split_ifs <;> rfl

theorem peers_sendOffer (s : Introduction) (k : TaskId) (task : Task) (sdpData : String)
    (ok : Bool) : (s.sendOffer k task sdpData ok).peers = s.peers := by
  rw [sendOffer, fail]
  split_ifs
  · rfl
  · rfl
  · exact peers_raise _ .js

/-- Sending an offer leaves the other tasks. -/
theorem getElem?_sendOffer (s : Introduction) {j : TaskId} (hj : j ≠ k) (task : Task)
    (sdpData : String) (ok : Bool) :
    (s.sendOffer k task sdpData ok).tasks[j]? = s.tasks[j]? := by
  rw [sendOffer, fail]
  split_ifs
  · rfl
  · exact List.getElem?_set_ne hj.symm
  · rw [tasks_raise]
    exact List.getElem?_set_ne hj.symm

/-- An overlap leaves introductions that are not kept apart. -/
theorem not_once_exec {a : Action} (hbad : s.overlaps a = true) (hexec : s.exec a = some s') :
    ¬s'.Once := by
  cases branch_of_exec hexec with
  | @sessionStatus session order =>
    obtain ⟨p, hp, hbad⟩ := List.any_eq_true.mp hbad
    obtain ⟨x, hx, hbad⟩ := List.any_eq_true.mp hbad
    obtain ⟨hxp, hxi⟩ := Bool.and_eq_true_iff.mp hbad
    obtain ⟨i, hi⟩ := List.getElem?_of_mem hx
    obtain ⟨n, hn⟩ := List.getElem?_of_mem hp
    have hlt : i < s.tasks.length := (List.getElem?_eq_some_iff.mp hi).1
    -- the new introduction of `p` is under way beside the old one
    intro h
    have := h.introducing i (s.tasks.length + n) x ⟨p, .describing⟩
      (by simpa [List.getElem?_append_left hlt] using hi)
      (by simp [List.getElem?_append_right, hn]) hxi rfl (of_decide_eq_true hxp)
    exact absurd this (Nat.ne_of_lt (Nat.lt_add_right n hlt))
  | @offer offer order ok =>
    cases ok with
    | false => cases hbad
    | true =>
      obtain ⟨x, hx, hbad⟩ := List.any_eq_true.mp hbad
      obtain ⟨hxp, hins⟩ := Bool.and_eq_true_iff.mp hbad
      obtain ⟨j, hj⟩ := List.getElem?_of_mem hx
      have hlt : j < s.tasks.length := (List.getElem?_eq_some_iff.mp hj).1
      have hpeer : (s.handleOffer offer true).peers x.peerId = some s.tasks.length := by
        rw [of_decide_eq_true hxp]
        exact Function.update_self ..
      exact not_once_of_inserted ((List.getElem?_append_left hlt).trans hj) hins hpeer
        (Nat.ne_of_gt hlt)
  | @described k task sdpData ok htask hphase =>
    replace hbad : s.tasks[k]?.any (fun x => s.tasks.any fun y =>
      y.peerId = x.peerId && y.phase.inserted) = true := hbad
    rw [htask, Option.any_some] at hbad
    obtain ⟨x, hx, hbad⟩ := List.any_eq_true.mp hbad
    obtain ⟨hxp, hins⟩ := Bool.and_eq_true_iff.mp hbad
    obtain ⟨j, hj⟩ := List.getElem?_of_mem hx
    have hjk : j ≠ k := by
      rintro rfl
      obtain rfl := Option.some.inj (hj.symm.trans htask)
      rw [hphase] at hins
      exact nomatch hins
    refine not_once_of_inserted (j := j) ?_ hins ?_ hjk.symm
    · rw [getElem?_sendOffer _ hjk]
      exact (List.getElem?_set_ne hjk.symm).trans hj
    · rw [peers_sendOffer, of_decide_eq_true hxp]
      exact Function.update_self ..
  | _ => exact nomatch hbad

end

/-- **No double introduction.** In a run without overlaps each peer is introduced once at a time
and gets the connection that its task has made, and the next step keeps it so exactly if it is not
an overlap. -/
theorem once_iff {nodeId : Introducer.NodeId} {sessionId : SessionId} {s : Introduction}
    {r : List Introduction}
    (hr : IsRunWhere nodeId sessionId (fun s a => s.overlaps a = false) (s :: r)) :
    (∀ t ∈ s :: r, t.Once) ∧
      ∀ a s', s.exec a = some s' → (s'.Once ↔ s.overlaps a = false) := by
  have honce : ∀ t ∈ s :: r, t.Once :=
    TransitionSystem.IsRun.invariant (fun _ h => by rw [h]; exact once_joined nodeId sessionId)
      (fun _ _ h ⟨_, hfree, hexec⟩ => h.exec hfree hexec) hr
  refine ⟨honce, fun a s' hexec => ⟨fun h' => ?_, fun hfree => ?_⟩⟩
  · by_contra hbad
    exact not_once_exec (by simpa using hbad) hexec h'
  · exact (honce s (by simp)).exec hfree hexec

/-- The status of session `7` with the nodes `online`. -/
def statusOf (online : Finset Introducer.NodeId) (order : List Introducer.NodeId) : Action :=
  .message (some (.sessionStatus { sessionId := 7, online })) order true

/-- Node `2` offers a connection to node `3` and answers the offer of node `1`. -/
theorem once_iff_two : ∃ (s : Introduction) (r : List Introduction),
    IsRunWhere 2 7 (fun s a => s.overlaps a = false) (s :: r) ∧ s.taken = [(1, 1), (0, 0)] ∧
    (∀ t ∈ s :: r, t.Once) ∧
      ∀ a s', s.exec a = some s' → (s'.Once ↔ s.overlaps a = false) := by
  obtain ⟨r, -, hr, hf⟩ := TransitionSystem.exists_run_of_play (· = joined 2 7) exec overlaps rfl
    [statusOf {1, 2, 3} [3], .message (some (.offer ⟨7, 1, 2, "offer"⟩)) [] true,
      .describe 0 (some "sdp") true, .answer 1 (some "answer") true, .retry 0 true, .opened 1,
      .message (some (.answer ⟨7, 3, 2, "answer"⟩)) [] true, .resolve 0 true, .receivePeer true,
      .opened 0]
    (fun r => r.head?.any fun s => s.taken = [(1, 1), (0, 0)]) (by decide +kernel)
  obtain ⟨s, hs, htaken⟩ := (Option.any_eq_true _ _).mp hf
  obtain ⟨r, rfl⟩ := List.head?_eq_some_iff.mp hs
  exact ⟨s, r, hr, of_decide_eq_true htaken, once_iff hr⟩

/-- Two session statuses come before the first introduction has its description: the first task
hands over the connection of the second one, which then panics. -/
theorem not_once : ¬∀ r : List Introduction, IsRunWhere 1 7 (fun _ _ => True) r →
    ∀ s ∈ r, s.Once := by
  intro h
  obtain ⟨r, -, hr, hf⟩ := TransitionSystem.exists_run_of_play (· = joined 1 7) exec
    (fun _ _ => false) rfl
    [statusOf {1, 2} [2], statusOf {1, 2, 3} [2, 3], .describe 0 (some "first") true,
      .describe 1 (some "second") true, .opened 0, .opened 1]
    (fun r => r.any fun s => s.taken = [(0, 1)] ∧ .sentTwice 2 ∈ s.panics) (by decide +kernel)
  obtain ⟨s, hs, hf⟩ := List.any_eq_true.mp hf
  have hrun : IsRunWhere 1 7 (fun _ _ => True) r :=
    TransitionSystem.IsRun.mono (fun _ _ => TransitionSystem.Acts.mono fun _ _ _ => trivial) hr
  exact (h r hrun s hs).notTwice 2 (of_decide_eq_true hf).2

end Introduction

end Wraft
