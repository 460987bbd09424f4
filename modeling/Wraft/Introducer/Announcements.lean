import Wraft.Introducer.Calls
import Wraft.Introducer.ChannelsSpec

/-!
# The announcements of a session

The set of a session is announced while the read guard on `online` is held, under which it was
looked up: no call can update it in between (`Guarded.snapshot`). So every announcement is the set
at the moment it is sent, and the announcements come in the order of the values the set took. A
call that changes the set has yet to announce it, and what it will announce includes the change:
when no call is on its way from its update to the end of its broadcast, the last announcement is
the current set (`last_announcement_current`).

To announce a set is to put its status into the queue of every receiver of the session
(`Announces`). No other status comes to a queue, so the statuses that wait in one are the last
announcements.
-/

namespace Wraft.Introducer

open TransitionSystem

/-! ### What is done under the locks -/

/-- An update sets the session's set and no other one. When it panics it changes no set, and it
poisons the lock only if the session has none. -/
theorem Call.of_update (call : Call) (ch : Channels) :
    match call.update.run ch with
    | .ok () ch' => ch.online.poisoned = false ∧ ch'.online.poisoned = false ∧
        ch'.messages = ch.messages ∧ (ch'.online.val call.sessionId).isSome ∧
        ∀ s, s ≠ call.sessionId → ch'.online.val s = ch.online.val s
    | .error _ ch' => ch'.messages = ch.messages ∧ ch'.online.val = ch.online.val ∧
        (ch'.online.poisoned = true → ch.online.poisoned = true ∨
          ch.online.val call.sessionId = none) := by
  obtain hpoison | hpoison := Bool.eq_false_or_eq_true ch.online.poisoned
  · have hrun : call.update.run ch = .error .poisoned ch := by
      rw [update]
      cases call.membership <;>
        simp [Channels.joinedOnline, Channels.leftOnline, Channels.lockOnline, hpoison]
    rw [hrun]
    exact ⟨rfl, rfl, fun _ => .inl hpoison⟩
  · have hset : ∀ online, (ch.setOnline (Function.update ch.online.val call.sessionId
        (some online))).online.val call.sessionId = some online := fun online => by
      simp [Channels.setOnline]
    have hother : ∀ online s, s ≠ call.sessionId → (ch.setOnline (Function.update ch.online.val
        call.sessionId (some online))).online.val s = ch.online.val s := fun online s hs => by
      simp [Channels.setOnline, hs]
    rw [update]
    cases call.membership with
    | joined =>
      simp only [Channels.joinedOnline, Channels.lockOnline, EStateM.run_bind, EStateM.run_get,
        hpoison, Bool.false_eq_true, if_false, EStateM.run_pure, EStateM.run_modify]
      exact ⟨trivial, hpoison, rfl, by simp [hset], hother _⟩
    | left =>
      rcases honline : ch.online.val call.sessionId with _ | online
      · simp [Channels.leftOnline, Channels.lockOnline, hpoison, honline]
      · simp only [Channels.leftOnline, Channels.lockOnline, EStateM.run_bind, EStateM.run_get,
          hpoison, Bool.false_eq_true, if_false, EStateM.run_pure, EStateM.run_modify, honline]
        exact ⟨trivial, hpoison, rfl, by simp [hset], hother _⟩

namespace Channels

/-- Broadcasting leaves the sets and panics only on a poisoned lock. -/
theorem of_broadcast (ch : Channels) (s : SessionId) (cmd : Command) :
    match (broadcast s cmd).run ch with
    | .ok res ch' => ch'.online = ch.online ∧ ch'.messages.poisoned = ch.messages.poisoned ∧
        ((∃ tx, ch.messages.val s = some tx ∧ tx ≠ []) → res = .ok ())
    | .error _ ch' => ch'.online = ch.online ∧ ch.messages.poisoned = true ∧
        ch'.messages.poisoned = true := by
  obtain hpoison | hpoison := Bool.eq_false_or_eq_true ch.messages.poisoned
  · simp [broadcast, lockMessages, hpoison]
  · rcases htx : ch.messages.val s with _ | tx
    · simp [broadcast, lockMessages, hpoison, htx]
    · by_cases hnil : tx = []
      · simp [broadcast, lockMessages, hpoison, htx, hnil]
      · simp only [broadcast, lockMessages, EStateM.run_bind, EStateM.run_get, hpoison,
          Bool.false_eq_true, if_false, EStateM.run_pure, htx, hnil, EStateM.run_modify]
        exact ⟨rfl, hpoison, fun _ => trivial⟩

end Channels

/-! ### The statuses in the queues -/

/-- The session status that a command carries. -/
def Command.status? : Command → Option Session
  | .sessionStatus status => some status
  | _ => none

/-- The statuses that wait in the queue of a receiver. -/
def Receiver.statuses (rx : Receiver) : List Session := rx.queue.filterMap Command.status?

/-- The statuses that wait in the queue of socket `i` in session `s`. -/
def Channels.statuses (ch : Channels) (i : SocketId) (s : SessionId) : List Session :=
  (ch.receiver i s).elim [] Receiver.statuses

/-- A command comes to the end of the queue; an older one may be lost. -/
theorem Receiver.statuses_push (rx : Receiver) (capacity : ℕ) (cmd : Command) :
    (rx.push capacity cmd).statuses <:+ rx.statuses ++ cmd.status?.toList := by
  have hcmd : [cmd].filterMap Command.status? = cmd.status?.toList := by
    cases h : cmd.status? <;> simp [h]
  rw [push]
  split_ifs
  · rw [statuses, List.filterMap_append, hcmd]
    exact List.suffix_rfl
  · rw [statuses, List.filterMap_append, hcmd]
    exact List.suffix_append_self_iff.mpr (rx.queue.tail_suffix.filterMap Command.status?)

namespace Channels

variable {ch ch' : Channels}

theorem statuses_of_receiver_eq {i : SocketId} {s : SessionId}
    (h : ch'.receiver i s = ch.receiver i s) : ch'.statuses i s <:+ ch.statuses i s := by
  rw [statuses, statuses, h]

/-- A command that is not a status is broadcast. -/
theorem statuses_heard {cmd : Command} (hcmd : cmd.status? = none) {u : SessionId}
    (h : ∀ i, ch'.receiver i = heard ch.capacity (some (u, cmd)) (ch.receiver i))
    (i : SocketId) (s : SessionId) : ch'.statuses i s <:+ ch.statuses i s := by
  rw [statuses, h i, heard]
  split_ifs
  · rw [statuses]
    cases ch.receiver i s with
    | none => exact List.suffix_rfl
    | some rx => simpa [hcmd] using rx.statuses_push ch.capacity cmd
  · exact List.suffix_rfl

/-- A socket takes a message from its queue. -/
theorem statuses_setReceiver {j : SocketId} {u : SessionId} {rx rx' : Receiver}
    (hrx : ch.receiver j u = some rx) (hqueue : rx'.queue <:+ rx.queue) (i : SocketId)
    (s : SessionId) : (ch.setReceiver j u rx').statuses i s <:+ ch.statuses i s := by
  rw [statuses, receiver_setReceiver]
  split_ifs with h
  · obtain ⟨rfl, rfl⟩ := h
    rw [statuses, hrx]
    exact hqueue.filterMap _
  · exact List.suffix_rfl

/-- The operation leaves the online sets and the locks as they are, and no status comes to a
queue. -/
structure Still (ch ch' : Channels) : Prop where
  online : ch'.online = ch.online
  poisoned : ch'.messages.poisoned = ch.messages.poisoned
  statuses : ∀ i s, ch'.statuses i s <:+ ch.statuses i s

theorem still_refl (ch : Channels) : ch.Still ch := ⟨rfl, rfl, fun _ _ => List.suffix_rfl⟩

theorem still_ensureSession (ch : Channels) (u : SessionId) :
    ch.Still (ch.after (ensureSession u)) := by
  have hch := receiver_ensureSession ch u
  have hfollows : EStateM.Follows (fun c c' : Channels => c'.online = c.online ∧
      c'.messages.poisoned = c.messages.poisoned) ch (ensureSession u) := by
    rintro _ rfl
    obtain hpoison | hpoison := Bool.eq_false_or_eq_true ch.messages.poisoned
    · simp [ensureSession, lockMessages, hpoison]
    · rcases htx : ch.messages.val u with _ | tx
      · simp [ensureSession, lockMessages, hpoison, htx, setMessages]
      · simp [ensureSession, lockMessages, hpoison, htx]
  rw [after]
  cases hrun : (ensureSession u).run ch with
  | ok _ ch' =>
    rw [hrun] at hch
    obtain ⟨honline, hpoisoned⟩ := hfollows.of_ok hrun
    exact ⟨honline, hpoisoned, fun i s => statuses_of_receiver_eq (by rw [hch i])⟩
  | error _ ch' =>
    rw [hrun] at hch
    subst hch
    exact still_refl _

theorem still_subscribe (ch : Channels) (j : SocketId) (u : SessionId) :
    ch.Still (ch.after (subscribe j u)) := by
  have hch := receiver_subscribe ch j u
  have hfollows : EStateM.Follows (fun c c' : Channels => c'.online = c.online ∧
      c'.messages.poisoned = c.messages.poisoned) ch (subscribe j u) := by
    rintro _ rfl
    obtain hpoison | hpoison := Bool.eq_false_or_eq_true ch.messages.poisoned
    · simp [subscribe, lockMessages, hpoison]
    · rcases htx : ch.messages.val u with _ | tx
      · simp [subscribe, lockMessages, hpoison, htx]
      · simp [subscribe, lockMessages, hpoison, htx, setMessages]
  rw [after]
  cases hrun : (subscribe j u).run ch with
  | ok _ ch' =>
    rw [hrun] at hch
    obtain ⟨honline, hpoisoned⟩ := hfollows.of_ok hrun
    refine ⟨honline, hpoisoned, fun i s => ?_⟩
    -- the queue of a new receiver is empty
    rw [statuses, statuses, hch i s]
    split_ifs
    · cases ch.receiver i s <;> simp [Receiver.statuses]
    · cases ch.receiver i s <;> simp
    · exact List.suffix_rfl
  | error _ ch' =>
    rw [hrun] at hch
    subst hch
    exact still_refl _

theorem still_broadcast (ch : Channels) (u : SessionId) {cmd : Command}
    (hcmd : cmd.status? = none) : ch.Still (ch.after (broadcast u cmd)) := by
  have hch := receiver_broadcast ch u cmd
  have hof := of_broadcast ch u cmd
  rw [after]
  cases hrun : (broadcast u cmd).run ch with
  | ok res ch' =>
    rw [hrun] at hch hof
    cases res with
    | ok _ => exact ⟨hof.1, hof.2.1, statuses_heard hcmd hch⟩
    | error _ =>
      subst hch
      exact still_refl _
  | error _ ch' =>
    rw [hrun] at hch
    subst hch
    exact still_refl _

/-- **The sockets send no status.** -/
theorem still_step {step : ChannelStep} (h : ch.step step = some ch') : ch.Still ch' := by
  rw [Channels.step.eq_def] at h
  split at h
  · obtain rfl := Option.some.inj h
    exact still_ensureSession ch _
  · obtain rfl := Option.some.inj h
    exact still_subscribe ch _ _
  · split at h
    · rename_i queue hrx
      obtain rfl := Option.some.inj h
      exact ⟨rfl, rfl, statuses_setReceiver hrx List.suffix_rfl⟩
    · rename_i msg queue hrx
      obtain rfl := Option.some.inj h
      exact ⟨rfl, rfl, statuses_setReceiver hrx (List.suffix_cons _ _)⟩
    · cases h
  · obtain rfl := Option.some.inj h
    refine ⟨rfl, rfl, fun i s => ?_⟩
    rw [statuses, receiver_unsubscribe]
    split_ifs
    · exact List.nil_suffix
    · exact List.suffix_rfl
  · split at h
    · obtain rfl := Option.some.inj h
      exact still_broadcast ch _ rfl
    · obtain rfl := Option.some.inj h
      exact still_broadcast ch _ rfl
    · obtain rfl := Option.some.inj h
      exact still_broadcast ch _ rfl
    · cases h

end Channels

/-! ### Guards and phases -/

/-- The call holds the read guard on `online`. -/
def CallPhase.readsOnline : CallPhase → Bool
  | .reading | .sending _ | .sent _ => true
  | _ => false

/-- The call has updated the set and has not announced it. -/
def CallPhase.unsent : CallPhase → Bool
  | .updated | .reading | .sending _ | .panicked true => true
  | _ => false

theorem CallPhase.announcing_of_unsent : ∀ phase : CallPhase, phase.unsent → phase.announcing
  | .updated, _ | .reading, _ | .sending _, _ | .panicked true, _ => rfl

namespace Calls

/-- Calls hold the guards that their phases say, and what is to be sent is the current set. -/
structure Guarded (c : Calls) : Prop where
  writes : ∀ (i : CallId) (call : Call), c.calls[i]? = some call → call.phase = .writing →
    c.onlineGuards.Writes i
  reads : ∀ (i : CallId) (call : Call), c.calls[i]? = some call → call.phase.readsOnline →
    c.onlineGuards.Reads i
  snapshot : ∀ (i : CallId) (call : Call) online, c.calls[i]? = some call →
    call.phase = .sending online → c.channels.online.val call.sessionId = some online

/-- The last announcement of session `s` is its set, or a call that has updated the set has yet to
announce it. -/
def Current (s : SessionId) (c : Calls) : Prop :=
  (c.announced s).getLast? = c.channels.online.val s ∨
    ∃ (i : CallId) (call : Call), c.calls[i]? = some call ∧ call.sessionId = s ∧ call.phase.unsent

variable {c c' : Calls} {i : CallId} {call : Call} {s : SessionId}

theorem getElem?_setPhase (hcall : c.calls[i]? = some call) (phase : CallPhase) (j : CallId) :
    (c.setPhase i call phase).calls[j]? =
      if j = i then some { call with phase } else c.calls[j]? := by
  obtain ⟨hlt, -⟩ := List.getElem?_eq_some_iff.mp hcall
  rw [setPhase, List.getElem?_set]
  simp only [eq_comm (a := i), hlt, if_true]

/-- What a step of call `i` to a new phase must see to. -/
structure Shifts (c : Calls) (i : CallId) (call : Call) (g : Guards CallId) (phase : CallPhase) :
    Prop where
  keeps_reads : ∀ j, j ≠ i → c.onlineGuards.Reads j → g.Reads j
  keeps_writes : ∀ j, j ≠ i → c.onlineGuards.Writes j → g.Writes j
  writes : phase = .writing → g.Writes i
  reads : phase.readsOnline → g.Reads i

theorem Guarded.setPhase (h : c.Guarded) (hcall : c.calls[i]? = some call)
    {channels : Channels} {g m : Guards CallId} {announced : SessionId → List (Finset NodeId)}
    {phase : CallPhase} (hshift : Shifts c i call g phase)
    (hsnap : ∀ online, phase = .sending online →
      channels.online.val call.sessionId = some online)
    (hkeep : c.onlineGuards.Writes i ∨ channels.online.val = c.channels.online.val) :
    (Calls.setPhase ⟨channels, g, m, c.calls, announced⟩ i call phase).Guarded := by
  have hget := getElem?_setPhase (c := ⟨channels, g, m, c.calls, announced⟩) hcall phase
  refine ⟨fun j call' hj hphase => ?_, fun j call' hj hphase => ?_,
    fun j call' online hj hphase => ?_⟩
  · rw [hget] at hj
    split_ifs at hj with hji
    · subst hji
      obtain rfl := Option.some.inj hj
      exact hshift.writes hphase
    · exact hshift.keeps_writes j hji (h.writes j call' hj hphase)
  · rw [hget] at hj
    split_ifs at hj with hji
    · subst hji
      obtain rfl := Option.some.inj hj
      exact hshift.reads hphase
    · exact hshift.keeps_reads j hji (h.reads j call' hj hphase)
  · rw [hget] at hj
    split_ifs at hj with hji
    · obtain rfl := Option.some.inj hj
      exact hsnap online hphase
    · -- a reader rules out that the set was written
      have hreads := h.reads j call' hj (by rw [hphase]; rfl)
      obtain hw | heq := hkeep
      · exact absurd hw hreads.not_writes
      · show channels.online.val _ = _
        rw [heq]
        exact h.snapshot j call' online hj hphase

/-- A step of call `i` to a new phase that touches guards only. -/
structure Quiet (c : Calls) (i : CallId) (call : Call) (g : Guards CallId) (phase : CallPhase) :
    Prop extends Shifts c i call g phase where
  snapshot : ∀ online, phase = .sending online →
    c.channels.online.val call.sessionId = some online
  unsent : call.phase.unsent → phase.unsent
  announcing : phase.announcing → call.phase.announcing
  panics : phase = .panicked true → c.channels.online.poisoned = true ∨
    c.channels.online.val call.sessionId = none ∨ c.channels.messages.poisoned = true

theorem shifts_release (c : Calls) (i : CallId) (call : Call) {phase : CallPhase}
    (hw : phase ≠ .writing) (hr : phase.readsOnline = false) :
    Shifts c i call (c.onlineGuards.release i) phase where
  keeps_reads _ hj h := h.release hj
  keeps_writes _ hj h := h.release hj
  writes h := absurd h hw
  reads h := absurd h (by simp [hr])

/-- What a call does next: it takes or drops a guard, updates the set or sends it. -/
theorem step_cases (hg : c.Guarded) (hcall : c.calls[i]? = some call)
    (h : c.step i call = some c') :
    (∃ g m phase, Quiet c i call g phase ∧
      c' = Calls.setPhase ⟨c.channels, g, m, c.calls, c.announced⟩ i call phase) ∨
    (call.phase = .writing ∧ c' = c.update i call) ∨
    ∃ online, call.phase = .sending online ∧ c' = c.send i call online := by
  rw [step] at h
  cases hphase : call.phase with
  | called =>
    rw [hphase] at h
    obtain ⟨g, hlock, rfl⟩ := Option.map_eq_some_iff.mp h
    split_ifs with hpoison
    · -- the lock is poisoned, and the call panics
      refine .inl ⟨c.onlineGuards, c.messagesGuards, _, ⟨⟨?_, ?_, ?_, ?_⟩, ?_, ?_, ?_, ?_⟩, rfl⟩
      all_goals simp [hphase, CallPhase.readsOnline, CallPhase.unsent, CallPhase.announcing]
    · refine .inl ⟨g, c.messagesGuards, _, ⟨⟨?_, ?_, ?_, ?_⟩, ?_, ?_, ?_, ?_⟩, rfl⟩
      -- nobody else reads or writes, as the lock was free
      · exact fun j _ hj => absurd hj (Guards.not_reads_of_writeLock hlock)
      · exact fun j _ hj => absurd hj (Guards.not_writes_of_writeLock hlock)
      · exact fun _ => Guards.writes_of_writeLock hlock
      all_goals simp [hphase, CallPhase.readsOnline, CallPhase.unsent, CallPhase.announcing]
  | writing =>
    rw [hphase] at h
    exact .inr (.inl ⟨rfl, (Option.some.inj h).symm⟩)
  | updated =>
    rw [hphase] at h
    obtain ⟨g, hlock, rfl⟩ := Option.map_eq_some_iff.mp h
    split_ifs with hpoison
    · refine .inl ⟨c.onlineGuards, c.messagesGuards, _, ⟨⟨?_, ?_, ?_, ?_⟩, ?_, ?_, ?_, ?_⟩, rfl⟩
      all_goals simp [hphase, CallPhase.readsOnline, CallPhase.unsent, CallPhase.announcing,
        hpoison]
    · refine .inl ⟨g, c.messagesGuards, _, ⟨⟨?_, ?_, ?_, ?_⟩, ?_, ?_, ?_, ?_⟩, rfl⟩
      · exact fun j _ hj => hj.readLock hlock
      · exact fun j _ hj => hj.readLock hlock
      · exact nofun
      · exact fun _ => Guards.reads_of_readLock hlock
      all_goals simp [hphase, CallPhase.unsent, CallPhase.announcing]
  | reading =>
    rw [hphase] at h
    replace h : c.lockMessages i call = some c' := h
    rw [lockMessages] at h
    -- a panic drops the read guard
    rcases honline : c.channels.online.val call.sessionId with _ | online
    · rw [honline] at h
      obtain rfl := Option.some.inj h
      refine .inl ⟨_, c.messagesGuards, .panicked true,
        ⟨shifts_release c i call nofun rfl, ?_, ?_, ?_, ?_⟩, rfl⟩
      all_goals simp [hphase, CallPhase.unsent, CallPhase.announcing, honline]
    · rw [honline] at h
      obtain ⟨m, -, rfl⟩ := Option.map_eq_some_iff.mp h
      split_ifs with hpoison
      · refine .inl ⟨_, c.messagesGuards, .panicked true,
          ⟨shifts_release c i call nofun rfl, ?_, ?_, ?_, ?_⟩, rfl⟩
        all_goals simp [hphase, CallPhase.unsent, CallPhase.announcing, hpoison]
      · -- both guards are held while the set is sent
        have hreads := hg.reads i call hcall (by rw [hphase]; rfl)
        refine .inl ⟨c.onlineGuards, m, _, ⟨⟨?_, ?_, ?_, ?_⟩, ?_, ?_, ?_, ?_⟩, rfl⟩
        all_goals simp [hphase, CallPhase.unsent, CallPhase.announcing, hreads, honline]
  | sending online =>
    rw [hphase] at h
    exact .inr (.inr ⟨online, rfl, (Option.some.inj h).symm⟩)
  | sent ok =>
    rw [hphase] at h
    obtain rfl := Option.some.inj h
    refine .inl ⟨_, c.messagesGuards, .returned ok,
      ⟨shifts_release c i call nofun rfl, ?_, ?_, ?_, ?_⟩, rfl⟩
    all_goals simp [hphase, CallPhase.unsent, CallPhase.announcing]
  | returned ok =>
    rw [hphase] at h
    exact nomatch h
  | panicked updated =>
    rw [hphase] at h
    exact nomatch h

/-! ### What the steps keep -/

/-- All calls are made for session `s`. -/
def Only (s : SessionId) (c : Calls) : Prop :=
  ∀ (i : CallId) (call : Call), c.calls[i]? = some call → call.sessionId = s

/-- What holds of the calls and session `s`. -/
structure Announcing (s : SessionId) (c : Calls) : Prop where
  guarded : c.Guarded
  current : c.Current s
  messages : c.channels.messages.poisoned = false
  /-- A session whose set was updated has one. -/
  known : ∀ (i : CallId) (call : Call), c.calls[i]? = some call → call.phase.announcing →
    (c.channels.online.val call.sessionId).isSome
  poisoned : c.Only s → c.channels.online.poisoned = true → c.channels.online.val s = none
  alone : c.Only s → ∀ (i : CallId) (call : Call), c.calls[i]? = some call →
    call.phase ≠ .panicked true

/-- The last announcement stays what it is in a step that leaves the session, unless its call had
yet to send. -/
theorem Current.setPhase (h : c.Current s) (hcall : c.calls[i]? = some call)
    {channels : Channels} {g m : Guards CallId} {announced : SessionId → List (Finset NodeId)}
    {phase : CallPhase} (honline : channels.online.val s = c.channels.online.val s)
    (hann : announced s = c.announced s)
    (hunsent : call.sessionId = s → call.phase.unsent → phase.unsent) :
    (Calls.setPhase ⟨channels, g, m, c.calls, announced⟩ i call phase).Current s := by
  obtain h | ⟨j, call', hj, hs, hphase⟩ := h
  · refine .inl ?_
    show (announced s).getLast? = channels.online.val s
    rw [hann, honline, h]
  · refine .inr ?_
    have hget := getElem?_setPhase (c := ⟨channels, g, m, c.calls, announced⟩) hcall phase
    by_cases hji : j = i
    · subst hji
      obtain rfl := Option.some.inj (hcall.symm.trans hj)
      exact ⟨j, { call with phase }, by rw [hget, if_pos rfl], hs, hunsent hs hphase⟩
    · exact ⟨j, call', by rw [hget, if_neg hji, hj], hs, hphase⟩

/-- A step of call `i`, with what it must see to. -/
theorem Announcing.setPhase (h : c.Announcing s) (hcall : c.calls[i]? = some call)
    {channels : Channels} {g m : Guards CallId} {announced : SessionId → List (Finset NodeId)}
    {phase : CallPhase}
    (hguarded : (Calls.setPhase ⟨channels, g, m, c.calls, announced⟩ i call phase).Guarded)
    (hcurrent : (Calls.setPhase ⟨channels, g, m, c.calls, announced⟩ i call phase).Current s)
    (hmessages : channels.messages.poisoned = false)
    (hmono : ∀ t, (c.channels.online.val t).isSome → (channels.online.val t).isSome)
    (hknown : phase.announcing → (channels.online.val call.sessionId).isSome)
    (hpoisoned : c.Only s → channels.online.poisoned = true → channels.online.val s = none)
    (halone : c.Only s → phase ≠ .panicked true) :
    (Calls.setPhase ⟨channels, g, m, c.calls, announced⟩ i call phase).Announcing s := by
  have hget := getElem?_setPhase (c := ⟨channels, g, m, c.calls, announced⟩) hcall phase
  have honly : (Calls.setPhase ⟨channels, g, m, c.calls, announced⟩ i call phase).Only s →
      c.Only s := by
    intro ho j call' hj
    by_cases hji : j = i
    · subst hji
      obtain rfl := Option.some.inj (hcall.symm.trans hj)
      exact ho j { call with phase } (by rw [hget, if_pos rfl])
    · exact ho j call' (by rw [hget, if_neg hji, hj])
  refine ⟨hguarded, hcurrent, hmessages,
    fun j call' hj hphase => ?_, fun ho => hpoisoned (honly ho),
    fun ho j call' hj => ?_⟩
  · rw [hget] at hj
    split_ifs at hj with hji
    · obtain rfl := Option.some.inj hj
      exact hknown hphase
    · exact hmono _ (h.known j call' hj hphase)
  · rw [hget] at hj
    split_ifs at hj with hji
    · obtain rfl := Option.some.inj hj
      exact halone (honly ho)
    · exact h.alone (honly ho) j call' hj

theorem Announcing.quiet (h : c.Announcing s) (hcall : c.calls[i]? = some call)
    {g m : Guards CallId} {phase : CallPhase} (hq : Quiet c i call g phase) :
    (Calls.setPhase ⟨c.channels, g, m, c.calls, c.announced⟩ i call phase).Announcing s := by
  have hknown := fun hphase => h.known i call hcall (hq.announcing hphase)
  refine h.setPhase hcall (h.guarded.setPhase hcall hq.toShifts hq.snapshot (.inr rfl))
    (h.current.setPhase hcall rfl rfl fun _ => hq.unsent)
    h.messages (fun _ => id) hknown h.poisoned ?_
  rintro ho rfl
  have hsome := hknown rfl
  obtain hp | hp | hp := hq.panics rfl
  · rw [ho i call hcall, h.poisoned ho hp] at hsome
    exact nomatch hsome
  · rw [hp] at hsome
    exact nomatch hsome
  · exact nomatch h.messages.symm.trans hp

theorem Announcing.update (h : c.Announcing s) (hcall : c.calls[i]? = some call)
    (hphase : call.phase = .writing) : (c.update i call).Announcing s := by
  have hwrites := h.guarded.writes i call hcall hphase
  have hrun := call.of_update c.channels
  rw [Calls.update]
  split
  · rename_i channels heq
    rw [heq] at hrun
    obtain ⟨-, hpoison, hmsg, hsome, hother⟩ := hrun
    refine h.setPhase hcall (h.guarded.setPhase hcall (shifts_release c i call nofun rfl) nofun
      (.inl hwrites)) ?_ (by rw [hmsg, h.messages]) (fun t ht => ?_) (fun _ => hsome)
      (fun _ hp => nomatch hpoison.symm.trans hp) nofun
    · by_cases hs : call.sessionId = s
      · refine .inr ⟨i, { call with phase := .updated }, ?_, hs, rfl⟩
        rw [getElem?_setPhase (c := ⟨channels, _, _, c.calls, _⟩) hcall, if_pos rfl]
      · exact h.current.setPhase hcall (hother s (Ne.symm hs)) rfl fun heq => absurd heq hs
    · by_cases ht' : t = call.sessionId
      · rwa [ht']
      · rwa [hother t ht']
  · rename_i channels heq
    rw [heq] at hrun
    obtain ⟨hmsg, hval, hpoison⟩ := hrun
    refine h.setPhase hcall (h.guarded.setPhase hcall (shifts_release c i call nofun rfl) nofun
      (.inl hwrites)) (h.current.setPhase hcall (by rw [hval]) rfl fun _ hu => ?_)
      (by rw [hmsg, h.messages]) (fun t ht => by rwa [hval]) nofun (fun ho hp => ?_) nofun
    · rw [hphase] at hu
      exact nomatch hu
    · rw [hval]
      obtain hp | hp := hpoison hp
      · exact h.poisoned ho hp
      · rw [← ho i call hcall, hp]

theorem Announcing.send (h : c.Announcing s) (hl : c.Listened s) (hcall : c.calls[i]? = some call)
    {online : Finset NodeId} (hphase : call.phase = .sending online) :
    (c.send i call online).Announcing s := by
  have hreads := h.guarded.reads i call hcall (by rw [hphase]; rfl)
  have hsome := h.known i call hcall (by rw [hphase]; rfl)
  have hrun := Channels.of_broadcast c.channels call.sessionId
    (.sessionStatus { sessionId := call.sessionId, online })
  have hshift : ∀ ok, Shifts c i call c.onlineGuards (.sent ok) := fun ok =>
    ⟨fun _ _ => id, fun _ _ => id, nofun, fun _ => hreads⟩
  rw [Calls.send]
  split
  · rename_i channels heq
    rw [heq] at hrun
    obtain ⟨honline, hmsg, -⟩ := hrun
    refine h.setPhase hcall (h.guarded.setPhase hcall (hshift true) nofun (.inr (by rw [honline])))
      ?_ (by rw [hmsg, h.messages]) (fun t ht => by rwa [honline]) (fun _ => by rwa [honline])
      (by rw [honline]; exact h.poisoned) nofun
    by_cases hs : call.sessionId = s
    · -- what is sent is the set
      refine .inl ?_
      show (Function.update c.announced call.sessionId _ s).getLast? = channels.online.val s
      rw [honline, ← hs, Function.update_self, List.getLast?_concat,
        h.guarded.snapshot i call online hcall hphase]
    · exact h.current.setPhase hcall (by rw [honline]) (Function.update_of_ne (Ne.symm hs) _ _)
        fun heq => absurd heq hs
  · rename_i e channels heq
    rw [heq] at hrun
    obtain ⟨honline, hmsg, hok⟩ := hrun
    refine h.setPhase hcall (h.guarded.setPhase hcall (hshift false) nofun (.inr (by rw [honline])))
      (h.current.setPhase hcall (by rw [honline]) rfl fun hs => ?_) (by rw [hmsg, h.messages])
      (fun t ht => by rwa [honline]) (fun _ => by rwa [honline])
      (by rw [honline]; exact h.poisoned) nofun
    exact nomatch hok (hs ▸ hl)
  · rename_i heq
    rw [heq] at hrun
    exact nomatch h.messages.symm.trans hrun.2.1

/-- A new call has done nothing yet. -/
theorem Announcing.append (h : c.Announcing s) {new : Call} (hnew : new.phase = .called) :
    { c with calls := c.calls ++ [new] }.Announcing s := by
  have hold : ∀ {j : CallId} {call : Call}, (c.calls ++ [new])[j]? = some call →
      call.phase ≠ .called → c.calls[j]? = some call := by
    intro j call hj hne
    obtain hlt | hge := Nat.lt_or_ge j c.calls.length
    · rwa [List.getElem?_append_left hlt] at hj
    · rw [List.getElem?_append_right hge, List.getElem?_singleton] at hj
      split_ifs at hj
      exact absurd (Option.some.inj hj ▸ hnew) hne
  have hstays : ∀ {j : CallId} {call : Call}, c.calls[j]? = some call →
      (c.calls ++ [new])[j]? = some call := fun hj => by
    rw [List.getElem?_append_left (List.getElem?_eq_some_iff.mp hj).1, hj]
  have honly : { c with calls := c.calls ++ [new] }.Only s → c.Only s := fun ho j call hj =>
    ho j call (hstays hj)
  refine ⟨⟨fun j call hj hp => ?_, fun j call hj hp => ?_, fun j call online hj hp => ?_⟩, ?_,
    h.messages, fun j call hj hp => ?_, fun ho => h.poisoned (honly ho), fun ho j call hj hp => ?_⟩
  · exact h.guarded.writes j call (hold hj (by simp [hp])) hp
  · exact h.guarded.reads j call (hold hj fun heq => by simp [heq, CallPhase.readsOnline] at hp) hp
  · exact h.guarded.snapshot j call online (hold hj (by simp [hp])) hp
  · exact h.current.imp_right fun ⟨j, call, hj, hcall⟩ => ⟨j, call, hstays hj, hcall⟩
  · exact h.known j call (hold hj fun heq => by simp [heq, CallPhase.announcing] at hp) hp
  · exact h.alone (honly ho) j call (hold hj (by simp [hp])) hp

theorem Announcing.exec {a : CallAction} (h : c.Announcing s) (hl : c.Listened s)
    (hexec : c.exec a = some c') : c'.Announcing s := by
  cases a with
  | call membership nodeId sessionId =>
    obtain rfl := Option.some.inj hexec
    exact h.append rfl
  | step i =>
    obtain ⟨call, hcall, hstep⟩ := Option.bind_eq_some_iff.mp hexec
    obtain ⟨g, m, phase, hq, rfl⟩ | ⟨hphase, rfl⟩ | ⟨online, hphase, rfl⟩ :=
      step_cases h.guarded hcall hstep
    · exact h.quiet hcall hq
    · exact h.update hcall hphase
    · exact h.send hl hcall hphase
  | sockets step =>
    obtain ⟨channels, hstep, rfl⟩ := Option.map_eq_some_iff.mp hexec
    obtain ⟨honline, hpoisoned, -⟩ := Channels.still_step hstep
    exact
      { guarded := ⟨h.guarded.writes, h.guarded.reads, honline ▸ h.guarded.snapshot⟩
        current := by
          rw [Current, honline]
          exact h.current
        messages := hpoisoned.trans h.messages
        known := honline ▸ h.known
        poisoned := honline ▸ h.poisoned
        alone := h.alone }

theorem Starts.announcing (h : c.Starts) : c.Announcing s := by
  obtain ⟨-, honline, hmessages, -, -, -, hcalls, hann⟩ := h
  have hno : ∀ {i : CallId} {call : Call}, c.calls[i]? ≠ some call := by simp [hcalls]
  refine ⟨⟨?_, ?_, ?_⟩, .inl ?_, hmessages, ?_, fun _ hp => ?_, ?_⟩
  · exact fun _ _ hj => absurd hj hno
  · exact fun _ _ hj => absurd hj hno
  · exact fun _ _ _ hj => absurd hj hno
  · rw [honline, hann]
    rfl
  · exact fun _ _ hj => absurd hj hno
  · rw [honline] at hp
    exact nomatch hp
  · exact fun _ _ _ hj => absurd hj hno

/-- In the step from `c` to `c'` the set of session `s`, as it is, is announced: its status comes to
the queue of every receiver of the session, and there is one. -/
structure Announces (s : SessionId) (online : Finset NodeId) (c c' : Calls) : Prop where
  announced : c'.announced s = c.announced s ++ [online]
  current : c'.channels.online.val s = some online
  listened : ∃ i, (c.channels.receiver i s).isSome
  receiver : ∀ i, c'.channels.receiver i s = (c.channels.receiver i s).map
    (·.push c.channels.capacity (.sessionStatus { sessionId := s, online }))

/-- In the step nothing is announced in session `s`, and no status comes to a queue. -/
structure Quiets (s : SessionId) (c c' : Calls) : Prop where
  announced : c'.announced s = c.announced s
  statuses : ∀ i, c'.channels.statuses i s <:+ c.channels.statuses i s

/-- A session with a subscriber has a receiver. -/
theorem Listened.exists_receiver (h : c.Listened s) : ∃ i, (c.channels.receiver i s).isSome := by
  obtain ⟨tx, htx, hne⟩ := h
  obtain ⟨⟨i, rx⟩, tx', rfl⟩ := List.exists_cons_of_ne_nil hne
  exact ⟨i, by simp [Channels.receiver, htx]⟩

/-- A set that is sent comes to the queues of its session. -/
theorem announces_send (h : c.Announcing s) (hl : c.Listened s) (hcall : c.calls[i]? = some call)
    {online : Finset NodeId} (hphase : call.phase = .sending online) :
    Announces s online c (c.send i call online) ∨ Quiets s c (c.send i call online) := by
  have hrun := Channels.of_broadcast c.channels call.sessionId
    (.sessionStatus { sessionId := call.sessionId, online })
  have hrx := Channels.receiver_broadcast c.channels call.sessionId
    (.sessionStatus { sessionId := call.sessionId, online })
  rw [Calls.send]
  split
  · rename_i channels heq
    rw [heq] at hrun hrx
    by_cases hs : call.sessionId = s
    · subst hs
      refine .inl ⟨Function.update_self _ _ _, ?_, hl.exists_receiver, fun j => ?_⟩
      · show channels.online.val _ = _
        rw [hrun.1]
        exact h.guarded.snapshot i call online hcall hphase
      · show channels.receiver j _ = _
        rw [hrx j, Channels.heard, if_pos rfl]
    · refine .inr ⟨Function.update_of_ne (Ne.symm hs) _ _, fun j => ?_⟩
      refine Channels.statuses_of_receiver_eq ?_
      show channels.receiver j s = _
      rw [hrx j, Channels.heard, if_neg (Ne.symm hs)]
  · rename_i channels heq
    rw [heq] at hrx
    subst hrx
    exact .inr ⟨rfl, fun _ => List.suffix_rfl⟩
  · rename_i channels heq
    rw [heq] at hrx
    subst hrx
    exact .inr ⟨rfl, fun _ => List.suffix_rfl⟩

/-- **A step announces** the set as it is to all receivers, or it sends no status. -/
theorem announces_exec {a : CallAction} (h : c.Announcing s) (hl : c.Listened s)
    (hexec : c.exec a = some c') : (∃ online, Announces s online c c') ∨ Quiets s c c' := by
  cases a with
  | call membership nodeId sessionId =>
    obtain rfl := Option.some.inj hexec
    exact .inr ⟨rfl, fun _ => List.suffix_rfl⟩
  | sockets step =>
    obtain ⟨channels, hstep, rfl⟩ := Option.map_eq_some_iff.mp hexec
    exact .inr ⟨rfl, fun i => (Channels.still_step hstep).statuses i s⟩
  | step i =>
    obtain ⟨call, hcall, hstep⟩ := Option.bind_eq_some_iff.mp hexec
    obtain ⟨g, m, phase, -, rfl⟩ | ⟨-, rfl⟩ | ⟨online, hphase, rfl⟩ :=
      step_cases h.guarded hcall hstep
    · exact .inr ⟨rfl, fun _ => List.suffix_rfl⟩
    · have hrun := call.of_update c.channels
      rw [Calls.update]
      -- an update leaves the channels of the sessions
      split
      · rename_i channels heq
        rw [heq] at hrun
        exact .inr ⟨rfl, fun j => Channels.statuses_of_receiver_eq
          (congrFun₂ (Channels.receiver_congr hrun.2.2.1) j s)⟩
      · rename_i channels heq
        rw [heq] at hrun
        exact .inr ⟨rfl, fun j => Channels.statuses_of_receiver_eq
          (congrFun₂ (Channels.receiver_congr hrun.1) j s)⟩
    · exact (announces_send h hl hcall hphase).imp_left fun ha => ⟨online, ha⟩

theorem IsRun.announcing {r : List Calls} (hr : IsRun s r) : ∀ c ∈ r, c.Announcing s :=
  TransitionSystem.IsRun.invariant (fun _ => Starts.announcing)
    (fun _ _ h ⟨_, hl, hexec⟩ => h.exec hl hexec) hr

/-- What a run announces. -/
theorem IsRun.announces {r : List Calls} (hr : IsRun s r) (hm : Moves r c c') :
    (∃ online, Announces s online c c') ∨ Quiets s c c' := by
  obtain ⟨⟨a, hl, hexec⟩, -⟩ := TransitionSystem.IsRun.of_moves hr hm
  exact announces_exec (hr.announcing c hm.mem_left) hl hexec

/-- The announcements of a session are among the values its set had, in their order, and what waits
in a queue are the last of them. -/
theorem IsRun.announced_sublist {r : List Calls} (hr : IsRun s (c :: r)) :
    ((c.announced s).map some).Sublist
      ((c :: r).map fun c => c.channels.online.val s).reverse ∧
    ∀ i, c.channels.statuses i s <:+ (c.announced s).map (Session.mk s) := by
  generalize hq : c :: r = q at hr
  induction hr generalizing c r with
  | start h =>
    obtain ⟨rfl, rfl⟩ := List.cons.inj hq
    rw [h.announced]
    refine ⟨List.nil_sublist _, fun i => ?_⟩
    rw [Channels.statuses]
    cases hrx : c.channels.receiver i s with
    | none => exact List.suffix_rfl
    | some rx =>
      rw [Option.elim_some, Receiver.statuses, h.queues i s rx hrx]
      exact List.suffix_rfl
  | @next c₀ c₁ r₀ hr hstep ih =>
    obtain ⟨rfl, rfl⟩ := List.cons.inj hq
    obtain ⟨a, hl, hexec⟩ := hstep
    obtain ⟨hlast, hqueues⟩ := ih rfl
    rw [List.map_cons, List.reverse_cons]
    obtain ⟨online, ha⟩ | hquiet :=
      announces_exec (IsRun.announcing hr c₀ (List.mem_cons_self)) hl hexec
    · rw [ha.announced, List.map_append, List.map_append, ha.current]
      refine ⟨hlast.append (List.Sublist.refl _), fun i => ?_⟩
      -- the new status is the last one of every queue
      have hold := hqueues i
      rw [Channels.statuses, ha.receiver i]
      rw [Channels.statuses] at hold
      cases hrx : c₀.channels.receiver i s with
      | none => exact List.nil_suffix
      | some rx =>
        rw [hrx] at hold
        exact (rx.statuses_push _ _).trans (List.suffix_append_self_iff.mpr hold)
    · rw [hquiet.announced]
      exact ⟨hlast.trans (List.sublist_append_left _ _),
        fun i => (hquiet.statuses i).trans (hqueues i)⟩

end Calls

/-- **The last announced session status is current.** In a session that always has a subscriber, a
step of the calls and the sockets announces the set of the session as it is then, by putting its
status into the queue of every receiver, or it puts no status into any queue. What was announced are
values that the set had, in their order. When no call of the session is on its way from its update
to the end of its broadcast, the last set that was announced is the current one, and so is the last
status that waits in any queue. If all calls are made for this session, none panics on that way. -/
theorem last_announcement_current {s : SessionId} {c : Calls} {r : List Calls}
    (hr : Calls.IsRun s (c :: r)) :
    (∀ d d', Moves (c :: r) d d' → (∃ online, Calls.Announces s online d d') ∨
      Calls.Quiets s d d') ∧
    ((c.announced s).map some).Sublist
      ((c :: r).map fun c => c.channels.online.val s).reverse ∧
    ((∀ call ∈ c.calls, call.sessionId = s → ¬call.phase.announcing) →
      (c.announced s).getLast? = c.channels.online.val s ∧
      ∀ i status, (c.channels.statuses i s).getLast? = some status →
        c.channels.online.val s = some status.online) ∧
    ((∀ call ∈ c.calls, call.sessionId = s) → ∀ call ∈ c.calls, call.phase ≠ .panicked true) := by
  have h := hr.announcing c List.mem_cons_self
  obtain ⟨hsublist, hqueues⟩ := hr.announced_sublist
  refine ⟨fun d d' hm => hr.announces hm, hsublist, fun hquiet => ?_, fun honly call hcall => ?_⟩
  · have hlast : (c.announced s).getLast? = c.channels.online.val s := by
      obtain hcurrent | ⟨i, call, hi, hs, hphase⟩ := h.current
      · exact hcurrent
      · exact absurd (call.phase.announcing_of_unsent hphase)
          (hquiet call (List.mem_of_getElem? hi) hs)
    refine ⟨hlast, fun i status hstatus => ?_⟩
    -- the last status of the queue is the last announcement
    obtain ⟨l, hl⟩ := hqueues i
    have hmap : ((c.announced s).map (Session.mk s)).getLast? = some status := by
      rw [← hl, List.getLast?_append, hstatus]
      rfl
    rw [List.getLast?_map, hlast] at hmap
    obtain ⟨online, honline, rfl⟩ := Option.map_eq_some_iff.mp hmap
    exact honline
  · obtain ⟨i, hi⟩ := List.mem_iff_getElem?.mp hcall
    exact h.alone (fun j call' hj => honly call' (List.mem_of_getElem? hj)) i call hi

/-- Session `7` has a subscriber, and nobody has joined it. -/
def Calls.listening : Calls where
  channels := (Channels.default 16).setMessages
    (Function.update (fun _ => none) 7 (some [(0, { queue := [], lagged := false })]))
  onlineGuards := .free
  messagesGuards := .free
  calls := []
  announced _ := []

theorem Calls.starts_listening : Calls.listening.Starts where
  capacity := by decide
  online := rfl
  messages := rfl
  queues i s rx hrx := by
    have hfirst : listening.channels.receiver i s =
        if s = 7 then [(0, { queue := [], lagged := false })].lookup i else none :=
      (Channels.default 16).receiver_setMessages _
    rw [hfirst] at hrx
    split_ifs at hrx
    obtain ⟨l, l', heq, -⟩ := List.lookup_eq_some_iff.mp hrx
    cases l <;> simp at heq
    exact heq.1.2 ▸ rfl
  onlineGuards := rfl
  messagesGuards := rfl
  calls := rfl
  announced := rfl

/-- Nodes `1` and `2` join at the same time, and both announce the set with both of them to socket
`0`. -/
theorem last_announcement_current_pair : ∃ (c : Calls) (r : List Calls),
    Calls.IsRun 7 (c :: r) ∧ c.announced 7 = [{1, 2}, {1, 2}] ∧
    (c.channels.statuses 0 7).map Session.online = [{1, 2}, {1, 2}] ∧
    (∀ call ∈ c.calls, call.sessionId = 7 → ¬call.phase.announcing) ∧
    (∀ d d', Moves (c :: r) d d' → (∃ online, Calls.Announces 7 online d d') ∨
      Calls.Quiets 7 d d') ∧
    (c.announced 7).getLast? = c.channels.online.val 7 ∧
    ∀ i status, (c.channels.statuses i 7).getLast? = some status →
      c.channels.online.val 7 = some status.online := by
  obtain ⟨r, -, hr, hf⟩ := exists_run_of_play Calls.Starts Calls.exec
    (fun c _ => !(c.channels.messages.val 7).any (· ≠ [])) Calls.starts_listening
    [.call .joined 1 7, .call .joined 2 7, .step 0, .step 0, .step 1, .step 1, .step 0, .step 1,
      .step 1, .step 0, .step 0, .step 1, .step 1, .step 0]
    (fun r => r.head?.any fun c : Calls => c.announced 7 = [{1, 2}, {1, 2}] ∧
      (c.channels.statuses 0 7).map Session.online = [{1, 2}, {1, 2}] ∧
      ∀ call ∈ c.calls, call.sessionId = 7 → ¬call.phase.announcing)
    (by decide +kernel)
  simp only [Option.any_eq_true, decide_eq_true_eq] at hf
  obtain ⟨c, hc, hann, hqueue, hquiet⟩ := hf
  obtain ⟨r, rfl⟩ := List.head?_eq_some_iff.mp hc
  have hrun : Calls.IsRun 7 (c :: r) := hr.mono fun _ _ => Acts.mono fun c _ hl => by
    obtain ⟨tx, htx, hne⟩ := (Option.any_eq_true _ _).mp (by simpa using hl)
    exact ⟨tx, htx, by simpa using hne⟩
  obtain ⟨hannounces, -, hcurrent, -⟩ := last_announcement_current hrun
  exact ⟨c, r, hrun, hann, hqueue, hquiet, hannounces, hcurrent hquiet⟩

end Wraft.Introducer
