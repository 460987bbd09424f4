import Wraft.Introducer.Channels

/-!
# What the operations on `Channels` do

One equation for each operation, on channels whose locks are not poisoned (`Channels.Sound`), and
what it changes: nobody loses a subscription but by dropping it, and a session that is online
stays so, if only with an empty set of nodes.
-/

namespace Wraft.Introducer.Channels

/-- No lock is poisoned, and nothing that is broadcast is a `Join`. -/
structure Sound (ch : Channels) : Prop where
  messages : ch.messages.poisoned = false
  online : ch.online.poisoned = false
  queued : ∀ s tx, ch.messages.val s = some tx → ∀ p ∈ tx, ∀ join, Command.join join ∉ p.2.queue

/-- Socket `i` has subscribed to a session. -/
def Subscribed (ch : Channels) (i : SocketId) (s : SessionId) : Prop :=
  ∃ tx, ch.messages.val s = some tx ∧ i ∈ tx.map Prod.fst

/-- The nodes that are online in a session. -/
def onlineIn (ch : Channels) (s : SessionId) : Finset NodeId := (ch.online.val s).getD ∅

theorem Subscribed.isSome {ch : Channels} {i : SocketId} {s : SessionId} (h : ch.Subscribed i s) :
    (ch.messages.val s).isSome := by
  obtain ⟨tx, htx, -⟩ := h
  rw [htx]
  rfl

/-- The channels after a broadcast to the receivers `tx`. -/
def sent (ch : Channels) (s : SessionId) (tx : Sender) (cmd : Command) : Channels :=
  ch.setMessages (Function.update ch.messages.val s
    (some (tx.map fun p => (p.1, p.2.push ch.capacity cmd))))

variable {ch : Channels} (h : ch.Sound)

/-! ### Equations -/

include h

theorem lockMessages_run : lockMessages.run ch = .ok ch.messages.val ch := by
  simp [lockMessages, h.messages]

theorem lockOnline_run : lockOnline.run ch = .ok ch.online.val ch := by
  simp [lockOnline, h.online]

theorem joinedOnline_run (n : NodeId) (s : SessionId) : (joinedOnline n s).run ch =
    .ok () (ch.setOnline (Function.update ch.online.val s (some (insert n (ch.onlineIn s))))) := by
  simp [joinedOnline, lockOnline_run h, onlineIn]

theorem leftOnline_run_of_none {n : NodeId} {s : SessionId} (hs : ch.online.val s = none) :
    (leftOnline n s).run ch =
      .error .notOnline { ch with online := { ch.online with poisoned := true } } := by
  simp [leftOnline, lockOnline_run h, hs]

theorem leftOnline_run_of_some {n : NodeId} {s : SessionId} {online : Finset NodeId}
    (hs : ch.online.val s = some online) : (leftOnline n s).run ch =
      .ok () (ch.setOnline (Function.update ch.online.val s (some (online.erase n)))) := by
  simp [leftOnline, lockOnline_run h, hs]

theorem broadcast_run_of_none {s : SessionId} (hs : ch.messages.val s = none) (cmd : Command) :
    (broadcast s cmd).run ch = .ok (.error (.sessionNotFound s)) ch := by
  simp [broadcast, lockMessages_run h, hs]

theorem broadcast_run_of_nil {s : SessionId} (hs : ch.messages.val s = some []) (cmd : Command) :
    (broadcast s cmd).run ch = .ok (.error .send) ch := by
  simp [broadcast, lockMessages_run h, hs]

theorem broadcast_run_of_ne_nil {s : SessionId} {tx : Sender} (hs : ch.messages.val s = some tx)
    (htx : tx ≠ []) (cmd : Command) :
    (broadcast s cmd).run ch = .ok (.ok ()) (ch.sent s tx cmd) := by
  simp only [broadcast, EStateM.run_bind, lockMessages_run h, hs, if_neg htx, sent]
  rfl

theorem broadcastSessionInfo_run {s : SessionId} {online : Finset NodeId}
    (hs : ch.online.val s = some online) : (broadcastSessionInfo s).run ch =
      (broadcast s (.sessionStatus { sessionId := s, online })).run ch := by
  simp [broadcastSessionInfo, lockOnline_run h, hs]

theorem ensureSession_run_of_some {s : SessionId} (hs : (ch.messages.val s).isSome) :
    (ensureSession s).run ch = .ok () ch := by
  simp [ensureSession, lockMessages_run h, hs]

theorem ensureSession_run_of_none {s : SessionId} (hs : ch.messages.val s = none) :
    (ensureSession s).run ch =
      .ok () (ch.setMessages (Function.update ch.messages.val s (some []))) := by
  simp [ensureSession, lockMessages_run h, hs]

theorem subscribe_run {i : SocketId} {s : SessionId} {tx : Sender}
    (hs : ch.messages.val s = some tx) : (subscribe i s).run ch = .ok ()
      (ch.setMessages (Function.update ch.messages.val s
        (some (tx ++ [(i, { queue := [], lagged := false })])))) := by
  simp [subscribe, lockMessages_run h, hs]

omit h

/-! ### What is kept -/

/-- Going from `ch` to `ch'` no session loses its channel, nobody but socket `i` its subscription,
and a session that is online stays so. -/
structure Kept (i : SocketId) (ch ch' : Channels) : Prop where
  messages : ∀ s, (ch.messages.val s).isSome → (ch'.messages.val s).isSome
  subscribed : ∀ j s, j ≠ i → ch.Subscribed j s → ch'.Subscribed j s
  online : ∀ s, (ch.online.val s).isSome → (ch'.online.val s).isSome

theorem Kept.refl (i : SocketId) (ch : Channels) : Kept i ch ch :=
  ⟨fun _ => id, fun _ _ _ => id, fun _ => id⟩

theorem Kept.trans {i : SocketId} {ch ch' ch'' : Channels} (h : Kept i ch ch')
    (h' : Kept i ch' ch'') : Kept i ch ch'' where
  messages s hs := h'.messages s (h.messages s hs)
  subscribed j s hj hs := h'.subscribed j s hj (h.subscribed j s hj hs)
  online s hs := h'.online s (h.online s hs)

/-- The channel of one session is replaced. -/
theorem kept_setMessages {i : SocketId} {s : SessionId} {tx' : Sender}
    (h : ∀ tx, ch.messages.val s = some tx → ∀ j ∈ tx.map Prod.fst, j ≠ i → j ∈ tx'.map Prod.fst) :
    Kept i ch (ch.setMessages (Function.update ch.messages.val s (some tx'))) where
  messages u hu := by
    by_cases hus : u = s
    · simp [setMessages, hus]
    · simpa [setMessages, Function.update_of_ne hus] using hu
  subscribed j u hj hu := by
    obtain ⟨tx, htx, hmem⟩ := hu
    by_cases hus : u = s
    · subst hus
      exact ⟨tx', by simp [setMessages], h tx htx j hmem hj⟩
    · exact ⟨tx, by simp [setMessages, Function.update_of_ne hus, htx], hmem⟩
  online u hu := hu

theorem sound_setMessages (h : ch.Sound) {s : SessionId} {tx' : Sender}
    (hq : ∀ p ∈ tx', ∀ join, Command.join join ∉ p.2.queue) :
    (ch.setMessages (Function.update ch.messages.val s (some tx'))).Sound where
  messages := h.messages
  online := h.online
  queued u tx htx := by
    by_cases hus : u = s
    · subst hus
      obtain rfl : tx' = tx := by simpa [setMessages] using htx
      exact hq
    · exact h.queued u tx (by simpa [setMessages, Function.update_of_ne hus] using htx)

theorem kept_sent (i : SocketId) {s : SessionId} {tx : Sender} (hs : ch.messages.val s = some tx)
    (cmd : Command) : Kept i ch (ch.sent s tx cmd) := by
  refine kept_setMessages fun tx' htx' j hj _ => ?_
  obtain rfl := Option.some.inj (hs.symm.trans htx')
  simpa using hj

theorem mem_queue_push {rx : Receiver} {capacity : ℕ} {cmd msg : Command}
    (h : msg ∈ (rx.push capacity cmd).queue) : msg ∈ rx.queue ∨ msg = cmd := by
  unfold Receiver.push at h
  split_ifs at h
  · simpa using h
  · rcases List.mem_append.mp h with h | h
    · exact .inl (List.mem_of_mem_tail h)
    · exact .inr (by simpa using h)

theorem sound_sent (h : ch.Sound) {s : SessionId} {tx : Sender} (hs : ch.messages.val s = some tx)
    {cmd : Command} (hcmd : ∀ join, cmd ≠ .join join) : (ch.sent s tx cmd).Sound := by
  refine sound_setMessages h fun p hp join hjoin => ?_
  obtain ⟨q, hq, rfl⟩ := List.mem_map.mp hp
  rcases mem_queue_push hjoin with hjoin | hjoin
  · exact h.queued s tx hs q hq join hjoin
  · exact hcmd join hjoin.symm

/-- The set of a session is replaced. -/
theorem kept_setOnline (i : SocketId) (s : SessionId) (online : Finset NodeId) :
    Kept i ch (ch.setOnline (Function.update ch.online.val s (some online))) where
  messages _ hu := hu
  subscribed _ _ _ hu := hu
  online u hu := by
    by_cases hus : u = s
    · simp [setOnline, hus]
    · simpa [setOnline, Function.update_of_ne hus] using hu

theorem sound_setOnline (h : ch.Sound) (o : SessionId → Option (Finset NodeId)) :
    (ch.setOnline o).Sound :=
  ⟨h.messages, h.online, h.queued⟩

theorem onlineIn_setOnline (s u : SessionId) (online : Finset NodeId) :
    (ch.setOnline (Function.update ch.online.val s (some online))).onlineIn u =
      if u = s then online else ch.onlineIn u := by
  by_cases hus : u = s
  · simp [onlineIn, setOnline, hus]
  · simp [onlineIn, setOnline, hus]

/-! ### Receivers -/

theorem kept_unsubscribe (i : SocketId) (s : SessionId) : Kept i ch (ch.unsubscribe i s) := by
  unfold unsubscribe
  rcases htx : ch.messages.val s with _ | tx
  · rw [Option.map_none, ← htx, Function.update_eq_self]
    exact .refl i ch
  · rw [Option.map_some]
    refine kept_setMessages fun tx' htx' j hj hne => ?_
    obtain rfl := Option.some.inj (htx.symm.trans htx')
    obtain ⟨p, hp, rfl⟩ := List.mem_map.mp hj
    exact List.mem_map.mpr ⟨p, List.mem_filter.mpr ⟨hp, by simpa using hne⟩, rfl⟩

theorem sound_unsubscribe (h : ch.Sound) (i : SocketId) (s : SessionId) :
    (ch.unsubscribe i s).Sound := by
  unfold unsubscribe
  rcases htx : ch.messages.val s with _ | tx
  · rw [Option.map_none, ← htx, Function.update_eq_self]
    exact h
  · exact sound_setMessages h fun p hp => h.queued s tx htx p (List.mem_of_mem_filter hp)

theorem map_fst_setReceiver (i : SocketId) (rx : Receiver) (tx : Sender) :
    (tx.map fun p => if p.1 = i then (i, rx) else p).map Prod.fst = tx.map Prod.fst := by
  rw [List.map_map]
  refine List.map_congr_left fun p _ => ?_
  by_cases hp : p.1 = i <;> simp [hp]

theorem kept_setReceiver (i j : SocketId) (s : SessionId) (rx : Receiver) :
    Kept j ch (ch.setReceiver i s rx) := by
  unfold setReceiver
  rcases htx : ch.messages.val s with _ | tx
  · rw [Option.map_none, ← htx, Function.update_eq_self]
    exact .refl j ch
  · rw [Option.map_some]
    refine kept_setMessages fun tx' htx' k hk _ => ?_
    obtain rfl := Option.some.inj (htx.symm.trans htx')
    rwa [map_fst_setReceiver]

theorem sound_setReceiver (h : ch.Sound) (i : SocketId) (s : SessionId) {rx : Receiver}
    (hrx : ∀ join, Command.join join ∉ rx.queue) : (ch.setReceiver i s rx).Sound := by
  unfold setReceiver
  rcases htx : ch.messages.val s with _ | tx
  · rw [Option.map_none, ← htx, Function.update_eq_self]
    exact h
  · refine sound_setMessages h fun p hp => ?_
    obtain ⟨q, hq, rfl⟩ := List.mem_map.mp hp
    split_ifs
    · exact hrx
    · exact h.queued s tx htx q hq

theorem Sound.queue_receiver (h : ch.Sound) {i : SocketId} {s : SessionId} {rx : Receiver}
    (hrx : ch.receiver i s = some rx) : ∀ join, Command.join join ∉ rx.queue := by
  obtain ⟨tx, htx, hlookup⟩ := Option.bind_eq_some_iff.mp hrx
  obtain ⟨l, l', rfl, -⟩ := List.lookup_eq_some_iff.mp hlookup
  exact h.queued s _ htx (i, rx) (by simp)

/-! ### What a receiver holds -/

/-- What the receivers of a socket hold after a broadcast, if there was one. -/
def heard (capacity : ℕ) (sent : Option (SessionId × Command))
    (receiver : SessionId → Option Receiver) (s : SessionId) : Option Receiver :=
  match sent with
  | some (u, cmd) => if s = u then (receiver s).map (·.push capacity cmd) else receiver s
  | none => receiver s

variable {ch' : Channels} {i j : SocketId} {s u : SessionId}

theorem receiver_setMessages (tx : Option Sender) :
    (ch.setMessages (Function.update ch.messages.val u tx)).receiver i s =
      if s = u then tx.bind (·.lookup i) else ch.receiver i s := by
  by_cases hs : s = u
  · simp [receiver, setMessages, hs]
  · simp [receiver, setMessages, hs]

theorem lookup_map_push (tx : Sender) (capacity : ℕ) (cmd : Command) (i : SocketId) :
    (tx.map fun p => (p.1, p.2.push capacity cmd)).lookup i =
      (tx.lookup i).map (·.push capacity cmd) := by
  induction tx with
  | nil => rfl
  | cons p tx ih =>
    rw [List.map_cons, List.lookup_cons, List.lookup_cons]
    split
    · rfl
    · exact ih

theorem lookup_filter_ne (tx : Sender) (i j : SocketId) :
    (tx.filter (·.1 ≠ j)).lookup i = if i = j then none else tx.lookup i := by
  induction tx with
  | nil => simp
  | cons p tx ih =>
    by_cases hp : p.1 = j
    · rw [List.filter_cons_of_neg (by simpa using hp), ih, List.lookup_cons]
      split_ifs with hij
      · rfl
      · rw [hp, beq_false_of_ne hij]
    · rw [List.filter_cons_of_pos (by simpa using hp), List.lookup_cons, List.lookup_cons, ih]
      split_ifs with hij
      · rw [hij, beq_false_of_ne (Ne.symm hp)]
      · rfl

theorem lookup_map_replace (tx : Sender) (i j : SocketId) (rx : Receiver) :
    (tx.map fun p => if p.1 = j then (j, rx) else p).lookup i =
      if i = j then (tx.lookup j).map fun _ => rx else tx.lookup i := by
  induction tx with
  | nil => simp
  | cons p tx ih =>
    rw [List.map_cons, List.lookup_cons, List.lookup_cons, List.lookup_cons, ih]
    by_cases hp : p.1 = j
    · rw [if_pos hp, hp]
      split_ifs with hij
      · simp [hij]
      · simp [beq_false_of_ne hij]
    · rw [if_neg hp]
      split_ifs with hij
      · simp [hij, beq_false_of_ne (Ne.symm hp)]
      · rfl

/-- A broadcast reaches every receiver of its session, or nobody. -/
theorem receiver_broadcast (ch : Channels) (u : SessionId) (cmd : Command) :
    match (broadcast u cmd).run ch with
    | .ok (.ok ()) ch' => ∀ i,
        ch'.receiver i = heard ch.capacity (some (u, cmd)) (ch.receiver i)
    | .ok (.error _) ch' => ch' = ch
    | .error _ ch' => ch' = ch := by
  obtain hpoison | hpoison := Bool.eq_false_or_eq_true ch.messages.poisoned
  · simp [broadcast, lockMessages, hpoison]
  rcases htx : ch.messages.val u with _ | tx
  · simp [broadcast, lockMessages, hpoison, htx]
  by_cases hnil : tx = []
  · simp [broadcast, lockMessages, hpoison, htx, hnil]
  simp only [broadcast, lockMessages, EStateM.run_bind, EStateM.run_get, hpoison,
    Bool.false_eq_true, if_false, EStateM.run_pure, htx, hnil, EStateM.run_modify]
  intro i
  funext s
  rw [receiver_setMessages, heard]
  split_ifs with hs
  · rw [Option.bind_some, lookup_map_push, receiver, hs, htx]
    rfl
  · rfl

theorem receiver_subscribe (ch : Channels) (j : SocketId) (u : SessionId) :
    match (subscribe j u).run ch with
    | .ok () ch' => ∀ i s, ch'.receiver i s = if s = u then
        (ch.receiver i s).or (if i = j then some { queue := [], lagged := false } else none)
        else ch.receiver i s
    | .error _ ch' => ch' = ch := by
  obtain hpoison | hpoison := Bool.eq_false_or_eq_true ch.messages.poisoned
  · simp [subscribe, lockMessages, hpoison]
  rcases htx : ch.messages.val u with _ | tx
  · simp [subscribe, lockMessages, hpoison, htx]
  simp only [subscribe, lockMessages, EStateM.run_bind, EStateM.run_get, hpoison,
    Bool.false_eq_true, if_false, EStateM.run_pure, htx, EStateM.run_modify]
  intro i s
  rw [receiver_setMessages]
  split_ifs with hs hij
  · rw [Option.bind_some, List.lookup_append, receiver, hs, htx, hij]
    simp
  · rw [Option.bind_some, List.lookup_append, receiver, hs, htx, List.lookup_cons,
      beq_false_of_ne hij]
    rfl
  · rfl

theorem receiver_ensureSession (ch : Channels) (u : SessionId) :
    match (ensureSession u).run ch with
    | .ok () ch' => ∀ i, ch'.receiver i = ch.receiver i
    | .error _ ch' => ch' = ch := by
  obtain hpoison | hpoison := Bool.eq_false_or_eq_true ch.messages.poisoned
  · simp [ensureSession, lockMessages, hpoison]
  rcases htx : ch.messages.val u with _ | tx
  · simp only [ensureSession, lockMessages, EStateM.run_bind, EStateM.run_get, hpoison,
      Bool.false_eq_true, if_false, EStateM.run_pure, htx, Option.isSome_none, EStateM.run_modify]
    intro i
    funext s
    rw [receiver_setMessages]
    split_ifs with hs
    · rw [receiver, hs, htx]
      rfl
    · rfl
  · simp [ensureSession, lockMessages, hpoison, htx]

theorem receiver_unsubscribe (ch : Channels) (i j : SocketId) (s u : SessionId) :
    (ch.unsubscribe j u).receiver i s = if i = j ∧ s = u then none else ch.receiver i s := by
  rw [unsubscribe, receiver_setMessages]
  by_cases hs : s = u
  · rw [if_pos hs, receiver, hs]
    cases ch.messages.val u with
    | none => simp
    | some tx =>
      rw [Option.map_some, Option.bind_some, lookup_filter_ne]
      by_cases hij : i = j <;> simp [hij]
  · simp [hs]

theorem receiver_setReceiver (ch : Channels) (i j : SocketId) (s u : SessionId) (rx : Receiver) :
    (ch.setReceiver j u rx).receiver i s =
      if i = j ∧ s = u then (ch.receiver i s).map fun _ => rx else ch.receiver i s := by
  rw [setReceiver, receiver_setMessages]
  by_cases hs : s = u
  · rw [if_pos hs, receiver, hs]
    cases ch.messages.val u with
    | none => simp
    | some tx =>
      rw [Option.map_some, Option.bind_some, lookup_map_replace]
      by_cases hij : i = j <;> simp [hij]
  · simp [hs]

/-- Receivers depend on the channels of the sessions only. -/
theorem receiver_congr (h : ch'.messages = ch.messages) : ch'.receiver = ch.receiver := by
  funext i s
  rw [receiver, receiver, h]

end Wraft.Introducer.Channels
