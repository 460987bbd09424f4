import Wraft.Introducer.ChannelsSpec
import Wraft.Introducer.Socket

/-!
# Panics of the introducer

Two things that a client can do make the introducer panic: it can send a `SessionStatus`, which
only the introducer is supposed to send, and it can send a second `Join`, whose session is then
taken for the one to leave although nobody may ever have joined it. The second panic happens
under the write lock of the online map and poisons it, after which no client can join any more
(`not_noPanic`). Nothing else makes the introducer panic (`noPanic_iff`).
-/

namespace Wraft

namespace Introducer

/-! ### Sockets that do not panic -/

/-- The session of a task that needs its channel. -/
def Task.session? : Task → Option SessionId
  | .subscribing info | .subscribed _ info => some info.2
  | _ => none

/-- The task has not put its node online yet. -/
def Task.isFresh : Task → Bool
  | .waiting | .ensuring _ | .subscribing _ | .subscribed .inserting _ => true
  | _ => false

/-- What holds of socket `i` when nothing has panicked. -/
structure Socket.Fine (i : SocketId) (ch : Channels) (x : Socket) : Prop where
  main : ∀ p, x.main ≠ .panicked p
  task : ∀ p, x.task ≠ .panicked p
  channel : ∀ s, x.task.session? = some s → (ch.messages.val s).isSome
  subscribed : ∀ phase info, x.task = .subscribed phase info → ch.Subscribed i info.2
  joined : ∀ phase info, x.task = .subscribed phase info → phase ≠ .inserting →
    x.joinedAs = some info
  unjoined : x.task.isFresh → x.joinedAs = none
  online : ∀ n s, x.joinedAs = some (n, s) → (ch.online.val s).isSome
  announcing : ∀ s, x.main = .announcing s → (ch.online.val s).isSome

theorem Socket.Fine.of_kept {i j : SocketId} {ch ch' : Channels} {x : Socket} (h : x.Fine j ch)
    (hk : Channels.Kept i ch ch') (hj : j ≠ i) : x.Fine j ch' where
  main := h.main
  task := h.task
  channel s hs := hk.messages s (h.channel s hs)
  subscribed phase info hx := hk.subscribed j _ hj (h.subscribed phase info hx)
  joined := h.joined
  unjoined := h.unjoined
  online n s hx := hk.online s (h.online n s hx)
  announcing s hx := hk.online s (h.announcing s hx)

/-- What a step of socket `i` leaves behind when it does not panic. -/
structure Socket.Steps (i : SocketId) (ch : Channels) (x : Socket) (ch' : Channels) (x' : Socket) :
    Prop where
  sound : ch'.Sound
  kept : Channels.Kept i ch ch'
  fine : x'.Fine i ch'
  joinedAs : ∀ info, x.joinedAs = some info → x'.joinedAs = some info
  online : ∀ s, (ch'.online.val s).isSome → (ch.online.val s).isSome ∨
    ∃ n, x'.joinedAs = some (n, s)

namespace Socket.Steps

variable {i : SocketId} {ch ch' : Channels} {x x' : Socket}

/-- A step of the receive loop, which leaves the task as it is. -/
theorem main (hx : x.Fine i ch) (hs : ch'.Sound) (hk : Channels.Kept i ch ch')
    (hsub : ∀ s, ch.Subscribed i s → ch'.Subscribed i s)
    (ho : ∀ s, (ch'.online.val s).isSome → (ch.online.val s).isSome)
    (htask : x'.task = x.task) (hj : x'.joinedAs = x.joinedAs) (hm : ∀ p, x'.main ≠ .panicked p)
    (ha : ∀ s, x'.main = .announcing s → (ch'.online.val s).isSome) : Steps i ch x ch' x' where
  sound := hs
  kept := hk
  fine :=
    { main := hm
      task := htask ▸ hx.task
      channel := fun s h => hk.messages s (hx.channel s (htask ▸ h))
      subscribed := fun phase info h => hsub _ (hx.subscribed phase info (htask ▸ h))
      joined := fun phase info h => hj ▸ hx.joined phase info (htask ▸ h)
      unjoined := fun h => hj ▸ hx.unjoined (htask ▸ h)
      online := fun n s h => hk.online s (hx.online n s (hj ▸ h))
      announcing := ha }
  joinedAs _ h := hj ▸ h
  online s h := .inl (ho s h)

/-- A step of the receive loop that leaves the channels as they are. -/
theorem main_of_eq (hs : ch.Sound) (hx : x.Fine i ch) (htask : x'.task = x.task)
    (hj : x'.joinedAs = x.joinedAs) (hm : ∀ p, x'.main ≠ .panicked p)
    (ha : ∀ s, x'.main = .announcing s → x.main = .announcing s) : Steps i ch x ch x' :=
  main hx hs (.refl i ch) (fun _ => id) (fun _ => id) htask hj hm
    fun s h => hx.announcing s (ha s h)

/-- A step of the task, which leaves the receive loop as it is. -/
theorem task (hx : x.Fine i ch) (hs : ch'.Sound) (hk : Channels.Kept i ch ch')
    (ho : ∀ s, (ch'.online.val s).isSome → (ch.online.val s).isSome)
    (hmain : x'.main = x.main) (hj : x'.joinedAs = x.joinedAs) (ht : ∀ p, x'.task ≠ .panicked p)
    (hc : ∀ s, x'.task.session? = some s → (ch'.messages.val s).isSome)
    (hsub : ∀ phase info, x'.task = .subscribed phase info → ch'.Subscribed i info.2)
    (hjoined : ∀ phase info, x'.task = .subscribed phase info → phase ≠ .inserting →
      x.joinedAs = some info)
    (hfresh : x'.task.isFresh → x.task.isFresh) : Steps i ch x ch' x' where
  sound := hs
  kept := hk
  fine :=
    { main := hmain ▸ hx.main
      task := ht
      channel := hc
      subscribed := hsub
      joined := fun phase info h hne => hj ▸ hjoined phase info h hne
      unjoined := fun h => hj ▸ hx.unjoined (hfresh h)
      online := fun n s h => hk.online s (hx.online n s (hj ▸ h))
      announcing := fun s h => hk.online s (hx.announcing s (hmain ▸ h)) }
  joinedAs _ h := hj ▸ h
  online s h := .inl (ho s h)

/-- The task ends. -/
theorem end_ {ok : Bool} (hx : x.Fine i ch) (hs : ch'.Sound) (hk : Channels.Kept i ch ch')
    (ho : ∀ s, (ch'.online.val s).isSome → (ch.online.val s).isSome)
    (htask : x'.task = .ended ok) (hmain : x'.main = x.main) (hj : x'.joinedAs = x.joinedAs) :
    Steps i ch x ch' x' :=
  task hx hs hk ho hmain hj (by simp [htask]) (by simp [htask, Task.session?]) (by simp [htask])
    (by simp [htask]) (by simp [htask, Task.isFresh])

end Socket.Steps

namespace Socket

variable {i : SocketId} {ch ch' : Channels} {x x' : Socket}

/-- What a broadcast leaves behind, delivered or not. -/
theorem broadcast_cases (hs : ch.Sound) (s : SessionId) {cmd : Command}
    (hcmd : ∀ join, cmd ≠ .join join) :
    (∃ e, (Channels.broadcast s cmd).run ch = .ok (.error e) ch ∧ ∀ j, ¬ch.Subscribed j s) ∨
    ∃ ch', (Channels.broadcast s cmd).run ch = .ok (.ok ()) ch' ∧ ch'.Sound ∧
      (∀ j, Channels.Kept j ch ch') ∧ ch'.online = ch.online ∧ ∃ j, ch.Subscribed j s := by
  rcases htx : ch.messages.val s with _ | tx
  · exact .inl ⟨_, Channels.broadcast_run_of_none hs htx cmd,
      fun j ⟨tx, h, _⟩ => by cases htx.symm.trans h⟩
  rcases tx with _ | ⟨p, tx⟩
  · exact .inl ⟨_, Channels.broadcast_run_of_nil hs htx cmd,
      fun j ⟨tx, h, hj⟩ => by cases htx.symm.trans h; cases hj⟩
  · exact .inr ⟨_, Channels.broadcast_run_of_ne_nil hs htx (by simp) cmd,
      Channels.sound_sent hs htx hcmd, fun j => Channels.kept_sent j htx cmd, rfl, p.1, _, htx,
      by simp⟩

theorem relay_steps (hs : ch.Sound) (hx : x.Fine i ch) {s : SessionId} {cmd : Command}
    (hcmd : ∀ join, cmd ≠ .join join) (h : x.relay s cmd ch = (ch', x')) :
    Steps i ch x ch' x' := by
  unfold relay at h
  rcases broadcast_cases hs s hcmd with ⟨e, hrun, -⟩ | ⟨ch₁, hrun, hs', hk, ho, -⟩
  · rw [hrun] at h
    cases h
    exact .main_of_eq hs hx rfl rfl hx.main fun _ => id
  · rw [hrun] at h
    cases h
    refine .main hx hs' (hk i) (fun s h => ?_) (fun s h => by rwa [ho] at h) rfl rfl hx.main
      fun s h => (hk i).online s (hx.announcing s h)
    exact (hk (i + 1)).subscribed i s (Nat.succ_ne_self i).symm h

/-- A command arrives that is not a `SessionStatus`. -/
theorem receive_steps (hs : ch.Sound) (hx : x.Fine i ch) {cmd : Command}
    (hcmd : ∀ st, cmd ≠ .sessionStatus st) (h : x.receive cmd ch = some (ch', x')) :
    Steps i ch x ch' x' := by
  unfold receive at h
  split at h
  · cases cmd with
    | join join =>
      cases h
      exact .main_of_eq hs hx rfl rfl (by simp) (by simp)
    | sessionStatus st => exact absurd rfl (hcmd st)
    | offer offer =>
      exact relay_steps hs hx (by simp) (Option.some.inj h)
    | answer answer =>
      exact relay_steps hs hx (by simp) (Option.some.inj h)
    | iceCandidate candidate =>
      exact relay_steps hs hx (by simp) (Option.some.inj h)
  · cases h

theorem sendJoin_steps (hs : ch.Sound) (hx : x.Fine i ch) (h : x.sendJoin ch = some (ch', x')) :
    Steps i ch x ch' x' := by
  unfold sendJoin at h
  split at h
  · split_ifs at h <;> cases h <;> exact .main_of_eq hs hx rfl rfl (by simp) (by simp)
  · cases h

theorem close_steps (hs : ch.Sound) (hx : x.Fine i ch) (h : x.close ch = some (ch', x')) :
    Steps i ch x ch' x' := by
  unfold close at h
  split_ifs at h
  cases h
  exact .main_of_eq hs hx rfl rfl hx.main fun _ => id

theorem endLoop_steps (hs : ch.Sound) (hx : x.Fine i ch) (h : x.endLoop ch = some (ch', x')) :
    Steps i ch x ch' x' := by
  unfold endLoop at h
  split_ifs at h
  cases h
  exact .main_of_eq hs hx rfl rfl (by simp) (by simp)

theorem sendLeft_steps (hs : ch.Sound) (hx : x.Fine i ch) (h : x.sendLeft ch = some (ch', x')) :
    Steps i ch x ch' x' := by
  unfold sendLeft at h
  split_ifs at h <;> cases h <;> exact .main_of_eq hs hx rfl rfl (by simp) (by simp)

theorem awaitTask_steps (hs : ch.Sound) (hx : x.Fine i ch)
    (h : x.awaitTask ch = some (ch', x')) : Steps i ch x ch' x' := by
  unfold awaitTask at h
  split_ifs at h
  split at h
  · split at h <;> cases h <;> exact .main_of_eq hs hx rfl rfl (by simp) (by simp)
  · cases h
    exact .main_of_eq hs hx rfl rfl (by simp) (by simp)
  · exact absurd ‹_› (hx.task _)
  · cases h

/-- A node leaves a session that is online. -/
theorem leave_steps (hs : ch.Sound) (hx : x.Fine i ch)
    (hleave : ∀ n s, x.main = .leaving (n, s) → (ch.online.val s).isSome)
    (h : x.leave ch = some (ch', x')) : Steps i ch x ch' x' := by
  unfold leave at h
  split at h
  · rename_i n s hmain
    obtain ⟨online, ho⟩ := Option.isSome_iff_exists.mp (hleave n s hmain)
    rw [Channels.leftOnline_run_of_some hs ho] at h
    cases h
    have hk : Channels.Kept i ch _ := Channels.kept_setOnline i s (online.erase n)
    refine .main hx (Channels.sound_setOnline hs _) hk (fun _ => id) (fun u hu => ?_) rfl rfl
      (by simp) fun u hu => ?_
    · by_cases hus : u = s
      · rw [hus, ho]
        rfl
      · simpa [Channels.setOnline, Function.update_of_ne hus] using hu
    · cases hu
      exact hk.online s (hleave n s hmain)
  · cases h

/-- The announcement of a session that is online. -/
theorem announce_cases (hs : ch.Sound) {s : SessionId} (ho : (ch.online.val s).isSome) :
    (∃ e, (Channels.broadcastSessionInfo s).run ch = .ok (.error e) ch ∧
      ∀ j, ¬ch.Subscribed j s) ∨
    ∃ ch', (Channels.broadcastSessionInfo s).run ch = .ok (.ok ()) ch' ∧ ch'.Sound ∧
      (∀ j, Channels.Kept j ch ch') ∧ ch'.online = ch.online := by
  obtain ⟨online, ho⟩ := Option.isSome_iff_exists.mp ho
  rw [Channels.broadcastSessionInfo_run hs ho]
  have hcmd : ∀ join, Command.sessionStatus ⟨s, online⟩ ≠ .join join := by simp
  rcases broadcast_cases hs s hcmd with
    h | ⟨ch', hrun, hs', hk, ho', -⟩
  · exact .inl h
  · exact .inr ⟨ch', hrun, hs', hk, ho'⟩

theorem announceLeft_steps (hs : ch.Sound) (hx : x.Fine i ch)
    (h : x.announceLeft ch = some (ch', x')) : Steps i ch x ch' x' := by
  unfold announceLeft at h
  split at h
  · rename_i s hmain
    rcases announce_cases hs (hx.announcing s hmain) with
      ⟨e, hrun, -⟩ | ⟨ch₁, hrun, hs', hk, ho⟩
    · rw [hrun] at h
      cases h
      exact .main_of_eq hs hx rfl rfl (by simp) (by simp)
    · rw [hrun] at h
      cases h
      exact .main hx hs' (hk i)
        (fun u hu => (hk (i + 1)).subscribed i u (Nat.succ_ne_self i).symm hu)
        (fun u hu => by rwa [ho] at hu) rfl rfl (by simp) (by simp)
  · cases h

theorem takeJoin_steps (hs : ch.Sound) (hx : x.Fine i ch) (h : x.takeJoin ch = some (ch', x')) :
    Steps i ch x ch' x' := by
  unfold takeJoin at h
  split at h
  · rename_i htask _
    cases h
    exact .task hx hs (.refl i ch) (fun _ => id) rfl rfl (by simp) (by simp [Task.session?])
      (by simp) (by simp) fun _ => by rw [htask]; rfl
  · split_ifs at h
    cases h
    exact .end_ hx hs (.refl i ch) (fun _ => id) rfl rfl rfl
  · cases h

theorem ensureSession_steps (hs : ch.Sound) (hx : x.Fine i ch)
    (h : x.ensureSession ch = some (ch', x')) : Steps i ch x ch' x' := by
  unfold ensureSession at h
  split at h
  · rename_i info htask
    rcases hm : ch.messages.val info.2 with _ | tx
    · rw [Channels.ensureSession_run_of_none hs hm] at h
      cases h
      have hk : Channels.Kept i ch
          (ch.setMessages (Function.update ch.messages.val info.2 (some []))) :=
        Channels.kept_setMessages fun tx htx => by cases hm.symm.trans htx
      refine .task hx (Channels.sound_setMessages hs (by simp)) hk (fun _ => id) rfl rfl (by simp)
        (fun s hs => ?_) (by simp) (by simp) fun _ => by rw [htask]; rfl
      cases hs
      simp [Channels.setMessages]
    · have hsome : (ch.messages.val info.2).isSome := by rw [hm]; rfl
      rw [Channels.ensureSession_run_of_some hs hsome] at h
      cases h
      exact .task hx hs (.refl i ch) (fun _ => id) rfl rfl (by simp)
        (fun s hs => by cases hs; exact hsome) (by simp) (by simp) fun _ => by rw [htask]; rfl
  · cases h

theorem subscribe_steps (hs : ch.Sound) (hx : x.Fine i ch)
    (h : x.subscribe i ch = some (ch', x')) : Steps i ch x ch' x' := by
  unfold subscribe at h
  split at h
  · rename_i info htask
    obtain ⟨tx, htx⟩ := Option.isSome_iff_exists.mp
      (hx.channel info.2 (by rw [htask]; rfl))
    rw [Channels.subscribe_run hs htx] at h
    cases h
    have hk : Channels.Kept i ch (ch.setMessages (Function.update ch.messages.val info.2
        (some (tx ++ [(i, { queue := [], lagged := false })])))) := by
      refine Channels.kept_setMessages fun tx' htx' j hj _ => ?_
      cases htx.symm.trans htx'
      rw [List.map_append]
      exact List.mem_append_left _ hj
    refine .task hx (Channels.sound_setMessages hs fun p hp => ?_) hk (fun _ => id) rfl rfl
      (by simp) (fun s hs => ?_) (fun phase info' h => ?_) (fun phase info' h hne => ?_)
      (fun _ => by rw [htask]; rfl)
    · rcases List.mem_append.mp hp with hp | hp
      · exact hs.queued _ tx htx p hp
      · rw [List.mem_singleton] at hp
        simp [hp]
    · cases hs
      simp [Channels.setMessages]
    · cases h
      exact ⟨_, Function.update_self _ _ _, by simp⟩
    · cases h
      exact absurd rfl hne
  · cases h

theorem join_steps (hs : ch.Sound) (hx : x.Fine i ch) (h : x.join i ch = some (ch', x')) :
    Steps i ch x ch' x' := by
  unfold join at h
  split at h
  · rename_i info htask
    rw [Channels.joinedOnline_run hs] at h
    cases h
    have hk : Channels.Kept i ch _ :=
      Channels.kept_setOnline i info.2 (insert info.1 (ch.onlineIn info.2))
    have hinfo : ∀ n s, some info = some (n, s) → s = info.2 := by
      rintro n s hs
      rw [Option.some.inj hs]
    exact
      { sound := Channels.sound_setOnline hs _
        kept := hk
        fine :=
          { main := hx.main
            task := by simp
            channel := fun s h => hx.channel s (by rw [htask]; exact h)
            subscribed := fun phase info' h => by
              cases h
              exact hx.subscribed _ info htask
            joined := fun phase info' h _ => by cases h; rfl
            unjoined := by simp [Task.isFresh]
            online := fun n s h => by
              rw [hinfo n s h]
              simp [Channels.setOnline]
            announcing := fun s h => hk.online s (hx.announcing s h) }
        joinedAs := fun info' h => by
          rw [hx.unjoined (by rw [htask]; rfl)] at h
          cases h
        online := fun s h => by
          by_cases hs : s = info.2
          · exact .inr ⟨info.1, by rw [hs]⟩
          · exact .inl (by simpa [Channels.setOnline, Function.update_of_ne hs] using h) }
  · cases h

theorem announceJoined_steps (hs : ch.Sound) (hx : x.Fine i ch)
    (h : x.announceJoined i ch = some (ch', x')) : Steps i ch x ch' x' := by
  unfold announceJoined at h
  split at h
  · rename_i info htask
    have hjoined := hx.joined _ _ htask (by simp)
    have hsub := hx.subscribed _ _ htask
    rcases announce_cases hs (hx.online info.1 info.2 hjoined) with
      ⟨e, hrun, hnone⟩ | ⟨ch₁, hrun, hs', hk, ho⟩
    · exact absurd hsub (hnone i)
    · rw [hrun] at h
      cases h
      have hsub' := (hk (i + 1)).subscribed i info.2 (Nat.succ_ne_self i).symm hsub
      exact .task hx hs' (hk i) (fun u hu => by rwa [ho] at hu) rfl rfl (by simp)
        (fun s hs => by cases hs; exact hsub'.isSome) (fun _ _ h => by cases h; exact hsub')
        (fun _ _ h _ => by cases h; exact hjoined) (by simp [Task.isFresh])
  · cases h

/-- The loop goes on. -/
theorem Steps.running (hx : x.Fine i ch) {info : JoinInfo}
    (htask : x.task = .subscribed .running info) (hs' : ch'.Sound)
    (hk : ∀ j, Channels.Kept j ch ch') (ho : ch'.online = ch.online) (htask' : x'.task = x.task)
    (hmain : x'.main = x.main) (hj : x'.joinedAs = x.joinedAs) : Steps i ch x ch' x' := by
  have hsub := (hk (i + 1)).subscribed i info.2 (Nat.succ_ne_self i).symm
    (hx.subscribed _ _ htask)
  rw [htask] at htask'
  refine .task hx hs' (hk i) (fun u hu => by rwa [ho] at hu) hmain hj (by simp [htask'])
    (fun s h => ?_) (fun _ _ h => ?_) (fun _ _ h _ => ?_) (by simp [htask', Task.isFresh])
  · rw [htask'] at h
    cases h
    exact hsub.isSome
  · cases htask'.symm.trans h
    exact hsub
  · cases htask'.symm.trans h
    exact hx.joined _ _ htask (by simp)

/-- The loop sends to the client, or fails to. -/
theorem send_steps (hx : x.Fine i ch) {info : JoinInfo}
    (htask : x.task = .subscribed .running info) {ch₁ : Channels} (hs' : ch₁.Sound)
    (hk : ∀ j, Channels.Kept j ch ch₁) (ho : ch₁.online = ch.online) {ok : Bool}
    {msg : Option Command} (h : x.send i info.2 ok msg ch₁ = (ch', x')) :
    Steps i ch x ch' x' := by
  unfold send at h
  split_ifs at h
  · cases h
    exact .running hx htask hs' hk ho rfl rfl rfl
  · cases h
    exact .end_ hx (Channels.sound_unsubscribe hs' i info.2)
      ((hk i).trans (Channels.kept_unsubscribe i info.2)) (fun u hu => by rw [← ho]; exact hu)
      rfl rfl rfl

theorem forward_steps (hs : ch.Sound) (hx : x.Fine i ch) {ok : Bool}
    (h : x.forward i ok ch = some (ch', x')) : Steps i ch x ch' x' := by
  unfold forward at h
  split at h
  · rename_i info htask
    split at h
    · rename_i queue hrx
      cases h
      have hqueue : ∀ join, Command.join join ∉ queue := hs.queue_receiver hrx
      exact .running hx htask (Channels.sound_setReceiver hs i info.2 hqueue)
        (fun j => Channels.kept_setReceiver i j info.2 _) rfl rfl rfl rfl
    · rename_i msg queue hrx
      have hqueue : ∀ join, Command.join join ∉ msg :: queue := hs.queue_receiver hrx
      have hs' := Channels.sound_setReceiver hs i info.2
        (fun join hjoin => hqueue join (List.mem_cons_of_mem _ hjoin) :
          ∀ join, Command.join join ∉ (Receiver.mk queue false).queue)
      have hk : ∀ j, Channels.Kept j ch _ :=
        fun j => Channels.kept_setReceiver i j info.2 ⟨queue, false⟩
      dsimp only at h
      split at h
      · exact absurd List.mem_cons_self (hqueue _)
      · split_ifs at h
        · exact send_steps hx htask hs' hk rfl (Option.some.inj h)
        · cases h
          exact .running hx htask hs' hk rfl rfl rfl rfl
    · cases h
  · cases h

theorem ping_steps (hs : ch.Sound) (hx : x.Fine i ch) {ok : Bool}
    (h : x.ping i ok ch = some (ch', x')) : Steps i ch x ch' x' := by
  unfold ping at h
  split at h
  · rename_i info htask
    exact send_steps hx htask hs (fun j => .refl j ch) rfl (Option.some.inj h)
  · cases h

theorem endTask_steps (hs : ch.Sound) (hx : x.Fine i ch) (h : x.endTask i ch = some (ch', x')) :
    Steps i ch x ch' x' := by
  unfold endTask at h
  split at h
  · rename_i info htask
    split_ifs at h
    cases h
    exact .end_ hx (Channels.sound_unsubscribe hs i info.2) (Channels.kept_unsubscribe i info.2)
      (fun _ => id) rfl rfl rfl
  · cases h

/-- The client does what only the introducer is supposed to do, or the socket leaves a session
that is not online. -/
def Misused (ch : Channels) (x : Socket) : SocketAction → Prop
  | .receive (.sessionStatus _) => x.main = .receiving
  | .leave => ∃ n s, x.main = .leaving (n, s) ∧ ch.online.val s = none
  | _ => False

/-- **A step of a socket** that is not misused does not panic. -/
theorem exec_steps (hs : ch.Sound) (hx : x.Fine i ch) {a : SocketAction}
    (ha : ¬x.Misused ch a) (h : x.exec i ch a = some (ch', x')) : Steps i ch x ch' x' := by
  cases a with
  | receive cmd =>
    refine receive_steps hs hx (fun st hst => ha ?_) h
    subst hst
    simp only [exec, receive] at h
    split at h
    · assumption
    · cases h
  | sendJoin => exact sendJoin_steps hs hx h
  | close => exact close_steps hs hx h
  | endLoop => exact endLoop_steps hs hx h
  | sendLeft => exact sendLeft_steps hs hx h
  | awaitTask => exact awaitTask_steps hs hx h
  | leave =>
    refine leave_steps hs hx (fun n s hmain => ?_) h
    rw [Option.isSome_iff_ne_none]
    exact fun hnone => ha ⟨n, s, hmain, hnone⟩
  | announceLeft => exact announceLeft_steps hs hx h
  | takeJoin => exact takeJoin_steps hs hx h
  | ensureSession => exact ensureSession_steps hs hx h
  | subscribe => exact subscribe_steps hs hx h
  | join => exact join_steps hs hx h
  | announceJoined => exact announceJoined_steps hs hx h
  | forward ok => exact forward_steps hs hx h
  | ping ok => exact ping_steps hs hx h
  | endTask => exact endTask_steps hs hx h

end Socket

end Introducer

namespace Introducer

/-! ### Runs -/

/-- A socket has joined the session. -/
def HasJoined (c : Introducer) (s : SessionId) : Prop :=
  ∃ x ∈ c.sockets, ∃ n, x.joinedAs = some (n, s)

/-- What holds of the introducer when nothing has panicked. -/
structure Inv (c : Introducer) : Prop where
  sound : c.channels.Sound
  fine : ∀ (i : SocketId) (x : Socket), c.sockets[i]? = some x → x.Fine i c.channels
  online : ∀ s, (c.channels.online.val s).isSome → c.HasJoined s

/-- A session is online when somebody has joined it. -/
theorem Inv.online_iff {c : Introducer} (h : c.Inv) (s : SessionId) :
    (c.channels.online.val s).isSome ↔ c.HasJoined s := by
  refine ⟨h.online s, ?_⟩
  rintro ⟨x, hx, n, hj⟩
  obtain ⟨i, hi⟩ := List.mem_iff_getElem?.mp hx
  exact (h.fine i x hi).online n s hj

theorem inv_start (capacity : ℕ) : (start capacity).Inv where
  sound := ⟨rfl, rfl, fun s tx h => by cases h⟩
  fine i x h := by simp [start] at h
  online s h := by cases h

theorem fine_accepted (i : SocketId) (ch : Channels) : Socket.accepted.Fine i ch where
  main := by simp [Socket.accepted]
  task := by simp [Socket.accepted]
  channel := by simp [Socket.accepted, Task.session?]
  subscribed := by simp [Socket.accepted]
  joined := by simp [Socket.accepted]
  unjoined _ := rfl
  online := by simp [Socket.accepted]
  announcing := by simp [Socket.accepted]

/-- The socket at a position after one more was accepted. -/
theorem getElem?_accept {l : List Socket} {i : SocketId} {x : Socket}
    (h : (l ++ [Socket.accepted])[i]? = some x) : l[i]? = some x ∨ x = Socket.accepted := by
  rw [List.getElem?_append] at h
  split_ifs at h
  · exact .inl h
  · exact .inr (List.mem_singleton.mp (List.mem_of_getElem? h))

theorem Inv.accept {c : Introducer} (h : c.Inv) :
    Inv { c with sockets := c.sockets ++ [Socket.accepted] } where
  sound := h.sound
  fine i x hx := by
    rcases getElem?_accept hx with hx | rfl
    · exact h.fine i x hx
    · exact fine_accepted i _
  online s hs := by
    obtain ⟨x, hx, n, hj⟩ := h.online s hs
    exact ⟨x, List.mem_append_left _ hx, n, hj⟩

/-- The socket at a position after socket `i` has changed to `x'`. -/
theorem getElem?_step {l : List Socket} {i j : SocketId} {x x' y : Socket} (hx : l[i]? = some x)
    (h : (l.set i x')[j]? = some y) : j = i ∧ y = x' ∨ j ≠ i ∧ l[j]? = some y := by
  by_cases hj : i = j
  · subst hj
    rw [List.getElem?_set_self (List.getElem?_eq_some_iff.mp hx).1] at h
    exact .inl ⟨rfl, (Option.some.inj h).symm⟩
  · rw [List.getElem?_set_ne hj] at h
    exact .inr ⟨Ne.symm hj, h⟩

/-- What one socket has joined stays joined. -/
theorem exists_joinedAs_step {l : List Socket} {i : SocketId} {x x' : Socket}
    (hx : l[i]? = some x) (hj : ∀ info, x.joinedAs = some info → x'.joinedAs = some info)
    {y : Socket} (hy : y ∈ l) {info : JoinInfo} (hinfo : y.joinedAs = some info) :
    ∃ z ∈ l.set i x', z.joinedAs = some info := by
  have hi := (List.getElem?_eq_some_iff.mp hx).1
  obtain ⟨j, hj'⟩ := List.mem_iff_getElem?.mp hy
  by_cases hij : i = j
  · subst hij
    obtain rfl := Option.some.inj (hx.symm.trans hj')
    exact ⟨x', List.mem_set hi x', hj info hinfo⟩
  · exact ⟨y, List.mem_iff_getElem?.mpr ⟨j, by rw [List.getElem?_set_ne hij, hj']⟩, hinfo⟩

/-- A step of one socket that does not panic. -/
theorem Inv.step {c : Introducer} (h : c.Inv) {i : SocketId} {x x' : Socket} {ch' : Channels}
    (hx : c.sockets[i]? = some x) (hst : Socket.Steps i c.channels x ch' x') :
    Inv { channels := ch', sockets := c.sockets.set i x' } where
  sound := hst.sound
  fine j y hy := by
    rcases getElem?_step hx hy with ⟨rfl, rfl⟩ | ⟨hj, hy⟩
    · exact hst.fine
    · exact (h.fine j y hy).of_kept hst.kept hj
  online s hs := by
    rcases hst.online s hs with hs | ⟨n, hn⟩
    · obtain ⟨y, hy, n, hj⟩ := h.online s hs
      obtain ⟨z, hz, hzj⟩ := exists_joinedAs_step hx hst.joinedAs hy hj
      exact ⟨z, hz, n, hzj⟩
    · exact ⟨x', List.mem_set (List.getElem?_eq_some_iff.mp hx).1 x', n, hn⟩

/-- A client sends a `SessionStatus`, or a socket leaves a session that no socket has joined. -/
def misused (c : Introducer) : Action → Bool
  | .socket _ (.receive (.sessionStatus _)) => true
  | .socket i .leave =>
    match c.sockets[i]?.map Socket.main with
    | some (.leaving (_, s)) => !c.sockets.any fun x => x.joinedAs.any (·.2 = s)
    | _ => false
  | _ => false

/-- Nothing has panicked: no task, and nobody under a lock, so that clients can still join. -/
structure NoPanic (c : Introducer) : Prop where
  tasks : ∀ x ∈ c.sockets, (∀ p, x.main ≠ .panicked p) ∧ ∀ p, x.task ≠ .panicked p
  locks : c.channels.messages.poisoned = false ∧ c.channels.online.poisoned = false
  joins : ∀ n s, ∃ ch, (Channels.joinedOnline n s).run c.channels = .ok () ch

theorem Inv.noPanic {c : Introducer} (h : c.Inv) : c.NoPanic where
  tasks x hx := by
    obtain ⟨i, hi⟩ := List.mem_iff_getElem?.mp hx
    exact ⟨(h.fine i x hi).main, (h.fine i x hi).task⟩
  locks := ⟨h.sound.messages, h.sound.online⟩
  joins n s := ⟨_, Channels.joinedOnline_run h.sound n s⟩

/-- A step that is not misused keeps the invariant. -/
theorem Inv.exec {c c' : Introducer} (h : c.Inv) {a : Action} (ha : c.misused a = false)
    (hexec : c.exec a = some c') : c'.Inv := by
  cases a with
  | accept =>
    cases hexec
    exact h.accept
  | socket i a =>
    obtain ⟨x, hx, hexec⟩ := Option.bind_eq_some_iff.mp hexec
    obtain ⟨⟨ch', x'⟩, hstep, rfl⟩ := Option.map_eq_some_iff.mp hexec
    refine h.step hx (Socket.exec_steps h.sound (h.fine i x hx) (fun hmis => ?_) hstep)
    cases a with
    | receive cmd =>
      cases cmd with
      | sessionStatus st => cases ha
      | _ => exact hmis
    | leave =>
      obtain ⟨n, s, hmain, hnone⟩ := hmis
      have hjoined : c.HasJoined s := by
        simp only [misused, hx, Option.map_some, hmain, Bool.not_eq_false', List.any_eq_true,
          Option.any_eq_true, decide_eq_true_eq] at ha
        obtain ⟨y, hy, ⟨m, u⟩, hj, rfl⟩ := ha
        exact ⟨y, hy, m, hj⟩
      have hsome := (h.online_iff s).mpr hjoined
      rw [hnone] at hsome
      cases hsome
    | _ => exact hmis

/-- A misused step panics. -/
theorem Inv.not_noPanic {c c' : Introducer} (h : c.Inv) {a : Action} (ha : c.misused a = true)
    (hexec : c.exec a = some c') : ¬c'.NoPanic := by
  intro hno
  cases a with
  | accept => cases ha
  | socket i a =>
    obtain ⟨x, hx, hexec⟩ := Option.bind_eq_some_iff.mp hexec
    obtain ⟨⟨ch', x'⟩, hstep, rfl⟩ := Option.map_eq_some_iff.mp hexec
    have hmem : x' ∈ c.sockets.set i x' := List.mem_set (List.getElem?_eq_some_iff.mp hx).1 x'
    have hmain := (hno.tasks x' hmem).1
    cases a with
    | receive cmd =>
      cases cmd with
      | sessionStatus st =>
        simp only [Socket.exec, Socket.receive] at hstep
        split at hstep
        · cases hstep
          exact hmain _ rfl
        · cases hstep
      | _ => cases ha
    | leave =>
      simp only [misused, hx, Option.map_some] at ha
      split at ha
      · rename_i n s hleaving
        have hleaving := Option.some.inj hleaving
        -- nobody has joined the session, so it has no set to leave
        have hnone : c.channels.online.val s = none := by
          rw [← Option.not_isSome_iff_eq_none, h.online_iff]
          rintro ⟨y, hy, m, hj⟩
          have hall : ¬c.sockets.any (fun x => x.joinedAs.any (·.2 = s)) = true := by simpa using ha
          exact hall (List.any_eq_true.mpr ⟨y, hy, by simp [hj]⟩)
        simp only [Socket.exec, Socket.leave, hleaving,
          Channels.leftOnline_run_of_none h.sound hnone] at hstep
        cases hstep
        exact hmain _ rfl
      · cases ha
    | _ => cases ha

theorem IsRunWhere.inv {r : List Introducer}
    (hr : IsRunWhere (fun c a => c.misused a = false) r) : ∀ c ∈ r, c.Inv :=
  TransitionSystem.IsRun.invariant (fun _ ⟨capacity, _, h⟩ => h ▸ inv_start capacity)
    (fun _ _ h ⟨_, ha, hexec⟩ => h.exec ha hexec) hr

/-- **The introducer panics** exactly in the steps in which it is misused. -/
theorem noPanic_iff {c : Introducer} {r : List Introducer}
    (hr : IsRunWhere (fun c a => c.misused a = false) (c :: r)) :
    (∀ d ∈ c :: r, d.NoPanic) ∧
      ∀ a c', c.exec a = some c' → (c'.NoPanic ↔ c.misused a = false) := by
  have hinv := hr.inv
  refine ⟨fun d hd => (hinv d hd).noPanic, fun a c' hexec => ⟨fun hno => ?_, fun ha => ?_⟩⟩
  · by_contra ha
    exact (hinv c (by simp)).not_noPanic (by simpa using ha) hexec hno
  · exact ((hinv c (by simp)).exec ha hexec).noPanic

/-- The way of socket `i` from its acceptance to the loop of its task. -/
def joinActions (i : SocketId) (nodeId : NodeId) (sessionId : SessionId) : List Action :=
  .accept :: ([.receive (.join ⟨nodeId, sessionId⟩), .sendJoin, .takeJoin, .ensureSession,
    .subscribe, .join, .announceJoined].map (.socket i))

theorem noPanic_iff_run : ∃ (c : Introducer) (r : List Introducer),
    IsRunWhere (fun c a => c.misused a = false) (c :: r) ∧ c.channels.onlineIn 7 = {1} ∧
    (∀ d ∈ c :: r, d.NoPanic) ∧
      ∀ a c', c.exec a = some c' → (c'.NoPanic ↔ c.misused a = false) := by
  obtain ⟨r, -, hr, hf⟩ := TransitionSystem.exists_run_of_play Starts exec misused starts_start
    (joinActions 0 1 7) (fun r => r.head?.any fun c => c.channels.onlineIn 7 = {1})
    (by decide +kernel)
  simp only [Option.any_eq_true, decide_eq_true_eq] at hf
  obtain ⟨c, hc, honline⟩ := hf
  obtain ⟨r, rfl⟩ := List.head?_eq_some_iff.mp hc
  exact ⟨c, r, hr, honline, noPanic_iff hr⟩

/-- A client that joins session `7`, then session `8`, and closes poisons the online map. -/
theorem not_noPanic : ¬∀ r : List Introducer, IsRunWhere (fun _ _ => True) r →
    ∀ c ∈ r, c.NoPanic := by
  intro h
  obtain ⟨r, -, hr, hf⟩ := TransitionSystem.exists_run_of_play Starts exec
    (fun _ _ => false) starts_start
    (joinActions 0 1 7 ++ [.receive (.join ⟨1, 8⟩), .sendJoin, .close, .endLoop,
      .sendLeft, .endTask,
      .awaitTask, .leave].map (.socket 0))
    (fun r => r.any fun c => c.channels.online.poisoned) (by decide +kernel)
  obtain ⟨c, hc, hpoisoned⟩ := List.any_eq_true.mp hf
  have hrun : IsRunWhere (fun _ _ => True) r :=
    TransitionSystem.IsRun.mono (fun _ _ => TransitionSystem.Acts.mono fun _ _ _ => trivial) hr
  have := (h r hrun c hc).locks.2
  rw [hpoisoned] at this
  cases this

end Introducer

end Wraft
