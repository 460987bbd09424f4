import Wraft.Introducer.Socket
import Wraft.WebrtcRpc.DoubleIntroduction
import Wraft.WebrtcRpc.Transport

/-!
# Late signalling

Two nodes that introduce each other. What one of them sends, the introducer passes on to the other
at any later time, or never, and in any order. An offer that is repeated is answered each time, so
that an answer may come when the connection has been handed over. A candidate that comes then is
ignored, but an answer is an error, and the first error ends the loop of `initiate`.

Before that, the connection is given what comes. The browser rejects a second answer, and a
candidate that comes before the first, which is an error as well. Nothing else ends the loop, unless
the browser or the application fails for a reason of its own (`staysUp_iff`).
-/

namespace Wraft

namespace Introduction

open Introducer (SessionId Session Offer IceCandidate Command)
open WebrtcRpc (Side)

/-- The step is the arrival of a message. -/
def Action.isMessage : Action → Bool
  | .message _ _ _ => true
  | _ => false

/-- Two nodes, and the numbers of the messages of the other that have arrived at each. -/
structure Pair where
  node : Side → Introduction
  arrived : Side → List ℕ

namespace Pair

/-- Two nodes that have sent their `Join`s. -/
def joined (ids : Side → Introducer.NodeId) (sessionId : SessionId) : Pair where
  node x := .joined (ids x) sessionId
  arrived _ := []

inductive Action where
  /-- The introducer tells node `x` who is online. -/
  | status (x : Side) (session : Session) (order : List Introducer.NodeId)
  /-- Message `k` of the other node arrives at node `x`. -/
  | deliver (x : Side) (k : ℕ) (ok : Bool)
  /-- Node `x` takes a step that is not the arrival of a message. -/
  | own (x : Side) (a : Introduction.Action)
  deriving DecidableEq

def setNode (t : Pair) (x : Side) (s : Introduction) : Pair :=
  { t with node := Function.update t.node x s }

/-- Message `k` of the other node, if it may arrive at node `x`. -/
def pending (t : Pair) (x : Side) (k : ℕ) : Option Command :=
  if k ∈ t.arrived x then none
  else (t.node x.other).sent[k]?.filter
    (Introducer.Socket.forwards ((t.node x).nodeId, (t.node x).sessionId))

/-- One step; `none` when it is not possible. -/
def exec (t : Pair) : Action → Option Pair
  | .status x session order =>
    ((t.node x).exec (.message (some (.sessionStatus session)) order true)).map (t.setNode x)
  | .deliver x k ok =>
    match t.pending x k with
    | some cmd =>
      ((t.node x).exec (.message (some cmd) [] ok)).map fun s =>
        { t.setNode x s with arrived := Function.update t.arrived x (k :: t.arrived x) }
    | none => none
  | .own x a =>
    if a.isMessage then none else ((t.node x).exec a).map (t.setNode x)

/-- The finite runs of two nodes, latest state first, all of whose steps meet the condition `G`. -/
def IsRunWhere (ids : Side → Introducer.NodeId) (sessionId : SessionId) (G : Pair → Action → Prop) :
    List Pair → Prop :=
  TransitionSystem.IsRun (· = joined ids sessionId) (TransitionSystem.Acts exec G)

end Pair

/-! ### What may go wrong -/

/-- The connection of the peer was handed over. -/
def handedOver (s : Introduction) (peerId : Introducer.NodeId) : Bool :=
  s.taken.any fun p => s.tasks[p.1]?.any (·.peerId = peerId)

/-- The loop runs, and no handler of a message has returned an error. -/
def StaysUp (s : Introduction) : Prop := s.running = true ∧ s.errorsRx = []

/-- No handler waits for a promise that the browser rejects as the connection was in no state for
the call. -/
def Accepted (s : Introduction) : Prop := ∀ p ∈ s.promises, p.refused = false

/-- A step in which a handler of a message or the loop fails for a reason of its own: a call of the
browser that fails although the connection was in a state for it, or a channel of the application
that is closed. -/
def failsItself (s : Introduction) : Action → Bool
  | .message none _ _ | .message (some (.offer _)) _ false => true
  | .answer _ none _ | .answer _ _ false => true
  | .resolve i false => !s.promises[i]?.any Promise.refused
  | .receivePeer false => true
  | _ => false

/-- The message is an answer for a connection that has its remote description, or a candidate for
one that has none. -/
def outOfTurn (s : Introduction) : Command → Bool
  | .answer answer => (s.peers answer.nodeId).any (· ∈ s.described)
  | .iceCandidate candidate => (s.peers candidate.nodeId).any (· ∉ s.described)
  | _ => false

namespace Pair

def failsItself (t : Pair) : Action → Bool
  | .status _ _ _ => false
  | .deliver _ _ ok => !ok
  | .own x a => (t.node x).failsItself a

/-- An answer arrives when the connection of its peer has been handed over. -/
def lateAnswer (t : Pair) : Action → Bool
  | .deliver x k _ =>
    match t.pending x k with
    | some (.answer answer) =>
      (t.node x).handedOver answer.nodeId && (t.node x).peers answer.nodeId = none
    | _ => false
  | _ => false

/-- A message arrives that the connection of its peer is in no state for. -/
def outOfTurn (t : Pair) : Action → Bool
  | .deliver x k _ => (t.pending x k).any (t.node x).outOfTurn
  | _ => false

end Pair

section

variable {s s' : Introduction} {k : TaskId} {task : Task}

/-! ### The loop -/

/-- The loop goes on as before, and no handler fails. -/
def SameLoop (s s' : Introduction) : Prop := s'.running = s.running ∧ s'.errorsRx = s.errorsRx

theorem SameLoop.staysUp (h : SameLoop s s') (hs : s.StaysUp) : s'.StaysUp :=
  ⟨h.1.trans hs.1, h.2.trans hs.2⟩

theorem sameLoop_fail (hintro : task.phase.introducing) (err : Error) :
    SameLoop s (s.fail k task err) := by
  rw [fail, if_pos hintro]
  exact ⟨rfl, rfl⟩

theorem sameLoop_sendOffer (hintro : task.phase.introducing) (sdpData : String) (ok : Bool) :
    SameLoop s (s.sendOffer k task sdpData ok) := by
  rw [sendOffer]
  split_ifs
  · exact ⟨rfl, rfl⟩
  · exact sameLoop_fail hintro .js

theorem sameLoop_sendPeer (hrunning : s.running = true) : SameLoop s (s.sendPeer k task) := by
  rw [sendPeer]
  split
  · exact ⟨rfl, rfl⟩
  · dsimp only
    rw [if_pos hrunning]
    exact ⟨rfl, rfl⟩

theorem not_staysUp_raise (s : Introduction) (err : Error) : ¬(s.raise err).StaysUp := by
  rw [raise]
  split_ifs with hrunning
  · exact fun h => List.append_ne_nil_of_right_ne_nil s.errorsRx (List.cons_ne_nil err []) h.2
  · exact fun h => hrunning h.1

/-- A step whose answer finds a connection leaves the loop, unless it fails for a reason of its
own. -/
theorem sameLoop_exec (h : s.StaysUp) (haccepted : s.Accepted) {a : Action}
    (hfine : s.failsItself a = false)
    (hanswer : ∀ answer order ok, a = .message (some (.answer answer)) order ok →
      s.peers answer.nodeId ≠ none)
    (hexec : s.exec a = some s') : SameLoop s s' := by
  cases branch_of_exec hexec with
  | @offer offer order ok =>
    cases ok with
    | true => exact ⟨rfl, rfl⟩
    | false => cases hfine
  | @answered answer order ok =>
    obtain ⟨pc, hpc⟩ := Option.ne_none_iff_exists'.mp (hanswer answer order ok rfl)
    rw [handleAnswer, hpc]
    exact ⟨rfl, rfl⟩
  | iceCandidate =>
    rw [handleIceCandidate]
    split
    · exact ⟨rfl, rfl⟩
    · exact ⟨rfl, rfl⟩
  | undescribed _ hphase => exact sameLoop_fail (by rw [hphase]; rfl) .js
  | described => exact sameLoop_sendOffer rfl _ _
  | retried _ hphase => exact sameLoop_sendOffer (by rw [hphase]; rfl) _ _
  | @answerFailed _ _ _ sdpData _ _ _ hfails =>
    obtain rfl | rfl := hfails
    · cases hfine
    · cases sdpData with
      | none => cases hfine
      | some sdpData => cases hfine
  | opened => exact sameLoop_sendPeer h.1
  | foundCandidate =>
    rw [foundCandidate]
    split_ifs
    · exact ⟨rfl, rfl⟩
    · exact ⟨rfl, rfl⟩
  | failed _ hrx =>
    -- no error is on its way
    rw [h.2] at hrx
    cases hrx
  | @rejected i hi =>
    -- the rejection is no failure of its own, but no promise is refused
    rw [failsItself, Bool.not_eq_false', Option.any_eq_true] at hfine
    obtain ⟨p, hp, hrefused⟩ := hfine
    rw [haccepted p (List.mem_of_getElem? hp)] at hrefused
    cases hrefused
  | unread | dropped => cases hfine
  | sessionStatus | join | answerSent | resolved | received | done | doneDropped =>
    exact ⟨rfl, rfl⟩

/-! ### Calls of the browser -/

@[simp] theorem promises_raise (s : Introduction) (err : Error) :
    (s.raise err).promises = s.promises := by
  rw [raise]
  split_ifs <;> rfl

@[simp] theorem promises_fail (s : Introduction) (k : TaskId) (task : Task) (err : Error) :
    (s.fail k task err).promises = s.promises := by
  rw [fail]
  split_ifs
  · rfl
  · exact promises_raise _ err

@[simp] theorem promises_sendOffer (s : Introduction) (k : TaskId) (task : Task)
    (sdpData : String) (ok : Bool) : (s.sendOffer k task sdpData ok).promises = s.promises := by
  rw [sendOffer]
  split_ifs
  · rfl
  · exact promises_fail s k task .js

@[simp] theorem promises_sendPeer (s : Introduction) (k : TaskId) (task : Task) :
    (s.sendPeer k task).promises = s.promises := by
  rw [sendPeer]
  split
  · rfl
  · dsimp only
    split_ifs
    · rfl
    · exact promises_fail _ k task .rust

/-- The browser is called upon a promise of a handler only when a message arrives. -/
theorem promises_subset {a : Action} (hmessage : a.isMessage = false)
    (hexec : s.exec a = some s') : s'.promises ⊆ s.promises := by
  cases branch_of_exec hexec with
  | sessionStatus | offer | answered | iceCandidate | join | unread => cases hmessage
  | undescribed | answerFailed => rw [promises_fail]; exact fun _ => id
  | described | retried => rw [promises_sendOffer]; exact fun _ => id
  | opened => rw [promises_sendPeer]; exact fun _ => id
  | foundCandidate =>
    rw [foundCandidate]
    split_ifs
    · exact fun _ => id
    · exact fun _ => id
  | resolved => exact List.eraseIdx_subset
  | rejected => rw [promises_raise]; exact List.eraseIdx_subset
  | answerSent | received | dropped | failed | done | doneDropped => exact fun _ => id

theorem Accepted.of_promises (h : s.Accepted) (heq : s'.promises = s.promises) : s'.Accepted :=
  fun p hp => h p (heq ▸ hp)

theorem Accepted.append_iff (h : s.Accepted) {p : Promise}
    (heq : s'.promises = s.promises ++ [p]) : s'.Accepted ↔ p.refused = false := by
  rw [Accepted, heq, List.forall_mem_append, List.forall_mem_singleton]
  exact and_iff_right h

/-- A message leaves a promise that the browser rejects exactly if it comes out of turn. -/
theorem accepted_iff_of_message (h : s.Accepted) {cmd : Command} {order : List Introducer.NodeId}
    {ok : Bool} (hexec : s.exec (.message (some cmd) order ok) = some s') :
    s'.Accepted ↔ s.outOfTurn cmd = false := by
  cases branch_of_exec hexec with
  | sessionStatus | join => exact iff_of_true (h.of_promises rfl) rfl
  | offer =>
    refine iff_of_true (h.of_promises ?_) rfl
    cases ok with
    | true => rfl
    | false => exact promises_raise s .js
  | @answered answer =>
    rw [outOfTurn, handleAnswer]
    split
    · rename_i pc hpc
      rw [h.append_iff rfl, hpc]
      rfl
    · rename_i hpc
      exact iff_of_true (h.of_promises (promises_raise s _)) (by rw [hpc]; rfl)
  | @iceCandidate candidate =>
    rw [outOfTurn, handleIceCandidate]
    split
    · rename_i pc hpc
      rw [h.append_iff rfl, hpc]
      rfl
    · rename_i hpc
      exact iff_of_true h (by rw [hpc]; rfl)

/-! ### Where answers come from -/

/-- The node has a connection with the peer, or has handed it over. -/
def Known (s : Introduction) (peerId : Introducer.NodeId) : Prop :=
  s.peers peerId ≠ none ∨ s.handedOver peerId

/-- The node answers an offer, or has answered one. -/
def Responds (s : Introduction) : Prop :=
  (∃ x ∈ s.tasks, ∃ sdpData, x.phase = .answering sdpData) ∨ ∃ answer, .answer answer ∈ s.sent

/-- Offers are made when there is a connection, and answers are signed. -/
structure Traced (s : Introduction) : Prop where
  offers : ∀ offer, .offer offer ∈ s.sent → s.Known offer.targetId
  offering : ∀ x ∈ s.tasks, ∀ sdpData, x.phase = .offering sdpData → s.Known x.peerId
  answers : ∀ answer, .answer answer ∈ s.sent → answer.nodeId = s.nodeId

theorem handedOver_iff {p : Introducer.NodeId} : s.handedOver p ↔
    ∃ e ∈ s.taken, ∃ x, s.tasks[e.1]? = some x ∧ x.peerId = p := by
  simp only [handedOver, List.any_eq_true, Option.any_eq_true, decide_eq_true_eq]

/-- A part of a step that no task offers or answers in, and that forgets no connection. -/
structure Goes (s s' : Introduction) : Prop where
  nodeId : s'.nodeId = s.nodeId
  sent : ∀ cmd ∈ s.sent, cmd ∈ s'.sent
  traced : s.Traced → s'.Traced
  responds : s'.Responds → s.Responds

theorem Goes.trans {s'' : Introduction} (h : Goes s s') (h' : Goes s' s'') : Goes s s'' where
  nodeId := h'.nodeId.trans h.nodeId
  sent cmd hcmd := h'.sent cmd (h.sent cmd hcmd)
  traced hs := h'.traced (h.traced hs)
  responds hs := h.responds (h'.responds hs)

theorem Goes.of_eq (hnode : s'.nodeId = s.nodeId) (hsent : s'.sent = s.sent)
    (htasks : s'.tasks = s.tasks) (hpeers : s'.peers = s.peers) (htaken : s'.taken = s.taken) :
    Goes s s' where
  nodeId := hnode
  sent _ hcmd := hsent ▸ hcmd
  traced h := by
    have hknown : s'.Known = s.Known := by
      funext p
      rw [Known, Known, handedOver, handedOver, hpeers, htasks, htaken]
    exact ⟨by rw [hsent, hknown]; exact h.offers, by rw [htasks, hknown]; exact h.offering,
      by rw [hsent, hnode]; exact h.answers⟩
  responds h := by rwa [Responds, htasks, hsent] at h

theorem goes_raise (s : Introduction) (err : Error) : Goes s (s.raise err) := by
  rw [raise]
  split_ifs
  · exact .of_eq rfl rfl rfl rfl rfl
  · exact .of_eq rfl rfl rfl rfl rfl

theorem handedOver_setPhase (htask : s.tasks[k]? = some task) (phase : Phase) :
    (s.setPhase k task phase).handedOver = s.handedOver := by
  have htasks : ∀ (j : TaskId) (p : Introducer.NodeId),
      ((s.setPhase k task phase).tasks[j]?).any (fun x : Task => x.peerId = p) =
        (s.tasks[j]?).any (fun x : Task => x.peerId = p) := by
    intro j p
    rw [setPhase, List.getElem?_set]
    split_ifs with hkj hlt
    · rw [← hkj, htask]
      rfl
    · exact absurd (List.getElem?_eq_some_iff.mp htask).1 (by omega)
    · rfl
  funext p
  exact congrArg (s.taken.any ·) (funext fun e => htasks e.1 p)

theorem known_setPhase (htask : s.tasks[k]? = some task) (phase : Phase) :
    (s.setPhase k task phase).Known = s.Known := by
  funext p
  rw [Known, Known, handedOver_setPhase htask]
  rfl

/-- A task moves on, and offers and answers at a known peer only. -/
theorem traced_setPhase (h : s.Traced) (htask : s.tasks[k]? = some task) {phase : Phase}
    (hoffering : ∀ sdpData, phase = .offering sdpData → s.Known task.peerId) :
    (s.setPhase k task phase).Traced := by
  have hknown := known_setPhase htask phase
  refine ⟨by rw [hknown]; exact h.offers, fun x hx sdpData hphase => ?_, h.answers⟩
  rw [hknown]
  rcases List.mem_or_eq_of_mem_set hx with hx | rfl
  · exact h.offering x hx sdpData hphase
  · exact hoffering sdpData hphase

theorem responds_of_setPhase {phase : Phase} (hanswering : ∀ sdpData, phase ≠ .answering sdpData)
    (h : (s.setPhase k task phase).Responds) : s.Responds := by
  refine h.imp_left ?_
  rintro ⟨x, hx, sdpData, hphase⟩
  rcases List.mem_or_eq_of_mem_set hx with hx | rfl
  · exact ⟨x, hx, sdpData, hphase⟩
  · exact absurd hphase (hanswering sdpData)

/-- A task moves on, to no place where it offers or answers. -/
theorem goes_setPhase (htask : s.tasks[k]? = some task) {phase : Phase}
    (hoffering : ∀ sdpData, phase ≠ .offering sdpData)
    (hanswering : ∀ sdpData, phase ≠ .answering sdpData) : Goes s (s.setPhase k task phase) where
  nodeId := rfl
  sent _ := id
  traced h := traced_setPhase h htask fun sdpData hphase => absurd hphase (hoffering sdpData)
  responds := responds_of_setPhase hanswering

theorem goes_fail (htask : s.tasks[k]? = some task) (err : Error) : Goes s (s.fail k task err) := by
  have hphase : Goes s (s.setPhase k task (.returned false)) :=
    goes_setPhase htask (fun _ h => by cases h) (fun _ h => by cases h)
  rw [fail]
  split_ifs
  · exact hphase
  · exact hphase.trans (goes_raise _ err)

/-- A command is sent that is no answer, and no offer to an unknown peer. -/
theorem goes_send {cmd : Command} (hanswer : ∀ answer, cmd ≠ .answer answer)
    (hoffer : ∀ offer, cmd = .offer offer → s.Traced → s.Known offer.targetId) :
    Goes s { s with sent := s.sent ++ [cmd] } := by
  have hold : ∀ answer, .answer answer ∈ s.sent ++ [cmd] → .answer answer ∈ s.sent := by
    intro answer ha
    rcases List.mem_append.mp ha with ha | ha
    · exact ha
    · exact absurd (List.mem_singleton.mp ha).symm (hanswer answer)
  refine ⟨rfl, fun _ => List.mem_append_left _, fun h => ⟨fun offer ho => ?_, h.offering,
    fun answer ha => h.answers answer (hold answer ha)⟩, fun h => h.imp_right ?_⟩
  · rcases List.mem_append.mp ho with ho | ho
    · exact h.offers offer ho
    · exact hoffer offer (List.mem_singleton.mp ho).symm h
  · rintro ⟨answer, ha⟩
    exact ⟨answer, hold answer ha⟩

/-- An offer to a known peer. -/
theorem goes_sendOffer (htask : s.tasks[k]? = some task)
    (hknown : s.Traced → s.Known task.peerId) (sdpData : String) (ok : Bool) :
    Goes s (s.sendOffer k task sdpData ok) := by
  rw [sendOffer]
  split_ifs
  · refine goes_send (fun answer h => by cases h) fun offer heq h => ?_
    obtain rfl := Command.offer.inj heq
    exact hknown h
  · exact goes_fail htask .js

/-- A connection is inserted. -/
theorem traced_insertPeer (h : s.Traced) (peerId : Introducer.NodeId) (pc : ConnId) :
    (s.insertPeer peerId pc).Traced := by
  have hknown : ∀ p, s.Known p → (s.insertPeer peerId pc).Known p := by
    rintro p (hp | hp)
    · refine .inl ?_
      change Function.update s.peers peerId (some pc) p ≠ none
      by_cases hpk : p = peerId
      · rw [hpk, Function.update_self]
        exact Option.some_ne_none pc
      · rwa [Function.update_of_ne hpk]
    · exact .inr hp
  exact ⟨fun offer ho => hknown _ (h.offers offer ho),
    fun x hx sdpData hphase => hknown _ (h.offering x hx sdpData hphase), h.answers⟩

/-- A connection is inserted, by a task that then offers it. -/
theorem goes_insertPeer (htask : s.tasks[k]? = some task) (sdpData : String) :
    Goes s ((s.insertPeer task.peerId k).setPhase k task (.offering sdpData)) := by
  refine ⟨rfl, fun _ => id, fun h => ?_, responds_of_setPhase (fun _ h => by cases h)⟩
  refine traced_setPhase (traced_insertPeer h task.peerId k) htask fun _ _ => .inl ?_
  change Function.update s.peers task.peerId (some k) task.peerId ≠ none
  rw [Function.update_self]
  exact Option.some_ne_none k

/-- A task hands its connection over. -/
theorem goes_sendPeer (htask : s.tasks[k]? = some task) : Goes s (s.sendPeer k task) := by
  have hreturned : ∀ ok, Goes s (s.setPhase k task (.returned ok)) :=
    fun ok => goes_setPhase htask (fun _ h => by cases h) (fun _ h => by cases h)
  -- the peer stays known: its connection is on record as taken
  have htake : ∀ pc, Goes s { s with
      peers := Function.update s.peers task.peerId none
      taken := s.taken ++ [(k, pc)] } := by
    intro pc
    refine ⟨rfl, fun _ => id, fun h => ?_, id⟩
    have hknown : ∀ p, s.Known p → Known { s with
        peers := Function.update s.peers task.peerId none
        taken := s.taken ++ [(k, pc)] } p := by
      intro p hp
      by_cases hpk : p = task.peerId
      · refine .inr (handedOver_iff.mpr ⟨(k, pc), ?_, task, htask, hpk.symm⟩)
        exact List.mem_append_right _ List.mem_cons_self
      · rcases hp with hp | hp
        · refine .inl ?_
          change Function.update s.peers task.peerId none p ≠ none
          rwa [Function.update_of_ne hpk]
        · obtain ⟨e, he, hx⟩ := handedOver_iff.mp hp
          exact .inr (handedOver_iff.mpr ⟨e, List.mem_append_left _ he, hx⟩)
    exact ⟨fun offer ho => hknown _ (h.offers offer ho),
      fun x hx sdpData hphase => hknown _ (h.offering x hx sdpData hphase), h.answers⟩
  rw [sendPeer]
  split
  · have hpanicked : Goes s (s.setPhase k task .panicked) :=
      goes_setPhase htask (fun _ h => by cases h) (fun _ h => by cases h)
    exact hpanicked.trans (.of_eq rfl rfl rfl rfl rfl)
  · rename_i pc _
    refine (htake pc).trans ?_
    dsimp only
    set t : Introduction := { s with
      peers := Function.update s.peers task.peerId none
      taken := s.taken ++ [(k, pc)] }
    have htask' : t.tasks[k]? = some task := htask
    split_ifs
    · have hmoved : Goes t (t.setPhase k task (.returned true)) :=
        goes_setPhase htask' (fun _ h => by cases h) (fun _ h => by cases h)
      exact hmoved.trans (.of_eq rfl rfl rfl rfl rfl)
    · exact goes_fail htask' .rust

/-- A task answers the offer that it was made for. -/
theorem goes_sendAnswer {offered sdpData : String} (htask : s.tasks[k]? = some task)
    (hphase : task.phase = .answering offered) :
    Goes s { s.setPhase k task .awaitingChannel with
      sent := s.sent ++ [.answer
        { sessionId := s.sessionId, nodeId := s.nodeId, targetId := task.peerId, sdpData }] } := by
  have hmoved : Goes s (s.setPhase k task .awaitingChannel) :=
    goes_setPhase htask (fun _ h => by cases h) (fun _ h => by cases h)
  refine ⟨rfl, fun _ => List.mem_append_left _, fun h => ?_, fun _ =>
    .inl ⟨task, List.mem_of_getElem? htask, offered, hphase⟩⟩
  have htraced := hmoved.traced h
  refine ⟨fun offer ho => ?_, htraced.offering, fun answer ha => ?_⟩
  · rcases List.mem_append.mp ho with ho | ho
    · exact htraced.offers offer ho
    · cases List.mem_singleton.mp ho
  · rcases List.mem_append.mp ha with ha | ha
    · exact htraced.answers answer ha
    · obtain rfl := Command.answer.inj (List.mem_singleton.mp ha)
      rfl

/-- More tasks, of which none offers. -/
theorem traced_append (h : s.Traced) {new : List Task}
    (hnew : ∀ x ∈ new, ∀ sdpData, x.phase ≠ .offering sdpData) :
    Traced { s with tasks := s.tasks ++ new } := by
  have hknown : ∀ p, s.Known p → Known { s with tasks := s.tasks ++ new } p := by
    rintro p (hp | hp)
    · exact .inl hp
    · obtain ⟨e, he, x, hx, hxp⟩ := handedOver_iff.mp hp
      refine .inr (handedOver_iff.mpr ⟨e, he, x, ?_, hxp⟩)
      exact (List.getElem?_append_left (List.getElem?_eq_some_iff.mp hx).1).trans hx
  refine ⟨fun offer ho => hknown _ (h.offers offer ho), fun x hx sdpData hphase => ?_, h.answers⟩
  rcases List.mem_append.mp hx with hx | hx
  · exact hknown _ (h.offering x hx sdpData hphase)
  · exact absurd hphase (hnew x hx sdpData)

/-- An offer arrives. -/
theorem traced_handleOffer (h : s.Traced) (offer : Offer) (ok : Bool) :
    (s.handleOffer offer ok).Traced ∧ (s.handleOffer offer ok).sent = s.sent ∧
      (s.handleOffer offer ok).nodeId = s.nodeId := by
  cases ok with
  | true =>
    refine ⟨?_, rfl, rfl⟩
    have hinserted := traced_insertPeer h offer.nodeId s.tasks.length
    have hnew : ∀ x ∈ [Task.mk offer.nodeId (.answering offer.sdpData)], ∀ sdpData,
        x.phase ≠ .offering sdpData := by
      intro x hx sdpData hphase
      rw [List.mem_singleton.mp hx] at hphase
      cases hphase
    have happended := traced_append hinserted hnew
    exact ⟨happended.offers, happended.offering, happended.answers⟩
  | false =>
    have hraise := goes_raise s .js
    refine ⟨hraise.traced h, ?_, hraise.nodeId⟩
    change (s.raise .js).sent = s.sent
    rw [raise]
    split_ifs <;> rfl

/-- Introductions start, which offer nothing yet. -/
theorem goes_start (order : List Introducer.NodeId) : Goes s
    { s with tasks := s.tasks ++ order.map fun peerId => { peerId, phase := .describing } } := by
  refine ⟨rfl, fun _ => id, fun h => traced_append h fun x hx sdpData hphase => ?_, fun h =>
    h.imp_left ?_⟩
  · obtain ⟨p, -, rfl⟩ := List.mem_map.mp hx
    cases hphase
  · rintro ⟨x, hx, sdpData, hphase⟩
    rcases List.mem_append.mp hx with hx | hx
    · exact ⟨x, hx, sdpData, hphase⟩
    · obtain ⟨p, -, rfl⟩ := List.mem_map.mp hx
      cases hphase

/-- **Step lemma.** Answers come from offers, and offers from connections. -/
theorem goes_exec {a : Action}
    (hoffer : ∀ offer order ok, a ≠ .message (some (.offer offer)) order ok)
    (hexec : s.exec a = some s') : Goes s s' := by
  cases branch_of_exec hexec with
  | sessionStatus => exact goes_start _
  | @offer offer order ok => exact absurd rfl (hoffer offer order ok)
  | answered =>
    rw [handleAnswer]
    split
    · exact .of_eq rfl rfl rfl rfl rfl
    · exact goes_raise s _
  | iceCandidate =>
    rw [handleIceCandidate]
    split
    · exact .of_eq rfl rfl rfl rfl rfl
    · exact .of_eq rfl rfl rfl rfl rfl
  | unread => exact goes_raise s _
  | undescribed htask => exact goes_fail htask .js
  | @described k task sdpData ok htask =>
    have hlt := (List.getElem?_eq_some_iff.mp htask).1
    -- the connection is inserted before the offer is made
    refine (goes_insertPeer htask sdpData).trans (goes_sendOffer ?_ (fun h => ?_) sdpData ok)
    · exact List.getElem?_set_self hlt
    · exact h.offering _ (List.mem_of_getElem? (List.getElem?_set_self hlt)) sdpData rfl
  | @retried k task sdpData ok htask hphase =>
    exact goes_sendOffer htask
      (fun h => h.offering task (List.mem_of_getElem? htask) sdpData hphase) _ ok
  | answerSent htask hphase => exact goes_sendAnswer htask hphase
  | answerFailed htask => exact goes_fail htask .js
  | opened htask => exact goes_sendPeer htask
  | foundCandidate =>
    rw [foundCandidate]
    split_ifs
    · exact goes_send (fun answer h => by cases h) fun offer h => by cases h
    · exact .of_eq rfl rfl rfl rfl rfl
  | @rejected i =>
    have herase : Goes s { s with promises := s.promises.eraseIdx i } :=
      .of_eq rfl rfl rfl rfl rfl
    exact herase.trans (goes_raise _ .js)
  | join | resolved | received | dropped | failed | done | doneDropped =>
    exact .of_eq rfl rfl rfl rfl rfl

end

/-! ### Two nodes -/

namespace Pair

/-- Who answers was offered a connection. -/
structure Inv (t : Pair) : Prop where
  traced : ∀ x, (t.node x).Traced
  responds : ∀ x, (t.node x).Responds → ∃ offer, .offer offer ∈ (t.node x.other).sent ∧
    offer.targetId = (t.node x).nodeId

theorem inv_joined (ids : Side → Introducer.NodeId) (sessionId : SessionId) :
    (joined ids sessionId).Inv := by
  have hsent : ∀ x, ((joined ids sessionId).node x).sent = [.join ⟨ids x, sessionId⟩] :=
    fun _ => rfl
  refine ⟨fun x => ⟨fun offer ho => ?_, fun y hy => ?_, fun answer ha => ?_⟩, fun x hx => ?_⟩
  · cases List.mem_singleton.mp ho
  · cases hy
  · cases List.mem_singleton.mp ha
  · rcases hx with ⟨y, hy, -⟩ | ⟨answer, ha⟩
    · cases hy
    · cases List.mem_singleton.mp ha

variable {t t' : Pair} {x : Side} {s : Introduction}

theorem Inv.update (h : t.Inv) (htraced : s.Traced) (hnode : s.nodeId = (t.node x).nodeId)
    (hsent : ∀ cmd ∈ (t.node x).sent, cmd ∈ s.sent)
    (hresponds : s.Responds → ∃ offer, .offer offer ∈ (t.node x.other).sent ∧
      offer.targetId = (t.node x).nodeId)
    (ht' : t'.node = Function.update t.node x s) : t'.Inv := by
  have hself : t'.node x = s := by rw [ht', Function.update_self]
  have hother : ∀ y, y ≠ x → t'.node y = t.node y := fun y hy => by
    rw [ht', Function.update_of_ne hy]
  refine ⟨fun y => ?_, fun y hy => ?_⟩
  · by_cases hyx : y = x
    · rw [hyx, hself]
      exact htraced
    · rw [hother y hyx]
      exact h.traced y
  · by_cases hyx : y = x
    · subst hyx
      rw [hself] at hy ⊢
      rw [hother y.other y.other_ne, hnode]
      exact hresponds hy
    · rw [hother y hyx] at hy ⊢
      obtain ⟨offer, ho, htarget⟩ := h.responds y hy
      obtain rfl : x = y.other := Side.eq_other (Ne.symm hyx)
      rw [hself]
      exact ⟨offer, hsent _ ho, htarget⟩

theorem Inv.goes (h : t.Inv) (hgoes : Goes (t.node x) s)
    (ht' : t'.node = Function.update t.node x s) : t'.Inv :=
  h.update (hgoes.traced (h.traced x)) hgoes.nodeId hgoes.sent
    (fun hs => h.responds x (hgoes.responds hs)) ht'

/-- A message that may arrive was sent to the node by the other. -/
theorem of_pending {k : ℕ} {cmd : Command} (h : t.pending x k = some cmd) :
    cmd ∈ (t.node x.other).sent ∧
      Introducer.Socket.forwards ((t.node x).nodeId, (t.node x).sessionId) cmd = true := by
  rw [pending] at h
  split_ifs at h
  obtain ⟨hget, hforwards⟩ := Option.filter_eq_some_iff.mp h
  exact ⟨List.mem_of_getElem? hget, hforwards⟩

theorem of_exec_own {a : Introduction.Action} (h : t.exec (.own x a) = some t') :
    (∀ msg order ok, a ≠ .message msg order ok) ∧
      ∃ s, (t.node x).exec a = some s ∧ t' = t.setNode x s := by
  rw [exec] at h
  split_ifs at h with ha
  obtain ⟨s, hs, rfl⟩ := Option.map_eq_some_iff.mp h
  refine ⟨?_, s, hs, rfl⟩
  rintro msg order ok rfl
  exact ha rfl

theorem Inv.exec (h : t.Inv) {a : Action} (hexec : t.exec a = some t') : t'.Inv := by
  cases a with
  | status x session order =>
    obtain ⟨s, hs, rfl⟩ := Option.map_eq_some_iff.mp hexec
    exact h.goes (goes_exec (fun offer order ok heq => by cases heq) hs) rfl
  | deliver x k ok =>
    rw [Pair.exec] at hexec
    split at hexec
    · rename_i cmd hcmd
      obtain ⟨s, hs, rfl⟩ := Option.map_eq_some_iff.mp hexec
      obtain ⟨hsent, hforwards⟩ := of_pending hcmd
      by_cases hoffer : ∃ offer, cmd = .offer offer
      · obtain ⟨offer, rfl⟩ := hoffer
        obtain rfl := Option.some.inj hs
        obtain ⟨htraced, hsame, hnode⟩ := traced_handleOffer (h.traced x) offer ok
        exact h.update htraced hnode (fun _ hc => hsame ▸ hc)
          (fun _ => ⟨offer, hsent, (of_decide_eq_true hforwards).2⟩) rfl
      · refine h.goes (goes_exec (fun offer order ok heq => hoffer ⟨offer, ?_⟩) hs) rfl
        cases heq
        rfl
    · cases hexec
  | own x a =>
    obtain ⟨hmessage, s, hs, rfl⟩ := of_exec_own hexec
    exact h.goes (goes_exec (fun offer order ok => hmessage _ order ok) hs) rfl

/-- An answer that finds no connection comes when the connection has been handed over. -/
theorem Inv.handedOver (h : t.Inv) {k : ℕ} {answer : Offer}
    (hpending : t.pending x k = some (.answer answer))
    (hpeer : (t.node x).peers answer.nodeId = none) :
    (t.node x).handedOver answer.nodeId = true := by
  obtain ⟨hsent, -⟩ := of_pending hpending
  obtain ⟨offer, ho, htarget⟩ := h.responds x.other (.inr ⟨answer, hsent⟩)
  rw [Side.other_other] at ho
  rcases (h.traced x).offers offer ho with hknown | hknown
  · rw [htarget, ← (h.traced x.other).answers answer hsent] at hknown
    exact absurd hpeer hknown
  · rwa [htarget, ← (h.traced x.other).answers answer hsent] at hknown

/-! ### Runs -/

/-- The loops of both nodes run, and no handler of a message has returned an error. -/
def StaysUp (t : Pair) : Prop := ∀ x, (t.node x).StaysUp

theorem staysUp_of_node (h : t.StaysUp) (hs : s.StaysUp)
    (ht' : t'.node = Function.update t.node x s) : t'.StaysUp := by
  intro y
  rw [ht']
  by_cases hyx : y = x
  · subst hyx
    rwa [Function.update_self]
  · rw [Function.update_of_ne hyx]
    exact h y

/-- No handler of either node waits for a promise that the browser rejects. -/
def Accepted (t : Pair) : Prop := ∀ x, (t.node x).Accepted

/-- The browser is bound to reject a promise, which is an error of its handler. -/
def Doomed (t : Pair) : Prop :=
  ∃ x i t', t.failsItself (.own x (.resolve i false)) = false ∧
    t.exec (.own x (.resolve i false)) = some t' ∧ ¬t'.StaysUp

theorem accepted_setNode_iff (h : t.Accepted) (ht' : t'.node = Function.update t.node x s) :
    t'.Accepted ↔ s.Accepted := by
  refine ⟨fun h' => ?_, fun hs y => ?_⟩
  · have hx := h' x
    rwa [ht', Function.update_self] at hx
  · rw [ht']
    by_cases hyx : y = x
    · subst hyx
      rwa [Function.update_self]
    · rw [Function.update_of_ne hyx]
      exact h y

theorem not_staysUp_of_node (hs : ¬s.StaysUp) (ht' : t'.node = Function.update t.node x s) :
    ¬t'.StaysUp := by
  intro h
  have hx := h x
  rw [ht', Function.update_self] at hx
  exact hs hx

theorem doomed_iff : t.Doomed ↔ ¬t.Accepted := by
  constructor
  · rintro ⟨x, i, t', hfine, -, -⟩ haccepted
    have hrefused : (t.node x).promises[i]?.any Promise.refused = true := by
      simpa [failsItself, Introduction.failsItself] using hfine
    obtain ⟨p, hp, hp'⟩ := (Option.any_eq_true _ _).mp hrefused
    rw [haccepted x p (List.mem_of_getElem? hp)] at hp'
    cases hp'
  · intro h
    simp only [Accepted, Introduction.Accepted, not_forall, Bool.not_eq_false] at h
    obtain ⟨x, p, hp, hrefused⟩ := h
    obtain ⟨i, hi⟩ := List.mem_iff_getElem?.mp hp
    have hlt : i < (t.node x).promises.length := (List.getElem?_eq_some_iff.mp hi).1
    refine ⟨x, i, t.setNode x (raise { t.node x with
      promises := (t.node x).promises.eraseIdx i } .js), ?_, ?_, ?_⟩
    · simp [failsItself, Introduction.failsItself, hi, hrefused]
    · simp [Pair.exec, Action.isMessage, Introduction.exec, resolve, hlt]
    · exact not_staysUp_of_node (not_staysUp_raise _ _) rfl

/-- A step that is no late answer. -/
theorem StaysUp.exec (h : t.StaysUp) (hinv : t.Inv) (haccepted : t.Accepted) {a : Action}
    (hfine : t.failsItself a = false) (hlate : t.lateAnswer a = false)
    (hexec : t.exec a = some t') : t'.StaysUp := by
  cases a with
  | status x session order =>
    obtain ⟨s, hs, rfl⟩ := Option.map_eq_some_iff.mp hexec
    have hloop := sameLoop_exec (h x) (haccepted x) rfl (fun answer order ok heq => by cases heq) hs
    exact staysUp_of_node h (hloop.staysUp (h x)) rfl
  | deliver x k ok =>
    obtain rfl : ok = true := by simpa [failsItself] using hfine
    rw [lateAnswer] at hlate
    rw [Pair.exec] at hexec
    split at hexec
    · rename_i cmd hcmd
      obtain ⟨s, hs, rfl⟩ := Option.map_eq_some_iff.mp hexec
      rw [hcmd] at hlate
      refine staysUp_of_node h ?_ rfl
      have hloop : SameLoop (t.node x) s := by
        refine sameLoop_exec (h x) (haccepted x) ?_ (fun answer order ok heq hpeer => ?_) hs
        · cases cmd <;> rfl
        · cases heq
          simp [hinv.handedOver hcmd hpeer, hpeer] at hlate
      exact hloop.staysUp (h x)
    · cases hexec
  | own x a =>
    obtain ⟨hmessage, s, hs, rfl⟩ := of_exec_own hexec
    have hloop := sameLoop_exec (h x) (haccepted x) hfine
      (fun answer order ok heq => absurd heq (hmessage _ order ok)) hs
    exact staysUp_of_node h (hloop.staysUp (h x)) rfl

/-- A late answer is an error. -/
theorem not_staysUp_of_lateAnswer {a : Action} (hlate : t.lateAnswer a = true)
    (hexec : t.exec a = some t') : ¬t'.StaysUp := by
  rw [lateAnswer.eq_def] at hlate
  split at hlate
  · rename_i x k ok
    split at hlate
    · rename_i answer hpending
      obtain ⟨-, hpeer⟩ := Bool.and_eq_true_iff.mp hlate
      rw [Pair.exec, hpending] at hexec
      obtain ⟨s, hs, rfl⟩ := Option.map_eq_some_iff.mp hexec
      obtain rfl := Option.some.inj hs
      refine not_staysUp_of_node ?_ rfl
      rw [handleAnswer, of_decide_eq_true hpeer]
      exact not_staysUp_raise _ _
    · cases hlate
  · cases hlate

/-- A step leaves a promise that the browser rejects exactly if it is a message out of turn. -/
theorem Accepted.exec_iff (h : t.Accepted) {a : Action} (hexec : t.exec a = some t') :
    t'.Accepted ↔ t.outOfTurn a = false := by
  cases a with
  | status x session order =>
    obtain ⟨s, hs, rfl⟩ := Option.map_eq_some_iff.mp hexec
    rw [accepted_setNode_iff h rfl]
    exact accepted_iff_of_message (h x) hs
  | deliver x k ok =>
    rw [Pair.exec] at hexec
    split at hexec
    · rename_i cmd hcmd
      obtain ⟨s, hs, rfl⟩ := Option.map_eq_some_iff.mp hexec
      rw [accepted_setNode_iff h rfl, accepted_iff_of_message (h x) hs, outOfTurn, hcmd]
      rfl
    · cases hexec
  | own x a =>
    obtain ⟨hmessage, s, hs, rfl⟩ := of_exec_own hexec
    refine iff_of_true ((accepted_setNode_iff h rfl).mpr fun p hp => h x p ?_) rfl
    refine promises_subset ?_ hs hp
    cases a with
    | message msg order ok => exact absurd rfl (hmessage msg order ok)
    | _ => rfl

/-- **Late signalling.** In a run in which nothing fails of its own and in which no answer comes
late and no message out of turn, both loops stay up, whatever else comes late. The next step keeps
them up exactly if it is no late answer, and it leaves a promise whose rejection ends a loop exactly
if it is a message out of turn. -/
theorem staysUp_iff {ids : Side → Introducer.NodeId} {sessionId : SessionId} {r : List Pair}
    (hr : IsRunWhere ids sessionId (fun t a => t.failsItself a = false ∧
      t.lateAnswer a = false ∧ t.outOfTurn a = false) (t :: r)) :
    (∀ u ∈ t :: r, u.StaysUp) ∧ ∀ a t', t.failsItself a = false → t.exec a = some t' →
      (t'.StaysUp ↔ t.lateAnswer a = false) ∧ (t'.Doomed ↔ t.outOfTurn a = true) := by
  have hinv : ∀ u ∈ t :: r, u.Inv ∧ u.StaysUp ∧ u.Accepted := by
    refine TransitionSystem.IsRun.invariant ?_ ?_ hr
    · rintro u rfl
      exact ⟨inv_joined ids sessionId, fun _ => ⟨rfl, rfl⟩,
        fun _ _ hp => absurd hp List.not_mem_nil⟩
    · rintro u u' ⟨hinv, hup, haccepted⟩ ⟨a, ⟨hfine, hlate, hturn⟩, hexec⟩
      exact ⟨hinv.exec hexec, hup.exec hinv haccepted hfine hlate hexec,
        (haccepted.exec_iff hexec).mpr hturn⟩
  obtain ⟨htinv, hup, haccepted⟩ := hinv t List.mem_cons_self
  refine ⟨fun u hu => (hinv u hu).2.1, fun a t' hfine hexec =>
    ⟨⟨fun h' => ?_, fun hlate => ?_⟩, ?_⟩⟩
  · by_contra hlate
    exact not_staysUp_of_lateAnswer (by simpa using hlate) hexec h'
  · exact hup.exec htinv haccepted hfine hlate hexec
  · rw [doomed_iff, haccepted.exec_iff hexec, Bool.not_eq_false]

/-- The ids of two nodes. -/
def oneTwo : Side → Introducer.NodeId
  | .left => 1
  | .right => 2

/-- Node `1` repeats its offer, is answered, gets a candidate and hands the connection over; then
another candidate arrives. -/
def lateCandidate : List Action :=
  [.status .left { sessionId := 7, online := {1, 2} } [2],
    .own .left (.describe 0 (some "offer") true),
    .own .left (.retry 0 true), .deliver .right 1 true,
    .own .right (.answer 0 (some "answer") true),
    .own .right (.foundCandidate 0 "candidate" none true),
    .own .right (.foundCandidate 0 "candidate'" none true),
    .deliver .left 1 true, .deliver .left 2 true,
    .own .left (.resolve 0 true), .own .left (.resolve 0 true),
    .own .right (.opened 0), .own .right (.receivePeer true),
    .own .left (.opened 0), .own .left (.receivePeer true), .deliver .left 3 true]

theorem staysUp_iff_lateCandidate : ∃ (t : Pair) (r : List Pair),
    IsRunWhere oneTwo 7 (fun t a => t.failsItself a = false ∧
      t.lateAnswer a = false ∧ t.outOfTurn a = false) (t :: r) ∧
    (t.node .left).handedOver 2 = true ∧ t.arrived .left = [3, 2, 1] ∧
    (∀ u ∈ t :: r, u.StaysUp) ∧ ∀ a t', t.failsItself a = false → t.exec a = some t' →
      (t'.StaysUp ↔ t.lateAnswer a = false) ∧ (t'.Doomed ↔ t.outOfTurn a = true) := by
  obtain ⟨r, -, hr, hf⟩ := TransitionSystem.exists_run_of_play (· = joined oneTwo 7) exec
    (fun t a => t.failsItself a || (t.lateAnswer a || t.outOfTurn a)) rfl lateCandidate
    (fun r => r.head?.any fun t =>
      (t.node .left).handedOver 2 = true ∧ t.arrived .left = [3, 2, 1]) (by decide +kernel)
  obtain ⟨t, ht, hobserved⟩ := (Option.any_eq_true _ _).mp hf
  obtain ⟨r, rfl⟩ := List.head?_eq_some_iff.mp ht
  obtain ⟨hhanded, harrived⟩ := of_decide_eq_true hobserved
  have hrun : IsRunWhere oneTwo 7 (fun t a => t.failsItself a = false ∧
      t.lateAnswer a = false ∧ t.outOfTurn a = false) (t :: r) :=
    hr.mono fun _ _ => TransitionSystem.Acts.mono fun _ _ h =>
      (Bool.or_eq_false_iff.mp h).imp_right Bool.or_eq_false_iff.mp
  exact ⟨t, r, hrun, hhanded, harrived, staysUp_iff hrun⟩

/-- The answer to the repeated offer arrives as well. -/
def lateAnswerActions : List Action :=
  lateCandidate ++ [.deliver .right 2 true, .own .right (.answer 1 (some "answer") true),
    .deliver .left 4 true]

theorem not_staysUp : ¬∀ (ids : Side → Introducer.NodeId) (sessionId : SessionId) (r : List Pair),
    IsRunWhere ids sessionId (fun t a => t.failsItself a = false) r → ∀ t ∈ r, t.StaysUp := by
  intro h
  obtain ⟨r, -, hr, hf⟩ := TransitionSystem.exists_run_of_play (· = joined oneTwo 7) exec
    failsItself rfl lateAnswerActions
    (fun r => r.any fun t => (t.node .left).errorsRx = [.alreadyInitialized 2])
    (by decide +kernel)
  obtain ⟨t, ht, herrors⟩ := List.any_eq_true.mp hf
  have hnone := (h oneTwo 7 r hr t ht .left).2
  rw [of_decide_eq_true herrors] at hnone
  exact absurd hnone (List.cons_ne_nil _ _)

end Pair

end Introduction

end Wraft
