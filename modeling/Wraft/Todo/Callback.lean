import Wraft.Raft.Provenance
import Wraft.Todo.State

/-!
# The callbacks of `todo.rs`

An input of the page becomes a command, and a callback sends the command until one of its attempts
returns (`raft_callback`, `raft_batch_callback`). An attempt is one call of `Client::send`: the
request is queued for the worker, and the callback waits for the answer or for the timeout, after
which it sleeps and sends the command again.

`App` are the nodes of a cluster with the callbacks of their pages. For the sake of the account the
commands carry the callback and the attempt that they are from (`Sent`), which nothing looks at.
What one attempt comes to is at most one entry (`App.applied_le`), so that an input comes to no more
entries than one plus the number of its attempts that failed. It can come to as many: an attempt
that has timed out at its client may still commit.
-/

namespace Wraft.Todo

/-! ### Inputs -/

/-- `raft_callback`: every input is a command. -/
def raftCallback {α : Type} (function : α → Msg) (input : α) : Option Msg := some (function input)

/-- `raft_batch_callback`: an input may be a command. -/
def raftBatchCallback {α : Type} (function : α → Option Msg) (input : α) : Option Msg :=
  function input

/-- What a user does on the page. -/
inductive Input where
  | toggleAll
  | clearCompleted
  | filter (flt : Filter)
  | newTodoInput (value : String)
  | newTodoKey (key : String)
  | toggle (idx : ℕ)
  | dblclick (idx : ℕ)
  | destroy (idx : ℕ)
  | editInput (value : String)
  | editBlur (idx : ℕ)
  | editKey (idx : ℕ) (key : String)
  deriving DecidableEq, Repr

/-- The command of an input, by the callbacks of `view`, `view_filter`, `view_input`, `view_entry`
and `view_entry_edit_input`. -/
def Input.msg : Input → Option Msg
  | .toggleAll => raftCallback (fun _ => .toggleAll) ()
  | .clearCompleted => raftCallback (fun _ => .clearCompleted) ()
  | .filter flt => raftCallback (fun _ => .setFilter flt) ()
  | .newTodoInput value => raftCallback .update value
  | .newTodoKey key => raftBatchCallback (fun key => if key = "Enter" then some .add else none) key
  | .toggle idx => raftCallback (fun _ => .toggle idx) ()
  | .dblclick idx => raftCallback (fun _ => .toggleEdit idx) ()
  | .destroy idx => raftCallback (fun _ => .remove idx) ()
  | .editInput value => raftCallback .updateEdit value
  | .editBlur idx => raftCallback (fun _ => .edit idx) ()
  | .editKey idx key =>
    raftBatchCallback (fun key => if key = "Enter" then some (.edit idx) else none) key

/-! ### Callbacks -/

/-- A command with the callback that sends it and the number of the attempt. -/
structure Sent where
  callback : ℕ
  attempt : ℕ
  cmd : Msg
  deriving DecidableEq, Repr

/-- Where the task of a callback stands in its loop. -/
inductive Phase where
  /-- Before `send`. -/
  | ready
  /-- In the `select!` of `do_client_request`, with the request's number if the worker has it. -/
  | waiting (token : Option ℕ)
  /-- After an error. -/
  | sleeping
  | returned
  /-- The page of the callback is gone. -/
  | lost
  deriving DecidableEq, Repr

structure Callback where
  node : NodeId
  cmd : Msg
  phase : Phase
  /-- The calls of `send`. -/
  attempts : ℕ
  /-- The calls of `send` that have returned an error. -/
  failures : ℕ
  deriving DecidableEq, Repr

namespace Callback

/-- An attempt begins, and its request is in the queue. -/
def send (cb : Callback) : Callback :=
  { cb with phase := .waiting none, attempts := cb.attempts + 1 }

/-- An attempt ends with an error. -/
def fail (cb : Callback) : Callback :=
  { cb with phase := .sleeping, failures := cb.failures + 1 }

/-- The worker takes the request of attempt `attempt`, which may not be waited for any more. -/
def taken (attempt token : ℕ) (cb : Callback) : Callback :=
  if cb.phase = .waiting none ∧ cb.attempts = attempt + 1 then
    { cb with phase := .waiting (some token) }
  else cb

/-- An attempt ends with the answer to its request. -/
def answered (cb : Callback) : ClientResult → Callback
  | .ok _ => { cb with phase := .returned }
  | .error _ => cb.fail

/-- The page of node `i` is gone. -/
def unload (i : NodeId) (cb : Callback) : Callback :=
  if cb.node = i then { cb with phase := .lost } else cb

end Callback

/-! ### Nodes with their pages -/

/-- The nodes of a cluster with their pages. -/
structure App where
  cluster : Cluster Sent
  callbacks : List Callback
  /-- The client channel of each node. -/
  clientRx : NodeId → List Sent
  /-- The requests that workers have taken. -/
  taken : List Sent

/-- The steps of an app. -/
inductive App.Action where
  /-- An input on the page of node `i`. -/
  | input (i : NodeId) (input : Input)
  /-- Callback `n` calls `Client::send`. -/
  | send (n : ℕ)
  /-- The worker of node `i` takes the next request of its clients. -/
  | take (i : NodeId)
  /-- Callback `n` gets the answer to its request. -/
  | answer (n : ℕ)
  /-- The attempt of callback `n` ends without an answer: after its timeout, or because the sender
  of its answer is gone. -/
  | fail (n : ℕ) (err : ClientError)
  /-- Callback `n` has slept. -/
  | wake (n : ℕ)
  /-- The cluster takes a step that its clients have no part in. -/
  | cluster (a : Wraft.Action Sent)
  /-- The page of node `i` is loaded again. -/
  | restart (i : NodeId)
  deriving DecidableEq, Repr

namespace App

/-- A step of the cluster that is not the request of a client or a restart. -/
def ofCluster : Wraft.Action Sent → Bool
  | .client _ _ | .restart _ => false
  | _ => true

def boot (cfg : Config) : App where
  cluster := .boot cfg
  callbacks := []
  clientRx _ := []
  taken := []

/-- What changes one callback. -/
def setCallback (t : App) (n : ℕ) (cb : Callback) : App :=
  { t with callbacks := t.callbacks.set n cb }

variable [Bincode (LogEntry Sent)]

/-- One step of the app; `none` when it is not possible. -/
def exec (cfg : Config) (t : App) : Action → Option App
  | .input i input =>
    match input.msg with
    | some cmd => some { t with callbacks := t.callbacks ++
        [{ node := i, cmd, phase := .ready, attempts := 0, failures := 0 }] }
    | none => some t
  | .send n =>
    match t.callbacks[n]? with
    | some cb =>
      if cb.phase = .ready then
        match (t.cluster.nodes cb.node).panicked with
        | some _ => some (t.setCallback n cb.send.fail)
        | none => some { t.setCallback n cb.send with
            clientRx := Function.update t.clientRx cb.node
              (t.clientRx cb.node ++ [{ callback := n, attempt := cb.attempts, cmd := cb.cmd }]) }
      else none
    | none => none
  | .take i =>
    match t.clientRx i with
    | s :: rest =>
      (t.cluster.exec cfg (.client i (.apply s))).map fun cluster =>
        { cluster
          callbacks := t.callbacks.modify s.callback (.taken s.attempt t.cluster.tokens)
          clientRx := Function.update t.clientRx i rest
          taken := s :: t.taken }
    | [] => none
  | .answer n =>
    match t.callbacks[n]? with
    | some cb =>
      match cb.phase with
      | .waiting (some token) =>
        ((t.cluster.inner cb.node).transport.answers.lookup (.client token)).map fun res =>
          t.setCallback n (cb.answered res)
      | _ => none
    | none => none
  | .fail n _ =>
    match t.callbacks[n]? with
    | some cb =>
      match cb.phase with
      | .waiting _ => some (t.setCallback n cb.fail)
      | _ => none
    | none => none
  | .wake n =>
    match t.callbacks[n]? with
    | some cb =>
      if cb.phase = .sleeping then some (t.setCallback n { cb with phase := .ready }) else none
    | none => none
  | .cluster a =>
    if ofCluster a then (t.cluster.exec cfg a).map fun cluster => { t with cluster } else none
  | .restart i =>
    (t.cluster.exec cfg (.restart i)).map fun cluster =>
      { t with
        cluster
        callbacks := t.callbacks.map (.unload i)
        clientRx := Function.update t.clientRx i [] }

/-- The finite runs of an app from its start, latest state first. -/
def IsRun (cfg : Config) : List App → Prop :=
  TransitionSystem.IsRun (· = boot cfg) (TransitionSystem.Acts (exec cfg) fun _ _ => True)

/-- The commands that node `i` has applied, since it was last started. -/
def applied (t : App) (i : NodeId) : List Sent :=
  (t.cluster.inner i).stateMachineTx.map (·.cmd)

/-- The attempts of callback `n` that have failed. -/
def failures (t : App) (n : ℕ) : ℕ := (t.callbacks[n]?).elim 0 (·.failures)

end App

/-! ### What is kept -/

namespace Callback

/-- The callback goes on. -/
structure Le (cb cb' : Callback) : Prop where
  node : cb'.node = cb.node
  cmd : cb'.cmd = cb.cmd
  attempts : cb.attempts ≤ cb'.attempts

theorem Le.refl (cb : Callback) : cb.Le cb := ⟨rfl, rfl, le_rfl⟩

/-- Every attempt but the last has failed, and so has the last if the callback is to try again. -/
structure Balanced (cb : Callback) : Prop where
  attempts_le : cb.attempts ≤ cb.failures + 1
  ready : cb.phase = .ready ∨ cb.phase = .sleeping → cb.attempts ≤ cb.failures

variable {cb : Callback}

theorem Balanced.send (h : cb.Balanced) (hready : cb.phase = .ready) : cb.send.Balanced :=
  ⟨Nat.succ_le_succ (h.ready (.inl hready)), by simp [Callback.send]⟩

theorem Balanced.fail (h : cb.Balanced) : cb.fail.Balanced :=
  ⟨h.attempts_le.trans (Nat.le_succ _), fun _ => h.attempts_le⟩

theorem Balanced.answered (h : cb.Balanced) (res : ClientResult) : (cb.answered res).Balanced := by
  cases res with
  | ok resp => exact ⟨h.attempts_le, by simp [Callback.answered]⟩
  | error err => exact h.fail

theorem le_answered (cb : Callback) (res : ClientResult) : cb.Le (cb.answered res) := by
  cases res <;> exact ⟨rfl, rfl, le_rfl⟩

theorem Balanced.taken (h : cb.Balanced) (attempt token : ℕ) :
    (Callback.taken attempt token cb).Balanced := by
  rw [Callback.taken]
  split_ifs
  · exact ⟨h.attempts_le, by simp⟩
  · exact h

theorem Balanced.unload (h : cb.Balanced) (i : NodeId) : (Callback.unload i cb).Balanced := by
  rw [Callback.unload]
  split_ifs
  · exact ⟨h.attempts_le, by simp⟩
  · exact h

theorem le_unload (cb : Callback) (i : NodeId) : cb.Le (Callback.unload i cb) := by
  rw [Callback.unload]
  split_ifs
  · exact ⟨rfl, rfl, le_rfl⟩
  · exact .refl cb

theorem le_taken (cb : Callback) (attempt token : ℕ) : cb.Le (Callback.taken attempt token cb) := by
  rw [Callback.taken]
  split_ifs
  · exact ⟨rfl, rfl, le_rfl⟩
  · exact .refl cb

end Callback

/-- The request is from one of the callbacks. -/
def Sent.From (s : Sent) (callbacks : List Callback) (cb : Callback) : Prop :=
  callbacks[s.callback]? = some cb ∧ cb.cmd = s.cmd ∧ s.attempt < cb.attempts

/-- Every callback of the first list goes on in the second. -/
def Grows (callbacks callbacks' : List Callback) : Prop :=
  ∀ (n : ℕ) (cb : Callback), callbacks[n]? = some cb → ∃ cb', callbacks'[n]? = some cb' ∧ cb.Le cb'

theorem grows_map {callbacks : List Callback} {f : Callback → Callback}
    (hf : ∀ cb : Callback, cb.Le (f cb)) :
    Grows callbacks (callbacks.map f) := by
  intro n cb h
  exact ⟨f cb, by rw [List.getElem?_map, h]; rfl, hf cb⟩

theorem grows_modify {callbacks : List Callback} {f : Callback → Callback}
    (hf : ∀ cb : Callback, cb.Le (f cb))
    (m : ℕ) : Grows callbacks (callbacks.modify m f) := by
  intro n cb h
  rw [List.getElem?_modify, h]
  by_cases hm : m = n
  · exact ⟨f cb, by simp [hm], hf cb⟩
  · exact ⟨cb, by simp [hm], .refl cb⟩

theorem grows_set {callbacks : List Callback} {m : ℕ} {cb cb' : Callback}
    (hcb : callbacks[m]? = some cb) (hle : cb.Le cb') : Grows callbacks (callbacks.set m cb') := by
  intro n cb₁ h
  obtain ⟨hlt, -⟩ := List.getElem?_eq_some_iff.mp h
  by_cases hm : m = n
  · subst hm
    obtain rfl := Option.some.inj (hcb.symm.trans h)
    exact ⟨cb', List.getElem?_set_self hlt, hle⟩
  · exact ⟨cb₁, by rw [List.getElem?_set_ne hm, h], .refl cb₁⟩

theorem grows_append (callbacks new : List Callback) : Grows callbacks (callbacks ++ new) := by
  intro n cb h
  obtain ⟨hlt, -⟩ := List.getElem?_eq_some_iff.mp h
  exact ⟨cb, by rw [List.getElem?_append_left hlt, h], .refl cb⟩

theorem Sent.From.grows {s : Sent} {callbacks callbacks' : List Callback} {cb : Callback}
    (hs : s.From callbacks cb) (h : Grows callbacks callbacks') :
    ∃ cb', s.From callbacks' cb' ∧ cb'.node = cb.node := by
  obtain ⟨hcb, hcmd, hlt⟩ := hs
  obtain ⟨cb', hcb', hle⟩ := h _ _ hcb
  exact ⟨cb', ⟨hcb', hle.cmd.trans hcmd, hlt.trans_le hle.attempts⟩, hle.node⟩

namespace App

variable [Bincode (LogEntry Sent)]

/-- **Each attempt is in the queue of its node or was taken, once**, and the cluster has been asked
for what was taken. -/
structure Inv (t : App) : Prop where
  balanced : ∀ cb ∈ t.callbacks, cb.Balanced
  queued : ∀ i, ∀ s ∈ t.clientRx i, s ∉ t.taken ∧ ∃ cb, s.From t.callbacks cb ∧ cb.node = i
  nodup : ∀ i, (t.clientRx i).Nodup
  taken : ∀ s ∈ t.taken, ∃ cb, s.From t.callbacks cb
  provenance : t.cluster.Provenance t.taken

theorem inv_boot (cfg : Config) : Inv (boot cfg) where
  balanced := nofun
  queued _ := nofun
  nodup _ := .nil
  taken := nofun
  provenance := Cluster.provenance_boot cfg

variable {t : App}

/-- The callbacks go on. -/
theorem Inv.of_grows (h : Inv t) {callbacks : List Callback} (hgrows : Grows t.callbacks callbacks)
    (hbalanced : ∀ cb ∈ callbacks, cb.Balanced) : Inv { t with callbacks } where
  balanced := hbalanced
  queued i s hs := by
    obtain ⟨hnew, cb, hcb, hnode⟩ := h.queued i s hs
    obtain ⟨cb', hcb', hnode'⟩ := hcb.grows hgrows
    exact ⟨hnew, cb', hcb', hnode'.trans hnode⟩
  nodup := h.nodup
  taken s hs := by
    obtain ⟨cb, hcb⟩ := h.taken s hs
    obtain ⟨cb', hcb', -⟩ := hcb.grows hgrows
    exact ⟨cb', hcb'⟩
  provenance := h.provenance

/-- One callback goes on. -/
theorem Inv.setCallback (h : Inv t) {n : ℕ} {cb cb' : Callback} (hcb : t.callbacks[n]? = some cb)
    (hle : cb.Le cb') (hbalanced : cb'.Balanced) : Inv (t.setCallback n cb') := by
  refine h.of_grows (grows_set hcb hle) fun cb₁ hcb₁ => ?_
  rcases List.mem_or_eq_of_mem_set hcb₁ with hold | rfl
  · exact h.balanced cb₁ hold
  · exact hbalanced

/-- The queue of a node changes. -/
theorem Inv.setQueue (h : Inv t) (i : NodeId) {queue : List Sent} (hnodup : queue.Nodup)
    (hqueue : ∀ s ∈ queue, s ∉ t.taken ∧ ∃ cb, s.From t.callbacks cb ∧ cb.node = i) :
    Inv { t with clientRx := Function.update t.clientRx i queue } := by
  refine { h with queued := fun j => ?_, nodup := fun j => ?_ }
  · change ∀ s ∈ Function.update t.clientRx i queue j, _
    by_cases hj : j = i
    · subst hj
      rwa [Function.update_self]
    · rw [Function.update_of_ne hj]
      exact h.queued j
  · change (Function.update t.clientRx i queue j).Nodup
    by_cases hj : j = i
    · subst hj
      rwa [Function.update_self]
    · rw [Function.update_of_ne hj]
      exact h.nodup j

/-- A step of the cluster in which no client asks for anything. -/
theorem Inv.of_exec (h : Inv t) {cfg : Config} {a : Wraft.Action Sent} {cluster : Cluster Sent}
    (ha : a.asks = []) (hexec : t.cluster.exec cfg a = some cluster) : Inv { t with cluster } := by
  have hstep := h.provenance.step (a := a) (by rw [ha]; exact nofun) (Cluster.turn_of_exec hexec)
  rw [ha] at hstep
  exact { h with provenance := hstep }

/-- An attempt begins. -/
theorem Inv.send (h : Inv t) {n : ℕ} {cb : Callback} (hcb : t.callbacks[n]? = some cb)
    (hready : cb.phase = .ready) : Inv { t.setCallback n cb.send with
      clientRx := Function.update t.clientRx cb.node
        (t.clientRx cb.node ++ [{ callback := n, attempt := cb.attempts, cmd := cb.cmd }]) } := by
  set s : Sent := { callback := n, attempt := cb.attempts, cmd := cb.cmd } with hs
  -- the attempts before have smaller numbers
  have hnew : ∀ cb', ¬s.From t.callbacks cb' := by
    rintro cb' ⟨hcb', -, hlt⟩
    obtain rfl := Option.some.inj (hcb.symm.trans hcb')
    exact lt_irrefl _ hlt
  have hle : cb.Le cb.send := ⟨rfl, rfl, Nat.le_succ _⟩
  have hset := h.setCallback hcb hle
    ((h.balanced cb (List.mem_of_getElem? hcb)).send hready)
  obtain ⟨hlt, -⟩ := List.getElem?_eq_some_iff.mp hcb
  have hfrom : s.From (t.setCallback n cb.send).callbacks cb.send :=
    ⟨List.getElem?_set_self hlt, rfl, Nat.lt_succ_self _⟩
  refine hset.setQueue cb.node ?_ fun s' hs' => ?_
  · refine List.nodup_append.mpr ⟨h.nodup _, List.nodup_singleton s, ?_⟩
    rintro s' hold s'' hs'' rfl
    rw [List.mem_singleton.mp hs''] at hold
    obtain ⟨-, cb', hcb', -⟩ := h.queued _ s hold
    exact hnew cb' hcb'
  · rcases List.mem_append.mp hs' with hold | hs'
    · exact hset.queued _ s' hold
    · rw [List.mem_singleton.mp hs']
      refine ⟨fun htaken => ?_, cb.send, hfrom, rfl⟩
      obtain ⟨cb', hcb'⟩ := h.taken s htaken
      exact hnew cb' hcb'

/-- The cluster is asked for a command that is in no queue. -/
theorem Inv.ask (h : Inv t) {cfg : Config} {i : NodeId} {s : Sent} {cluster : Cluster Sent}
    (hnew : s ∉ t.taken) (hqueue : ∀ j, s ∉ t.clientRx j) {cb : Callback}
    (hcb : s.From t.callbacks cb)
    (hexec : t.cluster.exec cfg (.client i (.apply s)) = some cluster) :
    Inv { t with cluster, taken := s :: t.taken } := by
  refine { h with queued := fun j s' hs' => ?_, taken := fun s' hs' => ?_, provenance := ?_ }
  · obtain ⟨hnew', hfrom⟩ := h.queued j s' hs'
    refine ⟨fun hmem => ?_, hfrom⟩
    rcases List.mem_cons.mp hmem with rfl | hmem
    · exact hqueue j hs'
    · exact hnew' hmem
  · rcases List.mem_cons.mp hs' with rfl | hs'
    · exact ⟨cb, hcb⟩
    · exact h.taken s' hs'
  · refine h.provenance.step (a := .client i (.apply s)) (fun cmd hcmd => ?_)
      (Cluster.turn_of_exec hexec)
    obtain rfl := List.mem_singleton.mp hcmd
    exact hnew

/-- The worker of a node takes a request. -/
theorem Inv.take (h : Inv t) {cfg : Config} {i : NodeId} {s : Sent} {rest : List Sent}
    {cluster : Cluster Sent} (hrx : t.clientRx i = s :: rest)
    (hexec : t.cluster.exec cfg (.client i (.apply s)) = some cluster) :
    Inv { cluster
          callbacks := t.callbacks.modify s.callback (.taken s.attempt t.cluster.tokens)
          clientRx := Function.update t.clientRx i rest
          taken := s :: t.taken } := by
  have hmodify : Inv { t with
      callbacks := t.callbacks.modify s.callback (.taken s.attempt t.cluster.tokens) } := by
    refine h.of_grows (grows_modify (fun cb => cb.le_taken _ _) _) fun cb hcb => ?_
    obtain ⟨n, hn⟩ := List.getElem?_of_mem hcb
    rw [List.getElem?_modify] at hn
    obtain ⟨cb₀, hcb₀, rfl⟩ := Option.map_eq_some_iff.mp hn
    have hbalanced := h.balanced cb₀ (List.mem_of_getElem? hcb₀)
    split_ifs
    · exact hbalanced.taken _ _
    · exact hbalanced
  have hnodup := h.nodup i
  rw [hrx, List.nodup_cons] at hnodup
  obtain ⟨hnew, cb, hcb, hnode⟩ := hmodify.queued i s (hrx ▸ List.mem_cons_self)
  have hqueue := hmodify.setQueue i hnodup.2 fun s' hs' =>
    hmodify.queued i s' (hrx ▸ List.mem_cons_of_mem s hs')
  refine hqueue.ask hnew (fun j hs => ?_) hcb hexec
  change s ∈ Function.update t.clientRx i rest j at hs
  by_cases hj : j = i
  · subst hj
    rw [Function.update_self] at hs
    exact hnodup.1 hs
  · -- a callback is on one page
    rw [Function.update_of_ne hj] at hs
    obtain ⟨-, cb', hcb', hnode'⟩ := hmodify.queued j s hs
    obtain rfl := Option.some.inj (hcb.1.symm.trans hcb'.1)
    exact hj (hnode'.symm.trans hnode)

/-- **Every step keeps the account of the attempts.** -/
theorem Inv.step (h : Inv t) {cfg : Config} {a : Action} {t' : App}
    (hexec : t.exec cfg a = some t') :
    Inv t' := by
  cases a with
  | input i input =>
    rw [exec] at hexec
    split at hexec
    · obtain rfl := Option.some.inj hexec
      refine h.of_grows (grows_append _ _) fun cb hcb => ?_
      rcases List.mem_append.mp hcb with hcb | hcb
      · exact h.balanced cb hcb
      · -- the new callback has made no attempt
        obtain rfl := List.mem_singleton.mp hcb
        exact ⟨Nat.zero_le _, fun _ => le_rfl⟩
    · obtain rfl := Option.some.inj hexec
      exact h
  | send n =>
    rw [exec] at hexec
    split at hexec
    · rename_i cb hcb
      split_ifs at hexec with hready
      split at hexec
      · obtain rfl := Option.some.inj hexec
        have hbalanced := h.balanced cb (List.mem_of_getElem? hcb)
        -- the worker is gone, and the attempt fails at once
        exact h.setCallback hcb ⟨rfl, rfl, Nat.le_succ _⟩ (hbalanced.send hready).fail
      · obtain rfl := Option.some.inj hexec
        exact h.send hcb hready
    · exact nomatch hexec
  | take i =>
    rw [exec] at hexec
    split at hexec
    · rename_i s rest hrx
      obtain ⟨cluster, hcluster, rfl⟩ := Option.map_eq_some_iff.mp hexec
      exact h.take hrx hcluster
    · exact nomatch hexec
  | answer n =>
    rw [exec] at hexec
    split at hexec
    · rename_i cb hcb
      split at hexec
      · obtain ⟨res, -, rfl⟩ := Option.map_eq_some_iff.mp hexec
        have hbalanced := h.balanced cb (List.mem_of_getElem? hcb)
        exact h.setCallback hcb (cb.le_answered res) (hbalanced.answered res)
      · exact nomatch hexec
    · exact nomatch hexec
  | fail n err =>
    rw [exec] at hexec
    split at hexec
    · rename_i cb hcb
      split at hexec
      · obtain rfl := Option.some.inj hexec
        have hbalanced := h.balanced cb (List.mem_of_getElem? hcb)
        exact h.setCallback hcb ⟨rfl, rfl, le_rfl⟩ hbalanced.fail
      · exact nomatch hexec
    · exact nomatch hexec
  | wake n =>
    rw [exec] at hexec
    split at hexec
    · rename_i cb hcb
      split_ifs at hexec with hsleeping
      obtain rfl := Option.some.inj hexec
      have hbalanced := h.balanced cb (List.mem_of_getElem? hcb)
      exact h.setCallback hcb ⟨rfl, rfl, le_rfl⟩
        ⟨hbalanced.attempts_le, fun _ => hbalanced.ready (.inr hsleeping)⟩
    · exact nomatch hexec
  | cluster a =>
    rw [exec] at hexec
    split_ifs at hexec with ha
    obtain ⟨cluster, hcluster, rfl⟩ := Option.map_eq_some_iff.mp hexec
    refine h.of_exec ?_ hcluster
    -- the cluster acts on its own, no client asks
    cases a <;> first | rfl | exact nomatch ha
  | restart i =>
    rw [exec] at hexec
    obtain ⟨cluster, hcluster, rfl⟩ := Option.map_eq_some_iff.mp hexec
    -- a page that is loaded again has lost its callbacks and its queue
    have hlost : Inv { t with callbacks := t.callbacks.map (.unload i) } := by
      refine h.of_grows (grows_map fun cb => cb.le_unload i) fun cb hcb => ?_
      obtain ⟨cb₀, hcb₀, rfl⟩ := List.mem_map.mp hcb
      exact (h.balanced cb₀ hcb₀).unload i
    exact (hlost.of_exec rfl hcluster).setQueue i .nil nofun

theorem IsRun.inv {cfg : Config} {r : List App} (h : IsRun cfg r) : ∀ t ∈ r, Inv t := by
  refine TransitionSystem.IsRun.invariant ?_ ?_ h
  · rintro t rfl
    exact inv_boot cfg
  · rintro t t' hinv ⟨a, -, hexec⟩
    exact hinv.step hexec

/-! ### What is applied -/

/-- What a node has applied was taken from a queue. -/
theorem Inv.mem_taken (h : Inv t) {i : NodeId} {s : Sent} (hs : s ∈ t.applied i) :
    s ∈ t.taken := by
  obtain ⟨e, he, rfl⟩ := List.mem_map.mp hs
  exact h.provenance.held_mem ⟨i, .applied he⟩

/-- The attempts of a callback are for one command. -/
theorem Inv.eq_of_attempt (h : Inv t) {s s' : Sent} (hs : s ∈ t.taken) (hs' : s' ∈ t.taken)
    (hcallback : s.callback = s'.callback) (hattempt : s.attempt = s'.attempt) : s = s' := by
  obtain ⟨cb, hcb, hcmd, -⟩ := h.taken s hs
  obtain ⟨cb', hcb', hcmd', -⟩ := h.taken s' hs'
  rw [hcallback] at hcb
  obtain rfl := Option.some.inj (hcb.symm.trans hcb')
  cases s
  cases s'
  simp_all

/-- **An attempt comes to one entry at most, and an input to one more than its failed attempts.** -/
theorem applied_le {cfg : Config} {r : List App} (h : IsRun cfg r) (ht : t ∈ r) (i : NodeId) :
    ((t.applied i).map fun s => (s.callback, s.attempt)).Nodup ∧
      ∀ n, ((t.applied i).filter (·.callback = n)).length ≤ t.failures n + 1 := by
  have hinv := h.inv t ht
  have hnodup : (t.applied i).Nodup := hinv.provenance.nodup_applied i
  refine ⟨hnodup.map_on fun s hs s' hs' heq => ?_, fun n => ?_⟩
  · obtain ⟨hcallback, hattempt⟩ := Prod.mk.inj heq
    exact hinv.eq_of_attempt (hinv.mem_taken hs) (hinv.mem_taken hs') hcallback hattempt
  have hmem : ∀ s ∈ (t.applied i).filter (·.callback = n), s ∈ t.taken ∧ s.callback = n := by
    intro s hs
    obtain ⟨hs, hn⟩ := List.mem_filter.mp hs
    exact ⟨hinv.mem_taken hs, of_decide_eq_true hn⟩
  have hattempts : (((t.applied i).filter (·.callback = n)).map (·.attempt)).Nodup := by
    refine (hnodup.filter _).map_on fun s hs s' hs' heq => ?_
    obtain ⟨hmem_s, hn⟩ := hmem s hs
    obtain ⟨hmem_s', hn'⟩ := hmem s' hs'
    exact hinv.eq_of_attempt hmem_s hmem_s' (hn.trans hn'.symm) heq
  have hsub : ((t.applied i).filter (·.callback = n)).map (·.attempt) ⊆
      List.range (t.failures n + 1) := by
    intro k hk
    obtain ⟨s, hs, rfl⟩ := List.mem_map.mp hk
    obtain ⟨hmem_s, hn⟩ := hmem s hs
    obtain ⟨cb, hcb, -, hlt⟩ := hinv.taken s hmem_s
    have hle := (hinv.balanced cb (List.mem_of_getElem? hcb)).attempts_le
    rw [hn] at hcb
    rw [List.mem_range, failures, hcb]
    exact hlt.trans_le hle
  have hlen := (List.subperm_of_subset hattempts hsub).length_le
  rwa [List.length_map, List.length_range] at hlen

end App

/-! ### An encoding -/

section

/-- A list of numbers, each in unary. -/
def unary (ns : List ℕ) : List Char := ns.flatMap fun n => List.replicate n 'i' ++ [',']

def ofUnary (n : ℕ) : List Char → List ℕ
  | [] => []
  | c :: cs => if c = ',' then n :: ofUnary 0 cs else ofUnary (n + 1) cs

theorem ofUnary_replicate (k n : ℕ) (cs : List Char) :
    ofUnary k (List.replicate n 'i' ++ ',' :: cs) = (k + n) :: ofUnary 0 cs := by
  induction n generalizing k with
  | zero => simp [ofUnary]
  | succ n ih =>
    rw [List.replicate_succ, List.cons_append, ofUnary, if_neg (by decide), ih, Nat.add_right_comm,
      Nat.add_assoc]

theorem ofUnary_unary (ns : List ℕ) : ofUnary 0 (unary ns) = ns := by
  induction ns with
  | nil => rfl
  | cons n ns ih =>
    rw [unary, List.flatMap_cons, List.append_assoc, List.singleton_append, ofUnary_replicate,
      Nat.zero_add]
    exact congrArg (n :: ·) ih

def Filter.code : Filter → ℕ
  | all => 0
  | active => 1
  | completed => 2

def Filter.ofCode : ℕ → Filter
  | 0 => all
  | 1 => active
  | _ => completed

theorem Filter.ofCode_code (flt : Filter) : ofCode flt.code = flt := by
  cases flt <;> rfl

def Msg.codes : Msg → List ℕ
  | .add => [0]
  | .edit idx => [1, idx]
  | .update val => 2 :: val.toList.map Char.toNat
  | .updateEdit val => 3 :: val.toList.map Char.toNat
  | .remove idx => [4, idx]
  | .setFilter filter => [5, filter.code]
  | .toggleAll => [6]
  | .toggleEdit idx => [7, idx]
  | .toggle idx => [8, idx]
  | .clearCompleted => [9]

def Msg.ofCodes : List ℕ → Option Msg
  | [0] => some .add
  | [1, idx] => some (.edit idx)
  | 2 :: val => some (.update (String.ofList (val.map Char.ofNat)))
  | 3 :: val => some (.updateEdit (String.ofList (val.map Char.ofNat)))
  | [4, idx] => some (.remove idx)
  | [5, filter] => some (.setFilter (.ofCode filter))
  | [6] => some .toggleAll
  | [7, idx] => some (.toggleEdit idx)
  | [8, idx] => some (.toggle idx)
  | [9] => some .clearCompleted
  | _ => none

theorem ofList_map_ofNat (val : String) :
    String.ofList ((val.toList.map Char.toNat).map Char.ofNat) = val := by
  rw [List.map_map, show Char.ofNat ∘ Char.toNat = id from funext Char.ofNat_toNat, List.map_id,
    String.ofList_toList]

theorem Msg.ofCodes_codes (m : Msg) : ofCodes m.codes = some m := by
  cases m with
  | update val => rw [codes, ofCodes, ofList_map_ofNat]
  | updateEdit val => rw [codes, ofCodes, ofList_map_ofNat]
  | setFilter filter => rw [codes, ofCodes, Filter.ofCode_code]
  | add | edit | remove | toggleAll | toggleEdit | toggle | clearCompleted => rfl

/-- Entries of the app, as numbers in unary. -/
instance : Bincode (LogEntry Sent) where
  serialize e := String.ofList
    (unary (e.term :: e.idx :: e.cmd.callback :: e.cmd.attempt :: e.cmd.cmd.codes))
  deserialize s :=
    match ofUnary 0 s.toList with
    | term :: idx :: callback :: attempt :: codes =>
      (Msg.ofCodes codes).map fun cmd => ⟨⟨callback, attempt, cmd⟩, term, idx⟩
    | _ => none
  deserialize_serialize e := by
    rw [String.toList_ofList, ofUnary_unary]
    exact (congrArg (Option.map _) (Msg.ofCodes_codes e.cmd.cmd)).trans rfl

end

namespace App

/-- Node `0` of two is the leader, and the first attempt of a callback on its page is in its log
when it times out. -/
def retryActions : List Action :=
  [.cluster (.electionTimeout 0), .cluster (.deliver 0 0), .cluster (.receive 0 0),
    .input 0 (.toggle 0), .send 0, .take 0, .fail 0 .timeout, .wake 0, .send 0, .take 0,
    .cluster (.deliver 0 1), .cluster (.receive 0 1), .cluster (.heartbeat 0),
    .cluster (.deliver 0 2), .cluster (.receive 0 2), .cluster (.advanceCommitIndex 0), .answer 0,
    .cluster (.applyLog 0)]

theorem exists_retry_run : ∃ r : List App, IsRun (.ofSize 2) r ∧ ∃ t ∈ r,
    t.failures 0 = 1 ∧ ((t.applied 0).filter (·.callback = 0)).length = 2 := by
  obtain ⟨r, -, hr, hf⟩ := TransitionSystem.exists_run_of_play (· = boot (.ofSize 2))
    (exec (.ofSize 2)) (fun _ _ => false) rfl retryActions
    (fun r => r.any fun t =>
      t.failures 0 = 1 ∧ ((t.applied 0).filter (·.callback = 0)).length = 2)
    (by decide +kernel)
  simp only [List.any_eq_true, decide_eq_true_eq] at hf
  exact ⟨r, hr.mono fun _ _ => TransitionSystem.Acts.mono fun _ _ _ => trivial, hf⟩

theorem applied_le_retry : ∃ r : List App, IsRun (.ofSize 2) r ∧ ∃ t ∈ r,
    ((t.applied 0).filter (·.callback = 0)).length = 2 ∧
      ((t.applied 0).map fun s => (s.callback, s.attempt)).Nodup ∧
      ∀ n, ((t.applied 0).filter (·.callback = n)).length ≤ t.failures n + 1 := by
  obtain ⟨r, hr, t, ht, -, htwo⟩ := exists_retry_run
  exact ⟨r, hr, t, ht, htwo, applied_le hr ht 0⟩

/-- An input may be applied twice. -/
theorem not_applied_once : ¬∀ (cfg : Config) (r : List App), IsRun cfg r → ∀ t ∈ r, ∀ i n,
    ((t.applied i).filter (·.callback = n)).length ≤ 1 := by
  intro h
  obtain ⟨r, hr, t, ht, -, htwo⟩ := exists_retry_run
  have hle := h _ r hr t ht 0 0
  omega

end App

end Wraft.Todo
