import Mathlib.Logic.Relation
import Wraft.Raft.Node
import Wraft.Raft.Sessions

/-!
# Bootstrapping a cluster

`Raft::start` of `raft/mod.rs` up to the start of the worker. Without a stored configuration it
waits for peers to arrive, until it has started one server for each of them and there are
`cluster_size - 1` servers; the membership, which is stored forever, are the keys of the map of
clients. A peer that arrives twice is served twice and has one key, so that the membership is the
configured one exactly when no peer does (`fixesMembership_iff`).

What arrives is the list of transports sent on `peers_rx`. When it ends before there are enough
of them, the loop still waits, or fails with `Error::NotEnoughPeers` if the channel is closed.
-/

namespace Wraft

/-- A new connection to a peer. -/
structure PeerTransport where
  nodeId : NodeId
  deriving DecidableEq, Repr

/-- `PeerTransport::start`: the client and the server of the connection. -/
def PeerTransport.start (peer : PeerTransport) : Client × PeerTransport :=
  ({ connected := true }, peer)

namespace Raft

variable {Cmd : Type} [Bincode (List NodeId)]

def loadPeerConfiguration (sessionKey : ℕ) (ls : LocalStorage) :
    Except Panic (Option (List NodeId)) :=
  match ls.getItem (Key.peerConfiguration sessionKey).format with
  | none => .ok none
  | some s =>
    match Bincode.deserialize s with
    | some conf => .ok (some conf)
    | none => .error .peerConfiguration

def storePeerConfiguration (sessionKey : ℕ) (peers : List NodeId) (ls : LocalStorage) :
    LocalStorage :=
  ls.setItem (Key.peerConfiguration sessionKey).format (Bincode.serialize peers)

/-- The waiting loop: `peer_clients` when there are enough `servers`. -/
def awaitPeers (targetSize : ℕ) : List PeerTransport → (AList fun _ : NodeId => Client) →
    List PeerTransport → Option (AList fun _ : NodeId => Client)
  | [], peerClients, servers => if servers.length < targetSize then none else some peerClients
  | peer :: arrivals, peerClients, servers =>
    if servers.length < targetSize then
      awaitPeers targetSize arrivals (peerClients.insert peer.nodeId peer.start.1)
        (servers ++ [peer.start.2])
    else some peerClients

/-- `Raft::start`; `none` when there are not enough peers. -/
def start (nodeId : NodeId) (sessionKey clusterSize : ℕ) (arrivals : List PeerTransport)
    (ls : LocalStorage) : Except Panic (Option (RaftWorkerInner Cmd)) := do
  match ← loadPeerConfiguration sessionKey ls with
  | some peers =>
    -- we're rejoining a cluster that's already running
    return some (← WorkerBuilder.start nodeId sessionKey peers ∅ ls { calls := [], answers := [] })
  | none =>
    -- `cluster_size - 1` is checked
    if clusterSize = 0 then throw .subOverflow
    match awaitPeers (clusterSize - 1) arrivals ∅ [] with
    | none => return none
    | some peerClients =>
      let peers := peerClients.keys
      return some (← WorkerBuilder.start nodeId sessionKey peers peerClients
        (storePeerConfiguration sessionKey peers ls) { calls := [], answers := [] })

/-! ### The waiting loop -/

omit [Bincode (List NodeId)] in
/-- The loop takes as many arrivals as are missing, and adds their ids to the keys. -/
theorem mem_of_awaitPeers {targetSize : ℕ} {arrivals servers : List PeerTransport}
    {clients clients' : AList fun _ : NodeId => Client}
    (h : awaitPeers targetSize arrivals clients servers = some clients') :
    targetSize ≤ servers.length + arrivals.length ∧ ∀ p, p ∈ clients' ↔ p ∈ clients ∨
      p ∈ (arrivals.take (targetSize - servers.length)).map PeerTransport.nodeId := by
  induction arrivals generalizing clients servers with
  | nil =>
    rw [awaitPeers] at h
    split_ifs at h with hlt
    obtain rfl := Option.some.inj h
    exact ⟨by simpa using hlt, by simp⟩
  | cons peer arrivals ih =>
    rw [awaitPeers] at h
    split_ifs at h with hlt
    · obtain ⟨hlen, hmem⟩ := ih h
      rw [List.length_append, List.length_singleton] at hlen hmem
      refine ⟨by rw [List.length_cons]; omega, fun p => ?_⟩
      rw [hmem, AList.mem_insert, show targetSize - servers.length =
        targetSize - (servers.length + 1) + 1 by omega, List.take_succ_cons, List.map_cons,
        List.mem_cons, or_assoc, or_left_comm]
    · obtain rfl := Option.some.inj h
      refine ⟨by omega, fun p => ?_⟩
      rw [Nat.sub_eq_zero_of_le (Nat.not_lt.mp hlt)]
      simp

omit [Bincode (List NodeId)] in
/-- There are as many keys as servers exactly when no peer arrived twice. -/
theorem length_keys_eq_iff {targetSize : ℕ} {arrivals : List PeerTransport}
    {clients : AList fun _ : NodeId => Client}
    (h : awaitPeers targetSize arrivals ∅ [] = some clients) :
    clients.keys.length = targetSize ↔
      ((arrivals.take targetSize).map PeerTransport.nodeId).Nodup := by
  obtain ⟨hlen, hmem⟩ := mem_of_awaitPeers h
  rw [List.length_nil, Nat.zero_add] at hlen
  set ids := (arrivals.take targetSize).map PeerTransport.nodeId with hids
  have hlength : ids.length = targetSize := by
    rw [hids, List.length_map, List.length_take_of_le hlen]
  have hkeys : clients.keys.toFinset = ids.toFinset := by
    ext p
    rw [List.mem_toFinset, ← AList.mem_keys, hmem, List.mem_toFinset]
    simp [AList.notMem_empty, hids]
  have hcard : clients.keys.length = ids.toFinset.card := by
    rw [← hkeys, List.toFinset_card_of_nodup (AList.keys_nodup clients)]
  rw [hcard, ← hlength]
  exact Multiset.toFinset_card_eq_card_iff_nodup (m := (ids : Multiset NodeId))

/-! ### The start -/

omit [Bincode (List NodeId)] in
theorem of_workerBuilder_start {nodeId : NodeId} {k : ℕ} {peers : List NodeId}
    {peerClients : AList fun _ : NodeId => Client} {ls : LocalStorage} {transport : Transport Cmd}
    {w : RaftWorkerInner Cmd}
    (h : WorkerBuilder.start nodeId k peers peerClients ls transport = .ok w) :
    w.peers = peers ∧ w.peerClients = peerClients ∧ w.clusterSize = w.peers.length + 1 ∧
      w.storage.storage = ls := by
  rcases hnew : (Storage.new k ls : Except Panic (Storage Cmd)) with _ | s
  · rw [WorkerBuilder.start, hnew] at h
    exact nomatch h
  · rw [WorkerBuilder.start, hnew] at h
    obtain rfl := Except.ok.inj h
    exact ⟨rfl, rfl, rfl, (Storage.new_eq_ok_iff.mp hnew).2.1⟩

/-- A worker that is started either rejoins with the stored configuration, and nothing is written,
or is the first of its session, and the keys of its clients are written. -/
theorem start_cases {nodeId : NodeId} {k n : ℕ} {arrivals : List PeerTransport}
    {ls : LocalStorage} {w : RaftWorkerInner Cmd}
    (h : start nodeId k n arrivals ls = .ok (some w)) :
    w.clusterSize = w.peers.length + 1 ∧
    (loadPeerConfiguration k ls = .ok (some w.peers) ∧ w.storage.storage = ls ∨
    loadPeerConfiguration k ls = .ok none ∧ 0 < n ∧
      awaitPeers (n - 1) arrivals ∅ [] = some w.peerClients ∧ w.peers = w.peerClients.keys ∧
      w.storage.storage = storePeerConfiguration k w.peers ls) := by
  have hsome : ∀ {x : Except Panic (RaftWorkerInner Cmd)},
      (do return some (← x)) = Except.ok (some w) → x = .ok w := by
    rintro (p | v) hv
    · exact nomatch hv
    · exact congrArg _ (Option.some.inj (Except.ok.inj hv))
  rcases hload : loadPeerConfiguration k ls with _ | _ | peers
  · rw [start, hload] at h
    exact nomatch h
  · rw [start, hload] at h
    obtain _ | n := n
    · exact nomatch h
    rcases hwait : awaitPeers n arrivals ∅ [] with _ | clients
    · exact absurd h (by simp [bind, Except.bind, pure, Except.pure, hwait])
    · simp only [bind, Except.bind, Nat.add_sub_cancel, hwait] at h
      obtain ⟨hpeers, rfl, hsize, hls⟩ := of_workerBuilder_start (hsome h)
      exact ⟨hsize, .inr ⟨rfl, n.succ_pos, hwait, hpeers, by rw [hls, hpeers]⟩⟩
  · rw [start, hload] at h
    obtain ⟨rfl, -, hsize, hls⟩ := of_workerBuilder_start (hsome h)
    exact ⟨hsize, .inl ⟨rfl, hls⟩⟩

/-! ### What is stored -/

theorem load_store (k : ℕ) (peers : List NodeId) (ls : LocalStorage) :
    loadPeerConfiguration k (storePeerConfiguration k peers ls) = .ok (some peers) := by
  simp only [loadPeerConfiguration, storePeerConfiguration, LocalStorage.getItem_setItem_self,
    Bincode.deserialize_serialize]

theorem load_congr {k : ℕ} {ls ls' : LocalStorage}
    (h : ls'.getItem (Key.peerConfiguration k).format =
      ls.getItem (Key.peerConfiguration k).format) :
    loadPeerConfiguration k ls' = loadPeerConfiguration k ls := by
  simp only [loadPeerConfiguration, h]

theorem load_store_of_ne {j k : ℕ} (h : j ≠ k) (peers : List NodeId) (ls : LocalStorage) :
    loadPeerConfiguration k (storePeerConfiguration j peers ls) = loadPeerConfiguration k ls :=
  load_congr (LocalStorage.getItem_setItem_of_ne _ _ (by simpa using h))

section

variable (Cmd) [Bincode (LogEntry Cmd)]

/-- What may happen to the local storage later: an operation on a `Storage` of any session, or
another start, of any session. -/
inductive LaterStep : LocalStorage → LocalStorage → Prop
  | storage {s : Storage Cmd} {op : StorageOp Cmd} (hop : op.Allowed s) :
      LaterStep s.storage (op.outcome s).storage
  | start {nodeId : NodeId} {k n : ℕ} {arrivals : List PeerTransport} {ls : LocalStorage}
      {w : RaftWorkerInner Cmd} (h : start nodeId k n arrivals ls = .ok (some w)) :
      LaterStep ls w.storage.storage

/-- The membership is the configured one, for the worker and whenever it is loaded later. -/
structure FixesMembership (k n : ℕ) (w : RaftWorkerInner Cmd) : Prop where
  nodup : w.peers.Nodup
  length : w.peers.length = n - 1
  clusterSize : w.clusterSize = n
  quorum : w.quorum = n / 2 + 1
  load : ∀ ls', Relation.ReflTransGen (LaterStep Cmd) w.storage.storage ls' →
    loadPeerConfiguration k ls' = .ok (some w.peers)

end

variable [Bincode (LogEntry Cmd)]

/-- A stored configuration is never changed. -/
theorem LaterStep.load_eq {k : ℕ} {peers : List NodeId} {ls ls' : LocalStorage}
    (hs : LaterStep Cmd ls ls') (h : loadPeerConfiguration k ls = .ok (some peers)) :
    loadPeerConfiguration k ls' = .ok (some peers) := by
  cases hs with
  | storage hop => rw [load_congr (Storage.onlyWrites_outcome hop _ nofun), h]
  | @start _ j _ _ _ w hstart =>
    obtain ⟨-, ⟨-, hls⟩ | ⟨hnone, -, -, -, hls⟩⟩ := start_cases hstart
    · rw [hls, h]
    · -- the session of a first start is another one
      have hne : j ≠ k := by
        rintro rfl
        exact nomatch hnone.symm.trans h
      rw [hls, load_store_of_ne hne, h]

theorem load_of_later {k : ℕ} {peers : List NodeId} {ls ls' : LocalStorage}
    (h : loadPeerConfiguration k ls = .ok (some peers))
    (hs : Relation.ReflTransGen (LaterStep Cmd) ls ls') :
    loadPeerConfiguration k ls' = .ok (some peers) := by
  induction hs with
  | refl => exact h
  | tail _ hs ih => exact hs.load_eq ih

end Raft

open Raft

/-- **Bootstrapping** a session without a stored configuration fixes the configured membership if
and only if the peers that were waited for are all different. -/
theorem fixesMembership_iff {Cmd : Type} [Bincode (List NodeId)] [Bincode (LogEntry Cmd)]
    {nodeId : NodeId} {k n : ℕ} {arrivals : List PeerTransport} {ls : LocalStorage}
    {w : RaftWorkerInner Cmd}
    (hfirst : ls.getItem (Key.peerConfiguration k).format = none)
    (h : start nodeId k n arrivals ls = .ok (some w)) :
    FixesMembership Cmd k n w ↔
      ((arrivals.take (n - 1)).map PeerTransport.nodeId).Nodup := by
  have hnone : loadPeerConfiguration k ls = .ok none := by rw [loadPeerConfiguration, hfirst]
  obtain ⟨hsize, ⟨hsome, -⟩ | ⟨-, hn, hwait, hpeers, hls⟩⟩ := start_cases h
  · exact nomatch hnone.symm.trans hsome
  rw [← length_keys_eq_iff hwait, ← hpeers]
  constructor
  · exact FixesMembership.length
  · intro hlength
    have hsize' : w.clusterSize = n := by omega
    refine ⟨hpeers ▸ AList.keys_nodup _, hlength, hsize', ?_, fun ls' => load_of_later ?_⟩
    · rw [RaftWorkerInner.quorum, hsize']
    · rw [hls, load_store]

/-- The ids written in unary with a comma behind each. -/
def decodeIds (n : ℕ) : List Char → List NodeId
  | [] => []
  | 'i' :: cs => decodeIds (n + 1) cs
  | _ :: cs => n :: decodeIds 0 cs

theorem decodeIds_replicate (n m : ℕ) (cs : List Char) :
    decodeIds n (List.replicate m 'i' ++ ',' :: cs) = (n + m) :: decodeIds 0 cs := by
  induction m generalizing n with
  | zero => rfl
  | succ m ih => rw [List.replicate_succ, List.cons_append, decodeIds, ih, Nat.add_right_comm]; rfl

instance : Bincode (List NodeId) where
  serialize ids := String.ofList (ids.flatMap fun id => List.replicate id 'i' ++ [','])
  deserialize s := some (decodeIds 0 s.toList)
  deserialize_serialize ids := by
    rw [String.toList_ofList]
    congr 1
    induction ids with
    | nil => rfl
    | cons id ids ih =>
      rw [List.flatMap_cons, List.append_assoc, List.singleton_append, decodeIds_replicate, ih,
        Nat.zero_add]

theorem exists_started {x : Except Panic (Option (RaftWorkerInner ℕ))}
    (h : x.toOption.join.isSome) : ∃ w, x = .ok (some w) := by
  obtain p | _ | w := x
  · exact nomatch h
  · exact nomatch h
  · exact ⟨w, rfl⟩

/-- Peers `5` and `6` arrive at node `4`, and then `5` again. -/
theorem fixesMembership_iff_pair : ∃ w : RaftWorkerInner ℕ,
    start 4 1 3 [⟨5⟩, ⟨6⟩, ⟨5⟩] [] = .ok (some w) ∧
    (FixesMembership ℕ 1 3 w ↔ [5, 6].Nodup) := by
  obtain ⟨w, hw⟩ := exists_started (x := start 4 1 3 [⟨5⟩, ⟨6⟩, ⟨5⟩] []) (by decide +kernel)
  exact ⟨w, hw, fixesMembership_iff rfl hw⟩

/-- Peer `5` arrives at node `4`, then `5` again, and then `6`. -/
theorem not_fixesMembership : ¬∀ (nodeId : NodeId) (k n : ℕ) (arrivals : List PeerTransport)
    (ls : LocalStorage) (w : RaftWorkerInner ℕ), 1 ≤ n →
    ls.getItem (Key.peerConfiguration k).format = none →
    start nodeId k n arrivals ls = .ok (some w) → FixesMembership ℕ k n w := by
  intro h
  obtain ⟨w, hw⟩ := exists_started (x := start 4 1 4 [⟨5⟩, ⟨5⟩, ⟨6⟩] []) (by decide +kernel)
  obtain ⟨-, ⟨hload, -⟩ | ⟨-, -, hwait, hpeers, -⟩⟩ := start_cases hw
  · exact nomatch hload
  · have hlength := (h 4 1 4 _ [] w (by omega) rfl hw).length
    rw [hpeers, length_keys_eq_iff hwait] at hlength
    exact absurd hlength (by decide)

end Wraft
