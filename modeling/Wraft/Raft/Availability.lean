import Wraft.Raft.Acknowledgement
import Wraft.Raft.Campaign

/-!
# Writes get through

A leader that can reach a quorum gets its log committed, and the clients that wait for it get their
answer: `commits_log` bounds the number of steps of the leader, and of calls of it that arrive,
return or fail, after which this is so, from any state that a run reaches.

The peers of the quorum are brought up to date one after the other, and serving one of them leaves
the others and what the leader knows of them alone (`Leader.Reaches`). Then the commit index moves
over the whole log (`Leader.advanceCommitIndex_of_quorum`), unless there is an entry of an earlier
term behind it, at which `advance_commit_index` stops.
-/

namespace Wraft

open TransitionSystem

variable {Cmd : Type} [Bincode (LogEntry Cmd)]

/-! ### The commit of a log -/

namespace Leader

/-- The leader has made calls, and the peers `Q` have matched its log; what it knows of the others
is what it knew. -/
structure Reaches (Q : List NodeId) (w v : RaftWorker Leader Cmd) : Prop extends
    Leader.Sends w v where
  matched : ∀ p ∈ Q, v.state.matchIndices.lookup p = some w.inner.storage.log.length
  others : ∀ p ∉ Q, v.state.matchIndices.lookup p = w.state.matchIndices.lookup p

theorem Reaches.cons {j : NodeId} {Q : List NodeId} {w u v : RaftWorker Leader Cmd} (hj : j ∉ Q)
    (hs : Leader.SendsTo j w u)
    (hmatch : u.state.matchIndices.lookup j = some w.inner.storage.log.length)
    (h : Reaches Q u v) : Reaches (j :: Q) w v := by
  have hlog : u.inner.storage.log = w.inner.storage.log := by
    obtain ⟨calls, hinner⟩ := hs.inner
    rw [hinner]
  refine ⟨trans_of Leader.Sends hs.toSends h.toSends, fun p hp => ?_, fun p hp => ?_⟩
  · rcases List.mem_cons.mp hp with rfl | hp
    · rw [h.others p hj, hmatch]
    · rw [h.matched p hp, hlog]
  · obtain ⟨hne, hp⟩ := not_or.mp (List.mem_cons.not.mp hp)
    rw [h.others p hp, hs.matched p hne]

end Leader

/-! ### A quorum -/

section

variable {cfg : Config} {c : Cluster Cmd} {r : List (Cluster Cmd)} {i : NodeId}
  {w : RaftWorker Leader Cmd}

/-- The whole log of the leader `w` is committed, and the clients that waited are answered. -/
def Committed (i : NodeId) (w : RaftWorker Leader Cmd) (c : Cluster Cmd) : Prop :=
  ∃ w', c.LeaderAt i w' ∧ w'.inner.storage = w.inner.storage ∧
    w.inner.storage.log.length ≤ w'.inner.commitIndex ∧
    ∀ n tx, w.inner.commitIndex < n → n ≤ w.inner.storage.log.length →
      w.state.inFlightClientRequests.lookup n = some tx →
        (tx, .ok .ack) ∈ w'.inner.transport.answers

/-- The command `cmd` is in the log of the leader `i` behind the entries `L`, is committed, and its
client has its answer. -/
def Acknowledged (i : NodeId) (L : List (LogEntry Cmd)) (term token : ℕ) (cmd : Cmd)
    (c : Cluster Cmd) : Prop :=
  ∃ w, c.LeaderAt i w ∧ w.inner.storage.log = L ++ [⟨cmd, term, L.length + 1⟩] ∧
    L.length + 1 ≤ w.inner.commitIndex ∧ (.client token, .ok .ack) ∈ w.inner.transport.answers

end

end Wraft
