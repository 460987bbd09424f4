import Mathlib.Data.List.Count

/-!
# Requests, responses and log entries

The data types of `raft/mod.rs` and `raft/errors.rs`, and the panics of the modelled code. A
function that may panic is a computation in `Rust σ`: it returns with a new state, or it panics
and leaves the state as it was at that point, so that what was written before a panic is not
lost.

The source's `LogIndex`, `TermIndex` and `NodeId` are `u64`; here they are natural numbers. The
width matters in two places. The subtractions of `append_entries` and
`handle_append_entries_response` are checked (`u64Sub`). The increments of the term and of the log
index wrap around after `2 ^ 64 - 1` in the source (without overflow checks), and go on here. A
cluster would need `2 ^ 64` elections or requests to get there; a single node can be sent a request
with such a term, so a result about whatever a node is sent that rests on growing terms has to
exclude it (`Voter.exhausts`).
-/

namespace Wraft

abbrev NodeId := ℕ

/-- The places of the modelled code that can panic. -/
inductive Panic where
  /-- `Storage::new`: a stored number does not parse. -/
  | parse
  /-- `Storage::get_log`: no item under the entry's key, or one that is not an entry. -/
  | logItem
  /-- `Storage::append_log`: `assert_eq!(idx, entry.idx)`. -/
  | appendIdx
  /-- `Storage::overwrite_log`: `assert!(entry.idx >= self.last_log_index())`. -/
  | overwriteOrder
  /-- `Storage::overwrite_log`: `assert!(entry.idx != 0)`. -/
  | overwriteZero
  /-- Subtraction below zero in `u64`. -/
  | subOverflow
  /-- `append_entries`: `get_log(prev_log_index).unwrap()`. -/
  | prevEntry
  /-- `advance_commit_index`: `get_log(n).unwrap()`. -/
  | commitEntry
  /-- `next_indices` or `match_indices` without the peer. -/
  | peerIndex
  /-- `unreachable!()` on a response of another kind. -/
  | responseKind
  /-- `Raft::load_peer_configuration`: the stored item is not a list of ids. -/
  | peerConfiguration
  deriving DecidableEq, Repr

/-- Code that works on `σ` and may panic. -/
abbrev Rust (σ α : Type) := EStateM Panic σ α

/-- Checked subtraction. Without overflow checks `next_index - 1` wraps around to the largest
index instead, and the `unwrap` of `get_log` right after it panics. -/
def u64Sub {σ : Type} (a b : ℕ) : Rust σ ℕ :=
  if b ≤ a then pure (a - b) else throw .subOverflow

/-- `bincode` into `base64` and back, for the entries of the log. -/
class Bincode (α : Type) where
  serialize : α → String
  deserialize : String → Option α
  deserialize_serialize : ∀ a, deserialize (serialize a) = some a

variable (Cmd : Type)

structure LogEntry where
  cmd : Cmd
  term : ℕ
  idx : ℕ
  deriving DecidableEq, Repr

/-- Entries whose commands are numbers, in unary. -/
instance : Bincode (LogEntry ℕ) where
  serialize e := String.ofList
    (List.replicate e.cmd 'c' ++ List.replicate e.term 't' ++ List.replicate e.idx 'i')
  deserialize s := some ⟨s.toList.count 'c', s.toList.count 't', s.toList.count 'i'⟩
  deserialize_serialize e := by simp [List.count_append, List.count_replicate]

structure AppendEntriesRequest where
  term : ℕ
  leaderId : NodeId
  prevLogIndex : ℕ
  prevLogTerm : ℕ
  entries : List (LogEntry Cmd)
  leaderCommit : ℕ
  deriving DecidableEq, Repr

structure RequestVoteRequest where
  term : ℕ
  candidate : NodeId
  lastLogIndex : ℕ
  lastLogTerm : ℕ
  deriving DecidableEq, Repr

structure RequestVoteResponse where
  term : ℕ
  voteGranted : Bool
  deriving DecidableEq, Repr

structure AppendEntriesResponse where
  term : ℕ
  success : Bool
  deriving DecidableEq, Repr

inductive ClientRequest where
  | apply (cmd : Cmd)
  deriving DecidableEq, Repr

inductive ClientResponse where
  | ack
  deriving DecidableEq, Repr

inductive ClientError where
  | unavailable
  | timeout
  deriving DecidableEq, Repr

abbrev ClientResult := Except ClientError ClientResponse

inductive RpcRequest where
  | appendEntries (req : AppendEntriesRequest Cmd)
  | requestVote (req : RequestVoteRequest)
  | forwardClientRequest (req : ClientRequest Cmd)
  deriving DecidableEq, Repr

inductive RpcResponse where
  | appendEntries (resp : AppendEntriesResponse)
  | requestVote (resp : RequestVoteResponse)
  | forwardClientRequest (resp : ClientResult)

/-- The kinds of `transport::Error`; their texts are only logged. -/
inductive TransportError where
  | js
  | requestTimeout
  | tooManyInFlightRequests
  | disconnected
  | unavailable
  deriving DecidableEq, Repr

abbrev RpcResult := Except TransportError RpcResponse

end Wraft
