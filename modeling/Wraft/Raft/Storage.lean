import Wraft.Browser.LocalStorage
import Wraft.Raft.Message

/-!
# `raft/storage.rs`

The persistent state of a Raft node: term, vote and log, kept in the local storage under keys
that carry the session's key, with the first three numbers cached in memory. Functions are named
after the source's. Those that cannot panic are plain functions of the storage; the others are
computations in `Rust`.
-/

namespace Wraft

/-- The items a session keeps in the local storage. -/
inductive Key where
  | currentTerm (sessionKey : ℕ)
  | votedFor (sessionKey : ℕ)
  | lastLogIndex (sessionKey : ℕ)
  | log (sessionKey : ℕ) (idx : ℕ)
  | peerConfiguration (sessionKey : ℕ)
  deriving DecidableEq, Repr

/-- The key of an item, as `format!` builds it. -/
def Key.format : Key → String
  | .currentTerm sessionKey => "current-term-" ++ toString sessionKey
  | .votedFor sessionKey => "voted-for-" ++ toString sessionKey
  | .lastLogIndex sessionKey => "last-log-index-" ++ toString sessionKey
  | .log sessionKey idx => "log-" ++ (toString sessionKey ++ "-" ++ toString idx)
  | .peerConfiguration sessionKey => "peer-configuration-" ++ toString sessionKey

/-- The first two letters of a key, which tell the five formats apart. -/
private def Key.initials : Key → List Char
  | .currentTerm _ => ['c', 'u']
  | .votedFor _ => ['v', 'o']
  | .lastLogIndex _ => ['l', 'a']
  | .log _ _ => ['l', 'o']
  | .peerConfiguration _ => ['p', 'e']

private theorem take_two_append {p : String} {c d : Char} (h : p.toList.take 2 = [c, d])
    (s : String) : (p ++ s).toList.take 2 = [c, d] := by
  have hlen : 2 ≤ p.toList.length := by
    have := congrArg List.length h
    simp only [List.length_take, List.length_cons, List.length_nil] at this
    omega
  rw [String.toList_append, List.take_append_of_le_length hlen, h]

private theorem Key.take_two_format : ∀ k : Key, k.format.toList.take 2 = k.initials
  | .currentTerm _ => take_two_append (by decide +kernel) _
  | .votedFor _ => take_two_append (by decide +kernel) _
  | .lastLogIndex _ => take_two_append (by decide +kernel) _
  | .log _ _ => take_two_append (by decide +kernel) _
  | .peerConfiguration _ => take_two_append (by decide +kernel) _

/-- **Different items have different keys.** -/
@[simp]
theorem Key.format_inj {a b : Key} : a.format = b.format ↔ a = b := by
  refine ⟨fun h => ?_, congrArg _⟩
  have hinit : a.initials = b.initials := by
    rw [← take_two_format, ← take_two_format, h]
  cases a <;> cases b <;> simp only [Key.initials, List.cons.injEq, Char.reduceEq, false_and,
    and_false] at hinit
  case currentTerm.currentTerm => rw [repr_inj.mp (append_right_inj.mp h)]
  case votedFor.votedFor => rw [repr_inj.mp (append_right_inj.mp h)]
  case lastLogIndex.lastLogIndex => rw [repr_inj.mp (append_right_inj.mp h)]
  case peerConfiguration.peerConfiguration => rw [repr_inj.mp (append_right_inj.mp h)]
  case log.log =>
    obtain ⟨rfl, rfl⟩ := repr_dash_repr_inj.mp (append_right_inj.mp h)
    rfl

structure Storage (Cmd : Type) where
  sessionKey : ℕ
  lastLogIndex : ℕ
  currentTerm : ℕ
  votedFor : Option NodeId
  storage : LocalStorage
  deriving DecidableEq

namespace Storage

variable {Cmd : Type}

/-- A stored number, `default` when there is none; `parse().unwrap()` panics on anything else. -/
def readNumber {α : Type} (ls : LocalStorage) (key : String) (default : α) (some' : ℕ → α) :
    Except Panic α :=
  match ls.getItem key with
  | none => .ok default
  | some s =>
    match parseU64 s with
    | some n => .ok (some' n)
    | none => .error .parse

/-- `Storage::new`. -/
def new (sessionKey : ℕ) (ls : LocalStorage) : Except Panic (Storage Cmd) := do
  let currentTerm ← readNumber ls (Key.currentTerm sessionKey).format 0 id
  let votedFor ← readNumber ls (Key.votedFor sessionKey).format none some
  let lastLogIndex ← readNumber ls (Key.lastLogIndex sessionKey).format 0 id
  return { sessionKey, lastLogIndex, currentTerm, votedFor, storage := ls }

def setPersistent (s : Storage Cmd) (key val : String) : Storage Cmd :=
  { s with storage := s.storage.setItem key val }

def setLastLogIndex (s : Storage Cmd) (idx : ℕ) : Storage Cmd :=
  { s with lastLogIndex := idx }.setPersistent (Key.lastLogIndex s.sessionKey).format (toString idx)

def setCurrentTerm (s : Storage Cmd) (term : ℕ) : Storage Cmd :=
  { s with currentTerm := term }.setPersistent (Key.currentTerm s.sessionKey).format (toString term)

def setVotedFor (s : Storage Cmd) : Option NodeId → Storage Cmd
  | some val =>
    { s with votedFor := some val }.setPersistent (Key.votedFor s.sessionKey).format (toString val)
  | none =>
    { s with storage := s.storage.removeItem (Key.votedFor s.sessionKey).format, votedFor := none }

/-- Returns true if the term needed to be updated. -/
def updateTerm (s : Storage Cmd) (term : ℕ) : Bool × Storage Cmd :=
  if s.currentTerm < term then (true, (s.setVotedFor none).setCurrentTerm term) else (false, s)

/-- In the source the successor of the largest `u64` is `0`. -/
def incrementTerm (s : Storage Cmd) : Storage Cmd :=
  (s.setVotedFor none).setCurrentTerm (s.currentTerm + 1)

variable [Bincode (LogEntry Cmd)]

def getLog (s : Storage Cmd) (idx : ℕ) : Except Panic (Option (LogEntry Cmd)) :=
  -- log indices start at 1
  if idx = 0 ∨ s.lastLogIndex < idx then .ok none
  else
    match (s.storage.getItem (Key.log s.sessionKey idx).format).bind Bincode.deserialize with
    | some entry => .ok (some entry)
    | none => .error .logItem

/-- The entries of the log at `indices`; indices without an entry are skipped. -/
def sublog (s : Storage Cmd) : List ℕ → Except Panic (List (LogEntry Cmd))
  | [] => .ok []
  | i :: is => do
    let entry ← s.getLog i
    let rest ← s.sublog is
    return entry.toList ++ rest

def lastLogTerm (s : Storage Cmd) : Except Panic ℕ := do
  match ← s.getLog s.lastLogIndex with
  | some entry => return entry.term
  | none => return 0

/-- `increment_last_log_index`, the assertion and the entry's own write, in this order. -/
def appendLog (entry : LogEntry Cmd) : Rust (Storage Cmd) Unit := do
  let idx := (← get).lastLogIndex + 1
  modify (·.setLastLogIndex idx)
  unless idx = entry.idx do throw .appendIdx
  modify fun s => s.setPersistent (Key.log s.sessionKey idx).format (Bincode.serialize entry)

def overwriteLog (entry : LogEntry Cmd) : Rust (Storage Cmd) Unit := do
  unless (← get).lastLogIndex ≤ entry.idx do throw .overwriteOrder
  unless entry.idx ≠ 0 do throw .overwriteZero
  modify (·.setLastLogIndex (entry.idx - 1))
  appendLog entry

end Storage

end Wraft
