import Mathlib.Logic.Function.Basic
import Wraft.Raft.LogWrites

/-!
# Sessions in one local storage

The `Storage` values of any number of sessions, which all write to the one local storage of the
page's origin. Each session is opened with `Storage::new`, may be re-opened at any time, and runs
its operations in between; the sessions' steps are interleaved in any order.

A storage refines a record in memory (`Record`: a term, an optional vote and a list of entries)
when it is well formed and has that term, vote and log. An operation of a session moves its
record (`Refines.outcome`) and writes no item of another session (`getItem_outcome`), so that
every session has the record that its own operations alone would have made
(`storage_refines_record`), and re-opening it finds just that.
-/

namespace Wraft

open TransitionSystem

/-- The session whose `Storage` writes the item, if a `Storage` does. -/
def Key.writer : Key → Option ℕ
  | .currentTerm sessionKey | .votedFor sessionKey | .lastLogIndex sessionKey
  | .log sessionKey _ => some sessionKey
  | .peerConfiguration _ => none

/-- The operations on a `Storage` that write. -/
inductive StorageOp (Cmd : Type) where
  | updateTerm (term : ℕ)
  | incrementTerm
  | setVotedFor (val : Option NodeId)
  | log (op : LogWrite Cmd)

/-- A term, an optional vote and a list of entries. -/
structure Record (Cmd : Type) where
  term : ℕ
  vote : Option NodeId
  entries : List (LogEntry Cmd)
  deriving DecidableEq

variable {Cmd : Type}

namespace StorageOp

/-- A log write is called as the worker calls it. -/
def Allowed (s : Storage Cmd) : StorageOp Cmd → Prop
  | log op => op.Allowed s
  | _ => True

instance (s : Storage Cmd) : ∀ op : StorageOp Cmd, Decidable (op.Allowed s)
  | log op => inferInstanceAs (Decidable (op.Allowed s))
  | updateTerm _ | incrementTerm | setVotedFor _ => inferInstanceAs (Decidable True)

/-- The storage when the operation has run. -/
def outcome [Bincode (LogEntry Cmd)] (op : StorageOp Cmd) (s : Storage Cmd) : Storage Cmd :=
  match op with
  | updateTerm term => (s.updateTerm term).2
  | incrementTerm => s.incrementTerm
  | setVotedFor val => s.setVotedFor val
  | log op => op.outcome s

end StorageOp

namespace Record

/-- No term, no vote and no entry yet. -/
def init : Record Cmd where
  term := 0
  vote := none
  entries := []

/-- What an operation does to the record; overwriting replaces the list from the entry on. -/
def apply (r : Record Cmd) : StorageOp Cmd → Record Cmd
  | .updateTerm term => if r.term < term then { r with term, vote := none } else r
  | .incrementTerm => { r with term := r.term + 1, vote := none }
  | .setVotedFor val => { r with vote := val }
  | .log (.append entry) => { r with entries := r.entries ++ [entry] }
  | .log (.overwrite entry) => { r with entries := r.entries.take (entry.idx - 1) ++ [entry] }

/-- The entry at an index, counted from `1`. -/
def get (r : Record Cmd) (idx : ℕ) : Option (LogEntry Cmd) :=
  if idx = 0 then none else r.entries[idx - 1]?

/-- The term of the last entry, `0` when there is none. -/
def lastTerm (r : Record Cmd) : ℕ := r.entries.getLast?.elim 0 LogEntry.term

end Record

/-! ### The sessions -/

/-- The local storage of an origin and the open `Storage` of each session. The storage that a
handle carries is the one its session left behind; others may have written to it since. -/
structure Browser (Cmd : Type) where
  storage : LocalStorage
  handles : ℕ → Option (Storage Cmd)
  sessionKey_eq : ∀ k s, handles k = some s → s.sessionKey = k

/-- The steps of the sessions. -/
inductive SessionAction (Cmd : Type) where
  /-- `Storage::new` -/
  | open (sessionKey : ℕ)
  | op (sessionKey : ℕ) (op : StorageOp Cmd)

/-- The session that takes the step. -/
def SessionAction.session : SessionAction Cmd → ℕ
  | .open sessionKey | .op sessionKey _ => sessionKey

/-- What a step does to the record of its session: re-opening does nothing. -/
def Record.step (r : Record Cmd) : SessionAction Cmd → Record Cmd
  | .open _ => r
  | .op _ op => r.apply op

namespace Browser

/-- The open `Storage` of a session. -/
def session (b : Browser Cmd) (sessionKey : ℕ) : Option (Storage Cmd) :=
  (b.handles sessionKey).map fun s => { s with storage := b.storage }

/-- A session's `Storage` has changed, and the local storage with it. -/
def setSession (b : Browser Cmd) (s : Storage Cmd) : Browser Cmd where
  storage := s.storage
  handles := Function.update b.handles s.sessionKey (some s)
  sessionKey_eq k s' hs' := by
    obtain rfl | hk := eq_or_ne k s.sessionKey
    · rw [Function.update_self] at hs'
      rw [Option.some.inj hs']
    · rw [Function.update_of_ne hk] at hs'
      exact b.sessionKey_eq k s' hs'

/-- No session is open. -/
def closed (ls : LocalStorage) : Browser Cmd where
  storage := ls
  handles _ := none
  sessionKey_eq _ _ hs := nomatch hs

/-- One step; `none` when it is not possible. -/
def exec [Bincode (LogEntry Cmd)] (b : Browser Cmd) : SessionAction Cmd → Option (Browser Cmd)
  | .open sessionKey => (Storage.new sessionKey b.storage).toOption.map b.setSession
  | .op sessionKey op =>
    (b.session sessionKey).bind fun s =>
      if op.Allowed s then some (b.setSession (op.outcome s)) else none

@[simp]
theorem session_setSession (b : Browser Cmd) (s : Storage Cmd) :
    (b.setSession s).session s.sessionKey = some s := by
  simp [session, setSession]

theorem handles_setSession_of_ne (b : Browser Cmd) {s : Storage Cmd} {k : ℕ}
    (hk : k ≠ s.sessionKey) : (b.setSession s).handles k = b.handles k :=
  Function.update_of_ne hk _ _

theorem sessionKey_of_session {b : Browser Cmd} {k : ℕ} {s : Storage Cmd}
    (h : b.session k = some s) : s.sessionKey = k := by
  obtain ⟨s', hs', rfl⟩ := Option.map_eq_some_iff.mp h
  exact b.sessionKey_eq k s' hs'

theorem storage_of_session {b : Browser Cmd} {k : ℕ} {s : Storage Cmd}
    (h : b.session k = some s) : s.storage = b.storage := by
  obtain ⟨s', -, rfl⟩ := Option.map_eq_some_iff.mp h
  rfl

end Browser

/-! ### One session -/

namespace Storage

variable [Bincode (LogEntry Cmd)] {s : Storage Cmd} {r : Record Cmd}

/-- The storage is well formed and has the record's term, vote and log. -/
structure Refines (s : Storage Cmd) (r : Record Cmd) : Prop where
  wf : s.Wf
  term : s.currentTerm = r.term
  vote : s.votedFor = r.vote
  log : s.log = r.entries

/-- Everything that can be asked of the storage has the record's answer. -/
structure Shows (s : Storage Cmd) (r : Record Cmd) : Prop where
  term : s.currentTerm = r.term
  vote : s.votedFor = r.vote
  lastLogIndex : s.lastLogIndex = r.entries.length
  lastLogTerm : s.lastLogTerm = .ok r.lastTerm
  getLog : ∀ idx, s.getLog idx = .ok (r.get idx)
  sublog : ∀ indices, s.sublog indices = .ok (indices.filterMap r.get)

theorem Refines.getLog_eq (h : s.Refines r) (idx : ℕ) : s.getLog idx = .ok (r.get idx) := by
  rw [h.wf.getLog_eq, h.log, Record.get]

theorem Refines.shows (h : s.Refines r) : s.Shows r where
  term := h.term
  vote := h.vote
  lastLogIndex := by rw [← h.log, h.wf.length_log]
  lastLogTerm := by
    rw [h.wf.lastLogTerm_eq, h.log]
    rfl
  getLog := h.getLog_eq
  sublog indices := by
    induction indices with
    | nil => rfl
    | cons i is ih =>
      rw [Storage.sublog, h.getLog_eq, ih, List.filterMap_cons]
      cases r.get i <;> rfl

/-- **One operation** moves the record that the storage refines. -/
theorem Refines.outcome (h : s.Refines r) {op : StorageOp Cmd} (hop : op.Allowed s) :
    (op.outcome s).Refines (r.apply op) := by
  cases op with
  | updateTerm term =>
    rw [StorageOp.outcome, updateTerm, Record.apply, ← h.term]
    split_ifs with hlt
    · exact ⟨wf_setCurrentTerm (wf_setVotedFor h.wf none) term, rfl, rfl, by simp [h.log]⟩
    · exact h
  | incrementTerm =>
    exact ⟨wf_incrementTerm h.wf, congrArg (· + 1) h.term, rfl, (log_incrementTerm s).trans h.log⟩
  | setVotedFor val =>
    exact ⟨wf_setVotedFor h.wf val, (currentTerm_setVotedFor s val).trans h.term,
      votedFor_setVotedFor s val, (log_setVotedFor s val).trans h.log⟩
  | log op =>
    have hwf : (op.outcome s).Wf := LogWrite.wf_outcome h.wf hop
    cases op with
    | append entry =>
      have heq := LogWrite.outcome_append hop
      rw [heq] at hwf
      rw [StorageOp.outcome, heq]
      exact ⟨hwf, h.term, h.vote, by rw [log_appended, h.log, Record.apply]⟩
    | overwrite entry =>
      have heq := LogWrite.outcome_overwrite hop
      rw [heq] at hwf
      rw [StorageOp.outcome, heq]
      have hle : entry.idx ≤ s.lastLogIndex := hop.1
      refine ⟨hwf, h.term, h.vote, ?_⟩
      rw [log_appended, log_setLastLogIndex h.wf (by omega), h.log, Record.apply]

/-- An operation leaves the session as it is. -/
theorem sessionKey_outcome {op : StorageOp Cmd} (hop : op.Allowed s) :
    (op.outcome s).sessionKey = s.sessionKey := by
  cases op with
  | updateTerm term => exact sessionKey_updateTerm s term
  | incrementTerm => rfl
  | setVotedFor val => exact sessionKey_setVotedFor s val
  | log op =>
    rw [StorageOp.outcome]
    cases op with
    | append entry => rw [LogWrite.outcome_append hop]; rfl
    | overwrite entry => rw [LogWrite.outcome_overwrite hop]; rfl

/-! ### The others -/

/-- The two local storages have the same items, except that session `k` may have written its
own. -/
def OnlyWrites (k : ℕ) (ls ls' : LocalStorage) : Prop :=
  ∀ key : Key, key.writer ≠ some k → ls'.getItem key.format = ls.getItem key.format

theorem OnlyWrites.refl (k : ℕ) (ls : LocalStorage) : OnlyWrites k ls ls := fun _ _ => rfl

theorem OnlyWrites.trans {k : ℕ} {ls ls' ls'' : LocalStorage} (h : OnlyWrites k ls ls')
    (h' : OnlyWrites k ls' ls'') : OnlyWrites k ls ls'' := fun key hkey =>
  (h' key hkey).trans (h key hkey)

omit [Bincode (LogEntry Cmd)] in
theorem onlyWrites_setPersistent (s : Storage Cmd) {key : Key} (v : String)
    (hkey : key.writer = some s.sessionKey) :
    OnlyWrites s.sessionKey s.storage (s.setPersistent key.format v).storage := fun _ hne =>
  getItem_setPersistent_of_ne s v fun heq => hne (heq ▸ hkey)

omit [Bincode (LogEntry Cmd)] in
theorem onlyWrites_setVotedFor (s : Storage Cmd) (val : Option NodeId) :
    OnlyWrites s.sessionKey s.storage (s.setVotedFor val).storage := by
  cases val with
  | none =>
    intro key hne
    refine LocalStorage.getItem_removeItem_of_ne _ fun heq => hne ?_
    rw [← Key.format_inj.mp heq]
    rfl
  | some c => exact onlyWrites_setPersistent { s with votedFor := some c } _ rfl

omit [Bincode (LogEntry Cmd)] in
/-- The vote is cleared and a term is written. -/
theorem onlyWrites_setCurrentTerm (s : Storage Cmd) (term : ℕ) :
    OnlyWrites s.sessionKey s.storage ((s.setVotedFor none).setCurrentTerm term).storage :=
  (onlyWrites_setVotedFor s none).trans
    (onlyWrites_setPersistent { s.setVotedFor none with currentTerm := term } _ rfl)

/-- The last index is written, and an entry behind it. -/
theorem onlyWrites_appended (s : Storage Cmd) (e : LogEntry Cmd) :
    OnlyWrites s.sessionKey s.storage (s.appended e).storage :=
  (onlyWrites_setPersistent { s with lastLogIndex := s.lastLogIndex + 1 } _ rfl).trans
    (onlyWrites_setPersistent (s.setLastLogIndex (s.lastLogIndex + 1)) _ rfl)

/-- **An operation writes the items of its own session only.** -/
theorem onlyWrites_outcome {op : StorageOp Cmd} (hop : op.Allowed s) :
    OnlyWrites s.sessionKey s.storage (op.outcome s).storage := by
  cases op with
  | updateTerm term =>
    rw [StorageOp.outcome, updateTerm]
    split_ifs
    · exact onlyWrites_setCurrentTerm s term
    · exact .refl _ _
  | incrementTerm => exact onlyWrites_setCurrentTerm s (s.currentTerm + 1)
  | setVotedFor val => exact onlyWrites_setVotedFor s val
  | log op =>
    rw [StorageOp.outcome]
    cases op with
    | append entry =>
      rw [LogWrite.outcome_append hop]
      exact onlyWrites_appended s entry
    | overwrite entry =>
      rw [LogWrite.outcome_overwrite hop]
      exact (onlyWrites_setPersistent { s with lastLogIndex := entry.idx - 1 } _ rfl).trans
        (onlyWrites_appended (s.setLastLogIndex (entry.idx - 1)) entry)

/-- A storage refines the same record on any local storage that has the session's items. -/
theorem Refines.congr (h : s.Refines r) (ls : LocalStorage)
    (hls : ∀ key : Key, key.writer = some s.sessionKey →
      ls.getItem key.format = s.storage.getItem key.format) :
    { s with storage := ls }.Refines r := by
  have hentry : ∀ i, { s with storage := ls }.entryAt i = s.entryAt i := fun i =>
    congrArg (Option.bind · _) (hls (.log s.sessionKey i) rfl)
  refine ⟨⟨⟨?_, ?_, ?_⟩, h.wf.filled.congr fun i _ _ => hentry i⟩, h.term, h.vote, ?_⟩
  · exact (readNumber_congr (hls _ rfl) _ _).trans h.wf.cached.term
  · exact (readNumber_congr (hls _ rfl) _ _).trans h.wf.cached.vote
  · exact (readNumber_congr (hls _ rfl) _ _).trans h.wf.cached.last
  · exact (logUpTo_congr fun i _ _ => hentry i).trans h.log

/-- A session without items refines the empty record. -/
theorem refines_init {k : ℕ} {ls : LocalStorage}
    (hls : ∀ key : Key, key.writer = some k → ls.getItem key.format = none) :
    (Storage.mk k 0 0 none ls : Storage Cmd).Refines .init :=
  Refines.congr (s := Storage.mk k 0 0 none []) ⟨wf_empty k, rfl, rfl, rfl⟩ ls hls

end Storage

/-! ### All sessions -/

namespace Browser

variable [Bincode (LogEntry Cmd)] {b b' : Browser Cmd} {r : Record Cmd} {k : ℕ}

/-- A step of a session re-opens its storage or runs an operation on it. -/
theorem exec_cases {a : SessionAction Cmd} (h : b.exec a = some b') :
    (∃ k s, a = .open k ∧ Storage.new k b.storage = .ok s ∧ b' = b.setSession s) ∨
    ∃ k op s, a = .op k op ∧ b.session k = some s ∧ op.Allowed s ∧
      b' = b.setSession (op.outcome s) := by
  cases a with
  | «open» k =>
    refine .inl ⟨k, ?_⟩
    obtain ⟨s, hs, rfl⟩ := Option.map_eq_some_iff.mp h
    cases hnew : (Storage.new k b.storage : Except Panic (Storage Cmd)) with
    | error p => exact absurd hs (by simp [hnew, Except.toOption])
    | ok u =>
      rw [hnew] at hs
      exact ⟨s, rfl, congrArg _ (Option.some.inj hs), rfl⟩
  | op k op =>
    obtain ⟨s, hs, hexec⟩ := Option.bind_eq_some_iff.mp h
    split_ifs at hexec with hop
    exact .inr ⟨k, op, s, rfl, hs, hop, (Option.some.inj hexec).symm⟩

/-- Session `k` re-opens as a storage that refines the record `r`; if it is open, it is this
storage already. -/
def Holds (k : ℕ) (b : Browser Cmd) (r : Record Cmd) : Prop :=
  ∃ s : Storage Cmd, Storage.new k b.storage = .ok s ∧ s.Refines r ∧
    ∀ s', b.session k = some s' → s' = s

theorem holds_setSession {s : Storage Cmd} (h : s.Refines r) :
    Holds s.sessionKey (b.setSession s) r := by
  refine ⟨s, h.wf.cached.new_eq, h, fun s' hs' => ?_⟩
  rw [session_setSession] at hs'
  exact (Option.some.inj hs').symm

/-- The session that takes a step has what the step makes of its record. -/
theorem Holds.own {a : SessionAction Cmd} (hexec : b.exec a = some b')
    (h : Holds a.session b r) : Holds a.session b' (r.step a) := by
  obtain ⟨s, hnew, href, hsession⟩ := h
  obtain ⟨k, s', rfl, hnew', rfl⟩ | ⟨k, op, s', rfl, hs', hop, rfl⟩ := exec_cases hexec
  · obtain rfl : s = s' := Except.ok.inj (hnew.symm.trans hnew')
    obtain rfl : s.sessionKey = k := (Storage.new_eq_ok_iff.mp hnew).1
    exact holds_setSession href
  · obtain rfl := hsession s' hs'
    obtain rfl : s'.sessionKey = k := sessionKey_of_session hs'
    have hkey := Storage.sessionKey_outcome hop
    exact hkey ▸ holds_setSession (href.outcome hop)

/-- A storage that only its session has written to since is the session's. -/
theorem holds_setSession_of_ne {s : Storage Cmd} (hk : k ≠ s.sessionKey)
    (hw : Storage.OnlyWrites s.sessionKey b.storage s.storage) (h : Holds k b r) :
    Holds k (b.setSession s) r := by
  obtain ⟨u, hnew, href, hsession⟩ := h
  obtain ⟨rfl, hu, -⟩ := Storage.new_eq_ok_iff.mp hnew
  have href' := href.congr s.storage fun key hkey => by
    rw [hw key fun heq => hk (Option.some.inj (hkey.symm.trans heq)), hu]
  refine ⟨_, href'.wf.cached.new_eq, href', fun s' hs' => ?_⟩
  obtain ⟨v, hv, rfl⟩ := Option.map_eq_some_iff.mp hs'
  rw [handles_setSession_of_ne b hk] at hv
  rw [← hsession _ (Option.map_eq_some_iff.mpr ⟨v, hv, rfl⟩)]
  rfl

/-- The other sessions keep their records. -/
theorem Holds.other {a : SessionAction Cmd} (hk : k ≠ a.session) (hexec : b.exec a = some b')
    (h : Holds k b r) : Holds k b' r := by
  obtain ⟨j, s, rfl, hnew, rfl⟩ | ⟨j, op, s, rfl, hs, hop, rfl⟩ := exec_cases hexec
  · obtain ⟨rfl, hls, -⟩ := Storage.new_eq_ok_iff.mp hnew
    exact holds_setSession_of_ne hk (hls ▸ .refl _ _) h
  · have hkey := Storage.sessionKey_outcome hop
    obtain rfl : s.sessionKey = j := sessionKey_of_session hs
    refine holds_setSession_of_ne (hkey.symm ▸ hk) ?_ h
    rw [hkey, ← storage_of_session hs]
    exact Storage.onlyWrites_outcome hop

/-- At first every session has the empty record. -/
theorem holds_closed {ls : LocalStorage}
    (hls : ∀ key : Key, key.writer ≠ none → ls.getItem key.format = none) (k : ℕ) :
    Holds k (closed ls : Browser Cmd) .init :=
  have href : (Storage.mk k 0 0 none ls : Storage Cmd).Refines .init :=
    Storage.refines_init fun key hkey => hls key (by simp [hkey])
  ⟨_, href.wf.cached.new_eq, href, fun _ hs' => nomatch hs'⟩

end Browser

variable [Bincode (LogEntry Cmd)]

/-- **The store refines a record for each session.** From a local storage without items of any
session's storage, and whatever the sessions do in whatever order: every session re-opens as a
storage that shows the record made by its own operations alone, and its open `Storage`, if it has
one, is the same. -/
theorem storage_refines_record {ls : LocalStorage}
    (hls : ∀ key : Key, key.writer ≠ none → ls.getItem key.format = none)
    {as : List (SessionAction Cmd)} {b : Browser Cmd}
    (h : as.foldlM Browser.exec (Browser.closed ls) = some b) (k : ℕ) :
    ∃ s : Storage Cmd, Storage.new k b.storage = .ok s ∧
      (∀ s', b.session k = some s' → s' = s) ∧
      s.Shows ((as.filter (·.session = k)).foldl Record.step .init) := by
  obtain ⟨s, hnew, href, hsession⟩ := foldlM_project (R := Browser.Holds)
    (fun _ _ _ _ hexec => Browser.Holds.own hexec)
    (fun _ _ _ _ _ hk hexec => Browser.Holds.other hk hexec) h (Browser.holds_closed hls k)
  exact ⟨s, hnew, hsession, href.shows⟩

/-- Sessions `1` and `11`, whose keys are close to each other, write in turn. -/
def SessionAction.turns : List (SessionAction ℕ) :=
  [.open 1, .open 11, .op 11 (.updateTerm 3), .op 1 .incrementTerm, .op 11 (.setVotedFor (some 7)),
    .op 1 (.log (.append ⟨5, 1, 1⟩)), .op 11 (.log (.append ⟨8, 3, 1⟩)), .open 1,
    .op 1 (.updateTerm 2), .op 1 (.log (.overwrite ⟨6, 2, 1⟩))]

theorem storage_refines_record_turns : ∃ b : Browser ℕ,
    SessionAction.turns.foldlM Browser.exec (Browser.closed []) = some b ∧
    ∃ s : Storage ℕ, Storage.new 1 b.storage = .ok s ∧ (∀ s', b.session 1 = some s' → s' = s) ∧
      s.Shows ⟨2, none, [⟨6, 2, 1⟩]⟩ := by
  have hrun : (SessionAction.turns.foldlM Browser.exec (Browser.closed [])).isSome := by
    decide +kernel
  obtain ⟨b, hb⟩ := Option.isSome_iff_exists.mp hrun
  exact ⟨b, hb, storage_refines_record (fun _ _ => rfl) hb 1⟩

end Wraft
