import Mathlib.Data.List.TakeDrop
import Mathlib.Tactic.Common
import Wraft.Consensus.Completeness
import Wraft.ForMathlib.EStateM
import Wraft.Raft.Storage

/-!
# The store behind `Storage`

A well-formed storage (`Storage.Wf`) stands for a term, an optional vote and a list of entries
(`Storage.log`): the cached numbers are the ones that re-opening would read, and each index up to
the last one has an entry with that index. The operations act on the three as one expects, each
with one lemma: the log is appended to by `appendLog_eq` and its last entry replaced by
`overwriteLog_eq`, while any other overwriting of an existing entry panics
(`overwriteLog_eq_error`) before anything is written.
-/

namespace Wraft

namespace Storage

variable {Cmd : Type}

/-! ### The cached numbers -/

/-- The cached numbers are those that `Storage.new` would read. -/
structure Cached (s : Storage Cmd) : Prop where
  term : readNumber s.storage (Key.currentTerm s.sessionKey).format 0 id = .ok s.currentTerm
  vote : readNumber s.storage (Key.votedFor s.sessionKey).format none some = .ok s.votedFor
  last : readNumber s.storage (Key.lastLogIndex s.sessionKey).format 0 id = .ok s.lastLogIndex

/-- What `Storage.new` returns is the storage whose cached numbers it read. -/
theorem new_eq_ok_iff {k : ℕ} {ls : LocalStorage} {s : Storage Cmd} :
    Storage.new k ls = .ok s ↔ s.sessionKey = k ∧ s.storage = ls ∧ s.Cached := by
  constructor
  · intro h
    unfold new at h
    rcases ht : readNumber ls (Key.currentTerm k).format 0 id with e | term
    · simp [ht, bind, Except.bind] at h
    rcases hv : readNumber ls (Key.votedFor k).format none some with e | vote
    · simp [ht, hv, bind, Except.bind] at h
    rcases hl : readNumber ls (Key.lastLogIndex k).format 0 id with e | last
    · simp [ht, hv, hl, bind, Except.bind] at h
    simp only [ht, hv, hl, bind, Except.bind, pure, Except.pure, Except.ok.injEq] at h
    subst h
    exact ⟨rfl, rfl, ht, hv, hl⟩
  · rintro ⟨rfl, rfl, ht, hv, hl⟩
    simp [new, ht, hv, hl, bind, Except.bind, pure, Except.pure]

/-- Re-opening finds the cached numbers again. -/
theorem Cached.new_eq {s : Storage Cmd} (h : s.Cached) :
    Storage.new s.sessionKey s.storage = .ok s :=
  new_eq_ok_iff.mpr ⟨rfl, rfl, h⟩

theorem readNumber_setItem_self {α : Type} (ls : LocalStorage) (key : String) (n : ℕ)
    (default : α) (f : ℕ → α) :
    readNumber (ls.setItem key (toString n)) key default f = .ok (f n) := by
  simp [readNumber]

theorem readNumber_removeItem_self {α : Type} (ls : LocalStorage) (key : String)
    (default : α) (f : ℕ → α) : readNumber (ls.removeItem key) key default f = .ok default := by
  simp [readNumber]

theorem readNumber_congr {α : Type} {ls ls' : LocalStorage} {key : String}
    (h : ls.getItem key = ls'.getItem key) (default : α) (f : ℕ → α) :
    readNumber ls key default f = readNumber ls' key default f := by
  simp [readNumber, h]

/-- Writing one item leaves the others. -/
theorem getItem_setPersistent_of_ne (s : Storage Cmd) {k k' : Key} (v : String) (h : k ≠ k') :
    (s.setPersistent k.format v).storage.getItem k'.format = s.storage.getItem k'.format :=
  LocalStorage.getItem_setItem_of_ne _ _ (by simpa using h)

theorem cached_setLastLogIndex {s : Storage Cmd} (h : s.Cached) (idx : ℕ) :
    (s.setLastLogIndex idx).Cached where
  term := (readNumber_congr (getItem_setPersistent_of_ne _ _ (by simp)) _ _).trans h.term
  vote := (readNumber_congr (getItem_setPersistent_of_ne _ _ (by simp)) _ _).trans h.vote
  last := readNumber_setItem_self _ _ _ _ _

theorem cached_setCurrentTerm {s : Storage Cmd} (h : s.Cached) (t : ℕ) :
    (s.setCurrentTerm t).Cached where
  term := readNumber_setItem_self _ _ _ _ _
  vote := (readNumber_congr (getItem_setPersistent_of_ne _ _ (by simp)) _ _).trans h.vote
  last := (readNumber_congr (getItem_setPersistent_of_ne _ _ (by simp)) _ _).trans h.last

theorem cached_setVotedFor {s : Storage Cmd} (h : s.Cached) (v : Option NodeId) :
    (s.setVotedFor v).Cached := by
  cases v with
  | none =>
    exact
      { term := (readNumber_congr (LocalStorage.getItem_removeItem_of_ne _ (by simp)) _ _).trans
          h.term
        vote := readNumber_removeItem_self _ _ _ _
        last := (readNumber_congr (LocalStorage.getItem_removeItem_of_ne _ (by simp)) _ _).trans
          h.last }
  | some c =>
    exact
      { term := (readNumber_congr (getItem_setPersistent_of_ne _ _ (by simp)) _ _).trans h.term
        vote := readNumber_setItem_self _ _ _ _ _
        last := (readNumber_congr (getItem_setPersistent_of_ne _ _ (by simp)) _ _).trans h.last }

theorem cached_setEntry {s : Storage Cmd} (h : s.Cached) (i : ℕ) (v : String) :
    (s.setPersistent (Key.log s.sessionKey i).format v).Cached where
  term := (readNumber_congr (getItem_setPersistent_of_ne _ _ (by simp)) _ _).trans h.term
  vote := (readNumber_congr (getItem_setPersistent_of_ne _ _ (by simp)) _ _).trans h.vote
  last := (readNumber_congr (getItem_setPersistent_of_ne _ _ (by simp)) _ _).trans h.last

@[simp]
theorem currentTerm_setVotedFor (s : Storage Cmd) (v : Option NodeId) :
    (s.setVotedFor v).currentTerm = s.currentTerm := by cases v <;> rfl

@[simp]
theorem votedFor_setVotedFor (s : Storage Cmd) (v : Option NodeId) :
    (s.setVotedFor v).votedFor = v := by cases v <;> rfl

@[simp]
theorem sessionKey_setVotedFor (s : Storage Cmd) (v : Option NodeId) :
    (s.setVotedFor v).sessionKey = s.sessionKey := by cases v <;> rfl

/-- Term, vote and session are the same; only the log may differ. -/
structure SameVote (s s' : Storage Cmd) : Prop where
  sessionKey : s'.sessionKey = s.sessionKey
  currentTerm : s'.currentTerm = s.currentTerm
  votedFor : s'.votedFor = s.votedFor

theorem SameVote.refl (s : Storage Cmd) : SameVote s s := ⟨rfl, rfl, rfl⟩

theorem SameVote.trans {s s' s'' : Storage Cmd} (h : SameVote s s') (h' : SameVote s' s'') :
    SameVote s s'' :=
  ⟨h'.1.trans h.1, h'.2.trans h.2, h'.3.trans h.3⟩

theorem currentTerm_updateTerm (s : Storage Cmd) (t : ℕ) :
    (s.updateTerm t).2.currentTerm = max s.currentTerm t := by
  unfold updateTerm
  split_ifs with h
  · exact (max_eq_right h.le).symm
  · exact (max_eq_left (not_lt.mp h)).symm

theorem votedFor_updateTerm (s : Storage Cmd) (t : ℕ) :
    (s.updateTerm t).2.votedFor = if s.currentTerm < t then none else s.votedFor := by
  unfold updateTerm
  split_ifs <;> rfl

@[simp]
theorem sessionKey_updateTerm (s : Storage Cmd) (t : ℕ) :
    (s.updateTerm t).2.sessionKey = s.sessionKey := by
  unfold updateTerm
  split_ifs <;> rfl

theorem updateTerm_fst (s : Storage Cmd) (t : ℕ) :
    (s.updateTerm t).1 = decide (s.currentTerm < t) := by
  unfold updateTerm
  split_ifs with h <;> simp [h]

/-- A term that is not newer changes nothing. -/
theorem updateTerm_of_le {s : Storage Cmd} {t : ℕ} (h : t ≤ s.currentTerm) :
    s.updateTerm t = (false, s) := by
  rw [updateTerm, if_neg (Nat.not_lt.mpr h)]

/-! ### The log -/

variable [Bincode (LogEntry Cmd)]

/-- The entry stored under the key of index `i`, if there is one. -/
def entryAt (s : Storage Cmd) (i : ℕ) : Option (LogEntry Cmd) :=
  (s.storage.getItem (Key.log s.sessionKey i).format).bind Bincode.deserialize

/-- The entries stored under the first `n` indices. -/
def logUpTo (s : Storage Cmd) : ℕ → List (LogEntry Cmd)
  | 0 => []
  | n + 1 => s.logUpTo n ++ (s.entryAt (n + 1)).toList

/-- The log: the entries up to the last index. -/
def log (s : Storage Cmd) : List (LogEntry Cmd) := s.logUpTo s.lastLogIndex

/-- Every index up to `n` has an entry with that index. -/
def Filled (s : Storage Cmd) (n : ℕ) : Prop :=
  ∀ i, 1 ≤ i → i ≤ n → ∃ e, s.entryAt i = some e ∧ e.idx = i

/-- A storage that re-opens as it is and has an entry for each index of its log. -/
structure Wf (s : Storage Cmd) : Prop where
  cached : s.Cached
  filled : s.Filled s.lastLogIndex

/-- A session whose local storage is empty. -/
theorem wf_empty (k : ℕ) : (Storage.mk k 0 0 none [] : Storage Cmd).Wf where
  cached := ⟨rfl, rfl, rfl⟩
  filled i h1 h2 := by
    have : i ≤ 0 := h2
    omega

theorem logUpTo_congr {s s' : Storage Cmd} {n : ℕ}
    (h : ∀ i, 1 ≤ i → i ≤ n → s.entryAt i = s'.entryAt i) : s.logUpTo n = s'.logUpTo n := by
  induction n with
  | zero => rfl
  | succ n ih =>
    rw [logUpTo, logUpTo, ih fun i h1 h2 => h i h1 (by omega), h (n + 1) (by omega) le_rfl]

theorem Filled.congr {s s' : Storage Cmd} {n : ℕ} (hs : s.Filled n)
    (h : ∀ i, 1 ≤ i → i ≤ n → s'.entryAt i = s.entryAt i) : s'.Filled n := fun i h1 h2 => by
  rw [h i h1 h2]
  exact hs i h1 h2

theorem Filled.length_logUpTo {s : Storage Cmd} {n : ℕ} (h : s.Filled n) :
    (s.logUpTo n).length = n := by
  induction n with
  | zero => rfl
  | succ n ih =>
    obtain ⟨e, he, -⟩ := h (n + 1) (by omega) le_rfl
    rw [logUpTo, he, List.length_append, ih fun i h1 h2 => h i h1 (by omega)]
    rfl

theorem Filled.take_logUpTo {s : Storage Cmd} {m n : ℕ} (h : s.Filled n) (hmn : m ≤ n) :
    (s.logUpTo n).take m = s.logUpTo m := by
  induction n with
  | zero =>
    obtain rfl : m = 0 := by omega
    rfl
  | succ n ih =>
    have hn : s.Filled n := fun i h1 h2 => h i h1 (by omega)
    rcases Nat.lt_or_ge n m with hlt | hge
    · obtain rfl : m = n + 1 := by omega
      exact List.take_of_length_le h.length_logUpTo.le
    · rw [logUpTo, List.take_append_of_le_length (by rw [hn.length_logUpTo]; exact hge)]
      exact ih hn hge

theorem Filled.getElem?_logUpTo {s : Storage Cmd} {n : ℕ} (h : s.Filled n) {i : ℕ} (hi : i < n) :
    (s.logUpTo n)[i]? = s.entryAt (i + 1) := by
  have hi' : s.Filled (i + 1) := fun j h1 h2 => h j h1 (by omega)
  obtain ⟨e, he, -⟩ := hi' (i + 1) (by omega) le_rfl
  have htake := congrArg (·[i]?) (h.take_logUpTo (Nat.succ_le_of_lt hi))
  simp only [List.getElem?_take, Nat.lt_succ_self, if_true, Nat.succ_eq_add_one] at htake
  have hlen : (s.logUpTo i).length = i :=
    Filled.length_logUpTo fun j h1 h2 => hi' j h1 (by omega)
  rw [htake, logUpTo, he, List.getElem?_append_right hlen.le, hlen]
  simp

/-- The entry is stored, in the log or behind its end. -/
def Has (s : Storage Cmd) (e : LogEntry Cmd) : Prop := ∃ i, s.entryAt i = some e

/-- What can be read is stored. -/
theorem entryAt_of_getLog {s : Storage Cmd} {i : ℕ} {e : LogEntry Cmd}
    (h : s.getLog i = .ok (some e)) : s.entryAt i = some e := by
  rw [getLog] at h
  split_ifs at h
  · exact nomatch h
  · split at h
    · rename_i heq
      obtain rfl := Option.some.inj (Except.ok.inj h)
      exact heq
    · exact nomatch h

theorem sublog_cons_eq_ok {s : Storage Cmd} {i : ℕ} {is : List ℕ} {es : List (LogEntry Cmd)}
    (h : s.sublog (i :: is) = .ok es) : ∃ entry rest, s.getLog i = .ok entry ∧
      s.sublog is = .ok rest ∧ es = entry.toList ++ rest := by
  rw [sublog] at h
  rcases hget : s.getLog i with p | entry
  · rw [hget] at h
    cases h
  rcases hrest : s.sublog is with p | rest
  · rw [hget, hrest] at h
    cases h
  rw [hget, hrest] at h
  exact ⟨entry, rest, rfl, rfl, (Except.ok.inj h).symm⟩

/-- What is read of the log is stored under the indices that were read. -/
theorem entryAt_of_sublog {s : Storage Cmd} {is : List ℕ} {es : List (LogEntry Cmd)}
    (h : s.sublog is = .ok es) : ∀ e ∈ es, ∃ i ∈ is, s.entryAt i = some e := by
  induction is generalizing es with
  | nil =>
    obtain rfl := Except.ok.inj h
    exact nofun
  | cons i is ih =>
    obtain ⟨entry, rest, hget, hrest, rfl⟩ := sublog_cons_eq_ok h
    intro e he
    rcases List.mem_append.mp he with he | he
    · rw [Option.mem_toList.mp he] at hget
      exact ⟨i, List.mem_cons_self, entryAt_of_getLog hget⟩
    · obtain ⟨j, hj, hat⟩ := ih hrest e he
      exact ⟨j, List.mem_cons_of_mem i hj, hat⟩

namespace Wf

variable {s : Storage Cmd}

@[simp]
theorem length_log (h : s.Wf) : s.log.length = s.lastLogIndex := h.filled.length_logUpTo

theorem getElem?_log (h : s.Wf) {i : ℕ} (hi : i < s.lastLogIndex) :
    s.log[i]? = s.entryAt (i + 1) := h.filled.getElem?_logUpTo hi

/-- Entries carry their own index, counted from `1`. -/
theorem idx_eq (h : s.Wf) {i : ℕ} {e : LogEntry Cmd} (he : s.log[i]? = some e) :
    e.idx = i + 1 := by
  have hi : i < s.lastLogIndex := by
    rw [← h.length_log]
    exact (List.getElem?_eq_some_iff.mp he).1
  obtain ⟨f, hf, hidx⟩ := h.filled (i + 1) (by omega) (by omega)
  rw [h.getElem?_log hi, hf] at he
  rw [← Option.some.inj he, hidx]

/-- `get_log` reads the log, counting from `1`. -/
theorem getLog_eq (h : s.Wf) (idx : ℕ) :
    s.getLog idx = .ok (if idx = 0 then none else s.log[idx - 1]?) := by
  unfold getLog
  by_cases h0 : idx = 0
  · simp [h0]
  rcases Nat.lt_or_ge s.lastLogIndex idx with hlt | hge
  · rw [if_pos (.inr hlt), if_neg h0, List.getElem?_eq_none (by rw [h.length_log]; omega)]
  · obtain ⟨e, he, -⟩ := h.filled idx (by omega) hge
    rw [if_neg (by omega), if_neg h0, h.getElem?_log (by omega), Nat.sub_add_cancel (by omega), he]
    rw [entryAt] at he
    rw [he]

/-- `sublog` of a range of indices, none of them `0`. -/
theorem sublog_range' (h : s.Wf) (a n : ℕ) :
    s.sublog (List.range' (a + 1) n) = .ok ((s.log.drop a).take n) := by
  induction n generalizing a with
  | zero => simp [sublog]
  | succ n ih =>
    rw [List.range'_succ, sublog, h.getLog_eq, ih (a + 1)]
    simp only [Nat.add_eq_zero_iff, one_ne_zero, and_false, if_false, Nat.add_sub_cancel, bind,
      Except.bind, pure, Except.pure, Except.ok.injEq]
    rcases Nat.lt_or_ge a s.log.length with hlt | hge
    · rw [List.getElem?_eq_getElem hlt, List.drop_eq_getElem_cons hlt, List.take_succ_cons]
      rfl
    · rw [List.getElem?_eq_none hge, List.drop_eq_nil_of_le hge,
        List.drop_eq_nil_of_le (by omega)]
      simp

theorem lastLogTerm_eq (h : s.Wf) :
    s.lastLogTerm = .ok (Consensus.lastTerm LogEntry.term s.log) := by
  have hlast : s.log.getLast? =
      if s.lastLogIndex = 0 then none else s.log[s.lastLogIndex - 1]? := by
    rw [List.getLast?_eq_getElem?, h.length_log]
    split_ifs with h0
    · have : s.log = [] := List.eq_nil_of_length_eq_zero (by rw [h.length_log, h0])
      simp [this]
    · rfl
  unfold lastLogTerm
  rw [h.getLog_eq, ← hlast, Consensus.lastTerm]
  cases s.log.getLast? <;> rfl

end Wf

/-! ### What the operations do -/

@[simp]
theorem entryAt_setLastLogIndex (s : Storage Cmd) (idx : ℕ) (i : ℕ) :
    (s.setLastLogIndex idx).entryAt i = s.entryAt i :=
  congrArg (Option.bind · _) (getItem_setPersistent_of_ne _ _ (by simp))

@[simp]
theorem entryAt_setCurrentTerm (s : Storage Cmd) (t : ℕ) (i : ℕ) :
    (s.setCurrentTerm t).entryAt i = s.entryAt i :=
  congrArg (Option.bind · _) (getItem_setPersistent_of_ne _ _ (by simp))

@[simp]
theorem entryAt_setVotedFor (s : Storage Cmd) (v : Option NodeId) (i : ℕ) :
    (s.setVotedFor v).entryAt i = s.entryAt i := by
  cases v with
  | none =>
    exact congrArg (Option.bind · _) (LocalStorage.getItem_removeItem_of_ne _ (by simp))
  | some c => exact congrArg (Option.bind · _) (getItem_setPersistent_of_ne _ _ (by simp))

theorem wf_setCurrentTerm {s : Storage Cmd} (h : s.Wf) (t : ℕ) :
    (s.setCurrentTerm t).Wf :=
  ⟨cached_setCurrentTerm h.cached t, h.filled.congr fun i _ _ => by simp⟩

theorem wf_setVotedFor {s : Storage Cmd} (h : s.Wf) (v : Option NodeId) :
    (s.setVotedFor v).Wf := by
  refine ⟨cached_setVotedFor h.cached v, ?_⟩
  have hlast : (s.setVotedFor v).lastLogIndex = s.lastLogIndex := by cases v <;> rfl
  exact hlast ▸ h.filled.congr fun i _ _ => by simp

@[simp]
theorem log_setCurrentTerm (s : Storage Cmd) (t : ℕ) : (s.setCurrentTerm t).log = s.log :=
  logUpTo_congr fun i _ _ => by simp

@[simp]
theorem log_setVotedFor (s : Storage Cmd) (v : Option NodeId) : (s.setVotedFor v).log = s.log := by
  have hlast : (s.setVotedFor v).lastLogIndex = s.lastLogIndex := by cases v <;> rfl
  rw [log, log, hlast]
  exact logUpTo_congr fun i _ _ => by simp

@[simp]
theorem log_updateTerm (s : Storage Cmd) (t : ℕ) : (s.updateTerm t).2.log = s.log := by
  unfold updateTerm
  split_ifs <;> simp

theorem wf_updateTerm {s : Storage Cmd} (h : s.Wf) (t : ℕ) : (s.updateTerm t).2.Wf := by
  unfold updateTerm
  split_ifs
  · exact wf_setCurrentTerm (wf_setVotedFor h none) t
  · exact h

@[simp]
theorem log_incrementTerm (s : Storage Cmd) : s.incrementTerm.log = s.log := by
  simp [incrementTerm]

theorem wf_incrementTerm {s : Storage Cmd} (h : s.Wf) : s.incrementTerm.Wf :=
  wf_setCurrentTerm (wf_setVotedFor h none) _

/-- The storage with `e` written behind the last entry. -/
def appended (s : Storage Cmd) (e : LogEntry Cmd) : Storage Cmd :=
  (s.setLastLogIndex (s.lastLogIndex + 1)).setPersistent
    (Key.log s.sessionKey (s.lastLogIndex + 1)).format (Bincode.serialize e)

/-- `append_log` writes the last index first, and the entry after its assertion. -/
theorem appendLog_run (s : Storage Cmd) (e : LogEntry Cmd) :
    (appendLog e).run s = if s.lastLogIndex + 1 = e.idx then .ok () (s.appended e)
      else .error .appendIdx (s.setLastLogIndex (s.lastLogIndex + 1)) := by
  by_cases h : s.lastLogIndex + 1 = e.idx
  · simp [appendLog, appended, ← h, setLastLogIndex, setPersistent]
  · simp [appendLog, h]

theorem overwriteLog_run (s : Storage Cmd) (e : LogEntry Cmd) :
    (overwriteLog e).run s =
      if e.idx < s.lastLogIndex then .error .overwriteOrder s
      else if e.idx = 0 then .error .overwriteZero s
      else .ok () ((s.setLastLogIndex (e.idx - 1)).appended e) := by
  by_cases h : e.idx < s.lastLogIndex
  · simp [overwriteLog, h, Nat.not_le.mpr h]
  by_cases h0 : e.idx = 0
  · have hlast : s.lastLogIndex = 0 := by omega
    simp [overwriteLog, h0, hlast]
  · have hcut : (s.setLastLogIndex (e.idx - 1)).lastLogIndex + 1 = e.idx := by
      show e.idx - 1 + 1 = e.idx
      omega
    simp [overwriteLog, h, h0, Nat.not_lt.mp h, appendLog_run, hcut]

theorem entryAt_appended (s : Storage Cmd) (e : LogEntry Cmd) (i : ℕ) :
    (s.appended e).entryAt i = if i = s.lastLogIndex + 1 then some e else s.entryAt i := by
  by_cases h : i = s.lastLogIndex + 1
  · subst h
    rw [if_pos rfl]
    simp [entryAt, appended, setPersistent, setLastLogIndex, Bincode.deserialize_serialize]
  · rw [if_neg h, ← entryAt_setLastLogIndex s (s.lastLogIndex + 1) i]
    exact congrArg (Option.bind · _) (getItem_setPersistent_of_ne _ _ (by simp; omega))

theorem sameVote_appended (s : Storage Cmd) (e : LogEntry Cmd) : SameVote s (s.appended e) :=
  ⟨rfl, rfl, rfl⟩

theorem wf_appended {s : Storage Cmd} (h : s.Wf) {e : LogEntry Cmd}
    (he : e.idx = s.lastLogIndex + 1) : (s.appended e).Wf := by
  refine ⟨cached_setEntry (s := s.setLastLogIndex (s.lastLogIndex + 1))
    (cached_setLastLogIndex h.cached _) _ _, fun i h1 h2 => ?_⟩
  have h2' : i ≤ s.lastLogIndex + 1 := h2
  rw [entryAt_appended]
  split_ifs with hi
  · exact ⟨e, rfl, he.trans hi.symm⟩
  · exact h.filled i h1 (by omega)

theorem log_appended (s : Storage Cmd) (e : LogEntry Cmd) :
    (s.appended e).log = s.log ++ [e] := by
  have hlast : (s.appended e).lastLogIndex = s.lastLogIndex + 1 := rfl
  rw [log, hlast, logUpTo, entryAt_appended, if_pos rfl, log]
  congr 1
  refine logUpTo_congr fun i _ h2 => ?_
  rw [entryAt_appended, if_neg (by omega)]

/-- Cutting the log is lowering the last index; the entries' items stay behind. -/
theorem wf_setLastLogIndex {s : Storage Cmd} (h : s.Wf) {n : ℕ} (hn : n ≤ s.lastLogIndex) :
    (s.setLastLogIndex n).Wf :=
  ⟨cached_setLastLogIndex h.cached n, fun i h1 (h2 : i ≤ n) => by
    rw [entryAt_setLastLogIndex]
    exact h.filled i h1 (h2.trans hn)⟩

theorem log_setLastLogIndex {s : Storage Cmd} (h : s.Wf) {n : ℕ} (hn : n ≤ s.lastLogIndex) :
    (s.setLastLogIndex n).log = s.log.take n := by
  rw [log, log, h.filled.take_logUpTo hn]
  exact logUpTo_congr fun i _ _ => by simp

/-- **`append_log`** with the next index appends the entry. -/
theorem appendLog_eq {s : Storage Cmd} (h : s.Wf) {e : LogEntry Cmd}
    (he : e.idx = s.lastLogIndex + 1) :
    ∃ s', (appendLog e).run s = .ok () s' ∧ s'.Wf ∧ SameVote s s' ∧ s'.log = s.log ++ [e] :=
  ⟨s.appended e, by rw [appendLog_run, if_pos he.symm], wf_appended h he, sameVote_appended s e,
    log_appended s e⟩

/-- **`overwrite_log`** at the last index replaces the last entry. -/
theorem overwriteLog_eq {s : Storage Cmd} (h : s.Wf) {e : LogEntry Cmd}
    (he : e.idx = s.lastLogIndex) (h0 : e.idx ≠ 0) :
    ∃ s', (overwriteLog e).run s = .ok () s' ∧ s'.Wf ∧ SameVote s s' ∧
      s'.log = s.log.take (e.idx - 1) ++ [e] := by
  have hcut : (s.setLastLogIndex (e.idx - 1)).Wf := wf_setLastLogIndex h (by omega)
  refine ⟨_, by rw [overwriteLog_run, if_neg (by omega), if_neg h0], wf_appended hcut ?_,
    ⟨rfl, rfl, rfl⟩, ?_⟩
  · show e.idx = e.idx - 1 + 1
    omega
  · rw [log_appended, log_setLastLogIndex h (by omega)]

/-- **`overwrite_log`** anywhere below the last index panics and changes nothing. -/
theorem overwriteLog_eq_error {s : Storage Cmd} {e : LogEntry Cmd}
    (he : e.idx < s.lastLogIndex) : (overwriteLog e).run s = .error .overwriteOrder s := by
  rw [overwriteLog_run, if_pos he]

end Storage

end Wraft
