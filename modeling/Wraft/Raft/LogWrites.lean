import Wraft.ForMathlib.Run
import Wraft.Raft.StorageSpec

/-!
# Log writes across crashes

A storage whose log is written by `append_log` and `overwrite_log` as the worker calls them, and
whose process may stop between any two writes to the local storage and is then started again from
what was written.

`overwrite_log` can be stopped anywhere: the log found again is the one before, the one after or
the one cut before the overwritten entry. `append_log` cannot: it writes the last index before
the entry, and when it is stopped in between, the last index points to whatever is stored there
already, if anything (`not_logWrite_atomic`). This goes well only when what is stored is the very
entry that was to be written, as after an `overwrite_log` that was stopped
(`logWrite_atomic_iff`).
-/

namespace Wraft

open TransitionSystem

/-- The two ways in which the log is written. -/
inductive LogWrite (Cmd : Type) where
  | append (entry : LogEntry Cmd)
  | overwrite (entry : LogEntry Cmd)
  deriving DecidableEq

variable {Cmd : Type}

namespace LogWrite

/-- The operation is called as the worker calls it: an entry is appended with the next index, and
an existing entry is overwritten such that the assertions hold. -/
def Allowed (s : Storage Cmd) : LogWrite Cmd → Prop
  | append entry => entry.idx = s.lastLogIndex + 1
  | overwrite entry => entry.idx ≤ s.lastLogIndex ∧ s.lastLogIndex ≤ entry.idx ∧ entry.idx ≠ 0

instance (s : Storage Cmd) : ∀ op : LogWrite Cmd, Decidable (op.Allowed s)
  | append _ => inferInstanceAs (Decidable (_ = _))
  | overwrite _ => inferInstanceAs (Decidable (_ ∧ _ ∧ _))

variable [Bincode (LogEntry Cmd)]

def run : LogWrite Cmd → Rust (Storage Cmd) Unit
  | append entry => Storage.appendLog entry
  | overwrite entry => Storage.overwriteLog entry

/-- The storage when the operation has run. -/
def outcome (op : LogWrite Cmd) (s : Storage Cmd) : Storage Cmd :=
  match op.run.run s with
  | .ok _ s' => s'
  | .error _ s' => s'

/-- The storage that is found again from `ls` can be read, and has the log from before the
operation, or the one from after it, or one that is cut before the entry to overwrite. -/
def Atomic (op : LogWrite Cmd) (s : Storage Cmd) (ls : LocalStorage) : Prop :=
  ∃ u : Storage Cmd, Storage.new s.sessionKey ls = .ok u ∧
    (∀ i, 1 ≤ i → i ≤ u.lastLogIndex → ∃ e, u.getLog i = .ok (some e) ∧ e.idx = i) ∧
    (u.log = s.log ∨ u.log = (op.outcome s).log ∨
      ∃ entry, op = .overwrite entry ∧ u.log = s.log.take (entry.idx - 1))

/-- The operation is an `append_log` that was stopped between its two writes, and what is stored
at its index is not its entry. -/
def Torn (op : LogWrite Cmd) (s : Storage Cmd) (ls : LocalStorage) : Prop :=
  ∃ entry, op = .append entry ∧ s.entryAt entry.idx ≠ some entry ∧
    ls = s.storage.setItem (Key.lastLogIndex s.sessionKey).format (toString entry.idx)

instance [DecidableEq Cmd] (s : Storage Cmd) (ls : LocalStorage) :
    ∀ op : LogWrite Cmd, Decidable (op.Torn s ls)
  | append entry => decidable_of_iff (s.entryAt entry.idx ≠ some entry ∧
      ls = s.storage.setItem (Key.lastLogIndex s.sessionKey).format (toString entry.idx))
      (by simp [Torn])
  | overwrite _ => .isFalse (by simp [Torn])

end LogWrite

/-- The steps of a storage. -/
inductive StorageAction (Cmd : Type) where
  /-- The log is written. -/
  | write (op : LogWrite Cmd)
  /-- The process stops while the log is written, when `ls` is in the local storage, and is
  started again. -/
  | stop (op : LogWrite Cmd) (ls : LocalStorage)
  /-- The process stops between two operations and is started again. -/
  | reopen
  /-- One of the two writes of the ballot. -/
  | setCurrentTerm (term : ℕ)
  | setVotedFor (val : Option NodeId)

namespace Storage

variable [Bincode (LogEntry Cmd)]

/-- One step of a storage; `none` when it is not possible. -/
def exec (s : Storage Cmd) : StorageAction Cmd → Option (Storage Cmd)
  | .write op => if op.Allowed s then some (op.outcome s) else none
  | .stop op ls =>
    if op.Allowed s ∧ s.storage <:+ ls ∧ ls <:+ (op.outcome s).storage then
      (Storage.new s.sessionKey ls).toOption
    else none
  | .reopen => (Storage.new s.sessionKey s.storage).toOption
  | .setCurrentTerm term => some (s.setCurrentTerm term)
  | .setVotedFor val => some (s.setVotedFor val)

/-- A storage that was opened with an empty log. -/
def Starts (s : Storage Cmd) : Prop :=
  Storage.new s.sessionKey s.storage = .ok s ∧ s.lastLogIndex = 0

/-- The step stops an `append_log` between its two writes. -/
def tears [DecidableEq Cmd] (s : Storage Cmd) : StorageAction Cmd → Bool
  | .stop op ls => op.Torn s ls
  | _ => false

/-- The finite runs of a storage, latest state first, all of whose steps meet the condition `G`. -/
def IsRunWhere (G : Storage Cmd → StorageAction Cmd → Prop) : List (Storage Cmd) → Prop :=
  IsRun Starts (Acts exec G)

end Storage

/-! ### Stopping a log write -/

namespace LogWrite

variable [Bincode (LogEntry Cmd)] {s u : Storage Cmd}

theorem outcome_append {entry : LogEntry Cmd} (h : (append entry).Allowed s) :
    (append entry).outcome s = s.appended entry := by
  rw [outcome, run, Storage.appendLog_run, if_pos h.symm]

theorem outcome_overwrite {entry : LogEntry Cmd} (h : (overwrite entry).Allowed s) :
    (overwrite entry).outcome s = (s.setLastLogIndex (entry.idx - 1)).appended entry := by
  rw [outcome, run, Storage.overwriteLog_run, if_neg (by have := h.2.1; omega), if_neg h.2.2]

theorem wf_outcome (hs : s.Wf) {op : LogWrite Cmd} (h : op.Allowed s) : (op.outcome s).Wf := by
  cases op with
  | append entry =>
    rw [outcome_append h]
    exact Storage.wf_appended hs h
  | overwrite entry =>
    obtain ⟨hle, hge, h0⟩ := h
    rw [outcome_overwrite ⟨hle, hge, h0⟩]
    refine Storage.wf_appended (Storage.wf_setLastLogIndex hs (by omega)) ?_
    show entry.idx = entry.idx - 1 + 1
    omega

/-- What re-opens as a well-formed storage with one of the three logs is atomic. -/
theorem atomic_of_wf {op : LogWrite Cmd} {ls : LocalStorage} (hu : u.Wf)
    (hkey : u.sessionKey = s.sessionKey) (hls : u.storage = ls)
    (hlog : u.log = s.log ∨ u.log = (op.outcome s).log ∨
      ∃ entry, op = .overwrite entry ∧ u.log = s.log.take (entry.idx - 1)) :
    op.Atomic s ls := by
  refine ⟨u, hls ▸ hkey ▸ hu.cached.new_eq, fun i h1 h2 => ?_, hlog⟩
  obtain ⟨e, he, hidx⟩ := hu.filled i h1 h2
  refine ⟨e, ?_, hidx⟩
  rw [hu.getLog_eq, if_neg (by omega), hu.getElem?_log (by omega), Nat.sub_add_cancel h1, he]

/-- The points at which `append_log` can be stopped: before, in the middle and after. -/
theorem stop_append {entry : LogEntry Cmd} (h : (append entry).Allowed s) {ls : LocalStorage}
    (hls : LocalStorage.Stop s.storage ((append entry).outcome s).storage ls) :
    ls = ((append entry).outcome s).storage ∨
      ls = (s.setLastLogIndex entry.idx).storage ∨ ls = s.storage := by
  rw [outcome_append h] at hls ⊢
  rcases hls.of_cons with hls | hls
  · exact .inl hls
  rcases hls.of_cons with rfl | hls
  · refine .inr (.inl ?_)
    rw [show entry.idx = s.lastLogIndex + 1 from h]
    rfl
  · exact .inr (.inr hls.eq_of_refl)

/-- `overwrite_log` cuts the log first and then appends. -/
theorem stop_overwrite {entry : LogEntry Cmd} (h : (overwrite entry).Allowed s)
    {ls : LocalStorage}
    (hls : LocalStorage.Stop s.storage ((overwrite entry).outcome s).storage ls) :
    ls = ((overwrite entry).outcome s).storage ∨
      ls = ((s.setLastLogIndex (entry.idx - 1)).setLastLogIndex entry.idx).storage ∨
      ls = (s.setLastLogIndex (entry.idx - 1)).storage ∨ ls = s.storage := by
  rw [outcome_overwrite h] at hls ⊢
  rcases hls.of_cons with hls | hls
  · exact .inl hls
  rcases hls.of_cons with rfl | hls
  · refine .inr (.inl ?_)
    have h0 := h.2.2
    have hidx : (s.setLastLogIndex (entry.idx - 1)).lastLogIndex + 1 = entry.idx := by
      show entry.idx - 1 + 1 = entry.idx
      omega
    rw [hidx]
    rfl
  rcases hls.of_cons with rfl | hls
  · exact .inr (.inr (.inl rfl))
  · exact .inr (.inr (.inr hls.eq_of_refl))

/-- What can be read up to the last index is there. -/
theorem filled_of_getLog
    (h : ∀ i, 1 ≤ i → i ≤ u.lastLogIndex → ∃ e, u.getLog i = .ok (some e) ∧ e.idx = i) :
    u.Filled u.lastLogIndex := by
  intro i h1 h2
  obtain ⟨e, he, hei⟩ := h i h1 h2
  refine ⟨e, ?_, hei⟩
  unfold Storage.getLog at he
  rw [if_neg (by omega)] at he
  unfold Storage.entryAt
  split at he
  · rename_i x hx
    rw [hx]
    exact Except.ok.inj he
  · cases he

/-- Stopping `append_log` in the middle goes well if its entry is stored already. -/
theorem atomic_middle (hs : s.Wf) {entry : LogEntry Cmd} (h : (append entry).Allowed s)
    (hentry : s.entryAt entry.idx = some entry) :
    (append entry).Atomic s (s.setLastLogIndex entry.idx).storage := by
  have hidx : entry.idx = s.lastLogIndex + 1 := h
  have hsame : ∀ i, (s.setLastLogIndex entry.idx).entryAt i = (s.appended entry).entryAt i := by
    intro i
    rw [Storage.entryAt_setLastLogIndex, Storage.entryAt_appended, ← hidx]
    split_ifs with hi
    · rw [hi, hentry]
    · rfl
  have hlast : (s.appended entry).lastLogIndex = entry.idx := hidx.symm
  have hfilled := (Storage.wf_appended hs hidx).filled
  rw [hlast] at hfilled
  refine atomic_of_wf (u := s.setLastLogIndex entry.idx)
    ⟨Storage.cached_setLastLogIndex hs.cached _, ?_⟩ rfl rfl (.inr (.inl ?_))
  · exact hfilled.congr fun i _ _ => hsame i
  · rw [outcome_append h, Storage.log, Storage.log, hlast]
    exact Storage.logUpTo_congr fun i _ _ => hsame i

/-- Stopping `append_log` in the middle shows an entry that is not its own. -/
theorem not_atomic_middle (hs : s.Wf) {entry : LogEntry Cmd} (h : (append entry).Allowed s)
    (hentry : s.entryAt entry.idx ≠ some entry) :
    ¬(append entry).Atomic s (s.setLastLogIndex entry.idx).storage := by
  rintro ⟨u, hu, hread, hlog⟩
  have hidx : entry.idx = s.lastLogIndex + 1 := h
  have hnew := (Storage.cached_setLastLogIndex hs.cached entry.idx).new_eq
  obtain rfl : s.setLastLogIndex entry.idx = u := Except.ok.inj (hnew.symm.trans hu)
  have hfilled : (s.setLastLogIndex entry.idx).Filled entry.idx := filled_of_getLog hread
  have hlen : (s.setLastLogIndex entry.idx).log.length = entry.idx := hfilled.length_logUpTo
  rcases hlog with hlog | hlog | ⟨_, hop, -⟩
  · rw [hlog, hs.length_log] at hlen
    omega
  · -- the log would end with the entry
    have hget := hfilled.getElem?_logUpTo (i := s.lastLogIndex) (by omega)
    rw [outcome_append h, Storage.log_appended] at hlog
    have hlog' : (s.setLastLogIndex entry.idx).logUpTo entry.idx = s.log ++ [entry] := hlog
    rw [hlog', List.getElem?_append_right (by rw [hs.length_log]), hs.length_log, Nat.sub_self,
      Storage.entryAt_setLastLogIndex, ← hidx] at hget
    exact hentry hget.symm
  · cases hop

/-- Stopping before the first write or after the last one goes well. -/
theorem atomic_before (hs : s.Wf) (op : LogWrite Cmd) : op.Atomic s s.storage :=
  atomic_of_wf hs rfl rfl (.inl rfl)

theorem atomic_after (hs : s.Wf) {op : LogWrite Cmd} (h : op.Allowed s) :
    op.Atomic s (op.outcome s).storage := by
  refine atomic_of_wf (wf_outcome hs h) ?_ rfl (.inr (.inl rfl))
  cases op with
  | append entry => rw [outcome_append h]; rfl
  | overwrite entry => rw [outcome_overwrite h]; rfl

/-- `overwrite_log` can be stopped anywhere. -/
theorem atomic_overwrite (hs : s.Wf) {entry : LogEntry Cmd} (h : (overwrite entry).Allowed s)
    {ls : LocalStorage}
    (hls : LocalStorage.Stop s.storage ((overwrite entry).outcome s).storage ls) :
    (overwrite entry).Atomic s ls := by
  obtain ⟨hle, hge, h0⟩ := id h
  have hcut : (s.setLastLogIndex (entry.idx - 1)).Wf := Storage.wf_setLastLogIndex hs (by omega)
  rcases stop_overwrite h hls with rfl | rfl | rfl | rfl
  · exact atomic_after hs h
  · -- the last index is back at the old entry
    have hlast : entry.idx = s.lastLogIndex := le_antisymm hle hge
    have hsame : ∀ i, ((s.setLastLogIndex (entry.idx - 1)).setLastLogIndex entry.idx).entryAt i =
        s.entryAt i := fun i => by simp
    refine atomic_of_wf (u := (s.setLastLogIndex (entry.idx - 1)).setLastLogIndex entry.idx)
      ⟨Storage.cached_setLastLogIndex hcut.cached _, ?_⟩ rfl rfl (.inl ?_)
    · have hfilled := hs.filled
      rw [← hlast] at hfilled
      exact hfilled.congr fun i _ _ => hsame i
    · rw [Storage.log, Storage.log, ← hlast]
      exact Storage.logUpTo_congr fun i _ _ => hsame i
  · exact atomic_of_wf hcut rfl rfl
      (.inr (.inr ⟨entry, rfl, Storage.log_setLastLogIndex hs (by omega)⟩))
  · exact atomic_before hs _

/-- **A stopped log write is atomic** unless it was torn. -/
theorem atomic_iff_of_wf (hs : s.Wf) {op : LogWrite Cmd} (h : op.Allowed s) {ls : LocalStorage}
    (hls : LocalStorage.Stop s.storage (op.outcome s).storage ls) :
    op.Atomic s ls ↔ ¬op.Torn s ls := by
  cases op with
  | append entry =>
    constructor
    · rintro hatomic ⟨_, heq, hentry, rfl⟩
      obtain rfl := LogWrite.append.inj heq
      exact not_atomic_middle hs h hentry hatomic
    · intro htorn
      rcases stop_append h hls with rfl | rfl | rfl
      · exact atomic_after hs h
      · exact atomic_middle hs h (by_contra fun hentry => htorn ⟨entry, rfl, hentry, rfl⟩)
      · exact atomic_before hs _
  | overwrite entry =>
    exact ⟨fun _ ⟨_, heq, _⟩ => (nomatch heq), fun _ => atomic_overwrite hs h hls⟩

end LogWrite

/-! ### Runs -/

variable [Bincode (LogEntry Cmd)]

/-- What is atomic re-opens as a well-formed storage. -/
theorem LogWrite.Atomic.wf {op : LogWrite Cmd} {s u : Storage Cmd} {ls : LocalStorage}
    (h : op.Atomic s ls) (hu : Storage.new s.sessionKey ls = .ok u) : u.Wf := by
  obtain ⟨u', hu', hread, -⟩ := h
  obtain rfl := Except.ok.inj (hu.symm.trans hu')
  exact ⟨(Storage.new_eq_ok_iff.mp hu).2.2, LogWrite.filled_of_getLog hread⟩

/-- The storages of a run are well formed as long as no log write was torn. -/
theorem Storage.IsRunWhere.wf [DecidableEq Cmd] {r : List (Storage Cmd)}
    (hr : Storage.IsRunWhere (fun s a => s.tears a = false) r) : ∀ s ∈ r, s.Wf := by
  refine IsRun.invariant ?_ ?_ hr
  · rintro s ⟨hs, h0⟩
    exact ⟨(Storage.new_eq_ok_iff.mp hs).2.2, fun i h1 h2 => by omega⟩
  · rintro s s' hs ⟨a, ha, hexec⟩
    cases a with
    | write op =>
      simp only [Storage.exec] at hexec
      split_ifs at hexec with hop
      exact Option.some.inj hexec ▸ LogWrite.wf_outcome hs hop
    | stop op ls =>
      simp only [Storage.exec] at hexec
      split_ifs at hexec with hop
      have hatomic := (LogWrite.atomic_iff_of_wf hs hop.1 hop.2).mpr (by simpa [tears] using ha)
      rcases hu : (Storage.new s.sessionKey ls : Except Panic (Storage Cmd)) with p | u
      · rw [hu] at hexec
        cases hexec
      · rw [hu] at hexec
        exact Option.some.inj hexec ▸ hatomic.wf hu
    | reopen =>
      rw [Storage.exec, hs.cached.new_eq] at hexec
      exact Option.some.inj hexec ▸ hs
    | setCurrentTerm term => exact Option.some.inj hexec ▸ Storage.wf_setCurrentTerm hs term
    | setVotedFor val => exact Option.some.inj hexec ▸ Storage.wf_setVotedFor hs val

/-- **Log writes are atomic** in the runs in which none was torn before, unless torn. -/
theorem logWrite_atomic_iff [DecidableEq Cmd] {s : Storage Cmd} {r : List (Storage Cmd)}
    (hr : Storage.IsRunWhere (fun s a => s.tears a = false) (s :: r)) {op : LogWrite Cmd}
    (h : op.Allowed s) {ls : LocalStorage}
    (hls : LocalStorage.Stop s.storage (op.outcome s).storage ls) :
    op.Atomic s ls ↔ ¬op.Torn s ls :=
  LogWrite.atomic_iff_of_wf (hr.wf s (by simp)) h hls

/-- An empty storage of session `1`. -/
def Storage.fresh : Storage ℕ :=
  { sessionKey := 1, lastLogIndex := 0, currentTerm := 0, votedFor := none, storage := [] }

theorem Storage.starts_fresh : Storage.fresh.Starts := ⟨rfl, rfl⟩

/-- `overwrite_log` is stopped after it cut the log, and the old entry is appended again. -/
theorem logWrite_atomic_iff_run : ∃ (s : Storage ℕ) (r : List (Storage ℕ)),
    Storage.IsRunWhere (fun s a => s.tears a = false) (s :: r) ∧ s.log = [] ∧
    ((LogWrite.append ⟨5, 1, 1⟩).Atomic s (s.setLastLogIndex 1).storage ↔
      ¬(LogWrite.append ⟨5, 1, 1⟩).Torn s (s.setLastLogIndex 1).storage) := by
  obtain ⟨r, -, hr, hf⟩ := exists_run_of_play Storage.Starts Storage.exec Storage.tears
    Storage.starts_fresh
    [.write (.append ⟨5, 1, 1⟩), .stop (.overwrite ⟨6, 2, 1⟩) (.setItem "last-log-index-1" "0" ::
      ((LogWrite.append ⟨5, 1, 1⟩).outcome Storage.fresh).storage)]
    (fun r => r.head?.any fun s => (LogWrite.append ⟨5, 1, 1⟩).Allowed s ∧ s.log = [] ∧
      (s.setLastLogIndex 1).storage <:+ ((LogWrite.append ⟨5, 1, 1⟩).outcome s).storage)
    (by decide +kernel)
  simp only [Option.any_eq_true, decide_eq_true_eq] at hf
  obtain ⟨s, hs, hallowed, hlog, hls⟩ := hf
  obtain ⟨r, rfl⟩ := List.head?_eq_some_iff.mp hs
  exact ⟨s, r, hr, hlog, logWrite_atomic_iff hr hallowed ⟨List.suffix_cons _ _, hls⟩⟩

/-- The empty storage as it is found again when it was stopped in the middle of an `append_log`. -/
def Storage.torn : Storage ℕ :=
  { Storage.fresh with lastLogIndex := 1, storage := [.setItem "last-log-index-1" "1"] }

/-- An `append_log` that is stopped between its two writes points to an entry that is not there. -/
theorem not_logWrite_atomic : ¬∀ (s : Storage ℕ) (r : List (Storage ℕ)),
    Storage.IsRunWhere (fun _ _ => True) (s :: r) → ∀ op : LogWrite ℕ, op.Allowed s →
    ∀ ls, LocalStorage.Stop s.storage (op.outcome s).storage ls → op.Atomic s ls := by
  intro h
  obtain ⟨u, hu, hread, -⟩ := h Storage.fresh [] (.start Storage.starts_fresh)
    (.append ⟨5, 1, 1⟩) rfl [.setItem "last-log-index-1" "1"]
    ⟨List.nil_suffix, by decide +kernel⟩
  have hnew : Storage.new 1 [.setItem "last-log-index-1" "1"] = .ok Storage.torn := by
    decide +kernel
  obtain rfl := Except.ok.inj (hnew.symm.trans hu)
  obtain ⟨e, he, -⟩ := hread 1 le_rfl le_rfl
  have hnone : Storage.torn.getLog 1 = .error .logItem := by
    decide +kernel
  cases hnone.symm.trans he

end Wraft
