import Wraft.ForMathlib.EStateM
import Wraft.ForMathlib.Nth
import Wraft.Todo.State

/-!
# When a command panics

A command that carries an index panics exactly when the index is not one of the filtered list in
the state it is applied to (`apply_returns_iff`): the positions of the filtered list are those
below its length, and the list of all entries is at least as long. As commands of several windows
are committed in any order, and an edit is finished twice, an index need not fit the state any
more. A sequence of commands is applied without a panic exactly when each of them finds its index
(`handleStateMachine_returns_iff`).
-/

namespace Wraft.Todo

namespace State

variable {s : State} {idx p : ℕ} {e : Entry}

/-- The `idx`-th entry that fits the filter is `e`, at position `p` of the list of all entries. -/
def EntryAt (s : State) (idx p : ℕ) (e : Entry) : Prop := s.entries.IsNth s.filter.fits idx p e

theorem position_eq_some_iff : s.position idx = some p ↔ ∃ e, s.EntryAt idx p e := by
  rw [position, Option.map_eq_some_iff]
  constructor
  · rintro ⟨⟨e, q⟩, hget, rfl⟩
    obtain ⟨p, hp, hnth⟩ := List.getElem?_filter_zipIdx_iff.mp hget
    rw [Nat.zero_add] at hp
    exact ⟨e, hp ▸ hnth⟩
  · rintro ⟨e, hnth⟩
    exact ⟨(e, p), List.getElem?_filter_zipIdx_iff.mpr ⟨p, (Nat.zero_add p).symm, hnth⟩, rfl⟩

theorem EntryAt.position_eq (h : s.EntryAt idx p e) : s.position idx = some p :=
  position_eq_some_iff.mpr ⟨e, h⟩

/-- The positions of the filtered list. -/
theorem exists_position_iff : (∃ p, s.position idx = some p) ↔ idx < s.visible.length := by
  constructor
  · rintro ⟨p, hp⟩
    obtain ⟨e, hnth⟩ := position_eq_some_iff.mp hp
    exact (List.getElem?_eq_some_iff.mp hnth.getElem?_filter).1
  · intro h
    obtain ⟨p, e, hnth⟩ := List.exists_isNth h
    exact ⟨p, EntryAt.position_eq hnth⟩

/-! ### The parts of a command -/

/-- The computation returns on the state. -/
def Returns (s : State) (x : Apply) : Prop := ∃ s', x.run s = .ok () s'

theorem returns_modify (f : State → State) : s.Returns (modify f) := ⟨_, rfl⟩

theorem returns_updateNth_iff {f : Entry → Entry} :
    s.Returns (updateNth idx f) ↔ idx < s.visible.length := by
  rw [← exists_position_iff, Returns]
  rcases hp : s.position idx with _ | p <;> simp [updateNth, hp]

theorem returns_remove_iff : s.Returns (remove idx) ↔ idx < s.visible.length := by
  rw [← exists_position_iff, Returns]
  rcases hp : s.position idx with _ | p <;> simp [remove, hp]

theorem returns_completeEdit_iff (val : String) :
    s.Returns (completeEdit idx val) ↔ idx < s.visible.length := by
  rw [completeEdit]
  split_ifs
  · exact returns_remove_iff
  · exact returns_updateNth_iff

/-- Closing all edits hides no entry and shows none. -/
theorem length_visible_clearAllEdit : s.clearAllEdit.visible.length = s.visible.length := by
  have hfits : s.filter.fits ∘ (fun entry => { entry with editing := false }) = s.filter.fits := by
    funext entry
    cases s.filter <;> rfl
  rw [visible, clearAllEdit, List.filter_map, hfits, List.length_map]
  rfl

theorem returns_toggleEdit_iff :
    s.Returns (apply (.toggleEdit idx)) ↔ idx < s.visible.length := by
  have hlen : s.visible.length ≤ s.entries.length := List.length_filter_le _ _
  rw [Returns]
  rcases hentry : s.entries[idx]? with _ | entry
  · have := List.getElem?_eq_none_iff.mp hentry
    simp only [apply, EStateM.run_bind, EStateM.run_get, hentry, EStateM.run_throw_any,
      reduceCtorEq,
      exists_false, false_iff]
    omega
  · -- the entry's description is taken and all edits are closed before the entry is looked up
    have hrun : (apply (.toggleEdit idx)).run s =
        (toggleEdit idx).run { s with editValue := entry.description }.clearAllEdit := by
      simp only [apply, EStateM.run_bind, EStateM.run_get, hentry, EStateM.run_set,
        EStateM.run_modify]
    rw [hrun]
    exact returns_updateNth_iff.trans
      (by rw [length_visible_clearAllEdit]; rfl)

end State

/-- The index that a command carries. -/
def Msg.idx? : Msg → Option ℕ
  | .edit idx | .remove idx | .toggleEdit idx | .toggle idx => some idx
  | _ => none

/-- The command's index, if it has one, is an index of the filtered list. -/
def Msg.InRange (s : State) (m : Msg) : Prop := ∀ idx ∈ m.idx?, idx < s.visible.length

open State

theorem returns_edit_iff {s : State} {idx : ℕ} :
    s.Returns (apply (.edit idx)) ↔ idx < s.visible.length := by
  rw [← returns_completeEdit_iff (trim s.editValue), Returns, Returns]
  simp only [apply, EStateM.run_bind, EStateM.run_get]
  cases (completeEdit idx (trim s.editValue)).run s <;> simp

theorem Msg.inRange_iff {s : State} {m : Msg} {idx : ℕ} (h : m.idx? = some idx) :
    m.InRange s ↔ idx < s.visible.length := by
  simp [Msg.InRange, h]

/-- **One command** returns exactly when its index is in range. -/
theorem apply_returns_iff {s : State} {m : Msg} : s.Returns (apply m) ↔ m.InRange s := by
  cases m with
  | edit idx => rw [returns_edit_iff, Msg.inRange_iff rfl]
  | remove idx => rw [apply, returns_remove_iff, Msg.inRange_iff rfl]
  | toggleEdit idx => rw [returns_toggleEdit_iff, Msg.inRange_iff rfl]
  | toggle idx => rw [apply, toggle, returns_updateNth_iff, Msg.inRange_iff rfl]
  | add | update | updateEdit | setFilter | toggleAll | clearCompleted =>
    simp only [apply]
    exact iff_of_true (returns_modify _) (by simp [Msg.InRange, Msg.idx?])

/-! ### Sequences of commands -/

theorem handleStateMachine_cons (m : Msg) (ms : List Msg) :
    handleStateMachine (m :: ms) = apply m >>= fun _ => handleStateMachine ms := rfl

theorem returns_cons_iff {s : State} {m : Msg} {ms : List Msg} :
    s.Returns (handleStateMachine (m :: ms)) ↔
      ∃ s', (apply m).run s = .ok () s' ∧ s'.Returns (handleStateMachine ms) := by
  rw [handleStateMachine_cons]
  constructor
  · rintro ⟨s', h⟩
    obtain ⟨_, s₁, hs₁, hs'⟩ := EStateM.run_bind_eq_ok_iff.mp h
    exact ⟨s₁, hs₁, s', hs'⟩
  · rintro ⟨s₁, hs₁, s', hs'⟩
    exact ⟨s', EStateM.run_bind_eq_ok_iff.mpr ⟨_, s₁, hs₁, hs'⟩⟩

/-- Every command of the list is in range in the state that the ones before it lead to. -/
def InRangeFrom (s : State) (msgs : List Msg) : Prop :=
  ∀ pre m post s', msgs = pre ++ m :: post → (handleStateMachine pre).run s = .ok () s' →
    m.InRange s'

theorem returns_iff_inRangeFrom {s : State} {msgs : List Msg} :
    s.Returns (handleStateMachine msgs) ↔ InRangeFrom s msgs := by
  induction msgs generalizing s with
  | nil =>
    refine iff_of_true ⟨s, rfl⟩ fun pre m post _ h => ?_
    simp at h
  | cons m ms ih =>
    rw [returns_cons_iff]
    constructor
    · rintro ⟨s₁, hs₁, hret⟩ (_ | ⟨m', pre⟩) m'' post s' heq hrun
      · obtain ⟨rfl, -⟩ := List.cons.inj heq
        obtain ⟨-, rfl⟩ := EStateM.Result.ok.inj hrun
        exact apply_returns_iff.mp ⟨s₁, hs₁⟩
      · obtain ⟨rfl, rfl⟩ := List.cons.inj heq
        rw [handleStateMachine_cons, EStateM.run_bind_of_ok hs₁] at hrun
        exact ih.mp hret pre m'' post s' rfl hrun
    · intro h
      obtain ⟨s₁, hs₁⟩ := apply_returns_iff.mpr (h [] m ms s rfl rfl)
      refine ⟨s₁, hs₁, ih.mpr fun pre m' post s' heq hrun => ?_⟩
      refine h (m :: pre) m' post s' (congrArg _ heq) ?_
      rw [handleStateMachine_cons, EStateM.run_bind_of_ok hs₁, hrun]

/-- **The state machine** applies a sequence of commands to the empty list without a panic if and
only if the index of every command is, in the state it is applied to, one of the filtered list. -/
theorem handleStateMachine_returns_iff (msgs : List Msg) :
    (∃ s, (handleStateMachine msgs).run default = .ok () s) ↔
      ∀ pre m post s, msgs = pre ++ m :: post →
        (handleStateMachine pre).run default = .ok () s → m.InRange s :=
  returns_iff_inRangeFrom

/-- An edit that empties the only entry, finished by the key and again when the focus goes. -/
def editTwice : List Msg :=
  [.update "milk", .add, .toggleEdit 0, .updateEdit "", .edit 0, .edit 0]

theorem not_handleStateMachine_returns :
    ¬∀ msgs : List Msg, ∃ s, (handleStateMachine msgs).run default = .ok () s := by
  intro h
  obtain ⟨s, hs⟩ := h editTwice
  have hfail : (match (handleStateMachine editTwice).run default with
      | .ok () _ => true
      | .error _ _ => false) = false := by
    decide +kernel
  rw [hs] at hfail
  exact nomatch hfail

end Wraft.Todo
