import Wraft.Todo.Totality

/-!
# The edit of an entry

An edit is opened by `ToggleEdit`, whose index is a position of the filtered list, and finished by
`Edit`. Opening an edit marks the entry at that position and unmarks all others, but `edit_value` is
the description at that index of the list of all entries (`opensEdit_iff`). Finishing an edit turns
the mark of its entry over, whether it is set or not, and leaves `edit_value` empty, so that a
second `Edit` removes an entry (`not_editsOnce`), and an `Edit` of an entry that is not edited
opens an edit beside the one that is (`atMostOneEditing_iff`).
-/

namespace Wraft.Todo

namespace State

variable {s s' : State} {idx p : ℕ}

/-! ### Positions -/

/-- The entry at a position of the filtered list. -/
theorem exists_entry_of_position (h : s.position idx = some p) :
    ∃ e, s.entries[p]? = some e ∧ s.visible[idx]? = some e := by
  obtain ⟨e, hnth⟩ := position_eq_some_iff.mp h
  exact ⟨e, hnth.getElem?_eq, hnth.getElem?_filter⟩

/-- Positions depend on the `completed` flags only. -/
theorem position_map {f : Entry → Entry} (hf : ∀ e, (f e).completed = e.completed)
    (hentries : s'.entries = s.entries.map f) (hs' : s'.filter = s.filter) :
    s'.position idx = s.position idx := by
  have hfits : ∀ e, s.filter.fits (f e) = s.filter.fits e := by
    intro e
    cases s.filter
    · rfl
    · exact congrArg (!·) (hf e)
    · exact hf e
  have hfilter : ((s.entries.map f).zipIdx.filter fun q => s.filter.fits q.1) =
      (s.entries.zipIdx.filter fun q => s.filter.fits q.1).map (Prod.map f id) := by
    rw [List.zipIdx_map, List.filter_map]
    exact congrArg _ (List.filter_congr fun q _ => hfits q.1)
  rw [position, position, hentries, hs', hfilter, List.getElem?_map, Option.map_map]
  rfl

theorem run_updateNth (f : Entry → Entry) (h : s.position idx = some p) :
    (updateNth idx f).run s = .ok () { s with entries := s.entries.modify p f } := by
  simp only [updateNth, EStateM.run_bind, EStateM.run_get, h, EStateM.run_set]

theorem run_remove (h : s.position idx = some p) :
    (remove idx).run s = .ok () { s with entries := s.entries.eraseIdx p } := by
  simp only [remove, EStateM.run_bind, EStateM.run_get, h, EStateM.run_set]

theorem of_run_updateNth {f : Entry → Entry} (h : (updateNth idx f).run s = .ok () s') :
    ∃ p, s.position idx = some p ∧ s' = { s with entries := s.entries.modify p f } := by
  obtain ⟨p, hp⟩ := exists_position_iff.mpr (returns_updateNth_iff.mp ⟨s', h⟩)
  exact ⟨p, hp, (EStateM.Result.ok.inj (h.symm.trans (run_updateNth f hp))).2⟩

theorem of_run_remove (h : (remove idx).run s = .ok () s') :
    ∃ p, s.position idx = some p ∧ s' = { s with entries := s.entries.eraseIdx p } := by
  obtain ⟨p, hp⟩ := exists_position_iff.mpr (returns_remove_iff.mp ⟨s', h⟩)
  exact ⟨p, hp, (EStateM.Result.ok.inj (h.symm.trans (run_remove hp))).2⟩

/-- The last thing that `Edit` does is to empty `edit_value`. -/
theorem of_run_edit (h : (apply (.edit idx)).run s = .ok () s') :
    ∃ s₁, (completeEdit idx (trim s.editValue)).run s = .ok () s₁ ∧
      s' = { s₁ with editValue := "" } := by
  simp only [apply, EStateM.run_bind, EStateM.run_get] at h
  split at h
  · rename_i s₁ hrun
    obtain ⟨-, rfl⟩ := EStateM.Result.ok.inj h
    exact ⟨s₁, hrun, rfl⟩
  · cases h

/-! ### Opening an edit -/

/-- `ToggleEdit` opens the edit of the `idx`-th entry that fits the filter: it alone is marked, its
description is there to be edited, and nothing else changes. -/
def OpensEdit (s : State) (idx : ℕ) : Prop :=
  ∃ s' p e, (apply (.toggleEdit idx)).run s = .ok () s' ∧
    s.position idx = some p ∧ s'.entries[p]? = some e ∧
    (∀ (j : ℕ) (f : Entry), s'.entries[j]? = some f → (f.editing = true ↔ j = p)) ∧
    s'.editValue = e.description ∧
    s'.entries.map (fun e => (e.description, e.completed)) =
      s.entries.map (fun e => (e.description, e.completed)) ∧
    s'.filter = s.filter ∧ s'.value = s.value

/-- The entries when the edit at position `p` is open. -/
def opened (s : State) (p : ℕ) : List Entry :=
  s.clearAllEdit.entries.modify p fun e => { e with editing := !e.editing }

theorem getElem?_opened (s : State) (p j : ℕ) :
    (s.opened p)[j]? = (s.entries[j]?).map fun e => { e with editing := decide (j = p) } := by
  rw [opened, clearAllEdit, List.getElem?_modify, List.getElem?_map, Option.map_eq_map,
    Option.map_map]
  refine congrArg (Option.map · _) (funext fun e => ?_)
  by_cases hj : p = j
  · simp [hj]
  · simp [hj, Ne.symm hj]

theorem map_opened {α : Type} {g : Entry → α} (hg : ∀ e b, g { e with editing := b } = g e)
    (p : ℕ) : (s.opened p).map g = s.entries.map g := by
  refine List.ext_getElem? fun j => ?_
  rw [List.getElem?_map, getElem?_opened, Option.map_map, List.getElem?_map]
  exact congrArg (Option.map · _) (funext fun e => hg e _)

theorem run_toggleEdit {e : Entry} (hp : s.position idx = some p) (he : s.entries[idx]? = some e) :
    (apply (.toggleEdit idx)).run s =
      .ok () { s with editValue := e.description, entries := s.opened p } := by
  have hclear : ({ s with editValue := e.description } : State).clearAllEdit.position idx =
      s.position idx := position_map (f := fun entry => { entry with editing := false })
    (fun _ => rfl) rfl rfl
  simp only [apply, EStateM.run_bind, EStateM.run_get, he, EStateM.run_set, EStateM.run_modify,
    toggleEdit, run_updateNth _ (hclear.trans hp)]
  rfl

theorem getElem?_opened_self {e : Entry} (he : s.entries[p]? = some e) :
    (s.opened p)[p]? = some { e with editing := true } := by
  rw [getElem?_opened, he]
  simp

theorem OpensEdit.description_eq (h : s.OpensEdit idx) :
    (s.entries[idx]?).map (·.description) = (s.visible[idx]?).map (·.description) := by
  obtain ⟨s', p, e', hrun', hp, hentry', -, hvalue, -⟩ := h
  obtain ⟨e, hentry, hvisible⟩ := exists_entry_of_position hp
  have hlt : idx < s.entries.length :=
    (exists_position_iff.mp ⟨p, hp⟩).trans_le (List.length_filter_le _ _)
  have he := List.getElem?_eq_getElem hlt
  obtain ⟨-, rfl⟩ := EStateM.Result.ok.inj ((run_toggleEdit hp he).symm.trans hrun')
  obtain rfl := Option.some.inj ((getElem?_opened_self hentry).symm.trans hentry')
  rw [he, hvisible]
  exact congrArg some hvalue

/-- **The edit that is opened** is that of the entry that was clicked if and only if the entry with
the same index in the list of all entries has the same description. -/
theorem opensEdit_iff (h : idx < s.visible.length) :
    s.OpensEdit idx ↔
      (s.entries[idx]?).map (·.description) = (s.visible[idx]?).map (·.description) := by
  refine ⟨OpensEdit.description_eq, fun hdescription => ?_⟩
  obtain ⟨p, hp⟩ := exists_position_iff.mpr h
  obtain ⟨e, hentry, hvisible⟩ := exists_entry_of_position hp
  have he := List.getElem?_eq_getElem (h.trans_le (List.length_filter_le _ _))
  rw [he, hvisible] at hdescription
  refine ⟨_, p, { e with editing := true }, run_toggleEdit hp he, hp, getElem?_opened_self hentry,
    fun j f hf => ?_, Option.some.inj hdescription, map_opened (fun _ _ => rfl) p, rfl, rfl⟩
  rw [getElem?_opened] at hf
  obtain ⟨f', -, rfl⟩ := Option.map_eq_some_iff.mp hf
  exact decide_eq_true_iff

/-- The second of two entries, when the first is completed and hidden. -/
def secondOfTwo : State where
  entries := [⟨"milk", true, false⟩, ⟨"eggs", false, false⟩]
  filter := .active
  value := ""
  editValue := ""

theorem opensEdit_iff_secondOfTwo : secondOfTwo.OpensEdit 0 ↔
    (secondOfTwo.entries[0]?).map (·.description) = (secondOfTwo.visible[0]?).map (·.description) :=
  opensEdit_iff (by decide)

theorem not_opensEdit : ¬∀ (s : State) (idx : ℕ), idx < s.visible.length → s.OpensEdit idx := by
  intro h
  have hdescription := (h secondOfTwo 0 (by decide)).description_eq
  exact absurd hdescription (by decide)

/-! ### Finishing an edit -/

/-- `Edit` twice in a row is `Edit` once. -/
def EditsOnce (s : State) (idx : ℕ) : Prop :=
  ∃ s', (apply (.edit idx)).run s = .ok () s' ∧ (apply (.edit idx)).run s' = .ok () s'

/-- With nothing to write, `Edit` removes an entry. -/
theorem length_of_edit_blank (hblank : (trim s.editValue).isEmpty)
    (h : (apply (.edit idx)).run s = .ok () s') :
    s'.entries.length + 1 = s.entries.length := by
  obtain ⟨s₁, hrun, rfl⟩ := of_run_edit h
  rw [completeEdit, if_pos hblank] at hrun
  obtain ⟨p, hp, rfl⟩ := of_run_remove hrun
  obtain ⟨e, he, -⟩ := exists_entry_of_position hp
  obtain ⟨hlt, -⟩ := List.getElem?_eq_some_iff.mp he
  change (s.entries.eraseIdx p).length + 1 = _
  rw [List.length_eraseIdx_of_lt hlt]
  omega

/-- **The second `Edit`** panics or removes an entry, in every state. -/
theorem not_editsOnce (s : State) (idx : ℕ) : ¬s.EditsOnce idx := by
  rintro ⟨s', h, h'⟩
  have hblank : (trim s'.editValue).isEmpty := by
    obtain ⟨s₁, -, rfl⟩ := of_run_edit h
    exact (by decide : (trim "").isEmpty)
  have hlen := length_of_edit_blank hblank h'
  omega

end State

/-- The states of the state machine. -/
def Reachable (s : State) : Prop := ∃ msgs, (handleStateMachine msgs).run default = .ok () s

/-- The edit of the only entry, about to be finished. -/
def milkEdited : State where
  entries := [⟨"milk", false, true⟩]
  filter := .all
  value := ""
  editValue := "eggs"

theorem reachable_milkEdited : Reachable milkEdited :=
  ⟨[.update "milk", .add, .toggleEdit 0, .updateEdit "eggs"], rfl⟩

theorem not_editsOnce_reachable :
    ¬∀ s, Reachable s → ∀ idx, idx < s.visible.length → s.EditsOnce idx := by
  intro h
  obtain ⟨s', h₁, h₂⟩ := h milkEdited reachable_milkEdited 0 (by decide)
  have hfirst : (State.apply (.edit 0)).run milkEdited =
      .ok () ⟨[⟨"eggs", false, false⟩], .all, "", ""⟩ := rfl
  have hsecond : (State.apply (.edit 0)).run ⟨[⟨"eggs", false, false⟩], .all, "", ""⟩ =
      .ok () ⟨[], .all, "", ""⟩ := rfl
  obtain ⟨-, rfl⟩ := EStateM.Result.ok.inj (hfirst.symm.trans h₁)
  obtain ⟨-, heq⟩ := EStateM.Result.ok.inj (hsecond.symm.trans h₂)
  exact absurd heq (by decide)

namespace State

variable {s s' : State} {idx p : ℕ}

/-! ### Edits that are open -/

/-- The number of entries whose edit is open. -/
def editing (s : State) : ℕ := s.entries.countP (·.editing)

/-- A finished edit is open, or the entry is removed, or no edit is open at all. -/
def FindsEdit (s : State) (m : Msg) : Prop :=
  ∀ idx, m = .edit idx → (trim s.editValue).isEmpty ∨ s.editing = 0 ∨
    ∀ e, s.visible[idx]? = some e → e.editing

theorem countP_modify {f : Entry → Entry} {e : Entry} (he : s.entries[p]? = some e) :
    (s.entries.modify p f).countP (·.editing) + e.editing.toNat =
      s.editing + (f e).editing.toNat := by
  obtain ⟨hlt, rfl⟩ := List.getElem?_eq_some_iff.mp he
  obtain ⟨l₁, e, l₂, heq, rfl, hmodify⟩ := List.exists_of_modify f hlt
  have hentry : s.entries[l₁.length] = e := by simp [heq]
  rw [hmodify, hentry, editing, heq]
  simp only [List.countP_append, List.countP_cons]
  cases e.editing <;> cases (f e).editing <;> simp <;> omega

theorem editing_clearAllEdit (s : State) : s.clearAllEdit.editing = 0 := by
  rw [editing, clearAllEdit, List.countP_map]
  exact List.countP_eq_zero.mpr fun _ _ => Bool.false_ne_true

theorem countP_opened (h : p < s.entries.length) : (s.opened p).countP (·.editing) = 1 := by
  have he : s.clearAllEdit.entries[p]? = some { s.entries[p] with editing := false } := by
    rw [clearAllEdit, List.getElem?_map, List.getElem?_eq_getElem h]
    rfl
  have hcount := countP_modify (f := fun e => { e with editing := !e.editing }) he
  rw [editing_clearAllEdit] at hcount
  exact hcount

theorem countP_map_of_editing {f : Entry → Entry} (hf : ∀ e, (f e).editing = e.editing)
    (es : List Entry) : (es.map f).countP (·.editing) = es.countP (·.editing) := by
  rw [List.countP_map]
  exact List.countP_congr fun e _ => by rw [Function.comp_apply, hf]

/-- The commands that finish no edit leave at most one open. -/
theorem editing_apply_le {m : Msg} (hm : ∀ idx, m ≠ .edit idx) (hle : s.editing ≤ 1)
    (h : (apply m).run s = .ok () s') : s'.editing ≤ 1 := by
  cases m with
  | edit idx => exact absurd rfl (hm idx)
  | add =>
    obtain ⟨-, rfl⟩ := EStateM.Result.ok.inj h
    rw [editing]
    dsimp only
    split_ifs
    · exact hle
    · rw [List.countP_append]
      exact hle
  | update | updateEdit | setFilter =>
    obtain ⟨-, rfl⟩ := EStateM.Result.ok.inj h
    exact hle
  | remove idx =>
    obtain ⟨p, -, rfl⟩ := of_run_remove h
    exact (List.eraseIdx_sublist s.entries p).countP_le.trans hle
  | toggleAll =>
    obtain ⟨-, rfl⟩ := EStateM.Result.ok.inj h
    refine (countP_map_of_editing (fun e => ?_) s.entries).trans_le hle
    split_ifs <;> rfl
  | toggleEdit idx =>
    have hlt := returns_toggleEdit_iff.mp ⟨s', h⟩
    obtain ⟨p, hp⟩ := exists_position_iff.mpr hlt
    obtain ⟨e, he, -⟩ := exists_entry_of_position hp
    have hentry := List.getElem?_eq_getElem (hlt.trans_le (List.length_filter_le _ _))
    obtain ⟨-, rfl⟩ := EStateM.Result.ok.inj ((run_toggleEdit hp hentry).symm.trans h)
    -- all flags are cleared, and that of one entry is turned over
    exact (countP_opened (List.getElem?_eq_some_iff.mp he).1).le
  | toggle idx =>
    obtain ⟨p, hp, rfl⟩ := of_run_updateNth h
    obtain ⟨e, he, -⟩ := exists_entry_of_position hp
    have hcount := countP_modify (f := fun e => { e with completed := !e.completed }) he
    exact (Nat.add_right_cancel hcount).trans_le hle
  | clearCompleted =>
    obtain ⟨-, rfl⟩ := EStateM.Result.ok.inj h
    exact List.filter_sublist.countP_le.trans hle

/-- A finished edit of an entry that is not edited opens its edit. -/
theorem editing_edit_le_iff (hle : s.editing ≤ 1) (h : (apply (.edit idx)).run s = .ok () s') :
    s'.editing ≤ 1 ↔ s.FindsEdit (.edit idx) := by
  have hfinds : s.FindsEdit (.edit idx) ↔ (trim s.editValue).isEmpty ∨ s.editing = 0 ∨
      ∀ e, s.visible[idx]? = some e → e.editing := by
    constructor
    · exact fun hfinds => hfinds idx rfl
    · rintro hfinds _ ⟨rfl⟩
      exact hfinds
  obtain ⟨s₁, hrun, rfl⟩ := of_run_edit h
  rw [hfinds]
  by_cases hblank : (trim s.editValue).isEmpty
  · rw [completeEdit, if_pos hblank] at hrun
    obtain ⟨p, -, rfl⟩ := of_run_remove hrun
    exact iff_of_true ((List.eraseIdx_sublist s.entries p).countP_le.trans hle) (.inl hblank)
  · rw [completeEdit, if_neg hblank] at hrun
    obtain ⟨p, hp, rfl⟩ := of_run_updateNth hrun
    obtain ⟨e, he, hvisible⟩ := exists_entry_of_position hp
    -- the flag of the entry is turned over, not cleared
    have hcount := countP_modify (f := fun e => { e with
      description := trim s.editValue, editing := !e.editing }) he
    have hentry : (∀ e', s.visible[idx]? = some e' → e'.editing) ↔ e.editing := by
      rw [hvisible]
      exact ⟨fun h => h e rfl, by rintro h _ ⟨rfl⟩; exact h⟩
    rw [hentry, or_iff_right hblank]
    change (s.entries.modify p _).countP (·.editing) ≤ 1 ↔ _
    cases hediting : e.editing
    · rw [hediting] at hcount
      change _ + 0 = s.editing + 1 at hcount
      rw [or_iff_left Bool.false_ne_true]
      omega
    · rw [hediting] at hcount
      change _ + 1 = s.editing + 0 at hcount
      exact iff_of_true (by omega) (.inr rfl)

/-- **At most one edit stays open** in a step exactly when a finished edit is open. -/
theorem editing_le_iff {m : Msg} (hle : s.editing ≤ 1) (h : (apply m).run s = .ok () s') :
    s'.editing ≤ 1 ↔ s.FindsEdit m := by
  by_cases hm : ∃ idx, m = .edit idx
  · obtain ⟨idx, rfl⟩ := hm
    exact editing_edit_le_iff hle h
  · have hno : ∀ idx, m ≠ .edit idx := fun idx hidx => hm ⟨idx, hidx⟩
    exact iff_of_true (editing_apply_le hno hle h) fun idx hidx => absurd hidx (hno idx)

/-- A command that panics finishes no edit. -/
theorem findsEdit_of_not_returns {m : Msg} (h : ¬s.Returns (apply m)) : s.FindsEdit m := by
  rintro idx rfl
  refine .inr (.inr fun e he => ?_)
  rw [returns_edit_iff] at h
  exact absurd (List.getElem?_eq_some_iff.mp he).1 h

end State

/-! ### Sequences of commands -/

theorem run_concat_iff {s s' : State} {msgs : List Msg} {m : Msg} :
    (handleStateMachine (msgs ++ [m])).run s = .ok () s' ↔
      ∃ s₁, (handleStateMachine msgs).run s = .ok () s₁ ∧ (State.apply m).run s₁ = .ok () s' := by
  induction msgs generalizing s with
  | nil =>
    rw [List.nil_append, handleStateMachine_cons]
    constructor
    · intro h
      obtain ⟨_, s₁, hs₁, hs'⟩ := EStateM.run_bind_eq_ok_iff.mp h
      obtain ⟨-, rfl⟩ := EStateM.Result.ok.inj hs'
      exact ⟨s, rfl, hs₁⟩
    · rintro ⟨s₁, hs₁, hs'⟩
      obtain ⟨-, rfl⟩ := EStateM.Result.ok.inj hs₁
      exact EStateM.run_bind_eq_ok_iff.mpr ⟨_, s', hs', rfl⟩
  | cons m' ms ih =>
    rw [List.cons_append, handleStateMachine_cons, handleStateMachine_cons]
    constructor
    · intro h
      obtain ⟨_, s₁, hs₁, hs'⟩ := EStateM.run_bind_eq_ok_iff.mp h
      obtain ⟨s₂, hs₂, hs'⟩ := ih.mp hs'
      exact ⟨s₂, EStateM.run_bind_eq_ok_iff.mpr ⟨_, s₁, hs₁, hs₂⟩, hs'⟩
    · rintro ⟨s₂, h, hs'⟩
      obtain ⟨_, s₁, hs₁, hs₂⟩ := EStateM.run_bind_eq_ok_iff.mp h
      exact EStateM.run_bind_eq_ok_iff.mpr ⟨_, s₁, hs₁, ih.mpr ⟨s₂, hs₂, hs'⟩⟩

/-- **At most one edit is open** in every state that a sequence of commands leads to if and only if
every edit that is finished is open, or has nothing to write, or no edit is open. -/
theorem atMostOneEditing_iff (msgs : List Msg) :
    (∀ pre s, pre <+: msgs → (handleStateMachine pre).run default = .ok () s → s.editing ≤ 1) ↔
      ∀ pre m s, pre ++ [m] <+: msgs → (handleStateMachine pre).run default = .ok () s →
        s.FindsEdit m := by
  constructor
  · intro h pre m s hpre hrun
    have hle := h pre s ((List.prefix_append pre [m]).trans hpre) hrun
    by_cases hreturns : s.Returns (State.apply m)
    · obtain ⟨s', hs'⟩ := hreturns
      exact (State.editing_le_iff hle hs').mp (h _ s' hpre (run_concat_iff.mpr ⟨s, hrun, hs'⟩))
    · exact State.findsEdit_of_not_returns hreturns
  · intro h pre
    induction pre using List.reverseRecOn with
    | nil =>
      intro s _ hrun
      obtain ⟨-, rfl⟩ := EStateM.Result.ok.inj hrun
      exact Nat.zero_le _
    | append_singleton pre m ih =>
      intro s' hpre hrun
      obtain ⟨s, hs, hs'⟩ := run_concat_iff.mp hrun
      have hle := ih s ((List.prefix_append pre [m]).trans hpre) hs
      exact (State.editing_le_iff hle hs').mpr (h pre m s hpre hs)

/-- The edit of the first entry is finished after the edit of the second was opened. -/
def lateEdit : List Msg :=
  [.update "milk", .add, .update "eggs", .add, .toggleEdit 0, .toggleEdit 1, .edit 0]

theorem not_atMostOneEditing : ¬∀ s, Reachable s → s.editing ≤ 1 := by
  intro h
  have hle := h ⟨[⟨"eggs", false, true⟩, ⟨"eggs", false, true⟩], .all, "", ""⟩ ⟨lateEdit, rfl⟩
  exact absurd hle (by decide)

end Wraft.Todo
