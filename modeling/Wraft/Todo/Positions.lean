import Wraft.Todo.Editing

/-!
# The entry that an index stands for

An index that a command carries is one of the filtered list. The entry it stands for is looked up
in two ways: `toggle` and `complete_edit` walk over the entries with a filtered iterator,
`remove` filters the entries together with their positions. Both end at the same entry
(`run_updateNth_eq`, `position_eq_some_iff`), and nothing else is changed: neither another entry
that fits the filter, nor one that is hidden by it (`actsAt_of_lt`).
-/

namespace Wraft.Todo

namespace State

variable {s : State} {idx p : ℕ} {e : Entry}

/-- The entries that do not fit the filter. -/
def hidden (s : State) : List Entry := s.entries.filter (!s.filter.fits ·)

/-- The entry that `toggle` and `complete_edit` find by advancing the filtered iterator. -/
theorem run_updateNth_eq (f : Entry → Entry) :
    (updateNth idx f).run s = match s.entries.modifyNth s.filter.fits f idx with
      | some entries => .ok () { s with entries }
      | none => .error .unwrap s := by
  by_cases h : idx < s.visible.length
  · obtain ⟨p, e, hnth⟩ := List.exists_isNth h
    have hp : s.position idx = some p := EntryAt.position_eq hnth
    rw [run_updateNth f hp, hnth.modifyNth_eq, hnth.modify_eq]
  · have hp : s.position idx = none := by
      rw [Option.eq_none_iff_forall_ne_some]
      exact fun p hp => h (exists_position_iff.mp ⟨p, hp⟩)
    rw [List.modifyNth_of_length_le (not_lt.mp h)]
    simp [updateNth, hp]

/-- What the commands with index `idx` do when it stands for `e` at position `p`. -/
structure ActsAt (s : State) (idx p : ℕ) (e : Entry) : Prop where
  /-- The filtered iterator finds the entry. -/
  walk : ∀ f, s.entries.modifyNth s.filter.fits f idx = some (s.entries.set p (f e))
  /-- The filtered list of positions has it. -/
  position : s.position idx = some p
  toggle : (apply (.toggle idx)).run s =
    .ok () { s with entries := s.entries.set p { e with completed := !e.completed } }
  remove : (apply (.remove idx)).run s = .ok () { s with entries := s.entries.eraseIdx p }
  /-- Besides the description the mark of the edit changes, and `edit_value` is empty again. -/
  edit : ¬(trim s.editValue).isEmpty → (apply (.edit idx)).run s =
    .ok () { s with
      entries := s.entries.set p
        { e with description := trim s.editValue, editing := !e.editing }
      editValue := "" }
  edit_blank : (trim s.editValue).isEmpty → (apply (.edit idx)).run s =
    .ok () { s with entries := s.entries.eraseIdx p, editValue := "" }
  completed : ∀ description editing,
    (s.entries.set p { e with description, editing }).map (·.completed) =
      s.entries.map (·.completed)
  visible : ({ s with entries := s.entries.eraseIdx p } : State).visible = s.visible.eraseIdx idx
  hidden : ({ s with entries := s.entries.eraseIdx p } : State).hidden = s.hidden

/-- The walk ends at the entry that the index stands for. -/
theorem EntryAt.run_updateNth (h : s.EntryAt idx p e) (f : Entry → Entry) :
    (updateNth idx f).run s = .ok () { s with entries := s.entries.set p (f e) } := by
  rw [run_updateNth_eq, List.IsNth.modifyNth_eq h]

theorem run_edit {s₁ : State} (h : (completeEdit idx (trim s.editValue)).run s = .ok () s₁) :
    (apply (.edit idx)).run s = .ok () { s₁ with editValue := "" } := by
  simp only [apply, EStateM.run_bind, EStateM.run_get, h]
  rfl

theorem EntryAt.actsAt (h : s.EntryAt idx p e) : s.ActsAt idx p e where
  walk f := h.modifyNth_eq
  position := h.position_eq
  toggle := h.run_updateNth _
  remove := run_remove h.position_eq
  edit hval := run_edit <| by
    rw [completeEdit, if_neg hval]
    exact h.run_updateNth _
  edit_blank hval := run_edit <| by
    rw [completeEdit, if_pos hval]
    exact run_remove h.position_eq
  completed _ _ := h.map_set rfl
  visible := h.filter_eraseIdx
  hidden := h.filter_eraseIdx_of_not (by simp [h.fits])

/-- **An index command** acts on the entry that its index stands for, and on nothing else. -/
theorem actsAt_of_lt (h : idx < s.visible.length) :
    ∃ p e, (∀ q e', s.EntryAt idx q e' ↔ q = p ∧ e' = e) ∧ s.ActsAt idx p e := by
  obtain ⟨p, e, hnth⟩ := List.exists_isNth h
  have hentry : s.EntryAt idx p e := hnth
  refine ⟨p, e, fun q e' => ?_, hentry.actsAt⟩
  constructor
  · exact fun h' => List.IsNth.unique h' hentry
  · rintro ⟨rfl, rfl⟩
    exact hentry

theorem actsAt_of_lt_secondOfTwo : ∃ p e,
    (∀ q e', secondOfTwo.EntryAt 0 q e' ↔ q = p ∧ e' = e) ∧ secondOfTwo.ActsAt 0 p e :=
  actsAt_of_lt (by decide)

end State

end Wraft.Todo
