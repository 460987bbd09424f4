import Mathlib.Data.Finset.Card
import Mathlib.Data.Finset.Range
import Mathlib.Data.Nat.Find
import Mathlib.Data.Nat.ModEq
import Mathlib.Logic.Function.Basic
import Mathlib.Order.Bounds.Basic

/-!
# Windows

A window is a finite map whose keys are handed out one after another: a new value gets the next
key, and a value that is taken out never comes back under its old key. All keys in use lie between
the `first` of them and the `next` one.

A structure that stores the values of a window in a bounded number of cells, the cell of a key
being the key modulo their number, loses nothing as long as the keys in use fit
(`Window.eq_of_mod_eq`).
-/

/-- A map from the keys below `next`. -/
@[ext]
structure Window (α : Type*) where
  next : ℕ
  get : ℕ → Option α
  get_of_le : ∀ k, next ≤ k → get k = none

namespace Window

variable {α : Type*} (m : Window α)

/-- The window without values, before the first key is handed out. -/
def empty : Window α where
  next := 0
  get _ := none
  get_of_le _ _ := rfl

/-- The next key is handed out for a value. -/
def push (v : α) : Window α where
  next := m.next + 1
  get := Function.update m.get m.next (some v)
  get_of_le k hk := by
    rw [Function.update_of_ne (by omega)]
    exact m.get_of_le k (by omega)

/-- The value of a key is taken out. -/
def erase (k : ℕ) : Window α where
  next := m.next
  get := Function.update m.get k none
  get_of_le j hj := by
    by_cases hjk : j = k
    · rw [hjk, Function.update_self]
    · rw [Function.update_of_ne hjk]
      exact m.get_of_le j hj

/-- The smallest key in use, or the next one if there is none. -/
def first : ℕ :=
  Nat.find (p := fun k => (m.get k).isSome ∨ k = m.next) ⟨m.next, .inr rfl⟩

variable {m}

@[simp] theorem next_push (v : α) : (m.push v).next = m.next + 1 := rfl

@[simp] theorem next_erase (k : ℕ) : (m.erase k).next = m.next := rfl

@[simp] theorem get_push_next (v : α) : (m.push v).get m.next = some v := Function.update_self ..

theorem get_push_of_ne {k : ℕ} (h : k ≠ m.next) (v : α) : (m.push v).get k = m.get k :=
  Function.update_of_ne h ..

@[simp] theorem get_erase_self (k : ℕ) : (m.erase k).get k = none := Function.update_self ..

theorem get_erase_of_ne {j k : ℕ} (h : j ≠ k) : (m.erase k).get j = m.get j :=
  Function.update_of_ne h ..

theorem lt_next_of_get {k : ℕ} {v : α} (h : m.get k = some v) : k < m.next := by
  by_contra hk
  simp [m.get_of_le k (by omega)] at h

/-- Taking out what is not there changes nothing. -/
theorem erase_of_get_eq_none {k : ℕ} (h : m.get k = none) : m.erase k = m :=
  Window.ext rfl (by simp [erase, ← h])

/-! ### The first key -/

theorem first_le_next : m.first ≤ m.next := Nat.find_min' _ (.inr rfl)

theorem first_le_of_get {k : ℕ} {v : α} (h : m.get k = some v) : m.first ≤ k :=
  Nat.find_min' _ (.inl (by simp [h]))

theorem get_of_lt_first {k : ℕ} (h : k < m.first) : m.get k = none := by
  refine Option.eq_none_iff_forall_ne_some.mpr fun v hv => ?_
  exact (first_le_of_get hv).not_gt h

/-- `first` is the smallest of the keys in use and the next one. -/
theorem isLeast_first : IsLeast ({k | (m.get k).isSome} ∪ {m.next}) m.first :=
  ⟨Nat.find_spec (p := fun k => (m.get k).isSome ∨ k = m.next) _,
    fun _ hk => Nat.find_min' _ hk⟩

theorem first_eq_of_isLeast {k : ℕ} (h : IsLeast ({k | (m.get k).isSome} ∪ {m.next}) k) :
    m.first = k :=
  isLeast_first.unique h

theorem first_empty : (empty : Window α).first = 0 :=
  Nat.le_zero.mp first_le_next

theorem first_push (v : α) : (m.push v).first = m.first := by
  refine first_eq_of_isLeast ⟨?_, fun k hk => ?_⟩
  · obtain hsome | heq : (m.get m.first).isSome ∨ m.first = m.next := isLeast_first.1
    · refine .inl ?_
      rw [Set.mem_ofPred_eq, get_push_of_ne ?_ v]
      · exact hsome
      · rintro heq
        simp [heq, m.get_of_le] at hsome
    · refine .inl ?_
      rw [Set.mem_ofPred_eq, heq, get_push_next]
      rfl
  · obtain hk | hk : ((m.push v).get k).isSome ∨ k = m.next + 1 := hk
    · by_cases hne : k = m.next
      · exact hne ▸ first_le_next
      · rw [get_push_of_ne hne] at hk
        obtain ⟨u, hu⟩ := Option.isSome_iff_exists.mp hk
        exact first_le_of_get hu
    · exact hk ▸ first_le_next.trans (Nat.le_succ _)

theorem first_le_first_erase (k : ℕ) : m.first ≤ (m.erase k).first := by
  obtain hsome | heq : ((m.erase k).get (m.erase k).first).isSome ∨ (m.erase k).first = m.next :=
    isLeast_first.1
  · by_cases hk : (m.erase k).first = k
    · simp [hk] at hsome
    · rw [get_erase_of_ne hk] at hsome
      obtain ⟨u, hu⟩ := Option.isSome_iff_exists.mp hsome
      exact first_le_of_get hu
  · exact heq ▸ first_le_next

/-! ### The keys in use -/

variable (m) in
/-- The keys in use. -/
def keys : Finset ℕ := (Finset.range m.next).filter fun k => (m.get k).isSome

theorem mem_keys {k : ℕ} : k ∈ m.keys ↔ (m.get k).isSome := by
  rw [keys, Finset.mem_filter, Finset.mem_range, and_iff_right_iff_imp]
  intro h
  obtain ⟨v, hv⟩ := Option.isSome_iff_exists.mp h
  exact lt_next_of_get hv

theorem keys_empty : (empty : Window α).keys = ∅ := rfl

theorem card_keys_push (v : α) : (m.push v).keys.card = m.keys.card + 1 := by
  have hfree : m.next ∉ m.keys := by
    rw [mem_keys, m.get_of_le _ le_rfl]
    simp
  have hkeys : (m.push v).keys = insert m.next m.keys := by
    ext k
    rw [Finset.mem_insert, mem_keys, mem_keys]
    by_cases hk : k = m.next
    · simp [hk]
    · rw [get_push_of_ne hk, or_iff_right hk]
  rw [hkeys, Finset.card_insert_of_notMem hfree]

theorem card_keys_erase {k : ℕ} {v : α} (h : m.get k = some v) :
    (m.erase k).keys.card + 1 = m.keys.card := by
  have hkeys : (m.erase k).keys = m.keys.erase k := by
    ext j
    rw [Finset.mem_erase, mem_keys, mem_keys]
    by_cases hj : j = k
    · simp [hj]
    · rw [get_erase_of_ne hj, and_iff_right hj]
  rw [hkeys, Finset.card_erase_add_one (mem_keys.mpr (by simp [h]))]

/-- Without keys in use, the next key is the first. -/
theorem first_eq_next (h : m.keys = ∅) : m.first = m.next := by
  obtain hsome | heq : (m.get m.first).isSome ∨ m.first = m.next := isLeast_first.1
  · exact absurd (mem_keys.mpr hsome) (by simp [h])
  · exact heq

/-- Two keys less than `n` apart that agree modulo `n` are the same. -/
theorem eq_of_mod_eq {n i j k : ℕ} (hi : k ≤ i) (hin : i < k + n) (hj : k ≤ j) (hjn : j < k + n)
    (h : i % n = j % n) : i = j := by
  refine Nat.ModEq.eq_of_abs_lt (show i ≡ j [MOD n] from h) ?_
  rw [abs_lt]
  omega

end Window
