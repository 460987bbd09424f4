import Mathlib.Data.List.Basic
import Mathlib.Data.Nat.Notation

/-!
# The browser's local storage

`localStorage` maps strings to strings and is written one item at a time. It is modelled by the
list of the writes that went through, **latest first**, so that every state a page can leave
behind when it stops part way through an operation is a suffix of the writes at the operation's
end (`LocalStorage.Stop`). This covers a process that is killed between two writes and a
`set_item` that throws, as when the quota is exceeded.

The decimal numerals that are stored are read back by `parseU64` (`parseU64_repr`), which tells
numerals apart (`repr_inj`), also two of them around a dash (`repr_dash_repr_inj`).
-/

namespace Wraft

/-- One write to the local storage. -/
inductive Write where
  | setItem (key value : String)
  | removeItem (key : String)
  deriving DecidableEq, Repr

/-- The local storage of one origin: the writes that went through, latest first. -/
abbrev LocalStorage := List Write

namespace LocalStorage

/-- `Storage.getItem`: the value last set under `key`, unless it was removed since. -/
def getItem : LocalStorage → String → Option String
  | [], _ => none
  | .setItem k v :: ls, key => if k = key then some v else getItem ls key
  | .removeItem k :: ls, key => if k = key then none else getItem ls key

/-- `Storage.setItem`. -/
def setItem (ls : LocalStorage) (key value : String) : LocalStorage := .setItem key value :: ls

/-- `Storage.removeItem`. -/
def removeItem (ls : LocalStorage) (key : String) : LocalStorage := .removeItem key :: ls

@[simp]
theorem getItem_setItem_self (ls : LocalStorage) (k v : String) :
    (ls.setItem k v).getItem k = some v := by
  simp [setItem, getItem]

theorem getItem_setItem_of_ne (ls : LocalStorage) {k key : String} (v : String) (h : k ≠ key) :
    (ls.setItem k v).getItem key = ls.getItem key := by
  simp [setItem, getItem, h]

@[simp]
theorem getItem_removeItem_self (ls : LocalStorage) (k : String) :
    (ls.removeItem k).getItem k = none := by
  simp [removeItem, getItem]

theorem getItem_removeItem_of_ne (ls : LocalStorage) {k key : String} (h : k ≠ key) :
    (ls.removeItem k).getItem key = ls.getItem key := by
  simp [removeItem, getItem, h]

/-- An operation that takes the storage from `before` to `after` can be stopped at `ls`: some of
its writes, from the first on, have gone through. -/
def Stop (before after ls : LocalStorage) : Prop := before <:+ ls ∧ ls <:+ after

theorem Stop.of_cons {before after ls : LocalStorage} {w : Write}
    (h : Stop before (w :: after) ls) : ls = w :: after ∨ Stop before after ls := by
  obtain ⟨hb, ha⟩ := h
  exact (List.suffix_cons_iff.mp ha).imp_right fun ha => ⟨hb, ha⟩

/-- An operation without writes leaves what it found. -/
theorem Stop.eq_of_refl {before ls : LocalStorage} (h : Stop before before ls) : ls = before :=
  (h.1.eq_of_length (Nat.le_antisymm h.1.length_le h.2.length_le)).symm

end LocalStorage

/-! ### Numerals -/

/-- The value of a string of decimal digits. -/
def parseDigits (ds : List Char) : Option ℕ :=
  if ds ≠ [] ∧ ds.all Char.isDigit then some (Nat.ofDigitChars 10 ds 0) else none

/-- `str::parse` for an unsigned integer: decimal digits after an optional plus sign. The source's
numbers are `u64` and the parse fails from `2 ^ 64` on; the numbers here have no such bound, and
what is written can be read. -/
def parseU64 (s : String) : Option ℕ :=
  match s.toList with
  | '+' :: ds => parseDigits ds
  | ds => parseDigits ds

theorem isDigit_of_mem_toList_repr {n : ℕ} {c : Char} (h : c ∈ n.repr.toList) : c.isDigit := by
  rw [Nat.toList_repr] at h
  exact Nat.isDigit_of_mem_toDigits (by omega) (by omega) h

/-- Numbers survive being written and read back. -/
@[simp]
theorem parseU64_repr (n : ℕ) : parseU64 n.repr = some n := by
  have hne : n.repr.toList ≠ [] := by
    rw [Nat.toList_repr]
    exact Nat.toDigits_ne_nil
  have hplus : ∀ ds, n.repr.toList ≠ '+' :: ds := by
    intro ds h
    have := isDigit_of_mem_toList_repr (n := n) (c := '+') (by rw [h]; simp)
    simp [Char.isDigit] at this
  have hall : n.repr.toList.all Char.isDigit := by
    rw [List.all_eq_true]
    exact fun c hc => isDigit_of_mem_toList_repr hc
  have hval : Nat.ofDigitChars 10 n.repr.toList 0 = n := by
    rw [Nat.toList_repr]
    exact Nat.ofDigitChars_ten_toDigits
  unfold parseU64
  split
  · exact absurd ‹_› (hplus _)
  · simp only [parseDigits, hall, hval, and_true]
    rw [if_pos hne]

theorem repr_inj {m n : ℕ} : m.repr = n.repr ↔ m = n :=
  ⟨fun h => by simpa using congrArg parseU64 h, congrArg _⟩

/-- Strings with the same beginning are equal when their ends are. -/
theorem append_right_inj {p s t : String} : p ++ s = p ++ t ↔ s = t := by
  simp [String.ext_iff]

/-- A numeral, a dash and a numeral determine both numbers. -/
theorem repr_dash_repr_inj {m n i j : ℕ} :
    m.repr ++ "-" ++ i.repr = n.repr ++ "-" ++ j.repr ↔ m = n ∧ i = j := by
  have hdash : ∀ k : ℕ, '-' ∉ k.repr.toList := fun k h => by
    have := isDigit_of_mem_toList_repr h
    simp [Char.isDigit] at this
  constructor
  · intro h
    have h' : m.repr.toList ++ '-' :: i.repr.toList = n.repr.toList ++ '-' :: j.repr.toList := by
      simpa only [String.toList_append, String.reduceToList, List.append_assoc,
        List.singleton_append] using congrArg String.toList h
    obtain ⟨h1, -, h2⟩ := (List.append_cons_inj_of_notMem (hdash m) (hdash i)).mp h'
    exact ⟨repr_inj.mp (String.ext h1), repr_inj.mp (String.ext h2)⟩
  · rintro ⟨rfl, rfl⟩
    rfl

end Wraft
