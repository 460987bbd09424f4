import Mathlib.Data.List.Basic
import Mathlib.Data.Nat.Notation

/-!
# The `n`-th element of a list that fits

`l.IsNth f n p a` says where the `n`-th element `a` of `l` with `f a` stands. That position is found
in two ways: by walking over the list and counting (`modifyNth`, which also replaces the element),
and by filtering the list together with its positions (`getElem?_filter_zipIdx_iff`).

Erasing that position takes one element out of the filtered list, and none of those that do not
fit (`IsNth.filter_eraseIdx`, `IsNth.filter_eraseIdx_of_not`).
-/

namespace List

variable {α : Type*}

/-- The `n`-th element of `l` that fits is `a`, at position `p`. -/
structure IsNth (f : α → Bool) (l : List α) (n p : ℕ) (a : α) : Prop where
  getElem?_eq : l[p]? = some a
  fits : f a
  countP_take : (l.take p).countP f = n

/-- The `n`-th element that fits is replaced; there is no result if fewer fit. -/
def modifyNth (f : α → Bool) (g : α → α) : ℕ → List α → Option (List α)
  | _, [] => none
  | n, a :: l =>
    if f a then
      match n with
      | 0 => some (g a :: l)
      | n + 1 => (modifyNth f g n l).map (a :: ·)
    else (modifyNth f g n l).map (a :: ·)

variable {f : α → Bool} {g : α → α} {l : List α} {n p : ℕ} {a b : α}

/-! ### At the head of a list -/

theorem not_isNth_nil : ¬IsNth f [] n p a := fun h => by simpa using h.getElem?_eq

theorem isNth_cons_zero : IsNth f (b :: l) n 0 a ↔ b = a ∧ f a ∧ n = 0 := by
  constructor
  · rintro ⟨hget, hfits, rfl⟩
    exact ⟨Option.some.inj hget, hfits, rfl⟩
  · rintro ⟨rfl, hfits, rfl⟩
    exact ⟨rfl, hfits, rfl⟩

theorem isNth_cons_succ :
    IsNth f (b :: l) n (p + 1) a ↔ ∃ m, n = m + (f b).toNat ∧ l.IsNth f m p a := by
  have hcount : ((b :: l).take (p + 1)).countP f = (l.take p).countP f + (f b).toNat := by
    rw [take_succ_cons, countP_cons]
    cases f b <;> rfl
  constructor
  · rintro ⟨hget, hfits, rfl⟩
    exact ⟨_, hcount, hget, hfits, rfl⟩
  · rintro ⟨_, rfl, hget, hfits, rfl⟩
    exact ⟨hget, hfits, hcount⟩

/-! ### The two ways to find it -/

/-- Among the elements that fit, numbered from `k` on, the `n`-th has the number of its position. -/
theorem getElem?_filter_zipIdx_iff {k q : ℕ} :
    ((l.zipIdx k).filter fun x => f x.1)[n]? = some (a, q) ↔
      ∃ p, q = k + p ∧ l.IsNth f n p a := by
  induction l generalizing k n with
  | nil => simp [not_isNth_nil]
  | cons b l ih =>
    rw [zipIdx_cons, filter_cons]
    by_cases hb : f b = true
    · -- the head is the first that fits, and the others are one further on in the tail
      rw [if_pos hb]
      cases n with
      | zero =>
        constructor
        · intro h
          obtain ⟨rfl, rfl⟩ := Prod.mk.inj (Option.some.inj h)
          exact ⟨0, rfl, isNth_cons_zero.mpr ⟨rfl, hb, rfl⟩⟩
        · rintro ⟨_ | p, rfl, h⟩
          · rw [(isNth_cons_zero.mp h).1]
            rfl
          · obtain ⟨m, hm, -⟩ := isNth_cons_succ.mp h
            rw [hb] at hm
            exact absurd hm.symm (Nat.succ_ne_zero m)
      | succ n =>
        rw [getElem?_cons_succ, ih]
        constructor
        · rintro ⟨p, rfl, h⟩
          exact ⟨p + 1, by omega, isNth_cons_succ.mpr ⟨n, by rw [hb]; rfl, h⟩⟩
        · rintro ⟨_ | p, rfl, h⟩
          · exact absurd (isNth_cons_zero.mp h).2.2 (Nat.succ_ne_zero n)
          · obtain ⟨m, hm, h⟩ := isNth_cons_succ.mp h
            rw [hb] at hm
            exact ⟨p, by omega, Nat.succ.inj hm ▸ h⟩
    · -- the head is passed over, but has a position
      rw [if_neg hb, ih]
      constructor
      · rintro ⟨p, rfl, h⟩
        exact ⟨p + 1, by omega, isNth_cons_succ.mpr ⟨n, by simp [hb], h⟩⟩
      · rintro ⟨_ | p, rfl, h⟩
        · obtain ⟨rfl, ha, -⟩ := isNth_cons_zero.mp h
          exact absurd ha hb
        · obtain ⟨m, hm, h⟩ := isNth_cons_succ.mp h
          obtain rfl : n = m := by simpa [hb] using hm
          exact ⟨p, by omega, h⟩

theorem exists_isNth (h : n < (l.filter f).length) : ∃ p a, l.IsNth f n p a := by
  have hmap : (l.zipIdx.filter fun x => f x.1).map Prod.fst = l.filter f := by
    rw [← zipIdx_map_fst 0 l, filter_map, zipIdx_map_fst]
    rfl
  have hlt : n < (l.zipIdx.filter fun x => f x.1).length := by rwa [← hmap, length_map] at h
  obtain ⟨p, -, hnth⟩ := getElem?_filter_zipIdx_iff.mp (getElem?_eq_getElem hlt)
  exact ⟨p, _, hnth⟩

theorem modifyNth_cons_of_not (hb : ¬f b) :
    (b :: l).modifyNth f g n = (l.modifyNth f g n).map (b :: ·) := by
  cases n <;> simp [modifyNth, hb]

theorem modifyNth_cons_succ (hb : f b) :
    (b :: l).modifyNth f g (n + 1) = (l.modifyNth f g n).map (b :: ·) := by
  simp [modifyNth, hb]

/-- The walk ends at the `n`-th element that fits. -/
theorem IsNth.modifyNth_eq (h : l.IsNth f n p a) : l.modifyNth f g n = some (l.set p (g a)) := by
  induction l generalizing n p with
  | nil => exact absurd h not_isNth_nil
  | cons b l ih =>
    cases p with
    | zero =>
      obtain ⟨rfl, hb, rfl⟩ := isNth_cons_zero.mp h
      simp [modifyNth, hb]
    | succ p =>
      obtain ⟨m, rfl, hl⟩ := isNth_cons_succ.mp h
      by_cases hb : f b = true
      · rw [hb, Bool.toNat_true, modifyNth_cons_succ hb, ih hl]
        rfl
      · rw [Bool.eq_false_iff.mpr hb, Bool.toNat_false, Nat.add_zero, modifyNth_cons_of_not hb,
          ih hl]
        rfl

theorem IsNth.modify_eq (h : l.IsNth f n p a) : l.modify p g = l.set p (g a) := by
  obtain ⟨hlt, rfl⟩ := getElem?_eq_some_iff.mp h.getElem?_eq
  refine ext_getElem? fun j => ?_
  rw [getElem?_modify, getElem?_set]
  by_cases hj : p = j
  · subst hj
    simp [hlt]
  · simp [hj]

/-- What the new element shares with the old one is not changed. -/
theorem IsNth.map_set {β : Type*} {g : α → β} (h : l.IsNth f n p a) (hb : g b = g a) :
    (l.set p b).map g = l.map g := by
  obtain ⟨hlt, rfl⟩ := getElem?_eq_some_iff.mp h.getElem?_eq
  refine ext_getElem? fun j => ?_
  rw [getElem?_map, getElem?_map, getElem?_set]
  by_cases hj : p = j
  · subst hj
    simp [hlt, hb]
  · simp [hj]

/-- The walk comes to the end of the list if fewer elements fit. -/
theorem modifyNth_of_length_le (h : (l.filter f).length ≤ n) : l.modifyNth f g n = none := by
  induction l generalizing n with
  | nil => rfl
  | cons b l ih =>
    by_cases hb : f b = true
    · rw [filter_cons_of_pos hb, length_cons] at h
      obtain ⟨m, rfl⟩ : ∃ m, n = m + 1 := ⟨n - 1, by omega⟩
      rw [modifyNth_cons_succ hb, ih (by omega)]
      rfl
    · rw [filter_cons_of_neg hb] at h
      rw [modifyNth_cons_of_not hb, ih h]
      rfl

/-! ### What it shares with the filtered list -/

theorem IsNth.eq_append (h : l.IsNth f n p a) : l = l.take p ++ a :: l.drop (p + 1) := by
  obtain ⟨hlt, rfl⟩ := getElem?_eq_some_iff.mp h.getElem?_eq
  rw [← drop_eq_getElem_cons, take_append_drop]

theorem IsNth.length_filter_take (h : l.IsNth f n p a) : ((l.take p).filter f).length = n :=
  countP_eq_length_filter.symm.trans h.countP_take

theorem IsNth.getElem?_filter (h : l.IsNth f n p a) : (l.filter f)[n]? = some a := by
  rw [h.eq_append, filter_append, filter_cons_of_pos h.fits, ← h.length_filter_take,
    getElem?_append_right (Nat.le_refl _), Nat.sub_self]
  rfl

/-- The `n`-th element that fits is unique. -/
theorem IsNth.unique {q : ℕ} (h : l.IsNth f n p a) (h' : l.IsNth f n q b) : p = q ∧ a = b := by
  have hp := getElem?_filter_zipIdx_iff.mpr ⟨p, (Nat.zero_add p).symm, h⟩
  have hq := getElem?_filter_zipIdx_iff.mpr ⟨q, (Nat.zero_add q).symm, h'⟩
  obtain ⟨rfl, rfl⟩ := Prod.mk.inj (Option.some.inj (hp.symm.trans hq))
  exact ⟨rfl, rfl⟩

/-- Erasing the element takes it out of the filtered list. -/
theorem IsNth.filter_eraseIdx (h : l.IsNth f n p a) :
    (l.eraseIdx p).filter f = (l.filter f).eraseIdx n := by
  have hfilter : l.filter f = (l.take p).filter f ++ a :: (l.drop (p + 1)).filter f := by
    conv_lhs => rw [h.eq_append, filter_append, filter_cons_of_pos h.fits]
  rw [eraseIdx_eq_take_drop_succ, filter_append, hfilter,
    eraseIdx_append_of_length_le (Nat.le_of_eq h.length_filter_take), h.length_filter_take,
    Nat.sub_self, eraseIdx_cons_zero]

/-- No other filter sees that the element is erased. -/
theorem IsNth.filter_eraseIdx_of_not {f' : α → Bool} (h : l.IsNth f n p a) (ha : ¬f' a) :
    (l.eraseIdx p).filter f' = l.filter f' := by
  have hfilter : l.filter f' = (l.take p).filter f' ++ (l.drop (p + 1)).filter f' := by
    conv_lhs => rw [h.eq_append, filter_append, filter_cons_of_neg ha]
  rw [eraseIdx_eq_take_drop_succ, filter_append, hfilter]

end List
