import Mathlib.Data.Finset.Card

/-!
# Majorities of a finite set

`IsMajority s Q`: `Q` is made of more than half of `s`. Two majorities of the same set meet
(`IsMajority.exists_mem_both`), which is all that quorum-based protocols ask of their quorums.
-/

namespace Finset

variable {α : Type*}

/-- `Q` consists of more than half of the elements of `s`. -/
def IsMajority (s Q : Finset α) : Prop := Q ⊆ s ∧ s.card < 2 * Q.card

/-- `|s| / 2 + 1` elements are a majority. -/
theorem isMajority_of_half_lt {s Q : Finset α} (hsub : Q ⊆ s) (h : s.card / 2 + 1 ≤ Q.card) :
    s.IsMajority Q :=
  ⟨hsub, by omega⟩

/-- **Quorum intersection.** Two majorities of the same set share an element. -/
theorem IsMajority.exists_mem_both [DecidableEq α] {s Q Q' : Finset α} (h : s.IsMajority Q)
    (h' : s.IsMajority Q') : ∃ v, v ∈ Q ∧ v ∈ Q' := by
  have hcard : s.card < Q.card + Q'.card := by
    have := h.2
    have := h'.2
    omega
  obtain ⟨v, hv⟩ := Finset.inter_nonempty_of_card_lt_card_add_card h.1 h'.1 hcard
  exact ⟨v, (Finset.mem_inter.mp hv).1, (Finset.mem_inter.mp hv).2⟩

end Finset
