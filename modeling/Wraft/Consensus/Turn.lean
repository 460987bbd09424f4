import Wraft.Consensus.Commit

/-!
# Turns of one node

An implementation reacts to one message at a time, and one reaction may be more than one step of
the protocol: a node that hears of a newer term adopts it and then goes on to vote or to accept
entries. A `Turn` of node `n` is such a reaction. Everything a refinement proof needs to know
about the states before and after it is in `Turn.reachable`, `Turn.later` (what was so stays so),
`Turn.frame` (nothing of the other nodes changes) and `Turn.keeps` (committed prefixes are not
overwritten).
-/

namespace Consensus

variable {N E : Type*}

/-- Nothing of any node but `n` changes, and nobody but `n` is elected. -/
structure Frame (n : N) (a a' : State N E) : Prop where
  term : ∀ {m}, m ≠ n → a'.term m = a.term m
  vote : ∀ {m}, m ≠ n → a'.vote m = a.vote m
  log : ∀ {m}, m ≠ n → a'.log m = a.log m
  stood : ∀ {m}, m ≠ n → a'.stood m = a.stood m
  acked : ∀ {m}, m ≠ n → a'.acked m = a.acked m
  leader : ∀ t, a'.leader t = a.leader t ∨ a'.leader t = some n

theorem Frame.refl (n : N) (a : State N E) : Frame n a a :=
  ⟨fun _ => rfl, fun _ => rfl, fun _ => rfl, fun _ => rfl, fun _ => rfl, fun _ => .inl rfl⟩

theorem Frame.trans {n : N} {a b c : State N E} (h : Frame n a b) (h' : Frame n b c) :
    Frame n a c where
  term hm := (h'.term hm).trans (h.term hm)
  vote hm := (h'.vote hm).trans (h.vote hm)
  log hm := (h'.log hm).trans (h.log hm)
  stood hm := (h'.stood hm).trans (h.stood hm)
  acked hm := (h'.acked hm).trans (h.acked hm)
  leader t := (h'.leader t).elim (fun e => e ▸ h.leader t) .inr

section

variable [DecidableEq N]

theorem update₂_row_of_ne {α β γ : Type*} [DecidableEq α] [DecidableEq β] (f : α → β → γ)
    {a a' : α} (b : β) (c : γ) (h : a' ≠ a) : update₂ f a b c a' = f a' :=
  funext fun _ => update₂_of_ne f c (.inl h)

theorem frame_observe (a : State N E) (n : N) (t : ℕ) : Frame n a (a.observe n t) :=
  { Frame.refl n a with term := fun hm => Function.update_of_ne hm _ _ }

theorem frame_stand (a : State N E) (n : N) : Frame n a (a.stand n) :=
  { Frame.refl n a with
    term := fun hm => Function.update_of_ne hm _ _
    vote := fun hm => update₂_row_of_ne _ _ _ hm
    stood := fun hm => update₂_row_of_ne _ _ _ hm }

theorem frame_grant (a : State N E) (v c : N) : Frame v a (a.grant v c) :=
  { Frame.refl v a with vote := fun hm => update₂_row_of_ne _ _ _ hm }

theorem frame_elect (a : State N E) (c : N) : Frame c a (a.elect c) :=
  { Frame.refl c a with
    acked := fun hm => update₂_row_of_ne _ _ _ hm
    leader := fun t => by
      by_cases ht : t = a.term c
      · subst ht
        exact .inr (Function.update_self _ _ _)
      · exact .inl (Function.update_of_ne ht _ _) }

theorem frame_propose (a : State N E) (c : N) (e : E) : Frame c a (a.propose c e) :=
  { Frame.refl c a with
    log := fun hm => Function.update_of_ne hm _ _
    acked := fun hm => update₂_row_of_ne _ _ _ hm }

theorem frame_accept (a : State N E) (q : N) (k : ℕ) (l : List E) :
    Frame q a (a.accept q k l) :=
  { Frame.refl q a with
    log := fun hm => Function.update_of_ne hm _ _
    acked := fun hm => update₂_row_of_ne _ _ _ hm }

variable (term : E → ℕ) (members : Finset N) (ok : List E → List E → Prop)

/-- Node `n` hears of the term `t`, which may be newer than its own or not. -/
def State.hear (a : State N E) (n : N) (t : ℕ) : State N E :=
  if a.term n < t then a.observe n t else a

/-- A turn of node `n`: it hears of a term, and then makes one step or none. -/
def Turn (n : N) (a a' : State N E) : Prop :=
  ∃ t, a' = a.hear n t ∨ Step term members ok (a.hear n t) a' ∧ Frame n (a.hear n t) a'

variable {term members ok} {n : N} {a a' : State N E}

theorem hear_of_le {t : ℕ} (h : t ≤ a.term n) : a.hear n t = a :=
  if_neg (Nat.not_lt.mpr h)

theorem hear_of_lt {t : ℕ} (h : a.term n < t) : a.hear n t = a.observe n t := if_pos h

theorem hear_self (a : State N E) (n : N) : a.hear n (a.term n) = a := hear_of_le le_rfl

@[simp]
theorem term_hear (a : State N E) (n : N) (t : ℕ) : (a.hear n t).term n = max (a.term n) t := by
  rcases Nat.lt_or_ge (a.term n) t with h | h
  · rw [hear_of_lt h, max_eq_right h.le]
    exact Function.update_self _ _ _
  · rw [hear_of_le h, max_eq_left h]

@[simp]
theorem leaderLog_hear (a : State N E) (n : N) (t : ℕ) : (a.hear n t).leaderLog = a.leaderLog := by
  unfold State.hear
  split_ifs <;> rfl

@[simp]
theorem log_hear (a : State N E) (n : N) (t : ℕ) : (a.hear n t).log = a.log := by
  unfold State.hear
  split_ifs <;> rfl

@[simp]
theorem vote_hear (a : State N E) (n : N) (t : ℕ) : (a.hear n t).vote = a.vote := by
  unfold State.hear
  split_ifs <;> rfl

@[simp]
theorem acked_hear (a : State N E) (n : N) (t : ℕ) : (a.hear n t).acked = a.acked := by
  unfold State.hear
  split_ifs <;> rfl

theorem frame_hear (a : State N E) (n : N) (t : ℕ) : Frame n a (a.hear n t) := by
  unfold State.hear
  split_ifs
  · exact frame_observe a n t
  · exact Frame.refl n a

theorem Turn.hear (n : N) (a : State N E) (t : ℕ) : Turn term members ok n a (a.hear n t) :=
  ⟨t, .inl rfl⟩

theorem Turn.refl (n : N) (a : State N E) : Turn term members ok n a a :=
  ⟨a.term n, .inl (hear_self a n).symm⟩

/-- A step after hearing of a term. -/
theorem Turn.hear_step {t : ℕ} (hs : Step term members ok (a.hear n t) a')
    (hf : Frame n (a.hear n t) a') : Turn term members ok n a a' := ⟨t, .inr ⟨hs, hf⟩⟩

theorem Turn.of_step (hs : Step term members ok a a') (hf : Frame n a a') :
    Turn term members ok n a a' :=
  ⟨a.term n, .inr (by rw [hear_self]; exact ⟨hs, hf⟩)⟩

theorem Reachable.hear (h : Reachable term members ok a) (n : N) (t : ℕ) :
    Reachable term members ok (a.hear n t) := by
  rcases Nat.lt_or_ge (a.term n) t with ht | ht
  · rw [hear_of_lt ht]
    exact h.tail (.observe a n t ht)
  · rwa [hear_of_le ht]

theorem Turn.reachable (ht : Turn term members ok n a a') (h : Reachable term members ok a) :
    Reachable term members ok a' := by
  obtain ⟨t, rfl | ⟨hs, -⟩⟩ := ht
  · exact h.hear n t
  · exact (h.hear n t).tail hs

theorem Inv.hear (h : Inv term members a) (n : N) (t : ℕ) : Inv term members (a.hear n t) := by
  rcases Nat.lt_or_ge (a.term n) t with ht | ht
  · rw [hear_of_lt ht]
    exact h.observe ht
  · rwa [hear_of_le ht]

theorem later_hear (h : Inv term members a) (n : N) (t : ℕ) : Later a (a.hear n t) := by
  rcases Nat.lt_or_ge (a.term n) t with ht | ht
  · rw [hear_of_lt ht]
    exact Step.later h (.observe a n t ht : Step term members (fun _ _ => True) a _)
  · rw [hear_of_le ht]
    exact Later.refl a

theorem Turn.later (ht : Turn term members ok n a a') (h : Inv term members a) :
    Later a a' := by
  obtain ⟨t, rfl | ⟨hs, -⟩⟩ := ht
  · exact later_hear h n t
  · exact (later_hear h n t).trans (hs.later (h.hear n t))

theorem Turn.frame (ht : Turn term members ok n a a') : Frame n a a' := by
  obtain ⟨t, rfl | ⟨-, hf⟩⟩ := ht
  · exact frame_hear a n t
  · exact (frame_hear a n t).trans hf

/-- What is newly acknowledged is acknowledged in the term that the turn ends in. -/
theorem Turn.acked_eq_or (ht : Turn term members ok n a a') (q : N) (t : ℕ) :
    a'.acked q t = a.acked q t ∨ a'.term q = t := by
  obtain ⟨s, rfl | ⟨hs, -⟩⟩ := ht
  · exact .inl (by rw [acked_hear])
  · rw [← acked_hear a n s]
    generalize a.hear n s = b at hs ⊢
    have hupd : ∀ (c : N) (k : ℕ), update₂ b.acked c (b.term c) k q t = b.acked q t ∨
        b.term q = t := by
      intro c k
      rw [update₂_apply]
      split_ifs with h
      · exact .inr (by rw [h.1, h.2])
      · exact .inl rfl
    cases hs with
    | observe => exact .inl rfl
    | stand => exact .inl rfl
    | grant => exact .inl rfl
    | elect c => exact hupd c _
    | propose c => exact hupd c _
    | accept c => exact hupd c _

theorem Turn.keeps (ht : Turn term members ok n a a') (h : Inv term members a)
    (hc : Complete term members a) {q : N} {l : List E}
    (hl : Committed term members a (a.term q) l) (hp : l <+: a.log q) : l <+: a'.log q := by
  obtain ⟨t, rfl | ⟨hs, -⟩⟩ := ht
  · rwa [log_hear]
  · have hlater := later_hear h n t
    have hc' : Complete term members (a.hear n t) := by
      rcases Nat.lt_or_ge (a.term n) t with ht | ht
      · rw [hear_of_lt ht]
        exact hc.observe ht
      · rwa [hear_of_le ht]
    exact ((hl.later h hlater).mono_term (hlater.term_le q)).keeps hc' hs (by rwa [log_hear])

end

end Consensus
