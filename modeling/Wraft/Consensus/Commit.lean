import Wraft.Consensus.Completeness

/-!
# Committed prefixes

`Committed a t l`: the list `l` is made of chosen entries and what precedes them, and the entries
were chosen in terms up to `t`. Being committed is stable along a run (`Committed.later`); under
the invariant `Complete` any two committed lists are prefixes of one another
(`Committed.prefix_or_prefix`) and a committed prefix of a node's log is never overwritten
(`Committed.keeps`). These are the rules by which commit indices and applied entries are shown
safe.
-/

namespace Consensus

open Finset

variable {N E : Type*} (term : E → ℕ) (members : Finset N)

/-- `l` is a prefix of what was chosen in some term up to `t`. -/
def Committed (a : State N E) (t : ℕ) (l : List E) : Prop :=
  l = [] ∨ ∃ s n, s ≤ t ∧ Chosen term members a s n ∧ l <+: (a.leaderLog s).take (n + 1)

variable {term members} {a : State N E}

theorem Committed.nil (t : ℕ) : Committed term members a t [] := .inl rfl

theorem Committed.of_prefix {t : ℕ} {l l' : List E} (h : Committed term members a t l)
    (hp : l' <+: l) : Committed term members a t l' := by
  rcases h with rfl | ⟨s, n, hs, hch, hl⟩
  · exact .inl (List.prefix_nil.mp hp)
  · exact .inr ⟨s, n, hs, hch, hp.trans hl⟩

theorem Committed.mono_term {t t' : ℕ} {l : List E} (h : Committed term members a t l)
    (ht : t ≤ t') : Committed term members a t' l :=
  h.imp_right fun ⟨s, n, hs, hch, hl⟩ => ⟨s, n, hs.trans ht, hch, hl⟩

/-- A chosen entry commits the leader's log up to it. -/
theorem Chosen.committed {t n : ℕ} (h : Chosen term members a t n) :
    Committed term members a t ((a.leaderLog t).take (n + 1)) :=
  .inr ⟨t, n, le_rfl, h, List.prefix_rfl⟩

/-- Only terms with a leader have chosen entries. -/
theorem Chosen.leader_ne_none (h : Inv term members a) {t n : ℕ}
    (hch : Chosen term members a t n) : a.leader t ≠ none := by
  intro hn
  have := hch.1.lt_length
  simp [(h.leaderless hn).1] at this

/-- The leader of every later term has what was chosen. -/
theorem Chosen.prefix_leaderLog (hc : Complete term members a) {t t' n : ℕ}
    (hch : Chosen term members a t n) (ht : t ≤ t') (hl : a.leader t' ≠ none) :
    (a.leaderLog t).take (n + 1) <+: a.leaderLog t' := by
  rcases ht.lt_or_eq with ht | rfl
  · exact hc.leader ht hl hch.1 hch.choosable
  · exact List.take_prefix _ _

/-- A committed list is a prefix of the log of every leader of its term bound. -/
theorem Committed.prefix_leaderLog (hc : Complete term members a) {t : ℕ} {l : List E}
    (h : Committed term members a t l) (hl : a.leader t ≠ none) : l <+: a.leaderLog t := by
  rcases h with rfl | ⟨s, n, hs, hch, hp⟩
  · exact List.nil_prefix
  · exact hp.trans (hch.prefix_leaderLog hc hs hl)

/-- **Agreement of committed lists.** -/
theorem Committed.prefix_or_prefix (hc : Complete term members a) (h : Inv term members a)
    {t t' : ℕ} {l l' : List E} (hl : Committed term members a t l)
    (hl' : Committed term members a t' l') : l <+: l' ∨ l' <+: l := by
  rcases hl with rfl | ⟨s, n, -, hch, hp⟩
  · exact .inl List.nil_prefix
  rcases hl' with rfl | ⟨s', n', -, hch', hp'⟩
  · exact .inr List.nil_prefix
  rcases le_total s s' with hs | hs
  · refine List.prefix_or_prefix_of_prefix
      (hp.trans (hch.prefix_leaderLog hc hs (hch'.leader_ne_none h)))
      (hp'.trans (List.take_prefix _ _))
  · refine List.prefix_or_prefix_of_prefix (hp.trans (List.take_prefix _ _))
      (hp'.trans (hch'.prefix_leaderLog hc hs (hch.leader_ne_none h)))

/-- Prefixes of a leader's log stay in place. -/
theorem Inv.take_leaderLog_eq (h : Inv term members a) {a' : State N E} (hg : Grows a a')
    {t n : ℕ} (hn : n ≤ (a.leaderLog t).length) :
    (a'.leaderLog t).take n = (a.leaderLog t).take n := by
  by_cases hl : a.leader t = none
  · obtain rfl : n = 0 := by simpa [(h.leaderless hl).1] using hn
    simp
  · obtain ⟨-, s, hs⟩ := hg t hl
    rw [← hs, List.take_append_of_le_length hn]

section Step

variable [DecidableEq N] {ok : List E → List E → Prop} {a' : State N E}

/-- Terms only rise. -/
theorem Step.term_le (hs : Step term members ok a a') (n : N) : a.term n ≤ a'.term n := by
  cases hs with
  | observe m t ht =>
    by_cases hm : n = m
    · subst hm; simpa [State.observe] using ht.le
    · simp [State.observe, Function.update_of_ne hm]
  | stand m =>
    by_cases hm : n = m
    · subst hm; simp [State.stand]
    · simp [State.stand, Function.update_of_ne hm]
  | grant => exact le_rfl
  | elect => exact le_rfl
  | propose => exact le_rfl
  | accept => exact le_rfl

/-- Acknowledgements only grow. -/
theorem Step.acked_le (h : Inv term members a) (hs : Step term members ok a a') (n : N) (t : ℕ) :
    a.acked n t ≤ a'.acked n t := by
  cases hs with
  | observe => exact le_rfl
  | stand => exact le_rfl
  | grant => exact le_rfl
  | elect c l _ Q _ _ hn =>
    simp only [State.elect, update₂_apply]
    split_ifs with hnt
    · simp [hnt.2, (h.leaderless hn).2]
    · exact le_rfl
  | propose c e hc _ =>
    simp only [State.propose, update₂_apply]
    split_ifs with hnt
    · obtain ⟨rfl, rfl⟩ := hnt
      simp [h.leader_acked hc, h.leader_log hc]
    · exact le_rfl
  | accept q c k l _ _ _ _ =>
    simp only [State.accept, update₂_apply]
    split_ifs with hnt
    · obtain ⟨rfl, rfl⟩ := hnt
      exact le_max_left _ _
    · exact le_rfl

/-- Votes are never withdrawn. -/
theorem Step.vote_eq (h : Inv term members a) (hs : Step term members ok a a') {v c : N} {t : ℕ}
    (hv : a.vote v t = some c) : a'.vote v t = some c := by
  cases hs with
  | observe => exact hv
  | elect => exact hv
  | propose => exact hv
  | accept => exact hv
  | stand m =>
    simp only [State.stand, update₂_apply]
    split_ifs with hvt
    · obtain ⟨rfl, rfl⟩ := hvt
      simp [(h.fresh (Nat.lt_succ_self (a.term v))).1] at hv
    · exact hv
  | grant w d l _ hw _ =>
    simp only [State.grant, update₂_apply]
    split_ifs with hvt
    · obtain ⟨rfl, rfl⟩ := hvt
      simpa [hv, eq_comm] using hw
    · exact hv

/-- The log with which a node stood stays on record. -/
theorem Step.stood_eq (h : Inv term members a) (hs : Step term members ok a a') {c : N} {t : ℕ}
    {l : List E} (hl : a.stood c t = some l) : a'.stood c t = some l := by
  cases hs with
  | observe => exact hl
  | grant => exact hl
  | elect => exact hl
  | propose => exact hl
  | accept => exact hl
  | stand m =>
    simp only [State.stand, update₂_apply]
    split_ifs with hct
    · obtain ⟨rfl, rfl⟩ := hct
      simp [(h.fresh (Nat.lt_succ_self (a.term c))).2.1] at hl
    · exact hl

/-- What every step keeps, whoever takes it: `a'` comes after `a`. -/
structure Later (a a' : State N E) : Prop where
  grows : Grows a a'
  term_le : ∀ n, a.term n ≤ a'.term n
  acked_le : ∀ n t, a.acked n t ≤ a'.acked n t
  vote_eq : ∀ {v c t}, a.vote v t = some c → a'.vote v t = some c
  stood_eq : ∀ {c l t}, a.stood c t = some l → a'.stood c t = some l

omit [DecidableEq N] in
theorem Later.refl (a : State N E) : Later a a :=
  ⟨Grows.refl a, fun _ => le_rfl, fun _ _ => le_rfl, id, id⟩

omit [DecidableEq N] in
theorem Later.trans {a b c : State N E} (h : Later a b) (h' : Later b c) : Later a c :=
  ⟨h.grows.trans h'.grows, fun n => (h.term_le n).trans (h'.term_le n),
    fun n t => (h.acked_le n t).trans (h'.acked_le n t), fun hv => h'.vote_eq (h.vote_eq hv),
    fun hs => h'.stood_eq (h.stood_eq hs)⟩

theorem Step.later (h : Inv term members a) (hs : Step term members ok a a') : Later a a' :=
  ⟨h.grows hs, hs.term_le, hs.acked_le h, hs.vote_eq h, hs.stood_eq h⟩

omit [DecidableEq N] in
/-- What is chosen stays chosen, with the same entries before it. -/
theorem Chosen.later (h : Inv term members a) (hs : Later a a') {t n : ℕ}
    (hch : Chosen term members a t n) : Chosen term members a' t n ∧
      (a'.leaderLog t).take (n + 1) = (a.leaderLog t).take (n + 1) := by
  have htake := h.take_leaderLog_eq hs.grows (Nat.succ_le_of_lt hch.1.lt_length)
  obtain ⟨⟨e, he, het⟩, Q, hQ, hq⟩ := hch
  refine ⟨⟨⟨e, ?_, het⟩, Q, hQ, fun q hm => (hq q hm).trans_le (hs.acked_le q t)⟩, htake⟩
  have := congrArg (·[n]?) htake
  simpa [List.getElem?_take, he] using this

omit [DecidableEq N] in
/-- Committed lists stay committed. -/
theorem Committed.later (h : Inv term members a) (hs : Later a a') {t : ℕ}
    {l : List E} (hl : Committed term members a t l) : Committed term members a' t l := by
  rcases hl with rfl | ⟨s, n, hst, hch, hp⟩
  · exact .nil t
  · obtain ⟨hch', htake⟩ := hch.later h hs
    exact .inr ⟨s, n, hst, hch', htake ▸ hp⟩

/-- **Retention.** A committed prefix of a node's log survives every step. -/
theorem Committed.keeps (hc : Complete term members a)
    (hs : Step term members ok a a') {q : N} {l : List E}
    (hl : Committed term members a (a.term q) l) (hp : l <+: a.log q) : l <+: a'.log q := by
  cases hs with
  | observe => exact hp
  | stand => exact hp
  | grant => exact hp
  | elect => exact hp
  | propose c e _ _ =>
    by_cases hqc : q = c
    · subst hqc
      simpa [State.propose] using hp.trans (List.prefix_append _ _)
    · simpa [State.propose, Function.update_of_ne hqc] using hp
  | accept r c k l' hlead _ _ hadopt =>
    by_cases hqr : q = r
    · subst hqr
      simp only [State.accept, Function.update_self]
      exact hadopt.keeps hp (List.take_prefix _ _) (hl.prefix_leaderLog hc (by simp [hlead]))
    · simpa [State.accept, Function.update_of_ne hqr] using hp

end Step

/-- The log of a term's leader is the one it stood with, and then entries of its term. -/
theorem Reachable.leaderLog_eq [DecidableEq N] {ok : List E → List E → Prop}
    (h : Reachable term members ok a) {t : ℕ} {c : N} (hl : a.leader t = some c) :
    ∃ l s, a.stood c t = some l ∧ a.leaderLog t = l ++ s ∧ ∀ e ∈ s, term e = t := by
  induction h generalizing t c with
  | refl => simp [State.init] at hl
  | @tail a a' hr hs ih =>
    have hinv := Reachable.inv hr
    have hold : a.leader t = some c → a'.leaderLog t = a.leaderLog t →
        ∃ l s, a'.stood c t = some l ∧ a'.leaderLog t = l ++ s ∧ ∀ e ∈ s, term e = t := by
      intro hl hlog
      obtain ⟨l, s, hstood, heq, hs'⟩ := ih hl
      exact ⟨l, s, hs.stood_eq hinv hstood, hlog.trans heq, hs'⟩
    cases hs with
    | observe => exact hold hl rfl
    | stand => exact hold hl rfl
    | grant => exact hold hl rfl
    | accept => exact hold hl rfl
    | elect d l hd Q hQ hv hn =>
      by_cases ht : t = a.term d
      · subst ht
        obtain rfl : d = c := by simpa [State.elect] using hl
        exact ⟨l, [], hd, by simp [State.elect, hinv.stood_log hd hn], by simp⟩
      · refine hold ?_ (Function.update_of_ne ht _ _)
        simpa [State.elect, Function.update_of_ne ht] using hl
    | propose d e hd he =>
      by_cases ht : t = a.term d
      · subst ht
        obtain rfl : d = c := by simpa [State.propose, hd] using hl
        obtain ⟨l, s, hstood, heq, hs'⟩ := ih hd
        refine ⟨l, s ++ [e], hstood, ?_, ?_⟩
        · simp [State.propose, hinv.leader_log hd, heq]
        · simpa [or_imp, forall_and, he] using hs'
      · exact hold hl (Function.update_of_ne ht _ _)

end Consensus
