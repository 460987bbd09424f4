import Mathlib.Tactic.Common
import Wraft.Consensus.Protocol

/-!
# Elections and log matching

The invariant `Inv` of the abstract protocol that needs nothing of what voters compare: votes
are cast once per term, a term's leader holds a majority of its votes, every log is made of
prefixes of leaders' logs (`Genuine`), and what a node has acknowledged in its current term is
still in its log. `Inv.step` is the step lemma and `Reachable.inv` the run lemma; election
safety (`Inv.eq_leader_of_majority`) and log matching (`Inv.take_log_eq`) are read off.
-/

namespace Consensus

open Finset

variable {N E : Type*} {term : E → ℕ} {members : Finset N}

/-- What holds in every reachable state, whatever voters compare. -/
structure Inv (term : E → ℕ) (members : Finset N) (a : State N E) : Prop where
  /-- Votes are cast up to the current term, for nodes that stood in it. -/
  vote_le : ∀ {v t c}, a.vote v t = some c → t ≤ a.term v ∧ a.stood c t ≠ none
  /-- Whoever stood in a term voted for itself there. -/
  stood_vote : ∀ {c t l}, a.stood c t = some l → t ≤ a.term c ∧ a.vote c t = some c
  /-- A candidate stood with a genuine log of earlier terms. -/
  stood_genuine : ∀ {c t l}, a.stood c t = some l → Genuine term a l ∧ ∀ e ∈ l, term e < t
  /-- A candidate keeps the log it stood with until someone is elected. -/
  stood_log : ∀ {c l}, a.stood c (a.term c) = some l → a.leader (a.term c) = none → a.log c = l
  /-- An elected node stood and has the votes of a majority. -/
  leader_won : ∀ {t c}, a.leader t = some c → a.stood c t ≠ none ∧
    ∃ Q, members.IsMajority Q ∧ ∀ q ∈ Q, a.vote q t = some c
  /-- Without a leader a term has neither log nor acknowledgements. -/
  leaderless : ∀ {t}, a.leader t = none → a.leaderLog t = [] ∧ ∀ n, a.acked n t = 0
  /-- A leader's own log is the leader's log. -/
  leader_log : ∀ {c}, a.leader (a.term c) = some c → a.log c = a.leaderLog (a.term c)
  /-- A leader holds all of its log. -/
  leader_acked : ∀ {t c}, a.leader t = some c → a.acked c t = (a.leaderLog t).length
  /-- Logs are genuine and of terms the node has reached. -/
  log_genuine : ∀ n, Genuine term a (a.log n) ∧ ∀ e ∈ a.log n, term e ≤ a.term n
  /-- Leaders' logs are genuine and of terms up to their own. -/
  leaderLog_genuine : ∀ t, Genuine term a (a.leaderLog t) ∧ ∀ e ∈ a.leaderLog t, term e ≤ t
  /-- Terms ascend along leaders' logs. -/
  leaderLog_ascending : ∀ t, Ascending term (a.leaderLog t)
  /-- Only what the leader has can be acknowledged. -/
  acked_le : ∀ n t, a.acked n t ≤ (a.leaderLog t).length
  /-- Acknowledgements are given in terms the node has reached. -/
  acked_term : ∀ {n t}, 0 < a.acked n t → t ≤ a.term n
  /-- What a node acknowledged in its current term is in its log. -/
  acked_log : ∀ n, (a.leaderLog (a.term n)).take (a.acked n (a.term n)) <+: a.log n

namespace Inv

variable {a : State N E}

/-- **Election safety.** Whoever has the votes of a majority in a term with a leader is it. -/
theorem eq_leader_of_majority [DecidableEq N] (h : Inv term members a) {t : ℕ} {c d : N}
    (hl : a.leader t = some d) {Q : Finset N} (hQ : members.IsMajority Q)
    (hv : ∀ q ∈ Q, a.vote q t = some c) : d = c := by
  obtain ⟨-, Q', hQ', hv'⟩ := h.leader_won hl
  obtain ⟨v, hm, hm'⟩ := hQ.exists_mem_both hQ'
  exact Option.some.inj ((hv' v hm').symm.trans (hv v hm))

/-- Terms ascend along every node's log. -/
theorem log_ascending (h : Inv term members a) (n : N) : Ascending term (a.log n) :=
  (h.log_genuine n).1.ascending h.leaderLog_ascending

/-- **Log matching.** Two nodes' logs with entries of one term at an index agree up to it. -/
theorem take_log_eq (h : Inv term members a) {m n : N} {i : ℕ} {e f : E}
    (he : (a.log m)[i]? = some e) (hf : (a.log n)[i]? = some f) (ht : term e = term f) :
    (a.log m).take (i + 1) = (a.log n).take (i + 1) :=
  (h.log_genuine m).1.agree (h.log_genuine n).1 he hf ht

/-- A node that has not reached term `t` has neither stood, voted, led nor acknowledged in it. -/
theorem fresh (h : Inv term members a) {n : N} {t : ℕ} (ht : a.term n < t) :
    a.vote n t = none ∧ a.stood n t = none ∧ a.leader t ≠ some n ∧ a.acked n t = 0 := by
  have hstood : a.stood n t = none := by
    by_contra hne
    obtain ⟨l, hl⟩ := Option.ne_none_iff_exists'.mp hne
    exact absurd (h.stood_vote hl).1 (by omega)
  refine ⟨?_, hstood, fun hl => (h.leader_won hl).1 hstood, ?_⟩
  · by_contra hne
    obtain ⟨c, hc⟩ := Option.ne_none_iff_exists'.mp hne
    exact absurd (h.vote_le hc).1 (by omega)
  · by_contra hne
    exact absurd (h.acked_term (Nat.pos_of_ne_zero hne)) (by omega)

theorem init : Inv term members (State.init : State N E) := by
  constructor <;> simp [State.init, Genuine.nil, Ascending]

section Step

variable [DecidableEq N] {ok : List E → List E → Prop}

theorem grows_observe (n : N) (t : ℕ) : Grows a (a.observe n t) :=
  fun _ _ => ⟨rfl, List.prefix_rfl⟩

theorem grows_stand (n : N) : Grows a (a.stand n) :=
  fun _ _ => ⟨rfl, List.prefix_rfl⟩

theorem grows_grant (v c : N) : Grows a (a.grant v c) :=
  fun _ _ => ⟨rfl, List.prefix_rfl⟩

theorem grows_accept (q : N) (k : ℕ) (l : List E) : Grows a (a.accept q k l) :=
  fun _ _ => ⟨rfl, List.prefix_rfl⟩

theorem grows_elect {c : N} (hn : a.leader (a.term c) = none) : Grows a (a.elect c) := by
  intro t ht
  have hne : t ≠ a.term c := fun h => ht (h ▸ hn)
  simp [State.elect, Function.update_of_ne hne]

theorem grows_propose (h : Inv term members a) {c : N} {e : E}
    (hc : a.leader (a.term c) = some c) : Grows a (a.propose c e) := by
  intro t ht
  refine ⟨rfl, ?_⟩
  by_cases hte : t = a.term c
  · subst hte
    simp [State.propose, h.leader_log hc]
  · simp [State.propose, Function.update_of_ne hte]

/-- **Monotonicity.** Every step lets elections stand and leaders' logs grow. -/
theorem grows (h : Inv term members a) {a' : State N E} (hs : Step term members ok a a') :
    Grows a a' := by
  cases hs with
  | observe n t _ => exact grows_observe n t
  | stand n => exact grows_stand n
  | grant v c l _ _ _ => exact grows_grant v c
  | elect c l _ Q _ _ hn => exact grows_elect hn
  | propose c e hc _ => exact h.grows_propose hc
  | accept q c k l _ _ _ _ => exact grows_accept q k l

theorem observe (h : Inv term members a) {n : N} {t : ℕ} (ht : a.term n < t) :
    Inv term members (a.observe n t) := by
  -- what the node is at a later term is still blank
  obtain ⟨-, hstood, hleader, hacked⟩ := h.fresh ht
  have hle : ∀ m, a.term m ≤ Function.update a.term n t m := by
    intro m
    by_cases hm : m = n
    · subst hm; simpa using ht.le
    · simp [Function.update_of_ne hm]
  refine
    { vote_le := fun hv => ⟨(h.vote_le hv).1.trans (hle _), (h.vote_le hv).2⟩
      stood_vote := fun hl => ⟨(h.stood_vote hl).1.trans (hle _), (h.stood_vote hl).2⟩
      stood_genuine := h.stood_genuine
      stood_log := ?stood_log
      leader_won := h.leader_won
      leaderless := h.leaderless
      leader_log := ?leader_log
      leader_acked := h.leader_acked
      log_genuine := fun m => ⟨(h.log_genuine m).1,
        fun e he => ((h.log_genuine m).2 e he).trans (hle m)⟩
      leaderLog_genuine := h.leaderLog_genuine
      leaderLog_ascending := h.leaderLog_ascending
      acked_le := h.acked_le
      acked_term := fun hp => (h.acked_term hp).trans (hle _)
      acked_log := ?acked_log }
  case stood_log =>
    intro c l hl hn
    by_cases hc : c = n
    · subst hc
      simp [State.observe, hstood] at hl
    · simp only [State.observe, Function.update_of_ne hc] at hl hn ⊢
      exact h.stood_log hl hn
  case leader_log =>
    intro c hl
    by_cases hc : c = n
    · subst hc
      simp [State.observe, hleader] at hl
    · simp only [State.observe, Function.update_of_ne hc] at hl ⊢
      exact h.leader_log hl
  case acked_log =>
    intro m
    by_cases hm : m = n
    · subst hm
      simp [State.observe, hacked]
    · simpa [State.observe, Function.update_of_ne hm] using h.acked_log m

/-- Standing is learning of the next term and then declaring oneself a candidate in it. -/
theorem stand (h : Inv term members a) (n : N) : Inv term members (a.stand n) := by
  obtain ⟨hvote, hstood, -, -⟩ := h.fresh (Nat.lt_succ_self (a.term n))
  -- learning of the term settles all fields that do not speak of the vote
  have h' := h.observe (Nat.lt_succ_self (a.term n))
  refine
    { vote_le := ?vote_le
      stood_vote := ?stood_vote
      stood_genuine := ?stood_genuine
      stood_log := ?stood_log
      leader_won := ?leader_won
      leaderless := h'.leaderless
      leader_log := h'.leader_log
      leader_acked := h'.leader_acked
      log_genuine := h'.log_genuine
      leaderLog_genuine := h'.leaderLog_genuine
      leaderLog_ascending := h'.leaderLog_ascending
      acked_le := h'.acked_le
      acked_term := h'.acked_term
      acked_log := h'.acked_log }
  case vote_le =>
    intro v t c hv
    simp only [State.stand, update₂_apply] at hv ⊢
    split_ifs at hv with hvt
    · obtain ⟨rfl, rfl⟩ := hvt
      obtain rfl : v = c := Option.some.inj hv
      simp
    · refine ⟨(h'.vote_le hv).1, ?_⟩
      split_ifs
      · simp
      · exact (h'.vote_le hv).2
  case stood_vote =>
    intro c t l hl
    simp only [State.stand, update₂_apply] at hl ⊢
    split_ifs at hl with hct
    · obtain ⟨rfl, rfl⟩ := hct
      simp
    · rw [if_neg hct]
      exact h'.stood_vote hl
  case stood_genuine =>
    intro c t l hl
    simp only [State.stand, update₂_apply] at hl
    split_ifs at hl with hct
    · obtain ⟨rfl, rfl⟩ := hct
      obtain rfl : a.log c = l := Option.some.inj hl
      exact ⟨(h.log_genuine c).1, fun e he => Nat.lt_succ_of_le ((h.log_genuine c).2 e he)⟩
    · exact h'.stood_genuine hl
  case stood_log =>
    intro c l hl hn
    simp only [State.stand, update₂_apply] at hl hn ⊢
    split_ifs at hl with hct
    · obtain ⟨rfl, -⟩ := hct
      exact Option.some.inj hl
    · exact h'.stood_log hl hn
  case leader_won =>
    intro t c hl
    obtain ⟨hs, Q, hQ, hv⟩ := h.leader_won hl
    refine ⟨?_, Q, hQ, fun q hq => ?_⟩
    · simp only [State.stand, update₂_apply]
      split_ifs
      · simp
      · exact hs
    · have := hv q hq
      simp only [State.stand, update₂_apply]
      split_ifs with hqt
      · obtain ⟨rfl, rfl⟩ := hqt
        simp [hvote] at this
      · exact this

theorem grant (h : Inv term members a) {v c : N} {l : List E}
    (hl : a.stood c (a.term v) = some l)
    (hv : a.vote v (a.term v) = none ∨ a.vote v (a.term v) = some c) :
    Inv term members (a.grant v c) := by
  -- a vote that is cast stays: the voter was free or had voted for `c`
  have hkeep : ∀ {w t d}, a.vote w t = some d → (a.grant v c).vote w t = some d := by
    intro w t d hw
    simp only [State.grant, update₂_apply]
    split_ifs with hwt
    · obtain ⟨rfl, rfl⟩ := hwt
      simpa [hw, eq_comm] using hv
    · exact hw
  refine
    { vote_le := ?vote_le
      stood_vote := fun hs => ⟨(h.stood_vote hs).1, hkeep (h.stood_vote hs).2⟩
      stood_genuine := h.stood_genuine
      stood_log := h.stood_log
      leader_won := ?leader_won
      leaderless := h.leaderless
      leader_log := h.leader_log
      leader_acked := h.leader_acked
      log_genuine := h.log_genuine
      leaderLog_genuine := h.leaderLog_genuine
      leaderLog_ascending := h.leaderLog_ascending
      acked_le := h.acked_le
      acked_term := h.acked_term
      acked_log := h.acked_log }
  case vote_le =>
    intro w t d hw
    simp only [State.grant, update₂_apply] at hw
    split_ifs at hw with hwt
    · obtain ⟨rfl, rfl⟩ := hwt
      obtain rfl : c = d := Option.some.inj hw
      exact ⟨le_rfl, by simp [State.grant, hl]⟩
    · exact h.vote_le hw
  case leader_won =>
    intro t d hd
    obtain ⟨hs, Q, hQ, hvote⟩ := h.leader_won hd
    exact ⟨hs, Q, hQ, fun q hq => hkeep (hvote q hq)⟩

/-- What a node acknowledges in its term does not go beyond its term. -/
theorem acked_term_update (h : Inv term members a) {c n : N} {k t : ℕ}
    (hp : 0 < update₂ a.acked c (a.term c) k n t) : t ≤ a.term n := by
  rw [update₂_apply] at hp
  split_ifs at hp with hnt
  · exact hnt.2 ▸ hnt.1 ▸ le_rfl
  · exact h.acked_term hp

/-- Where there is a leader, no node waits for the votes of its term. -/
theorem stood_log_update (h : Inv term members a) {c q d : N} {l l' : List E}
    (hc : a.leader (a.term q) = some c) (hs : a.stood d (a.term d) = some l)
    (hn : a.leader (a.term d) = none) : Function.update a.log q l' d = l := by
  have hdq : d ≠ q := by
    rintro rfl
    rw [hn] at hc
    cases hc
  rw [Function.update_of_ne hdq]
  exact h.stood_log hs hn

theorem elect (h : Inv term members a) {c : N} {l : List E}
    (hl : a.stood c (a.term c) = some l) {Q : Finset N} (hQ : members.IsMajority Q)
    (hv : ∀ q ∈ Q, a.vote q (a.term c) = some c) (hn : a.leader (a.term c) = none) :
    Inv term members (a.elect c) := by
  have hg : Grows a (a.elect c) := grows_elect hn
  have hlog : a.log c = l := h.stood_log hl hn
  obtain ⟨hllnil, hack⟩ := h.leaderless hn
  -- the winner has no entry of its own term yet
  have hlt : ∀ e ∈ a.log c, term e < a.term c := fun e he => (h.stood_genuine hl).2 e (hlog ▸ he)
  refine
    { vote_le := h.vote_le
      stood_vote := h.stood_vote
      stood_genuine := fun hs => ⟨(h.stood_genuine hs).1.mono hg, (h.stood_genuine hs).2⟩
      stood_log := ?stood_log
      leader_won := ?leader_won
      leaderless := ?leaderless
      leader_log := ?leader_log
      leader_acked := ?leader_acked
      log_genuine := fun n => ⟨(h.log_genuine n).1.mono hg, (h.log_genuine n).2⟩
      leaderLog_genuine := ?leaderLog_genuine
      leaderLog_ascending := ?leaderLog_ascending
      acked_le := ?acked_le
      acked_term := h.acked_term_update
      acked_log := ?acked_log }
  case stood_log =>
    intro d l' hs hnd
    refine h.stood_log hs ?_
    by_cases hd : a.term d = a.term c
    · rw [hd, hn]
    · simpa [State.elect, Function.update_of_ne hd] using hnd
  case leader_won =>
    intro t d hd
    by_cases ht : t = a.term c
    · subst ht
      obtain rfl : c = d := by simpa [State.elect] using hd
      exact ⟨by simp [State.elect, hl], Q, hQ, hv⟩
    · exact h.leader_won (by simpa [State.elect, Function.update_of_ne ht] using hd)
  case leaderless =>
    intro t ht
    by_cases htc : t = a.term c
    · subst htc
      simp [State.elect] at ht
    · obtain ⟨h1, h2⟩ := h.leaderless (by simpa [State.elect, Function.update_of_ne htc] using ht)
      refine ⟨by simpa [State.elect, Function.update_of_ne htc] using h1, fun n => ?_⟩
      simpa [State.elect, update₂_of_ne _ _ (Or.inr htc)] using h2 n
  case leader_log =>
    intro d hd
    by_cases htc : a.term d = a.term c
    · obtain rfl : c = d := by simpa [State.elect, htc] using hd
      simp [State.elect]
    · have := h.leader_log (c := d) (by simpa [State.elect, Function.update_of_ne htc] using hd)
      simpa [State.elect, Function.update_of_ne htc] using this
  case leader_acked =>
    intro t d hd
    by_cases htc : t = a.term c
    · subst htc
      obtain rfl : c = d := by simpa [State.elect] using hd
      simp [State.elect]
    · have := h.leader_acked (t := t) (c := d)
        (by simpa [State.elect, Function.update_of_ne htc] using hd)
      simpa [State.elect, Function.update_of_ne htc, update₂_of_ne _ _ (Or.inr htc)] using this
  case leaderLog_genuine =>
    intro t
    by_cases htc : t = a.term c
    · subst htc
      -- the log of the new leader is the winner's own log
      simp only [State.elect, Function.update_self]
      exact ⟨(h.log_genuine c).1.mono hg, fun e he => (hlt e he).le⟩
    · simp only [State.elect, Function.update_of_ne htc]
      exact ⟨(h.leaderLog_genuine t).1.mono hg, (h.leaderLog_genuine t).2⟩
  case leaderLog_ascending =>
    intro t
    by_cases htc : t = a.term c
    · subst htc
      simpa [State.elect] using h.log_ascending c
    · simpa [State.elect, Function.update_of_ne htc] using h.leaderLog_ascending t
  case acked_le =>
    intro n t
    by_cases htc : t = a.term c
    · subst htc
      simp only [State.elect, update₂_apply, Function.update_self]
      split_ifs
      · exact le_rfl
      · simp [hack n]
    · simpa [State.elect, Function.update_of_ne htc, update₂_of_ne _ _ (Or.inr htc)]
        using h.acked_le n t
  case acked_log =>
    intro n
    by_cases htc : a.term n = a.term c
    · simp only [State.elect, update₂_apply, htc, Function.update_self, and_true]
      split_ifs with hnc
      · subst hnc
        exact List.take_prefix _ _
      · simp [hack n]
    · simpa [State.elect, Function.update_of_ne htc, update₂_of_ne _ _ (Or.inr htc)]
        using h.acked_log n

theorem propose (h : Inv term members a) {c : N} {e : E} (hc : a.leader (a.term c) = some c)
    (he : term e = a.term c) : Inv term members (a.propose c e) := by
  have hg : Grows a (a.propose c e) := h.grows_propose hc
  have hlog : a.log c = a.leaderLog (a.term c) := h.leader_log hc
  have hle : ∀ t, (a.leaderLog t).length ≤ ((a.propose c e).leaderLog t).length := by
    intro t
    by_cases ht : a.leader t = none
    · simp [(h.leaderless ht).1]
    · exact (hg t ht).2.length_le
  -- the appended log is genuine: its last entry is the leader's own last entry
  have hgen : Genuine term (a.propose c e) (a.log c ++ [e]) := by
    intro i f hi
    rcases Nat.lt_or_ge i (a.log c).length with hlt | hge
    · rw [List.getElem?_append_left hlt] at hi
      have := (h.log_genuine c).1.mono hg i f hi
      rwa [List.take_append_of_le_length (by omega)]
    · have hf : f = e := by
        have : f ∈ [e] := List.mem_of_getElem? ((List.getElem?_append_right hge).symm.trans hi)
        simpa using this
      subst hf
      simp [State.propose, he, hc]
  refine
    { vote_le := h.vote_le
      stood_vote := h.stood_vote
      stood_genuine := fun hs => ⟨(h.stood_genuine hs).1.mono hg, (h.stood_genuine hs).2⟩
      stood_log := h.stood_log_update hc
      leader_won := h.leader_won
      leaderless := ?leaderless
      leader_log := ?leader_log
      leader_acked := ?leader_acked
      log_genuine := ?log_genuine
      leaderLog_genuine := ?leaderLog_genuine
      leaderLog_ascending := ?leaderLog_ascending
      acked_le := ?acked_le
      acked_term := h.acked_term_update
      acked_log := ?acked_log }
  case leaderless =>
    intro t ht
    have htc : t ≠ a.term c := by
      rintro rfl
      exact absurd hc (by rw [show a.leader (a.term c) = none from ht]; simp)
    obtain ⟨h1, h2⟩ := h.leaderless (t := t) ht
    refine ⟨by simpa [State.propose, Function.update_of_ne htc] using h1, fun n => ?_⟩
    simpa [State.propose, update₂_of_ne _ _ (Or.inr htc)] using h2 n
  case leader_log =>
    intro d hd
    by_cases hdc : d = c
    · subst hdc; simp [State.propose]
    · have htc : a.term d ≠ a.term c := by
        intro ht
        simp only [State.propose, ht, hc, Option.some.injEq] at hd
        exact hdc hd.symm
      simpa [State.propose, Function.update_of_ne hdc, Function.update_of_ne htc]
        using h.leader_log hd
  case leader_acked =>
    intro t d hd
    by_cases htc : t = a.term c
    · subst htc
      obtain rfl : c = d := by simpa [State.propose, hc] using hd
      simp [State.propose]
    · simpa [State.propose, Function.update_of_ne htc, update₂_of_ne _ _ (Or.inr htc)]
        using h.leader_acked hd
  case log_genuine =>
    intro n
    by_cases hnc : n = c
    · subst hnc
      simp only [State.propose, Function.update_self, List.mem_append, List.mem_singleton]
      refine ⟨hgen, ?_⟩
      rintro f (hf | rfl)
      · exact (h.log_genuine n).2 f hf
      · exact he.le
    · simp only [State.propose, Function.update_of_ne hnc]
      exact ⟨(h.log_genuine n).1.mono hg, (h.log_genuine n).2⟩
  case leaderLog_genuine =>
    intro t
    by_cases htc : t = a.term c
    · subst htc
      simp only [State.propose, Function.update_self, List.mem_append, List.mem_singleton]
      refine ⟨hgen, ?_⟩
      rintro f (hf | rfl)
      · exact (h.log_genuine c).2 f hf
      · exact he.le
    · simp only [State.propose, Function.update_of_ne htc]
      exact ⟨(h.leaderLog_genuine t).1.mono hg, (h.leaderLog_genuine t).2⟩
  case leaderLog_ascending =>
    intro t
    by_cases htc : t = a.term c
    · subst htc
      simp only [State.propose, Function.update_self]
      exact (h.log_ascending c).concat fun f hf => he ▸ (h.log_genuine c).2 f hf
    · simpa [State.propose, Function.update_of_ne htc] using h.leaderLog_ascending t
  case acked_le =>
    intro n t
    by_cases hnt : n = c ∧ t = a.term c
    · obtain ⟨rfl, rfl⟩ := hnt
      simp [State.propose]
    · refine le_trans ?_ (hle t)
      simpa [State.propose, update₂_apply, hnt] using h.acked_le n t
  case acked_log =>
    intro n
    by_cases hnc : n = c
    · subst hnc
      simp only [State.propose, Function.update_self, update₂_self]
      exact List.take_prefix _ _
    · have hpre := h.acked_log n
      simp only [State.propose, Function.update_of_ne hnc, update₂_of_ne _ _ (Or.inl hnc)]
      by_cases htc : a.term n = a.term c
      · have hlen := h.acked_le n (a.term n)
        rw [htc, ← hlog] at hlen hpre
        rwa [htc, Function.update_self, List.take_append_of_le_length hlen]
      · rwa [Function.update_of_ne htc]

theorem accept (h : Inv term members a) {q c : N} {k : ℕ} {l : List E}
    (hc : a.leader (a.term q) = some c) (hne : c ≠ q)
    (hk : k ≤ (a.leaderLog (a.term q)).length)
    (hl : Adopts ((a.leaderLog (a.term q)).take k) (a.log q) l) :
    Inv term members (a.accept q k l) := by
  refine
    { vote_le := h.vote_le
      stood_vote := h.stood_vote
      stood_genuine := h.stood_genuine
      stood_log := h.stood_log_update hc
      leader_won := h.leader_won
      leaderless := ?leaderless
      leader_log := ?leader_log
      leader_acked := ?leader_acked
      log_genuine := ?log_genuine
      leaderLog_genuine := h.leaderLog_genuine
      leaderLog_ascending := h.leaderLog_ascending
      acked_le := ?acked_le
      acked_term := h.acked_term_update
      acked_log := ?acked_log }
  case leaderless =>
    intro t ht
    have htq : t ≠ a.term q := by
      rintro rfl
      exact absurd hc (by rw [show a.leader (a.term q) = none from ht]; simp)
    obtain ⟨h1, h2⟩ := h.leaderless (t := t) ht
    exact ⟨h1, fun n => by simpa [State.accept, update₂_of_ne _ _ (Or.inr htq)] using h2 n⟩
  case leader_log =>
    intro d hd
    have hdq : d ≠ q := by
      rintro rfl
      exact hne (Option.some.inj (hc.symm.trans hd))
    simpa [State.accept, Function.update_of_ne hdq] using h.leader_log hd
  case leader_acked =>
    intro t d hd
    have hnot : ¬(d = q ∧ t = a.term q) := by
      rintro ⟨rfl, rfl⟩
      exact hne (Option.some.inj (hc.symm.trans hd))
    simpa [State.accept, update₂_apply, hnot] using h.leader_acked hd
  case log_genuine =>
    intro n
    by_cases hnq : n = q
    · subst hnq
      simp only [State.accept, Function.update_self]
      rcases hl with ⟨-, rfl⟩ | ⟨-, rfl⟩
      · exact h.log_genuine n
      · obtain ⟨hgen, hterm⟩ := h.leaderLog_genuine (a.term n)
        exact ⟨hgen.of_prefix (List.take_prefix _ _), fun e he => hterm e (List.mem_of_mem_take he)⟩
    · simp only [State.accept, Function.update_of_ne hnq]
      exact h.log_genuine n
  case acked_le =>
    intro n t
    simp only [State.accept, update₂_apply]
    split_ifs with hnt
    · obtain ⟨rfl, rfl⟩ := hnt
      exact max_le (h.acked_le n _) hk
    · exact h.acked_le n t
  case acked_log =>
    intro n
    by_cases hnq : n = q
    · subst hnq
      simp only [State.accept, Function.update_self, update₂_self]
      rcases max_cases (a.acked n (a.term n)) k with ⟨hmax, -⟩ | ⟨hmax, -⟩
      · rw [hmax]
        exact hl.keeps (h.acked_log n) (List.take_prefix _ _) (List.take_prefix _ _)
      · rw [hmax]
        exact hl.prefix
    · simpa [State.accept, Function.update_of_ne hnq, update₂_of_ne _ _ (Or.inl hnq)]
        using h.acked_log n

/-- **Step lemma.** Every step of the protocol keeps the invariant. -/
theorem step (h : Inv term members a) {a' : State N E} (hs : Step term members ok a a') :
    Inv term members a' := by
  cases hs with
  | observe n t ht => exact h.observe ht
  | stand n => exact h.stand n
  | grant v c l hl hv _ => exact h.grant hl hv
  | elect c l hl Q hQ hv hn => exact h.elect hl hQ hv hn
  | propose c e hc he => exact h.propose hc he
  | accept q c k l hc hne hk hl => exact h.accept hc hne hk hl

end Step

end Inv

/-- **Run lemma.** Every reachable state of the protocol satisfies the invariant. -/
theorem Reachable.inv [DecidableEq N] {ok : List E → List E → Prop} {a : State N E}
    (h : Reachable term members ok a) : Inv term members a := by
  induction h with
  | refl => exact Inv.init
  | tail _ hs ih => exact ih.step hs

end Consensus
