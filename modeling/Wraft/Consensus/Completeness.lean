import Wraft.Consensus.Election

/-!
# Leader completeness

The protocol whose voters refuse candidates with an outdated log (`UpToDate`) never loses what a
majority has acknowledged. An entry of a term's leader, of that very term, is *chosen* when a
majority has held it while in the term; it is *choosable* as long as a majority has held it or
may still come to hold it. The invariant `Complete` says that choosable entries, with all that
precedes them, are in the log of every later leader (`leader`), of every node that acknowledged
them (`log`) and of every candidate such a node has voted for later on (`vote`).

Choosability only ever shrinks along a run, so the invariant needs no reasoning about the past:
it is kept step by step like any other.
-/

namespace Consensus

open Finset

variable {N E : Type*} (term : E → ℕ) (members : Finset N)

/-- The term of the last entry, `0` for the empty log. -/
def lastTerm (l : List E) : ℕ := l.getLast?.elim 0 term

/-- The candidate's log `l` is at least as up to date as the voter's log `l'`. -/
def UpToDate (l l' : List E) : Prop :=
  lastTerm term l' < lastTerm term l ∨ lastTerm term l' = lastTerm term l ∧ l'.length ≤ l.length

/-- Entry `n` of the leader of `t` is of its own term. -/
def Current (a : State N E) (t n : ℕ) : Prop :=
  ∃ e, (a.leaderLog t)[n]? = some e ∧ term e = t

/-- A majority has held entry `n` of the leader of `t` in that term, or still may. -/
def Choosable (a : State N E) (t n : ℕ) : Prop :=
  ∃ Q, members.IsMajority Q ∧ ∀ q ∈ Q, n < a.acked q t ∨ a.term q ≤ t

/-- A majority has held entry `n` of the leader of `t`, an entry of that term, in the term. -/
def Chosen (a : State N E) (t n : ℕ) : Prop :=
  Current term a t n ∧ ∃ Q, members.IsMajority Q ∧ ∀ q ∈ Q, n < a.acked q t

/-- Choosable entries are where they cannot be lost. -/
structure Complete (a : State N E) : Prop where
  /-- Whoever acknowledged a choosable entry has it. -/
  log : ∀ {q t n}, n < a.acked q t → Current term a t n → Choosable members a t n →
    (a.leaderLog t).take (n + 1) <+: a.log q
  /-- Every later leader has it. -/
  leader : ∀ {t t' n}, t < t' → a.leader t' ≠ none → Current term a t n →
    Choosable members a t n → (a.leaderLog t).take (n + 1) <+: a.leaderLog t'
  /-- Every later candidate with the vote of a node that acknowledged it has it. -/
  vote : ∀ {v c t t' n l}, a.vote v t' = some c → a.stood c t' = some l → t < t' →
    n < a.acked v t → Current term a t n → Choosable members a t n →
    (a.leaderLog t).take (n + 1) <+: l

variable {term members} {a : State N E}

theorem Current.lt_length {t n : ℕ} (h : Current term a t n) : n < (a.leaderLog t).length := by
  obtain ⟨e, he, -⟩ := h
  exact (List.getElem?_eq_some_iff.mp he).1

theorem Chosen.choosable {t n : ℕ} (h : Chosen term members a t n) : Choosable members a t n :=
  let ⟨Q, hQ, hq⟩ := h.2
  ⟨Q, hQ, fun q hm => .inl (hq q hm)⟩

theorem lastTerm_eq_of_getLast? {l : List E} {e : E} (h : l.getLast? = some e) :
    lastTerm term l = term e := by
  simp [lastTerm, h]

theorem lastTerm_nil : lastTerm term ([] : List E) = 0 := rfl

variable (term) in
/-- A nonempty log has a last entry, at index `length - 1`. -/
theorem exists_last {l : List E} (h : l ≠ []) :
    ∃ e, l[l.length - 1]? = some e ∧ lastTerm term l = term e := by
  refine ⟨l.getLast h, ?_, lastTerm_eq_of_getLast? (List.getLast?_eq_some_getLast h)⟩
  rw [← List.getLast?_eq_getElem?, List.getLast?_eq_some_getLast h]

/-- The whole of a genuine log is a prefix of the log of its last term's leader. -/
theorem Genuine.eq_take_leaderLog {l : List E} (h : Genuine term a l) (hne : l ≠ []) :
    a.leader (lastTerm term l) ≠ none ∧
      l = (a.leaderLog (lastTerm term l)).take l.length := by
  obtain ⟨e, he, hlast⟩ := exists_last term hne
  obtain ⟨h1, h2⟩ := h _ e he
  have hpos : 0 < l.length := List.length_pos_of_ne_nil hne
  rw [hlast]
  refine ⟨h1, ?_⟩
  rwa [Nat.sub_add_cancel hpos, List.take_length] at h2

/-- Terms up to an index of an ascending log are at most the term there. -/
theorem Ascending.le_of_mem_take {l : List E} (h : Ascending term l) {n : ℕ} {e f : E}
    (he : l[n]? = some e) (hf : f ∈ l.take (n + 1)) : term f ≤ term e := by
  obtain ⟨i, hi⟩ := List.mem_iff_getElem?.mp hf
  have hlen : i < (l.take (n + 1)).length := (List.getElem?_eq_some_iff.mp hi).1
  have hin : i < n + 1 := by
    rw [List.length_take] at hlen
    omega
  rw [List.getElem?_take, if_pos hin] at hi
  exact h i n f e (by omega) hi he

/-- **What voters' comparison buys.** A candidate's log that is at least as up to date as the
voter's has every choosable entry that the voter has. -/
theorem Complete.take_prefix_of_upToDate (hc : Complete term members a) (h : Inv term members a)
    {t n : ℕ} {l l' : List E} (hl : Genuine term a l) (hl' : Genuine term a l')
    (hok : UpToDate term l l') (hcur : Current term a t n) (hch : Choosable members a t n)
    (hpre : (a.leaderLog t).take (n + 1) <+: l') : (a.leaderLog t).take (n + 1) <+: l := by
  have hlen := hcur.lt_length
  obtain ⟨e, he, het⟩ := hcur
  -- the voter's log has the entry itself, so its last term is at least `t`
  have hmem : l'[n]? = some e := by
    obtain ⟨s, rfl⟩ := hpre
    rw [List.getElem?_append_left (by simp; omega), List.getElem?_take, if_pos (by omega), he]
  have hn' : n < l'.length := (List.getElem?_eq_some_iff.mp hmem).1
  have hne' : l' ≠ [] := List.ne_nil_of_length_pos (by omega)
  obtain ⟨e', he', hlast'⟩ := exists_last term hne'
  have hle : t ≤ lastTerm term l' := by
    rw [hlast', ← het]
    exact hl'.ascending h.leaderLog_ascending n _ e e' (by omega) hmem he'
  obtain ⟨-, htake'⟩ := hl'.eq_take_leaderLog hne'
  rcases hok with hlt | ⟨heq, hlenle⟩
  · -- the candidate's last entry is of a later leader, which has the choosable prefix
    have hne : l ≠ [] := by
      rintro rfl
      rw [lastTerm_nil] at hlt
      omega
    obtain ⟨hled, htake⟩ := hl.eq_take_leaderLog hne
    obtain ⟨f, hf, hlast⟩ := exists_last term hne
    have hlead := hc.leader (hle.trans_lt hlt) hled ⟨e, he, het⟩ hch
    have hlong : n < l.length := by
      by_contra hshort
      have hfl : f ∈ (a.leaderLog (lastTerm term l)).take (n + 1) := by
        have hsub : l <+: (a.leaderLog (lastTerm term l)).take (n + 1) := by
          have := List.take_prefix_take_left (l := a.leaderLog (lastTerm term l))
            (show l.length ≤ n + 1 by omega)
          rwa [← htake] at this
        exact hsub.subset (List.mem_of_getElem? hf)
      have hft : f ∈ (a.leaderLog t).take (n + 1) := by
        have := List.prefix_iff_eq_take.mp hlead
        rw [List.length_take, Nat.min_eq_left (by omega)] at this
        rwa [this]
      have := (h.leaderLog_ascending t).le_of_mem_take he hft
      omega
    rw [htake]
    exact List.prefix_take_iff.mpr ⟨hlead, by simp; omega⟩
  · -- both logs end in the same leader's log, and the candidate's is no shorter
    have hne : l ≠ [] := List.ne_nil_of_length_pos (by omega)
    obtain ⟨-, htake⟩ := hl.eq_take_leaderLog hne
    have : l' <+: l := by
      rw [htake', htake, heq]
      exact List.take_prefix_take_left hlenle
    exact hpre.trans this

theorem Choosable.imp {a' : State N E} {t n : ℕ} (h : Choosable members a' t n)
    (hq : ∀ q, n < a'.acked q t ∨ a'.term q ≤ t → n < a.acked q t ∨ a.term q ≤ t) :
    Choosable members a t n :=
  let ⟨Q, hQ, hall⟩ := h
  ⟨Q, hQ, fun q hm => hq q (hall q hm)⟩

/-- An entry that a later term's leader was elected without hearing of cannot be choosable: some
voter of that leader is beyond the entry's term without having acknowledged it. -/
theorem Inv.exists_acked_of_choosable [DecidableEq N] (h : Inv term members a) {t t' n : ℕ}
    (ht : t < t') {Q : Finset N} {c : N} (hQ : members.IsMajority Q)
    (hv : ∀ q ∈ Q, a.vote q t' = some c) (hch : Choosable members a t n) :
    ∃ v ∈ Q, n < a.acked v t ∧ t < a.term v := by
  obtain ⟨Q', hQ', hall⟩ := hch
  obtain ⟨v, hm, hm'⟩ := hQ.exists_mem_both hQ'
  have hterm : t < a.term v := ht.trans_le (h.vote_le (hv v hm)).1
  exact ⟨v, hm, (hall v hm').resolve_right (by omega), hterm⟩

namespace Complete

theorem init : Complete term members (State.init : State N E) := by
  constructor <;> simp [State.init, Current]

section Step

variable [DecidableEq N]

theorem observe (hc : Complete term members a) {m : N} {s : ℕ} (hs : a.term m < s) :
    Complete term members (a.observe m s) := by
  have hch : ∀ {t n}, Choosable members (a.observe m s) t n → Choosable members a t n := by
    refine fun h => h.imp fun q hq => hq.imp_right fun hle => ?_
    by_cases hqm : q = m
    · subst hqm
      simp only [State.observe, Function.update_self] at hle
      omega
    · simpa [State.observe, Function.update_of_ne hqm] using hle
  exact
    { log := fun hn hcur h => hc.log hn hcur (hch h)
      leader := fun ht hl hcur h => hc.leader ht hl hcur (hch h)
      vote := fun hv hl ht hn hcur h => hc.vote hv hl ht hn hcur (hch h) }

theorem stand (hc : Complete term members a) (h : Inv term members a) (m : N) :
    Complete term members (a.stand m) := by
  have hfresh := h.fresh (Nat.lt_succ_self (a.term m))
  have ho := hc.observe (Nat.lt_succ_self (a.term m))
  refine { log := ho.log, leader := ho.leader, vote := ?_ }
  intro v c t t' n l hv hl ht hn hcur hch
  simp only [State.stand, update₂_apply] at hv hl
  split_ifs at hv with hvm
  · -- the candidate's own vote: it stands with its own log
    obtain ⟨rfl, rfl⟩ := hvm
    obtain rfl : v = c := Option.some.inj hv
    obtain rfl : a.log v = l := by simpa using hl
    exact ho.log hn hcur hch
  · split_ifs at hl with hcm
    · obtain ⟨rfl, rfl⟩ := hcm
      exact absurd hfresh.2.1 (h.vote_le hv).2
    · exact ho.vote hv hl ht hn hcur hch

theorem grant (hc : Complete term members a) (h : Inv term members a) {v c : N} {l : List E}
    (hl : a.stood c (a.term v) = some l) (hok : UpToDate term l (a.log v)) :
    Complete term members (a.grant v c) := by
  refine { log := hc.log, leader := hc.leader, vote := ?_ }
  intro w d t t' n l' hw hl' ht hn hcur hch
  simp only [State.grant, update₂_apply] at hw
  split_ifs at hw with hwt
  · obtain ⟨rfl, rfl⟩ := hwt
    obtain rfl : c = d := Option.some.inj hw
    obtain rfl : l = l' := Option.some.inj (hl.symm.trans hl')
    -- the voter has compared the logs
    exact hc.take_prefix_of_upToDate h (h.stood_genuine hl).1 (h.log_genuine w).1 hok hcur hch
      (hc.log hn hcur hch)
  · exact hc.vote hw hl' ht hn hcur hch

theorem elect (hc : Complete term members a) (h : Inv term members a) {c : N} {l : List E}
    (hl : a.stood c (a.term c) = some l) {Q : Finset N} (hQ : members.IsMajority Q)
    (hv : ∀ q ∈ Q, a.vote q (a.term c) = some c) (hn : a.leader (a.term c) = none) :
    Complete term members (a.elect c) := by
  have hlog : a.log c = l := h.stood_log hl hn
  -- the new leader has no entry of its own term yet
  have hne : ∀ {t n}, Current term (a.elect c) t n → t ≠ a.term c := by
    rintro t n ⟨e, he, het⟩ rfl
    simp only [State.elect, Function.update_self, hlog] at he
    exact absurd het ((h.stood_genuine hl).2 e (List.mem_of_getElem? he)).ne
  have hcur : ∀ {t n}, Current term (a.elect c) t n → Current term a t n := by
    intro t n hcur
    simpa [Current, State.elect, Function.update_of_ne (hne hcur)] using hcur
  have hack : ∀ {q t}, t ≠ a.term c → (a.elect c).acked q t = a.acked q t := fun ht =>
    update₂_of_ne _ _ (Or.inr ht)
  have hch : ∀ {t n}, t ≠ a.term c → Choosable members (a.elect c) t n →
      Choosable members a t n := fun ht h' =>
    h'.imp fun q hq => by rwa [hack ht] at hq
  have hll : ∀ {t}, t ≠ a.term c → (a.elect c).leaderLog t = a.leaderLog t := fun ht =>
    Function.update_of_ne ht _ _
  refine { log := ?log, leader := ?leader, vote := ?vote }
  case log =>
    intro q t n hq hcur' hch'
    have ht := hne hcur'
    rw [hll ht]
    exact hc.log (hack ht ▸ hq) (hcur hcur') (hch ht hch')
  case leader =>
    intro t t' n ht hled hcur' hch'
    have htc := hne hcur'
    rw [hll htc]
    by_cases ht' : t' = a.term c
    · subst ht'
      -- a voter of the new leader has acknowledged what is choosable
      obtain ⟨v, hvQ, hacked, -⟩ := h.exists_acked_of_choosable ht hQ hv (hch htc hch')
      simp only [State.elect, Function.update_self, hlog]
      exact hc.vote (hv v hvQ) hl ht hacked (hcur hcur') (hch htc hch')
    · rw [hll ht']
      exact hc.leader ht (by simpa [State.elect, Function.update_of_ne ht'] using hled)
        (hcur hcur') (hch htc hch')
  case vote =>
    intro v d t t' n l' hvote hstood ht hq hcur' hch'
    have htc := hne hcur'
    rw [hll htc]
    exact hc.vote hvote hstood ht (hack htc ▸ hq) (hcur hcur') (hch htc hch')

theorem propose (hc : Complete term members a) (h : Inv term members a) {c : N} {e : E}
    (hl : a.leader (a.term c) = some c) : Complete term members (a.propose c e) := by
  have hlog : a.log c = a.leaderLog (a.term c) := h.leader_log hl
  have hg : Grows a (a.propose c e) := h.grows_propose hl
  have hack : ∀ {q t n}, n < (a.propose c e).acked q t →
      n < a.acked q t ∨ q = c ∧ t = a.term c := by
    intro q t n hq
    simp only [State.propose, update₂_apply] at hq
    split_ifs at hq with hqt
    · exact .inr hqt
    · exact .inl hq
  have hch : ∀ {t n}, Choosable members (a.propose c e) t n → Choosable members a t n := by
    refine fun h' => h'.imp fun q hq => hq.elim (fun hq => ?_) .inr
    exact (hack hq).imp_right fun hq => by rw [hq.1, hq.2]
  -- an entry that is current afterwards was so before, or is the appended one
  have hcur : ∀ {t n}, Current term (a.propose c e) t n → n < (a.leaderLog t).length →
      Current term a t n ∧
        ((a.propose c e).leaderLog t).take (n + 1) = (a.leaderLog t).take (n + 1) := by
    rintro t n ⟨f, hf, hft⟩ hlen
    have hled : a.leader t ≠ none := by
      intro hnone
      simp [(h.leaderless hnone).1] at hlen
    obtain ⟨-, s, hs⟩ := hg t hled
    rw [← hs, List.getElem?_append_left hlen] at hf
    exact ⟨⟨f, hf, hft⟩, by rw [← hs, List.take_append_of_le_length (by omega)]⟩
  have hlater : ∀ {q t t' n d}, a.vote q t' = some d → t < t' →
      n < (a.propose c e).acked q t → n < a.acked q t := by
    intro q t t' n d hv ht hq
    -- the leader has voted in no later term
    refine (hack hq).resolve_right ?_
    rintro ⟨rfl, rfl⟩
    exact absurd (h.vote_le hv).1 (by omega)
  refine { log := ?log, leader := ?leader, vote := ?vote }
  case log =>
    intro q t n hq hcur' hch'
    rcases hack hq with hq' | ⟨rfl, rfl⟩
    · obtain ⟨hcur₀, htake⟩ := hcur hcur' (hq'.trans_le (h.acked_le q t))
      rw [htake]
      refine (hc.log hq' hcur₀ (hch hch')).trans ?_
      by_cases hqc : q = c
      · subst hqc
        simp [State.propose]
      · simp [State.propose, Function.update_of_ne hqc]
    · simp only [State.propose, Function.update_self]
      exact List.take_prefix _ _
  case leader =>
    intro t t' n ht hled hcur' hch'
    obtain ⟨d, hd⟩ := Option.ne_none_iff_exists'.mp hled
    obtain ⟨-, Q, hQ, hv⟩ := h.leader_won hd
    obtain ⟨v, -, hacked, -⟩ := h.exists_acked_of_choosable ht hQ hv (hch hch')
    obtain ⟨hcur₀, htake⟩ := hcur hcur' (hacked.trans_le (h.acked_le v t))
    rw [htake]
    exact (hc.leader ht hled hcur₀ (hch hch')).trans (hg t' hled).2
  case vote =>
    intro v d t t' n l hv hs ht hq hcur' hch'
    have hq' := hlater hv ht hq
    obtain ⟨hcur₀, htake⟩ := hcur hcur' (hq'.trans_le (h.acked_le v t))
    rw [htake]
    exact hc.vote hv hs ht hq' hcur₀ (hch hch')

theorem accept (hc : Complete term members a) (h : Inv term members a) {q c : N} {k : ℕ}
    {l : List E} (hl : a.leader (a.term q) = some c)
    (hadopt : Adopts ((a.leaderLog (a.term q)).take k) (a.log q) l) :
    Complete term members (a.accept q k l) := by
  have hack : ∀ {p t n}, n < (a.accept q k l).acked p t → n < a.acked p t ∨
      p = q ∧ t = a.term q ∧ n < k := by
    intro p t n hp
    simp only [State.accept, update₂_apply] at hp
    split_ifs at hp with hpt
    · obtain ⟨rfl, rfl⟩ := hpt
      exact (lt_max_iff.mp hp).imp_right fun hk => ⟨rfl, rfl, hk⟩
    · exact .inl hp
  have hch : ∀ {t n}, Choosable members (a.accept q k l) t n → Choosable members a t n := by
    refine fun h' => h'.imp fun p hp => hp.elim (fun hp => ?_) .inr
    exact (hack hp).imp_right fun hp => by rw [hp.1, hp.2.1]
  refine { log := ?_, leader := fun ht hled hcur h' => hc.leader ht hled hcur (hch h'), vote := ?_ }
  · intro p t n hp hcur hch'
    by_cases hpq : p = q
    · subst hpq
      simp only [State.accept, Function.update_self]
      rcases hack hp with hold | ⟨-, rfl, hk⟩
      · -- an entry acknowledged before: the leader's prefix does not contradict it
        have hpre := hc.log hold hcur (hch hch')
        refine hadopt.keeps hpre (List.take_prefix _ _) ?_
        rcases (h.acked_term (Nat.zero_lt_of_lt hold)).lt_or_eq with hlt | heq
        · exact hc.leader hlt (by simp [hl]) hcur (hch hch')
        · rw [heq]
          exact List.take_prefix _ _
      · exact (List.take_prefix_take_left (by omega)).trans hadopt.prefix
    · simp only [State.accept, Function.update_of_ne hpq]
      refine hc.log ?_ hcur (hch hch')
      exact (hack hp).resolve_right fun hp' => hpq hp'.1
  · intro v d t t' n l' hv hs ht hn hcur hch'
    refine hc.vote hv hs ht ?_ hcur (hch hch')
    refine (hack hn).resolve_right ?_
    rintro ⟨rfl, rfl, -⟩
    exact absurd (h.vote_le hv).1 (by omega)

/-- **Step lemma.** Steps whose voters compare logs keep choosable entries. -/
theorem step (hc : Complete term members a) (h : Inv term members a) {a' : State N E}
    (hs : Step term members (UpToDate term) a a') : Complete term members a' := by
  cases hs with
  | observe n t ht => exact hc.observe ht
  | stand n => exact hc.stand h n
  | grant v c l hl _ hok => exact hc.grant h hl hok
  | elect c l hl Q hQ hv hn => exact hc.elect h hl hQ hv hn
  | propose c e hl _ => exact hc.propose h hl
  | accept q c k l hl _ _ hadopt => exact hc.accept h hl hadopt

end Step

end Complete

/-- **Run lemma.** When voters compare logs, every reachable state is complete. -/
theorem Reachable.complete [DecidableEq N]
    (h : Reachable term members (UpToDate term) a) : Complete term members a := by
  induction h with
  | refl => exact Complete.init
  | tail hr hs ih => exact ih.step (Reachable.inv hr) hs

end Consensus
