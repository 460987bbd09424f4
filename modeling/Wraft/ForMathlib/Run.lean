import Mathlib.Data.List.Infix
import Mathlib.Tactic.SplitIfs

/-!
# Finite runs of a transition relation

`IsRun init step r` says that `r` is a finite run, **latest state first**: the oldest state
satisfies `init` and each state is a `step` away from the one before it. The rules of this file
are the ones a safety proof needs:

* `IsRun.invariant` — a property kept by every step holds of every state of the run;
* `IsRun.simulate` — a forward simulation carries a run to a reachable state of the abstract
  system, with the whole history available to the simulation relation;
* `IsRun.of_moves`, `IsRun.of_mem` — consecutive states of a run are a step apart, and the states
  up to any of its states form a run themselves;
* `Moves.trichotomy`, `IsRun.rel_head` — of two moves one is over before the other begins, and what
  only grows has grown from any state of a run to the last; so what does not happen again happens in
  one move (`Moves.unique`).

Where the steps are computed from actions (`Acts`), `play` runs a list of actions, and what is seen
of the result is seen of a run (`exists_run_of_play`). What can still be reached from a state is a
matter of `Leads`, which counts the actions that it takes. Where the actions belong to components
that share the state, `foldlM_project` takes the components apart again.
-/

/-- A record that only grows keeps what is in it, at its place. -/
theorem List.IsPrefix.getElem?_eq_some {α : Type*} {l l' : List α} (h : l <+: l') {n : ℕ} {a : α}
    (ha : l[n]? = some a) : l'[n]? = some a := by
  obtain ⟨s, rfl⟩ := h
  rw [List.getElem?_append_left (List.getElem?_eq_some_iff.mp ha).1, ha]

namespace TransitionSystem

variable {σ τ : Type*} {init : σ → Prop} {step : σ → σ → Prop}

/-- The finite runs of `step` from a state satisfying `init`, latest state first. -/
inductive IsRun (init : σ → Prop) (step : σ → σ → Prop) : List σ → Prop
  | start {s : σ} (h : init s) : IsRun init step [s]
  | next {s s' : σ} {r : List σ} (h : IsRun init step (s :: r)) (hs : step s s') :
      IsRun init step (s' :: s :: r)

/-- The run `r` goes from `s` to `s'` in one of its steps. -/
def Moves (r : List σ) (s s' : σ) : Prop := [s', s] <:+: r

theorem Moves.mem_left {r : List σ} {s s' : σ} (h : Moves r s s') : s ∈ r :=
  h.subset (by simp)

theorem Moves.mem_right {r : List σ} {s s' : σ} (h : Moves r s s') : s' ∈ r :=
  h.subset (by simp)

/-- The moves of a run one step longer: the last one, or a move of the shorter run. -/
theorem moves_cons_cons {r : List σ} {s s' t t' : σ} :
    Moves (s' :: s :: r) t t' ↔ (t' = s' ∧ t = s) ∨ Moves (s :: r) t t' := by
  rw [Moves, Moves, List.infix_cons_iff, List.cons_prefix_cons, List.cons_prefix_cons]
  simp

/-- A one-state run does not move. -/
theorem not_moves_singleton {s t t' : σ} : ¬Moves [s] t t' := by
  intro h
  have := h.length_le
  simp at this

theorem Moves.of_suffix {q r : List σ} {s s' : σ} (h : Moves q s s') (hq : q <:+ r) :
    Moves r s s' :=
  h.trans hq.isInfix

/-- A move and a state of a run: the state comes before the move, or after it. -/
theorem Moves.before_or_after {r : List σ} {s s' t : σ} (h : Moves r s s') (ht : t ∈ r) :
    (∃ q, (s :: q) <:+ r ∧ t ∈ s :: q) ∨ ∃ q, (t :: q) <:+ r ∧ s' ∈ t :: q := by
  induction r with
  | nil => exact absurd ht List.not_mem_nil
  | cons u r ih =>
    rcases List.mem_cons.mp ht with rfl | htail
    · exact .inr ⟨r, List.suffix_refl _, h.mem_right⟩
    · cases r with
      | nil => exact absurd htail List.not_mem_nil
      | cons v r =>
        rcases moves_cons_cons.mp h with ⟨rfl, rfl⟩ | hm
        · exact .inl ⟨r, List.suffix_cons _ _, htail⟩
        · rcases ih hm htail with ⟨q, hq, hmem⟩ | ⟨q, hq, hmem⟩
          · exact .inl ⟨q, hq.trans (List.suffix_cons _ _), hmem⟩
          · exact .inr ⟨q, hq.trans (List.suffix_cons _ _), hmem⟩

/-- Two moves of a run are the same, or one is over before the other begins. -/
theorem Moves.trichotomy {r : List σ} {s s' t t' : σ} (h : Moves r s s') (h' : Moves r t t') :
    (s = t ∧ s' = t') ∨ (∃ q, (t :: q) <:+ r ∧ s' ∈ t :: q) ∨
      ∃ q, (s :: q) <:+ r ∧ t' ∈ s :: q := by
  induction r with
  | nil => exact absurd h.mem_left List.not_mem_nil
  | cons u r ih =>
    cases r with
    | nil => exact absurd h not_moves_singleton
    | cons v r =>
      have hsuf : (v :: r) <:+ u :: v :: r := List.suffix_cons _ _
      rcases moves_cons_cons.mp h, moves_cons_cons.mp h' with
        ⟨⟨rfl, rfl⟩ | hm, ⟨rfl, rfl⟩ | hm'⟩
      · exact .inl ⟨rfl, rfl⟩
      · exact .inr (.inr ⟨r, hsuf, hm'.mem_right⟩)
      · exact .inr (.inl ⟨r, hsuf, hm.mem_right⟩)
      · rcases ih hm hm' with heq | ⟨q, hq, hmem⟩ | ⟨q, hq, hmem⟩
        · exact .inl heq
        · exact .inr (.inl ⟨q, hq.trans hsuf, hmem⟩)
        · exact .inr (.inr ⟨q, hq.trans hsuf, hmem⟩)

/-- What does not happen again happens in one move. -/
theorem Moves.unique {r : List σ} {P : σ → σ → Prop}
    (hP : ∀ s s' t t' q, Moves r s s' → P s s' → Moves r t t' → P t t' → (t :: q) <:+ r →
      s' ∉ t :: q)
    {s s' t t' : σ} (h : Moves r s s') (hs : P s s') (h' : Moves r t t') (ht : P t t') :
    s = t ∧ s' = t' := by
  rcases h.trichotomy h' with heq | ⟨q, hq, hmem⟩ | ⟨q, hq, hmem⟩
  · exact heq
  · exact absurd hmem (hP s s' t t' q h hs h' ht hq)
  · exact absurd hmem (hP t t' s s' q h' ht h hs hq)

/-- Neighbours in the list of a run are a move apart. -/
theorem moves_of_getElem? {r : List σ} {s s' : σ} {k : ℕ} (h' : r[k]? = some s')
    (h : r[k + 1]? = some s) : Moves r s s' := by
  obtain ⟨hk', rfl⟩ := List.getElem?_eq_some_iff.mp h'
  obtain ⟨hk, rfl⟩ := List.getElem?_eq_some_iff.mp h
  refine ⟨r.take k, r.drop (k + 2), ?_⟩
  conv_rhs => rw [← List.take_append_drop k r, List.drop_eq_getElem_cons hk',
    List.drop_eq_getElem_cons hk]
  simp

namespace IsRun

theorem ne_nil {r : List σ} (h : IsRun init step r) : r ≠ [] := by
  cases h <;> simp

/-- A run of a relation is a run of any relation that contains it. -/
theorem mono {step' : σ → σ → Prop} (hs : ∀ s s', step s s' → step' s s') {r : List σ}
    (h : IsRun init step r) : IsRun init step' r := by
  induction h with
  | start h => exact .start h
  | next _ hst ih => exact .next ih (hs _ _ hst)

/-- Every nonempty suffix of a run is a run. -/
theorem of_suffix {r : List σ} (h : IsRun init step r) {q : List σ} (hq : q <:+ r)
    (hne : q ≠ []) : IsRun init step q := by
  induction h with
  | start h =>
    rcases List.suffix_cons_iff.mp hq with rfl | hq
    · exact .start h
    · exact absurd (List.suffix_nil.mp hq) hne
  | next h hs ih =>
    rcases List.suffix_cons_iff.mp hq with rfl | hq
    · exact .next h hs
    · exact ih hq

/-- Consecutive states of a run: the later one ends a run that continues the earlier one. -/
theorem of_moves {r : List σ} (h : IsRun init step r) {s s' : σ} (hm : Moves r s s') :
    step s s' ∧ ∃ q, IsRun init step (s :: q) ∧ (s' :: s :: q) <:+ r := by
  obtain ⟨pre, q, rfl⟩ := hm
  have hsuf : (s' :: s :: q) <:+ pre ++ [s', s] ++ q := ⟨pre, by simp⟩
  have hrun := h.of_suffix hsuf (by simp)
  cases hrun with
  | next hr hst => exact ⟨hst, q, hr, hsuf⟩

/-- Every state of a run ends a run of its own. -/
theorem of_mem {r : List σ} (h : IsRun init step r) {s : σ} (hs : s ∈ r) :
    ∃ q, IsRun init step (s :: q) ∧ (s :: q) <:+ r := by
  obtain ⟨pre, q, rfl⟩ := List.append_of_mem hs
  have hsuf : (s :: q) <:+ pre ++ s :: q := List.suffix_append _ _
  exact ⟨q, h.of_suffix hsuf (by simp), hsuf⟩

/-- **Invariant rule.** What holds initially and is kept by every step holds of every state of
every run. -/
theorem invariant {I : σ → Prop} (hinit : ∀ s, init s → I s)
    (hstep : ∀ s s', I s → step s s' → I s') {r : List σ} (h : IsRun init step r) :
    ∀ s ∈ r, I s := by
  induction h with
  | start h => simpa using hinit _ h
  | @next s s' r _ hs ih =>
    intro t ht
    rcases List.mem_cons.mp ht with rfl | ht
    · exact hstep s t (ih s (by simp)) hs
    · exact ih t ht

/-- A preorder that the steps of a run respect relates every state of the run to the last one. -/
theorem rel_head {R : σ → σ → Prop} [IsPreorder σ R] {s : σ} {r : List σ}
    (h : IsRun init step (s :: r)) (hstep : ∀ t ∈ r, ∀ t', step t t' → R t t') :
    ∀ t ∈ s :: r, R t s := by
  induction r generalizing s with
  | nil =>
    intro t ht
    rw [List.mem_singleton.mp ht]
    exact refl_of R s
  | cons s₀ r ih =>
    intro t ht
    cases h with
    | next h hs =>
      rcases List.mem_cons.mp ht with rfl | ht
      · exact refl_of R t
      · exact trans_of R (ih h (fun u hu => hstep u (List.mem_cons_of_mem _ hu)) t ht)
          (hstep s₀ List.mem_cons_self s hs)

/-- **Simulation rule.** `R r a` relates a run to an abstract state; the concrete initial states
are related to some good abstract state, and every step of the run can be followed. -/
theorem simulate {good : τ → Prop} {R : List σ → τ → Prop}
    (hinit : ∀ s, init s → ∃ a, good a ∧ R [s] a)
    (hstep : ∀ s s' r a, IsRun init step (s :: r) → good a → R (s :: r) a → step s s' →
      ∃ a', good a' ∧ R (s' :: s :: r) a')
    {r : List σ} (h : IsRun init step r) : ∃ a, good a ∧ R r a := by
  induction h with
  | start h => exact hinit _ h
  | next h hs ih =>
    obtain ⟨a, ha, hR⟩ := ih
    exact hstep _ _ _ a h ha hR hs

end IsRun

/-! ### Systems that act -/

section

variable {α : Type*} {exec : σ → α → Option σ} {bad : σ → α → Bool}

/-- The system goes from `s` to `s'` by an action that meets the condition `G`. -/
def Acts (exec : σ → α → Option σ) (G : σ → α → Prop) (s s' : σ) : Prop :=
  ∃ a, G s a ∧ exec s a = some s'

theorem Acts.mono {G G' : σ → α → Prop} (hG : ∀ s a, G s a → G' s a) {s s' : σ}
    (h : Acts exec G s s') : Acts exec G' s s' :=
  h.imp fun a ha => ⟨hG s a ha.1, ha.2⟩

/-- The run `r` with last state `s`, continued by actions as long as each of them is possible and
not one of the `bad` ones. -/
def play (exec : σ → α → Option σ) (bad : σ → α → Bool) :
    σ → List σ → List α → Option (List σ)
  | s, r, [] => some (s :: r)
  | s, r, a :: as =>
    if bad s a then none else (exec s a).bind fun s' => play exec bad s' (s :: r) as

theorem append_of_play {s : σ} {r r' : List σ} {as : List α}
    (h : play exec bad s r as = some r') : ∃ p, r' = p ++ s :: r ∧ p.length = as.length := by
  induction as generalizing s r with
  | nil => exact ⟨[], (Option.some.inj h).symm, rfl⟩
  | cons a as ih =>
    rw [play] at h
    split_ifs at h
    obtain ⟨s', -, h⟩ := Option.bind_eq_some_iff.mp h
    obtain ⟨p, rfl, hp⟩ := ih h
    exact ⟨p ++ [s'], by simp, by simp [hp]⟩

/-- The steps of a run that is played are those of its actions. -/
theorem exec_of_play {s : σ} {r r' : List σ} {as bs : List α} {a : α}
    (h : play exec bad s r (as ++ a :: bs) = some r') :
    ∃ t t', exec t a = some t' ∧ r'[bs.length + 1]? = some t ∧ r'[bs.length]? = some t' := by
  induction as generalizing s r with
  | nil =>
    rw [List.nil_append, play] at h
    split_ifs at h
    obtain ⟨s', hs', h⟩ := Option.bind_eq_some_iff.mp h
    obtain ⟨p, rfl, hp⟩ := append_of_play h
    refine ⟨s, s', hs', ?_, ?_⟩
    · rw [List.getElem?_append_right (by omega), hp, Nat.add_sub_cancel_left]
      rfl
    · rw [List.getElem?_append_right (by omega), hp, Nat.sub_self]
      rfl
  | cons b as ih =>
    rw [List.cons_append, play] at h
    split_ifs at h
    obtain ⟨s', -, h⟩ := Option.bind_eq_some_iff.mp h
    exact ih h

theorem IsRun.of_play {s : σ} {r r' : List σ} {as : List α}
    (hr : IsRun init (Acts exec fun s a => bad s a = false) (s :: r))
    (h : play exec bad s r as = some r') :
    IsRun init (Acts exec fun s a => bad s a = false) r' := by
  induction as generalizing s r with
  | nil => exact Option.some.inj h ▸ hr
  | cons a as ih =>
    rw [play] at h
    split_ifs at h with hbad
    obtain ⟨s', hs', h⟩ := Option.bind_eq_some_iff.mp h
    exact ih (.next hr ⟨a, by simpa using hbad, hs'⟩) h

/-- From a state, at most `n` actions that meet the condition `G` lead to a state with `P`. -/
inductive Leads (exec : σ → α → Option σ) (G : σ → α → Prop) (P : σ → Prop) : ℕ → σ → Prop
  | done {n : ℕ} {s : σ} (h : P s) : Leads exec G P n s
  | step {n : ℕ} {s s' : σ} {a : α} (hs : exec s a = some s') (ha : G s a)
      (h : Leads exec G P n s') : Leads exec G P (n + 1) s

namespace Leads

variable {G G' : σ → α → Prop} {P Q : σ → Prop} {n m : ℕ} {s : σ}

theorem mono (h : Leads exec G P n s) (hP : ∀ s, P s → Q s) (hn : n ≤ m) :
    Leads exec G Q m s := by
  induction h generalizing m with
  | done h => exact .done (hP _ h)
  | step hs ha _ ih =>
    obtain ⟨k, rfl⟩ := Nat.exists_eq_add_of_lt (Nat.lt_of_lt_of_le (Nat.succ_pos _) hn)
    rw [Nat.zero_add] at hn ⊢
    exact .step hs ha (ih (Nat.le_of_succ_le_succ hn))

/-- One way after the other. -/
theorem trans (h : Leads exec G P n s) (hPQ : ∀ s, P s → Leads exec G Q m s) :
    Leads exec G Q (n + m) s := by
  induction h with
  | done h => exact (hPQ _ h).mono (fun _ => id) (Nat.le_add_left _ _)
  | step hs ha _ ih =>
    rw [Nat.add_right_comm]
    exact .step hs ha ih

end Leads

variable (init) in
/-- A run from `s`, with an observation made of it. -/
theorem exists_run_of_play (exec : σ → α → Option σ) (bad : σ → α → Bool) {s : σ} (hs : init s)
    (as : List α) (f : List σ → Bool) (h : (play exec bad s [] as).any f = true) :
    ∃ r, play exec bad s [] as = some r ∧
      IsRun init (Acts exec fun s a => bad s a = false) r ∧ f r = true := by
  obtain ⟨r, hr, hf⟩ := (Option.any_eq_true _ _).mp h
  exact ⟨r, hr, .of_play (.start hs) hr, hf⟩

end

/-! ### Interleavings -/

section

variable {κ α : Type*} [DecidableEq κ] {exec : σ → α → Option σ} {owner : α → κ}
  {spec : τ → α → τ} {R : κ → σ → τ → Prop}

/-- **Interleaving rule.** `R k` relates a shared state to what component `k` is meant to be. If
an action moves its owner's component as `spec` says and leaves the others related as they are,
then any interleaving of actions moves each component as its own actions alone do. -/
theorem foldlM_project
    (own : ∀ s s' t a, exec s a = some s' → R (owner a) s t → R (owner a) s' (spec t a))
    (other : ∀ s s' t a k, k ≠ owner a → exec s a = some s' → R k s t → R k s' t)
    {as : List α} {s s' : σ} (h : as.foldlM exec s = some s') {k : κ} {t : τ} (hR : R k s t) :
    R k s' ((as.filter (owner · = k)).foldl spec t) := by
  induction as generalizing s t with
  | nil => exact Option.some.inj h ▸ hR
  | cons a as ih =>
    rw [List.foldlM_cons] at h
    obtain ⟨s₁, hs₁, h⟩ := Option.bind_eq_some_iff.mp h
    by_cases hk : owner a = k
    · subst hk
      rw [List.filter_cons_of_pos (by simp)]
      exact ih h (own s s₁ t a hs₁ hR)
    · rw [List.filter_cons_of_neg (by simpa using hk)]
      exact ih h (other s s₁ t a k (Ne.symm hk) hs₁ hR)

end

end TransitionSystem
