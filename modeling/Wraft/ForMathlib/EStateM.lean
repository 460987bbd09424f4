import Mathlib.Order.Defs.Unbundled
import Mathlib.Tactic.Common

/-!
# How a sequence of computations came to its result

The core library says what the primitives of `EStateM ε σ` do when run. This file adds rules to
reason about a sequence: `run_bind_of_ok` and `run_bind_of_error` run its first computation,
`run_bind_eq_ok_iff` takes a sequence that returned apart, and `Triple.bind` composes what is known
of the parts.

`Triple P x Q E` has a second postcondition for runs that fail, since an error keeps the state
that had been reached.
-/

namespace EStateM

universe u

variable {ε σ α β : Type u}

@[simp]
theorem run_throw_any (e : ε) (s : σ) : (throw e : EStateM ε σ α).run s = .error e s := rfl

theorem run_bind_of_ok {x : EStateM ε σ α} {f : α → EStateM ε σ β} {s s' : σ} {a : α}
    (h : x.run s = .ok a s') : (x >>= f).run s = (f a).run s' := by
  rw [run_bind, h]

theorem run_bind_of_error {x : EStateM ε σ α} {f : α → EStateM ε σ β} {s s' : σ} {e : ε}
    (h : x.run s = .error e s') : (x >>= f).run s = .error e s' := by
  rw [run_bind, h]

/-- A sequence returns when its parts return one after the other. -/
theorem run_bind_eq_ok_iff {x : EStateM ε σ α} {f : α → EStateM ε σ β} {s s'' : σ} {b : β} :
    (x >>= f).run s = .ok b s'' ↔ ∃ a s', x.run s = .ok a s' ∧ (f a).run s' = .ok b s'' := by
  rw [run_bind]
  cases hrun : x.run s with
  | ok a s' => simp
  | error e s' => simp

/-! ### Triples -/

/-- From a state satisfying `P`, `x` returns with a result and a state satisfying `Q`, or fails
with an error and a state satisfying `E`. -/
def Triple (P : σ → Prop) (x : EStateM ε σ α) (Q : α → σ → Prop) (E : ε → σ → Prop) : Prop :=
  ∀ s, P s → match x.run s with
    | .ok a s' => Q a s'
    | .error e s' => E e s'

namespace Triple

variable {P : σ → Prop} {x : EStateM ε σ α} {Q : α → σ → Prop} {E : ε → σ → Prop}

theorem ok (h : Triple P x Q E) {s s' : σ} {a : α} (hs : P s) (hrun : x.run s = .ok a s') :
    Q a s' := by
  have := h s hs
  rwa [hrun] at this

theorem error (h : Triple P x Q E) {s s' : σ} {e : ε} (hs : P s)
    (hrun : x.run s = .error e s') : E e s' := by
  have := h s hs
  rwa [hrun] at this

theorem bind {R : β → σ → Prop} {f : α → EStateM ε σ β} (hx : Triple P x Q E)
    (hf : ∀ a, Triple (Q a) (f a) R E) : Triple P (x >>= f) R E := by
  intro s hs
  have hxs := hx s hs
  rw [run_bind]
  cases hrun : x.run s with
  | ok a s' =>
    rw [hrun] at hxs
    exact hf a s' hxs
  | error e s' =>
    rw [hrun] at hxs
    exact hxs

end Triple

/-! ### Moving along a preorder -/

/-- From `s`, and whatever its outcome, `x` moves the state along `R`. -/
def Follows (R : σ → σ → Prop) (s : σ) (x : EStateM ε σ α) : Prop :=
  Triple (s = ·) x (fun _ => R s) (fun _ => R s)

namespace Follows

variable {R : σ → σ → Prop} {s : σ} {x : EStateM ε σ α} {f : α → EStateM ε σ β}

theorem of_ok (h : Follows R s x) {a : α} {s' : σ} (hrun : x.run s = .ok a s') : R s s' :=
  Triple.ok h rfl hrun

theorem of_error (h : Follows R s x) {e : ε} {s' : σ} (hrun : x.run s = .error e s') : R s s' :=
  Triple.error h rfl hrun

theorem modify_bind {g : σ → σ} {f : PUnit → EStateM ε σ β}
    (h : Triple (g s = ·) (f ⟨⟩) (fun _ => R s) (fun _ => R s)) :
    Follows R s (modify g >>= f) := by
  rintro _ rfl
  exact h _ rfl

theorem modifyGet {g : σ → α × σ} (h : R s (g s).2) :
    Follows (ε := ε) R s (modifyGet g) := by
  rintro _ rfl
  exact h

theorem modify {g : σ → σ} (h : R s (g s)) : Follows (ε := ε) R s (modify g) := modifyGet h

theorem set {s' : σ} (h : R s s') : Follows (ε := ε) R s (set s') := by
  rintro _ rfl
  exact h

theorem get_bind {f : σ → EStateM ε σ β} (h : Follows R s (f s)) :
    Follows R s (get >>= f) := by
  rintro _ rfl
  exact h s rfl

theorem mono {Q : σ → σ → Prop} (hx : Follows R s x) (h : ∀ s', R s s' → Q s s') :
    Follows Q s x := by
  rintro _ rfl
  have hxs := hx s rfl
  cases hrun : x.run s with
  | ok a s' =>
    rw [hrun] at hxs
    exact h _ hxs
  | error e s' =>
    rw [hrun] at hxs
    exact h _ hxs

/-- The first part of a sequence moves along `Q`, and moving on along `R` is moving along `Q`. -/
theorem bind_of {Q : σ → σ → Prop} (hQR : ∀ {s' s''}, Q s s' → R s' s'' → Q s s'')
    (hx : Follows Q s x) (hf : ∀ a s', Follows R s' (f a)) : Follows Q s (x >>= f) := by
  refine Triple.bind hx fun a s' hs => ?_
  exact mono (Q := fun _ => Q s) (hf a s') (fun _ => hQR hs) s' rfl

section

variable [IsPreorder σ R]

theorem pure {a : α} : Follows (ε := ε) R s (pure a) := by
  rintro _ rfl
  exact refl_of R s

theorem throw_bind {e : ε} : Follows R s (throw e >>= f) := by
  rintro _ rfl
  exact refl_of R s

theorem throw {e : ε} : Follows (α := α) R s (throw e) := by
  rintro _ rfl
  exact refl_of R s

/-- Every part of a sequence moves along `R`. -/
theorem bind (hx : Follows R s x) (hf : ∀ a s', Follows R s' (f a)) : Follows R s (x >>= f) :=
  bind_of (fun h h' => trans_of R h h') hx hf

end

end Follows

end EStateM
