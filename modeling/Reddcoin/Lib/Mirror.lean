import Mathlib.Data.List.Basic

/-!
# Computations that say more about their errors

A computation mirrors another when it returns the same results, and where the other ends with an error, it ends
with the error that a map makes of it.  `Returns` is the postcondition of a computation that may also end with an
error.
-/

/-- `x` does what `y` does, with the errors of `y` under `φ`. -/
def Mirrors {ε ε' α : Type} (φ : ε → ε') (x : Except ε' α) (y : Except ε α) : Prop :=
  x = y.mapError φ

/-- What `x` returns, if it returns at all, satisfies `P`. -/
def Returns {ε α : Type} (P : α → Prop) (x : Except ε α) : Prop :=
  ∀ a, x = .ok a → P a

namespace Mirrors

variable {ε ε' α β : Type} {φ ψ : ε → ε'}

theorem ok (a : α) : Mirrors φ (.ok a) (.ok a) :=
  rfl

theorem error (e : ε) : Mirrors φ (.error (φ e) : Except ε' α) (.error e) :=
  rfl

/-- The second steps are only compared at the results of the first. -/
theorem bind {x : Except ε' α} {y : Except ε α} {f : α → Except ε' β} {g : α → Except ε β}
    (hxy : Mirrors φ x y) (hfg : ∀ a, y = .ok a → Mirrors φ (f a) (g a)) :
    Mirrors φ (x >>= f) (y >>= g) := by
  rw [show x = y.mapError φ from hxy]
  cases hy : y with
  | error e => exact error e
  | ok a => exact hfg a hy

/-- A first step that always succeeds is not seen in the other computation. -/
theorem bind_ok {x : Except ε' α} {a : α} {f : α → Except ε' β} {y : Except ε β} (hx : x = .ok a)
    (hf : Mirrors φ (f a) y) : Mirrors φ (x >>= f) y := by
  rw [hx]
  exact hf

theorem ite {c : Prop} [Decidable c] {x x' : Except ε' α} {y y' : Except ε α} (hx : c → Mirrors φ x y)
    (hy : ¬ c → Mirrors φ x' y') : Mirrors φ (if c then x else x') (if c then y else y') := by
  by_cases h : c
  · rw [if_pos h, if_pos h]
    exact hx h
  · rw [if_neg h, if_neg h]
    exact hy h

/-- Two maps of the errors of a sequence agree when they agree on the errors of its steps. -/
theorem mapError_bind {x : Except ε α} {f : α → Except ε β} (hx : Mirrors φ (x.mapError ψ) x)
    (hf : ∀ a, Mirrors φ ((f a).mapError ψ) (f a)) : Mirrors φ ((x >>= f).mapError ψ) (x >>= f) := by
  cases hcases : x with
  | error e =>
    rw [hcases] at hx
    exact congrArg Except.error (Except.error.inj hx)
  | ok a => exact hf a

/-- What the mirroring computation returns is what the other one returns. -/
theorem returns {x : Except ε' α} {y : Except ε α} (h : Mirrors φ x y) {P : α → Prop} (hy : Returns P y) :
    Returns P x := by
  intro a ha
  rw [h] at ha
  cases hcases : y with
  | error e =>
    rw [hcases] at ha
    cases ha
  | ok b =>
    rw [hcases] at ha
    obtain rfl := Except.ok.inj ha
    exact hy b hcases

theorem error_eq {x : Except ε' α} {y : Except ε α} (h : Mirrors φ x y) {stop : ε'} (hx : x = .error stop) :
    ∃ e, stop = φ e := by
  rw [h] at hx
  cases y with
  | error e => exact ⟨e, (Except.error.inj hx).symm⟩
  | ok a => cases hx

end Mirrors

namespace Returns

variable {ε α β : Type} {P : α → Prop} {Q : β → Prop}

theorem ok {a : α} (h : P a) : Returns P (.ok a : Except ε α) := by
  intro b hb
  cases hb
  exact h

theorem error (e : ε) : Returns P (.error e) := by
  intro a ha
  cases ha

theorem bind {x : Except ε α} {f : α → Except ε β} (hx : Returns P x) (hf : ∀ a, P a → Returns Q (f a)) :
    Returns Q (x >>= f) := by
  cases hcases : x with
  | error e => exact error e
  | ok a => exact hf a (hx a hcases)

/-- A first step whose result does not matter. -/
theorem bind_any (x : Except ε α) {f : α → Except ε β} (hf : ∀ a, Returns Q (f a)) : Returns Q (x >>= f) :=
  bind (P := fun _ => True) (fun _ _ => trivial) fun a _ => hf a

theorem ite {c : Prop} [Decidable c] {x y : Except ε α} (hx : c → Returns P x) (hy : ¬ c → Returns P y) :
    Returns P (if c then x else y) := by
  by_cases h : c
  · rw [if_pos h]
    exact hx h
  · rw [if_neg h]
    exact hy h

end Returns
