import Mathlib.Data.List.Basic

/-!
# Computations with a count of calls

A computation in an error monad together with how often it has called something, also when it ends with an error.
`result` forgets the count.
-/

structure Counted (ε α : Type) where
  calls : Nat
  result : Except ε α

namespace Counted

variable {ε α β : Type}

/-- A computation without a call. -/
def free (x : Except ε α) : Counted ε α :=
  { calls := 0, result := x }

/-- One call, with what it returns. -/
def call (a : α) : Counted ε α :=
  { calls := 1, result := .ok a }

/-- A computation that has failed calls nothing more. -/
def bind (x : Counted ε α) (f : α → Counted ε β) : Counted ε β :=
  match x.result with
  | .error e => { calls := x.calls, result := .error e }
  | .ok a => { calls := x.calls + (f a).calls, result := (f a).result }

instance : Monad (Counted ε) where
  pure a := free (.ok a)
  bind := bind

@[simp] theorem result_free (x : Except ε α) : (free x).result = x := rfl

@[simp] theorem result_call (a : α) : (call a : Counted ε α).result = .ok a := rfl

@[simp] theorem result_pure (a : α) : (pure a : Counted ε α).result = .ok a := rfl

@[simp] theorem calls_free (x : Except ε α) : (free x).calls = 0 := rfl

@[simp] theorem calls_call (a : α) : (call a : Counted ε α).calls = 1 := rfl

@[simp] theorem calls_pure (a : α) : (pure a : Counted ε α).calls = 0 := rfl

theorem result_bind {x : Counted ε α} {y : Except ε α} {f : α → Counted ε β} {g : α → Except ε β}
    (hx : x.result = y) (hf : ∀ a, (f a).result = g a) : (x >>= f).result = y >>= g := by
  show (bind x f).result = _
  rw [bind, ← hx]
  cases x.result with
  | error e => rfl
  | ok a => exact hf a

/-- The calls of a sequence; the second step is looked at where the first one leads. -/
theorem calls_bind_le {x : Counted ε α} {f : α → Counted ε β} {m n : Nat} (hx : x.calls ≤ m)
    (hf : ∀ a, x.result = .ok a → (f a).calls ≤ n) : (x >>= f).calls ≤ m + n := by
  show (bind x f).calls ≤ _
  rw [bind]
  cases hresult : x.result with
  | error e => exact Nat.le_trans hx (Nat.le_add_right m n)
  | ok a => exact Nat.add_le_add hx (hf a hresult)

/-- A first step without a call. -/
theorem calls_free_bind_le {x : Except ε α} {f : α → Counted ε β} {n : Nat} (hf : ∀ a, x = .ok a → (f a).calls ≤ n) :
    (free x >>= f).calls ≤ n := by
  have h := calls_bind_le (x := free x) (m := 0) (Nat.le_refl 0) hf
  rwa [Nat.zero_add] at h

/-- Only the first step calls. -/
theorem calls_bind_free_le {x : Counted ε α} {f : α → Counted ε β} {m : Nat} (hx : x.calls ≤ m)
    (hf : ∀ a, (f a).calls = 0) : (x >>= f).calls ≤ m :=
  calls_bind_le (n := 0) hx fun a _ => Nat.le_of_eq (hf a)

end Counted
