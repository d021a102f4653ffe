import Mathlib.Data.List.Basic

/-!
# Computations that restrict others

A computation restricts another when it succeeds less often and, where it does succeed, with the same result.
-/

/-- Wherever `x` succeeds, `y` succeeds with the same result. -/
def Restricts {ε α : Type} (x y : Except ε α) : Prop :=
  ∀ a, x = .ok a → y = .ok a

namespace Restricts

variable {ε α β : Type}

theorem refl (x : Except ε α) : Restricts x x :=
  fun _ h => h

theorem error (e : ε) (y : Except ε α) : Restricts (.error e) y := by
  intro a h
  simp at h

theorem bind {x y : Except ε α} {f g : α → Except ε β} (hxy : Restricts x y)
    (hfg : ∀ a, Restricts (f a) (g a)) : Restricts (x >>= f) (y >>= g) := by
  intro b h
  cases hx : x with
  | error e =>
    rw [hx] at h
    exact absurd h (by simp [Bind.bind, Except.bind])
  | ok a =>
    rw [hx] at h
    rw [hxy a hx]
    exact hfg a b h

theorem bind_right (x : Except ε α) {f g : α → Except ε β} (hfg : ∀ a, Restricts (f a) (g a)) :
    Restricts (x >>= f) (x >>= g) :=
  (refl x).bind hfg

theorem bind_left {x y : Except ε α} (hxy : Restricts x y) (f : α → Except ε β) :
    Restricts (x >>= f) (y >>= f) :=
  hxy.bind fun a => refl (f a)

theorem ite {c : Prop} [Decidable c] {x y x' y' : Except ε α} (hx : c → Restricts x x')
    (hy : ¬ c → Restricts y y') : Restricts (if c then x else y) (if c then x' else y') := by
  by_cases h : c
  · rw [if_pos h, if_pos h]
    exact hx h
  · rw [if_neg h, if_neg h]
    exact hy h

/-- A check that is made only in the first computation. -/
theorem ite_unit {c c' : Prop} [Decidable c] [Decidable c'] {x y : Except ε PUnit} (hc : c' → c)
    (hxy : Restricts x y) : Restricts (if c then x else .ok ⟨⟩) (if c' then y else .ok ⟨⟩) := by
  by_cases h : c
  · rw [if_pos h]
    by_cases h' : c'
    · rw [if_pos h']
      exact hxy
    · rw [if_neg h']
      intro a _
      rfl
  · rw [if_neg h, if_neg fun h' => h (hc h')]
    exact refl _

theorem mapError {x y : Except ε α} (f : ε → β) (hxy : Restricts x y) :
    Restricts (x.mapError f) (y.mapError f) := by
  intro a h
  cases hx : x with
  | error e =>
    rw [hx] at h
    simp [Except.mapError] at h
  | ok b =>
    rw [hx] at h
    rw [hxy b hx]
    exact h

theorem forM_map {f : α → Except ε PUnit} {g : β → Except ε PUnit} {k : α → β} {l : List α}
    (h : ∀ a ∈ l, Restricts (f a) (g (k a))) : Restricts (l.forM f) ((l.map k).forM g) := by
  induction l with
  | nil => exact refl _
  | cons a l ih =>
    refine bind (h a List.mem_cons_self) fun _ => ?_
    exact ih fun b hb => h b (List.mem_cons_of_mem _ hb)

end Restricts
