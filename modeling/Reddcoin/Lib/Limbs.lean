import Mathlib.Algebra.BigOperators.Ring.Finset
import Mathlib.Data.Nat.Bitwise
import Mathlib.Data.Nat.Size
import Mathlib.Tactic.Ring

/-!
# Numbers in limbs

A number is kept in limbs of `b` bits, the least significant first.  `value b f n` is what the limbs `f 0` to
`f (n - 1)` say.  Loops over the limbs are `Nat.fold`, and `fold_invariant` is the rule for them.
-/

namespace Limbs

variable {n : Nat}

/-- The rule of a loop that counts up: what holds at the start and is kept by every turn holds at the end. -/
theorem fold_invariant {α : Type} (P : Nat → α → Prop) : ∀ (n : Nat) (f : (i : Nat) → i < n → α → α) (init : α),
    P 0 init → (∀ i (h : i < n) s, P i s → P (i + 1) (f i h s)) → P n (Nat.fold n f init) := by
  intro n
  induction n with
  | zero =>
    intro f init h0 _
    exact h0
  | succ n ih =>
    intro f init h0 hstep
    rw [Nat.fold_succ]
    apply hstep n (by omega)
    exact ih _ init h0 fun i h s hs => hstep i (by omega) s hs

variable {b : Nat} {f g : Nat → Nat}

def value (b : Nat) (f : Nat → Nat) (n : Nat) : Nat :=
  ∑ i ∈ Finset.range n, f i * 2 ^ (b * i)

@[simp] theorem value_zero : value b f 0 = 0 := rfl

theorem value_succ (b : Nat) (f : Nat → Nat) (n : Nat) :
    value b f (n + 1) = value b f n + f n * 2 ^ (b * n) :=
  Finset.sum_range_succ _ n

theorem value_congr (h : ∀ i < n, f i = g i) : value b f n = value b g n := by
  apply Finset.sum_congr rfl
  intro i hi
  rw [h i (Finset.mem_range.mp hi)]

theorem value_eq_zero (h : ∀ i < n, f i = 0) : value b f n = 0 := by
  apply Finset.sum_eq_zero
  intro i hi
  rw [h i (Finset.mem_range.mp hi), Nat.zero_mul]

theorem value_eq_zero_iff : value b f n = 0 ↔ ∀ i < n, f i = 0 := by
  constructor
  · intro h i hi
    have hterm := (Finset.sum_eq_zero_iff.mp h) i (Finset.mem_range.mpr hi)
    exact (Nat.mul_eq_zero.mp hterm).resolve_right (Nat.ne_of_gt (Nat.two_pow_pos _))
  · exact value_eq_zero

theorem value_add (b : Nat) (f g : Nat → Nat) (n : Nat) :
    value b (fun i => f i + g i) n = value b f n + value b g n := by
  rw [value, value, value, ← Finset.sum_add_distrib]
  exact Finset.sum_congr rfl fun i _ => Nat.add_mul _ _ _

theorem value_mul_left (b c : Nat) (f : Nat → Nat) (n : Nat) :
    value b (fun i => c * f i) n = c * value b f n := by
  rw [value, value, Finset.mul_sum]
  exact Finset.sum_congr rfl fun i _ => Nat.mul_assoc _ _ _

/-- The limbs from `m` on, shifted down. -/
theorem value_split (b : Nat) (f : Nat → Nat) (m n : Nat) :
    value b f (m + n) = value b f m + 2 ^ (b * m) * value b (fun i => f (m + i)) n := by
  induction n with
  | zero => simp
  | succ n ih =>
    rw [← Nat.add_assoc, value_succ, ih, value_succ, Nat.mul_add b m n, Nat.pow_add]
    ring

theorem value_lt (h : ∀ i < n, f i < 2 ^ b) : value b f n < 2 ^ (b * n) := by
  induction n with
  | zero => simp
  | succ n ih =>
    have hlow := ih fun i hi => h i (by omega)
    have hmul : (f n + 1) * 2 ^ (b * n) ≤ 2 ^ b * 2 ^ (b * n) := Nat.mul_le_mul_right _ (h n (by omega))
    rw [Nat.add_mul, Nat.one_mul] at hmul
    rw [value_succ, Nat.mul_succ, Nat.add_comm (b * n), Nat.pow_add]
    omega

/-- A limb of a low part below its place. -/
theorem value_lt_succ (h : ∀ i < n, f i < 2 ^ b) (hlt : f n < g n) : value b f (n + 1) < value b g (n + 1) := by
  have hlow := value_lt h
  have hmul : (f n + 1) * 2 ^ (b * n) ≤ g n * 2 ^ (b * n) := Nat.mul_le_mul_right _ hlt
  rw [Nat.add_mul, Nat.one_mul] at hmul
  rw [value_succ, value_succ]
  omega

theorem value_update {n i : Nat} (h : i < n) (v : Nat) :
    value b (Function.update f i v) n + f i * 2 ^ (b * i) = value b f n + v * 2 ^ (b * i) := by
  induction n with
  | zero => omega
  | succ n ih =>
    rw [value_succ, value_succ]
    by_cases hi : i = n
    · have hsame : value b (Function.update f i v) n = value b f n := by
        apply value_congr
        intro k hk
        rw [Function.update_of_ne (by omega)]
      rw [hsame, ← hi, Function.update_self]
      omega
    · have hrest := ih (by omega)
      rw [Function.update_of_ne (fun e => hi e.symm)]
      omega

/-- A column of a sum is left as a limb and a carry. -/
theorem carry_eq (b x i : Nat) :
    x % 2 ^ b * 2 ^ (b * i) + x / 2 ^ b * 2 ^ (b * (i + 1)) = x * 2 ^ (b * i) := by
  have h := Nat.mod_add_div x (2 ^ b)
  calc x % 2 ^ b * 2 ^ (b * i) + x / 2 ^ b * 2 ^ (b * (i + 1))
      = (x % 2 ^ b + 2 ^ b * (x / 2 ^ b)) * 2 ^ (b * i) := by
        rw [Nat.mul_succ, Nat.pow_add]
        ring
    _ = x * 2 ^ (b * i) := by rw [h]

theorem testBit_value (hb : 0 < b) (h : ∀ i < n, f i < 2 ^ b) (k : Nat) :
    (value b f n).testBit k = (decide (k / b < n) && (f (k / b)).testBit (k % b)) := by
  induction n with
  | zero => simp
  | succ n ih =>
    have hlow := value_lt fun i hi => h i (Nat.lt_succ_of_lt hi)
    rw [value_succ, Nat.add_comm, Nat.mul_comm, Nat.testBit_two_pow_mul_add _ hlow]
    by_cases hk : k < b * n
    · have hdiv : k / b < n := by
        rw [Nat.div_lt_iff_lt_mul hb, Nat.mul_comm]
        exact hk
      rw [if_pos hk, ih fun i hi => h i (Nat.lt_succ_of_lt hi)]
      simp [hdiv, Nat.lt_succ_of_lt hdiv]
    · have hdiv : n ≤ k / b := by
        rw [Nat.le_div_iff_mul_le hb, Nat.mul_comm]
        omega
      rw [if_neg hk]
      by_cases hn : k / b = n
      · have hmod : k - b * n = k % b := by
          have := Nat.div_add_mod k b
          rw [hn] at this
          omega
        simp [hn, hmod]
      · have hbig : b * (n + 1) ≤ k := by
          rw [Nat.mul_comm, ← Nat.le_div_iff_mul_le hb]
          omega
        have hzero : (f n).testBit (k - b * n) = false := by
          apply Nat.testBit_lt_two_pow
          apply Nat.lt_of_lt_of_le (h n (by omega))
          apply Nat.pow_le_pow_right (by omega)
          rw [Nat.mul_succ] at hbig
          omega
        have hout : ¬ k / b < n + 1 := by omega
        simp [hzero, hout]

/-- The top limb that is not zero gives the number of bits. -/
theorem size_add_mul {low x k : Nat} (hlow : low < 2 ^ k) (hx : 0 < x) :
    Nat.size (low + x * 2 ^ k) = k + Nat.size x := by
  have hpos := Nat.size_pos.mpr hx
  have hge : 2 ^ (Nat.size x - 1) ≤ x := Nat.lt_size.mp (by omega)
  have hlt : x < 2 ^ Nat.size x := Nat.lt_size_self x
  apply Nat.le_antisymm
  · rw [Nat.size_le, Nat.pow_add]
    have hmul : (x + 1) * 2 ^ k ≤ 2 ^ Nat.size x * 2 ^ k := Nat.mul_le_mul_right _ hlt
    rw [Nat.add_mul, Nat.one_mul] at hmul
    rw [Nat.mul_comm (2 ^ k)]
    omega
  · have hbelow : k + Nat.size x - 1 < Nat.size (low + x * 2 ^ k) := by
      have hexp : k + Nat.size x - 1 = Nat.size x - 1 + k := by omega
      rw [Nat.lt_size, hexp, Nat.pow_add]
      have hmul : 2 ^ (Nat.size x - 1) * 2 ^ k ≤ x * 2 ^ k := Nat.mul_le_mul_right _ hge
      omega
    omega

end Limbs
