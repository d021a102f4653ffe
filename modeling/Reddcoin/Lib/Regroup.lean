import Reddcoin.Lib.Numerals

/-!
# Regrouping bits

A machine takes digits of `a` bits and emits digits of `b` bits, and holds the bits that do not fill a digit yet.
Whatever the digits, what it has taken and what it has emitted and holds are the same bits.
-/

namespace Regroup

open Numerals

variable {σ : Type} {a b : Nat} {step : σ → Nat → List Nat × σ} {Holds : σ → Nat → Nat → Prop}

/-- The digits emitted on the way, and the last state. -/
def run (step : σ → Nat → List Nat × σ) (s : σ) : List Nat → List Nat × σ
  | [] => ([], s)
  | d :: l =>
    let next := run step (step s d).2 l
    ((step s d).1 ++ next.1, next.2)

/-- From `r` held bits that say `h`, the input `l` gives the output `m` and `r'` held bits that say `h'`. -/
structure Same (a b r h : Nat) (l m : List Nat) (r' h' : Nat) : Prop where
  bits : r + a * l.length = b * m.length + r'
  number : h * 2 ^ (a * l.length) + value (2 ^ a) l = value (2 ^ b) m * 2 ^ r' + h'

/-- A digit more keeps the bits: `Holds s r h` says that the state holds `r` bits that say `h`. -/
structure Sound (a b : Nat) (step : σ → Nat → List Nat × σ) (Holds : σ → Nat → Nat → Prop) : Prop where
  bound : ∀ {s r h}, Holds s r h → h < 2 ^ r
  step : ∀ {s r h d}, Holds s r h → d < 2 ^ a →
    Digits (2 ^ b) (step s d).1 ∧ ∃ r' h', Holds (step s d).2 r' h' ∧ Same a b r h [d] (step s d).1 r' h'

theorem Same.nil (r h : Nat) : Same a b r h [] [] r h := by
  refine ⟨by simp, ?_⟩
  simp

theorem Same.append {r h r₁ h₁ r₂ h₂ : Nat} {l m l' m' : List Nat} (first : Same a b r h l m r₁ h₁)
    (second : Same a b r₁ h₁ l' m' r₂ h₂) : Same a b r h (l ++ l') (m ++ m') r₂ h₂ := by
  have hbits := first.bits
  have hbits' := second.bits
  have hvalue := first.number
  have hvalue' := second.number
  constructor
  · rw [List.length_append, List.length_append, Nat.mul_add, Nat.mul_add]
    omega
  · rw [value_append, value_append, List.length_append, ← Nat.pow_mul, ← Nat.pow_mul, Nat.mul_add, Nat.pow_add]
    have hpow : 2 ^ r₁ * 2 ^ (a * l'.length) = 2 ^ (b * m'.length) * 2 ^ r₂ := by
      rw [← Nat.pow_add, ← Nat.pow_add, hbits']
    generalize 2 ^ (a * l'.length) = p at *
    generalize 2 ^ (a * l.length) = q at *
    calc h * (q * p) + (value (2 ^ a) l * p + value (2 ^ a) l')
        = (h * q + value (2 ^ a) l) * p + value (2 ^ a) l' := by ring
      _ = value (2 ^ b) m * (2 ^ r₁ * p) + (h₁ * p + value (2 ^ a) l') := by rw [hvalue]; ring
      _ = value (2 ^ b) m * (2 ^ (b * m'.length) * 2 ^ r₂) + (value (2 ^ b) m' * 2 ^ r₂ + h₂) := by rw [hpow, hvalue']
      _ = (value (2 ^ b) m * 2 ^ (b * m'.length) + value (2 ^ b) m') * 2 ^ r₂ + h₂ := by ring

/-! ## One digit taken -/

section

variable {r j h d : Nat}

theorem or_eq_add {x y i : Nat} (hy : y < 2 ^ i) : x * 2 ^ i ||| y = x * 2 ^ i + y := by
  rw [Nat.mul_comm]
  exact (Nat.two_pow_add_eq_or_of_lt hy x).symm

theorem div_lt_pow {i : Nat} (hd : d < 2 ^ (i + j)) : d / 2 ^ j < 2 ^ i := by
  rw [Nat.pow_add] at hd
  exact Nat.div_lt_of_lt_mul (by rw [Nat.mul_comm]; exact hd)

/-- The digit does not fill another one. -/
theorem Same.hold (hd : d < 2 ^ a) (hh : h < 2 ^ r) :
    (h <<< a ||| d) < 2 ^ (r + a) ∧ Same a b r h [d] [] (r + a) (h <<< a ||| d) := by
  have hsum : h <<< a ||| d = h * 2 ^ a + d := by rw [Nat.shiftLeft_eq, or_eq_add hd]
  rw [hsum]
  constructor
  · have hle := Nat.mul_le_mul_right (2 ^ a) (Nat.succ_le_of_lt hh)
    rw [← Nat.pow_add, Nat.succ_mul] at hle
    omega
  · constructor
    · simp
    · simp [value_singleton]

/-- The held bits and the high bits of the digit fill another one. -/
theorem Same.emit (hd : d < 2 ^ a) (hh : h < 2 ^ r) (hr : r ≤ b) (hj : r + a = b + j) :
    (h * 2 ^ (b - r) ||| d >>> j) < 2 ^ b ∧ Same a b r h [d] [h * 2 ^ (b - r) ||| d >>> j] j (d % 2 ^ j) := by
  have ha : a = b - r + j := by omega
  have hpow : 2 ^ b = 2 ^ r * 2 ^ (b - r) := by rw [← Nat.pow_add, Nat.add_sub_cancel' hr]
  have hhigh : d / 2 ^ j < 2 ^ (b - r) := div_lt_pow (by rw [← ha]; exact hd)
  have hsum : h * 2 ^ (b - r) ||| d >>> j = h * 2 ^ (b - r) + d / 2 ^ j := by
    rw [Nat.shiftRight_eq_div_pow, or_eq_add hhigh]
  rw [hsum]
  constructor
  · have hle := Nat.mul_le_mul_right (2 ^ (b - r)) (Nat.succ_le_of_lt hh)
    rw [← hpow, Nat.succ_mul] at hle
    omega
  · constructor
    · simp only [List.length_singleton]
      omega
    · rw [List.length_singleton, value_singleton, value_singleton, Nat.mul_one, Nat.add_mul, Nat.mul_assoc,
        ← Nat.pow_add, ← ha, Nat.add_assoc, Nat.div_add_mod']

/-- The held bits and the digit fill two. -/
theorem Same.emit_two (hd : d < 2 ^ a) (hh : h < 2 ^ r) (hr : r ≤ b) (hj : r + a = 2 * b + j) :
    Digits (2 ^ b) [h * 2 ^ (b - r) ||| d >>> (b + j), (d >>> j) &&& (2 ^ b - 1)] ∧
      Same a b r h [d] [h * 2 ^ (b - r) ||| d >>> (b + j), (d >>> j) &&& (2 ^ b - 1)] j (d % 2 ^ j) := by
  obtain ⟨hlt, first⟩ := Same.emit (b := b) (j := b + j) hd hh hr (by omega)
  have hlow : (d >>> j) &&& (2 ^ b - 1) = d / 2 ^ j % 2 ^ b := by
    rw [Nat.and_two_pow_sub_one_eq_mod, Nat.shiftRight_eq_div_pow]
  have hmod : d / 2 ^ j % 2 ^ b < 2 ^ b := Nat.mod_lt _ (Nat.two_pow_pos b)
  have hsplit : d % 2 ^ (b + j) = d / 2 ^ j % 2 ^ b * 2 ^ j + d % 2 ^ j := by
    rw [Nat.add_comm b j, Nat.pow_add, Nat.mod_mul, Nat.add_comm, Nat.mul_comm]
  rw [hlow]
  refine ⟨digits_cons.mpr ⟨hlt, digits_cons.mpr ⟨hmod, digits_nil⟩⟩, ?_⟩
  have second : Same a b (b + j) (d % 2 ^ (b + j)) [] [d / 2 ^ j % 2 ^ b] j (d % 2 ^ j) := by
    constructor
    · simp
    · rw [hsplit, value_singleton]
      simp
  exact first.append second

end

/-- A whole input keeps the bits. -/
theorem Sound.run (sound : Sound a b step Holds) {s : σ} {r h : Nat} {l : List Nat} (held : Holds s r h)
    (digits : Digits (2 ^ a) l) : Digits (2 ^ b) (run step s l).1 ∧
      ∃ r' h', Holds (Regroup.run step s l).2 r' h' ∧ Same a b r h l (Regroup.run step s l).1 r' h' := by
  induction l generalizing s r h with
  | nil => exact ⟨digits_nil, r, h, held, Same.nil r h⟩
  | cons d l ih =>
    obtain ⟨hd, hl⟩ := digits_cons.mp digits
    obtain ⟨hout, r₁, h₁, held₁, first⟩ := sound.step held hd
    obtain ⟨hout', r₂, h₂, held₂, second⟩ := ih held₁ hl
    refine ⟨?_, r₂, h₂, held₂, first.append second⟩
    intro e he
    rcases List.mem_append.mp he with he | he
    · exact hout e he
    · exact hout' e he

/-- Digits that are the bits of `l` and then `z` zeros. -/
structure Padded (a b : Nat) (l m : List Nat) (z : Nat) : Prop where
  bits : a * l.length + z = b * m.length
  number : value (2 ^ b) m = value (2 ^ a) l * 2 ^ z

/-- Held bits go to the front of a last digit. -/
theorem Same.padded {r h : Nat} {l m : List Nat} (same : Same a b 0 0 l m r h) (hr : r ≤ b) :
    Padded a b l (m ++ [h * 2 ^ (b - r)]) (b - r) := by
  have hbits := same.bits
  have hvalue := same.number
  constructor
  · rw [List.length_append, List.length_singleton, Nat.mul_add]
    omega
  · rw [value_concat]
    have hpow : 2 ^ b = 2 ^ r * 2 ^ (b - r) := by rw [← Nat.pow_add, Nat.add_sub_cancel' hr]
    conv_lhs => rw [show value (2 ^ b) m * 2 ^ b = value (2 ^ b) m * 2 ^ r * 2 ^ (b - r) by
      rw [Nat.mul_assoc, ← hpow]]
    rw [← Nat.add_mul, ← hvalue, Nat.zero_mul, Nat.zero_add]

/-- Without held bits nothing is padded. -/
theorem Same.padded_zero {h : Nat} {l m : List Nat} (same : Same a b 0 0 l m 0 h) (hh : h < 2 ^ 0) :
    Padded a b l m 0 := by
  have hbits := same.bits
  have hvalue := same.number
  have hzero : h = 0 := Nat.lt_one_iff.mp hh
  constructor
  · omega
  · rw [hzero, Nat.zero_mul, Nat.zero_add, Nat.add_zero] at hvalue
    rw [hvalue, Nat.pow_zero, Nat.mul_one, Nat.mul_one]

/-- Padded digits are regrouped to what was padded, and the zeros are what is held. -/
theorem Padded.unique {l m l' : List Nat} {z r h : Nat} (padded : Padded a b l m z) (same : Same b a 0 0 m l' r h)
    (hz : z < a) (hr : r < a) (hh : h < 2 ^ r) (digits : Digits (2 ^ a) l) (digits' : Digits (2 ^ a) l') :
    l' = l ∧ r = z ∧ h = 0 := by
  have hbits := padded.bits
  have hbits' := same.bits
  have hvalue := same.number
  rw [padded.number, Nat.zero_mul, Nat.zero_add] at hvalue
  have hsum : a * l.length + z = a * l'.length + r := by omega
  have hlen : l.length = l'.length := by
    have hdiv := congrArg (· / a) hsum
    simp only [Nat.mul_add_div (by omega : 0 < a), Nat.div_eq_of_lt hz, Nat.div_eq_of_lt hr, Nat.add_zero] at hdiv
    exact hdiv
  obtain rfl : r = z := by
    rw [hlen] at hsum
    omega
  have hsame : value (2 ^ a) l' = value (2 ^ a) l := by
    have hdiv := congrArg (· / 2 ^ r) hvalue
    simp only [Nat.mul_comm _ (2 ^ r), Nat.mul_add_div (Nat.two_pow_pos r), Nat.div_eq_of_lt hh, Nat.add_zero,
      Nat.mul_div_cancel_left _ (Nat.two_pow_pos r)] at hdiv
    exact hdiv.symm
  have hzero : h = 0 := by
    rw [hsame] at hvalue
    omega
  exact ⟨value_injective (Nat.one_lt_two_pow (by omega)) digits' digits hlen.symm hsame, rfl, hzero⟩

/-- A number of digits with a number of zeros is padded in one way. -/
theorem Padded.same {l m m' : List Nat} {z z' : Nat} (padded : Padded a b l m z) (padded' : Padded a b l m' z')
    (hz : z < b) (hz' : z' < b) (digits : Digits (2 ^ b) m) (digits' : Digits (2 ^ b) m') : m = m' ∧ z = z' := by
  have hbits := padded.bits
  have hbits' := padded'.bits
  have hlen : m.length = m'.length := by
    rcases Nat.lt_trichotomy m.length m'.length with hlt | heq | hlt
    · have hle := Nat.mul_le_mul_left b hlt
      rw [Nat.mul_succ] at hle
      omega
    · exact heq
    · have hle := Nat.mul_le_mul_left b hlt
      rw [Nat.mul_succ] at hle
      omega
  obtain rfl : z = z' := by
    rw [hlen] at hbits
    omega
  refine ⟨value_injective (Nat.one_lt_two_pow (by omega)) digits digits' hlen ?_, rfl⟩
  rw [padded.number, padded'.number]

end Regroup
