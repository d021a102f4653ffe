import Mathlib.Algebra.BigOperators.Intervals
import Mathlib.Data.Nat.Digits.Defs

/-!
# Numerals

A numeral is a list of digits, the most significant first.  A number is converted from one base to another in place:
the buffer of the new digits is multiplied by the old base, one digit is added, and what the buffer cannot hold is left
as a carry.
-/

namespace Numerals

open List

variable {b c f carry : Nat} {l m : List Nat}

/-- The number that the digits say. -/
def value (b : Nat) (l : List Nat) : Nat :=
  Nat.ofDigits b l.reverse

/-- Every cell holds a digit. -/
def Digits (b : Nat) (l : List Nat) : Prop :=
  ∀ d ∈ l, d < b

@[simp] theorem value_nil : value b [] = 0 := rfl

theorem value_singleton (d : Nat) : value b [d] = d :=
  Nat.ofDigits_singleton

theorem value_append (l m : List Nat) : value b (l ++ m) = value b l * b ^ m.length + value b m := by
  rw [value, reverse_append, Nat.ofDigits_append, length_reverse, Nat.mul_comm, Nat.add_comm]
  rfl

theorem value_cons (d : Nat) (l : List Nat) : value b (d :: l) = d * b ^ l.length + value b l := by
  have h := value_append (b := b) [d] l
  rw [value_singleton] at h
  exact h

theorem value_concat (l : List Nat) (d : Nat) : value b (l ++ [d]) = value b l * b + d := by
  rw [value_append, value_singleton, length_singleton, Nat.pow_one]

theorem value_replicate_zero (n : Nat) : value b (List.replicate n 0) = 0 := by
  rw [value, reverse_replicate]
  exact Nat.ofDigits_replicate_zero

/-- Zeros in front say nothing. -/
theorem value_dropWhile (l : List Nat) : value b (l.dropWhile (· == 0)) = value b l := by
  induction l with
  | nil => rfl
  | cons d l ih =>
    by_cases hd : d = 0
    · rw [dropWhile_cons_of_pos (by simpa using hd), ih, value_cons, hd, Nat.zero_mul, Nat.zero_add]
    · rw [dropWhile_cons_of_neg (by simpa using hd)]

theorem digits_nil : Digits b [] := by
  intro d hd
  cases hd

theorem digits_cons {d : Nat} : Digits b (d :: l) ↔ d < b ∧ Digits b l :=
  forall_mem_cons

theorem Digits.concat {d : Nat} (h : Digits b l) (hd : d < b) : Digits b (l ++ [d]) := by
  intro e he
  rcases mem_append.mp he with he | he
  · exact h e he
  · rw [mem_singleton.mp he]
    exact hd

theorem Digits.reverse (h : Digits b l) : ∀ d ∈ l.reverse, d < b :=
  fun d hd => h d (mem_reverse.mp hd)

theorem Digits.dropWhile (h : Digits b l) (p : Nat → Bool) : Digits b (l.dropWhile p) :=
  fun d hd => h d ((dropWhile_suffix p).mem hd)

theorem digits_replicate_zero (hb : 0 < b) (n : Nat) : Digits b (List.replicate n 0) := by
  intro d hd
  rw [eq_of_mem_replicate hd]
  exact hb

theorem value_lt (hb : 1 < b) (h : Digits b l) : value b l < b ^ l.length := by
  have hlt := Nat.ofDigits_lt_base_pow_length hb h.reverse
  rw [length_reverse] at hlt
  exact hlt

/-- Numerals of one length that say one number are the same. -/
theorem value_injective (hb : 1 < b) (hl : Digits b l) (hm : Digits b m) (hlen : l.length = m.length)
    (h : value b l = value b m) : l = m := by
  have hlen' : l.reverse.length = m.reverse.length := by
    rw [length_reverse, length_reverse, hlen]
  exact reverse_inj.mp (Nat.ofDigits_inj_of_len_eq hb hlen' hl.reverse hm.reverse h)

/-! ## One numeral for each number -/

/-- No zero in front. -/
def Trimmed (l : List Nat) : Prop :=
  l.head? ≠ some 0

theorem trimmed_dropWhile (l : List Nat) : Trimmed (l.dropWhile (· == 0)) := by
  intro hzero
  have hnot := head?_dropWhile_not (fun d : Nat => d == 0) l
  rw [hzero] at hnot
  cases hnot

/-- Two numerals without zeros in front that say one number are the same. -/
theorem Trimmed.unique (hb : 1 < b) (hl : Trimmed l) (hm : Trimmed m) (hdl : Digits b l) (hdm : Digits b m)
    (h : value b l = value b m) : l = m := by
  have hlast : ∀ {k : List Nat}, Trimmed k → ∀ hne : k.reverse ≠ [], k.reverse.getLast hne ≠ 0 := by
    intro k hk hne hzero
    rw [getLast_reverse] at hzero
    apply hk
    rw [head?_eq_some_head (fun hnil => hne (by rw [hnil]; rfl)), hzero]
  have hdigits := Nat.digits_ofDigits b hb l.reverse hdl.reverse (hlast hl)
  have hdigits' := Nat.digits_ofDigits b hb m.reverse hdm.reverse (hlast hm)
  have hsame : l.reverse = m.reverse := by
    rw [← hdigits, ← hdigits']
    exact congrArg (Nat.digits b) h
  exact reverse_inj.mp hsame

/-! ## Digits from one

With the digits `1` to `b` there is no zero to put in front, and every number has one numeral. -/

/-- Every digit is one of `1` to `b`. -/
def Positive (b : Nat) (l : List Nat) : Prop :=
  ∀ d ∈ l, 0 < d ∧ d ≤ b

theorem positive_concat {d : Nat} : Positive b (l ++ [d]) ↔ Positive b l ∧ 0 < d ∧ d ≤ b := by
  rw [Positive, forall_mem_append, forall_mem_singleton]
  rfl

/-- Two numerals that say one number are the same: the last digit is what is left of the number after as many times
`b` as leave at least one. -/
theorem Positive.unique (hl : Positive b l) (hm : Positive b m) (h : value b l = value b m) : l = m := by
  induction l using List.reverseRecOn generalizing m with
  | nil =>
    cases m using List.reverseRecOn with
    | nil => rfl
    | append_singleton m e =>
      have hpos := (positive_concat.mp hm).2.1
      rw [value_nil, value_concat] at h
      omega
  | append_singleton l d ih =>
    obtain ⟨hl, hd, hdb⟩ := positive_concat.mp hl
    cases m using List.reverseRecOn with
    | nil =>
      rw [value_nil, value_concat] at h
      omega
    | append_singleton m e =>
      obtain ⟨hm, he, heb⟩ := positive_concat.mp hm
      rw [value_concat, value_concat] at h
      have hdiv : ∀ {v x : Nat}, 0 < x → x ≤ b → (v * b + x - 1) / b = v := by
        intro v x hx hxb
        rw [Nat.add_sub_assoc hx, Nat.mul_comm, Nat.mul_add_div (by omega), Nat.div_eq_of_lt (by omega), Nat.add_zero]
      have hsame : value b l = value b m := by
        rw [← hdiv (v := value b l) hd hdb, h, hdiv he heb]
      have hlast : d = e := by
        rw [hsame] at h
        omega
      rw [ih hl hm hsame, hlast]

/-- The number as the sum of the digits by their weights, times the base once more. -/
theorem value_mul_eq_sum (b : Nat) (l : List Nat) :
    value b l * b = ∑ i ∈ Finset.Icc 1 l.length, b ^ i * l.getD (l.length - i) 0 := by
  induction l with
  | nil => simp
  | cons d l ih =>
    have hlow : ∀ i ∈ Finset.Icc 1 l.length,
        b ^ i * (d :: l).getD (l.length + 1 - i) 0 = b ^ i * l.getD (l.length - i) 0 := by
      intro i hi
      have hle := (Finset.mem_Icc.mp hi).2
      rw [Nat.succ_sub hle, getD_cons_succ]
    rw [length_cons, Finset.sum_Icc_succ_top (by omega), Finset.sum_congr rfl hlow, ← ih, value_cons,
      Nat.sub_self, getD_cons_zero]
    ring

/-! ## Multiplying in place -/

/-- The digits times `f`, plus `carry`, from the last digit to the first; and what is left of the carry. -/
def mulAdd (b f carry : Nat) : List Nat → Nat × List Nat
  | [] => (carry, [])
  | d :: l =>
    let s := mulAdd b f carry l
    ((s.1 + f * d) / b, (s.1 + f * d) % b :: s.2)

theorem length_mulAdd (b f carry : Nat) (l : List Nat) : (mulAdd b f carry l).2.length = l.length := by
  induction l with
  | nil => rfl
  | cons d l ih => rw [mulAdd, length_cons, length_cons, ih]

theorem digits_mulAdd (hb : 0 < b) (l : List Nat) : Digits b (mulAdd b f carry l).2 := by
  induction l with
  | nil => exact digits_nil
  | cons d l ih => exact digits_cons.mpr ⟨Nat.mod_lt _ hb, ih⟩

theorem value_mulAdd (b f carry : Nat) (l : List Nat) :
    (mulAdd b f carry l).1 * b ^ l.length + value b (mulAdd b f carry l).2 = value b l * f + carry := by
  induction l with
  | nil => simp [mulAdd]
  | cons d l ih =>
    let s := mulAdd b f carry l
    have hsplit : (s.1 + f * d) / b * b + (s.1 + f * d) % b = s.1 + f * d := Nat.div_add_mod' _ _
    have hlen : s.2.length = l.length := length_mulAdd b f carry l
    show (s.1 + f * d) / b * b ^ (l.length + 1) + value b ((s.1 + f * d) % b :: s.2) = _
    rw [value_cons, value_cons, hlen, Nat.pow_succ]
    calc (s.1 + f * d) / b * (b ^ l.length * b) + ((s.1 + f * d) % b * b ^ l.length + value b s.2)
        = ((s.1 + f * d) / b * b + (s.1 + f * d) % b) * b ^ l.length + value b s.2 := by ring
      _ = (s.1 + f * d) * b ^ l.length + value b s.2 := by rw [hsplit]
      _ = s.1 * b ^ l.length + value b s.2 + f * d * b ^ l.length := by ring
      _ = value b l * f + carry + f * d * b ^ l.length := by rw [ih]
      _ = (d * b ^ l.length + value b l) * f + carry := by ring

/-- Nothing is carried out of a buffer that has room for the result. -/
theorem mulAdd_carry (hroom : value b l * f + carry < b ^ l.length) : (mulAdd b f carry l).1 = 0 := by
  have hvalue := value_mulAdd b f carry l
  by_contra hne
  have hle : 1 * b ^ l.length ≤ (mulAdd b f carry l).1 * b ^ l.length :=
    Nat.mul_le_mul_right _ (Nat.one_le_iff_ne_zero.mpr hne)
  omega

theorem mulAdd_value (hroom : value b l * f + carry < b ^ l.length) :
    value b (mulAdd b f carry l).2 = value b l * f + carry := by
  have hvalue := value_mulAdd b f carry l
  rw [mulAdd_carry hroom, Nat.zero_mul, Nat.zero_add] at hvalue
  exact hvalue

/-- One more digit of base `c`, in a buffer of digits of base `b` that has room for it. -/
theorem convert_step {d : Nat} (hc : 1 < c) (hsame : value b l = value c m) (hdigits : Digits c (m ++ [d]))
    (hroom : c ^ (m.length + 1) ≤ b ^ l.length) :
    (mulAdd b c d l).1 = 0 ∧ value b (mulAdd b c d l).2 = value c (m ++ [d]) := by
  have hlt := value_lt hc hdigits
  rw [value_concat, length_append, length_singleton] at hlt
  have hfits : value b l * c + d < b ^ l.length := by
    rw [hsame]
    exact lt_of_lt_of_le hlt hroom
  refine ⟨mulAdd_carry hfits, ?_⟩
  rw [mulAdd_value hfits, value_concat, hsame]

/-! ## Room -/

/-- Digits of one base fit into `p` for every `q` of them, and one more, when `q` digits fit into `p`. -/
theorem pow_lt_pow_div {p q : Nat} (hq : 0 < q) (hb : 1 < b) (h : c ^ q ≤ b ^ p) (n : Nat) :
    c ^ n < b ^ (n * p / q + 1) := by
  have hpow : (c ^ n) ^ q < (b ^ (n * p / q + 1)) ^ q := by
    have hlt : n * p < (n * p / q + 1) * q := Nat.lt_mul_of_div_lt (Nat.lt_succ_self _) hq
    calc (c ^ n) ^ q = (c ^ q) ^ n := by rw [← Nat.pow_mul, ← Nat.pow_mul, Nat.mul_comm]
      _ ≤ (b ^ p) ^ n := Nat.pow_le_pow_left h n
      _ = b ^ (n * p) := by rw [← Nat.pow_mul, Nat.mul_comm]
      _ < b ^ ((n * p / q + 1) * q) := Nat.pow_lt_pow_right hb hlt
      _ = (b ^ (n * p / q + 1)) ^ q := Nat.pow_mul ..
  exact lt_of_pow_lt_pow_left₀ q (Nat.zero_le _) hpow

end Numerals
