import Reddcoin.Arith.Ripple

/-!
# Division of limbs

`CompareTo`, `bits` and the shift-and-subtract loop of `operator/=`.
-/

namespace Reddcoin

namespace BaseUint

open UInt32 (ofNat)

variable {w : Nat}

/-! ## Comparison -/

/-- The loop of `CompareTo` over the limbs below `n`. -/
def compareLoop (a b : BaseUint w) : (n : Nat) → n ≤ w → Int
  | 0, _ => 0
  | i + 1, h =>
    if a.get i h < b.get i h then -1
    else if b.get i h < a.get i h then 1
    else compareLoop a b i (by omega)

def compareTo (a b : BaseUint w) : Int :=
  compareLoop a b w (by omega)

theorem compareLoop_nonneg (a b : BaseUint w) : ∀ (n : Nat) (h : n ≤ w),
    0 ≤ compareLoop a b n h ↔ Limbs.value 32 b.limb n ≤ Limbs.value 32 a.limb n := by
  intro n
  induction n with
  | zero => intro h; simp [compareLoop]
  | succ i ih =>
    intro h
    have hget : ∀ c d : BaseUint w, c.get i h < d.get i h ↔ c.limb i < d.limb i := by
      intro c d
      rw [UInt32.lt_iff_toNat_lt, ← limb_of_lt c h, ← limb_of_lt d h]
    rw [compareLoop]
    by_cases hlt : a.get i h < b.get i h
    · have hval := Limbs.value_lt_succ (fun k _ => a.limb_lt k) ((hget a b).mp hlt)
      rw [if_pos hlt]
      omega
    · by_cases hgt : b.get i h < a.get i h
      · have hval := Limbs.value_lt_succ (fun k _ => b.limb_lt k) ((hget b a).mp hgt)
        rw [if_neg hlt, if_pos hgt]
        omega
      · have heq : a.limb i = b.limb i := by
          rw [hget] at hlt hgt
          omega
        rw [if_neg hlt, if_neg hgt, ih (by omega), Limbs.value_succ, Limbs.value_succ, heq]
        omega

theorem compareTo_nonneg (a b : BaseUint w) : 0 ≤ a.compareTo b ↔ b.value ≤ a.value :=
  compareLoop_nonneg a b w (Nat.le_refl w)

/-- The loop of `EqualTo` from the limb below `n` down to the limb 2. -/
def highLoop (a : BaseUint w) : (n : Nat) → n ≤ w → Bool
  | 0, _ => true
  | i + 1, h => if i < 2 then true else if a.get i h ≠ 0 then false else highLoop a i (by omega)

theorem zero_lt_width : 0 < w + 2 := by omega

theorem one_lt_width : 1 < w + 2 := by omega

/-- `EqualTo`. -/
def equalTo (a : BaseUint (w + 2)) (b : UInt64) : Bool :=
  if highLoop a (w + 2) (by omega) = false then false
  else if (a.get 1 one_lt_width).toUInt64 ≠ b >>> 32 then false
  else if (a.get 0 zero_lt_width).toUInt64 ≠ b &&& 0xffffffff then false
  else true

theorem highLoop_eq_true (a : BaseUint w) : ∀ (n : Nat) (h : n ≤ w),
    highLoop a n h ↔ ∀ i, 2 ≤ i → i < n → a.limb i = 0 := by
  intro n
  induction n with
  | zero => intro h; simp [highLoop]
  | succ n ih =>
    intro h
    rw [highLoop]
    by_cases hlow : n < 2
    · rw [if_pos hlow]
      constructor
      · intro _ i h2 hi; omega
      · intro _; rfl
    · have hget : a.get n h = 0 ↔ a.limb n = 0 := by
        rw [limb_of_lt a h]
        constructor
        · intro h0; rw [h0]; rfl
        · intro h0; exact UInt32.toNat_inj.mp h0
      rw [if_neg hlow]
      by_cases hz : a.get n h = 0
      · rw [if_neg (fun hne => hne hz), ih]
        constructor
        · intro hall i h2 hi
          by_cases hin : i = n
          · rw [hin]
            exact hget.mp hz
          · exact hall i h2 (by omega)
        · intro hall i h2 hi
          exact hall i h2 (by omega)
      · rw [if_pos hz]
        constructor
        · intro hf; cases hf
        · intro hall
          exact absurd (hget.mpr (hall n (by omega) (by omega))) hz

theorem equalTo_zero (a : BaseUint (w + 2)) : a.equalTo 0 ↔ a.value = 0 := by
  have hhigh := highLoop_eq_true a (w + 2) (Nat.le_refl _)
  have hsplit := a.value_two
  have h0 : (a.get 0 (by omega)).toUInt64 = 0 ↔ a.limb 0 = 0 := by
    rw [limb_of_lt a (by omega), ← UInt64.toNat_inj, UInt32.toNat_toUInt64]
    rfl
  have h1 : (a.get 1 (by omega)).toUInt64 = 0 ↔ a.limb 1 = 0 := by
    rw [limb_of_lt a (by omega), ← UInt64.toNat_inj, UInt32.toNat_toUInt64]
    rfl
  have hrest : Limbs.value 32 (fun i => a.limb (2 + i)) w = 0 ↔ ∀ i, 2 ≤ i → i < w + 2 → a.limb i = 0 := by
    rw [Limbs.value_eq_zero_iff]
    constructor
    · intro hall i h2 hi
      have := hall (i - 2) (by omega)
      rw [Nat.add_sub_cancel' h2] at this
      exact this
    · intro hall i hi
      exact hall (2 + i) (by omega) (by omega)
  have hsplit0 : a.value = 0 ↔ a.limb 0 = 0 ∧ a.limb 1 = 0 ∧ Limbs.value 32 (fun i => a.limb (2 + i)) w = 0 := by
    omega
  rw [hsplit0, hrest, ← hhigh, ← h0, ← h1, equalTo]
  simp
  tauto

/-! ## The number of bits -/

/-- The inner loop of `bits`, from the bit `n` down to the bit 1. -/
def bitsOfLimb (limb : UInt32) : Nat → Nat
  | 0 => 1
  | n + 1 => if limb &&& (1 <<< ofNat (n + 1)) ≠ 0 then n + 1 + 1 else bitsOfLimb limb n

/-- The outer loop of `bits` over the limbs below `n`. -/
def bitsLoop (a : BaseUint w) : (n : Nat) → n ≤ w → Nat
  | 0, _ => 0
  | pos + 1, h =>
    if a.get pos h ≠ 0 then 32 * pos + bitsOfLimb (a.get pos h) 31 else bitsLoop a pos (by omega)

def bits (a : BaseUint w) : Nat :=
  bitsLoop a w (by omega)

theorem toNat_one_shiftLeft {n : Nat} (hn : n < 32) : (1 <<< ofNat n : UInt32).toNat = 2 ^ n := by
  have hmod : n % 2 ^ 32 % 32 = n := by omega
  rw [UInt32.toNat_shiftLeft, UInt32.toNat_ofNat', hmod]
  show 1 <<< n % 2 ^ 32 = 2 ^ n
  rw [Nat.one_shiftLeft, Nat.mod_eq_of_lt (Nat.pow_lt_pow_right (by omega) hn)]

theorem and_one_shiftLeft (limb : UInt32) {n : Nat} (hn : n < 32) :
    limb &&& (1 <<< ofNat n) ≠ 0 ↔ limb.toNat.testBit n = true := by
  have hand : (limb &&& (1 <<< ofNat n)).toNat = 2 ^ n * (limb.toNat.testBit n).toNat := by
    rw [UInt32.toNat_and, toNat_one_shiftLeft hn, Nat.and_two_pow, Nat.mul_comm]
  rw [ne_eq, ← UInt32.toNat_inj, hand]
  cases limb.toNat.testBit n with
  | false => simp
  | true => simp

theorem bitsOfLimb_eq (limb : UInt32) (hne : limb ≠ 0) : ∀ n < 32, limb.toNat < 2 ^ (n + 1) →
    bitsOfLimb limb n = Nat.size limb.toNat := by
  have hpos : 0 < limb.toNat := Nat.pos_of_ne_zero fun h0 => hne (UInt32.toNat_inj.mp h0)
  intro n
  induction n with
  | zero =>
    intro _ hlt
    have hone : limb.toNat = 1 := by omega
    rw [bitsOfLimb, hone]
    rfl
  | succ n ih =>
    intro hn hlt
    have hbit := and_one_shiftLeft limb hn
    by_cases hset : limb.toNat.testBit (n + 1) = true
    · have hge : 2 ^ (n + 1) ≤ limb.toNat := Nat.ge_two_pow_of_testBit hset
      have hlow : n + 1 < Nat.size limb.toNat := Nat.lt_size.mpr hge
      have hhigh : Nat.size limb.toNat ≤ n + 1 + 1 := Nat.size_le.mpr hlt
      rw [bitsOfLimb, if_pos (hbit.mpr hset)]
      omega
    · rw [bitsOfLimb, if_neg (fun h => hset (hbit.mp h))]
      apply ih (by omega)
      apply Nat.lt_of_not_le
      intro hge
      apply hset
      apply Nat.testBit_of_two_pow_le_and_two_pow_add_one_gt hge hlt

theorem bitsLoop_eq (a : BaseUint w) : ∀ (n : Nat)
    (h : n ≤ w), bitsLoop a n h = Nat.size (Limbs.value 32 a.limb n) := by
  intro n
  induction n with
  | zero => intro h; simp [bitsLoop]
  | succ pos ih =>
    intro h
    have hlow := Limbs.value_lt (b := 32) (f := a.limb) (n := pos) fun i _ => a.limb_lt i
    rw [bitsLoop, Limbs.value_succ, limb_of_lt a h]
    by_cases hz : a.get pos h = 0
    · rw [if_neg (by simp [hz]), ih (by omega), hz]
      simp
    · have hlimb := (a.get pos h).toNat_lt
      have hpos : 0 < (a.get pos h).toNat := Nat.pos_of_ne_zero fun h0 => hz (UInt32.toNat_inj.mp h0)
      rw [if_pos hz, bitsOfLimb_eq _ hz 31 (by omega) hlimb, Limbs.size_add_mul hlow hpos]

theorem bits_eq (a : BaseUint w) : a.bits = Nat.size a.value :=
  bitsLoop_eq a w (Nat.le_refl w)

theorem bits_le (a : BaseUint w) : a.bits ≤ 32 * w := by
  rw [bits_eq, Nat.size_le]
  exact a.value_lt

/-! ## Division -/

/-- The numbers of the loop of `operator/=`. -/
structure Division (w : Nat) where
  num : BaseUint w
  div : BaseUint w
  quotient : BaseUint w

/-- A turn of the loop of `operator/=`. -/
def divideTurn (shift : Nat) (h : shift < 32 * w) (s : Division w) : Division w :=
  let s :=
    if 0 ≤ s.num.compareTo s.div then
      { s with
        num := s.num.sub s.div
        quotient := s.quotient.orAt (shift / 32) (by omega) (1 <<< ofNat (shift % 32)) }
    else s
  { s with div := s.div.shiftRight 1 }

/-- The loop of `operator/=`, with the shifts below `n` to go. -/
def divideLoop : (n : Nat) → n ≤ 32 * w → Division w → Division w
  | 0, _, s => s
  | shift + 1, h, s => divideLoop shift (by omega) (divideTurn shift (by omega) s)

/-- `operator/=`; `none` is the error for a division by zero. -/
def divide (a b : BaseUint w) : Option (BaseUint w) :=
  let num_bits := a.bits
  let div_bits := b.bits
  if hz : div_bits = 0 then none
  else if hlt : num_bits < div_bits then some zero
  else
    let shift := num_bits - div_bits
    some (divideLoop (shift + 1) (by have := a.bits_le; omega)
      { num := a, div := b.shiftLeft (ofNat shift), quotient := zero }).quotient

/-- A bit of the quotient is set that was not set yet. -/
theorem value_setBit (a : BaseUint w) {shift : Nat} (h : shift < 32 * w) (hdvd : 2 ^ (shift + 1) ∣ a.value) :
    (a.orAt (shift / 32) (by omega) (1 <<< ofNat (shift % 32))).value = a.value + 2 ^ shift := by
  have hbit : (1 <<< ofNat (shift % 32) : UInt32).toNat = 2 ^ (shift % 32) :=
    toNat_one_shiftLeft (Nat.mod_lt _ (by omega))
  obtain ⟨q, hq⟩ := hdvd
  have hlt : 2 ^ shift < 2 ^ (shift + 1) := Nat.pow_lt_pow_right (by omega) (by omega)
  rw [hq, Nat.two_pow_add_eq_or_of_lt hlt, ← hq]
  apply Nat.eq_of_testBit_eq
  intro n
  rw [testBit_orAt, hbit, Nat.testBit_or, Nat.testBit_two_pow, Nat.testBit_two_pow, ← Bool.decide_and]
  congr 1
  apply decide_eq_decide.mpr
  omega

/-- What the loop keeps: the quotient so far and what is left make up the dividend. -/
theorem divideLoop_value (hw : 0 < w) {b : Nat} : ∀ (n : Nat) (h : n ≤ 32 * w) (s : Division w),
    s.num.value < b * 2 ^ n → (0 < n → s.div.value * 2 = b * 2 ^ n) → 2 ^ n ∣ s.quotient.value →
    (divideLoop n h s).quotient.value * b + (divideLoop n h s).num.value = s.quotient.value * b + s.num.value ∧
      (divideLoop n h s).num.value < b := by
  intro n
  induction n with
  | zero =>
    intro h s hnum _ _
    rw [Nat.pow_zero, Nat.mul_one] at hnum
    exact ⟨rfl, hnum⟩
  | succ shift ih =>
    intro h s hnum hdiv hdvd
    have hpow : b * 2 ^ (shift + 1) = b * 2 ^ shift * 2 := by rw [Nat.pow_succ, Nat.mul_assoc]
    have hdiv' : s.div.value = b * 2 ^ shift := by
      have := hdiv (by omega)
      omega
    have hhalf : (s.div.shiftRight 1).value = s.div.value / 2 := by
      rw [value_shiftRight]
      exact Nat.shiftRight_eq_div_pow _ _
    have hnext : 0 < shift → (s.div.shiftRight 1).value * 2 = b * 2 ^ shift := by
      intro hpos
      obtain ⟨k, rfl⟩ : ∃ k, shift = k + 1 := ⟨shift - 1, by omega⟩
      have hpow' : b * 2 ^ (k + 1) = b * 2 ^ k * 2 := by rw [Nat.pow_succ, Nat.mul_assoc]
      rw [hhalf, hdiv']
      omega
    rw [divideLoop, divideTurn]
    by_cases hge : 0 ≤ s.num.compareTo s.div
    · have hle := (compareTo_nonneg _ _).mp hge
      have hset := value_setBit s.quotient (by omega : shift < 32 * w) hdvd
      have hsub := value_sub hw s.num s.div hle
      rw [if_pos hge]
      have hrest := ih (by omega)
        { num := s.num.sub s.div
          div := s.div.shiftRight 1
          quotient := s.quotient.orAt (shift / 32) (by omega) (1 <<< ofNat (shift % 32)) } ?_ hnext ?_
      · rw [hset, hsub, Nat.add_mul] at hrest
        refine ⟨?_, hrest.2⟩
        rw [hrest.1, Nat.mul_comm (2 ^ shift) b, ← hdiv']
        omega
      · show (s.num.sub s.div).value < _
        omega
      · show _ ∣ (s.quotient.orAt _ _ _).value
        rw [hset]
        exact Nat.dvd_add (Nat.dvd_trans (Nat.pow_dvd_pow 2 (by omega)) hdvd) (Nat.dvd_refl _)
    · have hlt : s.num.value < s.div.value := by
        apply Nat.lt_of_not_le
        intro hle
        exact hge ((compareTo_nonneg _ _).mpr hle)
      rw [if_neg hge]
      apply ih (by omega) { s with div := s.div.shiftRight 1 }
      · show s.num.value < _
        omega
      · exact hnext
      · exact Nat.dvd_trans (Nat.pow_dvd_pow 2 (by omega)) hdvd

/-- `operator/=` is the division of the numbers, and fails for a divisor 0 only. -/
theorem divide_value (hw : 0 < w) (hwidth : 32 * w < 2 ^ 32) (a b : BaseUint w) (hb : b.value ≠ 0) :
    ∃ q, a.divide b = some q ∧ q.value = a.value / b.value := by
  have hpos : 0 < b.value := Nat.pos_of_ne_zero hb
  have hbits : b.bits ≠ 0 := by
    rw [bits_eq, ne_eq, Nat.size_eq_zero]
    exact hb
  rw [divide, dif_neg hbits]
  by_cases hlt : a.bits < b.bits
  · have hval : a.value < b.value := by
      apply Nat.lt_of_not_le
      intro hle
      have hsize := Nat.size_le_size hle
      rw [bits_eq, bits_eq] at hlt
      omega
    exact ⟨zero, dif_pos hlt, by rw [value_zero, Nat.div_eq_of_lt hval]⟩
  · refine ⟨_, dif_neg hlt, ?_⟩
    have hsizeA := Nat.lt_size_self a.value
    have hsizeB := Nat.lt_size_self b.value
    have hgeB : 2 ^ (Nat.size b.value - 1) ≤ b.value := Nat.lt_size.mp (by rw [bits_eq] at hbits; omega)
    have hle := a.bits_le
    rw [bits_eq] at hbits
    rw [bits_eq, bits_eq] at hlt
    rw [bits_eq] at hle
    have hshift : (ofNat (a.bits - b.bits)).toNat = Nat.size a.value - Nat.size b.value := by
      rw [UInt32.toNat_ofNat', bits_eq, bits_eq, Nat.mod_eq_of_lt (by omega)]
    have hdiv : (b.shiftLeft (ofNat (a.bits - b.bits))).value =
        b.value * 2 ^ (Nat.size a.value - Nat.size b.value) := by
      rw [value_shiftLeft, hshift, Nat.shiftLeft_eq, Nat.mod_eq_of_lt]
      calc b.value * 2 ^ (Nat.size a.value - Nat.size b.value)
          < 2 ^ Nat.size b.value * 2 ^ (Nat.size a.value - Nat.size b.value) :=
            Nat.mul_lt_mul_of_pos_right hsizeB (Nat.two_pow_pos _)
        _ = 2 ^ Nat.size a.value := by
            rw [← Nat.pow_add]
            congr 1
            omega
        _ ≤ 2 ^ (32 * w) := Nat.pow_le_pow_right (by omega) hle
    have hloop := divideLoop_value (b := b.value) hw (a.bits - b.bits + 1) (by rw [bits_eq, bits_eq]; omega)
      { num := a, div := b.shiftLeft (ofNat (a.bits - b.bits)), quotient := zero } ?_ ?_ ?_
    · obtain ⟨hsum, hrem⟩ := hloop
      rw [value_zero, Nat.zero_mul, Nat.zero_add, Nat.mul_comm] at hsum
      show _ = a.value / b.value
      rw [← hsum, Nat.mul_add_div hpos, Nat.div_eq_of_lt hrem]
      exact (Nat.add_zero _).symm
    · show a.value < _
      rw [bits_eq, bits_eq]
      calc a.value < 2 ^ Nat.size a.value := hsizeA
        _ = 2 ^ (Nat.size b.value - 1) * 2 ^ (Nat.size a.value - Nat.size b.value + 1) := by
            rw [← Nat.pow_add]
            congr 1
            omega
        _ ≤ b.value * 2 ^ (Nat.size a.value - Nat.size b.value + 1) := Nat.mul_le_mul_right _ hgeB
    · intro _
      rw [hdiv, bits_eq, bits_eq, Nat.pow_succ, Nat.mul_assoc]
    · rw [value_zero]
      exact Nat.dvd_zero _

end BaseUint

end Reddcoin
