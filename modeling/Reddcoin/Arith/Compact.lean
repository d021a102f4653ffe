import Reddcoin.Arith.Divide
import Reddcoin.Validation.Params

/-!
# The compact form of a target

`SetCompact` and `GetCompact`, once over `CBigNum` (an `Int`) in `bignum.h` and once over the limbs of `uint256` in
`uint256.cpp`.
-/

namespace Reddcoin

open UInt32 (ofNat toNat toNat_and toNat_inj toNat_mul toNat_ofNat' toNat_or toNat_shiftRight)

open Nat (lt_size mod_eq_of_lt mod_lt pow_add size two_pow_pos)

variable {x : Nat} {word : UInt32}

/-- What `uint256::SetCompact` leaves and reports. -/
structure CompactTarget where
  target : BaseUint 8
  fNegative : Bool
  fOverflow : Bool

/-- The mantissa in its place: the bit that denotes the sign is not used for it. -/
def normalise (nCompact : UInt32) (nSize : Nat) : UInt32 × Nat :=
  if nCompact &&& 0x00800000 ≠ 0 then (nCompact >>> 8, nSize + 1) else (nCompact, nSize)

namespace BaseUint

/-- `nWord >>= 8 * (3 - nSize)`, for the sizes up to 3. -/
def shiftWord (nSize nWord : UInt32) : UInt32 :=
  if nSize ≤ 3 then nWord >>> (8 * (3 - nSize)) else nWord

/-- `uint256::SetCompact`. -/
def setCompact (nCompact : UInt32) : CompactTarget :=
  let nSize := nCompact >>> 24
  let nWord := shiftWord nSize (nCompact &&& 0x007fffff)
  { target :=
      if nSize ≤ 3 then ofUInt64 nWord.toUInt64
      else (ofUInt64 nWord.toUInt64).shiftLeft (8 * (nSize - 3))
    fNegative := decide (nWord ≠ 0) && decide (nCompact &&& 0x00800000 ≠ 0)
    fOverflow := decide (nWord ≠ 0) && (decide (34 < nSize) || (decide (0xff < nWord) && decide (33 < nSize)) ||
      (decide (0xffff < nWord) && decide (32 < nSize))) }

/-- `uint256::GetCompact`; `none` is a failed assertion. -/
def getCompact (a : BaseUint 8) (fNegative : Bool) : Option UInt32 :=
  let nSize := (a.bits + 7) / 8
  let nCompact :=
    if nSize ≤ 3 then (a.getLow64 <<< UInt64.ofNat (8 * (3 - nSize))).toUInt32
    else (a.shiftRight (ofNat (8 * (nSize - 3)))).getLow64.toUInt32
  let p := normalise nCompact nSize
  if p.1 &&& ~~~0x007fffff ≠ 0 ∨ 256 ≤ p.2 then none
  else
    let nCompact := p.1 ||| ofNat p.2 <<< 24
    some (nCompact ||| if fNegative && decide (nCompact &&& 0x007fffff ≠ 0) then 0x00800000 else 0)

end BaseUint

namespace CBigNum

/-- `CBigNum::GetCompact`. -/
def getCompact (bn : Int) : UInt32 :=
  let nSize := (size bn.natAbs + 7) / 8
  let nCompact :=
    if nSize ≤ 3 then ofNat (bn.natAbs * 2 ^ (8 * (3 - nSize)))
    else ofNat (bn.natAbs / 2 ^ (8 * (nSize - 3)))
  let p := normalise nCompact nSize
  let nCompact := p.1 ||| ofNat p.2 <<< 24
  nCompact ||| if bn < 0 then 0x00800000 else 0

end CBigNum

/-! ## Encoding -/

/-- The number of bytes of a number that leave room for a sign. -/
def compactSize (x : Nat) : Nat :=
  if x = 0 then 0 else size x / 8 + 1

/-- The part of a number that the compact form keeps. -/
def compactWord (x : Nat) : Nat :=
  if compactSize x ≤ 3 then x * 2 ^ (8 * (3 - compactSize x)) else x / 2 ^ (8 * (compactSize x - 3))

/-- The compact form of a number without a sign. -/
def compactOf (x : Nat) : Nat :=
  compactWord x + compactSize x * 2 ^ 24

/-- The top of a number of `n` bytes, moved to three bytes. -/
theorem topBytes_lt {x n t : Nat} (h : size x + 24 ≤ 8 * n + t) :
    (if n ≤ 3 then x * 2 ^ (8 * (3 - n)) else x / 2 ^ (8 * (n - 3))) < 2 ^ t := by
  have hsize := Nat.lt_size_self x
  by_cases h3 : n ≤ 3
  · rw [if_pos h3]
    calc x * 2 ^ (8 * (3 - n)) < 2 ^ size x * 2 ^ (8 * (3 - n)) :=
          Nat.mul_lt_mul_of_pos_right hsize (two_pow_pos _)
      _ = 2 ^ (size x + 8 * (3 - n)) := (pow_add _ _ _).symm
      _ ≤ 2 ^ t := Nat.pow_le_pow_right (by omega) (by omega)
  · rw [if_neg h3, Nat.div_lt_iff_lt_mul (two_pow_pos _), ← pow_add]
    exact Nat.lt_of_lt_of_le hsize (Nat.pow_le_pow_right (by omega) (by omega))

theorem compactWord_lt (x : Nat) : compactWord x < 2 ^ 23 := by
  by_cases hx : x = 0
  · subst hx
    decide
  · have hcs : compactSize x = size x / 8 + 1 := if_neg hx
    apply topBytes_lt
    omega

theorem compactSize_le (hx : x < 2 ^ 256) : compactSize x ≤ 33 := by
  have hsize : size x ≤ 256 := Nat.size_le.mpr hx
  rw [compactSize]
  by_cases h0 : x = 0
  · rw [if_pos h0]
    omega
  · rw [if_neg h0]
    omega

/-- The bit that denotes the sign, in a mantissa of three bytes. -/
theorem and_signBit (h : word.toNat < 2 ^ 24) : word &&& 0x00800000 ≠ 0 ↔ 2 ^ 23 ≤ word.toNat := by
  have hand := BaseUint.and_one_shiftLeft word (n := 23) (by omega)
  have hbit : (1 <<< ofNat 23 : UInt32) = 0x00800000 := by decide
  rw [hbit] at hand
  rw [hand]
  constructor
  · exact Nat.ge_two_pow_of_testBit
  · intro hge
    exact Nat.testBit_of_two_pow_le_and_two_pow_add_one_gt hge h

section

variable {x n : Nat} (hn : n = (size x + 7) / 8)

include hn

/-- The mantissa that both encoders start from. -/
theorem mantissa_lt : (if n ≤ 3 then x * 2 ^ (8 * (3 - n)) else x / 2 ^ (8 * (n - 3))) < 2 ^ 24 := by
  apply topBytes_lt
  omega

/-- The mantissa reaches the bit of the sign exactly when the number fills its bytes. -/
theorem mantissa_full :
    2 ^ 23 ≤ (if n ≤ 3 then x * 2 ^ (8 * (3 - n)) else x / 2 ^ (8 * (n - 3))) ↔ 0 < n ∧ size x = 8 * n := by
  by_cases h0 : n = 0
  · have hx : x = 0 := Nat.size_eq_zero.mp (by omega)
    rw [if_pos (by omega), hx]
    simp [h0]
  · have hfull : size x = 8 * n ↔ 2 ^ (8 * n - 1) ≤ x := by
      rw [← lt_size]
      omega
    have hright : (0 < n ∧ size x = 8 * n) ↔ 2 ^ (8 * n - 1) ≤ x := by
      rw [← hfull]
      omega
    rw [hright]
    by_cases h3 : n ≤ 3
    · have hpow : (2 : Nat) ^ 23 = 2 ^ (8 * n - 1) * 2 ^ (8 * (3 - n)) := by
        rw [← pow_add]
        congr 1
        omega
      rw [if_pos h3, hpow]
      exact Nat.mul_le_mul_right_iff (two_pow_pos _)
    · have hpow : (2 : Nat) ^ (8 * n - 1) = 2 ^ 23 * 2 ^ (8 * (n - 3)) := by
        rw [← pow_add]
        congr 1
        omega
      rw [if_neg h3, Nat.le_div_iff_mul_le (two_pow_pos _), hpow]

theorem normalise_eq (hword : word.toNat = if n ≤ 3 then x * 2 ^ (8 * (3 - n)) else x / 2 ^ (8 * (n - 3))) :
    (normalise word n).1.toNat = compactWord x ∧ (normalise word n).2 = compactSize x := by
  have hlt := mantissa_lt hn
  have hfull := mantissa_full hn
  rw [← hword] at hlt hfull
  have hbit := and_signBit hlt
  rw [normalise]
  by_cases hsign : word &&& 0x00800000 ≠ 0
  · obtain ⟨hpos, hbytes⟩ := hfull.mp (hbit.mp hsign)
    have hx : x ≠ 0 := by
      intro h0
      rw [h0, Nat.size_zero] at hbytes
      omega
    have hcs : compactSize x = n + 1 := by
      rw [compactSize, if_neg hx]
      omega
    have hshift : (word >>> 8).toNat = word.toNat / 2 ^ 8 := by
      rw [toNat_shiftRight, Nat.shiftRight_eq_div_pow]
      rfl
    rw [if_pos hsign]
    refine ⟨?_, hcs.symm⟩
    show (word >>> 8).toNat = _
    rw [hshift, hword, compactWord, hcs]
    by_cases h3 : n ≤ 3
    · rw [if_pos h3]
      by_cases h2 : n + 1 ≤ 3
      · have hexp : 8 * (3 - n) = 8 * (3 - (n + 1)) + 8 := by omega
        rw [if_pos h2, hexp, pow_add, ← Nat.mul_assoc, Nat.mul_div_cancel _ (by omega)]
      · have hn3 : n = 3 := by omega
        rw [if_neg h2, hn3]
        omega
    · have hexp : 8 * (n + 1 - 3) = 8 * (n - 3) + 8 := by omega
      rw [if_neg h3, if_neg (by omega), Nat.div_div_eq_div_mul, ← pow_add, hexp]
  · have hcs : compactSize x = n := by
      rw [compactSize]
      by_cases hx : x = 0
      · rw [if_pos hx, hn, hx]
        rfl
      · have hsize := Nat.size_pos.mpr (Nat.pos_of_ne_zero hx)
        have hnot : ¬ (0 < n ∧ size x = 8 * n) := fun h => hsign (hbit.mpr (hfull.mpr h))
        rw [if_neg hx]
        omega
    rw [if_neg hsign]
    refine ⟨?_, hcs.symm⟩
    rw [compactWord, hcs]
    exact hword

end

theorem toNat_compact {size : Nat} (hword : word.toNat < 2 ^ 23) (hsize : size < 256) :
    (word ||| ofNat size <<< 24).toNat = word.toNat + size * 2 ^ 24 := by
  have hshift : (ofNat size <<< 24).toNat = 2 ^ 24 * size := by
    rw [UInt32.toNat_shiftLeft, toNat_ofNat', Nat.shiftLeft_eq]
    show size % 2 ^ 32 * 2 ^ 24 % 2 ^ 32 = _
    omega
  have hlow : word.toNat < 2 ^ 24 := by omega
  rw [toNat_or, hshift, Nat.or_comm, ← Nat.two_pow_add_eq_or_of_lt hlow]
  omega

theorem CBigNum.toNat_getCompact (hx : x < 2 ^ 256) : (CBigNum.getCompact x).toNat = compactOf x := by
  have hlt := mantissa_lt (x := x) rfl
  have hword := compactWord_lt x
  have hsize := compactSize_le hx
  have hmantissa : (if (size x + 7) / 8 ≤ 3 then ofNat (x * 2 ^ (8 * (3 - (size x + 7) / 8)))
      else ofNat (x / 2 ^ (8 * ((size x + 7) / 8 - 3)))).toNat =
      if (size x + 7) / 8 ≤ 3 then x * 2 ^ (8 * (3 - (size x + 7) / 8))
      else x / 2 ^ (8 * ((size x + 7) / 8 - 3)) := by
    by_cases h3 : (size x + 7) / 8 ≤ 3
    · rw [if_pos h3] at hlt
      rw [if_pos h3, if_pos h3, toNat_ofNat', mod_eq_of_lt (by omega)]
    · rw [if_neg h3] at hlt
      rw [if_neg h3, if_neg h3, toNat_ofNat', mod_eq_of_lt (by omega)]
  obtain ⟨hfst, hsnd⟩ := normalise_eq rfl hmantissa
  rw [CBigNum.getCompact, Int.natAbs_natCast, if_neg (by omega : ¬ (x : Int) < 0)]
  show toNat ((_ ||| _) ||| 0) = _
  rw [toNat_or, UInt32.toNat_zero, Nat.or_zero, toNat_compact (by rw [hfst]; exact hword) (by rw [hsnd]; omega),
    hfst, hsnd, compactOf]

namespace BaseUint

/-- The mantissa that the limbs give. -/
theorem toNat_mantissa (a : BaseUint 8) {n : Nat} (hn : n = (size a.value + 7) / 8) :
    (if n ≤ 3 then (a.getLow64 <<< UInt64.ofNat (8 * (3 - n))).toUInt32
      else (a.shiftRight (ofNat (8 * (n - 3)))).getLow64.toUInt32).toNat =
      if n ≤ 3 then a.value * 2 ^ (8 * (3 - n)) else a.value / 2 ^ (8 * (n - 3)) := by
  have hlt := mantissa_lt hn
  have hsize : size a.value ≤ 256 := Nat.size_le.mpr a.value_lt
  by_cases h3 : n ≤ 3
  · rw [if_pos h3] at hlt
    have hval : a.value < 2 ^ 24 := by
      apply Nat.lt_of_lt_of_le (Nat.lt_size_self a.value)
      exact Nat.pow_le_pow_right (by omega) (by omega)
    have hshift : (UInt64.ofNat (8 * (3 - n))).toNat % 64 = 8 * (3 - n) := by
      rw [UInt64.toNat_ofNat']
      omega
    rw [if_pos h3, if_pos h3, UInt64.toNat_toUInt32, UInt64.toNat_shiftLeft, hshift, toNat_getLow64, Nat.shiftLeft_eq,
      mod_eq_of_lt (by omega : a.value < 2 ^ 64), mod_eq_of_lt (by omega : _ < 2 ^ 64),
      mod_eq_of_lt (by omega)]
  · rw [if_neg h3] at hlt
    have hshift : (ofNat (8 * (n - 3))).toNat = 8 * (n - 3) := by
      rw [toNat_ofNat']
      omega
    rw [if_neg h3, if_neg h3, UInt64.toNat_toUInt32, toNat_getLow64, value_shiftRight, hshift,
      Nat.shiftRight_eq_div_pow, mod_eq_of_lt (by omega : _ < 2 ^ 64), mod_eq_of_lt (by omega)]

/-- A mantissa below the bit of the sign passes the assertion. -/
theorem and_not_mask (h : word.toNat < 2 ^ 23) : word &&& ~~~0x007fffff = 0 := by
  apply UInt32.toNat_inj.mp
  have hmask : (~~~0x007fffff : UInt32).toNat = 2 ^ 23 * 511 := by decide
  rw [toNat_and, hmask]
  apply Nat.eq_of_testBit_eq
  intro k
  rw [Nat.testBit_and, Nat.testBit_two_pow_mul]
  by_cases hk : 23 ≤ k
  · have hzero : word.toNat.testBit k = false :=
      Nat.testBit_lt_two_pow (Nat.lt_of_lt_of_le h (Nat.pow_le_pow_right (by omega) hk))
    simp [hzero]
  · simp [hk]

theorem getCompact_eq (a : BaseUint 8) :
    ∃ nBits, a.getCompact false = some nBits ∧ nBits.toNat = compactOf a.value := by
  have hword := compactWord_lt a.value
  have hsize := compactSize_le a.value_lt
  obtain ⟨hfst, hsnd⟩ := normalise_eq rfl (toNat_mantissa a rfl)
  rw [getCompact, bits_eq, if_neg ?_]
  · refine ⟨_, rfl, ?_⟩
    show toNat ((_ ||| _) ||| 0) = _
    rw [toNat_or, UInt32.toNat_zero, Nat.or_zero, toNat_compact (by rw [hfst]; exact hword) (by rw [hsnd]; omega),
      hfst, hsnd, compactOf]
  · intro hc
    cases hc with
    | inl hmask => exact hmask (and_not_mask (by rw [hfst]; exact hword))
    | inr hbig =>
      rw [hsnd] at hbig
      omega

end BaseUint

/-! ## Decoding -/

/-- The number that the compact form says, without its sign. -/
def compactValue (nBits : Nat) : Nat :=
  if nBits / 2 ^ 24 ≤ 3 then nBits % 2 ^ 23 / 2 ^ (8 * (3 - nBits / 2 ^ 24))
  else nBits % 2 ^ 23 * 2 ^ (8 * (nBits / 2 ^ 24 - 3))

theorem setCompact_eq (nBits : Nat) :
    setCompact nBits = if nBits / 2 ^ 23 % 2 = 1 then -(compactValue nBits : Int) else compactValue nBits :=
  rfl

namespace BaseUint

section

variable (nBits : UInt32)

theorem toNat_exponent : (nBits >>> 24).toNat = nBits.toNat / 2 ^ 24 := by
  rw [toNat_shiftRight, Nat.shiftRight_eq_div_pow]
  rfl

theorem toNat_mask : (nBits &&& 0x007fffff).toNat = nBits.toNat % 2 ^ 23 := by
  rw [toNat_and]
  exact Nat.and_two_pow_sub_one_eq_mod _ 23

theorem signBit_iff : nBits &&& 0x00800000 ≠ 0 ↔ nBits.toNat / 2 ^ 23 % 2 = 1 := by
  have hbit : (1 <<< ofNat 23 : UInt32) = 0x00800000 := by decide
  have hand := and_one_shiftLeft nBits (n := 23) (by omega)
  rw [hbit] at hand
  rw [hand, Nat.testBit_eq_decide_div_mod_eq]
  exact decide_eq_true_iff

theorem le_three_iff (nSize : UInt32) : nSize ≤ 3 ↔ nSize.toNat ≤ 3 :=
  UInt32.le_iff_toNat_le

/-- The mantissa once the exponents below 3 have been dealt with. -/
theorem toNat_word (nSize nWord : UInt32) :
    (shiftWord nSize nWord).toNat =
      if nSize.toNat ≤ 3 then nWord.toNat / 2 ^ (8 * (3 - nSize.toNat)) else nWord.toNat := by
  rw [shiftWord]
  by_cases h3 : nSize ≤ 3
  · have h3' := (le_three_iff nSize).mp h3
    have hsub : (3 - nSize).toNat = 3 - nSize.toNat := UInt32.toNat_sub_of_le _ _ h3
    have hshift : (8 * (3 - nSize)).toNat % 32 = 8 * (3 - nSize.toNat) := by
      rw [toNat_mul, hsub]
      show 8 * (3 - nSize.toNat) % 2 ^ 32 % 32 = _
      omega
    rw [if_pos h3, if_pos h3', toNat_shiftRight, hshift, Nat.shiftRight_eq_div_pow]
  · rw [if_neg h3, if_neg (fun h => h3 ((le_three_iff nSize).mpr h))]

/-- The mantissa moved to its place. -/
theorem value_placed (nSize nWord : UInt32) (hsize : nSize.toNat < 256) :
    (if nSize ≤ 3 then ofUInt64 nWord.toUInt64
      else (ofUInt64 nWord.toUInt64).shiftLeft (8 * (nSize - 3)) : BaseUint (6 + 2)).value =
      if nSize.toNat ≤ 3 then nWord.toNat else nWord.toNat * 2 ^ (8 * (nSize.toNat - 3)) % 2 ^ (32 * (6 + 2)) := by
  by_cases h3 : nSize ≤ 3
  · rw [if_pos h3, if_pos ((le_three_iff nSize).mp h3), value_ofUInt64, UInt32.toNat_toUInt64]
  · have h3' : ¬ nSize.toNat ≤ 3 := fun h => h3 ((le_three_iff nSize).mpr h)
    have hge : 3 ≤ nSize := UInt32.le_iff_toNat_le.mpr (by show 3 ≤ _; omega)
    have hsub : (nSize - 3).toNat = nSize.toNat - 3 := UInt32.toNat_sub_of_le _ _ hge
    have hshift : (8 * (nSize - 3)).toNat = 8 * (nSize.toNat - 3) := by
      rw [toNat_mul, hsub]
      show 8 * (nSize.toNat - 3) % 2 ^ 32 = _
      omega
    rw [if_neg h3, if_neg h3', value_shiftLeft, hshift, value_ofUInt64, UInt32.toNat_toUInt64, Nat.shiftLeft_eq]

theorem value_target : (setCompact nBits).target.value = compactValue nBits.toNat % 2 ^ 256 := by
  have hlt := nBits.toNat_lt
  have hsize : (nBits >>> 24).toNat < 256 := by
    rw [toNat_exponent]
    omega
  have hvalue := value_placed (nBits >>> 24) (shiftWord (nBits >>> 24) (nBits &&& 0x007fffff)) hsize
  rw [toNat_word, toNat_exponent, toNat_mask] at hvalue
  rw [setCompact, compactValue]
  by_cases h3 : nBits.toNat / 2 ^ 24 ≤ 3
  · have hsmall : nBits.toNat % 2 ^ 23 / 2 ^ (8 * (3 - nBits.toNat / 2 ^ 24)) < 2 ^ 256 :=
      Nat.lt_of_le_of_lt (Nat.div_le_self _ _) (by omega)
    rw [if_pos h3, if_pos h3] at hvalue
    rw [if_pos h3, mod_eq_of_lt hsmall]
    exact hvalue
  · rw [if_neg h3, if_neg h3] at hvalue
    rw [if_neg h3]
    exact hvalue

/-- The mantissa that the reports look at. -/
theorem toNat_setCompact_word : (shiftWord (nBits >>> 24) (nBits &&& 0x007fffff)).toNat =
      if nBits.toNat / 2 ^ 24 ≤ 3 then compactValue nBits.toNat else nBits.toNat % 2 ^ 23 := by
  rw [toNat_word, toNat_exponent, toNat_mask, compactValue]
  by_cases h3 : nBits.toNat / 2 ^ 24 ≤ 3
  · rw [if_pos h3, if_pos h3, if_pos h3]
  · rw [if_neg h3, if_neg h3]

theorem fNegative_iff :
    (setCompact nBits).fNegative ↔ compactValue nBits.toNat ≠ 0 ∧ nBits.toNat / 2 ^ 23 % 2 = 1 := by
  have hword := toNat_setCompact_word nBits
  have hzero : (shiftWord (nBits >>> 24) (nBits &&& 0x007fffff)) ≠ 0 ↔ compactValue nBits.toNat ≠ 0 := by
    rw [ne_eq, ne_eq, ← toNat_inj, hword]
    by_cases h3 : nBits.toNat / 2 ^ 24 ≤ 3
    · rw [if_pos h3]
      rfl
    · have hpos : 2 ^ (8 * (nBits.toNat / 2 ^ 24 - 3)) ≠ 0 := Nat.ne_of_gt (two_pow_pos _)
      rw [if_neg h3, compactValue, if_neg h3, Nat.mul_eq_zero]
      constructor
      · intro h hor
        exact h (hor.resolve_right hpos)
      · intro h hz
        exact h (.inl hz)
  rw [← signBit_iff, ← hzero, setCompact]
  show (decide _ && decide _) = true ↔ _
  rw [← Bool.decide_and, decide_eq_true_iff]

/-- A mantissa of three bytes passes 256 bits from its own exponent on. -/
theorem two_pow_le_iff {word k : Nat} (hword : word < 2 ^ 23) :
    2 ^ 256 ≤ word * 2 ^ (8 * k) ↔ word ≠ 0 ∧ (31 < k ∨ (0xff < word ∧ 30 < k) ∨ (0xffff < word ∧ 29 < k)) := by
  by_cases h0 : word = 0
  · rw [h0, Nat.zero_mul]
    simp
  · have hsize : 2 ^ 256 ≤ word * 2 ^ (8 * k) ↔ 256 < size word + 8 * k := by
      rw [← Nat.size_shiftLeft h0, lt_size, Nat.shiftLeft_eq]
    have htop : size word ≤ 23 := Nat.size_le.mpr hword
    have hpos : 0 < size word := Nat.size_pos.mpr (Nat.pos_of_ne_zero h0)
    have hone : 0xff < word ↔ 8 < size word := by rw [lt_size]; rfl
    have htwo : 0xffff < word ↔ 16 < size word := by rw [lt_size]; rfl
    rw [hsize, hone, htwo]
    omega

theorem fOverflow_iff : (setCompact nBits).fOverflow ↔ 2 ^ 256 ≤ compactValue nBits.toNat := by
  have hword := toNat_setCompact_word nBits
  have hexp := toNat_exponent nBits
  have hlt : ∀ n m : UInt32, n < m ↔ n.toNat < m.toNat := fun n m => UInt32.lt_iff_toNat_lt
  have hzero : shiftWord (nBits >>> 24) (nBits &&& 0x007fffff) ≠ 0 ↔
      (shiftWord (nBits >>> 24) (nBits &&& 0x007fffff)).toNat ≠ 0 := by
    rw [ne_eq, ne_eq, ← toNat_inj]
    rfl
  have hreport : (setCompact nBits).fOverflow = true ↔ (shiftWord (nBits >>> 24) (nBits &&& 0x007fffff)).toNat ≠ 0 ∧
        (34 < nBits.toNat / 2 ^ 24 ∨
          (0xff < (shiftWord (nBits >>> 24) (nBits &&& 0x007fffff)).toNat ∧ 33 < nBits.toNat / 2 ^ 24) ∨
          (0xffff < (shiftWord (nBits >>> 24) (nBits &&& 0x007fffff)).toNat ∧ 32 < nBits.toNat / 2 ^ 24)) := by
    rw [← hexp, ← hzero, setCompact]
    show (decide _ && (decide ((34 : UInt32) < _) || (decide ((0xff : UInt32) < _) && decide ((33 : UInt32) < _)) ||
      (decide ((0xffff : UInt32) < _) && decide ((32 : UInt32) < _)))) = true ↔ _
    rw [← Bool.decide_and, ← Bool.decide_and, ← Bool.decide_or, ← Bool.decide_or, ← Bool.decide_and,
      decide_eq_true_iff, hlt, hlt, hlt, hlt, hlt, or_assoc]
    rfl
  rw [hreport, hword, compactValue]
  by_cases h3 : nBits.toNat / 2 ^ 24 ≤ 3
  · have hsmall : nBits.toNat % 2 ^ 23 / 2 ^ (8 * (3 - nBits.toNat / 2 ^ 24)) < 2 ^ 256 :=
      Nat.lt_of_le_of_lt (Nat.div_le_self _ _) (by omega)
    rw [if_pos h3, if_pos h3]
    omega
  · rw [if_neg h3, if_neg h3, two_pow_le_iff (mod_lt _ (by omega))]
    omega

theorem compactValue_lt_of_fits (h : (setCompact nBits).fOverflow = false) : compactValue nBits.toNat < 2 ^ 256 := by
  apply Nat.lt_of_not_le
  intro hle
  rw [(fOverflow_iff nBits).mpr hle] at h
  cases h

end

end BaseUint

/-! ## Round trips -/

/-- What is left of a number in the compact form. -/
def compactKept (x : Nat) : Nat :=
  x / 2 ^ (8 * (compactSize x - 3)) * 2 ^ (8 * (compactSize x - 3))

theorem compactKept_le (x : Nat) : compactKept x ≤ x :=
  Nat.div_mul_le_self _ _

theorem compactKept_of_le_three (h : compactSize x ≤ 3) : compactKept x = x := by
  have hzero : compactSize x - 3 = 0 := by omega
  rw [compactKept, hzero]
  simp

theorem compactSize_mul_le (hx : x ≠ 0) : 8 * (compactSize x - 3) + 15 < size x ∨ compactSize x ≤ 3 := by
  have hcs : compactSize x = size x / 8 + 1 := if_neg hx
  omega

/-- What is lost is small beside the number. -/
theorem compactKept_lost (hx : x ≠ 0) : (x - compactKept x) * 2 ^ 15 < x := by
  cases compactSize_mul_le hx with
  | inl hsize =>
    have hge : 2 ^ 15 * 2 ^ (8 * (compactSize x - 3)) ≤ x := by
      rw [← pow_add, ← lt_size]
      omega
    have hmod := mod_lt x (two_pow_pos (8 * (compactSize x - 3)))
    have hsplit := Nat.div_add_mod' x (2 ^ (8 * (compactSize x - 3)))
    rw [compactKept]
    omega
  | inr hsmall =>
    rw [compactKept_of_le_three hsmall, Nat.sub_self]
    omega

theorem size_compactKept (x : Nat) : size (compactKept x) = size x := by
  by_cases hx : x = 0
  · subst hx
    rfl
  · cases compactSize_mul_le hx with
    | inl hsize =>
      have hpos : 0 < size x := Nat.size_pos.mpr (Nat.pos_of_ne_zero hx)
      have htop : 2 ^ (size x - 1) ≤ x := Nat.lt_size.mp (by omega)
      have hpow : (2 : Nat) ^ (size x - 1) =
          2 ^ (size x - 1 - 8 * (compactSize x - 3)) * 2 ^ (8 * (compactSize x - 3)) := by
        rw [← pow_add]
        congr 1
        omega
      have hkept : 2 ^ (size x - 1) ≤ compactKept x := by
        rw [hpow] at htop
        rw [hpow, compactKept]
        exact Nat.mul_le_mul_right _ ((Nat.le_div_iff_mul_le (two_pow_pos _)).mpr htop)
      have hle := Nat.size_le_size (compactKept_le x)
      have hge := Nat.lt_size.mpr hkept
      omega
    | inr hsmall => rw [compactKept_of_le_three hsmall]

theorem compactSize_compactKept (x : Nat) : compactSize (compactKept x) = compactSize x := by
  have hsize := size_compactKept x
  have hzero : compactKept x = 0 ↔ x = 0 := by
    rw [← Nat.size_eq_zero, hsize, Nat.size_eq_zero]
  rw [compactSize, compactSize, hsize]
  by_cases hx : x = 0
  · rw [if_pos hx, if_pos (hzero.mpr hx)]
  · rw [if_neg hx, if_neg (fun h => hx (hzero.mp h))]

/-- What is kept has the same compact form. -/
theorem compactOf_compactKept (x : Nat) : compactOf (compactKept x) = compactOf x := by
  have hcs := compactSize_compactKept x
  rw [compactOf, compactOf, hcs, compactWord, compactWord, hcs]
  by_cases h3 : compactSize x ≤ 3
  · rw [compactKept_of_le_three h3]
  · rw [if_neg h3, if_neg h3, compactKept, Nat.mul_div_cancel _ (two_pow_pos _)]

theorem compactValue_compactOf (x : Nat) : compactValue (compactOf x) = compactKept x := by
  have hword := compactWord_lt x
  have hexp : compactOf x / 2 ^ 24 = compactSize x := by
    rw [compactOf]
    omega
  have hmod : compactOf x % 2 ^ 23 = compactWord x := by
    rw [compactOf]
    omega
  rw [compactValue, hexp, hmod, compactWord]
  by_cases h3 : compactSize x ≤ 3
  · rw [if_pos h3, if_pos h3, Nat.mul_div_cancel _ (two_pow_pos _), compactKept_of_le_three h3]
  · rw [if_neg h3, if_neg h3, compactKept]

theorem compactOf_sign (x : Nat) : compactOf x / 2 ^ 23 % 2 = 0 := by
  have hword := compactWord_lt x
  rw [compactOf]
  omega

theorem setCompact_compactOf (x : Nat) : setCompact (compactOf x) = compactKept x := by
  rw [setCompact_eq, compactOf_sign, if_neg (by omega), compactValue_compactOf]

/-- The exact number, against the width. -/
theorem two_pow_le_exact (nBits : Nat) :
    2 ^ 256 ≤ compactValue nBits ↔
      (2 : ℚ) ^ 256 ≤ ((nBits % 2 ^ 23 : ℕ) : ℚ) * 256 ^ (((nBits / 2 ^ 24 : ℕ) : ℤ) - 3) := by
  have hexact : (2 : ℚ) ^ 256 ≤ ((nBits % 2 ^ 23 : ℕ) : ℚ) * 256 ^ (((nBits / 2 ^ 24 : ℕ) : ℤ) - 3) ↔
      2 ^ 256 * 2 ^ (8 * 3) ≤ nBits % 2 ^ 23 * 2 ^ (8 * (nBits / 2 ^ 24)) := by
    have hbase : (256 : ℚ) = 2 ^ 8 := by norm_num
    rw [zpow_sub₀ (by norm_num), zpow_natCast, ← mul_div_assoc, le_div_iff₀ (by norm_num), hbase, ← pow_mul,
      ← @Nat.cast_le ℚ]
    push_cast
    norm_num
  have hword := mod_lt nBits (by omega : 0 < 2 ^ 23)
  rw [hexact, compactValue]
  by_cases h3 : nBits / 2 ^ 24 ≤ 3
  · have hleft := Nat.div_le_self (nBits % 2 ^ 23) (2 ^ (8 * (3 - nBits / 2 ^ 24)))
    have hright : nBits % 2 ^ 23 * 2 ^ (8 * (nBits / 2 ^ 24)) ≤ 2 ^ 23 * 2 ^ (8 * 3) :=
      Nat.mul_le_mul hword.le (Nat.pow_le_pow_right (by omega) (by omega))
    rw [if_pos h3]
    omega
  · have hpow : nBits % 2 ^ 23 * 2 ^ (8 * (nBits / 2 ^ 24)) =
        nBits % 2 ^ 23 * 2 ^ (8 * (nBits / 2 ^ 24 - 3)) * 2 ^ (8 * 3) := by
      rw [Nat.mul_assoc, ← pow_add]
      congr 2
      omega
    rw [if_neg h3, hpow]
    exact (Nat.mul_le_mul_right_iff (two_pow_pos _)).symm

theorem setCompact_agrees (nBits : UInt32) :
    ((BaseUint.setCompact nBits).fOverflow ↔
      (2 : ℚ) ^ 256 ≤ ((nBits.toNat % 2 ^ 23 : ℕ) : ℚ) * 256 ^ (((nBits.toNat / 2 ^ 24 : ℕ) : ℤ) - 3)) ∧
    ((BaseUint.setCompact nBits).fNegative ↔ setCompact nBits.toNat < 0) ∧
    ((BaseUint.setCompact nBits).fOverflow = false → (BaseUint.setCompact nBits).fNegative = false →
      ((BaseUint.setCompact nBits).target.value : Int) = setCompact nBits.toNat) := by
  refine ⟨?_, ?_, fun hover hneg => ?_⟩
  · rw [BaseUint.fOverflow_iff, two_pow_le_exact]
  · rw [BaseUint.fNegative_iff, setCompact_eq]
    by_cases hsign : nBits.toNat / 2 ^ 23 % 2 = 1
    · rw [if_pos hsign]
      omega
    · rw [if_neg hsign]
      omega
  · have hfits := BaseUint.compactValue_lt_of_fits nBits hover
    have hsign : compactValue nBits.toNat ≠ 0 → ¬ nBits.toNat / 2 ^ 23 % 2 = 1 := by
      intro h0 h1
      rw [(BaseUint.fNegative_iff nBits).mpr ⟨h0, h1⟩] at hneg
      cases hneg
    rw [BaseUint.value_target, mod_eq_of_lt hfits, setCompact_eq]
    by_cases h1 : nBits.toNat / 2 ^ 23 % 2 = 1
    · have h0 : compactValue nBits.toNat = 0 := by
        by_contra h0
        exact hsign h0 h1
      rw [if_pos h1, h0]
      rfl
    · rw [if_neg h1]

theorem getCompact_agrees (x : BaseUint 8) :
    ∃ nBits : UInt32, x.getCompact false = some nBits ∧ CBigNum.getCompact x.value = nBits ∧ ∃ y : BaseUint 8,
        (BaseUint.setCompact nBits).target = y ∧ (BaseUint.setCompact nBits).fNegative = false ∧
        (BaseUint.setCompact nBits).fOverflow = false ∧ setCompact nBits.toNat = y.value ∧
        y.value ≤ x.value ∧ (x.value = 0 ∨ (x.value : ℚ) - y.value < x.value / 2 ^ 15) ∧
        y.getCompact false = some nBits ∧ CBigNum.getCompact y.value = nBits := by
  obtain ⟨nBits, hx, hnat⟩ := x.getCompact_eq
  have hkept := compactKept_le x.value
  have hlt := x.value_lt
  have hvalue : (BaseUint.setCompact nBits).target.value = compactKept x.value := by
    rw [BaseUint.value_target, hnat, compactValue_compactOf, mod_eq_of_lt (by omega)]
  have hsame : ∀ y : Nat, y < 2 ^ 256 → compactOf y = compactOf x.value → CBigNum.getCompact y = nBits := by
    intro y hy hof
    apply UInt32.toNat_inj.mp
    rw [CBigNum.toNat_getCompact hy, hof, hnat]
  refine ⟨nBits, hx, hsame _ hlt rfl, _, rfl, ?_, ?_, ?_, ?_, ?_, ?_, ?_⟩
  · have hneg := BaseUint.fNegative_iff nBits
    rw [hnat, compactOf_sign] at hneg
    exact Bool.eq_false_iff.mpr fun h => absurd (hneg.mp h).2 (by omega)
  · have hover := BaseUint.fOverflow_iff nBits
    rw [hnat, compactValue_compactOf] at hover
    exact Bool.eq_false_iff.mpr fun h => absurd (hover.mp h) (by omega)
  · rw [hnat, setCompact_compactOf, hvalue]
  · rw [hvalue]
    exact hkept
  · by_cases h0 : x.value = 0
    · exact .inl h0
    · right
      have hlost : ((x.value - compactKept x.value : ℕ) : ℚ) * 2 ^ 15 < x.value := by
        exact_mod_cast compactKept_lost h0
      rw [hvalue, lt_div_iff₀ (by norm_num), ← Nat.cast_sub hkept]
      exact hlost
  · obtain ⟨again, hy, hagain⟩ := (BaseUint.setCompact nBits).target.getCompact_eq
    have hback : again = nBits := by
      apply UInt32.toNat_inj.mp
      rw [hagain, hvalue, compactOf_compactKept, hnat]
    rw [hy, hback]
  · rw [hvalue]
    exact hsame _ (by omega) (compactOf_compactKept _)

/-- The two pairs of codecs: they decode alike, encode alike, and encoding loses little and only once. -/
theorem compact_codecs_agree :
    (∀ nBits : UInt32, ((BaseUint.setCompact nBits).fOverflow = true ↔
        (2 : ℚ) ^ 256 ≤ ((nBits.toNat % 2 ^ 23 : ℕ) : ℚ) * 256 ^ (((nBits.toNat / 2 ^ 24 : ℕ) : ℤ) - 3)) ∧
      ((BaseUint.setCompact nBits).fNegative = true ↔ setCompact nBits.toNat < 0) ∧
      ((BaseUint.setCompact nBits).fOverflow = false → (BaseUint.setCompact nBits).fNegative = false →
        ((BaseUint.setCompact nBits).target.value : Int) = setCompact nBits.toNat)) ∧
    ∀ x : BaseUint 8, ∃ nBits : UInt32, x.getCompact false = some nBits ∧ CBigNum.getCompact x.value = nBits ∧
      ∃ y : BaseUint 8, (BaseUint.setCompact nBits).target = y ∧ (BaseUint.setCompact nBits).fNegative = false ∧
        (BaseUint.setCompact nBits).fOverflow = false ∧ setCompact nBits.toNat = y.value ∧
        y.value ≤ x.value ∧ (x.value = 0 ∨ (x.value : ℚ) - y.value < x.value / 2 ^ 15) ∧
        y.getCompact false = some nBits ∧ CBigNum.getCompact y.value = nBits :=
  ⟨setCompact_agrees, getCompact_agrees⟩

/-- Nothing is lost of 0, and nothing is less than nothing. -/
theorem compact_zero_not_below :
    ¬ ∀ (x : BaseUint 8) (nBits : UInt32), x.getCompact false = some nBits →
      (x.value : ℚ) - setCompact nBits.toNat < x.value / 2 ^ 15 := by
  intro hall
  obtain ⟨nBits, hx, hnat⟩ := (BaseUint.zero : BaseUint 8).getCompact_eq
  have hzero := hall BaseUint.zero nBits hx
  have hcompact : compactOf 0 = 0 := by decide
  rw [hnat, BaseUint.value_zero, hcompact] at hzero
  have hdecoded : setCompact 0 = 0 := by decide
  rw [hdecoded] at hzero
  norm_num at hzero

end Reddcoin
