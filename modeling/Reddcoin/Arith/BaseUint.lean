import Reddcoin.Lib.Limbs

/-!
# Unsigned integers in limbs

`base_uint` of `uint256.h` and `uint256.cpp`: `WIDTH` limbs of 32 bits, the least significant first.  Every operator
is the loop over the limbs that the source runs, and is proved to be the operation on the number the limbs say.
-/

namespace Reddcoin

variable {i : Nat} {s : UInt32}

/-- `base_uint<BITS>` with `w` for `WIDTH`. -/
structure BaseUint (w : Nat) where
  pn : Vector UInt32 w
deriving DecidableEq

namespace BaseUint

variable {w : Nat}

/-! ## The limbs -/

def get (a : BaseUint w) (i : Nat) (h : i < w) : UInt32 :=
  a.pn[i]

def set (a : BaseUint w) (i : Nat) (h : i < w) (v : UInt32) : BaseUint w :=
  ⟨a.pn.set i v⟩

def zero : BaseUint w :=
  ⟨Vector.replicate w 0⟩

/-- The limb at a place, 0 beyond the width. -/
def limb (a : BaseUint w) (i : Nat) : Nat :=
  if h : i < w then (a.get i h).toNat else 0

/-- The number that the limbs say. -/
def value (a : BaseUint w) : Nat :=
  Limbs.value 32 a.limb w

theorem limb_of_lt (a : BaseUint w) (h : i < w) : a.limb i = (a.get i h).toNat :=
  dif_pos h

theorem limb_of_le (a : BaseUint w) (h : w ≤ i) : a.limb i = 0 :=
  dif_neg (by omega)

theorem limb_lt (a : BaseUint w) (i : Nat) : a.limb i < 2 ^ 32 := by
  by_cases h : i < w
  · rw [limb_of_lt a h]
    exact UInt32.toNat_lt _
  · rw [limb_of_le a (by omega)]
    omega

theorem value_lt (a : BaseUint w) : a.value < 2 ^ (32 * w) :=
  Limbs.value_lt fun i _ => a.limb_lt i

@[simp] theorem limb_zero (i : Nat) : (zero : BaseUint w).limb i = 0 := by
  by_cases h : i < w
  · rw [limb_of_lt _ h]
    simp [get, zero]
  · exact limb_of_le _ (by omega)

@[simp] theorem value_zero : (zero : BaseUint w).value = 0 :=
  Limbs.value_eq_zero fun i _ => limb_zero i

theorem limb_set (a : BaseUint w) (h : i < w) (v : UInt32) : (a.set i h v).limb = Function.update a.limb i v.toNat := by
  funext k
  by_cases hk : k < w
  · rw [limb_of_lt _ hk]
    by_cases hki : k = i
    · subst hki
      simp [get, set]
    · rw [Function.update_of_ne hki, limb_of_lt a hk]
      simp [get, set, Vector.getElem_set_ne, Ne.symm hki]
  · rw [limb_of_le _ (by omega), Function.update_of_ne (by omega), limb_of_le _ (by omega)]

theorem value_set (a : BaseUint w) (h : i < w) (v : UInt32) :
    (a.set i h v).value + a.limb i * 2 ^ (32 * i) = a.value + v.toNat * 2 ^ (32 * i) := by
  rw [value, limb_set]
  exact Limbs.value_update h _

theorem testBit_limb (a : BaseUint w) (i : Nat) {k : Nat} (hk : k < 32) :
    (a.limb i).testBit k = a.value.testBit (32 * i + k) := by
  have hdiv : (32 * i + k) / 32 = i := by omega
  have hmod : (32 * i + k) % 32 = k := by omega
  rw [value, Limbs.testBit_value (by omega) (fun i _ => a.limb_lt i), hdiv, hmod]
  by_cases h : i < w
  · simp [h]
  · rw [limb_of_le a (by omega)]
    simp

theorem testBit_value (a : BaseUint w) (k : Nat) : a.value.testBit k = (a.limb (k / 32)).testBit (k % 32) := by
  have hk : 32 * (k / 32) + k % 32 = k := Nat.div_add_mod k 32
  rw [testBit_limb a _ (Nat.mod_lt _ (by omega)), hk]

/-! ## Words -/

/-- `base_uint(uint64_t)`. -/
def ofUInt64 (b : UInt64) : BaseUint w :=
  ⟨Vector.ofFn fun i => if i.val = 0 then b.toUInt32 else if i.val = 1 then (b >>> 32).toUInt32 else 0⟩

/-- `GetLow64`. -/
def getLow64 (a : BaseUint (w + 2)) : UInt64 :=
  (a.get 0 (by omega)).toUInt64 ||| (a.get 1 (by omega)).toUInt64 <<< 32

theorem limb_ofUInt64 (b : UInt64) (h : i < w) :
    (ofUInt64 b : BaseUint w).limb i = if i = 0 then b.toNat % 2 ^ 32 else if i = 1 then b.toNat / 2 ^ 32 else 0 := by
  have hb := b.toNat_lt
  have hget : (ofUInt64 b : BaseUint w).get i h =
      if i = 0 then b.toUInt32 else if i = 1 then (b >>> 32).toUInt32 else 0 := by
    simp [get, ofUInt64]
  rw [limb_of_lt _ h, hget]
  by_cases h0 : i = 0
  · rw [if_pos h0, if_pos h0]
    rfl
  · by_cases h1 : i = 1
    · rw [if_neg h0, if_neg h0, if_pos h1, if_pos h1, UInt64.toNat_toUInt32, UInt64.toNat_shiftRight,
        Nat.shiftRight_eq_div_pow]
      show b.toNat / 2 ^ 32 % 2 ^ 32 = _
      omega
    · rw [if_neg h0, if_neg h0, if_neg h1, if_neg h1]
      rfl

/-- A number of at least two limbs by its two low ones. -/
theorem value_two (a : BaseUint (w + 2)) :
    a.value = a.limb 0 + a.limb 1 * 2 ^ 32 + 2 ^ 64 * Limbs.value 32 (fun i => a.limb (2 + i)) w := by
  have hlow : Limbs.value 32 a.limb 2 = a.limb 0 + a.limb 1 * 2 ^ 32 := by
    rw [Limbs.value_succ, Limbs.value_succ, Limbs.value_zero]
    omega
  have hsplit := Limbs.value_split 32 a.limb 2 w
  rw [hlow, Nat.add_comm 2 w] at hsplit
  exact hsplit

theorem value_ofUInt64 (b : UInt64) : (ofUInt64 b : BaseUint (w + 2)).value = b.toNat := by
  have hhigh : Limbs.value 32 (fun i => (ofUInt64 b : BaseUint (w + 2)).limb (2 + i)) w = 0 := by
    apply Limbs.value_eq_zero
    intro i hi
    rw [limb_ofUInt64 b (by omega), if_neg (by omega), if_neg (by omega)]
  rw [value_two, hhigh, limb_ofUInt64 b (by omega), limb_ofUInt64 b (by omega), if_pos rfl, if_neg (by omega),
    if_pos rfl]
  omega

theorem toNat_getLow64 (a : BaseUint (w + 2)) : a.getLow64.toNat = a.value % 2 ^ 64 := by
  have h0 := a.limb_lt 0
  have h1 := a.limb_lt 1
  have hor : a.getLow64.toNat = 2 ^ 32 * a.limb 1 ||| a.limb 0 := by
    rw [getLow64, UInt64.toNat_or, UInt64.toNat_shiftLeft, UInt32.toNat_toUInt64, UInt32.toNat_toUInt64,
      ← limb_of_lt a (by omega), ← limb_of_lt a (by omega), Nat.or_comm, Nat.shiftLeft_eq]
    congr 1
    show a.limb 1 * 2 ^ 32 % 2 ^ 64 = _
    omega
  rw [hor, ← Nat.two_pow_add_eq_or_of_lt h0, value_two]
  omega

/-! ## Shifts -/

/-- `pn[i] |= v`. -/
def orAt (a : BaseUint w) (i : Nat) (h : i < w) (v : UInt32) : BaseUint w :=
  a.set i h (a.get i h ||| v)

theorem testBit_orAt (a : BaseUint w) (h : i < w) (v : UInt32) (k : Nat) :
    (a.orAt i h v).value.testBit k = (a.value.testBit k || (decide (k / 32 = i) && v.toNat.testBit (k % 32))) := by
  rw [testBit_value, testBit_value, orAt, limb_set]
  by_cases hk : k / 32 = i
  · subst hk
    rw [Function.update_self, UInt32.toNat_or, Nat.testBit_or, limb_of_lt a h]
    simp
  · rw [Function.update_of_ne hk]
    simp [hk]

theorem testBit_get_shiftRight (a : BaseUint w) (h : i < w) {t : UInt32} (ht : t.toNat < 32) (k : Nat) :
    (a.get i h >>> t).toNat.testBit k = (decide (k + t.toNat < 32) && a.value.testBit (32 * i + (k + t.toNat))) := by
  rw [UInt32.toNat_shiftRight, Nat.mod_eq_of_lt ht, Nat.testBit_shiftRight, ← limb_of_lt a h, Nat.add_comm]
  by_cases hk : k + t.toNat < 32
  · rw [testBit_limb a i hk]
    simp [hk]
  · have hzero : (a.limb i).testBit (k + t.toNat) = false := by
      apply Nat.testBit_lt_two_pow
      apply Nat.lt_of_lt_of_le (a.limb_lt i)
      exact Nat.pow_le_pow_right (by omega) (by omega)
    simp [hzero, hk]

theorem testBit_get_shiftLeft (a : BaseUint w) (h : i < w) {t : UInt32} (ht : t.toNat < 32) {k : Nat} (hk : k < 32) :
    (a.get i h <<< t).toNat.testBit k = (decide (t.toNat ≤ k) && a.value.testBit (32 * i + (k - t.toNat))) := by
  rw [UInt32.toNat_shiftLeft, Nat.mod_eq_of_lt ht, Nat.testBit_mod_two_pow, Nat.testBit_shiftLeft, ← limb_of_lt a h,
    testBit_limb a i (by omega)]
  simp [hk]

/-- `operator<<=`. -/
def shiftLeft (a : BaseUint w) (shift : UInt32) : BaseUint w :=
  let k := (shift / 32).toNat
  let shift := shift % 32
  Nat.fold w (fun i h pn =>
    let pn := if hk : i + k + 1 < w ∧ shift ≠ 0 then pn.orAt (i + k + 1) hk.1 (a.get i h >>> (32 - shift)) else pn
    if hk : i + k < w then pn.orAt (i + k) hk (a.get i h <<< shift) else pn) zero

theorem testBit_carry_left (a pn : BaseUint w) (h : i < w) (k : Nat) (hs : s.toNat < 32) (n : Nat) :
    (if hk : i + k + 1 < w ∧ s ≠ 0 then pn.orAt (i + k + 1) hk.1 (a.get i h >>> (32 - s)) else pn).value.testBit n =
      (pn.value.testBit n || (decide (n / 32 = i + k + 1 ∧ n < 32 * w ∧ n % 32 < s.toNat) &&
        a.value.testBit (n - (32 * k + s.toNat)))) := by
  by_cases hk : i + k + 1 < w ∧ s ≠ 0
  · have hpos : 0 < s.toNat := Nat.pos_of_ne_zero fun h0 => hk.2 (UInt32.toNat_inj.mp h0)
    have ht : (32 - s).toNat = 32 - s.toNat := UInt32.toNat_sub_of_le _ _ (UInt32.le_iff_toNat_le.mpr (by simpa using hs.le))
    rw [dif_pos hk, testBit_orAt, testBit_get_shiftRight a h (by omega), ht]
    by_cases hn : n / 32 = i + k + 1 ∧ n % 32 < s.toNat
    · have hin : n < 32 * w := by omega
      have hlow : n % 32 + (32 - s.toNat) < 32 := by omega
      have hplace : 32 * i + (n % 32 + (32 - s.toNat)) = n - (32 * k + s.toNat) := by omega
      rw [hplace]
      simp [hn, hin, hlow]
    · by_cases hdiv : n / 32 = i + k + 1
      · have hlow : ¬ n % 32 + (32 - s.toNat) < 32 := by omega
        have hout : ¬ n % 32 < s.toNat := by omega
        simp [hlow, hout]
      · simp [hdiv]
  · rw [dif_neg hk]
    have hout : ¬ (n / 32 = i + k + 1 ∧ n < 32 * w ∧ n % 32 < s.toNat) := by
      rintro ⟨hdiv, hin, hlow⟩
      apply hk
      refine ⟨by omega, fun h0 => ?_⟩
      rw [h0] at hlow
      exact absurd hlow (by simp)
    rw [decide_eq_false hout]
    simp

theorem testBit_main_left (a pn : BaseUint w) (h : i < w) (k : Nat) (hs : s.toNat < 32) (n : Nat) :
    (if hk : i + k < w then pn.orAt (i + k) hk (a.get i h <<< s) else pn).value.testBit n =
      (pn.value.testBit n || (decide (n / 32 = i + k ∧ n < 32 * w ∧ s.toNat ≤ n % 32) &&
        a.value.testBit (n - (32 * k + s.toNat)))) := by
  by_cases hk : i + k < w
  · rw [dif_pos hk, testBit_orAt, testBit_get_shiftLeft a h hs (Nat.mod_lt _ (by omega))]
    by_cases hn : n / 32 = i + k ∧ s.toNat ≤ n % 32
    · have hin : n < 32 * w := by omega
      have hplace : 32 * i + (n % 32 - s.toNat) = n - (32 * k + s.toNat) := by omega
      rw [hplace]
      simp [hn, hin]
    · by_cases hdiv : n / 32 = i + k
      · have hout : ¬ s.toNat ≤ n % 32 := by omega
        simp [hout]
      · simp [hdiv]
  · rw [dif_neg hk]
    have hout : ¬ (n / 32 = i + k ∧ n < 32 * w ∧ s.toNat ≤ n % 32) := by omega
    rw [decide_eq_false hout]
    simp

/-- The number shifted to the left, bit by bit. -/
theorem testBit_shiftLeft (a : BaseUint w) (shift : UInt32) (n : Nat) :
    (a.shiftLeft shift).value.testBit n =
      (decide (n < 32 * w ∧ shift.toNat ≤ n) && a.value.testBit (n - shift.toNat)) := by
  have hK : (shift / 32).toNat = shift.toNat / 32 := by simp
  have hs : (shift % 32).toNat = shift.toNat % 32 := by simp
  suffices hloop : ∀ n, (a.shiftLeft shift).value.testBit n =
      (decide (n < 32 * w ∧ shift.toNat ≤ n ∧ n - shift.toNat < 32 * w) && a.value.testBit (n - shift.toNat)) by
    rw [hloop n]
    congr 1
    apply decide_eq_decide.mpr
    omega
  unfold shiftLeft
  apply Limbs.fold_invariant fun i (pn : BaseUint w) => ∀ n, pn.value.testBit n =
    (decide (n < 32 * w ∧ shift.toNat ≤ n ∧ n - shift.toNat < 32 * i) && a.value.testBit (n - shift.toNat))
  · intro n
    simp
  · intro i h pn ih n
    have hplace : 32 * (shift / 32).toNat + (shift % 32).toNat = shift.toNat := by omega
    show (BaseUint.value _).testBit n = _
    rw [testBit_main_left a _ h _ (by omega), testBit_carry_left a _ h _ (by omega), ih, hplace, ← Bool.and_or_distrib_right,
      ← Bool.and_or_distrib_right, ← Bool.decide_or, ← Bool.decide_or]
    congr 1
    apply decide_eq_decide.mpr
    omega

theorem value_shiftLeft (a : BaseUint w) (shift : UInt32) :
    (a.shiftLeft shift).value = a.value <<< shift.toNat % 2 ^ (32 * w) := by
  apply Nat.eq_of_testBit_eq
  intro n
  rw [testBit_shiftLeft, Nat.testBit_mod_two_pow, Nat.testBit_shiftLeft, Bool.decide_and, Bool.and_assoc]

/-- `operator>>=`. -/
def shiftRight (a : BaseUint w) (shift : UInt32) : BaseUint w :=
  let k := (shift / 32).toNat
  let shift := shift % 32
  Nat.fold w (fun i h pn =>
    let pn := if hk : k + 1 ≤ i ∧ shift ≠ 0 then
        pn.orAt (i - k - 1) (by omega) (a.get i h <<< (32 - shift)) else pn
    if k ≤ i then pn.orAt (i - k) (by omega) (a.get i h >>> shift) else pn) zero

theorem testBit_carry_right (a pn : BaseUint w) (h : i < w) (k : Nat) (hs : s.toNat < 32) (n : Nat) :
    (if hk : k + 1 ≤ i ∧ s ≠ 0 then pn.orAt (i - k - 1) (by omega) (a.get i h <<< (32 - s)) else pn).value.testBit n =
      (pn.value.testBit n || (decide (n / 32 + k + 1 = i ∧ 32 ≤ n % 32 + s.toNat) &&
        a.value.testBit (n + (32 * k + s.toNat)))) := by
  by_cases hk : k + 1 ≤ i ∧ s ≠ 0
  · have hpos : 0 < s.toNat := Nat.pos_of_ne_zero fun h0 => hk.2 (UInt32.toNat_inj.mp h0)
    have ht : (32 - s).toNat = 32 - s.toNat := UInt32.toNat_sub_of_le _ _ (UInt32.le_iff_toNat_le.mpr (by simpa using hs.le))
    rw [dif_pos hk, testBit_orAt, testBit_get_shiftLeft a h (by omega) (Nat.mod_lt _ (by omega)), ht]
    by_cases hn : n / 32 + k + 1 = i ∧ 32 ≤ n % 32 + s.toNat
    · have hdiv : n / 32 = i - k - 1 := by omega
      have hlow : 32 - s.toNat ≤ n % 32 := by omega
      have hplace : 32 * i + (n % 32 - (32 - s.toNat)) = n + (32 * k + s.toNat) := by omega
      rw [hplace, decide_eq_true hn, decide_eq_true hdiv, decide_eq_true hlow, Bool.true_and]
    · by_cases hdiv : n / 32 = i - k - 1
      · have hlow : ¬ 32 ≤ n % 32 + s.toNat := by omega
        have hout : ¬ 32 - s.toNat ≤ n % 32 := by omega
        simp [hlow, hout]
      · simp [hdiv, hn]
  · rw [dif_neg hk]
    have hout : ¬ (n / 32 + k + 1 = i ∧ 32 ≤ n % 32 + s.toNat) := by
      rintro ⟨hdiv, hlow⟩
      apply hk
      refine ⟨by omega, fun h0 => ?_⟩
      rw [h0] at hlow
      simp at hlow
      omega
    rw [decide_eq_false hout]
    simp

theorem testBit_main_right (a pn : BaseUint w) (h : i < w) (k : Nat) (hs : s.toNat < 32) (n : Nat) :
    (if k ≤ i then pn.orAt (i - k) (by omega) (a.get i h >>> s) else pn).value.testBit n =
      (pn.value.testBit n || (decide (n / 32 + k = i ∧ n % 32 + s.toNat < 32) &&
        a.value.testBit (n + (32 * k + s.toNat)))) := by
  by_cases hk : k ≤ i
  · rw [if_pos hk, testBit_orAt, testBit_get_shiftRight a h hs]
    by_cases hn : n / 32 + k = i ∧ n % 32 + s.toNat < 32
    · have hdiv : n / 32 = i - k := by omega
      have hplace : 32 * i + (n % 32 + s.toNat) = n + (32 * k + s.toNat) := by omega
      rw [hplace, decide_eq_true hn, decide_eq_true hdiv, decide_eq_true hn.2, Bool.true_and]
    · by_cases hdiv : n / 32 = i - k
      · have hlow : ¬ n % 32 + s.toNat < 32 := by omega
        simp [hlow]
      · simp [hdiv, hn]
  · rw [if_neg hk]
    have hout : ¬ (n / 32 + k = i ∧ n % 32 + s.toNat < 32) := by omega
    rw [decide_eq_false hout]
    simp

theorem testBit_shiftRight (a : BaseUint w) (shift : UInt32) (n : Nat) :
    (a.shiftRight shift).value.testBit n = a.value.testBit (n + shift.toNat) := by
  have hK : (shift / 32).toNat = shift.toNat / 32 := by simp
  have hs : (shift % 32).toNat = shift.toNat % 32 := by simp
  suffices hloop : ∀ n, (a.shiftRight shift).value.testBit n =
      (decide (n + shift.toNat < 32 * w) && a.value.testBit (n + shift.toNat)) by
    rw [hloop n]
    by_cases hn : n + shift.toNat < 32 * w
    · simp [hn]
    · have hzero : a.value.testBit (n + shift.toNat) = false := by
        apply Nat.testBit_lt_two_pow
        apply Nat.lt_of_lt_of_le a.value_lt
        exact Nat.pow_le_pow_right (by omega) (by omega)
      simp [hzero]
  unfold shiftRight
  apply Limbs.fold_invariant fun i (pn : BaseUint w) => ∀ n, pn.value.testBit n =
    (decide (n + shift.toNat < 32 * i) && a.value.testBit (n + shift.toNat))
  · intro n
    simp
  · intro i h pn ih n
    have hplace : 32 * (shift / 32).toNat + (shift % 32).toNat = shift.toNat := by omega
    show (BaseUint.value _).testBit n = _
    rw [testBit_main_right a _ h _ (by omega), testBit_carry_right a _ h _ (by omega), ih, hplace,
      ← Bool.and_or_distrib_right, ← Bool.and_or_distrib_right, ← Bool.decide_or, ← Bool.decide_or]
    congr 1
    apply decide_eq_decide.mpr
    omega

theorem value_shiftRight (a : BaseUint w) (shift : UInt32) :
    (a.shiftRight shift).value = a.value >>> shift.toNat := by
  apply Nat.eq_of_testBit_eq
  intro n
  rw [testBit_shiftRight, Nat.testBit_shiftRight, Nat.add_comm]

end BaseUint

end Reddcoin
