import Reddcoin.Arith.Compact
import Reddcoin.Chain.BlockIndex

/-!
# The work of a block

`GetBlockProof` of `pow.cpp` over the limbs, and what the operators it uses compute.
-/

namespace Reddcoin

namespace BaseUint

/-- `GetBlockProof`; `none` is the error for a division by zero. -/
def getBlockProof (nBits : UInt32) : Option (BaseUint 8) :=
  let bnTarget := (setCompact nBits).target
  if (setCompact nBits).fNegative || (setCompact nBits).fOverflow || equalTo (w := 6) bnTarget 0 then
    some (ofUInt64 0)
  else (bnTarget.compl.divide (bnTarget.add (ofUInt64 1))).map fun quotient => quotient.add (ofUInt64 1)

/-- A target that fits leaves room for its successor: beyond three bytes it is even. -/
theorem compactValue_succ_lt {nBits : Nat} (h : compactValue nBits < 2 ^ 256) : compactValue nBits + 1 < 2 ^ 256 := by
  have hmod := Nat.mod_lt nBits (by omega : 0 < 2 ^ 23)
  rw [compactValue] at h ⊢
  by_cases h3 : nBits / 2 ^ 24 ≤ 3
  · have hle := Nat.div_le_self (nBits % 2 ^ 23) (2 ^ (8 * (3 - nBits / 2 ^ 24)))
    rw [if_pos h3]
    omega
  · have heven : nBits % 2 ^ 23 * 2 ^ (8 * (nBits / 2 ^ 24 - 3)) =
        2 * (nBits % 2 ^ 23 * 2 ^ (8 * (nBits / 2 ^ 24 - 3) - 1)) := by
      rw [Nat.mul_left_comm, ← Nat.pow_succ']
      congr 2
      omega
    rw [if_neg h3] at h ⊢
    omega

/-- The quotient that avoids the number `2 ^ 256`. -/
theorem divide_succ (a : BaseUint 8) (hroom : a.value + 1 < 2 ^ 256) (hpos : 0 < a.value) :
    ∃ p, (a.compl.divide (a.add (ofUInt64 1))).map (fun quotient => quotient.add (ofUInt64 1)) = some p ∧
      p.value = 2 ^ 256 / (a.value + 1) := by
  have hcompl := a.value_compl
  have hone : (ofUInt64 1 : BaseUint (6 + 2)).value = 1 := value_ofUInt64 1
  have hsucc : (a.add (ofUInt64 1)).value = a.value + 1 := by
    rw [value_add, hone, Nat.mod_eq_of_lt hroom]
  obtain ⟨q, hq, hvalue⟩ := divide_value (by omega) (by omega) a.compl (a.add (ofUInt64 1)) (by omega)
  have hquotient : q.value + 1 = 2 ^ 256 / (a.value + 1) := by
    have hcomplValue : a.compl.value = 2 ^ 256 - (a.value + 1) := by omega
    rw [hvalue, hsucc, hcomplValue]
    exact (Nat.div_eq_sub_div (by omega) (by omega)).symm
  have hhalf : 2 ^ 256 / (a.value + 1) ≤ 2 ^ 256 / 2 := Nat.div_le_div_left (by omega) (by omega)
  refine ⟨q.add (ofUInt64 1), by rw [hq]; rfl, ?_⟩
  rw [value_add, hone, hquotient, Nat.mod_eq_of_lt]
  show _ < 2 ^ 256
  omega

theorem getBlockProof_value {nBits : UInt32} (hneg : (setCompact nBits).fNegative = false)
    (hover : (setCompact nBits).fOverflow = false) (hpos : 0 < (setCompact nBits).target.value) :
    ∃ p, getBlockProof nBits = some p ∧ p.value = 2 ^ 256 / ((setCompact nBits).target.value + 1) := by
  have hfits := compactValue_lt_of_fits nBits hover
  have hroom : (setCompact nBits).target.value + 1 < 2 ^ 256 := by
    rw [value_target, Nat.mod_eq_of_lt hfits]
    exact compactValue_succ_lt hfits
  have hzero : equalTo (w := 6) (setCompact nBits).target 0 = false := by
    apply Bool.eq_false_iff.mpr
    intro h
    have hvalue := (equalTo_zero (w := 6) (setCompact nBits).target).mp h
    omega
  have hguard : ¬ ((setCompact nBits).fNegative || (setCompact nBits).fOverflow ||
      equalTo (w := 6) (setCompact nBits).target 0) = true := by
    rw [hneg, hover, hzero]
    exact Bool.noConfusion
  rw [getBlockProof, if_neg hguard]
  exact divide_succ _ hroom hpos

/-- The work as the block index has it, by the number that the compact form says. -/
theorem getBlockProof_compactValue (nBits : Nat) :
    Reddcoin.getBlockProof nBits =
      if (compactValue nBits ≠ 0 ∧ nBits / 2 ^ 23 % 2 = 1) ∨ 2 ^ 256 ≤ compactValue nBits ∨
        compactValue nBits % 2 ^ 256 = 0 then 0
      else (2 ^ 256 - 1 - compactValue nBits % 2 ^ 256) / (compactValue nBits % 2 ^ 256 + 1) + 1 := by
  have hmod := Nat.mod_lt nBits (by omega : 0 < 2 ^ 23)
  rw [Reddcoin.getBlockProof]
  by_cases h3 : nBits / 2 ^ 24 ≤ 3
  · have hvalue : nBits % 2 ^ 23 / 2 ^ (8 * (3 - nBits / 2 ^ 24)) = compactValue nBits := by
      rw [compactValue, if_pos h3]
    have hle := Nat.div_le_self (nBits % 2 ^ 23) (2 ^ (8 * (3 - nBits / 2 ^ 24)))
    have hsmall : compactValue nBits % 2 ^ 256 = compactValue nBits := Nat.mod_eq_of_lt (by omega)
    simp only [if_pos h3]
    rw [hsmall, hvalue]
    congr 1
    apply propext
    omega
  · have hvalue : nBits % 2 ^ 23 * 2 ^ (8 * (nBits / 2 ^ 24 - 3)) = compactValue nBits := by
      rw [compactValue, if_neg h3]
    have hover := two_pow_le_iff (k := nBits / 2 ^ 24 - 3) hmod
    have hzero : compactValue nBits = 0 ↔ nBits % 2 ^ 23 = 0 := by
      rw [← hvalue, Nat.mul_eq_zero]
      constructor
      · intro h
        exact h.resolve_right (Nat.ne_of_gt (Nat.two_pow_pos _))
      · exact .inl
    simp only [if_neg h3]
    rw [hvalue] at hover ⊢
    congr 1
    apply propext
    omega

/-- The limbs compute the number that the work of a chain is summed up from. -/
theorem getBlockProof_eq (nBits : UInt32) :
    ∃ p, getBlockProof nBits = some p ∧ p.value = Reddcoin.getBlockProof nBits.toNat := by
  have hneg := fNegative_iff nBits
  have hover := fOverflow_iff nBits
  have hvalue := value_target nBits
  have hzero := equalTo_zero (w := 6) (setCompact nBits).target
  rw [getBlockProof_compactValue]
  by_cases hguard : ((setCompact nBits).fNegative || (setCompact nBits).fOverflow ||
      equalTo (w := 6) (setCompact nBits).target 0) = true
  · have hnone : (compactValue nBits.toNat ≠ 0 ∧ nBits.toNat / 2 ^ 23 % 2 = 1) ∨
        2 ^ 256 ≤ compactValue nBits.toNat ∨ compactValue nBits.toNat % 2 ^ 256 = 0 := by
      rw [← hneg, ← hover, ← hvalue, ← hzero, ← Bool.or_eq_true, ← Bool.or_eq_true, ← Bool.or_assoc]
      exact hguard
    refine ⟨ofUInt64 0, ?_, ?_⟩
    · rw [getBlockProof, if_pos hguard]
    · rw [if_pos hnone]
      exact value_ofUInt64 (w := 6) 0
  · have hsome : ¬ ((compactValue nBits.toNat ≠ 0 ∧ nBits.toNat / 2 ^ 23 % 2 = 1) ∨
        2 ^ 256 ≤ compactValue nBits.toNat ∨ compactValue nBits.toNat % 2 ^ 256 = 0) := by
      intro h
      apply hguard
      rw [← hneg, ← hover, ← hvalue, ← hzero, ← Bool.or_eq_true, ← Bool.or_eq_true, ← Bool.or_assoc] at h
      exact h
    have hflags := Bool.eq_false_iff.mpr hguard
    rw [Bool.or_eq_false_iff, Bool.or_eq_false_iff] at hflags
    have hpos : 0 < (setCompact nBits).target.value := by
      rw [hvalue]
      omega
    have hlt := (setCompact nBits).target.value_lt
    obtain ⟨p, hp, hwork⟩ := getBlockProof_value hflags.1.1 hflags.1.2 hpos
    refine ⟨p, hp, ?_⟩
    have hrest : 2 ^ 256 - 1 - (setCompact nBits).target.value = 2 ^ 256 - ((setCompact nBits).target.value + 1) := by
      omega
    rw [if_neg hsome, hwork, ← hvalue, hrest]
    exact Nat.div_eq_sub_div (by omega) hlt

/-- The operators against the arithmetic of the numbers: all of them agree with it, but a product that is built in its
own factor is 0. -/
theorem limb_operators_exact_iff (nBits : UInt32) (a b : BaseUint 8) (shift b32 : UInt32) (r : Operand 8) :
    (((setCompact nBits).fNegative = false → (setCompact nBits).fOverflow = false →
        0 < (setCompact nBits).target.value →
        ∃ p, getBlockProof nBits = some p ∧ p.value = 2 ^ 256 / ((setCompact nBits).target.value + 1)) ∧
      (b.value ≠ 0 → ∃ q, a.divide b = some q ∧ q.value = a.value / b.value) ∧
      (a.shiftLeft shift).value = a.value * 2 ^ shift.toNat % 2 ^ 256 ∧
      (a.shiftRight shift).value = a.value / 2 ^ shift.toNat ∧
      (a.mulWord b32).value = a.value * b32.toNat % 2 ^ 256 ∧
      (a.mulAssign r).value = a.value * (r.read a).value % 2 ^ 256) ↔
      (r = .self → a.value * a.value % 2 ^ 256 = 0) := by
  constructor
  · intro hall hself
    have hprod := hall.2.2.2.2.2
    rw [hself, mulAssign_self, value_zero] at hprod
    exact hprod.symm
  · intro hself
    refine ⟨getBlockProof_value, divide_value (by omega) (by omega) a b, ?_, ?_, value_mulWord a b32, ?_⟩
    · rw [value_shiftLeft, Nat.shiftLeft_eq]
    · rw [value_shiftRight, Nat.shiftRight_eq_div_pow]
    · cases r with
      | self =>
        rw [mulAssign_self, value_zero]
        exact (hself rfl).symm
      | other b => exact value_mulAssign_other a b

/-- Twice 2, built in place. -/
theorem mulAssign_self_two :
    ((ofUInt64 2 : BaseUint 8).mulAssign .self).value ≠
      (ofUInt64 2 : BaseUint 8).value * (Operand.self.read (ofUInt64 2 : BaseUint 8)).value % 2 ^ 256 := by
  have htwo : (ofUInt64 2 : BaseUint (6 + 2)).value = 2 := value_ofUInt64 2
  rw [mulAssign_self, value_zero, Operand.read, htwo]
  decide

end BaseUint

end Reddcoin
