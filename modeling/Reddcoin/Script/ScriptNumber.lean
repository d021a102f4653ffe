import Reddcoin.Script.Encoding

/-!
# Minimal script numbers

`CScriptNum` writes a number as the bytes of its absolute value, lowest first, with the sign in the highest bit.  What
`serialize` writes is what the constructor takes under `fRequireMinimal`.
-/

namespace Reddcoin.CScriptNum

open List

variable {front vch : Valtype} {back : UInt8} {n : Int}

theorem leNat_append (l m : List UInt8) : leNat (l ++ m) = leNat l + 256 ^ l.length * leNat m := by
  induction l with
  | nil => rw [nil_append, leNat, length_nil, Nat.pow_zero, Nat.zero_add, Nat.one_mul]
  | cons b l ih =>
    rw [cons_append, leNat, leNat, ih, length_cons, Nat.pow_succ]
    ring

theorem leNat_concat (front : Valtype) (back : UInt8) :
    leNat (front ++ [back]) = leNat front + 256 ^ front.length * back.toNat := by
  rw [leNat_append]
  rfl

/-- The number that the bytes say without the sign bit. -/
def magnitude (front : Valtype) (back : UInt8) : Nat :=
  leNat front + 256 ^ front.length * (back.toNat % 0x80)

theorem setVch_concat (front : Valtype) (back : UInt8) :
    setVch (front ++ [back]) = if 0x80 ≤ back.toNat then -(magnitude front back : Int) else magnitude front back := by
  have hback := back.toNat_lt
  have hlen : (front ++ [back]).length - 1 = front.length := by
    rw [length_append, length_singleton, Nat.add_sub_cancel]
  rw [setVch, getLast?_concat, hlen, leNat_concat]
  dsimp only
  split_ifs with hsign
  · have hsplit : back.toNat = 0x80 + back.toNat % 0x80 := by omega
    rw [magnitude]
    conv_lhs => rw [hsplit]
    push_cast
    ring
  · rw [magnitude, Nat.mod_eq_of_lt (by omega)]

theorem notMinimal_concat (front : Valtype) (back : UInt8) : notMinimal (front ++ [back]) ↔
    back.toNat % 0x80 = 0 ∧ ∀ second, front.getLast? = some second → second.toNat < 0x80 := by
  cases front using List.reverseRecOn with
  | nil | append_singleton front second => simp [notMinimal]

/-! ## Bytes of an absolute value -/

theorem leNat_pos {l : List UInt8} (hlast : l.getLast? ≠ some 0) (hne : l ≠ []) : 0 < leNat l := by
  cases l using List.reverseRecOn with
  | nil => exact absurd rfl hne
  | append_singleton l b =>
    have hb : b.toNat ≠ 0 := by
      intro hzero
      apply hlast
      rw [getLast?_concat, UInt8.toNat_inj.mp (hzero.trans UInt8.toNat_zero.symm)]
    rw [leNat_concat]
    have hpos : 0 < 256 ^ l.length * b.toNat := Nat.mul_pos (Nat.pow_pos (by omega)) (Nat.pos_of_ne_zero hb)
    omega

/-- Bytes without a zero at the end are those of their number. -/
theorem absBytes_leNat {turns : Nat} {l : List UInt8} (hlast : l.getLast? ≠ some 0) (hturns : l.length ≤ turns) :
    absBytes turns (leNat l) = l := by
  induction l generalizing turns with
  | nil =>
    cases turns with
    | zero => rfl
    | succ turns => rfl
  | cons b l ih =>
    cases turns with
    | zero => cases hturns
    | succ turns =>
      have hb := b.toNat_lt
      have hpos := leNat_pos hlast (cons_ne_nil b l)
      have hrest : l.getLast? ≠ some 0 := by
        intro hzero
        apply hlast
        rw [getLast?_cons, hzero]
        rfl
      have hdiv : (b.toNat + 256 * leNat l) / 256 = leNat l := by omega
      have hbyte : UInt8.ofNat (b.toNat + 256 * leNat l) = b := by
        apply UInt8.toNat_inj.mp
        rw [UInt8.toNat_ofNat']
        omega
      rw [leNat] at hpos
      rw [leNat, absBytes, if_neg (by omega), hbyte, hdiv, ih hrest (Nat.le_of_succ_le_succ hturns)]

/-- The bytes of a number say it and have no zero at the end. -/
theorem absBytes_spec {turns m : Nat} (hm : m < 256 ^ turns) :
    leNat (absBytes turns m) = m ∧ (absBytes turns m).getLast? ≠ some 0 ∧ (absBytes turns m).length ≤ turns := by
  induction turns generalizing m with
  | zero =>
    obtain rfl : m = 0 := Nat.lt_one_iff.mp hm
    exact ⟨rfl, by simp [absBytes], Nat.le_refl 0⟩
  | succ turns ih =>
    rw [absBytes]
    split_ifs with hzero
    · exact ⟨hzero.symm, by simp, Nat.zero_le _⟩
    · have hbyte : (UInt8.ofNat m).toNat = m % 256 := UInt8.toNat_ofNat'
      rw [Nat.pow_succ] at hm
      obtain ⟨hvalue, hlast, hlen⟩ := ih (m := m / 256) (by omega)
      refine ⟨?_, ?_, Nat.succ_le_succ hlen⟩
      · rw [leNat, hvalue, hbyte]
        omega
      · rw [getLast?_cons]
        intro hend
        cases htail : (absBytes turns (m / 256)).getLast? with
        | some b =>
          rw [htail] at hend hlast
          exact hlast hend
        | none =>
          rw [htail] at hend
          have hnil := getLast?_eq_none_iff.mp htail
          rw [hnil] at hvalue
          have hfirst : UInt8.ofNat m = 0 := Option.some.inj hend
          rw [hfirst] at hbyte
          have h0 : (0 : Nat) = m % 256 := hbyte
          have h1 : (0 : Nat) = m / 256 := hvalue
          omega

/-! ## Writing and reading -/

/-- The sign in the highest bit. -/
def signByte (n : Int) : UInt8 :=
  if n < 0 then 0x80 else 0

theorem signByte_toNat (n : Int) : (signByte n).toNat = if n < 0 then 0x80 else 0 := by
  rw [signByte]
  split_ifs <;> rfl

/-- What `serialize` makes of the bytes of the absolute value: the sign goes into their last byte when its highest bit
is free, or into a byte of its own. -/
theorem getvch_of_bytes (hback : back ≠ 0) (hlen : (front ++ [back]).length ≤ 8)
    (hn : n.natAbs = leNat (front ++ [back])) :
    getvch n = if 0x80 ≤ back.toNat then front ++ [back] ++ [signByte n] else front ++ [back + signByte n] := by
  have hlast : (front ++ [back]).getLast? ≠ some 0 := by
    rw [getLast?_concat]
    exact fun h => hback (Option.some.inj h)
  have hne : n ≠ 0 := by
    have hpos := leNat_pos hlast (by simp)
    omega
  rw [getvch, if_neg hne, hn, absBytes_leNat hlast hlen]
  dsimp only
  rw [getLast?_concat, dropLast_concat, signByte]
  dsimp only
  by_cases hneg : n < 0
  · simp [hneg]
  · simp [hneg]

/-- The bytes of the absolute value of a number. -/
theorem exists_bytes (hne : n ≠ 0) (turns : Nat) (hn : n.natAbs < 256 ^ turns) :
    ∃ front back, back ≠ 0 ∧ (front ++ [back]).length ≤ turns ∧ n.natAbs = leNat (front ++ [back]) := by
  obtain ⟨hvalue, hlast, hlen⟩ := absBytes_spec hn
  generalize absBytes turns n.natAbs = l at hvalue hlast hlen
  cases l using List.reverseRecOn with
  | nil =>
    have hzero : (0 : Nat) = n.natAbs := hvalue
    omega
  | append_singleton front back =>
    refine ⟨front, back, ?_, hlen, hvalue.symm⟩
    rintro rfl
    exact hlast (getLast?_concat ..)

/-- A number is read back from what is written, which has no byte too many. -/
theorem setVch_getvch (hn : n.natAbs < 256 ^ 8) : setVch (getvch n) = n ∧ notMinimal (getvch n) = false := by
  by_cases hne : n = 0
  · subst hne
    exact ⟨rfl, rfl⟩
  obtain ⟨front, back, hback, hlen, hvalue⟩ := exists_bytes hne 8 hn
  have hbyte := back.toNat_lt
  have hsign := signByte_toNat n
  rw [getvch_of_bytes hback hlen hvalue]
  rw [leNat_concat] at hvalue
  have hfalse : ∀ {l : Valtype}, ¬ notMinimal l = true → notMinimal l = false := Bool.eq_false_iff.mpr
  split_ifs with hhigh
  · have hmagnitude : magnitude (front ++ [back]) (signByte n) = n.natAbs := by
      have hmod : (signByte n).toNat % 0x80 = 0 := by
        rw [hsign]
        split_ifs <;> rfl
      rw [magnitude, hmod, leNat_concat, hvalue, Nat.mul_zero, Nat.add_zero]
    constructor
    · rw [setVch_concat, hmagnitude, hsign]
      split_ifs <;> omega
    · apply hfalse
      rw [notMinimal_concat]
      rintro ⟨-, hsecond⟩
      have hlow := hsecond back (getLast?_concat ..)
      omega
  · have hnonzero : back.toNat ≠ 0 := fun h0 => hback (UInt8.toNat_inj.mp (h0.trans UInt8.toNat_zero.symm))
    have hsum : (back + signByte n).toNat = back.toNat + if n < 0 then 0x80 else 0 := by
      rw [UInt8.toNat_add, hsign]
      split_ifs <;> omega
    have hmod : (back + signByte n).toNat % 0x80 = back.toNat := by
      rw [hsum]
      split_ifs <;> omega
    constructor
    · rw [setVch_concat, magnitude, hmod, ← hvalue, hsum]
      split_ifs <;> omega
    · apply hfalse
      rw [notMinimal_concat, hmod]
      exact fun h => hnonzero h.1

/-- Bytes without one too many are what is written for their number. -/
theorem getvch_setVch (hlen : vch.length ≤ 8) (hminimal : notMinimal vch = false) : getvch (setVch vch) = vch := by
  cases vch using List.reverseRecOn with
  | nil => rfl
  | append_singleton front back =>
    have hbyte := back.toNat_lt
    have hnot : ¬ notMinimal (front ++ [back]) = true := by
      rw [hminimal]
      exact Bool.false_ne_true
    rw [notMinimal_concat] at hnot
    have hset := setVch_concat front back
    by_cases hlow : back.toNat % 0x80 = 0
    · -- the last byte holds the sign alone, so the byte below needs its highest bit
      have hsecond : ∃ second, front.getLast? = some second ∧ 0x80 ≤ second.toNat := by
        by_contra hno
        apply hnot
        refine ⟨hlow, fun second hlast => ?_⟩
        by_contra hhigh
        exact hno ⟨second, hlast, by omega⟩
      obtain ⟨second, hlast, hhigh⟩ := hsecond
      obtain ⟨front', rfl⟩ : ∃ front', front = front' ++ [second] := by
        cases front using List.reverseRecOn with
        | nil => cases hlast
        | append_singleton front' b =>
          rw [getLast?_concat] at hlast
          exact ⟨front', by rw [Option.some.inj hlast]⟩
      have hmagnitude : magnitude (front' ++ [second]) back = leNat (front' ++ [second]) := by
        rw [magnitude, hlow, Nat.mul_zero, Nat.add_zero]
      have hne : second ≠ 0 := by
        rintro rfl
        cases hhigh
      have hpos : 0 < leNat (front' ++ [second]) := by
        apply leNat_pos
        · rw [getLast?_concat]
          exact fun h => hne (Option.some.inj h)
        · simp
      rw [hmagnitude] at hset
      have habs : (setVch (front' ++ [second] ++ [back])).natAbs = leNat (front' ++ [second]) := by
        rw [hset]
        split_ifs <;> omega
      have hsign : signByte (setVch (front' ++ [second] ++ [back])) = back := by
        apply UInt8.toNat_inj.mp
        rw [signByte_toNat, hset]
        split_ifs <;> omega
      rw [length_append] at hlen
      rw [getvch_of_bytes hne (by omega) habs, if_pos hhigh, hsign]
    · have hlowByte : (UInt8.ofNat (back.toNat % 0x80)).toNat = back.toNat % 0x80 :=
        UInt8.toNat_ofNat_of_lt' (show _ < 256 by omega)
      have hne : UInt8.ofNat (back.toNat % 0x80) ≠ 0 := by
        intro hzero
        rw [hzero] at hlowByte
        exact hlow hlowByte.symm
      have hmagnitude : magnitude front back = leNat (front ++ [UInt8.ofNat (back.toNat % 0x80)]) := by
        rw [leNat_concat, hlowByte, magnitude]
      have hpos : 0 < magnitude front back := by
        have hfactor : 0 < 256 ^ front.length * (back.toNat % 0x80) :=
          Nat.mul_pos (Nat.pow_pos (by omega)) (Nat.pos_of_ne_zero hlow)
        rw [magnitude]
        omega
      have habs : (setVch (front ++ [back])).natAbs = leNat (front ++ [UInt8.ofNat (back.toNat % 0x80)]) := by
        rw [hset, ← hmagnitude]
        split_ifs <;> omega
      have hsign : UInt8.ofNat (back.toNat % 0x80) + signByte (setVch (front ++ [back])) = back := by
        apply UInt8.toNat_inj.mp
        rw [UInt8.toNat_add, hlowByte, signByte_toNat, hset]
        split_ifs <;> omega
      rw [length_append, length_singleton] at hlen
      rw [getvch_of_bytes hne (by simpa using hlen) habs, hlowByte, if_neg (by omega), hsign]

/-- A number of less than 31 bits is written in at most four bytes. -/
theorem length_getvch (hn : n.natAbs < 2 ^ 31) : (getvch n).length ≤ nMaxNumSize := by
  by_cases hne : n = 0
  · subst hne
    exact Nat.zero_le _
  obtain ⟨front, back, hback, hlen, hvalue⟩ := exists_bytes hne 4 (by omega)
  rw [length_append, length_singleton] at hlen
  have hlong : (front ++ [back]).length ≤ 8 := by
    rw [length_append, length_singleton]
    omega
  rw [getvch_of_bytes hback hlong hvalue, nMaxNumSize]
  split_ifs with hhigh
  · -- a fourth byte with the highest bit would say too much
    have hshort : front.length ≠ 3 := by
      intro hthree
      rw [leNat_concat, hthree] at hvalue
      omega
    rw [length_append, length_append, length_singleton, length_singleton]
    omega
  · rw [length_append, length_singleton]
    omega

theorem natAbs_setVch_lt (hlen : vch.length ≤ 8) : (setVch vch).natAbs < 256 ^ 8 := by
  cases vch using List.reverseRecOn with
  | nil => decide
  | append_singleton front back =>
    have hle : magnitude front back ≤ leNat (front ++ [back]) := by
      rw [magnitude, leNat_concat]
      exact Nat.add_le_add_left (Nat.mul_le_mul_left _ (Nat.mod_le _ _)) _
    have hlt : leNat (front ++ [back]) < 256 ^ 8 :=
      Nat.lt_of_lt_of_le (leNat_lt _) (Nat.pow_le_pow_right (by omega) hlen)
    rw [setVch_concat]
    split_ifs <;> omega

theorem ofVch_true (hlen : vch.length ≤ nMaxNumSize) :
    ofVch vch true = if notMinimal vch then .error .SCRIPT_ERR_UNKNOWN_ERROR else .ok (setVch vch) := by
  rw [ofVch, decide_eq_false (Nat.not_lt.mpr hlen), Bool.true_and]
  cases notMinimal vch with
  | true => rfl
  | false => rfl

/-- `CScriptNum(vch, true)` takes what `serialize` writes for the number it decodes to, and nothing else. -/
theorem ofVch_true_iff (hlen : vch.length ≤ nMaxNumSize) {value : Int} :
    ofVch vch true = .ok value ↔ ofVch vch false = .ok value ∧ vch = getvch value := by
  have hlong : vch.length ≤ 8 := Nat.le_trans hlen (by decide)
  have hany : ofVch vch false = .ok (setVch vch) := by
    rw [ofVch, decide_eq_false (Nat.not_lt.mpr hlen), Bool.false_and]
    rfl
  rw [ofVch_true hlen, hany]
  constructor
  · intro h
    split_ifs at h with hpadded
    cases h
    exact ⟨rfl, (getvch_setVch hlong (Bool.eq_false_iff.mpr hpadded)).symm⟩
  · rintro ⟨h, hwritten⟩
    cases h
    have hminimal := (setVch_getvch (natAbs_setVch_lt hlong)).2
    rw [← hwritten] at hminimal
    rw [hminimal]
    rfl

/-- A number of less than 31 bits is decoded from what is written for it. -/
theorem ofVch_getvch (hn : n.natAbs < 2 ^ 31) : ofVch (getvch n) true = .ok n := by
  obtain ⟨hread, hminimal⟩ := setVch_getvch (n := n) (by omega)
  rw [ofVch_true (length_getvch hn), hminimal, hread]
  rfl

end Reddcoin.CScriptNum
