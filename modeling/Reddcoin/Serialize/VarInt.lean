import Mathlib.Tactic.Ring

/-!
# Variable-length integers

`WriteVarInt` and `ReadVarInt` of `serialize.h`.  The writer fills its buffer from the low end and
sends it from the high end, subtracting one at each carry so that the encoding is unique.
-/

namespace Reddcoin

open List

/-- The bytes above the lowest one, most significant first.  Each turn of the writer's loop lowers
`n`, so `n + 1` turns are always enough. -/
def writeVarIntHigh : Nat → Nat → List UInt8
  | 0, _ => []
  | turns + 1, n =>
    (if n ≤ 0x7F then [] else writeVarIntHigh turns (n / 128 - 1)) ++ [UInt8.ofNat (n % 128 + 0x80)]

/-- `WriteVarInt<I>`.  For a signed `I` a negative `n` passes the test `n <= 0x7F` at once and only
its low seven bits are written. -/
def writeVarInt (n : Int) : List UInt8 :=
  (if n ≤ 0x7F then [] else writeVarIntHigh n.toNat (n.toNat / 128 - 1)) ++ [UInt8.ofNat (n % 128).toNat]

/-- The turns of `GetSizeOfVarInt` after its first. -/
def getSizeOfVarIntHigh : Nat → Nat → Nat
  | 0, _ => 0
  | turns + 1, n => (if n ≤ 0x7F then 0 else getSizeOfVarIntHigh turns (n / 128 - 1)) + 1

def getSizeOfVarInt (n : Int) : Nat :=
  (if n ≤ 0x7F then 0 else getSizeOfVarIntHigh n.toNat (n.toNat / 128 - 1)) + 1

def readVarIntLoop (n : Nat) : List UInt8 → Option (Nat × List UInt8)
  | [] => none
  | chData :: rest =>
    let n := n * 128 + chData.toNat % 128
    if 0x80 ≤ chData.toNat then readVarIntLoop (n + 1) rest else some (n, rest)

def readVarInt (bytes : List UInt8) : Option (Nat × List UInt8) :=
  readVarIntLoop 0 bytes

theorem length_writeVarIntHigh (turns n : Nat) :
    (writeVarIntHigh turns n).length = getSizeOfVarIntHigh turns n := by
  induction turns generalizing n with
  | zero => rfl
  | succ turns ih =>
    rw [writeVarIntHigh, getSizeOfVarIntHigh, length_append, length_singleton]
    split_ifs with hsmall
    · rfl
    · rw [ih]

theorem length_writeVarInt (n : Int) : (writeVarInt n).length = getSizeOfVarInt n := by
  rw [writeVarInt, getSizeOfVarInt, length_append, length_singleton]
  split_ifs with hsmall
  · rfl
  · rw [length_writeVarIntHigh]

/-- A byte with the continuation bit shifts the accumulator and adds one. -/
theorem readVarIntLoop_continue {d : Nat} (hd : d < 128) (acc : Nat) (rest : List UInt8) :
    readVarIntLoop acc (UInt8.ofNat (d + 0x80) :: rest) = readVarIntLoop (acc * 128 + d + 1) rest := by
  have hbyte : (UInt8.ofNat (d + 0x80)).toNat = d + 0x80 := by
    rw [UInt8.toNat_ofNat']
    omega
  have hlow : (d + 0x80) % 128 = d := by omega
  have hhigh : 0x80 ≤ d + 0x80 := by omega
  simp only [readVarIntLoop, hbyte, hlow, if_pos hhigh]

theorem readVarIntLoop_stop {d : Nat} (hd : d < 128) (acc : Nat) (rest : List UInt8) :
    readVarIntLoop acc (UInt8.ofNat d :: rest) = some (acc * 128 + d, rest) := by
  have hbyte : (UInt8.ofNat d).toNat = d := by
    rw [UInt8.toNat_ofNat']
    omega
  have hlow : d % 128 = d := by omega
  have hhigh : ¬ 0x80 ≤ d := by omega
  simp only [readVarIntLoop, hbyte, hlow, if_neg hhigh]

theorem readVarIntLoop_writeVarIntHigh {turns n : Nat} (hn : n < turns) (rest : List UInt8) :
    readVarIntLoop 0 (writeVarIntHigh turns n ++ rest) = readVarIntLoop (n + 1) rest := by
  induction turns generalizing n rest with
  | zero => omega
  | succ turns ih =>
    have hmod : n % 128 < 128 := Nat.mod_lt _ (by norm_num)
    by_cases hsmall : n ≤ 0x7F
    · have hself : n % 128 = n := by omega
      simp only [writeVarIntHigh, if_pos hsmall, nil_append, singleton_append]
      rw [readVarIntLoop_continue hmod, hself]
      simp
    · have hback : (n / 128 - 1 + 1) * 128 + n % 128 + 1 = n + 1 := by omega
      simp only [writeVarIntHigh, if_neg hsmall, append_assoc, singleton_append]
      rw [ih (by omega), readVarIntLoop_continue hmod, hback]

/-- A non-negative value comes back, with the rest of the stream untouched. -/
theorem readVarInt_writeVarInt (n : Nat) (rest : List UInt8) :
    readVarInt (writeVarInt n ++ rest) = some (n, rest) := by
  have hmod : n % 128 < 128 := Nat.mod_lt _ (by norm_num)
  have hcast : ((n : Int) % 128).toNat = n % 128 := by omega
  unfold readVarInt writeVarInt
  by_cases hsmall : (n : Int) ≤ 0x7F
  · have hself : n % 128 = n := by omega
    simp only [if_pos hsmall, hcast, nil_append, singleton_append]
    rw [readVarIntLoop_stop hmod, hself]
    simp
  · have hback : (n / 128 - 1 + 1) * 128 + n % 128 = n := by omega
    simp only [if_neg hsmall, hcast, Int.toNat_natCast, append_assoc, singleton_append]
    rw [readVarIntLoop_writeVarIntHigh (by omega), readVarIntLoop_stop hmod, hback]

/-- A value below the continuation bit is its own encoding. -/
theorem writeVarInt_small {n : Nat} (hn : n < 128) : writeVarInt n = [UInt8.ofNat n] := by
  have hself : ((n : Int) % 128).toNat = n := by omega
  rw [writeVarInt, if_pos (by omega), nil_append, hself]

/-- A negative value loses all but its low seven bits. -/
theorem readVarInt_writeVarInt_neg {n : Int} (hn : n < 0) (rest : List UInt8) :
    readVarInt (writeVarInt n ++ rest) = some ((n % 128).toNat, rest) := by
  have hsmall : n ≤ 0x7F := by omega
  have hmod : (n % 128).toNat < 128 := by omega
  unfold readVarInt writeVarInt
  simp only [if_pos hsmall, nil_append, singleton_append]
  rw [readVarIntLoop_stop hmod]
  simp

end Reddcoin
