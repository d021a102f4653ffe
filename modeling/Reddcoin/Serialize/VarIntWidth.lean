import Mathlib.Data.BitVec
import Mathlib.Data.Nat.Bitwise
import Mathlib.Tactic.IntervalCases
import Reddcoin.Lib.Numerals

/-!
# Variable-length integers of a fixed width

`WriteVarInt`, `ReadVarInt` and `GetSizeOfVarInt` of `serialize.h` at an unsigned type of `w` bits, with the buffer
`tmp` and the arithmetic modulo `2^w`.  All but the last byte of an encoding are a numeral with the digits `1` to `128`,
so an encoding has one value and a value one encoding.
-/

namespace Reddcoin.FixedWidth

variable {w len : Nat} {n : BitVec w}

/-- The local `tmp[(sizeof(n)*8+6)/7]`. -/
abbrev Tmp (w : Nat) := Vector UInt8 ((w + 6) / 7)

/-- `(n & 0x7F) | (len ? 0x80 : 0x00)`, as an `unsigned char`. -/
def digit (n : BitVec w) (len : Nat) : UInt8 :=
  UInt8.ofBitVec (((n &&& 0x7F#w) ||| (if len = 0 then 0x00#w else 0x80#w)).setWidth 8)

/-- `(n >> 7) - 1`. -/
def carry (n : BitVec w) : BitVec w :=
  (n >>> 7) - 1#w

theorem toNat_lt_of_not_le (hn : ¬ n ≤ 0x7F#w) : 0x7F < n.toNat := by
  rw [BitVec.le_def, BitVec.toNat_ofNat, Nat.not_le] at hn
  have hlt := n.isLt
  rcases Nat.lt_or_ge w 7 with hw | hw
  · -- below seven bits the constant is the greatest value
    have hmax : 0x7F % 2 ^ w = 2 ^ w - 1 := by
      interval_cases w <;> rfl
    omega
  · have hpow : 2 ^ 7 ≤ 2 ^ w := Nat.pow_le_pow_right (by omega) hw
    rw [Nat.mod_eq_of_lt (by omega)] at hn
    exact hn

theorem toNat_le_of_le (hn : n ≤ 0x7F#w) : n.toNat ≤ 0x7F := by
  rw [BitVec.le_def, BitVec.toNat_ofNat] at hn
  exact hn.trans (Nat.mod_le _ _)

theorem carry_toNat (hn : ¬ n ≤ 0x7F#w) : (carry n).toNat = n.toNat / 128 - 1 := by
  have hlarge := toNat_lt_of_not_le hn
  have hone : (1#w).toNat = 1 := by
    rw [BitVec.toNat_ofNat, Nat.mod_eq_of_lt (by omega)]
  have hshift : (n >>> 7).toNat = n.toNat / 128 := by
    rw [BitVec.toNat_ushiftRight, Nat.shiftRight_eq_div_pow]
  rw [carry, BitVec.toNat_sub_of_le (by rw [BitVec.le_def, hone, hshift]; omega), hone, hshift]

theorem carry_lt (hn : ¬ n ≤ 0x7F#w) : (carry n).toNat < n.toNat := by
  have hlarge := toNat_lt_of_not_le hn
  rw [carry_toNat hn]
  omega

/-- The loop of `GetSizeOfVarInt`. -/
def getSizeOfVarIntLoop (nRet : Nat) (n : BitVec w) : Nat :=
  let nRet := nRet + 1
  if n ≤ 0x7F#w then nRet else getSizeOfVarIntLoop nRet (carry n)
termination_by n.toNat
decreasing_by exact carry_lt ‹_›

def getSizeOfVarInt (n : BitVec w) : Nat :=
  getSizeOfVarIntLoop 0 n

/-- The first loop of `WriteVarInt`; `none` when it writes past `tmp`. -/
def fillTmp (tmp : Tmp w) (len : Nat) (n : BitVec w) : Option (Tmp w × Nat) :=
  if hroom : len < (w + 6) / 7 then
    let tmp := tmp.set len (digit n len)
    if n ≤ 0x7F#w then some (tmp, len) else fillTmp tmp (len + 1) (carry n)
  else
    none
termination_by n.toNat
decreasing_by exact carry_lt ‹_›

/-- The second loop, `do { WRITEDATA(os, tmp[len]); } while(len--);`. -/
def sendTmp (tmp : Tmp w) : Nat → Option (List UInt8)
  | 0 => do
    let b ← tmp[0]?
    some [b]
  | len + 1 => do
    let b ← tmp[len + 1]?
    let bytes ← sendTmp tmp len
    some (b :: bytes)

/-- `WriteVarInt`; `tmp` holds whatever the stack held. -/
def writeVarInt (tmp : Tmp w) (n : BitVec w) : Option (List UInt8) := do
  let filled ← fillTmp tmp 0 n
  sendTmp filled.1 filled.2

/-- The loop of `ReadVarInt`; `none` when `READDATA` throws. -/
def readVarIntLoop (n : BitVec w) : List UInt8 → Option (BitVec w × List UInt8)
  | [] => none
  | chData :: rest =>
    let n := (n <<< 7) ||| (chData &&& 0x7F).toBitVec.setWidth w
    if chData &&& 0x80 ≠ 0 then readVarIntLoop (n + 1#w) rest else some (n, rest)

def readVarInt (w : Nat) (bytes : List UInt8) : Option (BitVec w × List UInt8) :=
  readVarIntLoop 0#w bytes

/-- `count` integers, one after the other. -/
def readVarInts (w : Nat) : Nat → List UInt8 → Option (List (BitVec w) × List UInt8)
  | 0, bytes => some ([], bytes)
  | count + 1, bytes => do
    let (n, bytes) ← readVarInt w bytes
    let (ns, bytes) ← readVarInts w count bytes
    some (n :: ns, bytes)

/-! ## Documented value -/

/-- All but the last byte have bit 128 set. -/
def Terminated (a : List UInt8) : Prop :=
  ∃ front last, a = front ++ [last] ∧ (∀ b ∈ front, b &&& 0x80 ≠ 0) ∧ last &&& 0x80 = 0

/-- `(a[len-1] & 0x7F) + sum(i=1..len-1, 128^i*((a[len-i-1] & 0x7F)+1))`. -/
def documentedValue (a : List UInt8) : Nat :=
  (a.getD (a.length - 1) 0 &&& 0x7F).toNat +
    ∑ i ∈ Finset.Icc 1 (a.length - 1), 128 ^ i * ((a.getD (a.length - i - 1) 0 &&& 0x7F).toNat + 1)

/-- The low seven bits. -/
def low (b : UInt8) : Nat :=
  (b &&& 0x7F).toNat

theorem low_eq (b : UInt8) : low b = b.toNat % 128 := by
  rw [low, UInt8.toNat_and]
  exact Nat.and_two_pow_sub_one_eq_mod b.toNat 7

theorem low_lt (b : UInt8) : low b < 128 := by
  rw [low_eq]
  exact Nat.mod_lt _ (by omega)

theorem high_eq_zero_iff (b : UInt8) : b &&& 0x80 = 0 ↔ b.toNat < 128 := by
  have hlt := b.toNat_lt
  have hhigh : (b &&& 0x80).toNat = if b.toNat < 128 then 0 else 128 := by
    rw [UInt8.toNat_and]
    show b.toNat &&& 2 ^ 7 = _
    rw [Nat.and_two_pow, Nat.testBit_eq_decide_div_mod_eq]
    split_ifs with hsmall
    · have hbit : ¬ b.toNat / 2 ^ 7 % 2 = 1 := by omega
      rw [decide_eq_false hbit]
      rfl
    · have hbit : b.toNat / 2 ^ 7 % 2 = 1 := by omega
      rw [decide_eq_true hbit]
      rfl
  constructor
  · intro hzero
    rw [hzero] at hhigh
    by_contra hlarge
    rw [if_neg hlarge] at hhigh
    cases hhigh
  · intro hsmall
    rw [if_pos hsmall] at hhigh
    exact UInt8.toNat_inj.mp hhigh

/-- A byte is its low bits and its continuation bit. -/
theorem byte_ext {b c : UInt8} (hlow : low b = low c) (hhigh : b &&& 0x80 = 0 ↔ c &&& 0x80 = 0) : b = c := by
  rw [low_eq, low_eq] at hlow
  rw [high_eq_zero_iff, high_eq_zero_iff] at hhigh
  have hb := b.toNat_lt
  have hc := c.toNat_lt
  apply UInt8.toNat_inj.mp
  omega

/-- The numeral that the bytes before the last one are. -/
def frontDigits (front : List UInt8) : List Nat :=
  front.map (fun b => low b + 1)

theorem frontDigits_positive (front : List UInt8) : Numerals.Positive 128 (frontDigits front) := by
  intro d hd
  obtain ⟨b, -, rfl⟩ := List.mem_map.mp hd
  have hlt := low_lt b
  omega

theorem documentedValue_append (front : List UInt8) (last : UInt8) :
    documentedValue (front ++ [last]) = Numerals.value 128 (frontDigits front) * 128 + low last := by
  have hlen : (front ++ [last]).length - 1 = front.length := by
    rw [List.length_append, List.length_singleton, Nat.add_sub_cancel]
  have hlast : (front ++ [last]).getD front.length 0 = last := by simp
  have hterm : ∀ i ∈ Finset.Icc 1 front.length,
      128 ^ i * (((front ++ [last]).getD ((front ++ [last]).length - i - 1) 0 &&& 0x7F).toNat + 1) =
        128 ^ i * (frontDigits front).getD ((frontDigits front).length - i) 0 := by
    intro i hi
    obtain ⟨hpos, hle⟩ := Finset.mem_Icc.mp hi
    have hindex : (front ++ [last]).length - i - 1 = front.length - i := by omega
    have hlt : front.length - i < front.length := by omega
    have hcell : (frontDigits front).getD ((frontDigits front).length - i) 0 =
        low (front.getD (front.length - i) 0) + 1 := by
      simp [frontDigits, List.getD_eq_getElem?_getD, hlt]
    rw [hindex, hcell, List.getD_append _ _ _ _ hlt]
    rfl
  have hfront : (frontDigits front).length = front.length := List.length_map ..
  rw [documentedValue, hlen, hlast, Finset.sum_congr rfl hterm, Numerals.value_mul_eq_sum, hfront, Nat.add_comm]
  rfl

/-- A value has one terminated byte string. -/
theorem Terminated.unique {a b : List UInt8} (ha : Terminated a) (hb : Terminated b)
    (hvalue : documentedValue a = documentedValue b) : a = b := by
  obtain ⟨front, last, rfl, hfront, hlast⟩ := ha
  obtain ⟨front', last', rfl, hfront', hlast'⟩ := hb
  rw [documentedValue_append, documentedValue_append] at hvalue
  have hlt := low_lt last
  have hlt' := low_lt last'
  have hnumeral : Numerals.value 128 (frontDigits front) = Numerals.value 128 (frontDigits front') := by omega
  have hdigits := (frontDigits_positive front).unique (frontDigits_positive front') hnumeral
  have hsame : last = last' := byte_ext (by omega) (by simp [hlast, hlast'])
  have hbytes : front = front' := by
    apply List.ext_getElem
    · have hlen := congrArg List.length hdigits
      rw [frontDigits, frontDigits, List.length_map, List.length_map] at hlen
      exact hlen
    · intro i hi hi'
      have hcell := congrArg (fun l => l[i]?) hdigits
      simp only [frontDigits, List.getElem?_map, List.getElem?_eq_getElem hi, List.getElem?_eq_getElem hi',
        Option.map_some, Option.some_inj, Nat.add_right_cancel_iff] at hcell
      apply byte_ext hcell
      simp [hfront _ (List.getElem_mem hi), hfront' _ (List.getElem_mem hi')]
  rw [hbytes, hsame]

/-! ## Writing -/

/-- The bytes that the loop of the writer leaves in `tmp`, from `len` on. -/
def digits (len : Nat) (n : BitVec w) : List UInt8 :=
  digit n len :: if n ≤ 0x7F#w then [] else digits (len + 1) (carry n)
termination_by n.toNat
decreasing_by exact carry_lt ‹_›

theorem digit_toNat (hw : 8 ≤ w) (n : BitVec w) (len : Nat) :
    (digit n len).toNat = n.toNat % 128 + if len = 0 then 0 else 128 := by
  have hpow : 2 ^ 8 ≤ 2 ^ w := Nat.pow_le_pow_right (by omega) hw
  have hmask : n.toNat &&& 0x7F = n.toNat % 128 := Nat.and_two_pow_sub_one_eq_mod n.toNat 7
  have hmod : n.toNat % 128 < 2 ^ 7 := Nat.mod_lt _ (by omega)
  rw [digit, UInt8.toNat_ofBitVec, BitVec.toNat_setWidth, BitVec.toNat_or, BitVec.toNat_and, BitVec.toNat_ofNat,
    Nat.mod_eq_of_lt (by omega : 0x7F < 2 ^ w), hmask]
  split_ifs with hlen
  · rw [BitVec.toNat_ofNat, Nat.zero_mod, Nat.or_zero]
    omega
  · rw [BitVec.toNat_ofNat, Nat.mod_eq_of_lt (by omega : 0x80 < 2 ^ w), Nat.lor_comm]
    have hadd : 0x80 ||| n.toNat % 128 = 0x80 + n.toNat % 128 := (Nat.two_pow_add_eq_or_of_lt hmod 1).symm
    rw [hadd]
    omega

theorem low_digit (hw : 8 ≤ w) (n : BitVec w) (len : Nat) : low (digit n len) = n.toNat % 128 := by
  rw [low_eq, digit_toNat hw]
  split_ifs <;> omega

theorem high_digit (hw : 8 ≤ w) (n : BitVec w) (len : Nat) : digit n len &&& 0x80 = 0 ↔ len = 0 := by
  rw [high_eq_zero_iff, digit_toNat hw]
  split_ifs with hlen <;> omega

/-- The digits above the first one say one more than what is left of the number. -/
theorem value_digits (hw : 8 ≤ w) (len : Nat) (n : BitVec w) :
    Numerals.value 128 (frontDigits (digits (len + 1) n).reverse) = n.toNat + 1 ∧
      ∀ b ∈ digits (len + 1) n, b &&& 0x80 ≠ 0 := by
  have hfirst : digit n (len + 1) &&& 0x80 ≠ 0 := fun hzero => by
    have hlen := (high_digit hw n (len + 1)).mp hzero
    omega
  rw [digits]
  split_ifs with hsmall
  · have hle := toNat_le_of_le hsmall
    constructor
    · show Numerals.value 128 [low (digit n (len + 1)) + 1] = _
      rw [Numerals.value_singleton, low_digit hw]
      omega
    · intro b hb
      rw [List.mem_singleton.mp hb]
      exact hfirst
  · have hlarge := toNat_lt_of_not_le hsmall
    have ih := value_digits hw (len + 1) (carry n)
    rw [carry_toNat hsmall] at ih
    constructor
    · rw [List.reverse_cons, frontDigits, List.map_append, List.map_singleton, Numerals.value_concat, low_digit hw]
      have hrest := ih.1
      rw [frontDigits] at hrest
      rw [hrest]
      omega
    · intro b hb
      rcases List.mem_cons.mp hb with rfl | hb
      · exact hfirst
      · exact ih.2 b hb
termination_by n.toNat
decreasing_by exact carry_lt ‹_›

theorem getSizeOfVarIntLoop_eq (nRet len : Nat) (n : BitVec w) :
    getSizeOfVarIntLoop nRet n = nRet + (digits len n).length := by
  rw [getSizeOfVarIntLoop, digits]
  split_ifs with hsmall
  · rfl
  · rw [getSizeOfVarIntLoop_eq (nRet + 1) (len + 1) (carry n), List.length_cons]
    omega
termination_by n.toNat
decreasing_by exact carry_lt ‹_›

/-- What the first loop leaves: the cells below `len` as they were, and the digits from there on.  The number left at
`len`, moved back by `len` digits, is still a number of `w` bits, so there is room for its digit. -/
theorem fillTmp_eq (tmp : Tmp w) (len : Nat) (n : BitVec w) (hw : 8 ≤ w)
    (hinv : len = 0 ∨ 128 ^ len * (n.toNat + 1) < 2 ^ w) :
    ∃ tmp' : Tmp w, ∃ last, fillTmp tmp len n = some (tmp', last) ∧ last < (w + 6) / 7 ∧
      tmp'.toList.take (last + 1) = tmp.toList.take len ++ digits len n := by
  have hroom : len < (w + 6) / 7 := by
    rcases hinv with hzero | hinv
    · omega
    · have hle : (2 ^ 7) ^ len ≤ (2 ^ 7) ^ len * (n.toNat + 1) := Nat.le_mul_of_pos_right _ (by omega)
      have hlt : 2 ^ (7 * len) < 2 ^ w := by
        rw [Nat.pow_mul]
        exact lt_of_le_of_lt hle hinv
      have hexp := (Nat.pow_lt_pow_iff_right (by omega)).mp hlt
      omega
  have htake : (tmp.set len (digit n len)).toList.take (len + 1) = tmp.toList.take len ++ [digit n len] := by
    have hlen : tmp.toList.length = (w + 6) / 7 := tmp.length_toList
    rw [Vector.toList_set, List.take_add_one, List.take_set_of_le (Nat.le_refl _), List.getElem?_set_self (by omega)]
    rfl
  rw [fillTmp, dif_pos hroom, digits]
  dsimp only
  split_ifs with hsmall
  · exact ⟨_, len, rfl, hroom, htake⟩
  · have hlarge := toNat_lt_of_not_le hsmall
    have hnext : 128 ^ (len + 1) * ((carry n).toNat + 1) < 2 ^ w := by
      have hcarry : 128 * ((carry n).toNat + 1) ≤ n.toNat := by
        rw [carry_toNat hsmall]
        omega
      calc 128 ^ (len + 1) * ((carry n).toNat + 1) = 128 ^ len * (128 * ((carry n).toNat + 1)) := by ring
        _ ≤ 128 ^ len * n.toNat := Nat.mul_le_mul_left _ hcarry
        _ < 2 ^ w := by
          rcases hinv with rfl | hinv
          · rw [Nat.pow_zero, Nat.one_mul]
            exact n.isLt
          · exact lt_of_le_of_lt (Nat.mul_le_mul_left _ (by omega)) hinv
    obtain ⟨tmp', last, hfill, hlast, hcells⟩ :=
      fillTmp_eq (tmp.set len (digit n len)) (len + 1) (carry n) hw (.inr hnext)
    refine ⟨tmp', last, hfill, hlast, ?_⟩
    rw [hcells, htake, List.append_assoc]
    rfl
termination_by n.toNat
decreasing_by exact carry_lt ‹_›

/-- The second loop sends the cells from `len` down to the first. -/
theorem sendTmp_eq (tmp : Tmp w) (hlen : len < (w + 6) / 7) :
    sendTmp tmp len = some (tmp.toList.take (len + 1)).reverse := by
  have hsize : tmp.toList.length = (w + 6) / 7 := tmp.length_toList
  have hcell : ∀ {i : Nat} (hi : i < tmp.toList.length), tmp[i]? = some tmp.toList[i] := by
    intro i hi
    rw [← List.getElem?_eq_getElem hi, Vector.getElem?_toList]
  have htake : ∀ {i : Nat} (hi : i < tmp.toList.length),
      (tmp.toList.take (i + 1)).reverse = tmp.toList[i] :: (tmp.toList.take i).reverse := by
    intro i hi
    rw [List.take_succ_eq_append_getElem hi, List.reverse_append]
    rfl
  induction len with
  | zero =>
    rw [sendTmp, hcell (by omega), htake (by omega)]
    rfl
  | succ len ih =>
    rw [htake (by omega : len + 1 < _), sendTmp, ih (by omega), hcell (by omega)]
    rfl

theorem writeVarInt_eq (tmp : Tmp w) (hw : 8 ≤ w) (n : BitVec w) : writeVarInt tmp n = some (digits 0 n).reverse := by
  obtain ⟨tmp', last, hfill, hlast, hcells⟩ := fillTmp_eq tmp 0 n hw (.inl rfl)
  rw [writeVarInt, hfill]
  show sendTmp tmp' last = _
  rw [sendTmp_eq tmp' hlast, hcells]
  rfl

/-- The digits, from the last to the first, are a terminated byte string of the number. -/
theorem digits_terminated (hw : 8 ≤ w) (n : BitVec w) :
    Terminated (digits 0 n).reverse ∧ documentedValue (digits 0 n).reverse = n.toNat := by
  have hlast : digit n 0 &&& 0x80 = 0 := (high_digit hw n 0).mpr rfl
  rw [digits, List.reverse_cons, documentedValue_append, low_digit hw]
  split_ifs with hsmall
  · have hle := toNat_le_of_le hsmall
    refine ⟨⟨[], digit n 0, rfl, by simp, hlast⟩, ?_⟩
    show 0 * 128 + n.toNat % 128 = n.toNat
    omega
  · have hlarge := toNat_lt_of_not_le hsmall
    obtain ⟨hvalue, hhigh⟩ := value_digits hw 0 (carry n)
    refine ⟨⟨_, digit n 0, rfl, fun b hb => hhigh b (List.mem_reverse.mp hb), hlast⟩, ?_⟩
    rw [hvalue, carry_toNat hsmall]
    omega

/-! ## Reading -/

/-- One digit is shifted in. -/
theorem shiftIn_eq (w v : Nat) (chData : UInt8) :
    (BitVec.ofNat w v <<< 7) ||| (chData &&& 0x7F).toBitVec.setWidth w = BitVec.ofNat w (v * 128 + low chData) := by
  have hlow : (chData &&& 0x7F).toBitVec.setWidth w = BitVec.ofNat w (low chData) := by
    apply BitVec.eq_of_toNat_eq
    rw [BitVec.toNat_setWidth, BitVec.toNat_ofNat]
    rfl
  have hlt : low chData < 2 ^ 7 := low_lt chData
  rw [hlow]
  apply BitVec.eq_of_getLsbD_eq
  intro i hi
  have hsum := Nat.shiftLeft_add_eq_or_of_lt hlt v
  have hshift : v * 128 + low chData = v <<< 7 ||| low chData := by
    rw [← hsum, Nat.shiftLeft_eq]
  rw [BitVec.getLsbD_or, BitVec.getLsbD_shiftLeft, BitVec.getLsbD_ofNat, BitVec.getLsbD_ofNat, BitVec.getLsbD_ofNat,
    hshift, Nat.testBit_or, Nat.testBit_shiftLeft]
  by_cases h7 : i < 7
  · simp [hi, h7]
  · have hi7 : i - 7 < w := by omega
    have hge : 7 ≤ i := Nat.le_of_not_lt h7
    simp [hi, h7, hi7, hge]

/-- The digits read so far are the number read so far, modulo `2^w`. -/
theorem readVarIntLoop_eq {front : List UInt8} {last : UInt8} (hfront : ∀ b ∈ front, b &&& 0x80 ≠ 0)
    (hlast : last &&& 0x80 = 0) (v : Nat)
    (rest : List UInt8) :
    readVarIntLoop (BitVec.ofNat w v) (front ++ last :: rest) =
      some (BitVec.ofNat w (Numerals.value 128 (v :: frontDigits front) * 128 + low last), rest) := by
  induction front generalizing v with
  | nil =>
    rw [List.nil_append, readVarIntLoop, shiftIn_eq, if_neg (not_not.mpr hlast)]
    show _ = some (BitVec.ofNat w (Numerals.value 128 [v] * 128 + low last), rest)
    rw [Numerals.value_singleton]
  | cons b front ih =>
    obtain ⟨hb, hfront⟩ := List.forall_mem_cons.mp hfront
    have hvalue : Numerals.value 128 (v :: frontDigits (b :: front)) =
        Numerals.value 128 ((v * 128 + low b + 1) :: frontDigits front) := by
      rw [frontDigits, List.map_cons, Numerals.value_cons, Numerals.value_cons, Numerals.value_cons, List.length_cons]
      rw [frontDigits, List.length_map]
      ring
    rw [List.cons_append, readVarIntLoop, shiftIn_eq, if_pos hb, ← BitVec.ofNat_add, ih hfront, hvalue]

/-- A terminated byte string is read to its end, as its value modulo `2^w`. -/
theorem readVarInt_eq {a : List UInt8} (ha : Terminated a) (rest : List UInt8) :
    readVarInt w (a ++ rest) = some (BitVec.ofNat w (documentedValue a), rest) := by
  obtain ⟨front, last, rfl, hfront, hlast⟩ := ha
  have hzero : Numerals.value 128 (0 :: frontDigits front) = Numerals.value 128 (frontDigits front) := by
    rw [Numerals.value_cons, Nat.zero_mul, Nat.zero_add]
  rw [documentedValue_append, readVarInt, List.append_assoc, List.singleton_append]
  have hread := readVarIntLoop_eq (w := w) hfront hlast 0 rest
  rw [hzero] at hread
  exact hread

theorem readVarInt_digits (hw : 8 ≤ w) (n : BitVec w) (rest : List UInt8) :
    readVarInt w ((digits 0 n).reverse ++ rest) = some (n, rest) := by
  obtain ⟨hterminated, hvalue⟩ := digits_terminated hw n
  rw [readVarInt_eq hterminated, hvalue, BitVec.ofNat_toNat, BitVec.setWidth_eq]

theorem readVarInts_digits (hw : 8 ≤ w) (ns : List (BitVec w)) (rest : List UInt8) :
    readVarInts w ns.length ((ns.map fun n => (digits 0 n).reverse).flatten ++ rest) = some (ns, rest) := by
  induction ns with
  | nil => rfl
  | cons n ns ih =>
    rw [List.map_cons, List.flatten_cons, List.append_assoc, List.length_cons, readVarInts, readVarInt_digits hw]
    show (readVarInts w ns.length _ >>= fun read => some (n :: read.1, read.2)) = _
    rw [ih]
    rfl

/-- Every number has one terminated byte string, which is what is written and which fits into `tmp`; a terminated byte
string is read to its end, as its documented value modulo `2^w`; and so written integers are read back. -/
theorem writeVarInt_unique (hw : w = 32 ∨ w = 64) :
    (∀ (tmp : Tmp w) (n : BitVec w), ∃ a, writeVarInt tmp n = some a ∧ Terminated a ∧ documentedValue a = n.toNat ∧
      (∀ b, Terminated b → documentedValue b = n.toNat → b = a) ∧ getSizeOfVarInt n = a.length) ∧
    (∀ a, Terminated a → ∀ rest, readVarInt w (a ++ rest) = some (BitVec.ofNat w (documentedValue a), rest)) ∧
    ∀ (written : List (Tmp w × BitVec w)) (rest : List UInt8),
      ∃ sent, written.mapM (fun x => writeVarInt x.1 x.2) = some sent ∧
        readVarInts w written.length (sent.flatten ++ rest) = some (written.map Prod.snd, rest) := by
  have hw8 : 8 ≤ w := by omega
  refine ⟨fun tmp n => ?_, fun a ha rest => readVarInt_eq ha rest, fun written rest => ?_⟩
  · obtain ⟨hterminated, hvalue⟩ := digits_terminated hw8 n
    refine ⟨_, writeVarInt_eq tmp hw8 n, hterminated, hvalue, ?_, ?_⟩
    · intro b hb hsame
      exact hb.unique hterminated (by rw [hsame, hvalue])
    · rw [getSizeOfVarInt, getSizeOfVarIntLoop_eq 0 0, List.length_reverse, Nat.zero_add]
  · have hsent : written.mapM (fun x => writeVarInt x.1 x.2) =
        some ((written.map Prod.snd).map fun n => (digits 0 n).reverse) := by
      induction written with
      | nil => rfl
      | cons x written ih =>
        rw [List.mapM_cons, writeVarInt_eq x.1 hw8 x.2, ih]
        rfl
    refine ⟨_, hsent, ?_⟩
    have hread := readVarInts_digits hw8 (written.map Prod.snd) rest
    rw [List.length_map] at hread
    exact hread

/-- At 64 bits `2^32` is written as five bytes and read back before a zero. -/
theorem writeVarInt_unique_example :
    writeVarInt (Vector.replicate 10 0) 0x100000000#64 = some [0x8E, 0xFE, 0xFE, 0xFF, 0x00] ∧
      readVarInt 64 [0x8E, 0xFE, 0xFE, 0xFF, 0x00, 0x00] = some (0x100000000#64, [0x00]) := by
  have hterminated : Terminated [0x8E, 0xFE, 0xFE, 0xFF, 0x00] :=
    ⟨[0x8E, 0xFE, 0xFE, 0xFF], 0x00, rfl, by simp; decide, by decide⟩
  have hvalue : documentedValue [0x8E, 0xFE, 0xFE, 0xFF, 0x00] = 0x100000000 := by decide
  obtain ⟨hwrite, hread, -⟩ := writeVarInt_unique (w := 64) (.inr rfl)
  obtain ⟨a, ha, -, -, hunique, -⟩ := hwrite (Vector.replicate 10 0) 0x100000000#64
  constructor
  · rw [ha, hunique _ hterminated hvalue]
  · rw [← hvalue]
    exact hread _ hterminated [0x00]

end Reddcoin.FixedWidth
