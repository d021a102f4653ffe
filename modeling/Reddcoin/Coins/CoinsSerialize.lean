import Reddcoin.Coins.Coins
import Reddcoin.Coins.Compressor
import Reddcoin.Coins.ScriptCompressor

/-!
# Stored coins

`CTxOutCompressor` and the three functions of `coins.h` that size, write and read a `CCoins`.  A header packs the
availability of the first two outputs, whether this is a coinbase, and the number of non-zero bytes of a bit mask with
the availability of the others.  When neither of the first two outputs is available there is a non-zero byte, and their
number is written less one.
-/

namespace Reddcoin

open Stream List

variable (K : CPubKey.Curve) {c : CCoins}

/-! ## Outputs -/

namespace CTxOutCompressor

open List (range)

def getSerializeSize (txout : CTxOut) : Nat :=
  getSizeOfVarInt (compressAmount (UInt64.ofInt txout.nValue)).toNat +
    CScriptCompressor.getSerializeSize K txout.scriptPubKey

def serialize (txout : CTxOut) : List UInt8 :=
  serializeAmount txout.nValue ++ CScriptCompressor.serialize K txout.scriptPubKey

/-- Reading into a new `CTxOut`, whose script is empty. -/
def unserialize : Reader UInt8 CTxOut := do
  let nValue ← (unserializeAmount : Reader UInt8 Int)
  let scriptPubKey ← CScriptCompressor.unserialize K []
  pure { nValue := nValue, scriptPubKey := scriptPubKey }

/-- What is written for the output is read as the output. -/
def Survives (txout : CTxOut) : Prop :=
  (unserialize K).run (serialize K txout) = some (txout, [])

instance (txout : CTxOut) : Decidable (Survives K txout) :=
  inferInstanceAs (Decidable (_ = _))

theorem length_serialize (txout : CTxOut) : (serialize K txout).length = getSerializeSize K txout := by
  rw [serialize, getSerializeSize, length_append, CScriptCompressor.length_serialize, serializeAmount,
    length_writeVarInt]

theorem extends_unserializeAmount : Extends (unserializeAmount : Reader UInt8 Int) := by
  intro s t nValue rest h
  have h : (readVarInt s).map (fun p => (wrap64 (decompressAmount (UInt64.ofNat p.1)).toNat, p.2)) =
      some (nValue, rest) := h
  show (readVarInt (s ++ t)).map (fun p => (wrap64 (decompressAmount (UInt64.ofNat p.1)).toNat, p.2)) =
    some (nValue, rest ++ t)
  obtain ⟨⟨nVal, rest'⟩, hread, hpair⟩ := Option.map_eq_some_iff.mp h
  obtain ⟨rfl, rfl⟩ := Prod.mk.inj hpair
  have hread' : readVarInt (s ++ t) = some (nVal, rest' ++ t) :=
    CScriptCompressor.extends_readVarInt s t nVal rest' hread
  rw [hread', Option.map_some]

theorem extends_unserialize : Extends (unserialize K) :=
  extends_bind extends_unserializeAmount fun _ =>
    extends_bind (CScriptCompressor.extends_unserialize K []) fun _ => extends_pure _

theorem Survives.reads {txout : CTxOut} (h : Survives K txout) :
    Reads (unserialize K) (serialize K txout) txout :=
  (extends_unserialize K).reads h

end CTxOutCompressor

/-! ## The mask of available outputs -/

/-- `chAvail` of eight outputs. -/
def availByte (f : Nat → Bool) : UInt8 :=
  (range 8).foldl (fun chAvail i => if f i then chAvail ||| (1 <<< UInt8.ofNat i) else chAvail) 0

/-- The bits `p = 0, .., 7` of `chAvail`. -/
def availBits (chAvail : UInt8) : List Bool :=
  (range 8).map fun p => decide (chAvail &&& (1 <<< UInt8.ofNat p) ≠ 0)

/-- The bytes of the mask, until `nMaskCode` of them are not zero. -/
def readMask : Nat → List UInt8 → Option (List Bool × List UInt8)
  | 0, bytes => some ([], bytes)
  | _ + 1, [] => none
  | nMaskCode + 1, chAvail :: bytes =>
    (readMask (if chAvail ≠ 0 then nMaskCode else nMaskCode + 1) bytes).map fun (vAvail, rest) =>
      (availBits chAvail ++ vAvail, rest)

namespace CCoins

/-- Whether one of the outputs of byte `b` of the mask is available. -/
def byteUsed (c : CCoins) (b : Nat) : Bool :=
  (range 8).any fun i => c.isAvailable (2 + b * 8 + i)

/-- The loop of `CalcMaskSize` from byte `b` on.  A byte has at least one output, so the number of outputs bounds the
number of turns. -/
def calcMaskLoop (c : CCoins) : Nat → Nat → Nat → Nat → Nat × Nat
  | 0, _, nLastUsedByte, nNonzeroBytes => (nLastUsedByte, nNonzeroBytes)
  | turns + 1, b, nLastUsedByte, nNonzeroBytes =>
    if 2 + b * 8 < c.vout.length then
      if c.byteUsed b then c.calcMaskLoop turns (b + 1) (b + 1) (nNonzeroBytes + 1)
      else c.calcMaskLoop turns (b + 1) nLastUsedByte nNonzeroBytes
    else (nLastUsedByte, nNonzeroBytes)

def calcMaskSize (c : CCoins) : Nat × Nat :=
  c.calcMaskLoop c.vout.length 0 0 0

/-- The size of the mask and `nCode`; `none` where the assertion of a pruned object fails. -/
def header (c : CCoins) : Option (Nat × Nat) :=
  let nMaskSize := c.calcMaskSize.1
  let nMaskCode := c.calcMaskSize.2
  let fFirst := c.isAvailable 0
  let fSecond := c.isAvailable 1
  if fFirst = true ∨ fSecond = true ∨ nMaskCode ≠ 0 then
    some (nMaskSize, 8 * (nMaskCode - (if fFirst || fSecond then 0 else 1)) + (if c.fCoinBase then 1 else 0) +
      (if fFirst then 2 else 0) + (if fSecond then 4 else 0))
  else none

def getSerializeSize (c : CCoins) : Option Nat :=
  c.header.map fun (nMaskSize, nCode) =>
    getSizeOfVarInt c.nVersion + getSizeOfVarInt nCode + nMaskSize +
      (c.vout.map fun out => if out.isNull then 0 else CTxOutCompressor.getSerializeSize K out).sum +
      getSizeOfVarInt c.nHeight + getSizeOfVarInt c.nTime + 1

def serialize (c : CCoins) : Option (List UInt8) :=
  c.header.map fun (nMaskSize, nCode) =>
    writeVarInt c.nVersion ++ (writeVarInt nCode ++
      ((range nMaskSize).map (fun b => availByte fun i => c.isAvailable (2 + b * 8 + i)) ++
        ((c.vout.flatMap fun out => if out.isNull then [] else CTxOutCompressor.serialize K out) ++
          (writeVarInt c.nHeight ++ (writeVarInt c.nTime ++ [if c.fCoinStake then 1 else 0])))))

/-- `Unserialize` sets every field of the object it is called on.  Counters are exact, and a number beyond the type of
its field is not followed. -/
def unserialize : Reader UInt8 CCoins := do
  let nVersion ← (readVarInt : Reader UInt8 Nat)
  let nCode ← (readVarInt : Reader UInt8 Nat)
  let nMaskCode := nCode / 8 + (if nCode &&& 6 ≠ 0 then 0 else 1)
  let mask ← (readMask nMaskCode : Reader UInt8 (List Bool))
  let vAvail := decide (nCode &&& 2 ≠ 0) :: decide (nCode &&& 4 ≠ 0) :: mask
  let vout ← each (vAvail.map fun f => if f then CTxOutCompressor.unserialize K else pure CTxOut.null)
  let nHeight ← (readVarInt : Reader UInt8 Nat)
  let nTime ← (readVarInt : Reader UInt8 Nat)
  let nCoinStake ← readData 1
  pure (cleanup
    { fCoinBase := decide (nCode &&& 1 ≠ 0)
      fCoinStake := decide (nCoinStake &&& 1 ≠ 0)
      nTime := nTime
      vout := vout
      nHeight := nHeight
      nVersion := nVersion })

end CCoins

/-! ## Bytes of the mask -/

theorem availBits_availByte (f : Nat → Bool) : availBits (availByte f) = (range 8).map f := by
  have hbits : ∀ a b c d e g h i : Bool,
      availBits (availByte fun n => [a, b, c, d, e, g, h, i].getD n false) = [a, b, c, d, e, g, h, i] := by
    decide +kernel
  exact hbits (f 0) (f 1) (f 2) (f 3) (f 4) (f 5) (f 6) (f 7)

/-- A byte of the mask is zero exactly when none of its outputs is available. -/
theorem availByte_ne_zero_iff (f : Nat → Bool) : availByte f ≠ 0 ↔ (range 8).any f = true := by
  have hzero : ∀ a b c d e g h i : Bool, decide (availByte (fun n => [a, b, c, d, e, g, h, i].getD n false) ≠ 0) =
        [a, b, c, d, e, g, h, i].any id := by
    decide +kernel
  have hf := hzero (f 0) (f 1) (f 2) (f 3) (f 4) (f 5) (f 6) (f 7)
  rw [← decide_eq_true_iff (p := availByte f ≠ 0)]
  exact iff_of_eq (congrArg (· = true) hf)

/-- The mask is read to its last byte, which is not zero. -/
theorem readMask_bytes {bytes : List UInt8} (hlast : ∀ b ∈ bytes.getLast?, b ≠ 0) (rest : List UInt8) :
    readMask (bytes.countP fun b => decide (b ≠ 0)) (bytes ++ rest) = some (bytes.flatMap availBits, rest) := by
  induction bytes with
  | nil =>
    rw [countP_nil, readMask]
    rfl
  | cons chAvail bytes ih =>
    have ih := ih fun b hb => hlast b (by
      cases bytes with
      | nil => simp at hb
      | cons c bytes => rw [getLast?_cons_cons]; exact hb)
    rw [flatMap_cons]
    by_cases hzero : chAvail = 0
    · -- A zero byte is not the last one, so that there is another non-zero byte to come.
      have hpos : 0 < bytes.countP fun b => decide (b ≠ 0) := by
        cases hb : bytes.getLast? with
        | none =>
          rw [getLast?_eq_none_iff] at hb
          subst hb
          exact absurd hzero (hlast chAvail (by simp))
        | some b =>
          have hmem : b ∈ bytes := mem_of_getLast? hb
          have hne : b ≠ 0 := hlast b (by
            rw [getLast?_cons, hb]
            simp)
          exact countP_pos_iff.mpr ⟨b, hmem, decide_eq_true hne⟩
      rw [countP_cons_of_neg (by simp [hzero])]
      obtain ⟨n, hn⟩ := Nat.exists_eq_succ_of_ne_zero (Nat.pos_iff_ne_zero.mp hpos)
      rw [hn] at ih ⊢
      rw [cons_append, readMask, if_neg (by simp [hzero]), ih]
      rfl
    · rw [countP_cons_of_pos (by simp [hzero]), cons_append, readMask, if_pos hzero, ih]
      rfl

namespace CCoins

/-! ## The header -/

/-- What the loop of `CalcMaskSize` has found before byte `b`. -/
structure MaskCounted (c : CCoins) (b nLastUsedByte nNonzeroBytes : Nat) : Prop where
  le : nLastUsedByte ≤ b
  unused : ∀ b', nLastUsedByte ≤ b' → b' < b → c.byteUsed b' = false
  used : ∀ k, nLastUsedByte = k + 1 → c.byteUsed k = true
  count : nNonzeroBytes = (range nLastUsedByte).countP c.byteUsed

theorem countP_range_of_unused {p : Nat → Bool} {m n : Nat} (hmn : m ≤ n)
    (h : ∀ b, m ≤ b → b < n → p b = false) : (range n).countP p = (range m).countP p := by
  induction n with
  | zero =>
    obtain rfl : m = 0 := by omega
    rfl
  | succ n ih =>
    rcases Nat.eq_or_lt_of_le hmn with rfl | hlt
    · rfl
    · have hlast : p n = false := h n (by omega) (by omega)
      rw [range_succ, countP_append, ih (by omega) fun b hm hb => h b hm (by omega)]
      simp [hlast]

theorem MaskCounted.step {b last n : Nat} (h : MaskCounted c b last n) :
    (c.byteUsed b → MaskCounted c (b + 1) (b + 1) (n + 1)) ∧
    (c.byteUsed b = false → MaskCounted c (b + 1) last n) := by
  constructor
  · intro hb
    refine ⟨Nat.le_refl _, fun b' hle hlt => by omega, fun k hk => ?_, ?_⟩
    · obtain rfl : b = k := by omega
      exact hb
    · rw [range_succ, countP_append, countP_range_of_unused h.le h.unused, ← h.count]
      simp [hb]
  · intro hb
    refine ⟨by have := h.le; omega, fun b' hle hlt => ?_, h.used, h.count⟩
    rcases Nat.lt_succ_iff_lt_or_eq.mp hlt with hlt | rfl
    · exact h.unused b' hle hlt
    · exact hb

theorem byteUsed_eq_false {b : Nat} (h : c.vout.length ≤ 2 + b * 8) : c.byteUsed b = false := by
  rw [byteUsed, any_eq_false]
  intro i _
  rw [isAvailable, getElem?_eq_none (by omega)]
  exact Bool.false_ne_true

theorem calcMaskLoop_counted {turns b last n : Nat} (hturns : c.vout.length ≤ 2 + (b + turns) * 8)
    (h : MaskCounted c b last n) :
    ∃ b', c.vout.length ≤ 2 + b' * 8 ∧
      MaskCounted c b' (c.calcMaskLoop turns b last n).1 (c.calcMaskLoop turns b last n).2 := by
  induction turns generalizing b last n with
  | zero => exact ⟨b, hturns, h⟩
  | succ turns ih =>
    rw [calcMaskLoop]
    split_ifs with hlt hused
    · exact ih (by omega) (h.step.1 hused)
    · exact ih (by omega) (h.step.2 (Bool.eq_false_iff.mpr hused))
    · exact ⟨b, by omega, h⟩

/-- The two numbers of `CalcMaskSize`: behind the last used byte there is none, and every used byte is counted. -/
theorem calcMaskSize_spec (c : CCoins) :
    (∀ b, c.calcMaskSize.1 ≤ b → c.byteUsed b = false) ∧
    (∀ k, c.calcMaskSize.1 = k + 1 → c.byteUsed k) ∧
    c.calcMaskSize.2 = (range c.calcMaskSize.1).countP c.byteUsed := by
  have hstart : MaskCounted c 0 0 0 := ⟨Nat.le_refl _, fun b' _ hlt => by omega, fun k hk => by omega, rfl⟩
  have hturns : c.vout.length ≤ 2 + (0 + c.vout.length) * 8 := by omega
  obtain ⟨b, hlen, h⟩ := calcMaskLoop_counted hturns hstart
  refine ⟨fun b' hle => ?_, h.used, h.count⟩
  rcases Nat.lt_or_ge b' b with hlt | hge
  · exact h.unused b' hle hlt
  · exact byteUsed_eq_false (by omega)

/-- The mask as it is written. -/
def maskBytes (c : CCoins) : List UInt8 :=
  (range c.calcMaskSize.1).map fun b => availByte fun i => c.isAvailable (2 + b * 8 + i)

theorem countP_maskBytes (c : CCoins) : c.maskBytes.countP (fun b => decide (b ≠ 0)) = c.calcMaskSize.2 := by
  rw [(calcMaskSize_spec c).2.2, maskBytes, countP_map]
  congr 1
  funext b
  show decide (availByte _ ≠ 0) = _
  rw [Bool.eq_iff_iff, decide_eq_true_iff, availByte_ne_zero_iff]
  rfl

theorem maskBytes_getLast (c : CCoins) : ∀ b ∈ c.maskBytes.getLast?, b ≠ 0 := by
  intro chAvail hlast
  obtain ⟨-, hused, -⟩ := calcMaskSize_spec c
  rw [maskBytes] at hlast
  cases hsize : c.calcMaskSize.1 with
  | zero =>
    rw [hsize] at hlast
    simp at hlast
  | succ k =>
    rw [hsize, range_succ, map_append, map_singleton, getLast?_concat] at hlast
    cases hlast
    exact (availByte_ne_zero_iff _).mpr (hused k hsize)

theorem flatMap_maskBytes (c : CCoins) :
    c.maskBytes.flatMap availBits = (range (8 * c.calcMaskSize.1)).map fun i => c.isAvailable (2 + i) := by
  rw [maskBytes]
  generalize c.calcMaskSize.1 = n
  induction n with
  | zero => rfl
  | succ n ih =>
    have hsplit : 8 * (n + 1) = 8 * n + 8 := by omega
    rw [range_succ, map_append, flatMap_append, ih, map_singleton, flatMap_singleton,
      availBits_availByte, hsplit, range_add, map_append, map_map]
    congr 1
    apply map_congr_left
    intro i _
    show c.isAvailable (2 + n * 8 + i) = c.isAvailable (2 + (8 * n + i))
    congr 1
    omega

/-- The four parts of `nCode` can be told apart. -/
theorem header_bits (nMaskCode : Nat) (fCoinBase fFirst fSecond : Bool) :
    ∃ nCode, nCode = 8 * nMaskCode + (if fCoinBase then 1 else 0) + (if fFirst then 2 else 0) +
        (if fSecond then 4 else 0) ∧
      decide (nCode &&& 1 ≠ 0) = fCoinBase ∧ decide (nCode &&& 2 ≠ 0) = fFirst ∧ decide (nCode &&& 4 ≠ 0) = fSecond ∧
      (nCode &&& 6 ≠ 0 ↔ (fFirst || fSecond)) ∧ nCode / 8 = nMaskCode := by
  refine ⟨_, rfl, ?_⟩
  have hand : ∀ i n : Nat, n &&& 2 ^ i ≠ 0 ↔ n / 2 ^ i % 2 = 1 := by
    intro i n
    rw [← decide_eq_true_iff (p := n / 2 ^ i % 2 = 1), ← Nat.testBit_eq_decide_div_mod_eq]
    constructor
    · intro hne
      by_contra hbit
      apply hne
      apply Nat.eq_of_testBit_eq
      intro j
      rw [Nat.testBit_and, Nat.testBit_two_pow, Nat.zero_testBit]
      by_cases hij : i = j
      · subst hij
        rw [Bool.eq_false_iff.mpr hbit, Bool.false_and]
      · rw [decide_eq_false hij, Bool.and_false]
    · intro hbit hzero
      have hbits : (n &&& 2 ^ i).testBit i = false := by rw [hzero, Nat.zero_testBit]
      rw [Nat.testBit_and, Nat.testBit_two_pow_self, hbit] at hbits
      cases hbits
  have hand6 : ∀ n : Nat, n &&& 6 ≠ 0 ↔ n / 2 % 2 = 1 ∨ n / 4 % 2 = 1 := by
    intro n
    have hsplit : n &&& 6 = (n &&& 2 ^ 1) ||| (n &&& 2 ^ 2) := (Nat.and_or_distrib_left n 2 4)
    rw [hsplit, ne_eq, Nat.or_eq_zero_iff, not_and_or]
    exact or_congr (hand 1 n) (hand 2 n)
  have hand1 : ∀ n : Nat, n &&& 1 ≠ 0 ↔ n / 1 % 2 = 1 := hand 0
  have hand2 : ∀ n : Nat, n &&& 2 ≠ 0 ↔ n / 2 % 2 = 1 := hand 1
  have hand4 : ∀ n : Nat, n &&& 4 ≠ 0 ↔ n / 4 % 2 = 1 := hand 2
  simp only [hand1, hand2, hand4, hand6]
  cases fCoinBase <;> cases fFirst <;> cases fSecond <;> simp <;> omega

theorem byteUsed_of_isAvailable {n : Nat} (h : c.isAvailable (2 + n)) : c.byteUsed (n / 8) = true := by
  rw [byteUsed, any_eq_true]
  refine ⟨n % 8, mem_range.mpr (Nat.mod_lt _ (by omega)), ?_⟩
  have hindex : 2 + n / 8 * 8 + n % 8 = 2 + n := by omega
  rw [hindex]
  exact h

/-- The header of an object that is not pruned. -/
theorem header_eq_some (hpruned : c.isPruned = false) : ∃ nCode, c.header = some (c.calcMaskSize.1, nCode) ∧
      decide (nCode &&& 1 ≠ 0) = c.fCoinBase ∧ decide (nCode &&& 2 ≠ 0) = c.isAvailable 0 ∧
      decide (nCode &&& 4 ≠ 0) = c.isAvailable 1 ∧
      nCode / 8 + (if nCode &&& 6 ≠ 0 then 0 else 1) = c.calcMaskSize.2 := by
  obtain ⟨hunused, -, hcount⟩ := calcMaskSize_spec c
  have hsome : c.isAvailable 0 = true ∨ c.isAvailable 1 = true ∨ c.calcMaskSize.2 ≠ 0 := by
    obtain ⟨n, out, hout⟩ := isPruned_eq_false_iff.mp hpruned
    have havail : c.isAvailable n = true := by rw [isAvailable_eq_isSome, hout]; rfl
    rcases n with _ | _ | n
    · exact .inl havail
    · exact .inr (.inl havail)
    · right
      right
      have hused : c.byteUsed (n / 8) = true := byteUsed_of_isAvailable (by rw [Nat.add_comm]; exact havail)
      have hlt : n / 8 < c.calcMaskSize.1 := by
        by_contra hge
        rw [hunused (n / 8) (by omega)] at hused
        cases hused
      have hpos := countP_pos_iff.mpr ⟨n / 8, mem_range.mpr hlt, hused⟩
      omega
  obtain ⟨nCode, hcode, hbase, hfirst, hsecond, hboth, hmask⟩ :=
    header_bits (c.calcMaskSize.2 - (if c.isAvailable 0 || c.isAvailable 1 then 0 else 1)) c.fCoinBase
      (c.isAvailable 0) (c.isAvailable 1)
  refine ⟨nCode, ?_, hbase, hfirst, hsecond, ?_⟩
  · rw [header, hcode]
    exact if_pos hsome
  · rw [hmask]
    by_cases h : (c.isAvailable 0 || c.isAvailable 1) = true
    · rw [if_pos h, if_pos (hboth.mpr h)]
      omega
    · have hne : c.calcMaskSize.2 ≠ 0 := by
        rw [Bool.or_eq_true, not_or] at h
        rcases hsome with h0 | h1 | hne
        · exact absurd h0 h.1
        · exact absurd h1 h.2
        · exact hne
      rw [if_neg h, if_neg (fun hand => h (hboth.mp hand))]
      omega

/-! ## Outputs in order -/

/-- What `SetNull` leaves of a spent output. -/
def settle (out : CTxOut) : CTxOut :=
  if out.isNull then CTxOut.null else out

/-- The object with its spent outputs as `SetNull` leaves them. -/
def settled (c : CCoins) : CCoins :=
  { c with vout := c.vout.map settle }

theorem isNull_settle (out : CTxOut) : (settle out).isNull = out.isNull := by
  unfold settle
  split_ifs with h
  · rw [h]
    rfl
  · rfl

theorem out?_settled (c : CCoins) (n : Nat) : c.settled.out? n = c.out? n := by
  show ((c.vout.map settle)[n]?).filter _ = (c.vout[n]?).filter _
  rw [getElem?_map]
  cases c.vout[n]? with
  | none => rfl
  | some out =>
    rw [Option.map_some, Option.filter_some, Option.filter_some, isNull_settle]
    cases h : out.isNull with
    | true => rfl
    | false => simp [settle, h]

theorem settled_eq_self (h : ∀ out ∈ c.vout, out.isNull → out = CTxOut.null) : c.settled = c := by
  have hvout : c.vout.map settle = c.vout := by
    refine (map_congr_left fun out hout => ?_).trans (map_id c.vout)
    unfold settle
    split_ifs with hnull
    · exact (h out hout hnull).symm
    · rfl
  rw [settled, hvout]

theorem Clean.getLast_isNull (hclean : c.Clean) (hne : c.vout ≠ []) : (c.vout.getLast hne).isNull = false := by
  have hself : c.vout.rdropWhile CTxOut.isNull = c.vout := congrArg CCoins.vout hclean
  exact Bool.eq_false_iff.mpr (rdropWhile_eq_self_iff.mp hself hne)

/-- The mask reaches the last output. -/
theorem Clean.length_vout_le (hclean : c.Clean) : c.vout.length ≤ 2 + 8 * c.calcMaskSize.1 := by
  by_contra hlong
  have hne : c.vout ≠ [] := by
    intro hnil
    rw [hnil] at hlong
    exact hlong (Nat.zero_le _)
  have havail : c.isAvailable (2 + (c.vout.length - 3)) = true := by
    have hindex : 2 + (c.vout.length - 3) = c.vout.length - 1 := by omega
    have hlast : c.vout[c.vout.length - 1]? = some (c.vout.getLast hne) := by
      rw [← getLast?_eq_getElem?, getLast?_eq_some_getLast hne]
    rw [isAvailable, hindex, hlast]
    show (!(c.vout.getLast hne).isNull) = true
    rw [hclean.getLast_isNull hne]
    rfl
  have hused := byteUsed_of_isAvailable havail
  rw [(calcMaskSize_spec c).1 _ (by omega)] at hused
  cases hused

/-- The outputs with the null ones that the last byte of the mask has room for. -/
def padded (c : CCoins) : List CTxOut :=
  c.vout ++ List.replicate (2 + 8 * c.calcMaskSize.1 - c.vout.length) CTxOut.null

theorem Clean.map_padded (hclean : c.Clean) :
    c.isAvailable 0 :: c.isAvailable 1 :: c.maskBytes.flatMap availBits = c.padded.map fun out => !out.isNull := by
  have hlen := hclean.length_vout_le
  rw [flatMap_maskBytes]
  have hrange : c.isAvailable 0 :: c.isAvailable 1 ::
      (range (8 * c.calcMaskSize.1)).map (fun i => c.isAvailable (2 + i)) =
      (range (2 + 8 * c.calcMaskSize.1)).map c.isAvailable := by
    rw [range_add, map_append, map_map]
    rfl
  rw [hrange]
  apply ext_getElem?
  intro i
  rw [getElem?_map, getElem?_map, padded]
  rcases Nat.lt_or_ge i (2 + 8 * c.calcMaskSize.1) with hi | hi
  · rw [getElem?_range hi, Option.map_some]
    rcases Nat.lt_or_ge i c.vout.length with hv | hv
    · rw [getElem?_append_left hv, isAvailable, getElem?_eq_getElem hv]
      rfl
    · rw [getElem?_append_right hv, getElem?_replicate_of_lt (by omega), isAvailable, getElem?_eq_none hv]
      rfl
  · rw [getElem?_eq_none (by simpa using hi), getElem?_eq_none (by simp; omega)]
    rfl

theorem Clean.cleanup_padded (hclean : c.Clean) : cleanup { c with vout := c.padded.map settle } = c.settled := by
  have hself : ∀ k, (c.vout.map settle ++ List.replicate k CTxOut.null).rdropWhile CTxOut.isNull =
      c.vout.map settle := by
    intro k
    induction k with
    | zero =>
      rw [replicate_zero, append_nil, rdropWhile_eq_self_iff]
      intro hne
      have hne' : c.vout ≠ [] := fun hnil => hne (by rw [hnil]; rfl)
      rw [getLast_map, isNull_settle, hclean.getLast_isNull hne']
      exact Bool.false_ne_true
    | succ k ih => rw [replicate_succ', ← append_assoc, rdropWhile_concat_pos _ _ _ rfl, ih]
  rw [cleanup, settled, padded, map_append, map_replicate]
  have hnull : settle CTxOut.null = CTxOut.null := rfl
  rw [hnull]
  exact congrArg (fun vout => { c with vout := vout }) (hself _)

/-! ## Round trip -/

theorem length_serialize (c : CCoins) : (c.serialize K).map List.length = c.getSerializeSize K := by
  rw [serialize, getSerializeSize, Option.map_map]
  congr 1
  funext header
  have houts : (c.vout.flatMap fun out => if out.isNull then [] else CTxOutCompressor.serialize K out).length =
      (c.vout.map fun out => if out.isNull then 0 else CTxOutCompressor.getSerializeSize K out).sum := by
    rw [length_flatMap]
    congr 1
    refine map_congr_left fun out _ => ?_
    split_ifs
    · rfl
    · exact CTxOutCompressor.length_serialize K out
  simp only [Function.comp_apply, length_append, length_writeVarInt, length_map, length_range, houts, length_singleton]
  omega

/-- The outputs are read where the mask has a bit. -/
theorem reads_outputs (hout : ∀ out ∈ c.vout, out.isNull = false → CTxOutCompressor.Survives K out) :
    Reads (each ((c.padded.map fun out => !out.isNull).map fun f =>
        if f then CTxOutCompressor.unserialize K else pure CTxOut.null))
      (c.vout.flatMap fun out => if out.isNull then [] else CTxOutCompressor.serialize K out)
      (c.padded.map settle) := by
  have hbytes : (c.vout.flatMap fun out => if out.isNull then [] else CTxOutCompressor.serialize K out) =
      c.padded.flatMap fun out => if out.isNull then [] else CTxOutCompressor.serialize K out := by
    rw [padded, flatMap_append, flatMap_replicate]
    simp
  rw [hbytes, map_map]
  refine reads_each fun out hmem => ?_
  show Reads (if !out.isNull then CTxOutCompressor.unserialize K else pure CTxOut.null)
    (if out.isNull then [] else CTxOutCompressor.serialize K out) (settle out)
  cases hnull : out.isNull with
  | true =>
    rw [settle, if_pos hnull]
    exact reads_pure CTxOut.null
  | false =>
    rw [settle, hnull]
    have hmem : out ∈ c.vout := by
      rw [padded, mem_append] at hmem
      rcases hmem with hmem | hmem
      · exact hmem
      · rw [eq_of_mem_replicate hmem] at hnull
        cases hnull
    exact (hout out hmem hnull).reads

theorem reads_coinstake (fCoinStake : Bool) :
    Reads (readData 1) [if fCoinStake then 1 else 0] (if fCoinStake then 1 else 0) := by
  cases fCoinStake with
  | false => exact reads_readData (w := 1) (n := 0) (by decide)
  | true => exact reads_readData (w := 1) (n := 1) (by decide)

theorem reads_unserialize {bytes : List UInt8} (hbytes : c.serialize K = some bytes)
    (hpruned : c.isPruned = false) (hclean : c.Clean) (hversion : 0 ≤ c.nVersion) (htime : 0 ≤ c.nTime)
    (hout : ∀ out ∈ c.vout, out.isNull = false → CTxOutCompressor.Survives K out) :
    Reads (unserialize K) bytes c.settled := by
  obtain ⟨nCode, hheader, hbase, hfirst, hsecond, hmask⟩ := header_eq_some hpruned
  rw [serialize, hheader, Option.map_some, Option.some_inj] at hbytes
  rw [← hbytes]
  obtain ⟨nVersion, hnVersion⟩ := Int.eq_ofNat_of_zero_le hversion
  obtain ⟨nTime, hnTime⟩ := Int.eq_ofNat_of_zero_le htime
  rw [hnVersion, hnTime]
  refine reads_bind (CScriptCompressor.reads_readVarInt nVersion) ?_
  refine reads_bind (CScriptCompressor.reads_readVarInt nCode) ?_
  dsimp only
  rw [hmask, hbase, hfirst, hsecond, ← countP_maskBytes]
  have hread : Reads (readMask (c.maskBytes.countP fun b => decide (b ≠ 0)) : Reader UInt8 (List Bool)) c.maskBytes
      (c.maskBytes.flatMap availBits) := readMask_bytes c.maskBytes_getLast
  refine reads_bind hread ?_
  rw [hclean.map_padded]
  refine reads_bind (reads_outputs K hout) ?_
  refine reads_bind (CScriptCompressor.reads_readVarInt c.nHeight) ?_
  refine reads_bind (CScriptCompressor.reads_readVarInt nTime) ?_
  refine reads_last (reads_coinstake c.fCoinStake) ?_
  have hstake : decide ((if c.fCoinStake then 1 else 0) &&& 1 ≠ 0) = c.fCoinStake := by
    cases c.fCoinStake <;> rfl
  have hresult : CCoins.mk c.fCoinBase c.fCoinStake nTime (c.padded.map settle) c.nHeight nVersion =
      { c with vout := c.padded.map settle } := by
    rw [← hnTime, ← hnVersion]
  rw [hstake, hresult, hclean.cleanup_padded]
  exact reads_pure c.settled

end CCoins

/-- An object that is neither pruned nor followed by spent outputs is written in `GetSerializeSize` bytes, and reading
them gives it back: the flags, the height, the time, the version and the outputs.  A spent output comes back as
`SetNull` leaves it. -/
theorem coins_come_back {K : CPubKey.Curve} {c : CCoins} (hpruned : c.isPruned = false) (hclean : c.Clean)
    (hversion : 0 ≤ c.nVersion) (htime : 0 ≤ c.nTime)
    (hout : ∀ out ∈ c.vout, out.isNull = false → CTxOutCompressor.Survives K out) :
    ∃ bytes c', c.serialize K = some bytes ∧ c.getSerializeSize K = some bytes.length ∧
      (CCoins.unserialize K).run bytes = some (c', []) ∧
      c'.fCoinBase = c.fCoinBase ∧ c'.fCoinStake = c.fCoinStake ∧ c'.nHeight = c.nHeight ∧ c'.nTime = c.nTime ∧
      c'.nVersion = c.nVersion ∧ c'.vout.length = c.vout.length ∧ (∀ n, c'.out? n = c.out? n) ∧
      ((∀ out ∈ c.vout, out.isNull = true → out = CTxOut.null) → c' = c) := by
  obtain ⟨nCode, hheader, -⟩ := CCoins.header_eq_some hpruned
  obtain ⟨bytes, hbytes⟩ : ∃ bytes, c.serialize K = some bytes := by
    rw [CCoins.serialize, hheader]
    exact ⟨_, rfl⟩
  have hsize := CCoins.length_serialize K c
  rw [hbytes] at hsize
  have hread := CCoins.reads_unserialize K hbytes hpruned hclean hversion htime hout []
  rw [append_nil] at hread
  exact ⟨bytes, c.settled, hbytes, hsize.symm, hread, rfl, rfl, rfl, rfl, rfl, length_map _, c.out?_settled,
    CCoins.settled_eq_self⟩

/-- A coinbase of which only the fifth output is left, a payment to the key of the generator. -/
def fifthOutput : CCoins :=
  { fCoinBase := true
    fCoinStake := false
    nTime := 1400000000
    vout := [CTxOut.null, CTxOut.null, CTxOut.null, CTxOut.null, { nValue := 234925952, scriptPubKey := generatorScript }]
    nHeight := 120891
    nVersion := 1 }

theorem fifthOutput_comes_back :
    ∃ bytes c', fifthOutput.serialize generatorCurve = some bytes ∧
      fifthOutput.getSerializeSize generatorCurve = some bytes.length ∧
      (CCoins.unserialize generatorCurve).run bytes = some (c', []) ∧
      c'.fCoinBase = fifthOutput.fCoinBase ∧ c'.fCoinStake = fifthOutput.fCoinStake ∧
      c'.nHeight = fifthOutput.nHeight ∧ c'.nTime = fifthOutput.nTime ∧ c'.nVersion = fifthOutput.nVersion ∧
      c'.vout.length = fifthOutput.vout.length ∧ (∀ n, c'.out? n = fifthOutput.out? n) ∧
      ((∀ out ∈ fifthOutput.vout, out.isNull = true → out = CTxOut.null) → c' = fifthOutput) :=
  coins_come_back (by decide) (by decide) (by decide) (by decide) (by decide)

end Reddcoin
