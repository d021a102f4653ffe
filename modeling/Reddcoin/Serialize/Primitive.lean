import Mathlib.Data.Nat.ModEq
import Mathlib.Tactic.Positivity
import Mathlib.Tactic.Ring
import Reddcoin.Lib.Stream

/-!
# Serializing integers and vectors

The basic types, `WriteCompactSize` and `ReadCompactSize`, and the vectors of `serialize.h`.  An integer is
written as it lies in memory, the lowest byte first.
-/

namespace Reddcoin

open Stream List

/-! ## Integers -/

/-- `WRITEDATA` of an unsigned integer of `w` bytes. -/
def writeData : Nat → Nat → List UInt8
  | 0, _ => []
  | w + 1, n => UInt8.ofNat (n % 256) :: writeData w (n / 256)

/-- The integer in a sequence of bytes. -/
def leNat : List UInt8 → Nat
  | [] => 0
  | b :: bs => b.toNat + 256 * leNat bs

/-- `READDATA` of an unsigned integer of `w` bytes. -/
def readData (w : Nat) : Reader UInt8 Nat := do
  let bytes ← symbols w
  pure (leNat bytes)

/-- `WRITEDATA` of a signed integer of `w` bytes. -/
def writeSigned (w : Nat) (x : Int) : List UInt8 :=
  writeData w (x % (256 ^ w : Nat)).toNat

/-- `READDATA` of a signed integer of `w` bytes. -/
def readSigned (w : Nat) : Reader UInt8 Int := do
  let n ← readData w
  pure (Int.bmod n (256 ^ w))

/-- The values of a signed integer of `w` bytes. -/
def SignedRange (w : Nat) (x : Int) : Prop :=
  -(256 ^ w / 2 : Nat) ≤ x ∧ x < (256 ^ w / 2 : Nat)

instance (w : Nat) (x : Int) : Decidable (SignedRange w x) :=
  inferInstanceAs (Decidable (_ ∧ _))

@[simp]
theorem length_writeData (w n : Nat) : (writeData w n).length = w := by
  induction w generalizing n with
  | zero => rfl
  | succ w ih => rw [writeData, length_cons, ih]

theorem leNat_lt (bytes : List UInt8) : leNat bytes < 256 ^ bytes.length := by
  induction bytes with
  | nil => simp [leNat]
  | cons b bs ih =>
    have hb := b.toNat_lt
    rw [leNat, length_cons, Nat.pow_succ]
    omega

theorem leNat_writeData {w n : Nat} (hn : n < 256 ^ w) : leNat (writeData w n) = n := by
  induction w generalizing n with
  | zero =>
    simp only [Nat.pow_zero] at hn
    simp only [writeData, leNat]
    omega
  | succ w ih =>
    rw [Nat.pow_succ] at hn
    have hrest : n / 256 < 256 ^ w := by omega
    have hbyte : (UInt8.ofNat (n % 256)).toNat = n % 256 := by
      rw [UInt8.toNat_ofNat']
      omega
    rw [writeData, leNat, ih hrest, hbyte]
    omega

theorem writeData_leNat (bytes : List UInt8) : writeData bytes.length (leNat bytes) = bytes := by
  induction bytes with
  | nil => rfl
  | cons b bs ih =>
    have hb := b.toNat_lt
    rw [length_cons, writeData, leNat]
    have hlow : (b.toNat + 256 * leNat bs) % 256 = b.toNat := by omega
    have hhigh : (b.toNat + 256 * leNat bs) / 256 = leNat bs := by omega
    rw [hlow, hhigh, ih, UInt8.ofNat_toNat]

theorem reads_readData {w n : Nat} (hn : n < 256 ^ w) : Reads (readData w) (writeData w n) n := by
  have hbytes := reads_symbols (writeData w n)
  rw [length_writeData] at hbytes
  refine reads_last hbytes ?_
  rw [leNat_writeData hn]
  exact reads_pure n

theorem consumes_readData (w : Nat) :
    Consumes (readData w) fun n taken => n < 256 ^ w ∧ taken = writeData w n := by
  refine (consumes_bind (consumes_symbols w) fun bytes => consumes_pure (leNat bytes)).mono ?_
  rintro n taken ⟨bytes, u, v, rfl, ⟨rfl, hlen⟩, rfl, rfl⟩
  rw [append_nil, ← hlen]
  exact ⟨leNat_lt bytes, (writeData_leNat bytes).symm⟩

theorem reads_readSigned {w : Nat} {x : Int} (hx : SignedRange w x) :
    Reads (readSigned w) (writeSigned w x) x := by
  obtain ⟨hlo, hhi⟩ := hx
  have hpos : (0 : Int) < (256 ^ w : Nat) := by positivity
  have hlow := Int.emod_nonneg x (ne_of_gt hpos)
  have hvalue : Int.bmod ((x % (256 ^ w : Nat)).toNat : Nat) (256 ^ w) = x := by
    rw [Int.toNat_of_nonneg hlow, Int.emod_bmod]
    exact Int.bmod_eq_of_le (by omega) (by omega)
  refine reads_last (reads_readData (by omega)) ?_
  rw [hvalue]
  exact reads_pure x

theorem consumes_readSigned {w : Nat} (hw : 0 < w) :
    Consumes (readSigned w) fun x taken => SignedRange w x ∧ taken = writeSigned w x := by
  refine (consumes_bind (consumes_readData w) fun n => consumes_pure _).mono ?_
  rintro x taken ⟨n, u, v, rfl, ⟨hn, rfl⟩, rfl, rfl⟩
  have hpos : 0 < 256 ^ w := by positivity
  have heven : 256 ^ w = 2 * (256 ^ w / 2) := by
    obtain ⟨k, rfl⟩ := Nat.exists_eq_succ_of_ne_zero (Nat.pos_iff_ne_zero.mp hw)
    rw [Nat.pow_succ]
    omega
  have hlo := Int.le_bmod (x := (n : Int)) hpos
  have hhi := Int.bmod_lt (x := (n : Int)) hpos
  refine ⟨⟨by omega, by omega⟩, ?_⟩
  unfold writeSigned
  rw [append_nil, Int.bmod_emod, Int.emod_eq_of_lt (by omega) (by omega)]
  rfl

/-! ## Sizes -/

def MAX_SIZE : Nat := 0x02000000

def writeCompactSize (nSize : Nat) : List UInt8 :=
  if nSize < 253 then writeData 1 nSize
  else if nSize ≤ 0xffff then writeData 1 253 ++ writeData 2 nSize
  else if nSize ≤ 0xffffffff then writeData 1 254 ++ writeData 4 nSize
  else writeData 1 255 ++ writeData 8 nSize

/-- The long forms: `w` bytes, for a size that does not fit a shorter form. -/
def readSizeOf (w least : Nat) : Reader UInt8 Nat := do
  let xSize ← readData w
  if xSize < least then failure else pure xSize

/-- The size that starts with the byte `chSize`. -/
def readSizeForm (chSize : Nat) : Reader UInt8 Nat :=
  if chSize < 253 then pure chSize
  else if chSize = 253 then readSizeOf 2 253
  else if chSize = 254 then readSizeOf 4 0x10000
  else readSizeOf 8 0x100000000

def readCompactSize : Reader UInt8 Nat := do
  let chSize ← readData 1
  let nSizeRet ← readSizeForm chSize
  if MAX_SIZE < nSizeRet then failure else pure nSizeRet

theorem reads_readSizeOf {w least n : Nat} (hleast : least ≤ n) (hn : n < 256 ^ w) :
    Reads (readSizeOf w least) (writeData w n) n := by
  refine reads_last (reads_readData hn) ?_
  rw [if_neg (by omega)]
  exact reads_pure n

theorem consumes_readSizeOf (w least : Nat) :
    Consumes (readSizeOf w least) fun n taken => least ≤ n ∧ n < 256 ^ w ∧ taken = writeData w n := by
  have htest : ∀ n, Consumes (if n < least then failure else pure n : Reader UInt8 Nat)
      fun m taken => least ≤ n ∧ m = n ∧ taken = [] := by
    intro n
    split_ifs with hlt
    · exact consumes_failure _
    · exact (consumes_pure n).mono fun m taken h => ⟨by omega, h⟩
  refine (consumes_bind (consumes_readData w) htest).mono ?_
  rintro m taken ⟨n, u, v, rfl, ⟨hn, rfl⟩, hle, rfl, rfl⟩
  exact ⟨hle, hn, append_nil _⟩

theorem reads_readSizeForm {n : Nat} (hn : n < 256 ^ 8) :
    Reads (readData 1 >>= readSizeForm) (writeCompactSize n) n := by
  unfold writeCompactSize
  split_ifs with h₁ h₂ h₃
  · refine reads_last (reads_readData (by omega)) ?_
    unfold readSizeForm
    rw [if_pos h₁]
    exact reads_pure n
  · exact reads_bind (reads_readData (by omega)) (reads_readSizeOf (by omega) (by omega))
  · exact reads_bind (reads_readData (by omega)) (reads_readSizeOf (by omega) (by omega))
  · exact reads_bind (reads_readData (by omega)) (reads_readSizeOf (by omega) (by omega))

theorem readCompactSize_eq : readCompactSize = (readData 1 >>= readSizeForm) >>= fun nSizeRet =>
    if MAX_SIZE < nSizeRet then failure else pure nSizeRet :=
  (bind_assoc _ _ _).symm

theorem reads_readCompactSize {n : Nat} (hn : n ≤ MAX_SIZE) :
    Reads readCompactSize (writeCompactSize n) n := by
  have hmax : MAX_SIZE = 0x02000000 := rfl
  rw [readCompactSize_eq]
  refine reads_last (reads_readSizeForm (by omega)) ?_
  rw [if_neg (by omega)]
  exact reads_pure n

/-- Only the shortest form of a size is accepted. -/
theorem consumes_readCompactSize :
    Consumes readCompactSize fun n taken => n ≤ MAX_SIZE ∧ taken = writeCompactSize n := by
  have hform : ∀ ch, Consumes (readSizeForm ch) fun n taken =>
      ch < 256 → writeData 1 ch ++ taken = writeCompactSize n := by
    intro ch
    unfold readSizeForm
    split_ifs with h₁ h₂ h₃
    · refine (consumes_pure ch).mono ?_
      rintro n taken ⟨rfl, rfl⟩ -
      rw [writeCompactSize, if_pos h₁, append_nil]
    · refine (consumes_readSizeOf 2 253).mono ?_
      rintro n taken ⟨hle, hlt, rfl⟩ -
      rw [writeCompactSize, if_neg (by omega), if_pos (by omega), h₂]
    · refine (consumes_readSizeOf 4 0x10000).mono ?_
      rintro n taken ⟨hle, hlt, rfl⟩ -
      rw [writeCompactSize, if_neg (by omega), if_neg (by omega), if_pos (by omega), h₃]
    · refine (consumes_readSizeOf 8 0x100000000).mono ?_
      rintro n taken ⟨hle, hlt, rfl⟩ hch
      rw [writeCompactSize, if_neg (by omega), if_neg (by omega), if_neg (by omega), show ch = 255 by omega]
  have hlast : ∀ n, Consumes (if MAX_SIZE < n then failure else pure n : Reader UInt8 Nat)
      fun m taken => n ≤ MAX_SIZE ∧ m = n ∧ taken = [] := by
    intro n
    split_ifs with hlt
    · exact consumes_failure _
    · exact (consumes_pure n).mono fun m taken h => ⟨by omega, h⟩
  refine (consumes_bind (consumes_readData 1) fun ch => consumes_bind (hform ch) hlast).mono ?_
  rintro n taken ⟨ch, u, v, rfl, ⟨hch, rfl⟩, m, u', v', rfl, hu', hm, rfl, rfl⟩
  refine ⟨hm, ?_⟩
  rw [append_nil]
  exact hu' hch

/-! ## Vectors -/

/-- `Serialize_impl` of a vector. -/
def writeVector {α : Type} (write : α → List UInt8) (v : List α) : List UInt8 :=
  writeCompactSize v.length ++ v.flatMap write

/-- `Unserialize_impl` of a vector: at most `chunk` items are made room for at a time. -/
def readVector {α : Type} (read : Nat → Reader UInt8 (List α)) (chunk : Nat) : Reader UInt8 (List α) := do
  let nSize ← readCompactSize
  chunks read chunk nSize nSize 0

/-- `Serialize` of a `vector<unsigned char>` or a script. -/
def writeBytes (v : List UInt8) : List UInt8 :=
  writeCompactSize v.length ++ v

/-- `Unserialize` of a `vector<unsigned char>` or a script. -/
def readBytes : Reader UInt8 (List UInt8) :=
  readVector symbols 5000000

theorem readVector_eq {α : Type} {read : Nat → Reader UInt8 (List α)} (hread : Splits read) {chunk : Nat}
    (hchunk : 0 < chunk) : readVector read chunk = readCompactSize >>= read := by
  unfold readVector
  congr 1
  funext nSize
  rw [chunks_eq hread hchunk (Nat.le_of_eq (Nat.sub_zero nSize)), Nat.sub_zero]

theorem reads_readVector {α : Type} {x : Reader UInt8 α} {write : α → List UInt8} {chunk : Nat}
    (hchunk : 0 < chunk) {v : List α} (hsize : v.length ≤ MAX_SIZE) (h : ∀ a ∈ v, Reads x (write a) a) :
    Reads (readVector (many x) chunk) (writeVector write v) v := by
  rw [readVector_eq (splits_many x) hchunk]
  exact reads_bind (reads_readCompactSize hsize) (reads_many h)

theorem consumes_readVector {α : Type} {x : Reader UInt8 α} {write : α → List UInt8} {P : α → Prop}
    {chunk : Nat} (hchunk : 0 < chunk) (h : Consumes x fun a taken => P a ∧ taken = write a) :
    Consumes (readVector (many x) chunk) fun v taken =>
      v.length ≤ MAX_SIZE ∧ (∀ a ∈ v, P a) ∧ taken = writeVector write v := by
  rw [readVector_eq (splits_many x) hchunk]
  refine (consumes_bind consumes_readCompactSize fun n => consumes_many h n).mono ?_
  rintro v taken ⟨n, u, u', rfl, ⟨hn, rfl⟩, rfl, hall, rfl⟩
  exact ⟨hn, hall, rfl⟩

theorem reads_readBytes {v : List UInt8} (hsize : v.length ≤ MAX_SIZE) : Reads readBytes (writeBytes v) v := by
  unfold readBytes
  rw [readVector_eq splits_symbols (by omega)]
  exact reads_bind (reads_readCompactSize hsize) (reads_symbols v)

theorem consumes_readBytes :
    Consumes readBytes fun v taken => v.length ≤ MAX_SIZE ∧ taken = writeBytes v := by
  unfold readBytes
  rw [readVector_eq splits_symbols (by omega)]
  refine (consumes_bind consumes_readCompactSize consumes_symbols).mono ?_
  rintro v taken ⟨n, u, u', rfl, ⟨hn, rfl⟩, rfl, rfl⟩
  exact ⟨hn, rfl⟩

/-! ## Copies -/

/-- `memcpy` into a buffer; `none` when it would go outside. -/
def copyInto (buf : List UInt8) (pos : Nat) (bytes : List UInt8) : Option (List UInt8) :=
  if pos + bytes.length ≤ buf.length then some (buf.take pos ++ bytes ++ buf.drop (pos + bytes.length)) else none

theorem copyInto_eq {buf bytes : List UInt8} {pos : Nat} (h : pos + bytes.length ≤ buf.length) :
    ∃ buf', copyInto buf pos bytes = some buf' ∧ buf'.length = buf.length ∧
      buf'.take (pos + bytes.length) = buf.take pos ++ bytes := by
  refine ⟨_, if_pos h, ?_, ?_⟩
  · rw [length_append, length_append, length_take, length_drop]
    omega
  · refine take_left' ?_
    rw [length_append, length_take]
    omega

end Reddcoin
