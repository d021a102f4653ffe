import Reddcoin.Lib.Requests
import Reddcoin.Serialize.Wire

/-!
# Blocks from any stream

The `Unserialize` templates take their bytes from whatever stream they are given.  Here are the calls of `read` that they
make for a block; on a stream that holds its bytes they are the readers of `Serialize/Wire.lean`.
-/

namespace Reddcoin

open Stream

/-- Calls of `read`; an object has fewer than 2^63 bytes. -/
abbrev ByteRequests := Requests UInt8 (2 ^ 63)

namespace ByteRequests

def readData (w : Nat) (h : w < 2 ^ 63) : ByteRequests Nat := do
  let bytes ← Requests.symbols w h
  pure (leNat bytes)

def readSigned (w : Nat) (h : w < 2 ^ 63) : ByteRequests Int := do
  let n ← readData w h
  pure (Int.bmod n (256 ^ w))

def readSizeOf (w least : Nat) (h : w < 2 ^ 63) : ByteRequests Nat := do
  let xSize ← readData w h
  if xSize < least then .fail else pure xSize

def readSizeForm (chSize : Nat) : ByteRequests Nat :=
  if chSize < 253 then pure chSize
  else if chSize = 253 then readSizeOf 2 253 (by decide)
  else if chSize = 254 then readSizeOf 4 0x10000 (by decide)
  else readSizeOf 8 0x100000000 (by decide)

def readCompactSize : ByteRequests Nat := do
  let chSize ← readData 1 (by decide)
  let nSizeRet ← readSizeForm chSize
  if MAX_SIZE < nSizeRet then .fail else pure nSizeRet

def readVector {α : Type} (chunk : Nat) (read : (n : Nat) → n ≤ chunk → ByteRequests (List α)) :
    ByteRequests (List α) := do
  let nSize ← readCompactSize
  Requests.chunks chunk read nSize nSize 0

/-- The bytes of a chunk are read in one call. -/
def readBytes : ByteRequests (List UInt8) :=
  readVector 5000000 fun n h => Requests.symbols n (lt_of_le_of_lt h (by decide))

def readItems {α : Type} (x : ByteRequests α) (chunk : Nat) : ByteRequests (List α) :=
  readVector chunk fun n _ => Requests.many x n

/-! ## The same readers -/

@[simp]
theorem toReader_readData (w : Nat) (h : w < 2 ^ 63) : (readData w h).toReader = Reddcoin.readData w := by
  simp [readData, Reddcoin.readData]

@[simp]
theorem toReader_readSigned (w : Nat) (h : w < 2 ^ 63) : (readSigned w h).toReader = Reddcoin.readSigned w := by
  simp [readSigned, Reddcoin.readSigned]

@[simp]
theorem toReader_readSizeOf (w least : Nat) (h : w < 2 ^ 63) :
    (readSizeOf w least h).toReader = Reddcoin.readSizeOf w least := by
  simp only [readSizeOf, Reddcoin.readSizeOf, Requests.toReader_bind, toReader_readData]
  congr 1
  funext xSize
  split_ifs <;> rfl

@[simp]
theorem toReader_readSizeForm (chSize : Nat) : (readSizeForm chSize).toReader = Reddcoin.readSizeForm chSize := by
  unfold readSizeForm Reddcoin.readSizeForm
  split_ifs
  · rfl
  all_goals exact toReader_readSizeOf _ _ _

@[simp]
theorem toReader_readCompactSize : readCompactSize.toReader = Reddcoin.readCompactSize := by
  simp only [readCompactSize, Reddcoin.readCompactSize, Requests.toReader_bind, toReader_readData, toReader_readSizeForm]
  congr 1
  funext chSize
  congr 1
  funext nSizeRet
  split_ifs <;> rfl

@[simp]
theorem toReader_readBytes : readBytes.toReader = Reddcoin.readBytes := by
  simp only [readBytes, Reddcoin.readBytes, readVector, Reddcoin.readVector, Requests.toReader_bind,
    toReader_readCompactSize]
  congr 1
  funext nSize
  exact Requests.toReader_chunks (fun n _ => Requests.toReader_symbols n _) _ _ _

@[simp]
theorem toReader_readItems {α : Type} (x : ByteRequests α) (chunk : Nat) :
    (readItems x chunk).toReader = Reddcoin.readVector (many x.toReader) chunk := by
  simp only [readItems, readVector, Reddcoin.readVector, Requests.toReader_bind, toReader_readCompactSize]
  congr 1
  funext nSize
  exact Requests.toReader_chunks (fun n _ => Requests.toReader_many n) _ _ _

end ByteRequests

/-! ## Transactions and blocks -/

def COutPoint.requests : ByteRequests COutPoint := do
  let hash ← ByteRequests.readData 32 (by decide)
  let n ← ByteRequests.readData 4 (by decide)
  pure { hash := hash, n := n }

def CTxIn.requests : ByteRequests CTxIn := do
  let prevout ← COutPoint.requests
  let scriptSig ← ByteRequests.readBytes
  let nSequence ← ByteRequests.readData 4 (by decide)
  pure { prevout := prevout, scriptSig := scriptSig, nSequence := nSequence }

def CTxOut.requests : ByteRequests CTxOut := do
  let nValue ← ByteRequests.readSigned 8 (by decide)
  let scriptPubKey ← ByteRequests.readBytes
  pure { nValue := nValue, scriptPubKey := scriptPubKey }

def CTransaction.requestsTime (nVersion : Int) : ByteRequests Nat :=
  if POW_TX_VERSION < nVersion then ByteRequests.readData 4 (by decide) else pure 0

def CTransaction.requests : ByteRequests CTransaction := do
  let nVersion ← ByteRequests.readSigned 4 (by decide)
  let vin ← ByteRequests.readItems CTxIn.requests (5000000 / 72)
  let vout ← ByteRequests.readItems CTxOut.requests (5000000 / 32)
  let nLockTime ← ByteRequests.readData 4 (by decide)
  let nTime ← CTransaction.requestsTime nVersion
  pure { nVersion := nVersion, vin := vin, vout := vout, nLockTime := nLockTime, nTime := nTime }

def CBlockHeader.requests : ByteRequests CBlockHeader := do
  let nVersion ← ByteRequests.readSigned 4 (by decide)
  let hashPrevBlock ← ByteRequests.readData 32 (by decide)
  let hashMerkleRoot ← ByteRequests.readData 32 (by decide)
  let nTime ← ByteRequests.readData 4 (by decide)
  let nBits ← ByteRequests.readData 4 (by decide)
  let nNonce ← ByteRequests.readData 4 (by decide)
  pure
    { nVersion := nVersion
      hashPrevBlock := hashPrevBlock
      hashMerkleRoot := hashMerkleRoot
      nTime := nTime
      nBits := nBits
      nNonce := nNonce }

def CBlock.requestsSig (nVersion : Int) : ByteRequests (List UInt8) :=
  if POW_BLOCK_VERSION < nVersion then ByteRequests.readBytes else pure []

/-- What follows the header. -/
def CBlock.requestsBody (header : CBlockHeader) : ByteRequests CBlock := do
  let vtx ← ByteRequests.readItems CTransaction.requests (5000000 / 96)
  let vchBlockSig ← CBlock.requestsSig header.nVersion
  pure { header with vtx := vtx, vchBlockSig := vchBlockSig }

def CBlock.requests : ByteRequests CBlock := do
  let header ← CBlockHeader.requests
  CBlock.requestsBody header

@[simp]
theorem COutPoint.toReader_requests : COutPoint.requests.toReader = COutPoint.unserialize := by
  simp [COutPoint.requests, COutPoint.unserialize]

@[simp]
theorem CTxIn.toReader_requests : CTxIn.requests.toReader = CTxIn.unserialize := by
  simp [CTxIn.requests, CTxIn.unserialize]

@[simp]
theorem CTxOut.toReader_requests : CTxOut.requests.toReader = CTxOut.unserialize := by
  simp [CTxOut.requests, CTxOut.unserialize]

@[simp]
theorem CTransaction.toReader_requestsTime (nVersion : Int) :
    (CTransaction.requestsTime nVersion).toReader = CTransaction.unserializeTime nVersion := by
  unfold CTransaction.requestsTime CTransaction.unserializeTime
  split_ifs
  · exact ByteRequests.toReader_readData 4 _
  · rfl

@[simp]
theorem CTransaction.toReader_requests : CTransaction.requests.toReader = CTransaction.unserialize := by
  simp [CTransaction.requests, CTransaction.unserialize]

@[simp]
theorem CBlockHeader.toReader_requests : CBlockHeader.requests.toReader = CBlockHeader.unserialize := by
  simp [CBlockHeader.requests, CBlockHeader.unserialize]

@[simp]
theorem CBlock.toReader_requestsSig (nVersion : Int) :
    (CBlock.requestsSig nVersion).toReader = CBlock.unserializeSig nVersion := by
  unfold CBlock.requestsSig CBlock.unserializeSig
  split_ifs
  · exact ByteRequests.toReader_readBytes
  · rfl

/-- The calls for a block, on a stream that holds the bytes, are `CBlock.unserialize`. -/
theorem CBlock.toReader_requests : CBlock.requests.toReader = CBlock.unserialize := by
  simp [CBlock.requests, CBlock.requestsBody, CBlock.unserialize]

/-! ## A stream that refuses long requests -/

theorem CBlockHeader.requests_modest {most : Nat} (h : 32 ≤ most) : CBlockHeader.requests.Modest most := by
  have hdata : ∀ w (hw : w < 2 ^ 63), w ≤ 32 → (ByteRequests.readData w hw).Modest most := fun w hw hle =>
    Requests.modest_bind (Requests.modest_symbols hw (hle.trans h)) fun _ => trivial
  refine Requests.modest_bind (Requests.modest_bind (hdata 4 _ (by decide)) fun _ => trivial) fun _ => ?_
  refine Requests.modest_bind (hdata 32 _ (by decide)) fun _ => ?_
  refine Requests.modest_bind (hdata 32 _ (by decide)) fun _ => ?_
  refine Requests.modest_bind (hdata 4 _ (by decide)) fun _ => ?_
  refine Requests.modest_bind (hdata 4 _ (by decide)) fun _ => ?_
  exact Requests.modest_bind (hdata 4 _ (by decide)) fun _ => trivial

theorem CBlockHeader.length_serialize (header : CBlockHeader) : header.serialize.length = 80 := by
  simp [CBlockHeader.serialize, writeSigned]

/-- A block is read as from its bytes when no more bytes follow the header than may be asked for at once. -/
theorem CBlock.runWithin_requests {most : Nat} (h : 32 ≤ most) {s : List UInt8} (hs : s.length ≤ most + 80) :
    CBlock.requests.runWithin most s = CBlock.unserialize.run s := by
  rw [← CBlock.toReader_requests, CBlock.requests, Requests.runWithin_bind,
    Requests.runWithin_eq_of_modest (CBlockHeader.requests_modest h), Requests.toReader_bind, StateT.run_bind]
  show _ = (CBlockHeader.requests.toReader.run s).bind _
  cases hheader : CBlockHeader.requests.toReader.run s with
  | none => rfl
  | some p =>
    obtain ⟨header, rest⟩ := p
    rw [CBlockHeader.toReader_requests] at hheader
    obtain ⟨taken, rfl, -, rfl⟩ := CBlockHeader.consumes_unserialize s header rest hheader
    rw [List.length_append, CBlockHeader.length_serialize] at hs
    exact Requests.runWithin_eq_of_short _ (show rest.length ≤ most by omega)

end Reddcoin
