import Reddcoin.Primitives.Block
import Reddcoin.Serialize.Primitive

/-!
# Transactions and blocks on the wire

The `SerializationOp` of `primitives/transaction.h` and `primitives/block.h`.  A transaction has its time on
the wire, and a block its signature, only from a certain version on.
-/

namespace Reddcoin

open Stream

/-! ## Inputs and outputs -/

namespace COutPoint

/-- The fields fit their types. -/
structure Wire (o : COutPoint) : Prop where
  hash : o.hash < 256 ^ 32
  n : o.n < 256 ^ 4

def serialize (o : COutPoint) : List UInt8 :=
  writeData 32 o.hash ++ writeData 4 o.n

def unserialize : Reader UInt8 COutPoint := do
  let hash ← readData 32
  let n ← readData 4
  pure { hash := hash, n := n }

theorem reads_unserialize {o : COutPoint} (h : o.Wire) : Reads unserialize o.serialize o :=
  reads_bind (reads_readData h.hash) (reads_last (reads_readData h.n) (reads_pure o))

theorem consumes_unserialize : Consumes unserialize fun o taken => o.Wire ∧ taken = o.serialize := by
  refine (consumes_bind (consumes_readData 32) fun hash =>
    consumes_bind (consumes_readData 4) fun n => consumes_pure _).mono ?_
  rintro o taken ⟨hash, _, _, rfl, ⟨hhash, rfl⟩, n, _, _, rfl, ⟨hn, rfl⟩, rfl, rfl⟩
  rw [List.append_nil]
  exact ⟨⟨hhash, hn⟩, rfl⟩

end COutPoint

namespace CTxIn

structure Wire (txin : CTxIn) : Prop where
  prevout : txin.prevout.Wire
  scriptSig : txin.scriptSig.length ≤ MAX_SIZE
  nSequence : txin.nSequence < 256 ^ 4

def serialize (txin : CTxIn) : List UInt8 :=
  txin.prevout.serialize ++ (writeBytes txin.scriptSig ++ writeData 4 txin.nSequence)

def unserialize : Reader UInt8 CTxIn := do
  let prevout ← COutPoint.unserialize
  let scriptSig ← readBytes
  let nSequence ← readData 4
  pure { prevout := prevout, scriptSig := scriptSig, nSequence := nSequence }

theorem reads_unserialize {txin : CTxIn} (h : txin.Wire) : Reads unserialize txin.serialize txin :=
  reads_bind (COutPoint.reads_unserialize h.prevout)
    (reads_bind (reads_readBytes h.scriptSig) (reads_last (reads_readData h.nSequence) (reads_pure txin)))

theorem consumes_unserialize : Consumes unserialize fun txin taken => txin.Wire ∧ taken = txin.serialize := by
  refine (consumes_bind COutPoint.consumes_unserialize fun prevout =>
    consumes_bind consumes_readBytes fun scriptSig =>
      consumes_bind (consumes_readData 4) fun nSequence => consumes_pure _).mono ?_
  rintro txin taken ⟨prevout, _, _, rfl, ⟨hprevout, rfl⟩, scriptSig, _, _, rfl, ⟨hscript, rfl⟩,
    nSequence, _, _, rfl, ⟨hsequence, rfl⟩, rfl, rfl⟩
  rw [List.append_nil]
  exact ⟨⟨hprevout, hscript, hsequence⟩, rfl⟩

end CTxIn

namespace CTxOut

structure Wire (out : CTxOut) : Prop where
  nValue : SignedRange 8 out.nValue
  scriptPubKey : out.scriptPubKey.length ≤ MAX_SIZE

def serialize (out : CTxOut) : List UInt8 :=
  writeSigned 8 out.nValue ++ writeBytes out.scriptPubKey

def unserialize : Reader UInt8 CTxOut := do
  let nValue ← readSigned 8
  let scriptPubKey ← readBytes
  pure { nValue := nValue, scriptPubKey := scriptPubKey }

theorem reads_unserialize {out : CTxOut} (h : out.Wire) : Reads unserialize out.serialize out :=
  reads_bind (reads_readSigned h.nValue) (reads_last (reads_readBytes h.scriptPubKey) (reads_pure out))

theorem consumes_unserialize : Consumes unserialize fun out taken => out.Wire ∧ taken = out.serialize := by
  refine (consumes_bind (consumes_readSigned (by omega)) fun nValue =>
    consumes_bind consumes_readBytes fun scriptPubKey => consumes_pure _).mono ?_
  rintro out taken ⟨nValue, _, _, rfl, ⟨hvalue, rfl⟩, scriptPubKey, _, _, rfl, ⟨hscript, rfl⟩, rfl, rfl⟩
  rw [List.append_nil]
  exact ⟨⟨hvalue, hscript⟩, rfl⟩

end CTxOut

/-! ## Transactions -/

namespace CTransaction

/-- The fields fit their types, the vectors are not too long, and a version without a time on the wire has
none. -/
structure Wire (tx : CTransaction) : Prop where
  nVersion : SignedRange 4 tx.nVersion
  vin_length : tx.vin.length ≤ MAX_SIZE
  vin : ∀ txin ∈ tx.vin, txin.Wire
  vout_length : tx.vout.length ≤ MAX_SIZE
  vout : ∀ out ∈ tx.vout, out.Wire
  nLockTime : tx.nLockTime < 256 ^ 4
  nTime : tx.nTime < 256 ^ 4
  canonical : tx.nVersion ≤ POW_TX_VERSION → tx.nTime = 0

/-- The time, where the version has one. -/
def serializeTime (tx : CTransaction) : List UInt8 :=
  if POW_TX_VERSION < tx.nVersion then writeData 4 tx.nTime else []

def serialize (tx : CTransaction) : List UInt8 :=
  writeSigned 4 tx.nVersion ++ (writeVector CTxIn.serialize tx.vin ++
    (writeVector CTxOut.serialize tx.vout ++ (writeData 4 tx.nLockTime ++ tx.serializeTime)))

def unserializeTime (nVersion : Int) : Reader UInt8 Nat :=
  if POW_TX_VERSION < nVersion then readData 4 else pure 0

/-- The numbers are those of `5000000 / sizeof(T)`, with the sizes that `CTxIn` and `CTxOut` have on a
64-bit platform. -/
def unserialize : Reader UInt8 CTransaction := do
  let nVersion ← readSigned 4
  let vin ← readVector (many CTxIn.unserialize) (5000000 / 72)
  let vout ← readVector (many CTxOut.unserialize) (5000000 / 32)
  let nLockTime ← readData 4
  let nTime ← unserializeTime nVersion
  pure { nVersion := nVersion, vin := vin, vout := vout, nLockTime := nLockTime, nTime := nTime }

theorem reads_unserializeTime {tx : CTransaction} (h : tx.Wire) :
    Reads (unserializeTime tx.nVersion) tx.serializeTime tx.nTime := by
  unfold unserializeTime serializeTime
  split_ifs with hversion
  · exact reads_readData h.nTime
  · rw [h.canonical (by omega)]
    exact reads_pure 0

theorem consumes_unserializeTime (nVersion : Int) : Consumes (unserializeTime nVersion) fun nTime taken =>
    nTime < 256 ^ 4 ∧ (nVersion ≤ POW_TX_VERSION → nTime = 0) ∧
      taken = if POW_TX_VERSION < nVersion then writeData 4 nTime else [] := by
  unfold unserializeTime
  split_ifs with hversion
  · refine (consumes_readData 4).mono ?_
    rintro n taken ⟨hn, rfl⟩
    exact ⟨hn, fun hle => absurd hle (by omega), rfl⟩
  · refine (consumes_pure 0).mono ?_
    rintro n taken ⟨rfl, rfl⟩
    exact ⟨by omega, fun _ => rfl, rfl⟩

theorem reads_unserialize {tx : CTransaction} (h : tx.Wire) : Reads unserialize tx.serialize tx := by
  refine reads_bind (reads_readSigned h.nVersion) ?_
  refine reads_bind
    (reads_readVector (by omega) h.vin_length fun txin hin => CTxIn.reads_unserialize (h.vin txin hin)) ?_
  refine reads_bind
    (reads_readVector (by omega) h.vout_length fun out hout => CTxOut.reads_unserialize (h.vout out hout)) ?_
  exact reads_bind (reads_readData h.nLockTime) (reads_last (reads_unserializeTime h) (reads_pure tx))

theorem consumes_unserialize : Consumes unserialize fun tx taken => tx.Wire ∧ taken = tx.serialize := by
  refine (consumes_bind (consumes_readSigned (by omega)) fun nVersion =>
    consumes_bind (consumes_readVector (by omega) CTxIn.consumes_unserialize) fun vin =>
      consumes_bind (consumes_readVector (by omega) CTxOut.consumes_unserialize) fun vout =>
        consumes_bind (consumes_readData 4) fun nLockTime =>
          consumes_bind (consumes_unserializeTime nVersion) fun nTime => consumes_pure _).mono ?_
  rintro tx taken ⟨nVersion, _, _, rfl, ⟨hversion, rfl⟩, vin, _, _, rfl, ⟨hvinlen, hvin, rfl⟩,
    vout, _, _, rfl, ⟨hvoutlen, hvout, rfl⟩, nLockTime, _, _, rfl, ⟨hlock, rfl⟩,
    nTime, _, _, rfl, ⟨htime, hcanonical, rfl⟩, rfl, rfl⟩
  rw [List.append_nil]
  exact ⟨⟨hversion, hvinlen, hvin, hvoutlen, hvout, hlock, htime, hcanonical⟩, rfl⟩

end CTransaction

/-! ## Blocks -/

namespace CBlockHeader

structure Wire (h : CBlockHeader) : Prop where
  nVersion : SignedRange 4 h.nVersion
  hashPrevBlock : h.hashPrevBlock < 256 ^ 32
  hashMerkleRoot : h.hashMerkleRoot < 256 ^ 32
  nTime : h.nTime < 256 ^ 4
  nBits : h.nBits < 256 ^ 4
  nNonce : h.nNonce < 256 ^ 4

def serialize (h : CBlockHeader) : List UInt8 :=
  writeSigned 4 h.nVersion ++ (writeData 32 h.hashPrevBlock ++ (writeData 32 h.hashMerkleRoot ++
    (writeData 4 h.nTime ++ (writeData 4 h.nBits ++ writeData 4 h.nNonce))))

def unserialize : Reader UInt8 CBlockHeader := do
  let nVersion ← readSigned 4
  let hashPrevBlock ← readData 32
  let hashMerkleRoot ← readData 32
  let nTime ← readData 4
  let nBits ← readData 4
  let nNonce ← readData 4
  pure
    { nVersion := nVersion
      hashPrevBlock := hashPrevBlock
      hashMerkleRoot := hashMerkleRoot
      nTime := nTime
      nBits := nBits
      nNonce := nNonce }

theorem reads_unserialize {header : CBlockHeader} (h : header.Wire) :
    Reads unserialize header.serialize header := by
  refine reads_bind (reads_readSigned h.nVersion) ?_
  refine reads_bind (reads_readData h.hashPrevBlock) ?_
  refine reads_bind (reads_readData h.hashMerkleRoot) ?_
  refine reads_bind (reads_readData h.nTime) ?_
  refine reads_bind (reads_readData h.nBits) ?_
  exact reads_last (reads_readData h.nNonce) (reads_pure header)

theorem consumes_unserialize :
    Consumes unserialize fun header taken => header.Wire ∧ taken = header.serialize := by
  refine (consumes_bind (consumes_readSigned (by omega)) fun nVersion =>
    consumes_bind (consumes_readData 32) fun hashPrevBlock =>
      consumes_bind (consumes_readData 32) fun hashMerkleRoot =>
        consumes_bind (consumes_readData 4) fun nTime =>
          consumes_bind (consumes_readData 4) fun nBits =>
            consumes_bind (consumes_readData 4) fun nNonce => consumes_pure _).mono ?_
  rintro header taken ⟨nVersion, _, _, rfl, ⟨hversion, rfl⟩, hashPrevBlock, _, _, rfl, ⟨hprev, rfl⟩,
    hashMerkleRoot, _, _, rfl, ⟨hroot, rfl⟩, nTime, _, _, rfl, ⟨htime, rfl⟩, nBits, _, _, rfl, ⟨hbits, rfl⟩,
    nNonce, _, _, rfl, ⟨hnonce, rfl⟩, rfl, rfl⟩
  rw [List.append_nil]
  exact ⟨⟨hversion, hprev, hroot, htime, hbits, hnonce⟩, rfl⟩

end CBlockHeader

namespace CBlock

/-- The fields fit their types, the vectors are not too long, and a version without a signature on the wire
has none. -/
structure Wire (block : CBlock) : Prop where
  header : block.toCBlockHeader.Wire
  vtx_length : block.vtx.length ≤ MAX_SIZE
  vtx : ∀ tx ∈ block.vtx, tx.Wire
  vchBlockSig : block.vchBlockSig.length ≤ MAX_SIZE
  canonical : block.WireForm

/-- The signature, where the version has one. -/
def serializeSig (block : CBlock) : List UInt8 :=
  if POW_BLOCK_VERSION < block.nVersion then writeBytes block.vchBlockSig else []

def serialize (block : CBlock) : List UInt8 :=
  block.toCBlockHeader.serialize ++ (writeVector CTransaction.serialize block.vtx ++ block.serializeSig)

def unserializeSig (nVersion : Int) : Reader UInt8 (List UInt8) :=
  if POW_BLOCK_VERSION < nVersion then readBytes else pure []

/-- `CTransaction` takes 96 bytes. -/
def unserialize : Reader UInt8 CBlock := do
  let header ← CBlockHeader.unserialize
  let vtx ← readVector (many CTransaction.unserialize) (5000000 / 96)
  let vchBlockSig ← unserializeSig header.nVersion
  pure { header with vtx := vtx, vchBlockSig := vchBlockSig }

theorem reads_unserializeSig {block : CBlock} (h : block.Wire) :
    Reads (unserializeSig block.nVersion) block.serializeSig block.vchBlockSig := by
  unfold unserializeSig serializeSig
  split_ifs with hversion
  · exact reads_readBytes h.vchBlockSig
  · rw [h.canonical (by omega)]
    exact reads_pure []

theorem consumes_unserializeSig (nVersion : Int) : Consumes (unserializeSig nVersion) fun sig taken =>
    sig.length ≤ MAX_SIZE ∧ (nVersion ≤ POW_BLOCK_VERSION → sig = []) ∧
      taken = if POW_BLOCK_VERSION < nVersion then writeBytes sig else [] := by
  unfold unserializeSig
  split_ifs with hversion
  · refine consumes_readBytes.mono ?_
    rintro sig taken ⟨hsig, rfl⟩
    exact ⟨hsig, fun hle => absurd hle (by omega), rfl⟩
  · refine (consumes_pure []).mono ?_
    rintro sig taken ⟨rfl, rfl⟩
    exact ⟨Nat.zero_le _, fun _ => rfl, rfl⟩

theorem reads_unserialize {block : CBlock} (h : block.Wire) : Reads unserialize block.serialize block := by
  refine reads_bind (CBlockHeader.reads_unserialize h.header) ?_
  refine reads_bind
    (reads_readVector (by omega) h.vtx_length fun tx htx => CTransaction.reads_unserialize (h.vtx tx htx)) ?_
  exact reads_last (reads_unserializeSig h) (reads_pure block)

theorem consumes_unserialize : Consumes unserialize fun block taken => block.Wire ∧ taken = block.serialize := by
  refine (consumes_bind CBlockHeader.consumes_unserialize fun header =>
    consumes_bind (consumes_readVector (by omega) CTransaction.consumes_unserialize) fun vtx =>
      consumes_bind (consumes_unserializeSig header.nVersion) fun sig => consumes_pure _).mono ?_
  rintro block taken ⟨header, _, _, rfl, ⟨hheader, rfl⟩, vtx, _, _, rfl, ⟨hlen, hvtx, rfl⟩,
    sig, _, _, rfl, ⟨hsig, hcanonical, rfl⟩, rfl, rfl⟩
  rw [List.append_nil]
  exact ⟨⟨hheader, hlen, hvtx, hsig, hcanonical⟩, rfl⟩

end CBlock

/-! ## One encoding for each value -/

/-- What is written is read back, and what is read was written so: transactions and blocks have exactly one
encoding. -/
theorem wire_bijective :
    (∀ tx : CTransaction, tx.Wire → ∀ rest, CTransaction.unserialize.run (tx.serialize ++ rest) = some (tx, rest)) ∧
    (∀ block : CBlock, block.Wire → ∀ rest, CBlock.unserialize.run (block.serialize ++ rest) = some (block, rest)) ∧
    (∀ bytes tx rest, CTransaction.unserialize.run bytes = some (tx, rest) → tx.Wire ∧ bytes = tx.serialize ++ rest) ∧
    ∀ bytes block rest, CBlock.unserialize.run bytes = some (block, rest) →
      block.Wire ∧ bytes = block.serialize ++ rest := by
  refine ⟨fun tx h => CTransaction.reads_unserialize h, fun block h => CBlock.reads_unserialize h, ?_, ?_⟩
  · intro bytes tx rest h
    obtain ⟨taken, rfl, hwire, rfl⟩ := CTransaction.consumes_unserialize bytes tx rest h
    exact ⟨hwire, rfl⟩
  · intro bytes block rest h
    obtain ⟨taken, rfl, hwire, rfl⟩ := CBlock.consumes_unserialize bytes block rest h
    exact ⟨hwire, rfl⟩

namespace Example

/-- A transaction with a time on the wire. -/
def stampedTx : CTransaction where
  nVersion := 2
  vin := [{ prevout := { hash := 500, n := 1 }, scriptSig := [1, 2], nSequence := 7 }]
  vout := [{ nValue := -1, scriptPubKey := [] }]
  nLockTime := 3
  nTime := 1400000000

/-- A block with a signature, of a transaction alone. -/
def signedBlock : CBlock where
  nVersion := 3
  hashPrevBlock := 11
  hashMerkleRoot := 12
  nTime := 13
  nBits := 14
  nNonce := 15
  vtx := [stampedTx]
  vchBlockSig := [4, 5, 6]

theorem stampedTx_wire : stampedTx.Wire := by
  refine ⟨by decide, by decide, ?_, by decide, ?_, by decide, by decide, by decide⟩
  · intro txin hin
    rw [List.mem_singleton.mp hin]
    exact ⟨⟨by decide, by decide⟩, by decide, by decide⟩
  · intro out hout
    rw [List.mem_singleton.mp hout]
    exact ⟨by decide, by decide⟩

theorem signedBlock_wire : signedBlock.Wire := by
  refine ⟨⟨by decide, by decide, by decide, by decide, by decide, by decide⟩, by decide, ?_, by decide, by decide⟩
  intro tx htx
  rw [List.mem_singleton.mp htx]
  exact stampedTx_wire

end Example

open Example

theorem wire_bijective_example :
    CTransaction.unserialize.run (stampedTx.serialize ++ [9]) = some (stampedTx, [9]) ∧
    CBlock.unserialize.run (signedBlock.serialize ++ []) = some (signedBlock, []) ∧
    (∃ tx, CTransaction.unserialize.run (stampedTx.serialize ++ [9]) = some (tx, [9]) ∧
      stampedTx.serialize ++ [9] = tx.serialize ++ [9]) ∧
    ∃ block, CBlock.unserialize.run (signedBlock.serialize ++ []) = some (block, []) ∧
      signedBlock.serialize ++ [] = block.serialize ++ [] := by
  have htx := wire_bijective.1 stampedTx stampedTx_wire [9]
  have hblock := wire_bijective.2.1 signedBlock signedBlock_wire []
  exact ⟨htx, hblock, ⟨_, htx, (wire_bijective.2.2.1 _ _ _ htx).2⟩, ⟨_, hblock, (wire_bijective.2.2.2 _ _ _ hblock).2⟩⟩

end Reddcoin
