import Reddcoin.Script.Script

/-!
# Blocks

The header and block types of `primitives/block.h`.  Both have an `IsProofOfStake`, and which of the
two a caller gets depends on the static type of its argument: the header's looks at the version, the
block's at the second transaction.
-/

namespace Reddcoin

def POW_BLOCK_VERSION : Int := 2

@[ext]
structure CBlockHeader where
  nVersion : Int
  hashPrevBlock : Uint256
  hashMerkleRoot : Uint256
  nTime : Nat
  nBits : Nat
  nNonce : Nat
deriving DecidableEq

structure CBlock extends CBlockHeader where
  vtx : List CTransaction
  vchBlockSig : List UInt8
deriving DecidableEq

/-- The functions of the node that are computed outside this model: the hash functions and the
verification of scripts and signatures. -/
structure Crypto where
  /-- `SerializeHash` of a transaction, its txid. -/
  txHash : CTransaction → Uint256
  /-- `CBlockHeader::GetHash`. -/
  headerHash : CBlockHeader → Uint256
  /-- `GetPoWHash`, the scrypt hash of the header. -/
  powHash : CBlockHeader → Uint256
  /-- `Hash` of two concatenated hashes. -/
  merkleHash : Uint256 → Uint256 → Uint256
  /-- `Hash` of a proof hash and a stake modifier. -/
  selectionHash : Uint256 → Nat → Uint256
  /-- `Hash` of the kernel: the stake modifier, the time of the block of the coin, the offset of its
  transaction, the time of that transaction, the number of the output and the time of the coinstake. -/
  kernelHash : Nat → Nat → Nat → Nat → Nat → Nat → Uint256
  /-- `CPubKey::Verify` of a signature on a hash. -/
  verifyKey : List UInt8 → Uint256 → List UInt8 → Bool
  /-- `VerifyScript` of an input against an output script, with flags; the text of the error it
  reports, if any. -/
  verifyScript : CScript → CScript → Nat → CTransaction → Nat → Option String

namespace CBlockHeader

def isProofOfStake (h : CBlockHeader) : Bool :=
  decide (POW_BLOCK_VERSION < h.nVersion)

def isProofOfWork (h : CBlockHeader) : Bool :=
  !h.isProofOfStake

def getBlockTime (h : CBlockHeader) : Int :=
  h.nTime

end CBlockHeader

/-! ## Serialized sizes -/

def getSizeOfCompactSize (n : Nat) : Nat :=
  if n < 253 then 1 else if n ≤ 0xffff then 3 else if n ≤ 0xffffffff then 5 else 9

def CTxIn.serializeSize (txin : CTxIn) : Nat :=
  36 + getSizeOfCompactSize txin.scriptSig.length + txin.scriptSig.length + 4

def CTxOut.serializeSize (out : CTxOut) : Nat :=
  8 + getSizeOfCompactSize out.scriptPubKey.length + out.scriptPubKey.length

/-- The time is on the wire only for versions above `POW_TX_VERSION`. -/
def CTransaction.serializeSize (tx : CTransaction) : Nat :=
  4 + getSizeOfCompactSize tx.vin.length + (tx.vin.map CTxIn.serializeSize).sum +
    getSizeOfCompactSize tx.vout.length + (tx.vout.map CTxOut.serializeSize).sum + 4 +
    (if POW_TX_VERSION < tx.nVersion then 4 else 0)

/-- The signature is on the wire only for versions above `POW_BLOCK_VERSION`. -/
def CBlock.serializeSize (block : CBlock) : Nat :=
  80 + getSizeOfCompactSize block.vtx.length + (block.vtx.map CTransaction.serializeSize).sum +
    (if POW_BLOCK_VERSION < block.nVersion then
      getSizeOfCompactSize block.vchBlockSig.length + block.vchBlockSig.length
    else 0)

/-! ## The merkle tree -/

/-- One level of `BuildMerkleTree`: the level above, and whether the last two hashes of the level are
an identical pair. -/
def merkleLevel (hash : Uint256 → Uint256 → Uint256) : List Uint256 → List Uint256 × Bool
  | [] => ([], false)
  | [a] => ([hash a a], false)
  | [a, b] => ([hash a b], decide (a = b))
  | a :: b :: rest =>
    let above := merkleLevel hash rest
    (hash a b :: above.1, above.2)

/-- The levels from `hashes` up.  A level of more than one hash is longer than the one above it, so
the length bounds the number of turns. -/
def merkleLoop (hash : Uint256 → Uint256 → Uint256) : Nat → List Uint256 → Bool → Uint256 × Bool
  | turns + 1, a :: b :: rest, mutated =>
    let above := merkleLevel hash (a :: b :: rest)
    merkleLoop hash turns above.1 (mutated || above.2)
  | _, hashes, mutated => (hashes.headD 0, mutated)

namespace CBlock

variable (C : Crypto)

def getHash (block : CBlock) : Uint256 :=
  C.headerHash block.toCBlockHeader

def isProofOfStake (block : CBlock) : Bool :=
  match block.vtx with
  | _ :: tx :: _ => tx.isCoinStake
  | _ => false

def isProofOfWork (block : CBlock) : Bool :=
  !block.isProofOfStake

/-- `BuildMerkleTree`: the root, and whether a mutation was detected. -/
def buildMerkleTree (block : CBlock) : Uint256 × Bool :=
  merkleLoop C.merkleHash block.vtx.length (block.vtx.map C.txHash) false

def checkBlockSignature (block : CBlock) : Bool :=
  if block.isProofOfWork then block.vchBlockSig.isEmpty
  else
    match (block.vtx[1]?).bind fun tx => tx.vout[1]? with
    | none => false
    | some txout =>
      match solverPubKey txout.scriptPubKey with
      | none => false
      | some vchPubKey =>
        if block.vchBlockSig.isEmpty then false
        else C.verifyKey vchPubKey (block.getHash C) block.vchBlockSig

/-- A block as it comes off the wire or the disk: without a signature field unless its version asks
for one. -/
def WireForm (block : CBlock) : Prop :=
  block.nVersion ≤ POW_BLOCK_VERSION → block.vchBlockSig = []

instance (block : CBlock) : Decidable block.WireForm :=
  inferInstanceAs (Decidable (_ → _))

theorem isProofOfStake_iff {block : CBlock} :
    block.isProofOfStake ↔ ∃ tx, block.vtx[1]? = some tx ∧ tx.isCoinStake = true := by
  unfold isProofOfStake
  rcases block.vtx with _ | ⟨tx, _ | ⟨tx', rest⟩⟩ <;> simp

end CBlock

end Reddcoin
