import Mathlib.Data.List.Sort
import Reddcoin.Chain.ActiveChain
import Reddcoin.Connect.Connect

/-!
# The state of the node

The globals of `main.cpp` that the block index code works on.  What the functions read of the outside
world (the clock, the disk, the difficulty and the coin age) is the `Env` of the moment.
-/

namespace Reddcoin

/-- The answers of the outside world at one moment. -/
structure Env where
  nAdjustedTime : Int
  /-- `GetNextWorkRequired`, on the last entry and its ancestors. -/
  getNextWorkRequired : List CBlockIndex → CBlockHeader → Nat
  /-- `GetTransaction`: the transaction and the hash of its block. -/
  getTransaction : Uint256 → Option (CTransaction × Uint256)
  getCoinAgeWeight : Int → Int → Int
  /-- `CheckStakeModifierCheckpoints` for an entry. -/
  checkStakeModifierCheckpoints : Ptr → Bool
  /-- A block or undo record can be written. -/
  canWrite : Bool
  /-- The transaction index can be written. -/
  canWriteTxIndex : Bool
  /-- A block or undo record can be read. -/
  canRead : Bool
  /-- The file and the position that `FindBlockPos` gives. -/
  findBlockPos : Nat × Nat
  /-- The position that `FindUndoPos` gives in the file of the block. -/
  findUndoPos : Nat
  /-- `FlushStateToDisk` finds it necessary to write. -/
  needsFlush : Bool
  fThreads : Bool
  getCoinAge : CTransaction → Nat
  inflationAdjustment : Int → Int
  posvShare : Int → Int

/-- The parameters of a run: the chain, the cryptography and the outside world over time. -/
structure Node where
  P : CChainParams
  C : Crypto
  world : Nat → Env

/-- A record of the block tree database. -/
structure CDiskBlockIndex where
  index : CBlockIndex
  hashPrev : Uint256

/-- The places at which an entry is changed without being put into `setDirtyBlockIndex`. -/
inductive QuietPlace where
  /-- `FindMostWorkChain` marks the entries above a failed one. -/
  | findMostWorkChain
  /-- `AcceptBlock` marks a block with a transaction that is not final. -/
  | nonFinal
  /-- `ReceivedBlockTransactions` links an entry that waited for the block. -/
  | drained
  /-- `ConnectBlock` connects a block again, or fails to write its undo data. -/
  | reconnected
deriving DecidableEq

structure NodeState where
  mapBlockIndex : BlockMap
  addresses : Addresses
  chainActive : CChain
  setBlockIndexCandidates : List Ptr
  mapBlocksUnlinked : List (Ptr × Ptr)
  nBlockSequenceId : Nat
  pindexBestInvalid : Option Ptr
  pindexBestHeader : Option Ptr
  setDirtyBlockIndex : List Ptr
  /-- The records of the block tree database, by entry. -/
  blockTree : Ptr → Option CDiskBlockIndex
  /-- The block stored at an entry's position. -/
  blockFile : Ptr → Option CBlock
  /-- The undo data stored at an entry's undo position. -/
  undoFile : Ptr → Option CBlockUndo
  /-- `pcoinsTip`. -/
  pcoinsTip : CoinsView
  /-- The moment. -/
  now : Nat
  /-- The calls of `CheckProofOfStake` that returned true. -/
  stakeChecks : List (CTransaction × Nat)
  /-- The entries that `ConnectBlock` found invalid although they had been connected before. -/
  reversedVerdicts : List Ptr
  /-- The changes to entries that were not marked dirty. -/
  quietChanges : List (QuietPlace × Ptr)

namespace NodeState

variable (s : NodeState)

def size : Nat :=
  s.mapBlockIndex.size

def entry (p : Ptr) : CBlockIndex :=
  s.mapBlockIndex.entry p

def par (p : Ptr) : Option Ptr :=
  s.mapBlockIndex.par p

def ht (p : Ptr) : Nat :=
  s.mapBlockIndex.ht p

def tip : Option Ptr :=
  s.chainActive.tip

def haveData (p : Ptr) : Bool :=
  (s.entry p).nStatus.haveData

def linked (p : Ptr) : Bool :=
  (s.entry p).linked

def failed (p : Ptr) : Bool :=
  (s.entry p).failed

def worse (pa pb : Ptr) : Bool :=
  Reddcoin.worse s.addresses s.mapBlockIndex pa pb

def modify (p : Ptr) (f : CBlockIndex → CBlockIndex) : NodeState :=
  { s with mapBlockIndex := s.mapBlockIndex.modify p f }

def setDirty (p : Ptr) : NodeState :=
  { s with setDirtyBlockIndex := p :: s.setDirtyBlockIndex }

/-- The entry is going to be changed by `f` and is not marked dirty. -/
def noteQuiet (place : QuietPlace) (p : Ptr) (f : CBlockIndex → CBlockIndex) : NodeState :=
  { s with
    quietChanges := if p ∈ s.setDirtyBlockIndex ∨ f (s.entry p) = s.entry p then s.quietChanges
      else (place, p) :: s.quietChanges }

def insertCandidate (p : Ptr) : NodeState :=
  { s with setBlockIndexCandidates :=
      if p ∈ s.setBlockIndexCandidates then s.setBlockIndexCandidates
      else p :: s.setBlockIndexCandidates }

def eraseCandidate (p : Ptr) : NodeState :=
  { s with setBlockIndexCandidates := s.setBlockIndexCandidates.filter fun q => decide (q ≠ p) }

def failValid (p : Ptr) : NodeState :=
  s.modify p CBlockIndex.failValid

def failChild (p : Ptr) : NodeState :=
  s.modify p CBlockIndex.failChild

def clearFailed (p : Ptr) : NodeState :=
  s.modify p CBlockIndex.clearFailed

/-- `if (!pindexBestInvalid || pindexNew->nChainWork > pindexBestInvalid->nChainWork)`. -/
def invalidChainFound (p : Ptr) : NodeState :=
  { s with
    pindexBestInvalid := match s.pindexBestInvalid with
      | none => some p
      | some q => if (s.entry q).nChainWork < (s.entry p).nChainWork then some p else some q }

/-- The entries from `p` down to the genesis block. -/
def ancestors (p : Option Ptr) : List CBlockIndex :=
  match p with
  | none => []
  | some p => (Forest.path s.par (s.ht p) p).reverse.map s.entry

def versions (p : Option Ptr) : List Int :=
  (s.ancestors p).map CBlockIndex.nVersion

/-- `GetMedianTimePast`. -/
def getMedianTimePast (p : Ptr) : Int :=
  let times := (((s.ancestors (some p)).take 11).map fun e => (e.nTime : Int)).insertionSort (· ≤ ·)
  times.getD (times.length / 2) 0

/-- `WriteBlockIndex` of every dirty entry. -/
def writeBlockIndex : NodeState :=
  { s with
    blockTree := fun p =>
      if p ∈ s.setDirtyBlockIndex then
        some { index := s.entry p, hashPrev := (s.mapBlockIndex.getBlockHeader p).hashPrevBlock }
      else s.blockTree p
    setDirtyBlockIndex := [] }

/-- `FlushStateToDisk`, where a failure stops the node. -/
def flushStateToDisk (needed : Bool) : NodeState :=
  { s with
    blockTree := if needed then s.writeBlockIndex.blockTree else s.blockTree
    setDirtyBlockIndex := if needed then [] else s.setDirtyBlockIndex }

def tick : NodeState :=
  { s with now := s.now + 1 }

end NodeState

/-- What `pcoinsTip` answers once a view over it has been flushed. -/
def CoinsView.flush (v : CoinsView) : CoinsView :=
  CoinsView.over v.accessCoins v.getBestBlock

/-- The best block is the given one.  A hash of 0 stands for no block at all. -/
def CoinsView.BestIs (v : CoinsView) (hash : Uint256) : Prop :=
  hash ≠ 0 → v.getBestBlock = hash

def Node.env (N : Node) (s : NodeState) : Env :=
  N.world s.now

/-- A result, and the state that is left. -/
abbrev Call (α : Type) := Check α × NodeState

/-- Go on with the result of a call that succeeded. -/
def Call.andThen {α β : Type} (x : Call α) (f : α → NodeState → Call β) : Call β :=
  match x with
  | (.ok a, s) => f a s
  | (.error stop, s) => (.error stop, s)

/-- `return state.Abort(..)`: an access to the disk failed. -/
def diskError (strMessage : String) : Stop :=
  .returns (CValidationState.new.err strMessage)

end Reddcoin
