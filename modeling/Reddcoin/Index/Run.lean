import Reddcoin.Index.BestChain

/-!
# Loading the index

`LoadBlockIndexGuts` of `txdb.cpp` and `LoadBlockIndexDB` of `main.cpp`.  The entries lie at new addresses
afterwards; a slot stands for the same hash as before.
-/

namespace Reddcoin

namespace CDiskBlockIndex

variable (C : Crypto) (r : CDiskBlockIndex)

def header : CBlockHeader :=
  { nVersion := r.index.nVersion
    hashPrevBlock := r.hashPrev
    hashMerkleRoot := r.index.hashMerkleRoot
    nTime := r.index.nTime
    nBits := r.index.nBits
    nNonce := r.index.nNonce }

/-- `GetBlockHash`, from the fields of the record. -/
def getBlockHash : Uint256 :=
  C.headerHash r.header

end CDiskBlockIndex

/-- No entry has the hash 0, which `LoadBlockIndexGuts` takes for no block at all. -/
def NodeState.HashesNonzero (s : NodeState) : Prop :=
  ∀ p < s.size, (s.entry p).hash ≠ 0

instance (s : NodeState) : Decidable s.HashesNonzero :=
  inferInstanceAs (Decidable (∀ p < s.size, (s.entry p).hash ≠ 0))

section

variable (N : Node)

/-- The slot of the record with a hash. -/
def findRecord (s : NodeState) (hash : Uint256) : Option Ptr :=
  (List.range s.size).find? fun p =>
    match s.blockTree p with
    | some r => decide (r.getBlockHash N.C = hash)
    | none => false

/-- What is read back of a written entry: the positions are written only where there is data or undo data,
and the fields of the stake only for proof-of-stake. -/
def CBlockIndex.written (e : CBlockIndex) : CBlockIndex :=
  { e with
    nFile := if e.nStatus.haveData || e.nStatus.haveUndo then e.nFile else 0
    nDataPos := if e.nStatus.haveData then e.nDataPos else 0
    nUndoPos := if e.nStatus.haveUndo then e.nUndoPos else 0
    prevoutStake := if e.fProofOfStake then e.prevoutStake else COutPoint.null
    nStakeTime := if e.fProofOfStake then e.nStakeTime else 0 }

/-- Nothing is lost of the entry when it is written. -/
structure CBlockIndex.Written (e : CBlockIndex) : Prop where
  nFile : e.nStatus.haveData = false → e.nStatus.haveUndo = false → e.nFile = 0
  nDataPos : e.nStatus.haveData = false → e.nDataPos = 0
  nUndoPos : e.nStatus.haveUndo = false → e.nUndoPos = 0
  prevoutStake : e.fProofOfStake = false → e.prevoutStake = COutPoint.null
  nStakeTime : e.fProofOfStake = false → e.nStakeTime = 0

/-- The entry that `LoadBlockIndexGuts` makes of a record.  What is not stored starts at zero. -/
def entryOfRecord (s : NodeState) (r : CDiskBlockIndex) : CBlockIndex :=
  { r.index.written with
    hash := r.getBlockHash N.C
    pprev := if r.hashPrev = 0 then none else findRecord N s r.hashPrev
    pskip := none
    nChainWork := 0
    nChainTx := 0
    nSequenceId := 0 }

/-- The state after `LoadBlockIndexGuts`, at the addresses `A`. -/
def loadBlockIndexGuts (s : NodeState) (A : Addresses) : NodeState :=
  { s with
    mapBlockIndex :=
      { size := s.size
        entry := fun p =>
          match s.blockTree p with
          | some r => entryOfRecord N s r
          | none => CBlockIndex.new }
    addresses := A
    chainActive := []
    setBlockIndexCandidates := []
    mapBlocksUnlinked := []
    nBlockSequenceId := 1
    pindexBestInvalid := none
    pindexBestHeader := none
    setDirtyBlockIndex := []
    now := s.now + 1 }

/-- The fields of an entry that are computed from its parent. -/
def loadedEntry (s : NodeState) (e : CBlockIndex) : CBlockIndex :=
  { e with
    nChainWork := (match e.pprev with
      | some q => (s.entry q).nChainWork
      | none => 0) + getBlockProof e.nBits
    nChainTx :=
      if e.nStatus.haveData then
        match e.pprev with
        | some q => if (s.entry q).linked then (s.entry q).nChainTx + e.nTx else 0
        | none => e.nTx
      else e.nChainTx
    pskip := match e.pprev with
      | some q => s.mapBlockIndex.buildSkip q e.nHeight
      | none => e.pskip }

/-- Whether an entry has its data and waits for that of an ancestor. -/
def waitsFor (s : NodeState) (e : CBlockIndex) : Option Ptr :=
  match e.pprev with
  | some q => if e.nStatus.haveData && !(s.entry q).linked then some q else none
  | none => none

/-- The turn of `LoadBlockIndexDB` for one entry. -/
def loadEntry (s : NodeState) (p : Ptr) : NodeState :=
  let s' := s.modify p (loadedEntry s)
  let e := loadedEntry s (s.entry p)
  { s' with
    mapBlocksUnlinked := match waitsFor s e with
      | some q => s.mapBlocksUnlinked ++ [(q, p)]
      | none => s.mapBlocksUnlinked
    setBlockIndexCandidates :=
      if e.isValid BLOCK_VALID_TRANSACTIONS && (e.linked || e.pprev.isNone) then
        (s.insertCandidate p).setBlockIndexCandidates
      else s.setBlockIndexCandidates
    pindexBestInvalid :=
      if e.failed then (s'.invalidChainFound p).pindexBestInvalid else s.pindexBestInvalid
    pindexBestHeader :=
      if e.isValid BLOCK_VALID_TREE && (match s.pindexBestHeader with
          | none => true
          | some b => s'.worse b p) then
        some p
      else s.pindexBestHeader }

/-- The loop over the entries, which stops at a stake modifier that does not match its checkpoint. -/
def loadEntries (env : Env) : List Ptr → NodeState → Call Unit
  | [], s => (.ok (), s)
  | p :: ps, s =>
    let s := loadEntry s p
    if !env.checkStakeModifierCheckpoints p then (.error returnError, s)
    else loadEntries env ps s

/-- `vSortedByHeight`: by height, then by address. -/
def sortedByHeight (s : NodeState) : List Ptr :=
  (List.range s.size).insertionSort fun p q =>
    s.ht p < s.ht q ∨ (s.ht p = s.ht q ∧ s.addresses.addr p ≤ s.addresses.addr q)

def loadBlockIndexDB (s : NodeState) (A : Addresses) : Call Unit :=
  let s := loadBlockIndexGuts N s A
  (loadEntries (N.env s) (sortedByHeight s) s).andThen fun _ s =>
    match s.mapBlockIndex.find s.pcoinsTip.getBestBlock with
    | none => (.ok (), s)
    | some p => pruneBlockIndexCandidates (s.updateTip (some p))

/-- `FlushStateToDisk` followed by a restart. -/
def restart (s : NodeState) (A : Addresses) : Call Unit :=
  loadBlockIndexDB N s.writeBlockIndex A

end

end Reddcoin

/-!
## Runs of the node

`InitBlockIndex`, and the calls that reach the index after it.
-/

namespace Reddcoin

/-- The globals before anything is indexed, over an empty database. -/
def NodeState.empty (A : Addresses) : NodeState where
  mapBlockIndex := { size := 0, entry := fun _ => CBlockIndex.new }
  addresses := A
  chainActive := []
  setBlockIndexCandidates := []
  mapBlocksUnlinked := []
  nBlockSequenceId := 1
  pindexBestInvalid := none
  pindexBestHeader := none
  setDirtyBlockIndex := []
  blockTree := fun _ => none
  blockFile := fun _ => none
  undoFile := fun _ => none
  pcoinsTip := CoinsView.over (fun _ => none) 0
  now := 0
  stakeChecks := []
  reversedVerdicts := []
  quietChanges := []

/-- What `chainparams.cpp` asserts of the genesis block. -/
structure IsGenesis (N : Node) (genesis : CBlock) : Prop where
  hash : genesis.getHash N.C = N.P.hashGenesisBlock
  prev : genesis.hashPrevBlock = 0
  txs : genesis.vtx ≠ []

section

variable (N : Node)

/-- `InitBlockIndex` on an empty database. -/
def initBlockIndex (genesis : CBlock) (A : Addresses) (turns : Nat) : Option (Call Unit) :=
  let s := NodeState.empty A
  if !(N.env s).canWrite then some (.error returnError, s)
  else
    let added := addToBlockIndex N s genesis.toCBlockHeader
    match receivedBlockTransactions N (N.env added.2) N.P.hashGenesisBlock added.2 genesis added.1 with
    | (.error _, s) => some (.error returnError, s)
    | (.ok (), s) =>
      (activateBestChain N (some genesis) turns s).map fun x =>
        x.andThen fun _ s => (.ok (), s.writeBlockIndex)

/-- The calls on the index.  `turns` bounds the loop of `ActivateBestChain`. -/
inductive Op where
  | acceptBlockHeader (block : CBlockHeader)
  | acceptBlock (block : CBlock)
  | activateBestChain (pblock : Option CBlock) (turns : Nat)
  | processNewBlock (turns : Nat) (block : CBlock)
  | invalidateBlock (p : Ptr)
  | reconsiderBlock (p : Ptr)
  | restart (A : Addresses)

/-- The result without its value. -/
def Call.done {α : Type} (x : Call α) : Call Unit :=
  (x.1.map fun _ => (), x.2)

/-- What a call returns; nothing when it has not returned yet, when there is no such entry, or when the
index does not load, and the node does not start.  A restart is followed only while no block hashes to 0. -/
def Op.run (s : NodeState) : Op → Option (Call Unit)
  | acceptBlockHeader block => some (Reddcoin.acceptBlockHeader N s block).done
  | acceptBlock block => some (Reddcoin.acceptBlock N s block).done
  | activateBestChain pblock turns => Reddcoin.activateBestChain N pblock turns s
  | processNewBlock turns block => Reddcoin.processNewBlock N turns s block
  | invalidateBlock p => if p < s.size then some (Reddcoin.invalidateBlock N s p) else none
  | reconsiderBlock p => if p < s.size then some (.ok (), Reddcoin.reconsiderBlock s p) else none
  | restart A =>
    if s.HashesNonzero then
      match Reddcoin.restart N s A with
      | (.ok (), s) => some (.ok (), s)
      | (.error _, _) => none
    else none

/-- A call that returns leads to the next moment.  A failed assertion ends the run. -/
def Step (op : Op) (s s' : NodeState) : Prop :=
  ∃ r s₁, op.run N s = some (r, s₁) ∧ r ≠ .error .crashes ∧ s' = s₁.tick

/-- The states that a node can get into once the genesis block is active. -/
inductive Reachable : NodeState → Prop where
  | init {genesis : CBlock} {A : Addresses} {turns : Nat} {s : NodeState} (isGenesis : IsGenesis N genesis)
      (run : initBlockIndex N genesis A turns = some (.ok (), s)) (active : s.tip ≠ none) : Reachable s
  /-- During a reindex the genesis block is accepted like any other. -/
  | reindex {genesis : CBlock} {A : Addresses} {turns : Nat} {s : NodeState}
      (isGenesis : IsGenesis N genesis)
      (run : processNewBlock N turns (NodeState.empty A) genesis = some (.ok (), s))
      (active : s.tip ≠ none) : Reachable s
  | step {s s' : NodeState} (op : Op) (before : Reachable s) (step : Step N op s s') : Reachable s'

end

end Reddcoin
