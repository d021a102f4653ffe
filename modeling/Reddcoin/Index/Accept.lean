import Reddcoin.Kernel.StakeKernel

/-!
# Accepting headers and blocks

`AddToBlockIndex`, `AcceptBlockHeader`, `ReceivedBlockTransactions` and `AcceptBlock`.  A function returns
what the code returns, together with the state it leaves behind, also when it fails.
-/

namespace Reddcoin

section

variable (N : Node)

/-! ## Headers -/

/-- The entry that `AddToBlockIndex` makes for a header whose parent entry is `pprev`. -/
def newEntry (s : NodeState) (block : CBlockHeader) (hash : Uint256) (pprev : Option Ptr) :
    CBlockIndex :=
  let e := CBlockIndex.ofHeader block
  { e with
    hash := hash
    pprev := pprev
    nHeight := match pprev with
      | some q => s.ht q + 1
      | none => 0
    pskip := pprev.bind fun q => s.mapBlockIndex.buildSkip q (s.ht q + 1)
    nChainWork := (match pprev with
      | some q => (s.entry q).nChainWork
      | none => 0) + getBlockProof block.nBits
    nStatus := e.nStatus.raiseValidity BLOCK_VALID_TREE }

/-- The state with a new entry in the next slot. -/
def NodeState.addEntry (s : NodeState) (e : CBlockIndex) : NodeState :=
  let p := s.size
  { s with
    mapBlockIndex :=
      { size := p + 1, entry := fun q => if q = p then e else s.mapBlockIndex.entry q }
    pindexBestHeader := match s.pindexBestHeader with
      | none => some p
      | some q => if (s.entry q).nChainWork < e.nChainWork then some p else some q
    setDirtyBlockIndex := p :: s.setDirtyBlockIndex }

def addToBlockIndex (s : NodeState) (block : CBlockHeader) : Ptr × NodeState :=
  let hash := N.C.headerHash block
  match s.mapBlockIndex.find hash with
  | some p => (p, s)
  | none =>
    (s.size, s.addEntry (newEntry s block hash (s.mapBlockIndex.find block.hashPrevBlock)))

/-- `Checkpoints::CheckBlock`. -/
def checkpointMatches (P : CChainParams) (nHeight : Nat) (hash : Uint256) : Bool :=
  match P.checkpoints.find? fun c => decide (c.1 = nHeight) with
  | none => true
  | some c => decide (hash = c.2)

/-- `Checkpoints::GetLastCheckpoint`. -/
def getLastCheckpoint (P : CChainParams) (s : NodeState) : Option Ptr :=
  P.checkpoints.reverse.findSome? fun c => s.mapBlockIndex.find c.2

/-- The checks of a header against the entry of its parent. -/
def checkHeaderOnParent (s : NodeState) (block : CBlockHeader) (pindexPrev : Ptr) : Check Unit := do
  let P := N.P
  let nHeight := s.ht pindexPrev + 1
  let versions := s.versions (some pindexPrev)
  require (decide (((s.chainActive.length : Int) - 1) - nHeight < P.maxReorganizationDepth))
    (rejectDoS 1 0 "" false)
  require (!(block.isProofOfWork && decide (P.lastProofOfWorkHeight < nHeight)))
    (rejectInvalid REJECT_INVALID "wrong-proof-of-work")
  require (P.skipProofOfWorkCheck ||
      decide (block.nBits = (N.env s).getNextWorkRequired (s.ancestors (some pindexPrev)) block))
    (rejectDoS 100 REJECT_INVALID "bad-diffbits" false)
  require (decide (s.getMedianTimePast pindexPrev < block.getBlockTime))
    (rejectInvalid REJECT_INVALID "time-too-old")
  require (checkpointMatches P nHeight (N.C.headerHash block))
    (rejectDoS 100 REJECT_CHECKPOINT "checkpoint mismatch" false)
  require (match getLastCheckpoint P s with
      | some pcheckpoint => decide (s.ht pcheckpoint ≤ nHeight)
      | none => true)
    (rejectDoS 100 0 "" false)
  require (!(decide (block.nVersion < 3) &&
      isSuperMajority P 3 versions P.rejectBlockOutdatedMajority))
    (rejectInvalid REJECT_OBSOLETE "bad-version")
  require (!(decide (block.nVersion < 4) &&
      isSuperMajority P 4 versions P.rejectBlockOutdatedMajority_4))
    (rejectInvalid REJECT_OBSOLETE "bad-version")
  require (!(decide (block.nVersion < 5) &&
      isSuperMajority P 5 versions P.rejectBlockOutdatedMajority_5))
    (rejectInvalid REJECT_OBSOLETE "bad-version")

/-- The checks of a header that is not indexed yet. -/
def checkNewHeader (s : NodeState) (block : CBlockHeader) : Check Unit := do
  checkBlockHeader N.P N.C (N.env s).nAdjustedTime block true
  onlyIf (decide (N.C.headerHash block ≠ N.P.hashGenesisBlock)) <|
    match s.mapBlockIndex.find block.hashPrevBlock with
    | none => .error (rejectDoS 10 0 "bad-prevblk" false)
    | some pindexPrev => checkHeaderOnParent N s block pindexPrev

def acceptBlockHeader (s : NodeState) (block : CBlockHeader) : Call Ptr :=
  match s.mapBlockIndex.find (N.C.headerHash block) with
  | some p => if (s.entry p).failed then (.error (rejectInvalid 0 "duplicate"), s) else (.ok p, s)
  | none =>
    match checkNewHeader N s block with
    | .error stop => (.error stop, s)
    | .ok () =>
      let added := addToBlockIndex N s block
      (.ok added.1, added.2)

/-! ## Block data -/

/-- The coinstake on which `VerifyHashTarget` calls `CheckProofOfStake`, if it does. -/
def stakeCheckOf (block : CBlock) : Option CTransaction :=
  if block.getHash N.C = N.P.hashGenesisBlock then none
  else if block.isProofOfStake then block.vtx[1]?
  else none

/-- The proof hash that `VerifyHashTarget` computes; `none` when it returns false. -/
def computeProofHash (s : NodeState) (block : CBlock) : Option Uint256 :=
  if block.getHash N.C = N.P.hashGenesisBlock then some 0
  else if block.isProofOfStake then
    (block.vtx[1]?).bind fun coinstake => checkProofOfStake N s coinstake block.nBits
  else some (N.C.powHash block.toCBlockHeader)

/-- `VerifyHashTarget`: what `hashProof` holds when it returns true. -/
def verifyHashTarget (s : NodeState) (block : CBlock) : Option Uint256 :=
  -- the proof hash is computed and then overwritten
  (computeProofHash N s block).map fun _ => 0

/-- The changes that `ReceivedBlockTransactions` makes at once to the entry of the block. -/
def receivedEntry (pos : Nat × Nat) (block : CBlock) (e : CBlockIndex) : CBlockIndex :=
  let e := { e with
    nTx := block.vtx.length
    nChainTx := 0
    nFile := pos.1
    nDataPos := pos.2
    nUndoPos := 0
    nStatus := ({ e.nStatus with haveData := true }).raiseValidity BLOCK_VALID_TRANSACTIONS
    fStakeEntropy := e.fStakeEntropy || decide (block.getHash N.C % 2 = 1) }
  match block.isProofOfStake, block.vtx[1]? with
  | true, some coinstake =>
    { e with
      fProofOfStake := true
      prevoutStake := (coinstake.vin.head?.map CTxIn.prevout).getD COutPoint.null
      nStakeTime := coinstake.nTime }
  | _, _ => e

/-- The number and the sequence id that an entry gets when all its ancestors have their data. -/
def NodeState.link (s : NodeState) (p : Ptr) : NodeState :=
  let nChainTx := (match s.par p with
    | some q => (s.entry q).nChainTx
    | none => 0) + (s.entry p).nTx
  { s.modify p fun e => { e with nChainTx := nChainTx, nSequenceId := s.nBlockSequenceId } with
    nBlockSequenceId := s.nBlockSequenceId + 1 }

/-- A successful `CheckProofOfStake` is recorded. -/
def NodeState.recordStakeCheck (s : NodeState) (block : CBlock) : NodeState :=
  { s with
    stakeChecks := match stakeCheckOf N block with
      | none => s.stakeChecks
      | some coinstake => (coinstake, block.nBits) :: s.stakeChecks }

/-- The entry becomes a candidate unless it is worse than the tip. -/
def NodeState.offerCandidate (s : NodeState) (p : Ptr) : NodeState :=
  { s with
    setBlockIndexCandidates :=
      if (match s.tip with
        | none => false
        | some t => s.worse p t) then s.setBlockIndexCandidates
      else (s.insertCandidate p).setBlockIndexCandidates }

/-- The entries that wait for `p`. -/
def NodeState.waitingFor (s : NodeState) (p : Ptr) : List Ptr :=
  (s.mapBlocksUnlinked.filter fun w => decide (w.1 = p)).map Prod.snd

/-- Nothing waits for `p` any more. -/
def NodeState.drain (s : NodeState) (p : Ptr) : NodeState :=
  { s with mapBlocksUnlinked := s.mapBlocksUnlinked.filter fun w => decide (w.1 ≠ p) }

def CBlockIndex.setHashProof (hash : Uint256) (e : CBlockIndex) : CBlockIndex :=
  { e with hashProof := hash }

def CBlockIndex.setStakeModifier (nStakeModifier : Nat) (fGeneratedStakeModifier : Bool)
    (e : CBlockIndex) : CBlockIndex :=
  { e with
    nStakeModifier := nStakeModifier
    fStakeModifier := e.fStakeModifier || fGeneratedStakeModifier }

/-- A field of an entry in the queue is set.  Only the entry of the received block is marked dirty. -/
def NodeState.setQueued (s : NodeState) (p : Ptr) (f : CBlockIndex → CBlockIndex) : NodeState :=
  (s.noteQuiet .drained p f).modify p f

/-- The proof hash of an entry in the queue: `hashProof` if it is given, else what `VerifyHashTarget` says
for the block that was received. -/
def recordProofHash (hashProof : Uint256) (block : CBlock) (s : NodeState) (p : Ptr) : Option NodeState :=
  if hashProof = 0 then
    (verifyHashTarget N s block).map fun hash =>
      (s.recordStakeCheck N block).setQueued p (CBlockIndex.setHashProof hash)
  else some (s.setQueued p (CBlockIndex.setHashProof hashProof))

/-- One turn of the queue in `ReceivedBlockTransactions`, for the block that was received: the entries
that wait for `p`, when the checks pass. -/
def linkEntry (env : Env) (hashProof : Uint256) (block : CBlock) (s : NodeState) (p : Ptr) :
    Call (List Ptr) :=
  match recordProofHash N hashProof block (s.link p) p with
  | none => (.error (rejectInvalid 0 ""), s.link p)
  | some s =>
    match s.computeNextStakeModifier N.C (s.par p) with
    | none => (.error (rejectInvalid 0 ""), s)
    | some (nStakeModifier, fGeneratedStakeModifier) =>
      let s := s.setQueued p (CBlockIndex.setStakeModifier nStakeModifier fGeneratedStakeModifier)
      if !env.checkStakeModifierCheckpoints p then (.error (rejectInvalid 0 ""), s)
      else (.ok (s.waitingFor p), (s.offerCandidate p).drain p)

/-- The queue of `ReceivedBlockTransactions`.  Each turn takes an entry from the queue or from
`mapBlocksUnlinked`, so their total length bounds the turns. -/
def linkQueue (env : Env) (hashProof : Uint256) (block : CBlock) : Nat → NodeState → List Ptr → Call Unit
  | turns + 1, s, p :: queue =>
    match linkEntry N env hashProof block s p with
    | (.error stop, s) => (.error stop, s)
    | (.ok waiting, s) => linkQueue env hashProof block turns s (queue ++ waiting)
  | _, s, _ => (.ok (), s)

/-- The entry of the block with its data, before it is linked or queued. -/
def receiveData (s : NodeState) (block : CBlock) (p : Ptr) : NodeState :=
  let s := (s.modify p (receivedEntry N (N.env s).findBlockPos block)).setDirty p
  { s with
    blockFile := fun q => if q = p then some block else s.blockFile q
    undoFile := fun q => if q = p then none else s.undoFile q }

def receivedBlockTransactions (env : Env) (hashProof : Uint256) (s : NodeState) (block : CBlock) (p : Ptr) :
    Call Unit :=
  let s := receiveData N s block p
  match s.par p with
  | none => linkQueue N env hashProof block (s.mapBlocksUnlinked.length + 1) s [p]
  | some q =>
    if (s.entry q).linked then linkQueue N env hashProof block (s.mapBlocksUnlinked.length + 1) s [p]
    else if (s.entry q).isValid BLOCK_VALID_TREE then
      (.ok (), { s with mapBlocksUnlinked := s.mapBlocksUnlinked ++ [(q, p)] })
    else (.ok (), s)

/-! ## Blocks -/

/-- `IsFinalTx`.  A height or time of 0 stands for the current one. -/
def isFinalTx (s : NodeState) (env : Env) (tx : CTransaction) (nBlockHeight : Nat) (nBlockTime : Int) :
    Bool :=
  let nBlockHeight : Int := if nBlockHeight = 0 then (s.chainActive.length : Int) - 1 else nBlockHeight
  let nBlockTime := if nBlockTime = 0 then env.nAdjustedTime else nBlockTime
  decide (tx.nLockTime = 0) ||
    decide ((tx.nLockTime : Int) < if tx.nLockTime < LOCKTIME_THRESHOLD then nBlockHeight else nBlockTime) ||
    tx.vin.all CTxIn.isFinal

/-- The dev fund check of `AcceptBlock`. -/
def checkDevTx (s : NodeState) (block : CBlock) (p : Ptr) : Check Unit :=
  onlyIf (block.isProofOfStake && decide (5 ≤ block.nVersion) &&
      isSuperMajority N.P 5 (s.versions (s.par p)) N.P.enforceBlockUpgradeMajority_5) <|
    require (match block.vtx[1]? with
        | some coinstake => isDevTx N.P coinstake
        | none => false)
      (rejectDoS 100 REJECT_INVALID "bad-dev-address" false)

/-- A failed `CheckBlock` marks the entry unless the block may have been corrupted on its way. -/
def failCheckedBlock (s : NodeState) (p : Ptr) (stop : Stop) : NodeState :=
  match stop with
  | .returns st => if st.isInvalid && !st.corruptionPossible then (s.failValid p).setDirty p else s
  | .crashes => s

/-- `AcceptBlock` once the header is indexed and the data is new. -/
def acceptBlockData (s : NodeState) (block : CBlock) (p : Ptr) : Call Unit :=
  let env := N.env s
  match checkBlock N.P N.C env.nAdjustedTime block true true true with
  | .error stop => (.error stop, failCheckedBlock s p stop)
  | .ok () =>
    if !(block.vtx.all fun tx => isFinalTx s env tx (s.ht p) block.getBlockTime) then
      -- The entry is marked here without being marked dirty.
      (.error (rejectDoS 10 REJECT_INVALID "bad-txns-nonfinal" false),
        (s.noteQuiet .nonFinal p CBlockIndex.failValid).failValid p)
    else
      match checkDevTx N s block p with
      | .error stop => (.error stop, s)
      | .ok () =>
        if !env.canWrite then (.error (diskError "Failed to write block"), s)
        else receivedBlockTransactions N env 0 s block p

def acceptBlock (s : NodeState) (block : CBlock) : Call Ptr :=
  match acceptBlockHeader N s block.toCBlockHeader with
  | (.error stop, s) => (.error stop, s)
  | (.ok p, s) =>
    if (s.entry p).nStatus.haveData then (.ok p, s)
    else
      match acceptBlockData N s block p with
      | (.error stop, s) => (.error stop, s)
      | (.ok (), s) => (.ok p, s)

end

end Reddcoin
