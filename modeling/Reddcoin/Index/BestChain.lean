import Reddcoin.Index.Accept

/-!
# Activating the best chain

`ConnectTip`, `DisconnectTip`, `FindMostWorkChain`, `PruneBlockIndexCandidates` and `ActivateBestChain`.
-/

namespace Reddcoin

namespace NodeState

/-- A verdict against an entry is recorded when the entry has been connected before. -/
def recordVerdict (s : NodeState) (p : Ptr) : NodeState :=
  { s with
    reversedVerdicts := if BLOCK_VALID_SCRIPTS ≤ (s.entry p).nStatus.valid then
        p :: s.reversedVerdicts
      else s.reversedVerdicts }

/-- `InvalidBlockFound`. -/
def invalidBlockFound (s : NodeState) (p : Ptr) (st : CValidationState) : NodeState :=
  if st.corruptionPossible then s
  else ((((s.recordVerdict p).failValid p).setDirty p).eraseCandidate p).invalidChainFound p

/-- The candidates that are worse than `t` are deleted. -/
def dropWorse (s : NodeState) (t : Ptr) : NodeState :=
  { s with setBlockIndexCandidates := s.setBlockIndexCandidates.filter fun q => !s.worse q t }

/-- `UpdateTip`. -/
def updateTip (s : NodeState) (p : Option Ptr) : NodeState :=
  { s with chainActive := s.chainActive.setTip s.mapBlockIndex p }

end NodeState

section

variable (N : Node)

/-! ## One block -/

/-- What `ConnectBlock` and `DisconnectBlock` read of the entry. -/
def connectContext (s : NodeState) (p : Ptr) : ConnectContext where
  nHeight := s.ht p
  hashBlock := (s.entry p).hash
  phashBlock := true
  hashPrevBlock := (s.mapBlockIndex.getBlockHeader p).hashPrevBlock
  versions := s.versions (s.par p)
  nMoneySupplyPrev := match s.par p with
    | some q => (s.entry q).nMoneySupply
    | none => 0
  nAdjustedTime := (N.env s).nAdjustedTime
  fThreads := (N.env s).fThreads
  getCoinAge := (N.env s).getCoinAge
  inflationAdjustment := (N.env s).inflationAdjustment
  posvShare := (N.env s).posvShare

/-- The undo data of an entry, where its status says that there is any. -/
def NodeState.undoData (s : NodeState) (p : Ptr) : Option CBlockUndo :=
  if (s.entry p).nStatus.haveUndo then s.undoFile p else none

/-- The status of an entry after `ConnectBlock`. -/
def connectedStatus (st : BlockStatus) : BlockStatus :=
  if st.haveUndo && st.isValid BLOCK_VALID_SCRIPTS then st
  else ({ st with haveUndo := true }).raiseValidity BLOCK_VALID_SCRIPTS

/-- The entry after `ConnectBlock`, for a block other than the genesis block. -/
def connectedEntry (nUndoPos : Nat) (r : ConnectResult) (e : CBlockIndex) : CBlockIndex :=
  { e with
    nMint := r.nMint
    nMoneySupply := r.nMoneySupply
    nUndoPos := if e.nStatus.haveUndo then e.nUndoPos else nUndoPos
    nStatus := connectedStatus e.nStatus }

/-- The entry when `ConnectBlock` fails to write the undo data. -/
def mintedEntry (r : ConnectResult) (e : CBlockIndex) : CBlockIndex :=
  { e with nMint := r.nMint, nMoneySupply := r.nMoneySupply }

/-- The entry has its undo data and its scripts are valid, so `ConnectBlock` has nothing to write. -/
def CBlockIndex.isRecorded (e : CBlockIndex) : Bool :=
  e.nStatus.haveUndo && e.isValid BLOCK_VALID_SCRIPTS

/-- The index and the undo file after `ConnectBlock`. -/
def NodeState.recorded (s : NodeState) (p : Ptr) (nUndoPos : Nat) (r : ConnectResult) : NodeState :=
  { s.modify p (connectedEntry nUndoPos r) with
    undoFile := if (s.entry p).nStatus.haveUndo then s.undoFile
      else fun q => if q = p then some r.blockundo else s.undoFile q
    setDirtyBlockIndex :=
      if (s.entry p).isRecorded then s.setDirtyBlockIndex else p :: s.setDirtyBlockIndex
    quietChanges :=
      if (s.entry p).isRecorded then
        (s.noteQuiet .reconnected p (connectedEntry nUndoPos r)).quietChanges
      else s.quietChanges }

/-- What `ConnectBlock` writes, unless the disk fails. -/
def recordConnected (s : NodeState) (p : Ptr) (block : CBlock) (r : ConnectResult) : Call Unit :=
  if block.getHash N.C = N.P.hashGenesisBlock then (.ok (), s)
  else if !(s.entry p).nStatus.haveUndo && !(N.env s).canWrite then
    (.error (diskError "Failed to write undo data"),
      (s.noteQuiet .reconnected p (mintedEntry r)).modify p (mintedEntry r))
  else if !(N.env s).canWriteTxIndex then
    (.error (diskError "Failed to write transaction index"), s.recorded p (N.env s).findUndoPos r)
  else (.ok (), s.recorded p (N.env s).findUndoPos r)

/-- `ConnectTip` once the block is at hand. -/
def connectTipBlock (s : NodeState) (p : Ptr) (block : CBlock) : Call Unit :=
  match connectBlock N.P N.C (connectContext N s p) block s.pcoinsTip false with
  | .error (.returns st) =>
    (.error (.returns st), if st.isInvalid then s.invalidBlockFound p st else s)
  | .error .crashes => (.error .crashes, s)
  | .ok r =>
    (recordConnected N s p block r).andThen fun _ s =>
      let s := { s with pcoinsTip := r.view.flush }
      let s := s.flushStateToDisk (N.env s).needsFlush
      (.ok (), (s.updateTip (some p)).tick)

def connectTip (s : NodeState) (p : Ptr) (pblock : Option CBlock) : Call Unit :=
  if s.par p ≠ s.tip then (.error .crashes, s)
  else
    match pblock with
    | some block => connectTipBlock N s p block
    | none =>
      match readBlockFromDisk N s p with
      | some block => connectTipBlock N s p block
      | none => (.error (diskError "Failed to read block"), s)

/-- `DisconnectTip` for the tip `p`.  Undo data that does not fit the coins is reported and counts as a
failure. -/
def disconnectTipBlock (s : NodeState) (p : Ptr) (block : CBlock) (blockUndo : CBlockUndo) : Call Unit :=
  match disconnectBlock N.C (connectContext N s p) block blockUndo s.pcoinsTip with
  | .error stop => (.error stop, s)
  | .ok (view, fClean) =>
    if !fClean then (.error returnError, s)
    else
      let s := { s with pcoinsTip := view.flush }
      let s := s.flushStateToDisk (N.env s).needsFlush
      (.ok (), (s.updateTip (s.par p)).tick)

def disconnectTip (s : NodeState) : Call Unit :=
  match s.tip with
  | none => (.error .crashes, s)
  | some p =>
    match readBlockFromDisk N s p with
    | none => (.error (diskError "Failed to read block"), s)
    | some block =>
      match s.undoData p with
      | none => (.error returnError, s)
      | some blockUndo => disconnectTipBlock N s p block blockUndo

/-! ## The best candidate -/

/-- The walk of `FindMostWorkChain` from a candidate down to the active chain: the first entry on it that
is marked failed. -/
def findFailed (s : NodeState) : Nat → Option Ptr → Check (Option Ptr)
  | turns + 1, some pindexTest =>
    if s.chainActive.contains s.mapBlockIndex pindexTest then .ok none
    else if !(s.entry pindexTest).nStatus.haveData then .error .crashes
    else if !((s.entry pindexTest).linked || decide (s.ht pindexTest = 0)) then .error .crashes
    else if (s.entry pindexTest).failed then .ok (some pindexTest)
    else findFailed s turns (s.par pindexTest)
  | _, _ => .ok none

/-- The entries above `pindexTest` are marked, and with it no longer candidates. -/
def failBranch (pindexTest : Ptr) : Nat → NodeState → Option Ptr → NodeState
  | turns + 1, s, some pindexFailed =>
    if pindexFailed = pindexTest then s.eraseCandidate pindexTest
    else
      failBranch pindexTest turns
        (((s.noteQuiet .findMostWorkChain pindexFailed CBlockIndex.failChild).failChild
          pindexFailed).eraseCandidate pindexFailed)
        (s.par pindexFailed)
  | _, s, _ => s

/-- The loop of `FindMostWorkChain`.  Each turn but the last removes a candidate. -/
def findMostWorkLoop : Nat → NodeState → Call (Option Ptr)
  | turns + 1, s =>
    match bestCandidate s.addresses s.mapBlockIndex s.setBlockIndexCandidates with
    | none => (.ok none, s)
    | some pindexNew =>
      match findFailed s (s.ht pindexNew + 1) (some pindexNew) with
      | .error stop => (.error stop, s)
      | .ok none => (.ok (some pindexNew), s)
      | .ok (some pindexTest) =>
        findMostWorkLoop turns
          (failBranch pindexTest (s.ht pindexNew + 1) (s.invalidChainFound pindexNew)
            (some pindexNew))
  | 0, s => (.ok none, s)

def findMostWorkChain (s : NodeState) : Call (Option Ptr) :=
  findMostWorkLoop (s.setBlockIndexCandidates.length + 1) s

def pruneBlockIndexCandidates (s : NodeState) : Call Unit :=
  match s.tip with
  | none => (.error .crashes, s)
  | some t =>
    let s := s.dropWorse t
    if s.setBlockIndexCandidates.isEmpty then (.error .crashes, s) else (.ok (), s)

/-! ## A step towards it -/

/-- Blocks are disconnected until the tip is the fork. -/
def disconnectTo (pindexFork : Option Ptr) : Nat → NodeState → Call Unit
  | turns + 1, s =>
    if s.tip = none ∨ s.tip = pindexFork then (.ok (), s)
    else (disconnectTip N s).andThen fun _ s => disconnectTo pindexFork turns s
  | 0, s => (.ok (), s)

/-- `vpindexToConnect`, from `pindexIter` down to the entry above `nHeight`. -/
def toConnect (s : NodeState) (nHeight : Int) : Nat → Option Ptr → List Ptr
  | turns + 1, some pindexIter =>
    if (s.ht pindexIter : Int) = nHeight then []
    else pindexIter :: toConnect s nHeight turns (s.par pindexIter)
  | _, _ => []

/-- Whether the tip has more work than the tip before. -/
def improved (s : NodeState) (pindexOldTip : Option Ptr) : Bool :=
  match pindexOldTip, s.tip with
  | some old, some t => decide ((s.entry old).nChainWork < (s.entry t).nChainWork)
  | _, _ => true

/-- The entries of a batch are connected from the lowest, `back`, upwards; the result is `fContinue`. -/
def connectBatch (pindexMostWork : Ptr) (pblock : Option CBlock) (pindexOldTip : Option Ptr)
    (back : Ptr) : List Ptr → NodeState → Call Bool
  | [], s => (.ok true, s)
  | pindexConnect :: rest, s =>
    match connectTip N s pindexConnect (if pindexConnect = pindexMostWork then pblock else none) with
    | (.error .crashes, s) => (.error .crashes, s)
    | (.error (.returns st), s) =>
      if st.isInvalid then
        (.ok false, if st.corruptionPossible then s else s.invalidChainFound back)
      else (.error (.returns st), s)
    | (.ok (), s) =>
      (pruneBlockIndexCandidates s).andThen fun _ s =>
        if improved s pindexOldTip then (.ok false, s)
        else connectBatch pindexMostWork pblock pindexOldTip back rest s

/-- The next batch of at most 32 entries above `nHeight`, from the lowest upwards. -/
def nextBatch (s : NodeState) (pindexMostWork : Ptr) (nHeight nTargetHeight : Int) : List Ptr :=
  (toConnect s nHeight (nTargetHeight.toNat + 1)
    (s.mapBlockIndex.getAncestor pindexMostWork nTargetHeight.toNat)).reverse

/-- The loop over the batches.  The height grows in each turn. -/
def connectLoop (pindexMostWork : Ptr) (pblock : Option CBlock) (pindexOldTip : Option Ptr) :
    Nat → NodeState → Int → Call Unit
  | turns + 1, s, nHeight =>
    if nHeight = s.ht pindexMostWork then (.ok (), s)
    else
      let nTargetHeight := min (nHeight + 32) (s.ht pindexMostWork)
      let batch := nextBatch s pindexMostWork nHeight nTargetHeight
      (connectBatch N pindexMostWork pblock pindexOldTip (batch.headD 0) batch s).andThen
        fun fContinue s =>
          if fContinue then connectLoop pindexMostWork pblock pindexOldTip turns s nTargetHeight
          else (.ok (), s)
  | 0, s, _ => (.ok (), s)

def activateBestChainStep (s : NodeState) (pindexMostWork : Ptr) (pblock : Option CBlock) : Call Unit :=
  let pindexOldTip := s.tip
  let pindexFork := s.chainActive.findFork s.mapBlockIndex pindexMostWork
  (disconnectTo N pindexFork s.chainActive.length s).andThen fun _ s =>
    let nHeight : Int := match pindexFork with
      | some fork => s.ht fork
      | none => -1
    connectLoop N pindexMostWork pblock pindexOldTip (s.ht pindexMostWork + 2) s nHeight

/-- The block in memory, when it is the block of the entry. -/
def blockOf (s : NodeState) (pblock : Option CBlock) (p : Ptr) : Option CBlock :=
  pblock.filter fun block => decide (block.getHash N.C = (s.entry p).hash)

/-- `ActivateBestChain`; `none` when it is still running after `turns` turns of its loop. -/
def activateBestChain (pblock : Option CBlock) : Nat → NodeState → Option (Call Unit)
  | 0, _ => none
  | turns + 1, s =>
    match findMostWorkChain s with
    | (.error stop, s) => some (.error stop, s)
    | (.ok none, s) => some (.ok (), s)
    | (.ok (some pindexMostWork), s) =>
      if s.tip = some pindexMostWork then some (.ok (), s)
      else
        match activateBestChainStep N s pindexMostWork (blockOf N s pblock pindexMostWork) with
        | (.error stop, s) => some (.error stop, s)
        | (.ok (), s) =>
          if s.tip = some pindexMostWork then
            some (.ok (), s.flushStateToDisk (N.env s).needsFlush)
          else activateBestChain pblock turns s

/-- `ProcessNewBlock`, with the same bound on `ActivateBestChain`. -/
def processNewBlock (turns : Nat) (s : NodeState) (block : CBlock) : Option (Call Unit) :=
  match checkBlock N.P N.C (N.env s).nAdjustedTime block true true true with
  | .error stop => some (.error stop, s)
  | .ok () =>
    match acceptBlock N s block with
    | (.error stop, s) => some (.error stop, s)
    | (.ok _, s) => activateBestChain N (some block) turns s

end

end Reddcoin

/-!
## Invalidating and reconsidering a block

`InvalidateBlock` and `ReconsiderBlock`, the two commands by which a user changes the verdict on an entry.
-/

namespace Reddcoin

/-! ## Invalidating -/

/-- The tip is marked before it is disconnected. -/
def NodeState.markTip (s : NodeState) (pindexWalk : Ptr) : NodeState :=
  ((s.failChild pindexWalk).setDirty pindexWalk).eraseCandidate pindexWalk

section

variable (N : Node)

/-- The blocks from the tip down to `pindex` are marked and disconnected. -/
def disconnectInvalid (pindex : Ptr) : Nat → NodeState → Call Unit
  | turns + 1, s =>
    if s.chainActive.contains s.mapBlockIndex pindex then
      match s.tip with
      | none => (.error .crashes, s)
      | some pindexWalk =>
        (disconnectTip N (s.markTip pindexWalk)).andThen fun _ s => disconnectInvalid pindex turns s
    else (.ok (), s)
  | 0, s => (.ok (), s)

/-- An entry is added again when it is as good as the tip `t`. -/
def readdCandidate (t : Ptr) (s : NodeState) (p : Ptr) : NodeState :=
  { s with
    setBlockIndexCandidates :=
      if (s.entry p).isValid BLOCK_VALID_TRANSACTIONS && (s.entry p).linked && !s.worse p t then
        (s.insertCandidate p).setBlockIndexCandidates
      else s.setBlockIndexCandidates }

def invalidateBlock (s : NodeState) (pindex : Ptr) : Call Unit :=
  let s := ((s.failValid pindex).setDirty pindex).eraseCandidate pindex
  (disconnectInvalid N pindex (s.chainActive.length + 1) s).andThen fun _ s =>
    match s.tip with
    | none => (.error .crashes, s)
    | some t => (.ok (), ((List.range s.size).foldl (readdCandidate t) s).invalidChainFound pindex)

end

/-! ## Reconsidering -/

/-- A candidate again, when the entry is better than the tip. -/
def NodeState.reconsiderCandidate (s : NodeState) (p : Ptr) : NodeState :=
  { s with
    setBlockIndexCandidates :=
      if (s.entry p).isValid BLOCK_VALID_TRANSACTIONS && (s.entry p).linked &&
          (match s.tip with
            | some t => s.worse t p
            | none => false) then
        (s.insertCandidate p).setBlockIndexCandidates
      else s.setBlockIndexCandidates }

/-- Reset the invalid block marker if it was pointing to `p`. -/
def NodeState.forgetInvalid (s : NodeState) (p : Ptr) : NodeState :=
  { s with
    pindexBestInvalid := if s.pindexBestInvalid = some p then none else s.pindexBestInvalid }

/-- The turn of the first loop of `ReconsiderBlock` for one entry: descendants of `pindex` lose their
flags. -/
def reconsiderDescendant (pindex : Ptr) (s : NodeState) (p : Ptr) : NodeState :=
  if !(s.entry p).isValid BLOCK_VALID_TRANSACTIONS &&
      decide (s.mapBlockIndex.getAncestor p (s.ht pindex) = some pindex) then
    (((s.clearFailed p).setDirty p).reconsiderCandidate p).forgetInvalid p
  else s

/-- The second loop: the ancestors of `pindex` lose their flags, and nothing else happens to them. -/
def reconsiderAncestors : Nat → NodeState → Option Ptr → NodeState
  | turns + 1, s, some p =>
    reconsiderAncestors turns (if (s.entry p).failed then (s.clearFailed p).setDirty p else s) (s.par p)
  | _, s, _ => s

def reconsiderBlock (s : NodeState) (pindex : Ptr) : NodeState :=
  reconsiderAncestors (s.ht pindex + 1) ((List.range s.size).foldl (reconsiderDescendant pindex) s)
    (some pindex)

end Reddcoin
