import Reddcoin.Lib.OrderedSet
import Reddcoin.Mempool.ChainTip
import Reddcoin.Mempool.FeeEstimator

/-!
# Block templates

`CreateNewBlock` of `miner.cpp`: transactions of the memory pool are taken off a priority queue, those with parents in
the pool once the parents have been taken.
-/

namespace Reddcoin

/-! ## Priorities -/

/-- What the miner does with priorities, which are of type `double`. -/
structure PriorityOps (D : Type) where
  zero : D
  /-- `dPriority += (double)nValueIn * nConf`. -/
  addInput : D → Int → Int → D
  computePriority : CTransaction → D → Nat → D
  add : D → D → D
  lt : D → D → Bool
  eq : D → D → Bool
  /-- `dPriorityDelta <= 0`. -/
  notPositive : D → Bool
  allowFree : D → Bool

structure TxPriority (D : Type) where
  dPriority : D
  feeRate : CFeeRate
  tx : CTransaction

section

variable {D : Type} (ops : PriorityOps D)

/-- `TxPriorityCompare`. -/
def txPriorityCompare (byFee : Bool) (a b : TxPriority D) : Bool :=
  if byFee then
    if a.feeRate = b.feeRate then ops.lt a.dPriority b.dPriority else decide (a.feeRate < b.feeRate)
  else if ops.eq a.dPriority b.dPriority then decide (a.feeRate < b.feeRate)
  else ops.lt a.dPriority b.dPriority

/-- `std::make_heap`, `std::push_heap` and `std::pop_heap`: which element of the vector is at the front, at each turn.
No element comes after it in the order of the heap. -/
structure TxHeap where
  front : Nat → Bool → List (TxPriority D) → Nat
  front_lt : ∀ turns byFee (l : List (TxPriority D)), l ≠ [] → front turns byFee l < l.length
  front_max : ∀ turns byFee l a, l[front turns byFee l]? = some a → ∀ b ∈ l, txPriorityCompare ops byFee a b = false

end

/-- An orphan waits for the transactions of the pool that it spends. -/
structure COrphan (D : Type) where
  ptx : CTransaction
  setDependsOn : List Uint256
  feeRate : CFeeRate
  dPriority : D

namespace COrphan

variable {D : Type} (orphan : COrphan D)

/-- `setDependsOn.erase(hash)`. -/
def without (hash : Uint256) : COrphan D :=
  { orphan with setDependsOn := orphan.setDependsOn.filter fun k => decide (k ≠ hash) }

/-- The element of the priority queue that is made of an orphan. -/
def queued : TxPriority D where
  dPriority := orphan.dPriority
  feeRate := orphan.feeRate
  tx := orphan.ptx

end COrphan

/-- What `CreateNewBlock` reads. -/
structure Miner (D : Type) where
  P : CChainParams
  C : Crypto
  ops : PriorityOps D
  heap : TxHeap ops
  mempool : CTxMemPool
  /-- `mempool.mapDeltas`. -/
  mapDeltas : Uint256 → Option (D × Int)
  pcoinsTip : CoinsView
  /-- The height of the tip. -/
  nHeight : Nat
  hashTip : Uint256
  nMedianTimePast : Int
  /-- What `ConnectBlock` reads of the chain and of the node. -/
  chain : ConnectContext
  getNextWorkRequired : CBlockHeader → Nat
  mineBlocksOnDemand : Bool
  /-- `-blockversion`. -/
  blockVersion : Option Int
  /-- `-blockmaxsize`, `-blockprioritysize` and `-blockminsize`, as `unsigned int`s. -/
  blockMaxSize : Nat
  blockPrioritySize : Nat
  blockMinSize : Nat
  minRelayTxFee : CFeeRate
  fDebug : Bool
  scriptPubKeyIn : CScript

/-- The default constructor of `CTransaction`, of the current version. -/
def CTransaction.new : CTransaction :=
  { nVersion := 2, vin := [], vout := [], nLockTime := 0, nTime := 0 }

/-- `IsFinalTx` at a height, without a time. -/
def isFinalNow (nAdjustedTime : Int) (tx : CTransaction) (nBlockHeight : Nat) : Bool :=
  decide (tx.nLockTime = 0) ||
    decide ((tx.nLockTime : Int) < if tx.nLockTime < LOCKTIME_THRESHOLD then (nBlockHeight : Int) else nAdjustedTime) ||
    tx.vin.all CTxIn.isFinal

/-- `HaveCoins` of a view. -/
def CoinsView.haveCoins (view : CoinsView) (txid : Uint256) : Bool :=
  match view.accessCoins txid with
  | some coins => !coins.vout.isEmpty
  | none => false

/-- The variables of the loop over the inputs of one transaction. -/
structure InputScan (D : Type) where
  /-- `setDependsOn` of the orphan, once there is one. -/
  porphan : Option (List Uint256)
  dPriority : D
  nTotalIn : Int
  mapDependers : Uint256 → List Uint256
  fMissingInputs : Bool

/-- What the loop over the pool leaves.  An orphan is found by the hash of its transaction; a pointer to one that has
been taken back leads nowhere. -/
structure Gathered (D : Type) where
  vecPriority : List (TxPriority D)
  vOrphan : Uint256 → Option (COrphan D)
  mapDependers : Uint256 → List Uint256

/-- The variables of the loop over the priority queue. -/
structure Mining (D : Type) where
  vecPriority : List (TxPriority D)
  vOrphan : Uint256 → Option (COrphan D)
  fSortedByFee : Bool
  view : CoinsView
  /-- The transactions after the coinbase, with their fees and signature operations. -/
  vtx : List CTransaction
  vTxFees : List Int
  vTxSigOps : List Nat
  nBlockSize : Nat
  nBlockSigOps : Nat
  nFees : Int

structure CBlockTemplate where
  block : CBlock
  vTxFees : List Int
  vTxSigOps : List Nat
  nLastBlockTx : Nat
  nLastBlockSize : Nat

namespace Miner

variable {D : Type} (M : Miner D)

def fProofOfStake : Bool :=
  decide (M.P.lastProofOfWorkHeight ≤ M.nHeight)

def nBlockMaxSize : Nat :=
  max 1000 (min (MAX_BLOCK_SIZE - 1000) M.blockMaxSize)

def nBlockPrioritySize : Nat :=
  min M.nBlockMaxSize M.blockPrioritySize

def nBlockMinSize : Nat :=
  min M.nBlockMaxSize M.blockMinSize

/-- `ApplyDeltas`. -/
def applyDeltas (hash : Uint256) (dPriorityDelta : D) (nFeeDelta : Int) : D × Int :=
  match M.mapDeltas hash with
  | none => (dPriorityDelta, nFeeDelta)
  | some deltas => (M.ops.add dPriorityDelta deltas.1, wrap64 (nFeeDelta + deltas.2))

/-! ## Gathering -/

/-- Whether a transaction of the pool is considered at all. -/
def isCandidate (tx : CTransaction) : Bool :=
  !(tx.isCoinBase || tx.isCoinStake || !isFinalNow M.chain.nAdjustedTime tx (M.nHeight + 1)) &&
    !(M.fProofOfStake && decide (tx.nVersion ≤ POW_TX_VERSION)) &&
    !(!M.fProofOfStake && decide (POW_TX_VERSION < tx.nVersion))

/-- The loop over the inputs of the transaction with the given hash.  An output that is not there cannot be read. -/
def scanInputs (view : CoinsView) (hash : Uint256) : List CTxIn → InputScan D → Option (InputScan D)
  | [], s => some s
  | txin :: vin, s =>
    if !view.haveCoins txin.prevout.hash then
      match M.mempool.mapTx.lookup txin.prevout.hash with
      -- This should never happen.
      | none => if M.fDebug then none else some { s with porphan := none, fMissingInputs := true }
      | some entry =>
        match entry.tx.vout[txin.prevout.n]? with
        | none => none
        | some out =>
          scanInputs view hash vin { s with
            porphan := some (OrderedSet.insert (· ≤ ·) txin.prevout.hash (s.porphan.getD []))
            nTotalIn := wrap64 (s.nTotalIn + out.nValue)
            mapDependers := Function.update s.mapDependers txin.prevout.hash
              (s.mapDependers txin.prevout.hash ++ [hash]) }
    else do
      let coins ← view.accessCoins txin.prevout.hash
      let out ← coins.vout[txin.prevout.n]?
      scanInputs view hash vin { s with
        nTotalIn := wrap64 (s.nTotalIn + out.nValue)
        dPriority := M.ops.addInput s.dPriority out.nValue ((M.nHeight : Int) - coins.nHeight + 1) }

/-- One turn of the loop over the pool. -/
def gatherTx (view : CoinsView) (g : Gathered D) (e : Σ _ : Uint256, CTxMemPoolEntry) : Option (Gathered D) :=
  let tx := e.2.tx
  if !M.isCandidate tx then some g
  else do
    let s ← M.scanInputs view e.1 tx.vin
      { porphan := none, dPriority := M.ops.zero, nTotalIn := 0, mapDependers := g.mapDependers, fMissingInputs := false }
    if s.fMissingInputs then pure { g with mapDependers := s.mapDependers }
    else do
      let nTxSize := tx.serializeSize
      let (dPriority, nTotalIn) :=
        M.applyDeltas (M.C.txHash tx) (M.ops.computePriority tx s.dPriority nTxSize) s.nTotalIn
      let nValueOut ← tx.getValueOut
      let feeRate := CFeeRate.ofPaid (wrap64 (nTotalIn - nValueOut)) nTxSize
      match s.porphan with
      | some setDependsOn =>
        pure { g with
          vOrphan := Function.update g.vOrphan e.1
            (some { ptx := tx, setDependsOn := setDependsOn, feeRate := feeRate, dPriority := dPriority })
          mapDependers := s.mapDependers }
      | none =>
        pure { g with
          vecPriority := g.vecPriority ++ [{ dPriority := dPriority, feeRate := feeRate, tx := tx }]
          mapDependers := s.mapDependers }

/-- The loop over the pool. -/
def gather : Option (Gathered D) :=
  M.mempool.sortedMapTx.foldlM (M.gatherTx M.pcoinsTip.flush)
    { vecPriority := [], vOrphan := fun _ => none, mapDependers := fun _ => [] }

/-! ## Choosing -/

/-- One of the orphans that depend on the transaction with the given hash. -/
def release (hash : Uint256) (s : Mining D) (porphan : Uint256) : Option (Mining D) := do
  let orphan ← s.vOrphan porphan
  if orphan.setDependsOn.isEmpty then pure s
  else
    let orphan := orphan.without hash
    pure { s with
      vOrphan := Function.update s.vOrphan porphan (some orphan)
      vecPriority :=
        if orphan.setDependsOn.isEmpty then s.vecPriority ++ [orphan.queued] else s.vecPriority }

/-- A free transaction is skipped once the block has its minimum size. -/
def skipsFree (s : Mining D) (p : TxPriority D) : Bool :=
  let deltas := M.applyDeltas (M.C.txHash p.tx) M.ops.zero 0
  s.fSortedByFee && M.ops.notPositive deltas.1 && decide (deltas.2 ≤ 0) && decide (p.feeRate < M.minRelayTxFee) &&
    decide (M.nBlockMinSize ≤ s.nBlockSize + p.tx.serializeSize)

/-- Whether the block is past its part for high priorities. -/
def pastPriority (s : Mining D) (p : TxPriority D) : Bool :=
  decide (M.nBlockPrioritySize ≤ s.nBlockSize + p.tx.serializeSize) || !M.ops.allowFree p.dPriority

/-- A transaction that has passed everything is added. -/
def addTx (mapDependers : Uint256 → List Uint256) (s : Mining D) (tx : CTransaction) (nTxFees : Int) (nTxSigOps : Nat) :
    Option (Mining D) := do
  let (view, _) ← updateCoins M.C s.view tx (M.nHeight + 1)
  (mapDependers (M.C.txHash tx)).foldlM (release (M.C.txHash tx)) { s with
    view := view
    vtx := s.vtx ++ [tx]
    vTxFees := s.vTxFees ++ [nTxFees]
    vTxSigOps := s.vTxSigOps ++ [nTxSigOps]
    nBlockSize := s.nBlockSize + tx.serializeSize
    nBlockSigOps := s.nBlockSigOps + nTxSigOps
    nFees := wrap64 (s.nFees + nTxFees) }

/-- The part of a turn that reads the coins. -/
def considerTx (mapDependers : Uint256 → List Uint256) (s : Mining D) (tx : CTransaction) : Option (Mining D) :=
  if !haveInputs s.view tx then some s
  else do
    let nValueIn ← getValueIn s.view tx
    let nValueOut ← tx.getValueOut
    let nP2SH ← getP2SHSigOpCount s.view tx
    let nTxSigOps := getLegacySigOpCount tx + nP2SH
    if MAX_BLOCK_SIGOPS ≤ s.nBlockSigOps + nTxSigOps then pure s
    else
      match checkInputs M.C s.view (M.nHeight + 1) tx true MANDATORY_SCRIPT_VERIFY_FLAGS false with
      | .error .crashes => none
      | .error (.returns _) => pure s
      | .ok _ => M.addTx mapDependers s tx (wrap64 (nValueIn - nValueOut)) nTxSigOps

/-- The transaction that has been taken off the queue. -/
def chooseTx (mapDependers : Uint256 → List Uint256) (s : Mining D) (p : TxPriority D) : Option (Mining D) :=
  -- Size limits
  if M.nBlockMaxSize ≤ s.nBlockSize + p.tx.serializeSize then some s
  -- Legacy limits on sigOps
  else if MAX_BLOCK_SIGOPS ≤ s.nBlockSigOps + getLegacySigOpCount p.tx then some s
  -- Timestamp limit, against the dummy coinbase
  else if M.fProofOfStake && decide (CTransaction.new.nTime < p.tx.nTime) then some s
  else if M.skipsFree s p then some s
  else M.considerTx mapDependers { s with fSortedByFee := s.fSortedByFee || M.pastPriority s p } p.tx

/-- The loop over the priority queue.  Each transaction of the pool enters the queue once at most. -/
def choose (mapDependers : Uint256 → List Uint256) : Nat → Mining D → Option (Mining D)
  | 0, s => if s.vecPriority.isEmpty then some s else none
  | turns + 1, s =>
    if s.vecPriority.isEmpty then some s
    else do
      let i := M.heap.front turns s.fSortedByFee s.vecPriority
      let p ← s.vecPriority[i]?
      let s ← M.chooseTx mapDependers { s with vecPriority := s.vecPriority.eraseIdx i } p
      choose mapDependers turns s

/-- The loop starts with room for the coinbase and the header. -/
def start (g : Gathered D) : Mining D where
  vecPriority := g.vecPriority
  vOrphan := g.vOrphan
  fSortedByFee := decide (M.nBlockPrioritySize = 0)
  view := M.pcoinsTip.flush
  vtx := []
  vTxFees := []
  vTxSigOps := []
  nBlockSize := 1000
  nBlockSigOps := 100
  nFees := 0

/-! ## The block -/

/-- `txNew`, the coinbase.  Only a proof-of-work block pays its fees to it. -/
def coinbase (nFees : Int) : CTransaction where
  nVersion := if M.fProofOfStake then CTransaction.new.nVersion else POW_TX_VERSION
  vin := [{ prevout := COutPoint.null, scriptSig := [0x00, 0x00], nSequence := 2 ^ 32 - 1 }]
  vout :=
    if M.fProofOfStake then [{ nValue := 0, scriptPubKey := [] }]
    else [{ nValue := getBlockValue (M.nHeight + 1) nFees, scriptPubKey := M.scriptPubKeyIn }]
  nLockTime := 0
  nTime := (M.chain.nAdjustedTime % 2 ^ 32).toNat

/-- `UpdateTime`. -/
def blockTime : Nat :=
  (max (M.nMedianTimePast + 1) M.chain.nAdjustedTime % 2 ^ 32).toNat

def blockHeader : CBlockHeader :=
  let header : CBlockHeader :=
    { nVersion := if !M.fProofOfStake then POW_BLOCK_VERSION
        else if M.mineBlocksOnDemand then M.blockVersion.getD 5 else 5
      hashPrevBlock := M.hashTip
      hashMerkleRoot := 0
      nTime := M.blockTime
      nBits := 0
      nNonce := 0 }
  { header with nBits := M.getNextWorkRequired header }

/-- What `ConnectBlock` finds at `indexDummy`. -/
def indexDummy : ConnectContext :=
  { M.chain with nHeight := M.nHeight + 1, phashBlock := false, hashPrevBlock := M.hashTip }

def template (s : Mining D) : CBlockTemplate :=
  let coinbase := M.coinbase s.nFees
  { block := { M.blockHeader with vtx := coinbase :: s.vtx, vchBlockSig := [] }
    vTxFees := wrap64 (-s.nFees) :: s.vTxFees
    vTxSigOps := getLegacySigOpCount coinbase :: s.vTxSigOps
    nLastBlockTx := s.vtx.length
    nLastBlockSize := s.nBlockSize }

/-- `CreateNewBlock`; nothing where it stops by an exception or a failed assertion. -/
def createNewBlock : Option CBlockTemplate := do
  let g ← M.gather
  let s ← M.choose g.mapDependers M.mempool.sortedMapTx.length (M.start g)
  match connectBlock M.P M.C M.indexDummy (M.template s).block M.pcoinsTip.flush true with
  | .error _ => none
  | .ok _ => some (M.template s)

end Miner

end Reddcoin
