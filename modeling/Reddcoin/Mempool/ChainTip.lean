import Reddcoin.Connect.Overwrite
import Reddcoin.Index.State
import Reddcoin.Mempool.Orphans
import Reddcoin.Script.ScriptFlags

/-!
# The memory pool and the tip of the chain

`AcceptToMemoryPool`, `ConnectTip` and `DisconnectTip` of `main.cpp` on the memory pool, the coins and the active
chain, and `CTxMemPool::check`, which the last two call before and after they change them.
-/

namespace Reddcoin

def MEMPOOL_HEIGHT : Nat := 0x7FFFFFFF
def MAX_TX_SIGOPS : Nat := MAX_BLOCK_SIGOPS / 5
def REJECT_DUPLICATE : Nat := 0x12

/-! ## Accepting a transaction -/

/-- `CCoinsViewMemPool::GetCoins`, over `pcoinsTip`. -/
def CTxMemPool.getCoins (pool : CTxMemPool) (pcoinsTip : CoinsView) (txid : Uint256) : Option CCoins :=
  match pool.mapTx.lookup txid with
  | some entry => some (CCoins.fromTx entry.tx MEMPOOL_HEIGHT)
  | none => (pcoinsTip.accessCoins txid).filter fun coins => !coins.isPruned

/-- The cache that `AcceptToMemoryPool` puts over the pool and the chain. -/
def CTxMemPool.viewOver (pool : CTxMemPool) (pcoinsTip : CoinsView) : CoinsView :=
  CoinsView.over (pool.getCoins pcoinsTip) pcoinsTip.getBestBlock

/-- The rules of a node for transactions outside blocks.  The flags `fLimitFree` and `fRejectInsaneFee` are among
what the fee rules read. -/
structure RelayPolicy where
  nonStandard : CTransaction → Option String
  areInputsStandard : CTransaction → CoinsView → Bool
  /-- The fee rules: why a transaction with the given fees is refused. -/
  refusedFees : CTransaction → Int → Option Stop

section

variable (P : CChainParams) (C : Crypto) (policy : RelayPolicy)

/-- The checks of `AcceptToMemoryPool` once all inputs are found.  `nSpendHeight` is one more than the height of the
best block of `pcoinsTip`. -/
def acceptInputs (pcoinsTip : CoinsView) (nSpendHeight : Nat) (pool : CTxMemPool) (tx : CTransaction) :
    Check Unit := do
  let view := pool.viewOver pcoinsTip
  require (haveInputs view tx) (rejectInvalid REJECT_DUPLICATE "bad-txns-inputs-spent")
  let nValueIn ← orCrash (getValueIn view tx)
  require (policy.areInputsStandard tx view) returnError
  let nP2SH ← orCrash (getP2SHSigOpCount view tx)
  require (decide (getLegacySigOpCount tx + nP2SH ≤ MAX_TX_SIGOPS))
    (rejectDoS 0 REJECT_NONSTANDARD "bad-txns-too-many-sigops" false)
  let nValueOut ← orCrash tx.getValueOut
  match policy.refusedFees tx (wrap64 (nValueIn - nValueOut)) with
  | some stop => .error stop
  | none => do
    let _ ← checkInputs C view nSpendHeight tx true STANDARD_SCRIPT_VERIFY_FLAGS false
    pure ()

/-- What `AcceptToMemoryPool` reads beside the pool.  While a block is disconnected, the tip is still that block and
the coins are those below it. -/
def relayAt (nTipHeight : Nat) (pcoinsTip : CoinsView) (nSpendHeight : Nat) : Relay where
  P := P
  C := C
  nTipHeight := nTipHeight
  nonStandard := policy.nonStandard
  haveCoins := fun hash => ((pcoinsTip.accessCoins hash).filter fun coins => !coins.isPruned).isSome
  checkInView := acceptInputs C policy pcoinsTip nSpendHeight
  getRandHash := fun _ => 0

end

/-! ## The assertions -/

namespace CTxMemPool

variable (C : Crypto)

/-- `assert`. -/
def assert (b : Bool) : Except PoolStop Unit :=
  if b then .ok () else .error .assertion

/-- The first assertion on an input: an output of another transaction of the pool, or an available coin.  The result
is whether the input makes its transaction wait. -/
def checkSource (pool : CTxMemPool) (pcoins : CoinsView) (txin : CTxIn) : Except PoolStop Bool :=
  match pool.mapTx.lookup txin.prevout.hash with
  | some entry => do
    assert ((entry.tx.vout[txin.prevout.n]?).any fun out => !out.isNull)
    pure true
  | none => do
    assert ((pcoins.accessCoins txin.prevout.hash).any fun coins => coins.isAvailable txin.prevout.n)
    pure false

/-- The inputs of the entry under `hash`, from the `i`th on.  The result is `fDependsWait`. -/
def checkPoolInputs (pool : CTxMemPool) (pcoins : CoinsView) (hash : Uint256) :
    Nat → List CTxIn → Except PoolStop Bool
  | _, [] => pure false
  | i, txin :: vin => do
    let waits ← checkSource pool pcoins txin
    assert (decide (pool.mapNextTx.lookup txin.prevout = some { ptx := hash, n := i }))
    let others ← checkPoolInputs pool pcoins hash (i + 1) vin
    pure (waits || others)

/-- `assert(CheckInputs(..))` without scripts, and `UpdateCoins`. -/
def applyPoolTx (nSpendHeight : Nat) (view : CoinsView) (tx : CTransaction) : Except PoolStop CoinsView :=
  match checkInputs C view nSpendHeight tx false 0 false, updateCoins C view tx 1000000 with
  | .ok _, some (view, _) => .ok view
  | _, _ => .error .assertion

/-- The variables of the loop over the entries. -/
structure PoolCheck where
  mempoolDuplicate : CoinsView
  waitingOnDependants : List CTransaction
  checkTotal : Nat

/-- One turn of the loop over the entries. -/
def checkEntry (pool : CTxMemPool) (pcoins : CoinsView) (nSpendHeight : Nat) (s : PoolCheck)
    (e : Σ _ : Uint256, CTxMemPoolEntry) : Except PoolStop PoolCheck := do
  let s := { s with checkTotal := s.checkTotal + e.2.nTxSize }
  let fDependsWait ← checkPoolInputs pool pcoins e.1 0 e.2.tx.vin
  if fDependsWait then pure { s with waitingOnDependants := s.waitingOnDependants ++ [e.2.tx] }
  else do
    let view ← applyPoolTx C nSpendHeight s.mempoolDuplicate e.2.tx
    pure { s with mempoolDuplicate := view }

/-- The loop over the transactions that wait.  One goes to the back while it lacks inputs; that all of them have gone
to the back since the last one was applied is what the assertion excludes. -/
def checkWaiting (nSpendHeight : Nat) :
    Nat → CoinsView → List CTransaction → Nat → Except PoolStop CoinsView
  | _, view, [], _ => .ok view
  | 0, _, _ :: _, _ => .error .outOfTurns
  | turns + 1, view, tx :: rest, stepsSinceLastRemove =>
    if haveInputs view tx then do
      let view ← applyPoolTx C nSpendHeight view tx
      checkWaiting nSpendHeight turns view rest 0
    else do
      assert (decide (stepsSinceLastRemove + 1 < rest.length + 1))
      checkWaiting nSpendHeight turns view (rest ++ [tx]) (stepsSinceLastRemove + 1)

/-- One turn of the loop over `mapNextTx`. -/
def checkNext (pool : CTxMemPool) (e : Σ _ : COutPoint, CInPoint) : Except PoolStop Unit := do
  let hash ← pool.followHash C e.2
  match pool.mapTx.lookup hash with
  | none => .error .assertion
  | some entry => do
    assert (decide (hash = e.2.ptx))
    assert (decide ((entry.tx.vin[e.2.n]?).map CTxIn.prevout = some e.1))

/-- The entries of the pool in the order of a `std::map`, with their keys. -/
def sortedMapTx (pool : CTxMemPool) : List (Σ _ : Uint256, CTxMemPoolEntry) :=
  pool.mapTx.entries.insertionSort fun a b => a.1 ≤ b.1

/-- The assertions of `check`.  Each turn of the second loop applies a transaction or brings the next one to the
front. -/
def checkAll (pool : CTxMemPool) (pcoins : CoinsView) (nSpendHeight : Nat) : Except PoolStop Unit := do
  let s ← pool.sortedMapTx.foldlM (checkEntry C pool pcoins nSpendHeight)
    { mempoolDuplicate := pcoins.flush, waitingOnDependants := [], checkTotal := 0 }
  let n := s.waitingOnDependants.length
  let _ ← checkWaiting C nSpendHeight (n * n + n) s.mempoolDuplicate s.waitingOnDependants 0
  pool.mapNextTx.entries.forM (checkNext C pool)
  assert (decide (pool.totalTxSize = s.checkTotal))

/-- `check` does nothing in a pool without sanity checks. -/
def check (pool : CTxMemPool) (pcoins : CoinsView) (nSpendHeight : Nat) : Except PoolStop Unit :=
  if pool.fSanityCheck then pool.checkAll C pcoins nSpendHeight else .ok ()

end CTxMemPool

/-! ## Moving the tip -/

/-- A block of the active chain, with what `ConnectBlock` was given and what it left for `DisconnectBlock`. -/
structure ConnectedBlock where
  block : CBlock
  ctx : ConnectContext
  blockundo : CBlockUndo
  /-- The coins before the block was connected, which no code reads. -/
  below : CoinsView

/-- The globals that the three functions change.  The chain is given by its blocks from the tip down to the first one
after the genesis block. -/
structure ChainNode where
  mempool : CTxMemPool
  pcoinsTip : CoinsView
  active : List ConnectedBlock

/-- How `ConnectTip` or `DisconnectTip` can stop short. -/
inductive TipStop where
  | block (stop : Stop)
  | pool (stop : PoolStop)

/-- A call on the memory pool. -/
def onPool {α : Type} : Except PoolStop α → Except TipStop α
  | .ok a => .ok a
  | .error stop => .error (.pool stop)

namespace ChainNode

section

variable (P : CChainParams) (C : Crypto) (s : ChainNode)

/-- `chainActive.Height()`. -/
def height : Nat :=
  s.active.length

def accept (policy : RelayPolicy) (tx : CTransaction) : AcceptOutcome :=
  acceptToMemoryPool (relayAt P C policy s.height s.pcoinsTip (s.height + 1)) s.mempool tx

/-- What `ConnectBlock` reads of the index entry of a block on the tip. -/
def contextOf (ctx : ConnectContext) (block : CBlock) : ConnectContext :=
  { ctx with nHeight := s.height + 1, hashBlock := block.getHash C, phashBlock := true }

/-- `ConnectTip`, with the transactions that went from the pool to conflicted. -/
def connectTip (ctx : ConnectContext) (block : CBlock) :
    Except TipStop (ChainNode × List CTransaction) := do
  onPool (s.mempool.check C s.pcoinsTip (s.height + 1))
  match connectBlock P C (s.contextOf C ctx block) block s.pcoinsTip.flush false with
  | .error stop => .error (.block stop)
  | .ok r => do
    let pcoinsTip := r.view.flush
    let (mempool, txConflicted) ← onPool (s.mempool.removeForBlock C block.vtx [])
    onPool (mempool.check C pcoinsTip (s.height + 2))
    let tip := { block := block, ctx := s.contextOf C ctx block, blockundo := r.blockundo, below := s.pcoinsTip }
    pure ({ mempool := mempool, pcoinsTip := pcoinsTip, active := tip :: s.active }, txConflicted)

end

/-- The transactions of a disconnected block go back to the pool, and what depends on one that does not is removed.
The second list is of those that were accepted. -/
def resurrect (R : Relay) :
    List CTransaction → CTxMemPool → List CTransaction → Except PoolStop (CTxMemPool × List CTransaction)
  | [], pool, accepted => .ok (pool, accepted)
  | tx :: vtx, pool, accepted =>
    match if tx.isCoinBase || tx.isCoinStake then .missingInputs else acceptToMemoryPool R pool tx with
    | .accepted pool => resurrect R vtx pool (accepted ++ [tx])
    | _ => do
      let result ← pool.remove R.C tx true []
      resurrect R vtx result.1 accepted

section

variable (P : CChainParams) (C : Crypto) (policy : RelayPolicy) (s : ChainNode)

/-- The part of `DisconnectTip` that changes the pool, on the coins below the block. -/
def disconnectPool (pcoinsTip : CoinsView) (vtx : List CTransaction) :
    Except PoolStop (CTxMemPool × List CTransaction) := do
  let (mempool, accepted) ←
    resurrect (relayAt P C policy s.height pcoinsTip s.height) vtx s.mempool []
  let mempool ← mempool.removeCoinbaseSpends C pcoinsTip.accessCoins s.height
  pure (mempool, accepted)

/-- `DisconnectTip`, with the transactions that were accepted into the pool again.  There is no undo data for the
genesis block. -/
def disconnectTip : Except TipStop (ChainNode × List CTransaction) := do
  onPool (s.mempool.check C s.pcoinsTip (s.height + 1))
  match s.active with
  | [] => .error (.block returnError)
  | tip :: rest =>
    match disconnectBlock C tip.ctx tip.block tip.blockundo s.pcoinsTip.flush with
    | .error stop => .error (.block stop)
    | .ok (_, false) => .error (.block returnError)
    | .ok (view, true) => do
      let pcoinsTip := view.flush
      let (mempool, accepted) ← onPool (s.disconnectPool P C policy pcoinsTip tip.block.vtx)
      onPool (mempool.check C pcoinsTip s.height)
      pure ({ mempool := mempool, pcoinsTip := pcoinsTip, active := rest }, accepted)

end

end ChainNode

end Reddcoin
