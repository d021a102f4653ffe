import Reddcoin.Mempool.Invariant
import Reddcoin.Validation.CheckBlock

/-!
# Orphan transactions

The handling of a "tx" message in `main.cpp`: a transaction is taken into the memory pool, or kept as an orphan
while inputs of it are missing.  When a transaction is accepted, the orphans that spend its outputs are tried
again.
-/

namespace Reddcoin

def DEFAULT_MAX_ORPHAN_TRANSACTIONS : Nat := 100

/-! ## The memory pool -/

/-- `exists`. -/
def CTxMemPool.has (pool : CTxMemPool) (hash : Uint256) : Bool :=
  (pool.mapTx.lookup hash).isSome

/-- What `AcceptToMemoryPool` reads beside the pool. -/
structure Relay where
  P : CChainParams
  C : Crypto
  nTipHeight : Nat
  /-- `IsStandardTx`, where it is required: the reason against the transaction. -/
  nonStandard : CTransaction → Option String
  /-- `pcoinsTip` has coins of the transaction that are not pruned. -/
  haveCoins : Uint256 → Bool
  /-- The checks once all inputs are found: their outputs, standard inputs, signature operations, fees, and
  `CheckInputs`. -/
  checkInView : CTxMemPool → CTransaction → Check Unit
  /-- The random hashes that `LimitOrphanTxSize` draws. -/
  getRandHash : Nat → Uint256

inductive AcceptOutcome where
  | accepted (pool : CTxMemPool)
  | missingInputs
  | rejected (stop : Stop)

section

variable (R : Relay)

/-- The checks of `AcceptToMemoryPool` that look at the transaction alone. -/
def checkLooseTx (tx : CTransaction) : Check Unit := do
  checkTransaction tx
  require (!tx.isCoinBase) (rejectDoS 100 REJECT_INVALID "coinbase" false)
  require (!tx.isCoinStake) (rejectDoS 100 0 "" false)
  require (!(decide (R.P.lastProofOfWorkHeight ≤ R.nTipHeight) && decide (tx.nVersion ≤ POW_TX_VERSION)))
    (rejectDoS 100 0 "" false)
  match R.nonStandard tx with
  | some reason => .error (rejectDoS 0 REJECT_NONSTANDARD reason false)
  | none => pure ()

/-- `HaveCoins` in the view of the pool over the chain.  A transaction of the pool has coins while one of its
outputs can be spent. -/
def haveCoinsInView (pool : CTxMemPool) (hash : Uint256) : Bool :=
  match pool.mapTx.lookup hash with
  | some entry => !(CCoins.fromTx entry.tx 0x7FFFFFFF).vout.isEmpty
  | none => R.haveCoins hash

def acceptToMemoryPool (pool : CTxMemPool) (tx : CTransaction) : AcceptOutcome :=
  let hash := R.C.txHash tx
  match checkLooseTx R tx with
  | .error stop => .rejected stop
  | .ok () =>
    if pool.has hash then .rejected returnError
    else if tx.vin.any fun txin => (pool.mapNextTx.lookup txin.prevout).isSome then .rejected returnError
    else if haveCoinsInView R pool hash then .rejected returnError
    else if tx.vin.any fun txin => !haveCoinsInView R pool txin.prevout.hash then .missingInputs
    else
      match R.checkInView pool tx with
      | .error stop => .rejected stop
      | .ok () => .accepted (pool.addUnchecked hash (.ofTx tx))

end

/-! ## Orphans -/

structure COrphanTx where
  tx : CTransaction
  fromPeer : Nat

/-- The globals that a "tx" message changes. -/
structure TxNode where
  mempool : CTxMemPool
  mapOrphanTransactions : AList fun _ : Uint256 => COrphanTx
  /-- The orphans by the hashes of the transactions they spend, in order.  A key without orphans is erased. -/
  mapOrphanTransactionsByPrev : Uint256 → List Uint256
  /-- The calls of `Misbehaving`. -/
  misbehaving : List (Nat × Nat)
  /-- The number of random hashes that have been drawn. -/
  nRand : Nat

/-- `insert` of a `std::set`. -/
def insertHash (hash : Uint256) (hashes : List Uint256) : List Uint256 :=
  if hash ∈ hashes then hashes else hashes.orderedInsert (· ≤ ·) hash

namespace TxNode

variable (C : Crypto)

def addOrphanTx (s : TxNode) (tx : CTransaction) (peer : Nat) : TxNode :=
  let hash := C.txHash tx
  if (s.mapOrphanTransactions.lookup hash).isSome then s
  else if 5000 < tx.serializeSize then s
  else
    { s with
      mapOrphanTransactions := s.mapOrphanTransactions.insert hash { tx := tx, fromPeer := peer }
      mapOrphanTransactionsByPrev := tx.vin.foldl (fun byPrev txin =>
        Function.update byPrev txin.prevout.hash (insertHash hash (byPrev txin.prevout.hash)))
        s.mapOrphanTransactionsByPrev }

def eraseOrphanTx (s : TxNode) (hash : Uint256) : TxNode :=
  match s.mapOrphanTransactions.lookup hash with
  | none => s
  | some orphan =>
    { s with
      mapOrphanTransactions := s.mapOrphanTransactions.erase hash
      mapOrphanTransactionsByPrev := orphan.tx.vin.foldl (fun byPrev txin =>
        Function.update byPrev txin.prevout.hash ((byPrev txin.prevout.hash).filter fun h => decide (h ≠ hash)))
        s.mapOrphanTransactionsByPrev }

def eraseOrphansFor (s : TxNode) (peer : Nat) : TxNode :=
  s.mapOrphanTransactions.entries.foldl
    (fun s e => if e.2.fromPeer = peer then s.eraseOrphanTx (C.txHash e.2.tx) else s) s

/-- The orphan that `LimitOrphanTxSize` evicts: the first one from a random hash on, or the first of all. -/
def orphanFrom (s : TxNode) (randomhash : Uint256) : Uint256 :=
  let hashes := s.mapOrphanTransactions.keys.insertionSort (· ≤ ·)
  ((hashes.find? fun hash => decide (randomhash ≤ hash)).orElse fun _ => hashes.head?).getD 0

def limitOrphanTxSize (R : Relay) (nMaxOrphans : Nat) : Nat → TxNode → TxNode
  | 0, s => s
  | turns + 1, s =>
    if nMaxOrphans < s.mapOrphanTransactions.keys.length then
      let s := s.eraseOrphanTx (s.orphanFrom (R.getRandHash s.nRand))
      limitOrphanTxSize R nMaxOrphans turns { s with nRand := s.nRand + 1 }
    else s

end TxNode

/-! ## The message -/

/-- The variables of the loop over the orphans. -/
structure Resolving where
  mempool : CTxMemPool
  /-- The hashes in `vWorkQueue` that have not been looked at. -/
  vWorkQueue : List Uint256
  vEraseQueue : List Uint256
  setMisbehaving : List Nat
  misbehaving : List (Nat × Nat)

/-- The level of a rejection that `IsInvalid` reports. -/
def Stop.level : Stop → Nat
  | .returns state => if state.isInvalid then state.nDoS else 0
  | .crashes => 0

section

variable (R : Relay) (orphans : AList fun _ : Uint256 => COrphanTx)

/-- One orphan of the inner loop.  The orphan is put into the erase queue before it is tried. -/
def tryOrphan (st : Resolving) (orphanHash : Uint256) : Resolving :=
  match orphans.lookup orphanHash with
  -- The two maps agree, so the orphan is there.
  | none => st
  | some orphan =>
    let st := { st with vEraseQueue := st.vEraseQueue ++ [orphanHash] }
    if orphan.fromPeer ∈ st.setMisbehaving then st
    else
      match acceptToMemoryPool R st.mempool orphan.tx with
      | .accepted pool => { st with mempool := pool, vWorkQueue := st.vWorkQueue ++ [orphanHash] }
      | .missingInputs => st
      | .rejected stop =>
        if 0 < stop.level then
          { st with
            setMisbehaving := orphan.fromPeer :: st.setMisbehaving
            misbehaving := (orphan.fromPeer, stop.level) :: st.misbehaving }
        else st

/-- The loop over the work queue.  Each turn takes one hash, and each orphan is accepted at most once. -/
def resolveOrphans (byPrev : Uint256 → List Uint256) : Nat → Resolving → Resolving
  | 0, st => st
  | turns + 1, st =>
    match st.vWorkQueue with
    | [] => st
    | hash :: queue =>
      resolveOrphans byPrev turns
        ((byPrev hash).foldl (tryOrphan R orphans) { st with vWorkQueue := queue })

end

/-- The message "tx" with a transaction from a peer. -/
def processTx (R : Relay) (s : TxNode) (tx : CTransaction) (pfrom : Nat) : TxNode :=
  let hash := R.C.txHash tx
  match acceptToMemoryPool R s.mempool tx with
  | .accepted pool =>
    let st := resolveOrphans R s.mapOrphanTransactions s.mapOrphanTransactionsByPrev
      (s.mapOrphanTransactions.keys.length + 1)
      { mempool := pool, vWorkQueue := [hash], vEraseQueue := [hash], setMisbehaving := [],
        misbehaving := s.misbehaving }
    let s := { s with mempool := st.mempool, misbehaving := st.misbehaving }
    st.vEraseQueue.foldl TxNode.eraseOrphanTx s
  | .missingInputs =>
    let s := s.addOrphanTx R.C tx pfrom
    s.limitOrphanTxSize R DEFAULT_MAX_ORPHAN_TRANSACTIONS s.mapOrphanTransactions.keys.length
  | .rejected stop =>
    if 0 < stop.level then { s with misbehaving := (pfrom, stop.level) :: s.misbehaving } else s

/-- Messages with transactions, each from a peer. -/
def processTxs (R : Relay) (s : TxNode) (messages : List (CTransaction × Nat)) : TxNode :=
  messages.foldl (fun s m => processTx R s m.1 m.2) s

/-- A node without orphans. -/
def TxNode.fresh (pool : CTxMemPool) : TxNode where
  mempool := pool
  mapOrphanTransactions := ∅
  mapOrphanTransactionsByPrev := fun _ => []
  misbehaving := []
  nRand := 0

end Reddcoin
