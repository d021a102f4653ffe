import Mathlib.Data.List.Sort
import Mathlib.Data.List.AList
import Reddcoin.Coins.Coins
import Reddcoin.Validation.Params

/-!
# The memory pool

`CTxMemPool` of `txmempool.cpp`, with the operations that change its transactions.  A `CInPoint` holds
the key of the entry its pointer leads to, so following a pointer to an erased entry shows as a stop.
-/

namespace Reddcoin

structure CTxMemPoolEntry where
  tx : CTransaction
  nTxSize : Nat
deriving DecidableEq

/-- The entry that the constructor makes of a transaction. -/
def CTxMemPoolEntry.ofTx (tx : CTransaction) : CTxMemPoolEntry :=
  { tx := tx, nTxSize := tx.serializeSize }

structure CInPoint where
  ptx : Uint256
  n : Nat
deriving DecidableEq

structure CTxMemPool where
  fSanityCheck : Bool
  nTransactionsUpdated : Nat
  totalTxSize : Nat
  mapTx : AList fun _ : Uint256 => CTxMemPoolEntry
  mapNextTx : AList fun _ : COutPoint => CInPoint

/-- How an operation of the pool can stop short. -/
inductive PoolStop where
  | assertion
  | danglingPointer
  | outOfTurns
deriving DecidableEq

namespace CTxMemPool

/-- `++nTransactionsUpdated`. -/
def touch (pool : CTxMemPool) : CTxMemPool :=
  { pool with nTransactionsUpdated := (pool.nTransactionsUpdated + 1) % 2 ^ 32 }

/-- The constructor. -/
def new (fSanityCheck : Bool) : CTxMemPool where
  fSanityCheck := fSanityCheck
  nTransactionsUpdated := 0
  totalTxSize := 0
  mapTx := ∅
  mapNextTx := ∅

/-! ## Adding -/

/-- Enters the inputs from the `i`th on. -/
def addInputs (hash : Uint256) :
    Nat → List CTxIn → (AList fun _ : COutPoint => CInPoint) → AList fun _ : COutPoint => CInPoint
  | _, [], mapNextTx => mapNextTx
  | i, txin :: vin, mapNextTx =>
    addInputs hash (i + 1) vin (mapNextTx.insert txin.prevout { ptx := hash, n := i })

def addUnchecked (hash : Uint256) (entry : CTxMemPoolEntry) (pool : CTxMemPool) : CTxMemPool :=
  { pool.touch with
    mapTx := pool.mapTx.insert hash entry
    mapNextTx := addInputs hash 0 entry.tx.vin pool.mapNextTx
    totalTxSize := pool.totalTxSize + entry.nTxSize }

/-! ## Removing -/

variable (C : Crypto)

/-- The hash of the transaction that an input point leads to. -/
def followHash (pool : CTxMemPool) (p : CInPoint) : Except PoolStop Uint256 :=
  match pool.mapTx.lookup p.ptx with
  | none => .error .danglingPointer
  | some entry => .ok (C.txHash entry.tx)

/-- The hashes of the transactions that spend the outputs of `hash` at the given positions. -/
def spendersOf (pool : CTxMemPool) (hash : Uint256) : List Nat → Except PoolStop (List Uint256)
  | [] => .ok []
  | i :: rest =>
    match pool.mapNextTx.lookup { hash := hash, n := i } with
    | none => spendersOf pool hash rest
    | some p => do
      let spender ← pool.followHash C p
      let others ← spendersOf pool hash rest
      pure (spender :: others)

/-- Takes the entry of a transaction out, with its inputs. -/
def eraseTx (hash : Uint256) (entry : CTxMemPoolEntry) (pool : CTxMemPool) : CTxMemPool :=
  { pool.touch with
    mapNextTx := entry.tx.vin.foldl (fun m txin => m.erase txin.prevout) pool.mapNextTx
    totalTxSize := pool.totalTxSize - entry.nTxSize
    mapTx := pool.mapTx.erase hash }

/-- The loop of `remove` over the queue `txToRemove`. -/
def removeLoop (fRecursive : Bool) :
    Nat → List Uint256 → CTxMemPool → List CTransaction → Except PoolStop (CTxMemPool × List CTransaction)
  | _, [], pool, removed => .ok (pool, removed)
  | 0, _ :: _, _, _ => .error .outOfTurns
  | turns + 1, hash :: txToRemove, pool, removed =>
    match pool.mapTx.lookup hash with
    | none => removeLoop fRecursive turns txToRemove pool removed
    | some entry => do
      let children ←
        if fRecursive then pool.spendersOf C hash (List.range entry.tx.vout.length) else pure []
      removeLoop fRecursive turns (txToRemove ++ children) (pool.eraseTx hash entry)
        (removed ++ [entry.tx])

/-- The number of outputs in the pool.  A turn takes one hash off the queue and puts at most one on for
each output of the transaction it takes out of the pool. -/
def outputs (pool : CTxMemPool) : Nat :=
  (pool.mapTx.entries.map fun e => e.2.tx.vout.length).sum

def remove (origTx : CTransaction) (fRecursive : Bool) (pool : CTxMemPool) (removed : List CTransaction) :
    Except PoolStop (CTxMemPool × List CTransaction) := do
  let children ←
    if fRecursive && (pool.mapTx.lookup (C.txHash origTx)).isNone then
      pool.spendersOf C (C.txHash origTx) (List.range origTx.vout.length)
    else pure []
  let txToRemove := C.txHash origTx :: children
  removeLoop C fRecursive (txToRemove.length + pool.outputs) txToRemove pool removed

/-- Whether an input makes `removeCoinbaseSpends` drop its transaction.  The heights are subtracted as
unsigned numbers. -/
def spendsImmature (accessCoins : Uint256 → Option CCoins) (nMemPoolHeight : Nat) (pool : CTxMemPool)
    (txin : CTxIn) : Except PoolStop Bool :=
  if (pool.mapTx.lookup txin.prevout.hash).isSome then .ok false
  else
    match accessCoins txin.prevout.hash with
    | none => if pool.fSanityCheck then .error .assertion else .ok true
    | some coins =>
      .ok ((coins.fCoinBase || coins.fCoinStake) &&
        decide ((((nMemPoolHeight : Int) - coins.nHeight) % 2 ^ 32 : Int) < COINBASE_MATURITY))

/-- The loop over the inputs of one transaction, which is left at the first input that decides. -/
def anyImmature (accessCoins : Uint256 → Option CCoins) (nMemPoolHeight : Nat) (pool : CTxMemPool) :
    List CTxIn → Except PoolStop Bool
  | [] => .ok false
  | txin :: vin => do
    let immature ← spendsImmature accessCoins nMemPoolHeight pool txin
    if immature then pure true else anyImmature accessCoins nMemPoolHeight pool vin

/-- The transactions that `removeCoinbaseSpends` finds. -/
def coinbaseSpends (accessCoins : Uint256 → Option CCoins) (nMemPoolHeight : Nat) (pool : CTxMemPool) :
    List CTxMemPoolEntry → Except PoolStop (List CTransaction)
  | [] => .ok []
  | entry :: rest => do
    let immature ← anyImmature accessCoins nMemPoolHeight pool entry.tx.vin
    let others ← coinbaseSpends accessCoins nMemPoolHeight pool rest
    pure (if immature then entry.tx :: others else others)

/-- `remove`, recursively, of one transaction after the other. -/
def removeAll : List CTransaction → CTxMemPool → Except PoolStop CTxMemPool
  | [], pool => .ok pool
  | tx :: rest, pool => do
    let result ← remove C tx true pool []
    removeAll rest result.1

/-- The entries in the order of a `std::map`. -/
def sortedEntries (pool : CTxMemPool) : List CTxMemPoolEntry :=
  (pool.mapTx.entries.insertionSort fun a b => a.1 ≤ b.1).map Sigma.snd

def removeCoinbaseSpends (accessCoins : Uint256 → Option CCoins) (nMemPoolHeight : Nat) (pool : CTxMemPool) :
    Except PoolStop CTxMemPool := do
  let transactionsToRemove ← coinbaseSpends accessCoins nMemPoolHeight pool pool.sortedEntries
  removeAll C transactionsToRemove pool

/-- The loop of `removeConflicts` over inputs of `tx`. -/
def removeConflictsLoop (tx : CTransaction) :
    List CTxIn → CTxMemPool → List CTransaction → Except PoolStop (CTxMemPool × List CTransaction)
  | [], pool, removed => .ok (pool, removed)
  | txin :: vin, pool, removed =>
    match pool.mapNextTx.lookup txin.prevout with
    | none => removeConflictsLoop tx vin pool removed
    | some p =>
      match pool.mapTx.lookup p.ptx with
      | none => .error .danglingPointer
      | some entry =>
        if C.txHash entry.tx ≠ C.txHash tx then do
          let result ← remove C entry.tx true pool removed
          removeConflictsLoop tx vin result.1 result.2
        else removeConflictsLoop tx vin pool removed

def removeConflicts (tx : CTransaction) (pool : CTxMemPool) (removed : List CTransaction) :
    Except PoolStop (CTxMemPool × List CTransaction) :=
  removeConflictsLoop C tx tx.vin pool removed

/-- `removeForBlock`, without the fee estimator and the priorities. -/
def removeForBlock : List CTransaction → CTxMemPool → List CTransaction →
    Except PoolStop (CTxMemPool × List CTransaction)
  | [], pool, conflicts => .ok (pool, conflicts)
  | tx :: vtx, pool, conflicts => do
    let confirmed ← remove C tx false pool []
    let result ← removeConflicts C tx confirmed.1 conflicts
    removeForBlock vtx result.1 result.2

def clear (pool : CTxMemPool) : CTxMemPool :=
  { pool.touch with mapTx := ∅, mapNextTx := ∅, totalTxSize := 0 }

/-! ## Runs -/

/-- The operations on a pool, with their arguments.  The lists of removed transactions that the caller
passes in are only added to. -/
inductive Op where
  | addUnchecked (hash : Uint256) (entry : CTxMemPoolEntry)
  | remove (origTx : CTransaction) (fRecursive : Bool)
  | removeConflicts (tx : CTransaction)
  | removeForBlock (vtx : List CTransaction)
  | removeCoinbaseSpends (accessCoins : Uint256 → Option CCoins) (nMemPoolHeight : Nat)
  | clear

def Op.run (pool : CTxMemPool) : Op → Except PoolStop CTxMemPool
  | addUnchecked hash entry => .ok (pool.addUnchecked hash entry)
  | remove origTx fRecursive => (pool.remove C origTx fRecursive []).map Prod.fst
  | removeConflicts tx => (pool.removeConflicts C tx []).map Prod.fst
  | removeForBlock vtx => (pool.removeForBlock C vtx []).map Prod.fst
  | removeCoinbaseSpends accessCoins nMemPoolHeight => pool.removeCoinbaseSpends C accessCoins nMemPoolHeight
  | clear => .ok pool.clear

end CTxMemPool

end Reddcoin
