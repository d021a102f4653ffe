import Reddcoin.Lib.Leases
import Reddcoin.Lib.OrderedSet

/-!
# The key pool

`CWallet::TopUpKeyPool` and its siblings, and `CReserveKey`.  A reservation is remembered by its number; the key is
under that number in the wallet file.
-/

namespace Reddcoin

/-! ## Data -/

/-- `CKeyPool`, over the type of public keys. -/
structure CKeyPool (K : Type) where
  nTime : Int
  vchPubKey : K

/-- `CReserveKey`; an invalid public key is `none`. -/
structure CReserveKey (K : Type) where
  nIndex : Int
  vchPubKey : Option K

def CReserveKey.new {K : Type} : CReserveKey K :=
  { nIndex := -1, vchPubKey := none }

/-- `CKey::MakeNewKey` makes its key at random, none that the wallet has. -/
structure KeySource (K : Type) where
  makeNewKey : List K → K
  fresh : ∀ keys, makeNewKey keys ∉ keys

/-- What the key pool of a wallet reads and writes. -/
structure PoolWallet (K : Type) where
  /-- The keys of the key store. -/
  keys : List K
  locked : Bool
  /-- `GetTime()`. -/
  time : Int
  setKeyPool : List Int
  /-- The "pool" records of the wallet file. -/
  pool : Int → Option (CKeyPool K)
  reserveKeys : Nat → CReserveKey K
  /-- The calls of `GetOldestKeyPoolTime` between reservation and return. -/
  oldestCalls : Nat → Option (Int × CKeyPool K)
  /-- The keys that were kept. -/
  kept : List K

/-- How a call ends. -/
inductive KeyAnswer (K : Type) where
  | returned (result : Bool)
  | key (vchPubKey : K)
  | time (nTime : Int)
  | threw (what : String)
  | aborts
deriving DecidableEq

/-- What `ReserveKeyFromKeyPool` leaves in its arguments; `none` stands for the index -1. -/
inductive KeyReservation (K : Type) where
  | none
  | reserved (nIndex : Int) (keypool : CKeyPool K)
  | threw (nIndex : Int) (what : String)

namespace PoolWallet

variable {K : Type}

def setReserveKey (n : Nat) (reserved : CReserveKey K) (w : PoolWallet K) : PoolWallet K :=
  { w with reserveKeys := Function.update w.reserveKeys n reserved }

def setOldestCall (call : Nat) (held : Option (Int × CKeyPool K)) (w : PoolWallet K) : PoolWallet K :=
  { w with oldestCalls := Function.update w.oldestCalls call held }

def erasePool (nIndex : Int) (w : PoolWallet K) : PoolWallet K :=
  { w with pool := Function.update w.pool nIndex none }

/-- Every index of the pool goes, with its record. -/
def clearPool (w : PoolWallet K) : PoolWallet K :=
  { w.setKeyPool.foldl (fun w nIndex => w.erasePool nIndex) w with setKeyPool := [] }

section

variable (source : KeySource K)

/-- A key is generated and written under the index. -/
def addKey (nIndex : Int) (w : PoolWallet K) : PoolWallet K :=
  { w with keys := source.makeNewKey w.keys :: w.keys,
           pool := Function.update w.pool nIndex (some { nTime := w.time, vchPubKey := source.makeNewKey w.keys }),
           setKeyPool := OrderedSet.insert (· ≤ ·) nIndex w.setKeyPool }

/-- The index of the next key that `TopUpKeyPool` adds. -/
def nEnd (w : PoolWallet K) : Int :=
  match w.setKeyPool.getLast? with
  | none => 1
  | some last => last + 1

/-- The loop of `TopUpKeyPool`.  Each turn adds a key, so the size that is wanted bounds the turns. -/
def topUpLoop (size : Nat) : Nat → PoolWallet K → PoolWallet K
  | 0, w => w
  | turns + 1, w => if w.setKeyPool.length < size then topUpLoop size turns (w.addKey source w.nEnd) else w

/-- `nTargetSize + 1`, in 32 bits.  `nKeys` is what `-keypool` asks for. -/
def poolSize (nKeys : Nat) (kpSize : UInt32) : Nat :=
  ((if 0 < kpSize then kpSize else UInt32.ofNat nKeys) + 1).toNat

variable (nKeys : Nat)

def topUpKeyPool (kpSize : UInt32) (w : PoolWallet K) : Bool × PoolWallet K :=
  if w.locked then (false, w) else (true, w.topUpLoop source (poolSize nKeys kpSize) (poolSize nKeys kpSize))

/-- The old keys are marked as used, and all new keys are generated. -/
def newKeyPool (w : PoolWallet K) : Bool × PoolWallet K :=
  let w := w.clearPool
  if w.locked then (false, w)
  else (true, (List.range nKeys).foldl (fun w (i : Nat) => w.addKey source (i + 1)) w)

variable [DecidableEq K]

def reserveKeyFromKeyPool (w : PoolWallet K) : KeyReservation K × PoolWallet K :=
  let w := if w.locked then w else (w.topUpKeyPool source nKeys 0).2
  match w.setKeyPool with
  | [] => (.none, w)
  | nIndex :: rest =>
    let w := { w with setKeyPool := rest }
    match w.pool nIndex with
    | none => (.threw nIndex "ReserveKeyFromKeyPool() : read failed", w)
    | some keypool =>
      if keypool.vchPubKey ∈ w.keys then (.reserved nIndex keypool, w)
      else (.threw nIndex "ReserveKeyFromKeyPool() : unknown key in key pool", w)

def keepKey (nIndex : Int) (w : PoolWallet K) : PoolWallet K :=
  w.erasePool nIndex

def returnKey (nIndex : Int) (w : PoolWallet K) : PoolWallet K :=
  { w with setKeyPool := OrderedSet.insert (· ≤ ·) nIndex w.setKeyPool }

def getKeyFromPool (w : PoolWallet K) : KeyAnswer K × PoolWallet K :=
  match w.reserveKeyFromKeyPool source nKeys with
  | (.none, w) =>
    if w.locked then (.returned false, w)
    else
      let key := source.makeNewKey w.keys
      (.key key, { w with keys := key :: w.keys, kept := key :: w.kept })
  | (.reserved nIndex keypool, w) =>
    (.key keypool.vchPubKey, { w.keepKey nIndex with kept := keypool.vchPubKey :: w.kept })
  | (.threw _ what, w) => (.threw what, w)

/-- `GetOldestKeyPoolTime` up to the return of the key. -/
def getOldestKeyPoolTime (call : Nat) (w : PoolWallet K) : KeyAnswer K × PoolWallet K :=
  match w.reserveKeyFromKeyPool source nKeys with
  | (.none, w) => (.time w.time, w)
  | (.reserved nIndex keypool, w) => (.returned true, w.setOldestCall call (some (nIndex, keypool)))
  | (.threw _ what, w) => (.threw what, w)

/-- `CReserveKey::GetReservedKey`. -/
def getReservedKey (n : Nat) (w : PoolWallet K) : KeyAnswer K × PoolWallet K :=
  if (w.reserveKeys n).nIndex = -1 then
    match w.reserveKeyFromKeyPool source nKeys with
    | (.none, w) => (.returned false, w)
    | (.reserved nIndex keypool, w) =>
      (.key keypool.vchPubKey, w.setReserveKey n { nIndex := nIndex, vchPubKey := some keypool.vchPubKey })
    | (.threw nIndex what, w) =>
      (.threw what, w.setReserveKey n { nIndex := nIndex, vchPubKey := (w.reserveKeys n).vchPubKey })
  else
    match (w.reserveKeys n).vchPubKey with
    | some vchPubKey => (.key vchPubKey, w)
    | none => (.aborts, w)

end

/-- `GetOldestKeyPoolTime` from the return of the key. -/
def endOldestCall (call : Nat) (w : PoolWallet K) : KeyAnswer K × PoolWallet K :=
  match w.oldestCalls call with
  | none => (.returned false, w)
  | some (nIndex, keypool) => (.time keypool.nTime, (w.returnKey nIndex).setOldestCall call none)

/-- `CReserveKey::KeepKey`. -/
def keepReserved (n : Nat) (w : PoolWallet K) : PoolWallet K :=
  let reserved := w.reserveKeys n
  if reserved.nIndex = -1 then w.setReserveKey n .new
  else { (w.keepKey reserved.nIndex).setReserveKey n .new with kept := reserved.vchPubKey.toList ++ w.kept }

/-- `CReserveKey::ReturnKey`, which is also its destructor. -/
def returnReserved (n : Nat) (w : PoolWallet K) : PoolWallet K :=
  let reserved := w.reserveKeys n
  if reserved.nIndex = -1 then w.setReserveKey n .new
  else (w.returnKey reserved.nIndex).setReserveKey n .new

end PoolWallet

/-! ## Runs -/

/-- What happens to the key pool.  Each takes place under `cs_wallet` or is one access to the wallet file. -/
inductive KeyPoolStep where
  | lock (locked : Bool)
  | clock (time : Int)
  | topUpKeyPool (kpSize : UInt32)
  | newKeyPool
  | getReservedKey (n : Nat)
  | keepKey (n : Nat)
  | returnKey (n : Nat)
  | getKeyFromPool
  | getOldestKeyPoolTime (call : Nat)
  | endOldestCall (call : Nat)

namespace PoolWallet

variable {K : Type} [DecidableEq K] (source : KeySource K) (nKeys : Nat)

def step (w : PoolWallet K) : KeyPoolStep → KeyAnswer K × PoolWallet K
  | .lock locked => (.returned true, { w with locked := locked })
  | .clock time => (.returned true, { w with time := time })
  | .topUpKeyPool kpSize => ((w.topUpKeyPool source nKeys kpSize).map .returned id)
  | .newKeyPool => ((w.newKeyPool source nKeys).map .returned id)
  | .getReservedKey n => w.getReservedKey source nKeys n
  | .keepKey n => (.returned true, w.keepReserved n)
  | .returnKey n => (.returned true, w.returnReserved n)
  | .getKeyFromPool => w.getKeyFromPool source nKeys
  | .getOldestKeyPoolTime call =>
    -- A call that is under way does not begin again.
    if (w.oldestCalls call).isSome then (.returned false, w) else w.getOldestKeyPoolTime source nKeys call
  | .endOldestCall call => w.endOldestCall call

/-- The indices for which the loop of `TopUpKeyPool` generates keys. -/
def topUpIndices (size : Nat) (w : PoolWallet K) : List Int :=
  if w.locked then [] else (List.range (size - w.setKeyPool.length)).map fun (i : Nat) => w.nEnd + i

/-- The indices for which keys are generated in a step. -/
def newIndices (w : PoolWallet K) : KeyPoolStep → List Int
  | .topUpKeyPool kpSize => w.topUpIndices (poolSize nKeys kpSize)
  | .newKeyPool => if w.locked then [] else (List.range nKeys).map fun (i : Nat) => (i : Int) + 1
  | .getReservedKey n => if (w.reserveKeys n).nIndex = -1 then w.topUpIndices (poolSize nKeys 0) else []
  | .getKeyFromPool => w.topUpIndices (poolSize nKeys 0)
  | .getOldestKeyPoolTime call => if (w.oldestCalls call).isSome then [] else w.topUpIndices (poolSize nKeys 0)
  | _ => []

/-- The index is remembered by a holder, or by a call of `GetOldestKeyPoolTime`. -/
def Remembered (w : PoolWallet K) (i : Int) : Prop :=
  (∃ n, (w.reserveKeys n).nIndex = i) ∨ ∃ call keypool, w.oldestCalls call = some (i, keypool)

/-- No key is generated for an index that somebody remembers. -/
def Vacates (w : PoolWallet K) (a : KeyPoolStep) : Prop :=
  ∀ i ∈ w.newIndices nKeys a, ¬ w.Remembered i

/-- A wallet after `LoadWallet`: each record of the file is in the pool, nothing is reserved. -/
structure Loaded (w : PoolWallet K) : Prop where
  ordered : OrderedSet.Ordered (· ≤ ·) w.setKeyPool
  records : ∀ i, i ∈ w.setKeyPool ↔ (w.pool i).isSome
  positive : ∀ i ∈ w.setKeyPool, 1 ≤ i
  own : ∀ i keypool, w.pool i = some keypool → keypool.vchPubKey ∈ w.keys
  apart : ∀ i j keypool keypool', w.pool i = some keypool → w.pool j = some keypool' →
    keypool.vchPubKey = keypool'.vchPubKey → i = j
  idle : (∀ n, w.reserveKeys n = .new) ∧ (∀ call, w.oldestCalls call = none) ∧ w.kept = []

/-- The states that are reached by steps for which the condition holds. -/
inductive Reached (start : PoolWallet K) : PoolWallet K → Prop where
  | start : Reached start start
  | step {w : PoolWallet K} (a : KeyPoolStep) (before : Reached start w) (vacates : w.Vacates nKeys a) :
      Reached start (w.step source nKeys a).2

/-- What is asked of a step. -/
structure SafeStep (w : PoolWallet K) (a : KeyPoolStep) : Prop where
  /-- Every index of the pool has a record. -/
  stored : ∀ i ∈ w.setKeyPool, ∃ keypool, w.pool i = some keypool
  returns : (∀ what, (w.step source nKeys a).1 ≠ .threw what) ∧ (w.step source nKeys a).1 ≠ .aborts
  /-- No key is handed out after it was kept. -/
  fresh : ∀ vchPubKey, (w.step source nKeys a).1 = .key vchPubKey → vchPubKey ∉ w.kept
  /-- The records of the pool are not erased; only `NewKeyPool` replaces them. -/
  unerased : a ≠ .newKeyPool → ∀ i ∈ w.setKeyPool, i ∈ (w.step source nKeys a).2.setKeyPool →
    (w.step source nKeys a).2.pool i = w.pool i

end PoolWallet

end Reddcoin
