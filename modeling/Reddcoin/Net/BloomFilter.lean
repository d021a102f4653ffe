import Reddcoin.Script.Solver

/-!
# Bloom filters

`CBloomFilter` of `bloom.h` and `bloom.cpp`, and the handlers of `filterload` and `filteradd`.  A peer sends a filter of
the keys it looks for, and the node relays to it the transactions that match.
-/

namespace Reddcoin

open Stream

/-! ## MurmurHash3 -/

/-- `ROTL32`. -/
def rotl32 (x r : UInt32) : UInt32 :=
  (x <<< r) ||| (x >>> (32 - r))

/-- What a block of four bytes is mixed to. -/
def murmurMix (k1 : UInt32) : UInt32 :=
  rotl32 (k1 * 0xcc9e2d51) 15 * 0x1b873593

/-- The body of `MurmurHash3`, which leaves the tail. -/
def murmurBody : List UInt8 → UInt32 → UInt32 × List UInt8
  | b0 :: b1 :: b2 :: b3 :: rest, h1 =>
    let k1 := b0.toUInt32 ||| (b1.toUInt32 <<< 8) ||| (b2.toUInt32 <<< 16) ||| (b3.toUInt32 <<< 24)
    murmurBody rest (rotl32 (h1 ^^^ murmurMix k1) 13 * 5 + 0xe6546b64)
  | tail, h1 => (h1, tail)

/-- `MurmurHash3`. -/
def murmurHash3 (nHashSeed : UInt32) (vDataToHash : List UInt8) : UInt32 :=
  let (h1, tail) := murmurBody vDataToHash nHashSeed
  let k1 := match tail with
    | b0 :: b1 :: b2 :: _ => (b2.toUInt32 <<< 16) ^^^ (b1.toUInt32 <<< 8) ^^^ b0.toUInt32
    | [b0, b1] => (b1.toUInt32 <<< 8) ^^^ b0.toUInt32
    | [b0] => b0.toUInt32
    | [] => 0
  let h1 := if tail.isEmpty then h1 else h1 ^^^ murmurMix k1
  let h1 := h1 ^^^ UInt32.ofNat vDataToHash.length
  let h1 := (h1 ^^^ (h1 >>> 16)) * 0x85ebca6b
  let h1 := (h1 ^^^ (h1 >>> 13)) * 0xc2b2ae35
  h1 ^^^ (h1 >>> 16)

/-! ## The filter -/

def MAX_BLOOM_FILTER_SIZE : Nat := 36000
def MAX_HASH_FUNCS : Nat := 50

def BLOOM_UPDATE_ALL : UInt8 := 1
def BLOOM_UPDATE_P2PUBKEY_ONLY : UInt8 := 2
def BLOOM_UPDATE_MASK : UInt8 := 3

structure CBloomFilter where
  vData : List UInt8
  isFull : Bool
  isEmpty : Bool
  nHashFuncs : UInt32
  nTweak : UInt32
  nFlags : UInt8
deriving DecidableEq

/-- What stops a message from being handled. -/
inductive FilterStop where
  /-- A modulo by zero is executed. -/
  | dividesByZero
  /-- Something is thrown. -/
  | throws
deriving DecidableEq

/-- `1 << (7 & nIndex)`. -/
def bitMask (nIndex : Nat) : UInt8 :=
  1 <<< UInt8.ofNat (nIndex % 8)

/-- The bit is set. -/
def bitOf (vData : List UInt8) (nIndex : Nat) : Bool :=
  (vData.getD (nIndex / 8) 0 &&& bitMask nIndex) ≠ 0

def setBitOf (vData : List UInt8) (nIndex : Nat) : List UInt8 :=
  vData.modify (nIndex / 8) fun b => b ||| bitMask nIndex

namespace CBloomFilter

def hash (f : CBloomFilter) (nHashNum : Nat) (vDataToHash : List UInt8) : Except FilterStop Nat :=
  if f.vData.length * 8 = 0 then .error .dividesByZero
  else .ok ((murmurHash3 (UInt32.ofNat nHashNum * 0xFBA4C795 + f.nTweak) vDataToHash).toNat % (f.vData.length * 8))

def insertLoop (vKey : List UInt8) (nHashNums : List Nat) (f : CBloomFilter) : Except FilterStop CBloomFilter :=
  nHashNums.foldlM (fun f i => do
    let nIndex ← f.hash i vKey
    pure { f with vData := setBitOf f.vData nIndex }) f

def insert (f : CBloomFilter) (vKey : List UInt8) : Except FilterStop CBloomFilter :=
  if f.isFull then pure f
  else do
    let f ← f.insertLoop vKey (List.range f.nHashFuncs.toNat)
    pure { f with isEmpty := false }

def containsLoop (f : CBloomFilter) (vKey : List UInt8) : List Nat → Except FilterStop Bool
  | [] => pure true
  | i :: rest => do
    let nIndex ← f.hash i vKey
    if bitOf f.vData nIndex then f.containsLoop vKey rest else pure false

def contains (f : CBloomFilter) (vKey : List UInt8) : Except FilterStop Bool :=
  if f.isFull then pure true
  else if f.isEmpty then pure false
  else f.containsLoop vKey (List.range f.nHashFuncs.toNat)

def isWithinSizeConstraints (f : CBloomFilter) : Bool :=
  decide (f.vData.length ≤ MAX_BLOOM_FILTER_SIZE) && decide (f.nHashFuncs.toNat ≤ MAX_HASH_FUNCS)

def updateEmptyFull (f : CBloomFilter) : CBloomFilter :=
  { f with isFull := f.vData.all fun b => decide (b = 0xff), isEmpty := f.vData.all fun b => decide (b = 0) }

/-! ## Matching -/

/-- A data element of the script matches. -/
def matchesPush (f : CBloomFilter) : Nat → CScript → Except FilterStop Bool
  | 0, _ => pure false
  | turns + 1, pc =>
    if pc.isEmpty then pure false
    else
      match getOp2 pc with
      | none => pure false
      | some op =>
        if op.vch.isEmpty then f.matchesPush turns op.pc
        else do
          if ← f.contains op.vch then pure true else f.matchesPush turns op.pc

section

variable (options : SolverOptions) (hash : Uint256)

/-- An output has matched: its spending transactions are to match too. -/
def addOutput (f : CBloomFilter) (i : Nat) (txout : CTxOut) : Except FilterStop CBloomFilter :=
  if f.nFlags &&& BLOOM_UPDATE_MASK = BLOOM_UPDATE_ALL then f.insert (COutPoint.serialize { hash := hash, n := i })
  else if f.nFlags &&& BLOOM_UPDATE_MASK = BLOOM_UPDATE_P2PUBKEY_ONLY then
    let solved := solver options txout.scriptPubKey
    if solved.found && (decide (solved.typeRet = .pubkey) || decide (solved.typeRet = .multisig)) then
      f.insert (COutPoint.serialize { hash := hash, n := i })
    else pure f
  else pure f

/-- The loop over the outputs: those that match, and the filter. -/
def outputsLoop : Nat → List CTxOut → CBloomFilter → Except FilterStop (List Nat × CBloomFilter)
  | _, [], f => pure ([], f)
  | i, txout :: rest, f => do
    if ← f.matchesPush txout.scriptPubKey.length txout.scriptPubKey then
      let f ← f.addOutput options hash i txout
      let (matched, f) ← outputsLoop (i + 1) rest f
      pure (i :: matched, f)
    else outputsLoop (i + 1) rest f

end

/-- The loop over the inputs. -/
def inputsLoop (f : CBloomFilter) : List CTxIn → Except FilterStop Bool
  | [] => pure false
  | txin :: rest => do
    if ← f.contains txin.prevout.serialize then pure true
    else if ← f.matchesPush txin.scriptSig.length txin.scriptSig then pure true
    else f.inputsLoop rest

end CBloomFilter

/-- What `IsRelevantAndUpdate` returns, the outputs that matched, and the filter it leaves. -/
structure Relevance where
  relevant : Bool
  matched : List Nat
  filter : CBloomFilter

namespace CBloomFilter

variable (C : Crypto) (options : SolverOptions)

def isRelevantAndUpdate (f : CBloomFilter) (tx : CTransaction) : Except FilterStop Relevance :=
  if f.isFull then pure { relevant := true, matched := [], filter := f }
  else if f.isEmpty then pure { relevant := false, matched := [], filter := f }
  else do
    let fFound ← f.contains (writeData 32 (C.txHash tx))
    let (matched, f) ← f.outputsLoop options (C.txHash tx) 0 tx.vout
    if fFound || !matched.isEmpty then pure { relevant := true, matched := matched, filter := f }
    else do
      let relevant ← f.inputsLoop tx.vin
      pure { relevant := relevant, matched := matched, filter := f }

/-! ## Messages -/

def serialize (f : CBloomFilter) : List UInt8 :=
  writeBytes f.vData ++ (writeData 4 f.nHashFuncs.toNat ++ (writeData 4 f.nTweak.toNat ++ writeData 1 f.nFlags.toNat))

/-- A filter is read over one of the default constructor. -/
def unserialize : Reader UInt8 CBloomFilter := do
  let vData ← readBytes
  let nHashFuncs ← readData 4
  let nTweak ← readData 4
  let nFlags ← readData 1
  pure { vData := vData, isFull := true, isEmpty := false, nHashFuncs := UInt32.ofNat nHashFuncs,
         nTweak := UInt32.ofNat nTweak, nFlags := UInt8.ofNat nFlags }

/-- The handler of `filterload`: the new filter, or none for a peer that misbehaves. -/
def filterload (vRecv : List UInt8) : Except FilterStop (Option CBloomFilter) :=
  match unserialize.run vRecv with
  | none => .error .throws
  | some (filter, _) => .ok (if filter.isWithinSizeConstraints then some filter.updateEmptyFull else none)

/-- The handler of `filteradd`, for a peer with a filter.  A peer that sends a larger element misbehaves. -/
def filteradd (f : CBloomFilter) (vData : List UInt8) : Except FilterStop CBloomFilter :=
  if MAX_SCRIPT_ELEMENT_SIZE < vData.length then pure f else f.insert vData

/-- The filter of a client, before it inserts. -/
def client (size : Nat) (nHashFuncs nTweak : UInt32) (nFlags : UInt8) : CBloomFilter :=
  { vData := List.replicate size 0, isFull := false, isEmpty := false, nHashFuncs := nHashFuncs, nTweak := nTweak,
    nFlags := nFlags }

def insertAll (f : CBloomFilter) (keys : List (List UInt8)) : Except FilterStop CBloomFilter :=
  keys.foldlM insert f

end CBloomFilter

/-- What happens to a filter that is loaded. -/
inductive FilterStep where
  | filteradd (vData : List UInt8)
  | relevant (tx : CTransaction)

/-- The elements that are added. -/
def FilterStep.added : FilterStep → List (List UInt8)
  | .filteradd vData => if MAX_SCRIPT_ELEMENT_SIZE < vData.length then [] else [vData]
  | .relevant _ => []

namespace CBloomFilter

variable (C : Crypto) (options : SolverOptions)

def step (f : CBloomFilter) : FilterStep → Except FilterStop CBloomFilter
  | .filteradd vData => f.filteradd vData
  | .relevant tx => do
    let r ← f.isRelevantAndUpdate C options tx
    pure r.filter

def run (f : CBloomFilter) (steps : List FilterStep) : Except FilterStop CBloomFilter :=
  steps.foldlM (step C options) f

end CBloomFilter

end Reddcoin
