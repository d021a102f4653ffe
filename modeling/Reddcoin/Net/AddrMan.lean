import Mathlib.Data.List.AList
import Mathlib.Data.List.Sort
import Reddcoin.Net.Address
import Reddcoin.Serialize.Primitive

/-!
# The address manager

`CAddrMan` of `addrman.h` and `addrman.cpp`.  An address has an id, and is either in one of the tried buckets or in
some of the new buckets.  A failed assertion, or an access to an entry that is not there, stops the node and is
`none`.
-/

namespace Reddcoin

open Function (update)

def ADDRMAN_TRIED_BUCKET_COUNT : Nat := 64
def ADDRMAN_TRIED_BUCKET_SIZE : Nat := 64
def ADDRMAN_NEW_BUCKET_COUNT : Nat := 256
def ADDRMAN_NEW_BUCKET_SIZE : Nat := 64
def ADDRMAN_TRIED_BUCKETS_PER_GROUP : Nat := 4
def ADDRMAN_NEW_BUCKETS_PER_SOURCE_GROUP : Nat := 32
def ADDRMAN_NEW_BUCKETS_PER_ADDRESS : Nat := 4
def ADDRMAN_TRIED_ENTRIES_INSPECT_ON_EVICT : Nat := 4
def ADDRMAN_HORIZON_DAYS : Int := 30
def ADDRMAN_RETRIES : Int := 3
def ADDRMAN_MAX_FAILURES : Int := 10
def ADDRMAN_MIN_FAIL_DAYS : Int := 7
def ADDRMAN_GETADDR_MAX_PCT : Nat := 23
def ADDRMAN_GETADDR_MAX : Nat := 2500

abbrev TriedBucket := Fin ADDRMAN_TRIED_BUCKET_COUNT
abbrev NewBucket := Fin ADDRMAN_NEW_BUCKET_COUNT

instance : NeZero ADDRMAN_TRIED_BUCKET_COUNT := ⟨by decide⟩
instance : NeZero ADDRMAN_NEW_BUCKET_COUNT := ⟨by decide⟩

/-- What the address manager reads of the outside world.  The arguments of the last two count the reads. -/
structure AddrEnv where
  /-- The low 64 bits of `Hash`. -/
  hash : List UInt8 → Nat
  getRand : Nat → Nat
  getAdjustedTime : Nat → Int

structure CAddrInfo extends CAddress where
  source : CNetAddr
  nLastSuccess : Int64
  nAttempts : Int32
  /-- In memory only, as are the next two. -/
  nRefCount : Int
  fInTried : Bool
  nRandomPos : Int
deriving DecidableEq

namespace CAddrInfo

/-- The constructor, with `Init`. -/
def new (addrIn : CAddress) (addrSource : CNetAddr) : CAddrInfo where
  toCAddress := { addrIn with nLastTry := 0 }
  source := addrSource
  nLastSuccess := 0
  nAttempts := 0
  nRefCount := 0
  fInTried := false
  nRandomPos := -1

/-- `GetTriedBucket`, which reads the service only. -/
def getTriedBucket (E : AddrEnv) (nKey : List UInt8) (service : CService) : TriedBucket :=
  let hash1 := E.hash (writeBytes nKey ++ writeBytes service.getKey)
  let hash2 := E.hash (writeBytes nKey ++ writeBytes service.addr.getGroup ++
    writeData 8 (hash1 % ADDRMAN_TRIED_BUCKETS_PER_GROUP))
  Fin.ofNat _ hash2

def getNewBucket (E : AddrEnv) (nKey : List UInt8) (service : CService) (src : CNetAddr) : NewBucket :=
  let hash1 := E.hash (writeBytes nKey ++ writeBytes service.addr.getGroup ++ writeBytes src.getGroup)
  let hash2 := E.hash (writeBytes nKey ++ writeBytes src.getGroup ++
    writeData 8 (hash1 % ADDRMAN_NEW_BUCKETS_PER_SOURCE_GROUP))
  Fin.ofNat _ hash2

def isTerrible (info : CAddrInfo) (nNow : Int) : Bool :=
  if info.nLastTry ≠ 0 ∧ nNow - 60 ≤ info.nLastTry.toInt then false
  else if nNow + 10 * 60 < info.nTime.toNat then true
  else if info.nTime = 0 ∨ ADDRMAN_HORIZON_DAYS * 24 * 60 * 60 < nNow - info.nTime.toNat then true
  else if info.nLastSuccess = 0 ∧ ADDRMAN_RETRIES ≤ info.nAttempts.toInt then true
  else
    decide (ADDRMAN_MIN_FAIL_DAYS * 24 * 60 * 60 < nNow - info.nLastSuccess.toInt ∧
      ADDRMAN_MAX_FAILURES ≤ info.nAttempts.toInt)

end CAddrInfo

structure CAddrMan where
  nKey : List UInt8
  nIdCount : Nat
  mapInfo : AList fun _ : Nat => CAddrInfo
  mapAddr : AList fun _ : CNetAddr => Nat
  vRandom : List Nat
  nTried : Int
  vvTried : TriedBucket → List Nat
  nNew : Int
  /-- Sets of ids, in increasing order. -/
  vvNew : NewBucket → List Nat
  /-- The number of reads of random numbers and of the clock. -/
  nReads : Nat

namespace CAddrMan

/-- The constructor, which fills the key with random bytes. -/
def new (nKey : List UInt8) : CAddrMan where
  nKey := nKey
  nIdCount := 0
  mapInfo := ∅
  mapAddr := ∅
  vRandom := []
  nTried := 0
  vvTried := fun _ => []
  nNew := 0
  vvNew := fun _ => []
  nReads := 0

variable (E : AddrEnv) (s : CAddrMan)

def read : CAddrMan :=
  { s with nReads := s.nReads + 1 }

def randInt (nMax : Nat) : Nat :=
  if nMax = 0 then 0 else E.getRand s.nReads % nMax

def setInfo (nId : Nat) (info : CAddrInfo) : CAddrMan :=
  { s with mapInfo := s.mapInfo.insert nId info }

/-- `insert` of a `std::set`. -/
def insertId (nId : Nat) (ids : List Nat) : List Nat :=
  if nId ∈ ids then ids else ids.orderedInsert (· ≤ ·) nId

def find (addr : CNetAddr) : Option (Nat × CAddrInfo) :=
  match s.mapAddr.lookup addr with
  | none => none
  | some nId => (s.mapInfo.lookup nId).map fun info => (nId, info)

/-- The new entry, its id and the state with it. -/
def create (addr : CAddress) (addrSource : CNetAddr) : Nat × CAddrInfo × CAddrMan :=
  let nId := s.nIdCount
  let info := { CAddrInfo.new addr addrSource with nRandomPos := s.vRandom.length }
  (nId, info, { s with
      nIdCount := s.nIdCount + 1
      mapInfo := s.mapInfo.insert nId info
      mapAddr := s.mapAddr.insert addr.service.addr nId
      vRandom := s.vRandom ++ [nId] })

def swapRandom (nRndPos1 nRndPos2 : Nat) : Option CAddrMan :=
  if nRndPos1 = nRndPos2 then some s
  else
    match s.vRandom[nRndPos1]?, s.vRandom[nRndPos2]? with
    | some nId1, some nId2 =>
      match s.mapInfo.lookup nId1, s.mapInfo.lookup nId2 with
      | some info1, some info2 =>
        some
          { s with
            mapInfo := (s.mapInfo.insert nId1 { info1 with nRandomPos := nRndPos2 }).insert nId2
              { info2 with nRandomPos := nRndPos1 }
            vRandom := (s.vRandom.set nRndPos1 nId2).set nRndPos2 nId1 }
      | _, _ => none
    | _, _ => none

/-! ## Eviction -/

/-- The loop of `SelectTried` from position `i` on.  The position that is kept is the one from which the entry was
moved to the front. -/
def selectTriedLoop (nKBucket : TriedBucket) : Nat → Nat → Option (Nat × Nat) → CAddrMan →
    Option (Option (Nat × Nat) × CAddrMan)
  | 0, _, oldest, s => some (oldest, s)
  | turns + 1, i, oldest, s =>
    let vTried := s.vvTried nKBucket
    if vTried.length ≤ i then some (oldest, s)
    else
      let nPos := s.randInt E (vTried.length - i) + i
      match vTried[nPos]?, vTried[i]? with
      | some nTemp, some nFront =>
        let s := { s.read with
          vvTried := update s.vvTried nKBucket ((vTried.set nPos nFront).set i nTemp) }
        match oldest with
        | none => selectTriedLoop nKBucket turns (i + 1) (some (nTemp, nPos)) s
        | some (nOldest, nOldestPos) =>
          match s.mapInfo.lookup nTemp, s.mapInfo.lookup nOldest with
          | some info, some infoOldest =>
            selectTriedLoop nKBucket turns (i + 1)
              (if info.nLastSuccess < infoOldest.nLastSuccess then some (nTemp, nPos)
                else some (nOldest, nOldestPos)) s
          | _, _ => none
      | _, _ => none

/-- `SelectTried`: a position in the bucket, none if it is empty. -/
def selectTried (nKBucket : TriedBucket) : Option (Option Nat × CAddrMan) :=
  (selectTriedLoop E nKBucket ADDRMAN_TRIED_ENTRIES_INSPECT_ON_EVICT 0 none s).map fun r =>
    (r.1.map Prod.snd, r.2)

/-- An entry of `mapInfo` is deleted. -/
def deleteNew (nId : Nat) (info : CAddrInfo) : Option CAddrMan :=
  -- The position is passed as an unsigned number.
  if info.nRandomPos < 0 then none
  else
    (s.swapRandom info.nRandomPos.toNat (s.vRandom.length - 1)).map fun s =>
      { s with
        vRandom := s.vRandom.dropLast
        mapAddr := s.mapAddr.erase info.service.addr
        mapInfo := s.mapInfo.erase nId
        nNew := s.nNew - 1 }

/-- An id leaves a new bucket, and its entry is deleted with the last reference. -/
def releaseNew (nUBucket : NewBucket) (nId : Nat) : Option CAddrMan :=
  match s.mapInfo.lookup nId with
  | none => none
  | some info =>
    let info := { info with nRefCount := info.nRefCount - 1 }
    let s := s.setInfo nId info
    (if info.nRefCount = 0 then s.deleteNew nId info else some s).map fun s =>
      { s with vvNew := update s.vvNew nUBucket ((s.vvNew nUBucket).erase nId) }

/-- The first loop of `ShrinkNew`: the first entry that can be deleted. -/
def findTerrible : List Nat → CAddrMan → Option (Option Nat × CAddrMan)
  | [], s => some (none, s)
  | nId :: ids, s =>
    match s.mapInfo.lookup nId with
    | none => none
    | some info =>
      if info.isTerrible (E.getAdjustedTime s.nReads) then some (some nId, s.read)
      else findTerrible ids s.read

/-- The second loop of `ShrinkNew`: the oldest of the entries at the positions `n`. -/
def selectOldest (n : List Nat) : List Nat → Nat → Option Nat → Option (Option Nat)
  | [], _, nOldest => some nOldest
  | nId :: ids, nI, nOldest =>
    if nI ∈ n then
      match nOldest with
      | none => selectOldest n ids (nI + 1) (some nId)
      | some nOld =>
        match s.mapInfo.lookup nId, s.mapInfo.lookup nOld with
        | some info, some infoOld =>
          selectOldest n ids (nI + 1) (if info.nTime < infoOld.nTime then some nId else some nOld)
        | _, _ => none
    else selectOldest n ids (nI + 1) nOldest

def shrinkNew (nUBucket : NewBucket) : Option (Nat × CAddrMan) :=
  match findTerrible E (s.vvNew nUBucket) s with
  | none => none
  | some (some nId, s) => (s.releaseNew nUBucket nId).map fun s => (0, s)
  | some (none, s) =>
    let size := (s.vvNew nUBucket).length
    let n := [s.randInt E size, s.read.randInt E size, s.read.read.randInt E size, s.read.read.read.randInt E size]
    match s.selectOldest n (s.vvNew nUBucket) 0 none with
    | some (some nOldest) => (s.read.read.read.read.releaseNew nUBucket nOldest).map fun s => (1, s)
    | _ => none

/-! ## Moving an entry to the tried table -/

/-- The entry with the id leaves all new buckets. -/
def leaveNew (nId : Nat) (info : CAddrInfo) : CAddrInfo × CAddrMan :=
  let nErased := (List.finRange ADDRMAN_NEW_BUCKET_COUNT).countP fun b => decide (nId ∈ s.vvNew b)
  let info := { info with nRefCount := info.nRefCount - nErased }
  (info, { s.setInfo nId info with vvNew := fun b => (s.vvNew b).erase nId, nNew := s.nNew - 1 })

/-- The entry in a tried bucket gives its place to the id `nId`, and goes back to a new bucket. -/
def evictTried (nKBucket : TriedBucket) (nPos nId : Nat) (nOrigin : NewBucket) : Option CAddrMan :=
  match (s.vvTried nKBucket)[nPos]? with
  | none => none
  | some nOld =>
    match s.mapInfo.lookup nOld with
    | none => none
    | some infoOld =>
      let nUBucket := CAddrInfo.getNewBucket E s.nKey infoOld.service infoOld.source
      let s := s.setInfo nOld { infoOld with fInTried := false, nRefCount := 1 }
      let nTo := if (s.vvNew nUBucket).length < ADDRMAN_NEW_BUCKET_SIZE then nUBucket else nOrigin
      some
        { s with
          vvNew := update s.vvNew nTo (insertId nOld (s.vvNew nTo))
          nNew := s.nNew + 1
          vvTried := update s.vvTried nKBucket ((s.vvTried nKBucket).set nPos nId) }

/-- `info.fInTried = true`. -/
def markTried (nId : Nat) : Option CAddrMan :=
  (s.mapInfo.lookup nId).map fun info => s.setInfo nId { info with fInTried := true }

def makeTried (info : CAddrInfo) (nId : Nat) (nOrigin : NewBucket) : Option CAddrMan :=
  if nId ∉ s.vvNew nOrigin then none
  else
    let (info, s) := s.leaveNew nId info
    if info.nRefCount ≠ 0 then none
    else
      let nKBucket := CAddrInfo.getTriedBucket E s.nKey info.service
      if (s.vvTried nKBucket).length < ADDRMAN_TRIED_BUCKET_SIZE then
        { s with
          vvTried := update s.vvTried nKBucket (s.vvTried nKBucket ++ [nId])
          nTried := s.nTried + 1 }.markTried nId
      else
        match s.selectTried E nKBucket with
        | some (some nPos, s) =>
          (s.evictTried E nKBucket nPos nId nOrigin).bind fun s => s.markTried nId
        | _ => none

/-! ## The operations -/

/-- A bucket that the id is in, from the bucket `nRnd` on. -/
def bucketOf (nId nRnd : Nat) : Option NewBucket :=
  ((List.range ADDRMAN_NEW_BUCKET_COUNT).map fun n => (Fin.ofNat _ (n + nRnd) : NewBucket)).find?
    fun b => decide (nId ∈ s.vvNew b)

/-- `Good_`. -/
def good (addr : CService) (nTime : Int64) : Option CAddrMan :=
  match s.find addr.addr with
  | none => some s
  | some (nId, info) =>
    if info.service ≠ addr then some s
    else
      let info := { info with nLastSuccess := nTime, nLastTry := nTime, nAttempts := 0 }
      let s := s.setInfo nId info
      if info.fInTried then some s
      else
        let nRnd := s.randInt E ADDRMAN_NEW_BUCKET_COUNT
        let s := s.read
        match s.bucketOf nId nRnd with
        | none => some s
        | some nUBucket => s.makeTried E info nId nUBucket

/-- The conversion to `unsigned int`. -/
def toUInt32 (n : Int) : UInt32 :=
  UInt32.ofNat (n % 2 ^ 32).toNat

/-- What `Add_` makes of the entry that it has found: the entry, and whether it goes on. -/
def refresh (addr : CAddress) (nTimePenalty : Int64) (info : CAddrInfo) : CAddrInfo × Bool × CAddrMan :=
  let fCurrentlyOnline := decide (E.getAdjustedTime s.nReads - addr.nTime.toNat < 24 * 60 * 60)
  let s := s.read
  let nUpdateInterval : Int := if fCurrentlyOnline then 60 * 60 else 24 * 60 * 60
  let info :=
    if addr.nTime ≠ 0 ∧ (info.nTime = 0 ∨
        (info.nTime.toNat : Int) < addr.nTime.toNat - nUpdateInterval - nTimePenalty.toInt) then
      { info with nTime := toUInt32 (max 0 (addr.nTime.toNat - nTimePenalty.toInt)) }
    else info
  let info := { info with nServices := info.nServices ||| addr.nServices }
  if addr.nTime = 0 ∨ (info.nTime ≠ 0 ∧ addr.nTime ≤ info.nTime) then (info, false, s)
  else if info.fInTried then (info, false, s)
  else if info.nRefCount = ADDRMAN_NEW_BUCKETS_PER_ADDRESS then (info, false, s)
  else
    -- The more references there are, the harder it is to add another one.
    let nFactor := 2 ^ info.nRefCount.toNat
    if 1 < nFactor then (info, decide (s.randInt E nFactor = 0), s.read) else (info, true, s)

/-- The end of `Add_`: the entry goes into a new bucket. -/
def addToBucket (nId : Nat) (info : CAddrInfo) (source : CNetAddr) : Option CAddrMan :=
  let nUBucket := CAddrInfo.getNewBucket E s.nKey info.service source
  if nId ∈ s.vvNew nUBucket then some s
  else
    let s := s.setInfo nId { info with nRefCount := info.nRefCount + 1 }
    (if (s.vvNew nUBucket).length = ADDRMAN_NEW_BUCKET_SIZE then (s.shrinkNew E nUBucket).map Prod.snd
      else some s).map fun s =>
        { s with vvNew := update s.vvNew nUBucket (insertId nId (s.vvNew nUBucket)) }

/-- `Add_`. -/
def add (addr : CAddress) (source : CNetAddr) (nTimePenalty : Int64) : Option (Bool × CAddrMan) :=
  if !addr.service.addr.isRoutable then some (false, s)
  else
    match s.find addr.service.addr with
    | some (nId, info) =>
      let (info, fGoOn, s) := s.refresh E addr nTimePenalty info
      let s := s.setInfo nId info
      if fGoOn then (s.addToBucket E nId info source).map fun s => (false, s) else some (false, s)
    | none =>
      let (nId, info, s) := s.create addr source
      let info := { info with nTime := toUInt32 (max 0 (info.nTime.toNat - nTimePenalty.toInt)) }
      let s := { s.setInfo nId info with nNew := s.nNew + 1 }
      (s.addToBucket E nId info source).map fun s => (true, s)

/-- `Attempt_`. -/
def attempt (addr : CService) (nTime : Int64) : CAddrMan :=
  match s.find addr.addr with
  | none => s
  | some (nId, info) =>
    if info.service ≠ addr then s
    else s.setInfo nId { info with nLastTry := nTime, nAttempts := info.nAttempts + 1 }

/-- `Connected_`. -/
def connected (addr : CService) (nTime : Int64) : CAddrMan :=
  match s.find addr.addr with
  | none => s
  | some (nId, info) =>
    if info.service ≠ addr then s
    else if 20 * 60 < nTime.toInt - info.nTime.toNat then
      s.setInfo nId { info with nTime := toUInt32 nTime.toInt }
    else s

/-- The loop of `GetAddr_` from position `n` on. -/
def getAddrLoop (nNodes : Nat) : Nat → Nat → List CAddress → CAddrMan → Option (List CAddress × CAddrMan)
  | 0, _, vAddr, s => some (vAddr, s)
  | turns + 1, n, vAddr, s =>
    if nNodes ≤ vAddr.length then some (vAddr, s)
    else
      match s.read.swapRandom n (s.randInt E (s.vRandom.length - n) + n) with
      | none => none
      | some s =>
        match (s.vRandom[n]?).bind s.mapInfo.lookup with
        | none => none
        | some ai =>
          if ai.isTerrible (E.getAdjustedTime s.nReads) then getAddrLoop nNodes turns (n + 1) vAddr s.read
          else getAddrLoop nNodes turns (n + 1) (vAddr ++ [ai.toCAddress]) s.read

/-- `GetAddr_` with an empty list. -/
def getAddr : Option (List CAddress × CAddrMan) :=
  getAddrLoop E (min (ADDRMAN_GETADDR_MAX_PCT * s.vRandom.length / 100) ADDRMAN_GETADDR_MAX)
    s.vRandom.length 0 [] s

end CAddrMan

inductive AddrCall where
  | add (addr : CAddress) (source : CNetAddr) (nTimePenalty : Int64)
  | good (addr : CService) (nTime : Int64)
  | attempt (addr : CService) (nTime : Int64)
  | connected (addr : CService) (nTime : Int64)
  | getAddr

namespace CAddrMan

def step (E : AddrEnv) (s : CAddrMan) : AddrCall → Option CAddrMan
  | .add addr source nTimePenalty => (s.add E addr source nTimePenalty).map Prod.snd
  | .good addr nTime => s.good E addr nTime
  | .attempt addr nTime => some (s.attempt addr nTime)
  | .connected addr nTime => some (s.connected addr nTime)
  | .getAddr => (s.getAddr E).map Prod.snd

def run (E : AddrEnv) (s : CAddrMan) (calls : List AddrCall) : Option CAddrMan :=
  calls.foldlM (step E) s

end CAddrMan

end Reddcoin
