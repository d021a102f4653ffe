import Reddcoin.Net.AddrManCheck

/-!
# Saving and loading the address manager

`Serialize` and `Unserialize` of `addrman.h`, as `CAddrDB` calls them for `peers.dat`.  The ids are renumbered, first
those of the new table and then those of the tried table; the tried buckets are computed again, and the new buckets
are stored as lists of numbers.
-/

namespace Reddcoin

open Stream

/-! ## Addresses on disk -/

def CLIENT_VERSION : Int := 3109900

def writeNetAddr (addr : CNetAddr) : List UInt8 :=
  addr.ip

def readNetAddr : Reader UInt8 CNetAddr := do
  let ip ← symbols 16
  if size : ip.length = 16 then pure ⟨ip, size⟩ else failure

/-- The port is stored in network order. -/
def writeService (service : CService) : List UInt8 :=
  writeNetAddr service.addr ++ [UInt8.ofNat (service.port.toNat / 0x100), UInt8.ofNat (service.port.toNat % 0x100)]

def readService : Reader UInt8 CService := do
  let addr ← readNetAddr
  let bytes ← symbols 2
  pure ⟨addr, UInt16.ofNat ((bytes.getD 0 0).toNat * 0x100 + (bytes.getD 1 0).toNat)⟩

def writeAddress (addr : CAddress) : List UInt8 :=
  writeSigned 4 CLIENT_VERSION ++ writeData 4 addr.nTime.toNat ++ writeData 8 addr.nServices.toNat ++
    writeService addr.service

def readAddress : Reader UInt8 CAddress := do
  let _nVersion ← readSigned 4
  let nTime ← readData 4
  let nServices ← readData 8
  let service ← readService
  pure
    { service := service
      nServices := UInt64.ofNat nServices
      nTime := UInt32.ofNat nTime
      nLastTry := 0 }

namespace CAddrInfo

def write (info : CAddrInfo) : List UInt8 :=
  writeAddress info.toCAddress ++ writeNetAddr info.source ++ writeSigned 8 info.nLastSuccess.toInt ++
    writeSigned 4 info.nAttempts.toInt

/-- The fields that are not stored are as `Init` sets them. -/
def read : Reader UInt8 CAddrInfo := do
  let addr ← readAddress
  let source ← readNetAddr
  let nLastSuccess ← readSigned 8
  let nAttempts ← readSigned 4
  pure
    { toCAddress := addr
      source := source
      nLastSuccess := Int64.ofInt nLastSuccess
      nAttempts := Int32.ofInt nAttempts
      nRefCount := 0
      fInTried := false
      nRandomPos := -1 }

/-- `CAddrInfo()`. -/
def empty : CAddrInfo where
  service := ⟨⟨List.replicate 16 0, CNetAddr.length_zeros⟩, 0⟩
  nServices := 1
  nTime := 100000000
  nLastTry := 0
  source := ⟨List.replicate 16 0, CNetAddr.length_zeros⟩
  nLastSuccess := 0
  nAttempts := 0
  nRefCount := 0
  fInTried := false
  nRandomPos := -1

end CAddrInfo

namespace CAddrMan

/-! ## `Serialize` -/

/-- The loop over the new entries, from the number `nIds` on: what is written, and `mapUnkIds`. -/
def writeNewInfos (s : CAddrMan) : List Nat → Nat → (Nat → Nat) → List UInt8 × (Nat → Nat)
  | [], _, mapUnkIds => ([], mapUnkIds)
  | n :: ids, nIds, mapUnkIds =>
    if (nIds : Int) = s.nNew then ([], mapUnkIds)
    else
      match s.mapInfo.lookup n with
      | none => writeNewInfos s ids nIds mapUnkIds
      | some info =>
        let mapUnkIds := Function.update mapUnkIds n nIds
        if info.nRefCount ≠ 0 then
          let rest := writeNewInfos s ids (nIds + 1) mapUnkIds
          (info.write ++ rest.1, rest.2)
        else writeNewInfos s ids nIds mapUnkIds

/-- The loop over the tried entries. -/
def writeTriedInfos (s : CAddrMan) : List Nat → Nat → List UInt8
  | [], _ => []
  | n :: ids, nIds =>
    if (nIds : Int) = s.nTried then []
    else
      match s.mapInfo.lookup n with
      | none => writeTriedInfos s ids nIds
      | some info =>
        if info.fInTried then info.write ++ writeTriedInfos s ids (nIds + 1) else writeTriedInfos s ids nIds

def writeBucket (mapUnkIds : Nat → Nat) (vNew : List Nat) : List UInt8 :=
  writeSigned 4 vNew.length ++ vNew.flatMap fun n => writeSigned 4 (mapUnkIds n)

def serialize (s : CAddrMan) : List UInt8 :=
  let new := s.writeNewInfos s.ids 0 fun _ => 0
  writeData 1 0 ++ writeBytes s.nKey ++ writeSigned 4 s.nNew ++ writeSigned 4 s.nTried ++
    writeSigned 4 ADDRMAN_NEW_BUCKET_COUNT ++ new.1 ++ s.writeTriedInfos s.ids 0 ++
    (List.finRange ADDRMAN_NEW_BUCKET_COUNT).flatMap fun b => writeBucket new.2 (s.vvNew b)

/-! ## `Unserialize` -/

variable (E : AddrEnv)

/-- A new entry gets the number `n`. -/
def loadNew (nUBuckets : Int) (n : Nat) (info : CAddrInfo) (s : CAddrMan) : CAddrMan :=
  let info := { info with nRandomPos := s.vRandom.length }
  let s :=
    { s with
      mapInfo := s.mapInfo.insert n info
      mapAddr := s.mapAddr.insert info.service.addr n
      vRandom := s.vRandom ++ [n] }
  if nUBuckets ≠ ADDRMAN_NEW_BUCKET_COUNT then
    -- The buckets cannot be used as they are stored.
    let nUBucket := CAddrInfo.getNewBucket E s.nKey info.service info.source
    { s.setInfo n { info with nRefCount := info.nRefCount + 1 } with
      vvNew := Function.update s.vvNew nUBucket (insertId n (s.vvNew nUBucket)) }
  else s

def readNewInfos (nUBuckets : Int) : Nat → Nat → CAddrMan → Reader UInt8 CAddrMan
  | 0, _, s => pure s
  | turns + 1, n, s => do
    let info ← CAddrInfo.read
    readNewInfos nUBuckets turns (n + 1) (s.loadNew E nUBuckets n info)

/-- A tried entry gets the next id, if there is place for it. -/
def loadTried (info : CAddrInfo) (s : CAddrMan) : Option CAddrMan :=
  let nKBucket := CAddrInfo.getTriedBucket E s.nKey info.service
  if (s.vvTried nKBucket).length < ADDRMAN_TRIED_BUCKET_SIZE then
    some
      { s with
        vRandom := s.vRandom ++ [s.nIdCount]
        mapInfo := s.mapInfo.insert s.nIdCount { info with nRandomPos := s.vRandom.length, fInTried := true }
        mapAddr := s.mapAddr.insert info.service.addr s.nIdCount
        vvTried := Function.update s.vvTried nKBucket (s.vvTried nKBucket ++ [s.nIdCount])
        nIdCount := s.nIdCount + 1 }
  else none

/-- The number of lost entries, and the state. -/
def readTriedInfos : Nat → Nat → CAddrMan → Reader UInt8 (Nat × CAddrMan)
  | 0, nLost, s => pure (nLost, s)
  | turns + 1, nLost, s => do
    let info ← CAddrInfo.read
    match s.loadTried E info with
    | some s => readTriedInfos turns nLost s
    | none => readTriedInfos turns (nLost + 1) s

/-- A number in the bucket `b`.  An entry that is not there is made. -/
def loadReference (nUBuckets : Int) (b : NewBucket) (nIndex : Nat) (s : CAddrMan) : CAddrMan :=
  let info := (s.mapInfo.lookup nIndex).getD CAddrInfo.empty
  let s := s.setInfo nIndex info
  if nUBuckets = ADDRMAN_NEW_BUCKET_COUNT ∧ info.nRefCount < ADDRMAN_NEW_BUCKETS_PER_ADDRESS then
    { s.setInfo nIndex { info with nRefCount := info.nRefCount + 1 } with
      vvNew := Function.update s.vvNew b (insertId nIndex (s.vvNew b)) }
  else s

/-- A bucket.  A negative number is not followed further. -/
def readBucket (nUBuckets : Int) (b : NewBucket) : Nat → CAddrMan → Reader UInt8 CAddrMan
  | 0, s => pure s
  | turns + 1, s => do
    let nIndex ← readSigned 4
    if nIndex < 0 then failure
    else readBucket nUBuckets b turns (s.loadReference nUBuckets b nIndex.toNat)

/-- The buckets from `b` on.  More buckets than there are cannot be loaded. -/
def readBuckets (nUBuckets : Int) : Nat → Nat → CAddrMan → Reader UInt8 CAddrMan
  | 0, _, s => pure s
  | turns + 1, b, s => do
    let nSize ← readSigned 4
    if hb : b < ADDRMAN_NEW_BUCKET_COUNT then do
      let s ← readBucket nUBuckets ⟨b, hb⟩ nSize.toNat s
      readBuckets nUBuckets turns (b + 1) s
    else failure

/-- `Unserialize` into the manager `s`.  A negative number of new entries is not followed further. -/
def unserialize (s : CAddrMan) : Reader UInt8 CAddrMan := do
  let _nVersion ← readData 1
  let nKey ← readBytes
  let nNew ← readSigned 4
  let nTried ← readSigned 4
  let nUBuckets ← readSigned 4
  if nNew < 0 then failure
  else do
    let s := { new nKey with nNew := nNew, nTried := nTried, nReads := s.nReads }
    let s ← readNewInfos E nUBuckets nNew.toNat 0 s
    let (nLost, s) ← readTriedInfos E nTried.toNat 0 { s with nIdCount := nNew.toNat }
    readBuckets nUBuckets nUBuckets.toNat 0 { s with nTried := s.nTried - nLost }

end CAddrMan

/-! ## Reading back an entry -/

theorem reads_readNetAddr (addr : CNetAddr) : Reads readNetAddr (writeNetAddr addr) addr := by
  unfold readNetAddr writeNetAddr
  have hbytes := reads_symbols addr.ip
  rw [addr.size] at hbytes
  refine reads_last hbytes ?_
  rw [dif_pos addr.size]
  exact reads_pure addr

theorem reads_readService (service : CService) : Reads readService (writeService service) service := by
  refine reads_bind (reads_readNetAddr service.addr) ?_
  refine reads_last (reads_symbols [UInt8.ofNat (service.port.toNat / 0x100),
    UInt8.ofNat (service.port.toNat % 0x100)]) ?_
  have hport := service.port.toNat_lt
  have hhigh : (UInt8.ofNat (service.port.toNat / 0x100)).toNat = service.port.toNat / 0x100 := by
    rw [UInt8.toNat_ofNat']
    omega
  have hlow : (UInt8.ofNat (service.port.toNat % 0x100)).toNat = service.port.toNat % 0x100 := by
    rw [UInt8.toNat_ofNat']
    omega
  have hvalue : UInt16.ofNat ((UInt8.ofNat (service.port.toNat / 0x100)).toNat * 0x100 +
      (UInt8.ofNat (service.port.toNat % 0x100)).toNat) = service.port := by
    rw [hhigh, hlow, Nat.mul_comm, Nat.div_add_mod, UInt16.ofNat_toNat]
  show Reads (pure ⟨service.addr, _⟩) [] service
  rw [List.getD_cons_zero, List.getD_cons_succ, List.getD_cons_zero, hvalue]
  exact reads_pure service

theorem reads_readAddress (addr : CAddress) :
    Reads readAddress (writeAddress addr) { addr with nLastTry := 0 } := by
  unfold writeAddress
  rw [List.append_assoc, List.append_assoc]
  refine reads_bind (reads_readSigned (by decide)) (reads_bind (reads_readData addr.nTime.toNat_lt)
    (reads_bind (reads_readData addr.nServices.toNat_lt) (reads_last (reads_readService addr.service) ?_)))
  rw [UInt64.ofNat_toNat, UInt32.ofNat_toNat]
  exact reads_pure _

/-- What is left of an entry on disk. -/
def CAddrInfo.stored (info : CAddrInfo) : CAddrInfo :=
  { info with nLastTry := 0, nRefCount := 0, fInTried := false, nRandomPos := -1 }

theorem CAddrInfo.reads_read (info : CAddrInfo) : Reads CAddrInfo.read info.write info.stored := by
  unfold CAddrInfo.write
  rw [List.append_assoc, List.append_assoc]
  have hsuccess : SignedRange 8 info.nLastSuccess.toInt := ⟨info.nLastSuccess.le_toInt, info.nLastSuccess.toInt_lt⟩
  have hattempts : SignedRange 4 info.nAttempts.toInt := ⟨info.nAttempts.le_toInt, info.nAttempts.toInt_lt⟩
  refine reads_bind (reads_readAddress info.toCAddress) (reads_bind (reads_readNetAddr info.source)
    (reads_bind (reads_readSigned hsuccess) (reads_last (reads_readSigned hattempts) ?_)))
  rw [Int64.ofInt_toInt, Int32.ofInt_toInt]
  exact reads_pure _

end Reddcoin
