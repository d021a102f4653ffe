import Mathlib.Algebra.Group.Nat.Defs
import Mathlib.Data.List.Basic

/-!
# Network addresses

`CNetAddr`, `CService` and `CAddress` of `netbase.h` and `protocol.h`.  An IPv4 address is kept in the mapped
IPv6 range.
-/

namespace Reddcoin

/-- The sixteen bytes in network order. -/
structure CNetAddr where
  ip : List UInt8
  size : ip.length = 16
deriving DecidableEq

namespace CNetAddr

def pchIPv4 : List UInt8 := [0, 0, 0, 0, 0, 0, 0, 0, 0, 0, 0xff, 0xff]
def pchOnionCat : List UInt8 := [0xFD, 0x87, 0xD8, 0x7E, 0xEB, 0x43]

variable (a : CNetAddr)

def getByte (n : Nat) : Nat :=
  (a.ip.getD (15 - n) 0).toNat

/-- The address that the constructor sets to zero. -/
theorem length_zeros : (List.replicate 16 (0 : UInt8)).length = 16 :=
  rfl

/-- `memcmp` of the first bytes. -/
def startsWith (bytes : List UInt8) : Bool :=
  bytes.isPrefixOf a.ip

def isIPv4 : Bool := a.startsWith pchIPv4

def isRFC1918 : Bool :=
  a.isIPv4 && (a.getByte 3 == 10 || (a.getByte 3 == 192 && a.getByte 2 == 168) ||
    (a.getByte 3 == 172 && (decide (16 ≤ a.getByte 2) && decide (a.getByte 2 ≤ 31))))

def isRFC2544 : Bool :=
  a.isIPv4 && a.getByte 3 == 198 && (a.getByte 2 == 18 || a.getByte 2 == 19)

def isRFC3927 : Bool :=
  a.isIPv4 && (a.getByte 3 == 169 && a.getByte 2 == 254)

def isRFC6598 : Bool :=
  a.isIPv4 && a.getByte 3 == 100 && decide (64 ≤ a.getByte 2) && decide (a.getByte 2 ≤ 127)

def isRFC5737 : Bool :=
  a.isIPv4 && ((a.getByte 3 == 192 && a.getByte 2 == 0 && a.getByte 1 == 2) ||
    (a.getByte 3 == 198 && a.getByte 2 == 51 && a.getByte 1 == 100) ||
    (a.getByte 3 == 203 && a.getByte 2 == 0 && a.getByte 1 == 113))

def isRFC3849 : Bool :=
  a.getByte 15 == 0x20 && a.getByte 14 == 0x01 && a.getByte 13 == 0x0D && a.getByte 12 == 0xB8

def isRFC3964 : Bool :=
  a.getByte 15 == 0x20 && a.getByte 14 == 0x02

def isRFC6052 : Bool := a.startsWith [0, 0x64, 0xFF, 0x9B, 0, 0, 0, 0, 0, 0, 0, 0]

def isRFC4380 : Bool :=
  a.getByte 15 == 0x20 && a.getByte 14 == 0x01 && a.getByte 13 == 0 && a.getByte 12 == 0

def isRFC4862 : Bool := a.startsWith [0xFE, 0x80, 0, 0, 0, 0, 0, 0]

def isRFC4193 : Bool := a.getByte 15 &&& 0xFE == 0xFC

def isRFC6145 : Bool := a.startsWith [0, 0, 0, 0, 0, 0, 0, 0, 0xFF, 0xFF, 0, 0]

def isRFC4843 : Bool :=
  a.getByte 15 == 0x20 && a.getByte 14 == 0x01 && a.getByte 13 == 0x00 && a.getByte 12 &&& 0xF0 == 0x10

def isTor : Bool := a.startsWith pchOnionCat

def isLocal : Bool :=
  (a.isIPv4 && (a.getByte 3 == 127 || a.getByte 3 == 0)) ||
    a.startsWith [0, 0, 0, 0, 0, 0, 0, 0, 0, 0, 0, 0, 0, 0, 0, 1]

def isValid : Bool :=
  -- Addresses that are shifted by three bytes came from garbled messages.
  !a.startsWith (pchIPv4.drop 3) && !a.startsWith (List.replicate 16 0) && !a.isRFC3849 &&
    !(a.isIPv4 && (a.ip.drop 12 == [0xff, 0xff, 0xff, 0xff] || a.ip.drop 12 == [0, 0, 0, 0]))

def isRoutable : Bool :=
  a.isValid && !(a.isRFC1918 || a.isRFC2544 || a.isRFC3927 || a.isRFC4862 || a.isRFC6598 || a.isRFC5737 ||
    (a.isRFC4193 && !a.isTor) || a.isRFC4843 || a.isLocal)

def NET_UNROUTABLE : UInt8 := 0
def NET_IPV4 : UInt8 := 1
def NET_IPV6 : UInt8 := 2
def NET_TOR : UInt8 := 3

/-- The loop at the end of `GetGroup`: `nBits` bits of the address from a byte on. -/
def groupBits (nClass : UInt8) (nStartByte nBits : Nat) : List UInt8 :=
  nClass :: (a.ip.drop nStartByte).take (nBits / 8) ++ if 0 < nBits % 8 then
      [a.ip.getD (nStartByte + nBits / 8) 0 ||| UInt8.ofNat (2 ^ (nBits % 8) - 1)]
    else []

/-- The canonical identifier of an address' group. -/
def getGroup : List UInt8 :=
  -- The class 255 of a local address is overwritten, since no local address is routable.
  if !a.isRoutable then a.groupBits NET_UNROUTABLE 0 0
  else if a.isIPv4 || a.isRFC6145 || a.isRFC6052 then a.groupBits NET_IPV4 12 16
  else if a.isRFC3964 then a.groupBits NET_IPV4 2 16
  else if a.isRFC4380 then
    [NET_IPV4, UInt8.ofNat (a.getByte 3) ^^^ 0xFF, UInt8.ofNat (a.getByte 2) ^^^ 0xFF]
  else if a.isTor then a.groupBits NET_TOR 6 4
  else if a.getByte 15 == 0x20 && a.getByte 14 == 0x01 && a.getByte 13 == 0x04 && a.getByte 12 == 0x70 then
    a.groupBits NET_IPV6 0 36
  else a.groupBits NET_IPV6 0 32

end CNetAddr

structure CService where
  addr : CNetAddr
  port : UInt16
deriving DecidableEq

/-- `GetKey`. -/
def CService.getKey (service : CService) : List UInt8 :=
  service.addr.ip ++ [UInt8.ofNat (service.port.toNat / 0x100), UInt8.ofNat (service.port.toNat % 0x100)]

structure CAddress where
  service : CService
  nServices : UInt64
  nTime : UInt32
  /-- In memory only. -/
  nLastTry : Int64
deriving DecidableEq

end Reddcoin
