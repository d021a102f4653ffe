import Reddcoin.Primitives.Block

/-!
# Chain parameters

The values of `CChainParams` that validation reads, and the proof-of-work test of `pow.cpp`.
-/

namespace Reddcoin

structure CChainParams where
  hashGenesisBlock : Uint256
  proofOfWorkLimit : Int
  skipProofOfWorkCheck : Bool
  lastProofOfWorkHeight : Nat
  maxReorganizationDepth : Nat
  devKey : List UInt8
  toCheckBlockUpgradeMajority : Nat
  toCheckBlockUpgradeMajority_4 : Nat
  toCheckBlockUpgradeMajority_5 : Nat
  rejectBlockOutdatedMajority : Nat
  rejectBlockOutdatedMajority_4 : Nat
  rejectBlockOutdatedMajority_5 : Nat
  enforceBlockUpgradeMajority_5 : Nat
  stakeMinAge : Nat
  /-- `mapCheckpoints`, in increasing height. -/
  checkpoints : List (Nat × Uint256)

def MAX_BLOCK_SIZE : Nat := 1000000
def MAX_BLOCK_SIGOPS : Nat := MAX_BLOCK_SIZE / 50
def COINBASE_MATURITY : Int := 30
def CHECK_POW_FROM_NTIME : Int := 1394048078
def LOCKTIME_THRESHOLD : Nat := 500000000

def futureDrift (nTime : Int) : Int :=
  nTime + 2 * 60 * 60

/-- `CBigNum::SetCompact`. -/
def setCompact (nCompact : Nat) : Int :=
  let nSize := nCompact / 2 ^ 24
  let nWord := nCompact % 2 ^ 23
  let value : Nat := if nSize ≤ 3 then nWord / 2 ^ (8 * (3 - nSize)) else nWord * 2 ^ (8 * (nSize - 3))
  if nCompact / 2 ^ 23 % 2 = 1 then -(value : Int) else value

def checkProofOfWork (P : CChainParams) (hash : Uint256) (nBits : Nat) : Bool :=
  if P.skipProofOfWorkCheck then true
  else
    let bnTarget := setCompact nBits
    if bnTarget ≤ 0 ∨ P.proofOfWorkLimit < bnTarget then false
    else decide ((hash : Int) ≤ bnTarget)

/-- `CBlockIndex::IsSuperMajority`, given the versions of `pstart` and its ancestors from `pstart`
down.  The number of blocks to look at depends on the version asked for. -/
def isSuperMajority (P : CChainParams) (minVersion : Int) (versions : List Int) (nRequired : Nat) :
    Bool :=
  let nToCheck :=
    if minVersion = 3 then P.toCheckBlockUpgradeMajority
    else if minVersion = 4 then P.toCheckBlockUpgradeMajority_4
    else P.toCheckBlockUpgradeMajority_5
  decide (nRequired ≤ ((versions.take nToCheck).filter fun v => decide (minVersion ≤ v)).length)

/-- `Checkpoints::GetTotalBlocksEstimate`: the height of the last checkpoint. -/
def getTotalBlocksEstimate (P : CChainParams) : Nat :=
  (P.checkpoints.getLast?.map Prod.fst).getD 0

end Reddcoin
