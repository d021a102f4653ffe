import Reddcoin.Index.State
import Reddcoin.Kernel.StakeModifier

/-!
# The stake kernel

`CheckProofOfStake` and what it calls in `kernel.cpp`.  The modifier that a kernel is hashed with is found
by a walk along the active chain.
-/

namespace Reddcoin

/-- `ComputeNextStakeModifier` for the entry above `pindexPrev`. -/
def NodeState.computeNextStakeModifier (C : Crypto) (s : NodeState) (pindexPrev : Option Ptr) :
    Option (Nat × Bool) :=
  Reddcoin.computeNextStakeModifier C (fun hash => (s.mapBlockIndex.find hash).map s.entry)
    (s.ancestors pindexPrev)

/-- The loop of `GetKernelStakeModifier`: the entry at which it stops.  Each turn goes one entry up the
active chain. -/
def kernelModifierLoop (s : NodeState) (nTimeStop : Nat) : Nat → Nat → Ptr → Option Ptr
  | 0, _, _ => none
  | turns + 1, nStakeModifierTime, pindex =>
    if nStakeModifierTime < nTimeStop then
      match s.chainActive.next s.mapBlockIndex pindex with
      | none => none
      | some pindex =>
        kernelModifierLoop s nTimeStop turns
          (if (s.entry pindex).fStakeModifier then (s.entry pindex).nTime else nStakeModifierTime)
          pindex
    else some pindex

def getKernelStakeModifier (s : NodeState) (hashBlockFrom : Uint256) : Option Nat :=
  match s.mapBlockIndex.find hashBlockFrom with
  | none => none
  | some pindexFrom =>
    (kernelModifierLoop s ((s.entry pindexFrom).nTime + getStakeModifierSelectionInterval)
      (s.chainActive.length + 1) (s.entry pindexFrom).nTime pindexFrom).map fun pindex =>
        (s.entry pindex).nStakeModifier

section

variable (N : Node)

def readBlockFromDisk (s : NodeState) (p : Ptr) : Option CBlock :=
  match s.blockFile p with
  | none => none
  | some block =>
    if !(N.env s).canRead then none
    else if decide (CHECK_POW_FROM_NTIME < block.getBlockTime) && block.isProofOfWork &&
        !checkProofOfWork N.P (N.C.powHash block.toCBlockHeader) block.nBits then none
    else if block.getHash N.C = (s.entry p).hash then some block
    else none

/-- The kernel hash, once the modifier is known. -/
def kernelHashOf (nStakeModifier : Nat) (blockFrom : CBlockHeader) (nTxPrevOffset : Nat)
    (txPrev : CTransaction) (prevout : COutPoint) (nTimeTx : Nat) : Uint256 :=
  N.C.kernelHash nStakeModifier blockFrom.nTime nTxPrevOffset
    (if txPrev.nTime = 0 then blockFrom.nTime else txPrev.nTime) prevout.n nTimeTx

/-- `bnCoinDayWeight * bnTargetPerCoinDay`. -/
def kernelTarget (env : Env) (nBits : Nat) (blockFrom : CBlockHeader) (txPrev : CTransaction)
    (prevout : COutPoint) (nTimeTx : Nat) : Int :=
  let nTimeTxPrev := if txPrev.nTime = 0 then blockFrom.nTime else txPrev.nTime
  let nValueIn := ((txPrev.vout[prevout.n]?).map CTxOut.nValue).getD (-1)
  let bnCoinDayWeight :=
    ((nValueIn * env.getCoinAgeWeight nTimeTxPrev nTimeTx).tdiv COIN).tdiv (24 * 60 * 60)
  bnCoinDayWeight * setCompact nBits

/-- `CheckStakeKernelHash`: the kernel hash, when it meets the target. -/
def checkStakeKernelHash (s : NodeState) (nBits : Nat) (blockFrom : CBlockHeader) (nTxPrevOffset : Nat)
    (txPrev : CTransaction) (prevout : COutPoint) (nTimeTx : Nat) : Option Uint256 :=
  if nTimeTx < (if txPrev.nTime = 0 then blockFrom.nTime else txPrev.nTime) then none
  else if nTimeTx < (blockFrom.nTime + N.P.stakeMinAge) % 2 ^ 32 then none
  else
    match getKernelStakeModifier s (N.C.headerHash blockFrom) with
    | none => none
    | some nStakeModifier =>
      let hashProofOfStake := kernelHashOf N nStakeModifier blockFrom nTxPrevOffset txPrev prevout nTimeTx
      if kernelTarget (N.env s) nBits blockFrom txPrev prevout nTimeTx < hashProofOfStake then none
      else some hashProofOfStake

/-- `VerifySignature` of the input `nIn`. -/
def verifySignature (txFrom txTo : CTransaction) (nIn : Nat) : Bool :=
  match txTo.vin[nIn]? with
  | none => false
  | some txin =>
    match txFrom.vout[txin.prevout.n]? with
    | none => false
    | some txout =>
      decide (txin.prevout.hash = N.C.txHash txFrom) &&
        (N.C.verifyScript txin.scriptSig txout.scriptPubKey SCRIPT_VERIFY_P2SH txTo nIn).isNone

/-- `CheckProofOfStake`: the kernel hash, when the check succeeds. -/
def checkProofOfStake (s : NodeState) (tx : CTransaction) (nBits : Nat) : Option Uint256 :=
  if !tx.isCoinStake then none
  else
    match tx.vin.head? with
    | none => none
    | some txin =>
      match (N.env s).getTransaction txin.prevout.hash with
      | none => none
      | some (txPrev, hashBlock) =>
        if !verifySignature N txPrev tx 0 then none
        else
          match s.mapBlockIndex.find hashBlock with
          | none => none
          | some p =>
            match readBlockFromDisk N s p with
            | none => none
            | some block =>
              checkStakeKernelHash N s nBits block.toCBlockHeader txin.prevout.n txPrev
                txin.prevout tx.nTime

end

end Reddcoin
