import Reddcoin.Connect.View
import Reddcoin.Validation.CheckBlock

/-!
# Connecting a block

`HaveInputs`, `GetValueIn`, `CheckInputs`, `UpdateCoins` and `ConnectBlock`.
-/

namespace Reddcoin

/-! ## Inputs -/

def haveInputs (view : CoinsView) (tx : CTransaction) : Bool :=
  tx.isCoinBase ||
    tx.vin.all fun txin =>
      match view.accessCoins txin.prevout.hash with
      | some coins => coins.isAvailable txin.prevout.n
      | none => false

/-- `GetOutputFor`; a failed assertion is `none`. -/
def getOutputFor (view : CoinsView) (txin : CTxIn) : Option CTxOut :=
  (view.accessCoins txin.prevout.hash).bind fun coins => coins.out? txin.prevout.n

def getValueIn (view : CoinsView) (tx : CTransaction) : Option Int :=
  if tx.isCoinBase then some 0
  else
    tx.vin.foldlM (fun nResult txin => do
      let out ← getOutputFor view txin
      pure (wrap64 (nResult + out.nValue))) 0

def getP2SHSigOpCount (view : CoinsView) (tx : CTransaction) : Option Nat :=
  if tx.isCoinBase then some 0
  else
    tx.vin.foldlM (fun nSigOps txin => do
      let prevout ← getOutputFor view txin
      pure (if isPayToScriptHash prevout.scriptPubKey then
        nSigOps + getSigOpCountP2SH prevout.scriptPubKey txin.scriptSig
      else nSigOps)) 0

/-- `STANDARD_NOT_MANDATORY_VERIFY_FLAGS`: `DERSIG`, `STRICTENC`, `MINIMALDATA`, `NULLDUMMY` and
`DISCOURAGE_UPGRADABLE_NOPS`. -/
def STANDARD_NOT_MANDATORY_VERIFY_FLAGS : Nat := 4 + 2 + 64 + 16 + 128

structure CScriptCheck where
  scriptPubKey : CScript
  ptxTo : CTransaction
  nIn : Nat
  nFlags : Nat

/-- `CScriptCheck::operator()`: the text of the script error, if any. -/
def CScriptCheck.run (C : Crypto) (check : CScriptCheck) : Option String :=
  match check.ptxTo.vin[check.nIn]? with
  | none => none
  | some txin =>
    C.verifyScript txin.scriptSig check.scriptPubKey check.nFlags check.ptxTo check.nIn

/-- One turn of the first loop of `CheckInputs`. -/
def checkInput (view : CoinsView) (nSpendHeight : Nat) (tx : CTransaction) (nValueIn : Int)
    (txin : CTxIn) : Check Int := do
  let coins ← orCrash (view.accessCoins txin.prevout.hash)
  require (!((coins.fCoinBase || coins.fCoinStake) &&
      decide ((nSpendHeight : Int) - coins.nHeight < COINBASE_MATURITY)))
    (rejectInvalid REJECT_INVALID "bad-txns-premature-spend-of-coinbase")
  require (decide (coins.nTime % 2 ^ 32 ≤ tx.nTime)) (rejectDoS 100 0 "" false)
  let out ← orCrash coins.vout[txin.prevout.n]?
  let nValueIn := wrap64 (nValueIn + out.nValue)
  require (moneyRange out.nValue && moneyRange nValueIn)
    (rejectDoS 100 REJECT_INVALID "bad-txns-inputvalues-outofrange" false)
  pure nValueIn

/-- The fee of an ordinary transaction. -/
def checkFee (tx : CTransaction) (nValueIn : Int) : Check Unit := do
  let nValueOut ← orCrash tx.getValueOut
  require (decide (nValueOut ≤ nValueIn)) (rejectDoS 100 REJECT_INVALID "bad-txns-in-belowout" false)
  let nTxFee := wrap64 (nValueIn - nValueOut)
  require (decide (0 ≤ nTxFee)) (rejectDoS 100 REJECT_INVALID "bad-txns-fee-negative" false)
  require (moneyRange nTxFee) (rejectDoS 100 REJECT_INVALID "bad-txns-fee-outofrange" false)

/-- The script checks of a transaction's inputs. -/
def scriptChecks (view : CoinsView) (flags : Nat) (tx : CTransaction) : Check (List CScriptCheck) :=
  tx.vin.zipIdx.mapM fun (txin, i) => do
    let coins ← orCrash (view.accessCoins txin.prevout.hash)
    let out ← orCrash coins.vout[txin.prevout.n]?
    pure { scriptPubKey := out.scriptPubKey, ptxTo := tx, nIn := i, nFlags := flags }

/-- A script check made at once, as without worker threads.  The text of a non-mandatory failure is
that of the second check, which passed. -/
def runScriptCheck (C : Crypto) (flags : Nat) (check : CScriptCheck) : Check Unit :=
  match check.run C with
  | none => pure ()
  | some err => do
    onlyIf (decide (flags &&& STANDARD_NOT_MANDATORY_VERIFY_FLAGS ≠ 0)) <|
      match CScriptCheck.run C
          { check with nFlags := flags &&& (2 ^ 32 - 1 - STANDARD_NOT_MANDATORY_VERIFY_FLAGS) } with
      | none =>
        .error (rejectInvalid REJECT_NONSTANDARD "non-mandatory-script-verify-flag (No error)")
      | some _ => pure ()
    .error (rejectDoS 100 REJECT_INVALID
      ("mandatory-script-verify-flag-failed (" ++ err ++ ")") false)

/-- `CheckInputs`; with worker threads (`fThreads`) the script checks are handed back. -/
def checkInputs (C : Crypto) (view : CoinsView) (nSpendHeight : Nat) (tx : CTransaction)
    (fScriptChecks : Bool) (flags : Nat) (fThreads : Bool) : Check (List CScriptCheck) :=
  if tx.isCoinBase then pure []
  else do
    require (haveInputs view tx) (rejectInvalid 0 "")
    let nValueIn ← tx.vin.foldlM (checkInput view nSpendHeight tx) 0
    onlyIf (!tx.isCoinStake) (checkFee tx nValueIn)
    if fScriptChecks then do
      let checks ← scriptChecks view flags tx
      if fThreads then pure checks
      else do
        checks.forM (runScriptCheck C flags)
        pure []
    else pure []

/-! ## Updating the coins -/

/-- `ModifyCoins(prevout.hash)->Spend(prevout, undo)`; the assertion on its result is `none`. -/
def spendInput (view : CoinsView) (txin : CTxIn) : Option (CoinsView × CTxInUndo) := do
  let (coins, undo) ← (view.coins txin.prevout.hash).spend txin.prevout.n
  pure (view.modifyCoins txin.prevout.hash fun _ => coins, undo)

def spendInputs : CoinsView → List CTxIn → Option (CoinsView × CTxUndo)
  | view, [] => some (view, [])
  | view, txin :: vin => do
    let (view, undo) ← spendInput view txin
    let (view, undos) ← spendInputs view vin
    pure (view, undo :: undos)

def addOutputs (C : Crypto) (view : CoinsView) (tx : CTransaction) (nHeight : Nat) : CoinsView :=
  view.modifyCoins (C.txHash tx) fun _ => CCoins.fromTx tx nHeight

/-- A coinbase spends nothing. -/
def spendTx (view : CoinsView) (tx : CTransaction) : Option (CoinsView × CTxUndo) :=
  if tx.isCoinBase then some (view, []) else spendInputs view tx.vin

def updateCoins (C : Crypto) (view : CoinsView) (tx : CTransaction) (nHeight : Nat) :
    Option (CoinsView × CTxUndo) := do
  let (view, txundo) ← spendTx view tx
  pure (addOutputs C view tx nHeight, txundo)

/-! ## Rewards -/

def getBlockValue (nHeight : Nat) (nFees : Int) : Int :=
  let nSubsidy :=
    if nHeight = 0 then 10000 * COIN
    else if nHeight < 11 then 545000000 * COIN
    else if nHeight < 10000 then 300000 * COIN
    else if nHeight < 20000 then 200000 * COIN
    else if nHeight < 30000 then 150000 * COIN
    else if 140000 ≤ nHeight then 100000 * COIN / 2 ^ ((nHeight - 140000 + 50000) / 50000)
    else 100000 * COIN
  wrap64 (nSubsidy + nFees)

/-- `COIN_YEAR_REWARD`, five percent a year. -/
def COIN_YEAR_REWARD : Int := 5 * 1000000

/-- The subsidy of a coinstake before any adjustment.  The coin age is an unsigned 64-bit value passed
as a signed one, and the division truncates towards zero. -/
def coinAgeSubsidy (nCoinAge : Nat) : Int :=
  (wrap64 (wrap64 (wrap64 nCoinAge * COIN_YEAR_REWARD) * 33)).tdiv (365 * 33 + 8)

/-- `GetProofOfStakeReward`.  The third argument of the second overload multiplies the subsidy by a
floating-point number and truncates; `adjust` is that map, and the identity for the first. -/
def getProofOfStakeReward (adjust : Int → Int) (nCoinAge : Nat) (nFees : Int) : Int :=
  wrap64 (wrap64 (adjust (coinAgeSubsidy nCoinAge)) + nFees)

/-- `CScript() << key << OP_CHECKSIG`. -/
def payToPubKey (key : List UInt8) : CScript :=
  let size := key.length
  (if size < OP_PUSHDATA1 then [UInt8.ofNat size]
    else if size ≤ 0xff then [UInt8.ofNat OP_PUSHDATA1, UInt8.ofNat size]
    else if size ≤ 0xffff then
      [UInt8.ofNat OP_PUSHDATA2, UInt8.ofNat size, UInt8.ofNat (size / 256)]
    else [UInt8.ofNat OP_PUSHDATA4, UInt8.ofNat size, UInt8.ofNat (size / 256),
      UInt8.ofNat (size / 65536), UInt8.ofNat (size / 16777216)]) ++
    key ++ [UInt8.ofNat OP_CHECKSIG]

def isDevTx (P : CChainParams) (tx : CTransaction) : Bool :=
  tx.isCoinStake &&
    match tx.vout.getLast? with
    | some out => decide (payToPubKey P.devKey = out.scriptPubKey)
    | none => false

/-! ## The block -/

/-- What `ConnectBlock` reads of the index entry and of the node around it. -/
structure ConnectContext where
  nHeight : Nat
  /-- `pindex->GetBlockHash()`. -/
  hashBlock : Uint256
  /-- Whether `pindex->phashBlock` is set: not for a block under construction. -/
  phashBlock : Bool
  /-- The hash of `pprev`, 0 without one. -/
  hashPrevBlock : Uint256
  /-- The versions of `pprev` and its ancestors, from `pprev` down. -/
  versions : List Int
  nMoneySupplyPrev : Int
  nAdjustedTime : Int
  /-- Whether there are script-checking threads. -/
  fThreads : Bool
  /-- `GetCoinAge` of the coinstake, 0 when it cannot be computed. -/
  getCoinAge : CTransaction → Nat
  /-- The product of a subsidy with `GetInflationAdjustment(pindex->pprev)`, truncated. -/
  inflationAdjustment : Int → Int
  /-- The product of a reward with `0.92`, truncated. -/
  posvShare : Int → Int

/-- The variables of the transaction loop of `ConnectBlock`. -/
structure ConnectState where
  view : CoinsView
  nFees : Int
  nSigOps : Nat
  nValueIn : Int
  nValueOut : Int
  nStakeReward : Int
  vtxundo : List CTxUndo
  checks : List CScriptCheck

def ConnectState.start (view : CoinsView) : ConnectState :=
  { view := view, nFees := 0, nSigOps := 0, nValueIn := 0, nValueOut := 0, nStakeReward := 0,
    vtxundo := [], checks := [] }

section

variable (P : CChainParams) (C : Crypto) (ctx : ConnectContext)

def tooManySigOps : Stop :=
  rejectDoS 100 REJECT_INVALID "bad-blk-sigops" false

/-- The value accounting of a transaction with inputs, and its checks. -/
def connectInputs (fScriptChecks : Bool) (flags : Nat) (s : ConnectState) (tx : CTransaction) :
    Check ConnectState := do
  require (haveInputs s.view tx) (rejectDoS 100 REJECT_INVALID "bad-txns-inputs-missingorspent" false)
  let nP2SH ← orCrash (getP2SHSigOpCount s.view tx)
  let nSigOps := s.nSigOps + nP2SH
  require (decide (nSigOps ≤ MAX_BLOCK_SIGOPS)) tooManySigOps
  let nTxValueIn ← orCrash (getValueIn s.view tx)
  let nTxValueOut ← orCrash tx.getValueOut
  let checks ← checkInputs C s.view ctx.nHeight tx fScriptChecks flags ctx.fThreads
  pure { s with
    nSigOps := nSigOps
    nValueIn := wrap64 (s.nValueIn + nTxValueIn)
    nValueOut := wrap64 (s.nValueOut + nTxValueOut)
    nStakeReward := if tx.isCoinStake then wrap64 (nTxValueOut - nTxValueIn) else s.nStakeReward
    nFees := if tx.isCoinStake then s.nFees else wrap64 (s.nFees + wrap64 (nTxValueIn - nTxValueOut))
    checks := s.checks ++ checks }

def accountTx (fScriptChecks : Bool) (flags : Nat) (s : ConnectState) (tx : CTransaction) :
    Check ConnectState :=
  if tx.isCoinBase then do
    let nTxValueOut ← orCrash tx.getValueOut
    pure { s with nValueOut := wrap64 (s.nValueOut + nTxValueOut) }
  else connectInputs C ctx fScriptChecks flags s tx

/-- One turn of the transaction loop.  The undo record of the first transaction is discarded by the
caller. -/
def connectTx (fScriptChecks : Bool) (flags : Nat) (s : ConnectState) (tx : CTransaction) :
    Check ConnectState := do
  let s := { s with nSigOps := s.nSigOps + getLegacySigOpCount tx }
  require (decide (s.nSigOps ≤ MAX_BLOCK_SIGOPS)) tooManySigOps
  let s ← accountTx C ctx fScriptChecks flags s tx
  let (view, txundo) ← orCrash (updateCoins C s.view tx ctx.nHeight)
  pure { s with view := view, vtxundo := s.vtxundo ++ [txundo] }

/-- `fEnforceBIP30` is only set for a block without a hash, the check made when one is created. -/
def checkBIP30 (view : CoinsView) (block : CBlock) : Check Unit :=
  onlyIf (!ctx.phashBlock) <|
    block.vtx.forM fun tx =>
      onlyIf (!(decide (P.lastProofOfWorkHeight < ctx.nHeight) && tx.isCoinBase)) <|
        require (match view.accessCoins (C.txHash tx) with
            | some coins => coins.isPruned
            | none => true)
          (rejectDoS 100 REJECT_INVALID "bad-txns-BIP30" false)

/-- The dev fund output of a version 5 coinstake. -/
def checkDevCredit (nReward : Int) (coinstake : CTransaction) : Check Unit := do
  require (isDevTx P coinstake) (rejectDoS 100 REJECT_INVALID "bad-dev-address" false)
  let nDevEndCredit := (coinstake.vout.getLast?.map CTxOut.nValue).getD 0
  let nCalculatedDevEndCredit := wrap64 (nReward - ctx.posvShare nReward)
  require (!(isSuperMajority P 5 ctx.versions P.rejectBlockOutdatedMajority_5 &&
      decide (nDevEndCredit ≠ nCalculatedDevEndCredit) &&
      isSuperMajority P 5 ctx.versions.tail P.rejectBlockOutdatedMajority_5))
    (rejectDoS 100 REJECT_INVALID "bad-dev-amount" false)

/-- The map that the reward of a coinstake applies to its subsidy. -/
def rewardAdjustment (block : CBlock) : Int → Int :=
  if block.nVersion ≤ 4 then id else ctx.inflationAdjustment

/-- The reward limits. -/
def checkReward (block : CBlock) (s : ConnectState) : Check Unit :=
  match block.vtx with
  | [] => pure ()
  | coinbase :: rest =>
    if block.isProofOfWork then do
      let nValueOut ← orCrash coinbase.getValueOut
      require (decide (nValueOut ≤ getBlockValue ctx.nHeight s.nFees))
        (rejectDoS 100 REJECT_INVALID "bad-cb-amount" false)
    else
      match rest with
      | [] => pure ()
      | coinstake :: _ => do
        let nCoinAge := ctx.getCoinAge coinstake
        require (decide (nCoinAge ≠ 0)) (rejectDoS 100 REJECT_INVALID "bad-posv-coinage" false)
        let nReward := getProofOfStakeReward (rewardAdjustment ctx block) nCoinAge s.nFees
        onlyIf (decide (4 < block.nVersion)) (checkDevCredit P ctx nReward coinstake)
        require (decide (s.nStakeReward ≤ nReward))
          (rejectDoS 100 REJECT_INVALID "bad-posv-amount" false)

structure ConnectResult where
  view : CoinsView
  blockundo : CBlockUndo
  nMint : Int
  nMoneySupply : Int

def scriptFlags (block : CBlock) : Nat :=
  if 4 ≤ block.nVersion ∧ isSuperMajority P 4 ctx.versions P.rejectBlockOutdatedMajority_4 = true then
    SCRIPT_VERIFY_P2SH ||| SCRIPT_VERIFY_DERSIG
  else SCRIPT_VERIFY_P2SH

/-- `ConnectBlock`.  The state that a failed call leaves in its view is dropped by every caller. -/
def connectBlock (block : CBlock) (view : CoinsView) (fJustCheck : Bool) : Check ConnectResult := do
  checkBlock P C ctx.nAdjustedTime block (!fJustCheck) (!fJustCheck) true
  require (decide (ctx.hashPrevBlock = view.getBestBlock)) .crashes
  if block.getHash C = P.hashGenesisBlock then
    pure { view := view.setBestBlock ctx.hashBlock, blockundo := [], nMint := 0, nMoneySupply := 0 }
  else do
    let fScriptChecks := decide (getTotalBlocksEstimate P ≤ ctx.nHeight)
    checkBIP30 P C ctx view block
    let s ← block.vtx.foldlM (connectTx C ctx fScriptChecks (scriptFlags P ctx block))
      (ConnectState.start view)
    checkReward P ctx block s
    require (s.checks.all fun check => (check.run C).isNone) (rejectDoS 100 0 "" false)
    pure
      { view := if fJustCheck then s.view else s.view.setBestBlock ctx.hashBlock
        blockundo := s.vtxundo.tail
        nMint := wrap64 (wrap64 (s.nValueOut - s.nValueIn) + s.nFees)
        nMoneySupply := wrap64 (wrap64 (ctx.nMoneySupplyPrev + s.nValueOut) - s.nValueIn) }

end

end Reddcoin

/-!
## Disconnecting a block

`DisconnectBlock` of `main.cpp`, on the undo data as it is read back from disk.
-/

namespace Reddcoin

/-- `resize` to at least `n + 1` outputs and `vout[n] = out`. -/
def CCoins.setOut (c : CCoins) (n : Nat) (out : CTxOut) : CCoins :=
  { c with vout := (c.vout ++ List.replicate (n + 1 - c.vout.length) CTxOut.null).set n out }

/-- What the restoring code makes of the entry of a spent output. -/
def CCoins.restore (c : CCoins) (n : Nat) (undo : CTxInUndo) : CCoins :=
  CCoins.setOut
    (if undo.nHeight ≠ 0 then
      { c.clear with fCoinBase := undo.fCoinBase, nHeight := undo.nHeight, nVersion := undo.nVersion }
    else c)
    n undo.txout

/-- Whether restoring finds the entry as it should be. -/
def restoreClean (c : CCoins) (n : Nat) (undo : CTxInUndo) : Bool :=
  if undo.nHeight ≠ 0 then c.isPruned else !c.isPruned && !c.isAvailable n

def restoreInput (s : CoinsView × Bool) (txin : CTxIn) (undo : CTxInUndo) : CoinsView × Bool :=
  let coins := s.1.coins txin.prevout.hash
  (s.1.modifyCoins txin.prevout.hash fun c => c.restore txin.prevout.n undo,
    s.2 && restoreClean coins txin.prevout.n undo)

/-- The inputs of a transaction are restored from the last to the first. -/
def restoreInputs (s : CoinsView × Bool) : List (CTxIn × CTxInUndo) → CoinsView × Bool
  | [] => s
  | (txin, undo) :: rest => restoreInput (restoreInputs s rest) txin undo

/-- The entry of a transaction as `DisconnectBlock` compares it with the block's own.  Negative
versions and a missing time are patched from the block. -/
def outsFound (c outsBlock : CCoins) : CCoins :=
  let outs := c.clearUnspendable
  let outs := if outsBlock.nVersion < 0 then { outs with nVersion := outsBlock.nVersion } else outs
  if outs.nTime = 0 ∧ outsBlock.nTime ≠ 0 then { outs with nTime := outsBlock.nTime } else outs

def removeOutputs (C : Crypto) (nHeight : Nat) (s : CoinsView × Bool) (tx : CTransaction) :
    CoinsView × Bool :=
  let outsBlock := CCoins.fromTx tx nHeight
  (s.1.modifyCoins (C.txHash tx) fun c => (outsFound c outsBlock).clear,
    s.2 && (outsFound (s.1.coins (C.txHash tx)) outsBlock).same outsBlock)

/-- One turn of the loop of `DisconnectBlock`; the first transaction has no undo record. -/
def disconnectTx (C : Crypto) (nHeight : Nat) (s : CoinsView × Bool) (tx : CTransaction)
    (txundo? : Option CTxUndo) : Check (CoinsView × Bool) :=
  let s := removeOutputs C nHeight s tx
  match txundo? with
  | none => pure s
  | some txundo => do
    require (decide (txundo.length = tx.vin.length)) returnError
    pure (restoreInputs s (tx.vin.zip txundo))

/-- The transactions are undone from the last to the first. -/
def disconnectTxs (C : Crypto) (nHeight : Nat) (s : CoinsView × Bool) :
    List (CTransaction × Option CTxUndo) → Check (CoinsView × Bool)
  | [] => pure s
  | (tx, txundo?) :: rest => do
    let s ← disconnectTxs C nHeight s rest
    disconnectTx C nHeight s tx txundo?

/-- The transactions that the loop visits.  Its bound `i >= block.IsProofOfStake() ? 1 : 0` compares
`i` with the flag, so a proof-of-stake block keeps its coinbase. -/
def undoneTxs (block : CBlock) (blockUndo : CBlockUndo) : List (CTransaction × Option CTxUndo) :=
  let all := block.vtx.zip (none :: blockUndo.map some)
  if block.isProofOfStake then all.tail else all

/-- Undo data as `ReadFromDisk` returns it. -/
def CBlockUndo.reread (blockUndo : CBlockUndo) : Option CBlockUndo :=
  blockUndo.mapM fun txundo => txundo.mapM CTxInUndo.reread

/-- `DisconnectBlock`: the view, and whether every entry was found as expected. -/
def disconnectBlock (C : Crypto) (ctx : ConnectContext) (block : CBlock) (written : CBlockUndo)
    (view : CoinsView) : Check (CoinsView × Bool) := do
  require (decide (ctx.hashBlock = view.getBestBlock)) .crashes
  match CBlockUndo.reread written with
  | none => .error returnError
  | some blockUndo => do
    require (decide (blockUndo.length + 1 = block.vtx.length)) returnError
    let s ← disconnectTxs C ctx.nHeight (view, true) (undoneTxs block blockUndo)
    pure (s.1.setBestBlock ctx.hashPrevBlock, s.2)

end Reddcoin
