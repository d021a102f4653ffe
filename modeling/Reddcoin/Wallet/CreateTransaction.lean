import Reddcoin.Lib.Rising
import Reddcoin.Mempool.FeeEstimator
import Reddcoin.Script.Destination
import Reddcoin.Wallet.Balance
import Reddcoin.Wallet.SelectedCoins

/-!
# Creating a transaction

`CWallet::CreateTransaction` tries a fee, chooses coins for the payments and the fee, and tries again with a larger fee while
the fee is too small for the transaction that came of it.
-/

namespace Reddcoin

open CoinSelection

def DUST_THRESHOLD : Int := 100000000
def MAX_STANDARD_TX_SIZE : Nat := 100000
def MAX_FREE_TRANSACTION_CREATE_SIZE : Nat := 1000

/-- `CTxOut::IsDust`: detection is disabled. -/
def CTxOut.isDust (_ : CTxOut) (_ : CFeeRate) : Bool :=
  false

/-! ## The wallet -/

/-- A transaction in memory; its outputs are numbered by an `unsigned int`. -/
structure StoredTx where
  tx : CTransaction
  size : tx.vout.length < 2 ^ 32

/-- An unlocked wallet, with what it and the node tell of its transactions. -/
structure SpendWallet where
  /-- `mapWallet` in its order. -/
  mapWallet : List (Uint256 × StoredTx)
  keys : (mapWallet.map Prod.fst).Nodup
  isFinalTx : CTransaction → Bool
  isTrusted : Uint256 → Bool
  getBlocksToMaturity : Uint256 → Int
  getDepthInMainChain : Uint256 → Int
  isMine : CTxOut → IsMineType
  isSpent : Uint256 → Nat → Bool
  isLockedCoin : Uint256 → Nat → Bool
  /-- `IsFromMe(ISMINE_ALL)`. -/
  isFromMe : FromMe
  bSpendZeroConfChange : Bool
  /-- Where a transaction lies in memory, which is how a set of coins is ordered. -/
  address : Uint256 → Nat
  /-- `SignSignature`: the script for an input, which spends from the transaction of the hash. -/
  signSignature : Uint256 → CTransaction → Nat → Option CScript

structure CCoinControl where
  destChange : TxDestination
  setSelected : List (Uint256 × Nat)

/-- `coinControl && coinControl->HasSelected()`. -/
def hasSelected : Option CCoinControl → Bool
  | none => false
  | some coinControl => !coinControl.setSelected.isEmpty

local instance : LawfulBEq (Uint256 × Nat) := inferInstance

def isSelected (coinControl : Option CCoinControl) (outpoint : Uint256 × Nat) : Bool :=
  match coinControl with
  | none => true
  | some coinControl => coinControl.setSelected.isEmpty || decide (outpoint ∈ coinControl.setSelected)

namespace SpendWallet

variable (W : SpendWallet) (coinControl : Option CCoinControl)

def outputOf (wtxid : Uint256) (pcoin : StoredTx) (i : Fin pcoin.tx.vout.length) : DeepOutput where
  tx := pcoin.tx
  i := i
  fSpendable := decide (W.isMine pcoin.tx.vout[i] = .spendable)
  txout := pcoin.tx.vout[i]
  found := List.getElem?_eq_getElem i.2
  in_range := by
    have hsize := pcoin.size
    omega
  hash := wtxid
  nDepth := W.getDepthInMainChain wtxid

/-- The tests of `AvailableCoins` on an output. -/
def offers (output : DeepOutput) : Bool :=
  !W.isSpent output.hash output.i && decide (W.isMine output.txout ≠ .no) && !W.isLockedCoin output.hash output.i &&
    decide (0 < output.txout.nValue) && isSelected coinControl (output.hash, output.i)

/-- The outputs of one transaction that `AvailableCoins` offers. -/
def availableOf (wtxid : Uint256) (pcoin : StoredTx) : List DeepOutput :=
  if !W.isFinalTx pcoin.tx then []
  else if !W.isTrusted wtxid then []
  else if (pcoin.tx.isCoinBase || pcoin.tx.isCoinStake) && decide (0 < W.getBlocksToMaturity wtxid) then []
  else if W.getDepthInMainChain wtxid < 0 then []
  else ((List.finRange pcoin.tx.vout.length).map (W.outputOf wtxid pcoin)).filter (W.offers coinControl)

/-- `AvailableCoins(vCoins, true, coinControl)`. -/
def availableCoins : List DeepOutput :=
  W.mapWallet.flatMap fun entry => W.availableOf coinControl entry.1 entry.2

/-- `SelectCoins`; the three calls of `SelectCoinsMinConf` have an outcome each. -/
def selectCoins (outcome : Fin 3 → Outcome) (nTargetValue : Int) : Bool × Selected :=
  let vCoins := W.availableCoins coinControl
  -- Coin control: return all selected outputs.
  if hasSelected coinControl then
    let selected := ((vCoins.filter fun out => out.fSpendable).map DeepOutput.coin).foldl Selected.add ⟨[], 0⟩
    (decide (nTargetValue ≤ selected.nValueRet), selected)
  else
    let first := selectCoinsMinConf W.isFromMe (outcome 0) nTargetValue 1 6 vCoins
    if first.1 then first
    else
      let second := selectCoinsMinConf W.isFromMe (outcome 1) nTargetValue 1 1 vCoins
      if second.1 then second
      else if W.bSpendZeroConfChange then selectCoinsMinConf W.isFromMe (outcome 2) nTargetValue 0 1 vCoins
      else second

/-- The order of a set of pairs of a pointer and an index. -/
def outpointBefore (a b : Uint256 × Nat) : Prop :=
  W.address a.1 < W.address b.1 ∨ W.address a.1 = W.address b.1 ∧ a.2 ≤ b.2

instance (a b : Uint256 × Nat) : Decidable (W.outpointBefore a b) :=
  inferInstanceAs (Decidable (_ ∨ _))

/-- The inputs are signed one after the other. -/
def signCoins : List (Uint256 × Nat) → Nat → CTransaction → Option CTransaction
  | [], _, txNew => some txNew
  | coin :: setCoins, nIn, txNew =>
    match W.signSignature coin.1 txNew nIn with
    | none => none
    | some scriptSig =>
      signCoins setCoins (nIn + 1)
        { txNew with vin := txNew.vin.modify nIn fun txin => { txin with scriptSig := scriptSig } }

end SpendWallet

/-! ## The fee -/

structure SendSettings where
  payTxFee : CFeeRate
  minRelayTxFee : CFeeRate
  minTxFee : CFeeRate
  /-- `mempool.estimateFee(nTxConfirmTarget)`. -/
  estimatedFee : CFeeRate
  fPayAtLeastCustomFee : Bool
  fSendFreeTransactions : Bool
  /-- `nVersion` and `nTime` of a new transaction. -/
  nVersion : Int
  nAdjustedTime : Nat

def SendSettings.getMinimumFee (S : SendSettings) (nTxBytes : Nat) : Int :=
  let nFeeNeeded := S.payTxFee.getFee nTxBytes
  -- Prevent user from paying a non-sense fee.
  let nFeeNeeded := if 0 < nFeeNeeded ∧ nFeeNeeded < S.minRelayTxFee.getFee nTxBytes then
      S.minRelayTxFee.getFee nTxBytes
    else nFeeNeeded
  -- User selected total at least.
  let nFeeNeeded := if S.fPayAtLeastCustomFee = true ∧ 0 < nFeeNeeded ∧ nFeeNeeded < S.payTxFee.getFeePerK then
      S.payTxFee.getFeePerK
    else nFeeNeeded
  let nFeeNeeded := if nFeeNeeded = 0 then S.estimatedFee.getFee nTxBytes else nFeeNeeded
  if nFeeNeeded = 0 then S.minTxFee.getFee nTxBytes else nFeeNeeded

/-! ## The transaction -/

abbrev Payment := CScript × Int

/-- The sum of the amounts; `none` when it is found to be negative before an amount or at the end. -/
def sumAmounts : List Payment → Int → Option Int
  | [], nValue => if nValue < 0 then none else some nValue
  | s :: vecSend, nValue => if nValue < 0 then none else sumAmounts vecSend (wrap64 (nValue + s.2))

def Payment.txOut (s : Payment) : CTxOut :=
  { nValue := s.2, scriptPubKey := s.1 }

/-- 1000 for each small payment. -/
def nBytesPenaltyOf (vecSend : List Payment) : Nat :=
  (1000 * (vecSend.filter fun s => decide (s.2 < DUST_THRESHOLD)).length) % 2 ^ 32

/-- What is left to chance, or to floating point numbers, in one turn. -/
structure TurnChance where
  outcome : Fin 3 → Outcome
  /-- `GetRandInt`. -/
  getRandInt : Nat → Nat
  getRandInt_lt : ∀ nMax, 0 < nMax → getRandInt nMax < nMax
  /-- `GetReservedKey`, which succeeds in an unlocked wallet. -/
  reservedKey : UInt160
  /-- Whether the priority is high enough to send for free. -/
  enoughPriority : Bool

structure Sent where
  wtxNew : CTransaction
  nFeeRet : Int
deriving DecidableEq

/-- The script that change is paid to. -/
def scriptChangeOf (coinControl : Option CCoinControl) (chance : TurnChance) : CScript :=
  match coinControl with
  | none => getScriptForDestination (.keyID chance.reservedKey)
  | some coinControl =>
    if coinControl.destChange ≠ .noDestination then getScriptForDestination coinControl.destChange
    else getScriptForDestination (.keyID chance.reservedKey)

section

variable (W : SpendWallet) (S : SendSettings) (coinControl : Option CCoinControl) (vecSend : List Payment)

/-- The change and the fee that comes of it: dust would be added to the fee. -/
def addChange (chance : TurnChance) (nChange nFeeRet : Int) (vout : List CTxOut) : List CTxOut × Int :=
  if 0 < nChange then
    let newTxOut : CTxOut := { nValue := nChange, scriptPubKey := scriptChangeOf coinControl chance }
    if newTxOut.isDust S.minRelayTxFee then (vout, wrap64 (nFeeRet + nChange))
    -- Insert change txn at random position.
    else (vout.insertIdx (chance.getRandInt (vout.length + 1)) newTxOut, nFeeRet)
  else (vout, nFeeRet)

/-- The transaction before it is signed. -/
def txOfCoins (setCoins : List (Uint256 × Nat)) (vout : List CTxOut) : CTransaction where
  nVersion := S.nVersion
  vin := (setCoins.insertionSort W.outpointBefore).map fun coin =>
    { prevout := { hash := coin.1, n := coin.2 }, scriptSig := [], nSequence := 2 ^ 32 - 1 }
  vout := vout
  nLockTime := 0
  nTime := S.nAdjustedTime

/-- One turn of the loop with the fee `nFeeRet`: the result, or the fee of the next turn. -/
def createTurn (chance : TurnChance) (nValue nFeeRet : Int) : Except String Sent ⊕ Int :=
  let nTotalValue := wrap64 (nValue + nFeeRet)
  let vout := vecSend.map Payment.txOut
  if vout.any fun txout => txout.isDust S.minRelayTxFee then .inl (.error "Transaction amount too small")
  else
    let nBytesPenalty := nBytesPenaltyOf vecSend
    -- Choose coins to use.
    let (fFound, selected) := W.selectCoins coinControl chance.outcome nTotalValue
    if !fFound then .inl (.error "Insufficient funds")
    else
      let nChange := wrap64 (wrap64 (selected.nValueRet - nValue) - nFeeRet)
      let (vout, nFeeRet) := addChange S coinControl chance nChange nFeeRet vout
      match W.signCoins (selected.setCoinsRet.insertionSort W.outpointBefore) 0
          (txOfCoins W S selected.setCoinsRet vout) with
      | none => .inl (.error "Signing transaction failed")
      | some wtxNew =>
        -- Limit size.
        let nBytes := wtxNew.serializeSize % 2 ^ 32
        if MAX_STANDARD_TX_SIZE ≤ nBytes then .inl (.error "Transaction too large")
        -- Can we complete this as a free transaction?
        else if nBytesPenalty = 0 ∧ S.fSendFreeTransactions = true ∧ nBytes ≤ MAX_FREE_TRANSACTION_CREATE_SIZE ∧
            chance.enoughPriority = true then .inl (.ok { wtxNew := wtxNew, nFeeRet := nFeeRet })
        else
          let nFeeNeeded := S.getMinimumFee ((nBytes + nBytesPenalty) % 2 ^ 32)
          if nFeeNeeded < S.minRelayTxFee.getFee nBytes then .inl (.error "Transaction too large for fee policy")
          -- Done, enough fee included.
          else if nFeeNeeded ≤ nFeeRet then .inl (.ok { wtxNew := wtxNew, nFeeRet := nFeeRet })
          else .inr nFeeNeeded

/-- `CreateTransaction`, with the outcomes of each turn; `none` when the loop has not ended after the turns. -/
def createTransaction (chance : Nat → TurnChance) (turns : Nat) : Option (Except String Sent) :=
  match (if vecSend.isEmpty then none else sumAmounts vecSend 0) with
  | none => some (.error "Transaction amounts must be positive")
  | some nValue => Rising.run (fun k => createTurn W S coinControl vecSend (chance k) nValue) turns 0 0

end

end Reddcoin
