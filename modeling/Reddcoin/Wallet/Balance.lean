import Reddcoin.Mempool.ChainTip
import Reddcoin.Primitives.MerkleBranch

/-!
# The balance of a wallet

The transactions of a `CWallet` with the amounts that they remember, and the ways in which the node tells the wallet
about transactions: `SyncTransaction`, after the pool or the tip has changed, and `CommitTransaction`.
-/

namespace Reddcoin

/-! ## Merkle branches -/

/-- The loop of `GetMerkleBranch` over the levels of the tree.  A level of more than one hash is longer than the one
above it. -/
def merkleBranchLoop (hash : Uint256 → Uint256 → Uint256) : Nat → List Uint256 → Nat → List Uint256
  | turns + 1, a :: b :: rest, nIndex =>
    let level := a :: b :: rest
    (level[min (nIndex ^^^ 1) (level.length - 1)]?).getD 0 ::
      merkleBranchLoop hash turns (merkleLevel hash level).1 (nIndex / 2)
  | _, _, _ => []

def CBlock.getMerkleBranch (C : Crypto) (block : CBlock) (nIndex : Nat) : List Uint256 :=
  merkleBranchLoop C.merkleHash block.vtx.length (block.vtx.map C.txHash) nIndex

def checkMerkleBranch (C : Crypto) (hash : Uint256) : List Uint256 → Nat → Uint256
  | [], _ => hash
  | h :: vMerkleBranch, nIndex =>
    checkMerkleBranch C (if nIndex % 2 = 1 then C.merkleHash h hash else C.merkleHash hash h) vMerkleBranch (nIndex / 2)

theorem merkleBranchLoop_eq (hash : Uint256 → Uint256 → Uint256) (turns : Nat) (l : List Uint256)
    (hl : l.length ≤ turns) (nIndex : Nat) :
    merkleBranchLoop hash turns l nIndex = Merkle.siblings hash 0 l nIndex := by
  induction turns generalizing l nIndex with
  | zero =>
    obtain rfl : l = [] := List.length_eq_zero_iff.mp (by omega)
    simp [merkleBranchLoop, Merkle.siblings]
  | succ turns ih =>
    cases l with
    | nil => simp [merkleBranchLoop, Merkle.siblings]
    | cons a tail =>
      cases tail with
      | nil => simp [merkleBranchLoop, Merkle.siblings]
      | cons b rest =>
        have hlong : 1 < (a :: b :: rest).length := by simp
        have hshort : (Merkle.pairUp hash (a :: b :: rest)).length ≤ turns := by
          rw [Merkle.length_pairUp]
          simp only [List.length_cons] at hl ⊢
          omega
        rw [merkleBranchLoop, merkleLevel_eq, ih _ hshort, Merkle.siblings.eq_def hash 0 (a :: b :: rest),
          if_pos hlong, List.getD_eq_getElem?_getD]

theorem checkMerkleBranch_eq_vector {C : Crypto} (hash : Uint256) (vMerkleBranch : List Uint256) (nIndex : Nat) :
    MerkleVector.checkMerkleBranch C hash vMerkleBranch nIndex = checkMerkleBranch C hash vMerkleBranch nIndex := by
  rw [MerkleVector.checkMerkleBranch_eq]
  induction vMerkleBranch generalizing hash nIndex with
  | nil => rfl
  | cons h rest ih => exact ih _ _

/-! ## The wallet -/

/-- `isminetype`. -/
inductive IsMineType where
  | no
  | watchOnly
  | spendable
deriving DecidableEq

/-- The keys of the wallet, and an option. -/
structure WalletKeys where
  isMine : CTxOut → IsMineType
  bSpendZeroConfChange : Bool

/-- A transaction of the wallet.  An amount is `none` while its flag says that it is not cached. -/
structure CWalletTx where
  tx : CTransaction
  /-- The hash that the transaction stores: 0 in an object made without a transaction. -/
  hash : Uint256
  hashBlock : Uint256
  vMerkleBranch : List Uint256
  /-- The position in the block; `none` is -1. -/
  nIndex : Option Nat
  nDebitCached : Option Int
  nWatchDebitCached : Option Int
  nAvailableCreditCached : Option Int

structure CWallet where
  mapWallet : AList fun _ : Uint256 => CWalletTx
  /-- The outpoints with the transactions that spend them. -/
  mapTxSpends : List (COutPoint × Uint256)
  setLockedCoins : List COutPoint

namespace CWalletTx

/-- The constructor from a transaction. -/
def ofTx (C : Crypto) (tx : CTransaction) : CWalletTx where
  tx := tx
  hash := C.txHash tx
  hashBlock := 0
  vMerkleBranch := []
  nIndex := none
  nDebitCached := none
  nWatchDebitCached := none
  nAvailableCreditCached := none

/-- The empty constructor. -/
def new : CWalletTx where
  tx := { nVersion := 2, vin := [], vout := [], nLockTime := 0, nTime := 0 }
  hash := 0
  hashBlock := 0
  vMerkleBranch := []
  nIndex := none
  nDebitCached := none
  nWatchDebitCached := none
  nAvailableCreditCached := none

/-- `MarkDirty`, and `BindWallet`. -/
def markDirty (wtx : CWalletTx) : CWalletTx :=
  { wtx with nDebitCached := none, nWatchDebitCached := none, nAvailableCreditCached := none }

def setMerkleBranch (C : Crypto) (wtx : CWalletTx) (block : CBlock) : CWalletTx :=
  match block.vtx.findIdx? fun tx => decide (C.txHash tx = wtx.hash) with
  | none => { wtx with hashBlock := block.getHash C, vMerkleBranch := [], nIndex := none }
  | some nIndex =>
    { wtx with
      hashBlock := block.getHash C, vMerkleBranch := block.getMerkleBranch C nIndex, nIndex := some nIndex }

/-- What `AddToWallet` takes over into a transaction that the wallet has. -/
def merge (wtx wtxIn : CWalletTx) : CWalletTx :=
  let wtx := if wtxIn.hashBlock ≠ 0 then { wtx with hashBlock := wtxIn.hashBlock } else wtx
  if wtxIn.nIndex ≠ none then { wtx with vMerkleBranch := wtxIn.vMerkleBranch, nIndex := wtxIn.nIndex } else wtx

end CWalletTx

namespace CWallet

section

variable (C : Crypto) (keys : WalletKeys)

/-- Writes to the wallet's file are taken to succeed. -/
def addToWallet (w : CWallet) (wtxIn : CWalletTx) : CWallet :=
  match w.mapWallet.lookup wtxIn.hash with
  | some wtx => { w with mapWallet := w.mapWallet.insert wtxIn.hash (wtx.merge wtxIn).markDirty }
  | none =>
    { w with
      mapWallet := w.mapWallet.insert wtxIn.hash wtxIn.markDirty
      -- `AddToSpends`: coinbases don't spend anything
      mapTxSpends := if wtxIn.tx.isCoinBase then w.mapTxSpends
        else w.mapTxSpends ++ wtxIn.tx.vin.map fun txin => (txin.prevout, wtxIn.hash) }

/-- `GetDebit` of one input, for the outputs that are mine in the sense of `filter`. -/
def getInputDebit (filter : IsMineType → Bool) (w : CWallet) (txin : CTxIn) : Int :=
  match (w.mapWallet.lookup txin.prevout.hash).bind fun prev => prev.tx.vout[txin.prevout.n]? with
  | some out => if filter (keys.isMine out) then out.nValue else 0
  | none => 0

/-- `GetDebit`.  The inputs of a transaction that was checked sum up to a value in range. -/
def getDebit (filter : IsMineType → Bool) (w : CWallet) (tx : CTransaction) : Int :=
  (tx.vin.map (getInputDebit keys filter w)).sum

def isMineTx (tx : CTransaction) : Bool :=
  tx.vout.any fun out => decide (keys.isMine out ≠ .no)

def isFromMe (w : CWallet) (tx : CTransaction) : Bool :=
  decide (0 < getDebit keys (fun mine => decide (mine ≠ .no)) w tx)

/-- `AddToWalletIfInvolvingMe` with `fUpdate`; `none` when it returns false. -/
def addToWalletIfInvolvingMe (w : CWallet) (tx : CTransaction) (pblock : Option CBlock) : Option CWallet :=
  if (w.mapWallet.lookup (C.txHash tx)).isSome || isMineTx keys tx || w.isFromMe keys tx then
    let wtx := CWalletTx.ofTx C tx
    some (w.addToWallet (match pblock with
      | some block => wtx.setMerkleBranch C block
      | none => wtx))
  else none

/-- `mapWallet[hash].MarkDirty()` for a transaction that is there. -/
def markDirty (w : CWallet) (hash : Uint256) : CWallet :=
  match w.mapWallet.lookup hash with
  | some wtx => { w with mapWallet := w.mapWallet.insert hash wtx.markDirty }
  | none => w

/-- `mapWallet[hash].BindWallet(this)`, which makes an entry that is not there. -/
def bindWallet (w : CWallet) (hash : Uint256) : CWallet :=
  { w with mapWallet := w.mapWallet.insert hash ((w.mapWallet.lookup hash).getD CWalletTx.new).markDirty }

def syncTransaction (w : CWallet) (tx : CTransaction) (pblock : Option CBlock) : CWallet :=
  match w.addToWalletIfInvolvingMe C keys tx pblock with
  | none => w
  | some w => tx.vin.foldl (fun w txin => w.markDirty txin.prevout.hash) w

/-- `SyncWithWallets` for one transaction after the other. -/
def syncAll (w : CWallet) (calls : List (CTransaction × Option CBlock)) : CWallet :=
  calls.foldl (fun w call => w.syncTransaction C keys call.1 call.2) w

end

end CWallet

/-! ## Depth -/

/-- The block of the chain with the given hash, and how many blocks end with it. -/
def findActive (C : Crypto) (hash : Uint256) : List ConnectedBlock → Option (CBlock × Nat)
  | [] => none
  | tip :: rest =>
    if tip.block.getHash C = hash then some (tip.block, 1)
    else (findActive C hash rest).map fun found => (found.1, found.2 + 1)

namespace CWalletTx

variable (C : Crypto) (node : ChainNode)

/-- `GetDepthInMainChainINTERNAL`.  The flag that remembers that the branch connects to the block is left out. -/
def getDepthInActive (wtx : CWalletTx) : Int :=
  match wtx.nIndex with
  | none => 0
  | some nIndex =>
    if wtx.hashBlock = 0 then 0
    else
      match findActive C wtx.hashBlock node.active with
      | none => 0
      | some (block, nDepth) =>
        if checkMerkleBranch C wtx.hash wtx.vMerkleBranch nIndex ≠ block.hashMerkleRoot then 0 else nDepth

def getDepthInMainChain (wtx : CWalletTx) : Int :=
  let nResult := wtx.getDepthInActive C node
  if nResult = 0 ∧ node.mempool.has wtx.hash = false then -1 else nResult

def getBlocksToMaturity (wtx : CWalletTx) : Int :=
  if wtx.tx.isCoinBase || wtx.tx.isCoinStake then max 0 (COINBASE_MATURITY + 20 - wtx.getDepthInMainChain C node) else 0

/-- The transaction is a coinbase or coinstake that cannot be spent yet. -/
def isImmature (wtx : CWalletTx) : Bool :=
  (wtx.tx.isCoinBase || wtx.tx.isCoinStake) && decide (0 < wtx.getBlocksToMaturity C node)

end CWalletTx

/-! ## Credit -/

namespace CWallet

section

variable (C : Crypto) (keys : WalletKeys) (node : ChainNode)

def isSpent (w : CWallet) (o : COutPoint) : Bool :=
  w.mapTxSpends.any fun spend => decide (spend.1 = o) &&
    match w.mapWallet.lookup spend.2 with
    | some wtx => decide (0 ≤ wtx.getDepthInMainChain C node)
    | none => false

/-- `GetCredit` of one output. -/
def getCredit (out : CTxOut) : Option Int :=
  if moneyRange out.nValue then some (if keys.isMine out = .spendable then out.nValue else 0) else none

/-- The loop of `GetAvailableCredit` from the `i`th output on; `none` when it throws. -/
def sumCredit (w : CWallet) (hashTx : Uint256) : Nat → List CTxOut → Int → Option Int
  | _, [], nCredit => some nCredit
  | i, out :: vout, nCredit =>
    if w.isSpent C node { hash := hashTx, n := i } then sumCredit w hashTx (i + 1) vout nCredit
    else do
      let credit ← getCredit keys out
      let nCredit := wrap64 (nCredit + credit)
      if moneyRange nCredit then sumCredit w hashTx (i + 1) vout nCredit else none

/-- `GetAvailableCredit`, with the transaction as it is left. -/
def getAvailableCredit (w : CWallet) (wtx : CWalletTx) (fUseCache : Bool) : Option (Int × CWalletTx) :=
  if wtx.isImmature C node then some (0, wtx)
  else
    match if fUseCache then wtx.nAvailableCreditCached else none with
    | some nCredit => some (nCredit, wtx)
    | none =>
      (w.sumCredit C keys node wtx.hash 0 wtx.tx.vout 0).map fun nCredit =>
        (nCredit, { wtx with nAvailableCreditCached := some nCredit })

/-! ## Trust -/

/-- `IsFinalTx` at the tip. -/
def isFinalAtTip (nAdjustedTime : Int) (tx : CTransaction) : Bool :=
  decide (tx.nLockTime = 0) ||
    decide ((tx.nLockTime : Int) < if tx.nLockTime < LOCKTIME_THRESHOLD then (node.height : Int) else nAdjustedTime) ||
    tx.vin.all CTxIn.isFinal

/-- `GetDebit(ISMINE_ALL)` of a transaction of the wallet, which remembers the two parts. -/
def getDebitCached (w : CWallet) (wtx : CWalletTx) : Int × CWalletTx :=
  if wtx.tx.vin.isEmpty then (0, wtx)
  else
    let debit := wtx.nDebitCached.getD (w.getDebit keys (fun mine => decide (mine = .spendable)) wtx.tx)
    let watch := wtx.nWatchDebitCached.getD (w.getDebit keys (fun mine => decide (mine = .watchOnly)) wtx.tx)
    (debit + watch, { wtx with nDebitCached := some debit, nWatchDebitCached := some watch })

/-- The loop of `IsTrusted`: every input is an output of the wallet that can be spent. -/
def inputsAreMine (w : CWallet) (tx : CTransaction) : Bool :=
  tx.vin.all fun txin =>
    match (w.mapWallet.lookup txin.prevout.hash).bind fun parent => parent.tx.vout[txin.prevout.n]? with
    | some out => decide (keys.isMine out = .spendable)
    | none => false

def isTrusted (nAdjustedTime : Int) (w : CWallet) (wtx : CWalletTx) : Bool × CWalletTx :=
  if !isFinalAtTip node nAdjustedTime wtx.tx then (false, wtx)
  else if 1 ≤ wtx.getDepthInMainChain C node then (true, wtx)
  else if wtx.getDepthInMainChain C node < 0 then (false, wtx)
  else if !keys.bSpendZeroConfChange then (false, wtx)
  else
    let (debit, wtx) := w.getDebitCached keys wtx
    (decide (0 < debit) && inputsAreMine keys w wtx.tx, wtx)

/-! ## Balances -/

/-- The transactions of the wallet in the order of a `std::map`. -/
def sortedKeys (w : CWallet) : List Uint256 :=
  w.mapWallet.keys.insertionSort (· ≤ ·)

def setTx (w : CWallet) (hash : Uint256) (wtx : CWalletTx) : CWallet :=
  { w with mapWallet := w.mapWallet.insert hash wtx }

/-- Which transactions a balance counts. -/
inductive BalanceKind where
  | trusted
  | unconfirmed

/-- Whether the balance counts the transaction. -/
def counts (kind : BalanceKind) (nAdjustedTime : Int) (w : CWallet) (wtx : CWalletTx) : Bool × CWalletTx :=
  match kind with
  | .trusted => w.isTrusted C keys node nAdjustedTime wtx
  | .unconfirmed =>
    if !isFinalAtTip node nAdjustedTime wtx.tx then (true, wtx)
    else
      let (trusted, wtx) := w.isTrusted C keys node nAdjustedTime wtx
      (!trusted && decide (wtx.getDepthInMainChain C node = 0), wtx)

/-- The loop of `GetBalance` and `GetUnconfirmedBalance`. -/
def balanceLoop (kind : BalanceKind) (nAdjustedTime : Int) :
    List Uint256 → CWallet → Int → Option (Int × CWallet)
  | [], w, nTotal => some (nTotal, w)
  | hash :: hashes, w, nTotal =>
    match w.mapWallet.lookup hash with
    | none => balanceLoop kind nAdjustedTime hashes w nTotal
    | some wtx =>
      let (counted, wtx) := w.counts C keys node kind nAdjustedTime wtx
      if counted then do
        let (nCredit, wtx) ← w.getAvailableCredit C keys node wtx true
        balanceLoop kind nAdjustedTime hashes (w.setTx hash wtx) (wrap64 (nTotal + nCredit))
      else balanceLoop kind nAdjustedTime hashes (w.setTx hash wtx) nTotal

def getBalance (nAdjustedTime : Int) (w : CWallet) : Option (Int × CWallet) :=
  w.balanceLoop C keys node .trusted nAdjustedTime w.sortedKeys 0

def getUnconfirmedBalance (nAdjustedTime : Int) (w : CWallet) : Option (Int × CWallet) :=
  w.balanceLoop C keys node .unconfirmed nAdjustedTime w.sortedKeys 0

/-- A `COutput`. -/
structure AvailableCoin where
  tx : CTransaction
  i : Nat
  nDepth : Int
  fSpendable : Bool
  nValue : Int

/-- The outputs of one transaction that `AvailableCoins` offers, from the `i`th on. -/
def availableOutputs (w : CWallet) (wtxid : Uint256) (wtx : CWalletTx) : Nat → List CTxOut → List AvailableCoin
  | _, [] => []
  | i, out :: vout =>
    let others := availableOutputs w wtxid wtx (i + 1) vout
    if !w.isSpent C node { hash := wtxid, n := i } && decide (keys.isMine out ≠ .no) &&
        !decide ({ hash := wtxid, n := i } ∈ w.setLockedCoins) && decide (0 < out.nValue) then
      { tx := wtx.tx, i := i, nDepth := wtx.getDepthInMainChain C node,
        fSpendable := decide (keys.isMine out = .spendable), nValue := out.nValue } :: others
    else others

/-- The loop of `AvailableCoins(vCoins, true)` without coin control. -/
def availableCoinsLoop (nAdjustedTime : Int) :
    List Uint256 → CWallet → List AvailableCoin → List AvailableCoin × CWallet
  | [], w, vCoins => (vCoins, w)
  | wtxid :: wtxids, w, vCoins =>
    match w.mapWallet.lookup wtxid with
    | none => availableCoinsLoop nAdjustedTime wtxids w vCoins
    | some wtx =>
      if !isFinalAtTip node nAdjustedTime wtx.tx then availableCoinsLoop nAdjustedTime wtxids w vCoins
      else
        let (trusted, wtx) := w.isTrusted C keys node nAdjustedTime wtx
        let w := w.setTx wtxid wtx
        if !trusted || wtx.isImmature C node || decide (wtx.getDepthInMainChain C node < 0) then
          availableCoinsLoop nAdjustedTime wtxids w vCoins
        else
          availableCoinsLoop nAdjustedTime wtxids w
            (vCoins ++ w.availableOutputs C keys node wtxid wtx 0 wtx.tx.vout)

def availableCoins (nAdjustedTime : Int) (w : CWallet) : List AvailableCoin × CWallet :=
  w.availableCoinsLoop C keys node nAdjustedTime w.sortedKeys []

end

end CWallet

/-! ## The node and its wallet -/

structure WalletNode where
  node : ChainNode
  wallet : CWallet

namespace WalletNode

section

variable (P : CChainParams) (C : Crypto) (keys : WalletKeys) (s : WalletNode)

/-- `AcceptToMemoryPool`, which leaves everything as it was when it refuses. -/
def accept (policy : RelayPolicy) (tx : CTransaction) : WalletNode :=
  match s.node.accept P C policy tx with
  | .accepted pool =>
    { node := { s.node with mempool := pool }, wallet := s.wallet.syncTransaction C keys tx none }
  | _ => s

/-- `ConnectTip`: the wallet hears of the transactions in conflict first, then of those of the block. -/
def connectTip (ctx : ConnectContext) (block : CBlock) : Except TipStop WalletNode := do
  let (node, txConflicted) ← s.node.connectTip P C ctx block
  pure { node := node
         wallet := s.wallet.syncAll C keys
           (txConflicted.map (fun tx => (tx, none)) ++ block.vtx.map fun tx => (tx, some block)) }

/-- `DisconnectTip`: the wallet hears of the transactions that are accepted again, then of all of the block. -/
def disconnectTip (policy : RelayPolicy) : Except TipStop WalletNode := do
  let (node, accepted) ← s.node.disconnectTip P C policy
  pure { node := node
         wallet := s.wallet.syncAll C keys
           ((accepted ++ (s.node.active.head?.map fun tip => tip.block.vtx).getD []).map fun tx => (tx, none)) }

/-- `CommitTransaction`. -/
def commitTransaction (policy : RelayPolicy) (tx : CTransaction) : WalletNode :=
  let wallet := s.wallet.addToWallet (CWalletTx.ofTx C tx)
  let wallet := tx.vin.foldl (fun w txin => w.bindWallet txin.prevout.hash) wallet
  accept P C keys { s with wallet := wallet } policy tx

end

end WalletNode

end Reddcoin
