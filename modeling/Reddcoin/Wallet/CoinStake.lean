import Mathlib.Data.List.Sort
import Reddcoin.Script.Solver

/-!
# Creating a coinstake

`SelectCoinsSimple` and `CreateCoinStake` of `wallet.cpp`.  The kernel test, the index of transactions and the
keys of the wallet are read through `StakeNode` and `StakeWallet`.
-/

namespace Reddcoin

open List

variable {d : CoinStakeDraft}

/-- `nStakeSplitAge`, 45 days. -/
def nStakeSplitAge : Int := 45 * 24 * 60 * 60

def nStakeCombineThreshold : Int := 2000000 * COIN

/-- `nMaxStakeSearchInterval`, in seconds. -/
def nMaxStakeSearchInterval : Nat := 60

/-- An assignment to an unsigned 32-bit field. -/
def toUInt32 (x : Int) : Nat :=
  (x % 2 ^ 32).toNat

abbrev CKey := List UInt8

/-- An output of a transaction of the wallet. -/
structure COutput where
  tx : CTransaction
  i : Nat
  fSpendable : Bool
  txout : CTxOut
  found : tx.vout[i]? = some txout
  in_range : i < 2 ^ 32 - 1

structure StakeWallet where
  /-- `GetBalance`. -/
  nBalance : Int
  /-- `AvailableCoinsMinConf`, for coins 20 blocks past maturity. -/
  vCoins : List COutput
  /-- Where the transaction of a coin lies in memory, which is how a set of coins is ordered. -/
  address : CTransaction → Nat
  solver : CScript → Option (TxnOutType × List (List UInt8))
  hash160 : List UInt8 → List UInt8
  getKey : List UInt8 → Option CKey
  getPubKey : CKey → List UInt8
  /-- `SignSignature`: the script for an input, given the transaction it spends from. -/
  signSignature : CTransaction → CTransaction → Nat → Option CScript
  /-- `CKey::Sign`. -/
  sign : CKey → Uint256 → Option (List UInt8)

/-- The node with its tip. -/
structure StakeNode where
  /-- What `ConnectBlock` will read for a block on the tip. -/
  ctx : ConnectContext
  nReserveBalance : Int
  nAdjustedTime : Nat
  /-- `pindexBest->GetMedianTimePast()`. -/
  nMedianTimePast : Int
  /-- `pindexBest->GetBlockTime()`. -/
  nTipTime : Int
  getTransaction : Uint256 → Option (CTransaction × Uint256)
  /-- The header of an indexed block. -/
  blockHeader : Uint256 → Option CBlockHeader
  checkStakeKernelHash : Nat → CBlockHeader → Nat → CTransaction → COutPoint → Nat → Bool
  getCoinAgeWeight : Int → Int → Int

/-- The variables of `CreateCoinStake` once a kernel is found. -/
structure CoinStakeDraft where
  txNew : CTransaction
  nCredit : Int
  vwtxPrev : List CTransaction
  scriptPubKeyKernel : CScript
  key : CKey

section

variable (P : CChainParams) (C : Crypto) (N : StakeNode) (W : StakeWallet)

def COutput.prevout (coin : COutput) : COutPoint :=
  { hash := C.txHash coin.tx, n := coin.i }

/-! ## Choosing coins -/

/-- The loop of `SelectCoinsSimple`. -/
def selectCoinsLoop (nTargetValue : Int) : List COutput → Int → List COutput
  | [], _ => []
  | output :: vCoins, nValueRet =>
    let n := output.txout.nValue
    if !output.fSpendable then selectCoinsLoop nTargetValue vCoins nValueRet
    else if nTargetValue ≤ nValueRet then []
    else if nTargetValue ≤ n then [output]
    else if n < wrap64 (nTargetValue + CENT) then
      output :: selectCoinsLoop nTargetValue vCoins (wrap64 (nValueRet + n))
    else selectCoinsLoop nTargetValue vCoins nValueRet

def coinBefore (a b : COutput) : Prop :=
  W.address a.tx < W.address b.tx ∨ W.address a.tx = W.address b.tx ∧ a.i ≤ b.i

instance (a b : COutput) : Decidable (coinBefore W a b) :=
  inferInstanceAs (Decidable (_ ∨ _))

/-- `SelectCoinsSimple`: the set of chosen coins, in its order. -/
def selectCoinsSimple (nTargetValue : Int) : List COutput :=
  (selectCoinsLoop nTargetValue W.vCoins 0).insertionSort (coinBefore W)

/-! ## The kernel -/

/-- The transaction that the search starts from, with the output that marks a coinstake. -/
def emptyCoinStake : CTransaction :=
  { nVersion := 2, vin := [], vout := [{ nValue := 0, scriptPubKey := [] }], nLockTime := 0,
    nTime := N.nAdjustedTime }

/-- The key for the script of a kernel, and the script that the stake is paid to: only pay to public key and
pay to address are supported. -/
def kernelKey (scriptPubKeyKernel : CScript) : Option (CKey × CScript) :=
  match W.solver scriptPubKeyKernel with
  | some (.pubkeyhash, solution :: _) =>
    (W.getKey solution).map fun key => (key, payToPubKey (W.getPubKey key))
  | some (.pubkey, vchPubKey :: _) =>
    match W.getKey (W.hash160 vchPubKey) with
    | none => none
    | some key => if W.getPubKey key = vchPubKey then some (key, scriptPubKeyKernel) else none
  | _ => none

/-- How many seconds before the time of `txNew` the coin is a kernel, searching backward. -/
def kernelOffset (nBits : Nat) (nSearchInterval : Int) (txNew : CTransaction) (block : CBlockHeader)
    (coin : COutput) : Option Nat :=
  (List.range (min nSearchInterval nMaxStakeSearchInterval).toNat).find? fun n =>
    N.checkStakeKernelHash nBits block coin.i coin.tx (coin.prevout C) (toUInt32 (txNew.nTime - n))

def txInOf (coin : COutput) : CTxIn :=
  { prevout := coin.prevout C, scriptSig := [], nSequence := 2 ^ 32 - 1 }

/-- One turn of the kernel search. -/
def tryKernel (nBits : Nat) (nSearchInterval : Int) (txNew : CTransaction) (coin : COutput) :
    Option CoinStakeDraft := do
  let (_, hashBlock) ← N.getTransaction (C.txHash coin.tx)
  let block ← N.blockHeader hashBlock
  if (toUInt32 ((txNew.nTime : Int) - nMaxStakeSearchInterval) : Int) < block.getBlockTime + P.stakeMinAge then none
  else do
    let n ← kernelOffset C N nBits nSearchInterval txNew block coin
    let (key, scriptPubKeyOut) ← kernelKey W coin.txout.scriptPubKey
    let nTime := toUInt32 (txNew.nTime - n)
    let stakeOut : CTxOut := { nValue := 0, scriptPubKey := scriptPubKeyOut }
    let split := decide (N.getCoinAgeWeight block.getBlockTime nTime < nStakeSplitAge) &&
      decide (nStakeCombineThreshold ≤ coin.txout.nValue)
    pure
      { txNew := { txNew with
          nTime := nTime
          vin := txNew.vin ++ [txInOf C coin]
          vout := txNew.vout ++ (if split then [stakeOut, stakeOut] else [stakeOut]) }
        nCredit := coin.txout.nValue
        vwtxPrev := [coin.tx]
        scriptPubKeyKernel := coin.txout.scriptPubKey
        key := key }

/-! ## More inputs -/

/-- Whether a coin has the key of the kernel and comes from another transaction. -/
def sameKey (d : CoinStakeDraft) (coin : COutput) : Bool :=
  decide (d.txNew.vout.length = 2) &&
    (decide (coin.txout.scriptPubKey = d.scriptPubKeyKernel) ||
      decide (some coin.txout.scriptPubKey = (d.txNew.vout[1]?).map CTxOut.scriptPubKey)) &&
    decide (some (C.txHash coin.tx) ≠ (d.txNew.vin.head?).map fun txin => txin.prevout.hash)

/-- Whether the transaction of a coin can be read and has come of age. -/
def oldEnough (d : CoinStakeDraft) (coin : COutput) : Bool :=
  match N.getTransaction (C.txHash coin.tx) with
  | none => false
  | some (tx, hashBlock) =>
    match N.blockHeader hashBlock with
    | none => false
    | some block =>
      decide (N.getCoinAgeWeight (if tx.nTime ≠ 0 then tx.nTime else block.nTime)
        d.txNew.nTime ≠ 0)

def addInput (d : CoinStakeDraft) (coin : COutput) : CoinStakeDraft :=
  { d with
    txNew := { d.txNew with vin := d.txNew.vin ++ [txInOf C coin] }
    nCredit := wrap64 (d.nCredit + coin.txout.nValue)
    vwtxPrev := d.vwtxPrev ++ [coin.tx] }

/-- The loop that adds more inputs, up to the spendable balance `nLimit`. -/
def addInputs (nLimit : Int) : List COutput → CoinStakeDraft → CoinStakeDraft
  | [], d => d
  | coin :: coins, d =>
    if sameKey C d coin then
      if 100 ≤ d.txNew.vin.length then d
      else if nStakeCombineThreshold ≤ d.nCredit then d
      else if nLimit < wrap64 (d.nCredit + coin.txout.nValue) then d
      else if nStakeCombineThreshold ≤ coin.txout.nValue then addInputs nLimit coins d
      else if oldEnough C N d coin then addInputs nLimit coins (addInput C d coin)
      else addInputs nLimit coins d
    else addInputs nLimit coins d

/-- The first part of `CreateCoinStake`: the kernel and the inputs, with the dev fund output added. -/
def stakeInputs (nBits : Nat) (nSearchInterval : Int) : Option CoinStakeDraft :=
  let nLimit := wrap64 (W.nBalance - N.nReserveBalance)
  if W.nBalance ≤ N.nReserveBalance then none
  else
    let setCoins := selectCoinsSimple W nLimit
    match setCoins.findSome? (tryKernel P C N W nBits nSearchInterval (emptyCoinStake N)) with
    | none => none
    | some d =>
      if d.nCredit = 0 ∨ nLimit < d.nCredit then none
      else
        let d := addInputs C N nLimit setCoins d
        some { d with
          txNew := { d.txNew with
            vout := d.txNew.vout ++ [{ nValue := 0, scriptPubKey := payToPubKey P.devKey }] } }

/-! ## Amounts and signatures -/

/-- The reward that the staker takes; version 2 is the one with the inflation adjustment. -/
def stakerReward (nVer : Nat) (nCoinAge : Nat) (nFees : Int) : Int :=
  getProofOfStakeReward (if nVer = 2 then N.ctx.inflationAdjustment else id) nCoinAge nFees

def nEndCreditOf (nVer : Nat) (nReward : Int) : Int :=
  if nVer = 2 then N.ctx.posvShare nReward else nReward

def nDevCreditOf (nVer : Nat) (nReward : Int) : Int :=
  if nVer = 2 then wrap64 (nReward - N.ctx.posvShare nReward) else 0

/-- The outputs with their amounts: the stake in one or two parts, and the dev fund. -/
def setOutputs (vout : List CTxOut) (nCredit nDevCredit : Int) : List CTxOut :=
  match vout with
  | [mark, first, second, dev] =>
    let half := ((nCredit.tdiv 2).tdiv CENT) * CENT
    [mark, { first with nValue := half }, { second with nValue := wrap64 (nCredit - half) },
      { dev with nValue := nDevCredit }]
  | mark :: first :: dev :: rest =>
    mark :: { first with nValue := nCredit } :: { dev with nValue := nDevCredit } :: rest
  | _ => vout

def signInputs : List CTransaction → Nat → CTransaction → Option CTransaction
  | [], _, txNew => some txNew
  | pcoin :: vwtxPrev, nIn, txNew =>
    match W.signSignature pcoin txNew nIn with
    | none => none
    | some scriptSig =>
      signInputs vwtxPrev (nIn + 1)
        { txNew with vin := txNew.vin.modify nIn fun txin => { txin with scriptSig := scriptSig } }

/-- `CreateCoinStake`: the coinstake and the key of its kernel. -/
def createCoinStake (nBits : Nat) (nSearchInterval : Int) (nFees : Int) (nVer : Nat) :
    Option (CTransaction × CKey) := do
  let d ← stakeInputs P C N W nBits nSearchInterval
  let nCoinAge := N.ctx.getCoinAge d.txNew
  if nCoinAge = 0 then none
  else
    let nReward := stakerReward N nVer nCoinAge nFees
    if nReward ≤ 0 then none
    else do
      let nCredit := wrap64 (d.nCredit + nEndCreditOf N nVer nReward)
      let txNew ← signInputs W d.vwtxPrev 0
        { d.txNew with vout := setOutputs d.txNew.vout nCredit (nDevCreditOf N nVer nReward) }
      if MAX_BLOCK_SIZE / 5 ≤ txNew.serializeSize then none else pure (txNew, d.key)

end

/-! ## What a coinstake is made of -/

/-- What the inputs of a transaction are worth, given the value of each output. -/
def inputValue (value : COutPoint → Int) (tx : CTransaction) : Int :=
  (tx.vin.map fun txin => value txin.prevout).sum

/-- A coinstake under construction: its mark, one or two outputs for the stake, and the credit of its inputs. -/
structure CoinStakeDraft.Funded (value : COutPoint → Int) (d : CoinStakeDraft) : Prop where
  vin : ∃ txin vin, d.txNew.vin = txin :: vin ∧ txin.prevout.isNull = false
  vout : ∃ mark first rest, d.txNew.vout = mark :: first :: rest ∧ rest.length ≤ 1 ∧ mark.isEmpty = true
  credit : ∃ k : Int, d.nCredit = inputValue value d.txNew + 2 ^ 64 * k

section

variable {P : CChainParams} {C : Crypto} {N : StakeNode} {W : StakeWallet} {value : COutPoint → Int}

theorem COutput.prevout_isNull (coin : COutput) : (coin.prevout C).isNull = false := by
  have hrange := coin.in_range
  have hne : coin.i ≠ 2 ^ 32 - 1 := by omega
  show (decide (C.txHash coin.tx = 0) && decide (coin.i = 2 ^ 32 - 1)) = false
  rw [decide_eq_false hne, Bool.and_false]

theorem toUInt32_lt (x : Int) : toUInt32 x < 2 ^ 32 := by
  unfold toUInt32
  omega

theorem selectCoinsLoop_sublist (nTargetValue : Int) (vCoins : List COutput) (nValueRet : Int) :
    (selectCoinsLoop nTargetValue vCoins nValueRet).Sublist vCoins := by
  induction vCoins generalizing nValueRet with
  | nil => exact List.Sublist.refl []
  | cons output vCoins ih =>
    simp only [selectCoinsLoop]
    split_ifs
    · exact (ih _).cons output
    · exact nil_sublist _
    · exact (nil_sublist vCoins).cons_cons output
    · exact (ih _).cons_cons output
    · exact (ih _).cons output

theorem mem_of_mem_selectCoinsSimple {nTargetValue : Int} {coin : COutput}
    (h : coin ∈ selectCoinsSimple W nTargetValue) : coin ∈ W.vCoins :=
  (selectCoinsLoop_sublist _ _ _).mem ((mem_insertionSort _).mp h)

theorem tryKernel_funded {nBits : Nat} {nSearchInterval : Int} {coin : COutput}
    (hvalue : value (coin.prevout C) = coin.txout.nValue)
    (h : tryKernel P C N W nBits nSearchInterval (emptyCoinStake N) coin = some d) :
    d.Funded value ∧ d.txNew.nTime < 2 ^ 32 := by
  obtain ⟨⟨tx, hashBlock⟩, -, h⟩ := Option.bind_eq_some_iff.mp h
  obtain ⟨block, -, h⟩ := Option.bind_eq_some_iff.mp h
  split_ifs at h with hyoung
  obtain ⟨n, -, h⟩ := Option.bind_eq_some_iff.mp h
  obtain ⟨⟨key, script⟩, -, h⟩ := Option.bind_eq_some_iff.mp h
  have h := Option.some.inj h
  subst h
  refine ⟨⟨⟨_, _, rfl, coin.prevout_isNull⟩, ?_, 0, ?_⟩, ?_⟩
  · have hstake : ∀ split : Bool, ∃ rest : List CTxOut,
        (if split then [({ nValue := 0, scriptPubKey := script } : CTxOut), ⟨0, script⟩]
          else [⟨0, script⟩]) = ⟨0, script⟩ :: rest ∧ rest.length ≤ 1 := by
      intro split
      cases split with
      | true => exact ⟨[⟨0, script⟩], rfl, Nat.le_refl 1⟩
      | false => exact ⟨[], rfl, Nat.zero_le 1⟩
    obtain ⟨rest, hrest, hlen⟩ := hstake _
    exact ⟨_, _, rest, congrArg _ hrest, hlen, rfl⟩
  · simp [inputValue, emptyCoinStake, txInOf, hvalue]
  · exact toUInt32_lt _

theorem addInput_funded {coin : COutput} (hd : d.Funded value)
    (hvalue : value (coin.prevout C) = coin.txout.nValue) : (addInput C d coin).Funded value := by
  obtain ⟨txin, vin, hvin, hnull⟩ := hd.vin
  obtain ⟨k, hk⟩ := hd.credit
  obtain ⟨j, hj⟩ := wrap64_eq_add (d.nCredit + coin.txout.nValue)
  refine ⟨⟨txin, vin ++ [txInOf C coin], ?_, hnull⟩, hd.vout, k + j, ?_⟩
  · show d.txNew.vin ++ [txInOf C coin] = _
    rw [hvin, cons_append]
  · have hsum : inputValue value (addInput C d coin).txNew = inputValue value d.txNew + coin.txout.nValue := by
      simp [inputValue, addInput, txInOf, hvalue]
    show wrap64 (d.nCredit + coin.txout.nValue) = _
    omega

/-- Adding inputs keeps the time of the kernel. -/
theorem addInputs_funded (nLimit : Int) {coins : List COutput} (hd : d.Funded value)
    (hvalue : ∀ coin ∈ coins, value (coin.prevout C) = coin.txout.nValue) :
    (addInputs C N nLimit coins d).Funded value ∧ (addInputs C N nLimit coins d).txNew.nTime = d.txNew.nTime := by
  induction coins generalizing d with
  | nil => exact ⟨hd, rfl⟩
  | cons coin coins ih =>
    have hrest : ∀ c ∈ coins, value (c.prevout C) = c.txout.nValue := fun c hc =>
      hvalue c (mem_cons_of_mem _ hc)
    unfold addInputs
    split_ifs
    · exact ⟨hd, rfl⟩
    · exact ⟨hd, rfl⟩
    · exact ⟨hd, rfl⟩
    · exact ih hd hrest
    · exact ih (addInput_funded hd (hvalue coin mem_cons_self)) hrest
    · exact ih hd hrest
    · exact ih hd hrest

/-- The inputs with the dev fund output: what is left to do are amounts and signatures. -/
structure CoinStakeDraft.Prepared (P : CChainParams) (value : COutPoint → Int) (d : CoinStakeDraft) :
    Prop where
  vin : ∃ txin vin, d.txNew.vin = txin :: vin ∧ txin.prevout.isNull = false
  vout : ∃ mark first rest dev, d.txNew.vout = mark :: first :: (rest ++ [dev]) ∧ rest.length ≤ 1 ∧
    mark.isEmpty = true ∧ dev.scriptPubKey = payToPubKey P.devKey
  credit : ∃ k : Int, d.nCredit = inputValue value d.txNew + 2 ^ 64 * k
  time : d.txNew.nTime < 2 ^ 32

theorem stakeInputs_prepared {nBits : Nat} {nSearchInterval : Int}
    (hvalue : ∀ coin ∈ W.vCoins, value (coin.prevout C) = coin.txout.nValue)
    (h : stakeInputs P C N W nBits nSearchInterval = some d) : d.Prepared P value := by
  unfold stakeInputs at h
  simp only at h
  split_ifs at h with hreserve
  split at h
  · simp at h
  · rename_i kernel hkernel
    split_ifs at h with hcredit
    have h := Option.some.inj h
    subst h
    obtain ⟨coin, hcoin, htry⟩ := exists_of_findSome?_eq_some hkernel
    have hset : ∀ c ∈ selectCoinsSimple W (wrap64 (W.nBalance - N.nReserveBalance)),
        value (c.prevout C) = c.txout.nValue := fun c hc => hvalue c (mem_of_mem_selectCoinsSimple hc)
    obtain ⟨hfunded, htime⟩ := tryKernel_funded (hset coin hcoin) htry
    obtain ⟨hmore, hkept⟩ := addInputs_funded (N := N) (wrap64 (W.nBalance - N.nReserveBalance)) hfunded
      hset
    obtain ⟨mark, first, rest, hvout, hlen, hmark⟩ := hmore.vout
    refine ⟨hmore.vin, ⟨mark, first, rest,
      { nValue := 0, scriptPubKey := payToPubKey P.devKey }, ?_, hlen, hmark, rfl⟩, hmore.credit, ?_⟩
    · show _ ++ _ = _
      rw [hvout]
      rfl
    · show (addInputs _ _ _ _ _).txNew.nTime < 2 ^ 32
      rw [hkept]
      exact htime

/-- The outputs pay out the credit and the dev credit, the latter in the last output. -/
theorem setOutputs_eq {mark : CTxOut} (first dev : CTxOut) {rest : List CTxOut}
    (hrest : rest.length ≤ 1) (hmark : mark.isEmpty) (nCredit nDevCredit : Int) :
    ∃ paid, setOutputs (mark :: first :: (rest ++ [dev])) nCredit nDevCredit =
        mark :: (paid ++ [{ dev with nValue := nDevCredit }]) ∧ paid ≠ [] ∧
      ∃ k : Int, valueOf (mark :: (paid ++ [{ dev with nValue := nDevCredit }])) =
        nCredit + nDevCredit + 2 ^ 64 * k := by
  have hzero : mark.nValue = 0 := by
    simp only [CTxOut.isEmpty, Bool.and_eq_true, decide_eq_true_eq] at hmark
    exact hmark.1
  match rest, hrest with
  | [], _ =>
    refine ⟨[{ first with nValue := nCredit }], rfl, by simp, 0, ?_⟩
    simp [hzero]
  | [second], _ =>
    obtain ⟨k, hk⟩ := wrap64_eq_add (nCredit - ((nCredit.tdiv 2).tdiv CENT) * CENT)
    refine ⟨[{ first with nValue := ((nCredit.tdiv 2).tdiv CENT) * CENT },
      { second with nValue := wrap64 (nCredit - ((nCredit.tdiv 2).tdiv CENT) * CENT) }], rfl, by simp,
      k, ?_⟩
    simp only [cons_append, nil_append, valueOf_cons, valueOf_nil, hzero, hk]
    ring

/-- Signing changes no more than the scripts of the inputs. -/
theorem signInputs_ok {vwtxPrev : List CTransaction} {nIn : Nat} {txNew tx : CTransaction}
    (h : signInputs W vwtxPrev nIn txNew = some tx) :
    tx.vin.map CTxIn.prevout = txNew.vin.map CTxIn.prevout ∧ tx.vout = txNew.vout ∧ tx.nTime = txNew.nTime := by
  induction vwtxPrev generalizing nIn txNew with
  | nil =>
    cases h
    exact ⟨rfl, rfl, rfl⟩
  | cons pcoin vwtxPrev ih =>
    simp only [signInputs] at h
    split at h
    · simp at h
    · rename_i scriptSig _
      obtain ⟨hvin, hvout, htime⟩ := ih h
      refine ⟨hvin.trans ?_, hvout, htime⟩
      apply ext_getElem?
      intro i
      simp only [getElem?_map, getElem?_modify]
      cases txNew.vin[i]? with
      | none => rfl
      | some txin =>
        by_cases hi : nIn = i
        · simp [hi]
        · simp [hi]

/-- A coinstake that was created. -/
structure CreatedFrom (P : CChainParams) (N : StakeNode) (value : COutPoint → Int) (d : CoinStakeDraft)
    (nReward nDevCredit : Int) (tx : CTransaction) : Prop where
  time : tx.nTime = d.txNew.nTime
  prevouts : tx.vin.map CTxIn.prevout = d.txNew.vin.map CTxIn.prevout
  coinstake : tx.isCoinStake = true
  dev : ∃ out, tx.vout.getLast? = some out ∧ out.nValue = nDevCredit ∧ out.scriptPubKey = payToPubKey P.devKey
  paid : ∃ k : Int, valueOf tx.vout - inputValue value tx = nReward + 2 ^ 64 * k

/-- The staker's part and the dev fund's part are the whole reward. -/
theorem nEndCredit_add_nDevCredit (nVer : Nat) (nReward : Int) :
    ∃ k : Int, nEndCreditOf N nVer nReward + nDevCreditOf N nVer nReward = nReward + 2 ^ 64 * k := by
  unfold nEndCreditOf nDevCreditOf
  split_ifs
  · obtain ⟨k, hk⟩ := wrap64_eq_add (nReward - N.ctx.posvShare nReward)
    exact ⟨k, by omega⟩
  · exact ⟨0, by omega⟩

theorem createCoinStake_ok {nBits : Nat} {nSearchInterval nFees : Int} {nVer : Nat} {tx : CTransaction}
    {key : CKey} (hvalue : ∀ coin ∈ W.vCoins, value (coin.prevout C) = coin.txout.nValue)
    (h : createCoinStake P C N W nBits nSearchInterval nFees nVer = some (tx, key)) :
    ∃ d, stakeInputs P C N W nBits nSearchInterval = some d ∧ d.txNew.nTime < 2 ^ 32 ∧ N.ctx.getCoinAge d.txNew ≠ 0 ∧
      CreatedFrom P N value d (stakerReward N nVer (N.ctx.getCoinAge d.txNew) nFees)
        (nDevCreditOf N nVer (stakerReward N nVer (N.ctx.getCoinAge d.txNew) nFees)) tx := by
  obtain ⟨d, hd, h⟩ := Option.bind_eq_some_iff.mp h
  have hprep := stakeInputs_prepared hvalue hd
  simp only at h
  split_ifs at h with hage hreward
  obtain ⟨signed, hsigned, h⟩ := Option.bind_eq_some_iff.mp h
  split_ifs at h with hsize
  obtain ⟨rfl, -⟩ := Prod.mk.inj (Option.some.inj h)
  obtain ⟨hvin, hvout, htime⟩ := signInputs_ok hsigned
  obtain ⟨txin, vin, hdvin, hnull⟩ := hprep.vin
  obtain ⟨mark, first, rest, dev, hdvout, hlen, hmark, hdev⟩ := hprep.vout
  refine ⟨d, hd, hprep.time, hage, ?_⟩
  generalize hrew : stakerReward N nVer (N.ctx.getCoinAge d.txNew) nFees = nReward at *
  obtain ⟨paid, hset, hpaid, k, hsum⟩ := setOutputs_eq first dev hlen hmark
    (wrap64 (d.nCredit + nEndCreditOf N nVer nReward)) (nDevCreditOf N nVer nReward)
  rw [← hdvout] at hset
  rw [hset] at hvout
  have hin : inputValue value signed = inputValue value d.txNew := by
    have hmap := congrArg (List.map value) hvin
    rw [map_map, map_map] at hmap
    exact congrArg List.sum hmap
  refine ⟨htime, hvin, ?_, ⟨{ dev with nValue := nDevCreditOf N nVer nReward }, ?_, rfl, hdev⟩, ?_⟩
  · cases hsvin : signed.vin with
    | nil =>
      rw [hsvin, hdvin] at hvin
      simp at hvin
    | cons stxin svin =>
      rw [hsvin, hdvin, map_cons, map_cons] at hvin
      obtain ⟨out, outs, hpaid⟩ := exists_cons_of_ne_nil hpaid
      rw [hpaid, cons_append] at hvout
      unfold CTransaction.isCoinStake
      rw [hsvin, hvout]
      simp only [(List.cons.inj hvin).1, hnull, hmark, Bool.not_false, Bool.and_self]
  · rw [hvout, ← cons_append, getLast?_concat]
  · obtain ⟨j, hj⟩ := hprep.credit
    obtain ⟨l, hl⟩ := nEndCredit_add_nDevCredit (N := N) nVer nReward
    obtain ⟨m, hm⟩ := wrap64_eq_add (d.nCredit + nEndCreditOf N nVer nReward)
    refine ⟨k + j + l + m, ?_⟩
    rw [hvout, hsum, hin]
    omega

end

end Reddcoin
