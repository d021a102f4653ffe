import Reddcoin.Wallet.SignBlock
import Reddcoin.Wallet.StakedCoins

/-!
# What a created coinstake is

A coinstake that `CreateCoinStake` returns spends coins of the kernel's key within the reserve, at a time for which the kernel
check passed, with each input signed for its own coin.  It pays out the coins and the reward when these fit into 64 bits.
-/

namespace Reddcoin

open List

section

variable (P : CChainParams) (C : Crypto) (N : StakeNode) (W : StakeWallet) {nBits : Nat} {nSearchInterval : Int}

/-- A coin was found to be a kernel: its transaction is in an indexed block, and the kernel check passed for a time in the
searched interval. -/
structure IsKernel (nBits : Nat) (nSearchInterval : Int) (coin : COutput) (key : CKey) (nTime : Nat) : Prop where
  searched : ∃ n : Nat, n < min nSearchInterval nMaxStakeSearchInterval ∧ nTime = toUInt32 ((N.nAdjustedTime : Int) - n)
  checked : ∃ tx hashBlock block, N.getTransaction (C.txHash coin.tx) = some (tx, hashBlock) ∧
    N.blockHeader hashBlock = some block ∧
    N.checkStakeKernelHash nBits block coin.i coin.tx (coin.prevout C) nTime = true
  key : ∃ scriptPubKeyOut, kernelKey W coin.txout.scriptPubKey = some (key, scriptPubKeyOut)

/-- The transaction before it is given amounts and signatures. -/
def unsignedStake (kernel : CoinStakeDraft) (coins : List COutput) : CTransaction :=
  { kernel.txNew with
    vin := coins.map (txInOf C)
    vout := kernel.txNew.vout ++ [{ nValue := 0, scriptPubKey := payToPubKey P.devKey }] }

/-- A transaction without amounts and signatures. -/
def CTransaction.bare (tx : CTransaction) : CTransaction :=
  { tx with
    vin := tx.vin.map fun txin => { txin with scriptSig := [] }
    vout := tx.vout.map fun txout => { txout with nValue := 0 } }

/-- The draft of a kernel, as its coin and its key make it. -/
structure KernelDraft (nBits : Nat) (nSearchInterval : Int) (coin : COutput) (d : CoinStakeDraft) : Prop where
  kernel : IsKernel C N W nBits nSearchInterval coin d.key d.txNew.nTime
  vin : d.txNew.vin = [txInOf C coin]
  vout : ∃ script, (script = coin.txout.scriptPubKey ∨ script = payToPubKey (W.getPubKey d.key)) ∧
    (d.txNew.vout = [⟨0, []⟩, ⟨0, script⟩] ∨ d.txNew.vout = [⟨0, []⟩, ⟨0, script⟩, ⟨0, script⟩])
  nCredit : d.nCredit = coin.txout.nValue
  vwtxPrev : d.vwtxPrev = [coin.tx]
  scriptPubKeyKernel : d.scriptPubKeyKernel = coin.txout.scriptPubKey

end

section

variable {P : CChainParams} {C : Crypto} {N : StakeNode} {W : StakeWallet}

/-! ## The kernel -/

/-- The stake is paid to the script of the kernel or to the public key. -/
theorem kernelKey_script {scriptPubKeyKernel scriptPubKeyOut : CScript} {key : CKey}
    (h : kernelKey W scriptPubKeyKernel = some (key, scriptPubKeyOut)) :
    scriptPubKeyOut = scriptPubKeyKernel ∨ scriptPubKeyOut = payToPubKey (W.getPubKey key) := by
  unfold kernelKey at h
  split at h
  · obtain ⟨key', -, heq⟩ := Option.map_eq_some_iff.mp h
    cases heq
    exact .inr rfl
  · split at h
    · cases h
    · split_ifs at h
      cases h
      exact .inl rfl
  · cases h

theorem tryKernel_ok {coin : COutput} {d : CoinStakeDraft}
    (h : tryKernel P C N W nBits nSearchInterval (emptyCoinStake N) coin = some d) :
    KernelDraft C N W nBits nSearchInterval coin d := by
  obtain ⟨⟨tx, hashBlock⟩, htx, h⟩ := Option.bind_eq_some_iff.mp h
  obtain ⟨block, hblock, h⟩ := Option.bind_eq_some_iff.mp h
  split_ifs at h with hyoung
  obtain ⟨n, hn, h⟩ := Option.bind_eq_some_iff.mp h
  obtain ⟨⟨key, script⟩, hkey, h⟩ := Option.bind_eq_some_iff.mp h
  have h := Option.some.inj h
  subst h
  unfold kernelOffset at hn
  have hsearched := mem_range.mp (mem_of_find?_eq_some hn)
  have hchecked := find?_some hn
  refine ⟨⟨⟨n, by omega, rfl⟩, ⟨tx, hashBlock, block, htx, hblock, hchecked⟩, ⟨script, hkey⟩⟩, rfl,
    ⟨script, kernelKey_script hkey, ?_⟩, rfl, rfl, rfl⟩
  dsimp only
  cases decide (N.getCoinAgeWeight block.getBlockTime (toUInt32 ((emptyCoinStake N).nTime - n)) < nStakeSplitAge) &&
      decide (nStakeCombineThreshold ≤ coin.txout.nValue) with
  | true => exact .inr rfl
  | false => exact .inl rfl

/-- The first part of `CreateCoinStake` comes to the coins that are staked. -/
theorem stakeInputs_eq {d : CoinStakeDraft}
    (hcoins : ∀ coin ∈ W.vCoins, 0 < coin.txout.nValue) (h : stakeInputs P C N W nBits nSearchInterval = some d) :
    ∃ kernel coin more, stakedCoins P C N W nBits nSearchInterval = some (kernel, coin :: more) ∧
      KernelDraft C N W nBits nSearchInterval coin kernel ∧ coin ∈ W.vCoins ∧
      more = moreCoins C N kernel (wrap64 (W.nBalance - N.nReserveBalance))
        (selectCoinsSimple W (wrap64 (W.nBalance - N.nReserveBalance))) 1 coin.txout.nValue ∧
      coin.txout.nValue ≤ wrap64 (W.nBalance - N.nReserveBalance) ∧ N.nReserveBalance < W.nBalance ∧
      d = { kernel with
        txNew := unsignedStake P C kernel (coin :: more)
        nCredit := worth (coin :: more)
        vwtxPrev := (coin :: more).map COutput.tx } := by
  unfold stakeInputs at h
  dsimp only at h
  split_ifs at h with hreserve
  split at h
  · cases h
  · rename_i kernel hkernel
    split_ifs at h with hcredit
    obtain ⟨before, coin, after, hsplit, htry, hnone⟩ := findSome?_eq_some_iff.mp hkernel
    have hdraft := tryKernel_ok htry
    have hset : ∀ c ∈ selectCoinsSimple W (wrap64 (W.nBalance - N.nReserveBalance)), c ∈ W.vCoins :=
      fun c hc => mem_of_mem_selectCoinsSimple hc
    have hcoin : coin ∈ W.vCoins := hset coin (by rw [hsplit]; exact mem_append_right _ mem_cons_self)
    have hpositive := hcoins coin hcoin
    have hvin : kernel.txNew.vin ≠ [] := by
      rw [hdraft.vin]
      exact cons_ne_nil _ _
    have hworth : kernel.nCredit + worth [] = coin.txout.nValue := by
      rw [hdraft.nCredit]
      exact Int.add_zero _
    have hadd := addInputs_withCoins (C := C) (N := N) hvin (wrap64 (W.nBalance - N.nReserveBalance))
      (fun c hc => hcoins c (hset c hc)) (by rw [hworth]; omega)
    rw [CoinStakeDraft.withCoins_nil, hworth, hdraft.vin, nil_append] at hadd
    obtain ⟨-, hlimit⟩ := not_or.mp hcredit
    rw [hdraft.nCredit] at hlimit
    refine ⟨kernel, coin, _, ?_, hdraft, hcoin, rfl, Int.not_lt.mp hlimit, Int.not_le.mp hreserve, ?_⟩
    · unfold stakedCoins
      dsimp only
      refine findSome?_eq_some_iff.mpr ⟨before, coin, after, hsplit, ?_, fun c hc => ?_⟩
      · rw [htry]
        rfl
      · rw [hnone c hc]
        rfl
    · cases h
      rw [hadd]
      unfold CoinStakeDraft.withCoins unsignedStake
      rw [hdraft.vin, hdraft.nCredit, hdraft.vwtxPrev, worth_cons]
      rfl

/-! ## Amounts -/

section

variable {script dev : CScript} {vout : List CTxOut} {nCredit nDevCredit : Int}
    (hvout : vout = [⟨0, []⟩, ⟨0, script⟩] ∨ vout = [⟨0, []⟩, ⟨0, script⟩, ⟨0, script⟩])

include hvout

/-- The outputs of the stake and the dev fund are the credit and the dev credit. -/
theorem valueOf_setOutputs (hlo : -(2 ^ 63) ≤ nCredit) (hhi : nCredit < 2 ^ 63) :
    valueOf (setOutputs (vout ++ [⟨0, dev⟩]) nCredit nDevCredit) = nCredit + nDevCredit := by
  have hhalf : wrap64 (nCredit - (nCredit.tdiv 2).tdiv CENT * CENT) = nCredit - (nCredit.tdiv 2).tdiv CENT * CENT := by
    have hcent : CENT = 1000000 := rfl
    rw [hcent]
    rcases Int.le_total 0 nCredit with hpositive | hnegative
    · rw [Int.tdiv_eq_ediv_of_nonneg hpositive, Int.tdiv_eq_ediv_of_nonneg (by omega)]
      exact wrap64_of_range (by omega) (by omega)
    · obtain ⟨n, rfl⟩ : ∃ n, nCredit = -n := ⟨-nCredit, (Int.neg_neg nCredit).symm⟩
      rw [Int.neg_tdiv, Int.neg_tdiv, Int.tdiv_eq_ediv_of_nonneg (show 0 ≤ n by omega),
        Int.tdiv_eq_ediv_of_nonneg (by omega)]
      exact wrap64_of_range (by omega) (by omega)
  rcases hvout with rfl | rfl
  · show 0 + (nCredit + (nDevCredit + 0)) = nCredit + nDevCredit
    omega
  · show 0 + ((nCredit.tdiv 2).tdiv CENT * CENT + (wrap64 (nCredit - (nCredit.tdiv 2).tdiv CENT * CENT) +
      (nDevCredit + 0))) = nCredit + nDevCredit
    rw [hhalf]
    omega

theorem setOutputs_bare :
    (setOutputs (vout ++ [⟨0, dev⟩]) nCredit nDevCredit).map (fun txout => { txout with nValue := 0 }) =
      vout ++ [⟨0, dev⟩] := by
  rcases hvout with rfl | rfl <;> rfl

end

/-! ## Signatures -/

theorem bare_modify (tx : CTransaction) (nIn : Nat) (scriptSig : CScript) :
    CTransaction.bare { tx with vin := tx.vin.modify nIn fun txin => { txin with scriptSig := scriptSig } } = tx.bare := by
  unfold CTransaction.bare
  dsimp only
  congr 1
  refine ext_getElem? fun k => ?_
  rw [getElem?_map, getElem?_map, getElem?_modify]
  cases tx.vin[k]? with
  | none => rfl
  | some txin =>
    simp only [Option.map_some, Functor.map]
    split_ifs <;> rfl

/-- An input has been signed for a transaction, at its place among the outputs and inputs of another one. -/
def SignedFor (W : StakeWallet) (txNew : CTransaction) (pcoin : CTransaction) (nIn : Nat) (txin : CTxIn) : Prop :=
  ∃ txPart : CTransaction, txPart.bare = txNew.bare ∧ txPart.vout = txNew.vout ∧
    W.signSignature pcoin txPart nIn = some txin.scriptSig

/-- Each input is signed for the transaction at its place, and the inputs before are left as they are. -/
theorem signInputs_signed {vwtxPrev : List CTransaction} {nIn : Nat} {txNew tx : CTransaction}
    (h : signInputs W vwtxPrev nIn txNew = some tx) :
    tx.bare = txNew.bare ∧ tx.vout = txNew.vout ∧ (∀ j < nIn, tx.vin[j]? = txNew.vin[j]?) ∧
      ∀ i pcoin txin, vwtxPrev[i]? = some pcoin → tx.vin[nIn + i]? = some txin → SignedFor W txNew pcoin (nIn + i) txin := by
  induction vwtxPrev generalizing nIn txNew with
  | nil =>
    cases h
    exact ⟨rfl, rfl, fun _ _ => rfl, fun _ _ _ hnone => by cases hnone⟩
  | cons head vwtxPrev ih =>
    rw [signInputs] at h
    cases hsign : W.signSignature head txNew nIn with
    | none =>
      rw [hsign] at h
      cases h
    | some scriptSig =>
      rw [hsign] at h
      obtain ⟨hbare, hvout, hbefore, hrest⟩ := ih h
      rw [bare_modify] at hbare
      have hkept : ∀ j < nIn, tx.vin[j]? = txNew.vin[j]? := by
        intro j hj
        exact (hbefore j (by omega)).trans (getElem?_modify_ne _ _ (by omega))
      refine ⟨hbare, hvout, hkept, fun i pcoin txin hpcoin htxin => ?_⟩
      cases i with
      | zero =>
        cases hpcoin
        refine ⟨txNew, rfl, rfl, ?_⟩
        rw [Nat.add_zero, hbefore nIn (Nat.lt_succ_self nIn), getElem?_modify_eq] at htxin
        obtain ⟨old, -, rfl⟩ := Option.map_eq_some_iff.mp htxin
        exact hsign
      | succ i =>
        rw [← Nat.succ_add_eq_add_succ] at htxin ⊢
        obtain ⟨txPart, hpart, hout, hsigned⟩ := hrest i pcoin txin hpcoin htxin
        exact ⟨txPart, hpart.trans (bare_modify txNew nIn scriptSig), hout, hsigned⟩

end

/-! ## The coinstake -/

/-- A coinstake of a kernel and coins that joined it, within the reserve and signed coin for coin. -/
structure StakeOf {C : Crypto} (N : StakeNode) (W : StakingWallet C) (nBits : Nat) (nSearchInterval : Int)
    (tx : CTransaction) (key : CKey) (coins : List COutput) : Prop where
  coinstake : tx.isCoinStake = true
  prevouts : tx.vin.map CTxIn.prevout = coins.map (COutput.prevout C)
  owned : ∀ coin ∈ coins, coin ∈ W.stake.vCoins
  kernel : ∃ kernel more, coins = kernel :: more ∧ IsKernel C N W.stake nBits nSearchInterval kernel key tx.nTime ∧
    ∀ coin ∈ more, coin.txout.scriptPubKey = kernel.txout.scriptPubKey ∨
      coin.txout.scriptPubKey = payToPubKey (W.stake.getPubKey key)
  most : coins.length ≤ 100
  distinct : (tx.vin.map CTxIn.prevout).Nodup
  reserve : worth coins ≤ W.stake.nBalance - N.nReserveBalance
  signed : ∀ i coin txin, coins[i]? = some coin → tx.vin[i]? = some txin → SignedFor W.stake tx coin.tx i txin

section

variable (P : CChainParams) {C : Crypto} (N : StakeNode) (W : StakingWallet C) (nBits : Nat) (nSearchInterval nFees : Int)
  (nVer : Nat)

/-- The outputs are the inputs and the reward. -/
def Balanced (tx : CTransaction) : Prop :=
  valueOf tx.vout = inputValue W.wallet.valueOf tx + stakerReward N nVer (N.ctx.getCoinAge tx.bare) nFees

instance (tx : CTransaction) : Decidable (Balanced N W nFees nVer tx) :=
  inferInstanceAs (Decidable (_ = _))

/-- The coins that are staked and the staker's part of the reward for them fit into 64 bits. -/
def StakeFits : Prop :=
  ∀ kernel coins, stakedCoins P C N W.stake nBits nSearchInterval = some (kernel, coins) →
    worth coins + nEndCreditOf N nVer (stakerReward N nVer (N.ctx.getCoinAge (unsignedStake P C kernel coins)) nFees) <
      2 ^ 63

end

section

variable {P : CChainParams} {C : Crypto} {N : StakeNode} {W : StakingWallet C}

theorem selectCoinsSimple_nodup (W : StakingWallet C) (nTargetValue : Int) :
    ((selectCoinsSimple W.stake nTargetValue).map (COutput.prevout C)).Nodup := by
  have hperm := perm_insertionSort (coinBefore W.stake) (selectCoinsLoop nTargetValue W.stake.vCoins 0)
  have hsub := selectCoinsLoop_sublist nTargetValue W.stake.vCoins 0
  exact (hperm.map _).nodup_iff.mpr ((hsub.map _).nodup W.prevouts_nodup)

/-- A coin of the same key comes from another transaction and pays to the kernel's script or to its key. -/
theorem sameKey_spec {coin c : COutput} {kernel : CoinStakeDraft}
    (hdraft : KernelDraft C N W.stake nBits nSearchInterval coin kernel) (h : sameKey C kernel c) :
    C.txHash c.tx ≠ C.txHash coin.tx ∧ (c.txout.scriptPubKey = coin.txout.scriptPubKey ∨
      c.txout.scriptPubKey = payToPubKey (W.stake.getPubKey kernel.key)) := by
  unfold sameKey at h
  simp only [Bool.and_eq_true, Bool.or_eq_true, decide_eq_true_eq, hdraft.vin, hdraft.scriptPubKeyKernel] at h
  obtain ⟨⟨htwo, hscript⟩, hhash⟩ := h
  refine ⟨fun heq => hhash (congrArg some heq), ?_⟩
  rcases hscript with hsame | hout
  · exact .inl hsame
  · obtain ⟨script, hkernel, hvout⟩ := hdraft.vout
    have hone : (kernel.txNew.vout[1]?).map CTxOut.scriptPubKey = some script := by
      rcases hvout with hvout | hvout <;> rw [hvout] <;> rfl
    rw [hone] at hout
    cases hout
    exact hkernel

/-- The coins that are staked. -/
theorem joined_coins {nLimit : Int} {coin : COutput} {kernel : CoinStakeDraft}
    (hdraft : KernelDraft C N W.stake nBits nSearchInterval coin kernel) (hcoin : coin ∈ W.stake.vCoins)
    (hlimit : coin.txout.nValue ≤ nLimit) {more : List COutput}
    (hmore : more = moreCoins C N kernel nLimit (selectCoinsSimple W.stake nLimit) 1 coin.txout.nValue) :
    (∀ c ∈ coin :: more, c ∈ W.stake.vCoins) ∧ (coin :: more).length ≤ 100 ∧
      ((coin :: more).map (COutput.prevout C)).Nodup ∧ worth (coin :: more) ≤ nLimit ∧
      ∀ c ∈ more, c.txout.scriptPubKey = coin.txout.scriptPubKey ∨
        c.txout.scriptPubKey = payToPubKey (W.stake.getPubKey kernel.key) := by
  have hsub : more.Sublist (selectCoinsSimple W.stake nLimit) := hmore ▸ moreCoins_sublist kernel nLimit _ 1 _
  have hsame : ∀ c ∈ more, sameKey C kernel c = true := fun c hc => sameKey_of_mem_moreCoins (hmore ▸ hc)
  have howned : ∀ c ∈ selectCoinsSimple W.stake nLimit, c ∈ W.stake.vCoins := fun c hc => mem_of_mem_selectCoinsSimple hc
  have hpositive : ∀ c ∈ selectCoinsSimple W.stake nLimit, 0 < c.txout.nValue :=
    fun c hc => (StakingWallet.value_range (howned c hc)).1
  refine ⟨?_, ?_, ?_, ?_, fun c hc => (sameKey_spec hdraft (hsame c hc)).2⟩
  · exact forall_mem_cons.mpr ⟨hcoin, fun c hc => howned c (hsub.mem hc)⟩
  · have hlength := moreCoins_length (C := C) (N := N) kernel nLimit (selectCoinsSimple W.stake nLimit)
      (show 1 ≤ 100 by decide) coin.txout.nValue
    rw [← hmore] at hlength
    rw [length_cons]
    omega
  · rw [map_cons, nodup_cons]
    refine ⟨fun hin => ?_, (hsub.map _).nodup (selectCoinsSimple_nodup W nLimit)⟩
    obtain ⟨c, hc, heq⟩ := mem_map.mp hin
    exact (sameKey_spec hdraft (hsame c hc)).1 (congrArg COutPoint.hash heq)
  · have hle := worth_moreCoins_le (C := C) (N := N) kernel hpositive 1
      (Int.le_of_lt (StakingWallet.value_range hcoin).1) hlimit
    rw [← hmore] at hle
    rw [worth_cons]
    exact hle

theorem stakerReward_lt (nVer nCoinAge : Nat) (nFees : Int) : stakerReward N nVer nCoinAge nFees < 2 ^ 63 := by
  unfold stakerReward getProofOfStakeReward
  exact (wrap64_range _).2

/-- The reward and the staker's part of it are 64-bit numbers that are not negative. -/
theorem nEndCreditOf_range (hshare : ∀ r, 0 < r → 0 ≤ N.ctx.posvShare r ∧ N.ctx.posvShare r ≤ r) (nVer : Nat)
    {nReward : Int} (hpositive : 0 < nReward) (hrange : nReward < 2 ^ 63) :
    0 ≤ nEndCreditOf N nVer nReward ∧ nEndCreditOf N nVer nReward ≤ nReward ∧
      nEndCreditOf N nVer nReward + nDevCreditOf N nVer nReward = nReward := by
  have hpart := hshare nReward hpositive
  unfold nEndCreditOf nDevCreditOf
  split_ifs
  · rw [wrap64_of_range (by omega) (by omega)]
    omega
  · omega

/-- What `CreateCoinStake` returns is a coinstake of coins of the wallet, and it pays out exactly its inputs and the reward
if and only if these fit. -/
theorem createCoinStake_balanced_iff (hshare : ∀ r, 0 < r → 0 ≤ N.ctx.posvShare r ∧ N.ctx.posvShare r ≤ r)
    {nBits : Nat} {nSearchInterval nFees : Int} {nVer : Nat} {tx : CTransaction} {key : CKey}
    (h : createCoinStake P C N W.stake nBits nSearchInterval nFees nVer = some (tx, key)) :
    (∃ coins, StakeOf N W nBits nSearchInterval tx key coins) ∧
      (Balanced N W nFees nVer tx ↔ StakeFits P N W nBits nSearchInterval nFees nVer) := by
  have hvalue : ∀ c ∈ W.stake.vCoins, W.wallet.valueOf (c.prevout C) = c.txout.nValue :=
    fun c hc => StakingWallet.valueOf_prevout hc
  obtain ⟨_, _, _, _, hmade⟩ := createCoinStake_ok hvalue h
  obtain ⟨d, hd, h⟩ := Option.bind_eq_some_iff.mp h
  dsimp only at h
  split_ifs at h with hage hreward
  obtain ⟨signed, hsigned, h⟩ := Option.bind_eq_some_iff.mp h
  split_ifs at h with hsize
  obtain ⟨rfl, rfl⟩ := Prod.mk.inj (Option.some.inj h)
  obtain ⟨kernel, coin, more, hstaked, hdraft, hcoin, hmore, hlimit, hreserve, rfl⟩ :=
    stakeInputs_eq (fun c hc => (StakingWallet.value_range hc).1) hd
  dsimp only at hsigned hreward ⊢
  obtain ⟨howned, hmost, hdistinct, hworth, hscripts⟩ := joined_coins hdraft hcoin hlimit hmore
  obtain ⟨hbare, hvout, -, hsign⟩ := signInputs_signed hsigned
  obtain ⟨hprevouts, -, htime⟩ := signInputs_ok hsigned
  obtain ⟨script, -, houtputs⟩ := hdraft.vout
  have hvin : signed.vin.map CTxIn.prevout = (coin :: more).map (COutput.prevout C) := by
    refine hprevouts.trans ?_
    show ((coin :: more).map (txInOf C)).map CTxIn.prevout = _
    rw [map_map]
    rfl
  have hunsigned : signed.bare = unsignedStake P C kernel (coin :: more) := by
    refine hbare.trans ?_
    unfold CTransaction.bare unsignedStake
    dsimp only
    rw [setOutputs_bare houtputs, map_map]
    rfl
  constructor
  · refine ⟨coin :: more, hmade.coinstake, hvin, howned, ⟨coin, more, rfl, ?_, hscripts⟩, hmost, hvin ▸ hdistinct, ?_, ?_⟩
    · rw [htime]
      exact hdraft.kernel
    · obtain ⟨k, hk⟩ := wrap64_eq_add (W.stake.nBalance - N.nReserveBalance)
      have hrange := wrap64_range (W.stake.nBalance - N.nReserveBalance)
      omega
    · intro i c txin hc htxin
      have htx : ((coin :: more).map COutput.tx)[i]? = some c.tx := by
        rw [getElem?_map, hc]
        rfl
      rw [← Nat.zero_add i] at htxin ⊢
      obtain ⟨txPart, hpart, hout, hscript⟩ := hsign i c.tx txin htx htxin
      exact ⟨txPart, hpart.trans hbare.symm, hout.trans hvout.symm, hscript⟩
  · have hinputs : inputValue W.wallet.valueOf signed = worth (coin :: more) := by
      have hsum : inputValue W.wallet.valueOf signed = ((signed.vin.map CTxIn.prevout).map W.wallet.valueOf).sum := by
        rw [map_map]
        rfl
      rw [hsum, hvin, map_map]
      exact congrArg List.sum (map_congr_left fun c hc => hvalue c (howned c hc))
    have hnonneg : 0 ≤ worth (coin :: more) := by
      refine sum_nonneg fun n hn => ?_
      obtain ⟨c, hc, rfl⟩ := mem_map.mp hn
      exact Int.le_of_lt (StakingWallet.value_range (howned c hc)).1
    have hbound : worth (coin :: more) < 2 ^ 63 := by
      have hrange := wrap64_range (W.stake.nBalance - N.nReserveBalance)
      omega
    unfold Balanced StakeFits
    rw [hunsigned, hinputs, hvout]
    simp only [hstaked, Option.some.injEq, Prod.mk.injEq, and_imp, forall_apply_eq_imp_iff, forall_eq']
    generalize hrew : stakerReward N nVer (N.ctx.getCoinAge (unsignedStake P C kernel (coin :: more))) nFees = nReward at *
    obtain ⟨hlo, hhi, hsum⟩ := nEndCreditOf_range hshare nVer (Int.not_le.mp hreward) (by
      rw [← hrew]
      exact stakerReward_lt _ _ _)
    obtain ⟨k, hk⟩ := wrap64_eq_add (worth (coin :: more) + nEndCreditOf N nVer nReward)
    have hrange := wrap64_range (worth (coin :: more) + nEndCreditOf N nVer nReward)
    have hpaid : valueOf (setOutputs (kernel.txNew.vout ++ [⟨0, payToPubKey P.devKey⟩])
        (wrap64 (worth (coin :: more) + nEndCreditOf N nVer nReward)) (nDevCreditOf N nVer nReward)) =
          wrap64 (worth (coin :: more) + nEndCreditOf N nVer nReward) + nDevCreditOf N nVer nReward :=
      valueOf_setOutputs houtputs hrange.1 hrange.2
    dsimp only [unsignedStake]
    rw [hpaid]
    constructor
    · intro heq
      omega
    · intro hfits
      omega

end

namespace Example

/-- A transaction of the wallet whose output is `n`. -/
def stakedTx (n : Int) : CTransaction :=
  { coinbaseTx [keyOut n] with nTime := 90 }

def spendWalletOf (n : Int) : SpendWallet where
  mapWallet := [(crypto.txHash (stakedTx n), ⟨stakedTx n, by show 1 < 2 ^ 32; decide⟩)]
  keys := by simp
  isFinalTx _ := true
  isTrusted _ := true
  getBlocksToMaturity _ := 0
  getDepthInMainChain _ := 100
  isMine _ := .spendable
  isSpent _ _ := false
  isLockedCoin _ _ := false
  isFromMe _ := false
  bSpendZeroConfChange := true
  address hash := hash
  signSignature _ _ _ := some []

/-- A wallet with one coin that has the key of the kernel. -/
def stakingWallet (n : Int) (h : n < 2 ^ 63) : StakingWallet crypto where
  wallet := spendWalletOf n
  stake :=
    { wallet with
      nBalance := n
      vCoins := ((spendWalletOf n).availableCoinsMinConf (COINBASE_MATURITY + 20)).map
        CoinSelection.DeepOutput.toCOutput }
  hashes := by
    intro entry hentry
    rw [mem_singleton.mp hentry]
  amounts := by
    intro entry hentry out hout
    rw [mem_singleton.mp hentry] at hout
    rw [mem_singleton.mp hout]
    exact h
  coins := rfl

def modestWallet : StakingWallet crypto :=
  stakingWallet 5000000000000 (by decide)

def richWallet : StakingWallet crypto :=
  stakingWallet MAX_MONEY (by decide)

/-- Twenty hours after the transaction of the coin, which have a weight of 44390 seconds. -/
def agedNode (n : Nat) : StakeNode :=
  { stakingNode with
    ctx := { context with
      versions := [4, 4]
      getCoinAge := fun _ => n * 44390 / COIN.toNat / 86400
      posvShare := fun nReward => nReward * 92 / 100 }
    nAdjustedTime := 72090
    checkStakeKernelHash := fun _ _ _ _ _ nTimeTx => decide (nTimeTx = 72090)
    getCoinAgeWeight := fun _ _ => 44390 }

end Example

open Example

theorem createCoinStake_balanced_iff_example : ∃ tx key, createCoinStake params crypto (agedNode 5000000000000)
      modestWallet.stake 0 16 0 2 = some (tx, key) ∧
    Balanced (agedNode 5000000000000) modestWallet 0 2 tx := by
  obtain ⟨⟨tx, key⟩, hcreate⟩ := Option.isSome_iff_exists.mp (by decide +kernel : (createCoinStake params
    crypto (agedNode 5000000000000) modestWallet.stake 0 16 0
      2).isSome = true)
  refine ⟨tx, key, hcreate, ?_⟩
  have hshare : ∀ r, 0 < r → 0 ≤ (agedNode 5000000000000).ctx.posvShare r ∧
      (agedNode 5000000000000).ctx.posvShare r ≤ r := by
    intro r hr
    show 0 ≤ r * 92 / 100 ∧ r * 92 / 100 ≤ r
    omega
  refine (createCoinStake_balanced_iff hshare hcreate).2.mpr ?_
  intro kernel coins hstaked
  have hworth : ((stakedCoins params crypto (agedNode 5000000000000)
      modestWallet.stake 0 16).map fun staked => worth staked.2) = some 5000000000000 := by decide +kernel
  rw [hstaked] at hworth
  have hcoins : worth coins = 5000000000000 := Option.some.inj hworth
  rw [hcoins]
  show 5000000000000 + nEndCreditOf (agedNode 5000000000000) 2 (stakerReward (agedNode 5000000000000) 2
    (5000000000000 * 44390 / COIN.toNat / 86400) 0) < 2 ^ 63
  decide +kernel

/-- A coin of `MAX_MONEY`: with the reward its output overflows, and the coinstake pays out a negative amount. -/
theorem createCoinStake_overflow : ∃ tx key, createCoinStake params crypto (agedNode 9223372036800000000)
      richWallet.stake 0 16 0 2 = some (tx, key) ∧
    ¬ Balanced (agedNode 9223372036800000000) richWallet 0 2 tx := by
  obtain ⟨⟨tx, key⟩, hcreate, hbalanced⟩ := Option.map_eq_some_iff.mp (by decide +kernel : (createCoinStake params
    crypto (agedNode 9223372036800000000) richWallet.stake 0 16 0
      2).map (fun created => decide (Balanced (agedNode 9223372036800000000)
        richWallet 0 2 created.1)) = some false)
  exact ⟨tx, key, hcreate, of_decide_eq_false hbalanced⟩

end Reddcoin
