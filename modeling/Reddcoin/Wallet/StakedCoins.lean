import Reddcoin.Wallet.PaidTransaction

/-!
# The coins of a coinstake

`CreateCoinStake` keeps the inputs, the transactions they spend from and their sum in three variables of their own.  They are
those of one list of coins, which is chosen here without them.
-/

namespace Reddcoin

open CoinSelection List

/-! ## The coins of the wallet -/

namespace SpendWallet

variable (W : SpendWallet) (nConf : Int) {coin : COutput} {coins : List COutput}

/-- The tests of `AvailableCoinsMinConf` on an output. -/
def offersMinConf (output : DeepOutput) : Bool :=
  !W.isSpent output.hash output.i && decide (W.isMine output.txout ≠ .no) && !W.isLockedCoin output.hash output.i &&
    decide (0 < output.txout.nValue)

def availableMinConfOf (wtxid : Uint256) (pcoin : StoredTx) : List DeepOutput :=
  if !W.isFinalTx pcoin.tx then []
  else if !W.isTrusted wtxid then []
  else if (pcoin.tx.isCoinBase || pcoin.tx.isCoinStake) && decide (0 < W.getBlocksToMaturity wtxid) then []
  else if W.getDepthInMainChain wtxid < nConf then []
  else ((List.finRange pcoin.tx.vout.length).map (W.outputOf wtxid pcoin)).filter W.offersMinConf

/-- `AvailableCoinsMinConf(vCoins, nConf)`. -/
def availableCoinsMinConf : List DeepOutput :=
  W.mapWallet.flatMap fun entry => W.availableMinConfOf nConf entry.1 entry.2

variable {W nConf}

theorem availableMinConfOf_sublist (wtxid : Uint256) (pcoin : StoredTx) :
    (W.availableMinConfOf nConf wtxid pcoin).Sublist
      ((List.finRange pcoin.tx.vout.length).map (W.outputOf wtxid pcoin)) := by
  unfold availableMinConfOf
  split_ifs
  · exact nil_sublist _
  · exact nil_sublist _
  · exact nil_sublist _
  · exact nil_sublist _
  · exact filter_sublist

theorem mem_availableCoinsMinConf {output : DeepOutput} (h : output ∈ W.availableCoinsMinConf nConf) :
    ∃ pcoin, (output.hash, pcoin) ∈ W.mapWallet ∧ pcoin.tx = output.tx ∧ 0 < output.txout.nValue := by
  obtain ⟨entry, hentry, hof⟩ := mem_flatMap.mp h
  obtain ⟨i, -, rfl⟩ := mem_map.mp ((availableMinConfOf_sublist entry.1 entry.2).mem hof)
  refine ⟨entry.2, hentry, rfl, ?_⟩
  unfold availableMinConfOf at hof
  split_ifs at hof
  · cases hof
  · cases hof
  · cases hof
  · cases hof
  · have hoffers := (mem_filter.mp hof).2
    unfold offersMinConf at hoffers
    simp only [Bool.and_eq_true, decide_eq_true_eq] at hoffers
    exact hoffers.2

end SpendWallet

/-- An unlocked wallet that stakes: its transactions are known by their hashes, and their amounts are 64-bit numbers. -/
structure StakingWallet (C : Crypto) where
  wallet : SpendWallet
  stake : StakeWallet
  hashes : ∀ entry ∈ wallet.mapWallet, C.txHash entry.2.tx = entry.1
  amounts : ∀ entry ∈ wallet.mapWallet, ∀ out ∈ entry.2.tx.vout, out.nValue < 2 ^ 63
  coins : stake.vCoins = (wallet.availableCoinsMinConf (COINBASE_MATURITY + 20)).map DeepOutput.toCOutput

namespace StakingWallet

variable {C : Crypto} {W : StakingWallet C}

theorem prevout_toCOutput {output : DeepOutput} (h : output ∈ W.wallet.availableCoinsMinConf (COINBASE_MATURITY + 20)) :
    output.toCOutput.prevout C = { hash := output.hash, n := output.i } := by
  obtain ⟨pcoin, hentry, htx, -⟩ := SpendWallet.mem_availableCoinsMinConf h
  have hhash := W.hashes _ hentry
  rw [htx] at hhash
  unfold COutput.prevout
  rw [hhash]

theorem value_range (h : coin ∈ W.stake.vCoins) : 0 < coin.txout.nValue ∧ coin.txout.nValue < 2 ^ 63 := by
  rw [W.coins] at h
  obtain ⟨output, hmem, rfl⟩ := mem_map.mp h
  obtain ⟨pcoin, hentry, htx, hpositive⟩ := SpendWallet.mem_availableCoinsMinConf hmem
  refine ⟨hpositive, W.amounts _ hentry _ ?_⟩
  rw [htx]
  exact mem_of_getElem? output.found

theorem prevouts_nodup (W : StakingWallet C) : (W.stake.vCoins.map (COutput.prevout C)).Nodup := by
  have hnodup : ((W.wallet.availableCoinsMinConf (COINBASE_MATURITY + 20)).map fun output =>
      (output.hash, output.i)).Nodup := W.wallet.nodup_of_sublists SpendWallet.availableMinConfOf_sublist
  have hmap : W.stake.vCoins.map (COutput.prevout C) =
      ((W.wallet.availableCoinsMinConf (COINBASE_MATURITY + 20)).map fun output => (output.hash, output.i)).map
        fun outpoint => ({ hash := outpoint.1, n := outpoint.2 } : COutPoint) := by
    rw [W.coins, map_map, map_map]
    exact map_congr_left fun output houtput => prevout_toCOutput houtput
  rw [hmap]
  exact hnodup.map fun a b hab => Prod.ext (COutPoint.mk.inj hab).1 (COutPoint.mk.inj hab).2

theorem valueOf_prevout (h : coin ∈ W.stake.vCoins) : W.wallet.valueOf (coin.prevout C) = coin.txout.nValue := by
  rw [W.coins] at h
  obtain ⟨output, hmem, rfl⟩ := mem_map.mp h
  obtain ⟨pcoin, hentry, htx, -⟩ := SpendWallet.mem_availableCoinsMinConf hmem
  rw [prevout_toCOutput hmem]
  unfold SpendWallet.valueOf
  dsimp only
  rw [SpendWallet.find?_of_mem W.wallet.keys hentry, Option.bind_some]
  dsimp only
  rw [htx, output.found]
  rfl

end StakingWallet

/-! ## The coins that are staked -/

/-- What coins are worth. -/
def worth (coins : List COutput) : Int :=
  (coins.map fun coin => coin.txout.nValue).sum

theorem worth_append (coins more : List COutput) : worth (coins ++ more) = worth coins + worth more := by
  unfold worth
  rw [map_append, sum_append]

theorem worth_cons (coin : COutput) (coins : List COutput) : worth (coin :: coins) = coin.txout.nValue + worth coins :=
  rfl

theorem worth_singleton (coin : COutput) : worth [coin] = coin.txout.nValue :=
  Int.add_zero _

section

variable (P : CChainParams) (C : Crypto) (N : StakeNode) (W : StakeWallet)

/-- The coins that join the kernel of a draft, when there are `nIn` inputs worth `nCredit`. -/
def moreCoins (kernel : CoinStakeDraft) (nLimit : Int) : List COutput → Nat → Int → List COutput
  | [], _, _ => []
  | coin :: coins, nIn, nCredit =>
    if sameKey C kernel coin then
      if 100 ≤ nIn ∨ nStakeCombineThreshold ≤ nCredit ∨ nLimit < wrap64 (nCredit + coin.txout.nValue) then []
      else if coin.txout.nValue < nStakeCombineThreshold ∧ oldEnough C N kernel coin = true then
        coin :: moreCoins kernel nLimit coins (nIn + 1) (nCredit + coin.txout.nValue)
      else moreCoins kernel nLimit coins nIn nCredit
    else moreCoins kernel nLimit coins nIn nCredit

/-- The kernel and the coins that join it, with the draft of the kernel alone. -/
def stakedCoins (nBits : Nat) (nSearchInterval : Int) : Option (CoinStakeDraft × List COutput) :=
  let nLimit := wrap64 (W.nBalance - N.nReserveBalance)
  let setCoins := selectCoinsSimple W nLimit
  setCoins.findSome? fun coin => (tryKernel P C N W nBits nSearchInterval (emptyCoinStake N) coin).map fun kernel =>
    (kernel, coin :: moreCoins C N kernel nLimit setCoins 1 coin.txout.nValue)

/-- The draft with the inputs of more coins. -/
def CoinStakeDraft.withCoins (d : CoinStakeDraft) (more : List COutput) : CoinStakeDraft :=
  { d with
    txNew := { d.txNew with vin := d.txNew.vin ++ more.map (txInOf C) }
    nCredit := d.nCredit + worth more
    vwtxPrev := d.vwtxPrev ++ more.map COutput.tx }

end

section

variable {P : CChainParams} {C : Crypto} {N : StakeNode} {W : StakeWallet}

theorem CoinStakeDraft.withCoins_nil (d : CoinStakeDraft) : d.withCoins C [] = d := by
  unfold withCoins worth
  simp

theorem sameKey_withCoins {d : CoinStakeDraft} (hvin : d.txNew.vin ≠ []) (more : List COutput) (coin : COutput) :
    sameKey C (d.withCoins C more) coin = sameKey C d coin := by
  obtain ⟨txin, vin, hvin⟩ := exists_cons_of_ne_nil hvin
  unfold sameKey CoinStakeDraft.withCoins
  simp only [hvin, cons_append, head?_cons]

theorem oldEnough_withCoins (d : CoinStakeDraft) (more : List COutput) (coin : COutput) :
    oldEnough C N (d.withCoins C more) coin = oldEnough C N d coin :=
  rfl

theorem addInput_withCoins {d : CoinStakeDraft} {more : List COutput}
    (hlo : -(2 ^ 63) ≤ d.nCredit + worth more + coin.txout.nValue)
    (hhi : d.nCredit + worth more + coin.txout.nValue < 2 ^ 63) :
    addInput C (d.withCoins C more) coin = d.withCoins C (more ++ [coin]) := by
  unfold addInput CoinStakeDraft.withCoins
  dsimp only
  rw [wrap64_of_range hlo hhi, worth_append, worth_singleton, Int.add_assoc]
  simp only [map_append, map_cons, map_nil, append_assoc]

/-- The loop of `CreateCoinStake` adds the inputs of the coins that join. -/
theorem addInputs_withCoins {d : CoinStakeDraft} (hvin : d.txNew.vin ≠ []) (nLimit : Int)
    (hcoins : ∀ coin ∈ coins, 0 < coin.txout.nValue) {more : List COutput} (hcredit : 0 ≤ d.nCredit + worth more) :
    addInputs C N nLimit coins (d.withCoins C more) = d.withCoins C (more ++
      moreCoins C N d nLimit coins (d.txNew.vin.length + more.length) (d.nCredit + worth more)) := by
  induction coins generalizing more with
  | nil =>
    rw [addInputs, moreCoins, append_nil]
  | cons coin coins ih =>
    have hthreshold : nStakeCombineThreshold = 200000000000000 := rfl
    have hcoin := hcoins coin mem_cons_self
    have hrest := fun c hc => hcoins c (mem_cons_of_mem coin hc)
    have hlength : (d.withCoins C more).txNew.vin.length = d.txNew.vin.length + more.length := by
      unfold CoinStakeDraft.withCoins
      dsimp only
      rw [length_append, length_map]
    have hnCredit : (d.withCoins C more).nCredit = d.nCredit + worth more := rfl
    rw [addInputs, moreCoins, sameKey_withCoins hvin, oldEnough_withCoins, hlength, hnCredit]
    by_cases hsame : sameKey C d coin = true
    · rw [if_pos hsame, if_pos hsame]
      by_cases hfull : 100 ≤ d.txNew.vin.length + more.length
      · rw [if_pos hfull, if_pos (.inl hfull), append_nil]
      · by_cases hmuch : nStakeCombineThreshold ≤ d.nCredit + worth more
        · rw [if_neg hfull, if_pos hmuch, if_pos (.inr (.inl hmuch)), append_nil]
        · by_cases hreserve : nLimit < wrap64 (d.nCredit + worth more + coin.txout.nValue)
          · rw [if_neg hfull, if_neg hmuch, if_pos hreserve, if_pos (.inr (.inr hreserve)), append_nil]
          · have hopen : ¬ (100 ≤ d.txNew.vin.length + more.length ∨ nStakeCombineThreshold ≤ d.nCredit + worth more ∨
                nLimit < wrap64 (d.nCredit + worth more + coin.txout.nValue)) :=
              not_or.mpr ⟨hfull, not_or.mpr ⟨hmuch, hreserve⟩⟩
            rw [if_neg hfull, if_neg hmuch, if_neg hreserve, if_neg hopen]
            by_cases hlarge : nStakeCombineThreshold ≤ coin.txout.nValue
            · rw [if_pos hlarge, if_neg (fun h => absurd hlarge (Int.not_le.mpr h.1))]
              exact ih hrest hcredit
            · rw [if_neg hlarge]
              by_cases hold : oldEnough C N d coin = true
              · rw [if_pos hold, if_pos ⟨Int.not_le.mp hlarge, hold⟩, addInput_withCoins (by omega) (by omega)]
                have hworth : d.nCredit + worth (more ++ [coin]) = d.nCredit + worth more + coin.txout.nValue := by
                  rw [worth_append, worth_singleton, Int.add_assoc]
                rw [ih hrest (by omega), hworth, length_append, length_singleton, ← Nat.add_assoc,
                  append_assoc, singleton_append]
              · rw [if_neg hold, if_neg (fun h => hold h.2)]
                exact ih hrest hcredit
    · rw [if_neg hsame, if_neg hsame]
      exact ih hrest hcredit

/-! ## What the coins have in common -/

theorem moreCoins_sublist (kernel : CoinStakeDraft) (nLimit : Int) (coins : List COutput) (nIn : Nat) (nCredit : Int) :
    (moreCoins C N kernel nLimit coins nIn nCredit).Sublist coins := by
  induction coins generalizing nIn nCredit with
  | nil => exact List.Sublist.refl []
  | cons coin coins ih =>
    rw [moreCoins]
    split_ifs
    · exact nil_sublist _
    · exact (ih _ _).cons_cons coin
    · exact (ih _ _).cons coin
    · exact (ih _ _).cons coin

theorem sameKey_of_mem_moreCoins {kernel : CoinStakeDraft} {nLimit : Int} {nIn : Nat}
    {nCredit : Int} (h : coin ∈ moreCoins C N kernel nLimit coins nIn nCredit) : sameKey C kernel coin = true := by
  induction coins generalizing nIn nCredit with
  | nil => cases h
  | cons head coins ih =>
    rw [moreCoins] at h
    split_ifs at h with hsame hstop hjoins
    · cases h
    · rcases mem_cons.mp h with rfl | h
      · exact hsame
      · exact ih h
    · exact ih h
    · exact ih h

theorem moreCoins_length (kernel : CoinStakeDraft) (nLimit : Int) (coins : List COutput) {nIn : Nat} (hIn : nIn ≤ 100)
    (nCredit : Int) : nIn + (moreCoins C N kernel nLimit coins nIn nCredit).length ≤ 100 := by
  induction coins generalizing nIn nCredit with
  | nil => exact hIn
  | cons coin coins ih =>
    rw [moreCoins]
    split_ifs with hsame hstop hjoins
    · exact hIn
    · have hmore := ih (show nIn + 1 ≤ 100 by omega) (nCredit + coin.txout.nValue)
      rw [length_cons]
      omega
    · exact ih hIn nCredit
    · exact ih hIn nCredit

/-- The coins that join stay within the reserve limit. -/
theorem worth_moreCoins_le (kernel : CoinStakeDraft) {nLimit : Int} (hcoins : ∀ coin ∈ coins, 0 < coin.txout.nValue)
    (nIn : Nat) {nCredit : Int} (hcredit : 0 ≤ nCredit)
    (hlimit : nCredit ≤ nLimit) : nCredit + worth (moreCoins C N kernel nLimit coins nIn nCredit) ≤ nLimit := by
  induction coins generalizing nIn nCredit with
  | nil =>
    show nCredit + 0 ≤ nLimit
    omega
  | cons coin coins ih =>
    have hthreshold : nStakeCombineThreshold = 200000000000000 := rfl
    have hcoin := hcoins coin mem_cons_self
    have hrest := fun c hc => hcoins c (mem_cons_of_mem coin hc)
    rw [moreCoins]
    split_ifs with hsame hstop hjoins
    · show nCredit + 0 ≤ nLimit
      omega
    · obtain ⟨-, hmuch, hreserve⟩ : ¬ 100 ≤ nIn ∧ ¬ nStakeCombineThreshold ≤ nCredit ∧
          ¬ nLimit < wrap64 (nCredit + coin.txout.nValue) := by
        rw [not_or, not_or] at hstop
        exact hstop
      rw [wrap64_of_range (by omega) (by omega)] at hreserve
      have hmore := ih hrest (nIn + 1) (show 0 ≤ nCredit + coin.txout.nValue by omega) (by omega)
      rw [worth_cons]
      omega
    · exact ih hrest nIn hcredit hlimit
    · exact ih hrest nIn hcredit hlimit

end

end Reddcoin
