import Reddcoin.Connect.Value
import Reddcoin.Wallet.CoinStake

/-!
# Signing a proof-of-stake block

`SignBlock` of `wallet.cpp`, and which of the blocks it signs meet the timestamp rules of `CheckBlock` and the
reward rules of `ConnectBlock`.
-/

namespace Reddcoin

open List

variable {txs : List CTransaction} {pblock : CBlock}

def pastDrift (nTime : Int) : Int :=
  nTime - 2 * 60 * 60

def CBlock.getMaxTransactionTime (block : CBlock) : Int :=
  block.vtx.foldl (fun t tx => max t tx.nTime) 0

/-- The search times that `SignBlock` keeps between calls. -/
structure StakeClock where
  nLastCoinStakeSearchTime : Int
  nLastCoinStakeSearchInterval : Int

structure SignResult where
  pblock : CBlock
  signed : Bool
  clock : StakeClock

section

variable (P : CChainParams) (C : Crypto) (N : StakeNode) (W : StakeWallet)

/-- The template with the time of the coinstake, in the header and in its coinbase. -/
def datedBlock (pblock : CBlock) (coinbase : CTransaction) (txs : List CTransaction)
    (txCoinStake : CTransaction) : CBlock :=
  { pblock with nTime := txCoinStake.nTime, vtx := { coinbase with nTime := txCoinStake.nTime } :: txs }

/-- The block with its coinstake, not yet signed.  The time is set to the latest of the transactions, and no
transaction after it is kept. -/
def stakedBlock (pblock : CBlock) (coinbase : CTransaction) (txs : List CTransaction)
    (txCoinStake : CTransaction) : CBlock :=
  let pblock := datedBlock pblock coinbase txs txCoinStake
  let nTime := toUInt32 (max (N.nMedianTimePast + 1) pblock.getMaxTransactionTime)
  let nTime := toUInt32 (max nTime (pastDrift N.nTipTime))
  let vtx := pblock.vtx.filter fun tx => decide (tx.nTime ≤ nTime)
  let pblock : CBlock := { pblock with nTime := nTime, vtx := vtx.insertIdx 1 txCoinStake }
  { pblock with hashMerkleRoot := (pblock.buildMerkleTree C).1 }

/-- The reward version that the staker uses. -/
def nPosvVer : Nat :=
  if isSuperMajority P 5 N.ctx.versions.tail P.enforceBlockUpgradeMajority_5 then 2 else 1

/-- `SignBlock`.  Accesses to a missing first transaction or output are undefined. -/
def signBlock (clock : StakeClock) (pblock : CBlock) (nFees : Int) : Check SignResult :=
  match pblock.vtx with
  | [] => .error .crashes
  | coinbase :: txs =>
    match coinbase.vout with
    | [] => .error .crashes
    | out :: _ =>
      if !out.isEmpty then pure { pblock := pblock, signed := false, clock := clock }
      else if pblock.isProofOfStake then pure { pblock := pblock, signed := true, clock := clock }
      else
        let nSearchTime : Int := N.nAdjustedTime
        let nSearchInterval := nSearchTime - clock.nLastCoinStakeSearchTime
        if clock.nLastCoinStakeSearchTime < nSearchTime then
          let missed : SignResult :=
            { pblock := pblock, signed := false,
              clock :=
                { nLastCoinStakeSearchTime := nSearchTime
                  nLastCoinStakeSearchInterval := nSearchInterval } }
          match createCoinStake P C N W pblock.nBits nSearchInterval nFees (nPosvVer P N) with
          | none => pure missed
          | some (txCoinStake, key) =>
            if max (N.nMedianTimePast + 1) (pastDrift N.nTipTime) ≤ txCoinStake.nTime then
              let block := stakedBlock C N pblock coinbase txs txCoinStake
              match W.sign key (block.getHash C) with
              | none => pure { pblock := block, signed := false, clock := clock }
              | some vchBlockSig =>
                pure
                  { pblock := { block with vchBlockSig := vchBlockSig }, signed := true,
                    clock := clock }
            else pure missed
        else pure { pblock := pblock, signed := false, clock := clock }

end

/-! ## The rules -/

section

variable (value : COutPoint → Int)

def feeOf (tx : CTransaction) : Int :=
  inputValue value tx - valueOf tx.vout

/-- The fees of the ordinary transactions of a block. -/
def feesOf (block : CBlock) : Int :=
  wrap64 (((block.vtx.filter isOrdinary).map (feeOf value)).sum)

/-- What a coinstake pays out beyond its inputs. -/
def stakeRewardOf (coinstake : CTransaction) : Int :=
  wrap64 (valueOf coinstake.vout - inputValue value coinstake)

/-- The timestamp rules of `CheckBlock` for a proof-of-stake block and the reward rules of `ConnectBlock`, after a
transaction loop that has added up the fees and the stake reward of the block. -/
structure MeetsStakeRules (P : CChainParams) (ctx : ConnectContext) (block : CBlock)
    (coinstake : CTransaction) : Prop where
  coinstake_time : block.getBlockTime = coinstake.nTime
  transaction_times : ∀ tx ∈ block.vtx, (tx.nTime : Int) ≤ block.getBlockTime
  reward : ∀ s : ConnectState, s.nFees = feesOf value block →
    s.nStakeReward = stakeRewardOf value coinstake → checkReward P ctx block s = .ok ()

/-- A template without a coinstake: a coinbase and ordinary transactions. -/
structure StakeTemplate (pblock : CBlock) (coinbase : CTransaction) (txs : List CTransaction) : Prop where
  vtx : pblock.vtx = coinbase :: txs
  version : pblock.nVersion = 5
  coinbase : coinbase.isCoinBase = true
  ordinary : ∀ tx ∈ txs, isOrdinary tx = true
  times : ∀ tx ∈ txs, tx.nTime < 2 ^ 32

end

/-! ## The time of a signed block -/

section

variable {P : CChainParams} {C : Crypto} {N : StakeNode} {W : StakeWallet} {value : COutPoint → Int}

theorem toUInt32_of_range {x : Int} (hlo : 0 ≤ x) (hhi : x < 2 ^ 32) : (toUInt32 x : Int) = x := by
  unfold toUInt32
  omega

theorem foldl_max_le {t b : Int} :
    txs.foldl (fun t tx => max t (tx.nTime : Int)) t ≤ b ↔ t ≤ b ∧ ∀ tx ∈ txs, (tx.nTime : Int) ≤ b := by
  induction txs generalizing t with
  | nil => simp
  | cons tx txs ih =>
    rw [foldl_cons, ih, max_le_iff, forall_mem_cons, and_assoc]

theorem getMaxTransactionTime_le {block : CBlock} {b : Int} (hb : 0 ≤ b) :
    block.getMaxTransactionTime ≤ b ↔ ∀ tx ∈ block.vtx, (tx.nTime : Int) ≤ b := by
  unfold CBlock.getMaxTransactionTime
  rw [foldl_max_le]
  simp [hb]

theorem le_getMaxTransactionTime {block : CBlock} {tx : CTransaction} (h : tx ∈ block.vtx) :
    (tx.nTime : Int) ≤ block.getMaxTransactionTime := by
  have hnonneg : 0 ≤ block.getMaxTransactionTime := (foldl_max_le.mp (le_refl _)).1
  exact (getMaxTransactionTime_le hnonneg).mp (le_refl _) tx h

/-- The time of the block is that of its latest transaction, so none is dropped. -/
theorem stakedBlock_eq (C : Crypto) (pblock : CBlock) (coinbase : CTransaction)
    {txCoinStake : CTransaction} (htime : max (N.nMedianTimePast + 1) (pastDrift N.nTipTime) ≤ txCoinStake.nTime)
    (hstake : txCoinStake.nTime < 2 ^ 32) (htxs : ∀ tx ∈ txs, tx.nTime < 2 ^ 32) :
    (stakedBlock C N pblock coinbase txs txCoinStake).vtx =
        { coinbase with nTime := txCoinStake.nTime } :: txCoinStake :: txs ∧
      (∀ tx ∈ (stakedBlock C N pblock coinbase txs txCoinStake).vtx,
        (tx.nTime : Int) ≤ (stakedBlock C N pblock coinbase txs txCoinStake).getBlockTime) ∧
      ((stakedBlock C N pblock coinbase txs txCoinStake).getBlockTime = txCoinStake.nTime ↔
        ∀ tx ∈ txs, tx.nTime ≤ txCoinStake.nTime) := by
  obtain ⟨hmedian, hdrift⟩ := max_le_iff.mp htime
  generalize hdated : datedBlock pblock coinbase txs txCoinStake = dated
  have hvtx : dated.vtx = { coinbase with nTime := txCoinStake.nTime } :: txs := by
    rw [← hdated]
    rfl
  have hfirst : (txCoinStake.nTime : Int) ≤ dated.getMaxTransactionTime := by
    have hmem : { coinbase with nTime := txCoinStake.nTime } ∈ dated.vtx := by
      rw [hvtx]
      exact mem_cons_self
    have hle := le_getMaxTransactionTime hmem
    exact hle
  have hlt : dated.getMaxTransactionTime ≤ 2 ^ 32 - 1 := by
    rw [getMaxTransactionTime_le (by norm_num), hvtx]
    intro tx htx
    rcases mem_cons.mp htx with rfl | htx
    · show (txCoinStake.nTime : Int) ≤ 2 ^ 32 - 1
      omega
    · have hbound := htxs tx htx
      omega
  have hset : (toUInt32 (max (N.nMedianTimePast + 1) dated.getMaxTransactionTime) : Int) =
      dated.getMaxTransactionTime := by
    rw [max_eq_right (by omega)]
    exact toUInt32_of_range (by omega) (by omega)
  have hlast : (toUInt32 (max (toUInt32 (max (N.nMedianTimePast + 1) dated.getMaxTransactionTime))
      (pastDrift N.nTipTime)) : Int) = dated.getMaxTransactionTime := by
    rw [hset, max_eq_left (by omega)]
    exact toUInt32_of_range (by omega) (by omega)
  have hblockTime : (stakedBlock C N pblock coinbase txs txCoinStake).getBlockTime = dated.getMaxTransactionTime := by
    rw [← hlast, ← hdated]
    rfl
  have hkept : dated.vtx.filter (fun tx => decide (tx.nTime ≤ toUInt32 (max (toUInt32
      (max (N.nMedianTimePast + 1) dated.getMaxTransactionTime)) (pastDrift N.nTipTime)))) = dated.vtx := by
    apply filter_eq_self.mpr
    intro tx htx
    have hle := le_getMaxTransactionTime htx
    rw [decide_eq_true_eq]
    omega
  have hall : (stakedBlock C N pblock coinbase txs txCoinStake).vtx =
      { coinbase with nTime := txCoinStake.nTime } :: txCoinStake :: txs := by
    show (List.filter _ _).insertIdx 1 txCoinStake = _
    rw [← hdated] at hkept hvtx
    rw [hkept]
    rfl
  refine ⟨hall, fun tx htx => ?_, ?_⟩
  · rw [hblockTime]
    rw [hall] at htx
    rcases mem_cons.mp htx with rfl | htx
    · exact hfirst
    · rcases mem_cons.mp htx with rfl | htx
      · exact hfirst
      · exact le_getMaxTransactionTime (by rw [hvtx]; exact mem_cons_of_mem _ htx)
  · rw [hblockTime]
    constructor
    · intro heq tx htx
      have hle : (tx.nTime : Int) ≤ dated.getMaxTransactionTime :=
        le_getMaxTransactionTime (by rw [hvtx]; exact mem_cons_of_mem _ htx)
      omega
    · intro hle
      refine le_antisymm ?_ hfirst
      rw [getMaxTransactionTime_le (Int.natCast_nonneg _), hvtx]
      intro tx htx
      rcases mem_cons.mp htx with rfl | htx
      · exact le_refl _
      · exact Int.ofNat_le.mpr (hle tx htx)

/-! ## The reward of a signed block -/

/-- A majority at the tip's parent for rejecting older blocks is one for enforcing the new rules. -/
theorem isSuperMajority_mono {minVersion : Int} {versions : List Int} {n m : Nat} (hle : n ≤ m)
    (h : isSuperMajority P minVersion versions m) :
    isSuperMajority P minVersion versions n = true := by
  unfold isSuperMajority at h ⊢
  rw [decide_eq_true_eq] at h ⊢
  exact hle.trans h

/-- The reward rules for a version 5 block: the coin age, the dev fund and the amount. -/
theorem checkReward_stake {ctx : ConnectContext} {block : CBlock} {coinbase coinstake : CTransaction}
    {s : ConnectState} (hvtx : block.vtx = coinbase :: coinstake :: txs)
    (hversion : block.nVersion = 5) (hstake : coinstake.isCoinStake) :
    checkReward P ctx block s = .ok () ↔ ctx.getCoinAge coinstake ≠ 0 ∧ checkDevCredit P ctx
        (getProofOfStakeReward ctx.inflationAdjustment (ctx.getCoinAge coinstake) s.nFees) coinstake = .ok () ∧
      s.nStakeReward ≤ getProofOfStakeReward ctx.inflationAdjustment (ctx.getCoinAge coinstake) s.nFees := by
  have hwork : block.isProofOfWork = false := by
    simp [CBlock.isProofOfWork, CBlock.isProofOfStake, hvtx, hstake]
  have hadjust : rewardAdjustment ctx block = ctx.inflationAdjustment := by
    unfold rewardAdjustment
    rw [hversion]
    rfl
  unfold checkReward
  rw [hvtx]
  simp only [hwork, Bool.false_eq_true, if_false, check_seq_ok, require_eq_ok, decide_eq_true_eq, hadjust,
    onlyIf_eq_ok, hversion]
  norm_num

theorem checkDevCredit_ok {ctx : ConnectContext} {nReward : Int} {coinstake : CTransaction} {out : CTxOut}
    (hstake : coinstake.isCoinStake) (hlast : coinstake.vout.getLast? = some out)
    (hkey : out.scriptPubKey = payToPubKey P.devKey) :
    checkDevCredit P ctx nReward coinstake = .ok () ↔
      (isSuperMajority P 5 ctx.versions P.rejectBlockOutdatedMajority_5 →
        isSuperMajority P 5 ctx.versions.tail P.rejectBlockOutdatedMajority_5 →
        out.nValue = wrap64 (nReward - ctx.posvShare nReward)) := by
  have hdev : isDevTx P coinstake = true := by
    simp [isDevTx, hstake, hlast, hkey]
  simp only [checkDevCredit, check_seq_ok, require_eq_ok, hdev, hlast, Option.map_some, Option.getD_some, true_and]
  cases isSuperMajority P 5 ctx.versions P.rejectBlockOutdatedMajority_5 <;>
    cases isSuperMajority P 5 ctx.versions.tail P.rejectBlockOutdatedMajority_5 <;> simp

theorem stakerReward_range (nVer nCoinAge : Nat) (nFees : Int) :
    wrap64 (stakerReward N nVer nCoinAge nFees) = stakerReward N nVer nCoinAge nFees := by
  unfold stakerReward getProofOfStakeReward
  exact wrap64_of_range (wrap64_range _).1 (wrap64_range _).2

theorem StakeTemplate.not_stake {coinbase : CTransaction} (ht : StakeTemplate pblock coinbase txs) :
    pblock.isProofOfStake = false := by
  unfold CBlock.isProofOfStake
  rw [ht.vtx]
  cases txs with
  | nil => rfl
  | cons tx txs =>
    have hord := ht.ordinary tx mem_cons_self
    simp only [isOrdinary, Bool.and_eq_true, Bool.not_eq_true'] at hord
    exact hord.2

/-- What `SignBlock` has done when it signs a template. -/
theorem signBlock_ok {clock : StakeClock} {nFees : Int} {coinbase : CTransaction} {r : SignResult}
    (ht : StakeTemplate pblock coinbase txs)
    (h : signBlock P C N W clock pblock nFees = .ok r) (hsigned : r.signed) :
    ∃ txCoinStake key vchBlockSig,
      createCoinStake P C N W pblock.nBits (N.nAdjustedTime - clock.nLastCoinStakeSearchTime) nFees
        (nPosvVer P N) = some (txCoinStake, key) ∧
      max (N.nMedianTimePast + 1) (pastDrift N.nTipTime) ≤ txCoinStake.nTime ∧
      r.pblock = { stakedBlock C N pblock coinbase txs txCoinStake with vchBlockSig := vchBlockSig } := by
  unfold signBlock at h
  rw [ht.vtx] at h
  simp only [ht.not_stake, Bool.false_eq_true, if_false] at h
  -- Every way out but the last one reports that nothing was signed.
  split at h
  · simp at h
  · split_ifs at h with hempty hsearch
    · rw [← check_pure_ok.mp h] at hsigned
      simp at hsigned
    · split at h
      · rw [← check_pure_ok.mp h] at hsigned
        simp at hsigned
      · rename_i txCoinStake key hcreate
        split_ifs at h with htime
        · split at h
          · rw [← check_pure_ok.mp h] at hsigned
            simp at hsigned
          · rename_i vchBlockSig _
            exact ⟨txCoinStake, key, vchBlockSig, hcreate, htime, by rw [← check_pure_ok.mp h]⟩
        · rw [← check_pure_ok.mp h] at hsigned
          simp at hsigned
    · rw [← check_pure_ok.mp h] at hsigned
      simp at hsigned

/-- The fees of a signed block are those of the template. -/
theorem feesOf_staked {block : CBlock} {coinbase coinstake : CTransaction} {nTime : Nat}
    (ht : StakeTemplate pblock coinbase txs)
    (hvtx : block.vtx = { coinbase with nTime := nTime } :: coinstake :: txs)
    (hstake : coinstake.isCoinStake) :
    feesOf value block = wrap64 ((txs.map (feeOf value)).sum) := by
  have hcb : isOrdinary { coinbase with nTime := nTime } = false := by
    have hbase : CTransaction.isCoinBase { coinbase with nTime := nTime } = true := ht.coinbase
    simp [isOrdinary, hbase]
  have hcs : isOrdinary coinstake = false := by
    simp [isOrdinary, hstake]
  unfold feesOf
  rw [hvtx, filter_cons, hcb, filter_cons, hcs, filter_eq_self.mpr ht.ordinary]
  rfl

/-- A signed block meets the rules exactly when no transaction of the template is later than the kernel, and the
new reward formula is in force for the staker or does not lower the reward. -/
theorem signBlock_meets_rules_iff {clock : StakeClock} {pblock : CBlock} {nFees : Int}
    {coinbase : CTransaction} {txs : List CTransaction} {r : SignResult}
    (ht : StakeTemplate pblock coinbase txs) (hfees : nFees = wrap64 ((txs.map (feeOf value)).sum))
    (hvalue : ∀ coin ∈ W.vCoins, value (coin.prevout C) = coin.txout.nValue)
    (hage : ∀ tx tx' : CTransaction, tx.nTime = tx'.nTime →
      tx.vin.map CTxIn.prevout = tx'.vin.map CTxIn.prevout → N.ctx.getCoinAge tx = N.ctx.getCoinAge tx')
    (hmajority : P.enforceBlockUpgradeMajority_5 ≤ P.rejectBlockOutdatedMajority_5)
    (h : signBlock P C N W clock pblock nFees = .ok r) (hsigned : r.signed = true) :
    ∃ d coinbase' coinstake,
      stakeInputs P C N W pblock.nBits (N.nAdjustedTime - clock.nLastCoinStakeSearchTime) = some d ∧
      r.pblock.vtx = coinbase' :: coinstake :: txs ∧
      (MeetsStakeRules value P N.ctx r.pblock coinstake ↔ (∀ tx ∈ txs, tx.nTime ≤ d.txNew.nTime) ∧
        (isSuperMajority P 5 N.ctx.versions.tail P.enforceBlockUpgradeMajority_5 = true ∨
          getProofOfStakeReward id (N.ctx.getCoinAge d.txNew) nFees ≤
            getProofOfStakeReward N.ctx.inflationAdjustment (N.ctx.getCoinAge d.txNew) nFees)) := by
  obtain ⟨coinstake, key, vchBlockSig, hcreate, htime, hblock⟩ := signBlock_ok ht h hsigned
  obtain ⟨d, hd, hdtime, hcoinAge, hmade⟩ := createCoinStake_ok hvalue hcreate
  obtain ⟨hvtx, htimes, hexact⟩ := stakedBlock_eq C pblock coinbase htime
    (by rw [hmade.time]; exact hdtime) ht.times
  have hvtx' : r.pblock.vtx = { coinbase with nTime := coinstake.nTime } :: coinstake :: txs := by
    rw [hblock]
    exact hvtx
  have hversion : r.pblock.nVersion = 5 := by
    rw [hblock]
    exact ht.version
  have hblockTime : r.pblock.getBlockTime =
      (stakedBlock C N pblock coinbase txs coinstake).getBlockTime := by rw [hblock]
  obtain ⟨out, hlast, hdevValue, hdevKey⟩ := hmade.dev
  have hfeesOf : feesOf value r.pblock = nFees := by
    rw [feesOf_staked ht hvtx' hmade.coinstake, hfees]
  have hsameAge : N.ctx.getCoinAge coinstake = N.ctx.getCoinAge d.txNew :=
    hage _ _ hmade.time hmade.prevouts
  have hreward : stakeRewardOf value coinstake = stakerReward N (nPosvVer P N) (N.ctx.getCoinAge d.txNew) nFees := by
    obtain ⟨k, hk⟩ := hmade.paid
    unfold stakeRewardOf
    rw [wrap64_congr ⟨k, hk⟩, stakerReward_range]
  -- With the sums of the loop known, the reward rules come down to the dev fund and the amount.
  have hrules : ∀ s : ConnectState, s.nFees = feesOf value r.pblock →
      s.nStakeReward = stakeRewardOf value coinstake → (checkReward P N.ctx r.pblock s = .ok () ↔
        (isSuperMajority P 5 N.ctx.versions.tail P.enforceBlockUpgradeMajority_5 = true ∨
          getProofOfStakeReward id (N.ctx.getCoinAge d.txNew) nFees ≤
            getProofOfStakeReward N.ctx.inflationAdjustment (N.ctx.getCoinAge d.txNew) nFees)) := by
    intro s hsfees hsreward
    rw [checkReward_stake hvtx' hversion hmade.coinstake, checkDevCredit_ok hmade.coinstake hlast hdevKey,
      hsfees, hsreward, hfeesOf, hreward, hsameAge, hdevValue]
    cases hmaj : isSuperMajority P 5 N.ctx.versions.tail P.enforceBlockUpgradeMajority_5 with
    | true =>
      have hver : nPosvVer P N = 2 := by simp [nPosvVer, hmaj]
      rw [hver]
      simp only [hcoinAge, ne_eq, not_false_eq_true, true_and, true_or, iff_true]
      exact ⟨fun _ _ => rfl, le_refl _⟩
    | false =>
      have hver : nPosvVer P N = 1 := by simp [nPosvVer, hmaj]
      have hreject : isSuperMajority P 5 N.ctx.versions.tail P.rejectBlockOutdatedMajority_5 = false := by
        by_contra hne
        rw [Bool.not_eq_false] at hne
        rw [isSuperMajority_mono hmajority hne] at hmaj
        simp at hmaj
      rw [hver, hreject]
      simp only [hcoinAge, ne_eq, not_false_eq_true, true_and, Bool.false_eq_true, false_or, false_implies,
        implies_true]
      rfl
  refine ⟨d, _, coinstake, hd, hvtx', ⟨fun hmeets => ⟨?_, ?_⟩, fun hcond => ⟨?_, ?_, ?_⟩⟩⟩
  · rw [← hmade.time]
    exact hexact.mp (hblockTime.symm.trans hmeets.coinstake_time)
  · let s : ConnectState :=
      { ConnectState.start (CoinsView.over (fun _ => none) 0) with
        nFees := feesOf value r.pblock, nStakeReward := stakeRewardOf value coinstake }
    exact (hrules s rfl rfl).mp (hmeets.reward s rfl rfl)
  · rw [← hmade.time] at hcond
    exact hblockTime.trans (hexact.mpr hcond.1)
  · intro tx htx
    rw [hblockTime]
    exact htimes tx (by rw [hvtx, ← hvtx']; exact htx)
  · intro s hsfees hsreward
    exact (hrules s hsfees hsreward).mpr hcond.2

end

/-! ## A template and a wallet with one coin -/

namespace Example

/-- The transaction of the coin, in block 9. -/
def kernelTx : CTransaction :=
  { coinbaseTx [keyOut 5000] with nTime := 90 }

def kernelCoin : COutput :=
  { tx := kernelTx, i := 0, fSpendable := true, txout := keyOut 5000, found := rfl,
    in_range := Nat.le_of_ble_eq_true rfl }

def wallet : StakeWallet where
  nBalance := 5000
  vCoins := [kernelCoin]
  address := fun _ => 0
  solver := fun _ => some (.pubkey, [List.replicate 33 2])
  hash160 := id
  getKey := fun _ => some [7]
  getPubKey := fun _ => List.replicate 33 2
  signSignature := fun _ _ _ => some [1]
  sign := fun _ _ => some [1]

/-- The clock reads 40000 and the coin is a kernel up to ten seconds before. -/
def stakingNode : StakeNode where
  ctx := { context with versions := [4, 4] }
  nReserveBalance := 0
  nAdjustedTime := 40000
  nMedianTimePast := 39000
  nTipTime := 39900
  getTransaction := fun _ => some (kernelTx, 9)
  blockHeader := fun _ => some { (block 2 [] []).toCBlockHeader with nTime := 100 }
  checkStakeKernelHash := fun _ _ _ _ _ nTimeTx => decide (nTimeTx ≤ 39990)
  getCoinAgeWeight := fun _ _ => 24 * 60 * 60

def stakeClock : StakeClock :=
  { nLastCoinStakeSearchTime := 39980, nLastCoinStakeSearchInterval := 16 }

/-- An ordinary transaction with a fee of 10. -/
def paymentTx (nTime : Nat) : CTransaction :=
  { spendTx 500 0 [keyOut 40] with nTime := nTime }

def stakeTemplate (nTime : Nat) : CBlock :=
  { block 5 [coinbaseTx [emptyOut], paymentTx nTime] [] with nTime := 40000 }

def outputValue (o : COutPoint) : Int :=
  if o.hash = 500 then 50 else 5000

theorem stakeTemplate_ok {nTime : Nat} (h : nTime < 2 ^ 32) :
    StakeTemplate (stakeTemplate nTime) (coinbaseTx [emptyOut]) [paymentTx nTime] where
  vtx := rfl
  version := rfl
  coinbase := rfl
  ordinary := by
    intro tx htx
    rw [mem_singleton.mp htx]
    rfl
  times := by
    intro tx htx
    rw [mem_singleton.mp htx]
    exact h

end Example

open Example

theorem signBlock_meets_rules_iff_example : ∃ r coinstake, signBlock params crypto stakingNode wallet stakeClock
      (stakeTemplate 39990) 10 = .ok r ∧ r.signed = true ∧
    r.pblock.vtx[1]? = some coinstake ∧
    MeetsStakeRules outputValue params stakingNode.ctx r.pblock coinstake := by
  obtain ⟨r, hr, hsigned⟩ := exists_ok_of_toOption (by decide +kernel : (signBlock params
    crypto stakingNode wallet stakeClock (stakeTemplate 39990)
      10).toOption.map SignResult.signed = some true)
  have hfees : 10 = wrap64 (([paymentTx 39990].map (feeOf outputValue)).sum) := by decide
  obtain ⟨d, coinbase, coinstake, hd, hvtx, hiff⟩ := signBlock_meets_rules_iff
    (stakeTemplate_ok (by decide)) hfees (by decide) (fun _ _ _ _ => rfl) (by decide) hr hsigned
  refine ⟨r, coinstake, hr, hsigned, by rw [hvtx]; rfl, hiff.mpr ⟨?_, .inr (le_refl _)⟩⟩
  have htime : d.txNew.nTime = 39990 := by
    have hkernel : (stakeInputs params crypto stakingNode wallet
        (stakeTemplate 39990).nBits (stakingNode.nAdjustedTime -
          stakeClock.nLastCoinStakeSearchTime)).map (fun d => d.txNew.nTime) = some 39990 := by
      decide +kernel
    rw [hd] at hkernel
    exact Option.some.inj hkernel
  intro tx htx
  rw [mem_singleton.mp htx, htime]
  exact le_refl _

/-- A payment five seconds after the kernel moves the time of the signed block past its coinstake. -/
theorem signBlock_later_payment :
    StakeTemplate (stakeTemplate 39995) (coinbaseTx [emptyOut])
      [paymentTx 39995] ∧
    10 = wrap64 (([paymentTx 39995].map (feeOf outputValue)).sum) ∧
    ∃ r coinstake, signBlock params crypto stakingNode wallet stakeClock
        (stakeTemplate 39995) 10 = .ok r ∧ r.signed = true ∧
      r.pblock.vtx[1]? = some coinstake ∧
      ¬ MeetsStakeRules outputValue params stakingNode.ctx r.pblock coinstake := by
  refine ⟨stakeTemplate_ok (by decide), by decide, ?_⟩
  obtain ⟨r, hr, hrun⟩ := exists_ok_of_toOption (by decide +kernel : (signBlock params
    crypto stakingNode wallet stakeClock (stakeTemplate 39995)
      10).toOption.map (fun r => (r.signed, r.pblock.nTime, (r.pblock.vtx[1]?).map CTransaction.nTime)) =
        some (true, 39995, some 39990))
  obtain ⟨hsigned, htimes⟩ := Prod.mk.inj hrun
  obtain ⟨hblock, hstake⟩ := Prod.mk.inj htimes
  obtain ⟨coinstake, hcoinstake, htime⟩ := Option.map_eq_some_iff.mp hstake
  refine ⟨r, coinstake, hr, hsigned, hcoinstake, fun hmeets => ?_⟩
  have heq : (r.pblock.nTime : Int) = coinstake.nTime := hmeets.coinstake_time
  omega

end Reddcoin
