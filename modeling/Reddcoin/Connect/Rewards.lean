import Mathlib.Algebra.BigOperators.Group.Finset.Basic
import Reddcoin.Connect.ValueSums

/-!
# The rewards

`GetBlockValue` over all heights, and `GetProofOfStakeReward` of the coin age that `GetCoinAge` computes.
-/

namespace Reddcoin

variable {vin : List CTxIn}

/-! ## The subsidy of a proof-of-work block -/

/-- The count of the right shift in `GetBlockValue`, 0 where it does not shift. -/
def halvings (nHeight : Nat) : Nat :=
  if 140000 ≤ nHeight then (nHeight - 140000 + 50000) / 50000 else 0

/-- The subsidies of all blocks up to a height. -/
def totalBlockValue (nHeight : Nat) : Int :=
  ∑ i ∈ Finset.range (nHeight + 1), getBlockValue i 0

/-- Up to a height, every shift is defined, the subsidy does not rise after the premine and the total is in the money
range. -/
structure SubsidySound (nHeight : Nat) : Prop where
  shift_lt : ∀ i ≤ nHeight, halvings i < 64
  nonincreasing : ∀ i j, 11 ≤ i → i ≤ j → j ≤ nHeight → getBlockValue j 0 ≤ getBlockValue i 0
  total_le : totalBlockValue nHeight ≤ MAX_MONEY

/-- The subsidy of an era after height 140000. -/
def eraSubsidy (k : Nat) : Int :=
  100000 * COIN / 2 ^ k

theorem eraSubsidy_range (k : Nat) : 0 ≤ eraSubsidy k ∧ eraSubsidy k ≤ 100000 * COIN := by
  have hcoin : COIN = 100000000 := rfl
  constructor
  · exact Int.ediv_nonneg (by omega) (by positivity)
  · exact Int.ediv_le_self _ (by omega)

theorem eraSubsidy_succ (k : Nat) : eraSubsidy (k + 1) = eraSubsidy k / 2 := by
  rw [eraSubsidy, eraSubsidy, pow_succ, Int.ediv_ediv_of_nonneg (by positivity)]

theorem eraSubsidy_antitone {k l : Nat} (h : k ≤ l) : eraSubsidy l ≤ eraSubsidy k := by
  induction h with
  | refl => exact Int.le_refl _
  | step _ ih =>
    rw [eraSubsidy_succ]
    have hrange := eraSubsidy_range
    rename_i l _
    have := hrange l
    omega

/-- `GetBlockValue` without fees, era by era. -/
theorem getBlockValue_zero (nHeight : Nat) : getBlockValue nHeight 0 = if nHeight = 0 then 1000000000000
    else if nHeight < 11 then 54500000000000000
    else if nHeight < 10000 then 30000000000000
    else if nHeight < 20000 then 20000000000000
    else if nHeight < 30000 then 15000000000000
    else if 140000 ≤ nHeight then eraSubsidy (halvings nHeight)
    else 10000000000000 := by
  have hcoin : COIN = 100000000 := rfl
  unfold getBlockValue
  simp only [Int.add_zero]
  split_ifs with h0 h1 h2 h3 h4 h5
  · rfl
  · rfl
  · rfl
  · rfl
  · rfl
  · have hera := eraSubsidy_range (halvings nHeight)
    rw [halvings, if_pos h5] at hera ⊢
    exact wrap64_of_range (by unfold eraSubsidy at hera; omega) (by unfold eraSubsidy at hera; omega)
  · rfl

/-! ### The subsidy does not rise -/

theorem getBlockValue_antitone {i j : Nat} (hi : 11 ≤ i) (hij : i ≤ j) : getBlockValue j 0 ≤ getBlockValue i 0 := by
  have hcoin : COIN = 100000000 := rfl
  have hera := eraSubsidy_range (halvings j)
  rw [getBlockValue_zero, getBlockValue_zero]
  by_cases hlate : 140000 ≤ i
  · -- Both heights are in an era of the halving schedule.
    have hmono : halvings i ≤ halvings j := by
      rw [halvings, halvings, if_pos hlate, if_pos (by omega)]
      omega
    have hle := eraSubsidy_antitone hmono
    split_ifs <;> omega
  · split_ifs <;> omega

/-! ### The total -/

theorem sum_getBlockValue_early {n : Nat} (hn : n ≤ 140000) :
    ∑ i ∈ Finset.range n, getBlockValue i 0 ≤ 54500000000000000 * min n 11 + 30000000000000 * n := by
  induction n with
  | zero => simp
  | succ n ih =>
    have hstep : getBlockValue n 0 ≤ if n < 11 then 54500000000000000 else 30000000000000 := by
      rw [getBlockValue_zero]
      split_ifs <;> omega
    rw [Finset.sum_range_succ]
    have hsum := ih (by omega)
    push_cast at hsum ⊢
    split_ifs at hstep with hlow <;> omega

/-- What is still to come from height `n` on, when the subsidy of an era bounds all that follows the era. -/
def remainingValue (n : Nat) : Int :=
  (100000 - ((n - 90000) % 50000 : Nat)) * eraSubsidy (halvings n)

theorem remainingValue_step {n : Nat} (hn : 140000 ≤ n) :
    getBlockValue n 0 + remainingValue (n + 1) ≤ remainingValue n := by
  have hvalue : getBlockValue n 0 = eraSubsidy (halvings n) := by
    rw [getBlockValue_zero, if_neg (by omega), if_neg (by omega), if_neg (by omega), if_neg (by omega),
      if_neg (by omega), if_pos hn]
  rw [hvalue, remainingValue, remainingValue]
  obtain ⟨p, hp⟩ : ∃ p, p = n - 90000 := ⟨_, rfl⟩
  have hp1 : n + 1 - 90000 = p + 1 := by omega
  rw [hp1, ← hp]
  by_cases hlast : p % 50000 = 49999
  · have hnext : halvings (n + 1) = halvings n + 1 := by
      rw [halvings, halvings, if_pos hn, if_pos (by omega)]
      omega
    have hpos : (p + 1) % 50000 = 0 := by omega
    rw [hnext, eraSubsidy_succ, hlast, hpos]
    push_cast
    omega
  · have hnext : halvings (n + 1) = halvings n := by
      rw [halvings, halvings, if_pos hn, if_pos (by omega)]
      omega
    have hpos : (p + 1) % 50000 = p % 50000 + 1 := by omega
    rw [hnext, hpos]
    push_cast
    linarith

theorem sum_getBlockValue_late {n : Nat} (hn : 140000 ≤ n) :
    ∑ i ∈ Finset.range n, getBlockValue i 0 + remainingValue n ≤
      ∑ i ∈ Finset.range 140000, getBlockValue i 0 + remainingValue 140000 := by
  induction n, hn using Nat.le_induction with
  | base => exact Int.le_refl _
  | succ n hn ih =>
    have hstep := remainingValue_step hn
    rw [Finset.sum_range_succ]
    linarith

theorem totalBlockValue_le (nHeight : Nat) : totalBlockValue nHeight ≤ MAX_MONEY := by
  have hmax : MAX_MONEY = 9223372036800000000 := rfl
  rw [totalBlockValue]
  by_cases hearly : nHeight + 1 ≤ 140000
  · have hsum := sum_getBlockValue_early hearly
    push_cast at hsum
    omega
  · have hlate := sum_getBlockValue_late (by omega : 140000 ≤ nHeight + 1)
    have hsum := sum_getBlockValue_early (Nat.le_refl 140000)
    have hstart : remainingValue 140000 = 500000000000000000 := rfl
    have hrest : 0 ≤ remainingValue (nHeight + 1) := by
      have hera := eraSubsidy_range (halvings (nHeight + 1))
      exact Int.mul_nonneg (by omega) hera.1
    rw [hstart] at hlate
    push_cast at hsum
    omega

/-- The schedule is sound up to a height exactly when the height is below 3290000, where the 64th halving would come. -/
theorem subsidySound_iff (nHeight : Nat) : SubsidySound nHeight ↔ nHeight < 3290000 := by
  constructor
  · intro h
    have hshift := h.shift_lt nHeight (Nat.le_refl _)
    unfold halvings at hshift
    split_ifs at hshift <;> omega
  · intro hlt
    refine ⟨fun i hi => ?_, fun i j hi hij _ => getBlockValue_antitone hi hij, totalBlockValue_le nHeight⟩
    unfold halvings
    split_ifs <;> omega

/-- At height 3290000 the code shifts a 64-bit value by 64. -/
theorem subsidy_shift_undefined : halvings 3290000 = 64 ∧ ¬ SubsidySound 3290000 := by
  refine ⟨rfl, fun h => ?_⟩
  exact absurd (h.shift_lt 3290000 (Nat.le_refl _)) (by decide)

/-! ## The coin age of a coinstake -/

/-- `StakeMaxAge()`, 45 days. -/
def STAKE_MAX_AGE : Int := 45 * 24 * 60 * 60

/-- What `GetCoinAge` reads of the node. -/
structure CoinAgeNode where
  /-- `GetTransaction`: a transaction and the hash of its block. -/
  getTransaction : Uint256 → Option (CTransaction × Uint256)
  /-- The time of a block that is indexed and can be read. -/
  blockTime : Uint256 → Option Nat
  stakeMinAge : Nat
  getCoinAgeWeight : Int → Int → Int

/-- What a turn of the loop of `GetCoinAge` finds. -/
inductive CoinAgeInput where
  /-- The turn ends with `continue`. -/
  | skipped
  /-- The function returns 0. -/
  | fails
  | counts (nValueIn nTimeWeight : Int)

/-- The value of an output, 0 when there is no such output. -/
def prevOutValue (tx : CTransaction) (n : Nat) : Int :=
  match tx.vout[n]? with
  | some out => out.nValue
  | none => 0

section

variable (N : CoinAgeNode) (tx : CTransaction)

/-- The checks of one turn.  The comparison with the minimum age is made in 32 bits. -/
def coinAgeInput (txin : CTxIn) : CoinAgeInput :=
  match N.getTransaction txin.prevout.hash with
  | none => .skipped
  | some (txPrev, hashBlock) =>
    match N.blockTime hashBlock with
    | none => .fails
    | some nBlockTime =>
      if tx.nTime < (nBlockTime + N.stakeMinAge) % 2 ^ 32 then .skipped
      else
        -- deal with missing timestamps in PoW blocks
        let nTimePrev := if txPrev.nTime = 0 then nBlockTime else txPrev.nTime
        if tx.nTime < nTimePrev then .fails
        else .counts (prevOutValue txPrev txin.prevout.n) (N.getCoinAgeWeight nTimePrev tx.nTime)

/-- The end of a turn: the coin age in cent-seconds with the input's share, `none` for `return 0`. -/
def addCoinAge (bnCentSecond : Int) (txin : CTxIn) : Option Int :=
  match coinAgeInput N tx txin with
  | .skipped => some bnCentSecond
  | .fails => none
  | .counts nValueIn nTimeWeight => some (bnCentSecond + nValueIn * nTimeWeight / CENT)

def getCoinAge : Nat :=
  if tx.isCoinBase then 0
  else
    match tx.vin.foldlM (addCoinAge N tx) 0 with
    | none => 0
    | some bnCentSecond =>
      let bnCoinDay := bnCentSecond * CENT / COIN / (24 * 60 * 60)
      (bnCoinDay % 2 ^ 64).toNat

/-- The value of the output that an input spends. -/
def coinAgeValue (txin : CTxIn) : Int :=
  match N.getTransaction txin.prevout.hash with
  | none => 0
  | some (txPrev, _) => prevOutValue txPrev txin.prevout.n

/-- The share of an input in the coin age, in cent-seconds. -/
def centSeconds (txin : CTxIn) : Int :=
  match coinAgeInput N tx txin with
  | .counts nValueIn nTimeWeight => nValueIn * nTimeWeight / CENT
  | _ => 0

/-- `GetCoinAge` gives up on an input, or there is no coin age to compute. -/
def NoCoinAge : Prop :=
  tx.isCoinBase = true ∨ ∃ txin ∈ tx.vin, coinAgeInput N tx txin = .fails

end

/-- The products of `GetProofOfStakeReward` fit an `int64_t`, and the subsidy is the exact quotient. -/
structure RewardExact (nCoinAge : Nat) : Prop where
  age_fits : FitsInt64 nCoinAge
  year_fits : FitsInt64 (nCoinAge * COIN_YEAR_REWARD)
  product_fits : FitsInt64 (nCoinAge * COIN_YEAR_REWARD * 33)
  subsidy_eq : coinAgeSubsidy nCoinAge = nCoinAge * COIN_YEAR_REWARD * 33 / (365 * 33 + 8)

theorem rewardExact_iff_le {nCoinAge : Nat} : RewardExact nCoinAge ↔ nCoinAge ≤ 55899224465 := by
  have hyear : COIN_YEAR_REWARD = 5000000 := rfl
  constructor
  · intro h
    have hfits := h.product_fits.2
    rw [hyear] at hfits
    omega
  · intro hle
    have hage : FitsInt64 nCoinAge := ⟨by omega, by omega⟩
    have hyears : FitsInt64 (nCoinAge * COIN_YEAR_REWARD) := by
      rw [hyear]
      exact ⟨by omega, by omega⟩
    have hproduct : FitsInt64 (nCoinAge * COIN_YEAR_REWARD * 33) := by
      rw [hyear]
      exact ⟨by omega, by omega⟩
    refine ⟨hage, hyears, hproduct, ?_⟩
    rw [coinAgeSubsidy, wrap64_of_range hage.1 hage.2, wrap64_of_range hyears.1 hyears.2,
      wrap64_of_range hproduct.1 hproduct.2]
    refine Int.tdiv_eq_ediv_of_nonneg ?_
    rw [hyear]
    omega

section

variable {N : CoinAgeNode} {tx : CTransaction}

theorem foldlM_addCoinAge (h : ∀ txin ∈ vin, coinAgeInput N tx txin ≠ .fails) (bnCentSecond : Int) :
    vin.foldlM (addCoinAge N tx) bnCentSecond = some (bnCentSecond + (vin.map (centSeconds N tx)).sum) := by
  induction vin generalizing bnCentSecond with
  | nil => simp
  | cons txin vin ih =>
    have hturn : addCoinAge N tx bnCentSecond txin = some (bnCentSecond + centSeconds N tx txin) := by
      rw [addCoinAge, centSeconds]
      cases hinput : coinAgeInput N tx txin with
      | skipped => simp
      | fails => exact absurd hinput (h txin List.mem_cons_self)
      | counts nValueIn nTimeWeight => rfl
    rw [List.foldlM_cons, hturn, List.map_cons, List.sum_cons, ← Int.add_assoc]
    exact ih (fun txin' hmem => h txin' (List.mem_cons_of_mem _ hmem)) _

theorem foldlM_addCoinAge_none {txin : CTxIn} (hmem : txin ∈ vin)
    (hfails : coinAgeInput N tx txin = .fails) (bnCentSecond : Int) :
    vin.foldlM (addCoinAge N tx) bnCentSecond = none := by
  induction vin generalizing bnCentSecond with
  | nil => simp at hmem
  | cons head vin ih =>
    rw [List.foldlM_cons]
    rcases List.mem_cons.mp hmem with rfl | hmem
    · rw [addCoinAge, hfails]
      rfl
    · cases hturn : addCoinAge N tx bnCentSecond head with
      | none => rfl
      | some bnCentSecond => exact ih hmem bnCentSecond

/-- The value that counts is the value of the spent output. -/
theorem coinAgeInput_counts {txin : CTxIn} {nValueIn nTimeWeight : Int}
    (h : coinAgeInput N tx txin = .counts nValueIn nTimeWeight) :
    nValueIn = coinAgeValue N txin ∧ ∃ a b, nTimeWeight = N.getCoinAgeWeight a b := by
  unfold coinAgeInput at h
  unfold coinAgeValue
  cases htx : N.getTransaction txin.prevout.hash with
  | none => simp [htx] at h
  | some found =>
    obtain ⟨txPrev, hashBlock⟩ := found
    simp only [htx] at h
    cases htime : N.blockTime hashBlock with
    | none => simp [htime] at h
    | some nBlockTime =>
      simp only [htime] at h
      split_ifs at h
      all_goals
        obtain ⟨rfl, rfl⟩ := CoinAgeInput.counts.inj h
        exact ⟨rfl, _, _, rfl⟩

/-- The share of an input is bounded by its value at the maximal age. -/
theorem centSeconds_range (tx : CTransaction)
    (hweight : ∀ a b, 0 ≤ N.getCoinAgeWeight a b ∧ N.getCoinAgeWeight a b ≤ STAKE_MAX_AGE)
    {txin : CTxIn} (hvalue : moneyRange (coinAgeValue N txin)) :
    0 ≤ centSeconds N tx txin ∧ centSeconds N tx txin * CENT ≤ coinAgeValue N txin * STAKE_MAX_AGE := by
  have hcent : CENT = 1000000 := rfl
  have hage : STAKE_MAX_AGE = 3888000 := rfl
  rw [moneyRange_iff] at hvalue
  rw [centSeconds]
  cases hinput : coinAgeInput N tx txin with
  | counts nValueIn nTimeWeight =>
    obtain ⟨rfl, a, b, rfl⟩ := coinAgeInput_counts hinput
    have hw := hweight a b
    have hproduct : coinAgeValue N txin * N.getCoinAgeWeight a b ≤ coinAgeValue N txin * STAKE_MAX_AGE :=
      Int.mul_le_mul_of_nonneg_left hw.2 hvalue.1
    have hnonneg := Int.mul_nonneg hvalue.1 hw.1
    show 0 ≤ coinAgeValue N txin * N.getCoinAgeWeight a b / CENT ∧
      coinAgeValue N txin * N.getCoinAgeWeight a b / CENT * CENT ≤ _
    rw [hcent]
    omega
  | skipped | fails =>
    show 0 ≤ (0 : Int) ∧ (0 : Int) * CENT ≤ _
    rw [hage]
    omega

theorem sum_centSeconds_range (tx : CTransaction)
    (hweight : ∀ a b, 0 ≤ N.getCoinAgeWeight a b ∧ N.getCoinAgeWeight a b ≤ STAKE_MAX_AGE)
    (hvalues : ∀ txin ∈ vin, moneyRange (coinAgeValue N txin)) :
    0 ≤ (vin.map (centSeconds N tx)).sum ∧
      (vin.map (centSeconds N tx)).sum * CENT ≤ (vin.map (coinAgeValue N)).sum * STAKE_MAX_AGE := by
  induction vin with
  | nil => simp
  | cons txin vin ih =>
    have hhead := centSeconds_range tx hweight (hvalues txin List.mem_cons_self)
    have hrest := ih fun txin' hmem => hvalues txin' (List.mem_cons_of_mem _ hmem)
    simp only [List.map_cons, List.sum_cons, Int.add_mul]
    omega

/-- For inputs worth at most `MAX_MONEY` and weights up to the maximal age, the reward is exact exactly when there is no
coin age or the inputs have fewer than 55899224466 coin-days. -/
theorem rewardExact_iff
    (hweight : ∀ a b, 0 ≤ N.getCoinAgeWeight a b ∧ N.getCoinAgeWeight a b ≤ STAKE_MAX_AGE)
    (hvalues : ∀ txin ∈ tx.vin, moneyRange (coinAgeValue N txin) = true)
    (htotal : (tx.vin.map (coinAgeValue N)).sum ≤ MAX_MONEY) :
    RewardExact (getCoinAge N tx) ↔
      NoCoinAge N tx ∨ (tx.vin.map (centSeconds N tx)).sum < 55899224466 * (24 * 60 * 60) * (COIN / CENT) := by
  rw [rewardExact_iff_le]
  by_cases hnone : NoCoinAge N tx
  · have hzero : getCoinAge N tx = 0 := by
      rw [getCoinAge]
      rcases hnone with hcoinbase | ⟨txin, hmem, hfails⟩
      · rw [if_pos hcoinbase]
      · rw [foldlM_addCoinAge_none hmem hfails, ite_self]
    rw [hzero]
    simp [hnone]
  · obtain ⟨hcoinbase, hcounts⟩ := not_or.mp hnone
    have hsum := sum_centSeconds_range tx hweight hvalues
    have hage : getCoinAge N tx =
        ((tx.vin.map (centSeconds N tx)).sum * CENT / COIN / (24 * 60 * 60) % 2 ^ 64).toNat := by
      rw [getCoinAge, if_neg hcoinbase, foldlM_addCoinAge fun txin hmem hfails => hcounts ⟨txin, hmem, hfails⟩,
        Int.zero_add]
    have hmoney : MAX_MONEY = 9223372036800000000 := rfl
    have hmax : STAKE_MAX_AGE = 3888000 := rfl
    have hcent : CENT = 1000000 := rfl
    have hcoin : COIN = 100000000 := rfl
    rw [hage, hcent, hcoin]
    rw [hcent, hmax] at hsum
    rw [hmoney] at htotal
    simp only [hnone, false_or]
    generalize (tx.vin.map (centSeconds N tx)).sum = bnCentSecond at *
    omega

end

namespace Example

/-- A node with one old transaction that pays `nValue`, and the oldest coins of the curve. -/
def coinAgeNode (nValue : Int) : CoinAgeNode where
  getTransaction := fun hash => if hash = 500 then some (coinbaseTx [keyOut nValue], 7000) else none
  blockTime := fun _ => some 100
  stakeMinAge := 8 * 60 * 60
  getCoinAgeWeight := fun a b => max 0 (min (b - a) STAKE_MAX_AGE)

/-- A transaction that spends it a year and a half later. -/
def lateSpend : CTransaction :=
  { spendTx 500 0 [emptyOut, keyOut 10] with nTime := 47304100 }

theorem coinAgeNode_weight (nValue a b : Int) :
    0 ≤ (coinAgeNode nValue).getCoinAgeWeight a b ∧ (coinAgeNode nValue).getCoinAgeWeight a b ≤ STAKE_MAX_AGE := by
  have hage : STAKE_MAX_AGE = 3888000 := rfl
  show 0 ≤ max 0 (min (b - a) STAKE_MAX_AGE) ∧ max 0 (min (b - a) STAKE_MAX_AGE) ≤ STAKE_MAX_AGE
  omega

end Example

open Example

/-- A million coins at the maximal age. -/
theorem rewardExact_example :
    getCoinAge (coinAgeNode (1000000 * COIN)) lateSpend = 45000000 ∧
    RewardExact (getCoinAge (coinAgeNode (1000000 * COIN)) lateSpend) := by
  refine ⟨by decide, ?_⟩
  exact (rewardExact_iff (coinAgeNode_weight _) (by decide) (by decide)).mpr (.inr (by decide))

/-- Two billion coins at the maximal age: the last product is above what an `int64_t` holds, and the subsidy is
wrong. -/
theorem reward_overflow :
    moneyRange (2000000000 * COIN) = true ∧
    getCoinAge (coinAgeNode (2000000000 * COIN)) lateSpend = 90000000000 ∧
    coinAgeSubsidy 90000000000 ≠ 90000000000 * COIN_YEAR_REWARD * 33 / (365 * 33 + 8) ∧
    ¬ RewardExact (getCoinAge (coinAgeNode (2000000000 * COIN)) lateSpend) := by
  refine ⟨by decide, by decide, by decide, fun h => ?_⟩
  exact absurd h.product_fits (by decide)

end Reddcoin
