import Reddcoin.Wallet.CreateTransaction

/-!
# What a created transaction pays

The loop of `CreateTransaction` ends, since its fee rises, and a transaction that it returns makes the payments, has
distinct inputs and leaves the fee.  A negative amount is noticed only when it makes a partial sum negative.
-/

namespace Reddcoin

open CoinSelection List

/-! ## The coins that are available -/

namespace SpendWallet

variable {W : SpendWallet} {coinControl : Option CCoinControl} {nTargetValue : Int} {vecSend : List Payment}

theorem availableOf_sublist (wtxid : Uint256) (pcoin : StoredTx) :
    (W.availableOf coinControl wtxid pcoin).Sublist
      ((List.finRange pcoin.tx.vout.length).map (W.outputOf wtxid pcoin)) := by
  unfold availableOf
  split_ifs
  · exact nil_sublist _
  · exact nil_sublist _
  · exact nil_sublist _
  · exact nil_sublist _
  · exact filter_sublist

theorem mem_availableOf {wtxid : Uint256} {pcoin : StoredTx} {output : DeepOutput}
    (h : output ∈ W.availableOf coinControl wtxid pcoin) :
    output.hash = wtxid ∧ pcoin.tx.vout[output.i]? = some output.txout ∧ 0 < output.txout.nValue := by
  obtain ⟨i, -, rfl⟩ := mem_map.mp ((availableOf_sublist wtxid pcoin).mem h)
  refine ⟨rfl, getElem?_eq_getElem i.2, ?_⟩
  unfold availableOf at h
  split_ifs at h with hfinal htrusted hmature hdepth
  · cases h
  · cases h
  · cases h
  · cases h
  · have hoffers := (mem_filter.mp h).2
    unfold offers at hoffers
    simp only [Bool.and_eq_true, decide_eq_true_eq] at hoffers
    exact hoffers.1.2

theorem mem_availableCoins {output : DeepOutput} (h : output ∈ W.availableCoins coinControl) :
    ∃ pcoin, (output.hash, pcoin) ∈ W.mapWallet ∧ pcoin.tx.vout[output.i]? = some output.txout ∧
      0 < output.txout.nValue := by
  obtain ⟨entry, hentry, hof⟩ := mem_flatMap.mp h
  obtain ⟨hhash, hfound, hpositive⟩ := mem_availableOf hof
  exact ⟨entry.2, hhash ▸ hentry, hfound, hpositive⟩

/-- Outputs that are offered out of every transaction once are distinct. -/
theorem nodup_of_sublists (W : SpendWallet) {f : Uint256 → StoredTx → List DeepOutput}
    (hsub : ∀ wtxid pcoin, (f wtxid pcoin).Sublist
      ((List.finRange pcoin.tx.vout.length).map (W.outputOf wtxid pcoin))) :
    ((W.mapWallet.flatMap fun entry => f entry.1 entry.2).map fun output => (output.hash, output.i)).Nodup := by
  have hhash : ∀ {wtxid pcoin output}, output ∈ f wtxid pcoin → output.hash = wtxid := by
    intro wtxid pcoin output houtput
    obtain ⟨i, -, rfl⟩ := mem_map.mp ((hsub wtxid pcoin).mem houtput)
    rfl
  rw [map_flatMap, nodup_flatMap]
  refine ⟨fun entry _ => ?_, ?_⟩
  · refine ((hsub entry.1 entry.2).map _).nodup ?_
    rw [map_map]
    refine (nodup_finRange _).map fun i j hij => ?_
    exact Fin.ext (Prod.mk.inj hij).2
  · have hkeys := pairwise_map.mp W.keys
    refine hkeys.imp fun {a b} hne => ?_
    intro outpoint ha hb
    obtain ⟨output, houtput, rfl⟩ := mem_map.mp ha
    obtain ⟨output', houtput', heq⟩ := mem_map.mp hb
    have hsame := hhash houtput'
    rw [(Prod.mk.inj heq).1, hhash houtput] at hsame
    exact hne hsame

/-- `AvailableCoins` offers every output once. -/
theorem availableCoins_nodup (W : SpendWallet) (coinControl : Option CCoinControl) :
    ((W.availableCoins coinControl).map fun output => (output.hash, output.i)).Nodup :=
  W.nodup_of_sublists availableOf_sublist

/-- What the coins that are available are worth. -/
def availableValue (W : SpendWallet) (coinControl : Option CCoinControl) : Int :=
  ((W.availableCoins coinControl).map fun output => output.txout.nValue).sum

theorem payable_availableCoins (hmoney : W.availableValue coinControl ≤ MAX_MONEY) :
    Payable ((W.availableCoins coinControl).map DeepOutput.coin) := by
  refine ⟨fun c hc => ?_, ?_, ?_⟩
  · obtain ⟨output, hmem, rfl⟩ := mem_map.mp hc
    obtain ⟨-, -, -, hpositive⟩ := mem_availableCoins hmem
    exact hpositive
  · rw [map_map]
    exact hmoney
  · rw [map_map]
    exact availableCoins_nodup W coinControl

/-- The value of an output of the wallet. -/
def valueOf (W : SpendWallet) (prevout : COutPoint) : Int :=
  ((W.mapWallet.find? fun entry => decide (entry.1 = prevout.hash)).bind fun entry =>
    entry.2.tx.vout[prevout.n]?).elim 0 CTxOut.nValue

theorem find?_of_mem {mapWallet : List (Uint256 × StoredTx)} (hkeys : (mapWallet.map Prod.fst).Nodup)
    {hash : Uint256} {pcoin : StoredTx} (h : (hash, pcoin) ∈ mapWallet) :
    (mapWallet.find? fun entry => decide (entry.1 = hash)) = some (hash, pcoin) := by
  induction mapWallet with
  | nil => cases h
  | cons entry rest ih =>
    rw [map_cons, nodup_cons] at hkeys
    rw [find?_cons]
    rcases mem_cons.mp h with rfl | hrest
    · simp
    · have hne : entry.1 ≠ hash := fun heq => hkeys.1 (heq ▸ mem_map_of_mem hrest)
      rw [decide_eq_false hne]
      exact ih hkeys.2 hrest

theorem valueOf_coin {c : Coin} (h : c ∈ (W.availableCoins coinControl).map DeepOutput.coin) :
    W.valueOf { hash := c.2.1, n := c.2.2 } = c.1 := by
  obtain ⟨output, hmem, rfl⟩ := mem_map.mp h
  obtain ⟨pcoin, hentry, hfound, -⟩ := mem_availableCoins hmem
  show ((W.mapWallet.find? fun entry => decide (entry.1 = output.hash)).bind fun entry =>
    entry.2.tx.vout[output.i]?).elim 0 CTxOut.nValue = output.txout.nValue
  rw [find?_of_mem W.keys hentry, Option.bind_some, hfound]
  rfl

/-! ## The coins that are chosen -/

/-- Coins that have been chosen for a target. -/
structure Chosen (W : SpendWallet) (coinControl : Option CCoinControl) (nTargetValue : Int) (selected : Selected) :
    Prop where
  distinct : selected.setCoinsRet.Nodup
  value : selected.nValueRet = (selected.setCoinsRet.map fun coin => W.valueOf { hash := coin.1, n := coin.2 }).sum
  enough : nTargetValue ≤ selected.nValueRet
  most : selected.nValueRet ≤ MAX_MONEY

section

variable (hmoney : W.availableValue coinControl ≤ MAX_MONEY)

include hmoney

theorem chosen_of_subperm {selected : Selected}
    {chosen : List Coin} (hsub : chosen.Subperm ((W.availableCoins coinControl).map DeepOutput.coin))
    (hset : selected.setCoinsRet = chosen.map Prod.snd) (hvalue : selected.nValueRet = (chosen.map Prod.fst).sum)
    (henough : nTargetValue ≤ selected.nValueRet) : Chosen W coinControl nTargetValue selected := by
  have hpay := payable_availableCoins hmoney
  obtain ⟨chosen', hperm, hsublist⟩ := hsub
  have hpay' := (hpay.sublist hsublist).perm hperm
  refine ⟨hset ▸ hpay'.distinct, ?_, henough, hvalue ▸ hpay'.total⟩
  rw [hvalue, hset, map_map]
  refine congrArg List.sum (map_congr_left fun c hc => ?_)
  exact (valueOf_coin (hsublist.mem (hperm.mem_iff.mpr hc))).symm

theorem chosen_of_lawful {nConfMine nConfTheirs : Int} {result : Bool × Selected}
    (h : Lawful (eligibleCoins W.isFromMe nConfMine nConfTheirs (W.availableCoins coinControl)) nTargetValue result)
    (hfound : result.1) : Chosen W coinControl nTargetValue result.2 := by
  obtain ⟨chosen, hsub, hset, -, hvalue⟩ := h.chosen hfound
  have hall := (filter_sublist (p := eligible W.isFromMe nConfMine nConfTheirs)
    (l := W.availableCoins coinControl)).map DeepOutput.coin
  exact chosen_of_subperm hmoney (hsub.trans hall.subperm) hset hvalue (h.enough hfound)

/-- `SelectCoins` chooses enough coins when a cent can be added to the target. -/
theorem selectCoins_chosen (outcome : Fin 3 → Outcome) (htarget : 0 ≤ nTargetValue)
    (hroom : nTargetValue + CENT < 2 ^ 63)
    (hfound : (W.selectCoins coinControl outcome nTargetValue).1) :
    Chosen W coinControl nTargetValue (W.selectCoins coinControl outcome nTargetValue).2 := by
  have hpay := payable_availableCoins hmoney
  have hlawful : ∀ k nConfMine nConfTheirs, Lawful (eligibleCoins W.isFromMe nConfMine nConfTheirs
      (W.availableCoins coinControl)) nTargetValue
      (selectCoinsMinConf W.isFromMe (outcome k) nTargetValue nConfMine nConfTheirs (W.availableCoins coinControl)) :=
    fun k nConfMine nConfTheirs => selectCoinsMinConf_lawful W.isFromMe (outcome k) nConfMine nConfTheirs hpay htarget hroom
  unfold selectCoins at hfound ⊢
  dsimp only at hfound ⊢
  by_cases hselected : hasSelected coinControl = true
  · rw [if_pos hselected] at hfound ⊢
    have hsub : (((W.availableCoins coinControl).filter fun out => out.fSpendable).map DeepOutput.coin).Sublist
        ((W.availableCoins coinControl).map DeepOutput.coin) := filter_sublist.map _
    have hspendable := hpay.sublist hsub
    have hfold := foldl_add (s := ⟨[], 0⟩) (by rw [nil_append]; exact hspendable.distinct) hspendable.positive
      (le_refl 0) (by rw [zero_add]; exact hspendable.total)
    rw [hfold] at hfound ⊢
    exact chosen_of_subperm hmoney hsub.subperm (nil_append _) (zero_add _) (of_decide_eq_true hfound)
  · rw [if_neg hselected] at hfound ⊢
    split_ifs at hfound ⊢ with hfirst hsecond hzero
    · exact chosen_of_lawful hmoney (hlawful 0 1 6) hfirst
    · exact chosen_of_lawful hmoney (hlawful 1 1 1) hsecond
    · exact chosen_of_lawful hmoney (hlawful 2 0 1) hfound
    · exact absurd hfound hsecond

end

end SpendWallet

/-! ## Signing -/

theorem SpendWallet.signCoins_keeps {W : SpendWallet} {setCoins : List (Uint256 × Nat)} {nIn : Nat}
    {txNew wtxNew : CTransaction} (h : W.signCoins setCoins nIn txNew = some wtxNew) :
    wtxNew.vout = txNew.vout ∧ wtxNew.vin.map CTxIn.prevout = txNew.vin.map CTxIn.prevout := by
  induction setCoins generalizing nIn txNew with
  | nil =>
    cases h
    exact ⟨rfl, rfl⟩
  | cons coin setCoins ih =>
    rw [SpendWallet.signCoins] at h
    cases hsign : W.signSignature coin.1 txNew nIn with
    | none =>
      rw [hsign] at h
      cases h
    | some scriptSig =>
      rw [hsign] at h
      obtain ⟨hvout, hvin⟩ := ih h
      refine ⟨hvout, hvin.trans ?_⟩
      dsimp only
      refine ext_getElem? fun k => ?_
      rw [getElem?_map, getElem?_map, getElem?_modify]
      cases txNew.vin[k]? with
      | none => rfl
      | some txin =>
        simp only [Option.map_some, Functor.map]
        split_ifs <;> rfl

/-! ## The amounts -/

/-- The sum of the first `k` amounts. -/
def partialSum (vecSend : List Payment) (k : Nat) : Int :=
  ((vecSend.take k).map Prod.snd).sum

def totalAmount (vecSend : List Payment) : Int :=
  (vecSend.map Prod.snd).sum

/-- No partial sum overflows. -/
def SumsFit (vecSend : List Payment) : Prop :=
  ∀ k, -(2 ^ 63) ≤ partialSum vecSend k ∧ partialSum vecSend k < 2 ^ 63

theorem partialSum_zero (vecSend : List Payment) : partialSum vecSend 0 = 0 :=
  rfl

theorem partialSum_succ (s : Payment) (vecSend : List Payment) (k : Nat) :
    partialSum (s :: vecSend) (k + 1) = s.2 + partialSum vecSend k :=
  rfl

theorem partialSum_length (vecSend : List Payment) : partialSum vecSend vecSend.length = totalAmount vecSend := by
  unfold partialSum totalAmount
  rw [take_length]

/-- The running total is found negative exactly when a partial sum is negative. -/
theorem sumAmounts_eq_some {v n : Int}
    (hfit : ∀ k, -(2 ^ 63) ≤ v + partialSum vecSend k ∧ v + partialSum vecSend k < 2 ^ 63) :
    sumAmounts vecSend v = some n ↔ n = v + totalAmount vecSend ∧ ∀ k, 0 ≤ v + partialSum vecSend k := by
  induction vecSend generalizing v with
  | nil =>
    rw [sumAmounts]
    have hsum : ∀ k, v + partialSum [] k = v := fun k => by simp [partialSum]
    have htotal : v + totalAmount [] = v := by simp [totalAmount]
    simp only [hsum, htotal, forall_const]
    split_ifs with hneg
    · exact iff_of_false nofun fun h => absurd h.2 (by omega)
    · exact ⟨fun h => ⟨(Option.some.inj h).symm, by omega⟩, fun h => congrArg some h.1.symm⟩
  | cons s vecSend ih =>
    have hone := hfit 1
    rw [partialSum_succ, partialSum_zero, add_zero] at hone
    have hnext : ∀ k, v + s.2 + partialSum vecSend k = v + partialSum (s :: vecSend) (k + 1) := by
      intro k
      rw [partialSum_succ, add_assoc]
    have htotal : v + totalAmount (s :: vecSend) = v + s.2 + totalAmount vecSend := by
      rw [totalAmount, map_cons, sum_cons, add_assoc]
      rfl
    rw [sumAmounts, wrap64_of_range hone.1 hone.2, htotal]
    split_ifs with hneg
    · refine iff_of_false nofun fun h => absurd (h.2 0) ?_
      rw [partialSum_zero]
      omega
    · rw [ih fun k => by rw [hnext]; exact hfit (k + 1)]
      refine and_congr_right fun _ => ⟨fun h k => ?_, fun h k => by rw [hnext]; exact h (k + 1)⟩
      cases k with
      | zero =>
        rw [partialSum_zero]
        omega
      | succ k =>
        rw [← hnext]
        exact h k

/-! ## The fee -/

theorem CFeeRate.getFee_nonneg (rate : CFeeRate) (nSize : Nat) : 0 ≤ rate.getFee nSize := by
  have hquotient : 0 ≤ rate.nSatoshisPerK * nSize % 2 ^ 64 / 1000 ∧
      rate.nSatoshisPerK * nSize % 2 ^ 64 / 1000 < 2 ^ 63 := by
    have hlo := Int.emod_nonneg (rate.nSatoshisPerK * nSize) (show (2 ^ 64 : Int) ≠ 0 by decide)
    omega
  unfold getFee
  dsimp only
  rw [wrap64_of_range (by omega) hquotient.2]
  split_ifs <;> omega

theorem SendSettings.getMinimumFee_nonneg (S : SendSettings) (nTxBytes : Nat) : 0 ≤ S.getMinimumFee nTxBytes := by
  have hpay := S.payTxFee.getFee_nonneg nTxBytes
  have hrelay := S.minRelayTxFee.getFee_nonneg nTxBytes
  have hperK := S.payTxFee.getFee_nonneg 1000
  have hestimated := S.estimatedFee.getFee_nonneg nTxBytes
  have hmin := S.minTxFee.getFee_nonneg nTxBytes
  have hfeePerK : S.payTxFee.getFeePerK = S.payTxFee.getFee 1000 := rfl
  unfold getMinimumFee
  dsimp only
  split_ifs <;> omega

/-- The fees that the settings can ask for. -/
def SendSettings.feeOf (S : SendSettings) (vecSend : List Payment) (nBytes : Nat) : Int :=
  S.getMinimumFee ((nBytes + nBytesPenaltyOf vecSend) % 2 ^ 32)

/-- The payments, any fee and a cent do not overflow. -/
def SendSettings.FeesFit (S : SendSettings) (vecSend : List Payment) : Prop :=
  ∀ nBytes < MAX_STANDARD_TX_SIZE, totalAmount vecSend + S.feeOf vecSend nBytes + CENT < 2 ^ 63

/-! ## One turn -/

section

variable {W : SpendWallet} {S : SendSettings} {coinControl : Option CCoinControl} {vecSend : List Payment}

/-- The outputs with their change; the fee stays as it is, since nothing counts as dust. -/
theorem addChange_eq (chance : TurnChance) (nChange nFeeRet : Int) (vout : List CTxOut) :
    addChange S coinControl chance nChange nFeeRet vout = (if 0 < nChange then
        vout.insertIdx (chance.getRandInt (vout.length + 1)) ⟨nChange, scriptChangeOf coinControl chance⟩
      else vout, nFeeRet) := by
  unfold addChange
  split_ifs <;> rfl

/-- A turn fails, or it has signed a transaction and ends with the fee or asks for a larger one. -/
theorem createTurn_cases (W : SpendWallet) (S : SendSettings) (coinControl : Option CCoinControl)
    (vecSend : List Payment)
    (chance : TurnChance) (nValue nFeeRet : Int) :
    (∃ strFailReason, createTurn W S coinControl vecSend chance nValue nFeeRet = .inl (.error strFailReason)) ∨
      ∃ selected wtxNew, W.selectCoins coinControl chance.outcome (wrap64 (nValue + nFeeRet)) = (true, selected) ∧
        W.signCoins (selected.setCoinsRet.insertionSort W.outpointBefore) 0 (txOfCoins W S selected.setCoinsRet
          (addChange S coinControl chance (wrap64 (wrap64 (selected.nValueRet - nValue) - nFeeRet)) nFeeRet
            (vecSend.map Payment.txOut)).1) = some wtxNew ∧
        (createTurn W S coinControl vecSend chance nValue nFeeRet =
            .inl (.ok { wtxNew := wtxNew, nFeeRet := nFeeRet }) ∨
          ∃ nBytes < MAX_STANDARD_TX_SIZE, nFeeRet < S.feeOf vecSend nBytes ∧
            createTurn W S coinControl vecSend chance nValue nFeeRet = .inr (S.feeOf vecSend nBytes)) := by
  have hdust : ((vecSend.map Payment.txOut).any fun txout => txout.isDust S.minRelayTxFee) = false := by
    rw [any_eq_false]
    exact fun _ _ => Bool.false_ne_true
  unfold createTurn
  dsimp only
  rw [if_neg (by rw [hdust]; exact Bool.false_ne_true)]
  cases hselect : W.selectCoins coinControl chance.outcome (wrap64 (nValue + nFeeRet)) with
  | mk fFound selected =>
    dsimp only
    cases fFound with
    | false => exact .inl ⟨_, rfl⟩
    | true =>
      have hfee : (addChange S coinControl chance (wrap64 (wrap64 (selected.nValueRet - nValue) - nFeeRet)) nFeeRet
          (vecSend.map Payment.txOut)).2 = nFeeRet := by rw [addChange_eq]
      rw [if_neg (by decide), hfee]
      cases hsign : W.signCoins (selected.setCoinsRet.insertionSort W.outpointBefore) 0 (txOfCoins W S
          selected.setCoinsRet (addChange S coinControl chance
            (wrap64 (wrap64 (selected.nValueRet - nValue) - nFeeRet)) nFeeRet (vecSend.map Payment.txOut)).1) with
      | none => exact .inl ⟨_, rfl⟩
      | some wtxNew =>
        dsimp only
        split_ifs with hsize hfree hrelay henough
        · exact .inl ⟨_, rfl⟩
        · exact .inr ⟨selected, wtxNew, rfl, hsign, .inl rfl⟩
        · exact .inl ⟨_, rfl⟩
        · exact .inr ⟨selected, wtxNew, rfl, hsign, .inl rfl⟩
        · exact .inr ⟨selected, wtxNew, rfl, hsign,
            .inr ⟨wtxNew.serializeSize % 2 ^ 32, by omega, Int.not_le.mp henough, rfl⟩⟩

/-- The outputs are the payments in their order with at most one more that is worth something, the inputs are distinct, and
what is left is the fee. -/
structure Paid (W : SpendWallet) (vecSend : List Payment) (sent : Sent) : Prop where
  outputs : sent.wtxNew.vout = vecSend.map Payment.txOut ∨ ∃ i ≤ vecSend.length, ∃ change : CTxOut,
    0 < change.nValue ∧ sent.wtxNew.vout = (vecSend.map Payment.txOut).insertIdx i change
  distinct : (sent.wtxNew.vin.map CTxIn.prevout).Nodup
  balance : inputValue W.valueOf sent.wtxNew - (sent.wtxNew.vout.map CTxOut.nValue).sum = sent.nFeeRet

theorem Paid.nonneg_iff {sent : Sent} (h : Paid W vecSend sent) :
    (∀ out ∈ sent.wtxNew.vout, 0 ≤ out.nValue) ↔ ∀ s ∈ vecSend, 0 ≤ s.2 := by
  have hpayments : (∀ out ∈ vecSend.map Payment.txOut, 0 ≤ out.nValue) ↔ ∀ s ∈ vecSend, 0 ≤ s.2 := by
    rw [forall_mem_map]
    rfl
  rcases h.outputs with hout | ⟨i, hi, change, hchange, hout⟩
  · rw [hout]
    exact hpayments
  · have hmem : ∀ out, out ∈ sent.wtxNew.vout ↔ out = change ∨ out ∈ vecSend.map Payment.txOut := by
      intro out
      rw [hout]
      exact mem_insertIdx (by rw [length_map]; exact hi)
    rw [← hpayments]
    refine ⟨fun hall out hin => hall out ((hmem out).mpr (.inr hin)), fun hall out hin => ?_⟩
    rcases (hmem out).mp hin with rfl | hin
    · exact Int.le_of_lt hchange
    · exact hall out hin

theorem sum_txOut (vecSend : List Payment) :
    ((vecSend.map Payment.txOut).map CTxOut.nValue).sum = totalAmount vecSend := by
  rw [map_map]
  rfl

/-- What is signed with the coins that were chosen. -/
theorem paid_of_chosen {chance : TurnChance} {nFeeRet : Int} {selected : Selected} {wtxNew : CTransaction}
    (hpositive : 0 ≤ totalAmount vecSend) (hfee : 0 ≤ nFeeRet)
    (hchosen : W.Chosen coinControl (totalAmount vecSend + nFeeRet) selected)
    (hsign : W.signCoins (selected.setCoinsRet.insertionSort W.outpointBefore) 0 (txOfCoins W S selected.setCoinsRet
      (addChange S coinControl chance (wrap64 (wrap64 (selected.nValueRet - totalAmount vecSend) - nFeeRet)) nFeeRet
        (vecSend.map Payment.txOut)).1) = some wtxNew) :
    Paid W vecSend { wtxNew := wtxNew, nFeeRet := nFeeRet } := by
  obtain ⟨hvout, hvin⟩ := SpendWallet.signCoins_keeps hsign
  have hmax : MAX_MONEY = 9223372036800000000 := rfl
  have henough := hchosen.enough
  have hmost := hchosen.most
  have hchange : wrap64 (wrap64 (selected.nValueRet - totalAmount vecSend) - nFeeRet) =
      selected.nValueRet - totalAmount vecSend - nFeeRet := by
    rw [wrap64_of_range (x := selected.nValueRet - totalAmount vecSend) (by omega) (by omega),
      wrap64_of_range (by omega) (by omega)]
  rw [hchange, addChange_eq] at hvout
  have hperm := perm_insertionSort W.outpointBefore selected.setCoinsRet
  have hprevouts : wtxNew.vin.map CTxIn.prevout = (selected.setCoinsRet.insertionSort W.outpointBefore).map
      fun coin => ({ hash := coin.1, n := coin.2 } : COutPoint) := by
    rw [hvin]
    exact map_map
  have hinputs : inputValue W.valueOf wtxNew = selected.nValueRet := by
    have hsum : inputValue W.valueOf wtxNew = ((wtxNew.vin.map CTxIn.prevout).map W.valueOf).sum := by
      rw [map_map]
      rfl
    rw [hsum, hprevouts, map_map, hchosen.value]
    exact (hperm.map _).sum_eq
  have hlen : (vecSend.map Payment.txOut).length = vecSend.length := length_map _
  refine ⟨?_, ?_, ?_⟩
  · dsimp only [txOfCoins] at hvout
    split_ifs at hvout with hpos
    · have hplace := chance.getRandInt_lt ((vecSend.map Payment.txOut).length + 1) (Nat.succ_pos _)
      exact .inr ⟨_, by omega, _, hpos, hvout⟩
    · exact .inl hvout
  · rw [hprevouts]
    refine ((hperm.nodup_iff).mpr hchosen.distinct).map fun a b hab => ?_
    exact Prod.ext (COutPoint.mk.inj hab).1 (COutPoint.mk.inj hab).2
  · dsimp only
    rw [hinputs, hvout]
    dsimp only [txOfCoins]
    split_ifs with hpos
    · have hplace := chance.getRandInt_lt ((vecSend.map Payment.txOut).length + 1) (Nat.succ_pos _)
      have hout := (perm_insertIdx (⟨selected.nValueRet - totalAmount vecSend - nFeeRet,
        scriptChangeOf coinControl chance⟩ : CTxOut) (vecSend.map Payment.txOut) (Nat.lt_succ_iff.mp hplace)).map
          CTxOut.nValue
      rw [hout.sum_eq, map_cons, sum_cons, sum_txOut]
      dsimp only
      omega
    · rw [sum_txOut]
      omega

end

/-! ## The loop -/

/-- Turns enough for a fee that rises among the fees of all sizes below `MAX_STANDARD_TX_SIZE`. -/
def enoughTurns : Nat :=
  MAX_STANDARD_TX_SIZE + 1

section

variable (W : SpendWallet) (S : SendSettings) (coinControl : Option CCoinControl) (vecSend : List Payment)
  (chance : Nat → TurnChance)

/-- The loop ends whatever the wallet, the settings and the outcomes are. -/
theorem createTransaction_ends :
    ∃ result, createTransaction W S coinControl vecSend chance enoughTurns = some result := by
  unfold createTransaction
  split
  · exact ⟨_, rfl⟩
  · rename_i nValue _
    let fees := (Finset.range MAX_STANDARD_TX_SIZE).image (S.feeOf vecSend)
    have hrises : ∀ k nFeeRet nFee, createTurn W S coinControl vecSend (chance k) nValue nFeeRet = .inr nFee →
        nFeeRet < nFee ∧ nFee ∈ fees := by
      intro k nFeeRet nFee hturn
      rcases createTurn_cases W S coinControl vecSend (chance k) nValue nFeeRet with
        ⟨_, hfailed⟩ | ⟨_, _, -, -, hsent | ⟨nBytes, hsize, hless, hagain⟩⟩
      · rw [hfailed] at hturn
        cases hturn
      · rw [hsent] at hturn
        cases hturn
      · obtain rfl := Sum.inr.inj (hagain.symm.trans hturn)
        exact ⟨hless, Finset.mem_image_of_mem _ (Finset.mem_range.mpr hsize)⟩
    refine Rising.run_ends hrises ?_
    have hcard := (Finset.card_filter_le fees fun nFee => 0 < nFee).trans Finset.card_image_le
    rw [Finset.card_range] at hcard
    exact Nat.lt_succ_of_le hcard

/-- What the call should come to: it ends, a negative amount is refused, and a transaction is as it should be. -/
def Creates : Prop :=
  ∃ result, createTransaction W S coinControl vecSend chance enoughTurns = some result ∧
    ((∃ s ∈ vecSend, s.2 < 0) → ∃ strFailReason, result = .error strFailReason) ∧
    ∀ sent, result = .ok sent → Paid W vecSend sent ∧ ∀ out ∈ sent.wtxNew.vout, 0 ≤ out.nValue

/-- No amount is negative, or a partial sum is. -/
def NegativeSeen : Prop :=
  (∀ s ∈ vecSend, 0 ≤ s.2) ∨ ∃ k, partialSum vecSend k < 0

end

section

variable {W : SpendWallet} {S : SendSettings} {coinControl : Option CCoinControl} {vecSend : List Payment}
  {chance : Nat → TurnChance}

/-- A transaction is created only for amounts whose partial sums are not negative, and then it is as it should be. -/
theorem createTransaction_paid (hsums : SumsFit vecSend) (hmoney : W.availableValue coinControl ≤ MAX_MONEY)
    (hfees : S.FeesFit vecSend) {turns : Nat} {sent : Sent}
    (h : createTransaction W S coinControl vecSend chance turns = some (.ok sent)) :
    (∀ k, 0 ≤ partialSum vecSend k) ∧ Paid W vecSend sent := by
  unfold createTransaction at h
  split at h
  · cases h
  · rename_i nValue hamounts
    have hsum : sumAmounts vecSend 0 = some nValue := by
      split_ifs at hamounts
      exact hamounts
    rw [sumAmounts_eq_some fun k => by rw [zero_add]; exact hsums k] at hsum
    simp only [zero_add] at hsum
    obtain ⟨rfl, hpart⟩ := hsum
    have htotal : 0 ≤ totalAmount vecSend := partialSum_length vecSend ▸ hpart vecSend.length
    refine ⟨hpart, ?_⟩
    -- every fee that is tried leaves room for a cent
    have hpaid := Rising.run_invariant (fun k => createTurn W S coinControl vecSend (chance k) (totalAmount vecSend))
      (P := fun nFeeRet => 0 ≤ nFeeRet ∧ totalAmount vecSend + nFeeRet + CENT < 2 ^ 63)
      (Q := fun result => ∀ sent, result = .ok sent → Paid W vecSend sent) ?_ ?_ ?_ h
    · exact hpaid sent rfl
    · rintro k nFeeRet nFee - hturn
      rcases createTurn_cases W S coinControl vecSend (chance k) (totalAmount vecSend) nFeeRet with
        ⟨_, hfailed⟩ | ⟨_, _, -, -, hsent | ⟨nBytes, hsize, hless, hagain⟩⟩
      · rw [hfailed] at hturn
        cases hturn
      · rw [hsent] at hturn
        cases hturn
      · obtain rfl := Sum.inr.inj (hagain.symm.trans hturn)
        exact ⟨S.getMinimumFee_nonneg _, hfees nBytes hsize⟩
    · rintro k nFeeRet result ⟨hfee, hroom⟩ hturn sent rfl
      have hcent : CENT = 1000000 := rfl
      rcases createTurn_cases W S coinControl vecSend (chance k) (totalAmount vecSend) nFeeRet with
        ⟨_, hfailed⟩ | ⟨selected, wtxNew, hselect, hsign, hsent | ⟨nBytes, -, -, hagain⟩⟩
      · rw [hfailed] at hturn
        cases hturn
      · cases Sum.inl.inj (hsent.symm.trans hturn)
        rw [wrap64_of_range (by omega) (by omega)] at hselect
        have hchosen := SpendWallet.selectCoins_chosen hmoney (chance k).outcome (by omega) hroom (by rw [hselect])
        rw [hselect] at hchosen
        exact paid_of_chosen htotal hfee hchosen hsign
      · rw [hagain] at hturn
        cases hturn
    · have hfirst := hfees 0 (by decide)
      have hnonneg := S.getMinimumFee_nonneg ((0 + nBytesPenaltyOf vecSend) % 2 ^ 32)
      have hfeeOf : S.feeOf vecSend 0 = S.getMinimumFee ((0 + nBytesPenaltyOf vecSend) % 2 ^ 32) := rfl
      exact ⟨le_refl 0, by omega⟩

end

/-- The smallest transaction that makes the payments: one unsigned input pays for them. -/
def barePayments (vecSend : List Payment) : CTransaction where
  nVersion := 1
  vin :=
    if totalAmount vecSend = 0 then []
    else [{ prevout := { hash := 1, n := 0 }, scriptSig := [], nSequence := 2 ^ 32 - 1 }]
  vout := vecSend.map Payment.txOut
  nLockTime := 0
  nTime := 0

namespace Example

/-- A wallet that has one transaction with one output. -/
def oneCoin (n : Int) : SpendWallet where
  mapWallet := [(1, ⟨CoinSelection.Example.paying n, by show 1 < 2 ^ 32; decide⟩)]
  keys := by simp
  isFinalTx _ := true
  isTrusted _ := true
  getBlocksToMaturity _ := 0
  getDepthInMainChain _ := 10
  isMine _ := .spendable
  isSpent _ _ := false
  isLockedCoin _ _ := false
  isFromMe _ := false
  bSpendZeroConfChange := true
  address hash := hash
  signSignature _ _ _ := some []

/-- Nothing has to be paid for a transaction. -/
def freeSettings : SendSettings where
  payTxFee := ⟨0⟩
  minRelayTxFee := ⟨0⟩
  minTxFee := ⟨0⟩
  estimatedFee := ⟨0⟩
  fPayAtLeastCustomFee := true
  fSendFreeTransactions := false
  nVersion := 1
  nAdjustedTime := 0

def stillChance (_ : Nat) : TurnChance where
  outcome _ := CoinSelection.Example.stillOutcome
  getRandInt _ := 0
  getRandInt_lt _ h := h
  reservedKey := ⟨List.replicate 20 0, rfl⟩
  enoughPriority := false

theorem oneCoin_available (n : Int) :
    (oneCoin n).availableCoins none = if 0 < n then [CoinSelection.Example.coinOf n 1] else [] := by
  have hone : (oneCoin n).availableCoins none =
      [CoinSelection.Example.coinOf n 1].filter ((oneCoin n).offers none) ++ [] := rfl
  have hoffers : (oneCoin n).offers none (CoinSelection.Example.coinOf n 1) = decide (0 < n) := Bool.and_true _
  rw [hone, append_nil, filter_cons, hoffers]
  by_cases hn : 0 < n
  · rw [decide_eq_true hn, if_pos rfl, if_pos hn]
    rfl
  · rw [decide_eq_false hn, if_neg (by decide), if_neg hn]
    rfl

theorem oneCoin_selects {n : Int} (h : 0 ≤ n) (hmax : n ≤ MAX_MONEY) :
    (oneCoin n).selectCoins none (stillChance 0).outcome n = (true, ⟨if n = 0 then [] else [(1, 0)], n⟩) := by
  have hwrap : wrap64 (0 + n) = n := by
    rw [zero_add]
    exact wrap64_money h hmax
  have hfirst : selectCoinsMinConf (oneCoin n).isFromMe CoinSelection.Example.stillOutcome n 1 6
      (if 0 < n then [CoinSelection.Example.coinOf n 1] else []) = (true, ⟨if n = 0 then [] else [(1, 0)], n⟩) := by
    by_cases hn : n = 0
    · rw [hn]
      decide
    · rw [if_pos (by omega), if_neg hn]
      have hloop : outputsLoop (oneCoin n).isFromMe n 1 6
          (CoinSelection.Example.stillOutcome.shuffle [CoinSelection.Example.coinOf n 1]) [] 0 ⟨2 ^ 63 - 1, none⟩ =
            .exact (n, 1, 0) := (if_pos rfl).trans (if_pos rfl)
      unfold selectCoinsMinConf
      rw [hloop]
      exact congrArg (fun nValueRet => (true, (⟨[(1, 0)], nValueRet⟩ : Selected))) hwrap
  unfold SpendWallet.selectCoins
  dsimp only
  rw [if_neg (by decide), oneCoin_available]
  exact (if_pos (congrArg Prod.fst hfirst)).trans hfirst

theorem freeSettings_fee (n : Nat) : freeSettings.getMinimumFee n = 0 := by
  have hfee : (⟨0⟩ : CFeeRate).getFee n = 0 := by
    unfold CFeeRate.getFee
    dsimp only
    rw [zero_mul]
    decide
  unfold SendSettings.getMinimumFee freeSettings
  dsimp only
  rw [hfee]
  decide

theorem oneCoin_fits {n : Int} (hmax : n ≤ MAX_MONEY) : (oneCoin n).availableValue none ≤ MAX_MONEY := by
  unfold SpendWallet.availableValue
  rw [oneCoin_available]
  split_ifs
  · show n + 0 ≤ MAX_MONEY
    omega
  · decide

theorem freeSettings_fit (hmax : totalAmount vecSend ≤ MAX_MONEY) : freeSettings.FeesFit vecSend := by
  intro nBytes _
  have hmoney : MAX_MONEY = 9223372036800000000 := rfl
  have hcent : CENT = 1000000 := rfl
  rw [SendSettings.feeOf, freeSettings_fee]
  omega

/-- The wallet pays with its one coin, for free. -/
theorem oneCoin_sends (hne : vecSend ≠ []) (hsums : SumsFit vecSend)
    (hpart : ∀ k, 0 ≤ partialSum vecSend k) (hmax : totalAmount vecSend ≤ MAX_MONEY)
    (hsize : (barePayments vecSend).serializeSize % 2 ^ 32 < MAX_STANDARD_TX_SIZE) :
    createTransaction (oneCoin (totalAmount vecSend)) freeSettings none vecSend stillChance enoughTurns =
      some (.ok { wtxNew := barePayments vecSend, nFeeRet := 0 }) := by
  have htotal : 0 ≤ totalAmount vecSend := partialSum_length vecSend ▸ hpart vecSend.length
  have hsum : sumAmounts vecSend 0 = some (totalAmount vecSend) := by
    rw [sumAmounts_eq_some fun k => by rw [zero_add]; exact hsums k]
    simp only [zero_add]
    exact ⟨trivial, hpart⟩
  have hturn : createTurn (oneCoin (totalAmount vecSend)) freeSettings none vecSend (stillChance 0)
      (totalAmount vecSend) 0 = .inl (.ok { wtxNew := barePayments vecSend, nFeeRet := 0 }) := by
    have hdust : ((vecSend.map Payment.txOut).any fun txout => txout.isDust freeSettings.minRelayTxFee) = false := by
      rw [any_eq_false]
      exact fun _ _ => Bool.false_ne_true
    have hnothing : wrap64 (wrap64 (totalAmount vecSend - totalAmount vecSend) - 0) = 0 := by
      rw [Int.sub_self]
      decide
    have hsign : (oneCoin (totalAmount vecSend)).signCoins
        ((if totalAmount vecSend = 0 then [] else [(1, 0)]).insertionSort
          (oneCoin (totalAmount vecSend)).outpointBefore) 0
        (txOfCoins (oneCoin (totalAmount vecSend)) freeSettings
          (if totalAmount vecSend = 0 then [] else [(1, 0)]) (vecSend.map Payment.txOut)) =
        some (barePayments vecSend) := by
      unfold barePayments
      split_ifs <;> rfl
    unfold createTurn
    dsimp only
    rw [if_neg (by rw [hdust]; exact Bool.false_ne_true), add_zero, wrap64_money htotal hmax,
      oneCoin_selects htotal hmax]
    dsimp only
    rw [if_neg (by decide), hnothing, addChange_eq, if_neg (lt_irrefl 0)]
    dsimp only
    rw [hsign]
    dsimp only
    rw [if_neg (Nat.not_le.mpr hsize), if_neg (fun hfree => Bool.false_ne_true hfree.2.1), freeSettings_fee]
    have hrelay : freeSettings.minRelayTxFee.getFee ((barePayments vecSend).serializeSize % 2 ^ 32) = 0 := by
      unfold CFeeRate.getFee freeSettings
      dsimp only
      rw [zero_mul]
      decide
    rw [hrelay, if_neg (lt_irrefl 0), if_pos (le_refl 0)]
  unfold createTransaction
  rw [if_neg (by simpa using hne), hsum]
  dsimp only
  rw [enoughTurns, Rising.run, hturn]

end Example

open Example

end Reddcoin
