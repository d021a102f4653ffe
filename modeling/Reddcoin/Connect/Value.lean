import Reddcoin.Connect.RoundTrip

/-!
# Value created by a block

The loop of `ConnectBlock` adds up fees and stake reward in 64 bits.  Every input and output it counts is
in the money range, so the amounts of one transaction are exact, and a wrapped sum of fees is never
more than the exact one.
-/

namespace Reddcoin

variable {txs : List CTransaction}

theorem wrap64_congr {x y : Int} (h : ∃ k : Int, x = y + 2 ^ 64 * k) : wrap64 x = wrap64 y := by
  obtain ⟨k, rfl⟩ := h
  unfold wrap64
  rw [Int.bmod_eq_bmod_iff_bmod_sub_eq_zero]
  exact Int.bmod_eq_zero_of_dvd ⟨k, by push_cast; ring⟩

theorem wrap64_add_le {a f w : Int} (ha : -(2 ^ 63) ≤ a) (hf : 0 ≤ f)
    (hw : ∃ k : Int, w = f + 2 ^ 64 * k) : wrap64 (a + w) ≤ a + f := by
  obtain ⟨k, hk⟩ := hw
  obtain ⟨j, hj⟩ := wrap64_eq_add (a + w)
  have hrange := wrap64_range (a + w)
  omega

namespace Utxo

variable (C : Crypto)

/-- The exact value of what the inputs of a transaction spend. -/
def valueIn (U : Utxo) (vin : List CTxIn) : Int :=
  (vin.map fun txin => ((U txin.prevout.hash txin.prevout.n).map CTxOut.nValue).getD 0).sum

/-- What a transaction creates: its outputs less its inputs.  A coinbase has no inputs. -/
def created (U : Utxo) (tx : CTransaction) : Int :=
  valueOf tx.vout - if tx.isCoinBase then 0 else U.valueIn tx.vin

/-- What those of the transactions that satisfy `p` create, applied in turn. -/
def net (p : CTransaction → Bool) : Utxo → List CTransaction → Int
  | _, [] => 0
  | U, tx :: txs => (if p tx then U.created tx else 0) + net p (U.applyTx C tx) txs

theorem net_add_net_not (p : CTransaction → Bool) (U : Utxo) (txs : List CTransaction) :
    net C p U txs + net C (fun tx => !p tx) U txs = net C (fun _ => true) U txs := by
  induction txs generalizing U with
  | nil => rfl
  | cons tx txs ih =>
    have htail := ih (U.applyTx C tx)
    simp only [net, if_true]
    by_cases hp : p tx = true
    · simp only [hp, if_true, Bool.not_true, Bool.false_eq_true, if_false]
      omega
    · rw [Bool.not_eq_true] at hp
      simp only [hp, if_true, Bool.not_false, Bool.false_eq_true, if_false]
      omega

theorem net_congr {p q : CTransaction → Bool} {U : Utxo} (h : ∀ tx ∈ txs, p tx = q tx) :
    net C p U txs = net C q U txs := by
  induction txs generalizing U with
  | nil => rfl
  | cons tx txs ih =>
    simp only [net, h tx List.mem_cons_self]
    rw [ih fun t ht => h t (List.mem_cons_of_mem _ ht)]

theorem net_eq_zero {p : CTransaction → Bool} {U : Utxo} (h : ∀ tx ∈ txs, p tx = false) : net C p U txs = 0 := by
  induction txs generalizing U with
  | nil => rfl
  | cons tx txs ih =>
    simp only [net, h tx List.mem_cons_self, Bool.false_eq_true, if_false, zero_add]
    exact ih fun t ht => h t (List.mem_cons_of_mem _ ht)

end Utxo

/-! ## One transaction -/

section

variable {C : Crypto} {ctx : ConnectContext} {fScriptChecks : Bool} {flags : Nat}
  {s s' : ConnectState} {tx : CTransaction} {view : CoinsView}

theorem checkInput_ok {nSpendHeight : Nat} {acc v : Int} {txin : CTxIn}
    (h : checkInput view nSpendHeight tx acc txin = .ok v) :
    ∃ out, getOutputFor view txin = some out ∧ view.out? txin.prevout.hash txin.prevout.n = some out ∧
      moneyRange out.nValue ∧ moneyRange v ∧ v = wrap64 (acc + out.nValue) := by
  obtain ⟨coins, hcoins, h⟩ := check_bind_ok.mp h
  simp only [check_seq_ok] at h
  obtain ⟨-, -, h⟩ := h
  obtain ⟨out, hout, h⟩ := check_bind_ok.mp h
  simp only [check_seq_ok, require_eq_ok, check_pure_ok, Bool.and_eq_true] at h
  obtain ⟨⟨hrange, hsum⟩, rfl⟩ := h
  rw [orCrash_eq_ok] at hcoins hout
  have hnull : out.isNull = false := by
    have hnonneg := (moneyRange_iff.mp hrange).1
    simp only [CTxOut.isNull, decide_eq_false_iff_not]
    omega
  have havail : coins.out? txin.prevout.n = some out := CCoins.out?_eq_some.mpr ⟨hout, hnull⟩
  refine ⟨out, ?_, ?_, hrange, hsum, rfl⟩
  · unfold getOutputFor
    rw [hcoins]
    exact havail
  · rcases CoinsView.accessCoins_eq (v := view) txin.prevout.hash with hsome | ⟨hnone, -⟩
    · rw [hcoins] at hsome
      show (view.coins txin.prevout.hash).out? txin.prevout.n = some out
      cases hsome
      exact havail
    · rw [hcoins] at hnone
      simp at hnone

/-- The sum that `CheckInputs` makes is exact, and `GetValueIn` makes the same one. -/
theorem checkInput_foldlM {nSpendHeight : Nat} {vin : List CTxIn} {acc v : Int}
    (hacc : moneyRange acc) (h : vin.foldlM (checkInput view nSpendHeight tx) acc = .ok v) :
    moneyRange v ∧ v = acc + view.utxo.valueIn vin ∧ vin.foldlM (fun nResult txin => do
        let out ← getOutputFor view txin
        pure (wrap64 (nResult + out.nValue))) acc = some v := by
  induction vin generalizing acc with
  | nil =>
    have heq : acc = v := by simpa using h
    subst heq
    exact ⟨hacc, by simp [Utxo.valueIn], rfl⟩
  | cons txin vin ih =>
    rw [List.foldlM_cons] at h
    obtain ⟨mid, hmid, hrest⟩ := check_bind_ok.mp h
    obtain ⟨out, hget, hout, hrange, hsum, hexact⟩ := checkInput_ok hmid
    obtain ⟨hv, hval, hfold⟩ := ih hsum hrest
    have hstep : mid = acc + out.nValue := by
      rw [moneyRange_iff] at hacc hrange hsum
      obtain ⟨k, hk⟩ := wrap64_eq_add (acc + out.nValue)
      have hmax := MAX_MONEY_add_lt
      omega
    refine ⟨hv, ?_, ?_⟩
    · have hhead : view.utxo txin.prevout.hash txin.prevout.n = some out := hout
      simp only [Utxo.valueIn, List.map_cons, List.sum_cons, hhead, Option.map_some, Option.getD_some]
      simp only [Utxo.valueIn] at hval
      omega
    · rw [List.foldlM_cons, hget, ← hfold, hexact]
      rfl

/-- What the accounting of a transaction amounts to. -/
structure TxAccounted (C : Crypto) (s s' : ConnectState) (tx : CTransaction) : Prop where
  utxo : s'.view.utxo = s.view.utxo.applyTx C tx
  coinbase : tx.isCoinBase = true → s'.nFees = s.nFees ∧ s'.nStakeReward = s.nStakeReward
  coinstake : tx.isCoinStake = true → s'.nFees = s.nFees ∧ s'.nStakeReward = s.view.utxo.created tx
  ordinary : tx.isCoinBase = false → tx.isCoinStake = false →
    s.view.utxo.created tx ≤ 0 ∧ s'.nFees = wrap64 (s.nFees - s.view.utxo.created tx) ∧
      s'.nStakeReward = s.nStakeReward

/-- The amounts of a transaction that `CheckInputs` has passed. -/
theorem InputsAccepted.values {nTxValueIn nTxValueOut : Int} (hcb : tx.isCoinBase = false)
    (h : InputsAccepted C ctx view tx nTxValueIn nTxValueOut) :
    moneyRange nTxValueIn ∧ moneyRange nTxValueOut ∧ nTxValueOut - nTxValueIn = view.utxo.created tx ∧
      (tx.isCoinStake = false → nTxValueOut ≤ nTxValueIn) := by
  obtain ⟨fScriptChecks, flags, checks, hchecks⟩ := h.checked
  unfold checkInputs at hchecks
  rw [hcb] at hchecks
  simp only [Bool.false_eq_true, if_false, check_seq_ok] at hchecks
  obtain ⟨-, hchecks⟩ := hchecks
  obtain ⟨nValueIn, hfold, hchecks⟩ := check_bind_ok.mp hchecks
  obtain ⟨hfee, -⟩ := check_seq_ok.mp hchecks
  obtain ⟨hrange, hexact, hsame⟩ := checkInput_foldlM (by decide) hfold
  have hin : nTxValueIn = nValueIn := by
    have hget := h.value_in
    unfold getValueIn at hget
    rw [hcb] at hget
    exact Option.mem_unique hget hsame
  subst hin
  obtain ⟨hout, -, hrangeOut⟩ := getValueOut_eq_some h.value_out
  refine ⟨hrange, hrangeOut, ?_, fun hstake => ?_⟩
  · unfold Utxo.created
    rw [hcb]
    simp only [Bool.false_eq_true, if_false]
    omega
  · rw [hstake, onlyIf_eq_ok] at hfee
    have hcheck := hfee rfl
    simp only [checkFee, h.value_out] at hcheck
    obtain ⟨v, hv, hcheck⟩ := check_bind_ok.mp hcheck
    rw [orCrash_eq_ok] at hv
    cases hv
    simpa using (check_seq_ok.mp hcheck).1

theorem connectTx_accounted (h : connectTx C ctx fScriptChecks flags s tx = .ok s') :
    TxAccounted C s s' tx := by
  obtain ⟨mid, undo, haccount, hupdate, -, hfees, hreward⟩ := connectTx_ok h
  have hutxo := (updateCoins_ok (D := ∅) hupdate).1
  unfold accountTx at haccount
  cases hcb : tx.isCoinBase with
  | true =>
    rw [hcb] at haccount
    obtain ⟨_, -, haccount⟩ := check_bind_ok.mp haccount
    rw [check_pure_ok] at haccount
    subst haccount
    refine ⟨hutxo, fun _ => ⟨hfees, hreward⟩, fun hstake => ?_, fun hf => by simp [hcb] at hf⟩
    rw [CTransaction.isCoinStake_eq_false_of_isCoinBase hcb] at hstake
    simp at hstake
  | false =>
    rw [hcb] at haccount
    obtain ⟨nTxValueIn, nTxValueOut, hacc, -, -, hmidReward, hmidFees, -⟩ := connectInputs_ok haccount
    obtain ⟨hin, hout, hcreated, hle⟩ := hacc.values hcb
    rw [moneyRange_iff] at hin hout
    have hbound := MAX_MONEY_lt
    refine ⟨hutxo, fun hf => by simp [hcb] at hf, fun hstake => ?_, fun _ hstake => ?_⟩
    · rw [hstake] at hmidReward hmidFees
      refine ⟨hfees.trans hmidFees, ?_⟩
      rw [hreward, hmidReward, ← hcreated]
      exact wrap64_of_range (by omega) (by omega)
    · rw [hstake] at hmidReward hmidFees
      have hnonneg := hle hstake
      refine ⟨?_, ?_, hreward.trans hmidReward⟩
      · rw [← hcreated]
        omega
      · rw [hfees, hmidFees]
        simp only [Bool.false_eq_true, if_false]
        have hfee : wrap64 (nTxValueIn - nTxValueOut) = nTxValueIn - nTxValueOut :=
          wrap64_of_range (by omega) (by omega)
        rw [hfee, ← hcreated]
        congr 1
        omega

/-! ## The loop -/

/-- A transaction that has to pay for its outputs. -/
def isOrdinary (tx : CTransaction) : Bool :=
  !tx.isCoinBase && !tx.isCoinStake

/-- Over the loop the fees are those of the ordinary transactions, up to overflow, and without a
coinstake the stake reward stays. -/
theorem connectTxs_accounted (h : txs.foldlM (connectTx C ctx fScriptChecks flags) s = .ok s') :
    Utxo.net C isOrdinary s.view.utxo txs ≤ 0 ∧
      (∃ k : Int, s'.nFees = s.nFees - Utxo.net C isOrdinary s.view.utxo txs + 2 ^ 64 * k) ∧
      ((∀ tx ∈ txs, tx.isCoinStake = false) → s'.nStakeReward = s.nStakeReward) := by
  induction txs generalizing s with
  | nil =>
    have heq : s = s' := by simpa using h
    subst heq
    exact ⟨le_refl 0, ⟨0, by simp [Utxo.net]⟩, fun _ => rfl⟩
  | cons tx txs ih =>
    rw [List.foldlM_cons] at h
    obtain ⟨mid, hhead, htail⟩ := check_bind_ok.mp h
    have hacc := connectTx_accounted hhead
    obtain ⟨hle, ⟨k, hk⟩, hreward⟩ := ih htail
    rw [hacc.utxo] at hle hk
    unfold Utxo.net isOrdinary
    cases hcb : tx.isCoinBase with
    | true =>
      obtain ⟨hfees, hsame⟩ := hacc.coinbase hcb
      rw [hfees] at hk
      simp only [Bool.not_true, Bool.false_and, Bool.false_eq_true, if_false, zero_add]
      exact ⟨hle, ⟨k, hk⟩, fun hall =>
        (hreward fun t ht => hall t (List.mem_cons_of_mem _ ht)).trans hsame⟩
    | false =>
      cases hstake : tx.isCoinStake with
      | true =>
        obtain ⟨hfees, -⟩ := hacc.coinstake hstake
        rw [hfees] at hk
        simp only [Bool.not_true, Bool.and_false, Bool.false_eq_true, if_false, zero_add]
        refine ⟨hle, ⟨k, hk⟩, fun hall => ?_⟩
        have hnot := hall tx List.mem_cons_self
        rw [hstake] at hnot
        simp at hnot
      | false =>
        obtain ⟨hcreated, hfees, hsame⟩ := hacc.ordinary hcb hstake
        obtain ⟨j, hj⟩ := wrap64_eq_add (s.nFees - s.view.utxo.created tx)
        simp only [Bool.not_false, Bool.and_true, if_true]
        refine ⟨add_nonpos hcreated hle, ⟨k + j, ?_⟩, fun hall =>
          (hreward fun t ht => hall t (List.mem_cons_of_mem _ ht)).trans hsame⟩
        have hisOrd : (fun tx : CTransaction => !tx.isCoinBase && !tx.isCoinStake) = isOrdinary := rfl
        rw [hk, hfees, hj, hisOrd]
        ring

end

/-! ## The block -/

/-- What a block may create at most. -/
def createdLimit (ctx : ConnectContext) (block : CBlock) : Int :=
  match block.isProofOfStake, block.vtx[1]? with
  | true, some coinstake =>
    getProofOfStakeReward (rewardAdjustment ctx block) (ctx.getCoinAge coinstake) 0
  | _, _ => getBlockValue ctx.nHeight 0

/-- The part of the block value that the transactions other than coinstakes do not take. -/
def unclaimed (C : Crypto) (ctx : ConnectContext) (block : CBlock) (view : CoinsView) : Int :=
  getBlockValue ctx.nHeight 0 - Utxo.net C (fun tx => !tx.isCoinStake) view.utxo block.vtx

theorem subsidy_range (nHeight : Nat) :
    ∃ subsidy : Int, 0 ≤ subsidy ∧ subsidy < 2 ^ 62 ∧
      ∀ nFees, getBlockValue nHeight nFees = wrap64 (subsidy + nFees) := by
  have hhalved : ∀ e : Nat, 0 ≤ 100000 * COIN / 2 ^ e ∧ 100000 * COIN / 2 ^ e < 2 ^ 62 := by
    intro e
    have hcoins : (0 : Int) ≤ 100000 * COIN := by norm_num [COIN]
    refine ⟨Int.ediv_nonneg hcoins (by positivity), ?_⟩
    calc 100000 * COIN / 2 ^ e ≤ 100000 * COIN := Int.ediv_le_self _ hcoins
      _ < 2 ^ 62 := by norm_num [COIN]
  have hrange : ∀ subsidy : Int, (0 ≤ subsidy ∧ subsidy < 2 ^ 62) →
      ∃ subsidy' : Int, 0 ≤ subsidy' ∧ subsidy' < 2 ^ 62 ∧
        ∀ nFees, wrap64 (subsidy + nFees) = wrap64 (subsidy' + nFees) :=
    fun subsidy h => ⟨subsidy, h.1, h.2, fun _ => rfl⟩
  simp only [getBlockValue]
  apply hrange
  split_ifs
  · norm_num [COIN]
  · norm_num [COIN]
  · norm_num [COIN]
  · norm_num [COIN]
  · norm_num [COIN]
  · exact hhalved _
  · norm_num [COIN]

section

variable {P : CChainParams} {C : Crypto} {ctx : ConnectContext} {block : CBlock} {view : CoinsView}
  {fJustCheck : Bool} {r : ConnectResult} {cb : CTransaction} {rest : List CTransaction}

theorem net_coinbase {U : Utxo} (hcb : cb.isCoinBase)
    (hrest : ∀ tx ∈ rest, tx.isCoinBase = false) :
    Utxo.net C (fun tx => !tx.isCoinStake) U (cb :: rest) =
      valueOf cb.vout + Utxo.net C isOrdinary U (cb :: rest) := by
  have hstake := CTransaction.isCoinStake_eq_false_of_isCoinBase hcb
  have htail : Utxo.net C (fun tx => !tx.isCoinStake) (U.applyTx C cb) rest =
      Utxo.net C isOrdinary (U.applyTx C cb) rest :=
    Utxo.net_congr C fun tx htx => by simp [isOrdinary, hrest tx htx]
  simp [Utxo.net, isOrdinary, Utxo.created, hcb, hstake, htail]

/-- A proof-of-work block: the coinbase takes at most the block value and the fees. -/
theorem unclaimed_nonneg (hgenesis : block.getHash C ≠ P.hashGenesisBlock)
    (h : connectBlock P C ctx block view fJustCheck = .ok r) (hpos : block.isProofOfStake = false) :
    0 ≤ unclaimed C ctx block view := by
  have hacc := connectBlock_ok hgenesis h
  obtain ⟨s, hloop, hreward, -, -⟩ := hacc.loop
  obtain ⟨cb, rest, hvtx, hcb, hrest⟩ := hacc.checked.coinbase
  obtain ⟨hle, ⟨k, hk⟩, -⟩ := connectTxs_accounted hloop
  obtain ⟨subsidy, hlo, hhi, hvalue⟩ := subsidy_range ctx.nHeight
  have hcheck : valueOf cb.vout ≤ getBlockValue ctx.nHeight s.nFees := by
    unfold checkReward at hreward
    rw [hvtx] at hreward
    simp only [CBlock.isProofOfWork, hpos, Bool.not_false, if_true] at hreward
    obtain ⟨v, hv, hcheck⟩ := check_bind_ok.mp hreward
    rw [orCrash_eq_ok] at hv
    rw [← (getValueOut_eq_some hv).1]
    simpa using hcheck
  have hzero : getBlockValue ctx.nHeight 0 = subsidy := by
    rw [hvalue, add_zero]
    exact wrap64_of_range (by omega) (by omega)
  unfold unclaimed
  rw [hzero, hvtx, net_coinbase hcb hrest, ← hvtx]
  rw [hvalue] at hcheck
  change Utxo.net C isOrdinary view.utxo block.vtx ≤ 0 at hle
  have hfees := wrap64_add_le (a := subsidy) (f := -Utxo.net C isOrdinary view.utxo block.vtx)
    (w := s.nFees) (by omega) (by omega) ⟨k, by rw [hk]; simp [ConnectState.start]⟩
  omega

/-- A proof-of-stake block: the coinstake takes at most its reward and the fees. -/
theorem stake_created_le (hgenesis : block.getHash C ≠ P.hashGenesisBlock)
    (h : connectBlock P C ctx block view fJustCheck = .ok r) (hpos : block.isProofOfStake) :
    Utxo.net C (fun _ => true) view.utxo block.vtx ≤ createdLimit ctx block := by
  have hacc := connectBlock_ok hgenesis h
  obtain ⟨s, hloop, hreward, -, -⟩ := hacc.loop
  obtain ⟨cb, out, stake, rest, hvtx, hvout, hempty, hstake, hrest⟩ := hacc.checked.stake hpos
  obtain ⟨cb', rest', hvtx', hcb, hnotcb⟩ := hacc.checked.coinbase
  obtain ⟨rfl, rfl⟩ := List.cons.inj (hvtx.symm.trans hvtx')
  obtain ⟨hle, ⟨k, hk⟩, -⟩ := connectTxs_accounted hloop
  have hcheck : s.nStakeReward ≤ getProofOfStakeReward (rewardAdjustment ctx block)
      (ctx.getCoinAge stake) s.nFees := by
    unfold checkReward at hreward
    rw [hvtx] at hreward
    simp only [CBlock.isProofOfWork, hpos, Bool.not_true, Bool.false_eq_true, if_false, check_seq_ok,
      require_eq_ok] at hreward
    simpa using hreward.2.2
  -- The reward is that of the coinstake: nothing after it changes it.
  have htaken : s.nStakeReward = Utxo.net C CTransaction.isCoinStake view.utxo block.vtx := by
    rw [hvtx] at hloop ⊢
    rw [List.foldlM_cons] at hloop
    obtain ⟨s₁, hfirst, hloop⟩ := check_bind_ok.mp hloop
    rw [List.foldlM_cons] at hloop
    obtain ⟨s₂, hsecond, hloop⟩ := check_bind_ok.mp hloop
    have hutxo : s₁.view.utxo = view.utxo.applyTx C cb := (connectTx_accounted hfirst).utxo
    rw [(connectTxs_accounted hloop).2.2 hrest, ((connectTx_accounted hsecond).coinstake hstake).2, hutxo]
    simp [Utxo.net, CTransaction.isCoinStake_eq_false_of_isCoinBase hcb, hstake, Utxo.net_eq_zero C hrest]
  have hcbout : valueOf cb.vout = 0 := by
    simp only [CTxOut.isEmpty, Bool.and_eq_true, decide_eq_true_eq] at hempty
    simp [hvout, hempty.1]
  have htotal := Utxo.net_add_net_not C CTransaction.isCoinStake view.utxo block.vtx
  have hother : Utxo.net C (fun tx => !tx.isCoinStake) view.utxo block.vtx =
      Utxo.net C isOrdinary view.utxo block.vtx := by
    rw [hvtx, net_coinbase hcb hnotcb, hcbout, zero_add]
  have hlimit : createdLimit ctx block =
      wrap64 (rewardAdjustment ctx block (coinAgeSubsidy (ctx.getCoinAge stake))) := by
    unfold createdLimit getProofOfStakeReward
    rw [hpos, hvtx]
    show wrap64 (wrap64 _ + 0) = _
    rw [add_zero]
    exact wrap64_of_range (wrap64_range _).1 (wrap64_range _).2
  have hrange := wrap64_range (rewardAdjustment ctx block (coinAgeSubsidy (ctx.getCoinAge stake)))
  change Utxo.net C isOrdinary view.utxo block.vtx ≤ 0 at hle
  have hfees := wrap64_add_le (a := wrap64 (rewardAdjustment ctx block
      (coinAgeSubsidy (ctx.getCoinAge stake)))) (f := -Utxo.net C isOrdinary view.utxo block.vtx)
    (w := s.nFees) hrange.1 (by omega) ⟨k, by rw [hk]; simp [ConnectState.start]⟩
  unfold getProofOfStakeReward at hcheck
  rw [hlimit]
  omega

/-- The genesis block of `chainparams.cpp`, the only block with its hash: one coinbase of 10000 coins,
at height 0. -/
def GenesisKnown (P : CChainParams) (C : Crypto) (ctx : ConnectContext) (block : CBlock) : Prop :=
  block.getHash C = P.hashGenesisBlock → ctx.nHeight = 0 ∧
    ∃ cb, block.vtx = [cb] ∧ cb.isCoinBase = true ∧ valueOf cb.vout = 10000 * COIN

/-- A connected block creates no more than its reward exactly when it is proof-of-stake, or its
coinstake-shaped transactions create no more than the other transactions leave of the block value.
They leave something or nothing, never less, so a block without coinstakes out of place keeps the
limit. -/
theorem connectBlock_created_le_iff (hgenesis : GenesisKnown P C ctx block)
    (h : connectBlock P C ctx block view fJustCheck = .ok r) :
    (Utxo.net C (fun _ => true) view.utxo block.vtx ≤ createdLimit ctx block ↔ block.isProofOfStake = true ∨
        Utxo.net C CTransaction.isCoinStake view.utxo block.vtx ≤ unclaimed C ctx block view) ∧
    (block.isProofOfStake = false → 0 ≤ unclaimed C ctx block view) ∧
    (block.isProofOfStake = false → (∀ tx ∈ block.vtx, tx.isCoinStake = false) →
      Utxo.net C CTransaction.isCoinStake view.utxo block.vtx = 0) := by
  have htotal := Utxo.net_add_net_not C CTransaction.isCoinStake view.utxo block.vtx
  have hwork : block.isProofOfStake = false → createdLimit ctx block = getBlockValue ctx.nHeight 0 := by
    intro hpos
    unfold createdLimit
    rw [hpos]
  refine ⟨?_, fun hpos => ?_, fun _ hnone => Utxo.net_eq_zero C hnone⟩
  · cases hpos : block.isProofOfStake with
    | false =>
      rw [hwork hpos]
      unfold unclaimed
      simp only [Bool.false_eq_true, false_or]
      omega
    | true =>
      have hne : block.getHash C ≠ P.hashGenesisBlock := by
        intro heq
        obtain ⟨-, cb, hvtx, -, -⟩ := hgenesis heq
        simp [CBlock.isProofOfStake, hvtx] at hpos
      simpa using stake_created_le hne h hpos
  · by_cases heq : block.getHash C = P.hashGenesisBlock
    · obtain ⟨hheight, cb, hvtx, hcb, hvalue⟩ := hgenesis heq
      unfold unclaimed
      rw [hvtx, net_coinbase hcb (by simp), hheight, hvalue]
      simp only [Utxo.net, isOrdinary, hcb, Bool.not_true, Bool.false_and, Bool.false_eq_true, if_false]
      decide
    · exact unclaimed_nonneg heq h hpos

end

open Example

theorem connectBlock_created_le_iff_example : ∃ r, connectBlock params crypto context workBlock
      (view coins) false = .ok r ∧
    Utxo.net crypto (fun _ => true) (view coins).utxo workBlock.vtx ≤ getBlockValue 400 0 := by
  obtain ⟨r, hr, -⟩ := exists_ok_of_toOption (by decide : ((connectBlock params
    crypto context workBlock (view coins)
      false).toOption.map fun _ => ()) = some ())
  have hknown : GenesisKnown params crypto context workBlock :=
    fun heq => absurd heq (by decide)
  obtain ⟨hiff, hleft, hnone⟩ := connectBlock_created_le_iff hknown hr
  refine ⟨r, hr, hiff.mpr (.inr ?_)⟩
  rw [hnone (by decide) (by decide)]
  exact hleft (by decide)

/-- A proof-of-work block whose third transaction has the shape of a coinstake and pays out a
thousand million coins for an input of 50. -/
def Example.inflatingBlock : CBlock :=
  block 2 [coinbaseTx [keyOut 20], spendTx 500 0 [keyOut 50], spendTx (crypto.txHash (spendTx 500 0 [keyOut 50])) 0
      [emptyOut, keyOut (1000000000 * COIN)]] []

theorem connectBlock_inflatingBlock :
    inflatingBlock.isProofOfStake = false ∧
    inflatingBlock.getHash crypto ≠ params.hashGenesisBlock ∧
    (∃ r, connectBlock params crypto context inflatingBlock
      (view coins) false = .ok r) ∧
    ¬ Utxo.net crypto (fun _ => true) (view coins).utxo
      inflatingBlock.vtx ≤ createdLimit context inflatingBlock := by
  obtain ⟨r, hr, -⟩ := exists_ok_of_toOption (by decide : ((connectBlock params
    crypto context inflatingBlock (view coins)
      false).toOption.map fun _ => ()) = some ())
  exact ⟨by decide, by decide, ⟨r, hr⟩, by decide⟩

end Reddcoin
