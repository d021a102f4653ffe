import Reddcoin.Connect.Value
import Reddcoin.Connect.ValueSums
import Reddcoin.Wallet.CreditCache

/-!
# Balances and the coins that make them up

A query changes nothing of the wallet but cached amounts, and what it caches is right.  Where the cached credits are
right, `GetBalance` adds up the coins that `AvailableCoins` offers.
-/

namespace Reddcoin

open List Option

namespace CWallet

section

variable {C : Crypto} {T : Set CTransaction} {𝓑 : Set CBlock} {keys : WalletKeys} {node : ChainNode} {hash : Uint256}
    {wtx : CWalletTx} {hashes : List Uint256} {w₀ : CWallet} {wtx wtx' : CWalletTx}
  {w w' w'' : CWallet} {nAdjustedTime : Int}

/-! ## Wallets with the same transactions -/

/-- The same wallet, perhaps with other cached amounts. -/
structure Alike (w w' : CWallet) : Prop where
  entries : ∀ hash, (w'.mapWallet.lookup hash).map CWalletTx.markDirty =
    (w.mapWallet.lookup hash).map CWalletTx.markDirty
  spends : w'.mapTxSpends = w.mapTxSpends
  locked : w'.setLockedCoins = w.setLockedCoins

theorem Alike.refl (w : CWallet) : w.Alike w :=
  ⟨fun _ => rfl, rfl, rfl⟩

section

variable (h : w.Alike w')

include h

theorem Alike.trans (h' : w'.Alike w'') : w.Alike w'' :=
  ⟨fun hash => (h'.entries hash).trans (h.entries hash), h'.spends.trans h.spends, h'.locked.trans h.locked⟩

theorem Alike.symm : w'.Alike w :=
  ⟨fun hash => (h.entries hash).symm, h.spends.symm, h.locked.symm⟩

theorem Alike.lookup (hin : w.mapWallet.lookup hash = some wtx) :
    ∃ wtx', w'.mapWallet.lookup hash = some wtx' ∧ wtx'.Same wtx := by
  have hentry := h.entries hash
  rw [hin, map_some] at hentry
  exact map_eq_some_iff.mp hentry

theorem Alike.isSpent_of {o : COutPoint} (hspent : w.isSpent C node o) : w'.isSpent C node o = true := by
  obtain ⟨hash, wtx, hmem, hin, hdepth⟩ := isSpent_iff.mp hspent
  obtain ⟨wtx', hin', hsame⟩ := h.lookup hin
  refine isSpent_iff.mpr ⟨hash, wtx', ?_, hin', ?_⟩
  · rw [h.spends]
    exact hmem
  · rw [hsame.depth_eq]
    exact hdepth

theorem Alike.isSpent_eq (o : COutPoint) : w'.isSpent C node o = w.isSpent C node o := by
  rw [Bool.eq_iff_iff]
  exact ⟨h.symm.isSpent_of, h.isSpent_of⟩

theorem Alike.sumCredit_eq (hash : Uint256) (vout : List CTxOut) :
    w'.sumCredit C keys node hash 0 vout 0 = w.sumCredit C keys node hash 0 vout 0 :=
  sumCredit_congr (fun _ _ _ => .inr (h.isSpent_eq _)) moneyRange_zero

/-- What is read of another transaction of the wallet is one of its outputs. -/
theorem Alike.prevout_eq (o : COutPoint) : ((w'.mapWallet.lookup o.hash).bind fun prev => prev.tx.vout[o.n]?) =
      (w.mapWallet.lookup o.hash).bind fun prev => prev.tx.vout[o.n]? := by
  cases hin : w.mapWallet.lookup o.hash with
  | some wtx =>
    obtain ⟨wtx', hin', hsame⟩ := h.lookup hin
    rw [hin', bind_some, bind_some, hsame.tx_eq]
  | none =>
    have hentry := h.entries o.hash
    rw [hin, map_none, map_eq_none_iff] at hentry
    rw [hentry]

theorem Alike.getDebit_eq (filter : IsMineType → Bool) (tx : CTransaction) :
    w'.getDebit keys filter tx = w.getDebit keys filter tx := by
  unfold getDebit getInputDebit
  simp only [h.prevout_eq]

theorem Alike.isTrusted_eq (wtx : CWalletTx) :
    w'.isTrusted C keys node nAdjustedTime wtx = w.isTrusted C keys node nAdjustedTime wtx := by
  unfold isTrusted getDebitCached inputsAreMine
  simp only [h.getDebit_eq, h.prevout_eq]

theorem Alike.availableOutputs_eq (hsame : wtx'.Same wtx) (hash : Uint256) (i : Nat) (vout : List CTxOut) :
    w'.availableOutputs C keys node hash wtx' i vout = w.availableOutputs C keys node hash wtx i vout := by
  induction vout generalizing i with
  | nil => rfl
  | cons out vout ih =>
    unfold availableOutputs
    rw [ih, h.isSpent_eq, h.locked, hsame.tx_eq, hsame.depth_eq]

end

theorem WalletOk.alike (hok : WalletOk C T 𝓑 w) (h : w.Alike w') : WalletOk C T 𝓑 w' where
  entries := by
    intro hash wtx' hin'
    obtain ⟨wtx, hin, hsame⟩ := h.symm.lookup hin'
    rcases hok.entries hash wtx hin with ⟨hrec, hplaced⟩ | hempty
    · refine .inl ⟨hrec.of_eq hsame.symm.tx_eq hsame.symm.hash_eq, ?_⟩
      unfold Placed
      rw [hsame.symm.hashBlock_eq, hsame.symm.hash_eq]
      exact hplaced
    · refine .inr ?_
      rw [hsame.symm.tx_eq]
      exact hempty
  spends := by
    intro o hash hmem
    rw [h.spends] at hmem
    obtain ⟨wtx, hin, hrec, hplaced, hprev⟩ := hok.spends o hash hmem
    obtain ⟨wtx', hin', hsame⟩ := h.lookup hin
    refine ⟨wtx', hin', hrec.of_eq hsame.tx_eq hsame.hash_eq, ?_, ?_⟩
    · unfold Placed
      rw [hsame.hashBlock_eq, hsame.hash_eq]
      exact hplaced
    · rw [hsame.tx_eq]
      exact hprev

/-! ## What a query writes -/

/-- A query writes into its transaction what it has computed. -/
structure Updates (C : Crypto) (keys : WalletKeys) (node : ChainNode) (w : CWallet) (wtx wtx' : CWalletTx) : Prop where
  same : wtx'.Same wtx
  cached : ∀ nCredit, wtx'.nAvailableCreditCached = some nCredit → wtx.nAvailableCreditCached = some nCredit ∨
      w.sumCredit C keys node wtx.hash 0 wtx.tx.vout 0 = some nCredit

theorem Updates.refl (wtx : CWalletTx) : w.Updates C keys node wtx wtx :=
  ⟨.refl wtx, fun _ h => .inl h⟩

theorem Updates.trans {wtx wtx' wtx'' : CWalletTx} (h : w.Updates C keys node wtx wtx')
    (h' : w.Updates C keys node wtx' wtx'') : w.Updates C keys node wtx wtx'' := by
  refine ⟨h'.same.trans h.same, fun nCredit hcached => ?_⟩
  rcases h'.cached nCredit hcached with hbefore | hsum
  · exact h.cached nCredit hbefore
  · rw [h.same.hash_eq, h.same.tx_eq] at hsum
    exact .inr hsum

theorem updates_getAvailableCredit {fUseCache : Bool} {r : Int × CWalletTx}
    (h : w.getAvailableCredit C keys node wtx fUseCache = some r) : w.Updates C keys node wtx r.2 := by
  unfold getAvailableCredit at h
  by_cases himmature : wtx.isImmature C node = true
  · rw [if_pos himmature] at h
    cases h
    exact .refl wtx
  · rw [if_neg himmature] at h
    split at h
    · cases h
      exact .refl wtx
    · obtain ⟨nCredit, hsum, rfl⟩ := map_eq_some_iff.mp h
      refine ⟨rfl, fun nCredit' hcached => .inr ?_⟩
      cases hcached
      exact hsum

theorem updates_getDebitCached (wtx : CWalletTx) : w.Updates C keys node wtx (w.getDebitCached keys wtx).2 := by
  unfold getDebitCached
  split_ifs
  · exact .refl wtx
  · exact ⟨rfl, fun _ h => .inl h⟩

theorem updates_isTrusted (wtx : CWalletTx) :
    w.Updates C keys node wtx (w.isTrusted C keys node nAdjustedTime wtx).2 := by
  unfold isTrusted
  split_ifs
  · exact .refl wtx
  · exact .refl wtx
  · exact .refl wtx
  · exact .refl wtx
  · exact updates_getDebitCached wtx

theorem updates_counts (kind : BalanceKind) (wtx : CWalletTx) :
    w.Updates C keys node wtx (w.counts C keys node kind nAdjustedTime wtx).2 := by
  cases kind with
  | trusted => exact updates_isTrusted wtx
  | unconfirmed =>
    unfold counts
    dsimp only
    split_ifs
    · exact .refl wtx
    · exact updates_isTrusted wtx

theorem alike_setTx (hin : w.mapWallet.lookup hash = some wtx)
    (hsame : wtx'.Same wtx) : w.Alike (w.setTx hash wtx') := by
  refine ⟨fun k => ?_, rfl, rfl⟩
  show ((w.mapWallet.insert hash wtx').lookup k).map CWalletTx.markDirty = _
  rw [lookup_insert]
  split_ifs with heq
  · rw [heq, hin]
    exact congrArg some hsame
  · rfl

theorem Updates.setTx (h : w.Updates C keys node wtx wtx')
    (hin : w.mapWallet.lookup hash = some wtx) (hfresh : w.Fresh C keys node) :
    w.Alike (w.setTx hash wtx') ∧ (w.setTx hash wtx').Fresh C keys node := by
  have halike := alike_setTx hin h.same
  refine ⟨halike, fun k e nCredit hk hcached => ?_⟩
  rw [halike.sumCredit_eq]
  change (w.mapWallet.insert hash wtx').lookup k = some e at hk
  rw [lookup_insert] at hk
  split_ifs at hk with heq
  · cases hk
    rw [h.same.hash_eq, h.same.tx_eq]
    rcases h.cached nCredit hcached with hbefore | hsum
    · exact hfresh hash wtx nCredit hin hbefore
    · exact hsum
  · exact hfresh k e nCredit hk hcached

/-- The loops of the balances. -/
theorem balanceLoop_fresh {kind : BalanceKind} {nTotal : Int} {r : Int × CWallet}
    (hfresh : w.Fresh C keys node) (h : w.balanceLoop C keys node kind nAdjustedTime hashes nTotal = some r) :
    w.Alike r.2 ∧ r.2.Fresh C keys node := by
  induction hashes generalizing w nTotal with
  | nil =>
    cases h
    exact ⟨.refl w, hfresh⟩
  | cons hash hashes ih =>
    unfold balanceLoop at h
    cases hin : w.mapWallet.lookup hash with
    | none =>
      rw [hin] at h
      exact ih hfresh h
    | some wtx =>
      rw [hin] at h
      dsimp only at h
      have hcounts : w.Updates C keys node wtx (w.counts C keys node kind nAdjustedTime wtx).2 :=
        updates_counts kind wtx
      split_ifs at h with hcounted
      · obtain ⟨credit, hcredit, h⟩ := bind_eq_some_iff.mp h
        obtain ⟨halike, hfresh'⟩ := (hcounts.trans (updates_getAvailableCredit hcredit)).setTx hin hfresh
        obtain ⟨hrest, hlast⟩ := ih hfresh' h
        exact ⟨halike.trans hrest, hlast⟩
      · obtain ⟨halike, hfresh'⟩ := hcounts.setTx hin hfresh
        obtain ⟨hrest, hlast⟩ := ih hfresh' h
        exact ⟨halike.trans hrest, hlast⟩

theorem availableCoinsLoop_fresh {vCoins : List AvailableCoin} (hfresh : w.Fresh C keys node) :
    w.Alike (w.availableCoinsLoop C keys node nAdjustedTime hashes vCoins).2 ∧
      (w.availableCoinsLoop C keys node nAdjustedTime hashes vCoins).2.Fresh C keys node := by
  induction hashes generalizing w vCoins with
  | nil => exact ⟨.refl w, hfresh⟩
  | cons hash hashes ih =>
    unfold availableCoinsLoop
    cases hin : w.mapWallet.lookup hash with
    | none => exact ih hfresh
    | some wtx =>
      dsimp only
      have htrusted : w.Updates C keys node wtx (w.isTrusted C keys node nAdjustedTime wtx).2 :=
        updates_isTrusted wtx
      obtain ⟨halike, hfresh'⟩ := htrusted.setTx hin hfresh
      split_ifs
      · exact ih hfresh
      · exact ⟨halike.trans (ih hfresh').1, (ih hfresh').2⟩
      · exact ⟨halike.trans (ih hfresh').1, (ih hfresh').2⟩

/-! ## The total of the balance -/

/-- The value of the coins that can be spent. -/
def spendableTotal (vCoins : List AvailableCoin) : Int :=
  ((vCoins.filter AvailableCoin.fSpendable).map AvailableCoin.nValue).sum

theorem spendableTotal_cons (coin : AvailableCoin) (vCoins : List AvailableCoin) :
    spendableTotal (coin :: vCoins) = (if coin.fSpendable then coin.nValue else 0) + spendableTotal vCoins := by
  unfold spendableTotal
  rw [filter_cons]
  split_ifs
  · rw [map_cons, sum_cons]
  · rw [Int.zero_add]

theorem spendableTotal_append (vCoins vCoins' : List AvailableCoin) :
    spendableTotal (vCoins ++ vCoins') = spendableTotal vCoins + spendableTotal vCoins' := by
  unfold spendableTotal
  rw [filter_append, map_append, sum_append]

/-- The values of the outputs are in the money range, and so is their sum. -/
structure InMoneyRange (vout : List CTxOut) : Prop where
  values : ∀ out ∈ vout, moneyRange out.nValue = true
  total : valueOf vout ≤ MAX_MONEY

theorem inMoneyRange_of_checkTransaction {tx : CTransaction} (h : checkTransaction tx = .ok ()) :
    InMoneyRange tx.vout := by
  have hvalues := (checkTransaction_ok h).values
  refine ⟨hvalues, ?_⟩
  simp only [checkTransaction, check_seq_ok, require_eq_ok] at h
  obtain ⟨-, -, -, h⟩ := h
  obtain ⟨total, houts, -⟩ := check_bind_ok.mp h
  have hpasses : (tx.vout.foldlM (fun nValueOut txout => (checkTxOut tx nValueOut txout).toOption) 0).isSome = true := by
    rw [← toOption_foldlM, houts]
    rfl
  have hsums : SumsInRange (countsOutput tx) CTxOut.nValue _ := checkTxOut_sumsInRange tx
  have hsum := ((hsums.passes_iff moneyRange_zero hvalues).mp hpasses).2
  rw [Int.zero_add] at hsum
  exact hsum

theorem inMoneyRange_nil : InMoneyRange [] :=
  ⟨fun _ hm => by simp at hm, by decide⟩

theorem valueOf_nonneg {vout : List CTxOut} (h : ∀ out ∈ vout, moneyRange out.nValue) : 0 ≤ valueOf vout := by
  refine sum_nonneg fun v hv => ?_
  obtain ⟨out, hout, rfl⟩ := mem_map.mp hv
  exact (moneyRange_iff.mp (h out hout)).1

/-- With no coins locked, the credit of a transaction is the value of the coins that it offers. -/
theorem sumCredit_eq (hlocked : w.setLockedCoins = []) {i : Nat}
    {vout : List CTxOut} {nCredit : Int} (hvalues : ∀ out ∈ vout, moneyRange out.nValue)
    (hcredit : 0 ≤ nCredit) (htotal : nCredit + valueOf vout ≤ MAX_MONEY) :
    w.sumCredit C keys node hash i vout nCredit =
      some (nCredit + spendableTotal (w.availableOutputs C keys node hash wtx i vout)) := by
  induction vout generalizing i nCredit with
  | nil =>
    show some nCredit = some (nCredit + 0)
    rw [Int.add_zero]
  | cons out vout ih =>
    have hout := moneyRange_iff.mp (hvalues out mem_cons_self)
    have hrest : ∀ o ∈ vout, moneyRange o.nValue = true := fun o ho => hvalues o (mem_cons_of_mem _ ho)
    have hnonneg := valueOf_nonneg hrest
    have hmax := MAX_MONEY_lt
    rw [valueOf_cons] at htotal
    unfold sumCredit availableOutputs
    cases hspent : w.isSpent C node { hash := hash, n := i } with
    | true =>
      simp only [if_true, Bool.not_true, Bool.false_and, Bool.false_eq_true, if_false]
      exact ih hrest hcredit (by omega)
    | false =>
      have hgetCredit : getCredit keys out = some (if keys.isMine out = .spendable then out.nValue else 0) := by
        unfold getCredit
        rw [if_pos (hvalues out mem_cons_self)]
      rw [if_neg Bool.false_ne_true, hgetCredit, bind_eq_bind, bind_some]
      by_cases hmine : keys.isMine out = .spendable
      · have hexact : wrap64 (nCredit + out.nValue) = nCredit + out.nValue :=
          wrap64_of_range (by omega) (by omega)
        rw [if_pos hmine, hexact, if_pos (moneyRange_iff.mpr ⟨by omega, by omega⟩), ih hrest (by omega) (by omega)]
        by_cases hzero : out.nValue = 0
        · simp [hzero]
        · have hpos : 0 < out.nValue := by omega
          simp only [hmine, hlocked, hpos, Bool.not_false, Bool.true_and, reduceCtorEq, ne_eq, not_false_eq_true,
            not_mem_nil, decide_true, decide_false, if_true, spendableTotal_cons, Int.add_assoc]
      · have hexact : wrap64 (nCredit + 0) = nCredit := by
          rw [Int.add_zero]
          exact wrap64_of_range (by omega) (by omega)
        rw [if_neg hmine, hexact, if_pos (moneyRange_iff.mpr ⟨hcredit, by omega⟩), ih hrest hcredit (by omega)]
        -- an output that is only watched is offered, but not to be spent
        split_ifs
        · simp only [spendableTotal_cons, hmine, decide_false, Bool.false_eq_true, if_false, Int.zero_add]
        · rfl

variable (C keys node nAdjustedTime w) in
/-- The coins of one transaction. -/
def offered (hash : Uint256) : List AvailableCoin :=
  match w.mapWallet.lookup hash with
  | none => []
  | some wtx =>
    if (w.isTrusted C keys node nAdjustedTime wtx).1 = true ∧ wtx.isImmature C node = false then
      w.availableOutputs C keys node hash wtx 0 wtx.tx.vout
    else []

theorem isTrusted_spec (h : (w.isTrusted C keys node nAdjustedTime wtx).1) :
    isFinalAtTip node nAdjustedTime wtx.tx ∧ 0 ≤ wtx.getDepthInMainChain C node := by
  unfold isTrusted at h
  split_ifs at h with hfinal hdepth hneg hchange
  · exact ⟨by simpa using hfinal, by omega⟩
  · exact ⟨by simpa using hfinal, by omega⟩

theorem offered_some (hin : w.mapWallet.lookup hash = some wtx) : offered C keys node w nAdjustedTime hash =
      if (w.isTrusted C keys node nAdjustedTime wtx).1 ∧ wtx.isImmature C node = false then
        w.availableOutputs C keys node hash wtx 0 wtx.tx.vout
      else [] := by
  unfold offered
  rw [hin]

theorem offered_none (hout : w.mapWallet.lookup hash = none) : offered C keys node w nAdjustedTime hash = [] := by
  unfold offered
  rw [hout]

/-- What comes later in a loop is not written before. -/
theorem lookup_setTx_of_notMem (hnotin : hash ∉ hashes)
    (hsame : ∀ k ∈ hashes, w.mapWallet.lookup k = w₀.mapWallet.lookup k) (wtx : CWalletTx) :
    ∀ k ∈ hashes, (w.setTx hash wtx).mapWallet.lookup k = w₀.mapWallet.lookup k := by
  intro k hk
  have hne : k ≠ hash := by
    rintro rfl
    exact hnotin hk
  show (w.mapWallet.insert hash wtx).lookup k = _
  rw [lookup_insert, if_neg hne]
  exact hsame k hk

theorem availableCoinsLoop_eq (hnodup : hashes.Nodup) (halike : w₀.Alike w)
    (hsame : ∀ hash ∈ hashes, w.mapWallet.lookup hash = w₀.mapWallet.lookup hash) (vCoins : List AvailableCoin) :
    (w.availableCoinsLoop C keys node nAdjustedTime hashes vCoins).1 =
      vCoins ++ hashes.flatMap (offered C keys node w₀ nAdjustedTime) := by
  induction hashes generalizing w vCoins with
  | nil =>
    rw [flatMap_nil, append_nil]
    rfl
  | cons hash hashes ih =>
    obtain ⟨hnotin, hnodup'⟩ := nodup_cons.mp hnodup
    have hothers : ∀ k ∈ hashes, w.mapWallet.lookup k = w₀.mapWallet.lookup k :=
      fun k hk => hsame k (mem_cons_of_mem _ hk)
    have hhead := hsame hash mem_cons_self
    rw [flatMap_cons]
    unfold availableCoinsLoop
    cases hin : w.mapWallet.lookup hash with
    | none =>
      rw [hin] at hhead
      rw [offered_none hhead.symm]
      exact ih hnodup' halike hothers vCoins
    | some wtx =>
      rw [hin] at hhead
      rw [offered_some hhead.symm, ← halike.isTrusted_eq]
      have hupdates : w.Updates C keys node wtx (w.isTrusted C keys node nAdjustedTime wtx).2 :=
        updates_isTrusted wtx
      have hset := halike.trans (alike_setTx hin hupdates.same)
      have hrest := lookup_setTx_of_notMem hnotin hothers (w.isTrusted C keys node nAdjustedTime wtx).2
      dsimp only
      by_cases hfinal : isFinalAtTip node nAdjustedTime wtx.tx = true
      · rw [hfinal, Bool.not_true, if_neg Bool.false_ne_true, hupdates.same.isImmature_eq, hupdates.same.depth_eq]
        by_cases hoffered : (w.isTrusted C keys node nAdjustedTime wtx).1 = true ∧ wtx.isImmature C node = false
        · have hdepth := (isTrusted_spec hoffered.1).2
          have hskip : ¬ (!(w.isTrusted C keys node nAdjustedTime wtx).1 || wtx.isImmature C node ||
              decide (wtx.getDepthInMainChain C node < 0)) = true := by
            rw [hoffered.1, hoffered.2]
            simpa using hdepth
          rw [if_pos hoffered, if_neg hskip, ih hnodup' hset hrest, append_assoc,
            hset.availableOutputs_eq hupdates.same, hupdates.same.tx_eq]
        · have hskip : (!(w.isTrusted C keys node nAdjustedTime wtx).1 || wtx.isImmature C node ||
              decide (wtx.getDepthInMainChain C node < 0)) = true := by
            cases htrusted : (w.isTrusted C keys node nAdjustedTime wtx).1 with
            | false => simp
            | true =>
              cases himmature : wtx.isImmature C node with
              | false => exact absurd ⟨htrusted, himmature⟩ hoffered
              | true => simp
          rw [if_neg hoffered, if_pos hskip]
          exact ih hnodup' hset hrest vCoins
      · have huntrusted : ¬ ((w.isTrusted C keys node nAdjustedTime wtx).1 = true ∧ wtx.isImmature C node = false) :=
          fun h => hfinal (isTrusted_spec h.1).1
        rw [Bool.not_eq_true] at hfinal
        rw [hfinal, Bool.not_false, if_pos rfl, if_neg huntrusted]
        exact ih hnodup' halike hothers vCoins

/-- What a trusted transaction adds to the balance. -/
theorem getAvailableCredit_offered (hfresh : w.Fresh C keys node) (hlocked : w.setLockedCoins = [])
    (hin : w.mapWallet.lookup hash = some wtx) (hhash : wtx.hash = hash ∨ wtx.tx.vout = [])
    (hrange : InMoneyRange wtx.tx.vout) (htrusted : (w.isTrusted C keys node nAdjustedTime wtx).1) :
    ∃ wtx', w.getAvailableCredit C keys node (w.isTrusted C keys node nAdjustedTime wtx).2 true =
      some (spendableTotal (offered C keys node w nAdjustedTime hash), wtx') := by
  have hupdates : w.Updates C keys node wtx (w.isTrusted C keys node nAdjustedTime wtx).2 := updates_isTrusted wtx
  rw [offered_some hin]
  unfold getAvailableCredit
  rw [hupdates.same.isImmature_eq, hupdates.same.hash_eq, hupdates.same.tx_eq, if_pos rfl]
  cases himmature : wtx.isImmature C node with
  | true =>
    rw [if_pos rfl, if_neg fun h => Bool.false_ne_true h.2.symm]
    exact ⟨_, rfl⟩
  | false =>
    have hsum : w.sumCredit C keys node wtx.hash 0 wtx.tx.vout 0 =
        some (spendableTotal (w.availableOutputs C keys node hash wtx 0 wtx.tx.vout)) := by
      rcases hhash with hhash | hempty
      · rw [hhash, sumCredit_eq hlocked hrange.values le_rfl (by rw [Int.zero_add]; exact hrange.total), Int.zero_add]
      · rw [hempty]
        rfl
    rw [if_neg Bool.false_ne_true, if_pos ⟨htrusted, rfl⟩]
    cases hcached : (w.isTrusted C keys node nAdjustedTime wtx).2.nAvailableCreditCached with
    | none =>
      rw [hsum]
      exact ⟨_, rfl⟩
    | some nCredit =>
      have hright : w.sumCredit C keys node wtx.hash 0 wtx.tx.vout 0 = some nCredit := by
        rcases hupdates.cached nCredit hcached with hbefore | hright
        · exact hfresh hash wtx nCredit hin hbefore
        · exact hright
      rw [hsum] at hright
      cases hright
      exact ⟨_, rfl⟩

theorem offered_alike (halike : w₀.Alike w) (hsame : w.mapWallet.lookup hash = w₀.mapWallet.lookup hash) :
    offered C keys node w nAdjustedTime hash = offered C keys node w₀ nAdjustedTime hash := by
  unfold offered
  rw [hsame]
  cases w₀.mapWallet.lookup hash with
  | none => rfl
  | some wtx =>
    dsimp only
    rw [halike.isTrusted_eq, halike.availableOutputs_eq (.refl wtx)]

theorem wrap64_wrap64_add (x y : Int) : wrap64 (wrap64 x + y) = wrap64 (x + y) := by
  obtain ⟨k, hk⟩ := wrap64_eq_add x
  refine wrap64_congr ⟨k, ?_⟩
  omega

theorem balanceLoop_eq (hnodup : hashes.Nodup) (halike : w₀.Alike w)
    (hfresh : w.Fresh C keys node) (hlocked : w.setLockedCoins = [])
    (hsame : ∀ hash ∈ hashes, w.mapWallet.lookup hash = w₀.mapWallet.lookup hash)
    (hentries : ∀ hash wtx, w₀.mapWallet.lookup hash = some wtx → (wtx.hash = hash ∨ wtx.tx.vout = []) ∧
      (0 ≤ wtx.getDepthInMainChain C node → InMoneyRange wtx.tx.vout)) {nTotal : Int} (htotal : wrap64 nTotal = nTotal) :
    ∃ w', w.balanceLoop C keys node .trusted nAdjustedTime hashes nTotal =
      some (wrap64 (nTotal + spendableTotal (hashes.flatMap (offered C keys node w₀ nAdjustedTime))), w') := by
  induction hashes generalizing w nTotal with
  | nil =>
    refine ⟨w, ?_⟩
    rw [flatMap_nil, show spendableTotal [] = 0 from rfl, Int.add_zero, htotal]
    rfl
  | cons hash hashes ih =>
    obtain ⟨hnotin, hnodup'⟩ := nodup_cons.mp hnodup
    have hothers : ∀ k ∈ hashes, w.mapWallet.lookup k = w₀.mapWallet.lookup k :=
      fun k hk => hsame k (mem_cons_of_mem _ hk)
    have hhead := hsame hash mem_cons_self
    rw [flatMap_cons, spendableTotal_append]
    unfold balanceLoop
    cases hin : w.mapWallet.lookup hash with
    | none =>
      rw [hin] at hhead
      rw [offered_none hhead.symm, show spendableTotal [] = 0 from rfl, Int.zero_add]
      exact ih hnodup' halike hfresh hlocked hothers htotal
    | some wtx =>
      rw [← offered_alike halike hhead]
      rw [hin] at hhead
      obtain ⟨hhash, hrange⟩ := hentries hash wtx hhead.symm
      have hupdates : w.Updates C keys node wtx (w.isTrusted C keys node nAdjustedTime wtx).2 :=
        updates_isTrusted wtx
      dsimp only [counts]
      by_cases htrusted : (w.isTrusted C keys node nAdjustedTime wtx).1 = true
      · obtain ⟨wtx', hcredit⟩ := getAvailableCredit_offered hfresh hlocked hin hhash
          (hrange (isTrusted_spec htrusted).2) htrusted
        have hupdates' := hupdates.trans (updates_getAvailableCredit hcredit)
        obtain ⟨hset, hfresh'⟩ := hupdates'.setTx hin hfresh
        obtain ⟨w', hrest⟩ := ih hnodup' (halike.trans hset) hfresh' hlocked
          (lookup_setTx_of_notMem hnotin hothers wtx')
          (wrap64_of_range (wrap64_range _).1 (wrap64_range _).2)
        refine ⟨w', ?_⟩
        rw [if_pos htrusted, hcredit, bind_eq_bind, bind_some]
        dsimp only
        rw [hrest, wrap64_wrap64_add, Int.add_assoc]
      · have huntrusted : ¬ ((w.isTrusted C keys node nAdjustedTime wtx).1 = true ∧ wtx.isImmature C node = false) :=
          fun h => htrusted h.1
        obtain ⟨hset, hfresh'⟩ := hupdates.setTx hin hfresh
        obtain ⟨w', hrest⟩ := ih hnodup' (halike.trans hset) hfresh' hlocked
          (lookup_setTx_of_notMem hnotin hothers (w.isTrusted C keys node nAdjustedTime wtx).2) htotal
        refine ⟨w', ?_⟩
        rw [if_neg htrusted, offered_some hin, if_neg huntrusted, show spendableTotal [] = 0 from rfl, Int.zero_add]
        exact hrest

theorem nodup_sortedKeys (w : CWallet) : w.sortedKeys.Nodup :=
  (perm_insertionSort (· ≤ ·) w.mapWallet.keys).nodup_iff.mpr w.mapWallet.keys_nodup

/-- Where the cached credits are right and no coins are locked, `GetBalance` is the total of the spendable coins that
`AvailableCoins` offers. -/
theorem Fresh.getBalance_eq (hfresh : w.Fresh C keys node) (hlocked : w.setLockedCoins = [])
    (hentries : ∀ hash wtx, w.mapWallet.lookup hash = some wtx → (wtx.hash = hash ∨ wtx.tx.vout = []) ∧
      (0 ≤ wtx.getDepthInMainChain C node → InMoneyRange wtx.tx.vout)) :
    (w.getBalance C keys node nAdjustedTime).map Prod.fst =
      some (wrap64 (spendableTotal (w.availableCoins C keys node nAdjustedTime).1)) := by
  unfold getBalance availableCoins
  rw [availableCoinsLoop_eq (nodup_sortedKeys w) (.refl w) (fun _ _ => rfl) [], nil_append]
  have hzero : wrap64 0 = 0 := rfl
  obtain ⟨w', hbalance⟩ := balanceLoop_eq (nodup_sortedKeys w) (.refl w) hfresh hlocked (fun _ _ => rfl) hentries hzero
  rw [hbalance, Int.zero_add]
  rfl

end

end CWallet

end Reddcoin
