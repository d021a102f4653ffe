import Reddcoin.Connect.Overwrite
import Reddcoin.Connect.Value
import Reddcoin.Lib.Ledger

/-!
# The money supply

`ConnectBlock` adds the outputs of a block less its inputs to the money supply of the previous entry, in
64 bits.  The available outputs of a view are valued by a ledger; connecting a block changes the sum of the
ledger by the same amount, less what was dropped as unspendable, and disconnecting it gives the ledger of the
previous entry back.
-/

namespace Reddcoin

open List

open Lib (Ledger.closeAll Ledger.Recorded Ledger.ofEntries)

namespace Utxo

variable {tx : CTransaction} {txs : List CTransaction} {block : CBlock} {B : COutPoint →₀ Int} {r : ConnectResult}
    {s s' : CoinsView × Bool}

/-- The value at an outpoint, 0 where nothing is available. -/
def worth (U : Utxo) (o : COutPoint) : Int :=
  ((U o.hash o.n).map CTxOut.nValue).getD 0

def Valued (U : Utxo) (B : COutPoint →₀ Int) : Prop :=
  ∀ o, U.worth o = B o

end Utxo

/-! ## Ledgers of transactions -/

/-- The value of the outputs of a transaction that are dropped when they are created. -/
def droppedValue (tx : CTransaction) : Int :=
  valueOf (tx.vout.filter fun out => isUnspendable out.scriptPubKey)

section

variable (C : Crypto)

/-- The outputs that a transaction adds. -/
noncomputable def outputLedger (txid : Uint256) (tx : CTransaction) : COutPoint →₀ Int :=
  Ledger.ofEntries ((List.range tx.vout.length).map fun n =>
    ({ hash := txid, n := n }, ((CCoins.spendable? tx n).map CTxOut.nValue).getD 0))

noncomputable def ledgerTx (B : COutPoint →₀ Int) (tx : CTransaction) : COutPoint →₀ Int :=
  (if tx.isCoinBase then B else Ledger.closeAll B (tx.vin.map CTxIn.prevout)) + outputLedger (C.txHash tx) tx

noncomputable def ledgerTxs (B : COutPoint →₀ Int) (txs : List CTransaction) : COutPoint →₀ Int :=
  txs.foldl (ledgerTx C) B

/-- The transactions find nothing of value under their ids, applied in turn. -/
def NewIds : (COutPoint →₀ Int) → List CTransaction → Prop
  | _, [] => True
  | B, tx :: txs => (∀ n, B { hash := C.txHash tx, n := n } = 0) ∧ NewIds (ledgerTx C B tx) txs

end

theorem outputLedger_apply (txid : Uint256) (tx : CTransaction) (o : COutPoint) :
    outputLedger txid tx o = if o.hash = txid then ((CCoins.spendable? tx o.n).map CTxOut.nValue).getD 0 else 0 := by
  by_cases hhash : o.hash = txid
  · rw [if_pos hhash]
    by_cases hn : o.n < tx.vout.length
    · have hmem : (o, ((CCoins.spendable? tx o.n).map CTxOut.nValue).getD 0) ∈ (List.range tx.vout.length).map fun n =>
            (({ hash := txid, n := n } : COutPoint), ((CCoins.spendable? tx n).map CTxOut.nValue).getD 0) := by
        apply mem_map.mpr
        exact ⟨o.n, mem_range.mpr hn, by rw [← hhash]⟩
      refine Lib.Ledger.ofEntries_apply ?_ hmem
      rw [map_map]
      apply List.Nodup.map _ nodup_range
      intro a b hab
      exact (COutPoint.mk.inj hab).2
    · have hnone : CCoins.spendable? tx o.n = none := by
        unfold CCoins.spendable?
        rw [getElem?_eq_none (by omega)]
        rfl
      rw [hnone]
      apply Lib.Ledger.ofEntries_eq_zero
      intro entry hentry heq
      obtain ⟨n, hlt, rfl⟩ := mem_map.mp hentry
      rw [← heq] at hn
      exact hn (mem_range.mp hlt)
  · rw [if_neg hhash]
    apply Lib.Ledger.ofEntries_eq_zero
    intro entry hentry heq
    obtain ⟨n, -, rfl⟩ := mem_map.mp hentry
    exact hhash (by rw [← heq])

/-- An output is available or dropped. -/
theorem outputLedger_degree (txid : Uint256) (h : ∀ out ∈ tx.vout, moneyRange out.nValue) :
    (outputLedger txid tx).degree + droppedValue tx = valueOf tx.vout := by
  have hentries : (List.range tx.vout.length).map
      (fun n => ((CCoins.spendable? tx n).map CTxOut.nValue).getD 0) =
        tx.vout.map fun out => if isUnspendable out.scriptPubKey then 0 else out.nValue := by
    apply ext_getElem
    · simp
    · intro n hn hn'
      have hlt : n < tx.vout.length := by simpa using hn
      have hrange := moneyRange_iff.mp (h _ (getElem_mem hlt))
      have hnull : (tx.vout[n]).isNull = false := by
        simp only [CTxOut.isNull, decide_eq_false_iff_not]
        omega
      simp only [getElem_map, getElem_range, CCoins.spendable?, getElem?_eq_getElem hlt]
      cases hs : isUnspendable (tx.vout[n]).scriptPubKey <;> simp [Option.filter, hnull, hs]
  unfold outputLedger droppedValue
  rw [Lib.Ledger.degree_ofEntries, map_map]
  show ((List.range tx.vout.length).map
    (fun n => ((CCoins.spendable? tx n).map CTxOut.nValue).getD 0)).sum + _ = _
  rw [hentries]
  generalize tx.vout = outs
  induction outs with
  | nil => rfl
  | cons out outs ih =>
    cases hs : isUnspendable out.scriptPubKey with
    | true =>
      simp only [map_cons, sum_cons, filter_cons, hs, if_true, valueOf_cons]
      omega
    | false =>
      simp only [map_cons, sum_cons, filter_cons, hs, Bool.false_eq_true, if_false, valueOf_cons]
      omega

namespace Utxo

variable {C : Crypto} {U : Utxo} {B : COutPoint →₀ Int} {tx : CTransaction}

theorem worth_spend (U : Utxo) (p o : COutPoint) :
    (U.spend p).worth o = if o = p then 0 else U.worth o := by
  unfold worth spend
  by_cases ho : o = p
  · subst ho
    simp
  · have hne : ¬(o.hash = p.hash ∧ o.n = p.n) := fun h => ho (by
      cases o
      cases p
      simp_all)
    rw [if_neg hne, if_neg ho]

theorem Valued.spend (h : U.Valued B) (p : COutPoint) : (U.spend p).Valued (B.erase p) := by
  intro o
  rw [worth_spend, Finsupp.erase_apply, h o]

theorem Valued.spendAll (h : U.Valued B) (vin : List CTxIn) :
    (U.spendAll vin).Valued (Ledger.closeAll B (vin.map CTxIn.prevout)) := by
  induction vin generalizing U B with
  | nil => exact h
  | cons txin vin ih => exact ih (h.spend txin.prevout)

/-- Adding the outputs of a transaction, with nothing of value under its id. -/
theorem Valued.add (h : U.Valued B) {txid : Uint256} (hnew : ∀ n, B { hash := txid, n := n } = 0)
    (tx : CTransaction) : (U.add txid tx).Valued (B + outputLedger txid tx) := by
  intro o
  rw [Finsupp.add_apply, outputLedger_apply]
  unfold worth Utxo.add
  by_cases hhash : o.hash = txid
  · have hzero : B o = 0 := by
      rw [← hnew o.n, ← hhash]
    rw [if_pos hhash, if_pos hhash, hzero, zero_add]
  · rw [if_neg hhash, if_neg hhash, add_zero]
    exact h o

theorem Valued.applyTx (h : U.Valued B) (hnew : ∀ n, B { hash := C.txHash tx, n := n } = 0) :
    (U.applyTx C tx).Valued (ledgerTx C B tx) := by
  unfold Utxo.applyTx ledgerTx
  cases tx.isCoinBase with
  | true => exact h.add hnew tx
  | false =>
    exact (h.spendAll tx.vin).add (fun n => Lib.Ledger.closeAll_eq_zero (hnew n) _) tx

theorem Valued.applyTxs (h : U.Valued B) (hnew : NewIds C B txs) : (U.applyTxs C txs).Valued (ledgerTxs C B txs) := by
  induction txs generalizing U B with
  | nil => exact h
  | cons tx txs ih => exact ih (h.applyTx hnew.1) hnew.2

/-- A transaction adds to the ledger what it creates, but for what is dropped. -/
theorem Valued.degree_applyTx (h : U.Valued B) (htx : CheckedTransaction tx) :
    (ledgerTx C B tx).degree = B.degree + U.created tx - droppedValue tx := by
  have hout := outputLedger_degree (C.txHash tx) htx.values
  unfold ledgerTx created
  rw [map_add]
  cases tx.isCoinBase with
  | true =>
    simp only [if_true]
    omega
  | false =>
    have hin : (tx.vin.map CTxIn.prevout).map B = tx.vin.map fun txin => U.worth txin.prevout := by
      rw [map_map]
      exact map_congr_left fun txin _ => (h txin.prevout).symm
    have hclosed := Lib.Ledger.degree_closeAll B htx.prevouts_nodup
    rw [hin] at hclosed
    have hvalue : (tx.vin.map fun txin => U.worth txin.prevout).sum = U.valueIn tx.vin := rfl
    simp only [Bool.false_eq_true, if_false]
    omega

theorem Valued.degree_applyTxs (h : U.Valued B) (hnew : NewIds C B txs) (htxs : ∀ tx ∈ txs, CheckedTransaction tx) :
    (ledgerTxs C B txs).degree = B.degree + Utxo.net C (fun _ => true) U txs - (txs.map droppedValue).sum := by
  induction txs generalizing U B with
  | nil => simp [ledgerTxs, Utxo.net]
  | cons tx txs ih =>
    have htail := ih (h.applyTx hnew.1) hnew.2 fun t ht => htxs t (mem_cons_of_mem _ ht)
    have hhead := h.degree_applyTx (C := C) (htxs tx mem_cons_self)
    show (ledgerTxs C (ledgerTx C B tx) txs).degree = _
    simp only [Utxo.net, if_true, map_cons, sum_cons]
    omega

end Utxo

/-! ## The sums of a block -/

section

variable {P : CChainParams} {C : Crypto} {ctx : ConnectContext} {fScriptChecks : Bool} {flags : Nat}
  {s s' : ConnectState} {tx : CTransaction}

theorem accountTx_values (h : accountTx C ctx fScriptChecks flags s tx = .ok s') :
    ∃ k : Int, s'.nValueOut - s'.nValueIn = s.nValueOut - s.nValueIn + s.view.utxo.created tx + 2 ^ 64 * k := by
  unfold accountTx at h
  cases hcb : tx.isCoinBase with
  | true =>
    rw [hcb] at h
    obtain ⟨v, hv, h⟩ := check_bind_ok.mp h
    rw [orCrash_eq_ok] at hv
    rw [check_pure_ok] at h
    subst h
    obtain ⟨k, hk⟩ := wrap64_eq_add (s.nValueOut + v)
    have hvalue := (getValueOut_eq_some hv).1
    refine ⟨k, ?_⟩
    simp only [Utxo.created, hcb, if_true]
    omega
  | false =>
    rw [hcb] at h
    obtain ⟨nTxValueIn, nTxValueOut, hacc, -, -, -, -, hin, hout⟩ := connectInputs_ok h
    obtain ⟨-, -, hcreated, -⟩ := hacc.values hcb
    obtain ⟨j, hj⟩ := wrap64_eq_add (s.nValueOut + nTxValueOut)
    obtain ⟨k, hk⟩ := wrap64_eq_add (s.nValueIn + nTxValueIn)
    exact ⟨j - k, by omega⟩

theorem connectTx_values (h : connectTx C ctx fScriptChecks flags s tx = .ok s') :
    ∃ k : Int, s'.nValueOut - s'.nValueIn = s.nValueOut - s.nValueIn + s.view.utxo.created tx + 2 ^ 64 * k := by
  simp only [connectTx, check_seq_ok] at h
  obtain ⟨-, h⟩ := h
  obtain ⟨mid, hmid, h⟩ := check_bind_ok.mp h
  obtain ⟨⟨view, undo⟩, -, h⟩ := check_bind_ok.mp h
  rw [check_pure_ok] at h
  subst h
  have hvalues := accountTx_values hmid
  exact hvalues

/-- Over the loop the two sums move apart by what the transactions create. -/
theorem connectTxs_values (h : txs.foldlM (connectTx C ctx fScriptChecks flags) s = .ok s') :
    ∃ k : Int, s'.nValueOut - s'.nValueIn =
      s.nValueOut - s.nValueIn + Utxo.net C (fun _ => true) s.view.utxo txs + 2 ^ 64 * k := by
  induction txs generalizing s with
  | nil =>
    have heq : s = s' := by simpa using h
    subst heq
    exact ⟨0, by simp [Utxo.net]⟩
  | cons tx txs ih =>
    rw [foldlM_cons] at h
    obtain ⟨mid, hhead, htail⟩ := check_bind_ok.mp h
    obtain ⟨j, hj⟩ := connectTx_values hhead
    obtain ⟨k, hk⟩ := ih htail
    rw [(connectTx_accounted hhead).utxo] at hk
    refine ⟨j + k, ?_⟩
    simp only [Utxo.net, if_true]
    omega

/-- The money supply of an entry is that of the previous one and what the block creates, in 64 bits. -/
theorem connectBlock_nMoneySupply {view : CoinsView} {fJustCheck : Bool}
    (hgenesis : block.getHash C ≠ P.hashGenesisBlock)
    (h : connectBlock P C ctx block view fJustCheck = .ok r) :
    r.nMoneySupply = wrap64 (ctx.nMoneySupplyPrev + Utxo.net C (fun _ => true) view.utxo block.vtx) := by
  simp only [connectBlock, check_seq_ok, require_eq_ok, if_neg hgenesis] at h
  obtain ⟨-, -, -, h⟩ := h
  obtain ⟨s, hloop, h⟩ := check_bind_ok.mp h
  simp only [check_seq_ok, check_pure_ok] at h
  obtain ⟨-, -, h⟩ := h
  subst h
  obtain ⟨k, hk⟩ := connectTxs_values hloop
  obtain ⟨j, hj⟩ := wrap64_eq_add (ctx.nMoneySupplyPrev + s.nValueOut)
  apply wrap64_congr
  refine ⟨k + j, ?_⟩
  simp only [ConnectState.start, sub_self, zero_add] at hk
  omega

end

/-! ## Undoing a block -/

/-- An undo record for each input, with the value that the ledger had there. -/
structure Refunds (B : COutPoint →₀ Int) (vin : List CTxIn) (txundo : CTxUndo) : Prop where
  values : Ledger.Recorded B (vin.map CTxIn.prevout) (txundo.map fun undo => undo.txout.nValue)
  not_null : ∀ undo ∈ txundo, undo.txout.isNull = false

/-- The undo records of transactions with inputs, applied to the ledger in turn. -/
inductive RefundsAll (C : Crypto) :
    (COutPoint →₀ Int) → List CTransaction → List CTxUndo → Prop where
  | nil (B : COutPoint →₀ Int) : RefundsAll C B [] []
  | cons {B : COutPoint →₀ Int} {tx : CTransaction} {txundo : CTxUndo} {txs : List CTransaction}
      {undos : List CTxUndo} (head : Refunds B tx.vin txundo)
      (tail : RefundsAll C (ledgerTx C B tx) txs undos) :
      RefundsAll C B (tx :: txs) (txundo :: undos)

section

variable {C : Crypto} {U : Utxo} {B : COutPoint →₀ Int} {vin : List CTxIn} {txundo : CTxUndo}
  {txs : List CTransaction} {undos : List CTxUndo}

theorem Refunds.of_fits (hU : U.Valued B) (h : Utxo.FitsAll ∅ U vin txundo) : Refunds B vin txundo := by
  induction h generalizing B with
  | nil U => exact ⟨.nil B, by simp⟩
  | cons head tail ih =>
    rename_i U txin undo vin txundo
    have hrest := ih (hU.spend txin.prevout)
    have hvalue : B txin.prevout = undo.txout.nValue := by
      rw [← hU txin.prevout, Utxo.worth, head.out (Set.notMem_empty _)]
      rfl
    refine ⟨.cons hvalue hrest.values, ?_⟩
    intro u hu
    rcases mem_cons.mp hu with rfl | hu
    · exact head.not_null
    · exact hrest.not_null u hu

theorem Refunds.onDisk (h : Refunds B vin txundo) : Refunds B vin (txundo.map CTxInUndo.onDisk) := by
  refine ⟨?_, ?_⟩
  · rw [map_map]
    exact h.values
  · intro u hu
    obtain ⟨u', hu', rfl⟩ := mem_map.mp hu
    exact h.not_null u' hu'

theorem RefundsAll.of_fits (hU : U.Valued B) (hnew : NewIds C B txs)
    (hcb : ∀ tx ∈ txs, tx.isCoinBase = false) (h : Utxo.TxsFit C ∅ U txs undos) :
    RefundsAll C B txs undos := by
  induction h generalizing B with
  | nil U => exact .nil B
  | cons head tail ih =>
    rename_i U tx txundo txs undos
    exact .cons (.of_fits hU (head (hcb tx mem_cons_self)))
      (ih (hU.applyTx hnew.1) hnew.2 fun t ht => hcb t (mem_cons_of_mem _ ht))

theorem RefundsAll.onDisk (h : RefundsAll C B txs undos) :
    RefundsAll C B txs (undos.map fun txundo => txundo.map CTxInUndo.onDisk) := by
  induction h with
  | nil B => exact .nil B
  | cons head tail ih => exact .cons head.onDisk ih

/-- A clean restore changes the one output: an entry that is set up anew was pruned. -/
theorem out?_restore {c : CCoins} {n : Nat} {undo : CTxInUndo} (hnull : undo.txout.isNull = false)
    (hclean : restoreClean c n undo) (m : Nat) :
    (c.restore n undo).out? m = if m = n then some undo.txout else c.out? m := by
  unfold CCoins.restore
  rw [CCoins.out?_setOut _ hnull]
  by_cases hheight : undo.nHeight ≠ 0
  · unfold restoreClean at hclean
    rw [if_pos hheight] at hclean ⊢
    rw [CCoins.isPruned_iff.mp hclean m]
    congr 1
  · rw [if_neg hheight]

section

variable {s : CoinsView × Bool}

theorem restoreInput_valued {txin : CTxIn} {undo : CTxInUndo}
    (hvalue : B txin.prevout = undo.txout.nValue) (hnull : undo.txout.isNull = false)
    (hclean : (restoreInput s txin undo).2) (hs : s.1.utxo.Valued (B.erase txin.prevout)) :
    (restoreInput s txin undo).1.utxo.Valued B := by
  obtain ⟨-, hclean⟩ := Bool.and_eq_true_iff.mp hclean
  intro o
  have hout : (restoreInput s txin undo).1.utxo o.hash o.n =
      if o = txin.prevout then some undo.txout else s.1.utxo o.hash o.n := by
    show (s.1.modifyCoins txin.prevout.hash _).utxo o.hash o.n = _
    rw [CoinsView.utxo_modifyCoins]
    by_cases hhash : o.hash = txin.prevout.hash
    · rw [if_pos hhash, out?_restore hnull hclean]
      by_cases hn : o.n = txin.prevout.n
      · have heq : o = txin.prevout := by
          cases o
          simp only at hhash hn
          rw [hhash, hn]
        rw [if_pos hn, if_pos heq]
      · rw [if_neg hn, if_neg (fun heq : o = txin.prevout => hn (by rw [heq])), hhash]
        rfl
    · rw [if_neg hhash, if_neg (fun heq : o = txin.prevout => hhash (by rw [heq]))]
  unfold Utxo.worth
  rw [hout]
  by_cases ho : o = txin.prevout
  · rw [if_pos ho, ho, hvalue]
    rfl
  · have hold := hs o
    rw [Finsupp.erase_ne ho] at hold
    rw [if_neg ho, ← hold]
    rfl

theorem restoreInputs_valued (h : Refunds B vin txundo) (hclean : (restoreInputs s (vin.zip txundo)).2)
    (hs : s.1.utxo.Valued (Ledger.closeAll B (vin.map CTxIn.prevout))) :
    (restoreInputs s (vin.zip txundo)).1.utxo.Valued B := by
  obtain ⟨hvalues, hnull⟩ := h
  induction vin generalizing B txundo with
  | nil => exact hs
  | cons txin vin ih =>
    cases txundo with
    | nil => cases hvalues
    | cons undo txundo =>
      cases hvalues with
      | cons head tail =>
        have hrest := ih (Bool.and_eq_true_iff.mp hclean).1 hs tail fun u hu =>
          hnull u (mem_cons_of_mem _ hu)
        exact restoreInput_valued head (hnull undo mem_cons_self) hclean hrest

/-- With its outputs removed, the view has the values it had before they were added. -/
theorem removeOutputs_valued (nHeight : Nat) (hnew : ∀ n, B { hash := C.txHash tx, n := n } = 0)
    (hs : s.1.utxo.Valued (B + outputLedger (C.txHash tx) tx)) :
    (removeOutputs C nHeight s tx).1.utxo.Valued B := by
  intro o
  unfold Utxo.worth
  rw [removeOutputs_utxo]
  by_cases hhash : o.hash = C.txHash tx
  · have hzero := hnew o.n
    rw [← hhash] at hzero
    rw [if_pos hhash]
    exact hzero.symm
  · have hold := hs o
    rw [Finsupp.add_apply, outputLedger_apply, if_neg hhash, add_zero] at hold
    rw [if_neg hhash, ← hold]
    rfl

theorem restoreInputs_clean {inputs : List (CTxIn × CTxInUndo)}
    (h : (restoreInputs s inputs).2) : s.2 = true := by
  induction inputs with
  | nil => exact h
  | cons input inputs ih => exact ih (Bool.and_eq_true_iff.mp h).1

end

/-- A mismatch is not forgotten. -/
theorem disconnectTx_clean {txundo? : Option CTxUndo}
    {nHeight : Nat} (h : disconnectTx C nHeight s tx txundo? = .ok s') (hclean : s'.2) :
    s.2 = true := by
  cases txundo? with
  | none =>
    rw [← check_pure_ok.mp h] at hclean
    exact (Bool.and_eq_true_iff.mp hclean).1
  | some txundo =>
    simp only [disconnectTx, check_seq_ok, check_pure_ok] at h
    obtain ⟨-, rfl⟩ := h
    exact (Bool.and_eq_true_iff.mp (restoreInputs_clean hclean)).1

theorem disconnectTx_valued {nHeight : Nat}
    (hcb : tx.isCoinBase = false) (hnew : ∀ n, B { hash := C.txHash tx, n := n } = 0)
    (hfunds : Refunds B tx.vin txundo)
    (h : disconnectTx C nHeight s tx (some txundo) = .ok s') (hclean : s'.2)
    (hs : s.1.utxo.Valued (ledgerTx C B tx)) : s'.1.utxo.Valued B := by
  simp only [disconnectTx, check_seq_ok, check_pure_ok] at h
  obtain ⟨-, rfl⟩ := h
  unfold ledgerTx at hs
  rw [hcb] at hs
  have hremoved := removeOutputs_valued nHeight
    (fun n => Lib.Ledger.closeAll_eq_zero (hnew n) (tx.vin.map CTxIn.prevout)) hs
  exact restoreInputs_valued hfunds hclean hremoved

/-- Undoing transactions cleanly, from the last to the first, gives the ledger back. -/
theorem disconnectTxs_valued {nHeight : Nat} (hcb : ∀ tx ∈ txs, tx.isCoinBase = false) (hnew : NewIds C B txs)
    (hfunds : RefundsAll C B txs undos)
    (h : disconnectTxs C nHeight s (txs.zip (undos.map some)) = .ok s') (hclean : s'.2)
    (hs : s.1.utxo.Valued (ledgerTxs C B txs)) : s'.1.utxo.Valued B := by
  induction hfunds generalizing s' with
  | nil B =>
    rw [check_pure_ok.mp h] at hs
    exact hs
  | cons head tail ih =>
    rename_i B tx txundo txs undos
    obtain ⟨mid, hmid, hlast⟩ := check_bind_ok.mp h
    have hrest := ih (fun t ht => hcb t (mem_cons_of_mem _ ht)) hnew.2 hmid
      (disconnectTx_clean hlast hclean) hs
    exact disconnectTx_valued (hcb tx mem_cons_self) hnew.1 head hlast hclean hrest

end

/-! ## Sequences of blocks -/

/-- The chainstate with the money supply of each index entry. -/
structure SupplyState extends ChainState where
  nMoneySupply : List CBlock → Int

section

variable (P : CChainParams) (C : Crypto)

/-- No transaction of the block creates an id with an unspent output where it is applied.  The coinbase of a
proof-of-stake block may find outputs without value: its own stays when the block is disconnected. -/
def CreatesNewIds (U : Utxo) (block : CBlock) : Prop :=
  ∀ pre tx post, block.vtx = pre ++ tx :: post → ∀ n out, U.applyTxs C pre (C.txHash tx) n = some out →
      block.isProofOfStake = true ∧ tx.isCoinBase = true ∧ out.nValue = 0

/-- The states reached from a view without coins, over the genesis block, by connecting blocks that create new ids
and by disconnecting the tip. -/
inductive SupplyRun : SupplyState → Prop where
  | start {view : CoinsView} (fresh : ∀ k, (view.coins k).isPruned = true) :
      SupplyRun { view := view, active := [], undo := fun _ => none, nMoneySupply := fun _ => 0 }
  | connect {s : SupplyState} {block : CBlock} {ctx : ConnectContext} {r : ConnectResult}
      {view : CoinsView} (prev : SupplyRun s) (received : ctx.phashBlock = true)
      (height : ctx.nHeight = s.active.length + 1) (hash : ctx.hashBlock = block.getHash C)
      (supply : ctx.nMoneySupplyPrev = s.nMoneySupply s.active)
      (not_genesis : block.getHash C ≠ P.hashGenesisBlock)
      (connected : connectBlock P C ctx block s.view false = .ok r)
      (new_ids : CreatesNewIds C s.view.utxo block) (same : SameCoins view r.view)
      (best : view.getBestBlock = r.view.getBestBlock) :
      SupplyRun
        { view := view, active := block :: s.active,
          undo := storeUndo s.undo (block :: s.active) r.blockundo,
          nMoneySupply := fun entry =>
            if entry = block :: s.active then r.nMoneySupply else s.nMoneySupply entry }
  | disconnect {s : SupplyState} {s' : ChainState} (prev : SupplyRun s)
      (step : DisconnectStep C s.toChainState s') :
      SupplyRun { s' with nMoneySupply := s.nMoneySupply }

/-- The ledger of a chain. -/
noncomputable def chainLedger : List CBlock → COutPoint →₀ Int
  | [] => 0
  | block :: rest => ledgerTxs C (chainLedger rest) block.vtx

/-- The value of the outputs that a chain dropped when they were created. -/
def chainDropped (chain : List CBlock) : Int :=
  (chain.map fun block => (block.vtx.map droppedValue).sum).sum

/-- What a chain has created and not spent, with what it has dropped. -/
noncomputable def chainSupply (chain : List CBlock) : Int :=
  (chainLedger C chain).degree + chainDropped chain

/-- What the undo data of an entry is good for. -/
structure EntryRefunds (path : List CBlock) (block : CBlock) (written : CBlockUndo)
    (cb : CTransaction) (rest : List CTransaction) : Prop where
  vtx : block.vtx = cb :: rest
  coinbase : cb.isCoinBase = true
  inputs : ∀ tx ∈ rest, tx.isCoinBase = false
  new_ids : NewIds C (chainLedger C path) block.vtx
  refunds : RefundsAll C (ledgerTx C (chainLedger C path) cb) rest written
  stake : block.isProofOfStake = true → outputLedger (C.txHash cb) cb = 0

structure SupplyState.Inv (s : SupplyState) : Prop where
  valued : s.view.utxo.Valued (chainLedger C s.active)
  checked : ∀ block ∈ s.active, ∀ tx ∈ block.vtx, CheckedTransaction tx
  entries : ∀ block path written, s.undo (block :: path) = some written →
    ∃ cb rest, EntryRefunds C path block written cb rest
  supply : ∀ path, path <:+ s.active → s.nMoneySupply path = wrap64 (chainSupply C path)

end

section

variable {P : CChainParams} {C : Crypto} {s : SupplyState}

theorem NewIds.of_worth {U : Utxo} (hU : U.Valued B) (h : ∀ pre tx post, txs = pre ++ tx :: post →
      ∀ n, (U.applyTxs C pre).worth { hash := C.txHash tx, n := n } = 0) : NewIds C B txs := by
  induction txs generalizing U B with
  | nil => trivial
  | cons tx txs ih =>
    have hnew : ∀ n, B { hash := C.txHash tx, n := n } = 0 := fun n =>
      (hU _).symm.trans (h [] tx txs rfl n)
    refine ⟨hnew, ih (hU.applyTx hnew) fun pre t post heq n => ?_⟩
    exact h (tx :: pre) t post (by rw [heq]; rfl) n

theorem CreatesNewIds.newIds {U : Utxo} (hU : U.Valued B) (h : CreatesNewIds C U block) : NewIds C B block.vtx := by
  apply NewIds.of_worth hU
  intro pre tx post heq n
  unfold Utxo.worth
  cases hout : U.applyTxs C pre (C.txHash tx) n with
  | none => rfl
  | some out => exact (h pre tx post heq n out hout).2.2

/-- The coinbase of a proof-of-stake block adds nothing of value. -/
theorem outputLedger_empty (txid : Uint256) {cb : CTransaction} {out : CTxOut} (hvout : cb.vout = [out])
    (hempty : out.isEmpty) : outputLedger txid cb = 0 := by
  have hvalue : out.nValue = 0 := by
    simp only [CTxOut.isEmpty, Bool.and_eq_true, decide_eq_true_eq] at hempty
    exact hempty.1
  ext o
  rw [outputLedger_apply, spendable?_empty hvout hempty]
  split_ifs <;> simp [hvalue]

/-- What connecting a block gives its entry. -/
theorem BlockAccepted.entryRefunds {ctx : ConnectContext} {view : CoinsView} {path : List CBlock}
    (hacc : BlockAccepted P C ctx block view false r)
    (hview : view.utxo.Valued (chainLedger C path))
    (hnew : NewIds C (chainLedger C path) block.vtx) :
    ∃ cb rest, EntryRefunds C path block r.blockundo cb rest := by
  obtain ⟨cb, rest, hvtx, hcb, hrest⟩ := hacc.checked.coinbase
  have hids := hnew
  rw [hvtx] at hids
  refine ⟨cb, rest, hvtx, hcb, hrest, hnew, ?_, fun hpos => ?_⟩
  · exact .of_fits (hview.applyTx hids.1) hids.2 hrest (hacc.undo_fits hvtx)
  · obtain ⟨cb', out, stake, rest', hvtx', hvout, hempty, -⟩ := hacc.checked.stake hpos
    have hcb' : cb' = cb := (List.cons.inj (hvtx'.symm.trans hvtx)).1
    subst hcb'
    exact outputLedger_empty _ hvout hempty

theorem connect_inv {ctx : ConnectContext} {view : CoinsView}
    (hs : s.Inv C) (hsupply : ctx.nMoneySupplyPrev = s.nMoneySupply s.active)
    (hgenesis : block.getHash C ≠ P.hashGenesisBlock)
    (hconnect : connectBlock P C ctx block s.view false = .ok r)
    (hids : CreatesNewIds C s.view.utxo block) (hsame : SameCoins view r.view) :
    SupplyState.Inv C
      { view := view, active := block :: s.active,
        undo := storeUndo s.undo (block :: s.active) r.blockundo,
        nMoneySupply := fun entry =>
          if entry = block :: s.active then r.nMoneySupply else s.nMoneySupply entry } := by
  have hacc := connectBlock_ok hgenesis hconnect
  have hnew := hids.newIds hs.valued
  refine ⟨?_, fun b hb => ?_, fun b path written hundo => ?_, fun path hpath => ?_⟩
  · show view.utxo.Valued _
    rw [hsame.utxo_eq, hacc.utxo_eq]
    exact hs.valued.applyTxs hnew
  · rcases mem_cons.mp hb with rfl | hb
    · exact hacc.checked.transactions
    · exact hs.checked b hb
  · rcases storeUndo_some hundo with hold | ⟨hentry, rfl⟩
    · exact hs.entries b path written hold
    · obtain ⟨rfl, rfl⟩ := List.cons.inj hentry
      exact hacc.entryRefunds hs.valued hnew
  · rcases suffix_cons_iff.mp hpath with rfl | hpath
    · have hprev := hs.supply s.active suffix_rfl
      have hdegree := hs.valued.degree_applyTxs hnew hacc.checked.transactions
      obtain ⟨k, hk⟩ := wrap64_eq_add (chainSupply C s.active)
      simp only [if_true]
      rw [connectBlock_nMoneySupply hgenesis hconnect, hsupply, hprev]
      apply wrap64_congr
      refine ⟨k, ?_⟩
      have hdropped : chainDropped (block :: s.active) =
        (block.vtx.map droppedValue).sum + chainDropped s.active := rfl
      have hledger : chainLedger C (block :: s.active) = ledgerTxs C (chainLedger C s.active) block.vtx := rfl
      unfold chainSupply at hk ⊢
      rw [hk, hdropped, hledger, hdegree]
      ring
    · have hne : path ≠ block :: s.active := by
        rintro rfl
        have hlen := hpath.length_le
        simp at hlen
      simp only [if_neg hne]
      exact hs.supply path hpath

theorem disconnect_inv {s' : ChainState} (hs : s.Inv C) (hstep : DisconnectStep C s.toChainState s') :
    SupplyState.Inv C { s' with nMoneySupply := s.nMoneySupply } := by
  obtain @⟨ctx, block, rest, written, W, view, hash, hactive, hundo, hdis, hsame, hbest⟩ := hstep
  obtain ⟨cb, txs, hentry⟩ := hs.entries block rest written hundo
  obtain ⟨last, hlast, rfl, hclean⟩ := disconnectBlock_ok hdis
  have hnew := hentry.new_ids
  have hview := hs.valued
  rw [hactive, chainLedger, hentry.vtx] at hview
  rw [hentry.vtx] at hnew
  refine ⟨?_, fun b hb => hs.checked b (by rw [hactive]; exact mem_cons_of_mem _ hb), hs.entries,
    fun path hpath => hs.supply path (by rw [hactive]; exact hpath.trans (suffix_cons _ _))⟩
  show view.utxo.Valued (chainLedger C rest)
  rw [hsame.utxo_eq]
  show last.1.utxo.Valued (chainLedger C rest)
  unfold undoneTxs at hlast
  rw [hentry.vtx] at hlast
  cases hpos : block.isProofOfStake with
  | false =>
    rw [hpos] at hlast
    obtain ⟨mid, hmid, hcb⟩ := check_bind_ok.mp hlast
    have hvalued := disconnectTxs_valued hentry.inputs hnew.2 hentry.refunds.onDisk hmid
      (disconnectTx_clean hcb hclean.symm) hview
    rw [← check_pure_ok.mp hcb]
    apply removeOutputs_valued ctx.nHeight hnew.1
    unfold ledgerTx at hvalued
    rw [hentry.coinbase] at hvalued
    exact hvalued
  | true =>
    rw [hpos] at hlast
    have hvalued := disconnectTxs_valued hentry.inputs hnew.2 hentry.refunds.onDisk hlast
      hclean.symm hview
    unfold ledgerTx at hvalued
    rw [hentry.coinbase, hentry.stake hpos, add_zero] at hvalued
    exact hvalued

theorem SupplyRun.inv (h : SupplyRun P C s) : s.Inv C := by
  induction h with
  | start fresh =>
    refine ⟨fun o => ?_, fun b hb => by simp at hb, fun _ _ _ hundo => by simp at hundo, fun path hpath => ?_⟩
    · rename_i view
      have hnone : view.utxo o.hash o.n = none := CCoins.isPruned_iff.mp (fresh o.hash) o.n
      show ((view.utxo o.hash o.n).map CTxOut.nValue).getD 0 = 0
      rw [hnone]
      rfl
    · rw [suffix_nil.mp hpath]
      simp [chainSupply, chainLedger, chainDropped, wrap64]
  | connect prev received height hash supply not_genesis connected new_ids same best ih =>
    exact connect_inv ih supply not_genesis connected new_ids same
  | disconnect prev step ih => exact disconnect_inv ih step

/-! ## The supply of the tip -/

theorem ledgerTx_nonneg (hB : ∀ o, 0 ≤ B o) (htx : CheckedTransaction tx) (o : COutPoint) : 0 ≤ ledgerTx C B tx o := by
  have hout : 0 ≤ outputLedger (C.txHash tx) tx o := by
    rw [outputLedger_apply]
    split_ifs
    · cases hout : CCoins.spendable? tx o.n with
      | none => exact le_refl 0
      | some out =>
        have hmem : out ∈ tx.vout := mem_of_getElem? (Option.filter_eq_some_iff.mp hout).1
        exact (moneyRange_iff.mp (htx.values out hmem)).1
    · exact le_refl 0
  have hkept : 0 ≤ (if tx.isCoinBase then B
      else Ledger.closeAll B (tx.vin.map CTxIn.prevout)) o := by
    split_ifs
    · exact hB o
    · rcases Lib.Ledger.closeAll_apply B (tx.vin.map CTxIn.prevout) o with hzero | hsame
      · rw [hzero]
      · rw [hsame]
        exact hB o
  unfold ledgerTx
  rw [Finsupp.add_apply]
  omega

theorem ledgerTxs_nonneg (hB : ∀ o, 0 ≤ B o)
    (htxs : ∀ tx ∈ txs, CheckedTransaction tx) : ∀ o, 0 ≤ ledgerTxs C B txs o := by
  induction txs generalizing B with
  | nil => exact hB
  | cons tx txs ih =>
    exact ih (ledgerTx_nonneg hB (htxs tx mem_cons_self))
      fun t ht => htxs t (mem_cons_of_mem _ ht)

theorem chainLedger_nonneg {chain : List CBlock}
    (h : ∀ block ∈ chain, ∀ tx ∈ block.vtx, CheckedTransaction tx) : ∀ o, 0 ≤ chainLedger C chain o := by
  induction chain with
  | nil => exact fun _ => le_refl 0
  | cons block chain ih =>
    exact ledgerTxs_nonneg (ih fun b hb => h b (mem_cons_of_mem _ hb)) (h block mem_cons_self)

theorem chainSupply_nonneg {chain : List CBlock}
    (h : ∀ block ∈ chain, ∀ tx ∈ block.vtx, CheckedTransaction tx) : 0 ≤ chainSupply C chain := by
  have hdropped : 0 ≤ chainDropped chain := by
    apply sum_nonneg
    intro v hv
    obtain ⟨block, hblock, rfl⟩ := mem_map.mp hv
    apply sum_nonneg
    intro v hv
    obtain ⟨tx, htx, rfl⟩ := mem_map.mp hv
    apply sum_nonneg
    intro v hv
    obtain ⟨out, hout, rfl⟩ := mem_map.mp hv
    exact (moneyRange_iff.mp ((h block hblock tx htx).values out (mem_filter.mp hout).1)).1
  have hdegree : 0 ≤ (chainLedger C chain).degree :=
    Finset.sum_nonneg fun o _ => chainLedger_nonneg h o
  exact add_nonneg hdegree hdropped

/-- The exact sum of the values of the available outputs. -/
noncomputable def availableValue (view : CoinsView) : Int :=
  finsum view.utxo.worth

theorem SupplyState.Inv.availableValue_eq (hs : s.Inv C) :
    availableValue s.view = (chainLedger C s.active).degree := by
  have hworth : s.view.utxo.worth = chainLedger C s.active := funext hs.valued
  unfold availableValue
  rw [hworth]
  exact finsum_eq_sum_of_support_subset _ (by simp)

end

/-- Ids that are new to the view and occur once are new where they are created. -/
theorem CreatesNewIds.of_nodup {C : Crypto} {view : CoinsView} (hnodup : (block.vtx.map C.txHash).Nodup)
    (hnew : ∀ tx ∈ block.vtx, (view.coins (C.txHash tx)).isPruned) :
    CreatesNewIds C view.utxo block := by
  intro pre tx post heq n out hout
  exfalso
  rcases Utxo.created_of_applyTxs hout with ⟨t, ht, hid, -⟩ | hview
  · rw [heq, map_append, nodup_append] at hnodup
    exact hnodup.2.2 _ (mem_map_of_mem ht) _ (mem_map_of_mem mem_cons_self) hid
  · have hspent := CoinsView.spent_iff.mpr (hnew tx (by
      rw [heq]
      exact mem_append_right _ mem_cons_self)) n
    rw [hspent] at hview
    simp at hview

/-! ## A supply beyond 64 bits -/

namespace Example

def mintTx (nTime : Nat) : CTransaction :=
  { coinbaseTx [keyOut 20] with nTime := nTime }

/-- A proof-of-work block at a height, on the one before it. -/
def supplyBlock (nHeight : Nat) (txs : List CTransaction) : CBlock :=
  let unsealed : CBlock :=
    { block 2 (mintTx (100 + nHeight) :: txs) [] with
      hashPrevBlock := 7099 + nHeight, nTime := 100 + nHeight }
  { unsealed with hashMerkleRoot := (unsealed.buildMerkleTree crypto).1 }

/-- The coinbase of the first block is spent as soon as it is mature. -/
def splitTx : CTransaction :=
  { spendTx (crypto.txHash (mintTx 101)) 0 [keyOut 10, keyOut 5, keyOut 5] with nTime := 131 }

/-- A transaction in the shape of a coinstake, which need not pay for its outputs. -/
def forgedTx (n : Nat) : CTransaction :=
  { spendTx (crypto.txHash splitTx) n [emptyOut, keyOut MAX_MONEY] with nTime := 131 }

def supplyBlocks : List CBlock :=
  (List.range 30).map (fun n => supplyBlock (n + 1) []) ++ [supplyBlock 31 [splitTx, forgedTx 0, forgedTx 1]]

def supplyContext (nHeight : Nat) (block : CBlock) (nMoneySupply : Int) : ConnectContext :=
  { context with
    nHeight := nHeight, hashBlock := block.getHash crypto, hashPrevBlock := block.hashPrevBlock,
    versions := List.replicate nHeight 2, nMoneySupplyPrev := nMoneySupply }

/-- Blocks connected one after another over a chain of the given length. -/
def connectAll : List CBlock → Nat → CoinsView → Int → Check Int
  | [], _, _, nMoneySupply => pure nMoneySupply
  | block :: blocks, nHeight, view, nMoneySupply => do
    require (decide (block.getHash crypto ≠ params.hashGenesisBlock) &&
      decide (block.vtx.map crypto.txHash).Nodup &&
      block.vtx.all fun tx => (view.coins (crypto.txHash tx)).isPruned) .crashes
    let r ← connectBlock params crypto (supplyContext (nHeight + 1) block nMoneySupply) block view
      false
    connectAll blocks (nHeight + 1) r.view r.nMoneySupply

theorem connectAll_run {blocks : List CBlock} {s : SupplyState} {nMoneySupply : Int}
    (hs : SupplyRun params crypto s)
    (h : connectAll blocks s.active.length s.view (s.nMoneySupply s.active) = .ok nMoneySupply) :
    ∃ s', SupplyRun params crypto s' ∧ s'.active = blocks.reverse ++ s.active ∧
      s'.nMoneySupply s'.active = nMoneySupply := by
  induction blocks generalizing s with
  | nil => exact ⟨s, hs, rfl, check_pure_ok.mp h⟩
  | cons block blocks ih =>
    simp only [connectAll, check_seq_ok, require_eq_ok, Bool.and_eq_true, decide_eq_true_eq, all_eq_true] at h
    obtain ⟨⟨⟨hgenesis, hnodup⟩, hnew⟩, h⟩ := h
    obtain ⟨r, hr, h⟩ := check_bind_ok.mp h
    have hstep := SupplyRun.connect hs rfl rfl rfl rfl hgenesis hr (.of_nodup hnodup hnew)
      (fun k => CCoins.same_refl _) rfl
    obtain ⟨s', hs', hactive, hsupply⟩ := ih hstep (by simpa using h)
    refine ⟨s', hs', ?_, hsupply⟩
    rw [hactive]
    simp

def genesisView : CoinsView :=
  CoinsView.over (fun _ => none) 7100

theorem connectAll_start (blocks : List CBlock) (nMoneySupply : Int)
    (h : (connectAll blocks 0 genesisView 0).toOption = some nMoneySupply) :
    ∃ s, SupplyRun params crypto s ∧ s.active = blocks.reverse ∧ s.nMoneySupply s.active = nMoneySupply := by
  obtain ⟨v, hv, hval⟩ := exists_ok_of_toOption (f := id) (by simpa using h)
  have hstart : SupplyRun params crypto
      { view := genesisView, active := [], undo := fun _ => none, nMoneySupply := fun _ => 0 } :=
    .start fun k => by rfl
  obtain ⟨s, hs, hactive, hsupply⟩ := connectAll_run hstart hv
  exact ⟨s, hs, by rw [hactive, append_nil], hsupply.trans hval⟩

end Example

open Example

end Reddcoin
