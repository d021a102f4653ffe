import Reddcoin.Connect.Connect

/-!
# The available outputs

What a coins view is for: the map from outpoints to the outputs that can be spent.  `UpdateCoins`
refines removing the inputs and adding the outputs of a transaction in that map, and the undo records
it writes fit the map they were taken from.
-/

namespace Reddcoin

variable {txs : List CTransaction} {vin : List CTxIn} {undos : CTxUndo} {k : Uint256} {txin : CTxIn} {undo : CTxInUndo}

abbrev Utxo := Uint256 → Nat → Option CTxOut

namespace Utxo

def spend (U : Utxo) (o : COutPoint) : Utxo :=
  fun k n => if k = o.hash ∧ n = o.n then none else U k n

def spendAll (U : Utxo) : List CTxIn → Utxo
  | [] => U
  | txin :: vin => (U.spend txin.prevout).spendAll vin

def add (U : Utxo) (txid : Uint256) (tx : CTransaction) : Utxo :=
  fun k n => if k = txid then CCoins.spendable? tx n else U k n

def applyTx (C : Crypto) (U : Utxo) (tx : CTransaction) : Utxo :=
  (if tx.isCoinBase then U else U.spendAll tx.vin).add (C.txHash tx) tx

def applyTxs (C : Crypto) (U : Utxo) (txs : List CTransaction) : Utxo :=
  txs.foldl (applyTx C) U

/-- Nothing is available under `txid`. -/
def Spent (U : Utxo) (txid : Uint256) : Prop :=
  ∀ n, U txid n = none

/-- The two maps agree on every transaction outside `D`. -/
def Agree (D : Set Uint256) (U W : Utxo) : Prop :=
  ∀ k, k ∉ D → ∀ n, U k n = W k n

/-- An undo record for the input `txin` of a transaction applied to `U`: the output it spends, and no
metadata unless it was the last one.  Nothing is said about transactions in `D`. -/
structure Fits (D : Set Uint256) (U : Utxo) (txin : CTxIn) (undo : CTxInUndo) : Prop where
  not_null : undo.txout.isNull = false
  out : txin.prevout.hash ∉ D → U txin.prevout.hash txin.prevout.n = some undo.txout
  last : txin.prevout.hash ∉ D → undo.nHeight ≠ 0 → ∀ n, n ≠ txin.prevout.n → U txin.prevout.hash n = none

inductive FitsAll (D : Set Uint256) : Utxo → List CTxIn → CTxUndo → Prop where
  | nil (U : Utxo) : FitsAll D U [] []
  | cons {U : Utxo} {txin : CTxIn} {undo : CTxInUndo} {vin : List CTxIn} {undos : CTxUndo}
      (head : Fits D U txin undo) (tail : FitsAll D (U.spend txin.prevout) vin undos) :
      FitsAll D U (txin :: vin) (undo :: undos)

/-! ## The abstract operations -/

variable {D D' : Set Uint256} {U W : Utxo}

theorem Agree.refl (U : Utxo) : Agree D U U := fun _ _ _ => rfl

theorem Agree.symm (h : Agree D U W) : Agree D W U := fun k hk n => (h k hk n).symm

theorem Agree.mono (hsub : D ⊆ D') (h : Agree D U W) : Agree D' U W :=
  fun k hk n => h k (fun hd => hk (hsub hd)) n

theorem Agree.spend (h : Agree D U W) (o : COutPoint) : Agree D (U.spend o) (W.spend o) := by
  intro k hk n
  unfold Utxo.spend
  rw [h k hk n]

theorem Agree.spendAll (h : Agree D U W) (vin : List CTxIn) :
    Agree D (U.spendAll vin) (W.spendAll vin) := by
  induction vin generalizing U W with
  | nil => exact h
  | cons txin vin ih => exact ih (h.spend txin.prevout)

theorem Agree.add (h : Agree D U W) (txid : Uint256) (tx : CTransaction) :
    Agree D (U.add txid tx) (W.add txid tx) := by
  intro k hk n
  unfold Utxo.add
  rw [h k hk n]

theorem Agree.applyTx {C : Crypto} (h : Agree D U W) (tx : CTransaction) :
    Agree D (U.applyTx C tx) (W.applyTx C tx) := by
  unfold Utxo.applyTx
  cases tx.isCoinBase with
  | true => exact h.add _ tx
  | false => exact (h.spendAll tx.vin).add _ tx

theorem Agree.applyTxs {C : Crypto} (h : Agree D U W) (txs : List CTransaction) :
    Agree D (U.applyTxs C txs) (W.applyTxs C txs) := by
  induction txs generalizing U W with
  | nil => exact h
  | cons tx txs ih => exact ih (h.applyTx tx)

theorem Spent.spend (h : U.Spent k) (o : COutPoint) : (U.spend o).Spent k := by
  intro n
  unfold Utxo.spend
  rw [h n, ite_self]

theorem Spent.spendAll (h : U.Spent k) (vin : List CTxIn) : (U.spendAll vin).Spent k := by
  induction vin generalizing U with
  | nil => exact h
  | cons txin vin ih => exact ih (h.spend txin.prevout)

theorem Fits.agree (h : Agree D U W) (hf : Fits D U txin undo) : Fits D W txin undo where
  not_null := hf.not_null
  out := fun hd => by rw [← h _ hd]; exact hf.out hd
  last := fun hd hheight n hn => by rw [← h _ hd]; exact hf.last hd hheight n hn

theorem Fits.mono (hsub : D ⊆ D') (hf : Fits D U txin undo) : Fits D' U txin undo where
  not_null := hf.not_null
  out := fun hd => hf.out fun h => hd (hsub h)
  last := fun hd => hf.last fun h => hd (hsub h)

theorem Fits.onDisk (hf : Fits D U txin undo) : Fits D U txin undo.onDisk where
  not_null := hf.not_null
  out := hf.out
  last := hf.last

theorem FitsAll.agree (h : Agree D U W) (hf : FitsAll D U vin undos) : FitsAll D W vin undos := by
  induction hf generalizing W with
  | nil U => exact .nil W
  | cons head tail ih => exact .cons (head.agree h) (ih (h.spend _))

theorem FitsAll.mono (hsub : D ⊆ D') (hf : FitsAll D U vin undos) : FitsAll D' U vin undos := by
  induction hf with
  | nil U => exact .nil U
  | cons head tail ih => exact .cons (head.mono hsub) ih

theorem FitsAll.onDisk (hf : FitsAll D U vin undos) : FitsAll D U vin (undos.map CTxInUndo.onDisk) := by
  induction hf with
  | nil U => exact .nil U
  | cons head tail ih => exact .cons head.onDisk ih

theorem FitsAll.length_eq (hf : FitsAll D U vin undos) : undos.length = vin.length := by
  induction hf with
  | nil U => rfl
  | cons head tail ih => simp [ih]

end Utxo

/-! ## Views as maps -/

namespace CoinsView

def utxo (v : CoinsView) : Utxo := v.out?

theorem spent_iff {v : CoinsView} : v.utxo.Spent k ↔ (v.coins k).isPruned = true :=
  CCoins.isPruned_iff.symm

theorem utxo_modifyCoins (v : CoinsView) (k : Uint256) (f : CCoins → CCoins) (k' : Uint256) (n : Nat) :
    (v.modifyCoins k f).utxo k' n = if k' = k then (f (v.coins k)).out? n else v.utxo k' n :=
  out?_modifyCoins k f k' n

end CoinsView

/-- What a flush and a reload leave: the same entries, up to pruned ones. -/
def SameCoins (v w : CoinsView) : Prop :=
  ∀ k, (v.coins k).same (w.coins k) = true

theorem SameCoins.utxo_eq {v w : CoinsView} (h : SameCoins v w) : v.utxo = w.utxo := by
  funext k n
  show (v.coins k).out? n = (w.coins k).out? n
  rcases CCoins.same_iff.mp (h k) with ⟨hv, hw⟩ | heq
  · rw [CCoins.isPruned_iff.mp hv, CCoins.isPruned_iff.mp hw]
  · rw [heq]

theorem SameCoins.coins_eq {v w : CoinsView} (h : SameCoins v w) (hlive : (w.coins k).isPruned = false) :
    v.coins k = w.coins k := by
  rcases CCoins.same_iff.mp (h k) with ⟨-, hw⟩ | heq
  · rw [hlive] at hw
    simp at hw
  · exact heq

/-! ## Spending and adding -/

/-- Applying a list of transactions one after another, as the loop of `ConnectBlock` does. -/
def updateAll (C : Crypto) (nHeight : Nat) :
    CoinsView → List CTransaction → Option (CoinsView × List CTxUndo)
  | view, [] => some (view, [])
  | view, tx :: txs => do
    let (view, txundo) ← updateCoins C view tx nHeight
    let (view, undos) ← updateAll C nHeight view txs
    pure (view, txundo :: undos)

/-- The undo records of a list of transactions applied to `U` in turn. -/
inductive Utxo.TxsFit (C : Crypto) (D : Set Uint256) :
    Utxo → List CTransaction → List CTxUndo → Prop where
  | nil (U : Utxo) : TxsFit C D U [] []
  | cons {U : Utxo} {tx : CTransaction} {txundo : CTxUndo} {txs : List CTransaction}
      {undos : List CTxUndo} (head : tx.isCoinBase = false → Utxo.FitsAll D U tx.vin txundo)
      (tail : TxsFit C D (U.applyTx C tx) txs undos) : TxsFit C D U (tx :: txs) (txundo :: undos)

open Utxo (Agree Fits FitsAll TxsFit)

section

variable {C : Crypto} {D D' : Set Uint256} {V V' : CoinsView}

theorem Utxo.TxsFit.mono (hsub : D ⊆ D') {U : Utxo} {undos : List CTxUndo} (h : TxsFit C D U txs undos) :
    TxsFit C D' U txs undos := by
  induction h with
  | nil U => exact .nil U
  | cons head tail ih => exact .cons (fun hcb => (head hcb).mono hsub) ih

theorem Utxo.TxsFit.agree {U W : Utxo} (hag : Agree D U W) {undos : List CTxUndo} (h : TxsFit C D U txs undos) :
    TxsFit C D W txs undos := by
  induction h generalizing W with
  | nil U => exact .nil W
  | cons head tail ih => exact .cons (fun hcb => (head hcb).agree hag) (ih (hag.applyTx _))

theorem Utxo.TxsFit.onDisk {U : Utxo} {undos : List CTxUndo} (h : TxsFit C D U txs undos) :
    TxsFit C D U txs (undos.map fun txundo => txundo.map CTxInUndo.onDisk) := by
  induction h with
  | nil U => exact .nil U
  | cons head tail ih => exact .cons (fun hcb => (head hcb).onDisk) ih

theorem Utxo.TxsFit.length_eq {U : Utxo} {undos : List CTxUndo}
    (h : TxsFit C D U txs undos) : undos.length = txs.length := by
  induction h with
  | nil U => rfl
  | cons head tail ih => simp [ih]

theorem undoOf_txout (rest : CCoins) (out : CTxOut) : (CCoins.undoOf rest out).txout = out := by
  unfold CCoins.undoOf
  split <;> rfl

theorem undoOf_nHeight_ne_zero {rest : CCoins} {out : CTxOut}
    (h : (CCoins.undoOf rest out).nHeight ≠ 0) : rest.vout = [] := by
  unfold CCoins.undoOf at h
  split at h
  · rename_i hempty
    simpa using hempty
  · exact absurd rfl h

/-- A spent input is removed from the map, and its undo record fits. -/
theorem spendInput_ok (h : spendInput V txin = some (V', undo)) :
    V'.utxo = V.utxo.spend txin.prevout ∧ Fits D V.utxo txin undo := by
  obtain ⟨⟨coins, undo'⟩, hspend, hrest⟩ := Option.bind_eq_some_iff.mp h
  cases hrest
  obtain ⟨out, hout, rfl, rfl⟩ := CCoins.spend_eq_some_iff.mp hspend
  refine ⟨?_, ⟨?_, fun _ => ?_, fun _ hheight n hn => ?_⟩⟩
  · funext k n
    rw [CoinsView.utxo_modifyCoins]
    unfold Utxo.spend
    by_cases hk : k = txin.prevout.hash
    · subst hk
      simp only [if_true, true_and, CCoins.out?_spent]
      rfl
    · simp only [hk, if_false, false_and]
  · rw [undoOf_txout]
    exact (CCoins.out?_eq_some.mp hout).2
  · rw [undoOf_txout]
    exact hout
  · have hpruned : ((V.coins txin.prevout.hash).spent txin.prevout.n).isPruned = true :=
      ((CCoins.clean_spent _ _).vout_eq_nil_iff).mp (undoOf_nHeight_ne_zero hheight)
    have hnone := CCoins.isPruned_iff.mp hpruned n
    rw [CCoins.out?_spent, if_neg hn] at hnone
    exact hnone

theorem spendInputs_ok (h : spendInputs V vin = some (V', undos)) :
    V'.utxo = V.utxo.spendAll vin ∧ FitsAll D V.utxo vin undos := by
  induction vin generalizing V undos with
  | nil =>
    cases h
    exact ⟨rfl, .nil _⟩
  | cons txin vin ih =>
    obtain ⟨⟨mid, undo⟩, hhead, h⟩ := Option.bind_eq_some_iff.mp h
    obtain ⟨⟨last, rest⟩, htail, h⟩ := Option.bind_eq_some_iff.mp h
    cases h
    obtain ⟨hmid, hfit⟩ := spendInput_ok (D := D) hhead
    obtain ⟨hlast, hfits⟩ := ih htail
    rw [hmid] at hlast hfits
    exact ⟨hlast, .cons hfit hfits⟩

theorem utxo_addOutputs (V : CoinsView) (tx : CTransaction) (nHeight : Nat) :
    (addOutputs C V tx nHeight).utxo = V.utxo.add (C.txHash tx) tx := by
  funext k n
  unfold addOutputs Utxo.add
  rw [CoinsView.utxo_modifyCoins, CCoins.out?_fromTx]

theorem updateCoins_ok {tx : CTransaction} {nHeight : Nat} {txundo : CTxUndo}
    (h : updateCoins C V tx nHeight = some (V', txundo)) :
    V'.utxo = V.utxo.applyTx C tx ∧ (tx.isCoinBase = false → FitsAll D V.utxo tx.vin txundo) := by
  obtain ⟨⟨mid, undos⟩, hspend, h⟩ := Option.bind_eq_some_iff.mp h
  cases h
  unfold spendTx at hspend
  unfold Utxo.applyTx
  rw [utxo_addOutputs]
  cases hcb : tx.isCoinBase with
  | true =>
    rw [hcb] at hspend
    cases hspend
    exact ⟨rfl, fun hf => by simp at hf⟩
  | false =>
    rw [hcb] at hspend
    obtain ⟨hmid, hfits⟩ := spendInputs_ok (D := D) hspend
    exact ⟨by rw [hmid]; rfl, fun _ => hfits⟩

theorem updateAll_ok {nHeight : Nat} {undos : List CTxUndo} (h : updateAll C nHeight V txs = some (V', undos)) :
    V'.utxo = V.utxo.applyTxs C txs ∧ TxsFit C D V.utxo txs undos := by
  induction txs generalizing V undos with
  | nil =>
    cases h
    exact ⟨rfl, .nil _⟩
  | cons tx txs ih =>
    obtain ⟨⟨mid, undo⟩, hhead, h⟩ := Option.bind_eq_some_iff.mp h
    obtain ⟨⟨last, rest⟩, htail, h⟩ := Option.bind_eq_some_iff.mp h
    cases h
    obtain ⟨hmid, hfit⟩ := updateCoins_ok (D := D) hhead
    obtain ⟨hlast, hfits⟩ := ih htail
    rw [hmid] at hlast hfits
    exact ⟨hlast, .cons hfit hfits⟩

end

end Reddcoin

/-!
## Accepted blocks

What each stage of `ConnectBlock` has established when it succeeds.
-/

namespace Reddcoin

variable {P : CChainParams} {C : Crypto} {ctx : ConnectContext} {fScriptChecks : Bool} {flags : Nat}
  {s s' : ConnectState} {tx : CTransaction}

/-- What a transaction with inputs has passed, with the values it was accounted at. -/
structure InputsAccepted (C : Crypto) (ctx : ConnectContext) (view : CoinsView) (tx : CTransaction)
    (nTxValueIn nTxValueOut : Int) : Prop where
  have_inputs : haveInputs view tx = true
  value_in : getValueIn view tx = some nTxValueIn
  value_out : tx.getValueOut = some nTxValueOut
  checked : ∃ fScriptChecks flags checks,
    checkInputs C view ctx.nHeight tx fScriptChecks flags ctx.fThreads = .ok checks

theorem connectInputs_ok (h : connectInputs C ctx fScriptChecks flags s tx = .ok s') :
    ∃ nTxValueIn nTxValueOut, InputsAccepted C ctx s.view tx nTxValueIn nTxValueOut ∧
      s'.view = s.view ∧ s'.vtxundo = s.vtxundo ∧
      s'.nStakeReward = (if tx.isCoinStake then wrap64 (nTxValueOut - nTxValueIn) else s.nStakeReward) ∧
      s'.nFees = (if tx.isCoinStake then s.nFees else wrap64 (s.nFees + wrap64 (nTxValueIn - nTxValueOut))) ∧
      s'.nValueIn = wrap64 (s.nValueIn + nTxValueIn) ∧ s'.nValueOut = wrap64 (s.nValueOut + nTxValueOut) := by
  simp only [connectInputs, check_seq_ok, require_eq_ok] at h
  obtain ⟨hhave, h⟩ := h
  obtain ⟨nP2SH, -, h⟩ := check_bind_ok.mp h
  obtain ⟨-, h⟩ := check_seq_ok.mp h
  obtain ⟨nTxValueIn, hin, h⟩ := check_bind_ok.mp h
  obtain ⟨nTxValueOut, hout, h⟩ := check_bind_ok.mp h
  obtain ⟨checks, hchecks, h⟩ := check_bind_ok.mp h
  rw [orCrash_eq_ok] at hin hout
  rw [check_pure_ok] at h
  subst h
  exact ⟨nTxValueIn, nTxValueOut, ⟨hhave, hin, hout, _, _, checks, hchecks⟩, rfl, rfl, rfl, rfl, rfl, rfl⟩

theorem accountTx_view (h : accountTx C ctx fScriptChecks flags s tx = .ok s') :
    s'.view = s.view ∧ s'.vtxundo = s.vtxundo := by
  unfold accountTx at h
  cases hcb : tx.isCoinBase with
  | true =>
    rw [hcb] at h
    obtain ⟨_, -, h⟩ := check_bind_ok.mp h
    rw [check_pure_ok] at h
    subst h
    exact ⟨rfl, rfl⟩
  | false =>
    rw [hcb] at h
    obtain ⟨_, _, -, hview, hundo, -, -⟩ := connectInputs_ok h
    exact ⟨hview, hundo⟩

/-- A turn of the loop accounts for the transaction, then applies it to the view. -/
theorem connectTx_ok (h : connectTx C ctx fScriptChecks flags s tx = .ok s') :
    ∃ mid undo, accountTx C ctx fScriptChecks flags
        { s with nSigOps := s.nSigOps + getLegacySigOpCount tx } tx = .ok mid ∧
      updateCoins C s.view tx ctx.nHeight = some (s'.view, undo) ∧
      s'.vtxundo = s.vtxundo ++ [undo] ∧ s'.nFees = mid.nFees ∧
      s'.nStakeReward = mid.nStakeReward := by
  simp only [connectTx, check_seq_ok] at h
  obtain ⟨-, h⟩ := h
  obtain ⟨mid, hmid, h⟩ := check_bind_ok.mp h
  obtain ⟨⟨view, undo⟩, hupdate, h⟩ := check_bind_ok.mp h
  obtain ⟨hview, hundo⟩ := accountTx_view hmid
  rw [orCrash_eq_ok, hview] at hupdate
  rw [check_pure_ok] at h
  subst h
  refine ⟨mid, undo, hmid, hupdate, ?_, rfl, rfl⟩
  show mid.vtxundo ++ [undo] = s.vtxundo ++ [undo]
  rw [hundo]

theorem connectTxs_ok (h : txs.foldlM (connectTx C ctx fScriptChecks flags) s = .ok s') :
    ∃ undos, updateAll C ctx.nHeight s.view txs = some (s'.view, undos) ∧ s'.vtxundo = s.vtxundo ++ undos := by
  induction txs generalizing s with
  | nil =>
    have heq : s = s' := by simpa using h
    subst heq
    exact ⟨[], rfl, by simp⟩
  | cons tx txs ih =>
    rw [List.foldlM_cons] at h
    obtain ⟨mid, hhead, htail⟩ := check_bind_ok.mp h
    obtain ⟨_, undo, -, hupdate, hundo, -, -⟩ := connectTx_ok hhead
    obtain ⟨undos, hall, hundos⟩ := ih htail
    refine ⟨undo :: undos, ?_, ?_⟩
    · simp only [updateAll, hupdate, Option.bind_eq_bind, Option.bind_some, hall]
      rfl
    · rw [hundos, hundo, List.append_assoc, List.singleton_append]

/-- What `ConnectBlock` has established about a block other than the genesis block. -/
structure BlockAccepted (P : CChainParams) (C : Crypto) (ctx : ConnectContext) (block : CBlock)
    (view : CoinsView) (fJustCheck : Bool) (r : ConnectResult) : Prop where
  checked : CheckedBlock block
  best_block : ctx.hashPrevBlock = view.getBestBlock
  bip30 : checkBIP30 P C ctx view block = .ok ()
  loop : ∃ s, block.vtx.foldlM (connectTx C ctx (decide (getTotalBlocksEstimate P ≤ ctx.nHeight))
      (scriptFlags P ctx block)) (ConnectState.start view) = .ok s ∧
    checkReward P ctx block s = .ok () ∧ r.blockundo = s.vtxundo.tail ∧
    r.view = if fJustCheck then s.view else s.view.setBestBlock ctx.hashBlock

theorem connectBlock_ok {block : CBlock} {view : CoinsView} {fJustCheck : Bool} {r : ConnectResult}
    (hgenesis : block.getHash C ≠ P.hashGenesisBlock)
    (h : connectBlock P C ctx block view fJustCheck = .ok r) :
    BlockAccepted P C ctx block view fJustCheck r := by
  simp only [connectBlock, check_seq_ok, require_eq_ok, if_neg hgenesis] at h
  obtain ⟨hcheck, hbest, hbip30, h⟩ := h
  obtain ⟨s, hloop, h⟩ := check_bind_ok.mp h
  simp only [check_seq_ok, check_pure_ok] at h
  obtain ⟨hreward, -, h⟩ := h
  subst h
  exact ⟨(checkBlock_ok hcheck).1, by simpa using hbest, hbip30, s, hloop, hreward, rfl, rfl⟩

theorem BlockAccepted.updates {block : CBlock} {view : CoinsView} {r : ConnectResult}
    (h : BlockAccepted P C ctx block view false r) :
    ∃ last undos, updateAll C ctx.nHeight view block.vtx = some (last, undos) ∧
      r.blockundo = undos.tail ∧ r.view = last.setBestBlock ctx.hashBlock := by
  obtain ⟨s, hloop, -, hundo, hview⟩ := h.loop
  obtain ⟨undos, hall, hundos⟩ := connectTxs_ok hloop
  refine ⟨s.view, undos, hall, ?_, hview⟩
  rw [hundo, hundos]
  rfl

end Reddcoin
