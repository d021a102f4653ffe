import Reddcoin.Connect.Utxo

/-!
# Connecting and disconnecting a block

`DisconnectBlock` replays the undo records in reverse.  The invariant of the replay is that the view
agrees with the one before transaction `i` on every transaction id that none of the transactions
before `i` carries.
-/

namespace Reddcoin

open List

open Utxo (Agree Fits FitsAll TxsFit)

variable {s : CoinsView × Bool} {D : Set Uint256}

/-! ## Restoring inputs -/

theorem getElem?_resize (outs : List CTxOut) (n m : Nat) :
    ((outs ++ List.replicate (n + 1 - outs.length) CTxOut.null)[m]?).filter (fun o => !o.isNull) =
      (outs[m]?).filter fun o => !o.isNull := by
  by_cases hm : m < outs.length
  · rw [getElem?_append_left hm]
  · rw [getElem?_append_right (by omega), getElem?_eq_none (by omega : outs.length ≤ m)]
    by_cases hr : m - outs.length < n + 1 - outs.length
    · rw [getElem?_replicate_of_lt hr]
      simp [Option.filter]
    · rw [getElem?_eq_none (by simp; omega)]

theorem CCoins.out?_setOut (c : CCoins) {n : Nat} {out : CTxOut} (hout : out.isNull = false)
    (m : Nat) : (c.setOut n out).out? m = if m = n then some out else c.out? m := by
  unfold CCoins.setOut CCoins.out?
  have hlen : n < (c.vout ++ List.replicate (n + 1 - c.vout.length) CTxOut.null).length := by
    rw [length_append, length_replicate]
    omega
  by_cases hm : m = n
  · subst hm
    rw [getElem?_set_self hlen, if_pos rfl]
    simp [Option.filter, hout]
  · rw [getElem?_set_ne (Ne.symm hm), if_neg hm]
    exact getElem?_resize c.vout n m

/-- Restoring an input undoes spending it, wherever the record fits. -/
theorem restoreInput_agree {U : Utxo} {txin : CTxIn} {undo : CTxInUndo} (hfit : Fits D U txin undo)
    (hag : Agree D (U.spend txin.prevout) s.1.utxo) :
    Agree D U (restoreInput s txin undo).1.utxo := by
  intro k hk n
  have hspent := hag k hk
  unfold Utxo.spend at hspent
  show U k n = (s.1.modifyCoins txin.prevout.hash _).utxo k n
  rw [CoinsView.utxo_modifyCoins]
  by_cases hkey : k = txin.prevout.hash
  · subst hkey
    rw [if_pos rfl]
    unfold CCoins.restore
    rw [CCoins.out?_setOut _ hfit.not_null]
    by_cases hn : n = txin.prevout.n
    · rw [hn, hfit.out hk, if_pos rfl]
    · have hother := hspent n
      rw [if_neg (fun h => hn h.2)] at hother
      rw [if_neg hn]
      by_cases hheight : undo.nHeight ≠ 0
      · rw [if_pos hheight, hfit.last hk hheight n hn]
        exact (CCoins.out?_clear (s.1.coins txin.prevout.hash) n).symm
      · rw [if_neg hheight]
        exact hother
  · rw [if_neg hkey, ← hspent n, if_neg (fun h => hkey h.1)]

theorem restoreInputs_agree {U : Utxo} {vin : List CTxIn}
    {undos : CTxUndo} (hfits : FitsAll D U vin undos) (hag : Agree D (U.spendAll vin) s.1.utxo) :
    Agree D U (restoreInputs s (vin.zip undos)).1.utxo := by
  induction hfits with
  | nil U => exact hag
  | cons head tail ih => exact restoreInput_agree head (ih hag)

/-! ## Undoing transactions -/

theorem removeOutputs_utxo (C : Crypto) (nHeight : Nat) (s : CoinsView × Bool) (tx : CTransaction)
    (k : Uint256) (n : Nat) :
    (removeOutputs C nHeight s tx).1.utxo k n = if k = C.txHash tx then none else s.1.utxo k n := by
  show (s.1.modifyCoins (C.txHash tx) _).utxo k n = _
  rw [CoinsView.utxo_modifyCoins]
  by_cases hk : k = C.txHash tx
  · rw [if_pos hk, if_pos hk]
    exact CCoins.out?_clear _ n
  · rw [if_neg hk, if_neg hk]

section

variable {C : Crypto} {D : Set Uint256} {U : Utxo} {s : CoinsView × Bool} {tx : CTransaction}
  (nHeight : Nat)

/-- With its outputs removed, the view agrees with the map from which only the inputs were taken. -/
theorem removeOutputs_agree (hspent : C.txHash tx ∉ D → U.Spent (C.txHash tx))
    (hag : Agree (insert (C.txHash tx) D) (U.add (C.txHash tx) tx) s.1.utxo) :
    Agree D U (removeOutputs C nHeight s tx).1.utxo := by
  intro k hk n
  rw [removeOutputs_utxo]
  by_cases hkey : k = C.txHash tx
  · subst hkey
    rw [if_pos rfl]
    exact hspent hk n
  · have hkeep := hag k (fun h => (Set.mem_insert_iff.mp h).elim hkey hk) n
    unfold Utxo.add at hkeep
    rw [if_neg hkey] at hkeep
    rw [if_neg hkey, hkeep]

theorem disconnectTx_coinbase (hcb : tx.isCoinBase)
    (hspent : C.txHash tx ∉ D → U.Spent (C.txHash tx))
    (hag : Agree (insert (C.txHash tx) D) (U.applyTx C tx) s.1.utxo) :
    ∃ s', disconnectTx C nHeight s tx none = .ok s' ∧ Agree D U s'.1.utxo := by
  refine ⟨_, rfl, removeOutputs_agree nHeight hspent ?_⟩
  unfold Utxo.applyTx at hag
  rw [if_pos hcb] at hag
  exact hag

theorem disconnectTx_inputs {txundo : CTxUndo} (hcb : tx.isCoinBase = false)
    (hfits : FitsAll D U tx.vin txundo) (hspent : C.txHash tx ∉ D → U.Spent (C.txHash tx))
    (hag : Agree (insert (C.txHash tx) D) (U.applyTx C tx) s.1.utxo) :
    ∃ s', disconnectTx C nHeight s tx (some txundo) = .ok s' ∧ Agree D U s'.1.utxo := by
  unfold Utxo.applyTx at hag
  rw [hcb] at hag
  have hremoved := removeOutputs_agree nHeight (fun hd => (hspent hd).spendAll tx.vin) hag
  refine ⟨_, ?_, restoreInputs_agree hfits hremoved⟩
  have hlen : decide (txundo.length = tx.vin.length) = true := by simpa using hfits.length_eq
  unfold disconnectTx
  simp only [hlen]
  rfl

end

/-- A transaction keeps everything under other ids spent. -/
theorem Utxo.Spent.applyTx {C : Crypto} {U : Utxo} {k : Uint256} (h : U.Spent k)
    {tx : CTransaction} (hne : k ≠ C.txHash tx) : (U.applyTx C tx).Spent k := by
  intro n
  unfold Utxo.applyTx Utxo.add
  rw [if_neg hne]
  cases tx.isCoinBase with
  | true => exact h n
  | false => exact h.spendAll tx.vin n

/-- Undoing a list of transactions with inputs, from a view that agrees with the map they lead to. -/
theorem disconnectTxs_agree {C : Crypto} {U : Utxo} (nHeight : Nat) {txs : List CTransaction} {undos : List CTxUndo}
    (hfit : TxsFit C D U txs undos) (hcb : ∀ tx ∈ txs, tx.isCoinBase = false)
    (hspent : ∀ tx ∈ txs, C.txHash tx ∉ D → U.Spent (C.txHash tx))
    (hag : Agree (D ∪ {k | ∃ tx ∈ txs, k = C.txHash tx}) (U.applyTxs C txs) s.1.utxo) :
    ∃ s', disconnectTxs C nHeight s (txs.zip (undos.map some)) = .ok s' ∧ Agree D U s'.1.utxo := by
  induction txs generalizing D U undos with
  | nil =>
    cases hfit
    exact ⟨s, rfl, hag.mono (by simp)⟩
  | cons tx txs ih =>
    cases hfit with
    | cons head tail =>
      rename_i txundo undos
      have hsub : D ⊆ insert (C.txHash tx) D := Set.subset_insert _ _
      have hids : D ∪ {k | ∃ t ∈ tx :: txs, k = C.txHash t} ⊆
          insert (C.txHash tx) D ∪ {k | ∃ t ∈ txs, k = C.txHash t} := by
        intro k hk
        rcases hk with hk | ⟨t, ht, rfl⟩
        · exact .inl (hsub hk)
        · rcases mem_cons.mp ht with rfl | ht
          · exact .inl (Set.mem_insert _ _)
          · exact .inr ⟨t, ht, rfl⟩
      -- The id of `tx` joins the ids about which nothing is known until `tx` itself is undone.
      obtain ⟨mid, hmid, hagmid⟩ := ih (tail.mono hsub)
        (fun t ht => hcb t (mem_cons_of_mem _ ht))
        (fun t ht hd => (hspent t (mem_cons_of_mem _ ht) fun h => hd (hsub h)).applyTx
          fun heq => hd (by rw [heq]; exact Set.mem_insert _ _))
        (hag.mono hids)
      have htx := hcb tx mem_cons_self
      obtain ⟨s', hs', hags'⟩ := disconnectTx_inputs nHeight htx (head htx)
        (hspent tx mem_cons_self) hagmid
      refine ⟨s', ?_, hags'⟩
      show (disconnectTxs C nHeight s (txs.zip (undos.map some)) >>= fun s =>
        disconnectTx C nHeight s tx (some txundo)) = .ok s'
      rw [hmid]
      exact hs'

/-! ## The block -/

theorem mapM_reread (undos : CTxUndo) :
    undos.mapM CTxInUndo.reread = some (undos.map CTxInUndo.onDisk) := by
  have hreread : CTxInUndo.reread = fun undo => pure undo.onDisk := funext CTxInUndo.reread_eq
  rw [hreread, mapM_pure]
  rfl

theorem reread_blockUndo (written : CBlockUndo) :
    CBlockUndo.reread written = some (written.map fun txundo => txundo.map CTxInUndo.onDisk) := by
  have hreread : (fun txundo : CTxUndo => txundo.mapM CTxInUndo.reread) =
      fun txundo => pure (txundo.map CTxInUndo.onDisk) := funext mapM_reread
  unfold CBlockUndo.reread
  rw [hreread, mapM_pure]
  rfl

theorem getBestBlock_setBestBlock {v : CoinsView} {h : Uint256} (hne : h ≠ 0) :
    (v.setBestBlock h).getBestBlock = h := by
  simp [CoinsView.getBestBlock, CoinsView.setBestBlock, hne]

section

variable {C : Crypto} {ctx : ConnectContext} {block : CBlock} {written : CBlockUndo}
  {view : CoinsView} {D : Set Uint256} {U : Utxo} {cb : CTransaction} {rest : List CTransaction}

/-- `DisconnectBlock` comes down to undoing the transactions it visits. -/
theorem disconnectBlock_of_txs (hbest : ctx.hashBlock = view.getBestBlock)
    (hlen : written.length + 1 = block.vtx.length) (hs : disconnectTxs C ctx.nHeight (view, true) (undoneTxs block
      (written.map fun txundo => txundo.map CTxInUndo.onDisk)) = .ok s) :
    disconnectBlock C ctx block written view = .ok (s.1.setBestBlock ctx.hashPrevBlock, s.2) := by
  unfold disconnectBlock
  rw [reread_blockUndo]
  simp only [hbest, decide_true, length_map, hlen, hs, require, if_true]
  rfl

theorem disconnectBlock_ok {W : CoinsView} {clean : Bool}
    (h : disconnectBlock C ctx block written view = .ok (W, clean)) :
    ∃ s : CoinsView × Bool, disconnectTxs C ctx.nHeight (view, true) (undoneTxs block
        (written.map fun txundo => txundo.map CTxInUndo.onDisk)) = .ok s ∧
      W = s.1.setBestBlock ctx.hashPrevBlock ∧ clean = s.2 := by
  simp only [disconnectBlock, reread_blockUndo, check_seq_ok] at h
  obtain ⟨-, -, h⟩ := h
  obtain ⟨s, hs, h⟩ := check_bind_ok.mp h
  obtain ⟨hview, hclean⟩ := Prod.mk.inj (check_pure_ok.mp h)
  exact ⟨s, hs, hview.symm, hclean.symm⟩

/-- A proof-of-work block is undone as a whole. -/
theorem disconnectBlock_work (hvtx : block.vtx = cb :: rest) (hcb : cb.isCoinBase)
    (hrest : ∀ tx ∈ rest, tx.isCoinBase = false) (hpos : block.isProofOfStake = false)
    (hbest : ctx.hashBlock = view.getBestBlock) (hfit : TxsFit C D (U.applyTx C cb) rest written)
    (hspent : ∀ tx ∈ block.vtx, C.txHash tx ∉ D → U.Spent (C.txHash tx))
    (hag : Agree D (U.applyTxs C block.vtx) view.utxo) :
    ∃ (W : CoinsView) (clean : Bool), disconnectBlock C ctx block written view =
      .ok (W.setBestBlock ctx.hashPrevBlock, clean) ∧ Agree D U W.utxo := by
  have hlen : written.length + 1 = block.vtx.length := by rw [hvtx, hfit.length_eq]; rfl
  rw [hvtx] at hag hspent
  have hsub : D ⊆ insert (C.txHash cb) D := Set.subset_insert _ _
  obtain ⟨mid, hmid, hagmid⟩ := disconnectTxs_agree ctx.nHeight
    (D := insert (C.txHash cb) D) (s := (view, true)) (hfit.onDisk.mono hsub) hrest
    (fun t ht hd => (hspent t (mem_cons_of_mem _ ht) fun h => hd (hsub h)).applyTx
      fun heq => hd (by rw [heq]; exact Set.mem_insert _ _))
    (hag.mono fun k hk => .inl (hsub hk))
  obtain ⟨s, hs, hags⟩ := disconnectTx_coinbase ctx.nHeight hcb (hspent cb mem_cons_self) hagmid
  refine ⟨s.1, s.2, disconnectBlock_of_txs hbest hlen ?_, hags⟩
  unfold undoneTxs
  rw [hvtx, hpos]
  show (disconnectTxs C ctx.nHeight (view, true) (rest.zip ((written.map fun txundo =>
    txundo.map CTxInUndo.onDisk).map some)) >>= fun s => disconnectTx C ctx.nHeight s cb none) = _
  rw [hmid]
  exact hs

/-- A proof-of-stake block is undone down to its coinbase, which stays applied. -/
theorem disconnectBlock_stake (hvtx : block.vtx = cb :: rest)
    (hrest : ∀ tx ∈ rest, tx.isCoinBase = false) (hpos : block.isProofOfStake)
    (hbest : ctx.hashBlock = view.getBestBlock) (hfit : TxsFit C D (U.applyTx C cb) rest written)
    (hspent : ∀ tx ∈ rest, C.txHash tx ∉ D → (U.applyTx C cb).Spent (C.txHash tx))
    (hag : Agree D (U.applyTxs C block.vtx) view.utxo) :
    ∃ (W : CoinsView) (clean : Bool), disconnectBlock C ctx block written view =
      .ok (W.setBestBlock ctx.hashPrevBlock, clean) ∧ Agree D (U.applyTx C cb) W.utxo := by
  have hlen : written.length + 1 = block.vtx.length := by rw [hvtx, hfit.length_eq]; rfl
  rw [hvtx] at hag
  obtain ⟨s, hs, hags⟩ := disconnectTxs_agree ctx.nHeight (D := D) (s := (view, true)) hfit.onDisk
    hrest hspent (hag.mono fun k hk => .inl hk)
  refine ⟨s.1, s.2, disconnectBlock_of_txs hbest hlen ?_, hags⟩
  unfold undoneTxs
  rw [hvtx, hpos]
  exact hs

section

variable {P : CChainParams} {V : CoinsView} {r : ConnectResult} (hacc : BlockAccepted P C ctx block V false r)

include hacc

/-- The undo data that `ConnectBlock` wrote fits the view it was given. -/
theorem BlockAccepted.undo_fits (hvtx : block.vtx = cb :: rest) :
    TxsFit C D (V.utxo.applyTx C cb) rest r.blockundo := by
  obtain ⟨last, undos, hall, hundo, -⟩ := hacc.updates
  have hfits := (updateAll_ok (D := D) hall).2
  rw [hvtx] at hfits
  cases hfits with
  | cons head tail =>
    rw [hundo]
    exact tail

theorem BlockAccepted.utxo_eq : r.view.utxo = V.utxo.applyTxs C block.vtx := by
  obtain ⟨last, undos, hall, -, hview⟩ := hacc.updates
  rw [hview, ← (updateAll_ok (D := ∅) hall).1]
  rfl

theorem BlockAccepted.getBestBlock (hhash : ctx.hashBlock ≠ 0) : r.view.getBestBlock = ctx.hashBlock := by
  obtain ⟨last, undos, -, -, hview⟩ := hacc.updates
  rw [hview, getBestBlock_setBestBlock hhash]

end

end

/-- The outputs of a proof-of-stake coinbase: one, of value 0, that anyone may spend. -/
theorem spendable?_empty {cb : CTransaction} {out : CTxOut} (hvout : cb.vout = [out])
    (hempty : out.isEmpty) (n : Nat) :
    CCoins.spendable? cb n = if n = 0 then some out else none := by
  unfold CTxOut.isEmpty at hempty
  simp only [Bool.and_eq_true, decide_eq_true_eq, List.isEmpty_iff] at hempty
  unfold CCoins.spendable?
  rw [hvout]
  by_cases hn : n = 0
  · subst hn
    simp [Option.filter, CTxOut.isNull, isUnspendable, hempty.1, hempty.2]
  · rw [List.getElem?_eq_none (by simp; omega), if_neg hn]
    rfl

namespace Example

def crypto : Crypto where
  txHash := fun tx => 1 + tx.nTime + 1000 * tx.vout.length + 100000 * (tx.vin.map fun txin => txin.prevout.n + 1).sum
  headerHash := fun h => 7000 + h.nTime + h.nNonce
  powHash := fun _ => 0
  merkleHash := fun a b => 3 * a + b
  selectionHash := fun a b => 5 * a + b
  kernelHash := fun a b c d e f => a + b + c + d + e + f
  verifyKey := fun _ _ _ => true
  verifyScript := fun _ _ _ _ _ => none

def params : CChainParams where
  hashGenesisBlock := 1
  proofOfWorkLimit := 2 ^ 236
  skipProofOfWorkCheck := false
  lastProofOfWorkHeight := 349
  maxReorganizationDepth := 200
  devKey := []
  toCheckBlockUpgradeMajority := 1000
  toCheckBlockUpgradeMajority_4 := 1000
  toCheckBlockUpgradeMajority_5 := 1000
  rejectBlockOutdatedMajority := 950
  rejectBlockOutdatedMajority_4 := 950
  rejectBlockOutdatedMajority_5 := 950
  enforceBlockUpgradeMajority_5 := 950
  stakeMinAge := 8 * 60 * 60
  checkpoints := []

def context : ConnectContext where
  nHeight := 400
  hashBlock := 7100
  phashBlock := true
  hashPrevBlock := 7050
  versions := [3]
  nMoneySupplyPrev := 0
  nAdjustedTime := 1000
  fThreads := false
  getCoinAge := fun _ => 100
  inflationAdjustment := id
  posvShare := id

def emptyOut : CTxOut :=
  { nValue := 0, scriptPubKey := [] }

def keyOut (nValue : Int) : CTxOut :=
  { nValue := nValue, scriptPubKey := payToPubKey (List.replicate 33 2) }

def coinbaseTx (vout : List CTxOut) : CTransaction :=
  { nVersion := 2, vin := [{ prevout := COutPoint.null, scriptSig := [1, 2], nSequence := 0 }],
    vout := vout, nLockTime := 0, nTime := 100 }

def spendTx (hash : Uint256) (n : Nat) (vout : List CTxOut) : CTransaction :=
  { nVersion := 2, vin := [{ prevout := { hash := hash, n := n }, scriptSig := [], nSequence := 0 }],
    vout := vout, nLockTime := 0, nTime := 100 }

def block (nVersion : Int) (vtx : List CTransaction) (vchBlockSig : List UInt8) : CBlock :=
  let unsealed : CBlock :=
    { nVersion := nVersion, hashPrevBlock := 7050, hashMerkleRoot := 0, nTime := 100, nBits := 0,
      nNonce := 0, vtx := vtx, vchBlockSig := vchBlockSig }
  { unsealed with hashMerkleRoot := (unsealed.buildMerkleTree crypto).1 }

/-- A view in which transaction 500 has the given entry and nothing else is unspent. -/
def view (coins : CCoins) : CoinsView :=
  CoinsView.over (fun k => if k = 500 then some coins else none) 7050

def coins : CCoins :=
  { CCoins.new with nHeight := 5, nVersion := 2, vout := [keyOut 50] }

def workBlock : CBlock :=
  block 2 [coinbaseTx [keyOut 20], spendTx 500 0 [keyOut 40, keyOut 10]] []

def stakeBlock : CBlock :=
  block 3 [coinbaseTx [emptyOut], spendTx 500 0 [emptyOut, keyOut 50]] [1]

end Example

open Example

end Reddcoin
