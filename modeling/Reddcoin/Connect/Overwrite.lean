import Reddcoin.Connect.RoundTrip

/-!
# Transactions that repeat an id

Over any sequence of connected and disconnected blocks the view is compared with the outputs that the
active chain creates and does not spend.  `ConnectBlock` looks for repeated ids only while a block is
being created, so that nothing is overwritten is here a condition on each block that is connected; the
coinbase of a proof-of-stake block, whose one output is empty, is exempt.
-/

namespace Reddcoin

open List

open Utxo (Agree TxsFit)

variable {out : CTxOut} {k : Uint256} {vin : List CTxIn} {tx : CTransaction}

/-- A coinbase as a proof-of-stake block has it. -/
def StakeCoinbase (tx : CTransaction) : Prop :=
  tx.isCoinBase = true ∧ ∃ out, tx.vout = [out] ∧ out.isEmpty = true

/-- No transaction of the block, other than a proof-of-stake coinbase, has the id of an entry with unspent
outputs. -/
def NoDuplicate (C : Crypto) (view : CoinsView) (block : CBlock) : Prop :=
  ∀ tx ∈ block.vtx, ¬(block.isProofOfStake = true ∧ tx.isCoinBase = true) → (view.coins (C.txHash tx)).isPruned = true

/-- Each transaction of the block, other than a proof-of-stake coinbase, finds nothing unspent under its
id in the view to which it is applied. -/
def NeverOverwrites (C : Crypto) (view : CoinsView) (block : CBlock) : Prop :=
  ∀ pre tx post nHeight v undos, block.vtx = pre ++ tx :: post → updateAll C nHeight view pre = some (v, undos) →
    ¬(block.isProofOfStake = true ∧ tx.isCoinBase = true) → (v.coins (C.txHash tx)).isPruned = true

/-! ## Within one block -/

section

variable {C : Crypto} {U : Utxo}

theorem Utxo.of_spendAll_eq_some {n : Nat} (h : U.spendAll vin k n = some out) : U k n = some out := by
  induction vin generalizing U with
  | nil => exact h
  | cons txin vin ih =>
    have hspend := ih h
    unfold Utxo.spend at hspend
    split at hspend
    · simp at hspend
    · exact hspend

/-- An output that is there was created under its id or was there before. -/
theorem Utxo.created_of_applyTx {n : Nat} (h : U.applyTx C tx k n = some out) :
    (C.txHash tx = k ∧ CCoins.spendable? tx n = some out) ∨ U k n = some out := by
  unfold Utxo.applyTx Utxo.add at h
  by_cases hk : k = C.txHash tx
  · rw [if_pos hk] at h
    exact .inl ⟨hk.symm, h⟩
  · rw [if_neg hk] at h
    cases hcb : tx.isCoinBase with
    | true =>
      rw [hcb] at h
      exact .inr h
    | false =>
      rw [hcb] at h
      exact .inr (Utxo.of_spendAll_eq_some h)

theorem Utxo.created_of_applyTxs {txs : List CTransaction} {n : Nat} (h : U.applyTxs C txs k n = some out) :
    (∃ tx ∈ txs, C.txHash tx = k ∧ CCoins.spendable? tx n = some out) ∨ U k n = some out := by
  induction txs generalizing U with
  | nil => exact .inr h
  | cons tx txs ih =>
    rcases ih h with ⟨t, ht, hk⟩ | hout
    · exact .inl ⟨t, mem_cons_of_mem _ ht, hk⟩
    · exact (Utxo.created_of_applyTx hout).imp (fun hk => ⟨tx, mem_cons_self, hk⟩) id

theorem Utxo.applyTxs_append (pre post : List CTransaction) :
    U.applyTxs C (pre ++ post) = (U.applyTxs C pre).applyTxs C post :=
  foldl_append

/-- A transaction spends its first input, and only its own outputs can come in its place. -/
theorem Utxo.applyTx_first_input (hcb : tx.isCoinBase = false) {txin : CTxIn} (hvin : tx.vin = txin :: vin)
    (h : U.applyTx C tx txin.prevout.hash txin.prevout.n = some out) :
    C.txHash tx = txin.prevout.hash := by
  by_contra hne
  unfold Utxo.applyTx Utxo.add at h
  rw [if_neg fun heq => hne heq.symm, hcb, hvin] at h
  have h : (U.spend txin.prevout).spendAll vin txin.prevout.hash txin.prevout.n = some out := h
  have hspend : U.spend txin.prevout txin.prevout.hash txin.prevout.n = some out :=
    Utxo.of_spendAll_eq_some h
  simp [Utxo.spend] at hspend

/-- The first input of a transaction is available where the transaction is applied. -/
theorem Utxo.TxsFit.first_input {pre post : List CTransaction} {undos : List CTxUndo}
    (h : TxsFit C ∅ U (pre ++ tx :: post) undos) (hcb : tx.isCoinBase = false)
    {txin : CTxIn} (hvin : tx.vin = txin :: vin) :
    ∃ out, (U.applyTxs C pre) txin.prevout.hash txin.prevout.n = some out := by
  induction pre generalizing U undos with
  | nil =>
    cases h with
    | cons head tail =>
      have hfits := head hcb
      rw [hvin] at hfits
      cases hfits with
      | cons hfit _ => exact ⟨_, hfit.out (Set.notMem_empty _)⟩
  | cons t pre ih =>
    cases h with
    | cons head tail => exact ih tail

/-- What a block has to satisfy for its transactions to be distinct. -/
structure Distinguishable (C : Crypto) (U : Utxo) (cb : CTransaction) (rest : List CTransaction) :
    Prop where
  coinbase : cb.isCoinBase = true
  inputs : ∀ tx ∈ rest, tx.isCoinBase = false ∧ tx.vin ≠ []
  new : ∀ tx ∈ rest, U.Spent (C.txHash tx)
  collision_free : Set.InjOn C.txHash {tx | tx ∈ cb :: rest}

/-- A transaction cannot be applied twice: its first input would have to be created again, by a
transaction that is itself a repetition. -/
theorem Distinguishable.nodup {cb : CTransaction} {rest : List CTransaction}
    (hd : Distinguishable C U cb rest) {undos : List CTxUndo}
    (hfit : TxsFit C ∅ U (cb :: rest) undos) : (cb :: rest).Nodup := by
  -- The induction is on the prefix of the block that is already known to have no repetition.
  have hprefix : ∀ pre post, cb :: rest = pre ++ post → pre.Nodup := by
    intro pre
    induction pre using List.reverseRecOn with
    | nil => exact fun _ _ => nodup_nil
    | append_singleton pre tx ih =>
      intro post heq
      rw [append_assoc, singleton_append] at heq
      have hnodup := ih _ heq
      refine nodup_append.mpr ⟨hnodup, nodup_singleton tx, ?_⟩
      intro a ha b hb hab
      rw [mem_singleton.mp hb] at hab
      subst hab
      -- `a` stands in `pre` and again after it, so it is not the coinbase.
      obtain ⟨pre₁, pre₂, rfl⟩ := append_of_mem ha
      have hlater : ∀ t ∈ a :: pre₂, t ∈ rest := by
        intro t ht
        have hmem : t ∈ pre₂ ++ a :: post := by
          rcases mem_cons.mp ht with rfl | ht
          · exact mem_append_right _ mem_cons_self
          · exact mem_append_left _ ht
        rw [append_assoc, cons_append] at heq
        cases pre₁ with
        | nil =>
          rw [(List.cons.inj heq).2]
          exact hmem
        | cons c p =>
          rw [(List.cons.inj heq).2]
          exact mem_append_right _ (mem_cons_of_mem _ hmem)
      have hin : ∀ t ∈ pre₁ ++ a :: pre₂, t ∈ cb :: rest := by
        intro t ht
        rw [heq]
        exact mem_append_left _ ht
      obtain ⟨hcb, hvin⟩ := hd.inputs a (hlater a mem_cons_self)
      obtain ⟨txin, vin, hvin⟩ := exists_cons_of_ne_nil hvin
      rw [heq] at hfit
      obtain ⟨out', hsecond⟩ := hfit.first_input hcb hvin
      rw [append_assoc, cons_append] at hfit
      obtain ⟨out, hfirst⟩ := hfit.first_input hcb hvin
      rw [Utxo.applyTxs_append] at hsecond
      have hagain : ∃ t ∈ a :: pre₂, C.txHash t = txin.prevout.hash := by
        have hcreated : (∃ t ∈ pre₂, C.txHash t = txin.prevout.hash ∧ _) ∨ _ :=
          Utxo.created_of_applyTxs hsecond
        rcases hcreated with ⟨t, ht, hk, -⟩ | hout
        · exact ⟨t, mem_cons_of_mem _ ht, hk⟩
        · exact ⟨a, mem_cons_self, Utxo.applyTx_first_input hcb hvin hout⟩
      obtain ⟨t, ht, hk⟩ := hagain
      rcases Utxo.created_of_applyTxs hfirst with ⟨t', ht', hk', -⟩ | hout
      · have hsame : t' = t := hd.collision_free (hin t' (mem_append_left _ ht'))
          (hin t (mem_append_right _ ht)) (hk'.trans hk.symm)
        exact (nodup_append.mp hnodup).2.2 t' ht' t ht hsame
      · have hspent := hd.new t (hlater t ht)
        rw [hk] at hspent
        rw [hspent] at hout
        simp at hout
  exact hprefix (cb :: rest) [] (append_nil _).symm

end

/-- In a connected block that repeats no unspent id, no transaction repeats an earlier one either. -/
theorem BlockAccepted.neverOverwrites {P : CChainParams} {C : Crypto} {ctx : ConnectContext}
    {block : CBlock} {V : CoinsView} {r : ConnectResult}
    (hacc : BlockAccepted P C ctx block V false r) (hinj : Set.InjOn C.txHash {tx | tx ∈ block.vtx})
    (hdup : NoDuplicate C V block) : NeverOverwrites C V block := by
  obtain ⟨last, undos, hall, -, -⟩ := hacc.updates
  obtain ⟨cb, rest, hvtx, hcb, hrest⟩ := hacc.checked.coinbase
  have hspent : ∀ tx ∈ rest, V.utxo.Spent (C.txHash tx) := fun tx htx =>
    CoinsView.spent_iff.mpr (hdup tx (by rw [hvtx]; exact mem_cons_of_mem _ htx)
      fun h => by simp [hrest tx htx] at h)
  have hnodup : block.vtx.Nodup := by
    have hfit := (updateAll_ok (D := ∅) hall).2
    rw [hvtx] at hfit hinj ⊢
    exact Distinguishable.nodup ⟨hcb, fun tx htx => ⟨hrest tx htx,
      (hacc.checked.transactions tx (by rw [hvtx]; exact mem_cons_of_mem _ htx)).vin_ne_nil⟩,
      hspent, hinj⟩ hfit
  intro pre tx post nHeight v undos' heq hpre hexempt
  rw [← CoinsView.spent_iff, (updateAll_ok (D := ∅) hpre).1]
  intro n
  by_contra hne
  obtain ⟨out, hout⟩ := Option.ne_none_iff_exists'.mp hne
  have htx : tx ∈ block.vtx := by
    rw [heq]
    exact mem_append_right _ mem_cons_self
  rcases Utxo.created_of_applyTxs hout with ⟨t, ht, hk, -⟩ | hV
  · have hsame : t = tx := hinj (by
      show t ∈ block.vtx
      rw [heq]
      exact mem_append_left _ ht) htx hk
    rw [heq] at hnodup
    exact (nodup_append.mp hnodup).2.2 t ht tx mem_cons_self hsame
  · rw [CoinsView.spent_iff.mpr (hdup tx htx hexempt) n] at hV
    simp at hV

/-! ## Sequences of blocks -/

/-- The chainstate.  An index entry is given by the blocks from its own down to the first one after the
genesis block, and has its undo data once it has been written. -/
structure ChainState where
  view : CoinsView
  active : List CBlock
  undo : List CBlock → Option CBlockUndo

/-- Undo data is written only for an entry that has none. -/
def storeUndo (undo : List CBlock → Option CBlockUndo) (entry : List CBlock) (written : CBlockUndo) :
    List CBlock → Option CBlockUndo :=
  fun e => if e = entry then some ((undo entry).getD written) else undo e

/-- Undo data was there before, or it is what has been written for the entry. -/
theorem storeUndo_some {undo : List CBlock → Option CBlockUndo} {entry e : List CBlock} {written u : CBlockUndo}
    (h : storeUndo undo entry written e = some u) : undo e = some u ∨ (e = entry ∧ u = written) := by
  simp only [storeUndo] at h
  by_cases he : e = entry
  · rw [if_pos he] at h
    cases hold : undo entry with
    | some old =>
      rw [hold] at h
      rw [he, hold]
      exact .inl h
    | none =>
      rw [hold] at h
      exact .inr ⟨he, (Option.some.inj h).symm⟩
  · rw [if_neg he] at h
    exact .inl h

section

variable (P : CChainParams) (C : Crypto)

/-- The tip is extended by a block with an index entry of its own, and the view is flushed: what the next
block sees are the same entries up to pruned ones. -/
inductive ConnectStep (s : ChainState) (block : CBlock) : ChainState → Prop where
  | mk {ctx : ConnectContext} {r : ConnectResult} {view : CoinsView} (received : ctx.phashBlock = true)
      (hash : ctx.hashBlock = block.getHash C) (not_genesis : block.getHash C ≠ P.hashGenesisBlock)
      (connected : connectBlock P C ctx block s.view false = .ok r) (same : SameCoins view r.view)
      (best : view.getBestBlock = r.view.getBestBlock) :
      ConnectStep s block
        { view := view, active := block :: s.active,
          undo := storeUndo s.undo (block :: s.active) r.blockundo }

/-- The tip is disconnected with the undo data of its entry, and the view is flushed. -/
inductive DisconnectStep (s : ChainState) : ChainState → Prop where
  | mk {ctx : ConnectContext} {block : CBlock} {rest : List CBlock} {written : CBlockUndo}
      {W view : CoinsView} (hash : ctx.hashBlock = block.getHash C) (active : s.active = block :: rest)
      (undo : s.undo (block :: rest) = some written)
      (disconnected : disconnectBlock C ctx block written s.view = .ok (W, true))
      (same : SameCoins view W) (best : view.getBestBlock = W.getBestBlock) :
      DisconnectStep s { view := view, active := rest, undo := s.undo }

/-- The states reached from a chainstate without coins by connecting blocks with transactions from `T` that
repeat no unspent id, and by disconnecting blocks. -/
inductive Reached (T : Set CTransaction) : ChainState → Prop where
  | start {view : CoinsView} (fresh : ∀ k, (view.coins k).isPruned = true) :
      Reached T { view := view, active := [], undo := fun _ => none }
  | connect {s s' : ChainState} {block : CBlock} (prev : Reached T s)
      (txs : ∀ tx ∈ block.vtx, tx ∈ T) (no_duplicate : NoDuplicate C s.view block)
      (step : ConnectStep P C s block s') : Reached T s'
  | disconnect {s s' : ChainState} (prev : Reached T s) (step : DisconnectStep C s s') : Reached T s'

/-- The outputs that a chain creates and does not spend. -/
def chainUtxo : List CBlock → Utxo
  | [] => fun _ _ => none
  | block :: rest => (chainUtxo rest).applyTxs C block.vtx

/-- The ids under which an output may be overwritten or left behind. -/
def stakeCoinbaseIds (T : Set CTransaction) : Set Uint256 :=
  {k | ∃ tx ∈ T, StakeCoinbase tx ∧ C.txHash tx = k}

/-- What the undo data of an entry is good for. -/
structure EntryFits (D : Set Uint256) (path : List CBlock) (block : CBlock) (written : CBlockUndo)
    (cb : CTransaction) (rest : List CTransaction) : Prop where
  vtx : block.vtx = cb :: rest
  coinbase : cb.isCoinBase = true
  inputs : ∀ tx ∈ rest, tx.isCoinBase = false
  fits : TxsFit C D ((chainUtxo C path).applyTx C cb) rest written
  stake : block.isProofOfStake = true → C.txHash cb ∈ D
  spent : ∀ tx ∈ block.vtx, C.txHash tx ∉ D → (chainUtxo C path).Spent (C.txHash tx)

structure ChainState.Inv (D : Set Uint256) (T : Set CTransaction) (s : ChainState) : Prop where
  agree : Agree D (chainUtxo C s.active) s.view.utxo
  entries : ∀ block path written, s.undo (block :: path) = some written →
    ∃ cb rest, EntryFits C D path block written cb rest
  txs : ∀ block ∈ s.active, ∀ tx ∈ block.vtx, tx ∈ T

end

section

variable {P : CChainParams} {C : Crypto} {T : Set CTransaction} {s s' : ChainState} {block : CBlock}

theorem connectStep_inv (hs : s.Inv C (stakeCoinbaseIds C T) T) (htxs : ∀ tx ∈ block.vtx, tx ∈ T)
    (hdup : NoDuplicate C s.view block) (hstep : ConnectStep P C s block s') :
    s'.Inv C (stakeCoinbaseIds C T) T := by
  obtain ⟨received, hash, hgenesis, hconnect, hsame, hbest⟩ := hstep
  have hacc := connectBlock_ok hgenesis hconnect
  obtain ⟨cb, rest, hvtx, hcb, hrest⟩ := hacc.checked.coinbase
  have hstake : block.isProofOfStake = true → C.txHash cb ∈ stakeCoinbaseIds C T := by
    intro hpos
    obtain ⟨cb', out, stake, rest', hvtx', hvout, hempty, -⟩ := hacc.checked.stake hpos
    have hcb' : cb' = cb := (List.cons.inj (hvtx'.symm.trans hvtx)).1
    subst hcb'
    exact ⟨cb', htxs cb' (by rw [hvtx]; exact mem_cons_self), ⟨hcb, out, hvout, hempty⟩, rfl⟩
  have hspent : ∀ tx ∈ block.vtx, C.txHash tx ∉ stakeCoinbaseIds C T → (chainUtxo C s.active).Spent (C.txHash tx) := by
    intro tx htx hd n
    rw [hs.agree _ hd n]
    refine CoinsView.spent_iff.mpr (hdup tx htx fun hexempt => hd ?_) n
    rw [hvtx] at htx
    rcases mem_cons.mp htx with rfl | htx
    · exact hstake hexempt.1
    · simp [hrest tx htx] at hexempt
  refine ⟨?_, fun b path written hundo => ?_, fun b hb => ?_⟩
  · show Agree _ ((chainUtxo C s.active).applyTxs C block.vtx) _
    rw [hsame.utxo_eq, hacc.utxo_eq]
    exact hs.agree.applyTxs block.vtx
  · rcases storeUndo_some hundo with hold | ⟨hentry, rfl⟩
    · exact hs.entries b path written hold
    · obtain ⟨rfl, rfl⟩ := List.cons.inj hentry
      exact ⟨cb, rest, hvtx, hcb, hrest, TxsFit.agree (hs.agree.applyTx cb).symm (hacc.undo_fits hvtx), hstake, hspent⟩
  · rcases mem_cons.mp hb with rfl | hb
    · exact htxs
    · exact hs.txs b hb

theorem disconnectStep_inv {D : Set Uint256} (hs : s.Inv C D T) (hstep : DisconnectStep C s s') :
    s'.Inv C D T := by
  obtain @⟨ctx, block, rest, written, W, view, hash, hactive, hundo, hdis, hsame, hbest⟩ := hstep
  obtain ⟨cb, txs, hentry⟩ := hs.entries block rest written hundo
  have hbestBlock : ctx.hashBlock = s.view.getBestBlock := by
    simp only [disconnectBlock, check_seq_ok, require_eq_ok, decide_eq_true_eq] at hdis
    exact hdis.1
  have hag : Agree D ((chainUtxo C rest).applyTxs C block.vtx) s.view.utxo := by
    have hag := hs.agree
    rw [hactive] at hag
    exact hag
  have hview : Agree D (chainUtxo C rest) W.utxo := by
    cases hpos : block.isProofOfStake with
    | false =>
      obtain ⟨W', clean, hW', hagW⟩ := disconnectBlock_work hentry.vtx hentry.coinbase hentry.inputs
        hpos hbestBlock hentry.fits hentry.spent hag
      have hWeq := (Prod.mk.inj (Except.ok.inj (hdis.symm.trans hW'))).1
      rw [hWeq]
      exact hagW
    | true =>
      have hcbid := hentry.stake hpos
      obtain ⟨W', clean, hW', hagW⟩ := disconnectBlock_stake hentry.vtx hentry.inputs hpos hbestBlock
        hentry.fits (fun tx htx hd =>
          (hentry.spent tx (by rw [hentry.vtx]; exact mem_cons_of_mem _ htx) hd).applyTx
            fun heq => hd (heq ▸ hcbid)) hag
      have hWeq := (Prod.mk.inj (Except.ok.inj (hdis.symm.trans hW'))).1
      rw [hWeq]
      intro k hk n
      have hout := hagW k hk n
      have hne : k ≠ C.txHash cb := fun heq => hk (heq ▸ hcbid)
      simp only [Utxo.applyTx, Utxo.add, if_neg hne, hentry.coinbase, if_true] at hout
      exact hout
  refine ⟨?_, hs.entries, fun b hb => hs.txs b (by rw [hactive]; exact mem_cons_of_mem _ hb)⟩
  show Agree D (chainUtxo C rest) view.utxo
  rw [hsame.utxo_eq]
  exact hview

theorem Reached.inv (h : Reached P C T s) : s.Inv C (stakeCoinbaseIds C T) T := by
  induction h with
  | start fresh =>
    refine ⟨fun k _ n => ?_, fun _ _ _ hundo => by simp at hundo, fun b hb => by simp at hb⟩
    exact (CCoins.isPruned_iff.mp (fresh k) n).symm
  | connect prev txs no_duplicate step ih => exact connectStep_inv ih txs no_duplicate step
  | disconnect prev step ih => exact disconnectStep_inv ih step

/-- Where an unspent output of a chain comes from. -/
theorem chainUtxo_created {path : List CBlock} {n : Nat} (h : chainUtxo C path k n = some out) :
    ∃ block ∈ path, ∃ tx ∈ block.vtx, C.txHash tx = k ∧ CCoins.spendable? tx n = some out := by
  induction path with
  | nil => simp [chainUtxo] at h
  | cons block path ih =>
    rcases Utxo.created_of_applyTxs h with htx | hout
    · exact ⟨block, mem_cons_self, htx⟩
    · obtain ⟨b, hb, htx⟩ := ih hout
      exact ⟨b, mem_cons_of_mem _ hb, htx⟩

end

/-! ## A repeated coinbase -/

namespace Example

/-- A block of a coinbase alone, on the block with the given hash. -/
def coinbaseBlock (hashPrevBlock : Uint256) (nNonce : Nat) : CBlock :=
  { block 2 [coinbaseTx [keyOut 20]] [] with hashPrevBlock := hashPrevBlock, nNonce := nNonce }

def freshView : CoinsView :=
  CoinsView.over (fun _ => none) 7050

def freshState : ChainState :=
  { view := freshView, active := [], undo := fun _ => none }

def secondContext : ConnectContext :=
  { context with nHeight := 401, hashBlock := 7101, hashPrevBlock := 7100 }

end Example

open Example

end Reddcoin
