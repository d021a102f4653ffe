import Reddcoin.Mempool.CheckPasses

/-!
# The pool keeps up with the chain

Accepting a transaction, connecting a block and disconnecting one keep the pool in agreement with the coins.  While a
block is disconnected, an input of the pool may also be an output of a transaction of the block that has not gone back
to the pool yet.
-/

namespace Reddcoin

open List

section

variable {C : Crypto} {T : Set CTransaction} {pool pool' : CTxMemPool} {v v' : CoinsView} {tx : CTransaction}
    {entry : CTxMemPoolEntry} {ctx : ConnectContext} {nMemPoolHeight : Nat}
  {nSpendHeight : Nat}

/-! ## Accepting -/

theorem coins_over (base : Uint256 → Option CCoins) (baseBestBlock k : Uint256) :
    (CoinsView.over base baseBestBlock).coins k = (base k).getD CCoins.new := by
  have hempty : CCoinsViewCache.new.cacheCoins.lookup k = none := AList.lookup_empty k
  show (CCoinsViewCache.new.modifierEntry k (base k)).coins = _
  unfold CCoinsViewCache.modifierEntry
  rw [hempty]
  cases base k <;> rfl

theorem coins_viewOver_pool {k : Uint256} (hin : pool.mapTx.lookup k = some entry) :
    (pool.viewOver v).coins k = CCoins.fromTx entry.tx MEMPOOL_HEIGHT := by
  rw [CTxMemPool.viewOver, coins_over, CTxMemPool.getCoins, hin]
  rfl

theorem coins_viewOver_chain {k : Uint256} (hout : pool.mapTx.lookup k = none)
    (hlive : ((pool.viewOver v).coins k).isPruned = false) : (pool.viewOver v).coins k = v.coins k := by
  rw [CTxMemPool.viewOver, coins_over, CTxMemPool.getCoins, hout] at hlive ⊢
  rcases CoinsView.accessCoins_eq (v := v) k with hsome | ⟨hnone, -⟩
  · rw [hsome] at hlive ⊢
    cases hpruned : (v.coins k).isPruned with
    | true => simp [Option.filter, hpruned] at hlive
    | false => simp [Option.filter, hpruned]
  · rw [hnone] at hlive
    simp at hlive

theorem Truthful.viewOver (hv : Truthful C T v) (hinv : pool.Inv C)
    (hvet : ∀ hash entry, pool.mapTx.lookup hash = some entry → Vetted C T entry.tx) :
    Truthful C T (pool.viewOver v) := by
  intro k hlive
  cases hin : pool.mapTx.lookup k with
  | some entry =>
    have hentry := hvet k entry hin
    rw [coins_viewOver_pool hin]
    obtain rfl := hinv.keyed k entry hin
    exact ⟨entry.tx, .fromTx hentry.mem hentry.grounded MEMPOOL_HEIGHT⟩
  | none =>
    have hcoins := coins_viewOver_chain hin hlive
    rw [hcoins] at hlive ⊢
    exact hv k hlive

/-- What `AcceptToMemoryPool` has established. -/
structure AcceptedTx (R : Relay) (pool : CTxMemPool) (tx : CTransaction) (pool' : CTxMemPool) : Prop where
  checked : checkTransaction tx = .ok ()
  coinBase : tx.isCoinBase = false
  coinStake : tx.isCoinStake = false
  absent : pool.mapTx.lookup (R.C.txHash tx) = none
  unspent : ∀ txin ∈ tx.vin, pool.mapNextTx.lookup txin.prevout = none
  fresh : R.haveCoins (R.C.txHash tx) = false
  inView : R.checkInView pool tx = .ok ()
  added : pool' = pool.addUnchecked (R.C.txHash tx) (.ofTx tx)

theorem acceptToMemoryPool_accepted {R : Relay} (h : acceptToMemoryPool R pool tx = .accepted pool') :
    AcceptedTx R pool tx pool' := by
  unfold acceptToMemoryPool at h
  cases hloose : checkLooseTx R tx with
  | error stop =>
    rw [hloose] at h
    cases h
  | ok u =>
    simp only [hloose] at h
    split_ifs at h with hhas hconflict hhave hmissing
    cases hview : R.checkInView pool tx with
    | error stop =>
      simp only [hview] at h
      cases h
    | ok u' =>
      simp only [hview] at h
      simp only [checkLooseTx, check_seq_ok, require_eq_ok, Bool.not_eq_true'] at hloose
      obtain ⟨hchecked, hcb, hcs, -⟩ := hloose
      have habsent : pool.mapTx.lookup (R.C.txHash tx) = none := by
        simpa [CTxMemPool.has] using hhas
      refine ⟨hchecked, hcb, hcs, habsent, fun txin htxin => ?_, ?_, hview, ?_⟩
      · simp only [any_eq_true, not_exists, not_and] at hconflict
        simpa using hconflict txin htxin
      · rw [haveCoinsInView, habsent] at hhave
        simpa using hhave
      · exact (AcceptOutcome.accepted.inj h).symm

theorem AcceptedTx.addable {R : Relay} (h : AcceptedTx R pool tx pool') :
    CTxMemPool.Addable R.C pool (R.C.txHash tx) (.ofTx tx) where
  keyed := rfl
  absent := h.absent
  unspent := h.unspent
  distinct := (checkTransaction_ok h.checked).prevouts_nodup

theorem lookup_addUnchecked {hash hash' : Uint256} : (pool.addUnchecked hash entry).mapTx.lookup hash' =
      if hash' = hash then some entry else pool.mapTx.lookup hash' := by
  show (pool.mapTx.insert hash entry).lookup hash' = _
  by_cases heq : hash' = hash
  · rw [if_pos heq, heq, AList.lookup_insert]
  · rw [if_neg heq, AList.lookup_insert_ne heq]

/-- An entry leaves the other entries in the pool. -/
theorem addUnchecked_keeps {hash k : Uint256} (h : ∃ parent, pool.mapTx.lookup k = some parent) :
    ∃ parent, (pool.addUnchecked hash entry).mapTx.lookup k = some parent := by
  obtain ⟨parent, hparent⟩ := h
  rw [lookup_addUnchecked]
  split_ifs
  · exact ⟨_, rfl⟩
  · exact ⟨parent, hparent⟩

/-- What holds of the new entry and of the old ones holds of all. -/
theorem forall_addUnchecked {Q : Uint256 → CTxMemPoolEntry → Prop} {hash : Uint256} (hnew : Q hash entry)
    (hold : ∀ k e, pool.mapTx.lookup k = some e → Q k e) :
    ∀ k e, (pool.addUnchecked hash entry).mapTx.lookup k = some e → Q k e := by
  intro k e hin
  rw [lookup_addUnchecked] at hin
  split_ifs at hin with heq
  · cases hin
    rw [heq]
    exact hnew
  · exact hold k e hin

/-- An accepted transaction is vetted, and its inputs come from the pool or from mature coins. -/
theorem AcceptedTx.vetted {P : CChainParams} {policy : RelayPolicy} {nTipHeight : Nat}
    (h : AcceptedTx (relayAt P C policy nTipHeight v nSpendHeight) pool tx pool') (hmem : tx ∈ T)
    (hv : Truthful C T v) (hinv : pool.Inv C)
    (hvet : ∀ hash entry, pool.mapTx.lookup hash = some entry → Vetted C T entry.tx) :
    Vetted C T tx ∧ ∀ txin ∈ tx.vin, (∃ parent, pool.mapTx.lookup txin.prevout.hash = some parent) ∨
      ((v.utxo txin.prevout.hash txin.prevout.n).isSome ∧ Mature (v.coins txin.prevout.hash) nSpendHeight) := by
  have hinView : acceptInputs C policy v nSpendHeight pool tx = .ok () := h.inView
  have hover := hv.viewOver hinv hvet
  simp only [acceptInputs, check_seq_ok] at hinView
  obtain ⟨-, hinView⟩ := hinView
  obtain ⟨_, -, hinView⟩ := check_bind_ok.mp hinView
  obtain ⟨-, hinView⟩ := check_seq_ok.mp hinView
  obtain ⟨_, -, hinView⟩ := check_bind_ok.mp hinView
  obtain ⟨-, hinView⟩ := check_seq_ok.mp hinView
  obtain ⟨nValueOut, -, hinView⟩ := check_bind_ok.mp hinView
  split at hinView
  · cases hinView
  obtain ⟨checks, hchecks, -⟩ := check_bind_ok.mp hinView
  obtain ⟨hhave, nValueIn, hvalues, hfee⟩ := checkInputs_passed h.coinBase hchecks
  have havail := (haveInputs_iff h.coinBase).mp hhave
  obtain ⟨hpays, hmature⟩ := hover.pays havail hvalues
  refine ⟨⟨hmem, hover.haveInputs hmem fun _ => hhave, h.coinBase, h.coinStake,
    (checkTransaction_ok h.checked).prevouts_nodup, nValueIn, hpays, hfee h.coinStake⟩, fun txin htxin => ?_⟩
  cases hin : pool.mapTx.lookup txin.prevout.hash with
  | some parent => exact .inl ⟨parent, rfl⟩
  | none =>
    obtain ⟨out, hout⟩ := Option.isSome_iff_exists.mp (havail txin htxin)
    have hcoins := coins_viewOver_chain (v := v) hin (CCoins.isPruned_eq_false_iff.mpr ⟨_, out, hout⟩)
    have hm := hmature txin htxin
    rw [hcoins] at hm
    refine .inr ⟨?_, hm⟩
    have hsame : (v.coins txin.prevout.hash).out? txin.prevout.n = some out := by
      rw [← hcoins]
      exact hout
    show ((v.coins txin.prevout.hash).out? txin.prevout.n).isSome = true
    rw [hsame]
    rfl

theorem PoolAgrees.accept {P : CChainParams} {policy : RelayPolicy} {nTipHeight : Nat} (hv : Truthful C T v)
    (hp : PoolAgrees C T pool v nSpendHeight) (hmem : tx ∈ T)
    (h : acceptToMemoryPool (relayAt P C policy nTipHeight v nSpendHeight) pool tx = .accepted pool') :
    PoolAgrees C T pool' v nSpendHeight := by
  have hacc := acceptToMemoryPool_accepted h
  obtain ⟨hvet, hsupport⟩ := hacc.vetted hmem hv hp.inv hp.vetted
  obtain rfl := hacc.added
  refine ⟨hp.inv.addUnchecked hacc.addable, forall_addUnchecked hvet hp.vetted, forall_addUnchecked ?_ ?_⟩
  · intro txin htxin
    exact (hsupport txin htxin).imp addUnchecked_keeps id
  · intro hash entry hin txin htxin
    exact (hp.supported hash entry hin txin htxin).imp addUnchecked_keeps id

end

/-! ## Connecting -/

section

variable {P : CChainParams} {C : Crypto} {T : Set CTransaction} {pool pool' : CTxMemPool} {v v' : CoinsView}
  {nSpendHeight : Nat} {block : CBlock}

/-- No transaction of the block creates an id with an unspent output where it is applied. -/
def NoUnspentId (C : Crypto) (v : CoinsView) (block : CBlock) : Prop :=
  ∀ pre tx post, block.vtx = pre ++ tx :: post → (v.utxo.applyTxs C pre).Spent (C.txHash tx)

theorem connectTxs_truthful {fScriptChecks : Bool} {flags : Nat} {s s' : ConnectState}
    {txs : List CTransaction} (htxs : ∀ tx ∈ txs, tx ∈ T) (hs : Truthful C T s.view)
    (h : txs.foldlM (connectTx C ctx fScriptChecks flags) s = .ok s') : Truthful C T s'.view := by
  induction txs generalizing s with
  | nil =>
    obtain rfl := check_pure_ok.mp h
    exact hs
  | cons tx txs ih =>
    rw [foldlM_cons, check_bind_ok] at h
    obtain ⟨mid, hhead, htail⟩ := h
    obtain ⟨acc, undo, hacc, hupdate, -⟩ := connectTx_ok hhead
    have hmem := htxs tx mem_cons_self
    have hground : Grounded C T (C.txHash tx) := by
      refine hs.haveInputs hmem fun hcb => ?_
      simp only [accountTx, hcb, Bool.false_eq_true, if_false] at hacc
      obtain ⟨_, _, haccepted, -⟩ := connectInputs_ok hacc
      exact haccepted.have_inputs
    exact ih (fun t ht => htxs t (mem_cons_of_mem _ ht)) (hs.updateCoins hmem hground hupdate) htail

/-- What connecting a block does to the coins. -/
theorem connectBlock_coins {r : ConnectResult} (htxs : ∀ tx ∈ block.vtx, tx ∈ T)
    (hgenesis : block.getHash C ≠ P.hashGenesisBlock) (hv : Truthful C T v) (hbelow : CreatedBelow ctx.nHeight v)
    (h : connectBlock P C ctx block v false = .ok r) :
    Truthful C T r.view ∧ CreatedBelow (ctx.nHeight + 1) r.view ∧ r.view.utxo = v.utxo.applyTxs C block.vtx ∧
      ∃ last undos, updateAll C ctx.nHeight v block.vtx = some (last, undos) ∧ ∀ k, r.view.coins k = last.coins k := by
  have hacc := connectBlock_ok hgenesis h
  obtain ⟨s, hloop, -, -, hview⟩ := hacc.loop
  obtain ⟨undos, hall, -⟩ := connectTxs_ok hloop
  have htruthful := connectTxs_truthful htxs hv hloop
  rw [if_neg Bool.false_ne_true] at hview
  have hcoins : ∀ k, r.view.coins k = s.view.coins k := by
    intro k
    rw [hview]
    rfl
  refine ⟨?_, ?_, ?_, s.view, undos, hall, hcoins⟩
  · intro k hlive
    rw [hcoins] at hlive ⊢
    exact htruthful k hlive
  · have hbelow' : CreatedBelow (ctx.nHeight + 1) s.view := by
      refine LiveEntries.updateAll (fun _ _ _ hlt => hlt) (hbelow.mono fun _ _ hlt => ?_) (fun _ _ => ?_) hall
      · exact Nat.lt_succ_of_lt hlt
      · exact Nat.lt_succ_self ctx.nHeight
    intro k hlive
    rw [hcoins] at hlive ⊢
    exact hbelow' k hlive
  · rw [hview]
    exact (updateAll_ok (D := ∅) hall).1

/-- What no transaction of the list spends stays available, or becomes so. -/
theorem utxo_applyTxs_keeps {U : Utxo} {txs : List CTransaction} {o : COutPoint}
    (hother : ∀ tx ∈ txs, o ∉ tx.vin.map CTxIn.prevout)
    (hself : ∀ tx ∈ txs, C.txHash tx = o.hash → (CCoins.spendable? tx o.n).isSome)
    (havail : (∃ tx ∈ txs, C.txHash tx = o.hash) ∨ (U o.hash o.n).isSome) :
    (U.applyTxs C txs o.hash o.n).isSome = true := by
  induction txs generalizing U with
  | nil =>
    rcases havail with ⟨_, hm, -⟩ | havail
    · simp at hm
    · exact havail
  | cons tx txs ih =>
    have hkeeps := utxo_applyTx_keeps (U := U) (fun _ => hother tx mem_cons_self)
      (hself tx mem_cons_self)
    refine ih (fun t ht => hother t (mem_cons_of_mem _ ht)) (fun t ht => hself t (mem_cons_of_mem _ ht)) ?_
    rcases havail with ⟨t, ht, hk⟩ | havail
    · rcases mem_cons.mp ht with rfl | ht
      · exact .inr (hkeeps (.inl hk))
      · exact .inl ⟨t, ht, hk⟩
    · exact .inr (hkeeps (.inr havail))

/-- An outpoint that is available and that the block does not spend has an id that the block does not create. -/
theorem NoUnspentId.ne_txHash (hT : Set.InjOn C.txHash T) (hnew : NoUnspentId C v block)
    (htxs : ∀ tx ∈ block.vtx, tx ∈ T) {o : COutPoint} (hother : ∀ tx ∈ block.vtx, o ∉ tx.vin.map CTxIn.prevout)
    {parent : CTransaction} (hparent : parent ∈ T) (hhash : C.txHash parent = o.hash) {out : CTxOut}
    (hout : CCoins.spendable? parent o.n = some out) (havail : (v.utxo o.hash o.n).isSome) :
    ∀ tx ∈ block.vtx, C.txHash tx ≠ o.hash := by
  intro tx htx heq
  obtain ⟨pre, post, hsplit⟩ := append_of_mem htx
  have hpre : ∀ t ∈ pre, t ∈ block.vtx := by
    intro t ht
    rw [hsplit]
    exact mem_append_left _ ht
  have hstill := utxo_applyTxs_keeps (U := v.utxo) (fun t ht => hother t (hpre t ht))
    (fun t ht => spendable?_of_txHash hT (htxs t (hpre t ht)) hparent hhash hout) (.inr havail)
  have hspent := hnew pre tx post hsplit o.n
  rw [heq] at hspent
  rw [hspent] at hstill
  cases hstill

theorem PoolAgrees.connect (hT : Set.InjOn C.txHash T) {r : ConnectResult}
    (htxs : ∀ tx ∈ block.vtx, tx ∈ T) (hgenesis : block.getHash C ≠ P.hashGenesisBlock)
    (hnew : NoUnspentId C v block) (hv : Truthful C T v) (hbelow : CreatedBelow ctx.nHeight v)
    (hp : PoolAgrees C T pool v nSpendHeight) (h : connectBlock P C ctx block v false = .ok r)
    (hafter : CTxMemPool.AfterBlock C block.vtx pool pool') :
    PoolAgrees C T pool' r.view (nSpendHeight + 1) := by
  obtain ⟨htruthful, -, hutxo, last, undos, hall, hcoins⟩ := connectBlock_coins htxs hgenesis hv hbelow h
  refine ⟨hafter.inv, fun hash entry hin => hp.vetted hash entry (hafter.entries hash entry hin),
    fun hash entry hin txin htxin => ?_⟩
  have hold := hafter.entries hash entry hin
  obtain ⟨nValueIn, hpays, -⟩ := (hp.vetted hash entry hold).pays
  obtain ⟨p, hpmem, hphash, out, hout⟩ := hpays.source htxin
  have hother : ∀ tx ∈ block.vtx, txin.prevout ∉ tx.vin.map CTxIn.prevout :=
    fun tx htx => hafter.conflicts tx htx hash entry hin txin htxin
  have hkeeps := utxo_applyTxs_keeps (U := v.utxo) hother
    fun tx htx => spendable?_of_txHash hT (htxs tx htx) hpmem hphash hout
  rw [← hutxo] at hkeeps
  rcases hp.supported hash entry hold txin htxin with ⟨parent, hparent⟩ | ⟨havail, hmature⟩
  · have hvet := hp.vetted _ parent hparent
    obtain rfl : p = parent.tx := hT hpmem hvet.mem (hphash.trans (hp.inv.keyed _ parent hparent).symm)
    cases hstays : pool'.mapTx.lookup txin.prevout.hash with
    | some parent' => exact .inl ⟨parent', rfl⟩
    | none =>
      rcases hafter.closed _ parent hparent hstays with hblock | hnodep
      · -- the parent is in the block now
        have havail := hkeeps (.inl hblock)
        refine .inr ⟨havail, fun hflags => ?_⟩
        obtain ⟨o, ho⟩ := Option.isSome_iff_exists.mp havail
        obtain ⟨t, hentry⟩ := LiveEntries.of_out? htruthful ho
        obtain rfl : t = parent.tx := hT hentry.mem hpmem (hentry.hash.trans hphash.symm)
        rw [hentry.coinBase, hentry.coinStake, hvet.coinBase, hvet.coinStake] at hflags
        cases hflags
      · exact absurd ⟨entry, hin, txin, htxin, rfl, lt_length_of_spendable? hout⟩ (hnodep hash)
  · have havail' := hkeeps (.inr havail)
    refine .inr ⟨havail', ?_⟩
    -- the entry is the one it was, as the block does not create it anew
    have hne := hnew.ne_txHash hT htxs hother hpmem hphash hout havail
    have hsame : LiveEntries (fun k c => k = txin.prevout.hash → c.metadata = (v.coins txin.prevout.hash).metadata)
        last := by
      refine LiveEntries.updateAll (fun k c n hq hk => hq hk) ?_ ?_ hall
      · rintro k - rfl
        rfl
      · exact fun tx htx heq => absurd heq (hne tx htx)
    obtain ⟨o, ho⟩ := Option.isSome_iff_exists.mp havail'
    have hlive : (last.coins txin.prevout.hash).isPruned = false := by
      rw [← hcoins]
      exact CCoins.isPruned_eq_false_iff.mpr ⟨_, o, ho⟩
    have hmeta := hsame _ hlive rfl
    obtain ⟨hbase, hstake, -, hheight, -⟩ : (last.coins txin.prevout.hash).fCoinBase = _ ∧
        (last.coins txin.prevout.hash).fCoinStake = _ ∧ (last.coins txin.prevout.hash).nTime = _ ∧
        (last.coins txin.prevout.hash).nHeight = _ ∧ (last.coins txin.prevout.hash).nVersion = _ := by
      simpa [CCoins.metadata] using hmeta
    intro hflags
    rw [hcoins, hbase, hstake] at hflags
    have hdeep := hmature hflags
    rw [hcoins, hheight]
    omega

end

/-! ## Disconnecting -/

section

variable {P : CChainParams} {C : Crypto} {T : Set CTransaction} {pool pool' : CTxMemPool} {v : CoinsView}
  {policy : RelayPolicy} {nTipHeight nSpendHeight : Nat}

/-- The pool while the transactions in `rest` still have to go back to it. -/
structure PoolRestoring (C : Crypto) (T : Set CTransaction) (pool : CTxMemPool) (v : CoinsView)
    (rest : List CTransaction) : Prop where
  inv : pool.Inv C
  vetted : ∀ hash entry, pool.mapTx.lookup hash = some entry → Vetted C T entry.tx
  supported : ∀ hash entry, pool.mapTx.lookup hash = some entry → ∀ txin ∈ entry.tx.vin,
    (∃ parent, pool.mapTx.lookup txin.prevout.hash = some parent) ∨
      (v.utxo txin.prevout.hash txin.prevout.n).isSome = true ∨ ∃ tx ∈ rest, C.txHash tx = txin.prevout.hash

/-- A pool that agreed with the coins above the block. -/
theorem PoolAgrees.restoring {above : CoinsView} {vtx : List CTransaction}
    (hp : PoolAgrees C T pool above nSpendHeight) (hutxo : above.utxo = v.utxo.applyTxs C vtx) :
    PoolRestoring C T pool v vtx where
  inv := hp.inv
  vetted := hp.vetted
  supported := by
    intro hash entry hin txin htxin
    rcases hp.supported hash entry hin txin htxin with hparent | ⟨havail, -⟩
    · exact .inl hparent
    · obtain ⟨out, hout⟩ := Option.isSome_iff_exists.mp havail
      rw [hutxo] at hout
      rcases Utxo.created_of_applyTxs hout with ⟨tx, htx, hhash, -⟩ | hbelow
      · exact .inr (.inr ⟨tx, htx, hhash⟩)
      · exact .inr (.inl (by rw [hbelow]; rfl))

/-- A transaction of the pool that depends on one that was taken out is taken out too. -/
theorem CTxMemPool.ClosedWithin.parent_stays (hT : Set.InjOn C.txHash T) (hclosed : pool'.ClosedWithin pool)
    (hinv : pool.Inv C) (hvet : ∀ hash entry, pool.mapTx.lookup hash = some entry → Vetted C T entry.tx)
    {hash : Uint256} (hin : pool'.mapTx.lookup hash = some entry) {txin : CTxIn}
    (htxin : txin ∈ entry.tx.vin) {p : CTxMemPoolEntry} (hparent : pool.mapTx.lookup txin.prevout.hash = some p) :
    pool'.mapTx.lookup txin.prevout.hash = some p := by
  cases hstays : pool'.mapTx.lookup txin.prevout.hash with
  | some parent' =>
    have hsame := hclosed.entries _ parent' hstays
    rw [hparent] at hsame
    exact hsame.symm
  | none =>
    obtain ⟨nValueIn, hpays, -⟩ := (hvet hash entry (hclosed.entries hash entry hin)).pays
    obtain ⟨parent, hpmem, hphash, out, hout⟩ := hpays.source htxin
    obtain rfl : parent = p.tx := hT hpmem (hvet _ p hparent).mem (hphash.trans (hinv.keyed _ p hparent).symm)
    exact absurd ⟨entry, hin, txin, htxin, rfl, lt_length_of_spendable? hout⟩
      (hclosed.closed _ p hparent hstays hash)

/-- A transaction of the block is accepted again. -/
theorem PoolRestoring.accept {tx : CTransaction} {rest : List CTransaction} (hv : Truthful C T v) (hmem : tx ∈ T)
    (hp : PoolRestoring C T pool v (tx :: rest))
    (h : acceptToMemoryPool (relayAt P C policy nTipHeight v nSpendHeight) pool tx = .accepted pool') :
    PoolRestoring C T pool' v rest := by
  have hacc := acceptToMemoryPool_accepted h
  obtain ⟨hvet, hsupport⟩ := hacc.vetted hmem hv hp.inv hp.vetted
  obtain rfl := hacc.added
  have hself : (pool.addUnchecked (C.txHash tx) (.ofTx tx)).mapTx.lookup (C.txHash tx) = some (.ofTx tx) := by
    rw [lookup_addUnchecked, if_pos rfl]
  refine ⟨hp.inv.addUnchecked hacc.addable, forall_addUnchecked hvet hp.vetted, forall_addUnchecked ?_ ?_⟩
  · intro txin htxin
    rcases hsupport txin htxin with hparent | ⟨havail, -⟩
    · exact .inl (addUnchecked_keeps hparent)
    · exact .inr (.inl havail)
  · intro hash entry hin txin htxin
    rcases hp.supported hash entry hin txin htxin with hparent | havail | ⟨t, ht, hhash⟩
    · exact .inl (addUnchecked_keeps hparent)
    · exact .inr (.inl havail)
    · rcases mem_cons.mp ht with rfl | ht
      · rw [← hhash]
        exact .inl ⟨_, hself⟩
      · exact .inr (.inr ⟨t, ht, hhash⟩)

/-- A transaction of the block is not accepted again, and takes its descendants along. -/
theorem PoolRestoring.remove (hT : Set.InjOn C.txHash T) {tx : CTransaction} {rest : List CTransaction}
    (hmem : tx ∈ T) (hp : PoolRestoring C T pool v (tx :: rest)) (hinv : pool'.Inv C)
    (h : CTxMemPool.RemovedWith C tx pool pool') : PoolRestoring C T pool' v rest := by
  refine ⟨hinv, fun hash entry hin => hp.vetted hash entry (h.entries hash entry hin),
    fun hash entry hin txin htxin => ?_⟩
  have hstays := fun parent hparent =>
    h.toClosedWithin.parent_stays (p := parent) hT hp.inv hp.vetted hin htxin hparent
  rcases hp.supported hash entry (h.entries hash entry hin) txin htxin with ⟨parent, hparent⟩ | havail | ⟨t, ht, hhash⟩
  · exact .inl ⟨parent, hstays parent hparent⟩
  · exact .inr (.inl havail)
  · rcases mem_cons.mp ht with rfl | ht
    · exfalso
      cases hin' : pool.mapTx.lookup (C.txHash t) with
      | some parent =>
        rw [hhash] at hin'
        have hgone := h.gone
        rw [hhash, hstays parent hin'] at hgone
        cases hgone
      | none =>
        obtain ⟨nValueIn, hpays, -⟩ := (hp.vetted hash entry (h.entries hash entry hin)).pays
        obtain ⟨p, hpmem, hphash, out, hout⟩ := hpays.source htxin
        obtain rfl : p = t := hT hpmem hmem (hphash.trans hhash.symm)
        exact h.children hin' hash ⟨entry, hin, txin, htxin, hhash.symm, lt_length_of_spendable? hout⟩
    · exact .inr (.inr ⟨t, ht, hhash⟩)

/-- The loop over the transactions of the block. -/
theorem PoolRestoring.resurrect (hT : Set.InjOn C.txHash T) (hv : Truthful C T v) {vtx accepted : List CTransaction}
    (htxs : ∀ tx ∈ vtx, tx ∈ T) (hp : PoolRestoring C T pool v vtx) :
    ∃ result, ChainNode.resurrect (relayAt P C policy nTipHeight v nSpendHeight) vtx pool accepted = .ok result ∧
      PoolRestoring C T result.1 v [] := by
  induction vtx generalizing pool accepted with
  | nil => exact ⟨(pool, accepted), rfl, hp⟩
  | cons tx vtx ih =>
    have hmem := htxs tx mem_cons_self
    have hothers := fun t ht => htxs t (mem_cons_of_mem _ ht)
    unfold ChainNode.resurrect
    split
    · rename_i pool' haccepted
      split_ifs at haccepted
      exact ih hothers (hp.accept hv hmem haccepted)
    · obtain ⟨mid, hmid, hmidinv⟩ := hp.inv.remove tx true []
      obtain ⟨hwith, -, -⟩ := hp.inv.remove_recursive hmid
      obtain ⟨result, hresult, hdone⟩ := ih hothers (hp.remove hT hmem hmidinv hwith)
      exact ⟨result, check_bind_ok.mpr ⟨mid, hmid, hresult⟩, hdone⟩

/-! ## What matures too late -/

/-- The loop over the inputs of a transaction whose inputs are in the pool or available. -/
theorem anyImmature_of_available {vin : List CTxIn} (hbelow : CreatedBelow nMemPoolHeight v)
    (hsupport : ∀ txin ∈ vin, (∃ parent, pool.mapTx.lookup txin.prevout.hash = some parent) ∨
      (v.utxo txin.prevout.hash txin.prevout.n).isSome) :
    ∃ immature, CTxMemPool.anyImmature v.accessCoins nMemPoolHeight pool vin = .ok immature ∧
      (immature = false → ∀ txin ∈ vin, pool.mapTx.lookup txin.prevout.hash = none →
        Mature (v.coins txin.prevout.hash) nMemPoolHeight) := by
  induction vin with
  | nil => exact ⟨false, rfl, fun _ txin hm => by simp at hm⟩
  | cons txin vin ih =>
    obtain ⟨others, hothers, hmature⟩ := ih fun t ht => hsupport t (mem_cons_of_mem _ ht)
    have hhead : ∃ immature, CTxMemPool.spendsImmature v.accessCoins nMemPoolHeight pool txin = .ok immature ∧
        (immature = false → pool.mapTx.lookup txin.prevout.hash = none →
          Mature (v.coins txin.prevout.hash) nMemPoolHeight) := by
      unfold CTxMemPool.spendsImmature
      cases hin : pool.mapTx.lookup txin.prevout.hash with
      | some parent => exact ⟨false, rfl, fun _ h => by cases h⟩
      | none =>
        have havail := (hsupport txin mem_cons_self).resolve_left (by simp [hin])
        obtain ⟨out, hout⟩ := Option.isSome_iff_exists.mp havail
        rw [accessCoins_of_live (CCoins.isPruned_eq_false_iff.mpr ⟨_, out, hout⟩)]
        refine ⟨_, rfl, fun hfalse _ hflags => ?_⟩
        -- the entry is below the height, so the unsigned difference is the difference or less
        have hlt := LiveEntries.of_out? hbelow hout
        rw [hflags, Bool.true_and, decide_eq_false_iff_not] at hfalse
        omega
    obtain ⟨immature, himm, hhead⟩ := hhead
    cases immature with
    | true => exact ⟨true, check_bind_ok.mpr ⟨true, himm, rfl⟩, fun h => by cases h⟩
    | false =>
      refine ⟨others, check_bind_ok.mpr ⟨false, himm, hothers⟩, fun hfalse t ht => ?_⟩
      rcases mem_cons.mp ht with rfl | ht
      · exact hhead rfl
      · exact hmature hfalse t ht

theorem coinbaseSpends_of_available {entries : List CTxMemPoolEntry} (hbelow : CreatedBelow nMemPoolHeight v)
    (hsupport : ∀ entry ∈ entries, ∀ txin ∈ entry.tx.vin,
      (∃ parent, pool.mapTx.lookup txin.prevout.hash = some parent) ∨
        (v.utxo txin.prevout.hash txin.prevout.n).isSome) :
    ∃ txs, CTxMemPool.coinbaseSpends v.accessCoins nMemPoolHeight pool entries = .ok txs ∧
      ∀ entry ∈ entries, entry.tx ∈ txs ∨ ∀ txin ∈ entry.tx.vin, pool.mapTx.lookup txin.prevout.hash = none →
        Mature (v.coins txin.prevout.hash) nMemPoolHeight := by
  induction entries with
  | nil => exact ⟨[], rfl, fun _ hm => by simp at hm⟩
  | cons entry entries ih =>
    obtain ⟨txs, htxs, hothers⟩ := ih fun e he => hsupport e (mem_cons_of_mem _ he)
    obtain ⟨immature, himm, hmature⟩ := anyImmature_of_available hbelow (hsupport entry mem_cons_self)
    refine ⟨if immature then entry.tx :: txs else txs,
      check_bind_ok.mpr ⟨immature, himm, check_bind_ok.mpr ⟨txs, htxs, rfl⟩⟩, fun e he => ?_⟩
    cases immature with
    | true =>
      rcases mem_cons.mp he with rfl | he
      · exact .inl mem_cons_self
      · exact (hothers e he).imp (mem_cons_of_mem _) id
    | false =>
      rcases mem_cons.mp he with rfl | he
      · exact .inr (hmature rfl)
      · exact hothers e he

/-- The pool after what matures too late has been removed. -/
theorem PoolRestoring.removeCoinbaseSpends (hT : Set.InjOn C.txHash T) (hbelow : CreatedBelow nMemPoolHeight v)
    (hp : PoolRestoring C T pool v []) :
    ∃ pool', pool.removeCoinbaseSpends C v.accessCoins nMemPoolHeight = .ok pool' ∧
      PoolAgrees C T pool' v nMemPoolHeight := by
  have hsupport : ∀ hash entry, pool.mapTx.lookup hash = some entry → ∀ txin ∈ entry.tx.vin,
      (∃ parent, pool.mapTx.lookup txin.prevout.hash = some parent) ∨
        (v.utxo txin.prevout.hash txin.prevout.n).isSome = true := by
    intro hash entry hin txin htxin
    rcases hp.supported hash entry hin txin htxin with hparent | havail | ⟨t, ht, -⟩
    · exact .inl hparent
    · exact .inr havail
    · simp at ht
  have hmem : ∀ entry, entry ∈ pool.sortedEntries ↔ ∃ hash, pool.mapTx.lookup hash = some entry := by
    intro entry
    unfold CTxMemPool.sortedEntries
    rw [mem_map]
    constructor
    · rintro ⟨e, he, rfl⟩
      exact ⟨e.1, mem_sortedMapTx.mp he⟩
    · rintro ⟨hash, hin⟩
      exact ⟨⟨hash, entry⟩, mem_sortedMapTx.mpr hin, rfl⟩
  have hsorted : ∀ entry ∈ pool.sortedEntries, ∀ txin ∈ entry.tx.vin,
      (∃ parent, pool.mapTx.lookup txin.prevout.hash = some parent) ∨
        (v.utxo txin.prevout.hash txin.prevout.n).isSome = true := by
    intro entry hentry
    obtain ⟨hash, hin⟩ := (hmem entry).mp hentry
    exact hsupport hash entry hin
  obtain ⟨txs, htxs, hfound⟩ := coinbaseSpends_of_available hbelow hsorted
  obtain ⟨pool', hpool', -⟩ := hp.inv.removeAll txs
  obtain ⟨hinv, hclosed, hgone⟩ := hp.inv.removeAll_closed hpool'
  refine ⟨pool', check_bind_ok.mpr ⟨txs, htxs, hpool'⟩, hinv,
    fun hash entry hin => hp.vetted hash entry (hclosed.entries hash entry hin), fun hash entry hin txin htxin => ?_⟩
  have hold := hclosed.entries hash entry hin
  cases hparent : pool.mapTx.lookup txin.prevout.hash with
  | some parent =>
    exact .inl ⟨parent, hclosed.parent_stays hT hp.inv hp.vetted hin htxin hparent⟩
  | none =>
    have havail := (hsupport hash entry hold txin htxin).resolve_left (by simp [hparent])
    rcases hfound entry ((hmem entry).mpr ⟨hash, hold⟩) with hlisted | hmature
    · have hout := hgone entry.tx hlisted
      rw [hp.inv.keyed hash entry hold, hin] at hout
      cases hout
    · exact .inr ⟨havail, hmature txin htxin hparent⟩

end

end Reddcoin
