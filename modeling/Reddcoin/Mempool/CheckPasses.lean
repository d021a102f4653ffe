import Reddcoin.Mempool.Sources

/-!
# The assertions of the pool pass

When every input of the pool comes from the pool or is an available and mature coin, the transactions can be applied
one after another: the next one is found by going from a transaction that lacks an input to the parent it waits for,
which has to end.
-/

namespace Reddcoin

open List

/-- The pool agrees with the coins that the next block, at height `nSpendHeight`, would find. -/
structure PoolAgrees (C : Crypto) (T : Set CTransaction) (pool : CTxMemPool) (v : CoinsView) (nSpendHeight : Nat) :
    Prop where
  inv : pool.Inv C
  vetted : ∀ hash entry, pool.mapTx.lookup hash = some entry → Vetted C T entry.tx
  supported : ∀ hash entry, pool.mapTx.lookup hash = some entry → ∀ txin ∈ entry.tx.vin,
    (∃ parent, pool.mapTx.lookup txin.prevout.hash = some parent) ∨
      ((v.utxo txin.prevout.hash txin.prevout.n).isSome = true ∧ Mature (v.coins txin.prevout.hash) nSpendHeight)

/-- The entry is as in `v` as far as maturity goes, or can be spent at any height. -/
def MaturesAs (v : CoinsView) (k : Uint256) (c : CCoins) : Prop :=
  (c.fCoinBase || c.fCoinStake) = false ∨
    (c.fCoinBase = (v.coins k).fCoinBase ∧ c.fCoinStake = (v.coins k).fCoinStake ∧ c.nHeight = (v.coins k).nHeight)

/-- Some transactions of the pool have been applied to the coins, and those in `todo` are left. -/
structure Applying (C : Crypto) (T : Set CTransaction) (pool : CTxMemPool) (v : CoinsView) (todo : Set CTransaction)
    (mempoolDuplicate : CoinsView) : Prop where
  truthful : Truthful C T mempoolDuplicate
  matures : LiveEntries (MaturesAs v) mempoolDuplicate
  inPool : ∀ tx ∈ todo, ∃ entry, pool.mapTx.lookup (C.txHash tx) = some entry ∧ entry.tx = tx
  inputs : ∀ tx ∈ todo, ∀ txin ∈ tx.vin, (∃ parent ∈ todo, C.txHash parent = txin.prevout.hash) ∨
    (mempoolDuplicate.utxo txin.prevout.hash txin.prevout.n).isSome = true

section

variable {C : Crypto} {T : Set CTransaction} {pool : CTxMemPool} {v view : CoinsView} {nSpendHeight : Nat}
  {todo todo' : Set CTransaction} {tx : CTransaction}

theorem Applying.vetted (ha : Applying C T pool v todo view) (hp : PoolAgrees C T pool v nSpendHeight)
    (htx : tx ∈ todo) : Vetted C T tx := by
  obtain ⟨entry, hentry, rfl⟩ := ha.inPool tx htx
  exact hp.vetted _ entry hentry

theorem PoolAgrees.start (hv : Truthful C T v) (hp : PoolAgrees C T pool v nSpendHeight)
    (htodo : ∀ tx, tx ∈ todo ↔ ∃ hash entry, pool.mapTx.lookup hash = some entry ∧ entry.tx = tx) :
    Applying C T pool v todo v.flush where
  truthful := LiveEntries.flush hv
  matures := by
    intro k _
    rw [coins_flush]
    exact .inr ⟨rfl, rfl, rfl⟩
  inPool := by
    intro tx htx
    obtain ⟨hash, entry, hentry, rfl⟩ := (htodo tx).mp htx
    rw [hp.inv.keyed hash entry hentry]
    exact ⟨entry, hentry, rfl⟩
  inputs := by
    intro tx htx txin htxin
    obtain ⟨hash, entry, hentry, rfl⟩ := (htodo tx).mp htx
    rw [utxo_flush]
    rcases hp.supported hash entry hentry txin htxin with ⟨parent, hparent⟩ | ⟨havail, -⟩
    · exact .inl ⟨parent.tx, (htodo _).mpr ⟨_, parent, hparent, rfl⟩, hp.inv.keyed _ parent hparent⟩
    · exact .inr havail

/-- From a transaction that lacks an input to the parent it waits for. -/
theorem Applying.ready (hT : Set.InjOn C.txHash T) (hp : PoolAgrees C T pool v nSpendHeight)
    (ha : Applying C T pool v todo view) (hne : todo.Nonempty) : ∃ tx ∈ todo, haveInputs view tx = true := by
  have hfrom : ∀ k, Grounded C T k → (∃ tx ∈ todo, C.txHash tx = k) → ∃ tx ∈ todo, haveInputs view tx = true := by
    intro k hground
    induction hground with
    | tx p hpmem _ ih =>
      rintro ⟨tx, htx, hhash⟩
      have hvet := ha.vetted hp htx
      obtain rfl : tx = p := hT hvet.mem hpmem hhash
      by_cases hhave : haveInputs view tx = true
      · exact ⟨tx, htx, hhave⟩
      · rw [haveInputs_iff hvet.coinBase] at hhave
        push Not at hhave
        obtain ⟨txin, htxin, hlacks⟩ := hhave
        rcases ha.inputs tx htx txin htxin with ⟨parent, hparent, hph⟩ | havail
        · exact ih hvet.coinBase txin htxin ⟨parent, hparent, hph⟩
        · exact absurd havail hlacks
  obtain ⟨tx, htx⟩ := hne
  exact hfrom _ (ha.vetted hp htx).grounded ⟨tx, htx, rfl⟩

/-- An available input of a transaction that is left is mature. -/
theorem Applying.mature (hT : Set.InjOn C.txHash T) (hp : PoolAgrees C T pool v nSpendHeight)
    (ha : Applying C T pool v todo view) (htx : tx ∈ todo) {txin : CTxIn} (htxin : txin ∈ tx.vin)
    (havail : (view.utxo txin.prevout.hash txin.prevout.n).isSome) :
    Mature (view.coins txin.prevout.hash) nSpendHeight := by
  obtain ⟨out, hout⟩ := Option.isSome_iff_exists.mp havail
  intro hflags
  rcases ha.matures.of_out? hout with hfree | ⟨hbase, hstake, hheight⟩
  · rw [hfree] at hflags
    cases hflags
  obtain ⟨entry, hentry, rfl⟩ := ha.inPool tx htx
  rcases hp.supported _ entry hentry txin htxin with ⟨parent, hparent⟩ | ⟨-, hmature⟩
  · -- an output of the pool comes from no coinbase and no coinstake
    obtain ⟨p, hentryOf⟩ := LiveEntries.of_out? ha.truthful hout
    have hvet := hp.vetted _ parent hparent
    obtain rfl : p = parent.tx :=
      hT hentryOf.mem hvet.mem (hentryOf.hash.trans (hp.inv.keyed _ parent hparent).symm)
    rw [hentryOf.coinBase, hentryOf.coinStake, hvet.coinBase, hvet.coinStake] at hflags
    cases hflags
  · rw [hbase, hstake] at hflags
    rw [hheight]
    exact hmature hflags

/-- Two transactions of the pool have no input in common. -/
theorem CTxMemPool.Inv.inputs_disjoint (h : pool.Inv C) {hash hash' : Uint256} {entry entry' : CTxMemPoolEntry}
    (hin : pool.mapTx.lookup hash = some entry) (hin' : pool.mapTx.lookup hash' = some entry') {txin txin' : CTxIn}
    (htxin : txin ∈ entry.tx.vin) (htxin' : txin' ∈ entry'.tx.vin) (heq : txin.prevout = txin'.prevout) :
    hash = hash' := by
  obtain ⟨i, hi⟩ := mem_iff_getElem?.mp htxin
  obtain ⟨j, hj⟩ := mem_iff_getElem?.mp htxin'
  have hnext := (h.next txin.prevout ⟨hash, i⟩).mpr ⟨entry, hin, by rw [hi]; rfl⟩
  have hnext' := (h.next txin.prevout ⟨hash', j⟩).mpr ⟨entry', hin', by rw [hj, heq]; rfl⟩
  rw [hnext] at hnext'
  exact congrArg CInPoint.ptx (Option.some.inj hnext')

/-- What another transaction leaves available. -/
theorem utxo_applyTx_keeps {U : Utxo} {o : COutPoint}
    (hother : tx.isCoinBase = false → o ∉ tx.vin.map CTxIn.prevout)
    (hself : C.txHash tx = o.hash → (CCoins.spendable? tx o.n).isSome)
    (havail : C.txHash tx = o.hash ∨ (U o.hash o.n).isSome) :
    (U.applyTx C tx o.hash o.n).isSome = true := by
  unfold Utxo.applyTx Utxo.add
  by_cases hk : o.hash = C.txHash tx
  · rw [if_pos hk]
    exact hself hk.symm
  · have hsome := havail.resolve_left (Ne.symm hk)
    rw [if_neg hk]
    cases hcb : tx.isCoinBase with
    | true => exact hsome
    | false =>
      show (U.spendAll tx.vin o.hash o.n).isSome = true
      by_contra hgone
      rw [Bool.not_eq_true, Option.isSome_eq_false_iff, Option.isNone_iff_eq_none, Utxo.spendAll_eq_none_iff] at hgone
      rcases hgone with hnone | ⟨txin', htxin', heq⟩
      · rw [hnone] at hsome
        cases hsome
      · exact hother hcb (mem_map.mpr ⟨txin', htxin', heq⟩)

/-- An id determines what it makes available. -/
theorem spendable?_of_txHash (hT : Set.InjOn C.txHash T) (htx : tx ∈ T) {parent : CTransaction} (hparent : parent ∈ T)
    {o : COutPoint} (hhash : C.txHash parent = o.hash) {out : CTxOut}
    (hout : CCoins.spendable? parent o.n = some out) (heq : C.txHash tx = o.hash) :
    (CCoins.spendable? tx o.n).isSome = true := by
  obtain rfl : parent = tx := hT hparent htx (hhash.trans heq.symm)
  rw [hout]
  rfl

/-- A transaction that has its inputs passes, and the others keep theirs. -/
theorem Applying.apply (hT : Set.InjOn C.txHash T) (hp : PoolAgrees C T pool v nSpendHeight)
    (ha : Applying C T pool v todo view) (htx : tx ∈ todo) (hhave : haveInputs view tx)
    (htodo : ∀ t, t ∈ todo' ↔ t ∈ todo ∧ t ≠ tx) :
    ∃ view', CTxMemPool.applyPoolTx C nSpendHeight view tx = .ok view' ∧ Applying C T pool v todo' view' := by
  have hvet := ha.vetted hp htx
  have havail := (haveInputs_iff hvet.coinBase).mp hhave
  have hcheck := hvet.checkInputs hT ha.truthful hhave fun txin htxin =>
    ha.mature hT hp htx htxin (havail txin htxin)
  obtain ⟨view', undo, hupdate⟩ := updateCoins_available (C := C) hvet.coinBase hvet.distinct hhave 1000000
  refine ⟨view', by rw [CTxMemPool.applyPoolTx, hcheck, hupdate], ?_⟩
  refine ⟨ha.truthful.updateCoins hvet.mem hvet.grounded hupdate, ?_, ?_, ?_⟩
  · refine ha.matures.updateCoins (fun k c n h => h) (.inl ?_) hupdate
    show (tx.isCoinBase || tx.isCoinStake) = false
    rw [hvet.coinBase, hvet.coinStake]
    rfl
  · exact fun t ht => ha.inPool t ((htodo t).mp ht).1
  · intro t ht txin htxin
    obtain ⟨hmem, hne⟩ := (htodo t).mp ht
    have htvet := ha.vetted hp hmem
    obtain ⟨entry, hentry, rfl⟩ := ha.inPool t hmem
    obtain ⟨entry', hentry', rfl⟩ := ha.inPool tx htx
    have hother : txin.prevout ∉ entry'.tx.vin.map CTxIn.prevout := by
      intro hshared
      obtain ⟨txin', htxin', heq⟩ := mem_map.mp hshared
      have hkeys := hp.inv.inputs_disjoint hentry hentry' htxin htxin' heq.symm
      exact hne (hT htvet.mem hvet.mem hkeys)
    obtain ⟨nValueIn, hpays, -⟩ := htvet.pays
    obtain ⟨parent, hparent, hphash, out, hout⟩ := hpays.source htxin
    have hkeeps := utxo_applyTx_keeps (U := view.utxo) (fun _ => hother)
      (spendable?_of_txHash hT hvet.mem hparent hphash hout)
    rw [(updateCoins_ok (D := ∅) hupdate).1]
    rcases ha.inputs _ hmem txin htxin with ⟨p, hpmem, hpeq⟩ | hold
    · by_cases hself : p = entry'.tx
      · exact .inr (hkeeps (.inl (by rw [← hpeq, hself])))
      · exact .inl ⟨p, (htodo p).mpr ⟨hpmem, hself⟩, hpeq⟩
    · exact .inr (hkeeps (.inr hold))

/-- All that are left can be applied in some order. -/
theorem Applying.order (hT : Set.InjOn C.txHash T) (hp : PoolAgrees C T pool v nSpendHeight) {txs : List CTransaction}
    (ha : Applying C T pool v {t | t ∈ txs} view) (hnodup : txs.Nodup) :
    ∃ order : List CTransaction, order.Perm txs ∧
      ∃ last, order.foldlM (CTxMemPool.applyPoolTx C nSpendHeight) view = .ok last := by
  induction hlen : txs.length generalizing txs view with
  | zero =>
    obtain rfl := length_eq_zero_iff.mp hlen
    exact ⟨[], .refl _, view, rfl⟩
  | succ n ih =>
    obtain ⟨t, ht⟩ := exists_mem_of_length_pos (by omega : 0 < txs.length)
    obtain ⟨tx, htx, hhave⟩ := ha.ready hT hp ⟨t, ht⟩
    have hmem : tx ∈ txs := htx
    have htodo : ∀ t, t ∈ {t | t ∈ txs.erase tx} ↔ t ∈ {t | t ∈ txs} ∧ t ≠ tx := by
      intro t
      exact hnodup.mem_erase_iff.trans and_comm
    obtain ⟨view', hview', ha'⟩ := ha.apply hT hp htx hhave htodo
    have hless : (txs.erase tx).length = n := by
      rw [length_erase_of_mem hmem, hlen]
      rfl
    obtain ⟨order, horder, last, hlast⟩ := ih ha' (hnodup.erase tx) hless
    refine ⟨tx :: order, (horder.cons tx).trans (perm_cons_erase hmem).symm, last, ?_⟩
    rw [foldlM_cons]
    exact check_bind_ok.mpr ⟨view', hview', hlast⟩

/-- The transaction under `child` spends an output of the one under `parent`. -/
def CTxMemPool.ParentOf (pool : CTxMemPool) (parent child : Uint256) : Prop :=
  (∃ entry, pool.mapTx.lookup parent = some entry) ∧
    ∃ entry, pool.mapTx.lookup child = some entry ∧ ∃ txin ∈ entry.tx.vin, txin.prevout.hash = parent

theorem PoolAgrees.parentOf_wellFounded (hT : Set.InjOn C.txHash T) (hp : PoolAgrees C T pool v nSpendHeight) :
    WellFounded pool.ParentOf := by
  have hground : ∀ k, Grounded C T k → Acc pool.ParentOf k := by
    intro k h
    induction h with
    | tx p hmem _ ih =>
      refine Acc.intro _ ?_
      rintro parent ⟨-, entry, hentry, txin, htxin, rfl⟩
      have hvet := hp.vetted _ entry hentry
      obtain rfl : entry.tx = p := hT hvet.mem hmem (hp.inv.keyed _ entry hentry)
      exact ih hvet.coinBase txin htxin
  refine ⟨fun child => ?_⟩
  cases hin : pool.mapTx.lookup child with
  | some entry =>
    have hacc := hground _ (hp.vetted child entry hin).grounded
    rw [hp.inv.keyed child entry hin] at hacc
    exact hacc
  | none =>
    refine Acc.intro _ ?_
    rintro parent ⟨-, entry, hentry, -⟩
    rw [hin] at hentry
    cases hentry

end

/-! ## The loops -/

section

open CTxMemPool

variable {C : Crypto} {T : Set CTransaction} {pool : CTxMemPool} {v view : CoinsView} {nSpendHeight : Nat}

theorem assert_eq_ok {b : Bool} : assert b = .ok () ↔ b = true := by
  unfold assert
  split_ifs with h <;> simp [h]

/-- The inputs of an entry pass, and the entry waits exactly when one of them is in the pool. -/
theorem PoolAgrees.checkPoolInputs (hT : Set.InjOn C.txHash T) (hp : PoolAgrees C T pool v nSpendHeight)
    {hash : Uint256} {entry : CTxMemPoolEntry} (hin : pool.mapTx.lookup hash = some entry) {i : Nat}
    {vin : List CTxIn} (hvin : entry.tx.vin.drop i = vin) :
    ∃ waits, CTxMemPool.checkPoolInputs pool v hash i vin = .ok waits ∧
      (waits = false → ∀ txin ∈ vin, pool.mapTx.lookup txin.prevout.hash = none) := by
  induction vin generalizing i with
  | nil => exact ⟨false, rfl, fun _ txin hm => by simp at hm⟩
  | cons txin vin ih =>
    have hget : entry.tx.vin[i]? = some txin := by
      rw [← head?_drop, hvin]
      rfl
    have hrest : entry.tx.vin.drop (i + 1) = vin := by
      rw [← tail_drop, hvin]
      rfl
    obtain ⟨others, hothers, hnone⟩ := ih hrest
    have htxin := mem_of_getElem? hget
    have hnext := (hp.inv.next txin.prevout ⟨hash, i⟩).mpr ⟨entry, hin, by rw [hget]; rfl⟩
    have hsource : ∃ waits, checkSource pool v txin = .ok waits ∧
        (waits = false → pool.mapTx.lookup txin.prevout.hash = none) := by
      unfold checkSource
      cases hparent : pool.mapTx.lookup txin.prevout.hash with
      | some parent =>
        obtain ⟨nValueIn, hpays, -⟩ := (hp.vetted hash entry hin).pays
        obtain ⟨p, hpmem, hphash, out, hout⟩ := hpays.source htxin
        obtain rfl : p = parent.tx := hT hpmem (hp.vetted _ parent hparent).mem
          (hphash.trans (hp.inv.keyed _ parent hparent).symm)
        refine ⟨true, check_seq_ok.mpr ⟨assert_eq_ok.mpr ?_, rfl⟩, fun h => by cases h⟩
        obtain ⟨hgetout, hspendable⟩ := Option.filter_eq_some_iff.mp hout
        rw [hgetout]
        rw [Bool.and_eq_true] at hspendable
        exact hspendable.1
      | none =>
        rcases hp.supported hash entry hin txin htxin with ⟨parent, hsome⟩ | ⟨havail, -⟩
        · rw [hparent] at hsome
          cases hsome
        · refine ⟨false, check_seq_ok.mpr ⟨assert_eq_ok.mpr ?_, rfl⟩, fun _ => rfl⟩
          obtain ⟨out, hout⟩ := Option.isSome_iff_exists.mp havail
          rw [accessCoins_of_live (CCoins.isPruned_eq_false_iff.mpr ⟨_, out, hout⟩)]
          show (v.coins txin.prevout.hash).isAvailable txin.prevout.n = true
          rw [CCoins.isAvailable_eq_isSome]
          exact havail
    obtain ⟨waits, hwaits, hhead⟩ := hsource
    refine ⟨waits || others, ?_, fun hboth => ?_⟩
    · exact check_bind_ok.mpr ⟨waits, hwaits, check_seq_ok.mpr ⟨assert_eq_ok.mpr (decide_eq_true hnext),
        check_bind_ok.mpr ⟨others, hothers, rfl⟩⟩⟩
    · rw [Bool.or_eq_false_iff] at hboth
      intro t ht
      rcases mem_cons.mp ht with rfl | ht
      · exact hhead hboth.1
      · exact hnone hboth.2 t ht

/-- The transactions that the first loop has not applied. -/
def unapplied (s : PoolCheck) (rest : List (Σ _ : Uint256, CTxMemPoolEntry)) : List CTransaction :=
  s.waitingOnDependants ++ rest.map fun e => e.2.tx

theorem PoolAgrees.checkEntries (hT : Set.InjOn C.txHash T) (hp : PoolAgrees C T pool v nSpendHeight)
    {rest : List (Σ _ : Uint256, CTxMemPoolEntry)} (hrest : ∀ e ∈ rest, pool.mapTx.lookup e.1 = some e.2)
    {s : PoolCheck} (ha : Applying C T pool v {t | t ∈ unapplied s rest} s.mempoolDuplicate)
    (hnodup : (unapplied s rest).Nodup) :
    ∃ s', rest.foldlM (CTxMemPool.checkEntry C pool v nSpendHeight) s = .ok s' ∧
      Applying C T pool v {t | t ∈ s'.waitingOnDependants} s'.mempoolDuplicate ∧ s'.waitingOnDependants.Nodup ∧
      s'.checkTotal = s.checkTotal + (rest.map fun e => e.2.nTxSize).sum := by
  induction rest generalizing s with
  | nil =>
    refine ⟨s, rfl, ?_, ?_, rfl⟩
    · simpa [unapplied] using ha
    · simpa [unapplied] using hnodup
  | cons e rest ih =>
    have hin := hrest e mem_cons_self
    have hothers := fun e' he' => hrest e' (mem_cons_of_mem _ he')
    have hmem : e.2.tx ∈ unapplied s (e :: rest) := by simp [unapplied]
    obtain ⟨waits, hwaits, hnone⟩ := hp.checkPoolInputs hT hin (drop_zero (l := e.2.tx.vin))
    cases waits with
    | true =>
      let s₁ : PoolCheck :=
        { s with
          checkTotal := s.checkTotal + e.2.nTxSize
          waitingOnDependants := s.waitingOnDependants ++ [e.2.tx] }
      have hsame : unapplied s₁ rest = unapplied s (e :: rest) := by
        simp [unapplied, s₁]
      obtain ⟨s', hs', ha', hnodup', htotal⟩ := ih hothers (s := s₁) (by rw [hsame]; exact ha)
        (by rw [hsame]; exact hnodup)
      refine ⟨s', ?_, ha', hnodup', ?_⟩
      · rw [foldlM_cons]
        exact check_bind_ok.mpr ⟨s₁, check_bind_ok.mpr ⟨true, hwaits, rfl⟩, hs'⟩
      · rw [htotal, map_cons, sum_cons, ← Nat.add_assoc]
    | false =>
      -- without a parent in the pool, every input is available
      have hhave : haveInputs s.mempoolDuplicate e.2.tx = true := by
        rw [haveInputs_iff (hp.vetted _ _ hin).coinBase]
        intro txin htxin
        rcases ha.inputs e.2.tx hmem txin htxin with ⟨parent, hparent, hhash⟩ | havail
        · obtain ⟨entry, hentry, -⟩ := ha.inPool parent hparent
          rw [hhash, hnone rfl txin htxin] at hentry
          cases hentry
        · exact havail
      let s₁ : CoinsView → PoolCheck := fun view =>
        { s with checkTotal := s.checkTotal + e.2.nTxSize, mempoolDuplicate := view }
      have hsplit : ∀ view t, t ∈ unapplied (s₁ view) rest ↔ t ∈ unapplied s (e :: rest) ∧ t ≠ e.2.tx := by
        intro view t
        have hnot : e.2.tx ∉ unapplied (s₁ view) rest := by
          have hperm : (unapplied s (e :: rest)).Perm (e.2.tx :: unapplied (s₁ view) rest) := by
            simp only [unapplied, map_cons, s₁]
            exact perm_middle
          exact (nodup_cons.mp (hperm.nodup_iff.mp hnodup)).1
        simp only [unapplied, s₁, map_cons, mem_append, mem_cons] at hnot ⊢
        constructor
        · intro ht
          refine ⟨ht.imp id .inr, ?_⟩
          rintro rfl
          exact hnot ht
        · rintro ⟨hw | heq | hr, hne⟩
          · exact .inl hw
          · exact absurd heq hne
          · exact .inr hr
      have htodo : ∀ t, t ∈ {t | t ∈ unapplied (s₁ s.mempoolDuplicate) rest} ↔
          t ∈ {t | t ∈ unapplied s (e :: rest)} ∧ t ≠ e.2.tx := hsplit s.mempoolDuplicate
      obtain ⟨view', hview', ha₁⟩ := ha.apply hT hp hmem hhave htodo
      have hnodup₁ : (unapplied (s₁ view') rest).Nodup := by
        refine hnodup.sublist ?_
        simp only [unapplied, s₁, map_cons]
        exact List.Sublist.append_left (sublist_cons_self _ _) _
      obtain ⟨s', hs', ha', hnodup', htotal⟩ := ih hothers (s := s₁ view') ha₁ hnodup₁
      refine ⟨s', ?_, ha', hnodup', ?_⟩
      · rw [foldlM_cons]
        exact check_bind_ok.mpr ⟨s₁ view', check_bind_ok.mpr ⟨false, hwaits,
          check_bind_ok.mpr ⟨view', hview', rfl⟩⟩, hs'⟩
      · rw [htotal, map_cons, sum_cons, ← Nat.add_assoc]

/-- The loop over those that wait: the last `back` ones lack inputs, so the front of the queue has one that does
not. -/
theorem PoolAgrees.checkWaiting (hT : Set.InjOn C.txHash T) (hp : PoolAgrees C T pool v nSpendHeight) {turns : Nat}
    {front back : List CTransaction} (ha : Applying C T pool v {t | t ∈ front ++ back} view)
    (hnodup : (front ++ back).Nodup) (hback : ∀ tx ∈ back, haveInputs view tx = false)
    (hturns : (front.length + back.length) * (front.length + back.length) + front.length ≤ turns) :
    ∃ view', CTxMemPool.checkWaiting C nSpendHeight turns view (front ++ back) back.length = .ok view' := by
  induction turns generalizing view front back with
  | zero =>
    have hfront : front = [] := length_eq_zero_iff.mp (by omega)
    subst hfront
    have hback0 : back = [] := by
      rw [length_nil, Nat.zero_add, Nat.add_zero] at hturns
      exact length_eq_zero_iff.mp (mul_self_eq_zero.mp (Nat.le_zero.mp hturns))
    subst hback0
    exact ⟨view, rfl⟩
  | succ turns ih =>
    cases front with
    | nil =>
      cases back with
      | nil => exact ⟨view, rfl⟩
      | cons tx back =>
        -- all of them lack inputs, which cannot be
        obtain ⟨t, ht, hready⟩ := ha.ready hT hp ⟨tx, by simp⟩
        rw [hback t (by simpa using ht)] at hready
        cases hready
    | cons tx front =>
      rw [cons_append] at ha hnodup ⊢
      unfold CTxMemPool.checkWaiting
      by_cases hhave : haveInputs view tx = true
      · rw [if_pos hhave]
        have htodo : ∀ t, t ∈ {t | t ∈ (front ++ back) ++ []} ↔ t ∈ {t | t ∈ tx :: (front ++ back)} ∧ t ≠ tx := by
          intro t
          simp only [append_nil, Set.mem_ofPred_eq, mem_cons]
          constructor
          · intro ht
            refine ⟨.inr ht, ?_⟩
            rintro rfl
            exact (nodup_cons.mp hnodup).1 ht
          · rintro ⟨heq | ht, hne⟩
            · exact absurd heq hne
            · exact ht
        have htx : tx ∈ {t | t ∈ tx :: (front ++ back)} := mem_cons_self
        obtain ⟨view', hview', ha'⟩ := ha.apply hT hp htx hhave htodo
        have hturns' : ((front ++ back).length + ([] : List CTransaction).length) *
            ((front ++ back).length + ([] : List CTransaction).length) + (front ++ back).length ≤ turns := by
          simp only [length_append, length_cons, length_nil] at hturns ⊢
          nlinarith
        obtain ⟨last, hlast⟩ := ih ha' (by simpa using (nodup_cons.mp hnodup).2)
          (fun _ hm => by simp at hm) hturns'
        refine ⟨last, check_bind_ok.mpr ⟨view', hview', ?_⟩⟩
        simpa using hlast
      · rw [if_neg hhave]
        -- one of the others is ready, and it is not among those at the back
        have hmore : 0 < front.length := by
          obtain ⟨t, ht, hready⟩ := ha.ready hT hp ⟨tx, by simp⟩
          rcases mem_cons.mp ht with rfl | ht
          · exact absurd hready hhave
          · rcases mem_append.mp ht with ht | ht
            · exact length_pos_of_mem ht
            · rw [hback t ht] at hready
              cases hready
        have hperm : (front ++ (back ++ [tx])).Perm (tx :: (front ++ back)) := by
          rw [← append_assoc]
          exact perm_append_singleton tx (front ++ back)
        have ha' : Applying C T pool v {t | t ∈ front ++ (back ++ [tx])} view := by
          have hset : {t | t ∈ front ++ (back ++ [tx])} = {t | t ∈ tx :: (front ++ back)} :=
            Set.ext fun t => hperm.mem_iff
          rw [hset]
          exact ha
        have hturns' : (front.length + (back ++ [tx]).length) * (front.length + (back ++ [tx]).length) +
            front.length ≤ turns := by
          simp only [length_append, length_cons, length_nil] at hturns ⊢
          have hsum : front.length + (back.length + (0 + 1)) = front.length + 1 + back.length := by omega
          rw [hsum]
          omega
        obtain ⟨last, hlast⟩ := ih ha' (hperm.nodup_iff.mpr hnodup) (fun t ht => by
          rcases mem_append.mp ht with ht | ht
          · exact hback t ht
          · rw [mem_singleton.mp ht]
            simpa using hhave) hturns'
        refine ⟨last, check_seq_ok.mpr ⟨assert_eq_ok.mpr (decide_eq_true ?_), ?_⟩⟩
        · rw [length_append]
          omega
        · rw [append_assoc]
          rw [length_append, length_singleton] at hlast
          exact hlast

theorem mem_sortedMapTx {e : Σ _ : Uint256, CTxMemPoolEntry} :
    e ∈ pool.sortedMapTx ↔ pool.mapTx.lookup e.1 = some e.2 := by
  unfold sortedMapTx
  rw [(perm_insertionSort _ _).mem_iff]
  exact (AList.mem_lookup_iff (s := pool.mapTx) (a := e.1) (b := e.2)).symm

theorem perm_sortedMapTx : pool.sortedMapTx.Perm pool.mapTx.entries :=
  perm_insertionSort _ _

/-- Nothing has been applied yet. -/
theorem PoolAgrees.sortedMapTx (hv : Truthful C T v) (hp : PoolAgrees C T pool v nSpendHeight) :
    Applying C T pool v {t | t ∈ pool.sortedMapTx.map fun e => e.2.tx} v.flush ∧
      (pool.sortedMapTx.map fun e => e.2.tx).Nodup := by
  constructor
  · refine PoolAgrees.start hv hp fun tx => ?_
    simp only [Set.mem_ofPred_eq, mem_map]
    constructor
    · rintro ⟨e, he, rfl⟩
      exact ⟨e.1, e.2, mem_sortedMapTx.mp he, rfl⟩
    · rintro ⟨hash, entry, hentry, rfl⟩
      exact ⟨⟨hash, entry⟩, mem_sortedMapTx.mpr hentry, rfl⟩
  · have hkeys : (pool.sortedMapTx.map Sigma.fst).Nodup := by
      rw [(perm_sortedMapTx.map _).nodup_iff]
      exact pool.mapTx.nodupKeys
    have hhash : pool.sortedMapTx.map Sigma.fst = (pool.sortedMapTx.map fun e => e.2.tx).map C.txHash := by
      rw [map_map]
      refine map_congr_left fun e he => ?_
      exact (hp.inv.keyed e.1 e.2 (mem_sortedMapTx.mp he)).symm
    rw [hhash] at hkeys
    exact hkeys.of_map _

section

variable (hT : Set.InjOn C.txHash T) (hv : Truthful C T v) (hp : PoolAgrees C T pool v nSpendHeight)

include hT hv hp

/-- `CheckInputs` without scripts passes for every transaction of the pool, in some order. -/
theorem PoolAgrees.order : ∃ order : List CTransaction, order.Perm (pool.mapTx.entries.map fun e => e.2.tx) ∧
      ∃ last, order.foldlM (applyPoolTx C nSpendHeight) v.flush = .ok last := by
  obtain ⟨ha, hnodup⟩ := hp.sortedMapTx hv
  obtain ⟨order, horder, hlast⟩ := ha.order hT hp hnodup
  exact ⟨order, horder.trans (perm_sortedMapTx.map _), hlast⟩

theorem PoolAgrees.checkAll : pool.checkAll C v nSpendHeight = .ok () := by
  let s₀ : PoolCheck := { mempoolDuplicate := v.flush, waitingOnDependants := [], checkTotal := 0 }
  obtain ⟨hstart, hnodup⟩ := hp.sortedMapTx hv
  obtain ⟨s, hs, ha, hwait, htotal⟩ :=
    hp.checkEntries hT (fun e he => mem_sortedMapTx.mp he) (s := s₀) hstart hnodup
  have ha' : Applying C T pool v {t | t ∈ s.waitingOnDependants ++ []} s.mempoolDuplicate := by
    simpa using ha
  obtain ⟨last, hlast⟩ := hp.checkWaiting hT ha' (by simpa using hwait) (fun _ hm => by simp at hm) (Nat.le_refl _)
  rw [append_nil, length_nil, Nat.add_zero] at hlast
  unfold CTxMemPool.checkAll
  refine check_bind_ok.mpr ⟨s, hs, check_bind_ok.mpr ⟨last, hlast, check_seq_ok.mpr ⟨?_, ?_⟩⟩⟩
  · -- the index leads to the inputs of the pool
    have hall : ∀ l : List (Σ _ : COutPoint, CInPoint), (∀ e ∈ l, pool.mapNextTx.lookup e.1 = some e.2) →
        l.forM (checkNext C pool) = .ok () := by
      intro l
      induction l with
      | nil => exact fun _ => rfl
      | cons e l ih =>
        intro hl
        refine check_seq_ok.mpr ⟨?_, ih fun e' he' => hl e' (mem_cons_of_mem _ he')⟩
        obtain ⟨entry, hentry, hspends⟩ := (hp.inv.next e.1 e.2).mp (hl e mem_cons_self)
        have hkey := hp.inv.keyed _ entry hentry
        have hfollow : pool.followHash C e.2 = .ok e.2.ptx := by
          rw [followHash, hentry]
          exact congrArg Except.ok hkey
        refine check_bind_ok.mpr ⟨e.2.ptx, hfollow, ?_⟩
        rw [hentry]
        exact check_seq_ok.mpr ⟨assert_eq_ok.mpr (decide_eq_true rfl), assert_eq_ok.mpr (decide_eq_true hspends)⟩
    refine hall _ fun e he => ?_
    exact (AList.mem_lookup_iff (s := pool.mapNextTx) (a := e.1) (b := e.2)).mpr he
  · rw [assert_eq_ok, htotal, hp.inv.total, decide_eq_true_eq, Nat.zero_add]
    exact (List.Perm.sum_eq (perm_sortedMapTx.map _)).symm

theorem PoolAgrees.check : pool.check C v nSpendHeight = .ok () := by
  unfold CTxMemPool.check
  split_ifs
  · exact hp.checkAll hT hv
  · rfl

end

end

end Reddcoin
