import Reddcoin.Mempool.ChainRun
import Reddcoin.Wallet.BalanceTotal

/-!
# Balances along every run

Every change of the pool and of the tip comes with calls of `SyncTransaction`.  The one exception is what
`DisconnectTip` takes out of the pool beside the transactions of the block: the wallet does not hear of it, and what
such a transaction spent still counts as spent in the cached credits.
-/

namespace Reddcoin

open CWallet List Option

/-! ## Depth and the chain -/

section

variable {C : Crypto} {node node' : ChainNode} {wtx : CWalletTx} {D : WalletNode → RelayPolicy → Prop}

theorem findActive_some {hash : Uint256} {active : List ConnectedBlock} {found : CBlock × Nat}
    (h : findActive C hash active = some found) :
    (∃ tip ∈ active, tip.block = found.1 ∧ tip.block.getHash C = hash) ∧ found.2 ≠ 0 := by
  induction active generalizing found with
  | nil => cases h
  | cons tip rest ih =>
    unfold findActive at h
    split_ifs at h with heq
    · cases h
      exact ⟨⟨tip, mem_cons_self, rfl, heq⟩, Nat.one_ne_zero⟩
    · obtain ⟨below, hbelow, rfl⟩ := map_eq_some_iff.mp h
      obtain ⟨⟨t, ht, hblock, hhash⟩, -⟩ := ih hbelow
      exact ⟨⟨t, mem_cons_of_mem _ ht, hblock, hhash⟩, Nat.succ_ne_zero _⟩

/-- A transaction with a depth in the chain names one of its blocks. -/
theorem exists_active_of_depth (h : wtx.getDepthInActive C node ≠ 0) :
    wtx.hashBlock ≠ 0 ∧ ∃ tip ∈ node.active, tip.block.getHash C = wtx.hashBlock := by
  unfold CWalletTx.getDepthInActive at h
  cases hindex : wtx.nIndex with
  | none => simp [hindex] at h
  | some nIndex =>
    simp only [hindex] at h
    split_ifs at h with hblock
    · exact absurd rfl h
    · cases hfound : findActive C wtx.hashBlock node.active with
      | none => simp [hfound] at h
      | some found =>
        obtain ⟨⟨tip, htip, -, hhash⟩, -⟩ := findActive_some hfound
        exact ⟨hblock, tip, htip, hhash⟩

/-- A block that the transaction does not name changes its depth, but not whether it is in the chain. -/
theorem getDepthInActive_cons {tip : ConnectedBlock} (hactive : node'.active = tip :: node.active)
    (hother : wtx.hashBlock ≠ 0 → tip.block.getHash C ≠ wtx.hashBlock) :
    wtx.getDepthInActive C node' ≠ 0 ↔ wtx.getDepthInActive C node ≠ 0 := by
  unfold CWalletTx.getDepthInActive
  cases wtx.nIndex with
  | none => exact Iff.rfl
  | some nIndex =>
    dsimp only
    by_cases hblock : wtx.hashBlock = 0
    · rw [if_pos hblock, if_pos hblock]
    · rw [if_neg hblock, if_neg hblock, hactive, findActive, if_neg (hother hblock)]
      cases hfound : findActive C wtx.hashBlock node.active with
      | none => exact Iff.rfl
      | some found =>
        have hpos := (findActive_some hfound).2
        rw [map_some]
        dsimp only
        split_ifs
        · exact Iff.rfl
        · omega

end

/-! ## What the pool keeps -/

section

variable {P : CChainParams} {C : Crypto} {T S : Set CTransaction} {pool pool' : CTxMemPool} {tx : CTransaction}

theorem has_iff {hash : Uint256} : pool.has hash ↔ ∃ entry, pool.mapTx.lookup hash = some entry :=
  isSome_iff_exists

theorem AcceptedTx.has_iff {R : Relay} (h : AcceptedTx R pool tx pool') {hash : Uint256} (hne : hash ≠ R.C.txHash tx) :
    pool'.has hash ↔ pool.has hash = true := by
  obtain rfl := h.added
  rw [Reddcoin.has_iff, Reddcoin.has_iff, lookup_addUnchecked, if_neg hne]

theorem AcceptedTx.txsIn {R : Relay} (h : AcceptedTx R pool tx pool') (hpool : pool.TxsIn S) (hmem : tx ∈ S) :
    pool'.TxsIn S := by
  obtain rfl := h.added
  exact forall_addUnchecked hmem hpool

/-- What the loop over a disconnected block makes of the pool. -/
theorem resurrect_spec {R : Relay} {vtx accepted : List CTransaction} {result : CTxMemPool × List CTransaction}
    (hinv : pool.Inv R.C) (hpool : pool.TxsIn S) (hS : ∀ tx ∈ vtx, tx ∈ S)
    (hrun : ChainNode.resurrect R vtx pool accepted = .ok result) :
    result.1.Inv R.C ∧ result.1.TxsIn S ∧ result.2 ⊆ accepted ++ vtx ∧
      ∀ hash ∉ hashesOf R.C vtx, result.1.has hash → pool.has hash = true := by
  induction vtx generalizing pool accepted with
  | nil =>
    cases hrun
    exact ⟨hinv, hpool, by simp, fun _ _ h => h⟩
  | cons tx vtx ih =>
    have hothers : ∀ t ∈ vtx, t ∈ S := fun t ht => hS t (mem_cons_of_mem _ ht)
    have hrest : ∀ {hash : Uint256}, hash ∉ hashesOf R.C (tx :: vtx) → hash ≠ R.C.txHash tx ∧ hash ∉ hashesOf R.C vtx :=
      fun hout => ⟨fun heq => hout ⟨tx, mem_cons_self, heq.symm⟩,
        fun ⟨t, ht, hhash⟩ => hout ⟨t, mem_cons_of_mem _ ht, hhash⟩⟩
    unfold ChainNode.resurrect at hrun
    split at hrun
    · rename_i pool' haccepted
      split_ifs at haccepted
      have hacc := acceptToMemoryPool_accepted haccepted
      have hinv' : pool'.Inv R.C := by
        rw [hacc.added]
        exact hinv.addUnchecked hacc.addable
      obtain ⟨hlast, htxs, hsub, hback⟩ := ih hinv' (hacc.txsIn hpool (hS tx mem_cons_self)) hothers hrun
      refine ⟨hlast, htxs, fun t ht => ?_, fun hash hout hhas => ?_⟩
      · have hmem := hsub ht
        rw [append_assoc] at hmem
        exact hmem
      · exact (hacc.has_iff (hrest hout).1).mp (hback hash (hrest hout).2 hhas)
    · obtain ⟨mid, hmid, hrun⟩ := check_bind_ok.mp hrun
      obtain ⟨mid', hmid', hmidinv⟩ := hinv.remove tx true []
      rw [hmid] at hmid'
      cases hmid'
      obtain ⟨hwith, -, -⟩ := hinv.remove_recursive hmid
      obtain ⟨hlast, htxs, hsub, hback⟩ := ih hmidinv (hpool.within hwith.toWithin) hothers hrun
      refine ⟨hlast, htxs, fun t ht => ?_, fun hash hout hhas => ?_⟩
      · rcases mem_append.mp (hsub ht) with hold | hnew
        · exact mem_append_left _ hold
        · exact mem_append_right _ (mem_cons_of_mem _ hnew)
      · obtain ⟨entry, hin⟩ := Reddcoin.has_iff.mp (hback hash (hrest hout).2 hhas)
        exact Reddcoin.has_iff.mpr ⟨entry, hwith.entries hash entry hin⟩

theorem disconnectPool_spec {s : ChainNode} {policy : RelayPolicy} {v : CoinsView} {vtx : List CTransaction}
    {result : CTxMemPool × List CTransaction} (hinv : s.mempool.Inv C) (hpool : s.mempool.TxsIn S)
    (hS : ∀ tx ∈ vtx, tx ∈ S) (hrun : s.disconnectPool P C policy v vtx = .ok result) :
    result.1.Inv C ∧ result.1.TxsIn S ∧ result.2 ⊆ vtx ∧
      ∀ hash ∉ hashesOf C vtx, result.1.has hash → s.mempool.has hash = true := by
  unfold ChainNode.disconnectPool at hrun
  obtain ⟨back, hback, hrun⟩ := check_bind_ok.mp hrun
  obtain ⟨last, hlast, hrun⟩ := check_bind_ok.mp hrun
  obtain rfl := check_pure_ok.mp hrun
  have hspec := resurrect_spec (R := relayAt P C policy s.height v s.height) hinv hpool hS hback
  obtain ⟨hbackinv, hbackpool, hsub, hhas⟩ := hspec
  unfold CTxMemPool.removeCoinbaseSpends at hlast
  obtain ⟨txs, -, hlast⟩ := check_bind_ok.mp hlast
  obtain ⟨hlastinv, hclosed, -⟩ := CTxMemPool.Inv.removeAll_closed hbackinv hlast
  refine ⟨hlastinv, hbackpool.within hclosed.toWithin, hsub, fun hash hout hin => ?_⟩
  obtain ⟨entry, hentry⟩ := has_iff.mp hin
  exact hhas hash hout (has_iff.mpr ⟨entry, hclosed.entries hash entry hentry⟩)

end

/-! ## The node and its wallet -/

section

variable (C : Crypto) (T : Set CTransaction) (𝓑 : Set CBlock)

/-- The transactions of `T` that pass `CheckTransaction`. -/
def CheckedIn : Set CTransaction :=
  {tx | tx ∈ T ∧ checkTransaction tx = .ok ()}

/-- The chain and the pool hold checked transactions, and the wallet knows where its own are. -/
structure Consistent (x : WalletNode) : Prop where
  inv : x.node.mempool.Inv C
  pool : x.node.mempool.TxsIn (CheckedIn T)
  active : ∀ tip ∈ x.node.active, tip.block ∈ 𝓑 ∧ ∀ tx ∈ tip.block.vtx, tx ∈ CheckedIn T
  wallet : WalletOk C T 𝓑 x.wallet

end

section

variable {P : CChainParams} {C : Crypto} {T : Set CTransaction} {𝓑 : Set CBlock} {keys : WalletKeys}
  {x x' : WalletNode} {policy : RelayPolicy} {A : Set Uint256}

theorem Consistent.alike {w : CWallet} (h : Consistent C T 𝓑 x) (halike : x.wallet.Alike w) :
    Consistent C T 𝓑 { x with wallet := w } :=
  ⟨h.inv, h.pool, h.active, h.wallet.alike halike⟩

/-- What has a depth of at least 0 was checked. -/
theorem Consistent.checked (hT : Set.InjOn C.txHash T) (h : Consistent C T 𝓑 x) {hash : Uint256} {wtx : CWalletTx}
    (hrec : Recorded C T hash wtx) (hplaced : CWallet.Placed C 𝓑 wtx) (hdepth : 0 ≤ wtx.getDepthInMainChain C x.node) :
    checkTransaction wtx.tx = .ok () := by
  rcases wtx.depth_nonneg_iff.mp hdepth with hactive | hhas
  · obtain ⟨hblock, tip, htip, hhash⟩ := exists_active_of_depth hactive
    obtain ⟨hmem, htxs⟩ := h.active tip htip
    obtain ⟨tx, htx, htxhash⟩ := hplaced hblock tip.block hmem hhash
    obtain ⟨htxT, hcheck⟩ := htxs tx htx
    have heq : tx = wtx.tx := hT htxT hrec.mem (htxhash.trans (hrec.hash_eq.trans hrec.txHash_eq.symm))
    rw [← heq]
    exact hcheck
  · obtain ⟨entry, hin⟩ := has_iff.mp hhas
    obtain ⟨htxT, hcheck⟩ := h.pool _ entry hin
    have heq : entry.tx = wtx.tx :=
      hT htxT hrec.mem ((h.inv.keyed _ entry hin).trans (hrec.hash_eq.trans hrec.txHash_eq.symm))
    rw [← heq]
    exact hcheck

/-- Outside `A`, the pool keeps what spends cached credits, and takes in nothing; the chain keeps all. -/
theorem Consistent.steady (h : Consistent C T 𝓑 x) {node : ChainNode} {w : CWallet}
    (hpool : ∀ o, ∀ hash ∉ A, (o, hash) ∈ x.wallet.mapTxSpends → x.wallet.HoldsCredit keys o → ¬ w.Uncached o.hash →
      (x.node.mempool.has hash ↔ node.mempool.has hash))
    (hactive : ∀ wtx : CWalletTx, wtx.hash ∉ A → CWallet.Placed C 𝓑 wtx →
      (wtx.getDepthInActive C x.node ≠ 0 ↔ wtx.getDepthInActive C node ≠ 0)) :
    CWallet.Steady C keys A x.wallet w x.node node := by
  intro o hash hout hspends hholds hcached wtx hin
  obtain ⟨wtx', hin', hrec, hplaced, -⟩ := h.wallet.spends o hash hspends
  rw [hin] at hin'
  cases hin'
  have hhas := hpool o hash hout hspends hholds hcached
  rw [← hrec.hash_eq] at hout hhas
  rw [wtx.depth_nonneg_iff, wtx.depth_nonneg_iff, hhas, hactive wtx hout hplaced]

section

variable (hT : Set.InjOn C.txHash T) (h𝓑 : ∀ b ∈ 𝓑, ∀ b' ∈ 𝓑, b.getHash C = b'.getHash C → b.vtx = b'.vtx)
    {tx : CTransaction} (hmem : tx ∈ T) (h : Consistent C T 𝓑 x) (hfresh : x.wallet.Fresh C keys x.node)

include hT h𝓑 hmem h hfresh

/-- `AcceptToMemoryPool`, perhaps for a transaction that the wallet has just been given. -/
theorem Consistent.accept : Consistent C T 𝓑 (x.accept P C keys policy tx) ∧
      (x.accept P C keys policy tx).wallet.Fresh C keys (x.accept P C keys policy tx).node := by
  unfold WalletNode.accept
  split
  · rename_i pool haccept
    have hacc := acceptToMemoryPool_accepted haccept
    have hheard : Heard {C.txHash tx} x.wallet (x.wallet.syncTransaction C keys tx none) ∧ _ :=
      syncTransaction_heard hT h𝓑 hmem (fun _ hnone => by cases hnone) h.wallet
    have hinv : pool.Inv C := by
      rw [hacc.added]
      exact h.inv.addUnchecked hacc.addable
    refine ⟨⟨hinv, hacc.txsIn h.pool ⟨hmem, hacc.checked⟩, h.active, hheard.2⟩, ?_⟩
    refine Fresh.heard h.wallet hfresh hheard.1 (h.steady (fun o hash hout _ _ _ => ?_) fun _ _ _ => Iff.rfl)
    exact (hacc.has_iff hout).symm
  · exact ⟨h, hfresh⟩

theorem Consistent.commit : Consistent C T 𝓑 (x.commitTransaction P C keys policy tx) ∧
      (x.commitTransaction P C keys policy tx).wallet.Fresh C keys (x.commitTransaction P C keys policy tx).node := by
  obtain ⟨hheard, hok⟩ := commit_heard hT hmem h.wallet
  exact Consistent.accept hT h𝓑 hmem ⟨h.inv, h.pool, h.active, hok⟩
    (Fresh.heard h.wallet hfresh hheard fun _ _ _ _ _ _ _ _ => Iff.rfl)

end

theorem connectBlock_checked {ctx : ConnectContext} {block : CBlock} {view : CoinsView} {r : ConnectResult}
    (h : connectBlock P C ctx block view false = .ok r) : ∀ tx ∈ block.vtx, checkTransaction tx = .ok () := by
  intro tx htx
  unfold connectBlock at h
  obtain ⟨hcheck, -⟩ := check_seq_ok.mp h
  simp only [checkBlock, check_seq_ok] at hcheck
  obtain ⟨-, -, -, -, -, -, htxs, -⟩ := hcheck
  exact (check_seq_ok.mp (forM_ok.mp htxs tx htx)).1

theorem Consistent.connectTip (hT : Set.InjOn C.txHash T)
    (h𝓑 : ∀ b ∈ 𝓑, ∀ b' ∈ 𝓑, b.getHash C = b'.getHash C → b.vtx = b'.vtx) {ctx : ConnectContext} {block : CBlock}
    (hblock : block ∈ 𝓑) (htxs : ∀ tx ∈ block.vtx, tx ∈ T) (h : Consistent C T 𝓑 x)
    (hfresh : x.wallet.Fresh C keys x.node) (hrun : x.connectTip P C keys ctx block = .ok x') :
    Consistent C T 𝓑 x' ∧ x'.wallet.Fresh C keys x'.node := by
  unfold WalletNode.connectTip at hrun
  obtain ⟨⟨node, txConflicted⟩, hconnect, hrun⟩ := check_bind_ok.mp hrun
  obtain rfl := check_pure_ok.mp hrun
  unfold ChainNode.connectTip at hconnect
  obtain ⟨-, hconnect⟩ := check_seq_ok.mp hconnect
  split at hconnect
  · cases hconnect
  · rename_i r hr
    obtain ⟨result, hresult, hconnect⟩ := check_bind_ok.mp hconnect
    obtain ⟨-, hconnect⟩ := check_seq_ok.mp hconnect
    obtain ⟨rfl, rfl⟩ := Prod.mk.inj (check_pure_ok.mp hconnect)
    have hremoved := onPool_eq_ok.mp hresult
    obtain ⟨hafter, -, hlist⟩ := h.inv.removeForBlock_spec hremoved
    have hnil : ∀ t ∈ ([] : List CTransaction), t ∈ CheckedIn T := fun _ hm => by simp at hm
    obtain ⟨hpool, hconflicted⟩ := h.pool.removeForBlock hnil hremoved
    let calls := result.2.map (fun tx => (tx, none)) ++ block.vtx.map fun tx => (tx, some block)
    have hcalls : ∀ call ∈ calls, call.1 ∈ T ∧ ∀ b, call.2 = some b → b ∈ 𝓑 ∧ call.1 ∈ b.vtx := by
      intro call hcall
      rcases mem_append.mp hcall with hcall | hcall
      · obtain ⟨t, ht, rfl⟩ := mem_map.mp hcall
        exact ⟨(hconflicted t ht).1, fun b hb => by cases hb⟩
      · obtain ⟨t, ht, rfl⟩ := mem_map.mp hcall
        refine ⟨htxs t ht, fun b hb => ?_⟩
        cases hb
        exact ⟨hblock, ht⟩
    have hhashes : ∀ hash, hash ∉ hashesOf C (calls.map Prod.fst) →
        hash ∉ hashesOf C result.2 ∧ hash ∉ hashesOf C block.vtx := by
      intro hash hout
      refine ⟨fun ⟨t, ht, hhash⟩ => hout ⟨t, ?_, hhash⟩, fun ⟨t, ht, hhash⟩ => hout ⟨t, ?_, hhash⟩⟩
      · exact mem_map.mpr ⟨(t, none), mem_append_left _ (mem_map_of_mem ht), rfl⟩
      · exact mem_map.mpr ⟨(t, some block), mem_append_right _ (mem_map_of_mem ht), rfl⟩
    have hheard : Heard (hashesOf C (calls.map Prod.fst)) x.wallet (x.wallet.syncAll C keys calls) ∧ _ :=
      syncAll_heard hT h𝓑 (fun call hcall => (hcalls call hcall).1) (fun call hcall => (hcalls call hcall).2) h.wallet
    refine ⟨⟨hafter.inv, hpool, fun tip htip => ?_, hheard.2⟩, ?_⟩
    · rcases mem_cons.mp htip with rfl | htip
      · exact ⟨hblock, fun tx htx => ⟨htxs tx htx, connectBlock_checked hr tx htx⟩⟩
      · exact h.active tip htip
    · refine Fresh.heard h.wallet hfresh hheard.1 (h.steady (fun o hash hout _ _ _ => ?_) fun wtx hout hplaced => ?_)
      · -- what leaves the pool is in the block or in conflict with it
        obtain ⟨hconflict, hvtx⟩ := hhashes hash hout
        rw [has_iff, has_iff]
        constructor
        · rintro ⟨entry, hin⟩
          cases hin' : result.1.mapTx.lookup hash with
          | some entry' => exact ⟨entry', rfl⟩
          | none =>
            rcases hlist hash entry hin hin' with hmem | hmem
            · exact absurd hmem hvtx
            · exact absurd ⟨entry.tx, hmem, h.inv.keyed hash entry hin⟩ hconflict
        · rintro ⟨entry, hin⟩
          exact ⟨entry, hafter.entries hash entry hin⟩
      · refine (getDepthInActive_cons rfl fun hne heq => ?_).symm
        exact (hhashes _ hout).2 (hplaced hne block hblock heq)

variable (P C keys) in
/-- What leaves the pool with the disconnected block, without being in it, spends from no credit that stays cached. -/
def KeepsSpenders (x : WalletNode) (policy : RelayPolicy) : Prop :=
  ∀ tip x', x.node.active.head? = some tip → x.disconnectTip P C keys policy = .ok x' →
    ∀ o hash, (o, hash) ∈ x.wallet.mapTxSpends → x.wallet.HoldsCredit keys o → hash ∉ hashesOf C tip.block.vtx →
      x.node.mempool.has hash = true → x'.node.mempool.has hash = false → x'.wallet.Uncached o.hash

theorem Consistent.disconnectTip (hT : Set.InjOn C.txHash T)
    (h𝓑 : ∀ b ∈ 𝓑, ∀ b' ∈ 𝓑, b.getHash C = b'.getHash C → b.vtx = b'.vtx) (h : Consistent C T 𝓑 x)
    (hfresh : x.wallet.Fresh C keys x.node) (hkeeps : KeepsSpenders P C keys x policy)
    (hrun : x.disconnectTip P C keys policy = .ok x') : Consistent C T 𝓑 x' ∧ x'.wallet.Fresh C keys x'.node := by
  have hrun' := hrun
  unfold WalletNode.disconnectTip at hrun
  obtain ⟨⟨node, accepted⟩, hdisconnect, hrun⟩ := check_bind_ok.mp hrun
  obtain rfl := check_pure_ok.mp hrun
  unfold ChainNode.disconnectTip at hdisconnect
  obtain ⟨-, hdisconnect⟩ := check_seq_ok.mp hdisconnect
  cases hactive : x.node.active with
  | nil =>
    rw [hactive] at hdisconnect
    cases hdisconnect
  | cons tip rest =>
    rw [hactive] at hdisconnect
    dsimp only at hdisconnect
    split at hdisconnect
    · cases hdisconnect
    · cases hdisconnect
    · rename_i view _
      obtain ⟨result, hresult, hdisconnect⟩ := check_bind_ok.mp hdisconnect
      obtain ⟨-, hdisconnect⟩ := check_seq_ok.mp hdisconnect
      obtain ⟨rfl, rfl⟩ := Prod.mk.inj (check_pure_ok.mp hdisconnect)
      obtain ⟨hblock, htxs⟩ := h.active tip (hactive ▸ mem_cons_self)
      obtain ⟨hinv, hpool, hsub, hback⟩ := disconnectPool_spec h.inv h.pool htxs (onPool_eq_ok.mp hresult)
      let calls : List (CTransaction × Option CBlock) := (result.2 ++ tip.block.vtx).map fun tx => (tx, none)
      have hvtx : ∀ call ∈ calls, call.1 ∈ tip.block.vtx ∧ call.2 = none := by
        intro call hcall
        obtain ⟨t, ht, rfl⟩ := mem_map.mp hcall
        rcases mem_append.mp ht with ht | ht
        · exact ⟨hsub ht, rfl⟩
        · exact ⟨ht, rfl⟩
      have hhashes : ∀ hash, hash ∉ hashesOf C (calls.map Prod.fst) → hash ∉ hashesOf C tip.block.vtx := by
        rintro hash hout ⟨t, ht, hhash⟩
        exact hout ⟨t, mem_map.mpr ⟨(t, none), mem_map_of_mem (mem_append_right _ ht), rfl⟩, hhash⟩
      have hheard : Heard (hashesOf C (calls.map Prod.fst)) x.wallet (x.wallet.syncAll C keys calls) ∧ _ :=
        syncAll_heard hT h𝓑 (fun call hcall => (htxs _ (hvtx call hcall).1).1)
          (fun call hcall b hb => by rw [(hvtx call hcall).2] at hb; cases hb) h.wallet
      refine ⟨⟨hinv, hpool, fun t ht => h.active t (hactive ▸ mem_cons_of_mem _ ht), hheard.2⟩, ?_⟩
      refine Fresh.heard h.wallet hfresh hheard.1 (h.steady (fun o hash hout hspends hholds hcached => ?_)
        fun wtx hout hplaced => ?_)
      · have hnotin := hhashes hash hout
        constructor
        · intro hhas
          by_contra hgone
          rw [Bool.not_eq_true] at hgone
          have hdone := hkeeps tip _ (by rw [hactive]; rfl) hrun' o hash hspends hholds hnotin hhas hgone
          rw [hactive] at hdone
          exact hcached hdone
        · exact hback hash hnotin
      · refine getDepthInActive_cons hactive fun hne heq => ?_
        exact hhashes _ hout (hplaced hne tip.block hblock heq)

end

/-! ## Runs -/

/-- The states that are reached from one in which no credit is cached, with transactions from `T` and blocks from `𝓑`.
`D` says where `DisconnectTip` is followed. -/
inductive WalletRun (P : CChainParams) (C : Crypto) (keys : WalletKeys) (T : Set CTransaction) (𝓑 : Set CBlock)
    (D : WalletNode → RelayPolicy → Prop) : WalletNode → Prop where
  | start {x : WalletNode} (consistent : Consistent C T 𝓑 x) (uncached : ∀ hash, x.wallet.Uncached hash) :
      WalletRun P C keys T 𝓑 D x
  | accept {x : WalletNode} {policy : RelayPolicy} {tx : CTransaction} (prev : WalletRun P C keys T 𝓑 D x)
      (mem : tx ∈ T) : WalletRun P C keys T 𝓑 D (x.accept P C keys policy tx)
  | connect {x x' : WalletNode} {ctx : ConnectContext} {block : CBlock} (prev : WalletRun P C keys T 𝓑 D x)
      (mem : block ∈ 𝓑) (txs : ∀ tx ∈ block.vtx, tx ∈ T) (connected : x.connectTip P C keys ctx block = .ok x') :
      WalletRun P C keys T 𝓑 D x'
  | disconnect {x x' : WalletNode} {policy : RelayPolicy} (prev : WalletRun P C keys T 𝓑 D x) (allowed : D x policy)
      (disconnected : x.disconnectTip P C keys policy = .ok x') : WalletRun P C keys T 𝓑 D x'
  | commit {x : WalletNode} {policy : RelayPolicy} {tx : CTransaction} (prev : WalletRun P C keys T 𝓑 D x)
      (mem : tx ∈ T) : WalletRun P C keys T 𝓑 D (x.commitTransaction P C keys policy tx)
  | credit {x : WalletNode} {hash : Uint256} {wtx : CWalletTx} {fUseCache : Bool} {r : Int × CWalletTx}
      (prev : WalletRun P C keys T 𝓑 D x) (found : x.wallet.mapWallet.lookup hash = some wtx)
      (query : x.wallet.getAvailableCredit C keys x.node wtx fUseCache = some r) :
      WalletRun P C keys T 𝓑 D { x with wallet := x.wallet.setTx hash r.2 }
  | balance {x : WalletNode} {nAdjustedTime : Int} {r : Int × CWallet} (prev : WalletRun P C keys T 𝓑 D x)
      (query : x.wallet.getBalance C keys x.node nAdjustedTime = some r) :
      WalletRun P C keys T 𝓑 D { x with wallet := r.2 }
  | unconfirmed {x : WalletNode} {nAdjustedTime : Int} {r : Int × CWallet} (prev : WalletRun P C keys T 𝓑 D x)
      (query : x.wallet.getUnconfirmedBalance C keys x.node nAdjustedTime = some r) :
      WalletRun P C keys T 𝓑 D { x with wallet := r.2 }
  | available {x : WalletNode} {nAdjustedTime : Int} (prev : WalletRun P C keys T 𝓑 D x) :
      WalletRun P C keys T 𝓑 D { x with wallet := (x.wallet.availableCoins C keys x.node nAdjustedTime).2 }

section

variable {P : CChainParams} {C : Crypto} {T : Set CTransaction} {𝓑 : Set CBlock} {keys : WalletKeys} {x : WalletNode}

theorem WalletRun.fresh (hT : Set.InjOn C.txHash T)
    (h𝓑 : ∀ b ∈ 𝓑, ∀ b' ∈ 𝓑, b.getHash C = b'.getHash C → b.vtx = b'.vtx)
    (h : WalletRun P C keys T 𝓑 (KeepsSpenders P C keys) x) :
    Consistent C T 𝓑 x ∧ x.wallet.Fresh C keys x.node := by
  induction h with
  | start consistent uncached =>
    refine ⟨consistent, fun hash wtx nCredit hin hcached => ?_⟩
    rw [uncached hash wtx hin] at hcached
    cases hcached
  | accept _ mem ih => exact ih.1.accept hT h𝓑 mem ih.2
  | connect _ mem txs connected ih => exact ih.1.connectTip hT h𝓑 mem txs ih.2 connected
  | disconnect _ allowed disconnected ih => exact ih.1.disconnectTip hT h𝓑 ih.2 allowed disconnected
  | commit _ mem ih => exact ih.1.commit hT h𝓑 mem ih.2
  | credit _ found query ih =>
    obtain ⟨halike, hfresh⟩ := (updates_getAvailableCredit query).setTx found ih.2
    exact ⟨ih.1.alike halike, hfresh⟩
  | balance _ query ih | unconfirmed _ query ih =>
    obtain ⟨halike, hfresh⟩ := balanceLoop_fresh ih.2 query
    exact ⟨ih.1.alike halike, hfresh⟩
  | available _ ih =>
    obtain ⟨halike, hfresh⟩ := availableCoinsLoop_fresh ih.2
    exact ⟨ih.1.alike halike, hfresh⟩

/-- The cached credits of a wallet are right, and its balance is the total of its spendable coins. -/
def CreditsRight (C : Crypto) (keys : WalletKeys) (x : WalletNode) : Prop :=
  (∀ hash wtx, x.wallet.mapWallet.lookup hash = some wtx →
    (x.wallet.getAvailableCredit C keys x.node wtx true).map Prod.fst =
      (x.wallet.getAvailableCredit C keys x.node wtx false).map Prod.fst) ∧
  (x.wallet.setLockedCoins = [] → ∀ nAdjustedTime, (x.wallet.getBalance C keys x.node nAdjustedTime).map Prod.fst =
      some (wrap64 (spendableTotal (x.wallet.availableCoins C keys x.node nAdjustedTime).1)))

end

namespace Example

def walletKeys : WalletKeys where
  isMine := fun out => if out.scriptPubKey = (keyOut 0).scriptPubKey then .spendable else .no
  bSpendZeroConfChange := true

def emptyWallet : WalletNode where
  node := emptyNode
  wallet := { mapWallet := ∅, mapTxSpends := [], setLockedCoins := [] }

/-- Spends an output of the wallet that is not in a block yet, and the second coinbase as soon as it is mature. -/
def joinTx : CTransaction :=
  { spendTx (crypto.txHash splitTx) 0 [keyOut 30] with
    vin := (spendTx (crypto.txHash splitTx) 0 []).vin ++ (spendTx (crypto.txHash (mintTx 102)) 0 []).vin
    nTime := 132 }

def walletTxs : List CTransaction :=
  splitTx :: joinTx :: (List.range 31).map fun i => mintTx (101 + i)

def connectWallet : List CBlock → WalletNode → Except TipStop WalletNode
  | [], x => .ok x
  | block :: blocks, x => do
    let x' ← x.connectTip params crypto walletKeys (supplyContext (x.node.height + 1) block 0) block
    connectWallet blocks x'

/-- The blocks that the examples connect. -/
def walletChain : Option WalletNode :=
  (connectWallet (plainBlocks 31) emptyWallet).toOption

/-- A wallet that has heard of a transaction after the tip was disconnected. -/
def splitWallet : Option WalletNode := do
  let x ← walletChain
  let x ← (x.disconnectTip params crypto walletKeys openPolicy).toOption
  pure (x.accept params crypto walletKeys openPolicy splitTx)

/-- Both transactions are in the pool, the credit of the first is asked for, and then the tip is disconnected. -/
def staleWallet : Option WalletNode := do
  let x ← walletChain
  let x := x.accept params crypto walletKeys openPolicy splitTx
  let x := x.accept params crypto walletKeys openPolicy joinTx
  let wtx ← x.wallet.mapWallet.lookup (crypto.txHash splitTx)
  let r ← x.wallet.getAvailableCredit crypto walletKeys x.node wtx true
  let x := { x with wallet := x.wallet.setTx (crypto.txHash splitTx) r.2 }
  (x.disconnectTip params crypto walletKeys openPolicy).toOption

def splitCredit (x : WalletNode) (fUseCache : Bool) : Option Int := do
  let wtx ← x.wallet.mapWallet.lookup (crypto.txHash splitTx)
  (x.wallet.getAvailableCredit crypto walletKeys x.node wtx fUseCache).map Prod.fst

/-- The runs of the examples. -/
abbrev ExampleRun (D : WalletNode → RelayPolicy → Prop) : WalletNode → Prop :=
  WalletRun params crypto walletKeys {tx | tx ∈ walletTxs} {block | block ∈ plainBlocks 31} D

theorem walletTxs_injOn : Set.InjOn crypto.txHash {tx | tx ∈ walletTxs} := by
  have hnodup : (walletTxs.map crypto.txHash).Nodup := by decide +kernel
  exact fun a ha b hb heq => inj_on_of_nodup_map hnodup ha hb heq

theorem plainBlocks_vtx_eq : ∀ b ∈ {block | block ∈ plainBlocks 31}, ∀ b' ∈ {block | block ∈ plainBlocks 31},
    b.getHash crypto = b'.getHash crypto → b.vtx = b'.vtx := by
  have hnodup : ((plainBlocks 31).map fun b => b.getHash crypto).Nodup := by decide +kernel
  exact fun b hb b' hb' heq => congrArg CBlock.vtx (inj_on_of_nodup_map hnodup hb hb' heq)

theorem connectWallet_run {blocks : List CBlock}
    (hblocks : ∀ block ∈ blocks, block ∈ plainBlocks 31 ∧ ∀ tx ∈ block.vtx, tx ∈ walletTxs) {x x' : WalletNode}
    (hx : ExampleRun D x) (h : connectWallet blocks x = .ok x') : ExampleRun D x' := by
  induction blocks generalizing x with
  | nil =>
    cases h
    exact hx
  | cons block blocks ih =>
    unfold connectWallet at h
    obtain ⟨mid, hmid, h⟩ := check_bind_ok.mp h
    obtain ⟨hmem, htxs⟩ := hblocks block mem_cons_self
    exact ih (fun b hb => hblocks b (mem_cons_of_mem _ hb)) (.connect hx hmem htxs hmid) h

theorem toOption_eq_some {ε α : Type} {r : Except ε α} {a : α} (h : r.toOption = some a) : r = .ok a := by
  cases r with
  | error stop => cases h
  | ok a' => rw [Option.some.inj h]

theorem emptyWallet_run : ExampleRun D emptyWallet := by
  refine .start ⟨?_, ?_, ?_, ?_, ?_⟩ ?_
  · exact CTxMemPool.inv_new true
  · exact fun hash entry hin => by cases (AList.lookup_empty hash).symm.trans hin
  · exact fun tip htip => by cases htip
  · exact fun hash wtx hin => by cases (AList.lookup_empty hash).symm.trans hin
  · exact fun o hash hmem => by cases hmem
  · exact fun hash wtx hin => by cases (AList.lookup_empty hash).symm.trans hin

theorem walletChain_run {x : WalletNode} (h : walletChain = some x) : ExampleRun D x := by
  have hblocks : ∀ block ∈ plainBlocks 31, ∀ tx ∈ block.vtx, tx ∈ walletTxs := by decide +kernel
  unfold walletChain at h
  exact connectWallet_run (fun block hb => ⟨hb, hblocks block hb⟩) emptyWallet_run (toOption_eq_some h)

end Example

open Example

end Reddcoin
