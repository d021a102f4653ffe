import Reddcoin.Connect.Value
import Reddcoin.Lib.Schedule
import Reddcoin.Mining.CheckedPool

/-!
# What a template has to be

A sound template is a block that can be connected, of transactions in an order that respects their dependencies, within
the limits.  When the whole pool fits it takes everything that the next block can contain.
-/

namespace Reddcoin

namespace Miner

variable {D : Type} (M : Miner D)

/-! ## Transactions of the pool -/

/-- The ids of the transactions of the pool that a transaction spends, one for each input. -/
def poolParents (vin : List CTxIn) : List Uint256 :=
  (vin.map fun txin => txin.prevout.hash).filter fun hash => (M.mempool.mapTx.lookup hash).isSome

/-- The signature operations of a transaction, those of its redeem scripts included. -/
def sigOps (tx : CTransaction) : Nat :=
  getLegacySigOpCount tx + (getP2SHSigOpCount M.poolView tx).getD 0

def valueIn (tx : CTransaction) : Int :=
  (getValueIn M.poolView tx).getD 0

def fee (tx : CTransaction) : Int :=
  M.valueIn tx - valueOf tx.vout

/-- The fee rate of a transaction, with what the operator has added to its fee. -/
def feeRate (tx : CTransaction) : CFeeRate :=
  CFeeRate.ofPaid (wrap64 ((M.applyDeltas (M.C.txHash tx) M.ops.zero (M.valueIn tx)).2 - valueOf tx.vout))
    tx.serializeSize

/-- The transactions of the pool. -/
def poolTxs : List CTransaction :=
  M.mempool.sortedMapTx.map fun e => e.2.tx

/-- The whole pool fits into a block. -/
structure PoolFits : Prop where
  size : 1000 + (M.poolTxs.map CTransaction.serializeSize).sum < M.nBlockMaxSize
  sigOps : 100 + (M.poolTxs.map M.sigOps).sum < MAX_BLOCK_SIGOPS

/-- The whole pool pays at least the relay fee. -/
def PoolPays : Prop :=
  ∀ tx, M.InPool tx → M.minRelayTxFee ≤ M.feeRate tx

/-- The next block can contain the transaction, after its parents in the pool. -/
inductive Includable : CTransaction → Prop where
  | tx (tx : CTransaction) (inPool : M.InPool tx)
      (final : isFinalNow M.chain.nAdjustedTime tx (M.nHeight + 1) = true)
      (version : if M.fProofOfStake then POW_TX_VERSION < tx.nVersion else tx.nVersion ≤ POW_TX_VERSION)
      (time : tx.nTime ≤ M.blockTime)
      (inputs : M.checksInputs tx true MANDATORY_SCRIPT_VERIFY_FLAGS = .ok [])
      (parents : ∀ parent, M.InPool parent → M.C.txHash parent ∈ M.poolParents tx.vin → Includable parent) :
      Includable tx

/-! ## Templates -/

/-- A block that the next one can be made of. -/
structure Sound (t : CBlockTemplate) : Prop where
  distinct : (t.block.vtx.flatMap fun tx => tx.vin.map CTxIn.prevout).Nodup
  ordered : Schedule.EachAfter (fun before tx => tx.isCoinBase = false →
    ∀ hash ∈ M.poolParents tx.vin, hash ∈ before.map M.C.txHash) t.block.vtx
  size : t.block.serializeSize < M.nBlockMaxSize
  sigOps : (t.block.vtx.map M.sigOps).sum < MAX_BLOCK_SIGOPS
  connects : ∃ r, connectBlock M.P M.C M.indexDummy t.block M.pcoinsTip.flush true = .ok r

/-- What `CreateNewBlock` is for: a sound template, with everything that can be included when there is room. -/
def BuildsTemplate : Prop :=
  ∃ t, M.createNewBlock = some t ∧ M.Sound t ∧ (M.PoolFits → M.PoolPays → ∀ tx, M.Includable tx → tx ∈ t.block.vtx)

/-- What the node around the miner makes sure of. -/
structure Ready : Prop where
  /-- The coins are those of the tip. -/
  best : M.hashTip = M.pcoinsTip.getBestBlock
  admitted : ∀ tx, M.InPool tx → M.Admitted tx
  /-- The output of the coinbase fits into what is set aside for it. -/
  script : M.scriptPubKeyIn.length ≤ 800 ∧ getSigOpCount false M.scriptPubKeyIn ≤ 100
  /-- No transaction has the id of the coinbase yet. -/
  newId : ∀ nFees, M.pcoinsTip.haveCoins (M.C.txHash (M.coinbase nFees)) = false ∧
    M.mempool.mapTx.lookup (M.C.txHash (M.coinbase nFees)) = none
  /-- There is no more money than can be. -/
  money : getBlockValue (M.nHeight + 1) 0 + (M.poolTxs.map M.fee).sum ≤ MAX_MONEY

/-! ## What holds of a transaction of the pool -/

variable {M} {tx tx' : CTransaction} {hash : Uint256} {entry : CTxMemPoolEntry}

theorem InPool.of_lookup (hin : M.mempool.mapTx.lookup hash = some entry) : M.InPool entry.tx :=
  ⟨hash, entry, hin, rfl⟩

theorem mem_poolTxs : tx ∈ M.poolTxs ↔ M.InPool tx := by
  unfold poolTxs
  rw [List.mem_map]
  constructor
  · rintro ⟨e, he, rfl⟩
    exact .of_lookup (mem_sortedMapTx.mp he)
  · rintro ⟨hash, entry, hin, rfl⟩
    exact ⟨⟨hash, entry⟩, mem_sortedMapTx.mpr hin, rfl⟩

theorem mem_poolParents {vin : List CTxIn} : hash ∈ M.poolParents vin ↔
    (∃ txin ∈ vin, txin.prevout.hash = hash) ∧ ∃ entry, M.mempool.mapTx.lookup hash = some entry := by
  unfold poolParents
  rw [List.mem_filter, List.mem_map, Option.isSome_iff_exists]

theorem foldlM_isSome {α β : Type} {f : β → α → Option β} {l : List α} (h : ∀ a ∈ l, ∀ b, (f b a).isSome)
    (b : β) : (l.foldlM f b).isSome = true := by
  induction l generalizing b with
  | nil => rfl
  | cons a l ih =>
    obtain ⟨b', hb'⟩ := Option.isSome_iff_exists.mp (h a List.mem_cons_self b)
    rw [List.foldlM_cons, hb']
    exact ih (fun a' ha' => h a' (List.mem_cons_of_mem _ ha')) b'

namespace CheckedPool

variable (hp : M.CheckedPool)

include hp

section

variable (hin : M.InPool tx)

include hin

/-- A transaction is found under its id. -/
theorem lookup : ∃ entry, M.mempool.mapTx.lookup (M.C.txHash tx) = some entry ∧ entry.tx = tx := by
  obtain ⟨hash, entry, hlook, rfl⟩ := hin
  rw [hp.inv.keyed hash entry hlook]
  exact ⟨entry, hlook, rfl⟩

theorem injective (hin' : M.InPool tx') (heq : M.C.txHash tx = M.C.txHash tx') : tx = tx' := by
  obtain ⟨entry, hlook, rfl⟩ := hp.lookup hin
  obtain ⟨entry', hlook', rfl⟩ := hp.lookup hin'
  rw [heq, hlook'] at hlook
  rw [Option.some.inj hlook]

theorem hasInputs : haveInputs M.poolView tx = true :=
  (checkInputs_passed (hp.admitted tx hin).coinBase (hp.passes tx hin)).1

/-- Each input spends an output that the pool view has. -/
theorem available {txin : CTxIn} (htxin : txin ∈ tx.vin) :
    ∃ out, M.poolView.out? txin.prevout.hash txin.prevout.n = some out :=
  Option.isSome_iff_exists.mp ((haveInputs_iff (hp.admitted tx hin).coinBase).mp (hp.hasInputs hin) txin htxin)

theorem outputFor {txin : CTxIn} (htxin : txin ∈ tx.vin) :
    ∃ out, getOutputFor M.poolView txin = some out ∧ M.poolView.out? txin.prevout.hash txin.prevout.n = some out := by
  obtain ⟨out, hout⟩ := hp.available hin htxin
  have haccess := accessCoins_of_live (CCoins.isPruned_eq_false_iff.mpr ⟨_, out, hout⟩)
  refine ⟨out, ?_, hout⟩
  show (M.poolView.accessCoins _).bind _ = _
  rw [haccess]
  exact hout

theorem p2shSigOps : getP2SHSigOpCount M.poolView tx = some ((getP2SHSigOpCount M.poolView tx).getD 0) := by
  have hsome : (getP2SHSigOpCount M.poolView tx).isSome = true := by
    unfold getP2SHSigOpCount
    rw [(hp.admitted tx hin).coinBase]
    refine foldlM_isSome (fun txin htxin nSigOps => ?_) 0
    obtain ⟨out, hout, -⟩ := hp.outputFor hin htxin
    rw [hout]
    rfl
  obtain ⟨n, hn⟩ := Option.isSome_iff_exists.mp hsome
  rw [hn]
  rfl

/-- What a transaction spends and creates. -/
theorem amounts : getValueIn M.poolView tx = some (M.valueIn tx) ∧
    tx.getValueOut = some (valueOf tx.vout) ∧ moneyRange (M.valueIn tx) ∧
      moneyRange (valueOf tx.vout) ∧ 0 ≤ M.fee tx := by
  have hadm := hp.admitted tx hin
  obtain ⟨-, nValueIn, hvalues, hfee⟩ := checkInputs_passed hadm.coinBase (hp.passes tx hin)
  obtain ⟨hrange, -, hsame⟩ := checkInput_foldlM (by decide) hvalues
  have hget : getValueIn M.poolView tx = some nValueIn := by
    unfold getValueIn
    rw [hadm.coinBase]
    exact hsame
  obtain ⟨nValueOut, hout, hfee⟩ := check_bind_ok.mp (hfee hadm.coinStake)
  obtain ⟨hle, -⟩ := check_seq_ok.mp hfee
  rw [orCrash_eq_ok] at hout
  rw [require_eq_ok, decide_eq_true_eq] at hle
  obtain ⟨hvalue, -, hrangeOut⟩ := getValueOut_eq_some hout
  have hin' : M.valueIn tx = nValueIn := by
    rw [valueIn, hget]
    rfl
  rw [← hvalue, hin', hout]
  refine ⟨hget, rfl, hrange, hrangeOut, ?_⟩
  rw [fee, hin', ← hvalue]
  omega

theorem fee_nonneg : 0 ≤ M.fee tx :=
  (hp.amounts hin).2.2.2.2

end

end CheckedPool

end Miner

end Reddcoin

/-!
## What is gathered

The loop over the pool puts the candidates without parents in the pool into the priority queue, and makes orphans of the
others, each registered with its parents.
-/

namespace Reddcoin

namespace Miner

variable {D : Type} {M : Miner D} {tx : CTransaction} {hash : Uint256} {txin : CTxIn} {vin : List CTxIn}

/-! ## The inputs of one transaction -/

theorem accessCoins_flush (v : CoinsView) (k : Uint256) : v.flush.accessCoins k = v.accessCoins k := by
  have hempty : CCoinsViewCache.new.cacheCoins.lookup k = none := AList.lookup_empty k
  show CCoinsViewCache.new.getCoins k (v.accessCoins k) = _
  unfold CCoinsViewCache.getCoins
  rw [hempty]

theorem haveCoins_flush (v : CoinsView) (k : Uint256) : v.flush.haveCoins k = v.haveCoins k := by
  unfold CoinsView.haveCoins
  rw [accessCoins_flush]

/-- An input from the pool: its output is there, and no coin has its id. -/
theorem CheckedPool.fromPool (hp : M.CheckedPool) (hin : M.InPool tx) (htxin : txin ∈ tx.vin) {parent : CTxMemPoolEntry}
    (hparent : M.mempool.mapTx.lookup txin.prevout.hash = some parent) :
    M.pcoinsTip.haveCoins txin.prevout.hash = false ∧ ∃ out, getOutputFor M.poolView txin = some out ∧
      CCoins.spendable? parent.tx txin.prevout.n = some out ∧ parent.tx.vout[txin.prevout.n]? = some out := by
  obtain ⟨out, hget, hout⟩ := hp.outputFor hin htxin
  have hunknown := (hp.admitted parent.tx (.of_lookup hparent)).unknown
  rw [hp.inv.keyed _ parent hparent] at hunknown
  have hspendable : CCoins.spendable? parent.tx txin.prevout.n = some out := by
    rw [← CCoins.out?_fromTx parent.tx MEMPOOL_HEIGHT, ← coins_viewOver_pool (v := M.pcoinsTip) hparent]
    exact hout
  exact ⟨hunknown, out, hget, hspendable, (Option.filter_eq_some_iff.mp hspendable).1⟩

theorem CheckedPool.fromChain (hp : M.CheckedPool) (hin : M.InPool tx) (htxin : txin ∈ tx.vin)
    (hnone : M.mempool.mapTx.lookup txin.prevout.hash = none) :
    M.pcoinsTip.haveCoins txin.prevout.hash ∧ ∃ coins out, M.pcoinsTip.accessCoins txin.prevout.hash = some coins ∧
      getOutputFor M.poolView txin = some out ∧ M.pcoinsTip.utxo txin.prevout.hash txin.prevout.n = some out ∧
        coins.vout[txin.prevout.n]? = some out := by
  obtain ⟨out, hget, hout⟩ := hp.outputFor hin htxin
  have hlive : (M.poolView.coins txin.prevout.hash).isPruned = false := CCoins.isPruned_eq_false_iff.mpr ⟨_, out, hout⟩
  have hsame : M.poolView.coins txin.prevout.hash = M.pcoinsTip.coins txin.prevout.hash :=
    coins_viewOver_chain hnone hlive
  rw [hsame] at hlive
  have hcoins : M.pcoinsTip.utxo txin.prevout.hash txin.prevout.n = some out := by
    show (M.pcoinsTip.coins _).out? _ = _
    rw [← hsame]
    exact hout
  have hvout := (CCoins.out?_eq_some.mp hcoins).1
  have haccess := accessCoins_of_live hlive
  refine ⟨?_, _, out, haccess, hget, hcoins, hvout⟩
  unfold CoinsView.haveCoins
  rw [haccess]
  show (!(M.pcoinsTip.coins txin.prevout.hash).vout.isEmpty) = true
  rw [Bool.not_eq_true', List.isEmpty_eq_false_iff]
  exact List.ne_nil_of_mem (List.mem_of_getElem? hvout)

theorem poolParents_cons : M.poolParents (txin :: vin) =
    if (M.mempool.mapTx.lookup txin.prevout.hash).isSome then txin.prevout.hash :: M.poolParents vin
    else M.poolParents vin := by
  unfold poolParents
  rw [List.map_cons, List.filter_cons]

/-- What the loop over the inputs has made of some of them. -/
structure Scanned (M : Miner D) (hash : Uint256) (vin : List CTxIn) (s s' : InputScan D) : Prop where
  found : s'.fMissingInputs = s.fMissingInputs
  ready : s'.porphan = none ↔ s.porphan = none ∧ M.poolParents vin = []
  depends : ∀ k, k ∈ s'.porphan.getD [] ↔ k ∈ s.porphan.getD [] ∨ k ∈ M.poolParents vin
  dependers : ∀ k j, j ∈ s'.mapDependers k ↔ j ∈ s.mapDependers k ∨ (j = hash ∧ k ∈ M.poolParents vin)
  total : vin.foldlM (fun nResult txin => do
      let out ← getOutputFor M.poolView txin
      pure (wrap64 (nResult + out.nValue))) s.nTotalIn = some s'.nTotalIn

theorem scanned_nil (s : InputScan D) : Scanned M hash [] s s where
  found := rfl
  ready := by simp [poolParents]
  depends := by simp [poolParents]
  dependers := by simp [poolParents]
  total := rfl

/-- An input from the pool makes its transaction wait. -/
theorem Scanned.consPool {s s' : InputScan D} (hpool : (M.mempool.mapTx.lookup txin.prevout.hash).isSome)
    {out : CTxOut} (hout : getOutputFor M.poolView txin = some out)
    (h : Scanned M hash vin
      { s with
        porphan := some (OrderedSet.insert (· ≤ ·) txin.prevout.hash (s.porphan.getD []))
        nTotalIn := wrap64 (s.nTotalIn + out.nValue)
        mapDependers := Function.update s.mapDependers txin.prevout.hash
          (s.mapDependers txin.prevout.hash ++ [hash]) } s') : Scanned M hash (txin :: vin) s s' where
  found := h.found
  ready := by
    rw [h.ready, poolParents_cons, if_pos hpool]
    simp
  depends := by
    intro k
    rw [h.depends, poolParents_cons, if_pos hpool, List.mem_cons, Option.getD_some, OrderedSet.mem_insert]
    tauto
  dependers := by
    intro k j
    rw [h.dependers, poolParents_cons, if_pos hpool, List.mem_cons]
    show j ∈ Function.update s.mapDependers txin.prevout.hash _ k ∨ _ ↔ _
    by_cases hk : k = txin.prevout.hash
    · subst hk
      rw [Function.update_self, List.mem_append, List.mem_singleton]
      tauto
    · rw [Function.update_of_ne hk]
      tauto
  total := by
    rw [List.foldlM_cons, hout]
    exact h.total

/-- An input from the chain only adds to the priority and to the value. -/
theorem Scanned.consChain {s s' : InputScan D} (hchain : M.mempool.mapTx.lookup txin.prevout.hash = none)
    {out : CTxOut} (hout : getOutputFor M.poolView txin = some out) {dPriority : D}
    (h : Scanned M hash vin { s with nTotalIn := wrap64 (s.nTotalIn + out.nValue), dPriority := dPriority } s') :
    Scanned M hash (txin :: vin) s s' := by
  have hparents : M.poolParents (txin :: vin) = M.poolParents vin := by
    rw [poolParents_cons, hchain]
    rfl
  refine ⟨h.found, ?_, ?_, ?_, ?_⟩
  · rw [hparents]
    exact h.ready
  · rw [hparents]
    exact h.depends
  · rw [hparents]
    exact h.dependers
  · rw [List.foldlM_cons, hout]
    exact h.total

theorem CheckedPool.scans (hp : M.CheckedPool) (hash : Uint256) (hin : M.InPool tx)
    (hvin : ∀ txin ∈ vin, txin ∈ tx.vin) (s : InputScan D) :
    ∃ s', M.scanInputs M.pcoinsTip.flush hash vin s = some s' ∧ Scanned M hash vin s s' := by
  induction vin generalizing s with
  | nil => exact ⟨s, rfl, scanned_nil s⟩
  | cons txin vin ih =>
    have hothers := fun t ht => hvin t (List.mem_cons_of_mem _ ht)
    unfold Miner.scanInputs
    rw [haveCoins_flush]
    cases hlook : M.mempool.mapTx.lookup txin.prevout.hash with
    | some parent =>
      obtain ⟨hnot, out, hout, -, hvout⟩ := hp.fromPool hin (hvin txin List.mem_cons_self) hlook
      rw [hnot]
      simp only [Bool.not_false, if_true, hvout]
      obtain ⟨s', hs', hscan⟩ := ih hothers { s with
        porphan := some (OrderedSet.insert (· ≤ ·) txin.prevout.hash (s.porphan.getD []))
        nTotalIn := wrap64 (s.nTotalIn + out.nValue)
        mapDependers := Function.update s.mapDependers txin.prevout.hash
          (s.mapDependers txin.prevout.hash ++ [hash]) }
      exact ⟨s', hs', .consPool (by rw [hlook]; rfl) hout hscan⟩
    | none =>
      obtain ⟨hhave, coins, out, haccess, hout, -, hvout⟩ := hp.fromChain hin (hvin txin List.mem_cons_self) hlook
      rw [hhave]
      simp only [Bool.not_true, Bool.false_eq_true, if_false, accessCoins_flush, haccess, Option.bind_eq_bind,
        Option.bind_some, hvout]
      obtain ⟨s', hs', hscan⟩ := ih hothers { s with
        nTotalIn := wrap64 (s.nTotalIn + out.nValue)
        dPriority := M.ops.addInput s.dPriority out.nValue ((M.nHeight : Int) - coins.nHeight + 1) }
      exact ⟨s', hs', .consChain hlook hout hscan⟩

/-! ## The pool -/

/-- The orphan made of a transaction waits for its parents other than the ones that were added. -/
structure WaitsFor (M : Miner D) (added : List CTransaction) (tx : CTransaction) (orphan : COrphan D) : Prop where
  ptx : orphan.ptx = tx
  rate : orphan.feeRate = M.feeRate tx
  depends : ∀ k, k ∈ orphan.setDependsOn ↔ k ∈ M.poolParents tx.vin ∧ k ∉ added.map M.C.txHash

/-- What the loop over the pool has made of some transactions. -/
structure Gathering (M : Miner D) (done : List CTransaction) (g : Gathered D) : Prop where
  queue : g.vecPriority.map TxPriority.tx = done.filter fun tx => M.isCandidate tx && (M.poolParents tx.vin).isEmpty
  rates : ∀ p ∈ g.vecPriority, p.feeRate = M.feeRate p.tx
  orphans : ∀ tx ∈ done, M.isCandidate tx = true → M.poolParents tx.vin ≠ [] →
    ∃ orphan, g.vOrphan (M.C.txHash tx) = some orphan ∧ WaitsFor M [] tx orphan
  dependers : ∀ k j, j ∈ g.mapDependers k ↔
    ∃ tx ∈ done, M.C.txHash tx = j ∧ M.isCandidate tx = true ∧ k ∈ M.poolParents tx.vin

/-- The fee that is counted does not depend on the priority. -/
theorem applyDeltas_snd (hash : Uint256) (dPriority dPriority' : D) (nFee : Int) :
    (M.applyDeltas hash dPriority nFee).2 = (M.applyDeltas hash dPriority' nFee).2 := by
  unfold applyDeltas
  cases M.mapDeltas hash <;> rfl

theorem gathering_nil : Gathering M []
    { vecPriority := [], vOrphan := fun _ => none, mapDependers := fun _ => [] } where
  queue := rfl
  rates := by simp
  orphans := by simp
  dependers := by simp

section

variable {done : List CTransaction} {g : Gathered D}

theorem Gathering.skip (h : Gathering M done g) (hcand : M.isCandidate tx = false) :
    Gathering M (done ++ [tx]) g where
  queue := by
    rw [h.queue, List.filter_append]
    simp [hcand]
  rates := h.rates
  orphans := by
    intro t ht hc
    rcases List.mem_append.mp ht with ht | ht
    · exact h.orphans t ht hc
    · rw [List.mem_singleton.mp ht, hcand] at hc
      cases hc
  dependers := by
    intro k j
    rw [h.dependers]
    constructor
    · rintro ⟨t, ht, hrest⟩
      exact ⟨t, List.mem_append_left _ ht, hrest⟩
    · rintro ⟨t, ht, hj, hc, hk⟩
      rcases List.mem_append.mp ht with ht | ht
      · exact ⟨t, ht, hj, hc, hk⟩
      · rw [List.mem_singleton.mp ht, hcand] at hc
        cases hc

/-- The registrations of a candidate. -/
theorem Gathering.dependers_concat (h : Gathering M done g) (hcand : M.isCandidate tx)
    {mapDependers : Uint256 → List Uint256} (hmap : ∀ k j, j ∈ mapDependers k ↔ j ∈ g.mapDependers k ∨
      (j = M.C.txHash tx ∧ k ∈ M.poolParents tx.vin)) (k j : Uint256) : j ∈ mapDependers k ↔
        ∃ t ∈ done ++ [tx], M.C.txHash t = j ∧ M.isCandidate t ∧ k ∈ M.poolParents t.vin := by
  rw [hmap, h.dependers]
  constructor
  · rintro (⟨t, ht, hrest⟩ | ⟨rfl, hk⟩)
    · exact ⟨t, List.mem_append_left _ ht, hrest⟩
    · exact ⟨tx, List.mem_append_right _ List.mem_cons_self, rfl, hcand, hk⟩
  · rintro ⟨t, ht, hj, hc, hk⟩
    rcases List.mem_append.mp ht with ht | ht
    · exact .inl ⟨t, ht, hj, hc, hk⟩
    · rw [List.mem_singleton.mp ht] at hj hk
      exact .inr ⟨hj.symm, hk⟩

/-- A candidate without parents goes into the queue. -/
theorem Gathering.ready (h : Gathering M done g) (hcand : M.isCandidate tx)
    (hparents : M.poolParents tx.vin = []) {p : TxPriority D} (hptx : p.tx = tx) (hrate : p.feeRate = M.feeRate tx)
    {mapDependers : Uint256 → List Uint256} (hmap : ∀ k j, j ∈ mapDependers k ↔ j ∈ g.mapDependers k ∨
      (j = M.C.txHash tx ∧ k ∈ M.poolParents tx.vin)) :
    Gathering M (done ++ [tx])
      { g with vecPriority := g.vecPriority ++ [p], mapDependers := mapDependers } where
  queue := by
    rw [List.map_append, h.queue, List.filter_append]
    simp [hcand, hparents, hptx]
  rates := by
    intro q hq
    rcases List.mem_append.mp hq with hq | hq
    · exact h.rates q hq
    · rw [List.mem_singleton.mp hq, hrate, hptx]
  orphans := by
    intro t ht hc hne
    rcases List.mem_append.mp ht with ht | ht
    · exact h.orphans t ht hc hne
    · rw [List.mem_singleton.mp ht] at hne
      exact absurd hparents hne
  dependers := h.dependers_concat hcand hmap

/-- A candidate with parents becomes an orphan. -/
theorem Gathering.wait (h : Gathering M done g) (hcand : M.isCandidate tx)
    (hparents : M.poolParents tx.vin ≠ []) (hnew : ∀ t ∈ done, M.C.txHash t ≠ M.C.txHash tx) {orphan : COrphan D}
    (hwaits : WaitsFor M [] tx orphan) {mapDependers : Uint256 → List Uint256}
    (hmap : ∀ k j, j ∈ mapDependers k ↔ j ∈ g.mapDependers k ∨ (j = M.C.txHash tx ∧ k ∈ M.poolParents tx.vin)) :
    Gathering M (done ++ [tx])
      { g with
        vOrphan := Function.update g.vOrphan (M.C.txHash tx) (some orphan), mapDependers := mapDependers } where
  queue := by
    rw [h.queue, List.filter_append]
    simp [hcand, hparents]
  rates := h.rates
  orphans := by
    intro t ht hc hne
    show ∃ o, Function.update g.vOrphan _ _ _ = some o ∧ _
    rcases List.mem_append.mp ht with ht | ht
    · rw [Function.update_of_ne (hnew t ht)]
      exact h.orphans t ht hc hne
    · rw [List.mem_singleton.mp ht, Function.update_self]
      exact ⟨orphan, rfl, hwaits⟩
  dependers := h.dependers_concat hcand hmap

theorem CheckedPool.gatherTx (hp : M.CheckedPool) {e : Σ _ : Uint256, CTxMemPoolEntry}
    (hin : M.mempool.mapTx.lookup e.1 = some e.2) (h : Gathering M done g)
    (hnew : ∀ t ∈ done, M.C.txHash t ≠ e.1) :
    ∃ g', M.gatherTx M.pcoinsTip.flush g e = some g' ∧ Gathering M (done ++ [e.2.tx]) g' := by
  obtain ⟨hash, entry⟩ := e
  obtain rfl : M.C.txHash entry.tx = hash := hp.inv.keyed hash entry hin
  have hpool : M.InPool entry.tx := .of_lookup hin
  cases hcand : M.isCandidate entry.tx with
  | false =>
    refine ⟨g, ?_, h.skip hcand⟩
    simp only [Miner.gatherTx, hcand, Bool.not_false, if_true]
  | true =>
    obtain ⟨s, hs, hscan⟩ := hp.scans (M.C.txHash entry.tx) hpool (fun _ ht => ht)
      { porphan := none, dPriority := M.ops.zero, nTotalIn := 0, mapDependers := g.mapDependers,
        fMissingInputs := false }
    obtain ⟨hvalue, hout, -⟩ := hp.amounts hpool
    have htotal : M.valueIn entry.tx = s.nTotalIn := by
      have hsame := hscan.total
      unfold getValueIn at hvalue
      rw [(hp.admitted _ hpool).coinBase] at hvalue
      exact Option.mem_unique hvalue hsame
    have hrate : ∀ d, CFeeRate.ofPaid (wrap64 ((M.applyDeltas (M.C.txHash entry.tx) d s.nTotalIn).2 -
        valueOf entry.tx.vout)) entry.tx.serializeSize = M.feeRate entry.tx := by
      intro d
      rw [feeRate, htotal, applyDeltas_snd _ d M.ops.zero]
    have hmap := hscan.dependers
    simp only [Miner.gatherTx, hcand, Bool.not_true, Bool.false_eq_true, if_false, hs, Option.bind_eq_bind,
      Option.bind_some, hscan.found, hout]
    cases hwait : s.porphan with
    | none =>
      obtain ⟨-, hparents⟩ := hscan.ready.mp hwait
      exact ⟨_, rfl, h.ready hcand hparents rfl (hrate _) hmap⟩
    | some setDependsOn =>
      have hparents : M.poolParents entry.tx.vin ≠ [] := by
        intro hnil
        have hnone := hscan.ready.mpr ⟨rfl, hnil⟩
        rw [hwait] at hnone
        cases hnone
      have hdepends := hscan.depends
      rw [hwait] at hdepends
      refine ⟨_, rfl, h.wait hcand hparents hnew ⟨rfl, hrate _, fun k => ?_⟩ hmap⟩
      have hk := hdepends k
      simpa using hk

theorem CheckedPool.gathers (hp : M.CheckedPool) {rest : List (Σ _ : Uint256, CTxMemPoolEntry)}
    (hrest : ∀ e ∈ rest, M.mempool.mapTx.lookup e.1 = some e.2) (h : Gathering M done g)
    (hnodup : (done.map M.C.txHash ++ rest.map Sigma.fst).Nodup) :
    ∃ g', rest.foldlM (M.gatherTx M.pcoinsTip.flush) g = some g' ∧
      Gathering M (done ++ rest.map fun e => e.2.tx) g' := by
  induction rest generalizing done g with
  | nil =>
    rw [List.map_nil, List.append_nil]
    exact ⟨g, rfl, h⟩
  | cons e rest ih =>
    have hin := hrest e List.mem_cons_self
    have hkey := hp.inv.keyed e.1 e.2 hin
    have hnew : ∀ t ∈ done, M.C.txHash t ≠ e.1 := by
      intro t ht heq
      exact (List.disjoint_of_nodup_append hnodup) (List.mem_map_of_mem ht)
        (by rw [heq, List.map_cons]; exact List.mem_cons_self)
    obtain ⟨mid, hmid, hgather⟩ := hp.gatherTx hin h hnew
    have hnodup' : ((done ++ [e.2.tx]).map M.C.txHash ++ rest.map Sigma.fst).Nodup := by
      rw [List.map_append, List.append_assoc, List.map_singleton, hkey]
      exact hnodup
    obtain ⟨g', hg', hall⟩ := ih (fun e' he' => hrest e' (List.mem_cons_of_mem _ he')) hgather hnodup'
    refine ⟨g', ?_, ?_⟩
    · rw [List.foldlM_cons, hmid]
      exact hg'
    · rw [List.map_cons, List.append_cons]
      exact hall

theorem CheckedPool.gather (hp : M.CheckedPool) : ∃ g, M.gather = some g ∧ Gathering M M.poolTxs g := by
  have hkeys : (M.mempool.sortedMapTx.map Sigma.fst).Nodup := by
    rw [(perm_sortedMapTx.map _).nodup_iff]
    exact M.mempool.mapTx.nodupKeys
  obtain ⟨g, hg, hall⟩ := hp.gathers (fun e he => mem_sortedMapTx.mp he) gathering_nil hkeys
  exact ⟨g, hg, hall⟩

end

end Miner

end Reddcoin
