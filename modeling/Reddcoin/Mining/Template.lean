import Mathlib.Data.Finset.Max
import Mathlib.Data.Prod.Lex
import Reddcoin.Mining.Selection

/-!
# The template

`CreateNewBlock` builds a sound template, and takes everything that can be included except for what it compares with
the placeholder of the coinbase: in the proof-of-stake phase a transaction has to have time 0 to get in.
-/

namespace Reddcoin

open Schedule List

namespace Miner

variable {D : Type} {M : Miner D} {tx : CTransaction} {s : Mining D}

/-! ## Limits -/

theorem getSizeOfCompactSize_le (n : Nat) : getSizeOfCompactSize n ≤ 9 := by
  unfold getSizeOfCompactSize
  split_ifs <;> omega

theorem nBlockMaxSize_range : 1000 ≤ M.nBlockMaxSize ∧ M.nBlockMaxSize ≤ MAX_BLOCK_SIZE - 1000 := by
  unfold nBlockMaxSize MAX_BLOCK_SIZE
  omega

theorem length_le_sizes (vtx : List CTransaction) : vtx.length ≤ (vtx.map CTransaction.serializeSize).sum := by
  induction vtx with
  | nil => exact Nat.le_refl _
  | cons tx vtx ih =>
    have hpos : 1 ≤ tx.serializeSize := by
      unfold CTransaction.serializeSize
      omega
    rw [length_cons, map_cons, sum_cons]
    omega

/-- A template without transactions leaves room as well. -/
theorem Chosen.sizes {vtx : List CTransaction} (h : M.Chosen vtx) :
    999 + (vtx.map CTransaction.serializeSize).sum < M.nBlockMaxSize ∧
      100 + (vtx.map M.sigOps).sum < MAX_BLOCK_SIGOPS := by
  rcases h.limits with rfl | hlimits
  · have hreserve : 100 + 0 < MAX_BLOCK_SIGOPS := by decide
    refine ⟨?_, hreserve⟩
    have hmin := (M.nBlockMaxSize_range).1
    rw [map_nil, sum_nil]
    omega
  · have hsize := hlimits.size
    exact ⟨by omega, hlimits.sigOps⟩

section

variable (hready : M.Ready) (hchosen : M.Chosen s.vtx)

include hready hchosen

theorem template_size : (M.template s).block.serializeSize < M.nBlockMaxSize := by
  have hsizes := hchosen.sizes.1
  have hcoinbase := hready.coinbase_size s.nFees
  have hcount := getSizeOfCompactSize_le (M.template s).block.vtx.length
  have hsum : ((M.template s).block.vtx.map CTransaction.serializeSize).sum =
      (M.coinbase s.nFees).serializeSize + (s.vtx.map CTransaction.serializeSize).sum := rfl
  have hsig : (if POW_BLOCK_VERSION < (M.template s).block.nVersion then
      getSizeOfCompactSize (M.template s).block.vchBlockSig.length + (M.template s).block.vchBlockSig.length
    else 0) ≤ 1 := by
    split_ifs
    · exact Nat.le_refl 1
    · exact Nat.zero_le 1
  unfold CBlock.serializeSize
  omega

theorem template_sigOps : ((M.template s).block.vtx.map M.sigOps).sum < MAX_BLOCK_SIGOPS := by
  have hsigOps := hchosen.sizes.2
  have hcoinbase := hready.coinbase_sigOps s.nFees
  have hsame : M.sigOps (M.coinbase s.nFees) = getLegacySigOpCount (M.coinbase s.nFees) := rfl
  show M.sigOps (M.coinbase s.nFees) + (s.vtx.map M.sigOps).sum < _
  omega

end

/-! ## The checks of `ConnectBlock` -/

theorem fresh_coinbase (hready : M.Ready) (s : Mining D) : M.Fresh {M.C.txHash (M.coinbase s.nFees)} := by
  rintro k rfl
  exact hready.newId s.nFees

theorem template_isProofOfStake (hp : M.CheckedPool) (hchosen : M.Chosen s.vtx) :
    (M.template s).block.isProofOfStake = false := by
  have hvtx : (M.template s).block.vtx = M.coinbase s.nFees :: s.vtx := rfl
  unfold CBlock.isProofOfStake
  rw [hvtx]
  cases hcases : s.vtx with
  | nil => rfl
  | cons tx rest => exact (hp.admitted tx (hchosen.inPool tx (by rw [hcases]; exact mem_cons_self))).coinStake

/-- No id of the template is known. -/
theorem template_checkBIP30 (hp : M.CheckedPool) (hready : M.Ready) (hchosen : M.Chosen s.vtx) :
    checkBIP30 M.P M.C M.indexDummy M.pcoinsTip.flush (M.template s).block = .ok () := by
  have hunknown : ∀ tx ∈ (M.template s).block.vtx, M.pcoinsTip.haveCoins (M.C.txHash tx) = false := by
    intro tx htx
    rcases mem_cons.mp htx with rfl | htx
    · exact (hready.newId s.nFees).1
    · exact (hp.admitted tx (hchosen.inPool tx htx)).unknown
  simp only [checkBIP30, onlyIf_eq_ok]
  refine fun _ => forM_ok.mpr fun tx htx => onlyIf_eq_ok.mpr fun _ => require_eq_ok.mpr ?_
  rw [accessCoins_flush]
  have hpruned := coins_isPruned_of_haveCoins (hunknown tx htx)
  rcases CoinsView.accessCoins_eq (v := M.pcoinsTip) (M.C.txHash tx) with hsome | ⟨hnone, -⟩
  · rw [hsome]
    exact hpruned
  · rw [hnone]

section

variable (hp : M.CheckedPool) (hready : M.Ready) (hchosen : M.Chosen s.vtx)
  (hfees : s.nFees = (s.vtx.map M.fee).sum)

include hp hready hchosen hfees

theorem template_checkBlock (htime : (M.blockTime : Int) ≤ futureDrift M.chain.nAdjustedTime) :
    checkBlock M.P M.C M.chain.nAdjustedTime (M.template s).block false false true = .ok () := by
  have hvtx : (M.template s).block.vtx = M.coinbase s.nFees :: s.vtx := rfl
  have hsize := template_size hready hchosen
  have hmax := (M.nBlockMaxSize_range).2
  have hblock : MAX_BLOCK_SIZE = 1000000 := rfl
  have hpos := template_isProofOfStake hp hchosen
  have hlength : (M.template s).block.vtx.length ≤ MAX_BLOCK_SIZE := by
    have hle := length_le_sizes (M.template s).block.vtx
    unfold CBlock.serializeSize at hsize
    omega
  have hlegacy : ((M.template s).block.vtx.map getLegacySigOpCount).sum ≤ MAX_BLOCK_SIGOPS := by
    have hsigOps := template_sigOps hready hchosen
    have hle : ((M.template s).block.vtx.map getLegacySigOpCount).sum ≤ ((M.template s).block.vtx.map M.sigOps).sum :=
      sum_le_sum fun t _ => Nat.le_add_right _ _
    omega
  simp only [checkBlock, check_seq_ok, require_eq_ok, onlyIf_eq_ok]
  refine ⟨?_, (fun h => by cases h), ?_, rfl, ?_, ?_, ?_, decide_eq_true hlegacy⟩
  · simp only [checkBlockHeader, check_seq_ok, require_eq_ok, Bool.and_false, Bool.false_and, Bool.not_false,
      decide_eq_true_eq, true_and]
    exact htime
  · rw [Bool.and_eq_true, Bool.and_eq_true]
    exact ⟨⟨rfl, decide_eq_true hlength⟩, decide_eq_true (by omega)⟩
  · rw [hvtx, tail_cons, all_eq_true]
    intro tx htx
    rw [(hp.admitted tx (hchosen.inPool tx htx)).coinBase]
    rfl
  · intro hstake
    rw [hpos] at hstake
    cases hstake
  · refine forM_ok.mpr fun tx htx => check_seq_ok.mpr ⟨?_, ?_⟩
    · rw [hvtx] at htx
      rcases mem_cons.mp htx with rfl | htx
      · rw [hfees]
        exact hready.checkCoinbase hp hchosen
      · exact (hp.admitted tx (hchosen.inPool tx htx)).checked
    · rw [hpos]
      rfl

/-- The loop of `ConnectBlock` over the template. -/
theorem template_connectTxs (flags : Nat) (hflags : ∀ tx ∈ s.vtx, M.checksInputs tx true flags = .ok [])
    (fScriptChecks : Bool) : ∃ s', (M.template s).block.vtx.foldlM
      (connectTx M.C M.indexDummy fScriptChecks flags) (ConnectState.start M.pcoinsTip.flush) = .ok s' ∧
        (s'.checks.all fun check => (check.run M.C).isNone) ∧ s'.nFees = s.nFees := by
  let start := ConnectState.start M.pcoinsTip.flush
  let hash := M.C.txHash (M.coinbase s.nFees)
  obtain ⟨out, nValueOut, -, -, hvalue, -⟩ := hready.coinbase_value hp hchosen
  rw [← hfees] at hvalue
  have hlegacy := hready.coinbase_sigOps s.nFees
  have hsigOps := hchosen.sizes.2
  have hmoney := hp.fees_range (hready.blockValue hp hchosen).2 hchosen.nodup hchosen.inPool
  -- the coinbase only adds an entry of its own
  have hcoinbase : ∃ mid, connectTx M.C M.indexDummy fScriptChecks flags start (M.coinbase s.nFees) = .ok mid ∧
      mid.view = addOutputs M.C M.pcoinsTip.flush (M.coinbase s.nFees) (M.nHeight + 1) ∧ mid.checks = [] ∧
        mid.nSigOps = getLegacySigOpCount (M.coinbase s.nFees) ∧ mid.nFees = 0 := by
    refine ⟨_, check_seq_ok.mpr ⟨require_eq_ok.mpr (decide_eq_true ?_), check_bind_ok.mpr ⟨_,
      check_bind_ok.mpr ⟨nValueOut, orCrash_eq_ok.mpr hvalue, rfl⟩, check_bind_ok.mpr ⟨_, rfl, rfl⟩⟩⟩, rfl, rfl, ?_, rfl⟩
    · show 0 + _ ≤ _
      omega
    · exact Nat.zero_add _
  obtain ⟨mid, hmid, hview, hchecks, hmidSigOps, hmidFees⟩ := hcoinbase
  have hconnects : M.Connects {hash} M.pcoinsTip.utxo mid := by
    refine ⟨?_, ?_, by rw [hchecks]; rfl⟩
    · rw [hview, utxo_addOutputs, utxo_flush]
      intro k hk n
      exact (if_neg hk).symm
    · rw [hview]
      refine (holds_start hp.admitted hp.inv.keyed {hash}).modifyCoins (CCoins.clean_fromTx _ _) fun _ => Or.inl rfl
  obtain ⟨s', hs', hall, hsum⟩ := hconnects.run M.indexDummy fScriptChecks hp
    (fresh_coinbase hready s) rfl hchosen.inPool hflags hchosen.funded (by omega) (by omega) (by omega)
  refine ⟨s', ?_, hall, ?_⟩
  · show (M.coinbase s.nFees :: s.vtx).foldlM _ start = _
    rw [foldlM_cons]
    exact check_bind_ok.mpr ⟨mid, hmid, hs'⟩
  · rw [hsum, hmidFees, hfees]
    exact Int.zero_add _

theorem template_checkReward {r : ConnectState} (hsame : r.nFees = s.nFees) :
    checkReward M.P M.indexDummy (M.template s).block r = .ok () := by
  have hvtx : (M.template s).block.vtx = M.coinbase s.nFees :: s.vtx := rfl
  have hpow : (M.template s).block.isProofOfWork = true := by
    rw [CBlock.isProofOfWork, template_isProofOfStake hp hchosen]
    rfl
  obtain ⟨out, nValueOut, -, -, hvalue, hle⟩ := hready.coinbase_value hp hchosen
  rw [← hfees] at hvalue hle
  unfold checkReward
  rw [hvtx]
  simp only [hpow, if_true]
  refine check_bind_ok.mpr ⟨nValueOut, orCrash_eq_ok.mpr hvalue, require_eq_ok.mpr (decide_eq_true ?_)⟩
  rw [hsame]
  exact hle

omit hready hfees in
/-- The flags of a block are among those that the pool has been checked with. -/
theorem Chosen.scripts (block : CBlock) : ∀ tx ∈ s.vtx,
    M.checksInputs tx true (scriptFlags M.P M.indexDummy block) = .ok [] := by
  intro tx htx
  have hchecked := (hchosen.passed tx htx).checked
  unfold scriptFlags
  split_ifs
  · exact (hp.admitted tx (hchosen.inPool tx htx)).strict hchecked
  · exact hchecked

/-- The test that `CreateNewBlock` makes at the end. -/
theorem template_connects :
    (∃ r, connectBlock M.P M.C M.indexDummy (M.template s).block M.pcoinsTip.flush true = .ok r) ↔
    (M.blockTime : Int) ≤ futureDrift M.chain.nAdjustedTime := by
  constructor
  · rintro ⟨r, hr⟩
    obtain ⟨hcheck, -⟩ := check_seq_ok.mp hr
    obtain ⟨-, hheader, -⟩ := checkBlock_ok hcheck
    have htime := (check_seq_ok.mp hheader).2
    rw [require_eq_ok, decide_eq_true_eq] at htime
    exact htime
  · intro htime
    have hcheck := template_checkBlock hp hready hchosen hfees htime
    have hbest : decide (M.indexDummy.hashPrevBlock = M.pcoinsTip.flush.getBestBlock) = true := by
      rw [decide_eq_true_eq]
      exact hready.best
    by_cases hgenesis : (M.template s).block.getHash M.C = M.P.hashGenesisBlock
    · let r : ConnectResult :=
        { view := M.pcoinsTip.flush.setBestBlock M.indexDummy.hashBlock, blockundo := [], nMint := 0, nMoneySupply := 0 }
      refine ⟨r, check_seq_ok.mpr ⟨hcheck, check_seq_ok.mpr ⟨require_eq_ok.mpr hbest, ?_⟩⟩⟩
      rw [if_pos hgenesis]
      rfl
    · obtain ⟨s', hs', hall, hsame⟩ := template_connectTxs hp hready hchosen hfees _
        (hchosen.scripts hp (M.template s).block) (decide (getTotalBlocksEstimate M.P ≤ M.indexDummy.nHeight))
      let r : ConnectResult :=
        { view := s'.view
          blockundo := s'.vtxundo.tail
          nMint := wrap64 (wrap64 (s'.nValueOut - s'.nValueIn) + s'.nFees)
          nMoneySupply := wrap64 (wrap64 (M.indexDummy.nMoneySupplyPrev + s'.nValueOut) - s'.nValueIn) }
      refine ⟨r, check_seq_ok.mpr ⟨hcheck, check_seq_ok.mpr ⟨require_eq_ok.mpr hbest,
        (if_neg hgenesis).trans (check_seq_ok.mpr ⟨template_checkBIP30 hp hready hchosen, ?_⟩)⟩⟩⟩
      exact check_bind_ok.mpr ⟨s', hs', check_seq_ok.mpr ⟨template_checkReward hp hready hchosen hfees hsame,
        check_seq_ok.mpr ⟨require_eq_ok.mpr hall, rfl⟩⟩⟩

end

end Miner

end Reddcoin

/-!
## `CreateNewBlock` builds a template

The template is sound whenever its time is close enough to the clock of the node.  It takes everything that can be
included when there is room, but for the filter of the proof-of-stake phase, which compares with the time of a
transaction that has not been made yet.
-/

namespace Reddcoin

open Schedule

namespace Miner

variable {D : Type} {M : Miner D} {tx : CTransaction} {s : Mining D} {popped : List CTransaction}

/-- A template is returned when it can be connected. -/
theorem createNewBlock_eq_some {g : Gathered D} (hgather : M.gather = some g)
    (hchoose : M.choose g.mapDependers M.mempool.sortedMapTx.length (M.start g) = some s) {t : CBlockTemplate} :
    M.createNewBlock = some t ↔ M.template s = t ∧
      ∃ r, connectBlock M.P M.C M.indexDummy (M.template s).block M.pcoinsTip.flush true = .ok r := by
  simp only [createNewBlock, hgather, hchoose, Option.bind_eq_bind, Option.bind_some]
  cases connectBlock M.P M.C M.indexDummy (M.template s).block M.pcoinsTip.flush true with
  | error e => simp
  | ok r => simp

/-! ## Soundness -/

/-- Transactions of the pool that differ spend different outputs. -/
theorem Chosen.distinct (hp : M.CheckedPool) {vtx : List CTransaction} (h : M.Chosen vtx) :
    (vtx.flatMap fun tx => tx.vin.map CTxIn.prevout).Nodup := by
  refine List.nodup_flatMap.mpr ⟨fun t ht => ?_, ?_⟩
  · exact (checkTransaction_ok (hp.admitted t (h.inPool t ht)).checked).prevouts_nodup
  · refine h.nodup.imp_of_mem fun {t t'} ht ht' hne => ?_
    intro prevout hin hin'
    obtain ⟨txin, htxin, rfl⟩ := List.mem_map.mp hin
    obtain ⟨txin', htxin', hsame⟩ := List.mem_map.mp hin'
    obtain ⟨entry, hlook, rfl⟩ := hp.lookup (h.inPool t ht)
    obtain ⟨entry', hlook', rfl⟩ := hp.lookup (h.inPool t' ht')
    have hkeys := hp.inv.inputs_disjoint hlook hlook' htxin htxin' hsame.symm
    exact hne (hp.injective (.of_lookup hlook) (.of_lookup hlook') hkeys)

theorem template_distinct (hp : M.CheckedPool) (hchosen : M.Chosen s.vtx) :
    ((M.template s).block.vtx.flatMap fun tx => tx.vin.map CTxIn.prevout).Nodup := by
  show (COutPoint.null :: s.vtx.flatMap fun tx => tx.vin.map CTxIn.prevout).Nodup
  refine List.nodup_cons.mpr ⟨fun hnull => ?_, hchosen.distinct hp⟩
  obtain ⟨t, ht, hprevout⟩ := List.mem_flatMap.mp hnull
  obtain ⟨txin, htxin, heq⟩ := List.mem_map.mp hprevout
  have hadm := hp.admitted t (hchosen.inPool t ht)
  have hnot := (checkTransaction_ok hadm.checked).prevouts_not_null hadm.coinBase txin htxin
  rw [heq] at hnot
  cases hnot

theorem template_ordered (hchosen : M.Chosen s.vtx) :
    EachAfter (fun before tx => tx.isCoinBase = false → ∀ hash ∈ M.poolParents tx.vin, hash ∈ before.map M.C.txHash)
      (M.template s).block.vtx := by
  intro before t after hsplit
  rw [show (M.template s).block.vtx = M.coinbase s.nFees :: s.vtx from rfl] at hsplit
  cases before with
  | nil =>
    -- the first transaction is the coinbase
    obtain rfl := (List.cons.inj hsplit).1
    intro hnot
    cases hnot
  | cons first before =>
    intro _ hash hparent
    obtain ⟨-, hrest⟩ := List.cons.inj hsplit
    exact List.mem_cons_of_mem _ (hchosen.ordered before t after hrest hash hparent)

theorem Choosing.sound (hp : M.CheckedPool) (hready : M.Ready) (h : Choosing M popped s)
    (htime : (M.blockTime : Int) ≤ futureDrift M.chain.nAdjustedTime) : M.Sound (M.template s) where
  distinct := template_distinct hp h.chosen
  ordered := template_ordered h.chosen
  size := template_size hready h.chosen
  sigOps := template_sigOps hready h.chosen
  connects := (template_connects hp hready h.chosen h.fees).mpr htime

/-! ## Inclusion -/

theorem Includable.inPool (h : M.Includable tx) : M.InPool tx := by
  cases h
  assumption

theorem Includable.candidate (hp : M.CheckedPool) (h : M.Includable tx) : M.isCandidate tx = true := by
  cases h with
  | tx _ hin hfinal hversion =>
    have hadm := hp.admitted tx hin
    simp only [isCandidate, hadm.coinBase, hadm.coinStake, hfinal, Bool.or_false, Bool.not_true, Bool.not_false,
      Bool.true_and]
    cases hpos : M.fProofOfStake with
    | true =>
      rw [hpos, if_pos rfl] at hversion
      simpa using hversion
    | false =>
      rw [hpos, if_neg Bool.false_ne_true] at hversion
      simpa using hversion

/-- Once the queue is empty, everything that can be included is in, by induction on what it depends on. -/
theorem Includable.mem (hp : M.CheckedPool) (h : Choosing M popped s) (hempty : s.vecPriority = [])
    (hcomplete : M.Complete popped s) (hfits : M.PoolFits) (hpays : M.PoolPays)
    (htimes : M.fProofOfStake → ∀ t, M.Includable t → t.nTime = 0) (hinc : M.Includable tx) : tx ∈ s.vtx := by
  have hinc' := hinc
  induction hinc with
  | tx tx hin hfinal hversion htime hinputs hparents ih =>
    have hfollows : M.Follows s.vtx tx := by
      intro hash hparent
      obtain ⟨-, entry, hlook⟩ := mem_poolParents.mp hparent
      have hkey := hp.inv.keyed hash entry hlook
      rw [← hkey] at hparent
      have hmem := ih entry.tx (.of_lookup hlook) hparent (hparents entry.tx (.of_lookup hlook) hparent)
      rw [← hkey]
      exact List.mem_map_of_mem hmem
    have hpopped : tx ∈ s.vecPriority.map TxPriority.tx ++ popped :=
      (h.queue.entered tx).mpr ⟨hin, hinc'.candidate hp, hfollows⟩
    rw [hempty] at hpopped
    exact hcomplete hfits hpays tx hpopped ⟨hin, hinc'.candidate hp, hinputs, fun hpos => htimes hpos tx hinc'⟩

/-- `CreateNewBlock` builds the template whenever the time of the block is close enough to the clock and, in the
proof-of-stake phase, nothing with a time of its own is there to be included. -/
theorem createNewBlock_iff (hcheck : M.mempool.checkAll M.C M.pcoinsTip (M.nHeight + 1) = .ok ())
    (hready : M.Ready) : M.BuildsTemplate ↔ (M.blockTime : Int) ≤ futureDrift M.chain.nAdjustedTime ∧
        (M.fProofOfStake = true → M.PoolFits → M.PoolPays → ∀ tx, M.Includable tx → tx.nTime = 0) := by
  have hp := checkedPool_of_checkAll hready.admitted hcheck
  obtain ⟨g, hgather, hgathering⟩ := hp.gather
  have hmoney : (M.poolTxs.map M.fee).sum ≤ MAX_MONEY := (hready.blockValue hp chosen_nil).2
  have hturns : M.poolTxs.length ≤ ([] : List CTransaction).length + M.mempool.sortedMapTx.length := by
    rw [List.length_nil, Nat.zero_add, poolTxs, List.length_map]
  obtain ⟨popped, s, hchoose, hempty, hchoosing, hcomplete⟩ := (hgathering.choosing hp).run hp hgathering.registered
    hmoney (fun _ _ t ht => (List.not_mem_nil ht).elim) hturns
  constructor
  · rintro ⟨t, hsome, hsound, hall⟩
    obtain ⟨rfl, hconnects⟩ := (createNewBlock_eq_some hgather hchoose).mp hsome
    refine ⟨(template_connects hp hready hchoosing.chosen hchoosing.fees).mp hconnects, ?_⟩
    intro hpos hfits hpays tx hinc
    rcases List.mem_cons.mp (hall hfits hpays tx hinc) with rfl | hmem
    · have hnot := (hp.admitted _ hinc.inPool).coinBase
      cases hnot
    · exact (hchoosing.chosen.passed tx hmem).time hpos
  · rintro ⟨htime, htimes⟩
    have hsound := hchoosing.sound hp hready htime
    refine ⟨M.template s, (createNewBlock_eq_some hgather hchoose).mpr ⟨rfl, hsound.connects⟩, hsound, ?_⟩
    intro hfits hpays tx hinc
    exact List.mem_cons_of_mem _ (hinc.mem hp hchoosing hempty hcomplete hfits hpays fun hpos => htimes hpos hfits hpays)

end Miner

/-! ## A transaction that is never taken -/

namespace Example

/-- Priorities as whole numbers. -/
def wholePriorities : PriorityOps Int where
  zero := 0
  addInput := fun dPriority nValueIn nConf => dPriority + nValueIn * nConf
  computePriority := fun _ dPriorityInputs nTxSize => if nTxSize = 0 then 0 else dPriorityInputs / nTxSize
  add := (· + ·)
  lt := fun a b => decide (a < b)
  eq := fun a b => decide (a = b)
  notPositive := fun d => decide (d ≤ 0)
  allowFree := fun d => decide (COIN * 1440 / 250 < d)

/-- What the queue is ordered by. -/
def queueKey (byFee : Bool) (p : TxPriority Int) : Int ×ₗ Int :=
  if byFee then toLex (p.feeRate.nSatoshisPerK, p.dPriority) else toLex (p.dPriority, p.feeRate.nSatoshisPerK)

theorem txPriorityCompare_whole (byFee : Bool) (a b : TxPriority Int) :
    txPriorityCompare wholePriorities byFee a b ↔ queueKey byFee a < queueKey byFee b := by
  have hrates : a.feeRate = b.feeRate ↔ a.feeRate.nSatoshisPerK = b.feeRate.nSatoshisPerK := by
    constructor
    · intro h
      rw [h]
    · intro h
      cases ha : a.feeRate
      cases hb : b.feeRate
      rw [ha, hb] at h
      exact congrArg CFeeRate.mk h
  have hlt : a.feeRate < b.feeRate ↔ a.feeRate.nSatoshisPerK < b.feeRate.nSatoshisPerK := Iff.rfl
  cases byFee with
  | true =>
    simp only [txPriorityCompare, queueKey, if_true, Prod.Lex.toLex_lt_toLex, wholePriorities, hrates]
    split_ifs with heq
    · simp [heq]
    · simp [heq, hlt]
  | false =>
    simp only [txPriorityCompare, queueKey, Bool.false_eq_true, if_false, Prod.Lex.toLex_lt_toLex, wholePriorities,
      decide_eq_true_eq]
    split_ifs with heq
    · simp [heq, hlt]
    · simp [heq]

/-- The first element that none comes after. -/
def firstBest (byFee : Bool) (l : List (TxPriority Int)) : Nat :=
  l.findIdx fun a => l.all fun b => !txPriorityCompare wholePriorities byFee a b

theorem firstBest_lt (byFee : Bool) {l : List (TxPriority Int)} (hne : l ≠ []) : firstBest byFee l < l.length := by
  obtain ⟨a, ha, hmax⟩ := Multiset.exists_max_image (queueKey byFee) (s := l) (by simpa using hne)
  refine List.findIdx_lt_length_of_exists ⟨a, ha, List.all_eq_true.mpr fun b hb => ?_⟩
  rw [Bool.not_eq_true', ← Bool.not_eq_true, txPriorityCompare_whole]
  exact not_lt.mpr (hmax b hb)

def bestFirst : TxHeap wholePriorities where
  front := fun _ byFee l => firstBest byFee l
  front_lt := fun _ byFee _ hne => firstBest_lt byFee hne
  front_max := by
    intro _ byFee l a ha b hb
    obtain ⟨hlt, rfl⟩ := List.getElem?_eq_some_iff.mp ha
    have hall := List.findIdx_getElem (w := hlt)
    have hall' := List.all_eq_true.mp hall b hb
    rwa [Bool.not_eq_true'] at hall'

/-- A coin that the transaction of the pool spends. -/
def fundedView : CoinsView :=
  CoinsView.over (fun k => if k = 5000 then some (CCoins.fromTx (coinbaseTx [keyOut 100000]) 100) else none) 7100

/-- It pays its fee, and has a time. -/
def timedTx : CTransaction :=
  { spendTx 5000 0 [keyOut 10] with nTime := 131 }

def timedPool : CTxMemPool :=
  (CTxMemPool.new true).addUnchecked (crypto.txHash timedTx) (CTxMemPoolEntry.ofTx timedTx)

/-- A miner in the proof-of-stake phase, with room for everything. -/
def stakingMiner : Miner Int where
  P := params
  C := crypto
  ops := wholePriorities
  heap := bestFirst
  mempool := timedPool
  mapDeltas := fun _ => none
  pcoinsTip := fundedView
  nHeight := 400
  hashTip := 7100
  nMedianTimePast := 990
  chain := context
  getNextWorkRequired := fun _ => 0
  mineBlocksOnDemand := false
  blockVersion := none
  blockMaxSize := 750000
  blockPrioritySize := 50000
  blockMinSize := 0
  minRelayTxFee := ⟨100000⟩
  fDebug := false
  scriptPubKeyIn := payToPubKey (List.replicate 33 2)

theorem stakingMiner_inPool {tx : CTransaction} : stakingMiner.InPool tx ↔ tx = timedTx := by
  have hall : ∀ e ∈ timedPool.mapTx.entries, e.2.tx = timedTx := by decide +kernel
  constructor
  · rintro ⟨hash, entry, hlook, rfl⟩
    exact hall ⟨hash, entry⟩ (AList.mem_lookup_iff.mp hlook)
  · rintro rfl
    exact ⟨crypto.txHash timedTx, CTxMemPoolEntry.ofTx timedTx, by decide +kernel, rfl⟩

theorem stakingMiner_ready : stakingMiner.Ready where
  best := by decide +kernel
  admitted := by
    intro tx hin
    rw [stakingMiner_inPool.mp hin]
    exact ⟨by decide +kernel, by decide +kernel, by decide +kernel, by decide +kernel, fun _ => rfl⟩
  script := by decide +kernel
  newId := by
    intro nFees
    have hsame : stakingMiner.coinbase nFees = stakingMiner.coinbase 0 := rfl
    rw [hsame]
    decide +kernel
  money := by decide +kernel

theorem stakingMiner_includable : stakingMiner.Includable timedTx := by
  refine .tx timedTx (stakingMiner_inPool.mpr rfl) (by decide +kernel) (by decide +kernel) (by decide +kernel)
    rfl fun parent _ hparent => ?_
  have hnone : stakingMiner.poolParents timedTx.vin = [] := by decide +kernel
  rw [hnone] at hparent
  cases hparent

end Example

open Example

/-- The two conditions, at a miner with one transaction in the pool. -/
theorem createNewBlock_iff_example : stakingMiner.BuildsTemplate ↔
    (stakingMiner.blockTime : Int) ≤ futureDrift stakingMiner.chain.nAdjustedTime ∧
      (stakingMiner.fProofOfStake = true → stakingMiner.PoolFits → stakingMiner.PoolPays →
        ∀ tx, stakingMiner.Includable tx → tx.nTime = 0) :=
  Miner.createNewBlock_iff (by decide +kernel) stakingMiner_ready

/-- The block has room for a transaction that can be included, and is made without it: the time of the transaction is
compared with that of a coinbase that has none. -/
theorem createNewBlock_leaves_out :
    stakingMiner.mempool.checkAll crypto stakingMiner.pcoinsTip 401 = .ok () ∧
    stakingMiner.Ready ∧ stakingMiner.PoolFits ∧ stakingMiner.PoolPays ∧
    stakingMiner.Includable timedTx ∧
    timedTx.nTime ≤ stakingMiner.blockTime ∧
    stakingMiner.createNewBlock.map (fun t => t.block.vtx.tail) = some [] ∧
    ¬ stakingMiner.BuildsTemplate := by
  have hfits : stakingMiner.PoolFits := ⟨by decide +kernel, by decide +kernel⟩
  have hpays : stakingMiner.PoolPays := by
    intro tx hin
    rw [stakingMiner_inPool.mp hin]
    decide +kernel
  have hempty : stakingMiner.createNewBlock.map (fun t => t.block.vtx) =
      some [stakingMiner.coinbase 0] := by decide +kernel
  refine ⟨by decide +kernel, stakingMiner_ready, hfits, hpays, stakingMiner_includable,
    by decide +kernel, by decide +kernel, ?_⟩
  rintro ⟨t, hsome, -, hall⟩
  have hmem := hall hfits hpays _ stakingMiner_includable
  rw [hsome, Option.map_some] at hempty
  rw [Option.some.inj hempty] at hmem
  exact absurd hmem (by decide +kernel)

end Reddcoin
