import Reddcoin.Mining.Chosen

/-!
# The loop over the queue

Every turn takes one transaction off the queue, and adds it unless a limit or a check stands in the way.  When the whole
pool fits and pays, only the checks do.
-/

namespace Reddcoin

open Schedule List

namespace Miner

variable {D : Type} {M : Miner D} {tx : CTransaction} {popped vtx : List CTransaction} {s s' : Mining D}
  {mapDependers : Uint256 → List Uint256}

/-! ## Sums over the pool -/

theorem Chosen.inPool (h : M.Chosen vtx) : ∀ t ∈ vtx, M.InPool t :=
  fun t ht => (h.passed t ht).inPool

/-- What different transactions of the pool cost together. -/
theorem sum_le_pool {A : Type} [AddCommMonoid A] [PartialOrder A] [IsOrderedAddMonoid A] (cost : CTransaction → A)
    (hnodup : vtx.Nodup) (hin : ∀ t ∈ vtx, M.InPool t) (hnonneg : ∀ t, M.InPool t → 0 ≤ cost t) :
    (vtx.map cost).sum ≤ (M.poolTxs.map cost).sum :=
  sum_map_le hnodup (fun t ht => mem_poolTxs.mpr (hin t ht)) fun t ht => hnonneg t (mem_poolTxs.mp ht)

/-- Fees stay within the money there is. -/
theorem CheckedPool.fees_range (hp : M.CheckedPool) (hmoney : (M.poolTxs.map M.fee).sum ≤ MAX_MONEY)
    (hnodup : vtx.Nodup) (hin : ∀ t ∈ vtx, M.InPool t) :
    0 ≤ (vtx.map M.fee).sum ∧ (vtx.map M.fee).sum ≤ MAX_MONEY := by
  refine ⟨sum_nonneg fun x hx => ?_, (sum_le_pool M.fee hnodup hin fun t ht => hp.fee_nonneg ht).trans hmoney⟩
  obtain ⟨t, ht, rfl⟩ := mem_map.mp hx
  exact hp.fee_nonneg (hin t ht)

/-! ## Adding -/

theorem sum_map_concat {A : Type} [AddCommMonoid A] (cost : CTransaction → A) (vtx : List CTransaction)
    (tx : CTransaction) : ((vtx ++ [tx]).map cost).sum = (vtx.map cost).sum + cost tx := by
  rw [map_append, sum_append, map_singleton, sum_singleton]

theorem nodup_concat (hnodup : vtx.Nodup) (hnot : tx ∉ vtx) : (vtx ++ [tx]).Nodup :=
  nodup_append.mpr ⟨hnodup, nodup_singleton tx, by
    rintro a ha b hb rfl
    exact hnot (mem_singleton.mp hb ▸ ha)⟩

theorem forall_mem_concat {Q : CTransaction → Prop} (h : ∀ t ∈ vtx, Q t) (htx : Q tx) : ∀ t ∈ vtx ++ [tx], Q t := by
  intro t ht
  rcases mem_append.mp ht with ht | ht
  · exact h t ht
  · rw [mem_singleton.mp ht]
    exact htx

theorem Choosing.follows (h : Choosing M popped s) (hin : tx ∈ popped) : M.Follows s.vtx tx :=
  ((h.queue.entered tx).mp (mem_append_right _ hin)).2.2

theorem Chosen.concat (hp : M.CheckedPool) (h : M.Chosen vtx) (hpassed : M.Passed tx) (hfollows : M.Follows vtx tx)
    (hnot : tx ∉ vtx) (hlimits : M.WithinLimits (vtx ++ [tx])) : M.Chosen (vtx ++ [tx]) where
  nodup := nodup_concat h.nodup hnot
  passed := forall_mem_concat h.passed hpassed
  ordered := h.ordered.concat hfollows
  funded := h.funded.concat (hp.funded h.inPool hpassed.inPool hfollows hnot)
  limits := .inr hlimits

/-- A transaction that has passed everything is added, and what waits for it is released. -/
theorem Choosing.add (hp : M.CheckedPool) (hreg : M.Registered mapDependers)
    (hmoney : (M.poolTxs.map M.fee).sum ≤ MAX_MONEY) (h : Choosing M popped s) (hin : tx ∈ popped) (hnot : tx ∉ s.vtx)
    (hpassed : M.Passed tx) (hlimits : M.WithinLimits (s.vtx ++ [tx])) :
    ∃ s', M.addTx mapDependers s tx (M.fee tx) (M.sigOps tx) = some s' ∧ Choosing M popped s' ∧
      s'.vtx = s.vtx ++ [tx] := by
  have hadm := hp.admitted tx hpassed.inPool
  have hchosen := h.chosen.concat hp hpassed (h.follows hin) hnot hlimits
  have hhave : haveInputs s.view tx = true := by
    rw [haveInputs_iff hadm.coinBase, h.utxo]
    exact hp.funded h.chosen.inPool hpassed.inPool (h.follows hin) hnot
  obtain ⟨view, undo, hupdate⟩ := updateCoins_available (C := M.C) hadm.coinBase
    (checkTransaction_ok hadm.checked).prevouts_nodup hhave (M.nHeight + 1)
  let mid : Mining D := { s with
    view := view
    vtx := s.vtx ++ [tx]
    vTxFees := s.vTxFees ++ [M.fee tx]
    vTxSigOps := s.vTxSigOps ++ [M.sigOps tx]
    nBlockSize := s.nBlockSize + tx.serializeSize
    nBlockSigOps := s.nBlockSigOps + M.sigOps tx
    nFees := wrap64 (s.nFees + M.fee tx) }
  have hmid : M.Queued s.vtx popped mid := ⟨h.queue.nodup, h.queue.entered, h.queue.rates, h.queue.orphans⟩
  have hks : ∀ k ∈ mapDependers (M.C.txHash tx), ∃ orphan, mid.vOrphan k = some orphan := by
    intro k hk
    obtain ⟨t, ht, rfl, hcand, hparent⟩ := (hreg _ _).mp hk
    obtain ⟨orphan, hsome, -⟩ := hmid.orphans t ht hcand (ne_nil_of_mem hparent)
    exact ⟨orphan, hsome⟩
  obtain ⟨s', hs', hrel⟩ := release_run (M.C.txHash tx) hks
  have hrest := hrel.rest
  have hvtx : s'.vtx = s.vtx ++ [tx] := congrArg Mining.vtx hrest
  have hview : s'.view = view := congrArg Mining.view hrest
  refine ⟨s', ?_, ⟨?_, ?_, ?_, ?_, ?_, ?_, ?_, ?_⟩, hvtx⟩
  · simp only [addTx, hupdate, Option.bind_eq_bind, Option.bind_some]
    exact hs'
  · rw [hvtx]
    exact hmid.released hreg hrel hp
  · rw [hvtx]
    exact hchosen
  · rw [hvtx]
    exact forall_mem_concat h.popped hin
  · rw [hview, hvtx, (updateCoins_ok (D := ∅) hupdate).1, h.utxo]
    unfold Utxo.applyTxs
    rw [foldl_append]
    rfl
  · obtain ⟨entry, hlook, heq⟩ := hp.lookup hpassed.inPool
    rw [hview]
    exact h.holds.updateCoins hlook heq hadm hupdate
  · rw [hvtx, sum_map_concat, ← Nat.add_assoc, ← h.size]
    exact congrArg Mining.nBlockSize hrest
  · rw [hvtx, sum_map_concat, ← Nat.add_assoc, ← h.sigOps]
    exact congrArg Mining.nBlockSigOps hrest
  · have hfees : s'.nFees = wrap64 (s.nFees + M.fee tx) := congrArg Mining.nFees hrest
    have hrange := hp.fees_range hmoney hchosen.nodup hchosen.inPool
    have hmax := MAX_MONEY_lt
    rw [sum_map_concat, ← h.fees] at hrange
    rw [hvtx, sum_map_concat, hfees, ← h.fees]
    exact wrap64_of_range (by omega) (by omega)

/-! ## One turn -/

/-- What a turn has made of the transaction that it took off the queue. -/
structure Turned (M : Miner D) (popped : List CTransaction) (tx : CTransaction) (s s' : Mining D) : Prop where
  choosing : Choosing M popped s'
  kept : ∀ t ∈ s.vtx, t ∈ s'.vtx
  added : M.PoolFits → M.PoolPays → M.Passed tx → tx ∈ s'.vtx

theorem Choosing.skip (h : Choosing M popped s) (hnot : M.PoolFits → M.PoolPays → M.Passed tx → False) :
    Turned M popped tx s s where
  choosing := h
  kept := fun _ ht => ht
  added := fun hfits hpays hpassed => (hnot hfits hpays hpassed).elim

/-- When the whole pool fits, so does what is chosen. -/
theorem PoolFits.withinLimits (hfits : M.PoolFits) (hnodup : vtx.Nodup) (hin : ∀ t ∈ vtx, M.InPool t) :
    M.WithinLimits vtx where
  size := by
    have hle := sum_le_pool CTransaction.serializeSize hnodup hin fun _ _ => Nat.zero_le _
    have hsize := hfits.size
    omega
  sigOps := by
    have hle := sum_le_pool M.sigOps hnodup hin fun _ _ => Nat.zero_le _
    have hsigOps := hfits.sigOps
    omega

theorem Choosing.fits (h : Choosing M popped s) (hnot : tx ∉ s.vtx) (hfits : M.PoolFits) (hin : M.InPool tx) :
    M.WithinLimits (s.vtx ++ [tx]) :=
  hfits.withinLimits (nodup_concat h.chosen.nodup hnot) (forall_mem_concat h.chosen.inPool hin)

section

variable (hp : M.CheckedPool) (hreg : M.Registered mapDependers) (hmoney : (M.poolTxs.map M.fee).sum ≤ MAX_MONEY)
  (h : Choosing M popped s) (hin : tx ∈ popped) (hnot : tx ∉ s.vtx)

include hp hreg hmoney h hin hnot

theorem Choosing.considerTx (htime : M.fProofOfStake → tx.nTime = 0)
    (hsize : s.nBlockSize + tx.serializeSize < M.nBlockMaxSize) :
    ∃ s', M.considerTx mapDependers s tx = some s' ∧ Turned M popped tx s s' := by
  obtain ⟨hpool, hcand, hfollows⟩ := (h.queue.entered tx).mp (mem_append_right _ hin)
  have hadm := hp.admitted tx hpool
  have hhave : haveInputs s.view tx = true := by
    rw [haveInputs_iff hadm.coinBase, h.utxo]
    exact hp.funded h.chosen.inPool hpool hfollows hnot
  have hsame := h.holds.sameInputs hadm.coinBase hhave fun _ _ => Set.notMem_empty _
  obtain ⟨hvalueIn, hvalueOut, hrangeIn, hrangeOut, hfee⟩ := hp.amounts hpool
  have hvalue : getValueIn s.view tx = some (M.valueIn tx) := by
    rw [getValueIn_same hsame]
    exact hvalueIn
  have hp2sh : getP2SHSigOpCount s.view tx = some ((getP2SHSigOpCount M.poolView tx).getD 0) := by
    rw [getP2SHSigOpCount_same hsame]
    exact hp.p2shSigOps hpool
  have hcheck : checkInputs M.C s.view (M.nHeight + 1) tx true MANDATORY_SCRIPT_VERIFY_FLAGS false =
      M.checksInputs tx true MANDATORY_SCRIPT_VERIFY_FLAGS :=
    checkInputs_same M.C hadm.coinBase hhave hsame _ _ _ _
  have hwrap : wrap64 (M.valueIn tx - valueOf tx.vout) = M.fee tx := by
    rw [moneyRange_iff] at hrangeIn hrangeOut
    have hmax := MAX_MONEY_lt
    exact wrap64_of_range (by omega) (by omega)
  simp only [Miner.considerTx, hhave, Bool.not_true, Bool.false_eq_true, if_false, hvalue, hvalueOut, hp2sh,
    Option.bind_eq_bind, Option.bind_some, hcheck, hwrap]
  change ∃ s', (if MAX_BLOCK_SIGOPS ≤ s.nBlockSigOps + M.sigOps tx then some s else _) = some s' ∧ _
  by_cases hsigOps : MAX_BLOCK_SIGOPS ≤ s.nBlockSigOps + M.sigOps tx
  · rw [if_pos hsigOps]
    refine ⟨s, rfl, h.skip fun hfits _ _ => ?_⟩
    have hlimit := (h.fits hnot hfits hpool).sigOps
    rw [sum_map_concat, ← Nat.add_assoc, ← h.sigOps] at hlimit
    omega
  · rw [if_neg hsigOps]
    rcases checkInputs_verdict hadm.coinBase (hp.passes tx hpool) MANDATORY_SCRIPT_VERIFY_FLAGS with
      ⟨state, hfails⟩ | ⟨hpasses, -⟩
    · have hfails' : M.checksInputs tx true MANDATORY_SCRIPT_VERIFY_FLAGS = .error (.returns state) := hfails
      rw [hfails']
      refine ⟨s, rfl, h.skip fun _ _ hpassed => ?_⟩
      have hok := hpassed.checked
      rw [hfails'] at hok
      cases hok
    · have hpasses' : M.checksInputs tx true MANDATORY_SCRIPT_VERIFY_FLAGS = .ok [] := hpasses
      rw [hpasses']
      have hlimits : M.WithinLimits (s.vtx ++ [tx]) := by
        constructor
        · rw [sum_map_concat, ← Nat.add_assoc, ← h.size]
          exact hsize
        · rw [sum_map_concat, ← Nat.add_assoc, ← h.sigOps]
          omega
      obtain ⟨s', hs', hchoosing, hvtx⟩ := h.add hp hreg hmoney hin hnot ⟨hpool, hcand, hpasses', htime⟩ hlimits
      refine ⟨s', hs', hchoosing, fun t ht => ?_, fun _ _ _ => ?_⟩
      · rw [hvtx]
        exact mem_append_left _ ht
      · rw [hvtx]
        exact mem_append_right _ mem_cons_self

theorem Choosing.chooseTx {p : TxPriority D} (hptx : p.tx = tx) (hrate : p.feeRate = M.feeRate tx) :
    ∃ s', M.chooseTx mapDependers s p = some s' ∧ Turned M popped tx s s' := by
  subst hptx
  have hpool := ((h.queue.entered p.tx).mp (mem_append_right _ hin)).1
  unfold Miner.chooseTx
  by_cases hsize : M.nBlockMaxSize ≤ s.nBlockSize + p.tx.serializeSize
  · rw [if_pos hsize]
    refine ⟨s, rfl, h.skip fun hfits _ _ => ?_⟩
    have hlimit := (h.fits hnot hfits hpool).size
    rw [sum_map_concat, ← Nat.add_assoc, ← h.size] at hlimit
    omega
  rw [if_neg hsize]
  by_cases hsigOps : MAX_BLOCK_SIGOPS ≤ s.nBlockSigOps + getLegacySigOpCount p.tx
  · rw [if_pos hsigOps]
    refine ⟨s, rfl, h.skip fun hfits _ _ => ?_⟩
    have hlimit := (h.fits hnot hfits hpool).sigOps
    rw [sum_map_concat, ← Nat.add_assoc, ← h.sigOps, Miner.sigOps] at hlimit
    omega
  rw [if_neg hsigOps]
  by_cases hlate : (M.fProofOfStake && decide (CTransaction.new.nTime < p.tx.nTime)) = true
  · rw [if_pos hlate]
    refine ⟨s, rfl, h.skip fun _ _ hpassed => ?_⟩
    rw [Bool.and_eq_true, decide_eq_true_eq] at hlate
    rw [hpassed.time hlate.1] at hlate
    exact absurd hlate.2 (Nat.lt_irrefl 0)
  rw [if_neg hlate]
  by_cases hfree : M.skipsFree s p = true
  · rw [if_pos hfree]
    refine ⟨s, rfl, h.skip fun _ hpays _ => ?_⟩
    simp only [skipsFree, Bool.and_eq_true, decide_eq_true_eq] at hfree
    have hlow := hfree.1.2
    rw [hrate] at hlow
    exact absurd hlow (not_lt.mpr (hpays p.tx hpool))
  rw [if_neg hfree]
  have htime : M.fProofOfStake = true → p.tx.nTime = 0 := by
    intro hpos
    rw [hpos, Bool.true_and, decide_eq_true_eq] at hlate
    exact Nat.le_zero.mp (Nat.le_of_not_lt hlate)
  obtain ⟨s', hs', hturned⟩ := (h.sorted (s.fSortedByFee || M.pastPriority s p)).considerTx hp hreg hmoney hin hnot htime
    (Nat.lt_of_not_le hsize)
  exact ⟨s', hs', hturned.choosing, hturned.kept, hturned.added⟩

end

/-! ## The run -/

/-- Everything that was taken off the queue and passes has been added, when the whole pool fits and pays. -/
def Complete (M : Miner D) (popped : List CTransaction) (s : Mining D) : Prop :=
  M.PoolFits → M.PoolPays → ∀ t ∈ popped, M.Passed t → t ∈ s.vtx

theorem Choosing.length_le (h : Choosing M popped s) : s.vecPriority.length + popped.length ≤ M.poolTxs.length := by
  have hsub : s.vecPriority.map TxPriority.tx ++ popped ⊆ M.poolTxs :=
    fun t ht => mem_poolTxs.mpr ((h.queue.entered t).mp ht).1
  have hle := (h.queue.nodup.subperm hsub).length_le
  rw [length_append, length_map] at hle
  exact hle

theorem Choosing.run (hp : M.CheckedPool) (hreg : M.Registered mapDependers)
    (hmoney : (M.poolTxs.map M.fee).sum ≤ MAX_MONEY) {turns : Nat} (h : Choosing M popped s)
    (hcomplete : M.Complete popped s) (hturns : M.poolTxs.length ≤ popped.length + turns) :
    ∃ popped' s', M.choose mapDependers turns s = some s' ∧ s'.vecPriority = [] ∧ Choosing M popped' s' ∧
      M.Complete popped' s' := by
  induction turns generalizing popped s with
  | zero =>
    have hempty : s.vecPriority = [] := by
      have hle := h.length_le
      exact length_eq_zero_iff.mp (by omega)
    refine ⟨popped, s, ?_, hempty, h, hcomplete⟩
    rw [choose, hempty]
    rfl
  | succ turns ih =>
    by_cases hempty : s.vecPriority = []
    · refine ⟨popped, s, ?_, hempty, h, hcomplete⟩
      rw [choose, hempty]
      rfl
    · have hlt := M.heap.front_lt turns s.fSortedByFee s.vecPriority hempty
      obtain ⟨p, hget⟩ : ∃ p, s.vecPriority[M.heap.front turns s.fSortedByFee s.vecPriority]? = some p :=
        ⟨_, getElem?_eq_getElem hlt⟩
      have hnew : p.tx ∉ popped := h.queue.notMem_popped hget
      obtain ⟨mid, hmid, hturned⟩ := (h.pop hget).chooseTx hp hreg hmoney
        (mem_append_right _ mem_cons_self) (fun hin => hnew (h.popped _ hin)) rfl
        (h.queue.rates p (mem_of_getElem? hget))
      have hcomplete' : M.Complete (popped ++ [p.tx]) mid := fun hfits hpays =>
        forall_mem_concat (fun t ht hpassed => hturned.kept t (hcomplete hfits hpays t ht hpassed))
          (hturned.added hfits hpays)
      have hturns' : M.poolTxs.length ≤ (popped ++ [p.tx]).length + turns := by
        rw [length_append, length_singleton]
        omega
      obtain ⟨popped', s', hs', hend⟩ := ih hturned.choosing hcomplete' hturns'
      refine ⟨popped', s', ?_, hend⟩
      rw [choose, if_neg fun hnil => hempty (isEmpty_iff.mp hnil)]
      simp only [hget, hmid, Option.bind_eq_bind, Option.bind_some]
      exact hs'

end Miner

end Reddcoin

/-!
## Connecting a template

What is chosen connects: `ConnectBlock` finds the inputs that the miner found, and comes to the same signature operations
and fees.  Only the coinbase is new to it, and nothing spends that.
-/

namespace Reddcoin

open Schedule

namespace Miner

variable {D : Type} {M : Miner D} {E : Set Uint256} {tx : CTransaction} {txs vtx : List CTransaction}

/-! ## The loop of `ConnectBlock` -/

/-- Ids that are neither those of coins nor in the pool. -/
def Fresh (M : Miner D) (E : Set Uint256) : Prop :=
  ∀ k ∈ E, M.pcoinsTip.haveCoins k = false ∧ M.mempool.mapTx.lookup k = none

theorem CheckedPool.notMem_fresh (hp : M.CheckedPool) (hE : M.Fresh E) (hin : M.InPool tx) :
    ∀ txin ∈ tx.vin, txin.prevout.hash ∉ E := by
  intro txin htxin hmem
  obtain ⟨hnot, hnone⟩ := hE _ hmem
  obtain ⟨hhave, -⟩ := hp.fromChain hin htxin hnone
  rw [hnot] at hhave
  cases hhave

/-- The transactions find their inputs one after another. -/
def FundedFrom (M : Miner D) (U : Utxo) (before : List CTransaction) (tx : CTransaction) : Prop :=
  ∀ txin ∈ tx.vin, (U.applyTxs M.C before txin.prevout.hash txin.prevout.n).isSome = true

/-- What `ConnectBlock` has of the transactions before the ones that are left. -/
structure Connects (M : Miner D) (E : Set Uint256) (U : Utxo) (s : ConnectState) : Prop where
  agree : Utxo.Agree E U s.view.utxo
  holds : M.Holds E s.view
  checks : (s.checks.all fun check => (check.run M.C).isNone) = true

section

variable {ctx : ConnectContext} {fScriptChecks : Bool} {flags : Nat} {s : ConnectState} {U : Utxo}

/-- One transaction of the pool. -/
theorem Connects.step (fScriptChecks : Bool) (hp : M.CheckedPool) (hE : M.Fresh E)
    (hheight : ctx.nHeight = M.nHeight + 1)
    (hin : M.InPool tx) (hscripts : M.checksInputs tx true flags = .ok []) (h : Connects M E U s)
    (hfunded : M.FundedFrom U [] tx) (hsigOps : s.nSigOps + M.sigOps tx ≤ MAX_BLOCK_SIGOPS) (hfees : 0 ≤ s.nFees)
    (hmoney : s.nFees + M.fee tx ≤ MAX_MONEY) :
    ∃ s', connectTx M.C ctx fScriptChecks flags s tx = .ok s' ∧ Connects M E (U.applyTx M.C tx) s' ∧
      s'.nSigOps = s.nSigOps + M.sigOps tx ∧ s'.nFees = s.nFees + M.fee tx := by
  have hadm := hp.admitted tx hin
  have hnot := hp.notMem_fresh hE hin
  have hhave : haveInputs s.view tx = true := by
    rw [haveInputs_iff hadm.coinBase]
    intro txin htxin
    rw [← h.agree _ (hnot txin htxin)]
    exact hfunded txin htxin
  have hsame := h.holds.sameInputs hadm.coinBase hhave hnot
  obtain ⟨hvalueIn, hvalueOut, hrangeIn, hrangeOut, hfee⟩ := hp.amounts hin
  rw [← getValueIn_same hsame] at hvalueIn
  have hp2sh := hp.p2shSigOps hin
  rw [← getP2SHSigOpCount_same hsame] at hp2sh
  rcases checkInputs_verdict hadm.coinBase (hp.passes tx hin) flags with ⟨state, hfails⟩ | ⟨-, hverdict⟩
  · have hscripts' : checkInputs M.C M.poolView (M.nHeight + 1) tx true flags false = .ok [] := hscripts
    rw [hfails] at hscripts'
    cases hscripts'
  obtain ⟨checks, hchecks, hnone⟩ := hverdict fScriptChecks ctx.fThreads
  rw [← checkInputs_same M.C hadm.coinBase hhave hsame, ← hheight] at hchecks
  obtain ⟨view, undo, hupdate⟩ := updateCoins_available (C := M.C) hadm.coinBase
    (checkTransaction_ok hadm.checked).prevouts_nodup hhave ctx.nHeight
  have hsum : M.sigOps tx = getLegacySigOpCount tx + (getP2SHSigOpCount s.view tx).getD 0 := by
    rw [getP2SHSigOpCount_same hsame]
    rfl
  have hlegacy : s.nSigOps + getLegacySigOpCount tx ≤ MAX_BLOCK_SIGOPS := by omega
  have hall : s.nSigOps + getLegacySigOpCount tx + (getP2SHSigOpCount s.view tx).getD 0 ≤ MAX_BLOCK_SIGOPS := by omega
  let counted : ConnectState := { s with nSigOps := s.nSigOps + getLegacySigOpCount tx }
  have haccount : ∃ mid, accountTx M.C ctx fScriptChecks flags counted tx = .ok mid ∧ mid.view = s.view ∧
      mid.nSigOps = s.nSigOps + getLegacySigOpCount tx + (getP2SHSigOpCount s.view tx).getD 0 ∧
      mid.nFees = wrap64 (s.nFees + wrap64 (M.valueIn tx - valueOf tx.vout)) ∧ mid.checks = s.checks ++ checks := by
    unfold accountTx
    rw [hadm.coinBase]
    refine ⟨_, check_seq_ok.mpr ⟨require_eq_ok.mpr hhave, check_bind_ok.mpr ⟨_, orCrash_eq_ok.mpr hp2sh,
      check_seq_ok.mpr ⟨require_eq_ok.mpr (decide_eq_true hall), check_bind_ok.mpr ⟨_, orCrash_eq_ok.mpr hvalueIn,
        check_bind_ok.mpr ⟨_, orCrash_eq_ok.mpr hvalueOut, check_bind_ok.mpr ⟨checks, hchecks, rfl⟩⟩⟩⟩⟩⟩,
      rfl, rfl, ?_, rfl⟩
    rw [hadm.coinStake]
    rfl
  obtain ⟨mid, hmid, hmidView, hmidSigOps, hmidFees, hmidChecks⟩ := haccount
  rw [← hmidView] at hupdate
  have hrun : connectTx M.C ctx fScriptChecks flags s tx =
      .ok { mid with view := view, vtxundo := mid.vtxundo ++ [undo] } :=
    check_seq_ok.mpr ⟨require_eq_ok.mpr (decide_eq_true hlegacy),
      check_bind_ok.mpr ⟨mid, hmid, check_bind_ok.mpr ⟨(view, undo), orCrash_eq_ok.mpr hupdate, rfl⟩⟩⟩
  rw [hmidView] at hupdate
  refine ⟨_, hrun, ⟨?_, ?_, ?_⟩, ?_, ?_⟩
  · rw [(updateCoins_ok (D := ∅) hupdate).1]
    exact h.agree.applyTx tx
  · obtain ⟨entry, hlook, heq⟩ := hp.lookup hin
    exact h.holds.updateCoins hlook heq hadm hupdate
  · show (mid.checks.all _) = true
    rw [hmidChecks, List.all_append, h.checks, hnone]
    rfl
  · show mid.nSigOps = _
    omega
  · show mid.nFees = _
    rw [moneyRange_iff] at hrangeIn hrangeOut
    have hmax := MAX_MONEY_lt
    have hwrap : wrap64 (M.valueIn tx - valueOf tx.vout) = M.fee tx := wrap64_of_range (by omega) (by omega)
    rw [hmidFees, hwrap]
    exact wrap64_of_range (by omega) (by omega)

/-- The transactions of a template after the coinbase. -/
theorem Connects.run (ctx : ConnectContext) (fScriptChecks : Bool) (hp : M.CheckedPool) (hE : M.Fresh E)
    (hheight : ctx.nHeight = M.nHeight + 1)
    (hin : ∀ tx ∈ txs, M.InPool tx) (hscripts : ∀ tx ∈ txs, M.checksInputs tx true flags = .ok [])
    (h : Connects M E U s) (hfunded : EachAfter (M.FundedFrom U) txs)
    (hsigOps : s.nSigOps + (txs.map M.sigOps).sum ≤ MAX_BLOCK_SIGOPS) (hfees : 0 ≤ s.nFees)
    (hmoney : s.nFees + (txs.map M.fee).sum ≤ MAX_MONEY) :
    ∃ s', txs.foldlM (connectTx M.C ctx fScriptChecks flags) s = .ok s' ∧
      (s'.checks.all fun check => (check.run M.C).isNone) ∧ s'.nFees = s.nFees + (txs.map M.fee).sum := by
  induction txs generalizing s U with
  | nil => exact ⟨s, rfl, h.checks, by simp⟩
  | cons tx txs ih =>
    rw [List.map_cons, List.sum_cons] at hsigOps hmoney
    have hpool := hin tx List.mem_cons_self
    have hothers := fun t ht => hin t (List.mem_cons_of_mem _ ht)
    have hfee := hp.fee_nonneg hpool
    have hrest : 0 ≤ (txs.map M.fee).sum := by
      refine List.sum_nonneg fun x hx => ?_
      obtain ⟨t, ht, rfl⟩ := List.mem_map.mp hx
      exact hp.fee_nonneg (hothers t ht)
    obtain ⟨mid, hmid, hconnects, hmidSigOps, hmidFees⟩ := h.step fScriptChecks hp hE hheight hpool
      (hscripts tx List.mem_cons_self) hfunded.head (by omega) hfees (by omega)
    obtain ⟨s', hs', hchecks, hsum⟩ := ih hothers (fun t ht => hscripts t (List.mem_cons_of_mem _ ht)) hconnects
      hfunded.tail (by omega) (by omega) (by omega)
    refine ⟨s', ?_, hchecks, ?_⟩
    · rw [List.foldlM_cons]
      exact check_bind_ok.mpr ⟨mid, hmid, hs'⟩
    · rw [List.map_cons, List.sum_cons, hsum, hmidFees]
      omega

end

/-! ## The coinbase -/

theorem coinbase_isCoinBase (nFees : Int) : (M.coinbase nFees).isCoinBase = true := rfl

theorem coinbase_vout (nFees : Int) : ∃ out : CTxOut, (M.coinbase nFees).vout = [out] ∧
    out.nValue = (if M.fProofOfStake then 0 else getBlockValue (M.nHeight + 1) nFees) ∧
    (out.scriptPubKey = [] ∨ out.scriptPubKey = M.scriptPubKeyIn) := by
  unfold coinbase
  cases M.fProofOfStake with
  | true => exact ⟨_, rfl, rfl, .inl rfl⟩
  | false => exact ⟨_, rfl, rfl, .inr rfl⟩

/-- The coinbase fits into the size that is set aside for it and for the header. -/
theorem Ready.coinbase_size (hready : M.Ready) (nFees : Int) : (M.coinbase nFees).serializeSize ≤ 870 := by
  obtain ⟨out, hvout, -, hscript⟩ := M.coinbase_vout nFees
  have hlength : out.scriptPubKey.length ≤ 800 := by
    rcases hscript with hnil | hin
    · rw [hnil]
      exact Nat.zero_le _
    · rw [hin]
      exact hready.script.1
  have hcompact : getSizeOfCompactSize out.scriptPubKey.length ≤ 3 := by
    unfold getSizeOfCompactSize
    split_ifs <;> omega
  have hvin : ((M.coinbase nFees).vin.map CTxIn.serializeSize).sum = 43 := rfl
  have hcount : getSizeOfCompactSize (M.coinbase nFees).vin.length = 1 := rfl
  unfold CTransaction.serializeSize
  rw [hvin, hcount, hvout]
  simp only [List.length_singleton, List.map_singleton, List.sum_singleton, CTxOut.serializeSize]
  have hone : getSizeOfCompactSize 1 = 1 := rfl
  split_ifs <;> omega

theorem Ready.coinbase_sigOps (hready : M.Ready) (nFees : Int) : getLegacySigOpCount (M.coinbase nFees) ≤ 100 := by
  obtain ⟨out, hvout, -, hscript⟩ := M.coinbase_vout nFees
  have hvin : ((M.coinbase nFees).vin.map fun txin => getSigOpCount false txin.scriptSig).sum = 0 := rfl
  unfold getLegacySigOpCount
  rw [hvin, hvout, List.map_singleton, List.sum_singleton, Nat.zero_add]
  rcases hscript with hnil | hin
  · rw [hnil]
    exact Nat.zero_le _
  · rw [hin]
    exact hready.script.2

/-- The subsidy and the fees that have been collected are money. -/
theorem Ready.blockValue (hready : M.Ready) (hp : M.CheckedPool) (hchosen : M.Chosen vtx) :
    moneyRange (getBlockValue (M.nHeight + 1) (vtx.map M.fee).sum) ∧ (M.poolTxs.map M.fee).sum ≤ MAX_MONEY := by
  obtain ⟨subsidy, hnonneg, hlt, hvalue⟩ := subsidy_range (M.nHeight + 1)
  have hmoney := hready.money
  have hmax := MAX_MONEY_lt
  rw [hvalue, Int.add_zero, wrap64_of_range (by omega) (by omega)] at hmoney
  have hpool : (M.poolTxs.map M.fee).sum ≤ MAX_MONEY := by omega
  have hlow := (hp.fees_range hpool hchosen.nodup hchosen.inPool).1
  have hle := sum_le_pool M.fee hchosen.nodup hchosen.inPool fun t ht => hp.fee_nonneg ht
  refine ⟨?_, hpool⟩
  rw [hvalue, wrap64_of_range (by omega) (by omega), moneyRange_iff]
  omega

theorem wrap64_zero_add {nValue : Int} (h : moneyRange nValue) : wrap64 (0 + nValue) = nValue := by
  rw [moneyRange_iff] at h
  have hmax := MAX_MONEY_lt
  rw [Int.zero_add]
  exact wrap64_of_range (by omega) (by omega)

theorem Ready.coinbase_value (hready : M.Ready) (hp : M.CheckedPool) (hchosen : M.Chosen vtx) :
    ∃ out nValueOut, (M.coinbase (vtx.map M.fee).sum).vout = [out] ∧ moneyRange out.nValue ∧
      (M.coinbase (vtx.map M.fee).sum).getValueOut = some nValueOut ∧
        nValueOut ≤ getBlockValue (M.nHeight + 1) (vtx.map M.fee).sum := by
  obtain ⟨out, hvout, hvalue, -⟩ := M.coinbase_vout (vtx.map M.fee).sum
  obtain ⟨hrange, -⟩ := hready.blockValue hp hchosen
  have hmoney : moneyRange out.nValue = true ∧ out.nValue ≤ getBlockValue (M.nHeight + 1) (vtx.map M.fee).sum := by
    rw [moneyRange_iff] at hrange
    rw [hvalue]
    split_ifs
    · exact ⟨rfl, hrange.1⟩
    · exact ⟨moneyRange_iff.mpr hrange, le_refl _⟩
  have hwrap := wrap64_zero_add hmoney.1
  refine ⟨out, out.nValue, hvout, hmoney.1, ?_, hmoney.2⟩
  unfold CTransaction.getValueOut
  rw [hvout]
  simp only [List.foldlM_cons, List.foldlM_nil, CTransaction.addValueOut, hwrap, hmoney.1, Bool.not_true, Bool.or_self,
    Bool.false_eq_true, if_false]
  rfl

theorem Ready.checkCoinbase (hready : M.Ready) (hp : M.CheckedPool) (hchosen : M.Chosen vtx) :
    checkTransaction (M.coinbase (vtx.map M.fee).sum) = .ok () := by
  obtain ⟨out, nValueOut, hvout, hrange, -, -⟩ := hready.coinbase_value hp hchosen
  have hsize := hready.coinbase_size (vtx.map M.fee).sum
  have hwrap := wrap64_zero_add hrange
  have hout : checkTxOut (M.coinbase (vtx.map M.fee).sum) 0 out = .ok out.nValue := by
    have hrange' := moneyRange_iff.mp hrange
    simp only [checkTxOut, check_seq_ok, require_eq_ok, check_pure_ok, hwrap, hrange, decide_eq_true_eq,
      coinbase_isCoinBase]
    simp only [Bool.not_true, Bool.and_false, Bool.false_and, Bool.not_false, true_and, and_true]
    exact hrange'
  simp only [checkTransaction, check_seq_ok, require_eq_ok, decide_eq_true_eq]
  refine ⟨rfl, by rw [hvout]; rfl, ?_, check_bind_ok.mpr ⟨out.nValue, ?_, ?_⟩⟩
  · unfold MAX_BLOCK_SIZE
    omega
  · rw [hvout, List.foldlM_cons]
    exact check_bind_ok.mpr ⟨out.nValue, hout, rfl⟩
  · rw [coinbase_isCoinBase]
    rfl

end Miner

end Reddcoin
