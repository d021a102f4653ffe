import Reddcoin.Connect.RoundTrip
import Reddcoin.Lib.OrderedSet
import Reddcoin.Mempool.Orphans

/-!
# Which orphans are resolved

An orphan is tried when one of its parents is accepted, and forgotten afterwards, also when another parent is
still missing.  So a family of transactions ends up in the memory pool exactly when no message makes one parent
of a waiting transaction ready while another one is not.
-/

namespace Reddcoin

open List

variable {d₀ : List CTransaction} {family : List CTransaction}

/-- The transaction is in the pool, or has coins in the chain. -/
def Known (R : Relay) (pool : CTxMemPool) (hash : Uint256) : Prop :=
  pool.has hash = true ∨ R.haveCoins hash = true

/-- What can be in the pool once the transactions `d` have been delivered. -/
inductive Resolvable (R : Relay) (pool : CTxMemPool) (d : List CTransaction) : Uint256 → Prop where
  | known {hash : Uint256} (h : Known R pool hash) : Resolvable R pool d hash
  | tx {tx : CTransaction} (mem : tx ∈ d) (inputs : ∀ txin ∈ tx.vin, Resolvable R pool d txin.prevout.hash) :
      Resolvable R pool d (R.C.txHash tx)

/-- The pools that arise when transactions of the family are added after their parents. -/
inductive Grown (R : Relay) (pool : CTxMemPool) (family : List CTransaction) : CTxMemPool → Prop where
  | start : Grown R pool family pool
  | add {pool' : CTxMemPool} {tx : CTransaction} (before : Grown R pool family pool') (mem : tx ∈ family)
      (new : pool'.has (R.C.txHash tx) = false) (inputs : ∀ txin ∈ tx.vin, Known R pool' txin.prevout.hash) :
      Grown R pool family (pool'.addUnchecked (R.C.txHash tx) (.ofTx tx))

/-- A family of transactions that do not exclude each other, each of which is acceptable once its parents are in
the pool or in the chain. -/
structure Compatible (R : Relay) (pool : CTxMemPool) (family : List CTransaction) : Prop where
  hashes : (family.map R.C.txHash).Nodup
  few : family.length ≤ DEFAULT_MAX_ORPHAN_TRANSACTIONS
  small : ∀ tx ∈ family, tx.serializeSize ≤ 5000
  loose : ∀ tx ∈ family, checkLooseTx R tx = .ok ()
  new : ∀ tx ∈ family, ¬ Known R pool (R.C.txHash tx)
  /-- Every input comes from the pool, the chain or the family. -/
  resolvable : ∀ tx ∈ family, Resolvable R pool family (R.C.txHash tx)
  unspent : ∀ tx ∈ family, ∀ txin ∈ tx.vin, pool.mapNextTx.lookup txin.prevout = none
  exclusive : ∀ tx ∈ family, ∀ tx' ∈ family, R.C.txHash tx ≠ R.C.txHash tx' →
    ∀ txin ∈ tx.vin, txin.prevout ∉ tx'.vin.map CTxIn.prevout
  accepts : ∀ pool', Grown R pool family pool' → ∀ tx ∈ family, pool'.has (R.C.txHash tx) = false →
    (∀ txin ∈ tx.vin, Known R pool' txin.prevout.hash) →
    acceptToMemoryPool R pool' tx = .accepted (pool'.addUnchecked (R.C.txHash tx) (.ofTx tx))

section

variable {R : Relay} {pool pool' : CTxMemPool} {family d : List CTransaction} {tx : CTransaction}
  {hash p : Uint256}

theorem has_addUnchecked : (pool.addUnchecked hash (.ofTx tx)).has p ↔ p = hash ∨ pool.has p = true := by
  unfold CTxMemPool.has CTxMemPool.addUnchecked
  by_cases hp : p = hash
  · rw [hp, AList.lookup_insert]
    simp
  · simp [AList.lookup_insert_ne hp, hp]

theorem known_addUnchecked : Known R (pool.addUnchecked hash (.ofTx tx)) p ↔ p = hash ∨ Known R pool p := by
  unfold Known
  rw [has_addUnchecked, or_assoc]

theorem Resolvable.mono (h : Resolvable R pool d p) {d' : List CTransaction} (hsub : d ⊆ d') :
    Resolvable R pool d' p := by
  induction h with
  | known h => exact .known h
  | tx mem _ ih => exact .tx (hsub mem) ih

theorem Grown.inputs
    (hunspent : ∀ tx ∈ family, ∀ txin ∈ tx.vin, pool.mapNextTx.lookup txin.prevout = none)
    (hexclusive : ∀ tx ∈ family, ∀ tx' ∈ family, R.C.txHash tx ≠ R.C.txHash tx' →
      ∀ txin ∈ tx.vin, txin.prevout ∉ tx'.vin.map CTxIn.prevout)
    (h : Grown R pool family pool') (hmem : tx ∈ family) (hnew : pool'.has (R.C.txHash tx) = false) :
    ∀ txin ∈ tx.vin, pool'.mapNextTx.lookup txin.prevout = none := by
  induction h with
  | start => exact hunspent tx hmem
  | @add pool₁ tx₁ before mem new inputs ih =>
    have hboth : R.C.txHash tx ≠ R.C.txHash tx₁ ∧ pool₁.has (R.C.txHash tx) = false := by
      rw [← Bool.not_eq_true, has_addUnchecked, not_or, Bool.not_eq_true] at hnew
      exact hnew
    intro txin htxin
    have hother := hexclusive tx hmem tx₁ mem hboth.1 txin htxin
    show (CTxMemPool.addInputs _ 0 tx₁.vin pool₁.mapNextTx).lookup txin.prevout = none
    rw [CTxMemPool.lookup_addInputs_of_notMem hother]
    exact ih hboth.2 txin htxin

theorem haveCoinsInView_false (h : ¬ Known R pool p) : haveCoinsInView R pool p = false := by
  obtain ⟨hpool, hchain⟩ := not_or.mp h
  unfold haveCoinsInView
  have hnone : pool.mapTx.lookup p = none := by
    simpa [CTxMemPool.has] using hpool
  rw [hnone]
  simpa using hchain

/-- A transaction of the family with a missing parent has to wait. -/
theorem Compatible.missing (hc : Compatible R pool family) (hgrown : Grown R pool family pool')
    (hmem : tx ∈ family) (hnew : pool'.has (R.C.txHash tx) = false)
    (hmissing : ∃ txin ∈ tx.vin, ¬ Known R pool' txin.prevout.hash) :
    acceptToMemoryPool R pool' tx = .missingInputs := by
  have hconflict : (tx.vin.any fun txin => (pool'.mapNextTx.lookup txin.prevout).isSome) = false := by
    rw [any_eq_false]
    intro txin htxin
    rw [hgrown.inputs hc.unspent hc.exclusive hmem hnew txin htxin]
    simp
  have hown : haveCoinsInView R pool' (R.C.txHash tx) = false := by
    refine haveCoinsInView_false fun hknown => ?_
    rcases hknown with hpool | hchain
    · cases hnew.symm.trans hpool
    · exact hc.new tx hmem (.inr hchain)
  have hinput : (tx.vin.any fun txin => !haveCoinsInView R pool' txin.prevout.hash) = true := by
    obtain ⟨txin, htxin, hunknown⟩ := hmissing
    exact any_eq_true.mpr ⟨txin, htxin, by rw [haveCoinsInView_false hunknown]; rfl⟩
  unfold acceptToMemoryPool
  simp only [hc.loose tx hmem, hnew, hconflict, hown, hinput, Bool.false_eq_true, if_false, if_true]

/-- A transaction of the pool is not accepted twice, and its peer is not punished. -/
theorem Compatible.again (hc : Compatible R pool family) (hmem : tx ∈ family)
    (hin : pool'.has (R.C.txHash tx)) : acceptToMemoryPool R pool' tx = .rejected returnError := by
  unfold acceptToMemoryPool
  simp only [hc.loose tx hmem, hin, if_true]

/-! ## The orphan maps -/

/-- The second map holds exactly the inputs of the orphans, which are stored under their hashes. -/
structure OrphansAgree (C : Crypto) (s : TxNode) : Prop where
  keyed : ∀ h o, s.mapOrphanTransactions.lookup h = some o → C.txHash o.tx = h
  byPrev : ∀ prev h, h ∈ s.mapOrphanTransactionsByPrev prev ↔
    ∃ o, s.mapOrphanTransactions.lookup h = some o ∧ ∃ txin ∈ o.tx.vin, txin.prevout.hash = prev

theorem mem_insertHash {h : Uint256} {hashes : List Uint256} :
    p ∈ insertHash h hashes ↔ p = h ∨ p ∈ hashes :=
  OrderedSet.mem_insert

section

variable {change : List Uint256 → List Uint256}

/-- A loop over inputs that changes the entry of each parent, where a second change of an entry does nothing. -/
theorem foldl_update_iff {F : Prop → Prop}
    (hchange : ∀ l, p ∈ change l ↔ F (p ∈ l)) (hF : ∀ a, F (F a) ↔ F a) (vin : List CTxIn)
    (byPrev : Uint256 → List Uint256) (prev : Uint256) :
    p ∈ vin.foldl (fun byPrev txin =>
      Function.update byPrev txin.prevout.hash (change (byPrev txin.prevout.hash))) byPrev prev ↔
      ((∃ txin ∈ vin, txin.prevout.hash = prev) ∧ F (p ∈ byPrev prev)) ∨
        ((¬ ∃ txin ∈ vin, txin.prevout.hash = prev) ∧ p ∈ byPrev prev) := by
  induction vin generalizing byPrev with
  | nil => simp
  | cons txin vin ih =>
    rw [foldl_cons, ih]
    by_cases hprev : txin.prevout.hash = prev
    · rw [hprev, Function.update_self, hchange, hF]
      simp only [mem_cons, exists_eq_or_imp, hprev, true_or, true_and, not_true_eq_false, false_and, or_false]
      generalize (∃ txin ∈ vin, txin.prevout.hash = prev) = hit
      tauto
    · rw [Function.update_of_ne (Ne.symm hprev)]
      simp only [mem_cons, exists_eq_or_imp, hprev, false_or]

theorem foldl_update_mem {Q : Uint256 → Prop}
    (hchange : ∀ l, p ∈ change l ↔ Q p ∨ p ∈ l) (vin : List CTxIn) (byPrev : Uint256 → List Uint256)
    (prev : Uint256) :
    p ∈ vin.foldl (fun byPrev txin =>
      Function.update byPrev txin.prevout.hash (change (byPrev txin.prevout.hash))) byPrev prev ↔
      (Q p ∧ ∃ txin ∈ vin, txin.prevout.hash = prev) ∨ p ∈ byPrev prev := by
  rw [foldl_update_iff (F := fun a => Q p ∨ a) hchange fun a => by tauto]
  generalize (∃ txin ∈ vin, txin.prevout.hash = prev) = hit
  tauto

theorem foldl_update_notMem {Q : Uint256 → Prop}
    (hchange : ∀ l, p ∈ change l ↔ ¬ Q p ∧ p ∈ l) (vin : List CTxIn) (byPrev : Uint256 → List Uint256)
    (prev : Uint256) :
    p ∈ vin.foldl (fun byPrev txin =>
      Function.update byPrev txin.prevout.hash (change (byPrev txin.prevout.hash))) byPrev prev ↔
      ¬ (Q p ∧ ∃ txin ∈ vin, txin.prevout.hash = prev) ∧ p ∈ byPrev prev := by
  rw [foldl_update_iff (F := fun a => ¬ Q p ∧ a) hchange fun a => by tauto]
  generalize (∃ txin ∈ vin, txin.prevout.hash = prev) = hit
  tauto

end

/-- A new transaction that is not too large is kept. -/
theorem addOrphanTx_eq {C : Crypto} {s : TxNode} (peer : Nat)
    (hnew : s.mapOrphanTransactions.lookup (C.txHash tx) = none) (hsmall : tx.serializeSize ≤ 5000) :
    (s.addOrphanTx C tx peer).mempool = s.mempool ∧ (s.addOrphanTx C tx peer).mapOrphanTransactions =
        s.mapOrphanTransactions.insert (C.txHash tx) { tx := tx, fromPeer := peer } ∧
      (OrphansAgree C s → OrphansAgree C (s.addOrphanTx C tx peer)) := by
  unfold TxNode.addOrphanTx
  simp only [hnew, Option.isSome_none, Bool.false_eq_true, if_false, if_neg (Nat.not_lt.mpr hsmall)]
  refine ⟨trivial, trivial, fun hagree => ⟨fun h o ho => ?_, fun prev h => ?_⟩⟩
  · by_cases hh : h = C.txHash tx
    · rw [hh, AList.lookup_insert] at ho
      cases ho
      rw [hh]
    · rw [AList.lookup_insert_ne hh] at ho
      exact hagree.keyed h o ho
  · rw [foldl_update_mem (Q := fun q => q = C.txHash tx) (fun l => mem_insertHash), hagree.byPrev]
    by_cases hh : h = C.txHash tx
    · rw [hh, AList.lookup_insert, hnew]
      simp
    · rw [AList.lookup_insert_ne hh]
      simp [hh]

theorem eraseOrphanTx_eq {C : Crypto} (s : TxNode) (h : Uint256) :
    (s.eraseOrphanTx h).mempool = s.mempool ∧ (∀ q, (s.eraseOrphanTx h).mapOrphanTransactions.lookup q =
        if q = h then none else s.mapOrphanTransactions.lookup q) ∧
      (OrphansAgree C s → OrphansAgree C (s.eraseOrphanTx h)) := by
  unfold TxNode.eraseOrphanTx
  cases hlook : s.mapOrphanTransactions.lookup h with
  | none =>
    refine ⟨rfl, fun q => ?_, fun hagree => hagree⟩
    split_ifs with hq
    · rw [hq, hlook]
    · rfl
  | some orphan =>
    have herase : ∀ q, (s.mapOrphanTransactions.erase h).lookup q =
        if q = h then none else s.mapOrphanTransactions.lookup q := by
      intro q
      split_ifs with hq
      · rw [hq, AList.lookup_erase]
      · exact AList.lookup_erase_ne hq
    refine ⟨rfl, herase, fun hagree => ⟨fun q o ho => ?_, fun prev q => ?_⟩⟩
    · have ho : (s.mapOrphanTransactions.erase h).lookup q = some o := ho
      rw [herase] at ho
      split_ifs at ho
      exact hagree.keyed q o ho
    · show q ∈ orphan.tx.vin.foldl _ s.mapOrphanTransactionsByPrev prev ↔ _
      rw [foldl_update_notMem (Q := fun r => r = h) (fun l => by
        rw [mem_filter, decide_eq_true_eq, and_comm]), hagree.byPrev]
      show _ ↔ ∃ o, (s.mapOrphanTransactions.erase h).lookup q = some o ∧ _
      rw [herase]
      by_cases hq : q = h
      · rw [if_pos hq, hq, hlook]
        simp
      · rw [if_neg hq]
        simp [hq]

theorem eraseOrphans_eq {C : Crypto} (hashes : List Uint256) (s : TxNode) :
    (hashes.foldl TxNode.eraseOrphanTx s).mempool = s.mempool ∧
      (∀ q, (hashes.foldl TxNode.eraseOrphanTx s).mapOrphanTransactions.lookup q =
        if q ∈ hashes then none else s.mapOrphanTransactions.lookup q) ∧
      (OrphansAgree C s → OrphansAgree C (hashes.foldl TxNode.eraseOrphanTx s)) := by
  induction hashes generalizing s with
  | nil => exact ⟨rfl, fun q => by simp, fun h => h⟩
  | cons h hashes ih =>
    obtain ⟨hpool, hlook, hagree⟩ := eraseOrphanTx_eq (C := C) s h
    obtain ⟨hpool', hlook', hagree'⟩ := ih (s.eraseOrphanTx h)
    refine ⟨hpool'.trans hpool, fun q => ?_, fun hs => hagree' (hagree hs)⟩
    rw [foldl_cons, hlook', hlook]
    by_cases hq : q = h <;> by_cases hmem : q ∈ hashes <;> simp [hq, hmem]

/-! ## The loop over the orphans -/

/-- What holds of every node that has been sent the transactions `d` of the family. -/
structure Sound (R : Relay) (pool : CTxMemPool) (family d : List CTransaction) (s : TxNode) : Prop where
  grown : Grown R pool family s.mempool
  resolvable : ∀ h, Known R s.mempool h → Resolvable R pool d h
  agree : OrphansAgree R.C s
  waits : ∀ h o, s.mapOrphanTransactions.lookup h = some o → o.tx ∈ d ∧ s.mempool.has h = false
  stuck : ∀ h o, s.mapOrphanTransactions.lookup h = some o → ∃ txin ∈ o.tx.vin, ¬ Known R s.mempool txin.prevout.hash

/-- The loop over the orphans has come to the orphans `rest` of the transaction `x`.  The delivered transactions
are `d`, and `s` is the node before the message with the transaction `y`. -/
structure Resolves (R : Relay) (pool : CTxMemPool) (family d : List CTransaction) (s : TxNode)
    (y x : Uint256) (rest : List Uint256) (st : Resolving) : Prop where
  grown : Grown R pool family st.mempool
  peaceful : st.setMisbehaving = []
  current : st.mempool.has x = true ∧ s.mempool.has x = false
  resolvable : ∀ h, Known R st.mempool h → Resolvable R pool d h
  keeps : ∀ h, s.mempool.has h = true ∨ h = y → st.mempool.has h = true
  /-- What is new in the pool is the transaction of the message or an orphan that is erased. -/
  new : ∀ h, st.mempool.has h = true → s.mempool.has h = true ∨
    h ∈ st.vEraseQueue ∧ (h = y ∨ (s.mapOrphanTransactions.lookup h).isSome = true)
  queue : ∀ h ∈ st.vWorkQueue, st.mempool.has h = true ∧ s.mempool.has h = false
  waiting : ∀ h o, s.mapOrphanTransactions.lookup h = some o → st.mempool.has h = false →
    ∃ txin ∈ o.tx.vin, ¬ Known R st.mempool txin.prevout.hash ∨ txin.prevout.hash ∈ st.vWorkQueue ∨
      (txin.prevout.hash = x ∧ h ∈ rest)
  erased : ∀ h o, s.mapOrphanTransactions.lookup h = some o → h ∈ st.vEraseQueue →
    ∃ txin ∈ o.tx.vin, st.mempool.has txin.prevout.hash = true ∧ s.mempool.has txin.prevout.hash = false
  covers : ∀ h o, s.mapOrphanTransactions.lookup h = some o → ∀ txin ∈ o.tx.vin,
    st.mempool.has txin.prevout.hash = true → s.mempool.has txin.prevout.hash = false →
    h ∈ st.vEraseQueue ∨ txin.prevout.hash ∈ st.vWorkQueue ∨ (txin.prevout.hash = x ∧ h ∈ rest)

variable {s : TxNode} {x y : Uint256} {rest : List Uint256} {st : Resolving}

/-- The orphans that have not been accepted, and the work that is left. -/
def Resolving.remaining (s : TxNode) (st : Resolving) : Nat :=
  st.vWorkQueue.length + (s.mapOrphanTransactions.keys.filter fun h => !st.mempool.has h).length

/-- An orphan that is not accepted is only put into the erase queue. -/
theorem Resolves.skip {o : COrphanTx} (h : Resolves R pool family d s y x (hash :: rest) st)
    (hlook : s.mapOrphanTransactions.lookup hash = some o)
    (hx : ∃ txin ∈ o.tx.vin, txin.prevout.hash = x)
    (hstop : st.mempool.has hash ∨ ∃ txin ∈ o.tx.vin, ¬ Known R st.mempool txin.prevout.hash) :
    Resolves R pool family d s y x rest { st with vEraseQueue := st.vEraseQueue ++ [hash] } := by
  refine ⟨h.grown, h.peaceful, h.current, h.resolvable, h.keeps, fun q hq => ?_, h.queue, fun q oq hq hnot => ?_,
    fun q oq hq hmem => ?_, fun q oq hq txin htxin hin hout => ?_⟩
  · exact (h.new q hq).imp_right fun ⟨hmem, hcase⟩ => ⟨mem_append_left _ hmem, hcase⟩
  · by_cases hqh : q = hash
    · cases hlook.symm.trans (hqh ▸ hq)
      rcases hstop with hin | ⟨txin, htxin, hunknown⟩
      · rw [← hqh] at hin
        cases hnot.symm.trans hin
      · exact ⟨txin, htxin, .inl hunknown⟩
    · obtain ⟨txin, htxin, hcase⟩ := h.waiting q oq hq hnot
      refine ⟨txin, htxin, hcase.imp_right (Or.imp_right fun ⟨hprev, hmem⟩ => ⟨hprev, ?_⟩)⟩
      exact (mem_cons.mp hmem).resolve_left hqh
  · rcases mem_append.mp hmem with hmem | hmem
    · exact h.erased q oq hq hmem
    · rw [mem_singleton.mp hmem] at hq
      cases hlook.symm.trans hq
      obtain ⟨txin, htxin, rfl⟩ := hx
      exact ⟨txin, htxin, h.current⟩
  · rcases h.covers q oq hq txin htxin hin hout with hmem | hmem | ⟨hprev, hmem⟩
    · exact .inl (mem_append_left _ hmem)
    · exact .inr (.inl hmem)
    · rcases mem_cons.mp hmem with rfl | hmem
      · exact .inl (mem_append_right _ (mem_singleton.mpr rfl))
      · exact .inr (.inr ⟨hprev, hmem⟩)

theorem Resolves.accept {o : COrphanTx} (hfamily : d ⊆ family)
    (h : Resolves R pool family d s y x (hash :: rest) st)
    (hlook : s.mapOrphanTransactions.lookup hash = some o) (hkey : R.C.txHash o.tx = hash) (hmem : o.tx ∈ d)
    (hbefore : s.mempool.has hash = false) (hnew : st.mempool.has hash = false)
    (hinputs : ∀ txin ∈ o.tx.vin, Known R st.mempool txin.prevout.hash)
    (hx : ∃ txin ∈ o.tx.vin, txin.prevout.hash = x) :
    Resolves R pool family d s y x rest
      { st with
        mempool := st.mempool.addUnchecked hash (.ofTx o.tx)
        vWorkQueue := st.vWorkQueue ++ [hash]
        vEraseQueue := st.vEraseQueue ++ [hash] } := by
  have hgrows : ∀ q, st.mempool.has q = true → (st.mempool.addUnchecked hash (.ofTx o.tx)).has q = true :=
    fun q hq => has_addUnchecked.mpr (.inr hq)
  refine ⟨?_, h.peaceful, ⟨hgrows x h.current.1, h.current.2⟩, fun q hq => ?_, fun q hq => hgrows q (h.keeps q hq),
    fun q hq => ?_, fun q hq => ?_, fun q oq hq hnot => ?_, fun q oq hq hmem => ?_,
    fun q oq hq txin htxin hin hout => ?_⟩
  · have hadd := h.grown.add (hfamily hmem) (hkey ▸ hnew) hinputs
    rw [hkey] at hadd
    exact hadd
  · rcases known_addUnchecked.mp hq with rfl | hq
    · rw [← hkey]
      exact .tx hmem fun txin htxin => h.resolvable _ (hinputs txin htxin)
    · exact h.resolvable q hq
  · rcases has_addUnchecked.mp hq with rfl | hq
    · exact .inr ⟨mem_append_right _ (mem_singleton.mpr rfl), .inr (by rw [hlook]; rfl)⟩
    · exact (h.new q hq).imp_right fun ⟨hmem, hcase⟩ => ⟨mem_append_left _ hmem, hcase⟩
  · rcases mem_append.mp hq with hq | hq
    · obtain ⟨hin, hout⟩ := h.queue q hq
      exact ⟨hgrows q hin, hout⟩
    · rw [mem_singleton.mp hq]
      exact ⟨has_addUnchecked.mpr (.inl rfl), hbefore⟩
  · obtain ⟨hqh, hold⟩ : q ≠ hash ∧ st.mempool.has q = false := by
      rw [← Bool.not_eq_true, has_addUnchecked, not_or, Bool.not_eq_true] at hnot
      exact hnot
    obtain ⟨txin, htxin, hcase⟩ := h.waiting q oq hq hold
    refine ⟨txin, htxin, ?_⟩
    by_cases hprev : txin.prevout.hash = hash
    · exact .inr (.inl (mem_append_right _ (mem_singleton.mpr hprev)))
    · rcases hcase with hunknown | hqueue | ⟨hxprev, hrest⟩
      · exact .inl fun hknown => hunknown ((known_addUnchecked.mp hknown).resolve_left hprev)
      · exact .inr (.inl (mem_append_left _ hqueue))
      · exact .inr (.inr ⟨hxprev, (mem_cons.mp hrest).resolve_left hqh⟩)
  · rcases mem_append.mp hmem with hmem | hmem
    · obtain ⟨txin, htxin, hin, hout⟩ := h.erased q oq hq hmem
      exact ⟨txin, htxin, hgrows _ hin, hout⟩
    · rw [mem_singleton.mp hmem] at hq
      cases hlook.symm.trans hq
      obtain ⟨txin, htxin, rfl⟩ := hx
      exact ⟨txin, htxin, hgrows _ h.current.1, h.current.2⟩
  · rcases has_addUnchecked.mp hin with hprev | hin
    · exact .inr (.inl (mem_append_right _ (mem_singleton.mpr hprev)))
    · rcases h.covers q oq hq txin htxin hin hout with hmem | hmem | ⟨hprev, hmem⟩
      · exact .inl (mem_append_left _ hmem)
      · exact .inr (.inl (mem_append_left _ hmem))
      · rcases mem_cons.mp hmem with rfl | hmem
        · exact .inl (mem_append_right _ (mem_singleton.mpr rfl))
        · exact .inr (.inr ⟨hprev, hmem⟩)

/-- Accepting an orphan moves it from the orphans that are left to the work queue. -/
theorem remaining_accept {o : COrphanTx} (hlook : s.mapOrphanTransactions.lookup hash = some o)
    (hnew : st.mempool.has hash = false) (erase : List Uint256) :
    Resolving.remaining s
      { st with
        mempool := st.mempool.addUnchecked hash (.ofTx o.tx)
        vWorkQueue := st.vWorkQueue ++ [hash]
        vEraseQueue := erase } ≤ st.remaining s := by
  have hkey : hash ∈ s.mapOrphanTransactions.keys := by
    rw [← AList.mem_keys, ← AList.lookup_isSome, hlook]
    rfl
  have hsub : (s.mapOrphanTransactions.keys.filter fun h =>
      !(st.mempool.addUnchecked hash (.ofTx o.tx)).has h).Sublist
      ((s.mapOrphanTransactions.keys.filter fun h => !st.mempool.has h).erase hash) := by
    rw [List.Nodup.erase_eq_filter (s.mapOrphanTransactions.keys_nodup.filter _), filter_filter]
    refine monotone_filter_right _ fun q hq => ?_
    have hnew : ¬ (st.mempool.addUnchecked hash (.ofTx o.tx)).has q = true := by
      simpa using hq
    have hnot : ¬ (q = hash ∨ st.mempool.has q = true) := mt has_addUnchecked.mpr hnew
    rw [not_or] at hnot
    simp [hnot.1, hnot.2]
  have hmem : hash ∈ s.mapOrphanTransactions.keys.filter fun h => !st.mempool.has h :=
    mem_filter.mpr ⟨hkey, by rw [hnew]; rfl⟩
  have hlength := hsub.length_le
  rw [length_erase_of_mem hmem] at hlength
  have hpos := length_pos_of_mem hmem
  show (st.vWorkQueue ++ [hash]).length + (s.mapOrphanTransactions.keys.filter fun h =>
    !(st.mempool.addUnchecked hash (.ofTx o.tx)).has h).length ≤ _
  rw [length_append, length_singleton, Resolving.remaining]
  omega

theorem Resolves.tryOrphan (hc : Compatible R pool family) (hfamily : d ⊆ family)
    (hs : Sound R pool family d₀ s) (hd : d₀ ⊆ d) (h : Resolves R pool family d s y x (hash :: rest) st)
    (hmem : hash ∈ s.mapOrphanTransactionsByPrev x) :
    Resolves R pool family d s y x rest (tryOrphan R s.mapOrphanTransactions st hash) ∧
      (Reddcoin.tryOrphan R s.mapOrphanTransactions st hash).remaining s ≤ st.remaining s := by
  obtain ⟨o, hlook, hx⟩ := (hs.agree.byPrev x hash).mp hmem
  have hkey := hs.agree.keyed hash o hlook
  obtain ⟨hod, hbefore⟩ := hs.waits hash o hlook
  have hofamily := hfamily (hd hod)
  have hpeer : ¬ o.fromPeer ∈ st.setMisbehaving := by
    rw [h.peaceful]
    exact not_mem_nil
  unfold Reddcoin.tryOrphan
  simp only [hlook, if_neg hpeer]
  cases hin : st.mempool.has hash with
  | true =>
    rw [hc.again hofamily (hkey.symm ▸ hin)]
    exact ⟨h.skip hlook hx (.inl hin), Nat.le_refl _⟩
  | false =>
    by_cases hinputs : ∀ txin ∈ o.tx.vin, Known R st.mempool txin.prevout.hash
    · rw [hc.accepts _ h.grown _ hofamily (hkey.symm ▸ hin) hinputs, hkey]
      exact ⟨h.accept hfamily hlook hkey (hd hod) hbefore hin hinputs hx, remaining_accept hlook hin _⟩
    · have hmissing : ∃ txin ∈ o.tx.vin, ¬ Known R st.mempool txin.prevout.hash := by
        push Not at hinputs
        exact hinputs
      rw [hc.missing h.grown hofamily (hkey.symm ▸ hin) hmissing]
      exact ⟨h.skip hlook hx (.inr hmissing), Nat.le_refl _⟩

theorem Resolves.tryOrphans (hc : Compatible R pool family) (hfamily : d ⊆ family)
    (hs : Sound R pool family d₀ s) (hd : d₀ ⊆ d) (h : Resolves R pool family d s y x rest st)
    (hrest : rest ⊆ s.mapOrphanTransactionsByPrev x) :
    Resolves R pool family d s y x [] (rest.foldl (Reddcoin.tryOrphan R s.mapOrphanTransactions) st) ∧
      (rest.foldl (Reddcoin.tryOrphan R s.mapOrphanTransactions) st).remaining s ≤ st.remaining s := by
  induction rest generalizing st with
  | nil => exact ⟨h, Nat.le_refl _⟩
  | cons hash rest ih =>
    obtain ⟨hnext, hless⟩ := h.tryOrphan hc hfamily hs hd (hrest mem_cons_self)
    obtain ⟨hend, hless'⟩ := ih hnext fun q hq => hrest (mem_cons_of_mem _ hq)
    exact ⟨hend, hless'.trans hless⟩

theorem Resolves.pop {queue : List Uint256} (hs : Sound R pool family d₀ s)
    (h : Resolves R pool family d s y x [] st) (hqueue : st.vWorkQueue = hash :: queue) :
    Resolves R pool family d s y hash (s.mapOrphanTransactionsByPrev hash) { st with vWorkQueue := queue } := by
  have hhead : hash ∈ st.vWorkQueue := by
    rw [hqueue]
    exact mem_cons_self
  refine ⟨h.grown, h.peaceful, h.queue hash hhead, h.resolvable, h.keeps, h.new, fun q hq => ?_,
    fun q oq hq hnot => ?_, h.erased, fun q oq hq txin htxin hin hout => ?_⟩
  · refine h.queue q ?_
    rw [hqueue]
    exact mem_cons_of_mem _ hq
  · obtain ⟨txin, htxin, hcase⟩ := h.waiting q oq hq hnot
    refine ⟨txin, htxin, ?_⟩
    rcases hcase with hunknown | hmem | ⟨-, hmem⟩
    · exact .inl hunknown
    · rw [hqueue] at hmem
      rcases mem_cons.mp hmem with hprev | hmem
      · exact .inr (.inr ⟨hprev, (hs.agree.byPrev hash q).mpr ⟨oq, hq, txin, htxin, hprev⟩⟩)
      · exact .inr (.inl hmem)
    · simp at hmem
  · rcases h.covers q oq hq txin htxin hin hout with hmem | hmem | ⟨-, hmem⟩
    · exact .inl hmem
    · rw [hqueue] at hmem
      rcases mem_cons.mp hmem with hprev | hmem
      · exact .inr (.inr ⟨hprev, (hs.agree.byPrev hash q).mpr ⟨oq, hq, txin, htxin, hprev⟩⟩)
      · exact .inr (.inl hmem)
    · simp at hmem

/-- The loop ends with an empty work queue. -/
theorem Resolves.resolveOrphans (hc : Compatible R pool family) (hfamily : d ⊆ family)
    (hs : Sound R pool family d₀ s) (hd : d₀ ⊆ d) (turns : Nat) (h : Resolves R pool family d s y x [] st)
    (hturns : st.remaining s ≤ turns) :
    ∃ x' st', Reddcoin.resolveOrphans R s.mapOrphanTransactions s.mapOrphanTransactionsByPrev turns st = st' ∧
      Resolves R pool family d s y x' [] st' ∧ st'.vWorkQueue = [] := by
  induction turns generalizing x st with
  | zero =>
    refine ⟨x, st, rfl, h, ?_⟩
    unfold Resolving.remaining at hturns
    exact length_eq_zero_iff.mp (by omega)
  | succ turns ih =>
    unfold Reddcoin.resolveOrphans
    cases hqueue : st.vWorkQueue with
    | nil => exact ⟨x, st, rfl, h, hqueue⟩
    | cons hash queue =>
      obtain ⟨hnext, hless⟩ := (h.pop hs hqueue).tryOrphans hc hfamily hs hd (List.Subset.refl _)
      refine ih hnext (Nat.le_of_lt_succ (Nat.lt_of_lt_of_le ?_ hturns))
      refine Nat.lt_of_le_of_lt hless ?_
      unfold Resolving.remaining
      rw [hqueue, length_cons]
      simp only
      omega

/-! ## Messages -/

/-- What a message with the transaction `tx` changes. -/
structure Delivered (R : Relay) (pool : CTxMemPool) (family d : List CTransaction) (tx : CTransaction)
    (s s' : TxNode) : Prop where
  sound : Sound R pool family (d ++ [tx]) s'
  keeps : ∀ h, s.mempool.has h = true → s'.mempool.has h = true
  received : s'.mempool.has (R.C.txHash tx) = true ∨
    ∃ o, s'.mapOrphanTransactions.lookup (R.C.txHash tx) = some o ∧ o.tx = tx
  new : ∀ h, s'.mempool.has h = true → s.mempool.has h = true ∨ h = R.C.txHash tx ∨
    (s.mapOrphanTransactions.lookup h).isSome = true
  orphans : ∀ h, h ≠ R.C.txHash tx → s'.mapOrphanTransactions.lookup h = none ∨
    s'.mapOrphanTransactions.lookup h = s.mapOrphanTransactions.lookup h
  /-- An orphan that is left out of the pool has a parent that is not in it. -/
  stuck : ∀ h o, s.mapOrphanTransactions.lookup h = some o → s'.mempool.has h = false →
    ∃ txin ∈ o.tx.vin, ¬ Known R s'.mempool txin.prevout.hash
  /-- The orphans that stay are those without a new parent in the pool. -/
  stays : ∀ h o, s.mapOrphanTransactions.lookup h = some o →
    (s'.mapOrphanTransactions.lookup h = some o ↔ ∀ txin ∈ o.tx.vin,
      s'.mempool.has txin.prevout.hash = true → s.mempool.has txin.prevout.hash = true)

theorem Resolvable.cases (h : Resolvable R pool d p) : Known R pool p ∨
    ∃ tx ∈ d, R.C.txHash tx = p ∧ ∀ txin ∈ tx.vin, Resolvable R pool d txin.prevout.hash := by
  cases h with
  | known h => exact .inl h
  | tx mem inputs => exact .inr ⟨_, mem, rfl, inputs⟩

theorem Compatible.hash_inj (hc : Compatible R pool family) {tx' : CTransaction} (hmem : tx ∈ family)
    (hmem' : tx' ∈ family) (h : R.C.txHash tx = R.C.txHash tx') : tx = tx' :=
  inj_on_of_nodup_map hc.hashes hmem hmem' h

/-- A transaction that was not delivered is neither in the pool nor an orphan. -/
theorem Sound.fresh (hs : Sound R pool family d s) (hc : Compatible R pool family) (hfamily : d ⊆ family)
    (hmem : tx ∈ family) (hnew : tx ∉ d) : s.mempool.has (R.C.txHash tx) = false ∧
      s.mapOrphanTransactions.lookup (R.C.txHash tx) = none := by
  constructor
  · rw [← Bool.not_eq_true]
    intro hin
    rcases (hs.resolvable _ (.inl hin)).cases with hknown | ⟨tx', hd, hhash, -⟩
    · exact hc.new tx hmem hknown
    · rw [hc.hash_inj (hfamily hd) hmem hhash] at hd
      exact hnew hd
  · cases hlook : s.mapOrphanTransactions.lookup (R.C.txHash tx) with
    | none => rfl
    | some o =>
      have hd := (hs.waits _ o hlook).1
      rw [hc.hash_inj (hfamily hd) hmem (hs.agree.keyed _ o hlook)] at hd
      exact absurd hd hnew

/-- The transaction of the message is accepted, and its orphans are going to be tried. -/
theorem Sound.start (hs : Sound R pool family d s) (hmem : tx ∈ family)
    (hnew : s.mempool.has (R.C.txHash tx) = false)
    (hnone : s.mapOrphanTransactions.lookup (R.C.txHash tx) = none)
    (hinputs : ∀ txin ∈ tx.vin, Known R s.mempool txin.prevout.hash) (misbehaving : List (Nat × Nat)) :
    Resolves R pool family (d ++ [tx]) s (R.C.txHash tx) (R.C.txHash tx) []
      { mempool := s.mempool.addUnchecked (R.C.txHash tx) (.ofTx tx), vWorkQueue := [R.C.txHash tx],
        vEraseQueue := [R.C.txHash tx], setMisbehaving := [], misbehaving := misbehaving } := by
  have hmore : ∀ h, Known R s.mempool h → Resolvable R pool (d ++ [tx]) h := fun h hknown =>
    (hs.resolvable h hknown).mono (subset_append_left _ _)
  refine ⟨hs.grown.add hmem hnew hinputs, rfl, ⟨has_addUnchecked.mpr (.inl rfl), hnew⟩, fun q hq => ?_,
    fun q hq => has_addUnchecked.mpr hq.symm, fun q hq => ?_, fun q hq => ?_, fun q oq hq _ => ?_,
    fun q oq hq hmem => ?_, fun q oq hq txin htxin hin hout => ?_⟩
  · rcases known_addUnchecked.mp hq with rfl | hq
    · exact .tx (mem_append_right _ (mem_singleton.mpr rfl)) fun txin htxin =>
        hmore _ (hinputs txin htxin)
    · exact hmore q hq
  · rcases has_addUnchecked.mp hq with rfl | hq
    · exact .inr ⟨mem_singleton.mpr rfl, .inl rfl⟩
    · exact .inl hq
  · rw [mem_singleton.mp hq]
    exact ⟨has_addUnchecked.mpr (.inl rfl), hnew⟩
  · obtain ⟨txin, htxin, hunknown⟩ := hs.stuck q oq hq
    refine ⟨txin, htxin, ?_⟩
    by_cases hprev : txin.prevout.hash = R.C.txHash tx
    · exact .inr (.inl (mem_singleton.mpr hprev))
    · exact .inl fun hknown => hunknown ((known_addUnchecked.mp hknown).resolve_left hprev)
  · rw [mem_singleton.mp hmem, hnone] at hq
    simp at hq
  · rcases has_addUnchecked.mp hin with hprev | hin
    · exact .inr (.inl (mem_singleton.mpr hprev))
    · cases hout.symm.trans hin

theorem Sound.accepted (hs : Sound R pool family d s) (hc : Compatible R pool family) (hfamily : d ⊆ family)
    (hmem : tx ∈ family) (hnew : s.mempool.has (R.C.txHash tx) = false)
    (hnone : s.mapOrphanTransactions.lookup (R.C.txHash tx) = none)
    (hinputs : ∀ txin ∈ tx.vin, Known R s.mempool txin.prevout.hash) (pfrom : Nat) :
    Delivered R pool family d tx s (processTx R s tx pfrom) := by
  have hstart := hs.start hmem hnew hnone hinputs s.misbehaving
  have hfamily' : d ++ [tx] ⊆ family := by
    intro q hq
    rcases mem_append.mp hq with hq | hq
    · exact hfamily hq
    · rw [mem_singleton.mp hq]
      exact hmem
  obtain ⟨x, st, hrun, hend, hempty⟩ := hstart.resolveOrphans hc hfamily' hs (subset_append_left _ _)
    (s.mapOrphanTransactions.keys.length + 1) (by
      unfold Resolving.remaining
      have hfilter := length_filter_le (fun h =>
        !(s.mempool.addUnchecked (R.C.txHash tx) (.ofTx tx)).has h) s.mapOrphanTransactions.keys
      simp only [length_singleton]
      omega)
  have hstate : processTx R s tx pfrom = st.vEraseQueue.foldl TxNode.eraseOrphanTx
      { s with mempool := st.mempool, misbehaving := st.misbehaving } := by
    unfold processTx
    rw [hc.accepts _ hs.grown tx hmem hnew hinputs]
    simp only [hrun]
  obtain ⟨hpool, hlook, hagree⟩ := eraseOrphans_eq (C := R.C) st.vEraseQueue
    { s with mempool := st.mempool, misbehaving := st.misbehaving }
  rw [← hstate] at hpool hlook hagree
  have hstuck : ∀ h o, s.mapOrphanTransactions.lookup h = some o → st.mempool.has h = false →
      ∃ txin ∈ o.tx.vin, ¬ Known R st.mempool txin.prevout.hash := by
    intro h o ho hnot
    obtain ⟨txin, htxin, hcase⟩ := hend.waiting h o ho hnot
    refine ⟨txin, htxin, ?_⟩
    rcases hcase with hunknown | hqueue | ⟨-, hrest⟩
    · exact hunknown
    · rw [hempty] at hqueue
      simp at hqueue
    · simp at hrest
  have hleft : ∀ h o, (processTx R s tx pfrom).mapOrphanTransactions.lookup h = some o →
      h ∉ st.vEraseQueue ∧ s.mapOrphanTransactions.lookup h = some o ∧ st.mempool.has h = false := by
    intro h o ho
    rw [hlook] at ho
    split_ifs at ho with herase
    refine ⟨herase, ho, ?_⟩
    rw [← Bool.not_eq_true]
    intro hin
    rcases hend.new h hin with hin | ⟨hmem, -⟩
    · cases (hs.waits h o ho).2.symm.trans hin
    · exact herase hmem
  refine ⟨⟨?_, ?_, hagree ⟨hs.agree.keyed, hs.agree.byPrev⟩, fun h o ho => ?_, fun h o ho => ?_⟩, ?_, ?_, ?_,
    fun h _ => ?_, ?_, fun h o ho => ?_⟩
  · rw [hpool]
    exact hend.grown
  · rw [hpool]
    exact hend.resolvable
  · obtain ⟨-, hbefore, hout⟩ := hleft h o ho
    rw [hpool]
    exact ⟨mem_append_left _ (hs.waits h o hbefore).1, hout⟩
  · obtain ⟨-, hbefore, hout⟩ := hleft h o ho
    rw [hpool]
    exact hstuck h o hbefore hout
  · rw [hpool]
    exact fun h hin => hend.keeps h (.inl hin)
  · left
    rw [hpool]
    exact hend.keeps _ (.inr rfl)
  · rw [hpool]
    intro h hin
    exact (hend.new h hin).imp_right And.right
  · rw [hlook]
    split_ifs
    · exact .inl rfl
    · exact .inr rfl
  · rw [hpool]
    exact hstuck
  · rw [hlook, hpool]
    constructor
    · intro hstays txin htxin hin
      split_ifs at hstays with herase
      cases hout : s.mempool.has txin.prevout.hash with
      | true => rfl
      | false =>
        rcases hend.covers h o ho txin htxin hin hout with hmem | hmem | ⟨-, hmem⟩
        · exact absurd hmem herase
        · rw [hempty] at hmem
          simp at hmem
        · simp at hmem
    · intro hold
      rw [if_neg, ho]
      intro herase
      obtain ⟨txin, htxin, hin, hout⟩ := hend.erased h o ho herase
      cases hout.symm.trans (hold txin htxin hin)

/-- There are never too many orphans. -/
theorem limitOrphanTxSize_eq {nMaxOrphans : Nat} (turns : Nat)
    (h : s.mapOrphanTransactions.keys.length ≤ nMaxOrphans) : s.limitOrphanTxSize R nMaxOrphans turns = s := by
  cases turns with
  | zero => rfl
  | succ turns =>
    unfold TxNode.limitOrphanTxSize
    rw [if_neg (Nat.not_lt.mpr h)]

/-- The transaction of the message has to wait. -/
theorem Sound.delayed (hs : Sound R pool family d s) (hc : Compatible R pool family) (hfamily : d ⊆ family)
    (hmem : tx ∈ family) (hnew : s.mempool.has (R.C.txHash tx) = false)
    (hnone : s.mapOrphanTransactions.lookup (R.C.txHash tx) = none)
    (hmissing : ∃ txin ∈ tx.vin, ¬ Known R s.mempool txin.prevout.hash) (pfrom : Nat) :
    Delivered R pool family d tx s (processTx R s tx pfrom) := by
  obtain ⟨hpool, hmap, hagree⟩ := addOrphanTx_eq pfrom hnone (hc.small tx hmem)
  have hlook : ∀ h, (s.addOrphanTx R.C tx pfrom).mapOrphanTransactions.lookup h =
      if h = R.C.txHash tx then some { tx := tx, fromPeer := pfrom } else s.mapOrphanTransactions.lookup h := by
    intro h
    rw [hmap]
    split_ifs with hh
    · rw [hh, AList.lookup_insert]
    · exact AList.lookup_insert_ne hh
  have hsome : ∀ h o, (s.addOrphanTx R.C tx pfrom).mapOrphanTransactions.lookup h = some o →
      (h = R.C.txHash tx ∧ o.tx = tx) ∨ s.mapOrphanTransactions.lookup h = some o := by
    intro h o ho
    rw [hlook] at ho
    split_ifs at ho with hh
    · exact .inl ⟨hh, by rw [← Option.some.inj ho]⟩
    · exact .inr ho
  have hfew : (s.addOrphanTx R.C tx pfrom).mapOrphanTransactions.keys.length ≤ DEFAULT_MAX_ORPHAN_TRANSACTIONS := by
    have hsub : (s.addOrphanTx R.C tx pfrom).mapOrphanTransactions.keys ⊆ family.map R.C.txHash := by
      intro h hkey
      rw [← AList.mem_keys, ← AList.lookup_isSome] at hkey
      obtain ⟨o, ho⟩ := Option.isSome_iff_exists.mp hkey
      rcases hsome h o ho with ⟨rfl, -⟩ | ho
      · exact mem_map.mpr ⟨tx, hmem, rfl⟩
      · exact mem_map.mpr ⟨o.tx, hfamily (hs.waits h o ho).1, hs.agree.keyed h o ho⟩
    have hlength := (subperm_of_subset (AList.keys_nodup _) hsub).length_le
    rw [length_map] at hlength
    exact hlength.trans hc.few
  have hstate : processTx R s tx pfrom = s.addOrphanTx R.C tx pfrom := by
    unfold processTx
    rw [hc.missing hs.grown hmem hnew hmissing]
    exact limitOrphanTxSize_eq _ hfew
  rw [hstate]
  refine ⟨⟨?_, fun h hknown => ?_, hagree hs.agree, fun h o ho => ?_, fun h o ho => ?_⟩, ?_, .inr ?_, ?_,
    fun h hh => .inr ?_, fun h o ho _ => ?_, fun h o ho => ?_⟩
  · rw [hpool]
    exact hs.grown
  · rw [hpool] at hknown
    exact (hs.resolvable h hknown).mono (subset_append_left _ _)
  · rw [hpool]
    rcases hsome h o ho with ⟨rfl, htx⟩ | ho
    · rw [htx]
      exact ⟨mem_append_right _ (mem_singleton.mpr rfl), hnew⟩
    · exact ⟨mem_append_left _ (hs.waits h o ho).1, (hs.waits h o ho).2⟩
  · rw [hpool]
    rcases hsome h o ho with ⟨-, htx⟩ | ho
    · rw [htx]
      exact hmissing
    · exact hs.stuck h o ho
  · rw [hpool]
    exact fun h hin => hin
  · exact ⟨{ tx := tx, fromPeer := pfrom }, by rw [hlook, if_pos rfl], rfl⟩
  · rw [hpool]
    exact fun h hin => .inl hin
  · rw [hlook, if_neg hh]
  · rw [hpool]
    exact hs.stuck h o ho
  · have hne : h ≠ R.C.txHash tx := by
      rintro rfl
      rw [hnone] at ho
      simp at ho
    rw [hlook, if_neg hne, hpool]
    exact ⟨fun _ _ _ hin => hin, fun _ => ho⟩

theorem Sound.processTx (hs : Sound R pool family d s) (hc : Compatible R pool family) (hfamily : d ⊆ family)
    (hmem : tx ∈ family) (hnew : tx ∉ d) (pfrom : Nat) :
    Delivered R pool family d tx s (processTx R s tx pfrom) := by
  obtain ⟨hout, hnone⟩ := hs.fresh hc hfamily hmem hnew
  by_cases hinputs : ∀ txin ∈ tx.vin, Known R s.mempool txin.prevout.hash
  · exact hs.accepted hc hfamily hmem hout hnone hinputs pfrom
  · push Not at hinputs
    exact hs.delayed hc hfamily hmem hout hnone hinputs pfrom

/-! ## Runs -/

/-- No message makes one parent of a waiting transaction resolvable and leaves the transaction waiting. -/
def Steady (R : Relay) (pool : CTxMemPool) (order : List CTransaction) : Prop :=
  ∀ d tx rest, order = d ++ tx :: rest → ∀ orphan ∈ d, ∀ txin ∈ orphan.vin,
    ¬ Resolvable R pool d txin.prevout.hash → Resolvable R pool (d ++ [tx]) txin.prevout.hash →
    Resolvable R pool (d ++ [tx]) (R.C.txHash orphan)

/-- No transaction that was delivered is forgotten. -/
def Lossless (R : Relay) (d : List CTransaction) (s : TxNode) : Prop :=
  ∀ tx ∈ d, s.mempool.has (R.C.txHash tx) = true ∨
    ∃ o, s.mapOrphanTransactions.lookup (R.C.txHash tx) = some o ∧ o.tx = tx

theorem Grown.keeps (h : Grown R pool family pool') (hin : pool.has p) : pool'.has p = true := by
  induction h with
  | start => exact hin
  | add _ _ _ _ ih => exact has_addUnchecked.mpr (.inr ih)

/-- Where every transaction that is not in the pool has a parent that is not known, the resolvable ones are
known. -/
theorem known_of_resolvable (hgrown : Grown R pool family pool')
    (hstuck : ∀ tx ∈ d, pool'.has (R.C.txHash tx) ∨ ∃ txin ∈ tx.vin, ¬ Known R pool' txin.prevout.hash)
    (h : Resolvable R pool d p) : Known R pool' p := by
  induction h with
  | known h => exact h.imp_left hgrown.keeps
  | @tx tx mem _ ih =>
    rcases hstuck tx mem with hin | ⟨txin, htxin, hunknown⟩
    · exact .inl hin
    · exact absurd (ih txin htxin) hunknown

theorem Sound.known_of_resolvable (hs : Sound R pool family d s) (hkept : Lossless R d s)
    (h : Resolvable R pool d p) : Known R s.mempool p := by
  refine Reddcoin.known_of_resolvable hs.grown (fun tx hmem => ?_) h
  rcases hkept tx hmem with hin | ⟨o, ho, rfl⟩
  · exact .inl hin
  · exact .inr (hs.stuck _ o ho)

variable {s' : TxNode}

section

variable (hd : Delivered R pool family d tx s s')

include hd

theorem Delivered.known_of_resolvable (hkept : Lossless R d s)
    (h : Resolvable R pool (d ++ [tx]) p) : Known R s'.mempool p := by
  refine Reddcoin.known_of_resolvable hd.sound.grown (fun q hq => ?_) h
  rcases mem_append.mp hq with hq | hq
  · rcases hkept q hq with hin | ⟨o, ho, rfl⟩
    · exact .inl (hd.keeps _ hin)
    · cases hin : s'.mempool.has (R.C.txHash o.tx) with
      | true => exact .inl rfl
      | false => exact .inr (hd.stuck _ o ho hin)
  · rw [mem_singleton.mp hq]
    rcases hd.received with hin | ⟨o, ho, htx⟩
    · exact .inl hin
    · rw [← htx]
      rw [← htx] at ho
      exact .inr (hd.sound.stuck _ o ho)

/-- What is new in the pool was not known before. -/
theorem Delivered.new_unknown (hs : Sound R pool family d s)
    (hc : Compatible R pool family) (hfamily : d ⊆ family) (hmem : tx ∈ family)
    (hin : s'.mempool.has p) (hout : s.mempool.has p = false) : ¬ Known R s.mempool p := by
  have hfam : ∃ q ∈ family, R.C.txHash q = p := by
    rcases hd.new p hin with hbefore | rfl | hwaits
    · cases hout.symm.trans hbefore
    · exact ⟨tx, hmem, rfl⟩
    · obtain ⟨o, ho⟩ := Option.isSome_iff_exists.mp hwaits
      exact ⟨o.tx, hfamily (hs.waits p o ho).1, hs.agree.keyed p o ho⟩
  obtain ⟨q, hq, rfl⟩ := hfam
  rintro (hpool | hchain)
  · cases hout.symm.trans hpool
  · exact hc.new q hq (.inr hchain)

/-- In a steady order nothing is forgotten. -/
theorem Delivered.lossless (hs : Sound R pool family d s)
    (hc : Compatible R pool family) (hfamily : d ⊆ family) (hmem : tx ∈ family) (hkept : Lossless R d s)
    (hsteady : ∀ orphan ∈ d, ∀ txin ∈ orphan.vin, ¬ Resolvable R pool d txin.prevout.hash →
      Resolvable R pool (d ++ [tx]) txin.prevout.hash → Resolvable R pool (d ++ [tx]) (R.C.txHash orphan)) :
    Lossless R (d ++ [tx]) s' := by
  intro q hq
  rcases mem_append.mp hq with hq | hq
  · rcases hkept q hq with hin | ⟨o, ho, rfl⟩
    · exact .inl (hd.keeps _ hin)
    · by_cases hold : ∀ txin ∈ o.tx.vin, s'.mempool.has txin.prevout.hash = true →
          s.mempool.has txin.prevout.hash = true
      · exact .inr ⟨o, (hd.stays _ o ho).mpr hold, rfl⟩
      · push Not at hold
        obtain ⟨txin, htxin, hin, hout⟩ := hold
        have hunknown := hd.new_unknown hs hc hfamily hmem hin (Bool.not_eq_true _ ▸ hout)
        have hready := hsteady o.tx hq txin htxin
          (fun hbefore => hunknown (hs.known_of_resolvable hkept hbefore))
          (hd.sound.resolvable _ (.inl hin))
        rcases hd.known_of_resolvable hkept hready with hpool | hchain
        · exact .inl hpool
        · exact absurd (.inr hchain) (hc.new o.tx (hfamily hq))
  · rw [mem_singleton.mp hq]
    exact hd.received

/-- A transaction that was forgotten does not come back. -/
theorem Delivered.forgotten (hne : p ≠ R.C.txHash tx)
    (hout : s.mempool.has p = false) (hnone : s.mapOrphanTransactions.lookup p = none) :
    s'.mempool.has p = false ∧ s'.mapOrphanTransactions.lookup p = none := by
  constructor
  · rw [← Bool.not_eq_true]
    intro hin
    rcases hd.new p hin with hbefore | hself | hwaits
    · cases hout.symm.trans hbefore
    · exact hne hself
    · rw [hnone] at hwaits
      simp at hwaits
  · rcases hd.orphans p hne with hlook | hlook
    · exact hlook
    · exact hlook.trans hnone

/-- An order in which nothing is forgotten is steady. -/
theorem Delivered.steady (hs : Sound R pool family d s)
    (hother : ∀ q ∈ d, R.C.txHash q ≠ R.C.txHash tx) (hkept : Lossless R d s)
    (hkept' : Lossless R (d ++ [tx]) s') :
    ∀ orphan ∈ d, ∀ txin ∈ orphan.vin, ¬ Resolvable R pool d txin.prevout.hash →
      Resolvable R pool (d ++ [tx]) txin.prevout.hash → Resolvable R pool (d ++ [tx]) (R.C.txHash orphan) := by
  intro q hq txin htxin hbefore hafter
  refine hd.sound.resolvable _ ?_
  rcases hkept q hq with hin | ⟨o, ho, rfl⟩
  · exact .inl (hd.keeps _ hin)
  · rcases hkept' o.tx (mem_append_left _ hq) with hin | ⟨o', ho', -⟩
    · exact .inl hin
    · -- The parent is new in the pool, so the orphan was erased.
      have hnew : s'.mempool.has txin.prevout.hash = true ∧ s.mempool.has txin.prevout.hash = false := by
        have hunknown : ¬ Known R s.mempool txin.prevout.hash := fun hknown => hbefore (hs.resolvable _ hknown)
        obtain ⟨hpool, hchain⟩ := not_or.mp hunknown
        exact ⟨(hd.known_of_resolvable hkept hafter).resolve_right hchain, Bool.not_eq_true _ ▸ hpool⟩
      have hstays : s'.mapOrphanTransactions.lookup (R.C.txHash o.tx) = some o := by
        rcases hd.orphans _ (hother o.tx hq) with hlook | hlook
        · rw [hlook] at ho'
          simp at ho'
        · exact hlook.trans ho
      have hcontra := (hd.stays _ o ho).mp hstays txin htxin hnew.1
      cases hnew.2.symm.trans hcontra

end

variable {messages before after : List (CTransaction × Nat)}

theorem sound_fresh (pool : CTxMemPool) (family : List CTransaction) :
    Sound R pool family [] (TxNode.fresh pool) where
  grown := .start
  resolvable h hknown := .known hknown
  agree := ⟨fun h o ho => by simp [TxNode.fresh] at ho, fun prev h => by simp [TxNode.fresh]⟩
  waits h o ho := by simp [TxNode.fresh] at ho
  stuck h o ho := by simp [TxNode.fresh] at ho

theorem processTxs_concat (R : Relay) (s : TxNode) (before : List (CTransaction × Nat))
    (m : CTransaction × Nat) :
    processTxs R s (before ++ [m]) = processTx R (processTxs R s before) m.1 m.2 := by
  unfold processTxs
  rw [foldl_append]
  rfl

/-- What the nodup hashes of a family say about a message in the middle. -/
theorem Compatible.split {m : CTransaction × Nat} (hc : Compatible R pool (messages.map Prod.fst))
    (hsplit : messages = before ++ m :: after) : before.map Prod.fst ⊆ messages.map Prod.fst ∧
      m.1 ∈ messages.map Prod.fst ∧ ∀ q ∈ before.map Prod.fst, R.C.txHash q ≠ R.C.txHash m.1 := by
  have hmap : messages.map Prod.fst = before.map Prod.fst ++ m.1 :: after.map Prod.fst := by
    rw [hsplit, map_append, map_cons]
  refine ⟨?_, ?_, fun q hq heq => ?_⟩
  · rw [hmap]
    exact subset_append_left _ _
  · rw [hmap]
    exact mem_append_right _ mem_cons_self
  · have hnodup := hc.hashes
    rw [hmap, map_append, map_cons, nodup_append] at hnodup
    exact hnodup.2.2 _ (mem_map.mpr ⟨q, hq, rfl⟩) _ mem_cons_self heq

/-- The node after some of the messages. -/
theorem Compatible.sound (hc : Compatible R pool (messages.map Prod.fst)) (hsplit : messages = before ++ after) :
    Sound R pool (messages.map Prod.fst) (before.map Prod.fst) (processTxs R (.fresh pool) before) := by
  induction before using List.reverseRecOn generalizing after with
  | nil => exact sound_fresh pool _
  | append_singleton before m ih =>
    have hsplit : messages = before ++ m :: after := by
      rw [hsplit, append_assoc]
      rfl
    obtain ⟨hsub, hmem, hother⟩ := hc.split hsplit
    have hs := ih hsplit
    rw [map_append, processTxs_concat]
    exact (hs.processTx hc hsub hmem (fun hin => hother m.1 hin rfl) m.2).sound

theorem Compatible.delivered {m : CTransaction × Nat} (hc : Compatible R pool (messages.map Prod.fst))
    (hsplit : messages = before ++ m :: after) :
    Delivered R pool (messages.map Prod.fst) (before.map Prod.fst) m.1 (processTxs R (.fresh pool) before)
      (processTxs R (.fresh pool) (before ++ [m])) := by
  obtain ⟨hsub, hmem, hother⟩ := hc.split hsplit
  rw [processTxs_concat]
  exact (hc.sound hsplit).processTx hc hsub hmem (fun hin => hother m.1 hin rfl) m.2

section

variable (hc : Compatible R pool (messages.map Prod.fst))

include hc

theorem Compatible.lossless_of_steady (hsteady : Steady R pool (messages.map Prod.fst))
    (hsplit : messages = before ++ after) :
    Lossless R (before.map Prod.fst) (processTxs R (.fresh pool) before) := by
  induction before using List.reverseRecOn generalizing after with
  | nil =>
    intro q hq
    simp at hq
  | append_singleton before m ih =>
    have hsplit : messages = before ++ m :: after := by
      rw [hsplit, append_assoc]
      rfl
    obtain ⟨hsub, hmem, -⟩ := hc.split hsplit
    have hkept := (hc.delivered hsplit).lossless (hc.sound hsplit) hc hsub hmem (ih hsplit)
      (hsteady _ m.1 (after.map Prod.fst) (by rw [hsplit, map_append, map_cons]))
    rw [map_append]
    exact hkept

/-- What is forgotten at some point is not in the pool in the end. -/
theorem Compatible.forgotten (hsplit : messages = before ++ after) (hmem : tx ∈ before.map Prod.fst)
    (hout : (processTxs R (.fresh pool) before).mempool.has (R.C.txHash tx) = false)
    (hnone : (processTxs R (.fresh pool) before).mapOrphanTransactions.lookup (R.C.txHash tx) = none) :
    (processTxs R (.fresh pool) messages).mempool.has (R.C.txHash tx) = false := by
  induction after generalizing before with
  | nil =>
    rw [append_nil] at hsplit
    rw [hsplit]
    exact hout
  | cons m after ih =>
    obtain ⟨-, -, hother⟩ := hc.split hsplit
    obtain ⟨hout', hnone'⟩ := (hc.delivered hsplit).forgotten (hother tx hmem) hout hnone
    refine ih (by rw [hsplit, append_assoc]; rfl) ?_ hout' hnone'
    rw [map_append]
    exact mem_append_left _ hmem

theorem Compatible.lossless_of_resolved
    (hall : ∀ tx ∈ messages.map Prod.fst, (processTxs R (.fresh pool) messages).mempool.has (R.C.txHash tx))
    (hsplit : messages = before ++ after) :
    Lossless R (before.map Prod.fst) (processTxs R (.fresh pool) before) := by
  have hs := hc.sound hsplit
  have hsub : before.map Prod.fst ⊆ messages.map Prod.fst := by
    rw [hsplit, map_append]
    exact subset_append_left _ _
  intro q hq
  cases hin : (processTxs R (.fresh pool) before).mempool.has (R.C.txHash q) with
  | true => exact .inl rfl
  | false =>
    cases hlook : (processTxs R (.fresh pool) before).mapOrphanTransactions.lookup (R.C.txHash q) with
    | none =>
      have hlost := hc.forgotten hsplit hq hin hlook
      cases hlost.symm.trans (hall q (hsub hq))
    | some o =>
      have hod := (hs.waits _ o hlook).1
      exact .inr ⟨o, rfl, hc.hash_inj (hsub hod) (hsub hq) (hs.agree.keyed _ o hlook)⟩

end

/-- Every transaction of a compatible family ends up in the pool, and none is left as an orphan, exactly when
the order of delivery is steady. -/
theorem orphans_resolved_iff (hc : Compatible R pool (messages.map Prod.fst)) :
    (∀ tx ∈ messages.map Prod.fst, (processTxs R (.fresh pool) messages).mempool.has (R.C.txHash tx) = true ∧
      (processTxs R (.fresh pool) messages).mapOrphanTransactions.lookup (R.C.txHash tx) = none) ↔
    Steady R pool (messages.map Prod.fst) := by
  have hend : Sound R pool (messages.map Prod.fst) (messages.map Prod.fst)
      (processTxs R (.fresh pool) messages) := hc.sound (append_nil messages).symm
  constructor
  · intro hall d tx rest hsplit
    obtain ⟨before, tail, hmessages, rfl, htail⟩ := map_eq_append_iff.mp hsplit
    obtain ⟨m, after, rfl, rfl, -⟩ := map_eq_cons_iff.mp htail
    have hin : ∀ tx ∈ messages.map Prod.fst,
        (processTxs R (.fresh pool) messages).mempool.has (R.C.txHash tx) = true := fun tx htx => (hall tx htx).1
    obtain ⟨-, -, hother⟩ := hc.split hmessages
    have hnext : messages = (before ++ [m]) ++ after := by
      rw [hmessages, append_assoc]
      rfl
    have hkept' := hc.lossless_of_resolved hin hnext
    rw [map_append] at hkept'
    exact (hc.delivered hmessages).steady (hc.sound hmessages) hother (hc.lossless_of_resolved hin hmessages) hkept'
  · intro hsteady tx htx
    have hkept : Lossless R (messages.map Prod.fst) (processTxs R (.fresh pool) messages) :=
      hc.lossless_of_steady hsteady (append_nil messages).symm
    have hin : (processTxs R (.fresh pool) messages).mempool.has (R.C.txHash tx) = true := by
      rcases hend.known_of_resolvable hkept (hc.resolvable tx htx) with hpool | hchain
      · exact hpool
      · exact absurd (.inr hchain) (hc.new tx htx)
    refine ⟨hin, ?_⟩
    cases hlook : (processTxs R (.fresh pool) messages).mapOrphanTransactions.lookup (R.C.txHash tx) with
    | none => rfl
    | some o => cases (hend.waits _ o hlook).2.symm.trans hin

end

namespace Example

/-- A node whose chain has the coins of the transaction 1, and which accepts whatever has its inputs. -/
def relay : Relay where
  P := params
  C := pairing
  nTipHeight := 0
  nonStandard _ := none
  haveCoins hash := decide (hash = 1)
  checkInView _ _ := .ok ()
  getRandHash _ := 0

def emptyPool : CTxMemPool :=
  CTxMemPool.new false

/-- A transaction of a grown pool comes from the family. -/
theorem grown_lookup {pool' : CTxMemPool} (h : Grown relay emptyPool family pool')
    {hash : Uint256} {entry : CTxMemPoolEntry} (hlook : pool'.mapTx.lookup hash = some entry) :
    entry.tx ∈ family := by
  induction h with
  | start => simp [emptyPool, CTxMemPool.new] at hlook
  | @add pool₁ tx₁ _ mem _ _ ih =>
    have hlook : (pool₁.mapTx.insert (relay.C.txHash tx₁) (.ofTx tx₁)).lookup hash = some entry := hlook
    by_cases hh : hash = relay.C.txHash tx₁
    · rw [hh, AList.lookup_insert] at hlook
      cases hlook
      exact mem
    · rw [AList.lookup_insert_ne hh] at hlook
      exact ih hlook

theorem compatible_of (hashes : (family.map relay.C.txHash).Nodup)
    (few : family.length ≤ DEFAULT_MAX_ORPHAN_TRANSACTIONS) (small : ∀ tx ∈ family, tx.serializeSize ≤ 5000)
    (loose : ∀ tx ∈ family, checkLooseTx relay tx = .ok ()) (new : ∀ tx ∈ family, relay.C.txHash tx ≠ 1)
    (coins : ∀ tx ∈ family, (CCoins.fromTx tx 0x7FFFFFFF).vout.isEmpty = false)
    (exclusive : ∀ tx ∈ family, ∀ tx' ∈ family, relay.C.txHash tx ≠ relay.C.txHash tx' →
      ∀ txin ∈ tx.vin, txin.prevout ∉ tx'.vin.map CTxIn.prevout)
    (resolvable : ∀ tx ∈ family, Resolvable relay emptyPool family (relay.C.txHash tx)) :
    Compatible relay emptyPool family := by
  have hnew : ∀ tx ∈ family, ¬ Known relay emptyPool (relay.C.txHash tx) := by
    rintro tx htx (hpool | hchain)
    · simp [emptyPool, CTxMemPool.new, CTxMemPool.has] at hpool
    · exact new tx htx (of_decide_eq_true hchain)
  have hunspent : ∀ tx ∈ family, ∀ txin ∈ tx.vin, emptyPool.mapNextTx.lookup txin.prevout = none := by
    intro tx _ txin _
    simp [emptyPool, CTxMemPool.new]
  refine ⟨hashes, few, small, loose, hnew, resolvable, hunspent, exclusive, fun pool' hgrown tx htx hout hinputs => ?_⟩
  have hconflict : (tx.vin.any fun txin => (pool'.mapNextTx.lookup txin.prevout).isSome) = false := by
    rw [any_eq_false]
    intro txin htxin
    rw [hgrown.inputs hunspent exclusive htx hout txin htxin]
    simp
  have hown : haveCoinsInView relay pool' (relay.C.txHash tx) = false := by
    refine haveCoinsInView_false ?_
    rintro (hpool | hchain)
    · cases hout.symm.trans hpool
    · exact new tx htx (of_decide_eq_true hchain)
  have hinput : (tx.vin.any fun txin => !haveCoinsInView relay pool' txin.prevout.hash) = false := by
    rw [any_eq_false]
    intro txin htxin
    have hhave : haveCoinsInView relay pool' txin.prevout.hash = true := by
      unfold haveCoinsInView
      cases hlook : pool'.mapTx.lookup txin.prevout.hash with
      | some entry =>
        simp only
        rw [coins entry.tx (grown_lookup hgrown hlook)]
        rfl
      | none =>
        rcases hinputs txin htxin with hpool | hchain
        · rw [CTxMemPool.has, hlook] at hpool
          simp at hpool
        · exact hchain
    rw [hhave]
    simp
  unfold acceptToMemoryPool
  simp only [loose tx htx, hout, hconflict, hown, hinput, Bool.false_eq_true, if_false]
  rfl

def firstParent : CTransaction :=
  spendingTx 1 [{ hash := 1, n := 0 }]

def secondParent : CTransaction :=
  spendingTx 2 [{ hash := 1, n := 1 }]

/-- Spends an output of each parent. -/
def commonChild : CTransaction :=
  spendingTx 3 [{ hash := 2, n := 0 }, { hash := 4, n := 0 }]

theorem known_one : Known relay emptyPool 1 :=
  .inr rfl

theorem compatible_family (hperm : family.Perm [commonChild, firstParent, secondParent]) :
    Compatible relay emptyPool family := by
  have hall : ∀ {Q : CTransaction → Prop}, Q commonChild → Q firstParent → Q secondParent → ∀ tx ∈ family, Q tx := by
    intro Q h1 h2 h3 tx htx
    have hmem := hperm.mem_iff.mp htx
    simp only [mem_cons, not_mem_nil, or_false] at hmem
    rcases hmem with rfl | rfl | rfl
    · exact h1
    · exact h2
    · exact h3
  have hfirst : Resolvable relay emptyPool family (relay.C.txHash firstParent) := by
    refine .tx (hperm.mem_iff.mpr (by decide)) fun txin htxin => ?_
    rw [mem_singleton.mp htxin]
    exact .known known_one
  have hsecond : Resolvable relay emptyPool family (relay.C.txHash secondParent) := by
    refine .tx (hperm.mem_iff.mpr (by decide)) fun txin htxin => ?_
    rw [mem_singleton.mp htxin]
    exact .known known_one
  have hchild : Resolvable relay emptyPool family (relay.C.txHash commonChild) := by
    refine .tx (hperm.mem_iff.mpr (by decide)) fun txin htxin => ?_
    rcases mem_cons.mp htxin with rfl | htxin
    · exact hfirst
    · rw [mem_singleton.mp htxin]
      exact hsecond
  refine compatible_of ?_ ?_ (hall (by decide) (by decide) (by decide)) (hall (by decide) (by decide) (by decide))
    (hall (by decide) (by decide) (by decide)) (hall (by decide) (by decide) (by decide)) ?_
    (hall hchild hfirst hsecond)
  · exact (hperm.map _).nodup_iff.mpr (by decide)
  · rw [hperm.length_eq]
    decide
  · exact hall (hall (by decide) (by decide) (by decide)) (hall (by decide) (by decide) (by decide))
      (hall (by decide) (by decide) (by decide))

end Example

open Example

/-- The parents are delivered first. -/
theorem orphans_resolved_iff_example :
    (∀ tx ∈ [firstParent, secondParent, commonChild],
      (processTxs relay (.fresh emptyPool) [(firstParent, 0), (secondParent, 0),
        (commonChild, 0)]).mempool.has (relay.C.txHash tx) = true ∧
      (processTxs relay (.fresh emptyPool) [(firstParent, 0), (secondParent, 0),
        (commonChild, 0)]).mapOrphanTransactions.lookup (relay.C.txHash tx) = none) ↔
    Steady relay emptyPool [firstParent, secondParent, commonChild] :=
  @orphans_resolved_iff _ _ [(firstParent, 0), (secondParent, 0), (commonChild, 0)]
    (compatible_family (by decide))

/-- The child is delivered before its two parents: it is forgotten when the first of them is accepted. -/
theorem orphan_forgotten :
    Compatible relay emptyPool [commonChild, firstParent, secondParent] ∧
    (processTxs relay (.fresh emptyPool) [(commonChild, 0), (firstParent, 0),
      (secondParent, 0)]).mempool.has (relay.C.txHash commonChild) = false := by
  refine ⟨compatible_family (.refl _), ?_⟩
  decide

end Reddcoin
