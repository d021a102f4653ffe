import Reddcoin.Mempool.ChainTip

/-!
# What leaves the memory pool

A recursive removal takes the transactions that spend a removed one along, so what stays depends on nothing that left.
The confirmed transactions of a block leave alone; what is in conflict with them leaves recursively.
-/

namespace Reddcoin

open List

namespace CTxMemPool

variable {C : Crypto} {pool pool' pool'' : CTxMemPool} {tx : CTransaction} {removed : List CTransaction}
  {result : CTxMemPool × List CTransaction}

/-- The pool without some transactions. -/
structure Within (pool' pool : CTxMemPool) : Prop where
  entries : ∀ hash entry, pool'.mapTx.lookup hash = some entry → pool.mapTx.lookup hash = some entry
  sanity : pool'.fSanityCheck = pool.fSanityCheck

theorem Within.refl (pool : CTxMemPool) : pool.Within pool :=
  ⟨fun _ _ h => h, rfl⟩

theorem Within.trans (h : pool''.Within pool') (h' : pool'.Within pool) : pool''.Within pool :=
  ⟨fun hash entry hin => h'.entries hash entry (h.entries hash entry hin), h.sanity.trans h'.sanity⟩

/-- The transaction under `hash` spends an output of `parent`. -/
def DependsOn (pool : CTxMemPool) (hash parent : Uint256) (outputs : Nat) : Prop :=
  ∃ entry, pool.mapTx.lookup hash = some entry ∧
    ∃ txin ∈ entry.tx.vin, txin.prevout.hash = parent ∧ txin.prevout.n < outputs

/-- Transactions were taken out together with those that spend their outputs. -/
structure ClosedWithin (pool' pool : CTxMemPool) : Prop extends Within pool' pool where
  closed : ∀ parent entry, pool.mapTx.lookup parent = some entry → pool'.mapTx.lookup parent = none →
    ∀ hash, ¬ pool'.DependsOn hash parent entry.tx.vout.length

theorem ClosedWithin.refl (pool : CTxMemPool) : pool.ClosedWithin pool where
  toWithin := .refl pool
  closed parent entry hin hout := by simp [hin] at hout

theorem Within.dependsOn (h : pool'.Within pool) {hash parent : Uint256} {outputs : Nat}
    (hdep : pool'.DependsOn hash parent outputs) : pool.DependsOn hash parent outputs := by
  obtain ⟨entry, hin, htxin⟩ := hdep
  exact ⟨entry, h.entries hash entry hin, htxin⟩

theorem ClosedWithin.trans (h : pool''.ClosedWithin pool') (h' : pool'.ClosedWithin pool) :
    pool''.ClosedWithin pool where
  toWithin := h.toWithin.trans h'.toWithin
  closed := by
    intro parent entry hin hout hash hdep
    cases hmid : pool'.mapTx.lookup parent with
    | none => exact h'.closed parent entry hin hmid hash (h.toWithin.dependsOn hdep)
    | some entry' =>
      have heq := h'.entries parent entry' hmid
      rw [hin] at heq
      cases heq
      exact h.closed parent entry hmid hout hash hdep

/-! ## The loop -/

theorem lookup_eraseTx {hash hash' : Uint256} {entry : CTxMemPoolEntry} :
    (pool.eraseTx hash entry).mapTx.lookup hash' = if hash' = hash then none else pool.mapTx.lookup hash' := by
  show (pool.mapTx.erase hash).lookup hash' = _
  by_cases heq : hash' = hash
  · rw [if_pos heq, heq, AList.lookup_erase]
  · rw [if_neg heq, AList.lookup_erase_ne heq]

theorem within_eraseTx (hash : Uint256) (entry : CTxMemPoolEntry) : (pool.eraseTx hash entry).Within pool where
  entries hash' entry' hin := by
    rw [lookup_eraseTx] at hin
    split_ifs at hin
    exact hin
  sanity := rfl

/-- The spenders that are found are all there are. -/
theorem Inv.mem_spendersOf (h : pool.Inv C) {hash : Uint256} {positions : List Nat} {spenders : List Uint256}
    (hrun : pool.spendersOf C hash positions = .ok spenders) {child : Uint256} {entry : CTxMemPoolEntry}
    (hin : pool.mapTx.lookup child = some entry) {txin : CTxIn} (htxin : txin ∈ entry.tx.vin)
    (hhash : txin.prevout.hash = hash) (hn : txin.prevout.n ∈ positions) : child ∈ spenders := by
  obtain ⟨j, hj⟩ := mem_iff_getElem?.mp htxin
  have hnext : pool.mapNextTx.lookup { hash := hash, n := txin.prevout.n } = some { ptx := child, n := j } := by
    rw [← hhash, h.next]
    exact ⟨entry, hin, by rw [hj]; rfl⟩
  induction positions generalizing spenders with
  | nil => simp at hn
  | cons i rest ih =>
    unfold CTxMemPool.spendersOf at hrun
    cases hlook : pool.mapNextTx.lookup { hash := hash, n := i } with
    | none =>
      rw [hlook] at hrun
      rcases mem_cons.mp hn with hi | hn
      · rw [← hi, hnext] at hlook
        cases hlook
      · exact ih hrun hn
    | some p =>
      rw [hlook] at hrun
      obtain ⟨spender, hspender, hrun⟩ := check_bind_ok.mp hrun
      obtain ⟨others, hothers, hrun⟩ := check_bind_ok.mp hrun
      obtain rfl := check_pure_ok.mp hrun
      rcases mem_cons.mp hn with hi | hn
      · -- the pointer of this position leads to the child
        rw [← hi, hnext] at hlook
        cases hlook
        simp only [followHash, hin, Except.ok.injEq] at hspender
        rw [← hspender, h.keyed child entry hin]
        exact mem_cons_self
      · exact mem_cons_of_mem _ (ih hothers hn)

/-- What the loop leaves: nothing of its queue, and nothing that depends on what it took. -/
theorem removeLoop_closed (h : pool.Inv C) {turns : Nat} {txToRemove : List Uint256}
    (hrun : removeLoop C true turns txToRemove pool removed = .ok result) :
    result.1.ClosedWithin pool ∧ (∀ hash ∈ txToRemove, result.1.mapTx.lookup hash = none) ∧
      removed ⊆ result.2 ∧ ∀ hash entry, pool.mapTx.lookup hash = some entry →
        result.1.mapTx.lookup hash = none → entry.tx ∈ result.2 := by
  induction turns generalizing pool txToRemove removed with
  | zero =>
    cases txToRemove with
    | cons hash rest => simp [removeLoop] at hrun
    | nil =>
      cases hrun
      refine ⟨.refl pool, fun _ hm => by simp at hm, List.Subset.refl _, fun hash entry hin hout => ?_⟩
      simp [hin] at hout
  | succ turns ih =>
    cases txToRemove with
    | nil =>
      cases hrun
      refine ⟨.refl pool, fun _ hm => by simp at hm, List.Subset.refl _, fun hash entry hin hout => ?_⟩
      simp [hin] at hout
    | cons hash rest =>
      unfold removeLoop at hrun
      cases hin : pool.mapTx.lookup hash with
      | none =>
        rw [hin] at hrun
        obtain ⟨hclosed, hqueue, hremoved⟩ := ih h hrun
        refine ⟨hclosed, fun hash' hm => ?_, hremoved⟩
        rcases mem_cons.mp hm with heq | hm
        · rw [heq]
          by_contra hne
          obtain ⟨entry, hentry⟩ := Option.ne_none_iff_exists'.mp hne
          have hbefore := hclosed.entries hash entry hentry
          rw [hin] at hbefore
          cases hbefore
        · exact hqueue hash' hm
      | some entry =>
        rw [hin] at hrun
        obtain ⟨children, hchildren, hrun⟩ := check_bind_ok.mp hrun
        obtain ⟨hclosed, hqueue, hsub, hremoved⟩ := ih (h.eraseTx hin) hrun
        have hgone : result.1.mapTx.lookup hash = none := by
          by_contra hne
          obtain ⟨e, he⟩ := Option.ne_none_iff_exists'.mp hne
          have hbefore := hclosed.entries hash e he
          rw [lookup_eraseTx, if_pos rfl] at hbefore
          cases hbefore
        refine ⟨⟨hclosed.toWithin.trans (within_eraseTx hash entry), ?_⟩, ?_, ?_, ?_⟩
        · intro parent e hparent hout child hdep
          by_cases heq : parent = hash
          · -- a child of the transaction itself is in the queue from now on
            subst heq
            rw [hin] at hparent
            cases hparent
            obtain ⟨ec, hec, txin, htxin, hhash, hn⟩ := hdep
            have hpool := (within_eraseTx parent entry).entries child ec (hclosed.entries child ec hec)
            have hmem := h.mem_spendersOf hchildren hpool htxin hhash (mem_range.mpr hn)
            have hnone := hqueue child (mem_append_right _ hmem)
            rw [hec] at hnone
            cases hnone
          · refine hclosed.closed parent e ?_ hout child hdep
            rw [lookup_eraseTx, if_neg heq]
            exact hparent
        · intro hash' hm
          rcases mem_cons.mp hm with heq | hm
          · rw [heq]
            exact hgone
          · exact hqueue hash' (mem_append_left _ hm)
        · exact fun t ht => hsub (mem_append_left _ ht)
        · intro hash' e hlook hout
          by_cases heq : hash' = hash
          · rw [heq, hin] at hlook
            cases hlook
            exact hsub (mem_append_right _ mem_cons_self)
          · refine hremoved hash' e ?_ hout
            rw [lookup_eraseTx, if_neg heq]
            exact hlook

/-! ## One transaction -/

/-- A recursive removal: the transaction is gone, with all that depends on it. -/
structure RemovedWith (C : Crypto) (tx : CTransaction) (pool pool' : CTxMemPool) : Prop
    extends ClosedWithin pool' pool where
  gone : pool'.mapTx.lookup (C.txHash tx) = none
  children : pool.mapTx.lookup (C.txHash tx) = none → ∀ hash, ¬ pool'.DependsOn hash (C.txHash tx) tx.vout.length

theorem Inv.remove_recursive (h : pool.Inv C) (hrun : pool.remove C tx true removed = .ok result) :
    RemovedWith C tx pool result.1 ∧ removed ⊆ result.2 ∧ ∀ hash entry, pool.mapTx.lookup hash = some entry →
      result.1.mapTx.lookup hash = none → entry.tx ∈ result.2 := by
  unfold CTxMemPool.remove at hrun
  cases hin : pool.mapTx.lookup (C.txHash tx) with
  | some entry =>
    rw [hin] at hrun
    obtain ⟨hclosed, hqueue, hremoved⟩ := removeLoop_closed h hrun
    refine ⟨⟨hclosed, hqueue _ mem_cons_self, fun hnone => ?_⟩, hremoved⟩
    rw [hin] at hnone
    cases hnone
  | none =>
    rw [hin] at hrun
    obtain ⟨children, hchildren, hrun⟩ := check_bind_ok.mp hrun
    obtain ⟨hclosed, hqueue, hremoved⟩ := removeLoop_closed h hrun
    refine ⟨⟨hclosed, hqueue _ mem_cons_self, fun _ child hdep => ?_⟩, hremoved⟩
    obtain ⟨entry, hentry, txin, htxin, hhash, hn⟩ := hdep
    have hmem := h.mem_spendersOf hchildren (hclosed.entries child entry hentry) htxin hhash
      (mem_range.mpr hn)
    have hgone := hqueue child (mem_cons_of_mem _ hmem)
    rw [hentry] at hgone
    cases hgone

/-- A removal that is not recursive takes the transaction alone. -/
theorem remove_single (hrun : pool.remove C tx false removed = .ok result) :
    result.1.Within pool ∧ result.1.mapTx.lookup (C.txHash tx) = none ∧
      ∀ hash, hash ≠ C.txHash tx → result.1.mapTx.lookup hash = pool.mapTx.lookup hash := by
  change removeLoop C false ([C.txHash tx].length + pool.outputs) [C.txHash tx] pool removed = _ at hrun
  rw [length_singleton, Nat.add_comm] at hrun
  unfold removeLoop at hrun
  cases hin : pool.mapTx.lookup (C.txHash tx) with
  | none =>
    rw [hin] at hrun
    have heq : (pool, removed) = result := by
      cases hout : pool.outputs <;> rw [hout] at hrun <;> exact Except.ok.inj hrun
    subst heq
    exact ⟨.refl pool, hin, fun _ _ => rfl⟩
  | some entry =>
    rw [hin] at hrun
    have heq : (pool.eraseTx (C.txHash tx) entry, removed ++ [entry.tx]) = result := by
      cases hout : pool.outputs <;> rw [hout] at hrun <;> exact Except.ok.inj hrun
    subst heq
    refine ⟨within_eraseTx _ entry, ?_, fun hash hne => ?_⟩
    · rw [lookup_eraseTx, if_pos rfl]
    · rw [lookup_eraseTx, if_neg hne]

/-! ## A block -/

/-- No transaction of the pool spends an outpoint of the list. -/
def NoneSpends (pool : CTxMemPool) (vin : List CTxIn) : Prop :=
  ∀ hash entry, pool.mapTx.lookup hash = some entry → ∀ txin ∈ entry.tx.vin, txin.prevout ∉ vin.map CTxIn.prevout

theorem NoneSpends.within (h : pool.NoneSpends tx.vin) (hsub : pool'.Within pool) : pool'.NoneSpends tx.vin :=
  fun hash entry hin => h hash entry (hsub.entries hash entry hin)

theorem Inv.removeConflictsLoop_closed (h : pool.Inv C) (hgone : pool.mapTx.lookup (C.txHash tx) = none)
    {vin : List CTxIn} (hrun : CTxMemPool.removeConflictsLoop C tx vin pool removed = .ok result) :
    result.1.Inv C ∧ result.1.ClosedWithin pool ∧ result.1.NoneSpends vin ∧ removed ⊆ result.2 ∧
      ∀ hash entry, pool.mapTx.lookup hash = some entry → result.1.mapTx.lookup hash = none → entry.tx ∈ result.2 := by
  induction vin generalizing pool removed with
  | nil =>
    cases hrun
    refine ⟨h, .refl pool, fun _ _ _ txin _ hm => by simp at hm, List.Subset.refl _, fun hash entry hin hout => ?_⟩
    simp [hin] at hout
  | cons txin vin ih =>
    unfold CTxMemPool.removeConflictsLoop at hrun
    cases hnext : pool.mapNextTx.lookup txin.prevout with
    | none =>
      rw [hnext] at hrun
      obtain ⟨hinv, hclosed, hnone, hremoved⟩ := ih h hgone hrun
      refine ⟨hinv, hclosed, fun hash entry hin txin' htxin' hm => ?_, hremoved⟩
      rw [map_cons, mem_cons] at hm
      rcases hm with heq | hm
      · obtain ⟨j, hj⟩ := mem_iff_getElem?.mp htxin'
        have hspent := (h.next txin.prevout ⟨hash, j⟩).mpr
          ⟨entry, hclosed.entries hash entry hin, by rw [hj, ← heq]; rfl⟩
        rw [hnext] at hspent
        cases hspent
      · exact hnone hash entry hin txin' htxin' hm
    | some p =>
      rw [hnext] at hrun
      obtain ⟨conflict, hconflict, hspends⟩ := (h.next _ p).mp hnext
      -- the pool holds nothing under the transaction's own hash
      have hne : C.txHash conflict.tx ≠ C.txHash tx := by
        intro heq
        rw [h.keyed p.ptx conflict hconflict] at heq
        rw [heq, hgone] at hconflict
        cases hconflict
      simp only [hconflict, if_pos hne] at hrun
      obtain ⟨mid, hmid, hrun⟩ := check_bind_ok.mp hrun
      obtain ⟨mid', hmid', hmidinv⟩ := h.remove conflict.tx true removed
      rw [hmid] at hmid'
      cases hmid'
      obtain ⟨hwith, hsub, hlist⟩ := h.remove_recursive hmid
      have hgone' : mid.1.mapTx.lookup (C.txHash tx) = none := by
        by_contra hin
        obtain ⟨e, he⟩ := Option.ne_none_iff_exists'.mp hin
        have hbefore := hwith.entries _ e he
        rw [hgone] at hbefore
        cases hbefore
      obtain ⟨hinv, hclosed, hnone, hsub', hlist'⟩ := ih hmidinv hgone' hrun
      refine ⟨hinv, hclosed.trans hwith.toClosedWithin, fun hash entry hin txin' htxin' hm => ?_,
        fun t ht => hsub' (hsub ht), fun hash entry hin hout => ?_⟩
      · rw [map_cons, mem_cons] at hm
        rcases hm with heq | hm
        · -- the index has one spender, and it is gone
          obtain ⟨j, hj⟩ := mem_iff_getElem?.mp htxin'
          have hmidin := hclosed.entries hash entry hin
          have hspent := (h.next txin.prevout ⟨hash, j⟩).mpr
            ⟨entry, hwith.entries hash entry hmidin, by rw [hj, ← heq]; rfl⟩
          rw [hnext] at hspent
          cases hspent
          have hgonep := hwith.gone
          rw [h.keyed _ conflict hconflict, hmidin] at hgonep
          cases hgonep
        · exact hnone hash entry hin txin' htxin' hm
      · cases hmidin : mid.1.mapTx.lookup hash with
        | none => exact hsub' (hlist hash entry hin hmidin)
        | some e =>
          have hsame := hwith.entries hash e hmidin
          rw [hin] at hsame
          cases hsame
          exact hlist' hash entry hmidin hout

/-- What a block leaves of the pool. -/
structure AfterBlock (C : Crypto) (vtx : List CTransaction) (pool pool' : CTxMemPool) : Prop
    extends Within pool' pool where
  inv : pool'.Inv C
  confirmed : ∀ tx ∈ vtx, pool'.mapTx.lookup (C.txHash tx) = none
  conflicts : ∀ tx ∈ vtx, pool'.NoneSpends tx.vin
  closed : ∀ parent entry, pool.mapTx.lookup parent = some entry → pool'.mapTx.lookup parent = none →
    (∃ tx ∈ vtx, C.txHash tx = parent) ∨ ∀ hash, ¬ pool'.DependsOn hash parent entry.tx.vout.length

theorem Inv.removeForBlock_spec (h : pool.Inv C) {vtx : List CTransaction}
    (hrun : pool.removeForBlock C vtx removed = .ok result) :
    AfterBlock C vtx pool result.1 ∧ removed ⊆ result.2 ∧
      ∀ hash entry, pool.mapTx.lookup hash = some entry → result.1.mapTx.lookup hash = none →
        (∃ tx ∈ vtx, C.txHash tx = hash) ∨ entry.tx ∈ result.2 := by
  induction vtx generalizing pool removed with
  | nil =>
    cases hrun
    refine ⟨⟨.refl pool, h, fun _ hm => by simp at hm, fun _ hm => by simp at hm,
      fun parent entry hin hout => ?_⟩, List.Subset.refl _, fun hash entry hin hout => ?_⟩
    · simp [hin] at hout
    · simp [hin] at hout
  | cons tx vtx ih =>
    unfold CTxMemPool.removeForBlock at hrun
    obtain ⟨confirmed, hconfirmed, hrun⟩ := check_bind_ok.mp hrun
    obtain ⟨mid, hmid, hrun⟩ := check_bind_ok.mp hrun
    obtain ⟨confirmed', hconfirmed', hinv⟩ := h.remove tx false []
    rw [hconfirmed] at hconfirmed'
    cases hconfirmed'
    obtain ⟨hsingle, hgone, hothers⟩ := remove_single hconfirmed
    obtain ⟨hmidinv, hclosed, hnone, hsub, hlist⟩ := hinv.removeConflictsLoop_closed hgone hmid
    obtain ⟨hafter, hsub', hlist'⟩ := ih hmidinv hrun
    have hwithin := hafter.toWithin.trans hclosed.toWithin
    -- a transaction of the old pool that is not in the block is in the pool without the confirmed one
    have hstays : ∀ hash entry, pool.mapTx.lookup hash = some entry → hash ≠ C.txHash tx →
        confirmed.1.mapTx.lookup hash = some entry :=
      fun hash entry hin hne => (hothers hash hne).trans hin
    refine ⟨⟨hwithin.trans hsingle, hafter.inv, ?_, ?_, ?_⟩, fun t ht => hsub' (hsub ht), ?_⟩
    · intro t ht
      rcases mem_cons.mp ht with rfl | ht
      · by_contra hne
        obtain ⟨e, he⟩ := Option.ne_none_iff_exists'.mp hne
        have hbefore := hwithin.entries _ e he
        rw [hgone] at hbefore
        cases hbefore
      · exact hafter.confirmed t ht
    · intro t ht
      rcases mem_cons.mp ht with rfl | ht
      · exact hnone.within hafter.toWithin
      · exact hafter.conflicts t ht
    · intro parent entry hin hout
      by_cases heq : parent = C.txHash tx
      · exact .inl ⟨tx, mem_cons_self, heq.symm⟩
      · have hconf := hstays parent entry hin heq
        cases hmidin : mid.1.mapTx.lookup parent with
        | none =>
          exact .inr fun hash hdep =>
            hclosed.closed parent entry hconf hmidin hash (hafter.toWithin.dependsOn hdep)
        | some e =>
          have hsame := hclosed.entries parent e hmidin
          rw [hconf] at hsame
          cases hsame
          rcases hafter.closed parent entry hmidin hout with ⟨t, ht, hhash⟩ | hdep
          · exact .inl ⟨t, mem_cons_of_mem _ ht, hhash⟩
          · exact .inr hdep
    · intro hash entry hin hout
      by_cases heq : hash = C.txHash tx
      · exact .inl ⟨tx, mem_cons_self, heq.symm⟩
      · have hconf := hstays hash entry hin heq
        cases hmidin : mid.1.mapTx.lookup hash with
        | none => exact .inr (hsub' (hlist hash entry hconf hmidin))
        | some e =>
          have hsame := hclosed.entries hash e hmidin
          rw [hconf] at hsame
          cases hsame
          rcases hlist' hash entry hmidin hout with ⟨t, ht, hhash⟩ | hmem
          · exact .inl ⟨t, mem_cons_of_mem _ ht, hhash⟩
          · exact .inr hmem

/-! ## Several transactions -/

theorem Inv.removeAll_closed (h : pool.Inv C) {txs : List CTransaction}
    (hrun : CTxMemPool.removeAll C txs pool = .ok pool') :
    pool'.Inv C ∧ pool'.ClosedWithin pool ∧ ∀ tx ∈ txs, pool'.mapTx.lookup (C.txHash tx) = none := by
  induction txs generalizing pool with
  | nil =>
    obtain rfl := Except.ok.inj hrun
    exact ⟨h, .refl pool, fun _ hm => by simp at hm⟩
  | cons tx txs ih =>
    unfold CTxMemPool.removeAll at hrun
    obtain ⟨mid, hmid, hrun⟩ := check_bind_ok.mp hrun
    obtain ⟨mid', hmid', hmidinv⟩ := h.remove tx true []
    rw [hmid] at hmid'
    cases hmid'
    obtain ⟨hwith, -, -⟩ := h.remove_recursive hmid
    obtain ⟨hinv, hclosed, hgone⟩ := ih hmidinv hrun
    refine ⟨hinv, hclosed.trans hwith.toClosedWithin, fun t ht => ?_⟩
    rcases mem_cons.mp ht with rfl | ht
    · by_contra hne
      obtain ⟨e, he⟩ := Option.ne_none_iff_exists'.mp hne
      have hbefore := hclosed.entries _ e he
      rw [hwith.gone] at hbefore
      cases hbefore
    · exact hgone t ht

/-! ## Where removed transactions come from -/

/-- All transactions of the pool are in `S`. -/
def TxsIn (pool : CTxMemPool) (S : Set CTransaction) : Prop :=
  ∀ hash entry, pool.mapTx.lookup hash = some entry → entry.tx ∈ S

variable {S : Set CTransaction}

theorem TxsIn.within (h : pool.TxsIn S) (hsub : pool'.Within pool) : pool'.TxsIn S :=
  fun hash entry hin => h hash entry (hsub.entries hash entry hin)

theorem TxsIn.removeLoop (h : pool.TxsIn S) {fRecursive : Bool} {turns : Nat} {txToRemove : List Uint256}
    (hremoved : ∀ t ∈ removed, t ∈ S)
    (hrun : removeLoop C fRecursive turns txToRemove pool removed = .ok result) :
    result.1.TxsIn S ∧ ∀ t ∈ result.2, t ∈ S := by
  induction turns generalizing pool txToRemove removed with
  | zero =>
    cases txToRemove with
    | cons hash rest => simp [CTxMemPool.removeLoop] at hrun
    | nil =>
      cases hrun
      exact ⟨h, hremoved⟩
  | succ turns ih =>
    cases txToRemove with
    | nil =>
      cases hrun
      exact ⟨h, hremoved⟩
    | cons hash rest =>
      unfold CTxMemPool.removeLoop at hrun
      cases hin : pool.mapTx.lookup hash with
      | none =>
        rw [hin] at hrun
        exact ih h hremoved hrun
      | some entry =>
        have hremoved' : ∀ t ∈ removed ++ [entry.tx], t ∈ S := by
          intro t ht
          rcases mem_append.mp ht with ht | ht
          · exact hremoved t ht
          · rw [mem_singleton.mp ht]
            exact h hash entry hin
        have herased := h.within (within_eraseTx hash entry)
        rw [hin] at hrun
        dsimp only at hrun
        split_ifs at hrun
        · obtain ⟨children, -, hrun⟩ := check_bind_ok.mp hrun
          exact ih herased hremoved' hrun
        · exact ih herased hremoved' hrun

theorem TxsIn.remove (h : pool.TxsIn S) {fRecursive : Bool} (hremoved : ∀ t ∈ removed, t ∈ S)
    (hrun : pool.remove C tx fRecursive removed = .ok result) : result.1.TxsIn S ∧ ∀ t ∈ result.2, t ∈ S := by
  unfold CTxMemPool.remove at hrun
  dsimp only at hrun
  split_ifs at hrun
  · obtain ⟨children, -, hrun⟩ := check_bind_ok.mp hrun
    exact h.removeLoop hremoved hrun
  · exact h.removeLoop hremoved hrun

theorem TxsIn.removeConflictsLoop (h : pool.TxsIn S) {vin : List CTxIn} (hremoved : ∀ t ∈ removed, t ∈ S)
    (hrun : CTxMemPool.removeConflictsLoop C tx vin pool removed = .ok result) :
    result.1.TxsIn S ∧ ∀ t ∈ result.2, t ∈ S := by
  induction vin generalizing pool removed with
  | nil =>
    cases hrun
    exact ⟨h, hremoved⟩
  | cons txin vin ih =>
    unfold CTxMemPool.removeConflictsLoop at hrun
    cases hnext : pool.mapNextTx.lookup txin.prevout with
    | none =>
      rw [hnext] at hrun
      exact ih h hremoved hrun
    | some p =>
      rw [hnext] at hrun
      cases hin : pool.mapTx.lookup p.ptx with
      | none => simp [hin] at hrun
      | some entry =>
        simp only [hin] at hrun
        split_ifs at hrun
        · obtain ⟨mid, hmid, hrun⟩ := check_bind_ok.mp hrun
          obtain ⟨hmidpool, hmidlist⟩ := h.remove hremoved hmid
          exact ih hmidpool hmidlist hrun
        · exact ih h hremoved hrun

/-- What `removeForBlock` finds in conflict was in the pool. -/
theorem TxsIn.removeForBlock (h : pool.TxsIn S) {vtx : List CTransaction} (hremoved : ∀ t ∈ removed, t ∈ S)
    (hrun : pool.removeForBlock C vtx removed = .ok result) : result.1.TxsIn S ∧ ∀ t ∈ result.2, t ∈ S := by
  induction vtx generalizing pool removed with
  | nil =>
    cases hrun
    exact ⟨h, hremoved⟩
  | cons tx vtx ih =>
    unfold CTxMemPool.removeForBlock at hrun
    obtain ⟨confirmed, hconfirmed, hrun⟩ := check_bind_ok.mp hrun
    obtain ⟨mid, hmid, hrun⟩ := check_bind_ok.mp hrun
    have hnil : ∀ t ∈ ([] : List CTransaction), t ∈ S := fun _ hm => by simp at hm
    have hsingle := (h.remove hnil hconfirmed).1
    obtain ⟨hmidpool, hmidlist⟩ := hsingle.removeConflictsLoop hremoved hmid
    exact ih hmidpool hmidlist hrun

end CTxMemPool

end Reddcoin
