import Reddcoin.Mining.SoundTemplate

/-!
# What is released

A transaction that has been added is taken off the lists of the orphans that wait for it, and those that wait for nothing
else enter the priority queue, each once.
-/

namespace Reddcoin

open List Function Option

variable {D : Type} {hash : Uint256} {s s' : Mining D} {orphan : COrphan D} {ks : List Uint256}

theorem COrphan.without_without : (orphan.without hash).without hash = orphan.without hash := by
  unfold COrphan.without
  simp

theorem COrphan.without_of_nil (h : orphan.setDependsOn = []) : orphan.without hash = orphan := by
  cases orphan
  change _ = [] at h
  subst h
  rfl

/-- The orphan leaves the lists with the transaction of the given hash. -/
def COrphan.Freed (hash : Uint256) (orphan : COrphan D) : Prop :=
  orphan.setDependsOn ≠ [] ∧ (orphan.without hash).setDependsOn = []

namespace Miner

/-- The orphans with the given keys have been told. -/
structure Released (hash : Uint256) (ks : List Uint256) (s s' : Mining D) : Prop where
  rest : s' = { s with vOrphan := s'.vOrphan, vecPriority := s'.vecPriority }
  told : ∀ k ∈ ks, s'.vOrphan k = (s.vOrphan k).map fun orphan => orphan.without hash
  others : ∀ k, k ∉ ks → s'.vOrphan k = s.vOrphan k
  queue : ∃ freed : List Uint256, freed.Nodup ∧
    (∀ k, k ∈ freed ↔ k ∈ ks ∧ ∃ orphan, s.vOrphan k = some orphan ∧ orphan.Freed hash) ∧
    s'.vecPriority = s.vecPriority ++ freed.filterMap fun k => (s.vOrphan k).map COrphan.queued

theorem released_nil (s : Mining D) : Released hash [] s s where
  rest := rfl
  told := by simp
  others := fun _ _ => rfl
  queue := ⟨[], nodup_nil, by simp, by simp⟩

variable {k₀ : Uint256}

/-- An orphan that waits for nothing is left alone. -/
theorem Released.consIdle (hk : s.vOrphan k₀ = some orphan) (hidle : orphan.setDependsOn = [])
    (h : Released hash ks s s') : Released hash (k₀ :: ks) s s' where
  rest := h.rest
  told := by
    intro k hin
    by_cases hks : k ∈ ks
    · exact h.told k hks
    · obtain rfl := (mem_cons.mp hin).resolve_right hks
      rw [h.others k hks, hk, map_some, COrphan.without_of_nil hidle]
  others := fun k hin => h.others k fun hks => hin (mem_cons_of_mem _ hks)
  queue := by
    obtain ⟨freed, hnodup, hmem, hqueue⟩ := h.queue
    refine ⟨freed, hnodup, fun k => ?_, hqueue⟩
    rw [hmem, mem_cons]
    constructor
    · rintro ⟨hin, hfreed⟩
      exact ⟨.inr hin, hfreed⟩
    · rintro ⟨rfl | hin, o, ho, hfreed⟩
      · rw [hk] at ho
        exact absurd (Option.some.inj ho ▸ hidle) hfreed.1
      · exact ⟨hin, o, ho, hfreed⟩

/-- An orphan that waits is told, and pushed if that was the last one. -/
theorem Released.consWaiting (hk : s.vOrphan k₀ = some orphan) (hwaits : orphan.setDependsOn ≠ [])
    (h : Released hash ks
      { s with
        vOrphan := Function.update s.vOrphan k₀ (some (orphan.without hash))
        vecPriority :=
          if (orphan.without hash).setDependsOn.isEmpty then s.vecPriority ++ [(orphan.without hash).queued]
          else s.vecPriority } s') : Released hash (k₀ :: ks) s s' where
  rest := h.rest
  told := by
    have htold := h.told
    have hothers := h.others
    simp only at htold hothers
    intro k hin
    by_cases heq : k = k₀
    · subst heq
      by_cases hks : k ∈ ks
      · rw [htold k hks, update_self, hk, map_some, map_some, COrphan.without_without]
      · rw [hothers k hks, update_self, hk, map_some]
    · rw [htold k ((mem_cons.mp hin).resolve_left heq), update_of_ne heq]
  others := by
    have hothers := h.others
    simp only at hothers
    intro k hin
    rw [mem_cons, not_or] at hin
    rw [hothers k hin.2, update_of_ne hin.1]
  queue := by
    obtain ⟨freed, hnodup, hmem, hqueue⟩ := h.queue
    simp only at hmem hqueue
    -- a second mention finds it waiting for nothing, or for something else
    have hnot : k₀ ∉ freed := by
      intro hin
      obtain ⟨-, o, ho, hfreed⟩ := (hmem k₀).mp hin
      rw [update_self] at ho
      cases ho
      have hnil := hfreed.2
      rw [COrphan.without_without] at hnil
      exact hfreed.1 hnil
    have hothers : ∀ k, k ≠ k₀ → (k ∈ freed ↔ k ∈ ks ∧ ∃ o, s.vOrphan k = some o ∧ o.Freed hash) := by
      intro k hne
      rw [hmem, update_of_ne hne]
    have hsame : freed.filterMap (fun k =>
        (Function.update s.vOrphan k₀ (some (orphan.without hash)) k).map COrphan.queued) =
          freed.filterMap fun k => (s.vOrphan k).map COrphan.queued := by
      refine filterMap_congr fun k hin => ?_
      have hne : k ≠ k₀ := by
        rintro rfl
        exact hnot hin
      rw [update_of_ne hne]
    rw [hsame] at hqueue
    by_cases hfreed : (orphan.without hash).setDependsOn = []
    · refine ⟨k₀ :: freed, nodup_cons.mpr ⟨hnot, hnodup⟩, fun k => ?_, ?_⟩
      · rw [mem_cons, mem_cons]
        by_cases heq : k = k₀
        · subst heq
          exact iff_of_true (.inl rfl) ⟨.inl rfl, orphan, hk, hwaits, hfreed⟩
        · rw [or_iff_right heq, or_iff_right heq]
          exact hothers k heq
      · rw [hqueue, if_pos (isEmpty_iff.mpr hfreed), filterMap_cons, hk, append_assoc]
        rfl
    · refine ⟨freed, hnodup, fun k => ?_, ?_⟩
      · rw [mem_cons]
        by_cases heq : k = k₀
        · subst heq
          refine iff_of_false hnot ?_
          rintro ⟨-, o, ho, hf⟩
          rw [hk] at ho
          cases ho
          exact hfreed hf.2
        · rw [or_iff_right heq]
          exact hothers k heq
      · rw [hqueue, if_neg fun h => hfreed (isEmpty_iff.mp h)]

theorem release_run (hash : Uint256) (hks : ∀ k ∈ ks, ∃ orphan, s.vOrphan k = some orphan) :
    ∃ s', ks.foldlM (release hash) s = some s' ∧ Released hash ks s s' := by
  induction ks generalizing s with
  | nil => exact ⟨s, rfl, released_nil s⟩
  | cons k₀ ks ih =>
    obtain ⟨orphan, hk⟩ := hks k₀ mem_cons_self
    have hothers := fun k hin => hks k (mem_cons_of_mem _ hin)
    by_cases hidle : orphan.setDependsOn = []
    · obtain ⟨s', hs', hrel⟩ := ih hothers
      refine ⟨s', ?_, hrel.consIdle hk hidle⟩
      have hstep : release hash s k₀ = some s := by
        simp only [release, hk, bind_eq_bind, bind_some, hidle, isEmpty_nil, if_true]
        rfl
      rw [foldlM_cons, hstep]
      exact hs'
    · let mid : Mining D := { s with
        vOrphan := Function.update s.vOrphan k₀ (some (orphan.without hash))
        vecPriority :=
          if (orphan.without hash).setDependsOn.isEmpty then s.vecPriority ++ [(orphan.without hash).queued]
          else s.vecPriority }
      have hmid : ∀ k ∈ ks, ∃ o, mid.vOrphan k = some o := by
        intro k hin
        show ∃ o, Function.update s.vOrphan k₀ _ k = some o
        by_cases heq : k = k₀
        · rw [heq, update_self]
          exact ⟨_, rfl⟩
        · rw [update_of_ne heq]
          exact hothers k hin
      obtain ⟨s', hs', hrel⟩ := ih hmid
      refine ⟨s', ?_, hrel.consWaiting hk hidle⟩
      have hstep : release hash s k₀ = some mid := by
        simp only [release, hk, bind_eq_bind, bind_some]
        rw [if_neg fun h => hidle (isEmpty_iff.mp h)]
        rfl
      rw [foldlM_cons, hstep]
      exact hs'

end Miner

end Reddcoin

/-!
## What is chosen

The loop over the priority queue: a candidate enters the queue when all of its parents in the pool have been added, is
taken off it once, and is added unless a limit or a check stands in the way.
-/

namespace Reddcoin

open Schedule

namespace Miner

variable {D : Type} {M : Miner D}

/-- Every input of the transaction is available after the transactions `before`. -/
def Funded (M : Miner D) (before : List CTransaction) (tx : CTransaction) : Prop :=
  ∀ txin ∈ tx.vin, (M.pcoinsTip.utxo.applyTxs M.C before txin.prevout.hash txin.prevout.n).isSome = true

/-- The parents of the transaction in the pool are among `before`. -/
def Follows (M : Miner D) (before : List CTransaction) (tx : CTransaction) : Prop :=
  ∀ hash ∈ M.poolParents tx.vin, hash ∈ before.map M.C.txHash

/-- What every transaction that is added has passed. -/
structure Passed (M : Miner D) (tx : CTransaction) : Prop where
  inPool : M.InPool tx
  candidate : M.isCandidate tx = true
  checked : M.checksInputs tx true MANDATORY_SCRIPT_VERIFY_FLAGS = .ok []
  time : M.fProofOfStake = true → tx.nTime = 0

/-- The sizes and the signature operations are below the limits. -/
structure WithinLimits (M : Miner D) (vtx : List CTransaction) : Prop where
  size : 1000 + (vtx.map CTransaction.serializeSize).sum < M.nBlockMaxSize
  sigOps : 100 + (vtx.map M.sigOps).sum < MAX_BLOCK_SIGOPS

/-- A list of transactions for a block. -/
structure Chosen (M : Miner D) (vtx : List CTransaction) : Prop where
  nodup : vtx.Nodup
  passed : ∀ tx ∈ vtx, M.Passed tx
  ordered : EachAfter M.Follows vtx
  funded : EachAfter M.Funded vtx
  limits : vtx = [] ∨ M.WithinLimits vtx

/-- The queue and the orphans once `vtx` have been added and `popped` have been taken off the queue. -/
structure Queued (M : Miner D) (vtx popped : List CTransaction) (s : Mining D) : Prop where
  nodup : (s.vecPriority.map TxPriority.tx ++ popped).Nodup
  entered : ∀ tx, tx ∈ s.vecPriority.map TxPriority.tx ++ popped ↔
    M.InPool tx ∧ M.isCandidate tx = true ∧ M.Follows vtx tx
  rates : ∀ p ∈ s.vecPriority, p.feeRate = M.feeRate p.tx
  orphans : ∀ tx, M.InPool tx → M.isCandidate tx = true → M.poolParents tx.vin ≠ [] →
    ∃ orphan, s.vOrphan (M.C.txHash tx) = some orphan ∧ WaitsFor M vtx tx orphan

/-- The variables of the loop once `popped` have been taken off the queue. -/
structure Choosing (M : Miner D) (popped : List CTransaction) (s : Mining D) : Prop where
  queue : M.Queued s.vtx popped s
  chosen : M.Chosen s.vtx
  popped : ∀ tx ∈ s.vtx, tx ∈ popped
  utxo : s.view.utxo = M.pcoinsTip.utxo.applyTxs M.C s.vtx
  holds : M.Holds ∅ s.view
  size : s.nBlockSize = 1000 + (s.vtx.map CTransaction.serializeSize).sum
  sigOps : s.nBlockSigOps = 100 + (s.vtx.map M.sigOps).sum
  fees : s.nFees = (s.vtx.map M.fee).sum

/-- The orphans are registered with their parents. -/
def Registered (M : Miner D) (mapDependers : Uint256 → List Uint256) : Prop :=
  ∀ k j, j ∈ mapDependers k ↔
    ∃ tx, M.InPool tx ∧ M.C.txHash tx = j ∧ M.isCandidate tx = true ∧ k ∈ M.poolParents tx.vin

variable {tx : CTransaction} {popped : List CTransaction} {s s' : Mining D} {mapDependers : Uint256 → List Uint256}

theorem Gathering.registered {g : Gathered D} (h : Gathering M M.poolTxs g) : M.Registered g.mapDependers := by
  intro k j
  rw [h.dependers]
  refine exists_congr fun tx => ?_
  rw [mem_poolTxs]

theorem chosen_nil : M.Chosen [] where
  nodup := List.nodup_nil
  passed := by simp
  ordered := eachAfter_nil
  funded := eachAfter_nil
  limits := .inl rfl

theorem CheckedPool.nodup_poolTxs (hp : M.CheckedPool) : M.poolTxs.Nodup := by
  have hkeys : (M.poolTxs.map M.C.txHash).Nodup := by
    have hsame : M.poolTxs.map M.C.txHash = M.mempool.sortedMapTx.map Sigma.fst := by
      unfold poolTxs
      rw [List.map_map]
      exact List.map_congr_left fun e he => hp.inv.keyed e.1 e.2 (mem_sortedMapTx.mp he)
    rw [hsame, (perm_sortedMapTx.map _).nodup_iff]
    exact M.mempool.mapTx.nodupKeys
  exact hkeys.of_map _

theorem Gathering.queued {g : Gathered D} (hp : M.CheckedPool) (h : Gathering M M.poolTxs g) :
    M.Queued [] [] (M.start g) where
  nodup := by
    show (g.vecPriority.map TxPriority.tx ++ []).Nodup
    rw [List.append_nil, h.queue]
    exact hp.nodup_poolTxs.filter _
  entered := by
    intro tx
    show tx ∈ g.vecPriority.map TxPriority.tx ++ [] ↔ _ ∧ _ ∧ ∀ hash ∈ M.poolParents tx.vin, hash ∈ []
    rw [List.append_nil, h.queue, List.mem_filter, mem_poolTxs, Bool.and_eq_true, List.isEmpty_iff]
    refine and_congr_right fun _ => and_congr_right fun _ => ?_
    simp [List.eq_nil_iff_forall_not_mem]
  rates := h.rates
  orphans := fun tx hin hcand hne => h.orphans tx (mem_poolTxs.mpr hin) hcand hne

theorem Gathering.choosing {g : Gathered D} (hp : M.CheckedPool) (h : Gathering M M.poolTxs g) :
    Choosing M [] (M.start g) where
  queue := h.queued hp
  chosen := chosen_nil
  popped := by simp [start]
  utxo := utxo_flush
  holds := holds_start hp.admitted hp.inv.keyed ∅
  size := rfl
  sigOps := rfl
  fees := rfl

/-! ## Taking one off the queue -/

variable {vtx : List CTransaction} {i : Nat} {p : TxPriority D}

theorem Queued.pop (h : M.Queued vtx popped s) (hi : s.vecPriority[i]? = some p) :
    M.Queued vtx (popped ++ [p.tx]) { s with vecPriority := s.vecPriority.eraseIdx i } := by
  obtain ⟨hlt, hget⟩ := getElem?_eq_some_iff.mp hi
  have hperm : (s.vecPriority.map TxPriority.tx ++ popped).Perm
      ((s.vecPriority.eraseIdx i).map TxPriority.tx ++ (popped ++ [p.tx])) := by
    have hsplit : s.vecPriority.Perm (p :: s.vecPriority.eraseIdx i) := by
      rw [← hget]
      exact (List.getElem_cons_eraseIdx_perm hlt).symm
    have hall := (hsplit.map TxPriority.tx).append_right popped
    rw [List.map_cons, List.cons_append] at hall
    refine hall.trans ?_
    rw [← List.append_assoc]
    exact (List.perm_append_singleton _ _).symm
  exact ⟨hperm.nodup_iff.mp h.nodup, fun tx => hperm.mem_iff.symm.trans (h.entered tx),
    fun q hq => h.rates q (List.mem_of_mem_eraseIdx hq), h.orphans⟩

theorem Queued.notMem_popped (h : M.Queued vtx popped s) (hi : s.vecPriority[i]? = some p) : p.tx ∉ popped :=
  fun hin => (List.disjoint_of_nodup_append h.nodup) (List.mem_map_of_mem (List.mem_of_getElem? hi)) hin

theorem Choosing.pop (h : Choosing M popped s) (hi : s.vecPriority[i]? = some p) :
    Choosing M (popped ++ [p.tx]) { s with vecPriority := s.vecPriority.eraseIdx i } where
  queue := h.queue.pop hi
  chosen := h.chosen
  popped := fun tx htx => List.mem_append_left _ (h.popped tx htx)
  utxo := h.utxo
  holds := h.holds
  size := h.size
  sigOps := h.sigOps
  fees := h.fees

/-- The order of the queue does not matter. -/
theorem Choosing.sorted (h : Choosing M popped s) (fSortedByFee : Bool) :
    Choosing M popped { s with fSortedByFee := fSortedByFee } where
  queue := ⟨h.queue.nodup, h.queue.entered, h.queue.rates, h.queue.orphans⟩
  chosen := h.chosen
  popped := h.popped
  utxo := h.utxo
  holds := h.holds
  size := h.size
  sigOps := h.sigOps
  fees := h.fees

/-- A transaction of the queue has its inputs. -/
theorem CheckedPool.funded (hp : M.CheckedPool) {vtx : List CTransaction} (hvtx : ∀ t ∈ vtx, M.InPool t)
    (hin : M.InPool tx) (hfollows : M.Follows vtx tx) (hnot : tx ∉ vtx) : M.Funded vtx tx := by
  intro txin htxin
  refine utxo_applyTxs_keeps (fun t ht hspent => ?_) (fun t ht heq => ?_) ?_
  · -- no other transaction of the pool spends the output
    obtain ⟨txin', htxin', hsame⟩ := List.mem_map.mp hspent
    obtain ⟨entry, hlook, rfl⟩ := hp.lookup hin
    obtain ⟨entry', hlook', rfl⟩ := hp.lookup (hvtx t ht)
    have hkeys := hp.inv.inputs_disjoint hlook hlook' htxin htxin' hsame.symm
    rw [hp.injective (.of_lookup hlook) (hvtx _ ht) hkeys] at hnot
    exact hnot ht
  · obtain ⟨entry, hlook, rfl⟩ := hp.lookup (hvtx t ht)
    rw [heq] at hlook
    obtain ⟨-, out, -, hout, -⟩ := hp.fromPool hin htxin hlook
    rw [hout]
    rfl
  · cases hlook : M.mempool.mapTx.lookup txin.prevout.hash with
    | some parent =>
      obtain ⟨t, ht, hk⟩ := List.mem_map.mp (hfollows _ (mem_poolParents.mpr ⟨⟨txin, htxin, rfl⟩, parent, hlook⟩))
      exact .inl ⟨t, ht, hk⟩
    | none =>
      obtain ⟨-, coins, out, -, -, hout, -⟩ := hp.fromChain hin htxin hlook
      rw [hout]
      exact .inr rfl

/-! ## Adding it -/

theorem map_filterMap_eq {α β : Type} {f : α → Option β} {g : β → α} {l : List α}
    (h : ∀ a ∈ l, ∃ b, f a = some b ∧ g b = a) : (l.filterMap f).map g = l := by
  induction l with
  | nil => rfl
  | cons a l ih =>
    obtain ⟨b, hb, hg⟩ := h a List.mem_cons_self
    rw [List.filterMap_cons, hb, List.map_cons, hg, ih fun a' ha' => h a' (List.mem_cons_of_mem _ ha')]

/-- What has been released: the candidates whose last parent was added. -/
theorem Queued.freed_iff (hp : M.CheckedPool) (hreg : M.Registered mapDependers) (h : M.Queued vtx popped s)
    {t : CTransaction} (hin : M.InPool t) (hcand : M.isCandidate t) :
    (M.C.txHash t ∈ mapDependers (M.C.txHash tx) ∧
      ∃ orphan, s.vOrphan (M.C.txHash t) = some orphan ∧ orphan.Freed (M.C.txHash tx)) ↔
        ¬ M.Follows vtx t ∧ M.Follows (vtx ++ [tx]) t := by
  have hmem : ∀ k, k ∈ (vtx ++ [tx]).map M.C.txHash ↔ k ∈ vtx.map M.C.txHash ∨ k = M.C.txHash tx := by
    intro k
    rw [List.map_append, List.mem_append, List.map_singleton, List.mem_singleton]
  constructor
  · rintro ⟨htold, orphan, hsome, hwaiting, hlast⟩
    obtain ⟨t', hin', heq, -, hparent⟩ := (hreg _ _).mp htold
    obtain rfl := hp.injective hin' hin heq
    obtain ⟨orphan', hsome', hwaits⟩ := h.orphans t' hin hcand (List.ne_nil_of_mem hparent)
    rw [hsome] at hsome'
    cases hsome'
    refine ⟨fun hfollows => ?_, fun k hk => ?_⟩
    · obtain ⟨k, hk⟩ := List.exists_mem_of_ne_nil _ hwaiting
      obtain ⟨hk, hnot⟩ := (hwaits.depends k).mp hk
      exact hnot (hfollows k hk)
    · rw [hmem]
      by_cases hadded : k ∈ vtx.map M.C.txHash
      · exact .inl hadded
      · have hall := List.filter_eq_nil_iff.mp hlast k ((hwaits.depends k).mpr ⟨hk, hadded⟩)
        exact .inr (by simpa using hall)
  · rintro ⟨hnot, hfollows⟩
    have hrest : ∀ k ∈ M.poolParents t.vin, k ∉ vtx.map M.C.txHash → k = M.C.txHash tx :=
      fun k hk hadded => ((hmem k).mp (hfollows k hk)).resolve_left hadded
    unfold Follows at hnot
    push Not at hnot
    obtain ⟨k, hk, hadded⟩ := hnot
    obtain ⟨orphan, hsome, hwaits⟩ := h.orphans t hin hcand (List.ne_nil_of_mem hk)
    have hset := (hwaits.depends k).mpr ⟨hk, hadded⟩
    obtain rfl := hrest k hk hadded
    refine ⟨(hreg _ _).mpr ⟨t, hin, rfl, hcand, hk⟩, orphan, hsome, List.ne_nil_of_mem hset, ?_⟩
    refine List.filter_eq_nil_iff.mpr fun k' hk' => ?_
    obtain ⟨hparent, hnot⟩ := (hwaits.depends k').mp hk'
    simpa using hrest k' hparent hnot

section

variable (hreg : M.Registered mapDependers) (h : M.Queued vtx popped s)
  (hrel : Released (M.C.txHash tx) (mapDependers (M.C.txHash tx)) s s')

include hreg h hrel

/-- The orphans wait for one transaction less. -/
theorem Queued.releasedOrphans {t : CTransaction} (hin : M.InPool t) (hcand : M.isCandidate t)
    (hne : M.poolParents t.vin ≠ []) :
    ∃ orphan, s'.vOrphan (M.C.txHash t) = some orphan ∧ WaitsFor M (vtx ++ [tx]) t orphan := by
  obtain ⟨orphan, hsome, hwaits⟩ := h.orphans t hin hcand hne
  have hmem : ∀ k, k ∈ (vtx ++ [tx]).map M.C.txHash ↔ k ∈ vtx.map M.C.txHash ∨ k = M.C.txHash tx := by
    intro k
    rw [List.map_append, List.mem_append, List.map_singleton, List.mem_singleton]
  by_cases htold : M.C.txHash t ∈ mapDependers (M.C.txHash tx)
  · refine ⟨orphan.without (M.C.txHash tx), by rw [hrel.told _ htold, hsome]; rfl, hwaits.ptx, hwaits.rate, fun k => ?_⟩
    show k ∈ orphan.setDependsOn.filter _ ↔ _
    rw [List.mem_filter, hwaits.depends, decide_eq_true_eq, hmem, not_or, and_assoc]
  · refine ⟨orphan, by rw [hrel.others _ htold, hsome], hwaits.ptx, hwaits.rate, fun k => ?_⟩
    have hnot : M.C.txHash tx ∉ M.poolParents t.vin :=
      fun hparent => htold ((hreg _ _).mpr ⟨t, hin, rfl, hcand, hparent⟩)
    rw [hwaits.depends, hmem, not_or]
    refine and_congr_right fun hk => (and_iff_left ?_).symm
    rintro rfl
    exact hnot hk

/-- The queue after a transaction has been added. -/
theorem Queued.released (hp : M.CheckedPool) : M.Queued (vtx ++ [tx]) popped s' := by
  obtain ⟨freed, hnodup, hfreed, hqueue⟩ := hrel.queue
  -- each key belongs to a candidate, whose orphan goes into the queue
  have hkey : ∀ k ∈ freed, ∃ t orphan, M.InPool t ∧ M.isCandidate t = true ∧ M.C.txHash t = k ∧
      ¬ M.Follows vtx t ∧ M.Follows (vtx ++ [tx]) t ∧ s.vOrphan k = some orphan ∧ orphan.ptx = t ∧
        orphan.feeRate = M.feeRate t := by
    intro k hk
    obtain ⟨t, hin, rfl, hcand, hparent⟩ := (hreg _ _).mp ((hfreed k).mp hk).1
    obtain ⟨hnot, hfollows⟩ := (h.freed_iff hp hreg hin hcand).mp ((hfreed _).mp hk)
    obtain ⟨orphan, hsome, hwaits⟩ := h.orphans t hin hcand (List.ne_nil_of_mem hparent)
    exact ⟨t, orphan, hin, hcand, rfl, hnot, hfollows, hsome, hwaits.ptx, hwaits.rate⟩
  let pushed : List (TxPriority D) := freed.filterMap fun k => (s.vOrphan k).map COrphan.queued
  have hpushed : ∀ p ∈ pushed, p.feeRate = M.feeRate p.tx ∧ M.InPool p.tx ∧ M.isCandidate p.tx = true ∧
      ¬ M.Follows vtx p.tx ∧ M.Follows (vtx ++ [tx]) p.tx := by
    intro p hpmem
    obtain ⟨k, hk, hsome⟩ := List.mem_filterMap.mp hpmem
    obtain ⟨t, orphan, hin, hcand, -, hnot, hfollows, hsome', rfl, hrate⟩ := hkey k hk
    rw [hsome', Option.map_some] at hsome
    cases hsome
    exact ⟨hrate, hin, hcand, hnot, hfollows⟩
  have hhashes : (pushed.map TxPriority.tx).map M.C.txHash = freed := by
    rw [List.map_map]
    refine map_filterMap_eq fun k hk => ?_
    obtain ⟨t, orphan, -, -, rfl, -, -, hsome, hptx, -⟩ := hkey k hk
    exact ⟨orphan.queued, by rw [hsome]; rfl, congrArg M.C.txHash hptx⟩
  have hmem : ∀ t, t ∈ s'.vecPriority.map TxPriority.tx ++ popped ↔
      t ∈ s.vecPriority.map TxPriority.tx ++ popped ∨ t ∈ pushed.map TxPriority.tx := by
    intro t
    rw [hqueue, List.map_append]
    simp only [List.mem_append]
    tauto
  refine ⟨?_, fun t => ?_, fun p hpmem => ?_, fun t hin hcand hne => h.releasedOrphans hreg hrel hin hcand hne⟩
  · rw [hqueue, List.map_append, List.append_assoc]
    refine ((List.perm_append_comm.append_left _).trans ?_).nodup_iff.mpr
      (h.nodup.append (hhashes ▸ hnodup : ((pushed.map TxPriority.tx).map M.C.txHash).Nodup).of_map ?_)
    · rw [List.append_assoc]
    · intro t ht hpush
      obtain ⟨p, hpmem, rfl⟩ := List.mem_map.mp hpush
      exact (hpushed p hpmem).2.2.2.1 ((h.entered _).mp ht).2.2
  · rw [hmem, h.entered]
    have hgrows : M.Follows vtx t → M.Follows (vtx ++ [tx]) t := by
      intro hfollows k hk
      rw [List.map_append]
      exact List.mem_append_left _ (hfollows k hk)
    constructor
    · rintro (⟨hin, hcand, hfollows⟩ | hpush)
      · exact ⟨hin, hcand, hgrows hfollows⟩
      · obtain ⟨p, hpmem, rfl⟩ := List.mem_map.mp hpush
        obtain ⟨-, hin, hcand, -, hfollows⟩ := hpushed p hpmem
        exact ⟨hin, hcand, hfollows⟩
    · rintro ⟨hin, hcand, hfollows⟩
      by_cases hbefore : M.Follows vtx t
      · exact .inl ⟨hin, hcand, hbefore⟩
      · have hk := (hfreed _).mpr ((h.freed_iff hp hreg hin hcand).mpr ⟨hbefore, hfollows⟩)
        rw [← hhashes] at hk
        obtain ⟨t', ht', heq⟩ := List.mem_map.mp hk
        obtain ⟨p, hpmem, rfl⟩ := List.mem_map.mp ht'
        rw [hp.injective (hpushed p hpmem).2.1 hin heq] at ht'
        exact .inr ht'
  · rw [hqueue] at hpmem
    rcases List.mem_append.mp hpmem with hpmem | hpmem
    · exact h.rates p hpmem
    · exact (hpushed p hpmem).1

end

end Miner

end Reddcoin
