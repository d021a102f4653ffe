import Reddcoin.Mempool.OrphanResolution

/-!
# The two maps of the orphans

`mapOrphanTransactionsByPrev` with its keys, so that a key with an empty set is not the same as no key, and
the loops over the orphans with the iterators and lookups that they use.
-/

namespace Reddcoin

open List Function

variable {byPrev : AList fun _ : Uint256 => List Uint256}

structure OrphanNode where
  mempool : CTxMemPool
  mapOrphanTransactions : AList fun _ : Uint256 => COrphanTx
  mapOrphanTransactionsByPrev : AList fun _ : Uint256 => List Uint256
  /-- The calls of `Misbehaving`. -/
  misbehaving : List (Nat × Nat)
  /-- The number of random hashes that have been drawn. -/
  nRand : Nat

namespace OrphanNode

/-! ## Adding and erasing -/

def insertPrev (hash : Uint256) (byPrev : AList fun _ : Uint256 => List Uint256) (txin : CTxIn) :
    AList fun _ : Uint256 => List Uint256 :=
  byPrev.insert txin.prevout.hash (insertHash hash ((byPrev.lookup txin.prevout.hash).getD []))

def erasePrev (hash : Uint256) (byPrev : AList fun _ : Uint256 => List Uint256) (txin : CTxIn) :
    AList fun _ : Uint256 => List Uint256 :=
  match byPrev.lookup txin.prevout.hash with
  | none => byPrev
  | some hashes =>
    let hashes := hashes.filter fun h => decide (h ≠ hash)
    if hashes = [] then byPrev.erase txin.prevout.hash else byPrev.insert txin.prevout.hash hashes

variable (R : Relay)

def addOrphanTx (s : OrphanNode) (tx : CTransaction) (peer : Nat) : OrphanNode :=
  let hash := R.C.txHash tx
  if (s.mapOrphanTransactions.lookup hash).isSome then s
  else if 5000 < tx.serializeSize then s
  else
    { s with
      mapOrphanTransactions := s.mapOrphanTransactions.insert hash { tx := tx, fromPeer := peer }
      mapOrphanTransactionsByPrev := tx.vin.foldl (insertPrev hash) s.mapOrphanTransactionsByPrev }

def eraseOrphanTx (s : OrphanNode) (hash : Uint256) : OrphanNode :=
  match s.mapOrphanTransactions.lookup hash with
  | none => s
  | some orphan =>
    { s with
      mapOrphanTransactions := s.mapOrphanTransactions.erase hash
      mapOrphanTransactionsByPrev := orphan.tx.vin.foldl (erasePrev hash) s.mapOrphanTransactionsByPrev }

/-! ## Loops -/

/-- The loop of `EraseOrphansFor` with the keys that its iterator has still to visit; nothing if the element
that it stands on has been erased. -/
def eraseOrphansLoop (peer : Nat) : List Uint256 → OrphanNode → Option OrphanNode
  | [], s => some s
  | hash :: rest, s =>
    match s.mapOrphanTransactions.lookup hash with
    | none => none
    | some orphan =>
      if orphan.fromPeer = peer then eraseOrphansLoop peer rest (s.eraseOrphanTx (R.C.txHash orphan.tx))
      else eraseOrphansLoop peer rest s

def eraseOrphansFor (s : OrphanNode) (peer : Nat) : Option OrphanNode :=
  eraseOrphansLoop R peer (s.mapOrphanTransactions.keys.insertionSort (· ≤ ·)) s

/-- `lower_bound` of a random hash, or `begin`; nothing at the end of an empty map. -/
def orphanFrom (s : OrphanNode) (randomhash : Uint256) : Option Uint256 :=
  let hashes := s.mapOrphanTransactions.keys.insertionSort (· ≤ ·)
  (hashes.find? fun hash => decide (randomhash ≤ hash)).orElse fun _ => hashes.head?

/-- `LimitOrphanTxSize`; nothing if it has not ended after so many turns. -/
def limitOrphanTxSize (nMaxOrphans : Nat) : Nat → OrphanNode → Option OrphanNode
  | 0, s => if nMaxOrphans < s.mapOrphanTransactions.keys.length then none else some s
  | turns + 1, s =>
    if nMaxOrphans < s.mapOrphanTransactions.keys.length then do
      let hash ← s.orphanFrom (R.getRandHash s.nRand)
      let s := s.eraseOrphanTx hash
      limitOrphanTxSize nMaxOrphans turns { s with nRand := s.nRand + 1 }
    else some s

/-! ## The message -/

/-- One orphan of the inner loop; nothing if it is not stored. -/
def tryOrphan (orphans : AList fun _ : Uint256 => COrphanTx) (st : Resolving) (orphanHash : Uint256) :
    Option Resolving :=
  match orphans.lookup orphanHash with
  | none => none
  | some _ => some (Reddcoin.tryOrphan R orphans st orphanHash)

/-- The loop over the work queue; nothing if it has not ended after so many turns. -/
def resolveOrphans (s : OrphanNode) : Nat → Resolving → Option Resolving
  | 0, st => if st.vWorkQueue = [] then some st else none
  | turns + 1, st =>
    match st.vWorkQueue with
    | [] => some st
    | hash :: queue =>
      match s.mapOrphanTransactionsByPrev.lookup hash with
      | none => resolveOrphans s turns { st with vWorkQueue := queue }
      | some hashes => do
        let st ← hashes.foldlM (tryOrphan R s.mapOrphanTransactions) { st with vWorkQueue := queue }
        resolveOrphans s turns st

/-- The message "tx" with a transaction from a peer. -/
def processTx (s : OrphanNode) (tx : CTransaction) (pfrom nMaxOrphanTx : Nat) : Option OrphanNode :=
  let hash := R.C.txHash tx
  match acceptToMemoryPool R s.mempool tx with
  | .accepted pool => do
    let st ← resolveOrphans R s (s.mapOrphanTransactions.keys.length + 1)
      { mempool := pool, vWorkQueue := [hash], vEraseQueue := [hash], setMisbehaving := [],
        misbehaving := s.misbehaving }
    let s := { s with mempool := st.mempool, misbehaving := st.misbehaving }
    pure (st.vEraseQueue.foldl eraseOrphanTx s)
  | .missingInputs =>
    let s := s.addOrphanTx R tx pfrom
    s.limitOrphanTxSize R nMaxOrphanTx s.mapOrphanTransactions.keys.length
  | .rejected stop =>
    if 0 < stop.level then some { s with misbehaving := (pfrom, stop.level) :: s.misbehaving } else some s

/-! ## Runs -/

inductive Call where
  | addOrphanTx (tx : CTransaction) (peer : Nat)
  | eraseOrphanTx (hash : Uint256)
  | eraseOrphansFor (peer : Nat)
  | limitOrphanTxSize (nMaxOrphans : Nat)
  | processTx (tx : CTransaction) (pfrom nMaxOrphanTx : Nat)

def call (s : OrphanNode) : Call → Option OrphanNode
  | .addOrphanTx tx peer => some (s.addOrphanTx R tx peer)
  | .eraseOrphanTx hash => some (s.eraseOrphanTx hash)
  | .eraseOrphansFor peer => s.eraseOrphansFor R peer
  | .limitOrphanTxSize nMaxOrphans => s.limitOrphanTxSize R nMaxOrphans s.mapOrphanTransactions.keys.length
  | .processTx tx pfrom nMaxOrphanTx => s.processTx R tx pfrom nMaxOrphanTx

/-- A node without orphans. -/
def fresh (pool : CTxMemPool) : OrphanNode where
  mempool := pool
  mapOrphanTransactions := ∅
  mapOrphanTransactionsByPrev := ∅
  misbehaving := []
  nRand := 0

/-! ## Absent keys as empty sets -/

def setsOf (byPrev : AList fun _ : Uint256 => List Uint256) (prev : Uint256) : List Uint256 :=
  (byPrev.lookup prev).getD []

def toTxNode (s : OrphanNode) : TxNode where
  mempool := s.mempool
  mapOrphanTransactions := s.mapOrphanTransactions
  mapOrphanTransactionsByPrev := setsOf s.mapOrphanTransactionsByPrev
  misbehaving := s.misbehaving
  nRand := s.nRand

theorem setsOf_insertPrev (hash : Uint256) (byPrev : AList fun _ : Uint256 => List Uint256) (txin : CTxIn) :
    setsOf (insertPrev hash byPrev txin) =
      Function.update (setsOf byPrev) txin.prevout.hash (insertHash hash (setsOf byPrev txin.prevout.hash)) := by
  funext prev
  unfold setsOf insertPrev
  by_cases hprev : prev = txin.prevout.hash
  · rw [hprev, AList.lookup_insert, update_self]
    rfl
  · rw [AList.lookup_insert_ne hprev, update_of_ne hprev]

theorem setsOf_erasePrev (hash : Uint256) (byPrev : AList fun _ : Uint256 => List Uint256) (txin : CTxIn) :
    setsOf (erasePrev hash byPrev txin) = Function.update (setsOf byPrev) txin.prevout.hash
        ((setsOf byPrev txin.prevout.hash).filter fun h => decide (h ≠ hash)) := by
  funext prev
  unfold setsOf erasePrev
  cases hlook : byPrev.lookup txin.prevout.hash with
  | none =>
    by_cases hprev : prev = txin.prevout.hash
    · rw [hprev, update_self, hlook]
      rfl
    · rw [update_of_ne hprev]
  | some hashes =>
    dsimp only
    by_cases hempty : hashes.filter (fun h => decide (h ≠ hash)) = []
    · rw [if_pos hempty]
      by_cases hprev : prev = txin.prevout.hash
      · rw [hprev, AList.lookup_erase, update_self]
        exact hempty.symm
      · rw [AList.lookup_erase_ne hprev, update_of_ne hprev]
    · rw [if_neg hempty]
      by_cases hprev : prev = txin.prevout.hash
      · rw [hprev, AList.lookup_insert, update_self]
        rfl
      · rw [AList.lookup_insert_ne hprev, update_of_ne hprev]

theorem setsOf_foldl {change : AList (fun _ : Uint256 => List Uint256) → CTxIn → AList fun _ : Uint256 => List Uint256}
    {f : List Uint256 → List Uint256}
    (hchange : ∀ byPrev txin, setsOf (change byPrev txin) =
      Function.update (setsOf byPrev) txin.prevout.hash (f (setsOf byPrev txin.prevout.hash)))
    (vin : List CTxIn) (byPrev : AList fun _ : Uint256 => List Uint256) :
    setsOf (vin.foldl change byPrev) =
      vin.foldl (fun sets txin => Function.update sets txin.prevout.hash (f (sets txin.prevout.hash)))
        (setsOf byPrev) := by
  induction vin generalizing byPrev with
  | nil => rfl
  | cons txin vin ih => rw [foldl_cons, ih, hchange, foldl_cons]

theorem toTxNode_addOrphanTx (s : OrphanNode) (tx : CTransaction) (peer : Nat) :
    (s.addOrphanTx R tx peer).toTxNode = s.toTxNode.addOrphanTx R.C tx peer := by
  have hsame : s.toTxNode.mapOrphanTransactions = s.mapOrphanTransactions := rfl
  unfold addOrphanTx TxNode.addOrphanTx
  rw [hsame]
  dsimp only
  by_cases hold : (s.mapOrphanTransactions.lookup (R.C.txHash tx)).isSome = true
  · rw [if_pos hold, if_pos hold]
  · rw [if_neg hold, if_neg hold]
    by_cases hlarge : 5000 < tx.serializeSize
    · rw [if_pos hlarge, if_pos hlarge]
    · rw [if_neg hlarge, if_neg hlarge]
      unfold toTxNode
      rw [← setsOf_foldl (setsOf_insertPrev (R.C.txHash tx))]

theorem toTxNode_eraseOrphanTx (s : OrphanNode) (hash : Uint256) :
    (s.eraseOrphanTx hash).toTxNode = s.toTxNode.eraseOrphanTx hash := by
  have hsame : s.toTxNode.mapOrphanTransactions = s.mapOrphanTransactions := rfl
  unfold eraseOrphanTx TxNode.eraseOrphanTx
  rw [hsame]
  cases s.mapOrphanTransactions.lookup hash with
  | none => rfl
  | some orphan =>
    unfold toTxNode
    dsimp only
    rw [← setsOf_foldl (setsOf_erasePrev hash)]

theorem toTxNode_eraseOrphans (hashes : List Uint256) (s : OrphanNode) :
    (hashes.foldl eraseOrphanTx s).toTxNode = hashes.foldl TxNode.eraseOrphanTx s.toTxNode := by
  induction hashes generalizing s with
  | nil => rfl
  | cons hash hashes ih => rw [foldl_cons, ih, toTxNode_eraseOrphanTx, foldl_cons]

/-! ## The maps agree -/

def NoEmptySets (byPrev : AList fun _ : Uint256 => List Uint256) : Prop :=
  ∀ prev hashes, byPrev.lookup prev = some hashes → hashes ≠ []

/-- The second map is the inverse of the first, and has no empty sets. -/
structure MapsAgree (C : Crypto) (s : OrphanNode) : Prop where
  agree : OrphansAgree C s.toTxNode
  noEmpty : NoEmptySets s.mapOrphanTransactionsByPrev

theorem noEmptySets_insertPrev (h : NoEmptySets byPrev)
    (hash : Uint256) (txin : CTxIn) : NoEmptySets (insertPrev hash byPrev txin) := by
  intro prev hashes hlook
  unfold insertPrev at hlook
  by_cases hprev : prev = txin.prevout.hash
  · rw [hprev, AList.lookup_insert] at hlook
    rw [← Option.some.inj hlook]
    exact ne_nil_of_mem (mem_insertHash.mpr (.inl rfl))
  · rw [AList.lookup_insert_ne hprev] at hlook
    exact h prev hashes hlook

theorem noEmptySets_erasePrev (h : NoEmptySets byPrev)
    (hash : Uint256) (txin : CTxIn) : NoEmptySets (erasePrev hash byPrev txin) := by
  unfold erasePrev
  cases hold : byPrev.lookup txin.prevout.hash with
  | none => exact h
  | some hashes =>
    dsimp only
    intro prev hashes' hlook
    by_cases hempty : hashes.filter (fun h => decide (h ≠ hash)) = []
    · rw [if_pos hempty] at hlook
      by_cases hprev : prev = txin.prevout.hash
      · rw [hprev, AList.lookup_erase] at hlook
        simp at hlook
      · rw [AList.lookup_erase_ne hprev] at hlook
        exact h prev hashes' hlook
    · rw [if_neg hempty] at hlook
      by_cases hprev : prev = txin.prevout.hash
      · rw [hprev, AList.lookup_insert] at hlook
        rw [← Option.some.inj hlook]
        exact hempty
      · rw [AList.lookup_insert_ne hprev] at hlook
        exact h prev hashes' hlook

theorem noEmptySets_foldl
    {change : AList (fun _ : Uint256 => List Uint256) → CTxIn → AList fun _ : Uint256 => List Uint256}
    (hchange : ∀ byPrev, NoEmptySets byPrev → ∀ txin, NoEmptySets (change byPrev txin))
    (vin : List CTxIn) (h : NoEmptySets byPrev) :
    NoEmptySets (vin.foldl change byPrev) := by
  induction vin generalizing byPrev with
  | nil => exact h
  | cons txin vin ih => exact ih (hchange byPrev h txin)

variable {R} {s : OrphanNode}

theorem MapsAgree.addOrphanTx (h : MapsAgree R.C s) (tx : CTransaction) (peer : Nat) :
    MapsAgree R.C (s.addOrphanTx R tx peer) := by
  by_cases hold : (s.mapOrphanTransactions.lookup (R.C.txHash tx)).isSome = true
  · unfold OrphanNode.addOrphanTx
    rw [if_pos hold]
    exact h
  by_cases hlarge : 5000 < tx.serializeSize
  · unfold OrphanNode.addOrphanTx
    rw [if_neg hold, if_pos hlarge]
    exact h
  constructor
  · rw [toTxNode_addOrphanTx]
    refine (addOrphanTx_eq peer ?_ (Nat.not_lt.mp hlarge)).2.2 h.agree
    exact Option.not_isSome_iff_eq_none.mp hold
  · unfold OrphanNode.addOrphanTx
    rw [if_neg hold, if_neg hlarge]
    exact noEmptySets_foldl (fun byPrev hempty txin => noEmptySets_insertPrev hempty _ txin) _ h.noEmpty

theorem MapsAgree.eraseOrphanTx (h : MapsAgree R.C s) (hash : Uint256) : MapsAgree R.C (s.eraseOrphanTx hash) := by
  constructor
  · rw [toTxNode_eraseOrphanTx]
    exact (eraseOrphanTx_eq s.toTxNode hash).2.2 h.agree
  · unfold OrphanNode.eraseOrphanTx
    cases s.mapOrphanTransactions.lookup hash with
    | none => exact h.noEmpty
    | some orphan =>
      exact noEmptySets_foldl (fun byPrev hempty txin => noEmptySets_erasePrev hempty _ txin) _ h.noEmpty

theorem MapsAgree.eraseOrphans (h : MapsAgree R.C s) (hashes : List Uint256) :
    MapsAgree R.C (hashes.foldl OrphanNode.eraseOrphanTx s) := by
  induction hashes generalizing s with
  | nil => exact h
  | cons hash hashes ih => exact ih (h.eraseOrphanTx hash)

/-! ## Loops that erase -/

theorem keys_eraseOrphanTx {hash : Uint256} (hmem : hash ∈ s.mapOrphanTransactions.keys) :
    (s.eraseOrphanTx hash).mapOrphanTransactions.keys = s.mapOrphanTransactions.keys.erase hash := by
  obtain ⟨orphan, hlook⟩ := Option.isSome_iff_exists.mp (AList.lookup_isSome.mpr (AList.mem_keys.mpr hmem))
  unfold eraseOrphanTx
  rw [hlook]
  exact AList.keys_erase hash s.mapOrphanTransactions

theorem MapsAgree.eraseOrphansLoop (h : MapsAgree R.C s) (peer : Nat) {rest : List Uint256} (hnodup : rest.Nodup)
    (hsub : ∀ hash ∈ rest, hash ∈ s.mapOrphanTransactions.keys) :
    ∃ s', eraseOrphansLoop R peer rest s = some s' ∧ MapsAgree R.C s' := by
  induction rest generalizing s with
  | nil => exact ⟨s, rfl, h⟩
  | cons hash rest ih =>
    have hmem := hsub hash mem_cons_self
    obtain ⟨hnew, hnodup'⟩ := nodup_cons.mp hnodup
    obtain ⟨orphan, hlook⟩ := Option.isSome_iff_exists.mp (AList.lookup_isSome.mpr (AList.mem_keys.mpr hmem))
    unfold OrphanNode.eraseOrphansLoop
    rw [hlook]
    dsimp only
    by_cases hpeer : orphan.fromPeer = peer
    · -- only the element that the iterator has left is erased
      rw [if_pos hpeer, h.agree.keyed hash orphan hlook]
      refine ih (h.eraseOrphanTx hash) hnodup' fun other hother => ?_
      rw [keys_eraseOrphanTx hmem]
      have hne : other ≠ hash := fun heq => hnew (heq ▸ hother)
      exact (mem_erase_of_ne hne).mpr (hsub other (mem_cons_of_mem _ hother))
    · rw [if_neg hpeer]
      exact ih h hnodup' fun other hother => hsub other (mem_cons_of_mem _ hother)

theorem MapsAgree.eraseOrphansFor (h : MapsAgree R.C s) (peer : Nat) :
    ∃ s', s.eraseOrphansFor R peer = some s' ∧ MapsAgree R.C s' :=
  h.eraseOrphansLoop peer ((perm_insertionSort _ _).nodup_iff.mpr s.mapOrphanTransactions.keys_nodup)
    fun _ hmem => (mem_insertionSort _).mp hmem

theorem orphanFrom_mem (hsome : s.mapOrphanTransactions.keys ≠ []) (randomhash : Uint256) :
    ∃ hash, s.orphanFrom randomhash = some hash ∧ hash ∈ s.mapOrphanTransactions.keys := by
  have hmem : ∀ hash, hash ∈ s.mapOrphanTransactions.keys.insertionSort (· ≤ ·) →
      hash ∈ s.mapOrphanTransactions.keys := fun hash => (mem_insertionSort _).mp
  unfold orphanFrom
  dsimp only
  cases hfind : (s.mapOrphanTransactions.keys.insertionSort (· ≤ ·)).find? fun hash => decide (randomhash ≤ hash) with
  | some hash => exact ⟨hash, rfl, hmem hash (mem_of_find?_eq_some hfind)⟩
  | none =>
    cases hkeys : s.mapOrphanTransactions.keys.insertionSort (· ≤ ·) with
    | nil =>
      have hlength := length_insertionSort (· ≤ ·) s.mapOrphanTransactions.keys
      rw [hkeys] at hlength
      exact absurd (length_eq_zero_iff.mp hlength.symm) hsome
    | cons hash rest =>
      refine ⟨hash, rfl, hmem hash ?_⟩
      rw [hkeys]
      exact mem_cons_self

theorem MapsAgree.limitOrphanTxSize (h : MapsAgree R.C s) (nMaxOrphans turns : Nat)
    (hturns : s.mapOrphanTransactions.keys.length ≤ nMaxOrphans + turns) :
    ∃ s', s.limitOrphanTxSize R nMaxOrphans turns = some s' ∧ MapsAgree R.C s' ∧
      s'.mapOrphanTransactions.keys.length ≤ nMaxOrphans := by
  induction turns generalizing s with
  | zero =>
    refine ⟨s, ?_, h, hturns⟩
    unfold OrphanNode.limitOrphanTxSize
    rw [if_neg (by omega)]
  | succ turns ih =>
    unfold OrphanNode.limitOrphanTxSize
    by_cases hmany : nMaxOrphans < s.mapOrphanTransactions.keys.length
    · rw [if_pos hmany]
      obtain ⟨hash, hfrom, hmem⟩ := orphanFrom_mem (s := s) (ne_nil_of_length_pos (by omega))
        (R.getRandHash s.nRand)
      have herased := h.eraseOrphanTx hash
      have hlength : (s.eraseOrphanTx hash).mapOrphanTransactions.keys.length ≤ nMaxOrphans + turns := by
        rw [keys_eraseOrphanTx hmem, length_erase_of_mem hmem]
        omega
      rw [hfrom]
      exact @ih { s.eraseOrphanTx hash with nRand := (s.eraseOrphanTx hash).nRand + 1 }
        ⟨⟨herased.agree.keyed, herased.agree.byPrev⟩, herased.noEmpty⟩ hlength
    · rw [if_neg hmany]
      exact ⟨s, rfl, h, by omega⟩

/-! ## The work queue -/

theorem acceptToMemoryPool_accepted {pool pool' : CTxMemPool} {tx : CTransaction}
    (h : acceptToMemoryPool R pool tx = .accepted pool') :
    pool.has (R.C.txHash tx) = false ∧ pool' = pool.addUnchecked (R.C.txHash tx) (.ofTx tx) := by
  unfold acceptToMemoryPool at h
  dsimp only at h
  split at h
  · simp at h
  · split_ifs at h with hhas
    split at h
    · simp at h
    · exact ⟨Bool.eq_false_iff.mpr hhas, (AcceptOutcome.accepted.inj h).symm⟩

/-- Each orphan is accepted at most once. -/
theorem remaining_tryOrphan (h : MapsAgree R.C s) (st : Resolving) (hash : Uint256) :
    (Reddcoin.tryOrphan R s.mapOrphanTransactions st hash).remaining s.toTxNode ≤ st.remaining s.toTxNode := by
  unfold Reddcoin.tryOrphan
  cases hlook : s.mapOrphanTransactions.lookup hash with
  | none => exact Nat.le_refl _
  | some orphan =>
    have hkey := h.agree.keyed hash orphan hlook
    dsimp only
    by_cases hpeer : orphan.fromPeer ∈ st.setMisbehaving
    · rw [if_pos hpeer]
      exact Nat.le_refl _
    · rw [if_neg hpeer]
      cases haccept : acceptToMemoryPool R st.mempool orphan.tx with
      | accepted pool =>
        obtain ⟨hnew, rfl⟩ := acceptToMemoryPool_accepted haccept
        rw [hkey] at hnew ⊢
        exact @remaining_accept hash s.toTxNode st orphan hlook hnew _
      | missingInputs => exact Nat.le_refl _
      | rejected stop =>
        dsimp only
        split_ifs
        · exact Nat.le_refl _
        · exact Nat.le_refl _

theorem tryOrphans_eq (h : MapsAgree R.C s) (hashes : List Uint256)
    (hstored : ∀ hash ∈ hashes, ∃ orphan, s.mapOrphanTransactions.lookup hash = some orphan) (st : Resolving) :
    hashes.foldlM (tryOrphan R s.mapOrphanTransactions) st =
        some (hashes.foldl (Reddcoin.tryOrphan R s.mapOrphanTransactions) st) ∧
      (hashes.foldl (Reddcoin.tryOrphan R s.mapOrphanTransactions) st).remaining s.toTxNode ≤
        st.remaining s.toTxNode := by
  induction hashes generalizing st with
  | nil => exact ⟨rfl, Nat.le_refl _⟩
  | cons hash hashes ih =>
    obtain ⟨orphan, hlook⟩ := hstored hash mem_cons_self
    obtain ⟨hrest, hless⟩ := ih (fun other hother => hstored other (mem_cons_of_mem _ hother))
      (Reddcoin.tryOrphan R s.mapOrphanTransactions st hash)
    have htry : tryOrphan R s.mapOrphanTransactions st hash =
        some (Reddcoin.tryOrphan R s.mapOrphanTransactions st hash) := by
      unfold tryOrphan
      rw [hlook]
    refine ⟨?_, hless.trans (remaining_tryOrphan h st hash)⟩
    rw [foldlM_cons, htry]
    exact hrest

/-- Every orphan that the loop comes to is stored, and the queue runs empty. -/
theorem resolveOrphans_eq (h : MapsAgree R.C s) (turns : Nat) (st : Resolving)
    (hturns : st.remaining s.toTxNode ≤ turns) :
    resolveOrphans R s turns st = some (Reddcoin.resolveOrphans R s.toTxNode.mapOrphanTransactions
      s.toTxNode.mapOrphanTransactionsByPrev turns st) := by
  induction turns generalizing st with
  | zero =>
    unfold resolveOrphans
    rw [if_pos]
    · rfl
    · unfold Resolving.remaining at hturns
      exact length_eq_zero_iff.mp (by omega)
  | succ turns ih =>
    unfold resolveOrphans Reddcoin.resolveOrphans
    cases hqueue : st.vWorkQueue with
    | nil => rfl
    | cons hash queue =>
      have hpop : ({ st with vWorkQueue := queue } : Resolving).remaining s.toTxNode ≤ turns := by
        unfold Resolving.remaining at hturns ⊢
        rw [hqueue, length_cons] at hturns
        dsimp only at hturns ⊢
        omega
      dsimp only
      have hsets : s.toTxNode.mapOrphanTransactionsByPrev hash =
          (s.mapOrphanTransactionsByPrev.lookup hash).getD [] := rfl
      rw [hsets]
      cases hlook : s.mapOrphanTransactionsByPrev.lookup hash with
      | none => exact ih _ hpop
      | some hashes =>
        have hstored : ∀ other ∈ hashes, ∃ orphan, s.mapOrphanTransactions.lookup other = some orphan := by
          intro other hother
          obtain ⟨orphan, hstored, -⟩ := (h.agree.byPrev hash other).mp (by rw [hsets, hlook]; exact hother)
          exact ⟨orphan, hstored⟩
        obtain ⟨htry, hless⟩ := tryOrphans_eq h hashes hstored { st with vWorkQueue := queue }
        dsimp only
        rw [htry]
        exact ih _ (hless.trans hpop)

theorem remaining_start (pool : CTxMemPool) (hash : Uint256) (misbehaving : List (Nat × Nat)) :
    Resolving.remaining s.toTxNode ⟨pool, [hash], [hash], [], misbehaving⟩ ≤
      s.mapOrphanTransactions.keys.length + 1 := by
  have hfilter := length_filter_le (fun h => !pool.has h) s.toTxNode.mapOrphanTransactions.keys
  have hsame : s.toTxNode.mapOrphanTransactions.keys.length = s.mapOrphanTransactions.keys.length := rfl
  unfold Resolving.remaining
  rw [length_singleton]
  dsimp only
  omega

theorem MapsAgree.processTx (h : MapsAgree R.C s) (tx : CTransaction) (pfrom nMaxOrphanTx : Nat) :
    ∃ s', s.processTx R tx pfrom nMaxOrphanTx = some s' ∧ MapsAgree R.C s' := by
  unfold OrphanNode.processTx
  dsimp only
  cases acceptToMemoryPool R s.mempool tx with
  | accepted pool =>
    dsimp only
    rw [resolveOrphans_eq h _ _ (remaining_start pool _ _)]
    refine ⟨_, rfl, MapsAgree.eraseOrphans ?_ _⟩
    exact ⟨⟨h.agree.keyed, h.agree.byPrev⟩, h.noEmpty⟩
  | missingInputs =>
    obtain ⟨s', hlimit, hagree, -⟩ := (h.addOrphanTx tx pfrom).limitOrphanTxSize nMaxOrphanTx
      (s.addOrphanTx R tx pfrom).mapOrphanTransactions.keys.length (by omega)
    exact ⟨s', hlimit, hagree⟩
  | rejected stop =>
    dsimp only
    split_ifs
    · exact ⟨_, rfl, ⟨h.agree.keyed, h.agree.byPrev⟩, h.noEmpty⟩
    · exact ⟨s, rfl, h⟩

/-! ## The message without keys -/

theorem toTxNode_limitOrphanTxSize {s' : OrphanNode} (nMaxOrphans turns : Nat)
    (h : s.limitOrphanTxSize R nMaxOrphans turns = some s') :
    s'.toTxNode = s.toTxNode.limitOrphanTxSize R nMaxOrphans turns := by
  have hsame : s.toTxNode.mapOrphanTransactions = s.mapOrphanTransactions := rfl
  induction turns generalizing s with
  | zero =>
    unfold OrphanNode.limitOrphanTxSize at h
    split_ifs at h
    rw [← Option.some.inj h]
    rfl
  | succ turns ih =>
    unfold OrphanNode.limitOrphanTxSize at h
    unfold TxNode.limitOrphanTxSize
    rw [hsame]
    by_cases hmany : nMaxOrphans < s.mapOrphanTransactions.keys.length
    · rw [if_pos hmany] at h ⊢
      obtain ⟨hash, hfrom, hrest⟩ := Option.bind_eq_some_iff.mp h
      have hpick : s.toTxNode.orphanFrom (R.getRandHash s.toTxNode.nRand) = hash := by
        show (s.orphanFrom (R.getRandHash s.nRand)).getD 0 = hash
        rw [hfrom]
        rfl
      rw [hpick, ← toTxNode_eraseOrphanTx]
      exact ih hrest rfl
    · rw [if_neg hmany] at h ⊢
      rw [← Option.some.inj h]

/-- With the default limit the message does what it does to the map of sets. -/
theorem toTxNode_processTx (h : MapsAgree R.C s) {s' : OrphanNode} {tx : CTransaction} {pfrom : Nat}
    (hs' : s.processTx R tx pfrom DEFAULT_MAX_ORPHAN_TRANSACTIONS = some s') :
    s'.toTxNode = Reddcoin.processTx R s.toTxNode tx pfrom := by
  have hpool : s.toTxNode.mempool = s.mempool := rfl
  unfold OrphanNode.processTx at hs'
  unfold Reddcoin.processTx
  rw [hpool]
  dsimp only at hs' ⊢
  cases haccept : acceptToMemoryPool R s.mempool tx with
  | accepted pool =>
    rw [haccept] at hs'
    dsimp only at hs' ⊢
    rw [resolveOrphans_eq h _ _ (remaining_start pool _ _)] at hs'
    rw [← Option.some.inj hs', toTxNode_eraseOrphans]
    rfl
  | missingInputs =>
    rw [haccept] at hs'
    dsimp only at hs' ⊢
    rw [← toTxNode_addOrphanTx]
    exact toTxNode_limitOrphanTxSize _ _ hs'
  | rejected stop =>
    rw [haccept] at hs'
    dsimp only at hs' ⊢
    by_cases hlevel : 0 < stop.level
    · rw [if_pos hlevel] at hs' ⊢
      rw [← Option.some.inj hs']
      rfl
    · rw [if_neg hlevel] at hs' ⊢
      rw [← Option.some.inj hs']

/-! ## Runs -/

theorem MapsAgree.call (h : MapsAgree R.C s) (c : Call) : ∃ s', s.call R c = some s' ∧ MapsAgree R.C s' := by
  cases c with
  | addOrphanTx tx peer => exact ⟨_, rfl, h.addOrphanTx tx peer⟩
  | eraseOrphanTx hash => exact ⟨_, rfl, h.eraseOrphanTx hash⟩
  | eraseOrphansFor peer => exact h.eraseOrphansFor peer
  | limitOrphanTxSize nMaxOrphans =>
    obtain ⟨s', hlimit, hagree, -⟩ :=
      h.limitOrphanTxSize nMaxOrphans s.mapOrphanTransactions.keys.length (by omega)
    exact ⟨s', hlimit, hagree⟩
  | processTx tx pfrom nMaxOrphanTx => exact h.processTx tx pfrom nMaxOrphanTx

theorem MapsAgree.calls (h : MapsAgree R.C s) (calls : List Call) :
    ∃ s', calls.foldlM (OrphanNode.call R) s = some s' ∧ MapsAgree R.C s' := by
  induction calls generalizing s with
  | nil => exact ⟨s, rfl, h⟩
  | cons c calls ih =>
    obtain ⟨s', hcall, hagree⟩ := h.call c
    rw [foldlM_cons, hcall]
    exact ih hagree

theorem mapsAgree_fresh (C : Crypto) (pool : CTxMemPool) : MapsAgree C (fresh pool) := by
  refine ⟨⟨fun h o ho => ?_, fun prev h => ?_⟩, fun prev hashes hlook => ?_⟩
  · exact absurd ho (by simp [fresh, toTxNode])
  · show h ∈ setsOf ∅ prev ↔ ∃ o, (∅ : AList fun _ : Uint256 => COrphanTx).lookup h = some o ∧ _
    simp [setsOf]
  · exact absurd hlook (by simp [fresh])

end OrphanNode

open OrphanNode in
/-- In every run the second map is the inverse of the first, without empty sets; no call reads an orphan that
is not stored, and `LimitOrphanTxSize` ends. -/
theorem orphanMaps_agree (R : Relay) (pool : CTxMemPool) (calls : List OrphanNode.Call) :
    ∃ s, calls.foldlM (OrphanNode.call R) (fresh pool) = some s ∧
      (∀ prev h, (∃ hashes, s.mapOrphanTransactionsByPrev.lookup prev = some hashes ∧ h ∈ hashes) ↔
        ∃ o, s.mapOrphanTransactions.lookup h = some o ∧ ∃ txin ∈ o.tx.vin, txin.prevout.hash = prev) ∧
      (∀ prev hashes, s.mapOrphanTransactionsByPrev.lookup prev = some hashes → hashes ≠ []) ∧
      (∀ h o, s.mapOrphanTransactions.lookup h = some o → R.C.txHash o.tx = h) ∧
      ∀ n, ∃ s', s.limitOrphanTxSize R n s.mapOrphanTransactions.keys.length = some s' ∧
        s'.mapOrphanTransactions.keys.length ≤ n := by
  obtain ⟨s, hcalls, hagree⟩ := (mapsAgree_fresh R.C pool).calls calls
  refine ⟨s, hcalls, fun prev h => ?_, hagree.noEmpty, hagree.agree.keyed, fun n => ?_⟩
  · refine Iff.trans ?_ (hagree.agree.byPrev prev h)
    show _ ↔ h ∈ (s.mapOrphanTransactionsByPrev.lookup prev).getD []
    cases s.mapOrphanTransactionsByPrev.lookup prev with
    | none => simp
    | some hashes => simp
  · obtain ⟨s', hlimit, -, hfew⟩ := hagree.limitOrphanTxSize n s.mapOrphanTransactions.keys.length (by omega)
    exact ⟨s', hlimit, hfew⟩

open OrphanNode in
/-- On every run of messages the two maps do what the node with a function from hashes to sets does. -/
theorem orphanMaps_simulate (R : Relay) (pool : CTxMemPool) (messages : List (CTransaction × Nat)) :
    ∃ s, (messages.map fun m => Call.processTx m.1 m.2 DEFAULT_MAX_ORPHAN_TRANSACTIONS).foldlM
        (OrphanNode.call R) (fresh pool) = some s ∧
      MapsAgree R.C s ∧ s.toTxNode = processTxs R (.fresh pool) messages := by
  induction messages using reverseRecOn with
  | nil => exact ⟨_, rfl, mapsAgree_fresh R.C pool, rfl⟩
  | append_singleton before m ih =>
    obtain ⟨s, hrun, hagree, hsame⟩ := ih
    obtain ⟨s', hcall, hagree'⟩ := hagree.call (.processTx m.1 m.2 DEFAULT_MAX_ORPHAN_TRANSACTIONS)
    refine ⟨s', ?_, hagree', ?_⟩
    · rw [map_append, foldlM_append, hrun]
      exact (bind_pure _).trans hcall
    · rw [toTxNode_processTx hagree hcall, hsame]
      simp only [processTxs, foldl_append, foldl_cons, foldl_nil]

end Reddcoin
