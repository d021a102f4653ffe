import Reddcoin.Lib.FiniteMap
import Reddcoin.Mempool.TxMemPool
import Reddcoin.Primitives.MerkleTree

/-!
# The index of the memory pool

`mapNextTx` holds exactly the inputs of the pool's transactions.  The index is functional, so no two
transactions spend one outpoint, and every pointer in it leads to an entry; the latter is what lets
`remove` find children through the index while it erases it.
-/

namespace Reddcoin

open List

namespace CTxMemPool

variable {hash : Uint256} {vin : List CTxIn} {entry : CTxMemPoolEntry}

/-- The transaction under the key `p.ptx` spends `o` with its `p.n`th input. -/
def Spends (pool : CTxMemPool) (o : COutPoint) (p : CInPoint) : Prop :=
  ∃ entry, pool.mapTx.lookup p.ptx = some entry ∧ (entry.tx.vin[p.n]?).map CTxIn.prevout = some o

structure Inv (C : Crypto) (pool : CTxMemPool) : Prop where
  keyed : ∀ hash entry, pool.mapTx.lookup hash = some entry → C.txHash entry.tx = hash
  next : ∀ o p, pool.mapNextTx.lookup o = some p ↔ pool.Spends o p
  total : pool.totalTxSize = (pool.mapTx.entries.map fun e => e.2.nTxSize).sum

variable {C : Crypto} {pool : CTxMemPool}

theorem inv_new (fSanityCheck : Bool) : (new fSanityCheck).Inv C where
  keyed hash entry h := by simp [new] at h
  next o p := by simp [new, Spends]
  total := rfl

theorem inv_clear (pool : CTxMemPool) : pool.clear.Inv C where
  keyed hash entry h := by simp [clear] at h
  next o p := by simp [clear, Spends]
  total := rfl

/-! ## Adding -/

theorem lookup_addInputs_of_notMem {o : COutPoint}
    (ho : o ∉ vin.map CTxIn.prevout) (i : Nat) (m : AList fun _ : COutPoint => CInPoint) :
    (addInputs hash i vin m).lookup o = m.lookup o := by
  induction vin generalizing i m with
  | nil => rfl
  | cons txin vin ih =>
    rw [map_cons, mem_cons, not_or] at ho
    show (addInputs hash (i + 1) vin (m.insert txin.prevout ⟨hash, i⟩)).lookup o = _
    rw [ih ho.2, AList.lookup_insert_ne ho.1]

theorem lookup_addInputs (hnodup : (vin.map CTxIn.prevout).Nodup)
    {j : Nat} {txin : CTxIn} (hj : vin[j]? = some txin) (i : Nat)
    (m : AList fun _ : COutPoint => CInPoint) :
    (addInputs hash i vin m).lookup txin.prevout = some { ptx := hash, n := i + j } := by
  induction vin generalizing i j m with
  | nil => simp at hj
  | cons txin' vin ih =>
    rw [map_cons, nodup_cons] at hnodup
    show (addInputs hash (i + 1) vin (m.insert txin'.prevout ⟨hash, i⟩)).lookup txin.prevout = _
    cases j with
    | zero =>
      cases hj
      rw [lookup_addInputs_of_notMem hnodup.1, AList.lookup_insert]
      rfl
    | succ j =>
      rw [ih hnodup.2 (by simpa using hj)]
      congr 2
      omega

/-- What `addUnchecked` relies on. -/
structure Addable (C : Crypto) (pool : CTxMemPool) (hash : Uint256) (entry : CTxMemPoolEntry) : Prop where
  keyed : C.txHash entry.tx = hash
  absent : pool.mapTx.lookup hash = none
  unspent : ∀ txin ∈ entry.tx.vin, pool.mapNextTx.lookup txin.prevout = none
  distinct : (entry.tx.vin.map CTxIn.prevout).Nodup

theorem Inv.addUnchecked (h : pool.Inv C) (hadd : Addable C pool hash entry) :
    (pool.addUnchecked hash entry).Inv C where
  keyed := by
    intro hash' entry' hlook
    change (pool.mapTx.insert hash entry).lookup hash' = some entry' at hlook
    by_cases heq : hash' = hash
    · subst heq
      rw [AList.lookup_insert] at hlook
      cases hlook
      exact hadd.keyed
    · rw [AList.lookup_insert_ne heq] at hlook
      exact h.keyed hash' entry' hlook
  next := by
    intro o p
    show (addInputs hash 0 entry.tx.vin pool.mapNextTx).lookup o = some p ↔
      ∃ e, (pool.mapTx.insert hash entry).lookup p.ptx = some e ∧ _
    by_cases ho : o ∈ entry.tx.vin.map CTxIn.prevout
    · -- an input of the new transaction, which no one else spends
      obtain ⟨txin, htxin, rfl⟩ := mem_map.mp ho
      obtain ⟨j, hj⟩ := mem_iff_getElem?.mp htxin
      constructor
      · intro hp
        rw [lookup_addInputs hadd.distinct hj] at hp
        cases hp
        refine ⟨entry, AList.lookup_insert _, ?_⟩
        rw [Nat.zero_add, hj]
        rfl
      · rintro ⟨e, he, hspend⟩
        by_cases heq : p.ptx = hash
        · rw [heq, AList.lookup_insert] at he
          cases he
          obtain ⟨txin', htxin', hprevout⟩ := Option.map_eq_some_iff.mp hspend
          have hp : _ = some (CInPoint.mk hash (0 + p.n)) :=
            lookup_addInputs hadd.distinct htxin' 0 pool.mapNextTx
          rw [hprevout, Nat.zero_add, ← heq] at hp
          rw [← heq]
          exact hp
        · rw [AList.lookup_insert_ne heq] at he
          have hnone := (h.next txin.prevout p).mpr ⟨e, he, hspend⟩
          rw [hadd.unspent txin htxin] at hnone
          simp at hnone
    · rw [lookup_addInputs_of_notMem ho, h.next]
      constructor
      · rintro ⟨e, he, hspend⟩
        have hne : p.ptx ≠ hash := by
          rintro heq
          rw [heq, hadd.absent] at he
          simp at he
        exact ⟨e, by rw [AList.lookup_insert_ne hne]; exact he, hspend⟩
      · rintro ⟨e, he, hspend⟩
        by_cases heq : p.ptx = hash
        · rw [heq, AList.lookup_insert] at he
          cases he
          obtain ⟨txin, htxin, rfl⟩ := Option.map_eq_some_iff.mp hspend
          exact absurd (mem_map_of_mem (mem_of_getElem? htxin)) ho
        · rw [AList.lookup_insert_ne heq] at he
          exact ⟨e, he, hspend⟩
  total := by
    show pool.totalTxSize + entry.nTxSize = ((pool.mapTx.insert hash entry).entries.map fun e => e.2.nTxSize).sum
    have hmem : hash ∉ pool.mapTx := AList.lookup_eq_none.mp hadd.absent
    rw [AList.entries_insert_of_notMem hmem, map_cons, sum_cons, h.total]
    exact Nat.add_comm _ _

/-! ## Removing -/

theorem lookup_eraseInputs (vin : List CTxIn) (m : AList fun _ : COutPoint => CInPoint) (o : COutPoint) :
    (vin.foldl (fun m txin => m.erase txin.prevout) m).lookup o =
      if o ∈ vin.map CTxIn.prevout then none else m.lookup o := by
  induction vin generalizing m with
  | nil => simp
  | cons txin vin ih =>
    rw [foldl_cons, ih, map_cons]
    by_cases hin : o ∈ vin.map CTxIn.prevout
    · rw [if_pos hin, if_pos (mem_cons_of_mem _ hin)]
    · rw [if_neg hin]
      by_cases heq : o = txin.prevout
      · rw [heq, AList.lookup_erase, if_pos mem_cons_self]
      · rw [AList.lookup_erase_ne heq, if_neg (by simp only [mem_cons]; tauto)]

theorem Inv.eraseTx (h : pool.Inv C) (hin : pool.mapTx.lookup hash = some entry) : (pool.eraseTx hash entry).Inv C where
  keyed := by
    intro hash' entry' hlook
    change (pool.mapTx.erase hash).lookup hash' = some entry' at hlook
    by_cases heq : hash' = hash
    · rw [heq, AList.lookup_erase] at hlook
      simp at hlook
    · rw [AList.lookup_erase_ne heq] at hlook
      exact h.keyed hash' entry' hlook
  next := by
    intro o p
    show (entry.tx.vin.foldl (fun m txin => m.erase txin.prevout) pool.mapNextTx).lookup o = some p ↔
      ∃ e, (pool.mapTx.erase hash).lookup p.ptx = some e ∧ _
    rw [lookup_eraseInputs]
    constructor
    · intro hp
      split_ifs at hp with ho
      obtain ⟨e, he, hspend⟩ := (h.next o p).mp hp
      have hne : p.ptx ≠ hash := by
        intro heq
        rw [heq, hin] at he
        cases he
        obtain ⟨txin, htxin, rfl⟩ := Option.map_eq_some_iff.mp hspend
        exact ho (mem_map_of_mem (mem_of_getElem? htxin))
      exact ⟨e, by rw [AList.lookup_erase_ne hne]; exact he, hspend⟩
    · rintro ⟨e, he, hspend⟩
      have hne : p.ptx ≠ hash := by
        intro heq
        rw [heq, AList.lookup_erase] at he
        simp at he
      rw [AList.lookup_erase_ne hne] at he
      have hp := (h.next o p).mpr ⟨e, he, hspend⟩
      rw [if_neg]
      · exact hp
      · -- the index has one spender for each outpoint
        intro ho
        obtain ⟨txin, htxin, rfl⟩ := mem_map.mp ho
        obtain ⟨j, hj⟩ := mem_iff_getElem?.mp htxin
        have hp' := (h.next txin.prevout ⟨hash, j⟩).mpr ⟨entry, hin, by rw [hj]; rfl⟩
        rw [hp] at hp'
        exact hne (congrArg CInPoint.ptx (Option.some.inj hp'))
  total := by
    show pool.totalTxSize - entry.nTxSize = ((pool.mapTx.erase hash).entries.map fun e => e.2.nTxSize).sum
    rw [h.total, Lib.sum_entries_erase hin]
    exact Nat.add_sub_cancel_left _ _

theorem outputs_eraseTx (hin : pool.mapTx.lookup hash = some entry) :
    pool.outputs = entry.tx.vout.length + (pool.eraseTx hash entry).outputs :=
  Lib.sum_entries_erase hin _

section

variable (h : pool.Inv C)

include h

theorem Inv.spendersOf (hash : Uint256) (positions : List Nat) :
    ∃ spenders, pool.spendersOf C hash positions = .ok spenders ∧ spenders.length ≤ positions.length := by
  induction positions with
  | nil => exact ⟨[], rfl, Nat.le_refl _⟩
  | cons i rest ih =>
    obtain ⟨others, hothers, hlen⟩ := ih
    unfold CTxMemPool.spendersOf
    cases hnext : pool.mapNextTx.lookup { hash := hash, n := i } with
    | none => exact ⟨others, hothers, Nat.le_succ_of_le hlen⟩
    | some p =>
      obtain ⟨e, he, -⟩ := (h.next _ p).mp hnext
      refine ⟨C.txHash e.tx :: others, ?_, Nat.succ_le_succ hlen⟩
      simp only [followHash, he, hothers]
      rfl

/-- The loop empties its queue and keeps the invariant. -/
theorem Inv.removeLoop (fRecursive : Bool) {turns : Nat} {txToRemove : List Uint256}
    (hturns : txToRemove.length + pool.outputs ≤ turns) (removed : List CTransaction) :
    ∃ result, removeLoop C fRecursive turns txToRemove pool removed = .ok result ∧ result.1.Inv C := by
  induction turns generalizing pool txToRemove removed with
  | zero =>
    obtain rfl : txToRemove = [] := length_eq_zero_iff.mp (by omega)
    exact ⟨(pool, removed), rfl, h⟩
  | succ turns ih =>
    cases txToRemove with
    | nil => exact ⟨(pool, removed), rfl, h⟩
    | cons hash txToRemove =>
      rw [length_cons] at hturns
      unfold CTxMemPool.removeLoop
      cases hin : pool.mapTx.lookup hash with
      | none => exact ih h (by omega) removed
      | some entry =>
        have hout := outputs_eraseTx hin
        cases fRecursive with
        | false =>
          apply ih (h.eraseTx hin)
          rw [append_nil]
          omega
        | true =>
          obtain ⟨children, hchildren, hlen⟩ :=
            h.spendersOf hash (List.range entry.tx.vout.length)
          rw [length_range] at hlen
          simp only [if_true, hchildren]
          apply ih (h.eraseTx hin)
          rw [length_append]
          omega

theorem Inv.remove (origTx : CTransaction) (fRecursive : Bool) (removed : List CTransaction) :
    ∃ result, pool.remove C origTx fRecursive removed = .ok result ∧ result.1.Inv C := by
  unfold CTxMemPool.remove
  split_ifs with hrec
  · obtain ⟨children, hchildren, -⟩ := h.spendersOf (C.txHash origTx) (List.range origTx.vout.length)
    rw [hchildren]
    exact h.removeLoop fRecursive (Nat.le_refl _) removed
  · exact h.removeLoop fRecursive (Nat.le_refl _) removed

theorem Inv.removeConflictsLoop (tx : CTransaction) (vin : List CTxIn) (removed : List CTransaction) :
    ∃ result, removeConflictsLoop C tx vin pool removed = .ok result ∧ result.1.Inv C := by
  induction vin generalizing pool removed with
  | nil => exact ⟨(pool, removed), rfl, h⟩
  | cons txin vin ih =>
    unfold CTxMemPool.removeConflictsLoop
    cases hnext : pool.mapNextTx.lookup txin.prevout with
    | none => exact ih h removed
    | some p =>
      obtain ⟨entry, hentry, -⟩ := (h.next _ p).mp hnext
      simp only [hentry]
      split_ifs with hne
      · obtain ⟨result, hresult, hinv⟩ := h.remove entry.tx true removed
        rw [hresult]
        exact ih hinv result.2
      · exact ih h removed

theorem Inv.removeForBlock (vtx : List CTransaction) (conflicts : List CTransaction) :
    ∃ result, pool.removeForBlock C vtx conflicts = .ok result ∧ result.1.Inv C := by
  induction vtx generalizing pool conflicts with
  | nil => exact ⟨(pool, conflicts), rfl, h⟩
  | cons tx vtx ih =>
    obtain ⟨confirmed, hconfirmed, hinv⟩ := h.remove tx false []
    obtain ⟨result, hresult, hinv'⟩ := hinv.removeConflictsLoop tx tx.vin conflicts
    unfold CTxMemPool.removeForBlock
    rw [hconfirmed]
    show ∃ r, (removeConflicts C tx confirmed.1 conflicts >>= _) = _ ∧ _
    unfold removeConflicts
    rw [hresult]
    exact ih hinv' result.2

theorem Inv.removeAll (txs : List CTransaction) : ∃ result, removeAll C txs pool = .ok result ∧ result.Inv C := by
  induction txs generalizing pool with
  | nil => exact ⟨pool, rfl, h⟩
  | cons tx txs ih =>
    obtain ⟨result, hresult, hinv⟩ := h.remove tx true []
    unfold CTxMemPool.removeAll
    rw [hresult]
    exact ih hinv

end

/-! ## Transactions that mature too late -/

section CoinbaseSpends

variable {accessCoins : Uint256 → Option CCoins} {nMemPoolHeight : Nat}

theorem anyImmature_error {e : PoolStop} (h : anyImmature accessCoins nMemPoolHeight pool vin = .error e) :
    e = .assertion ∧ pool.fSanityCheck = true := by
  induction vin with
  | nil => simp [anyImmature] at h
  | cons txin vin ih =>
    unfold anyImmature spendsImmature at h
    by_cases hpool : (pool.mapTx.lookup txin.prevout.hash).isSome = true
    · rw [if_pos hpool] at h
      exact ih h
    · rw [if_neg hpool] at h
      cases hcoins : accessCoins txin.prevout.hash with
      | none =>
        rw [hcoins] at h
        by_cases hsanity : pool.fSanityCheck = true
        · simp only [if_pos hsanity] at h
          exact ⟨(Except.error.inj h).symm, hsanity⟩
        · simp only [if_neg hsanity] at h
          cases h
      | some coins =>
        rw [hcoins] at h
        change (if _ then _ else _) = _ at h
        split_ifs at h with hdrop
        · cases h
        · exact ih h

theorem coinbaseSpends_error {entries : List CTxMemPoolEntry} {e : PoolStop}
    (h : coinbaseSpends accessCoins nMemPoolHeight pool entries = .error e) :
    e = .assertion ∧ pool.fSanityCheck = true := by
  induction entries with
  | nil => simp [coinbaseSpends] at h
  | cons entry entries ih =>
    unfold coinbaseSpends at h
    cases himm : anyImmature accessCoins nMemPoolHeight pool entry.tx.vin with
    | error e' =>
      rw [himm] at h
      cases h
      exact anyImmature_error himm
    | ok immature =>
      rw [himm] at h
      cases hrest : coinbaseSpends accessCoins nMemPoolHeight pool entries with
      | error e' =>
        rw [hrest] at h
        cases h
        exact ih hrest
      | ok others =>
        rw [hrest] at h
        cases h

end CoinbaseSpends

/-! ## Runs -/

/-- `addUnchecked` is called with a transaction that is not in the pool and spends nothing twice; the
other operations have no conditions. -/
def Op.Allowed (C : Crypto) (pool : CTxMemPool) : Op → Prop
  | addUnchecked hash entry => Addable C pool hash entry
  | _ => True

/-- The operation returns, unless the assertion of a pool with sanity checks stops the program. -/
theorem Inv.run (h : pool.Inv C) {op : Op} (hop : op.Allowed C pool) :
    (∃ pool', op.run C pool = .ok pool' ∧ pool'.Inv C) ∨
      (op.run C pool = .error .assertion ∧ pool.fSanityCheck) := by
  cases op with
  | addUnchecked hash entry => exact .inl ⟨_, rfl, h.addUnchecked hop⟩
  | remove origTx fRecursive =>
    obtain ⟨result, hresult, hinv⟩ := h.remove origTx fRecursive []
    exact .inl ⟨result.1, congrArg (Except.map Prod.fst) hresult, hinv⟩
  | removeConflicts tx =>
    obtain ⟨result, hresult, hinv⟩ := h.removeConflictsLoop tx tx.vin []
    exact .inl ⟨result.1, congrArg (Except.map Prod.fst) hresult, hinv⟩
  | removeForBlock vtx =>
    obtain ⟨result, hresult, hinv⟩ := h.removeForBlock vtx []
    exact .inl ⟨result.1, congrArg (Except.map Prod.fst) hresult, hinv⟩
  | removeCoinbaseSpends accessCoins nMemPoolHeight =>
    show (∃ pool', removeCoinbaseSpends C accessCoins nMemPoolHeight pool = .ok pool' ∧ _) ∨
      (removeCoinbaseSpends C accessCoins nMemPoolHeight pool = _ ∧ _)
    unfold removeCoinbaseSpends
    cases hfound : coinbaseSpends accessCoins nMemPoolHeight pool pool.sortedEntries with
    | error e =>
      obtain ⟨rfl, hsanity⟩ := coinbaseSpends_error hfound
      exact .inr ⟨rfl, hsanity⟩
    | ok transactionsToRemove => exact .inl (h.removeAll transactionsToRemove)
  | clear => exact .inl ⟨pool.clear, rfl, inv_clear pool⟩

/-- The pools that sequences of operations lead to. -/
inductive Reached (C : Crypto) (fSanityCheck : Bool) : CTxMemPool → Prop where
  | new : Reached C fSanityCheck (new fSanityCheck)
  | step {pool pool' : CTxMemPool} {op : Op} : Reached C fSanityCheck pool → op.Allowed C pool →
      op.run C pool = .ok pool' → Reached C fSanityCheck pool'

theorem Reached.inv {fSanityCheck : Bool} (h : Reached C fSanityCheck pool) : pool.Inv C := by
  induction h with
  | new => exact inv_new fSanityCheck
  | step _ hop hrun ih =>
    rcases ih.run hop with ⟨pool', hpool', hinv⟩ | ⟨hstop, -⟩
    · rw [hrun] at hpool'
      cases hpool'
      exact hinv
    · rw [hrun] at hstop
      cases hstop

end CTxMemPool

/-- In every pool that is reached, `mapNextTx` is the set of the inputs of the transactions, no outpoint is
spent twice and `totalTxSize` is the sum of the sizes; and the next operation returns. -/
theorem mempool_consistent (C : Crypto) (fSanityCheck : Bool) (pool : CTxMemPool)
    (h : CTxMemPool.Reached C fSanityCheck pool) :
    (∀ o p, pool.mapNextTx.lookup o = some p ↔ pool.Spends o p) ∧
    (∀ o p p', pool.Spends o p → pool.Spends o p' → p = p') ∧
    pool.totalTxSize = (pool.mapTx.entries.map fun e => e.2.nTxSize).sum ∧
    ∀ op : CTxMemPool.Op, op.Allowed C pool → (∃ pool', op.run C pool = .ok pool') ∨
        (op.run C pool = .error .assertion ∧ pool.fSanityCheck = true) := by
  have hinv := h.inv
  refine ⟨hinv.next, ?_, hinv.total, ?_⟩
  · intro o p p' hp hp'
    rw [← hinv.next] at hp hp'
    exact Option.mem_unique hp hp'
  · intro op hop
    exact (hinv.run hop).imp_left fun ⟨pool', hrun, _⟩ => ⟨pool', hrun⟩

namespace Example

/-- A transaction with one output that spends the given outpoints. -/
def spendingTx (n : Nat) (prevouts : List COutPoint) : CTransaction :=
  { numberedTx n with
    vin := prevouts.map fun prevout => { prevout := prevout, scriptSig := [], nSequence := 0 }
    vout := [{ nValue := 1, scriptPubKey := [] }] }

def parentEntry : CTxMemPoolEntry :=
  CTxMemPoolEntry.ofTx (spendingTx 1 [{ hash := 10, n := 0 }])

/-- Spends the output of the parent. -/
def childEntry : CTxMemPoolEntry :=
  CTxMemPoolEntry.ofTx (spendingTx 2 [{ hash := 10, n := 1 }, { hash := 2, n := 0 }])

def familyPool : CTxMemPool :=
  ((CTxMemPool.new false).addUnchecked 2 parentEntry).addUnchecked 4 childEntry

theorem familyPool_reached : CTxMemPool.Reached pairing false familyPool := by
  have hparent : CTxMemPool.Addable pairing (CTxMemPool.new false) 2 parentEntry :=
    ⟨by decide, by decide, by decide, by decide⟩
  have hchild :
      CTxMemPool.Addable pairing ((CTxMemPool.new false).addUnchecked 2 parentEntry) 4 childEntry :=
    ⟨by decide, by decide, by decide, by decide⟩
  have hfirst : CTxMemPool.Reached pairing false ((CTxMemPool.new false).addUnchecked 2 parentEntry) :=
    .step .new (show CTxMemPool.Op.Allowed pairing _ (.addUnchecked 2 parentEntry) from hparent) rfl
  exact .step hfirst (show CTxMemPool.Op.Allowed pairing _ (.addUnchecked 4 childEntry) from hchild) rfl

end Example

open Example

theorem mempool_consistent_example :
    (∀ p, familyPool.mapNextTx.lookup { hash := 2, n := 0 } = some p ↔ familyPool.Spends { hash := 2, n := 0 } p) ∧
    familyPool.totalTxSize = (familyPool.mapTx.entries.map fun e => e.2.nTxSize).sum ∧
    ∃ pool', (CTxMemPool.Op.remove parentEntry.tx true).run pairing familyPool = .ok pool' := by
  obtain ⟨hnext, -, htotal, hrun⟩ :=
    mempool_consistent pairing false familyPool familyPool_reached
  refine ⟨hnext _, htotal, ?_⟩
  rcases hrun (.remove parentEntry.tx true) trivial with hok | ⟨-, hsanity⟩
  · exact hok
  · exact absurd hsanity (by decide)

/-- A transaction that spends one outpoint twice leaves only its last input in the index. -/
theorem addUnchecked_double_input :
    let entry := CTxMemPoolEntry.ofTx (spendingTx 1 [{ hash := 10, n := 0 }, { hash := 10, n := 0 }])
    let pool := (CTxMemPool.new false).addUnchecked 2 entry
    pairing.txHash entry.tx = 2 ∧ (CTxMemPool.new false).mapTx.lookup 2 = none ∧
      (∀ txin ∈ entry.tx.vin, (CTxMemPool.new false).mapNextTx.lookup txin.prevout = none) ∧
      pool.Spends { hash := 10, n := 0 } { ptx := 2, n := 0 } ∧
      pool.mapNextTx.lookup { hash := 10, n := 0 } = some { ptx := 2, n := 1 } := by
  refine ⟨by decide, by decide, by decide, ⟨_, rfl, by decide⟩, by decide⟩

end Reddcoin
