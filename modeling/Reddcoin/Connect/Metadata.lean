import Reddcoin.Connect.RoundTrip

/-!
# Entry metadata across a round trip

The metadata of an entry whose last output a block spends has to survive in the undo record, which
carries neither the coinstake flag nor the time, and in whatever the view still holds for the spent
entry.  The development follows one transaction id `x` that no transaction of the block carries.
-/

namespace Reddcoin

open List

open Utxo (Agree TxsFit)

namespace CCoins

variable {c : CCoins} {x : Uint256} {undo : CTxInUndo} {s : CoinsView × Bool} {vin : List CTxIn}
    {txs : List CTransaction}

/-- `fCoinBase`, `fCoinStake`, `nTime`, `nHeight` and `nVersion`. -/
def metadata (c : CCoins) : Bool × Bool × Int × Nat × Int :=
  (c.fCoinBase, c.fCoinStake, c.nTime, c.nHeight, c.nVersion)

/-- Clean, and with one spelling of the null output. -/
structure Tidy (c : CCoins) : Prop where
  clean : c.Clean
  nulls : ∀ out ∈ c.vout, out.isNull = true → out = CTxOut.null

theorem tidy_cleanup (h : ∀ out ∈ c.vout, out.isNull → out = CTxOut.null) : c.cleanup.Tidy where
  clean := clean_cleanup c
  nulls := fun out ho => h out ((List.rdropWhile_prefix _ _).subset ho)

theorem tidy_spent (h : c.Tidy) (n : Nat) : (c.spent n).Tidy := by
  refine tidy_cleanup fun out ho hnull => ?_
  rcases mem_or_eq_of_mem_set ho with ho | heq
  · exact h.nulls out ho hnull
  · exact heq

theorem tidy_setOut (h : ∀ out ∈ c.vout, out.isNull → out = CTxOut.null)
    (n : Nat) {out : CTxOut} (hout : out.isNull = false) : (c.setOut n out).cleanup.Tidy := by
  refine tidy_cleanup fun o ho hnull => ?_
  rcases mem_or_eq_of_mem_set ho with ho | heq
  · rcases mem_append.mp ho with ho | ho
    · exact h o ho hnull
    · exact eq_of_mem_replicate ho
  · rw [heq, hout] at hnull
    simp at hnull

/-- The entry of a transaction whose outputs all have a value in range. -/
theorem tidy_fromTx {tx : CTransaction} (h : CheckedTransaction tx) (nHeight : Nat) :
    (fromTx tx nHeight).Tidy := by
  refine tidy_cleanup fun out ho hnull => ?_
  obtain ⟨o, hmem, rfl⟩ := mem_map.mp ho
  by_cases hs : isUnspendable o.scriptPubKey = true
  · simp only [hs, if_true]
  · have hrange := (moneyRange_iff.mp (h.values o hmem)).1
    simp only [hs, Bool.false_eq_true, if_false, CTxOut.isNull, decide_eq_true_eq] at hnull
    omega

/-- Beyond the outputs of one tidy entry there are none of another with the same available ones. -/
theorem Tidy.length_le {a b : CCoins} (hb : b.Tidy) (hout : ∀ n, a.out? n = b.out? n) :
    b.vout.length ≤ a.vout.length := by
  by_contra hlt
  have hne : b.vout ≠ [] := by
    intro hnil
    simp [hnil] at hlt
  have hlast := rdropWhile_eq_self_iff.mp (congrArg CCoins.vout hb.clean) hne
  have hsome : b.out? (b.vout.length - 1) = some (b.vout.getLast hne) :=
    out?_eq_some.mpr ⟨by rw [← getLast?_eq_getElem?, getLast?_eq_some_getLast hne], by simpa using hlast⟩
  have hget := (out?_eq_some.mp ((hout _).trans hsome)).1
  rw [getElem?_eq_none (by omega)] at hget
  simp at hget

/-- Tidy entries are determined by their metadata and their available outputs. -/
theorem Tidy.eq_of_out? {a b : CCoins} (ha : a.Tidy) (hb : b.Tidy) (hmeta : a.metadata = b.metadata)
    (hout : ∀ n, a.out? n = b.out? n) : a = b := by
  have hlen : a.vout.length = b.vout.length :=
    Nat.le_antisymm (ha.length_le fun n => (hout n).symm) (hb.length_le hout)
  have hvout : a.vout = b.vout := by
    refine ext_getElem hlen fun n hna hnb => ?_
    have hn := hout n
    simp only [out?, getElem?_eq_getElem hna, getElem?_eq_getElem hnb, Option.filter] at hn
    cases hnull : a.vout[n].isNull <;> cases hnull' : b.vout[n].isNull <;>
      simp only [hnull, hnull', Bool.not_false, Bool.not_true, if_true, Bool.false_eq_true, if_false,
        Option.some.injEq, reduceCtorEq] at hn
    · exact hn
    · rw [ha.nulls _ (getElem_mem hna) hnull, hb.nulls _ (getElem_mem hnb) hnull']
  obtain ⟨h₁, h₂, h₃, h₄, h₅⟩ : a.fCoinBase = b.fCoinBase ∧ a.fCoinStake = b.fCoinStake ∧
      a.nTime = b.nTime ∧ a.nHeight = b.nHeight ∧ a.nVersion = b.nVersion := by
    simpa [metadata] using hmeta
  cases a
  cases b
  simp_all

end CCoins

/-- What the restoring code makes of the metadata of an entry `c` that was fully spent, when the view
holds `left` in its place. -/
def restoredMetadata (c left : CCoins) : Bool × Bool × Int × Nat × Int :=
  if c.nHeight ≠ 0 then
    (c.fCoinBase, false, left.nTime, c.nHeight, CTxInUndo.rereadVersion c.nVersion)
  else left.metadata

/-- The condition under which the record and the remains of a fully spent entry hold all of it. -/
def Recoverable (c left : CCoins) : Prop :=
  if c.nHeight ≠ 0 then c.fCoinStake = false ∧ 0 ≤ c.nVersion ∧ left.nTime = c.nTime
  else left.metadata = c.metadata

theorem restoredMetadata_eq_iff {c left : CCoins} :
    restoredMetadata c left = c.metadata ↔ Recoverable c left := by
  unfold restoredMetadata Recoverable
  by_cases hheight : c.nHeight ≠ 0
  · rw [if_pos hheight, if_pos hheight]
    simp only [CCoins.metadata, Prod.mk.injEq, true_and, CTxInUndo.rereadVersion_eq_self_iff]
    constructor
    · rintro ⟨hstake, htime, hversion⟩
      exact ⟨hstake.symm, hversion, htime⟩
    · rintro ⟨hstake, hversion, htime⟩
      exact ⟨hstake.symm, htime, hversion⟩
  · rw [if_neg hheight, if_neg hheight]

theorem coins_modifyCoins_of_not_pruned {v : CoinsView} {k : Uint256} {f : CCoins → CCoins}
    (h : (f (v.coins k)).isPruned = false) :
    (v.modifyCoins k f).coins k = (f (v.coins k)).cleanup := by
  show ((v.modifyCoins k f).entry k).coins = _
  rw [CoinsView.entry_modifyCoins, h, Bool.and_false]
  rfl

/-! ## One input -/

section

variable {x : Uint256} {c₀ left : CCoins} {full : Bool} {v v' w : CoinsView}

/-- An entry as the block found it, up to outputs that were spent since. -/
structure Keeps (c₀ c : CCoins) : Prop where
  data : c.metadata = c₀.metadata
  tidy : c₀.Tidy → c.Tidy

/-- While the block is connected, an entry that is not yet fully spent keeps its metadata. -/
def Forward (x : Uint256) (c₀ : CCoins) (v : CoinsView) : Prop :=
  (v.coins x).isPruned = false → Keeps c₀ (v.coins x)

/-- The view `w` of the replay against the view `v` of the connection at the same point.  `full` says
that the block spends the entry fully. -/
structure Backward (x : Uint256) (c₀ left : CCoins) (full : Bool) (v w : CoinsView) : Prop where
  pruned : (v.coins x).isPruned = true → full = true ∧ (w.coins x).metadata = left.metadata
  kept : (v.coins x).isPruned = false →
    (w.coins x).metadata = (if full then restoredMetadata c₀ left else c₀.metadata) ∧
    (c₀.Tidy → c₀.nHeight ≠ 0 → (w.coins x).Tidy)

theorem Forward.congr (heq : v'.coins x = v.coins x) (h : Forward x c₀ v) : Forward x c₀ v' := by
  unfold Forward
  rw [heq]
  exact h

theorem Backward.congr {w' : CoinsView} (hv : v'.coins x = v.coins x) (hw : w'.coins x = w.coins x)
    (h : Backward x c₀ left full v w) : Backward x c₀ left full v' w' where
  pruned := by rw [hv, hw]; exact h.pruned
  kept := by rw [hv, hw]; exact h.kept

theorem Forward.spendInput {txin : CTxIn} (hf : Forward x c₀ v)
    (h : spendInput v txin = some (v', undo)) : Forward x c₀ v' := by
  obtain ⟨⟨coins, undo'⟩, hspend, hrest⟩ := Option.bind_eq_some_iff.mp h
  cases hrest
  obtain ⟨out, hout, rfl, rfl⟩ := CCoins.spend_eq_some_iff.mp hspend
  by_cases hx : x = txin.prevout.hash
  · subst hx
    intro hlive
    have hspent : ((v.coins txin.prevout.hash).spent txin.prevout.n).isPruned = false := by
      rw [CCoins.isPruned_eq_false_iff] at hlive ⊢
      obtain ⟨n, o, ho⟩ := hlive
      refine ⟨n, o, ?_⟩
      have hut := CoinsView.out?_modifyCoins_self (v := v) txin.prevout.hash
        (fun _ => (v.coins txin.prevout.hash).spent txin.prevout.n) n
      exact hut.symm.trans ho
    have hkeeps := hf (CCoins.isPruned_eq_false_iff.mpr ⟨_, out, hout⟩)
    rw [coins_modifyCoins_of_not_pruned hspent]
    refine ⟨hkeeps.data, fun ht => ?_⟩
    rw [(CCoins.clean_spent _ _ : CCoins.cleanup _ = _)]
    exact CCoins.tidy_spent (hkeeps.tidy ht) _
  · exact hf.congr (CoinsView.coins_modifyCoins_ne hx _)

/-- The record of the last spend of an entry with metadata `c₀`, as it is read back. -/
theorem onDisk_undoOf_pruned {out : CTxOut} (hpruned : c.isPruned) (hclean : c.Clean) :
    (CCoins.undoOf c out).onDisk =
      { txout := out, fCoinBase := c.fCoinBase, nHeight := c.nHeight
        nVersion := if 0 < c.nHeight then CTxInUndo.rereadVersion c.nVersion else 0 } := by
  unfold CCoins.undoOf
  rw [hclean.vout_eq_nil_iff.mpr hpruned]
  rfl

theorem onDisk_undoOf_live {out : CTxOut} (hlive : c.isPruned = false) :
    (CCoins.undoOf c out).onDisk = { txout := out, fCoinBase := false, nHeight := 0, nVersion := 0 } := by
  unfold CCoins.undoOf
  have hne : c.vout.isEmpty = false := by
    cases hvout : c.vout with
    | nil => simp [CCoins.isPruned, hvout] at hlive
    | cons out outs => rfl
  rw [hne]
  rfl

theorem restore_not_pruned (c : CCoins) (n : Nat) (hout : undo.txout.isNull = false) :
    (c.restore n undo).isPruned = false := by
  refine CCoins.isPruned_eq_false_iff.mpr ⟨n, undo.txout, ?_⟩
  unfold CCoins.restore
  rw [CCoins.out?_setOut _ hout, if_pos rfl]

/-- Restoring the input that was spent last brings back what the record holds; restoring any other
input leaves the metadata alone. -/
theorem Backward.restoreInput {txin : CTxIn} (hf : Forward x c₀ v) (h : Reddcoin.spendInput v txin = some (v', undo))
    (hb : Backward x c₀ left full v' s.1) :
    Backward x c₀ left full v (restoreInput s txin undo.onDisk).1 := by
  obtain ⟨⟨coins, undo'⟩, hspend, hrest⟩ := Option.bind_eq_some_iff.mp h
  cases hrest
  obtain ⟨out, hout, rfl, rfl⟩ := CCoins.spend_eq_some_iff.mp hspend
  by_cases hx : x = txin.prevout.hash
  · subst hx
    have hlive : (v.coins txin.prevout.hash).isPruned = false :=
      CCoins.isPruned_eq_false_iff.mpr ⟨_, out, hout⟩
    have hnull : out.isNull = false := (CCoins.out?_eq_some.mp hout).2
    have hkeeps := hf hlive
    set c := v.coins txin.prevout.hash with hc
    have hmid : ((v.modifyCoins txin.prevout.hash fun _ => c.spent txin.prevout.n).coins
        txin.prevout.hash).isPruned = (c.spent txin.prevout.n).isPruned := by
      rw [Bool.eq_iff_iff, CCoins.isPruned_iff, CCoins.isPruned_iff]
      exact forall_congr' fun n => by
        rw [← CoinsView.out?_modifyCoins_self (v := v) txin.prevout.hash
          (fun _ => c.spent txin.prevout.n) n]
        rfl
    refine ⟨fun hp => by rw [← hc, hlive] at hp; simp at hp, fun _ => ?_⟩
    have hres : ∀ undo : CTxInUndo, undo.txout.isNull = false →
        (Reddcoin.restoreInput s txin undo).1.coins txin.prevout.hash =
          ((s.1.coins txin.prevout.hash).restore txin.prevout.n undo).cleanup := fun undo hu =>
      coins_modifyCoins_of_not_pruned (restore_not_pruned _ _ hu)
    have hheight : c.nHeight = c₀.nHeight := congrArg (fun m => m.2.2.2.1) hkeeps.data
    have hbase : c.fCoinBase = c₀.fCoinBase := congrArg (fun m => m.1) hkeeps.data
    have hversion : c.nVersion = c₀.nVersion := congrArg (fun m => m.2.2.2.2) hkeeps.data
    cases hpruned : (c.spent txin.prevout.n).isPruned with
    | true =>
      obtain ⟨hfull, hleft⟩ := hb.pruned (hmid.trans hpruned)
      rw [onDisk_undoOf_pruned hpruned (CCoins.clean_spent _ _), hres _ hnull, hfull]
      unfold CCoins.restore restoredMetadata
      by_cases hz : c₀.nHeight ≠ 0
      · rw [show (c.spent txin.prevout.n).nHeight = c₀.nHeight from hheight,
          show (c.spent txin.prevout.n).fCoinBase = c₀.fCoinBase from hbase,
          show (c.spent txin.prevout.n).nVersion = c₀.nVersion from hversion]
        simp only [if_pos hz, if_pos (Nat.pos_of_ne_zero hz)]
        have htime : (s.1.coins txin.prevout.hash).nTime = left.nTime :=
          congrArg (fun m => m.2.2.1) hleft
        refine ⟨?_, fun _ _ => CCoins.tidy_setOut (fun o ho => by simp [CCoins.clear] at ho) _ hnull⟩
        rw [← htime]
        rfl
      · rw [show (c.spent txin.prevout.n).nHeight = c₀.nHeight from hheight]
        simp only [if_neg hz]
        exact ⟨hleft, fun _ hpos => absurd hpos hz⟩
    | false =>
      obtain ⟨hdata, htidy⟩ := hb.kept (hmid.trans hpruned)
      rw [onDisk_undoOf_live hpruned, hres _ hnull]
      refine ⟨hdata, fun ht hz => ?_⟩
      exact CCoins.tidy_setOut (htidy ht hz).nulls _ hnull
  · exact hb.congr (CoinsView.coins_modifyCoins_ne hx _).symm (CoinsView.coins_modifyCoins_ne hx _)

/-! ## Transactions -/

theorem Forward.spendInputs {undos : CTxUndo} (hf : Forward x c₀ v)
    (h : spendInputs v vin = some (v', undos)) : Forward x c₀ v' := by
  induction vin generalizing v undos with
  | nil =>
    cases h
    exact hf
  | cons txin vin ih =>
    obtain ⟨⟨mid, undo⟩, hhead, h⟩ := Option.bind_eq_some_iff.mp h
    obtain ⟨⟨last, rest⟩, htail, h⟩ := Option.bind_eq_some_iff.mp h
    cases h
    exact ih (hf.spendInput hhead) htail

theorem Backward.restoreInputs {undos : CTxUndo} (hf : Forward x c₀ v)
    (h : Reddcoin.spendInputs v vin = some (v', undos))
    (hb : Backward x c₀ left full v' s.1) :
    Backward x c₀ left full v (restoreInputs s (vin.zip (undos.map CTxInUndo.onDisk))).1 := by
  induction vin generalizing v undos with
  | nil =>
    cases h
    exact hb
  | cons txin vin ih =>
    obtain ⟨⟨mid, undo⟩, hhead, h⟩ := Option.bind_eq_some_iff.mp h
    obtain ⟨⟨last, rest⟩, htail, h⟩ := Option.bind_eq_some_iff.mp h
    cases h
    exact Backward.restoreInput hf hhead (ih (hf.spendInput hhead) htail)

variable {C : Crypto} {tx : CTransaction} {nHeight : Nat}

theorem coins_addOutputs_ne (hx : x ≠ C.txHash tx) :
    (addOutputs C v tx nHeight).coins x = v.coins x :=
  CoinsView.coins_modifyCoins_ne hx _

theorem coins_removeOutputs_ne (hx : x ≠ C.txHash tx) : (removeOutputs C nHeight s tx).1.coins x = s.1.coins x :=
  CoinsView.coins_modifyCoins_ne hx _

theorem Forward.updateCoins {txundo : CTxUndo} (hx : x ≠ C.txHash tx) (hf : Forward x c₀ v)
    (h : updateCoins C v tx nHeight = some (v', txundo)) : Forward x c₀ v' := by
  obtain ⟨⟨mid, undos⟩, hspend, h⟩ := Option.bind_eq_some_iff.mp h
  cases h
  refine Forward.congr (coins_addOutputs_ne hx) ?_
  unfold spendTx at hspend
  cases hcb : tx.isCoinBase with
  | true =>
    rw [hcb] at hspend
    cases hspend
    exact hf
  | false =>
    rw [hcb] at hspend
    exact hf.spendInputs hspend

theorem Backward.disconnectTx {txundo : CTxUndo} {s s' : CoinsView × Bool} {h' : Nat}
    (hx : x ≠ C.txHash tx) (hcb : tx.isCoinBase = false) (hf : Forward x c₀ v)
    (h : Reddcoin.updateCoins C v tx nHeight = some (v', txundo))
    (hb : Backward x c₀ left full v' s.1)
    (hs : Reddcoin.disconnectTx C h' s tx (some (txundo.map CTxInUndo.onDisk)) = .ok s') :
    Backward x c₀ left full v s'.1 := by
  obtain ⟨⟨mid, undos⟩, hspend, h⟩ := Option.bind_eq_some_iff.mp h
  cases h
  simp only [Reddcoin.disconnectTx, check_seq_ok, check_pure_ok] at hs
  obtain ⟨-, hs⟩ := hs
  rw [← hs]
  unfold spendTx at hspend
  rw [hcb] at hspend
  exact Backward.restoreInputs hf hspend
    (hb.congr (coins_addOutputs_ne hx).symm (coins_removeOutputs_ne hx))

/-- Undoing the transactions of a block after its coinbase. -/
theorem Backward.disconnectTxs {undos : List CTxUndo}
    {s s' : CoinsView × Bool} {h' : Nat} (hx : ∀ tx ∈ txs, x ≠ C.txHash tx)
    (hcb : ∀ tx ∈ txs, tx.isCoinBase = false) (hf : Forward x c₀ v)
    (h : updateAll C nHeight v txs = some (v', undos)) (hb : Backward x c₀ left full v' s.1)
    (hs : Reddcoin.disconnectTxs C h' s (txs.zip ((undos.map fun txundo =>
      txundo.map CTxInUndo.onDisk).map some)) = .ok s') : Backward x c₀ left full v s'.1 := by
  induction txs generalizing v undos s' with
  | nil =>
    cases h
    rw [← check_pure_ok.mp hs]
    exact hb
  | cons tx txs ih =>
    obtain ⟨⟨mid, undo⟩, hhead, h⟩ := Option.bind_eq_some_iff.mp h
    obtain ⟨⟨last, rest⟩, htail, h⟩ := Option.bind_eq_some_iff.mp h
    cases h
    obtain ⟨t, ht, hs⟩ := check_bind_ok.mp hs
    have hx' := hx tx mem_cons_self
    have hback := ih (fun t ht => hx t (mem_cons_of_mem _ ht))
      (fun t ht => hcb t (mem_cons_of_mem _ ht)) (hf.updateCoins hx' hhead) htail ht
    exact hback.disconnectTx hx' (hcb tx mem_cons_self) hf hhead hs

theorem Forward.updateAll {undos : List CTxUndo} (hx : ∀ tx ∈ txs, x ≠ C.txHash tx) (hf : Forward x c₀ v)
    (h : updateAll C nHeight v txs = some (v', undos)) : Forward x c₀ v' := by
  induction txs generalizing v undos with
  | nil =>
    cases h
    exact hf
  | cons tx txs ih =>
    obtain ⟨⟨mid, undo⟩, hhead, h⟩ := Option.bind_eq_some_iff.mp h
    obtain ⟨⟨last, rest⟩, htail, h⟩ := Option.bind_eq_some_iff.mp h
    cases h
    exact ih (fun t ht => hx t (mem_cons_of_mem _ ht))
      (hf.updateCoins (hx tx mem_cons_self) hhead) htail

end

/-! ## Which entries a block spends fully -/

/-- A transaction with inputs spends the outpoint. -/
def SpendsOutput (txs : List CTransaction) (o : COutPoint) : Prop :=
  ∃ tx ∈ txs, tx.isCoinBase = false ∧ ∃ txin ∈ tx.vin, txin.prevout = o

/-- The block spends every output that the view holds for `x`. -/
def SpendsAll (V : CoinsView) (block : CBlock) (x : Uint256) : Prop :=
  ∀ n out, V.out? x n = some out → SpendsOutput block.vtx { hash := x, n := n }

theorem Utxo.spendAll_eq_none_iff {U : Utxo} {n : Nat} :
    U.spendAll vin x n = none ↔ U x n = none ∨ ∃ txin ∈ vin, txin.prevout = { hash := x, n := n } := by
  induction vin generalizing U with
  | nil => simp [Utxo.spendAll]
  | cons txin vin ih =>
    show (U.spend txin.prevout).spendAll vin x n = none ↔ _
    rw [ih]
    have hspend : U.spend txin.prevout x n = none ↔ U x n = none ∨ txin.prevout = { hash := x, n := n } := by
      unfold Utxo.spend
      by_cases hmatch : x = txin.prevout.hash ∧ n = txin.prevout.n
      · obtain ⟨rfl, rfl⟩ := hmatch
        simp
      · rw [if_neg hmatch]
        refine ⟨.inl, fun h => h.resolve_right fun heq => hmatch ?_⟩
        rw [heq]
        exact ⟨rfl, rfl⟩
    rw [hspend]
    simp only [mem_cons, exists_eq_or_imp, or_assoc]

theorem Utxo.applyTxs_eq_none_iff {C : Crypto} {U : Utxo} {n : Nat} (hx : ∀ tx ∈ txs, x ≠ C.txHash tx) :
    U.applyTxs C txs x n = none ↔ U x n = none ∨ SpendsOutput txs { hash := x, n := n } := by
  induction txs generalizing U with
  | nil => simp [Utxo.applyTxs, SpendsOutput]
  | cons tx txs ih =>
    show (U.applyTx C tx).applyTxs C txs x n = none ↔ _
    rw [ih fun t ht => hx t (mem_cons_of_mem _ ht)]
    have hhead : U.applyTx C tx x n = none ↔ U x n = none ∨
        (tx.isCoinBase = false ∧ ∃ txin ∈ tx.vin, txin.prevout = { hash := x, n := n }) := by
      unfold Utxo.applyTx Utxo.add
      rw [if_neg (hx tx mem_cons_self)]
      cases tx.isCoinBase with
      | true => simp
      | false => simp [Utxo.spendAll_eq_none_iff]
    rw [hhead]
    simp only [SpendsOutput, mem_cons, exists_eq_or_imp, or_assoc]

/-! ## The block -/

/-- At the end of the block the replay starts from what the connection left. -/
theorem Backward.start {c₀ : CCoins} {v w : CoinsView} (hf : Forward x c₀ v) (hsame : SameCoins w v) :
    Backward x c₀ (w.coins x) (v.coins x).isPruned v w where
  pruned := fun hp => ⟨hp, rfl⟩
  kept := fun hlive => by
    rw [hlive, hsame.coins_eq hlive]
    exact ⟨(hf hlive).data, fun ht _ => (hf hlive).tidy ht⟩

section

variable {P : CChainParams} {C : Crypto} {ctx : ConnectContext} {block : CBlock} {V R : CoinsView}
  {r : ConnectResult}

/-- A block is undone by undoing the transactions after its coinbase, and the coinbase, when it is
undone at all, touches no other entry. -/
theorem undoneTxs_rest {cb : CTransaction} {rest : List CTransaction} {undos : CBlockUndo}
    {nHeight : Nat} {s s' : CoinsView × Bool} (hvtx : block.vtx = cb :: rest)
    (h : disconnectTxs C nHeight s (undoneTxs block undos) = .ok s') :
    ∃ mid, disconnectTxs C nHeight s (rest.zip (undos.map some)) = .ok mid ∧
      ∀ x, x ≠ C.txHash cb → s'.1.coins x = mid.1.coins x := by
  unfold undoneTxs at h
  rw [hvtx] at h
  cases hpos : block.isProofOfStake with
  | true =>
    rw [hpos] at h
    exact ⟨s', h, fun _ _ => rfl⟩
  | false =>
    rw [hpos] at h
    obtain ⟨mid, hmid, h⟩ := check_bind_ok.mp h
    refine ⟨mid, hmid, fun x hx => ?_⟩
    rw [← check_pure_ok.mp h]
    exact coins_removeOutputs_ne hx

/-- Every view with the same entries as the connected block left is undone, and what was unspent before
the block is available again. -/
theorem disconnectBlock_sameCoins (hgenesis : block.getHash C ≠ P.hashGenesisBlock)
    (hhash : ctx.hashBlock ≠ 0) (h : connectBlock P C ctx block V false = .ok r)
    (hnew : ∀ tx ∈ block.vtx, (V.coins (C.txHash tx)).isPruned)
    (hR : SameCoins R r.view) (hbestR : R.getBestBlock = r.view.getBestBlock) :
    ∃ W clean, disconnectBlock C ctx block r.blockundo R = .ok (W, clean) ∧
      ∀ x, (V.coins x).isPruned = false → ∀ n, W.out? x n = V.out? x n := by
  have hacc := connectBlock_ok hgenesis h
  obtain ⟨cb, rest, hvtx, hcb, hrest⟩ := hacc.checked.coinbase
  have hbest : ctx.hashBlock = R.getBestBlock := by
    rw [hbestR, hacc.getBestBlock hhash]
  have hspent : ∀ tx ∈ block.vtx, V.utxo.Spent (C.txHash tx) :=
    fun tx htx => CoinsView.spent_iff.mpr (hnew tx htx)
  have hag : ∀ D, Agree D (V.utxo.applyTxs C block.vtx) R.utxo := fun D => by
    rw [hR.utxo_eq, hacc.utxo_eq]
    exact Agree.refl _
  cases hpos : block.isProofOfStake with
  | false =>
    obtain ⟨W, clean, hW, hagW⟩ := disconnectBlock_work (D := ∅) hvtx hcb hrest hpos hbest
      (hacc.undo_fits hvtx) (fun tx htx _ => hspent tx htx) (hag ∅)
    exact ⟨_, clean, hW, fun x _ n => (hagW x (Set.notMem_empty x) n).symm⟩
  | true =>
    obtain ⟨W, clean, hW, hagW⟩ := disconnectBlock_stake (D := {C.txHash cb}) hvtx hrest hpos hbest
      (hacc.undo_fits hvtx)
      (fun tx htx hd => (hspent tx (by rw [hvtx]; exact mem_cons_of_mem _ htx)).applyTx
        hd) (hag _)
    refine ⟨_, clean, hW, fun x hlive n => ?_⟩
    have hne : x ≠ C.txHash cb := by
      intro heq
      rw [heq, hnew cb (by rw [hvtx]; exact mem_cons_self)] at hlive
      simp at hlive
    have hout := (hagW x hne n).symm
    simp only [Utxo.applyTx, Utxo.add, if_neg hne, hcb, if_true] at hout
    exact hout

/-- The replay of a connected block, and what it makes of the metadata of an entry. -/
theorem disconnectBlock_replay (hgenesis : block.getHash C ≠ P.hashGenesisBlock)
    (h : connectBlock P C ctx block V false = .ok r) (hR : SameCoins R r.view)
    {W : CoinsView} {clean : Bool}
    (hW : disconnectBlock C ctx block r.blockundo R = .ok (W, clean)) (hx : ∀ tx ∈ block.vtx, x ≠ C.txHash tx) :
    ∃ full : Bool, (full ↔ SpendsAll V block x) ∧ Backward x (V.coins x) (R.coins x) full V W := by
  have hacc := connectBlock_ok hgenesis h
  obtain ⟨last, undos, hall, hundo, hview⟩ := hacc.updates
  obtain ⟨cb, rest, hvtx, hcb, hrest⟩ := hacc.checked.coinbase
  have hsame : SameCoins R last := fun k => by
    have hk := hR k
    rw [hview] at hk
    exact hk
  have hmap := (updateAll_ok (D := ∅) hall).1
  obtain ⟨s, hs, rfl, -⟩ := disconnectBlock_ok hW
  obtain ⟨mid, hmid, hkeep⟩ := undoneTxs_rest hvtx hs
  have hforward : Forward x (V.coins x) V := fun _ => ⟨rfl, id⟩
  refine ⟨(last.coins x).isPruned, ?_, ?_⟩
  · rw [← CoinsView.spent_iff, hmap]
    unfold Utxo.Spent SpendsAll
    refine forall_congr' fun n => ?_
    rw [Utxo.applyTxs_eq_none_iff hx]
    show V.out? x n = none ∨ _ ↔ _
    cases V.out? x n <;> simp
  · have hstart := Backward.start (hforward.updateAll hx hall) hsame
    rw [hvtx] at hall hx
    obtain ⟨⟨first, undo⟩, hhead, h⟩ := Option.bind_eq_some_iff.mp hall
    obtain ⟨⟨last', undos'⟩, htail, h⟩ := Option.bind_eq_some_iff.mp h
    cases h
    have hcbid := hx cb mem_cons_self
    have hfirst : first.coins x = V.coins x := by
      simp only [updateCoins, spendTx, hcb, if_true, Option.bind_eq_bind, Option.bind_some] at hhead
      cases hhead
      exact coins_addOutputs_ne hcbid
    rw [hundo] at hmid
    have hback := Backward.disconnectTxs (fun t ht => hx t (mem_cons_of_mem _ ht)) hrest
      (hforward.congr hfirst) htail hstart hmid
    exact hback.congr hfirst.symm (hkeep x hcbid)

/-! ## What the metadata decides -/

variable {W : CoinsView} {x : Uint256}

theorem accessCoins_of_live {v : CoinsView} (hlive : (v.coins x).isPruned = false) :
    v.accessCoins x = some (v.coins x) := by
  rcases CoinsView.accessCoins_eq (v := v) x with hsome | ⟨-, hnew⟩
  · exact hsome
  · rw [hnew] at hlive
    simp at hlive

/-- `CheckInputs` judges an input by the metadata and the output it spends. -/
theorem checkInput_congr (hmeta : (W.coins x).metadata = (V.coins x).metadata)
    (hout : ∀ n, W.out? x n = V.out? x n) (nSpendHeight : Nat) (tx : CTransaction) (nValueIn : Int)
    {txin : CTxIn} (hx : txin.prevout.hash = x) (havail : (V.out? x txin.prevout.n).isSome) :
    checkInput W nSpendHeight tx nValueIn txin = checkInput V nSpendHeight tx nValueIn txin := by
  obtain ⟨out, hV⟩ := Option.isSome_iff_exists.mp havail
  have hW := (hout _).trans hV
  obtain ⟨hbase, hstake, htime, hheight, -⟩ : (W.coins x).fCoinBase = (V.coins x).fCoinBase ∧
      (W.coins x).fCoinStake = (V.coins x).fCoinStake ∧ (W.coins x).nTime = (V.coins x).nTime ∧
      (W.coins x).nHeight = (V.coins x).nHeight ∧ (W.coins x).nVersion = (V.coins x).nVersion := by
    simpa [CCoins.metadata] using hmeta
  unfold checkInput
  rw [hx, accessCoins_of_live (CCoins.isPruned_eq_false_iff.mpr ⟨_, out, hW⟩),
    accessCoins_of_live (CCoins.isPruned_eq_false_iff.mpr ⟨_, out, hV⟩)]
  show (require _ _ >>= fun _ => _) = (require _ _ >>= fun _ => _)
  rw [hbase, hstake, htime, hheight, (CCoins.out?_eq_some.mp hW).1, (CCoins.out?_eq_some.mp hV).1]

/-- An entry as its transaction created it is found without a mismatch. -/
theorem outsFound_fromTx (tx : CTransaction) (nHeight : Nat) :
    outsFound (CCoins.fromTx tx nHeight) (CCoins.fromTx tx nHeight) = CCoins.fromTx tx nHeight := by
  have hspendable : (CCoins.fromTx tx nHeight).clearUnspendable = CCoins.fromTx tx nHeight := by
    have hmap : ((CCoins.fromTx tx nHeight).vout.map fun out =>
        if isUnspendable out.scriptPubKey then CTxOut.null else out) = (CCoins.fromTx tx nHeight).vout := by
      refine (map_congr_left (g := id) fun out ho => ?_).trans (map_id _)
      obtain ⟨o, -, rfl⟩ := mem_map.mp ((List.rdropWhile_prefix _ _).subset ho)
      cases hs : isUnspendable o.scriptPubKey <;> simp [hs]
    unfold CCoins.clearUnspendable
    rw [hmap]
    exact CCoins.clean_fromTx tx nHeight
  unfold outsFound
  rw [hspendable]
  by_cases hversion : (CCoins.fromTx tx nHeight).nVersion < 0
  · simp only [hversion, if_true]
    rw [if_neg fun h => h.2 h.1]
  · simp only [hversion, if_false]
    rw [if_neg fun h => h.2 h.1]

end

/-- The entry of a coinstake with one output left. -/
def Example.stakeCoins : CCoins :=
  { Example.coins with fCoinStake := true }

end Reddcoin
