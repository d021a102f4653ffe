import Reddcoin.Connect.Metadata
import Reddcoin.Index.State

/-!
# Entries with unspent outputs

A property of entries that spending an output keeps holds of every entry with unspent outputs, through any number of
transactions, if it holds of the entries that these create.
-/

namespace Reddcoin

open Option

/-- The entries that are not pruned have the property. -/
def LiveEntries (Q : Uint256 → CCoins → Prop) (v : CoinsView) : Prop :=
  ∀ k, (v.coins k).isPruned = false → Q k (v.coins k)

section

variable {C : Crypto} {Q : Uint256 → CCoins → Prop} {v v' : CoinsView} {tx : CTransaction} {nHeight : Nat}

@[simp]
theorem coins_flush (k : Uint256) : v.flush.coins k = v.coins k := by
  have hempty : CCoinsViewCache.new.cacheCoins.lookup k = none := AList.lookup_empty k
  show (CCoinsViewCache.new.modifierEntry k (v.accessCoins k)).coins = _
  unfold CCoinsViewCache.modifierEntry
  rw [hempty]
  rcases CoinsView.accessCoins_eq (v := v) k with hsome | ⟨hnone, hnew⟩
  · rw [hsome]
    rfl
  · rw [hnone, hnew]
    rfl

@[simp]
theorem utxo_flush : v.flush.utxo = v.utxo := by
  funext k n
  show (v.flush.coins k).out? n = _
  rw [coins_flush]
  rfl

theorem LiveEntries.flush (h : LiveEntries Q v) : LiveEntries Q v.flush := by
  intro k hlive
  rw [coins_flush] at hlive ⊢
  exact h k hlive

theorem LiveEntries.same (h : LiveEntries Q v) (hsame : SameCoins v' v) : LiveEntries Q v' := by
  intro k hlive
  rcases CCoins.same_iff.mp (hsame k) with ⟨hpruned, -⟩ | heq
  · rw [hlive] at hpruned
    cases hpruned
  · rw [heq] at hlive ⊢
    exact h k hlive

theorem LiveEntries.mono {Q' : Uint256 → CCoins → Prop} (h : LiveEntries Q v) (himp : ∀ k c, Q k c → Q' k c) :
    LiveEntries Q' v :=
  fun k hlive => himp k _ (h k hlive)

/-- An available output belongs to an entry that is not pruned. -/
theorem LiveEntries.of_out? (h : LiveEntries Q v) {k : Uint256} {n : Nat} {out : CTxOut}
    (hout : v.out? k n = some out) : Q k (v.coins k) :=
  h k (CCoins.isPruned_eq_false_iff.mpr ⟨n, out, hout⟩)

/-- What a modification leaves unspent is its result. -/
theorem coins_modifyCoins_of_live {k : Uint256} {c : CCoins} (hclean : c.Clean)
    (hlive : ((v.modifyCoins k fun _ => c).coins k).isPruned = false) :
    c.isPruned = false ∧ (v.modifyCoins k fun _ => c).coins k = c := by
  have hnot : c.isPruned = false := by
    rw [CCoins.isPruned_eq_false_iff] at hlive ⊢
    obtain ⟨n, out, hout⟩ := hlive
    exact ⟨n, out, (CoinsView.out?_modifyCoins_self (v := v) k (fun _ => c) n).symm.trans hout⟩
  refine ⟨hnot, ?_⟩
  rw [coins_modifyCoins_of_not_pruned hnot]
  exact hclean

theorem LiveEntries.modifyCoins (h : LiveEntries Q v) {k : Uint256} {c : CCoins} (hclean : c.Clean)
    (hc : c.isPruned = false → Q k c) : LiveEntries Q (v.modifyCoins k fun _ => c) := by
  intro k' hlive
  by_cases heq : k' = k
  · subst heq
    obtain ⟨hnot, hcoins⟩ := coins_modifyCoins_of_live hclean hlive
    rw [hcoins]
    exact hc hnot
  · rw [CoinsView.coins_modifyCoins_ne heq] at hlive ⊢
    exact h k' hlive

section

variable (hspent : ∀ k c n, Q k c → Q k (c.spent n)) (h : LiveEntries Q v)

include hspent h

theorem LiveEntries.spendInput {txin : CTxIn}
    {undo : CTxInUndo} (hrun : spendInput v txin = some (v', undo)) : LiveEntries Q v' := by
  obtain ⟨⟨coins, undo'⟩, hspend, hrest⟩ := bind_eq_some_iff.mp hrun
  cases hrest
  obtain ⟨out, hout, rfl, rfl⟩ := CCoins.spend_eq_some_iff.mp hspend
  exact h.modifyCoins (CCoins.clean_spent _ _) fun _ => hspent _ _ _ (h.of_out? hout)

theorem LiveEntries.spendInputs {vin : List CTxIn} {undos : CTxUndo} (hrun : spendInputs v vin = some (v', undos)) :
    LiveEntries Q v' := by
  induction vin generalizing v undos with
  | nil =>
    cases hrun
    exact h
  | cons txin vin ih =>
    obtain ⟨⟨mid, undo⟩, hhead, hrun⟩ := bind_eq_some_iff.mp hrun
    obtain ⟨⟨last, rest⟩, htail, hrun⟩ := bind_eq_some_iff.mp hrun
    cases hrun
    exact ih (h.spendInput hspent hhead) htail

theorem LiveEntries.updateCoins (hnew : Q (C.txHash tx) (CCoins.fromTx tx nHeight)) {undo : CTxUndo}
    (hrun : updateCoins C v tx nHeight = some (v', undo)) : LiveEntries Q v' := by
  obtain ⟨⟨mid, undos⟩, hspend, hrun⟩ := bind_eq_some_iff.mp hrun
  cases hrun
  have hmid : LiveEntries Q mid := by
    unfold spendTx at hspend
    cases hcb : tx.isCoinBase with
    | true =>
      rw [hcb] at hspend
      cases hspend
      exact h
    | false =>
      rw [hcb] at hspend
      exact h.spendInputs hspent hspend
  exact hmid.modifyCoins (CCoins.clean_fromTx tx nHeight) fun _ => hnew

theorem LiveEntries.updateAll {txs : List CTransaction} (hnew : ∀ tx ∈ txs, Q (C.txHash tx) (CCoins.fromTx tx nHeight))
    {undos : List CTxUndo} (hrun : updateAll C nHeight v txs = some (v', undos)) : LiveEntries Q v' := by
  induction txs generalizing v undos with
  | nil =>
    cases hrun
    exact h
  | cons tx txs ih =>
    obtain ⟨⟨mid, undo⟩, hhead, hrun⟩ := bind_eq_some_iff.mp hrun
    obtain ⟨⟨last, rest⟩, htail, hrun⟩ := bind_eq_some_iff.mp hrun
    cases hrun
    exact ih (h.updateCoins hspent (hnew tx List.mem_cons_self) hhead)
      (fun t ht => hnew t (List.mem_cons_of_mem _ ht)) htail

end

end

/-! ## Whether a transaction can be applied -/

section

variable {C : Crypto} {v v' : CoinsView} {tx : CTransaction}

theorem haveInputs_iff (hcb : tx.isCoinBase = false) :
    haveInputs v tx ↔ ∀ txin ∈ tx.vin, (v.utxo txin.prevout.hash txin.prevout.n).isSome = true := by
  unfold haveInputs
  rw [hcb, Bool.false_or, List.all_eq_true]
  refine forall₂_congr fun txin _ => ?_
  rcases CoinsView.accessCoins_eq (v := v) txin.prevout.hash with hsome | ⟨hnone, hnew⟩
  · rw [hsome]
    exact Iff.of_eq (congrArg (· = true) (CCoins.isAvailable_eq_isSome _ _))
  · rw [hnone]
    show _ ↔ ((v.coins txin.prevout.hash).out? txin.prevout.n).isSome = true
    rw [hnew]
    simp

/-- Distinct inputs that are available can be spent one after another. -/
theorem spendInputs_available {vin : List CTxIn} (hnodup : (vin.map CTxIn.prevout).Nodup)
    (havail : ∀ txin ∈ vin, (v.utxo txin.prevout.hash txin.prevout.n).isSome) :
    ∃ v' undos, spendInputs v vin = some (v', undos) := by
  induction vin generalizing v with
  | nil => exact ⟨v, [], rfl⟩
  | cons txin vin ih =>
    rw [List.map_cons, List.nodup_cons] at hnodup
    obtain ⟨out, hout⟩ := isSome_iff_exists.mp (havail txin List.mem_cons_self)
    have hspend : ∃ mid undo, spendInput v txin = some (mid, undo) := by
      have hcoins := CCoins.spend_eq_some_iff.mpr ⟨out, hout, rfl, rfl⟩
      exact ⟨_, _, by rw [spendInput, hcoins]; rfl⟩
    obtain ⟨mid, undo, hmid⟩ := hspend
    have hutxo := (spendInput_ok (D := ∅) hmid).1
    have hothers : ∀ txin' ∈ vin, (mid.utxo txin'.prevout.hash txin'.prevout.n).isSome = true := by
      intro txin' htxin'
      rw [hutxo]
      unfold Utxo.spend
      rw [if_neg]
      · exact havail txin' (List.mem_cons_of_mem _ htxin')
      · rintro ⟨hhash, hn⟩
        refine hnodup.1 (List.mem_map.mpr ⟨txin', htxin', ?_⟩)
        cases hp : txin'.prevout
        cases hq : txin.prevout
        simp_all
    obtain ⟨v', undos, hv'⟩ := ih hnodup.2 hothers
    refine ⟨v', undo :: undos, ?_⟩
    simp only [spendInputs, hmid, bind_eq_bind, bind_some, hv']
    rfl

theorem updateCoins_available (hcb : tx.isCoinBase = false) (hnodup : (tx.vin.map CTxIn.prevout).Nodup)
    (hhave : haveInputs v tx) (nHeight : Nat) : ∃ v' undo, updateCoins C v tx nHeight = some (v', undo) := by
  obtain ⟨mid, undos, hmid⟩ := spendInputs_available hnodup ((haveInputs_iff hcb).mp hhave)
  refine ⟨addOutputs C mid tx nHeight, undos, ?_⟩
  simp only [updateCoins, spendTx, hcb, Bool.false_eq_true, if_false, hmid, bind_eq_bind, bind_some]
  rfl

end

end Reddcoin
