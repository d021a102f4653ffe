import Mathlib.Data.List.DropRight
import Reddcoin.Primitives.Transaction

/-!
# Coins

`CCoins` of `coins.h`: the unspent outputs of one transaction with the metadata the validation
rules read.  Spent outputs are null in `vout`, and `cleanup` drops the null ones at the end.  The
reader of a `CCoins` only sees `out?`, the available output at a position.
-/

namespace Reddcoin

variable {a b : CCoins} {c : CCoins}

structure CCoins where
  fCoinBase : Bool
  fCoinStake : Bool
  nTime : Int
  vout : List CTxOut
  nHeight : Nat
  nVersion : Int
deriving DecidableEq

namespace CCoins

/-- The empty constructor. -/
def new : CCoins :=
  { fCoinBase := false, fCoinStake := false, nTime := 0, vout := [], nHeight := 0, nVersion := 0 }

instance : Inhabited CCoins := ⟨new⟩

/-- `Clear` leaves `nTime` as it was. -/
def clear (c : CCoins) : CCoins :=
  { c with fCoinBase := false, fCoinStake := false, vout := [], nHeight := 0, nVersion := 0 }

def cleanup (c : CCoins) : CCoins :=
  { c with vout := c.vout.rdropWhile CTxOut.isNull }

def clearUnspendable (c : CCoins) : CCoins :=
  cleanup { c with vout := c.vout.map fun out =>
    if isUnspendable out.scriptPubKey then CTxOut.null else out }

def fromTx (tx : CTransaction) (nHeightIn : Nat) : CCoins :=
  clearUnspendable
    { fCoinBase := tx.isCoinBase
      fCoinStake := tx.isCoinStake
      nTime := tx.nTime
      vout := tx.vout
      nHeight := nHeightIn
      nVersion := tx.nVersion }

def isAvailable (c : CCoins) (nPos : Nat) : Bool :=
  match c.vout[nPos]? with
  | some out => !out.isNull
  | none => false

def isPruned (c : CCoins) : Bool :=
  c.vout.all CTxOut.isNull

/-- `operator==`: two pruned objects are equal whatever else they hold. -/
def same (a b : CCoins) : Bool :=
  (a.isPruned && b.isPruned) || decide (a = b)

/-- The output at `n` when it is available. -/
def out? (c : CCoins) (n : Nat) : Option CTxOut :=
  (c.vout[n]?).filter fun out => !out.isNull

/-! ## Availability -/

theorem out?_eq_some {n : Nat} {out : CTxOut} : c.out? n = some out ↔ c.vout[n]? = some out ∧ out.isNull = false := by
  simp [out?, Option.filter_eq_some_iff]

theorem isAvailable_eq_isSome (c : CCoins) (n : Nat) : c.isAvailable n = (c.out? n).isSome := by
  unfold isAvailable out?
  cases c.vout[n]? with
  | none => rfl
  | some out => cases h : out.isNull <;> simp [Option.filter, h]

theorem isPruned_iff : c.isPruned ↔ ∀ n, c.out? n = none := by
  constructor
  · intro h n
    rw [isPruned, List.all_eq_true] at h
    by_contra hne
    obtain ⟨out, hout⟩ := Option.ne_none_iff_exists'.mp hne
    obtain ⟨hget, hnull⟩ := out?_eq_some.mp hout
    have hall := h out (List.mem_of_getElem? hget)
    simp [hall] at hnull
  · intro h
    rw [isPruned, List.all_eq_true]
    intro out hmem
    obtain ⟨n, hget⟩ := List.mem_iff_getElem?.mp hmem
    by_contra hnull
    have hsome : c.out? n = some out := out?_eq_some.mpr ⟨hget, by simpa using hnull⟩
    rw [h n] at hsome
    simp at hsome

theorem isPruned_eq_false_iff : c.isPruned = false ↔ ∃ n out, c.out? n = some out := by
  rw [← Bool.not_eq_true, isPruned_iff]
  push Not
  exact exists_congr fun n => Option.ne_none_iff_exists'

@[simp]
theorem isPruned_new : new.isPruned = true := rfl

@[simp]
theorem isPruned_clear (c : CCoins) : c.clear.isPruned = true := rfl

@[simp]
theorem out?_new (n : Nat) : new.out? n = none := by
  simp [out?, new]

@[simp]
theorem out?_clear (c : CCoins) (n : Nat) : c.clear.out? n = none := by
  simp [out?, clear]

theorem rdropWhile_isNull_out? (outs : List CTxOut) (n : Nat) :
    ((outs.rdropWhile CTxOut.isNull)[n]?).filter (fun out => !out.isNull) =
      (outs[n]?).filter fun out => !out.isNull := by
  induction outs using List.reverseRecOn with
  | nil => simp
  | append_singleton outs out ih =>
    by_cases hnull : out.isNull = true
    · rw [List.rdropWhile_concat_pos _ _ _ hnull, ih]
      by_cases hlt : n < outs.length
      · rw [List.getElem?_append_left hlt]
      · rw [List.getElem?_append_right (by omega), List.getElem?_eq_none (by omega)]
        by_cases hzero : n - outs.length = 0
        · simp [hzero, hnull, Option.filter]
        · rw [List.getElem?_eq_none (by simp; omega)]
    · rw [List.rdropWhile_concat_neg _ _ _ hnull]

@[simp]
theorem out?_cleanup (c : CCoins) (n : Nat) : c.cleanup.out? n = c.out? n :=
  rdropWhile_isNull_out? c.vout n

@[simp]
theorem isPruned_cleanup (c : CCoins) : c.cleanup.isPruned = c.isPruned := by
  rw [Bool.eq_iff_iff, isPruned_iff, isPruned_iff]
  simp

/-! ## Clean objects

`Unserialize`, `FromTx`, `Spend` and the destructor of `CCoinsModifier` all end with `Cleanup`. -/

def Clean (c : CCoins) : Prop :=
  c.cleanup = c

instance (c : CCoins) : Decidable c.Clean :=
  inferInstanceAs (Decidable (c.cleanup = c))

theorem clean_cleanup (c : CCoins) : c.cleanup.Clean := by
  simp only [Clean, cleanup, List.rdropWhile_idempotent]

theorem clean_new : new.Clean := rfl

theorem Clean.vout_eq_nil_iff (h : c.Clean) : c.vout = [] ↔ c.isPruned = true := by
  constructor
  · intro hnil
    simp [isPruned, hnil]
  · intro hpruned
    have hvout : c.vout.rdropWhile CTxOut.isNull = c.vout := congrArg CCoins.vout h
    rw [← hvout, List.rdropWhile_eq_nil_iff]
    exact List.all_eq_true.mp hpruned

theorem clean_fromTx (tx : CTransaction) (h : Nat) : (fromTx tx h).Clean :=
  clean_cleanup _

/-! ## Equality up to pruned objects -/

theorem same_iff : a.same b ↔ (a.isPruned ∧ b.isPruned) ∨ a = b := by
  simp [same]

@[simp]
theorem same_refl (a : CCoins) : a.same a = true :=
  same_iff.mpr (.inr rfl)

theorem same_symm (h : a.same b) : b.same a = true := by
  rcases same_iff.mp h with ⟨ha, hb⟩ | heq
  · exact same_iff.mpr (.inl ⟨hb, ha⟩)
  · exact same_iff.mpr (.inr heq.symm)

theorem same_isPruned (h : a.same b) : a.isPruned = b.isPruned := by
  rcases same_iff.mp h with ⟨ha, hb⟩ | heq
  · rw [ha, hb]
  · rw [heq]

theorem same_of_pruned (ha : a.isPruned) (hb : b.isPruned) : a.same b = true :=
  same_iff.mpr (.inl ⟨ha, hb⟩)

theorem same_trans {a b c : CCoins} (hab : a.same b) (hbc : b.same c) :
    a.same c = true := by
  rcases same_iff.mp hab with ⟨ha, hb⟩ | heq
  · exact same_of_pruned ha ((same_isPruned hbc).symm.trans hb)
  · rw [heq]
    exact hbc

theorem same_cleanup (h : a.same b) : a.cleanup.same b.cleanup = true := by
  rcases same_iff.mp h with ⟨ha, hb⟩ | heq
  · exact same_of_pruned (by simpa using ha) (by simpa using hb)
  · rw [heq]
    exact same_refl _

/-! ## The outputs of a transaction -/

/-- The outputs a transaction adds: those that are neither null nor provably unspendable. -/
def spendable? (tx : CTransaction) (n : Nat) : Option CTxOut :=
  (tx.vout[n]?).filter fun out => !out.isNull && !isUnspendable out.scriptPubKey

theorem out?_fromTx (tx : CTransaction) (h n : Nat) : (fromTx tx h).out? n = spendable? tx n := by
  unfold fromTx clearUnspendable
  rw [out?_cleanup]
  simp only [out?, spendable?, List.getElem?_map]
  cases tx.vout[n]? with
  | none => rfl
  | some out => cases hs : isUnspendable out.scriptPubKey <;> simp [Option.filter, hs]

end CCoins

end Reddcoin
