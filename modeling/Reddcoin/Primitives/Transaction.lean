import Mathlib.Algebra.BigOperators.Group.List.Basic
import Mathlib.Tactic.Ring
import Mathlib.Tactic.Linarith

/-!
# Transactions

The amounts of `amount.h` and the transaction types of `primitives/transaction.h`.  A `uint256`
is the natural number it denotes, a script is its bytes, and an `int64_t` (a `CAmount`, a
time) is an integer together with an explicit `wrap64` where the code adds or subtracts amounts.
-/

namespace Reddcoin

variable {tx : CTransaction}

abbrev Uint256 := Nat

abbrev CScript := List UInt8

/-- Two's complement reduction of an integer to `int64_t`. -/
def wrap64 (x : Int) : Int :=
  Int.bmod x (2 ^ 64)

theorem wrap64_range (x : Int) : -(2 ^ 63) ≤ wrap64 x ∧ wrap64 x < 2 ^ 63 := by
  unfold wrap64
  exact ⟨Int.le_bmod (by norm_num), Int.bmod_lt (by norm_num)⟩

theorem wrap64_eq_add (x : Int) : ∃ k : Int, wrap64 x = x + 2 ^ 64 * k := by
  refine ⟨-(Int.bdiv x (2 ^ 64)), ?_⟩
  have h := Int.bmod_eq_self_sub_mul_bdiv x (2 ^ 64)
  unfold wrap64
  rw [h]
  push_cast
  ring

theorem wrap64_of_range {x : Int} (hlo : -(2 ^ 63) ≤ x) (hhi : x < 2 ^ 63) : wrap64 x = x := by
  obtain ⟨k, hk⟩ := wrap64_eq_add x
  have hrange := wrap64_range x
  omega

def COIN : Int := 100000000

def CENT : Int := 1000000

def MAX_MONEY : Int := 92233720368 * COIN

def moneyRange (nValue : Int) : Bool :=
  decide (0 ≤ nValue) && decide (nValue ≤ MAX_MONEY)

@[simp]
theorem moneyRange_iff {v : Int} : moneyRange v ↔ 0 ≤ v ∧ v ≤ MAX_MONEY := by
  simp [moneyRange]

theorem MAX_MONEY_lt : MAX_MONEY < 2 ^ 63 := by
  norm_num [MAX_MONEY, COIN]

theorem MAX_MONEY_add_lt : MAX_MONEY + MAX_MONEY < 2 ^ 64 := by
  norm_num [MAX_MONEY, COIN]

/-! ## Outpoints, inputs and outputs -/

structure COutPoint where
  hash : Uint256
  n : Nat
deriving DecidableEq

namespace COutPoint

def null : COutPoint :=
  { hash := 0, n := 2 ^ 32 - 1 }

def isNull (o : COutPoint) : Bool :=
  decide (o.hash = 0) && decide (o.n = 2 ^ 32 - 1)

end COutPoint

structure CTxIn where
  prevout : COutPoint
  scriptSig : CScript
  nSequence : Nat
deriving DecidableEq

def CTxIn.isFinal (txin : CTxIn) : Bool :=
  decide (txin.nSequence = 2 ^ 32 - 1)

structure CTxOut where
  nValue : Int
  scriptPubKey : CScript
deriving DecidableEq

namespace CTxOut

def null : CTxOut :=
  { nValue := -1, scriptPubKey := [] }

def isNull (out : CTxOut) : Bool :=
  decide (out.nValue = -1)

def isEmpty (out : CTxOut) : Bool :=
  decide (out.nValue = 0) && out.scriptPubKey.isEmpty

@[simp]
theorem isNull_null : null.isNull = true := rfl

end CTxOut

def OP_RETURN : UInt8 := 0x6a

/-- `CScript::IsUnspendable`. -/
def isUnspendable (script : CScript) : Bool :=
  match script with
  | [] => false
  | op :: _ => decide (op = OP_RETURN)

/-! ## Transactions -/

structure CTransaction where
  nVersion : Int
  vin : List CTxIn
  vout : List CTxOut
  nLockTime : Nat
  nTime : Nat
deriving DecidableEq

def POW_TX_VERSION : Int := 1

namespace CTransaction

def isCoinBase (tx : CTransaction) : Bool :=
  match tx.vin with
  | [txin] => txin.prevout.isNull
  | _ => false

/-- A coinstake is marked by its empty first output. -/
def isCoinStake (tx : CTransaction) : Bool :=
  match tx.vin, tx.vout with
  | txin :: _, out :: _ :: _ => !txin.prevout.isNull && out.isEmpty
  | _, _ => false

theorem isCoinBase_eq_false_of_isCoinStake (h : tx.isCoinStake) : tx.isCoinBase = false := by
  unfold isCoinStake at h
  unfold isCoinBase
  split at h <;> simp_all
  split <;> simp_all

theorem isCoinStake_eq_false_of_isCoinBase (h : tx.isCoinBase) : tx.isCoinStake = false := by
  cases hs : tx.isCoinStake with
  | false => rfl
  | true =>
    rw [isCoinBase_eq_false_of_isCoinStake hs] at h
    simp at h

/-- One step of the loop in `GetValueOut`; the exception is `none`. -/
def addValueOut (nValueOut : Int) (out : CTxOut) : Option Int :=
  let nValueOut := wrap64 (nValueOut + out.nValue)
  if !moneyRange out.nValue || !moneyRange nValueOut then none else some nValueOut

def getValueOut (tx : CTransaction) : Option Int :=
  tx.vout.foldlM addValueOut 0

end CTransaction

/-- The exact sum of the values of a list of outputs. -/
def valueOf (outs : List CTxOut) : Int :=
  (outs.map CTxOut.nValue).sum

@[simp]
theorem valueOf_nil : valueOf [] = 0 := rfl

@[simp]
theorem valueOf_cons (out : CTxOut) (outs : List CTxOut) :
    valueOf (out :: outs) = out.nValue + valueOf outs := by
  simp [valueOf]

theorem addValueOut_eq_some {acc v : Int} {out : CTxOut} (hacc : moneyRange acc)
    (h : CTransaction.addValueOut acc out = some v) :
    v = acc + out.nValue ∧ moneyRange out.nValue ∧ moneyRange v = true := by
  unfold CTransaction.addValueOut at h
  have hmax := MAX_MONEY_add_lt
  simp only [Bool.or_eq_true, Bool.not_eq_true'] at h
  split at h
  · simp at h
  · rename_i hrange
    push Not at hrange
    have hv : wrap64 (acc + out.nValue) = v := by simpa using h
    have hout : moneyRange out.nValue = true := by simpa using hrange.1
    have hsum : moneyRange v = true := by simpa [hv] using hrange.2
    refine ⟨?_, hout, hsum⟩
    rw [moneyRange_iff] at hacc hout hsum
    -- Both summands lie in the money range, so the wrapped sum differs from the exact one by at
    -- most one multiple of the modulus, and that multiple would leave the range.
    obtain ⟨k, hk⟩ := wrap64_eq_add (acc + out.nValue)
    omega

theorem getValueOut_foldlM {outs : List CTxOut} {acc v : Int} (hacc : moneyRange acc)
    (h : outs.foldlM CTransaction.addValueOut acc = some v) :
    v = acc + valueOf outs ∧ (∀ out ∈ outs, moneyRange out.nValue) ∧ moneyRange v = true := by
  induction outs generalizing acc with
  | nil =>
    have hv : acc = v := by simpa using h
    subst hv
    simpa using hacc
  | cons out outs ih =>
    rw [List.foldlM_cons] at h
    obtain ⟨mid, hmid, hrest⟩ := Option.bind_eq_some_iff.mp h
    obtain ⟨hsum, hout, hmidrange⟩ := addValueOut_eq_some hacc hmid
    obtain ⟨hv, hall, hvrange⟩ := ih hmidrange hrest
    refine ⟨?_, ?_, hvrange⟩
    · rw [hv, hsum, valueOf_cons]
      ring
    · intro o ho
      rcases List.mem_cons.mp ho with rfl | ho
      · exact hout
      · exact hall o ho

/-- `GetValueOut` returns the exact sum of the outputs whenever it does not throw. -/
theorem getValueOut_eq_some {v : Int} (h : tx.getValueOut = some v) :
    v = valueOf tx.vout ∧ (∀ out ∈ tx.vout, moneyRange out.nValue) ∧ moneyRange v = true := by
  have hfold := getValueOut_foldlM (by decide : moneyRange 0 = true) h
  simpa using hfold

end Reddcoin
