import Reddcoin.Coins.Coins
import Reddcoin.Serialize.VarInt

/-!
# Undo records

`CCoins::Spend` of `coins.cpp` and the undo record of `undo.h`.  The record carries the metadata
of the spent entry only when its last output is spent, and it reaches `DisconnectBlock` through
its disk encoding.
-/

namespace Reddcoin

structure CTxInUndo where
  txout : CTxOut
  fCoinBase : Bool
  nHeight : Nat
  nVersion : Int
deriving DecidableEq

abbrev CTxUndo := List CTxInUndo

abbrev CBlockUndo := List CTxUndo

namespace CCoins

/-- The entry once the output at `n` is set null and the tail is cleaned up. -/
def spent (c : CCoins) (n : Nat) : CCoins :=
  cleanup { c with vout := c.vout.set n CTxOut.null }

/-- The undo record of a spent output, given the entry that remains. -/
def undoOf (rest : CCoins) (out : CTxOut) : CTxInUndo :=
  if rest.vout.isEmpty then
    { txout := out, fCoinBase := rest.fCoinBase, nHeight := rest.nHeight, nVersion := rest.nVersion }
  else { txout := out, fCoinBase := false, nHeight := 0, nVersion := 0 }

def spend (c : CCoins) (n : Nat) : Option (CCoins × CTxInUndo) :=
  match c.vout[n]? with
  | none => none
  | some out => if out.isNull then none else some (c.spent n, undoOf (c.spent n) out)

theorem spend_eq_some_iff {c c' : CCoins} {n : Nat} {undo : CTxInUndo} :
    c.spend n = some (c', undo) ↔ ∃ out, c.out? n = some out ∧ c' = c.spent n ∧ undo = undoOf (c.spent n) out := by
  unfold spend
  cases hget : c.vout[n]? with
  | none => simp [out?, hget]
  | some out =>
    cases hnull : out.isNull with
    | true => simp [out?, hget, hnull, Option.filter]
    | false =>
      have hout : c.out? n = some out := out?_eq_some.mpr ⟨hget, hnull⟩
      simp only [hout, hnull, Bool.false_eq_true, if_false, Option.some.injEq, Prod.mk.injEq]
      constructor
      · rintro ⟨rfl, rfl⟩
        exact ⟨out, rfl, rfl, rfl⟩
      · rintro ⟨o, rfl, rfl, rfl⟩
        exact ⟨rfl, rfl⟩

theorem out?_spent (c : CCoins) (n m : Nat) :
    (c.spent n).out? m = if m = n then none else c.out? m := by
  unfold spent
  rw [out?_cleanup]
  by_cases h : m = n
  · subst h
    simp only [out?, List.getElem?_set_self', if_true]
    cases c.vout[m]? <;> simp [Option.filter]
  · simp only [out?, if_neg h]
    rw [List.getElem?_set_ne (Ne.symm h)]

theorem clean_spent (c : CCoins) (n : Nat) : (c.spent n).Clean :=
  clean_cleanup _

end CCoins

/-! ## The disk encoding

`nHeight * 2 + fCoinBase`, then `nVersion` when the height is positive, then the output.  The
height of a block is a non-negative `int`, so the code fits `unsigned int`. -/

namespace CTxInUndo

def serializeMeta (undo : CTxInUndo) : List UInt8 :=
  writeVarInt (undo.nHeight * 2 + (if undo.fCoinBase then 1 else 0)) ++
    (if 0 < undo.nHeight then writeVarInt undo.nVersion else [])

/-- `Unserialize` into a default record: without a height the version stays 0. -/
def unserializeMeta (txout : CTxOut) (bytes : List UInt8) : Option (CTxInUndo × List UInt8) := do
  let (nCode, bytes) ← readVarInt bytes
  let undo : CTxInUndo :=
    { txout := txout, fCoinBase := decide (nCode % 2 = 1), nHeight := nCode / 2, nVersion := 0 }
  if 0 < nCode / 2 then
    let (nVersion, bytes) ← readVarInt bytes
    pure ({ undo with nVersion := nVersion }, bytes)
  else pure (undo, bytes)

/-- What is read back from disk for the record `undo`; the output itself is compressed without
loss. -/
def reread (undo : CTxInUndo) : Option CTxInUndo :=
  (unserializeMeta undo.txout undo.serializeMeta).map Prod.fst

/-- The version that survives `VARINT` on an `int`. -/
def rereadVersion (nVersion : Int) : Int :=
  if 0 ≤ nVersion then nVersion else nVersion % 128

theorem readVarInt_writeVarInt_version (v : Int) (rest : List UInt8) :
    readVarInt (writeVarInt v ++ rest) = some ((rereadVersion v).toNat, rest) := by
  by_cases hv : 0 ≤ v
  · have hcast : ((v.toNat : Nat) : Int) = v := Int.toNat_of_nonneg hv
    have hread := readVarInt_writeVarInt v.toNat rest
    rw [hcast] at hread
    rw [hread, rereadVersion, if_pos hv]
  · rw [readVarInt_writeVarInt_neg (by omega), rereadVersion, if_neg hv]

theorem rereadVersion_nonneg (v : Int) : 0 ≤ rereadVersion v := by
  unfold rereadVersion
  split <;> omega

theorem rereadVersion_eq_self_iff {v : Int} : rereadVersion v = v ↔ 0 ≤ v := by
  unfold rereadVersion
  split <;> omega

/-- The record that comes back: everything but a negative version, and a version without a height,
survives the disk. -/
def onDisk (undo : CTxInUndo) : CTxInUndo :=
  { undo with nVersion := if 0 < undo.nHeight then rereadVersion undo.nVersion else 0 }

theorem reread_eq (undo : CTxInUndo) : undo.reread = some undo.onDisk := by
  have hcode : ∀ rest, readVarInt
      (writeVarInt (undo.nHeight * 2 + (if undo.fCoinBase then 1 else 0)) ++ rest) =
        some (undo.nHeight * 2 + (if undo.fCoinBase then 1 else 0), rest) := by
    intro rest
    have hread := readVarInt_writeVarInt
      (undo.nHeight * 2 + (if undo.fCoinBase then 1 else 0)) rest
    cases hcb : undo.fCoinBase <;> simpa [hcb] using hread
  have hheight : (undo.nHeight * 2 + (if undo.fCoinBase then 1 else 0)) / 2 = undo.nHeight := by
    cases undo.fCoinBase with
    | false => simp
    | true =>
      simp only [if_true]
      omega
  have hbase : decide ((undo.nHeight * 2 + (if undo.fCoinBase then 1 else 0)) % 2 = 1) = undo.fCoinBase := by
    cases undo.fCoinBase <;> simp
  unfold reread unserializeMeta serializeMeta onDisk
  rw [hcode]
  simp only [Option.bind_eq_bind, Option.bind_some, hheight, hbase]
  by_cases hpos : 0 < undo.nHeight
  · have hversion := readVarInt_writeVarInt_version undo.nVersion []
    rw [List.append_nil] at hversion
    simp [hpos, hversion, Int.toNat_of_nonneg (rereadVersion_nonneg undo.nVersion)]
  · simp [hpos]

end CTxInUndo

end Reddcoin
