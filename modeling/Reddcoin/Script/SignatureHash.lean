import Reddcoin.Serialize.Wire

/-!
# The signature hash

`CTransactionSignatureSerializer` and `SignatureHash` of `script/interpreter.cpp`, up to the bytes that are
hashed.  The serializer writes a transaction as `CTransaction::SerializationOp` does, with the signatures
blanked out, but stops before the time.
-/

namespace Reddcoin

open Stream

def OP_CODESEPARATOR : Nat := 0xab

def SIGHASH_ALL : Int := 1
def SIGHASH_NONE : Int := 2
def SIGHASH_SINGLE : Int := 3

/-! ## The script code -/

/-- Where a call of `GetOp` that fails leaves its iterator. -/
def getOpStop (script : CScript) : CScript :=
  match script with
  | [] => []
  | b :: pc =>
    if b.toNat = OP_PUSHDATA1 then pc.tail
    else if b.toNat = OP_PUSHDATA2 then if pc.length < 2 then pc else pc.drop 2
    else if b.toNat = OP_PUSHDATA4 then if pc.length < 4 then pc else pc.drop 4
    else pc

/-- The first loop of `SerializeScriptCode`. -/
def countCodeSeparators : Nat → CScript → Nat
  | 0, _ => 0
  | turns + 1, it =>
    match getOp2 it with
    | none => 0
    | some op => (if op.opcode = OP_CODESEPARATOR then 1 else 0) + countCodeSeparators turns op.pc

/-- The second loop of `SerializeScriptCode`, with the last `write` after it. -/
def writeScriptCode : Nat → CScript → CScript → List UInt8
  | 0, _, _ => []
  | turns + 1, itBegin, it =>
    match getOp2 it with
    | none => itBegin.take (itBegin.length - (getOpStop it).length)
    | some op =>
      if op.opcode = OP_CODESEPARATOR then
        itBegin.take (itBegin.length - op.pc.length - 1) ++ writeScriptCode turns op.pc op.pc
      else writeScriptCode turns itBegin op.pc

/-- Every instruction takes at least one byte, so the length of the script bounds the turns. -/
def serializeScriptCode (scriptCode : CScript) : List UInt8 :=
  writeCompactSize (scriptCode.length - countCodeSeparators (scriptCode.length + 1) scriptCode) ++
    writeScriptCode (scriptCode.length + 1) scriptCode scriptCode

/-! ## The transaction -/

structure CTransactionSignatureSerializer where
  txTo : CTransaction
  scriptCode : CScript
  nIn : Nat
  fAnyoneCanPay : Bool
  fHashSingle : Bool
  fHashNone : Bool

namespace CTransactionSignatureSerializer

def new (txTo : CTransaction) (scriptCode : CScript) (nIn : Nat) (nHashType : Int) :
    CTransactionSignatureSerializer where
  txTo := txTo
  scriptCode := scriptCode
  nIn := nIn
  fAnyoneCanPay := decide (nHashType / 0x80 % 2 = 1)
  fHashSingle := decide (nHashType % 0x20 = SIGHASH_SINGLE)
  fHashNone := decide (nHashType % 0x20 = SIGHASH_NONE)

variable (self : CTransactionSignatureSerializer)

def serializeInput (nInput : Nat) : List UInt8 :=
  let nInput := if self.fAnyoneCanPay then self.nIn else nInput
  match self.txTo.vin[nInput]? with
  | none => []
  | some txin =>
    txin.prevout.serialize ++ ((if nInput ≠ self.nIn then writeBytes [] else serializeScriptCode self.scriptCode) ++
        if nInput ≠ self.nIn ∧ (self.fHashSingle || self.fHashNone) = true then writeSigned 4 0
        else writeData 4 txin.nSequence)

def serializeOutput (nOutput : Nat) : List UInt8 :=
  if self.fHashSingle = true ∧ nOutput ≠ self.nIn then CTxOut.null.serialize
  else
    match self.txTo.vout[nOutput]? with
    | none => []
    | some txout => txout.serialize

/-- The number of inputs is held in an `unsigned int`. -/
def nInputs : Nat :=
  if self.fAnyoneCanPay then 1 else self.txTo.vin.length % 2 ^ 32

def nOutputs : Nat :=
  if self.fHashNone then 0
  else if self.fHashSingle then self.nIn + 1
  else self.txTo.vout.length % 2 ^ 32

def serialize : List UInt8 :=
  writeSigned 4 self.txTo.nVersion ++ (writeCompactSize self.nInputs ++
      ((List.range self.nInputs).flatMap self.serializeInput ++ (writeCompactSize self.nOutputs ++
          ((List.range self.nOutputs).flatMap self.serializeOutput ++ writeData 4 self.txTo.nLockTime))))

end CTransactionSignatureSerializer

/-- What `SignatureHash` hashes; nothing where it returns 1 instead of a hash. -/
def signatureHashPreimage (scriptCode : CScript) (txTo : CTransaction) (nIn : Nat) (nHashType : Int) :
    Option (List UInt8) :=
  if txTo.vin.length ≤ nIn then none
  else if nHashType % 0x20 = SIGHASH_SINGLE ∧ txTo.vout.length ≤ nIn then none
  else
    some ((CTransactionSignatureSerializer.new txTo scriptCode nIn nHashType).serialize ++ writeSigned 4 nHashType)

/-! ## What a signature commits to -/

/-- The fields fit their types, and there are fewer inputs and outputs than an `unsigned int` counts. -/
structure CTransaction.Fits (tx : CTransaction) : Prop where
  nVersion : SignedRange 4 tx.nVersion
  vin_length : tx.vin.length < 2 ^ 32
  prevout : ∀ txin ∈ tx.vin, txin.prevout.Wire
  nSequence : ∀ txin ∈ tx.vin, txin.nSequence < 256 ^ 4
  vout_length : tx.vout.length < 2 ^ 32
  nValue : ∀ out ∈ tx.vout, SignedRange 8 out.nValue
  scriptPubKey : ∀ out ∈ tx.vout, out.scriptPubKey.length < 256 ^ 8
  nLockTime : tx.nLockTime < 256 ^ 4

/-- Two transactions that agree on everything on the wire but the signature scripts. -/
structure CTransaction.SameButScriptSigs (t₁ t₂ : CTransaction) : Prop where
  nVersion : t₁.nVersion = t₂.nVersion
  prevout : t₁.vin.map CTxIn.prevout = t₂.vin.map CTxIn.prevout
  nSequence : t₁.vin.map CTxIn.nSequence = t₂.vin.map CTxIn.nSequence
  vout : t₁.vout = t₂.vout
  nLockTime : t₁.nLockTime = t₂.nLockTime
  nTime : POW_TX_VERSION < t₁.nVersion → t₁.nTime = t₂.nTime

/-- What a `SIGHASH_ALL` preimage holds of a transaction. -/
structure Committed where
  nVersion : Int
  vin : List (COutPoint × Nat)
  vout : List CTxOut
  nLockTime : Nat

def CTransaction.committed (tx : CTransaction) : Committed where
  nVersion := tx.nVersion
  vin := tx.vin.map fun txin => (txin.prevout, txin.nSequence)
  vout := tx.vout
  nLockTime := tx.nLockTime

/-- An input of the preimage, where the script takes `n` bytes. -/
def readSignedInput (n : Nat) : Reader UInt8 (COutPoint × Nat) := do
  let prevout ← COutPoint.unserialize
  let _ ← symbols n
  let nSequence ← readData 4
  pure (prevout, nSequence)

def readSignedOutput : Reader UInt8 CTxOut := do
  let nValue ← readSigned 8
  let nSize ← readData 1 >>= readSizeForm
  let scriptPubKey ← symbols nSize
  pure { nValue := nValue, scriptPubKey := scriptPubKey }

/-- A reader of preimages for an input whose script code takes `n` bytes. -/
def readCommitted (n nIn : Nat) : Reader UInt8 Committed := do
  let nVersion ← readSigned 4
  let nInputs ← readData 1 >>= readSizeForm
  let vin ← each ((List.range nInputs).map fun i => readSignedInput (if i = nIn then n else 1))
  let nOutputs ← readData 1 >>= readSizeForm
  let vout ← each ((List.range nOutputs).map fun _ => readSignedOutput)
  let nLockTime ← readData 4
  pure { nVersion := nVersion, vin := vin, vout := vout, nLockTime := nLockTime }

section

variable {tx : CTransaction} {scriptCode : CScript} {nIn : Nat}

theorem reads_readSignedOutput {out : CTxOut} (hvalue : SignedRange 8 out.nValue)
    (hscript : out.scriptPubKey.length < 256 ^ 8) : Reads readSignedOutput out.serialize out := by
  refine reads_bind (reads_readSigned hvalue) ?_
  refine reads_bind (reads_readSizeForm hscript) ?_
  exact reads_last (reads_symbols out.scriptPubKey) (reads_pure out)

theorem reads_readSignedInput {txin : CTxIn} {script : List UInt8} (hprevout : txin.prevout.Wire)
    (hsequence : txin.nSequence < 256 ^ 4) :
    Reads (readSignedInput script.length)
      (txin.prevout.serialize ++ (script ++ writeData 4 txin.nSequence)) (txin.prevout, txin.nSequence) := by
  refine reads_bind (COutPoint.reads_unserialize hprevout) ?_
  refine reads_bind (reads_symbols script) ?_
  exact reads_last (reads_readData hsequence) (reads_pure _)

theorem map_range_getElem? {α β : Type} [Inhabited α] (f : α → β) (l : List α) :
    (List.range l.length).map (fun i => f (l[i]?.getD default)) = l.map f := by
  refine List.ext_getElem (by simp) fun i h₁ h₂ => ?_
  have hi : i < l.length := by simpa using h₂
  simp [List.getElem?_eq_getElem hi]

instance : Inhabited CTxIn :=
  ⟨{ prevout := COutPoint.null, scriptSig := [], nSequence := 0 }⟩

instance : Inhabited CTxOut :=
  ⟨CTxOut.null⟩

/-- A `SIGHASH_ALL` preimage can be read back. -/
theorem reads_readCommitted (h : tx.Fits) (scriptCode : CScript) (nIn : Nat) :
    Reads (readCommitted (serializeScriptCode scriptCode).length nIn)
      (CTransactionSignatureSerializer.new tx scriptCode nIn SIGHASH_ALL).serialize tx.committed := by
  have hin : (CTransactionSignatureSerializer.new tx scriptCode nIn SIGHASH_ALL).nInputs = tx.vin.length :=
    Nat.mod_eq_of_lt h.vin_length
  have hout : (CTransactionSignatureSerializer.new tx scriptCode nIn SIGHASH_ALL).nOutputs = tx.vout.length :=
    Nat.mod_eq_of_lt h.vout_length
  unfold CTransactionSignatureSerializer.serialize
  rw [hin, hout]
  have hvinlen := h.vin_length
  have hvoutlen := h.vout_length
  refine reads_bind (reads_readSigned h.nVersion) ?_
  refine reads_bind (reads_readSizeForm (by omega)) ?_
  have hinputs : ∀ i ∈ List.range tx.vin.length,
      Reads (readSignedInput (if i = nIn then (serializeScriptCode scriptCode).length else 1))
        ((CTransactionSignatureSerializer.new tx scriptCode nIn SIGHASH_ALL).serializeInput i)
        ((tx.vin[i]?.getD default).prevout, (tx.vin[i]?.getD default).nSequence) := by
    intro i hi
    have hlt := List.mem_range.mp hi
    have hget := List.getElem?_eq_getElem hlt
    have hmem := List.getElem_mem hlt
    have hread : Reads _ (_ ++ ((if i ≠ nIn then writeBytes [] else serializeScriptCode scriptCode) ++ _)) _ :=
      reads_readSignedInput (h.prevout _ hmem) (h.nSequence _ hmem)
    have hbytes : (CTransactionSignatureSerializer.new tx scriptCode nIn SIGHASH_ALL).serializeInput i =
        tx.vin[i].prevout.serialize ++ ((if i ≠ nIn then writeBytes [] else serializeScriptCode scriptCode) ++
            writeData 4 tx.vin[i].nSequence) := by
      unfold CTransactionSignatureSerializer.serializeInput
      show (match tx.vin[i]? with
        | none => []
        | some txin => txin.prevout.serialize ++
            ((if i ≠ nIn then writeBytes [] else serializeScriptCode scriptCode) ++
              if i ≠ nIn ∧ false = true then writeSigned 4 0 else writeData 4 txin.nSequence)) = _
      rw [hget]
      simp
    rw [hbytes, hget, Option.getD_some]
    by_cases heq : i = nIn
    · rw [if_pos heq]
      rw [if_neg (not_not.mpr heq)] at hread ⊢
      exact hread
    · rw [if_neg heq]
      rw [if_pos heq] at hread ⊢
      exact hread
  refine reads_bind (reads_each hinputs) ?_
  refine reads_bind (reads_readSizeForm (by omega)) ?_
  have houtputs : ∀ i ∈ List.range tx.vout.length, Reads readSignedOutput
      ((CTransactionSignatureSerializer.new tx scriptCode nIn SIGHASH_ALL).serializeOutput i)
      (tx.vout[i]?.getD default) := by
    intro i hi
    have hlt := List.mem_range.mp hi
    have hget := List.getElem?_eq_getElem hlt
    have hmem := List.getElem_mem hlt
    have hbytes : (CTransactionSignatureSerializer.new tx scriptCode nIn SIGHASH_ALL).serializeOutput i =
        tx.vout[i].serialize := by
      unfold CTransactionSignatureSerializer.serializeOutput
      show (if false = true ∧ i ≠ nIn then CTxOut.null.serialize else
        match tx.vout[i]? with
        | none => []
        | some txout => txout.serialize) = _
      rw [hget]
      simp
    rw [hbytes, hget, Option.getD_some]
    exact reads_readSignedOutput (h.nValue _ hmem) (h.scriptPubKey _ hmem)
  refine reads_bind (reads_each houtputs) ?_
  refine reads_last (reads_readData h.nLockTime) ?_
  have hvout : (List.range tx.vout.length).map (fun i => tx.vout[i]?.getD default) = tx.vout :=
    (map_range_getElem? id tx.vout).trans (List.map_id _)
  rw [map_range_getElem? (fun txin => (txin.prevout, txin.nSequence)) tx.vin, hvout]
  exact reads_pure tx.committed

end

/-- Transactions with one `SIGHASH_ALL` preimage agree on everything but the signature scripts exactly when
the time, which is not hashed, agrees or is not on the wire. -/
theorem signatureHash_commits_iff {t₁ t₂ : CTransaction} (h₁ : t₁.Fits) (h₂ : t₂.Fits) {scriptCode : CScript}
    {nIn : Nat} (hin₁ : nIn < t₁.vin.length) (hin₂ : nIn < t₂.vin.length)
    (h : signatureHashPreimage scriptCode t₁ nIn SIGHASH_ALL = signatureHashPreimage scriptCode t₂ nIn SIGHASH_ALL) :
    t₁.SameButScriptSigs t₂ ↔ (t₁.nVersion ≤ POW_TX_VERSION ∨ t₁.nTime = t₂.nTime) := by
  have hall : SIGHASH_ALL % 0x20 ≠ SIGHASH_SINGLE := by decide
  unfold signatureHashPreimage at h
  rw [if_neg (by omega), if_neg fun hs => hall hs.1, if_neg (by omega), if_neg fun hs => hall hs.1] at h
  have hcommitted := ((reads_readCommitted h₁ scriptCode nIn).unique (reads_readCommitted h₂ scriptCode nIn)
    (Option.some.inj h)).1
  have hversion : t₁.nVersion = t₂.nVersion := congrArg Committed.nVersion hcommitted
  have hvin : t₁.vin.map (fun txin => (txin.prevout, txin.nSequence)) =
      t₂.vin.map fun txin => (txin.prevout, txin.nSequence) := congrArg Committed.vin hcommitted
  have hprevout := congrArg (List.map Prod.fst) hvin
  have hsequence := congrArg (List.map Prod.snd) hvin
  rw [List.map_map, List.map_map] at hprevout hsequence
  constructor
  · intro hsame
    by_cases hle : t₁.nVersion ≤ POW_TX_VERSION
    · exact .inl hle
    · exact .inr (hsame.nTime (by omega))
  · intro htime
    refine ⟨hversion, hprevout, hsequence, congrArg Committed.vout hcommitted,
      congrArg Committed.nLockTime hcommitted, fun hgt => ?_⟩
    rcases htime with hle | htime
    · omega
    · exact htime

namespace Example

/-- The same transaction at another time. -/
def restampedTx : CTransaction :=
  { stampedTx with nTime := 1400000001 }

/-- The same transaction with another signature script. -/
def resignedTx : CTransaction :=
  { stampedTx with
    vin := [{ prevout := { hash := 500, n := 1 }, scriptSig := [8, 9], nSequence := 7 }] }

theorem fits_of_wire {tx : CTransaction} (h : tx.Wire) : tx.Fits := by
  have hmax : MAX_SIZE = 0x02000000 := rfl
  have hvin := h.vin_length
  have hvout := h.vout_length
  refine ⟨h.nVersion, by omega, fun txin hin => (h.vin txin hin).prevout,
    fun txin hin => (h.vin txin hin).nSequence, by omega, fun out hout => (h.vout out hout).nValue,
    fun out hout => ?_, h.nLockTime⟩
  have hscript := (h.vout out hout).scriptPubKey
  omega

end Example

open Example

theorem signatureHash_commits_iff_example :
    signatureHashPreimage [0xac] stampedTx 0 SIGHASH_ALL = signatureHashPreimage [0xac] resignedTx 0 SIGHASH_ALL ∧
    stampedTx.SameButScriptSigs resignedTx := by
  have hsame : signatureHashPreimage [0xac] stampedTx 0 SIGHASH_ALL =
      signatureHashPreimage [0xac] resignedTx 0 SIGHASH_ALL := by decide
  have hfits := fits_of_wire stampedTx_wire
  have hfits' : resignedTx.Fits := by
    refine ⟨hfits.nVersion, by decide, ?_, ?_, hfits.vout_length, hfits.nValue, hfits.scriptPubKey, hfits.nLockTime⟩
    · intro txin hin
      rw [List.mem_singleton.mp hin]
      exact ⟨by decide, by decide⟩
    · intro txin hin
      rw [List.mem_singleton.mp hin]
      decide
  exact ⟨hsame, (signatureHash_commits_iff hfits hfits' (by decide) (by decide) hsame).mpr (.inr rfl)⟩

/-- The time of a version 2 transaction can be changed under its signatures. -/
theorem signatureHash_misses_time :
    stampedTx.Wire ∧ restampedTx.Wire ∧
    signatureHashPreimage [0xac] stampedTx 0 SIGHASH_ALL = signatureHashPreimage [0xac] restampedTx 0 SIGHASH_ALL ∧
    ¬ stampedTx.SameButScriptSigs restampedTx := by
  have hwire := stampedTx_wire
  refine ⟨hwire, ⟨hwire.nVersion, hwire.vin_length, hwire.vin, hwire.vout_length, hwire.vout,
    hwire.nLockTime, by decide, by decide⟩, by decide, fun hsame => ?_⟩
  have htime := hsame.nTime (by decide)
  simp [stampedTx, restampedTx] at htime

end Reddcoin
