import Reddcoin.Script.Interpreter

/-!
# The reference signature hash

`SignatureHashOld` of `test/sighash_tests.cpp` copies the transaction, deletes the separators with `FindAndDelete`,
blanks inputs and outputs and serializes the copy.  `SignatureHash` writes the same bytes on the fly, for a transaction
without a time on the wire and a script code that can be parsed.
-/

namespace Reddcoin

open Stream List

variable {self : CTransactionSignatureSerializer}

/-! ## The reference -/

/-- Blank out the sequence numbers of the other inputs. -/
def zeroSequences (nIn : Nat) (vin : List CTxIn) : List CTxIn :=
  vin.mapIdx fun i txin => if i ≠ nIn then { txin with nSequence := 0 } else txin

/-- The copy of the transaction with the script code in the place of the signatures. -/
def blankSignatures (scriptCode : CScript) (nIn : Nat) (vin : List CTxIn) : List CTxIn :=
  (vin.map fun txin => { txin with scriptSig := [] }).modify nIn fun txin => { txin with scriptSig := scriptCode }

/-- The part of `SignatureHashOld` that depends on the low bits of the hash type; nothing where it returns 1. -/
def blankOutputs (nIn : Nat) (nHashType : Int) (txTmp : CTransaction) : Option CTransaction :=
  if nHashType % 0x20 = SIGHASH_NONE then
    some { txTmp with vout := [], vin := zeroSequences nIn txTmp.vin }
  else if nHashType % 0x20 = SIGHASH_SINGLE then
    if txTmp.vout.length ≤ nIn then none
    else
      some { txTmp with
        vout := (txTmp.vout.take (nIn + 1)).mapIdx fun i out => if i < nIn then CTxOut.null else out
        vin := zeroSequences nIn txTmp.vin }
  else some txTmp

/-- What `SignatureHashOld` hashes; nothing where it returns 1 instead of a hash. -/
def signatureHashOldPreimage (scriptCode : CScript) (txTo : CTransaction) (nIn : Nat) (nHashType : Int) :
    Option (List UInt8) :=
  if txTo.vin.length ≤ nIn then none
  else do
    let scriptCode := findAndDelete scriptCode [UInt8.ofNat OP_CODESEPARATOR]
    let txTmp := { txTo with vin := blankSignatures scriptCode nIn txTo.vin }
    let txTmp ← blankOutputs nIn nHashType txTmp
    let txTmp :=
      if nHashType / 0x80 % 2 = 1 then { txTmp with vin := (txTmp.vin[nIn]?).toList } else txTmp
    pure (txTmp.serialize ++ writeSigned 4 nHashType)

/-! ## The script code -/

/-- The script parses to its end with `GetOp`. -/
inductive Parses : CScript → Prop where
  | done : Parses []
  | op {script : CScript} {op : ScriptOp} (h : getOp2 script = some op) (hrest : Parses op.pc) : Parses script

theorem readSize_suffix {width n : Nat} {pc pc' : CScript} (h : readSize width pc = some (n, pc')) :
    ∃ data, pc = data ++ pc' := by
  induction width generalizing pc n with
  | zero =>
    cases h
    exact ⟨[], rfl⟩
  | succ width ih =>
    cases pc with
    | nil => cases h
    | cons b pc =>
      obtain ⟨⟨high, pc''⟩, hread, hpure⟩ := Option.bind_eq_some_iff.mp h
      cases hpure
      obtain ⟨data, rfl⟩ := ih hread
      exact ⟨b :: data, rfl⟩

theorem readPush_suffix {opcode nSize : Nat} {pc : CScript} {op : ScriptOp}
    (h : readPush opcode nSize pc = some op) : op.opcode = opcode ∧ ∃ data, pc = data ++ op.pc := by
  unfold readPush at h
  split_ifs at h
  cases h
  exact ⟨rfl, _, (take_append_drop nSize pc).symm⟩

/-- An instruction takes its opcode and, for a push, more. -/
theorem getOp2_suffix {script : CScript} {op : ScriptOp} (h : getOp2 script = some op) :
    ∃ b data, script = b :: data ++ op.pc ∧ op.opcode = b.toNat ∧ (OP_PUSHDATA4 < b.toNat → data = []) := by
  cases script with
  | nil => cases h
  | cons b pc =>
    have hsized : ∀ width, b.toNat ≤ OP_PUSHDATA4 →
        ((readSize width pc).bind fun x => readPush b.toNat x.1 x.2) = some op →
        ∃ data, b :: pc = b :: data ++ op.pc ∧ op.opcode = b.toNat ∧ (OP_PUSHDATA4 < b.toNat → data = []) := by
      intro width hle hread
      obtain ⟨⟨nSize, pc'⟩, hsize, hpush⟩ := Option.bind_eq_some_iff.mp hread
      obtain ⟨data, rfl⟩ := readSize_suffix hsize
      obtain ⟨hop, data', hdata'⟩ := readPush_suffix hpush
      exact ⟨data ++ data', by rw [cons_append, append_assoc, ← hdata'], hop, fun hlt => absurd hlt hle.not_gt⟩
    simp only [getOp2] at h
    split_ifs at h with h1 h2 h3 h4
    · obtain ⟨hop, data, hdata⟩ := readPush_suffix h
      have hle : ¬ OP_PUSHDATA4 < b.toNat := by unfold OP_PUSHDATA1 at h1; unfold OP_PUSHDATA4; omega
      exact ⟨b, data, by rw [cons_append, ← hdata], hop, fun hlt => absurd hlt hle⟩
    · exact ⟨b, hsized _ (le_of_eq_of_le h2 (by decide)) h⟩
    · exact ⟨b, hsized _ (le_of_eq_of_le h3 (by decide)) h⟩
    · exact ⟨b, hsized _ (le_of_eq_of_le h4 (by decide)) h⟩
    · cases h
      exact ⟨b, [], rfl, rfl, fun _ => rfl⟩

/-- One turn of `FindAndDelete` for the separator. -/
theorem findAndDeleteLoop_op {script : CScript} {op : ScriptOp} {turns : Nat} (h : getOp2 script = some op) :
    findAndDeleteLoop [UInt8.ofNat OP_CODESEPARATOR] (turns + 1) script =
      (if op.opcode = OP_CODESEPARATOR then [] else script.take (script.length - op.pc.length)) ++
        findAndDeleteLoop [UInt8.ofNat OP_CODESEPARATOR] turns op.pc := by
  obtain ⟨b, data, rfl, hop, hdata⟩ := getOp2_suffix h
  have hprefix : [UInt8.ofNat OP_CODESEPARATOR].isPrefixOf (b :: data ++ op.pc) =
      decide (op.opcode = OP_CODESEPARATOR) := by
    rw [hop]
    show (UInt8.ofNat OP_CODESEPARATOR == b && [].isPrefixOf _) = _
    rw [isPrefixOf_nil_left, Bool.and_true, Bool.eq_iff_iff, beq_iff_eq, decide_eq_true_eq]
    constructor
    · intro heq
      rw [← heq]
      rfl
    · intro heq
      exact UInt8.toNat_inj.mp heq.symm
  rw [findAndDeleteLoop, hprefix]
  by_cases hsep : op.opcode = OP_CODESEPARATOR
  · rw [if_pos (decide_eq_true hsep), if_pos hsep]
    rw [hdata (by rw [← hop, hsep]; decide)]
    rfl
  · rw [if_neg (by simpa using hsep), if_neg hsep, h]

theorem take_instruction (seg taken rest : CScript) :
    (seg ++ (taken ++ rest)).take ((seg ++ (taken ++ rest)).length - rest.length) = seg ++ taken := by
  have hlength : (seg ++ taken ++ rest).length - rest.length = (seg ++ taken).length := by
    rw [length_append]
    omega
  rw [← append_assoc, hlength, take_left]

/-- The segments that `SerializeScriptCode` writes are what `FindAndDelete` leaves; `seg` is what has been read since the
last write. -/
theorem writeScriptCode_eq {it : CScript} (h : Parses it) :
    ∀ (turns turns' : Nat) (seg : CScript), it.length < turns → it.length < turns' →
      writeScriptCode turns (seg ++ it) it = seg ++ findAndDeleteLoop [UInt8.ofNat OP_CODESEPARATOR] turns' it := by
  induction h with
  | done =>
    intro turns turns' seg hturns hturns'
    obtain _ | turns := turns
    · cases hturns
    obtain _ | turns' := turns'
    · cases hturns'
    show (seg ++ []).take ((seg ++ []).length - 0) = seg ++ []
    rw [append_nil, Nat.sub_zero, take_length]
  | op h hrest ih =>
    rename_i script op
    intro turns turns' seg hturns hturns'
    obtain ⟨b, data, hscript, hop, hdata⟩ := getOp2_suffix h
    have hlength := congrArg List.length hscript
    rw [length_append, length_cons] at hlength
    obtain _ | turns := turns
    · cases hturns
    obtain _ | turns' := turns'
    · cases hturns'
    rw [writeScriptCode, h, findAndDeleteLoop_op h]
    show (if op.opcode = OP_CODESEPARATOR then _ else _) = _
    by_cases hsep : op.opcode = OP_CODESEPARATOR
    · rw [if_pos hsep, if_pos hsep, nil_append]
      have hone : script = [b] ++ op.pc := by
        rw [hscript, hdata (by rw [← hop, hsep]; decide)]
      have hrest' := ih turns turns' [] (by omega) (by omega)
      rw [nil_append, nil_append] at hrest'
      rw [hrest']
      congr 1
      have hseg : (seg ++ ([b] ++ op.pc)).length - op.pc.length - 1 = seg.length := by
        rw [length_append, length_append, length_singleton]
        omega
      rw [hone, hseg, take_left]
    · rw [if_neg hsep, if_neg hsep]
      have hrest' := ih turns turns' (seg ++ (b :: data)) (by omega) (by omega)
      have htaken := take_instruction [] (b :: data) op.pc
      rw [nil_append, nil_append, ← hscript] at htaken
      rw [htaken, ← append_assoc, ← hrest', append_assoc, ← hscript]

/-- The separators that are counted are those that `FindAndDelete` deletes. -/
theorem countCodeSeparators_add {it : CScript} (h : Parses it) :
    ∀ turns turns' : Nat, it.length < turns → it.length < turns' →
      countCodeSeparators turns it + (findAndDeleteLoop [UInt8.ofNat OP_CODESEPARATOR] turns' it).length =
        it.length := by
  induction h with
  | done =>
    intro turns turns' hturns hturns'
    obtain _ | turns := turns
    · cases hturns
    obtain _ | turns' := turns'
    · cases hturns'
    rfl
  | op h hrest ih =>
    rename_i script op
    intro turns turns' hturns hturns'
    obtain ⟨b, data, hscript, hop, hdata⟩ := getOp2_suffix h
    have hlength := congrArg List.length hscript
    rw [length_append, length_cons] at hlength
    obtain _ | turns := turns
    · cases hturns
    obtain _ | turns' := turns'
    · cases hturns'
    have hrest' := ih turns turns' (by omega) (by omega)
    rw [countCodeSeparators, h, findAndDeleteLoop_op h, length_append]
    show (if op.opcode = OP_CODESEPARATOR then 1 else 0) + countCodeSeparators turns op.pc + _ = _
    by_cases hsep : op.opcode = OP_CODESEPARATOR
    · rw [if_pos hsep, if_pos hsep, length_nil]
      have hnil := hdata (by rw [← hop, hsep]; decide)
      rw [hnil, length_nil] at hlength
      omega
    · rw [if_neg hsep, if_neg hsep, length_take]
      omega

/-- The script code in the preimage. -/
theorem serializeScriptCode_eq {scriptCode : CScript} (h : Parses scriptCode) :
    serializeScriptCode scriptCode = writeBytes (findAndDelete scriptCode [UInt8.ofNat OP_CODESEPARATOR]) := by
  have hwrite := writeScriptCode_eq h (scriptCode.length + 1) (scriptCode.length + 1) [] (by omega) (by omega)
  have hcount := countCodeSeparators_add h (scriptCode.length + 1) (scriptCode.length + 1) (by omega) (by omega)
  rw [nil_append, nil_append] at hwrite
  have hsize : scriptCode.length - countCodeSeparators (scriptCode.length + 1) scriptCode =
      (findAndDeleteLoop [UInt8.ofNat OP_CODESEPARATOR] (scriptCode.length + 1) scriptCode).length := by omega
  rw [serializeScriptCode, hwrite, hsize]
  rfl

/-! ## Inputs and outputs -/

/-- A loop over the indices of a vector writes what its elements write. -/
theorem flatMap_range {α : Type} {l : List α} {n : Nat} (hn : l.length = n) {f : Nat → List UInt8}
    {g : α → List UInt8} (h : ∀ i a, l[i]? = some a → f i = g a) : (List.range n).flatMap f = l.flatMap g := by
  have hmap : (List.range n).map f = l.map g := by
    refine ext_getElem? fun i => ?_
    rw [getElem?_map, getElem?_map]
    by_cases hi : i < n
    · have hget := getElem?_eq_getElem (show i < l.length by omega)
      rw [getElem?_range hi, hget]
      exact congrArg some (h i _ hget)
    · rw [getElem?_eq_none (by rw [length_range]; omega), getElem?_eq_none (by omega)]
      rfl
  rw [flatMap_def, flatMap_def, hmap]

section

variable {scriptCode : CScript} {txTo : CTransaction} {nIn : Nat} {nHashType : Int}

/-- An input of the copy. -/
def signedInput (code : CScript) (nIn : Nat) (fZero : Bool) (i : Nat) (txin : CTxIn) : CTxIn where
  prevout := txin.prevout
  scriptSig := if i = nIn then code else []
  nSequence := if i ≠ nIn ∧ fZero = true then 0 else txin.nSequence

theorem getElem?_blankSignatures (code : CScript) (nIn i : Nat) (vin : List CTxIn) :
    (blankSignatures code nIn vin)[i]? = (vin[i]?).map (signedInput code nIn false i) := by
  unfold blankSignatures
  rw [getElem?_modify, getElem?_map]
  cases vin[i]? with
  | none => simp
  | some txin =>
    by_cases hi : nIn = i
    · simp [signedInput, hi]
    · simp [signedInput, hi, Ne.symm hi]

theorem getElem?_zeroSequences (code : CScript) (nIn i : Nat) (vin : List CTxIn) :
    (zeroSequences nIn (blankSignatures code nIn vin))[i]? = (vin[i]?).map (signedInput code nIn true i) := by
  unfold zeroSequences
  rw [getElem?_mapIdx, getElem?_blankSignatures]
  cases vin[i]? with
  | none => rfl
  | some txin =>
    by_cases hi : i = nIn
    · simp [signedInput, hi]
    · simp [signedInput, hi]

/-- The inputs of the copy before the last step. -/
def signedVin (code : CScript) (nIn : Nat) (fZero : Bool) (vin : List CTxIn) : List CTxIn :=
  if fZero then zeroSequences nIn (blankSignatures code nIn vin) else blankSignatures code nIn vin

theorem getElem?_signedVin (code : CScript) (nIn i : Nat) (fZero : Bool) (vin : List CTxIn) :
    (signedVin code nIn fZero vin)[i]? = (vin[i]?).map (signedInput code nIn fZero i) := by
  cases fZero with
  | true => exact getElem?_zeroSequences code nIn i vin
  | false => exact getElem?_blankSignatures code nIn i vin

theorem length_signedVin (code : CScript) (nIn : Nat) (fZero : Bool) (vin : List CTxIn) :
    (signedVin code nIn fZero vin).length = vin.length := by
  cases fZero <;> simp [signedVin, zeroSequences, blankSignatures]

/-- The serializer writes an input as it stands in the copy. -/
theorem serializeInput_eq {i : Nat} {txin : CTxIn}
    (hcode : Parses self.scriptCode) (hi : self.fAnyoneCanPay → i = self.nIn)
    (hget : self.txTo.vin[i]? = some txin) :
    self.serializeInput i = (signedInput (findAndDelete self.scriptCode [UInt8.ofNat OP_CODESEPARATOR]) self.nIn
      (self.fHashSingle || self.fHashNone) i txin).serialize := by
  have hsame : (if self.fAnyoneCanPay then self.nIn else i) = i := by
    split_ifs with hany
    · exact (hi hany).symm
    · rfl
  unfold CTransactionSignatureSerializer.serializeInput CTxIn.serialize signedInput
  simp only [hsame, hget]
  congr 1
  by_cases hin : i = self.nIn
  · rw [if_neg (not_not.mpr hin), if_neg fun h => h.1 hin, if_pos hin, if_neg fun h => h.1 hin,
      serializeScriptCode_eq hcode]
  · rw [if_pos hin, if_neg hin]
    congr 1
    split_ifs <;> rfl

/-- The inputs of the copy. -/
def CTransactionSignatureSerializer.signedVin (self : CTransactionSignatureSerializer) : List CTxIn :=
  Reddcoin.signedVin (findAndDelete self.scriptCode [UInt8.ofNat OP_CODESEPARATOR]) self.nIn
    (self.fHashSingle || self.fHashNone) self.txTo.vin

theorem serialize_vin (hcode : Parses self.scriptCode)
    (hin : self.nIn < self.txTo.vin.length) (hvin : self.txTo.vin.length < 2 ^ 32) :
    writeCompactSize self.nInputs ++ (List.range self.nInputs).flatMap self.serializeInput =
      writeVector CTxIn.serialize
        (if self.fAnyoneCanPay then (self.signedVin[self.nIn]?).toList else self.signedVin) := by
  have hget := getElem?_eq_getElem hin
  unfold CTransactionSignatureSerializer.nInputs
  by_cases hany : self.fAnyoneCanPay = true
  · rw [if_pos hany, if_pos hany, CTransactionSignatureSerializer.signedVin, getElem?_signedVin, hget]
    show writeCompactSize 1 ++ (self.serializeInput 0 ++ []) = writeCompactSize 1 ++ (CTxIn.serialize _ ++ [])
    rw [append_nil, append_nil, ← serializeInput_eq hcode (fun _ => rfl) hget]
    unfold CTransactionSignatureSerializer.serializeInput
    rw [if_pos hany, if_pos hany]
  · rw [if_neg hany, if_neg hany, Nat.mod_eq_of_lt hvin]
    have hlength : self.signedVin.length = self.txTo.vin.length := length_signedVin ..
    rw [writeVector, hlength]
    congr 1
    refine flatMap_range hlength fun i txin hi => ?_
    rw [CTransactionSignatureSerializer.signedVin, getElem?_signedVin] at hi
    obtain ⟨txin', hget', rfl⟩ := Option.map_eq_some_iff.mp hi
    exact serializeInput_eq hcode (fun h => absurd h hany) hget'

/-- The outputs of the copy. -/
def CTransactionSignatureSerializer.signedVout (self : CTransactionSignatureSerializer) : List CTxOut :=
  if self.fHashNone then []
  else if self.fHashSingle then
    (self.txTo.vout.take (self.nIn + 1)).mapIdx fun i out => if i < self.nIn then CTxOut.null else out
  else self.txTo.vout

theorem serialize_vout (hsingle : self.fHashSingle → self.nIn < self.txTo.vout.length)
    (hvout : self.txTo.vout.length < 2 ^ 32) :
    writeCompactSize self.nOutputs ++ (List.range self.nOutputs).flatMap self.serializeOutput =
      writeVector CTxOut.serialize self.signedVout := by
  unfold CTransactionSignatureSerializer.nOutputs CTransactionSignatureSerializer.signedVout
  by_cases hnone : self.fHashNone = true
  · rw [if_pos hnone, if_pos hnone]
    rfl
  · rw [if_neg hnone, if_neg hnone]
    by_cases hs : self.fHashSingle = true
    · rw [if_pos hs, if_pos hs]
      have hlt := hsingle hs
      have hlength : ((self.txTo.vout.take (self.nIn + 1)).mapIdx fun i out =>
          if i < self.nIn then CTxOut.null else out).length = self.nIn + 1 := by
        rw [length_mapIdx, length_take]
        omega
      rw [writeVector, hlength]
      congr 1
      refine flatMap_range hlength fun i out hi => ?_
      rw [getElem?_mapIdx, getElem?_take] at hi
      obtain ⟨out', hget, rfl⟩ := Option.map_eq_some_iff.mp hi
      unfold CTransactionSignatureSerializer.serializeOutput
      split_ifs at hget with hi'
      by_cases heq : i = self.nIn
      · rw [if_neg fun h => h.2 heq, hget, if_neg (by omega)]
      · rw [if_pos ⟨hs, heq⟩, if_pos (by omega)]
    · rw [if_neg hs, if_neg hs, Nat.mod_eq_of_lt hvout, writeVector]
      congr 1
      refine flatMap_range rfl fun i out hi => ?_
      unfold CTransactionSignatureSerializer.serializeOutput
      rw [if_neg fun h => hs h.1, hi]

/-- Without a time on the wire, the serializer writes the copy that the reference makes. -/
theorem serialize_eq (self : CTransactionSignatureSerializer) (hcode : Parses self.scriptCode)
    (hversion : self.txTo.nVersion ≤ POW_TX_VERSION) (hin : self.nIn < self.txTo.vin.length)
    (hvin : self.txTo.vin.length < 2 ^ 32) (hvout : self.txTo.vout.length < 2 ^ 32)
    (hsingle : self.fHashSingle → self.nIn < self.txTo.vout.length) :
    self.serialize = CTransaction.serialize { self.txTo with
      vin := if self.fAnyoneCanPay then (self.signedVin[self.nIn]?).toList else self.signedVin
      vout := self.signedVout } := by
  have htime : (if POW_TX_VERSION < self.txTo.nVersion then writeData 4 self.txTo.nTime else []) = [] :=
    if_neg (by omega)
  unfold CTransactionSignatureSerializer.serialize CTransaction.serialize CTransaction.serializeTime
  simp only
  rw [htime, ← serialize_vin hcode hin hvin, ← serialize_vout hsingle hvout]
  simp only [append_assoc, append_nil]

/-- The blanking of the reference, in the words of the serializer. -/
theorem blankOutputs_eq (scriptCode : CScript) (txTo : CTransaction) (nIn : Nat) (nHashType : Int) :
    blankOutputs nIn nHashType { txTo with
        vin := blankSignatures (findAndDelete scriptCode [UInt8.ofNat OP_CODESEPARATOR]) nIn txTo.vin } =
      if nHashType % 0x20 = SIGHASH_SINGLE ∧ txTo.vout.length ≤ nIn then none
      else some { txTo with
        vin := (CTransactionSignatureSerializer.new txTo scriptCode nIn nHashType).signedVin
        vout := (CTransactionSignatureSerializer.new txTo scriptCode nIn nHashType).signedVout } := by
  have hflags : SIGHASH_SINGLE ≠ SIGHASH_NONE := by decide
  unfold blankOutputs CTransactionSignatureSerializer.signedVin CTransactionSignatureSerializer.signedVout
    CTransactionSignatureSerializer.new signedVin
  by_cases hnone : nHashType % 0x20 = SIGHASH_NONE
  · simp only [hnone, hflags.symm, false_and, if_true, if_false, decide_true, decide_false, Bool.or_true]
  · by_cases hsingle : nHashType % 0x20 = SIGHASH_SINGLE
    · simp only [hsingle, hflags, true_and, if_true, if_false, decide_true, decide_false, Bool.true_or,
        Bool.false_eq_true]
    · simp only [hnone, hsingle, false_and, if_false, decide_false, Bool.or_false, Bool.false_eq_true]

/-- `SignatureHash` hashes what the reference hashes, and returns 1 where the reference does. -/
theorem signatureHash_eq_old (hversion : txTo.nVersion ≤ POW_TX_VERSION) (hcode : Parses scriptCode)
    (hvin : txTo.vin.length < 2 ^ 32) (hvout : txTo.vout.length < 2 ^ 32) (nIn : Nat) (nHashType : Int) :
    signatureHashPreimage scriptCode txTo nIn nHashType = signatureHashOldPreimage scriptCode txTo nIn nHashType := by
  unfold signatureHashPreimage signatureHashOldPreimage
  by_cases hin : txTo.vin.length ≤ nIn
  · rw [if_pos hin, if_pos hin]
  rw [if_neg hin, if_neg hin]
  show _ = (blankOutputs nIn nHashType { txTo with
    vin := blankSignatures (findAndDelete scriptCode [UInt8.ofNat OP_CODESEPARATOR]) nIn txTo.vin }).bind _
  rw [blankOutputs_eq]
  by_cases hreject : nHashType % 0x20 = SIGHASH_SINGLE ∧ txTo.vout.length ≤ nIn
  · rw [if_pos hreject, if_pos hreject]
    rfl
  · rw [if_neg hreject, if_neg hreject]
    have hserialize := serialize_eq (CTransactionSignatureSerializer.new txTo scriptCode nIn nHashType) hcode hversion
      (Nat.not_le.mp hin) hvin hvout fun hsingle =>
        Nat.not_le.mp fun hle => hreject ⟨of_decide_eq_true hsingle, hle⟩
    rw [hserialize, Option.bind_some]
    show some (CTransaction.serialize { txTo with
        vin := if decide (nHashType / 0x80 % 2 = 1) = true then _ else _
        vout := _ } ++ writeSigned 4 nHashType) = some (CTransaction.serialize (if _ then _ else _) ++ _)
    by_cases hany : nHashType / 0x80 % 2 = 1
    · rw [if_pos (decide_eq_true hany), if_pos hany]
      rfl
    · rw [if_neg (by simpa using hany), if_neg hany]

end

/-- A transaction of version 1, and a script code with a separator and a push of a byte that looks like one. -/
theorem signatureHash_eq_old_example :
    signatureHashPreimage [0xab, 0x01, 0xab, 0xac] { Example.stampedTx with nVersion := 1, nTime := 0 } 0 0x83 =
        signatureHashOldPreimage [0xab, 0x01, 0xab, 0xac] { Example.stampedTx with nVersion := 1, nTime := 0 } 0 0x83 ∧
      findAndDelete [0xab, 0x01, 0xab, 0xac] [UInt8.ofNat OP_CODESEPARATOR] = [0x01, 0xab, 0xac] := by
  have hcode : Parses [0xab, 0x01, 0xab, 0xac] :=
    @Parses.op _ ⟨0xab, [], _⟩ rfl (@Parses.op _ ⟨0x01, [0xab], _⟩ rfl (@Parses.op _ ⟨0xac, [], _⟩ rfl .done))
  exact ⟨signatureHash_eq_old (by decide) hcode (by decide) (by decide) 0 0x83, by decide⟩

end Reddcoin
