import Reddcoin.Coins.ScriptCompressor
import Reddcoin.Lib.OrderedSet
import Reddcoin.Script.Pushes

/-!
# Combining signatures

`CombineSignatures`: the signatures of two partly signed inputs are merged into one.
-/

namespace Reddcoin

/-! ## The signature checker -/

/-- The two functions under `SignatureChecker` that need cryptography. -/
structure SignatureCrypto where
  /-- `Hash`. -/
  hash : List UInt8 → Uint256
  /-- `CPubKey::Verify` for a valid key. -/
  verify : Uint256 → Valtype → List UInt8 → Bool

/-- `SignatureHash`. -/
def signatureHash (S : SignatureCrypto) (scriptCode : CScript) (txTo : CTransaction) (nIn : Nat) (nHashType : Int) :
    Uint256 :=
  match signatureHashPreimage scriptCode txTo nIn nHashType with
  | none => 1
  | some bytes => S.hash bytes

/-- `SignatureChecker::CheckSig`. -/
def checkSig (S : SignatureCrypto) (txTo : CTransaction) (nIn : Nat) (vchSigIn vchPubKey : Valtype)
    (scriptCode : CScript) : Bool :=
  let pubkey := CPubKey.set vchPubKey
  if pubkey.isEmpty then false
  else
    match vchSigIn.getLast? with
    | none => false
    | some nHashType =>
      S.verify (signatureHash S scriptCode txTo nIn nHashType.toNat) vchSigIn.dropLast pubkey

def signatureChecker (S : SignatureCrypto) (txTo : CTransaction) (nIn : Nat) : BaseSignatureChecker where
  checkSig := checkSig S txTo nIn

/-- `BaseSignatureChecker`, which takes no signature. -/
def baseSignatureChecker : BaseSignatureChecker where
  checkSig _ _ _ := false

/-! ## The stack `EvalScript` leaves, also when it fails -/

section

variable (H : ScriptHashes) (flags : Nat) (checker : BaseSignatureChecker)

/-- The stack after an instruction that pushes, where `EvalScript` stops. -/
def stackAtStop (op : ScriptOp) (s : EvalState) : List Valtype :=
  if MAX_SCRIPT_ELEMENT_SIZE < op.vch.length then s.stack
  else
    match execute H flags checker op s with
    | .error _ => s.stack
    | .ok s => s.stack

/-- The loop of `EvalScript`.  What an instruction leaves that does not push and fails is not followed. -/
def stackLeftLoop : Nat → CScript → EvalState → Option (List Valtype)
  | 0, _, s => some s.stack
  | turns + 1, pc, s =>
    if pc.isEmpty then some s.stack
    else
      match getOp2 pc with
      | none => some s.stack
      | some op =>
        match evalInstruction H flags checker op s with
        | .error _ => if op.opcode ≤ OP_16 then some (stackAtStop H flags checker op s) else none
        | .ok s => stackLeftLoop turns op.pc s

/-- The stack that `EvalScript` leaves of an empty one, from its bottom. -/
def stackLeft (script : CScript) : Option (List Valtype) :=
  if 10000 < script.length then some []
  else
    (stackLeftLoop H flags checker script.length script
      { stack := [], altstack := [], vfExec := [], nOpCount := 0, pbegincodehash := script }).map List.reverse

end

/-! ## Multisignature outputs -/

/-- The order of `std::vector`s of bytes. -/
def BytesLe (a b : Valtype) : Prop :=
  a.map UInt8.toNat ≤ b.map UInt8.toNat

instance : DecidableRel BytesLe := fun a b => inferInstanceAs (Decidable (a.map UInt8.toNat ≤ b.map UInt8.toNat))

/-- Combine all the signatures we've got. -/
def allSigs (sigs1 sigs2 : List Valtype) : List Valtype :=
  OrderedSet.ofList BytesLe ((sigs1 ++ sigs2).filter fun v => !v.isEmpty)

section

variable (valid : Valtype → Valtype → Bool)

/-- The map of pubkey to signature, after one more signature. -/
def matchSig (pubkeys : List Valtype) (sigs : List (Valtype × Valtype)) (sig : Valtype) : List (Valtype × Valtype) :=
  match pubkeys.find? fun pubkey => !(sigs.lookup pubkey).isSome && valid sig pubkey with
  | none => sigs
  | some pubkey => (pubkey, sig) :: sigs

/-- A map of pubkey to signature by matching signatures to pubkeys. -/
def matchSigs (pubkeys allsigs : List Valtype) : List (Valtype × Valtype) :=
  allsigs.foldl (matchSig valid pubkeys) []

end

/-- The signatures in the order of their keys, and how many there are. -/
def mergeLoop (nSigsRequired : Nat) (sigs : List (Valtype × Valtype)) : List Valtype → Nat → CScript → Nat × CScript
  | [], nSigsHave, result => (nSigsHave, result)
  | pubkey :: pubkeys, nSigsHave, result =>
    if nSigsRequired ≤ nSigsHave then (nSigsHave, result)
    else
      match sigs.lookup pubkey with
      | none => mergeLoop nSigsRequired sigs pubkeys nSigsHave result
      | some sig => mergeLoop nSigsRequired sigs pubkeys (nSigsHave + 1) (result ++ pushScript sig)

section

variable (S : SignatureCrypto) (txTo : CTransaction) (nIn : Nat)

/-- `CombineMultisig`; nothing where its assertion fails. -/
def combineMultisig (scriptPubKey : CScript) (vSolutions sigs1 sigs2 : List Valtype) : Option CScript :=
  if vSolutions.length ≤ 1 then none
  else
    let nSigsRequired := ((vSolutions.headD []).headD 0).toNat
    let pubkeys := (vSolutions.drop 1).take (vSolutions.length - 2)
    let sigs := matchSigs (fun sig pubkey => checkSig S txTo nIn sig pubkey scriptPubKey) pubkeys (allSigs sigs1 sigs2)
    let (nSigsHave, result) := mergeLoop nSigsRequired sigs pubkeys 0 (pushScript [])
    -- Fill any missing with OP_0.
    some (result ++ pushScripts (List.replicate (nSigsRequired - nSigsHave) []))

/-! ## All outputs -/

/-- The recursion takes one element from both stacks. -/
def combineStacks (options : SolverOptions) (scriptPubKey : CScript) (solved : Solved) (sigs1 sigs2 : List Valtype) :
    Option CScript :=
  match solved.typeRet with
  -- Don't know anything about this, assume bigger one is correct.
  | .nonstandard | .nulldata =>
    if sigs2.length ≤ sigs1.length then some (pushScripts sigs1) else some (pushScripts sigs2)
  -- Signatures are bigger than placeholders or empty scripts.
  | .pubkey | .pubkeyhash => if (sigs1.headD []).isEmpty then some (pushScripts sigs2) else some (pushScripts sigs1)
  | .scripthash =>
    if (sigs1.getLastD []).isEmpty then some (pushScripts sigs2)
    else if (sigs2.getLastD []).isEmpty then some (pushScripts sigs1)
    else
      let spk := sigs1.getLastD []
      (combineStacks options spk (solver options spk) sigs1.dropLast sigs2.dropLast).map (· ++ pushScript spk)
  | .multisig => combineMultisig S txTo nIn scriptPubKey solved.vSolutions sigs1 sigs2
  termination_by sigs1.length
  decreasing_by
    have hne : sigs1 ≠ [] := by
      rintro rfl
      contradiction
    have hpos := List.length_pos_of_ne_nil hne
    rw [List.length_dropLast]
    omega

/-- `CombineSignatures`. -/
def combineSignatures (H : ScriptHashes) (options : SolverOptions) (scriptPubKey scriptSig1 scriptSig2 : CScript) :
    Option CScript := do
  let stack1 ← stackLeft H SCRIPT_VERIFY_STRICTENC baseSignatureChecker scriptSig1
  let stack2 ← stackLeft H SCRIPT_VERIFY_STRICTENC baseSignatureChecker scriptSig2
  combineStacks S txTo nIn options scriptPubKey (solver options scriptPubKey) stack1 stack2

end

end Reddcoin
