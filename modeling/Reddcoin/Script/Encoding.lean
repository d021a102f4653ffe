import Reddcoin.Script.SignatureHash

/-!
# Numbers, keys and signatures in scripts

`CScriptNum` of `script/script.h`, and the checks of `script/interpreter.cpp` that ask for one encoding of a
number, a public key, a signature or a push.  What is checked depends on the verification flags.
-/

namespace Reddcoin

/-- `valtype`. -/
abbrev Valtype := List UInt8

inductive ScriptError where
  | SCRIPT_ERR_UNKNOWN_ERROR
  | SCRIPT_ERR_EVAL_FALSE
  | SCRIPT_ERR_OP_RETURN
  | SCRIPT_ERR_SCRIPT_SIZE
  | SCRIPT_ERR_PUSH_SIZE
  | SCRIPT_ERR_OP_COUNT
  | SCRIPT_ERR_STACK_SIZE
  | SCRIPT_ERR_SIG_COUNT
  | SCRIPT_ERR_PUBKEY_COUNT
  | SCRIPT_ERR_VERIFY
  | SCRIPT_ERR_EQUALVERIFY
  | SCRIPT_ERR_CHECKMULTISIGVERIFY
  | SCRIPT_ERR_CHECKSIGVERIFY
  | SCRIPT_ERR_NUMEQUALVERIFY
  | SCRIPT_ERR_BAD_OPCODE
  | SCRIPT_ERR_DISABLED_OPCODE
  | SCRIPT_ERR_INVALID_STACK_OPERATION
  | SCRIPT_ERR_INVALID_ALTSTACK_OPERATION
  | SCRIPT_ERR_UNBALANCED_CONDITIONAL
  | SCRIPT_ERR_SIG_HASHTYPE
  | SCRIPT_ERR_SIG_DER
  | SCRIPT_ERR_MINIMALDATA
  | SCRIPT_ERR_SIG_PUSHONLY
  | SCRIPT_ERR_SIG_HIGH_S
  | SCRIPT_ERR_SIG_NULLDUMMY
  | SCRIPT_ERR_PUBKEYTYPE
  | SCRIPT_ERR_DISCOURAGE_UPGRADABLE_NOPS
deriving DecidableEq

/-- `ScriptErrorString`. -/
def scriptErrorString : ScriptError → String
  | .SCRIPT_ERR_EVAL_FALSE =>
    "Script evaluated without error but finished with a false/empty top stack element"
  | .SCRIPT_ERR_VERIFY => "Script failed an OP_VERIFY operation"
  | .SCRIPT_ERR_EQUALVERIFY => "Script failed an OP_EQUALVERIFY operation"
  | .SCRIPT_ERR_CHECKMULTISIGVERIFY => "Script failed an OP_CHECKMULTISIGVERIFY operation"
  | .SCRIPT_ERR_CHECKSIGVERIFY => "Script failed an OP_CHECKSIGVERIFY operation"
  | .SCRIPT_ERR_NUMEQUALVERIFY => "Script failed an OP_NUMEQUALVERIFY operation"
  | .SCRIPT_ERR_SCRIPT_SIZE => "Script is too big"
  | .SCRIPT_ERR_PUSH_SIZE => "Push value size limit exceeded"
  | .SCRIPT_ERR_OP_COUNT => "Operation limit exceeded"
  | .SCRIPT_ERR_STACK_SIZE => "Stack size limit exceeded"
  | .SCRIPT_ERR_SIG_COUNT => "Signature count negative or greater than pubkey count"
  | .SCRIPT_ERR_PUBKEY_COUNT => "Pubkey count negative or limit exceeded"
  | .SCRIPT_ERR_BAD_OPCODE => "Opcode missing or not understood"
  | .SCRIPT_ERR_DISABLED_OPCODE => "Attempted to use a disabled opcode"
  | .SCRIPT_ERR_INVALID_STACK_OPERATION => "Operation not valid with the current stack size"
  | .SCRIPT_ERR_INVALID_ALTSTACK_OPERATION => "Operation not valid with the current altstack size"
  | .SCRIPT_ERR_OP_RETURN => "OP_RETURN was encountered"
  | .SCRIPT_ERR_UNBALANCED_CONDITIONAL => "Invalid OP_IF construction"
  | .SCRIPT_ERR_SIG_HASHTYPE => "Signature hash type missing or not understood"
  | .SCRIPT_ERR_SIG_DER => "Non-canonical DER signature"
  | .SCRIPT_ERR_MINIMALDATA => "Data push larger than necessary"
  | .SCRIPT_ERR_SIG_PUSHONLY => "Only non-push operators allowed in signatures"
  | .SCRIPT_ERR_SIG_HIGH_S => "Non-canonical signature: S value is unnecessarily high"
  | .SCRIPT_ERR_SIG_NULLDUMMY => "Dummy CHECKMULTISIG argument must be zero"
  | .SCRIPT_ERR_DISCOURAGE_UPGRADABLE_NOPS => "NOPx reserved for soft-fork upgrades"
  | .SCRIPT_ERR_PUBKEYTYPE => "Public key is neither compressed or uncompressed"
  | .SCRIPT_ERR_UNKNOWN_ERROR => "unknown error"

abbrev ScriptRun := Except ScriptError

/-- `return set_error(serror, ..)`. -/
def setError {α : Type} (serror : ScriptError) : ScriptRun α :=
  .error serror

/-- Go on unless `bad` holds. -/
def failIf (bad : Bool) (serror : ScriptError) : ScriptRun Unit :=
  if bad then setError serror else .ok ()

/-- `flags & flag`. -/
def hasFlag (flags flag : Nat) : Bool :=
  decide (flags &&& flag ≠ 0)

/-- A check that is made only under a flag. -/
def underFlag (flags flag : Nat) (check : ScriptRun Unit) : ScriptRun Unit :=
  if hasFlag flags flag then check else .ok ()

/-! ## Numbers -/

namespace CScriptNum

def nMaxNumSize : Nat := 4

/-- The most significant byte without the sign bit is zero, and the sign bit could be in the byte below. -/
def notMinimal (vch : Valtype) : Bool :=
  match vch.reverse with
  | [] => false
  | [back] => decide (back.toNat % 0x80 = 0)
  | back :: second :: _ => decide (back.toNat % 0x80 = 0) && decide (second.toNat < 0x80)

def setVch (vch : Valtype) : Int :=
  let result : Int := leNat vch
  match vch.getLast? with
  | none => 0
  | some back =>
    if 0x80 ≤ back.toNat then -(result - 0x80 * 256 ^ (vch.length - 1)) else result

/-- The constructor from a stack element.  It throws when the element is no number, and `EvalScript` catches
everything. -/
def ofVch (vch : Valtype) (fRequireMinimal : Bool) : ScriptRun Int := do
  failIf (decide (nMaxNumSize < vch.length)) .SCRIPT_ERR_UNKNOWN_ERROR
  failIf (fRequireMinimal && notMinimal vch) .SCRIPT_ERR_UNKNOWN_ERROR
  pure (setVch vch)

def getint (value : Int) : Int :=
  if 2 ^ 31 - 1 < value then 2 ^ 31 - 1
  else if value < -2 ^ 31 then -2 ^ 31
  else value

/-- The bytes of an absolute value.  A value of 64 bits has at most 8 of them. -/
def absBytes : Nat → Nat → List UInt8
  | 0, _ => []
  | turns + 1, absvalue =>
    if absvalue = 0 then [] else UInt8.ofNat absvalue :: absBytes turns (absvalue / 256)

/-- `serialize`, also called `getvch`. -/
def getvch (value : Int) : Valtype :=
  if value = 0 then []
  else
    let neg := decide (value < 0)
    let result := absBytes 8 value.natAbs
    match result.getLast? with
    | none => []
    | some back =>
      if 0x80 ≤ back.toNat then result ++ [if neg then 0x80 else 0]
      else if neg then result.dropLast ++ [back + 0x80]
      else result

end CScriptNum

/-- A number as a condition: zero and negative zero are false. -/
def castToBool (vch : Valtype) : Bool :=
  match vch.reverse with
  | [] => false
  | back :: rest => (rest.any fun b => decide (b ≠ 0)) || (decide (back ≠ 0) && decide (back ≠ 0x80))

/-! ## Keys and signatures -/

/-- The byte at a position. -/
def byteAt (vch : Valtype) (i : Nat) : Nat :=
  (vch.getD i 0).toNat

def isCompressedOrUncompressedPubKey (vchPubKey : Valtype) : Bool :=
  if vchPubKey.length < 33 then false
  else if byteAt vchPubKey 0 = 0x04 then decide (vchPubKey.length = 65)
  else if byteAt vchPubKey 0 = 0x02 ∨ byteAt vchPubKey 0 = 0x03 then decide (vchPubKey.length = 33)
  else false

/-- An integer of `nLen` bytes at `pos` in a signature: it has its type, and is neither empty, negative nor
padded. -/
def isDERInteger (vchSig : Valtype) (pos nLen : Nat) : Bool :=
  decide (byteAt vchSig (pos - 2) = 0x02) && decide (nLen ≠ 0) && decide (byteAt vchSig pos < 0x80) &&
    !(decide (1 < nLen) && decide (byteAt vchSig pos = 0) && decide (byteAt vchSig (pos + 1) < 0x80))

def isDERSignature (vchSig : Valtype) : Bool :=
  if vchSig.length < 9 ∨ 73 < vchSig.length then false
  else if byteAt vchSig 0 ≠ 0x30 then false
  else if byteAt vchSig 1 ≠ vchSig.length - 3 then false
  else
    let nLenR := byteAt vchSig 3
    if vchSig.length ≤ 5 + nLenR then false
    else
      let nLenS := byteAt vchSig (5 + nLenR)
      if nLenR + nLenS + 7 ≠ vchSig.length then false
      else isDERInteger vchSig 4 nLenR && isDERInteger vchSig (6 + nLenR) nLenS

/-- Half of the order of the generator of secp256k1, minus 1. -/
def maxModHalfOrder : Nat :=
  0x7FFFFFFFFFFFFFFFFFFFFFFFFFFFFFFF5D576E7357A4501DDFE92F46681B20A0

/-- `eccrypto::CheckSignatureElement` with `half` set: the big-endian number is neither zero nor too large. -/
def checkSignatureElement (vch : Valtype) : Bool :=
  let value := leNat vch.reverse
  decide (0 < value) && decide (value ≤ maxModHalfOrder)

def isLowDERSignature (vchSig : Valtype) : ScriptRun Unit := do
  failIf (!isDERSignature vchSig) .SCRIPT_ERR_SIG_DER
  let nLenR := byteAt vchSig 3
  let nLenS := byteAt vchSig (5 + nLenR)
  failIf (!checkSignatureElement ((vchSig.drop (6 + nLenR)).take nLenS)) .SCRIPT_ERR_SIG_HIGH_S

def isDefinedHashtypeSignature (vchSig : Valtype) : Bool :=
  match vchSig.getLast? with
  | none => false
  | some back => decide (1 ≤ back.toNat % 0x80) && decide (back.toNat % 0x80 ≤ 3)

def checkSignatureEncoding (vchSig : Valtype) (flags : Nat) : ScriptRun Unit := do
  failIf (hasFlag flags (SCRIPT_VERIFY_DERSIG ||| SCRIPT_VERIFY_LOW_S ||| SCRIPT_VERIFY_STRICTENC) &&
    !isDERSignature vchSig) .SCRIPT_ERR_SIG_DER
  underFlag flags SCRIPT_VERIFY_LOW_S (isLowDERSignature vchSig)
  failIf (hasFlag flags SCRIPT_VERIFY_STRICTENC && !isDefinedHashtypeSignature vchSig)
    .SCRIPT_ERR_SIG_HASHTYPE

def checkPubKeyEncoding (vchPubKey : Valtype) (flags : Nat) : ScriptRun Unit :=
  failIf (hasFlag flags SCRIPT_VERIFY_STRICTENC && !isCompressedOrUncompressedPubKey vchPubKey)
    .SCRIPT_ERR_PUBKEYTYPE

def checkMinimalPush (data : Valtype) (opcode : Nat) : Bool :=
  if data.length = 0 then decide (opcode = 0)
  else if data.length = 1 ∧ 1 ≤ byteAt data 0 ∧ byteAt data 0 ≤ 16 then
    decide (opcode = OP_1 + (byteAt data 0 - 1))
  else if data.length = 1 ∧ byteAt data 0 = 0x81 then decide (opcode = OP_1NEGATE)
  else if data.length ≤ 75 then decide (opcode = data.length)
  else if data.length ≤ 255 then decide (opcode = OP_PUSHDATA1)
  else if data.length ≤ 65535 then decide (opcode = OP_PUSHDATA2)
  else true

end Reddcoin
