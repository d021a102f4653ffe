import Reddcoin.Script.Encoding

/-!
# The script interpreter

`EvalScript` and `VerifyScript` of `script/interpreter.cpp`.  Stacks are lists with the top first.  The hash
functions and the signature checker are parameters.
-/

namespace Reddcoin

/-! ## Opcodes -/

inductive StackOp where
  | OP_2DROP
  | OP_2DUP
  | OP_3DUP
  | OP_2OVER
  | OP_2ROT
  | OP_2SWAP
  | OP_IFDUP
  | OP_DEPTH
  | OP_DROP
  | OP_DUP
  | OP_NIP
  | OP_OVER
  | OP_ROT
  | OP_SWAP
  | OP_TUCK
  | OP_SIZE
deriving DecidableEq

inductive UnaryOp where
  | OP_1ADD
  | OP_1SUB
  | OP_NEGATE
  | OP_ABS
  | OP_NOT
  | OP_0NOTEQUAL
deriving DecidableEq

inductive BinaryOp where
  | OP_ADD
  | OP_SUB
  | OP_BOOLAND
  | OP_BOOLOR
  | OP_NUMEQUAL
  | OP_NUMEQUALVERIFY
  | OP_NUMNOTEQUAL
  | OP_LESSTHAN
  | OP_GREATERTHAN
  | OP_LESSTHANOREQUAL
  | OP_GREATERTHANOREQUAL
  | OP_MIN
  | OP_MAX
deriving DecidableEq

inductive HashOp where
  | OP_RIPEMD160
  | OP_SHA1
  | OP_SHA256
  | OP_HASH160
  | OP_HASH256
deriving DecidableEq

/-- The cases of the switch in `EvalScript`. -/
inductive OpcodeType where
  /-- `OP_1NEGATE` and `OP_1` to `OP_16`, with the number that is pushed. -/
  | number (n : Int)
  | OP_NOP
  /-- `OP_NOP1` to `OP_NOP10`. -/
  | upgradableNop
  | OP_IF
  | OP_NOTIF
  | OP_ELSE
  | OP_ENDIF
  | OP_VERIFY
  | OP_RETURN
  | OP_TOALTSTACK
  | OP_FROMALTSTACK
  | stack (op : StackOp)
  | OP_PICK
  | OP_ROLL
  | OP_EQUAL
  | OP_EQUALVERIFY
  | unary (op : UnaryOp)
  | binary (op : BinaryOp)
  | OP_WITHIN
  | hash (op : HashOp)
  | OP_CODESEPARATOR
  | OP_CHECKSIG
  | OP_CHECKSIGVERIFY
  | OP_CHECKMULTISIG
  | OP_CHECKMULTISIGVERIFY
deriving DecidableEq

/-- The opcodes from `OP_NOP` on that the switch knows. -/
def opcodeTable : List (Nat × OpcodeType) :=
  [(0x61, .OP_NOP), (0x63, .OP_IF), (0x64, .OP_NOTIF), (0x67, .OP_ELSE), (0x68, .OP_ENDIF),
    (0x69, .OP_VERIFY), (0x6a, .OP_RETURN), (0x6b, .OP_TOALTSTACK), (0x6c, .OP_FROMALTSTACK),
    (0x6d, .stack .OP_2DROP), (0x6e, .stack .OP_2DUP), (0x6f, .stack .OP_3DUP), (0x70, .stack .OP_2OVER),
    (0x71, .stack .OP_2ROT), (0x72, .stack .OP_2SWAP), (0x73, .stack .OP_IFDUP), (0x74, .stack .OP_DEPTH),
    (0x75, .stack .OP_DROP), (0x76, .stack .OP_DUP), (0x77, .stack .OP_NIP), (0x78, .stack .OP_OVER),
    (0x79, .OP_PICK), (0x7a, .OP_ROLL), (0x7b, .stack .OP_ROT), (0x7c, .stack .OP_SWAP),
    (0x7d, .stack .OP_TUCK), (0x82, .stack .OP_SIZE), (OP_EQUAL, .OP_EQUAL), (0x88, .OP_EQUALVERIFY),
    (0x8b, .unary .OP_1ADD), (0x8c, .unary .OP_1SUB), (0x8f, .unary .OP_NEGATE), (0x90, .unary .OP_ABS),
    (0x91, .unary .OP_NOT), (0x92, .unary .OP_0NOTEQUAL), (0x93, .binary .OP_ADD), (0x94, .binary .OP_SUB),
    (0x9a, .binary .OP_BOOLAND), (0x9b, .binary .OP_BOOLOR), (0x9c, .binary .OP_NUMEQUAL),
    (0x9d, .binary .OP_NUMEQUALVERIFY), (0x9e, .binary .OP_NUMNOTEQUAL), (0x9f, .binary .OP_LESSTHAN),
    (0xa0, .binary .OP_GREATERTHAN), (0xa1, .binary .OP_LESSTHANOREQUAL),
    (0xa2, .binary .OP_GREATERTHANOREQUAL), (0xa3, .binary .OP_MIN), (0xa4, .binary .OP_MAX),
    (0xa5, .OP_WITHIN), (0xa6, .hash .OP_RIPEMD160), (0xa7, .hash .OP_SHA1), (0xa8, .hash .OP_SHA256),
    (OP_HASH160, .hash .OP_HASH160), (0xaa, .hash .OP_HASH256), (OP_CODESEPARATOR, .OP_CODESEPARATOR),
    (OP_CHECKSIG, .OP_CHECKSIG), (OP_CHECKSIGVERIFY, .OP_CHECKSIGVERIFY),
    (OP_CHECKMULTISIG, .OP_CHECKMULTISIG), (OP_CHECKMULTISIGVERIFY, .OP_CHECKMULTISIGVERIFY)]

/-- The case of an opcode; `none` is `default`. -/
def opcodeType (opcode : Nat) : Option OpcodeType :=
  if opcode = OP_1NEGATE ∨ (OP_1 ≤ opcode ∧ opcode ≤ OP_16) then
    some (.number ((opcode : Int) - (OP_1 - 1 : Nat)))
  else if 0xb0 ≤ opcode ∧ opcode ≤ 0xb9 then some .upgradableNop
  else opcodeTable.lookup opcode

/-- `OP_CAT` to `OP_RIGHT`, `OP_INVERT` to `OP_XOR`, `OP_2MUL`, `OP_2DIV` and `OP_MUL` to `OP_RSHIFT`. -/
def isDisabled (opcode : Nat) : Bool :=
  decide (opcode ∈ [0x7e, 0x7f, 0x80, 0x81, 0x83, 0x84, 0x85, 0x86, 0x8d, 0x8e, 0x95, 0x96, 0x97, 0x98, 0x99])

/-! ## The parts of an instruction -/

def vchFalse : Valtype := []

def vchTrue : Valtype := [1]

def ofBool (b : Bool) : Valtype :=
  if b then vchTrue else vchFalse

/-- `CScript(vch)`: the instruction that pushes the bytes. -/
def pushScript (b : Valtype) : CScript :=
  if b.length < OP_PUSHDATA1 then writeData 1 b.length ++ b
  else if b.length ≤ 0xff then writeData 1 OP_PUSHDATA1 ++ writeData 1 b.length ++ b
  else if b.length ≤ 0xffff then writeData 1 OP_PUSHDATA2 ++ writeData 2 b.length ++ b
  else writeData 1 OP_PUSHDATA4 ++ writeData 4 b.length ++ b

/-- The loops of `FindAndDelete` from `pc` on.  Each turn takes at least one byte. -/
def findAndDeleteLoop (b : CScript) : Nat → CScript → CScript
  | 0, pc => pc
  | turns + 1, pc =>
    if b.isPrefixOf pc then findAndDeleteLoop b turns (pc.drop b.length)
    else
      match getOp2 pc with
      | none => pc
      | some op => pc.take (pc.length - op.pc.length) ++ findAndDeleteLoop b turns op.pc

def findAndDelete (script b : CScript) : CScript :=
  if b.isEmpty then script else findAndDeleteLoop b (script.length + 1) script

/-- The stack operations that look at nothing else. -/
def evalStackOp (op : StackOp) (stack : List Valtype) : ScriptRun (List Valtype) :=
  match op, stack with
  | .OP_2DROP, _ :: _ :: st => .ok st
  | .OP_2DUP, x2 :: x1 :: st => .ok (x2 :: x1 :: x2 :: x1 :: st)
  | .OP_3DUP, x3 :: x2 :: x1 :: st => .ok (x3 :: x2 :: x1 :: x3 :: x2 :: x1 :: st)
  | .OP_2OVER, x4 :: x3 :: x2 :: x1 :: st => .ok (x2 :: x1 :: x4 :: x3 :: x2 :: x1 :: st)
  | .OP_2ROT, x6 :: x5 :: x4 :: x3 :: x2 :: x1 :: st => .ok (x2 :: x1 :: x6 :: x5 :: x4 :: x3 :: st)
  | .OP_2SWAP, x4 :: x3 :: x2 :: x1 :: st => .ok (x2 :: x1 :: x4 :: x3 :: st)
  | .OP_IFDUP, x :: st => .ok (if castToBool x then x :: x :: st else x :: st)
  | .OP_DEPTH, st => .ok (CScriptNum.getvch st.length :: st)
  | .OP_DROP, _ :: st => .ok st
  | .OP_DUP, x :: st => .ok (x :: x :: st)
  | .OP_NIP, x2 :: _ :: st => .ok (x2 :: st)
  | .OP_OVER, x2 :: x1 :: st => .ok (x1 :: x2 :: x1 :: st)
  | .OP_ROT, x3 :: x2 :: x1 :: st => .ok (x1 :: x3 :: x2 :: st)
  | .OP_SWAP, x2 :: x1 :: st => .ok (x1 :: x2 :: st)
  | .OP_TUCK, x2 :: x1 :: st => .ok (x2 :: x1 :: x2 :: st)
  | .OP_SIZE, x :: st => .ok (CScriptNum.getvch x.length :: x :: st)
  | _, _ => setError .SCRIPT_ERR_INVALID_STACK_OPERATION

def evalUnaryOp (op : UnaryOp) (bn : Int) : Int :=
  match op with
  | .OP_1ADD => bn + 1
  | .OP_1SUB => bn - 1
  | .OP_NEGATE => -bn
  | .OP_ABS => if bn < 0 then -bn else bn
  | .OP_NOT => if bn = 0 then 1 else 0
  | .OP_0NOTEQUAL => if bn ≠ 0 then 1 else 0

def evalBinaryOp (op : BinaryOp) (bn1 bn2 : Int) : Int :=
  match op with
  | .OP_ADD => bn1 + bn2
  | .OP_SUB => bn1 - bn2
  | .OP_BOOLAND => if bn1 ≠ 0 ∧ bn2 ≠ 0 then 1 else 0
  | .OP_BOOLOR => if bn1 ≠ 0 ∨ bn2 ≠ 0 then 1 else 0
  | .OP_NUMEQUAL => if bn1 = bn2 then 1 else 0
  | .OP_NUMEQUALVERIFY => if bn1 = bn2 then 1 else 0
  | .OP_NUMNOTEQUAL => if bn1 ≠ bn2 then 1 else 0
  | .OP_LESSTHAN => if bn1 < bn2 then 1 else 0
  | .OP_GREATERTHAN => if bn2 < bn1 then 1 else 0
  | .OP_LESSTHANOREQUAL => if bn1 ≤ bn2 then 1 else 0
  | .OP_GREATERTHANOREQUAL => if bn2 ≤ bn1 then 1 else 0
  | .OP_MIN => if bn1 < bn2 then bn1 else bn2
  | .OP_MAX => if bn2 < bn1 then bn1 else bn2

/-- The hash functions that scripts can call. -/
structure ScriptHashes where
  ripemd160 : Valtype → Valtype
  sha1 : Valtype → Valtype
  sha256 : Valtype → Valtype
  hash160 : Valtype → Valtype
  hash256 : Valtype → Valtype

def ScriptHashes.eval (H : ScriptHashes) : HashOp → Valtype → Valtype
  | .OP_RIPEMD160 => H.ripemd160
  | .OP_SHA1 => H.sha1
  | .OP_SHA256 => H.sha256
  | .OP_HASH160 => H.hash160
  | .OP_HASH256 => H.hash256

/-- A checker, by its `CheckSig` of a signature, a public key and a script. -/
structure BaseSignatureChecker where
  checkSig : Valtype → Valtype → CScript → Bool

/-- The variables of `EvalScript` that change. -/
structure EvalState where
  stack : List Valtype
  altstack : List Valtype
  vfExec : List Bool
  nOpCount : Nat
  /-- The script from the last code separator on. -/
  pbegincodehash : CScript

namespace EvalState

def withStack (s : EvalState) (stack : List Valtype) : EvalState :=
  { s with stack := stack }

/-- Whether the instruction is executed. -/
def fExec (s : EvalState) : Bool :=
  s.vfExec.all id

end EvalState

/-- The result of a check is left on the stack, or has to be true. -/
def pushResult (verify fSuccess : Bool) (serror : ScriptError) (s : EvalState) (st : List Valtype) :
    ScriptRun EvalState :=
  if verify then if fSuccess then .ok (s.withStack st) else setError serror
  else .ok (s.withStack (ofBool fSuccess :: st))

section

variable (H : ScriptHashes) (flags : Nat) (checker : BaseSignatureChecker)

def fRequireMinimal : Bool :=
  hasFlag flags SCRIPT_VERIFY_MINIMALDATA

/-- A stack element as a number. -/
def number (vch : Valtype) : ScriptRun Int :=
  CScriptNum.ofVch vch (fRequireMinimal flags)

def evalConditional (isNotIf : Bool) (s : EvalState) : ScriptRun EvalState :=
  if s.fExec then
    match s.stack with
    | [] => setError .SCRIPT_ERR_UNBALANCED_CONDITIONAL
    | vch :: st => .ok { s with stack := st, vfExec := (castToBool vch != isNotIf) :: s.vfExec }
  else .ok { s with vfExec := false :: s.vfExec }

/-- `OP_PICK` and `OP_ROLL`. -/
def evalPick (roll : Bool) (s : EvalState) : ScriptRun EvalState :=
  match s.stack with
  | top :: x :: st => do
    let n := CScriptNum.getint (← number flags top)
    let st := x :: st
    failIf (decide (n < 0) || decide ((st.length : Int) ≤ n)) .SCRIPT_ERR_INVALID_STACK_OPERATION
    let vch := st.getD n.toNat []
    pure (s.withStack (vch :: if roll then st.eraseIdx n.toNat else st))
  | _ => setError .SCRIPT_ERR_INVALID_STACK_OPERATION

def evalUnary (op : UnaryOp) (s : EvalState) : ScriptRun EvalState :=
  match s.stack with
  | x :: st => do
    let bn ← number flags x
    pure (s.withStack (CScriptNum.getvch (evalUnaryOp op bn) :: st))
  | _ => setError .SCRIPT_ERR_INVALID_STACK_OPERATION

def evalBinary (op : BinaryOp) (s : EvalState) : ScriptRun EvalState :=
  match s.stack with
  | x2 :: x1 :: st => do
    let bn1 ← number flags x1
    let bn2 ← number flags x2
    let vch := CScriptNum.getvch (evalBinaryOp op bn1 bn2)
    if op = .OP_NUMEQUALVERIFY then
      failIf (!castToBool vch) .SCRIPT_ERR_NUMEQUALVERIFY
      pure (s.withStack st)
    else pure (s.withStack (vch :: st))
  | _ => setError .SCRIPT_ERR_INVALID_STACK_OPERATION

def evalWithin (s : EvalState) : ScriptRun EvalState :=
  match s.stack with
  | x3 :: x2 :: x1 :: st => do
    let bn1 ← number flags x1
    let bn2 ← number flags x2
    let bn3 ← number flags x3
    pure (s.withStack (ofBool (decide (bn2 ≤ bn1) && decide (bn1 < bn3)) :: st))
  | _ => setError .SCRIPT_ERR_INVALID_STACK_OPERATION

/-- `CheckSig`, once the encodings of the signature and the key have been checked. -/
def checkEncodedSig (vchSig vchPubKey : Valtype) (scriptCode : CScript) : ScriptRun Bool := do
  checkSignatureEncoding vchSig flags
  checkPubKeyEncoding vchPubKey flags
  pure (checker.checkSig vchSig vchPubKey scriptCode)

def evalCheckSig (verify : Bool) (s : EvalState) : ScriptRun EvalState :=
  match s.stack with
  | vchPubKey :: vchSig :: st => do
    let scriptCode := findAndDelete s.pbegincodehash (pushScript vchSig)
    let fSuccess ← checkEncodedSig flags checker vchSig vchPubKey scriptCode
    pushResult verify fSuccess .SCRIPT_ERR_CHECKSIGVERIFY s st
  | _ => setError .SCRIPT_ERR_INVALID_STACK_OPERATION

/-- The loop of `OP_CHECKMULTISIG` over the signatures and the keys that are left. -/
def multiSigLoop (scriptCode : CScript) : List Valtype → List Valtype → ScriptRun Bool
  | [], _ => .ok true
  -- There are never more signatures than keys.
  | _ :: _, [] => .ok false
  | vchSig :: sigs, vchPubKey :: keys => do
    let fOk ← checkEncodedSig flags checker vchSig vchPubKey scriptCode
    let left := if fOk then sigs else vchSig :: sigs
    if keys.length < left.length then pure false else multiSigLoop scriptCode left keys
  termination_by structural _ keys => keys

/-- The arguments are, from the top: the number of keys, the keys, the number of signatures, the signatures,
and one more that is not used. -/
def evalCheckMultiSig (verify : Bool) (s : EvalState) : ScriptRun EvalState := do
  let short := ScriptError.SCRIPT_ERR_INVALID_STACK_OPERATION
  failIf (decide (s.stack.length < 1)) short
  let nKeysCount := CScriptNum.getint (← number flags (s.stack.getD 0 []))
  failIf (decide (nKeysCount < 0) || decide (20 < nKeysCount)) .SCRIPT_ERR_PUBKEY_COUNT
  let nKeys := nKeysCount.toNat
  let nOpCount := s.nOpCount + nKeys
  failIf (decide (201 < nOpCount)) .SCRIPT_ERR_OP_COUNT
  failIf (decide (s.stack.length < 2 + nKeys)) short
  let nSigsCount := CScriptNum.getint (← number flags (s.stack.getD (1 + nKeys) []))
  failIf (decide (nSigsCount < 0) || decide (nKeysCount < nSigsCount)) .SCRIPT_ERR_SIG_COUNT
  let nSigs := nSigsCount.toNat
  failIf (decide (s.stack.length < 3 + nKeys + nSigs)) short
  let keys := (s.stack.drop 1).take nKeys
  let sigs := (s.stack.drop (2 + nKeys)).take nSigs
  let scriptCode := sigs.foldl (fun code vchSig => findAndDelete code (pushScript vchSig)) s.pbegincodehash
  let fSuccess ← multiSigLoop flags checker scriptCode sigs keys
  match s.stack.drop (2 + nKeys + nSigs) with
  | [] => setError short
  | dummy :: st =>
    failIf (hasFlag flags SCRIPT_VERIFY_NULLDUMMY && decide (dummy.length ≠ 0)) .SCRIPT_ERR_SIG_NULLDUMMY
    pushResult verify fSuccess .SCRIPT_ERR_CHECKMULTISIGVERIFY { s with nOpCount := nOpCount } st

/-- The switch of `EvalScript`; `pc` is the script after the instruction. -/
def evalOpcode (op : OpcodeType) (pc : CScript) (s : EvalState) : ScriptRun EvalState :=
  match op with
  | .number n => .ok (s.withStack (CScriptNum.getvch n :: s.stack))
  | .OP_NOP => .ok s
  | .upgradableNop => do
    failIf (hasFlag flags SCRIPT_VERIFY_DISCOURAGE_UPGRADABLE_NOPS)
      .SCRIPT_ERR_DISCOURAGE_UPGRADABLE_NOPS
    pure s
  | .OP_IF => evalConditional false s
  | .OP_NOTIF => evalConditional true s
  | .OP_ELSE =>
    match s.vfExec with
    | [] => setError .SCRIPT_ERR_UNBALANCED_CONDITIONAL
    | b :: vfExec => .ok { s with vfExec := (!b) :: vfExec }
  | .OP_ENDIF =>
    match s.vfExec with
    | [] => setError .SCRIPT_ERR_UNBALANCED_CONDITIONAL
    | _ :: vfExec => .ok { s with vfExec := vfExec }
  | .OP_VERIFY =>
    match s.stack with
    | [] => setError .SCRIPT_ERR_INVALID_STACK_OPERATION
    | vch :: st => if castToBool vch then .ok (s.withStack st) else setError .SCRIPT_ERR_VERIFY
  | .OP_RETURN => setError .SCRIPT_ERR_OP_RETURN
  | .OP_TOALTSTACK =>
    match s.stack with
    | [] => setError .SCRIPT_ERR_INVALID_STACK_OPERATION
    | vch :: st => .ok { s with stack := st, altstack := vch :: s.altstack }
  | .OP_FROMALTSTACK =>
    match s.altstack with
    | [] => setError .SCRIPT_ERR_INVALID_ALTSTACK_OPERATION
    | vch :: altstack => .ok { s with stack := vch :: s.stack, altstack := altstack }
  | .stack op => do
    let st ← evalStackOp op s.stack
    pure (s.withStack st)
  | .OP_PICK => evalPick flags false s
  | .OP_ROLL => evalPick flags true s
  | .OP_EQUAL =>
    match s.stack with
    | x2 :: x1 :: st => pushResult false (decide (x1 = x2)) .SCRIPT_ERR_EQUALVERIFY s st
    | _ => setError .SCRIPT_ERR_INVALID_STACK_OPERATION
  | .OP_EQUALVERIFY =>
    match s.stack with
    | x2 :: x1 :: st => pushResult true (decide (x1 = x2)) .SCRIPT_ERR_EQUALVERIFY s st
    | _ => setError .SCRIPT_ERR_INVALID_STACK_OPERATION
  | .unary op => evalUnary flags op s
  | .binary op => evalBinary flags op s
  | .OP_WITHIN => evalWithin flags s
  | .hash op =>
    match s.stack with
    | [] => setError .SCRIPT_ERR_INVALID_STACK_OPERATION
    | vch :: st => .ok (s.withStack (H.eval op vch :: st))
  | .OP_CODESEPARATOR => .ok { s with pbegincodehash := pc }
  | .OP_CHECKSIG => evalCheckSig flags checker false s
  | .OP_CHECKSIGVERIFY => evalCheckSig flags checker true s
  | .OP_CHECKMULTISIG => evalCheckMultiSig flags checker false s
  | .OP_CHECKMULTISIGVERIFY => evalCheckMultiSig flags checker true s

/-! ## Scripts -/

/-- An instruction is executed, once its opcode has been counted. -/
def execute (op : ScriptOp) (s : EvalState) : ScriptRun EvalState :=
  if s.fExec && decide (op.opcode ≤ OP_PUSHDATA4) then do
    failIf (fRequireMinimal flags && !checkMinimalPush op.vch op.opcode) .SCRIPT_ERR_MINIMALDATA
    pure (s.withStack (op.vch :: s.stack))
  else if s.fExec || (decide (0x63 ≤ op.opcode) && decide (op.opcode ≤ 0x68)) then
    match opcodeType op.opcode with
    | none => setError .SCRIPT_ERR_BAD_OPCODE
    | some case => evalOpcode H flags checker case op.pc s
  else .ok s

/-- One turn of the loop of `EvalScript`. -/
def evalInstruction (op : ScriptOp) (s : EvalState) : ScriptRun EvalState := do
  failIf (decide (MAX_SCRIPT_ELEMENT_SIZE < op.vch.length)) .SCRIPT_ERR_PUSH_SIZE
  let s := if OP_16 < op.opcode then { s with nOpCount := s.nOpCount + 1 } else s
  failIf (decide (OP_16 < op.opcode) && decide (201 < s.nOpCount)) .SCRIPT_ERR_OP_COUNT
  failIf (isDisabled op.opcode) .SCRIPT_ERR_DISABLED_OPCODE
  let s ← execute H flags checker op s
  failIf (decide (1000 < s.stack.length + s.altstack.length)) .SCRIPT_ERR_STACK_SIZE
  pure s

/-- The loop of `EvalScript`.  Every instruction takes at least one byte, so the length of the script bounds
the turns. -/
def evalLoop : Nat → CScript → EvalState → ScriptRun EvalState
  | 0, _, s => .ok s
  | turns + 1, pc, s =>
    if pc.isEmpty then .ok s
    else
      match getOp2 pc with
      | none => setError .SCRIPT_ERR_BAD_OPCODE
      | some op => do
        let s ← evalInstruction H flags checker op s
        evalLoop turns op.pc s

/-- `EvalScript`: the stack that is left. -/
def evalScript (stack : List Valtype) (script : CScript) : ScriptRun (List Valtype) := do
  failIf (decide (10000 < script.length)) .SCRIPT_ERR_SCRIPT_SIZE
  let s ← evalLoop H flags checker script.length script
    { stack := stack, altstack := [], vfExec := [], nOpCount := 0, pbegincodehash := script }
  failIf (!s.vfExec.isEmpty) .SCRIPT_ERR_UNBALANCED_CONDITIONAL
  pure s.stack

/-- The loop of `IsPushOnly`. -/
def isPushOnlyLoop : Nat → CScript → Bool
  | 0, _ => true
  | turns + 1, pc =>
    if pc.isEmpty then true
    else
      match getOp2 pc with
      | none => false
      | some op => if OP_16 < op.opcode then false else isPushOnlyLoop turns op.pc

def isPushOnly (script : CScript) : Bool :=
  isPushOnlyLoop script.length script

/-- The stack is not empty, and its top is true. -/
def requireTrue (stack : List Valtype) : ScriptRun Unit :=
  match stack with
  | [] => setError .SCRIPT_ERR_EVAL_FALSE
  | top :: _ => failIf (!castToBool top) .SCRIPT_ERR_EVAL_FALSE

/-- Why `VerifyScript` did not succeed. -/
inductive ScriptStop where
  | fails (serror : ScriptError)
  /-- An assertion failed. -/
  | crashes
deriving DecidableEq

/-- A part of `VerifyScript` that fails by an error only. -/
def orFails {α : Type} (x : ScriptRun α) : Except ScriptStop α :=
  x.mapError .fails

/-- The part of `VerifyScript` for an output that pays to a script hash. -/
def verifyRedeemScript (scriptSig : CScript) (stackCopy : List Valtype) : Except ScriptStop Unit := do
  orFails (failIf (!isPushOnly scriptSig) .SCRIPT_ERR_SIG_PUSHONLY)
  match stackCopy with
  | [] => .error .crashes
  | pubKeySerialized :: stackCopy =>
    let stack ← orFails (evalScript H flags checker stackCopy pubKeySerialized)
    orFails (requireTrue stack)

def verifyScript (scriptSig scriptPubKey : CScript) : Except ScriptStop Unit := do
  orFails (failIf (hasFlag flags SCRIPT_VERIFY_SIGPUSHONLY && !isPushOnly scriptSig) .SCRIPT_ERR_SIG_PUSHONLY)
  let stackCopy ← orFails (evalScript H flags checker [] scriptSig)
  let stack ← orFails (evalScript H flags checker stackCopy scriptPubKey)
  orFails (requireTrue stack)
  if hasFlag flags SCRIPT_VERIFY_P2SH && isPayToScriptHash scriptPubKey then
    verifyRedeemScript H flags checker scriptSig stackCopy

end

end Reddcoin
