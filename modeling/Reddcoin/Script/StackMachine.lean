import Reddcoin.Script.Interpreter

/-!
# The stack machine

`EvalScript` once more, with everything that could go wrong in it: `stacktop` and `altstacktop` throw outside the
stack, `popstack` throws on an empty stack, the constructor of a number throws `scriptnum_error`, the arithmetic of
`CScriptNum` asserts that there is no overflow, and `erase` and `insert` take iterators that have to be in the
stack.
-/

namespace Reddcoin

/-- The bytes that a hash operation writes. -/
def HashOp.size : HashOp → Nat
  | .OP_RIPEMD160 => 20
  | .OP_SHA1 => 20
  | .OP_SHA256 => 32
  | .OP_HASH160 => 20
  | .OP_HASH256 => 32

/-- The hash functions that scripts can call, with the sizes of what they write. -/
structure ScriptDigests where
  digest : (op : HashOp) → Valtype → Vector UInt8 op.size

def ScriptDigests.hashes (D : ScriptDigests) : ScriptHashes where
  ripemd160 vch := (D.digest .OP_RIPEMD160 vch).toList
  sha1 vch := (D.digest .OP_SHA1 vch).toList
  sha256 vch := (D.digest .OP_SHA256 vch).toList
  hash160 vch := (D.digest .OP_HASH160 vch).toList
  hash256 vch := (D.digest .OP_HASH256 vch).toList

namespace StackMachine

/-- What is thrown inside the `try` of `EvalScript`. -/
inductive EvalException where
  /-- `at` outside a stack. -/
  | outOfRange
  /-- `popstack` of an empty stack. -/
  | stackEmpty
  | scriptnumError
deriving DecidableEq

/-- How a part of `EvalScript` ends early. -/
inductive EvalStop where
  | fails (serror : ScriptError)
  | throws (exception : EvalException)
  /-- An assertion fails, a sum leaves the range of an `int64_t`, or an iterator leaves its stack. -/
  | aborts
deriving DecidableEq

abbrev EvalRun := Except EvalStop

/-- A part that can only fail by an error. -/
def returning {α : Type} (x : ScriptRun α) : EvalRun α :=
  x.mapError .fails

/-- `if (bad) return set_error(serror, ..)`. -/
def returnIf (bad : Bool) (serror : ScriptError) : EvalRun Unit :=
  returning (failIf bad serror)

/-! ## Stacks -/

/-- `stacktop(i)` and `altstacktop(i)`: the element at `stack.size() + i`. -/
def stacktop (stack : List Valtype) : Int → EvalRun Valtype
  | .ofNat _ => .error (.throws .outOfRange)
  | .negSucc k =>
    match stack[k]? with
    | none => .error (.throws .outOfRange)
    | some vch => .ok vch

def popstack : List Valtype → EvalRun (List Valtype)
  | [] => .error (.throws .stackEmpty)
  | _ :: stack => .ok stack

/-- `stacktop(i) = vch`. -/
def setTop (stack : List Valtype) (i : Int) (vch : Valtype) : EvalRun (List Valtype) :=
  match i with
  | .ofNat _ => .error (.throws .outOfRange)
  | .negSucc k => if k < stack.length then .ok (stack.set k vch) else .error (.throws .outOfRange)

/-- `swap(stacktop(i), stacktop(j))`. -/
def swapTops (stack : List Valtype) (i j : Int) : EvalRun (List Valtype) := do
  let vchI ← stacktop stack i
  let vchJ ← stacktop stack j
  let stack ← setTop stack i vchJ
  setTop stack j vchI

/-- `stack.erase(stack.end() + i)`. -/
def eraseTop (stack : List Valtype) : Int → EvalRun (List Valtype)
  | .ofNat _ => .error .aborts
  | .negSucc k => if k < stack.length then .ok (stack.eraseIdx k) else .error .aborts

/-- `stack.erase(stack.end() - first, stack.end() - last)`. -/
def eraseRange (stack : List Valtype) (first last : Nat) : EvalRun (List Valtype) :=
  if last ≤ first ∧ first ≤ stack.length then .ok (stack.take last ++ stack.drop first) else .error .aborts

/-- `stack.insert(stack.end() - place, vch)`. -/
def insertBelow (stack : List Valtype) (place : Nat) (vch : Valtype) : EvalRun (List Valtype) :=
  if place ≤ stack.length then .ok (stack.take place ++ vch :: stack.drop place) else .error .aborts

/-- `if (stack.size() < n) return set_error(serror, SCRIPT_ERR_INVALID_STACK_OPERATION)`. -/
def needs (n : Nat) (stack : List Valtype) : EvalRun Unit :=
  returnIf (decide (stack.length < n)) .SCRIPT_ERR_INVALID_STACK_OPERATION

/-! ## Numbers -/

/-- `std::numeric_limits<int64_t>::min()`. -/
def int64Min : Int := -2 ^ 63

/-- `std::numeric_limits<int64_t>::max()`. -/
def int64Max : Int := 2 ^ 63 - 1

/-- `CScriptNum(vch, fRequireMinimal)`. -/
def scriptNum (vch : Valtype) (fRequireMinimal : Bool) : EvalRun Int :=
  if CScriptNum.nMaxNumSize < vch.length then .error (.throws .scriptnumError)
  else if fRequireMinimal && CScriptNum.notMinimal vch then .error (.throws .scriptnumError)
  else .ok (CScriptNum.setVch vch)

/-- `operator+=`. -/
def addAssign (m_value rhs : Int) : EvalRun Int :=
  if rhs = 0 ∨ (0 < rhs ∧ m_value ≤ int64Max - rhs) ∨ (rhs < 0 ∧ int64Min - rhs ≤ m_value) then .ok (m_value + rhs)
  else .error .aborts

/-- `operator-=`. -/
def subAssign (m_value rhs : Int) : EvalRun Int :=
  if rhs = 0 ∨ (0 < rhs ∧ int64Min + rhs ≤ m_value) ∨ (rhs < 0 ∧ m_value ≤ int64Max + rhs) then .ok (m_value - rhs)
  else .error .aborts

/-- Unary `operator-`. -/
def negate (m_value : Int) : EvalRun Int :=
  if m_value ≠ int64Min then .ok (-m_value) else .error .aborts

/-- `operator+` and `operator-` assert nothing; a result out of range would be undefined. -/
def inInt64 (result : Int) : EvalRun Int :=
  if int64Min ≤ result ∧ result ≤ int64Max then .ok result else .error .aborts

def ofCondition (c : Bool) : Int :=
  if c then 1 else 0

def unaryOp (op : UnaryOp) (bn : Int) : EvalRun Int :=
  match op with
  | .OP_1ADD => addAssign bn 1
  | .OP_1SUB => subAssign bn 1
  | .OP_NEGATE => negate bn
  | .OP_ABS => if bn < 0 then negate bn else .ok bn
  | .OP_NOT => .ok (ofCondition (decide (bn = 0)))
  | .OP_0NOTEQUAL => .ok (ofCondition (decide (bn ≠ 0)))

def binaryOp (op : BinaryOp) (bn1 bn2 : Int) : EvalRun Int :=
  match op with
  | .OP_ADD => inInt64 (bn1 + bn2)
  | .OP_SUB => inInt64 (bn1 - bn2)
  | .OP_BOOLAND => .ok (ofCondition (decide (bn1 ≠ 0) && decide (bn2 ≠ 0)))
  | .OP_BOOLOR => .ok (ofCondition (decide (bn1 ≠ 0) || decide (bn2 ≠ 0)))
  | .OP_NUMEQUAL => .ok (ofCondition (decide (bn1 = bn2)))
  | .OP_NUMEQUALVERIFY => .ok (ofCondition (decide (bn1 = bn2)))
  | .OP_NUMNOTEQUAL => .ok (ofCondition (decide (bn1 ≠ bn2)))
  | .OP_LESSTHAN => .ok (ofCondition (decide (bn1 < bn2)))
  | .OP_GREATERTHAN => .ok (ofCondition (decide (bn2 < bn1)))
  | .OP_LESSTHANOREQUAL => .ok (ofCondition (decide (bn1 ≤ bn2)))
  | .OP_GREATERTHANOREQUAL => .ok (ofCondition (decide (bn2 ≤ bn1)))
  | .OP_MIN => .ok (if bn1 < bn2 then bn1 else bn2)
  | .OP_MAX => .ok (if bn2 < bn1 then bn1 else bn2)

/-! ## Instructions -/

def evalStackOp (op : StackOp) (stack : List Valtype) : EvalRun (List Valtype) :=
  match op with
  | .OP_2DROP => do
    needs 2 stack
    let stack ← popstack stack
    popstack stack
  | .OP_2DUP => do
    needs 2 stack
    let vch1 ← stacktop stack (-2)
    let vch2 ← stacktop stack (-1)
    pure (vch2 :: vch1 :: stack)
  | .OP_3DUP => do
    needs 3 stack
    let vch1 ← stacktop stack (-3)
    let vch2 ← stacktop stack (-2)
    let vch3 ← stacktop stack (-1)
    pure (vch3 :: vch2 :: vch1 :: stack)
  | .OP_2OVER => do
    needs 4 stack
    let vch1 ← stacktop stack (-4)
    let vch2 ← stacktop stack (-3)
    pure (vch2 :: vch1 :: stack)
  | .OP_2ROT => do
    needs 6 stack
    let vch1 ← stacktop stack (-6)
    let vch2 ← stacktop stack (-5)
    let stack ← eraseRange stack 6 4
    pure (vch2 :: vch1 :: stack)
  | .OP_2SWAP => do
    needs 4 stack
    let stack ← swapTops stack (-4) (-2)
    swapTops stack (-3) (-1)
  | .OP_IFDUP => do
    needs 1 stack
    let vch ← stacktop stack (-1)
    pure (if castToBool vch then vch :: stack else stack)
  | .OP_DEPTH => .ok (CScriptNum.getvch stack.length :: stack)
  | .OP_DROP => do
    needs 1 stack
    popstack stack
  | .OP_DUP => do
    needs 1 stack
    let vch ← stacktop stack (-1)
    pure (vch :: stack)
  | .OP_NIP => do
    needs 2 stack
    eraseTop stack (-2)
  | .OP_OVER => do
    needs 2 stack
    let vch ← stacktop stack (-2)
    pure (vch :: stack)
  | .OP_ROT => do
    needs 3 stack
    let stack ← swapTops stack (-3) (-2)
    swapTops stack (-2) (-1)
  | .OP_SWAP => do
    needs 2 stack
    swapTops stack (-2) (-1)
  | .OP_TUCK => do
    needs 2 stack
    let vch ← stacktop stack (-1)
    insertBelow stack 2 vch
  | .OP_SIZE => do
    needs 1 stack
    let vch ← stacktop stack (-1)
    pure (CScriptNum.getvch vch.length :: stack)

/-- The result of a check is pushed; it is popped again when it has to be true. -/
def pushResult (verify fSuccess : Bool) (serror : ScriptError) (s : EvalState) (stack : List Valtype) :
    EvalRun EvalState :=
  let stack := ofBool fSuccess :: stack
  if verify then
    if fSuccess then do
      let stack ← popstack stack
      pure (s.withStack stack)
    else .error (.fails serror)
  else .ok (s.withStack stack)

section

variable (D : ScriptDigests) (flags : Nat) (checker : BaseSignatureChecker)

def evalConditional (isNotIf : Bool) (s : EvalState) : EvalRun EvalState :=
  if s.fExec then do
    returnIf (decide (s.stack.length < 1)) .SCRIPT_ERR_UNBALANCED_CONDITIONAL
    let vch ← stacktop s.stack (-1)
    let fValue := if isNotIf then !castToBool vch else castToBool vch
    let stack ← popstack s.stack
    pure { s with stack := stack, vfExec := fValue :: s.vfExec }
  else .ok { s with vfExec := false :: s.vfExec }

def evalVerify (s : EvalState) : EvalRun EvalState := do
  needs 1 s.stack
  let vch ← stacktop s.stack (-1)
  if castToBool vch then do
    let stack ← popstack s.stack
    pure (s.withStack stack)
  else .error (.fails .SCRIPT_ERR_VERIFY)

def evalToAltStack (s : EvalState) : EvalRun EvalState := do
  needs 1 s.stack
  let vch ← stacktop s.stack (-1)
  let stack ← popstack s.stack
  pure { s with stack := stack, altstack := vch :: s.altstack }

def evalFromAltStack (s : EvalState) : EvalRun EvalState := do
  returnIf (decide (s.altstack.length < 1)) .SCRIPT_ERR_INVALID_ALTSTACK_OPERATION
  let vch ← stacktop s.altstack (-1)
  let altstack ← popstack s.altstack
  pure { s with stack := vch :: s.stack, altstack := altstack }

def evalPick (roll : Bool) (s : EvalState) : EvalRun EvalState := do
  needs 2 s.stack
  let top ← stacktop s.stack (-1)
  let bn ← scriptNum top (fRequireMinimal flags)
  let n := CScriptNum.getint bn
  let stack ← popstack s.stack
  returnIf (decide (n < 0) || decide ((stack.length : Int) ≤ n)) .SCRIPT_ERR_INVALID_STACK_OPERATION
  let vch ← stacktop stack (-n - 1)
  let stack ← if roll then eraseTop stack (-n - 1) else .ok stack
  pure (s.withStack (vch :: stack))

def evalEqual (verify : Bool) (s : EvalState) : EvalRun EvalState := do
  needs 2 s.stack
  let vch1 ← stacktop s.stack (-2)
  let vch2 ← stacktop s.stack (-1)
  let stack ← popstack s.stack
  let stack ← popstack stack
  pushResult verify (decide (vch1 = vch2)) .SCRIPT_ERR_EQUALVERIFY s stack

def evalUnary (op : UnaryOp) (s : EvalState) : EvalRun EvalState := do
  needs 1 s.stack
  let vch ← stacktop s.stack (-1)
  let bn ← scriptNum vch (fRequireMinimal flags)
  let bn ← unaryOp op bn
  let stack ← popstack s.stack
  pure (s.withStack (CScriptNum.getvch bn :: stack))

def evalBinary (op : BinaryOp) (s : EvalState) : EvalRun EvalState := do
  needs 2 s.stack
  let vch1 ← stacktop s.stack (-2)
  let bn1 ← scriptNum vch1 (fRequireMinimal flags)
  let vch2 ← stacktop s.stack (-1)
  let bn2 ← scriptNum vch2 (fRequireMinimal flags)
  let bn ← binaryOp op bn1 bn2
  let stack ← popstack s.stack
  let stack ← popstack stack
  let stack := CScriptNum.getvch bn :: stack
  if op = .OP_NUMEQUALVERIFY then do
    let vch ← stacktop stack (-1)
    returnIf (!castToBool vch) .SCRIPT_ERR_NUMEQUALVERIFY
    let stack ← popstack stack
    pure (s.withStack stack)
  else .ok (s.withStack stack)

def evalWithin (s : EvalState) : EvalRun EvalState := do
  needs 3 s.stack
  let vch1 ← stacktop s.stack (-3)
  let bn1 ← scriptNum vch1 (fRequireMinimal flags)
  let vch2 ← stacktop s.stack (-2)
  let bn2 ← scriptNum vch2 (fRequireMinimal flags)
  let vch3 ← stacktop s.stack (-1)
  let bn3 ← scriptNum vch3 (fRequireMinimal flags)
  let stack ← popstack s.stack
  let stack ← popstack stack
  let stack ← popstack stack
  pure (s.withStack (ofBool (decide (bn2 ≤ bn1) && decide (bn1 < bn3)) :: stack))

def evalHash (op : HashOp) (s : EvalState) : EvalRun EvalState := do
  needs 1 s.stack
  let vch ← stacktop s.stack (-1)
  let stack ← popstack s.stack
  pure (s.withStack ((D.digest op vch).toList :: stack))

def evalCheckSig (verify : Bool) (s : EvalState) : EvalRun EvalState := do
  needs 2 s.stack
  let vchSig ← stacktop s.stack (-2)
  let vchPubKey ← stacktop s.stack (-1)
  let scriptCode := findAndDelete s.pbegincodehash (pushScript vchSig)
  let fSuccess ← returning (checkEncodedSig flags checker vchSig vchPubKey scriptCode)
  let stack ← popstack s.stack
  let stack ← popstack stack
  pushResult verify fSuccess .SCRIPT_ERR_CHECKSIGVERIFY s stack

/-! ## `OP_CHECKMULTISIG` -/

/-- The loop `for (int k = 0; k < nSigsCount; k++)` with the turns that are left. -/
def deleteSigs (stack : List Valtype) (isig : Int) : Nat → Int → CScript → EvalRun CScript
  | 0, _, scriptCode => .ok scriptCode
  | turns + 1, k, scriptCode => do
    let vchSig ← stacktop stack (-isig - k)
    deleteSigs stack isig turns (k + 1) (findAndDelete scriptCode (pushScript vchSig))

/-- The variables of the loop over the signatures and the keys. -/
structure MultiSigVars where
  fSuccess : Bool
  isig : Int
  ikey : Int
  nSigsCount : Int
  nKeysCount : Int

/-- The variables after a key has been tried for a signature. -/
def MultiSigVars.next (v : MultiSigVars) (fOk : Bool) : MultiSigVars :=
  let isig := if fOk then v.isig + 1 else v.isig
  let nSigsCount := if fOk then v.nSigsCount - 1 else v.nSigsCount
  let nKeysCount := v.nKeysCount - 1
  { fSuccess := if nKeysCount < nSigsCount then false else v.fSuccess
    isig := isig
    ikey := v.ikey + 1
    nSigsCount := nSigsCount
    nKeysCount := nKeysCount }

/-- One turn of the loop. -/
def multiSigTurn (stack : List Valtype) (scriptCode : CScript) (v : MultiSigVars) : EvalRun MultiSigVars := do
  let vchSig ← stacktop stack (-v.isig)
  let vchPubKey ← stacktop stack (-v.ikey)
  let fOk ← returning (checkEncodedSig flags checker vchSig vchPubKey scriptCode)
  pure (v.next fOk)

/-- `while (fSuccess && nSigsCount > 0)`, with a bound on the turns. -/
def multiSigWhile (stack : List Valtype) (scriptCode : CScript) : Nat → MultiSigVars → EvalRun Bool
  | 0, v => if v.fSuccess && decide (0 < v.nSigsCount) then .error .aborts else .ok v.fSuccess
  | turns + 1, v =>
    if v.fSuccess && decide (0 < v.nSigsCount) then do
      let v ← multiSigTurn flags checker stack scriptCode v
      multiSigWhile stack scriptCode turns v
    else .ok v.fSuccess

/-- `while (i-- > 1) popstack(stack)`. -/
def popArguments : Nat → List Valtype → EvalRun (List Valtype)
  | 0, stack => .ok stack
  | i + 1, stack =>
    if 1 < i + 1 then do
      let stack ← popstack stack
      popArguments i stack
    else .ok stack

/-- The argument that is not used has to be empty under `SCRIPT_VERIFY_NULLDUMMY`. -/
def checkNullDummy (stack : List Valtype) : EvalRun Unit :=
  if hasFlag flags SCRIPT_VERIFY_NULLDUMMY then do
    let dummy ← stacktop stack (-1)
    returnIf (decide (dummy.length ≠ 0)) .SCRIPT_ERR_SIG_NULLDUMMY
  else .ok ()

def evalCheckMultiSig (verify : Bool) (s : EvalState) : EvalRun EvalState := do
  let short := ScriptError.SCRIPT_ERR_INVALID_STACK_OPERATION
  let i : Int := 1
  returnIf (decide ((s.stack.length : Int) < i)) short
  let vch ← stacktop s.stack (-i)
  let bn ← scriptNum vch (fRequireMinimal flags)
  let nKeysCount := CScriptNum.getint bn
  returnIf (decide (nKeysCount < 0) || decide (20 < nKeysCount)) .SCRIPT_ERR_PUBKEY_COUNT
  let nOpCount := s.nOpCount + nKeysCount.toNat
  returnIf (decide (201 < nOpCount)) .SCRIPT_ERR_OP_COUNT
  let ikey := i + 1
  let i := ikey + nKeysCount
  returnIf (decide ((s.stack.length : Int) < i)) short
  let vch ← stacktop s.stack (-i)
  let bn ← scriptNum vch (fRequireMinimal flags)
  let nSigsCount := CScriptNum.getint bn
  returnIf (decide (nSigsCount < 0) || decide (nKeysCount < nSigsCount)) .SCRIPT_ERR_SIG_COUNT
  let isig := i + 1
  let i := isig + nSigsCount
  returnIf (decide ((s.stack.length : Int) < i)) short
  let scriptCode ← deleteSigs s.stack isig nSigsCount.toNat 0 s.pbegincodehash
  let fSuccess ← multiSigWhile flags checker s.stack scriptCode nKeysCount.toNat
    { fSuccess := true, isig := isig, ikey := ikey, nSigsCount := nSigsCount, nKeysCount := nKeysCount }
  let stack ← popArguments i.toNat s.stack
  needs 1 stack
  checkNullDummy flags stack
  let stack ← popstack stack
  pushResult verify fSuccess .SCRIPT_ERR_CHECKMULTISIGVERIFY { s with nOpCount := nOpCount } stack

/-! ## Scripts -/

/-- The switch of `EvalScript`; `pc` is the script after the instruction. -/
def evalOpcode (op : OpcodeType) (pc : CScript) (s : EvalState) : EvalRun EvalState :=
  match op with
  | .number n => .ok (s.withStack (CScriptNum.getvch n :: s.stack))
  | .OP_NOP => .ok s
  | .upgradableNop => do
    returnIf (hasFlag flags SCRIPT_VERIFY_DISCOURAGE_UPGRADABLE_NOPS) .SCRIPT_ERR_DISCOURAGE_UPGRADABLE_NOPS
    pure s
  | .OP_IF => evalConditional false s
  | .OP_NOTIF => evalConditional true s
  | .OP_ELSE =>
    match s.vfExec with
    | [] => .error (.fails .SCRIPT_ERR_UNBALANCED_CONDITIONAL)
    | b :: vfExec => .ok { s with vfExec := (!b) :: vfExec }
  | .OP_ENDIF =>
    match s.vfExec with
    | [] => .error (.fails .SCRIPT_ERR_UNBALANCED_CONDITIONAL)
    | _ :: vfExec => .ok { s with vfExec := vfExec }
  | .OP_VERIFY => evalVerify s
  | .OP_RETURN => .error (.fails .SCRIPT_ERR_OP_RETURN)
  | .OP_TOALTSTACK => evalToAltStack s
  | .OP_FROMALTSTACK => evalFromAltStack s
  | .stack op => do
    let stack ← evalStackOp op s.stack
    pure (s.withStack stack)
  | .OP_PICK => evalPick flags false s
  | .OP_ROLL => evalPick flags true s
  | .OP_EQUAL => evalEqual false s
  | .OP_EQUALVERIFY => evalEqual true s
  | .unary op => evalUnary flags op s
  | .binary op => evalBinary flags op s
  | .OP_WITHIN => evalWithin flags s
  | .hash op => evalHash D op s
  | .OP_CODESEPARATOR => .ok { s with pbegincodehash := pc }
  | .OP_CHECKSIG => evalCheckSig flags checker false s
  | .OP_CHECKSIGVERIFY => evalCheckSig flags checker true s
  | .OP_CHECKMULTISIG => evalCheckMultiSig flags checker false s
  | .OP_CHECKMULTISIGVERIFY => evalCheckMultiSig flags checker true s

/-- An instruction is executed, once its opcode has been counted. -/
def execute (op : ScriptOp) (s : EvalState) : EvalRun EvalState :=
  if s.fExec && decide (op.opcode ≤ OP_PUSHDATA4) then do
    returnIf (fRequireMinimal flags && !checkMinimalPush op.vch op.opcode) .SCRIPT_ERR_MINIMALDATA
    pure (s.withStack (op.vch :: s.stack))
  else if s.fExec || (decide (0x63 ≤ op.opcode) && decide (op.opcode ≤ 0x68)) then
    match opcodeType op.opcode with
    | none => .error (.fails .SCRIPT_ERR_BAD_OPCODE)
    | some case => evalOpcode D flags checker case op.pc s
  else .ok s

/-- One turn of the loop of `EvalScript`. -/
def evalInstruction (op : ScriptOp) (s : EvalState) : EvalRun EvalState := do
  returnIf (decide (MAX_SCRIPT_ELEMENT_SIZE < op.vch.length)) .SCRIPT_ERR_PUSH_SIZE
  let s := if OP_16 < op.opcode then { s with nOpCount := s.nOpCount + 1 } else s
  returnIf (decide (OP_16 < op.opcode) && decide (201 < s.nOpCount)) .SCRIPT_ERR_OP_COUNT
  returnIf (isDisabled op.opcode) .SCRIPT_ERR_DISABLED_OPCODE
  let s ← execute D flags checker op s
  returnIf (decide (1000 < s.stack.length + s.altstack.length)) .SCRIPT_ERR_STACK_SIZE
  pure s

/-- `while (pc < pend)`, with a bound on the turns. -/
def evalLoop : Nat → CScript → EvalState → EvalRun EvalState
  | 0, pc, s => if pc.isEmpty then .ok s else .error .aborts
  | turns + 1, pc, s =>
    if pc.isEmpty then .ok s
    else
      match getOp2 pc with
      | none => .error (.fails .SCRIPT_ERR_BAD_OPCODE)
      | some op => do
        let s ← evalInstruction D flags checker op s
        evalLoop turns op.pc s

/-- The variables of `EvalScript` before the loop. -/
def start (stack : List Valtype) (script : CScript) : EvalState :=
  { stack := stack, altstack := [], vfExec := [], nOpCount := 0, pbegincodehash := script }

/-- `catch (...)`. -/
def catchAll {α : Type} : EvalRun α → EvalRun α
  | .error (.throws _) => .error (.fails .SCRIPT_ERR_UNKNOWN_ERROR)
  | x => x

/-- `EvalScript`: the stack that is left. -/
def evalScript (stack : List Valtype) (script : CScript) : EvalRun (List Valtype) := do
  returnIf (decide (10000 < script.length)) .SCRIPT_ERR_SCRIPT_SIZE
  let s ← catchAll (evalLoop D flags checker script.length script (start stack script))
  returnIf (!s.vfExec.isEmpty) .SCRIPT_ERR_UNBALANCED_CONDITIONAL
  pure s.stack

end

end StackMachine

end Reddcoin
