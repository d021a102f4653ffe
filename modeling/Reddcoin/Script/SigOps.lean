import Reddcoin.Lib.Counted
import Reddcoin.Script.Interpreter
import Reddcoin.Validation.State

/-!
# Signature checks and their count

`EvalScript` with a count of its calls of `CheckSig`, against `GetSigOpCount(true)`.
-/

namespace Reddcoin

/-! ## The calls of `CheckSig` -/

namespace SigOps

abbrev CountedRun := Counted ScriptError

section

variable (H : ScriptHashes) (flags : Nat) (checker : BaseSignatureChecker)

def checkEncodedSig (vchSig vchPubKey : Valtype) (scriptCode : CScript) : CountedRun Bool := do
  .free (checkSignatureEncoding vchSig flags)
  .free (checkPubKeyEncoding vchPubKey flags)
  .call (checker.checkSig vchSig vchPubKey scriptCode)

def evalCheckSig (verify : Bool) (s : EvalState) : CountedRun EvalState :=
  match s.stack with
  | vchPubKey :: vchSig :: st => do
    let scriptCode := findAndDelete s.pbegincodehash (pushScript vchSig)
    let fSuccess ← checkEncodedSig flags checker vchSig vchPubKey scriptCode
    .free (pushResult verify fSuccess .SCRIPT_ERR_CHECKSIGVERIFY s st)
  | _ => .free (setError .SCRIPT_ERR_INVALID_STACK_OPERATION)

def multiSigLoop (scriptCode : CScript) : List Valtype → List Valtype → CountedRun Bool
  | [], _ => .free (.ok true)
  | _ :: _, [] => .free (.ok false)
  | vchSig :: sigs, vchPubKey :: keys => do
    let fOk ← checkEncodedSig flags checker vchSig vchPubKey scriptCode
    let left := if fOk then sigs else vchSig :: sigs
    if keys.length < left.length then pure false else multiSigLoop scriptCode left keys
  termination_by structural _ keys => keys

def evalCheckMultiSig (verify : Bool) (s : EvalState) : CountedRun EvalState := do
  let short := ScriptError.SCRIPT_ERR_INVALID_STACK_OPERATION
  .free (failIf (decide (s.stack.length < 1)) short)
  let bn ← .free (number flags (s.stack.getD 0 []))
  let nKeysCount := CScriptNum.getint bn
  .free (failIf (decide (nKeysCount < 0) || decide (20 < nKeysCount)) .SCRIPT_ERR_PUBKEY_COUNT)
  let nKeys := nKeysCount.toNat
  let nOpCount := s.nOpCount + nKeys
  .free (failIf (decide (201 < nOpCount)) .SCRIPT_ERR_OP_COUNT)
  .free (failIf (decide (s.stack.length < 2 + nKeys)) short)
  let bn ← .free (number flags (s.stack.getD (1 + nKeys) []))
  let nSigsCount := CScriptNum.getint bn
  .free (failIf (decide (nSigsCount < 0) || decide (nKeysCount < nSigsCount)) .SCRIPT_ERR_SIG_COUNT)
  let nSigs := nSigsCount.toNat
  .free (failIf (decide (s.stack.length < 3 + nKeys + nSigs)) short)
  let keys := (s.stack.drop 1).take nKeys
  let sigs := (s.stack.drop (2 + nKeys)).take nSigs
  let scriptCode := sigs.foldl (fun code vchSig => findAndDelete code (pushScript vchSig)) s.pbegincodehash
  let fSuccess ← multiSigLoop flags checker scriptCode sigs keys
  .free (match s.stack.drop (2 + nKeys + nSigs) with
    | [] => setError short
    | dummy :: st => do
      failIf (hasFlag flags SCRIPT_VERIFY_NULLDUMMY && decide (dummy.length ≠ 0)) .SCRIPT_ERR_SIG_NULLDUMMY
      pushResult verify fSuccess .SCRIPT_ERR_CHECKMULTISIGVERIFY { s with nOpCount := nOpCount } st)

/-- The other cases of the switch do not call `CheckSig`. -/
def evalOpcode (op : OpcodeType) (pc : CScript) (s : EvalState) : CountedRun EvalState :=
  match op with
  | .OP_CHECKSIG => evalCheckSig flags checker false s
  | .OP_CHECKSIGVERIFY => evalCheckSig flags checker true s
  | .OP_CHECKMULTISIG => evalCheckMultiSig flags checker false s
  | .OP_CHECKMULTISIGVERIFY => evalCheckMultiSig flags checker true s
  | op => .free (Reddcoin.evalOpcode H flags checker op pc s)

def execute (op : ScriptOp) (s : EvalState) : CountedRun EvalState :=
  if s.fExec && decide (op.opcode ≤ OP_PUSHDATA4) then do
    .free (failIf (fRequireMinimal flags && !checkMinimalPush op.vch op.opcode) .SCRIPT_ERR_MINIMALDATA)
    pure (s.withStack (op.vch :: s.stack))
  else if s.fExec || (decide (0x63 ≤ op.opcode) && decide (op.opcode ≤ 0x68)) then
    match opcodeType op.opcode with
    | none => .free (setError .SCRIPT_ERR_BAD_OPCODE)
    | some case => evalOpcode H flags checker case op.pc s
  else .free (.ok s)

def evalInstruction (op : ScriptOp) (s : EvalState) : CountedRun EvalState := do
  .free (failIf (decide (MAX_SCRIPT_ELEMENT_SIZE < op.vch.length)) .SCRIPT_ERR_PUSH_SIZE)
  let s := if OP_16 < op.opcode then { s with nOpCount := s.nOpCount + 1 } else s
  .free (failIf (decide (OP_16 < op.opcode) && decide (201 < s.nOpCount)) .SCRIPT_ERR_OP_COUNT)
  .free (failIf (isDisabled op.opcode) .SCRIPT_ERR_DISABLED_OPCODE)
  let s ← execute H flags checker op s
  .free (failIf (decide (1000 < s.stack.length + s.altstack.length)) .SCRIPT_ERR_STACK_SIZE)
  pure s

def evalLoop : Nat → CScript → EvalState → CountedRun EvalState
  | 0, _, s => .free (.ok s)
  | turns + 1, pc, s =>
    if pc.isEmpty then .free (.ok s)
    else
      match getOp2 pc with
      | none => .free (setError .SCRIPT_ERR_BAD_OPCODE)
      | some op => do
        let s ← evalInstruction H flags checker op s
        evalLoop turns op.pc s

def evalScript (stack : List Valtype) (script : CScript) : CountedRun (List Valtype) := do
  .free (failIf (decide (10000 < script.length)) .SCRIPT_ERR_SCRIPT_SIZE)
  let s ← evalLoop H flags checker script.length script
    { stack := stack, altstack := [], vfExec := [], nOpCount := 0, pbegincodehash := script }
  .free (failIf (!s.vfExec.isEmpty) .SCRIPT_ERR_UNBALANCED_CONDITIONAL)
  pure s.stack

end

/-! ## Without the count -/

section

variable {H : ScriptHashes} {flags : Nat} {checker : BaseSignatureChecker}

theorem checkEncodedSig_result (vchSig vchPubKey : Valtype) (scriptCode : CScript) :
    (checkEncodedSig flags checker vchSig vchPubKey scriptCode).result =
      Reddcoin.checkEncodedSig flags checker vchSig vchPubKey scriptCode :=
  Counted.result_bind rfl fun _ => Counted.result_bind rfl fun _ => rfl

theorem evalCheckSig_result (verify : Bool) (s : EvalState) :
    (evalCheckSig flags checker verify s).result = Reddcoin.evalCheckSig flags checker verify s := by
  rw [evalCheckSig, Reddcoin.evalCheckSig]
  rcases s.stack with _ | ⟨vchPubKey, _ | ⟨vchSig, st⟩⟩
  · rfl
  · rfl
  · exact Counted.result_bind (checkEncodedSig_result ..) fun _ => rfl

theorem multiSigLoop_result (scriptCode : CScript) (sigs keys : List Valtype) :
    (multiSigLoop flags checker scriptCode sigs keys).result =
      Reddcoin.multiSigLoop flags checker scriptCode sigs keys := by
  induction keys generalizing sigs with
  | nil =>
    cases sigs with
    | nil => rfl
    | cons vchSig sigs => rfl
  | cons vchPubKey keys ih =>
    cases sigs with
    | nil => rfl
    | cons vchSig sigs =>
      rw [multiSigLoop, Reddcoin.multiSigLoop]
      refine Counted.result_bind (checkEncodedSig_result ..) fun fOk => ?_
      by_cases hleft : keys.length < (if fOk then sigs else vchSig :: sigs).length
      · rw [if_pos hleft, if_pos hleft]
        rfl
      · rw [if_neg hleft, if_neg hleft]
        exact ih _

theorem evalCheckMultiSig_result (verify : Bool) (s : EvalState) :
    (evalCheckMultiSig flags checker verify s).result = Reddcoin.evalCheckMultiSig flags checker verify s := by
  refine Counted.result_bind rfl fun _ => Counted.result_bind rfl fun bn => Counted.result_bind rfl fun _ =>
    Counted.result_bind rfl fun _ => Counted.result_bind rfl fun _ => Counted.result_bind rfl fun bn' =>
    Counted.result_bind rfl fun _ => Counted.result_bind rfl fun _ =>
    Counted.result_bind (multiSigLoop_result ..) fun fSuccess => ?_
  rfl

theorem evalOpcode_result (op : OpcodeType) (pc : CScript) (s : EvalState) :
    (evalOpcode H flags checker op pc s).result = Reddcoin.evalOpcode H flags checker op pc s := by
  cases op with
  | OP_CHECKSIG => exact evalCheckSig_result false s
  | OP_CHECKSIGVERIFY => exact evalCheckSig_result true s
  | OP_CHECKMULTISIG => exact evalCheckMultiSig_result false s
  | OP_CHECKMULTISIGVERIFY => exact evalCheckMultiSig_result true s
  | _ => rfl

theorem execute_result (op : ScriptOp) (s : EvalState) :
    (execute H flags checker op s).result = Reddcoin.execute H flags checker op s := by
  rw [execute, Reddcoin.execute]
  by_cases hpush : (s.fExec && decide (op.opcode ≤ OP_PUSHDATA4)) = true
  · rw [if_pos hpush, if_pos hpush]
    exact Counted.result_bind rfl fun _ => rfl
  · rw [if_neg hpush, if_neg hpush]
    by_cases hexec : (s.fExec || (decide (0x63 ≤ op.opcode) && decide (op.opcode ≤ 0x68))) = true
    · rw [if_pos hexec, if_pos hexec]
      cases opcodeType op.opcode with
      | none => rfl
      | some case => exact evalOpcode_result case op.pc s
    · rw [if_neg hexec, if_neg hexec]
      rfl

theorem evalInstruction_result (op : ScriptOp) (s : EvalState) :
    (evalInstruction H flags checker op s).result = Reddcoin.evalInstruction H flags checker op s :=
  Counted.result_bind rfl fun _ => Counted.result_bind rfl fun _ => Counted.result_bind rfl fun _ =>
    Counted.result_bind (execute_result ..) fun _ => Counted.result_bind rfl fun _ => rfl

theorem evalLoop_result (turns : Nat) (pc : CScript) (s : EvalState) :
    (evalLoop H flags checker turns pc s).result = Reddcoin.evalLoop H flags checker turns pc s := by
  induction turns generalizing pc s with
  | zero => rfl
  | succ turns ih =>
    rw [evalLoop, Reddcoin.evalLoop]
    by_cases hend : pc.isEmpty = true
    · rw [if_pos hend, if_pos hend]
      rfl
    · rw [if_neg hend, if_neg hend]
      cases getOp2 pc with
      | none => rfl
      | some op => exact Counted.result_bind (evalInstruction_result op s) fun s' => ih op.pc s'

theorem evalScript_result (stack : List Valtype) (script : CScript) :
    (evalScript H flags checker stack script).result = Reddcoin.evalScript H flags checker stack script :=
  Counted.result_bind rfl fun _ => Counted.result_bind (evalLoop_result ..) fun _ =>
    Counted.result_bind rfl fun _ => rfl

end

end SigOps

/-! ## The bound -/

/-- What `GetSigOpCount(true)` adds for an instruction behind another one. -/
def sigOpsOf (lastOpcode opcode : Nat) : Nat :=
  if opcode = OP_CHECKSIG ∨ opcode = OP_CHECKSIGVERIFY then 1
  else if opcode = OP_CHECKMULTISIG ∨ opcode = OP_CHECKMULTISIGVERIFY then
    if OP_1 ≤ lastOpcode ∧ lastOpcode ≤ OP_16 then lastOpcode - (OP_1 - 1) else 20
  else 0

theorem sigOpCountLoop_some {turns lastOpcode : Nat} {pc : CScript} {op : ScriptOp} (h : getOp2 pc = some op) :
    sigOpCountLoop true (turns + 1) lastOpcode pc =
      sigOpsOf lastOpcode op.opcode + sigOpCountLoop true turns op.opcode op.pc := by
  rw [sigOpCountLoop, h]
  simp only [sigOpsOf, true_and]

/-- The number that an instruction has pushed is still on top, if the script is being executed there. -/
def LastPushed (lastOpcode : Nat) (s : EvalState) : Prop :=
  OP_1 ≤ lastOpcode → lastOpcode ≤ OP_16 → s.fExec = true →
    ∃ st, s.stack = CScriptNum.getvch ((lastOpcode : Int) - (OP_1 - 1 : Nat)) :: st

section

variable {H : ScriptHashes} {flags : Nat} {checker : BaseSignatureChecker} {lastOpcode : Nat} {s s' : EvalState}

theorem checkEncodedSig_calls (vchSig vchPubKey : Valtype) (scriptCode : CScript) :
    (SigOps.checkEncodedSig flags checker vchSig vchPubKey scriptCode).calls ≤ 1 :=
  Counted.calls_free_bind_le fun _ _ => Counted.calls_free_bind_le fun _ _ => Nat.le_refl 1

/-- Every turn of the loop takes a key. -/
theorem multiSigLoop_calls (scriptCode : CScript) (sigs keys : List Valtype) :
    (SigOps.multiSigLoop flags checker scriptCode sigs keys).calls ≤ keys.length := by
  induction keys generalizing sigs with
  | nil =>
    cases sigs with
    | nil | cons vchSig sigs => exact Nat.le_refl 0
  | cons vchPubKey keys ih =>
    cases sigs with
    | nil => exact Nat.zero_le _
    | cons vchSig sigs =>
      rw [SigOps.multiSigLoop, List.length_cons, Nat.add_comm]
      apply Counted.calls_bind_le (checkEncodedSig_calls ..)
      intro fOk _
      by_cases hleft : keys.length < (if fOk then sigs else vchSig :: sigs).length
      · rw [if_pos hleft]
        exact Nat.zero_le _
      · rw [if_neg hleft]
        exact ih _

theorem evalCheckSig_calls (verify : Bool) (s : EvalState) :
    (SigOps.evalCheckSig flags checker verify s).calls ≤ 1 := by
  rw [SigOps.evalCheckSig]
  rcases s.stack with _ | ⟨vchPubKey, _ | ⟨vchSig, st⟩⟩
  · exact Nat.zero_le 1
  · exact Nat.zero_le 1
  · exact Counted.calls_bind_free_le (checkEncodedSig_calls ..) fun _ => rfl

/-- The checks are as many as the keys at most, and the number of keys is read from the top of the stack. -/
theorem evalCheckMultiSig_calls {n : Nat} (verify : Bool) (s : EvalState)
    (hn : ∀ bn, number flags (s.stack.getD 0 []) = .ok bn → CScriptNum.getint bn ≤ 20 →
      (CScriptNum.getint bn).toNat ≤ n) :
    (SigOps.evalCheckMultiSig flags checker verify s).calls ≤ n := by
  refine Counted.calls_free_bind_le fun _ _ => Counted.calls_free_bind_le fun bn hbn =>
    Counted.calls_free_bind_le fun _ hcount => Counted.calls_free_bind_le fun _ _ =>
    Counted.calls_free_bind_le fun _ _ => Counted.calls_free_bind_le fun bn' _ =>
    Counted.calls_free_bind_le fun _ _ => Counted.calls_free_bind_le fun _ _ =>
    Counted.calls_bind_free_le ?_ fun _ => rfl
  have htwenty : CScriptNum.getint bn ≤ 20 := by
    rw [failIf] at hcount
    split_ifs at hcount with hbad
    · cases hcount
    · rw [Bool.or_eq_true, decide_eq_true_eq, decide_eq_true_eq] at hbad
      omega
  refine Nat.le_trans (multiSigLoop_calls ..) ?_
  rw [List.length_take]
  exact Nat.le_trans (Nat.min_le_left _ _) (hn bn hbn htwenty)

/-- A small number is read back from the stack. -/
theorem number_small {n : Nat} (h1 : OP_1 ≤ n) (h16 : n ≤ OP_16) {bn : Int}
    (h : number flags (CScriptNum.getvch ((n : Int) - (OP_1 - 1 : Nat))) = .ok bn) :
    (CScriptNum.getint bn).toNat = n - (OP_1 - 1) := by
  have hall : ∀ n < 0x61, OP_1 ≤ n → ∀ b : Bool,
      (CScriptNum.ofVch (CScriptNum.getvch ((n : Int) - (OP_1 - 1 : Nat))) b).toOption =
        some ((n : Int) - (OP_1 - 1 : Nat)) := by decide
  have hlast : OP_16 = 0x60 := rfl
  have hone : OP_1 = 0x51 := rfl
  have hn := hall n (by omega) h1 (fRequireMinimal flags)
  have hbn : (number flags (CScriptNum.getvch ((n : Int) - (OP_1 - 1 : Nat)))).toOption = some bn := by
    rw [h]
    rfl
  rw [number, hn] at hbn
  cases hbn
  rw [CScriptNum.getint, if_neg (by omega), if_neg (by omega)]
  omega

/-- The opcodes of the four cases that check signatures. -/
theorem opcodeType_checks {opcode : Nat} {case : OpcodeType} (h : opcodeType opcode = some case) :
    (case = .OP_CHECKSIG → opcode = OP_CHECKSIG) ∧ (case = .OP_CHECKSIGVERIFY → opcode = OP_CHECKSIGVERIFY) ∧
    (case = .OP_CHECKMULTISIG → opcode = OP_CHECKMULTISIG) ∧
    (case = .OP_CHECKMULTISIGVERIFY → opcode = OP_CHECKMULTISIGVERIFY) := by
  unfold opcodeType at h
  split_ifs at h with hnumber hnop
  · cases h
    refine ⟨?_, ?_, ?_, ?_⟩ <;> intro hcase <;> cases hcase
  · cases h
    refine ⟨?_, ?_, ?_, ?_⟩ <;> intro hcase <;> cases hcase
  · obtain ⟨before, behind, heq, -⟩ := List.lookup_eq_some_iff.mp h
    have hmem : (opcode, case) ∈ opcodeTable := by
      rw [heq]
      exact List.mem_append_right _ List.mem_cons_self
    have hall : ∀ e ∈ opcodeTable, (e.2 = .OP_CHECKSIG → e.1 = OP_CHECKSIG) ∧
        (e.2 = .OP_CHECKSIGVERIFY → e.1 = OP_CHECKSIGVERIFY) ∧
        (e.2 = .OP_CHECKMULTISIG → e.1 = OP_CHECKMULTISIG) ∧
        (e.2 = .OP_CHECKMULTISIGVERIFY → e.1 = OP_CHECKMULTISIGVERIFY) := by decide
    exact hall (opcode, case) hmem

theorem evalOpcode_calls {opcode : Nat} {case : OpcodeType} (hcase : opcodeType opcode = some case) (pc : CScript)
    (hlast : LastPushed lastOpcode s) (hexec : s.fExec) :
    (SigOps.evalOpcode H flags checker case pc s).calls ≤ sigOpsOf lastOpcode opcode := by
  obtain ⟨hsig, hsigVerify, hmulti, hmultiVerify⟩ := opcodeType_checks hcase
  have hkeys : ∀ bn, number flags (s.stack.getD 0 []) = .ok bn → CScriptNum.getint bn ≤ 20 →
      (CScriptNum.getint bn).toNat ≤ if OP_1 ≤ lastOpcode ∧ lastOpcode ≤ OP_16 then lastOpcode - (OP_1 - 1) else 20 := by
    intro bn hbn htwenty
    by_cases hsmall : OP_1 ≤ lastOpcode ∧ lastOpcode ≤ OP_16
    · obtain ⟨st, hst⟩ := hlast hsmall.1 hsmall.2 hexec
      rw [hst] at hbn
      rw [if_pos hsmall, number_small hsmall.1 hsmall.2 hbn]
    · rw [if_neg hsmall]
      omega
  cases case with
  | OP_CHECKSIG =>
    rw [sigOpsOf, if_pos (.inl (hsig rfl))]
    exact evalCheckSig_calls false s
  | OP_CHECKSIGVERIFY =>
    rw [sigOpsOf, if_pos (.inr (hsigVerify rfl))]
    exact evalCheckSig_calls true s
  | OP_CHECKMULTISIG =>
    rw [sigOpsOf, hmulti rfl, if_neg (by decide), if_pos (.inl rfl)]
    exact evalCheckMultiSig_calls false s hkeys
  | OP_CHECKMULTISIGVERIFY =>
    rw [sigOpsOf, hmultiVerify rfl, if_neg (by decide), if_pos (.inr rfl)]
    exact evalCheckMultiSig_calls true s hkeys
  | _ => exact Nat.zero_le _

theorem execute_calls (op : ScriptOp) (hlast : LastPushed lastOpcode s) :
    (SigOps.execute H flags checker op s).calls ≤ sigOpsOf lastOpcode op.opcode := by
  rw [SigOps.execute]
  by_cases hpush : (s.fExec && decide (op.opcode ≤ OP_PUSHDATA4)) = true
  · rw [if_pos hpush]
    exact Counted.calls_free_bind_le fun _ _ => Nat.zero_le _
  rw [if_neg hpush]
  by_cases hexec : (s.fExec || (decide (0x63 ≤ op.opcode) && decide (op.opcode ≤ 0x68))) = true
  · rw [if_pos hexec]
    cases hcase : opcodeType op.opcode with
    | none => exact Nat.zero_le _
    | some case =>
      by_cases hfExec : s.fExec = true
      · exact evalOpcode_calls hcase op.pc hlast hfExec
      · -- a conditional, which checks nothing
        have hrange : 0x63 ≤ op.opcode ∧ op.opcode ≤ 0x68 := by
          rw [Bool.not_eq_true] at hfExec
          rw [hfExec, Bool.false_or, Bool.and_eq_true, decide_eq_true_eq, decide_eq_true_eq] at hexec
          exact hexec
        obtain ⟨hsig, hsigVerify, hmulti, hmultiVerify⟩ := opcodeType_checks hcase
        have hcodes : OP_CHECKSIG = 0xac ∧ OP_CHECKSIGVERIFY = 0xad ∧ OP_CHECKMULTISIG = 0xae ∧
            OP_CHECKMULTISIGVERIFY = 0xaf := by decide
        cases case with
        | OP_CHECKSIG => have := hsig rfl; omega
        | OP_CHECKSIGVERIFY => have := hsigVerify rfl; omega
        | OP_CHECKMULTISIG => have := hmulti rfl; omega
        | OP_CHECKMULTISIGVERIFY => have := hmultiVerify rfl; omega
        | _ => exact Nat.zero_le _
  · rw [if_neg hexec]
    exact Nat.zero_le _

theorem LastPushed.congr (h : LastPushed lastOpcode s) (hstack : s'.stack = s.stack) (hvfExec : s'.vfExec = s.vfExec) :
    LastPushed lastOpcode s' := by
  intro h1 h16 hexec
  rw [EvalState.fExec, hvfExec] at hexec
  rw [hstack]
  exact h h1 h16 hexec

theorem evalInstruction_calls (op : ScriptOp) (hlast : LastPushed lastOpcode s) :
    (SigOps.evalInstruction H flags checker op s).calls ≤ sigOpsOf lastOpcode op.opcode := by
  refine Counted.calls_free_bind_le fun _ _ => Counted.calls_free_bind_le fun _ _ =>
    Counted.calls_free_bind_le fun _ _ => Counted.calls_bind_free_le (execute_calls op ?_) fun _ => ?_
  · by_cases hcounted : OP_16 < op.opcode
    · rw [if_pos hcounted]
      exact hlast.congr rfl rfl
    · rw [if_neg hcounted]
      exact hlast
  · exact Nat.le_zero.mp (Counted.calls_free_bind_le fun _ _ => Nat.le_refl 0)

/-- A small number is pushed, or it is skipped and the script is not being executed behind it either. -/
theorem evalInstruction_lastPushed {op : ScriptOp} (h : evalInstruction H flags checker op s = .ok s') :
    LastPushed op.opcode s' := by
  intro h1 h16 hexec
  unfold evalInstruction at h
  simp only [check_seq_ok, if_neg (Nat.not_lt.mpr h16)] at h
  obtain ⟨-, -, -, h⟩ := h
  obtain ⟨s₁, hrun, h⟩ := check_bind_ok.mp h
  simp only [check_seq_ok, check_pure_ok] at h
  obtain ⟨-, rfl⟩ := h
  have hcodes : OP_1 = 0x51 ∧ OP_16 = 0x60 ∧ OP_PUSHDATA4 = 0x4e := by decide
  have hpush : ¬ op.opcode ≤ OP_PUSHDATA4 := by omega
  have hrange : ¬ 0x63 ≤ op.opcode := by omega
  unfold execute at hrun
  rw [decide_eq_false hpush, decide_eq_false hrange, Bool.and_false, Bool.false_and, Bool.or_false,
    if_neg Bool.false_ne_true] at hrun
  by_cases hfExec : s.fExec = true
  · have hcase : opcodeType op.opcode = some (.number ((op.opcode : Int) - (OP_1 - 1 : Nat))) :=
      if_pos (.inr ⟨h1, h16⟩)
    rw [if_pos hfExec, hcase] at hrun
    cases hrun
    exact ⟨s.stack, rfl⟩
  · rw [if_neg hfExec] at hrun
    cases hrun
    exact absurd hexec hfExec

/-- The loop, and the count from the same place on. -/
theorem evalLoop_calls (turns : Nat) (pc : CScript) (hlast : LastPushed lastOpcode s) :
    (SigOps.evalLoop H flags checker turns pc s).calls ≤ sigOpCountLoop true turns lastOpcode pc := by
  induction turns generalizing lastOpcode pc s with
  | zero => exact Nat.zero_le _
  | succ turns ih =>
    rw [SigOps.evalLoop]
    by_cases hend : pc.isEmpty = true
    · rw [if_pos hend]
      exact Nat.zero_le _
    · rw [if_neg hend]
      cases hop : getOp2 pc with
      | none => exact Nat.zero_le _
      | some op =>
        rw [sigOpCountLoop_some hop]
        apply Counted.calls_bind_le (evalInstruction_calls op hlast)
        intro s' hs'
        rw [SigOps.evalInstruction_result] at hs'
        exact ih op.pc (evalInstruction_lastPushed hs')

end

section

variable (H : ScriptHashes) (flags : Nat) (checker : BaseSignatureChecker) (stack : List Valtype) (script : CScript)

/-- The last opcode, the rest of the script and the state that the loop of `EvalScript` comes to. -/
inductive Comes : Nat → CScript → EvalState → Prop where
  | start : Comes OP_INVALIDOPCODE script
      { stack := stack, altstack := [], vfExec := [], nOpCount := 0, pbegincodehash := script }
  | turn {lastOpcode : Nat} {pc : CScript} {s s' : EvalState} {op : ScriptOp} (before : Comes lastOpcode pc s)
      (read : getOp2 pc = some op) (run : evalInstruction H flags checker op s = .ok s') : Comes op.opcode op.pc s'

variable {H flags checker stack script}

theorem Comes.lastPushed {lastOpcode : Nat} {pc : CScript} {s : EvalState}
    (h : Comes H flags checker stack script lastOpcode pc s) : LastPushed lastOpcode s := by
  induction h with
  | start =>
    intro _ h16
    have hcodes : OP_INVALIDOPCODE = 0xff ∧ OP_16 = 0x60 := by decide
    omega
  | turn _ _ hrun _ => exact evalInstruction_lastPushed hrun

end

/-- `EvalScript` calls `CheckSig` at most as often as `GetSigOpCount(true)` counts, and every instruction at most as
often as was counted for it. -/
theorem evalScript_calls_le (H : ScriptHashes) (flags : Nat) (checker : BaseSignatureChecker) (stack : List Valtype)
    (script : CScript) :
    (SigOps.evalScript H flags checker stack script).result = evalScript H flags checker stack script ∧
    (SigOps.evalScript H flags checker stack script).calls ≤ getSigOpCount true script ∧
    ∀ lastOpcode pc s, Comes H flags checker stack script lastOpcode pc s → ∀ op, getOp2 pc = some op →
      (SigOps.evalInstruction H flags checker op s).calls ≤ sigOpsOf lastOpcode op.opcode := by
  refine ⟨SigOps.evalScript_result stack script, ?_, ?_⟩
  · refine Counted.calls_free_bind_le fun _ _ => Counted.calls_bind_free_le ?_ fun _ => ?_
    · exact evalLoop_calls script.length script (@Comes.start H flags checker stack script).lastPushed
    · exact Nat.le_zero.mp (Counted.calls_free_bind_le fun _ _ => Nat.le_refl 0)
  · intro lastOpcode pc s hs op _
    exact evalInstruction_calls op hs.lastPushed

end Reddcoin
