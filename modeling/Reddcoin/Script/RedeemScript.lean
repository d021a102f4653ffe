import Reddcoin.Script.ScriptFlags

/-!
# The redeem script

For an output that pays to a script hash, `GetSigOpCount(scriptSig)` scans the input script for the last item
it pushes, and `VerifyScript` executes the last item that the input script leaves on the stack.  The two
parsers see the same script, but for the small numbers, which hold no signature operations either way.
-/

namespace Reddcoin

section

variable {H : ScriptHashes} {flags : Nat} {checker : BaseSignatureChecker} {s s' : EvalState} {op : ScriptOp}

@[simp]
theorem failIf_eq_ok {bad : Bool} {serror : ScriptError} : failIf bad serror = .ok () ↔ bad = false := by
  cases bad <;> simp [failIf, setError]

theorem orFails_eq_ok {α : Type} {x : ScriptRun α} {a : α} : orFails x = .ok a ↔ x = .ok a := by
  cases x <;> simp [orFails, Except.mapError]

/-- The instructions beyond the pushes hold no data. -/
theorem getOp2_vch {script : CScript} (h : getOp2 script = some op) (hop : OP_PUSHDATA4 < op.opcode) :
    op.vch = [] := by
  cases script with
  | nil => simp [getOp2] at h
  | cons b pc =>
    have hpush : ∀ opcode nSize pc, opcode ≤ OP_PUSHDATA4 → readPush opcode nSize pc = some op → False := by
      intro opcode nSize pc hle hread
      unfold readPush at hread
      split_ifs at hread
      cases hread
      exact Nat.lt_irrefl _ (Nat.lt_of_lt_of_le hop hle)
    have hsized : ∀ opcode width, opcode ≤ OP_PUSHDATA4 →
        ((readSize width pc).bind fun x => readPush opcode x.1 x.2) = some op → False := by
      intro opcode width hle hread
      obtain ⟨x, -, hread⟩ := Option.bind_eq_some_iff.mp hread
      exact hpush _ _ _ hle hread
    simp only [getOp2] at h
    split_ifs at h with h1 h2 h3 h4
    · exact (hpush _ _ _ (by unfold OP_PUSHDATA1 at h1; unfold OP_PUSHDATA4; omega) h).elim
    · exact (hsized _ _ (le_of_eq_of_le h2 (by decide)) h).elim
    · exact (hsized _ _ (le_of_eq_of_le h3 (by decide)) h).elim
    · exact (hsized _ _ (le_of_eq_of_le h4 (by decide)) h).elim
    · cases h
      rfl

/-- What is on the stack has as many signature operations as the data that was read last. -/
def SameSigOps (stack : List Valtype) (data : Valtype) : Prop :=
  ∀ top rest, stack = top :: rest → getSigOpCount true top = getSigOpCount true data

/-- A small number holds no signature operation. -/
theorem sigOpCount_number {opcode : Nat} (h : opcode = OP_1NEGATE ∨ (OP_1 ≤ opcode ∧ opcode ≤ OP_16)) :
    getSigOpCount true (CScriptNum.getvch ((opcode : Int) - (OP_1 - 1 : Nat))) = 0 := by
  have hall : ∀ opcode < 0x61, opcode = OP_1NEGATE ∨ (OP_1 ≤ opcode ∧ opcode ≤ OP_16) →
      getSigOpCount true (CScriptNum.getvch ((opcode : Int) - (OP_1 - 1 : Nat))) = 0 := by decide
  refine hall opcode ?_ h
  have hneg : OP_1NEGATE = 0x4f := rfl
  have hlast : OP_16 = 0x60 := rfl
  omega

/-- The only instructions up to `OP_16` that the switch knows are the small numbers. -/
theorem opcodeType_le {opcode : Nat} {case : OpcodeType} (hle : opcode ≤ OP_16)
    (h : opcodeType opcode = some case) :
    (opcode = OP_1NEGATE ∨ (OP_1 ≤ opcode ∧ opcode ≤ OP_16)) ∧ case = .number ((opcode : Int) - (OP_1 - 1 : Nat)) := by
  have hlast : OP_16 = 0x60 := rfl
  unfold opcodeType at h
  split_ifs at h with hnumber hnop
  · exact ⟨hnumber, (Option.some.inj h).symm⟩
  · omega
  · have hnone : ∀ opcode < 0x61, opcodeTable.lookup opcode = none := by decide
    rw [hnone opcode (by omega)] at h
    simp at h

/-- One instruction of a script that only pushes. -/
theorem evalInstruction_push (hle : op.opcode ≤ OP_16) (hvch : OP_PUSHDATA4 < op.opcode → op.vch = [])
    (hexec : s.vfExec = []) (h : evalInstruction H flags checker op s = .ok s') :
    s'.vfExec = [] ∧ SameSigOps s'.stack op.vch := by
  unfold evalInstruction at h
  simp only [check_seq_ok, if_neg (Nat.not_lt.mpr hle)] at h
  obtain ⟨-, -, -, h⟩ := h
  obtain ⟨s₁, hrun, h⟩ := check_bind_ok.mp h
  simp only [check_seq_ok, check_pure_ok] at h
  obtain ⟨-, rfl⟩ := h
  have hfexec : s.fExec = true := by
    unfold EvalState.fExec
    rw [hexec]
    rfl
  unfold execute at hrun
  rw [hfexec, Bool.true_and, Bool.true_or] at hrun
  split_ifs at hrun with hpush htrue
  · simp only [check_seq_ok, check_pure_ok] at hrun
    obtain ⟨-, rfl⟩ := hrun
    refine ⟨hexec, fun top rest htop => ?_⟩
    rw [← (List.cons.inj htop).1]
  · split at hrun
    · simp [setError] at hrun
    · next case hcase =>
        obtain ⟨hnumber, rfl⟩ := opcodeType_le hle hcase
        cases hrun
        refine ⟨hexec, fun top rest htop => ?_⟩
        have hdata : op.vch = [] := hvch (Nat.lt_of_not_le fun hle => hpush (decide_eq_true hle))
        rw [← (List.cons.inj htop).1, sigOpCount_number hnumber, hdata]
        rfl
  · exact absurd rfl htrue

/-- The interpreter and the scan for the last push go through a push-only script side by side. -/
theorem evalLoop_lastPush (turns : Nat) {pc : CScript} (data : Valtype) (hpush : isPushOnlyLoop turns pc)
    (hexec : s.vfExec = []) (hdata : SameSigOps s.stack data)
    (h : evalLoop H flags checker turns pc s = .ok s') :
    ∃ last, lastPush turns data pc = some last ∧ SameSigOps s'.stack last := by
  induction turns generalizing pc s data with
  | zero =>
    cases h
    exact ⟨data, rfl, hdata⟩
  | succ turns ih =>
    unfold isPushOnlyLoop at hpush
    unfold evalLoop at h
    unfold lastPush
    split_ifs at hpush h ⊢ with hend
    · cases h
      exact ⟨data, rfl, hdata⟩
    · cases hop : getOp2 pc with
      | none =>
        rw [hop] at hpush
        simp at hpush
      | some op =>
        rw [hop] at hpush h
        simp only at hpush h ⊢
        split_ifs at hpush ⊢ with hlarge
        obtain ⟨s₁, hone, hrest⟩ := check_bind_ok.mp h
        obtain ⟨hexec₁, hsame₁⟩ := evalInstruction_push (Nat.not_lt.mp hlarge) (getOp2_vch hop) hexec hone
        exact ih _ hpush hexec₁ hsame₁ hrest

/-- What `VerifyScript` has done when it accepts an output that pays to a script hash. -/
theorem verifyScript_redeem {scriptSig scriptPubKey : CScript}
    (hform : isPayToScriptHash scriptPubKey) (hflag : hasFlag flags SCRIPT_VERIFY_P2SH)
    (h : verifyScript H flags checker scriptSig scriptPubKey = .ok ()) :
    isPushOnly scriptSig ∧ ∃ redeem rest stack, evalScript H flags checker [] scriptSig = .ok (redeem :: rest) ∧
        evalScript H flags checker rest redeem = .ok stack := by
  unfold verifyScript at h
  rw [check_seq_ok] at h
  obtain ⟨stackCopy, hsig, h⟩ := check_bind_ok.mp h.2
  obtain ⟨stack, -, h⟩ := check_bind_ok.mp h
  rw [check_seq_ok, hflag, hform] at h
  have hredeem : verifyRedeemScript H flags checker scriptSig stackCopy = .ok () := h.2
  unfold verifyRedeemScript at hredeem
  rw [check_seq_ok, orFails_eq_ok, failIf_eq_ok, Bool.not_eq_false'] at hredeem
  obtain ⟨hpush, hredeem⟩ := hredeem
  cases stackCopy with
  | nil => simp at hredeem
  | cons redeem rest =>
    obtain ⟨stack, heval, -⟩ := check_bind_ok.mp hredeem
    exact ⟨hpush, redeem, rest, stack, orFails_eq_ok.mp hsig, orFails_eq_ok.mp heval⟩

/-- The signature operations that are counted for an output that pays to a script hash are those of the script
that `VerifyScript` executes. -/
theorem sigOpCount_redeemScript {scriptSig scriptPubKey : CScript}
    (hform : isPayToScriptHash scriptPubKey = true) (hflag : hasFlag flags SCRIPT_VERIFY_P2SH = true)
    (h : verifyScript H flags checker scriptSig scriptPubKey = .ok ()) :
    ∃ redeem rest stack, evalScript H flags checker [] scriptSig = .ok (redeem :: rest) ∧
      evalScript H flags checker rest redeem = .ok stack ∧
      getSigOpCountP2SH scriptPubKey scriptSig = getSigOpCount true redeem := by
  obtain ⟨hpush, redeem, rest, stack, hsig, hredeem⟩ := verifyScript_redeem hform hflag h
  refine ⟨redeem, rest, stack, hsig, hredeem, ?_⟩
  unfold evalScript at hsig
  rw [check_seq_ok] at hsig
  obtain ⟨s, hloop, hsig⟩ := check_bind_ok.mp hsig.2
  rw [check_seq_ok, check_pure_ok] at hsig
  obtain ⟨last, hlast, hsame⟩ := evalLoop_lastPush scriptSig.length [] hpush rfl
    (fun top rest htop => by simp at htop) hloop
  unfold getSigOpCountP2SH
  rw [hform, hlast]
  exact (hsame redeem rest hsig.2).symm

end

namespace Example

/-- The output that pays to the hash of the redeem script. -/
def payToRedeemScript : CScript :=
  [0xa9, 0x14] ++ redeemHash ++ [0x87]

end Example

open Example

/-- One signature operation is counted. -/
theorem sigOpCount_redeemScript_example : ∃ redeem rest stack,
    evalScript scriptHashes SCRIPT_VERIFY_P2SH noSignatures []
      (pushScript redeemScript) = .ok (redeem :: rest) ∧
    evalScript scriptHashes SCRIPT_VERIFY_P2SH noSignatures rest redeem = .ok stack ∧
    getSigOpCountP2SH payToRedeemScript (pushScript redeemScript) = getSigOpCount true redeem :=
  sigOpCount_redeemScript (by decide) (by decide) (by decide)

end Reddcoin
