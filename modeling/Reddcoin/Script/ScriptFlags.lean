import Reddcoin.Connect.Connect
import Reddcoin.Lib.Restriction
import Reddcoin.Primitives.MerkleTree
import Reddcoin.Script.Interpreter

/-!
# Verification flags only restrict

A run of the interpreter under more flags goes through the same states as a run under fewer flags, or it fails.
So a script that passes with more flags passes with fewer.
-/

namespace Reddcoin

/-- Every flag of `flags` is one of `more`. -/
def FlagsInclude (flags more : Nat) : Prop :=
  ∀ flag, hasFlag flags flag = true → hasFlag more flag = true

section

variable {H : ScriptHashes} {flags more : Nat} {checker : BaseSignatureChecker}

theorem flagsInclude_or (F G : Nat) : FlagsInclude F (F ||| G) := by
  intro flag h
  have hne : F &&& flag ≠ 0 := of_decide_eq_true h
  refine decide_eq_true fun hzero => hne ?_
  rw [Nat.and_or_distrib_right] at hzero
  exact (Nat.or_eq_zero_iff.mp hzero).1

theorem flagsInclude_and (F G : Nat) : FlagsInclude (F &&& G) F := by
  intro flag h
  have hne : F &&& G &&& flag ≠ 0 := of_decide_eq_true h
  refine decide_eq_true fun hzero => hne ?_
  rw [Nat.and_assoc, Nat.and_comm G, ← Nat.and_assoc, hzero, Nat.zero_and]

/-! ## Encodings -/

theorem failIf_restricts {bad bad' : Bool} {serror : ScriptError} (h : bad' → bad) :
    Restricts (failIf bad serror) (failIf bad' serror) := by
  cases bad with
  | true => exact .error _ _
  | false =>
    cases bad' with
    | true => exact absurd (h rfl) (by simp)
    | false => exact .refl _

section

variable (h : FlagsInclude flags more)

include h

/-- A check that belongs to a flag. -/
theorem failIf_flag_restricts (flag : Nat) (bad : Bool) (serror : ScriptError) :
    Restricts (failIf (hasFlag more flag && bad) serror) (failIf (hasFlag flags flag && bad) serror) := by
  refine failIf_restricts fun hbad => ?_
  obtain ⟨hflag, hbad⟩ := (Bool.and_eq_true _ _).mp hbad
  rw [h flag hflag, hbad]
  rfl

theorem number_restricts (vch : Valtype) : Restricts (number more vch) (number flags vch) := by
  unfold number CScriptNum.ofVch
  refine .bind_right _ fun _ => ?_
  exact .bind_left (failIf_flag_restricts h _ _ _) _

theorem checkSignatureEncoding_restricts (vchSig : Valtype) :
    Restricts (checkSignatureEncoding vchSig more) (checkSignatureEncoding vchSig flags) := by
  unfold checkSignatureEncoding
  refine .bind (failIf_flag_restricts h _ _ _) fun _ => ?_
  refine .bind (.ite_unit (h _) (.refl _)) fun _ => ?_
  exact failIf_flag_restricts h _ _ _

theorem checkEncodedSig_restricts (vchSig vchPubKey : Valtype)
    (scriptCode : CScript) : Restricts (checkEncodedSig more checker vchSig vchPubKey scriptCode)
      (checkEncodedSig flags checker vchSig vchPubKey scriptCode) := by
  unfold checkEncodedSig checkPubKeyEncoding
  refine .bind (checkSignatureEncoding_restricts h vchSig) fun _ => ?_
  exact .bind_left (failIf_flag_restricts h _ _ _) _

end

/-! ## Instructions -/

section

variable (h : FlagsInclude flags more)

include h

theorem evalPick_restricts (roll : Bool) (s : EvalState) :
    Restricts (evalPick more roll s) (evalPick flags roll s) := by
  unfold evalPick
  split
  · exact .bind_left (number_restricts h _) _
  · exact .refl _

theorem evalUnary_restricts (op : UnaryOp) (s : EvalState) :
    Restricts (evalUnary more op s) (evalUnary flags op s) := by
  unfold evalUnary
  split
  · exact .bind_left (number_restricts h _) _
  · exact .refl _

theorem evalBinary_restricts (op : BinaryOp) (s : EvalState) :
    Restricts (evalBinary more op s) (evalBinary flags op s) := by
  unfold evalBinary
  split
  · refine .bind (number_restricts h _) fun _ => ?_
    exact .bind_left (number_restricts h _) _
  · exact .refl _

theorem evalWithin_restricts (s : EvalState) : Restricts (evalWithin more s) (evalWithin flags s) := by
  unfold evalWithin
  split
  · refine .bind (number_restricts h _) fun _ => ?_
    refine .bind (number_restricts h _) fun _ => ?_
    exact .bind_left (number_restricts h _) _
  · exact .refl _

theorem evalCheckSig_restricts (verify : Bool) (s : EvalState) :
    Restricts (evalCheckSig more checker verify s) (evalCheckSig flags checker verify s) := by
  unfold evalCheckSig
  split
  · exact .bind_left (checkEncodedSig_restricts h _ _ _) _
  · exact .refl _

/-- Both loops compare the same signatures with the same keys, as long as the encodings pass. -/
theorem multiSigLoop_restricts (scriptCode : CScript) (sigs keys : List Valtype) :
    Restricts (multiSigLoop more checker scriptCode sigs keys)
      (multiSigLoop flags checker scriptCode sigs keys) := by
  induction keys generalizing sigs with
  | nil =>
    cases sigs with
    | nil | cons sig sigs => exact .refl _
  | cons key keys ih =>
    cases sigs with
    | nil => exact .refl _
    | cons sig sigs =>
      unfold multiSigLoop
      refine .bind (checkEncodedSig_restricts h _ _ _) fun fOk => ?_
      exact .ite (fun _ => .refl _) fun _ => ih _

theorem evalCheckMultiSig_restricts (verify : Bool) (s : EvalState) :
    Restricts (evalCheckMultiSig more checker verify s) (evalCheckMultiSig flags checker verify s) := by
  unfold evalCheckMultiSig
  refine .bind_right _ fun _ => ?_
  refine .bind (number_restricts h _) fun nKeysCount => ?_
  refine .bind_right _ fun _ => ?_
  refine .bind_right _ fun _ => ?_
  refine .bind_right _ fun _ => ?_
  refine .bind (number_restricts h _) fun nSigsCount => ?_
  refine .bind_right _ fun _ => ?_
  refine .bind_right _ fun _ => ?_
  refine .bind (multiSigLoop_restricts h _ _ _) fun fSuccess => ?_
  split
  · exact .refl _
  · exact .bind_left (failIf_flag_restricts h _ _ _) _

/-- One case of the switch.  The cases that do not look at the flags are equal. -/
theorem evalOpcode_restricts (op : OpcodeType) (pc : CScript) (s : EvalState) :
    Restricts (evalOpcode H more checker op pc s) (evalOpcode H flags checker op pc s) := by
  cases op with
  | upgradableNop => exact .bind_left (failIf_restricts (h _)) _
  | OP_PICK => exact evalPick_restricts h false s
  | OP_ROLL => exact evalPick_restricts h true s
  | unary op => exact evalUnary_restricts h op s
  | binary op => exact evalBinary_restricts h op s
  | OP_WITHIN => exact evalWithin_restricts h s
  | OP_CHECKSIG => exact evalCheckSig_restricts h false s
  | OP_CHECKSIGVERIFY => exact evalCheckSig_restricts h true s
  | OP_CHECKMULTISIG => exact evalCheckMultiSig_restricts h false s
  | OP_CHECKMULTISIGVERIFY => exact evalCheckMultiSig_restricts h true s
  | _ => exact .refl _

theorem execute_restricts (op : ScriptOp) (s : EvalState) :
    Restricts (execute H more checker op s) (execute H flags checker op s) := by
  unfold execute
  refine .ite (fun _ => ?_) fun _ => .ite (fun _ => ?_) fun _ => .refl _
  · exact .bind_left (failIf_flag_restricts h _ _ _) _
  · split
    · exact .refl _
    · exact evalOpcode_restricts h _ _ _

end

/-! ## Scripts -/

section

variable (h : FlagsInclude flags more)

include h

theorem evalInstruction_restricts (op : ScriptOp) (s : EvalState) :
    Restricts (evalInstruction H more checker op s) (evalInstruction H flags checker op s) := by
  unfold evalInstruction
  refine .bind_right _ fun _ => ?_
  refine .bind_right _ fun _ => ?_
  refine .bind_right _ fun _ => ?_
  exact .bind_left (execute_restricts h _ _) _

theorem evalLoop_restricts (turns : Nat) (pc : CScript) (s : EvalState) :
    Restricts (evalLoop H more checker turns pc s) (evalLoop H flags checker turns pc s) := by
  induction turns generalizing pc s with
  | zero => exact .refl _
  | succ turns ih =>
    unfold evalLoop
    refine .ite (fun _ => .refl _) fun _ => ?_
    split
    · exact .refl _
    · exact .bind (evalInstruction_restricts h _ _) fun s => ih _ s

theorem evalScript_restricts (stack : List Valtype) (script : CScript) :
    Restricts (evalScript H more checker stack script) (evalScript H flags checker stack script) := by
  unfold evalScript
  refine .bind_right _ fun _ => ?_
  exact .bind_left (evalLoop_restricts h _ _ _) _

theorem verifyRedeemScript_restricts (scriptSig : CScript)
    (stackCopy : List Valtype) : Restricts (verifyRedeemScript H more checker scriptSig stackCopy)
      (verifyRedeemScript H flags checker scriptSig stackCopy) := by
  unfold verifyRedeemScript
  refine .bind_right _ fun _ => ?_
  split
  · exact .refl _
  · exact .bind_left (.mapError _ (evalScript_restricts h _ _)) _

/-- Only the run with more flags may execute the redeem script. -/
theorem verifyScript_restricts (scriptSig scriptPubKey : CScript) :
    Restricts (verifyScript H more checker scriptSig scriptPubKey)
      (verifyScript H flags checker scriptSig scriptPubKey) := by
  unfold verifyScript
  refine .bind (.mapError _ (failIf_flag_restricts h _ _ _)) fun _ => ?_
  refine .bind (.mapError _ (evalScript_restricts h _ _)) fun stackCopy => ?_
  refine .bind (.mapError _ (evalScript_restricts h _ _)) fun stack => ?_
  refine .bind_right _ fun _ => ?_
  refine .ite_unit (fun hp2sh => ?_) (verifyRedeemScript_restricts h _ _)
  obtain ⟨hflag, hform⟩ := (Bool.and_eq_true _ _).mp hp2sh
  rw [h _ hflag, hform]
  rfl

end

/-! ## Inputs -/

/-- The text of the error; an assertion of `VerifyScript` never fails. -/
def scriptErrorText : Except ScriptStop Unit → Option String
  | .ok () => none
  | .error (.fails serror) => some (scriptErrorString serror)
  | .error .crashes => some (scriptErrorString .SCRIPT_ERR_UNKNOWN_ERROR)

/-- `VerifyScript` is the interpreter, with a signature checker for each input of a transaction. -/
def Crypto.interpreting (C : Crypto) (H : ScriptHashes) (checker : CTransaction → Nat → BaseSignatureChecker) :
    Crypto :=
  { C with
    verifyScript := fun scriptSig scriptPubKey flags txTo nIn =>
      scriptErrorText (Reddcoin.verifyScript H flags (checker txTo nIn) scriptSig scriptPubKey) }

def STANDARD_SCRIPT_VERIFY_FLAGS : Nat :=
  MANDATORY_SCRIPT_VERIFY_FLAGS ||| SCRIPT_VERIFY_DERSIG ||| SCRIPT_VERIFY_STRICTENC |||
    SCRIPT_VERIFY_MINIMALDATA ||| SCRIPT_VERIFY_NULLDUMMY ||| SCRIPT_VERIFY_DISCOURAGE_UPGRADABLE_NOPS

variable {C : Crypto} {checkers : CTransaction → Nat → BaseSignatureChecker}

theorem scriptErrorText_eq_none {x : Except ScriptStop Unit} : scriptErrorText x = none ↔ x = .ok () := by
  cases x with
  | ok u => simp [scriptErrorText]
  | error stop => cases stop <;> simp [scriptErrorText]

theorem scriptCheck_run_restricts (h : FlagsInclude flags more) (check : CScriptCheck)
    (hrun : CScriptCheck.run (C.interpreting H checkers) { check with nFlags := more } = none) :
    CScriptCheck.run (C.interpreting H checkers) { check with nFlags := flags } = none := by
  unfold CScriptCheck.run at hrun ⊢
  cases hin : check.ptxTo.vin[check.nIn]? with
  | none => rfl
  | some txin =>
    simp only [hin] at hrun ⊢
    exact scriptErrorText_eq_none.mpr
      (verifyScript_restricts h _ _ () (scriptErrorText_eq_none.mp hrun))

/-- The same check with other flags. -/
def CScriptCheck.withFlags (flags : Nat) (check : CScriptCheck) : CScriptCheck :=
  { check with nFlags := flags }

/-- The checks of a transaction differ in their flags only. -/
theorem scriptChecks_withFlags (flags more : Nat) (view : CoinsView) (tx : CTransaction) :
    scriptChecks view flags tx = (List.map (CScriptCheck.withFlags flags)) <$> scriptChecks view more tx := by
  unfold scriptChecks
  induction tx.vin.zipIdx with
  | nil => rfl
  | cons x xs ih =>
    rw [List.mapM_cons, List.mapM_cons, ih]
    simp only [map_bind, bind_map_left, bind_assoc, pure_bind, map_pure, List.map_cons]
    rfl

/-- A check that passes at once passes under fewer flags. -/
theorem runScriptCheck_restricts (h : FlagsInclude flags more) (check : CScriptCheck)
    (hflags : check.nFlags = more) : Restricts (runScriptCheck (C.interpreting H checkers) more check)
      (runScriptCheck (C.interpreting H checkers) flags (check.withFlags flags)) := by
  intro u hok
  have hpass : CScriptCheck.run (C.interpreting H checkers) { check with nFlags := more } = none := by
    have hsame : ({ check with nFlags := more } : CScriptCheck) = check := by rw [← hflags]
    rw [hsame]
    unfold runScriptCheck at hok
    split at hok
    · next hrun => exact hrun
    · unfold onlyIf at hok
      split_ifs at hok
      · split at hok
        · simp [Bind.bind, Except.bind] at hok
        · simp [Bind.bind, Except.bind, Pure.pure, Except.pure] at hok
      · simp [Bind.bind, Except.bind] at hok
  have hfewer : (check.withFlags flags).run (C.interpreting H checkers) = none :=
    scriptCheck_run_restricts h check hpass
  unfold runScriptCheck
  rw [hfewer]
  rfl

theorem scriptChecks_nFlags {view : CoinsView} {tx : CTransaction} {checks : List CScriptCheck}
    (h : scriptChecks view flags tx = .ok checks) {check : CScriptCheck} (hmem : check ∈ checks) :
    check.nFlags = flags := by
  have hsame := h
  rw [scriptChecks_withFlags flags flags, h] at hsame
  have hmap : checks.map (CScriptCheck.withFlags flags) = checks := Except.ok.inj hsame
  rw [← hmap] at hmem
  obtain ⟨_, -, rfl⟩ := List.mem_map.mp hmem
  rfl

/-- `CheckInputs` without worker threads. -/
theorem checkInputs_restricts (h : FlagsInclude flags more) (view : CoinsView) (nSpendHeight : Nat)
    (tx : CTransaction) (fScriptChecks : Bool) :
    Restricts (checkInputs (C.interpreting H checkers) view nSpendHeight tx fScriptChecks more false)
      (checkInputs (C.interpreting H checkers) view nSpendHeight tx fScriptChecks flags false) := by
  unfold checkInputs
  refine .ite (fun _ => .refl _) fun _ => ?_
  refine .bind_right _ fun _ => ?_
  refine .bind_right _ fun _ => ?_
  refine .bind_right _ fun _ => ?_
  refine .ite (fun _ => ?_) fun _ => .refl _
  rw [scriptChecks_withFlags flags more]
  cases hchecks : scriptChecks view more tx with
  | error stop => exact .error _ _
  | ok checks =>
    show Restricts (checks.forM (runScriptCheck _ more) >>= fun _ => pure [])
      ((checks.map (CScriptCheck.withFlags flags)).forM (runScriptCheck _ flags) >>= fun _ => pure [])
    refine .bind_left ?_ _
    exact .forM_map fun check hcheck =>
      runScriptCheck_restricts h check (scriptChecks_nFlags hchecks hcheck)

/-- A script that passes under more flags passes under fewer.  So inputs that pass under the standard flags
pass under the mandatory flags, and the second attempt of `CheckInputs` fails only where the first one did. -/
theorem scriptFlags_restrict (C : Crypto) (H : ScriptHashes)
    (checkers : CTransaction → Nat → BaseSignatureChecker) :
    (∀ checker F G scriptSig scriptPubKey, verifyScript H (F ||| G) checker scriptSig scriptPubKey = .ok () →
      verifyScript H F checker scriptSig scriptPubKey = .ok ()) ∧
    (∀ view nSpendHeight tx checks,
      checkInputs (C.interpreting H checkers) view nSpendHeight tx true STANDARD_SCRIPT_VERIFY_FLAGS false =
        .ok checks →
      checkInputs (C.interpreting H checkers) view nSpendHeight tx true MANDATORY_SCRIPT_VERIFY_FLAGS false =
        .ok checks) ∧
    ∀ (check : CScriptCheck) (flags : Nat), (check.withFlags flags).run (C.interpreting H checkers) = none →
      (check.withFlags (flags &&& (2 ^ 32 - 1 - STANDARD_NOT_MANDATORY_VERIFY_FLAGS))).run
        (C.interpreting H checkers) = none := by
  refine ⟨fun checker F G scriptSig scriptPubKey => ?_, fun view nSpendHeight tx checks => ?_, fun check flags => ?_⟩
  · exact verifyScript_restricts (flagsInclude_or F G) scriptSig scriptPubKey ()
  · have hinclude : FlagsInclude MANDATORY_SCRIPT_VERIFY_FLAGS STANDARD_SCRIPT_VERIFY_FLAGS := by
      exact flagsInclude_or MANDATORY_SCRIPT_VERIFY_FLAGS STANDARD_NOT_MANDATORY_VERIFY_FLAGS
    exact checkInputs_restricts hinclude view nSpendHeight tx true checks
  · exact scriptCheck_run_restricts (flagsInclude_and flags _) check

end

namespace Example

/-- `0 OP_IF OP_CHECKSIG OP_ENDIF 1`. -/
def redeemScript : CScript :=
  [0x00, 0x63, 0xac, 0x68, 0x51]

def redeemHash : Valtype :=
  [0x2c, 0x93, 0x49, 0x6b, 0x19, 0xaf, 0x9e, 0xe1, 0x38, 0xc3,
    0x8a, 0x1a, 0xc3, 0x62, 0xa8, 0xde, 0x4a, 0x91, 0xe3, 0x56]

/-- Hash functions that agree with the real ones on the redeem script. -/
def scriptHashes : ScriptHashes where
  ripemd160 _ := []
  sha1 _ := []
  sha256 _ := []
  hash160 vch := if vch = redeemScript then redeemHash else []
  hash256 _ := []

/-- A checker that accepts no signature. -/
def noSignatures : BaseSignatureChecker where
  checkSig _ _ _ := false

end Example

open Example

/-- A script that passes under all flags passes under one. -/
theorem scriptFlags_restrict_example :
    verifyScript scriptHashes (SCRIPT_VERIFY_P2SH ||| 0xff) noSignatures [0x51] [0x51] = .ok () ∧
      verifyScript scriptHashes SCRIPT_VERIFY_P2SH noSignatures [0x51] [0x51] = .ok () := by
  have hall : verifyScript scriptHashes (SCRIPT_VERIFY_P2SH ||| 0xff) noSignatures [0x51] [0x51] = .ok () := rfl
  exact ⟨hall, (scriptFlags_restrict pairing scriptHashes fun _ _ =>
    noSignatures).1 _ _ _ _ _ hall⟩

end Reddcoin
