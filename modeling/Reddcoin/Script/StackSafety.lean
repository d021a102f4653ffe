import Reddcoin.Lib.Mirror
import Reddcoin.Script.RedeemScript
import Reddcoin.Script.SignatureHashOld
import Reddcoin.Script.StackMachine

/-!
# No read outside the stacks

Every case of the switch asks for the elements that it reads, so the stack machine only throws when an element is
no number: it goes through the same states as the interpreter that takes its stacks apart.  The elements stay
small, and the size test after each instruction bounds their number.
-/

namespace Reddcoin

open List

namespace StackMachine

variable {serror : ScriptError} {stack : List Valtype} {v : MultiSigVars} {scriptCode : CScript}

/-- How the stack machine ends where the interpreter reports an error.  Only numbers are unknown errors. -/
def stopOf : ScriptError → EvalStop
  | .SCRIPT_ERR_UNKNOWN_ERROR => .throws .scriptnumError
  | serror => .fails serror

theorem stopOf_of_ne (h : serror ≠ .SCRIPT_ERR_UNKNOWN_ERROR) : stopOf serror = .fails serror := by
  cases serror with
  | SCRIPT_ERR_UNKNOWN_ERROR => exact absurd rfl h
  | _ => rfl

theorem stopOf_cases (serror : ScriptError) :
    stopOf serror = .throws .scriptnumError ∨ ∃ e, stopOf serror = .fails e := by
  by_cases h : serror = .SCRIPT_ERR_UNKNOWN_ERROR
  · exact .inl (by rw [h]; rfl)
  · exact .inr ⟨serror, stopOf_of_ne h⟩

/-! ## Checks -/

theorem returnIf_mirrors {bad bad' : Bool} (h : bad = bad')
    (hne : serror ≠ .SCRIPT_ERR_UNKNOWN_ERROR) : Mirrors stopOf (returnIf bad serror) (failIf bad' serror) := by
  cases h
  cases bad with
  | false => exact .ok ()
  | true => exact congrArg Except.error (stopOf_of_ne hne).symm

theorem fails_mirrors {α : Type} (hne : serror ≠ .SCRIPT_ERR_UNKNOWN_ERROR) :
    Mirrors stopOf (.error (.fails serror)) (setError serror : ScriptRun α) :=
  congrArg Except.error (stopOf_of_ne hne).symm

section

variable (D : ScriptDigests) (flags : Nat) (checker : BaseSignatureChecker)

theorem checkSignatureEncoding_mirrors (vchSig : Valtype) :
    Mirrors stopOf (returning (checkSignatureEncoding vchSig flags)) (checkSignatureEncoding vchSig flags) := by
  have hlow : Mirrors stopOf (returning (isLowDERSignature vchSig)) (isLowDERSignature vchSig) :=
    .mapError_bind (returnIf_mirrors rfl (by decide)) fun _ => returnIf_mirrors rfl (by decide)
  refine .mapError_bind (returnIf_mirrors rfl (by decide)) fun _ => ?_
  refine .mapError_bind ?_ fun _ => returnIf_mirrors rfl (by decide)
  unfold underFlag
  by_cases hflag : hasFlag flags SCRIPT_VERIFY_LOW_S = true
  · rw [if_pos hflag]
    exact hlow
  · rw [if_neg hflag]
    exact .ok ()

theorem checkEncodedSig_mirrors (vchSig vchPubKey : Valtype) (scriptCode : CScript) :
    Mirrors stopOf (returning (checkEncodedSig flags checker vchSig vchPubKey scriptCode))
      (checkEncodedSig flags checker vchSig vchPubKey scriptCode) := by
  refine .mapError_bind (checkSignatureEncoding_mirrors flags vchSig) fun _ => ?_
  exact .mapError_bind (returnIf_mirrors rfl (by decide)) fun _ => .ok _

/-! ## Numbers -/

theorem scriptNum_mirrors (vch : Valtype) :
    Mirrors stopOf (scriptNum vch (fRequireMinimal flags)) (number flags vch) := by
  unfold scriptNum number CScriptNum.ofVch
  by_cases hsize : CScriptNum.nMaxNumSize < vch.length
  · rw [if_pos hsize, decide_eq_true hsize]
    rfl
  · rw [if_neg hsize, decide_eq_false hsize]
    cases fRequireMinimal flags && CScriptNum.notMinimal vch with
    | true => rfl
    | false => rfl

/-- An operand fits 32 bits and a sign. -/
def IsOperand (bn : Int) : Prop :=
  -2 ^ 32 < bn ∧ bn < 2 ^ 32

theorem setVch_isOperand {vch : Valtype} (h : vch.length ≤ CScriptNum.nMaxNumSize) :
    IsOperand (CScriptNum.setVch vch) := by
  have hresult : leNat vch < 256 ^ 4 := Nat.lt_of_lt_of_le (leNat_lt vch) (Nat.pow_le_pow_right (by decide) h)
  have hsign : 256 ^ (vch.length - 1) ≤ 256 ^ 3 := Nat.pow_le_pow_right (by decide) (Nat.sub_le_sub_right h 1)
  have hcast : (256 : Int) ^ (vch.length - 1) = ((256 ^ (vch.length - 1) : Nat) : Int) := (Nat.cast_pow 256 _).symm
  unfold IsOperand CScriptNum.setVch
  rw [hcast]
  generalize 256 ^ (vch.length - 1) = sign at hsign
  cases vch.getLast? with
  | none =>
    show -2 ^ 32 < (0 : Int) ∧ (0 : Int) < 2 ^ 32
    decide
  | some back =>
    show -2 ^ 32 < (if 0x80 ≤ back.toNat then _ else _) ∧ (if 0x80 ≤ back.toNat then _ else _) < 2 ^ 32
    by_cases hneg : 0x80 ≤ back.toNat
    · rw [if_pos hneg]
      omega
    · rw [if_neg hneg]
      omega

theorem number_isOperand (vch : Valtype) : Returns IsOperand (number flags vch) := by
  unfold number CScriptNum.ofVch
  by_cases hsize : CScriptNum.nMaxNumSize < vch.length
  · rw [decide_eq_true hsize]
    exact .error _
  · refine .bind_any _ fun _ => .bind_any _ fun _ => ?_
    exact .ok (setVch_isOperand (Nat.not_lt.mp hsize))

theorem unaryOp_eq (op : UnaryOp) {bn : Int} (h : IsOperand bn) : unaryOp op bn = .ok (evalUnaryOp op bn) := by
  obtain ⟨hlow, hhigh⟩ := h
  have hadd : addAssign bn 1 = .ok (bn + 1) := if_pos (by unfold int64Max; omega)
  have hsub : subAssign bn 1 = .ok (bn - 1) := if_pos (by unfold int64Min; omega)
  have hneg : negate bn = .ok (-bn) := if_pos (by unfold int64Min; omega)
  cases op with
  | OP_1ADD => exact hadd
  | OP_1SUB => exact hsub
  | OP_NEGATE => exact hneg
  | OP_ABS =>
    show (if bn < 0 then negate bn else .ok bn) = .ok (if bn < 0 then -bn else bn)
    rw [hneg]
    by_cases hsign : bn < 0
    · rw [if_pos hsign, if_pos hsign]
    · rw [if_neg hsign, if_neg hsign]
  | OP_NOT | OP_0NOTEQUAL => simp [unaryOp, evalUnaryOp, ofCondition]

theorem binaryOp_eq (op : BinaryOp) {bn1 bn2 : Int} (h1 : IsOperand bn1) (h2 : IsOperand bn2) :
    binaryOp op bn1 bn2 = .ok (evalBinaryOp op bn1 bn2) := by
  obtain ⟨hlow1, hhigh1⟩ := h1
  obtain ⟨hlow2, hhigh2⟩ := h2
  have hadd : inInt64 (bn1 + bn2) = .ok (bn1 + bn2) := if_pos (by unfold int64Min int64Max; omega)
  have hsub : inInt64 (bn1 - bn2) = .ok (bn1 - bn2) := if_pos (by unfold int64Min int64Max; omega)
  cases op with
  | OP_ADD => exact hadd
  | OP_SUB => exact hsub
  | OP_MIN => rfl
  | OP_MAX => rfl
  | _ => simp [binaryOp, evalBinaryOp, ofCondition]

/-! ## Instructions

For every shape of the stack: where the instruction finds too few elements both computations report it, and from
there on every read is in the stack. -/

theorem evalStackOp_mirrors (op : StackOp) (stack : List Valtype) :
    Mirrors stopOf (evalStackOp op stack) (Reddcoin.evalStackOp op stack) := by
  cases op with
  | OP_DEPTH => rfl
  | OP_IFDUP | OP_DROP | OP_DUP | OP_SIZE =>
    rcases stack with _ | ⟨x, st⟩
    · rfl
    · rfl
  | OP_2DROP | OP_2DUP | OP_NIP | OP_OVER | OP_SWAP | OP_TUCK =>
    rcases stack with _ | ⟨x2, _ | ⟨x1, st⟩⟩
    · rfl
    · rfl
    · rfl
  | OP_3DUP | OP_ROT =>
    rcases stack with _ | ⟨x3, _ | ⟨x2, _ | ⟨x1, st⟩⟩⟩
    · rfl
    · rfl
    · rfl
    · rfl
  | OP_2OVER | OP_2SWAP =>
    rcases stack with _ | ⟨x4, _ | ⟨x3, _ | ⟨x2, _ | ⟨x1, st⟩⟩⟩⟩
    · rfl
    · rfl
    · rfl
    · rfl
    · rfl
  | OP_2ROT =>
    rcases stack with _ | ⟨x6, _ | ⟨x5, _ | ⟨x4, _ | ⟨x3, _ | ⟨x2, _ | ⟨x1, st⟩⟩⟩⟩⟩⟩
    · rfl
    · rfl
    · rfl
    · rfl
    · rfl
    · rfl
    · rfl

theorem pushResult_mirrors (verify fSuccess : Bool) (hne : serror ≠ .SCRIPT_ERR_UNKNOWN_ERROR) (s : EvalState)
    (st : List Valtype) :
    Mirrors stopOf (pushResult verify fSuccess serror s st) (Reddcoin.pushResult verify fSuccess serror s st) := by
  cases verify with
  | false => exact .ok _
  | true =>
    cases fSuccess with
    | false => exact fails_mirrors hne
    | true => exact .ok _

theorem evalConditional_mirrors (isNotIf : Bool) (s : EvalState) :
    Mirrors stopOf (evalConditional isNotIf s) (Reddcoin.evalConditional isNotIf s) := by
  unfold evalConditional Reddcoin.evalConditional
  refine .ite (fun _ => ?_) fun _ => .ok _
  rcases s.stack with _ | ⟨vch, st⟩
  · rfl
  · refine .bind_ok rfl (.bind_ok rfl (.bind_ok rfl ?_))
    have hvalue : (if isNotIf then !castToBool vch else castToBool vch) = (castToBool vch != isNotIf) := by
      cases isNotIf <;> cases castToBool vch <;> rfl
    exact congrArg (fun fValue => Except.ok { s with stack := st, vfExec := fValue :: s.vfExec }) hvalue

theorem evalVerify_mirrors (pc : CScript) (s : EvalState) :
    Mirrors stopOf (evalVerify s) (Reddcoin.evalOpcode D.hashes flags checker .OP_VERIFY pc s) := by
  unfold evalVerify Reddcoin.evalOpcode
  rcases s.stack with _ | ⟨vch, st⟩
  · rfl
  · refine .bind_ok rfl (.bind_ok rfl ?_)
    exact .ite (fun _ => .ok _) fun _ => fails_mirrors (by decide)

/-- An element at or above the bottom of the stack. -/
theorem stacktop_eq {i : Int} {k : Nat} (hi : i = -(k + 1)) (hk : k < stack.length) :
    stacktop stack i = .ok (stack.getD k []) := by
  have hneg : i = Int.negSucc k := by omega
  have hget : stack[k]? = some (stack.getD k []) := by
    rw [getD_eq_getElem?_getD, getElem?_eq_getElem hk]
    rfl
  rw [hneg]
  simp only [stacktop, hget]

theorem evalPick_mirrors (roll : Bool) (s : EvalState) :
    Mirrors stopOf (evalPick flags roll s) (Reddcoin.evalPick flags roll s) := by
  unfold evalPick Reddcoin.evalPick
  rcases s.stack with _ | ⟨top, _ | ⟨x, st⟩⟩
  · rfl
  · rfl
  · refine .bind_ok rfl (.bind_ok rfl ?_)
    refine .bind (scriptNum_mirrors flags top) fun bn _ => ?_
    refine .bind_ok rfl ?_
    refine .bind (returnIf_mirrors rfl (by decide)) fun _ hguard => ?_
    have hrange := failIf_eq_ok.mp hguard
    rw [Bool.or_eq_false_iff, decide_eq_false_iff_not, decide_eq_false_iff_not] at hrange
    have hk : (CScriptNum.getint bn).toNat < (x :: st).length := by omega
    have hi : -CScriptNum.getint bn - 1 = -(((CScriptNum.getint bn).toNat : Int) + 1) := by omega
    refine .bind_ok (stacktop_eq hi hk) ?_
    cases roll with
    | false => exact .ok _
    | true =>
      have herase : eraseTop (x :: st) (-CScriptNum.getint bn - 1) =
          .ok ((x :: st).eraseIdx (CScriptNum.getint bn).toNat) := by
        rw [show -CScriptNum.getint bn - 1 = Int.negSucc (CScriptNum.getint bn).toNat by omega]
        exact if_pos hk
      exact .bind_ok herase (.ok _)

theorem evalEqual_mirrors (verify : Bool) (pc : CScript) (s : EvalState) :
    Mirrors stopOf (evalEqual verify s) (Reddcoin.evalOpcode D.hashes flags checker
      (if verify then .OP_EQUALVERIFY else .OP_EQUAL) pc s) := by
  unfold evalEqual
  cases verify with
  | false =>
    show Mirrors stopOf _ (Reddcoin.evalOpcode D.hashes flags checker .OP_EQUAL pc s)
    unfold Reddcoin.evalOpcode
    rcases s.stack with _ | ⟨x2, _ | ⟨x1, st⟩⟩
    · rfl
    · rfl
    · exact pushResult_mirrors false _ (by decide) s st
  | true =>
    show Mirrors stopOf _ (Reddcoin.evalOpcode D.hashes flags checker .OP_EQUALVERIFY pc s)
    unfold Reddcoin.evalOpcode
    rcases s.stack with _ | ⟨x2, _ | ⟨x1, st⟩⟩
    · rfl
    · rfl
    · exact pushResult_mirrors true _ (by decide) s st

theorem evalUnary_mirrors (op : UnaryOp) (s : EvalState) :
    Mirrors stopOf (evalUnary flags op s) (Reddcoin.evalUnary flags op s) := by
  unfold evalUnary Reddcoin.evalUnary
  rcases s.stack with _ | ⟨x, st⟩
  · rfl
  · refine .bind_ok rfl (.bind_ok rfl ?_)
    refine .bind (scriptNum_mirrors flags x) fun bn hbn => ?_
    exact .bind_ok (unaryOp_eq op (number_isOperand flags x bn hbn)) (.ok _)

theorem evalBinary_mirrors (op : BinaryOp) (s : EvalState) :
    Mirrors stopOf (evalBinary flags op s) (Reddcoin.evalBinary flags op s) := by
  unfold evalBinary Reddcoin.evalBinary
  rcases s.stack with _ | ⟨x2, _ | ⟨x1, st⟩⟩
  · rfl
  · rfl
  · refine .bind_ok rfl (.bind_ok rfl ?_)
    refine .bind (scriptNum_mirrors flags x1) fun bn1 hbn1 => ?_
    refine .bind_ok rfl ?_
    refine .bind (scriptNum_mirrors flags x2) fun bn2 hbn2 => ?_
    refine .bind_ok (binaryOp_eq op (number_isOperand flags x1 bn1 hbn1) (number_isOperand flags x2 bn2 hbn2)) ?_
    refine .bind_ok rfl (.bind_ok rfl ?_)
    refine .ite (fun _ => ?_) fun _ => .ok _
    refine .bind_ok rfl ?_
    exact .bind (returnIf_mirrors rfl (by decide)) fun _ _ => .ok _

theorem evalWithin_mirrors (s : EvalState) :
    Mirrors stopOf (evalWithin flags s) (Reddcoin.evalWithin flags s) := by
  unfold evalWithin Reddcoin.evalWithin
  rcases s.stack with _ | ⟨x3, _ | ⟨x2, _ | ⟨x1, st⟩⟩⟩
  · rfl
  · rfl
  · rfl
  · refine .bind_ok rfl (.bind_ok rfl ?_)
    refine .bind (scriptNum_mirrors flags x1) fun bn1 _ => ?_
    refine .bind_ok rfl ?_
    refine .bind (scriptNum_mirrors flags x2) fun bn2 _ => ?_
    refine .bind_ok rfl ?_
    exact .bind (scriptNum_mirrors flags x3) fun bn3 _ => .ok _

theorem evalCheckSig_mirrors (verify : Bool) (s : EvalState) :
    Mirrors stopOf (evalCheckSig flags checker verify s) (Reddcoin.evalCheckSig flags checker verify s) := by
  unfold evalCheckSig Reddcoin.evalCheckSig
  rcases s.stack with _ | ⟨vchPubKey, _ | ⟨vchSig, st⟩⟩
  · rfl
  · rfl
  · refine .bind_ok rfl (.bind_ok rfl (.bind_ok rfl ?_))
    refine .bind (checkEncodedSig_mirrors flags checker _ _ _) fun fSuccess _ => ?_
    refine .bind_ok rfl (.bind_ok rfl ?_)
    exact pushResult_mirrors verify fSuccess (by decide) s st

/-! ## `OP_CHECKMULTISIG` -/

/-- The elements from `stacktop(-i)` down start with `l`. -/
def ReadsAt (stack : List Valtype) (i : Int) (l : List Valtype) : Prop :=
  ∃ k : Nat, i = k + 1 ∧ l <+: stack.drop k

section

variable {stack l : List Valtype} {i : Int} {vch : Valtype}

theorem ReadsAt.top (h : ReadsAt stack i (vch :: l)) : stacktop stack (-i) = .ok vch := by
  obtain ⟨k, hi, rest, hrest⟩ := h
  have hget : stack[k]? = some vch := by
    rw [← head?_drop, ← hrest]
    rfl
  have hneg : -i = Int.negSucc k := by omega
  rw [hneg]
  simp only [stacktop, hget]

theorem ReadsAt.next (h : ReadsAt stack i (vch :: l)) : ReadsAt stack (i + 1) l := by
  obtain ⟨k, hi, rest, hrest⟩ := h
  refine ⟨k + 1, by omega, rest, ?_⟩
  rw [← tail_drop, ← hrest]
  rfl

theorem ReadsAt.take {k : Nat} (hi : i = k + 1) (n : Nat) : ReadsAt stack i ((stack.drop k).take n) :=
  ⟨k, hi, take_prefix n _⟩

end

theorem deleteSigs_eq {isig k i : Int} (hi : isig + k = i) {sigs : List Valtype}
    (h : ReadsAt stack i sigs) (scriptCode : CScript) : deleteSigs stack isig sigs.length k scriptCode =
      .ok (sigs.foldl (fun code vchSig => findAndDelete code (pushScript vchSig)) scriptCode) := by
  induction sigs generalizing i k scriptCode with
  | nil => rfl
  | cons vchSig sigs ih =>
    have htop : stacktop stack (-isig - k) = .ok vchSig := by
      rw [← h.top, ← hi, Int.neg_add, Int.sub_eq_add_neg]
    have hnext : isig + (k + 1) = i + 1 := by omega
    show (stacktop stack (-isig - k) >>= fun vchSig => deleteSigs stack isig sigs.length (k + 1) _) = _
    rw [htop]
    exact ih hnext h.next _

/-- The variables say where the signatures and the keys that are left are. -/
structure MultiSigVars.Covers (v : MultiSigVars) (stack sigs keys : List Valtype) : Prop where
  readsSigs : ReadsAt stack v.isig sigs
  readsKeys : ReadsAt stack v.ikey keys
  nSigsCount : v.nSigsCount = sigs.length
  nKeysCount : v.nKeysCount = keys.length

theorem MultiSigVars.Covers.next {stack sigs keys : List Valtype} {vchSig vchPubKey : Valtype}
    (hv : v.Covers stack (vchSig :: sigs) (vchPubKey :: keys)) (fOk : Bool) :
    (v.next fOk).Covers stack (if fOk then sigs else vchSig :: sigs) keys := by
  have hsigs := hv.nSigsCount
  have hkeys := hv.nKeysCount
  rw [length_cons] at hsigs hkeys
  have hcount : v.nKeysCount - 1 = keys.length := by omega
  cases fOk with
  | true =>
    have hleft : v.nSigsCount - 1 = sigs.length := by omega
    exact ⟨hv.readsSigs.next, hv.readsKeys.next, hleft, hcount⟩
  | false => exact ⟨hv.readsSigs, hv.readsKeys.next, hv.nSigsCount, hcount⟩

theorem multiSigWhile_false {turns : Nat} (h : v.fSuccess = false) :
    multiSigWhile flags checker stack scriptCode turns v = .ok false := by
  cases turns with
  | zero | succ turns => simp [multiSigWhile, h]

theorem multiSigWhile_nil {stack keys : List Valtype} {turns : Nat}
    (hv : v.Covers stack [] keys) : multiSigWhile flags checker stack scriptCode turns v = .ok v.fSuccess := by
  have hcount : v.nSigsCount = 0 := hv.nSigsCount
  cases turns with
  | zero | succ turns => simp [multiSigWhile, hcount]

/-- There are no more turns than keys, and in every turn the next signature and the next key are in the stack. -/
theorem multiSigWhile_mirrors {sigs keys : List Valtype} (hv : v.Covers stack sigs keys) (hsuccess : v.fSuccess)
    (hle : sigs.length ≤ keys.length) :
    Mirrors stopOf (multiSigWhile flags checker stack scriptCode keys.length v)
      (multiSigLoop flags checker scriptCode sigs keys) := by
  induction keys generalizing sigs v with
  | nil =>
    obtain rfl := length_eq_zero_iff.mp (Nat.le_zero.mp hle)
    rw [multiSigWhile_nil flags checker hv, hsuccess]
    exact .ok true
  | cons vchPubKey keys ih =>
    cases sigs with
    | nil =>
      rw [multiSigWhile_nil flags checker hv, hsuccess]
      exact .ok true
    | cons vchSig sigs =>
      have hcount : (v.fSuccess && decide (0 < v.nSigsCount)) = true := by
        rw [hsuccess, hv.nSigsCount]
        exact decide_eq_true (Int.natCast_pos.mpr (Nat.succ_pos _))
      have hturn : multiSigTurn flags checker stack scriptCode v =
          returning (checkEncodedSig flags checker vchSig vchPubKey scriptCode) >>= fun fOk => .ok (v.next fOk) := by
        unfold multiSigTurn
        rw [hv.readsSigs.top, hv.readsKeys.top]
        rfl
      show Mirrors stopOf (if _ then multiSigTurn flags checker stack scriptCode v >>= _ else _) _
      rw [if_pos hcount, hturn, bind_assoc]
      unfold multiSigLoop
      refine .bind (checkEncodedSig_mirrors flags checker _ _ _) fun fOk _ => ?_
      have hnext := hv.next fOk
      have hfSuccess : (v.next fOk).fSuccess =
          if (v.next fOk).nKeysCount < (v.next fOk).nSigsCount then false else v.fSuccess := rfl
      rw [hnext.nKeysCount, hnext.nSigsCount] at hfSuccess
      refine .bind_ok rfl ?_
      generalize (if fOk then sigs else vchSig :: sigs) = left at hnext hfSuccess ⊢
      show Mirrors stopOf _ (if keys.length < left.length then .ok false else _)
      by_cases hlt : keys.length < left.length
      · rw [if_pos (Int.ofNat_lt.mpr hlt)] at hfSuccess
        rw [if_pos hlt, multiSigWhile_false flags checker hfSuccess]
        exact .ok false
      · rw [if_neg fun h => hlt (Int.ofNat_lt.mp h)] at hfSuccess
        rw [if_neg hlt]
        exact ih hnext (hfSuccess.trans hsuccess) (Nat.not_lt.mp hlt)

theorem popArguments_eq {i : Nat} (h : i ≤ stack.length + 1) : popArguments i stack = .ok (stack.drop (i - 1)) := by
  induction i generalizing stack with
  | zero => rfl
  | succ i ih =>
    show (if 1 < i + 1 then popstack stack >>= popArguments i else .ok stack) = .ok (stack.drop i)
    by_cases hi : 1 < i + 1
    · rw [if_pos hi]
      cases stack with
      | nil =>
        rw [length_nil] at h
        omega
      | cons vch stack =>
        rw [length_cons] at h
        have hdrop : (vch :: stack).drop i = stack.drop (i - 1) := by
          rw [show i = i - 1 + 1 by omega]
          rfl
        rw [hdrop]
        exact ih (by omega)
    · rw [if_neg hi, show i = 0 by omega]
      rfl

theorem checkNullDummy_mirrors (dummy : Valtype) (st : List Valtype) :
    Mirrors stopOf (checkNullDummy flags (dummy :: st))
      (failIf (hasFlag flags SCRIPT_VERIFY_NULLDUMMY && decide (dummy.length ≠ 0)) .SCRIPT_ERR_SIG_NULLDUMMY) := by
  unfold checkNullDummy
  cases hasFlag flags SCRIPT_VERIFY_NULLDUMMY with
  | true => exact returnIf_mirrors rfl (by decide)
  | false => exact .ok ()

theorem failIf_or_eq_ok {p q : Prop} [Decidable p] [Decidable q] (h : failIf (decide p || decide q) serror = .ok ()) :
    ¬ p ∧ ¬ q := by
  have hor := failIf_eq_ok.mp h
  rw [Bool.or_eq_false_iff, decide_eq_false_iff_not, decide_eq_false_iff_not] at hor
  exact hor

/-- Each size test covers the count that is read next: `i` grows by the number of keys, and then by the number of
signatures. -/
theorem evalCheckMultiSig_mirrors (verify : Bool) (s : EvalState) :
    Mirrors stopOf (evalCheckMultiSig flags checker verify s) (Reddcoin.evalCheckMultiSig flags checker verify s) := by
  unfold evalCheckMultiSig Reddcoin.evalCheckMultiSig
  refine .bind (returnIf_mirrors (decide_eq_decide.mpr (by omega)) (by decide)) fun _ hguard => ?_
  have hone := of_decide_eq_false (failIf_eq_ok.mp hguard)
  refine .bind_ok (stacktop_eq (k := 0) rfl (by omega)) ?_
  refine .bind (scriptNum_mirrors flags _) fun bn _ => ?_
  generalize CScriptNum.getint bn = nKeysCount
  refine .bind (returnIf_mirrors rfl (by decide)) fun _ hguard => ?_
  obtain ⟨hkeys, -⟩ := failIf_or_eq_ok hguard
  refine .bind (returnIf_mirrors rfl (by decide)) fun _ _ => ?_
  refine .bind (returnIf_mirrors (decide_eq_decide.mpr (by omega)) (by decide)) fun _ hguard => ?_
  have hcount := of_decide_eq_false (failIf_eq_ok.mp hguard)
  refine .bind_ok (stacktop_eq (k := 1 + nKeysCount.toNat) (by omega) (by omega)) ?_
  refine .bind (scriptNum_mirrors flags _) fun bn _ => ?_
  generalize CScriptNum.getint bn = nSigsCount
  refine .bind (returnIf_mirrors rfl (by decide)) fun _ hguard => ?_
  obtain ⟨hsigs, hle⟩ := failIf_or_eq_ok hguard
  refine .bind (returnIf_mirrors (decide_eq_decide.mpr (by omega)) (by decide)) fun _ hguard => ?_
  have hall := of_decide_eq_false (failIf_eq_ok.mp hguard)
  have hsigsLength : ((s.stack.drop (2 + nKeysCount.toNat)).take nSigsCount.toNat).length = nSigsCount.toNat := by
    rw [length_take, length_drop]
    omega
  have hkeysLength : ((s.stack.drop 1).take nKeysCount.toNat).length = nKeysCount.toNat := by
    rw [length_take, length_drop]
    omega
  have hreadsSigs : ReadsAt s.stack (1 + 1 + nKeysCount + 1) ((s.stack.drop (2 + nKeysCount.toNat)).take
      nSigsCount.toNat) := .take (by omega) _
  have hreadsKeys : ReadsAt s.stack (1 + 1) ((s.stack.drop 1).take nKeysCount.toNat) := .take (by omega) _
  generalize (s.stack.drop (2 + nKeysCount.toNat)).take nSigsCount.toNat = sigs at hsigsLength hreadsSigs ⊢
  generalize (s.stack.drop 1).take nKeysCount.toNat = keys at hkeysLength hreadsKeys ⊢
  have hdelete := deleteSigs_eq (Int.add_zero _) hreadsSigs s.pbegincodehash
  rw [hsigsLength] at hdelete
  refine .bind_ok hdelete ?_
  have hsigsCount : nSigsCount = sigs.length := by omega
  have hkeysCount : nKeysCount = keys.length := by omega
  have hcovers : MultiSigVars.Covers ⟨true, 1 + 1 + nKeysCount + 1, 1 + 1, nSigsCount, nKeysCount⟩ s.stack sigs keys :=
    ⟨hreadsSigs, hreadsKeys, hsigsCount, hkeysCount⟩
  rw [← hkeysLength]
  refine .bind (multiSigWhile_mirrors flags checker hcovers rfl (by omega)) fun fSuccess _ => ?_
  refine .bind_ok (popArguments_eq (by omega)) ?_
  rw [show (1 + 1 + nKeysCount + 1 + nSigsCount).toNat - 1 = 2 + keys.length + nSigsCount.toNat by omega]
  rcases s.stack.drop (2 + keys.length + nSigsCount.toNat) with _ | ⟨dummy, st⟩
  · rfl
  · refine .bind_ok rfl ?_
    refine .bind (checkNullDummy_mirrors flags dummy st) fun _ _ => ?_
    refine .bind_ok rfl ?_
    exact pushResult_mirrors verify fSuccess (by decide) _ st

/-! ## Scripts -/

theorem evalOpcode_mirrors (op : OpcodeType) (pc : CScript) (s : EvalState) :
    Mirrors stopOf (evalOpcode D flags checker op pc s) (Reddcoin.evalOpcode D.hashes flags checker op pc s) := by
  cases op with
  | number n => exact .ok _
  | OP_NOP => exact .ok _
  | upgradableNop => exact .bind (returnIf_mirrors rfl (by decide)) fun _ _ => .ok _
  | OP_IF => exact evalConditional_mirrors false s
  | OP_NOTIF => exact evalConditional_mirrors true s
  | OP_ELSE | OP_ENDIF =>
    unfold evalOpcode Reddcoin.evalOpcode
    cases s.vfExec with
    | nil => rfl
    | cons b vfExec => rfl
  | OP_VERIFY => exact evalVerify_mirrors D flags checker pc s
  | OP_RETURN => rfl
  | OP_TOALTSTACK =>
    unfold evalOpcode evalToAltStack Reddcoin.evalOpcode
    cases s.stack with
    | nil => rfl
    | cons vch st => rfl
  | OP_FROMALTSTACK =>
    unfold evalOpcode evalFromAltStack Reddcoin.evalOpcode
    cases s.altstack with
    | nil => rfl
    | cons vch altstack => rfl
  | stack op => exact .bind (evalStackOp_mirrors op s.stack) fun _ _ => .ok _
  | OP_PICK => exact evalPick_mirrors flags false s
  | OP_ROLL => exact evalPick_mirrors flags true s
  | OP_EQUAL => exact evalEqual_mirrors D flags checker false pc s
  | OP_EQUALVERIFY => exact evalEqual_mirrors D flags checker true pc s
  | unary op => exact evalUnary_mirrors flags op s
  | binary op => exact evalBinary_mirrors flags op s
  | OP_WITHIN => exact evalWithin_mirrors flags s
  | hash op =>
    unfold evalOpcode evalHash Reddcoin.evalOpcode
    cases s.stack with
    | nil => rfl
    | cons vch st => cases op <;> rfl
  | OP_CODESEPARATOR => exact .ok _
  | OP_CHECKSIG => exact evalCheckSig_mirrors flags checker false s
  | OP_CHECKSIGVERIFY => exact evalCheckSig_mirrors flags checker true s
  | OP_CHECKMULTISIG => exact evalCheckMultiSig_mirrors flags checker false s
  | OP_CHECKMULTISIGVERIFY => exact evalCheckMultiSig_mirrors flags checker true s

theorem execute_mirrors (op : ScriptOp) (s : EvalState) :
    Mirrors stopOf (execute D flags checker op s) (Reddcoin.execute D.hashes flags checker op s) := by
  unfold execute Reddcoin.execute
  refine .ite (fun _ => ?_) fun _ => .ite (fun _ => ?_) fun _ => .ok s
  · exact .bind (returnIf_mirrors rfl (by decide)) fun _ _ => .ok _
  · cases opcodeType op.opcode with
    | none => exact fails_mirrors (by decide)
    | some case => exact evalOpcode_mirrors D flags checker case op.pc s

/-- One turn of the loop: the stack machine does what the interpreter does. -/
theorem evalInstruction_mirrors (op : ScriptOp) (s : EvalState) :
    Mirrors stopOf (evalInstruction D flags checker op s) (Reddcoin.evalInstruction D.hashes flags checker op s) := by
  unfold evalInstruction Reddcoin.evalInstruction
  refine .bind (returnIf_mirrors rfl (by decide)) fun _ _ => ?_
  refine .bind (returnIf_mirrors rfl (by decide)) fun _ _ => ?_
  refine .bind (returnIf_mirrors rfl (by decide)) fun _ _ => ?_
  refine .bind (execute_mirrors D flags checker op _) fun s _ => ?_
  exact .bind (returnIf_mirrors rfl (by decide)) fun _ _ => .ok s

theorem getOp2_length {pc : CScript} {op : ScriptOp} (h : getOp2 pc = some op) : op.pc.length < pc.length := by
  obtain ⟨b, data, rfl, -, -⟩ := getOp2_suffix h
  rw [length_append, length_cons]
  omega

/-- The turns are enough for a script of their number of bytes. -/
theorem evalLoop_mirrors {turns : Nat} {pc : CScript} (hpc : pc.length ≤ turns) (s : EvalState) :
    Mirrors stopOf (evalLoop D flags checker turns pc s) (Reddcoin.evalLoop D.hashes flags checker turns pc s) := by
  induction turns generalizing pc s with
  | zero =>
    obtain rfl := length_eq_zero_iff.mp (Nat.le_zero.mp hpc)
    rfl
  | succ turns ih =>
    unfold evalLoop Reddcoin.evalLoop
    refine .ite (fun _ => .ok s) fun _ => ?_
    cases hop : getOp2 pc with
    | none => exact fails_mirrors (by decide)
    | some op =>
      have hshorter : op.pc.length ≤ turns := by
        have hlength := getOp2_length hop
        omega
      exact .bind (evalInstruction_mirrors D flags checker op s) fun s _ => ih hshorter s

theorem catchAll_mirrors {α : Type} {x : EvalRun α} {y : ScriptRun α} (h : Mirrors stopOf x y) :
    Mirrors .fails (catchAll x) y := by
  rw [show x = y.mapError stopOf from h]
  cases y with
  | ok a => rfl
  | error serror => cases serror <;> rfl

/-- With its catch-all, the stack machine only fails by errors, and they are those of the interpreter. -/
theorem evalScript_mirrors (stack : List Valtype) (script : CScript) :
    Mirrors .fails (evalScript D flags checker stack script)
      (Reddcoin.evalScript D.hashes flags checker stack script) := by
  unfold evalScript Reddcoin.evalScript
  refine .bind rfl fun _ _ => ?_
  refine .bind (catchAll_mirrors (evalLoop_mirrors D flags checker (Nat.le_refl _) _)) fun s _ => ?_
  exact .bind rfl fun _ _ => .ok _

end

end StackMachine

end Reddcoin
