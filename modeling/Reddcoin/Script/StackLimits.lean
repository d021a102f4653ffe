import Reddcoin.Script.StackSafety

/-!
# The limits of the stacks

What an instruction puts on a stack is a push, a number, a hash, a truth value or an element that was there.
-/

namespace Reddcoin

namespace StackMachine

/-- Every element is at most as long as a push. -/
def Short (stack : List Valtype) : Prop :=
  ∀ vch ∈ stack, vch.length ≤ MAX_SCRIPT_ELEMENT_SIZE

@[simp]
theorem short_nil : Short [] := by
  intro vch h
  cases h

@[simp]
theorem short_cons {vch : Valtype} {stack : List Valtype} :
    Short (vch :: stack) ↔ vch.length ≤ MAX_SCRIPT_ELEMENT_SIZE ∧ Short stack :=
  List.forall_mem_cons

structure ElementsFit (s : EvalState) : Prop where
  stack : Short s.stack
  altstack : Short s.altstack

structure WithinLimits (s : EvalState) : Prop extends ElementsFit s where
  size : s.stack.length + s.altstack.length ≤ 1000

theorem ElementsFit.withStack {s : EvalState} (hs : ElementsFit s) {stack : List Valtype} (h : Short stack) :
    ElementsFit (s.withStack stack) :=
  ⟨h, hs.altstack⟩

/-! ## New elements -/

theorem absBytes_length (turns absvalue : Nat) : (CScriptNum.absBytes turns absvalue).length ≤ turns := by
  induction turns generalizing absvalue with
  | zero => exact Nat.le_refl 0
  | succ turns ih =>
    unfold CScriptNum.absBytes
    by_cases hzero : absvalue = 0
    · rw [if_pos hzero]
      exact Nat.zero_le _
    · rw [if_neg hzero]
      exact Nat.succ_le_succ (ih _)

/-- A number takes eight bytes and one for the sign. -/
theorem getvch_length (value : Int) : (CScriptNum.getvch value).length ≤ 9 := by
  have hbytes := absBytes_length 8 value.natAbs
  unfold CScriptNum.getvch
  by_cases hzero : value = 0
  · rw [if_pos hzero]
    exact Nat.zero_le _
  · rw [if_neg hzero]
    dsimp only
    split
    · exact Nat.zero_le _
    · split_ifs
      · rw [List.length_append, List.length_singleton]
        omega
      · rw [List.length_append, List.length_singleton]
        omega
      · rw [List.length_append, List.length_dropLast, List.length_singleton]
        omega
      · omega

theorem getvch_short (value : Int) : (CScriptNum.getvch value).length ≤ MAX_SCRIPT_ELEMENT_SIZE :=
  Nat.le_trans (getvch_length value) (by decide)

theorem ofBool_short (b : Bool) : (ofBool b).length ≤ MAX_SCRIPT_ELEMENT_SIZE := by
  cases b <;> decide

theorem digest_short (D : ScriptDigests) (op : HashOp) (vch : Valtype) :
    (D.hashes.eval op vch).length ≤ MAX_SCRIPT_ELEMENT_SIZE := by
  have hsize : op.size ≤ MAX_SCRIPT_ELEMENT_SIZE := by
    cases op <;> decide
  have heval : D.hashes.eval op vch = (D.digest op vch).toList := by
    cases op <;> rfl
  rw [heval, Vector.length_toList]
  exact hsize

/-! ## Instructions -/

section

variable (D : ScriptDigests) (flags : Nat) (checker : BaseSignatureChecker) {s : EvalState} {stack : List Valtype}

theorem evalStackOp_short (op : StackOp) (h : Short stack) : Returns Short (Reddcoin.evalStackOp op stack) := by
  cases op with
  | OP_DEPTH => exact .ok (short_cons.mpr ⟨getvch_short _, h⟩)
  | OP_IFDUP =>
    rcases stack with _ | ⟨x, st⟩
    · exact .error _
    · refine .ok ?_
      split
      · exact short_cons.mpr ⟨(short_cons.mp h).1, h⟩
      · exact h
  | OP_SIZE =>
    rcases stack with _ | ⟨x, st⟩
    · exact .error _
    · exact .ok (short_cons.mpr ⟨getvch_short _, h⟩)
  | OP_DROP | OP_DUP =>
    rcases stack with _ | ⟨x, st⟩
    · exact .error _
    · exact .ok (by simp only [short_cons] at h ⊢; simp [h])
  | OP_2DROP | OP_2DUP | OP_NIP | OP_OVER | OP_SWAP | OP_TUCK =>
    rcases stack with _ | ⟨x2, _ | ⟨x1, st⟩⟩
    · exact .error _
    · exact .error _
    · exact .ok (by simp only [short_cons] at h ⊢; simp [h])
  | OP_3DUP | OP_ROT =>
    rcases stack with _ | ⟨x3, _ | ⟨x2, _ | ⟨x1, st⟩⟩⟩
    · exact .error _
    · exact .error _
    · exact .error _
    · exact .ok (by simp only [short_cons] at h ⊢; simp [h])
  | OP_2OVER | OP_2SWAP =>
    rcases stack with _ | ⟨x4, _ | ⟨x3, _ | ⟨x2, _ | ⟨x1, st⟩⟩⟩⟩
    · exact .error _
    · exact .error _
    · exact .error _
    · exact .error _
    · exact .ok (by simp only [short_cons] at h ⊢; simp [h])
  | OP_2ROT =>
    rcases stack with _ | ⟨x6, _ | ⟨x5, _ | ⟨x4, _ | ⟨x3, _ | ⟨x2, _ | ⟨x1, st⟩⟩⟩⟩⟩⟩
    · exact .error _
    · exact .error _
    · exact .error _
    · exact .error _
    · exact .error _
    · exact .error _
    · exact .ok (by simp only [short_cons] at h ⊢; simp [h])

theorem pushResult_fit (verify fSuccess : Bool) (serror : ScriptError) (hs : ElementsFit s) (h : Short stack) :
    Returns ElementsFit (Reddcoin.pushResult verify fSuccess serror s stack) := by
  have hpush : ElementsFit (s.withStack (ofBool fSuccess :: stack)) :=
    hs.withStack (short_cons.mpr ⟨ofBool_short fSuccess, h⟩)
  unfold Reddcoin.pushResult
  refine .ite (fun _ => ?_) fun _ => .ok hpush
  exact .ite (fun _ => .ok (hs.withStack h)) fun _ => .error _

theorem evalConditional_fit (isNotIf : Bool) (hs : ElementsFit s) :
    Returns ElementsFit (Reddcoin.evalConditional isNotIf s) := by
  have hstack := hs.stack
  unfold Reddcoin.evalConditional
  refine .ite (fun _ => ?_) fun _ => .ok ⟨hs.stack, hs.altstack⟩
  generalize s.stack = l at hstack ⊢
  rcases l with _ | ⟨vch, st⟩
  · exact .error _
  · exact .ok ⟨(short_cons.mp hstack).2, hs.altstack⟩

theorem evalPick_fit (roll : Bool) (hs : ElementsFit s) : Returns ElementsFit (Reddcoin.evalPick flags roll s) := by
  have hstack := hs.stack
  unfold Reddcoin.evalPick
  generalize s.stack = l at hstack ⊢
  rcases l with _ | ⟨top, _ | ⟨x, st⟩⟩
  · exact .error _
  · exact .error _
  · have hrest : Short (x :: st) := (short_cons.mp hstack).2
    refine .bind_any _ fun bn => .bind_any _ fun _ => .ok (hs.withStack (short_cons.mpr ⟨?_, ?_⟩))
    · rw [List.getD_eq_getElem?_getD]
      cases hget : (x :: st)[(CScriptNum.getint bn).toNat]? with
      | none => exact Nat.zero_le _
      | some vch => exact hrest vch (List.mem_of_getElem? hget)
    · cases roll with
      | false => exact hrest
      | true => exact fun vch hvch => hrest vch (List.mem_of_mem_eraseIdx hvch)

theorem evalBinary_fit (op : BinaryOp) (hs : ElementsFit s) :
    Returns ElementsFit (Reddcoin.evalBinary flags op s) := by
  have hstack := hs.stack
  unfold Reddcoin.evalBinary
  generalize s.stack = l at hstack ⊢
  rcases l with _ | ⟨x2, _ | ⟨x1, st⟩⟩
  · exact .error _
  · exact .error _
  · have hrest : Short st := (short_cons.mp (short_cons.mp hstack).2).2
    refine .bind_any _ fun bn1 => .bind_any _ fun bn2 => .ite (fun _ => ?_) fun _ => ?_
    · exact .bind_any _ fun _ => .ok (hs.withStack hrest)
    · exact .ok (hs.withStack (short_cons.mpr ⟨getvch_short _, hrest⟩))

theorem evalWithin_fit (hs : ElementsFit s) : Returns ElementsFit (Reddcoin.evalWithin flags s) := by
  have hstack := hs.stack
  unfold Reddcoin.evalWithin
  generalize s.stack = l at hstack ⊢
  rcases l with _ | ⟨x3, _ | ⟨x2, _ | ⟨x1, st⟩⟩⟩
  · exact .error _
  · exact .error _
  · exact .error _
  · have hrest : Short st := (short_cons.mp (short_cons.mp (short_cons.mp hstack).2).2).2
    refine .bind_any _ fun bn1 => .bind_any _ fun bn2 => .bind_any _ fun bn3 => ?_
    exact .ok (hs.withStack (short_cons.mpr ⟨ofBool_short _, hrest⟩))

theorem evalCheckSig_fit (verify : Bool) (hs : ElementsFit s) :
    Returns ElementsFit (Reddcoin.evalCheckSig flags checker verify s) := by
  have hstack := hs.stack
  unfold Reddcoin.evalCheckSig
  generalize s.stack = l at hstack ⊢
  rcases l with _ | ⟨vchPubKey, _ | ⟨vchSig, st⟩⟩
  · exact .error _
  · exact .error _
  · have hrest : Short st := (short_cons.mp (short_cons.mp hstack).2).2
    exact .bind_any _ fun fSuccess => pushResult_fit verify fSuccess _ hs hrest

/-- What is left of the stack below the arguments. -/
theorem evalCheckMultiSig_fit (verify : Bool) (hs : ElementsFit s) :
    Returns ElementsFit (Reddcoin.evalCheckMultiSig flags checker verify s) := by
  unfold Reddcoin.evalCheckMultiSig
  refine .bind_any _ fun _ => .bind_any _ fun bnKeys => .bind_any _ fun _ => .bind_any _ fun _ => ?_
  refine .bind_any _ fun _ => .bind_any _ fun bnSigs => .bind_any _ fun _ => .bind_any _ fun _ => ?_
  refine .bind_any _ fun fSuccess => ?_
  have hdrop : Short (s.stack.drop (2 + (CScriptNum.getint bnKeys).toNat + (CScriptNum.getint bnSigs).toNat)) :=
    fun vch hvch => hs.stack vch (List.mem_of_mem_drop hvch)
  generalize s.stack.drop _ = l at hdrop ⊢
  rcases l with _ | ⟨dummy, st⟩
  · exact .error _
  · exact .bind_any _ fun _ => pushResult_fit verify fSuccess _ ⟨hs.stack, hs.altstack⟩ (short_cons.mp hdrop).2

theorem evalOpcode_fit (op : OpcodeType) (pc : CScript) (hs : ElementsFit s) :
    Returns ElementsFit (Reddcoin.evalOpcode D.hashes flags checker op pc s) := by
  have hstack := hs.stack
  have haltstack := hs.altstack
  cases op with
  | number n => exact .ok (hs.withStack (short_cons.mpr ⟨getvch_short n, hs.stack⟩))
  | OP_NOP => exact .ok hs
  | upgradableNop => exact .bind_any _ fun _ => .ok hs
  | OP_IF => exact evalConditional_fit false hs
  | OP_NOTIF => exact evalConditional_fit true hs
  | OP_ELSE | OP_ENDIF =>
    unfold Reddcoin.evalOpcode
    cases s.vfExec with
    | nil => exact .error _
    | cons b vfExec => exact .ok ⟨hs.stack, hs.altstack⟩
  | OP_VERIFY =>
    unfold Reddcoin.evalOpcode
    generalize s.stack = l at hstack ⊢
    rcases l with _ | ⟨vch, st⟩
    · exact .error _
    · exact .ite (fun _ => .ok (hs.withStack (short_cons.mp hstack).2)) fun _ => .error _
  | OP_RETURN => exact .error _
  | OP_TOALTSTACK =>
    unfold Reddcoin.evalOpcode
    generalize s.stack = l at hstack ⊢
    rcases l with _ | ⟨vch, st⟩
    · exact .error _
    · obtain ⟨hvch, hst⟩ := short_cons.mp hstack
      exact .ok ⟨hst, short_cons.mpr ⟨hvch, hs.altstack⟩⟩
  | OP_FROMALTSTACK =>
    unfold Reddcoin.evalOpcode
    generalize s.altstack = l at haltstack ⊢
    rcases l with _ | ⟨vch, altstack⟩
    · exact .error _
    · obtain ⟨hvch, halt⟩ := short_cons.mp haltstack
      exact .ok ⟨short_cons.mpr ⟨hvch, hs.stack⟩, halt⟩
  | stack op =>
    refine .bind (evalStackOp_short op hs.stack) fun st hst => ?_
    exact .ok (hs.withStack hst)
  | OP_PICK => exact evalPick_fit flags false hs
  | OP_ROLL => exact evalPick_fit flags true hs
  | OP_EQUAL | OP_EQUALVERIFY =>
    unfold Reddcoin.evalOpcode
    generalize s.stack = l at hstack ⊢
    rcases l with _ | ⟨x2, _ | ⟨x1, st⟩⟩
    · exact .error _
    · exact .error _
    · exact pushResult_fit _ _ _ hs (short_cons.mp (short_cons.mp hstack).2).2
  | unary op =>
    unfold Reddcoin.evalOpcode Reddcoin.evalUnary
    generalize s.stack = l at hstack ⊢
    rcases l with _ | ⟨x, st⟩
    · exact .error _
    · refine .bind_any _ fun bn => ?_
      exact .ok (hs.withStack (short_cons.mpr ⟨getvch_short _, (short_cons.mp hstack).2⟩))
  | binary op => exact evalBinary_fit flags op hs
  | OP_WITHIN => exact evalWithin_fit flags hs
  | hash op =>
    unfold Reddcoin.evalOpcode
    generalize s.stack = l at hstack ⊢
    rcases l with _ | ⟨vch, st⟩
    · exact .error _
    · exact .ok (hs.withStack (short_cons.mpr ⟨digest_short D op vch, (short_cons.mp hstack).2⟩))
  | OP_CODESEPARATOR => exact .ok ⟨hs.stack, hs.altstack⟩
  | OP_CHECKSIG => exact evalCheckSig_fit flags checker false hs
  | OP_CHECKSIGVERIFY => exact evalCheckSig_fit flags checker true hs
  | OP_CHECKMULTISIG => exact evalCheckMultiSig_fit flags checker false hs
  | OP_CHECKMULTISIGVERIFY => exact evalCheckMultiSig_fit flags checker true hs

theorem execute_fit (op : ScriptOp) (hvch : op.vch.length ≤ MAX_SCRIPT_ELEMENT_SIZE) (hs : ElementsFit s) :
    Returns ElementsFit (Reddcoin.execute D.hashes flags checker op s) := by
  unfold Reddcoin.execute
  refine .ite (fun _ => ?_) fun _ => .ite (fun _ => ?_) fun _ => .ok hs
  · exact .bind_any _ fun _ => .ok (hs.withStack (short_cons.mpr ⟨hvch, hs.stack⟩))
  · cases opcodeType op.opcode with
    | none => exact .error _
    | some case => exact evalOpcode_fit D flags checker case op.pc hs

/-- The push is tested before the instruction, the number of elements after it. -/
theorem evalInstruction_within (op : ScriptOp) (hs : ElementsFit s) :
    Returns WithinLimits (Reddcoin.evalInstruction D.hashes flags checker op s) := by
  have hpush : Returns (fun _ => op.vch.length ≤ MAX_SCRIPT_ELEMENT_SIZE)
      (failIf (decide (MAX_SCRIPT_ELEMENT_SIZE < op.vch.length)) .SCRIPT_ERR_PUSH_SIZE) :=
    fun _ h => Nat.not_lt.mp (of_decide_eq_false (failIf_eq_ok.mp h))
  have hcounted : ElementsFit (if OP_16 < op.opcode then { s with nOpCount := s.nOpCount + 1 } else s) := by
    split
    · exact ⟨hs.stack, hs.altstack⟩
    · exact hs
  unfold Reddcoin.evalInstruction
  refine .bind hpush fun _ hvch => .bind_any _ fun _ => .bind_any _ fun _ => ?_
  refine .bind (execute_fit D flags checker op hvch hcounted) fun s' hs' => ?_
  have hsize : Returns (fun _ => s'.stack.length + s'.altstack.length ≤ 1000)
      (failIf (decide (1000 < s'.stack.length + s'.altstack.length)) .SCRIPT_ERR_STACK_SIZE) :=
    fun _ h => Nat.not_lt.mp (of_decide_eq_false (failIf_eq_ok.mp h))
  exact .bind hsize fun _ h => .ok ⟨hs', h⟩

/-! ## Runs -/

/-- The loop of `EvalScript` gets to `pc` with the variables `s`. -/
inductive Reaches (stack : List Valtype) (script : CScript) : CScript → EvalState → Prop where
  | start : Reaches stack script script (start stack script)
  | turn {pc : CScript} {op : ScriptOp} {s s' : EvalState} (h : Reaches stack script pc s)
      (hop : getOp2 pc = some op) (hturn : evalInstruction D flags checker op s = .ok s') :
      Reaches stack script op.pc s'

variable {D flags checker} {script pc : CScript}

theorem Reaches.within (h : Reaches D flags checker stack script pc s) (hsize : stack.length ≤ 1000)
    (hshort : Short stack) : WithinLimits s := by
  induction h with
  | start => exact ⟨⟨hshort, short_nil⟩, hsize⟩
  | turn h hop hturn ih =>
    exact (evalInstruction_mirrors D flags checker _ _).returns
      (evalInstruction_within D flags checker _ ih.toElementsFit) _ hturn

/-- The states of the loop are reached, and it ends behind the script. -/
theorem Reaches.evalLoop {turns : Nat} {s' : EvalState} (h : Reaches D flags checker stack script pc s)
    (hloop : evalLoop D flags checker turns pc s = .ok s') : Reaches D flags checker stack script [] s' := by
  induction turns generalizing pc s with
  | zero =>
    unfold StackMachine.evalLoop at hloop
    split at hloop
    · next hempty =>
        obtain rfl := List.isEmpty_iff.mp hempty
        cases hloop
        exact h
    · cases hloop
  | succ turns ih =>
    unfold StackMachine.evalLoop at hloop
    split at hloop
    · next hempty =>
        obtain rfl := List.isEmpty_iff.mp hempty
        cases hloop
        exact h
    · cases hop : getOp2 pc with
      | none =>
        rw [hop] at hloop
        cases hloop
      | some op =>
        rw [hop] at hloop
        cases hturn : evalInstruction D flags checker op s with
        | error stop =>
          simp only [hturn] at hloop
          cases hloop
        | ok s'' =>
          simp only [hturn] at hloop
          exact ih (h.turn hop hturn) hloop

/-- From a stack within the limits, no read leaves a stack, no assertion fails, and every state that the loop reaches is
within the limits again.  What the catch-all sees is that an element is no number. -/
theorem evalScript_stack_safe (D : ScriptDigests) (flags : Nat) (checker : BaseSignatureChecker) (script : CScript)
    (stack : List Valtype) (hsize : stack.length ≤ 1000) (hshort : Short stack) :
    (∀ pc s, Reaches D flags checker stack script pc s → WithinLimits s ∧
      ∀ op stop, getOp2 pc = some op → evalInstruction D flags checker op s = .error stop →
        stop = .throws .scriptnumError ∨ ∃ serror, stop = .fails serror) ∧
    (∀ stop, evalLoop D flags checker script.length script (start stack script) = .error stop →
      stop = .throws .scriptnumError ∨ ∃ serror, stop = .fails serror) ∧
    (∀ s, evalLoop D flags checker script.length script (start stack script) = .ok s →
      Reaches D flags checker stack script [] s) ∧
    evalScript D flags checker stack script =
      (Reddcoin.evalScript D.hashes flags checker stack script).mapError .fails := by
  refine ⟨fun pc s h => ⟨h.within hsize hshort, fun op stop _ hstop => ?_⟩, fun stop hstop => ?_,
    fun s => Reaches.start.evalLoop, evalScript_mirrors D flags checker stack script⟩
  · obtain ⟨serror, rfl⟩ := (evalInstruction_mirrors D flags checker op s).error_eq hstop
    exact stopOf_cases serror
  · obtain ⟨serror, rfl⟩ := (evalLoop_mirrors D flags checker (Nat.le_refl _) _).error_eq hstop
    exact stopOf_cases serror

/-- `OP_DUP OP_ADD` on one element, after the first instruction. -/
theorem evalScript_stack_safe_dup : WithinLimits
    { stack := [[1], [1]], altstack := [], vfExec := [], nOpCount := 1, pbegincodehash := [0x76, 0x93] } :=
  ((evalScript_stack_safe ⟨fun op _ => Vector.replicate op.size 0⟩ 0 ⟨fun _ _ _ => false⟩ [0x76, 0x93] [[1]] (by decide)
    (short_cons.mpr ⟨by decide, short_nil⟩)).1 [0x93] _
      (@Reaches.turn _ _ _ _ _ _ ⟨0x76, [], [0x93]⟩ _ _ .start rfl rfl)).1

end

end StackMachine

end Reddcoin
