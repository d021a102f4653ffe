import Reddcoin.Script.Pushes

/-!
# Running a multisignature output

What `OP_CHECKMULTISIG` makes of signatures that stand on the stack in the order of their keys, or with a
placeholder on top.
-/

namespace Reddcoin

open List

/-! ## The loop over signatures and keys -/

section

variable {checker : BaseSignatureChecker} {scriptCode : CScript} {sigs keys picked : List Valtype}
  {sigOf : Valtype → Valtype}

/-- Without further flags no encoding is checked. -/
theorem checkEncodedSig_p2sh (vchSig vchPubKey : Valtype) :
    checkEncodedSig SCRIPT_VERIFY_P2SH checker vchSig vchPubKey scriptCode =
      .ok (checker.checkSig vchSig vchPubKey scriptCode) :=
  rfl

/-- Signatures in the order of their keys pass.  A key that is left out takes no signature away. -/
theorem multiSigLoop_picked (hpicked : picked.Sublist keys)
    (hvalid : ∀ key ∈ picked, checker.checkSig (sigOf key) key scriptCode)
    (hone : ∀ key ∈ picked, ∀ other ∈ keys, checker.checkSig (sigOf key) other scriptCode → other = key)
    (hnodup : keys.Nodup) :
    multiSigLoop SCRIPT_VERIFY_P2SH checker scriptCode (picked.map sigOf) keys = .ok true := by
  induction hpicked with
  | slnil => rfl
  | @cons picked keys key hsub ih =>
    have hkey : key ∉ keys := (nodup_cons.mp hnodup).1
    have hrest := ih hvalid (fun k hk other hother => hone k hk other (mem_cons_of_mem _ hother))
      (nodup_cons.mp hnodup).2
    cases picked with
    | nil => rfl
    | cons first picked =>
      have hfirst : first ∈ keys := hsub.subset mem_cons_self
      have hfail : checker.checkSig (sigOf first) key scriptCode = false := by
        rw [Bool.eq_false_iff]
        intro hcheck
        have heq := hone first mem_cons_self key mem_cons_self hcheck
        exact hkey (heq ▸ hfirst)
      have hlength := hsub.length_le
      rw [map_cons] at hrest ⊢
      rw [multiSigLoop, checkEncodedSig_p2sh, hfail]
      show (if keys.length < (sigOf first :: picked.map sigOf).length then _ else _) = _
      rw [if_neg (by rw [length_cons, length_map]; rw [length_cons] at hlength; omega)]
      exact hrest
  | @cons_cons picked keys key hsub ih =>
    have hrest := ih (fun k hk => hvalid k (mem_cons_of_mem _ hk))
      (fun k hk other hother => hone k (mem_cons_of_mem _ hk) other (mem_cons_of_mem _ hother))
      (nodup_cons.mp hnodup).2
    have hlength := hsub.length_le
    rw [map_cons, multiSigLoop, checkEncodedSig_p2sh, hvalid key mem_cons_self]
    show (if keys.length < (picked.map sigOf).length then _ else _) = _
    rw [if_neg (by rw [length_map]; omega)]
    exact hrest

/-- A placeholder that comes first is never passed. -/
theorem multiSigLoop_placeholder {vchSig : Valtype}
    (hfail : ∀ key ∈ keys, checker.checkSig vchSig key scriptCode = false) :
    multiSigLoop SCRIPT_VERIFY_P2SH checker scriptCode (vchSig :: sigs) keys = .ok false := by
  induction keys with
  | nil => rfl
  | cons key keys ih =>
    have hrest := ih fun other hother => hfail other (mem_cons_of_mem _ hother)
    rw [multiSigLoop, checkEncodedSig_p2sh, hfail key mem_cons_self]
    by_cases hmore : keys.length < (vchSig :: sigs).length
    · show (if keys.length < (vchSig :: sigs).length then pure false else _) = _
      rw [if_pos hmore]
      rfl
    · show (if keys.length < (vchSig :: sigs).length then _ else _) = _
      rw [if_neg hmore]
      exact hrest

end

/-! ## The script -/

section

variable {H : ScriptHashes} {checker : BaseSignatureChecker} {s : EvalState} {pc pc' script : CScript}
  {op : ScriptOp} {keys sigs st : List Valtype} {b dummy : Valtype} {m : Nat}

/-- `FindAndDelete` of a signature takes nothing away. -/
def Untouched (b : Valtype) (pc : CScript) : Prop :=
  ∀ turns, pc.length < turns → findAndDeleteLoop (pushScript b) turns pc = pc

theorem Untouched.step (hb : b.length < 2 ^ 32) (read : getOp2 pc = some op)
    (habsent : op.opcode ≤ OP_PUSHDATA4 → op.vch ≠ b) (rest : Untouched b op.pc) : Untouched b pc := by
  have hshort := StackMachine.getOp2_length read
  intro turns hturns
  cases turns with
  | zero => omega
  | succ turns =>
    refine findAndDeleteLoop_absent hb (fun op' hread => ?_) fun op' hread => ?_
    · obtain rfl := Option.mem_unique read hread
      exact habsent
    · obtain rfl := Option.mem_unique read hread
      exact rest turns (by omega)

theorem Untouched.nil (hb : b.length < 2 ^ 32) : Untouched b [] := by
  intro turns hturns
  cases turns with
  | zero => omega
  | succ turns =>
    refine findAndDeleteLoop_absent hb (fun op hread => ?_) fun op hread => ?_
    · cases hread
    · cases hread

theorem Untouched.pushes (hb : b.length < 2 ^ 32) (h : Pushes pc keys pc') (habsent : b ∉ keys)
    (rest : Untouched b pc') : Untouched b pc := by
  induction h with
  | nil pc => exact rest
  | @cons pc pc' op values read push hrest ih =>
    refine .step hb read (fun _ heq => habsent ?_) (ih (fun hmem => habsent (mem_cons_of_mem _ hmem)) rest)
    rw [← heq]
    exact mem_cons_self

theorem MultisigScript.findAndDelete_eq (h : MultisigScript script m keys) (hb : b.length < 2 ^ 32)
    (habsent : b ∉ keys) : findAndDelete script (pushScript b) = script := by
  obtain ⟨first, last, check, hfirst, hfirstop, ⟨pc, hpushes, hlast⟩, hlastop, hcheck, hcheckop, hend⟩ := h.parts
  have h1 : OP_1 = 0x51 := rfl
  have hpush4 : OP_PUSHDATA4 = 0x4e := rfl
  have hmulti : OP_CHECKMULTISIG = 0xae := rfl
  have hkeys := h.required
  have hnil : Untouched b check.pc := by
    rw [hend]
    exact .nil hb
  have htail : Untouched b last.pc := .step hb hcheck (fun hsmall => by omega) hnil
  have hnumber : Untouched b pc := .step hb hlast (fun hsmall => by omega) htail
  have hall : Untouched b script := .step hb hfirst (fun hsmall => by omega) (.pushes hb hpushes habsent hnumber)
  unfold findAndDelete
  split_ifs
  · rfl
  · exact hall _ (Nat.lt_succ_self _)

theorem MultisigScript.deleteSigs_eq (h : MultisigScript script m keys) (hb : ∀ b ∈ sigs, b.length < 2 ^ 32)
    (habsent : ∀ b ∈ sigs, b ∉ keys) :
    sigs.foldl (fun code vchSig => findAndDelete code (pushScript vchSig)) script = script := by
  induction sigs with
  | nil => rfl
  | cons b sigs ih =>
    rw [foldl_cons, h.findAndDelete_eq (hb b mem_cons_self) (habsent b mem_cons_self)]
    exact ih (fun c hc => hb c (mem_cons_of_mem _ hc)) fun c hc => habsent c (mem_cons_of_mem _ hc)

theorem readPush_length {opcode nSize : Nat} (read : readPush opcode nSize pc = some op) :
    pc.length = op.pc.length + op.vch.length := by
  unfold readPush at read
  split_ifs at read with hshort
  cases read
  show pc.length = (pc.drop nSize).length + (pc.take nSize).length
  rw [length_drop, length_take]
  omega

theorem readSize_length {width n : Nat} (read : readSize width pc = some (n, pc')) :
    pc.length = width + pc'.length := by
  induction width generalizing pc n with
  | zero =>
    obtain ⟨-, rfl⟩ := Prod.mk.inj (Option.some.inj read)
    exact (Nat.zero_add _).symm
  | succ width ih =>
    cases pc with
    | nil => cases read
    | cons b pc =>
      obtain ⟨⟨high, pc''⟩, hread, hpure⟩ := Option.bind_eq_some_iff.mp read
      obtain ⟨-, rfl⟩ := Prod.mk.inj (Option.some.inj hpure)
      have hrest := ih hread
      rw [length_cons]
      omega

/-- An instruction is not longer than its value and five bytes. -/
theorem getOp2_length_le (read : getOp2 pc = some op) : pc.length ≤ op.pc.length + op.vch.length + 5 := by
  cases pc with
  | nil => cases read
  | cons b pc =>
    have hsized : ∀ opcode width, width ≤ 4 → ((readSize width pc).bind fun x => readPush opcode x.1 x.2) = some op →
        pc.length + 1 ≤ op.pc.length + op.vch.length + 5 := by
      intro opcode width hwidth hbind
      obtain ⟨⟨nSize, pc'⟩, hsize, hpush⟩ := Option.bind_eq_some_iff.mp hbind
      have hlen := readSize_length hsize
      have hvch := readPush_length hpush
      dsimp only at hvch
      omega
    rw [length_cons]
    simp only [getOp2] at read
    split_ifs at read
    · have hvch := readPush_length read
      omega
    · exact hsized _ 1 (by decide) read
    · exact hsized _ 2 (by decide) read
    · exact hsized _ 4 (by decide) read
    · cases read
      show pc.length + 1 ≤ pc.length + 0 + 5
      omega

theorem Pushes.length_le (h : Pushes pc keys pc') (hsized : ∀ key ∈ keys, isKeySized key) :
    pc.length ≤ pc'.length + 70 * keys.length := by
  induction h with
  | nil pc => exact Nat.le_refl _
  | @cons pc pc' op values read push rest ih =>
    have hstep := getOp2_length_le read
    have hkey := hsized op.vch mem_cons_self
    have hrest := ih fun key hkey => hsized key (mem_cons_of_mem _ hkey)
    simp only [isKeySized, Bool.and_eq_true, decide_eq_true_eq] at hkey
    rw [length_cons]
    omega

/-- A multisignature output is never too long to be run. -/
theorem MultisigScript.length_le (h : MultisigScript script m keys) : script.length ≤ 10000 := by
  obtain ⟨first, last, check, hfirst, hfirstop, ⟨pc, hpushes, hlast⟩, hlastop, hcheck, hcheckop, hend⟩ := h.parts
  have h1 : OP_1 = 0x51 := rfl
  have hpush4 : OP_PUSHDATA4 = 0x4e := rfl
  have hmulti : OP_CHECKMULTISIG = 0xae := rfl
  have hfew := h.few
  have hkeys := hpushes.length_le h.sized
  have hlen₁ := getOp2_length_le hfirst
  have hlen₂ := getOp2_length_le hlast
  have hlen₃ := getOp2_length_le hcheck
  have hrequired := h.required
  rw [getOp2_vch hfirst (by omega), length_nil] at hlen₁
  rw [getOp2_vch hlast (by omega), length_nil] at hlen₂
  rw [getOp2_vch hcheck (by omega), length_nil, hend, length_nil] at hlen₃
  omega

theorem number_getvch {n : Nat} (hn : n ≤ 16) :
    number SCRIPT_VERIFY_P2SH (CScriptNum.getvch n) = .ok n := by
  have hall : ∀ n < 17, (number SCRIPT_VERIFY_P2SH (CScriptNum.getvch (n : Nat))).toOption =
      some ((n : Nat) : Int) := by decide
  have hread := hall n (by omega)
  cases h : number SCRIPT_VERIFY_P2SH (CScriptNum.getvch n) with
  | error e =>
    rw [h] at hread
    cases hread
  | ok bn =>
    rw [h] at hread
    rw [Option.some.inj hread]

theorem getint_small {n : Nat} (hn : n ≤ 16) : CScriptNum.getint n = n := by
  rw [CScriptNum.getint, if_neg (by omega), if_neg (by omega)]

/-- The arguments of `OP_CHECKMULTISIG`, as they stand on the stack. -/
structure Arguments (stack sigs keys st : List Valtype) (dummy : Valtype) : Prop where
  stack : stack = CScriptNum.getvch keys.length :: (keys ++ CScriptNum.getvch sigs.length :: (sigs ++ dummy :: st))
  few : keys.length ≤ 16
  fewer : sigs.length ≤ keys.length

namespace Arguments

variable {stack : List Valtype}

section

variable (h : Arguments stack sigs keys st dummy)

include h

theorem keysCount : stack.getD 0 [] = CScriptNum.getvch keys.length := by
  rw [h.stack]
  rfl

theorem length : stack.length = 3 + keys.length + sigs.length + st.length := by
  rw [h.stack]
  simp only [length_cons, length_append]
  omega

theorem keys_eq : (stack.drop 1).take keys.length = keys := by
  rw [h.stack, drop_one, tail_cons, take_left' rfl]

theorem drop_keys : stack.drop (1 + keys.length) = CScriptNum.getvch sigs.length :: (sigs ++ dummy :: st) := by
  rw [h.stack, ← drop_drop, drop_one, tail_cons, drop_left' rfl]

theorem sigsCount : stack.getD (1 + keys.length) [] = CScriptNum.getvch sigs.length := by
  have hget : stack[1 + keys.length]? = some (CScriptNum.getvch sigs.length) := by
    rw [← head?_drop, h.drop_keys]
    rfl
  rw [getD_eq_getElem?_getD, hget, Option.getD_some]

theorem drop_count : stack.drop (2 + keys.length) = sigs ++ dummy :: st := by
  have hdrop := congrArg (List.drop 1) h.drop_keys
  rw [drop_drop, drop_one, tail_cons, show 1 + keys.length + 1 = 2 + keys.length by omega] at hdrop
  exact hdrop

theorem sigs_eq : (stack.drop (2 + keys.length)).take sigs.length = sigs := by
  rw [h.drop_count, take_left' rfl]

theorem rest_eq : stack.drop (2 + keys.length + sigs.length) = dummy :: st := by
  rw [← drop_drop, h.drop_count, drop_left' rfl]

end

end Arguments

/-- `OP_CHECKMULTISIG` leaves the result of its loop on the stack. -/
theorem evalCheckMultiSig_eq (h : Arguments s.stack sigs keys st dummy) (hcount : s.nOpCount + keys.length ≤ 201)
    (huntouched : sigs.foldl (fun code vchSig => findAndDelete code (pushScript vchSig)) s.pbegincodehash =
      s.pbegincodehash) :
    evalCheckMultiSig SCRIPT_VERIFY_P2SH checker false s =
      multiSigLoop SCRIPT_VERIFY_P2SH checker s.pbegincodehash sigs keys >>= fun fSuccess =>
        .ok ({ s with nOpCount := s.nOpCount + keys.length }.withStack (ofBool fSuccess :: st)) := by
  have hlen := h.length
  have hfew := h.few
  have hfewer := h.fewer
  have hpass : ∀ {bad : Bool} {serror : ScriptError} {β : Type} (f : Unit → ScriptRun β), bad = false →
      (failIf bad serror >>= f) = f () := by
    intro bad serror β f hbad
    rw [hbad]
    rfl
  have hnumber : ∀ {n : Nat} {β : Type} (f : Int → ScriptRun β), n ≤ 16 →
      (number SCRIPT_VERIFY_P2SH (CScriptNum.getvch n) >>= f) = f n := by
    intro n β f hn
    rw [number_getvch hn]
    rfl
  unfold evalCheckMultiSig
  dsimp only
  rw [hpass _ (decide_eq_false (by omega)), h.keysCount, hnumber _ hfew, getint_small hfew,
    hpass _ (by rw [decide_eq_false (by omega), decide_eq_false (by omega)]; rfl), Int.toNat_natCast,
    hpass _ (decide_eq_false (by omega)), hpass _ (decide_eq_false (by omega)), h.sigsCount,
    hnumber _ (by omega), getint_small (by omega),
    hpass _ (by rw [decide_eq_false (by omega), decide_eq_false (by omega)]; rfl), Int.toNat_natCast,
    hpass _ (decide_eq_false (by omega)), h.keys_eq, h.sigs_eq, huntouched, h.rest_eq]
  rfl

/-- A multisignature output leaves what the loop of `OP_CHECKMULTISIG` finds, and takes the signatures and one more
element. -/
theorem MultisigScript.evalScript_eq (h : MultisigScript script m keys) (hsigs : sigs.length = m)
    (hroom : st.length ≤ 900) (hb : ∀ b ∈ sigs, b.length < 2 ^ 32) (habsent : ∀ b ∈ sigs, b ∉ keys) {fSuccess : Bool}
    (hloop : multiSigLoop SCRIPT_VERIFY_P2SH checker script sigs keys.reverse = .ok fSuccess) :
    evalScript H SCRIPT_VERIFY_P2SH checker (sigs ++ dummy :: st) script = .ok (ofBool fSuccess :: st) := by
  have hlength := h.length_le
  have hrequired := h.required
  have hfew := h.few
  obtain ⟨first, last, check, hfirst, hfirstop, ⟨pc, hpushes, hlast⟩, hlastop, hcheck, hcheckop, hend⟩ := h.parts
  have h1 : OP_1 = 0x51 := rfl
  have hpush4 : OP_PUSHDATA4 = 0x4e := rfl
  have h16 : OP_16 = 0x60 := rfl
  have hmulti : OP_CHECKMULTISIG = 0xae := rfl
  have hkeysize : ∀ key ∈ keys, key.length ≤ MAX_SCRIPT_ELEMENT_SIZE := by
    intro key hkey
    have hsized := h.sized key hkey
    simp only [isKeySized, Bool.and_eq_true, decide_eq_true_eq] at hsized
    exact Nat.le_trans hsized.2 (by decide)
  have hstacklen : (sigs ++ dummy :: st).length = m + st.length + 1 := by
    rw [length_append, length_cons]
    omega
  let s₀ : EvalState :=
    { stack := sigs ++ dummy :: st, altstack := [], vfExec := [], nOpCount := 0, pbegincodehash := script }
  let s₁ := s₀.withStack (CScriptNum.getvch m :: s₀.stack)
  let s₂ := s₁.withStack (keys.reverse ++ s₁.stack)
  let s₃ := s₂.withStack (CScriptNum.getvch keys.length :: s₂.stack)
  let s₄ := ({ s₃ with nOpCount := 1 + keys.length } : EvalState).withStack (ofBool fSuccess :: st)
  have hs₀ : Plain s₀ (20 + keys.length + 1) := by
    refine ⟨rfl, rfl, ?_⟩
    show (sigs ++ dummy :: st).length + _ ≤ 1000
    omega
  have hs₁ : Plain s₁ (20 + keys.length) := hs₀.push _
  have hs₂ : Plain s₂ (19 + 1) := by
    refine ⟨rfl, rfl, ?_⟩
    have hroom₁ := hs₁.room
    show (keys.reverse ++ s₁.stack).length + _ ≤ 1000
    rw [length_append, length_reverse]
    omega
  have hs₄ : Plain s₄ 0 := by
    refine ⟨rfl, rfl, ?_⟩
    show (ofBool fSuccess :: st).length + 0 ≤ 1000
    rw [length_cons]
    omega
  have hargs : Arguments s₃.stack sigs keys.reverse st dummy := by
    refine ⟨?_, ?_, ?_⟩
    · rw [length_reverse, hsigs]
      rfl
    · rw [length_reverse]
      exact hfew
    · rw [length_reverse]
      omega
  have hstep₁ : evalFrom H SCRIPT_VERIFY_P2SH checker script s₀ =
      evalFrom H SCRIPT_VERIFY_P2SH checker first.pc s₁ := by
    rw [evalFrom_step hfirst, evalInstruction_number hs₀ hfirstop (by omega) (getOp2_vch hfirst (by omega))
      (Nat.zero_le _)]
    rfl
  have hstep₂ : evalFrom H SCRIPT_VERIFY_P2SH checker first.pc s₁ = evalFrom H SCRIPT_VERIFY_P2SH checker pc s₂ :=
    evalFrom_pushes hpushes hs₁ rfl hkeysize
  have hstep₃ : evalFrom H SCRIPT_VERIFY_P2SH checker pc s₂ = evalFrom H SCRIPT_VERIFY_P2SH checker last.pc s₃ := by
    rw [evalFrom_step hlast, evalInstruction_number hs₂ hlastop (by omega) (getOp2_vch hlast (by omega))
      (Nat.zero_le _)]
    rfl
  have hcount : ({ s₃ with nOpCount := 1 } : EvalState).nOpCount + keys.reverse.length ≤ 201 := by
    show 1 + keys.reverse.length ≤ 201
    rw [length_reverse]
    omega
  have hcheckmulti : evalCheckMultiSig SCRIPT_VERIFY_P2SH checker false { s₃ with nOpCount := 1 } = .ok s₄ := by
    have hargs' : Arguments ({ s₃ with nOpCount := 1 } : EvalState).stack sigs keys.reverse st dummy := hargs
    rw [evalCheckMultiSig_eq hargs' hcount (h.deleteSigs_eq hb habsent)]
    show (multiSigLoop SCRIPT_VERIFY_P2SH checker script sigs keys.reverse >>= _) = _
    rw [hloop]
    show Except.ok _ = _
    rw [length_reverse]
  have hcounted : (if OP_16 < check.opcode then { s₃ with nOpCount := s₃.nOpCount + 1 } else s₃) =
      { s₃ with nOpCount := 1 } :=
    if_pos (by omega)
  have hstep₄ : evalInstruction H SCRIPT_VERIFY_P2SH checker check s₃ = .ok s₄ := by
    refine evalInstruction_of_execute ?_ ?_ (getOp2_vch hcheck (by omega)) ?_ hs₄
    · rw [hcounted]
      exact Nat.le_trans (Nat.le_add_right 1 _) hcount
    · rw [hcheckop]
      rfl
    · rw [hcounted]
      have htype : opcodeType check.opcode = some .OP_CHECKMULTISIG := by
        rw [hcheckop]
        rfl
      have hfexec : ({ s₃ with nOpCount := 1 } : EvalState).fExec = true := rfl
      unfold execute
      rw [hfexec, decide_eq_false (by omega), htype]
      exact hcheckmulti
  have hrun : evalLoop H SCRIPT_VERIFY_P2SH checker script.length script s₀ = .ok s₄ := by
    show evalFrom H SCRIPT_VERIFY_P2SH checker script s₀ = _
    rw [hstep₁, hstep₂, hstep₃, evalFrom_step hcheck, hstep₄]
    show evalFrom H SCRIPT_VERIFY_P2SH checker check.pc s₄ = _
    rw [hend]
    exact evalFrom_nil s₄
  unfold evalScript
  rw [decide_eq_false (Nat.not_lt.mpr hlength)]
  show (evalLoop H SCRIPT_VERIFY_P2SH checker script.length script s₀ >>= _) = _
  rw [hrun]
  rfl

end

end Reddcoin
