import Reddcoin.Script.SigOps
import Reddcoin.Script.Solver
import Reddcoin.Script.StackSafety

/-!
# Running pushes

What the interpreter does on instructions that push, and on a multisignature output: the scripts that are put
together from signatures are run with these.
-/

namespace Reddcoin

open List

variable {room : Nat} {b : Valtype} {values : List Valtype}

/-! ## The push of a value -/

/-- A length is read back. -/
theorem readSize_writeData {width n : Nat} (hn : n < 256 ^ width) (pc : CScript) :
    readSize width (writeData width n ++ pc) = some (n, pc) := by
  induction width generalizing n with
  | zero =>
    obtain rfl : n = 0 := Nat.lt_one_iff.mp hn
    rfl
  | succ width ih =>
    have hhigh : n / 256 < 256 ^ width := by
      rw [Nat.pow_succ] at hn
      omega
    have hlow : (UInt8.ofNat (n % 256)).toNat = n % 256 := UInt8.toNat_ofNat_of_lt' (Nat.mod_lt n (by decide))
    rw [writeData, cons_append, readSize, ih hhigh, hlow, Option.bind_eq_bind, Option.bind_some]
    show some (n % 256 + 256 * (n / 256), pc) = some (n, pc)
    rw [Nat.mod_add_div]

theorem readPush_append (opcode : Nat) (b : Valtype) (pc : CScript) :
    readPush opcode b.length (b ++ pc) = some { opcode := opcode, vch := b, pc := pc } := by
  rw [readPush, if_neg (by rw [length_append]; omega), take_left' rfl, drop_left' rfl]

/-- The bytes of an instruction that pushes `data`: the length takes no byte of its own, or one, two or four of them. -/
inductive PushOf (data : List UInt8) : List UInt8 → Prop where
  | direct (short : data.length < OP_PUSHDATA1) : PushOf data (UInt8.ofNat data.length :: data)
  | pushdata1 (short : data.length < 256 ^ 1) : PushOf data (UInt8.ofNat OP_PUSHDATA1 :: (writeData 1 data.length ++ data))
  | pushdata2 (short : data.length < 256 ^ 2) : PushOf data (UInt8.ofNat OP_PUSHDATA2 :: (writeData 2 data.length ++ data))
  | pushdata4 (short : data.length < 256 ^ 4) : PushOf data (UInt8.ofNat OP_PUSHDATA4 :: (writeData 4 data.length ++ data))

theorem PushOf.read {data pushed : List UInt8} (h : PushOf data pushed) (pc : CScript) :
    ∃ opcode ≤ OP_PUSHDATA4, getOp2 (pushed ++ pc) = some { opcode := opcode, vch := data, pc := pc } := by
  have hsized : ∀ width opcode, data.length < 256 ^ width →
      ((readSize width (writeData width data.length ++ data ++ pc)).bind fun x => readPush opcode x.1 x.2) =
        some { opcode := opcode, vch := data, pc := pc } := by
    intro width opcode hlen
    rw [append_assoc, readSize_writeData hlen, Option.bind_some]
    exact readPush_append opcode data pc
  cases h with
  | direct hshort =>
    refine ⟨data.length, Nat.le_trans (Nat.le_of_lt hshort) (by decide), ?_⟩
    have hbyte : (UInt8.ofNat data.length).toNat = data.length :=
      UInt8.toNat_ofNat_of_lt' (Nat.lt_trans hshort (by decide))
    show getOp2 (UInt8.ofNat data.length :: (data ++ pc)) = _
    simp only [getOp2, hbyte]
    rw [if_pos hshort]
    exact readPush_append data.length data pc
  | pushdata1 hshort => exact ⟨OP_PUSHDATA1, by decide, hsized 1 OP_PUSHDATA1 hshort⟩
  | pushdata2 hshort => exact ⟨OP_PUSHDATA2, by decide, hsized 2 OP_PUSHDATA2 hshort⟩
  | pushdata4 hshort => exact ⟨OP_PUSHDATA4, by decide, hsized 4 OP_PUSHDATA4 hshort⟩

theorem pushOf_pushScript (hb : b.length < 2 ^ 32) : PushOf b (pushScript b) := by
  unfold pushScript
  split_ifs with h1 h2 h3
  · have hbyte : b.length % 256 = b.length := Nat.mod_eq_of_lt (Nat.lt_trans h1 (by decide))
    show PushOf b (UInt8.ofNat (b.length % 256) :: b)
    rw [hbyte]
    exact .direct h1
  · exact .pushdata1 (Nat.lt_succ_of_le h2)
  · exact .pushdata2 (Nat.lt_succ_of_le h3)
  · exact .pushdata4 hb

/-- The instruction that pushes a value is read as one. -/
theorem getOp2_pushScript (hb : b.length < 2 ^ 32) (pc : CScript) :
    ∃ opcode ≤ OP_PUSHDATA4, getOp2 (pushScript b ++ pc) = some { opcode := opcode, vch := b, pc := pc } :=
  (pushOf_pushScript hb).read pc

/-- The script that pushes the values one after the other. -/
def pushScripts (values : List Valtype) : CScript :=
  values.flatMap pushScript

theorem pushScripts_pushes (hvalues : ∀ b ∈ values, b.length < 2 ^ 32) (pc : CScript) :
    Pushes (pushScripts values ++ pc) values pc := by
  induction values with
  | nil => exact .nil pc
  | cons b values ih =>
    obtain ⟨opcode, hopcode, hread⟩ := getOp2_pushScript (hvalues b mem_cons_self) (pushScripts values ++ pc)
    have hrest := ih fun c hc => hvalues c (mem_cons_of_mem _ hc)
    have hsplit : pushScripts (b :: values) ++ pc = pushScript b ++ (pushScripts values ++ pc) := by
      rw [pushScripts, flatMap_cons, append_assoc]
      rfl
    rw [hsplit]
    exact .cons hread hopcode hrest

theorem length_pushScript_le (hb : b.length ≤ MAX_SCRIPT_ELEMENT_SIZE) : (pushScript b).length ≤ 523 := by
  have hmax : MAX_SCRIPT_ELEMENT_SIZE = 520 := rfl
  unfold pushScript
  split_ifs
  · rw [length_append, length_writeData]
    omega
  · rw [length_append, length_append, length_writeData, length_writeData]
    omega
  · rw [length_append, length_append, length_writeData, length_writeData]
    omega
  · omega

theorem length_pushScripts_le (hvalues : ∀ b ∈ values, b.length ≤ MAX_SCRIPT_ELEMENT_SIZE) :
    (pushScripts values).length ≤ 523 * values.length := by
  induction values with
  | nil => exact Nat.le_refl 0
  | cons b values ih =>
    have hhead := length_pushScript_le (hvalues b mem_cons_self)
    have hrest := ih fun c hc => hvalues c (mem_cons_of_mem _ hc)
    have hsplit : (pushScripts (b :: values)).length = (pushScript b).length + (pushScripts values).length := by
      rw [pushScripts, flatMap_cons, length_append]
      rfl
    rw [hsplit, length_cons]
    omega

/-- Instructions that push are push-only. -/
theorem Pushes.isPushOnly {pc : CScript} (h : Pushes pc values []) {turns : Nat}
    (hturns : pc.length ≤ turns) : isPushOnlyLoop turns pc = true := by
  generalize hend : ([] : CScript) = pc' at h
  induction h generalizing turns with
  | nil pc =>
    subst hend
    cases turns with
    | zero => rfl
    | succ turns => rfl
  | @cons pc pc' op values read push rest ih =>
    have hshort := StackMachine.getOp2_length read
    cases turns with
    | zero => omega
    | succ turns =>
      unfold isPushOnlyLoop
      split_ifs with hempty
      · rfl
      · have hsmall : ¬ OP_16 < op.opcode := by
          have h1 : OP_16 = 0x60 := rfl
          have h2 : OP_PUSHDATA4 = 0x4e := rfl
          omega
        rw [read]
        dsimp only
        rw [if_neg hsmall]
        exact ih (by omega) hend

/-! ## Pay to script hash -/

/-- `OP_HASH160`, the twenty bytes of a hash, `OP_EQUAL`. -/
theorem isPayToScriptHash_iff {script : CScript} : isPayToScriptHash script ↔
    ∃ hash : List UInt8, hash.length = 20 ∧ script = [0xa9, 0x14] ++ hash ++ [0x87] := by
  have hbyte : ∀ {b c : UInt8}, some b.toNat = some c.toNat → b = c :=
    fun h => UInt8.toNat_inj.mp (Option.some.inj h)
  simp only [isPayToScriptHash, Bool.and_eq_true, decide_eq_true_eq]
  constructor
  · rintro ⟨⟨⟨hlength, hfirst⟩, hsecond⟩, hlast⟩
    obtain ⟨b₀, b₁, rest, rfl⟩ : ∃ b₀ b₁ rest, script = b₀ :: b₁ :: rest := by
      rcases script with - | ⟨b₀, - | ⟨b₁, rest⟩⟩
      · cases hlength
      · cases hlength
      · exact ⟨b₀, b₁, rest, rfl⟩
    obtain rfl : b₀ = 0xa9 := hbyte hfirst
    obtain rfl : b₁ = 0x14 := hbyte hsecond
    have hlen : rest.length = 21 := Nat.succ.inj (Nat.succ.inj hlength)
    have hone : (rest.drop 20).length = 1 := by
      rw [length_drop]
      omega
    obtain ⟨b, hb⟩ := length_eq_one_iff.mp hone
    have hget : rest[20]? = some b := by
      rw [← head?_drop, hb]
      rfl
    obtain rfl : b = 0x87 := by
      refine hbyte ?_
      rw [getElem?_map, getElem?_cons_succ, getElem?_cons_succ, hget] at hlast
      exact hlast
    refine ⟨rest.take 20, length_take_of_le (by omega), ?_⟩
    show 0xa9 :: 0x14 :: rest = 0xa9 :: 0x14 :: (rest.take 20 ++ [0x87])
    rw [← hb, take_append_drop]
  · rintro ⟨hash, hlength, rfl⟩
    refine ⟨⟨⟨?_, rfl⟩, rfl⟩, ?_⟩
    · rw [length_append, length_append, hlength]
      rfl
    · have hlast : ([0xa9, 0x14] ++ hash ++ [0x87])[22]? = some 0x87 := by
        rw [getElem?_append_right (by rw [length_append, hlength]; decide), length_append, hlength]
        rfl
      rw [getElem?_map, hlast]
      rfl

/-! ## Instruction after instruction -/

section

variable {H : ScriptHashes} {flags : Nat} {checker : BaseSignatureChecker} {s : EvalState} {op : ScriptOp}
  {pc pc' : CScript} {values : List Valtype}

/-- Enough turns are enough. -/
theorem evalLoop_turns {turns turns' : Nat} (hturns : pc.length ≤ turns) (hturns' : pc.length ≤ turns')
    (s : EvalState) :
    evalLoop H flags checker turns pc s = evalLoop H flags checker turns' pc s := by
  induction turns generalizing turns' pc s with
  | zero =>
    obtain rfl : pc = [] := eq_nil_of_length_eq_zero (Nat.le_zero.mp hturns)
    cases turns' with
    | zero => rfl
    | succ turns' => rfl
  | succ turns ih =>
    cases turns' with
    | zero =>
      obtain rfl : pc = [] := eq_nil_of_length_eq_zero (Nat.le_zero.mp hturns')
      rfl
    | succ turns' =>
      unfold evalLoop
      split_ifs
      · rfl
      · cases hread : getOp2 pc with
        | none => rfl
        | some op =>
          have hshort := StackMachine.getOp2_length hread
          dsimp only
          congr 1
          funext s'
          exact ih (by omega) (by omega) s'

/-- The loop of `EvalScript` from an instruction on. -/
def evalFrom (H : ScriptHashes) (flags : Nat) (checker : BaseSignatureChecker) (pc : CScript) (s : EvalState) :
    ScriptRun EvalState :=
  evalLoop H flags checker pc.length pc s

theorem evalFrom_nil (s : EvalState) : evalFrom H flags checker [] s = .ok s :=
  rfl

theorem evalFrom_step (read : getOp2 pc = some op) (s : EvalState) :
    evalFrom H flags checker pc s =
      evalInstruction H flags checker op s >>= fun s => evalFrom H flags checker op.pc s := by
  have hshort := StackMachine.getOp2_length read
  have hnonempty : pc.isEmpty = false := by
    cases pc with
    | nil => cases read
    | cons b pc => rfl
  unfold evalFrom
  rw [evalLoop_turns (Nat.le_refl _) (Nat.le_succ _) s, evalLoop, hnonempty, if_neg Bool.false_ne_true, read]
  dsimp only
  congr 1
  funext s'
  exact evalLoop_turns (by omega) (Nat.le_refl _) s'

/-- Outside of conditionals, with room on the stack. -/
structure Plain (s : EvalState) (room : Nat) : Prop where
  vfExec : s.vfExec = []
  altstack : s.altstack = []
  room : s.stack.length + room ≤ 1000

theorem Plain.fExec (h : Plain s room) : s.fExec = true := by
  unfold EvalState.fExec
  rw [h.vfExec]
  rfl

theorem Plain.push (h : Plain s (room + 1)) (vch : Valtype) : Plain (s.withStack (vch :: s.stack)) room := by
  refine ⟨h.vfExec, h.altstack, ?_⟩
  have hroom := h.room
  show (vch :: s.stack).length + room ≤ 1000
  rw [length_cons]
  omega

/-- An instruction that pushes. -/
theorem evalInstruction_pushes (hs : Plain s (room + 1)) (hflags : fRequireMinimal flags = false)
    (push : op.opcode ≤ OP_PUSHDATA4) (hsize : op.vch.length ≤ MAX_SCRIPT_ELEMENT_SIZE) :
    evalInstruction H flags checker op s = .ok (s.withStack (op.vch :: s.stack)) := by
  have hpush4 : OP_PUSHDATA4 = 0x4e := rfl
  have h16 : OP_16 = 0x60 := rfl
  have hsmall : ¬ OP_16 < op.opcode := by omega
  have hdisabled : isDisabled op.opcode = false := by
    have hall : ∀ opcode < 0x4f, isDisabled opcode = false := by decide
    exact hall op.opcode (by omega)
  have hroom := (hs.push op.vch).room
  have haltstack : (s.withStack (op.vch :: s.stack)).altstack = [] := hs.altstack
  have hexecute : execute H flags checker op s = .ok (s.withStack (op.vch :: s.stack)) := by
    unfold execute
    rw [hs.fExec, decide_eq_true push, Bool.and_self, if_pos rfl, hflags]
    rfl
  unfold evalInstruction
  rw [decide_eq_false (Nat.not_lt.mpr hsize), if_neg hsmall, decide_eq_false hsmall, hdisabled]
  show (execute H flags checker op s >>= _) = _
  rw [hexecute]
  show (failIf (decide (1000 < (s.withStack (op.vch :: s.stack)).stack.length +
    (s.withStack (op.vch :: s.stack)).altstack.length)) _ >>= _) = _
  rw [haltstack, decide_eq_false (by simp only [length_nil]; omega)]
  rfl

/-- Instructions that push leave their values on the stack. -/
theorem evalFrom_pushes (h : Pushes pc values pc') (hs : Plain s (room + values.length))
    (hflags : fRequireMinimal flags = false) (hsize : ∀ b ∈ values, b.length ≤ MAX_SCRIPT_ELEMENT_SIZE) :
    evalFrom H flags checker pc s = evalFrom H flags checker pc' (s.withStack (values.reverse ++ s.stack)) := by
  induction h generalizing s with
  | nil pc => rfl
  | @cons pc pc' op values read push rest ih =>
    have hs' : Plain s (room + values.length + 1) := hs
    rw [evalFrom_step read, evalInstruction_pushes hs' hflags push (hsize op.vch mem_cons_self)]
    show evalFrom H flags checker op.pc (s.withStack (op.vch :: s.stack)) = _
    rw [ih (hs'.push op.vch) fun b hb => hsize b (mem_cons_of_mem _ hb)]
    have hstack : values.reverse ++ op.vch :: s.stack = (op.vch :: values).reverse ++ s.stack := by
      rw [reverse_cons, append_assoc]
      rfl
    show evalFrom H flags checker pc' (s.withStack (values.reverse ++ op.vch :: s.stack)) = _
    rw [hstack]

/-- An instruction that is neither disabled nor too much, from what it does. -/
theorem evalInstruction_of_execute {s' : EvalState}
    (hcount : (if OP_16 < op.opcode then { s with nOpCount := s.nOpCount + 1 } else s).nOpCount ≤ 201)
    (hdisabled : isDisabled op.opcode = false) (hvch : op.vch = [])
    (hrun : execute H flags checker op (if OP_16 < op.opcode then { s with nOpCount := s.nOpCount + 1 } else s) = .ok s')
    (hs' : Plain s' room) : evalInstruction H flags checker op s = .ok s' := by
  have hroom := hs'.room
  have hfew : (decide (OP_16 < op.opcode) &&
      decide (201 < (if OP_16 < op.opcode then { s with nOpCount := s.nOpCount + 1 } else s).nOpCount)) = false := by
    rw [decide_eq_false (Nat.not_lt.mpr hcount), Bool.and_false]
  unfold evalInstruction
  dsimp only
  rw [hvch, hfew, hdisabled]
  show (execute H flags checker op _ >>= _) = _
  rw [hrun]
  show (failIf (decide (1000 < s'.stack.length + s'.altstack.length)) _ >>= _) = _
  rw [hs'.altstack, decide_eq_false (by simp only [length_nil]; omega)]
  rfl

theorem evalInstruction_number {room n : Nat} (hs : Plain s (room + 1)) (hop : op.opcode = OP_1 - 1 + n)
    (hn : 1 ≤ n ∧ n ≤ 16) (hvch : op.vch = []) (hcount : s.nOpCount ≤ 201) :
    evalInstruction H flags checker op s = .ok (s.withStack (CScriptNum.getvch n :: s.stack)) := by
  have h1 : OP_1 = 0x51 := rfl
  have h16 : OP_16 = 0x60 := rfl
  have hpush4 : OP_PUSHDATA4 = 0x4e := rfl
  have hsmall : ¬ OP_16 < op.opcode := by omega
  have hlarge : ¬ op.opcode ≤ OP_PUSHDATA4 := by omega
  have hdisabled : isDisabled op.opcode = false := by
    have hall : ∀ opcode < 0x61, isDisabled opcode = false := by decide
    exact hall op.opcode (by omega)
  have htype : opcodeType op.opcode = some (.number n) := by
    unfold opcodeType
    rw [if_pos (.inr ⟨by omega, by omega⟩)]
    congr 2
    omega
  refine evalInstruction_of_execute ?_ hdisabled hvch ?_ (hs.push (CScriptNum.getvch n))
  · rw [if_neg hsmall]
    exact hcount
  · rw [if_neg hsmall]
    unfold execute
    rw [hs.fExec, decide_eq_false hlarge, htype]
    rfl

/-! ## Signatures in the script -/

/-- A script stays as it is when no instruction of it pushes the value. -/
theorem findAndDeleteLoop_absent (hb : b.length < 2 ^ 32) {turns : Nat}
    (habsent : ∀ op, getOp2 pc = some op → op.opcode ≤ OP_PUSHDATA4 → op.vch ≠ b)
    (hrest : ∀ op, getOp2 pc = some op → findAndDeleteLoop (pushScript b) turns op.pc = op.pc) :
    findAndDeleteLoop (pushScript b) (turns + 1) pc = pc := by
  have hprefix : (pushScript b).isPrefixOf pc = false := by
    by_contra hpre
    rw [Bool.not_eq_false, isPrefixOf_iff_prefix] at hpre
    obtain ⟨rest, rfl⟩ := hpre
    obtain ⟨opcode, hopcode, hread⟩ := getOp2_pushScript hb rest
    exact habsent _ hread hopcode rfl
  rw [findAndDeleteLoop, hprefix, if_neg Bool.false_ne_true]
  cases hread : getOp2 pc with
  | none => rfl
  | some op =>
    obtain ⟨c, data, hpc, -, -⟩ := getOp2_suffix hread
    dsimp only
    rw [hrest op hread]
    have hlen : pc.length - op.pc.length = (c :: data).length := by
      rw [hpc, length_append]
      omega
    rw [hlen]
    conv_lhs => rw [hpc]
    rw [take_left' rfl]
    exact hpc.symm

end

end Reddcoin
