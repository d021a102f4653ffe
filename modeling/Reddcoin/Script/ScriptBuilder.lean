import Reddcoin.Script.Pushes
import Reddcoin.Script.ScriptNumber

/-!
# Building scripts and reading them back

`CScript::operator<<` appends byte strings, opcodes and integers; `GetOp` reads instruction after instruction.  `GetOp2`
compares the size of a push with the number of bytes that are left, cut to 32 bits.
-/

namespace Reddcoin

open List

variable {item : ScriptItem} {items : List ScriptItem}

/-! ## Appending -/

/-- What is appended to a script. -/
inductive ScriptItem where
  | bytes (b : Valtype)
  | opcode (op : Int)
  | number (n : Int)

/-- `operator<<(const std::vector<unsigned char>& b)`. -/
def appendBytes (script : CScript) (b : Valtype) : CScript :=
  script ++ pushScript b

/-- `operator<<(opcodetype opcode)`. -/
def appendOpcode (script : CScript) (opcode : Int) : Except String CScript :=
  if opcode < 0 ∨ 0xff < opcode then .error "CScript::operator<<() : invalid opcode"
  else .ok (script ++ [UInt8.ofNat opcode.toNat])

/-- `push_int64`. -/
def pushInt64 (script : CScript) (n : Int) : CScript :=
  if n = -1 ∨ (1 ≤ n ∧ n ≤ 16) then script ++ [UInt8.ofNat (n + (OP_1 - 1 : Nat)).toNat]
  else if n = 0 then script ++ [UInt8.ofNat OP_0]
  else appendBytes script (CScriptNum.getvch n)

def appendItem (script : CScript) : ScriptItem → Except String CScript
  | .bytes b => .ok (appendBytes script b)
  | .opcode op => appendOpcode script op
  | .number n => .ok (pushInt64 script n)

/-- The items appended one after the other to an empty script. -/
def buildScript (items : List ScriptItem) : Except String CScript :=
  items.foldlM appendItem []

/-- Byte strings shorter than `2^32`, opcodes above `OP_PUSHDATA4`, and integers of 64 bits but the least. -/
def ScriptItem.Valid : ScriptItem → Prop
  | .bytes b => b.length < 2 ^ 32
  | .opcode op => OP_PUSHDATA4 < op ∧ op ≤ OP_INVALIDOPCODE
  | .number n => -2 ^ 63 < n ∧ n < 2 ^ 63

/-! ## Reading -/

/-- The size of an immediate operand, and `pc` after it. -/
def operandSize (opcode : Nat) (pc : CScript) : Option (Nat × CScript) :=
  if opcode < OP_PUSHDATA1 then some (opcode, pc)
  else if opcode = OP_PUSHDATA1 then readSize 1 pc
  else if opcode = OP_PUSHDATA2 then readSize 2 pc
  else readSize 4 pc

/-- The operand itself; `(unsigned int)(end() - pc) < nSize` as it is computed.  Where it fails, `pc` as it is left. -/
def readOperand (opcode nSize : Nat) (pc : CScript) : Except CScript ScriptOp :=
  if pc.length % 2 ^ 32 < nSize then .error pc
  else .ok { opcode := opcode, vch := pc.take nSize, pc := pc.drop nSize }

/-- `GetOp2` with the lengths as it computes them. -/
def readingGetOp2 : CScript → Except CScript ScriptOp
  | [] => .error []
  | b :: pc =>
    if b.toNat ≤ OP_PUSHDATA4 then
      match operandSize b.toNat pc with
      | none => .error pc
      | some (nSize, pc) => readOperand b.toNat nSize pc
    else .ok { opcode := b.toNat, vch := [], pc := pc }

theorem getOp2_eq (b : UInt8) (pc : CScript) : getOp2 (b :: pc) =
    if b.toNat ≤ OP_PUSHDATA4 then (operandSize b.toNat pc).bind fun x => readPush b.toNat x.1 x.2
    else some { opcode := b.toNat, vch := [], pc := pc } := by
  have h1 : OP_PUSHDATA1 = 0x4c := rfl
  have h2 : OP_PUSHDATA2 = 0x4d := rfl
  have h4 : OP_PUSHDATA4 = 0x4e := rfl
  simp only [getOp2, operandSize]
  by_cases hdirect : b.toNat < OP_PUSHDATA1
  · rw [if_pos hdirect, if_pos (by omega), if_pos hdirect]
    rfl
  by_cases hone : b.toNat = OP_PUSHDATA1
  · rw [if_neg hdirect, if_pos hone, if_pos (by omega), if_neg hdirect, if_pos hone]
    rfl
  by_cases htwo : b.toNat = OP_PUSHDATA2
  · rw [if_neg hdirect, if_neg hone, if_pos htwo, if_pos (by omega), if_neg hdirect, if_neg hone, if_pos htwo]
    rfl
  by_cases hfour : b.toNat = OP_PUSHDATA4
  · rw [if_neg hdirect, if_neg hone, if_neg htwo, if_pos hfour, if_pos (by omega), if_neg hdirect, if_neg hone,
      if_neg htwo]
    rfl
  · rw [if_neg hdirect, if_neg hone, if_neg htwo, if_neg hfour, if_neg (by omega)]

theorem operandSize_length {opcode nSize : Nat} {pc pc' : CScript} (h : operandSize opcode pc = some (nSize, pc')) :
    pc'.length ≤ pc.length := by
  have hsize : ∀ {width : Nat}, readSize width pc = some (nSize, pc') → pc'.length ≤ pc.length := by
    intro width hread
    obtain ⟨data, rfl⟩ := readSize_suffix hread
    rw [length_append]
    omega
  unfold operandSize at h
  split_ifs at h
  · obtain ⟨-, rfl⟩ := Prod.mk.inj (Option.some.inj h)
    exact Nat.le_refl _
  · exact hsize h
  · exact hsize h
  · exact hsize h

theorem readingGetOp2_shorter {script : CScript} {op : ScriptOp} (h : readingGetOp2 script = .ok op) :
    op.pc.length < script.length := by
  cases script with
  | nil => cases h
  | cons b pc =>
    rw [readingGetOp2] at h
    rw [length_cons]
    split_ifs at h with hpush
    · cases hsize : operandSize b.toNat pc with
      | none =>
        rw [hsize] at h
        cases h
      | some x =>
        have hle := operandSize_length hsize
        rw [hsize] at h
        have hread : readOperand b.toNat x.1 x.2 = .ok op := h
        rw [readOperand] at hread
        split_ifs at hread
        cases hread
        rw [length_drop]
        omega
    · cases h
      exact Nat.lt_succ_self _

/-- `while (script.GetOp(pc, opcode, vch))`: the instructions in order, and where `pc` is left. -/
def iterateGetOp (pc : CScript) : List (Nat × Valtype) × CScript :=
  match _h : readingGetOp2 pc with
  | .error pc => ([], pc)
  | .ok op =>
    let rest := iterateGetOp op.pc
    ((op.opcode, op.vch) :: rest.1, rest.2)
termination_by pc.length
decreasing_by exact readingGetOp2_shorter _h

theorem iterateGetOp_ok {pc : CScript} {op : ScriptOp} (h : readingGetOp2 pc = .ok op) :
    iterateGetOp pc = ((op.opcode, op.vch) :: (iterateGetOp op.pc).1, (iterateGetOp op.pc).2) := by
  rw [iterateGetOp]
  split
  · rename_i herror
    rw [h] at herror
    cases herror
  · rename_i op' hop
    rw [h] at hop
    cases hop
    rfl

theorem iterateGetOp_error {pc pc' : CScript} (h : readingGetOp2 pc = .error pc') : iterateGetOp pc = ([], pc') := by
  rw [iterateGetOp]
  split
  · rename_i herror
    rw [h] at herror
    rw [Except.error.inj herror]
  · rename_i op' hop
    rw [h] at hop
    cases hop

/-! ## What an item is read as -/

/-- The opcode of a push of `nSize` bytes. -/
def pushOpcode (nSize : Nat) : Nat :=
  if nSize < OP_PUSHDATA1 then nSize
  else if nSize ≤ 0xff then OP_PUSHDATA1
  else if nSize ≤ 0xffff then OP_PUSHDATA2
  else OP_PUSHDATA4

/-- The opcode and the data of an item: `-1` and `0` to `16` have opcodes of their own. -/
def ScriptItem.instruction : ScriptItem → Nat × Valtype
  | .bytes b => (pushOpcode b.length, b)
  | .opcode op => (op.toNat, [])
  | .number n =>
    if n = -1 ∨ (1 ≤ n ∧ n ≤ 16) then ((n + (OP_1 - 1 : Nat)).toNat, [])
    else if n = 0 then (OP_0, [])
    else (pushOpcode (CScriptNum.getvch n).length, CScriptNum.getvch n)

/-- The bytes of an item. -/
def ScriptItem.script : ScriptItem → CScript
  | .bytes b => pushScript b
  | .opcode op => [UInt8.ofNat op.toNat]
  | .number n => pushInt64 [] n

/-- What `EvalScript` puts on the stack at an instruction that pushes. -/
def pushedValue (opcode : Nat) (vch : Valtype) : Option Valtype :=
  if opcode ≤ OP_PUSHDATA4 then some vch
  else
    match opcodeType opcode with
    | some (.number bn) => some (CScriptNum.getvch bn)
    | _ => none

/-- At every push the bytes up to the end of the script, cut to 32 bits, are still at least as many as are pushed. -/
def Fits : List ScriptItem → Prop
  | [] => True
  | item :: items =>
    item.instruction.2.length ≤ (item.instruction.2.length + (items.flatMap ScriptItem.script).length) % 2 ^ 32 ∧
      Fits items

/-- An item is a push of data, or one opcode. -/
inductive ScriptItem.Form (item : ScriptItem) : Prop where
  | push (data : Valtype) (short : data.length < 2 ^ 32) (script : item.script = pushScript data)
      (instruction : item.instruction = (pushOpcode data.length, data))
  | plain (b : UInt8) (large : OP_PUSHDATA4 < b.toNat) (script : item.script = [b])
      (instruction : item.instruction = (b.toNat, []))

theorem length_getvch_le {n : Int} (hn : n.natAbs < 256 ^ 8) : (CScriptNum.getvch n).length ≤ 9 := by
  by_cases hne : n = 0
  · subst hne
    exact Nat.zero_le _
  obtain ⟨front, back, hback, hlen, hvalue⟩ := CScriptNum.exists_bytes hne 8 hn
  rw [CScriptNum.getvch_of_bytes hback hlen hvalue]
  rw [length_append, length_singleton] at hlen
  split_ifs
  · rw [length_append, length_append, length_singleton, length_singleton]
    omega
  · rw [length_append, length_singleton]
    omega

theorem opcode_form (op : Int) (hlow : OP_PUSHDATA4 < op) (hhigh : op ≤ OP_INVALIDOPCODE)
    (hscript : item.script = [UInt8.ofNat op.toNat]) (hinstruction : item.instruction = (op.toNat, [])) :
    item.Form := by
  have h4 : OP_PUSHDATA4 = 0x4e := rfl
  have hlast : OP_INVALIDOPCODE = 0xff := rfl
  have hbyte : (UInt8.ofNat op.toNat).toNat = op.toNat := UInt8.toNat_ofNat_of_lt' (show _ < 256 by omega)
  refine .plain _ ?_ hscript (by rw [hbyte]; exact hinstruction)
  rw [hbyte]
  omega

theorem ScriptItem.Valid.form (h : item.Valid) : item.Form := by
  cases item with
  | bytes b => exact .push b h rfl rfl
  | opcode op => exact opcode_form op h.1 h.2 rfl rfl
  | number n =>
    obtain ⟨hlow, hhigh⟩ : -2 ^ 63 < n ∧ n < 2 ^ 63 := h
    have h1 : OP_1 = 0x51 := rfl
    have h4 : OP_PUSHDATA4 = 0x4e := rfl
    have hlast : OP_INVALIDOPCODE = 0xff := rfl
    by_cases hsmall : n = -1 ∨ (1 ≤ n ∧ n ≤ 16)
    · have hscript : pushInt64 [] n = [UInt8.ofNat (n + (OP_1 - 1 : Nat)).toNat] := by
        rw [pushInt64, if_pos hsmall]
        rfl
      exact opcode_form (n + (OP_1 - 1 : Nat)) (by omega) (by omega) hscript (if_pos hsmall)
    · by_cases hzero : n = 0
      · subst hzero
        exact .push [] (by decide) rfl rfl
      · have hlen := length_getvch_le (n := n) (by omega)
        refine .push (CScriptNum.getvch n) (by omega) ?_ ?_
        · show pushInt64 [] n = _
          rw [pushInt64, if_neg hsmall, if_neg hzero]
          rfl
        · rw [instruction, if_neg hsmall, if_neg hzero]

theorem appendItem_eq (h : item.Valid) (script : CScript) : appendItem script item = .ok (script ++ item.script) := by
  cases item with
  | bytes b => rfl
  | opcode op =>
    obtain ⟨hlow, hhigh⟩ : OP_PUSHDATA4 < op ∧ op ≤ OP_INVALIDOPCODE := h
    have hlast : OP_INVALIDOPCODE = 0xff := rfl
    show appendOpcode script op = _
    rw [appendOpcode, if_neg (by omega)]
    rfl
  | number n =>
    show Except.ok (pushInt64 script n) = Except.ok (script ++ pushInt64 [] n)
    unfold pushInt64
    split_ifs <;> rfl

theorem buildScript_eq (h : ∀ item ∈ items, item.Valid) :
    buildScript items = .ok (items.flatMap ScriptItem.script) := by
  have hfold : ∀ script : CScript,
      items.foldlM appendItem script = .ok (script ++ items.flatMap ScriptItem.script) := by
    induction items with
    | nil =>
      intro script
      rw [flatMap_nil, append_nil]
      rfl
    | cons item items ih =>
      intro script
      obtain ⟨hitem, hitems⟩ := forall_mem_cons.mp h
      rw [foldlM_cons, appendItem_eq hitem]
      show items.foldlM appendItem (script ++ item.script) = _
      rw [ih hitems, flatMap_cons, append_assoc]
  exact hfold []

/-! ## Reading an item -/

/-- The operand of a push, or nothing when fewer bytes seem to be left. -/
theorem readOperand_append (opcode : Nat) (data : Valtype) (rest : CScript) :
    readOperand opcode data.length (data ++ rest) =
      if data.length ≤ (data.length + rest.length) % 2 ^ 32 then .ok { opcode := opcode, vch := data, pc := rest }
      else .error (data ++ rest) := by
  rw [readOperand, length_append, take_left' rfl, drop_left' rfl]
  split_ifs with h1 h2
  · omega
  · rfl
  · rfl
  · omega

theorem readingGetOp2_push {data : Valtype} (h : data.length < 2 ^ 32) (rest : CScript) :
    readingGetOp2 (pushScript data ++ rest) = readOperand (pushOpcode data.length) data.length (data ++ rest) := by
  have h1 : OP_PUSHDATA1 = 0x4c := rfl
  have h4 : OP_PUSHDATA4 = 0x4e := rfl
  have hread : ∀ {b : UInt8} {pc : CScript}, b.toNat ≤ OP_PUSHDATA4 →
      operandSize b.toNat pc = some (data.length, data ++ rest) →
      readingGetOp2 (b :: pc) = readOperand b.toNat data.length (data ++ rest) := by
    intro b pc hle hsize
    rw [readingGetOp2, if_pos hle, hsize]
  have hsized : ∀ (width : Nat) {opcode : Nat} (b : UInt8), b.toNat = opcode → data.length < 256 ^ width →
      (∀ pc, operandSize opcode pc = readSize width pc) → opcode ≤ OP_PUSHDATA4 →
      readingGetOp2 (b :: (writeData width data.length ++ data ++ rest)) =
        readOperand opcode data.length (data ++ rest) := by
    intro width opcode b hb hlen hsize hle
    subst hb
    apply hread hle
    rw [hsize, append_assoc, readSize_writeData hlen]
  unfold pushScript pushOpcode
  split_ifs with hdirect hone htwo
  · have hbyte : (UInt8.ofNat data.length).toNat = data.length :=
      UInt8.toNat_ofNat_of_lt' (show _ < 256 by omega)
    have hmod : data.length % 256 = data.length := Nat.mod_eq_of_lt (by omega)
    show readingGetOp2 (UInt8.ofNat (data.length % 256) :: (data ++ rest)) = _
    rw [hmod, hread (by omega) (by rw [hbyte, operandSize, if_pos hdirect]), hbyte]
  · exact hsized 1 (UInt8.ofNat OP_PUSHDATA1) rfl (by omega) (fun _ => rfl) (by decide)
  · exact hsized 2 (UInt8.ofNat OP_PUSHDATA2) rfl (by omega) (fun _ => rfl) (by decide)
  · exact hsized 4 (UInt8.ofNat OP_PUSHDATA4) rfl (by omega) (fun _ => rfl) (by decide)

theorem ScriptItem.Form.read (h : item.Form) (rest : CScript) : readingGetOp2 (item.script ++ rest) =
      if item.instruction.2.length ≤ (item.instruction.2.length + rest.length) % 2 ^ 32 then
        .ok { opcode := item.instruction.1, vch := item.instruction.2, pc := rest }
      else .error (item.instruction.2 ++ rest) := by
  cases h with
  | push data hshort hscript hinstruction =>
    rw [hscript, hinstruction, readingGetOp2_push hshort, readOperand_append]
  | plain b hlarge hscript hinstruction =>
    rw [hscript, hinstruction, singleton_append, readingGetOp2, if_neg (Nat.not_le.mpr hlarge), length_nil,
      if_pos (Nat.zero_le _)]

/-- The items are read back to the end exactly when they fit. -/
theorem iterateGetOp_iff (h : ∀ item ∈ items, item.Valid) :
    iterateGetOp (items.flatMap ScriptItem.script) = (items.map ScriptItem.instruction, []) ↔ Fits items := by
  induction items with
  | nil => exact iff_of_true (iterateGetOp_error rfl) trivial
  | cons item items ih =>
    obtain ⟨hitem, hitems⟩ := forall_mem_cons.mp h
    have hread := hitem.form.read (items.flatMap ScriptItem.script)
    rw [flatMap_cons, map_cons, Fits]
    split_ifs at hread with hfits
    · rw [iterateGetOp_ok hread, ← ih hitems, and_iff_right hfits, Prod.ext_iff, Prod.ext_iff, List.cons.injEq]
      simp
    · rw [iterateGetOp_error hread]
      refine iff_of_false ?_ fun hboth => hfits hboth.1
      intro heq
      cases (Prod.mk.inj heq).1

/-- A script shorter than `2^32` bytes fits. -/
theorem fits_of_short (hvalid : ∀ item ∈ items, item.Valid)
    (h : (items.flatMap ScriptItem.script).length < 2 ^ 32) : Fits items := by
  induction items with
  | nil => trivial
  | cons item items ih =>
    obtain ⟨hitem, hitems⟩ := forall_mem_cons.mp hvalid
    rw [flatMap_cons, length_append] at h
    have hdata : item.instruction.2.length ≤ item.script.length := by
      cases hitem.form with
      | push data hshort hscript hinstruction =>
        rw [hscript, hinstruction]
        unfold pushScript
        split_ifs <;> simp only [length_append, length_writeData] <;> omega
      | plain b hlarge hscript hinstruction =>
        rw [hinstruction]
        exact Nat.zero_le _
    refine ⟨?_, ih hitems (by omega)⟩
    rw [Nat.mod_eq_of_lt (by omega)]
    omega

/-! ## Minimal pushes -/

/-- A single byte that has an opcode of its own. -/
def IsSmallPush (b : Valtype) : Prop :=
  ∃ x : UInt8, b = [x] ∧ (1 ≤ x.toNat ∧ x.toNat ≤ 16 ∨ x.toNat = 0x81)

/-- What `operator<<` takes for a byte string is what `CheckMinimalPush` asks for. -/
theorem checkMinimalPush_iff (b : Valtype) : checkMinimalPush b (pushOpcode b.length) ↔ ¬ IsSmallPush b := by
  have h1 : OP_PUSHDATA1 = 0x4c := rfl
  by_cases hone : b.length = 1
  · obtain ⟨x, rfl⟩ := length_eq_one_iff.mp hone
    have hsmall : IsSmallPush [x] ↔ 1 ≤ x.toNat ∧ x.toNat ≤ 16 ∨ x.toNat = 0x81 := by
      constructor
      · rintro ⟨y, hy, h⟩
        rw [singleton_inj.mp hy]
        exact h
      · exact fun h => ⟨x, rfl, h⟩
    have hbyte : byteAt [x] 0 = x.toNat := rfl
    have hpush : pushOpcode [x].length = 1 := rfl
    have hlow : ¬ 1 = OP_1 + (x.toNat - 1) := by
      have hop : OP_1 = 0x51 := rfl
      omega
    have hneg : ¬ 1 = OP_1NEGATE := by decide
    rw [hsmall, checkMinimalPush, hbyte, hpush]
    by_cases hnumber : 1 ≤ x.toNat ∧ x.toNat ≤ 16
    · simp [hnumber, hlow]
    · by_cases hminus : x.toNat = 0x81
      · simp [hminus, hneg]
      · simp [hnumber, hminus]
  · have hnot : ¬ IsSmallPush b := by
      rintro ⟨x, rfl, -⟩
      exact hone rfl
    rw [iff_true_right hnot, checkMinimalPush, pushOpcode]
    split_ifs <;> first
      | rfl
      | (apply decide_eq_true; omega)

/-- An integer is pushed by the shortest instruction for the bytes that it is on the stack. -/
theorem number_pushed {n : Int} (hn : n.natAbs < 256 ^ 8) :
    pushedValue (ScriptItem.number n).instruction.1 (ScriptItem.number n).instruction.2 = some (CScriptNum.getvch n) ∧
      checkMinimalPush (CScriptNum.getvch n) (ScriptItem.number n).instruction.1 = true := by
  by_cases hsmall : n = -1 ∨ (1 ≤ n ∧ n ≤ 16)
  · have hall : ∀ k : Nat, k < 18 → k ≠ 1 →
        pushedValue ((k : Int) - 1 + (OP_1 - 1 : Nat)).toNat [] = some (CScriptNum.getvch ((k : Int) - 1)) ∧
          checkMinimalPush (CScriptNum.getvch ((k : Int) - 1)) ((k : Int) - 1 + (OP_1 - 1 : Nat)).toNat = true := by
      decide
    have hn1 : ((n + 1).toNat : Int) - 1 = n := by omega
    have hcase := hall (n + 1).toNat (by omega) (by omega)
    rw [hn1] at hcase
    rw [ScriptItem.instruction, if_pos hsmall]
    exact hcase
  · by_cases hzero : n = 0
    · subst hzero
      exact ⟨rfl, rfl⟩
    · have hread := (CScriptNum.setVch_getvch hn).1
      have hlarge : ¬ IsSmallPush (CScriptNum.getvch n) := by
        -- the number of a byte that has an opcode is the number of the opcode
        rintro ⟨x, hx, h⟩
        have hset := CScriptNum.setVch_concat [] x
        rw [hx] at hread
        rw [nil_append, hread] at hset
        have hmagnitude : CScriptNum.magnitude [] x = x.toNat % 0x80 := by
          rw [CScriptNum.magnitude, leNat, length_nil, Nat.pow_zero, Nat.one_mul, Nat.zero_add]
        rw [hmagnitude] at hset
        split_ifs at hset <;> omega
      have hpush : pushOpcode (CScriptNum.getvch n).length ≤ OP_PUSHDATA4 := by
        have h1 : OP_PUSHDATA1 = 0x4c := rfl
        have h2 : OP_PUSHDATA2 = 0x4d := rfl
        have h4 : OP_PUSHDATA4 = 0x4e := rfl
        unfold pushOpcode
        split_ifs <;> omega
      rw [ScriptItem.instruction, if_neg hsmall, if_neg hzero]
      refine ⟨if_pos hpush, (checkMinimalPush_iff _).mpr hlarge⟩

/-! ## Scripts read back -/

/-- The built script is read instruction by instruction to its end, byte strings are pushed minimally but for the single
bytes that have opcodes, integers are pushed minimally, and small ones are decoded. -/
structure ReadsBack (items : List ScriptItem) : Prop where
  read : ∃ script, buildScript items = .ok script ∧ iterateGetOp script = (items.map ScriptItem.instruction, [])
  bytes : ∀ b, .bytes b ∈ items → (checkMinimalPush b (pushOpcode b.length) = true ↔ ¬ IsSmallPush b)
  number : ∀ n, .number n ∈ items → ∃ vch,
    pushedValue (ScriptItem.number n).instruction.1 (ScriptItem.number n).instruction.2 = some vch ∧
      checkMinimalPush vch (ScriptItem.number n).instruction.1 = true ∧
      (n.natAbs < 2 ^ 31 → CScriptNum.ofVch vch true = .ok n)

/-- A sequence of items is read back exactly when every push fits; and a string of at most four bytes is taken as a
minimal number exactly when it is what is written for the number that it says. -/
theorem readsBack_iff (items : List ScriptItem) :
    ((∀ item ∈ items, item.Valid) → (ReadsBack items ↔ Fits items)) ∧
    ∀ vch : Valtype, vch.length ≤ CScriptNum.nMaxNumSize → ((∃ value, CScriptNum.ofVch vch true = .ok value) ↔
      ∃ value, CScriptNum.ofVch vch false = .ok value ∧ vch = CScriptNum.getvch value) := by
  refine ⟨fun h => ?_, fun vch hlen => exists_congr fun value => CScriptNum.ofVch_true_iff hlen⟩
  rw [← iterateGetOp_iff h]
  constructor
  · intro hback
    obtain ⟨script, hbuild, hread⟩ := hback.read
    rw [buildScript_eq h] at hbuild
    rw [Except.ok.inj hbuild]
    exact hread
  · intro hread
    refine ⟨⟨_, buildScript_eq h, hread⟩, fun b _ => checkMinimalPush_iff b, fun n hmem => ?_⟩
    obtain ⟨hlow, hhigh⟩ : -2 ^ 63 < n ∧ n < 2 ^ 63 := h _ hmem
    obtain ⟨hpushed, hminimal⟩ := number_pushed (n := n) (by omega)
    exact ⟨_, hpushed, hminimal, CScriptNum.ofVch_getvch⟩

/-- A push, two opcodes and two integers. -/
theorem readsBack_iff_example : ReadsBack [.bytes [7, 8], .opcode 0x76, .number (-1), .number 1000, .opcode 0xac] := by
  refine ((readsBack_iff _).1 ?_).mpr ?_
  · simp [ScriptItem.Valid, OP_PUSHDATA4, OP_INVALIDOPCODE]
  · apply fits_of_short
    · simp [ScriptItem.Valid, OP_PUSHDATA4, OP_INVALIDOPCODE]
    · decide

/-- One byte is pushed, and then so many that exactly `2^32` bytes are left after the first opcode: none seem to be
left. -/
theorem readsBack_large : ¬ ∀ items : List ScriptItem, (∀ item ∈ items, item.Valid) → ReadsBack items := by
  intro hall
  obtain ⟨large, hlen⟩ : ∃ large : Valtype, large.length = 2 ^ 32 - 6 := ⟨List.replicate _ 0, length_replicate⟩
  have hscript : ([ScriptItem.bytes large].flatMap ScriptItem.script).length = 2 ^ 32 - 1 := by
    rw [flatMap_singleton]
    show (pushScript large).length = _
    unfold pushScript
    have h1 : OP_PUSHDATA1 = 0x4c := rfl
    rw [if_neg (by omega), if_neg (by omega), if_neg (by omega), length_append, length_append,
      length_writeData, length_writeData, hlen]
    norm_num
  have hvalid : ∀ item ∈ [ScriptItem.bytes [7], ScriptItem.bytes large], item.Valid := by
    intro item hitem
    rcases mem_cons.mp hitem with rfl | hitem
    · show 1 < 2 ^ 32
      omega
    · rw [mem_singleton.mp hitem]
      show large.length < 2 ^ 32
      omega
  have hfits := (iterateGetOp_iff hvalid).mp ?_
  · have hone : 1 ≤ (1 + ([ScriptItem.bytes large].flatMap ScriptItem.script).length) % 2 ^ 32 := hfits.1
    rw [hscript] at hone
    omega
  · obtain ⟨script, hbuild, hread⟩ := (hall _ hvalid).read
    rw [buildScript_eq hvalid] at hbuild
    rw [Except.ok.inj hbuild]
    exact hread

end Reddcoin
