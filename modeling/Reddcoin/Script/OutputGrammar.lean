import Reddcoin.Script.Pushes

/-!
# The grammar of standard outputs

`Solver` compares a script with templates, two parsers in step.  What it accepts is a small grammar over the bytes of
the script.
-/

namespace Reddcoin

open List Option

/-! ## Instructions in bytes -/

variable {data pushed : List UInt8} {pc script : CScript} {op : ScriptOp} {op1 : ScriptOp} {typeRet : TxnOutType}
    {keys : List (List UInt8)}

theorem readSize_eq_some {width nSize : Nat} {pc rest : CScript} (h : readSize width pc = some (nSize, rest)) :
    nSize < 256 ^ width ∧ pc = writeData width nSize ++ rest := by
  induction width generalizing pc nSize with
  | zero =>
    cases h
    exact ⟨Nat.one_pos, rfl⟩
  | succ width ih =>
    cases pc with
    | nil => cases h
    | cons b pc =>
      rw [readSize] at h
      obtain ⟨⟨high, rest'⟩, hread, h⟩ := bind_eq_some_iff.mp h
      cases h
      obtain ⟨hlt, rfl⟩ := ih hread
      have hb := b.toNat_lt
      have hmod : (b.toNat + 256 * high) % 256 = b.toNat := by omega
      have hdiv : (b.toNat + 256 * high) / 256 = high := by omega
      refine ⟨by rw [Nat.pow_succ]; omega, ?_⟩
      rw [writeData, hmod, hdiv, UInt8.ofNat_toNat]
      rfl

theorem readPush_eq_some {opcode nSize : Nat} (h : readPush opcode nSize pc = some op) :
    op.opcode = opcode ∧ op.vch.length = nSize ∧ pc = op.vch ++ op.pc := by
  unfold readPush at h
  split_ifs at h with hshort
  cases h
  exact ⟨rfl, length_take_of_le (Nat.le_of_not_lt hshort), (take_append_drop nSize pc).symm⟩

/-- What is read as an instruction is a push of its data, or one byte. -/
theorem getOp2_cases (h : getOp2 script = some op) :
    (op.opcode ≤ OP_PUSHDATA4 ∧ ∃ pushed, PushOf op.vch pushed ∧ script = pushed ++ op.pc) ∨
      ∃ b : UInt8, op.opcode = b.toNat ∧ OP_PUSHDATA4 < b.toNat ∧ op.vch = [] ∧ script = b :: op.pc := by
  cases script with
  | nil => cases h
  | cons b pc =>
    have hsized : ∀ opcode width, opcode ≤ OP_PUSHDATA4 → b.toNat = opcode →
        (∀ data : List UInt8, data.length < 256 ^ width →
          PushOf data (UInt8.ofNat opcode :: (writeData width data.length ++ data))) →
        ((readSize width pc).bind fun x => readPush opcode x.1 x.2) = some op →
        op.opcode ≤ OP_PUSHDATA4 ∧ ∃ pushed, PushOf op.vch pushed ∧ b :: pc = pushed ++ op.pc := by
      intro opcode width hle hb hpush hread
      obtain ⟨⟨nSize, rest⟩, hsize, hpushed⟩ := bind_eq_some_iff.mp hread
      obtain ⟨hlt, rfl⟩ := readSize_eq_some hsize
      obtain ⟨rfl, hlen, hsplit⟩ := readPush_eq_some hpushed
      subst hlen
      refine ⟨hle, _, hpush op.vch hlt, ?_⟩
      rw [← hb, UInt8.ofNat_toNat, cons_append, append_assoc]
      exact congrArg (fun t => b :: (writeData width op.vch.length ++ t)) hsplit
    simp only [getOp2] at h
    split_ifs at h with h1 h2 h3 h4
    · left
      obtain ⟨hop, hlen, hsplit⟩ := readPush_eq_some h
      refine ⟨hop ▸ Nat.le_trans (Nat.le_of_lt h1) (by decide), _, .direct (hlen ▸ h1), ?_⟩
      rw [hlen, UInt8.ofNat_toNat, cons_append, ← hsplit]
    · exact .inl (hsized _ _ (by decide) h2 (fun _ hlt => .pushdata1 hlt) (h2 ▸ h))
    · exact .inl (hsized _ _ (by decide) h3 (fun _ hlt => .pushdata2 hlt) (h3 ▸ h))
    · exact .inl (hsized _ _ (by decide) h4 (fun _ hlt => .pushdata4 hlt) (h4 ▸ h))
    · right
      cases h
      have hlarge : OP_PUSHDATA4 < b.toNat := by
        unfold OP_PUSHDATA1 at h1 h2
        unfold OP_PUSHDATA2 at h3
        unfold OP_PUSHDATA4 at h4 ⊢
        omega
      exact ⟨b, rfl, hlarge, rfl, rfl⟩

theorem getOp2_single {b : UInt8} (h : OP_PUSHDATA4 < b.toNat) (pc : CScript) :
    getOp2 (b :: pc) = some { opcode := b.toNat, vch := [], pc := pc } := by
  unfold OP_PUSHDATA4 at h
  have h1 : ¬ b.toNat < OP_PUSHDATA1 := by unfold OP_PUSHDATA1; omega
  have h2 : ¬ b.toNat = OP_PUSHDATA1 := by unfold OP_PUSHDATA1; omega
  have h3 : ¬ b.toNat = OP_PUSHDATA2 := by unfold OP_PUSHDATA2; omega
  have h4 : ¬ b.toNat = OP_PUSHDATA4 := by unfold OP_PUSHDATA4; omega
  simp only [getOp2, h1, h2, h3, h4, if_false]

/-- The byte of a small number from 1 to 16. -/
def opNumber (n : Nat) : UInt8 :=
  UInt8.ofNat (OP_1 - 1 + n)

/-- What the keys of a multisignature output are pushed by. -/
inductive PushesOf : List (List UInt8) → CScript → Prop where
  | nil : PushesOf [] []
  | cons {key pushed : List UInt8} {keys : List (List UInt8)} {rest : CScript} (head : PushOf key pushed)
      (tail : PushesOf keys rest) : PushesOf (key :: keys) (pushed ++ rest)

/-- The standard outputs, with the parts that `Solver` gives back.  Data carried by an output is no part of it. -/
inductive StandardOutput (options : SolverOptions) : TxnOutType → CScript → List (List UInt8) → Prop where
  /-- key, `OP_CHECKSIG`. -/
  | pubkey {key pushed : List UInt8} (push : PushOf key pushed) (sized : isKeySized key = true) :
      StandardOutput options .pubkey (pushed ++ [0xac]) [key]
  /-- `OP_DUP`, `OP_HASH160`, hash of the key, `OP_EQUALVERIFY`, `OP_CHECKSIG`. -/
  | pubkeyhash {hash pushed : List UInt8} (push : PushOf hash pushed) (sized : hash.length = 20) :
      StandardOutput options .pubkeyhash ([0x76, 0xa9] ++ pushed ++ [0x88, 0xac]) [hash]
  /-- `OP_HASH160`, hash of the script, `OP_EQUAL`. -/
  | scripthash {hash : List UInt8} (sized : hash.length = 20) :
      StandardOutput options .scripthash ([0xa9, 0x14] ++ hash ++ [0x87]) [hash]
  /-- Number of signatures, keys, number of keys, `OP_CHECKMULTISIG`. -/
  | multisig {m : Nat} {keys : List (List UInt8)} {pushed : CScript} (pushes : PushesOf keys pushed)
      (sized : ∀ key ∈ keys, isKeySized key = true) (required : 1 ≤ m ∧ m ≤ keys.length) (few : keys.length ≤ 16) :
      StandardOutput options .multisig ([opNumber m] ++ pushed ++ [opNumber keys.length, 0xae])
        ([UInt8.ofNat m] :: keys ++ [[UInt8.ofNat keys.length]])
  /-- `OP_RETURN`. -/
  | nulldata : StandardOutput options .nulldata [0x6a] []
  /-- `OP_RETURN`, data. -/
  | carried {data pushed : List UInt8} (enabled : options.datacarrier = true) (push : PushOf data pushed)
      (sized : data.length ≤ options.nMaxDatacarrierBytes) : StandardOutput options .nulldata (0x6a :: pushed) []

/-! ## One turn of the comparison -/

section

variable {options : SolverOptions} {turns : Nat} {pc1 t : CScript} {b : UInt8}
  {vSolutions vSolutions' : List (List UInt8)}

theorem matchTemplate_nil :
    matchTemplate options (turns + 1) pc1 [] vSolutions = some vSolutions' ↔ pc1 = [] ∧ vSolutions = vSolutions' := by
  unfold matchTemplate
  by_cases hend : pc1 = []
  · rw [if_pos ⟨hend, rfl⟩, Option.some.injEq]
    exact (and_iff_right hend).symm
  · rw [if_neg fun h => hend h.1]
    have hnone : getOp2 [] = none := rfl
    simp only [hnone, bind_eq_bind, bind_none, bind_fun_none, hend, false_and, reduceCtorEq]

/-- An instruction of the template that stands for one of the script. -/
theorem matchTemplate_cons (hb : OP_PUSHDATA4 < b.toNat) (hkeys : b.toNat ≠ OP_PUBKEYS) :
    matchTemplate options (turns + 1) pc1 (b :: t) vSolutions = some vSolutions' ↔ ∃ op1 mid, getOp2 pc1 = some op1 ∧
        matchOp options op1 { opcode := b.toNat, vch := [], pc := t } vSolutions = some mid ∧
          matchTemplate options turns op1.pc t mid = some vSolutions' := by
  rw [matchTemplate, if_neg fun h => cons_ne_nil b t h.2]
  simp only [getOp2_single hb, bind_eq_bind, bind_some, hkeys, if_false, bind_eq_some_iff]
  constructor
  · rintro ⟨op1, hop1, mid, hmid, hrest⟩
    exact ⟨op1, mid, hop1, hmid, hrest⟩
  · rintro ⟨op1, mid, hop1, hmid, hrest⟩
    exact ⟨op1, hop1, mid, hmid, hrest⟩

/-- `OP_PUBKEYS`, with the instruction of the template after it. -/
theorem matchTemplate_keys (hb : OP_PUSHDATA4 < b.toNat) :
    matchTemplate options (turns + 1) pc1 (0xfb :: b :: t) vSolutions = some vSolutions' ↔
      ∃ op1 mid, getOp2 pc1 = some op1 ∧
        matchOp options (readKeys (pc1.length + 1) op1 vSolutions).1 { opcode := b.toNat, vch := [], pc := t }
          (readKeys (pc1.length + 1) op1 vSolutions).2 = some mid ∧
          matchTemplate options turns (readKeys (pc1.length + 1) op1 vSolutions).1.pc t mid = some vSolutions' := by
  have hkeys : getOp2 (0xfb :: b :: t) = some { opcode := OP_PUBKEYS, vch := [], pc := b :: t } := rfl
  rw [matchTemplate, if_neg fun h => cons_ne_nil _ _ h.2]
  simp only [hkeys, getOp2_single hb, bind_eq_bind, bind_some, if_true, bind_eq_some_iff]
  constructor
  · rintro ⟨op1, hop1, mid, hmid, hrest⟩
    exact ⟨op1, mid, hop1, hmid, hrest⟩
  · rintro ⟨op1, mid, hop1, hmid, hrest⟩
    exact ⟨op1, hop1, mid, hmid, hrest⟩

/-! ## Instructions of the templates -/

theorem matchOp_pubkey : matchOp options op1 { opcode := OP_PUBKEY, vch := [], pc := t } vSolutions =
    some vSolutions' ↔ isKeySized op1.vch = true ∧ vSolutions' = vSolutions ++ [op1.vch] := by
  unfold matchOp
  rw [if_pos rfl]
  split_ifs with hsized
  · rw [Option.some.injEq, eq_comm]
    exact (and_iff_right hsized).symm
  · simp [hsized]

theorem matchOp_pubkeyhash :
    matchOp options op1 { opcode := OP_PUBKEYHASH, vch := [], pc := t } vSolutions = some vSolutions' ↔
      op1.vch.length = 20 ∧ vSolutions' = vSolutions ++ [op1.vch] := by
  have h1 : OP_PUBKEYHASH ≠ OP_PUBKEY := by decide
  unfold matchOp
  rw [if_neg h1, if_pos rfl]
  split_ifs with hsized
  · rw [Option.some.injEq, eq_comm]
    exact (and_iff_right hsized).symm
  · simp [hsized]

theorem matchOp_smallData :
    matchOp options op1 { opcode := OP_SMALLDATA, vch := [], pc := t } vSolutions = some vSolutions' ↔
      op1.vch.length ≤ options.nMaxDatacarrierBytes ∧ vSolutions' = vSolutions := by
  have h1 : OP_SMALLDATA ≠ OP_PUBKEY := by decide
  have h2 : OP_SMALLDATA ≠ OP_PUBKEYHASH := by decide
  have h3 : OP_SMALLDATA ≠ OP_SMALLINTEGER := by decide
  unfold matchOp
  rw [if_neg h1, if_neg h2, if_neg h3, if_pos rfl]
  split_ifs with hsized
  · rw [Option.some.injEq, eq_comm]
    exact (and_iff_right hsized).symm
  · simp [hsized]

/-- The other instructions stand for themselves. -/
theorem matchOp_same {opcode : Nat} (hplain : opcode < OP_SMALLDATA) :
    matchOp options op1 { opcode := opcode, vch := [], pc := t } vSolutions = some vSolutions' ↔
      op1.opcode = opcode ∧ op1.vch = [] ∧ vSolutions' = vSolutions := by
  unfold OP_SMALLDATA at hplain
  have h1 : opcode ≠ OP_PUBKEY := by unfold OP_PUBKEY; omega
  have h2 : opcode ≠ OP_PUBKEYHASH := by unfold OP_PUBKEYHASH; omega
  have h3 : opcode ≠ OP_SMALLINTEGER := by unfold OP_SMALLINTEGER; omega
  have h4 : opcode ≠ OP_SMALLDATA := by unfold OP_SMALLDATA; omega
  unfold matchOp
  rw [if_neg h1, if_neg h2, if_neg h3, if_neg h4]
  split_ifs with hsame
  · rw [Option.some.injEq, eq_comm, ← and_assoc]
    exact (and_iff_right hsame).symm
  · rw [← and_assoc]
    simp [hsame]

/-! ## The parts of a script -/

/-- A byte that stands for a number up to 16. -/
def IsSmallNumber (b : UInt8) : Prop :=
  b.toNat = OP_0 ∨ OP_1 ≤ b.toNat ∧ b.toNat ≤ OP_16

theorem getOp2_smallNumber (hb : IsSmallNumber b) (pc : CScript) :
    getOp2 (b :: pc) = some { opcode := b.toNat, vch := [], pc := pc } := by
  rcases hb with hzero | ⟨hlow, -⟩
  · have hb : b = 0 := UInt8.toNat_inj.mp hzero
    subst hb
    rfl
  · exact getOp2_single (Nat.lt_of_lt_of_le (by decide) hlow) pc

/-- An instruction whose opcode is a small number is one byte. -/
theorem getOp2_of_smallNumber (h : getOp2 script = some op)
    (hsmall : op.opcode = OP_0 ∨ OP_1 ≤ op.opcode ∧ op.opcode ≤ OP_16) :
    ∃ b, script = b :: op.pc ∧ IsSmallNumber b ∧ op.opcode = b.toNat := by
  obtain ⟨b, data, hsplit, hop, -⟩ := getOp2_suffix h
  have hnumber : IsSmallNumber b := by
    rw [hop] at hsmall
    exact hsmall
  rw [hsplit, cons_append, getOp2_smallNumber hnumber] at h
  have hpc : data ++ op.pc = op.pc := congrArg ScriptOp.pc (Option.some.inj h)
  exact ⟨b, by rw [hsplit, cons_append, hpc], hnumber, hop⟩

theorem PushOf.ne_nil (h : PushOf data pushed) : pushed ≠ [] := by
  cases h <;> exact cons_ne_nil _ _

theorem PushesOf.length_le {pushed : CScript} (h : PushesOf keys pushed) : keys.length ≤ pushed.length := by
  induction h with
  | nil => exact Nat.le_refl 0
  | cons head tail ih =>
    have hpos := length_pos_iff.mpr head.ne_nil
    rw [length_cons, length_append]
    omega

/-- Pushes in bytes are those of the parser. -/
theorem PushesOf.of_pushes {pc pc' : CScript} (h : Pushes pc keys pc') :
    ∃ pushed, PushesOf keys pushed ∧ pc = pushed ++ pc' := by
  induction h with
  | nil pc => exact ⟨[], .nil, rfl⟩
  | @cons pc pc' op values read push rest ih =>
    obtain ⟨later, hlater, hsplit⟩ := ih
    rcases getOp2_cases read with ⟨-, pushed, hpushed, rfl⟩ | ⟨b, hopcode, hlarge, -⟩
    · refine ⟨pushed ++ later, .cons hpushed hlater, ?_⟩
      rw [append_assoc, ← hsplit]
    · exact absurd push (Nat.not_le_of_lt (hopcode ▸ hlarge))

/-- The loop of `OP_PUBKEYS` over the keys that are pushed. -/
theorem readKeys_run {pushed rest : CScript} {last : ScriptOp} (h : PushesOf keys pushed)
    (hsized : ∀ key ∈ keys, isKeySized key) (hlast : getOp2 rest = some last) (hvch : last.vch = [])
    {turns : Nat} (hturns : keys.length ≤ turns) (vSolutions : List (List UInt8)) :
    ∃ op, getOp2 (pushed ++ rest) = some op ∧ readKeys turns op vSolutions = (last, vSolutions ++ keys) := by
  induction h generalizing turns vSolutions with
  | nil =>
    refine ⟨last, hlast, ?_⟩
    rw [append_nil]
    cases turns with
    | zero => rfl
    | succ turns =>
      have hnot : isKeySized last.vch = false := by
        rw [hvch]
        rfl
      rw [readKeys, hnot, if_neg Bool.false_ne_true]
  | @cons key pushed keys later head tail ih =>
    obtain ⟨opcode, -, hread⟩ := head.read (later ++ rest)
    refine ⟨_, (append_assoc pushed later rest).symm ▸ hread, ?_⟩
    obtain ⟨turns, rfl⟩ : ∃ k, turns = k + 1 := ⟨turns - 1, by rw [length_cons] at hturns; omega⟩
    obtain ⟨next, hnext, hrun⟩ := ih (fun k hk => hsized k (mem_cons_of_mem _ hk))
      (Nat.le_of_succ_le_succ hturns) (vSolutions ++ [key])
    rw [readKeys, if_pos (hsized key mem_cons_self), hnext]
    dsimp only
    rw [hrun, append_assoc]
    rfl

/-! ## One part after the other -/

/-- An instruction that stands for itself. -/
theorem matchTemplate_same (hb : OP_PUSHDATA4 < b.toNat) (hplain : b.toNat < OP_SMALLDATA) :
    matchTemplate options (turns + 1) pc1 (b :: t) vSolutions = some vSolutions' ↔
      ∃ rest, pc1 = b :: rest ∧ matchTemplate options turns rest t vSolutions = some vSolutions' := by
  have hkeys : b.toNat ≠ OP_PUBKEYS := by
    unfold OP_SMALLDATA at hplain
    unfold OP_PUBKEYS
    omega
  rw [matchTemplate_cons hb hkeys]
  constructor
  · rintro ⟨op1, mid, hop1, hmatch, hrest⟩
    obtain ⟨hopcode, -, rfl⟩ := (matchOp_same hplain).mp hmatch
    rcases getOp2_cases hop1 with ⟨hle, -⟩ | ⟨b', hopcode', -, -, hsplit⟩
    · rw [hopcode] at hle
      exact absurd hb (Nat.not_lt_of_le hle)
    · rw [hopcode] at hopcode'
      exact ⟨op1.pc, by rw [hsplit, UInt8.toNat_inj.mp hopcode'], hrest⟩
  · rintro ⟨rest, rfl, hrest⟩
    exact ⟨_, vSolutions, getOp2_single hb rest, (matchOp_same hplain).mpr ⟨rfl, rfl, rfl⟩, hrest⟩

theorem matchTemplate_pubkey :
    matchTemplate options (turns + 1) pc1 (0xfe :: t) vSolutions = some vSolutions' ↔
      ∃ key pushed rest, PushOf key pushed ∧ isKeySized key ∧ pc1 = pushed ++ rest ∧
        matchTemplate options turns rest t (vSolutions ++ [key]) = some vSolutions' := by
  rw [matchTemplate_cons (by decide) (by decide)]
  constructor
  · rintro ⟨op1, mid, hop1, hmatch, hrest⟩
    obtain ⟨hsized, rfl⟩ := matchOp_pubkey.mp hmatch
    rcases getOp2_cases hop1 with ⟨-, pushed, hpushed, hsplit⟩ | ⟨-, -, -, hempty, -⟩
    · exact ⟨op1.vch, pushed, op1.pc, hpushed, hsized, hsplit, hrest⟩
    · rw [hempty] at hsized
      cases hsized
  · rintro ⟨key, pushed, rest, hpushed, hsized, rfl, hrest⟩
    obtain ⟨opcode, -, hread⟩ := hpushed.read rest
    exact ⟨_, _, hread, matchOp_pubkey.mpr ⟨hsized, rfl⟩, hrest⟩

theorem matchTemplate_pubkeyhash :
    matchTemplate options (turns + 1) pc1 (0xfd :: t) vSolutions = some vSolutions' ↔
      ∃ hash pushed rest, PushOf hash pushed ∧ hash.length = 20 ∧ pc1 = pushed ++ rest ∧
        matchTemplate options turns rest t (vSolutions ++ [hash]) = some vSolutions' := by
  rw [matchTemplate_cons (by decide) (by decide)]
  constructor
  · rintro ⟨op1, mid, hop1, hmatch, hrest⟩
    obtain ⟨hsized, rfl⟩ := matchOp_pubkeyhash.mp hmatch
    rcases getOp2_cases hop1 with ⟨-, pushed, hpushed, hsplit⟩ | ⟨-, -, -, hempty, -⟩
    · exact ⟨op1.vch, pushed, op1.pc, hpushed, hsized, hsplit, hrest⟩
    · rw [hempty] at hsized
      cases hsized
  · rintro ⟨hash, pushed, rest, hpushed, hsized, rfl, hrest⟩
    obtain ⟨opcode, -, hread⟩ := hpushed.read rest
    exact ⟨_, _, hread, matchOp_pubkeyhash.mpr ⟨hsized, rfl⟩, hrest⟩

/-- Any instruction can stand where data is expected, as long as it pushes no more than is allowed. -/
theorem matchTemplate_smallData :
    matchTemplate options (turns + 1) pc1 (0xf9 :: t) vSolutions = some vSolutions' ↔
      ∃ op1, getOp2 pc1 = some op1 ∧ op1.vch.length ≤ options.nMaxDatacarrierBytes ∧
        matchTemplate options turns op1.pc t vSolutions = some vSolutions' := by
  rw [matchTemplate_cons (by decide) (by decide)]
  constructor
  · rintro ⟨op1, mid, hop1, hmatch, hrest⟩
    obtain ⟨hsized, rfl⟩ := matchOp_smallData.mp hmatch
    exact ⟨op1, hop1, hsized, hrest⟩
  · rintro ⟨op1, hop1, hsized, hrest⟩
    exact ⟨op1, vSolutions, hop1, matchOp_smallData.mpr ⟨hsized, rfl⟩, hrest⟩

theorem matchOp_number :
    matchOp options op1 { opcode := OP_SMALLINTEGER, vch := [], pc := t } vSolutions = some vSolutions' ↔
      (op1.opcode = OP_0 ∨ OP_1 ≤ op1.opcode ∧ op1.opcode ≤ OP_16) ∧
        vSolutions' = vSolutions ++ [[UInt8.ofNat (decodeOP_N op1.opcode)]] := by
  constructor
  · exact fun h => matchOp_smallInteger h rfl
  · rintro ⟨hsmall, rfl⟩
    have h1 : OP_SMALLINTEGER ≠ OP_PUBKEY := by decide
    have h2 : OP_SMALLINTEGER ≠ OP_PUBKEYHASH := by decide
    unfold matchOp
    rw [if_neg h1, if_neg h2, if_pos rfl, if_pos hsmall]

theorem matchTemplate_number :
    matchTemplate options (turns + 1) pc1 (0xfa :: t) vSolutions = some vSolutions' ↔
      ∃ n rest, IsSmallNumber n ∧ pc1 = n :: rest ∧
        matchTemplate options turns rest t (vSolutions ++ [[UInt8.ofNat (decodeOP_N n.toNat)]]) = some vSolutions' := by
  rw [matchTemplate_cons (by decide) (by decide)]
  constructor
  · rintro ⟨op1, mid, hop1, hmatch, hrest⟩
    obtain ⟨hsmall, rfl⟩ := matchOp_number.mp hmatch
    obtain ⟨n, hsplit, hn, hopcode⟩ := getOp2_of_smallNumber hop1 hsmall
    rw [hopcode] at hrest
    exact ⟨n, op1.pc, hn, hsplit, hrest⟩
  · rintro ⟨n, rest, hn, rfl, hrest⟩
    exact ⟨_, _, getOp2_smallNumber hn rest, matchOp_number.mpr ⟨hn, rfl⟩, hrest⟩

theorem matchTemplate_keysNumber :
    matchTemplate options (turns + 1) pc1 (0xfb :: 0xfa :: t) vSolutions = some vSolutions' ↔
      ∃ keys pushed n rest, PushesOf keys pushed ∧ (∀ key ∈ keys, isKeySized key) ∧ IsSmallNumber n ∧
        pc1 = pushed ++ n :: rest ∧ matchTemplate options turns rest t
          (vSolutions ++ keys ++ [[UInt8.ofNat (decodeOP_N n.toNat)]]) = some vSolutions' := by
  rw [matchTemplate_keys (by decide)]
  constructor
  · rintro ⟨op1, mid, hop1, hmatch, hrest⟩
    obtain ⟨keys, hsolutions, hsized, hend⟩ := readKeys_pushes (pc1.length + 1) hop1 vSolutions
    obtain ⟨hsmall, rfl⟩ := matchOp_number.mp hmatch
    rcases hend with hinvalid | ⟨pc', hpushes, hlast⟩
    · rw [hinvalid] at hsmall
      exact absurd hsmall (by decide)
    · obtain ⟨pushed, hpushed, rfl⟩ := PushesOf.of_pushes hpushes
      obtain ⟨n, hsplit, hn, hopcode⟩ := getOp2_of_smallNumber hlast hsmall
      rw [hsolutions, hopcode] at hrest
      exact ⟨keys, pushed, n, _, hpushed, hsized, hn, congrArg (pushed ++ ·) hsplit, hrest⟩
  · rintro ⟨keys, pushed, n, rest, hpushed, hsized, hn, rfl, hrest⟩
    have hturns : keys.length ≤ (pushed ++ n :: rest).length + 1 := by
      have hle := hpushed.length_le
      rw [length_append]
      omega
    obtain ⟨op1, hop1, hrun⟩ := readKeys_run hpushed hsized (getOp2_smallNumber hn rest) rfl hturns vSolutions
    refine ⟨op1, vSolutions ++ keys ++ [[UInt8.ofNat (decodeOP_N n.toNat)]], hop1, ?_, ?_⟩
    · rw [hrun]
      exact matchOp_number.mpr ⟨hn, rfl⟩
    · rw [hrun]
      exact hrest

/-! ## The templates -/

theorem match_pubkey : matchTemplate options 3 script [0xfe, 0xac] [] = some vSolutions ↔
    ∃ key pushed, PushOf key pushed ∧ isKeySized key ∧ script = pushed ++ [0xac] ∧ vSolutions = [key] := by
  rw [matchTemplate_pubkey]
  constructor
  · rintro ⟨key, pushed, rest, hpushed, hsized, rfl, hrest⟩
    obtain ⟨rest', rfl, hend⟩ := (matchTemplate_same (by decide) (by decide)).mp hrest
    obtain ⟨rfl, rfl⟩ := matchTemplate_nil.mp hend
    exact ⟨key, pushed, hpushed, hsized, rfl, rfl⟩
  · rintro ⟨key, pushed, hpushed, hsized, rfl, rfl⟩
    refine ⟨key, pushed, [0xac], hpushed, hsized, rfl, ?_⟩
    exact (matchTemplate_same (by decide) (by decide)).mpr ⟨[], rfl, matchTemplate_nil.mpr ⟨rfl, rfl⟩⟩

theorem match_pubkeyhash : matchTemplate options 6 script [0x76, 0xa9, 0xfd, 0x88, 0xac] [] = some vSolutions ↔
    ∃ hash pushed, PushOf hash pushed ∧ hash.length = 20 ∧ script = [0x76, 0xa9] ++ pushed ++ [0x88, 0xac] ∧
      vSolutions = [hash] := by
  rw [matchTemplate_same (by decide) (by decide)]
  constructor
  · rintro ⟨pc₁, rfl, h₁⟩
    obtain ⟨pc₂, rfl, h₂⟩ := (matchTemplate_same (by decide) (by decide)).mp h₁
    obtain ⟨hash, pushed, pc₃, hpushed, hsized, rfl, h₃⟩ := matchTemplate_pubkeyhash.mp h₂
    obtain ⟨pc₄, rfl, h₄⟩ := (matchTemplate_same (by decide) (by decide)).mp h₃
    obtain ⟨pc₅, rfl, h₅⟩ := (matchTemplate_same (by decide) (by decide)).mp h₄
    obtain ⟨rfl, rfl⟩ := matchTemplate_nil.mp h₅
    exact ⟨hash, pushed, hpushed, hsized, rfl, rfl⟩
  · rintro ⟨hash, pushed, hpushed, hsized, rfl, rfl⟩
    refine ⟨_, rfl, (matchTemplate_same (by decide) (by decide)).mpr ⟨_, rfl, ?_⟩⟩
    refine matchTemplate_pubkeyhash.mpr ⟨hash, pushed, [0x88, 0xac], hpushed, hsized, rfl, ?_⟩
    refine (matchTemplate_same (by decide) (by decide)).mpr ⟨[0xac], rfl, ?_⟩
    exact (matchTemplate_same (by decide) (by decide)).mpr ⟨[], rfl, matchTemplate_nil.mpr ⟨rfl, rfl⟩⟩

theorem match_multisig : matchTemplate options 5 script [0xfa, 0xfb, 0xfa, 0xae] [] = some vSolutions ↔
    ∃ m keys pushed n, IsSmallNumber m ∧ PushesOf keys pushed ∧ (∀ key ∈ keys, isKeySized key) ∧
      IsSmallNumber n ∧ script = [m] ++ pushed ++ [n, 0xae] ∧
        vSolutions = [UInt8.ofNat (decodeOP_N m.toNat)] :: keys ++ [[UInt8.ofNat (decodeOP_N n.toNat)]] := by
  rw [matchTemplate_number]
  constructor
  · rintro ⟨m, pc₁, hm, rfl, h₁⟩
    obtain ⟨keys, pushed, n, pc₂, hpushed, hsized, hn, rfl, h₂⟩ := matchTemplate_keysNumber.mp h₁
    obtain ⟨pc₃, rfl, h₃⟩ := (matchTemplate_same (by decide) (by decide)).mp h₂
    obtain ⟨rfl, rfl⟩ := matchTemplate_nil.mp h₃
    exact ⟨m, keys, pushed, n, hm, hpushed, hsized, hn, rfl, rfl⟩
  · rintro ⟨m, keys, pushed, n, hm, hpushed, hsized, hn, rfl, rfl⟩
    refine ⟨m, _, hm, rfl, matchTemplate_keysNumber.mpr ⟨keys, pushed, n, [0xae], hpushed, hsized, hn, rfl, ?_⟩⟩
    exact (matchTemplate_same (by decide) (by decide)).mpr ⟨[], rfl, matchTemplate_nil.mpr ⟨rfl, rfl⟩⟩

theorem match_nulldata : matchTemplate options 2 script [0x6a] [] = some vSolutions ↔
    script = [0x6a] ∧ vSolutions = [] := by
  rw [matchTemplate_same (by decide) (by decide)]
  constructor
  · rintro ⟨rest, rfl, hrest⟩
    obtain ⟨rfl, rfl⟩ := matchTemplate_nil.mp hrest
    exact ⟨rfl, rfl⟩
  · rintro ⟨rfl, rfl⟩
    exact ⟨[], rfl, matchTemplate_nil.mpr ⟨rfl, rfl⟩⟩

theorem match_carried : matchTemplate options 3 script [0x6a, 0xf9] [] = some vSolutions ↔
    ∃ rest op1, script = 0x6a :: rest ∧ getOp2 rest = some op1 ∧ op1.pc = [] ∧
      op1.vch.length ≤ options.nMaxDatacarrierBytes ∧ vSolutions = [] := by
  rw [matchTemplate_same (by decide) (by decide)]
  constructor
  · rintro ⟨rest, rfl, hrest⟩
    obtain ⟨op1, hop1, hsized, hrest⟩ := matchTemplate_smallData.mp hrest
    obtain ⟨hend, rfl⟩ := matchTemplate_nil.mp hrest
    exact ⟨rest, op1, rfl, hop1, hend, hsized, rfl⟩
  · rintro ⟨rest, op1, rfl, hop1, hend, hsized, rfl⟩
    exact ⟨rest, rfl, matchTemplate_smallData.mpr ⟨op1, hop1, hsized, matchTemplate_nil.mpr ⟨hend, rfl⟩⟩⟩

/-! ## What is accepted -/

/-- `OP_RETURN` with an instruction behind it that pushes nothing. -/
def StrayReturn (script : CScript) : Prop :=
  ∃ b : UInt8, OP_PUSHDATA4 < b.toNat ∧ script = [0x6a, b]

theorem opNumber_decoded {m : UInt8} (hm : IsSmallNumber m) (hpos : 1 ≤ (UInt8.ofNat (decodeOP_N m.toNat)).toNat) :
    m = opNumber (UInt8.ofNat (decodeOP_N m.toNat)).toNat ∧ (UInt8.ofNat (decodeOP_N m.toNat)).toNat ≤ 16 := by
  obtain ⟨hopcode, hle⟩ := opcode_of_decoded hm rfl hpos
  refine ⟨?_, hle⟩
  unfold opNumber
  rw [← hopcode, UInt8.ofNat_toNat]

theorem solver_sound (h : solver options script = { found := true, typeRet := typeRet, vSolutions := vSolutions }) :
    StandardOutput options typeRet script vSolutions ∨
      (typeRet = .nulldata ∧ vSolutions = [] ∧ StrayReturn script) := by
  unfold solver at h
  split_ifs at h with hp2sh
  · obtain ⟨hash, hsized, rfl⟩ := isPayToScriptHash_iff.mp hp2sh
    have hmiddle : (([0xa9, 0x14] ++ hash ++ [0x87]).drop 2).take 20 = hash := take_left' hsized
    rw [hmiddle] at h
    cases h
    exact .inl (.scripthash hsized)
  · obtain ⟨script2, hmem, hmatch, hcounts⟩ := scanTemplates_found (congrArg Solved.found h)
    rw [h] at hmem hmatch hcounts
    dsimp only at hmem hmatch hcounts
    simp only [SolverOptions.templates, mem_append, mem_cons, not_mem_nil, or_false, Prod.mk.injEq]
      at hmem
    rcases hmem with ((⟨rfl, rfl⟩ | ⟨rfl, rfl⟩ | ⟨rfl, rfl⟩) | hdata) | ⟨rfl, rfl⟩
    · obtain ⟨key, pushed, hpushed, hsized, rfl, rfl⟩ := match_pubkey.mp hmatch
      exact .inl (.pubkey hpushed hsized)
    · obtain ⟨hash, pushed, hpushed, hsized, rfl, rfl⟩ := match_pubkeyhash.mp hmatch
      exact .inl (.pubkeyhash hpushed hsized)
    · obtain ⟨m, keys, pushed, n, hm, hpushed, hsized, hn, rfl, rfl⟩ := match_multisig.mp hmatch
      obtain ⟨hmpos, hnpos, hle, hlength⟩ := multisigCounts_eq_true.mp (hcounts rfl)
      obtain ⟨hmbyte, -⟩ := opNumber_decoded hm hmpos
      obtain ⟨hnbyte, hfew⟩ := opNumber_decoded hn hnpos
      rw [← hlength] at hnbyte hle hfew
      have hstandard : StandardOutput options .multisig _ _ := .multisig hpushed hsized ⟨hmpos, hle⟩ hfew
      rw [← hmbyte, ← hnbyte, UInt8.ofNat_toNat, hlength, UInt8.ofNat_toNat] at hstandard
      exact .inl hstandard
    · split_ifs at hdata with henabled
      · obtain ⟨rfl, rfl⟩ : typeRet = .nulldata ∧ script2 = [0x6a, 0xf9] := by simpa using hdata
        obtain ⟨rest, op1, rfl, hop1, hend, hsized, rfl⟩ := match_carried.mp hmatch
        rcases getOp2_cases hop1 with ⟨-, pushed, hpushed, rfl⟩ | ⟨b, -, hlarge, -, rfl⟩
        · rw [hend, append_nil]
          exact .inl (.carried henabled hpushed hsized)
        · exact .inr ⟨rfl, rfl, b, hlarge, by rw [hend]⟩
      · cases hdata
    · obtain ⟨rfl, rfl⟩ := match_nulldata.mp hmatch
      exact .inl .nulldata

/-! ## What is accepted is accepted for its first instruction -/

section

variable (hop : getOp2 script = some op)

include hop

theorem match_pubkey_none (hvch : isKeySized op.vch = false) :
    matchTemplate options 3 script [0xfe, 0xac] [] = none := by
  rw [eq_none_iff_forall_ne_some]
  intro vSolutions h
  obtain ⟨op1, mid, hop1, hmatch, -⟩ := (matchTemplate_cons (by decide) (by decide)).mp h
  cases hop.symm.trans hop1
  rw [(matchOp_pubkey.mp hmatch).1] at hvch
  cases hvch

theorem match_pubkeyhash_none (hopcode : op.opcode ≠ 0x76) :
    matchTemplate options 6 script [0x76, 0xa9, 0xfd, 0x88, 0xac] [] = none := by
  rw [eq_none_iff_forall_ne_some]
  intro vSolutions h
  obtain ⟨op1, mid, hop1, hmatch, -⟩ := (matchTemplate_cons (by decide) (by decide)).mp h
  cases hop.symm.trans hop1
  exact hopcode ((matchOp_same (by decide)).mp hmatch).1

theorem match_multisig_none (hopcode : ¬ (op.opcode = OP_0 ∨ OP_1 ≤ op.opcode ∧ op.opcode ≤ OP_16)) :
    matchTemplate options 5 script [0xfa, 0xfb, 0xfa, 0xae] [] = none := by
  rw [eq_none_iff_forall_ne_some]
  intro vSolutions h
  obtain ⟨op1, mid, hop1, hmatch, -⟩ := (matchTemplate_cons (by decide) (by decide)).mp h
  cases hop.symm.trans hop1
  exact hopcode (matchOp_number.mp hmatch).1

theorem not_payToScriptHash (hopcode : op.opcode ≠ OP_HASH160) : isPayToScriptHash script = false := by
  rw [← Bool.not_eq_true]
  intro hform
  obtain ⟨hash, -, rfl⟩ := isPayToScriptHash_iff.mp hform
  have hread : getOp2 ([0xa9, 0x14] ++ hash ++ [0x87]) =
      some { opcode := OP_HASH160, vch := [], pc := 0x14 :: (hash ++ [0x87]) } := rfl
  cases hread.symm.trans hop
  exact hopcode rfl

end

theorem scanTemplates_skip {script2 : CScript} (rest : List (TxnOutType × CScript))
    (h : matchTemplate options (script2.length + 1) script script2 [] = none) :
    scanTemplates options script ((typeRet, script2) :: rest) = scanTemplates options script rest := by
  rw [scanTemplates, h]

theorem scanTemplates_hit {script2 : CScript} (rest : List (TxnOutType × CScript))
    (h : matchTemplate options (script2.length + 1) script script2 [] = some vSolutions)
    (hcounts : typeRet = .multisig → multisigCounts vSolutions) :
    scanTemplates options script ((typeRet, script2) :: rest) =
      { found := true, typeRet := typeRet, vSolutions := vSolutions } := by
  have hfound : (decide (typeRet ≠ .multisig) || multisigCounts vSolutions) = true := by
    by_cases htype : typeRet = .multisig
    · rw [hcounts htype, Bool.or_true]
    · rw [decide_eq_true htype, Bool.true_or]
  rw [scanTemplates, h]
  dsimp only
  rw [hfound]

/-- The number that is read off the byte of a small number. -/
theorem opNumber_smallNumber {m : Nat} (hm : 1 ≤ m ∧ m ≤ 16) :
    IsSmallNumber (opNumber m) ∧ decodeOP_N (opNumber m).toNat = m ∧ OP_PUSHDATA4 < (opNumber m).toNat := by
  have hall : ∀ m ≤ 16, 1 ≤ m → (OP_1 ≤ (opNumber m).toNat ∧ (opNumber m).toNat ≤ OP_16) ∧
      decodeOP_N (opNumber m).toNat = m ∧ OP_PUSHDATA4 < (opNumber m).toNat := by decide
  obtain ⟨hrange, hrest⟩ := hall m hm.2 hm.1
  exact ⟨.inr hrange, hrest⟩

theorem solver_complete (h : StandardOutput options typeRet script vSolutions) :
    solver options script = { found := true, typeRet := typeRet, vSolutions := vSolutions } := by
  have hscan : ∀ {op : ScriptOp}, getOp2 script = some op → op.opcode ≠ OP_HASH160 →
      solver options script = scanTemplates options script options.templates := by
    intro op hop hopcode
    unfold solver
    rw [not_payToScriptHash hop hopcode, if_neg Bool.false_ne_true]
  cases h with
  | pubkey hpushed hsized =>
    obtain ⟨opcode, hle, hop⟩ := hpushed.read [0xac]
    have hne : opcode ≠ OP_HASH160 := fun heq => absurd (heq ▸ hle) (by decide)
    rw [hscan hop hne]
    exact scanTemplates_hit _ (match_pubkey.mpr ⟨_, _, hpushed, hsized, rfl, rfl⟩) fun htype => by cases htype
  | @pubkeyhash hash pushed hpushed hsized =>
    have hop : getOp2 ([0x76, 0xa9] ++ pushed ++ [0x88, 0xac]) =
        some { opcode := 0x76, vch := [], pc := 0xa9 :: (pushed ++ [0x88, 0xac]) } := rfl
    have hne : (0x76 : Nat) ≠ OP_HASH160 := by decide
    rw [hscan hop hne]
    refine (scanTemplates_skip _ (match_pubkey_none hop rfl)).trans ?_
    exact scanTemplates_hit _ (match_pubkeyhash.mpr ⟨_, _, hpushed, hsized, rfl, rfl⟩) fun htype => by cases htype
  | @scripthash hash hsized =>
    have hmiddle : (([0xa9, 0x14] ++ hash ++ [0x87]).drop 2).take 20 = hash := take_left' hsized
    unfold solver
    rw [if_pos (isPayToScriptHash_iff.mpr ⟨hash, hsized, rfl⟩), hmiddle]
  | @multisig m keys pushed hpushed hsized hrequired hfew =>
    obtain ⟨hm, hmdecode, hmlarge⟩ := opNumber_smallNumber (m := m) ⟨hrequired.1, by omega⟩
    obtain ⟨hn, hndecode, -⟩ := opNumber_smallNumber (m := keys.length) ⟨by omega, hfew⟩
    have hop := getOp2_single hmlarge (pushed ++ [opNumber keys.length, 0xae])
    have hne : (opNumber m).toNat ≠ OP_HASH160 ∧ (opNumber m).toNat ≠ 0x76 := by
      rcases hm with hzero | ⟨-, hle⟩
      · rw [hzero]
        decide
      · unfold OP_16 at hle
        unfold OP_HASH160
        omega
    have hmatch : matchTemplate options 5 ([opNumber m] ++ pushed ++ [opNumber keys.length, 0xae])
        [0xfa, 0xfb, 0xfa, 0xae] [] = some ([UInt8.ofNat m] :: keys ++ [[UInt8.ofNat keys.length]]) :=
      match_multisig.mpr ⟨_, keys, pushed, _, hm, hpushed, hsized, hn, rfl, by rw [hmdecode, hndecode]⟩
    rw [hscan hop hne.1]
    refine (scanTemplates_skip _ (match_pubkey_none hop rfl)).trans ?_
    refine (scanTemplates_skip _ (match_pubkeyhash_none hop hne.2)).trans ?_
    refine scanTemplates_hit _ hmatch fun _ => multisigCounts_eq_true.mpr ?_
    have hbyte : ∀ k ≤ 16, (UInt8.ofNat k).toNat = k := by decide
    have hmnat := hbyte m (Nat.le_trans hrequired.2 hfew)
    have hnnat := hbyte keys.length hfew
    rw [hmnat, hnnat]
    exact ⟨hrequired.1, by omega, hrequired.2, rfl⟩
  | nulldata =>
    have hop : getOp2 [0x6a] = some { opcode := 0x6a, vch := [], pc := [] } := rfl
    have hcarried : matchTemplate options 3 [0x6a] [0x6a, 0xf9] [] = none := by
      rw [eq_none_iff_forall_ne_some]
      intro vSolutions h
      obtain ⟨rest, op1, hsplit, hop1, -⟩ := match_carried.mp h
      rw [← (List.cons.inj hsplit).2] at hop1
      cases hop1
    have hhit : scanTemplates options [0x6a] [(.nulldata, [0x6a])] =
        { found := true, typeRet := .nulldata, vSolutions := [] } :=
      scanTemplates_hit [] (match_nulldata.mpr ⟨rfl, rfl⟩) fun htype => by cases htype
    rw [hscan hop (by decide)]
    refine (scanTemplates_skip _ (match_pubkey_none hop rfl)).trans ?_
    refine (scanTemplates_skip _ (match_pubkeyhash_none hop (by decide))).trans ?_
    refine (scanTemplates_skip _ (match_multisig_none hop (by decide))).trans ?_
    cases options.datacarrier with
    | false => exact hhit
    | true => exact (scanTemplates_skip _ hcarried).trans hhit
  | @carried data pushed henabled hpushed hsized =>
    have hop : getOp2 (0x6a :: pushed) = some { opcode := 0x6a, vch := [], pc := pushed } := rfl
    obtain ⟨opcode, -, hop1⟩ := hpushed.read []
    rw [append_nil] at hop1
    have hne : (0x6a : Nat) ≠ OP_HASH160 := by decide
    have hnotDup : (0x6a : Nat) ≠ 0x76 := by decide
    have hnot : ¬ ((0x6a : Nat) = OP_0 ∨ OP_1 ≤ 0x6a ∧ 0x6a ≤ OP_16) := by decide
    rw [hscan hop hne]
    refine (scanTemplates_skip _ (match_pubkey_none hop rfl)).trans ?_
    refine (scanTemplates_skip _ (match_pubkeyhash_none hop hnotDup)).trans ?_
    refine (scanTemplates_skip _ (match_multisig_none hop hnot)).trans ?_
    rw [henabled]
    exact scanTemplates_hit _ (match_carried.mpr ⟨pushed, _, rfl, hop1, rfl, hsized, rfl⟩) fun htype => by cases htype

end

section

variable (options : SolverOptions)

/-! ## The loops end

The same loops, with `none` where one of them is not over after its turns. -/

def timedKeys : Nat → ScriptOp → List (List UInt8) → Option (ScriptOp × List (List UInt8))
  | 0, _, _ => none
  | turns + 1, op1, vSolutions =>
    if isKeySized op1.vch then
      match getOp2 op1.pc with
      | some next => timedKeys turns next (vSolutions ++ [op1.vch])
      | none => some ({ opcode := OP_INVALIDOPCODE, vch := [], pc := [] }, vSolutions ++ [op1.vch])
    else some (op1, vSolutions)

def timedMatch : Nat → CScript → CScript → List (List UInt8) → Option (Option (List (List UInt8)))
  | 0, _, _, _ => none
  | turns + 1, pc1, pc2, vSolutions =>
    if pc1 = [] ∧ pc2 = [] then some (some vSolutions)
    else
      match getOp2 pc1, getOp2 pc2 with
      | some op1, some op2 =>
        if op2.opcode = OP_PUBKEYS then
          match timedKeys (pc1.length + 1) op1 vSolutions, getOp2 op2.pc with
          | none, _ => none
          | some _, none => some none
          | some (op1, vSolutions), some op2 =>
            match matchOp options op1 op2 vSolutions with
            | none => some none
            | some vSolutions => timedMatch turns op1.pc op2.pc vSolutions
        else
          match matchOp options op1 op2 vSolutions with
          | none => some none
          | some vSolutions => timedMatch turns op1.pc op2.pc vSolutions
      | _, _ => some none

def timedScan (script : CScript) : List (TxnOutType × CScript) → Option Solved
  | [] => some { found := false, typeRet := .nonstandard, vSolutions := [] }
  | (tplate, script2) :: rest =>
    match timedMatch options (script2.length + 1) script script2 [] with
    | none => none
    | some none => timedScan script rest
    | some (some vSolutions) =>
      some { found := decide (tplate ≠ .multisig) || multisigCounts vSolutions, typeRet := tplate,
             vSolutions := vSolutions }

def timedSolver (scriptPubKey : CScript) : Option Solved :=
  if isPayToScriptHash scriptPubKey then
    some { found := true, typeRet := .scripthash, vSolutions := [(scriptPubKey.drop 2).take 20] }
  else timedScan options scriptPubKey options.templates

theorem timedKeys_eq {turns : Nat} (hturns : op.pc.length < turns) (vSolutions : List (List UInt8)) :
    timedKeys turns op vSolutions = some (readKeys turns op vSolutions) := by
  induction turns generalizing op vSolutions with
  | zero => omega
  | succ turns ih =>
    rw [timedKeys, readKeys]
    split_ifs with hsized
    · cases hnext : getOp2 op.pc with
      | none => rfl
      | some next =>
        have hshort := StackMachine.getOp2_length hnext
        exact ih (by omega) _
    · rfl

/-- Each turn takes an instruction off the template. -/
theorem timedMatch_eq {turns : Nat} {pc1 pc2 : CScript} (hturns : pc2.length < turns)
    (vSolutions : List (List UInt8)) :
    timedMatch options turns pc1 pc2 vSolutions = some (matchTemplate options turns pc1 pc2 vSolutions) := by
  induction turns generalizing pc1 pc2 vSolutions with
  | zero => omega
  | succ turns ih =>
    rw [timedMatch, matchTemplate]
    split_ifs with hend
    · rfl
    cases hop1 : getOp2 pc1 with
    | none => rfl
    | some op1 =>
      cases hop2 : getOp2 pc2 with
      | none => rfl
      | some op2 =>
        have hshort1 := StackMachine.getOp2_length hop1
        have hshort2 := StackMachine.getOp2_length hop2
        simp only [bind_eq_bind, bind_some]
        split_ifs with hkeys
        · rw [timedKeys_eq (by omega)]
          cases hop3 : getOp2 op2.pc with
          | none => rfl
          | some op3 =>
            have hshort3 := StackMachine.getOp2_length hop3
            dsimp only [bind_some]
            cases matchOp options (readKeys (pc1.length + 1) op1 vSolutions).1 op3
                (readKeys (pc1.length + 1) op1 vSolutions).2 with
            | none => rfl
            | some mid => exact ih (by omega) mid
        · cases matchOp options op1 op2 vSolutions with
          | none => rfl
          | some mid => exact ih (by omega) mid

theorem timedSolver_eq (script : CScript) : timedSolver options script = some (solver options script) := by
  have hscan : ∀ l, timedScan options script l = some (scanTemplates options script l) := by
    intro l
    induction l with
    | nil => rfl
    | cons entry rest ih =>
      obtain ⟨tplate, script2⟩ := entry
      rw [timedScan, scanTemplates, timedMatch_eq options (Nat.lt_succ_self _)]
      cases matchTemplate options (script2.length + 1) script script2 [] with
      | none => exact ih
      | some vSolutions => rfl
  unfold timedSolver solver
  split_ifs with hp2sh
  · rfl
  · exact hscan _

end

end Reddcoin
