import Reddcoin.Script.RedeemScript

/-!
# Output templates

`Solver` of `script/standard.cpp`: an output script is compared with the templates, instruction by instruction.  What
a multisignature output consists of is read off the comparison.
-/

namespace Reddcoin

open Option

def OP_0 : Nat := 0x00
def OP_SMALLDATA : Nat := 0xf9
def OP_SMALLINTEGER : Nat := 0xfa
def OP_PUBKEYS : Nat := 0xfb
def OP_PUBKEYHASH : Nat := 0xfd
def OP_PUBKEY : Nat := 0xfe

/-- `txnouttype`. -/
inductive TxnOutType where
  | nonstandard
  | pubkey
  | pubkeyhash
  | scripthash
  | multisig
  | nulldata
deriving DecidableEq

/-- What `Solver` depends on besides the script. -/
structure SolverOptions where
  /-- `-datacarrier`. -/
  datacarrier : Bool
  nMaxDatacarrierBytes : Nat

/-- `mTemplates`, in the order of the types. -/
def SolverOptions.templates (options : SolverOptions) : List (TxnOutType × CScript) :=
  [(.pubkey, [0xfe, 0xac]), (.pubkeyhash, [0x76, 0xa9, 0xfd, 0x88, 0xac]), (.multisig, [0xfa, 0xfb, 0xfa, 0xae])] ++
    (if options.datacarrier then [(.nulldata, [0x6a, 0xf9])] else []) ++ [(.nulldata, [0x6a])]

/-- The size of a public key. -/
def isKeySized (vch : List UInt8) : Bool :=
  decide (33 ≤ vch.length) && decide (vch.length ≤ 65)

/-- `DecodeOP_N`. -/
def decodeOP_N (opcode : Nat) : Nat :=
  if opcode = OP_0 then 0 else opcode - (OP_1 - 1)

/-- The loop of `OP_PUBKEYS`.  When there is no further instruction, an invalid one is left behind. -/
def readKeys : Nat → ScriptOp → List (List UInt8) → ScriptOp × List (List UInt8)
  | 0, op1, vSolutions => (op1, vSolutions)
  | turns + 1, op1, vSolutions =>
    if isKeySized op1.vch then
      match getOp2 op1.pc with
      | some next => readKeys turns next (vSolutions ++ [op1.vch])
      | none => ({ opcode := OP_INVALIDOPCODE, vch := [], pc := [] }, vSolutions ++ [op1.vch])
    else (op1, vSolutions)

section

variable (options : SolverOptions)

/-- An instruction of the script against one of the template; `none` when they do not match. -/
def matchOp (op1 op2 : ScriptOp) (vSolutions : List (List UInt8)) : Option (List (List UInt8)) :=
  if op2.opcode = OP_PUBKEY then if isKeySized op1.vch then some (vSolutions ++ [op1.vch]) else none
  else if op2.opcode = OP_PUBKEYHASH then if op1.vch.length = 20 then some (vSolutions ++ [op1.vch]) else none
  else if op2.opcode = OP_SMALLINTEGER then
    if op1.opcode = OP_0 ∨ OP_1 ≤ op1.opcode ∧ op1.opcode ≤ OP_16 then
      some (vSolutions ++ [[UInt8.ofNat (decodeOP_N op1.opcode)]])
    else none
  else if op2.opcode = OP_SMALLDATA then
    if op1.vch.length ≤ options.nMaxDatacarrierBytes then some vSolutions else none
  else if op1.opcode = op2.opcode ∧ op1.vch = op2.vch then some vSolutions
  else none

/-- The comparison with one template.  Each turn takes an instruction of the template. -/
def matchTemplate : Nat → CScript → CScript → List (List UInt8) → Option (List (List UInt8))
  | 0, _, _, _ => none
  | turns + 1, pc1, pc2, vSolutions =>
    if pc1 = [] ∧ pc2 = [] then some vSolutions
    else do
      let op1 ← getOp2 pc1
      let op2 ← getOp2 pc2
      if op2.opcode = OP_PUBKEYS then
        let (op1, vSolutions) := readKeys (pc1.length + 1) op1 vSolutions
        let op2 ← getOp2 op2.pc
        let vSolutions ← matchOp options op1 op2 vSolutions
        matchTemplate turns op1.pc op2.pc vSolutions
      else
        let vSolutions ← matchOp options op1 op2 vSolutions
        matchTemplate turns op1.pc op2.pc vSolutions

/-- The additional checks for `multisig`. -/
def multisigCounts (vSolutions : List (List UInt8)) : Bool :=
  let m := ((vSolutions.headD []).headD 0).toNat
  let n := ((vSolutions.getLastD []).headD 0).toNat
  !(decide (m < 1) || decide (n < 1) || decide (n < m) || decide (vSolutions.length - 2 ≠ n))

/-- What `Solver` returns, `typeRet` and `vSolutionsRet`. -/
structure Solved where
  found : Bool
  typeRet : TxnOutType
  vSolutions : List (List UInt8)
deriving DecidableEq

def scanTemplates (script : CScript) : List (TxnOutType × CScript) → Solved
  | [] => { found := false, typeRet := .nonstandard, vSolutions := [] }
  | (tplate, script2) :: rest =>
    match matchTemplate options (script2.length + 1) script script2 [] with
    | none => scanTemplates script rest
    | some vSolutions =>
      { found := decide (tplate ≠ .multisig) || multisigCounts vSolutions, typeRet := tplate,
        vSolutions := vSolutions }

/-- `Solver`. -/
def solver (scriptPubKey : CScript) : Solved :=
  if isPayToScriptHash scriptPubKey then
    { found := true, typeRet := .scripthash, vSolutions := [(scriptPubKey.drop 2).take 20] }
  else scanTemplates options scriptPubKey options.templates

end

/-! ## Multisignature outputs -/

/-- The instructions from the first position to the second push the values. -/
inductive Pushes : CScript → List (List UInt8) → CScript → Prop where
  | nil (pc : CScript) : Pushes pc [] pc
  | cons {pc pc' : CScript} {op : ScriptOp} {values : List (List UInt8)} (read : getOp2 pc = some op)
      (push : op.opcode ≤ OP_PUSHDATA4) (rest : Pushes op.pc values pc') : Pushes pc (op.vch :: values) pc'

/-- A script that asks for `m` signatures by the keys: `m`, the keys, their number, `OP_CHECKMULTISIG`. -/
structure MultisigScript (script : CScript) (m : Nat) (keys : List (List UInt8)) : Prop where
  parts : ∃ first last check, getOp2 script = some first ∧ first.opcode = OP_1 - 1 + m ∧
    (∃ pc, Pushes first.pc keys pc ∧ getOp2 pc = some last) ∧ last.opcode = OP_1 - 1 + keys.length ∧
    getOp2 last.pc = some check ∧ check.opcode = OP_CHECKMULTISIG ∧ check.pc = []
  required : 1 ≤ m ∧ m ≤ keys.length
  few : keys.length ≤ 16
  sized : ∀ key ∈ keys, isKeySized key = true

section

variable {options : SolverOptions} {script pc pc' : CScript} {op op1 op2 : ScriptOp}
  {vSolutions vSolutions' : List (List UInt8)}

/-- What has the size of a key is pushed. -/
theorem push_of_keySized (read : getOp2 pc = some op) (hsized : isKeySized op.vch) :
    op.opcode ≤ OP_PUSHDATA4 := by
  by_contra hlarge
  rw [getOp2_vch read (Nat.lt_of_not_le hlarge)] at hsized
  cases hsized

/-- The loop of `OP_PUBKEYS` goes over pushes of keys, to the next instruction or to the end. -/
theorem readKeys_pushes (turns : Nat) (read : getOp2 pc = some op) (vSolutions : List (List UInt8)) :
    ∃ keys, (readKeys turns op vSolutions).2 = vSolutions ++ keys ∧ (∀ key ∈ keys, isKeySized key) ∧
      ((readKeys turns op vSolutions).1.opcode = OP_INVALIDOPCODE ∨
        ∃ pc', Pushes pc keys pc' ∧ getOp2 pc' = some (readKeys turns op vSolutions).1) := by
  have hstop : ∃ keys, vSolutions = vSolutions ++ keys ∧ (∀ key ∈ keys, isKeySized key = true) ∧
      (op.opcode = OP_INVALIDOPCODE ∨ ∃ pc', Pushes pc keys pc' ∧ getOp2 pc' = some op) :=
    ⟨[], (List.append_nil _).symm, fun _ hkey => absurd hkey List.not_mem_nil, .inr ⟨pc, .nil pc, read⟩⟩
  induction turns generalizing pc op vSolutions with
  | zero => exact hstop
  | succ turns ih =>
    unfold readKeys
    by_cases hsized : isKeySized op.vch = true
    · rw [if_pos hsized]
      cases hnext : getOp2 op.pc with
      | none =>
        refine ⟨[op.vch], rfl, fun key hkey => ?_, .inl rfl⟩
        rw [List.mem_singleton.mp hkey]
        exact hsized
      | some next =>
        obtain ⟨keys, hkeys, hall, hend⟩ := ih hnext (vSolutions ++ [op.vch])
          ⟨[], (List.append_nil _).symm, fun _ hkey => absurd hkey List.not_mem_nil, .inr ⟨op.pc, .nil op.pc, hnext⟩⟩
        refine ⟨op.vch :: keys, ?_, fun key hkey => ?_, hend.imp_right ?_⟩
        · rw [hkeys, List.append_assoc]
          rfl
        · rcases List.mem_cons.mp hkey with rfl | hkey
          · exact hsized
          · exact hall key hkey
        · rintro ⟨pc', hpushes, hlast⟩
          exact ⟨pc', .cons read (push_of_keySized read hsized) hpushes, hlast⟩
    · rw [if_neg hsized]
      exact hstop

theorem scanTemplates_found {l : List (TxnOutType × CScript)} (h : (scanTemplates options script l).found) :
    ∃ script2, ((scanTemplates options script l).typeRet, script2) ∈ l ∧
      matchTemplate options (script2.length + 1) script script2 [] = some (scanTemplates options script l).vSolutions ∧
      ((scanTemplates options script l).typeRet = .multisig →
        multisigCounts (scanTemplates options script l).vSolutions) := by
  induction l with
  | nil => cases h
  | cons entry rest ih =>
    obtain ⟨tplate, script2⟩ := entry
    unfold scanTemplates at h ⊢
    cases hmatch : matchTemplate options (script2.length + 1) script script2 [] with
    | none =>
      rw [hmatch] at h
      obtain ⟨script2', hmem, hrest⟩ := ih h
      exact ⟨script2', List.mem_cons_of_mem _ hmem, hrest⟩
    | some vSolutions =>
      rw [hmatch] at h
      refine ⟨script2, List.mem_cons_self, hmatch, fun htype => ?_⟩
      have hcounts : (decide (tplate ≠ .multisig) || multisigCounts vSolutions) = true := h
      have htplate : tplate = .multisig := htype
      rw [htplate] at hcounts
      exact hcounts

/-- An instruction that stands for a small number. -/
theorem matchOp_smallInteger (h : matchOp options op1 op2 vSolutions = some vSolutions')
    (hop2 : op2.opcode = OP_SMALLINTEGER) :
    (op1.opcode = OP_0 ∨ OP_1 ≤ op1.opcode ∧ op1.opcode ≤ OP_16) ∧
      vSolutions' = vSolutions ++ [[UInt8.ofNat (decodeOP_N op1.opcode)]] := by
  unfold matchOp at h
  rw [hop2, if_neg (by decide), if_neg (by decide), if_pos rfl] at h
  split_ifs at h with hsmall
  exact ⟨hsmall, (Option.some.inj h).symm⟩

theorem matchOp_exact (h : matchOp options op1 op2 vSolutions = some vSolutions')
    (hop2 : op2.opcode = OP_CHECKMULTISIG) : op1.opcode = OP_CHECKMULTISIG ∧ vSolutions' = vSolutions := by
  unfold matchOp at h
  rw [hop2, if_neg (by decide), if_neg (by decide), if_neg (by decide), if_neg (by decide)] at h
  split_ifs at h with hsame
  exact ⟨hsame.1, (Option.some.inj h).symm⟩

/-- What matches the multisignature template. -/
theorem matchTemplate_multisig
    (h : matchTemplate options 5 script [0xfa, 0xfb, 0xfa, 0xae] [] = some vSolutions) :
    ∃ first last check keys, getOp2 script = some first ∧
      (first.opcode = OP_0 ∨ OP_1 ≤ first.opcode ∧ first.opcode ≤ OP_16) ∧
      (∃ pc, Pushes first.pc keys pc ∧ getOp2 pc = some last) ∧
      (last.opcode = OP_0 ∨ OP_1 ≤ last.opcode ∧ last.opcode ≤ OP_16) ∧
      getOp2 last.pc = some check ∧ check.opcode = OP_CHECKMULTISIG ∧ check.pc = [] ∧
      (∀ key ∈ keys, isKeySized key) ∧
      vSolutions = [UInt8.ofNat (decodeOP_N first.opcode)] :: keys ++ [[UInt8.ofNat (decodeOP_N last.opcode)]] := by
  -- The number of signatures.
  unfold matchTemplate at h
  simp only [bind_eq_bind] at h
  rw [if_neg (by simp), bind_eq_some_iff] at h
  obtain ⟨first, hfirst, h⟩ := h
  have hsmall : getOp2 [0xfa, 0xfb, 0xfa, 0xae] =
      some { opcode := OP_SMALLINTEGER, vch := [], pc := [0xfb, 0xfa, 0xae] } :=
    rfl
  rw [hsmall, bind_some, if_neg (by decide), bind_eq_some_iff] at h
  obtain ⟨solutions₁, hmatch₁, h⟩ := h
  obtain ⟨hrequired, rfl⟩ := matchOp_smallInteger hmatch₁ rfl
  -- The keys, and their number.
  unfold matchTemplate at h
  simp only [bind_eq_bind] at h
  rw [if_neg (by simp), bind_eq_some_iff] at h
  obtain ⟨second, hsecond, h⟩ := h
  have hkeys : getOp2 [0xfb, 0xfa, 0xae] = some { opcode := OP_PUBKEYS, vch := [], pc := [0xfa, 0xae] } := rfl
  rw [hkeys, bind_some, if_pos rfl] at h
  obtain ⟨keys, hsolutions, hsized, hend⟩ := readKeys_pushes (first.pc.length + 1) hsecond
    ([] ++ [[UInt8.ofNat (decodeOP_N first.opcode)]])
  generalize hread : readKeys (first.pc.length + 1) second ([] ++ [[UInt8.ofNat (decodeOP_N first.opcode)]]) = read at *
  obtain ⟨last, solutions₂⟩ := read
  dsimp only at h hsolutions hend
  have hcount : getOp2 [0xfa, 0xae] = some { opcode := OP_SMALLINTEGER, vch := [], pc := [0xae] } := rfl
  rw [hcount, bind_some, bind_eq_some_iff] at h
  obtain ⟨solutions₃, hmatch₃, h⟩ := h
  obtain ⟨hnumber, rfl⟩ := matchOp_smallInteger hmatch₃ rfl
  -- `OP_CHECKMULTISIG`, and the end.
  unfold matchTemplate at h
  simp only [bind_eq_bind] at h
  rw [if_neg (by simp), bind_eq_some_iff] at h
  obtain ⟨check, hcheck, h⟩ := h
  have htemplate : getOp2 [0xae] = some { opcode := OP_CHECKMULTISIG, vch := [], pc := [] } := rfl
  rw [htemplate, bind_some, if_neg (by decide), bind_eq_some_iff] at h
  obtain ⟨solutions₄, hmatch₄, h⟩ := h
  obtain ⟨hchecks, rfl⟩ := matchOp_exact hmatch₄ rfl
  unfold matchTemplate at h
  dsimp only at h
  split_ifs at h with hdone
  · cases h
    refine ⟨first, last, check, keys, hfirst, hrequired, ?_, hnumber, hcheck, hchecks, hdone.1, hsized, ?_⟩
    · rcases hend with hinvalid | hend
      · rw [hinvalid] at hnumber
        exact absurd hnumber (by decide)
      · exact hend
    · rw [hsolutions]
      rfl
  · simp only [bind_eq_bind] at h
    rw [bind_eq_some_iff] at h
    obtain ⟨op1, -, h⟩ := h
    cases h

/-- The number that an opcode stands for. -/
theorem opcode_of_decoded {opcode n : Nat} (hsmall : opcode = OP_0 ∨ OP_1 ≤ opcode ∧ opcode ≤ OP_16)
    (hn : (UInt8.ofNat (decodeOP_N opcode)).toNat = n) (hpos : 1 ≤ n) : opcode = OP_1 - 1 + n ∧ n ≤ 16 := by
  have hall : ∀ opcode < 0x61, opcode = OP_0 ∨ OP_1 ≤ opcode ∧ opcode ≤ OP_16 →
      1 ≤ (UInt8.ofNat (decodeOP_N opcode)).toNat →
      opcode = OP_1 - 1 + (UInt8.ofNat (decodeOP_N opcode)).toNat ∧ (UInt8.ofNat (decodeOP_N opcode)).toNat ≤ 16 := by
    decide
  have hlt : opcode < 0x61 := by
    rcases hsmall with rfl | hsmall
    · decide
    · exact Nat.lt_of_le_of_lt hsmall.2 (by decide)
  subst hn
  exact hall opcode hlt hsmall hpos

theorem multisigCounts_eq_true {m n : UInt8} {keys : List (List UInt8)} :
    multisigCounts ([m] :: keys ++ [[n]]) ↔
      1 ≤ m.toNat ∧ 1 ≤ n.toNat ∧ m.toNat ≤ n.toNat ∧ keys.length = n.toNat := by
  have hlast : ([m] :: keys ++ [[n]]).getLastD [] = [n] := by
    rw [List.getLastD_eq_getLast?, List.getLast?_concat]
    rfl
  have hlen : ([m] :: keys ++ [[n]]).length - 2 = keys.length := by
    rw [List.length_append, List.length_cons]
    rfl
  have hhead : ([m] :: keys ++ [[n]]).headD [] = [m] := rfl
  unfold multisigCounts
  rw [hlast, hlen, hhead]
  simp
  omega

/-- A script of which `Solver` finds that it is a multisignature output. -/
theorem solver_multisig
    (h : solver options script = { found := true, typeRet := .multisig, vSolutions := vSolutions }) :
    ∃ m keys, vSolutions = [UInt8.ofNat m] :: keys ++ [[UInt8.ofNat keys.length]] ∧ MultisigScript script m keys := by
  unfold solver at h
  split_ifs at h
  · cases h
  · obtain ⟨script2, hmem, hmatch, hcounts⟩ := scanTemplates_found (congrArg Solved.found h)
    rw [h] at hmem hmatch hcounts
    have hscript2 : script2 = [0xfa, 0xfb, 0xfa, 0xae] := by
      simpa [SolverOptions.templates] using hmem
    subst hscript2
    obtain ⟨first, last, check, keys, hfirst, hrequired, hpushes, hnumber, hcheck, hchecks, hend, hsized, hsolutions⟩ :=
      matchTemplate_multisig hmatch
    have hcounts := hcounts rfl
    dsimp only at hcounts hsolutions
    rw [hsolutions] at hcounts
    obtain ⟨hm, hn, hle, hlen⟩ := multisigCounts_eq_true.mp hcounts
    obtain ⟨hfirstop, hm16⟩ := opcode_of_decoded hrequired rfl hm
    obtain ⟨hlastop, hn16⟩ := opcode_of_decoded hnumber rfl hn
    rw [← hlen] at hlastop
    refine ⟨_, keys, ?_, ⟨⟨first, last, check, hfirst, hfirstop, hpushes, hlastop, hcheck, hchecks, hend⟩,
      ⟨hm, by omega⟩, by omega, hsized⟩⟩
    rw [hsolutions, hlen, UInt8.ofNat_toNat, UInt8.ofNat_toNat]

end

end Reddcoin
