import Reddcoin.Coins.ScriptCompressor
import Reddcoin.Script.OutputGrammar

/-!
# Destinations

`ExtractDestination`, `GetScriptForDestination` and `GetScriptForMultisig` of `script/standard.cpp`: the scripts the
wallet writes, and whom a script pays.
-/

namespace Reddcoin

/-- A `uint160` by its bytes. -/
structure UInt160 where
  bytes : List UInt8
  size : bytes.length = 20
deriving DecidableEq

/-- The constructor of `base_uint` from a vector. -/
def UInt160.ofVector (vch : List UInt8) : Except String UInt160 :=
  if size : vch.length = 20 then .ok { bytes := vch, size := size }
  else .error "Converting vector of wrong size to base_uint"

/-- `CTxDestination`. -/
inductive TxDestination where
  | noDestination
  | keyID (id : UInt160)
  | scriptID (id : UInt160)
deriving DecidableEq

/-- `ExtractDestination`: the address, or `none` where it returns false. -/
def extractDestination (options : SolverOptions) (hash160 : List UInt8 → UInt160) (scriptPubKey : CScript) :
    Except String (Option TxDestination) := do
  let solved := solver options scriptPubKey
  if !solved.found then return none
  else
    match solved.typeRet with
    | .pubkey =>
      let pubKey := CPubKey.set (solved.vSolutions.headD [])
      if pubKey.length = 0 then return none
      else return some (.keyID (hash160 pubKey))
    | .pubkeyhash => return some (.keyID (← UInt160.ofVector (solved.vSolutions.headD [])))
    | .scripthash => return some (.scriptID (← UInt160.ofVector (solved.vSolutions.headD [])))
    | _ => return none

/-- `GetScriptForDestination`. -/
def getScriptForDestination : TxDestination → CScript
  | .noDestination => []
  | .keyID keyID => [0x76, 0xa9] ++ pushScript keyID.bytes ++ [0x88, 0xac]
  | .scriptID scriptID => [0xa9] ++ pushScript scriptID.bytes ++ [0x87]

/-- `CScript::EncodeOP_N`; `none` when its assertion fails. -/
def encodeOP_N (n : Int) : Option UInt8 :=
  if 0 ≤ n ∧ n ≤ 16 then some (if n = 0 then 0 else UInt8.ofNat (OP_1 + n.toNat - 1)) else none

/-- `GetScriptForMultisig`.  The number of keys is passed on as an `int`. -/
def getScriptForMultisig (nRequired : Int) (keys : List (List UInt8)) : Option CScript := do
  let m ← encodeOP_N nRequired
  let n ← encodeOP_N (Int.bmod keys.length (2 ^ 32))
  return [m] ++ pushScripts keys ++ [n, 0xae]

variable {options : SolverOptions}

/-- Who is paid by a standard output. -/
theorem extractDestination_pubkeyhash (hash160 : List UInt8 → UInt160) {script : CScript} (id : UInt160)
    (h : StandardOutput options .pubkeyhash script [id.bytes]) :
    extractDestination options hash160 script = .ok (some (.keyID id)) := by
  have hid : UInt160.ofVector id.bytes = .ok id := dif_pos id.size
  unfold extractDestination
  rw [solver_complete h]
  show (do return some (TxDestination.keyID (← UInt160.ofVector id.bytes))) = _
  rw [hid]
  rfl

theorem extractDestination_scripthash (hash160 : List UInt8 → UInt160) {script : CScript} (id : UInt160)
    (h : StandardOutput options .scripthash script [id.bytes]) :
    extractDestination options hash160 script = .ok (some (.scriptID id)) := by
  have hid : UInt160.ofVector id.bytes = .ok id := dif_pos id.size
  unfold extractDestination
  rw [solver_complete h]
  show (do return some (TxDestination.scriptID (← UInt160.ofVector id.bytes))) = _
  rw [hid]
  rfl

/-- The script of a destination pays it. -/
theorem extract_getScript (hash160 : List UInt8 → UInt160) (d : TxDestination) (hd : d ≠ .noDestination) :
    extractDestination options hash160 (getScriptForDestination d) = .ok (some d) := by
  cases d with
  | noDestination => exact absurd rfl hd
  | keyID id =>
    have hlen := id.size
    exact extractDestination_pubkeyhash hash160 id (.pubkeyhash (pushOf_pushScript (by omega)) hlen)
  | scriptID id =>
    have hpush : pushScript id.bytes = 0x14 :: id.bytes := by
      unfold pushScript
      rw [if_pos (by rw [id.size]; decide), id.size]
      rfl
    have hscript : getScriptForDestination (.scriptID id) = [0xa9, 0x14] ++ id.bytes ++ [0x87] := by
      show [0xa9] ++ pushScript id.bytes ++ [0x87] = _
      rw [hpush]
      rfl
    rw [hscript]
    exact extractDestination_scripthash hash160 id (.scripthash id.size)

theorem encodeOP_N_small {n : Nat} (hpos : 1 ≤ n) (hle : n ≤ 16) : encodeOP_N n = some (opNumber n) := by
  have hrange : (0 : Int) ≤ n ∧ (n : Int) ≤ 16 := by omega
  have hne : (n : Int) ≠ 0 := by omega
  have hnat : OP_1 + (n : Int).toNat - 1 = OP_1 - 1 + n := by
    have hone : OP_1 = 0x51 := rfl
    omega
  rw [encodeOP_N, if_pos hrange, if_neg hne, hnat]
  rfl

theorem pushesOf_pushScripts {keys : List (List UInt8)} (h : ∀ key ∈ keys, key.length < 2 ^ 32) :
    PushesOf keys (pushScripts keys) := by
  induction keys with
  | nil => exact .nil
  | cons key keys ih =>
    have hrest := ih fun k hk => h k (List.mem_cons_of_mem _ hk)
    exact .cons (pushOf_pushScript (h key List.mem_cons_self)) hrest

/-- The script for up to 16 keys is a multisignature output with these. -/
theorem getScriptForMultisig_standard {m : Nat} {keys : List (List UInt8)} (hrequired : 1 ≤ m ∧ m ≤ keys.length)
    (hfew : keys.length ≤ 16) (hsized : ∀ key ∈ keys, isKeySized key) :
    ∃ script, getScriptForMultisig m keys = some script ∧
      StandardOutput options .multisig script ([UInt8.ofNat m] :: keys ++ [[UInt8.ofNat keys.length]]) := by
  have hmod : Int.bmod keys.length (2 ^ 32) = keys.length := Int.bmod_eq_of_le (by omega) (by omega)
  have hshort : ∀ key ∈ keys, key.length < 2 ^ 32 := by
    intro key hkey
    have hsize := hsized key hkey
    simp only [isKeySized, Bool.and_eq_true, decide_eq_true_eq] at hsize
    omega
  refine ⟨_, ?_, .multisig (pushesOf_pushScripts hshort) hsized hrequired hfew⟩
  rw [getScriptForMultisig, encodeOP_N_small hrequired.1 (by omega), hmod, encodeOP_N_small (by omega) hfew]
  rfl

/-- `Solver` ends, and finds the standard outputs with their parts.  The scripts the wallet writes are found as what
they were written for. -/
theorem solver_standardOutputs (options : SolverOptions) (hash160 : List UInt8 → UInt160) :
    (∀ script, timedSolver options script = some (solver options script)) ∧
      (∀ script typeRet vSolutions, ¬ StrayReturn script →
        (solver options script = { found := true, typeRet := typeRet, vSolutions := vSolutions } ↔
          StandardOutput options typeRet script vSolutions)) ∧
      (∀ d, d ≠ .noDestination → extractDestination options hash160 (getScriptForDestination d) = .ok (some d)) ∧
      ∀ (m : Nat) (keys : List (List UInt8)), 1 ≤ m → m ≤ keys.length → keys.length ≤ 16 →
        (∀ key ∈ keys, key.length = 33 ∨ key.length = 65) → ∃ script, getScriptForMultisig m keys = some script ∧
            solver options script =
              { found := true, typeRet := .multisig
                vSolutions := [UInt8.ofNat m] :: keys ++ [[UInt8.ofNat keys.length]] } := by
  refine ⟨timedSolver_eq options, ?_, extract_getScript hash160, ?_⟩
  · intro script typeRet vSolutions hstray
    constructor
    · intro h
      rcases solver_sound h with hstandard | ⟨-, -, hreturn⟩
      · exact hstandard
      · exact absurd hreturn hstray
    · exact solver_complete
  · intro m keys hpos hle hfew hkeys
    have hsized : ∀ key ∈ keys, isKeySized key = true := by
      intro key hkey
      have hlen := hkeys key hkey
      simp only [isKeySized, Bool.and_eq_true, decide_eq_true_eq]
      omega
    obtain ⟨script, hscript, hstandard⟩ := getScriptForMultisig_standard ⟨hpos, hle⟩ hfew hsized
    exact ⟨script, hscript, solver_complete hstandard⟩

/-- The theorem at a script of one signature by one key, and at a script of one byte. -/
theorem solver_standardOutputs_example :
    (∃ script, getScriptForMultisig (1 : Nat) [List.replicate 33 2] = some script ∧
      solver { datacarrier := true, nMaxDatacarrierBytes := 80 } script =
        { found := true, typeRet := .multisig, vSolutions := [[1], List.replicate 33 2, [1]] }) ∧
      (solver { datacarrier := true, nMaxDatacarrierBytes := 80 } [0x6a] =
          { found := true, typeRet := .nulldata, vSolutions := [] } ↔
        StandardOutput { datacarrier := true, nMaxDatacarrierBytes := 80 } .nulldata [0x6a] []) := by
  obtain ⟨-, hiff, -, hmultisig⟩ := solver_standardOutputs { datacarrier := true, nMaxDatacarrierBytes := 80 }
    fun _ => { bytes := List.replicate 20 0, size := rfl }
  refine ⟨hmultisig 1 [List.replicate 33 2] (by decide) (by decide) (by decide) ?_, hiff _ _ _ ?_⟩
  · intro key hkey
    rw [List.mem_singleton.mp hkey]
    exact .inl rfl
  · rintro ⟨b, -, h⟩
    cases h

/-- Data carried by an output is not among its parts, and `-datacarrier=0` makes the output nonstandard. -/
theorem solver_carried_data :
    solver { datacarrier := true, nMaxDatacarrierBytes := 80 } [0x6a, 0x01, 0x2a] =
        { found := true, typeRet := .nulldata, vSolutions := [] } ∧
      PushOf [0x2a] [0x01, 0x2a] ∧
      solver { datacarrier := false, nMaxDatacarrierBytes := 80 } [0x6a, 0x01, 0x2a] =
        { found := false, typeRet := .nonstandard, vSolutions := [] } :=
  ⟨by decide, .direct (by decide), by decide⟩

end Reddcoin
