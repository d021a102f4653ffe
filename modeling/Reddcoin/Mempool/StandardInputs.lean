import Reddcoin.Lib.Verdicts
import Reddcoin.Script.CombineSignatures

/-!
# Standard inputs

`AreInputsStandard`: relay mitigates scriptSigs with extra data stuffed into them and pay-to-script-hash scripts with
a crazy number of signature operations.
-/

namespace Reddcoin

def MAX_P2SH_SIGOPS : Nat := 15

/-- `ScriptSigArgsExpected`. -/
def scriptSigArgsExpected (t : TxnOutType) (vSolutions : List (List UInt8)) : Int :=
  match t with
  | .nonstandard | .nulldata => -1
  | .pubkey => 1
  | .pubkeyhash => 2
  | .multisig =>
    match vSolutions with
    | (m :: _) :: _ => m.toNat + 1
    | _ => -1
  | .scripthash => 1

section

variable (H : ScriptHashes) (options : SolverOptions)

/-- The body of the loop of `AreInputsStandard`, for an input with the given script to spend.  What is returned there
is an error here. -/
def checkInputStandard (prevScript scriptSig : CScript) : Except Bool Unit :=
  let solved := solver options prevScript
  let nArgsExpected := scriptSigArgsExpected solved.typeRet solved.vSolutions
  if !solved.found then throw false
  else if nArgsExpected < 0 then throw false
  else
    match evalScript H 0 baseSignatureChecker [] scriptSig with
    | .error _ => throw false
    | .ok stack =>
      if solved.typeRet = .scripthash then
        match stack with
        | [] => throw false
        | subscript :: _ =>
          let solved2 := solver options subscript
          let tmpExpected := scriptSigArgsExpected solved2.typeRet solved2.vSolutions
          if solved2.found then
            if tmpExpected < 0 then throw false
            else if (stack.length : Int) ≠ nArgsExpected + tmpExpected then throw false
            else pure ()
          else throw (decide (getSigOpCount true subscript ≤ MAX_P2SH_SIGOPS))
      else if (stack.length : Int) ≠ nArgsExpected then throw false
      else pure ()

/-- The loop of `AreInputsStandard`; `none` when the assertion of `GetOutputFor` fails. -/
def inputsStandardLoop (mapInputs : CoinsView) : List CTxIn → Option Bool
  | [] => some true
  | txin :: rest => do
    let prev ← getOutputFor mapInputs txin
    match checkInputStandard H options prev.scriptPubKey txin.scriptSig with
    | .error verdict => return verdict
    | .ok () => inputsStandardLoop mapInputs rest

/-- `AreInputsStandard`. -/
def areInputsStandard (tx : CTransaction) (mapInputs : CoinsView) : Option Bool :=
  if tx.isCoinBase then some true else inputsStandardLoop H options mapInputs tx.vin

/-! ## A single input -/

/-- The scriptSig leaves the elements that the output asks for. -/
inductive LeavesExpected (prevScript scriptSig : CScript) : Prop where
  | plain {stack : List Valtype} (found : (solver options prevScript).found = true)
      (direct : (solver options prevScript).typeRet ≠ .scripthash)
      (left : evalScript H 0 baseSignatureChecker [] scriptSig = .ok stack)
      (count : (stack.length : Int) =
        scriptSigArgsExpected (solver options prevScript).typeRet (solver options prevScript).vSolutions)
  | redeemed {subscript : Valtype} {rest : List Valtype} (found : (solver options prevScript).found = true)
      (scripthash : (solver options prevScript).typeRet = .scripthash)
      (left : evalScript H 0 baseSignatureChecker [] scriptSig = .ok (subscript :: rest))
      (recognised : (solver options subscript).found = true)
      (count : (rest.length : Int) =
        scriptSigArgsExpected (solver options subscript).typeRet (solver options subscript).vSolutions)

/-- The output is pay-to-script-hash of an unrecognised script with few signature operations. -/
structure UnrecognisedScript (prevScript scriptSig : CScript) : Prop where
  found : (solver options prevScript).found = true
  scripthash : (solver options prevScript).typeRet = .scripthash
  unrecognised : ∃ subscript rest, evalScript H 0 baseSignatureChecker [] scriptSig = .ok (subscript :: rest) ∧
    (solver options subscript).found = false ∧ getSigOpCount true subscript ≤ MAX_P2SH_SIGOPS

/-- An input that is standard on its own. -/
def StandardInput (prevScript scriptSig : CScript) : Prop :=
  LeavesExpected H options prevScript scriptSig ∨ UnrecognisedScript H options prevScript scriptSig

end

section

variable {H : ScriptHashes} {options : SolverOptions} {prevScript scriptSig : CScript}

/-- The body of the loop once the scriptSig is run. -/
theorem checkInputStandard_of_left {stack : List Valtype}
    (hfound : (solver options prevScript).found)
    (hleft : evalScript H 0 baseSignatureChecker [] scriptSig = .ok stack)
    (hdirect : (solver options prevScript).typeRet ≠ .scripthash) :
    checkInputStandard H options prevScript scriptSig = if (stack.length : Int) =
        scriptSigArgsExpected (solver options prevScript).typeRet (solver options prevScript).vSolutions then .ok ()
      else .error false := by
  unfold checkInputStandard
  simp only [hfound, hleft, hdirect, Bool.not_true, Bool.false_eq_true, if_false]
  split_ifs with hneg
  · omega
  · rfl
  · rfl
  · rfl
  · contradiction

theorem checkInputStandard_of_redeemed {subscript : Valtype} {rest : List Valtype}
    (hfound : (solver options prevScript).found) (hhash : (solver options prevScript).typeRet = .scripthash)
    (hleft : evalScript H 0 baseSignatureChecker [] scriptSig = .ok (subscript :: rest)) :
    checkInputStandard H options prevScript scriptSig = if (solver options subscript).found then
        if (rest.length : Int) =
          scriptSigArgsExpected (solver options subscript).typeRet (solver options subscript).vSolutions then .ok ()
        else .error false
      else .error (decide (getSigOpCount true subscript ≤ MAX_P2SH_SIGOPS)) := by
  have hargs : ∀ vSolutions, scriptSigArgsExpected .scripthash vSolutions = 1 := fun _ => rfl
  unfold checkInputStandard
  simp only [hfound, hleft, hhash, hargs, Bool.not_true, Bool.false_eq_true, if_false, if_true, List.length_cons]
  split_ifs with hneg hrecognised hsub hcount hcount'
  all_goals first | rfl | omega

theorem LeavesExpected.check (h : LeavesExpected H options prevScript scriptSig) :
    checkInputStandard H options prevScript scriptSig = .ok () := by
  cases h with
  | plain hfound hdirect hleft hcount => rw [checkInputStandard_of_left hfound hleft hdirect, if_pos hcount]
  | redeemed hfound hhash hleft hrecognised hcount =>
    rw [checkInputStandard_of_redeemed hfound hhash hleft, if_pos hrecognised, if_pos hcount]

theorem UnrecognisedScript.check (h : UnrecognisedScript H options prevScript scriptSig) :
    checkInputStandard H options prevScript scriptSig = .error true := by
  obtain ⟨subscript, rest, hleft, hunrecognised, hfew⟩ := h.unrecognised
  rw [checkInputStandard_of_redeemed h.found h.scripthash hleft, hunrecognised, if_neg Bool.false_ne_true,
    decide_eq_true hfew]

/-- An input that is not refused has one of the two forms. -/
theorem standardInput_of_check (h : checkInputStandard H options prevScript scriptSig ≠ .error false) :
    StandardInput H options prevScript scriptSig := by
  have hfound : (solver options prevScript).found = true := by
    by_contra hnot
    rw [Bool.not_eq_true] at hnot
    refine h ?_
    unfold checkInputStandard
    simp only [hnot, Bool.not_false, if_true]
    rfl
  cases hleft : evalScript H 0 baseSignatureChecker [] scriptSig with
  | error e =>
    refine absurd ?_ h
    unfold checkInputStandard
    simp only [hleft, ite_self]
    rfl
  | ok stack =>
    by_cases hhash : (solver options prevScript).typeRet = .scripthash
    · cases stack with
      | nil =>
        refine absurd ?_ h
        unfold checkInputStandard
        simp only [hleft, hhash, if_true, ite_self]
        rfl
      | cons subscript rest =>
        rw [checkInputStandard_of_redeemed hfound hhash hleft] at h
        split_ifs at h with hrecognised hcount
        · exact .inl (.redeemed hfound hhash hleft hrecognised hcount)
        · exact absurd rfl h
        · have hfew : getSigOpCount true subscript ≤ MAX_P2SH_SIGOPS := by
            by_contra hmany
            exact h (congrArg _ (decide_eq_false hmany))
          rw [Bool.not_eq_true] at hrecognised
          exact .inr ⟨hfound, hhash, subscript, rest, hleft, hrecognised, hfew⟩
    · rw [checkInputStandard_of_left hfound hleft hhash] at h
      split_ifs at h with hcount
      · exact .inl (.plain hfound hhash hleft hcount)
      · exact absurd rfl h

/-- The body refuses exactly the inputs that are not standard. -/
theorem checkInputStandard_refuses :
    checkInputStandard H options prevScript scriptSig ≠ .error false ↔
      StandardInput H options prevScript scriptSig := by
  refine ⟨standardInput_of_check, ?_⟩
  rintro (hleaves | hunrecognised) hcheck
  · rw [hleaves.check] at hcheck
    cases hcheck
  · rw [hunrecognised.check] at hcheck
    cases hcheck

/-- It answers for all inputs when the script is unrecognised. -/
theorem checkInputStandard_accepts :
    checkInputStandard H options prevScript scriptSig = .error true ↔
      UnrecognisedScript H options prevScript scriptSig := by
  refine ⟨fun hcheck => ?_, UnrecognisedScript.check⟩
  have hstandard : StandardInput H options prevScript scriptSig := by
    refine standardInput_of_check fun hrefuse => ?_
    rw [hcheck] at hrefuse
    cases hrefuse
  rcases hstandard with hleaves | hunrecognised
  · rw [hleaves.check] at hcheck
    cases hcheck
  · exact hunrecognised

end

/-! ## All inputs -/

section

variable (H : ScriptHashes) (options : SolverOptions) (mapInputs : CoinsView)

/-- The input spends an output that is there, and its scripts have the property. -/
def OfInput (P : CScript → CScript → Prop) (txin : CTxIn) : Prop :=
  ∃ prev, getOutputFor mapInputs txin = some prev ∧ P prev.scriptPubKey txin.scriptSig

/-- The body of the loop for an input whose output is there. -/
def checkTxIn (txin : CTxIn) : Except Bool Unit :=
  match getOutputFor mapInputs txin with
  | none => .ok ()
  | some prev => checkInputStandard H options prev.scriptPubKey txin.scriptSig

variable {H options mapInputs} {txin : CTxIn} {vin : List CTxIn}

theorem inputsStandardLoop_eq (h : ∀ txin ∈ vin, (getOutputFor mapInputs txin).isSome) :
    inputsStandardLoop H options mapInputs vin = some (Verdicts.verdict (checkTxIn H options mapInputs) vin) := by
  induction vin with
  | nil => rfl
  | cons txin vin ih =>
    have hrest := ih fun t ht => h t (List.mem_cons_of_mem txin ht)
    obtain ⟨prev, hprev⟩ := Option.isSome_iff_exists.mp (h txin List.mem_cons_self)
    rw [inputsStandardLoop, Verdicts.verdict, checkTxIn, hprev]
    simp only [Option.bind_eq_bind, Option.bind_some]
    cases checkInputStandard H options prev.scriptPubKey txin.scriptSig with
    | error verdict => rfl
    | ok => exact hrest

theorem ofInput_iff {P : CScript → CScript → Prop} {prev : CTxOut} (h : getOutputFor mapInputs txin = some prev) :
    OfInput mapInputs P txin ↔ P prev.scriptPubKey txin.scriptSig := by
  constructor
  · rintro ⟨prev', hprev', hP⟩
    cases h.symm.trans hprev'
    exact hP
  · exact fun hP => ⟨prev, h, hP⟩

theorem checkTxIn_refuses (h : (getOutputFor mapInputs txin).isSome) :
    checkTxIn H options mapInputs txin ≠ .error false ↔ OfInput mapInputs (StandardInput H options) txin := by
  obtain ⟨prev, hprev⟩ := Option.isSome_iff_exists.mp h
  rw [ofInput_iff hprev, checkTxIn, hprev]
  exact checkInputStandard_refuses

theorem checkTxIn_accepts (h : (getOutputFor mapInputs txin).isSome) :
    checkTxIn H options mapInputs txin = .error true ↔ OfInput mapInputs (UnrecognisedScript H options) txin := by
  obtain ⟨prev, hprev⟩ := Option.isSome_iff_exists.mp h
  rw [ofInput_iff hprev, checkTxIn, hprev]
  exact checkInputStandard_accepts

theorem isCoinBase_perm {tx : CTransaction} {vin : List CTxIn} (h : vin.Perm tx.vin) :
    ({ tx with vin := vin } : CTransaction).isCoinBase = tx.isCoinBase := by
  by_cases hone : tx.vin.length = 1
  · obtain ⟨txin, htxin⟩ := List.length_eq_one_iff.mp hone
    rw [htxin, List.perm_singleton] at h
    rw [h, ← htxin]
  · have hother : vin.length ≠ 1 := by
      rw [h.length_eq]
      exact hone
    have hnot : ∀ t : CTransaction, t.vin.length ≠ 1 → t.isCoinBase = false := by
      intro t ht
      unfold CTransaction.isCoinBase
      cases hvin : t.vin with
      | nil => rfl
      | cons txin rest =>
        cases rest with
        | nil =>
          rw [hvin] at ht
          exact absurd rfl ht
        | cons => rfl
    rw [hnot tx hone, hnot _ hother]

/-- `AreInputsStandard` is true exactly for transactions all of whose inputs are standard, in any order of them,
unless there is one that is not besides one of an unrecognised script: that one answers for all. -/
theorem areInputsStandard_iff (H : ScriptHashes) (options : SolverOptions) (mapInputs : CoinsView)
    (tx : CTransaction) (hcoinbase : tx.isCoinBase = false)
    (havailable : ∀ txin ∈ tx.vin, (getOutputFor mapInputs txin).isSome) :
    ((areInputsStandard H options tx mapInputs = some true ↔
          ∀ txin ∈ tx.vin, OfInput mapInputs (StandardInput H options) txin) ∧
        ∀ vin, vin.Perm tx.vin →
          areInputsStandard H options { tx with vin := vin } mapInputs = areInputsStandard H options tx mapInputs) ↔
      (∀ txin ∈ tx.vin, OfInput mapInputs (StandardInput H options) txin) ∨
        ∀ txin ∈ tx.vin, ¬ OfInput mapInputs (UnrecognisedScript H options) txin := by
  have hloop : ∀ vin, vin.Perm tx.vin → areInputsStandard H options { tx with vin := vin } mapInputs =
      some (Verdicts.verdict (checkTxIn H options mapInputs) vin) := by
    intro vin hperm
    rw [areInputsStandard, isCoinBase_perm hperm, hcoinbase, if_neg Bool.false_ne_true]
    exact inputsStandardLoop_eq fun txin htxin => havailable txin (hperm.mem_iff.mp htxin)
  have hstandard : (∀ txin ∈ tx.vin, OfInput mapInputs (StandardInput H options) txin) ↔
      ∀ txin ∈ tx.vin, checkTxIn H options mapInputs txin ≠ .error false :=
    forall₂_congr fun txin htxin => (checkTxIn_refuses (havailable txin htxin)).symm
  have hnone : (∀ txin ∈ tx.vin, ¬ OfInput mapInputs (UnrecognisedScript H options) txin) ↔
      ∀ txin ∈ tx.vin, checkTxIn H options mapInputs txin ≠ .error true :=
    forall₂_congr fun txin htxin => not_congr (checkTxIn_accepts (havailable txin htxin)).symm
  have hperms : (∀ vin, vin.Perm tx.vin →
        areInputsStandard H options { tx with vin := vin } mapInputs = areInputsStandard H options tx mapInputs) ↔
      ∀ vin, vin.Perm tx.vin → Verdicts.verdict (checkTxIn H options mapInputs) vin =
        Verdicts.verdict (checkTxIn H options mapInputs) tx.vin := by
    refine forall₂_congr fun vin hperm => ?_
    rw [hloop vin hperm, hloop tx.vin (List.Perm.refl _), Option.some.injEq]
  rw [hperms, hloop tx.vin (List.Perm.refl _), Option.some.injEq, hstandard, hnone]
  exact Verdicts.verdict_conjunction_iff

end

namespace Example

/-- One output pays to the hash of an unrecognised script, and one is nonstandard. -/
def relayedCoins : CoinsView :=
  .over (fun hash => if hash = 1 then some { CCoins.new with
    vout := [{ nValue := 1, scriptPubKey := [0xa9, 0x14] ++ List.replicate 20 7 ++ [0x87] },
      { nValue := 1, scriptPubKey := [0x51] }] } else none) 0

/-- The scriptSig pushes the script that is spent. -/
def unrecognisedInput : CTxIn :=
  { prevout := { hash := 1, n := 0 }, scriptSig := [0x01, 0x51], nSequence := 0 }

def nonstandardInput : CTxIn :=
  { prevout := { hash := 1, n := 1 }, scriptSig := [], nSequence := 0 }

def relayedTx (vin : List CTxIn) : CTransaction :=
  { nVersion := 2, vin := vin, vout := [], nLockTime := 0, nTime := 0 }

def relayOptions : SolverOptions :=
  { datacarrier := true, nMaxDatacarrierBytes := 80 }

end Example

open Example

/-- For one input of an unrecognised script the verdict is the one for the input. -/
theorem areInputsStandard_iff_example :
    (areInputsStandard scriptHashes relayOptions (relayedTx [unrecognisedInput])
          relayedCoins = some true ↔
        ∀ txin ∈ [unrecognisedInput], OfInput relayedCoins (StandardInput scriptHashes relayOptions) txin) ∧
      ∀ vin, vin.Perm [unrecognisedInput] → areInputsStandard scriptHashes relayOptions (relayedTx vin) relayedCoins =
          areInputsStandard scriptHashes relayOptions
            (relayedTx [unrecognisedInput]) relayedCoins := by
  refine (areInputsStandard_iff scriptHashes relayOptions relayedCoins
    (relayedTx [unrecognisedInput]) rfl (by decide)).mpr (.inl fun txin htxin => ?_)
  rw [List.mem_singleton.mp htxin]
  exact ⟨_, rfl, .inr ⟨by decide, by decide, [0x51], [], by rfl, by decide, by decide⟩⟩

/-- The transaction is standard with its nonstandard input behind the other one, and nonstandard with it in front. -/
theorem areInputsStandard_order :
    areInputsStandard scriptHashes relayOptions
        (relayedTx [unrecognisedInput, nonstandardInput]) relayedCoins = some true ∧
      areInputsStandard scriptHashes relayOptions
        (relayedTx [nonstandardInput, unrecognisedInput]) relayedCoins = some false ∧
      ¬ OfInput relayedCoins (StandardInput scriptHashes relayOptions)
        nonstandardInput := by
  refine ⟨by rfl, by rfl, ?_⟩
  rw [← checkTxIn_refuses (by rfl)]
  exact fun h => h (by rfl)

end Reddcoin
