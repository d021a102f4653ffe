import Reddcoin.Script.CombineSignatures
import Reddcoin.Script.MultisigRun
import Reddcoin.Script.StackLimits

/-!
# The combined signatures of a multisignature output

The signatures of both inputs are matched to the keys and put in their order, as many as are asked for.
-/

namespace Reddcoin

open List

open StackMachine (Short getvch_short short_cons)

/-! ## The stack that is left of a push-only script -/

section

variable {H : ScriptHashes} {flags : Nat} {checker : BaseSignatureChecker} {s s' : EvalState} {op : ScriptOp}
    {allsigs : List Valtype}

theorem execute_short (hle : op.opcode ≤ OP_16) (hvch : op.vch.length ≤ MAX_SCRIPT_ELEMENT_SIZE)
    (hexec : s.vfExec = []) (hshort : Short s.stack) (h : execute H flags checker op s = .ok s') :
    s'.vfExec = [] ∧ Short s'.stack := by
  have hfexec : s.fExec = true := by
    unfold EvalState.fExec
    rw [hexec]
    rfl
  unfold execute at h
  rw [hfexec, Bool.true_and, Bool.true_or] at h
  split_ifs at h with hpush htrue
  · simp only [check_seq_ok, check_pure_ok] at h
    obtain ⟨-, rfl⟩ := h
    exact ⟨hexec, short_cons.mpr ⟨hvch, hshort⟩⟩
  · split at h
    · cases h
    · next case hcase =>
        obtain ⟨-, rfl⟩ := opcodeType_le hle hcase
        cases h
        exact ⟨hexec, short_cons.mpr ⟨getvch_short _, hshort⟩⟩
  · exact absurd rfl htrue

theorem stackAtStop_short (hle : op.opcode ≤ OP_16) (hexec : s.vfExec = []) (hshort : Short s.stack) :
    Short (stackAtStop H flags checker op s) := by
  unfold stackAtStop
  split_ifs with hlong
  · exact hshort
  · cases hrun : execute H flags checker op s with
    | error e => exact hshort
    | ok s' => exact (execute_short hle (Nat.not_lt.mp hlong) hexec hshort hrun).2

theorem stackLeftLoop_pushOnly {turns : Nat} {pc : CScript} (hpush : isPushOnlyLoop turns pc)
    (hexec : s.vfExec = []) (hshort : Short s.stack) :
    ∃ stack, stackLeftLoop H flags checker turns pc s = some stack ∧ Short stack := by
  induction turns generalizing pc s with
  | zero => exact ⟨s.stack, rfl, hshort⟩
  | succ turns ih =>
    unfold isPushOnlyLoop at hpush
    unfold stackLeftLoop
    split_ifs at hpush ⊢ with hend
    · exact ⟨s.stack, rfl, hshort⟩
    · cases hread : getOp2 pc with
      | none => exact ⟨s.stack, rfl, hshort⟩
      | some op =>
        rw [hread] at hpush
        dsimp only at hpush ⊢
        split_ifs at hpush with hlarge
        have hle := Nat.not_lt.mp hlarge
        cases hone : evalInstruction H flags checker op s with
        | error e =>
          dsimp only
          rw [if_pos hle]
          exact ⟨_, rfl, stackAtStop_short hle hexec hshort⟩
        | ok s' =>
          unfold evalInstruction at hone
          simp only [check_seq_ok, if_neg hlarge, failIf_eq_ok, decide_eq_false_iff_not] at hone
          obtain ⟨s₁, hrun, hend⟩ := check_bind_ok.mp hone.2.2.2
          simp only [check_seq_ok, check_pure_ok] at hend
          obtain ⟨-, rfl⟩ := hend
          obtain ⟨hexec', hshort'⟩ := execute_short hle (Nat.not_lt.mp hone.1) hexec hshort hrun
          exact ih hpush hexec' hshort'

/-- `EvalScript` leaves short elements of a push-only script, wherever it stops. -/
theorem stackLeft_pushOnly {script : CScript} (hpush : isPushOnly script) :
    ∃ stack, stackLeft H flags checker script = some stack ∧ Short stack := by
  unfold stackLeft
  split_ifs
  · exact ⟨[], rfl, StackMachine.short_nil⟩
  · have hstart : ({ stack := [], altstack := [], vfExec := [], nOpCount := 0, pbegincodehash := script } :
        EvalState).vfExec = [] := rfl
    obtain ⟨stack, hloop, hshort⟩ := stackLeftLoop_pushOnly hpush hstart StackMachine.short_nil
    refine ⟨stack.reverse, by rw [hloop, Option.map_some], fun vch hvch => ?_⟩
    exact hshort vch (mem_reverse.mp hvch)

end

/-! ## The signatures, matched to the keys -/

instance : Std.Total BytesLe where
  total a b := le_total (a.map UInt8.toNat) (b.map UInt8.toNat)

instance : IsTrans Valtype BytesLe where
  trans a b c hab hbc := by
    have hab' : a.map UInt8.toNat ≤ b.map UInt8.toNat := hab
    exact hab'.trans hbc

instance : Std.Antisymm BytesLe where
  antisymm a b hab hba := by
    have heq : a.map UInt8.toNat = b.map UInt8.toNat := le_antisymm hab hba
    exact map_injective_iff.mpr (fun x y h => UInt8.toNat_inj.mp h) heq

section

variable {sigs1 sigs2 pubkeys l : List Valtype} {sigs : List (Valtype × Valtype)} {sig key : Valtype}
  {valid : Valtype → Valtype → Bool}

theorem mem_allSigs : sig ∈ allSigs sigs1 sigs2 ↔ sig ∈ sigs1 ++ sigs2 ∧ sig ≠ [] := by
  unfold allSigs
  rw [OrderedSet.mem_ofList, mem_filter, Bool.not_eq_true', isEmpty_eq_false_iff]

/-- It does not matter whose signatures come first. -/
theorem allSigs_comm (sigs1 sigs2 : List Valtype) : allSigs sigs1 sigs2 = allSigs sigs2 sigs1 := by
  refine OrderedSet.ofList_congr fun sig => ?_
  rw [mem_filter, mem_filter, mem_append, mem_append]
  rw [or_comm]

/-- A signature is valid for one of the keys at most. -/
def OneKey (valid : Valtype → Valtype → Bool) (pubkeys : List Valtype) (sig : Valtype) : Prop :=
  ∀ key ∈ pubkeys, ∀ other ∈ pubkeys, valid sig key = true → valid sig other = true → key = other

/-- A signature goes to the key it is valid for, unless that key has one. -/
theorem lookup_matchSig (hone : OneKey valid pubkeys sig) (hkey : key ∈ pubkeys) :
    (matchSig valid pubkeys sigs sig).lookup key =
      (sigs.lookup key).or (if valid sig key = true then some sig else none) := by
  unfold matchSig
  cases hfind : pubkeys.find? fun pubkey => !(sigs.lookup pubkey).isSome && valid sig pubkey with
  | none =>
    have hnone := find?_eq_none.mp hfind key hkey
    cases hlookup : sigs.lookup key with
    | some first => rfl
    | none =>
      rw [hlookup] at hnone
      rw [if_neg fun hvalid => hnone (by rw [hvalid]; rfl)]
      rfl
  | some pubkey =>
    have hmem := mem_of_find?_eq_some hfind
    have hfree := find?_some hfind
    rw [Bool.and_eq_true, Bool.not_eq_true', Option.isSome_eq_false_iff, Option.isNone_iff_eq_none] at hfree
    by_cases heq : key = pubkey
    · subst heq
      rw [lookup_cons_self, hfree.1, if_pos hfree.2]
      rfl
    · have hinvalid : ¬ valid sig key = true := fun hvalid => heq (hone key hkey pubkey hmem hvalid hfree.2)
      dsimp only
      rw [lookup_cons, beq_false_of_ne heq, if_neg hinvalid, Option.or_none]

theorem lookup_foldl_matchSig (hone : ∀ sig ∈ l, OneKey valid pubkeys sig) (hkey : key ∈ pubkeys) :
    (l.foldl (matchSig valid pubkeys) sigs).lookup key = (sigs.lookup key).or (l.find? fun sig => valid sig key) := by
  induction l generalizing sigs with
  | nil =>
    rw [foldl_nil, find?_nil, Option.or_none]
  | cons sig l ih =>
    rw [foldl_cons, ih fun sig hsig => hone sig (mem_cons_of_mem _ hsig),
      lookup_matchSig (hone sig mem_cons_self) hkey, Option.or_assoc, find?_cons]
    cases valid sig key
    · rfl
    · rfl

/-- Each key gets the least signature that is valid for it. -/
theorem lookup_matchSigs (hone : ∀ sig ∈ l, OneKey valid pubkeys sig) (hkey : key ∈ pubkeys) :
    (matchSigs valid pubkeys l).lookup key = l.find? fun sig => valid sig key :=
  lookup_foldl_matchSig hone hkey

theorem pushScripts_append (a b : List Valtype) : pushScripts (a ++ b) = pushScripts a ++ pushScripts b :=
  flatMap_append

theorem pushScripts_cons (b : Valtype) (values : List Valtype) :
    pushScripts (b :: values) = pushScript b ++ pushScripts values :=
  flatMap_cons

theorem mergeLoop_eq (nSigsRequired nSigsHave : Nat) (result : CScript) :
    mergeLoop nSigsRequired sigs pubkeys nSigsHave result =
      (nSigsHave + ((pubkeys.filterMap (List.lookup · sigs)).take (nSigsRequired - nSigsHave)).length,
        result ++ pushScripts ((pubkeys.filterMap (List.lookup · sigs)).take (nSigsRequired - nSigsHave))) := by
  induction pubkeys generalizing nSigsHave result with
  | nil => simp [mergeLoop, pushScripts]
  | cons pubkey pubkeys ih =>
    unfold mergeLoop
    by_cases hdone : nSigsRequired ≤ nSigsHave
    · rw [if_pos hdone, Nat.sub_eq_zero_of_le hdone]
      simp [pushScripts]
    · rw [if_neg hdone, filterMap_cons]
      cases hlookup : sigs.lookup pubkey with
      | none => exact ih nSigsHave result
      | some sig =>
        have hmore : nSigsRequired - nSigsHave = nSigsRequired - (nSigsHave + 1) + 1 := by omega
        dsimp only
        rw [ih, hmore, take_succ_cons, length_cons, pushScripts_cons, ← append_assoc]
        congr 1
        omega

/-- The signatures of the keys that have one, as many as are asked for. -/
def merged (valid : Valtype → Valtype → Bool) (m : Nat) (pubkeys allsigs : List Valtype) : List Valtype :=
  (pubkeys.filterMap fun key => allsigs.find? fun sig => valid sig key).take m

theorem filterMap_matchSigs (hone : ∀ sig ∈ l, OneKey valid pubkeys sig) :
    pubkeys.filterMap (List.lookup · (matchSigs valid pubkeys l)) =
      pubkeys.filterMap fun key => l.find? fun sig => valid sig key :=
  filterMap_congr fun _ hkey => lookup_matchSigs hone hkey

end

section

variable {S : SignatureCrypto} {txTo : CTransaction} {nIn : Nat} {script : CScript} {keys sigs1 sigs2 : List Valtype}
  {m n : UInt8}

/-- What `CombineMultisig` pushes: the element that is not used, the signatures and the placeholders. -/
def combinedValues (valid : Valtype → Valtype → Bool) (m : Nat) (keys allsigs : List Valtype) : List Valtype :=
  [] :: merged valid m keys allsigs ++ List.replicate (m - (merged valid m keys allsigs).length) []

theorem combineMultisig_eq
    (hone : ∀ sig ∈ allSigs sigs1 sigs2, OneKey (fun sig key => checkSig S txTo nIn sig key script) keys sig) :
    combineMultisig S txTo nIn script ([m] :: keys ++ [[n]]) sigs1 sigs2 =
      some (pushScripts (combinedValues (fun sig key => checkSig S txTo nIn sig key script) m.toNat keys
        (allSigs sigs1 sigs2))) := by
  have hlength : ([m] :: keys ++ [[n]]).length - 2 = keys.length := by
    rw [length_append, length_cons, length_singleton]
    omega
  have hmore : ¬ ([m] :: keys ++ [[n]]).length ≤ 1 := by
    rw [length_append, length_cons, length_singleton]
    omega
  have hpubkeys : (([m] :: keys ++ [[n]]).drop 1).take keys.length = keys := take_left' rfl
  unfold combineMultisig
  rw [if_neg hmore, hlength, hpubkeys]
  show some ((mergeLoop m.toNat _ keys 0 (pushScript [])).2 ++
    pushScripts (List.replicate (m.toNat - (mergeLoop m.toNat _ keys 0 (pushScript [])).1) [])) = _
  rw [mergeLoop_eq, filterMap_matchSigs hone, Nat.sub_zero, Nat.zero_add]
  unfold combinedValues merged
  rw [pushScripts_append, pushScripts_cons]

end

/-! ## Running the script on them -/

section

variable {valid : Valtype → Valtype → Bool} {keys allsigs : List Valtype} {m : Nat} {key : Valtype}

/-- The keys that one of the signatures is valid for. -/
def signed (valid : Valtype → Valtype → Bool) (keys sigs : List Valtype) : List Valtype :=
  keys.filter fun key => sigs.any fun sig => valid sig key

/-- The signature of a key. -/
def sigOf (valid : Valtype → Valtype → Bool) (allsigs : List Valtype) (key : Valtype) : Valtype :=
  (allsigs.find? fun sig => valid sig key).getD []

theorem sigOf_of_signed (hkey : key ∈ signed valid keys allsigs) :
    sigOf valid allsigs key ∈ allsigs ∧ valid (sigOf valid allsigs key) key = true := by
  have hany := (mem_filter.mp hkey).2
  unfold sigOf
  cases hfind : allsigs.find? fun sig => valid sig key with
  | none =>
    obtain ⟨sig, hsig, hvalid⟩ := any_eq_true.mp hany
    exact absurd hvalid (find?_eq_none.mp hfind sig hsig)
  | some sig =>
    have hvalid := find?_some hfind
    exact ⟨mem_of_find?_eq_some hfind, hvalid⟩

theorem filterMap_find (keys : List Valtype) :
    (keys.filterMap fun key => allsigs.find? fun sig => valid sig key) =
      (signed valid keys allsigs).map (sigOf valid allsigs) := by
  induction keys with
  | nil => rfl
  | cons key keys ih =>
    unfold signed at ih ⊢
    rw [filterMap_cons, filter_cons, ih]
    cases hfind : allsigs.find? fun sig => valid sig key with
    | none =>
      have hany : (allsigs.any fun sig => valid sig key) = false := by
        rw [any_eq_false]
        exact find?_eq_none.mp hfind
      rw [hany, if_neg Bool.false_ne_true]
    | some sig =>
      have hvalid := find?_some hfind
      have hany : (allsigs.any fun sig => valid sig key) = true :=
        any_eq_true.mpr ⟨sig, mem_of_find?_eq_some hfind, hvalid⟩
      have hsig : sigOf valid allsigs key = sig := by
        unfold sigOf
        rw [hfind]
        rfl
      rw [hany, if_pos rfl, map_cons, hsig]

theorem merged_eq : merged valid m keys allsigs = ((signed valid keys allsigs).take m).map (sigOf valid allsigs) := by
  unfold merged
  rw [filterMap_find, map_take]

theorem length_merged : (merged valid m keys allsigs).length = min m (signed valid keys allsigs).length := by
  rw [merged_eq, length_map, length_take]

/-- A merged signature is one of the signatures, valid for one of the keys. -/
theorem mem_merged {sig : Valtype} (hsig : sig ∈ merged valid m keys allsigs) :
    sig ∈ allsigs ∧ ∃ key ∈ keys, valid sig key = true := by
  rw [merged_eq] at hsig
  obtain ⟨key, hkey, rfl⟩ := mem_map.mp hsig
  have hsigned := mem_of_mem_take hkey
  obtain ⟨hmem, hvalid⟩ := sigOf_of_signed hsigned
  exact ⟨hmem, key, (mem_filter.mp hsigned).1, hvalid⟩

end

section

variable {H : ScriptHashes} {checker : BaseSignatureChecker} {script : CScript} {keys allsigs : List Valtype} {m : Nat}

/-- What is asked of the signatures: each is valid for one key at most, and none that is valid looks like a key. -/
structure Matching (valid : Valtype → Valtype → Bool) (keys sigs : List Valtype) : Prop where
  one : ∀ sig ∈ sigs, OneKey valid keys sig
  absent : ∀ sig ∈ sigs, ∀ key ∈ keys, valid sig key = true → sig ∉ keys

/-- The loop of `OP_CHECKMULTISIG` takes the signatures when there are enough of them. -/
theorem multiSigLoop_combined (hdistinct : keys.Nodup)
    (hmatching : Matching (fun sig key => checker.checkSig sig key script) keys allsigs)
    (hempty : ∀ key ∈ keys, checker.checkSig [] key script = false) :
    multiSigLoop SCRIPT_VERIFY_P2SH checker script
      (List.replicate (m - (merged (fun sig key => checker.checkSig sig key script) m keys allsigs).length) [] ++
        (merged (fun sig key => checker.checkSig sig key script) m keys allsigs).reverse) keys.reverse =
      .ok (decide (m ≤ (signed (fun sig key => checker.checkSig sig key script) keys allsigs).length)) := by
  have hlength := @length_merged (fun sig key => checker.checkSig sig key script) keys allsigs m
  by_cases henough : m ≤ (signed (fun sig key => checker.checkSig sig key script) keys allsigs).length
  · rw [hlength, Nat.min_eq_left henough, Nat.sub_self, replicate_zero, nil_append, merged_eq,
      ← map_reverse, decide_eq_true henough]
    have hsigned : ∀ key ∈ ((signed (fun sig key => checker.checkSig sig key script) keys allsigs).take m).reverse,
        key ∈ signed (fun sig key => checker.checkSig sig key script) keys allsigs :=
      fun key hkey => mem_of_mem_take (mem_reverse.mp hkey)
    refine multiSigLoop_picked ?_ ?_ ?_ (nodup_reverse.mpr hdistinct)
    · exact ((take_sublist _ _).trans filter_sublist).reverse
    · intro key hkey
      exact (sigOf_of_signed (hsigned key hkey)).2
    · intro key hkey other hother hcheck
      obtain ⟨hmem, hvalid⟩ := sigOf_of_signed (hsigned key hkey)
      have hkeys := (mem_filter.mp (hsigned key hkey)).1
      exact (hmatching.one _ hmem key hkeys other (mem_reverse.mp hother) hvalid hcheck).symm
  · obtain ⟨k, hk⟩ : ∃ k, m - (merged (fun sig key => checker.checkSig sig key script) m keys allsigs).length = k + 1 :=
      ⟨m - (merged (fun sig key => checker.checkSig sig key script) m keys allsigs).length - 1, by omega⟩
    rw [hk, replicate_succ, cons_append, decide_eq_false henough]
    exact multiSigLoop_placeholder fun key hkey => hempty key (mem_reverse.mp hkey)

theorem MultisigScript.nil_notMem (h : MultisigScript script m keys) : [] ∉ keys := by
  intro hmem
  have hsized := h.sized [] hmem
  cases hsized

/-- The script is true on the combined signatures when there are enough of them. -/
theorem MultisigScript.evalScript_combined (h : MultisigScript script m keys) (hdistinct : keys.Nodup)
    (hmatching : Matching (fun sig key => checker.checkSig sig key script) keys allsigs)
    (hempty : ∀ key ∈ keys, checker.checkSig [] key script = false) (hshort : Short allsigs) :
    evalScript H SCRIPT_VERIFY_P2SH checker
      (combinedValues (fun sig key => checker.checkSig sig key script) m keys allsigs).reverse script =
      .ok [ofBool (decide (m ≤ (signed (fun sig key => checker.checkSig sig key script) keys allsigs).length))] := by
  have hlength := @length_merged (fun sig key => checker.checkSig sig key script) keys allsigs m
  have hmax : MAX_SCRIPT_ELEMENT_SIZE = 520 := rfl
  have hreverse : (combinedValues (fun sig key => checker.checkSig sig key script) m keys allsigs).reverse =
      (List.replicate (m - (merged (fun sig key => checker.checkSig sig key script) m keys allsigs).length) [] ++
        (merged (fun sig key => checker.checkSig sig key script) m keys allsigs).reverse) ++ [[]] := by
    unfold combinedValues
    rw [reverse_append, reverse_cons, reverse_replicate, append_assoc]
  have hvalues : ∀ b ∈ List.replicate (m - (merged (fun sig key => checker.checkSig sig key script) m keys
      allsigs).length) [] ++ (merged (fun sig key => checker.checkSig sig key script) m keys allsigs).reverse,
      b.length < 2 ^ 32 ∧ b ∉ keys := by
    intro b hb
    rcases mem_append.mp hb with hplaceholder | hsig
    · obtain rfl := (mem_replicate.mp hplaceholder).2
      exact ⟨by decide, h.nil_notMem⟩
    · obtain ⟨hmem, key, hkey, hvalid⟩ := mem_merged (mem_reverse.mp hsig)
      have hb := hshort b hmem
      exact ⟨by omega, hmatching.absent b hmem key hkey hvalid⟩
  rw [hreverse]
  refine h.evalScript_eq ?_ (Nat.zero_le _) (fun b hb => (hvalues b hb).1) (fun b hb => (hvalues b hb).2)
    (multiSigLoop_combined hdistinct hmatching hempty)
  rw [length_append, length_replicate, length_reverse]
  omega

end

/-! ## Verifying the combined script -/

section

variable {H : ScriptHashes} {checker : BaseSignatureChecker} {scriptPubKey redeem : CScript} {values st : List Valtype}

theorem pushScripts_pushes_nil (hshort : Short values) : Pushes (pushScripts values) values [] := by
  have hmax : MAX_SCRIPT_ELEMENT_SIZE = 520 := rfl
  have hsmall : ∀ b ∈ values, b.length < 2 ^ 32 := by
    intro b hb
    have hlen := hshort b hb
    omega
  have hpushes := pushScripts_pushes hsmall []
  rw [append_nil] at hpushes
  exact hpushes

theorem isPushOnly_pushScripts (hshort : Short values) : isPushOnly (pushScripts values) = true :=
  (pushScripts_pushes_nil hshort).isPushOnly (Nat.le_refl _)

/-- A script that pushes a few values leaves them. -/
theorem evalScript_pushScripts (hshort : Short values) (hfew : values.length ≤ 19) :
    evalScript H SCRIPT_VERIFY_P2SH checker [] (pushScripts values) = .ok values.reverse := by
  have hlength := length_pushScripts_le hshort
  let s₀ : EvalState :=
    { stack := [], altstack := [], vfExec := [], nOpCount := 0, pbegincodehash := pushScripts values }
  have hstart : Plain s₀ (0 + values.length) := by
    refine ⟨rfl, rfl, ?_⟩
    show 0 + (0 + values.length) ≤ 1000
    omega
  have hflags : fRequireMinimal SCRIPT_VERIFY_P2SH = false := rfl
  have hrun := @evalFrom_pushes _ H _ checker _ _ _ _ (pushScripts_pushes_nil hshort) hstart hflags hshort
  unfold evalScript
  rw [decide_eq_false (by omega)]
  show (evalFrom H SCRIPT_VERIFY_P2SH checker (pushScripts values) _ >>= _) = _
  rw [hrun, append_nil]
  rfl

/-- An output that pays to a script hash has three instructions. -/
theorem payToScriptHash_eq (hform : isPayToScriptHash scriptPubKey) :
    ((scriptPubKey.drop 2).take 20).length = 20 ∧
      scriptPubKey = 0xa9 :: (pushScript ((scriptPubKey.drop 2).take 20) ++ [0x87]) := by
  obtain ⟨hash, hlength, rfl⟩ := isPayToScriptHash_iff.mp hform
  have hpush : pushScript hash = 0x14 :: hash := by
    unfold pushScript
    rw [hlength, if_pos (by decide)]
    rfl
  have hmiddle : (([0xa9, 0x14] ++ hash ++ [0x87]).drop 2).take 20 = hash := take_left' hlength
  rw [hmiddle, hpush]
  exact ⟨hlength, rfl⟩

/-- An output that pays to the hash of the script on top takes it away. -/
theorem evalScript_payToScriptHash (hform : isPayToScriptHash scriptPubKey)
    (hhash : (scriptPubKey.drop 2).take 20 = H.hash160 redeem) (hroom : st.length ≤ 900) :
    evalScript H SCRIPT_VERIFY_P2SH checker (redeem :: st) scriptPubKey = .ok (vchTrue :: st) := by
  obtain ⟨hlength, hparts⟩ := payToScriptHash_eq hform
  rw [hhash] at hlength hparts
  have hscript : ¬ 10000 < scriptPubKey.length := by
    simp only [isPayToScriptHash, Bool.and_eq_true, decide_eq_true_eq] at hform
    omega
  obtain ⟨opcode, hopcode, hpush⟩ := getOp2_pushScript (b := H.hash160 redeem) (by omega) [0x87]
  let s₀ : EvalState :=
    { stack := redeem :: st, altstack := [], vfExec := [], nOpCount := 0, pbegincodehash := scriptPubKey }
  let s₁ := ({ s₀ with nOpCount := 1 } : EvalState).withStack (H.hash160 redeem :: st)
  let s₂ := s₁.withStack (H.hash160 redeem :: s₁.stack)
  let s₃ := ({ s₂ with nOpCount := 2 } : EvalState).withStack (vchTrue :: st)
  have hs₁ : Plain s₁ (0 + 1) := by
    refine ⟨rfl, rfl, ?_⟩
    show st.length + 1 + 1 ≤ 1000
    omega
  have hs₃ : Plain s₃ 0 := by
    refine ⟨rfl, rfl, ?_⟩
    show st.length + 1 + 0 ≤ 1000
    omega
  let first : ScriptOp := { opcode := OP_HASH160, vch := [], pc := pushScript (H.hash160 redeem) ++ [0x87] }
  have hhashed : getOp2 (0xa9 :: (pushScript (H.hash160 redeem) ++ [0x87])) = some first := rfl
  have hequal : getOp2 [0x87] = some { opcode := OP_EQUAL, vch := [], pc := [] } := rfl
  have hone : 1 ≤ 201 := by decide
  have htwo : 2 ≤ 201 := by decide
  have hstep₁ : evalInstruction H SCRIPT_VERIFY_P2SH checker first s₀ = .ok s₁ :=
    evalInstruction_of_execute hone rfl rfl rfl hs₁
  have hflags : fRequireMinimal SCRIPT_VERIFY_P2SH = false := rfl
  have hstep₂ : evalInstruction H SCRIPT_VERIFY_P2SH checker { opcode := opcode, vch := H.hash160 redeem, pc := [0x87] }
      s₁ = .ok s₂ :=
    evalInstruction_pushes hs₁ hflags hopcode (by rw [hlength]; decide)
  have hstep₃ : evalInstruction H SCRIPT_VERIFY_P2SH checker { opcode := OP_EQUAL, vch := [], pc := [] } s₂ =
      .ok s₃ := by
    refine evalInstruction_of_execute htwo rfl rfl ?_ hs₃
    have hsame : decide (H.hash160 redeem = H.hash160 redeem) = true := decide_eq_true rfl
    show Except.ok (EvalState.withStack _ (ofBool (decide (H.hash160 redeem = H.hash160 redeem)) :: st)) = _
    rw [hsame]
    rfl
  have hrun : evalFrom H SCRIPT_VERIFY_P2SH checker scriptPubKey s₀ = .ok s₃ := by
    rw [hparts, evalFrom_step hhashed, hstep₁]
    show evalFrom H SCRIPT_VERIFY_P2SH checker (pushScript (H.hash160 redeem) ++ [0x87]) s₁ = _
    rw [evalFrom_step hpush, hstep₂]
    show evalFrom H SCRIPT_VERIFY_P2SH checker [0x87] s₂ = _
    rw [evalFrom_step hequal, hstep₃]
    rfl
  unfold evalScript
  rw [decide_eq_false hscript]
  show (evalFrom H SCRIPT_VERIFY_P2SH checker scriptPubKey s₀ >>= _) = _
  rw [hrun]
  rfl

theorem requireTrue_ofBool {b : Bool} : requireTrue (ofBool b :: st) = .ok () ↔ b = true := by
  cases b
  · constructor
    · intro h
      cases h
    · intro h
      cases h
  · exact ⟨fun _ => rfl, fun _ => rfl⟩

/-- An output that does not pay to a script hash is paid when it is true on what the signature script leaves. -/
theorem verifyScript_plain {scriptSig : CScript} {b : Bool} (hform : isPayToScriptHash scriptPubKey = false)
    (hsig : evalScript H SCRIPT_VERIFY_P2SH checker [] scriptSig = .ok values)
    (hrun : evalScript H SCRIPT_VERIFY_P2SH checker values scriptPubKey = .ok [ofBool b]) :
    verifyScript H SCRIPT_VERIFY_P2SH checker scriptSig scriptPubKey = .ok () ↔ b = true := by
  have hflag : hasFlag SCRIPT_VERIFY_P2SH SCRIPT_VERIFY_SIGPUSHONLY = false := by decide
  unfold verifyScript
  rw [hflag, hsig, hform, Bool.and_false]
  show (orFails (evalScript H SCRIPT_VERIFY_P2SH checker values scriptPubKey) >>= _) = _ ↔ _
  rw [hrun]
  show (orFails (requireTrue [ofBool b]) >>= fun _ => Except.ok ()) = _ ↔ _
  rw [check_seq_ok, orFails_eq_ok, requireTrue_ofBool, and_iff_left rfl]

/-- An output that pays to a script hash is paid when the script on top is true on the rest. -/
theorem verifyScript_hashed {scriptSig : CScript} {b : Bool} (hform : isPayToScriptHash scriptPubKey)
    (hhash : (scriptPubKey.drop 2).take 20 = H.hash160 redeem) (hpush : isPushOnly scriptSig)
    (hsig : evalScript H SCRIPT_VERIFY_P2SH checker [] scriptSig = .ok (redeem :: values)) (hroom : values.length ≤ 900)
    (hrun : evalScript H SCRIPT_VERIFY_P2SH checker values redeem = .ok [ofBool b]) :
    verifyScript H SCRIPT_VERIFY_P2SH checker scriptSig scriptPubKey = .ok () ↔ b = true := by
  have hflag : hasFlag SCRIPT_VERIFY_P2SH SCRIPT_VERIFY_SIGPUSHONLY = false := by decide
  have hp2sh : hasFlag SCRIPT_VERIFY_P2SH SCRIPT_VERIFY_P2SH = true := by decide
  unfold verifyScript
  rw [hflag, hsig, hform, hp2sh]
  show (orFails (evalScript H SCRIPT_VERIFY_P2SH checker (redeem :: values) scriptPubKey) >>= _) = _ ↔ _
  rw [evalScript_payToScriptHash hform hhash hroom]
  show verifyRedeemScript H SCRIPT_VERIFY_P2SH checker scriptSig (redeem :: values) = _ ↔ _
  unfold verifyRedeemScript
  rw [hpush]
  show (orFails (evalScript H SCRIPT_VERIFY_P2SH checker values redeem) >>= _) = _ ↔ _
  rw [hrun]
  show orFails (requireTrue [ofBool b]) = _ ↔ _
  rw [orFails_eq_ok, requireTrue_ofBool]

end

/-! ## Multisignature outputs -/

/-- An output is the script, or pays to its hash; then its signature scripts put the script on top of the signatures. -/
inductive PaysTo (H : ScriptHashes) (script : CScript) : CScript → List Valtype → Prop where
  | bare : PaysTo H script script []
  | hashed {scriptPubKey : CScript} (form : isPayToScriptHash scriptPubKey = true)
      (hash : (scriptPubKey.drop 2).take 20 = H.hash160 script) : PaysTo H script scriptPubKey [script]

section

variable {H : ScriptHashes} {S : SignatureCrypto} {txTo : CTransaction} {nIn : Nat} {options : SolverOptions}
  {script scriptPubKey : CScript} {keys sigs1 sigs2 ends : List Valtype} {m n : UInt8}

theorem checkSig_nil (S : SignatureCrypto) (txTo : CTransaction) (nIn : Nat) (key : Valtype) (scriptCode : CScript) :
    checkSig S txTo nIn [] key scriptCode = false := by
  unfold checkSig
  dsimp only
  split_ifs
  · rfl
  · rfl

theorem isPayToScriptHash_multisig {solutions : List Valtype}
    (h : solver options script = { found := true, typeRet := .multisig, vSolutions := solutions }) :
    isPayToScriptHash script = false := by
  rw [← Bool.not_eq_true]
  intro hform
  unfold solver at h
  rw [if_pos hform] at h
  cases h

/-- The result of `CombineSignatures`, from the two stacks. -/
theorem combineStacks_multisig
    (hmultisig : solver options script = { found := true, typeRet := .multisig, vSolutions := [m] :: keys ++ [[n]] })
    (hpays : PaysTo H script scriptPubKey ends)
    (hone : ∀ sig ∈ allSigs sigs1 sigs2, OneKey (fun sig key => checkSig S txTo nIn sig key script) keys sig) :
    combineStacks S txTo nIn options scriptPubKey (solver options scriptPubKey) (sigs1 ++ ends) (sigs2 ++ ends) =
      some (pushScripts (combinedValues (fun sig key => checkSig S txTo nIn sig key script) m.toNat keys
        (allSigs sigs1 sigs2) ++ ends)) := by
  cases hpays with
  | bare =>
    rw [append_nil, append_nil, append_nil, hmultisig]
    unfold combineStacks
    exact combineMultisig_eq hone
  | hashed form hash =>
    have hsolved : solver options scriptPubKey =
        { found := true, typeRet := .scripthash, vSolutions := [(scriptPubKey.drop 2).take 20] } := by
      unfold solver
      rw [if_pos form]
    have hscript : script.isEmpty = false := by
      obtain ⟨k, keys', -, hscript⟩ := solver_multisig hmultisig
      obtain ⟨first, -, -, hfirst, -⟩ := hscript.parts
      cases script with
      | nil => cases hfirst
      | cons b script => rfl
    have hinner : combineStacks S txTo nIn options script (solver options script) sigs1 sigs2 =
        some (pushScripts (combinedValues (fun sig key => checkSig S txTo nIn sig key script) m.toNat keys
          (allSigs sigs1 sigs2))) := by
      rw [hmultisig]
      unfold combineStacks
      exact combineMultisig_eq hone
    rw [hsolved]
    unfold combineStacks
    dsimp only
    rw [getLastD_concat, getLastD_concat, hscript, if_neg Bool.false_ne_true, if_neg Bool.false_ne_true,
      dropLast_concat, dropLast_concat, hinner, Option.map_some, pushScripts_append]
    congr 2
    exact (append_nil _).symm

section

variable {valid : Valtype → Valtype → Bool}

theorem signed_allSigs (hempty : ∀ key, valid [] key = false) :
    signed valid keys (allSigs sigs1 sigs2) = signed valid keys (sigs1 ++ sigs2) := by
  refine filter_congr fun key _ => ?_
  rw [Bool.eq_iff_iff, any_eq_true, any_eq_true]
  constructor
  · rintro ⟨sig, hsig, hvalid⟩
    exact ⟨sig, (mem_allSigs.mp hsig).1, hvalid⟩
  · rintro ⟨sig, hsig, hvalid⟩
    refine ⟨sig, mem_allSigs.mpr ⟨hsig, fun hnil => ?_⟩, hvalid⟩
    rw [hnil, hempty] at hvalid
    cases hvalid

theorem length_combinedValues (k : Nat) : (combinedValues valid k keys allsigs).length = k + 1 := by
  have hlength := @length_merged valid keys allsigs k
  unfold combinedValues
  rw [length_append, length_cons, length_replicate]
  omega

theorem combinedValues_short {k : Nat} (hshort : Short allsigs) : Short (combinedValues valid k keys allsigs) := by
  intro b hb
  unfold combinedValues at hb
  rcases mem_append.mp hb with hb | hb
  · rcases mem_cons.mp hb with rfl | hb
    · exact Nat.zero_le _
    · exact hshort b (mem_merged hb).1
  · obtain rfl := (mem_replicate.mp hb).2
    exact Nat.zero_le _

end

theorem verifyScript_combined {k : Nat} (h : MultisigScript script k keys)
    (hform : isPayToScriptHash script = false) (hpays : PaysTo H script scriptPubKey ends) (hdistinct : keys.Nodup)
    (hmatching : Matching (fun sig key => checkSig S txTo nIn sig key script) keys allsigs)
    (hshort : Short allsigs) (hends : Short ends) :
    verifyScript H SCRIPT_VERIFY_P2SH (signatureChecker S txTo nIn)
      (pushScripts (combinedValues (fun sig key => checkSig S txTo nIn sig key script) k keys allsigs ++ ends))
      scriptPubKey = .ok () ↔
      k ≤ (signed (fun sig key => checkSig S txTo nIn sig key script) keys allsigs).length := by
  have hrequired := h.required
  have hfew := h.few
  have hlength := @length_combinedValues keys (fun sig key => checkSig S txTo nIn sig key script) allsigs k
  have hvalues := @combinedValues_short keys (fun sig key => checkSig S txTo nIn sig key script) allsigs k hshort
  have hrun := @MultisigScript.evalScript_combined H (signatureChecker S txTo nIn) script keys allsigs k h hdistinct
    hmatching (fun key _ => checkSig_nil S txTo nIn key script) hshort
  rw [← decide_eq_true_iff (p := k ≤ _)]
  cases hpays with
  | bare =>
    rw [append_nil]
    exact verifyScript_plain hform (evalScript_pushScripts hvalues (by omega)) hrun
  | hashed form hash =>
    have hall :
        Short (combinedValues (fun sig key => checkSig S txTo nIn sig key script) k keys allsigs ++ [script]) := by
      intro b hb
      rcases mem_append.mp hb with hb | hb
      · exact hvalues b hb
      · exact hends b hb
    have hsig := @evalScript_pushScripts H (signatureChecker S txTo nIn) _ hall
      (by rw [length_append, length_singleton]; omega)
    rw [reverse_append] at hsig
    have hroom : (combinedValues (fun sig key => checkSig S txTo nIn sig key script) k keys allsigs).reverse.length ≤
        900 := by
      rw [length_reverse]
      omega
    exact verifyScript_hashed form hash (isPushOnly_pushScripts hall) hsig hroom hrun

/-- Two signature scripts of one multisignature output combine to the same script in either order, which pays the
output when enough of the keys have a valid signature in one of them. -/
theorem combineSignatures_multisig {scriptSig1 scriptSig2 : CScript}
    (hmultisig : solver options script = { found := true, typeRet := .multisig, vSolutions := [m] :: keys ++ [[n]] })
    (hpays : PaysTo H script scriptPubKey ends) (hdistinct : keys.Nodup)
    (hpush1 : isPushOnly scriptSig1 = true) (hpush2 : isPushOnly scriptSig2 = true)
    (hleft1 : stackLeft H SCRIPT_VERIFY_STRICTENC baseSignatureChecker scriptSig1 = some (sigs1 ++ ends))
    (hleft2 : stackLeft H SCRIPT_VERIFY_STRICTENC baseSignatureChecker scriptSig2 = some (sigs2 ++ ends))
    (hmatching : Matching (fun sig key => checkSig S txTo nIn sig key script) keys (sigs1 ++ sigs2)) :
    ∃ result, combineSignatures S txTo nIn H options scriptPubKey scriptSig1 scriptSig2 = some result ∧
      combineSignatures S txTo nIn H options scriptPubKey scriptSig2 scriptSig1 = some result ∧
      (verifyScript H SCRIPT_VERIFY_P2SH (signatureChecker S txTo nIn) result scriptPubKey = .ok () ↔
        m.toNat ≤ (signed (fun sig key => checkSig S txTo nIn sig key script) keys (sigs1 ++ sigs2)).length) := by
  obtain ⟨k, keys', hsolutions, hscript⟩ := solver_multisig hmultisig
  have hrequired := hscript.required
  have hfew := hscript.few
  obtain ⟨hm, hkeys⟩ := List.cons.inj hsolutions
  obtain ⟨rfl, -⟩ := append_inj' hkeys rfl
  have hk : m.toNat = k := by
    rw [(List.cons.inj hm).1, UInt8.toNat_ofNat_of_lt' (by show k < 256; omega)]
  obtain ⟨stack1, hstack1, hshort1⟩ := @stackLeft_pushOnly H SCRIPT_VERIFY_STRICTENC baseSignatureChecker _ hpush1
  obtain ⟨stack2, hstack2, hshort2⟩ := @stackLeft_pushOnly H SCRIPT_VERIFY_STRICTENC baseSignatureChecker _ hpush2
  cases hstack1.symm.trans hleft1
  cases hstack2.symm.trans hleft2
  have hshort : Short (allSigs sigs1 sigs2) := by
    intro sig hsig
    rcases mem_append.mp (mem_allSigs.mp hsig).1 with hmem | hmem
    · exact hshort1 sig (mem_append_left _ hmem)
    · exact hshort2 sig (mem_append_left _ hmem)
  have hends : Short ends := fun b hb => hshort1 b (mem_append_right _ hb)
  have hmatching' : Matching (fun sig key => (signatureChecker S txTo nIn).checkSig sig key script) keys
      (allSigs sigs1 sigs2) :=
    ⟨fun sig hsig => hmatching.one sig (mem_allSigs.mp hsig).1,
      fun sig hsig => hmatching.absent sig (mem_allSigs.mp hsig).1⟩
  have hresult := combineStacks_multisig hmultisig hpays hmatching'.one
  have hswapped := @combineStacks_multisig H S txTo nIn options script scriptPubKey keys sigs2 sigs1 ends m n hmultisig
    hpays (by rw [allSigs_comm]; exact hmatching'.one)
  rw [allSigs_comm] at hswapped
  have hempty : ∀ key, (fun sig key => checkSig S txTo nIn sig key script) [] key = false :=
    fun key => checkSig_nil S txTo nIn key script
  have hverify := verifyScript_combined hscript (isPayToScriptHash_multisig hmultisig) hpays hdistinct hmatching' hshort
    hends
  rw [signed_allSigs hempty, ← hk] at hverify
  refine ⟨_, Eq.trans ?_ hresult, Eq.trans ?_ hswapped, hverify⟩
  · unfold combineSignatures
    rw [hleft1, hleft2]
    rfl
  · unfold combineSignatures
    rw [hleft1, hleft2]
    rfl

end

namespace Example

/-- The key number `i` of an example. -/
def multisigKey (i : UInt8) : Valtype :=
  2 :: (List.replicate 31 0 ++ [i])

/-- The signature of a key is its number. -/
def numberSignatures : SignatureCrypto where
  hash _ := 0
  verify _ vchSig pubkey := decide (vchSig = [pubkey.getLastD 0])

def unsignedTx : CTransaction where
  nVersion := 1
  vin := []
  vout := []
  nLockTime := 0
  nTime := 0

def dataCarrier : SolverOptions where
  datacarrier := true
  nMaxDatacarrierBytes := 40

/-- Two keys, both of which have to sign. -/
def twoOfTwo : CScript :=
  0x52 :: (pushScripts [multisigKey 1, multisigKey 2] ++ [0x52, 0xae])

/-- One key, which has to sign. -/
def oneOfOne : CScript :=
  0x51 :: (pushScripts [multisigKey 1] ++ [0x51, 0xae])

end Example

open Example

/-- The signatures of two parties make a script that pays. -/
theorem combineSignatures_multisig_example : ∃ result,
    combineSignatures numberSignatures unsignedTx 0 scriptHashes dataCarrier
      twoOfTwo (pushScripts [[], [2, 1]]) (pushScripts [[], [1, 1], []]) = some result ∧
    combineSignatures numberSignatures unsignedTx 0 scriptHashes dataCarrier
      twoOfTwo (pushScripts [[], [1, 1], []]) (pushScripts [[], [2, 1]]) = some result ∧
    (verifyScript scriptHashes SCRIPT_VERIFY_P2SH
      (signatureChecker numberSignatures unsignedTx 0) result twoOfTwo = .ok () ↔
      2 ≤ (signed (fun sig key => checkSig numberSignatures unsignedTx 0 sig key twoOfTwo)
        [multisigKey 1, multisigKey 2] ([[], [2, 1]] ++ [[], [1, 1], []])).length) := by
  have hmultisig : solver dataCarrier twoOfTwo =
      Solved.mk true .multisig ([2] :: [multisigKey 1, multisigKey 2] ++ [[2]]) := by decide +kernel
  refine combineSignatures_multisig hmultisig .bare ?_ ?_ ?_ ?_ ?_ ⟨?_, ?_⟩
  · decide
  · decide
  · decide
  · decide
  · decide
  · show ∀ sig ∈ [[], [2, 1]] ++ [[], [1, 1], []], ∀ key ∈ [multisigKey 1, multisigKey 2],
      ∀ other ∈ [multisigKey 1, multisigKey 2], _ → _ → key = other
    decide +kernel
  · decide +kernel

/-- The loop over the instructions of a script. -/
def pushedLoop : Nat → CScript → List Valtype
  | 0, _ => []
  | turns + 1, pc =>
    match getOp2 pc with
    | none => []
    | some op => (if op.opcode ≤ OP_PUSHDATA4 then [op.vch] else []) ++ pushedLoop turns op.pc

/-- The values that the instructions of a script push, whether or not `EvalScript` comes to them. -/
def pushedValues (script : CScript) : List Valtype :=
  pushedLoop script.length script

/-- A signature that stands after an instruction at which `EvalScript` stops is lost. -/
theorem combineSignatures_stops :
    solver dataCarrier oneOfOne = Solved.mk true .multisig ([1] :: [multisigKey 1] ++ [[1]]) ∧
    isPushOnly (0x50 :: pushScript [1, 1]) = true ∧ isPushOnly [] = true ∧
    Matching (fun sig key => checkSig numberSignatures unsignedTx 0 sig key oneOfOne)
      [multisigKey 1] (pushedValues (0x50 :: pushScript [1, 1]) ++ pushedValues []) ∧
    1 ≤ (signed (fun sig key => checkSig numberSignatures unsignedTx 0 sig key oneOfOne)
      [multisigKey 1] (pushedValues (0x50 :: pushScript [1, 1]) ++ pushedValues [])).length ∧
    combineSignatures numberSignatures unsignedTx 0 scriptHashes dataCarrier
      oneOfOne (0x50 :: pushScript [1, 1]) [] = some [0, 0] ∧
    verifyScript scriptHashes SCRIPT_VERIFY_P2SH
      (signatureChecker numberSignatures unsignedTx 0) [0, 0] oneOfOne ≠ .ok () := by
  have hmultisig : solver dataCarrier oneOfOne =
      Solved.mk true .multisig ([1] :: [multisigKey 1] ++ [[1]]) := by decide +kernel
  refine ⟨hmultisig, by decide, by decide, ⟨?_, ?_⟩, ?_, ?_, by decide +kernel⟩
  · show ∀ sig ∈ [[1, 1]], ∀ key ∈ [multisigKey 1], ∀ other ∈ [multisigKey 1], _ → _ → key = other
    decide +kernel
  · decide +kernel
  · decide +kernel
  · have hleft1 : stackLeft scriptHashes SCRIPT_VERIFY_STRICTENC baseSignatureChecker
        (0x50 :: pushScript [1, 1]) = some [] := by decide
    have hleft2 : stackLeft scriptHashes SCRIPT_VERIFY_STRICTENC baseSignatureChecker [] = some [] := by decide
    unfold combineSignatures
    rw [hleft1, hleft2, hmultisig]
    show combineStacks _ _ _ _ _ _ [] [] = _
    unfold combineStacks
    decide +kernel
end Reddcoin
