import Reddcoin.Connect.LiveEntries
import Reddcoin.Mempool.Removal

/-!
# Where the coins come from

Every coin is an output of a transaction whose own inputs existed before it.  Ids determine transactions, so what
`CheckInputs` reads of a coin, its height apart, is fixed by the id; a transaction that passed once passes again as
long as its inputs are available and mature.
-/

namespace Reddcoin

section

variable (C : Crypto) (T : Set CTransaction) {nValueIn nResult : Int} {vin : List CTxIn}

/-- The id of a transaction from `T` whose inputs come from such transactions. -/
inductive Grounded : Uint256 → Prop where
  | tx (tx : CTransaction) (mem : tx ∈ T)
      (inputs : tx.isCoinBase = false → ∀ txin ∈ tx.vin, Grounded txin.prevout.hash) : Grounded (C.txHash tx)

/-- The entry `c` under `k` holds outputs of `tx`. -/
structure EntryOf (tx : CTransaction) (k : Uint256) (c : CCoins) : Prop where
  mem : tx ∈ T
  hash : C.txHash tx = k
  grounded : Grounded C T k
  outs : ∀ n out, c.out? n = some out → CCoins.spendable? tx n = some out
  coinBase : c.fCoinBase = tx.isCoinBase
  coinStake : c.fCoinStake = tx.isCoinStake
  time : c.nTime = tx.nTime

/-- Every entry with unspent outputs is the one of a transaction. -/
def Truthful (v : CoinsView) : Prop :=
  LiveEntries (fun k c => ∃ tx, EntryOf C T tx k c) v

/-- Every entry with unspent outputs was created below the height. -/
def CreatedBelow (nHeight : Nat) (v : CoinsView) : Prop :=
  LiveEntries (fun _ c => c.nHeight < nHeight) v

/-- The part of `CheckInputs` that the ids of the inputs decide: times, values and their sum. -/
inductive Pays (tx : CTransaction) : Int → List CTxIn → Int → Prop where
  | nil (nValueIn : Int) : Pays tx nValueIn [] nValueIn
  | cons {nValueIn nResult : Int} {txin : CTxIn} {vin : List CTxIn} {parent : CTransaction} {out : CTxOut}
      (mem : parent ∈ T) (hash : C.txHash parent = txin.prevout.hash)
      (output : CCoins.spendable? parent txin.prevout.n = some out) (time : parent.nTime % 2 ^ 32 ≤ tx.nTime)
      (range : (moneyRange out.nValue && moneyRange (wrap64 (nValueIn + out.nValue))) = true)
      (rest : Pays tx (wrap64 (nValueIn + out.nValue)) vin nResult) : Pays tx nValueIn (txin :: vin) nResult

/-- What a transaction that was accepted into the pool keeps for good. -/
structure Vetted (tx : CTransaction) : Prop where
  mem : tx ∈ T
  grounded : Grounded C T (C.txHash tx)
  coinBase : tx.isCoinBase = false
  coinStake : tx.isCoinStake = false
  distinct : (tx.vin.map CTxIn.prevout).Nodup
  pays : ∃ nValueIn, Pays C T tx 0 tx.vin nValueIn ∧ checkFee tx nValueIn = .ok ()

/-- The entry can be spent at the height as far as `CheckInputs` looks at heights. -/
def Mature (c : CCoins) (nSpendHeight : Nat) : Prop :=
  (c.fCoinBase || c.fCoinStake) = true → COINBASE_MATURITY ≤ (nSpendHeight : Int) - c.nHeight

end

section

variable {C : Crypto} {T : Set CTransaction} {v : CoinsView} {tx parent : CTransaction} {k : Uint256} {c : CCoins}
  {nSpendHeight : Nat}

theorem EntryOf.spent (h : EntryOf C T tx k c) (n : Nat) : EntryOf C T tx k (c.spent n) where
  mem := h.mem
  hash := h.hash
  grounded := h.grounded
  outs := by
    intro m out hout
    rw [CCoins.out?_spent] at hout
    split_ifs at hout
    exact h.outs m out hout
  coinBase := h.coinBase
  coinStake := h.coinStake
  time := h.time

theorem EntryOf.fromTx (hmem : tx ∈ T) (hground : Grounded C T (C.txHash tx)) (nHeight : Nat) :
    EntryOf C T tx (C.txHash tx) (CCoins.fromTx tx nHeight) where
  mem := hmem
  hash := rfl
  grounded := hground
  outs := by
    intro n out hout
    rw [CCoins.out?_fromTx] at hout
    exact hout
  coinBase := rfl
  coinStake := rfl
  time := rfl

theorem Truthful.updateCoins (h : Truthful C T v) (hmem : tx ∈ T) (hground : Grounded C T (C.txHash tx))
    {nHeight : Nat} {v' : CoinsView} {undo : CTxUndo} (hrun : updateCoins C v tx nHeight = some (v', undo)) :
    Truthful C T v' :=
  LiveEntries.updateCoins (fun _ _ n ⟨t, ht⟩ => ⟨t, ht.spent n⟩) h ⟨tx, .fromTx hmem hground nHeight⟩ hrun

theorem Truthful.grounded (h : Truthful C T v) {n : Nat} {out : CTxOut} (hout : v.out? k n = some out) :
    Grounded C T k := by
  obtain ⟨_, hentry⟩ := LiveEntries.of_out? h hout
  exact hentry.grounded

/-- A transaction whose inputs are available is grounded. -/
theorem Truthful.haveInputs (h : Truthful C T v) (hmem : tx ∈ T)
    (hhave : tx.isCoinBase = false → haveInputs v tx) : Grounded C T (C.txHash tx) := by
  refine .tx tx hmem fun hcb txin htxin => ?_
  obtain ⟨out, hout⟩ := Option.isSome_iff_exists.mp ((haveInputs_iff hcb).mp (hhave hcb) txin htxin)
  exact h.grounded hout

/-- The output that an input spends has a place among the outputs of the parent. -/
theorem lt_length_of_spendable? {n : Nat} {out : CTxOut} (h : CCoins.spendable? tx n = some out) :
    n < tx.vout.length := by
  unfold CCoins.spendable? at h
  cases hget : tx.vout[n]? with
  | none => simp [hget] at h
  | some o => exact (List.getElem?_eq_some_iff.mp hget).1

theorem Pays.source (h : Pays C T tx nValueIn vin nResult)
    {txin : CTxIn} (htxin : txin ∈ vin) : ∃ parent ∈ T, C.txHash parent = txin.prevout.hash ∧
      ∃ out, CCoins.spendable? parent txin.prevout.n = some out := by
  induction h with
  | nil => simp at htxin
  | cons mem hash output _ _ _ ih =>
    rcases List.mem_cons.mp htxin with rfl | htxin
    · exact ⟨_, mem, hash, _, output⟩
    · exact ih htxin

/-! ## `CheckInputs` -/

/-- One input, given the entry of its parent. -/
theorem checkInput_eq (hentry : EntryOf C T parent k (v.coins k)) {txin : CTxIn} (hk : txin.prevout.hash = k)
    {out : CTxOut} (hout : v.out? k txin.prevout.n = some out) (nValueIn nResult : Int) :
    checkInput v nSpendHeight tx nValueIn txin = .ok nResult ↔
      Mature (v.coins k) nSpendHeight ∧ parent.nTime % 2 ^ 32 ≤ tx.nTime ∧
        (moneyRange out.nValue && moneyRange (wrap64 (nValueIn + out.nValue))) ∧
        wrap64 (nValueIn + out.nValue) = nResult := by
  have haccess := accessCoins_of_live (v := v) (CCoins.isPruned_eq_false_iff.mpr ⟨_, out, hout⟩)
  have htime : (v.coins k).nTime % 2 ^ 32 ≤ tx.nTime ↔ parent.nTime % 2 ^ 32 ≤ tx.nTime := by
    rw [hentry.time]
    omega
  have hmature : (!(((v.coins k).fCoinBase || (v.coins k).fCoinStake) &&
      decide ((nSpendHeight : Int) - (v.coins k).nHeight < COINBASE_MATURITY))) = true ↔
        Mature (v.coins k) nSpendHeight := by
    unfold Mature
    cases (v.coins k).fCoinBase || (v.coins k).fCoinStake <;> simp
  unfold checkInput
  rw [hk, haccess]
  show (require _ _ >>= fun _ => _) = .ok nResult ↔ _
  simp only [check_seq_ok, require_eq_ok, hmature, decide_eq_true_eq, htime, (CCoins.out?_eq_some.mp hout).1]
  refine and_congr_right fun _ => and_congr_right fun _ => ?_
  show (require _ _ >>= fun _ => _) = .ok nResult ↔ _
  simp only [check_seq_ok, require_eq_ok, check_pure_ok]

/-- What passed over truthful coins. -/
theorem Truthful.pays (h : Truthful C T v)
    (havail : ∀ txin ∈ vin, (v.utxo txin.prevout.hash txin.prevout.n).isSome)
    (hrun : vin.foldlM (checkInput v nSpendHeight tx) nValueIn = .ok nResult) :
    Pays C T tx nValueIn vin nResult ∧ ∀ txin ∈ vin, Mature (v.coins txin.prevout.hash) nSpendHeight := by
  induction vin generalizing nValueIn with
  | nil =>
    obtain rfl := check_pure_ok.mp hrun
    exact ⟨.nil nValueIn, fun _ hm => by simp at hm⟩
  | cons txin vin ih =>
    rw [List.foldlM_cons, check_bind_ok] at hrun
    obtain ⟨mid, hhead, hrun⟩ := hrun
    obtain ⟨out, hout⟩ := Option.isSome_iff_exists.mp (havail txin List.mem_cons_self)
    obtain ⟨parent, hentry⟩ := LiveEntries.of_out? h hout
    obtain ⟨hmature, htime, hrange, rfl⟩ := (checkInput_eq hentry rfl hout _ _).mp hhead
    obtain ⟨hpays, hothers⟩ := ih (fun t ht => havail t (List.mem_cons_of_mem _ ht)) hrun
    refine ⟨.cons hentry.mem hentry.hash (hentry.outs _ _ hout) htime hrange hpays, fun t ht => ?_⟩
    rcases List.mem_cons.mp ht with rfl | ht
    · exact hmature
    · exact hothers t ht

/-- What passed before passes over truthful coins that are available and mature. -/
theorem Pays.checkInputs (hT : Set.InjOn C.txHash T) (h : Truthful C T v) (hpays : Pays C T tx nValueIn vin nResult)
    (havail : ∀ txin ∈ vin, (v.utxo txin.prevout.hash txin.prevout.n).isSome)
    (hmature : ∀ txin ∈ vin, Mature (v.coins txin.prevout.hash) nSpendHeight) :
    vin.foldlM (checkInput v nSpendHeight tx) nValueIn = .ok nResult := by
  induction hpays with
  | nil nValueIn => rfl
  | @cons nValueIn nResult txin vin parent out mem hash output time range rest ih =>
    obtain ⟨out', hout'⟩ := Option.isSome_iff_exists.mp (havail txin List.mem_cons_self)
    obtain ⟨parent', hentry⟩ := LiveEntries.of_out? h hout'
    obtain rfl : parent' = parent := hT hentry.mem mem (hentry.hash.trans hash.symm)
    have hsame := hentry.outs _ _ hout'
    rw [output] at hsame
    cases hsame
    rw [List.foldlM_cons, check_bind_ok]
    refine ⟨_, (checkInput_eq hentry rfl hout' _ _).mpr
      ⟨hmature txin List.mem_cons_self, time, range, rfl⟩, ?_⟩
    exact ih (fun t ht => havail t (List.mem_cons_of_mem _ ht)) fun t ht => hmature t (List.mem_cons_of_mem _ ht)

theorem checkInputs_passed (hcb : tx.isCoinBase = false) {fScriptChecks fThreads : Bool} {flags : Nat}
    {checks : List CScriptCheck}
    (h : checkInputs C v nSpendHeight tx fScriptChecks flags fThreads = .ok checks) :
    haveInputs v tx ∧ ∃ nValueIn, tx.vin.foldlM (checkInput v nSpendHeight tx) 0 = .ok nValueIn ∧
      (tx.isCoinStake = false → checkFee tx nValueIn = .ok ()) := by
  simp only [checkInputs, hcb, Bool.false_eq_true, if_false, check_seq_ok, require_eq_ok] at h
  obtain ⟨hhave, h⟩ := h
  obtain ⟨nValueIn, hvalues, h⟩ := check_bind_ok.mp h
  obtain ⟨hfee, -⟩ := check_seq_ok.mp h
  refine ⟨hhave, nValueIn, hvalues, fun hcs => ?_⟩
  rw [onlyIf_eq_ok, hcs] at hfee
  exact hfee rfl

/-- A vetted transaction passes without scripts wherever its inputs are available and mature. -/
theorem Vetted.checkInputs (hT : Set.InjOn C.txHash T) (h : Vetted C T tx) (hv : Truthful C T v)
    (hhave : haveInputs v tx)
    (hmature : ∀ txin ∈ tx.vin, Mature (v.coins txin.prevout.hash) nSpendHeight) :
    checkInputs C v nSpendHeight tx false 0 false = .ok [] := by
  obtain ⟨nValueIn, hpays, hfee⟩ := h.pays
  have hvalues := hpays.checkInputs hT hv ((haveInputs_iff h.coinBase).mp hhave) hmature
  simp only [Reddcoin.checkInputs, h.coinBase, Bool.false_eq_true, if_false, check_seq_ok, require_eq_ok]
  refine ⟨hhave, check_bind_ok.mpr ⟨nValueIn, hvalues, ?_⟩⟩
  exact check_seq_ok.mpr ⟨onlyIf_eq_ok.mpr fun _ => hfee, rfl⟩

end

end Reddcoin
