import Reddcoin.Validation.Params
import Reddcoin.Validation.State

/-!
# Context-free checks

`CheckTransaction`, `CheckBlockHeader` and `CheckBlock` of `main.cpp`.
-/

namespace Reddcoin

variable {tx : CTransaction}

/-- One turn of the output loop of `CheckTransaction`, with the running total. -/
def checkTxOut (tx : CTransaction) (nValueOut : Int) (txout : CTxOut) : Check Int := do
  require (!(txout.isEmpty && !tx.isCoinBase && !tx.isCoinStake)) (rejectDoS 100 0 "" false)
  require (decide (0 ≤ txout.nValue)) (rejectDoS 100 REJECT_INVALID "bad-txns-vout-negative" false)
  require (decide (txout.nValue ≤ MAX_MONEY))
    (rejectDoS 100 REJECT_INVALID "bad-txns-vout-toolarge" false)
  let nValueOut := wrap64 (nValueOut + txout.nValue)
  require (moneyRange nValueOut) (rejectDoS 100 REJECT_INVALID "bad-txns-txouttotal-toolarge" false)
  pure nValueOut

def checkCoinBaseScript (tx : CTransaction) : Check Unit :=
  match tx.vin with
  | [] => pure ()
  | txin :: _ =>
    require (decide (2 ≤ txin.scriptSig.length) && decide (txin.scriptSig.length ≤ 100))
      (rejectDoS 100 REJECT_INVALID "bad-cb-length" false)

def checkTransaction (tx : CTransaction) : Check Unit := do
  require (!tx.vin.isEmpty) (rejectDoS 10 REJECT_INVALID "bad-txns-vin-empty" false)
  require (!tx.vout.isEmpty) (rejectDoS 10 REJECT_INVALID "bad-txns-vout-empty" false)
  require (decide (tx.serializeSize ≤ MAX_BLOCK_SIZE))
    (rejectDoS 100 REJECT_INVALID "bad-txns-oversize" false)
  let _ ← tx.vout.foldlM (checkTxOut tx) 0
  require (decide (tx.vin.map CTxIn.prevout).Nodup)
    (rejectDoS 100 REJECT_INVALID "bad-txns-inputs-duplicate" false)
  if tx.isCoinBase then checkCoinBaseScript tx
  else
    require (tx.vin.all fun txin => !txin.prevout.isNull)
      (rejectDoS 10 REJECT_INVALID "bad-txns-prevout-null" false)

section

variable (P : CChainParams) (C : Crypto)

/-- `CheckBlockHeader` on a clock that reads `nAdjustedTime`. -/
def checkBlockHeader (nAdjustedTime : Int) (block : CBlockHeader) (fCheckPOW : Bool) :
    Check Unit := do
  require (!(decide (CHECK_POW_FROM_NTIME < block.getBlockTime) && fCheckPOW &&
      block.isProofOfWork && !checkProofOfWork P (C.powHash block) block.nBits))
    (rejectDoS 50 REJECT_INVALID "high-hash" false)
  require (decide (block.getBlockTime ≤ futureDrift nAdjustedTime))
    (rejectInvalid REJECT_INVALID "time-too-new")

def checkMerkleRoot (block : CBlock) : Check Unit := do
  let root := block.buildMerkleTree C
  require (decide (block.hashMerkleRoot = root.1))
    (rejectDoS 100 REJECT_INVALID "bad-txnmrklroot" true)
  require (!root.2) (rejectDoS 100 REJECT_INVALID "bad-txns-duplicate" true)

/-- The part of `CheckBlock` that only proof-of-stake blocks go through. -/
def checkCoinStake (block : CBlock) (fCheckSig : Bool) : Check Unit :=
  match block.vtx with
  | coinbase :: coinstake :: rest => do
    require (match coinbase.vout with
        | [out] => out.isEmpty
        | _ => false)
      (rejectDoS 100 0 "" false)
    require coinstake.isCoinStake (rejectDoS 100 0 "" false)
    require (rest.all fun tx => !tx.isCoinStake) (rejectDoS 100 0 "" false)
    require (decide (block.getBlockTime = coinstake.nTime)) (rejectDoS 50 0 "" false)
    require (!fCheckSig || block.checkBlockSignature C) (rejectDoS 100 0 "" false)
  | _ => pure ()

def checkBlockTx (block : CBlock) (tx : CTransaction) : Check Unit := do
  checkTransaction tx
  require (!(block.isProofOfStake && decide (block.getBlockTime < tx.nTime))) returnError

def checkBlock (nAdjustedTime : Int) (block : CBlock) (fCheckPOW fCheckMerkleRoot fCheckSig : Bool) :
    Check Unit := do
  checkBlockHeader P C nAdjustedTime block.toCBlockHeader fCheckPOW
  onlyIf fCheckMerkleRoot (checkMerkleRoot C block)
  require (!block.vtx.isEmpty && decide (block.vtx.length ≤ MAX_BLOCK_SIZE) &&
      decide (block.serializeSize ≤ MAX_BLOCK_SIZE))
    (rejectDoS 100 REJECT_INVALID "bad-blk-length" false)
  require (match block.vtx with
      | tx :: _ => tx.isCoinBase
      | [] => false)
    (rejectDoS 100 REJECT_INVALID "bad-cb-missing" false)
  require (block.vtx.tail.all fun tx => !tx.isCoinBase)
    (rejectDoS 100 REJECT_INVALID "bad-cb-multiple" false)
  onlyIf block.isProofOfStake (checkCoinStake C block fCheckSig)
  block.vtx.forM (checkBlockTx block)
  require (decide ((block.vtx.map getLegacySigOpCount).sum ≤ MAX_BLOCK_SIGOPS))
    (rejectDoS 100 REJECT_INVALID "bad-blk-sigops" true)

end

/-! ## What an accepted transaction satisfies -/

theorem checkTxOut_ok {acc v : Int} {out : CTxOut} (h : checkTxOut tx acc out = .ok v) :
    moneyRange out.nValue ∧ moneyRange v ∧ v = wrap64 (acc + out.nValue) ∧
      (out.isEmpty → tx.isCoinBase ∨ tx.isCoinStake) := by
  simp only [checkTxOut, check_seq_ok, require_eq_ok, check_pure_ok, decide_eq_true_eq] at h
  obtain ⟨hempty, hneg, hlarge, htotal, hv⟩ := h
  refine ⟨moneyRange_iff.mpr ⟨hneg, hlarge⟩, hv ▸ htotal, hv.symm, fun he => ?_⟩
  cases hb : tx.isCoinBase <;> cases hs : tx.isCoinStake <;> simp_all

theorem checkTxOut_foldlM {outs : List CTxOut} {acc v : Int} (h : outs.foldlM (checkTxOut tx) acc = .ok v) :
    ∀ out ∈ outs, moneyRange out.nValue ∧
      (out.isEmpty → tx.isCoinBase ∨ tx.isCoinStake) := by
  induction outs generalizing acc with
  | nil => intro out hmem; simp at hmem
  | cons out outs ih =>
    rw [List.foldlM_cons, check_bind_ok] at h
    obtain ⟨mid, hmid, hrest⟩ := h
    obtain ⟨hrange, -, -, hempty⟩ := checkTxOut_ok hmid
    intro o ho
    rcases List.mem_cons.mp ho with heq | ho
    · rw [heq]
      exact ⟨hrange, hempty⟩
    · exact ih hrest o ho

/-- What the later stages use of a transaction that passed `CheckTransaction`. -/
structure CheckedTransaction (tx : CTransaction) : Prop where
  vin_ne_nil : tx.vin ≠ []
  vout_ne_nil : tx.vout ≠ []
  values : ∀ out ∈ tx.vout, moneyRange out.nValue = true
  prevouts_nodup : (tx.vin.map CTxIn.prevout).Nodup
  prevouts_not_null : tx.isCoinBase = false → ∀ txin ∈ tx.vin, txin.prevout.isNull = false

theorem checkTransaction_ok (h : checkTransaction tx = .ok ()) : CheckedTransaction tx := by
  simp only [checkTransaction, check_seq_ok, require_eq_ok] at h
  obtain ⟨hvin, hvout, -, h⟩ := h
  obtain ⟨total, houts, h⟩ := check_bind_ok.mp h
  obtain ⟨hnodup, hlast⟩ := check_seq_ok.mp h
  refine ⟨by simpa using hvin, by simpa using hvout, fun out ho => (checkTxOut_foldlM houts out ho).1,
    by simpa using hnodup, fun hcb txin htxin => ?_⟩
  rw [hcb] at hlast
  simp only [Bool.false_eq_true, if_false, require_eq_ok, List.all_eq_true] at hlast
  simpa using hlast txin htxin

/-! ## What an accepted block satisfies -/

theorem forM_ok {ε α : Type} {f : α → Except ε Unit} {xs : List α} :
    xs.forM f = .ok () ↔ ∀ x ∈ xs, f x = .ok () := by
  induction xs with
  | nil => simp
  | cons x xs ih =>
    show (f x >>= fun _ => xs.forM f) = .ok () ↔ _
    rw [check_seq_ok]
    constructor
    · intro h y hy
      obtain ⟨hx, hxs⟩ := h
      rcases List.mem_cons.mp hy with heq | hy
      · rw [heq]
        exact hx
      · exact ih.mp hxs y hy
    · intro hall
      exact ⟨hall x List.mem_cons_self, ih.mpr fun y hy => hall y (List.mem_cons_of_mem _ hy)⟩

/-- What the later stages use of a block that passed `CheckBlock`. -/
structure CheckedBlock (block : CBlock) : Prop where
  coinbase : ∃ cb rest, block.vtx = cb :: rest ∧ cb.isCoinBase = true ∧ ∀ tx ∈ rest, tx.isCoinBase = false
  transactions : ∀ tx ∈ block.vtx, CheckedTransaction tx
  stake : block.isProofOfStake = true → ∃ cb out stake rest, block.vtx = cb :: stake :: rest ∧
    cb.vout = [out] ∧ out.isEmpty = true ∧ stake.isCoinStake = true ∧
    ∀ tx ∈ rest, tx.isCoinStake = false

theorem checkCoinStake_ok {C : Crypto} {block : CBlock} {fCheckSig : Bool}
    (hpos : block.isProofOfStake) (h : checkCoinStake C block fCheckSig = .ok ()) :
    (∃ cb out stake rest, block.vtx = cb :: stake :: rest ∧ cb.vout = [out] ∧
      out.isEmpty ∧ stake.isCoinStake ∧ ∀ tx ∈ rest, tx.isCoinStake = false) ∧
    (fCheckSig → block.checkBlockSignature C) := by
  unfold checkCoinStake at h
  unfold CBlock.isProofOfStake at hpos
  rcases hvtx : block.vtx with _ | ⟨cb, _ | ⟨stake, rest⟩⟩
  · simp [hvtx] at hpos
  · simp [hvtx] at hpos
  · rw [hvtx] at h
    simp only [check_seq_ok, require_eq_ok] at h
    obtain ⟨hcb, hstake, hrest, -, hsig⟩ := h
    refine ⟨?_, fun hcheck => by simpa [hcheck] using hsig⟩
    rcases hout : cb.vout with _ | ⟨out, _ | ⟨out', outs⟩⟩
    · simp [hout] at hcb
    · rw [hout] at hcb
      refine ⟨cb, out, stake, rest, rfl, hout, hcb, hstake, fun tx htx => ?_⟩
      simpa using List.all_eq_true.mp hrest tx htx
    · simp [hout] at hcb

section

variable {P : CChainParams} {C : Crypto} {nAdjustedTime : Int} {block : CBlock}
  {fCheckPOW fCheckMerkleRoot fCheckSig : Bool}

theorem checkBlock_ok
    (h : checkBlock P C nAdjustedTime block fCheckPOW fCheckMerkleRoot fCheckSig = .ok ()) :
    CheckedBlock block ∧ checkBlockHeader P C nAdjustedTime block.toCBlockHeader fCheckPOW = .ok () ∧
      (block.isProofOfStake → fCheckSig → block.checkBlockSignature C) := by
  simp only [checkBlock, check_seq_ok, onlyIf_eq_ok, require_eq_ok] at h
  obtain ⟨hheader, -, -, hfirst, htail, hpos, htxs, -⟩ := h
  refine ⟨⟨?_, fun tx htx => ?_, fun hp => (checkCoinStake_ok hp (hpos hp)).1⟩, hheader,
    fun hp => (checkCoinStake_ok hp (hpos hp)).2⟩
  · rcases hvtx : block.vtx with _ | ⟨cb, rest⟩
    · simp [hvtx] at hfirst
    · rw [hvtx] at hfirst htail
      refine ⟨cb, rest, rfl, hfirst, fun tx htx => ?_⟩
      simpa using List.all_eq_true.mp htail tx htx
  · have hcheck := forM_ok.mp htxs tx htx
    simp only [checkBlockTx, check_seq_ok] at hcheck
    exact checkTransaction_ok hcheck.1

end

end Reddcoin
