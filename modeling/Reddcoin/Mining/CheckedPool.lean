import Reddcoin.Mempool.ChainAgreement
import Reddcoin.Mining.CreateNewBlock

/-!
# What a checked pool is worth

`CTxMemPool::check` applies the transactions of the pool one after another to the coins.  What it finds for one of them
holds on the view that `AcceptToMemoryPool` uses, over the pool and the coins together, and so on every view on which
some of them have been applied.
-/

namespace Reddcoin

open List

variable {s s' : PoolCheck}

/-! ## Inputs on two views -/

/-- The entry holds outputs of the other one, and the rest of it is the same to `CheckInputs`. -/
structure CCoins.Within (c c' : CCoins) : Prop where
  outs : ∀ n out, c.out? n = some out → c'.out? n = some out
  coinBase : c.fCoinBase = c'.fCoinBase
  coinStake : c.fCoinStake = c'.fCoinStake
  time : c.nTime = c'.nTime
  height : (c'.fCoinBase || c'.fCoinStake) = true → c.nHeight = c'.nHeight

/-- The output that the input spends is there in both views. -/
structure SameInput (v w : CoinsView) (txin : CTxIn) : Prop where
  within : (v.coins txin.prevout.hash).Within (w.coins txin.prevout.hash)
  available : ∃ out, v.out? txin.prevout.hash txin.prevout.n = some out

section

variable {c c' : CCoins} {v w : CoinsView} {txin : CTxIn} {tx : CTransaction} {D : Set Uint256}

theorem CCoins.Within.refl (c : CCoins) : c.Within c :=
  ⟨fun _ _ h => h, rfl, rfl, rfl, fun _ => rfl⟩

theorem CCoins.Within.spent (h : c.Within c') (n : Nat) : (c.spent n).Within c' where
  outs := by
    intro m out hout
    rw [CCoins.out?_spent] at hout
    split_ifs at hout
    exact h.outs m out hout
  coinBase := h.coinBase
  coinStake := h.coinStake
  time := h.time
  height := h.height

/-- What a view holds of one without flags does not depend on its height. -/
theorem CCoins.Within.fromTx (hcb : tx.isCoinBase = false) (hcs : tx.isCoinStake = false) (nHeight nHeight' : Nat) :
    (CCoins.fromTx tx nHeight).Within (CCoins.fromTx tx nHeight') where
  outs := by
    intro n out hout
    rw [CCoins.out?_fromTx] at hout ⊢
    exact hout
  coinBase := rfl
  coinStake := rfl
  time := rfl
  height := by
    intro hflags
    change (tx.isCoinBase || tx.isCoinStake) = true at hflags
    rw [hcb, hcs] at hflags
    cases hflags

theorem LiveEntries.sameInputs (h : LiveEntries (fun k c => k ∈ D ∨ c.Within (w.coins k)) v)
    (hcb : tx.isCoinBase = false) (hhave : haveInputs v tx) (hD : ∀ txin ∈ tx.vin, txin.prevout.hash ∉ D) :
    ∀ txin ∈ tx.vin, SameInput v w txin := by
  intro txin htxin
  obtain ⟨out, hout⟩ := Option.isSome_iff_exists.mp ((haveInputs_iff hcb).mp hhave txin htxin)
  exact ⟨(h.of_out? hout).resolve_left (hD txin htxin), out, hout⟩

/-- What both views answer for the input. -/
theorem SameInput.coins (h : SameInput v w txin) : ∃ c c' out, v.accessCoins txin.prevout.hash = some c ∧
    w.accessCoins txin.prevout.hash = some c' ∧ c.Within c' ∧ c.out? txin.prevout.n = some out ∧
      c'.out? txin.prevout.n = some out := by
  obtain ⟨out, hout⟩ := h.available
  have hout' := h.within.outs _ out hout
  exact ⟨_, _, out, accessCoins_of_live (CCoins.isPruned_eq_false_iff.mpr ⟨_, out, hout⟩),
    accessCoins_of_live (CCoins.isPruned_eq_false_iff.mpr ⟨_, out, hout'⟩), h.within, hout, hout'⟩

theorem SameInput.getOutputFor (h : SameInput v w txin) : getOutputFor v txin = getOutputFor w txin := by
  obtain ⟨c, c', out, hv, hw, -, hout, hout'⟩ := h.coins
  show (v.accessCoins _).bind _ = (w.accessCoins _).bind _
  rw [hv, hw, Option.bind_some, Option.bind_some, hout, hout']

theorem SameInput.checkInput (h : SameInput v w txin) (nSpendHeight : Nat) (tx : CTransaction) (nValueIn : Int) :
    checkInput v nSpendHeight tx nValueIn txin = checkInput w nSpendHeight tx nValueIn txin := by
  obtain ⟨c, c', out, hv, hw, hwithin, hout, hout'⟩ := h.coins
  have hmature : ((c.fCoinBase || c.fCoinStake) && decide ((nSpendHeight : Int) - c.nHeight < COINBASE_MATURITY)) =
      ((c'.fCoinBase || c'.fCoinStake) && decide ((nSpendHeight : Int) - c'.nHeight < COINBASE_MATURITY)) := by
    rw [hwithin.coinBase, hwithin.coinStake]
    cases hflags : (c'.fCoinBase || c'.fCoinStake) with
    | true => rw [hwithin.height hflags]
    | false => rfl
  unfold Reddcoin.checkInput
  rw [hv, hw]
  show (require _ _ >>= fun _ => _) = (require _ _ >>= fun _ => _)
  rw [hmature, hwithin.time, (CCoins.out?_eq_some.mp hout).1, (CCoins.out?_eq_some.mp hout').1]

theorem foldlM_congr {m : Type → Type} [Monad m] {α β : Type} {f g : β → α → m β} {l : List α}
    (h : ∀ a ∈ l, ∀ b, f b a = g b a) (b : β) : l.foldlM f b = l.foldlM g b := by
  induction l generalizing b with
  | nil => rfl
  | cons a l ih =>
    rw [foldlM_cons, foldlM_cons, h a mem_cons_self]
    congr 1
    funext b'
    exact ih (fun a' ha' => h a' (mem_cons_of_mem _ ha')) b'

theorem mapM_congr {m : Type → Type} [Monad m] [LawfulMonad m] {α β : Type} {f g : α → m β} {l : List α}
    (h : ∀ a ∈ l, f a = g a) : l.mapM f = l.mapM g := by
  induction l with
  | nil => rfl
  | cons a l ih =>
    rw [mapM_cons, mapM_cons, h a mem_cons_self, ih fun a' ha' => h a' (mem_cons_of_mem _ ha')]

theorem haveInputs_same (hcb : tx.isCoinBase = false) (h : ∀ txin ∈ tx.vin, SameInput v w txin) :
    haveInputs w tx = true := by
  rw [haveInputs_iff hcb]
  intro txin htxin
  obtain ⟨out, hout⟩ := (h txin htxin).available
  have hout' : w.utxo txin.prevout.hash txin.prevout.n = some out := (h txin htxin).within.outs _ out hout
  rw [hout']
  rfl

section

variable (h : ∀ txin ∈ tx.vin, SameInput v w txin)

include h

theorem getValueIn_same : getValueIn v tx = getValueIn w tx := by
  unfold getValueIn
  split_ifs
  · rfl
  · exact foldlM_congr (fun txin htxin _ => by rw [(h txin htxin).getOutputFor]) 0

theorem getP2SHSigOpCount_same : getP2SHSigOpCount v tx = getP2SHSigOpCount w tx := by
  unfold getP2SHSigOpCount
  split_ifs
  · rfl
  · exact foldlM_congr (fun txin htxin _ => by rw [(h txin htxin).getOutputFor]) 0

theorem scriptChecks_same (flags : Nat) : scriptChecks v flags tx = scriptChecks w flags tx := by
  unfold scriptChecks
  refine mapM_congr fun a ha => ?_
  obtain ⟨c, c', out, hv, hw, -, hout, hout'⟩ := (h a.1 (fst_mem_of_mem_zipIdx ha)).coins
  show (orCrash (v.accessCoins a.1.prevout.hash) >>= fun _ => _) = (orCrash (w.accessCoins a.1.prevout.hash) >>= fun _ => _)
  rw [hv, hw]
  show (orCrash c.vout[a.1.prevout.n]? >>= fun _ => _) = (orCrash c'.vout[a.1.prevout.n]? >>= fun _ => _)
  rw [(CCoins.out?_eq_some.mp hout).1, (CCoins.out?_eq_some.mp hout').1]

end

/-- Without script checks nothing is handed back. -/
theorem checkInputs_unchecked {C : Crypto} {nSpendHeight flags : Nat} {fThreads : Bool} {checks : List CScriptCheck}
    (h : checkInputs C v nSpendHeight tx false flags fThreads = .ok checks) : checks = [] := by
  unfold checkInputs at h
  cases hcb : tx.isCoinBase with
  | true =>
    rw [hcb] at h
    exact (check_pure_ok.mp h).symm
  | false =>
    rw [hcb] at h
    obtain ⟨-, h⟩ := check_seq_ok.mp h
    obtain ⟨_, -, h⟩ := check_bind_ok.mp h
    obtain ⟨-, h⟩ := check_seq_ok.mp h
    exact (check_pure_ok.mp h).symm

/-- `CheckInputs` gives the same answer on both views. -/
theorem checkInputs_same (C : Crypto) (hcb : tx.isCoinBase = false) (hhave : haveInputs v tx)
    (h : ∀ txin ∈ tx.vin, SameInput v w txin) (nSpendHeight : Nat) (fScriptChecks : Bool) (flags : Nat)
    (fThreads : Bool) : checkInputs C v nSpendHeight tx fScriptChecks flags fThreads =
      checkInputs C w nSpendHeight tx fScriptChecks flags fThreads := by
  unfold checkInputs
  rw [hhave, haveInputs_same hcb h, scriptChecks_same h,
    foldlM_congr (fun txin htxin nValueIn => (h txin htxin).checkInput nSpendHeight tx nValueIn) 0]

end

/-! ## Script checks -/

section

variable {C : Crypto} {v : CoinsView} {nSpendHeight flags : Nat} {tx : CTransaction} {checks : List CScriptCheck}

theorem mapM_ok {ε α β : Type} {f : α → Except ε β} {l : List α} (h : ∀ a ∈ l, ∃ b, f a = .ok b) :
    ∃ bs, l.mapM f = .ok bs := by
  induction l with
  | nil => exact ⟨[], rfl⟩
  | cons a l ih =>
    obtain ⟨b, hb⟩ := h a mem_cons_self
    obtain ⟨bs, hbs⟩ := ih fun a' ha' => h a' (mem_cons_of_mem _ ha')
    exact ⟨b :: bs, by rw [mapM_cons, hb, hbs]; rfl⟩

theorem scriptChecks_ok (hcb : tx.isCoinBase = false) (hhave : haveInputs v tx) (flags : Nat) :
    ∃ checks, scriptChecks v flags tx = .ok checks := by
  refine mapM_ok fun a ha => ?_
  obtain ⟨out, hout⟩ := Option.isSome_iff_exists.mp
    ((haveInputs_iff hcb).mp hhave a.1 (fst_mem_of_mem_zipIdx ha))
  have haccess := accessCoins_of_live (CCoins.isPruned_eq_false_iff.mpr ⟨_, out, hout⟩)
  refine ⟨⟨out.scriptPubKey, tx, a.2, flags⟩, ?_⟩
  show (orCrash (v.accessCoins a.1.prevout.hash) >>= fun _ => _) = _
  rw [haccess]
  show (orCrash (v.coins a.1.prevout.hash).vout[a.1.prevout.n]? >>= fun _ => _) = _
  rw [(CCoins.out?_eq_some.mp hout).1]
  rfl

/-- What `CheckInputs` does with a transaction that passes without script checks. -/
theorem checkInputs_scripts (hcb : tx.isCoinBase = false)
    (h : checkInputs C v nSpendHeight tx false 0 false = .ok []) (flags : Nat) :
    ∃ checks, ∀ fScriptChecks fThreads, checkInputs C v nSpendHeight tx fScriptChecks flags fThreads =
      if fScriptChecks then if fThreads then pure checks else do
        checks.forM (runScriptCheck C flags)
        pure []
      else pure [] := by
  obtain ⟨hhave, nValueIn, hvalues, -⟩ := checkInputs_passed hcb h
  obtain ⟨checks, hchecks⟩ := scriptChecks_ok hcb hhave flags
  have hfee : onlyIf (!tx.isCoinStake) (checkFee tx nValueIn) = .ok () := by
    simp only [checkInputs, hcb, Bool.false_eq_true, if_false, check_seq_ok] at h
    obtain ⟨-, h⟩ := h
    obtain ⟨nValueIn', hvalues', h⟩ := check_bind_ok.mp h
    rw [hvalues] at hvalues'
    cases hvalues'
    exact (check_seq_ok.mp h).1
  refine ⟨checks, fun fScriptChecks fThreads => ?_⟩
  simp only [checkInputs, hcb, Bool.false_eq_true, if_false, hhave, hvalues, hchecks]
  show (onlyIf (!tx.isCoinStake) (checkFee tx nValueIn) >>= fun _ => _) = _
  rw [hfee]
  rfl

theorem runScriptCheck_verdict (C : Crypto) (flags : Nat) (check : CScriptCheck) :
    (runScriptCheck C flags check = .ok () ∧ (check.run C).isNone) ∨
      ∃ state, runScriptCheck C flags check = .error (.returns state) := by
  unfold runScriptCheck
  cases hrun : check.run C with
  | none => exact .inl ⟨rfl, rfl⟩
  | some err =>
    refine .inr ?_
    by_cases hflags : decide (flags &&& STANDARD_NOT_MANDATORY_VERIFY_FLAGS ≠ 0) = true
    · simp only [onlyIf, hflags, if_true]
      cases CScriptCheck.run C _ with
      | none | some _ => exact ⟨_, rfl⟩
    · simp only [onlyIf, hflags, if_false, Bool.false_eq_true]
      exact ⟨_, rfl⟩

theorem runScriptChecks_verdict (C : Crypto) (flags : Nat) (checks : List CScriptCheck) :
    (checks.forM (runScriptCheck C flags) = .ok () ∧ (checks.all fun check => (check.run C).isNone)) ∨
      ∃ state, checks.forM (runScriptCheck C flags) = .error (.returns state) := by
  induction checks with
  | nil => exact .inl ⟨rfl, rfl⟩
  | cons check checks ih =>
    have hcons : (check :: checks).forM (runScriptCheck C flags) =
        runScriptCheck C flags check >>= fun _ => checks.forM (runScriptCheck C flags) := rfl
    rw [hcons, all_cons]
    rcases runScriptCheck_verdict C flags check with ⟨hhead, hnone⟩ | ⟨state, hhead⟩
    · rw [hhead, hnone, Bool.true_and]
      exact ih
    · rw [hhead]
      exact .inr ⟨state, rfl⟩

/-- Without worker threads the verdict comes at once, and with them the scripts say the same. -/
theorem checkInputs_verdict (hcb : tx.isCoinBase = false)
    (h : checkInputs C v nSpendHeight tx false 0 false = .ok []) (flags : Nat) :
    (∃ state, checkInputs C v nSpendHeight tx true flags false = .error (.returns state)) ∨
      (checkInputs C v nSpendHeight tx true flags false = .ok [] ∧ ∀ fScriptChecks fThreads, ∃ checks,
        checkInputs C v nSpendHeight tx fScriptChecks flags fThreads = .ok checks ∧
          (checks.all fun check => (check.run C).isNone)) := by
  obtain ⟨checks, hchecks⟩ := checkInputs_scripts hcb h flags
  have hsame := hchecks true false
  simp only [if_true, Bool.false_eq_true, if_false] at hsame
  rcases runScriptChecks_verdict C flags checks with ⟨hrun, hnone⟩ | ⟨state, hrun⟩
  · refine .inr ⟨by rw [hsame, hrun]; rfl, fun fScriptChecks fThreads => ?_⟩
    rw [hchecks]
    cases fScriptChecks with
    | false => exact ⟨[], rfl, rfl⟩
    | true =>
      cases fThreads with
      | false => exact ⟨[], by rw [hrun]; rfl, rfl⟩
      | true => exact ⟨checks, rfl, hnone⟩
  · exact .inl ⟨state, by rw [hsame, hrun]; rfl⟩

end

/-! ## The pool -/

namespace Miner

variable {D : Type} (M : Miner D)

/-- The view of `AcceptToMemoryPool`, over the pool and the coins. -/
def poolView : CoinsView :=
  M.mempool.viewOver M.pcoinsTip

/-- `CheckInputs` on the pool, for the next block. -/
def checksInputs (tx : CTransaction) (fScriptChecks : Bool) (flags : Nat) : Check (List CScriptCheck) :=
  checkInputs M.C M.poolView (M.nHeight + 1) tx fScriptChecks flags false

/-- What `AcceptToMemoryPool` has made sure of in a transaction of the pool.  The standard flags contain those of every
block. -/
structure Admitted (tx : CTransaction) : Prop where
  checked : checkTransaction tx = .ok ()
  coinBase : tx.isCoinBase = false
  coinStake : tx.isCoinStake = false
  unknown : M.pcoinsTip.haveCoins (M.C.txHash tx) = false
  strict : M.checksInputs tx true MANDATORY_SCRIPT_VERIFY_FLAGS = .ok [] →
    M.checksInputs tx true (SCRIPT_VERIFY_P2SH ||| SCRIPT_VERIFY_DERSIG) = .ok []

/-- The transaction is in the pool. -/
def InPool (tx : CTransaction) : Prop :=
  ∃ hash entry, M.mempool.mapTx.lookup hash = some entry ∧ entry.tx = tx

/-- A pool that passes `check`, of transactions that `AcceptToMemoryPool` has let in. -/
structure CheckedPool : Prop where
  inv : M.mempool.Inv M.C
  admitted : ∀ tx, M.InPool tx → M.Admitted tx
  passes : ∀ tx, M.InPool tx → M.checksInputs tx false 0 = .ok []

/-- The view holds what the pool and the coins have, or less of it, outside `D`. -/
def Holds (D : Set Uint256) (v : CoinsView) : Prop :=
  LiveEntries (fun k c => k ∈ D ∨ c.Within (M.poolView.coins k)) v

variable {M} {E : Set Uint256} {v v' : CoinsView} {tx : CTransaction} {hash : Uint256} {entry : CTxMemPoolEntry}

theorem coins_isPruned_of_haveCoins {k : Uint256} (h : v.haveCoins k = false) : (v.coins k).isPruned = true := by
  unfold CoinsView.haveCoins at h
  rcases CoinsView.accessCoins_eq (v := v) k with hsome | ⟨-, hnew⟩
  · rw [hsome, Bool.not_eq_false', List.isEmpty_iff] at h
    rw [CCoins.isPruned_iff]
    intro n
    unfold CCoins.out?
    rw [h]
    rfl
  · rw [hnew]
    rfl

theorem holds_start (hadm : ∀ tx, M.InPool tx → M.Admitted tx)
    (hkeyed : ∀ hash entry, M.mempool.mapTx.lookup hash = some entry → M.C.txHash entry.tx = hash) (E : Set Uint256) :
    M.Holds E M.pcoinsTip.flush := by
  intro k hlive
  rw [coins_flush] at hlive ⊢
  refine .inr ?_
  cases hin : M.mempool.mapTx.lookup k with
  | some entry =>
    have hunknown := (hadm entry.tx ⟨k, entry, hin, rfl⟩).unknown
    rw [hkeyed k entry hin] at hunknown
    rw [coins_isPruned_of_haveCoins hunknown] at hlive
    cases hlive
  | none =>
    have hsame : M.poolView.coins k = M.pcoinsTip.coins k := by
      rw [poolView, CTxMemPool.viewOver, coins_over, CTxMemPool.getCoins, hin, accessCoins_of_live hlive]
      simp [Option.filter, hlive]
    rw [hsame]
    exact .refl _

theorem Holds.updateCoins (h : M.Holds E v) (hin : M.mempool.mapTx.lookup (M.C.txHash tx) = some entry)
    (heq : entry.tx = tx) (hadm : M.Admitted tx) {nHeight : Nat} {undo : CTxUndo}
    (hrun : updateCoins M.C v tx nHeight = some (v', undo)) : M.Holds E v' := by
  refine LiveEntries.updateCoins (fun k c n hc => hc.imp_right fun hw => hw.spent n) h (.inr ?_) hrun
  rw [poolView, coins_viewOver_pool hin, heq]
  exact .fromTx hadm.coinBase hadm.coinStake _ _

/-! ## What `check` finds -/

section

open CTxMemPool

/-- Every input has its place in the index. -/
theorem checkPoolInputs_next {i : Nat} {vin : List CTxIn} {waits : Bool}
    (h : checkPoolInputs M.mempool M.pcoinsTip hash i vin = .ok waits) {j : Nat} {txin : CTxIn}
    (hj : vin[j]? = some txin) : M.mempool.mapNextTx.lookup txin.prevout = some ⟨hash, i + j⟩ := by
  induction vin generalizing i j waits with
  | nil => simp at hj
  | cons txin' vin ih =>
    obtain ⟨_, -, h⟩ := check_bind_ok.mp h
    obtain ⟨hnext, h⟩ := check_seq_ok.mp h
    obtain ⟨_, hothers, -⟩ := check_bind_ok.mp h
    rw [assert_eq_ok, decide_eq_true_eq] at hnext
    cases j with
    | zero =>
      cases hj
      exact hnext
    | succ j =>
      rw [ih hothers (by simpa using hj)]
      congr 2
      omega

theorem checkEntry_ok {e : Σ _ : Uint256, CTxMemPoolEntry}
    (h : CTxMemPool.checkEntry M.C M.mempool M.pcoinsTip (M.nHeight + 1) s e = .ok s') :
    (∃ waits, checkPoolInputs M.mempool M.pcoinsTip e.1 0 e.2.tx.vin = .ok waits) ∧
      s'.checkTotal = s.checkTotal + e.2.nTxSize ∧
      ((s'.mempoolDuplicate = s.mempoolDuplicate ∧ s'.waitingOnDependants = s.waitingOnDependants ++ [e.2.tx]) ∨
        (applyPoolTx M.C (M.nHeight + 1) s.mempoolDuplicate e.2.tx = .ok s'.mempoolDuplicate ∧
          s'.waitingOnDependants = s.waitingOnDependants)) := by
  obtain ⟨waits, hwaits, h⟩ := check_bind_ok.mp h
  refine ⟨⟨waits, hwaits⟩, ?_⟩
  cases waits with
  | true =>
    obtain rfl := check_pure_ok.mp h
    exact ⟨rfl, .inl ⟨rfl, rfl⟩⟩
  | false =>
    obtain ⟨view, hview, h⟩ := check_bind_ok.mp h
    obtain rfl := check_pure_ok.mp h
    exact ⟨rfl, .inr ⟨hview, rfl⟩⟩

/-- The loop over the entries finds every input in the index, and adds up the sizes. -/
theorem checkEntries_index {rest : List (Σ _ : Uint256, CTxMemPoolEntry)}
    (h : rest.foldlM (CTxMemPool.checkEntry M.C M.mempool M.pcoinsTip (M.nHeight + 1)) s = .ok s') :
    s'.checkTotal = s.checkTotal + (rest.map fun e => e.2.nTxSize).sum ∧
      ∀ e ∈ rest, ∃ waits, checkPoolInputs M.mempool M.pcoinsTip e.1 0 e.2.tx.vin = .ok waits := by
  induction rest generalizing s with
  | nil =>
    obtain rfl := check_pure_ok.mp h
    exact ⟨rfl, fun e he => by simp at he⟩
  | cons e rest ih =>
    rw [foldlM_cons, check_bind_ok] at h
    obtain ⟨mid, hhead, h⟩ := h
    obtain ⟨hwaits, htotal, -⟩ := checkEntry_ok hhead
    obtain ⟨hsum, hothers⟩ := ih h
    refine ⟨?_, fun e' he' => ?_⟩
    · rw [hsum, htotal, map_cons, sum_cons, Nat.add_assoc]
    · rcases mem_cons.mp he' with rfl | he'
      · exact hwaits
      · exact hothers e' he'

theorem checkNext_ok {e : Σ _ : COutPoint, CInPoint} (h : checkNext M.C M.mempool e = .ok ()) :
    ∃ entry, M.mempool.mapTx.lookup e.2.ptx = some entry ∧ M.C.txHash entry.tx = e.2.ptx ∧
      (entry.tx.vin[e.2.n]?).map CTxIn.prevout = some e.1 := by
  obtain ⟨followed, hfollow, h⟩ := check_bind_ok.mp h
  unfold followHash at hfollow
  cases hin : M.mempool.mapTx.lookup e.2.ptx with
  | none =>
    rw [hin] at hfollow
    cases hfollow
  | some entry =>
    rw [hin] at hfollow
    cases hfollow
    cases hin' : M.mempool.mapTx.lookup (M.C.txHash entry.tx) with
    | none =>
      rw [hin'] at h
      cases h
    | some entry' =>
      rw [hin', check_seq_ok, assert_eq_ok, assert_eq_ok, decide_eq_true_eq, decide_eq_true_eq] at h
      obtain ⟨hkey, hspends⟩ := h
      rw [hkey, hin] at hin'
      cases hin'
      exact ⟨entry, rfl, hkey, hspends⟩

/-- The assertions of `check` make the index right, where every transaction has inputs. -/
theorem inv_of_checkAll (hvin : ∀ tx, M.InPool tx → tx.vin ≠ [])
    (h : M.mempool.checkAll M.C M.pcoinsTip (M.nHeight + 1) = .ok ()) : M.mempool.Inv M.C := by
  obtain ⟨s, hs, h⟩ := check_bind_ok.mp h
  obtain ⟨_, -, h⟩ := check_bind_ok.mp h
  obtain ⟨hall, h⟩ := check_seq_ok.mp h
  obtain ⟨htotal, hinputs⟩ := checkEntries_index hs
  have hspends : ∀ o p, M.mempool.Spends o p → M.mempool.mapNextTx.lookup o = some p := by
    rintro o p ⟨entry, hin, hspend⟩
    obtain ⟨txin, htxin, rfl⟩ := Option.map_eq_some_iff.mp hspend
    obtain ⟨_, hwaits⟩ := hinputs ⟨p.ptx, entry⟩ (mem_sortedMapTx.mpr hin)
    rw [checkPoolInputs_next hwaits htxin, Nat.zero_add]
  have hnext : ∀ o p, M.mempool.mapNextTx.lookup o = some p → ∃ entry, M.mempool.mapTx.lookup p.ptx = some entry ∧
      M.C.txHash entry.tx = p.ptx ∧ (entry.tx.vin[p.n]?).map CTxIn.prevout = some o := by
    intro o p hp
    have hmem := (AList.mem_lookup_iff (s := M.mempool.mapNextTx) (a := o) (b := p)).mp hp
    exact checkNext_ok (forM_ok.mp hall ⟨o, p⟩ hmem)
  refine ⟨fun hash entry hin => ?_, fun o p => ⟨fun hp => ?_, hspends o p⟩, ?_⟩
  · obtain ⟨txin, vin, hcons⟩ := exists_cons_of_ne_nil (hvin entry.tx ⟨hash, entry, hin, rfl⟩)
    have hp := hspends txin.prevout ⟨hash, 0⟩ ⟨entry, hin, by rw [hcons]; rfl⟩
    obtain ⟨entry', hin', hkey, -⟩ := hnext _ _ hp
    rw [hin] at hin'
    cases hin'
    exact hkey
  · obtain ⟨entry, hin, -, hspend⟩ := hnext o p hp
    exact ⟨entry, hin, hspend⟩
  · rw [assert_eq_ok, decide_eq_true_eq] at h
    rw [h, htotal, Nat.zero_add]
    exact (perm_sortedMapTx.map _).sum_eq

/-- A transaction that `check` has applied passes on the pool. -/
theorem applyPoolTx_ok (hcb : tx.isCoinBase = false) (hv : M.Holds ∅ v)
    (h : applyPoolTx M.C (M.nHeight + 1) v tx = .ok v') :
    M.checksInputs tx false 0 = .ok [] ∧ ∃ undo, updateCoins M.C v tx 1000000 = some (v', undo) := by
  unfold applyPoolTx at h
  cases hcheck : checkInputs M.C v (M.nHeight + 1) tx false 0 false with
  | error stop =>
    rw [hcheck] at h
    cases h
  | ok checks =>
    cases hupdate : updateCoins M.C v tx 1000000 with
    | none =>
      rw [hcheck, hupdate] at h
      cases h
    | some r =>
      rw [hcheck, hupdate] at h
      cases h
      have hhave := (checkInputs_passed hcb hcheck).1
      have hsame := hv.sameInputs hcb hhave fun _ _ => Set.notMem_empty _
      have hnil : checks = [] := checkInputs_unchecked hcheck
      rw [checkInputs_same M.C hcb hhave hsame, hnil] at hcheck
      exact ⟨hcheck, r.2, rfl⟩

variable (hadm : ∀ tx, M.InPool tx → M.Admitted tx) (hinv : M.mempool.Inv M.C)

include hadm hinv

theorem Holds.applyPoolTx (hin : M.InPool tx) (hv : M.Holds ∅ v)
    (h : applyPoolTx M.C (M.nHeight + 1) v tx = .ok v') : M.checksInputs tx false 0 = .ok [] ∧ M.Holds ∅ v' := by
  obtain ⟨hpass, undo, hupdate⟩ := applyPoolTx_ok (hadm tx hin).coinBase hv h
  obtain ⟨hash, entry, hlook, rfl⟩ := hin
  have hkey := hinv.keyed hash entry hlook
  exact ⟨hpass, hv.updateCoins (by rw [hkey]; exact hlook) rfl (hadm _ ⟨hash, entry, hlook, rfl⟩) hupdate⟩

/-- The loop over the entries: one that has not been applied waits. -/
theorem checkEntries_pass {rest : List (Σ _ : Uint256, CTxMemPoolEntry)} (hrest : ∀ e ∈ rest, M.InPool e.2.tx)
    (hv : M.Holds ∅ s.mempoolDuplicate) (hwait : ∀ tx ∈ s.waitingOnDependants, M.InPool tx)
    (h : rest.foldlM (CTxMemPool.checkEntry M.C M.mempool M.pcoinsTip (M.nHeight + 1)) s = .ok s') :
    M.Holds ∅ s'.mempoolDuplicate ∧ (∀ tx ∈ s'.waitingOnDependants, M.InPool tx) ∧
      (∀ tx ∈ s.waitingOnDependants, tx ∈ s'.waitingOnDependants) ∧
      ∀ e ∈ rest, M.checksInputs e.2.tx false 0 = .ok [] ∨ e.2.tx ∈ s'.waitingOnDependants := by
  induction rest generalizing s with
  | nil =>
    obtain rfl := check_pure_ok.mp h
    exact ⟨hv, hwait, fun _ htx => htx, fun e he => by simp at he⟩
  | cons e rest ih =>
    rw [foldlM_cons, check_bind_ok] at h
    obtain ⟨mid, hhead, h⟩ := h
    have hothers := fun e' he' => hrest e' (mem_cons_of_mem _ he')
    obtain ⟨-, -, ⟨hview, hwaits⟩ | ⟨happly, hwaits⟩⟩ := checkEntry_ok hhead
    · have hwait' : ∀ tx ∈ mid.waitingOnDependants, M.InPool tx := by
        intro tx htx
        rw [hwaits] at htx
        rcases mem_append.mp htx with htx | htx
        · exact hwait tx htx
        · rw [mem_singleton.mp htx]
          exact hrest e mem_cons_self
      obtain ⟨hv', hin', hkept, hall⟩ := ih hothers (by rw [hview]; exact hv) hwait' h
      refine ⟨hv', hin', fun tx htx => hkept tx ?_, fun e' he' => ?_⟩
      · rw [hwaits]
        exact mem_append_left _ htx
      · rcases mem_cons.mp he' with rfl | he'
        · refine .inr (hkept _ ?_)
          rw [hwaits]
          exact mem_append_right _ mem_cons_self
        · exact hall e' he'
    · obtain ⟨hpass, hmid⟩ := hv.applyPoolTx hadm hinv (hrest e mem_cons_self) happly
      obtain ⟨hv', hin', hkept, hall⟩ := ih hothers hmid (by rw [hwaits]; exact hwait) h
      rw [hwaits] at hkept
      refine ⟨hv', hin', hkept, fun e' he' => ?_⟩
      rcases mem_cons.mp he' with rfl | he'
      · exact .inl hpass
      · exact hall e' he'

/-- The loop over those that wait applies all of them. -/
theorem checkWaiting_pass {turns : Nat} {txs : List CTransaction} (htxs : ∀ tx ∈ txs, M.InPool tx) {steps : Nat}
    {last : CoinsView} (hv : M.Holds ∅ v)
    (h : checkWaiting M.C (M.nHeight + 1) turns v txs steps = .ok last) :
    ∀ tx ∈ txs, M.checksInputs tx false 0 = .ok [] := by
  induction turns generalizing v txs steps with
  | zero =>
    cases txs with
    | nil => exact fun tx htx => by simp at htx
    | cons tx rest => cases h
  | succ turns ih =>
    cases txs with
    | nil => exact fun tx htx => by simp at htx
    | cons tx rest =>
      have hothers := fun t ht => htxs t (mem_cons_of_mem _ ht)
      unfold checkWaiting at h
      split_ifs at h with hhave
      · obtain ⟨v', happly, h⟩ := check_bind_ok.mp h
        obtain ⟨hpass, hv'⟩ := hv.applyPoolTx hadm hinv (htxs tx mem_cons_self) happly
        intro t ht
        rcases mem_cons.mp ht with rfl | ht
        · exact hpass
        · exact ih hothers hv' h t ht
      · obtain ⟨-, h⟩ := check_seq_ok.mp h
        have hrotated : ∀ t, t ∈ rest ++ [tx] ↔ t ∈ tx :: rest := by
          intro t
          rw [mem_append, mem_singleton, mem_cons, or_comm]
        exact fun t ht => ih (fun t ht => htxs t ((hrotated t).mp ht)) hv h t ((hrotated t).mpr ht)

end

/-- A pool that passes `check`. -/
theorem checkedPool_of_checkAll (hadm : ∀ tx, M.InPool tx → M.Admitted tx)
    (h : M.mempool.checkAll M.C M.pcoinsTip (M.nHeight + 1) = .ok ()) : M.CheckedPool := by
  have hinv := inv_of_checkAll (fun tx hin => (checkTransaction_ok (hadm tx hin).checked).vin_ne_nil) h
  refine ⟨hinv, hadm, ?_⟩
  obtain ⟨s, hs, h⟩ := check_bind_ok.mp h
  obtain ⟨last, hwaiting, -⟩ := check_bind_ok.mp h
  have hentries : ∀ e ∈ M.mempool.sortedMapTx, M.InPool e.2.tx :=
    fun e he => ⟨e.1, e.2, mem_sortedMapTx.mp he, rfl⟩
  obtain ⟨hv, hwait, -, hall⟩ := checkEntries_pass hadm hinv hentries (holds_start hadm hinv.keyed ∅)
    (fun tx htx => by simp at htx) hs
  rintro tx ⟨hash, entry, hin, rfl⟩
  rcases hall ⟨hash, entry⟩ (mem_sortedMapTx.mpr hin) with hpass | hwaits
  · exact hpass
  · exact checkWaiting_pass hadm hinv hwait hv hwaiting _ hwaits

end Miner

end Reddcoin
