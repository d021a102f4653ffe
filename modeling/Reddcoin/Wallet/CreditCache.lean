import Reddcoin.Wallet.Balance

/-!
# The cached credit of a wallet

What the wallet does when it hears of some transactions: the others stay as they are, and a transaction that is spent
by one of them forgets its cached credit.  A cached credit stays right as long as the wallet hears of every spending
transaction that comes in sight or gets out of sight.
-/

namespace Reddcoin

namespace CWalletTx

variable {C : Crypto} {node : ChainNode} {a b c : CWalletTx} {tx : CTransaction} {wtx : CWalletTx}

/-- The same transaction in the same block, perhaps with other cached amounts. -/
def Same (a b : CWalletTx) : Prop :=
  a.markDirty = b.markDirty

theorem Same.refl (a : CWalletTx) : a.Same a :=
  rfl

theorem Same.symm (h : a.Same b) : b.Same a :=
  Eq.symm h

theorem Same.trans (h : a.Same b) (h' : b.Same c) : a.Same c :=
  Eq.trans h h'

theorem markDirty_same (a : CWalletTx) : a.markDirty.Same a :=
  rfl

theorem Same.tx_eq (h : a.Same b) : a.tx = b.tx :=
  congrArg (fun wtx => wtx.tx) h

theorem Same.hash_eq (h : a.Same b) : a.hash = b.hash :=
  congrArg (fun wtx => wtx.hash) h

theorem Same.hashBlock_eq (h : a.Same b) : a.hashBlock = b.hashBlock :=
  congrArg (fun wtx => wtx.hashBlock) h

theorem Same.depth_eq (h : a.Same b) : a.getDepthInMainChain C node = b.getDepthInMainChain C node :=
  congrArg (fun wtx => wtx.getDepthInMainChain C node) h

theorem Same.isImmature_eq (h : a.Same b) : a.isImmature C node = b.isImmature C node :=
  congrArg (fun wtx => wtx.isImmature C node) h

theorem setMerkleBranch_tx (wtx : CWalletTx) (block : CBlock) : (wtx.setMerkleBranch C block).tx = wtx.tx := by
  unfold setMerkleBranch
  split <;> rfl

theorem setMerkleBranch_hash (wtx : CWalletTx) (block : CBlock) : (wtx.setMerkleBranch C block).hash = wtx.hash := by
  unfold setMerkleBranch
  split <;> rfl

/-- The depth is at least 0 for what is in the chain or in the pool. -/
theorem depth_nonneg_iff (wtx : CWalletTx) :
    0 ≤ wtx.getDepthInMainChain C node ↔ wtx.getDepthInActive C node ≠ 0 ∨ node.mempool.has wtx.hash = true := by
  have hactive : 0 ≤ wtx.getDepthInActive C node := by
    unfold getDepthInActive
    split
    · exact le_rfl
    · split_ifs
      · exact le_rfl
      · split
        · exact le_rfl
        · split_ifs <;> omega
  unfold getDepthInMainChain
  cases hhas : node.mempool.has wtx.hash with
  | true => simp [hactive]
  | false =>
    by_cases hzero : wtx.getDepthInActive C node = 0
    · simp [hzero]
    · simp [hzero, hactive]

end CWalletTx

namespace CWallet

section

variable {C : Crypto} {keys : WalletKeys} {node node' : ChainNode} {w w' w'' : CWallet}

/-! ## Spent outputs -/

theorem isSpent_iff {o : COutPoint} :
    w.isSpent C node o ↔ ∃ hash wtx, (o, hash) ∈ w.mapTxSpends ∧ w.mapWallet.lookup hash = some wtx ∧
      0 ≤ wtx.getDepthInMainChain C node := by
  unfold isSpent
  rw [List.any_eq_true]
  constructor
  · rintro ⟨⟨o', hash⟩, hmem, hspent⟩
    rw [Bool.and_eq_true, decide_eq_true_eq] at hspent
    obtain ⟨heq, hdepth⟩ := hspent
    obtain rfl : o' = o := heq
    cases hin : w.mapWallet.lookup hash with
    | none => simp [hin] at hdepth
    | some wtx =>
      simp only [hin, decide_eq_true_eq] at hdepth
      exact ⟨hash, wtx, hmem, hin, hdepth⟩
  · rintro ⟨hash, wtx, hmem, hin, hdepth⟩
    exact ⟨(o, hash), hmem, by simpa [hin] using hdepth⟩

/-- The credit reads the chain and the rest of the wallet only for which outputs of worth are spent. -/
theorem sumCredit_congr {hash : Uint256} {i : Nat} {vout : List CTxOut} {nCredit : Int}
    (h : ∀ j out, vout[j]? = some out → getCredit keys out = some 0 ∨
      w.isSpent C node { hash := hash, n := i + j } = w'.isSpent C node' { hash := hash, n := i + j })
    (hcredit : moneyRange nCredit) :
    w.sumCredit C keys node hash i vout nCredit = w'.sumCredit C keys node' hash i vout nCredit := by
  induction vout generalizing i nCredit with
  | nil => rfl
  | cons out vout ih =>
    have htail : ∀ j o, vout[j]? = some o → getCredit keys o = some 0 ∨
        w.isSpent C node { hash := hash, n := i + 1 + j } = w'.isSpent C node' { hash := hash, n := i + 1 + j } := by
      intro j o ho
      rw [Nat.add_assoc, Nat.add_comm 1 j]
      exact h (j + 1) o ho
    have hrange := moneyRange_iff.mp hcredit
    have hmax := MAX_MONEY_lt
    unfold sumCredit
    rcases h 0 out rfl with hzero | hspent
    · -- it does not matter whether the output is counted
      have hexact : wrap64 (nCredit + 0) = nCredit := by
        rw [Int.add_zero]
        exact wrap64_of_range (by omega) (by omega)
      simp only [hzero, Option.bind_eq_bind, Option.bind_some, hexact, if_pos hcredit, ite_self]
      exact ih htail hcredit
    · rw [Nat.add_zero] at hspent
      rw [hspent]
      split_ifs
      · exact ih htail hcredit
      · cases hget : getCredit keys out with
        | none => rfl
        | some credit =>
          simp only [Option.bind_eq_bind, Option.bind_some]
          split_ifs with hnext
          · exact ih htail hnext
          · rfl

/-- Each cached credit is what would be computed. -/
def Fresh (C : Crypto) (keys : WalletKeys) (node : ChainNode) (w : CWallet) : Prop :=
  ∀ hash wtx nCredit, w.mapWallet.lookup hash = some wtx → wtx.nAvailableCreditCached = some nCredit →
    w.sumCredit C keys node wtx.hash 0 wtx.tx.vout 0 = some nCredit

theorem Fresh.getAvailableCredit_eq (h : w.Fresh C keys node) {hash : Uint256}
    (hin : w.mapWallet.lookup hash = some wtx) :
    (w.getAvailableCredit C keys node wtx true).map Prod.fst =
      (w.getAvailableCredit C keys node wtx false).map Prod.fst := by
  unfold getAvailableCredit
  by_cases himmature : wtx.isImmature C node = true
  · rw [if_pos himmature, if_pos himmature]
  · rw [if_neg himmature, if_neg himmature, if_pos rfl, if_neg Bool.false_ne_true]
    cases hcached : wtx.nAvailableCreditCached with
    | none => rfl
    | some nCredit =>
      rw [h hash wtx nCredit hin hcached]
      rfl

/-! ## Hearing of transactions -/

/-- The transaction has no cached credit. -/
def Uncached (w : CWallet) (hash : Uint256) : Prop :=
  ∀ wtx, w.mapWallet.lookup hash = some wtx → wtx.nAvailableCreditCached = none

/-- Only the transactions of `A` are new or in other blocks; no credit gets cached. -/
structure Touched (A : Set Uint256) (w w' : CWallet) : Prop where
  others : ∀ hash ∉ A, ∀ wtx, w.mapWallet.lookup hash = some wtx →
    ∃ wtx', w'.mapWallet.lookup hash = some wtx' ∧ wtx'.Same wtx
  spends : ∀ o, ∀ hash ∉ A, (o, hash) ∈ w'.mapTxSpends → (o, hash) ∈ w.mapTxSpends
  grows : ∀ spend ∈ w.mapTxSpends, spend ∈ w'.mapTxSpends
  kept : ∀ hash wtx nCredit, w'.mapWallet.lookup hash = some wtx → wtx.nAvailableCreditCached = some nCredit →
    w.mapWallet.lookup hash = some wtx
  locked : w'.setLockedCoins = w.setLockedCoins

variable {A B : Set Uint256}

theorem Touched.refl (A : Set Uint256) (w : CWallet) : Touched A w w where
  others _ _ wtx hin := ⟨wtx, hin, .refl wtx⟩
  spends _ _ _ h := h
  grows _ h := h
  kept _ _ _ h _ := h
  locked := rfl

theorem Touched.mono (h : Touched A w w') (hsub : A ⊆ B) : Touched B w w' where
  others hash hout := h.others hash fun hin => hout (hsub hin)
  spends o hash hout := h.spends o hash fun hin => hout (hsub hin)
  grows := h.grows
  kept := h.kept
  locked := h.locked

theorem Touched.trans (h : Touched A w w') (h' : Touched A w' w'') : Touched A w w'' where
  others := by
    intro hash hout wtx hin
    obtain ⟨wtx', hin', hsame⟩ := h.others hash hout wtx hin
    obtain ⟨wtx'', hin'', hsame'⟩ := h'.others hash hout wtx' hin'
    exact ⟨wtx'', hin'', hsame'.trans hsame⟩
  spends o hash hout hmem := h.spends o hash hout (h'.spends o hash hout hmem)
  grows spend hmem := h'.grows spend (h.grows spend hmem)
  kept hash wtx nCredit hin hcached := h.kept hash wtx nCredit (h'.kept hash wtx nCredit hin hcached) hcached
  locked := h'.locked.trans h.locked

theorem Touched.uncached (h : Touched A w w') {hash : Uint256} (hun : w.Uncached hash) : w'.Uncached hash := by
  intro wtx hin
  cases hcached : wtx.nAvailableCreditCached with
  | none => rfl
  | some nCredit =>
    have hnone := hun wtx (h.kept hash wtx nCredit hin hcached)
    rw [hcached] at hnone
    cases hnone

theorem lookup_insert {m : AList fun _ : Uint256 => CWalletTx} {hash hash' : Uint256} :
    (m.insert hash wtx).lookup hash' = if hash' = hash then some wtx else m.lookup hash' := by
  by_cases heq : hash' = hash
  · rw [if_pos heq, heq, AList.lookup_insert]
  · rw [if_neg heq, AList.lookup_insert_ne heq]

/-- An entry is written without cached credit. -/
theorem touched_insert {spends : List (COutPoint × Uint256)} {hash : Uint256} {wtx' : CWalletTx}
    (hcached : wtx'.nAvailableCreditCached = none)
    (hothers : hash ∉ A → ∀ wtx, w.mapWallet.lookup hash = some wtx → wtx'.Same wtx)
    (hspends : ∀ o, ∀ k ∉ A, (o, k) ∈ spends → (o, k) ∈ w.mapTxSpends)
    (hgrows : ∀ spend ∈ w.mapTxSpends, spend ∈ spends) :
    Touched A w { w with mapWallet := w.mapWallet.insert hash wtx', mapTxSpends := spends } where
  others := by
    intro k hout wtx hin
    show ∃ e, (w.mapWallet.insert hash wtx').lookup k = some e ∧ _
    rw [lookup_insert]
    split_ifs with heq
    · rw [heq] at hout hin
      exact ⟨wtx', rfl, hothers hout wtx hin⟩
    · exact ⟨wtx, hin, .refl wtx⟩
  spends := hspends
  grows := hgrows
  kept := by
    intro k wtx nCredit hin hsome
    change (w.mapWallet.insert hash wtx').lookup k = some wtx at hin
    rw [lookup_insert] at hin
    split_ifs at hin
    · cases hin
      rw [hcached] at hsome
      cases hsome
    · exact hin
  locked := rfl

theorem touched_addToWallet (w : CWallet) (wtxIn : CWalletTx) :
    Touched {wtxIn.hash} w (w.addToWallet wtxIn) := by
  unfold addToWallet
  split
  · refine touched_insert rfl (absurd rfl) (fun _ _ _ h => h) fun _ h => h
  · refine touched_insert rfl (absurd rfl) (fun o k hout hmem => ?_) fun spend h => ?_
    · split_ifs at hmem
      · exact hmem
      · rcases List.mem_append.mp hmem with hmem | hmem
        · exact hmem
        · obtain ⟨txin, -, heq⟩ := List.mem_map.mp hmem
          exact absurd (Prod.mk.inj heq).2.symm hout
    · split_ifs
      · exact h
      · exact List.mem_append_left _ h

section

variable (w : CWallet) (hash : Uint256)

theorem touched_markDirty : Touched ∅ w (w.markDirty hash) := by
  unfold markDirty
  split
  · rename_i wtx hin
    refine touched_insert rfl (fun _ wtx' hin' => ?_) (fun _ _ _ h => h) fun _ h => h
    rw [hin] at hin'
    rw [Option.some.inj hin']
    exact CWalletTx.markDirty_same wtx'
  · exact .refl ∅ w

theorem uncached_markDirty : (w.markDirty hash).Uncached hash := by
  unfold markDirty
  intro wtx' hin'
  split at hin'
  · rw [lookup_insert, if_pos rfl] at hin'
    cases hin'
    rfl
  · rename_i hnone
    rw [hnone] at hin'
    cases hin'

theorem touched_bindWallet : Touched ∅ w (w.bindWallet hash) := by
  refine touched_insert rfl (fun _ wtx hin => ?_) (fun _ _ _ h => h) fun _ h => h
  rw [hin]
  exact CWalletTx.markDirty_same wtx

theorem uncached_bindWallet : (w.bindWallet hash).Uncached hash := by
  intro wtx' hin'
  unfold bindWallet at hin'
  rw [lookup_insert, if_pos rfl] at hin'
  cases hin'
  rfl

end

/-- The loops over the inputs of a transaction. -/
theorem touched_parents {f : CWallet → Uint256 → CWallet} (htouched : ∀ w hash, Touched ∅ w (f w hash))
    (huncached : ∀ w hash, (f w hash).Uncached hash) (vin : List CTxIn) (w : CWallet) :
    Touched ∅ w (vin.foldl (fun w txin => f w txin.prevout.hash) w) ∧
      ∀ txin ∈ vin, (vin.foldl (fun w txin => f w txin.prevout.hash) w).Uncached txin.prevout.hash := by
  induction vin generalizing w with
  | nil => exact ⟨.refl ∅ w, fun _ hm => by simp at hm⟩
  | cons txin vin ih =>
    obtain ⟨hrest, hdrops⟩ := ih (f w txin.prevout.hash)
    refine ⟨(htouched w _).trans hrest, fun t ht => ?_⟩
    rcases List.mem_cons.mp ht with heq | ht
    · rw [heq]
      exact hrest.uncached (huncached w _)
    · exact hdrops t ht

end

/-! ## What the wallet records -/

section

variable (C : Crypto) (T : Set CTransaction) (𝓑 : Set CBlock)

/-- The entry is that of a transaction of `T`. -/
structure Recorded (hash : Uint256) (wtx : CWalletTx) : Prop where
  hash_eq : wtx.hash = hash
  txHash_eq : C.txHash wtx.tx = hash
  mem : wtx.tx ∈ T

/-- The block that the entry names, among those of `𝓑`, holds the transaction. -/
def Placed (wtx : CWalletTx) : Prop :=
  wtx.hashBlock ≠ 0 → ∀ block ∈ 𝓑, block.getHash C = wtx.hashBlock → ∃ tx ∈ block.vtx, C.txHash tx = wtx.hash

/-- What the wallet knows.  `BindWallet` leaves entries without a transaction behind. -/
structure WalletOk (w : CWallet) : Prop where
  entries : ∀ hash wtx, w.mapWallet.lookup hash = some wtx → Recorded C T hash wtx ∧ Placed C 𝓑 wtx ∨ wtx.tx.vout = []
  spends : ∀ o hash, (o, hash) ∈ w.mapTxSpends →
    ∃ wtx, w.mapWallet.lookup hash = some wtx ∧ Recorded C T hash wtx ∧ Placed C 𝓑 wtx ∧
      o ∈ wtx.tx.vin.map CTxIn.prevout

end

section

variable {C : Crypto} {T : Set CTransaction} {𝓑 : Set CBlock} {keys : WalletKeys} {node node' : ChainNode}
  {w w' w'' : CWallet} {A B : Set Uint256}

theorem Recorded.of_eq {hash : Uint256} {wtx wtx' : CWalletTx} (h : Recorded C T hash wtx) (htx : wtx'.tx = wtx.tx)
    (hhash : wtx'.hash = wtx.hash) : Recorded C T hash wtx' where
  hash_eq := hhash.trans h.hash_eq
  txHash_eq := by
    rw [htx]
    exact h.txHash_eq
  mem := by
    rw [htx]
    exact h.mem

section

variable (h : WalletOk C T 𝓑 w)

include h

/-- An entry is replaced by one of the same transaction. -/
theorem WalletOk.replace {hash : Uint256} {wtx wtx' : CWalletTx}
    (hin : w.mapWallet.lookup hash = some wtx) (htx : wtx'.tx = wtx.tx) (hhash : wtx'.hash = wtx.hash)
    (hplaced : Recorded C T hash wtx → Placed C 𝓑 wtx → Placed C 𝓑 wtx') :
    WalletOk C T 𝓑 { w with mapWallet := w.mapWallet.insert hash wtx' } where
  entries := by
    intro k e hk
    change (w.mapWallet.insert hash wtx').lookup k = some e at hk
    rw [lookup_insert] at hk
    split_ifs at hk with heq
    · cases hk
      rw [heq]
      rcases h.entries hash wtx hin with ⟨hrec, hpl⟩ | hempty
      · exact .inl ⟨hrec.of_eq htx hhash, hplaced hrec hpl⟩
      · exact .inr (htx ▸ hempty)
    · exact h.entries k e hk
  spends := by
    intro o k hmem
    obtain ⟨e, hk, hrec, hpl, hspends⟩ := h.spends o k hmem
    show ∃ e, (w.mapWallet.insert hash wtx').lookup k = some e ∧ _
    rw [lookup_insert]
    split_ifs with heq
    · rw [heq] at hk hrec ⊢
      rw [hin] at hk
      cases hk
      exact ⟨wtx', rfl, hrec.of_eq htx hhash, hplaced hrec hpl, htx ▸ hspends⟩
    · exact ⟨e, hk, hrec, hpl, hspends⟩

/-- An entry is added under a new hash. -/
theorem WalletOk.insert_new {hash : Uint256} {spends : List (COutPoint × Uint256)}
    (hout : w.mapWallet.lookup hash = none)
    (hentry : Recorded C T hash wtx ∧ Placed C 𝓑 wtx ∨ wtx.tx.vout = [])
    (hspends : ∀ o k, (o, k) ∈ spends → (o, k) ∈ w.mapTxSpends ∨
      k = hash ∧ Recorded C T hash wtx ∧ Placed C 𝓑 wtx ∧ o ∈ wtx.tx.vin.map CTxIn.prevout) :
    WalletOk C T 𝓑 { w with mapWallet := w.mapWallet.insert hash wtx, mapTxSpends := spends } where
  entries := by
    intro k e hk
    change (w.mapWallet.insert hash wtx).lookup k = some e at hk
    rw [lookup_insert] at hk
    split_ifs at hk with heq
    · cases hk
      rw [heq]
      exact hentry
    · exact h.entries k e hk
  spends := by
    intro o k hmem
    show ∃ e, (w.mapWallet.insert hash wtx).lookup k = some e ∧ _
    rw [lookup_insert]
    rcases hspends o k hmem with hold | ⟨rfl, hnew⟩
    · obtain ⟨e, hk, hrest⟩ := h.spends o k hold
      have hne : k ≠ hash := by
        rintro rfl
        rw [hout] at hk
        cases hk
      rw [if_neg hne]
      exact ⟨e, hk, hrest⟩
    · rw [if_pos rfl]
      exact ⟨wtx, rfl, hnew⟩

theorem WalletOk.addToWallet {wtxIn : CWalletTx} (hrec : Recorded C T wtxIn.hash wtxIn)
    (hplaced : Placed C 𝓑 wtxIn) : WalletOk C T 𝓑 (w.addToWallet wtxIn) := by
  unfold CWallet.addToWallet
  split
  · rename_i wtx hin
    refine h.replace hin ?_ ?_ fun hrec' hplaced' => ?_
    · unfold CWalletTx.merge
      split_ifs <;> rfl
    · unfold CWalletTx.merge
      split_ifs <;> rfl
    · -- the block is the new one, if there is one
      show Placed C 𝓑 (wtx.merge wtxIn)
      unfold CWalletTx.merge
      split_ifs with hblock hindex hindex
      · exact fun _ block hb hhash => hrec'.hash_eq ▸ hplaced hblock block hb hhash
      · exact fun _ block hb hhash => hrec'.hash_eq ▸ hplaced hblock block hb hhash
      · exact hplaced'
      · exact hplaced'
  · rename_i hout
    refine h.insert_new hout (.inl ⟨hrec.of_eq rfl rfl, hplaced⟩) fun o k hmem => ?_
    split_ifs at hmem
    · exact .inl hmem
    · rcases List.mem_append.mp hmem with hmem | hmem
      · exact .inl hmem
      · obtain ⟨txin, htxin, heq⟩ := List.mem_map.mp hmem
        cases heq
        exact .inr ⟨rfl, hrec.of_eq rfl rfl, hplaced, List.mem_map_of_mem htxin⟩

theorem WalletOk.markDirty (hash : Uint256) : WalletOk C T 𝓑 (w.markDirty hash) := by
  unfold CWallet.markDirty
  split
  · rename_i wtx hin
    exact h.replace hin rfl rfl fun _ hplaced => hplaced
  · exact h

theorem WalletOk.bindWallet (hash : Uint256) : WalletOk C T 𝓑 (w.bindWallet hash) := by
  unfold CWallet.bindWallet
  cases hin : w.mapWallet.lookup hash with
  | some wtx => exact h.replace hin rfl rfl fun _ hplaced => hplaced
  | none => exact h.insert_new hin (.inr rfl) fun _ _ hmem => .inl hmem

end

theorem WalletOk.parents {f : CWallet → Uint256 → CWallet} (hf : ∀ w hash, WalletOk C T 𝓑 w → WalletOk C T 𝓑 (f w hash))
    (h : WalletOk C T 𝓑 w) (vin : List CTxIn) :
    WalletOk C T 𝓑 (vin.foldl (fun w txin => f w txin.prevout.hash) w) := by
  induction vin generalizing w with
  | nil => exact h
  | cons txin vin ih => exact ih (hf w _ h)

/-! ## Telling the wallet -/

/-- The wallet has heard of the transactions of `A`: what they spend has no cached credit. -/
structure Heard (A : Set Uint256) (w w' : CWallet) : Prop extends Touched A w w' where
  dropped : ∀ o, ∀ hash ∈ A, (o, hash) ∈ w'.mapTxSpends → w'.Uncached o.hash

theorem Heard.refl (w : CWallet) : Heard ∅ w w where
  toTouched := .refl ∅ w
  dropped _ _ hmem := absurd hmem (Set.notMem_empty _)

theorem Heard.trans (h : Heard A w w') (h' : Heard B w' w'') : Heard (A ∪ B) w w'' where
  toTouched := (h.toTouched.mono Set.subset_union_left).trans (h'.toTouched.mono Set.subset_union_right)
  dropped := by
    intro o hash hmem hspends
    by_cases hB : hash ∈ B
    · exact h'.dropped o hash hB hspends
    · have hA := hmem.resolve_right hB
      exact h'.toTouched.uncached (h.dropped o hash hA (h'.toTouched.spends o hash hB hspends))

/-- A transaction is added, and then all the transactions that it spends are touched. -/
theorem heard_of_parents (hT : Set.InjOn C.txHash T) (hmem : tx ∈ T)
    {f : CWallet → Uint256 → CWallet} (htouched : ∀ w hash, Touched ∅ w (f w hash))
    (huncached : ∀ w hash, (f w hash).Uncached hash) (hf : ∀ w hash, WalletOk C T 𝓑 w → WalletOk C T 𝓑 (f w hash))
    (h : Touched {C.txHash tx} w w') (hok : WalletOk C T 𝓑 w') :
    Heard {C.txHash tx} w (tx.vin.foldl (fun w txin => f w txin.prevout.hash) w') ∧
      WalletOk C T 𝓑 (tx.vin.foldl (fun w txin => f w txin.prevout.hash) w') := by
  obtain ⟨hrest, hdrops⟩ := touched_parents htouched huncached tx.vin w'
  have hok' := hok.parents hf tx.vin
  refine ⟨⟨h.trans (hrest.mono (Set.empty_subset _)), fun o hash hhash hspends => ?_⟩, hok'⟩
  obtain ⟨wtx, -, hrec, -, hprev⟩ := hok'.spends o hash hspends
  obtain rfl : hash = C.txHash tx := hhash
  have htx : wtx.tx = tx := hT hrec.mem hmem hrec.txHash_eq
  rw [htx] at hprev
  obtain ⟨txin, htxin, rfl⟩ := List.mem_map.mp hprev
  exact hdrops txin htxin

/-- A block that holds the transaction is the one that `SetMerkleBranch` records. -/
theorem placed_setMerkleBranch (h𝓑 : ∀ b ∈ 𝓑, ∀ b' ∈ 𝓑, b.getHash C = b'.getHash C → b.vtx = b'.vtx)
    {block : CBlock} (hblock : block ∈ 𝓑) (htx : tx ∈ block.vtx) :
    Placed C 𝓑 ((CWalletTx.ofTx C tx).setMerkleBranch C block) := by
  intro _ b hb hhash
  have hvtx : b.vtx = block.vtx := by
    refine h𝓑 b hb block hblock (hhash.trans ?_)
    unfold CWalletTx.setMerkleBranch
    split <;> rfl
  exact ⟨tx, hvtx ▸ htx, (CWalletTx.setMerkleBranch_hash (CWalletTx.ofTx C tx) block).symm⟩

/-- `SyncTransaction` outside blocks, or for a transaction of a block. -/
theorem syncTransaction_heard (hT : Set.InjOn C.txHash T)
    (h𝓑 : ∀ b ∈ 𝓑, ∀ b' ∈ 𝓑, b.getHash C = b'.getHash C → b.vtx = b'.vtx) (hmem : tx ∈ T)
    {pblock : Option CBlock} (hblock : ∀ block, pblock = some block → block ∈ 𝓑 ∧ tx ∈ block.vtx)
    (hok : WalletOk C T 𝓑 w) :
    Heard {C.txHash tx} w (w.syncTransaction C keys tx pblock) ∧
      WalletOk C T 𝓑 (w.syncTransaction C keys tx pblock) := by
  unfold CWallet.syncTransaction addToWalletIfInvolvingMe
  split_ifs with hinvolved
  · cases pblock with
    | none =>
      refine heard_of_parents hT hmem touched_markDirty uncached_markDirty (fun _ hash h => h.markDirty hash)
        (touched_addToWallet w (CWalletTx.ofTx C tx)) (hok.addToWallet ⟨rfl, rfl, hmem⟩ fun hne => absurd rfl hne)
    | some block =>
      obtain ⟨hb, htx⟩ := hblock block rfl
      have htouched := touched_addToWallet w ((CWalletTx.ofTx C tx).setMerkleBranch C block)
      rw [CWalletTx.setMerkleBranch_hash] at htouched
      refine heard_of_parents hT hmem touched_markDirty uncached_markDirty (fun _ hash h => h.markDirty hash)
        htouched (hok.addToWallet ⟨rfl, ?_, ?_⟩ (placed_setMerkleBranch h𝓑 hb htx))
      · rw [CWalletTx.setMerkleBranch_tx, CWalletTx.setMerkleBranch_hash]
        rfl
      · rw [CWalletTx.setMerkleBranch_tx]
        exact hmem
  · -- the wallet does not know the transaction, and so nothing that it spends
    refine ⟨⟨.refl _ w, fun o hash hhash hspends => ?_⟩, hok⟩
    obtain rfl : hash = C.txHash tx := hhash
    obtain ⟨wtx, hin, -⟩ := hok.spends o _ hspends
    simp [hin] at hinvolved

/-- The hashes of the transactions of a list. -/
def hashesOf (C : Crypto) (txs : List CTransaction) : Set Uint256 :=
  {hash | ∃ tx ∈ txs, C.txHash tx = hash}

theorem syncAll_heard (hT : Set.InjOn C.txHash T)
    (h𝓑 : ∀ b ∈ 𝓑, ∀ b' ∈ 𝓑, b.getHash C = b'.getHash C → b.vtx = b'.vtx)
    {calls : List (CTransaction × Option CBlock)} (hmem : ∀ call ∈ calls, call.1 ∈ T)
    (hblock : ∀ call ∈ calls, ∀ block, call.2 = some block → block ∈ 𝓑 ∧ call.1 ∈ block.vtx)
    (hok : WalletOk C T 𝓑 w) :
    Heard (hashesOf C (calls.map Prod.fst)) w (w.syncAll C keys calls) ∧ WalletOk C T 𝓑 (w.syncAll C keys calls) := by
  induction calls generalizing w with
  | nil =>
    have hempty : hashesOf C (([] : List (CTransaction × Option CBlock)).map Prod.fst) = ∅ := by
      ext hash
      simp [hashesOf]
    rw [hempty]
    exact ⟨.refl w, hok⟩
  | cons call calls ih =>
    have hcons : hashesOf C ((call :: calls).map Prod.fst) = {C.txHash call.1} ∪ hashesOf C (calls.map Prod.fst) := by
      ext hash
      simp [hashesOf, eq_comm]
    have hstep : Heard {C.txHash call.1} w (w.syncTransaction C keys call.1 call.2) ∧ _ :=
      syncTransaction_heard hT h𝓑 (hmem call List.mem_cons_self) (hblock call List.mem_cons_self) hok
    obtain ⟨hrest, hok'⟩ := ih (fun c hc => hmem c (List.mem_cons_of_mem _ hc))
      (fun c hc => hblock c (List.mem_cons_of_mem _ hc)) hstep.2
    rw [hcons]
    exact ⟨hstep.1.trans hrest, hok'⟩

/-- The part of `CommitTransaction` before the transaction goes to the pool. -/
theorem commit_heard (hT : Set.InjOn C.txHash T) (hmem : tx ∈ T) (hok : WalletOk C T 𝓑 w) : Heard {C.txHash tx} w
        (tx.vin.foldl (fun w txin => w.bindWallet txin.prevout.hash) (w.addToWallet (CWalletTx.ofTx C tx))) ∧
      WalletOk C T 𝓑
        (tx.vin.foldl (fun w txin => w.bindWallet txin.prevout.hash) (w.addToWallet (CWalletTx.ofTx C tx))) :=
  heard_of_parents hT hmem touched_bindWallet uncached_bindWallet (fun _ hash h => h.bindWallet hash)
    (touched_addToWallet w (CWalletTx.ofTx C tx)) (hok.addToWallet ⟨rfl, rfl, hmem⟩ fun hne => absurd rfl hne)

/-! ## Cached credits stay right -/

/-- The outpoint is an output of the wallet that adds to a credit. -/
def HoldsCredit (keys : WalletKeys) (w : CWallet) (o : COutPoint) : Prop :=
  ∃ wtx out, w.mapWallet.lookup o.hash = some wtx ∧ wtx.tx.vout[o.n]? = some out ∧ getCredit keys out ≠ some 0

/-- Outside `A`, what spends from a credit that stays cached stays in sight, or out of sight. -/
def Steady (C : Crypto) (keys : WalletKeys) (A : Set Uint256) (w w' : CWallet) (node node' : ChainNode) : Prop :=
  ∀ o, ∀ hash ∉ A, (o, hash) ∈ w.mapTxSpends → w.HoldsCredit keys o → ¬ w'.Uncached o.hash →
    ∀ wtx, w.mapWallet.lookup hash = some wtx →
      (0 ≤ wtx.getDepthInMainChain C node ↔ 0 ≤ wtx.getDepthInMainChain C node')

theorem Fresh.heard (hok : WalletOk C T 𝓑 w) (hfresh : w.Fresh C keys node) (h : Heard A w w')
    (hsteady : Steady C keys A w w' node node') : w'.Fresh C keys node' := by
  intro hash wtx nCredit hin hcached
  have hold := h.kept hash wtx nCredit hin hcached
  have hsum := hfresh hash wtx nCredit hold hcached
  rcases hok.entries hash wtx hold with ⟨hrec, -⟩ | hempty
  · rw [← hsum]
    have hcached' : ¬ w'.Uncached hash := by
      intro hun
      rw [hun wtx hin] at hcached
      cases hcached
    refine sumCredit_congr (fun n out hout => ?_) (by decide)
    by_cases hzero : getCredit keys out = some 0
    · exact .inl hzero
    · refine .inr ?_
      have hholds : w.HoldsCredit keys { hash := hash, n := n } := ⟨wtx, out, hold, hout, hzero⟩
      rw [hrec.hash_eq, Nat.zero_add, Bool.eq_iff_iff, isSpent_iff, isSpent_iff]
      constructor
      · rintro ⟨k, e, hmem, hk, hdepth⟩
        have hA : k ∉ A := fun hA => hcached' (h.dropped _ k hA hmem)
        have hmem' := h.spends _ k hA hmem
        obtain ⟨e', hk', -⟩ := hok.spends _ k hmem'
        obtain ⟨e'', hk'', hsame⟩ := h.others k hA e' hk'
        rw [hk] at hk''
        cases hk''
        rw [hsame.depth_eq] at hdepth
        exact ⟨k, e', hmem', hk', (hsteady _ k hA hmem' hholds hcached' e' hk').mpr hdepth⟩
      · rintro ⟨k, e, hmem, hk, hdepth⟩
        have hmem' := h.grows _ hmem
        have hA : k ∉ A := fun hA => hcached' (h.dropped _ k hA hmem')
        obtain ⟨e', hk', hsame⟩ := h.others k hA e hk
        refine ⟨k, e', hmem', hk', ?_⟩
        rw [hsame.depth_eq]
        exact (hsteady _ k hA hmem hholds hcached' e hk).mp hdepth
  · rw [hempty] at hsum ⊢
    exact hsum

end

end CWallet

end Reddcoin
