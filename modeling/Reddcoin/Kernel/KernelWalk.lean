import Reddcoin.Index.Init

/-!
# The walk to the kernel modifier

`GetKernelStakeModifier` walks up the active chain.  What it finds, and so the verdict of
`CheckProofOfStake`, is the same along two chains that share the entry at which it stops.
-/

namespace Reddcoin

open Forest (Anc)

/-! ## The walk -/

theorem CChain.next_mem {m : BlockMap} {v : CChain} {p q : Ptr} (h : v.next m p = some q) : some q ∈ v := by
  unfold next at h
  split_ifs at h
  exact List.mem_of_getElem? (Option.join_eq_some_iff.mp h)

/-- The entry at which `GetKernelStakeModifier` stops, from the block of the coin. -/
def NodeState.kernelStop (s : NodeState) (pindexFrom : Ptr) : Option Ptr :=
  kernelModifierLoop s ((s.entry pindexFrom).nTime + getStakeModifierSelectionInterval)
    (s.chainActive.length + 1) (s.entry pindexFrom).nTime pindexFrom

theorem getKernelStakeModifier_eq (s : NodeState) (hashBlockFrom : Uint256) :
    getKernelStakeModifier s hashBlockFrom = (s.mapBlockIndex.find hashBlockFrom).bind fun pindexFrom =>
      (s.kernelStop pindexFrom).map fun pindex => (s.entry pindex).nStakeModifier := by
  unfold getKernelStakeModifier
  cases s.mapBlockIndex.find hashBlockFrom <;> rfl

section

variable {s s' : NodeState} {t t' p x : Ptr} {nTimeStop time : Nat}

section

variable (hm : s.mapBlockIndex.Tree) (ht : t < s.size)

include hm ht

/-- The walk goes up the active chain. -/
theorem kernelModifierLoop_anc (hchain : CChain.EndsAt s.mapBlockIndex s.chainActive t) {turns : Nat}
    (h : kernelModifierLoop s nTimeStop turns time p = some x) :
    Anc s.par p x ∧ (p = x ∨ Anc s.par x t) := by
  induction turns generalizing time p with
  | zero => simp [kernelModifierLoop] at h
  | succ turns ih =>
    rw [kernelModifierLoop] at h
    split_ifs at h with htime
    · cases hnext : s.chainActive.next s.mapBlockIndex p with
      | none => simp [hnext] at h
      | some q =>
        rw [hnext] at h
        obtain ⟨hqt, hpar⟩ := (hchain.next_eq_some hm ht).mp hnext
        obtain ⟨hqx, hx⟩ := ih h
        refine ⟨.trans (.of_parent hpar) hqx, .inr ?_⟩
        rcases hx with rfl | hx
        · exact hqt
        · exact hx
    · obtain rfl := Option.some.inj h
      exact ⟨.refl p, .inl rfl⟩

/-- Along another chain the walk stops at the same entry, if that entry is on it. -/
theorem kernelModifierLoop_agree (ht' : t' < s.size) (hchain : CChain.EndsAt s.mapBlockIndex s.chainActive t)
    (hchain' : CChain.EndsAt s.mapBlockIndex s'.chainActive t') (hmap : s'.mapBlockIndex = s.mapBlockIndex)
    {turns turns' : Nat} (h : kernelModifierLoop s nTimeStop turns time p = some x) (hx : Anc s.par x t')
    (hturns : s.ht x < s.ht p + turns') : kernelModifierLoop s' nTimeStop turns' time p = some x := by
  have hxsize : x < s.size := hm.graded.anc_mem ht' hx
  induction turns generalizing time p turns' with
  | zero => simp [kernelModifierLoop] at h
  | succ turns ih =>
    have hheight : s.ht p ≤ s.ht x :=
      (hm.graded.anc_height hxsize (kernelModifierLoop_anc hm ht hchain h).1).1
    cases turns' with
    | zero => omega
    | succ turns' =>
      rw [kernelModifierLoop] at h ⊢
      split_ifs at h ⊢ with htime
      · cases hnext : s.chainActive.next s.mapBlockIndex p with
        | none => simp [hnext] at h
        | some q =>
          rw [hnext] at h
          obtain ⟨hqt, hpar⟩ := (hchain.next_eq_some hm ht).mp hnext
          have hqx := (kernelModifierLoop_anc hm ht hchain h).1
          have hnext' : s'.chainActive.next s'.mapBlockIndex p = some q := by
            rw [hmap]
            exact (hchain'.next_eq_some hm ht').mpr ⟨hqx.trans hx, hpar⟩
          have hentry : s'.entry q = s.entry q := congrArg (fun m : BlockMap => m.entry q) hmap
          rw [hnext']
          simp only [hentry]
          refine ih h ?_
          have hstep : s.ht q = s.ht p + 1 := hm.graded.height (hm.graded.anc_mem ht hqt) hpar
          omega
      · exact h

theorem kernelStop_agree (ht' : t' < s.size) (hchain : CChain.EndsAt s.mapBlockIndex s.chainActive t)
    (hchain' : CChain.EndsAt s.mapBlockIndex s'.chainActive t') (hmap : s'.mapBlockIndex = s.mapBlockIndex)
    (h : s.kernelStop p = some x) (hx : Anc s.par x t') : s'.kernelStop p = some x := by
  have hentry : s'.entry p = s.entry p := congrArg (fun m : BlockMap => m.entry p) hmap
  unfold NodeState.kernelStop at h ⊢
  rw [hentry]
  refine kernelModifierLoop_agree hm ht ht' hchain hchain' hmap h hx ?_
  have hlen := hchain'.length hm ht'
  have hle : s.ht x ≤ s.ht t' := (hm.graded.anc_height ht' hx).1
  have hlen : s'.chainActive.length = s.ht t' + 1 := hlen
  omega

end

/-- The walk reads the chain, and the times and modifiers of its entries. -/
theorem kernelModifierLoop_congr (hchain : s'.chainActive = s.chainActive) (hht : s'.ht = s.ht)
    (hentry : ∀ q, some q ∈ s.chainActive → (s'.entry q).fStakeModifier = (s.entry q).fStakeModifier ∧
      (s'.entry q).nTime = (s.entry q).nTime) (turns : Nat) :
    kernelModifierLoop s' nTimeStop turns time p = kernelModifierLoop s nTimeStop turns time p := by
  have hnext : ∀ p, s'.chainActive.next s'.mapBlockIndex p = s.chainActive.next s.mapBlockIndex p := by
    intro p
    have hht : s'.mapBlockIndex.ht p = s.mapBlockIndex.ht p := congrFun hht p
    unfold CChain.next CChain.contains
    rw [hchain, hht]
  induction turns generalizing time p with
  | zero => rfl
  | succ turns ih =>
    simp only [kernelModifierLoop, hnext]
    cases hq : s.chainActive.next s.mapBlockIndex p with
    | none => rfl
    | some q =>
      have hmem := CChain.next_mem hq
      simp only [(hentry q hmem).1, (hentry q hmem).2, ih]

/-- An entry with a new modifier, above the block of the coin and a selection interval later. -/
structure NodeState.Ripe (s : NodeState) (pindexFrom x : Ptr) : Prop where
  above : Anc s.par pindexFrom x
  generated : (s.entry x).fStakeModifier = true
  later : (s.entry pindexFrom).nTime + getStakeModifierSelectionInterval ≤ (s.entry x).nTime

theorem kernelModifierLoop_ripe {turns : Nat} (h : kernelModifierLoop s nTimeStop turns time p = some x) :
    (nTimeStop ≤ time ∧ x = p) ∨ ((s.entry x).fStakeModifier ∧ nTimeStop ≤ (s.entry x).nTime ∧
      some x ∈ s.chainActive) := by
  induction turns generalizing time p with
  | zero => simp [kernelModifierLoop] at h
  | succ turns ih =>
    rw [kernelModifierLoop] at h
    split_ifs at h with htime
    · cases hnext : s.chainActive.next s.mapBlockIndex p with
      | none => simp [hnext] at h
      | some q =>
        rw [hnext] at h
        right
        rcases ih h with ⟨hstop, rfl⟩ | hx
        · -- The time is that of the last entry with a new modifier.
          by_cases hflag : (s.entry x).fStakeModifier = true
          · rw [if_pos hflag] at hstop
            exact ⟨hflag, hstop, CChain.next_mem hnext⟩
          · rw [if_neg hflag] at hstop
            omega
        · exact hx
    · exact .inl ⟨by omega, (Option.some.inj h).symm⟩

/-- The walk does not go beyond an entry with a new modifier that is late enough. -/
theorem kernelModifierLoop_reaches (hm : s.mapBlockIndex.Tree) (ht : t < s.size)
    (hchain : CChain.EndsAt s.mapBlockIndex s.chainActive t) (hx : Anc s.par x t)
    (hflag : (s.entry x).fStakeModifier) (hlater : nTimeStop ≤ (s.entry x).nTime) {turns : Nat}
    (hp : Anc s.par p x) (hne : p ≠ x ∨ nTimeStop ≤ time) (hturns : s.ht x < s.ht p + turns) :
    ∃ y, kernelModifierLoop s nTimeStop turns time p = some y ∧ Anc s.par y x := by
  have hxsize : x < s.size := hm.graded.anc_mem ht hx
  induction turns generalizing time p with
  | zero =>
    have hle : s.ht p ≤ s.ht x := (hm.graded.anc_height hxsize hp).1
    omega
  | succ turns ih =>
    rw [kernelModifierLoop]
    split_ifs with htime
    · obtain ⟨q, hpar, hq⟩ := hp.child (hne.resolve_right (by omega))
      have hqsize : q < s.size := hm.graded.anc_mem hxsize hq
      have hnext : s.chainActive.next s.mapBlockIndex p = some q :=
        (hchain.next_eq_some hm ht).mpr ⟨hq.trans hx, hpar⟩
      rw [hnext]
      refine ih hq ?_ ?_
      · by_cases hqx : q = x
        · right
          rw [hqx, if_pos hflag]
          exact hlater
        · exact .inl hqx
      · have hstep : s.ht q = s.ht p + 1 := hm.graded.height hqsize hpar
        omega
    · exact ⟨p, rfl, hp⟩

/-- The walk stops above the block of the coin. -/
theorem kernelStop_mem (h : s.kernelStop p = some x) : some x ∈ s.chainActive := by
  have hpos : 0 < getStakeModifierSelectionInterval := by decide
  rcases kernelModifierLoop_ripe h with ⟨hstop, -⟩ | ⟨-, -, hmem⟩
  · omega
  · exact hmem

theorem kernelStop_ripe (hm : s.mapBlockIndex.Tree) (ht : t < s.size)
    (hchain : CChain.EndsAt s.mapBlockIndex s.chainActive t) (h : s.kernelStop p = some x) :
    s.Ripe p x ∧ Anc s.par x t := by
  have hpos : 0 < getStakeModifierSelectionInterval := by decide
  have habove := (kernelModifierLoop_anc hm ht hchain h).1
  rcases kernelModifierLoop_ripe h with ⟨hstop, -⟩ | ⟨hflag, hlater, hmem⟩
  · omega
  · refine ⟨⟨habove, hflag, hlater⟩, ?_⟩
    rw [hchain, List.mem_map] at hmem
    obtain ⟨y, hy, heq⟩ := hmem
    cases heq
    exact (hm.graded.mem_path ht).mp hy

theorem NodeState.Ripe.kernelStop (h : s.Ripe p x) (hm : s.mapBlockIndex.Tree) (ht : t < s.size)
    (hchain : CChain.EndsAt s.mapBlockIndex s.chainActive t) (hx : Anc s.par x t) :
    ∃ y, s.kernelStop p = some y ∧ Anc s.par y x := by
  have hpos : 0 < getStakeModifierSelectionInterval := by decide
  have hlater := h.later
  have hne : p ≠ x := by
    rintro rfl
    omega
  refine kernelModifierLoop_reaches hm ht hchain hx h.generated hlater h.above (.inl hne) ?_
  have hlen : s.chainActive.length = s.ht t + 1 := hchain.length hm ht
  have hle : s.ht x ≤ s.ht t := (hm.graded.anc_height ht hx).1
  omega

theorem kernelStop_congr (hchain : s'.chainActive = s.chainActive)
    (hshape : s.mapBlockIndex.SameShape s'.mapBlockIndex)
    (hentry : ∀ q, some q ∈ s.chainActive → (s'.entry q).fStakeModifier = (s.entry q).fStakeModifier)
    (p : Ptr) : s'.kernelStop p = s.kernelStop p := by
  have htime : ∀ q, (s'.entry q).nTime = (s.entry q).nTime := fun q => congrArg EntryShape.nTime (hshape.shape q)
  unfold NodeState.kernelStop
  rw [htime, hchain]
  exact kernelModifierLoop_congr hchain hshape.ht (fun q hq => ⟨hentry q hq, htime q⟩) _

theorem getKernelStakeModifier_congr (hchain : s'.chainActive = s.chainActive)
    (hshape : s.mapBlockIndex.SameShape s'.mapBlockIndex)
    (hentry : ∀ q, some q ∈ s.chainActive → (s'.entry q).fStakeModifier = (s.entry q).fStakeModifier ∧
      (s'.entry q).nStakeModifier = (s.entry q).nStakeModifier) (hashBlockFrom : Uint256) :
    getKernelStakeModifier s' hashBlockFrom = getKernelStakeModifier s hashBlockFrom := by
  rw [getKernelStakeModifier_eq, getKernelStakeModifier_eq, hshape.find]
  refine Option.bind_congr fun p _ => ?_
  rw [kernelStop_congr hchain hshape (fun q hq => (hentry q hq).1)]
  exact Option.map_congr fun x hx => (hentry x (kernelStop_mem hx)).2

/-- The entry of the block of the coin that a coinstake spends. -/
def NodeState.coinBlock (N : Node) (s : NodeState) (tx : CTransaction) : Option Ptr :=
  tx.vin.head?.bind fun txin =>
    ((N.env s).getTransaction txin.prevout.hash).bind fun found => s.mapBlockIndex.find found.2

/-- `CheckProofOfStake` reads the active chain only to find the modifier for the block of the coin. -/
theorem checkProofOfStake_congr {N : Node} (hnow : s'.now = s.now) (hfile : s'.blockFile = s.blockFile)
    (hshape : s.mapBlockIndex.SameShape s'.mapBlockIndex) {tx : CTransaction}
    (hmodifier : ∀ p block, s.coinBlock N tx = some p → readBlockFromDisk N s p = some block →
      getKernelStakeModifier s' (N.C.headerHash block.toCBlockHeader) =
        getKernelStakeModifier s (N.C.headerHash block.toCBlockHeader))
    (nBits : Nat) : checkProofOfStake N s' tx nBits = checkProofOfStake N s tx nBits := by
  have henv : N.env s' = N.env s := congrArg N.world hnow
  have hread : ∀ p, readBlockFromDisk N s' p = readBlockFromDisk N s p := by
    intro p
    have hhash : (s'.entry p).hash = (s.entry p).hash := hshape.hash p
    unfold readBlockFromDisk
    rw [hfile, henv, hhash]
  unfold checkProofOfStake
  simp only [henv, hshape.find, hread]
  split_ifs
  · rfl
  cases htxin : tx.vin.head? with
  | none => rfl
  | some txin =>
  simp only
  cases hfound : (N.env s).getTransaction txin.prevout.hash with
  | none => rfl
  | some found =>
  simp only
  split_ifs
  · rfl
  cases hp : s.mapBlockIndex.find found.2 with
  | none => rfl
  | some p =>
  simp only
  cases hblock : readBlockFromDisk N s p with
  | none => rfl
  | some block =>
  have hcoin : s.coinBlock N tx = some p := by
    simp only [NodeState.coinBlock, htxin, Option.bind_some, hfound, hp]
  unfold checkStakeKernelHash
  simp only [hmodifier p block hcoin hblock, henv]

theorem readBlockFromDisk_some {N : Node} {block : CBlock} (h : readBlockFromDisk N s p = some block) :
    s.blockFile p = some block ∧ N.C.headerHash block.toCBlockHeader = (s.entry p).hash := by
  unfold readBlockFromDisk at h
  cases hfile : s.blockFile p with
  | none => simp [hfile] at h
  | some stored =>
    rw [hfile] at h
    simp only at h
    split_ifs at h with _ _ hhash
    cases h
    exact ⟨rfl, hhash⟩

theorem coinBlock_lt {N : Node} {tx : CTransaction} (h : s.coinBlock N tx = some p) : p < s.size := by
  unfold NodeState.coinBlock at h
  obtain ⟨txin, -, h⟩ := Option.bind_eq_some_iff.mp h
  obtain ⟨found, -, h⟩ := Option.bind_eq_some_iff.mp h
  exact (BlockMap.find_eq_some h).1

/-! ## Two active chains -/

/-- The same globals with another active chain. -/
def NodeState.withChain (s : NodeState) (v : CChain) : NodeState :=
  { s with chainActive := v }

/-- The branches to `t` and `t'` share an entry at which a walk from `pindexFrom` can stop, or neither of
them has one. -/
def NodeState.SharesStop (s : NodeState) (pindexFrom t t' : Ptr) : Prop :=
  (∃ x, s.Ripe pindexFrom x ∧ Anc s.par x t ∧ Anc s.par x t') ∨
    ∀ x, s.Ripe pindexFrom x → ¬ Anc s.par x t ∧ ¬ Anc s.par x t'

section

variable {v v' : CChain} (hm : s.mapBlockIndex.Tree) (ht : t < s.size) (ht' : t' < s.size)
  (hv : CChain.EndsAt s.mapBlockIndex v t) (hv' : CChain.EndsAt s.mapBlockIndex v' t')

include hm ht ht' hv hv'

/-- The walks along two branches stop at the same entry exactly when the branches share one. -/
theorem kernelStop_eq_iff :
    (s.withChain v).kernelStop p = (s.withChain v').kernelStop p ↔ s.SharesStop p t t' := by
  have hstop : ∀ x, (s.withChain v).kernelStop p = some x → s.Ripe p x ∧ Anc s.par x t := by
    intro x h
    obtain ⟨⟨habove, hflag, hlater⟩, hx⟩ := kernelStop_ripe (s := s.withChain v) hm ht hv h
    exact ⟨⟨habove, hflag, hlater⟩, hx⟩
  have hstop' : ∀ x, (s.withChain v').kernelStop p = some x → s.Ripe p x ∧ Anc s.par x t' := by
    intro x h
    obtain ⟨⟨habove, hflag, hlater⟩, hx⟩ := kernelStop_ripe (s := s.withChain v') hm ht' hv' h
    exact ⟨⟨habove, hflag, hlater⟩, hx⟩
  constructor
  · intro heq
    cases h : (s.withChain v).kernelStop p with
    | some x => exact .inl ⟨x, (hstop x h).1, (hstop x h).2, (hstop' x (heq.symm.trans h)).2⟩
    | none =>
      right
      intro x hx
      have hripe : ∀ w, (s.withChain w).Ripe p x := fun w => ⟨hx.above, hx.generated, hx.later⟩
      constructor
      · intro hxt
        obtain ⟨y, hy, -⟩ := (hripe v).kernelStop hm ht hv hxt
        rw [h] at hy
        simp at hy
      · intro hxt
        obtain ⟨y, hy, -⟩ := (hripe v').kernelStop hm ht' hv' hxt
        rw [← heq, h] at hy
        simp at hy
  · rintro (⟨x, hx, hxt, hxt'⟩ | hnone)
    · have hripe : (s.withChain v).Ripe p x := ⟨hx.above, hx.generated, hx.later⟩
      obtain ⟨y, hy, hyx⟩ := hripe.kernelStop hm ht hv hxt
      have hagree : (s.withChain v').kernelStop p = some y :=
        kernelStop_agree (s := s.withChain v) hm ht ht' hv hv' rfl hy (.trans hyx hxt')
      rw [hy, hagree]
    · have hleft : (s.withChain v).kernelStop p = none := by
        cases h : (s.withChain v).kernelStop p with
        | none => rfl
        | some x => exact absurd (hstop x h).2 (hnone x (hstop x h).1).1
      have hright : (s.withChain v').kernelStop p = none := by
        cases h : (s.withChain v').kernelStop p with
        | none => rfl
        | some x => exact absurd (hstop' x h).2 (hnone x (hstop' x h).1).2
      rw [hleft, hright]

end

/-- The verdict of `CheckProofOfStake` is the same along two branches, if they share the entry at which the
walk from the block of the coin stops, or if there is none on either. -/
theorem checkProofOfStake_withChain {N : Node} (h : Reachable N s) {v v' : CChain} (ht : t < s.size)
    (ht' : t' < s.size) (hv : CChain.EndsAt s.mapBlockIndex v t) (hv' : CChain.EndsAt s.mapBlockIndex v' t')
    {tx : CTransaction} (hshares : ∀ p, s.coinBlock N tx = some p → s.SharesStop p t t') (nBits : Nat) :
    checkProofOfStake N (s.withChain v) tx nBits = checkProofOfStake N (s.withChain v') tx nBits := by
  have hs := h.inv
  have hm := hs.shape.tree
  have hnow : (s.withChain v).now = (s.withChain v').now := rfl
  refine checkProofOfStake_congr hnow rfl (.refl _) (fun p block hcoin hread => ?_) nBits
  have hstop := (kernelStop_eq_iff hm ht ht' hv hv').mpr (hshares p hcoin)
  -- The block that was read is the block of the entry, and no other entry has its hash.
  have hp : s.mapBlockIndex.find (N.C.headerHash block.toCBlockHeader) = some p := by
    obtain ⟨-, hhash⟩ := readBlockFromDisk_some hread
    have hsize : p < s.size := coinBlock_lt hcoin
    rw [hhash]
    exact hs.shape.find_eq hsize
  rw [getKernelStakeModifier_eq, getKernelStakeModifier_eq]
  show (s.mapBlockIndex.find _).bind _ = (s.mapBlockIndex.find _).bind _
  rw [hp, Option.bind_some, Option.bind_some, hstop]
  rfl

end

namespace Example

/-- The coin of the genesis block. -/
def coinTx : CTransaction :=
  coinbaseTx [keyOut COIN]

def coinGenesis : CBlock :=
  { block 2 [coinTx] [] with hashPrevBlock := 0, nBits := nodeBits }

/-- A node late enough for the coin to be staked. -/
def stakeNode : Node :=
  { node with
    world := fun _ =>
      { env with
        nAdjustedTime := 30000
        getTransaction := fun hash => if hash = crypto.txHash coinTx then some (coinTx, 7000) else none
        getCoinAgeWeight := fun _ _ => 24 * 60 * 60 } }

def coinstakeTx : CTransaction :=
  { spendTx (crypto.txHash coinTx) 0 [emptyOut, keyOut COIN] with nTime := 29000 }

/-- A proof-of-stake block on the block with hash 7002. -/
def stakingBlock : CBlock :=
  { block 3 [coinbaseTx [emptyOut], coinstakeTx] [1] with
    hashPrevBlock := 7002, nTime := 29000, nBits := nodeBits, nNonce := 4 }

def stakeStart : NodeState :=
  left (initBlockIndex stakeNode coinGenesis addresses 2)

def lateFirst : NodeState :=
  after stakeNode stakeStart (.processNewBlock 3 (nodeBlock 7000 28000 1))

def lateSecond : NodeState :=
  after stakeNode lateFirst (.processNewBlock 3 (nodeBlock 7001 28010 2))

def withSide : NodeState :=
  after stakeNode lateSecond (.acceptBlock (nodeBlock 7000 200 3))

/-- The index with a branch of two late blocks and a stake on it, and a branch of one early block. -/
def withStake : NodeState :=
  after stakeNode withSide (.acceptBlock stakingBlock)

theorem reachable_withStake : Reachable stakeNode withStake := by
  have hstart : Reachable stakeNode stakeStart :=
    .init ⟨by decide, by decide, by decide⟩ (eq_some_left (by decide)) (by decide)
  have hfirst : Reachable stakeNode lateFirst := .step _ hstart (step_after (by decide))
  have hsecond : Reachable stakeNode lateSecond := .step _ hfirst (step_after (by decide))
  have hside : Reachable stakeNode withSide := .step _ hsecond (step_after (by decide))
  exact .step _ hside (step_after (by decide))

end Example

open Example

/-- The verdict on the stake is the same on its own branch and on the part of it below. -/
theorem checkProofOfStake_withChain_example :
    checkProofOfStake stakeNode (withStake.withChain [some 0, some 1, some 2])
        coinstakeTx nodeBits =
      checkProofOfStake stakeNode (withStake.withChain [some 0, some 1, some 2, some 4])
        coinstakeTx nodeBits := by
  have hone : Anc withStake.par 0 1 := .of_parent (by decide)
  have htwo : Anc withStake.par 0 2 := .trans hone (.of_parent (by decide))
  have hripe : withStake.Ripe 0 2 := ⟨htwo, by decide, by decide⟩
  refine checkProofOfStake_withChain reachable_withStake (t := 2) (by decide) (by decide)
    (show CChain.EndsAt _ _ 2 by decide) (show CChain.EndsAt _ _ 4 by decide) (fun p hp => ?_) _
  have hzero : withStake.coinBlock stakeNode coinstakeTx = some 0 := by decide
  rw [← Option.mem_unique hzero hp]
  exact .inl ⟨2, hripe, .refl 2, .of_parent (by decide)⟩

/-- The stake passes while its own branch is active, and fails while the other one is. -/
theorem checkProofOfStake_reads_chainActive : Reachable stakeNode withStake ∧
    withStake.blockFile 4 = some stakingBlock ∧
    stakingBlock.vtx[1]? = some coinstakeTx ∧ withStake.linked 4 = true ∧
    withStake.coinBlock stakeNode coinstakeTx = some 0 ∧
    CChain.EndsAt withStake.mapBlockIndex [some 0, some 1, some 2] 2 ∧
    CChain.EndsAt withStake.mapBlockIndex [some 0, some 3] 3 ∧
    (checkProofOfStake stakeNode (withStake.withChain [some 0, some 1, some 2])
      coinstakeTx stakingBlock.nBits).isSome = true ∧
    (checkProofOfStake stakeNode (withStake.withChain [some 0, some 3])
      coinstakeTx stakingBlock.nBits).isSome = false :=
  ⟨reachable_withStake, by decide, by decide, by decide, by decide, by decide, by decide, by decide, by decide⟩

end Reddcoin
