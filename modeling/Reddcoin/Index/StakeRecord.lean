import Reddcoin.Index.Persist
import Reddcoin.Kernel.KernelWalk

/-!
# What is recorded of the stakes

What `ReceivedBlockTransactions` records of the stake of an entry is computed once, when the entry is
linked.  In runs in which it does not fail it is a function of the blocks from the entry down to the genesis
block, and of the proof hash of the genesis block.
-/

namespace Reddcoin

open List

open Forest (Anc)

variable {block : CBlock}

/-! ## The function -/

/-- The block has a coinstake. -/
def CBlock.hasStake (block : CBlock) : Bool :=
  block.isProofOfStake && (block.vtx[1]?).isSome

section

variable (C : Crypto) (g : Uint256)

/-- What an entry with the given header and block records of its stake. -/
def stakeViewOf (hashProof : Uint256) (header : CBlockHeader) (block : CBlock) (modifier : Nat × Bool) :
    CBlockIndex :=
  { CBlockIndex.new with
    hash := C.headerHash header
    nTime := header.nTime
    fProofOfStake := header.isProofOfStake || block.hasStake
    fStakeEntropy := decide (block.getHash C % 2 = 1)
    fStakeModifier := modifier.2
    nStakeModifier := modifier.1
    hashProof := hashProof }

/-- What the entries of a branch record of their stakes, from the last block down to the genesis block,
whose proof hash is `g`. -/
def stakeViews : List (CBlockHeader × Option CBlock) → Option (List CBlockIndex)
  | [] => some []
  | (header, block) :: rest =>
    (stakeViews rest).bind fun views =>
      block.bind fun block =>
        (modifierAbove C views).map fun modifier =>
          stakeViewOf C (if rest.isEmpty then g else 0) header block modifier :: views

end

/-- The header and the block of an entry. -/
def NodeState.carried (s : NodeState) (p : Ptr) : CBlockHeader × Option CBlock :=
  (s.mapBlockIndex.getBlockHeader p, s.blockFile p)

/-- The headers and blocks from an entry down to the genesis block. -/
def NodeState.branch (s : NodeState) (p : Ptr) : List (CBlockHeader × Option CBlock) :=
  (Forest.path s.par (s.ht p) p).reverse.map s.carried

/-- The entries from `p` down record what the blocks of the branch say. -/
def Viewed (C : Crypto) (g : Uint256) (s : NodeState) (p : Ptr) : Prop :=
  stakeViews C g (s.branch p) = some ((s.ancestors (some p)).map CBlockIndex.stakeView)

/-- What holds of the stake of every entry. -/
structure StakeInv (N : Node) (g : Uint256) (s : NodeState) : Prop where
  viewed : ∀ p < s.size, s.linked p = true → Viewed N.C g s p
  body : ∀ p < s.size, s.haveData p = true → ∃ block, s.blockFile p = some block ∧
    (s.entry p).fProofOfStake = ((s.mapBlockIndex.getBlockHeader p).isProofOfStake || block.hasStake) ∧
    (s.entry p).fStakeEntropy = decide (block.getHash N.C % 2 = 1)
  empty : ∀ p < s.size, s.haveData p = false →
    (s.entry p).fProofOfStake = (s.mapBlockIndex.getBlockHeader p).isProofOfStake ∧
    (s.entry p).fStakeEntropy = false
  fresh : ∀ p < s.size, s.linked p = false → (s.entry p).fStakeModifier = false

section

variable {N : Node} {g : Uint256} {s s' : NodeState} {p q : Ptr}

/-! ## Branches -/

section

variable (hs : IndexInv N s) (hp : p < s.size)

include hs hp

theorem IndexInv.branch_child (hpar : s.par p = some q) : s.branch p = s.carried p :: s.branch q := by
  have hpath : Forest.path s.par (s.ht p) p = Forest.path s.par (s.ht q) q ++ [p] :=
    hs.shape.tree.graded.path_child hp hpar
  unfold NodeState.branch
  rw [hpath, reverse_append]
  rfl

theorem IndexInv.ancestors_child (hpar : s.par p = some q) :
    s.ancestors (some p) = s.entry p :: s.ancestors (some q) := by
  have hpath : Forest.path s.par (s.ht p) p = Forest.path s.par (s.ht q) q ++ [p] :=
    hs.shape.tree.graded.path_child hp hpar
  unfold NodeState.ancestors
  simp only
  rw [hpath, reverse_append]
  rfl

theorem IndexInv.head?_ancestors : (s.ancestors (some p)).head? = some (s.entry p) := by
  have hlast : (Forest.path s.par (s.ht p) p).getLast? = some p := hs.shape.tree.graded.getLast?_path hp
  unfold NodeState.ancestors
  simp only
  rw [head?_map, head?_reverse, hlast]
  rfl

theorem IndexInv.mem_ancestors {e : CBlockIndex} (he : e ∈ s.ancestors (some p)) : ∃ a < s.size, e = s.entry a := by
  unfold NodeState.ancestors at he
  simp only at he
  obtain ⟨a, ha, rfl⟩ := mem_map.mp he
  have hanc : Anc s.par a p := (hs.shape.tree.graded.mem_path hp).mp (mem_reverse.mp ha)
  exact ⟨a, hs.shape.tree.graded.anc_mem hp hanc, rfl⟩

end

/-- The modifier above an entry is a function of what the entries below record. -/
theorem IndexInv.computeNextStakeModifier_eq (hs : IndexInv N s) (C : Crypto) (hp : p < s.size) :
    s.computeNextStakeModifier C (some p) = modifierAbove C ((s.ancestors (some p)).map CBlockIndex.stakeView) := by
  refine modifierAbove_view C fun e he => ?_
  obtain ⟨a, ha, rfl⟩ := hs.mem_ancestors hp he
  have hfind : s.mapBlockIndex.find (s.entry a).hash = some a := hs.shape.find_eq ha
  rw [hfind]
  rfl

theorem ancestors_congr (hg : Forest.Graded (fun q => q < s.size) s.par s.ht) (hp : p < s.size)
    (hpar : s'.par = s.par) (hht : s'.ht p = s.ht p)
    (hentry : ∀ a, Anc s.par a p → s'.entry a = s.entry a) : s'.ancestors (some p) = s.ancestors (some p) := by
  unfold NodeState.ancestors
  simp only
  rw [hpar, hht]
  exact map_congr_left fun a ha => hentry a ((hg.mem_path hp).mp (mem_reverse.mp ha))

theorem isEmpty_branch (s : NodeState) (q : Ptr) : (s.branch q).isEmpty = false := by
  unfold NodeState.branch
  cases hpath : Forest.path s.par (s.ht q) q with
  | nil =>
    cases hn : s.ht q with
    | zero => simp [hn, Forest.path] at hpath
    | succ n =>
      rw [hn, Forest.path] at hpath
      split at hpath
      · simp at hpath
      · simp at hpath
  | cons a l => simp

/-- An entry records what the blocks say when its parent does. -/
theorem Viewed.child (hs : IndexInv N s) (hp : p < s.size) (hpar : s.par p = some q)
    (hq : Viewed N.C g s q) {m : Nat} {f : Bool} (hblock : s.blockFile p = some block)
    (hmodifier : s.computeNextStakeModifier N.C (some q) = some (m, f))
    (hview : (s.entry p).stakeView =
      stakeViewOf N.C 0 (s.mapBlockIndex.getBlockHeader p) block (m, f)) : Viewed N.C g s p := by
  have hqsize := hs.shape.tree.graded.closed hp hpar
  rw [hs.computeNextStakeModifier_eq N.C hqsize] at hmodifier
  have hne := isEmpty_branch s q
  unfold Viewed at hq ⊢
  rw [hs.branch_child hp hpar, hs.ancestors_child hp hpar]
  simp only [NodeState.carried, stakeViews, hq, Option.bind_some, hblock, hmodifier, Option.map_some, hne,
    map_cons, hview]
  rfl

/-- A branch whose blocks and records stay records what its blocks say. -/
theorem Viewed.congr {C : Crypto} (h : Viewed C g s p) (hg : Forest.Graded (fun q => q < s.size) s.par s.ht)
    (hp : p < s.size) (hht : s'.ht p = s.ht p) (hpar : ∀ a, Anc s.par a p → s'.par a = s.par a)
    (hcarried : ∀ a, Anc s.par a p → s'.carried a = s.carried a)
    (hview : ∀ a, Anc s.par a p → (s'.entry a).stakeView = (s.entry a).stakeView) : Viewed C g s' p := by
  have hpath : Forest.path s'.par (s'.ht p) p = Forest.path s.par (s.ht p) p := by
    rw [hht]
    exact Forest.path_congr hpar
  have hanc : ∀ a ∈ (Forest.path s.par (s.ht p) p).reverse, Anc s.par a p := fun a ha =>
    (hg.mem_path hp).mp (mem_reverse.mp ha)
  have hbranch : s'.branch p = s.branch p := by
    unfold NodeState.branch
    rw [hpath]
    exact map_congr_left fun a ha => hcarried a (hanc a ha)
  have hviews : (s'.ancestors (some p)).map CBlockIndex.stakeView =
      (s.ancestors (some p)).map CBlockIndex.stakeView := by
    unfold NodeState.ancestors
    simp only [map_map]
    rw [hpath]
    exact map_congr_left fun a ha => hview a (hanc a ha)
  unfold Viewed at h ⊢
  rw [hbranch, hviews]
  exact h

/-! ## What keeps the stakes -/

/-- The stakes, the blocks and the links stay as they are. -/
structure StakeKept (s s' : NodeState) : Prop where
  size : s'.size = s.size
  par : ∀ p < s.size, s'.par p = s.par p
  ht : ∀ p < s.size, s'.ht p = s.ht p
  header : ∀ p < s.size, s'.mapBlockIndex.getBlockHeader p = s.mapBlockIndex.getBlockHeader p
  view : ∀ p < s.size, (s'.entry p).stakeView = (s.entry p).stakeView
  linked : ∀ p < s.size, s'.linked p = s.linked p
  haveData : ∀ p < s.size, s'.haveData p = s.haveData p
  blockFile : s'.blockFile = s.blockFile

theorem StakeKept.refl (s : NodeState) : StakeKept s s :=
  ⟨rfl, fun _ _ => rfl, fun _ _ => rfl, fun _ _ => rfl, fun _ _ => rfl, fun _ _ => rfl, fun _ _ => rfl, rfl⟩

theorem StakeKept.trans {s'' : NodeState} (h : StakeKept s s') (h' : StakeKept s' s'') :
    StakeKept s s'' where
  size := h'.size.trans h.size
  par p hp := (h'.par p (h.size ▸ hp)).trans (h.par p hp)
  ht p hp := (h'.ht p (h.size ▸ hp)).trans (h.ht p hp)
  header p hp := (h'.header p (h.size ▸ hp)).trans (h.header p hp)
  view p hp := (h'.view p (h.size ▸ hp)).trans (h.view p hp)
  linked p hp := (h'.linked p (h.size ▸ hp)).trans (h.linked p hp)
  haveData p hp := (h'.haveData p (h.size ▸ hp)).trans (h.haveData p hp)
  blockFile := h'.blockFile.trans h.blockFile

theorem StakeKept.of_map (hmap : s'.mapBlockIndex = s.mapBlockIndex) (hfile : s'.blockFile = s.blockFile) :
    StakeKept s s' := by
  have he : ∀ p, s'.entry p = s.entry p := fun p => congrArg (fun m : BlockMap => m.entry p) hmap
  exact ⟨congrArg BlockMap.size hmap, fun p _ => congrArg CBlockIndex.pprev (he p),
    fun p _ => congrArg CBlockIndex.nHeight (he p),
    fun p _ => congrArg (fun m : BlockMap => m.getBlockHeader p) hmap,
    fun p _ => congrArg CBlockIndex.stakeView (he p), fun p _ => congrArg CBlockIndex.linked (he p),
    fun p _ => congrArg (fun e : CBlockIndex => e.nStatus.haveData) (he p), hfile⟩

/-- A change to one entry that does not touch the stake. -/
theorem StakeKept.modify {f : CBlockIndex → CBlockIndex} (s : NodeState) (p : Ptr)
    (hshape : ∀ e, (f e).shape = e.shape) (hview : ∀ e : CBlockIndex, (f e).stakeView = e.stakeView)
    (hlinked : ∀ e : CBlockIndex, (f e).linked = e.linked)
    (hdata : ∀ e : CBlockIndex, (f e).nStatus.haveData = e.nStatus.haveData) : StakeKept s (s.modify p f) := by
  have hsame : s.mapBlockIndex.SameShape (s.modify p f).mapBlockIndex := .modify _ p hshape
  exact ⟨hsame.size, fun q _ => congrFun hsame.par q, fun q _ => congrFun hsame.ht q,
    fun q _ => hsame.getBlockHeader q, fun q _ => entry_modify_keep CBlockIndex.stakeView s p f hview q,
    fun q _ => entry_modify_keep CBlockIndex.linked s p f hlinked q,
    fun q _ => entry_modify_keep (fun e => e.nStatus.haveData) s p f hdata q, rfl⟩

theorem ChainMove.stakeKept (h : ChainMove s s') : StakeKept s s' := by
  cases h with
  | note | quiet | write | erase | connect | disconnect => exact .of_map rfl rfl
  | @mint p r | @failChild a p => exact .modify s p (fun _ => rfl) (fun _ => rfl) (fun _ => rfl) fun _ => rfl
  | @reject p =>
    have hfail : StakeKept (s.recordVerdict p) ((s.recordVerdict p).failValid p) :=
      .modify _ p (fun _ => rfl) (fun _ => rfl) (fun _ => rfl) fun _ => rfl
    have hverdict : StakeKept s (s.recordVerdict p) := .of_map rfl rfl
    exact (hverdict.trans hfail).trans (.of_map rfl rfl)
  | @failTip a p =>
    have hfail : StakeKept s (s.failChild p) :=
      .modify s p (fun _ => rfl) (fun _ => rfl) (fun _ => rfl) fun _ => rfl
    exact hfail.trans (.of_map rfl rfl)
  | @record p t u r =>
    have hentry : StakeKept s (s.modify p (connectedEntry u r)) :=
      .modify s p (fun _ => rfl) (fun _ => rfl) (fun _ => rfl) fun _ => connectedStatus_haveData
    exact hentry.trans (.of_map rfl rfl)

theorem UserMove.stakeKept (h : UserMove s s') : StakeKept s s' := by
  cases h with
  | chain move => exact move.stakeKept
  | @invalidate p =>
    have hfail : StakeKept s (s.failValid p) :=
      .modify s p (fun _ => rfl) (fun _ => rfl) (fun _ => rfl) fun _ => rfl
    exact hfail.trans (.of_map rfl rfl)
  | @clear p =>
    have hclear : StakeKept s (s.clearFailed p) :=
      .modify s p (fun _ => rfl) (fun _ => rfl) (fun _ => rfl) fun _ => rfl
    exact hclear.trans (.of_map rfl rfl)
  | insert => exact .of_map rfl rfl

theorem UserMoves.stakeKept (h : UserMoves s s') : StakeKept s s' := by
  induction h with
  | refl => exact .refl _
  | tail _ move ih => exact ih.trans move.stakeKept

theorem StakeInv.of_kept (h : StakeInv N g s) (hs : IndexInv N s) (hkept : StakeKept s s') :
    StakeInv N g s' := by
  have hg := hs.shape.tree.graded
  have hflag : ∀ p < s.size, (s'.entry p).fProofOfStake = (s.entry p).fProofOfStake := fun p hp =>
    (congrArg CBlockIndex.fProofOfStake (hkept.view p hp) :)
  have hentropy : ∀ p < s.size, (s'.entry p).fStakeEntropy = (s.entry p).fStakeEntropy := fun p hp =>
    (congrArg CBlockIndex.fStakeEntropy (hkept.view p hp) :)
  constructor
  · intro p hp hlinked
    rw [hkept.size] at hp
    rw [hkept.linked p hp] at hlinked
    have hmem : ∀ a, Anc s.par a p → a < s.size := fun a ha => hg.anc_mem hp ha
    refine (h.viewed p hp hlinked).congr hg hp (hkept.ht p hp) (fun a ha => hkept.par a (hmem a ha))
      (fun a ha => ?_) fun a ha => hkept.view a (hmem a ha)
    unfold NodeState.carried
    rw [hkept.header a (hmem a ha), hkept.blockFile]
  · intro p hp hdata
    rw [hkept.size] at hp
    rw [hkept.haveData p hp] at hdata
    rw [hkept.blockFile, hkept.header p hp, hflag p hp, hentropy p hp]
    exact h.body p hp hdata
  · intro p hp hdata
    rw [hkept.size] at hp
    rw [hkept.haveData p hp] at hdata
    rw [hkept.header p hp, hflag p hp, hentropy p hp]
    exact h.empty p hp hdata
  · intro p hp hlinked
    rw [hkept.size] at hp
    rw [hkept.linked p hp] at hlinked
    exact (congrArg CBlockIndex.fStakeModifier (hkept.view p hp) :).trans (h.fresh p hp hlinked)

/-! ## Headers and blocks -/

theorem StakeInv.add (h : StakeInv N g s) (hs : IndexInv N s) {block : CBlockHeader}
    (hq : s.mapBlockIndex.find block.hashPrevBlock = some q) :
    StakeInv N g (s.addEntry (childEntry N s block q)) := by
  have hold (p) (hp : p < s.size) := addEntry_entry_old s (childEntry N s block q) hp
  have hheader : ∀ p < s.size, (s.addEntry (childEntry N s block q)).mapBlockIndex.getBlockHeader p =
      s.mapBlockIndex.getBlockHeader p := fun p hp => addEntry_getBlockHeader_old hs.shape.tree _ hp
  have hnew := addEntry_entry_new s (childEntry N s block q)
  constructor
  · intro p hp hlinked
    rcases addEntry_cases hp with hlt | rfl
    · have hlinked : s.linked p = true := (congrArg CBlockIndex.linked (hold p hlt)).symm.trans hlinked
      have hmem : ∀ a, Anc s.par a p → a < s.size := fun a ha => hs.shape.tree.graded.anc_mem hlt ha
      refine (h.viewed p hlt hlinked).congr hs.shape.tree.graded hlt (addEntry_ht_old s _ hlt)
        (fun a ha => addEntry_par_old s _ (hmem a ha)) (fun a ha => ?_) fun a ha => ?_
      · exact Prod.ext (hheader a (hmem a ha)) rfl
      · rw [hold a (hmem a ha)]
    · rw [childEntry_linked] at hlinked
      simp at hlinked
  · intro p hp hdata
    rcases addEntry_cases hp with hlt | rfl
    · rw [hheader p hlt, hold p hlt]
      exact h.body p hlt ((congrArg (fun e => e.nStatus.haveData) (hold p hlt)).symm.trans hdata)
    · rw [childEntry_haveData] at hdata
      simp at hdata
  · intro p hp hdata
    rcases addEntry_cases hp with hlt | rfl
    · rw [hheader p hlt, hold p hlt]
      exact h.empty p hlt ((congrArg (fun e => e.nStatus.haveData) (hold p hlt)).symm.trans hdata)
    · rw [addEntry_getBlockHeader_new hq, hnew]
      exact ⟨rfl, rfl⟩
  · intro p hp hlinked
    rcases addEntry_cases hp with hlt | rfl
    · rw [hold p hlt]
      exact h.fresh p hlt ((congrArg CBlockIndex.linked (hold p hlt)).symm.trans hlinked)
    · rw [hnew]
      rfl

theorem acceptBlockHeader_stake (hs : IndexInv N s) (h : StakeInv N g s) (block : CBlockHeader) :
    StakeInv N g (acceptBlockHeader N s block).2 := by
  rcases acceptBlockHeader_cases hs block with ⟨p, -, -, hr⟩ | ⟨q, -, hq, -, -, hr⟩ | ⟨stop, hr, -⟩
  · rw [hr]
    exact h
  · rw [hr]
    exact h.add hs hq
  · rw [hr]
    exact h

section

variable (pos : Nat × Nat) (block : CBlock) (e : CBlockIndex)

theorem receivedEntry_fProofOfStake :
    (receivedEntry N pos block e).fProofOfStake = (e.fProofOfStake || block.hasStake) := by
  unfold receivedEntry CBlock.hasStake
  cases hstake : block.isProofOfStake <;> cases hvtx : block.vtx[1]? <;> simp

theorem receivedEntry_fStakeEntropy :
    (receivedEntry N pos block e).fStakeEntropy = (e.fStakeEntropy || decide (block.getHash N.C % 2 = 1)) := by
  unfold receivedEntry
  dsimp only
  split <;> rfl

theorem receivedEntry_fStakeModifier : (receivedEntry N pos block e).fStakeModifier = e.fStakeModifier := by
  unfold receivedEntry
  dsimp only
  split <;> rfl

end

/-- A block is stored for an entry without data. -/
theorem StakeInv.receive (h : StakeInv N g s) (hs : IndexInv N s) (hp : p < s.size)
    (hempty : s.haveData p = false) (block : CBlock) : StakeInv N g (receiveData N s block p) := by
  have hsize : (receiveData N s block p).size = s.size := receiveData_sameShape.size
  have hheader : ∀ q, (receiveData N s block p).mapBlockIndex.getBlockHeader q =
      s.mapBlockIndex.getBlockHeader q := receiveData_sameShape.getBlockHeader
  have hfile : ∀ q, q ≠ p → (receiveData N s block p).blockFile q = s.blockFile q := fun q hq => if_neg hq
  have hunlinked : s.linked p = false := by
    cases hl : s.linked p with
    | false => rfl
    | true => exact absurd (hs.flow.linked_data p hp hl) (by simp [hempty])
  constructor
  · intro q hq hlinked
    rw [hsize] at hq
    have hne : q ≠ p := by
      rintro rfl
      rw [receiveData_linked_self] at hlinked
      simp at hlinked
    rw [receiveData_linked_ne hne] at hlinked
    -- An entry without data is below no linked entry.
    have hbelow : ∀ a, Anc s.par a q → a ≠ p := by
      rintro a ha rfl
      rw [hs.linked_anc hq hlinked ha] at hunlinked
      simp at hunlinked
    refine (h.viewed q hq hlinked).congr hs.shape.tree.graded hq (congrFun receiveData_sameShape.ht q)
      (fun a _ => congrFun receiveData_sameShape.par a) (fun a ha => ?_) fun a ha => ?_
    · exact Prod.ext (hheader a) (hfile a (hbelow a ha))
    · rw [receiveData_entry_ne (hbelow a ha)]
  · intro q hq hdata
    rw [hsize] at hq
    rw [hheader]
    by_cases hqp : q = p
    · obtain ⟨hflag, hentropy⟩ := h.empty p hp hempty
      rw [hqp, receiveData_entry_self, receivedEntry_fProofOfStake, receivedEntry_fStakeEntropy, hflag, hentropy]
      exact ⟨block, if_pos rfl, rfl, rfl⟩
    · rw [receiveData_entry_ne hqp, hfile q hqp]
      rw [receiveData_haveData, decide_eq_false hqp, Bool.or_false] at hdata
      exact h.body q hq hdata
  · intro q hq hdata
    rw [hsize] at hq
    rw [receiveData_haveData, Bool.or_eq_false_iff] at hdata
    rw [hheader, receiveData_entry_ne (of_decide_eq_false hdata.2)]
    exact h.empty q hq hdata.1
  · intro q hq hlinked
    rw [hsize] at hq
    by_cases hqp : q = p
    · rw [hqp, receiveData_entry_self, receivedEntry_fStakeModifier]
      exact h.fresh p hp hunlinked
    · rw [receiveData_entry_ne hqp]
      rw [receiveData_linked_ne hqp] at hlinked
      exact h.fresh q hq hlinked

/-- The genesis block is linked, so an entry that is not has a parent. -/
theorem IndexInv.par_of_unlinked (hs : IndexInv N s) (hp : p < s.size) (hlinked : s.linked p = false) :
    ∃ q, s.par p = some q := by
  cases hpar : s.par p with
  | some q => exact ⟨q, rfl⟩
  | none =>
    obtain ⟨t, ht⟩ := hs.exists_tip
    obtain ⟨htsize, -, htlinked, -⟩ := hs.tip_eq ht
    obtain ⟨a, hanc, hheight⟩ := hs.shape.tree.graded.exists_anc htsize (Nat.zero_le (s.ht t))
    have ha := hs.shape.tree.graded.anc_mem htsize hanc
    have hroot : s.par a = none := by
      cases hpa : s.par a with
      | none => rfl
      | some b =>
        have hstep : s.ht a = s.ht b + 1 := hs.shape.tree.graded.height ha hpa
        have hzero : s.ht a = 0 := hheight
        omega
    rw [hs.shape.tree.root p hp a ha hpar hroot, hs.linked_anc htsize htlinked hanc] at hlinked
    simp at hlinked

/-- A turn of the queue records the stake that the blocks say. -/
theorem StakeInv.link (h : StakeInv N g s) (hs : IndexInv N s) {env : Env} {queue waiting : List Ptr}
    (hqueue : QueueInv s (p :: queue))
    (hlink : linkEntry N env 0 block s p = (.ok waiting, s')) : StakeInv N g s' := by
  have hmem : p ∈ p :: queue := mem_cons_self
  have hp := hqueue.size p hmem
  have hdata := hqueue.data p hmem
  have hunlinked := hqueue.unlinked p hmem
  have hby := (linkEntry_ok hlink).1
  obtain ⟨s₁, m, f, hrecord, hmodifier, hself, hother⟩ := linkEntry_entry hlink
  have hs₁ : IndexInv N s₁ := (recordProofHash_moves hqueue hrecord).inv hs
  have hs' : IndexInv N s' := by
    have hmoves : Moves N s (linkEntry N env 0 block s p).2 := linkEntry_moves hs hqueue
    rw [hlink] at hmoves
    exact hmoves.inv hs
  have hsize : s'.size = s.size := hby.shape.size
  have hbelow : ∀ q < s.size, s.linked q = true → ∀ a, Anc s.par a q → a ≠ p := by
    rintro q hq hlinked a ha rfl
    rw [hs.linked_anc hq hlinked ha] at hunlinked
    simp at hunlinked
  have hkept : ∀ q < s.size, s.linked q = true → Viewed N.C g s' q := by
    intro q hq hlinked
    refine (h.viewed q hq hlinked).congr hs.shape.tree.graded hq (congrFun hby.shape.ht q)
      (fun a _ => congrFun hby.shape.par a) (fun a ha => ?_) fun a ha => ?_
    · exact Prod.ext (hby.shape.getBlockHeader a) (congrFun hby.blockFile a)
    · rw [(hother a (hbelow q hq hlinked a ha)).1]
  have hflags : ∀ q, (s'.entry q).fProofOfStake = (s.entry q).fProofOfStake ∧
      (s'.entry q).fStakeEntropy = (s.entry q).fStakeEntropy := fun q =>
    ⟨(congrArg CBlockIndex.fProofOfStake (hby.received q) :), (congrArg CBlockIndex.fStakeEntropy (hby.received q) :)⟩
  constructor
  · intro q hq hlinked
    rw [hsize] at hq
    by_cases hqp : q = p
    · subst hqp
      obtain ⟨r, hpar⟩ := hs.par_of_unlinked hp hunlinked
      have hr := hs.shape.tree.graded.closed hp hpar
      have hrlinked := hqueue.parent q hmem r hpar
      obtain ⟨stored, hstored, hflag, hentropy⟩ := h.body q hp hdata
      have hpar' : s'.par q = some r := (congrFun hby.shape.par q).trans hpar
      have hst : Staked (s.link q) s₁ q := recordProofHash_staked hrecord
      have hshape₁ : (s.link q).mapBlockIndex.SameShape s₁.mapBlockIndex :=
        ⟨hst.size, fun a => (hst.entry a).shape⟩
      have hpar₁ : s₁.par = s.par := hshape₁.par.trans link_sameShape.par
      have hht₁ : s₁.ht r = s.ht r := (congrFun hshape₁.ht r).trans (congrFun link_sameShape.ht r)
      -- The modifier was computed from the entries below, which have not changed since.
      have hviews : s₁.ancestors (some r) = s'.ancestors (some r) := by
        have hg := hs.shape.tree.graded
        have hbefore : s₁.ancestors (some r) = s.ancestors (some r) :=
          ancestors_congr hg hr hpar₁ hht₁ fun a ha => (hother a (hbelow r hr hrlinked a ha)).2
        have hafter : s'.ancestors (some r) = s.ancestors (some r) :=
          ancestors_congr hg hr hby.shape.par (congrFun hby.shape.ht r) fun a ha =>
            (hother a (hbelow r hr hrlinked a ha)).1
        rw [hbefore, hafter]
      have hnext : s'.computeNextStakeModifier N.C (some r) = some (m, f) := by
        rw [hs'.computeNextStakeModifier_eq N.C (hsize ▸ hr), ← hviews,
          ← hs₁.computeNextStakeModifier_eq N.C (by rw [hst.size]; exact hr), ← hmodifier, hpar₁, hpar]
      have hhash : (s.entry q).hash = N.C.headerHash (s.mapBlockIndex.getBlockHeader q) :=
        (hs.shape.hash q hp).symm
      refine Viewed.child hs' (hsize ▸ hp) hpar' (hkept r hr hrlinked)
        ((congrFun hby.blockFile q).trans hstored) hnext ?_
      rw [hself, link_entry_self, hby.shape.getBlockHeader q]
      have hmod := h.fresh q hp hunlinked
      simp only [CBlockIndex.stakeView, CBlockIndex.setStakeModifier, CBlockIndex.setHashProof, stakeViewOf,
        hhash, hflag, hentropy, hmod, Bool.false_or]
      rfl
    · rw [hby.linked_ne hqp] at hlinked
      exact hkept q hq hlinked
  · intro q hq hd
    rw [hsize] at hq
    rw [hby.haveData] at hd
    rw [hby.blockFile, hby.shape.getBlockHeader, (hflags q).1, (hflags q).2]
    exact h.body q hq hd
  · intro q hq hd
    rw [hsize] at hq
    rw [hby.haveData] at hd
    rw [hby.shape.getBlockHeader, (hflags q).1, (hflags q).2]
    exact h.empty q hq hd
  · intro q hq hlinked
    rw [hsize] at hq
    by_cases hqp : q = p
    · have hnow : s'.linked p = true := by
        refine hby.linked_self ?_
        exact (hs.flow.data_tx p hp).mp hdata
      rw [hqp, hnow] at hlinked
      simp at hlinked
    · rw [(hother q hqp).1]
      rw [hby.linked_ne hqp] at hlinked
      exact h.fresh q hq hlinked

/-! ## The queue does not fail -/

/-- `VerifyHashTarget` sees the active chain and the stored blocks only, which linking does not touch. -/
theorem computeProofHash_congr (hnow : s'.now = s.now) (hfile : s'.blockFile = s.blockFile)
    (hshape : s.mapBlockIndex.SameShape s'.mapBlockIndex) (hchain : s'.chainActive = s.chainActive)
    (hentry : ∀ q, some q ∈ s.chainActive → s'.entry q = s.entry q) (block : CBlock) :
    computeProofHash N s' block = computeProofHash N s block := by
  unfold computeProofHash
  split_ifs
  · rfl
  · refine Option.bind_congr fun coinstake _ => ?_
    refine checkProofOfStake_congr hnow hfile hshape (fun _ _ _ _ => ?_) block.nBits
    refine getKernelStakeModifier_congr hchain hshape (fun q hq => ?_) _
    rw [hentry q hq]
    exact ⟨rfl, rfl⟩
  · rfl

theorem IndexInv.chainActive_linked (hs : IndexInv N s) (hq : some q ∈ s.chainActive) :
    s.linked q = true := by
  obtain ⟨t, ht⟩ := hs.exists_tip
  obtain ⟨htsize, hends, htlinked, -⟩ := hs.tip_eq ht
  rw [hends, mem_map] at hq
  obtain ⟨a, ha, heq⟩ := hq
  cases heq
  exact hs.linked_anc htsize htlinked ((hs.shape.tree.graded.mem_path htsize).mp ha)

/-- A branch of blocks with views has a new modifier at the genesis block. -/
theorem stakeViews_generated {C : Crypto} {branch : List (CBlockHeader × Option CBlock)}
    {views : List CBlockIndex} (h : stakeViews C g branch = some views) (hne : branch ≠ []) :
    ∃ e ∈ views, e.fStakeModifier = true := by
  induction branch generalizing views with
  | nil => exact absurd rfl hne
  | cons carried rest ih =>
    obtain ⟨header, block⟩ := carried
    rw [stakeViews, Option.bind_eq_some_iff] at h
    obtain ⟨below, hbelow, h⟩ := h
    obtain ⟨block, -, h⟩ := Option.bind_eq_some_iff.mp h
    obtain ⟨modifier, hmodifier, rfl⟩ := Option.map_eq_some_iff.mp h
    cases rest with
    | nil =>
      cases hbelow
      cases hmodifier
      exact ⟨_, mem_cons_self, rfl⟩
    | cons carried rest =>
      obtain ⟨e, he, hflag⟩ := ih hbelow (cons_ne_nil _ _)
      exact ⟨e, mem_cons_of_mem _ he, hflag⟩

theorem StakeInv.computeNextStakeModifier_isSome (h : StakeInv N g s) (hs : IndexInv N s) (hq : q < s.size)
    (hlinked : s.linked q) : (s.computeNextStakeModifier N.C (some q)).isSome = true := by
  refine Reddcoin.computeNextStakeModifier_isSome N.C (fun e he => ?_) ?_ fun _ => ?_
  · obtain ⟨a, ha, rfl⟩ := hs.mem_ancestors hq he
    rw [show s.mapBlockIndex.find (s.entry a).hash = some a from hs.shape.find_eq ha]
    rfl
  · unfold NodeState.ancestors
    simp only [map_map]
    have hnodup : (Forest.path s.par (s.ht q) q).reverse.Nodup :=
      nodup_reverse.mpr (hs.shape.tree.graded.nodup_path hq)
    refine hnodup.map_on fun a ha b hb heq => ?_
    have hmem : ∀ c ∈ (Forest.path s.par (s.ht q) q).reverse, c < s.size := fun c hc =>
      hs.shape.tree.graded.anc_mem hq ((hs.shape.tree.graded.mem_path hq).mp (mem_reverse.mp hc))
    exact hs.shape.hash_injective a (hmem a ha) b (hmem b hb) heq
  · have hne : s.branch q ≠ [] := by
      intro hnil
      have hempty := isEmpty_branch s q
      rw [hnil] at hempty
      simp at hempty
    obtain ⟨view, hview, hflag⟩ := stakeViews_generated (h.viewed q hq hlinked) hne
    obtain ⟨e, he, rfl⟩ := mem_map.mp hview
    exact ⟨e, he, hflag⟩

/-- A turn of the queue passes, and the next one will see the same. -/
theorem StakeInv.linkEntry_passes (h : StakeInv N g s) (hs : IndexInv N s) {env : Env} {queue : List Ptr}
    (hqueue : QueueInv s (p :: queue))
    (hverify : (computeProofHash N s block).isSome)
    (hcheck : ∀ q, env.checkStakeModifierCheckpoints q) :
    ∃ waiting s', linkEntry N env 0 block s p = (.ok waiting, s') ∧ (computeProofHash N s' block).isSome = true := by
  have hmem : p ∈ p :: queue := mem_cons_self
  have hp := hqueue.size p hmem
  have hunlinked := hqueue.unlinked p hmem
  have hchain : ∀ q, some q ∈ s.chainActive → q ≠ p := by
    intro q hq heq
    rw [← heq, hs.chainActive_linked hq] at hunlinked
    simp at hunlinked
  have hlink : computeProofHash N (s.link p) block = computeProofHash N s block := by
    have hnow : (s.link p).now = s.now := rfl
    exact computeProofHash_congr hnow rfl link_sameShape rfl (fun q hq => link_entry_ne (hchain q hq)) block
  obtain ⟨s₁, hrecord⟩ : ∃ s₁, recordProofHash N 0 block (s.link p) p = some s₁ := by
    obtain ⟨hash, hhash⟩ := Option.isSome_iff_exists.mp hverify
    unfold recordProofHash verifyHashTarget
    rw [if_pos rfl, hlink, hhash]
    exact ⟨_, rfl⟩
  obtain ⟨r, hpar⟩ := hs.par_of_unlinked hp hunlinked
  have hr := hs.shape.tree.graded.closed hp hpar
  have hrlinked := hqueue.parent p hmem r hpar
  have hst : Staked (s.link p) s₁ p := recordProofHash_staked hrecord
  have hshape₁ : (s.link p).mapBlockIndex.SameShape s₁.mapBlockIndex := ⟨hst.size, fun a => (hst.entry a).shape⟩
  have hpar₁ : s₁.par = s.par := hshape₁.par.trans link_sameShape.par
  have hother : ∀ q, q ≠ p → s₁.entry q = s.entry q := fun q hq => (hst.ne q hq).trans (link_entry_ne hq)
  obtain ⟨⟨m, f⟩, hmodifier⟩ : ∃ mf, s₁.computeNextStakeModifier N.C (s₁.par p) = some mf := by
    have hs₁ : IndexInv N s₁ := (recordProofHash_moves hqueue hrecord).inv hs
    have hviews : s₁.ancestors (some r) = s.ancestors (some r) := by
      refine ancestors_congr hs.shape.tree.graded hr hpar₁
        ((congrFun hshape₁.ht r).trans (congrFun link_sameShape.ht r)) fun a ha => hother a ?_
      rintro rfl
      rw [hs.linked_anc hr hrlinked ha] at hunlinked
      simp at hunlinked
    have hsome := h.computeNextStakeModifier_isSome hs hr hrlinked
    rw [hs.computeNextStakeModifier_eq N.C hr, ← hviews,
      ← hs₁.computeNextStakeModifier_eq N.C (by rw [hst.size]; exact hr)] at hsome
    rw [hpar₁, hpar]
    exact Option.isSome_iff_exists.mp hsome
  have hrun : ∃ waiting s', linkEntry N env 0 block s p = (.ok waiting, s') := by
    simp only [linkEntry, hrecord, hmodifier, hcheck, Bool.not_true, Bool.false_eq_true, if_false]
    exact ⟨_, _, rfl⟩
  obtain ⟨waiting, s', hrun⟩ := hrun
  refine ⟨waiting, s', hrun, ?_⟩
  have hby := (linkEntry_ok hrun).1
  obtain ⟨_, _, _, -, -, -, hsame⟩ := linkEntry_entry hrun
  rw [computeProofHash_congr hby.now hby.blockFile hby.shape hby.chainActive
    (fun q hq => (hsame q (hchain q hq)).1)]
  exact hverify

/-- The whole queue is worked off, and every entry in it records what the blocks say. -/
theorem linkQueue_stake {env : Env} (turns : Nat) {queue : List Ptr} (hs : IndexInv N s)
    (h : StakeInv N g s) (hqueue : QueueInv s queue) (hverify : (computeProofHash N s block).isSome)
    (hcheck : ∀ q, env.checkStakeModifierCheckpoints q) :
    StakeInv N g (linkQueue N env 0 block turns s queue).2 := by
  induction turns generalizing s queue with
  | zero => exact h
  | succ turns ih =>
    cases queue with
    | nil => exact h
    | cons p queue =>
      obtain ⟨waiting, s', hrun, hverify'⟩ := h.linkEntry_passes hs hqueue hverify hcheck
      have hmoves : Moves N s (linkEntry N env 0 block s p).2 := linkEntry_moves hs hqueue
      rw [linkQueue, hrun]
      rw [hrun] at hmoves
      exact ih (hmoves.inv hs) (h.link hs hqueue hrun) (hqueue.step hs (linkEntry_ok hrun).1) hverify'

end

end Reddcoin
