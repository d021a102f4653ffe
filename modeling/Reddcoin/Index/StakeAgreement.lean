import Reddcoin.Index.StakeRecord

/-!
# The stake modifiers of two nodes

Two nodes whose runs are steady agree on the stake modifiers of the blocks that they share.  A run is steady
when the blocks pass the checks of `ReceivedBlockTransactions`, and when the node is restarted only while
the database holds the stakes of all entries and no stored block is left out.
-/

namespace Reddcoin

open Forest (Anc)

/-! ## Steady runs -/

/-- How the genesis block came into the index. -/
inductive GenesisBy where
  | initBlockIndex
  | acceptBlock

/-- The proof hash that `ReceivedBlockTransactions` is given for the genesis block. -/
def GenesisBy.hashProof (N : Node) : GenesisBy → Uint256
  | initBlockIndex => N.P.hashGenesisBlock
  | acceptBlock => 0

/-- If the block is stored and can be linked at once, `VerifyHashTarget` passes, and so do the stake
modifier checkpoints. -/
def Passes (N : Node) (s : NodeState) (block : CBlock) : Prop :=
  ∀ p s₁, acceptBlockHeader N s block.toCBlockHeader = (.ok p, s₁) → s₁.haveData p = false →
    Receivable N s₁ block p → (∀ q, s₁.par p = some q → s₁.linked q = true) →
      (verifyHashTarget N (receiveData N s₁ block p) block).isSome = true ∧
        ∀ q, (N.env s₁).checkStakeModifierCheckpoints q = true

/-- The database holds the stake of every entry that is not going to be written. -/
def NodeState.StakesOnDisk (s : NodeState) : Prop :=
  ∀ p < s.size, p ∈ s.setDirtyBlockIndex ∨ ∀ r, s.blockTree p = some r → r.index.stakeView = (s.entry p).stakeView

/-- No stored block is left unlinked above a linked one. -/
def NodeState.NoneLeft (s : NodeState) : Prop :=
  ∀ p < s.size, s.haveData p = true → (∀ q, s.par p = some q → s.linked q = true) → s.linked p = true

/-- The condition under which a call keeps the stakes what the blocks say. -/
def Op.Steady (N : Node) (s : NodeState) : Op → Prop
  | acceptBlock block | processNewBlock _ block => Passes N s block
  | restart _ => s.StakesOnDisk ∧ s.NoneLeft
  | _ => True

/-- The states of runs in which every call is steady. -/
inductive SteadyRun (N : Node) : GenesisBy → NodeState → Prop where
  | init {genesis : CBlock} {A : Addresses} {turns : Nat} {s : NodeState} (isGenesis : IsGenesis N genesis)
      (run : initBlockIndex N genesis A turns = some (.ok (), s)) (active : s.tip ≠ none) :
      SteadyRun N .initBlockIndex s
  | reindex {genesis : CBlock} {A : Addresses} {turns : Nat} {s : NodeState}
      (isGenesis : IsGenesis N genesis)
      (run : processNewBlock N turns (NodeState.empty A) genesis = some (.ok (), s))
      (active : s.tip ≠ none) : SteadyRun N .acceptBlock s
  | step {how : GenesisBy} {s s' : NodeState} (op : Op) (before : SteadyRun N how s) (steady : op.Steady N s)
      (step : Step N op s s') : SteadyRun N how s'

section

variable {N : Node} {g : Uint256} {how : GenesisBy} {s s' : NodeState} {p q : Ptr}

theorem SteadyRun.reachable (h : SteadyRun N how s) : Reachable N s := by
  induction h with
  | init isGenesis run active => exact .init isGenesis run active
  | reindex isGenesis run active => exact .reindex isGenesis run active
  | step op _ _ step ih => exact .step op ih step

/-! ## The genesis block -/

theorem Starting.stakeInv (h : Starting N s) {genesis : CBlock} (hfile : s.blockFile 0 = some genesis)
    (hview : (s.entry 0).stakeView =
      stakeViewOf N.C g (s.mapBlockIndex.getBlockHeader 0) genesis (0, true)) : StakeInv N g s := by
  have hone : ∀ p < s.size, p = 0 := by
    intro p hp
    have hsize := h.size
    omega
  constructor
  · intro p hp _
    rw [hone p hp]
    unfold Viewed NodeState.branch NodeState.ancestors
    simp only [h.ht]
    have hpath : Forest.path s.par 0 0 = [0] := rfl
    rw [hpath]
    simp only [List.reverse_singleton, List.map_cons, List.map_nil, NodeState.carried, hfile, hview]
    rfl
  · intro p hp _
    rw [hone p hp]
    exact ⟨genesis, hfile, (congrArg CBlockIndex.fProofOfStake hview :), (congrArg CBlockIndex.fStakeEntropy hview :)⟩
  · intro p hp hdata
    rw [hone p hp, h.haveData] at hdata
    simp at hdata
  · intro p hp hlinked
    rw [hone p hp, h.linked] at hlinked
    simp at hlinked

section

variable {genesis : CBlock} {A : Addresses}

/-- What the entry of the genesis block records when it is linked with the proof hash `g`. -/
theorem genesis_stakeView (hgenesis : IsGenesis N genesis) {env : Env}
    {s₁ : NodeState} (hadd : addToBlockIndex N (NodeState.empty A) genesis.toCBlockHeader = (p, s₁))
    (hrun : receivedBlockTransactions N env g s₁ genesis p = (.ok (), s')) :
    s'.blockFile 0 = some genesis ∧
      (s'.entry 0).stakeView = stakeViewOf N.C g (s'.mapBlockIndex.getBlockHeader 0) genesis (0, true) := by
  obtain ⟨rfl, rfl, hlink⟩ := genesis_linked hadd hrun
  have hby := (linkEntry_ok hlink).1
  obtain ⟨s₂, m, f, hrecord, hmodifier, hself, -⟩ := linkEntry_entry hlink
  have hst := recordProofHash_staked hrecord
  have hpar : s₂.par 0 = none := by
    have hshape := (hst.entry 0).shape.trans ((link_sameShape.shape 0).trans (receiveData_sameShape.shape 0))
    exact (congrArg EntryShape.pprev hshape).trans rfl
  rw [hpar] at hmodifier
  cases hmodifier
  have hheader : s'.mapBlockIndex.getBlockHeader 0 = genesis.toCBlockHeader := by
    rw [hby.shape.getBlockHeader, receiveData_sameShape.getBlockHeader]
    show CBlockHeader.mk genesis.nVersion 0 genesis.hashMerkleRoot genesis.nTime genesis.nBits
      genesis.nNonce = genesis.toCBlockHeader
    rw [← hgenesis.prev]
  refine ⟨?_, ?_⟩
  · rw [hby.blockFile]
    rfl
  · rw [hself, link_entry_self, receiveData_entry_self, hheader]
    have hshape := receivedEntry_shape N (N.env (withGenesis N A genesis)).findBlockPos genesis
      ((withGenesis N A genesis).entry 0)
    have hhash := congrArg EntryShape.hash hshape
    have htime := congrArg EntryShape.nTime hshape
    simp only [CBlockIndex.shape] at hhash htime
    have hentropy : ((withGenesis N A genesis).entry 0).fStakeEntropy = false := rfl
    simp only [CBlockIndex.stakeView, CBlockIndex.setStakeModifier, CBlockIndex.setHashProof, stakeViewOf,
      receivedEntry_fProofOfStake, receivedEntry_fStakeEntropy, receivedEntry_fStakeModifier, hhash, htime,
      hentropy, Bool.false_or, Bool.or_true]
    rfl

theorem initBlockIndex_stakeInv {turns : Nat}
    (hgenesis : IsGenesis N genesis) (hrun : initBlockIndex N genesis A turns = some (.ok (), s))
    (hactive : s.tip ≠ none) : StakeInv N N.P.hashGenesisBlock s := by
  have hfresh := initBlockIndex_fresh hgenesis hrun hactive
  obtain ⟨p, s₁, s₂, s₃, hadd, hreceived, hactivate, rfl⟩ := initBlockIndex_ok hrun
  obtain ⟨hstart, hchain⟩ := starting_of_received hgenesis hadd hreceived
  obtain ⟨-, -, -, hmap, hfile⟩ := hstart.activateBestChain_ok hchain hgenesis.hash hactivate hactive
  obtain ⟨hblock, hview⟩ := genesis_stakeView hgenesis hadd hreceived
  have hentry : s₃.writeBlockIndex.entry 0 = s₂.entry 0 := congrArg (fun m : BlockMap => m.entry 0) hmap
  have hheader : s₃.writeBlockIndex.mapBlockIndex.getBlockHeader 0 = s₂.mapBlockIndex.getBlockHeader 0 :=
    congrArg (fun m : BlockMap => m.getBlockHeader 0) hmap
  refine hfresh.starting.stakeInv ((congrFun hfile 0).trans hblock) ?_
  rw [hentry, hheader]
  exact hview

theorem processNewBlock_stakeInv {turns : Nat} (hgenesis : IsGenesis N genesis)
    (hrun : processNewBlock N turns (NodeState.empty A) genesis = some (.ok (), s))
    (hactive : s.tip ≠ none) : StakeInv N 0 s := by
  have hfresh := processNewBlock_fresh hgenesis hrun hactive
  obtain ⟨p, s₁, s₂, hadd, hreceived, hactivate⟩ := processNewBlock_genesis hrun
  obtain ⟨hstart, hchain⟩ := starting_of_received hgenesis hadd hreceived
  obtain ⟨-, -, -, hmap, hfile⟩ := hstart.activateBestChain_ok hchain hgenesis.hash hactivate hactive
  obtain ⟨hblock, hview⟩ := genesis_stakeView hgenesis hadd hreceived
  have hentry : s.entry 0 = s₂.entry 0 := congrArg (fun m : BlockMap => m.entry 0) hmap
  have hheader : s.mapBlockIndex.getBlockHeader 0 = s₂.mapBlockIndex.getBlockHeader 0 :=
    congrArg (fun m : BlockMap => m.getBlockHeader 0) hmap
  refine hfresh.starting.stakeInv ((congrFun hfile 0).trans hblock) ?_
  rw [hentry, hheader]
  exact hview

end

/-! ## The calls -/

theorem receivedBlockTransactions_stake (hs : IndexInv N s) (h : StakeInv N g s) {env : Env} {block : CBlock}
    (hp : p < s.size) (hempty : s.haveData p = false) (hvalid : s.failed p = false) (htxs : block.vtx ≠ [])
    (hhash : block.getHash N.C = (s.entry p).hash)
    (hpasses : (∀ q, s.par p = some q → s.linked q) →
      (verifyHashTarget N (receiveData N s block p) block).isSome ∧
        ∀ q, env.checkStakeModifierCheckpoints q) :
    StakeInv N g (receivedBlockTransactions N env 0 s block p).2 := by
  have hmove : Move N s (receiveData N s block p) := .receive hp hempty hvalid htxs hhash
  have hs' := hmove.inv hs
  have h' : StakeInv N g (receiveData N s block p) := h.receive hs hp hempty block
  rcases receivedBlockTransactions_cases N env 0 s block p with
    ⟨hparent, heq⟩ | ⟨q, -, -, ⟨-, heq⟩ | ⟨-, heq⟩⟩
  · have hlinked : ∀ q, s.par p = some q → s.linked q = true := by
      intro q hq
      have hne := hs.shape.tree.graded.parent_ne hp hq
      exact (receiveData_linked_ne hne).symm.trans (hparent q hq)
    obtain ⟨hverify, hcheck⟩ := hpasses hlinked
    rw [heq]
    refine linkQueue_stake _ hs' h' (QueueInv.start hs hp hempty hlinked) ?_ hcheck
    unfold verifyHashTarget at hverify
    rw [Option.isSome_map] at hverify
    exact hverify
  · rw [heq]
    exact h'.of_kept hs' (.of_map rfl rfl)
  · rw [heq]
    exact h'

theorem acceptBlock_stake (hs : IndexInv N s) (h : StakeInv N g s) {block : CBlock}
    (hpasses : Passes N s block) : StakeInv N g (acceptBlock N s block).2 := by
  have hheader := acceptBlockHeader_stake hs h block.toCBlockHeader
  rcases acceptBlock_cases N s block with ⟨stop, heq, -⟩ | ⟨p, s₁, heq, ⟨-, hdata⟩ | ⟨hdata, hstate, -⟩⟩
  · rw [heq] at hheader
    exact hheader
  · rw [heq] at hheader
    rw [hdata]
    exact hheader
  · obtain ⟨hs₁, hp, hvalid, hhash⟩ := acceptBlockHeader_ok hs heq
    rw [heq] at hheader
    have hmark : StakeKept s₁ (s₁.failValid p) := .modify s₁ p (fun _ => rfl) (fun _ => rfl) (fun _ => rfl) fun _ => rfl
    rw [hstate]
    rcases acceptBlockData_cases N s₁ block p with ⟨stop, hr⟩ | ⟨stop, hr⟩ | ⟨stop, hr⟩ | ⟨hcheck, hr⟩
    · rw [hr]
      exact hheader
    · rw [hr]
      have hquiet : StakeKept s₁ (s₁.noteQuiet .nonFinal p CBlockIndex.failValid) := .of_map rfl rfl
      exact hheader.of_kept hs₁ (hquiet.trans (.modify _ p (fun _ => rfl) (fun _ => rfl) (fun _ => rfl) fun _ => rfl))
    · rw [hr]
      exact hheader.of_kept hs₁ (hmark.trans (.of_map rfl rfl))
    · rw [hr]
      obtain ⟨cb, rest, hvtx, -⟩ := (checkBlock_ok hcheck.check).1.coinbase
      exact receivedBlockTransactions_stake hs₁ hheader hp hdata hvalid (by simp [hvtx]) hhash.symm
        (hpasses p s₁ heq hdata hcheck)

/-- A record that is written now, or that holds the stake already, holds the stake. -/
theorem NodeState.StakesOnDisk.record (h : s.StakesOnDisk) (hp : p < s.size) {r : CDiskBlockIndex}
    (hr : s.writeBlockIndex.blockTree p = some r) : r.index.stakeView = (s.entry p).stakeView := by
  by_cases hmem : p ∈ s.setDirtyBlockIndex
  · cases (if_pos hmem).symm.trans hr
    rfl
  · exact (h p hp).resolve_left hmem r ((if_neg hmem).symm.trans hr)

theorem Restarted.stakeKept (h : Restarted N s s') (hs : IndexInv N s) (hdisk : s.StakesOnDisk)
    (hnone : s.NoneLeft) : StakeKept s s' := by
  have hg := hs.shape.tree.graded
  have hview : ∀ p < s.size, (s'.entry p).stakeView = (s.entry p).stakeView := by
    intro p hp
    obtain ⟨r, hr, hstored⟩ := h.entry p hp
    have hrecord := hdisk.record hp hr.record
    have hloaded : (s'.entry p).stakeView = { r.index.stakeView with hash := (s'.entry p).hash } := by
      have hhash : (s'.entry p).hash = r.getBlockHash N.C := congrArg CBlockIndex.hash hstored
      rw [hhash]
      exact (congrArg CBlockIndex.stakeView hstored :)
    rw [hloaded, hrecord, h.hash p hp]
    rfl
  have hdata : ∀ p < s.size, s'.haveData p = s.haveData p := by
    intro p hp
    obtain ⟨r, hr, hstored⟩ := h.entry p hp
    exact (congrArg (fun e : CBlockIndex => e.nStatus.haveData) hstored).trans hr.haveData
  have hht : ∀ p < s.size, s'.ht p = s.ht p := by
    intro p hp
    obtain ⟨r, hr, hstored⟩ := h.entry p hp
    have hheight := congrArg EntryShape.nHeight hr.shape
    exact (congrArg CBlockIndex.nHeight hstored).trans hheight
  -- By induction on the height: an entry is linked again when its parent is and its data is there.
  have hlinked : ∀ n, ∀ p < s.size, s.ht p = n → s'.linked p = s.linked p := by
    intro n
    induction n using Nat.strong_induction_on with
    | _ n ih =>
      intro p hp hn
      rw [Bool.eq_iff_iff]
      refine ⟨fun hl => ?_, h.linked p hp⟩
      obtain ⟨hd, hparent⟩ := (h.linked_iff p hp).mp hl
      refine hnone p hp ((hdata p hp).symm.trans hd) fun q hq => ?_
      have hheight : s.ht p = s.ht q + 1 := hg.height hp hq
      rw [← ih (s.ht q) (by omega) q (hg.closed hp hq) rfl]
      exact hparent q ((h.par p hp).trans hq)
  exact ⟨h.size, h.par, hht, h.header, hview, fun p hp => hlinked _ p hp rfl, hdata, h.blockFile⟩

theorem run_stake {op : Op} (hs : IndexInv N s) (h : StakeInv N g s) (hsteady : op.Steady N s) {r : Check Unit}
    (hrun : op.run N s = some (r, s')) : StakeInv N g s' := by
  cases op with
  | acceptBlockHeader block =>
    cases hrun
    exact acceptBlockHeader_stake hs h block
  | acceptBlock block =>
    cases hrun
    exact acceptBlock_stake hs h hsteady
  | activateBestChain pblock turns =>
    exact h.of_kept hs (activateBestChain_moves hs hrun).userMoves.stakeKept
  | processNewBlock turns block =>
    have haccepted := acceptBlock_stake hs h hsteady
    have hmoves := acceptBlock_moves hs block
    rcases processNewBlock_cases hrun with rfl | ⟨stop, haccept⟩ | ⟨p, s₁, haccept, hactivate⟩
    · exact h
    · rw [haccept] at haccepted
      exact haccepted
    · rw [haccept] at hmoves haccepted
      have hs₁ := hmoves.inv hs
      exact haccepted.of_kept hs₁ (activateBestChain_moves hs₁ hactivate).userMoves.stakeKept
  | invalidateBlock p =>
    simp only [Op.run] at hrun
    split_ifs at hrun with hp
    have hmoves := invalidateBlock_moves hs hp
    rw [Option.some.inj hrun] at hmoves
    exact h.of_kept hs hmoves.stakeKept
  | reconsiderBlock p =>
    simp only [Op.run] at hrun
    split_ifs at hrun with hp
    cases hrun
    exact h.of_kept hs (reconsiderBlock_moves hs hp).stakeKept
  | restart A =>
    obtain ⟨-, hzero, hrun⟩ := run_restart hrun
    have hrestarted := restart_restarted hs hzero hrun
    exact h.of_kept hs (hrestarted.stakeKept hs hsteady.1 hsteady.2)

/-- In every state of a steady run the entries record what their blocks say. -/
theorem SteadyRun.stakeInv (h : SteadyRun N how s) : StakeInv N (how.hashProof N) s := by
  induction h with
  | init isGenesis run active => exact initBlockIndex_stakeInv isGenesis run active
  | reindex isGenesis run active => exact processNewBlock_stakeInv isGenesis run active
  | step op before steady step ih =>
    obtain ⟨r, s₁, hrun, -, rfl⟩ := step
    have hs := before.reachable.inv
    exact (run_stake hs ih steady hrun).of_kept (run_inv hs hrun) (.of_map rfl rfl)

end

/-! ## Two nodes -/

section

variable {N N' : Node} {how : GenesisBy} {s s' : NodeState} {p p' : Ptr}

/-- Two nodes on which the genesis block came into the index in the same way, and whose runs are steady,
agree on the stake modifiers of linked entries with the same blocks down to the genesis block. -/
theorem stakeModifier_agree (hC : N'.C = N.C) (hgenesis : N'.P.hashGenesisBlock = N.P.hashGenesisBlock)
    (h : SteadyRun N how s) (h' : SteadyRun N' how s') (hp : p < s.size) (hp' : p' < s'.size)
    (hlinked : s.linked p = true) (hlinked' : s'.linked p' = true) (hbranch : s'.branch p' = s.branch p) :
    (s'.entry p').nStakeModifier = (s.entry p).nStakeModifier ∧
      (s'.entry p').fStakeModifier = (s.entry p).fStakeModifier := by
  have hviewed := h.stakeInv.viewed p hp hlinked
  have hviewed' := h'.stakeInv.viewed p' hp' hlinked'
  have hproof : how.hashProof N' = how.hashProof N := by
    cases how with
    | initBlockIndex => exact hgenesis
    | acceptBlock => rfl
  unfold Viewed at hviewed hviewed'
  rw [hC, hproof, hbranch, hviewed] at hviewed'
  have hhead := congrArg List.head? (Option.some.inj hviewed')
  rw [List.head?_map, List.head?_map, h.reachable.inv.head?_ancestors hp,
    h'.reachable.inv.head?_ancestors hp'] at hhead
  have hview : (s'.entry p').stakeView = (s.entry p).stakeView := (Option.some.inj hhead).symm
  exact ⟨(congrArg CBlockIndex.nStakeModifier hview :), (congrArg CBlockIndex.fStakeModifier hview :)⟩

end

namespace Example

def lateGenesis : CBlock :=
  nodeBlock 0 600 0

def firstBlock : CBlock :=
  nodeBlock 7000 610 1

def secondBlock : CBlock :=
  nodeBlock 7001 28080 2

def thirdBlock : CBlock :=
  nodeBlock 7002 28090 3

/-- The node hears of the blocks one by one. -/
def inOrder (start : NodeState) : NodeState :=
  let s := after stakeNode start (.processNewBlock 3 firstBlock)
  let s := after stakeNode s (.processNewBlock 3 secondBlock)
  after stakeNode s (.processNewBlock 3 thirdBlock)

/-- The first block comes after the second. -/
def outOfOrder (start : NodeState) : NodeState :=
  let s := after stakeNode start (.acceptBlockHeader firstBlock.toCBlockHeader)
  let s := after stakeNode s (.acceptBlock secondBlock)
  let s := after stakeNode s (.acceptBlock firstBlock)
  after stakeNode s (.acceptBlock thirdBlock)

def initialised : NodeState :=
  left (initBlockIndex stakeNode lateGenesis addresses 2)

def reindexed : NodeState :=
  left (processNewBlock stakeNode 3 (NodeState.empty addresses) lateGenesis)

theorem passes_of_proofOfWork {s : NodeState} {block : CBlock} (h : block.isProofOfStake = false) :
    Passes stakeNode s block := by
  intro p s₁ _ _ _ _
  refine ⟨?_, fun _ => rfl⟩
  unfold verifyHashTarget computeProofHash
  simp only [h, Bool.false_eq_true, if_false]
  split_ifs <;> rfl

theorem steady_initialised : SteadyRun stakeNode .initBlockIndex initialised :=
  .init ⟨by decide, by decide, by decide⟩ (eq_some_left (by decide)) (by decide)

theorem steady_reindexed : SteadyRun stakeNode .acceptBlock reindexed :=
  .reindex ⟨by decide, by decide, by decide⟩ (eq_some_left (by decide)) (by decide)

theorem steady_inOrder {how : GenesisBy} {start : NodeState} (h : SteadyRun stakeNode how start)
    (hfirst : returned ((Op.processNewBlock 3 firstBlock).run stakeNode start))
    (hsecond : returned ((Op.processNewBlock 3 secondBlock).run stakeNode
      (after stakeNode start (.processNewBlock 3 firstBlock))))
    (hthird : returned ((Op.processNewBlock 3 thirdBlock).run stakeNode
      (after stakeNode (after stakeNode start (.processNewBlock 3 firstBlock))
        (.processNewBlock 3 secondBlock)))) : SteadyRun stakeNode how (inOrder start) := by
  have h₁ := SteadyRun.step (.processNewBlock 3 firstBlock) h (passes_of_proofOfWork (by decide))
    (step_after hfirst)
  have h₂ := SteadyRun.step (.processNewBlock 3 secondBlock) h₁ (passes_of_proofOfWork (by decide))
    (step_after hsecond)
  exact .step (.processNewBlock 3 thirdBlock) h₂ (passes_of_proofOfWork (by decide)) (step_after hthird)

theorem steady_outOfOrder : SteadyRun stakeNode .initBlockIndex (outOfOrder initialised) := by
  have h₁ := SteadyRun.step (.acceptBlockHeader firstBlock.toCBlockHeader) steady_initialised trivial
    (step_after (by decide))
  have h₂ := SteadyRun.step (.acceptBlock secondBlock) h₁ (passes_of_proofOfWork (by decide))
    (step_after (by decide))
  have h₃ := SteadyRun.step (.acceptBlock firstBlock) h₂ (passes_of_proofOfWork (by decide))
    (step_after (by decide))
  exact .step (.acceptBlock thirdBlock) h₃ (passes_of_proofOfWork (by decide)) (step_after (by decide))

end Example

open Example

/-- The order in which the blocks arrive makes no difference. -/
theorem stakeModifier_agree_example :
    ((outOfOrder initialised).entry 3).nStakeModifier = ((inOrder initialised).entry 3).nStakeModifier ∧
      ((outOfOrder initialised).entry 3).fStakeModifier = ((inOrder initialised).entry 3).fStakeModifier :=
  stakeModifier_agree rfl rfl
    (steady_inOrder steady_initialised (by decide) (by decide) (by decide))
    steady_outOfOrder (by decide) (by decide) (by decide) (by decide) (by decide +kernel)

/-- Two nodes with the same blocks, one of which got its genesis block from `InitBlockIndex` and the other
from a reindex, have different stake modifiers. -/
theorem stakeModifier_depends_on_start :
    Reachable stakeNode (inOrder initialised) ∧
    Reachable stakeNode (inOrder reindexed) ∧
    (inOrder initialised).linked 3 = true ∧
    (inOrder reindexed).linked 3 = true ∧
    (inOrder reindexed).branch 3 = (inOrder initialised).branch 3 ∧
    ((inOrder initialised).entry 3).nStakeModifier = 1 ∧
    ((inOrder reindexed).entry 3).nStakeModifier = 2 := by
  have hinit := steady_inOrder steady_initialised (by decide) (by decide) (by decide)
  have hreindex := steady_inOrder steady_reindexed (by decide) (by decide) (by decide)
  exact ⟨hinit.reachable, hreindex.reachable, by decide, by decide, by decide +kernel, by decide +kernel,
    by decide +kernel⟩

end Reddcoin
