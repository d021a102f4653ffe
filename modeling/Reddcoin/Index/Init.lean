import Reddcoin.Index.Restart

/-!
# The invariant of every run

`InitBlockIndex` leaves the genesis block alone in the index, and every call keeps the invariant.
-/

namespace Reddcoin

open Forest (Anc Graded)

section

variable {N : Node} {s : NodeState} {s' : NodeState} {r : Check Unit} {genesis : CBlock}

/-! ## The genesis block -/

/-- The genesis block is stored and linked. -/
structure Starting (N : Node) (s : NodeState) : Prop where
  size : s.size = 1
  par : s.par 0 = none
  ht : s.ht 0 = 0
  header : N.C.headerHash (s.mapBlockIndex.getBlockHeader 0) = (s.entry 0).hash
  hash : (s.entry 0).hash = N.P.hashGenesisBlock
  work : (s.entry 0).nChainWork = getBlockProof (s.entry 0).nBits
  nTx : 0 < (s.entry 0).nTx
  valid : (s.entry 0).nStatus.valid = BLOCK_VALID_TRANSACTIONS
  haveData : s.haveData 0 = true
  haveUndo : (s.entry 0).nStatus.haveUndo = false
  failed : s.failed 0 = false
  linked : s.linked 0 = true
  candidates : ∀ p, p ∈ s.setBlockIndexCandidates ↔ p = 0
  unlinked : s.mapBlocksUnlinked = []
  stored : 0 ∈ s.setDirtyBlockIndex ∨ s.blockTree 0 = some { index := s.entry 0, hashPrev := 0 }
  reversedVerdicts : s.reversedVerdicts = []
  written : (s.entry 0).Written

theorem Starting.getBlockHeader_prev (h : Starting N s) :
    (s.mapBlockIndex.getBlockHeader 0).hashPrevBlock = 0 := by
  simp only [BlockMap.getBlockHeader]
  rw [show (s.mapBlockIndex.entry 0).pprev = none from h.par]

/-- What only touches other parts of the state. -/
theorem Starting.of_map (h : Starting N s) (hmap : s'.mapBlockIndex = s.mapBlockIndex)
    (hcand : ∀ p, p ∈ s'.setBlockIndexCandidates ↔ p ∈ s.setBlockIndexCandidates)
    (hunlinked : s'.mapBlocksUnlinked = s.mapBlocksUnlinked)
    (hstored : 0 ∈ s'.setDirtyBlockIndex ∨ s'.blockTree 0 = some { index := s.entry 0, hashPrev := 0 })
    (hverdicts : s'.reversedVerdicts = s.reversedVerdicts) : Starting N s' := by
  have he : ∀ p, s'.entry p = s.entry p := fun p => by simp only [NodeState.entry, hmap]
  refine ⟨?_, ?_, ?_, ?_, ?_, ?_, ?_, ?_, ?_, ?_, ?_, ?_, ?_, hunlinked.trans h.unlinked, ?_,
    hverdicts.trans h.reversedVerdicts, ?_⟩
  · simpa only [NodeState.size, hmap] using h.size
  · simpa only [NodeState.par, hmap] using h.par
  · simpa only [NodeState.ht, hmap] using h.ht
  · rw [hmap, he]
    exact h.header
  · rw [he]
    exact h.hash
  · rw [he]
    exact h.work
  · rw [he]
    exact h.nTx
  · rw [he]
    exact h.valid
  · exact (congrArg (fun e => e.nStatus.haveData) (he 0)).trans h.haveData
  · rw [he]
    exact h.haveUndo
  · exact (congrArg CBlockIndex.failed (he 0)).trans h.failed
  · exact (congrArg CBlockIndex.linked (he 0)).trans h.linked
  · exact fun p => (hcand p).trans (h.candidates p)
  · rw [he]
    exact hstored
  · rw [he]
    exact h.written

/-- The index with the header of the genesis block alone. -/
def withGenesis (N : Node) (A : Addresses) (genesis : CBlock) : NodeState :=
  (NodeState.empty A).addEntry (newEntry (NodeState.empty A) genesis.toCBlockHeader
    (N.C.headerHash genesis.toCBlockHeader) none)

/-- The genesis block is added and linked at once. -/
theorem genesis_linked {A : Addresses} {env : Env} {hashProof : Uint256} {p : Ptr}
    {s₁ s' : NodeState} (hadd : addToBlockIndex N (NodeState.empty A) genesis.toCBlockHeader = (p, s₁))
    (hrun : receivedBlockTransactions N env hashProof s₁ genesis p = (.ok (), s')) :
    p = 0 ∧ s₁ = withGenesis N A genesis ∧
      linkEntry N env hashProof genesis (receiveData N s₁ genesis 0) 0 = (.ok [], s') := by
  obtain ⟨rfl, rfl⟩ := Prod.mk.inj (show (0, withGenesis N A genesis) = (p, s₁) from hadd)
  refine ⟨rfl, rfl, ?_⟩
  rcases receivedBlockTransactions_cases N env hashProof (withGenesis N A genesis) genesis 0 with
    ⟨-, h⟩ | ⟨q, hq, -⟩
  · have hrun' : linkQueue N env hashProof genesis (0 + 1)
        (receiveData N (withGenesis N A genesis) genesis 0) [0] = (.ok (), s') := h.symm.trans hrun
    rw [linkQueue] at hrun'
    cases hlink : linkEntry N env hashProof genesis
        (receiveData N (withGenesis N A genesis) genesis 0) 0 with
    | mk r s₂ =>
      rw [hlink] at hrun'
      cases r with
      | error stop => simp at hrun'
      | ok waiting =>
        have hwaiting : waiting = [] := (linkEntry_ok hlink).1.waiting
        obtain rfl : s₂ = s' := congrArg Prod.snd hrun'
        rw [hwaiting]
  · have hnone : (none : Option Ptr) = some q := hq
    simp at hnone

theorem starting_of_received {A : Addresses} (hgenesis : IsGenesis N genesis)
    {env : Env} {hashProof : Uint256} {p : Ptr} {s₁ s' : NodeState}
    (hadd : addToBlockIndex N (NodeState.empty A) genesis.toCBlockHeader = (p, s₁))
    (hrun : receivedBlockTransactions N env hashProof s₁ genesis p = (.ok (), s')) :
    Starting N s' ∧ s'.chainActive = [] := by
  obtain ⟨rfl, hs₁, hlink⟩ := genesis_linked hadd hrun
  have hby := (linkEntry_ok hlink).1
  have hentry : s₁.entry 0 = newEntry (NodeState.empty A) genesis.toCBlockHeader
      (N.C.headerHash genesis.toCBlockHeader) none := by
    rw [hs₁]
    rfl
  have hpar : s₁.par 0 = none := by
    show (s₁.entry 0).pprev = none
    rw [hentry]
    rfl
  have hshape : s₁.mapBlockIndex.SameShape s'.mapBlockIndex := receiveData_sameShape.trans hby.shape
  have hstatus : (s'.entry 0).nStatus = (receivedEntry N (N.env s₁).findBlockPos genesis (s₁.entry 0)).nStatus :=
    (hby.nStatus 0).trans (congrArg CBlockIndex.nStatus receiveData_entry_self)
  have htx : (s'.entry 0).nTx = genesis.vtx.length := by
    rw [hby.nTx 0, receiveData_entry_self, receivedEntry_nTx]
  have htx₁ : ((receiveData N s₁ genesis 0).entry 0).nTx = genesis.vtx.length := by
    rw [receiveData_entry_self, receivedEntry_nTx]
  have hpos : 0 < genesis.vtx.length := List.length_pos_iff.mpr hgenesis.txs
  have hfailed : (s₁.entry 0).failed = false := by
    rw [hentry]
    rfl
  have hhash : (s'.entry 0).hash = N.C.headerHash genesis.toCBlockHeader := by
    rw [show (s'.entry 0).hash = (s₁.entry 0).hash from hshape.hash 0, hentry]
    rfl
  have hheader : s'.mapBlockIndex.getBlockHeader 0 = genesis.toCBlockHeader := by
    rw [hshape.getBlockHeader, hs₁]
    show CBlockHeader.mk genesis.nVersion 0 genesis.hashMerkleRoot genesis.nTime genesis.nBits
      genesis.nNonce = genesis.toCBlockHeader
    rw [← hgenesis.prev]
  refine ⟨⟨?_, ?_, ?_, ?_, ?_, ?_, ?_, ?_, ?_, ?_, ?_, ?_, ?_, ?_, ?_, ?_, ?_⟩, ?_⟩
  · show s'.mapBlockIndex.size = 1
    rw [hshape.size, hs₁]
    rfl
  · exact (congrFun hshape.par 0).trans hpar
  · show s'.mapBlockIndex.ht 0 = 0
    rw [hshape.ht, hs₁]
    rfl
  · rw [hheader, hhash]
  · rw [hhash]
    exact hgenesis.hash
  · rw [show (s'.entry 0).nChainWork = (s₁.entry 0).nChainWork from hshape.nChainWork 0,
      show (s'.entry 0).nBits = (s₁.entry 0).nBits from hshape.nBits 0, hentry]
    exact Nat.zero_add _
  · omega
  · rw [hstatus, receivedEntry_valid N _ genesis _ hfailed, hentry]
    rfl
  · show (s'.entry 0).nStatus.haveData = true
    rw [hstatus, receivedEntry_haveData]
  · rw [hstatus, receivedEntry_haveUndo, hentry]
    rfl
  · show (s'.entry 0).nStatus.failed = false
    rw [hstatus]
    exact (receivedEntry_failed N _ genesis _).trans hfailed
  · exact hby.linked_self (by omega)
  · intro q
    rw [hby.candidates]
    have hnone : (receiveData N s₁ genesis 0).setBlockIndexCandidates = [] := by
      rw [hs₁]
      rfl
    have htip : (receiveData N s₁ genesis 0).tip = none := by
      rw [hs₁]
      rfl
    rw [hnone, htip]
    simp
  · rw [hby.unlinked, hs₁]
    rfl
  · left
    rw [hby.dirty]
    exact List.mem_cons_self
  · rw [hby.reversedVerdicts, hs₁]
    rfl
  · have hnew : (s₁.entry 0).Written := by
      rw [hentry]
      exact ⟨fun _ _ => rfl, fun _ => rfl, fun _ => rfl, fun _ => rfl, fun _ => rfl⟩
    have hwritten : ((receiveData N s₁ genesis 0).entry 0).Written := by
      rw [receiveData_entry_self]
      exact receivedEntry_written _ genesis hnew
    exact hwritten.of_received (hby.received 0)
  · rw [hby.chainActive, hs₁]
    rfl
/-- `FindMostWorkChain` finds the genesis block. -/
theorem Starting.findMostWorkChain_eq (h : Starting N s) (hchain : s.chainActive = []) :
    findMostWorkChain s = (.ok (some 0), s) := by
  have hbest : bestCandidate s.addresses s.mapBlockIndex s.setBlockIndexCandidates = some 0 := by
    cases hb : bestCandidate s.addresses s.mapBlockIndex s.setBlockIndexCandidates with
    | none =>
      have hmem := (h.candidates 0).mpr rfl
      rw [bestCandidate_eq_none.mp hb] at hmem
      simp at hmem
    | some p => rw [(h.candidates p).mp (bestCandidate_eq_some hb).1]
  have hfailed : findFailed s (s.ht 0 + 1) (some 0) = .ok none := by
    have hdata : (s.entry 0).nStatus.haveData = true := h.haveData
    have hlinked : (s.entry 0).linked = true := h.linked
    have hvalid : (s.entry 0).failed = false := h.failed
    have hcontains : s.chainActive.contains s.mapBlockIndex 0 = false := by
      rw [hchain]
      rfl
    rw [findFailed, hcontains, hdata, hlinked, hvalid, h.ht, h.par]
    rfl
  unfold findMostWorkChain
  rw [findMostWorkLoop, hbest]
  simp only [hfailed]

/-- The step to the genesis block connects that one block. -/
theorem Starting.activateBestChainStep_eq (h : Starting N s) (hchain : s.chainActive = [])
    (pblock : Option CBlock) :
    activateBestChainStep N s 0 pblock = (connectBatch N 0 pblock none 0 [0] s).andThen fun fContinue s =>
      if fContinue then connectLoop N 0 pblock none 1 s 0 else (.ok (), s) := by
  have htip : s.tip = none := by
    unfold NodeState.tip
    rw [hchain]
    rfl
  have hfork : s.chainActive.findFork s.mapBlockIndex 0 = none := by
    rw [hchain]
    unfold CChain.findFork
    rw [if_pos (show ([] : CChain).length ≤ s.mapBlockIndex.ht 0 from Nat.zero_le _)]
    rfl
  have hht : s.mapBlockIndex.ht 0 = 0 := h.ht
  have hpar : s.par 0 = none := h.par
  have hanc : s.mapBlockIndex.getAncestor 0 0 = some 0 := by
    unfold BlockMap.getAncestor
    rw [hht]
    rfl
  have hbatch : nextBatch s 0 (-1) 0 = [0] := by
    unfold nextBatch
    rw [show ((0 : Int).toNat) = 0 from rfl, hanc, toConnect, if_neg (by rw [h.ht]; decide), hpar]
    rfl
  unfold activateBestChainStep
  simp only [hfork, htip]
  rw [hchain]
  show (connectLoop N 0 pblock none (s.ht 0 + 2) s (-1)) = _
  rw [h.ht]
  show connectLoop N 0 pblock none (1 + 1) s (-1) = _
  rw [connectLoop, h.ht]
  simp only
  rw [if_neg (by decide)]
  show (connectBatch N 0 pblock none ((nextBatch s 0 (-1) 0).headD 0) (nextBatch s 0 (-1) 0) s).andThen _ = _
  rw [hbatch]
  rfl

/-- The genesis block is connected, or found invalid, and no other block is. -/
theorem Starting.connectBatch_cases (h : Starting N s) (hchain : s.chainActive = [])
    (hgenesis : genesis.getHash N.C = N.P.hashGenesisBlock) {r : Check Bool}
    (hrun : connectBatch N 0 (some genesis) none 0 [0] s = (r, s')) (hr : ∀ stop, r ≠ .error stop) :
    (r = .ok false ∧ Starting N s' ∧ s'.chainActive = [some 0] ∧ s'.pcoinsTip.BestIs (s'.entry 0).hash ∧
      s'.mapBlockIndex = s.mapBlockIndex ∧ s'.blockFile = s.blockFile) ∨
    (r = .ok false ∧ s'.chainActive = [] ∧
      ((Starting N s' ∧ s'.mapBlockIndex = s.mapBlockIndex ∧ s'.blockFile = s.blockFile) ∨
        s'.setBlockIndexCandidates = [])) := by
  have htip : s.tip = none := by
    unfold NodeState.tip
    rw [hchain]
    rfl
  have hht : s.mapBlockIndex.ht 0 = 0 := h.ht
  have hpar : s.mapBlockIndex.par 0 = none := h.par
  rw [connectBatch] at hrun
  simp only [if_true] at hrun
  unfold connectTip at hrun
  rw [if_neg (by rw [h.par, htip]; simp)] at hrun
  simp only at hrun
  unfold connectTipBlock at hrun
  cases hconn : connectBlock N.P N.C (connectContext N s 0) genesis s.pcoinsTip false with
  | error stop =>
    rw [hconn] at hrun
    cases stop with
    | crashes =>
      simp only at hrun
      exact absurd (congrArg Prod.fst hrun).symm (hr _)
    | returns st =>
      simp only at hrun
      split_ifs at hrun with hinvalid hcorrupt
      · cases hrun
        refine .inr ⟨rfl, ?_, .inl ?_⟩
        · unfold NodeState.invalidBlockFound
          rw [if_pos hcorrupt]
          exact hchain
        · unfold NodeState.invalidBlockFound
          rw [if_pos hcorrupt]
          exact ⟨h, rfl, rfl⟩
      · cases hrun
        unfold NodeState.invalidBlockFound
        rw [if_neg hcorrupt]
        refine .inr ⟨rfl, hchain, .inr ?_⟩
        show s.setBlockIndexCandidates.filter (fun q => decide (q ≠ 0)) = []
        refine List.filter_eq_nil_iff.mpr fun q hq => ?_
        rw [(h.candidates q).mp hq]
        simp
      · exact absurd (congrArg Prod.fst hrun).symm (hr _)
  | ok result =>
    rw [hconn] at hrun
    have hview : result.view = s.pcoinsTip.setBestBlock (s.entry 0).hash := by
      unfold connectBlock at hconn
      rw [check_bind_ok] at hconn
      obtain ⟨-, -, hconn⟩ := hconn
      rw [check_bind_ok] at hconn
      obtain ⟨-, -, hconn⟩ := hconn
      rw [if_pos hgenesis] at hconn
      cases hconn
      rfl
    simp only [recordConnected, if_pos hgenesis, Call.andThen] at hrun
    left
    generalize hneed : (N.env { s with pcoinsTip := result.view.flush }).needsFlush = needed at hrun
    have hset : CChain.setTip s.mapBlockIndex s.chainActive (some 0) = [some 0] := by
      rw [hchain]
      show CChain.setTipLoop s.mapBlockIndex (s.mapBlockIndex.ht 0 + 1)
        (CChain.resize [] (s.mapBlockIndex.ht 0 + 1)) (some 0) = [some 0]
      rw [hht, CChain.setTipLoop, hht, hpar]
      rfl
    have hconnected : Starting N
        (((({ s with pcoinsTip := result.view.flush } : NodeState).flushStateToDisk needed).updateTip
          (some 0)).tick.dropWorse 0) := by
      refine h.of_map rfl (fun p => ?_) rfl ?_ rfl
      · show p ∈ s.setBlockIndexCandidates.filter (fun q => !s.worse q 0) ↔ _
        rw [List.mem_filter]
        refine ⟨fun hp => hp.1, fun hp => ⟨hp, ?_⟩⟩
        rw [(h.candidates p).mp hp]
        exact congrArg not (worse_irrefl 0)
      · cases needed with
        | false => exact h.stored
        | true =>
          right
          show (if 0 ∈ s.setDirtyBlockIndex then _ else s.blockTree 0) = _
          split_ifs with hmem
          · rw [h.getBlockHeader_prev]
            rfl
          · rcases h.stored with hdirty | hdisk
            · exact absurd hdirty hmem
            · exact hdisk
    have htip' : (((({ s with pcoinsTip := result.view.flush } : NodeState).flushStateToDisk
        needed).updateTip (some 0)).tick).tip = some 0 := by
      show (CChain.setTip s.mapBlockIndex s.chainActive (some 0)).tip = some 0
      rw [hset]
      rfl
    unfold pruneBlockIndexCandidates at hrun
    rw [htip'] at hrun
    simp only at hrun
    rw [if_neg (by
      rw [List.isEmpty_iff]
      intro hnil
      have hmem := (hconnected.candidates 0).mpr rfl
      rw [hnil] at hmem
      simp at hmem)] at hrun
    simp only [improved, if_true] at hrun
    cases hrun
    refine ⟨rfl, hconnected, hset, ?_, rfl, rfl⟩
    show result.view.flush.BestIs (s.entry 0).hash
    rw [hview]
    exact flush_bestIs (setBestBlock_bestIs _ _)

/-- When the genesis block is active, it is all there is. -/
theorem Starting.activateBestChain_ok {turns : Nat} (h : Starting N s)
    (hchain : s.chainActive = []) (hgenesis : genesis.getHash N.C = N.P.hashGenesisBlock)
    (hrun : activateBestChain N (some genesis) turns s = some (.ok (), s'))
    (hactive : s'.tip ≠ none) :
    Starting N s' ∧ s'.chainActive = [some 0] ∧ s'.pcoinsTip.BestIs (s'.entry 0).hash ∧
      s'.mapBlockIndex = s.mapBlockIndex ∧ s'.blockFile = s.blockFile := by
  induction turns generalizing s with
  | zero => simp [activateBestChain] at hrun
  | succ turns ih =>
    have htip : s.tip = none := by
      unfold NodeState.tip
      rw [hchain]
      rfl
    have hblock : blockOf N s (some genesis) 0 = some genesis := by
      unfold blockOf
      rw [Option.filter_some, if_pos]
      rw [h.hash]
      exact decide_eq_true hgenesis
    rw [activateBestChain, h.findMostWorkChain_eq hchain] at hrun
    simp only [htip, hblock, reduceCtorEq, if_false] at hrun
    rw [h.activateBestChainStep_eq hchain] at hrun
    cases hbatch : connectBatch N 0 (some genesis) none 0 [0] s with
    | mk r s₁ =>
      rw [hbatch] at hrun
      cases r with
      | error stop => simp [Call.andThen] at hrun
      | ok fContinue =>
        rcases h.connectBatch_cases hchain hgenesis hbatch (by simp) with
          ⟨hfalse, hstart, hone, hbest, hmap, hfile⟩ | ⟨hfalse, hnil, hrest⟩
        · cases hfalse
          have htip₁ : s₁.tip = some 0 := by
            unfold NodeState.tip
            rw [hone]
            rfl
          simp only [Call.andThen, Bool.false_eq_true, if_false, htip₁, if_true,
            Option.some.injEq, Prod.mk.injEq, true_and] at hrun
          obtain rfl := hrun
          refine ⟨hstart.of_map rfl (fun p => Iff.rfl) rfl ?_ rfl, hone, hbest, hmap, hfile⟩
          cases (N.env s₁).needsFlush with
          | false => exact hstart.stored
          | true =>
            right
            show (if 0 ∈ s₁.setDirtyBlockIndex then _ else s₁.blockTree 0) = _
            split_ifs with hmem
            · rw [hstart.getBlockHeader_prev]
            · rcases hstart.stored with hdirty | hdisk
              · exact absurd hdirty hmem
              · exact hdisk
        · cases hfalse
          have htip₁ : s₁.tip = none := by
            unfold NodeState.tip
            rw [hnil]
            rfl
          simp only [Call.andThen, Bool.false_eq_true, if_false, htip₁, reduceCtorEq] at hrun
          rcases hrest with ⟨hstart, hmap, hfile⟩ | hcand
          · obtain ⟨hstart', hone, hbest, hmap', hfile'⟩ := ih hstart hnil hrun
            exact ⟨hstart', hone, hbest, hmap'.trans hmap, hfile'.trans hfile⟩
          · -- Without a candidate nothing is activated.
            cases turns with
            | zero => simp [activateBestChain] at hrun
            | succ turns =>
              have hfind : findMostWorkChain s₁ = (.ok none, s₁) := by
                unfold findMostWorkChain
                rw [findMostWorkLoop, hcand]
                rfl
              rw [activateBestChain, hfind] at hrun
              simp only [Option.some.injEq, Prod.mk.injEq, true_and] at hrun
              rw [← hrun] at hactive
              exact absurd htip₁ hactive

/-- A fresh index: the genesis block is active, and nothing else is indexed. -/
structure Fresh (N : Node) (s : NodeState) : Prop where
  starting : Starting N s
  chainActive : s.chainActive = [some 0]
  best : s.pcoinsTip.BestIs (s.entry 0).hash

section

variable {genesis : CBlock} {A : Addresses} {turns : Nat}

/-- `InitBlockIndex` adds, links and activates the genesis block, with its hash for a proof hash. -/
theorem initBlockIndex_ok (hrun : initBlockIndex N genesis A turns = some (.ok (), s)) : ∃ p s₁ s₂ s₃,
    addToBlockIndex N (NodeState.empty A) genesis.toCBlockHeader = (p, s₁) ∧
    receivedBlockTransactions N (N.env s₁) N.P.hashGenesisBlock s₁ genesis p = (.ok (), s₂) ∧
    activateBestChain N (some genesis) turns s₂ = some (.ok (), s₃) ∧ s = s₃.writeBlockIndex := by
  unfold initBlockIndex at hrun
  simp only at hrun
  split_ifs at hrun with hwrite
  · simp at hrun
  cases hadd : addToBlockIndex N (NodeState.empty A) genesis.toCBlockHeader with
  | mk p s₁ =>
  rw [hadd] at hrun
  simp only at hrun
  cases hreceived : receivedBlockTransactions N (N.env s₁) N.P.hashGenesisBlock s₁ genesis p with
  | mk r s₂ =>
  rw [hreceived] at hrun
  cases r with
  | error stop => simp at hrun
  | ok u =>
  simp only [Option.map_eq_some_iff] at hrun
  obtain ⟨⟨r, s₃⟩, hactivate, hrun⟩ := hrun
  cases r with
  | error stop => simp [Call.andThen] at hrun
  | ok u =>
  simp only [Call.andThen, Prod.mk.injEq, true_and] at hrun
  exact ⟨p, s₁, s₂, s₃, rfl, hreceived, hactivate, hrun.symm⟩

theorem initBlockIndex_fresh (hgenesis : IsGenesis N genesis)
    (hrun : initBlockIndex N genesis A turns = some (.ok (), s)) (hactive : s.tip ≠ none) : Fresh N s := by
  obtain ⟨p, s₁, s₂, s₃, hadd, hreceived, hactivate, rfl⟩ := initBlockIndex_ok hrun
  obtain ⟨hstart, hchain⟩ := starting_of_received hgenesis hadd hreceived
  obtain ⟨hstart', hone, hbest, -⟩ := hstart.activateBestChain_ok hchain hgenesis.hash hactivate hactive
  refine ⟨hstart'.of_map rfl (fun p => Iff.rfl) rfl (.inr ?_) rfl, hone, hbest⟩
  show (if 0 ∈ s₃.setDirtyBlockIndex then _ else s₃.blockTree 0) = _
  split_ifs with hmem
  · rw [hstart'.getBlockHeader_prev]
  · rcases hstart'.stored with hdirty | hdisk
    · exact absurd hdirty hmem
    · exact hdisk

/-- During a reindex the genesis block is added, linked and activated without a proof hash. -/
theorem processNewBlock_genesis (hrun : processNewBlock N turns (NodeState.empty A) genesis = some (.ok (), s)) :
    ∃ p s₁ s₂,
    addToBlockIndex N (NodeState.empty A) genesis.toCBlockHeader = (p, s₁) ∧
    receivedBlockTransactions N (N.env s₁) 0 s₁ genesis p = (.ok (), s₂) ∧
    activateBestChain N (some genesis) turns s₂ = some (.ok (), s) := by
  unfold processNewBlock at hrun
  cases hcheck : checkBlock N.P N.C (N.env (NodeState.empty A)).nAdjustedTime genesis true true true with
  | error stop => simp [hcheck] at hrun
  | ok u =>
  rw [hcheck] at hrun
  cases haccept : acceptBlock N (NodeState.empty A) genesis with
  | mk r s₂ =>
  rw [haccept] at hrun
  cases r with
  | error stop => simp at hrun
  | ok p =>
  have hadd : ∀ q s₁, acceptBlockHeader N (NodeState.empty A) genesis.toCBlockHeader = (.ok q, s₁) →
      addToBlockIndex N (NodeState.empty A) genesis.toCBlockHeader = (q, s₁) := by
    intro q s₁ h
    have hfind : (NodeState.empty A).mapBlockIndex.find (N.C.headerHash genesis.toCBlockHeader) = none := rfl
    simp only [acceptBlockHeader, hfind] at h
    cases hcheck : checkNewHeader N (NodeState.empty A) genesis.toCBlockHeader with
    | error stop => simp [hcheck] at h
    | ok u =>
      simp only [hcheck, Prod.mk.injEq, Except.ok.injEq] at h
      exact Prod.ext h.1 h.2
  obtain ⟨s₁, hheader, ⟨hdata, -⟩ | ⟨-, -, hreceived⟩⟩ := acceptBlock_ok haccept
  · obtain ⟨rfl, rfl⟩ := Prod.mk.inj (hadd p s₁ hheader)
    cases show false = true from hdata
  · exact ⟨p, s₁, s₂, hadd p s₁ hheader, hreceived, hrun⟩

theorem processNewBlock_fresh (hgenesis : IsGenesis N genesis)
    (hrun : processNewBlock N turns (NodeState.empty A) genesis = some (.ok (), s)) (hactive : s.tip ≠ none) :
    Fresh N s := by
  obtain ⟨p, s₁, s₂, hadd, hreceived, hactivate⟩ := processNewBlock_genesis hrun
  obtain ⟨hstart, hchain⟩ := starting_of_received hgenesis hadd hreceived
  obtain ⟨hstart', hone, hbest, -⟩ := hstart.activateBestChain_ok hchain hgenesis.hash hactivate hactive
  exact ⟨hstart', hone, hbest⟩

end

theorem Fresh.inv (h : Fresh N s) : IndexInv N s := by
  obtain ⟨hstart, hchain, hbest⟩ := h
  have hzero : ∀ p, p < s.mapBlockIndex.size → p = 0 := by
    intro p hp
    have hsize : s.mapBlockIndex.size = 1 := hstart.size
    omega
  have hroot : s.mapBlockIndex.par 0 = none := hstart.par
  have hpar : ∀ p q, p < s.mapBlockIndex.size → s.mapBlockIndex.par p = some q → False := by
    intro p q hp hq
    rw [hzero p hp, hroot] at hq
    simp at hq
  refine ⟨⟨⟨⟨?_, ?_, ?_⟩, ?_, ?_⟩, ?_, ?_, ?_, ?_, ?_⟩, ⟨?_, ?_, ?_, ?_, ?_, ?_, ?_, ?_, ?_, ?_⟩, ?_⟩
  · intro p q hp hq
    exact (hpar p q hp hq).elim
  · intro p q hp hq
    exact (hpar p q hp hq).elim
  · intro p hp _
    rw [hzero p hp]
    exact hstart.ht
  · intro p hp q hq _ _
    rw [hzero p hp, hzero q hq]
  · intro p hp hne
    rw [hzero p hp] at hne
    exact absurd hstart.par hne
  · intro p hp
    rw [hzero p hp]
    exact hstart.header
  · intro p hp q hq _
    rw [hzero p hp, hzero q hq]
  · intro p hp _
    rw [hzero p hp]
    exact hstart.hash
  · intro p hp
    rw [hzero p hp, hroot]
    exact hstart.work.trans (Nat.zero_add _).symm
  · intro p hp _
    rw [hzero p hp]
    have : s.mapBlockIndex.ht 0 = 0 := hstart.ht
    omega
  · intro p hp
    rw [hzero p hp, hstart.valid]
    decide
  · intro p hp
    rw [hzero p hp, hstart.haveData]
    exact ⟨fun _ => hstart.nTx, fun _ => rfl⟩
  · intro p hp
    rw [hzero p hp, hstart.haveData, hstart.valid]
    exact ⟨fun _ => Nat.le_refl _, fun _ => rfl⟩
  · intro p hp _
    rw [hzero p hp]
    exact hstart.haveData
  · intro p hp _ q hq
    exact (hpar p q hp hq).elim
  · intro p hp
    have hp0 := (hstart.candidates p).mp hp
    rw [hp0, hstart.size]
    exact ⟨Nat.one_pos, hstart.linked⟩
  · intro w hw
    rw [hstart.unlinked] at hw
    simp at hw
  · rw [hstart.unlinked]
    exact List.nodup_nil
  · intro p hp _
    rw [hzero p hp]
    exact hstart.haveUndo
  · refine ⟨0, by rw [hstart.size]; exact Nat.one_pos, ?_, hstart.linked, hbest⟩
    show s.chainActive = (Forest.path s.mapBlockIndex.par (s.mapBlockIndex.ht 0) 0).map some
    rw [hchain, show s.mapBlockIndex.ht 0 = 0 from hstart.ht]
    rfl
  · intro p hp
    rw [hzero p hp]
    rcases hstart.stored with hdirty | hdisk
    · exact .inl hdirty
    · refine .inr ⟨_, hdisk, hstart.getBlockHeader_prev.symm, rfl, rfl, rfl, rfl, rfl, fun _ => rfl, .refl _⟩

/-! ## Every call -/

theorem tick_inv (hs : IndexInv N s) : IndexInv N s.tick :=
  (ChainMove.note s _ _ _ _).inv hs

/-- `AcceptBlock` and then perhaps `ActivateBestChain`. -/
theorem processNewBlock_cases {turns : Nat} {block : CBlock} (hrun : processNewBlock N turns s block = some (r, s')) :
    s' = s ∨ (∃ stop, acceptBlock N s block = (.error stop, s')) ∨
      ∃ p s₁, acceptBlock N s block = (.ok p, s₁) ∧ activateBestChain N (some block) turns s₁ = some (r, s') := by
  unfold processNewBlock at hrun
  cases hcheck : checkBlock N.P N.C (N.env s).nAdjustedTime block true true true with
  | error stop =>
    rw [hcheck] at hrun
    exact .inl (congrArg Prod.snd (Option.some.inj hrun)).symm
  | ok u =>
    rw [hcheck] at hrun
    cases haccept : acceptBlock N s block with
    | mk r₁ s₁ =>
      rw [haccept] at hrun
      cases r₁ with
      | error stop =>
        cases hrun
        exact .inr (.inl ⟨stop, rfl⟩)
      | ok p => exact .inr (.inr ⟨p, s₁, rfl, hrun⟩)

theorem processNewBlock_moves {turns : Nat} {block : CBlock} (hs : IndexInv N s)
    (hrun : processNewBlock N turns s block = some (r, s')) : Moves N s s' := by
  have hmoves := acceptBlock_moves hs block
  rcases processNewBlock_cases hrun with rfl | ⟨stop, haccept⟩ | ⟨p, s₁, haccept, hactivate⟩
  · exact .refl
  · rw [haccept] at hmoves
    exact hmoves
  · rw [haccept] at hmoves
    exact hmoves.trans (activateBestChain_moves (hmoves.inv hs) hactivate).moves

/-- Every call but a restart is a sequence of moves. -/
theorem run_moves {op : Op} (hs : IndexInv N s) (hrun : op.run N s = some (r, s')) (hop : ∀ A, op ≠ .restart A) :
    Moves N s s' := by
  cases op with
  | acceptBlockHeader block =>
    cases hrun
    exact acceptBlockHeader_moves hs block
  | acceptBlock block =>
    cases hrun
    exact acceptBlock_moves hs block
  | activateBestChain pblock turns => exact (activateBestChain_moves hs hrun).moves
  | processNewBlock turns block => exact processNewBlock_moves hs hrun
  | invalidateBlock p =>
    simp only [Op.run] at hrun
    split_ifs at hrun with hp
    have hmoves := invalidateBlock_moves hs hp
    rw [Option.some.inj hrun] at hmoves
    exact hmoves.moves
  | reconsiderBlock p =>
    simp only [Op.run] at hrun
    split_ifs at hrun with hp
    cases hrun
    exact (reconsiderBlock_moves hs hp).moves
  | restart A => exact absurd rfl (hop A)

theorem run_restart {A : Addresses} (hrun : (Op.restart A).run N s = some (r, s')) :
    r = .ok () ∧ s.HashesNonzero ∧ restart N s A = (.ok (), s') := by
  simp only [Op.run] at hrun
  split_ifs at hrun with hzero
  cases h : restart N s A with
  | mk r₁ s₁ =>
    rw [h] at hrun
    cases r₁ with
    | error stop => simp at hrun
    | ok u =>
      cases hrun
      exact ⟨rfl, hzero, rfl⟩

theorem run_inv {op : Op} (hs : IndexInv N s) (hrun : op.run N s = some (r, s')) : IndexInv N s' := by
  by_cases hop : ∃ A, op = .restart A
  · obtain ⟨A, rfl⟩ := hop
    obtain ⟨-, hzero, hrun⟩ := run_restart hrun
    exact (restart_restarted hs hzero hrun).inv
  · exact (run_moves hs hrun fun A h => hop ⟨A, h⟩).inv hs

/-- The invariant holds in every state that a node can get into. -/
theorem Reachable.inv (h : Reachable N s) : IndexInv N s := by
  induction h with
  | init isGenesis run active => exact (initBlockIndex_fresh isGenesis run active).inv
  | reindex isGenesis run active => exact (processNewBlock_fresh isGenesis run active).inv
  | step op _ step ih =>
    obtain ⟨r, s₁, hrun, -, rfl⟩ := step
    exact tick_inv (run_inv ih hrun)

end

/-! ## A worked node

A node whose hash functions are small stand-ins, and its index after the genesis block. -/

namespace Example

def nodeCrypto : Crypto :=
  { crypto with
    headerHash := fun h => 7000 + h.nNonce
    powHash := fun h => h.nNonce - 1 }

def nodeBits : Nat := 0x1e0fffff

def env : Env where
  nAdjustedTime := 1000
  getNextWorkRequired _ _ := nodeBits
  getTransaction _ := none
  getCoinAgeWeight _ _ := 0
  checkStakeModifierCheckpoints _ := true
  canWrite := true
  canWriteTxIndex := true
  canRead := true
  findBlockPos := (0, 8)
  findUndoPos := 8
  needsFlush := false
  fThreads := false
  getCoinAge _ := 0
  inflationAdjustment := id
  posvShare := id

def node : Node where
  P := { params with hashGenesisBlock := 7000 }
  C := nodeCrypto
  world _ := env

/-- A proof-of-work block of a coinbase alone, with the hash `7000 + nNonce`. -/
def nodeBlock (hashPrevBlock : Uint256) (nTime nNonce : Nat) : CBlock :=
  { block 2 [coinbaseTx [keyOut 20]] [] with
    hashPrevBlock := hashPrevBlock, nTime := nTime, nBits := nodeBits, nNonce := nNonce }

def genesisBlock : CBlock :=
  nodeBlock 0 100 0

theorem isGenesis_genesisBlock : IsGenesis node genesisBlock :=
  ⟨by decide, by decide, by decide⟩

def addresses : Addresses :=
  ⟨id, fun _ _ h => h⟩

/-- The state that a call leaves behind. -/
def left (r : Option (Call Unit)) : NodeState :=
  (r.map Prod.snd).getD (NodeState.empty addresses)

theorem eq_some_left {r : Option (Call Unit)} (h : (r.map fun x => x.1.isOk) = some true) :
    r = some (.ok (), left r) := by
  obtain ⟨⟨res, s⟩, rfl, hres⟩ := Option.map_eq_some_iff.mp h
  cases res with
  | error stop => simp [Except.isOk, Except.toBool] at hres
  | ok u => rfl

/-- A call has returned. -/
def returned : Option (Call Unit) → Bool
  | some (.error .crashes, _) => false
  | some _ => true
  | none => false

/-- The state after a call. -/
def after (N : Node) (s : NodeState) (op : Op) : NodeState :=
  (left (op.run N s)).tick

theorem step_after {N : Node} {s : NodeState} {op : Op} (h : returned (op.run N s)) :
    Step N op s (after N s op) := by
  unfold after
  cases hrun : op.run N s with
  | none => simp [hrun, returned] at h
  | some x =>
    obtain ⟨r, s₁⟩ := x
    refine ⟨r, s₁, hrun, ?_, rfl⟩
    rintro rfl
    simp [hrun, returned] at h

/-- The index of the node after `InitBlockIndex`. -/
def start : NodeState :=
  left (initBlockIndex node genesisBlock addresses 2)

theorem reachable_start : Reachable node start :=
  .init isGenesis_genesisBlock (eq_some_left (by decide)) (by decide)

end Example

open Example

end Reddcoin
