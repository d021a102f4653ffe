import Reddcoin.Index.SameHeader
import Reddcoin.Index.StakeRecord

/-!
# A corrupted copy does no harm

`ProcessNewBlock` on two bodies for one header.  A body that fails the first `CheckBlock` leaves no trace, and two bodies
that pass it are accepted, connected and marked alike.
-/

namespace Reddcoin

open Forest (Anc)

section

variable {N : Node} {s s' : NodeState} {block block' : CBlock} {p q t : Ptr}

/-! ## Accepting either body -/

theorem kernelModifierLoop_withFile (s : NodeState) (file : Ptr → Option CBlock) (nTimeStop turns time : Nat)
    (p : Ptr) :
    kernelModifierLoop (s.withFile file) nTimeStop turns time p = kernelModifierLoop s nTimeStop turns time p := by
  induction turns generalizing time p with
  | zero => rfl
  | succ turns ih =>
    unfold kernelModifierLoop
    have hnext : (s.withFile file).chainActive.next (s.withFile file).mapBlockIndex p =
        s.chainActive.next s.mapBlockIndex p := rfl
    rw [hnext]
    split_ifs
    · cases s.chainActive.next s.mapBlockIndex p with
      | none => rfl
      | some pindex => exact ih _ _
    · rfl

theorem getKernelStakeModifier_withFile (s : NodeState) (file : Ptr → Option CBlock) (hash : Uint256) :
    getKernelStakeModifier (s.withFile file) hash = getKernelStakeModifier s hash := by
  unfold getKernelStakeModifier
  have hfind : (s.withFile file).mapBlockIndex.find hash = s.mapBlockIndex.find hash := rfl
  rw [hfind]
  cases s.mapBlockIndex.find hash with
  | none => rfl
  | some pindexFrom =>
    simp only [kernelModifierLoop_withFile]
    rfl

theorem SameButFile.checkProofOfStake (h : SameButFile N s s') (tx : CTransaction) (nBits : Nat) :
    checkProofOfStake N s' tx nBits = checkProofOfStake N s tx nBits := by
  have henv : N.env s' = N.env s := h.reads N.env fun _ _ => rfl
  have hmap : s'.mapBlockIndex = s.mapBlockIndex := h.reads NodeState.mapBlockIndex fun _ _ => rfl
  have hmodifier : getKernelStakeModifier s' = getKernelStakeModifier s :=
    h.reads getKernelStakeModifier fun s file => funext (getKernelStakeModifier_withFile s file)
  have hkernel : ∀ nBits header n txPrev prevout time, checkStakeKernelHash N s' nBits header n txPrev prevout time =
        checkStakeKernelHash N s nBits header n txPrev prevout time := by
    intro nBits header n txPrev prevout time
    unfold checkStakeKernelHash
    rw [hmodifier, henv]
  unfold Reddcoin.checkProofOfStake
  rw [henv, hmap]
  split_ifs
  · rfl
  · cases tx.vin.head? with
    | none => rfl
    | some txin =>
      cases hprev : (N.env s).getTransaction txin.prevout.hash with
      | none => simp only [hprev]
      | some found =>
        obtain ⟨txPrev, hashBlock⟩ := found
        simp only [hprev, hkernel]
        split_ifs
        · rfl
        · cases s.mapBlockIndex.find hashBlock with
          | none => rfl
          | some p =>
            have hread := h.readBlockFromDisk p
            revert hread
            simp only
            rcases Reddcoin.readBlockFromDisk N s p with _ | block <;>
              rcases Reddcoin.readBlockFromDisk N s' p with _ | block' <;> intro hread
            · rfl
            · cases hread
            · cases hread
            · cases hread with
              | some htwin => simp only [htwin.header]

theorem SameButFile.verifyHashTarget (h : SameButFile N s s') (htwin : Twin N block block') :
    verifyHashTarget N s' block' = verifyHashTarget N s block := by
  unfold Reddcoin.verifyHashTarget computeProofHash
  simp only [htwin.getHash, htwin.isProofOfStake, htwin.vtx, htwin.header, h.checkProofOfStake]

theorem Twin.recordStakeCheck (htwin : Twin N block block') (s : NodeState) :
    s.recordStakeCheck N block' = s.recordStakeCheck N block := by
  unfold NodeState.recordStakeCheck stakeCheckOf
  rw [htwin.getHash, htwin.isProofOfStake, htwin.vtx, htwin.header]

section

variable (h : SameButFile N s s') (htwin : Twin N block block')

include h htwin

theorem SameButFile.recordProofHash (hashProof : Uint256)
    (p : Ptr) : Option.Rel (SameButFile N) (recordProofHash N hashProof block s p)
      (recordProofHash N hashProof block' s' p) := by
  unfold Reddcoin.recordProofHash
  split_ifs
  · rw [h.verifyHashTarget htwin]
    cases Reddcoin.verifyHashTarget N s block with
    | none => exact .none
    | some hash =>
      refine .some ?_
      rw [htwin.recordStakeCheck]
      exact h.map (fun s => (s.recordStakeCheck N block).setQueued p (CBlockIndex.setHashProof hash))
        (fun _ _ => rfl) fun _ => rfl
  · exact .some (h.map (fun s => s.setQueued p (CBlockIndex.setHashProof hashProof)) (fun _ _ => rfl) fun _ => rfl)

theorem SameButFile.linkEntry (env : Env) (hashProof : Uint256) (p : Ptr) :
    SameCall N (linkEntry N env hashProof block s p) (linkEntry N env hashProof block' s' p) := by
  have hlink : SameButFile N (s.link p) (s'.link p) := h.map (fun s => s.link p) (fun _ _ => rfl) fun _ => rfl
  have hrecord := hlink.recordProofHash htwin hashProof p
  unfold Reddcoin.linkEntry
  revert hrecord
  rcases Reddcoin.recordProofHash N hashProof block (s.link p) p with _ | s₁ <;>
    rcases Reddcoin.recordProofHash N hashProof block' (s'.link p) p with _ | s₁' <;> intro hrecord
  · exact .ofState hlink _
  · cases hrecord
  · cases hrecord
  · cases hrecord with
    | some h =>
      have hmodifier : s₁'.computeNextStakeModifier N.C (s₁'.par p) = s₁.computeNextStakeModifier N.C (s₁.par p) :=
        h.reads (fun s => s.computeNextStakeModifier N.C (s.par p)) fun _ _ => rfl
      simp only [hmodifier]
      cases s₁.computeNextStakeModifier N.C (s₁.par p) with
      | none => exact .ofState h _
      | some modifier =>
        have hset : SameButFile N (s₁.setQueued p (CBlockIndex.setStakeModifier modifier.1 modifier.2))
            (s₁'.setQueued p (CBlockIndex.setStakeModifier modifier.1 modifier.2)) :=
          h.map (fun s => s.setQueued p (CBlockIndex.setStakeModifier modifier.1 modifier.2)) (fun _ _ => rfl)
            fun _ => rfl
        simp only
        split_ifs
        · exact .ofState hset _
        · refine ⟨?_, hset.map (fun s => (s.offerCandidate p).drain p) (fun _ _ => rfl) fun _ => rfl⟩
          exact congrArg Except.ok (hset.reads (fun s => s.waitingFor p) fun _ _ => rfl)

theorem SameButFile.linkQueue (env : Env) (hashProof : Uint256) (turns : Nat) (queue : List Ptr) :
    SameCall N (linkQueue N env hashProof block turns s queue) (linkQueue N env hashProof block' turns s' queue) := by
  induction turns generalizing s s' queue with
  | zero => exact .ofState h _
  | succ turns ih =>
    cases queue with
    | nil => exact .ofState h _
    | cons p queue =>
      have hentry := h.linkEntry htwin env hashProof p
      unfold Reddcoin.linkQueue
      revert hentry
      rcases Reddcoin.linkEntry N env hashProof block s p with ⟨r, s₁⟩
      rcases Reddcoin.linkEntry N env hashProof block' s' p with ⟨r', s₁'⟩
      intro hentry
      obtain ⟨hresult, hstate⟩ := hentry
      obtain rfl : r' = r := hresult
      cases r' with
      | error stop => exact .ofState hstate _
      | ok waiting => exact ih hstate _

end

section

variable (htwin : Twin N block block')

include htwin

theorem Twin.receiveData (s : NodeState) (p : Ptr) :
    SameButFile N (receiveData N s block p) (receiveData N s block' p) := by
  have hentry : receivedEntry N (N.env s).findBlockPos block' = receivedEntry N (N.env s).findBlockPos block := by
    unfold receivedEntry
    rw [htwin.vtx, htwin.getHash, htwin.isProofOfStake]
  unfold Reddcoin.receiveData
  rw [hentry]
  refine ⟨rfl, fun q => ?_⟩
  by_cases hq : q = p
  · simp only [hq, if_true]
    exact .some htwin
  · simp only [hq, if_false]
    exact (SameButFile.refl N s).file q

theorem Twin.receivedBlockTransactions (env : Env) (hashProof : Uint256) (s : NodeState)
    (p : Ptr) : SameCall N (receivedBlockTransactions N env hashProof s block p)
      (receivedBlockTransactions N env hashProof s block' p) := by
  have h := htwin.receiveData s p
  have hpar : (Reddcoin.receiveData N s block' p).par p = (Reddcoin.receiveData N s block p).par p :=
    h.reads (fun s => s.par p) fun _ _ => rfl
  have hentry : (Reddcoin.receiveData N s block' p).entry = (Reddcoin.receiveData N s block p).entry :=
    h.reads NodeState.entry fun _ _ => rfl
  have hunlinked : (Reddcoin.receiveData N s block' p).mapBlocksUnlinked =
      (Reddcoin.receiveData N s block p).mapBlocksUnlinked := h.reads NodeState.mapBlocksUnlinked fun _ _ => rfl
  unfold Reddcoin.receivedBlockTransactions
  simp only [hpar, hentry, hunlinked]
  cases (Reddcoin.receiveData N s block p).par p with
  | none => exact h.linkQueue htwin env hashProof _ _
  | some q =>
    simp only
    split_ifs
    · exact h.linkQueue htwin env hashProof _ _
    · rw [← hunlinked]
      exact .ofState (h.map (fun s => { s with mapBlocksUnlinked := s.mapBlocksUnlinked ++ [(q, p)] })
        (fun _ _ => rfl) fun _ => rfl) _
    · exact .ofState h _

theorem Twin.acceptBlockData (s : NodeState) (p : Ptr) :
    SameCall N (acceptBlockData N s block p) (acceptBlockData N s block' p) := by
  have hdev : checkDevTx N s block' p = checkDevTx N s block p := by
    unfold checkDevTx
    rw [htwin.isProofOfStake, htwin.vtx, htwin.header]
  unfold Reddcoin.acceptBlockData
  simp only [htwin.check, htwin.vtx, htwin.header, hdev]
  cases checkBlock N.P N.C (N.env s).nAdjustedTime block true true true with
  | error stop => exact .ofState (.refl N _) _
  | ok u =>
    cases checkDevTx N s block p with
    | error stop =>
      simp only
      split_ifs
      · exact .ofState (.refl N _) _
      · exact .ofState (.refl N _) _
    | ok u =>
      simp only
      split_ifs
      · exact .ofState (.refl N _) _
      · exact .ofState (.refl N _) _
      · exact htwin.receivedBlockTransactions _ _ s p

theorem Twin.acceptBlock (s : NodeState) : SameCall N (acceptBlock N s block) (acceptBlock N s block') := by
  unfold Reddcoin.acceptBlock
  rw [htwin.header]
  rcases acceptBlockHeader N s block.toCBlockHeader with ⟨_ | p, s₁⟩
  · exact .ofState (.refl N _) _
  · simp only
    split_ifs
    · exact .ofState (.refl N _) _
    · have hdata := htwin.acceptBlockData s₁ p
      revert hdata
      rcases Reddcoin.acceptBlockData N s₁ block p with ⟨r, s₂⟩
      rcases Reddcoin.acceptBlockData N s₁ block' p with ⟨r', s₂'⟩
      intro hdata
      obtain ⟨hresult, hstate⟩ := hdata
      obtain rfl : r' = r := hresult
      cases r' with
      | error stop | ok u => exact .ofState hstate _

end

/-! ## Accepting a block leaves the active chain alone -/

theorem recordProofHash_chainActive {hashProof : Uint256} {s₁ : NodeState}
    (h : recordProofHash N hashProof block s p = some s₁) : s₁.chainActive = s.chainActive := by
  unfold recordProofHash at h
  split_ifs at h
  · obtain ⟨hash, -, rfl⟩ := Option.map_eq_some_iff.mp h
    rfl
  · cases h
    rfl

theorem linkEntry_chainActive (N : Node) (env : Env) (hashProof : Uint256) (block : CBlock) (s : NodeState)
    (p : Ptr) : (linkEntry N env hashProof block s p).2.chainActive = s.chainActive := by
  unfold linkEntry
  cases hrecord : recordProofHash N hashProof block (s.link p) p with
  | none => rfl
  | some s₁ =>
    have hchain : s₁.chainActive = (s.link p).chainActive := recordProofHash_chainActive hrecord
    cases hmodifier : s₁.computeNextStakeModifier N.C (s₁.par p) with
    | none =>
      simp only [hmodifier]
      exact hchain
    | some modifier =>
      simp only [hmodifier]
      split_ifs
      · exact hchain
      · exact hchain

theorem linkQueue_chainActive (N : Node) (env : Env) (hashProof : Uint256) (block : CBlock) (turns : Nat)
    (s : NodeState) (queue : List Ptr) :
    (linkQueue N env hashProof block turns s queue).2.chainActive = s.chainActive := by
  induction turns generalizing s queue with
  | zero => rfl
  | succ turns ih =>
    cases queue with
    | nil => rfl
    | cons p queue =>
      have hentry := linkEntry_chainActive N env hashProof block s p
      unfold linkQueue
      revert hentry
      rcases linkEntry N env hashProof block s p with ⟨_ | waiting, s₁⟩
      · exact id
      · exact fun hentry => (ih s₁ _).trans hentry

theorem acceptBlock_chainActive (N : Node) (s : NodeState) (block : CBlock) :
    (acceptBlock N s block).2.chainActive = s.chainActive := by
  have hheader : (acceptBlockHeader N s block.toCBlockHeader).2.chainActive = s.chainActive := by
    unfold acceptBlockHeader
    cases hfind : s.mapBlockIndex.find (N.C.headerHash block.toCBlockHeader) with
    | some p =>
      simp only
      split_ifs <;> rfl
    | none =>
      cases checkNewHeader N s block.toCBlockHeader with
      | error stop => rfl
      | ok u =>
        simp only [addToBlockIndex, hfind]
        rfl
  rcases acceptBlock_cases N s block with ⟨stop, heq, -⟩ | ⟨p, s₁, heq, ⟨-, hdata⟩ | ⟨-, hstate, -⟩⟩
  · rw [heq] at hheader
    exact hheader
  · rw [heq] at hheader
    rw [hdata]
    exact hheader
  · rw [heq] at hheader
    have hheader : s₁.chainActive = s.chainActive := hheader
    rw [hstate, ← hheader]
    rcases acceptBlockData_cases N s₁ block p with ⟨stop, hr⟩ | ⟨stop, hr⟩ | ⟨stop, hr⟩ | ⟨-, hr⟩
    · rw [hr]
    · rw [hr]
      rfl
    · rw [hr]
      rfl
    · rw [hr]
      rcases receivedBlockTransactions_cases N (N.env s₁) 0 s₁ block p with
        ⟨-, hlink⟩ | ⟨q, -, -, ⟨-, hwait⟩ | ⟨-, hskip⟩⟩
      · rw [hlink, linkQueue_chainActive]
        rfl
      · rw [hwait]
        rfl
      · rw [hskip]
        rfl

/-! ## Invalid entries do not become active -/

theorem IndexInv.mem_chainActive (hs : IndexInv N s) (ht : s.tip = some t) :
    some q ∈ s.chainActive ↔ Anc s.par q t := by
  obtain ⟨htsize, hends, -⟩ := hs.tip_eq ht
  rw [hends, List.mem_map]
  constructor
  · intro h
    obtain ⟨a, ha, heq⟩ := h
    cases heq
    exact (hs.shape.tree.graded.mem_path htsize).mp ha
  · intro h
    exact ⟨q, (hs.shape.tree.graded.mem_path htsize).mpr h, rfl⟩

/-- An entry of the active chain that is marked invalid was so before the move. -/
theorem ChainMove.active_failed (move : ChainMove s s') (hs : IndexInv N s) (hactive : some q ∈ s'.chainActive)
    (hfailed : (s'.entry q).nStatus.failedValid) :
    some q ∈ s.chainActive ∧ (s.entry q).nStatus.failedValid = true := by
  have hs' := move.inv hs
  cases move with
  | note | quiet | write | erase => exact ⟨hactive, hfailed⟩
  | @mint p r =>
    refine ⟨hactive, ?_⟩
    rw [← hfailed]
    exact (entry_modify_keep (fun e => e.nStatus.failedValid) s p (mintedEntry r) (fun _ => rfl) q).symm
  | @reject p t size par tip =>
    refine ⟨hactive, ?_⟩
    have hne : q ≠ p := by
      intro heq
      -- the entry is above the tip
      have hanc := (hs.mem_chainActive tip).mp hactive
      have hle := (hs.shape.tree.graded.anc_height (hs.tip_eq tip).1 hanc).1
      have hheight := hs.shape.tree.graded.height size par
      rw [heq] at hle
      omega
    rw [← hfailed]
    exact congrArg (fun e => e.nStatus.failedValid) (entry_modify_ne (s := s) (f := CBlockIndex.failValid) hne).symm
  | @failChild a p | @failTip a p =>
    refine ⟨hactive, ?_⟩
    rw [← hfailed]
    exact (entry_modify_keep (fun e => e.nStatus.failedValid) s p CBlockIndex.failChild (fun _ => rfl) q).symm
  | @record p t u r =>
    refine ⟨hactive, ?_⟩
    rw [← hfailed]
    exact (entry_modify_keep (fun e => e.nStatus.failedValid) s p (connectedEntry u r)
      (fun _ => connectedStatus_failedValid) q).symm
  | @connect p t view size par tip linked valid scripts best =>
    refine ⟨?_, hfailed⟩
    have hends := (hs.tip_eq tip).2.1.setTip_child hs.shape.tree size par
    have htip := hends.tip hs.shape.tree size
    have hanc : Anc s.par q p := (hs'.mem_chainActive htip).mp hactive
    rcases (Forest.anc_of_parent par).mp hanc with heq | hbelow
    · rw [heq] at hfailed
      have hmarked : s.failed p = true := by
        unfold NodeState.failed CBlockIndex.failed BlockStatus.failed
        rw [show (s.entry p).nStatus.failedValid = true from hfailed]
        rfl
      rw [hmarked] at valid
      cases valid
    · exact (hs.mem_chainActive tip).mpr hbelow
  | @disconnect t r view tip par best =>
    refine ⟨?_, hfailed⟩
    obtain ⟨hsize, hends, -⟩ := hs.tip_eq tip
    have htip := (hends.setTip_parent hs.shape.tree hsize par).tip hs.shape.tree
      (hs.shape.tree.graded.closed hsize par)
    have hanc : Anc s.par q r := (hs'.mem_chainActive htip).mp hactive
    exact (hs.mem_chainActive tip).mpr (hanc.trans (Anc.of_parent par))

theorem ChainMoves.active_failed (moves : ChainMoves s s') (hs : IndexInv N s) (hactive : some q ∈ s'.chainActive)
    (hfailed : (s'.entry q).nStatus.failedValid) :
    some q ∈ s.chainActive ∧ (s.entry q).nStatus.failedValid = true := by
  induction moves with
  | refl => exact ⟨hactive, hfailed⟩
  | tail before move ih =>
    obtain ⟨hactive, hfailed⟩ := move.active_failed (ChainMoves.inv before hs) hactive hfailed
    exact ih hactive hfailed

/-! ## Two bodies for one header -/

/-- A block that fails the first `CheckBlock`, or whose entry is marked failed already, changes nothing. -/
theorem processNewBlock_unchanged {turns : Nat} {r : Check Unit} (h : processNewBlock N turns s block = some (r, s'))
    (hrefused : checkBlock N.P N.C (N.env s).nAdjustedTime block true true true ≠ .ok () ∨
      ∃ p, s.mapBlockIndex.find (block.getHash N.C) = some p ∧ s.failed p) : s' = s := by
  unfold processNewBlock at h
  cases hcheck : checkBlock N.P N.C (N.env s).nAdjustedTime block true true true with
  | error stop =>
    rw [hcheck] at h
    exact (Prod.mk.inj (Option.some.inj h)).2.symm
  | ok u =>
    rcases hrefused with hrefused | ⟨p, hfind, hfailed⟩
    · exact absurd hcheck hrefused
    · have hheader : acceptBlockHeader N s block.toCBlockHeader = (.error (rejectInvalid 0 "duplicate"), s) := by
        unfold acceptBlockHeader
        rw [show s.mapBlockIndex.find (N.C.headerHash block.toCBlockHeader) = some p from hfind]
        exact if_pos hfailed
      simp only [hcheck, acceptBlock, hheader] at h
      exact (Prod.mk.inj (Option.some.inj h)).2.symm

/-- The entries that become active while a block is processed are not marked invalid. -/
theorem processNewBlock_active_failed {turns : Nat} {r : Check Unit} (hs : IndexInv N s)
    (h : processNewBlock N turns s block = some (r, s')) (hactive : some q ∈ s'.chainActive)
    (hfailed : (s'.entry q).nStatus.failedValid) : some q ∈ s.chainActive := by
  unfold processNewBlock at h
  cases hcheck : checkBlock N.P N.C (N.env s).nAdjustedTime block true true true with
  | error stop =>
    rw [hcheck] at h
    rw [(Prod.mk.inj (Option.some.inj h)).2]
    exact hactive
  | ok u =>
    rw [hcheck] at h
    have hchain := acceptBlock_chainActive N s block
    have hs₁ := (acceptBlock_moves hs block).inv hs
    revert h hchain hs₁
    rcases acceptBlock N s block with ⟨_ | p, s₁⟩
    · intro h hchain hs₁
      obtain rfl : s₁ = s' := (Prod.mk.inj (Option.some.inj h)).2
      exact hchain ▸ hactive
    · intro h hchain hs₁
      have hbefore := (activateBestChain_moves hs₁ h).active_failed hs₁ hactive hfailed
      exact hchain ▸ hbefore.1

/-- With two bodies that cannot be told apart, the node ends in the same index and on the same chain. -/
theorem Twin.processNewBlock (htwin : Twin N block block') {turns turns' : Nat} {x x' : Call Unit}
    (hx : processNewBlock N turns s block = some x) (hx' : processNewBlock N turns' s block' = some x') :
    SameCall N x x' := by
  unfold Reddcoin.processNewBlock at hx hx'
  rw [htwin.check] at hx'
  cases hcheck : checkBlock N.P N.C (N.env s).nAdjustedTime block true true true with
  | error stop =>
    rw [hcheck] at hx hx'
    cases hx
    cases hx'
    exact .ofState (.refl N s) _
  | ok u =>
    rw [hcheck] at hx hx'
    have haccept := htwin.acceptBlock s
    revert hx hx' haccept
    rcases Reddcoin.acceptBlock N s block with ⟨r, s₁⟩
    rcases Reddcoin.acceptBlock N s block' with ⟨r', s₁'⟩
    intro hx' hx haccept
    obtain ⟨hresult, hstate⟩ := haccept
    obtain rfl : r' = r := hresult
    cases r' with
    | error stop =>
      cases hx
      cases hx'
      exact .ofState hstate _
    | ok p => exact hstate.activateBestChain htwin hx hx'

/-- When one body for a header leads to the entry of its hash being marked invalid, no other body for that header makes
the entry active. -/
theorem processNewBlock_not_poisoned (hs : Reachable N s) (hfree : CollisionFree N.C (block.vtx ++ block'.vtx))
    (hheader : block'.toCBlockHeader = block.toCBlockHeader) {turns turns' : Nat} {r r' : Check Unit}
    {marked other : NodeState} (hrun : processNewBlock N turns s block = some (r, marked))
    (hrun' : processNewBlock N turns' s block' = some (r', other))
    (hfind : marked.mapBlockIndex.find (block.getHash N.C) = some p)
    (hfailed : (marked.entry p).nStatus.failedValid = true)
    (hfind' : other.mapBlockIndex.find (block'.getHash N.C) = some q) (hactive : some q ∈ other.chainActive) :
    some q ∈ s.chainActive := by
  have hhash : block'.getHash N.C = block.getHash N.C := congrArg N.C.headerHash hheader
  by_cases hcheck' : checkBlock N.P N.C (N.env s).nAdjustedTime block' true true true = .ok ()
  · by_cases hcheck : checkBlock N.P N.C (N.env s).nAdjustedTime block true true true = .ok ()
    · have htwin := Twin.of_checkBlock hheader (checkBlock_vtx_eq hfree hheader hcheck hcheck') hcheck hcheck'
      have hstate : SameButFile N marked other := (htwin.processNewBlock hrun hrun').state
      have hmap : other.mapBlockIndex = marked.mapBlockIndex := hstate.reads NodeState.mapBlockIndex fun _ _ => rfl
      rw [hmap, hhash, hfind] at hfind'
      cases hfind'
      refine processNewBlock_active_failed hs.inv hrun' hactive ?_
      rw [show other.entry p = marked.entry p from congrArg (fun m => m.entry p) hmap]
      exact hfailed
    · have hsame : marked = s := processNewBlock_unchanged hrun (.inl hcheck)
      rw [hsame] at hfind hfailed
      have hmarked : s.failed p = true := by
        unfold NodeState.failed CBlockIndex.failed BlockStatus.failed
        rw [hfailed]
        rfl
      rw [← processNewBlock_unchanged hrun' (.inr ⟨p, hhash ▸ hfind, hmarked⟩)]
      exact hactive
  · rw [← processNewBlock_unchanged hrun' (.inl hcheck')]
    exact hactive

end

namespace Example

/-- Hashes without collisions: a pair is odd, a txid even. -/
def sealedCrypto : Crypto :=
  { nodeCrypto with
    txHash := fun tx => 2 * crypto.txHash tx
    merkleHash := pairing.merkleHash }

def sealedNode : Node :=
  { node with C := sealedCrypto }

def sealedBlock (block : CBlock) : CBlock :=
  { block with hashMerkleRoot := (block.buildMerkleTree sealedCrypto).1 }

def sealedStart : NodeState :=
  left (initBlockIndex sealedNode (sealedBlock genesisBlock) addresses 2)

theorem reachable_sealedStart : Reachable sealedNode sealedStart :=
  .init ⟨by decide, by decide, by decide⟩ (eq_some_left (by decide)) (by decide)

/-- A block that pays itself too much, with a signature that nobody asks for. -/
def greedyBlock (vchBlockSig : List UInt8) : CBlock :=
  sealedBlock { nodeBlock 7000 200 1 with
    nVersion := 3, vtx := [coinbaseTx [keyOut MAX_MONEY]], vchBlockSig := vchBlockSig }

theorem collisionFree_greedyBlock : CollisionFree sealedCrypto ((greedyBlock []).vtx ++ (greedyBlock [7]).vtx) := by
  refine ⟨pairing_inj, fun tx a b h => ?_, fun tx htx tx' htx' _ => ?_⟩
  · have h : 2 * Nat.pair a b + 1 = 2 * crypto.txHash tx := h
    omega
  · have hall : ∀ tx ∈ (greedyBlock []).vtx ++ (greedyBlock [7]).vtx, tx = coinbaseTx [keyOut MAX_MONEY] := by
      decide
    rw [hall tx htx, hall tx' htx']

end Example

open Example

theorem processNewBlock_not_poisoned_example :
    ((left (processNewBlock sealedNode 3 sealedStart
      (greedyBlock []))).entry 1).nStatus.failedValid = true ∧
    some 1 ∉ (left (processNewBlock sealedNode 3 sealedStart
      (greedyBlock [7]))).chainActive := by
  have hrun := eq_some_left
    (by decide : ((processNewBlock sealedNode 3 sealedStart (greedyBlock [])).map
      fun x => x.1.isOk) = some true)
  have hrun' := eq_some_left
    (by decide : ((processNewBlock sealedNode 3 sealedStart (greedyBlock [7])).map
      fun x => x.1.isOk) = some true)
  refine ⟨by decide, fun hactive => ?_⟩
  have hbefore := processNewBlock_not_poisoned (p := 1) (q := 1) reachable_sealedStart
    collisionFree_greedyBlock rfl hrun hrun' (by decide) (by decide) (by decide) hactive
  exact absurd hbefore (by decide)

end Reddcoin
