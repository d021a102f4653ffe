import Reddcoin.Index.Init

/-!
# The proof hash of an entry

`VerifyHashTarget` computes the proof hash of the block that was received and then overwrites it with 0, so
`ReceivedBlockTransactions` records 0 for every entry that it links.
-/

namespace Reddcoin

section

variable (N : Node) {header : CBlockHeader}

/-- The proof hash of a block: the kernel hash of its coinstake, or its proof-of-work hash. -/
def proofHash (s : NodeState) (block : CBlock) : Option Uint256 :=
  if block.isProofOfStake then
    (block.vtx[1]?).bind fun coinstake => checkProofOfStake N s coinstake block.nBits
  else some (N.C.powHash block.toCBlockHeader)

/-- The proof hash of the block that is stored for an entry, with the kernel checked in the state `t`. -/
def NodeState.proofHashOf (s t : NodeState) (p : Ptr) : Option Uint256 :=
  (s.blockFile p).bind (proofHash N t)

end

section

variable {N : Node} {s s' : NodeState} {block : CBlock} {p q : Ptr}

/-- A turn of the queue records the proof hash 0 and leaves the other entries alone. -/
theorem linkEntry_hashProof {env : Env} {waiting : List Ptr}
    (h : linkEntry N env 0 block s p = (.ok waiting, s')) :
    (s'.entry p).hashProof = 0 ∧ ∀ q, q ≠ p → s'.entry q = s.entry q := by
  obtain ⟨s₁, m, f, -, -, hself, hother⟩ := linkEntry_entry h
  refine ⟨?_, fun q hq => (hother q hq).1⟩
  rw [hself]
  rfl

theorem linkQueue_hashProof {env : Env} {turns : Nat} {queue : List Ptr}
    (h : linkQueue N env 0 block turns s queue = (.ok (), s')) (q : Ptr) :
    s'.entry q = s.entry q ∨ (s'.entry q).hashProof = 0 := by
  induction turns generalizing s queue with
  | zero =>
    obtain rfl : s = s' := congrArg Prod.snd h
    exact .inl rfl
  | succ turns ih =>
    cases queue with
    | nil =>
      obtain rfl : s = s' := congrArg Prod.snd h
      exact .inl rfl
    | cons p queue =>
      rw [linkQueue] at h
      cases hentry : linkEntry N env 0 block s p with
      | mk r s₁ =>
        rw [hentry] at h
        cases r with
        | error stop => simp at h
        | ok waiting =>
          obtain ⟨hself, hother⟩ := linkEntry_hashProof hentry
          rcases ih h with heq | hzero
          · by_cases hq : q = p
            · right
              rw [heq, hq]
              exact hself
            · exact .inl (heq.trans (hother q hq))
          · exact .inr hzero

/-- Accepting a header links nothing. -/
theorem acceptBlockHeader_unlinked (h : acceptBlockHeader N s header = (.ok p, s')) (hq : s.linked q = false) :
    s'.linked q = false := by
  unfold acceptBlockHeader at h
  cases hfind : s.mapBlockIndex.find (N.C.headerHash header) with
  | some r =>
    simp only [hfind] at h
    split_ifs at h
    · simp at h
    · obtain rfl : s = s' := congrArg Prod.snd h
      exact hq
  | none =>
    cases hcheck : checkNewHeader N s header with
    | error stop => simp [hfind, hcheck] at h
    | ok u =>
      simp only [hfind, hcheck, addToBlockIndex] at h
      obtain rfl := congrArg Prod.snd h
      by_cases hnew : q = s.size
      · show ((NodeState.addEntry _ _).entry q).linked = false
        rw [hnew, addEntry_entry_new]
        rfl
      · show ((NodeState.addEntry _ _).mapBlockIndex.entry q).linked = false
        simp only [NodeState.addEntry, if_neg hnew]
        exact hq

/-- An entry that `AcceptBlock` links gets the proof hash 0. -/
theorem acceptBlock_hashProof (haccept : acceptBlock N s block = (.ok p, s'))
    (hbefore : s.linked q = false) (hafter : s'.linked q) : (s'.entry q).hashProof = 0 := by
  obtain ⟨s₁, hheader, ⟨-, rfl⟩ | ⟨-, -, hreceived⟩⟩ := acceptBlock_ok haccept
  · rw [acceptBlockHeader_unlinked hheader hbefore] at hafter
    simp at hafter
  have hstored : (receiveData N s₁ block p).linked q = false := by
    by_cases hq : q = p
    · rw [hq]
      exact receiveData_linked_self
    · rw [receiveData_linked_ne hq]
      exact acceptBlockHeader_unlinked hheader hbefore
  rcases receivedBlockTransactions_cases N (N.env s₁) 0 s₁ block p with
    ⟨-, h⟩ | ⟨a, -, -, ⟨-, h⟩ | ⟨-, h⟩⟩
  · rw [hreceived] at h
    rcases linkQueue_hashProof h.symm q with heq | hzero
    · have hlinked : s'.linked q = (receiveData N s₁ block p).linked q := congrArg CBlockIndex.linked heq
      rw [hlinked, hstored] at hafter
      simp at hafter
    · exact hzero
  · rw [hreceived] at h
    obtain rfl : s' = (receiveData N s₁ block p).waitFor a p := congrArg Prod.snd h
    exact absurd (hstored.symm.trans hafter) (by simp)
  · rw [hreceived] at h
    obtain rfl : s' = receiveData N s₁ block p := congrArg Prod.snd h
    exact absurd (hstored.symm.trans hafter) (by simp)

/-- What `AcceptBlock` records for an entry that it links, whichever block was received last, is the proof
hash of the entry's block only if that is 0. -/
theorem acceptBlock_hashProof_iff (haccept : acceptBlock N s block = (.ok p, s'))
    (hbefore : s.linked q = false) (hafter : s'.linked q = true) (t : NodeState) :
    s'.proofHashOf N t q = some (s'.entry q).hashProof ↔ s'.proofHashOf N t q = some 0 := by
  rw [acceptBlock_hashProof haccept hbefore hafter]

end

namespace Example

theorem eq_ok_state {r : Call Ptr} {p : Ptr} (h : r.1.toOption = some p) : r = (.ok p, r.2) := by
  obtain ⟨res, s⟩ := r
  cases res with
  | error stop => simp [Except.toOption] at h
  | ok q =>
    cases h
    rfl

end Example

theorem acceptBlock_hashProof_iff_example : ∃ s',
    acceptBlock Example.node Example.start (Example.nodeBlock 7000 200 1) = (.ok 1, s') ∧
    s'.proofHashOf Example.node s' 1 = some (s'.entry 1).hashProof := by
  have haccept := Example.eq_ok_state
    (by decide : (acceptBlock Example.node Example.start (Example.nodeBlock 7000 200 1)).1.toOption = some 1)
  exact ⟨_, haccept, (acceptBlock_hashProof_iff haccept (by decide) (by decide) _).mpr (by decide)⟩

/-- A block whose proof-of-work hash is 1 is linked, and its entry records the proof hash 0. -/
theorem acceptBlock_drops_proofHash : Reachable Example.node Example.start ∧ ∃ s',
    acceptBlock Example.node Example.start (Example.nodeBlock 7000 200 2) = (.ok 1, s') ∧
    Example.start.linked 1 = false ∧ s'.linked 1 = true ∧
    s'.proofHashOf Example.node s' 1 = some 1 ∧ (s'.entry 1).hashProof = 0 := by
  have haccept := Example.eq_ok_state
    (by decide : (acceptBlock Example.node Example.start (Example.nodeBlock 7000 200 2)).1.toOption = some 1)
  exact ⟨Example.reachable_start, _, haccept, by decide, by decide, by decide, by decide⟩

end Reddcoin

/-!
## Two classifications of a block

`CBlockHeader::IsProofOfStake` goes by the version of the header, `CBlock::IsProofOfStake` by the second
transaction.  The checks that make a block cost something are spread over both, so a block for which they
disagree escapes them.
-/

namespace Reddcoin

section

variable (N : Node)

/-- What the classification of an accepted block with the entry `p` is for. -/
structure Classified (s : NodeState) (block : CBlock) (p : Ptr) : Prop where
  agree : block.toCBlockHeader.isProofOfStake = block.isProofOfStake
  /-- The header passed `CheckProofOfWork`, or `VerifyHashTarget` calls `CheckProofOfStake`. -/
  costs : block.getHash N.C ≠ N.P.hashGenesisBlock → CHECK_POW_FROM_NTIME < block.getBlockTime →
    (block.toCBlockHeader.isProofOfWork = true ∧
      checkProofOfWork N.P (N.C.powHash block.toCBlockHeader) block.nBits = true) ∨
    (stakeCheckOf N block).isSome = true
  height : block.isProofOfWork = true → s.ht p ≤ N.P.lastProofOfWorkHeight

end

section

variable {N : Node} {s s' : NodeState} {block : CBlock} {p : Ptr}

theorem receivedBlockTransactions_sameShape {env : Env} {hashProof : Uint256}
    (h : receivedBlockTransactions N env hashProof s block p = (.ok (), s')) :
    s.mapBlockIndex.SameShape s'.mapBlockIndex := by
  rcases receivedBlockTransactions_cases N env hashProof s block p with
    ⟨-, heq⟩ | ⟨q, -, -, ⟨-, heq⟩ | ⟨-, heq⟩⟩
  · rw [heq] at h
    exact linkQueue_ok (Q := fun t _ => s.mapBlockIndex.SameShape t.mapBlockIndex)
      (fun t q queue waiting t' hshape hby _ => hshape.trans hby.shape)
      (show [p].length + (receiveData N s block p).mapBlocksUnlinked.length ≤ s.mapBlocksUnlinked.length + 1 by
        have hsame : (receiveData N s block p).mapBlocksUnlinked = s.mapBlocksUnlinked := rfl
        rw [hsame, List.length_singleton]
        omega)
      receiveData_sameShape h
  · rw [heq] at h
    obtain rfl : (receiveData N s block p).waitFor q p = s' := congrArg Prod.snd h
    exact receiveData_sameShape
  · rw [heq] at h
    obtain rfl : receiveData N s block p = s' := congrArg Prod.snd h
    exact receiveData_sameShape

/-- A block without a signature has no coinstake that `CheckBlock` lets pass. -/
theorem checkBlock_unsigned {nAdjustedTime : Int} {fCheckPOW fCheckMerkleRoot : Bool}
    (h : checkBlock N.P N.C nAdjustedTime block fCheckPOW fCheckMerkleRoot true = .ok ())
    (hsig : block.vchBlockSig = []) : block.isProofOfStake = false := by
  by_contra hstake
  rw [Bool.not_eq_false] at hstake
  have hsigned := (checkBlock_ok h).2.2 hstake rfl
  unfold CBlock.checkBlockSignature CBlock.isProofOfWork at hsigned
  rw [hstake, hsig] at hsigned
  split at hsigned
  · simp_all
  · split at hsigned
    · simp at hsigned
    · split at hsigned <;> simp at hsigned

/-- A header that counts as proof-of-work has passed `CheckProofOfWork`, once the time for it has come. -/
theorem checkBlockHeader_proofOfWork {P : CChainParams} {C : Crypto} {nAdjustedTime : Int}
    (h : checkBlockHeader P C nAdjustedTime header true = .ok ())
    (htime : CHECK_POW_FROM_NTIME < header.getBlockTime) (hwork : header.isProofOfWork) :
    checkProofOfWork P (C.powHash header) header.nBits = true := by
  simp only [checkBlockHeader, check_seq_ok, require_eq_ok] at h
  obtain ⟨h, -⟩ := h
  rw [decide_eq_true htime, hwork] at h
  simpa using h

/-- The height of an accepted header that counts as proof-of-work. -/
theorem acceptBlockHeader_height (hs : IndexInv N s)
    (hindexed : ∀ q < s.size, (s.entry q).hash = N.C.headerHash header → s.mapBlockIndex.getBlockHeader q = header)
    (h : acceptBlockHeader N s header = (.ok p, s')) (hwork : header.isProofOfWork) :
    s'.ht p ≤ N.P.lastProofOfWorkHeight := by
  have hversion : header.nVersion ≤ POW_BLOCK_VERSION := by
    simp only [CBlockHeader.isProofOfWork, CBlockHeader.isProofOfStake, Bool.not_eq_true',
      decide_eq_false_iff_not] at hwork
    omega
  rcases acceptBlockHeader_cases hs header with ⟨q, hfind, -, hr⟩ | ⟨q, -, -, -, hparent, hr⟩ | ⟨stop, hr, -⟩
  · rw [h] at hr
    obtain ⟨hp, rfl⟩ := Prod.mk.inj hr
    cases hp
    obtain ⟨hsize, hhash⟩ := BlockMap.find_eq_some hfind
    have hsame : (s'.mapBlockIndex.entry p).nVersion = header.nVersion :=
      congrArg CBlockHeader.nVersion (hindexed p hsize hhash)
    exact hs.shape.proofOfWork p hsize (by omega)
  · rw [h] at hr
    obtain ⟨hp, rfl⟩ := Prod.mk.inj hr
    cases hp
    show ((s.addEntry (childEntry N s header q)).entry s.size).nHeight ≤ N.P.lastProofOfWorkHeight
    rw [addEntry_entry_new]
    exact checkHeaderOnParent_height hparent hversion
  · rw [h] at hr
    simp at hr

/-- The two classifications of a block that is accepted and stored agree, and do their work, exactly when a block
with the version of proof-of-stake has a coinstake. -/
theorem acceptBlock_classified_iff (hs : Reachable N s) (hwire : block.WireForm)
    (hindexed : ∀ q < s.size, (s.entry q).hash = block.getHash N.C →
      s.mapBlockIndex.getBlockHeader q = block.toCBlockHeader)
    (hnew : ∀ q < s.size, (s.entry q).hash = block.getHash N.C → s.haveData q = false)
    (h : acceptBlock N s block = (.ok p, s')) :
    Classified N s' block p ↔ (POW_BLOCK_VERSION < block.nVersion → block.isProofOfStake = true) := by
  have hinv := hs.inv
  obtain ⟨s₁, hheader, ⟨hdata, rfl⟩ | ⟨-, hcheck, hreceived⟩⟩ := acceptBlock_ok h
  · -- The data was there before, or the entry is new and has none.
    exfalso
    rcases acceptBlockHeader_cases hinv block.toCBlockHeader with
      ⟨q, hfind, -, hr⟩ | ⟨q, -, -, -, -, hr⟩ | ⟨stop, hr, -⟩
    · rw [hheader] at hr
      obtain ⟨hp, rfl⟩ := Prod.mk.inj hr
      cases hp
      obtain ⟨hsize, hhash⟩ := BlockMap.find_eq_some hfind
      rw [hnew p hsize hhash] at hdata
      simp at hdata
    · rw [hheader] at hr
      obtain ⟨hp, rfl⟩ := Prod.mk.inj hr
      cases hp
      unfold NodeState.haveData at hdata
      rw [addEntry_entry_new] at hdata
      have hempty : (childEntry N s block.toCBlockHeader q).nStatus.haveData = false := rfl
      rw [hempty] at hdata
      simp at hdata
    · rw [hheader] at hr
      simp at hr
  · have hshape := receivedBlockTransactions_sameShape hreceived
    have hversion : block.toCBlockHeader.isProofOfStake = true ↔ POW_BLOCK_VERSION < block.nVersion := by
      unfold CBlockHeader.isProofOfStake
      rw [decide_eq_true_eq]
    constructor
    · intro hclass hlt
      rw [← hclass.agree]
      exact hversion.mpr hlt
    · intro hstake
      have hagree : block.toCBlockHeader.isProofOfStake = block.isProofOfStake := by
        by_cases hlt : POW_BLOCK_VERSION < block.nVersion
        · rw [hversion.mpr hlt, hstake hlt]
        · have hbody := checkBlock_unsigned hcheck.check (hwire (by omega))
          rw [hbody]
          by_contra hne
          rw [Bool.not_eq_false] at hne
          exact hlt (hversion.mp hne)
      refine ⟨hagree, fun hgenesis htime => ?_, fun hwork => ?_⟩
      · cases hbody : block.isProofOfStake with
        | true =>
          right
          obtain ⟨tx, htx, -⟩ := CBlock.isProofOfStake_iff.mp hbody
          simp [stakeCheckOf, hgenesis, hbody, htx]
        | false =>
          left
          have hwork : block.toCBlockHeader.isProofOfWork = true := by
            simp [CBlockHeader.isProofOfWork, hagree, hbody]
          exact ⟨hwork, checkBlockHeader_proofOfWork (checkBlock_ok hcheck.check).2.1 htime hwork⟩
      · have hwork' : block.toCBlockHeader.isProofOfWork = true := by
          unfold CBlock.isProofOfWork at hwork
          unfold CBlockHeader.isProofOfWork
          rw [hagree]
          exact hwork
        have hheight := acceptBlockHeader_height hinv hindexed hheader hwork'
        have hsame : s'.ht p = s₁.ht p := congrFun hshape.ht p
        rw [hsame]
        exact hheight

end

theorem acceptBlock_classified_iff_example : ∃ p s',
    acceptBlock Example.node Example.start (Example.nodeBlock 7000 200 1) = (.ok p, s') ∧
    Classified Example.node s' (Example.nodeBlock 7000 200 1) p := by
  have haccept := Example.eq_ok_state
    (by decide : (acceptBlock Example.node Example.start (Example.nodeBlock 7000 200 1)).1.toOption = some 1)
  exact ⟨1, _, haccept, (acceptBlock_classified_iff Example.reachable_start (by decide) (by decide)
    (by decide) haccept).mpr (by decide)⟩

namespace Example

/-- The node in March 2014, when proof-of-work is checked. -/
def laterNode : Node :=
  { node with world := fun _ => { env with nAdjustedTime := 1394100000 } }

def laterStart : NodeState :=
  left (initBlockIndex laterNode genesisBlock addresses 2)

/-- A version 3 block without a coinstake and with a proof-of-work hash far above its target. -/
def unpaidBlock : CBlock :=
  { nodeBlock 7000 1394100000 (2 ^ 250) with nVersion := 3 }

theorem reachable_laterStart : Reachable laterNode laterStart :=
  .init ⟨by decide, by decide, by decide⟩ (eq_some_left (by decide)) (by decide)

end Example

/-- A block that costs nothing is accepted: it counts as proof-of-stake where its proof-of-work would be checked, and
as proof-of-work where its kernel would be. -/
theorem acceptBlock_unpaidBlock : Reachable Example.laterNode Example.laterStart ∧
    Example.laterNode.P.skipProofOfWorkCheck = false ∧ Example.unpaidBlock.WireForm ∧ ∃ s',
    acceptBlock Example.laterNode Example.laterStart Example.unpaidBlock = (.ok 1, s') ∧
    s'.haveData 1 = true ∧
    Example.unpaidBlock.getHash Example.laterNode.C ≠ Example.laterNode.P.hashGenesisBlock ∧
    CHECK_POW_FROM_NTIME < Example.unpaidBlock.getBlockTime ∧
    checkProofOfWork Example.laterNode.P (Example.laterNode.C.powHash Example.unpaidBlock.toCBlockHeader)
      Example.unpaidBlock.nBits = false ∧
    stakeCheckOf Example.laterNode Example.unpaidBlock = none ∧
    ¬ Classified Example.laterNode s' Example.unpaidBlock 1 := by
  have haccept := Example.eq_ok_state
    (by decide : (acceptBlock Example.laterNode Example.laterStart Example.unpaidBlock).1.toOption = some 1)
  refine ⟨Example.reachable_laterStart, rfl, by decide, _, haccept, by decide, by decide, by decide,
    by decide, by decide, fun hclass => ?_⟩
  exact absurd hclass.agree (by decide)

end Reddcoin
