import Reddcoin.Index.Receive

/-!
# Accepting headers and blocks as moves

What `AcceptBlockHeader`, `ReceivedBlockTransactions` and `AcceptBlock` do to the state, also when they
fail.
-/

namespace Reddcoin

open List

open Forest (Anc)
open Relation (ReflTransGen)

variable {p : Ptr} {block : CBlock} {s s' : NodeState} {waiting : List Ptr} {hashProof : Uint256} {env : Env}
    {s' : NodeState} {s₁ : NodeState}

theorem Move.single {N : Node} (h : Move N s s') : Moves N s s' :=
  ReflTransGen.single h

section

variable {N : Node} {s : NodeState}

/-! ## Headers -/

/-- There is an entry for the genesis block. -/
theorem IndexInv.exists_genesis (hs : IndexInv N s) :
    ∃ g < s.size, s.par g = none ∧ (s.entry g).hash = N.P.hashGenesisBlock := by
  obtain ⟨t, ht, -⟩ := hs.flow.active
  obtain ⟨g, hg, hg0⟩ := hs.shape.tree.graded.exists_anc ht (Nat.zero_le _)
  have hgS := hs.shape.tree.graded.anc_mem ht hg
  have hroot : s.mapBlockIndex.par g = none := by
    cases h : s.mapBlockIndex.par g with
    | none => rfl
    | some x =>
      have := hs.shape.tree.graded.height hgS h
      omega
  exact ⟨g, hgS, hroot, hs.shape.genesis g hgS hroot⟩

theorem IndexInv.find_genesis (hs : IndexInv N s) :
    ∃ g, s.mapBlockIndex.find N.P.hashGenesisBlock = some g := by
  obtain ⟨g, hg, -, hhash⟩ := hs.exists_genesis
  refine ⟨g, ?_⟩
  rw [← hhash]
  exact hs.shape.find_eq hg

/-- A header is known already, or it is new and passed its checks, or nothing happens. -/
theorem acceptBlockHeader_cases (hs : IndexInv N s) (block : CBlockHeader) :
    (∃ p, s.mapBlockIndex.find (N.C.headerHash block) = some p ∧ s.failed p = false ∧
      acceptBlockHeader N s block = (.ok p, s)) ∨
    (∃ q, s.mapBlockIndex.find (N.C.headerHash block) = none ∧ s.mapBlockIndex.find block.hashPrevBlock = some q ∧
      checkBlockHeader N.P N.C (N.env s).nAdjustedTime block true = .ok () ∧
      checkHeaderOnParent N s block q = .ok () ∧
      acceptBlockHeader N s block = (.ok s.size, s.addEntry (childEntry N s block q))) ∨
    ∃ stop, acceptBlockHeader N s block = (.error stop, s) ∧
      ∀ p, s.mapBlockIndex.find (N.C.headerHash block) = some p → s.failed p = true := by
  cases hfind : s.mapBlockIndex.find (N.C.headerHash block) with
  | some p =>
    unfold acceptBlockHeader
    rw [hfind]
    by_cases hfailed : (s.entry p).failed = true
    · right
      right
      refine ⟨rejectInvalid 0 "duplicate", by simp only [hfailed, if_true], fun q hq => ?_⟩
      cases hq
      exact hfailed
    · left
      rw [Bool.not_eq_true] at hfailed
      exact ⟨p, rfl, hfailed, by simp only [hfailed, Bool.false_eq_true, if_false]⟩
  | none =>
    right
    have hgenesis : N.C.headerHash block ≠ N.P.hashGenesisBlock := by
      intro h
      obtain ⟨g, hg⟩ := hs.find_genesis
      rw [h, hg] at hfind
      simp at hfind
    unfold acceptBlockHeader
    rw [hfind]
    cases hcheck : checkNewHeader N s block with
    | error stop => exact .inr ⟨stop, by simp only, fun p hp => by simp at hp⟩
    | ok u =>
      cases u
      left
      simp only [checkNewHeader, check_seq_ok, onlyIf_eq_ok] at hcheck
      obtain ⟨hheader, hparent⟩ := hcheck
      have hparent := hparent (decide_eq_true hgenesis)
      cases hq : s.mapBlockIndex.find block.hashPrevBlock with
      | none =>
        rw [hq] at hparent
        simp at hparent
      | some q =>
        rw [hq] at hparent
        refine ⟨q, rfl, rfl, hheader, hparent, ?_⟩
        simp only [addToBlockIndex, hfind, hq]

/-- The height of a new proof-of-work header. -/
theorem checkHeaderOnParent_height {block : CBlockHeader} {q : Ptr}
    (h : checkHeaderOnParent N s block q = .ok ()) (hpow : block.nVersion ≤ POW_BLOCK_VERSION) :
    s.ht q + 1 ≤ N.P.lastProofOfWorkHeight := by
  simp only [checkHeaderOnParent, check_seq_ok, require_eq_ok] at h
  obtain ⟨-, hheight, -⟩ := h
  have hwork : block.isProofOfWork = true := by
    unfold CBlockHeader.isProofOfWork CBlockHeader.isProofOfStake
    simp only [Bool.not_eq_true', decide_eq_false_iff_not]
    omega
  rw [hwork] at hheight
  simp only [Bool.true_and, Bool.not_eq_true', decide_eq_false_iff_not] at hheight
  omega

theorem acceptBlockHeader_moves (hs : IndexInv N s) (block : CBlockHeader) :
    Moves N s (acceptBlockHeader N s block).2 := by
  rcases acceptBlockHeader_cases hs block with ⟨p, -, -, h⟩ | ⟨q, hnew, hq, -, hparent, h⟩ | ⟨stop, h, -⟩
  · rw [h]
  · rw [h]
    exact (Move.add hnew hq (checkHeaderOnParent_height hparent)).single
  · rw [h]

theorem acceptBlockHeader_ok (hs : IndexInv N s) {block : CBlockHeader}
    (h : acceptBlockHeader N s block = (.ok p, s')) :
    IndexInv N s' ∧ p < s'.size ∧ s'.failed p = false ∧ (s'.entry p).hash = N.C.headerHash block := by
  have hinv : IndexInv N s' := by
    have hmoves := acceptBlockHeader_moves hs block
    rw [h] at hmoves
    exact hmoves.inv hs
  refine ⟨hinv, ?_⟩
  rcases acceptBlockHeader_cases hs block with ⟨r, hfind, hfailed, hr⟩ | ⟨q, -, -, -, -, hr⟩ | ⟨stop, hr, -⟩
  · rw [h] at hr
    simp only [Prod.mk.injEq, Except.ok.injEq] at hr
    obtain ⟨rfl, rfl⟩ := hr
    obtain ⟨hsize, hhash⟩ := BlockMap.find_eq_some hfind
    exact ⟨hsize, hfailed, hhash⟩
  · rw [h] at hr
    simp only [Prod.mk.injEq, Except.ok.injEq] at hr
    obtain ⟨rfl, rfl⟩ := hr
    have he := addEntry_entry_new s (childEntry N s block q)
    refine ⟨Nat.lt_succ_self _, ?_, ?_⟩
    · unfold NodeState.failed
      rw [he]
      rfl
    · rw [he]
      rfl
  · rw [h] at hr
    simp at hr

/-! ## The queue of `ReceivedBlockTransactions` -/

/-- What holds of the entries in the queue: they have their data, their parents are linked, and they are
not linked yet. -/
structure QueueInv (s : NodeState) (queue : List Ptr) : Prop where
  nodup : queue.Nodup
  size : ∀ c ∈ queue, c < s.size
  data : ∀ c ∈ queue, s.haveData c = true
  unlinked : ∀ c ∈ queue, s.linked c = false
  parent : ∀ c ∈ queue, ∀ q, s.par c = some q → s.linked q = true
  drained : ∀ c ∈ queue, ∀ w ∈ s.mapBlocksUnlinked, w.2 ≠ c

/-- What a turn of the queue that passes its checks has done: the entry `p` is linked, is a candidate
unless it is worse than the tip, and the entries that wait for it are taken from the map. -/
structure LinkedBy (s : NodeState) (p : Ptr) (waiting : List Ptr) (s' : NodeState) : Prop where
  shape : s.mapBlockIndex.SameShape s'.mapBlockIndex
  received : ∀ q, (s'.entry q).received = (s.entry q).received
  nStatus : ∀ q, (s'.entry q).nStatus = (s.entry q).nStatus
  nTx : ∀ q, (s'.entry q).nTx = (s.entry q).nTx
  fProofOfStake : ∀ q, (s'.entry q).fProofOfStake = (s.entry q).fProofOfStake
  nChainTx : ∀ q, q ≠ p → (s'.entry q).nChainTx = (s.entry q).nChainTx
  nSequenceId : ∀ q, q ≠ p → (s'.entry q).nSequenceId = (s.entry q).nSequenceId
  chainTx : (s'.entry p).nChainTx = s.chainTx p
  addresses : s'.addresses = s.addresses
  chainActive : s'.chainActive = s.chainActive
  candidates : ∀ q, q ∈ s'.setBlockIndexCandidates ↔ q ∈ s.setBlockIndexCandidates ∨
    (q = p ∧ ∀ t, s.tip = some t → s'.worse p t = false)
  unlinked : s'.mapBlocksUnlinked = s.mapBlocksUnlinked.filter fun w => decide (w.1 ≠ p)
  waiting : waiting = s.waitingFor p
  blockFile : s'.blockFile = s.blockFile
  dirty : s'.setDirtyBlockIndex = s.setDirtyBlockIndex
  reversedVerdicts : s'.reversedVerdicts = s.reversedVerdicts
  now : s'.now = s.now

/-- A turn fails in one of its checks, or it passes them all. -/
theorem linkEntry_cases (N : Node) (env : Env) (hashProof : Uint256) (block : CBlock) (s : NodeState)
    (p : Ptr) :
    (∃ stop, linkEntry N env hashProof block s p = (.error stop, s.link p)) ∨
    ∃ s₁, recordProofHash N hashProof block (s.link p) p = some s₁ ∧
      ((∃ stop, linkEntry N env hashProof block s p = (.error stop, s₁)) ∨
      ∃ m g, s₁.computeNextStakeModifier N.C (s₁.par p) = some (m, g) ∧ ((∃ stop, linkEntry N env hashProof block s p =
          (.error stop, s₁.setQueued p (CBlockIndex.setStakeModifier m g))) ∨
        linkEntry N env hashProof block s p = (.ok ((s₁.setQueued p (CBlockIndex.setStakeModifier m g)).waitingFor p),
            ((s₁.setQueued p (CBlockIndex.setStakeModifier m g)).offerCandidate p).drain p))) := by
  cases hrecord : recordProofHash N hashProof block (s.link p) p with
  | none =>
    left
    simp only [linkEntry, hrecord]
    exact ⟨_, rfl⟩
  | some s₁ =>
    refine .inr ⟨s₁, rfl, ?_⟩
    cases hmodifier : s₁.computeNextStakeModifier N.C (s₁.par p) with
    | none =>
      left
      simp only [linkEntry, hrecord, hmodifier]
      exact ⟨_, rfl⟩
    | some mg =>
      refine .inr ⟨mg.1, mg.2, rfl, ?_⟩
      by_cases hcheck : env.checkStakeModifierCheckpoints p = true
      · right
        simp only [linkEntry, hrecord, hmodifier, hcheck, Bool.not_true, Bool.false_eq_true, if_false]
      · left
        rw [Bool.not_eq_true] at hcheck
        simp only [linkEntry, hrecord, hmodifier, hcheck, Bool.not_false, if_true]
        exact ⟨_, rfl⟩

theorem recordStakeCheck_moves (N : Node) (block : CBlock) (s : NodeState) :
    Moves N s (s.recordStakeCheck N block) :=
  (Move.chain (.note s _ _ _ _)).single

theorem setQueued_moves {f : CBlockIndex → CBlockIndex} (N : Node) (s : NodeState) (p : Ptr)
    (same : ∀ e, CBlockIndex.SameButStake e (f e))
    (proof : ∀ e, (f e).hashProof = e.hashProof ∨ (f e).hashProof = 0) : Moves N s (s.setQueued p f) := by
  obtain ⟨hmoves, hnoted⟩ := noteQuiet_moves s .drained p f
  exact hmoves.moves.tail (.stake p same proof hnoted)

theorem setHashProof_same (hash : Uint256) (e : CBlockIndex) :
    CBlockIndex.SameButStake e (e.setHashProof hash) :=
  rfl

theorem setStakeModifier_same (m : Nat) (g : Bool) (e : CBlockIndex) :
    CBlockIndex.SameButStake e (e.setStakeModifier m g) :=
  rfl

/-- Without a proof hash from the caller, the entry gets 0 once `VerifyHashTarget` has passed. -/
theorem recordProofHash_zero (h : recordProofHash N 0 block s p = some s₁) :
    (computeProofHash N s block).isSome ∧
      s₁ = (s.recordStakeCheck N block).setQueued p (CBlockIndex.setHashProof 0) := by
  unfold recordProofHash at h
  rw [if_pos rfl] at h
  obtain ⟨hash, hverify, rfl⟩ := Option.map_eq_some_iff.mp h
  unfold verifyHashTarget at hverify
  obtain ⟨proof, hproof, rfl⟩ := Option.map_eq_some_iff.mp hverify
  exact ⟨by rw [hproof]; rfl, rfl⟩

/-- Whatever the proof hash, only the stake fields of the entry change. -/
structure Staked (s s₁ : NodeState) (p : Ptr) : Prop where
  entry : ∀ q, CBlockIndex.SameButStake (s.entry q) (s₁.entry q)
  ne : ∀ q, q ≠ p → s₁.entry q = s.entry q
  size : s₁.size = s.size
  addresses : s₁.addresses = s.addresses
  chainActive : s₁.chainActive = s.chainActive
  candidates : s₁.setBlockIndexCandidates = s.setBlockIndexCandidates
  unlinked : s₁.mapBlocksUnlinked = s.mapBlocksUnlinked
  blockFile : s₁.blockFile = s.blockFile
  dirty : s₁.setDirtyBlockIndex = s.setDirtyBlockIndex
  reversedVerdicts : s₁.reversedVerdicts = s.reversedVerdicts
  now : s₁.now = s.now

theorem Staked.trans {s₀ s₁ s₂ : NodeState} (h : Staked s₀ s₁ p) (h' : Staked s₁ s₂ p) : Staked s₀ s₂ p where
  entry q := (h.entry q).trans (h'.entry q)
  ne q hq := (h'.ne q hq).trans (h.ne q hq)
  size := h'.size.trans h.size
  addresses := h'.addresses.trans h.addresses
  chainActive := h'.chainActive.trans h.chainActive
  candidates := h'.candidates.trans h.candidates
  unlinked := h'.unlinked.trans h.unlinked
  blockFile := h'.blockFile.trans h.blockFile
  dirty := h'.dirty.trans h.dirty
  reversedVerdicts := h'.reversedVerdicts.trans h.reversedVerdicts
  now := h'.now.trans h.now

theorem setQueued_staked {f : CBlockIndex → CBlockIndex} (s : NodeState) (p : Ptr)
    (same : ∀ e, CBlockIndex.SameButStake e (f e)) : Staked s (s.setQueued p f) p where
  entry q := by
    by_cases hq : q = p
    · rw [hq]
      exact (congrArg (CBlockIndex.SameButStake (s.entry p)) (entry_modify_self _ p f)).mpr (same _)
    · rw [show (s.setQueued p f).entry q = s.entry q from entry_modify_ne hq]
      exact .refl _
  ne q hq := entry_modify_ne hq
  size := rfl
  addresses := rfl
  chainActive := rfl
  candidates := rfl
  unlinked := rfl
  blockFile := rfl
  dirty := rfl
  reversedVerdicts := rfl
  now := rfl

theorem recordStakeCheck_staked (block : CBlock) (s : NodeState) (p : Ptr) :
    Staked s (s.recordStakeCheck N block) p :=
  ⟨fun _ => .refl _, fun _ _ => rfl, rfl, rfl, rfl, rfl, rfl, rfl, rfl, rfl, rfl⟩

theorem recordProofHash_staked (h : recordProofHash N hashProof block s p = some s₁) : Staked s s₁ p := by
  unfold recordProofHash at h
  split_ifs at h with hzero
  · obtain ⟨hash, -, rfl⟩ := Option.map_eq_some_iff.mp h
    exact (recordStakeCheck_staked block s p).trans (setQueued_staked _ p (setHashProof_same hash))
  · cases h
    exact setQueued_staked _ p (setHashProof_same hashProof)

theorem offerCandidate_moves (hp : p < s.size) (hlinked : s.linked p) : Moves N s (s.offerCandidate p) := by
  unfold NodeState.offerCandidate
  split_ifs
  · exact .refl
  · exact (Move.user (.insert hp hlinked)).single

theorem mem_insertCandidate {p q : Ptr} :
    q ∈ (s.insertCandidate p).setBlockIndexCandidates ↔ q = p ∨ q ∈ s.setBlockIndexCandidates := by
  simp only [NodeState.insertCandidate]
  split_ifs with hmem
  · constructor
    · exact .inr
    · rintro (rfl | h)
      · exact hmem
      · exact h
  · exact mem_cons

theorem mem_offerCandidate {p q : Ptr} :
    q ∈ (s.offerCandidate p).setBlockIndexCandidates ↔ q ∈ s.setBlockIndexCandidates ∨
      (q = p ∧ ∀ t, s.tip = some t → s.worse p t = false) := by
  unfold NodeState.offerCandidate
  cases htip : s.tip with
  | none =>
    simp only [Bool.false_eq_true, if_false]
    rw [mem_insertCandidate]
    simp [or_comm]
  | some t =>
    simp only
    split_ifs with hworse
    · simp [hworse]
    · rw [mem_insertCandidate]
      simp [hworse, or_comm]

/-- The comparison of two entries, where both states hold the same data about them. -/
theorem worse_congr {a b : Ptr} (haddr : s'.addresses = s.addresses)
    (ha : (s'.entry a).nChainWork = (s.entry a).nChainWork)
    (hb : (s'.entry b).nChainWork = (s.entry b).nChainWork)
    (hsa : (s'.entry a).nSequenceId = (s.entry a).nSequenceId)
    (hsb : (s'.entry b).nSequenceId = (s.entry b).nSequenceId) : s'.worse a b = s.worse a b := by
  unfold NodeState.entry at ha hb hsa hsb
  unfold NodeState.worse worse
  simp only [haddr, ha, hb, hsa, hsb]

/-- A turn that passes its checks has recorded the proof hash and the modifier of the entry. -/
theorem linkEntry_ok (h : linkEntry N env hashProof block s p = (.ok waiting, s')) :
    LinkedBy s p waiting s' ∧ ∃ s₁ m g, recordProofHash N hashProof block (s.link p) p = some s₁ ∧
        s₁.computeNextStakeModifier N.C (s₁.par p) = some (m, g) ∧
        s' = ((s₁.setQueued p (CBlockIndex.setStakeModifier m g)).offerCandidate p).drain p := by
  rcases linkEntry_cases N env hashProof block s p with
    ⟨stop, h'⟩ | ⟨s₁, hrecord, ⟨stop, h'⟩ | ⟨m, g, hmodifier, ⟨stop, h'⟩ | h'⟩⟩
  · simp [h'] at h
  · simp [h'] at h
  · simp [h'] at h
  rw [h'] at h
  simp only [Prod.mk.injEq, Except.ok.injEq] at h
  obtain ⟨rfl, rfl⟩ := h
  refine ⟨?_, s₁, m, g, hrecord, hmodifier, rfl⟩
  have hst : Staked (s.link p) (s₁.setQueued p (CBlockIndex.setStakeModifier m g)) p :=
    (recordProofHash_staked hrecord).trans (setQueued_staked _ p (setStakeModifier_same m g))
  have hentry : ∀ q, CBlockIndex.SameButStake ((s.link p).entry q)
      ((((s₁.setQueued p (CBlockIndex.setStakeModifier m g)).offerCandidate p).drain p).entry q) := hst.entry
  have htip : (s₁.setQueued p (CBlockIndex.setStakeModifier m g)).tip = s.tip :=
    congrArg CChain.tip hst.chainActive
  have hlink : ∀ q, ((s.link p).entry q).received = (s.entry q).received := by
    intro q
    by_cases hq : q = p
    · rw [hq, link_entry_self]
      rfl
    · rw [link_entry_ne hq]
  refine ⟨⟨hst.size, fun q => (hentry q).shape.trans (link_sameShape.shape q)⟩,
    fun q => (hentry q).received.trans (hlink q), fun q => (hentry q).nStatus.trans (link_nStatus q),
    fun q => (hentry q).nTx.trans (link_nTx q),
    fun q => ?_, fun q hq => ?_, fun q hq => ?_, ?_, hst.addresses, hst.chainActive, fun q => ?_, ?_, ?_,
    hst.blockFile, hst.dirty, hst.reversedVerdicts, hst.now⟩
  · refine (hentry q).fProofOfStake.trans ?_
    by_cases hq : q = p
    · rw [hq, link_entry_self]
    · rw [link_entry_ne hq]
  · rw [(hentry q).nChainTx, link_entry_ne hq]
  · rw [(hentry q).nSequenceId, link_entry_ne hq]
  · rw [(hentry p).nChainTx, link_entry_self]
  · show q ∈ ((s₁.setQueued p (CBlockIndex.setStakeModifier m g)).offerCandidate p).setBlockIndexCandidates ↔ _
    rw [mem_offerCandidate, hst.candidates, htip]
    rfl
  · show (s₁.setQueued p (CBlockIndex.setStakeModifier m g)).mapBlocksUnlinked.filter _ = _
    rw [hst.unlinked]
    rfl
  · show ((s₁.setQueued p (CBlockIndex.setStakeModifier m g)).mapBlocksUnlinked.filter _).map _ = _
    rw [hst.unlinked]
    rfl

/-- What is recorded is the proof hash that was given, or else 0. -/
theorem recordProofHash_entry (h : recordProofHash N hashProof block s p = some s₁) :
    s₁.entry p = (s.entry p).setHashProof hashProof := by
  by_cases hzero : hashProof = 0
  · subst hzero
    obtain ⟨-, rfl⟩ := recordProofHash_zero h
    exact entry_modify_self _ p _
  · unfold recordProofHash at h
    rw [if_neg hzero] at h
    cases h
    exact entry_modify_self _ p _

/-- The entries after a turn that passes its checks. -/
theorem linkEntry_entry (h : linkEntry N env hashProof block s p = (.ok waiting, s')) :
    ∃ s₁ m f, recordProofHash N hashProof block (s.link p) p = some s₁ ∧
      s₁.computeNextStakeModifier N.C (s₁.par p) = some (m, f) ∧
      s'.entry p = (((s.link p).entry p).setHashProof hashProof).setStakeModifier m f ∧
      ∀ q, q ≠ p → s'.entry q = s.entry q ∧ s₁.entry q = s.entry q := by
  obtain ⟨-, s₁, m, f, hrecord, hmodifier, rfl⟩ := linkEntry_ok h
  have hother : ∀ q, q ≠ p → s₁.entry q = s.entry q := fun q hq =>
    ((recordProofHash_staked hrecord).ne q hq).trans (link_entry_ne hq)
  refine ⟨s₁, m, f, hrecord, hmodifier, ?_, fun q hq => ⟨?_, hother q hq⟩⟩
  · rw [← recordProofHash_entry hrecord]
    exact entry_modify_self _ p _
  · exact (entry_modify_ne hq).trans (hother q hq)

theorem LinkedBy.linked_ne {p q : Ptr} (h : LinkedBy s p waiting s') (hq : q ≠ p) : s'.linked q = s.linked q := by
  unfold NodeState.linked CBlockIndex.linked
  rw [h.nChainTx q hq]

theorem LinkedBy.haveData (h : LinkedBy s p waiting s') (q : Ptr) : s'.haveData q = s.haveData q :=
  congrArg BlockStatus.haveData (h.nStatus q)

theorem LinkedBy.failed (h : LinkedBy s p waiting s') (q : Ptr) : s'.failed q = s.failed q :=
  congrArg BlockStatus.failed (h.nStatus q)

theorem LinkedBy.linked_self (h : LinkedBy s p waiting s') (htx : 0 < (s.entry p).nTx) : s'.linked p = true := by
  unfold NodeState.linked
  refine decide_eq_true ?_
  rw [h.chainTx]
  unfold NodeState.chainTx
  omega

theorem mem_waitingFor {s : NodeState} {p c : Ptr} :
    c ∈ s.waitingFor p ↔ (p, c) ∈ s.mapBlocksUnlinked := by
  unfold NodeState.waitingFor
  rw [mem_map]
  constructor
  · rintro ⟨w, hw, rfl⟩
    obtain ⟨hmem, heq⟩ := mem_filter.mp hw
    obtain rfl : w.1 = p := of_decide_eq_true heq
    exact hmem
  · intro h
    exact ⟨(p, c), mem_filter.mpr ⟨h, decide_eq_true rfl⟩, rfl⟩

theorem nodup_waitingFor {s : NodeState} (h : s.mapBlocksUnlinked.Nodup) (p : Ptr) :
    (s.waitingFor p).Nodup := by
  refine List.Nodup.map_on ?_ (h.filter _)
  intro x hx y hy heq
  have hx' : x.1 = p := of_decide_eq_true (mem_filter.mp hx).2
  have hy' : y.1 = p := of_decide_eq_true (mem_filter.mp hy).2
  exact Prod.ext (hx'.trans hy'.symm) heq

section

variable (hs : IndexInv N s) {env : Env} {block : CBlock} {p : Ptr} {queue : List Ptr}
  (hqueue : QueueInv s (p :: queue))

include hs hqueue

omit hs in
/-- The entry at the front of the queue is linked by a move. -/
theorem QueueInv.link_move : Move N s (s.link p) := by
  have hmem : p ∈ p :: queue := mem_cons_self
  exact Move.link (hqueue.size p hmem) (hqueue.data p hmem) (hqueue.unlinked p hmem)
    (hqueue.parent p hmem) (hqueue.drained p hmem)

omit hs in
theorem recordProofHash_moves {s₁ : NodeState}
    (h : recordProofHash N 0 block (s.link p) p = some s₁) : Moves N s s₁ := by
  obtain ⟨-, rfl⟩ := recordProofHash_zero h
  exact (hqueue.link_move.single.trans (recordStakeCheck_moves N block _)).trans
    (setQueued_moves N _ p (setHashProof_same 0) fun _ => .inr rfl)

theorem linkEntry_moves : Moves N s (linkEntry N env 0 block s p).2 := by
  have hlink := hqueue.link_move.single (N := N)
  have hmodified : ∀ s₁ m g, recordProofHash N 0 block (s.link p) p = some s₁ →
      Moves N s (s₁.setQueued p (CBlockIndex.setStakeModifier m g)) := by
    intro s₁ m g h
    exact (recordProofHash_moves hqueue h).trans (setQueued_moves N _ p (setStakeModifier_same m g) fun _ => .inl rfl)
  rcases linkEntry_cases N env 0 block s p with
    ⟨stop, h⟩ | ⟨s₁, hrecord, ⟨stop, h⟩ | ⟨m, g, -, ⟨stop, h⟩ | h⟩⟩
  · rw [h]
    exact hlink
  · rw [h]
    exact recordProofHash_moves hqueue hrecord
  · rw [h]
    exact hmodified s₁ m g hrecord
  · rw [h]
    have hmem : p ∈ p :: queue := mem_cons_self
    have hp := hqueue.size p hmem
    have hst : Staked (s.link p) (s₁.setQueued p (CBlockIndex.setStakeModifier m g)) p :=
      (recordProofHash_staked hrecord).trans (setQueued_staked _ p (setStakeModifier_same m g))
    have hsize : p < (s₁.setQueued p (CBlockIndex.setStakeModifier m g)).size := by
      rw [hst.size]
      exact hp
    have hlinked : (s₁.setQueued p (CBlockIndex.setStakeModifier m g)).linked p = true := by
      unfold NodeState.linked CBlockIndex.linked
      rw [(hst.entry p).nChainTx]
      exact link_linked_self ((hs.flow.data_tx p hp).mp (hqueue.data p hmem))
    exact ((hmodified s₁ m g hrecord).trans (offerCandidate_moves hsize hlinked)).tail (.drain _ p)

/-- A turn that passes its checks leaves a queue of which the same holds. -/
theorem QueueInv.step (h : LinkedBy s p waiting s') : QueueInv s' (queue ++ waiting) := by
  have hmem : p ∈ p :: queue := mem_cons_self
  have hself := h.linked_self ((hs.flow.data_tx p (hqueue.size p hmem)).mp (hqueue.data p hmem))
  have hpar : s'.par = s.par := h.shape.par
  have hmono : ∀ q, s.linked q = true → s'.linked q = true := by
    intro q hq
    by_cases hqp : q = p
    · rw [hqp]
      exact hself
    · rw [h.linked_ne hqp]
      exact hq
  have hcases : ∀ c ∈ queue ++ waiting, c ≠ p ∧ (c ∈ queue ∨ (p, c) ∈ s.mapBlocksUnlinked) := by
    intro c hc
    rcases mem_append.mp hc with hc | hc
    · exact ⟨fun heq => (nodup_cons.mp hqueue.nodup).1 (heq ▸ hc), .inl hc⟩
    · rw [h.waiting, mem_waitingFor] at hc
      exact ⟨hqueue.drained p hmem (p, c) hc, .inr hc⟩
  refine ⟨?_, ?_, ?_, ?_, ?_, ?_⟩
  · refine (nodup_cons.mp hqueue.nodup).2.append ?_ ?_
    · rw [h.waiting]
      exact nodup_waitingFor hs.flow.unlinked_nodup p
    · intro c hc hc'
      rw [h.waiting, mem_waitingFor] at hc'
      exact hqueue.drained c (mem_cons_of_mem _ hc) (p, c) hc' rfl
  · intro c hc
    show c < s'.mapBlockIndex.size
    rw [h.shape.size]
    rcases (hcases c hc).2 with hc | hc
    · exact hqueue.size c (mem_cons_of_mem _ hc)
    · exact (hs.flow.unlinked (p, c) hc).1
  · intro c hc
    rw [h.haveData]
    rcases (hcases c hc).2 with hc | hc
    · exact hqueue.data c (mem_cons_of_mem _ hc)
    · exact (hs.flow.unlinked (p, c) hc).2.2.1
  · intro c hc
    rw [h.linked_ne (hcases c hc).1]
    rcases (hcases c hc).2 with hc | hc
    · exact hqueue.unlinked c (mem_cons_of_mem _ hc)
    · exact (hs.flow.unlinked (p, c) hc).2.2.2
  · intro c hc q hq
    rw [hpar] at hq
    rcases (hcases c hc).2 with hc | hc
    · exact hmono q (hqueue.parent c (mem_cons_of_mem _ hc) q hq)
    · have hparent := (hs.flow.unlinked (p, c) hc).2.1
      cases hparent.symm.trans hq
      exact hself
  · intro c hc w hw heq
    rw [h.unlinked] at hw
    obtain ⟨hw, hne⟩ := mem_filter.mp hw
    rcases (hcases c hc).2 with hc | hc
    · exact hqueue.drained c (mem_cons_of_mem _ hc) w hw heq
    · have hw' := (hs.flow.unlinked w hw).2.1
      rw [heq, (hs.flow.unlinked (p, c) hc).2.1] at hw'
      exact of_decide_eq_true hne (Option.some.inj hw').symm

end

theorem linkQueue_moves (turns : Nat) {queue : List Ptr} (hs : IndexInv N s) (hqueue : QueueInv s queue) :
    Moves N s (linkQueue N env 0 block turns s queue).2 := by
  induction turns generalizing s queue with
  | zero => exact .refl
  | succ turns ih =>
    cases queue with
    | nil => exact .refl
    | cons p queue =>
      have hmoves : Moves N s (linkEntry N env 0 block s p).2 := linkEntry_moves hs hqueue
      rw [linkQueue]
      cases h : linkEntry N env 0 block s p with
      | mk r s' =>
        rw [h] at hmoves
        cases r with
        | error stop => exact hmoves
        | ok waiting =>
          refine hmoves.trans (ih (hmoves.inv hs) ?_)
          exact hqueue.step hs (linkEntry_ok h).1

/-- What each turn keeps holds at the end of a queue that is worked off without a failure.  The bound on
the turns is never reached: each takes an entry from the queue or from the map. -/
theorem linkQueue_ok {Q : NodeState → List Ptr → Prop}
    (step : ∀ s p queue waiting s', Q s (p :: queue) → LinkedBy s p waiting s' →
      linkEntry N env hashProof block s p = (.ok waiting, s') → Q s' (queue ++ waiting))
    {turns : Nat} {queue : List Ptr} (hturns : queue.length + s.mapBlocksUnlinked.length ≤ turns) (hQ : Q s queue)
    (h : linkQueue N env hashProof block turns s queue = (.ok (), s')) : Q s' [] := by
  induction turns generalizing s queue with
  | zero =>
    cases queue with
    | nil =>
      obtain rfl : s = s' := by simpa [linkQueue] using h
      exact hQ
    | cons p queue => simp at hturns
  | succ turns ih =>
    cases queue with
    | nil =>
      obtain rfl : s = s' := by simpa [linkQueue] using h
      exact hQ
    | cons p queue =>
      rw [linkQueue] at h
      cases hentry : linkEntry N env hashProof block s p with
      | mk r s₁ =>
        rw [hentry] at h
        cases r with
        | error stop => simp at h
        | ok waiting =>
          have hlinked := (linkEntry_ok hentry).1
          refine ih ?_ (step s p queue waiting s₁ hQ hlinked hentry) h
          have hpart := length_eq_length_filter_add (l := s.mapBlocksUnlinked)
            fun w => decide (w.1 = p)
          have hwaiting : waiting.length = (s.mapBlocksUnlinked.filter fun w => decide (w.1 = p)).length := by
            rw [hlinked.waiting]
            exact length_map _
          have hrest : s₁.mapBlocksUnlinked.length =
              (s.mapBlocksUnlinked.filter fun w => !decide (w.1 = p)).length := by
            rw [hlinked.unlinked]
            simp
          rw [length_append]
          rw [length_cons] at hturns
          omega

/-! ## Blocks -/

/-- The entry of a block that was just stored starts a queue. -/
theorem QueueInv.start (hs : IndexInv N s) (hp : p < s.size) (hempty : s.haveData p = false)
    (hparent : ∀ q, s.par p = some q → s.linked q) :
    QueueInv (receiveData N s block p) [p] := by
  refine ⟨nodup_singleton p, ?_, ?_, ?_, ?_, ?_⟩
  · intro c hc
    rw [mem_singleton.mp hc]
    exact hp
  · intro c hc
    rw [mem_singleton.mp hc, receiveData_haveData]
    simp
  · intro c hc
    rw [mem_singleton.mp hc]
    exact receiveData_linked_self
  · intro c hc q hq
    rw [mem_singleton.mp hc] at hq
    have hq : s.par p = some q := (congrFun receiveData_sameShape.par p).symm.trans hq
    have hne := hs.shape.tree.graded.parent_ne hp hq
    rw [receiveData_linked_ne hne]
    exact hparent q hq
  · intro c hc w hw heq
    rw [mem_singleton.mp hc] at heq
    have hdata := (hs.flow.unlinked w hw).2.2.1
    rw [heq, hempty] at hdata
    simp at hdata

/-- The state in which `ReceivedBlockTransactions` leaves a block that cannot be linked yet. -/
def NodeState.waitFor (s : NodeState) (q p : Ptr) : NodeState :=
  { s with mapBlocksUnlinked := s.mapBlocksUnlinked ++ [(q, p)] }

/-- A block is linked with everything that waits for it, or it waits itself, or is left alone because
its parent is marked failed. -/
theorem receivedBlockTransactions_cases (N : Node) (env : Env) (hashProof : Uint256) (s : NodeState)
    (block : CBlock) (p : Ptr) :
    ((∀ q, s.par p = some q → (receiveData N s block p).linked q) ∧
      receivedBlockTransactions N env hashProof s block p =
        linkQueue N env hashProof block (s.mapBlocksUnlinked.length + 1) (receiveData N s block p) [p]) ∨
    ∃ q, s.par p = some q ∧ (receiveData N s block p).linked q = false ∧
      (((receiveData N s block p).failed q = false ∧ receivedBlockTransactions N env hashProof s block p =
          (.ok (), (receiveData N s block p).waitFor q p)) ∨
        (((receiveData N s block p).entry q).isValid BLOCK_VALID_TREE = false ∧
          receivedBlockTransactions N env hashProof s block p = (.ok (), receiveData N s block p))) := by
  have hpar : (receiveData N s block p).par p = s.par p := congrFun receiveData_sameShape.par p
  unfold receivedBlockTransactions
  simp only [hpar]
  cases h : s.par p with
  | none => exact .inl ⟨fun q hq => by simp at hq, rfl⟩
  | some q =>
    simp only
    by_cases hlinked : ((receiveData N s block p).entry q).linked = true
    · left
      refine ⟨fun r hr => ?_, ?_⟩
      · cases hr
        exact hlinked
      · rw [if_pos hlinked]
        rfl
    · right
      rw [if_neg hlinked]
      rw [Bool.not_eq_true] at hlinked
      refine ⟨q, rfl, hlinked, ?_⟩
      by_cases hvalid : ((receiveData N s block p).entry q).isValid BLOCK_VALID_TREE = true
      · left
        rw [if_pos hvalid]
        refine ⟨?_, rfl⟩
        simp only [CBlockIndex.isValid, BlockStatus.isValid, Bool.and_eq_true, Bool.not_eq_true'] at hvalid
        exact hvalid.1
      · right
        rw [if_neg hvalid]
        rw [Bool.not_eq_true] at hvalid
        exact ⟨hvalid, rfl⟩

theorem receivedBlockTransactions_moves (hs : IndexInv N s) (hp : p < s.size) (hempty : s.haveData p = false)
    (hvalid : s.failed p = false)
    (htxs : block.vtx ≠ []) (hhash : block.getHash N.C = (s.entry p).hash) :
    Moves N s (receivedBlockTransactions N env 0 s block p).2 := by
  have hmove : Move N s (receiveData N s block p) := .receive hp hempty hvalid htxs hhash
  have hs' := hmove.inv hs
  rcases receivedBlockTransactions_cases N env 0 s block p with
    ⟨hparent, h⟩ | ⟨q, hpar, -, ⟨-, h⟩ | ⟨-, h⟩⟩
  · rw [h]
    refine hmove.single.trans (linkQueue_moves _ hs' (QueueInv.start hs hp hempty fun q hq => ?_))
    have hne := hs.shape.tree.graded.parent_ne hp hq
    have hsame : (receiveData N s block p).linked q = s.linked q := receiveData_linked_ne hne
    rw [← hsame]
    exact hparent q hq
  · rw [h]
    refine hmove.single.tail (.wait hp ?_ ?_ receiveData_linked_self ?_)
    · exact (congrFun receiveData_sameShape.par p).trans hpar
    · rw [receiveData_haveData]
      simp
    · intro w hw heq
      have hdata := (hs.flow.unlinked w hw).2.2.1
      rw [heq, hempty] at hdata
      simp at hdata
  · rw [h]
    exact hmove.single

/-- The checks of `AcceptBlock` before `ReceivedBlockTransactions` pass. -/
structure Receivable (N : Node) (s : NodeState) (block : CBlock) (p : Ptr) : Prop where
  check : checkBlock N.P N.C (N.env s).nAdjustedTime block true true true = .ok ()
  final : (block.vtx.all fun tx => isFinalTx s (N.env s) tx (s.ht p) block.getBlockTime) = true
  dev : checkDevTx N s block p = .ok ()
  canWrite : (N.env s).canWrite = true

/-- How `AcceptBlock` goes on with a block that is not stored yet. -/
theorem acceptBlockData_cases (N : Node) (s : NodeState) (block : CBlock) (p : Ptr) :
    (∃ stop, acceptBlockData N s block p = (.error stop, s)) ∨
    (∃ stop, acceptBlockData N s block p =
      (.error stop, (s.noteQuiet .nonFinal p CBlockIndex.failValid).failValid p)) ∨
    (∃ stop, acceptBlockData N s block p = (.error stop, (s.failValid p).setDirty p)) ∨
    (Receivable N s block p ∧ acceptBlockData N s block p = receivedBlockTransactions N (N.env s) 0 s block p) := by
  simp only [acceptBlockData]
  cases hcheck : checkBlock N.P N.C (N.env s).nAdjustedTime block true true true with
  | error stop =>
    cases stop with
    | crashes => exact .inl ⟨_, rfl⟩
    | returns st =>
      simp only [failCheckedBlock]
      split_ifs
      · exact .inr (.inr (.inl ⟨_, rfl⟩))
      · exact .inl ⟨_, rfl⟩
  | ok u =>
    cases hdev : checkDevTx N s block p with
    | error stop =>
      simp only
      split_ifs
      · exact .inr (.inl ⟨_, rfl⟩)
      · exact .inl ⟨_, rfl⟩
    | ok u =>
      simp only
      split_ifs with hfinal hwrite
      · exact .inr (.inl ⟨_, rfl⟩)
      · exact .inl ⟨_, rfl⟩
      · rw [Bool.not_eq_true', Bool.not_eq_false] at hfinal hwrite
        exact .inr (.inr (.inr ⟨⟨hcheck, hfinal, hdev, hwrite⟩, rfl⟩))

theorem acceptBlockData_moves (hs : IndexInv N s) (hp : p < s.size)
    (hempty : s.haveData p = false) (hvalid : s.failed p = false)
    (hhash : block.getHash N.C = (s.entry p).hash) : Moves N s (acceptBlockData N s block p).2 := by
  rcases acceptBlockData_cases N s block p with ⟨stop, h⟩ | ⟨stop, h⟩ | ⟨stop, h⟩ | ⟨hcheck, h⟩
  · rw [h]
  · rw [h]
    obtain ⟨hmoves, hnoted⟩ := noteQuiet_moves s .nonFinal p CBlockIndex.failValid
    exact hmoves.moves.tail (.failQuiet hp hempty hnoted)
  · rw [h]
    exact (Move.failEmpty hp hempty).single
  · rw [h]
    obtain ⟨cb, rest, hvtx, -⟩ := (checkBlock_ok hcheck.check).1.coinbase
    exact receivedBlockTransactions_moves hs hp hempty hvalid (by simp [hvtx]) hhash

/-- The state of `AcceptBlock` is that of its two parts. -/
theorem acceptBlock_cases (N : Node) (s : NodeState) (block : CBlock) :
    (∃ stop, acceptBlockHeader N s block.toCBlockHeader = (.error stop, (acceptBlock N s block).2) ∧
      (acceptBlock N s block).1 = .error stop) ∨
    ∃ p s₁, acceptBlockHeader N s block.toCBlockHeader = (.ok p, s₁) ∧
      ((s₁.haveData p ∧ acceptBlock N s block = (.ok p, s₁)) ∨
        (s₁.haveData p = false ∧ (acceptBlock N s block).2 = (acceptBlockData N s₁ block p).2 ∧
          (acceptBlock N s block).1 = (acceptBlockData N s₁ block p).1.map fun _ => p)) := by
  unfold acceptBlock
  cases h : acceptBlockHeader N s block.toCBlockHeader with
  | mk r s₁ =>
    cases r with
    | error stop => exact .inl ⟨stop, rfl, rfl⟩
    | ok p =>
      right
      refine ⟨p, s₁, rfl, ?_⟩
      simp only
      by_cases hdata : (s₁.entry p).nStatus.haveData = true
      · exact .inl ⟨hdata, by rw [if_pos hdata]⟩
      · right
        rw [if_neg hdata]
        rw [Bool.not_eq_true] at hdata
        refine ⟨hdata, ?_⟩
        cases hacc : acceptBlockData N s₁ block p with
        | mk r' s₂ => cases r' <;> exact ⟨rfl, rfl⟩

/-- A block is accepted when it is stored already, or when it is stored and linked without a failure. -/
theorem acceptBlock_ok (h : acceptBlock N s block = (.ok p, s')) :
    ∃ s₁, acceptBlockHeader N s block.toCBlockHeader = (.ok p, s₁) ∧ ((s₁.haveData p ∧ s' = s₁) ∨
        (s₁.haveData p = false ∧ Receivable N s₁ block p ∧
          receivedBlockTransactions N (N.env s₁) 0 s₁ block p = (.ok (), s'))) := by
  rcases acceptBlock_cases N s block with
    ⟨stop, -, h'⟩ | ⟨q, s₁, hheader, ⟨hdata, h'⟩ | ⟨hdata, hstate, hresult⟩⟩
  · simp [h] at h'
  · rw [h] at h'
    obtain ⟨hres, rfl⟩ := Prod.mk.inj h'
    cases hres
    exact ⟨s', hheader, .inl ⟨hdata, rfl⟩⟩
  · rw [h] at hstate hresult
    rcases acceptBlockData_cases N s₁ block q with ⟨stop, h'⟩ | ⟨stop, h'⟩ | ⟨stop, h'⟩ | ⟨hcheck, h'⟩
    · simp [h', Except.map] at hresult
    · simp [h', Except.map] at hresult
    · simp [h', Except.map] at hresult
    · rw [h'] at hstate hresult
      cases hreceived : receivedBlockTransactions N (N.env s₁) 0 s₁ block q with
      | mk res s₂ =>
        rw [hreceived] at hstate hresult
        cases res with
        | error stop => simp [Except.map] at hresult
        | ok u =>
          cases hresult
          obtain rfl : s' = s₂ := hstate
          exact ⟨s₁, hheader, .inr ⟨hdata, hcheck, hreceived⟩⟩

theorem acceptBlock_moves (hs : IndexInv N s) (block : CBlock) : Moves N s (acceptBlock N s block).2 := by
  have hheader := acceptBlockHeader_moves hs block.toCBlockHeader
  rcases acceptBlock_cases N s block with ⟨stop, h, -⟩ | ⟨p, s₁, h, ⟨-, hdata⟩ | ⟨hdata, hstate, -⟩⟩
  · rw [h] at hheader
    exact hheader
  · rw [h] at hheader
    rw [hdata]
    exact hheader
  · obtain ⟨hs₁, hp, hvalid, hhash⟩ := acceptBlockHeader_ok hs h
    rw [h] at hheader
    rw [hstate]
    exact hheader.trans (acceptBlockData_moves hs₁ hp hdata hvalid hhash.symm)

end

end Reddcoin
