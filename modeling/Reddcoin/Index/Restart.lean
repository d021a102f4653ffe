import Reddcoin.Index.LoadInvariant

/-!
# A restart

What the index is after `FlushStateToDisk` and `LoadBlockIndexDB`.
-/

namespace Reddcoin

open List

open Forest (Anc Graded)

section

variable {N : Node} {s : NodeState} {A : Addresses}

/-! ## The order of the entries -/

theorem mem_sortedByHeight {p : Ptr} : p ∈ sortedByHeight s ↔ p < s.size := by
  unfold sortedByHeight
  rw [mem_insertionSort, mem_range]

theorem nodup_sortedByHeight (s : NodeState) : (sortedByHeight s).Nodup :=
  (perm_insertionSort _ _).nodup_iff.mpr nodup_range

theorem pairwise_sortedByHeight (s : NodeState) :
    (sortedByHeight s).Pairwise fun p q => s.ht p ≤ s.ht q := by
  have htotal : Std.Total fun p q => s.ht p < s.ht q ∨
      (s.ht p = s.ht q ∧ s.addresses.addr p ≤ s.addresses.addr q) := ⟨fun p q => by omega⟩
  have htrans : IsTrans Ptr fun p q => s.ht p < s.ht q ∨
      (s.ht p = s.ht q ∧ s.addresses.addr p ≤ s.addresses.addr q) := ⟨fun p q r h h' => by omega⟩
  refine (pairwise_insertionSort _ (List.range s.size)).imp fun h => ?_
  omega

/-! ## The loop -/

/-- When the loop succeeds all entries are complete. -/
theorem loadEntries_loaded {env : Env} {s₀ s' : NodeState} {ps done : List Ptr} (h : Loaded s₀ done s)
    (hg : Graded (fun q => q < s₀.size) s₀.par s₀.ht) (hall : ∀ p, p < s₀.size ↔ p ∈ done ∨ p ∈ ps)
    (hnodup : ps.Nodup) (hdisj : ∀ p ∈ ps, p ∉ done)
    (hclosed : ∀ p ∈ done, ∀ q, s₀.par p = some q → q ∈ done)
    (hsorted : ps.Pairwise fun p q => s₀.ht p ≤ s₀.ht q) (hfresh : ∀ p, (s₀.entry p).nChainTx = 0)
    (htx : ∀ p < s₀.size, s₀.haveData p → 0 < (s₀.entry p).nTx)
    (hrun : loadEntries env ps s = (.ok (), s')) :
    ∃ done, Loaded s₀ done s' ∧ ∀ p, p ∈ done ↔ p < s₀.size := by
  induction ps generalizing s done with
  | nil =>
    obtain rfl : s = s' := congrArg Prod.snd hrun
    exact ⟨done, h, fun p => by rw [hall]; simp⟩
  | cons p ps ih =>
    obtain ⟨hpps, hnodup⟩ := nodup_cons.mp hnodup
    obtain ⟨hle, hsorted⟩ := pairwise_cons.mp hsorted
    have hp : p < s₀.size := (hall p).mpr (.inr mem_cons_self)
    have hnew := hdisj p mem_cons_self
    have hdone : Graded (fun q => q ∈ done) s₀.par s₀.ht :=
      ⟨fun hq hr => hclosed _ hq _ hr, fun hq hr => hg.height ((hall _).mpr (.inl hq)) hr,
        fun hq hr => hg.root ((hall _).mpr (.inl hq)) hr⟩
    have hparent : ∀ q, s₀.par p = some q → q ∈ done ∧ s₀.ht p = s₀.ht q + 1 := by
      intro q hq
      have hheight := hg.height hp hq
      refine ⟨?_, hheight⟩
      rcases (hall q).mp (hg.closed hp hq) with hmem | hmem
      · exact hmem
      · rcases mem_cons.mp hmem with rfl | hmem
        · omega
        · have := hle q hmem
          omega
    have hstep := h.step hdone hnew hparent (hfresh p) (htx p hp)
    unfold loadEntries at hrun
    simp only at hrun
    split_ifs at hrun with hcheck
    · simp at hrun
    · refine ih hstep (fun q => ?_) hnodup (fun q hq hmem => ?_) (fun q hq r hr => ?_) hsorted hrun
      · rw [hall q, mem_cons, mem_cons]
        tauto
      · rcases mem_cons.mp hmem with rfl | hmem
        · exact hpps hq
        · exact hdisj q (mem_cons_of_mem _ hq) hmem
      · rcases mem_cons.mp hq with rfl | hq
        · exact mem_cons_of_mem _ (hparent r hr).1
        · exact mem_cons_of_mem _ (hclosed q hq r hr)

/-! ## The whole load -/

/-- What a restart leads to. -/
structure Restarted (N : Node) (s s' : NodeState) : Prop where
  inv : IndexInv N s'
  size : s'.size = s.size
  par : ∀ p < s.size, s'.par p = s.par p
  hash : ∀ p < s.size, (s'.entry p).hash = (s.entry p).hash
  tip : s'.tip = s.tip
  header : ∀ p < s.size, s'.mapBlockIndex.getBlockHeader p = s.mapBlockIndex.getBlockHeader p
  entry : ∀ p < s.size, ∃ r, OnDisk s.writeBlockIndex p r ∧
    (s'.entry p).stored = (entryOfRecord N s.writeBlockIndex r).stored
  linked : ∀ p < s.size, s.linked p = true → s'.linked p = true
  linked_iff : ∀ p < s.size, s'.linked p = true ↔ s'.haveData p = true ∧ ∀ q, s'.par p = some q → s'.linked q = true
  candidates : ∀ t, s'.tip = some t → ∀ p, p ∈ s'.setBlockIndexCandidates ↔ p < s'.size ∧
    (s'.entry p).isValid BLOCK_VALID_TRANSACTIONS = true ∧ s'.linked p = true ∧ s'.worse p t = false
  dirty : s'.setDirtyBlockIndex = []
  reversedVerdicts : s'.reversedVerdicts = s.reversedVerdicts
  blockTree : s'.blockTree = s.writeBlockIndex.blockTree
  blockFile : s'.blockFile = s.blockFile
  quietChanges : s'.quietChanges = s.quietChanges

section

variable {w s₁ : NodeState} {done : List Ptr} (hw : IndexInv N w)
  (hdisk : ∀ p < w.size, ∃ r, OnDisk w p r) (hzero : w.HashesNonzero)
  (h : Loaded (loadBlockIndexGuts N w A) done s₁) (hdone : ∀ p, p ∈ done ↔ p < w.size)

include hw hdisk hzero h

/-- A completed entry, its record and the entry before. -/
theorem Loaded.entry_record {p : Ptr} (hp : p < w.size) : ∃ r, OnDisk w p r ∧
    (s₁.entry p).stored = (entryOfRecord N w r).stored ∧ s₁.par p = w.par p ∧
    (s₁.entry p).hash = (w.entry p).hash := by
  obtain ⟨r, hr, hentry, hhash, hpar⟩ := loadBlockIndexGuts_entry hw.shape hdisk (A := A) hzero hp
  have hstored := h.entry p
  rw [hentry] at hstored
  refine ⟨r, hr, hstored, ?_, ?_⟩
  · exact (congrArg CBlockIndex.pprev hstored).trans hpar
  · exact (congrArg CBlockIndex.hash hstored).trans hhash

theorem Loaded.getBlockHeader {p : Ptr} (hp : p < w.size) :
    s₁.mapBlockIndex.getBlockHeader p = w.mapBlockIndex.getBlockHeader p := by
  obtain ⟨r, hr, hstored, hpar, -⟩ := h.entry_record hw hdisk hzero hp
  have hver := congrArg CBlockIndex.nVersion hstored
  have hmerkle := congrArg CBlockIndex.hashMerkleRoot hstored
  have htime := congrArg CBlockIndex.nTime hstored
  have hbits := congrArg CBlockIndex.nBits hstored
  have hnonce := congrArg CBlockIndex.nNonce hstored
  have hprev : (s₁.mapBlockIndex.getBlockHeader p).hashPrevBlock =
      (w.mapBlockIndex.getBlockHeader p).hashPrevBlock := by
    have hpar' : (s₁.mapBlockIndex.entry p).pprev = (w.mapBlockIndex.entry p).pprev := hpar
    simp only [BlockMap.getBlockHeader, hpar']
    cases hq : (w.mapBlockIndex.entry p).pprev with
    | none => rfl
    | some q =>
      obtain ⟨_, -, -, -, hhash⟩ := h.entry_record hw hdisk hzero (hw.shape.tree.graded.closed hp hq)
      exact hhash
  have hheader := hr.header
  rw [← hheader]
  rw [← hheader] at hprev
  have heq : s₁.mapBlockIndex.getBlockHeader p =
      { nVersion := (s₁.entry p).nVersion
        hashPrevBlock := (s₁.mapBlockIndex.getBlockHeader p).hashPrevBlock
        hashMerkleRoot := (s₁.entry p).hashMerkleRoot
        nTime := (s₁.entry p).nTime
        nBits := (s₁.entry p).nBits
        nNonce := (s₁.entry p).nNonce } := rfl
  rw [heq, hprev]
  have hver' : (s₁.entry p).nVersion = r.index.nVersion := hver
  have hmerkle' : (s₁.entry p).hashMerkleRoot = r.index.hashMerkleRoot := hmerkle
  have htime' : (s₁.entry p).nTime = r.index.nTime := htime
  have hbits' : (s₁.entry p).nBits = r.index.nBits := hbits
  have hnonce' : (s₁.entry p).nNonce = r.index.nNonce := hnonce
  rw [hver', hmerkle', htime', hbits', hnonce']
  rfl

theorem Loaded.ht_eq {p : Ptr} (hp : p < w.size) : s₁.ht p = w.ht p := by
  obtain ⟨r, hr, hstored, -⟩ := h.entry_record hw hdisk hzero hp
  exact (congrArg CBlockIndex.nHeight hstored).trans (congrArg EntryShape.nHeight hr.shape)

include hdone

theorem Loaded.shape : Shape N s₁.mapBlockIndex := by
  have hsize : s₁.mapBlockIndex.size = w.mapBlockIndex.size := h.size
  have hpar : ∀ p < w.size, s₁.par p = w.par p := fun p hp => by
    obtain ⟨_, -, -, hpar, -⟩ := h.entry_record hw hdisk hzero hp
    exact hpar
  have hht : ∀ p < w.size, s₁.ht p = w.ht p := fun p hp => h.ht_eq hw hdisk hzero hp
  have hhash : ∀ p < w.size, (s₁.entry p).hash = (w.entry p).hash := fun p hp => by
    obtain ⟨_, -, -, -, hhash⟩ := h.entry_record hw hdisk hzero hp
    exact hhash
  refine ⟨⟨?_, ?_, ?_⟩, ?_, ?_, ?_, ?_, ?_⟩
  · rw [hsize]
    exact hw.shape.tree.graded.congr hpar hht
  · intro p hp q hq hp' hq'
    rw [hsize] at hp hq
    exact hw.shape.tree.root p hp q hq ((hpar p hp).symm.trans hp') ((hpar q hq).symm.trans hq')
  · intro p hp
    rw [hsize] at hp
    exact h.skip p ((hdone p).mpr hp)
  · intro p hp
    rw [hsize] at hp
    rw [h.getBlockHeader hw hdisk hzero hp]
    exact (hw.shape.hash p hp).trans (hhash p hp).symm
  · intro p hp q hq heq
    rw [hsize] at hp hq
    exact hw.shape.hash_injective p hp q hq ((hhash p hp).symm.trans (heq.trans (hhash q hq)))
  · intro p hp hq
    rw [hsize] at hp
    exact (hhash p hp).trans (hw.shape.genesis p hp ((hpar p hp).symm.trans hq))
  · intro p hp
    rw [hsize] at hp
    exact h.work p ((hdone p).mpr hp)
  · intro p hp hversion
    rw [hsize] at hp
    have hver : (s₁.mapBlockIndex.entry p).nVersion = (w.mapBlockIndex.entry p).nVersion :=
      congrArg CBlockHeader.nVersion (h.getBlockHeader hw hdisk hzero hp)
    rw [hver] at hversion
    exact (hht p hp).trans_le (hw.shape.proofOfWork p hp hversion)

/-- Every entry that was linked is linked again. -/
theorem Loaded.linked_of_linked {p : Ptr} (hp : p < w.size) (hlinked : w.linked p) :
    s₁.linked p = true := by
  induction hn : w.ht p using Nat.strong_induction_on generalizing p with
  | _ n ih =>
    obtain ⟨r, hr, hstored, hpar, -⟩ := h.entry_record hw hdisk hzero hp
    rw [h.linked p ((hdone p).mpr hp)]
    constructor
    · have hdata : s₁.haveData p = r.index.nStatus.haveData :=
        congrArg (fun e => e.nStatus.haveData) hstored
      rw [hdata, hr.haveData]
      exact hw.flow.linked_data p hp hlinked
    · intro q hq
      rw [hpar] at hq
      have hheight : w.ht p = w.ht q + 1 := hw.shape.tree.graded.height hp hq
      exact ih (w.ht q) (by omega) (hw.shape.tree.graded.closed hp hq)
        (hw.flow.linked_parent p hp hlinked q hq) rfl

/-- An entry is a candidate when it is valid and linked. -/
theorem Loaded.mem_candidates {p : Ptr} : p ∈ s₁.setBlockIndexCandidates ↔ p < w.size ∧
    (s₁.entry p).isValid BLOCK_VALID_TRANSACTIONS ∧ s₁.linked p = true := by
  rw [h.candidates, hdone]
  refine and_congr_right fun hp => and_congr_right fun hvalid => ?_
  constructor
  · rintro (hlinked | hroot)
    · exact hlinked
    · obtain ⟨r, hr, hstored, hpar, -⟩ := h.entry_record hw hdisk hzero hp
      have hstatus : (s₁.entry p).nStatus = r.index.nStatus := (congrArg CBlockIndex.nStatus hstored :)
      have hthree : BLOCK_VALID_TRANSACTIONS ≤ (w.entry p).nStatus.valid := by
        unfold CBlockIndex.isValid BlockStatus.isValid at hvalid
        rw [hstatus, hr.valid, Bool.and_eq_true, decide_eq_true_eq] at hvalid
        exact hvalid.2
      have hdata : s₁.haveData p = true := by
        show (s₁.entry p).nStatus.haveData = true
        rw [hstatus, hr.haveData]
        exact (hw.flow.data_valid p hp).mpr hthree
      rw [h.linked p ((hdone p).mpr hp)]
      refine ⟨hdata, fun q hq => ?_⟩
      rw [hroot] at hq
      simp at hq
  · exact .inl

omit hdone in
/-- The record that an entry was read from is still its record. -/
theorem Loaded.onDisk {t p : Ptr} (hp : p < w.size) : ∃ r, OnDisk ((s₁.updateTip (some t)).dropWorse t) p r := by
  obtain ⟨r, hr, hstored, hpar, hhash⟩ := h.entry_record hw hdisk hzero hp
  have hheader := h.getBlockHeader hw hdisk hzero hp
  have hst : r.index.nStatus = (s₁.entry p).nStatus := (congrArg CBlockIndex.nStatus hstored).symm
  refine ⟨r, (congrFun h.blockTree p).trans hr.record, ?_, hr.shape.trans ?_, ?_, ?_, ?_, ?_, ?_, ?_⟩
  · exact hr.hashPrev.trans (congrArg CBlockHeader.hashPrevBlock hheader).symm
  · have hversion : (s₁.entry p).nVersion = (w.entry p).nVersion := congrArg CBlockHeader.nVersion hheader
    have hmerkle : (s₁.entry p).hashMerkleRoot = (w.entry p).hashMerkleRoot :=
      congrArg CBlockHeader.hashMerkleRoot hheader
    have htime : (s₁.entry p).nTime = (w.entry p).nTime := congrArg CBlockHeader.nTime hheader
    have hbits : (s₁.entry p).nBits = (w.entry p).nBits := congrArg CBlockHeader.nBits hheader
    have hnonce : (s₁.entry p).nNonce = (w.entry p).nNonce := congrArg CBlockHeader.nNonce hheader
    have hprev : (s₁.entry p).pprev = (w.entry p).pprev := hpar
    have hheight : (s₁.entry p).nHeight = (w.entry p).nHeight := h.ht_eq hw hdisk hzero hp
    simp only [EntryShape.stored, CBlockIndex.shape]
    show _ = (EntryShape.mk (s₁.entry p).hash (s₁.entry p).pprev none (s₁.entry p).nHeight
      (s₁.entry p).nVersion (s₁.entry p).hashMerkleRoot (s₁.entry p).nTime (s₁.entry p).nBits
      (s₁.entry p).nNonce 0)
    rw [hversion, hmerkle, htime, hbits, hnonce, hprev, hheight, hhash]
  · exact (congrArg CBlockIndex.nTx hstored).symm
  · exact congrArg BlockStatus.valid hst
  · exact congrArg BlockStatus.haveData hst
  · exact congrArg BlockStatus.haveUndo hst
  · exact fun _ => congrArg BlockStatus.failedValid hst
  · exact hst ▸ .refl _

/-- The index is as it was before, with the active chain and the candidates built anew. -/
theorem Loaded.inv {t : Ptr} (ht : w.tip = some t) :
    IndexInv N ((s₁.updateTip (some t)).dropWorse t) := by
  have hshape := h.shape hw hdisk hzero hdone
  have hsize : s₁.size = w.size := h.size
  have hstatus : ∀ p < w.size, ∃ r, OnDisk w p r ∧ (s₁.entry p).nStatus = r.index.nStatus ∧
      (s₁.entry p).nTx = r.index.nTx ∧ s₁.par p = w.par p := by
    intro p hp
    obtain ⟨r, hr, hstored, hpar, -⟩ := h.entry_record hw hdisk hzero hp
    exact ⟨r, hr, (congrArg CBlockIndex.nStatus hstored :), (congrArg CBlockIndex.nTx hstored :), hpar⟩
  have hvalid : ∀ p < w.size, (s₁.entry p).nStatus.valid = (w.entry p).nStatus.valid := by
    intro p hp
    obtain ⟨r, hr, hst, -⟩ := hstatus p hp
    rw [hst, hr.valid]
  have hdata : ∀ p < w.size, s₁.haveData p = w.haveData p := by
    intro p hp
    obtain ⟨r, hr, hst, -⟩ := hstatus p hp
    show (s₁.entry p).nStatus.haveData = _
    rw [hst, hr.haveData]
  obtain ⟨htsize, -, htlinked, htbest⟩ := hw.tip_eq ht
  have htsize₁ : t < s₁.mapBlockIndex.size := htsize.trans_eq hsize.symm
  refine ⟨hshape, ⟨?_, ?_, ?_, ?_, ?_, ?_, ?_, ?_, ?_, ?_⟩, ?_⟩
  · intro p hp
    exact (hw.flow.valid p (hsize ▸ hp)).trans_eq (hvalid p (hsize ▸ hp)).symm
  · intro p hp
    obtain ⟨r, hr, -, htx, -⟩ := hstatus p (hsize ▸ hp)
    show s₁.haveData p = true ↔ 0 < (s₁.entry p).nTx
    rw [hdata p (hsize ▸ hp), htx, hr.nTx]
    exact hw.flow.data_tx p (hsize ▸ hp)
  · intro p hp
    show s₁.haveData p = true ↔ BLOCK_VALID_TRANSACTIONS ≤ (s₁.entry p).nStatus.valid
    rw [hdata p (hsize ▸ hp), hvalid p (hsize ▸ hp)]
    exact hw.flow.data_valid p (hsize ▸ hp)
  · intro p hp hlinked
    exact ((h.linked p ((hdone p).mpr (hsize ▸ hp))).mp hlinked).1
  · intro p hp hlinked
    exact ((h.linked p ((hdone p).mpr (hsize ▸ hp))).mp hlinked).2
  · intro p hp
    have hmem : p ∈ s₁.setBlockIndexCandidates := (mem_filter.mp hp).1
    obtain ⟨hp, -, hlinked⟩ := (h.mem_candidates hw hdisk hzero hdone).mp hmem
    exact ⟨hsize.symm ▸ hp, hlinked⟩
  · intro w' hw'
    obtain ⟨hmem, hpar, hd, hl⟩ := h.unlinked w' hw'
    exact ⟨hsize.symm ▸ (hdone _).mp hmem, hpar, hd, hl⟩
  · exact h.unlinked_nodup
  · intro p hp hroot
    obtain ⟨r, hr, hst, -, hpar⟩ := hstatus p (hsize ▸ hp)
    show (s₁.entry p).nStatus.haveUndo = false
    rw [hst, hr.haveUndo]
    exact hw.flow.genesis_undo p (hsize ▸ hp) (hpar.symm.trans hroot)
  · refine ⟨t, hsize.symm ▸ htsize, ?_, h.linked_of_linked hw hdisk hzero hdone htsize htlinked, ?_⟩
    · show CChain.EndsAt s₁.mapBlockIndex (CChain.setTip s₁.mapBlockIndex s₁.chainActive (some t)) t
      rw [show s₁.chainActive = [] from h.chainActive]
      exact CChain.setTip_nil hshape.tree htsize₁
    · show s₁.pcoinsTip.BestIs (s₁.entry t).hash
      obtain ⟨_, -, -, -, hhash⟩ := h.entry_record hw hdisk hzero htsize
      rw [show s₁.pcoinsTip = w.pcoinsTip from h.pcoinsTip, hhash]
      exact htbest
  · intro p hp
    exact .inr (h.onDisk hw hdisk hzero (hsize ▸ hp))

/-- The best block of the coins is found in the index. -/
theorem Loaded.find_best {t : Ptr} (ht : w.tip = some t) :
    s₁.mapBlockIndex.find s₁.pcoinsTip.getBestBlock = some t := by
  obtain ⟨htsize, -, -, htbest⟩ := hw.tip_eq ht
  obtain ⟨_, -, -, -, hhash⟩ := h.entry_record hw hdisk hzero htsize
  have hbest : s₁.pcoinsTip.getBestBlock = (s₁.entry t).hash := by
    rw [show s₁.pcoinsTip = w.pcoinsTip from h.pcoinsTip, hhash]
    exact htbest (hzero t htsize)
  rw [hbest]
  exact (h.shape hw hdisk hzero hdone).find_eq (htsize.trans_eq h.size.symm)

theorem Loaded.tip_updateTip {t : Ptr} (ht : w.tip = some t) : (s₁.updateTip (some t)).tip = some t := by
  obtain ⟨htsize, -⟩ := hw.tip_eq ht
  have hshape := h.shape hw hdisk hzero hdone
  have htsize₁ : t < s₁.mapBlockIndex.size := htsize.trans_eq h.size.symm
  have hends : CChain.EndsAt s₁.mapBlockIndex (s₁.updateTip (some t)).chainActive t := by
    show CChain.EndsAt s₁.mapBlockIndex (CChain.setTip s₁.mapBlockIndex s₁.chainActive (some t)) t
    rw [show s₁.chainActive = [] from h.chainActive]
    exact CChain.setTip_nil hshape.tree htsize₁
  exact hends.tip hshape.tree htsize₁

end

theorem loadBlockIndexGuts_loaded (w : NodeState) (A : Addresses) :
    Loaded (loadBlockIndexGuts N w A) [] (loadBlockIndexGuts N w A) := by
  refine ⟨rfl, fun _ => rfl, fun _ _ => rfl, rfl, rfl, rfl, rfl, rfl, rfl, rfl, rfl, ?_, ?_, ?_, ?_, ?_, nodup_nil⟩
  · intro p hp
    simp at hp
  · intro p hp
    simp at hp
  · intro p hp
    simp at hp
  · intro p
    show p ∈ [] ↔ _
    simp
  · intro u hu
    have : u ∈ ([] : List (Ptr × Ptr)) := hu
    simp at this

/-- What is read from the disk is a graded tree. -/
theorem loadBlockIndexGuts_graded {w : NodeState} (hw : IndexInv N w) (hdisk : ∀ p < w.size, ∃ r, OnDisk w p r)
    (hzero : w.HashesNonzero) :
    Graded (fun q => q < w.size) (loadBlockIndexGuts N w A).par (loadBlockIndexGuts N w A).ht := by
  refine hw.shape.tree.graded.congr (fun p hp => ?_) fun p hp => ?_
  · obtain ⟨r, -, he, -, hpar⟩ := loadBlockIndexGuts_entry hw.shape hdisk (A := A) hzero hp
    exact (congrArg CBlockIndex.pprev he).trans hpar
  · obtain ⟨r, hr, he, -⟩ := loadBlockIndexGuts_entry hw.shape hdisk (A := A) hzero hp
    exact (congrArg CBlockIndex.nHeight he).trans (congrArg EntryShape.nHeight hr.shape)

theorem loadBlockIndexGuts_nChainTx (w : NodeState) (p : Ptr) :
    ((loadBlockIndexGuts N w A).entry p).nChainTx = 0 := by
  cases hr : w.blockTree p with
  | none =>
    rw [loadBlockIndexGuts_noRecord hr]
    rfl
  | some r =>
    rw [loadBlockIndexGuts_record hr]
    rfl

/-- The loop of `LoadBlockIndexDB` completes every entry. -/
theorem loadEntries_complete {env : Env} {w s₁ : NodeState} (hw : IndexInv N w)
    (hdisk : ∀ p < w.size, ∃ r, OnDisk w p r) (hzero : w.HashesNonzero)
    (hload : loadEntries env (sortedByHeight (loadBlockIndexGuts N w A)) (loadBlockIndexGuts N w A) = (.ok (), s₁)) :
    ∃ done, Loaded (loadBlockIndexGuts N w A) done s₁ ∧ ∀ p, p ∈ done ↔ p < w.size := by
  have hgraded := loadBlockIndexGuts_graded hw hdisk hzero (A := A)
  refine loadEntries_loaded (loadBlockIndexGuts_loaded w A) hgraded (fun p => by rw [mem_sortedByHeight]; simp)
    (nodup_sortedByHeight _) (fun p _ => by simp) (fun p hp => by simp at hp) (pairwise_sortedByHeight _)
    (loadBlockIndexGuts_nChainTx w) (fun p hp hdata => ?_) hload
  obtain ⟨r, hr, he, -⟩ := loadBlockIndexGuts_entry hw.shape hdisk (A := A) hzero hp
  have hdata' : r.index.nStatus.haveData = true :=
    (congrArg (fun e => e.nStatus.haveData) he).symm.trans hdata
  have htx : ((loadBlockIndexGuts N w A).entry p).nTx = r.index.nTx := (congrArg CBlockIndex.nTx he :)
  rw [htx, hr.nTx]
  exact (hw.flow.data_tx p hp).mp (hr.haveData.symm.trans hdata')

/-- After a restart the index is as it was, with the failure flags that were on disk. -/
theorem restart_restarted (hs : IndexInv N s) (hzero : s.HashesNonzero) {s' : NodeState}
    (hrun : restart N s A = (.ok (), s')) : Restarted N s s' := by
  have hw : IndexInv N s.writeBlockIndex := (ChainMove.write s).inv hs
  have hdisk := hs.stored.writeBlockIndex
  unfold restart loadBlockIndexDB at hrun
  simp only at hrun
  cases hload : loadEntries (N.env (loadBlockIndexGuts N s.writeBlockIndex A))
      (sortedByHeight (loadBlockIndexGuts N s.writeBlockIndex A))
      (loadBlockIndexGuts N s.writeBlockIndex A) with
  | mk res s₁ =>
  rw [hload] at hrun
  cases res with
  | error stop => simp [Call.andThen] at hrun
  | ok u =>
  simp only [Call.andThen] at hrun
  obtain ⟨done, hloaded, hdone⟩ := loadEntries_complete hw hdisk hzero hload
  obtain ⟨t, ht⟩ := hs.exists_tip
  have hsize : s₁.size = s.size := hloaded.size
  have hfind := hloaded.find_best hw hdisk hzero hdone ht
  have htip := hloaded.tip_updateTip hw hdisk hzero hdone ht
  rw [hfind] at hrun
  simp only [pruneBlockIndexCandidates, htip] at hrun
  split_ifs at hrun with hempty
  · simp at hrun
  obtain rfl := congrArg Prod.snd hrun
  refine ⟨hloaded.inv hw hdisk hzero hdone (t := t) ht, hsize, ?_, ?_, htip.trans ht.symm, ?_, ?_, ?_, ?_, ?_,
    hloaded.setDirtyBlockIndex, hloaded.reversedVerdicts, hloaded.blockTree, hloaded.blockFile, hloaded.quietChanges⟩
  · intro p hp
    obtain ⟨_, -, -, hpar, -⟩ := hloaded.entry_record hw hdisk hzero hp
    exact hpar
  · intro p hp
    obtain ⟨_, -, -, -, hhash⟩ := hloaded.entry_record hw hdisk hzero hp
    exact hhash
  · intro p hp
    exact hloaded.getBlockHeader hw hdisk hzero hp
  · intro p hp
    obtain ⟨r, hr, hstored, -, -⟩ := hloaded.entry_record hw hdisk hzero hp
    exact ⟨r, hr, hstored⟩
  · intro p hp hlinked
    exact hloaded.linked_of_linked hw hdisk hzero hdone hp hlinked
  · intro p hp
    exact hloaded.linked p ((hdone p).mpr hp)
  · intro t' ht' p
    cases htip.symm.trans ht'
    show p ∈ s₁.setBlockIndexCandidates.filter (fun q => !s₁.worse q t) ↔ p < s₁.size ∧
      (s₁.entry p).isValid BLOCK_VALID_TRANSACTIONS = true ∧ s₁.linked p = true ∧ s₁.worse p t = false
    rw [mem_filter, hloaded.mem_candidates hw hdisk hzero hdone, hsize, Bool.not_eq_true']
    constructor
    · rintro ⟨⟨h₁, h₂, h₃⟩, h₄⟩
      exact ⟨h₁, h₂, h₃, h₄⟩
    · rintro ⟨h₁, h₂, h₃, h₄⟩
      exact ⟨⟨h₁, h₂, h₃⟩, h₄⟩

end

end Reddcoin
