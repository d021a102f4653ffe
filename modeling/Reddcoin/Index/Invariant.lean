import Reddcoin.Index.Shape

/-!
# What every move keeps

The invariant of the index, move by move.
-/

namespace Reddcoin

open Forest (Anc Graded)

variable {s s' : NodeState}

/-! ## States with the same data -/

/-- Nothing that `Flow` reads of the entries and the active chain has changed. -/
structure SameFlow (s s' : NodeState) : Prop where
  shape : s.mapBlockIndex.SameShape s'.mapBlockIndex
  valid : ∀ p, (s'.entry p).nStatus.valid = (s.entry p).nStatus.valid
  haveData : ∀ p, s'.haveData p = s.haveData p
  nTx : ∀ p, (s'.entry p).nTx = (s.entry p).nTx
  linked : ∀ p, s'.linked p = s.linked p
  haveUndo : ∀ p, (s'.entry p).nStatus.haveUndo = (s.entry p).nStatus.haveUndo
  chainActive : s'.chainActive = s.chainActive
  pcoinsTip : s'.pcoinsTip = s.pcoinsTip

namespace SameFlow

variable {s s' : NodeState}

theorem size (h : SameFlow s s') : s'.size = s.size :=
  h.shape.size

theorem par (h : SameFlow s s') : s'.par = s.par :=
  h.shape.par

theorem of_map (hmap : s'.mapBlockIndex = s.mapBlockIndex) (hchain : s'.chainActive = s.chainActive)
    (hview : s'.pcoinsTip = s.pcoinsTip) : SameFlow s s' where
  shape := hmap ▸ .refl _
  valid p := by simp only [NodeState.entry, hmap]
  haveData p := by simp only [NodeState.haveData, NodeState.entry, hmap]
  nTx p := by simp only [NodeState.entry, hmap]
  linked p := by simp only [NodeState.linked, NodeState.entry, hmap]
  haveUndo p := by simp only [NodeState.entry, hmap]
  chainActive := hchain
  pcoinsTip := hview

theorem modify (s : NodeState) (p : Ptr) {f : CBlockIndex → CBlockIndex}
    (hshape : ∀ e, (f e).shape = e.shape) (hvalid : ∀ e, (f e).nStatus.valid = e.nStatus.valid)
    (hdata : ∀ e, (f e).nStatus.haveData = e.nStatus.haveData) (htx : ∀ e, (f e).nTx = e.nTx)
    (hlinked : ∀ e, (f e).nChainTx = e.nChainTx)
    (hundo : ∀ e, (f e).nStatus.haveUndo = e.nStatus.haveUndo) : SameFlow s (s.modify p f) where
  shape := .modify _ p hshape
  valid q := BlockMap.entry_modify_proj (fun e => e.nStatus.valid) hvalid p q
  haveData q := BlockMap.entry_modify_proj (fun e => e.nStatus.haveData) hdata p q
  nTx q := BlockMap.entry_modify_proj CBlockIndex.nTx htx p q
  linked q := BlockMap.entry_modify_proj CBlockIndex.linked
    (fun e => by unfold CBlockIndex.linked; rw [hlinked]) p q
  haveUndo q := BlockMap.entry_modify_proj (fun e => e.nStatus.haveUndo) hundo p q
  chainActive := rfl
  pcoinsTip := rfl

theorem failValid (s : NodeState) (p : Ptr) : SameFlow s (s.failValid p) :=
  modify s p (fun _ => rfl) (fun _ => rfl) (fun _ => rfl) (fun _ => rfl) (fun _ => rfl) fun _ => rfl

theorem failChild (s : NodeState) (p : Ptr) : SameFlow s (s.failChild p) :=
  modify s p (fun _ => rfl) (fun _ => rfl) (fun _ => rfl) (fun _ => rfl) (fun _ => rfl) fun _ => rfl

theorem clearFailed (s : NodeState) (p : Ptr) : SameFlow s (s.clearFailed p) :=
  modify s p (fun _ => rfl) (fun _ => rfl) (fun _ => rfl) (fun _ => rfl) (fun _ => rfl) fun _ => rfl

theorem trans {s'' : NodeState} (h : SameFlow s s') (h' : SameFlow s' s'') : SameFlow s s'' where
  shape := h.shape.trans h'.shape
  valid p := (h'.valid p).trans (h.valid p)
  haveData p := (h'.haveData p).trans (h.haveData p)
  nTx p := (h'.nTx p).trans (h.nTx p)
  linked p := (h'.linked p).trans (h.linked p)
  haveUndo p := (h'.haveUndo p).trans (h.haveUndo p)
  chainActive := h'.chainActive.trans h.chainActive
  pcoinsTip := h'.pcoinsTip.trans h.pcoinsTip

end SameFlow

theorem Flow.congr (hs : Flow s) (h : SameFlow s s')
    (hcand : ∀ p ∈ s'.setBlockIndexCandidates, p ∈ s.setBlockIndexCandidates)
    (hunlinked : s'.mapBlocksUnlinked.Sublist s.mapBlocksUnlinked) : Flow s' where
  valid p hp := by
    rw [h.valid]
    exact hs.valid p (h.size ▸ hp)
  data_tx p hp := by
    rw [h.haveData, h.nTx]
    exact hs.data_tx p (h.size ▸ hp)
  data_valid p hp := by
    rw [h.haveData, h.valid]
    exact hs.data_valid p (h.size ▸ hp)
  linked_data p hp := by
    rw [h.linked, h.haveData]
    exact hs.linked_data p (h.size ▸ hp)
  linked_parent p hp hlinked q hq := by
    rw [h.linked] at hlinked ⊢
    rw [h.par] at hq
    exact hs.linked_parent p (h.size ▸ hp) hlinked q hq
  candidates p hp := by
    rw [h.size, h.linked]
    exact hs.candidates p (hcand p hp)
  unlinked w hw := by
    rw [h.size, h.par, h.haveData, h.linked]
    exact hs.unlinked w (hunlinked.subset hw)
  unlinked_nodup := hs.unlinked_nodup.sublist hunlinked
  genesis_undo p hp := by
    rw [h.par, h.haveUndo]
    exact hs.genesis_undo p (h.size ▸ hp)
  active := by
    obtain ⟨t, ht, hends, hlinked, hbest⟩ := hs.active
    refine ⟨t, h.size ▸ ht, ?_, (h.linked t).trans hlinked, ?_⟩
    · rw [h.chainActive]
      exact h.shape.endsAt hends
    · rw [h.pcoinsTip]
      exact (congrArg (CoinsView.BestIs _) (h.shape.hash t)).mpr hbest

/-! ## The database -/

namespace BlockStatus.FlagsLe

theorem refl (st : BlockStatus) : st.FlagsLe st :=
  ⟨fun h => h, fun h => h⟩

theorem trans {st st' st'' : BlockStatus} (h : st.FlagsLe st') (h' : st'.FlagsLe st'') : st.FlagsLe st'' :=
  ⟨fun hf => h'.failedValid (h.failedValid hf), fun hf => h'.failedChild (h.failedChild hf)⟩

end BlockStatus.FlagsLe

namespace OnDisk

variable {s s' : NodeState} {p : Ptr} {r : CDiskBlockIndex}

/-- A record stays right when the entry keeps what the record holds of it. -/
theorem congr (hr : OnDisk s p r) (h : SameFlow s s') (htree : s'.blockTree p = s.blockTree p)
    (hfailed : s.haveData p → (s'.entry p).nStatus.failedValid = (s.entry p).nStatus.failedValid)
    (hflags : (s.entry p).nStatus.FlagsLe (s'.entry p).nStatus) : OnDisk s' p r where
  record := htree.trans hr.record
  hashPrev := hr.hashPrev.trans (congrArg CBlockHeader.hashPrevBlock (h.shape.getBlockHeader p)).symm
  shape := hr.shape.trans (congrArg EntryShape.stored (h.shape.shape p)).symm
  nTx := hr.nTx.trans (h.nTx p).symm
  valid := hr.valid.trans (h.valid p).symm
  haveData := hr.haveData.trans (h.haveData p).symm
  haveUndo := hr.haveUndo.trans (h.haveUndo p).symm
  failedValid hdata := by
    rw [h.haveData] at hdata
    exact (hr.failedValid hdata).trans (hfailed hdata).symm
  flags := hr.flags.trans hflags

/-- A record stays right when the entry keeps its status and its number of transactions. -/
theorem of_status (hr : OnDisk s p r) (h : s.mapBlockIndex.SameShape s'.mapBlockIndex)
    (htree : s'.blockTree p = s.blockTree p) (htx : (s'.entry p).nTx = (s.entry p).nTx)
    (hstatus : (s'.entry p).nStatus = (s.entry p).nStatus) : OnDisk s' p r where
  record := htree.trans hr.record
  hashPrev := hr.hashPrev.trans (congrArg CBlockHeader.hashPrevBlock (h.getBlockHeader p)).symm
  shape := hr.shape.trans (congrArg EntryShape.stored (h.shape p)).symm
  nTx := hr.nTx.trans htx.symm
  valid := hr.valid.trans (congrArg BlockStatus.valid hstatus).symm
  haveData := hr.haveData.trans (congrArg BlockStatus.haveData hstatus).symm
  haveUndo := hr.haveUndo.trans (congrArg BlockStatus.haveUndo hstatus).symm
  failedValid hdata := by
    have hdata' : s.haveData p = true := (congrArg BlockStatus.haveData hstatus).symm.trans hdata
    exact (hr.failedValid hdata').trans (congrArg BlockStatus.failedValid hstatus).symm
  flags := hstatus ▸ hr.flags

end OnDisk

/-- The database stays right when each entry is marked dirty or keeps what its record holds. -/
theorem Stored.congr (hs : Stored s) (h : SameFlow s s') (htree : s'.blockTree = s.blockTree)
    (hdirty : ∀ p ∈ s.setDirtyBlockIndex, p ∈ s'.setDirtyBlockIndex)
    (hkeep : ∀ p, p ∈ s'.setDirtyBlockIndex ∨ (s.haveData p →
      (s'.entry p).nStatus.failedValid = (s.entry p).nStatus.failedValid) ∧
      (s.entry p).nStatus.FlagsLe (s'.entry p).nStatus) : Stored s' := by
  intro p hp
  rcases hs p (h.size ▸ hp) with hmem | ⟨r, hr⟩
  · exact .inl (hdirty p hmem)
  · rcases hkeep p with hmem | ⟨hfailed, hflags⟩
    · exact .inl hmem
    · exact .inr ⟨r, hr.congr h (congrFun htree p) hfailed hflags⟩

/-- After the dirty entries are written every entry has its record. -/
theorem Stored.writeBlockIndex {s : NodeState} (hs : Stored s) :
    ∀ p < s.size, ∃ r, OnDisk s.writeBlockIndex p r := by
  intro p hp
  by_cases hmem : p ∈ s.setDirtyBlockIndex
  · exact ⟨_, if_pos hmem, rfl, rfl, rfl, rfl, rfl, rfl, fun _ => rfl, .refl _⟩
  · rcases hs p hp with hdirty | ⟨r, hr⟩
    · exact absurd hdirty hmem
    · exact ⟨r, (if_neg hmem).trans hr.record, hr.hashPrev, hr.shape, hr.nTx, hr.valid, hr.haveData,
        hr.haveUndo, hr.failedValid, hr.flags⟩

theorem IndexInv.congr {N : Node} (hs : IndexInv N s) (h : SameFlow s s')
    (hcand : ∀ p ∈ s'.setBlockIndexCandidates, p ∈ s.setBlockIndexCandidates)
    (hunlinked : s'.mapBlocksUnlinked.Sublist s.mapBlocksUnlinked) (hstored : Stored s') :
    IndexInv N s' where
  shape := hs.shape.congr h.shape
  flow := hs.flow.congr h hcand hunlinked
  stored := hstored

section

variable {s : NodeState} {p q : Ptr} {f : CBlockIndex → CBlockIndex}

theorem entry_modify_self (s : NodeState) (p : Ptr) (f : CBlockIndex → CBlockIndex) :
    (s.modify p f).entry p = f (s.entry p) :=
  if_pos rfl

theorem entry_modify_ne (hne : q ≠ p) : (s.modify p f).entry q = s.entry q :=
  if_neg hne

/-- What a modification keeps of the entry it keeps everywhere. -/
theorem entry_modify_keep {β : Type} (g : CBlockIndex → β) (s : NodeState) (p : Ptr)
    (f : CBlockIndex → CBlockIndex) (hf : ∀ e, g (f e) = g e) (q : Ptr) :
    g ((s.modify p f).entry q) = g (s.entry q) :=
  BlockMap.entry_modify_proj g hf p q

theorem flagsLe_modify (hf : ∀ e : CBlockIndex, e.nStatus.FlagsLe (f e).nStatus) (s : NodeState) (p q : Ptr) :
    (s.entry q).nStatus.FlagsLe ((s.modify p f).entry q).nStatus := by
  by_cases hq : q = p
  · subst hq
    rw [entry_modify_self]
    exact hf _
  · rw [entry_modify_ne hq]
    exact .refl _

/-- An entry that is marked dirty may change its flags. -/
theorem Stored.modify_dirty (hs : Stored s) (h : SameFlow s (s.modify p f)) :
    Stored ((s.modify p f).setDirty p) := by
  refine Stored.congr (s := s) hs (h.trans (.of_map rfl rfl rfl)) rfl
    (fun q hq => List.mem_cons_of_mem _ hq) fun q => ?_
  by_cases hq : q = p
  · subst hq
    exact .inl List.mem_cons_self
  · have he : ((s.modify p f).setDirty p).entry q = s.entry q := entry_modify_ne hq
    rw [he]
    exact .inr ⟨fun _ => rfl, .refl _⟩

/-- Where only other parts of the state change, or only the set of dirty entries grows. -/
theorem Stored.of_map {s' : NodeState} (hs : Stored s) (hmap : s'.mapBlockIndex = s.mapBlockIndex)
    (htree : s'.blockTree = s.blockTree)
    (hdirty : ∀ p ∈ s.setDirtyBlockIndex, p ∈ s'.setDirtyBlockIndex) : Stored s' := by
  intro p hp
  have he : s'.entry p = s.entry p := by simp only [NodeState.entry, hmap]
  rcases hs p (by simpa only [NodeState.size, hmap] using hp) with hmem | ⟨r, hr⟩
  · exact .inl (hdirty p hmem)
  · exact .inr ⟨r, hr.of_status (hmap ▸ .refl _) (congrFun htree p) (by rw [he]) (by rw [he])⟩

end

/-! ## Moves of the active chain -/

section

variable {N : Node} {s : NodeState} (hs : IndexInv N s)

include hs

theorem IndexInv.tip_eq {t : Ptr} (ht : s.tip = some t) :
    t < s.size ∧ CChain.EndsAt s.mapBlockIndex s.chainActive t ∧ s.linked t ∧
      s.pcoinsTip.BestIs (s.entry t).hash := by
  obtain ⟨t', hsize, hends, hlinked, hbest⟩ := hs.flow.active
  have htip := hends.tip hs.shape.tree hsize
  cases htip.symm.trans ht
  exact ⟨hsize, hends, hlinked, hbest⟩

theorem IndexInv.exists_tip : ∃ t, s.tip = some t := by
  obtain ⟨t, hsize, hends, -⟩ := hs.flow.active
  exact ⟨t, hends.tip hs.shape.tree hsize⟩

/-- The ancestors of a linked entry are linked. -/
theorem IndexInv.linked_anc {a p : Ptr} (hp : p < s.size) (hlinked : s.linked p)
    (hanc : Anc s.par a p) : s.linked a = true := by
  induction hanc with
  | refl => exact hlinked
  | step parent _ ih =>
    exact ih (hs.shape.tree.graded.closed hp parent) (hs.flow.linked_parent _ hp hlinked _ parent)

/-- The active chain consists of the ancestors of the tip. -/
theorem IndexInv.contains_iff {t p : Ptr} (ht : s.tip = some t) :
    s.chainActive.contains s.mapBlockIndex p ↔ Anc s.par p t := by
  obtain ⟨hsize, hends, -⟩ := hs.tip_eq ht
  exact hends.contains_iff hs.shape.tree hsize

end

/-! ## The status of a connected entry -/

section

variable {st : BlockStatus}

theorem connectedStatus_valid (h : st.failed = false) :
    (connectedStatus st).valid = max st.valid BLOCK_VALID_SCRIPTS := by
  unfold connectedStatus
  split_ifs with hdone
  · simp only [BlockStatus.isValid, Bool.and_eq_true, decide_eq_true_eq] at hdone
    omega
  · have h' : ({ st with haveUndo := true } : BlockStatus).failed = false := h
    exact BlockStatus.raiseValidity_valid h' _

@[simp]
theorem connectedStatus_haveData : (connectedStatus st).haveData = st.haveData := by
  unfold connectedStatus
  split_ifs
  · rfl
  · exact BlockStatus.raiseValidity_haveData _ _

@[simp]
theorem connectedStatus_failedValid : (connectedStatus st).failedValid = st.failedValid := by
  unfold connectedStatus
  split_ifs
  · rfl
  · exact BlockStatus.raiseValidity_failedValid _ _

@[simp]
theorem connectedStatus_failedChild : (connectedStatus st).failedChild = st.failedChild := by
  unfold connectedStatus
  split_ifs
  · rfl
  · exact BlockStatus.raiseValidity_failedChild _ _

/-- An entry whose status is complete stays as it is. -/
theorem connectedStatus_eq_self (h : (st.haveUndo && st.isValid BLOCK_VALID_SCRIPTS)) :
    connectedStatus st = st :=
  if_pos h

end

section

variable (s : NodeState) (p : Ptr) (u : Nat) (r : ConnectResult)

theorem recorded_entry_self : (s.recorded p u r).entry p = connectedEntry u r (s.entry p) :=
  if_pos rfl

theorem recorded_entry_ne {q : Ptr} (hne : q ≠ p) : (s.recorded p u r).entry q = s.entry q :=
  if_neg hne

/-- The entry is marked dirty unless its status was complete. -/
theorem recorded_dirty : p ∈ (s.recorded p u r).setDirtyBlockIndex ∨
    ((s.recorded p u r).entry p).nStatus = (s.entry p).nStatus := by
  by_cases hdone : (s.entry p).isRecorded = true
  · right
    rw [recorded_entry_self]
    exact connectedStatus_eq_self hdone
  · left
    simp only [NodeState.recorded]
    rw [if_neg hdone]
    exact List.mem_cons_self

theorem recorded_dirty_of_mem {q : Ptr} (hq : q ∈ s.setDirtyBlockIndex) :
    q ∈ (s.recorded p u r).setDirtyBlockIndex := by
  simp only [NodeState.recorded]
  split_ifs
  · exact hq
  · exact List.mem_cons_of_mem _ hq

theorem recorded_sameShape : s.mapBlockIndex.SameShape (s.recorded p u r).mapBlockIndex :=
  .modify _ p fun _ => rfl

theorem recorded_haveData (q : Ptr) : (s.recorded p u r).haveData q = s.haveData q := by
  unfold NodeState.haveData
  by_cases hq : q = p
  · rw [hq, recorded_entry_self]
    exact connectedStatus_haveData
  · rw [recorded_entry_ne s p u r hq]

theorem recorded_linked (q : Ptr) : (s.recorded p u r).linked q = s.linked q := by
  unfold NodeState.linked
  by_cases hq : q = p
  · rw [hq, recorded_entry_self]
    rfl
  · rw [recorded_entry_ne s p u r hq]

theorem recorded_failed (q : Ptr) : (s.recorded p u r).failed q = s.failed q := by
  unfold NodeState.failed
  by_cases hq : q = p
  · rw [hq, recorded_entry_self]
    show (connectedStatus _).failed = _
    unfold BlockStatus.failed
    rw [connectedStatus_failedValid, connectedStatus_failedChild]
    rfl
  · rw [recorded_entry_ne s p u r hq]

end

/-! ## The moves of `ActivateBestChain` -/

section

variable {N : Node} {s : NodeState} {a p q t : Ptr} (hs : IndexInv N s)

include hs

theorem IndexInv.reject : IndexInv N ((((s.recordVerdict p).failValid p).setDirty p).eraseCandidate p) := by
  have hverdict : SameFlow s (s.recordVerdict p) := .of_map rfl rfl rfl
  have hflow := hverdict.trans (.failValid (s.recordVerdict p) p)
  refine hs.congr (hflow.trans (.of_map rfl rfl rfl)) (fun q hq => (List.mem_filter.mp hq).1)
    (List.Sublist.refl _) ?_
  have hstored : Stored (s.recordVerdict p) := hs.stored.of_map rfl rfl fun _ h => h
  exact (hstored.modify_dirty (SameFlow.failValid _ p)).of_map rfl rfl fun _ h => h

theorem IndexInv.failChild : IndexInv N (s.failChild p) := by
  refine hs.congr (SameFlow.failChild s p) (fun q hq => hq) (List.Sublist.refl _) ?_
  refine hs.stored.congr (SameFlow.failChild s p) rfl (fun q hq => hq) fun q => .inr ⟨fun _ => ?_, ?_⟩
  · exact entry_modify_keep (fun e => e.nStatus.failedValid) s p CBlockIndex.failChild (fun _ => rfl) q
  · exact flagsLe_modify (f := CBlockIndex.failChild) (fun _ => ⟨fun h => h, fun _ => rfl⟩) s p q

theorem IndexInv.stake {f : CBlockIndex → CBlockIndex} (same : ∀ e, CBlockIndex.SameButStake e (f e)) :
    IndexInv N (s.modify p f) := by
  have hflow : SameFlow s (s.modify p f) := .modify s p (fun e => (same e).shape)
    (fun e => congrArg BlockStatus.valid (same e).nStatus)
    (fun e => congrArg BlockStatus.haveData (same e).nStatus) (fun e => (same e).nTx)
    (fun e => (same e).nChainTx) fun e => congrArg BlockStatus.haveUndo (same e).nStatus
  refine hs.congr hflow (fun _ h => h) (List.Sublist.refl _) ?_
  refine hs.stored.congr hflow rfl (fun _ h => h) fun q => .inr ⟨fun _ => ?_, ?_⟩
  · exact entry_modify_keep (fun e => e.nStatus.failedValid) s p f
      (fun e => congrArg BlockStatus.failedValid (same e).nStatus) q
  · exact flagsLe_modify (f := f) (fun e => (same e).nStatus.symm ▸ .refl _) s p q

theorem IndexInv.filterCandidates (keep : Ptr → Bool) : IndexInv N
    { s with setBlockIndexCandidates := s.setBlockIndexCandidates.filter keep } :=
  hs.congr (.of_map rfl rfl rfl) (fun _ hq => (List.mem_filter.mp hq).1) (List.Sublist.refl _)
    (hs.stored.of_map rfl rfl fun _ h => h)

theorem IndexInv.record (u : Nat) (r : ConnectResult) (hp : p < s.size) (hnext : s.par p = some t)
    (hlinked : s.linked p) (hvalid : s.failed p = false) : IndexInv N (s.recorded p u r) := by
  have hsize : (s.recorded p u r).size = s.size := (recorded_sameShape s p u r).size
  have hpar : (s.recorded p u r).par = s.par := (recorded_sameShape s p u r).par
  have hdata := hs.flow.linked_data p hp hlinked
  have hself : ((s.recorded p u r).entry p).nStatus.valid = max (s.entry p).nStatus.valid
      BLOCK_VALID_SCRIPTS := by
    rw [recorded_entry_self]
    exact connectedStatus_valid hvalid
  have hthree := (hs.flow.data_valid p hp).mp hdata
  refine ⟨hs.shape.congr (recorded_sameShape s p u r), ⟨?_, ?_, ?_, ?_, ?_, ?_, ?_, ?_, ?_, ?_⟩, ?_⟩
  · intro q hq
    by_cases hqp : q = p
    · subst hqp
      have := hs.flow.valid q (hsize ▸ hq)
      omega
    · rw [recorded_entry_ne s p u r hqp]
      exact hs.flow.valid q (hsize ▸ hq)
  · intro q hq
    rw [recorded_haveData]
    by_cases hqp : q = p
    · subst hqp
      rw [recorded_entry_self]
      exact hs.flow.data_tx q (hsize ▸ hq)
    · rw [recorded_entry_ne s p u r hqp]
      exact hs.flow.data_tx q (hsize ▸ hq)
  · intro q hq
    rw [recorded_haveData]
    by_cases hqp : q = p
    · subst hqp
      refine ⟨fun _ => ?_, fun _ => hdata⟩
      omega
    · rw [recorded_entry_ne s p u r hqp]
      exact hs.flow.data_valid q (hsize ▸ hq)
  · intro q hq
    rw [recorded_linked, recorded_haveData]
    exact hs.flow.linked_data q (hsize ▸ hq)
  · intro q hq hl b hb
    rw [recorded_linked] at hl ⊢
    rw [hpar] at hb
    exact hs.flow.linked_parent q (hsize ▸ hq) hl b hb
  · intro q hq
    rw [recorded_linked, hsize]
    exact hs.flow.candidates q hq
  · intro w hw
    rw [recorded_linked, recorded_haveData, hsize, hpar]
    exact hs.flow.unlinked w hw
  · exact hs.flow.unlinked_nodup
  · intro q hq hroot
    rw [hpar] at hroot
    have hqp : q ≠ p := by
      rintro rfl
      rw [hnext] at hroot
      simp at hroot
    rw [recorded_entry_ne s p u r hqp]
    exact hs.flow.genesis_undo q (hsize ▸ hq) hroot
  · obtain ⟨t, ht, hends, htl, hbest⟩ := hs.flow.active
    exact ⟨t, hsize ▸ ht, (recorded_sameShape s p u r).endsAt hends, (recorded_linked s p u r t).trans htl,
      (congrArg (CoinsView.BestIs _) ((recorded_sameShape s p u r).hash t)).mpr hbest⟩
  · intro q hq
    rcases hs.stored q (hsize ▸ hq) with hmem | ⟨d, hd⟩
    · exact .inl (recorded_dirty_of_mem s p u r hmem)
    · by_cases hqp : q = p
      · subst hqp
        rcases recorded_dirty s q u r with hdirty | hstatus
        · exact .inl hdirty
        · exact .inr ⟨d, hd.of_status (recorded_sameShape s q u r) rfl
            (by rw [recorded_entry_self]; rfl) hstatus⟩
      · have he := recorded_entry_ne s p u r hqp
        exact .inr ⟨d, hd.of_status (recorded_sameShape s p u r) rfl
          (congrArg CBlockIndex.nTx he) (congrArg CBlockIndex.nStatus he)⟩

theorem IndexInv.connect (view : CoinsView) (hp : p < s.size) (hpar : s.par p = some t)
    (ht : s.tip = some t) (hlinked : s.linked p)
    (hbest : view.BestIs (s.entry p).hash) :
    IndexInv N (({ s with pcoinsTip := view } : NodeState).updateTip (some p)) := by
  obtain ⟨-, hends, -⟩ := hs.tip_eq ht
  refine ⟨hs.shape, ?_, hs.stored.of_map rfl rfl fun _ h => h⟩
  refine { hs.flow with active := ?_ }
  exact ⟨p, hp, hends.setTip_child hs.shape.tree hp hpar, hlinked, hbest⟩

theorem IndexInv.disconnect (view : CoinsView) (ht : s.tip = some t) (hpar : s.par t = some q)
    (hbest : view.BestIs (s.entry q).hash) :
    IndexInv N (({ s with pcoinsTip := view } : NodeState).updateTip (some q)) := by
  obtain ⟨hsize, hends, hlinked, -⟩ := hs.tip_eq ht
  refine ⟨hs.shape, ?_, hs.stored.of_map rfl rfl fun _ h => h⟩
  refine { hs.flow with active := ?_ }
  exact ⟨q, hs.shape.tree.graded.closed hsize hpar, hends.setTip_parent hs.shape.tree hsize hpar,
    hs.flow.linked_parent t hsize hlinked q hpar, hbest⟩

omit hs in
/-- What `ActivateBestChain` does keeps the invariant. -/
theorem ChainMove.inv {s' : NodeState} (h : ChainMove s s') (hs : IndexInv N s) : IndexInv N s' := by
  cases h with
  | note | quiet =>
    refine hs.congr (.of_map rfl rfl rfl) (fun _ h => h) (List.Sublist.refl _) ?_
    exact hs.stored.of_map rfl rfl fun _ h => h
  | write =>
    refine hs.congr (.of_map rfl rfl rfl) (fun _ h => h) (List.Sublist.refl _) fun p hp => ?_
    exact .inr (hs.stored.writeBlockIndex p hp)
  | reject => exact hs.reject
  | mint r => exact hs.stake fun e => rfl
  | failChild => exact hs.failChild
  | failTip =>
    refine hs.failChild.congr (.of_map rfl rfl rfl) (fun _ h => h) (List.Sublist.refl _) ?_
    exact hs.failChild.stored.of_map rfl rfl fun _ h => List.mem_cons_of_mem _ h
  | erase => exact hs.filterCandidates _
  | record u r size par _ linked valid => exact hs.record u r size par linked valid
  | connect view size par tip linked _ _ best =>
    exact (hs.connect view size par tip linked best).filterCandidates _
  | disconnect view tip par best => exact hs.disconnect view tip par best

end

end Reddcoin
