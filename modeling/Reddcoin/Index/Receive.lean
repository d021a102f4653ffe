import Reddcoin.Index.Invariant

/-!
# Moves that add headers and blocks

The rest of the moves, and with it the invariant for all of them.
-/

namespace Reddcoin

open Forest (Anc Graded path)

/-! ## The entry of a received block -/

section

variable (N : Node) (pos : Nat × Nat) (block : CBlock) (e : CBlockIndex) {s s' : NodeState}

theorem receivedEntry_shape : (receivedEntry N pos block e).shape = e.shape := by
  unfold receivedEntry
  dsimp only
  split <;> rfl

theorem receivedEntry_nTx : (receivedEntry N pos block e).nTx = block.vtx.length := by
  unfold receivedEntry
  dsimp only
  split <;> rfl

theorem receivedEntry_nChainTx : (receivedEntry N pos block e).nChainTx = 0 := by
  unfold receivedEntry
  dsimp only
  split <;> rfl

theorem receivedEntry_nSequenceId : (receivedEntry N pos block e).nSequenceId = e.nSequenceId := by
  unfold receivedEntry
  dsimp only
  split <;> rfl

theorem receivedEntry_nStatus : (receivedEntry N pos block e).nStatus =
    ({ e.nStatus with haveData := true }).raiseValidity BLOCK_VALID_TRANSACTIONS := by
  unfold receivedEntry
  dsimp only
  split <;> rfl

theorem receivedEntry_haveData : (receivedEntry N pos block e).nStatus.haveData = true := by
  rw [receivedEntry_nStatus, BlockStatus.raiseValidity_haveData]

theorem receivedEntry_haveUndo : (receivedEntry N pos block e).nStatus.haveUndo = e.nStatus.haveUndo := by
  rw [receivedEntry_nStatus, BlockStatus.raiseValidity_haveUndo]

theorem receivedEntry_valid (h : e.failed = false) :
    (receivedEntry N pos block e).nStatus.valid = max e.nStatus.valid BLOCK_VALID_TRANSACTIONS := by
  have h' : ({ e.nStatus with haveData := true } : BlockStatus).failed = false := h
  rw [receivedEntry_nStatus, BlockStatus.raiseValidity_valid h']

theorem receivedEntry_failed : (receivedEntry N pos block e).failed = e.failed := by
  unfold CBlockIndex.failed BlockStatus.failed
  rw [receivedEntry_nStatus, BlockStatus.raiseValidity_failedValid, BlockStatus.raiseValidity_failedChild]

end

section

variable {N : Node} {s : NodeState} {p q : Ptr} {block : CBlock}

theorem receiveData_entry_self :
    (receiveData N s block p).entry p = receivedEntry N (N.env s).findBlockPos block (s.entry p) :=
  if_pos rfl

theorem receiveData_entry_ne (hne : q ≠ p) : (receiveData N s block p).entry q = s.entry q :=
  if_neg hne

theorem receiveData_sameShape : s.mapBlockIndex.SameShape (receiveData N s block p).mapBlockIndex :=
  .modify _ p (receivedEntry_shape N _ block)

theorem receiveData_haveData :
    (receiveData N s block p).haveData q = (s.haveData q || decide (q = p)) := by
  unfold NodeState.haveData
  by_cases hq : q = p
  · subst hq
    rw [receiveData_entry_self, receivedEntry_haveData]
    simp
  · rw [receiveData_entry_ne hq]
    simp [hq]

theorem receiveData_linked_self : (receiveData N s block p).linked p = false := by
  unfold NodeState.linked
  rw [receiveData_entry_self]
  unfold CBlockIndex.linked
  rw [receivedEntry_nChainTx]
  rfl

theorem receiveData_linked_ne (hne : q ≠ p) : (receiveData N s block p).linked q = s.linked q := by
  unfold NodeState.linked
  rw [receiveData_entry_ne hne]

theorem IndexInv.receive (hs : IndexInv N s) (hp : p < s.size) (hempty : s.haveData p = false)
    (hvalid : s.failed p = false) (htxs : block.vtx ≠ []) : IndexInv N (receiveData N s block p) := by
  have hsize : (receiveData N s block p).size = s.size := rfl
  have hpar : (receiveData N s block p).par = s.par := receiveData_sameShape.par
  have hunl : s.linked p = false := by
    by_contra h
    rw [Bool.not_eq_false] at h
    have := hs.flow.linked_data p hp h
    simp [hempty] at this
  have hlinked : ∀ q, (receiveData N s block p).linked q = s.linked q := by
    intro q
    by_cases hq : q = p
    · rw [hq, receiveData_linked_self, hunl]
    · exact receiveData_linked_ne hq
  have hdata : ∀ q, s.haveData q = true → (receiveData N s block p).haveData q = true := by
    intro q hq
    rw [receiveData_haveData, hq]
    rfl
  have hself : (receiveData N s block p).haveData p = true := by
    rw [receiveData_haveData]
    simp
  have hval := receivedEntry_valid N (N.env s).findBlockPos block (s.entry p) hvalid
  refine ⟨hs.shape.congr receiveData_sameShape, ⟨?_, ?_, ?_, ?_, ?_, ?_, ?_, ?_, ?_, ?_⟩, ?_⟩
  · intro q hq
    by_cases hqp : q = p
    · subst hqp
      rw [receiveData_entry_self]
      have := hs.flow.valid q hq
      omega
    · rw [receiveData_entry_ne hqp]
      exact hs.flow.valid q hq
  · intro q hq
    by_cases hqp : q = p
    · subst hqp
      rw [receiveData_entry_self, receivedEntry_nTx]
      exact ⟨fun _ => List.length_pos_iff.mpr htxs, fun _ => hself⟩
    · rw [receiveData_entry_ne hqp, receiveData_haveData]
      simp only [hqp, decide_false, Bool.or_false]
      exact hs.flow.data_tx q hq
  · intro q hq
    by_cases hqp : q = p
    · subst hqp
      rw [receiveData_entry_self, hval]
      exact ⟨fun _ => Nat.le_max_right _ _, fun _ => hself⟩
    · rw [receiveData_entry_ne hqp, receiveData_haveData]
      simp only [hqp, decide_false, Bool.or_false]
      exact hs.flow.data_valid q hq
  · intro q hq hl
    rw [hlinked] at hl
    exact hdata q (hs.flow.linked_data q hq hl)
  · intro q hq hl b hb
    rw [hlinked] at hl ⊢
    rw [hpar] at hb
    exact hs.flow.linked_parent q hq hl b hb
  · intro q hq
    rw [hlinked]
    exact hs.flow.candidates q hq
  · intro w hw
    obtain ⟨hw₁, hw₂, hw₃, hw₄⟩ := hs.flow.unlinked w hw
    rw [hlinked, hpar]
    exact ⟨hw₁, hw₂, hdata _ hw₃, hw₄⟩
  · exact hs.flow.unlinked_nodup
  · intro q hq hroot
    rw [hpar] at hroot
    have hundo : ((receiveData N s block p).entry q).nStatus.haveUndo = (s.entry q).nStatus.haveUndo :=
      entry_modify_keep (fun e => e.nStatus.haveUndo) s p (receivedEntry N (N.env s).findBlockPos block)
        (receivedEntry_haveUndo N _ block) q
    rw [hundo]
    exact hs.flow.genesis_undo q hq hroot
  · obtain ⟨t, ht, hends, htl, hbest⟩ := hs.flow.active
    exact ⟨t, ht, receiveData_sameShape.endsAt hends, (hlinked t).trans htl,
      (congrArg (CoinsView.BestIs _) (receiveData_sameShape.hash t)).mpr hbest⟩
  · intro q hq
    by_cases hqp : q = p
    · subst hqp
      exact .inl List.mem_cons_self
    · rcases hs.stored q hq with hmem | ⟨d, hd⟩
      · exact .inl (List.mem_cons_of_mem _ hmem)
      · have he : (receiveData N s block p).entry q = s.entry q := receiveData_entry_ne hqp
        exact .inr ⟨d, hd.of_status receiveData_sameShape rfl (congrArg CBlockIndex.nTx he)
          (congrArg CBlockIndex.nStatus he)⟩

end

/-! ## Linking an entry -/

section

variable {N : Node} {s : NodeState} {p q : Ptr}

/-- The number of transactions up to an entry. -/
def NodeState.chainTx (s : NodeState) (p : Ptr) : Nat :=
  (match s.par p with
    | some q => (s.entry q).nChainTx
    | none => 0) + (s.entry p).nTx

theorem link_entry_self : (s.link p).entry p =
    { s.entry p with nChainTx := s.chainTx p, nSequenceId := s.nBlockSequenceId } :=
  if_pos rfl

theorem link_entry_ne (hne : q ≠ p) : (s.link p).entry q = s.entry q :=
  if_neg hne

theorem link_sameShape : s.mapBlockIndex.SameShape (s.link p).mapBlockIndex := by
  refine ⟨rfl, fun q => ?_⟩
  by_cases hq : q = p
  · subst hq
    show ((s.link q).entry q).shape = _
    rw [link_entry_self]
    rfl
  · exact congrArg CBlockIndex.shape (link_entry_ne hq)

theorem link_nStatus (q : Ptr) : ((s.link p).entry q).nStatus = (s.entry q).nStatus := by
  by_cases hq : q = p
  · rw [hq, link_entry_self]
  · rw [link_entry_ne hq]

theorem link_nTx (q : Ptr) : ((s.link p).entry q).nTx = (s.entry q).nTx := by
  by_cases hq : q = p
  · rw [hq, link_entry_self]
  · rw [link_entry_ne hq]

theorem link_haveData (q : Ptr) : (s.link p).haveData q = s.haveData q :=
  congrArg BlockStatus.haveData (link_nStatus q)

theorem link_linked_ne (hne : q ≠ p) : (s.link p).linked q = s.linked q := by
  unfold NodeState.linked
  rw [link_entry_ne hne]

theorem link_linked_self (htx : 0 < (s.entry p).nTx) : (s.link p).linked p = true := by
  unfold NodeState.linked
  rw [link_entry_self]
  refine decide_eq_true ?_
  show s.chainTx p ≠ 0
  unfold NodeState.chainTx
  omega

theorem IndexInv.link (hs : IndexInv N s) (hp : p < s.size) (hdata : s.haveData p)
    (hparent : ∀ q, s.par p = some q → s.linked q)
    (hdrained : ∀ w ∈ s.mapBlocksUnlinked, w.2 ≠ p) : IndexInv N (s.link p) := by
  have hpar : (s.link p).par = s.par := link_sameShape.par
  have hself := link_linked_self ((hs.flow.data_tx p hp).mp hdata)
  have hmono : ∀ q, s.linked q = true → (s.link p).linked q = true := by
    intro q hq
    by_cases hqp : q = p
    · rw [hqp]
      exact hself
    · rw [link_linked_ne hqp]
      exact hq
  refine ⟨hs.shape.congr link_sameShape, ⟨?_, ?_, ?_, ?_, ?_, ?_, ?_, ?_, ?_, ?_⟩, ?_⟩
  · intro q hq
    rw [link_nStatus]
    exact hs.flow.valid q hq
  · intro q hq
    rw [link_haveData, link_nTx]
    exact hs.flow.data_tx q hq
  · intro q hq
    rw [link_haveData, link_nStatus]
    exact hs.flow.data_valid q hq
  · intro q hq hl
    rw [link_haveData]
    by_cases hqp : q = p
    · rw [hqp]
      exact hdata
    · rw [link_linked_ne hqp] at hl
      exact hs.flow.linked_data q hq hl
  · intro q hq hl b hb
    rw [hpar] at hb
    by_cases hqp : q = p
    · rw [hqp] at hb
      exact hmono b (hparent b hb)
    · rw [link_linked_ne hqp] at hl
      exact hmono b (hs.flow.linked_parent q hq hl b hb)
  · intro q hq
    obtain ⟨hq₁, hq₂⟩ := hs.flow.candidates q hq
    exact ⟨hq₁, hmono q hq₂⟩
  · intro w hw
    rw [link_haveData, hpar, link_linked_ne (hdrained w hw)]
    exact hs.flow.unlinked w hw
  · exact hs.flow.unlinked_nodup
  · intro q hq hroot
    rw [hpar] at hroot
    rw [link_nStatus]
    exact hs.flow.genesis_undo q hq hroot
  · obtain ⟨t, ht, hends, htl, hbest⟩ := hs.flow.active
    exact ⟨t, ht, link_sameShape.endsAt hends, hmono t htl,
      (congrArg (CoinsView.BestIs _) (link_sameShape.hash t)).mpr hbest⟩
  · intro q hq
    rcases hs.stored q hq with hmem | ⟨d, hd⟩
    · exact .inl hmem
    · exact .inr ⟨d, hd.of_status link_sameShape rfl (link_nTx q) (link_nStatus q)⟩

end

/-! ## A new entry -/

section

variable {N : Node} {s : NodeState} {block : CBlockHeader} {q : Ptr}

theorem IndexInv.add (hs : IndexInv N s) (hnew : s.mapBlockIndex.find (N.C.headerHash block) = none)
    (hq : s.mapBlockIndex.find block.hashPrevBlock = some q)
    (hpow : block.nVersion ≤ POW_BLOCK_VERSION → s.ht q + 1 ≤ N.P.lastProofOfWorkHeight) :
    IndexInv N (s.addEntry (childEntry N s block q)) := by
  have hold (p) (hp : p < s.size) := addEntry_entry_old s (childEntry N s block q) hp
  have hnewe := addEntry_entry_new s (childEntry N s block q)
  have hdata (p) (hp : p < s.size) := addEntry_haveData_old s (childEntry N s block q) hp
  have hlinked (p) (hp : p < s.size) := addEntry_linked_old s (childEntry N s block q) hp
  have hnvalid : (childEntry N s block q).nStatus.valid = BLOCK_VALID_TREE := rfl
  refine ⟨addEntry_shape hs.shape hnew hq hpow, ⟨?_, ?_, ?_, ?_, ?_, ?_, ?_, ?_, ?_, ?_⟩, ?_⟩
  · intro p hp
    rcases addEntry_cases hp with hlt | rfl
    · rw [hold p hlt]
      exact hs.flow.valid p hlt
    · rw [hnewe, hnvalid]
  · intro p hp
    rcases addEntry_cases hp with hlt | rfl
    · rw [hdata p hlt, hold p hlt]
      exact hs.flow.data_tx p hlt
    · rw [childEntry_haveData, hnewe]
      show false = true ↔ 0 < 0
      simp
  · intro p hp
    rcases addEntry_cases hp with hlt | rfl
    · rw [hdata p hlt, hold p hlt]
      exact hs.flow.data_valid p hlt
    · rw [childEntry_haveData, hnewe, hnvalid]
      simp [BLOCK_VALID_TREE, BLOCK_VALID_TRANSACTIONS]
  · intro p hp hl
    rcases addEntry_cases hp with hlt | rfl
    · rw [hlinked p hlt] at hl
      rw [hdata p hlt]
      exact hs.flow.linked_data p hlt hl
    · rw [childEntry_linked] at hl
      simp at hl
  · intro p hp hl b hb
    rcases addEntry_cases hp with hlt | rfl
    · rw [hlinked p hlt] at hl
      rw [addEntry_par_old s _ hlt] at hb
      rw [hlinked b (hs.shape.tree.graded.closed hlt hb)]
      exact hs.flow.linked_parent p hlt hl b hb
    · rw [childEntry_linked] at hl
      simp at hl
  · intro p hp
    obtain ⟨hlt, hl⟩ := hs.flow.candidates p hp
    exact ⟨Nat.lt_succ_of_lt hlt, (hlinked p hlt).trans hl⟩
  · intro w hw
    obtain ⟨hlt, hpar, hd, hl⟩ := hs.flow.unlinked w hw
    exact ⟨Nat.lt_succ_of_lt hlt, (addEntry_par_old s _ hlt).trans hpar, (hdata _ hlt).trans hd,
      (hlinked _ hlt).trans hl⟩
  · exact hs.flow.unlinked_nodup
  · intro p hp hroot
    rcases addEntry_cases hp with hlt | rfl
    · rw [addEntry_par_old s _ hlt] at hroot
      rw [hold p hlt]
      exact hs.flow.genesis_undo p hlt hroot
    · rw [hnewe]
      rfl
  · obtain ⟨t, ht, hends, htl, hbest⟩ := hs.flow.active
    refine ⟨t, Nat.lt_succ_of_lt ht, ?_, (hlinked t ht).trans htl, ?_⟩
    · show s.chainActive = (path (s.addEntry (childEntry N s block q)).par
        ((s.addEntry (childEntry N s block q)).ht t) t).map some
      rw [addEntry_ht_old s _ ht, addEntry_path hs.shape.tree _ _ ht]
      exact hends
    · rw [hold t ht]
      exact hbest
  · intro p hp
    rcases addEntry_cases hp with hlt | rfl
    · rcases hs.stored p hlt with hmem | ⟨d, hd⟩
      · exact .inl (List.mem_cons_of_mem _ hmem)
      · refine .inr ⟨d, hd.record, ?_, ?_, ?_, ?_, ?_, ?_, ?_, ?_⟩
        · rw [addEntry_getBlockHeader_old hs.shape.tree _ hlt]
          exact hd.hashPrev
        · rw [hold p hlt]
          exact hd.shape
        · rw [hold p hlt]
          exact hd.nTx
        · rw [hold p hlt]
          exact hd.valid
        · rw [hdata p hlt]
          exact hd.haveData
        · rw [hold p hlt]
          exact hd.haveUndo
        · rw [hdata p hlt, hold p hlt]
          exact hd.failedValid
        · rw [hold p hlt]
          exact hd.flags
    · exact .inl List.mem_cons_self

end

/-! ## All moves -/

theorem UserMove.inv {N : Node} (h : UserMove s s') (hs : IndexInv N s) : IndexInv N s' := by
  cases h with
  | chain move => exact move.inv hs
  | @invalidate p size =>
    refine hs.congr ((SameFlow.failValid s p).trans (.of_map rfl rfl rfl))
      (fun _ h => (List.mem_filter.mp h).1) (List.Sublist.refl _) ?_
    exact (hs.stored.modify_dirty (.failValid s p)).of_map rfl rfl fun _ h => h
  | @clear p size =>
    refine hs.congr ((SameFlow.clearFailed s p).trans (.of_map rfl rfl rfl)) (fun _ h => h)
      (List.Sublist.refl _) ?_
    exact hs.stored.modify_dirty (.clearFailed s p)
  | @insert p size linked =>
    refine ⟨hs.shape, { hs.flow with candidates := fun q hq => ?_ }, hs.stored.of_map rfl rfl fun _ h => h⟩
    have hq' : q = p ∨ q ∈ s.setBlockIndexCandidates := by
      simp only [NodeState.insertCandidate] at hq
      split_ifs at hq
      · exact .inr hq
      · exact List.mem_cons.mp hq
    rcases hq' with rfl | hmem
    · exact ⟨size, linked⟩
    · exact hs.flow.candidates q hmem

theorem Move.inv {N : Node} (h : Move N s s') (hs : IndexInv N s) : IndexInv N s' := by
  cases h with
  | user move => exact move.inv hs
  | add new prev proofOfWork => exact hs.add new prev proofOfWork
  | @failEmpty p size empty =>
    refine hs.congr ((SameFlow.failValid s p).trans (.of_map rfl rfl rfl)) (fun _ h => h)
      (List.Sublist.refl _) ?_
    exact hs.stored.modify_dirty (.failValid s p)
  | @failQuiet p size empty =>
    refine hs.congr (.failValid s p) (fun _ h => h) (List.Sublist.refl _) ?_
    refine hs.stored.congr (.failValid s p) rfl (fun _ h => h) fun q => .inr ⟨fun hdata => ?_, ?_⟩
    · by_cases hq : q = p
      · rw [hq, empty] at hdata
        simp at hdata
      · exact congrArg (fun e => e.nStatus.failedValid) (entry_modify_ne hq)
    · exact flagsLe_modify (f := CBlockIndex.failValid) (fun _ => ⟨fun _ => rfl, fun h => h⟩) s p q
  | receive size empty valid txs hash => exact hs.receive size empty valid txs
  | link size data unlinked parent drained => exact hs.link size data parent drained
  | stake p same => exact hs.stake same
  | drain p =>
    refine hs.congr (.of_map rfl rfl rfl) (fun _ h => h) List.filter_sublist ?_
    exact hs.stored.of_map rfl rfl fun _ h => h
  | @wait q p size par data unlinked new =>
    refine ⟨hs.shape, { hs.flow with unlinked := ?_, unlinked_nodup := ?_ }, hs.stored.of_map rfl rfl fun _ h => h⟩
    · intro w hw
      rcases List.mem_append.mp hw with hw | hw
      · exact hs.flow.unlinked w hw
      · obtain rfl := List.mem_singleton.mp hw
        exact ⟨size, par, data, unlinked⟩
    · refine hs.flow.unlinked_nodup.append (List.nodup_singleton _) ?_
      intro w hw hmem
      obtain rfl := List.mem_singleton.mp hmem
      exact new _ hw rfl

theorem Moves.inv {N : Node} (h : Moves N s s') (hs : IndexInv N s) : IndexInv N s' := by
  induction h with
  | refl => exact hs
  | tail _ move ih => exact move.inv ih

end Reddcoin
