import Reddcoin.Index.Init

/-!
# What is written of the index

An entry whose written fields change is put into `setDirtyBlockIndex`, except at the four places of
`QuietPlace`.  Every other entry comes back from the database as it was.
-/

namespace Reddcoin

/-- The fields of an entry that are written. -/
def CBlockIndex.persisted (e : CBlockIndex) : CBlockIndex :=
  { e with hash := 0, pprev := none, pskip := none, nChainWork := 0, nChainTx := 0, nSequenceId := 0 }

/-- The entry was changed at one of the places that do not mark it dirty. -/
def NodeState.Quiet (s : NodeState) (p : Ptr) : Prop :=
  ∃ place, (place, p) ∈ s.quietChanges

/-- The record of the entry holds what the entry holds. -/
def NodeState.Recorded (s : NodeState) (p : Ptr) : Prop :=
  ∃ r, s.blockTree p = some r ∧ r.hashPrev = (s.mapBlockIndex.getBlockHeader p).hashPrevBlock ∧
    r.index.persisted = (s.entry p).persisted

/-- Every entry will be written, was changed quietly, or is on record as it is. -/
structure Persist (s : NodeState) : Prop where
  kept : ∀ p < s.size, p ∈ s.setDirtyBlockIndex ∨ s.Quiet p ∨ s.Recorded p
  written : ∀ p < s.size, (s.entry p).Written
  records : ∀ p < s.size, p ∈ s.setDirtyBlockIndex ∨ ∀ r, s.blockTree p = some r → r.index.Written

section

variable {N : Node} {s s' : NodeState} {p : Ptr} {f : CBlockIndex → CBlockIndex}

/-! ## One move -/

/-- The entries keep what is written of them, unless they are marked. -/
theorem Persist.congr (h : Persist s) (hshape : s.mapBlockIndex.SameShape s'.mapBlockIndex)
    (htree : s'.blockTree = s.blockTree)
    (hdirty : ∀ p ∈ s.setDirtyBlockIndex, p ∈ s'.setDirtyBlockIndex)
    (hquiet : ∀ p, s.Quiet p → s'.Quiet p)
    (hentry : ∀ p, p ∈ s'.setDirtyBlockIndex ∨ s'.Quiet p ∨ (s'.entry p).persisted = (s.entry p).persisted)
    (hwritten : ∀ p, (s.entry p).Written → (s'.entry p).Written) : Persist s' := by
  have hsize : s'.size = s.size := hshape.size
  constructor
  · intro p hp
    rcases hentry p with hmem | hq | hsame
    · exact .inl hmem
    · exact .inr (.inl hq)
    · rcases h.kept p (hsize ▸ hp) with hmem | hq | ⟨r, hr, hprev, hindex⟩
      · exact .inl (hdirty p hmem)
      · exact .inr (.inl (hquiet p hq))
      · refine .inr (.inr ⟨r, (congrFun htree p).trans hr, ?_, hindex.trans hsame.symm⟩)
        rw [hshape.getBlockHeader]
        exact hprev
  · intro p hp
    exact hwritten p (h.written p (hsize ▸ hp))
  · intro p hp
    rw [htree]
    exact (h.records p (hsize ▸ hp)).imp_left (hdirty p)

/-- Only other parts of the state change. -/
theorem Persist.of_map (h : Persist s) (hmap : s'.mapBlockIndex = s.mapBlockIndex)
    (htree : s'.blockTree = s.blockTree)
    (hdirty : ∀ p ∈ s.setDirtyBlockIndex, p ∈ s'.setDirtyBlockIndex)
    (hquiet : ∀ p, s.Quiet p → s'.Quiet p) : Persist s' := by
  have he : ∀ p, s'.entry p = s.entry p := fun p => congrArg (fun m : BlockMap => m.entry p) hmap
  refine h.congr (hmap ▸ .refl _) htree hdirty hquiet (fun p => ?_) fun p hp => ?_
  · rw [he]
    exact .inr (.inr rfl)
  · rw [he]
    exact hp

/-- An entry is changed by `f`, and marked unless the change is on record. -/
theorem Persist.modify (h : Persist s) (hshape : ∀ e, (f e).shape = e.shape)
    (hwritten : ∀ e : CBlockIndex, e.Written → (f e).Written)
    (hnoted : p ∈ s.setDirtyBlockIndex ∨ (f (s.entry p)).persisted = (s.entry p).persisted ∨ s.Quiet p) :
    Persist (s.modify p f) := by
  refine h.congr (.modify _ p hshape) rfl (fun _ hq => hq) (fun _ hq => hq) (fun q => ?_) fun q hq => ?_
  · by_cases hqp : q = p
    · rw [hqp, entry_modify_self]
      rcases hnoted with hmem | hsame | hquiet
      · exact .inl hmem
      · exact .inr (.inr hsame)
      · exact .inr (.inl hquiet)
    · rw [entry_modify_ne hqp]
      exact .inr (.inr rfl)
  · by_cases hqp : q = p
    · rw [hqp] at hq ⊢
      rw [entry_modify_self]
      exact hwritten _ hq
    · rw [entry_modify_ne hqp]
      exact hq

theorem NodeState.Noted.kept (h : s.Noted p f) :
    p ∈ s.setDirtyBlockIndex ∨ (f (s.entry p)).persisted = (s.entry p).persisted ∨ s.Quiet p := by
  rcases h with hmem | hsame | hquiet
  · exact .inl hmem
  · exact .inr (.inl (congrArg CBlockIndex.persisted hsame))
  · exact .inr (.inr hquiet)

theorem Persist.modify_dirty (h : Persist s) (hshape : ∀ e, (f e).shape = e.shape)
    (hwritten : ∀ e : CBlockIndex, e.Written → (f e).Written) : Persist ((s.modify p f).setDirty p) := by
  have hdirty : Persist (s.setDirty p) :=
    h.of_map rfl rfl (fun _ hq => List.mem_cons_of_mem _ hq) fun _ hq => hq
  exact hdirty.modify hshape hwritten (.inl List.mem_cons_self)

theorem Persist.write (h : Persist s) : Persist s.writeBlockIndex := by
  constructor
  · intro p hp
    by_cases hmem : p ∈ s.setDirtyBlockIndex
    · refine .inr (.inr ⟨_, if_pos hmem, rfl, rfl⟩)
    · rcases h.kept p hp with hdirty | hquiet | ⟨r, hr, hrest⟩
      · exact absurd hdirty hmem
      · exact .inr (.inl hquiet)
      · exact .inr (.inr ⟨r, (if_neg hmem).trans hr, hrest⟩)
  · exact h.written
  · intro p hp
    right
    intro r hr
    by_cases hmem : p ∈ s.setDirtyBlockIndex
    · cases (if_pos hmem).symm.trans hr
      exact h.written p hp
    · rcases h.records p hp with hdirty | hall
      · exact absurd hdirty hmem
      · exact hall r ((if_neg hmem).symm.trans hr)

theorem connectedStatus_haveUndo (st : BlockStatus) : (connectedStatus st).haveUndo = true := by
  unfold connectedStatus
  split_ifs with h
  · rw [Bool.and_eq_true] at h
    exact h.1
  · exact BlockStatus.raiseValidity_haveUndo _ _

theorem connectedEntry_written {u : Nat} {r : ConnectResult} {e : CBlockIndex} (h : e.Written) :
    (connectedEntry u r e).Written := by
  have hundo : (connectedEntry u r e).nStatus.haveUndo = true := connectedStatus_haveUndo _
  have hdata : (connectedEntry u r e).nStatus.haveData = e.nStatus.haveData := connectedStatus_haveData
  refine ⟨fun _ hno => ?_, fun hno => h.nDataPos (hdata.symm.trans hno), fun hno => ?_, h.prevoutStake, h.nStakeTime⟩
  · rw [hundo] at hno
    simp at hno
  · rw [hundo] at hno
    simp at hno

theorem Persist.record (h : Persist s) (p : Ptr) (u : Nat) (r : ConnectResult) :
    Persist (s.recorded p u r) := by
  refine h.congr (recorded_sameShape s p u r) rfl (fun q hq => recorded_dirty_of_mem s p u r hq)
    (fun q hq => ?_) (fun q => ?_) fun q hq => ?_
  · obtain ⟨place, hmem⟩ := hq
    refine ⟨place, ?_⟩
    simp only [NodeState.recorded, NodeState.noteQuiet]
    split_ifs
    · exact hmem
    · exact List.mem_cons_of_mem _ hmem
    · exact hmem
  · by_cases hqp : q = p
    · rw [hqp, recorded_entry_self]
      by_cases hrec : (s.entry p).isRecorded = true
      · rcases (noteQuiet_moves s .reconnected p (connectedEntry u r)).2 with hmem | hsame | ⟨place, hmem⟩
        · exact .inl (recorded_dirty_of_mem s p u r hmem)
        · exact .inr (.inr (congrArg CBlockIndex.persisted hsame))
        · refine .inr (.inl ⟨place, ?_⟩)
          simp only [NodeState.recorded, if_pos hrec]
          exact hmem
      · left
        simp only [NodeState.recorded, if_neg hrec]
        exact List.mem_cons_self
    · rw [recorded_entry_ne s p u r hqp]
      exact .inr (.inr rfl)
  · by_cases hqp : q = p
    · rw [hqp] at hq ⊢
      rw [recorded_entry_self]
      exact connectedEntry_written hq
    · rw [recorded_entry_ne s p u r hqp]
      exact hq

theorem ChainMove.persist (move : ChainMove s s') (h : Persist s) : Persist s' := by
  cases move with
  | note | erase | connect | disconnect => exact h.of_map rfl rfl (fun _ hq => hq) fun _ hq => hq
  | quiet =>
    exact h.of_map rfl rfl (fun _ hq => hq) fun q ⟨place, hmem⟩ => ⟨place, List.mem_cons_of_mem _ hmem⟩
  | write => exact h.write
  | mint r noted =>
    exact h.modify (fun _ => rfl) (fun e he => he.of_received rfl) noted.kept
  | @reject p =>
    have hverdict : Persist (s.recordVerdict p) := h.of_map rfl rfl (fun _ hq => hq) fun _ hq => hq
    have hfail : Persist (((s.recordVerdict p).failValid p).setDirty p) :=
      hverdict.modify_dirty (fun _ => rfl) fun _ he => ⟨he.1, he.2, he.3, he.4, he.5⟩
    exact hfail.of_map rfl rfl (fun _ hq => hq) fun _ hq => hq
  | failChild _ _ _ _ noted =>
    exact h.modify (fun _ => rfl) (fun _ he => ⟨he.1, he.2, he.3, he.4, he.5⟩) noted.kept
  | failTip => exact h.modify_dirty (fun _ => rfl) fun _ he => ⟨he.1, he.2, he.3, he.4, he.5⟩
  | @record p t u r => exact h.record p u r

theorem UserMove.persist (move : UserMove s s') (h : Persist s) : Persist s' := by
  cases move with
  | chain move => exact move.persist h
  | @invalidate p =>
    have hfail : Persist ((s.failValid p).setDirty p) :=
      h.modify_dirty (fun _ => rfl) fun _ he => ⟨he.1, he.2, he.3, he.4, he.5⟩
    exact hfail.of_map rfl rfl (fun _ hq => hq) fun _ hq => hq
  | clear => exact h.modify_dirty (fun _ => rfl) fun _ he => ⟨he.1, he.2, he.3, he.4, he.5⟩
  | insert => exact h.of_map rfl rfl (fun _ hq => hq) fun _ hq => hq

theorem childEntry_written (block : CBlockHeader) (q : Ptr) : (childEntry N s block q).Written :=
  ⟨fun _ _ => rfl, fun _ => rfl, fun _ => rfl, fun _ => rfl, fun _ => rfl⟩

theorem Persist.add (h : Persist s) (htree : s.mapBlockIndex.Tree) {e : CBlockIndex} (he : e.Written) :
    Persist (s.addEntry e) := by
  have hdirty : s.size ∈ (s.addEntry e).setDirtyBlockIndex := List.mem_cons_self
  constructor
  · intro p hp
    rcases addEntry_cases hp with hlt | rfl
    · rcases h.kept p hlt with hmem | hquiet | ⟨r, hr, hprev, hindex⟩
      · exact .inl (List.mem_cons_of_mem _ hmem)
      · exact .inr (.inl hquiet)
      · refine .inr (.inr ⟨r, hr, ?_, ?_⟩)
        · rw [addEntry_getBlockHeader_old htree e hlt]
          exact hprev
        · rw [addEntry_entry_old s e hlt]
          exact hindex
    · exact .inl hdirty
  · intro p hp
    rcases addEntry_cases hp with hlt | rfl
    · rw [addEntry_entry_old s e hlt]
      exact h.written p hlt
    · rw [addEntry_entry_new]
      exact he
  · intro p hp
    rcases addEntry_cases hp with hlt | rfl
    · exact (h.records p hlt).imp_left (List.mem_cons_of_mem _)
    · exact .inl hdirty

theorem Move.persist (move : Move N s s') (hs : IndexInv N s) (h : Persist s) : Persist s' := by
  cases move with
  | user move => exact move.persist h
  | @add block q => exact h.add hs.shape.tree (childEntry_written block q)
  | failEmpty => exact h.modify_dirty (fun _ => rfl) fun _ he => ⟨he.1, he.2, he.3, he.4, he.5⟩
  | failQuiet _ _ noted =>
    exact h.modify (fun _ => rfl) (fun _ he => ⟨he.1, he.2, he.3, he.4, he.5⟩) noted.kept
  | @receive block p =>
    have hreceived : Persist ((s.modify p (receivedEntry N (N.env s).findBlockPos block)).setDirty p) :=
      h.modify_dirty (receivedEntry_shape N _ block) fun _ he => receivedEntry_written _ block he
    exact hreceived.of_map rfl rfl (fun _ hq => hq) fun _ hq => hq
  | @link p =>
    have hlinked : Persist (s.modify p fun e =>
        { e with nChainTx := s.chainTx p, nSequenceId := s.nBlockSequenceId }) :=
      h.modify (fun _ => rfl) (fun _ he => ⟨he.1, he.2, he.3, he.4, he.5⟩) (.inr (.inl rfl))
    exact hlinked.of_map rfl rfl (fun _ hq => hq) fun _ hq => hq
  | stake p same _ noted =>
    exact h.modify (fun e => (same e).shape) (fun e he => he.of_received (same e).received) noted.kept
  | drain | wait => exact h.of_map rfl rfl (fun _ hq => hq) fun _ hq => hq

theorem Moves.persist (moves : Moves N s s') (hs : IndexInv N s) (h : Persist s) : Persist s' := by
  induction moves with
  | refl => exact h
  | tail before move ih => exact move.persist (Moves.inv before hs) ih

/-! ## Whole runs -/

theorem Fresh.persist (h : Fresh N s) : Persist s := by
  have hone : ∀ p < s.size, p = 0 := by
    intro p hp
    have hsize := h.starting.size
    omega
  constructor
  · intro p hp
    rw [hone p hp]
    rcases h.starting.stored with hmem | hr
    · exact .inl hmem
    · exact .inr (.inr ⟨_, hr, h.starting.getBlockHeader_prev.symm, rfl⟩)
  · intro p hp
    rw [hone p hp]
    exact h.starting.written
  · intro p hp
    rw [hone p hp]
    rcases h.starting.stored with hmem | hr
    · exact .inl hmem
    · right
      intro r hr'
      cases hr.symm.trans hr'
      exact h.starting.written

theorem CBlockIndex.Written.of_persisted {e e' : CBlockIndex} (h : e.Written)
    (heq : e'.persisted = e.persisted) : e'.Written := by
  have hpersisted : e.persisted.Written := ⟨h.nFile, h.nDataPos, h.nUndoPos, h.prevoutStake, h.nStakeTime⟩
  rw [← heq] at hpersisted
  exact ⟨hpersisted.nFile, hpersisted.nDataPos, hpersisted.nUndoPos, hpersisted.prevoutStake, hpersisted.nStakeTime⟩

/-- After the dirty entries are written, nothing is lost when a record is read. -/
theorem Persist.record_written (h : Persist s) (hp : p < s.size) {r : CDiskBlockIndex}
    (hr : s.writeBlockIndex.blockTree p = some r) : r.index.Written := by
  rcases h.write.records p hp with hmem | hall
  · have hmem : p ∈ ([] : List Ptr) := hmem
    simp at hmem
  · exact hall r hr

theorem Persist.record_persisted (h : Persist s) (hp : p < s.size) {r : CDiskBlockIndex}
    (hr : s.writeBlockIndex.blockTree p = some r) :
    (entryOfRecord N s.writeBlockIndex r).persisted = r.index.persisted := by
  show r.index.written.persisted = r.index.persisted
  rw [(h.record_written hp hr).eq]

theorem Restarted.persist (h : Restarted N s s') (hpersist : Persist s) : Persist s' := by
  have hsize : s'.size = s.size := h.size
  have hrecord : ∀ p < s.size, ∃ r, s'.blockTree p = some r ∧ r.index.Written ∧
      r.hashPrev = (s'.mapBlockIndex.getBlockHeader p).hashPrevBlock ∧
      r.index.persisted = (s'.entry p).persisted := by
    intro p hp
    obtain ⟨r, hr, hstored⟩ := h.entry p hp
    refine ⟨r, (congrFun h.blockTree p).trans hr.record, hpersist.record_written hp hr.record, ?_, ?_⟩
    · rw [h.header p hp]
      exact hr.hashPrev
    · have hentry := hpersist.record_persisted (N := N) hp hr.record
      exact hentry.symm.trans (congrArg CBlockIndex.persisted hstored).symm
  constructor
  · intro p hp
    obtain ⟨r, hr, -, hprev, hindex⟩ := hrecord p (hsize ▸ hp)
    exact .inr (.inr ⟨r, hr, hprev, hindex⟩)
  · intro p hp
    obtain ⟨r, -, hwritten, -, hindex⟩ := hrecord p (hsize ▸ hp)
    exact hwritten.of_persisted hindex.symm
  · intro p hp
    obtain ⟨r, hr, hwritten, -, -⟩ := hrecord p (hsize ▸ hp)
    right
    intro r' hr'
    rw [← Option.mem_unique hr hr']
    exact hwritten

theorem run_persist {op : Op} (hs : IndexInv N s) (h : Persist s) {r : Check Unit}
    (hrun : op.run N s = some (r, s')) : Persist s' := by
  by_cases hop : ∃ A, op = .restart A
  · obtain ⟨A, rfl⟩ := hop
    obtain ⟨-, hzero, hrun⟩ := run_restart hrun
    exact (restart_restarted hs hzero hrun).persist h
  · exact (run_moves hs hrun fun A heq => hop ⟨A, heq⟩).persist hs h

theorem Reachable.persist (h : Reachable N s) : Persist s := by
  induction h with
  | init isGenesis run active => exact (initBlockIndex_fresh isGenesis run active).persist
  | reindex isGenesis run active => exact (processNewBlock_fresh isGenesis run active).persist
  | step op before step ih =>
    obtain ⟨r, s₁, hrun, -, rfl⟩ := step
    exact (ChainMove.note s₁ _ _ _ _).persist (run_persist before.inv ih hrun)

/-! ## Writing and loading -/

theorem Persist.loaded (hs : IndexInv N s) (h : Persist s) (A : Addresses) (hp : p < s.size) :
    ∃ r, OnDisk s.writeBlockIndex p r ∧
      (loadBlockIndexGuts N s.writeBlockIndex A).entry p = entryOfRecord N s.writeBlockIndex r ∧
      ((loadBlockIndexGuts N s.writeBlockIndex A).entry p).persisted = r.index.persisted ∧
      ((loadBlockIndexGuts N s.writeBlockIndex A).entry p).hash = (s.entry p).hash := by
  have hw : IndexInv N s.writeBlockIndex := (ChainMove.write s).inv hs
  obtain ⟨r, hr⟩ := hs.stored.writeBlockIndex p hp
  have hentry : (loadBlockIndexGuts N s.writeBlockIndex A).entry p = entryOfRecord N s.writeBlockIndex r := by
    exact loadBlockIndexGuts_record hr.record
  refine ⟨r, hr, hentry, ?_, ?_⟩
  · rw [hentry]
    exact h.record_persisted hp hr.record
  · rw [hentry]
    exact hr.getBlockHash hw.shape hp

/-- The parent is found again by its hash. -/
theorem Persist.loaded_hashPrevBlock (hs : IndexInv N s) (h : Persist s) (A : Addresses) (hp : p < s.size) :
    ((loadBlockIndexGuts N s.writeBlockIndex A).mapBlockIndex.getBlockHeader p).hashPrevBlock =
      (s.mapBlockIndex.getBlockHeader p).hashPrevBlock := by
  have hw : IndexInv N s.writeBlockIndex := (ChainMove.write s).inv hs
  obtain ⟨r, hr, hentry, -, -⟩ := h.loaded hs A hp
  have hpprev : ((loadBlockIndexGuts N s.writeBlockIndex A).mapBlockIndex.entry p).pprev =
      if r.hashPrev = 0 then none else s.mapBlockIndex.find r.hashPrev := by
    rw [show (loadBlockIndexGuts N s.writeBlockIndex A).mapBlockIndex.entry p = _ from hentry]
    show (if r.hashPrev = 0 then none else findRecord N s.writeBlockIndex r.hashPrev) = _
    rw [findRecord_eq hw.shape hs.stored.writeBlockIndex]
    rfl
  have hprev : r.hashPrev = (s.mapBlockIndex.getBlockHeader p).hashPrevBlock := hr.hashPrev
  rw [← hprev]
  simp only [BlockMap.getBlockHeader, hpprev]
  split_ifs with hzero
  · exact hzero.symm
  · cases hpar : s.par p with
    | none =>
      -- Only the genesis block has no parent, and its record names the hash 0.
      have hnone : (s.mapBlockIndex.getBlockHeader p).hashPrevBlock = 0 := by
        simp only [BlockMap.getBlockHeader]
        rw [show (s.mapBlockIndex.entry p).pprev = none from hpar]
      exact absurd (hprev.trans hnone) hzero
    | some q =>
      have hq := hs.shape.tree.graded.closed hp hpar
      have hhash : r.hashPrev = (s.entry q).hash := by
        rw [hprev]
        simp only [BlockMap.getBlockHeader]
        rw [show (s.mapBlockIndex.entry p).pprev = some q from hpar]
        rfl
      obtain ⟨-, -, -, -, hloaded⟩ := h.loaded hs A hq
      rw [hhash, show s.mapBlockIndex.find (s.entry q).hash = some q from hs.shape.find_eq hq]
      exact hloaded

/-- After the dirty entries are written and the index is loaded, every entry that no step of the run has
changed quietly is back with the fields that it had. -/
theorem loadBlockIndexGuts_restores (h : Reachable N s) (A : Addresses) (hp : p < s.size)
    (hquiet : ¬ s.Quiet p) :
    (loadBlockIndexGuts N s.writeBlockIndex A).size = s.size ∧
      ((loadBlockIndexGuts N s.writeBlockIndex A).entry p).persisted = (s.entry p).persisted ∧
      ((loadBlockIndexGuts N s.writeBlockIndex A).entry p).hash = (s.entry p).hash ∧
      (loadBlockIndexGuts N s.writeBlockIndex A).mapBlockIndex.getBlockHeader p =
        s.mapBlockIndex.getBlockHeader p := by
  have hs := h.inv
  have hpersist := h.persist
  obtain ⟨r, hr, -, hpersisted, hhash⟩ := hpersist.loaded hs A hp
  have hsame : r.index.persisted = (s.entry p).persisted := by
    rcases hpersist.write.kept p hp with hmem | hq | ⟨r', hr', -, hindex⟩
    · have hmem : p ∈ ([] : List Ptr) := hmem
      simp at hmem
    · exact absurd hq hquiet
    · rw [← Option.mem_unique hr' hr.record]
      exact hindex
  have hall := hpersisted.trans hsame
  refine ⟨rfl, hall, hhash, ?_⟩
  have hprev := hpersist.loaded_hashPrevBlock hs A hp
  have hver := congrArg CBlockIndex.nVersion hall
  have hmerkle := congrArg CBlockIndex.hashMerkleRoot hall
  have htime := congrArg CBlockIndex.nTime hall
  have hbits := congrArg CBlockIndex.nBits hall
  have hnonce := congrArg CBlockIndex.nNonce hall
  exact CBlockHeader.ext hver hprev hmerkle htime hbits hnonce

end

namespace Example

/-- A node that writes whenever it connects a block. -/
def flushingNode : Node :=
  { node with world := fun _ => { env with needsFlush := true } }

def flushingStart : NodeState :=
  left (initBlockIndex flushingNode genesisBlock addresses 2)

/-- A block whose coinbase is not final. -/
def lockedBlock : CBlock :=
  let unsealed : CBlock :=
    { nodeBlock 7000 200 2 with vtx := [{ coinbaseTx [keyOut 20] with nLockTime := 500 }] }
  { unsealed with hashMerkleRoot := (unsealed.buildMerkleTree nodeCrypto).1 }

/-- The header of the block is indexed. -/
def headerFirst : NodeState :=
  after flushingNode flushingStart (.acceptBlockHeader lockedBlock.toCBlockHeader)

/-- Another block is connected, and the index is written. -/
def headerWritten : NodeState :=
  after flushingNode headerFirst (.processNewBlock 3 (nodeBlock 7000 200 1))

/-- The block itself arrives. -/
def lockedMarked : NodeState :=
  after flushingNode headerWritten (.acceptBlock lockedBlock)

theorem reachable_lockedMarked : Reachable flushingNode lockedMarked := by
  have hstart : Reachable flushingNode flushingStart :=
    .init ⟨by decide, by decide, by decide⟩ (eq_some_left (by decide)) (by decide)
  have hheader : Reachable flushingNode headerFirst := .step _ hstart (step_after (by decide))
  have hwritten : Reachable flushingNode headerWritten := .step _ hheader (step_after (by decide))
  exact .step _ hwritten (step_after (by decide))

end Example

open Example

theorem loadBlockIndexGuts_restores_example :
    ((loadBlockIndexGuts flushingNode lockedMarked.writeBlockIndex
      addresses).entry 2).persisted = (lockedMarked.entry 2).persisted := by
  have hquiet : ¬ lockedMarked.Quiet 2 := by
    rintro ⟨place, hmem⟩
    have hone : lockedMarked.quietChanges = [(.nonFinal, 1)] := by decide
    rw [hone] at hmem
    simp at hmem
  exact (loadBlockIndexGuts_restores reachable_lockedMarked addresses (by decide) hquiet).2.1

/-- The mark on a block that is not final is lost: its entry is not written again. -/
theorem loadBlockIndexGuts_loses_mark : Reachable flushingNode lockedMarked ∧ 1 < lockedMarked.size ∧
    (lockedMarked.entry 1).nStatus.failedValid = true ∧
    ((loadBlockIndexGuts flushingNode lockedMarked.writeBlockIndex
      addresses).entry 1).nStatus.failedValid = false :=
  ⟨reachable_lockedMarked, by decide, by decide, by decide⟩

/-- A node that restarts has the index and the tip that it had, with the candidates that are not worse than the tip. -/
theorem reachable_restarted {N : Node} {s s' : NodeState} (h : Reachable N s) {A : Addresses} {r : Check Unit}
    (hrun : (Op.restart A).run N s = some (r, s')) : r = .ok () ∧ Restarted N s s' := by
  obtain ⟨hr, hzero, hrun⟩ := run_restart hrun
  exact ⟨hr, restart_restarted h.inv hzero hrun⟩

theorem reachable_restarted_lockedMarked :
    Restarted flushingNode lockedMarked (left ((Op.restart addresses).run flushingNode lockedMarked)) :=
  (reachable_restarted reachable_lockedMarked (eq_some_left (by decide))).2

end Reddcoin
