import Reddcoin.Connect.RoundTrip
import Reddcoin.Files.BlockFiles

/-!
# Reindexing

`LoadExternalBlockFile` goes through the records of a block file and hands each block to `ProcessNewBlock`.  A block
whose parent is not indexed yet is parked under the hash of its parent, across files, and taken up again when the parent
has been indexed.  The checks that `ProcessNewBlock` makes are a parameter here; where the block is recorded is not.
-/

namespace Reddcoin

open List

variable {records : List BlockRecord} {files : List (List BlockRecord)}

/-- What the reindexer reads and sets of a `CBlockIndex`. -/
structure BlockEntry where
  /-- `nStatus & BLOCK_HAVE_DATA`. -/
  fHaveData : Bool
  pos : CDiskBlockPos
deriving DecidableEq

abbrev ReindexMap := Uint256 → Option BlockEntry

/-- The node around the reindexer. -/
structure ReindexNode where
  C : Crypto
  hashGenesisBlock : Uint256
  readBlockFromDisk : CDiskBlockPos → Option CBlock
  /-- Whether the block passes `CheckBlock`, `AcceptBlockHeader`, the checks of `AcceptBlock` and `ActivateBestChain`. -/
  fAccepts : ReindexMap → CBlock → Bool
  /-- Whether a block that does not leaves `state.IsError()`. -/
  fError : ReindexMap → CBlock → Bool

/-- `mapBlocksUnknownParent` in the order of insertion, and `nLoaded` of the current file. -/
structure ReindexState where
  mapBlockIndex : ReindexMap
  mapBlocksUnknownParent : List (Uint256 × CDiskBlockPos)
  nLoaded : Nat

/-- A record of a block file: the position of a block in the file, and the block. -/
abbrev BlockRecord := Nat × CBlock

section

variable (N : ReindexNode)

def ReindexNode.getHash (block : CBlock) : Uint256 :=
  N.C.headerHash block.toCBlockHeader

/-- `ProcessNewBlock` with a known position.  `AcceptBlock` does nothing more for a block that has data. -/
def ReindexNode.processNewBlock (mapBlockIndex : ReindexMap) (block : CBlock) (dbp : CDiskBlockPos) : ReindexMap × Bool :=
  if N.fAccepts mapBlockIndex block then
    match mapBlockIndex (N.getHash block) with
    | some { fHaveData := true, pos := _ } => (mapBlockIndex, true)
    | _ => (Function.update mapBlockIndex (N.getHash block) (some { fHaveData := true, pos := dbp }), true)
  else (mapBlockIndex, false)

/-- One turn of the loop over the children of a block. -/
def loadChild (sq : ReindexState × List Uint256) (pos : CDiskBlockPos) : ReindexState × List Uint256 :=
  match N.readBlockFromDisk pos with
  | none => sq
  | some block =>
    let (mapBlockIndex, fOk) := N.processNewBlock sq.1.mapBlockIndex block pos
    if fOk then
      ({ sq.1 with mapBlockIndex := mapBlockIndex, nLoaded := sq.1.nLoaded + 1 }, sq.2 ++ [N.getHash block])
    else ({ sq.1 with mapBlockIndex := mapBlockIndex }, sq.2)

/-- The entries of `mapBlocksUnknownParent` for a parent. -/
def ReindexState.childrenOf (s : ReindexState) (head : Uint256) : List CDiskBlockPos :=
  (s.mapBlocksUnknownParent.filter fun entry => decide (entry.1 = head)).map Prod.snd

def ReindexState.eraseChildrenOf (s : ReindexState) (head : Uint256) : ReindexState :=
  { s with mapBlocksUnknownParent := s.mapBlocksUnknownParent.filter fun entry => decide (entry.1 ≠ head) }

/-- The loop over the queue, for at most the given number of turns; nothing when it has not ended by then. -/
def loadQueue : Nat → ReindexState → List Uint256 → Option ReindexState
  | _, s, [] => some s
  | 0, _, _ :: _ => none
  | turns + 1, s, head :: queue =>
    let (s', queue) := (s.childrenOf head).foldl (loadChild N) (s, queue)
    loadQueue turns (s'.eraseChildrenOf head) queue

/-- One record, and whether the loop over the file is left.  The turns suffice for every block that is parked. -/
def loadRecord (nFile : Nat) (s : ReindexState) (record : BlockRecord) : Option (ReindexState × Bool) :=
  let block := record.2
  let dbp : CDiskBlockPos := { nFile := nFile, nPos := record.1 }
  let hash := N.getHash block
  if hash ≠ N.hashGenesisBlock ∧ s.mapBlockIndex block.hashPrevBlock = none then
    some ({ s with mapBlocksUnknownParent := s.mapBlocksUnknownParent ++ [(block.hashPrevBlock, dbp)] }, false)
  else
    match s.mapBlockIndex hash with
    | some { fHaveData := true, pos := _ } =>
      (loadQueue N (s.mapBlocksUnknownParent.length + 1) s [hash]).map fun s => (s, false)
    | _ =>
      let (mapBlockIndex, fOk) := N.processNewBlock s.mapBlockIndex block dbp
      let s := { s with mapBlockIndex := mapBlockIndex, nLoaded := s.nLoaded + if fOk then 1 else 0 }
      if !fOk && N.fError s.mapBlockIndex block then some (s, true)
      else (loadQueue N (s.mapBlocksUnknownParent.length + 1) s [hash]).map fun s => (s, false)

def loadRecords (nFile : Nat) : ReindexState → List BlockRecord → Option ReindexState
  | s, [] => some s
  | s, record :: records =>
    match loadRecord N nFile s record with
    | none => none
    | some (s, true) => some s
    | some (s, false) => loadRecords nFile s records

/-- `LoadExternalBlockFile`, on the records that it meets in the file, and what it returns. -/
def loadExternalBlockFile (nFile : Nat) (s : ReindexState) (records : List BlockRecord) :
    Option (ReindexState × Bool) :=
  (loadRecords N nFile { s with nLoaded := 0 } records).map fun s => (s, decide (0 < s.nLoaded))

/-- The loop over the block files when the node starts with `-reindex`. -/
def reindex : Nat → ReindexState → List (List BlockRecord) → Option ReindexState
  | _, s, [] => some s
  | nFile, s, records :: files =>
    match loadExternalBlockFile N nFile s records with
    | none => none
    | some (s, _) => reindex (nFile + 1) s files

/-- Before the first file. -/
def ReindexState.start : ReindexState :=
  { mapBlockIndex := fun _ => none, mapBlocksUnknownParent := [], nLoaded := 0 }

/-! ## The stored blocks -/

/-- The block is stored at the position, in files numbered from `nFile` on. -/
def StoredAt (nFile : Nat) (files : List (List BlockRecord)) (pos : CDiskBlockPos) (block : CBlock) : Prop :=
  ∃ i records, files[i]? = some records ∧ pos.nFile = nFile + i ∧ (pos.nPos, block) ∈ records

/-- The stored blocks that hang together with the genesis block. -/
inductive InTree (stored : CDiskBlockPos → CBlock → Prop) : CBlock → Prop where
  | genesis {pos : CDiskBlockPos} {block : CBlock} (h : stored pos block) (hhash : N.getHash block = N.hashGenesisBlock) :
      InTree stored block
  | child {pos : CDiskBlockPos} {block parent : CBlock} (h : stored pos block)
      (hprev : block.hashPrevBlock = N.getHash parent) (hparent : InTree stored parent) : InTree stored block

/-- Block reads succeed, and a block is accepted exactly when its parent is indexed, the genesis block always. -/
structure ReindexNode.Accepts (stored : CDiskBlockPos → CBlock → Prop) : Prop where
  reads : ∀ pos block, stored pos block → N.readBlockFromDisk pos = some block
  accepts : ∀ mapBlockIndex block, N.fAccepts mapBlockIndex block = true ↔
    N.getHash block = N.hashGenesisBlock ∨ mapBlockIndex block.hashPrevBlock ≠ none

/-! ## What is kept between the records -/

/-- The index holds stored blocks only, a parked block waits for its parent or the parent is in the queue, and a record
that has been met is indexed or parked. -/
structure Resumable (stored met : CDiskBlockPos → CBlock → Prop) (queue : List Uint256) (s : ReindexState) : Prop where
  entry : ∀ hash pindex, s.mapBlockIndex hash = some pindex →
    pindex.fHaveData = true ∧ ∃ block, stored pindex.pos block ∧ N.getHash block = hash
  parked : ∀ prev pos, (prev, pos) ∈ s.mapBlocksUnknownParent → (s.mapBlockIndex prev = none ∨ prev ∈ queue) ∧
      ∃ block, stored pos block ∧ block.hashPrevBlock = prev ∧ N.getHash block ≠ N.hashGenesisBlock
  queued : ∀ hash ∈ queue, s.mapBlockIndex hash ≠ none
  met : ∀ pos block, met pos block → s.mapBlockIndex (N.getHash block) ≠ none ∨
    (block.hashPrevBlock, pos) ∈ s.mapBlocksUnknownParent

variable {N} {stored met : CDiskBlockPos → CBlock → Prop} {s : ReindexState} {queue : List Uint256}
  {pos : CDiskBlockPos} {block : CBlock}

/-- The block is indexed, at the position unless it was before, and nothing else changes. -/
structure Indexes (N : ReindexNode) (block : CBlock) (pos : CDiskBlockPos) (old new : ReindexMap) : Prop where
  self : new (N.getHash block) ≠ none
  kept : ∀ hash, old hash ≠ none → new hash ≠ none
  only : ∀ hash, new hash ≠ none → old hash ≠ none ∨ hash = N.getHash block
  entry : ∀ hash pindex, new hash = some pindex →
    old hash = some pindex ∨ hash = N.getHash block ∧ pindex = { fHaveData := true, pos := pos }

theorem processNewBlock_indexes (hN : N.Accepts stored) {mapBlockIndex : ReindexMap}
    (h : N.getHash block = N.hashGenesisBlock ∨ mapBlockIndex block.hashPrevBlock ≠ none) (pos : CDiskBlockPos) :
    (N.processNewBlock mapBlockIndex block pos).2 ∧
      Indexes N block pos mapBlockIndex (N.processNewBlock mapBlockIndex block pos).1 := by
  unfold ReindexNode.processNewBlock
  rw [if_pos ((hN.accepts mapBlockIndex block).mpr h)]
  split
  · rename_i hdata
    exact ⟨rfl, by simp [hdata], fun _ h => h, fun _ h => .inl h, fun _ _ h => .inl h⟩
  · refine ⟨rfl, by simp, fun hash hold => ?_, fun hash hnew => ?_, fun hash pindex hnew => ?_⟩
    · by_cases heq : hash = N.getHash block
      · simp [heq]
      · simpa [Function.update_of_ne heq] using hold
    · by_cases heq : hash = N.getHash block
      · exact .inr heq
      · exact .inl (by simpa [Function.update_of_ne heq] using hnew)
    · by_cases heq : hash = N.getHash block
      · subst heq
        simp only [Function.update_self] at hnew
        exact .inr ⟨rfl, (Option.some.inj hnew).symm⟩
      · simp only [Function.update_of_ne heq] at hnew
        exact .inl hnew

theorem Resumable.index (h : Resumable N stored met queue s) (hstored : stored pos block) {mapBlockIndex : ReindexMap}
    (hindex : Indexes N block pos s.mapBlockIndex mapBlockIndex) (nLoaded : Nat) :
    Resumable N stored met (queue ++ [N.getHash block])
      { s with mapBlockIndex := mapBlockIndex, nLoaded := nLoaded } where
  entry := by
    intro hash pindex hnew
    rcases hindex.entry hash pindex hnew with hold | ⟨rfl, rfl⟩
    · exact h.entry hash pindex hold
    · exact ⟨rfl, block, hstored, rfl⟩
  parked := by
    intro prev pos' hmem
    obtain ⟨hwait, hblock⟩ := h.parked prev pos' hmem
    refine ⟨?_, hblock⟩
    by_cases hnew : mapBlockIndex prev = none
    · exact .inl hnew
    · refine .inr (mem_append.mpr ?_)
      rcases hindex.only prev hnew with hold | heq
      · rcases hwait with hnone | hqueued
        · exact absurd hnone hold
        · exact .inl hqueued
      · exact .inr (mem_singleton.mpr heq)
  queued := by
    intro hash hmem
    rcases mem_append.mp hmem with hold | hnew
    · exact hindex.kept hash (h.queued hash hold)
    · rw [mem_singleton.mp hnew]
      exact hindex.self
  met := by
    intro pos' block' hmet
    rcases h.met pos' block' hmet with hindexed | hparked
    · exact .inl (hindex.kept _ hindexed)
    · exact .inr hparked

/-! ## The queue -/

/-- What the loop over the children of `head` has done. -/
structure ChildrenLoaded (stored met : CDiskBlockPos → CBlock → Prop) (N : ReindexNode) (head : Uint256)
    (children : List CDiskBlockPos) (sq sq' : ReindexState × List Uint256) : Prop where
  resumable : Resumable N stored met (head :: sq'.2) sq'.1
  unknown : sq'.1.mapBlocksUnknownParent = sq.1.mapBlocksUnknownParent
  length : sq'.2.length = sq.2.length + children.length
  kept : ∀ hash, sq.1.mapBlockIndex hash ≠ none → sq'.1.mapBlockIndex hash ≠ none
  indexed : ∀ pos ∈ children, ∀ block, stored pos block → sq'.1.mapBlockIndex (N.getHash block) ≠ none

theorem loadChild_loaded (hN : N.Accepts stored) {head : Uint256} {sq : ReindexState × List Uint256}
    (h : Resumable N stored met (head :: sq.2) sq.1) (hstored : stored pos block) (hprev : block.hashPrevBlock = head) :
    ChildrenLoaded stored met N head [pos] sq (loadChild N sq pos) := by
  have hhead : sq.1.mapBlockIndex block.hashPrevBlock ≠ none := by
    rw [hprev]
    exact h.queued head mem_cons_self
  obtain ⟨hok, hindex⟩ := processNewBlock_indexes hN (.inr hhead) pos
  have hresult : loadChild N sq pos = ({ sq.1 with
         mapBlockIndex := (N.processNewBlock sq.1.mapBlockIndex block pos).1, nLoaded := sq.1.nLoaded + 1 },
        sq.2 ++ [N.getHash block]) := by
    unfold loadChild
    rw [hN.reads pos block hstored]
    simp only [hok, if_true]
  rw [hresult]
  refine ⟨h.index hstored hindex _, rfl, by simp, hindex.kept, ?_⟩
  intro pos' hmem block' hstored'
  rw [mem_singleton.mp hmem] at hstored'
  have hsame : block' = block := by
    have hread := hN.reads pos block' hstored'
    rw [hN.reads pos block hstored] at hread
    exact (Option.some.inj hread).symm
  rw [hsame]
  exact hindex.self

theorem foldl_loadChild (hN : N.Accepts stored) {head : Uint256} {children : List CDiskBlockPos}
    (hchildren : ∀ pos ∈ children, ∃ block, stored pos block ∧ block.hashPrevBlock = head)
    {sq : ReindexState × List Uint256} (h : Resumable N stored met (head :: sq.2) sq.1) :
    ChildrenLoaded stored met N head children sq (children.foldl (loadChild N) sq) := by
  induction children generalizing sq with
  | nil => exact ⟨h, rfl, rfl, fun _ hash => hash, fun _ hmem => by cases hmem⟩
  | cons pos children ih =>
    obtain ⟨block, hstored, hprev⟩ := hchildren pos mem_cons_self
    have hfirst := loadChild_loaded hN h hstored hprev
    have hrest := ih (fun pos' hmem => hchildren pos' (mem_cons_of_mem _ hmem)) hfirst.resumable
    refine ⟨hrest.resumable, hrest.unknown.trans hfirst.unknown, ?_, ?_, ?_⟩
    · have hlength := hrest.length
      rw [hfirst.length] at hlength
      rw [foldl_cons, hlength]
      simp only [length_cons, length_nil]
      omega
    · intro hash hold
      exact hrest.kept hash (hfirst.kept hash hold)
    · intro pos' hmem block' hstored'
      rcases mem_cons.mp hmem with rfl | hmem
      · exact hrest.kept _ (hfirst.indexed pos' mem_cons_self block' hstored')
      · exact hrest.indexed pos' hmem block' hstored'

theorem mem_childrenOf {head : Uint256} :
    pos ∈ s.childrenOf head ↔ (head, pos) ∈ s.mapBlocksUnknownParent := by
  unfold ReindexState.childrenOf
  constructor
  · intro hmem
    obtain ⟨⟨prev, pos'⟩, hin, rfl⟩ := mem_map.mp hmem
    obtain ⟨hin, heq⟩ := mem_filter.mp hin
    rw [← of_decide_eq_true heq]
    exact hin
  · intro hmem
    exact mem_map.mpr ⟨(head, pos), mem_filter.mpr ⟨hmem, decide_eq_true rfl⟩, rfl⟩

theorem length_childrenOf (s : ReindexState) (head : Uint256) :
    (s.childrenOf head).length + (s.eraseChildrenOf head).mapBlocksUnknownParent.length =
      s.mapBlocksUnknownParent.length := by
  unfold ReindexState.childrenOf ReindexState.eraseChildrenOf
  have hnot : (fun entry : Uint256 × CDiskBlockPos => decide (entry.1 ≠ head)) =
      fun entry => !decide (entry.1 = head) := by
    funext entry
    exact decide_not
  rw [length_map, hnot]
  exact (length_eq_length_filter_add _).symm

/-- The children of `head` have been loaded and are erased. -/
theorem Resumable.erase {head : Uint256} (h : Resumable N stored met (head :: queue) s)
    (hmet : ∀ pos block, met pos block → stored pos block)
    (hindexed : ∀ pos ∈ s.childrenOf head, ∀ block, stored pos block → s.mapBlockIndex (N.getHash block) ≠ none) :
    Resumable N stored met queue (s.eraseChildrenOf head) where
  entry := h.entry
  parked := by
    intro prev pos hmem
    obtain ⟨hmem, hne⟩ := mem_filter.mp hmem
    obtain ⟨hwait, hblock⟩ := h.parked prev pos hmem
    refine ⟨?_, hblock⟩
    rcases hwait with hnone | hqueued
    · exact .inl hnone
    · exact .inr ((mem_cons.mp hqueued).resolve_left (of_decide_eq_true hne))
  queued := fun hash hmem => h.queued hash (mem_cons_of_mem _ hmem)
  met := by
    intro pos block hseen
    rcases h.met pos block hseen with hin | hparked
    · exact .inl hin
    · by_cases heq : block.hashPrevBlock = head
      · rw [heq] at hparked
        exact .inl (hindexed pos (mem_childrenOf.mpr hparked) block (hmet pos block hseen))
      · exact .inr (mem_filter.mpr ⟨hparked, decide_eq_true heq⟩)

/-- The loop over the queue ends, and leaves no parked block with an indexed parent. -/
theorem loadQueue_resumable (hN : N.Accepts stored) (hmet : ∀ pos block, met pos block → stored pos block)
    {turns : Nat} (hturns : queue.length + s.mapBlocksUnknownParent.length ≤ turns)
    (h : Resumable N stored met queue s) :
    ∃ s', loadQueue N turns s queue = some s' ∧ Resumable N stored met [] s' ∧
      ∀ hash, s.mapBlockIndex hash ≠ none → s'.mapBlockIndex hash ≠ none := by
  induction turns generalizing s queue with
  | zero =>
    have hnil : queue = [] := length_eq_zero_iff.mp (by omega)
    subst hnil
    exact ⟨s, rfl, h, fun _ hold => hold⟩
  | succ turns ih =>
    cases queue with
    | nil => exact ⟨s, rfl, h, fun _ hold => hold⟩
    | cons head queue =>
      have hchildren : ∀ pos ∈ s.childrenOf head, ∃ block, stored pos block ∧ block.hashPrevBlock = head := by
        intro pos hmem
        obtain ⟨-, block, hstored, hprev, -⟩ := h.parked head pos (mem_childrenOf.mp hmem)
        exact ⟨block, hstored, hprev⟩
      have hloaded := @foldl_loadChild N stored met hN head _ hchildren (s, queue) h
      obtain ⟨sq', hsq'⟩ : ∃ sq', sq' = (s.childrenOf head).foldl (loadChild N) (s, queue) := ⟨_, rfl⟩
      rw [← hsq'] at hloaded
      have hsame : sq'.1.childrenOf head = s.childrenOf head := by
        unfold ReindexState.childrenOf
        rw [hloaded.unknown]
      have hnext := hloaded.resumable.erase hmet (by rw [hsame]; exact hloaded.indexed)
      have hcount := length_childrenOf sq'.1 head
      have hlength : sq'.2.length = queue.length + (s.childrenOf head).length := hloaded.length
      have hunknown : sq'.1.mapBlocksUnknownParent = s.mapBlocksUnknownParent := hloaded.unknown
      rw [hsame, hunknown] at hcount
      rw [length_cons] at hturns
      obtain ⟨s', hrun, hresumable, hkept⟩ := ih (by omega) hnext
      refine ⟨s', ?_, hresumable, fun hash hold => hkept hash (hloaded.kept hash hold)⟩
      rw [loadQueue, ← hsq']
      exact hrun

/-! ## The records -/

/-- One more record has been met. -/
def AlsoMet (met : CDiskBlockPos → CBlock → Prop) (pos : CDiskBlockPos) (block : CBlock) (pos' : CDiskBlockPos)
    (block' : CBlock) : Prop :=
  met pos' block' ∨ pos' = pos ∧ block' = block

theorem Resumable.alsoMet (h : Resumable N stored met queue s)
    (hblock : s.mapBlockIndex (N.getHash block) ≠ none ∨ (block.hashPrevBlock, pos) ∈ s.mapBlocksUnknownParent) :
    Resumable N stored (AlsoMet met pos block) queue s where
  entry := h.entry
  parked := h.parked
  queued := h.queued
  met := by
    rintro pos' block' (hmet | ⟨rfl, rfl⟩)
    · exact h.met pos' block' hmet
    · exact hblock

theorem Resumable.park (h : Resumable N stored met [] s) (hstored : stored pos block)
    (hgenesis : N.getHash block ≠ N.hashGenesisBlock) (hprev : s.mapBlockIndex block.hashPrevBlock = none) :
    Resumable N stored (AlsoMet met pos block) []
      { s with mapBlocksUnknownParent := s.mapBlocksUnknownParent ++ [(block.hashPrevBlock, pos)] } := by
  have hparked : Resumable N stored met []
      { s with mapBlocksUnknownParent := s.mapBlocksUnknownParent ++ [(block.hashPrevBlock, pos)] } := by
    refine ⟨h.entry, fun prev pos' hmem => ?_, h.queued, fun pos' block' hmet => ?_⟩
    · rcases mem_append.mp hmem with hold | hnew
      · exact h.parked prev pos' hold
      · obtain ⟨rfl, rfl⟩ := Prod.mk.inj (mem_singleton.mp hnew)
        exact ⟨.inl hprev, block, hstored, rfl, hgenesis⟩
    · rcases h.met pos' block' hmet with hin | hold
      · exact .inl hin
      · exact .inr (mem_append_left _ hold)
  exact hparked.alsoMet (.inr (mem_append_right _ mem_cons_self))

theorem loadQueue_block (hN : N.Accepts stored) (hmet : ∀ pos block, met pos block → stored pos block)
    (h : Resumable N stored met [N.getHash block] s) (pos : CDiskBlockPos) :
    ∃ s', loadQueue N (s.mapBlocksUnknownParent.length + 1) s [N.getHash block] = some s' ∧
      Resumable N stored (AlsoMet met pos block) [] s' := by
  have hturns : [N.getHash block].length + s.mapBlocksUnknownParent.length ≤ s.mapBlocksUnknownParent.length + 1 := by
    rw [length_singleton]
    omega
  obtain ⟨s', hrun, hresumable, hkept⟩ := loadQueue_resumable hN hmet hturns h
  exact ⟨s', hrun, hresumable.alsoMet (.inl (hkept _ (h.queued _ mem_cons_self)))⟩

theorem loadRecord_resumable (hN : N.Accepts stored) (hmet : ∀ pos block, met pos block → stored pos block)
    (h : Resumable N stored met [] s) (nFile nPos : Nat) (hstored : stored { nFile := nFile, nPos := nPos } block) :
    ∃ s', loadRecord N nFile s (nPos, block) = some (s', false) ∧
      Resumable N stored (AlsoMet met { nFile := nFile, nPos := nPos } block) [] s' := by
  unfold loadRecord
  simp only
  by_cases horder : N.getHash block ≠ N.hashGenesisBlock ∧ s.mapBlockIndex block.hashPrevBlock = none
  · rw [if_pos horder]
    exact ⟨_, rfl, h.park hstored horder.1 horder.2⟩
  · rw [if_neg horder]
    split
    · rename_i hdata
      -- The block is known; its queue is gone through all the same.
      have hqueue : Resumable N stored met [N.getHash block] s := by
        refine ⟨h.entry, fun prev pos hmem => ?_, fun hash hmem => ?_, h.met⟩
        · obtain ⟨hwait, hblock⟩ := h.parked prev pos hmem
          rcases hwait with hnone | hqueued
          · exact ⟨.inl hnone, hblock⟩
          · cases hqueued
        · rw [mem_singleton.mp hmem, hdata]
          simp
      obtain ⟨s', hrun, hresumable⟩ := loadQueue_block hN hmet hqueue { nFile := nFile, nPos := nPos }
      exact ⟨s', by rw [hrun]; rfl, hresumable⟩
    · have haccept : N.getHash block = N.hashGenesisBlock ∨ s.mapBlockIndex block.hashPrevBlock ≠ none := by
        by_cases hgenesis : N.getHash block = N.hashGenesisBlock
        · exact .inl hgenesis
        · exact .inr fun hnone => horder ⟨hgenesis, hnone⟩
      obtain ⟨hok, hindex⟩ := processNewBlock_indexes hN haccept { nFile := nFile, nPos := nPos }
      have hqueue := h.index hstored hindex (s.nLoaded + 1)
      obtain ⟨s', hrun, hresumable⟩ := loadQueue_block hN hmet hqueue { nFile := nFile, nPos := nPos }
      refine ⟨s', ?_, hresumable⟩
      simp only [hok, Bool.not_true, Bool.false_and, Bool.false_eq_true, if_false, if_true]
      rw [hrun]
      rfl

theorem loadRecords_resumable (hN : N.Accepts stored) (nFile : Nat)
    (hstored : ∀ record ∈ records, stored { nFile := nFile, nPos := record.1 } record.2)
    (hmet : ∀ pos block, met pos block → stored pos block) (h : Resumable N stored met [] s) :
    ∃ s', loadRecords N nFile s records = some s' ∧
      Resumable N stored (fun pos block => met pos block ∨ pos.nFile = nFile ∧ (pos.nPos, block) ∈ records) [] s' := by
  induction records generalizing s met with
  | nil =>
    refine ⟨s, rfl, h.entry, h.parked, h.queued, ?_⟩
    rintro pos block (hold | ⟨-, hnone⟩)
    · exact h.met pos block hold
    · cases hnone
  | cons record records ih =>
    obtain ⟨nPos, block⟩ := record
    have hfirst := hstored (nPos, block) mem_cons_self
    obtain ⟨s₁, hrun, hs₁⟩ := loadRecord_resumable hN hmet h nFile nPos hfirst
    have hmet' : ∀ pos block', AlsoMet met { nFile := nFile, nPos := nPos } block pos block' → stored pos block' := by
      rintro pos block' (hold | ⟨rfl, rfl⟩)
      · exact hmet pos block' hold
      · exact hfirst
    obtain ⟨s', hrest, hs'⟩ := ih (fun record hmem => hstored record (mem_cons_of_mem _ hmem)) hmet' hs₁
    refine ⟨s', ?_, hs'.entry, hs'.parked, hs'.queued, ?_⟩
    · rw [loadRecords, hrun]
      exact hrest
    · rintro pos block' (hold | ⟨hfile, hmem⟩)
      · exact hs'.met pos block' (.inl (.inl hold))
      · rcases mem_cons.mp hmem with heq | hmem
        · obtain ⟨hpos, rfl⟩ := Prod.mk.inj heq
          refine hs'.met pos block' (.inl (.inr ⟨?_, rfl⟩))
          rw [← hfile, ← hpos]
        · exact hs'.met pos block' (.inr ⟨hfile, hmem⟩)

/-! ## All files -/

theorem storedAt_cons {nFile : Nat} (h : StoredAt nFile (records :: files) pos block) :
    pos.nFile = nFile ∧ (pos.nPos, block) ∈ records ∨ StoredAt (nFile + 1) files pos block := by
  obtain ⟨i, found, hget, hfile, hmem⟩ := h
  cases i with
  | zero =>
    cases hget
    exact .inl ⟨hfile, hmem⟩
  | succ i => exact .inr ⟨i, found, hget, by omega, hmem⟩

theorem storedAt_tail {nFile : Nat} (h : StoredAt (nFile + 1) files pos block) :
    StoredAt nFile (records :: files) pos block := by
  obtain ⟨i, found, hget, hfile, hmem⟩ := h
  exact ⟨i + 1, found, hget, by omega, hmem⟩

theorem reindex_resumable (hN : N.Accepts stored) {nFile : Nat}
    (hstored : ∀ pos block, StoredAt nFile files pos block → stored pos block)
    (hmet : ∀ pos block, met pos block → stored pos block) (h : Resumable N stored met [] s) :
    ∃ s', reindex N nFile s files = some s' ∧
      Resumable N stored (fun pos block => met pos block ∨ StoredAt nFile files pos block) [] s' := by
  induction files generalizing nFile s met with
  | nil =>
    refine ⟨s, rfl, h.entry, h.parked, h.queued, ?_⟩
    rintro pos block (hold | ⟨i, records, hget, -, -⟩)
    · exact h.met pos block hold
    · cases hget
  | cons records files ih =>
    have hfile : ∀ record ∈ records, stored { nFile := nFile, nPos := record.1 } record.2 :=
      fun record hmem => hstored _ _ ⟨0, records, rfl, rfl, hmem⟩
    have hreset : Resumable N stored met [] { s with nLoaded := 0 } := ⟨h.entry, h.parked, h.queued, h.met⟩
    obtain ⟨s₁, hrun, hs₁⟩ := loadRecords_resumable hN nFile hfile hmet hreset
    have hmet₁ : ∀ pos block, met pos block ∨ pos.nFile = nFile ∧ (pos.nPos, block) ∈ records → stored pos block := by
      rintro pos block (hold | ⟨rfl, hmem⟩)
      · exact hmet pos block hold
      · exact hfile (pos.nPos, block) hmem
    obtain ⟨s', hrest, hs'⟩ := ih (fun pos block hat => hstored pos block (storedAt_tail hat)) hmet₁ hs₁
    refine ⟨s', ?_, hs'.entry, hs'.parked, hs'.queued, ?_⟩
    · rw [reindex, loadExternalBlockFile, hrun]
      exact hrest
    · rintro pos block (hold | hat)
      · exact hs'.met pos block (.inl (.inl hold))
      · rcases storedAt_cons hat with hmem | hlater
        · exact hs'.met pos block (.inl (.inr hmem))
        · exact hs'.met pos block (.inr hlater)

/-- When all stored blocks have been met, those of the tree are indexed. -/
theorem InTree.indexed (hN : N.Accepts stored) (h : Resumable N stored met [] s)
    (hmet : ∀ pos block, stored pos block → met pos block) (hblock : InTree N stored block) :
    s.mapBlockIndex (N.getHash block) ≠ none := by
  induction hblock with
  | genesis hstored hhash =>
    rename_i pos block
    rcases h.met pos block (hmet pos block hstored) with hin | hparked
    · exact hin
    · obtain ⟨-, block', hstored', -, hne⟩ := h.parked _ pos hparked
      have hread := hN.reads pos block' hstored'
      rw [hN.reads pos block hstored] at hread
      cases hread
      exact absurd hhash hne
  | child hstored hprev hparent ih =>
    rename_i pos block parent
    rcases h.met pos block (hmet pos block hstored) with hin | hparked
    · exact hin
    · obtain ⟨hwait, -⟩ := h.parked _ pos hparked
      rcases hwait with hnone | hqueued
      · rw [hprev] at hnone
        exact absurd hnone ih
      · cases hqueued

/-- However the blocks of a tree are stored, reindexing ends, indexes all of them with data and at a position at which
they are stored, and leaves no block parked. -/
theorem reindex_complete {files : List (List BlockRecord)} (hN : N.Accepts (StoredAt 0 files))
    (htree : ∀ pos block, StoredAt 0 files pos block → InTree N (StoredAt 0 files) block) :
    ∃ s, reindex N 0 ReindexState.start files = some s ∧ s.mapBlocksUnknownParent = [] ∧
      ∀ pos block, StoredAt 0 files pos block → ∃ pindex, s.mapBlockIndex (N.getHash block) = some pindex ∧
        pindex.fHaveData = true ∧
          ∃ block', StoredAt 0 files pindex.pos block' ∧ N.getHash block' = N.getHash block := by
  have hstart : Resumable N (StoredAt 0 files) (fun _ _ => False) [] ReindexState.start := by
    refine ⟨fun _ _ h => ?_, fun _ _ h => ?_, fun _ h => ?_, fun _ _ h => h.elim⟩
    · cases h
    · cases h
    · cases h
  obtain ⟨s, hrun, hs⟩ := reindex_resumable hN (fun _ _ h => h) (fun _ _ h => h.elim) hstart
  have hindexed : ∀ block, InTree N (StoredAt 0 files) block → s.mapBlockIndex (N.getHash block) ≠ none :=
    fun block hblock => InTree.indexed hN hs (fun _ _ h => .inr h) hblock
  refine ⟨s, hrun, eq_nil_iff_forall_not_mem.mpr ?_, ?_⟩
  · rintro ⟨prev, pos⟩ hmem
    obtain ⟨hwait, block, hstored, rfl, hne⟩ := hs.parked prev pos hmem
    rcases hwait with hnone | hqueued
    · cases htree pos block hstored with
      | genesis _ hhash => exact hne hhash
      | child _ hprev hparent =>
        rw [hprev] at hnone
        exact hindexed _ hparent hnone
    · cases hqueued
  · intro pos block hstored
    obtain ⟨pindex, hentry⟩ := Option.ne_none_iff_exists'.mp (hindexed block (htree pos block hstored))
    obtain ⟨hdata, hpos⟩ := hs.entry _ pindex hentry
    exact ⟨pindex, hentry, hdata, hpos⟩

end

namespace Example

/-- A block of the example tree, whose hash is 7000 and its number. -/
def treeBlock (number parent : Nat) : CBlock :=
  { nVersion := 2, hashPrevBlock := parent, hashMerkleRoot := 0, nTime := number, nBits := 0, nNonce := 0, vtx := [],
    vchBlockSig := [] }

/-- The grandchild comes first, its parent is stored twice, and the genesis block is in the second file. -/
def treeFiles : List (List BlockRecord) :=
  [[(8, treeBlock 2 7001), (100, treeBlock 1 7000)], [(8, treeBlock 1 7000), (200, treeBlock 0 0)]]

def reindexNode : ReindexNode where
  C := crypto
  hashGenesisBlock := 7000
  readBlockFromDisk := fun pos => (treeFiles[pos.nFile]?).bind fun records => records.lookup pos.nPos
  fAccepts := fun mapBlockIndex block =>
    decide (crypto.headerHash block.toCBlockHeader = 7000) || (mapBlockIndex block.hashPrevBlock).isSome
  fError := fun _ _ => false

theorem storedAt_treeFiles {pos : CDiskBlockPos} {block : CBlock} (h : StoredAt 0 treeFiles pos block) :
    (pos, block) ∈ [(⟨0, 8⟩, treeBlock 2 7001), (⟨0, 100⟩, treeBlock 1 7000), (⟨1, 8⟩, treeBlock 1 7000),
      ((⟨1, 200⟩ : CDiskBlockPos), treeBlock 0 0)] := by
  obtain ⟨nFile, nPos⟩ := pos
  rcases storedAt_cons h with ⟨hfile, hmem⟩ | h
  · rcases mem_cons.mp hmem with heq | hmem
    · obtain ⟨hpos, rfl⟩ := Prod.mk.inj heq
      simp only at hfile hpos
      simp [hfile, hpos]
    · obtain ⟨hpos, rfl⟩ := Prod.mk.inj (mem_singleton.mp hmem)
      simp only at hfile hpos
      simp [hfile, hpos]
  · rcases storedAt_cons h with ⟨hfile, hmem⟩ | ⟨i, records, hget, -, -⟩
    · rcases mem_cons.mp hmem with heq | hmem
      · obtain ⟨hpos, rfl⟩ := Prod.mk.inj heq
        simp only at hfile hpos
        simp [hfile, hpos]
      · obtain ⟨hpos, rfl⟩ := Prod.mk.inj (mem_singleton.mp hmem)
        simp only at hfile hpos
        simp [hfile, hpos]
    · cases hget

end Example

open Example

theorem reindex_complete_example : ∃ s, reindex reindexNode 0 ReindexState.start treeFiles = some s ∧
    s.mapBlocksUnknownParent = [] ∧ s.mapBlockIndex 7002 = some { fHaveData := true, pos := ⟨0, 8⟩ } := by
  have hN : reindexNode.Accepts (StoredAt 0 treeFiles) := by
    refine ⟨fun pos block h => ?_, fun mapBlockIndex block => ?_⟩
    · have hmem := storedAt_treeFiles h
      simp only [mem_cons, not_mem_nil, or_false, Prod.mk.injEq] at hmem
      rcases hmem with ⟨rfl, rfl⟩ | ⟨rfl, rfl⟩ | ⟨rfl, rfl⟩ | ⟨rfl, rfl⟩ <;> rfl
    · show (decide _ || _) = true ↔ _
      rw [Bool.or_eq_true, decide_eq_true_eq, Option.isSome_iff_ne_none]
      rfl
  have hgenesis : StoredAt 0 treeFiles ⟨1, 200⟩ (treeBlock 0 0) := ⟨1, _, rfl, rfl, by decide⟩
  have hchild : StoredAt 0 treeFiles ⟨0, 100⟩ (treeBlock 1 7000) := ⟨0, _, rfl, rfl, by decide⟩
  have hgrandchild : StoredAt 0 treeFiles ⟨0, 8⟩ (treeBlock 2 7001) := ⟨0, _, rfl, rfl, by decide⟩
  have hroot := InTree.genesis (N := reindexNode) hgenesis rfl
  have hfirst := InTree.child hchild rfl hroot
  have hsecond := InTree.child hgrandchild rfl hfirst
  obtain ⟨s, hrun, hempty, -⟩ := reindex_complete hN fun pos block h => by
    have hmem := storedAt_treeFiles h
    simp only [mem_cons, not_mem_nil, or_false, Prod.mk.injEq] at hmem
    rcases hmem with ⟨-, rfl⟩ | ⟨-, rfl⟩ | ⟨-, rfl⟩ | ⟨-, rfl⟩
    · exact hsecond
    · exact hfirst
    · exact hfirst
    · exact hroot
  refine ⟨s, hrun, hempty, ?_⟩
  have hentry : (reindex reindexNode 0 ReindexState.start treeFiles).map (fun s => s.mapBlockIndex 7002) =
      some (some { fHaveData := true, pos := ⟨0, 8⟩ }) := by decide
  rw [hrun] at hentry
  exact Option.some.inj hentry

end Reddcoin
