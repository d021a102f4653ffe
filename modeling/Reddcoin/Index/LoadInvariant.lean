import Reddcoin.Index.InvalidateMoves

/-!
# What loading the index restores

The entries come back in the order of their heights, so that each finds its parent complete.
-/

namespace Reddcoin

open List

open Forest (Anc Graded)

/-! ## What is written of an entry -/

theorem ite_eq_of_false {β : Type} {b : Bool} {x y : β} (h : b = false → x = y) :
    (if b then x else y) = x := by
  cases b with
  | true => rfl
  | false => exact (h rfl).symm

theorem CBlockIndex.Written.eq {e : CBlockIndex} (h : e.Written) : e.written = e := by
  unfold CBlockIndex.written
  rw [ite_eq_of_false h.nDataPos, ite_eq_of_false h.nUndoPos, ite_eq_of_false h.prevoutStake,
    ite_eq_of_false h.nStakeTime, ite_eq_of_false fun hno => h.nFile (Bool.or_eq_false_iff.mp hno).1
      (Bool.or_eq_false_iff.mp hno).2]

/-- What linking sets is always written. -/
theorem CBlockIndex.Written.of_received {e e' : CBlockIndex} (h : e.Written)
    (heq : e'.received = e.received) : e'.Written := by
  have hreceived : e.received.Written := ⟨h.nFile, h.nDataPos, h.nUndoPos, h.prevoutStake, h.nStakeTime⟩
  rw [← heq] at hreceived
  exact ⟨hreceived.nFile, hreceived.nDataPos, hreceived.nUndoPos, hreceived.prevoutStake, hreceived.nStakeTime⟩

section

variable {N : Node} {s : NodeState} {p : Ptr} {A : Addresses}

theorem receivedEntry_written (pos : Nat × Nat) (block : CBlock) {e : CBlockIndex} (h : e.Written) :
    (receivedEntry N pos block e).Written := by
  have hdata := receivedEntry_haveData N pos block e
  have hundoPos : (receivedEntry N pos block e).nUndoPos = 0 := by
    unfold receivedEntry
    dsimp only
    split <;> rfl
  refine ⟨fun hno _ => ?_, fun hno => ?_, fun _ => hundoPos, ?_, ?_⟩
  · rw [hdata] at hno
    simp at hno
  · rw [hdata] at hno
    simp at hno
  · unfold receivedEntry
    dsimp only
    split
    · simp
    · exact h.prevoutStake
  · unfold receivedEntry
    dsimp only
    split
    · simp
    · exact h.nStakeTime

/-! ## The records -/

theorem OnDisk.header {r : CDiskBlockIndex} (h : OnDisk s p r) :
    r.header = s.mapBlockIndex.getBlockHeader p := by
  have hver : r.index.nVersion = (s.entry p).nVersion := congrArg EntryShape.nVersion h.shape
  have hmerkle : r.index.hashMerkleRoot = (s.entry p).hashMerkleRoot :=
    congrArg EntryShape.hashMerkleRoot h.shape
  have htime : r.index.nTime = (s.entry p).nTime := congrArg EntryShape.nTime h.shape
  have hbits : r.index.nBits = (s.entry p).nBits := congrArg EntryShape.nBits h.shape
  have hnonce : r.index.nNonce = (s.entry p).nNonce := congrArg EntryShape.nNonce h.shape
  unfold CDiskBlockIndex.header
  rw [hver, hmerkle, htime, hbits, hnonce, h.hashPrev]
  rfl

theorem OnDisk.getBlockHash (hs : Shape N s.mapBlockIndex) (hp : p < s.size) {r : CDiskBlockIndex}
    (h : OnDisk s p r) : r.getBlockHash N.C = (s.entry p).hash := by
  unfold CDiskBlockIndex.getBlockHash
  rw [h.header]
  exact hs.hash p hp

section

variable (hs : Shape N s.mapBlockIndex) (hdisk : ∀ p < s.size, ∃ r, OnDisk s p r)

include hs hdisk

/-- Looking for a record by its hash is looking for the entry. -/
theorem findRecord_eq (hash : Uint256) : findRecord N s hash = s.mapBlockIndex.find hash := by
  have hcongr : ∀ (test : Ptr → Bool) (l : List Ptr),
      (∀ q ∈ l, test q = decide ((s.mapBlockIndex.entry q).hash = hash)) →
        l.find? test = l.find? fun q => decide ((s.mapBlockIndex.entry q).hash = hash) := by
    intro test l hl
    induction l with
    | nil => rfl
    | cons q l ih =>
      rw [find?_cons, find?_cons, hl q mem_cons_self, ih fun x hx => hl x (mem_cons_of_mem _ hx)]
  refine hcongr _ _ fun q hq => ?_
  have hq := mem_range.mp hq
  obtain ⟨r, hr⟩ := hdisk q hq
  rw [hr.record]
  simp only [hr.getBlockHash hs hq]
  rfl

omit hs hdisk in
theorem loadBlockIndexGuts_record {r : CDiskBlockIndex} (hr : s.blockTree p = some r) :
    (loadBlockIndexGuts N s A).entry p = entryOfRecord N s r := by
  unfold NodeState.entry loadBlockIndexGuts
  dsimp only
  rw [hr]

omit hs hdisk in
theorem loadBlockIndexGuts_noRecord (hr : s.blockTree p = none) :
    (loadBlockIndexGuts N s A).entry p = CBlockIndex.new := by
  unfold NodeState.entry loadBlockIndexGuts
  dsimp only
  rw [hr]

/-- What an entry is once its record is read. -/
theorem loadBlockIndexGuts_entry (hzero : s.HashesNonzero) (hp : p < s.size) :
    ∃ r, OnDisk s p r ∧ (loadBlockIndexGuts N s A).entry p = entryOfRecord N s r ∧
      (entryOfRecord N s r).hash = (s.entry p).hash ∧ (entryOfRecord N s r).pprev = s.par p := by
  obtain ⟨r, hr⟩ := hdisk p hp
  refine ⟨r, hr, ?_, hr.getBlockHash hs hp, ?_⟩
  · exact loadBlockIndexGuts_record hr.record
  · show (if r.hashPrev = 0 then none else findRecord N s r.hashPrev) = s.par p
    rw [findRecord_eq hs hdisk, hr.hashPrev]
    cases hpar : s.par p with
    | none =>
      have hprev : (s.mapBlockIndex.getBlockHeader p).hashPrevBlock = 0 := by
        simp only [BlockMap.getBlockHeader]
        rw [show (s.mapBlockIndex.entry p).pprev = none from hpar]
      rw [if_pos hprev]
    | some q =>
      have hq := hs.tree.graded.closed hp hpar
      have hprev : (s.mapBlockIndex.getBlockHeader p).hashPrevBlock = (s.mapBlockIndex.entry q).hash := by
        simp only [BlockMap.getBlockHeader]
        rw [show (s.mapBlockIndex.entry p).pprev = some q from hpar]
      have hne : (s.mapBlockIndex.entry q).hash ≠ 0 := hzero q hq
      rw [hprev, if_neg hne]
      exact hs.find_eq hq

end

/-! ## The loop over the entries -/

/-- The part of an entry that is read from its record. -/
def CBlockIndex.stored (e : CBlockIndex) : CBlockIndex :=
  { e with nChainWork := 0, nChainTx := 0, pskip := none }

/-- What holds when the entries in `done` have been completed, from the state `s₀` before. -/
structure Loaded (s₀ : NodeState) (done : List Ptr) (s : NodeState) : Prop where
  size : s.size = s₀.size
  entry : ∀ p, (s.entry p).stored = (s₀.entry p).stored
  untouched : ∀ p, p ∉ done → s.entry p = s₀.entry p
  addresses : s.addresses = s₀.addresses
  chainActive : s.chainActive = s₀.chainActive
  blockTree : s.blockTree = s₀.blockTree
  setDirtyBlockIndex : s.setDirtyBlockIndex = s₀.setDirtyBlockIndex
  pcoinsTip : s.pcoinsTip = s₀.pcoinsTip
  reversedVerdicts : s.reversedVerdicts = s₀.reversedVerdicts
  blockFile : s.blockFile = s₀.blockFile
  quietChanges : s.quietChanges = s₀.quietChanges
  work : ∀ p ∈ done, (s.entry p).nChainWork = (match s.par p with
    | some q => (s.entry q).nChainWork
    | none => 0) + getBlockProof (s.entry p).nBits
  skip : s.mapBlockIndex.Skips fun p => p ∈ done
  linked : ∀ p ∈ done, (s.linked p = true ↔ s.haveData p = true ∧ ∀ q, s.par p = some q → s.linked q = true)
  candidates : ∀ p, p ∈ s.setBlockIndexCandidates ↔ p ∈ done ∧
    (s.entry p).isValid BLOCK_VALID_TRANSACTIONS = true ∧ (s.linked p = true ∨ s.par p = none)
  unlinked : ∀ w ∈ s.mapBlocksUnlinked, w.2 ∈ done ∧ s.par w.2 = some w.1 ∧
    s.haveData w.2 = true ∧ s.linked w.2 = false
  unlinked_nodup : s.mapBlocksUnlinked.Nodup

namespace Loaded

variable {s₀ : NodeState} {done : List Ptr}

theorem field {β : Type} (h : Loaded s₀ done s) (g : CBlockIndex → β) (hg : ∀ e, g e.stored = g e)
    (p : Ptr) : g (s.entry p) = g (s₀.entry p) :=
  (hg _).symm.trans ((congrArg g (h.entry p)).trans (hg _))

theorem par (h : Loaded s₀ done s) : s.par = s₀.par :=
  funext (h.field CBlockIndex.pprev fun _ => rfl)

theorem ht (h : Loaded s₀ done s) : s.ht = s₀.ht :=
  funext (h.field CBlockIndex.nHeight fun _ => rfl)

theorem nStatus (h : Loaded s₀ done s) (p : Ptr) : (s.entry p).nStatus = (s₀.entry p).nStatus :=
  h.field CBlockIndex.nStatus (fun _ => rfl) p

theorem haveData (h : Loaded s₀ done s) (p : Ptr) : s.haveData p = s₀.haveData p :=
  congrArg BlockStatus.haveData (h.nStatus p)

end Loaded

theorem loadEntry_entry_self (s : NodeState) (p : Ptr) :
    (loadEntry s p).entry p = loadedEntry s (s.entry p) :=
  entry_modify_self s p _

theorem loadEntry_entry_ne {q : Ptr} (hne : q ≠ p) : (loadEntry s p).entry q = s.entry q :=
  entry_modify_ne hne

theorem loadEntry_par (s : NodeState) (p : Ptr) : (loadEntry s p).par = s.par :=
  funext fun q => entry_modify_keep CBlockIndex.pprev s p (loadedEntry s) (fun _ => rfl) q

theorem loadEntry_ht (s : NodeState) (p : Ptr) : (loadEntry s p).ht = s.ht :=
  funext fun q => entry_modify_keep CBlockIndex.nHeight s p (loadedEntry s) (fun _ => rfl) q

theorem loadEntry_linked_ne {q : Ptr} (hne : q ≠ p) : (loadEntry s p).linked q = s.linked q :=
  congrArg CBlockIndex.linked (loadEntry_entry_ne hne)

theorem mem_loadEntry_candidates {q : Ptr} : q ∈ (loadEntry s p).setBlockIndexCandidates ↔
    q ∈ s.setBlockIndexCandidates ∨ (q = p ∧ ((loadEntry s p).entry p).isValid BLOCK_VALID_TRANSACTIONS ∧
      ((loadEntry s p).linked p ∨ (loadEntry s p).par p = none)) := by
  have hself := loadEntry_entry_self s p
  have hlinked : (loadEntry s p).linked p = (loadedEntry s (s.entry p)).linked :=
    congrArg CBlockIndex.linked hself
  have hpar : (loadEntry s p).par p = (loadedEntry s (s.entry p)).pprev := congrArg CBlockIndex.pprev hself
  rw [hself, hlinked, hpar]
  unfold loadEntry
  simp only [Bool.and_eq_true, Bool.or_eq_true, Option.isNone_iff_eq_none]
  split_ifs with htest
  · rw [mem_insertCandidate]
    constructor
    · rintro (rfl | hq)
      · exact .inr ⟨rfl, htest⟩
      · exact .inl hq
    · rintro (hq | ⟨rfl, -⟩)
      · exact .inr hq
      · exact .inl rfl
  · constructor
    · exact .inl
    · rintro (hq | ⟨-, hq⟩)
      · exact hq
      · exact absurd hq htest

/-- An entry is linked when it has its data and its parent is linked. -/
theorem loadEntry_linked (hfresh : (s.entry p).nChainTx = 0)
    (htx : s.haveData p → 0 < (s.entry p).nTx) : (loadEntry s p).linked p ↔
      s.haveData p ∧ ∀ q, s.par p = some q → s.linked q = true := by
  have hlinked : (loadEntry s p).linked p = (loadedEntry s (s.entry p)).linked :=
    congrArg CBlockIndex.linked (loadEntry_entry_self s p)
  rw [hlinked]
  unfold CBlockIndex.linked loadedEntry
  rw [decide_eq_true_eq]
  simp only
  cases hdata : (s.entry p).nStatus.haveData with
  | false =>
    simp only [Bool.false_eq_true, if_false]
    constructor
    · intro h
      exact absurd hfresh h
    · rintro ⟨h, -⟩
      have := hdata.symm.trans h
      simp at this
  | true =>
    have hpos := htx hdata
    simp only [if_true]
    cases hpar : (s.entry p).pprev with
    | none =>
      constructor
      · intro _
        refine ⟨hdata, fun q hq => ?_⟩
        have := hpar.symm.trans hq
        simp at this
      · intro _
        show (s.entry p).nTx ≠ 0
        omega
    | some q =>
      have hq : s.par p = some q := hpar
      show (if (s.entry q).linked = true then (s.entry q).nChainTx + (s.entry p).nTx else 0) ≠ 0 ↔ _
      split_ifs with hl
      · refine ⟨fun _ => ⟨hdata, fun r hr => ?_⟩, fun _ => by omega⟩
        cases hq.symm.trans hr
        exact hl
      · refine ⟨absurd rfl, fun h => absurd (h.2 q hq) hl⟩

theorem mem_loadEntry_unlinked {w : Ptr × Ptr} (hw : w ∈ (loadEntry s p).mapBlocksUnlinked) :
    w ∈ s.mapBlocksUnlinked ∨ (w.2 = p ∧ s.par p = some w.1 ∧ s.haveData p ∧ s.linked w.1 = false) := by
  unfold loadEntry waitsFor loadedEntry at hw
  simp only at hw
  cases hpar : (s.entry p).pprev with
  | none =>
    rw [hpar] at hw
    exact .inl hw
  | some q =>
    rw [hpar] at hw
    simp only at hw
    split_ifs at hw with htest
    · rcases mem_append.mp hw with hw | hw
      · exact .inl hw
      · obtain rfl := mem_singleton.mp hw
        simp only [Bool.and_eq_true, Bool.not_eq_true'] at htest
        exact .inr ⟨rfl, hpar, htest.1, htest.2⟩
    · exact .inl hw

theorem nodup_loadEntry_unlinked (h : s.mapBlocksUnlinked.Nodup)
    (hnew : ∀ w ∈ s.mapBlocksUnlinked, w.2 ≠ p) : (loadEntry s p).mapBlocksUnlinked.Nodup := by
  unfold loadEntry
  simp only
  split
  · refine h.append (nodup_singleton _) ?_
    intro w hw hmem
    obtain rfl := mem_singleton.mp hmem
    exact hnew _ hw rfl
  · exact h

section

variable {s₀ : NodeState} {done : List Ptr} (h : Loaded s₀ done s)
  (hg : Graded (fun q => q ∈ done) s₀.par s₀.ht) (hnew : p ∉ done)
  (hparent : ∀ q, s₀.par p = some q → q ∈ done ∧ s₀.ht p = s₀.ht q + 1)

include h hg hnew hparent

/-- `BuildSkip` finds the ancestor among the entries that are complete. -/
theorem Loaded.skip_step : (loadEntry s p).mapBlockIndex.Skips fun q => q ∈ p :: done := by
  have hpar := loadEntry_par s p
  have hht := loadEntry_ht s p
  have hg' : Graded (fun q => q ∈ done) s.mapBlockIndex.par s.mapBlockIndex.ht := by
    have hp := h.par
    have ht := h.ht
    rw [← hp, ← ht] at hg
    exact hg
  intro q hq hroot
  show ∃ a, ((loadEntry s p).entry q).pskip = some a ∧ Anc (loadEntry s p).par a q ∧
    (loadEntry s p).ht a = getSkipHeight ((loadEntry s p).ht q)
  rw [hpar, hht]
  replace hroot : s.par q ≠ none := fun hnone => hroot ((congrFun hpar q).trans hnone)
  rcases mem_cons.mp hq with rfl | hq
  · obtain ⟨r, hr⟩ := Option.ne_none_iff_exists'.mp hroot
    have hr₀ : s₀.par q = some r := (congrFun h.par q).symm.trans hr
    obtain ⟨hrdone, hheight⟩ := hparent r hr₀
    have hheight' : s.ht q = s.ht r + 1 := by
      rw [h.ht]
      exact hheight
    have hlt := getSkipHeight_lt (show 0 < s.ht q by omega)
    obtain ⟨a, hanc, hah⟩ := hg'.exists_anc hrdone (i := getSkipHeight (s.ht q)) (by
      show getSkipHeight (s.ht q) ≤ s.ht r
      omega)
    refine ⟨a, ?_, .step hr hanc, hah⟩
    rw [loadEntry_entry_self]
    have hskip := BlockMap.getAncestor_eq hg' h.skip hrdone hanc
    rw [hah] at hskip
    have hpp : (s.entry q).pprev = some r := hr
    show (match (s.entry q).pprev with
      | some r => s.mapBlockIndex.buildSkip r (s.entry q).nHeight
      | none => (s.entry q).pskip) = some a
    rw [hpp]
    exact hskip
  · have hne : q ≠ p := fun heq => hnew (heq ▸ hq)
    rw [loadEntry_entry_ne hne]
    exact h.skip q hq hroot

/-- The turn for an entry whose parent is complete completes it. -/
theorem Loaded.step (hfresh : (s₀.entry p).nChainTx = 0)
    (htx : s₀.haveData p → 0 < (s₀.entry p).nTx) : Loaded s₀ (p :: done) (loadEntry s p) := by
  have hpar := loadEntry_par s p
  have hold : ∀ q ∈ done, q ≠ p := fun q hq heq => hnew (heq ▸ hq)
  have hsame := h.untouched p hnew
  have hdata : s.haveData p = s₀.haveData p := h.haveData p
  have hdata' : ∀ q, (loadEntry s p).haveData q = s.haveData q := fun q =>
    entry_modify_keep (fun e => e.nStatus.haveData) s p (loadedEntry s) (fun _ => rfl) q
  have hparOld : ∀ q ∈ done, ∀ r, s.par q = some r → r ≠ p := by
    intro q hq r hr
    rw [h.par] at hr
    exact hold r (hg.closed hq hr)
  have hparNew : ∀ r, s.par p = some r → r ≠ p := by
    intro r hr
    rw [h.par] at hr
    exact hold r (hparent r hr).1
  have hlinked : (loadEntry s p).linked p = true ↔ s.haveData p = true ∧ ∀ q, s.par p = some q → s.linked q = true :=
    loadEntry_linked (hsame ▸ hfresh) (by rw [hdata, hsame]; exact htx)
  refine ⟨h.size, ?_, ?_, h.addresses, h.chainActive, h.blockTree, h.setDirtyBlockIndex, h.pcoinsTip,
    h.reversedVerdicts, h.blockFile, h.quietChanges, ?_, h.skip_step hg hnew hparent, ?_, ?_, ?_, ?_⟩
  · intro q
    exact (entry_modify_keep CBlockIndex.stored s p (loadedEntry s) (fun _ => rfl) q).trans (h.entry q)
  · intro q hq
    rw [mem_cons, not_or] at hq
    rw [loadEntry_entry_ne hq.1]
    exact h.untouched q hq.2
  · intro q hq
    rw [hpar]
    rcases mem_cons.mp hq with rfl | hq
    · rw [loadEntry_entry_self]
      cases hroot : s.par q with
      | none =>
        have hpp : (s.entry q).pprev = none := hroot
        simp only [loadedEntry, hpp]
      | some r =>
        have hpp : (s.entry q).pprev = some r := hroot
        simp only [loadedEntry, hpp, loadEntry_entry_ne (hparNew r hroot)]
    · rw [loadEntry_entry_ne (hold q hq), h.work q hq]
      cases hroot : s.par q with
      | none => rfl
      | some r => simp only [loadEntry_entry_ne (hparOld q hq r hroot)]
  · intro q hq
    rw [hpar, hdata']
    rcases mem_cons.mp hq with rfl | hq
    · rw [hlinked]
      refine and_congr_right fun _ => forall_congr' fun r => imp_congr_right fun hr => ?_
      rw [loadEntry_linked_ne (hparNew r hr)]
    · rw [loadEntry_linked_ne (hold q hq), h.linked q hq]
      refine and_congr_right fun _ => forall_congr' fun r => imp_congr_right fun hr => ?_
      rw [loadEntry_linked_ne (hparOld q hq r hr)]
  · intro q
    rw [mem_loadEntry_candidates, h.candidates, mem_cons]
    constructor
    · rintro (⟨hq, hvalid⟩ | ⟨rfl, hvalid⟩)
      · rw [loadEntry_entry_ne (hold q hq), loadEntry_linked_ne (hold q hq), hpar]
        exact ⟨.inr hq, hvalid⟩
      · exact ⟨.inl rfl, hvalid⟩
    · rintro ⟨rfl | hq, hvalid⟩
      · exact .inr ⟨rfl, hvalid⟩
      · rw [loadEntry_entry_ne (hold q hq), loadEntry_linked_ne (hold q hq), hpar] at hvalid
        exact .inl ⟨hq, hvalid⟩
  · intro w hw
    rw [hpar, hdata']
    rcases mem_loadEntry_unlinked hw with hw | ⟨hwp, hwpar, hwdata, hwlinked⟩
    · obtain ⟨hmem, hwpar, hwdata, hwlinked⟩ := h.unlinked w hw
      rw [loadEntry_linked_ne (hold _ hmem)]
      exact ⟨mem_cons_of_mem _ hmem, hwpar, hwdata, hwlinked⟩
    · rw [hwp]
      refine ⟨mem_cons_self, hwpar, hwdata, ?_⟩
      by_contra hl
      rw [Bool.not_eq_false, hlinked] at hl
      have := hl.2 _ hwpar
      simp [hwlinked] at this
  · refine nodup_loadEntry_unlinked h.unlinked_nodup fun w hw => ?_
    exact hold _ (h.unlinked w hw).1

end

end

end Reddcoin
