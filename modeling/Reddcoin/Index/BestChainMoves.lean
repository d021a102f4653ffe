import Reddcoin.Connect.RoundTrip
import Reddcoin.Index.AcceptMoves

/-!
# Activating the best chain as moves

`ActivateBestChain` step by step: what each of its parts does to the state, and where it stops.
-/

namespace Reddcoin

open Forest (Anc)
open Relation (ReflTransGen)

variable {s' : NodeState} {pblock : Option CBlock} {turns : Nat} {block : CBlock} {x : Ptr} {s s' : NodeState}

theorem ChainMove.single (h : ChainMove s s') : ChainMoves s s' :=
  ReflTransGen.single h

theorem ChainMoves.inv {N : Node} (h : ChainMoves s s') (hs : IndexInv N s) : IndexInv N s' :=
  h.moves.inv hs

theorem flushStateToDisk_moves (s : NodeState) (needed : Bool) :
    ChainMoves s (s.flushStateToDisk needed) := by
  cases needed with
  | false => exact .refl
  | true => exact (ChainMove.write s).single

theorem invalidChainFound_move (s : NodeState) (p : Ptr) : ChainMove s (s.invalidChainFound p) :=
  .note s _ _ _ _

/-! ## What no move of the chain changes -/

/-- The candidates only get fewer, and how they compare stays the same. -/
structure Narrowed (s s' : NodeState) : Prop where
  shape : s.mapBlockIndex.SameShape s'.mapBlockIndex
  linked : ∀ p, s'.linked p = s.linked p
  nSequenceId : ∀ p, (s'.entry p).nSequenceId = (s.entry p).nSequenceId
  addresses : s'.addresses = s.addresses
  candidates : ∀ p ∈ s'.setBlockIndexCandidates, p ∈ s.setBlockIndexCandidates
  failed : ∀ p, s.failed p = true → s'.failed p = true
  verdicts : ∀ p ∈ s.reversedVerdicts, p ∈ s'.reversedVerdicts

namespace Narrowed

variable {s s' : NodeState}

theorem refl (s : NodeState) : Narrowed s s :=
  ⟨.refl _, fun _ => rfl, fun _ => rfl, rfl, fun _ h => h, fun _ h => h, fun _ h => h⟩

theorem trans {s'' : NodeState} (h : Narrowed s s') (h' : Narrowed s' s'') : Narrowed s s'' where
  shape := h.shape.trans h'.shape
  linked p := (h'.linked p).trans (h.linked p)
  nSequenceId p := (h'.nSequenceId p).trans (h.nSequenceId p)
  addresses := h'.addresses.trans h.addresses
  candidates p hp := h.candidates p (h'.candidates p hp)
  failed p hp := h'.failed p (h.failed p hp)
  verdicts p hp := h'.verdicts p (h.verdicts p hp)

theorem worse (h : Narrowed s s') (a b : Ptr) : s'.worse a b = s.worse a b :=
  worse_congr h.addresses (h.shape.nChainWork a) (h.shape.nChainWork b) (h.nSequenceId a)
    (h.nSequenceId b)

/-- Only the flags of an entry change. -/
theorem modify (s : NodeState) (p : Ptr) (f : CBlockIndex → CBlockIndex)
    (hshape : ∀ e, (f e).shape = e.shape) (hlinked : ∀ e, (f e).linked = e.linked)
    (hseq : ∀ e, (f e).nSequenceId = e.nSequenceId)
    (hfailed : ∀ e, e.failed → (f e).failed) : Narrowed s (s.modify p f) where
  shape := .modify _ p hshape
  linked := entry_modify_keep CBlockIndex.linked s p f hlinked
  nSequenceId := entry_modify_keep CBlockIndex.nSequenceId s p f hseq
  addresses := rfl
  candidates _ h := h
  failed q hq := by
    by_cases hqp : q = p
    · subst hqp
      unfold NodeState.failed
      rw [entry_modify_self]
      exact hfailed _ hq
    · unfold NodeState.failed
      rw [entry_modify_ne hqp]
      exact hq
  verdicts _ h := h

theorem failChild (s : NodeState) (p : Ptr) : Narrowed s (s.failChild p) :=
  .modify s p _ (fun _ => rfl) (fun _ => rfl) (fun _ => rfl) fun e he => by
    simp only [CBlockIndex.failed, CBlockIndex.failChild, BlockStatus.failed, Bool.or_true]

end Narrowed

theorem ChainMove.narrowed (h : ChainMove s s') : Narrowed s s' := by
  cases h with
  | note | quiet | write | disconnect =>
    exact ⟨.refl _, fun _ => rfl, fun _ => rfl, rfl, fun _ h => h, fun _ h => h, fun _ h => h⟩
  | @mint p r =>
    exact .modify s p _ (fun _ => rfl) (fun _ => rfl) (fun _ => rfl) fun _ h => h
  | @reject p =>
    have hverdict : Narrowed s (s.recordVerdict p) := by
      refine ⟨.refl _, fun _ => rfl, fun _ => rfl, rfl, fun _ h => h, fun _ h => h, fun q hq => ?_⟩
      simp only [NodeState.recordVerdict]
      split_ifs
      · exact List.mem_cons_of_mem _ hq
      · exact hq
    have hfail : Narrowed (s.recordVerdict p) ((s.recordVerdict p).failValid p) :=
      .modify _ p _ (fun _ => rfl) (fun _ => rfl) (fun _ => rfl) fun e he => by
        simp only [CBlockIndex.failed, CBlockIndex.failValid, BlockStatus.failed, Bool.true_or]
    refine (hverdict.trans hfail).trans
      ⟨.refl _, fun _ => rfl, fun _ => rfl, rfl, fun q hq => ?_, fun _ h => h, fun _ h => h⟩
    exact (List.mem_filter.mp hq).1
  | @failChild a p => exact .failChild s p
  | @failTip a p =>
    have h := Narrowed.failChild s p
    exact ⟨h.shape, h.linked, h.nSequenceId, h.addresses, h.candidates, h.failed, h.verdicts⟩
  | erase | connect =>
    exact ⟨.refl _, fun _ => rfl, fun _ => rfl, rfl, fun _ h => (List.mem_filter.mp h).1, fun _ h => h, fun _ h => h⟩
  | @record p t u r =>
    refine ⟨recorded_sameShape s p u r, recorded_linked s p u r, fun q => ?_, rfl, fun _ h => h,
      fun q hq => (recorded_failed s p u r q).trans hq, fun _ h => h⟩
    exact entry_modify_keep CBlockIndex.nSequenceId s p (connectedEntry u r) (fun _ => rfl) q

theorem ChainMoves.narrowed (h : ChainMoves s s') : Narrowed s s' := by
  induction h with
  | refl => exact .refl _
  | tail _ move ih => exact ih.trans move.narrowed

/-! ## Connecting and disconnecting one block -/

/-- An entry above `t` that may be connected. -/
structure Next (s : NodeState) (t p : Ptr) : Prop where
  size : p < s.size
  par : s.par p = some t
  linked : s.linked p = true
  valid : s.failed p = false

section

variable {N : Node} {s : NodeState} {t p : Ptr}

/-- The block of an entry with a parent is not the genesis block. -/
theorem IndexInv.getHash_ne_genesis (hs : IndexInv N s) (hp : p < s.size) (hpar : s.par p = some t)
    (hhash : block.getHash N.C = (s.entry p).hash) :
    block.getHash N.C ≠ N.P.hashGenesisBlock := by
  intro heq
  obtain ⟨g, hg, hroot, hghash⟩ := hs.exists_genesis
  have hsame : g = p := hs.shape.hash_injective g hg p hp (hghash.trans (heq.symm.trans hhash))
  rw [hsame, hpar] at hroot
  simp at hroot

theorem readBlockFromDisk_hash (h : readBlockFromDisk N s p = some block) : block.getHash N.C = (s.entry p).hash := by
  unfold readBlockFromDisk at h
  split at h
  · simp at h
  · split_ifs at h with _ _ hhash
    cases h
    exact hhash

theorem flush_bestIs {view : CoinsView} {hash : Uint256} (h : view.BestIs hash) :
    view.flush.BestIs hash :=
  h

theorem setBestBlock_bestIs (view : CoinsView) (hash : Uint256) :
    (view.setBestBlock hash).BestIs hash :=
  getBestBlock_setBestBlock

/-- The state after `ConnectTip`, before the worse candidates are dropped. -/
def NodeState.connected (s : NodeState) (p : Ptr) (u : Nat) (r : ConnectResult) (needed : Bool) :
    NodeState :=
  (({ ((s.recorded p u r).flushStateToDisk needed).tick with pcoinsTip := r.view.flush } :
    NodeState).updateTip (some p))

/-- The state when `ConnectBlock` fails to write the undo data. -/
def NodeState.minted (s : NodeState) (p : Ptr) (r : ConnectResult) : NodeState :=
  (s.noteQuiet .reconnected p (mintedEntry r)).modify p (mintedEntry r)

/-- `ConnectTip` for a block at hand, above the tip. -/
theorem connectTipBlock_cases (hs : IndexInv N s) (hp : p < s.size) (hpar : s.par p = some t)
    (hhash : block.getHash N.C = (s.entry p).hash) :
    (∃ u r needed, r.view.BestIs (s.entry p).hash ∧ connectTipBlock N s p block = (.ok (), s.connected p u r needed)) ∨
    (∃ stop, connectTipBlock N s p block = (.error stop, s)) ∨
    (∃ stop r, connectTipBlock N s p block = (.error stop, s.minted p r)) ∨
    (∃ stop u r, connectTipBlock N s p block = (.error stop, s.recorded p u r)) ∨
    ∃ stop st, connectTipBlock N s p block = (.error stop, s.invalidBlockFound p st) := by
  have hgenesis := hs.getHash_ne_genesis hp hpar hhash
  unfold connectTipBlock
  cases hconnect : connectBlock N.P N.C (connectContext N s p) block s.pcoinsTip false with
  | error stop =>
    cases stop with
    | crashes => exact .inr (.inl ⟨_, rfl⟩)
    | returns st =>
      simp only
      split_ifs
      · exact .inr (.inr (.inr (.inr ⟨_, _, rfl⟩)))
      · exact .inr (.inl ⟨_, rfl⟩)
  | ok r =>
    have hbest : r.view.BestIs (s.entry p).hash :=
      fun hne => (connectBlock_ok hgenesis hconnect).getBestBlock hne
    simp only [recordConnected, if_neg hgenesis]
    split_ifs
    · exact .inr (.inr (.inl ⟨_, r, rfl⟩))
    · exact .inr (.inr (.inr (.inl ⟨_, _, r, rfl⟩)))
    · exact .inl ⟨_, r, _, hbest, rfl⟩

/-- The block that is connected is the one of the entry. -/
def BlockFits (N : Node) (s : NodeState) (pblock : Option CBlock) (p : Ptr) : Prop :=
  ∀ block, pblock = some block → block.getHash N.C = (s.entry p).hash

/-- The block at hand is used for its own entry only. -/
theorem BlockFits.pick {m : Ptr} (h : BlockFits N s pblock m) (p : Ptr) :
    BlockFits N s (if p = m then pblock else none) p := by
  intro block hb
  split_ifs at hb with hpm
  rw [hpm]
  exact h block hb

theorem connectTip_cases (hs : IndexInv N s) (hnext : Next s t p) (htip : s.tip = some t)
    (hblock : BlockFits N s pblock p) :
    (∃ u r needed, r.view.BestIs (s.entry p).hash ∧ connectTip N s p pblock = (.ok (), s.connected p u r needed)) ∨
    (∃ stop, connectTip N s p pblock = (.error stop, s)) ∨
    (∃ stop r, connectTip N s p pblock = (.error stop, s.minted p r)) ∨
    (∃ stop u r, connectTip N s p pblock = (.error stop, s.recorded p u r)) ∨
    ∃ stop st, connectTip N s p pblock = (.error stop, s.invalidBlockFound p st) := by
  have hnot : ¬ s.par p ≠ s.tip := by
    rw [hnext.par, htip]
    simp
  unfold connectTip
  rw [if_neg hnot]
  cases pblock with
  | some block => exact connectTipBlock_cases hs hnext.size hnext.par (hblock block rfl)
  | none =>
    simp only
    cases hread : readBlockFromDisk N s p with
    | none => exact .inr (.inl ⟨_, rfl⟩)
    | some block => exact connectTipBlock_cases hs hnext.size hnext.par (readBlockFromDisk_hash hread)

theorem invalidBlockFound_moves (hnext : Next s t p) (htip : s.tip = some t) (st : CValidationState) :
    ChainMoves s (s.invalidBlockFound p st) := by
  unfold NodeState.invalidBlockFound
  split_ifs
  · exact .refl
  · exact (ChainMove.reject hnext.size hnext.par htip hnext.linked hnext.valid).single.tail
      (invalidChainFound_move _ p)

theorem minted_moves (s : NodeState) (p : Ptr) (r : ConnectResult) : ChainMoves s (s.minted p r) := by
  obtain ⟨hmoves, hnoted⟩ := noteQuiet_moves s .reconnected p (mintedEntry r)
  exact hmoves.tail (.mint r hnoted)

theorem record_move (hnext : Next s t p) (htip : s.tip = some t) (u : Nat) (r : ConnectResult) :
    ChainMove s (s.recorded p u r) :=
  .record u r hnext.size hnext.par htip hnext.linked hnext.valid

/-- What is left to do for the entry once `ConnectBlock` has accepted it. -/
theorem connected_moves (hnext : Next s t p) (htip : s.tip = some t)
    (u : Nat) {r : ConnectResult} (hbest : r.view.BestIs (s.entry p).hash) (needed : Bool) :
    ChainMoves s ((s.connected p u r needed).dropWorse p) := by
  have hmoves : ChainMoves s ((s.recorded p u r).flushStateToDisk needed).tick :=
    ((record_move hnext htip u r).single.trans (flushStateToDisk_moves _ needed)).tail (.note _ _ _ _ _)
  refine hmoves.tail (.connect r.view.flush hnext.size ?_ htip ?_ ?_ ?_ ?_)
  · exact (congrFun (recorded_sameShape s p u r).par p).trans hnext.par
  · exact (recorded_linked s p u r p).trans hnext.linked
  · exact (recorded_failed s p u r p).trans hnext.valid
  · have he : (((s.recorded p u r).flushStateToDisk needed).tick).entry p = connectedEntry u r (s.entry p) :=
      recorded_entry_self s p u r
    rw [he]
    have hvalid : (connectedEntry u r (s.entry p)).nStatus.valid =
        max (s.entry p).nStatus.valid BLOCK_VALID_SCRIPTS := connectedStatus_valid hnext.valid
    omega
  · have hhash : (((s.recorded p u r).flushStateToDisk needed).tick.entry p).hash = (s.entry p).hash :=
      (recorded_sameShape s p u r).hash p
    rw [hhash]
    exact hbest

section

variable (hs : IndexInv N s) (hnext : Next s t p) (htip : s.tip = some t)

include hs hnext htip

theorem connected_tip (u : Nat) (r : ConnectResult) (needed : Bool) : (s.connected p u r needed).tip = some p := by
  obtain ⟨-, hends, -⟩ := hs.tip_eq htip
  have hshape := recorded_sameShape s p u r
  have htree := hshape.tree hs.shape.tree
  have hpar : (s.recorded p u r).mapBlockIndex.par p = some t := (congrFun hshape.par p).trans hnext.par
  exact ((hshape.endsAt hends).setTip_child htree hnext.size hpar).tip htree hnext.size

theorem connectTip_error (hblock : BlockFits N s pblock p) {stop : Stop}
    (h : connectTip N s p pblock = (.error stop, s')) : ChainMoves s s' := by
  rcases connectTip_cases hs hnext htip hblock with
    ⟨u, r, needed, -, h'⟩ | ⟨_, h'⟩ | ⟨_, r, h'⟩ | ⟨_, u, r, h'⟩ | ⟨_, st, h'⟩
  · rw [h] at h'
    simp at h'
  · rw [h] at h'
    rw [(Prod.mk.inj h').2]
  · rw [h] at h'
    rw [(Prod.mk.inj h').2]
    exact minted_moves s p r
  · rw [h] at h'
    rw [(Prod.mk.inj h').2]
    exact (record_move hnext htip u r).single
  · rw [h] at h'
    rw [(Prod.mk.inj h').2]
    exact invalidBlockFound_moves hnext htip st

/-- A successful `ConnectTip` followed by `PruneBlockIndexCandidates`. -/
theorem connectTip_ok (hblock : BlockFits N s pblock p) (h : connectTip N s p pblock = (.ok (), s')) :
    ChainMoves s (s'.dropWorse p) ∧ s'.tip = some p ∧ (pruneBlockIndexCandidates s').2 = s'.dropWorse p ∧
      (∀ q, s'.failed q = s.failed q) := by
  rcases connectTip_cases hs hnext htip hblock with
    ⟨u, r, needed, hbest, h'⟩ | ⟨_, h'⟩ | ⟨_, r, h'⟩ | ⟨_, u, r, h'⟩ | ⟨_, st, h'⟩
  · rw [h] at h'
    obtain rfl := (Prod.mk.inj h').2
    have htip' := connected_tip hs hnext htip u r needed
    refine ⟨connected_moves hnext htip u hbest needed, htip', ?_, recorded_failed s p u r⟩
    unfold pruneBlockIndexCandidates
    rw [htip']
    simp only
    split_ifs <;> rfl
  · simp [h] at h'
  · simp [h] at h'
  · simp [h] at h'
  · simp [h] at h'

end

theorem disconnectBlock_bestIs {C : Crypto} {ctx : ConnectContext} {written : CBlockUndo} {view W : CoinsView}
    {clean : Bool}
    (h : disconnectBlock C ctx block written view = .ok (W, clean)) : W.BestIs ctx.hashPrevBlock := by
  obtain ⟨s, -, hW, -⟩ := disconnectBlock_ok h
  rw [hW]
  exact setBestBlock_bestIs _ _

/-- `DisconnectTip` fails and changes nothing, or the parent of the tip becomes the tip. -/
theorem disconnectTip_cases (hs : IndexInv N s) (htip : s.tip = some t) :
    (∃ stop, disconnectTip N s = (.error stop, s)) ∨
    ∃ q s', s.par t = some q ∧ disconnectTip N s = (.ok (), s') ∧ ChainMoves s s' ∧
      s'.tip = some q ∧ s'.mapBlockIndex = s.mapBlockIndex ∧
      s'.setBlockIndexCandidates = s.setBlockIndexCandidates := by
  obtain ⟨hsize, hends, -⟩ := hs.tip_eq htip
  unfold disconnectTip
  rw [htip]
  simp only
  cases hread : readBlockFromDisk N s t with
  | none => exact .inl ⟨_, rfl⟩
  | some block =>
    simp only
    cases hundo : s.undoData t with
    | none => exact .inl ⟨_, rfl⟩
    | some blockUndo =>
      simp only [disconnectTipBlock]
      cases hdis : disconnectBlock N.C (connectContext N s t) block blockUndo s.pcoinsTip with
      | error stop => exact .inl ⟨_, rfl⟩
      | ok result =>
        obtain ⟨view, fClean⟩ := result
        simp only
        split_ifs with hclean
        · exact .inl ⟨_, rfl⟩
        · right
          -- The genesis block has no undo data.
          have hpar : ∃ q, s.par t = some q := by
            cases hroot : s.par t with
            | none =>
              have hno := hs.flow.genesis_undo t hsize hroot
              simp [NodeState.undoData, hno] at hundo
            | some q => exact ⟨q, rfl⟩
          obtain ⟨q, hq⟩ := hpar
          have hbest : view.BestIs (s.entry q).hash := by
            have hview := disconnectBlock_bestIs hdis
            have hprev : (connectContext N s t).hashPrevBlock = (s.entry q).hash := by
              show (s.mapBlockIndex.getBlockHeader t).hashPrevBlock = _
              simp only [BlockMap.getBlockHeader]
              rw [show (s.mapBlockIndex.entry t).pprev = some q from hq]
              rfl
            rw [hprev] at hview
            exact hview
          refine ⟨q, _, hq, rfl, ?_, ?_, rfl, rfl⟩
          · have hmoves : ChainMoves s (s.flushStateToDisk (N.env s).needsFlush).tick :=
              (flushStateToDisk_moves s _).tail (.note _ _ _ _ _)
            have hlast : ChainMove (s.flushStateToDisk (N.env s).needsFlush).tick
                (({ (s.flushStateToDisk (N.env s).needsFlush).tick with pcoinsTip := view.flush } :
                  NodeState).updateTip (some q)) :=
              .disconnect view.flush htip hq (flush_bestIs hbest)
            refine hmoves.tail ?_
            show ChainMove _ (NodeState.tick (NodeState.updateTip _ (s.par t)))
            rw [hq]
            exact hlast
          · show (s.chainActive.setTip s.mapBlockIndex (s.par t)).tip = some q
            rw [hq]
            exact (hends.setTip_parent hs.shape.tree hsize hq).tip hs.shape.tree
              (hs.shape.tree.graded.closed hsize hq)

/-! ## The best candidate -/

theorem exists_parent (hanc : Anc s.par x p) (hne : p ≠ x) : ∃ q, s.par p = some q ∧ Anc s.par x q := by
  rcases Forest.anc_iff.mp hanc with heq | h
  · exact absurd heq.symm hne
  · exact h

theorem failed_failChild (s : NodeState) (p : Ptr) : (s.failChild p).failed p = true := by
  unfold NodeState.failed NodeState.failChild
  rw [entry_modify_self]
  simp only [CBlockIndex.failed, CBlockIndex.failChild, BlockStatus.failed, Bool.or_true]

/-- Without a failed entry on the way, only entries of the active chain can be failed. -/
theorem findFailed_none (hs : IndexInv N s) (htip : s.tip = some t) (hp : p < s.size)
    (hturns : s.ht p < turns) (h : findFailed s turns (some p) = .ok none) {a : Ptr}
    (hanc : Anc s.par a p) (hnot : ¬ Anc s.par a t) : s.failed a = false := by
  induction turns generalizing p with
  | zero => omega
  | succ turns ih =>
    unfold findFailed at h
    split_ifs at h with hcontains hdata hlinked hfailed
    · exact absurd (hanc.trans ((hs.contains_iff htip).mp hcontains)) hnot
    · simp at h
    · rw [Bool.not_eq_true] at hfailed
      cases hpar : s.par p with
      | none =>
        rw [(Forest.anc_of_root hpar).mp hanc]
        exact hfailed
      | some q =>
        rcases (Forest.anc_of_parent hpar).mp hanc with rfl | hanc
        · exact hfailed
        · rw [hpar] at h
          have hheight : s.ht p = s.ht q + 1 := hs.shape.tree.graded.height hp hpar
          exact ih (hs.shape.tree.graded.closed hp hpar) (by omega) h hanc

theorem findFailed_some (h : findFailed s turns (some p) = .ok (some x)) : Anc s.par x p ∧ s.failed x = true := by
  induction turns generalizing p with
  | zero => simp [findFailed] at h
  | succ turns ih =>
    unfold findFailed at h
    split_ifs at h with hcontains hdata hlinked hfailed
    · simp at h
    · obtain rfl : p = x := by simpa using h
      exact ⟨.refl p, hfailed⟩
    · cases hpar : s.par p with
      | none =>
        rw [hpar] at h
        cases turns <;> simp [findFailed] at h
      | some q =>
        rw [hpar] at h
        obtain ⟨hanc, hx⟩ := ih h
        exact ⟨.step hpar hanc, hx⟩

theorem failBranch_moves (hs : IndexInv N s) (hp : p < s.size)
    (hlinked : s.linked p) (hanc : Anc s.par x p) (hx : s.failed x) :
    ChainMoves s (failBranch x turns s (some p)) := by
  induction turns generalizing s p with
  | zero => exact .refl
  | succ turns ih =>
    unfold failBranch
    split_ifs with heq
    · exact (ChainMove.erase hx).single
    · obtain ⟨q, hq, hancq⟩ := exists_parent hanc heq
      obtain ⟨hnote, hnoted⟩ := noteQuiet_moves s .findMostWorkChain p CBlockIndex.failChild
      have hmark : ChainMoves s ((s.noteQuiet .findMostWorkChain p CBlockIndex.failChild).failChild p) :=
        hnote.tail (.failChild hp hlinked hanc hx hnoted)
      have hnarrow := hmark.narrowed
      have hx' := hnarrow.failed x hx
      have hpar : (s.failChild p).par = s.par := hnarrow.shape.par
      have hmoves : ChainMoves s _ := hmark.tail (.erase (failed_failChild s p))
      rw [hq]
      refine hmoves.trans (ih (hmoves.inv hs) (hs.shape.tree.graded.closed hp hq) ?_ ?_ hx')
      · exact (hnarrow.linked q).trans (hs.flow.linked_parent p hp hlinked q hq)
      · show Anc (s.failChild p).par x q
        rw [hpar]
        exact hancq

theorem failBranch_candidates_le (turns : Nat) (s : NodeState) (p? : Option Ptr) :
    (failBranch x turns s p?).setBlockIndexCandidates.length ≤ s.setBlockIndexCandidates.length := by
  induction turns generalizing s p? with
  | zero => exact Nat.le_refl _
  | succ turns ih =>
    cases p? with
    | none => exact Nat.le_refl _
    | some p =>
      unfold failBranch
      split_ifs with heq
      · exact List.length_filter_le _ _
      · exact (ih _ _).trans (List.length_filter_le _ _)

/-- The candidate that was looked at is one no more. -/
theorem failBranch_candidates_lt (turns : Nat) (hmem : p ∈ s.setBlockIndexCandidates) :
    (failBranch x (turns + 1) s (some p)).setBlockIndexCandidates.length < s.setBlockIndexCandidates.length := by
  have herase : ∀ s' : NodeState, p ∈ s'.setBlockIndexCandidates →
      (s'.eraseCandidate p).setBlockIndexCandidates.length < s'.setBlockIndexCandidates.length := by
    intro s' hmem'
    refine List.length_filter_lt_length_iff_exists.mpr ⟨p, hmem', ?_⟩
    simp
  unfold failBranch
  split_ifs with heq
  · rw [← heq]
    exact herase s hmem
  · exact (failBranch_candidates_le turns _ _).trans_lt (herase (s.failChild p) hmem)

/-- What `FindMostWorkChain` has made sure of when it returns. -/
structure MostWork (s : NodeState) (m : Ptr) : Prop where
  candidate : m ∈ s.setBlockIndexCandidates
  best : ∀ q ∈ s.setBlockIndexCandidates, s.worse m q = false
  clean : ∀ t, s.tip = some t → ∀ a, Anc s.par a m → ¬ Anc s.par a t → s.failed a = false

theorem findMostWorkLoop_spec (hs : IndexInv N s)
    (hturns : s.setBlockIndexCandidates.length < turns) {r : Check (Option Ptr)} (h : findMostWorkLoop turns s = (r, s')) :
    ChainMoves s s' ∧ (r = .ok none → s'.setBlockIndexCandidates = []) ∧ ∀ m, r = .ok (some m) → MostWork s' m := by
  induction turns generalizing s with
  | zero => omega
  | succ turns ih =>
    unfold findMostWorkLoop at h
    cases hbest : bestCandidate s.addresses s.mapBlockIndex s.setBlockIndexCandidates with
    | none =>
      rw [hbest] at h
      cases h
      exact ⟨.refl, fun _ => bestCandidate_eq_none.mp hbest, fun m hm => by simp at hm⟩
    | some p =>
      rw [hbest] at h
      obtain ⟨hmem, hworse⟩ := bestCandidate_eq_some hbest
      obtain ⟨hp, hlinked⟩ := hs.flow.candidates p hmem
      simp only at h
      cases hfind : findFailed s (s.ht p + 1) (some p) with
      | error stop =>
        rw [hfind] at h
        cases h
        exact ⟨.refl, fun hr => by simp at hr, fun m hm => by simp at hm⟩
      | ok found =>
        rw [hfind] at h
        cases found with
        | none =>
          cases h
          refine ⟨.refl, fun hr => by simp at hr, fun m hm => ?_⟩
          obtain rfl : p = m := by simpa using hm
          exact ⟨hmem, hworse, fun t ht a ha hnot =>
            findFailed_none hs ht hp (Nat.lt_succ_self _) hfind ha hnot⟩
        | some x =>
          obtain ⟨hanc, hx⟩ := findFailed_some hfind
          have hnote := invalidChainFound_move s p
          have hmoves : ChainMoves s (failBranch x (s.ht p + 1) (s.invalidChainFound p) (some p)) :=
            hnote.single.trans (failBranch_moves (hnote.inv hs) hp hlinked hanc hx)
          have hlt : (failBranch x (s.ht p + 1) (s.invalidChainFound p)
              (some p)).setBlockIndexCandidates.length < s.setBlockIndexCandidates.length :=
            failBranch_candidates_lt (s := s.invalidChainFound p) _ hmem
          obtain ⟨hrest, hnone, hsome⟩ := ih (hmoves.inv hs) (by omega) h
          exact ⟨hmoves.trans hrest, hnone, hsome⟩

theorem findMostWorkChain_spec (hs : IndexInv N s) {r : Check (Option Ptr)} (h : findMostWorkChain s = (r, s')) :
    ChainMoves s s' ∧ (r = .ok none → s'.setBlockIndexCandidates = []) ∧ ∀ m, r = .ok (some m) → MostWork s' m :=
  findMostWorkLoop_spec hs (Nat.lt_succ_self _) h

/-! ## A step towards it -/

/-- Disconnecting down to an ancestor of the tip. -/
theorem disconnectTo_spec {f : Ptr} (hs : IndexInv N s) (htip : s.tip = some t)
    (hanc : Anc s.par f t) (hturns : s.ht t ≤ turns + s.ht f) {r : Check Unit}
    (h : disconnectTo N (some f) turns s = (r, s')) :
    ChainMoves s s' ∧ s'.mapBlockIndex = s.mapBlockIndex ∧ (r = .ok () → s'.tip = some f) := by
  induction turns generalizing s t with
  | zero =>
    obtain ⟨rfl, rfl⟩ := Prod.mk.inj h
    have hsize := (hs.tip_eq htip).1
    have hheight : s.ht f ≤ s.ht t := (hs.shape.tree.graded.anc_height hsize hanc).1
    have heq : f = t := (hs.shape.tree.graded.anc_height hsize hanc).2 (by
      show s.ht f = s.ht t
      omega)
    exact ⟨.refl, rfl, fun _ => heq ▸ htip⟩
  | succ turns ih =>
    unfold disconnectTo at h
    split_ifs at h with hstop
    · cases h
      refine ⟨.refl, rfl, fun _ => ?_⟩
      rcases hstop with hnone | hfork
      · rw [htip] at hnone
        simp at hnone
      · exact hfork
    · have hne : t ≠ f := fun heq => hstop (.inr (heq ▸ htip))
      obtain ⟨hsize, -⟩ := hs.tip_eq htip
      rcases disconnectTip_cases hs htip with ⟨stop, hdis⟩ | ⟨q, s₁, hq, hdis, hmoves, htip₁, hmap, -⟩
      · rw [hdis] at h
        cases h
        exact ⟨.refl, rfl, fun hr => by simp at hr⟩
      · rw [hdis] at h
        have hpar : s₁.par = s.par := by
          unfold NodeState.par
          rw [hmap]
        have hht : s₁.ht = s.ht := by
          unfold NodeState.ht
          rw [hmap]
        obtain ⟨q', hq', hancq⟩ := exists_parent hanc hne
        cases hq.symm.trans hq'
        have hheight : s.ht t = s.ht q + 1 := hs.shape.tree.graded.height hsize hq
        obtain ⟨hrest, hmap', htip'⟩ := ih (hmoves.inv hs) htip₁ (by rw [hpar]; exact hancq)
          (by rw [hht]; omega) h
        exact ⟨hmoves.trans hrest, hmap'.trans hmap, htip'⟩

/-- The entries of a list lead from `t` up to `e`, and each may be connected. -/
inductive Climb (s : NodeState) : Ptr → List Ptr → Ptr → Prop where
  | nil (t : Ptr) : Climb s t [] t
  | cons {t p e : Ptr} {ps : List Ptr} (next : Next s t p) (rest : Climb s p ps e) :
      Climb s t (p :: ps) e

theorem Climb.append {t q e : Ptr} {ps qs : List Ptr} (h : Climb s t ps q) (h' : Climb s q qs e) :
    Climb s t (ps ++ qs) e := by
  induction h with
  | nil => exact h'
  | cons next _ ih => exact .cons next (ih h')

/-- Nothing that `Next` reads has changed. -/
theorem Next.congr (h : Next s t p)
    (hshape : s.mapBlockIndex.SameShape s'.mapBlockIndex) (hlinked : ∀ q, s'.linked q = s.linked q)
    (hfailed : ∀ q, s'.failed q = s.failed q) : Next s' t p where
  size := lt_of_lt_of_eq h.size hshape.size.symm
  par := (congrFun hshape.par p).trans h.par
  linked := (hlinked p).trans h.linked
  valid := (hfailed p).trans h.valid

theorem Climb.congr {t e : Ptr} {ps : List Ptr} (h : Climb s t ps e)
    (hshape : s.mapBlockIndex.SameShape s'.mapBlockIndex) (hlinked : ∀ q, s'.linked q = s.linked q)
    (hfailed : ∀ q, s'.failed q = s.failed q) : Climb s' t ps e := by
  induction h with
  | nil t => exact .nil t
  | cons next _ ih => exact .cons (next.congr hshape hlinked hfailed) ih

/-- The entries to connect lead from the fork up to `x`. -/
theorem toConnect_climb {f x : Ptr} {nHeight : Int} (hs : IndexInv N s) (hx : x < s.size)
    (hanc : Anc s.par f x) (hheight : (s.ht f : Int) = nHeight) (hturns : s.ht x < turns)
    (hlinked : s.linked x)
    (hclean : ∀ a, Anc s.par a x → ¬ Anc s.par a f → s.failed a = false) :
    Climb s f (toConnect s nHeight turns (some x)).reverse x := by
  induction turns generalizing x with
  | zero => omega
  | succ turns ih =>
    unfold toConnect
    split_ifs with hstop
    · have heq : f = x := (hs.shape.tree.graded.anc_height hx hanc).2 (by
        show s.ht f = s.ht x
        omega)
      rw [heq]
      exact .nil x
    · have hne : x ≠ f := by
        rintro rfl
        exact hstop hheight
      obtain ⟨q, hq, hancq⟩ := exists_parent hanc hne
      have hqS : q < s.size := hs.shape.tree.graded.closed hx hq
      have hstep : s.ht x = s.ht q + 1 := hs.shape.tree.graded.height hx hq
      have hfx := (hs.shape.tree.graded.anc_height hqS hancq).1
      rw [hq, List.reverse_cons]
      refine (ih hqS hancq (by omega) (hs.flow.linked_parent x hx hlinked q hq) fun a ha =>
        hclean a (.step hq ha)).append (.cons ⟨hx, hq, hlinked, ?_⟩ (.nil x))
      refine hclean x (.refl x) fun hxf => ?_
      have hle := (hs.shape.tree.graded.anc_height (hs.shape.tree.graded.anc_mem hx hanc) hxf).1
      have hxq : s.mapBlockIndex.ht x = s.mapBlockIndex.ht q + 1 := hstep
      omega

/-- A batch is connected up to its end, unless a block is invalid or the tip has improved before. -/
theorem connectBatch_spec {m back : Ptr} {old : Option Ptr} {batch : List Ptr}
    {e : Ptr} (hs : IndexInv N s) (htip : s.tip = some t) (hclimb : Climb s t batch e)
    (hblock : BlockFits N s pblock m) {r : Check Bool} (h : connectBatch N m pblock old back batch s = (r, s')) :
    ChainMoves s s' ∧ (r = .ok true → s'.tip = some e ∧ (∀ q, s'.failed q = s.failed q)) := by
  induction batch generalizing s t with
  | nil =>
    cases hclimb
    cases h
    exact ⟨.refl, fun _ => ⟨htip, fun _ => rfl⟩⟩
  | cons p ps ih =>
    cases hclimb with
    | cons next rest =>
      have hfits := hblock.pick p
      unfold connectBatch at h
      cases hconnect : connectTip N s p (if p = m then pblock else none) with
      | mk r₁ s₁ =>
        rw [hconnect] at h
        cases r₁ with
        | error stop =>
          have hmoves := connectTip_error hs next htip hfits hconnect
          cases stop with
          | crashes =>
            cases h
            exact ⟨hmoves, fun hr => by simp at hr⟩
          | returns st =>
            simp only at h
            split_ifs at h with hinvalid hcorrupt
            · cases h
              exact ⟨hmoves, fun hr => by simp at hr⟩
            · cases h
              exact ⟨hmoves.tail (invalidChainFound_move s₁ back), fun hr => by simp at hr⟩
            · cases h
              exact ⟨hmoves, fun hr => by simp at hr⟩
        | ok u =>
          obtain ⟨hmoves, htip₁, hprune, hfailed⟩ := connectTip_ok hs next htip hfits hconnect
          have hnarrow := hmoves.narrowed
          simp only at h
          cases hpruned : pruneBlockIndexCandidates s₁ with
          | mk r₂ s₂ =>
            rw [hpruned] at h hprune
            obtain rfl : s₂ = s₁.dropWorse p := hprune
            cases r₂ with
            | error stop =>
              cases h
              exact ⟨hmoves, fun hr => by simp at hr⟩
            | ok u =>
              simp only [Call.andThen] at h
              split_ifs at h with himproved
              · cases h
                exact ⟨hmoves, fun hr => by simp at hr⟩
              · have hfits' : BlockFits N (s₁.dropWorse p) pblock m := by
                  intro block hb
                  exact (hblock block hb).trans (hnarrow.shape.hash m).symm
                obtain ⟨hrest, hend⟩ := ih (hmoves.inv hs) htip₁
                  (rest.congr hnarrow.shape hnarrow.linked hfailed) hfits' h
                refine ⟨hmoves.trans hrest, fun hr => ⟨(hend hr).1, fun q => ?_⟩⟩
                exact ((hend hr).2 q).trans (hfailed q)

/-- The next batch leads from the tip up to the ancestor of `m` at the target height. -/
theorem nextBatch_climb {f m : Ptr} (hs : IndexInv N s) (hm : m < s.size) (hanc : Anc s.par f m)
    (hlinked : s.linked m) (hclean : ∀ a, Anc s.par a m → ¬ Anc s.par a f → s.failed a = false)
    {target : Nat} (hf : s.ht f ≤ target) (htarget : target ≤ s.ht m) :
    ∃ e, Anc s.par f e ∧ Anc s.par e m ∧ s.ht e = target ∧ Climb s f (nextBatch s m (s.ht f) target) e := by
  obtain ⟨e, he, hheight⟩ := hs.shape.tree.graded.exists_anc hm htarget
  have heS := hs.shape.tree.graded.anc_mem hm he
  have hfe : Anc s.par f e :=
    hs.shape.tree.graded.anc_of_height_le hm hanc he (hf.trans (Nat.le_of_eq hheight.symm))
  have hancestor : s.mapBlockIndex.getAncestor m target = some e :=
    (hs.shape.tree.getAncestor_eq_some hm).mpr ⟨he, hheight⟩
  refine ⟨e, hfe, he, hheight, ?_⟩
  have htoNat : ((target : Int)).toNat = target := Int.toNat_natCast target
  unfold nextBatch
  rw [htoNat, hancestor]
  refine toConnect_climb hs heS hfe rfl ?_ ?_ fun a ha => hclean a (ha.trans he)
  · show s.mapBlockIndex.ht e < target + 1
    omega
  · exact hs.linked_anc hm hlinked he

theorem connectLoop_spec {m f : Ptr} {old : Option Ptr} (hs : IndexInv N s) (htip : s.tip = some f) (hm : m < s.size)
    (hanc : Anc s.par f m)
    (hlinked : s.linked m) (hclean : ∀ a, Anc s.par a m → ¬ Anc s.par a f → s.failed a = false)
    (hblock : BlockFits N s pblock m) {r : Check Unit} (h : connectLoop N m pblock old turns s (s.ht f) = (r, s')) :
    ChainMoves s s' := by
  induction turns generalizing s f with
  | zero =>
    cases h
    exact .refl
  | succ turns ih =>
    unfold connectLoop at h
    split_ifs at h with hdone
    · cases h
      exact .refl
    · have hheight : s.ht f ≤ s.ht m := (hs.shape.tree.graded.anc_height hm hanc).1
      have hmin : min ((s.ht f : Int) + 32) (s.ht m) = ((min (s.ht f + 32) (s.ht m) : Nat) : Int) := by
        omega
      obtain ⟨e, hfe, hem, hhe, hclimb⟩ := nextBatch_climb hs hm hanc hlinked hclean
        (show s.ht f ≤ min (s.ht f + 32) (s.ht m) by omega) (Nat.min_le_right _ _)
      simp only [hmin] at h
      cases hbatch : connectBatch N m pblock old
          ((nextBatch s m (s.ht f) (min (s.ht f + 32) (s.ht m) : Nat)).headD 0)
          (nextBatch s m (s.ht f) (min (s.ht f + 32) (s.ht m) : Nat)) s with
      | mk r₁ s₁ =>
        rw [hbatch] at h
        obtain ⟨hmoves, hend⟩ := connectBatch_spec hs htip hclimb hblock hbatch
        cases r₁ with
        | error stop =>
          cases h
          exact hmoves
        | ok fContinue =>
          cases fContinue with
          | false =>
            cases h
            exact hmoves
          | true =>
            obtain ⟨htip₁, hfailed⟩ := hend rfl
            have hshape := hmoves.narrowed.shape
            have hpar : s₁.par = s.par := hshape.par
            have hht : s₁.ht = s.ht := hshape.ht
            simp only [Call.andThen, if_true, ← hhe] at h
            rw [← hht] at h
            refine hmoves.trans (ih (hmoves.inv hs) htip₁ (lt_of_lt_of_eq hm hshape.size.symm) ?_ ?_
              ?_ ?_ h)
            · rw [hpar]
              exact hem
            · exact (hmoves.narrowed.linked m).trans hlinked
            · intro a ha hnot
              rw [hpar] at ha hnot
              rw [hfailed]
              exact hclean a ha fun haf => hnot (haf.trans hfe)
            · intro block hb
              exact (hblock block hb).trans (hshape.hash m).symm

theorem activateBestChainStep_moves {m : Ptr} (hs : IndexInv N s)
    (hmost : MostWork s m) (hblock : BlockFits N s pblock m) {r : Check Unit}
    (h : activateBestChainStep N s m pblock = (r, s')) : ChainMoves s s' := by
  obtain ⟨t, htip⟩ := hs.exists_tip
  obtain ⟨hsize, hends, -⟩ := hs.tip_eq htip
  obtain ⟨hm, hlinked⟩ := hs.flow.candidates m hmost.candidate
  obtain ⟨f, hfork, hfm, hft, hlast⟩ := hends.findFork_eq hs.shape.tree hsize hm
  have hlen := hends.length hs.shape.tree hsize
  unfold activateBestChainStep at h
  simp only [hfork] at h
  cases hdis : disconnectTo N (some f) s.chainActive.length s with
  | mk r₁ s₁ =>
    have hturns : s.ht t ≤ s.chainActive.length + s.ht f := by
      have hht : s.ht t = s.mapBlockIndex.ht t := rfl
      omega
    obtain ⟨hmoves, hmap, htip₁⟩ := disconnectTo_spec hs htip hft hturns hdis
    rw [hdis] at h
    cases r₁ with
    | error stop =>
      cases h
      exact hmoves
    | ok u =>
      have hpar : s₁.par = s.par := by
        unfold NodeState.par
        rw [hmap]
      have hfailed : ∀ a, s₁.failed a = s.failed a := fun a => by
        unfold NodeState.failed NodeState.entry
        rw [hmap]
      refine hmoves.trans (connectLoop_spec (hmoves.inv hs) (htip₁ rfl) ?_ ?_ ?_ ?_ ?_ h)
      · exact lt_of_lt_of_eq hm hmoves.narrowed.shape.size.symm
      · rw [hpar]
        exact hfm
      · exact (hmoves.narrowed.linked m).trans hlinked
      · intro a ha hnot
        rw [hpar] at ha hnot
        rw [hfailed]
        exact hmost.clean t htip a ha fun hat => hnot (hlast a ha hat)
      · intro block hb
        exact (hblock block hb).trans (hmoves.narrowed.shape.hash m).symm

section

variable {pblock : Option CBlock} {turns : Nat} (hs : IndexInv N s) {r : Check Unit} {s' : NodeState}
    (h : activateBestChain N pblock turns s = some (r, s'))

include hs h

/-- `ActivateBestChain` makes moves of the chain, and when it returns there is no candidate left or the
tip is the best of them. -/
theorem activateBestChain_spec : ChainMoves s s' ∧ (r = .ok () → s'.setBlockIndexCandidates = [] ∨
      ∃ t ∈ s.setBlockIndexCandidates, s'.tip = some t ∧ ∀ q ∈ s'.setBlockIndexCandidates, s'.worse t q = false) := by
  induction turns generalizing s with
  | zero => simp [activateBestChain] at h
  | succ turns ih =>
    unfold activateBestChain at h
    cases hfind : findMostWorkChain s with
    | mk found s₁ =>
      obtain ⟨hmoves, hnone, hsome⟩ := findMostWorkChain_spec hs hfind
      have hs₁ := hmoves.inv hs
      rw [hfind] at h
      cases found with
      | error stop =>
        cases h
        exact ⟨hmoves, fun hr => by simp at hr⟩
      | ok found =>
        cases found with
        | none =>
          cases h
          exact ⟨hmoves, fun _ => .inl (hnone rfl)⟩
        | some m =>
          have hmost := hsome m rfl
          simp only at h
          split_ifs at h with htip
          · cases h
            exact ⟨hmoves, fun _ => .inr ⟨m, hmoves.narrowed.candidates m hmost.candidate, htip, hmost.best⟩⟩
          · have hblock : BlockFits N s₁ (blockOf N s₁ pblock m) m := by
              intro block hb
              unfold blockOf at hb
              rw [Option.filter_eq_some_iff] at hb
              exact of_decide_eq_true hb.2
            cases hstep : activateBestChainStep N s₁ m (blockOf N s₁ pblock m) with
            | mk r₂ s₂ =>
              have hmoves₂ := activateBestChainStep_moves hs₁ hmost hblock hstep
              have hall : ChainMoves s s₂ := hmoves.trans hmoves₂
              rw [hstep] at h
              cases r₂ with
              | error stop =>
                cases h
                exact ⟨hall, fun hr => by simp at hr⟩
              | ok u =>
                simp only at h
                split_ifs at h with htip₂
                · cases h
                  refine ⟨hall.trans (flushStateToDisk_moves s₂ _), fun _ => .inr
                    ⟨m, hmoves.narrowed.candidates m hmost.candidate, htip₂, fun q hq => ?_⟩⟩
                  show s₂.worse m q = false
                  rw [hmoves₂.narrowed.worse]
                  exact hmost.best q (hmoves₂.narrowed.candidates q hq)
                · obtain ⟨hrest, hend⟩ := ih (hall.inv hs) h
                  refine ⟨hall.trans hrest, fun hr => ?_⟩
                  rcases hend hr with hempty | ⟨t, ht, htip', hbest⟩
                  · exact .inl hempty
                  · exact .inr ⟨t, hall.narrowed.candidates t ht, htip', hbest⟩

theorem activateBestChain_moves : ChainMoves s s' :=
  (activateBestChain_spec hs h).1

end

end

end Reddcoin
