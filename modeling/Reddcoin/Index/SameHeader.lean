import Reddcoin.Index.Init
import Reddcoin.Primitives.MerkleTree

/-!
# Blocks with the same header

The hash of a block commits to its header only.  Two bodies for one header that both pass `CheckBlock` have the same
transactions, and the signature is read nowhere but in `CheckBlock`, so that a node treats them alike from there on.
-/

namespace Reddcoin

variable {pblock pblock' : Option CBlock}

/-! ## Bodies that the node cannot tell apart -/

/-- The blocks differ in their signatures at most, and `CheckBlock` says the same of both. -/
structure Twin (N : Node) (block block' : CBlock) : Prop where
  header : block'.toCBlockHeader = block.toCBlockHeader
  vtx : block'.vtx = block.vtx
  check : ∀ nAdjustedTime fCheckPOW fCheckMerkleRoot fCheckSig,
    checkBlock N.P N.C nAdjustedTime block' fCheckPOW fCheckMerkleRoot fCheckSig =
      checkBlock N.P N.C nAdjustedTime block fCheckPOW fCheckMerkleRoot fCheckSig

section

variable {N : Node} {block block' : CBlock}

theorem Twin.refl (N : Node) (block : CBlock) : Twin N block block :=
  ⟨rfl, rfl, fun _ _ _ _ => rfl⟩

theorem Twin.isProofOfStake (h : Twin N block block') : block'.isProofOfStake = block.isProofOfStake := by
  simp only [CBlock.isProofOfStake, h.vtx]

theorem Twin.getHash (h : Twin N block block') : block'.getHash N.C = block.getHash N.C := by
  simp only [CBlock.getHash, h.header]

/-- The check that `ReadBlockFromDisk` makes. -/
theorem Twin.failsProofOfWork (h : Twin N block block') :
    (decide (CHECK_POW_FROM_NTIME < block'.getBlockTime) && block'.isProofOfWork &&
        !checkProofOfWork N.P (N.C.powHash block'.toCBlockHeader) block'.nBits) =
      (decide (CHECK_POW_FROM_NTIME < block.getBlockTime) && block.isProofOfWork &&
        !checkProofOfWork N.P (N.C.powHash block.toCBlockHeader) block.nBits) := by
  obtain ⟨header, vtx, -⟩ := h
  cases block
  cases block'
  cases header
  cases vtx
  rfl

theorem checkBlockTx_congr (hheader : block'.toCBlockHeader = block.toCBlockHeader) (hvtx : block'.vtx = block.vtx) :
    checkBlockTx block' = checkBlockTx block := by
  funext tx
  simp only [checkBlockTx, CBlock.isProofOfStake, hvtx, hheader]

/-- With the same header and transactions, the size and the signature decide. -/
theorem checkBlock_congr {P : CChainParams} {C : Crypto} (hheader : block'.toCBlockHeader = block.toCBlockHeader)
    (hvtx : block'.vtx = block.vtx) (hsize : block'.serializeSize ≤ MAX_BLOCK_SIZE ↔ block.serializeSize ≤ MAX_BLOCK_SIZE)
    (hsig : block.isProofOfStake → block'.checkBlockSignature C = block.checkBlockSignature C)
    (nAdjustedTime : Int) (fCheckPOW fCheckMerkleRoot fCheckSig : Bool) :
    checkBlock P C nAdjustedTime block' fCheckPOW fCheckMerkleRoot fCheckSig =
      checkBlock P C nAdjustedTime block fCheckPOW fCheckMerkleRoot fCheckSig := by
  have hstake : block'.isProofOfStake = block.isProofOfStake := by
    simp only [CBlock.isProofOfStake, hvtx]
  have htree : checkMerkleRoot C block' = checkMerkleRoot C block := by
    cases block
    cases block'
    cases hheader
    cases hvtx
    rfl
  have hcoinstake : onlyIf block.isProofOfStake (checkCoinStake C block' fCheckSig) =
      onlyIf block.isProofOfStake (checkCoinStake C block fCheckSig) := by
    cases hpos : block.isProofOfStake with
    | false => rfl
    | true => simp only [onlyIf, checkCoinStake, hvtx, hheader, hsig hpos]
  simp only [checkBlock, hheader, htree, hvtx, hsize, hstake, hcoinstake, checkBlockTx_congr hheader hvtx]

/-- Two blocks with one header and the same transactions that pass `CheckBlock` once are told apart by it never. -/
theorem Twin.of_checkBlock (hheader : block'.toCBlockHeader = block.toCBlockHeader) (hvtx : block'.vtx = block.vtx)
    {nAdjustedTime : Int} (hcheck : checkBlock N.P N.C nAdjustedTime block true true true = .ok ())
    (hcheck' : checkBlock N.P N.C nAdjustedTime block' true true true = .ok ()) : Twin N block block' := by
  have hsize : ∀ b : CBlock, checkBlock N.P N.C nAdjustedTime b true true true = .ok () →
      b.serializeSize ≤ MAX_BLOCK_SIZE := by
    intro b h
    simp only [checkBlock, check_seq_ok, onlyIf_eq_ok, require_eq_ok, Bool.and_eq_true, decide_eq_true_eq] at h
    exact h.2.2.1.2
  have hstake : block'.isProofOfStake = block.isProofOfStake := by
    simp only [CBlock.isProofOfStake, hvtx]
  refine ⟨hheader, hvtx, checkBlock_congr hheader hvtx (iff_of_true (hsize _ hcheck') (hsize _ hcheck)) fun hpos => ?_⟩
  rw [(checkBlock_ok hcheck).2.2 hpos rfl, (checkBlock_ok hcheck').2.2 (hstake.trans hpos) rfl]

/-- No two transactions and no two pairs of hashes of the trees have the same hash. -/
structure CollisionFree (C : Crypto) (txs : List CTransaction) : Prop where
  pairs : ∀ a b a' b', C.merkleHash a b = C.merkleHash a' b' → a = a' ∧ b = b'
  leaves : ∀ tx a b, C.merkleHash a b ≠ C.txHash tx
  txids : ∀ tx ∈ txs, ∀ tx' ∈ txs, C.txHash tx = C.txHash tx' → tx = tx'

theorem vtx_eq_of_txids {C : Crypto} {txs txs' : List CTransaction} (hinj : ∀ tx ∈ txs ++ txs', ∀ tx' ∈ txs ++ txs',
    C.txHash tx = C.txHash tx' → tx = tx') (h : txs.map C.txHash = txs'.map C.txHash) : txs = txs' := by
  refine List.ext_getElem (by simpa using congrArg List.length h) fun i hi hi' => ?_
  refine hinj _ (List.mem_append_left _ (List.getElem_mem hi)) _ (List.mem_append_right _ (List.getElem_mem hi')) ?_
  have hget := congrArg (fun l => l[i]?) h
  simpa [hi, hi'] using hget

/-- Two bodies for one header that pass `CheckBlock` have the same transactions. -/
theorem checkBlock_vtx_eq (hfree : CollisionFree N.C (block.vtx ++ block'.vtx))
    (hheader : block'.toCBlockHeader = block.toCBlockHeader) {nAdjustedTime : Int}
    (hcheck : checkBlock N.P N.C nAdjustedTime block true true true = .ok ())
    (hcheck' : checkBlock N.P N.C nAdjustedTime block' true true true = .ok ()) : block'.vtx = block.vtx := by
  have hparts : ∀ b : CBlock, checkBlock N.P N.C nAdjustedTime b true true true = .ok () →
      b.vtx.map N.C.txHash ≠ [] ∧ merkleRoot N.C.merkleHash (b.vtx.map N.C.txHash) = b.hashMerkleRoot ∧
        Merkle.mutated N.C.merkleHash (b.vtx.map N.C.txHash) = false := by
    intro b h
    obtain ⟨cb, rest, hvtx, -⟩ := (checkBlock_ok h).1.coinbase
    simp only [checkBlock, checkMerkleRoot, CBlock.buildMerkleTree_eq, check_seq_ok, onlyIf_eq_ok, require_eq_ok,
      decide_eq_true_eq, Bool.not_eq_true'] at h
    obtain ⟨hroot, hmutated⟩ := h.2.1 trivial
    exact ⟨by simp [hvtx], hroot.symm, hmutated⟩
  obtain ⟨hne, hroot, hmutated⟩ := hparts block hcheck
  obtain ⟨hne', hroot', hmutated'⟩ := hparts block' hcheck'
  have hleaves : ∀ b : CBlock, ∀ x ∈ b.vtx.map N.C.txHash, ∀ a c, N.C.merkleHash a c ≠ x := by
    intro b x hx
    obtain ⟨tx, -, rfl⟩ := List.mem_map.mp hx
    exact hfree.leaves tx
  have hroots : Merkle.root N.C.merkleHash (block.vtx.map N.C.txHash) =
      Merkle.root N.C.merkleHash (block'.vtx.map N.C.txHash) :=
    merkleRoot_inj hne hne' (by rw [hroot, hroot', hheader])
  refine (vtx_eq_of_txids hfree.txids ?_).symm
  by_contra hdiff
  rcases Merkle.mutated_of_root_eq N.C.merkleHash hfree.pairs hne (hleaves block) (hleaves block') hroots hdiff with
    ⟨-, h⟩ | ⟨-, h⟩
  · rw [hmutated'] at h
    cases h
  · rw [hmutated] at h
    cases h

theorem Twin.connectBlock (h : Twin N block block') (ctx : ConnectContext) (view : CoinsView) (fJustCheck : Bool) :
    connectBlock N.P N.C ctx block' view fJustCheck = Reddcoin.connectBlock N.P N.C ctx block view fJustCheck := by
  have hbip : checkBIP30 N.P N.C ctx view block' = checkBIP30 N.P N.C ctx view block := by
    simp only [checkBIP30, h.vtx]
  have hflags : scriptFlags N.P ctx block' = scriptFlags N.P ctx block := by
    simp only [scriptFlags, h.header]
  have hreward : checkReward N.P ctx block' = checkReward N.P ctx block := by
    obtain ⟨header, vtx, -⟩ := h
    cases block
    cases block'
    cases header
    cases vtx
    rfl
  simp only [Reddcoin.connectBlock, h.check, h.getHash, hbip, hflags, hreward, h.vtx]

theorem Twin.disconnectBlock (h : Twin N block block') (ctx : ConnectContext) (written : CBlockUndo)
    (view : CoinsView) :
    disconnectBlock N.C ctx block' written view = Reddcoin.disconnectBlock N.C ctx block written view := by
  simp only [Reddcoin.disconnectBlock, undoneTxs, h.isProofOfStake, h.vtx]

end

/-! ## States that differ in the stored bodies -/

def NodeState.withFile (s : NodeState) (blockFile : Ptr → Option CBlock) : NodeState :=
  { s with blockFile := blockFile }

/-- The states differ at most in the signatures of the blocks on disk. -/
structure SameButFile (N : Node) (s s' : NodeState) : Prop where
  same : s' = s.withFile s'.blockFile
  file : ∀ p, Option.Rel (Twin N) (s.blockFile p) (s'.blockFile p)

/-- The calls return the same and leave such states behind. -/
structure SameCall {α : Type} (N : Node) (x x' : Call α) : Prop where
  result : x'.1 = x.1
  state : SameButFile N x.2 x'.2

section

variable {N : Node} {s s' : NodeState} {block block' : CBlock} {p : Ptr}

theorem SameButFile.refl (N : Node) (s : NodeState) : SameButFile N s s := by
  refine ⟨rfl, fun p => ?_⟩
  cases s.blockFile p with
  | none => exact .none
  | some block => exact .some (Twin.refl N block)

/-- A step that neither reads nor changes the block files. -/
theorem SameButFile.map (h : SameButFile N s s') (f : NodeState → NodeState)
    (hwith : ∀ s file, f (s.withFile file) = (f s).withFile file) (hfile : ∀ s, (f s).blockFile = s.blockFile) :
    SameButFile N (f s) (f s') := by
  obtain ⟨hsame, hrel⟩ := h
  refine ⟨?_, fun p => ?_⟩
  · rw [hfile, ← hwith, ← hsame]
  · rw [hfile, hfile]
    exact hrel p

/-- What does not depend on the block files is the same. -/
theorem SameButFile.reads {α : Type} (h : SameButFile N s s') (f : NodeState → α)
    (hf : ∀ s file, f (s.withFile file) = f s) : f s' = f s := by
  rw [h.same, hf]

theorem SameCall.ofState {α : Type} (h : SameButFile N s s') (r : Check α) : SameCall N (r, s) (r, s') :=
  ⟨rfl, h⟩

theorem SameCall.andThen {α β : Type} {x x' : Call α} {f f' : α → NodeState → Call β} (h : SameCall N x x')
    (hf : ∀ a s s', SameButFile N s s' → SameCall N (f a s) (f' a s')) :
    SameCall N (x.andThen f) (x'.andThen f') := by
  obtain ⟨r, s⟩ := x
  obtain ⟨r', s'⟩ := x'
  obtain ⟨hresult, hstate⟩ := h
  obtain rfl : r' = r := hresult
  cases r' with
  | error stop => exact .ofState hstate _
  | ok a => exact hf a s s' hstate

theorem SameButFile.readBlockFromDisk (h : SameButFile N s s') (p : Ptr) :
    Option.Rel (Twin N) (readBlockFromDisk N s p) (readBlockFromDisk N s' p) := by
  have henv : N.env s' = N.env s := h.reads N.env fun _ _ => rfl
  have hentry : s'.entry p = s.entry p := h.reads (fun s => s.entry p) fun _ _ => rfl
  have hp := h.file p
  unfold Reddcoin.readBlockFromDisk
  revert hp
  rcases s.blockFile p with _ | block <;> rcases s'.blockFile p with _ | block' <;> intro hp
  · exact .none
  · cases hp
  · cases hp
  · cases hp with
    | some htwin =>
      simp only [henv, hentry, htwin.getHash, htwin.failsProofOfWork]
      split_ifs
      · exact .none
      · exact .none
      · exact .some htwin
      · exact .none

/-! ## Connecting and disconnecting -/

theorem SameButFile.connectTipBlock (h : SameButFile N s s') (htwin : Twin N block block') (p : Ptr) :
    SameCall N (connectTipBlock N s p block) (connectTipBlock N s' p block') := by
  have hctx : connectContext N s' p = connectContext N s p := h.reads (fun s => connectContext N s p) fun _ _ => rfl
  have hcoins : s'.pcoinsTip = s.pcoinsTip := h.reads NodeState.pcoinsTip fun _ _ => rfl
  unfold Reddcoin.connectTipBlock
  rw [hctx, hcoins, htwin.connectBlock]
  cases connectBlock N.P N.C (connectContext N s p) block s.pcoinsTip false with
  | error stop =>
    cases stop with
    | crashes => exact .ofState h _
    | returns st =>
      refine .ofState ?_ _
      split_ifs
      · refine h.map (fun s => s.invalidBlockFound p st) (fun s file => ?_) fun s => ?_
        · unfold NodeState.invalidBlockFound
          split_ifs <;> rfl
        · unfold NodeState.invalidBlockFound
          split_ifs <;> rfl
      · exact h
  | ok r =>
    refine SameCall.andThen ?_ fun _ s s' h => ?_
    · have henv : N.env s' = N.env s := h.reads N.env fun _ _ => rfl
      have hentry : s'.entry p = s.entry p := h.reads (fun s => s.entry p) fun _ _ => rfl
      unfold recordConnected
      simp only [htwin.getHash, henv, hentry]
      generalize (N.env s).findUndoPos = u
      split_ifs
      · exact .ofState h _
      · exact .ofState (h.map (fun s => (s.noteQuiet .reconnected p (mintedEntry r)).modify p (mintedEntry r))
          (fun _ _ => rfl) fun _ => rfl) _
      · exact .ofState (h.map (fun s => s.recorded p u r) (fun _ _ => rfl) fun _ => rfl) _
      · exact .ofState (h.map (fun s => s.recorded p u r) (fun _ _ => rfl) fun _ => rfl) _
    · refine .ofState (h.map (fun s => ((({ s with pcoinsTip := r.view.flush } : NodeState).flushStateToDisk
        (N.env s).needsFlush).updateTip (some p)).tick) (fun _ _ => rfl) fun _ => rfl) _

theorem SameButFile.connectTip (h : SameButFile N s s') (htwin : Option.Rel (Twin N) pblock pblock') (p : Ptr) :
    SameCall N (connectTip N s p pblock) (connectTip N s' p pblock') := by
  have hpar : s'.par p = s.par p := h.reads (fun s => s.par p) fun _ _ => rfl
  have htip : s'.tip = s.tip := h.reads NodeState.tip fun _ _ => rfl
  unfold Reddcoin.connectTip
  rw [hpar, htip]
  split_ifs
  · exact .ofState h _
  · cases htwin with
    | some htwin => exact h.connectTipBlock htwin p
    | none =>
      have hread := h.readBlockFromDisk p
      revert hread
      rcases Reddcoin.readBlockFromDisk N s p with _ | block <;>
        rcases Reddcoin.readBlockFromDisk N s' p with _ | block' <;> intro hread
      · exact .ofState h _
      · cases hread
      · cases hread
      · cases hread with
        | some htwin => exact h.connectTipBlock htwin p

theorem SameButFile.disconnectTip (h : SameButFile N s s') : SameCall N (disconnectTip N s) (disconnectTip N s') := by
  have htip : s'.tip = s.tip := h.reads NodeState.tip fun _ _ => rfl
  unfold Reddcoin.disconnectTip
  rw [htip]
  cases s.tip with
  | none => exact .ofState h _
  | some p =>
    have hundo : s'.undoData p = s.undoData p := h.reads (fun s => s.undoData p) fun _ _ => rfl
    have hctx : connectContext N s' p = connectContext N s p := h.reads (fun s => connectContext N s p) fun _ _ => rfl
    have hcoins : s'.pcoinsTip = s.pcoinsTip := h.reads NodeState.pcoinsTip fun _ _ => rfl
    have hread := h.readBlockFromDisk p
    revert hread
    simp only [hundo]
    rcases Reddcoin.readBlockFromDisk N s p with _ | block <;>
      rcases Reddcoin.readBlockFromDisk N s' p with _ | block' <;> intro hread
    · exact .ofState h _
    · cases hread
    · cases hread
    · cases hread with
      | some htwin =>
        cases s.undoData p with
        | none => exact .ofState h _
        | some blockUndo =>
          show SameCall N (disconnectTipBlock N s p block blockUndo) (disconnectTipBlock N s' p block' blockUndo)
          unfold disconnectTipBlock
          rw [hctx, hcoins, htwin.disconnectBlock]
          cases disconnectBlock N.C (connectContext N s p) block blockUndo s.pcoinsTip with
          | error stop => exact .ofState h _
          | ok result =>
            cases hclean : result.2 with
            | false =>
              simp only [hclean, Bool.not_false, if_true]
              exact .ofState h _
            | true =>
              simp only [hclean, Bool.not_true, Bool.false_eq_true, if_false]
              exact .ofState (h.map (fun s => ((({ s with pcoinsTip := result.1.flush } :
                NodeState).flushStateToDisk (N.env s).needsFlush).updateTip (s.par p)).tick)
                (fun _ _ => rfl) fun _ => rfl) _

/-! ## The best candidate -/

theorem findFailed_withFile (s : NodeState) (file : Ptr → Option CBlock) (turns : Nat) (p : Option Ptr) :
    findFailed (s.withFile file) turns p = findFailed s turns p := by
  induction turns generalizing p with
  | zero => rfl
  | succ turns ih =>
    cases p with
    | none => rfl
    | some p =>
      unfold findFailed
      rw [show (s.withFile file).par p = s.par p from rfl, ih]
      rfl

theorem SameButFile.failBranch (h : SameButFile N s s') (pindexTest : Ptr) (turns : Nat) (p : Option Ptr) :
    SameButFile N (failBranch pindexTest turns s p) (failBranch pindexTest turns s' p) := by
  induction turns generalizing s s' p with
  | zero => exact h
  | succ turns ih =>
    cases p with
    | none => exact h
    | some p =>
      unfold Reddcoin.failBranch
      split_ifs
      · exact h.map (fun s => s.eraseCandidate pindexTest) (fun _ _ => rfl) fun _ => rfl
      · rw [h.reads (fun s => s.par p) fun _ _ => rfl]
        refine ih (h.map (fun s => ((s.noteQuiet .findMostWorkChain p CBlockIndex.failChild).failChild
          p).eraseCandidate p) (fun _ _ => rfl) fun _ => rfl) _

theorem SameButFile.findMostWorkLoop (h : SameButFile N s s') (turns : Nat) :
    SameCall N (findMostWorkLoop turns s) (findMostWorkLoop turns s') := by
  induction turns generalizing s s' with
  | zero => exact .ofState h _
  | succ turns ih =>
    have hbest : bestCandidate s'.addresses s'.mapBlockIndex s'.setBlockIndexCandidates =
        bestCandidate s.addresses s.mapBlockIndex s.setBlockIndexCandidates :=
      h.reads (fun s => bestCandidate s.addresses s.mapBlockIndex s.setBlockIndexCandidates) fun _ _ => rfl
    have hht : s'.ht = s.ht := h.reads NodeState.ht fun _ _ => rfl
    have hfailed : ∀ n p, findFailed s' n p = findFailed s n p :=
      fun n p => h.reads (fun s => findFailed s n p) fun s file => findFailed_withFile s file n p
    unfold Reddcoin.findMostWorkLoop
    simp only [hbest, hht, hfailed]
    cases bestCandidate s.addresses s.mapBlockIndex s.setBlockIndexCandidates with
    | none => exact .ofState h _
    | some m =>
      cases hfound : findFailed s (s.ht m + 1) (some m) with
      | error stop =>
        simp only [hfound]
        exact .ofState h _
      | ok found =>
        cases found with
        | none =>
          simp only [hfound]
          exact .ofState h _
        | some pindexTest =>
          simp only [hfound]
          exact ih ((h.map (fun s => s.invalidChainFound m) (fun _ _ => rfl) fun _ => rfl).failBranch
            pindexTest _ _)

theorem SameButFile.findMostWorkChain (h : SameButFile N s s') :
    SameCall N (findMostWorkChain s) (findMostWorkChain s') := by
  have hlength : s'.setBlockIndexCandidates = s.setBlockIndexCandidates :=
    h.reads NodeState.setBlockIndexCandidates fun _ _ => rfl
  unfold Reddcoin.findMostWorkChain
  rw [hlength]
  exact h.findMostWorkLoop _

theorem SameButFile.pruneBlockIndexCandidates (h : SameButFile N s s') :
    SameCall N (pruneBlockIndexCandidates s) (pruneBlockIndexCandidates s') := by
  have htip : s'.tip = s.tip := h.reads NodeState.tip fun _ _ => rfl
  unfold Reddcoin.pruneBlockIndexCandidates
  rw [htip]
  cases s.tip with
  | none => exact .ofState h _
  | some t =>
    have hdropped : SameButFile N (s.dropWorse t) (s'.dropWorse t) :=
      h.map (fun s => s.dropWorse t) (fun _ _ => rfl) fun _ => rfl
    have hempty : (s'.dropWorse t).setBlockIndexCandidates = (s.dropWorse t).setBlockIndexCandidates :=
      hdropped.reads NodeState.setBlockIndexCandidates fun _ _ => rfl
    simp only [hempty]
    split_ifs
    · exact .ofState hdropped _
    · exact .ofState hdropped _

/-! ## Activating it -/

theorem SameButFile.disconnectTo (h : SameButFile N s s') (pindexFork : Option Ptr) (turns : Nat) :
    SameCall N (disconnectTo N pindexFork turns s) (disconnectTo N pindexFork turns s') := by
  induction turns generalizing s s' with
  | zero => exact .ofState h _
  | succ turns ih =>
    have htip : s'.tip = s.tip := h.reads NodeState.tip fun _ _ => rfl
    unfold Reddcoin.disconnectTo
    rw [htip]
    split_ifs
    · exact .ofState h _
    · exact h.disconnectTip.andThen fun _ _ _ h => ih h

theorem SameButFile.connectBatch (h : SameButFile N s s') (m : Ptr) (htwin : Option.Rel (Twin N) pblock pblock')
    (old : Option Ptr) (back : Ptr) (batch : List Ptr) :
    SameCall N (connectBatch N m pblock old back batch s) (connectBatch N m pblock' old back batch s') := by
  induction batch generalizing s s' with
  | nil => exact .ofState h _
  | cons p rest ih =>
    have hgiven : Option.Rel (Twin N) (if p = m then pblock else none) (if p = m then pblock' else none) := by
      split_ifs
      · exact htwin
      · exact .none
    have hconnect := h.connectTip hgiven p
    unfold Reddcoin.connectBatch
    revert hconnect
    rcases Reddcoin.connectTip N s p (if p = m then pblock else none) with ⟨r, s₁⟩
    rcases Reddcoin.connectTip N s' p (if p = m then pblock' else none) with ⟨r', s₁'⟩
    intro hconnect
    obtain ⟨hresult, hstate⟩ := hconnect
    obtain rfl : r' = r := hresult
    rcases r' with (st | _) | _
    · simp only
      split_ifs
      · exact .ofState hstate _
      · exact .ofState (hstate.map (fun s => s.invalidChainFound back) (fun _ _ => rfl) fun _ => rfl) _
      · exact .ofState hstate _
    · exact .ofState hstate _
    · refine hstate.pruneBlockIndexCandidates.andThen fun _ s s' h => ?_
      have himproved : improved s' old = improved s old := h.reads (fun s => improved s old) fun _ _ => rfl
      rw [himproved]
      split_ifs
      · exact .ofState h _
      · exact ih h

theorem toConnect_withFile (s : NodeState) (file : Ptr → Option CBlock) (nHeight : Int) (turns : Nat)
    (p : Option Ptr) : toConnect (s.withFile file) nHeight turns p = toConnect s nHeight turns p := by
  induction turns generalizing p with
  | zero => rfl
  | succ turns ih =>
    cases p with
    | none => rfl
    | some p =>
      unfold toConnect
      rw [show (s.withFile file).par p = s.par p from rfl, ih]
      rfl

theorem SameButFile.connectLoop (h : SameButFile N s s') (m : Ptr) (htwin : Option.Rel (Twin N) pblock pblock')
    (old : Option Ptr) (turns : Nat) (nHeight : Int) :
    SameCall N (connectLoop N m pblock old turns s nHeight) (connectLoop N m pblock' old turns s' nHeight) := by
  induction turns generalizing s s' nHeight with
  | zero => exact .ofState h _
  | succ turns ih =>
    have hht : s'.ht m = s.ht m := h.reads (fun s => s.ht m) fun _ _ => rfl
    have hbatch : ∀ low high, nextBatch s' m low high = nextBatch s m low high :=
      fun low high => h.reads (fun s => nextBatch s m low high) fun s file =>
        congrArg List.reverse (toConnect_withFile s file low _ _)
    unfold Reddcoin.connectLoop
    simp only [hht, hbatch]
    split_ifs
    · exact .ofState h _
    · refine (h.connectBatch m htwin old _ _).andThen fun fContinue s s' h => ?_
      split_ifs
      · exact ih h _
      · exact .ofState h _

theorem SameButFile.activateBestChainStep (h : SameButFile N s s') (m : Ptr)
    (htwin : Option.Rel (Twin N) pblock pblock') :
    SameCall N (activateBestChainStep N s m pblock) (activateBestChainStep N s' m pblock') := by
  have htip : s'.tip = s.tip := h.reads NodeState.tip fun _ _ => rfl
  have hchain : s'.chainActive = s.chainActive := h.reads NodeState.chainActive fun _ _ => rfl
  have hmap : s'.mapBlockIndex = s.mapBlockIndex := h.reads NodeState.mapBlockIndex fun _ _ => rfl
  unfold Reddcoin.activateBestChainStep
  rw [htip, hchain, hmap]
  refine (h.disconnectTo _ _).andThen fun _ s s' h => ?_
  have hht : s'.ht = s.ht := h.reads NodeState.ht fun _ _ => rfl
  rw [hht]
  exact h.connectLoop m htwin _ _ _

theorem SameButFile.blockOf (h : SameButFile N s s') (m : Ptr) (htwin : Twin N block block') :
    Option.Rel (Twin N) (blockOf N s (some block) m) (blockOf N s' (some block') m) := by
  have hentry : s'.entry m = s.entry m := h.reads (fun s => s.entry m) fun _ _ => rfl
  unfold Reddcoin.blockOf
  rw [hentry]
  simp only [Option.filter, htwin.getHash]
  split_ifs
  · exact .some htwin
  · exact .none

/-- `ActivateBestChain` with either body: when both calls return, they return the same. -/
theorem SameButFile.activateBestChain (h : SameButFile N s s') (htwin : Twin N block block') {turns turns' : Nat}
    {x x' : Call Unit} (hx : activateBestChain N (some block) turns s = some x)
    (hx' : activateBestChain N (some block') turns' s' = some x') : SameCall N x x' := by
  induction turns generalizing s s' turns' with
  | zero => cases hx
  | succ turns ih =>
    cases turns' with
    | zero => cases hx'
    | succ turns' =>
      have hfind := h.findMostWorkChain
      unfold Reddcoin.activateBestChain at hx hx'
      revert hfind hx hx'
      rcases Reddcoin.findMostWorkChain s with ⟨r, s₁⟩
      rcases Reddcoin.findMostWorkChain s' with ⟨r', s₁'⟩
      intro hfind hx hx'
      obtain ⟨hresult, hstate⟩ := hfind
      obtain rfl : r' = r := hresult
      have hstate : SameButFile N s₁ s₁' := hstate
      have htip : s₁'.tip = s₁.tip := hstate.reads NodeState.tip fun _ _ => rfl
      rcases r' with stop | _ | m
      · cases hx
        cases hx'
        exact .ofState hstate _
      · cases hx
        cases hx'
        exact .ofState hstate _
      · simp only [htip] at hx hx'
        by_cases hdone : s₁.tip = some m
        · rw [if_pos hdone] at hx hx'
          cases hx
          cases hx'
          exact .ofState hstate _
        · rw [if_neg hdone] at hx hx'
          have hstep := hstate.activateBestChainStep m (hstate.blockOf m htwin)
          revert hstep hx hx'
          rcases Reddcoin.activateBestChainStep N s₁ m (Reddcoin.blockOf N s₁ (some block) m) with ⟨r, s₂⟩
          rcases Reddcoin.activateBestChainStep N s₁' m (Reddcoin.blockOf N s₁' (some block') m) with ⟨r', s₂'⟩
          intro hx hx' hstep
          obtain ⟨hresult, hstate⟩ := hstep
          obtain rfl : r' = r := hresult
          have hstate : SameButFile N s₂ s₂' := hstate
          have htip : s₂'.tip = s₂.tip := hstate.reads NodeState.tip fun _ _ => rfl
          cases r' with
          | error stop =>
            cases hx
            cases hx'
            exact .ofState hstate _
          | ok u =>
            simp only [htip] at hx hx'
            by_cases hdone : s₂.tip = some m
            · rw [if_pos hdone] at hx hx'
              cases hx
              cases hx'
              exact .ofState (hstate.map (fun s => s.flushStateToDisk (N.env s).needsFlush) (fun _ _ => rfl)
                fun _ => rfl) _
            · rw [if_neg hdone] at hx hx'
              exact ih hstate hx hx'

end

end Reddcoin
