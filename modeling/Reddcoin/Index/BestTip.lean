import Mathlib.Order.Lattice.Nat
import Reddcoin.Index.SoundRun

/-!
# The best chain is activated

In a sound run `ActivateBestChain` comes to an end, no assertion of it fails, and then the tip is the best of
all entries that could be active, as long as blocks are disconnected without an error and a block that cannot
be connected is invalid and was not connected before.
-/

namespace Reddcoin

open Forest (Anc)

/-! ## The calls that move the tip -/

/-- A call of `ConnectTip` or `DisconnectTip`, and the state in which it is made. -/
inductive TipCall where
  | connect (s : NodeState) (p : Ptr) (pblock : Option CBlock)
  | disconnect (s : NodeState)

/-- A failure reports an invalid block, and no possible corruption. -/
def onlyInvalid : Check Unit → Bool
  | .ok () => true
  | .error (.returns st) => st.isInvalid && !st.corruptionPossible
  | .error .crashes => false

/-- `ConnectTip` fails only for an invalid block, and `DisconnectTip` does not fail. -/
def TipCall.benign (N : Node) : TipCall → Bool
  | connect s p pblock => onlyInvalid (connectTip N s p pblock).1
  | disconnect s => (disconnectTip N s).1.isOk

/-- A block that `ConnectTip` fails to connect was not connected before. -/
def TipCall.firstVerdict (N : Node) : TipCall → Bool
  | connect s p pblock =>
    (connectTip N s p pblock).1.isOk || decide ((s.entry p).nStatus.valid < BLOCK_VALID_SCRIPTS)
  | disconnect _ => true

section

variable (N : Node)

/-- The calls of `disconnectTo`. -/
def disconnectCalls (pindexFork : Option Ptr) : Nat → NodeState → List TipCall
  | turns + 1, s =>
    if s.tip = none ∨ s.tip = pindexFork then []
    else
      .disconnect s :: match disconnectTip N s with
        | (.ok (), s) => disconnectCalls pindexFork turns s
        | (.error _, _) => []
  | 0, _ => []

/-- The calls of `connectBatch`. -/
def batchCalls (pindexMostWork : Ptr) (pblock : Option CBlock) (pindexOldTip : Option Ptr) :
    List Ptr → NodeState → List TipCall
  | [], _ => []
  | pindexConnect :: rest, s =>
    .connect s pindexConnect (if pindexConnect = pindexMostWork then pblock else none) ::
      match connectTip N s pindexConnect (if pindexConnect = pindexMostWork then pblock else none) with
      | (.ok (), s) =>
        match pruneBlockIndexCandidates s with
        | (.ok (), s) =>
          if improved s pindexOldTip then []
          else batchCalls pindexMostWork pblock pindexOldTip rest s
        | (.error _, _) => []
      | (.error _, _) => []

/-- The calls of `connectLoop`. -/
def loopCalls (pindexMostWork : Ptr) (pblock : Option CBlock) (pindexOldTip : Option Ptr) :
    Nat → NodeState → Int → List TipCall
  | turns + 1, s, nHeight =>
    if nHeight = s.ht pindexMostWork then []
    else
      let nTargetHeight := min (nHeight + 32) (s.ht pindexMostWork)
      let batch := nextBatch s pindexMostWork nHeight nTargetHeight
      batchCalls N pindexMostWork pblock pindexOldTip batch s ++
        match connectBatch N pindexMostWork pblock pindexOldTip (batch.headD 0) batch s with
        | (.ok true, s) => loopCalls pindexMostWork pblock pindexOldTip turns s nTargetHeight
        | _ => []
  | 0, _, _ => []

/-- The calls of `ActivateBestChainStep`. -/
def stepCalls (s : NodeState) (pindexMostWork : Ptr) (pblock : Option CBlock) : List TipCall :=
  let pindexOldTip := s.tip
  let pindexFork := s.chainActive.findFork s.mapBlockIndex pindexMostWork
  disconnectCalls N pindexFork s.chainActive.length s ++ match disconnectTo N pindexFork s.chainActive.length s with
    | (.ok (), s) =>
      loopCalls N pindexMostWork pblock pindexOldTip (s.ht pindexMostWork + 2) s
        (match pindexFork with
          | some fork => (s.ht fork : Int)
          | none => -1)
    | (.error _, _) => []

/-- The calls of `ActivateBestChain` in `turns` turns of its loop. -/
def activateCalls (pblock : Option CBlock) : Nat → NodeState → List TipCall
  | 0, _ => []
  | turns + 1, s =>
    match findMostWorkChain s with
    | (.ok (some pindexMostWork), s) =>
      if s.tip = some pindexMostWork then []
      else
        stepCalls N s pindexMostWork (blockOf N s pblock pindexMostWork) ++
          match activateBestChainStep N s pindexMostWork (blockOf N s pblock pindexMostWork) with
          | (.ok (), s) => if s.tip = some pindexMostWork then [] else activateCalls pblock turns s
          | (.error _, _) => []
    | _ => []

end

/-! ## The best tip -/

/-- The entry is fully linked, and neither it nor an ancestor is marked failed. -/
structure NodeState.Eligible (s : NodeState) (p : Ptr) : Prop where
  size : p < s.size
  linked : s.linked p = true
  not_failed : ∀ a, Anc s.par a p → s.failed a = false

/-- The tip is the best of the entries that could be active. -/
def NodeState.TipIsBest (s : NodeState) : Prop :=
  ∃ t, s.tip = some t ∧ s.Eligible t ∧ ∀ p, s.Eligible p → s.worse t p = false

/-- The index is covered, and no verdict has been reversed. -/
structure Settled (N : Node) (s : NodeState) : Prop where
  inv : IndexInv N s
  ready : Ready s
  verdicts : s.reversedVerdicts = []

section

variable {N : Node} {s s' : NodeState} {p q t m : Ptr} {pblock : Option CBlock}

theorem SoundRun.verdicts (h : SoundRun N s) : s.reversedVerdicts = [] := by
  cases h with
  | init isGenesis run active => exact (initBlockIndex_fresh isGenesis run active).starting.reversedVerdicts
  | reindex isGenesis run active => exact (processNewBlock_fresh isGenesis run active).starting.reversedVerdicts
  | step op before sound step verdicts => exact verdicts

theorem SoundRun.settled (h : SoundRun N s) : Settled N s :=
  ⟨h.reachable.inv, h.ready, h.verdicts⟩

theorem Settled.moves (h : Settled N s) (moves : ChainMoves s s') (hverdicts : s'.reversedVerdicts = []) :
    Settled N s' :=
  ⟨moves.inv h.inv, moves.ready h.inv h.ready hverdicts, hverdicts⟩

/-- A tip that no candidate is better than is better than everything else. -/
theorem Settled.tipIsBest (h : Settled N s) (htip : s.tip = some m)
    (hbest : ∀ q ∈ s.setBlockIndexCandidates, s.worse m q = false) : s.TipIsBest := by
  obtain ⟨hsize, -, hlinked, -⟩ := h.inv.tip_eq htip
  refine ⟨m, htip, ⟨hsize, hlinked, fun a ha => (h.ready.tip m htip a ha).1⟩, fun p hp => ?_⟩
  obtain ⟨w, hw, -, hcovers⟩ := h.ready.keep
  by_cases hmem : p ∈ s.setBlockIndexCandidates
  · exact hbest p hmem
  · have hpw := hcovers p hp.size hp.linked (hp.not_failed p (.refl p)) hmem
    cases hmp : s.worse m p with
    | false => rfl
    | true =>
      have hmw : s.worse m w = true := worse_trans hmp hpw
      cases (hbest w hw).symm.trans hmw

/-! ## The best candidate is found -/

/-- On the way down from a linked entry every assertion holds. -/
theorem findFailed_isOk (turns : Nat) (hs : IndexInv N s) (hp : p < s.size) (hlinked : s.linked p) :
    ∃ found, findFailed s turns (some p) = .ok found := by
  induction turns generalizing p with
  | zero => exact ⟨none, rfl⟩
  | succ turns ih =>
    have hdata : (s.entry p).nStatus.haveData = true := hs.flow.linked_data p hp hlinked
    have hlink : (s.entry p).linked = true := hlinked
    unfold findFailed
    rw [hdata, hlink]
    split_ifs with hcontains hno hnot hfailed
    · exact ⟨none, rfl⟩
    · simp at hno
    · simp at hnot
    · exact ⟨some p, rfl⟩
    · cases hpar : s.par p with
      | none => exact ⟨none, by cases turns <;> rfl⟩
      | some q => exact ih (hs.shape.tree.graded.closed hp hpar) (hs.flow.linked_parent p hp hlinked q hpar)

theorem failBranch_same {x : Ptr} (turns : Nat) (s : NodeState) (p? : Option Ptr) :
    (failBranch x turns s p?).reversedVerdicts = s.reversedVerdicts ∧ (failBranch x turns s p?).tip = s.tip := by
  induction turns generalizing s p? with
  | zero => exact ⟨rfl, rfl⟩
  | succ turns ih =>
    cases p? with
    | none => exact ⟨rfl, rfl⟩
    | some p =>
      unfold failBranch
      split_ifs
      · exact ⟨rfl, rfl⟩
      · exact ih _ _

theorem findMostWorkLoop_same (turns : Nat) (s : NodeState) :
    (findMostWorkLoop turns s).2.reversedVerdicts = s.reversedVerdicts ∧ (findMostWorkLoop turns s).2.tip = s.tip := by
  induction turns generalizing s with
  | zero => exact ⟨rfl, rfl⟩
  | succ turns ih =>
    unfold findMostWorkLoop
    split
    · exact ⟨rfl, rfl⟩
    · split
      · exact ⟨rfl, rfl⟩
      · exact ⟨rfl, rfl⟩
      · next pindexNew _ _ pindexTest _ =>
          obtain ⟨hverdicts, htip⟩ := ih (failBranch pindexTest (s.ht pindexNew + 1)
            (s.invalidChainFound pindexNew) (some pindexNew))
          obtain ⟨hverdicts', htip'⟩ := failBranch_same (x := pindexTest) (s.ht pindexNew + 1)
            (s.invalidChainFound pindexNew) (some pindexNew)
          exact ⟨hverdicts.trans hverdicts', htip.trans htip'⟩

theorem findMostWorkLoop_isOk (turns : Nat) (hs : IndexInv N s) :
    ∃ found, (findMostWorkLoop turns s).1 = .ok found := by
  induction turns generalizing s with
  | zero => exact ⟨none, rfl⟩
  | succ turns ih =>
    unfold findMostWorkLoop
    cases hbest : bestCandidate s.addresses s.mapBlockIndex s.setBlockIndexCandidates with
    | none => exact ⟨none, rfl⟩
    | some p =>
      obtain ⟨hmem, -⟩ := bestCandidate_eq_some hbest
      obtain ⟨hp, hlinked⟩ := hs.flow.candidates p hmem
      obtain ⟨found, hfound⟩ := findFailed_isOk (s.ht p + 1) hs hp hlinked
      simp only [hfound]
      cases found with
      | none => exact ⟨some p, rfl⟩
      | some x =>
        obtain ⟨hanc, hx⟩ := findFailed_some hfound
        have hnote := invalidChainFound_move s p
        have hmoves : ChainMoves s (failBranch x (s.ht p + 1) (s.invalidChainFound p) (some p)) :=
          hnote.single.trans (failBranch_moves (hnote.inv hs) hp hlinked hanc hx)
        exact ih (hmoves.inv hs)

/-- `FindMostWorkChain` finds a candidate, and none of its assertions fails. -/
theorem Settled.findMostWorkChain (h : Settled N s) : ∃ m s', findMostWorkChain s = (.ok (some m), s') ∧
    ChainMoves s s' ∧ Settled N s' ∧ MostWork s' m ∧ s'.tip = s.tip := by
  obtain ⟨found, hfound⟩ := findMostWorkLoop_isOk (s.setBlockIndexCandidates.length + 1) h.inv
  obtain ⟨hverdicts, htip⟩ := findMostWorkLoop_same (s.setBlockIndexCandidates.length + 1) s
  cases hrun : Reddcoin.findMostWorkChain s with
  | mk r s' =>
    have hloop : findMostWorkLoop (s.setBlockIndexCandidates.length + 1) s = (r, s') := hrun
    rw [hloop] at hfound hverdicts htip
    obtain rfl : r = .ok found := hfound
    obtain ⟨hmoves, hnone, hsome⟩ := findMostWorkChain_spec h.inv hrun
    have hsettled := h.moves hmoves (hverdicts.trans h.verdicts)
    cases found with
    | none =>
      obtain ⟨w, hw, -⟩ := hsettled.ready.keep
      rw [hnone rfl] at hw
      simp at hw
    | some m => exact ⟨m, s', rfl, hmoves, hsettled, hsome m rfl, htip⟩

/-! ## Disconnecting -/

theorem disconnectTo_benign {f : Ptr} {turns : Nat}
    (hcalls : ∀ c ∈ disconnectCalls N (some f) turns s, c.benign N) :
    ∃ s', disconnectTo N (some f) turns s = (.ok (), s') ∧ s'.reversedVerdicts = s.reversedVerdicts := by
  induction turns generalizing s with
  | zero => exact ⟨s, rfl, rfl⟩
  | succ turns ih =>
    unfold disconnectCalls at hcalls
    unfold disconnectTo
    split_ifs at hcalls ⊢ with hstop
    · exact ⟨s, rfl, rfl⟩
    · have hfirst : (disconnectTip N s).1.isOk = true := hcalls _ List.mem_cons_self
      cases hrun : disconnectTip N s with
      | mk r s₁ =>
        rw [hrun] at hfirst hcalls
        cases r with
        | error stop => simp [Except.isOk, Except.toBool] at hfirst
        | ok u =>
          obtain ⟨s', hrest, hverdicts⟩ := ih fun c hc => hcalls c (List.mem_cons_of_mem _ hc)
          exact ⟨s', hrest, hverdicts.trans (disconnectTip_verdicts hrun).1⟩

/-! ## Connecting -/

/-- An invalid block is reported by `ConnectBlock`, and `InvalidBlockFound` is called for it. -/
theorem connectTip_invalid {st : CValidationState} (h : connectTip N s p pblock = (.error (.returns st), s'))
    (hinvalid : st.isInvalid) : s' = s.invalidBlockFound p st := by
  have hdisk : ∀ message, CValidationState.new.err message ≠ st := by
    rintro message rfl
    simp [CValidationState.err, CValidationState.new, CValidationState.isInvalid] at hinvalid
  have hblock : ∀ block, connectTipBlock N s p block = (.error (.returns st), s') → s' = s.invalidBlockFound p st := by
    intro block hrun
    unfold connectTipBlock at hrun
    split at hrun
    · next st' _ =>
        obtain ⟨hst, rfl⟩ := Prod.mk.inj hrun
        obtain rfl : st' = st := Stop.returns.inj (Except.error.inj hst)
        rw [if_pos hinvalid]
    · simp at hrun
    · -- What fails after `ConnectBlock` is an access to the disk.
      unfold recordConnected at hrun
      split_ifs at hrun
      · simp [Call.andThen] at hrun
      · exact absurd (Stop.returns.inj (Except.error.inj (congrArg Prod.fst hrun))) (hdisk _)
      · exact absurd (Stop.returns.inj (Except.error.inj (congrArg Prod.fst hrun))) (hdisk _)
      · simp [Call.andThen] at hrun
  unfold connectTip at h
  split_ifs at h
  · simp at h
  · split at h
    · exact hblock _ h
    · split at h
      · exact hblock _ h
      · exact absurd (Stop.returns.inj (Except.error.inj (congrArg Prod.fst h))) (hdisk _)

/-- A block that was not connected before is marked, and no verdict is reversed. -/
theorem invalidBlockFound_first {st : CValidationState} (hcorrupt : st.corruptionPossible = false)
    (hnew : (s.entry p).nStatus.valid < BLOCK_VALID_SCRIPTS) :
    (s.invalidBlockFound p st).reversedVerdicts = s.reversedVerdicts ∧ (s.invalidBlockFound p st).failed p = true := by
  unfold NodeState.invalidBlockFound
  rw [hcorrupt]
  constructor
  · show (s.recordVerdict p).reversedVerdicts = s.reversedVerdicts
    simp only [NodeState.recordVerdict, if_neg (Nat.not_le.mpr hnew)]
  · exact failed_failValid (s.recordVerdict p) p

/-- The tip has more work than `old`, or another entry is marked. -/
def Gain (old : Ptr) (s s' : NodeState) : Prop :=
  (∃ t, s'.tip = some t ∧ (s'.entry old).nChainWork < (s'.entry t).nChainWork) ∨
    ∃ p < s.size, s.failed p = false ∧ s'.failed p = true

/-- The calls are benign, and each verdict is the first one. -/
def Fine (N : Node) (calls : List TipCall) : Prop :=
  ∀ c ∈ calls, c.benign N = true ∧ c.firstVerdict N = true

theorem connectTip_verdicts (hs : IndexInv N s) (hnext : Next s t p) (htip : s.tip = some t)
    (hblock : BlockFits N s pblock p) (h : connectTip N s p pblock = (.ok (), s')) :
    s'.reversedVerdicts = s.reversedVerdicts := by
  rcases connectTip_cases hs hnext htip hblock with
    ⟨u, r, needed, -, h'⟩ | ⟨_, h'⟩ | ⟨_, r, h'⟩ | ⟨_, u, r, h'⟩ | ⟨_, st, h'⟩
  · rw [h] at h'
    obtain rfl := (Prod.mk.inj h').2
    rfl
  · simp [h] at h'
  · simp [h] at h'
  · simp [h] at h'
  · simp [h] at h'

/-- The marks are the same in the state in between. -/
theorem Gain.of_same {old : Ptr} {s₁ : NodeState} (h : Gain old s₁ s') (hsize : s₁.size = s.size)
    (hfailed : ∀ q, s₁.failed q = s.failed q) : Gain old s s' := by
  refine h.imp_right fun ⟨p, hp, hbefore, hafter⟩ => ⟨p, ?_, ?_, hafter⟩
  · rw [← hsize]
    exact hp
  · rw [← hfailed]
    exact hbefore

/-- `ConnectTip` above the tip, where a failure marks the entry. -/
theorem Settled.connectTip (h : Settled N s) (hnext : Next s t p) (htip : s.tip = some t)
    (hblock : BlockFits N s pblock p)
    (hfine : (TipCall.connect s p pblock).benign N ∧ (TipCall.connect s p pblock).firstVerdict N) :
    (∃ s₁, Reddcoin.connectTip N s p pblock = (.ok (), s₁) ∧
      pruneBlockIndexCandidates s₁ = (.ok (), s₁.dropWorse p) ∧ Settled N (s₁.dropWorse p)) ∨
    ∃ st s₁, Reddcoin.connectTip N s p pblock = (.error (.returns st), s₁) ∧ st.isInvalid ∧
      st.corruptionPossible = false ∧ s₁.reversedVerdicts = [] ∧ s₁.failed p = true := by
  obtain ⟨hbenign, hfirst⟩ := hfine
  simp only [TipCall.benign, TipCall.firstVerdict] at hbenign hfirst
  cases hrun : Reddcoin.connectTip N s p pblock with
  | mk r s₁ =>
    rw [hrun] at hbenign hfirst
    cases r with
    | ok u =>
      left
      obtain ⟨hmoves, htip₁, hprune, -⟩ := connectTip_ok h.inv hnext htip hblock hrun
      have hverdicts := (connectTip_verdicts h.inv hnext htip hblock hrun).trans h.verdicts
      have hsettled := h.moves hmoves hverdicts
      refine ⟨s₁, rfl, ?_, hsettled⟩
      obtain ⟨w, hw, -⟩ := hsettled.ready.keep
      unfold pruneBlockIndexCandidates
      rw [htip₁]
      simp only
      split_ifs with hempty
      · rw [List.isEmpty_iff] at hempty
        rw [hempty] at hw
        simp at hw
      · rfl
    | error stop =>
      right
      cases stop with
      | crashes => simp [onlyInvalid] at hbenign
      | returns st =>
        obtain ⟨hinvalid, hcorrupt⟩ := Bool.and_eq_true_iff.mp hbenign
        rw [Bool.not_eq_true'] at hcorrupt
        have hnew : (s.entry p).nStatus.valid < BLOCK_VALID_SCRIPTS := by
          simpa [Except.isOk, Except.toBool] using hfirst
        obtain ⟨hverdicts, hfailed⟩ := invalidBlockFound_first hcorrupt hnew
        have hs₁ := connectTip_invalid hrun hinvalid
        rw [← hs₁] at hverdicts hfailed
        exact ⟨st, s₁, rfl, hinvalid, hcorrupt, hverdicts.trans h.verdicts, hfailed⟩

/-- A batch comes to its end, or there is a gain. -/
theorem Settled.connectBatch (back : Ptr) {old e : Ptr} {batch : List Ptr} (h : Settled N s) (htip : s.tip = some t)
    (hclimb : Climb s t batch e) (hblock : BlockFits N s pblock m)
    (hfine : Fine N (batchCalls N m pblock (some old) batch s)) :
    ∃ fContinue s', Reddcoin.connectBatch N m pblock (some old) back batch s = (.ok fContinue, s') ∧
      s'.reversedVerdicts = [] ∧ (fContinue = false → Gain old s s') := by
  induction batch generalizing s t with
  | nil => exact ⟨true, s, rfl, h.verdicts, fun hfalse => by simp at hfalse⟩
  | cons p ps ih =>
    cases hclimb with
    | cons next rest =>
      have hfits := hblock.pick p
      unfold batchCalls at hfine
      unfold Reddcoin.connectBatch
      rcases h.connectTip next htip hfits (hfine _ List.mem_cons_self) with
        ⟨s₁, hrun, hprune, hsettled⟩ | ⟨st, s₁, hrun, hinvalid, hcorrupt, hverdicts, hfailed⟩
      · obtain ⟨hmoves, htip₁, -, hsame⟩ := connectTip_ok h.inv next htip hfits hrun
        have hnarrow := hmoves.narrowed
        rw [hrun] at hfine
        simp only [hprune] at hfine
        simp only [hrun, hprune, Call.andThen]
        have htip₂ : (s₁.dropWorse p).tip = some p := htip₁
        by_cases himproved : improved (s₁.dropWorse p) (some old) = true
        · rw [if_pos himproved]
          refine ⟨false, _, rfl, hsettled.verdicts, fun _ => .inl ⟨p, htip₂, ?_⟩⟩
          simp only [improved, htip₂, decide_eq_true_eq] at himproved
          exact himproved
        · rw [if_neg himproved] at hfine ⊢
          have hfits' : BlockFits N (s₁.dropWorse p) pblock m := by
            intro block hb
            exact (hblock block hb).trans (hnarrow.shape.hash m).symm
          obtain ⟨fContinue, s', hrest, hverdicts, hgain⟩ := ih hsettled htip₂
            (rest.congr hnarrow.shape hnarrow.linked hsame) hfits'
            fun c hc => hfine c (List.mem_cons_of_mem _ hc)
          exact ⟨fContinue, s', hrest, hverdicts, fun hstop =>
            (hgain hstop).of_same hnarrow.shape.size hsame⟩
      · simp only [hrun, hinvalid, hcorrupt, if_true, Bool.false_eq_true, if_false]
        exact ⟨false, _, rfl, hverdicts, fun _ => .inr ⟨p, next.size, next.valid, hfailed⟩⟩

/-- The loop over the batches ends at `m`, or with a gain. -/
theorem Settled.connectLoop {f old : Ptr} {turns : Nat} (h : Settled N s) (htip : s.tip = some f)
    (hm : m < s.size) (hanc : Anc s.par f m) (hlinked : s.linked m)
    (hclean : ∀ a, Anc s.par a m → ¬ Anc s.par a f → s.failed a = false)
    (hblock : BlockFits N s pblock m) (hturns : s.ht m < turns + s.ht f)
    (hfine : Fine N (loopCalls N m pblock (some old) turns s (s.ht f))) :
    ∃ s', Reddcoin.connectLoop N m pblock (some old) turns s (s.ht f) = (.ok (), s') ∧
      s'.reversedVerdicts = [] ∧ (s'.tip = some m ∨ Gain old s s') := by
  have hheight : s.ht f ≤ s.ht m := (h.inv.shape.tree.graded.anc_height hm hanc).1
  induction turns generalizing s f with
  | zero => omega
  | succ turns ih =>
    unfold loopCalls at hfine
    unfold Reddcoin.connectLoop
    by_cases hdone : (s.ht f : Int) = s.ht m
    · rw [if_pos hdone]
      have heq : f = m := (h.inv.shape.tree.graded.anc_height hm hanc).2 (Int.natCast_inj.mp hdone)
      exact ⟨s, rfl, h.verdicts, .inl (heq ▸ htip)⟩
    · rw [if_neg hdone] at hfine ⊢
      have hmin : min ((s.ht f : Int) + 32) (s.ht m) = ((min (s.ht f + 32) (s.ht m) : Nat) : Int) := by
        omega
      obtain ⟨e, hfe, hem, hhe, hclimb⟩ := nextBatch_climb h.inv hm hanc hlinked hclean
        (show s.ht f ≤ min (s.ht f + 32) (s.ht m) by omega) (Nat.min_le_right _ _)
      simp only [hmin] at hfine ⊢
      obtain ⟨fContinue, s₁, hbatch, hverdicts, hgain⟩ := h.connectBatch
        ((nextBatch s m (s.ht f) (min (s.ht f + 32) (s.ht m) : Nat)).headD 0) htip hclimb hblock
        fun c hc => hfine c (List.mem_append_left _ hc)
      obtain ⟨hmoves, hend⟩ := connectBatch_spec h.inv htip hclimb hblock hbatch
      rw [hbatch] at hfine ⊢
      cases fContinue with
      | false => exact ⟨s₁, rfl, hverdicts, .inr (hgain rfl)⟩
      | true =>
        obtain ⟨htip₁, hfailed⟩ := hend rfl
        have hshape := hmoves.narrowed.shape
        have hpar : s₁.par = s.par := hshape.par
        have hht : s₁.ht = s.ht := hshape.ht
        have hem₁ : Anc s₁.par e m := by
          rw [hpar]
          exact hem
        have hm₁ : m < s₁.size := lt_of_lt_of_eq hm hshape.size.symm
        have hsettled := h.moves hmoves hverdicts
        simp only [Call.andThen, if_true, ← hhe] at hfine ⊢
        rw [← hht] at hfine ⊢
        obtain ⟨s', hrest, hverdicts', hprogress⟩ := ih hsettled htip₁ hm₁ hem₁
          ((hmoves.narrowed.linked m).trans hlinked)
          (fun a ha hnot => by
            rw [hpar] at ha hnot
            rw [hfailed]
            exact hclean a ha fun haf => hnot (haf.trans hfe))
          (fun block hb => (hblock block hb).trans (hshape.hash m).symm)
          (by rw [hht]; omega)
          (fun c hc => hfine c (List.mem_append_right _ hc))
          (hsettled.inv.shape.tree.graded.anc_height hm₁ hem₁).1
        exact ⟨s', hrest, hverdicts', hprogress.imp_right fun hg => hg.of_same hshape.size hfailed⟩

theorem Settled.activateBestChainStep {old : Ptr} (h : Settled N s) (hmost : MostWork s m)
    (hblock : BlockFits N s pblock m) (htip : s.tip = some old) (hfine : Fine N (stepCalls N s m pblock)) :
    ∃ s', Reddcoin.activateBestChainStep N s m pblock = (.ok (), s') ∧ s'.reversedVerdicts = [] ∧
      (s'.tip = some m ∨ Gain old s s') := by
  obtain ⟨hsize, hends, -⟩ := h.inv.tip_eq htip
  obtain ⟨hm, hlinked⟩ := h.inv.flow.candidates m hmost.candidate
  obtain ⟨f, hfork, hfm, hft, hlast⟩ := hends.findFork_eq h.inv.shape.tree hsize hm
  have hlen := hends.length h.inv.shape.tree hsize
  unfold stepCalls at hfine
  unfold Reddcoin.activateBestChainStep
  simp only [hfork, htip] at hfine ⊢
  obtain ⟨s₁, hdis, hverdicts⟩ := disconnectTo_benign fun c hc => (hfine c (List.mem_append_left _ hc)).1
  have hturns : s.ht old ≤ s.chainActive.length + s.ht f := by
    have hht : s.ht old = s.mapBlockIndex.ht old := rfl
    omega
  obtain ⟨hmoves, hmap, htip₁⟩ := disconnectTo_spec h.inv htip hft hturns hdis
  have hsettled := h.moves hmoves (hverdicts.trans h.verdicts)
  have hpar : s₁.par = s.par := congrArg BlockMap.par hmap
  have hfailed : ∀ a, s₁.failed a = s.failed a := fun a =>
    congrArg (fun m : BlockMap => (m.entry a).failed) hmap
  rw [hdis] at hfine ⊢
  have hloop : Fine N (loopCalls N m pblock (some old) (s₁.ht m + 2) s₁ (s₁.ht f)) := fun c hc =>
    hfine c (List.mem_append_right _ hc)
  obtain ⟨s', hrest, hverdicts', hprogress⟩ := hsettled.connectLoop (htip₁ rfl)
    (lt_of_lt_of_eq hm hmoves.narrowed.shape.size.symm)
    (by rw [hpar]; exact hfm) ((hmoves.narrowed.linked m).trans hlinked)
    (fun a ha hnot => by
      rw [hpar] at ha hnot
      rw [hfailed]
      exact hmost.clean old htip a ha fun hat => hnot (hlast a ha hat))
    (fun block hb => (hblock block hb).trans (hmoves.narrowed.shape.hash m).symm) (by omega) hloop
  exact ⟨s', hrest, hverdicts', hprogress.imp_right fun hg =>
    hg.of_same hmoves.narrowed.shape.size hfailed⟩

/-! ## The loop comes to an end -/

/-- The entries that are not marked failed. -/
def NodeState.unfailed (s : NodeState) : Finset Nat :=
  (Finset.range s.size).filter fun p => s.failed p = false

/-- The work of the heaviest entry. -/
def NodeState.topWork (s : NodeState) : Nat :=
  (Finset.range s.size).sup fun p => (s.entry p).nChainWork

/-- What is left for `ActivateBestChain` to do with the tip `t`: entries can be marked, and for each choice
of marks the work of the tip can grow. -/
def NodeState.remaining (s : NodeState) (t : Ptr) : Nat :=
  s.unfailed.card * (s.topWork + 1) + (s.topWork - (s.entry t).nChainWork)

theorem Narrowed.topWork (h : Narrowed s s') : s'.topWork = s.topWork := by
  have hsize : s'.size = s.size := h.shape.size
  have hwork : (fun p => (s'.entry p).nChainWork) = fun p => (s.entry p).nChainWork :=
    funext h.shape.nChainWork
  unfold NodeState.topWork
  rw [hsize, hwork]

theorem Narrowed.unfailed (h : Narrowed s s') : s'.unfailed ⊆ s.unfailed := by
  intro p hp
  have hsize : s'.size = s.size := h.shape.size
  simp only [NodeState.unfailed, Finset.mem_filter, Finset.mem_range, hsize] at hp ⊢
  refine ⟨hp.1, ?_⟩
  cases hbefore : s.failed p with
  | false => rfl
  | true => cases hp.2.symm.trans (h.failed p hbefore)

theorem Narrowed.remaining_le (h : Narrowed s s') (t : Ptr) : s'.remaining t ≤ s.remaining t := by
  have hcard := Finset.card_le_card h.unfailed
  have hmul : s'.unfailed.card * (s.topWork + 1) ≤ s.unfailed.card * (s.topWork + 1) :=
    Nat.mul_le_mul_right _ hcard
  have hwork : (s'.entry t).nChainWork = (s.entry t).nChainWork := h.shape.nChainWork t
  unfold NodeState.remaining
  rw [h.topWork, hwork]
  omega

theorem work_le_topWork (hp : p < s.size) : (s.entry p).nChainWork ≤ s.topWork :=
  Finset.le_sup (f := fun p => (s.entry p).nChainWork) (Finset.mem_range.mpr hp)

theorem Narrowed.remaining_lt (h : Narrowed s s') {old : Ptr} (hgain : Gain old s s')
    (htip : s'.tip = some t) (hsize : t < s'.size) : s'.remaining t < s.remaining old := by
  have hold : (s'.entry old).nChainWork = (s.entry old).nChainWork := h.shape.nChainWork old
  have htop := work_le_topWork hsize
  rw [h.topWork] at htop
  unfold NodeState.remaining
  rw [h.topWork]
  rcases hgain with ⟨t', ht', hmore⟩ | ⟨p, hp, hbefore, hafter⟩
  · -- The tip has more work, and no mark is taken back.
    cases htip.symm.trans ht'
    have hcard := Finset.card_le_card h.unfailed
    have hmul : s'.unfailed.card * (s.topWork + 1) ≤ s.unfailed.card * (s.topWork + 1) :=
      Nat.mul_le_mul_right _ hcard
    omega
  · -- There is one mark more, which outweighs whatever work the tip has lost.
    have hmem : p ∈ s.unfailed := Finset.mem_filter.mpr ⟨Finset.mem_range.mpr hp, hbefore⟩
    have hnot : p ∉ s'.unfailed := fun hmem' =>
      nomatch ((Finset.mem_filter.mp hmem').2.symm.trans hafter)
    have hcard : s'.unfailed.card < s.unfailed.card :=
      Finset.card_lt_card ((Finset.ssubset_iff_of_subset h.unfailed).mpr ⟨p, hmem, hnot⟩)
    have hmul : (s'.unfailed.card + 1) * (s.topWork + 1) ≤ s.unfailed.card * (s.topWork + 1) :=
      Nat.mul_le_mul_right _ hcard
    rw [Nat.add_mul] at hmul
    omega

theorem blockOf_fits (N : Node) (s : NodeState) (pblock : Option CBlock) (m : Ptr) :
    BlockFits N s (blockOf N s pblock m) m := by
  intro block hb
  unfold blockOf at hb
  rw [Option.filter_eq_some_iff] at hb
  exact of_decide_eq_true hb.2

/-- A turn of `ActivateBestChain` returns with the best tip, or leaves less to do. -/
theorem Settled.turn (h : Settled N s) (htip : s.tip = some t)
    (hfine : ∀ turns, Fine N (activateCalls N pblock turns s)) :
    (∃ s', (∀ turns, activateBestChain N pblock (turns + 1) s = some (.ok (), s')) ∧ s'.TipIsBest) ∨
    ∃ s₁ t₁, (∀ turns, activateBestChain N pblock (turns + 1) s = activateBestChain N pblock turns s₁) ∧
      Settled N s₁ ∧ s₁.tip = some t₁ ∧ s₁.remaining t₁ < s.remaining t ∧
      ∀ turns, Fine N (activateCalls N pblock turns s₁) := by
  obtain ⟨m, s₁, hfind, hmoves, hsettled, hmost, htip₁⟩ := h.findMostWorkChain
  have hless := hmoves.narrowed.remaining_le t
  by_cases hdone : s₁.tip = some m
  · left
    refine ⟨s₁, fun turns => ?_, hsettled.tipIsBest hdone hmost.best⟩
    unfold activateBestChain
    rw [hfind]
    simp only
    rw [if_pos hdone]
  · have hcalls : ∀ turns, Fine N (stepCalls N s₁ m (blockOf N s₁ pblock m) ++
        match Reddcoin.activateBestChainStep N s₁ m (blockOf N s₁ pblock m) with
        | (.ok (), s) => if s.tip = some m then [] else activateCalls N pblock turns s
        | (.error _, _) => []) := by
      intro turns
      have hall := hfine (turns + 1)
      unfold activateCalls at hall
      rw [hfind] at hall
      simp only at hall
      rw [if_neg hdone] at hall
      exact hall
    have hfits := blockOf_fits N s₁ pblock m
    obtain ⟨s₂, hstep, hverdicts, hprogress⟩ := hsettled.activateBestChainStep hmost hfits
      (htip₁.trans htip) fun c hc => hcalls 0 c (List.mem_append_left _ hc)
    have hmoves₂ := activateBestChainStep_moves hsettled.inv hmost hfits hstep
    have hsettled₂ := hsettled.moves hmoves₂ hverdicts
    have hloop : ∀ turns, activateBestChain N pblock (turns + 1) s =
        if s₂.tip = some m then some (.ok (), s₂.flushStateToDisk (N.env s₂).needsFlush)
        else activateBestChain N pblock turns s₂ := by
      intro turns
      rw [activateBestChain, hfind]
      simp only
      rw [if_neg hdone, hstep]
    by_cases hreached : s₂.tip = some m
    · left
      have hflush := flushStateToDisk_moves s₂ (N.env s₂).needsFlush
      have hbest : ∀ q ∈ (s₂.flushStateToDisk (N.env s₂).needsFlush).setBlockIndexCandidates,
          (s₂.flushStateToDisk (N.env s₂).needsFlush).worse m q = false := by
        intro q hq
        show s₂.worse m q = false
        rw [hmoves₂.narrowed.worse]
        exact hmost.best q (hmoves₂.narrowed.candidates q hq)
      refine ⟨s₂.flushStateToDisk (N.env s₂).needsFlush, fun turns => ?_, ?_⟩
      · rw [hloop, if_pos hreached]
      · exact (hsettled₂.moves hflush hsettled₂.verdicts).tipIsBest hreached hbest
    · right
      obtain ⟨t₂, htip₂⟩ := hsettled₂.inv.exists_tip
      have hsize₂ := (hsettled₂.inv.tip_eq htip₂).1
      have hlt := hmoves₂.narrowed.remaining_lt (hprogress.resolve_left hreached) htip₂ hsize₂
      refine ⟨s₂, t₂, fun turns => ?_, hsettled₂, htip₂, by omega, fun turns c hc => ?_⟩
      · rw [hloop, if_neg hreached]
      · refine hcalls turns c (List.mem_append_right _ ?_)
        rw [hstep]
        simp only
        rw [if_neg hreached]
        exact hc

theorem Settled.activateBestChain (h : Settled N s)
    (hfine : ∀ turns, Fine N (activateCalls N pblock turns s)) :
    ∃ s', s'.TipIsBest ∧ (∃ turns, Reddcoin.activateBestChain N pblock turns s = some (.ok (), s')) ∧
      ∀ turns x, Reddcoin.activateBestChain N pblock turns s = some x → x = (.ok (), s') := by
  obtain ⟨t, htip⟩ := h.inv.exists_tip
  induction hn : s.remaining t using Nat.strong_induction_on generalizing s t with
  | _ n ih =>
    rcases h.turn htip hfine with ⟨s', hreturns, hbest⟩ | ⟨s₁, t₁, hgoes, hsettled, htip₁, hless, hrest⟩
    · refine ⟨s', hbest, ⟨1, hreturns 0⟩, fun turns x hx => ?_⟩
      cases turns with
      | zero => simp [Reddcoin.activateBestChain] at hx
      | succ turns => exact Option.some.inj (hx.symm.trans (hreturns turns))
    · obtain ⟨s', hbest, ⟨turns, hreturns⟩, hall⟩ := ih (s₁.remaining t₁) (by omega) hsettled hrest
        t₁ htip₁ rfl
      refine ⟨s', hbest, ⟨turns + 1, (hgoes turns).trans hreturns⟩, fun turns x hx => ?_⟩
      cases turns with
      | zero => simp [Reddcoin.activateBestChain] at hx
      | succ turns => exact hall turns x ((hgoes turns).symm.trans hx)

/-- In a sound run `ActivateBestChain` returns, always with the same result: no assertion has failed, and the
tip is the best of all entries that could be active. -/
theorem activateBestChain_tipIsBest (hrun : SoundRun N s) (pblock : Option CBlock)
    (hbenign : ∀ turns, ∀ c ∈ activateCalls N pblock turns s, c.benign N = true)
    (hfirst : ∀ turns, ∀ c ∈ activateCalls N pblock turns s, c.firstVerdict N = true) :
    ∃ s', s'.TipIsBest ∧ (∃ turns, Reddcoin.activateBestChain N pblock turns s = some (.ok (), s')) ∧
      ∀ turns x, Reddcoin.activateBestChain N pblock turns s = some x → x = (.ok (), s') :=
  hrun.settled.activateBestChain fun turns c hc => ⟨hbenign turns c hc, hfirst turns c hc⟩

/-- Once `ActivateBestChain` has returned there are no more calls. -/
theorem activateCalls_of_returns {n k : Nat} {x : Call Unit} (h : activateBestChain N pblock k s = some x)
    {c : TipCall} (hc : c ∈ activateCalls N pblock n s) : c ∈ activateCalls N pblock k s := by
  induction k generalizing s n with
  | zero => simp [activateBestChain] at h
  | succ k ih =>
    cases n with
    | zero => simp [activateCalls] at hc
    | succ n =>
      unfold activateBestChain at h
      unfold activateCalls at hc ⊢
      cases hfind : findMostWorkChain s with
      | mk found s₁ =>
        rw [hfind] at h hc
        cases found with
        | error stop => simp at hc
        | ok found =>
          cases found with
          | none => simp at hc
          | some m =>
            simp only at h hc ⊢
            split_ifs at h hc ⊢ with hdone
            · exact hc
            · cases hstep : activateBestChainStep N s₁ m (blockOf N s₁ pblock m) with
              | mk r s₂ =>
                rw [hstep] at h hc
                cases r with
                | error stop => exact hc
                | ok u =>
                  simp only at h hc ⊢
                  split_ifs at h hc ⊢ with hreached
                  · exact hc
                  · rcases List.mem_append.mp hc with hc | hc
                    · exact List.mem_append_left _ hc
                    · exact List.mem_append_right _ (ih h hc)

end

namespace Example

/-- A block has been received and waits for `ActivateBestChain`. -/
def oneReceived : NodeState :=
  after node start (.acceptBlock (nodeBlock 7000 200 1))

theorem sound_start : SoundRun node start :=
  .init isGenesis_genesisBlock (eq_some_left (by decide)) (by decide)

theorem sound_oneReceived : SoundRun node oneReceived := by
  have hfully : ReceivesFully node start (nodeBlock 7000 200 1) := .of_ok (by decide)
  exact .step (.acceptBlock (nodeBlock 7000 200 1)) sound_start hfully (step_after (by decide)) (by decide)

/-- The header of a child is known. -/
def childKnown : NodeState :=
  after node oneReceived (.acceptBlockHeader (nodeBlock 7001 300 2).toCBlockHeader)

/-- The block is invalidated, and its child reconsidered. -/
def childReconsidered : NodeState :=
  after node (after node childKnown (.invalidateBlock 1)) (.reconsiderBlock 2)

theorem reachable_childKnown : Reachable node childKnown :=
  .step _ sound_oneReceived.reachable (step_after (by decide))

theorem reachable_childReconsidered : Reachable node childReconsidered := by
  have hinvalidated : Reachable node (after node childKnown (.invalidateBlock 1)) :=
    .step _ reachable_childKnown (step_after (by decide))
  exact .step _ hinvalidated (step_after (by decide))

end Example

open Example

/-- The block that was received is connected. -/
theorem activateBestChain_tipIsBest_example : ∃ s', s'.TipIsBest ∧
    (∃ turns, activateBestChain node none turns oneReceived = some (.ok (), s')) ∧
      ∀ turns x, activateBestChain node none turns oneReceived = some x → x = (.ok (), s') := by
  have hreturns := eq_some_left
    (by decide : ((activateBestChain node none 2 oneReceived).map fun x => x.1.isOk) = some true)
  have hbenign : ∀ c ∈ activateCalls node none 2 oneReceived, c.benign node = true := by
    decide
  have hfirst : ∀ c ∈ activateCalls node none 2 oneReceived, c.firstVerdict node = true := by
    decide
  exact activateBestChain_tipIsBest sound_oneReceived none
    (fun _ c hc => hbenign c (activateCalls_of_returns hreturns hc))
    fun _ c hc => hfirst c (activateCalls_of_returns hreturns hc)

/-- `ReconsiderBlock` of a header above a block that was invalidated clears the block without making it a
candidate, and `ActivateBestChain` passes it by. -/
theorem activateBestChain_leaves_better : Reachable node childReconsidered ∧
    (∀ turns, ∀ c ∈ activateCalls node none turns childReconsidered, c.benign node = true) ∧
    ∃ s', activateBestChain node none 1 childReconsidered = some (.ok (), s') ∧ ¬ s'.TipIsBest := by
  have hreturns := eq_some_left (by decide :
    ((activateBestChain node none 1 childReconsidered).map fun x => x.1.isOk) = some true)
  have hbenign : ∀ c ∈ activateCalls node none 1 childReconsidered, c.benign node = true := by
    decide
  refine ⟨reachable_childReconsidered, fun turns c hc =>
    hbenign c (activateCalls_of_returns hreturns hc), _, hreturns, ?_⟩
  rintro ⟨t, htip, -, hbest⟩
  obtain rfl : 0 = t := Option.some.inj
    ((by decide : (left (activateBestChain node none 1 childReconsidered)).tip = some 0).symm.trans
      htip)
  have hone : (left (activateBestChain node none 1 childReconsidered)).Eligible 1 := by
    refine ⟨by decide, by decide, fun a ha => ?_⟩
    rcases (Forest.anc_of_parent (by decide :
      (left (activateBestChain node none 1 childReconsidered)).par 1 = some 0)).mp ha
      with rfl | ha
    · decide
    · rw [(Forest.anc_of_root (by decide)).mp ha]
      decide
  have hworse := hbest 1 hone
  revert hworse
  decide

end Reddcoin
