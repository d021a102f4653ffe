import Reddcoin.Index.Candidates
import Reddcoin.Index.UserVerdict

/-!
# Runs that keep the index covered

A run is sound when every block that is received is linked without an error, no block is found invalid that
was connected before, `InvalidateBlock` comes to its end, and `ReconsiderBlock` does not pass by an ancestor
that is better than the tip.  In the states of a sound run the candidates cover the index.
-/

namespace Reddcoin

open Forest (Anc)

/-- No entry above `p` that is as good as the tip and no candidate is marked failed.  `ReconsiderBlock` would
clear the mark and leave the entry out of the candidates. -/
def NodeState.NoneBetterAbove (s : NodeState) (p : Ptr) : Prop :=
  ∀ t, s.tip = some t → ∀ a, Anc s.par a p → a ≠ p → s.failed a = true → s.linked a = true →
    a ∉ s.setBlockIndexCandidates → s.worse a t = true

/-- The condition under which a call keeps the index covered. -/
def Op.Sound (N : Node) (s : NodeState) : Op → Prop
  | acceptBlock block | processNewBlock _ block => ReceivesFully N s block
  | invalidateBlock p => (Reddcoin.invalidateBlock N s p).1 = .ok ()
  | reconsiderBlock p => s.NoneBetterAbove p
  | _ => True

/-- The states of sound runs. -/
inductive SoundRun (N : Node) : NodeState → Prop where
  | init {genesis : CBlock} {A : Addresses} {turns : Nat} {s : NodeState} (isGenesis : IsGenesis N genesis)
      (run : initBlockIndex N genesis A turns = some (.ok (), s)) (active : s.tip ≠ none) : SoundRun N s
  | reindex {genesis : CBlock} {A : Addresses} {turns : Nat} {s : NodeState}
      (isGenesis : IsGenesis N genesis)
      (run : processNewBlock N turns (NodeState.empty A) genesis = some (.ok (), s))
      (active : s.tip ≠ none) : SoundRun N s
  | step {s s' : NodeState} (op : Op) (before : SoundRun N s) (sound : op.Sound N s) (step : Step N op s s')
      (verdicts : s'.reversedVerdicts = []) : SoundRun N s'

section

variable {N : Node} {s s' : NodeState} {p q t : Ptr}

theorem SoundRun.reachable (h : SoundRun N s) : Reachable N s := by
  induction h with
  | init isGenesis run active => exact .init isGenesis run active
  | reindex isGenesis run active => exact .reindex isGenesis run active
  | step op _ _ step _ ih => exact .step op ih step

/-- The tip is a candidate, and every other linked entry without a mark is one or worse. -/
theorem Ready.of_tip (htip : s.tip = some t) (hsafe : s.Safe t) (hmem : t ∈ s.setBlockIndexCandidates)
    (hcand : ∀ q < s.size, s.linked q → s.failed q = false → s.worse q t = false →
      q ∈ s.setBlockIndexCandidates) : Ready s := by
  refine ⟨fun t' ht' => ?_, t, hmem, hsafe, fun q hq hlinked hfailed hnot => ?_⟩
  · rw [← Option.mem_unique htip ht']
    exact hsafe
  · cases hworse : s.worse q t with
    | true => rfl
    | false => exact absurd (hcand q hq hlinked hfailed hworse) hnot

theorem Fresh.ready (h : Fresh N s) : Ready s := by
  have hs := h.starting
  have htip : s.tip = some 0 := by
    unfold NodeState.tip
    rw [h.chainActive]
    rfl
  refine .of_tip htip (fun a ha => ?_) ((hs.candidates 0).mpr rfl) fun q hq _ _ _ => ?_
  · rw [(Forest.anc_of_root hs.par).mp ha]
    exact ⟨hs.failed, .inl hs.par⟩
  · have hlt : q < 1 := lt_of_lt_of_eq hq hs.size
    exact (hs.candidates q).mpr (Nat.lt_one_iff.mp hlt)

/-- `InvalidateBlock` compares every entry with the tip it leaves. -/
theorem Invalidated.ready (h : Invalidated N p s s') (hs : IndexInv N s) (hready : Ready s) : Ready s' := by
  obtain ⟨t, ht⟩ := hs.exists_tip
  obtain ⟨t', ht'⟩ := h.inv.exists_tip
  obtain ⟨hsize', -, hlinked', -⟩ := h.inv.tip_eq ht'
  obtain ⟨hbelow, hnot⟩ := h.tip t t' ht ht'
  have hsafe : s'.Safe t' := by
    intro a ha
    rw [h.marked.par] at ha ⊢
    obtain ⟨hfailed, hvalid⟩ := hready.tip t ht a (ha.trans hbelow)
    constructor
    · cases hmark : s'.failed a with
      | false => rfl
      | true =>
        rcases h.marked.failed hmark with hold | hanc
        · cases hfailed.symm.trans hold
        · exact absurd (hanc.trans ha) hnot
    · rw [h.marked.valid]
      exact hvalid
  have hmem := h.candidates t' ht' t' hsize' hlinked' hsafe.not_failed (worse_irrefl t')
  exact .of_tip ht' hsafe hmem (h.candidates t' ht')

/-- `ReconsiderBlock` adds what it clears below the entry, and what it clears above is worse than the
tip. -/
theorem Reconsidered.extends (h : Reconsidered N p s s') (hready : Ready s)
    (habove : s.NoneBetterAbove p) : Extends s s' := by
  have hc := h.cleared
  refine ⟨congrArg CChain.tip hc.chainActive, Nat.le_of_eq hc.size.symm, fun q _ => congrFun hc.par q,
    fun a _ b _ _ _ => hc.worse a b, fun q _ _ hsafe a ha => ?_, hc.stay, ?_⟩
  · rw [hc.par] at ha ⊢
    rw [hc.valid]
    exact ⟨hc.not_failed (hsafe a ha).1, (hsafe a ha).2⟩
  · intro t w ht _ _ hcovers hbest q hq hlinked hfailed hnot
    rw [hc.size] at hq
    rw [hc.linked] at hlinked
    rw [hc.worse]
    cases hbefore : s.failed q with
    | false => exact hcovers q hq hlinked hbefore fun hmem => hnot (hc.stay q hmem)
    | true =>
      have hne : q ≠ t := by
        rintro rfl
        cases (hready.tip q ht).not_failed.symm.trans hbefore
      have hworse : s.worse q t = true := by
        by_cases hbelow : Anc s.par p q
        · rcases worse_total hne with hqt | htq
          · exact hqt
          · exact absurd (h.candidates t ht q hq hbelow hbefore hlinked htq) hnot
        · -- The mark of `q` is gone, so `q` is above `p`.
          rcases hc.entry q with hsame | ⟨hrelated, -⟩
          · have hmark : s'.failed q = s.failed q := congrArg CBlockIndex.failed hsame
            cases hfailed.symm.trans (hmark.trans hbefore)
          · have hqp : q ≠ p := by
              rintro rfl
              exact hbelow (.refl q)
            exact habove t ht q (hrelated.resolve_left hbelow) hqp hbefore hlinked fun hmem =>
              hnot (hc.stay q hmem)
      exact worse_of_worse_of_not hworse hbest

/-- After a restart the tip covers the index: `LoadBlockIndexDB` looks at every entry. -/
theorem Restarted.ready (h : Restarted N s s') (hs : IndexInv N s) (hready : Ready s) : Ready s' := by
  obtain ⟨t, ht⟩ := hs.exists_tip
  have ht' : s'.tip = some t := h.tip.trans ht
  obtain ⟨hsize, -⟩ := hs.tip_eq ht
  obtain ⟨hsize', -, hlinked', -⟩ := h.inv.tip_eq ht'
  have hmem : ∀ q < s'.size, s'.linked q = true → s'.failed q = false → s'.worse q t = false →
      q ∈ s'.setBlockIndexCandidates := by
    intro q hq hlinked hfailed hworse
    refine (h.candidates t ht' q).mpr ⟨hq, ?_, hlinked, hworse⟩
    rw [h.inv.isValid hq hlinked, hfailed]
    rfl
  have hg := hs.shape.tree.graded
  have hsafe : s'.Safe t := by
    intro a ha
    have ha : Anc s.par a t := (hg.anc_congr h.par hsize).mp ha
    have hasize := hg.anc_mem hsize ha
    obtain ⟨hfailed, hvalid⟩ := hready.tip t ht a ha
    obtain ⟨r, hr, hstored⟩ := h.entry a hasize
    have hstatus : (s'.entry a).nStatus = r.index.nStatus := (congrArg CBlockIndex.nStatus hstored :)
    constructor
    · cases hmark : s'.failed a with
      | false => rfl
      | true =>
        rw [failed_iff, hstatus] at hmark
        have hold : s.failed a = true := (failed_iff s a).mpr
          (hmark.imp hr.flags.failedValid hr.flags.failedChild)
        cases hfailed.symm.trans hold
    · have hv : (s'.entry a).nStatus.valid = (s.entry a).nStatus.valid :=
        (congrArg BlockStatus.valid hstatus).trans hr.valid
      rw [h.par a hasize, hv]
      exact hvalid
  exact .of_tip ht' hsafe (hmem t hsize' hlinked' hsafe.not_failed (worse_irrefl t)) hmem

theorem processNewBlock_ready {turns : Nat} {block : CBlock} (hs : IndexInv N s) (h : Ready s)
    (hfully : ReceivesFully N s block) {r : Check Unit}
    (hrun : processNewBlock N turns s block = some (r, s')) (hverdicts : s'.reversedVerdicts = []) :
    Ready s' := by
  have hmoves := acceptBlock_moves hs block
  have haccepted := acceptBlock_ready hs h hfully
  rcases processNewBlock_cases hrun with rfl | ⟨stop, haccept⟩ | ⟨p, s₁, haccept, hactivate⟩
  · exact h
  · rw [haccept] at haccepted
    exact haccepted
  · rw [haccept] at hmoves haccepted
    have hs₁ := hmoves.inv hs
    exact (activateBestChain_moves hs₁ hactivate).ready hs₁ haccepted hverdicts

theorem run_invalidated {r : Check Unit} (hok : (invalidateBlock N s p).1 = .ok ())
    (hrun : some (invalidateBlock N s p) = some (r, s')) : invalidateBlock N s p = (.ok (), s') := by
  rw [Option.some.inj hrun] at hok ⊢
  rw [show r = .ok () from hok]

theorem run_ready {op : Op} (hs : IndexInv N s) (h : Ready s) (hsound : op.Sound N s) {r : Check Unit}
    (hrun : op.run N s = some (r, s')) (hverdicts : s'.reversedVerdicts = []) : Ready s' := by
  cases op with
  | acceptBlockHeader block =>
    cases hrun
    exact acceptBlockHeader_ready hs h block
  | acceptBlock block =>
    cases hrun
    exact acceptBlock_ready hs h hsound
  | activateBestChain pblock turns => exact (activateBestChain_moves hs hrun).ready hs h hverdicts
  | processNewBlock turns block => exact processNewBlock_ready hs h hsound hrun hverdicts
  | invalidateBlock p =>
    simp only [Op.run] at hrun
    split_ifs at hrun with hp
    exact (invalidateBlock_invalidated hs hp (run_invalidated hsound hrun)).ready hs h
  | reconsiderBlock p =>
    simp only [Op.run] at hrun
    split_ifs at hrun with hp
    cases hrun
    exact h.extend hs ((reconsiderBlock_reconsidered hs hp).extends h hsound)
  | restart A =>
    obtain ⟨-, hzero, hrun⟩ := run_restart hrun
    exact (restart_restarted hs hzero hrun).ready hs h

/-- In the states of a sound run the candidates cover the index. -/
theorem SoundRun.ready (h : SoundRun N s) : Ready s := by
  induction h with
  | init isGenesis run active => exact (initBlockIndex_fresh isGenesis run active).ready
  | reindex isGenesis run active => exact (processNewBlock_fresh isGenesis run active).ready
  | step op before sound step verdicts ih =>
    obtain ⟨r, s₁, hrun, -, rfl⟩ := step
    exact (run_ready before.reachable.inv ih sound hrun verdicts).note rfl rfl rfl rfl

end

end Reddcoin
