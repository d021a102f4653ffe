import Reddcoin.Index.BestChainMoves

/-!
# Invalidating and reconsidering as moves

What `InvalidateBlock` and `ReconsiderBlock` do to the state.
-/

namespace Reddcoin

open Forest (Anc)
open Relation (ReflTransGen)

theorem UserMove.single {s s' : NodeState} (h : UserMove s s') : UserMoves s s' :=
  ReflTransGen.single h

theorem UserMoves.inv {N : Node} {s s' : NodeState} (h : UserMoves s s') (hs : IndexInv N s) :
    IndexInv N s' :=
  h.moves.inv hs

section

variable {N : Node} {s : NodeState} {t p : Ptr}

/-! ## Invalidating -/

theorem failed_failValid (s : NodeState) (p : Ptr) : (s.failValid p).failed p = true := by
  unfold NodeState.failed NodeState.failValid
  rw [entry_modify_self]
  simp only [CBlockIndex.failed, CBlockIndex.failValid, BlockStatus.failed, Bool.true_or]

theorem markTip_moves (hs : IndexInv N s) (htip : s.tip = some t) (hanc : Anc s.par p t)
    (hfailed : s.failed p) : UserMoves s (s.markTip t) := by
  obtain ⟨hsize, -, hlinked, -⟩ := hs.tip_eq htip
  have hmove : ChainMove s ((s.failChild t).setDirty t) := .failTip hsize hlinked hanc hfailed
  exact (UserMove.chain hmove).single.tail (.chain (.erase (failed_failChild s t)))

theorem markTip_sameFlow (s : NodeState) (t : Ptr) : SameFlow s (s.markTip t) :=
  (SameFlow.failChild s t).trans (.of_map rfl rfl rfl)

/-- The loop of `InvalidateBlock` keeps what marking the tip and disconnecting it keep, and when it
returns the entry is not in the active chain. -/
theorem disconnectInvalid_induction {Q : NodeState → Prop}
    (hmark : ∀ s t, IndexInv N s → s.tip = some t → Anc s.par p t → s.failed p → Q s →
      ∀ q s', s.par t = some q → disconnectTip N (s.markTip t) = (.ok (), s') →
        ChainMoves (s.markTip t) s' → s'.tip = some q →
        s'.mapBlockIndex = (s.markTip t).mapBlockIndex →
        s'.setBlockIndexCandidates = (s.markTip t).setBlockIndexCandidates → Q s')
    {turns : Nat} {s : NodeState} (hs : IndexInv N s) (hfailed : s.failed p) (hQ : Q s)
    (hturns : s.chainActive.length < turns) {s' : NodeState}
    (h : disconnectInvalid N p turns s = (.ok (), s')) :
    Q s' ∧ IndexInv N s' ∧ ∀ t, s'.tip = some t → ¬ Anc s'.par p t := by
  induction turns generalizing s with
  | zero => omega
  | succ turns ih =>
    obtain ⟨t, htip⟩ := hs.exists_tip
    obtain ⟨hsize, hends, -⟩ := hs.tip_eq htip
    unfold disconnectInvalid at h
    split_ifs at h with hcontains
    · have hanc := (hs.contains_iff htip).mp hcontains
      rw [htip] at h
      simp only at h
      have hmoves := markTip_moves hs htip hanc hfailed
      have hs₁ := hmoves.inv hs
      have htip₁ : (s.markTip t).tip = some t := htip
      rcases disconnectTip_cases hs₁ htip₁ with ⟨stop, hdis⟩ | ⟨q, s₂, hq, hdis, hmoves₂, htip₂, hmap, hcand⟩
      · rw [hdis] at h
        simp [Call.andThen] at h
      · rw [hdis] at h
        have hq' : s.par t = some q := (congrFun (markTip_sameFlow s t).par t).symm.trans hq
        have hs₂ := hmoves₂.inv hs₁
        have hfailed₂ : s₂.failed p = true := by
          refine hmoves₂.narrowed.failed p ?_
          exact (Narrowed.failChild s t).failed p hfailed
        refine ih hs₂ hfailed₂ (hmark s t hs htip hanc hfailed hQ q s₂ hq' hdis hmoves₂ htip₂ hmap hcand)
          ?_ h
        -- Each turn takes one entry off the chain.
        obtain ⟨hsize₂, hends₂, -⟩ := hs₂.tip_eq htip₂
        have hlen₁ := hends.length hs.shape.tree hsize
        have hlen₂ := hends₂.length hs₂.shape.tree hsize₂
        have hheight := hs.shape.tree.graded.height hsize hq'
        have hht : s₂.mapBlockIndex.ht q = s.mapBlockIndex.ht q := by
          rw [hmap]
          exact congrFun (markTip_sameFlow s t).shape.ht q
        omega
    · cases h
      refine ⟨hQ, hs, fun t' ht' hanc => ?_⟩
      exact hcontains ((hs.contains_iff ht').mpr hanc)

theorem disconnectInvalid_moves {turns : Nat} (hs : IndexInv N s) (hfailed : s.failed p) :
    UserMoves s (disconnectInvalid N p turns s).2 := by
  induction turns generalizing s with
  | zero => exact .refl
  | succ turns ih =>
    obtain ⟨t, htip⟩ := hs.exists_tip
    unfold disconnectInvalid
    split_ifs with hcontains
    · have hanc := (hs.contains_iff htip).mp hcontains
      rw [htip]
      have hmoves := markTip_moves hs htip hanc hfailed
      have hs₁ := hmoves.inv hs
      have hfailed₁ : (s.markTip t).failed p = true :=
        (Narrowed.failChild s t).failed p hfailed
      have htip₁ : (s.markTip t).tip = some t := htip
      rcases disconnectTip_cases hs₁ htip₁ with ⟨stop, hdis⟩ | ⟨q, s₂, -, hdis, hmoves₂, -, -, -⟩
      · show UserMoves s ((disconnectTip N (s.markTip t)).andThen _).2
        rw [hdis]
        exact hmoves
      · show UserMoves s ((disconnectTip N (s.markTip t)).andThen _).2
        rw [hdis]
        have hall : UserMoves s s₂ := hmoves.trans hmoves₂.userMoves
        exact hall.trans (ih (hall.inv hs) (hmoves₂.narrowed.failed p hfailed₁))
    · exact .refl

theorem readdCandidate_moves {l : List Ptr} (hl : ∀ q ∈ l, q < s.size) :
    UserMoves s (l.foldl (readdCandidate t) s) := by
  induction l generalizing s with
  | nil => exact .refl
  | cons q l ih =>
    have hq := hl q List.mem_cons_self
    have hstep : UserMoves s (readdCandidate t s q) := by
      unfold readdCandidate
      split_ifs with hcond
      · simp only [Bool.and_eq_true] at hcond
        exact (UserMove.insert hq hcond.1.2).single
      · exact .refl
    exact hstep.trans (ih fun r hr => hl r (List.mem_cons_of_mem _ hr))

theorem invalidateBlock_moves (hs : IndexInv N s) (hp : p < s.size) :
    UserMoves s (invalidateBlock N s p).2 := by
  have hmove : UserMove s (((s.failValid p).setDirty p).eraseCandidate p) := .invalidate hp
  have hs₁ := hmove.inv hs
  have hfailed : (((s.failValid p).setDirty p).eraseCandidate p).failed p = true := failed_failValid s p
  have hmoves : UserMoves _ (disconnectInvalid N p
      ((((s.failValid p).setDirty p).eraseCandidate p).chainActive.length + 1)
      (((s.failValid p).setDirty p).eraseCandidate p)).2 := disconnectInvalid_moves hs₁ hfailed
  unfold invalidateBlock
  simp only
  cases h : disconnectInvalid N p
      ((((s.failValid p).setDirty p).eraseCandidate p).chainActive.length + 1)
      (((s.failValid p).setDirty p).eraseCandidate p) with
  | mk r s₂ =>
    rw [h] at hmoves
    have hall : UserMoves s s₂ := hmove.single.trans hmoves
    cases r with
    | error stop => exact hall
    | ok u =>
      simp only [Call.andThen]
      cases htip : s₂.tip with
      | none => exact hall
      | some t =>
        have hreadd : UserMoves s₂ ((List.range s₂.size).foldl (readdCandidate t) s₂) :=
          readdCandidate_moves fun q hq => List.mem_range.mp hq
        exact (hall.trans hreadd).tail (.chain (invalidChainFound_move _ p))

/-! ## Reconsidering -/

theorem reconsiderCandidate_moves {q : Ptr} (hq : q < s.size) : UserMoves s (s.reconsiderCandidate q) := by
  unfold NodeState.reconsiderCandidate
  split_ifs with hcond
  · simp only [Bool.and_eq_true] at hcond
    exact (UserMove.insert hq hcond.1.2).single
  · exact .refl

theorem reconsiderDescendant_moves {q : Ptr} (hq : q < s.size) :
    UserMoves s (reconsiderDescendant p s q) := by
  unfold reconsiderDescendant
  split_ifs with hcond
  · have hclear : UserMoves s ((s.clearFailed q).setDirty q) := (UserMove.clear hq).single
    exact (hclear.trans (reconsiderCandidate_moves hq)).tail (.chain (.note _ _ _ _ _))
  · exact .refl

theorem reconsiderDescendant_size (s : NodeState) (q : Ptr) :
    (reconsiderDescendant p s q).size = s.size := by
  unfold reconsiderDescendant
  split_ifs <;> rfl

theorem reconsiderDescendants_moves {l : List Ptr} (hl : ∀ q ∈ l, q < s.size) :
    UserMoves s (l.foldl (reconsiderDescendant p) s) := by
  induction l generalizing s with
  | nil => exact .refl
  | cons q l ih =>
    refine (reconsiderDescendant_moves (hl q List.mem_cons_self)).trans (ih fun r hr => ?_)
    rw [reconsiderDescendant_size]
    exact hl r (List.mem_cons_of_mem _ hr)

theorem reconsiderAncestors_moves {turns : Nat} (hs : IndexInv N s) {p? : Option Ptr}
    (hp : ∀ p, p? = some p → p < s.size) : UserMoves s (reconsiderAncestors turns s p?) := by
  induction turns generalizing s p? with
  | zero => exact .refl
  | succ turns ih =>
    cases p? with
    | none => exact .refl
    | some p =>
      have hpS := hp p rfl
      have hstep : UserMoves s (if (s.entry p).failed then (s.clearFailed p).setDirty p else s) := by
        split_ifs
        · exact (UserMove.clear hpS).single
        · exact .refl
      have hsize : (if (s.entry p).failed then (s.clearFailed p).setDirty p else s).size = s.size := by
        split_ifs <;> rfl
      refine hstep.trans (ih (hstep.inv hs) fun q hq => ?_)
      rw [hsize]
      exact hs.shape.tree.graded.closed hpS hq

theorem reconsiderBlock_moves (hs : IndexInv N s) (hp : p < s.size) : UserMoves s (reconsiderBlock s p) := by
  have hfirst : UserMoves s ((List.range s.size).foldl (reconsiderDescendant p) s) :=
    reconsiderDescendants_moves fun q hq => List.mem_range.mp hq
  have hsize : ∀ (l : List Ptr) (s : NodeState), (l.foldl (reconsiderDescendant p) s).size = s.size := by
    intro l
    induction l with
    | nil => exact fun s => rfl
    | cons q l ih => exact fun s => (ih _).trans (reconsiderDescendant_size s q)
  refine hfirst.trans (reconsiderAncestors_moves (hfirst.inv hs) fun q hq => ?_)
  rw [hsize, ← Option.some.inj hq]
  exact hp

end

end Reddcoin
