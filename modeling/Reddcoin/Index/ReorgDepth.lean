import Reddcoin.Index.BestTip

/-!
# How deep a reorganisation goes

`AcceptBlockHeader` turns away a header that lies too far below the tip, but a branch may have been entered before
the tip had grown.  `ActivateBestChain` then disconnects whatever lies above the fork.  It stays within the maximum
reorganisation depth as long as every candidate leaves the active chain within that depth.
-/

namespace Reddcoin

open List

open Forest (Anc)

section

variable (N : Node) {u : NodeState}

/-- The call is a `DisconnectTip` that takes the block `p` off the chain. -/
def TipCall.disconnects (p : Ptr) : TipCall → Bool
  | connect _ _ _ => false
  | disconnect s => decide (s.tip = some p) && (disconnectTip N s).1.isOk

/-- The number of blocks that `ActivateBestChain` disconnects of the chain that is active when it is called. -/
def reorgDepth (pblock : Option CBlock) (turns : Nat) (s : NodeState) : Nat :=
  s.chainActive.countP fun block =>
    block.any fun p => (activateCalls N pblock turns s).any (TipCall.disconnects N p)

/-- Every candidate leaves the active chain at most the maximum reorganisation depth below the tip. -/
def NodeState.Shallow (s : NodeState) : Prop :=
  ∀ m ∈ s.setBlockIndexCandidates, ∀ fork ∈ s.chainActive.findFork s.mapBlockIndex m,
    ((s.chainActive.length : Int) - 1) - s.ht fork ≤ N.P.maxReorganizationDepth

instance (s : NodeState) : Decidable (s.Shallow N) :=
  inferInstanceAs (Decidable (∀ m ∈ s.setBlockIndexCandidates, ∀ fork ∈ s.chainActive.findFork s.mapBlockIndex m, _))

end

section

variable {N : Node} {s s' : NodeState} {p q t m : Ptr} {pblock : Option CBlock}

/-! ## The blocks that are disconnected -/

/-- Blocks are disconnected from the tip down to the fork. -/
theorem mem_disconnectCalls {turns : Nat} {f : Ptr} (hs : IndexInv N s) (htip : s.tip = some t)
    (hanc : Anc s.par f t) {c : TipCall} (hc : c ∈ disconnectCalls N (some f) turns s) :
    ∃ u p, c = .disconnect u ∧ u.tip = some p ∧ Anc s.par f p ∧ p ≠ f ∧ Anc s.par p t := by
  induction turns generalizing s t with
  | zero => simp [disconnectCalls] at hc
  | succ turns ih =>
    unfold disconnectCalls at hc
    split_ifs at hc with hstop
    · simp at hc
    · have hne : t ≠ f := fun heq => hstop (.inr (heq ▸ htip))
      rcases mem_cons.mp hc with rfl | hc
      · exact ⟨s, t, rfl, htip, hanc, hne, .refl _⟩
      · rcases disconnectTip_cases hs htip with ⟨stop, hdis⟩ | ⟨q, s₁, hq, hdis, hmoves, htip₁, hmap, -⟩
        · rw [hdis] at hc
          simp at hc
        · rw [hdis] at hc
          have hpar : s₁.par = s.par := by
            unfold NodeState.par
            rw [hmap]
          obtain ⟨q', hq', hancq⟩ := exists_parent hanc hne
          cases hq.symm.trans hq'
          obtain ⟨u, p, hcall, hup, hfp, hpf, hpt⟩ := ih (hmoves.inv hs) htip₁ (by rw [hpar]; exact hancq) hc
          rw [hpar] at hfp hpt
          exact ⟨u, p, hcall, hup, hfp, hpf, hpt.trans (.of_parent hq)⟩

theorem not_disconnect_batchCalls {old : Option Ptr} {batch : List Ptr} :
    TipCall.disconnect u ∉ batchCalls N m pblock old batch s := by
  induction batch generalizing s with
  | nil => simp [batchCalls]
  | cons p rest ih =>
    unfold batchCalls
    intro hmem
    rcases mem_cons.mp hmem with heq | hmem
    · exact TipCall.noConfusion heq
    · split at hmem
      · split at hmem
        · split_ifs at hmem
          · simp at hmem
          · exact ih hmem
        · simp at hmem
      · simp at hmem

theorem not_disconnect_loopCalls {old : Option Ptr} {turns : Nat} {nHeight : Int} :
    TipCall.disconnect u ∉ loopCalls N m pblock old turns s nHeight := by
  induction turns generalizing s nHeight with
  | zero => simp [loopCalls]
  | succ turns ih =>
    unfold loopCalls
    intro hmem
    split_ifs at hmem
    · simp at hmem
    · rcases mem_append.mp hmem with hmem | hmem
      · exact not_disconnect_batchCalls hmem
      · split at hmem
        · exact ih hmem
        · simp at hmem

/-- A step towards `m` disconnects blocks that `m` does not descend from. -/
theorem disconnect_stepCalls (hs : IndexInv N s) (hm : m < s.size)
    (hc : TipCall.disconnect u ∈ stepCalls N s m pblock) : ∃ p, u.tip = some p ∧ ¬ Anc s.par p m := by
  obtain ⟨t, htip⟩ := hs.exists_tip
  obtain ⟨hsize, hends, -⟩ := hs.tip_eq htip
  obtain ⟨f, hfork, -, hft, hlast⟩ := hends.findFork_eq hs.shape.tree hsize hm
  unfold stepCalls at hc
  simp only [hfork] at hc
  rcases mem_append.mp hc with hc | hc
  · obtain ⟨u', p, hcall, hup, hfp, hpf, hpt⟩ := mem_disconnectCalls hs htip hft hc
    obtain rfl := TipCall.disconnect.inj hcall
    refine ⟨p, hup, fun hpm => hpf ?_⟩
    have hp : p < s.size := hs.shape.tree.graded.anc_mem hsize hpt
    exact (hs.shape.tree.graded.anc_antisymm hp hfp (hlast p hpm hpt)).symm
  · split at hc
    · exact absurd hc not_disconnect_loopCalls
    · simp at hc

/-- Every block that is disconnected is no ancestor of some candidate. -/
theorem disconnect_activateCalls {turns : Nat} (hs : IndexInv N s)
    (hc : TipCall.disconnect u ∈ activateCalls N pblock turns s) :
    ∃ p, u.tip = some p ∧ ∃ m ∈ s.setBlockIndexCandidates, ¬ Anc s.par p m := by
  induction turns generalizing s with
  | zero => simp [activateCalls] at hc
  | succ turns ih =>
    unfold activateCalls at hc
    cases hfind : findMostWorkChain s with
    | mk found s₁ =>
      obtain ⟨hmoves, -, hsome⟩ := findMostWorkChain_spec hs hfind
      have hs₁ := hmoves.inv hs
      have hpar₁ : s₁.par = s.par := hmoves.narrowed.shape.par
      rw [hfind] at hc
      split at hc
      · next m s₂ heq =>
          cases heq
          have hmost := hsome m rfl
          have hmem := hmoves.narrowed.candidates m hmost.candidate
          split_ifs at hc
          · simp at hc
          · rcases mem_append.mp hc with hc | hc
            · obtain ⟨p, hup, hnot⟩ := disconnect_stepCalls hs₁ (hs₁.flow.candidates m hmost.candidate).1 hc
              rw [hpar₁] at hnot
              exact ⟨p, hup, m, hmem, hnot⟩
            · cases hstep : activateBestChainStep N s₁ m (blockOf N s₁ pblock m) with
              | mk r s₂ =>
                rw [hstep] at hc
                have hmoves₂ := activateBestChainStep_moves hs₁ hmost (blockOf_fits N s₁ pblock m) hstep
                cases r with
                | error stop => simp at hc
                | ok u =>
                  simp only at hc
                  split_ifs at hc
                  · simp at hc
                  · obtain ⟨p, hup, m', hm', hnot⟩ := ih (hmoves₂.inv hs₁) hc
                    have hpar₂ : s₂.par = s₁.par := hmoves₂.narrowed.shape.par
                    rw [hpar₂, hpar₁] at hnot
                    refine ⟨p, hup, m', ?_, hnot⟩
                    exact hmoves.narrowed.candidates m' (hmoves₂.narrowed.candidates m' hm')
      · simp at hc

/-! ## Their number -/

/-- What holds only near the end of a list holds for few of its elements. -/
theorem countP_le_of_near_end {α : Type} {P : α → Bool} {l : List α} {k : Nat}
    (h : ∀ i a, l[i]? = some a → P a → l.length ≤ i + k) : l.countP P ≤ k := by
  have hfront : (l.take (l.length - k)).countP P = 0 := by
    rw [countP_eq_zero]
    intro a ha hP
    obtain ⟨i, hi⟩ := mem_iff_getElem?.mp ha
    rw [getElem?_take] at hi
    split_ifs at hi with hlt
    have hle := h i a hi hP
    omega
  have hback : (l.drop (l.length - k)).countP P ≤ k := by
    refine (countP_le_length).trans ?_
    rw [length_drop]
    omega
  rw [← take_append_drop (l.length - k) l, countP_append, hfront]
  omega

/-- A block that is disconnected lies above the fork of some candidate. -/
theorem reorgDepth_le (hs : IndexInv N s) (hshallow : s.Shallow N) (pblock : Option CBlock) (turns : Nat) :
    reorgDepth N pblock turns s ≤ N.P.maxReorganizationDepth := by
  obtain ⟨t, htip⟩ := hs.exists_tip
  obtain ⟨hsize, hends, -⟩ := hs.tip_eq htip
  refine countP_le_of_near_end fun i block hblock hdis => ?_
  obtain ⟨p, rfl, hany⟩ := (Option.any_eq_true _ _).mp hdis
  obtain ⟨c, hc, hcall⟩ := any_eq_true.mp hany
  obtain ⟨hpt, hheight⟩ := (hends.getElem? hs.shape.tree hsize i).mp hblock
  cases c with
  | connect u q b => simp [TipCall.disconnects] at hcall
  | disconnect u =>
    simp only [TipCall.disconnects, Bool.and_eq_true, decide_eq_true_eq] at hcall
    obtain ⟨q, huq, m, hm, hnot⟩ := disconnect_activateCalls hs hc
    cases hcall.1.symm.trans huq
    have hmsize := (hs.flow.candidates m hm).1
    obtain ⟨f, hfork, hfm, hft, -⟩ := hends.findFork_eq hs.shape.tree hsize hmsize
    have hdepth := hshallow m hm f hfork
    -- Both lie on the active chain; at or below the fork, `p` would be an ancestor of `m`.
    have habove : s.ht f < s.ht p := by
      by_contra hle
      have hpf : Anc s.par p f := hs.shape.tree.graded.anc_of_height_le hsize hpt hft (Nat.not_lt.mp hle)
      exact hnot (hpf.trans hfm)
    have hpi : s.ht p = i := hheight
    omega

end

/-! ## Whole runs -/

/-- A run of calls, each with the state in which it is made. -/
inductive CallRun (N : Node) : NodeState → List (Op × NodeState) → NodeState → Prop where
  | done (s : NodeState) : CallRun N s [] s
  | call {s s₁ s' : NodeState} {calls : List (Op × NodeState)} (op : Op) (step : Step N op s s₁)
      (rest : CallRun N s₁ calls s') : CallRun N s ((op, s) :: calls) s'

theorem CallRun.reachable {N : Node} {s s' : NodeState} {calls : List (Op × NodeState)} (h : CallRun N s calls s')
    (hs : Reachable N s) : ∀ c ∈ calls, Reachable N c.2 := by
  induction h with
  | done => simp
  | call op step _ ih =>
    intro c hc
    rcases mem_cons.mp hc with rfl | hc
    · exact hs
    · exact ih (.step op hs step) c hc

/-- In every run whose calls of `ActivateBestChain` find shallow candidates, none of them disconnects more blocks of
the chain then active than the maximum reorganisation depth. -/
theorem run_reorgDepth_le {N : Node} {s s' : NodeState} {calls : List (Op × NodeState)} (hs : Reachable N s)
    (hrun : CallRun N s calls s')
    (hshallow : ∀ pblock turns t, (.activateBestChain pblock turns, t) ∈ calls → t.Shallow N) :
    ∀ pblock turns t, (.activateBestChain pblock turns, t) ∈ calls →
      reorgDepth N pblock turns t ≤ N.P.maxReorganizationDepth := by
  intro pblock turns t hmem
  have ht : Reachable N t := hrun.reachable hs _ hmem
  exact reorgDepth_le ht.inv (hshallow pblock turns t hmem) pblock turns

namespace Example

/-- A node that allows reorganisations of one block only. -/
def shortNode : Node where
  P := { node.P with maxReorganizationDepth := 1 }
  C := node.C
  world := node.world

def shortStart : NodeState :=
  left (initBlockIndex shortNode genesisBlock addresses 2)

theorem reachable_shortStart : Reachable shortNode shortStart :=
  .init ⟨by decide, by decide, by decide⟩ (eq_some_left (by decide)) (by decide)

/-- A block with a coinbase of its own. -/
def branchBlock (hashPrevBlock : Uint256) (nTime nNonce : Nat) : CBlock :=
  { block 2 [{ coinbaseTx [keyOut 20] with nTime := 100 + nNonce }] [] with
    hashPrevBlock := hashPrevBlock, nTime := nTime, nBits := nodeBits, nNonce := nNonce }

/-- Two blocks are activated, and one of another branch is announced before them. -/
def mainCalls : List Op :=
  [.acceptBlockHeader (branchBlock 7000 210 2).toCBlockHeader, .acceptBlock (branchBlock 7000 200 1),
    .activateBestChain none 2, .acceptBlock (branchBlock 7001 300 3), .activateBestChain none 2]

/-- The blocks of the other branch follow. -/
def sideCalls : List Op :=
  [.acceptBlock (branchBlock 7000 210 2), .acceptBlock (branchBlock 7002 310 4), .acceptBlock (branchBlock 7004 400 5)]

/-- The calls with the states in which they are made. -/
def trace (N : Node) : NodeState → List Op → List (Op × NodeState)
  | _, [] => []
  | s, op :: ops => (op, s) :: trace N (after N s op) ops

theorem callRun_trace {N : Node} {ops : List Op} {s : NodeState}
    (h : ((trace N s ops).all fun c => returned (c.1.run N c.2))) :
    CallRun N s (trace N s ops) (ops.foldl (after N) s) := by
  induction ops generalizing s with
  | nil => exact .done s
  | cons op ops ih =>
    rw [trace, all_cons, Bool.and_eq_true] at h
    exact .call op (step_after h.1) (ih h.2)

theorem mem_trace (N : Node) (s : NodeState) (before : List Op) (op : Op) (rest : List Op) :
    (op, before.foldl (after N) s) ∈ trace N s (before ++ op :: rest) := by
  induction before generalizing s with
  | nil => exact mem_cons_self
  | cons first before ih => exact mem_cons_of_mem _ (ih (after N s first))

end Example

open Example

/-- The second activation, which finds one more block on the active chain. -/
theorem run_reorgDepth_le_example :
    reorgDepth shortNode none 2
        ((mainCalls.take 4).foldl (after shortNode) shortStart) ≤
      shortNode.P.maxReorganizationDepth := by
  have hshallow : ∀ c ∈ trace shortNode shortStart mainCalls, c.2.Shallow shortNode := by
    decide
  have hrun : CallRun shortNode shortStart
      (trace shortNode shortStart mainCalls)
      (mainCalls.foldl (after shortNode) shortStart) :=
    callRun_trace (by decide)
  exact run_reorgDepth_le reachable_shortStart
    hrun (fun _ _ _ hmem => hshallow _ hmem) none 2 _
    (mem_trace _ _ (mainCalls.take 4) _ [])

/-- The header of a branch is accepted while it is one block below the tip.  When the blocks above it have come, two
blocks are disconnected at once. -/
theorem reorg_too_deep : Reachable shortNode shortStart ∧
    (∃ s', CallRun shortNode shortStart (trace shortNode shortStart
      (mainCalls ++ sideCalls ++ [.activateBestChain none 3])) s') ∧
    ∃ t, (.activateBestChain none 3, t) ∈ trace shortNode shortStart
        (mainCalls ++ sideCalls ++ [.activateBestChain none 3]) ∧
      shortNode.P.maxReorganizationDepth = 1 ∧ reorgDepth shortNode none 3 t = 2 :=
  ⟨reachable_shortStart, ⟨_, callRun_trace (by decide +kernel)⟩, _, mem_trace _ _ _ _ _, rfl, by decide +kernel⟩

end Reddcoin
