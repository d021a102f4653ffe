import Reddcoin.Index.ProofHash
import Reddcoin.Index.ReorgDepth
import Reddcoin.Index.StakeRecord

/-!
# The kernel checks behind the candidates

`ReceivedBlockTransactions` verifies the block that was received in every turn of its queue, also when the turn
links another entry.  So the stake of an entry that waited for its parent is never looked at.
-/

namespace Reddcoin

open Relation (ReflTransGen TransGen)

namespace NodeState

variable (s : NodeState)

/-- `CheckProofOfStake` has returned true for the coinstake and the target of the block that is stored for `p`. -/
def KernelChecked (p : Ptr) : Prop :=
  ∃ block coinstake, s.blockFile p = some block ∧ block.isProofOfStake = true ∧
    block.vtx[1]? = some coinstake ∧ (coinstake, block.nBits) ∈ s.stakeChecks

/-- The entry `c` waits for the data of `p`. -/
def Waits (p c : Ptr) : Prop :=
  (p, c) ∈ s.mapBlocksUnlinked

/-- The received block is the only one with a stake that its entry `p` brings into the chains: the entry counts as
proof-of-stake only with a coinstake, and nothing that waits for it does. -/
structure OwnKernel (block : CBlock) (p : Ptr) : Prop where
  received : (s.entry p).fProofOfStake = true → block.isProofOfStake = true
  waiting : ∀ c, TransGen s.Waits p c → (s.entry c).fProofOfStake = false

end NodeState

/-- `AcceptBlock` goes on to `ReceivedBlockTransactions`, for the entry `p` and in the state `s₁`. -/
structure Receives (N : Node) (s : NodeState) (block : CBlock) (p : Ptr) (s₁ : NodeState) : Prop where
  header : acceptBlockHeader N s block.toCBlockHeader = (.ok p, s₁)
  empty : s₁.haveData p = false
  check : Receivable N s₁ block p

section

variable {N : Node} {s₀ s s' : NodeState} {block : CBlock} {p c : Ptr}

/-! ## The turns of the queue -/

/-- What the turns leave, that started in the state `s₀` with the entry `p` of the received block. -/
structure Drained (N : Node) (block : CBlock) (p : Ptr) (s₀ s : NodeState) : Prop where
  blockFile : s.blockFile = s₀.blockFile
  flag : ∀ q, (s.entry q).fProofOfStake = (s₀.entry q).fProofOfStake
  candidates : ∀ c ∈ s.setBlockIndexCandidates, c ∈ s₀.setBlockIndexCandidates ∨ (ReflTransGen s₀.Waits p c ∧
      ∀ coinstake, stakeCheckOf N block = some coinstake → (coinstake, block.nBits) ∈ s.stakeChecks)

/-- What one turn changes, whether it passes its checks or not. -/
structure Turned (N : Node) (block : CBlock) (p : Ptr) (s s' : NodeState) : Prop where
  blockFile : s'.blockFile = s.blockFile
  flag : ∀ q, (s'.entry q).fProofOfStake = (s.entry q).fProofOfStake
  unlinked : s'.mapBlocksUnlinked ⊆ s.mapBlocksUnlinked
  stakeChecks : s.stakeChecks ⊆ s'.stakeChecks
  candidates : ∀ c ∈ s'.setBlockIndexCandidates, c ∈ s.setBlockIndexCandidates ∨
    (c = p ∧ ∀ coinstake, stakeCheckOf N block = some coinstake → (coinstake, block.nBits) ∈ s'.stakeChecks)

theorem recordStakeCheck_subset (N : Node) (block : CBlock) (s : NodeState) :
    s.stakeChecks ⊆ (s.recordStakeCheck N block).stakeChecks := by
  intro check hcheck
  simp only [NodeState.recordStakeCheck]
  split
  · exact hcheck
  · exact List.mem_cons_of_mem _ hcheck

theorem mem_recordStakeCheck {coinstake : CTransaction} (h : stakeCheckOf N block = some coinstake) (s : NodeState) :
    (coinstake, block.nBits) ∈ (s.recordStakeCheck N block).stakeChecks := by
  simp only [NodeState.recordStakeCheck, h]
  exact List.mem_cons_self

theorem link_fProofOfStake (q : Ptr) : ((s.link p).entry q).fProofOfStake = (s.entry q).fProofOfStake := by
  by_cases hq : q = p
  · rw [hq, link_entry_self]
  · rw [link_entry_ne hq]

/-- A turn that fails inserts no candidate. -/
theorem Turned.of_staked (h : Staked (s.link p) s' p) (hchecks : s.stakeChecks ⊆ s'.stakeChecks) :
    Turned N block p s s' where
  blockFile := h.blockFile
  flag q := (h.entry q).fProofOfStake.trans (link_fProofOfStake q)
  unlinked := by
    rw [h.unlinked]
    exact List.Subset.refl _
  stakeChecks := hchecks
  candidates c hc := by
    rw [h.candidates] at hc
    exact .inl hc

theorem Staked.refl (s : NodeState) (p : Ptr) : Staked s s p :=
  ⟨fun _ => .refl _, fun _ _ => rfl, rfl, rfl, rfl, rfl, rfl, rfl, rfl, rfl, rfl⟩

theorem linkEntry_turned (N : Node) (env : Env) (block : CBlock) (s : NodeState) (p : Ptr) :
    Turned N block p s (linkEntry N env 0 block s p).2 := by
  rcases linkEntry_cases N env 0 block s p with
    ⟨stop, h⟩ | ⟨s₁, hrecord, ⟨stop, h⟩ | ⟨m, g, -, ⟨stop, h⟩ | h⟩⟩
  · rw [h]
    exact .of_staked (.refl _ p) (List.Subset.refl _)
  all_goals
    have hst := recordProofHash_staked hrecord
    obtain ⟨-, rfl⟩ := recordProofHash_zero hrecord
    have hsub : s.stakeChecks ⊆ ((s.link p).recordStakeCheck N block).stakeChecks :=
      recordStakeCheck_subset N block (s.link p)
  · rw [h]
    exact .of_staked hst hsub
  · rw [h]
    exact .of_staked (hst.trans (setQueued_staked _ p (setStakeModifier_same m g))) hsub
  · -- The candidate is offered once the check of the received block is recorded.
    have hby := (linkEntry_ok h).1
    rw [h]
    refine ⟨hby.blockFile, hby.fProofOfStake, ?_, hsub, fun c hc => ?_⟩
    · rw [hby.unlinked]
      exact List.filter_sublist.subset
    · rcases (hby.candidates c).mp hc with hold | ⟨hself, -⟩
      · exact .inl hold
      · exact .inr ⟨hself, fun coinstake hstake => mem_recordStakeCheck hstake (s.link p)⟩

/-- A turn for an entry that waits for `p`, directly or through others. -/
theorem Drained.step (h : Drained N block p s₀ s) (hc : ReflTransGen s₀.Waits p c)
    (hturn : Turned N block c s s') : Drained N block p s₀ s' where
  blockFile := hturn.blockFile.trans h.blockFile
  flag q := (hturn.flag q).trans (h.flag q)
  candidates q hq := by
    rcases hturn.candidates q hq with hold | ⟨hself, hchecked⟩
    · rcases h.candidates q hold with hbefore | ⟨hwaits, hchecked⟩
      · exact .inl hbefore
      · exact .inr ⟨hwaits, fun coinstake hstake => hturn.stakeChecks (hchecked coinstake hstake)⟩
    · rw [hself]
      exact .inr ⟨hc, hchecked⟩

/-- The whole queue, also when a turn fails and ends it. -/
theorem linkQueue_drained (env : Env) (turns : Nat) {queue : List Ptr} (h : Drained N block p s₀ s)
    (hunlinked : s.mapBlocksUnlinked ⊆ s₀.mapBlocksUnlinked)
    (hqueue : ∀ c ∈ queue, ReflTransGen s₀.Waits p c) :
    Drained N block p s₀ (linkQueue N env 0 block turns s queue).2 := by
  induction turns generalizing s queue with
  | zero => exact h
  | succ turns ih =>
    cases queue with
    | nil => exact h
    | cons c queue =>
      have hc := hqueue c List.mem_cons_self
      have hturn := linkEntry_turned N env block s c
      rw [linkQueue]
      cases hentry : linkEntry N env 0 block s c with
      | mk r s' =>
        rw [hentry] at hturn
        cases r with
        | error stop => exact h.step hc hturn
        | ok waiting =>
          refine ih (h.step hc hturn) (List.Subset.trans hturn.unlinked hunlinked) fun d hd => ?_
          rcases List.mem_append.mp hd with hd | hd
          · exact hqueue d (List.mem_cons_of_mem _ hd)
          · -- What comes from the map waited for `c` from the beginning.
            rw [(linkEntry_ok hentry).1.waiting, mem_waitingFor] at hd
            exact hc.tail (hunlinked hd)

/-! ## One call -/

/-- The candidates that `ReceivedBlockTransactions` inserts are the entry of the block, whose kernel is checked, and
entries that wait for it. -/
theorem receivedBlockTransactions_drained (env : Env) (s : NodeState) (block : CBlock) (p : Ptr) :
    Drained N block p (receiveData N s block p) (receivedBlockTransactions N env 0 s block p).2 := by
  have hstart : Drained N block p (receiveData N s block p) (receiveData N s block p) :=
    ⟨rfl, fun _ => rfl, fun _ hc => .inl hc⟩
  rcases receivedBlockTransactions_cases N env 0 s block p with
    ⟨-, h⟩ | ⟨q, -, -, ⟨-, h⟩ | ⟨-, h⟩⟩
  · rw [h]
    refine linkQueue_drained env _ hstart (List.Subset.refl _) fun c hc => ?_
    cases List.mem_singleton.mp hc
    exact .refl
  · rw [h]
    exact ⟨rfl, fun _ => rfl, fun _ hc => .inl hc⟩
  · rw [h]
    exact hstart

/-- The coinstake of a received block is the one that is checked. -/
theorem stakeCheckOf_received (hs : IndexInv N s) (hp : p < s.size) (hempty : s.haveData p = false)
    (hhash : block.getHash N.C = (s.entry p).hash) {coinstake : CTransaction} (hstake : block.isProofOfStake)
    (hcoinstake : block.vtx[1]? = some coinstake) : stakeCheckOf N block = some coinstake := by
  have hunlinked : s.linked p = false := by
    by_contra h
    rw [Bool.not_eq_false] at h
    have hdata := hs.flow.linked_data p hp h
    rw [hempty] at hdata
    simp at hdata
  obtain ⟨q, hpar⟩ := hs.par_of_unlinked hp hunlinked
  unfold stakeCheckOf
  rw [if_neg (hs.getHash_ne_genesis hp hpar hhash), if_pos hstake]
  exact hcoinstake

theorem receivedBlockTransactions_kernelChecked (hs : IndexInv N s) {env : Env} (hp : p < s.size)
    (hempty : s.haveData p = false) (hhash : block.getHash N.C = (s.entry p).hash) (hown : s.OwnKernel block p)
    (hs' : (receivedBlockTransactions N env 0 s block p).2 = s') (hc : c ∈ s'.setBlockIndexCandidates)
    (hnew : c ∉ s.setBlockIndexCandidates) (hflag : (s'.entry c).fProofOfStake) : s'.KernelChecked c := by
  subst hs'
  have hdrained := receivedBlockTransactions_drained (N := N) env s block p
  rcases hdrained.candidates c hc with hold | ⟨hwaits, hchecked⟩
  · exact absurd hold hnew
  rw [hdrained.flag] at hflag
  by_cases hself : c = p
  · subst hself
    have hstake : block.isProofOfStake = true := by
      rw [receiveData_entry_self, receivedEntry_fProofOfStake, Bool.or_eq_true] at hflag
      rcases hflag with hflag | hflag
      · exact hown.received hflag
      · exact (Bool.and_eq_true_iff.mp hflag).1
    obtain ⟨coinstake, hcoinstake, -⟩ := CBlock.isProofOfStake_iff.mp hstake
    refine ⟨block, coinstake, ?_, hstake, hcoinstake, ?_⟩
    · rw [hdrained.blockFile]
      exact if_pos rfl
    · exact hchecked coinstake (stakeCheckOf_received hs hp hempty hhash hstake hcoinstake)
  · -- An entry that waited is not proof-of-stake.
    exfalso
    rw [receiveData_entry_ne hself] at hflag
    rcases Relation.reflTransGen_iff_eq_or_transGen.mp hwaits with heq | hwaits
    · exact hself heq
    · have hwork := hown.waiting c hwaits
      rw [hflag] at hwork
      simp at hwork

/-! ## Whole runs -/

/-- In every run in which each received block is the only one with a stake that its entry brings into the chains,
each proof-of-stake entry that `ReceivedBlockTransactions` makes a candidate had its own kernel checked. -/
theorem run_kernelChecked {calls : List (Op × NodeState)} (hs : Reachable N s) (hrun : CallRun N s calls s')
    (hown : ∀ block t p t₁, (.acceptBlock block, t) ∈ calls → Receives N t block p t₁ → t₁.OwnKernel block p) :
    ∀ block t p t₁ t₂, (.acceptBlock block, t) ∈ calls → Receives N t block p t₁ →
      (receivedBlockTransactions N (N.env t₁) 0 t₁ block p).2 = t₂ →
      ∀ c ∈ t₂.setBlockIndexCandidates, c ∉ t₁.setBlockIndexCandidates →
        (t₂.entry c).fProofOfStake = true → t₂.KernelChecked c := by
  intro block t p t₁ t₂ hmem hreceives ht₂ c hc hnew hflag
  have ht : Reachable N t := hrun.reachable hs _ hmem
  obtain ⟨hinv, hp, -, hhash⟩ := acceptBlockHeader_ok ht.inv hreceives.header
  exact receivedBlockTransactions_kernelChecked hinv hp hreceives.empty hhash.symm
    (hown block t p t₁ hmem hreceives) ht₂ hc hnew hflag

end

namespace Example

def firstLate : CBlock :=
  nodeBlock 7000 28000 1

def secondLate : CBlock :=
  nodeBlock 7001 28010 2

theorem reachable_stakeStart : Reachable stakeNode stakeStart :=
  .init ⟨by decide, by decide, by decide⟩ (eq_some_left (by decide)) (by decide)

/-- The proof-of-stake block comes after the blocks below it. -/
def orderedCalls : List Op :=
  [.processNewBlock 3 firstLate, .processNewBlock 3 secondLate]

/-- The proof-of-stake block comes before the data of the blocks below it. -/
def earlyCalls : List Op :=
  [.acceptBlockHeader firstLate.toCBlockHeader, .acceptBlockHeader secondLate.toCBlockHeader,
    .acceptBlock stakingBlock, .acceptBlock firstLate]

def ordered : NodeState :=
  orderedCalls.foldl (after stakeNode) stakeStart

def early : NodeState :=
  earlyCalls.foldl (after stakeNode) stakeStart

/-- The header of a block is accepted. -/
def announced (s : NodeState) (block : CBlock) : NodeState :=
  (acceptBlockHeader stakeNode s block.toCBlockHeader).2

/-- The data of a block is stored for the entry `p`. -/
def stored (s : NodeState) (block : CBlock) (p : Ptr) : NodeState :=
  (receivedBlockTransactions stakeNode (stakeNode.env s) 0 s block p).2

theorem receives_ordered : Receives stakeNode ordered stakingBlock 3 (announced ordered stakingBlock) where
  header := eq_ok_state (by decide)
  empty := by decide
  check := ⟨by rfl, by decide, by rfl, by rfl⟩

theorem receives_early : Receives stakeNode early secondLate 2 (announced early secondLate) where
  header := eq_ok_state (by decide)
  empty := by decide
  check := ⟨by rfl, by decide, by rfl, by rfl⟩

/-- Nothing waits for the proof-of-stake block when it comes last. -/
theorem ownKernel_ordered {p : Ptr} {s₁ : NodeState} (h : Receives stakeNode ordered stakingBlock p s₁) :
    s₁.OwnKernel stakingBlock p := by
  obtain rfl : s₁ = announced ordered stakingBlock := congrArg Prod.snd h.header.symm
  refine ⟨fun _ => by decide, fun c hc => ?_⟩
  obtain ⟨d, hd, -⟩ := Relation.TransGen.head'_iff.mp hc
  have hempty : (announced ordered stakingBlock).mapBlocksUnlinked = [] := by decide
  have hd : (p, d) ∈ (announced ordered stakingBlock).mapBlocksUnlinked := hd
  rw [hempty] at hd
  simp at hd

end Example

open Example

/-- The stake of a block that comes after the blocks below it is checked. -/
theorem run_kernelChecked_example :
    (stored (announced ordered stakingBlock) stakingBlock 3).KernelChecked
      3 := by
  have hrun : CallRun stakeNode stakeStart
      (trace stakeNode stakeStart
        (orderedCalls ++ [.acceptBlock stakingBlock]))
      ((orderedCalls ++ [Op.acceptBlock stakingBlock]).foldl (after stakeNode)
        stakeStart) :=
    callRun_trace (by decide)
  refine run_kernelChecked reachable_stakeStart hrun ?_ stakingBlock ordered 3 _ _
    (mem_trace _ _ orderedCalls _ []) receives_ordered rfl 3 (by decide) (by decide)
    (by decide)
  intro block t p t₁ hmem hreceives
  simp only [orderedCalls, trace, List.cons_append, List.nil_append, List.mem_cons, Prod.mk.injEq,
    reduceCtorEq, false_and, false_or, List.not_mem_nil, or_false, Op.acceptBlock.injEq] at hmem
  obtain ⟨rfl, rfl⟩ := hmem
  exact ownKernel_ordered hreceives

/-- The data of a proof-of-stake block comes before that of its parent.  When the parent comes the entry is a
candidate, although `CheckProofOfStake` never ran, and would have returned false. -/
theorem early_stake_unchecked : Reachable stakeNode stakeStart ∧
    (∃ s', CallRun stakeNode stakeStart (trace stakeNode stakeStart
      (earlyCalls ++ [.acceptBlock secondLate])) s') ∧
    (.acceptBlock secondLate, early) ∈ trace stakeNode stakeStart
      (earlyCalls ++ [.acceptBlock secondLate]) ∧
    Receives stakeNode early secondLate 2
      (announced early secondLate) ∧
    3 ∉ (announced early secondLate).setBlockIndexCandidates ∧
    ∃ s₂, (receivedBlockTransactions stakeNode
        (stakeNode.env (announced early secondLate)) 0
        (announced early secondLate) secondLate 2).2 = s₂ ∧
      3 ∈ s₂.setBlockIndexCandidates ∧ (s₂.entry 3).fProofOfStake = true ∧
      s₂.blockFile 3 = some stakingBlock ∧ stakingBlock.vtx[1]? = some coinstakeTx ∧
      checkProofOfStake stakeNode s₂ coinstakeTx stakingBlock.nBits = none ∧
      ¬ s₂.KernelChecked 3 := by
  refine ⟨reachable_stakeStart, ⟨_, callRun_trace (by decide)⟩,
    mem_trace _ _ earlyCalls _ [], receives_early, by decide,
    stored (announced early secondLate) secondLate 2, rfl, by decide,
    by decide, by decide, by decide, by decide, ?_⟩
  rintro ⟨block, coinstake, -, -, -, hmem⟩
  have hnone : (stored (announced early secondLate)
      secondLate 2).stakeChecks = [] := by
    decide
  rw [hnone] at hmem
  simp at hmem

end Reddcoin
