import Reddcoin.Index.KernelChecked
import Reddcoin.Index.Poisoning

/-!
# Blocks that are turned away

`AcceptBlock` makes its checks before `ReceivedBlockTransactions` stores the block, and that function makes some more
afterwards.  A block that fails one of the first leaves an entry without data, and such an entry is never a candidate.
A block that fails one of the others is stored like one that passes.
-/

namespace Reddcoin

/-- The entry is marked failed, or has no data and no number of transactions. -/
def NodeState.Dropped (s : NodeState) (p : Ptr) : Prop :=
  s.failed p = true ∨ (s.haveData p = false ∧ (s.entry p).nChainTx = 0)

/-- The call hands the block to `AcceptBlock`. -/
def Op.Submits (block : CBlock) : Op → Prop
  | acceptBlock b => b = block
  | processNewBlock _ b => b = block
  | _ => False

/-- `AcceptBlock` turns the block away once its header is indexed, as the entry `p` and in the state `s₁`. -/
structure Rejects (N : Node) (s : NodeState) (block : CBlock) (p : Ptr) (s₁ s' : NodeState) : Prop where
  header : acceptBlockHeader N s block.toCBlockHeader = (.ok p, s₁)
  rejected : ∃ state, acceptBlock N s block = (.error (.returns state), s')

/-- No call hands a block with the hash to `ReceivedBlockTransactions`. -/
def NoneReceived (N : Node) (hash : Uint256) (calls : List (Op × NodeState)) : Prop :=
  ∀ op t block, (op, t) ∈ calls → op.Submits block → block.getHash N.C = hash → ∀ p t₁, ¬ Receives N t block p t₁

/-- As long as no block with the hash is received, its entry is no candidate and not active. -/
def NeverActive (N : Node) (hash : Uint256) (s : NodeState) : Prop :=
  ∀ calls u, CallRun N s calls u → NoneReceived N hash calls →
    ∀ p < u.size, (u.entry p).hash = hash → p ∉ u.setBlockIndexCandidates ∧ some p ∉ u.chainActive

section

variable {N : Node} {s s₁ s' : NodeState} {block : CBlock} {p q : Ptr}

/-! ## The status of the entries -/

theorem linkEntry_nStatus (N : Node) (env : Env) (block : CBlock) (s : NodeState) (p q : Ptr) :
    ((linkEntry N env 0 block s p).2.entry q).nStatus = (s.entry q).nStatus := by
  rcases linkEntry_cases N env 0 block s p with
    ⟨stop, h⟩ | ⟨s₁, hrecord, ⟨stop, h⟩ | ⟨m, g, -, ⟨stop, h⟩ | h⟩⟩
  · rw [h]
    exact link_nStatus q
  · rw [h]
    exact ((recordProofHash_staked hrecord).entry q).nStatus.trans (link_nStatus q)
  all_goals
    have hst := (recordProofHash_staked hrecord).trans (setQueued_staked _ p (setStakeModifier_same m g))
    rw [h]
    exact (hst.entry q).nStatus.trans (link_nStatus q)

theorem linkQueue_nStatus (N : Node) (env : Env) (block : CBlock) (turns : Nat) (s : NodeState) (queue : List Ptr)
    (q : Ptr) : ((linkQueue N env 0 block turns s queue).2.entry q).nStatus = (s.entry q).nStatus := by
  induction turns generalizing s queue with
  | zero => rfl
  | succ turns ih =>
    cases queue with
    | nil => rfl
    | cons p queue =>
      have hturn := linkEntry_nStatus N env block s p q
      rw [linkQueue]
      cases h : linkEntry N env 0 block s p with
      | mk r s' =>
        rw [h] at hturn
        cases r with
        | error stop => exact hturn
        | ok waiting => exact (ih s' (queue ++ waiting)).trans hturn

theorem receivedBlockTransactions_nStatus (N : Node) (env : Env) (s : NodeState) (block : CBlock) (p q : Ptr) :
    ((receivedBlockTransactions N env 0 s block p).2.entry q).nStatus = ((receiveData N s block p).entry q).nStatus := by
  rcases receivedBlockTransactions_cases N env 0 s block p with ⟨-, h⟩ | ⟨a, -, -, ⟨-, h⟩ | ⟨-, h⟩⟩
  · rw [h]
    exact linkQueue_nStatus N env block _ _ _ q
  · rw [h]
    rfl
  · rw [h]

/-! ## One call -/

section

variable (hs : IndexInv N s) (hp : p < s.size) (hempty : s.haveData p = false)

include hs hp hempty

/-- Without data an entry is not linked, and so neither a candidate nor active. -/
theorem IndexInv.linked_of_empty : s.linked p = false := by
  rw [Bool.eq_false_iff]
  intro hlinked
  rw [hs.flow.linked_data p hp hlinked] at hempty
  cases hempty

theorem IndexInv.not_candidate : p ∉ s.setBlockIndexCandidates := by
  intro hmem
  have hlinked := (hs.flow.candidates p hmem).2
  rw [hs.linked_of_empty hp hempty] at hlinked
  cases hlinked

theorem IndexInv.not_active : some p ∉ s.chainActive := by
  intro hmem
  obtain ⟨t, htip⟩ := hs.exists_tip
  obtain ⟨htsize, -, htlinked, -⟩ := hs.tip_eq htip
  have hlinked := hs.linked_anc htsize htlinked ((hs.mem_chainActive htip).mp hmem)
  rw [hs.linked_of_empty hp hempty] at hlinked
  cases hlinked

theorem IndexInv.dropped_of_empty : s.Dropped p := by
  have hlinked : decide ((s.entry p).nChainTx ≠ 0) = false := hs.linked_of_empty hp hempty
  exact .inr ⟨hempty, of_not_not (of_decide_eq_false hlinked)⟩

end

theorem Receivable.acceptBlockData_eq (h : Receivable N s block p) :
    acceptBlockData N s block p = receivedBlockTransactions N (N.env s) 0 s block p := by
  simp only [acceptBlockData, h.check, h.final, h.dev, h.canWrite, Bool.not_true, Bool.false_eq_true, if_false]

/-- A block that passes the checks is stored, also when `ReceivedBlockTransactions` fails. -/
theorem Receivable.stores (h : Receivable N s block p) : (acceptBlockData N s block p).2.haveData p ∧
    (acceptBlockData N s block p).2.failed p = s.failed p := by
  have hstatus := receivedBlockTransactions_nStatus N (N.env s) s block p p
  rw [receiveData_entry_self] at hstatus
  rw [h.acceptBlockData_eq]
  constructor
  · exact (congrArg BlockStatus.haveData hstatus).trans (receivedEntry_haveData N _ block _)
  · exact (congrArg BlockStatus.failed hstatus).trans (receivedEntry_failed N _ block _)

/-- The data of the other entries stays as it is, and also that of the entry if the block fails a check. -/
theorem acceptBlockData_haveData (hq : Receivable N s block p → q ≠ p) :
    (acceptBlockData N s block p).2.haveData q = s.haveData q := by
  have hfail : ∀ t : NodeState, (t.failValid p).haveData q = t.haveData q := fun t =>
    entry_modify_keep (fun e => e.nStatus.haveData) t p CBlockIndex.failValid (fun _ => rfl) q
  rcases acceptBlockData_cases N s block p with ⟨stop, h⟩ | ⟨stop, h⟩ | ⟨stop, h⟩ | ⟨hcheck, h⟩
  · rw [h]
  · rw [h]
    exact hfail (s.noteQuiet .nonFinal p CBlockIndex.failValid)
  · rw [h]
    exact hfail s
  · have hstatus := receivedBlockTransactions_nStatus N (N.env s) s block p q
    rw [receiveData_entry_ne (hq hcheck)] at hstatus
    rw [h]
    exact congrArg BlockStatus.haveData hstatus

/-! ## Later calls -/

/-- There is an entry with the hash, and it has no data. -/
structure EmptyEntry (s : NodeState) (p : Ptr) (hash : Uint256) : Prop where
  size : p < s.size
  hash : (s.entry p).hash = hash
  empty : s.haveData p = false

/-- Entries are never lost, and they keep their hashes. -/
theorem Move.entry_hash (move : Move N s s') (hs : IndexInv N s) (hp : p < s.size) :
    p < s'.size ∧ (s'.entry p).hash = (s.entry p).hash := by
  have hs' := move.inv hs
  cases move with
  | user move =>
    have hkept := move.stakeKept
    have hp' : p < s'.size := hkept.size.symm ▸ hp
    have hheader := congrArg N.C.headerHash (hkept.header p hp)
    exact ⟨hp', (hs'.shape.hash p hp').symm.trans (hheader.trans (hs.shape.hash p hp))⟩
  | @add block q new prev =>
    refine ⟨Nat.lt_succ_of_lt hp, ?_⟩
    rw [addEntry_entry_old s _ hp]
  | failEmpty size empty | failQuiet size empty noted =>
    exact ⟨hp, entry_modify_keep CBlockIndex.hash s _ CBlockIndex.failValid (fun _ => rfl) p⟩
  | receive => exact ⟨hp, receiveData_sameShape.hash p⟩
  | link => exact ⟨hp, link_sameShape.hash p⟩
  | @stake f a same =>
    exact ⟨hp, entry_modify_keep CBlockIndex.hash s a f (fun e => congrArg EntryShape.hash (same e).shape) p⟩
  | drain | wait => exact ⟨hp, rfl⟩

theorem Moves.entry_hash (moves : Moves N s s') (hs : IndexInv N s) (hp : p < s.size) :
    p < s'.size ∧ (s'.entry p).hash = (s.entry p).hash := by
  induction moves with
  | refl => exact ⟨hp, rfl⟩
  | tail before move ih =>
    obtain ⟨hsize, hhash⟩ := move.entry_hash (Moves.inv before hs) ih.1
    exact ⟨hsize, hhash.trans ih.2⟩

variable {hash : Uint256}

section

variable (h : EmptyEntry s p hash) (hs : IndexInv N s)

include h hs

theorem EmptyEntry.moves (moves : Moves N s s') (hempty : s'.haveData p = s.haveData p) : EmptyEntry s' p hash := by
  obtain ⟨hsize, hhash⟩ := moves.entry_hash hs h.size
  exact ⟨hsize, hhash.trans h.hash, hempty.trans h.empty⟩

theorem EmptyEntry.userMoves (moves : UserMoves s s') : EmptyEntry s' p hash :=
  h.moves hs moves.moves (moves.stakeKept.haveData p h.size)

theorem EmptyEntry.acceptBlockHeader (header : CBlockHeader) : EmptyEntry (acceptBlockHeader N s header).2 p hash := by
  refine h.moves hs (acceptBlockHeader_moves hs header) ?_
  rcases acceptBlockHeader_cases hs header with ⟨a, -, -, hr⟩ | ⟨a, -, -, -, -, hr⟩ | ⟨stop, hr, -⟩
  · rw [hr]
  · rw [hr]
    exact congrArg (fun e => e.nStatus.haveData) (addEntry_entry_old s _ h.size)
  · rw [hr]

theorem EmptyEntry.acceptBlock (hnone : block.getHash N.C = hash → ∀ q t₁, ¬ Receives N s block q t₁) :
    EmptyEntry (acceptBlock N s block).2 p hash := by
  have hheader := h.acceptBlockHeader hs block.toCBlockHeader
  rcases acceptBlock_cases N s block with ⟨stop, heq, -⟩ | ⟨q, s₁, heq, ⟨-, hdata⟩ | ⟨hempty, hstate, -⟩⟩
  · rw [heq] at hheader
    exact hheader
  · rw [heq] at hheader
    rw [hdata]
    exact hheader
  · obtain ⟨hs₁, hq, hvalid, hhash⟩ := acceptBlockHeader_ok hs heq
    rw [heq] at hheader
    rw [hstate]
    refine hheader.moves hs₁ (acceptBlockData_moves hs₁ hq hempty hvalid hhash.symm) ?_
    refine acceptBlockData_haveData fun hcheck hpq => ?_
    -- The block that is received would be the one of the entry.
    have hsame : block.getHash N.C = hash := by
      rw [← hheader.hash, hpq]
      exact hhash.symm
    exact hnone hsame q s₁ ⟨heq, hempty, hcheck⟩

end

theorem Restarted.haveData (h : Restarted N s s') (hp : p < s.size) : s'.haveData p = s.haveData p := by
  obtain ⟨r, hr, hstored⟩ := h.entry p hp
  have hread : (s'.entry p).nStatus = (entryOfRecord N s.writeBlockIndex r).nStatus :=
    (congrArg CBlockIndex.nStatus hstored :)
  exact (congrArg BlockStatus.haveData hread).trans hr.haveData

theorem EmptyEntry.run (h : EmptyEntry s p hash) (hs : IndexInv N s) {op : Op} {r : Check Unit}
    (hrun : op.run N s = some (r, s'))
    (hnone : ∀ block, op.Submits block → block.getHash N.C = hash → ∀ q t₁, ¬ Receives N s block q t₁) :
    EmptyEntry s' p hash := by
  cases op with
  | acceptBlockHeader header =>
    cases hrun
    exact h.acceptBlockHeader hs header
  | acceptBlock block =>
    cases hrun
    exact h.acceptBlock hs (hnone block rfl)
  | activateBestChain pblock turns =>
    exact h.userMoves hs (activateBestChain_moves hs hrun).userMoves
  | processNewBlock turns block =>
    have haccepted := h.acceptBlock hs (hnone block rfl)
    rcases processNewBlock_cases hrun with rfl | ⟨stop, haccept⟩ | ⟨q, s₁, haccept, hactivate⟩
    · exact h
    · rw [haccept] at haccepted
      exact haccepted
    · have hs₁ := (acceptBlock_moves hs block).inv hs
      rw [haccept] at haccepted hs₁
      exact haccepted.userMoves hs₁ (activateBestChain_moves hs₁ hactivate).userMoves
  | invalidateBlock a =>
    simp only [Op.run] at hrun
    split_ifs at hrun with ha
    have hmoves := invalidateBlock_moves hs ha
    rw [Option.some.inj hrun] at hmoves
    exact h.userMoves hs hmoves
  | reconsiderBlock a =>
    simp only [Op.run] at hrun
    split_ifs at hrun with ha
    cases hrun
    exact h.userMoves hs (reconsiderBlock_moves hs ha)
  | restart A =>
    obtain ⟨-, hzero, hrun⟩ := run_restart hrun
    have hrestarted := restart_restarted hs hzero hrun
    exact ⟨hrestarted.size.symm ▸ h.size, (hrestarted.hash p h.size).trans h.hash,
      (hrestarted.haveData h.size).trans h.empty⟩

/-- An entry without data stays without data until its block is received. -/
theorem EmptyEntry.callRun {calls : List (Op × NodeState)} (h : EmptyEntry s p hash) (hs : Reachable N s)
    (hrun : CallRun N s calls s') (hnone : NoneReceived N hash calls) :
    EmptyEntry s' p hash ∧ Reachable N s' := by
  induction hrun with
  | done s => exact ⟨h, hs⟩
  | call op step rest ih =>
    have hnext := Reachable.step op hs step
    obtain ⟨r, s₁, hop, -, rfl⟩ := step
    have hempty : EmptyEntry s₁ p hash :=
      h.run hs.inv hop fun block hsub hhash => hnone op _ block List.mem_cons_self hsub hhash
    refine ih ⟨hempty.size, hempty.hash, hempty.empty⟩ hnext fun op t block hmem => ?_
    exact hnone op t block (List.mem_cons_of_mem _ hmem)

theorem run_entry_hash (hs : IndexInv N s) {op : Op} {r : Check Unit} (hrun : op.run N s = some (r, s'))
    (hp : p < s.size) : p < s'.size ∧ (s'.entry p).hash = (s.entry p).hash := by
  by_cases hop : ∃ A, op = .restart A
  · obtain ⟨A, rfl⟩ := hop
    obtain ⟨-, hzero, hrun⟩ := run_restart hrun
    have h := restart_restarted hs hzero hrun
    exact ⟨h.size.symm ▸ hp, h.hash p hp⟩
  · exact (run_moves hs hrun fun A h => hop ⟨A, h⟩).entry_hash hs hp

/-- A block that is indexed is found under its hash in every later state, also after restarts. -/
theorem run_find {calls : List (Op × NodeState)} (hs : Reachable N s) (hrun : CallRun N s calls s')
    (hfind : s.mapBlockIndex.find hash = some p) : s'.mapBlockIndex.find hash = some p := by
  induction hrun with
  | done => exact hfind
  | call op step rest ih =>
    have hnext := Reachable.step op hs step
    refine ih hnext ?_
    obtain ⟨hp, rfl⟩ := BlockMap.find_eq_some hfind
    obtain ⟨r, s₁, hop, -, rfl⟩ := step
    obtain ⟨hp', hhash⟩ := run_entry_hash hs.inv hop hp
    have hfound : s₁.mapBlockIndex.find (s₁.entry p).hash = some p := hnext.inv.shape.find_eq hp'
    rw [hhash] at hfound
    exact hfound

theorem Rejects.data (h : Rejects N s block p s₁ s') :
    s₁.haveData p = false ∧ s' = (acceptBlockData N s₁ block p).2 := by
  obtain ⟨state, hrejected⟩ := h.rejected
  rcases acceptBlock_cases N s block with ⟨stop, heq, -⟩ | ⟨q, t₁, heq, ⟨-, hdata⟩ | ⟨hempty, hstate, -⟩⟩
  · rw [h.header] at heq
    cases congrArg Prod.fst heq
  · rw [hrejected] at hdata
    cases congrArg Prod.fst hdata
  · rw [h.header] at heq
    obtain ⟨hp, rfl⟩ := Prod.mk.inj heq
    cases hp
    rw [hrejected] at hstate
    exact ⟨hempty, hstate⟩

theorem Rejects.step (h : Rejects N s block p s₁ s') : Step N (.acceptBlock block) s s'.tick := by
  obtain ⟨state, hrejected⟩ := h.rejected
  have hrun : (Op.acceptBlock block).run N s = some (.error (.returns state), s') :=
    congrArg (fun x : Call Ptr => some x.done) hrejected
  exact ⟨_, s', hrun, by simp, rfl⟩

/-- A block is turned away for good exactly when it fails a check before `ReceivedBlockTransactions`.  Otherwise it is
stored, and not marked. -/
theorem rejection_final_iff (hs : Reachable N s) (h : Rejects N s block p s₁ s') :
    (s'.Dropped p ∧ NeverActive N (block.getHash N.C) s'.tick) ↔ ¬ Receivable N s₁ block p := by
  obtain ⟨hs₁, hp, hvalid, hhash⟩ := acceptBlockHeader_ok hs.inv h.header
  obtain ⟨hempty, hstate⟩ := h.data
  constructor
  · intro hfinal hcheck
    obtain ⟨hdata, hfailed⟩ := hcheck.stores
    rw [← hstate] at hdata hfailed
    rcases hfinal.1 with hmarked | ⟨hnone, -⟩
    · rw [hfailed, hvalid] at hmarked
      cases hmarked
    · rw [hdata] at hnone
      cases hnone
  · intro hcheck
    have hstart : EmptyEntry s₁ p (block.getHash N.C) := ⟨hp, hhash, hempty⟩
    have hentry : EmptyEntry s' p (block.getHash N.C) := by
      rw [hstate]
      refine hstart.moves hs₁ (acceptBlockData_moves hs₁ hp hempty hvalid hhash.symm) ?_
      exact acceptBlockData_haveData fun hreceived => absurd hreceived hcheck
    have hnext : Reachable N s'.tick := .step (.acceptBlock block) hs h.step
    have hinv' : IndexInv N s' := by
      rw [hstate]
      exact (acceptBlockData_moves hs₁ hp hempty hvalid hhash.symm).inv hs₁
    refine ⟨hinv'.dropped_of_empty hentry.size hentry.empty, fun calls u hrun hnone q hq hqhash => ?_⟩
    have hticked : EmptyEntry s'.tick p (block.getHash N.C) := ⟨hentry.size, hentry.hash, hentry.empty⟩
    obtain ⟨hlater, hreachable⟩ := hticked.callRun hnext hrun hnone
    obtain rfl : q = p := hreachable.inv.shape.hash_injective q hq p hlater.size (hqhash.trans hlater.hash.symm)
    exact ⟨hreachable.inv.not_candidate hq hlater.empty, hreachable.inv.not_active hq hlater.empty⟩

end

namespace Example

/-- A stake on the genesis block, for which there is no stake modifier yet. -/
def lonelyStake : CBlock :=
  { stakingBlock with hashPrevBlock := 7000, nNonce := 5 }

/-- The same block, too early for its transactions. -/
def lockedStake : CBlock :=
  { lonelyStake with vtx := [{ coinbaseTx [emptyOut] with nLockTime := 100 }, coinstakeTx] }

def lonelyRejected : NodeState :=
  (acceptBlock stakeNode stakeStart lonelyStake).2

/-- Another block becomes the tip, and the user invalidates it. -/
def retreatCalls : List Op :=
  [.processNewBlock 3 firstLate, .invalidateBlock 2]

theorem rejects_lonelyStake : Rejects stakeNode stakeStart lonelyStake 1 (announced stakeStart lonelyStake)
    lonelyRejected where
  header := eq_ok_state (by decide)
  rejected := ⟨_, rfl⟩

theorem rejects_lockedStake : Rejects stakeNode stakeStart lockedStake 1 (announced stakeStart lockedStake)
    (acceptBlock stakeNode stakeStart lockedStake).2 where
  header := eq_ok_state (by decide)
  rejected := ⟨_, rfl⟩

end Example

open Example

/-- A block with a transaction that is not final is turned away for good. -/
theorem rejection_final_iff_example :
    (acceptBlock stakeNode stakeStart lockedStake).2.Dropped 1 ∧
      NeverActive stakeNode (lockedStake.getHash stakeNode.C)
        (acceptBlock stakeNode stakeStart lockedStake).2.tick := by
  refine (rejection_final_iff reachable_stakeStart rejects_lockedStake).mpr fun hcheck => ?_
  have hfinal := hcheck.final
  revert hfinal
  decide

/-- A block whose kernel check fails is stored, linked and not marked.  It becomes a candidate when the tip is
invalidated. -/
theorem rejected_stake_candidate : Reachable stakeNode stakeStart ∧ Rejects stakeNode stakeStart lonelyStake 1
      (announced stakeStart lonelyStake) lonelyRejected ∧
    ¬ lonelyRejected.Dropped 1 ∧
    ∃ calls u, CallRun stakeNode lonelyRejected.tick calls u ∧
      NoneReceived stakeNode (lonelyStake.getHash stakeNode.C) calls ∧
      (u.entry 1).hash = lonelyStake.getHash stakeNode.C ∧ 1 ∈ u.setBlockIndexCandidates := by
  have hrun : CallRun stakeNode lonelyRejected.tick
      (trace stakeNode lonelyRejected.tick retreatCalls)
      (retreatCalls.foldl (after stakeNode) lonelyRejected.tick) :=
    callRun_trace (by decide)
  refine ⟨reachable_stakeStart, rejects_lonelyStake, fun hdropped => ?_, _, _, hrun, ?_, by decide, by decide⟩
  · rcases hdropped with hmarked | ⟨hempty, -⟩
    · exact absurd hmarked (by decide)
    · exact absurd hempty (by decide)
  · intro op t block hmem hsubmits hhash
    -- The only block that is handed in has another hash.
    simp only [retreatCalls, trace, List.mem_cons, Prod.mk.injEq, List.not_mem_nil, or_false] at hmem
    rcases hmem with ⟨rfl, -⟩ | ⟨rfl, -⟩
    · have hblock : firstLate = block := hsubmits
      rw [← hblock] at hhash
      exact absurd hhash (by decide)
    · exact hsubmits.elim

theorem run_find_retreat : (retreatCalls.foldl (after stakeNode) lonelyRejected.tick).mapBlockIndex.find
    (lonelyStake.getHash stakeNode.C) = some 1 :=
  run_find (.step _ reachable_stakeStart rejects_lonelyStake.step) (callRun_trace (by decide)) (by decide)

end Reddcoin
