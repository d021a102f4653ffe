import Reddcoin.Index.Init

/-!
# A rule for accepting blocks

What `AcceptBlock` does to the index when `ReceivedBlockTransactions` does not fail, as a rule: a property
that each part of it keeps is kept by the whole.  The property may speak of the queue of entries that are
going to be linked.
-/

namespace Reddcoin

variable {block : CBlock}

/-- `ReceivedBlockTransactions`, if it is called for the block, returns true. -/
def ReceivesFully (N : Node) (s : NodeState) (block : CBlock) : Prop :=
  ∀ p s₁, acceptBlockHeader N s block.toCBlockHeader = (.ok p, s₁) → s₁.haveData p = false →
    Receivable N s₁ block p → (receivedBlockTransactions N (N.env s₁) 0 s₁ block p).1 = .ok ()

/-- Each part of `AcceptBlock` keeps the property `Q`, in a state and with a queue. -/
structure AcceptRule (N : Node) (Q : NodeState → List Ptr → Prop) : Prop where
  /-- A header is added on the entry `q`. -/
  add : ∀ {s block q}, IndexInv N s → s.mapBlockIndex.find block.hashPrevBlock = some q → Q s [] →
    Q (s.addEntry (childEntry N s block q)) []
  /-- Only records about the run or the set of dirty entries change. -/
  note : ∀ {s s' : NodeState}, s'.mapBlockIndex = s.mapBlockIndex → s'.addresses = s.addresses →
    s'.chainActive = s.chainActive → s'.setBlockIndexCandidates = s.setBlockIndexCandidates →
    s'.mapBlocksUnlinked = s.mapBlocksUnlinked → Q s [] → Q s' []
  /-- An entry without data is marked invalid. -/
  mark : ∀ {s p}, IndexInv N s → p < s.size → s.haveData p = false → Q s [] → Q (s.failValid p) []
  /-- The data of an entry is stored. -/
  receive : ∀ {s block p}, IndexInv N s → p < s.size → s.haveData p = false → s.failed p = false →
    Q s [] → Q (receiveData N s block p) [p]
  /-- The first entry of the queue is linked. -/
  link : ∀ {s p queue waiting s'}, IndexInv N s → QueueInv s (p :: queue) → LinkedBy s p waiting s' →
    Q s (p :: queue) → Q s' (queue ++ waiting)
  /-- The entry waits for the data of its parent. -/
  wait : ∀ {s p q}, IndexInv N s → p < s.size → s.par p = some q → s.linked q = false → Q s [p] → Q (s.waitFor q p) []
  /-- The entry does not wait for a parent that is marked failed. -/
  skip : ∀ {s p q}, IndexInv N s → p < s.size → s.par p = some q → s.linked q = false →
    s.failed q = true → Q s [p] → Q s []

section

variable {N : Node} {s s' : NodeState} {p : Ptr} {Q : NodeState → List Ptr → Prop}

section

variable (rule : AcceptRule N Q) (hs : IndexInv N s) (h : Q s [])

include rule hs h

theorem AcceptRule.acceptBlockHeader (block : CBlockHeader) : Q (acceptBlockHeader N s block).2 [] := by
  rcases acceptBlockHeader_cases hs block with ⟨p, -, -, hr⟩ | ⟨q, -, hprev, -, -, hr⟩ | ⟨stop, hr, -⟩
  · rw [hr]
    exact h
  · rw [hr]
    exact rule.add hs hprev h
  · rw [hr]
    exact h

theorem AcceptRule.receivedBlockTransactions {env : Env} (hp : p < s.size) (hempty : s.haveData p = false)
    (hvalid : s.failed p = false) (htxs : block.vtx ≠ []) (hhash : block.getHash N.C = (s.entry p).hash)
    (hrun : receivedBlockTransactions N env 0 s block p = (.ok (), s')) : Q s' [] := by
  have hmove : Move N s (receiveData N s block p) := .receive hp hempty hvalid htxs hhash
  have hs₁ := hmove.inv hs
  have h₁ : Q (receiveData N s block p) [p] := rule.receive hs hp hempty hvalid h
  have hpar : (receiveData N s block p).par = s.par := receiveData_sameShape.par
  have hsize : (receiveData N s block p).size = s.size := receiveData_sameShape.size
  rcases receivedBlockTransactions_cases N env 0 s block p with
    ⟨hparent, heq⟩ | ⟨q, hq, hlinked, ⟨-, heq⟩ | ⟨hinvalid, heq⟩⟩
  · rw [heq] at hrun
    have hqueue : QueueInv (receiveData N s block p) [p] := by
      refine QueueInv.start hs hp hempty fun q hq => ?_
      have hne := hs.shape.tree.graded.parent_ne hp hq
      exact (receiveData_linked_ne hne).symm.trans (hparent q hq)
    have hall := linkQueue_ok (Q := fun s queue => IndexInv N s ∧ QueueInv s queue ∧ Q s queue)
      (fun s p queue waiting s' ⟨hs, hq, hQ⟩ hby hlink => by
        have hmoves : Moves N s (linkEntry N env 0 block s p).2 := linkEntry_moves hs hq
        rw [hlink] at hmoves
        exact ⟨hmoves.inv hs, hq.step hs hby, rule.link hs hq hby hQ⟩)
      (show [p].length + (receiveData N s block p).mapBlocksUnlinked.length ≤
          (receiveData N s block p).mapBlocksUnlinked.length + 1 by simp [Nat.add_comm])
      ⟨hs₁, hqueue, h₁⟩ hrun
    exact hall.2.2
  · rw [heq] at hrun
    obtain rfl : (receiveData N s block p).waitFor q p = s' := congrArg Prod.snd hrun
    exact rule.wait hs₁ (lt_of_lt_of_eq hp hsize.symm) (hpar ▸ hq) hlinked h₁
  · rw [heq] at hrun
    obtain rfl : receiveData N s block p = s' := congrArg Prod.snd hrun
    refine rule.skip hs₁ (lt_of_lt_of_eq hp hsize.symm) (hpar ▸ hq) hlinked ?_ h₁
    -- Every entry passes the rest of `IsValid(BLOCK_VALID_TREE)`.
    have hqsize : q < (receiveData N s block p).size :=
      lt_of_lt_of_eq (hs.shape.tree.graded.closed hp hq) hsize.symm
    have htree := hs₁.flow.valid q hqsize
    have hparts : (!(receiveData N s block p).failed q &&
        decide (BLOCK_VALID_TREE ≤ ((receiveData N s block p).entry q).nStatus.valid)) = false := hinvalid
    rw [decide_eq_true htree, Bool.and_true, Bool.not_eq_false'] at hparts
    exact hparts

theorem AcceptRule.acceptBlock (hfully : ReceivesFully N s block) : Q (acceptBlock N s block).2 [] := by
  have hheader := rule.acceptBlockHeader hs h block.toCBlockHeader
  rcases acceptBlock_cases N s block with ⟨stop, heq, -⟩ | ⟨p, s₁, heq, ⟨-, hdata⟩ | ⟨hdata, hstate, -⟩⟩
  · rw [heq] at hheader
    exact hheader
  · rw [heq] at hheader
    rw [hdata]
    exact hheader
  · obtain ⟨hs₁, hp, hvalid, hhash⟩ := acceptBlockHeader_ok hs heq
    rw [heq] at hheader
    have hheader : Q s₁ [] := hheader
    rw [hstate]
    rcases acceptBlockData_cases N s₁ block p with ⟨stop, hr⟩ | ⟨stop, hr⟩ | ⟨stop, hr⟩ | ⟨hcheck, hr⟩
    · rw [hr]
      exact hheader
    · rw [hr]
      have hnoted : Q (s₁.noteQuiet .nonFinal p CBlockIndex.failValid) [] :=
        rule.note (s := s₁) rfl rfl rfl rfl rfl hheader
      exact rule.mark ((noteQuiet_moves s₁ .nonFinal p CBlockIndex.failValid).1.moves.inv hs₁) hp hdata hnoted
    · rw [hr]
      have hmarked : Q (s₁.failValid p) [] := rule.mark hs₁ hp hdata hheader
      have hdirty : Q ((s₁.failValid p).setDirty p) [] :=
        rule.note (s := s₁.failValid p) rfl rfl rfl rfl rfl hmarked
      exact hdirty
    · rw [hr]
      obtain ⟨cb, rest, hvtx, -⟩ := (checkBlock_ok hcheck.check).1.coinbase
      cases hreceived : Reddcoin.receivedBlockTransactions N (N.env s₁) 0 s₁ block p with
      | mk r s₂ =>
        have hok := hfully p s₁ heq hdata hcheck
        rw [hreceived] at hok
        obtain rfl : r = .ok () := hok
        exact rule.receivedBlockTransactions hs₁ hheader hp hdata hvalid (by simp [hvtx]) hhash.symm
          hreceived

end

theorem ReceivesFully.of_ok (h : (acceptBlock N s block).1.isOk) : ReceivesFully N s block := by
  intro p s₁ hheader hdata hcheck
  have hreceives : acceptBlockData N s₁ block p = receivedBlockTransactions N (N.env s₁) 0 s₁ block p := by
    simp only [acceptBlockData, hcheck.check, hcheck.final, hcheck.dev, hcheck.canWrite, Bool.not_true,
      Bool.false_eq_true, if_false]
  have hdata' : ¬ (s₁.entry p).nStatus.haveData = true := by
    rw [Bool.not_eq_true]
    exact hdata
  simp only [acceptBlock, hheader, if_neg hdata', hreceives] at h
  cases hrun : receivedBlockTransactions N (N.env s₁) 0 s₁ block p with
  | mk r s₂ =>
    rw [hrun] at h
    cases r with
    | error stop => simp [Except.isOk, Except.toBool] at h
    | ok u => rfl

end

end Reddcoin

/-!
## The candidates cover the index

`setBlockIndexCandidates` does not hold every entry that could be activated: those that are worse than the
tip are dropped.  What makes up for it is one candidate whose whole branch has been connected before, and
which is better than everything that is no candidate.
-/

namespace Reddcoin

open Forest (Anc)

/-- The entry and its ancestors are not failed and, but for the genesis block, have been connected. -/
def NodeState.Safe (s : NodeState) (p : Ptr) : Prop :=
  ∀ a, Anc s.par a p → s.failed a = false ∧ (s.par a = none ∨ BLOCK_VALID_SCRIPTS ≤ (s.entry a).nStatus.valid)

/-- The linked entries that are not marked failed are candidates or worse than `w`. -/
def NodeState.Covers (s : NodeState) (w : Ptr) : Prop :=
  ∀ p < s.size, s.linked p = true → s.failed p = false → p ∉ s.setBlockIndexCandidates → s.worse p w = true

/-- The active chain is safe, and a safe candidate covers the index. -/
structure Ready (s : NodeState) : Prop where
  tip : ∀ t, s.tip = some t → s.Safe t
  keep : ∃ w ∈ s.setBlockIndexCandidates, s.Safe w ∧ s.Covers w

section

variable {N : Node} {s s' : NodeState} {p q t w x : Ptr}

/-! ## Safe entries -/

theorem NodeState.Safe.anc (h : s.Safe p) (hanc : Anc s.par q p) : s.Safe q := fun a ha => h a (ha.trans hanc)

theorem NodeState.Safe.not_failed (h : s.Safe p) : s.failed p = false :=
  (h p (.refl p)).1

theorem NodeState.Safe.of_map (h : s.Safe p) (hmap : s'.mapBlockIndex = s.mapBlockIndex) : s'.Safe p := by
  have he : ∀ q, s'.entry q = s.entry q := fun q => congrArg (fun m : BlockMap => m.entry q) hmap
  have hpar : s'.par = s.par := congrArg BlockMap.par hmap
  intro a ha
  rw [hpar] at ha ⊢
  rw [he]
  exact ⟨(congrArg CBlockIndex.failed (he a)).trans (h a ha).1, (h a ha).2⟩

/-- One entry changes: it is not below `x`, or it keeps its flags and its validity. -/
theorem NodeState.Safe.modify {f : CBlockIndex → CBlockIndex} (h : s.Safe x)
    (hshape : ∀ e, (f e).shape = e.shape)
    (hkeep : ¬ Anc s.par p x ∨ ((f (s.entry p)).failed = (s.entry p).failed ∧
      (s.entry p).nStatus.valid ≤ (f (s.entry p)).nStatus.valid)) : (s.modify p f).Safe x := by
  have hpar : (s.modify p f).par = s.par := (BlockMap.SameShape.modify _ p hshape).par
  intro a ha
  rw [hpar] at ha ⊢
  obtain ⟨hfailed, hvalid⟩ := h a ha
  by_cases hap : a = p
  · rw [hap] at ha hfailed hvalid ⊢
    obtain ⟨hsame, hle⟩ := hkeep.resolve_left (not_not_intro ha)
    refine ⟨?_, hvalid.imp_right fun hscripts => ?_⟩
    · unfold NodeState.failed
      rw [entry_modify_self, hsame]
      exact hfailed
    · rw [entry_modify_self]
      exact hscripts.trans hle
  · refine ⟨?_, hvalid.imp_right fun hscripts => ?_⟩
    · unfold NodeState.failed
      rw [entry_modify_ne hap]
      exact hfailed
    · rw [entry_modify_ne hap]
      exact hscripts

/-! ## The moves of `ActivateBestChain` -/

/-- The safe entries stay safe, and only marked candidates go. -/
theorem Ready.narrow (h : Ready s) (hn : Narrowed s s') (htip : s'.tip = s.tip)
    (hsafe : ∀ p, s.Safe p → s'.Safe p)
    (hstay : ∀ p ∈ s.setBlockIndexCandidates, s'.failed p = false → p ∈ s'.setBlockIndexCandidates) :
    Ready s' := by
  refine ⟨fun t ht => hsafe t (h.tip t (htip.symm.trans ht)), ?_⟩
  obtain ⟨w, hw, hwsafe, hcovers⟩ := h.keep
  refine ⟨w, hstay w hw (hsafe w hwsafe).not_failed, hsafe w hwsafe, fun p hp hlinked hfailed hnot => ?_⟩
  rw [hn.worse]
  refine hcovers p (lt_of_lt_of_eq hp hn.shape.size) ((hn.linked p).symm.trans hlinked) ?_ fun hmem =>
    hnot (hstay p hmem hfailed)
  cases hbefore : s.failed p with
  | false => rfl
  | true =>
    rw [hn.failed p hbefore] at hfailed
    simp at hfailed

theorem Ready.of_map (h : Ready s) (hn : Narrowed s s') (hmap : s'.mapBlockIndex = s.mapBlockIndex)
    (htip : s'.tip = s.tip)
    (hstay : ∀ p ∈ s.setBlockIndexCandidates, s'.failed p = false → p ∈ s'.setBlockIndexCandidates) :
    Ready s' :=
  h.narrow hn htip (fun _ hp => hp.of_map hmap) hstay

/-- An entry with a failed ancestor is not below a safe one. -/
theorem NodeState.Safe.not_anc {a : Ptr} (h : s.Safe x) (hanc : Anc s.par a p) (hfailed : s.failed a) :
    ¬ Anc s.par p x := by
  intro hp
  rw [(h a (hanc.trans hp)).1] at hfailed
  simp at hfailed

/-- The entry that is connected is a candidate itself, if it is better than the one that covers. -/
theorem Ready.connect (h : Ready s) {view : CoinsView} (hsize : p < s.size) (hlinked : s.linked p)
    (hsafe : s.Safe p) (htip : (({ s with pcoinsTip := view } : NodeState).updateTip (some p)).tip = some p) :
    Ready ((({ s with pcoinsTip := view } : NodeState).updateTip (some p)).dropWorse p) := by
  refine ⟨fun t ht => ?_, ?_⟩
  · cases htip.symm.trans ht
    exact hsafe.of_map rfl
  · have hmem : ∀ q, q ∈ ((({ s with pcoinsTip := view } : NodeState).updateTip
        (some p)).dropWorse p).setBlockIndexCandidates ↔
        q ∈ s.setBlockIndexCandidates ∧ s.worse q p = false := by
      intro q
      show q ∈ s.setBlockIndexCandidates.filter (fun q => !s.worse q p) ↔ _
      rw [List.mem_filter, Bool.not_eq_true']
    obtain ⟨w, hw, hwsafe, hcovers⟩ := h.keep
    cases hworse : s.worse w p with
    | false =>
      refine ⟨w, (hmem w).mpr ⟨hw, hworse⟩, hwsafe.of_map rfl, fun q hq hql hqf hnot => ?_⟩
      show s.worse q w = true
      by_cases hqc : q ∈ s.setBlockIndexCandidates
      · -- A candidate that was dropped is worse than the tip, and so than `w`.
        have hqp : s.worse q p = true := by
          cases hqp : s.worse q p with
          | true => rfl
          | false => exact absurd ((hmem q).mpr ⟨hqc, hqp⟩) hnot
        exact worse_of_worse_of_not hqp hworse
      · exact hcovers q hq hql hqf hqc
    | true =>
      have hpc : p ∈ s.setBlockIndexCandidates := by
        by_contra hno
        have hpw := hcovers p hsize hlinked hsafe.not_failed hno
        have hself : s.worse w w = true := worse_trans hworse hpw
        rw [show s.worse w w = false from worse_irrefl w] at hself
        simp at hself
      refine ⟨p, (hmem p).mpr ⟨hpc, worse_irrefl p⟩, hsafe.of_map rfl, fun q hq hql hqf hnot => ?_⟩
      show s.worse q p = true
      by_cases hqc : q ∈ s.setBlockIndexCandidates
      · cases hqp : s.worse q p with
        | true => rfl
        | false => exact absurd ((hmem q).mpr ⟨hqc, hqp⟩) hnot
      · exact worse_trans (hcovers q hq hql hqf hqc) hworse

theorem ChainMove.ready (move : ChainMove s s') (hs : IndexInv N s) (h : Ready s)
    (hverdicts : s'.reversedVerdicts = []) : Ready s' := by
  have hn := move.narrowed
  cases move with
  | note | quiet | write => exact h.of_map hn rfl rfl fun _ hp _ => hp
  | mint r => exact h.narrow hn rfl (fun _ hx => hx.modify (fun _ => rfl) (.inr ⟨rfl, Nat.le_refl _⟩)) fun _ hp _ => hp
  | @reject p t size par =>
    -- An entry below a safe one has been connected, and its verdict would be on record.
    have hnew : ¬ BLOCK_VALID_SCRIPTS ≤ (s.entry p).nStatus.valid := by
      intro hscripts
      have hrecorded : (s.recordVerdict p).reversedVerdicts = [] := hverdicts
      simp only [NodeState.recordVerdict, if_pos hscripts] at hrecorded
      simp at hrecorded
    refine h.narrow hn rfl (fun x hx => ?_) fun q hq hfailed => ?_
    · have hbelow : ¬ Anc s.par p x := by
        intro hp
        rcases (hx p hp).2 with hroot | hscripts
        · rw [par] at hroot
          simp at hroot
        · exact hnew hscripts
      have hfail : ((s.recordVerdict p).failValid p).Safe x :=
        NodeState.Safe.modify (hx.of_map rfl) (fun _ => rfl) (.inl hbelow)
      exact hfail.of_map rfl
    · refine List.mem_filter.mpr ⟨hq, decide_eq_true ?_⟩
      rintro rfl
      have hmarked : ((s.recordVerdict q).failValid q).failed q = true := failed_failValid _ q
      cases hmarked.symm.trans hfailed
  | @failChild a p _ _ anc failed =>
    exact h.narrow hn rfl (fun x hx => hx.modify (fun _ => rfl) (.inl (hx.not_anc anc failed)))
      fun _ hq _ => hq
  | @failTip a p _ _ anc failed =>
    refine h.narrow hn rfl (fun x hx => ?_) fun _ hq _ => hq
    have hmark : (s.failChild p).Safe x := hx.modify (fun _ => rfl) (.inl (hx.not_anc anc failed))
    exact hmark.of_map rfl
  | @erase p failed =>
    refine h.of_map hn rfl rfl fun q hq hfailed => List.mem_filter.mpr ⟨hq, decide_eq_true ?_⟩
    rintro rfl
    cases failed.symm.trans hfailed
  | @record p t u r _ _ _ _ valid =>
    refine h.narrow hn rfl (fun x hx => ?_) fun _ hq _ => hq
    have hentry : (s.modify p (connectedEntry u r)).Safe x := by
      refine hx.modify (fun _ => rfl) (.inr ⟨?_, ?_⟩)
      · have hsame := recorded_failed s p u r p
        unfold NodeState.failed at hsame
        rw [recorded_entry_self] at hsame
        exact hsame
      · have hraise : (connectedEntry u r (s.entry p)).nStatus.valid =
            max (s.entry p).nStatus.valid BLOCK_VALID_SCRIPTS := connectedStatus_valid valid
        omega
    exact hentry.of_map rfl
  | @connect p t view size par tip linked valid scripts =>
    obtain ⟨-, hends, -⟩ := hs.tip_eq tip
    have hparent := h.tip t tip
    refine h.connect size linked (fun a ha => ?_) ?_
    · rcases (Forest.anc_of_parent par).mp ha with rfl | ha
      · exact ⟨valid, .inr scripts⟩
      · exact hparent a ha
    · exact (hends.setTip_child hs.shape.tree size par).tip hs.shape.tree size
  | @disconnect t q view tip par =>
    obtain ⟨hsize, hends, -⟩ := hs.tip_eq tip
    have hq := hs.shape.tree.graded.closed hsize par
    have htip' : (({ s with pcoinsTip := view } : NodeState).updateTip (some q)).tip = some q :=
      (hends.setTip_parent hs.shape.tree hsize par).tip hs.shape.tree hq
    refine ⟨fun t' ht' => ?_, ?_⟩
    · rw [← Option.mem_unique htip' ht']
      exact ((h.tip t tip).anc (.of_parent par)).of_map rfl
    · obtain ⟨w, hw, hwsafe, hcovers⟩ := h.keep
      exact ⟨w, hw, hwsafe.of_map rfl, hcovers⟩

/-- A run of `ActivateBestChain` in which no entry is found invalid that was connected before. -/
theorem ChainMoves.ready (moves : ChainMoves s s') (hs : IndexInv N s) (h : Ready s)
    (hverdicts : s'.reversedVerdicts = []) : Ready s' := by
  induction moves with
  | refl => exact h
  | @tail s₁ s₂ before move ih =>
    have hbefore : s₁.reversedVerdicts = [] := by
      refine List.eq_nil_iff_forall_not_mem.mpr fun q hq => ?_
      have hmem := move.narrowed.verdicts q hq
      rw [hverdicts] at hmem
      simp at hmem
    exact move.ready (ChainMoves.inv before hs) (ih hbefore) hverdicts

/-! ## Headers and blocks -/

/-- The candidate that covers can be taken not to be worse than the tip. -/
theorem Ready.exists_best (h : Ready s) (hs : IndexInv N s) (htip : s.tip = some t) :
    ∃ w ∈ s.setBlockIndexCandidates, s.Safe w ∧ s.Covers w ∧ s.worse w t = false := by
  obtain ⟨hsize, -, hlinked, -⟩ := hs.tip_eq htip
  obtain ⟨w, hw, hwsafe, hcovers⟩ := h.keep
  cases hworse : s.worse w t with
  | false => exact ⟨w, hw, hwsafe, hcovers, hworse⟩
  | true =>
    have htc : t ∈ s.setBlockIndexCandidates := by
      by_contra hno
      have htw := hcovers t hsize hlinked (h.tip t htip).not_failed hno
      have hself : s.worse w w = true := worse_trans hworse htw
      rw [show s.worse w w = false from worse_irrefl w] at hself
      simp at hself
    refine ⟨t, htc, h.tip t htip, fun p hp hl hf hnot => ?_, worse_irrefl t⟩
    exact worse_trans (hcovers p hp hl hf hnot) hworse

/-- As far as the choice of the best chain goes, entries and candidates are only added. -/
structure Extends (s s' : NodeState) : Prop where
  tip : s'.tip = s.tip
  size : s.size ≤ s'.size
  par : ∀ p < s.size, s'.par p = s.par p
  worse : ∀ a < s.size, ∀ b < s.size, s.linked a = true → s.linked b = true → s'.worse a b = s.worse a b
  safe : ∀ p < s.size, s.linked p = true → s.Safe p → s'.Safe p
  stay : ∀ p ∈ s.setBlockIndexCandidates, p ∈ s'.setBlockIndexCandidates
  covers : ∀ t w, s.tip = some t → w < s.size → s.linked w = true → s.Covers w → s.worse w t = false → s'.Covers w

/-- The candidates that are added are not worse than the tip. -/
structure Offers (s s' : NodeState) : Prop extends Extends s s' where
  new : ∀ p ∈ s'.setBlockIndexCandidates, p ∈ s.setBlockIndexCandidates ∨ ∀ t, s.tip = some t → s'.worse p t = false

theorem Ready.extend (h : Ready s) (hs : IndexInv N s) (hx : Extends s s') : Ready s' := by
  obtain ⟨t, ht⟩ := hs.exists_tip
  obtain ⟨htsize, -, htlinked, -⟩ := hs.tip_eq ht
  obtain ⟨w, hw, hwsafe, hwcovers, hbest⟩ := h.exists_best hs ht
  obtain ⟨hwsize, hwlinked⟩ := hs.flow.candidates w hw
  refine ⟨fun t' ht' => ?_, w, hx.stay w hw, hx.safe w hwsize hwlinked hwsafe,
    hx.covers t w ht hwsize hwlinked hwcovers hbest⟩
  rw [← Option.some.inj (ht.symm.trans (hx.tip.symm.trans ht'))]
  exact hx.safe t htsize htlinked (h.tip t ht)

/-- Entries without a link change in a way that does not matter. -/
theorem Offers.unlinked (hs : IndexInv N s) (hshape : s.mapBlockIndex.SameShape s'.mapBlockIndex)
    (haddr : s'.addresses = s.addresses) (hchain : s'.chainActive = s.chainActive)
    (hcand : s'.setBlockIndexCandidates = s.setBlockIndexCandidates)
    (hlinked : ∀ p < s.size, s'.linked p = s.linked p)
    (hentry : ∀ p < s.size, s.linked p → s'.entry p = s.entry p) : Offers s s' := by
  have hsize : s'.size = s.size := hshape.size
  have hpar : s'.par = s.par := hshape.par
  have hworse : ∀ a < s.size, ∀ b < s.size, s.linked a = true → s.linked b = true → s'.worse a b = s.worse a b := by
    intro a ha b hb hla hlb
    have hea := hentry a ha hla
    have heb := hentry b hb hlb
    exact worse_congr haddr (congrArg CBlockIndex.nChainWork hea) (congrArg CBlockIndex.nChainWork heb)
      (congrArg CBlockIndex.nSequenceId hea) (congrArg CBlockIndex.nSequenceId heb)
  refine ⟨⟨congrArg CChain.tip hchain, Nat.le_of_eq hsize.symm, fun p _ => congrFun hpar p, hworse,
    fun p hp hl hsafe a ha => ?_, fun p hp => hcand ▸ hp, ?_⟩, fun p hp => .inl (hcand ▸ hp)⟩
  · rw [hpar] at ha ⊢
    have he := hentry a (hs.shape.tree.graded.anc_mem hp ha) (hs.linked_anc hp hl ha)
    rw [he]
    exact ⟨(congrArg CBlockIndex.failed he).trans (hsafe a ha).1, (hsafe a ha).2⟩
  · intro t w _ hwsize hwlinked hcovers _ p hp hl hf hnot
    rw [hsize] at hp
    rw [hlinked p hp] at hl
    rw [hcand] at hnot
    have hep := hentry p hp hl
    rw [hworse p hp w hwsize hl hwlinked]
    exact hcovers p hp hl ((congrArg CBlockIndex.failed hep).symm.trans hf) hnot

theorem Offers.add (hs : IndexInv N s) {block : CBlockHeader} (q : Ptr) :
    Offers s (s.addEntry (childEntry N s block q)) := by
  have hold (p) (hp : p < s.size) := addEntry_entry_old s (childEntry N s block q) hp
  have haddr : (s.addEntry (childEntry N s block q)).addresses = s.addresses := rfl
  have hg := hs.shape.tree.graded
  have hworse : ∀ a < s.size, ∀ b < s.size, (s.addEntry (childEntry N s block q)).worse a b = s.worse a b := by
    intro a ha b hb
    have hea := hold a ha
    have heb := hold b hb
    exact worse_congr haddr (congrArg CBlockIndex.nChainWork hea) (congrArg CBlockIndex.nChainWork heb)
      (congrArg CBlockIndex.nSequenceId hea) (congrArg CBlockIndex.nSequenceId heb)
  refine ⟨⟨rfl, Nat.le_succ _, fun p hp => addEntry_par_old s _ hp, fun a ha b hb _ _ => hworse a ha b hb,
    fun p hp _ hsafe a ha => ?_, fun p hp => hp, ?_⟩, fun p hp => .inl hp⟩
  · have ha : Anc s.par a p := (addEntry_anc hs.shape.tree _ hp).mp ha
    have hasize : a < s.size := hg.anc_mem hp ha
    rw [addEntry_par_old s _ hasize, hold a hasize]
    exact ⟨(congrArg CBlockIndex.failed (hold a hasize)).trans (hsafe a ha).1, (hsafe a ha).2⟩
  · intro t w _ hwsize _ hcovers _ p hp hl hf hnot
    rcases addEntry_cases hp with hlt | rfl
    · rw [hworse p hlt w hwsize]
      exact hcovers p hlt ((addEntry_linked_old s _ hlt).symm.trans hl)
        ((congrArg CBlockIndex.failed (hold p hlt)).symm.trans hf) hnot
    · cases childEntry_linked.symm.trans hl

theorem Offers.failEmpty (hs : IndexInv N s) (hp : p < s.size) (hempty : s.haveData p = false) :
    Offers s (s.failValid p) := by
  refine .unlinked hs (.modify _ p fun _ => rfl) rfl rfl rfl
    (fun q _ => entry_modify_keep CBlockIndex.linked s p CBlockIndex.failValid (fun _ => rfl) q)
    fun q _ hl => entry_modify_ne ?_
  rintro rfl
  cases hempty.symm.trans (hs.flow.linked_data q hp hl)

theorem Offers.receive (hs : IndexInv N s) (hp : p < s.size) (hempty : s.haveData p = false)
    (block : CBlock) : Offers s (receiveData N s block p) := by
  have hunlinked : s.linked p = false := by
    cases hl : s.linked p with
    | false => rfl
    | true => cases hempty.symm.trans (hs.flow.linked_data p hp hl)
  refine .unlinked hs receiveData_sameShape rfl rfl rfl (fun q _ => ?_) fun q _ hl => receiveData_entry_ne ?_
  · by_cases hqp : q = p
    · rw [hqp, receiveData_linked_self, hunlinked]
    · exact receiveData_linked_ne hqp
  · rintro rfl
    cases hunlinked.symm.trans hl

/-- The entry that is linked becomes a candidate, unless it is worse than the tip. -/
theorem LinkedBy.offers {waiting : List Ptr} (hby : LinkedBy s p waiting s') (hs : IndexInv N s)
    (hunlinked : s.linked p = false) : Offers s s' := by
  have hpar : s'.par = s.par := hby.shape.par
  have hsize : s'.size = s.size := hby.shape.size
  have hne : ∀ q, s.linked q = true → q ≠ p := by
    rintro q hl rfl
    cases hunlinked.symm.trans hl
  have hworse : ∀ a b, a ≠ p → b ≠ p → s'.worse a b = s.worse a b := fun a b ha hb =>
    worse_congr hby.addresses (hby.shape.nChainWork a) (hby.shape.nChainWork b) (hby.nSequenceId a ha)
      (hby.nSequenceId b hb)
  refine ⟨⟨congrArg CChain.tip hby.chainActive, Nat.le_of_eq hsize.symm, fun q _ => congrFun hpar q,
    fun a _ b _ hla hlb => hworse a b (hne a hla) (hne b hlb), fun q _ _ hsafe a ha => ?_,
    fun q hq => (hby.candidates q).mpr (.inl hq), ?_⟩, fun q hq => ?_⟩
  · rw [hpar] at ha ⊢
    rw [hby.nStatus a, hby.failed a]
    exact hsafe a ha
  · intro t w ht _ hwlinked hcovers hbest q hq hl hf hnot
    rw [hsize] at hq
    rw [hby.failed] at hf
    rw [hby.candidates, not_or] at hnot
    obtain ⟨-, -, htlinked, -⟩ := hs.tip_eq ht
    have hwp := hne w hwlinked
    by_cases hqp : q = p
    · rw [hqp] at hnot ⊢
      have htp : s'.worse p t = true := by
        cases hres : s'.worse p t with
        | true => rfl
        | false =>
          refine absurd ⟨rfl, fun t' ht' => ?_⟩ hnot.2
          rw [← Option.mem_unique ht ht']
          exact hres
      have hbest' : s'.worse w t = false := (hworse w t hwp (hne t htlinked)).trans hbest
      exact worse_of_worse_of_not htp hbest'
    · rw [hby.linked_ne hqp] at hl
      rw [hworse q w hqp hwp]
      exact hcovers q hq hl hf hnot.1
  · rcases (hby.candidates q).mp hq with hq | ⟨rfl, hbest⟩
    · exact .inl hq
    · exact .inr hbest

/-- What is kept when entries and candidates are added is kept by `AcceptBlock`. -/
theorem AcceptRule.of_offers {Q : NodeState → Prop}
    (hoffers : ∀ {s s' : NodeState}, IndexInv N s → Offers s s' → Q s → Q s')
    (hnote : ∀ {s s' : NodeState}, s'.mapBlockIndex = s.mapBlockIndex → s'.addresses = s.addresses →
      s'.chainActive = s.chainActive → s'.setBlockIndexCandidates = s.setBlockIndexCandidates → Q s → Q s') :
    AcceptRule N fun s _ => Q s where
  add hs _ h := hoffers hs (.add hs _) h
  note hmap haddr hchain hcand _ h := hnote hmap haddr hchain hcand h
  mark hs hp hempty h := hoffers hs (.failEmpty hs hp hempty) h
  receive hs hp hempty _ h := hoffers hs (.receive hs hp hempty _) h
  link hs hq hby h := hoffers hs (hby.offers hs (hq.unlinked _ List.mem_cons_self)) h
  wait {s} _ _ _ _ _ _ h := hnote (s := s) rfl rfl rfl rfl h
  skip _ _ _ _ _ h := h

theorem Ready.note (h : Ready s) (hmap : s'.mapBlockIndex = s.mapBlockIndex)
    (haddr : s'.addresses = s.addresses) (hchain : s'.chainActive = s.chainActive)
    (hcand : s'.setBlockIndexCandidates = s.setBlockIndexCandidates) : Ready s' := by
  have htip : s'.tip = s.tip := congrArg CChain.tip hchain
  refine ⟨fun t ht => (h.tip t (htip.symm.trans ht)).of_map hmap, ?_⟩
  obtain ⟨w, hw, hsafe, hcovers⟩ := h.keep
  refine ⟨w, hcand ▸ hw, hsafe.of_map hmap, ?_⟩
  unfold NodeState.Covers NodeState.size NodeState.linked NodeState.failed NodeState.entry NodeState.worse
  rw [hmap, hcand, haddr]
  exact hcovers

theorem Ready.acceptRule : AcceptRule N fun s _ => Ready s :=
  .of_offers (fun hs hx h => h.extend hs hx.toExtends) fun hmap haddr hchain hcand h => h.note hmap haddr hchain hcand

theorem acceptBlockHeader_ready (hs : IndexInv N s) (h : Ready s) (block : CBlockHeader) :
    Ready (acceptBlockHeader N s block).2 :=
  Ready.acceptRule.acceptBlockHeader hs h block

theorem acceptBlock_ready (hs : IndexInv N s) (h : Ready s) (hfully : ReceivesFully N s block) :
    Ready (acceptBlock N s block).2 :=
  Ready.acceptRule.acceptBlock hs h hfully

end

end Reddcoin
