import Reddcoin.Index.CheckBlockIndex

/-!
# Runs that pass the consistency check

The states that a node comes into from a fresh index by accepting headers and blocks and activating the best chain
pass `CheckBlockIndex`, unless a block that was connected before is found invalid when it is connected again.
-/

namespace Reddcoin

open List Option

open Forest (Anc)

variable {f : Firsts}

/-! ## Entries that wait for their parents -/

/-- Every entry that has its data and is not linked is in the queue, or waits for its parent, unless the parent is
marked failed and will never have its data. -/
structure Linking (s : NodeState) (queue : List Ptr) : Prop where
  flagged : ∀ p < s.size, s.failed p = true → s.linked p = true ∨ s.haveData p = false
  waits : ∀ p < s.size, ∀ q, s.par p = some q → s.haveData p = true → s.linked p = false → p ∉ queue →
    (q, p) ∈ s.mapBlocksUnlinked ∨ (s.failed q = true ∧ s.haveData q = false)
  blocked : ∀ w ∈ s.mapBlocksUnlinked, s.linked w.1 = false
  sequence : ∀ p < s.size, s.linked p = false → (s.entry p).nSequenceId = 0

section

variable {N : Node} {s s' : NodeState} {queue : List Ptr} {p q t : Ptr}

/-- New marks are on linked entries or on entries without data. -/
theorem Linking.mark (h : Linking s queue) (hshape : s.mapBlockIndex.SameShape s'.mapBlockIndex)
    (hdata : ∀ p, s'.haveData p = s.haveData p) (hlinked : ∀ p, s'.linked p = s.linked p)
    (hseq : ∀ p, (s'.entry p).nSequenceId = (s.entry p).nSequenceId)
    (hunlinked : s'.mapBlocksUnlinked = s.mapBlocksUnlinked)
    (hfailed : ∀ p, s.failed p → s'.failed p)
    (hnew : ∀ p, s'.failed p → s.failed p ∨ s.linked p ∨ s.haveData p = false) :
    Linking s' queue := by
  have hsize : s'.size = s.size := hshape.size
  have hpar : s'.par = s.par := hshape.par
  constructor
  · intro p hp hmark
    rw [hsize] at hp
    rw [hlinked, hdata]
    rcases hnew p hmark with hbefore | hkind
    · exact h.flagged p hp hbefore
    · exact hkind
  · intro p hp q hq hd hl hnot
    rw [hsize] at hp
    rw [hpar] at hq
    rw [hdata] at hd
    rw [hlinked] at hl
    rw [hunlinked, hdata]
    rcases h.waits p hp q hq hd hl hnot with hmem | ⟨hmark, hempty⟩
    · exact .inl hmem
    · exact .inr ⟨hfailed q hmark, hempty⟩
  · intro w hw
    rw [hunlinked] at hw
    rw [hlinked]
    exact h.blocked w hw
  · intro p hp hl
    rw [hsize] at hp
    rw [hlinked] at hl
    rw [hseq]
    exact h.sequence p hp hl

theorem Linking.of_map (h : Linking s queue) (hmap : s'.mapBlockIndex = s.mapBlockIndex)
    (hunlinked : s'.mapBlocksUnlinked = s.mapBlocksUnlinked) : Linking s' queue := by
  have he : ∀ p, s'.entry p = s.entry p := fun p => congrArg (fun m : BlockMap => m.entry p) hmap
  have hfailed : ∀ p, s'.failed p = s.failed p := fun p => congrArg CBlockIndex.failed (he p)
  refine h.mark (hmap ▸ .refl _) (fun p => ?_) (fun p => congrArg CBlockIndex.linked (he p))
    (fun p => congrArg CBlockIndex.nSequenceId (he p)) hunlinked (fun p hp => (hfailed p).trans hp) fun p hp =>
      .inl ((hfailed p).symm.trans hp)
  exact congrArg (fun e => e.nStatus.haveData) (he p)

/-- A mark on an entry that is linked or has no data. -/
theorem Linking.fail (h : Linking s queue) {f : CBlockIndex → CBlockIndex}
    (hf : f = CBlockIndex.failValid ∨ f = CBlockIndex.failChild)
    (hp : s.linked p ∨ s.haveData p = false) : Linking (s.modify p f) queue := by
  have hkeep : ∀ e : CBlockIndex, (f e).shape = e.shape ∧ (f e).nStatus.haveData = e.nStatus.haveData ∧
      (f e).linked = e.linked ∧ (f e).nSequenceId = e.nSequenceId := by
    rcases hf with rfl | rfl
    · exact fun _ => ⟨rfl, rfl, rfl, rfl⟩
    · exact fun _ => ⟨rfl, rfl, rfl, rfl⟩
  have hfailed : ∀ e : CBlockIndex, (f e).failed = true := by
    rcases hf with rfl | rfl
    · exact fun e => by simp [CBlockIndex.failed, CBlockIndex.failValid, BlockStatus.failed]
    · exact fun e => by simp [CBlockIndex.failed, CBlockIndex.failChild, BlockStatus.failed]
  refine h.mark (.modify _ p fun e => (hkeep e).1)
    (entry_modify_keep (fun e => e.nStatus.haveData) s p f fun e => (hkeep e).2.1)
    (entry_modify_keep CBlockIndex.linked s p f fun e => (hkeep e).2.2.1)
    (entry_modify_keep CBlockIndex.nSequenceId s p f fun e => (hkeep e).2.2.2) rfl (fun q hq => ?_) fun q hq => ?_
  · by_cases hqp : q = p
    · rw [hqp]
      unfold NodeState.failed
      rw [entry_modify_self]
      exact hfailed _
    · unfold NodeState.failed
      rw [entry_modify_ne hqp]
      exact hq
  · by_cases hqp : q = p
    · rw [hqp]
      exact .inr hp
    · unfold NodeState.failed at hq
      rw [entry_modify_ne hqp] at hq
      exact .inl hq

theorem Linking.chainMove (move : ChainMove s s') (h : Linking s queue) : Linking s' queue := by
  cases move with
  | note | quiet | write | erase | connect | disconnect => exact h.of_map rfl rfl
  | @mint p r =>
    have hfailed := entry_modify_keep CBlockIndex.failed s p (mintedEntry r) fun _ => rfl
    exact h.mark (.modify _ p fun _ => rfl)
      (entry_modify_keep (fun e => e.nStatus.haveData) s p _ fun _ => rfl)
      (entry_modify_keep CBlockIndex.linked s p _ fun _ => rfl)
      (entry_modify_keep CBlockIndex.nSequenceId s p _ fun _ => rfl) rfl
      (fun q hq => (hfailed q).trans hq) fun q hq => .inl ((hfailed q).symm.trans hq)
  | @reject p t size par tip linked valid =>
    have hrecorded : Linking (s.recordVerdict p) queue := h.of_map rfl rfl
    have hmarked : Linking ((s.recordVerdict p).failValid p) queue := hrecorded.fail (.inl rfl) (.inl linked)
    exact hmarked.of_map rfl rfl
  | failChild size linked => exact h.fail (.inr rfl) (.inl linked)
  | @failTip a p size linked =>
    have hmarked : Linking (s.failChild p) queue := h.fail (.inr rfl) (.inl linked)
    exact hmarked.of_map rfl rfl
  | @record p t u r =>
    refine h.mark (recorded_sameShape s p u r) (recorded_haveData s p u r) (recorded_linked s p u r)
      (fun q => ?_) rfl (fun q hq => (recorded_failed s p u r q).trans hq) fun q hq =>
        .inl ((recorded_failed s p u r q).symm.trans hq)
    by_cases hqp : q = p
    · rw [hqp, recorded_entry_self]
      rfl
    · rw [recorded_entry_ne _ _ _ _ hqp]

theorem Linking.chainMoves (moves : ChainMoves s s') (h : Linking s queue) : Linking s' queue := by
  induction moves with
  | refl => exact h
  | tail _ move ih => exact Linking.chainMove move ih

/-- A new entry is not marked, has no data and no sequence id. -/
theorem Linking.add (h : Linking s []) (hs : IndexInv N s) (block : CBlockHeader) (q : Ptr) :
    Linking (s.addEntry (childEntry N s block q)) [] := by
  have hold (p) (hp : p < s.size) := addEntry_entry_old s (childEntry N s block q) hp
  have hfailed : ∀ p < s.size, (s.addEntry (childEntry N s block q)).failed p = s.failed p := fun p hp =>
    congrArg CBlockIndex.failed (hold p hp)
  have hlinked (p) (hp : p < s.size) := addEntry_linked_old s (childEntry N s block q) hp
  have hdata (p) (hp : p < s.size) := addEntry_haveData_old s (childEntry N s block q) hp
  constructor
  · intro p hp hmark
    rcases addEntry_cases hp with hlt | rfl
    · rw [hlinked p hlt, hdata p hlt]
      exact h.flagged p hlt ((hfailed p hlt).symm.trans hmark)
    · exact .inr childEntry_haveData
  · intro p hp r hr hd hl hnot
    rcases addEntry_cases hp with hlt | rfl
    · rw [addEntry_par_old s _ hlt] at hr
      rw [hdata p hlt] at hd
      rw [hlinked p hlt] at hl
      have hrsize := hs.shape.tree.graded.closed hlt hr
      rw [hfailed r hrsize, hdata r hrsize]
      exact h.waits p hlt r hr hd hl hnot
    · rw [childEntry_haveData] at hd
      simp at hd
  · intro w hw
    obtain ⟨hlt, hpar, -⟩ := hs.flow.unlinked w hw
    rw [hlinked w.1 (hs.shape.tree.graded.closed hlt hpar)]
    exact h.blocked w hw
  · intro p hp hl
    rcases addEntry_cases hp with hlt | rfl
    · rw [hold p hlt]
      exact h.sequence p hlt ((hlinked p hlt).symm.trans hl)
    · rw [addEntry_entry_new]
      rfl

/-- The data of an entry that is not marked arrives.  What waited for it still does. -/
theorem Linking.receive (h : Linking s []) (hs : IndexInv N s) (block : CBlock) (hp : p < s.size)
    (hempty : s.haveData p = false) (hvalid : s.failed p = false) : Linking (receiveData N s block p) [p] := by
  have hpar : (receiveData N s block p).par = s.par := receiveData_sameShape.par
  have hunlinked : s.linked p = false := by
    cases hl : s.linked p with
    | false => rfl
    | true => cases hempty.symm.trans (hs.flow.linked_data p hp hl)
  have hlinked : ∀ q, (receiveData N s block p).linked q = s.linked q := by
    intro q
    by_cases hqp : q = p
    · rw [hqp, receiveData_linked_self, hunlinked]
    · exact receiveData_linked_ne hqp
  have hfailed : ∀ q, (receiveData N s block p).failed q = s.failed q := by
    intro q
    by_cases hqp : q = p
    · rw [hqp]
      unfold NodeState.failed
      rw [receiveData_entry_self, receivedEntry_failed]
    · exact congrArg CBlockIndex.failed (receiveData_entry_ne hqp)
  have hdata : ∀ q, q ≠ p → (receiveData N s block p).haveData q = s.haveData q := fun q hqp =>
    congrArg (fun e => e.nStatus.haveData) (receiveData_entry_ne hqp)
  constructor
  · intro q hq hmark
    rw [hfailed] at hmark
    have hqp : q ≠ p := by
      rintro rfl
      cases hvalid.symm.trans hmark
    rw [hlinked, hdata q hqp]
    exact h.flagged q hq hmark
  · intro q hq r hr hd hl hnot
    have hqp : q ≠ p := fun heq => hnot (mem_singleton.mpr heq)
    rw [hpar] at hr
    rw [hdata q hqp] at hd
    rw [hlinked] at hl
    rcases h.waits q hq r hr hd hl (by simp) with hmem | ⟨hmark, hmissing⟩
    · exact .inl hmem
    · have hrp : r ≠ p := by
        rintro rfl
        cases hvalid.symm.trans hmark
      rw [hfailed, hdata r hrp]
      exact .inr ⟨hmark, hmissing⟩
  · intro w hw
    rw [hlinked]
    exact h.blocked w hw
  · intro q hq hl
    rw [hlinked] at hl
    by_cases hqp : q = p
    · rw [hqp, receiveData_entry_self, receivedEntry_nSequenceId]
      exact h.sequence p hp hunlinked
    · rw [receiveData_entry_ne hqp]
      exact h.sequence q hq hl

/-- The first entry of the queue is linked, and what waits for it joins the queue. -/
theorem Linking.link {waiting : List Ptr} (h : Linking s (p :: queue)) (hs : IndexInv N s)
    (hqueue : QueueInv s (p :: queue)) (hby : LinkedBy s p waiting s') : Linking s' (queue ++ waiting) := by
  have hsize : s'.size = s.size := hby.shape.size
  have hpar : s'.par = s.par := hby.shape.par
  have hp := hqueue.size p mem_cons_self
  have hself : s'.linked p = true :=
    hby.linked_self ((hs.flow.data_tx p hp).mp (hqueue.data p mem_cons_self))
  have hne : ∀ q, s'.linked q = false → q ≠ p := by
    rintro q hl rfl
    cases hl.symm.trans hself
  constructor
  · intro q hq hmark
    rw [hsize] at hq
    rw [hby.failed] at hmark
    rw [hby.haveData]
    rcases h.flagged q hq hmark with hl | hempty
    · left
      by_cases hqp : q = p
      · rw [hqp]
        exact hself
      · rw [hby.linked_ne hqp]
        exact hl
    · exact .inr hempty
  · intro q hq r hr hd hl hnot
    have hqp := hne q hl
    rw [hsize] at hq
    rw [hpar] at hr
    rw [hby.haveData] at hd
    rw [hby.linked_ne hqp] at hl
    obtain ⟨hrest, hwaiting⟩ := not_or.mp fun hmem => hnot (mem_append.mpr hmem)
    have hbefore : q ∉ p :: queue := fun hmem => (mem_cons.mp hmem).elim hqp hrest
    rw [hby.failed, hby.haveData, hby.unlinked]
    rcases h.waits q hq r hr hd hl hbefore with hmem | hparent
    · left
      refine mem_filter.mpr ⟨hmem, decide_eq_true ?_⟩
      rintro rfl
      rw [hby.waiting, mem_waitingFor] at hwaiting
      exact hwaiting hmem
    · exact .inr hparent
  · intro w hw
    rw [hby.unlinked] at hw
    obtain ⟨hmem, hwp⟩ := mem_filter.mp hw
    rw [hby.linked_ne (of_decide_eq_true hwp)]
    exact h.blocked w hmem
  · intro q hq hl
    have hqp := hne q hl
    rw [hsize] at hq
    rw [hby.linked_ne hqp] at hl
    rw [hby.nSequenceId q hqp]
    exact h.sequence q hq hl

theorem Linking.acceptRule : AcceptRule N Linking where
  add hs _ h := h.add hs _ _
  note hmap _ _ _ hunlinked h := h.of_map hmap hunlinked
  mark _ _ hempty h := h.fail (.inl rfl) (.inr hempty)
  receive hs hp hempty hvalid h := h.receive hs _ hp hempty hvalid
  link hs hqueue hby h := h.link hs hqueue hby
  wait {s p q} _ _ hpar hlinked h := by
    refine ⟨h.flagged, fun r hr a ha hd hl _ => ?_, fun w hw => ?_, h.sequence⟩
    · by_cases hrp : r = p
      · rw [hrp, show (s.waitFor q p).par p = some q from hpar] at ha
        rw [hrp, ← Option.some.inj ha]
        exact .inl (mem_append_right _ (mem_singleton.mpr rfl))
      · rcases h.waits r hr a ha hd hl (fun hmem => hrp (mem_singleton.mp hmem)) with hmem | hparent
        · exact .inl (mem_append_left _ hmem)
        · exact .inr hparent
    · rcases mem_append.mp hw with hw | hw
      · exact h.blocked w hw
      · rw [mem_singleton.mp hw]
        exact hlinked
  skip {s p q} hs hp hpar hlinked hfailed h := by
    refine ⟨h.flagged, fun r hr a ha hd hl _ => ?_, h.blocked, h.sequence⟩
    by_cases hrp : r = p
    · -- The parent is marked and not linked, so it has no data and never will have.
      rw [hrp, hpar] at ha
      cases ha
      rcases h.flagged q (hs.shape.tree.graded.closed hp hpar) hfailed with hl | hempty
      · cases hlinked.symm.trans hl
      · exact .inr ⟨hfailed, hempty⟩
    · exact h.waits r hr a ha hd hl fun hmem => hrp (mem_singleton.mp hmem)

/-- An entry is linked when all its ancestors have their data. -/
theorem Linking.linked_of_data (h : Linking s []) (hs : IndexInv N s)
    (hroot : ∀ p < s.size, s.par p = none → s.linked p)
    (hp : p < s.size) (hdata : ∀ a, Anc s.par a p → s.haveData a) : s.linked p = true := by
  have hg := hs.shape.tree.graded
  induction hheight : s.ht p generalizing p with
  | zero =>
    refine hroot p hp ?_
    cases hpar : s.par p with
    | none => rfl
    | some q =>
      have := hg.height hp hpar
      have hht : s.mapBlockIndex.ht p = s.ht p := rfl
      omega
  | succ n ih =>
    cases hpar : s.par p with
    | none => exact hroot p hp hpar
    | some q =>
      have hq : q < s.size := hg.closed hp hpar
      have hstep : s.ht p = s.ht q + 1 := hg.height hp hpar
      have hql : s.linked q = true := ih hq (fun a ha => hdata a (.step hpar ha)) (by omega)
      cases hl : s.linked p with
      | true => rfl
      | false =>
        rcases h.waits p hp q hpar (hdata p (.refl p)) hl (by simp) with hmem | ⟨-, hempty⟩
        · cases (h.blocked (q, p) hmem).symm.trans hql
        · cases hempty.symm.trans (hs.flow.linked_data q hq hql)

/-! ## Levels of validity -/

/-- All ancestors of an entry that was connected, but for the genesis block, have been connected too. -/
def NodeState.Levelled (s : NodeState) : Prop :=
  ∀ p < s.size, BLOCK_VALID_CHAIN ≤ (s.entry p).nStatus.valid → ∀ a, Anc s.par a p →
    s.par a = none ∨ BLOCK_VALID_SCRIPTS ≤ (s.entry a).nStatus.valid

/-- Levels rise, to that of a connected entry only where the ancestors have it. -/
theorem NodeState.Levelled.raise (h : s.Levelled) (hshape : s.mapBlockIndex.SameShape s'.mapBlockIndex)
    (hle : ∀ p < s.size, (s.entry p).nStatus.valid ≤ (s'.entry p).nStatus.valid)
    (hnew : ∀ p < s.size, BLOCK_VALID_CHAIN ≤ (s'.entry p).nStatus.valid →
      BLOCK_VALID_CHAIN ≤ (s.entry p).nStatus.valid ∨
        ∀ a, Anc s.par a p → s.par a = none ∨ BLOCK_VALID_SCRIPTS ≤ (s'.entry a).nStatus.valid)
    (hs : IndexInv N s) : s'.Levelled := by
  have hsize : s'.size = s.size := hshape.size
  have hpar : s'.par = s.par := hshape.par
  intro p hp hlevel a ha
  rw [hsize] at hp
  rw [hpar] at ha ⊢
  rcases hnew p hp hlevel with hbefore | hall
  · rcases h p hp hbefore a ha with hroot | hscripts
    · exact .inl hroot
    · exact .inr (hscripts.trans (hle a (hs.shape.tree.graded.anc_mem hp ha)))
  · exact hall a ha

theorem NodeState.Levelled.congr (h : s.Levelled) (hs : IndexInv N s)
    (hshape : s.mapBlockIndex.SameShape s'.mapBlockIndex)
    (hvalid : ∀ p, (s'.entry p).nStatus.valid = (s.entry p).nStatus.valid) : s'.Levelled :=
  h.raise hshape (fun p _ => (hvalid p).ge) (fun p _ hp => .inl ((hvalid p) ▸ hp)) hs

theorem NodeState.Levelled.of_map (h : s.Levelled) (hs : IndexInv N s)
    (hmap : s'.mapBlockIndex = s.mapBlockIndex) : s'.Levelled :=
  h.congr hs (hmap ▸ .refl _) fun p => congrArg (fun m : BlockMap => (m.entry p).nStatus.valid) hmap

theorem NodeState.Levelled.modify (h : s.Levelled) (hs : IndexInv N s) {f : CBlockIndex → CBlockIndex} (p : Ptr)
    (hshape : ∀ e, (f e).shape = e.shape) (hvalid : ∀ e, (f e).nStatus.valid = e.nStatus.valid) :
    (s.modify p f).Levelled :=
  h.congr hs (.modify _ p hshape) (entry_modify_keep (fun e => e.nStatus.valid) s p f hvalid)

/-- An entry is connected on a tip whose branch has been connected. -/
theorem NodeState.Levelled.record (h : s.Levelled) (hs : IndexInv N s) (hready : Ready s) (hpar : s.par p = some t)
    (htip : s.tip = some t) (hvalid : s.failed p = false) (u : Nat) (r : ConnectResult) :
    (s.recorded p u r).Levelled := by
  have hself : ((s.recorded p u r).entry p).nStatus.valid = max (s.entry p).nStatus.valid BLOCK_VALID_SCRIPTS := by
    rw [recorded_entry_self]
    exact connectedStatus_valid hvalid
  have hother : ∀ q, q ≠ p → ((s.recorded p u r).entry q).nStatus.valid = (s.entry q).nStatus.valid := fun q hq => by
    rw [recorded_entry_ne _ _ _ _ hq]
  have hle : ∀ q, (s.entry q).nStatus.valid ≤ ((s.recorded p u r).entry q).nStatus.valid := by
    intro q
    by_cases hqp : q = p
    · rw [hqp, hself]
      exact Nat.le_max_left _ _
    · exact (hother q hqp).ge
  refine h.raise (recorded_sameShape s p u r) (fun q _ => hle q) (fun q _ hlevel => ?_) hs
  by_cases hqp : q = p
  · right
    intro a ha
    rw [hqp] at ha
    rcases (Forest.anc_of_parent hpar).mp ha with rfl | ha
    · right
      rw [hself]
      exact Nat.le_max_right _ _
    · exact (hready.tip t htip a ha).2.imp_right fun hscripts => hscripts.trans (hle a)
  · rw [hother q hqp] at hlevel
    exact .inl hlevel

theorem ChainMove.levelled (move : ChainMove s s') (hs : IndexInv N s) (hready : Ready s) (h : s.Levelled) :
    s'.Levelled := by
  cases move with
  | note | quiet | write | erase | connect | disconnect => exact h.of_map hs rfl
  | @mint p r | @failChild a p | @failTip a p => exact h.modify hs p (fun _ => rfl) fun _ => rfl
  | @reject p =>
    have hmarked : (s.failValid p).Levelled := h.modify hs p (fun _ => rfl) fun _ => rfl
    exact hmarked
  | @record p t u r size par tip linked valid => exact h.record hs hready par tip valid u r

/-- Accepting a block raises an entry to the level of a stored block at most. -/
theorem NodeState.Levelled.acceptRule : AcceptRule N fun s _ => s.Levelled where
  add {s block q} hs _ h := by
    intro p hp hlevel a ha
    rcases addEntry_cases hp with hlt | rfl
    · rw [addEntry_entry_old s _ hlt] at hlevel
      have ha : Anc s.par a p := (addEntry_anc hs.shape.tree _ hlt).mp ha
      have hasize := hs.shape.tree.graded.anc_mem hlt ha
      rw [addEntry_par_old s _ hasize, addEntry_entry_old s _ hasize]
      exact h p hlt hlevel a ha
    · rw [addEntry_entry_new] at hlevel
      have htree : (childEntry N s block q).nStatus.valid = BLOCK_VALID_TREE := rfl
      rw [htree] at hlevel
      exact absurd hlevel (by decide)
  note {s s'} hmap _ _ _ _ h := by
    unfold NodeState.Levelled NodeState.size NodeState.entry NodeState.par
    rw [hmap]
    exact h
  mark hs _ _ h := h.modify hs _ (fun _ => rfl) fun _ => rfl
  receive {s block p} hs hp hempty hvalid h := by
    have hbefore : (s.entry p).nStatus.valid < BLOCK_VALID_TRANSACTIONS := by
      by_contra hge
      rw [(hs.flow.data_valid p hp).mpr (Nat.not_lt.mp hge)] at hempty
      simp at hempty
    have hself : ((receiveData N s block p).entry p).nStatus.valid = BLOCK_VALID_TRANSACTIONS := by
      rw [receiveData_entry_self, receivedEntry_valid N _ block _ hvalid]
      omega
    refine h.raise receiveData_sameShape (fun q _ => ?_) (fun q _ hlevel => ?_) hs
    · by_cases hqp : q = p
      · rw [hqp, hself]
        exact hbefore.le
      · rw [receiveData_entry_ne hqp]
    · by_cases hqp : q = p
      · rw [hqp, hself] at hlevel
        exact absurd hlevel (by decide)
      · rw [receiveData_entry_ne hqp] at hlevel
        exact .inl hlevel
  link hs _ hby h := h.congr hs hby.shape fun q => congrArg BlockStatus.valid (hby.nStatus q)
  wait _ _ _ _ h := h
  skip _ _ _ _ _ h := h

/-! ## Candidates and the tip -/

/-- No candidate is worse than an entry of the active chain. -/
def NodeState.NoneWorse (s : NodeState) : Prop :=
  ∀ t, s.tip = some t → ∀ a, Anc s.par a t → ∀ c ∈ s.setBlockIndexCandidates, s.worse c a = false

/-- The tip is not worse than an entry below it. -/
def NodeState.TipOnTop (s : NodeState) : Prop :=
  ∀ t, s.tip = some t → ∀ a, Anc s.par a t → s.worse t a = false

/-- Fewer candidates, on a chain that is no longer. -/
theorem NodeState.NoneWorse.narrow (h : s.NoneWorse) (hn : Narrowed s s')
    (htip : ∀ t, s'.tip = some t → ∃ t₀, s.tip = some t₀ ∧ Anc s.par t t₀) : s'.NoneWorse := by
  intro t ht a ha c hc
  obtain ⟨t₀, ht₀, hanc⟩ := htip t ht
  rw [show s'.par = s.par from hn.shape.par] at ha
  rw [hn.worse]
  exact h t₀ ht₀ a (ha.trans hanc) c (hn.candidates c hc)

theorem ChainMove.noneWorse (move : ChainMove s s') (hs : IndexInv N s) (h : s.NoneWorse) : s'.NoneWorse := by
  have hn := move.narrowed
  have hsame : s'.tip = s.tip → s'.NoneWorse := fun htip =>
    h.narrow hn fun t ht => ⟨t, htip.symm.trans ht, .refl t⟩
  cases move with
  | note | quiet | record | write | mint | reject | failChild | failTip | erase => exact hsame rfl
  | @connect p t view size par tip linked valid scripts =>
    obtain ⟨-, hends, -⟩ := hs.tip_eq tip
    have htip : (({ s with pcoinsTip := view } : NodeState).updateTip (some p)).tip = some p :=
      (hends.setTip_child hs.shape.tree size par).tip hs.shape.tree size
    intro t' ht' a ha c hc
    cases htip.symm.trans ht'
    have hc : c ∈ s.setBlockIndexCandidates.filter fun q => !s.worse q p := hc
    obtain ⟨hmem, hbest⟩ := mem_filter.mp hc
    rw [Bool.not_eq_true'] at hbest
    have ha : Anc s.par a p := ha
    rw [hn.worse]
    rcases (Forest.anc_of_parent par).mp ha with rfl | ha
    · exact hbest
    · exact h t tip a ha c hmem
  | @disconnect t q view tip par =>
    obtain ⟨hsize, hends, -⟩ := hs.tip_eq tip
    have hq := hs.shape.tree.graded.closed hsize par
    have htip : (({ s with pcoinsTip := view } : NodeState).updateTip (some q)).tip = some q :=
      (hends.setTip_parent hs.shape.tree hsize par).tip hs.shape.tree hq
    refine h.narrow hn fun t' ht' => ⟨t, tip, ?_⟩
    rw [← Option.mem_unique htip ht']
    exact .of_parent par

/-- New candidates are not worse than the tip, and so not worse than an entry below it. -/
theorem NodeState.NoneWorse.offer (h : s.NoneWorse ∧ s.TipOnTop) (hs : IndexInv N s) (hx : Offers s s') :
    s'.NoneWorse ∧ s'.TipOnTop := by
  obtain ⟨t, ht⟩ := hs.exists_tip
  obtain ⟨hsize, -, hlinked, -⟩ := hs.tip_eq ht
  have hg := hs.shape.tree.graded
  have htip : ∀ t', s'.tip = some t' → t' = t := fun t' ht' =>
    Option.some.inj ((hx.tip.symm.trans ht').symm.trans ht)
  have hchain : ∀ a, Anc s'.par a t → Anc s.par a t ∧ a < s.size ∧ s.linked a = true := by
    intro a ha
    have ha : Anc s.par a t := (hg.anc_congr hx.par hsize).mp ha
    exact ⟨ha, hg.anc_mem hsize ha, hs.linked_anc hsize hlinked ha⟩
  have htop : ∀ a, Anc s'.par a t → s'.worse t a = false := by
    intro a ha
    obtain ⟨hanc, hasize, halinked⟩ := hchain a ha
    rw [hx.worse t hsize a hasize hlinked halinked]
    exact h.2 t ht a hanc
  constructor
  · intro t' ht' a ha c hc
    rw [htip t' ht'] at ha
    rcases hx.new c hc with hold | hbest
    · obtain ⟨hanc, hasize, halinked⟩ := hchain a ha
      obtain ⟨hcsize, hclinked⟩ := hs.flow.candidates c hold
      rw [hx.worse c hcsize a hasize hclinked halinked]
      exact h.1 t ht a hanc c hold
    · exact not_worse_trans (htop a ha) (hbest t ht)
  · intro t' ht' a ha
    rw [htip t' ht'] at ha ⊢
    exact htop a ha

theorem NodeState.NoneWorse.acceptRule : AcceptRule N fun s _ => s.NoneWorse ∧ s.TipOnTop :=
  .of_offers (fun hs hx h => NodeState.NoneWorse.offer h hs hx) fun {s s'} hmap haddr hchain hcand h => by
    unfold NodeState.NoneWorse NodeState.TipOnTop NodeState.tip NodeState.par NodeState.worse
    rw [hmap, haddr, hchain, hcand]
    exact h

/-- The tip of a covered index that no candidate is better than. -/
theorem Ready.tipOnTop (h : Ready s) (hs : IndexInv N s) (hbest : ∀ t, s.tip = some t →
    ∀ q ∈ s.setBlockIndexCandidates, s.worse t q = false) : s.TipOnTop := by
  intro t ht a ha
  obtain ⟨hsize, -, hlinked, -⟩ := hs.tip_eq ht
  by_cases hmem : a ∈ s.setBlockIndexCandidates
  · exact hbest t ht a hmem
  · have hworse : s.worse a t = true :=
      h.complete hbest t ht a (hs.shape.tree.graded.anc_mem hsize ha) (hs.linked_anc hsize hlinked ha)
        ((h.tip t ht) a ha).1 hmem
    by_contra hno
    rw [Bool.not_eq_false] at hno
    have hself : s.worse t t = true := worse_trans hno hworse
    rw [show s.worse t t = false from worse_irrefl t] at hself
    simp at hself

/-! ## The check of an entry -/

/-- What holds in the states of the runs, besides the invariant of the index. -/
structure Checked (s : NodeState) : Prop where
  linking : Linking s []
  levelled : s.Levelled
  noneWorse : s.NoneWorse
  tipOnTop : s.TipOnTop

/-- The genesis block is active, and linked. -/
theorem IndexInv.root_active (hs : IndexInv N s) (hp : p < s.size) (hroot : s.par p = none) :
    s.chainActive[0]? = some (some p) ∧ s.linked p = true := by
  obtain ⟨t, ht⟩ := hs.exists_tip
  obtain ⟨hsize, hends, hlinked, -⟩ := hs.tip_eq ht
  have hg := hs.shape.tree.graded
  obtain ⟨a, hanc, hheight⟩ := hg.exists_anc hsize (Nat.zero_le _)
  have ha := hg.anc_mem hsize hanc
  have haroot : s.par a = none := by
    cases hpar : s.par a with
    | none => rfl
    | some b =>
      have := hg.height ha hpar
      omega
  obtain rfl : a = p := hs.shape.tree.root a ha p hp haroot hroot
  exact ⟨(hends.getElem? hs.shape.tree hsize 0).mpr ⟨hanc, hheight⟩, hs.linked_anc hsize hlinked hanc⟩

/-- An ancestor without its data is missing exactly when the entry is not linked. -/
theorem Checked.missing_iff (h : Checked s) (hs : IndexInv N s) (hp : p < s.size) (hsees : f.Sees s p) :
    f.pindexFirstMissing = none ↔ s.linked p = true := by
  rw [hsees.missing]
  constructor
  · exact h.linking.linked_of_data hs (fun q hq hroot => (hs.root_active hq hroot).2) hp
  · intro hlinked a ha
    exact hs.flow.linked_data a (hs.shape.tree.graded.anc_mem hp ha) (hs.linked_anc hp hlinked ha)

/-- The candidates are what the check asks for. -/
theorem Checked.candidates (h : Checked s) (hs : IndexInv N s) (hfounded : Founded s) (hcomplete : s.Complete)
    (hp : p < s.size) (hsees : f.Sees s p) :
    if (!s.worseThanTip p && f.pindexFirstMissing.isNone) = true then
      f.pindexFirstInvalid.isNone → p ∈ s.setBlockIndexCandidates
    else p ∉ s.setBlockIndexCandidates := by
  have hmissing := h.missing_iff hs hp hsees
  obtain ⟨t, ht⟩ := hs.exists_tip
  have hworse : s.worseThanTip p = s.worse p t := by
    unfold NodeState.worseThanTip
    rw [ht]
  rw [hworse]
  split_ifs with hgood
  · intro hvalid
    rw [Bool.and_eq_true, Bool.not_eq_true', isNone_iff_eq_none] at hgood
    rw [isNone_iff_eq_none, hsees.invalid] at hvalid
    by_contra hnot
    have hfailed : s.failed p = false := by
      cases hmark : s.failed p with
      | false => rfl
      | true =>
        obtain ⟨a, hanc, ha⟩ := hfounded.flags p hp hmark
        cases (hvalid a hanc).symm.trans ha
    have hbad := hcomplete t ht p hp (hmissing.mp hgood.2) hfailed hnot
    cases hgood.1.symm.trans hbad
  · intro hmem
    apply hgood
    rw [h.noneWorse t ht t (.refl t) p hmem, hmissing.mpr (hs.flow.candidates p hmem).2]
    rfl

/-- An entry is found in `mapBlocksUnlinked` where the check looks for it. -/
theorem Checked.foundInUnlinked (h : Checked s) (hs : IndexInv N s) (hfounded : Founded s) (hp : p < s.size)
    (hsees : f.Sees s p) :
    if ((s.entry p).pprev.isSome && (s.entry p).nStatus.haveData && f.pindexFirstMissing.isSome) = true then
      f.pindexFirstInvalid.isNone → s.foundInUnlinked p
    else s.foundInUnlinked p = false := by
  have hmissing := h.missing_iff hs hp hsees
  have hprev : s.par p = (s.entry p).pprev := rfl
  unfold NodeState.foundInUnlinked
  rw [← hprev]
  cases hpar : s.par p with
  | none => simp
  | some q =>
    simp only [isSome_some, Bool.true_and]
    split_ifs with hwaits
    · intro hvalid
      rw [Bool.and_eq_true, isSome_iff_ne_none] at hwaits
      rw [isNone_iff_eq_none, hsees.invalid] at hvalid
      have hlinked : s.linked p = false := by
        rw [← Bool.not_eq_true]
        exact fun hl => hwaits.2 (hmissing.mpr hl)
      rcases h.linking.waits p hp q hpar hwaits.1 hlinked (by simp) with hmem | ⟨hfailed, -⟩
      · exact decide_eq_true hmem
      · -- The mark of the parent rests on an invalid ancestor.
        obtain ⟨a, hanc, ha⟩ := hfounded.flags q (hs.shape.tree.graded.closed hp hpar) hfailed
        cases (hvalid a (.step hpar hanc)).symm.trans ha
    · refine decide_eq_false fun hmem => hwaits ?_
      obtain ⟨-, -, hdata, hlinked⟩ := hs.flow.unlinked (q, p) hmem
      have hdata : (s.entry p).nStatus.haveData = true := hdata
      rw [hdata, Bool.true_and, isSome_iff_ne_none]
      intro hnone
      cases hlinked.symm.trans (hmissing.mp hnone)

theorem checkEntry_ok (hs : IndexInv N s) (hfounded : Founded s) (hcomplete : s.Complete) (h : Checked s)
    (hp : p < s.size) (hsees : f.Sees s p) : checkEntry N s f (s.ht p) p = .ok () := by
  have hmissing := h.missing_iff hs hp hsees
  have hcandidates := h.candidates hs hfounded hcomplete hp hsees
  have hunlinked := h.foundInUnlinked hs hfounded hp hsees
  have hprev : s.par p = (s.entry p).pprev := rfl
  have hlinked : s.linked p = decide ((s.entry p).nChainTx ≠ 0) := rfl
  have htree : f.pindexFirstNotTreeValid.isNone = true := by
    rw [isNone_iff_eq_none, hsees.notTreeValid]
    exact fun a ha => .inr (hs.flow.valid a (hs.shape.tree.graded.anc_mem hp ha))
  have hscripts : ∀ a, BLOCK_VALID_SCRIPTS ≤ (s.entry a).nStatus.valid →
      BLOCK_VALID_CHAIN ≤ (s.entry a).nStatus.valid := fun a ha => le_trans (by decide) ha
  simp only [checkEntry, check_seq_ok, onlyIf_eq_ok, assertThat, require_eq_ok, decide_eq_true_eq]
  refine ⟨fun hroot => ?_, fun hroot => ?_, ?_, ?_, fun hzero => ?_, ?_, rfl, ?_, ?_, htree, fun _ => htree,
    fun hlevel => ?_, fun hlevel => ?_, fun hvalid => ?_, ?_⟩
  · exact hs.shape.genesis p hp (isNone_iff_eq_none.mp hroot)
  · exact (hs.root_active hp (isNone_iff_eq_none.mp hroot)).1
  · have hdata := hs.flow.data_tx p hp
    unfold NodeState.haveData at hdata
    cases hhave : (s.entry p).nStatus.haveData with
    | true =>
      have := hdata.mp hhave
      simp
      omega
    | false =>
      have : ¬ 0 < (s.entry p).nTx := fun htx => Bool.false_ne_true (hhave.symm.trans (hdata.mpr htx))
      simp
      omega
  · rw [decide_eq_decide, ← hs.flow.data_valid p hp, hs.flow.data_tx p hp]
  · refine h.linking.sequence p hp ?_
    rw [hlinked, hzero]
    rfl
  · cases hl : s.linked p with
    | true =>
      rw [hmissing.mpr hl]
      rw [hl] at hlinked
      have hne := of_decide_eq_true hlinked.symm
      simp [hne]
    | false =>
      have hsome : f.pindexFirstMissing.isSome = true := by
        rw [isSome_iff_ne_none]
        exact fun hnone => Bool.false_ne_true (hl.symm.trans (hmissing.mp hnone))
      rw [hl] at hlinked
      have hzero := of_decide_eq_false hlinked.symm
      rw [hsome]
      simpa using hzero
  · have hwork := hs.shape.work p hp
    rw [← hprev]
    cases hpar : s.par p with
    | none => rfl
    | some q =>
      rw [show s.mapBlockIndex.par p = some q from hpar] at hwork
      refine decide_eq_true ?_
      show (s.mapBlockIndex.entry q).nChainWork ≤ (s.mapBlockIndex.entry p).nChainWork
      simp only at hwork
      omega
  · by_cases hlow : s.ht p < 2
    · simp [hlow]
    · have hnotroot : s.mapBlockIndex.par p ≠ none := fun hroot => by
        have hzero : s.ht p = 0 := hs.shape.tree.graded.root hp hroot
        omega
      obtain ⟨a, hskip, -, hheight⟩ := hs.shape.tree.skip p hp hnotroot
      have hskip : (s.entry p).pskip = some a := hskip
      have hheight : s.ht a = getSkipHeight (s.ht p) := hheight
      have hlt := getSkipHeight_lt (show 0 < s.ht p by omega)
      rw [hskip]
      simp only [Bool.or_eq_true, decide_eq_true_eq]
      omega
  · rw [isNone_iff_eq_none, hsees.notChainValid]
    exact fun a ha => (h.levelled p hp hlevel a ha).imp_right (hscripts a)
  · rw [isNone_iff_eq_none, hsees.notScriptsValid]
    exact h.levelled p hp (hscripts p hlevel)
  · rw [isNone_iff_eq_none, hsees.invalid] at hvalid
    cases hmark : (s.entry p).nStatus.failed with
    | false => rfl
    | true =>
      obtain ⟨a, hanc, ha⟩ := hfounded.flags p hp hmark
      cases (hvalid a hanc).symm.trans ha
  · split_ifs at hcandidates hunlinked ⊢ with hgood hwaits hwaits <;>
      simp only [check_seq_ok, onlyIf_eq_ok, require_eq_ok, decide_eq_true_eq, Bool.not_eq_true'] <;>
      exact ⟨hcandidates, hunlinked⟩

/-! ## Whole runs -/

/-- The calls of the runs: a header, a block for which `ReceivedBlockTransactions` does not fail, or an
`ActivateBestChain` that returns true. -/
def Op.Plain (N : Node) (s : NodeState) : Op → Prop
  | acceptBlockHeader _ => True
  | acceptBlock block => ReceivesFully N s block
  | activateBestChain pblock turns =>
    ∀ r s', Reddcoin.activateBestChain N pblock turns s = some (r, s') → r = .ok ()
  | _ => False

/-- The states of runs of such calls from a fresh index. -/
inductive PlainRun (N : Node) : NodeState → Prop where
  | init {genesis : CBlock} {A : Addresses} {turns : Nat} {s : NodeState} (isGenesis : IsGenesis N genesis)
      (run : initBlockIndex N genesis A turns = some (.ok (), s)) (active : s.tip ≠ none) : PlainRun N s
  | reindex {genesis : CBlock} {A : Addresses} {turns : Nat} {s : NodeState}
      (isGenesis : IsGenesis N genesis)
      (run : processNewBlock N turns (NodeState.empty A) genesis = some (.ok (), s))
      (active : s.tip ≠ none) : PlainRun N s
  | step {s s' : NodeState} (op : Op) (before : PlainRun N s) (plain : op.Plain N s) (step : Step N op s s') :
      PlainRun N s'

/-- A verdict stays on record. -/
theorem Move.verdicts (move : Move N s s') : ∀ p ∈ s.reversedVerdicts, p ∈ s'.reversedVerdicts := by
  intro p hp
  cases move with
  | user move =>
    cases move with
    | chain move => exact move.narrowed.verdicts p hp
    | invalidate => exact hp
    | clear => exact hp
    | insert => exact hp
  | add => exact hp
  | failEmpty => exact hp
  | failQuiet => exact hp
  | receive => exact hp
  | link => exact hp
  | stake => exact hp
  | drain => exact hp
  | wait => exact hp

theorem Moves.verdicts (moves : Moves N s s') (h : s'.reversedVerdicts = []) : s.reversedVerdicts = [] := by
  induction moves with
  | refl => exact h
  | tail _ move ih =>
    refine ih (eq_nil_iff_forall_not_mem.mpr fun p hp => ?_)
    have hmem := move.verdicts p hp
    rw [h] at hmem
    simp at hmem

theorem Op.Plain.sound {op : Op} (h : op.Plain N s) : op.Sound N s ∧ op.Orderly N s ∧ ∀ A, op ≠ .restart A := by
  cases op with
  | acceptBlockHeader block => exact ⟨trivial, trivial, fun A => by simp⟩
  | acceptBlock block => exact ⟨h, trivial, fun A => by simp⟩
  | activateBestChain pblock turns => exact ⟨trivial, h, fun A => by simp⟩
  | processNewBlock | invalidateBlock | reconsiderBlock | restart => exact h.elim

theorem PlainRun.reachable (h : PlainRun N s) : Reachable N s := by
  induction h with
  | init isGenesis run active => exact .init isGenesis run active
  | reindex isGenesis run active => exact .reindex isGenesis run active
  | step op _ _ step ih => exact .step op ih step

/-- A plain run without a reversed verdict is orderly. -/
theorem PlainRun.orderlyRun (h : PlainRun N s) (hverdicts : s.reversedVerdicts = []) : OrderlyRun N s := by
  induction h with
  | init isGenesis run active => exact .init isGenesis run active
  | reindex isGenesis run active => exact .reindex isGenesis run active
  | step op before plain step ih =>
    obtain ⟨hsound, horderly, hop⟩ := plain.sound
    obtain ⟨r, s₁, hrun, hreturns, rfl⟩ := step
    have hbefore := (run_moves before.reachable.inv hrun hop).verdicts hverdicts
    exact .step op (ih hbefore) hsound horderly ⟨r, s₁, hrun, hreturns, rfl⟩ hverdicts

theorem Fresh.checked (h : Fresh N s) : Checked s := by
  have hs := h.starting
  have hone : ∀ p < s.size, p = 0 := fun p hp => Nat.lt_one_iff.mp (lt_of_lt_of_eq hp hs.size)
  have htip : ∀ t, s.tip = some t → t = 0 := by
    intro t ht
    have hzero : s.tip = some 0 := by
      unfold NodeState.tip
      rw [h.chainActive]
      rfl
    exact Option.mem_unique ht hzero
  have hroot : ∀ t a, s.tip = some t → Anc s.par a t → a = 0 := by
    intro t a ht ha
    rw [htip t ht] at ha
    exact (Forest.anc_of_root hs.par).mp ha
  refine ⟨⟨?_, ?_, ?_, ?_⟩, ?_, ?_, ?_⟩
  · intro p hp _
    rw [hone p hp]
    exact .inl hs.linked
  · intro p hp q hq
    rw [hone p hp, hs.par] at hq
    simp at hq
  · intro w hw
    rw [hs.unlinked] at hw
    simp at hw
  · intro p hp hl
    rw [hone p hp, hs.linked] at hl
    simp at hl
  · intro p hp hlevel
    rw [hone p hp, hs.valid] at hlevel
    exact absurd hlevel (by decide)
  · intro t ht a ha c hc
    rw [hroot t a ht ha, (hs.candidates c).mp hc]
    exact worse_irrefl 0
  · intro t ht a ha
    rw [hroot t a ht ha, htip t ht]
    exact worse_irrefl 0

/-- What `ActivateBestChain` keeps on its way; that the tip is on top holds when it is done. -/
theorem ChainMoves.checked (moves : ChainMoves s s') (hs : IndexInv N s) (hready : Ready s) (h : Checked s)
    (hverdicts : s'.reversedVerdicts = []) : s'.Levelled ∧ s'.NoneWorse := by
  induction moves with
  | refl => exact ⟨h.levelled, h.noneWorse⟩
  | @tail s₁ s₂ before move ih =>
    have hbefore : s₁.reversedVerdicts = [] := by
      refine eq_nil_iff_forall_not_mem.mpr fun p hp => ?_
      have hmem := move.narrowed.verdicts p hp
      rw [hverdicts] at hmem
      simp at hmem
    obtain ⟨hlevelled, hworse⟩ := ih hbefore
    have hs₁ := ChainMoves.inv before hs
    exact ⟨move.levelled hs₁ (ChainMoves.ready before hs hready hbefore) hlevelled, move.noneWorse hs₁ hworse⟩

theorem run_checked {op : Op} (hs : IndexInv N s) (hready : Ready s) (h : Checked s) (hplain : op.Plain N s)
    {r : Check Unit} (hrun : op.run N s = some (r, s')) (hready' : Ready s')
    (hverdicts : s'.reversedVerdicts = []) : Checked s' := by
  cases op with
  | acceptBlockHeader block =>
    cases hrun
    obtain ⟨hworse, htop⟩ := NodeState.NoneWorse.acceptRule.acceptBlockHeader hs ⟨h.noneWorse, h.tipOnTop⟩ block
    exact ⟨Linking.acceptRule.acceptBlockHeader hs h.linking block,
      NodeState.Levelled.acceptRule.acceptBlockHeader hs h.levelled block, hworse, htop⟩
  | acceptBlock block =>
    cases hrun
    obtain ⟨hworse, htop⟩ := NodeState.NoneWorse.acceptRule.acceptBlock hs ⟨h.noneWorse, h.tipOnTop⟩ hplain
    exact ⟨Linking.acceptRule.acceptBlock hs h.linking hplain,
      NodeState.Levelled.acceptRule.acceptBlock hs h.levelled hplain, hworse, htop⟩
  | activateBestChain pblock turns =>
    obtain rfl := hplain r s' hrun
    have hmoves := activateBestChain_moves hs hrun
    obtain ⟨hlevelled, hworse⟩ := ChainMoves.checked hmoves hs hready h hverdicts
    exact ⟨Linking.chainMoves hmoves h.linking, hlevelled, hworse,
      hready'.tipOnTop (ChainMoves.inv hmoves hs) (activateBestChain_best hs hready' hrun)⟩
  | processNewBlock | invalidateBlock | reconsiderBlock | restart => exact hplain.elim

theorem PlainRun.checked (h : PlainRun N s) (hverdicts : s.reversedVerdicts = []) : Checked s := by
  induction h with
  | init isGenesis run active => exact (initBlockIndex_fresh isGenesis run active).checked
  | reindex isGenesis run active => exact (processNewBlock_fresh isGenesis run active).checked
  | @step s s' op before plain step ih =>
    have hready' := ((PlainRun.step op before plain step).orderlyRun hverdicts).soundRun.ready
    obtain ⟨-, -, hop⟩ := plain.sound
    obtain ⟨r, s₁, hrun, -, rfl⟩ := step
    have hs := before.reachable.inv
    have hbefore := (run_moves hs hrun hop).verdicts hverdicts
    have hready := (before.orderlyRun hbefore).soundRun.ready
    obtain ⟨hlinking, hlevelled, hworse, htop⟩ :=
      run_checked hs hready (ih hbefore) plain hrun (hready'.note rfl rfl rfl rfl) hverdicts
    exact ⟨hlinking.of_map rfl rfl, hlevelled, hworse, htop⟩

end

namespace Example

/-- A node whose clock is set back by half an hour after a while. -/
def slippingNode : Node where
  P := node.P
  C := node.C
  world now := { env with nAdjustedTime := if now < 6 then 30000 else 28200 }

def slipStart : NodeState :=
  left (initBlockIndex slippingNode genesisBlock addresses 2)

/-- A block that is nearly two hours ahead of the clock is activated. -/
def aheadReceived : NodeState :=
  after slippingNode slipStart (.acceptBlock (nodeBlock 7000 36000 1))

def aheadActive : NodeState :=
  after slippingNode aheadReceived (.activateBestChain none 2)

/-- A better branch of two such blocks follows. -/
def besideReceived : NodeState :=
  after slippingNode aheadActive (.acceptBlock (nodeBlock 7000 36000 2))

def branchReceived : NodeState :=
  after slippingNode besideReceived (.acceptBlock (nodeBlock 7002 36100 3))

/-- When the branch is going to be activated, the clock is back. -/
def slipped : NodeState :=
  after slippingNode branchReceived (.activateBestChain none 5)

theorem plain_activate {N : Node} {s : NodeState} {pblock : Option CBlock} {turns : Nat}
    (h : ((activateBestChain N pblock turns s).map fun x => x.1.isOk) = some true) :
    (Op.activateBestChain pblock turns).Plain N s := by
  intro r s' hrun
  have hok := (eq_some_left h).symm.trans hrun
  exact (Prod.mk.inj (Option.some.inj hok)).1.symm

theorem plain_branchReceived : PlainRun slippingNode branchReceived := by
  have hstart : PlainRun slippingNode slipStart :=
    .init ⟨by decide, by decide, by decide⟩ (eq_some_left (by decide)) (by decide)
  have hreceived : PlainRun slippingNode aheadReceived :=
    .step (.acceptBlock (nodeBlock 7000 36000 1)) hstart (ReceivesFully.of_ok (by decide)) (step_after (by decide))
  have hactive : PlainRun slippingNode aheadActive :=
    .step (.activateBestChain none 2) hreceived (plain_activate (by decide)) (step_after (by decide))
  have hbeside : PlainRun slippingNode besideReceived :=
    .step (.acceptBlock (nodeBlock 7000 36000 2)) hactive (ReceivesFully.of_ok (by decide)) (step_after (by decide))
  exact .step (.acceptBlock (nodeBlock 7002 36100 3)) hbeside (ReceivesFully.of_ok (by decide))
    (step_after (by decide))

theorem plain_slipped : PlainRun slippingNode slipped :=
  .step (.activateBestChain none 5) plain_branchReceived (plain_activate (by decide +kernel))
    (step_after (by decide +kernel))

end Example

open Example

end Reddcoin
