import Reddcoin.Index.BestTip

/-!
# Failure flags and candidates

An entry should be marked failed only because it or an ancestor of it is invalid, and an entry that could be
active and is as good as the tip should be a candidate.  `InvalidateBlock` sees to both.  `ReconsiderBlock`
does so exactly when no mark beside the entry rests on an ancestor that it clears, and when no ancestor that
it clears has to become a candidate.
-/

namespace Reddcoin

open Forest (Anc)

/-! ## What the flags rest on -/

/-- Every mark rests on an invalid entry, and only linked entries are marked as descendants of one. -/
structure Founded (s : NodeState) : Prop where
  flags : ∀ p < s.size, s.failed p = true → ∃ a, Anc s.par a p ∧ (s.entry a).nStatus.failedValid = true
  child : ∀ p < s.size, (s.entry p).nStatus.failedChild = true → s.linked p = true

section

variable {N : Node} {s s' : NodeState} {p q t : Ptr}

/-- Entries are marked invalid, or as descendants of an invalid entry. -/
theorem Founded.mark (h : Founded s) (hshape : s.mapBlockIndex.SameShape s'.mapBlockIndex)
    (hlinked : ∀ p < s.size, s.linked p → s'.linked p)
    (hvalid : ∀ p, (s.entry p).nStatus.failedValid → (s'.entry p).nStatus.failedValid)
    (hchild : ∀ p < s.size, (s'.entry p).nStatus.failedChild → (s.entry p).nStatus.failedChild ∨
        (s.linked p ∧ ∃ a, Anc s.par a p ∧ (s'.entry a).nStatus.failedValid)) :
    Founded s' := by
  have hpar : s'.par = s.par := hshape.par
  have hsize : s'.size = s.size := hshape.size
  constructor
  · intro p hp hfailed
    rw [hpar]
    rw [hsize] at hp
    rcases (failed_iff s' p).mp hfailed with hself | hself
    · exact ⟨p, .refl p, hself⟩
    · rcases hchild p hp hself with hbefore | ⟨-, hinvalid⟩
      · obtain ⟨a, hanc, ha⟩ := h.flags p hp ((failed_iff s p).mpr (.inr hbefore))
        exact ⟨a, hanc, hvalid a ha⟩
      · exact hinvalid
  · intro p hp hself
    rw [hsize] at hp
    rcases hchild p hp hself with hbefore | ⟨hl, -⟩
    · exact hlinked p hp (h.child p hp hbefore)
    · exact hlinked p hp hl

theorem Founded.of_map (h : Founded s) (hmap : s'.mapBlockIndex = s.mapBlockIndex) : Founded s' := by
  have he : ∀ p, s'.entry p = s.entry p := fun p => congrArg (fun m : BlockMap => m.entry p) hmap
  refine h.mark (hmap ▸ .refl _) (fun p _ hl => ?_) (fun p hp => ?_) fun p _ hp => ?_
  · exact (congrArg CBlockIndex.linked (he p)).trans hl
  · rw [he]
    exact hp
  · rw [he] at hp
    exact .inl hp

/-- A change of one entry that keeps its link and sets no flag but that of an invalid block. -/
theorem Founded.modify (h : Founded s) {f : CBlockIndex → CBlockIndex} (hshape : ∀ e, (f e).shape = e.shape)
    (hlinked : (s.entry p).linked → (f (s.entry p)).linked)
    (hvalid : (s.entry p).nStatus.failedValid → (f (s.entry p)).nStatus.failedValid)
    (hchild : (f (s.entry p)).nStatus.failedChild = (s.entry p).nStatus.failedChild) :
    Founded (s.modify p f) := by
  refine h.mark (.modify _ p hshape) (fun q _ hl => ?_) (fun q hq => ?_) fun q _ hq => ?_
  · by_cases hqp : q = p
    · rw [hqp] at hl ⊢
      unfold NodeState.linked
      rw [entry_modify_self]
      exact hlinked hl
    · unfold NodeState.linked
      rw [entry_modify_ne hqp]
      exact hl
  · by_cases hqp : q = p
    · rw [hqp] at hq ⊢
      rw [entry_modify_self]
      exact hvalid hq
    · rw [entry_modify_ne hqp]
      exact hq
  · by_cases hqp : q = p
    · rw [hqp, entry_modify_self, hchild] at hq
      rw [hqp]
      exact .inl hq
    · rw [entry_modify_ne hqp] at hq
      exact .inl hq

theorem Founded.failValid (h : Founded s) (p : Ptr) : Founded (s.failValid p) :=
  h.modify (fun _ => rfl) (fun hl => hl) (fun _ => rfl) rfl

/-- A mark on a linked entry below one that is marked. -/
theorem Founded.failChild (h : Founded s) (hs : IndexInv N s) (hp : p < s.size) (hlinked : s.linked p)
    (hanc : Anc s.par q p) (hfailed : s.failed q) : Founded (s.failChild p) := by
  have hsame := entry_modify_keep (fun e => e.nStatus.failedValid) s p CBlockIndex.failChild fun _ => rfl
  refine h.mark (.modify _ p fun _ => rfl) (fun r _ hl => ?_) (fun r hr => ?_) fun r _ hr => ?_
  · exact (entry_modify_keep CBlockIndex.linked s p CBlockIndex.failChild (fun _ => rfl) r).trans hl
  · exact (hsame r).trans hr
  · by_cases hrp : r = p
    · rw [hrp]
      obtain ⟨a, ha, hinvalid⟩ := h.flags q (hs.shape.tree.graded.anc_mem hp hanc) hfailed
      exact .inr ⟨hlinked, a, ha.trans hanc, (hsame a).trans hinvalid⟩
    · have he : (s.failChild p).entry r = s.entry r := entry_modify_ne hrp
      rw [he] at hr
      exact .inl hr

theorem ChainMove.founded (move : ChainMove s s') (hs : IndexInv N s) (h : Founded s) : Founded s' := by
  cases move with
  | note | quiet | write | erase | connect | disconnect => exact h.of_map rfl
  | mint r => exact h.modify (fun _ => rfl) (fun hl => hl) (fun hv => hv) rfl
  | @reject p =>
    have hmarked : Founded ((s.recordVerdict p).failValid p) := (h.of_map rfl : Founded (s.recordVerdict p)).failValid p
    exact hmarked.of_map rfl
  | failChild size linked anc failed => exact h.failChild hs size linked anc failed
  | failTip size linked anc failed => exact (h.failChild hs size linked anc failed).of_map rfl
  | @record p t u r =>
    have hentry : Founded (s.modify p (connectedEntry u r)) :=
      h.modify (fun _ => rfl) (fun hl => hl)
        connectedStatus_failedValid.trans connectedStatus_failedChild
    exact hentry.of_map rfl

theorem ChainMoves.founded (moves : ChainMoves s s') (hs : IndexInv N s) (h : Founded s) : Founded s' := by
  induction moves with
  | refl => exact h
  | tail before move ih => exact move.founded (ChainMoves.inv before hs) ih

/-- Accepting a block marks only entries without data, as invalid. -/
theorem Founded.acceptRule : AcceptRule N fun s _ => Founded s where
  add {s block q} hs _ h := by
    have hold (p) (hp : p < s.size) := addEntry_entry_old s (childEntry N s block q) hp
    have hnew := addEntry_entry_new s (childEntry N s block q)
    have hflag : (childEntry N s block q).nStatus.failedChild = false ∧ (childEntry N s block q).failed = false := by
      constructor
      · simp [childEntry, newEntry, CBlockIndex.ofHeader, CBlockIndex.new, BlockStatus.new]
      · simp [childEntry, newEntry, CBlockIndex.ofHeader, CBlockIndex.new, BlockStatus.new, CBlockIndex.failed,
          BlockStatus.failed]
    constructor
    · intro p hp hfailed
      rcases addEntry_cases hp with hlt | rfl
      · have hbefore : s.failed p = true := (congrArg CBlockIndex.failed (hold p hlt)).symm.trans hfailed
        obtain ⟨a, hanc, ha⟩ := h.flags p hlt hbefore
        refine ⟨a, (addEntry_anc hs.shape.tree _ hlt).mpr hanc, ?_⟩
        rw [hold a (hs.shape.tree.graded.anc_mem hlt hanc)]
        exact ha
      · unfold NodeState.failed at hfailed
        rw [hnew, hflag.2] at hfailed
        simp at hfailed
    · intro p hp hself
      rcases addEntry_cases hp with hlt | rfl
      · rw [hold p hlt] at hself
        exact (congrArg CBlockIndex.linked (hold p hlt)).trans (h.child p hlt hself)
      · rw [hnew, hflag.1] at hself
        simp at hself
  note hmap _ _ _ _ h := h.of_map hmap
  mark _ _ _ h := h.failValid _
  receive {s block p} hs hp hempty _ h := by
    have hflags : ∀ q, ((receiveData N s block p).entry q).nStatus.failedValid = (s.entry q).nStatus.failedValid ∧
        ((receiveData N s block p).entry q).nStatus.failedChild = (s.entry q).nStatus.failedChild := by
      intro q
      by_cases hqp : q = p
      · rw [hqp, receiveData_entry_self]
        exact ⟨by simp [receivedEntry_nStatus], by simp [receivedEntry_nStatus]⟩
      · rw [receiveData_entry_ne hqp]
        exact ⟨rfl, rfl⟩
    refine h.mark receiveData_sameShape (fun q hq hl => ?_) (fun q hq => (hflags q).1.trans hq) fun q _ hq =>
      .inl ((hflags q).2.symm.trans hq)
    by_cases hqp : q = p
    · rw [hqp] at hl
      cases hempty.symm.trans (hs.flow.linked_data p hp hl)
    · exact (receiveData_linked_ne hqp).trans hl
  link {s p queue waiting s'} _ hqueue hby h := by
    refine h.mark hby.shape (fun q _ hl => ?_) (fun q hq => ?_) fun q _ hq => ?_
    · have hqp : q ≠ p := by
        rintro rfl
        cases (hqueue.unlinked q List.mem_cons_self).symm.trans hl
      exact (hby.linked_ne hqp).trans hl
    · rw [hby.nStatus]
      exact hq
    · rw [hby.nStatus] at hq
      exact .inl hq
  wait _ _ _ _ h := h.of_map rfl
  skip _ _ _ _ _ h := h

theorem Invalidated.founded (h : Invalidated N p s s') (hfounded : Founded s) : Founded s' := by
  refine hfounded.mark h.marked.shape (fun q _ hl => (h.marked.linked q).trans hl)
    (fun q hq => (h.marked.flags q).failedValid hq) fun q _ hq => ?_
  rcases h.marked.failedChild q hq with hbefore | ⟨hl, hanc⟩
  · exact .inl hbefore
  · exact .inr ⟨hl, p, hanc, h.failedValid⟩

/-- A restart loses no mark on an entry that has its data. -/
theorem Restarted.founded (h : Restarted N s s') (hs : IndexInv N s) (hfounded : Founded s) : Founded s' := by
  have hg := hs.shape.tree.graded
  have hstatus : ∀ p < s.size, ∃ r, OnDisk s.writeBlockIndex p r ∧ (s'.entry p).nStatus = r.index.nStatus := by
    intro p hp
    obtain ⟨r, hr, hstored⟩ := h.entry p hp
    exact ⟨r, hr, (congrArg CBlockIndex.nStatus hstored :)⟩
  constructor
  · intro p hp hfailed
    rw [h.size] at hp
    obtain ⟨r, hr, hrecord⟩ := hstatus p hp
    rcases (failed_iff s' p).mp hfailed with hself | hself
    · exact ⟨p, .refl p, hself⟩
    · -- The mark of a descendant was there before, and so was the data of all ancestors.
      rw [hrecord] at hself
      have hbefore : (s.entry p).nStatus.failedChild = true := hr.flags.failedChild hself
      have hlinked := hfounded.child p hp hbefore
      obtain ⟨a, hanc, ha⟩ := hfounded.flags p hp ((failed_iff s p).mpr (.inr hbefore))
      have hasize := hg.anc_mem hp hanc
      have hdata := hs.flow.linked_data a hasize (hs.linked_anc hp hlinked hanc)
      obtain ⟨ra, hra, hrecorda⟩ := hstatus a hasize
      refine ⟨a, (hg.anc_congr h.par hp).mpr hanc, ?_⟩
      rw [hrecorda]
      exact (hra.failedValid hdata).trans ha
  · intro p hp hself
    rw [h.size] at hp
    obtain ⟨r, hr, hrecord⟩ := hstatus p hp
    rw [hrecord] at hself
    exact h.linked p hp (hfounded.child p hp (hr.flags.failedChild hself))

/-! ## Complete candidates -/

/-- The linked entries that are not marked failed are candidates or worse than the tip. -/
def NodeState.Complete (s : NodeState) : Prop :=
  ∀ t, s.tip = some t → s.Covers t

theorem NodeState.Complete.extend (h : s.Complete) (hs : IndexInv N s) (hx : Extends s s') : s'.Complete := by
  intro t ht
  have ht : s.tip = some t := hx.tip.symm.trans ht
  obtain ⟨hsize, -, hlinked, -⟩ := hs.tip_eq ht
  exact hx.covers t t ht hsize hlinked (h t ht) (worse_irrefl t)

theorem NodeState.Complete.note (h : s.Complete) (hmap : s'.mapBlockIndex = s.mapBlockIndex)
    (haddr : s'.addresses = s.addresses) (hchain : s'.chainActive = s.chainActive)
    (hcand : s'.setBlockIndexCandidates = s.setBlockIndexCandidates) : s'.Complete := by
  unfold NodeState.Complete NodeState.Covers NodeState.tip NodeState.size NodeState.linked NodeState.failed
    NodeState.entry NodeState.worse
  rw [hmap, hcand, haddr, hchain]
  exact h

theorem NodeState.Complete.acceptRule : AcceptRule N fun s _ => s.Complete :=
  .of_offers (fun hs hx h => h.extend hs hx.toExtends) fun hmap haddr hchain hcand h =>
    h.note hmap haddr hchain hcand

/-- When no candidate is better than the tip, nothing that is no candidate is. -/
theorem Ready.complete (h : Ready s) (hbest : ∀ t, s.tip = some t → ∀ q ∈ s.setBlockIndexCandidates,
    s.worse t q = false) : s.Complete := by
  intro t ht p hp hlinked hfailed hnot
  obtain ⟨w, hw, -, hcovers⟩ := h.keep
  exact worse_of_worse_of_not (hcovers p hp hlinked hfailed hnot) (hbest t ht w hw)

/-- After `ActivateBestChain` has returned true, the tip is the best candidate. -/
theorem activateBestChain_best {pblock : Option CBlock} {turns : Nat} (hs : IndexInv N s) (h : Ready s')
    (hrun : activateBestChain N pblock turns s = some (.ok (), s')) :
    ∀ t, s'.tip = some t → ∀ q ∈ s'.setBlockIndexCandidates, s'.worse t q = false := by
  obtain ⟨-, hend⟩ := activateBestChain_spec hs hrun
  rcases hend rfl with hempty | ⟨t, -, htip, hbest⟩
  · obtain ⟨w, hw, -⟩ := h.keep
    rw [hempty] at hw
    simp at hw
  · intro t' ht'
    rw [← Option.mem_unique htip ht']
    exact hbest

theorem Invalidated.complete (h : Invalidated N p s s') : s'.Complete := by
  intro t ht q hq hlinked hfailed hnot
  cases hworse : s'.worse q t with
  | true => rfl
  | false => exact absurd (h.candidates t ht q hq hlinked hfailed hworse) hnot

theorem Restarted.complete (h : Restarted N s s') : s'.Complete := by
  intro t ht q hq hlinked hfailed hnot
  cases hworse : s'.worse q t with
  | true => rfl
  | false =>
    refine absurd ((h.candidates t ht q).mpr ⟨hq, ?_, hlinked, hworse⟩) hnot
    rw [h.inv.isValid hq hlinked, hfailed]
    rfl

/-! ## Reconsidering -/

/-- A mark beside `p` rests on an invalid entry that is not above `p`, and so keeps its flag. -/
def NodeState.MarkedElsewhere (s : NodeState) (p : Ptr) : Prop :=
  ∀ q < s.size, s.failed q = true → ¬ Anc s.par p q → ¬ Anc s.par q p →
    ∃ a, Anc s.par a q ∧ ¬ Anc s.par a p ∧ (s.entry a).nStatus.failedValid = true

/-- An entry that is neither below nor above `p` stays what it is. -/
theorem Cleared.entry_beside (h : Cleared p s s') (hbelow : ¬ Anc s.par p q) (habove : ¬ Anc s.par q p) :
    s'.entry q = s.entry q := by
  rcases h.entry q with hsame | ⟨hrelated, -⟩
  · exact hsame
  · exact absurd hrelated (not_or.mpr ⟨hbelow, habove⟩)

/-- An entry that is still marked was so before, and is neither below nor above `p`. -/
theorem Reconsidered.failed (h : Reconsidered N p s s') (hq : q < s.size) (hfailed : s'.failed q) :
    s.failed q ∧ ¬ Anc s.par p q ∧ ¬ Anc s.par q p := by
  have hbeside : ¬ (Anc s.par p q ∨ Anc s.par q p) := fun hrelated =>
    nomatch ((h.not_failed q hq hrelated).symm.trans hfailed)
  obtain ⟨hbelow, habove⟩ := not_or.mp hbeside
  have he := h.cleared.entry_beside hbelow habove
  exact ⟨(congrArg CBlockIndex.failed he).symm.trans hfailed, hbelow, habove⟩

theorem Reconsidered.flags_iff (h : Reconsidered N p s s') :
    (∀ q < s'.size, s'.failed q → ∃ a, Anc s'.par a q ∧ (s'.entry a).nStatus.failedValid) ↔
      s.MarkedElsewhere p := by
  have hpar := h.cleared.par
  have hsize := h.cleared.size
  constructor
  · intro hflags q hq hfailed hbelow habove
    have he := h.cleared.entry_beside hbelow habove
    have hq' : q < s'.size := hsize ▸ hq
    obtain ⟨a, hanc, ha⟩ := hflags q hq' ((congrArg CBlockIndex.failed he).trans hfailed)
    have hasize : a < s'.size := h.inv.shape.tree.graded.anc_mem hq' hanc
    rw [hpar] at hanc
    rw [hsize] at hasize
    -- An ancestor that keeps its flag is not above `p`.
    obtain ⟨-, hab, hap⟩ := h.failed hasize ((failed_iff s' a).mpr (.inl ha))
    have hea := h.cleared.entry_beside hab hap
    exact ⟨a, hanc, hap, hea ▸ ha⟩
  · intro hmarked q hq hfailed
    rw [hsize] at hq
    obtain ⟨hbefore, hbelow, habove⟩ := h.failed hq hfailed
    obtain ⟨a, hanc, hap, ha⟩ := hmarked q hq hbefore hbelow habove
    have hea := h.cleared.entry_beside (fun hpa => hbelow (hpa.trans hanc)) hap
    exact ⟨a, hpar ▸ hanc, hea ▸ ha⟩

theorem Reconsidered.founded (h : Reconsidered N p s s') (hfounded : Founded s)
    (hmarked : s.MarkedElsewhere p) : Founded s' := by
  refine ⟨h.flags_iff.mpr hmarked, fun q hq hself => ?_⟩
  rw [h.cleared.size] at hq
  obtain ⟨-, hbelow, habove⟩ := h.failed hq ((failed_iff s' q).mpr (.inr hself))
  rw [h.cleared.entry_beside hbelow habove] at hself
  exact (h.cleared.linked q).trans (hfounded.child q hq hself)

/-! ## Orderly runs -/

/-- The flags rest on invalid entries, and every entry that could be active and is not worse than the tip is
a candidate. -/
structure NodeState.Consistent (s : NodeState) : Prop where
  flags : ∀ p < s.size, s.failed p = true → ∃ a, Anc s.par a p ∧ (s.entry a).nStatus.failedValid = true
  candidates : ∀ t, s.tip = some t → ∀ p, s.Eligible p → s.worse p t = false → p ∈ s.setBlockIndexCandidates

theorem NodeState.Complete.candidates (h : s.Complete) (ht : s.tip = some t) (hp : s.Eligible p)
    (hworse : s.worse p t = false) : p ∈ s.setBlockIndexCandidates := by
  by_contra hnot
  have hbad := h t ht p hp.size hp.linked (hp.not_failed p (.refl p)) hnot
  cases hworse.symm.trans hbad

theorem Founded.consistent (h : Founded s) (hcomplete : s.Complete) : s.Consistent :=
  ⟨h.flags, fun _ ht _ hp hworse => hcomplete.candidates ht hp hworse⟩

/-- `ReconsiderBlock` leaves the flags and the candidates consistent exactly when it leaves no mark without
its cause and passes by no entry that has to be a candidate. -/
theorem Reconsidered.consistent_iff (h : Reconsidered N p s s') (hs : IndexInv N s) (hready : Ready s)
    (hcomplete : s.Complete) (hp : p < s.size) :
    s'.Consistent ↔ s.NoneBetterAbove p ∧ s.MarkedElsewhere p := by
  have hc := h.cleared
  have hg := hs.shape.tree.graded
  constructor
  · intro hconsistent
    refine ⟨fun t ht a hanc hne hfailed hlinked hnot => ?_, h.flags_iff.mp hconsistent.flags⟩
    cases hworse : s.worse a t with
    | true => rfl
    | false =>
      have ha := hg.anc_mem hp hanc
      have heligible : s'.Eligible a := by
        refine ⟨lt_of_lt_of_eq ha hc.size.symm, (hc.linked a).trans hlinked, fun b hb => ?_⟩
        rw [hc.par] at hb
        exact h.not_failed b (hg.anc_mem ha hb) (.inr (hb.trans hanc))
      have hmem := hconsistent.candidates t ((congrArg CChain.tip hc.chainActive).trans ht) a heligible
        ((hc.worse a t).trans hworse)
      rcases hc.new a hmem with hmem | hbelow
      · exact absurd hmem hnot
      · exact absurd (hg.anc_antisymm hp hanc hbelow) hne
  · rintro ⟨habove, hmarked⟩
    refine ⟨h.flags_iff.mpr hmarked, fun t ht q hq hworse => ?_⟩
    exact (hcomplete.extend hs (h.extends hready habove)).candidates ht hq hworse

/-- The condition under which a call keeps flags and candidates consistent. -/
def Op.Orderly (N : Node) (s : NodeState) : Op → Prop
  | activateBestChain pblock turns =>
    ∀ r s', Reddcoin.activateBestChain N pblock turns s = some (r, s') → r = .ok ()
  | processNewBlock turns block =>
    ∀ p s₁ r s', Reddcoin.acceptBlock N s block = (.ok p, s₁) →
      Reddcoin.activateBestChain N (some block) turns s₁ = some (r, s') → r = .ok ()
  | reconsiderBlock p => s.MarkedElsewhere p
  | _ => True

/-- The states of runs in which every call is sound and orderly. -/
inductive OrderlyRun (N : Node) : NodeState → Prop where
  | init {genesis : CBlock} {A : Addresses} {turns : Nat} {s : NodeState} (isGenesis : IsGenesis N genesis)
      (run : initBlockIndex N genesis A turns = some (.ok (), s)) (active : s.tip ≠ none) : OrderlyRun N s
  | reindex {genesis : CBlock} {A : Addresses} {turns : Nat} {s : NodeState}
      (isGenesis : IsGenesis N genesis)
      (run : processNewBlock N turns (NodeState.empty A) genesis = some (.ok (), s))
      (active : s.tip ≠ none) : OrderlyRun N s
  | step {s s' : NodeState} (op : Op) (before : OrderlyRun N s) (sound : op.Sound N s)
      (orderly : op.Orderly N s) (step : Step N op s s') (verdicts : s'.reversedVerdicts = []) :
      OrderlyRun N s'

theorem OrderlyRun.soundRun (h : OrderlyRun N s) : SoundRun N s := by
  induction h with
  | init isGenesis run active => exact .init isGenesis run active
  | reindex isGenesis run active => exact .reindex isGenesis run active
  | step op _ sound _ step verdicts ih => exact .step op ih sound step verdicts

theorem Fresh.founded (h : Fresh N s) : Founded s := by
  have hs := h.starting
  have hone : ∀ p < s.size, p = 0 := fun p hp => Nat.lt_one_iff.mp (lt_of_lt_of_eq hp hs.size)
  constructor
  · intro p hp hfailed
    rw [hone p hp, hs.failed] at hfailed
    simp at hfailed
  · intro p hp _
    rw [hone p hp]
    exact hs.linked

theorem Fresh.complete (h : Fresh N s) : s.Complete := by
  intro t _ p hp _ _ hnot
  have hone : p = 0 := Nat.lt_one_iff.mp (lt_of_lt_of_eq hp h.starting.size)
  exact absurd ((h.starting.candidates p).mpr hone) hnot

theorem run_orderly {op : Op} (hs : IndexInv N s) (hready : Ready s) (hready' : Ready s') (h : Founded s)
    (hcomplete : s.Complete) (hsound : op.Sound N s) (horderly : op.Orderly N s) {r : Check Unit}
    (hrun : op.run N s = some (r, s')) : Founded s' ∧ s'.Complete := by
  cases op with
  | acceptBlockHeader block =>
    cases hrun
    exact ⟨Founded.acceptRule.acceptBlockHeader hs h block,
      NodeState.Complete.acceptRule.acceptBlockHeader hs hcomplete block⟩
  | acceptBlock block =>
    cases hrun
    exact ⟨Founded.acceptRule.acceptBlock hs h hsound, NodeState.Complete.acceptRule.acceptBlock hs hcomplete hsound⟩
  | activateBestChain pblock turns =>
    obtain rfl := horderly r s' hrun
    exact ⟨(activateBestChain_moves hs hrun).founded hs h, hready'.complete (activateBestChain_best hs hready' hrun)⟩
  | processNewBlock turns block =>
    have hmoves := acceptBlock_moves hs block
    have hfounded := Founded.acceptRule.acceptBlock hs h hsound
    have haccepted := NodeState.Complete.acceptRule.acceptBlock hs hcomplete hsound
    rcases processNewBlock_cases hrun with rfl | ⟨stop, haccept⟩ | ⟨p, s₁, haccept, hactivate⟩
    · exact ⟨h, hcomplete⟩
    · rw [haccept] at hfounded haccepted
      exact ⟨hfounded, haccepted⟩
    · obtain rfl := horderly p s₁ r s' haccept hactivate
      rw [haccept] at hmoves hfounded
      have hs₁ := hmoves.inv hs
      exact ⟨(activateBestChain_moves hs₁ hactivate).founded hs₁ hfounded,
        hready'.complete (activateBestChain_best hs₁ hready' hactivate)⟩
  | invalidateBlock p =>
    simp only [Op.run] at hrun
    split_ifs at hrun with hp
    have hresult := run_invalidated hsound hrun
    have hinvalidated := invalidateBlock_invalidated hs hp hresult
    exact ⟨hinvalidated.founded h, hinvalidated.complete⟩
  | reconsiderBlock p =>
    simp only [Op.run] at hrun
    split_ifs at hrun with hp
    cases hrun
    have hreconsidered := reconsiderBlock_reconsidered hs hp
    exact ⟨hreconsidered.founded h horderly, hcomplete.extend hs (hreconsidered.extends hready hsound)⟩
  | restart A =>
    obtain ⟨-, hzero, hrun⟩ := run_restart hrun
    have hrestarted := restart_restarted hs hzero hrun
    exact ⟨hrestarted.founded hs h, hrestarted.complete⟩

theorem OrderlyRun.founded (h : OrderlyRun N s) : Founded s ∧ s.Complete := by
  induction h with
  | init isGenesis run active =>
    have hfresh := initBlockIndex_fresh isGenesis run active
    exact ⟨hfresh.founded, hfresh.complete⟩
  | reindex isGenesis run active =>
    have hfresh := processNewBlock_fresh isGenesis run active
    exact ⟨hfresh.founded, hfresh.complete⟩
  | step op before sound orderly step verdicts ih =>
    obtain ⟨r, s₁, hrun, -, rfl⟩ := step
    have hsound := before.soundRun
    have hs := hsound.reachable.inv
    have hready := run_ready hs hsound.ready sound hrun verdicts
    obtain ⟨hfounded, hcomplete⟩ := run_orderly hs hsound.ready hready ih.1 ih.2 sound orderly hrun
    exact ⟨hfounded.of_map rfl, hcomplete.note rfl rfl rfl rfl⟩

/-- In a state of an orderly run `InvalidateBlock` leaves flags and candidates consistent when it returns
true, and `ReconsiderBlock` does so exactly when it leaves no mark without its cause and passes by no entry
that has to be a candidate. -/
theorem invalidate_reconsider_consistent (hrun : OrderlyRun N s) (hp : p < s.size) :
    (∀ s', invalidateBlock N s p = (.ok (), s') → s'.Consistent) ∧
      ((reconsiderBlock s p).Consistent ↔ s.NoneBetterAbove p ∧ s.MarkedElsewhere p) := by
  have hsound := hrun.soundRun
  have hs := hsound.reachable.inv
  obtain ⟨hfounded, hcomplete⟩ := hrun.founded
  constructor
  · intro s' hinvalidate
    have hinvalidated := invalidateBlock_invalidated hs hp hinvalidate
    exact (hinvalidated.founded hfounded).consistent hinvalidated.complete
  · exact (reconsiderBlock_reconsidered hs hp).consistent_iff hs hsound.ready hcomplete hp

end

namespace Example

/-- The block that was received is invalidated. -/
def oneInvalidated : NodeState :=
  after node oneReceived (.invalidateBlock 1)

theorem orderly_oneInvalidated : OrderlyRun node oneInvalidated := by
  have hstart : OrderlyRun node start := .init isGenesis_genesisBlock (eq_some_left (by decide)) (by decide)
  have hfully : ReceivesFully node start (nodeBlock 7000 200 1) := .of_ok (by decide)
  have hreceived : OrderlyRun node oneReceived :=
    .step (.acceptBlock (nodeBlock 7000 200 1)) hstart hfully trivial (step_after (by decide)) (by decide)
  have hok : (invalidateBlock node oneReceived 1).1 = .ok () := by decide +kernel
  exact .step (.invalidateBlock 1) hreceived hok trivial (step_after (by decide)) (by decide)

/-- Two blocks on the first one are received, and the first one is invalidated. -/
def twoChildren : NodeState :=
  let s := after node oneReceived (.acceptBlock (nodeBlock 7001 300 2))
  let s := after node s (.acceptBlock (nodeBlock 7001 300 3))
  after node s (.invalidateBlock 1)

/-- `ActivateBestChain` marks both children. -/
def twoMarked : NodeState :=
  after node twoChildren (.activateBestChain none 3)

theorem reachable_twoMarked : Reachable node twoMarked := by
  have hfirst : Reachable node (after node oneReceived (.acceptBlock (nodeBlock 7001 300 2))) :=
    .step _ sound_oneReceived.reachable (step_after (by decide))
  have hsecond : Reachable node (after node (after node oneReceived (.acceptBlock (nodeBlock 7001 300 2)))
      (.acceptBlock (nodeBlock 7001 300 3))) := .step _ hfirst (step_after (by decide))
  have hinvalidated : Reachable node twoChildren := .step _ hsecond (step_after (by decide))
  exact .step _ hinvalidated (step_after (by decide))

end Example

open Example

/-- A block is invalidated and reconsidered. -/
theorem invalidate_reconsider_consistent_example :
    (reconsiderBlock oneInvalidated 1).Consistent := by
  refine (invalidate_reconsider_consistent orderly_oneInvalidated (by decide)).2.mpr ⟨?_, ?_⟩
  · intro t _ a ha hne hfailed
    rcases (Forest.anc_of_parent (by decide : oneInvalidated.par 1 = some 0)).mp ha with rfl | ha
    · exact absurd rfl hne
    · rw [(Forest.anc_of_root (by decide)).mp ha] at hfailed
      exact absurd hfailed (by decide)
  · intro q hq hfailed hbelow
    have hall : ∀ q < oneInvalidated.size, oneInvalidated.failed q = true → q = 1 := by decide
    rw [hall q hq hfailed] at hbelow
    exact absurd (.refl 1) hbelow

/-- `ReconsiderBlock` of one child clears the mark of the invalidated parent, and leaves the mark that the
other child has because of it. -/
theorem reconsiderBlock_leaves_mark : Reachable node twoMarked ∧
    2 < twoMarked.size ∧ ¬ (reconsiderBlock twoMarked 2).Consistent := by
  refine ⟨reachable_twoMarked, by decide, fun hconsistent => ?_⟩
  obtain ⟨a, hanc, ha⟩ := hconsistent.flags 3 (by decide) (by decide)
  rcases (Forest.anc_of_parent (by decide : (reconsiderBlock twoMarked 2).par 3 = some 1)).mp hanc
    with rfl | hanc
  · exact absurd ha (by decide)
  · rcases (Forest.anc_of_parent (by decide : (reconsiderBlock twoMarked 2).par 1 = some 0)).mp hanc
      with rfl | hanc
    · exact absurd ha (by decide)
    · rw [(Forest.anc_of_root (by decide)).mp hanc] at ha
      exact absurd ha (by decide)

end Reddcoin
