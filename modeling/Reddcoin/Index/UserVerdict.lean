import Reddcoin.Index.InvalidateMoves

/-!
# The verdicts of the user

What `InvalidateBlock` and `ReconsiderBlock` leave behind: which entries are marked, and which of them are
candidates.
-/

namespace Reddcoin

open Forest (Anc)

variable {l : List Ptr} {s'' : NodeState}

/-! ## States that differ in flags -/

/-- The entries differ in their failure flags at most. -/
structure SameButFlags (s s' : NodeState) : Prop where
  shape : s.mapBlockIndex.SameShape s'.mapBlockIndex
  valid : ∀ p, (s'.entry p).nStatus.valid = (s.entry p).nStatus.valid
  linked : ∀ p, s'.linked p = s.linked p
  nSequenceId : ∀ p, (s'.entry p).nSequenceId = (s.entry p).nSequenceId
  addresses : s'.addresses = s.addresses

namespace SameButFlags

variable {s s' : NodeState}

theorem of_map (hmap : s'.mapBlockIndex = s.mapBlockIndex) (haddr : s'.addresses = s.addresses) :
    SameButFlags s s' where
  shape := hmap ▸ .refl _
  valid p := by simp only [NodeState.entry, hmap]
  linked p := by simp only [NodeState.linked, NodeState.entry, hmap]
  nSequenceId p := by simp only [NodeState.entry, hmap]
  addresses := haddr

theorem trans (h : SameButFlags s s') (h' : SameButFlags s' s'') : SameButFlags s s'' where
  shape := h.shape.trans h'.shape
  valid p := (h'.valid p).trans (h.valid p)
  linked p := (h'.linked p).trans (h.linked p)
  nSequenceId p := (h'.nSequenceId p).trans (h.nSequenceId p)
  addresses := h'.addresses.trans h.addresses

theorem modify (s : NodeState) (p : Ptr) {f : CBlockIndex → CBlockIndex}
    (hshape : ∀ e, (f e).shape = e.shape) (hvalid : ∀ e, (f e).nStatus.valid = e.nStatus.valid)
    (hlinked : ∀ e, (f e).linked = e.linked) (hseq : ∀ e, (f e).nSequenceId = e.nSequenceId) :
    SameButFlags s (s.modify p f) where
  shape := .modify _ p hshape
  valid := entry_modify_keep (fun e => e.nStatus.valid) s p f hvalid
  linked := entry_modify_keep CBlockIndex.linked s p f hlinked
  nSequenceId := entry_modify_keep CBlockIndex.nSequenceId s p f hseq
  addresses := rfl

theorem size (h : SameButFlags s s') : s'.size = s.size :=
  h.shape.size

theorem par (h : SameButFlags s s') : s'.par = s.par :=
  h.shape.par

theorem ht (h : SameButFlags s s') : s'.ht = s.ht :=
  h.shape.ht

theorem worse (h : SameButFlags s s') (a b : Ptr) : s'.worse a b = s.worse a b :=
  worse_congr h.addresses (h.shape.nChainWork a) (h.shape.nChainWork b) (h.nSequenceId a)
    (h.nSequenceId b)

end SameButFlags

section

variable {N : Node} {s s' : NodeState} {p q t : Ptr}

theorem failed_iff (s : NodeState) (q : Ptr) :
    s.failed q ↔ (s.entry q).nStatus.failedValid ∨ (s.entry q).nStatus.failedChild = true :=
  Bool.or_eq_true_iff

/-- A linked entry without a mark passes `IsValid(BLOCK_VALID_TRANSACTIONS)`. -/
theorem IndexInv.isValid (hs : IndexInv N s) (hq : q < s.size) (hlinked : s.linked q) :
    (s.entry q).isValid BLOCK_VALID_TRANSACTIONS = !s.failed q := by
  have hvalid := (hs.flow.data_valid q hq).mp (hs.flow.linked_data q hq hlinked)
  show (!s.failed q && decide (BLOCK_VALID_TRANSACTIONS ≤ (s.entry q).nStatus.valid)) = !s.failed q
  rw [decide_eq_true hvalid, Bool.and_true]

/-! ## Invalidating -/

/-- `p` may have been marked invalid, and linked entries below it as its descendants. -/
structure Marked (p : Ptr) (s s' : NodeState) : Prop extends SameButFlags s s' where
  flags : ∀ q, (s.entry q).nStatus.FlagsLe (s'.entry q).nStatus
  failedValid : ∀ q, (s'.entry q).nStatus.failedValid = true → (s.entry q).nStatus.failedValid = true ∨ q = p
  failedChild : ∀ q, (s'.entry q).nStatus.failedChild = true →
    (s.entry q).nStatus.failedChild = true ∨ (s.linked q = true ∧ Anc s.par p q)

namespace Marked

theorem of_map (hmap : s'.mapBlockIndex = s.mapBlockIndex) (haddr : s'.addresses = s.addresses) :
    Marked p s s' where
  toSameButFlags := .of_map hmap haddr
  flags q := by
    simp only [NodeState.entry, hmap]
    exact .refl _
  failedValid q h := by
    simp only [NodeState.entry, hmap] at h
    exact .inl h
  failedChild q h := by
    simp only [NodeState.entry, hmap] at h
    exact .inl h

theorem trans (h : Marked p s s') (h' : Marked p s' s'') : Marked p s s'' where
  toSameButFlags := h.toSameButFlags.trans h'.toSameButFlags
  flags q := (h.flags q).trans (h'.flags q)
  failedValid q hq := by
    rcases h'.failedValid q hq with hq | hq
    · exact h.failedValid q hq
    · exact .inr hq
  failedChild q hq := by
    rcases h'.failedChild q hq with hq | ⟨hlinked, hanc⟩
    · exact h.failedChild q hq
    · rw [h.par] at hanc
      exact .inr ⟨(h.linked q).symm.trans hlinked, hanc⟩

theorem failValid (s : NodeState) (p : Ptr) : Marked p s (s.failValid p) where
  toSameButFlags := .modify s p (fun _ => rfl) (fun _ => rfl) (fun _ => rfl) fun _ => rfl
  flags := flagsLe_modify (f := CBlockIndex.failValid) (fun _ => ⟨fun _ => rfl, fun h => h⟩) s p
  failedValid q hq := by
    by_cases hqp : q = p
    · exact .inr hqp
    · have he : (s.failValid p).entry q = s.entry q := entry_modify_ne hqp
      rw [he] at hq
      exact .inl hq
  failedChild q hq := by
    have hsame : ((s.failValid p).entry q).nStatus.failedChild = (s.entry q).nStatus.failedChild :=
      entry_modify_keep (fun e => e.nStatus.failedChild) s p CBlockIndex.failValid (fun _ => rfl) q
    exact .inl (hsame.symm.trans hq)

theorem failChild (hlinked : s.linked t) (hanc : Anc s.par p t) : Marked p s (s.failChild t) where
  toSameButFlags := .modify s t (fun _ => rfl) (fun _ => rfl) (fun _ => rfl) fun _ => rfl
  flags := flagsLe_modify (f := CBlockIndex.failChild) (fun _ => ⟨fun h => h, fun _ => rfl⟩) s t
  failedValid q hq := by
    have hsame : ((s.failChild t).entry q).nStatus.failedValid = (s.entry q).nStatus.failedValid :=
      entry_modify_keep (fun e => e.nStatus.failedValid) s t CBlockIndex.failChild (fun _ => rfl) q
    exact .inl (hsame.symm.trans hq)
  failedChild q hq := by
    by_cases hqt : q = t
    · rw [hqt]
      exact .inr ⟨hlinked, hanc⟩
    · have he : (s.failChild t).entry q = s.entry q := entry_modify_ne hqt
      rw [he] at hq
      exact .inl hq

/-- Only the entries below `p` can be marked. -/
theorem failed (h : Marked p s s') (hq : s'.failed q) : s.failed q ∨ Anc s.par p q := by
  rw [failed_iff] at hq ⊢
  rcases hq with hq | hq
  · rcases h.failedValid q hq with hold | rfl
    · exact .inl (.inl hold)
    · exact .inr (.refl q)
  · rcases h.failedChild q hq with hold | ⟨-, hanc⟩
    · exact .inl (.inr hold)
    · exact .inr hanc

end Marked

/-- What `InvalidateBlock` leads to when it returns true. -/
structure Invalidated (N : Node) (p : Ptr) (s s' : NodeState) : Prop where
  inv : IndexInv N s'
  marked : Marked p s s'
  failedValid : (s'.entry p).nStatus.failedValid = true
  verdicts : s'.reversedVerdicts = s.reversedVerdicts
  tip : ∀ t t', s.tip = some t → s'.tip = some t' → Anc s.par t' t ∧ ¬ Anc s.par p t'
  candidates : ∀ t, s'.tip = some t → ∀ q < s'.size, s'.linked q = true → s'.failed q = false →
    s'.worse q t = false → q ∈ s'.setBlockIndexCandidates

theorem disconnectTip_verdicts (h : disconnectTip N s = (.ok (), s')) :
    s'.reversedVerdicts = s.reversedVerdicts ∧ s'.addresses = s.addresses := by
  unfold disconnectTip at h
  split at h
  · simp at h
  · split at h
    · simp at h
    · split at h
      · simp at h
      · unfold disconnectTipBlock at h
        split at h
        · simp at h
        · split_ifs at h
          · simp at h
          · cases h
            exact ⟨rfl, rfl⟩

/-- The loop of `InvalidateBlock` marks what it disconnects. -/
theorem disconnectInvalid_marked {turns : Nat} (hs : IndexInv N s) (hfailed : s.failed p)
    (htip : s.tip = some t) (hturns : s.chainActive.length < turns)
    (h : disconnectInvalid N p turns s = (.ok (), s')) :
    IndexInv N s' ∧ Marked p s s' ∧ s'.reversedVerdicts = s.reversedVerdicts ∧
      ∀ t', s'.tip = some t' → Anc s.par t' t ∧ ¬ Anc s.par p t' := by
  have hall := disconnectInvalid_induction
    (Q := fun s₁ => Marked p s s₁ ∧ s₁.reversedVerdicts = s.reversedVerdicts ∧ ∀ t', s₁.tip = some t' → Anc s.par t' t)
    (fun s₁ t₁ hs₁ htip₁ hanc₁ _ ⟨hmarked, hverdicts, hbelow⟩ q s₂ hpar hrun _ htip₂ hmap _ => by
      obtain ⟨-, -, hlinked, -⟩ := hs₁.tip_eq htip₁
      obtain ⟨hverdicts₂, haddr₂⟩ := disconnectTip_verdicts hrun
      have hmark : Marked p s₁ (s₁.markTip t₁) :=
        (Marked.failChild hlinked hanc₁).trans (.of_map rfl rfl)
      have hstep : Marked p s₁ s₂ := hmark.trans (.of_map hmap haddr₂)
      refine ⟨hmarked.trans hstep, hverdicts₂.trans hverdicts, fun t' ht' => ?_⟩
      cases htip₂.symm.trans ht'
      rw [hmarked.par] at hpar
      exact (Anc.of_parent hpar).trans (hbelow t₁ htip₁))
    hs hfailed ⟨.of_map rfl rfl, rfl, fun t' ht' => by
      rw [Option.mem_unique htip ht']
      exact .refl t'⟩ hturns h
  obtain ⟨⟨hmarked, hverdicts, hbelow⟩, hs', hnot⟩ := hall
  refine ⟨hs', hmarked, hverdicts, fun t' ht' => ⟨hbelow t' ht', fun hanc => hnot t' ht' ?_⟩⟩
  rw [hmarked.par]
  exact hanc

/-- The last loop of `InvalidateBlock` changes nothing but the candidates. -/
theorem readdCandidates_map (l : List Ptr) (s : NodeState) :
    (l.foldl (readdCandidate t) s).mapBlockIndex = s.mapBlockIndex ∧
      (l.foldl (readdCandidate t) s).addresses = s.addresses ∧
      (l.foldl (readdCandidate t) s).reversedVerdicts = s.reversedVerdicts ∧
      (l.foldl (readdCandidate t) s).chainActive = s.chainActive := by
  induction l generalizing s with
  | nil => exact ⟨rfl, rfl, rfl, rfl⟩
  | cons q l ih => exact ih (readdCandidate t s q)

theorem mem_readdCandidates {s : NodeState} (h : q ∈ s.setBlockIndexCandidates) :
    q ∈ (l.foldl (readdCandidate t) s).setBlockIndexCandidates := by
  induction l generalizing s with
  | nil => exact h
  | cons a l ih =>
    apply ih
    simp only [readdCandidate]
    split_ifs
    · exact mem_insertCandidate.mpr (.inr h)
    · exact h

/-- Every entry that is valid, linked and not worse than the tip becomes a candidate. -/
theorem readdCandidates_complete {s : NodeState} (hq : q ∈ l)
    (hcond : ((s.entry q).isValid BLOCK_VALID_TRANSACTIONS && (s.entry q).linked && !s.worse q t)) :
    q ∈ (l.foldl (readdCandidate t) s).setBlockIndexCandidates := by
  induction l generalizing s with
  | nil => simp at hq
  | cons a l ih =>
    rcases List.mem_cons.mp hq with rfl | hq
    · have hmem : q ∈ (readdCandidate t s q).setBlockIndexCandidates := by
        simp only [readdCandidate, if_pos hcond]
        exact mem_insertCandidate.mpr (.inl rfl)
      exact mem_readdCandidates (l := l) hmem
    · exact ih hq hcond

theorem invalidateBlock_invalidated (hs : IndexInv N s) (hp : p < s.size)
    (h : invalidateBlock N s p = (.ok (), s')) : Invalidated N p s s' := by
  have hmoves := invalidateBlock_moves hs hp
  rw [h] at hmoves
  have hs' := hmoves.inv hs
  have hmove : UserMove s (((s.failValid p).setDirty p).eraseCandidate p) := .invalidate hp
  obtain ⟨t, htip⟩ := hs.exists_tip
  unfold invalidateBlock at h
  simp only at h
  cases hrun : disconnectInvalid N p ((((s.failValid p).setDirty p).eraseCandidate p).chainActive.length + 1)
      (((s.failValid p).setDirty p).eraseCandidate p) with
  | mk r s₁ =>
    rw [hrun] at h
    cases r with
    | error stop => simp [Call.andThen] at h
    | ok u =>
      simp only [Call.andThen] at h
      obtain ⟨hs₁, hmarked, hverdicts, hbelow⟩ := disconnectInvalid_marked (hmove.inv hs)
        (failed_failValid s p) htip (Nat.lt_succ_self _) hrun
      have hfirst : Marked p s (((s.failValid p).setDirty p).eraseCandidate p) :=
        (Marked.failValid s p).trans (.of_map rfl rfl)
      cases htip₁ : s₁.tip with
      | none => simp [htip₁] at h
      | some t₁ =>
        rw [htip₁] at h
        cases h
        obtain ⟨hmap, haddr, hverd, hchain⟩ := readdCandidates_map (t := t₁) (List.range s₁.size) s₁
        have hlast : Marked p s₁ (((List.range s₁.size).foldl (readdCandidate t₁) s₁).invalidChainFound p) :=
          .of_map hmap haddr
        have hall := hfirst.trans (hmarked.trans hlast)
        refine ⟨hs', hall, ?_, hverd.trans hverdicts, ?_, ?_⟩
        · have hself : ((s.failValid p).entry p).nStatus.failedValid = true := by
            unfold NodeState.failValid
            rw [entry_modify_self]
            rfl
          exact ((hmarked.trans hlast).flags p).failedValid hself
        · intro t₀ t' ht₀ ht'
          cases htip.symm.trans ht₀
          have htip' : s₁.tip = some t' := (congrArg CChain.tip hchain).symm.trans ht'
          have hpar : (((s.failValid p).setDirty p).eraseCandidate p).par = s.par := hfirst.par
          have hb := hbelow t' htip'
          rw [hpar] at hb
          exact hb
        · intro t' ht' q hq hlinked hfailed hworse
          have htip' : s₁.tip = some t' := (congrArg CChain.tip hchain).symm.trans ht'
          cases htip₁.symm.trans htip'
          have hsize : (((List.range s₁.size).foldl (readdCandidate t₁) s₁).invalidChainFound p).size =
              s₁.size := hlast.size
          rw [hsize] at hq
          have hl : s₁.linked q = true := (hlast.linked q).symm.trans hlinked
          have he : (((List.range s₁.size).foldl (readdCandidate t₁) s₁).invalidChainFound p).entry q =
              s₁.entry q := congrArg (fun m : BlockMap => m.entry q) hmap
          have hf : s₁.failed q = false := (congrArg CBlockIndex.failed he).symm.trans hfailed
          have hw : s₁.worse q t₁ = false := (hlast.worse q t₁).symm.trans hworse
          apply readdCandidates_complete (List.mem_range.mpr hq)
          rw [hs₁.isValid hq hl, hf, hw, show (s₁.entry q).linked = true from hl]
          rfl

/-! ## Reconsidering -/

/-- Entries below and above `p` may have lost their flags, and candidates may have been added. -/
structure Cleared (p : Ptr) (s s' : NodeState) : Prop extends SameButFlags s s' where
  chainActive : s'.chainActive = s.chainActive
  verdicts : s'.reversedVerdicts = s.reversedVerdicts
  entry : ∀ q, s'.entry q = s.entry q ∨ (Anc s.par p q ∨ Anc s.par q p) ∧ s'.entry q = (s.entry q).clearFailed
  stay : ∀ q ∈ s.setBlockIndexCandidates, q ∈ s'.setBlockIndexCandidates
  new : ∀ q ∈ s'.setBlockIndexCandidates, q ∈ s.setBlockIndexCandidates ∨ Anc s.par p q

theorem failed_clearFailed (e : CBlockIndex) : e.clearFailed.failed = false :=
  rfl

namespace Cleared

theorem of_map (hmap : s'.mapBlockIndex = s.mapBlockIndex) (haddr : s'.addresses = s.addresses)
    (hchain : s'.chainActive = s.chainActive) (hverdicts : s'.reversedVerdicts = s.reversedVerdicts)
    (hstay : ∀ q ∈ s.setBlockIndexCandidates, q ∈ s'.setBlockIndexCandidates)
    (hnew : ∀ q ∈ s'.setBlockIndexCandidates, q ∈ s.setBlockIndexCandidates ∨ Anc s.par p q) :
    Cleared p s s' where
  toSameButFlags := .of_map hmap haddr
  chainActive := hchain
  verdicts := hverdicts
  entry q := .inl (congrArg (fun m : BlockMap => m.entry q) hmap)
  stay := hstay
  new := hnew

theorem refl (s : NodeState) : Cleared p s s :=
  of_map rfl rfl rfl rfl (fun _ hq => hq) fun _ hq => .inl hq

theorem trans (h : Cleared p s s') (h' : Cleared p s' s'') : Cleared p s s'' where
  toSameButFlags := h.toSameButFlags.trans h'.toSameButFlags
  chainActive := h'.chainActive.trans h.chainActive
  verdicts := h'.verdicts.trans h.verdicts
  entry q := by
    rcases h'.entry q with hsame' | ⟨hrelated, hclear'⟩
    · rw [hsame']
      exact h.entry q
    · rw [h.par] at hrelated
      refine .inr ⟨hrelated, ?_⟩
      rcases h.entry q with hsame | ⟨-, hclear⟩
      · rw [hclear', hsame]
      · rw [hclear', hclear]
        rfl
  stay q hq := h'.stay q (h.stay q hq)
  new q hq := by
    rcases h'.new q hq with hq | hanc
    · exact h.new q hq
    · rw [h.par] at hanc
      exact .inr hanc

/-- Clearing the flags of an entry below or above `p`. -/
theorem clear (hrelated : Anc s.par p q ∨ Anc s.par q p) : Cleared p s (s.clearFailed q) where
  toSameButFlags := .modify s q (fun _ => rfl) (fun _ => rfl) (fun _ => rfl) fun _ => rfl
  chainActive := rfl
  verdicts := rfl
  entry a := by
    by_cases haq : a = q
    · rw [haq]
      exact .inr ⟨hrelated, entry_modify_self s q _⟩
    · exact .inl (entry_modify_ne haq)
  stay _ ha := ha
  new _ ha := .inl ha

/-- An entry without a mark stays without one. -/
theorem not_failed (h : Cleared p s s') (hq : s.failed q = false) : s'.failed q = false := by
  unfold NodeState.failed at hq ⊢
  rcases h.entry q with hsame | ⟨-, hclear⟩
  · rw [hsame]
    exact hq
  · rw [hclear]
    exact failed_clearFailed _

end Cleared

theorem mem_reconsiderCandidate (hq : q ∈ s.setBlockIndexCandidates) :
    q ∈ (s.reconsiderCandidate p).setBlockIndexCandidates := by
  simp only [NodeState.reconsiderCandidate]
  split_ifs
  · exact mem_insertCandidate.mpr (.inr hq)
  · exact hq

theorem mem_of_mem_reconsiderCandidate (hq : q ∈ (s.reconsiderCandidate p).setBlockIndexCandidates) :
    q = p ∨ q ∈ s.setBlockIndexCandidates := by
  simp only [NodeState.reconsiderCandidate] at hq
  split_ifs at hq
  · exact mem_insertCandidate.mp hq
  · exact .inr hq

/-- A turn of the first loop on an entry below `p`. -/
theorem reconsiderDescendant_self (hs : IndexInv N s) (hq : q < s.size) (hanc : Anc s.par p q)
    (htip : s.tip = some t) :
    (reconsiderDescendant p s q).failed q = false ∧ (s.failed q → s.linked q → s.worse t q →
        q ∈ (reconsiderDescendant p s q).setBlockIndexCandidates) := by
  have hancestor : s.mapBlockIndex.getAncestor q (s.ht p) = some p :=
    (hs.shape.tree.getAncestor_eq_some hq).mpr ⟨hanc, rfl⟩
  unfold reconsiderDescendant
  rw [decide_eq_true hancestor, Bool.and_true]
  split_ifs with hinvalid
  · constructor
    · show ((s.modify q CBlockIndex.clearFailed).entry q).failed = false
      rw [entry_modify_self]
      exact failed_clearFailed _
    · intro _ hlinked hbetter
      have hcleared : Cleared p s (s.clearFailed q) := .clear (.inl hanc)
      have he : (s.clearFailed q).entry q = (s.entry q).clearFailed := entry_modify_self s q _
      have hvalid := (hs.flow.data_valid q hq).mp (hs.flow.linked_data q hq hlinked)
      have hcond : ((((s.clearFailed q).setDirty q).entry q).isValid BLOCK_VALID_TRANSACTIONS &&
          (((s.clearFailed q).setDirty q).entry q).linked &&
          ((s.clearFailed q).setDirty q).worse t q) = true := by
        show (((s.clearFailed q).entry q).isValid BLOCK_VALID_TRANSACTIONS &&
          ((s.clearFailed q).entry q).linked && (s.clearFailed q).worse t q) = true
        rw [hcleared.worse, hbetter, he, Bool.and_true, Bool.and_eq_true]
        exact ⟨decide_eq_true hvalid, hlinked⟩
      show q ∈ ((s.clearFailed q).setDirty q |>.reconsiderCandidate q).setBlockIndexCandidates
      have htip' : ((s.clearFailed q).setDirty q).tip = some t := htip
      simp only [NodeState.reconsiderCandidate, htip']
      rw [if_pos hcond]
      exact mem_insertCandidate.mpr (.inl rfl)
  · -- An entry that passes `IsValid` has no mark to lose.
    rw [Bool.not_eq_true, Bool.not_eq_false'] at hinvalid
    have hnot : s.failed q = false := by
      have hparts := (Bool.and_eq_true_iff.mp hinvalid).1
      exact Bool.not_eq_true' _ |>.mp hparts
    refine ⟨hnot, fun hfailed => ?_⟩
    cases hnot.symm.trans hfailed

theorem reconsiderDescendant_cleared (hs : IndexInv N s) (hq : q < s.size) :
    Cleared p s (reconsiderDescendant p s q) := by
  unfold reconsiderDescendant
  split_ifs with hcond
  · have hancestor := of_decide_eq_true (Bool.and_eq_true_iff.mp hcond).2
    have hanc := ((hs.shape.tree.getAncestor_eq_some hq).mp hancestor).1
    have hcleared : Cleared p s ((s.clearFailed q).setDirty q) :=
      (Cleared.clear (.inl hanc)).trans (.of_map rfl rfl rfl rfl (fun _ ha => ha) fun _ ha => .inl ha)
    refine hcleared.trans (.of_map rfl rfl rfl rfl (fun _ ha => mem_reconsiderCandidate ha) fun a ha => ?_)
    rw [hcleared.par]
    rcases mem_of_mem_reconsiderCandidate ha with rfl | ha
    · exact .inr hanc
    · exact .inl ha
  · exact .refl s

theorem reconsiderDescendant_entry_ne {a : Ptr} (hne : a ≠ q) :
    (reconsiderDescendant p s q).entry a = s.entry a := by
  unfold reconsiderDescendant
  split_ifs
  · exact entry_modify_ne hne
  · rfl

/-- The first loop of `ReconsiderBlock`. -/
theorem reconsiderDescendants_cleared (hs : IndexInv N s) (hl : ∀ q ∈ l, q < s.size) :
    Cleared p s (l.foldl (reconsiderDescendant p) s) := by
  induction l generalizing s with
  | nil => exact .refl s
  | cons a l ih =>
    have ha := hl a List.mem_cons_self
    have hstep : Cleared p s (reconsiderDescendant p s a) := reconsiderDescendant_cleared hs ha
    refine hstep.trans (ih ((reconsiderDescendant_moves ha).inv hs) fun q hq => ?_)
    rw [hstep.size]
    exact hl q (List.mem_cons_of_mem _ hq)

theorem reconsiderDescendants_self (hs : IndexInv N s) (hl : ∀ q ∈ l, q < s.size)
    (htip : s.tip = some t) (hq : q ∈ l) (hanc : Anc s.par p q) :
    (l.foldl (reconsiderDescendant p) s).failed q = false ∧
      (s.failed q → s.linked q → s.worse t q →
        q ∈ (l.foldl (reconsiderDescendant p) s).setBlockIndexCandidates) := by
  induction l generalizing s with
  | nil => simp at hq
  | cons a l ih =>
    have ha := hl a List.mem_cons_self
    have hstep : Cleared p s (reconsiderDescendant p s a) := reconsiderDescendant_cleared hs ha
    have hs' : IndexInv N (reconsiderDescendant p s a) := (reconsiderDescendant_moves ha).inv hs
    have hl' : ∀ b ∈ l, b < (reconsiderDescendant p s a).size := by
      intro b hb
      rw [hstep.size]
      exact hl b (List.mem_cons_of_mem _ hb)
    by_cases hqa : q = a
    · rw [hqa] at hanc ⊢
      obtain ⟨hclear, hmem⟩ := reconsiderDescendant_self hs ha hanc htip
      have hrest := reconsiderDescendants_cleared (p := p) hs' hl'
      exact ⟨hrest.not_failed hclear, fun hf hlinked hw => hrest.stay a (hmem hf hlinked hw)⟩
    · have he : (reconsiderDescendant p s a).entry q = s.entry q := reconsiderDescendant_entry_ne hqa
      have hq : q ∈ l := (List.mem_cons.mp hq).resolve_left hqa
      obtain ⟨hclear, hmem⟩ := ih hs' hl' ((congrArg CChain.tip hstep.chainActive).trans htip) hq (by
        rw [hstep.par]
        exact hanc)
      refine ⟨hclear, fun hf hlinked hw => hmem ?_ ?_ ?_⟩
      · exact (congrArg CBlockIndex.failed he).trans hf
      · exact (hstep.linked q).trans hlinked
      · exact (hstep.worse t q).trans hw

/-- The second loop of `ReconsiderBlock`, from an ancestor `x` of `p`. -/
theorem reconsiderAncestors_cleared (turns : Nat) {x : Ptr} (hs : IndexInv N s) (hx : x < s.size)
    (hturns : s.ht x < turns) (hanc : Anc s.par x p) :
    Cleared p s (reconsiderAncestors turns s (some x)) ∧
      ∀ a, Anc s.par a x → (reconsiderAncestors turns s (some x)).failed a = false := by
  induction turns generalizing s x with
  | zero => omega
  | succ turns ih =>
    have hmoves : UserMoves s (if (s.entry x).failed then (s.clearFailed x).setDirty x else s) := by
      split_ifs
      · exact (UserMove.clear hx).single
      · exact .refl
    have hs₁ := hmoves.inv hs
    have hstep : Cleared p s (if (s.entry x).failed then (s.clearFailed x).setDirty x else s) := by
      split_ifs
      · exact (Cleared.clear (.inr hanc)).trans
          (.of_map rfl rfl rfl rfl (fun _ ha => ha) fun _ ha => .inl ha)
      · exact .refl s
    have hself : (if (s.entry x).failed then (s.clearFailed x).setDirty x else s).failed x = false := by
      split_ifs with hfailed
      · show ((s.modify x CBlockIndex.clearFailed).entry x).failed = false
        rw [entry_modify_self]
        exact failed_clearFailed _
      · exact Bool.not_eq_true _ ▸ hfailed
    unfold reconsiderAncestors
    cases hpar : s.par x with
    | none =>
      have hrest : reconsiderAncestors turns
          (if (s.entry x).failed then (s.clearFailed x).setDirty x else s) none =
          if (s.entry x).failed then (s.clearFailed x).setDirty x else s := by
        cases turns <;> rfl
      rw [hrest]
      refine ⟨hstep, fun a ha => ?_⟩
      rw [(Forest.anc_of_root hpar).mp ha]
      exact hself
    | some q =>
      have hheight : s.ht x = s.ht q + 1 := hs.shape.tree.graded.height hx hpar
      have hq : q < s.size := hs.shape.tree.graded.closed hx hpar
      obtain ⟨hrest, hclear⟩ := ih hs₁ (lt_of_lt_of_eq hq hstep.size.symm)
        (by rw [hstep.ht]; omega) (by rw [hstep.par]; exact (Anc.of_parent hpar).trans hanc)
      refine ⟨hstep.trans hrest, fun a ha => ?_⟩
      rcases (Forest.anc_of_parent hpar).mp ha with rfl | ha
      · exact hrest.not_failed hself
      · exact hclear a (hstep.par ▸ ha)

/-- What `ReconsiderBlock` leads to. -/
structure Reconsidered (N : Node) (p : Ptr) (s s' : NodeState) : Prop where
  inv : IndexInv N s'
  cleared : Cleared p s s'
  not_failed : ∀ q < s.size, Anc s.par p q ∨ Anc s.par q p → s'.failed q = false
  /-- The entries below `p` that lose a mark are candidates, if they are better than the tip. -/
  candidates : ∀ t, s.tip = some t → ∀ q < s.size, Anc s.par p q → s.failed q = true →
    s.linked q = true → s.worse t q = true → q ∈ s'.setBlockIndexCandidates

theorem reconsiderBlock_reconsidered (hs : IndexInv N s) (hp : p < s.size) :
    Reconsidered N p s (reconsiderBlock s p) := by
  have hrange : ∀ q ∈ List.range s.size, q < s.size := fun q hq => List.mem_range.mp hq
  have hfirst := reconsiderDescendants_cleared (p := p) hs hrange
  have hs₁ : IndexInv N ((List.range s.size).foldl (reconsiderDescendant p) s) :=
    (reconsiderDescendants_moves hrange).inv hs
  obtain ⟨hsecond, habove⟩ := reconsiderAncestors_cleared (p := p) (s.ht p + 1) hs₁
    (lt_of_lt_of_eq hp hfirst.size.symm) (by rw [hfirst.ht]; exact Nat.lt_succ_self _) (.refl p)
  obtain ⟨t, htip⟩ := hs.exists_tip
  refine ⟨(reconsiderBlock_moves hs hp).inv hs, hfirst.trans hsecond, ?_, ?_⟩
  · intro q hq hrelated
    rcases hrelated with hanc | hanc
    · exact hsecond.not_failed (reconsiderDescendants_self hs hrange htip (List.mem_range.mpr hq) hanc).1
    · refine habove q ?_
      rw [hfirst.par]
      exact hanc
  · intro t' ht' q hq hanc hfailed hlinked hworse
    exact hsecond.stay q ((reconsiderDescendants_self hs hrange ht' (List.mem_range.mpr hq) hanc).2
      hfailed hlinked hworse)

end

end Reddcoin
