import Reddcoin.Index.FailureFlags
import Reddcoin.Lib.Traversal

/-!
# The consistency check of the index

`CheckBlockIndex` explores the tree of entries and asserts how the flags, the candidates and the entries that
wait for their parents fit together.
-/

namespace Reddcoin

open List (range)

open List

open Forest (Anc)

/-! ## The check -/

/-- The oldest ancestors of the explored entry, itself included, which have certain properties. -/
structure Firsts where
  pindexFirstInvalid : Option Ptr
  pindexFirstMissing : Option Ptr
  pindexFirstNotTreeValid : Option Ptr
  pindexFirstNotChainValid : Option Ptr
  pindexFirstNotScriptsValid : Option Ptr

namespace Firsts

/-- Before the genesis block. -/
def start : Firsts where
  pindexFirstInvalid := none
  pindexFirstMissing := none
  pindexFirstNotTreeValid := none
  pindexFirstNotChainValid := none
  pindexFirstNotScriptsValid := none

/-- `if (pindexFirst == NULL && property) pindexFirst = pindex`. -/
def remember (first : Option Ptr) (property : Bool) (pindex : Ptr) : Option Ptr :=
  if first.isNone && property then some pindex else first

/-- The exploration comes to an entry.  When it leaves the entry the old values apply again. -/
def enter (s : NodeState) (f : Firsts) (pindex : Ptr) : Firsts :=
  let e := s.entry pindex
  let below (level : Nat) : Bool := e.pprev.isSome && decide (e.nStatus.valid < level)
  { pindexFirstInvalid := remember f.pindexFirstInvalid e.nStatus.failedValid pindex
    pindexFirstMissing := remember f.pindexFirstMissing (!e.nStatus.haveData) pindex
    pindexFirstNotTreeValid := remember f.pindexFirstNotTreeValid (below BLOCK_VALID_TREE) pindex
    pindexFirstNotChainValid := remember f.pindexFirstNotChainValid (below BLOCK_VALID_CHAIN) pindex
    pindexFirstNotScriptsValid := remember f.pindexFirstNotScriptsValid (below BLOCK_VALID_SCRIPTS) pindex }

end Firsts

/-- `assert`. -/
def assertThat (b : Bool) : Check Unit :=
  require b .crashes

/-- Whether the entry is in `mapBlocksUnlinked`, under its parent. -/
def NodeState.foundInUnlinked (s : NodeState) (pindex : Ptr) : Bool :=
  match s.par pindex with
  | some q => decide ((q, pindex) ∈ s.mapBlocksUnlinked)
  | none => false

/-- Whether the entry sorts worse than the tip. -/
def NodeState.worseThanTip (s : NodeState) (pindex : Ptr) : Bool :=
  match s.tip with
  | some t => s.worse pindex t
  | none => false

section

variable (N : Node)

/-- The consistency checks of `CheckBlockIndex` for one entry. -/
def checkEntry (s : NodeState) (f : Firsts) (nHeight : Nat) (pindex : Ptr) : Check Unit := do
  let e := s.entry pindex
  let st := e.nStatus
  -- Genesis block checks.
  onlyIf e.pprev.isNone (assertThat (decide (e.hash = N.P.hashGenesisBlock)))
  onlyIf e.pprev.isNone (assertThat (decide (s.chainActive[0]? = some (some pindex))))
  assertThat (decide ((!st.haveData) = decide (e.nTx = 0)))
  assertThat (decide (decide (BLOCK_VALID_TRANSACTIONS ≤ st.valid) = decide (0 < e.nTx)))
  onlyIf (decide (e.nChainTx = 0)) (assertThat (decide (e.nSequenceId = 0)))
  assertThat (decide (f.pindexFirstMissing.isSome = decide (e.nChainTx = 0)))
  assertThat (decide (e.nHeight = nHeight))
  assertThat (match e.pprev with
    | none => true
    | some q => decide ((s.entry q).nChainWork ≤ e.nChainWork))
  assertThat (decide (nHeight < 2) || match e.pskip with
    | none => false
    | some a => decide (s.ht a < nHeight))
  assertThat f.pindexFirstNotTreeValid.isNone
  onlyIf (decide (BLOCK_VALID_TREE ≤ st.valid)) (assertThat f.pindexFirstNotTreeValid.isNone)
  onlyIf (decide (BLOCK_VALID_CHAIN ≤ st.valid)) (assertThat f.pindexFirstNotChainValid.isNone)
  onlyIf (decide (BLOCK_VALID_SCRIPTS ≤ st.valid)) (assertThat f.pindexFirstNotScriptsValid.isNone)
  onlyIf f.pindexFirstInvalid.isNone (assertThat (!st.failed))
  if !s.worseThanTip pindex && f.pindexFirstMissing.isNone then
    onlyIf f.pindexFirstInvalid.isNone (assertThat (decide (pindex ∈ s.setBlockIndexCandidates)))
  else assertThat (decide (pindex ∉ s.setBlockIndexCandidates))
  if e.pprev.isSome && st.haveData && f.pindexFirstMissing.isSome then
    onlyIf f.pindexFirstInvalid.isNone (assertThat (s.foundInUnlinked pindex))
  else assertThat (!s.foundInUnlinked pindex)

/-- The entry and everything below it is explored: the number of entries, when no assertion fails. -/
def explore (s : NodeState) : Nat → Firsts → Nat → Ptr → Check Nat
  | 0, _, _, _ => .ok 0
  | depth + 1, f, nHeight, pindex => do
    let f := f.enter s pindex
    checkEntry N s f nHeight pindex
    (Forest.children (range s.size) s.par pindex).foldlM
      (fun nNodes c => (nNodes + ·) <$> explore s depth f (nHeight + 1) c) 1

/-- `CheckBlockIndex`, when `fCheckBlockIndex` is set. -/
def checkBlockIndex (s : NodeState) : Check Unit :=
  if s.chainActive.length = 0 then assertThat (decide (s.size ≤ 1))
  else
    -- There is only one entry without a parent.
    match (range s.size).filter fun p => (s.par p).isNone with
    | [genesis] => do
      let nNodes ← explore N s s.size Firsts.start 0 genesis
      assertThat (decide (nNodes = s.size))
    | _ => .error .crashes

end

/-! ## What the exploration remembers -/

section

variable {N : Node} {s : NodeState} {p q : Ptr}

/-- `f` says which properties all ancestors of `p` have. -/
structure Firsts.Sees (s : NodeState) (f : Firsts) (p : Ptr) : Prop where
  invalid : f.pindexFirstInvalid = none ↔ ∀ a, Anc s.par a p → (s.entry a).nStatus.failedValid = false
  missing : f.pindexFirstMissing = none ↔ ∀ a, Anc s.par a p → s.haveData a = true
  notTreeValid : f.pindexFirstNotTreeValid = none ↔
    ∀ a, Anc s.par a p → s.par a = none ∨ BLOCK_VALID_TREE ≤ (s.entry a).nStatus.valid
  notChainValid : f.pindexFirstNotChainValid = none ↔
    ∀ a, Anc s.par a p → s.par a = none ∨ BLOCK_VALID_CHAIN ≤ (s.entry a).nStatus.valid
  notScriptsValid : f.pindexFirstNotScriptsValid = none ↔
    ∀ a, Anc s.par a p → s.par a = none ∨ BLOCK_VALID_SCRIPTS ≤ (s.entry a).nStatus.valid

theorem Firsts.remember_eq_none {first : Option Ptr} {property : Bool} :
    remember first property p = none ↔ first = none ∧ property = false := by
  unfold remember
  cases first with
  | none => cases property <;> simp
  | some a => simp

theorem Firsts.remember_iff {P : Ptr → Prop} {first : Option Ptr} {property : Bool}
    (hproperty : property = false ↔ P p)
    (hparent : ∀ q, s.par p = some q → (first = none ↔ ∀ a, Anc s.par a q → P a))
    (hroot : s.par p = none → first = none) :
    remember first property p = none ↔ ∀ a, Anc s.par a p → P a := by
  rw [remember_eq_none, hproperty]
  cases hpar : s.par p with
  | none =>
    constructor
    · rintro ⟨-, hp⟩ a ha
      rw [(Forest.anc_of_root hpar).mp ha]
      exact hp
    · intro h
      exact ⟨hroot hpar, h p (.refl p)⟩
  | some q =>
    rw [hparent q hpar]
    constructor
    · rintro ⟨habove, hp⟩ a ha
      rcases (Forest.anc_of_parent hpar).mp ha with rfl | ha
      · exact hp
      · exact habove a ha
    · intro h
      exact ⟨fun a ha => h a (.step hpar ha), h p (.refl p)⟩

/-- The level of an entry with a parent is looked at. -/
theorem below_iff (level : Nat) :
    ((s.entry p).pprev.isSome && decide ((s.entry p).nStatus.valid < level)) = false ↔
      (s.par p = none ∨ level ≤ (s.entry p).nStatus.valid) := by
  have hpar : s.par p = (s.entry p).pprev := rfl
  rw [hpar, Bool.and_eq_false_iff, Option.isSome_eq_false_iff, Option.isNone_iff_eq_none,
    decide_eq_false_iff_not, Nat.not_lt]

theorem Firsts.enter_sees {f : Firsts} (hparent : ∀ q, s.par p = some q → f.Sees s q)
    (hroot : s.par p = none → f = start) : (f.enter s p).Sees s p where
  invalid := remember_iff Iff.rfl (fun q hq => (hparent q hq).invalid) fun h => by rw [hroot h]; rfl
  missing := remember_iff (by rw [Bool.not_eq_false']; rfl) (fun q hq => (hparent q hq).missing) fun h => by
    rw [hroot h]
    rfl
  notTreeValid := remember_iff (below_iff _) (fun q hq => (hparent q hq).notTreeValid) fun h => by
    rw [hroot h]
    rfl
  notChainValid := remember_iff (below_iff _) (fun q hq => (hparent q hq).notChainValid) fun h => by
    rw [hroot h]
    rfl
  notScriptsValid := remember_iff (below_iff _) (fun q hq => (hparent q hq).notScriptsValid) fun h => by
    rw [hroot h]
    rfl

theorem foldlM_add {count : Ptr → Check Nat} {size : Ptr → Nat} {l : List Ptr}
    (h : ∀ c ∈ l, count c = .ok (size c)) (n : Nat) :
    l.foldlM (fun nNodes c => (nNodes + ·) <$> count c) n = .ok (n + (l.map size).sum) := by
  induction l generalizing n with
  | nil => rfl
  | cons c l ih =>
    rw [foldlM_cons, h c mem_cons_self]
    show l.foldlM _ (n + size c) = _
    rw [ih (fun d hd => h d (mem_cons_of_mem _ hd)), map_cons, sum_cons, Nat.add_assoc]

/-- When the checks pass for every entry, the exploration counts what it meets. -/
theorem explore_eq (hs : IndexInv N s)
    (hcheck : ∀ p < s.size, ∀ f : Firsts, f.Sees s p → checkEntry N s f (s.ht p) p = .ok ())
    (depth : Nat) {f : Firsts} (hp : p < s.size) (hsees : (f.enter s p).Sees s p) :
    explore N s depth f (s.ht p) p = .ok (Forest.subtree (range s.size) s.par depth p).length := by
  induction depth generalizing f p with
  | zero => rfl
  | succ depth ih =>
    have hchildren : ∀ c ∈ Forest.children (range s.size) s.par p,
        explore N s depth (f.enter s p) (s.ht p + 1) c =
          .ok (Forest.subtree (range s.size) s.par depth c).length := by
      intro c hc
      obtain ⟨hcs, hcp⟩ := Forest.mem_children.mp hc
      rw [mem_range] at hcs
      have hheight : s.ht c = s.ht p + 1 := hs.shape.tree.graded.height hcs hcp
      rw [← hheight]
      refine ih hcs (Firsts.enter_sees (fun q hq => ?_) fun hnone => ?_)
      · rw [← Option.mem_unique hcp hq]
        exact hsees
      · rw [hcp] at hnone
        simp at hnone
    unfold explore
    simp only [hcheck p hp _ hsees]
    rw [foldlM_add hchildren, Forest.subtree, length_cons, length_flatMap, Nat.add_comm]
    rfl

theorem checkBlockIndex_ok (hs : IndexInv N s)
    (hcheck : ∀ p < s.size, ∀ f : Firsts, f.Sees s p → checkEntry N s f (s.ht p) p = .ok ()) :
    checkBlockIndex N s = .ok () := by
  have hg : Forest.Graded (· ∈ range s.size) s.par s.ht := by
    have htree := hs.shape.tree.graded
    refine ⟨fun hp hpar => ?_, fun hp hpar => ?_, fun hp hpar => ?_⟩
    · exact mem_range.mpr (htree.closed (mem_range.mp hp) hpar)
    · exact htree.height (mem_range.mp hp) hpar
    · exact htree.root (mem_range.mp hp) hpar
  obtain ⟨g, hgsize, hroot, -⟩ := hs.exists_genesis
  have hgmem : g ∈ range s.size := mem_range.mpr hgsize
  have hroots : ((range s.size).filter fun p => (s.par p).isNone) = [g] := by
    refine perm_singleton.mp ((perm_ext_iff_of_nodup (nodup_range.filter _)
      (nodup_singleton g)).mpr fun p => ?_)
    rw [mem_filter, mem_singleton, mem_range, Option.isNone_iff_eq_none]
    constructor
    · rintro ⟨hp, hpar⟩
      exact hs.shape.tree.root p hp g hgsize hpar hroot
    · rintro rfl
      exact ⟨hgsize, hroot⟩
  have hall : ∀ q ∈ range s.size, Anc s.par g q := by
    intro q hq
    obtain ⟨a, hanc, hheight⟩ := hg.exists_anc hq (Nat.zero_le _)
    have ha := hg.anc_mem hq hanc
    have hapar : s.par a = none := by
      cases hpar : s.par a with
      | none => rfl
      | some b =>
        have := hg.height ha hpar
        omega
    rw [hs.shape.tree.root g hgsize a (mem_range.mp ha) hroot hapar]
    exact hanc
  have hactive : ¬ s.chainActive.length = 0 := by
    intro hempty
    obtain ⟨t, htip⟩ := hs.exists_tip
    rw [NodeState.tip, length_eq_zero_iff.mp hempty] at htip
    simp [CChain.tip] at htip
  have hheight : s.ht g = 0 := hs.shape.tree.graded.root hgsize hroot
  have hexplore := explore_eq hs hcheck s.size (f := Firsts.start) hgsize
    (Firsts.enter_sees (fun q hq => by rw [hroot] at hq; simp at hq) fun _ => rfl)
  have hcount : (Forest.subtree (range s.size) s.par s.size g).length = s.size := by
    have hlen := hg.length_subtree nodup_range hgmem hall
    rw [length_range] at hlen
    exact hlen
  rw [hheight, hcount] at hexplore
  unfold checkBlockIndex
  rw [if_neg hactive, hroots]
  simp only [hexplore]
  show assertThat (decide (s.size = s.size)) = .ok ()
  simp [assertThat]

end

end Reddcoin
