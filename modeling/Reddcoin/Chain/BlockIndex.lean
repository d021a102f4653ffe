import Reddcoin.Lib.Forest
import Reddcoin.Primitives.Block

/-!
# Index entries

`CBlockIndex` of `chain.h` and the map of entries.  A pointer is the number of its slot in the map; an
entry is never freed.  `pskip` points back further than `pprev`, and `GetAncestor` jumps along both.
-/

namespace Reddcoin

open Forest (Anc Graded path)

abbrev Ptr := Nat

def BLOCK_VALID_TREE : Nat := 2
def BLOCK_VALID_TRANSACTIONS : Nat := 3
def BLOCK_VALID_CHAIN : Nat := 4
def BLOCK_VALID_SCRIPTS : Nat := 5

structure BlockStatus where
  /-- The bits of `BLOCK_VALID_MASK`. -/
  valid : Nat
  haveData : Bool
  haveUndo : Bool
  failedValid : Bool
  failedChild : Bool
deriving DecidableEq

namespace BlockStatus

def new : BlockStatus :=
  { valid := 0, haveData := false, haveUndo := false, failedValid := false, failedChild := false }

/-- `nStatus & BLOCK_FAILED_MASK`. -/
def failed (st : BlockStatus) : Bool :=
  st.failedValid || st.failedChild

def isValid (st : BlockStatus) (nUpTo : Nat) : Bool :=
  !st.failed && decide (nUpTo ≤ st.valid)

def raiseValidity (st : BlockStatus) (nUpTo : Nat) : BlockStatus :=
  if st.failed then st else if st.valid < nUpTo then { st with valid := nUpTo } else st

section

variable (st : BlockStatus) (n : Nat)

@[simp]
theorem raiseValidity_haveData : (st.raiseValidity n).haveData = st.haveData := by
  unfold raiseValidity
  split_ifs <;> rfl

@[simp]
theorem raiseValidity_haveUndo : (st.raiseValidity n).haveUndo = st.haveUndo := by
  unfold raiseValidity
  split_ifs <;> rfl

@[simp]
theorem raiseValidity_failedValid : (st.raiseValidity n).failedValid = st.failedValid := by
  unfold raiseValidity
  split_ifs <;> rfl

@[simp]
theorem raiseValidity_failedChild : (st.raiseValidity n).failedChild = st.failedChild := by
  unfold raiseValidity
  split_ifs <;> rfl

end

theorem raiseValidity_valid {st : BlockStatus} (h : st.failed = false) (n : Nat) :
    (st.raiseValidity n).valid = max st.valid n := by
  unfold raiseValidity
  rw [h]
  simp only [Bool.false_eq_true, if_false]
  split_ifs
  · show n = max st.valid n
    omega
  · omega

end BlockStatus

structure CBlockIndex where
  /-- `*phashBlock`. -/
  hash : Uint256
  pprev : Option Ptr
  pskip : Option Ptr
  nHeight : Nat
  nVersion : Int
  hashMerkleRoot : Uint256
  nTime : Nat
  nBits : Nat
  nNonce : Nat
  /-- The flag `BLOCK_PROOF_OF_STAKE` of `nFlags`. -/
  fProofOfStake : Bool
  /-- The flag `BLOCK_STAKE_ENTROPY`. -/
  fStakeEntropy : Bool
  /-- The flag `BLOCK_STAKE_MODIFIER`. -/
  fStakeModifier : Bool
  nMint : Int
  nMoneySupply : Int
  nStakeModifier : Nat
  nStakeTime : Nat
  hashProof : Uint256
  prevoutStake : COutPoint
  nFile : Nat
  nDataPos : Nat
  nUndoPos : Nat
  nChainWork : Nat
  nTx : Nat
  nChainTx : Nat
  nStatus : BlockStatus
  nSequenceId : Nat
deriving DecidableEq

namespace CBlockIndex

/-- `SetNull`. -/
def new : CBlockIndex where
  hash := 0
  pprev := none
  pskip := none
  nHeight := 0
  nVersion := 0
  hashMerkleRoot := 0
  nTime := 0
  nBits := 0
  nNonce := 0
  fProofOfStake := false
  fStakeEntropy := false
  fStakeModifier := false
  nMint := 0
  nMoneySupply := 0
  nStakeModifier := 0
  nStakeTime := 0
  hashProof := 0
  prevoutStake := COutPoint.null
  nFile := 0
  nDataPos := 0
  nUndoPos := 0
  nChainWork := 0
  nTx := 0
  nChainTx := 0
  nStatus := BlockStatus.new
  nSequenceId := 0

/-- The constructor from a header. -/
def ofHeader (block : CBlockHeader) : CBlockIndex :=
  { new with
    nVersion := block.nVersion
    hashMerkleRoot := block.hashMerkleRoot
    nTime := block.nTime
    nBits := block.nBits
    nNonce := block.nNonce
    fProofOfStake := block.isProofOfStake }

def failed (e : CBlockIndex) : Bool :=
  e.nStatus.failed

def isValid (e : CBlockIndex) (nUpTo : Nat) : Bool :=
  e.nStatus.isValid nUpTo

/-- `nStatus |= BLOCK_FAILED_VALID`. -/
def failValid (e : CBlockIndex) : CBlockIndex :=
  { e with nStatus := { e.nStatus with failedValid := true } }

/-- `nStatus |= BLOCK_FAILED_CHILD`. -/
def failChild (e : CBlockIndex) : CBlockIndex :=
  { e with nStatus := { e.nStatus with failedChild := true } }

/-- `nStatus &= ~BLOCK_FAILED_MASK`. -/
def clearFailed (e : CBlockIndex) : CBlockIndex :=
  { e with nStatus := { e.nStatus with failedValid := false, failedChild := false } }

/-- `nChainTx` is set: the entry and all its ancestors have their transactions. -/
def linked (e : CBlockIndex) : Bool :=
  decide (e.nChainTx ≠ 0)

end CBlockIndex

/-- `GetBlockProof`, from the compact target.  A target that is negative, zero or too large counts for
nothing. -/
def getBlockProof (nBits : Nat) : Nat :=
  let nSize := nBits / 2 ^ 24
  let nMantissa := nBits % 2 ^ 23
  let nWord := if nSize ≤ 3 then nMantissa / 2 ^ (8 * (3 - nSize)) else nMantissa
  let bnTarget := if nSize ≤ 3 then nWord else nWord * 2 ^ (8 * (nSize - 3)) % 2 ^ 256
  let fNegative := nWord ≠ 0 ∧ nBits / 2 ^ 23 % 2 = 1
  let fOverflow := nWord ≠ 0 ∧ (34 < nSize ∨ (0xff < nWord ∧ 33 < nSize) ∨ (0xffff < nWord ∧ 32 < nSize))
  if fNegative ∨ fOverflow ∨ bnTarget = 0 then 0
  else (2 ^ 256 - 1 - bnTarget) / (bnTarget + 1) + 1

/-! ## The map -/

/-- `mapBlockIndex`: the entries in the order of their slots. -/
structure BlockMap where
  size : Nat
  entry : Ptr → CBlockIndex

namespace BlockMap

variable (m : BlockMap)

def par (p : Ptr) : Option Ptr :=
  (m.entry p).pprev

def ht (p : Ptr) : Nat :=
  (m.entry p).nHeight

def find (hash : Uint256) : Option Ptr :=
  (List.range m.size).find? fun p => decide ((m.entry p).hash = hash)

def modify (p : Ptr) (f : CBlockIndex → CBlockIndex) : BlockMap :=
  { m with entry := fun q => if q = p then f (m.entry q) else m.entry q }

/-- `GetBlockHeader`. -/
def getBlockHeader (p : Ptr) : CBlockHeader :=
  let e := m.entry p
  { nVersion := e.nVersion
    hashPrevBlock := match e.pprev with
      | some q => (m.entry q).hash
      | none => 0
    hashMerkleRoot := e.hashMerkleRoot
    nTime := e.nTime
    nBits := e.nBits
    nNonce := e.nNonce }

variable {m}

theorem find_eq_some {hash : Uint256} {p : Ptr} (h : m.find hash = some p) :
    p < m.size ∧ (m.entry p).hash = hash := by
  have hmem := List.mem_of_find?_eq_some h
  have htest := List.find?_some h
  exact ⟨List.mem_range.mp hmem, by simpa using htest⟩

theorem find_eq_none {hash : Uint256} (h : m.find hash = none) :
    ∀ p < m.size, (m.entry p).hash ≠ hash := by
  intro p hp heq
  have htest := List.find?_eq_none.mp h p (List.mem_range.mpr hp)
  simp [heq] at htest

theorem entry_modify (p q : Ptr) (f : CBlockIndex → CBlockIndex) :
    (m.modify p f).entry q = if q = p then f (m.entry q) else m.entry q := rfl

/-- A field that a modification keeps is kept in every entry. -/
theorem entry_modify_proj {β : Type} (g : CBlockIndex → β) {f : CBlockIndex → CBlockIndex}
    (hf : ∀ e, g (f e) = g e) (p q : Ptr) : g ((m.modify p f).entry q) = g (m.entry q) := by
  rw [entry_modify]
  split_ifs
  · exact hf _
  · rfl

end BlockMap

/-! ## The skip list -/

def invertLowestOne (n : Nat) : Nat :=
  n &&& (n - 1)

def getSkipHeight (height : Nat) : Nat :=
  if height < 2 then 0
  else if height % 2 = 1 then invertLowestOne (invertLowestOne (height - 1)) + 1
  else invertLowestOne height

theorem invertLowestOne_le (n : Nat) : invertLowestOne n ≤ n - 1 :=
  Nat.and_le_right

theorem getSkipHeight_lt {height : Nat} (h : 0 < height) : getSkipHeight height < height := by
  unfold getSkipHeight
  have h₁ := invertLowestOne_le height
  have h₂ := invertLowestOne_le (height - 1)
  have h₃ := invertLowestOne_le (invertLowestOne (height - 1))
  split_ifs <;> omega

namespace BlockMap

/-- Whether `GetAncestor` jumps from height `heightWalk`: only when the jump of the parent is not better
than the parent of the jump. -/
def followSkip (heightWalk height : Nat) : Bool :=
  let heightSkip := getSkipHeight heightWalk
  let heightSkipPrev := getSkipHeight (heightWalk - 1)
  decide (heightSkip = height) ||
    (decide (height < heightSkip) &&
      !(decide (heightSkipPrev + 2 < heightSkip) && decide (height ≤ heightSkipPrev)))

variable (m : BlockMap)

/-- The loop of `GetAncestor`.  The height drops in each turn, so the height bounds the turns. -/
def walk (height : Nat) : Nat → Option Ptr → Nat → Option Ptr
  | turns + 1, some pindexWalk, heightWalk =>
    if height < heightWalk then
      if followSkip heightWalk height then
        walk height turns (m.entry pindexWalk).pskip (getSkipHeight heightWalk)
      else walk height turns (m.entry pindexWalk).pprev (heightWalk - 1)
    else some pindexWalk
  | _, pindexWalk, _ => pindexWalk

def getAncestor (p : Ptr) (height : Nat) : Option Ptr :=
  if m.ht p < height then none else m.walk height (m.ht p + 1) (some p) (m.ht p)

/-- `BuildSkip`: the new `pskip` of an entry on `pprev`. -/
def buildSkip (pprev : Ptr) (nHeight : Nat) : Option Ptr :=
  m.getAncestor pprev (getSkipHeight nHeight)

/-- Each jump leads to the ancestor at the skip height. -/
def Skips (m : BlockMap) (S : Ptr → Prop) : Prop :=
  ∀ p, S p → m.par p ≠ none → ∃ a, (m.entry p).pskip = some a ∧ Anc m.par a p ∧ m.ht a = getSkipHeight (m.ht p)

/-- The pointers form trees. -/
structure Forested (m : BlockMap) : Prop where
  graded : Graded (fun p => p < m.size) m.par m.ht
  skip : m.Skips fun p => p < m.size

/-- The pointers form a tree. -/
structure Tree (m : BlockMap) : Prop where
  graded : Graded (fun p => p < m.size) m.par m.ht
  root : ∀ p < m.size, ∀ q < m.size, m.par p = none → m.par q = none → p = q
  skip : m.Skips fun p => p < m.size

variable {m}

section

variable {S : Ptr → Prop} (hg : Graded S m.par m.ht) (hskip : m.Skips S)

include hg hskip

theorem walk_eq {a p w : Ptr} {height turns : Nat} (hp : S p) (ha : Anc m.par a p)
    (hheight : m.ht a = height) (hw : Anc m.par w p) (hle : height ≤ m.ht w)
    (hturns : m.ht w < turns) : m.walk height turns (some w) (m.ht w) = some a := by
  induction turns generalizing w with
  | zero => omega
  | succ turns ih =>
    have hwS := hg.anc_mem hp hw
    by_cases hlt : height < m.ht w
    · rw [walk, if_pos hlt]
      have hnotroot : m.par w ≠ none := fun hroot => by
        have := hg.root hwS hroot
        omega
      by_cases hfollow : followSkip (m.ht w) height = true
      · obtain ⟨b, hb, hbw, hbheight⟩ := hskip w hwS hnotroot
        have hbound := getSkipHeight_lt (show 0 < m.ht w by omega)
        have hge : height ≤ getSkipHeight (m.ht w) := by
          simp only [followSkip, Bool.or_eq_true, decide_eq_true_eq, Bool.and_eq_true] at hfollow
          omega
        rw [if_pos hfollow, hb, ← hbheight]
        exact ih (hbw.trans hw) (by omega) (by omega)
      · obtain ⟨q, hq⟩ := Option.ne_none_iff_exists'.mp hnotroot
        have hstep := hg.height hwS hq
        rw [if_neg hfollow, show (m.entry w).pprev = some q from hq, show m.ht w - 1 = m.ht q by omega]
        exact ih ((Anc.of_parent hq).trans hw) (by omega) (by omega)
    · rw [walk, if_neg hlt]
      have heq : m.ht w = m.ht a := by omega
      rw [hg.anc_eq_of_height hp hw ha heq]

/-- `GetAncestor` finds the ancestor at a height. -/
theorem getAncestor_eq {a p : Ptr} (hp : S p) (ha : Anc m.par a p) :
    m.getAncestor p (m.ht a) = some a := by
  have hle := (hg.anc_height hp ha).1
  unfold getAncestor
  rw [if_neg (by omega)]
  exact walk_eq hg hskip hp ha rfl (.refl p) hle (by omega)

end

theorem Forested.getAncestor_eq_some (hm : m.Forested) {a p : Ptr} {height : Nat} (hp : p < m.size) :
    m.getAncestor p height = some a ↔ Anc m.par a p ∧ m.ht a = height := by
  constructor
  · intro h
    by_cases hlt : m.ht p < height
    · unfold getAncestor at h
      rw [if_pos hlt] at h
      simp at h
    · obtain ⟨b, hb, hbh⟩ := hm.graded.exists_anc hp (i := height) (by omega)
      have hb' := getAncestor_eq hm.graded hm.skip hp hb
      rw [hbh, h] at hb'
      cases hb'
      exact ⟨hb, hbh⟩
  · rintro ⟨ha, rfl⟩
    exact getAncestor_eq hm.graded hm.skip hp ha

theorem Tree.forested (hm : m.Tree) : m.Forested :=
  ⟨hm.graded, hm.skip⟩

theorem Tree.getAncestor_eq_some (hm : m.Tree) {a p : Ptr} {height : Nat} (hp : p < m.size) :
    m.getAncestor p height = some a ↔ Anc m.par a p ∧ m.ht a = height :=
  hm.forested.getAncestor_eq_some hp

end BlockMap

end Reddcoin
