import Reddcoin.Primitives.PartialMerkleTree

/-!
# Partial merkle trees from anyone

A received tree names its own number of transactions, bits and hashes.  If its walk ends in the root of a
list of that many txids, a collision-free hash leaves it no choice: every node it enters has the hash of
the list's own tree.
-/

namespace Reddcoin

open List

namespace CPartialMerkleTree

variable {tree : CPartialMerkleTree}

/-! ## Reads -/

/-- `CalcTreeWidth` in 32 bits; nothing if the shift is not defined. -/
def readingTreeWidth (nTransactions height : Nat) : Option Nat :=
  if 31 ≤ height then none
  else some (((nTransactions + (1 <<< height) + (2 ^ 32 - 1)) % 2 ^ 32) >>> height)

def readingHeight (nTransactions : Nat) : Nat → Nat → Option Nat
  | 0, _ => none
  | turns + 1, nHeight => do
    let width ← readingTreeWidth nTransactions nHeight
    if 1 < width then readingHeight nTransactions turns (nHeight + 1) else some nHeight

variable (hash : Uint256 → Uint256 → Uint256)

def readingHash (tree : CPartialMerkleTree) (fMatched : Bool) (t : Traversal) :
    Option (Uint256 × Traversal) :=
  if tree.vHash.length ≤ t.nHashUsed then some (0, { t with fBad := true })
  else do
    let hash ← tree.vHash[t.nHashUsed]?
    let t := { t with nHashUsed := t.nHashUsed + 1 }
    pure (hash, if fMatched then { t with vMatch := t.vMatch ++ [hash] } else t)

/-- `TraverseAndExtract` with its checks before its reads; nothing if a read goes outside a vector. -/
def readingTraverse (tree : CPartialMerkleTree) :
    Nat → Nat → Traversal → Option (Uint256 × Traversal)
  | 0, _, t =>
    if tree.vBits.length ≤ t.nBitsUsed then some (0, { t with fBad := true })
    else do
      let fParentOfMatch ← tree.vBits[t.nBitsUsed]?
      readingHash tree fParentOfMatch { t with nBitsUsed := t.nBitsUsed + 1 }
  | height + 1, pos, t =>
    if tree.vBits.length ≤ t.nBitsUsed then some (0, { t with fBad := true })
    else do
      let fParentOfMatch ← tree.vBits[t.nBitsUsed]?
      let t := { t with nBitsUsed := t.nBitsUsed + 1 }
      if fParentOfMatch then do
        let left ← readingTraverse tree height (pos * 2) t
        let width ← readingTreeWidth tree.nTransactions height
        if pos * 2 + 1 < width then do
          let right ← readingTraverse tree height (pos * 2 + 1) left.2
          pure (hash left.1 right.1, right.2)
        else pure (hash left.1 left.1, left.2)
      else readingHash tree false t

/-- `ExtractMatches`, or nothing if a read goes outside a vector, a shift is not defined or the search
for the height does not end. -/
def readingExtractMatches (tree : CPartialMerkleTree) : Option (Uint256 × List Uint256) :=
  if tree.nTransactions = 0 then some (0, [])
  else if tree.nTransactions > MAX_BLOCK_SIZE / 60 then some (0, [])
  else if tree.vHash.length > tree.nTransactions then some (0, [])
  else if tree.vBits.length < tree.vHash.length then some (0, [])
  else do
    let nHeight ← readingHeight tree.nTransactions 32 0
    let walk ← readingTraverse hash tree nHeight 0
      { nBitsUsed := 0, nHashUsed := 0, vMatch := [], fBad := tree.fBad }
    if walk.2.fBad then pure (0, walk.2.vMatch)
    else if (walk.2.nBitsUsed + 7) / 8 ≠ (tree.vBits.length + 7) / 8 then pure (0, walk.2.vMatch)
    else if walk.2.nHashUsed ≠ tree.vHash.length then pure (0, walk.2.vMatch)
    else pure (walk.1, walk.2.vMatch)

theorem readingTreeWidth_eq {n height : Nat} (hn : n ≤ MAX_BLOCK_SIZE / 60) (hheight : height ≤ 30) :
    readingTreeWidth n height = some (calcTreeWidth n height) := by
  have hmax : MAX_BLOCK_SIZE / 60 = 16666 := rfl
  have hpos := Nat.one_le_two_pow (n := height)
  have hpow : 2 ^ height ≤ 2 ^ 30 := Nat.pow_le_pow_right (by decide) hheight
  have hfit : (n + 2 ^ height + (2 ^ 32 - 1)) % 2 ^ 32 = n + 2 ^ height - 1 := by omega
  unfold readingTreeWidth calcTreeWidth
  rw [if_neg (by omega), Nat.one_shiftLeft, hfit]

/-- A tree small enough to be looked at is not high. -/
theorem treeHeight_le {n : Nat} (hn : n ≤ MAX_BLOCK_SIZE / 60) : treeHeight n ≤ 15 := by
  have hmax : MAX_BLOCK_SIZE / 60 = 16666 := rfl
  rcases Nat.eq_zero_or_pos n with rfl | hpos
  · decide
  · by_contra hhigh
    have hwide := lt_calcTreeWidth_iff.mp ((treeHeight_spec hpos).1 15 (by omega))
    omega

theorem readingHeight_eq {n : Nat} (hpos : 0 < n) (hn : n ≤ MAX_BLOCK_SIZE / 60) (turns nHeight : Nat)
    (hle : nHeight ≤ treeHeight n) (hturns : treeHeight n < nHeight + turns) :
    readingHeight n turns nHeight = some (treeHeight n) := by
  have hhigh := treeHeight_le hn
  obtain ⟨hbelow, htop⟩ := treeHeight_spec hpos
  induction turns generalizing nHeight with
  | zero => omega
  | succ turns ih =>
    rw [readingHeight, readingTreeWidth_eq hn (by omega)]
    simp only [Option.bind_eq_bind, Option.bind_some]
    rcases Nat.lt_or_eq_of_le hle with hlt | rfl
    · rw [if_pos (hbelow nHeight hlt)]
      exact ih (nHeight + 1) hlt (by omega)
    · rw [if_neg (by omega)]

theorem readingHash_eq (tree : CPartialMerkleTree) (fMatched : Bool) (t : Traversal) :
    readingHash tree fMatched t = some (useHash tree fMatched t) := by
  unfold readingHash useHash
  by_cases hend : tree.vHash.length ≤ t.nHashUsed
  · rw [if_pos hend, getElem?_eq_none hend]
  · rw [if_neg hend, getElem?_eq_getElem (Nat.lt_of_not_le hend)]
    cases fMatched <;> rfl

theorem readingTraverse_eq (tree : CPartialMerkleTree) (hn : tree.nTransactions ≤ MAX_BLOCK_SIZE / 60)
    (height pos : Nat) (hheight : height ≤ 15) (t : Traversal) :
    readingTraverse hash tree height pos t = some (traverseAndExtract hash tree height pos t) := by
  induction height generalizing pos t with
  | zero =>
    rw [readingTraverse, traverseAndExtract]
    by_cases hend : tree.vBits.length ≤ t.nBitsUsed
    · rw [if_pos hend, getElem?_eq_none hend]
    · rw [if_neg hend, getElem?_eq_getElem (Nat.lt_of_not_le hend)]
      exact readingHash_eq tree _ _
  | succ height ih =>
    rw [readingTraverse, traverseAndExtract]
    by_cases hend : tree.vBits.length ≤ t.nBitsUsed
    · rw [if_pos hend, getElem?_eq_none hend]
    · have hread : t.nBitsUsed < tree.vBits.length := Nat.lt_of_not_le hend
      rw [if_neg hend, getElem?_eq_getElem hread]
      simp only [Option.bind_eq_bind, Option.bind_some]
      cases tree.vBits[t.nBitsUsed] with
      | false => exact readingHash_eq tree false _
      | true =>
        simp only [if_true, ih (pos * 2) (by omega), readingTreeWidth_eq hn (show height ≤ 30 by omega),
          Option.bind_some]
        by_cases hright : pos * 2 + 1 < calcTreeWidth tree.nTransactions height
        · rw [if_pos hright, if_pos hright, ih (pos * 2 + 1) (by omega)]
          rfl
        · rw [if_neg hright, if_neg hright]
          rfl

theorem readingExtractMatches_eq (tree : CPartialMerkleTree) :
    readingExtractMatches hash tree = some (extractMatches hash tree) := by
  unfold readingExtractMatches extractMatches
  split_ifs with hnone hmany hhashes hbits
  · rfl
  · rfl
  · rfl
  · rfl
  · rw [readingHeight_eq (by omega) (by omega) 32 0 (by omega)
      (by have := treeHeight_le (n := tree.nTransactions) (by omega); omega)]
    simp only [Option.bind_eq_bind, Option.bind_some]
    rw [readingTraverse_eq hash tree (by omega) _ _ (treeHeight_le (by omega))]
    simp only [Option.bind_some]
    split_ifs <;> rfl

/-! ## What a walk to the right hash has met -/

theorem useHash_keeps {fMatched : Bool} {t : Traversal} (hok : (useHash tree fMatched t).2.fBad = false) :
    t.fBad = false ∧ (useHash tree fMatched t).2.vMatch =
      t.vMatch ++ if fMatched then [(useHash tree fMatched t).1] else [] := by
  unfold useHash at hok ⊢
  cases hread : tree.vHash[t.nHashUsed]? with
  | none => simp [hread] at hok
  | some x =>
    rw [hread] at hok
    refine ⟨hok, ?_⟩
    cases fMatched
    · exact (append_nil _).symm
    · rfl

/-- A flag that is set stays set. -/
theorem fBad_of_traverse {height pos : Nat} {t : Traversal}
    (hok : (traverseAndExtract hash tree height pos t).2.fBad = false) : t.fBad = false := by
  induction height generalizing pos t with
  | zero =>
    rw [traverseAndExtract] at hok
    cases hread : tree.vBits[t.nBitsUsed]? with
    | none => simp [hread] at hok
    | some bit =>
      rw [hread] at hok
      exact (useHash_keeps hok).1
  | succ height ih =>
    rw [traverseAndExtract] at hok
    cases hread : tree.vBits[t.nBitsUsed]? with
    | none => simp [hread] at hok
    | some bit =>
      rw [hread] at hok
      cases bit with
      | false => exact (useHash_keeps hok).1
      | true =>
        dsimp only at hok
        by_cases hright : pos * 2 + 1 < calcTreeWidth tree.nTransactions height
        · rw [if_pos hright] at hok
          have hleft := ih hok
          have hstart := ih hleft
          exact hstart
        · rw [if_neg hright] at hok
          have hstart := ih (show (traverseAndExtract hash tree height (pos * 2) _).2.fBad = false from hok)
          exact hstart

/-- A walk below a node that ends in the node's own hash has found leaves below it, in order. -/
theorem traverseAndExtract_sound (hinj : ∀ a b a' b', hash a b = hash a' b' → a = a' ∧ b = b') {vTxid : List Uint256}
    (hn : tree.nTransactions = vTxid.length)
    {height pos : Nat} (hpos : pos < calcTreeWidth vTxid.length height) {t : Traversal}
    (hok : (traverseAndExtract hash tree height pos t).2.fBad = false)
    (hhash : (traverseAndExtract hash tree height pos t).1 = calcHash hash vTxid.length vTxid height pos) :
    ∃ found, (traverseAndExtract hash tree height pos t).2.vMatch = t.vMatch ++ found ∧
      found.Sublist ((vTxid.drop (pos * 2 ^ height)).take (2 ^ height)) := by
  induction height generalizing pos t with
  | zero =>
    rw [traverseAndExtract] at hok hhash ⊢
    cases hread : tree.vBits[t.nBitsUsed]? with
    | none => simp [hread] at hok
    | some bit =>
      rw [hread] at hok hhash
      refine ⟨_, (useHash_keeps hok).2, ?_⟩
      have hleaf : pos < vTxid.length := by simpa using lt_calcTreeWidth_iff.mp hpos
      dsimp only at hhash
      rw [hhash, calcHash, getD_eq_getElem?_getD, getElem?_eq_getElem hleaf, pow_zero,
        Nat.mul_one, drop_eq_getElem_cons hleaf]
      cases bit
      · exact nil_sublist _
      · exact List.Sublist.refl _
  | succ height ih =>
    rw [traverseAndExtract] at hok hhash ⊢
    cases hread : tree.vBits[t.nBitsUsed]? with
    | none => simp [hread] at hok
    | some bit =>
      rw [hread] at hok hhash
      cases bit with
      | false => exact ⟨[], (useHash_keeps hok).2, nil_sublist _⟩
      | true =>
        have hleft : pos * 2 < calcTreeWidth vTxid.length height := by
          rw [calcTreeWidth_succ] at hpos
          omega
        rw [take_drop_succ]
        dsimp only at hok hhash ⊢
        rw [calcHash] at hhash
        rw [hn] at hok hhash ⊢
        by_cases hright : pos * 2 + 1 < calcTreeWidth vTxid.length height
        · rw [if_pos hright] at hok hhash ⊢
          rw [if_pos hright] at hhash
          obtain ⟨hhashLeft, hhashRight⟩ := hinj _ _ _ _ hhash
          obtain ⟨foundLeft, hmatchLeft, hsubLeft⟩ := ih hleft (fBad_of_traverse hash hok) hhashLeft
          obtain ⟨foundRight, hmatchRight, hsubRight⟩ := ih hright hok hhashRight
          refine ⟨foundLeft ++ foundRight, ?_, hsubLeft.append hsubRight⟩
          rw [← append_assoc, ← hmatchLeft]
          exact hmatchRight
        · rw [if_neg hright] at hok hhash ⊢
          rw [if_neg hright] at hhash
          obtain ⟨foundLeft, hmatchLeft, hsubLeft⟩ := ih hleft hok (hinj _ _ _ _ hhash).1
          exact ⟨foundLeft, hmatchLeft, hsubLeft.trans (sublist_append_left _ _)⟩

/-- Every failure is reported as 0. -/
theorem extractMatches_of_ne_zero (hne : (extractMatches hash tree).1 ≠ 0) :
    0 < tree.nTransactions ∧ (traverseAndExtract hash tree (treeHeight tree.nTransactions) 0
        { nBitsUsed := 0, nHashUsed := 0, vMatch := [], fBad := tree.fBad }).2.fBad = false ∧
      extractMatches hash tree = ((traverseAndExtract hash tree (treeHeight tree.nTransactions) 0
            { nBitsUsed := 0, nHashUsed := 0, vMatch := [], fBad := tree.fBad }).1,
          (traverseAndExtract hash tree (treeHeight tree.nTransactions) 0
            { nBitsUsed := 0, nHashUsed := 0, vMatch := [], fBad := tree.fBad }).2.vMatch) := by
  unfold extractMatches at hne ⊢
  dsimp only at hne ⊢
  split_ifs at hne ⊢ with hnone hmany hhashes hbits hbad hused hleft <;> try exact absurd rfl hne
  exact ⟨Nat.pos_of_ne_zero hnone, Bool.eq_false_iff.mpr hbad, rfl⟩

theorem extractMatches_sublist (hinj : ∀ a b a' b', hash a b = hash a' b' → a = a' ∧ b = b') {vTxid : List Uint256}
    (hn : tree.nTransactions = vTxid.length)
    (hroot : (extractMatches hash tree).1 = merkleRoot hash vTxid)
    (hne : (extractMatches hash tree).1 ≠ 0) : (extractMatches hash tree).2.Sublist vTxid := by
  obtain ⟨hpos, hok, heq⟩ := extractMatches_of_ne_zero hash hne
  have htxids : vTxid ≠ [] := ne_nil_of_length_pos (by omega)
  rw [heq] at hroot ⊢
  rw [hn] at hroot hok ⊢
  obtain ⟨-, htop⟩ := treeHeight_spec (n := vTxid.length) (by omega)
  obtain ⟨found, hmatch, hsub⟩ := traverseAndExtract_sound hash hinj hn (by omega) hok
    (hroot.trans (calcHash_top hash vTxid htxids).symm)
  dsimp only at hmatch ⊢
  rw [hmatch, nil_append]
  exact hsub.trans ((take_sublist _ _).trans (drop_sublist _ _))

end CPartialMerkleTree

/-- A tree whose walk gives the root of a list of as many txids, and not the 0 of a failure, reports txids
of that list, in its order and each place once.  No received tree makes the walk run on or read outside
its bits and hashes. -/
theorem extractMatches_sound (hash : Uint256 → Uint256 → Uint256) (tree : CPartialMerkleTree) :
    tree.readingExtractMatches hash = some (tree.extractMatches hash) ∧
    ((∀ a b a' b', hash a b = hash a' b' → a = a' ∧ b = b') →
      ∀ vTxid : List Uint256, tree.nTransactions = vTxid.length →
        (tree.extractMatches hash).1 = merkleRoot hash vTxid → (tree.extractMatches hash).1 ≠ 0 →
        (tree.extractMatches hash).2.Sublist vTxid) :=
  ⟨CPartialMerkleTree.readingExtractMatches_eq hash tree, fun hinj _ hn hroot hne =>
    CPartialMerkleTree.extractMatches_sublist hash hinj hn hroot hne⟩

theorem merkleRoot_eq_loop (hash : Uint256 → Uint256 → Uint256) (l : List Uint256) :
    merkleRoot hash l = (merkleLoop hash l.length l false).1 := by
  rw [merkleLoop_eq hash _ _ le_rfl]

open Example

theorem extractMatches_sound_example :
    (CPartialMerkleTree.extractMatches pairing.merkleHash
      { nTransactions := 3
        vBits := [true, true, true, false, false, false, false, false]
        vHash := [2, 4, pairing.merkleHash 6 6]
        fBad := false }).2.Sublist [2, 4, 6] :=
  (extractMatches_sound pairing.merkleHash _).2 pairing_inj [2, 4, 6] rfl
    (by rw [merkleRoot_eq_loop]; decide) (by decide)

/-- Without collisions, and with the hash of one pair 0. -/
def Example.zeroPair (a b : Uint256) : Uint256 :=
  if a = 1 ∧ b = 2 then 0 else Nat.pair a b + 1

theorem Example.zeroPair_inj (a b a' b' : Uint256)
    (h : zeroPair a b = zeroPair a' b') : a = a' ∧ b = b' := by
  unfold zeroPair at h
  split_ifs at h with hpair hpair'
  · exact ⟨hpair.1.trans hpair'.1.symm, hpair.2.trans hpair'.2.symm⟩
  · exact Nat.pair_eq_pair.mp (Nat.succ_injective h)

/-- A root of 0 is also what a failure returns, with what had been found by then: here a foreign id. -/
theorem extractMatches_zero :
    (∀ a b a' b', zeroPair a b = zeroPair a' b' → a = a' ∧ b = b') ∧
    CPartialMerkleTree.extractMatches zeroPair
      { nTransactions := 2
        vBits := List.replicate 16 true
        vHash := [7, 8]
        fBad := false } = (merkleRoot zeroPair [1, 2], [7, 8]) ∧
    7 ∉ [1, 2] :=
  ⟨zeroPair_inj, by rw [merkleRoot_eq_loop]; decide, by decide⟩

end Reddcoin
