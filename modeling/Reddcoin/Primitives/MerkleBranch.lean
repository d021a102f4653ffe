import Reddcoin.Primitives.MerkleTree

/-!
# Merkle branches

`BuildMerkleTree` keeps its levels in one vector, each behind the one below it, and `GetMerkleBranch`
finds the partner of a node in every level by an offset.  `CheckMerkleBranch` tells left from right by
the bits of the index.
-/

namespace Reddcoin

open List

namespace MerkleVector

variable (C : Crypto)

/-! ## The vector -/

/-- The inner loop of `BuildMerkleTree` from node `i` of the level of `nSize` nodes at offset `j`. -/
def hashLevel (j nSize i : Nat) (vMerkleTree : List Uint256) (mutated : Bool) :
    Option (List Uint256 × Bool) :=
  if i < nSize then do
    let i2 := min (i + 1) (nSize - 1)
    let left ← vMerkleTree[j + i]?
    let right ← vMerkleTree[j + i2]?
    hashLevel j nSize (i + 2) (vMerkleTree ++ [C.merkleHash left right])
      (if i2 = i + 1 ∧ i2 + 1 = nSize ∧ left = right then true else mutated)
  else some (vMerkleTree, mutated)
termination_by nSize - i

def hashLevels (j nSize : Nat) (vMerkleTree : List Uint256) (mutated : Bool) :
    Option (List Uint256 × Bool) :=
  if 1 < nSize then do
    let (vMerkleTree, mutated) ← hashLevel C j nSize 0 vMerkleTree mutated
    hashLevels (j + nSize) ((nSize + 1) / 2) vMerkleTree mutated
  else some (vMerkleTree, mutated)
termination_by nSize

/-- What `BuildMerkleTree` leaves in `vMerkleTree` and in `*fMutated`; nothing if it reads outside the
vector. -/
def fillMerkleTree (block : CBlock) : Option (List Uint256 × Bool) :=
  hashLevels C 0 block.vtx.length (block.vtx.map C.txHash) false

/-- The value that `BuildMerkleTree` returns. -/
def merkleTreeBack (vMerkleTree : List Uint256) : Uint256 :=
  if vMerkleTree = [] then 0 else vMerkleTree.getLastD 0

/-! ## Branches -/

def branchLoop (vMerkleTree : List Uint256) (j nSize nIndex : Nat) : Option (List Uint256) :=
  if 1 < nSize then do
    let i := min (nIndex ^^^ 1) (nSize - 1)
    let sibling ← vMerkleTree[j + i]?
    let rest ← branchLoop vMerkleTree (j + nSize) ((nSize + 1) / 2) (nIndex >>> 1)
    pure (sibling :: rest)
  else some []
termination_by nSize

/-- `GetMerkleBranch` of a block that has `vMerkleTree`. -/
def getMerkleBranch (block : CBlock) (vMerkleTree : List Uint256) (nIndex : Nat) :
    Option (List Uint256) :=
  if vMerkleTree = [] then do
    let (vMerkleTree, _) ← fillMerkleTree C block
    branchLoop vMerkleTree 0 block.vtx.length nIndex
  else branchLoop vMerkleTree 0 block.vtx.length nIndex

def checkBranchLoop (hash : Uint256) : List Uint256 → Int → Uint256
  | [], _ => hash
  | node :: rest, nIndex =>
    if nIndex % 2 = 1 then checkBranchLoop (C.merkleHash node hash) rest (nIndex >>> (1 : Nat))
    else checkBranchLoop (C.merkleHash hash node) rest (nIndex >>> (1 : Nat))

def checkMerkleBranch (hash : Uint256) (vMerkleBranch : List Uint256) (nIndex : Int) : Uint256 :=
  if nIndex = -1 then 0 else checkBranchLoop C hash vMerkleBranch nIndex

/-! ## The vector holds the tree -/

variable {C}

theorem getElem?_level {below level done : List Uint256} {k : Nat} (hk : k < level.length) :
    (below ++ level ++ done)[below.length + k]? = level[k]? := by
  rw [getElem?_append_left (by rw [length_append]; omega), getElem?_append_right (by omega), Nat.add_sub_cancel_left]

/-- From node `front.length` on, the loop appends the parents of the nodes that are left. -/
theorem hashLevel_eq (below front rest done : List Uint256) (mutated : Bool) :
    hashLevel C below.length (front ++ rest).length front.length (below ++ (front ++ rest) ++ done)
        mutated =
      some (below ++ (front ++ rest) ++ (done ++ Merkle.pairUp C.merkleHash rest),
        mutated || Merkle.endsInPair rest) := by
  induction rest using Merkle.pairUp.induct generalizing front done mutated with
  | case1 =>
    rw [hashLevel, if_neg (by simp)]
    simp [Merkle.pairUp, Merkle.endsInPair]
  | case2 a =>
    have hlen : (front ++ [a]).length = front.length + 1 := by simp
    have hread : (below ++ (front ++ [a]) ++ done)[below.length + front.length]? = some a := by
      rw [getElem?_level (by omega)]
      simp
    rw [hashLevel, hlen, if_pos (by omega), Nat.min_eq_right (by omega)]
    simp only [Nat.add_sub_cancel, hread, Option.bind_eq_bind, Option.bind_some]
    rw [if_neg (by omega), hashLevel, if_neg (by omega)]
    simp [Merkle.pairUp, Merkle.endsInPair]
  | case3 a b rest ih =>
    have hlen : (front ++ a :: b :: rest).length = front.length + (rest.length + 2) := by simp
    have hleft : (below ++ (front ++ a :: b :: rest) ++ done)[below.length + front.length]? = some a := by
      rw [getElem?_level (by omega)]
      simp
    have hright : (below ++ (front ++ a :: b :: rest) ++ done)[below.length + (front.length + 1)]? = some b := by
      rw [getElem?_level (by omega)]
      simp
    -- only the last pair of a level is compared
    have hmut : ((if front.length + 1 + 1 = front.length + (rest.length + 2) ∧ a = b then true
          else mutated) || Merkle.endsInPair rest) =
        (mutated || Merkle.endsInPair (a :: b :: rest)) := by
      cases rest with
      | nil => by_cases hab : a = b <;> simp [hab, Merkle.endsInPair]
      | cons c rest =>
        rw [if_neg (by simp only [length_cons]; omega)]
        rfl
    have hmove : front ++ a :: b :: rest = front ++ [a, b] ++ rest := by simp
    have htwo : (front ++ [a, b]).length = front.length + 2 := by simp
    have hturn := ih (front ++ [a, b]) (done ++ [C.merkleHash a b])
      (if front.length + 1 + 1 = front.length + (rest.length + 2) ∧ a = b then true else mutated)
    rw [← hmove, hmut, hlen, htwo] at hturn
    rw [hashLevel, hlen, if_pos (by omega), Nat.min_eq_left (by omega)]
    simp only [hleft, hright, Option.bind_eq_bind, Option.bind_some, true_and]
    rw [append_assoc _ done, hturn, Merkle.pairUp, append_assoc done, singleton_append]

theorem hashLevels_eq (below : List Uint256) (l : List Uint256) (mutated : Bool) :
    hashLevels C below.length l.length (below ++ l) mutated =
      some (below ++ Merkle.tower C.merkleHash l, mutated || Merkle.mutated C.merkleHash l) := by
  induction l using Merkle.tower.induct (h := C.merkleHash) generalizing below mutated with
  | case1 l hlong ih =>
    have hlevel := hashLevel_eq (C := C) below [] l [] mutated
    simp only [nil_append, append_nil, length_nil] at hlevel
    have habove := ih (below ++ l) (mutated || Merkle.endsInPair l)
    rw [Merkle.length_pairUp, length_append] at habove
    rw [hashLevels, if_pos hlong, hlevel]
    simp only [Option.bind_eq_bind, Option.bind_some]
    rw [habove, Merkle.tower.eq_def C.merkleHash l, if_pos hlong, Merkle.mutated.eq_def C.merkleHash l, if_pos hlong,
      append_assoc, Bool.or_assoc]
  | case2 l hshort =>
    rw [hashLevels, if_neg hshort, Merkle.tower, if_neg hshort, Merkle.mutated, if_neg hshort, Bool.or_false]

theorem fillMerkleTree_eq (block : CBlock) :
    fillMerkleTree C block =
      some (Merkle.tower C.merkleHash (block.vtx.map C.txHash), (block.buildMerkleTree C).2) := by
  have h := hashLevels_eq (C := C) [] (block.vtx.map C.txHash) false
  rw [length_nil, nil_append, nil_append, Bool.false_or, length_map] at h
  rw [fillMerkleTree, h, CBlock.buildMerkleTree_eq]

/-- The vector ends in the root that is computed level by level. -/
theorem merkleTreeBack_tower {block : CBlock} (hne : block.vtx ≠ []) :
    merkleTreeBack (Merkle.tower C.merkleHash (block.vtx.map C.txHash)) = (block.buildMerkleTree C).1 := by
  have hleaves : block.vtx.map C.txHash ≠ [] := by simpa using hne
  rw [merkleTreeBack, if_neg (Merkle.tower_ne_nil _ hleaves), Merkle.getLastD_tower _ _ hleaves,
    CBlock.buildMerkleTree_eq, merkleRoot]

/-! ## The branch holds the partners -/

theorem branchLoop_eq (below : List Uint256) {l : List Uint256} {nIndex : Nat} (hi : nIndex < l.length) :
    branchLoop (below ++ Merkle.tower C.merkleHash l) below.length l.length nIndex =
      some (Merkle.siblings C.merkleHash 0 l nIndex) := by
  induction l using Merkle.tower.induct (h := C.merkleHash) generalizing below nIndex with
  | case1 l hlong ih =>
    have hup : nIndex / 2 < (Merkle.pairUp C.merkleHash l).length := by
      rw [Merkle.length_pairUp]
      omega
    have hplace : min (nIndex ^^^ 1) (l.length - 1) < l.length := by omega
    have hread : l[min (nIndex ^^^ 1) (l.length - 1)]? = some (l.getD (min (nIndex ^^^ 1) (l.length - 1)) 0) := by
      rw [getD_eq_getElem?_getD, getElem?_eq_getElem hplace]
      rfl
    have habove := ih (below ++ l) hup
    rw [length_append, Merkle.length_pairUp, append_assoc] at habove
    rw [branchLoop, if_pos hlong, Merkle.tower.eq_def C.merkleHash l, if_pos hlong,
      Merkle.siblings.eq_def C.merkleHash 0 l, if_pos hlong]
    simp only
    rw [← append_assoc, getElem?_level hplace, hread, append_assoc, Nat.shiftRight_one, habove]
    rfl
  | case2 l hshort => rw [branchLoop, if_neg hshort, Merkle.siblings, if_neg hshort]

theorem getMerkleBranch_eq (block : CBlock) {vMerkleTree : List Uint256}
    (hcache : vMerkleTree = [] ∨ vMerkleTree = Merkle.tower C.merkleHash (block.vtx.map C.txHash))
    {nIndex : Nat} (hi : nIndex < block.vtx.length) :
    getMerkleBranch C block vMerkleTree nIndex =
      some (Merkle.siblings C.merkleHash 0 (block.vtx.map C.txHash) nIndex) := by
  have hleaf : nIndex < (block.vtx.map C.txHash).length := by
    rw [length_map]
    exact hi
  have h := branchLoop_eq (C := C) [] hleaf
  rw [nil_append, length_nil, length_map] at h
  unfold getMerkleBranch
  split_ifs with hempty
  · rw [fillMerkleTree_eq]
    exact h
  · rw [hcache.resolve_left hempty]
    exact h

theorem checkBranchLoop_eq (hash : Uint256) (branch : List Uint256) (i : Nat) :
    checkBranchLoop C hash branch i = Merkle.climb C.merkleHash hash branch i := by
  induction branch generalizing hash i with
  | nil => rfl
  | cons node rest ih =>
    have hshift : (i : Int) >>> (1 : Nat) = ((i / 2 : Nat) : Int) := by
      rw [Int.shiftRight_eq_div_pow]
      rfl
    rw [checkBranchLoop, Merkle.climb, hshift, ih, ih]
    by_cases hodd : i % 2 = 1
    · rw [if_pos (by omega), if_pos hodd]
    · rw [if_neg (by omega), if_neg hodd]

theorem checkMerkleBranch_eq (hash : Uint256) (branch : List Uint256) (i : Nat) :
    checkMerkleBranch C hash branch i = Merkle.climb C.merkleHash hash branch i := by
  rw [checkMerkleBranch, if_neg (by omega), checkBranchLoop_eq]

/-- The branch of every transaction leads to the root, and no other hash reaches it from there with as
many partners. -/
theorem checkMerkleBranch_getMerkleBranch (C : Crypto) (block : CBlock) :
    ∃ vMerkleTree, fillMerkleTree C block = some (vMerkleTree, (block.buildMerkleTree C).2) ∧
      ∀ i tx, block.vtx[i]? = some tx → ∃ branch, getMerkleBranch C block vMerkleTree i = some branch ∧
        getMerkleBranch C block [] i = some branch ∧
        merkleTreeBack vMerkleTree = (block.buildMerkleTree C).1 ∧
        checkMerkleBranch C (C.txHash tx) branch i = merkleTreeBack vMerkleTree ∧
        ((∀ a b a' b', C.merkleHash a b = C.merkleHash a' b' → a = a' ∧ b = b') →
          ∀ hash branch', branch'.length = branch.length →
            checkMerkleBranch C hash branch' i = merkleTreeBack vMerkleTree →
            hash = C.txHash tx ∧ branch' = branch) := by
  refine ⟨_, fillMerkleTree_eq block, fun i tx hi => ?_⟩
  have hlt : i < block.vtx.length := (List.getElem?_eq_some_iff.mp hi).1
  have hleaf : (block.vtx.map C.txHash).getD i 0 = C.txHash tx := by
    rw [getD_eq_getElem?_getD, getElem?_map, hi]
    rfl
  have hroot : checkMerkleBranch C (C.txHash tx)
      (Merkle.siblings C.merkleHash 0 (block.vtx.map C.txHash) i) i = (block.buildMerkleTree C).1 := by
    rw [checkMerkleBranch_eq, ← hleaf, Merkle.climb_siblings _ _ (by rw [length_map]; exact hlt),
      CBlock.buildMerkleTree_eq, merkleRoot]
  have hne : block.vtx ≠ [] := ne_nil_of_length_pos (by omega)
  have hback := merkleTreeBack_tower (C := C) hne
  refine ⟨_, getMerkleBranch_eq block (.inr rfl) hlt,
    getMerkleBranch_eq block (.inl rfl) hlt, hback, hroot.trans hback.symm, ?_⟩
  intro hinj hash branch' hlen hpass
  rw [hback, ← hroot, checkMerkleBranch_eq, checkMerkleBranch_eq] at hpass
  exact Merkle.climb_inj _ hinj hlen hpass

open Example

/-- The last of three transactions is its own partner in the lowest level. -/
theorem checkMerkleBranch_getMerkleBranch_example :
    ∃ vMerkleTree branch, getMerkleBranch pairing (numberedBlock [1, 2, 3]) vMerkleTree 2 = some branch ∧
      checkMerkleBranch pairing 6 branch 2 = ((numberedBlock [1, 2, 3]).buildMerkleTree pairing).1 ∧
      ∀ hash branch', branch'.length = branch.length → checkMerkleBranch pairing hash branch' 2 =
          ((numberedBlock [1, 2, 3]).buildMerkleTree pairing).1 → hash = 6 := by
  obtain ⟨vMerkleTree, -, hbranch⟩ :=
    checkMerkleBranch_getMerkleBranch pairing (numberedBlock [1, 2, 3])
  obtain ⟨branch, hget, -, hback, hroot, honly⟩ := hbranch 2 (numberedTx 3) rfl
  refine ⟨vMerkleTree, branch, hget, hroot.trans hback, fun hash branch' hlen hpass => ?_⟩
  exact (honly pairing_inj hash branch' hlen (hpass.trans hback.symm)).1

end MerkleVector

end Reddcoin
