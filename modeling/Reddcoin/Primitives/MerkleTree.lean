import Mathlib.Data.Nat.Pairing
import Reddcoin.Lib.Merkle
import Reddcoin.Primitives.Block

/-!
# The merkle tree of a block

`BuildMerkleTree` goes up level by level and reports a mutation when a level ends in two identical
hashes.  If the hash has no collisions and no txid is the hash of a pair, the report covers every
other list with the same root.
-/

namespace Reddcoin

/-- The root of a list of txids. -/
def merkleRoot (hash : Uint256 → Uint256 → Uint256) (txids : List Uint256) : Uint256 :=
  (Merkle.root hash txids).headD 0

theorem merkleLevel_eq (hash : Uint256 → Uint256 → Uint256) (l : List Uint256) :
    merkleLevel hash l = (Merkle.pairUp hash l, Merkle.endsInPair l) := by
  fun_induction merkleLevel hash l with
  | case1 => rfl
  | case2 a => rfl
  | case3 a b => rfl
  | case4 a b rest hrest above ih =>
    cases rest with
    | nil => exact (hrest rfl).elim
    | cons c rest =>
      show (hash a b :: (merkleLevel hash (c :: rest)).1, (merkleLevel hash (c :: rest)).2) = _
      rw [ih]
      rfl

theorem merkleLoop_eq (hash : Uint256 → Uint256 → Uint256) (n : Nat) (l : List Uint256)
    (hl : l.length ≤ n) (mutated : Bool) :
    merkleLoop hash n l mutated = (merkleRoot hash l, mutated || Merkle.mutated hash l) := by
  induction n generalizing l mutated with
  | zero =>
    obtain rfl : l = [] := List.length_eq_zero_iff.mp (by omega)
    simp [merkleLoop, merkleRoot, Merkle.root, Merkle.mutated]
  | succ n ih =>
    cases l with
    | nil => simp [merkleLoop, merkleRoot, Merkle.root, Merkle.mutated]
    | cons a tail =>
      cases tail with
      | nil => simp [merkleLoop, merkleRoot, Merkle.root, Merkle.mutated]
      | cons b rest =>
        have hlong : 1 < (a :: b :: rest).length := by simp
        have hshort : (Merkle.pairUp hash (a :: b :: rest)).length ≤ n := by
          rw [Merkle.length_pairUp]
          simp only [List.length_cons] at hl ⊢
          omega
        show merkleLoop hash n (merkleLevel hash (a :: b :: rest)).1
          (mutated || (merkleLevel hash (a :: b :: rest)).2) = _
        rw [merkleLevel_eq, ih _ hshort, merkleRoot, merkleRoot, Merkle.root_pairUp hash hlong,
          Merkle.mutated.eq_def hash (a :: b :: rest), if_pos hlong, Bool.or_assoc]

theorem merkleRoot_inj {hash : Uint256 → Uint256 → Uint256} {l l' : List Uint256} (hl : l ≠ [])
    (hl' : l' ≠ []) (heq : merkleRoot hash l = merkleRoot hash l') :
    Merkle.root hash l = Merkle.root hash l' := by
  have hone : ∀ m : List Uint256, m ≠ [] → Merkle.root hash m = [merkleRoot hash m] := by
    intro m hm
    obtain ⟨d, hroot, hlen, -⟩ := Merkle.root_eq_level hash m
    have hpos := Merkle.length_level_pos hash hm d
    obtain ⟨x, hx⟩ := List.length_eq_one_iff.mp (show (Merkle.level hash d m).length = 1 by omega)
    rw [merkleRoot, hroot, hx]
    rfl
  rw [hone l hl, hone l' hl', heq]

namespace CBlock

variable {C : Crypto}

theorem buildMerkleTree_eq (block : CBlock) :
    block.buildMerkleTree C = (merkleRoot C.merkleHash (block.vtx.map C.txHash),
        Merkle.mutated C.merkleHash (block.vtx.map C.txHash)) := by
  unfold buildMerkleTree
  rw [merkleLoop_eq C.merkleHash _ _ (by simp), Bool.false_or]

end CBlock

/-- Of two different lists of transactions with one root, the longer one is reported.  A list is
reported when a shorter prefix has the same root, or when the two hashes just below the root are
identical, which no shorter list explains. -/
theorem buildMerkleTree_mutated (C : Crypto)
    (hinj : ∀ a b a' b', C.merkleHash a b = C.merkleHash a' b' → a = a' ∧ b = b')
    (hleaf : ∀ tx a b, C.merkleHash a b ≠ C.txHash tx) :
    (∀ block block' : CBlock, block.vtx ≠ [] → block'.vtx ≠ [] → block.vtx.map C.txHash ≠ block'.vtx.map C.txHash →
      (block.buildMerkleTree C).1 = (block'.buildMerkleTree C).1 →
      (block.vtx.length < block'.vtx.length ∧ (block'.buildMerkleTree C).2 = true) ∨
        (block'.vtx.length < block.vtx.length ∧ (block.buildMerkleTree C).2 = true)) ∧
    ∀ block : CBlock, (block.buildMerkleTree C).2 = true ↔ (∃ n, 0 < n ∧ n < block.vtx.length ∧
        ({ block with vtx := block.vtx.take n }.buildMerkleTree C).1 = (block.buildMerkleTree C).1) ∨
      ∃ k a, Merkle.level C.merkleHash k (block.vtx.map C.txHash) = [a, a] := by
  have hleaves : ∀ block : CBlock, ∀ x ∈ block.vtx.map C.txHash, ∀ a b, C.merkleHash a b ≠ x := by
    intro block x hx
    obtain ⟨tx, -, rfl⟩ := List.mem_map.mp hx
    exact hleaf tx
  constructor
  · intro block block' hne hne' hdiff hroot
    rw [CBlock.buildMerkleTree_eq, CBlock.buildMerkleTree_eq] at hroot ⊢
    have hnil : block.vtx.map C.txHash ≠ [] := by simpa using hne
    have hnil' : block'.vtx.map C.txHash ≠ [] := by simpa using hne'
    have h := Merkle.mutated_of_root_eq C.merkleHash hinj hnil (hleaves block) (hleaves block')
      (merkleRoot_inj hnil hnil' hroot) hdiff
    rw [List.length_map, List.length_map] at h
    exact h
  · intro block
    rw [CBlock.buildMerkleTree_eq]
    show Merkle.mutated _ _ = true ↔ _
    rw [Merkle.mutated_iff_shorter C.merkleHash hinj (hleaves block)]
    refine or_congr (exists_congr fun n => ?_) Iff.rfl
    rw [List.length_map, CBlock.buildMerkleTree_eq]
    refine and_congr_right fun hpos => and_congr_right fun hlt => ?_
    show _ ↔ merkleRoot C.merkleHash ((block.vtx.take n).map C.txHash) = _
    rw [List.map_take]
    constructor
    · intro h
      show (Merkle.root _ _).headD 0 = _
      rw [h]
      rfl
    · apply merkleRoot_inj
      · rw [← List.map_take]
        exact List.ne_nil_of_length_pos (by simp only [List.length_map, List.length_take]; omega)
      · exact List.ne_nil_of_length_pos (by rw [List.length_map]; omega)

namespace Example

/-- Hashes without collisions: a pair is odd, a txid even. -/
def pairing : Crypto where
  txHash tx := 2 * tx.nLockTime
  headerHash _ := 0
  powHash _ := 0
  merkleHash a b := 2 * Nat.pair a b + 1
  selectionHash _ _ := 0
  kernelHash _ _ _ _ _ _ := 0
  verifyKey _ _ _ := false
  verifyScript _ _ _ _ _ := none

def numberedTx (n : Nat) : CTransaction where
  nVersion := 1
  vin := []
  vout := []
  nLockTime := n
  nTime := 0

def numberedBlock (l : List Nat) : CBlock where
  nVersion := 1
  hashPrevBlock := 0
  hashMerkleRoot := 0
  nTime := 0
  nBits := 0
  nNonce := 0
  vtx := l.map numberedTx
  vchBlockSig := []

theorem pairing_inj (a b a' b' : Uint256) (h : pairing.merkleHash a b = pairing.merkleHash a' b') :
    a = a' ∧ b = b' := by
  have h : 2 * Nat.pair a b + 1 = 2 * Nat.pair a' b' + 1 := h
  exact Nat.pair_eq_pair.mp (by omega)

theorem pairing_leaf (tx : CTransaction) (a b : Uint256) :
    pairing.merkleHash a b ≠ pairing.txHash tx := by
  intro h
  have h : 2 * Nat.pair a b + 1 = 2 * tx.nLockTime := h
  omega

end Example

open Example

theorem buildMerkleTree_mutated_example :
    (numberedBlock [1, 2, 3, 3]).vtx.length ≠ (numberedBlock [1, 2, 3]).vtx.length ∧
    ((numberedBlock [1, 2, 3, 3]).buildMerkleTree pairing).2 = true := by
  have hroot : ((numberedBlock [1, 2, 3]).buildMerkleTree pairing).1 =
      ((numberedBlock [1, 2, 3, 3]).buildMerkleTree pairing).1 := by decide
  rcases (buildMerkleTree_mutated pairing pairing_inj pairing_leaf).1
    (numberedBlock [1, 2, 3]) (numberedBlock [1, 2, 3, 3]) (by decide) (by decide)
    (by decide) hroot with ⟨-, hmut⟩ | ⟨hlt, -⟩
  · exact ⟨by decide, hmut⟩
  · exact absurd hlt (by decide)

/-- A block of one transaction twice is reported, and its only shorter prefix has another root. -/
theorem buildMerkleTree_twins :
    (∀ a b a' b', pairing.merkleHash a b = pairing.merkleHash a' b' → a = a' ∧ b = b') ∧
    (∀ tx a b, pairing.merkleHash a b ≠ pairing.txHash tx) ∧
    (numberedBlock [1, 1]).buildMerkleTree pairing = (17, true) ∧
    ∀ n, 0 < n → n < (numberedBlock [1, 1]).vtx.length → ({ numberedBlock [1, 1] with
          vtx := (numberedBlock [1, 1]).vtx.take n }.buildMerkleTree pairing).1 ≠
        ((numberedBlock [1, 1]).buildMerkleTree pairing).1 := by
  refine ⟨pairing_inj, pairing_leaf, by decide, ?_⟩
  · intro n hpos hlt
    have hlt : n < 2 := hlt
    obtain rfl : n = 1 := by omega
    decide

end Reddcoin
