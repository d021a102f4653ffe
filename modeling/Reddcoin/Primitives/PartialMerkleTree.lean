import Mathlib.Data.Nat.Bitwise
import Reddcoin.Primitives.MerkleTree
import Reddcoin.Serialize.Primitive
import Reddcoin.Validation.Params

/-!
# Partial merkle trees

`CPartialMerkleTree` of `merkleblock.h`.  The encoder goes depth first through the tree of a block and
leaves a bit for each node it visits and a hash for each node it does not enter; the decoder makes the
same walk with a cursor in the bits and one in the hashes.
-/

namespace Reddcoin

open Stream

variable {height pos : Nat}

structure CPartialMerkleTree where
  nTransactions : Nat
  vBits : List Bool
  vHash : List Uint256
  fBad : Bool
deriving DecidableEq

/-- The cursors of `TraverseAndExtract`, the txids it has found and the flag it may set. -/
structure Traversal where
  nBitsUsed : Nat
  nHashUsed : Nat
  vMatch : List Uint256
  fBad : Bool
deriving DecidableEq

namespace CPartialMerkleTree

/-! ## The tree -/

def calcTreeWidth (nTransactions height : Nat) : Nat :=
  (nTransactions + (1 <<< height) - 1) >>> height

/-- The search for the height at which the tree is one node wide.  At height `nTransactions` it is, which
bounds the number of turns. -/
def heightLoop (nTransactions : Nat) : Nat → Nat → Nat
  | 0, nHeight => nHeight
  | turns + 1, nHeight =>
    if 1 < calcTreeWidth nTransactions nHeight then heightLoop nTransactions turns (nHeight + 1)
    else nHeight

def treeHeight (nTransactions : Nat) : Nat :=
  heightLoop nTransactions nTransactions 0

variable (hash : Uint256 → Uint256 → Uint256)

def calcHash (nTransactions : Nat) (vTxid : List Uint256) : Nat → Nat → Uint256
  | 0, pos => vTxid.getD pos 0
  | height + 1, pos =>
    let left := calcHash nTransactions vTxid height (pos * 2)
    let right :=
      if pos * 2 + 1 < calcTreeWidth nTransactions height then
        calcHash nTransactions vTxid height (pos * 2 + 1)
      else left
    hash left right

/-- Whether a leaf below the node is matched. -/
def parentOfMatch (nTransactions : Nat) (vMatch : List Bool) (height pos : Nat) : Bool :=
  (List.range' (pos <<< height) (1 <<< height)).any fun p =>
    decide (p < nTransactions) && vMatch.getD p false

def traverseAndBuild (vTxid : List Uint256) (vMatch : List Bool) :
    Nat → Nat → CPartialMerkleTree → CPartialMerkleTree
  | 0, pos, tree =>
    let fParentOfMatch := parentOfMatch tree.nTransactions vMatch 0 pos
    { tree with
      vBits := tree.vBits ++ [fParentOfMatch]
      vHash := tree.vHash ++ [calcHash hash tree.nTransactions vTxid 0 pos] }
  | height + 1, pos, tree =>
    let fParentOfMatch := parentOfMatch tree.nTransactions vMatch (height + 1) pos
    let tree := { tree with vBits := tree.vBits ++ [fParentOfMatch] }
    if fParentOfMatch then
      let tree := traverseAndBuild vTxid vMatch height (pos * 2) tree
      if pos * 2 + 1 < calcTreeWidth tree.nTransactions height then
        traverseAndBuild vTxid vMatch height (pos * 2 + 1) tree
      else tree
    else
      { tree with vHash := tree.vHash ++ [calcHash hash tree.nTransactions vTxid (height + 1) pos] }

/-- The constructor from the txids of a block and a mask. -/
def ofTxids (vTxid : List Uint256) (vMatch : List Bool) : CPartialMerkleTree :=
  traverseAndBuild hash vTxid vMatch (treeHeight vTxid.length) 0
    { nTransactions := vTxid.length, vBits := [], vHash := [], fBad := false }

/-! ## Extracting -/

/-- The next stored hash, a matched txid if `fMatched`. -/
def useHash (tree : CPartialMerkleTree) (fMatched : Bool) (t : Traversal) : Uint256 × Traversal :=
  match tree.vHash[t.nHashUsed]? with
  | none => (0, { t with fBad := true })
  | some hash =>
    (hash, { t with
        nHashUsed := t.nHashUsed + 1
        vMatch := if fMatched then t.vMatch ++ [hash] else t.vMatch })

def traverseAndExtract (tree : CPartialMerkleTree) : Nat → Nat → Traversal → Uint256 × Traversal
  | 0, _, t =>
    match tree.vBits[t.nBitsUsed]? with
    | none => (0, { t with fBad := true })
    | some fParentOfMatch => useHash tree fParentOfMatch { t with nBitsUsed := t.nBitsUsed + 1 }
  | height + 1, pos, t =>
    match tree.vBits[t.nBitsUsed]? with
    | none => (0, { t with fBad := true })
    | some false => useHash tree false { t with nBitsUsed := t.nBitsUsed + 1 }
    | some true =>
      let left :=
        traverseAndExtract tree height (pos * 2) { t with nBitsUsed := t.nBitsUsed + 1 }
      if pos * 2 + 1 < calcTreeWidth tree.nTransactions height then
        let right := traverseAndExtract tree height (pos * 2 + 1) left.2
        (hash left.1 right.1, right.2)
      else (hash left.1 left.1, left.2)

/-- `ExtractMatches`: the root, or 0 on failure, and the contents of `vMatch`. -/
def extractMatches (tree : CPartialMerkleTree) : Uint256 × List Uint256 :=
  if tree.nTransactions = 0 then (0, [])
  else if tree.nTransactions > MAX_BLOCK_SIZE / 60 then (0, [])
  else if tree.vHash.length > tree.nTransactions then (0, [])
  else if tree.vBits.length < tree.vHash.length then (0, [])
  else
    let walk := traverseAndExtract hash tree (treeHeight tree.nTransactions) 0
      { nBitsUsed := 0, nHashUsed := 0, vMatch := [], fBad := tree.fBad }
    if walk.2.fBad then (0, walk.2.vMatch)
    else if (walk.2.nBitsUsed + 7) / 8 ≠ (tree.vBits.length + 7) / 8 then (0, walk.2.vMatch)
    else if walk.2.nHashUsed ≠ tree.vHash.length then (0, walk.2.vMatch)
    else (walk.1, walk.2.vMatch)

/-! ## On the wire -/

/-- Sets the bit `p` of a byte sequence.  The arithmetic is that of `int`, and the result is cut to a
byte. -/
def orBit (vBytes : List UInt8) (p : Nat) (bit : Bool) : List UInt8 :=
  vBytes.modify (p / 8) fun byte => UInt8.ofNat (byte.toNat ||| (bit.toNat <<< (p % 8)))

def packBits (vBits : List Bool) : List UInt8 :=
  (List.range vBits.length).foldl (fun vBytes p => orBit vBytes p (vBits.getD p false))
    (List.replicate ((vBits.length + 7) / 8) 0)

def unpackBits (vBytes : List UInt8) : List Bool :=
  (List.range (vBytes.length * 8)).map fun p =>
    decide ((vBytes.getD (p / 8) 0).toNat &&& (1 <<< (p % 8)) ≠ 0)

def serialize (tree : CPartialMerkleTree) : List UInt8 :=
  writeData 4 tree.nTransactions ++ (writeVector (writeData 32) tree.vHash ++ writeBytes (packBits tree.vBits))

def unserialize : Reader UInt8 CPartialMerkleTree := do
  let nTransactions ← readData 4
  let vHash ← readVector (many (readData 32)) (5000000 / 32)
  let vBytes ← readBytes
  pure { nTransactions := nTransactions, vBits := unpackBits vBytes, vHash := vHash, fBad := false }

end CPartialMerkleTree

end Reddcoin

/-!
## Partial merkle trees come back

What the encoder leaves of a node is `encode`, and a decoder whose cursors stand at it finds the hash of
the node and the matched txids below it.  Packing the bits into bytes adds only zeros at the end.
-/

namespace Reddcoin

open Stream

namespace CPartialMerkleTree

/-! ## Widths and heights -/

theorem calcTreeWidth_eq (n height : Nat) :
    calcTreeWidth n height = (n + 2 ^ height - 1) / 2 ^ height := by
  unfold calcTreeWidth
  rw [Nat.shiftRight_eq_div_pow, Nat.one_shiftLeft]

theorem calcTreeWidth_succ (n height : Nat) :
    calcTreeWidth n (height + 1) = (calcTreeWidth n height + 1) / 2 := by
  have hpos := Nat.two_pow_pos height
  rw [calcTreeWidth_eq, calcTreeWidth_eq, ← Nat.add_div_right _ hpos, Nat.div_div_eq_div_mul, ← Nat.pow_succ]
  congr 1
  rw [Nat.pow_succ]
  omega

theorem lt_calcTreeWidth_iff {n height pos : Nat} :
    pos < calcTreeWidth n height ↔ pos * 2 ^ height < n := by
  have hpos := Nat.two_pow_pos height
  rw [calcTreeWidth_eq, Nat.lt_div_iff_mul_lt hpos]
  omega

theorem length_level (hash : Uint256 → Uint256 → Uint256) (vTxid : List Uint256) (height : Nat) :
    (Merkle.level hash height vTxid).length = calcTreeWidth vTxid.length height := by
  induction height with
  | zero =>
    rw [calcTreeWidth_eq]
    simp [Merkle.level]
  | succ height ih =>
    show (Merkle.pairUp hash _).length = _
    rw [Merkle.length_pairUp, ih, calcTreeWidth_succ]

theorem heightLoop_spec (n turns nHeight : Nat) (hlow : ∀ i < nHeight, 1 < calcTreeWidth n i) :
    (∀ i < heightLoop n turns nHeight, 1 < calcTreeWidth n i) ∧
      (calcTreeWidth n (heightLoop n turns nHeight) ≤ 1 ∨ heightLoop n turns nHeight = nHeight + turns) := by
  induction turns generalizing nHeight with
  | zero => exact ⟨hlow, .inr rfl⟩
  | succ turns ih =>
    unfold heightLoop
    split_ifs with hwide
    · have hlow' : ∀ i < nHeight + 1, 1 < calcTreeWidth n i := by
        intro i hi
        rcases Nat.lt_succ_iff_lt_or_eq.mp hi with hi | rfl
        · exact hlow i hi
        · exact hwide
      obtain ⟨hall, hend⟩ := ih (nHeight + 1) hlow'
      refine ⟨hall, hend.imp_right fun h => ?_⟩
      omega
    · exact ⟨hlow, .inl (by omega)⟩

theorem treeHeight_spec {n : Nat} (hn : 0 < n) :
    (∀ i < treeHeight n, 1 < calcTreeWidth n i) ∧ calcTreeWidth n (treeHeight n) = 1 := by
  obtain ⟨hall, hend⟩ := heightLoop_spec n n 0 (by simp)
  refine ⟨hall, ?_⟩
  have hsome : 0 < calcTreeWidth n (treeHeight n) := lt_calcTreeWidth_iff.mpr (by omega)
  suffices hle : calcTreeWidth n (treeHeight n) ≤ 1 by omega
  rcases hend with hend | hend
  · exact hend
  · by_contra hwide
    have hlt : 1 * 2 ^ treeHeight n < n := lt_calcTreeWidth_iff.mp (by omega)
    have hheight : treeHeight n = n := by
      rw [treeHeight, hend, Nat.zero_add]
    rw [hheight] at hlt
    have := Nat.lt_two_pow_self (n := n)
    omega

variable (hash : Uint256 → Uint256 → Uint256) (vTxid : List Uint256) (vMatch : List Bool)

theorem calcHash_eq_level (hpos : pos < calcTreeWidth vTxid.length height) :
    calcHash hash vTxid.length vTxid height pos = (Merkle.level hash height vTxid).getD pos 0 := by
  induction height generalizing pos with
  | zero => rfl
  | succ height ih =>
    have hleft : pos * 2 < calcTreeWidth vTxid.length height := by
      rw [calcTreeWidth_succ] at hpos
      omega
    show hash _ _ = (Merkle.pairUp hash (Merkle.level hash height vTxid)).getD pos 0
    rw [Merkle.getD_pairUp hash (by rw [length_level]; omega), length_level, Nat.mul_comm 2 pos, ih hleft]
    split_ifs with hright
    · rw [ih hright]
    · rfl

/-- The hash at the top is the root of the block's own computation. -/
theorem calcHash_top (hne : vTxid ≠ []) :
    calcHash hash vTxid.length vTxid (treeHeight vTxid.length) 0 = merkleRoot hash vTxid := by
  obtain ⟨hbelow, htop⟩ := treeHeight_spec (List.length_pos_of_ne_nil hne)
  have hlen : (Merkle.level hash (treeHeight vTxid.length) vTxid).length = 1 := by
    rw [length_level, htop]
  have hroot : Merkle.root hash vTxid = Merkle.level hash (treeHeight vTxid.length) vTxid := by
    rw [← Merkle.root_level hash (k := treeHeight vTxid.length), Merkle.root_of_length_le hash (by omega)]
    intro i hi
    rw [length_level]
    exact hbelow i hi
  rw [calcHash_eq_level hash vTxid (by omega), merkleRoot, hroot]
  obtain ⟨x, hx⟩ := List.length_eq_one_iff.mp hlen
  rw [hx]
  rfl

/-! ## What the encoder leaves -/

/-- The bits and the hashes of a node. -/
def encode : Nat → Nat → List Bool × List Uint256
  | 0, pos => ([parentOfMatch vTxid.length vMatch 0 pos], [calcHash hash vTxid.length vTxid 0 pos])
  | height + 1, pos =>
    if parentOfMatch vTxid.length vMatch (height + 1) pos then
      let left := encode height (pos * 2)
      if pos * 2 + 1 < calcTreeWidth vTxid.length height then
        let right := encode height (pos * 2 + 1)
        (true :: (left.1 ++ right.1), left.2 ++ right.2)
      else (true :: left.1, left.2)
    else ([false], [calcHash hash vTxid.length vTxid (height + 1) pos])

theorem traverseAndBuild_eq (height pos : Nat) (tree : CPartialMerkleTree)
    (htree : tree.nTransactions = vTxid.length) :
    traverseAndBuild hash vTxid vMatch height pos tree = { tree with
        vBits := tree.vBits ++ (encode hash vTxid vMatch height pos).1
        vHash := tree.vHash ++ (encode hash vTxid vMatch height pos).2 } := by
  induction height generalizing pos tree with
  | zero => simp only [traverseAndBuild, encode, htree]
  | succ height ih =>
    obtain ⟨nTransactions, vBits, vHash, fBad⟩ := tree
    obtain rfl : nTransactions = vTxid.length := htree
    simp only [traverseAndBuild, encode]
    by_cases hparent : parentOfMatch vTxid.length vMatch (height + 1) pos = true
    · rw [if_pos hparent, if_pos hparent, ih (pos * 2) _ rfl]
      by_cases hright : pos * 2 + 1 < calcTreeWidth vTxid.length height
      · rw [if_pos hright, if_pos hright, ih (pos * 2 + 1) _ rfl, hparent]
        simp
      · rw [if_neg hright, if_neg hright, hparent]
        simp
    · rw [if_neg hparent, if_neg hparent, Bool.eq_false_iff.mpr hparent]

theorem ofTxids_eq :
    ofTxids hash vTxid vMatch =
      { nTransactions := vTxid.length
        vBits := (encode hash vTxid vMatch (treeHeight vTxid.length) 0).1
        vHash := (encode hash vTxid vMatch (treeHeight vTxid.length) 0).2
        fBad := false } := by
  unfold ofTxids
  rw [traverseAndBuild_eq hash vTxid vMatch _ _ _ rfl]
  rfl

/-! ## What the decoder finds -/

/-- The leaves below a node, with their marks. -/
def below (height pos : Nat) : List (Uint256 × Bool) :=
  ((vTxid.zip vMatch).drop (pos * 2 ^ height)).take (2 ^ height)

def matched (leaves : List (Uint256 × Bool)) : List Uint256 :=
  (leaves.filter Prod.snd).map Prod.fst

theorem matched_append (l l' : List (Uint256 × Bool)) : matched (l ++ l') = matched l ++ matched l' := by
  unfold matched
  rw [List.filter_append, List.map_append]

/-- What lies below a node lies below its two children. -/
theorem take_drop_succ {α : Type} (l : List α) (height pos : Nat) :
    (l.drop (pos * 2 ^ (height + 1))).take (2 ^ (height + 1)) = (l.drop (pos * 2 * 2 ^ height)).take (2 ^ height) ++
        (l.drop ((pos * 2 + 1) * 2 ^ height)).take (2 ^ height) := by
  have hstart : pos * 2 ^ (height + 1) = pos * 2 * 2 ^ height := by ring
  have hnext : (pos * 2 + 1) * 2 ^ height = pos * 2 * 2 ^ height + 2 ^ height := by ring
  have hsize : 2 ^ (height + 1) = 2 ^ height + 2 ^ height := by ring
  rw [hstart, hnext, hsize, List.take_add, List.drop_drop]

theorem below_succ (height pos : Nat) :
    below vTxid vMatch (height + 1) pos =
      below vTxid vMatch height (pos * 2) ++ below vTxid vMatch height (pos * 2 + 1) :=
  take_drop_succ _ height pos

section SameLength

variable {vTxid vMatch} (hlen : vMatch.length = vTxid.length)

include hlen

theorem below_eq_nil (hpos : ¬ pos < calcTreeWidth vTxid.length height) : below vTxid vMatch height pos = [] := by
  rw [lt_calcTreeWidth_iff] at hpos
  unfold below
  rw [List.drop_eq_nil_of_le (by rw [List.length_zip]; omega), List.take_nil]

omit hlen in
theorem matched_below_of_not_parent {height pos : Nat}
    (hparent : parentOfMatch vTxid.length vMatch height pos = false) :
    matched (below vTxid vMatch height pos) = [] := by
  unfold matched
  rw [List.map_eq_nil_iff, List.filter_eq_nil_iff]
  intro leaf hleaf hmark
  obtain ⟨i, hi⟩ := List.mem_iff_getElem?.mp hleaf
  unfold below at hi
  rw [List.getElem?_take] at hi
  split_ifs at hi with hlt
  rw [List.getElem?_drop, List.getElem?_zip_eq_some] at hi
  have hbound : pos * 2 ^ height + i < vTxid.length := (List.getElem?_eq_some_iff.mp hi.1).1
  unfold parentOfMatch at hparent
  rw [List.any_eq_false] at hparent
  apply hparent (pos * 2 ^ height + i)
  · rw [List.mem_range'_1, Nat.shiftLeft_eq, Nat.one_shiftLeft]
    omega
  · rw [List.getD_eq_getElem?_getD, hi.2]
    simp [hbound, hmark]

theorem below_zero {pos : Nat} (hpos : pos < vTxid.length) :
    below vTxid vMatch 0 pos = [(vTxid.getD pos 0, parentOfMatch vTxid.length vMatch 0 pos)] := by
  have hmark : pos < vMatch.length := by omega
  have hzip : pos < (vTxid.zip vMatch).length := by
    rw [List.length_zip]
    omega
  unfold below parentOfMatch
  rw [Nat.pow_zero, Nat.mul_one, List.drop_eq_getElem_cons hzip]
  simp [List.getElem_zip, hpos, hmark, List.getD_eq_getElem?_getD]

omit hlen in
theorem getElem?_of_drop {α : Type} {l rest : List α} {k : Nat} {a : α} (h : l.drop k = a :: rest) :
    l[k]? = some a := by
  rw [← Nat.add_zero k, ← List.getElem?_drop, h]
  rfl

omit hlen in
theorem drop_add_of_drop {α : Type} {l u rest : List α} {k : Nat} (h : l.drop k = u ++ rest) :
    l.drop (k + u.length) = rest := by
  rw [← List.drop_drop, h, List.drop_left]

/-- From cursors that stand at what the encoder left of a node. -/
theorem traverseAndExtract_eq {tree : CPartialMerkleTree} (htree : tree.nTransactions = vTxid.length)
    (height pos : Nat) (hpos : pos < calcTreeWidth vTxid.length height) (t : Traversal)
    (bits : List Bool) (hashes : List Uint256)
    (hbits : tree.vBits.drop t.nBitsUsed = (encode hash vTxid vMatch height pos).1 ++ bits)
    (hhashes : tree.vHash.drop t.nHashUsed = (encode hash vTxid vMatch height pos).2 ++ hashes) :
    traverseAndExtract hash tree height pos t = (calcHash hash vTxid.length vTxid height pos, { t with
          nBitsUsed := t.nBitsUsed + (encode hash vTxid vMatch height pos).1.length
          nHashUsed := t.nHashUsed + (encode hash vTxid vMatch height pos).2.length
          vMatch := t.vMatch ++ matched (below vTxid vMatch height pos) }) := by
  induction height generalizing pos t bits hashes with
  | zero =>
    have hbit := getElem?_of_drop hbits
    have hhash := getElem?_of_drop hhashes
    have hlt : pos < vTxid.length := by
      rw [lt_calcTreeWidth_iff] at hpos
      omega
    simp only [traverseAndExtract, useHash, hbit, hhash, encode, below_zero hlen hlt]
    cases parentOfMatch vTxid.length vMatch 0 pos with
    | false => simp [matched]
    | true => simp [matched, calcHash]
  | succ height ih =>
    have hleft : pos * 2 < calcTreeWidth vTxid.length height := by
      rw [calcTreeWidth_succ] at hpos
      omega
    by_cases hparent : parentOfMatch vTxid.length vMatch (height + 1) pos = true
    · by_cases hright : pos * 2 + 1 < calcTreeWidth vTxid.length height
      · simp only [encode, if_pos hparent, if_pos hright, List.cons_append, List.append_assoc] at hbits hhashes ⊢
        have hbit := getElem?_of_drop hbits
        have hbits' : tree.vBits.drop (t.nBitsUsed + 1) = _ := drop_add_of_drop (u := [true]) hbits
        simp only [traverseAndExtract, hbit, htree, if_pos hright, calcHash]
        rw [ih (pos * 2) hleft { t with nBitsUsed := t.nBitsUsed + 1 } _ _ hbits' hhashes]
        rw [ih (pos * 2 + 1) hright _ bits hashes (drop_add_of_drop hbits') (drop_add_of_drop hhashes)]
        rw [below_succ, matched_append]
        simp only [List.length_cons, List.length_append, List.append_assoc]
        congr 2
        all_goals omega
      · simp only [encode, if_pos hparent, if_neg hright, List.cons_append] at hbits hhashes ⊢
        have hbit := getElem?_of_drop hbits
        have hbits' : tree.vBits.drop (t.nBitsUsed + 1) = _ := drop_add_of_drop (u := [true]) hbits
        simp only [traverseAndExtract, hbit, htree, if_neg hright, calcHash]
        rw [ih (pos * 2) hleft { t with nBitsUsed := t.nBitsUsed + 1 } _ _ hbits' hhashes]
        rw [below_succ, below_eq_nil hlen hright, List.append_nil]
        simp only [List.length_cons]
        congr 2
        omega
    · simp only [encode, if_neg hparent] at hbits hhashes ⊢
      have hbit := getElem?_of_drop hbits
      have hhash := getElem?_of_drop hhashes
      rw [matched_below_of_not_parent (Bool.eq_false_iff.mpr hparent)]
      simp [traverseAndExtract, useHash, hbit, hhash]

/-! ## How much the encoder leaves -/

theorem length_below : (below vTxid vMatch height pos).length = min (2 ^ height) (vTxid.length - pos * 2 ^ height) := by
  unfold below
  rw [List.length_take, List.length_drop, List.length_zip, hlen, Nat.min_self]

theorem length_encode (hpos : pos < calcTreeWidth vTxid.length height) :
    (encode hash vTxid vMatch height pos).2.length ≤ (below vTxid vMatch height pos).length ∧
      (encode hash vTxid vMatch height pos).2.length ≤ (encode hash vTxid vMatch height pos).1.length ∧
      (encode hash vTxid vMatch height pos).1.length < 2 ^ (height + 1) := by
  have hstart := lt_calcTreeWidth_iff.mp hpos
  have hsize := Nat.two_pow_pos height
  induction height generalizing pos with
  | zero =>
    rw [length_below hlen]
    simp only [encode, List.length_cons, List.length_nil]
    omega
  | succ height ih =>
    have hleft : pos * 2 < calcTreeWidth vTxid.length height := by
      rw [calcTreeWidth_succ] at hpos
      omega
    have hsize' := Nat.two_pow_pos height
    obtain ⟨hl, hl', hl''⟩ := ih hleft (lt_calcTreeWidth_iff.mp hleft) hsize'
    simp only [encode]
    split_ifs with hparent hright
    · obtain ⟨hr, hr', hr''⟩ := ih hright (lt_calcTreeWidth_iff.mp hright) hsize'
      rw [below_succ]
      simp only [List.length_append, List.length_cons]
      omega
    · rw [below_succ, below_eq_nil hlen hright, List.append_nil]
      simp only [List.length_cons]
      omega
    · rw [length_below hlen]
      simp only [List.length_cons, List.length_nil]
      omega

end SameLength

theorem calcHash_lt {bound : Nat} (hbound : 0 < bound) (htxid : ∀ x ∈ vTxid, x < bound)
    (hhash : ∀ a b, hash a b < bound) (n height pos : Nat) : calcHash hash n vTxid height pos < bound := by
  cases height with
  | zero =>
    show vTxid.getD pos 0 < bound
    rw [List.getD_eq_getElem?_getD]
    cases h : vTxid[pos]? with
    | none => exact hbound
    | some x => exact htxid x (List.mem_of_getElem? h)
  | succ height => exact hhash _ _

theorem encode_lt {bound : Nat} (hbound : 0 < bound) (htxid : ∀ x ∈ vTxid, x < bound)
    (hhash : ∀ a b, hash a b < bound) (height pos : Nat) :
    ∀ x ∈ (encode hash vTxid vMatch height pos).2, x < bound := by
  have hnode := calcHash_lt hash vTxid hbound htxid hhash vTxid.length
  induction height generalizing pos with
  | zero =>
    intro x hx
    rw [List.mem_singleton.mp hx]
    exact hnode 0 pos
  | succ height ih =>
    intro x hx
    simp only [encode] at hx
    split_ifs at hx with hparent hright
    · rcases List.mem_append.mp hx with hx | hx
      · exact ih _ x hx
      · exact ih _ x hx
    · exact ih _ x hx
    · rw [List.mem_singleton.mp hx]
      exact hnode (height + 1) pos

/-! ## Bits in bytes -/

theorem orBit_bit {vBytes : List UInt8} {p : Nat} (hp : p / 8 < vBytes.length) (bit : Bool) {i j : Nat}
    (hj : j < 8) :
    ((orBit vBytes p bit).getD i 0).toNat.testBit j =
      ((vBytes.getD i 0).toNat.testBit j || (decide (8 * i + j = p) && bit)) := by
  unfold orBit
  rw [List.getD_eq_getElem?_getD, List.getElem?_modify, List.getD_eq_getElem?_getD]
  by_cases hi : p / 8 = i
  · subst hi
    rw [List.getElem?_eq_getElem hp]
    simp only [if_true, Option.map_eq_map, Option.map_some, Option.getD_some]
    rw [UInt8.toNat_ofNat', Nat.testBit_mod_two_pow, Nat.testBit_or, Nat.testBit_shiftLeft,
      Nat.testBit_bool_toNat, decide_eq_true hj, Bool.true_and, ← Bool.and_assoc]
    congr 2
    rw [Bool.and_comm, ← Bool.decide_and]
    apply decide_eq_decide.mpr
    omega
  · have hne : ¬ 8 * i + j = p := by omega
    simp [hi, hne]

@[simp]
theorem length_orBit (vBytes : List UInt8) (p : Nat) (bit : Bool) :
    (orBit vBytes p bit).length = vBytes.length :=
  List.length_modify _ vBytes _

theorem getD_replicate_zero (k i : Nat) : (List.replicate k (0 : UInt8)).getD i 0 = 0 := by
  rw [List.getD_eq_getElem?_getD, List.getElem?_replicate]
  split_ifs <;> rfl

theorem orBits_spec (vBits : List Bool) (vBytes : List UInt8) (m : Nat)
    (hm : m ≤ 8 * vBytes.length) (hzero : ∀ i, vBytes.getD i 0 = 0) :
    ((List.range m).foldl (fun bytes p => orBit bytes p (vBits.getD p false)) vBytes).length = vBytes.length ∧
      ∀ i j, j < 8 → (((List.range m).foldl (fun bytes p => orBit bytes p (vBits.getD p false)) vBytes).getD i
          0).toNat.testBit j = (decide (8 * i + j < m) && vBits.getD (8 * i + j) false) := by
  induction m with
  | zero =>
    refine ⟨rfl, fun i j hj => ?_⟩
    rw [List.range_zero, List.foldl_nil, hzero i]
    simp
  | succ m ih =>
    obtain ⟨hlen, hbit⟩ := ih (by omega)
    rw [List.range_succ, List.foldl_append, List.foldl_cons, List.foldl_nil]
    refine ⟨by rw [length_orBit, hlen], fun i j hj => ?_⟩
    rw [orBit_bit (by rw [hlen]; omega) _ hj, hbit i j hj]
    by_cases heq : 8 * i + j = m
    · simp [heq]
    · have hiff : 8 * i + j < m + 1 ↔ 8 * i + j < m := by omega
      simp [heq, hiff]

theorem length_packBits (vBits : List Bool) : (packBits vBits).length = (vBits.length + 7) / 8 := by
  have h := (orBits_spec vBits (List.replicate ((vBits.length + 7) / 8) 0) vBits.length
    (by rw [List.length_replicate]; omega) (getD_replicate_zero _)).1
  rw [List.length_replicate] at h
  exact h

/-- Bits that have been packed come back with zeros up to the end of the last byte. -/
theorem unpackBits_packBits (vBits : List Bool) :
    unpackBits (packBits vBits) = vBits ++ List.replicate ((vBits.length + 7) / 8 * 8 - vBits.length) false := by
  obtain ⟨-, hbit⟩ := orBits_spec vBits (List.replicate ((vBits.length + 7) / 8) 0) vBits.length
    (by rw [List.length_replicate]; omega) (getD_replicate_zero _)
  unfold unpackBits
  rw [length_packBits]
  apply List.ext_getElem
  · simp
    omega
  · intro p hp hp'
    have h := hbit (p / 8) (p % 8) (by omega)
    rw [show 8 * (p / 8) + p % 8 = p by omega] at h
    have hzero : decide (((packBits vBits).getD (p / 8) 0).toNat &&& (1 <<< (p % 8)) ≠ 0) =
        ((packBits vBits).getD (p / 8) 0).toNat.testBit (p % 8) := by
      rw [Nat.one_shiftLeft, Nat.and_two_pow]
      cases ((packBits vBits).getD (p / 8) 0).toNat.testBit (p % 8) <;> simp
    rw [List.getElem_map, List.getElem_range, hzero]
    refine h.trans ?_
    rw [List.getElem_append]
    split_ifs with hlt
    · rw [decide_eq_true hlt, Bool.true_and, List.getD_eq_getElem _ _ hlt]
    · rw [decide_eq_false hlt, List.getElem_replicate, Bool.false_and]

/-! ## The round trip -/

theorem reads_unserialize {tree : CPartialMerkleTree} (hn : tree.nTransactions < 256 ^ 4)
    (hsize : tree.vHash.length ≤ MAX_SIZE) (hhash : ∀ x ∈ tree.vHash, x < 256 ^ 32)
    (hbits : tree.vBits.length ≤ MAX_SIZE) :
    Reads unserialize tree.serialize
      { tree with
        vBits := tree.vBits ++ List.replicate ((tree.vBits.length + 7) / 8 * 8 - tree.vBits.length) false
        fBad := false } := by
  have hbytes : (packBits tree.vBits).length ≤ MAX_SIZE := by
    have hmax : MAX_SIZE = 0x02000000 := rfl
    rw [length_packBits]
    omega
  refine reads_bind (reads_readData hn) ?_
  refine reads_bind (reads_readVector (by decide) hsize fun x hx => reads_readData (hhash x hx)) ?_
  refine reads_last (reads_readBytes hbytes) ?_
  rw [unpackBits_packBits]
  exact reads_pure _

/-- The checks around the walk pass on what the encoder leaves, padded or not. -/
theorem extractMatches_eq {vTxid vMatch} (hne : vTxid ≠ []) (hmax : vTxid.length ≤ MAX_BLOCK_SIZE / 60)
    (hlen : vMatch.length = vTxid.length) (padding : List Bool)
    (hpadding : ((encode hash vTxid vMatch (treeHeight vTxid.length) 0).1.length + 7) / 8 =
      ((encode hash vTxid vMatch (treeHeight vTxid.length) 0).1.length + padding.length + 7) / 8) :
    extractMatches hash
        { nTransactions := vTxid.length
          vBits := (encode hash vTxid vMatch (treeHeight vTxid.length) 0).1 ++ padding
          vHash := (encode hash vTxid vMatch (treeHeight vTxid.length) 0).2
          fBad := false } =
      (merkleRoot hash vTxid, matched (vTxid.zip vMatch)) := by
  have hpos : 0 < vTxid.length := List.length_pos_of_ne_nil hne
  obtain ⟨hbelow, htop⟩ := treeHeight_spec hpos
  have hroot : 0 < calcTreeWidth vTxid.length (treeHeight vTxid.length) := by omega
  obtain ⟨hhashes, hbits, -⟩ := length_encode hash hlen hroot
  have hall : below vTxid vMatch (treeHeight vTxid.length) 0 = vTxid.zip vMatch := by
    have hone : ¬ 1 < calcTreeWidth vTxid.length (treeHeight vTxid.length) := by omega
    rw [lt_calcTreeWidth_iff] at hone
    unfold below
    rw [Nat.zero_mul, List.drop_zero, List.take_of_length_le (by rw [List.length_zip]; omega)]
  have hfit : (vTxid.zip vMatch).length = vTxid.length := by
    rw [List.length_zip, hlen, Nat.min_self]
  rw [hall, hfit] at hhashes
  unfold extractMatches
  simp only
  rw [if_neg (by omega), if_neg (by omega), if_neg (by omega), if_neg (by rw [List.length_append]; omega),
    traverseAndExtract_eq hash hlen rfl _ 0 hroot _ padding [] rfl (List.append_nil _).symm,
    hall, calcHash_top hash vTxid hne]
  simp only [Nat.zero_add, List.nil_append, List.length_append]
  rw [if_neg (by decide), if_neg (by simpa using hpadding), if_neg (by simp)]

theorem length_bits_le {vTxid vMatch} (hne : vTxid ≠ []) (hlen : vMatch.length = vTxid.length) :
    (encode hash vTxid vMatch (treeHeight vTxid.length) 0).1.length ≤ 4 * vTxid.length := by
  have hpos : 0 < vTxid.length := List.length_pos_of_ne_nil hne
  obtain ⟨hbelow, htop⟩ := treeHeight_spec hpos
  obtain ⟨-, -, hbits⟩ := length_encode hash hlen (show 0 < calcTreeWidth _ (treeHeight vTxid.length) by omega)
  cases hheight : treeHeight vTxid.length with
  | zero =>
    rw [hheight] at hbits
    omega
  | succ height =>
    have hwide := lt_calcTreeWidth_iff.mp (hbelow height (by omega))
    rw [hheight] at hbits
    omega

/-- The tree that was built, sent and received. -/
theorem unserialize_ofTxids {vTxid vMatch} (hne : vTxid ≠ []) (hmax : vTxid.length ≤ MAX_BLOCK_SIZE / 60)
    (hlen : vMatch.length = vTxid.length) (htxid : ∀ x ∈ vTxid, x < 256 ^ 32)
    (hhash : ∀ a b, hash a b < 256 ^ 32) (rest : List UInt8) :
    ∃ tree, unserialize.run ((ofTxids hash vTxid vMatch).serialize ++ rest) = some (tree, rest) ∧
      tree.extractMatches hash = (merkleRoot hash vTxid, matched (vTxid.zip vMatch)) := by
  have hpos : 0 < vTxid.length := List.length_pos_of_ne_nil hne
  have hblock : MAX_BLOCK_SIZE = 1000000 := rfl
  have hsize : MAX_SIZE = 0x02000000 := rfl
  obtain ⟨-, htop⟩ := treeHeight_spec hpos
  obtain ⟨-, hhashes, -⟩ := length_encode hash hlen (show 0 < calcTreeWidth _ (treeHeight vTxid.length) by omega)
  have hbits := length_bits_le hash hne hlen
  rw [ofTxids_eq]
  refine ⟨_, reads_unserialize ?_ ?_ ?_ ?_ rest, ?_⟩
  · show vTxid.length < 256 ^ 4
    omega
  · show (encode hash vTxid vMatch (treeHeight vTxid.length) 0).2.length ≤ MAX_SIZE
    omega
  · exact encode_lt hash vTxid vMatch (by norm_num) htxid hhash _ 0
  · show (encode hash vTxid vMatch (treeHeight vTxid.length) 0).1.length ≤ MAX_SIZE
    omega
  · apply extractMatches_eq hash hne hmax hlen
    rw [List.length_replicate]
    dsimp only
    omega

end CPartialMerkleTree

/-- A partial merkle tree that has been sent gives the root that the block itself computes and the
matched txids, in order. -/
theorem extractMatches_ofTxids (C : Crypto) (hhash : ∀ a b, C.merkleHash a b < 256 ^ 32) (block : CBlock)
    (htxid : ∀ tx ∈ block.vtx, C.txHash tx < 256 ^ 32) (hne : block.vtx ≠ [])
    (hmax : block.vtx.length ≤ MAX_BLOCK_SIZE / 60) (vMatch : List Bool)
    (hlen : vMatch.length = block.vtx.length) (rest : List UInt8) :
    ∃ tree, CPartialMerkleTree.unserialize.run
        ((CPartialMerkleTree.ofTxids C.merkleHash (block.vtx.map C.txHash) vMatch).serialize ++ rest) =
          some (tree, rest) ∧
      tree.extractMatches C.merkleHash = ((block.buildMerkleTree C).1,
          (((block.vtx.map C.txHash).zip vMatch).filter Prod.snd).map Prod.fst) := by
  have hnil : block.vtx.map C.txHash ≠ [] := by simpa using hne
  have hlen' : vMatch.length = (block.vtx.map C.txHash).length := by rw [List.length_map, hlen]
  have hmax' : (block.vtx.map C.txHash).length ≤ MAX_BLOCK_SIZE / 60 := by rw [List.length_map]; exact hmax
  have hlt : ∀ x ∈ block.vtx.map C.txHash, x < 256 ^ 32 := by
    intro x hx
    obtain ⟨tx, htx, rfl⟩ := List.mem_map.mp hx
    exact htxid tx htx
  rw [CBlock.buildMerkleTree_eq]
  exact CPartialMerkleTree.unserialize_ofTxids C.merkleHash hnil hmax' hlen' hlt hhash rest

open Example

/-- Hashes that fit 32 bytes. -/
def Example.wordCrypto : Crypto :=
  { pairing with
    txHash := fun tx => tx.nLockTime % 256 ^ 32
    merkleHash := fun a b => (2 * Nat.pair a b + 1) % 256 ^ 32 }

theorem extractMatches_ofTxids_example :
    ∃ tree, CPartialMerkleTree.unserialize.run
        ((CPartialMerkleTree.ofTxids wordCrypto.merkleHash [1, 2, 3, 4, 5]
          [false, true, false, false, true]).serialize ++ [7]) = some (tree, [7]) ∧
      tree.extractMatches wordCrypto.merkleHash =
        (((numberedBlock [1, 2, 3, 4, 5]).buildMerkleTree wordCrypto).1, [2, 5]) :=
  extractMatches_ofTxids wordCrypto (fun _ _ => Nat.mod_lt _ (by norm_num))
    (numberedBlock [1, 2, 3, 4, 5]) (fun _ _ => Nat.mod_lt _ (by norm_num)) (by decide) (by decide)
    [false, true, false, false, true] (by decide) [7]

end Reddcoin
