import Reddcoin.Lib.BigEndian
import Reddcoin.Lib.Blocks
import Reddcoin.Serialize.Primitive

/-!
# Hashing in pieces

`CSHA256` takes its data in pieces: it tops up its buffer, compresses whole chunks where they lie and keeps the rest.  What
`Transform` computes is left open.
-/

namespace Reddcoin

open Blocks

variable {h : CSHA256} {data piece : List UInt8}

/-- The eight words of a hash. -/
abbrev HashWords := Vector UInt32 8

abbrev Transform := HashWords → List UInt8 → HashWords

/-- The state that `sha256::Initialize` sets. -/
def initialized : HashWords :=
  #v[0x6a09e667, 0xbb67ae85, 0x3c6ef372, 0xa54ff53a, 0x510e527f, 0x9b05688c, 0x1f83d9ab, 0x5be0cd19]

open List

structure CSHA256 where
  s : HashWords
  buf : List UInt8
  bytes : Nat

/-- `WriteBE32`. -/
def writeBE32 (x : UInt32) : List UInt8 :=
  [(x >>> 24).toUInt8, (x >>> 16).toUInt8, (x >>> 8).toUInt8, x.toUInt8]

/-- `WriteBE64`. -/
def writeBE64 (x : Nat) : List UInt8 :=
  [UInt8.ofNat (x >>> 56), UInt8.ofNat (x >>> 48), UInt8.ofNat (x >>> 40), UInt8.ofNat (x >>> 32),
    UInt8.ofNat (x >>> 24), UInt8.ofNat (x >>> 16), UInt8.ofNat (x >>> 8), UInt8.ofNat x]

namespace CSHA256

/-- A new hasher; its buffer is not initialised. -/
def fresh (buf : List UInt8) : CSHA256 where
  s := initialized
  buf := buf
  bytes := 0

variable (transform : Transform)

/-- The loop over full chunks: the hasher and the data that are left. -/
def processChunks (h : CSHA256) (data : List UInt8) : CSHA256 × List UInt8 :=
  if 64 ≤ data.length then
    processChunks { h with s := transform h.s (data.take 64), bytes := (h.bytes + 64) % 2 ^ 64 } (data.drop 64)
  else (h, data)
termination_by data.length
decreasing_by
  rw [length_drop]
  omega

/-- The part of `Write` after the buffer has been topped up. -/
def writeRest (h : CSHA256) (bufsize : Nat) (data : List UInt8) : Option CSHA256 :=
  let (h, data) := processChunks transform h data
  if data ≠ [] then
    -- Fill the buffer with what remains.
    match copyInto h.buf bufsize data with
    | none => none
    | some buf => some { h with buf := buf, bytes := (h.bytes + data.length) % 2 ^ 64 }
  else some h

/-- `Write`; `none` when a copy would go outside the buffer. -/
def write (h : CSHA256) (data : List UInt8) : Option CSHA256 :=
  let bufsize := h.bytes % 64
  if bufsize ≠ 0 ∧ 64 ≤ (bufsize + data.length) % 2 ^ 64 then
    -- Fill the buffer, and process it.
    match copyInto h.buf bufsize (data.take (64 - bufsize)) with
    | none => none
    | some buf =>
      writeRest transform
        { s := transform h.s buf, buf := buf, bytes := (h.bytes + (64 - bufsize)) % 2 ^ 64 } 0
        (data.drop (64 - bufsize))
  else writeRest transform h bufsize data

/-- The static array of `Finalize`. -/
def pad : List UInt8 :=
  0x80 :: List.replicate 63 0

/-- `Finalize`; `none` also when the padding would be read beyond its array. -/
def finalize (h : CSHA256) : Option (List UInt8) :=
  let sizedesc := writeBE64 (h.bytes <<< 3 % 2 ^ 64)
  let len := 1 + (119 - h.bytes % 64) % 64
  if pad.length < len then none
  else do
    let h ← write transform h (pad.take len)
    let h ← write transform h sizedesc
    pure (h.s.toList.flatMap writeBE32)

end CSHA256

/-- Pieces written one after another to a new hasher, and its digest. -/
def hashPieces (transform : Transform) (buf : List UInt8) (pieces : List (List UInt8)) : Option (List UInt8) := do
  let h ← pieces.foldlM (CSHA256.write transform) (CSHA256.fresh buf)
  h.finalize transform

/-! ## What has been written -/

namespace CSHA256

/-- The hasher after some data: whole blocks are compressed, and the buffer begins with the rest. -/
structure Holds (transform : Transform) (h : CSHA256) (data : List UInt8) : Prop where
  size : h.buf.length = 64
  bytes : h.bytes = data.length
  held : feed transform 64 ⟨initialized, []⟩ data = ⟨h.s, h.buf.take (data.length % 64)⟩

variable {transform : Transform}

theorem holds_fresh {buf : List UInt8} (hsize : buf.length = 64) : Holds transform (fresh buf) [] :=
  ⟨hsize, rfl, rfl⟩

/-- The loop compresses the blocks of the data, which begin a block. -/
theorem processChunks_holds (hdata : Holds transform h data)
    (hblock : data.length % 64 = 0) (hfits : data.length + piece.length < 2 ^ 64) :
    ∃ front rest, piece = front ++ rest ∧ rest.length < 64 ∧ (processChunks transform h piece).2 = rest ∧
      Holds transform (processChunks transform h piece).1 (data ++ front) ∧ (data ++ front).length % 64 = 0 := by
  induction hlen : piece.length using Nat.strong_induction_on generalizing h data piece with
  | _ n ih =>
    rw [processChunks]
    by_cases hchunk : 64 ≤ piece.length
    · rw [if_pos hchunk]
      have htake : (piece.take 64).length = 64 := length_take_of_le hchunk
      have hdrop : (piece.drop 64).length = piece.length - 64 := length_drop
      have hlength : (data ++ piece.take 64).length = data.length + 64 := by rw [length_append, htake]
      have hnext : Holds transform { h with s := transform h.s (piece.take 64), bytes := (h.bytes + 64) % 2 ^ 64 }
          (data ++ piece.take 64) := by
        refine ⟨hdata.size, ?_, ?_⟩
        · show (h.bytes + 64) % 2 ^ 64 = _
          rw [hdata.bytes, hlength]
          omega
        · have hzero : (data ++ piece.take 64).length % 64 = 0 := by omega
          rw [feed_append, hdata.held, hblock, hzero, take_zero,
            feed_block (ne_nil_of_length_pos (by omega)) (by rw [length_nil, Nat.zero_add, htake])]
          rfl
      obtain ⟨front, rest, hsplit, hrest, hleft, hholds, hend⟩ := ih (piece.drop 64).length (by omega) hnext (by omega)
        (by omega) rfl
      refine ⟨piece.take 64 ++ front, rest, ?_, hrest, hleft, ?_, ?_⟩
      · rw [append_assoc, ← hsplit, take_append_drop]
      · rw [← append_assoc]
        exact hholds
      · rw [← append_assoc]
        exact hend
    · rw [if_neg hchunk]
      refine ⟨[], piece, rfl, Nat.not_le.mp hchunk, rfl, ?_, ?_⟩
      · rw [append_nil]
        exact hdata
      · rw [append_nil]
        exact hblock

/-- The rest of a piece is put behind what the buffer holds. -/
theorem copy_holds {data rest : List UInt8} (hdata : Holds transform h data)
    (hroom : data.length % 64 + rest.length < 64) (hfits : data.length + rest.length < 2 ^ 64) :
    ∃ buf, copyInto h.buf (data.length % 64) rest = some buf ∧
      Holds transform { h with buf := buf, bytes := (h.bytes + rest.length) % 2 ^ 64 } (data ++ rest) := by
  have hsize := hdata.size
  obtain ⟨buf, hcopy, hlen, htake⟩ := copyInto_eq (show data.length % 64 + rest.length ≤ h.buf.length by omega)
  refine ⟨buf, hcopy, hlen.trans hsize, ?_, ?_⟩
  · show (h.bytes + rest.length) % 2 ^ 64 = _
    rw [hdata.bytes, length_append]
    omega
  · have hheld : (h.buf.take (data.length % 64)).length = data.length % 64 := length_take_of_le (by omega)
    have hmod : (data ++ rest).length % 64 = data.length % 64 + rest.length := by
      rw [length_append]
      omega
    rw [feed_append, hdata.held, feed_part (by rw [hheld]; exact hroom), hmod, htake]

theorem writeRest_holds (hdata : Holds transform h data)
    (hroom : data.length % 64 = 0 ∨ data.length % 64 + piece.length < 64)
    (hfits : data.length + piece.length < 2 ^ 64) :
    ∃ h', writeRest transform h (data.length % 64) piece = some h' ∧ Holds transform h' (data ++ piece) := by
  have hloop : ∃ front rest, piece = front ++ rest ∧ (data ++ front).length % 64 = data.length % 64 ∧
      (data ++ front).length % 64 + rest.length < 64 ∧ (processChunks transform h piece).2 = rest ∧
      Holds transform (processChunks transform h piece).1 (data ++ front) := by
    by_cases hblock : data.length % 64 = 0
    · obtain ⟨front, rest, hsplit, hrest, hleft, hholds, hend⟩ := processChunks_holds hdata hblock hfits
      exact ⟨front, rest, hsplit, hend.trans hblock.symm, by omega, hleft, hholds⟩
    · have hnone : processChunks transform h piece = (h, piece) := by
        rw [processChunks, if_neg (by omega)]
      refine ⟨[], piece, rfl, by rw [append_nil], by rw [append_nil]; omega, by rw [hnone], ?_⟩
      rw [hnone, append_nil]
      exact hdata
  obtain ⟨front, rest, hsplit, hsame, hsmall, hleft, hholds⟩ := hloop
  rw [hsplit, length_append] at hfits
  obtain ⟨buf, hcopy, hcopied⟩ := copy_holds hholds hsmall (by rw [length_append]; omega)
  rw [hsame] at hcopy
  have hall : data ++ piece = data ++ front ++ rest := by rw [hsplit, append_assoc]
  unfold writeRest
  dsimp only
  rw [hleft, hall]
  by_cases hempty : rest = []
  · rw [if_neg (fun hne => hne hempty), hempty, append_nil]
    exact ⟨_, rfl, hholds⟩
  · rw [if_pos hempty, hcopy]
    exact ⟨_, rfl, hcopied⟩

/-- Writing a piece copies within the buffer, and the hasher holds the piece behind the data. -/
theorem write_holds (hdata : Holds transform h data) (hfits : data.length + piece.length < 2 ^ 64) :
    ∃ h', write transform h piece = some h' ∧ Holds transform h' (data ++ piece) := by
  have hbytes : h.bytes % 64 = data.length % 64 := by rw [hdata.bytes]
  unfold write
  dsimp only
  rw [hbytes]
  by_cases hfull : data.length % 64 ≠ 0 ∧ 64 ≤ (data.length % 64 + piece.length) % 2 ^ 64
  · rw [if_pos hfull]
    have hlarge : 64 ≤ data.length % 64 + piece.length := hfull.2.trans (Nat.mod_le _ _)
    have htop : (piece.take (64 - data.length % 64)).length = 64 - data.length % 64 :=
      length_take_of_le (by omega)
    have hsize := hdata.size
    have hheld : (h.buf.take (data.length % 64)).length = data.length % 64 := length_take_of_le (by omega)
    obtain ⟨buf, hcopy, hlen, htake⟩ :=
      copyInto_eq (show data.length % 64 + (piece.take (64 - data.length % 64)).length ≤ h.buf.length by omega)
    have hwhole : buf = h.buf.take (data.length % 64) ++ piece.take (64 - data.length % 64) := by
      rw [← htake, take_of_length_le (by omega)]
    have hlength : (data ++ piece.take (64 - data.length % 64)).length = data.length + (64 - data.length % 64) := by
      rw [length_append, htop]
    have hzero : (data ++ piece.take (64 - data.length % 64)).length % 64 = 0 := by omega
    have hnext : Holds transform
        { s := transform h.s buf, buf := buf, bytes := (h.bytes + (64 - data.length % 64)) % 2 ^ 64 }
        (data ++ piece.take (64 - data.length % 64)) := by
      refine ⟨hlen.trans hsize, ?_, ?_⟩
      · show (h.bytes + (64 - data.length % 64)) % 2 ^ 64 = _
        rw [hdata.bytes, hlength]
        omega
      · rw [feed_append, hdata.held, feed_block (ne_nil_of_length_pos (by omega)) (by omega), hzero, ← hwhole]
        rfl
    have hdrop : (piece.drop (64 - data.length % 64)).length = piece.length - (64 - data.length % 64) :=
      length_drop
    obtain ⟨h', hrest, hholds⟩ := writeRest_holds hnext (.inl hzero)
      (show _ + (piece.drop (64 - data.length % 64)).length < 2 ^ 64 by omega)
    rw [hzero] at hrest
    rw [append_assoc, take_append_drop] at hholds
    rw [hcopy]
    exact ⟨h', hrest, hholds⟩
  · rw [if_neg hfull]
    exact writeRest_holds hdata (by omega) hfits

end CSHA256

theorem holds_pieces {transform : Transform} {data : List UInt8} {pieces : List (List UInt8)}
    (hdata : h.Holds transform data) (hfits : data.length + pieces.flatten.length < 2 ^ 64) :
    ∃ h', pieces.foldlM (CSHA256.write transform) h = some h' ∧ h'.Holds transform (data ++ pieces.flatten) := by
  induction pieces generalizing h data with
  | nil => exact ⟨h, rfl, by rw [flatten_nil, append_nil]; exact hdata⟩
  | cons piece pieces ih =>
    rw [flatten_cons, length_append] at hfits
    obtain ⟨next, hwrite, hnext⟩ := CSHA256.write_holds hdata (show data.length + piece.length < 2 ^ 64 by omega)
    obtain ⟨h', hrest, hholds⟩ := ih hnext (by rw [length_append]; omega)
    refine ⟨h', ?_, ?_⟩
    · rw [foldlM_cons, hwrite]
      exact hrest
    · rw [flatten_cons, ← append_assoc]
      exact hholds

/-! ## The digest -/

theorem value_writeBE64 {x : Nat} (h : x < 2 ^ 64) : BigEndian.value (writeBE64 x) = x := by
  unfold writeBE64
  simp only [BigEndian.value, UInt8.toNat_ofNat', Nat.shiftRight_eq_div_pow, length_cons, length_nil]
  omega

/-- A byte of 0x80 and zeros. -/
def padding (zeros : Nat) : List UInt8 :=
  0x80 :: List.replicate zeros 0

/-- Data with the padding of `Finalize`. -/
def padded (data : List UInt8) : List UInt8 :=
  data ++ padding ((119 - data.length % 64) % 64) ++ writeBE64 (data.length <<< 3 % 2 ^ 64)

theorem length_padded (data : List UInt8) : (padded data).length = (padded data).length / 64 * 64 := by
  have hsum : (padded data).length = data.length + ((119 - data.length % 64) % 64 + 1) + 8 := by
    unfold padded
    rw [length_append, length_append, padding, length_cons, length_replicate]
    rfl
  omega

/-- The digest that `Finalize` comes to. -/
theorem CSHA256.finalize_eq {transform : Transform} {data : List UInt8} (hholds : h.Holds transform data)
    (hfits : data.length < 2 ^ 61) : h.finalize transform = some (((blocksOf 64 ((padded data).length / 64)
      (padded data)).foldl transform initialized).toList.flatMap writeBE32) := by
  generalize hzeros : (119 - data.length % 64) % 64 = zeros
  have hpad : pad.take (1 + zeros) = padding zeros := by
    unfold pad padding
    rw [Nat.add_comm 1, take_succ_cons, take_replicate, Nat.min_eq_left (by omega)]
  have hlength : (padding zeros).length = zeros + 1 := by
    rw [padding, length_cons, length_replicate]
  obtain ⟨h₁, hwrite₁, hholds₁⟩ := write_holds hholds
    (show data.length + (padding zeros).length < 2 ^ 64 by omega)
  have hroom : (data ++ padding zeros).length + (writeBE64 (data.length <<< 3 % 2 ^ 64)).length < 2 ^ 64 := by
    rw [length_append, hlength]
    show data.length + (zeros + 1) + 8 < 2 ^ 64
    omega
  obtain ⟨h₂, hwrite₂, hholds₂⟩ := write_holds hholds₁ hroom
  have hall : data ++ padding zeros ++ writeBE64 (data.length <<< 3 % 2 ^ 64) = padded data := by
    unfold padded
    rw [hzeros]
  have hstate := hholds₂.held
  rw [hall, feed_whole (by decide) _ (length_padded data)] at hstate
  have hwords : _ = h₂.s := congrArg Held.state hstate
  have hread : ¬ pad.length < 1 + zeros := by
    show ¬ 64 < 1 + zeros
    omega
  unfold finalize
  simp only [hholds.bytes, hzeros, if_neg hread, hpad, hwrite₁, hwrite₂, bind, Option.bind_some]
  rw [← hwords]
  rfl

/-- Pieces of less than 2^61 bytes have the digest of their concatenation: its blocks are compressed after a byte of 0x80, the
fewest zeros and the number of bits, and nothing is copied outside the buffer. -/
theorem hashPieces_eq (transform : Transform) {buf : List UInt8} (hbuf : buf.length = 64) {pieces : List (List UInt8)}
    (hfits : pieces.flatten.length < 2 ^ 61) : ∃ zeros sizedesc, ∃ blocks : List UInt8,
      IsLeast {n | (pieces.flatten.length + 1 + n + 8) % 64 = 0} zeros ∧
      sizedesc.length = 8 ∧ BigEndian.value sizedesc = 8 * pieces.flatten.length ∧
      blocks = pieces.flatten ++ padding zeros ++ sizedesc ∧
      hashPieces transform buf pieces =
        some (((blocksOf 64 (blocks.length / 64) blocks).foldl transform initialized).toList.flatMap writeBE32) := by
  refine ⟨(119 - pieces.flatten.length % 64) % 64, writeBE64 (pieces.flatten.length <<< 3 % 2 ^ 64),
    padded pieces.flatten, ?_, rfl, ?_, rfl, ?_⟩
  · refine ⟨?_, fun n hn => ?_⟩
    · show (pieces.flatten.length + 1 + (119 - pieces.flatten.length % 64) % 64 + 8) % 64 = 0
      omega
    · have hn : (pieces.flatten.length + 1 + n + 8) % 64 = 0 := hn
      omega
  · rw [value_writeBE64 (Nat.mod_lt _ (by omega)), Nat.shiftLeft_eq]
    omega
  · have hstart : (CSHA256.fresh buf).Holds transform [] := CSHA256.holds_fresh hbuf
    have hroom : ([] : List UInt8).length + pieces.flatten.length < 2 ^ 64 := by
      rw [length_nil]
      omega
    obtain ⟨h, hwritten, hholds⟩ := holds_pieces hstart hroom
    rw [nil_append] at hholds
    unfold hashPieces
    rw [hwritten]
    exact CSHA256.finalize_eq hholds hfits

theorem hashPieces_eq_example : ∃ zeros sizedesc, ∃ blocks : List UInt8,
      IsLeast {n | (5 + 1 + n + 8) % 64 = 0} zeros ∧ sizedesc.length = 8 ∧ BigEndian.value sizedesc = 8 * 5 ∧
      blocks = [1, 2, 3, 4, 5] ++ padding zeros ++ sizedesc ∧
      hashPieces (fun s _ => s) (List.replicate 64 0) [[1, 2], [], [3, 4, 5]] =
        some (((blocksOf 64 (blocks.length / 64) blocks).foldl (fun s _ => s) initialized).toList.flatMap writeBE32) :=
  hashPieces_eq (fun s _ => s) length_replicate
    (show ([[1, 2], [], [3, 4, 5]] : List (List UInt8)).flatten.length < 2 ^ 61 by decide)

end Reddcoin
