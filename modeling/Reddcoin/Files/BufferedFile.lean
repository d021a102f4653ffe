import Reddcoin.Lib.Ring

/-!
# Buffered files

`CBufferedFile` reads a file through a ring buffer.  It reads ahead, and keeps some bytes behind the reader so that the
position can be set back.
-/

namespace Reddcoin

/-- The bytes of a file, from where it was opened. -/
structure FileBytes where
  bytes : List UInt8
  /-- Positions are signed 64-bit numbers. -/
  small : bytes.length < 2 ^ 63

/-- The sum of two `uint64_t`. -/
def addUInt64 (a b : Nat) : Nat :=
  (a + b) % 2 ^ 64

/-- The difference of two `uint64_t`. -/
def subUInt64 (a b : Nat) : Nat :=
  (a + (2 ^ 64 - b)) % 2 ^ 64

structure CBufferedFile where
  src : FileBytes
  /-- The end-of-file mark of `src`. -/
  feof : Bool
  /-- How many bytes have been read from source. -/
  nSrcPos : Nat
  /-- How many bytes have been read from this. -/
  nReadPos : Nat
  /-- Up to which position we're allowed to read. -/
  nReadLimit : Nat
  /-- How many bytes we guarantee to rewind. -/
  nRewind : Nat
  vchBuf : List UInt8

/-- What a call leaves. -/
inductive BufferedResult (α : Type) where
  /-- A copy goes outside its buffer, or a loop does not end. -/
  | stuck
  | thrown (f : CBufferedFile)
  | returned (a : α) (f : CBufferedFile)

namespace CBufferedFile

def new (fileIn : FileBytes) (nBufSize nRewindIn : Nat) : CBufferedFile where
  src := fileIn
  feof := false
  nSrcPos := 0
  nReadPos := 0
  nReadLimit := 2 ^ 64 - 1
  nRewind := nRewindIn
  vchBuf := List.replicate nBufSize 0

/-- `Fill`, with its `unsigned int` variables. -/
def fill (f : CBufferedFile) : BufferedResult Bool :=
  let pos := f.nSrcPos % f.vchBuf.length % 2 ^ 32
  let readNow := subUInt64 f.vchBuf.length pos % 2 ^ 32
  let nAvail := subUInt64 (subUInt64 f.vchBuf.length (subUInt64 f.nSrcPos f.nReadPos)) f.nRewind % 2 ^ 32
  let readNow := if nAvail < readNow then nAvail else readNow
  if readNow = 0 then .returned false f
  else
    -- `fread` sets the end-of-file mark when there is less than it was asked for.
    let read := (f.src.bytes.drop f.nSrcPos).take readNow
    let f := { f with feof := f.feof || decide (read.length < readNow) }
    if read.length = 0 then .thrown f
    else .returned true { f with vchBuf := Ring.overwrite f.vchBuf pos read, nSrcPos := addUInt64 f.nSrcPos read.length }

def eof (f : CBufferedFile) : Bool :=
  decide (f.nReadPos = f.nSrcPos) && f.feof

/-- `if (nReadPos == nSrcPos) Fill();` -/
def fillIfNone (f : CBufferedFile) : BufferedResult Bool :=
  if f.nReadPos = f.nSrcPos then f.fill else .returned false f

/-- The loop of `read`. -/
def readLoop : Nat → CBufferedFile → Nat → BufferedResult (List UInt8)
  | 0, _, _ => .stuck
  | turns + 1, f, nSize =>
    if nSize = 0 then .returned [] f
    else
      match f.fillIfNone with
      | .stuck => .stuck
      | .thrown f => .thrown f
      | .returned _ f =>
        let pos := f.nReadPos % f.vchBuf.length % 2 ^ 32
        let nNow := if f.vchBuf.length < addUInt64 nSize pos then subUInt64 f.vchBuf.length pos else nSize
        let nNow := if f.nSrcPos < addUInt64 nNow f.nReadPos then subUInt64 f.nSrcPos f.nReadPos else nNow
        -- `memcpy` to the rest of the object.
        if nSize < nNow ∨ f.vchBuf.length < pos + nNow then .stuck
        else
          match readLoop turns { f with nReadPos := addUInt64 f.nReadPos nNow } (nSize - nNow) with
          | .stuck => .stuck
          | .thrown f' => .thrown f'
          | .returned pch f' => .returned ((f.vchBuf.drop pos).take nNow ++ pch) f'

def read (f : CBufferedFile) (nSize : Nat) : BufferedResult (List UInt8) :=
  if f.nReadLimit < addUInt64 nSize f.nReadPos then .thrown f
  else if f.vchBuf.length < addUInt64 nSize f.nRewind then .thrown f
  else readLoop (nSize + 1) f nSize

def getPos (f : CBufferedFile) : Nat :=
  f.nReadPos

def setPos (f : CBufferedFile) (nPos : Nat) : Bool × CBufferedFile :=
  if addUInt64 nPos f.nRewind < f.nSrcPos then (false, { f with nReadPos := subUInt64 f.nSrcPos f.nRewind })
  else if f.nSrcPos < nPos then (false, { f with nReadPos := f.nSrcPos })
  else (true, { f with nReadPos := nPos })

def setLimit (f : CBufferedFile) (nPos : Nat) : Bool × CBufferedFile :=
  if nPos < f.nReadPos then (false, f) else (true, { f with nReadLimit := nPos })

/-- The loop of `FindByte`. -/
def findByteLoop : Nat → CBufferedFile → UInt8 → BufferedResult Unit
  | 0, _, _ => .stuck
  | turns + 1, f, ch =>
    match f.fillIfNone with
    | .stuck => .stuck
    | .thrown f => .thrown f
    | .returned _ f =>
      match f.vchBuf[f.nReadPos % f.vchBuf.length]? with
      | none => .stuck
      | some b =>
        if b = ch then .returned () f
        else findByteLoop turns { f with nReadPos := addUInt64 f.nReadPos 1 } ch

/-- More turns than the file has bytes. -/
def findByte (f : CBufferedFile) (ch : UInt8) : BufferedResult Unit :=
  findByteLoop (f.src.bytes.length + 1) f ch

end CBufferedFile

/-! ## Sequences of calls -/

/-- A position or a limit. -/
abbrev FilePos := { n : Nat // n < 2 ^ 64 }

inductive BufferedCall where
  /-- An object has fewer than 2^63 bytes. -/
  | read (nSize : Nat) (h : nSize < 2 ^ 63)
  | findByte (ch : UInt8)
  | getPos
  | setLimit (nPos : FilePos)
  | setPos (nPos : FilePos)

inductive BufferedAnswer where
  | bytes (pch : List UInt8)
  | found
  | pos (nPos : Nat)
  | done (ok : Bool)
deriving DecidableEq

def BufferedResult.map {α β : Type} (g : α → β) : BufferedResult α → BufferedResult β
  | .stuck => .stuck
  | .thrown f => .thrown f
  | .returned a f => .returned (g a) f

/-- The file after a call. -/
def BufferedResult.file? {α : Type} : BufferedResult α → Option CBufferedFile
  | .stuck => none
  | .thrown f => some f
  | .returned _ f => some f

def CBufferedFile.call (f : CBufferedFile) : BufferedCall → BufferedResult BufferedAnswer
  | .read nSize _ => (f.read nSize).map .bytes
  | .findByte ch => (f.findByte ch).map fun _ => .found
  | .getPos => .returned (.pos f.getPos) f
  | .setLimit nPos => .returned (.done (f.setLimit nPos).1) (f.setLimit nPos).2
  | .setPos nPos => .returned (.done (f.setPos nPos).1) (f.setPos nPos).2

/-- The file and the furthest position that the reader has had. -/
structure BufferedState where
  file : CBufferedFile
  furthest : Nat

def BufferedState.start (fileIn : FileBytes) (nBufSize nRewindIn : Nat) : BufferedState :=
  { file := .new fileIn nBufSize nRewindIn, furthest := 0 }

def BufferedState.next (s : BufferedState) (c : BufferedCall) : Option BufferedState :=
  (s.file.call c).file?.map fun f => { file := f, furthest := max s.furthest f.nReadPos }

end Reddcoin

/-!
## Reading a buffered file

As long as the counters are in order, a buffered file gives the bytes of the file.  It can be set back to where the source
was read up to, less `nRewind`, and not further.
-/

namespace Reddcoin

theorem addUInt64_eq {a b : Nat} (h : a + b < 2 ^ 64) : addUInt64 a b = a + b :=
  Nat.mod_eq_of_lt h

theorem subUInt64_eq {a b : Nat} (hle : b ≤ a) (ha : a < 2 ^ 64) : subUInt64 a b = a - b := by
  have hsum : a + (2 ^ 64 - b) = a - b + 2 ^ 64 := by omega
  rw [subUInt64, hsum, Nat.add_mod_right, Nat.mod_eq_of_lt (by omega)]

namespace CBufferedFile

/-- The counters are in order, and the buffer holds the bytes that were read last. -/
structure Synced (f : CBufferedFile) : Prop where
  size : f.vchBuf.length < 2 ^ 32
  rewind : f.nRewind < f.vchBuf.length
  ordered : f.nReadPos ≤ f.nSrcPos
  source : f.nSrcPos ≤ f.src.bytes.length
  kept : f.nSrcPos ≤ f.nReadPos + f.vchBuf.length
  ring : Ring.Holds f.vchBuf f.src.bytes (f.nSrcPos - f.vchBuf.length) f.nSrcPos
  eof : f.feof = true → f.nSrcPos = f.src.bytes.length

/-- What a call does not change, and how far ahead of the reader the source is read. -/
structure Onward (f f' : CBufferedFile) : Prop where
  src : f'.src = f.src
  rewind : f'.nRewind = f.nRewind
  limit : f'.nReadLimit = f.nReadLimit
  size : f'.vchBuf.length = f.vchBuf.length
  source : f.nSrcPos ≤ f'.nSrcPos
  reader : f.nReadPos ≤ f'.nReadPos
  ahead : f'.nSrcPos ≤ f.nSrcPos ∨ f'.nSrcPos + f.nRewind ≤ f'.nReadPos + f.vchBuf.length

theorem Onward.refl (f : CBufferedFile) : Onward f f :=
  ⟨rfl, rfl, rfl, rfl, le_refl _, le_refl _, .inl (le_refl _)⟩

theorem Onward.trans {f g k : CBufferedFile} (h : Onward f g) (h' : Onward g k) : Onward f k := by
  have hahead := h.ahead
  have hahead' := h'.ahead
  rw [h.rewind, h.size] at hahead'
  have hreader := h'.reader
  exact ⟨h'.src.trans h.src, h'.rewind.trans h.rewind, h'.limit.trans h.limit, h'.size.trans h.size,
    h.source.trans h'.source, h.reader.trans h'.reader, by omega⟩

section

variable {f : CBufferedFile}

/-- The reader goes on in what has been read from the source. -/
theorem Synced.forward (h : f.Synced) {p : Nat} (hle : f.nReadPos ≤ p) (hsrc : p ≤ f.nSrcPos) :
    Synced { f with nReadPos := p } := by
  have hkept := h.kept
  exact ⟨h.size, h.rewind, hsrc, h.source, by dsimp only; omega, h.ring, h.eof⟩

theorem onward_forward {p : Nat} (hle : f.nReadPos ≤ p) : Onward f { f with nReadPos := p } :=
  ⟨rfl, rfl, rfl, rfl, le_refl _, hle, .inl (le_refl _)⟩

theorem Synced.mark (h : f.Synced) (hend : f.nSrcPos = f.src.bytes.length) : Synced { f with feof := true } :=
  ⟨h.size, h.rewind, h.ordered, h.source, h.kept, h.ring, fun _ => hend⟩

theorem onward_mark : Onward f { f with feof := true } :=
  ⟨rfl, rfl, rfl, rfl, le_refl _, le_refl _, .inl (le_refl _)⟩

/-- `Fill` at the end of what has been read: some bytes come, or the file has no more. -/
theorem fill_spec (h : f.Synced) (hempty : f.nReadPos = f.nSrcPos) :
    (f.nSrcPos = f.src.bytes.length ∧ f.fill = .thrown { f with feof := true }) ∨
      ∃ f', f.fill = .returned true f' ∧ f'.Synced ∧ Onward f f' ∧ f'.nReadPos = f.nReadPos ∧
        f.nSrcPos < f'.nSrcPos := by
  have hsize := h.size
  have hrewind := h.rewind
  have hsource := h.source
  have hsmall := f.src.small
  have hcell : f.nSrcPos % f.vchBuf.length < f.vchBuf.length := Nat.mod_lt _ (by omega)
  have hpos : f.nSrcPos % f.vchBuf.length % 2 ^ 32 = f.nSrcPos % f.vchBuf.length := Nat.mod_eq_of_lt (by omega)
  have hnow : subUInt64 f.vchBuf.length (f.nSrcPos % f.vchBuf.length) % 2 ^ 32 =
      f.vchBuf.length - f.nSrcPos % f.vchBuf.length := by
    rw [subUInt64_eq (by omega) (by omega), Nat.mod_eq_of_lt (by omega)]
  have havail : subUInt64 (subUInt64 f.vchBuf.length (subUInt64 f.nSrcPos f.nReadPos)) f.nRewind % 2 ^ 32 =
      f.vchBuf.length - f.nRewind := by
    rw [hempty, subUInt64_eq (le_refl _) (by omega), Nat.sub_self, subUInt64_eq (Nat.zero_le _) (by omega), Nat.sub_zero,
      subUInt64_eq (by omega) (by omega), Nat.mod_eq_of_lt (by omega)]
  unfold fill
  dsimp only
  rw [hpos, hnow, havail]
  obtain ⟨readNow, hreadNow⟩ : ∃ readNow, (if f.vchBuf.length - f.nRewind < f.vchBuf.length - f.nSrcPos % f.vchBuf.length then
    f.vchBuf.length - f.nRewind else f.vchBuf.length - f.nSrcPos % f.vchBuf.length) = readNow := ⟨_, rfl⟩
  have hbounds : 0 < readNow ∧ readNow ≤ f.vchBuf.length - f.nRewind ∧
      readNow ≤ f.vchBuf.length - f.nSrcPos % f.vchBuf.length := by
    rw [← hreadNow]
    split_ifs <;> omega
  obtain ⟨hpositive, hmost, hroom⟩ := hbounds
  rw [hreadNow, if_neg (by omega)]
  obtain ⟨read, hread⟩ : ∃ read, (f.src.bytes.drop f.nSrcPos).take readNow = read := ⟨_, rfl⟩
  have hlen : read.length = min readNow (f.src.bytes.length - f.nSrcPos) := by
    rw [← hread, List.length_take, List.length_drop]
  rw [hread]
  by_cases hend : read.length = 0
  · left
    rw [if_pos hend, decide_eq_true (show read.length < readNow by omega), Bool.or_true]
    exact ⟨by omega, rfl⟩
  · right
    rw [if_neg hend, addUInt64_eq (by omega)]
    have hcopied : (Ring.overwrite f.vchBuf (f.nSrcPos % f.vchBuf.length) read).length = f.vchBuf.length :=
      Ring.length_overwrite (by omega)
    refine ⟨_, rfl, ⟨?_, ?_, ?_, ?_, ?_, ?_, ?_⟩, ⟨rfl, rfl, rfl, hcopied, ?_, le_refl _, .inr ?_⟩, rfl, ?_⟩
    · dsimp only
      omega
    · dsimp only
      omega
    · dsimp only
      omega
    · dsimp only
      omega
    · dsimp only
      omega
    · dsimp only
      rw [hcopied]
      exact h.ring.write (by rw [hlen, ← hread, List.take_eq_take_iff, List.length_drop]; omega) rfl (by omega)
    · intro hmark
      rcases (Bool.or_eq_true _ _).mp hmark with hmark | hmark
      · have hend := h.eof hmark
        dsimp only
        omega
      · have hshort := of_decide_eq_true hmark
        dsimp only
        omega
    · dsimp only
      omega
    · dsimp only
      omega
    · dsimp only
      omega

theorem fillIfNone_spec (h : f.Synced) :
    (f.nReadPos = f.src.bytes.length ∧ f.fillIfNone = .thrown { f with feof := true } ∧
        Synced { f with feof := true }) ∨
      ∃ ok f', f.fillIfNone = .returned ok f' ∧ f'.Synced ∧ Onward f f' ∧ f'.nReadPos = f.nReadPos ∧
        f'.nReadPos < f'.nSrcPos := by
  have hordered := h.ordered
  unfold fillIfNone
  by_cases hempty : f.nReadPos = f.nSrcPos
  · rw [if_pos hempty]
    rcases fill_spec h hempty with ⟨hend, hfill⟩ | ⟨f', hfill, hf', honward, hreader, hmore⟩
    · exact .inl ⟨hempty.trans hend, hfill, h.mark hend⟩
    · exact .inr ⟨true, f', hfill, hf', honward, hreader, by omega⟩
  · rw [if_neg hempty]
    exact .inr ⟨false, f, rfl, h, .refl f, rfl, by omega⟩

/-- The loop of `read` gives the next bytes, or the file has not as many. -/
theorem readLoop_spec (h : f.Synced) {turns nSize : Nat} (hturns : nSize < turns) (hsize : nSize < 2 ^ 63) :
    (f.nReadPos + nSize ≤ f.src.bytes.length ∧
        ∃ f', readLoop turns f nSize = .returned ((f.src.bytes.drop f.nReadPos).take nSize) f' ∧ f'.Synced ∧
          Onward f f' ∧ f'.nReadPos = f.nReadPos + nSize) ∨
      f.src.bytes.length < f.nReadPos + nSize ∧ ∃ f', readLoop turns f nSize = .thrown f' ∧ f'.Synced ∧ Onward f f' := by
  induction turns generalizing f nSize with
  | zero => exact absurd hturns (Nat.not_lt_zero _)
  | succ turns ih =>
    have hsmall := f.src.small
    rw [readLoop]
    by_cases hzero : nSize = 0
    · have hordered := h.ordered
      have hsource := h.source
      rw [if_pos hzero, hzero]
      exact .inl ⟨by omega, f, rfl, h, .refl f, rfl⟩
    · rw [if_neg hzero]
      rcases fillIfNone_spec h with ⟨hend, hfill, hmark⟩ | ⟨ok, g, hfill, hg, honward, hreader, hmore⟩
      · rw [hfill]
        exact .inr ⟨by omega, _, rfl, hmark, onward_mark⟩
      · rw [hfill]
        dsimp only
        have hgsize := hg.size
        have hgsource := hg.source
        have hgkept := hg.kept
        have hgrewind := hg.rewind
        have hcell : g.nReadPos % g.vchBuf.length < g.vchBuf.length := Nat.mod_lt _ (by omega)
        have hsrc := honward.src
        rw [hsrc] at hgsource
        rw [Nat.mod_eq_of_lt (show g.nReadPos % g.vchBuf.length < 2 ^ 32 by omega),
          addUInt64_eq (show nSize + g.nReadPos % g.vchBuf.length < 2 ^ 64 by omega),
          subUInt64_eq (show g.nReadPos % g.vchBuf.length ≤ g.vchBuf.length by omega) (by omega)]
        obtain ⟨nRoom, hnRoom⟩ : ∃ nRoom, (if g.vchBuf.length < nSize + g.nReadPos % g.vchBuf.length then
          g.vchBuf.length - g.nReadPos % g.vchBuf.length else nSize) = nRoom := ⟨_, rfl⟩
        have hroom : 0 < nRoom ∧ nRoom ≤ nSize ∧ g.nReadPos % g.vchBuf.length + nRoom ≤ g.vchBuf.length := by
          rw [← hnRoom]
          split_ifs <;> omega
        rw [hnRoom, addUInt64_eq (show nRoom + g.nReadPos < 2 ^ 64 by omega),
          subUInt64_eq (show g.nReadPos ≤ g.nSrcPos by omega) (by omega)]
        obtain ⟨nNow, hnNow⟩ : ∃ nNow, (if g.nSrcPos < nRoom + g.nReadPos then g.nSrcPos - g.nReadPos else nRoom) = nNow :=
          ⟨_, rfl⟩
        have hnow : 0 < nNow ∧ nNow ≤ nSize ∧ g.nReadPos % g.vchBuf.length + nNow ≤ g.vchBuf.length ∧
            g.nReadPos + nNow ≤ g.nSrcPos := by
          rw [← hnNow]
          split_ifs <;> omega
        obtain ⟨hpositive, hle, hcells, hthere⟩ := hnow
        rw [hnNow, if_neg (by omega), addUInt64_eq (show g.nReadPos + nNow < 2 ^ 64 by omega)]
        have hbytes : (g.vchBuf.drop (g.nReadPos % g.vchBuf.length)).take nNow =
            (f.src.bytes.drop f.nReadPos).take nNow := by
          rw [hg.ring.read (by omega) hthere hcells, hsrc, hreader]
        have hmoved : Onward f { g with nReadPos := g.nReadPos + nNow } :=
          honward.trans (onward_forward (by omega))
        have hrest : nSize - nNow < turns := by omega
        rcases ih (hg.forward (Nat.le_add_right _ _) hthere) hrest (by omega)
          with ⟨hfits, f', hloop, hf', honward', hreader'⟩ | ⟨hshort, f', hloop, hf', honward'⟩
        · rw [hloop]
          dsimp only at hfits hreader' ⊢
          rw [hsrc] at hfits
          refine .inl ⟨by omega, f', ?_, hf', hmoved.trans honward', by omega⟩
          rw [hbytes, hsrc, hreader, ← List.drop_drop, ← List.take_add, Nat.add_sub_cancel' hle]
        · rw [hloop]
          dsimp only at hshort ⊢
          rw [hsrc] at hshort
          exact .inr ⟨by omega, f', rfl, hf', hmoved.trans honward'⟩

/-- `read` gives the next bytes, unless there are not as many, the limit is nearer, or it is for too many. -/
theorem read_spec (h : f.Synced) {nSize : Nat} (hsize : nSize < 2 ^ 63) :
    ((f.nReadPos + nSize ≤ f.nReadLimit ∧ nSize + f.nRewind ≤ f.vchBuf.length ∧
          f.nReadPos + nSize ≤ f.src.bytes.length) ∧
        ∃ f', f.read nSize = .returned ((f.src.bytes.drop f.nReadPos).take nSize) f' ∧ f'.Synced ∧ Onward f f' ∧
          f'.nReadPos = f.nReadPos + nSize) ∨
      ¬(f.nReadPos + nSize ≤ f.nReadLimit ∧ nSize + f.nRewind ≤ f.vchBuf.length ∧
          f.nReadPos + nSize ≤ f.src.bytes.length) ∧
        ∃ f', f.read nSize = .thrown f' ∧ f'.Synced ∧ Onward f f' := by
  have hbuf := h.size
  have hrewind := h.rewind
  have hordered := h.ordered
  have hsource := h.source
  have hsmall := f.src.small
  unfold read
  rw [addUInt64_eq (show nSize + f.nReadPos < 2 ^ 64 by omega), addUInt64_eq (show nSize + f.nRewind < 2 ^ 64 by omega)]
  by_cases hlimit : f.nReadLimit < nSize + f.nReadPos
  · rw [if_pos hlimit]
    exact .inr ⟨by omega, f, rfl, h, .refl f⟩
  · rw [if_neg hlimit]
    by_cases hmost : f.vchBuf.length < nSize + f.nRewind
    · rw [if_pos hmost]
      exact .inr ⟨by omega, f, rfl, h, .refl f⟩
    · rw [if_neg hmost]
      rcases readLoop_spec h (Nat.lt_succ_self nSize) hsize with ⟨hfits, hread⟩ | ⟨hshort, hread⟩
      · exact .inl ⟨⟨by omega, by omega, hfits⟩, hread⟩
      · exact .inr ⟨by omega, hread⟩

/-- The loop of `FindByte` stops at the next place of the byte, if the file has one. -/
theorem findByteLoop_spec (h : f.Synced) {turns : Nat} (hturns : f.src.bytes.length - f.nReadPos < turns) (ch : UInt8) :
    (∃ f', findByteLoop turns f ch = .returned () f' ∧ f'.Synced ∧ Onward f f' ∧ f'.nReadPos < f'.nSrcPos ∧
        f.src.bytes[f'.nReadPos]? = some ch ∧
        ∀ i, f.nReadPos ≤ i → i < f'.nReadPos → f.src.bytes[i]? ≠ some ch) ∨
      (∀ i, f.nReadPos ≤ i → f.src.bytes[i]? ≠ some ch) ∧
        ∃ f', findByteLoop turns f ch = .thrown f' ∧ f'.Synced ∧ Onward f f' := by
  induction turns generalizing f with
  | zero => exact absurd hturns (Nat.not_lt_zero _)
  | succ turns ih =>
    have hsmall := f.src.small
    rw [findByteLoop]
    rcases fillIfNone_spec h with ⟨hend, hfill, hmark⟩ | ⟨ok, g, hfill, hg, honward, hreader, hmore⟩
    · rw [hfill]
      refine .inr ⟨fun i hi => ?_, _, rfl, hmark, onward_mark⟩
      rw [List.getElem?_eq_none (by omega)]
      exact (Option.some_ne_none ch).symm
    · rw [hfill]
      dsimp only
      have hsource := hg.source
      have hkept := hg.kept
      have hsrc := honward.src
      rw [hsrc] at hsource
      have hcell := hg.ring g.nReadPos (by omega) hmore
      rw [hsrc] at hcell
      obtain ⟨b, hb⟩ : ∃ b, f.src.bytes[g.nReadPos]? = some b := ⟨_, List.getElem?_eq_getElem (by omega)⟩
      rw [hcell, hb]
      dsimp only
      by_cases hch : b = ch
      · rw [if_pos hch]
        exact .inl ⟨g, rfl, hg, honward, hmore, hch ▸ hb, fun i hi hlt => absurd hlt (by omega)⟩
      · rw [if_neg hch, addUInt64_eq (show g.nReadPos + 1 < 2 ^ 64 by omega)]
        have hmoved : Onward f { g with nReadPos := g.nReadPos + 1 } := honward.trans (onward_forward (by omega))
        have hnext : Synced { g with nReadPos := g.nReadPos + 1 } := hg.forward (by omega) (by omega)
        have hhere : ∀ i, f.nReadPos ≤ i → i < g.nReadPos + 1 → f.src.bytes[i]? ≠ some ch := by
          intro i hi hlt
          rw [show i = g.nReadPos by omega, hb]
          exact fun heq => hch (Option.some.inj heq)
        rcases ih hnext (by dsimp only; rw [hsrc]; omega) with
          ⟨f', hloop, hf', honward', hless, hat, hbefore⟩ | ⟨hnone, f', hloop, hf', honward'⟩
        · dsimp only at hat hbefore
          rw [hsrc] at hat hbefore
          refine .inl ⟨f', hloop, hf', hmoved.trans honward', hless, hat, fun i hi hlt => ?_⟩
          by_cases hfirst : i < g.nReadPos + 1
          · exact hhere i hi hfirst
          · exact hbefore i (by omega) hlt
        · dsimp only at hnone
          rw [hsrc] at hnone
          refine .inr ⟨fun i hi => ?_, f', hloop, hf', hmoved.trans honward'⟩
          by_cases hfirst : i < g.nReadPos + 1
          · exact hhere i hi hfirst
          · exact hnone i (by omega)

theorem findByte_spec (h : f.Synced) (ch : UInt8) :
    (∃ f', f.findByte ch = .returned () f' ∧ f'.Synced ∧ Onward f f' ∧ f'.nReadPos < f'.nSrcPos ∧
        f.src.bytes[f'.nReadPos]? = some ch ∧
        ∀ i, f.nReadPos ≤ i → i < f'.nReadPos → f.src.bytes[i]? ≠ some ch) ∨
      (∀ i, f.nReadPos ≤ i → f.src.bytes[i]? ≠ some ch) ∧ ∃ f', f.findByte ch = .thrown f' ∧ f'.Synced ∧ Onward f f' :=
  findByteLoop_spec h (by omega) ch

/-! ## Setting the position -/

/-- The sum in `SetPos` wraps and comes out before `nSrcPos`, and what it sets is before the file. -/
def Wraps (f : CBufferedFile) (nPos : Nat) : Prop :=
  f.nSrcPos < f.nRewind ∧ 2 ^ 64 ≤ nPos + f.nRewind ∧ nPos + f.nRewind < 2 ^ 64 + f.nSrcPos

theorem setPos_synced (h : f.Synced) {nPos : Nat} (hlt : nPos < 2 ^ 64) (hwraps : ¬ f.Wraps nPos) :
    (f.setPos nPos).2.Synced := by
  have hrewind := h.rewind
  have hsize := h.size
  have hsource := h.source
  have hsmall := f.src.small
  unfold Wraps at hwraps
  unfold setPos
  split_ifs with hfar hbeyond
  · have hfits : f.nRewind ≤ f.nSrcPos := by
      unfold addUInt64 at hfar
      omega
    rw [subUInt64_eq hfits (by omega)]
    exact ⟨hsize, hrewind, by dsimp only; omega, hsource, by dsimp only; omega, h.ring, h.eof⟩
  · exact ⟨hsize, hrewind, le_refl _, hsource, by dsimp only; omega, h.ring, h.eof⟩
  · rw [addUInt64_eq (by omega)] at hfar
    exact ⟨hsize, hrewind, by dsimp only; omega, hsource, by dsimp only; omega, h.ring, h.eof⟩

/-- A position that has been read from the source is set exactly when the source was not read more than `nRewind` bytes
further. -/
theorem setPos_iff (h : f.Synced) {nPos : Nat} (hle : nPos ≤ f.nSrcPos) :
    f.setPos nPos = (true, { f with nReadPos := nPos }) ↔ f.nSrcPos ≤ nPos + f.nRewind := by
  have hrewind := h.rewind
  have hsize := h.size
  have hsource := h.source
  have hsmall := f.src.small
  unfold setPos
  rw [addUInt64_eq (by omega)]
  split_ifs with hfar hbeyond
  · exact iff_of_false (fun heq => nomatch (Prod.mk.inj heq).1) (by omega)
  · exact absurd hbeyond (by omega)
  · exact iff_of_true rfl (by omega)

end

end CBufferedFile

/-! ## Runs -/

namespace BufferedState

/-- What a file does with a call: a read that returns gives the bytes at the position and moves past them, a search that
returns stands on the next place of the byte, and a position that lies at most `nRewind` behind the furthest one is set. -/
def AsFile (s : BufferedState) : BufferedCall → Prop
  | .read nSize _ => s.file.read nSize ≠ .stuck ∧ ∀ pch f', s.file.read nSize = .returned pch f' →
      pch = (s.file.src.bytes.drop s.file.getPos).take nSize ∧ pch.length = nSize ∧ f'.getPos = s.file.getPos + nSize
  | .findByte ch => s.file.findByte ch ≠ .stuck ∧ ∀ f', s.file.findByte ch = .returned () f' →
      s.file.getPos ≤ f'.getPos ∧ s.file.src.bytes[f'.getPos]? = some ch ∧
        ∀ i, s.file.getPos ≤ i → i < f'.getPos → s.file.src.bytes[i]? ≠ some ch
  | .getPos => True
  | .setLimit _ => True
  | .setPos nPos => nPos.1 ≤ s.furthest → s.furthest ≤ nPos.1 + s.file.nRewind →
      s.file.setPos nPos.1 = (true, { s.file with nReadPos := nPos.1 })

/-- A position that lies at most `nRewind` behind the furthest one lies at most `nRewind` behind where the source was read
up to. -/
def Near (s : BufferedState) : BufferedCall → Prop
  | .setPos nPos => nPos.1 ≤ s.furthest → s.furthest ≤ nPos.1 + s.file.nRewind →
      s.file.nSrcPos ≤ nPos.1 + s.file.nRewind
  | _ => True

/-- No position is asked for that wraps. -/
def InRange (s : BufferedState) : BufferedCall → Prop
  | .setPos nPos => ¬ s.file.Wraps nPos.1
  | _ => True

/-- What holds of each call of a run. -/
def Along (P : BufferedState → BufferedCall → Prop) : BufferedState → List BufferedCall → Prop
  | _, [] => True
  | s, c :: cs => P s c ∧ ∀ s', s.next c = some s' → Along P s' cs

/-- The counters are in order. -/
structure Synced (s : BufferedState) : Prop where
  file : s.file.Synced
  reader : s.file.nReadPos ≤ s.furthest
  source : s.furthest ≤ s.file.nSrcPos

theorem Synced.onward {s : BufferedState} (h : s.Synced) {f' : CBufferedFile} (hf' : f'.Synced)
    (honward : s.file.Onward f') : Synced { file := f', furthest := max s.furthest f'.nReadPos } := by
  have hsource := h.source
  have honwardSource := honward.source
  have hordered := hf'.ordered
  exact ⟨hf', le_max_right _ _, max_le (by dsimp only; omega) hordered⟩

theorem Synced.next {s s' : BufferedState} (h : s.Synced) {c : BufferedCall} (hrange : s.InRange c)
    (hnext : s.next c = some s') : s'.Synced := by
  unfold BufferedState.next at hnext
  cases c with
  | read nSize hsize =>
    rcases CBufferedFile.read_spec h.file hsize with ⟨-, f', hread, hf', honward, -⟩ | ⟨-, f', hread, hf', honward⟩
    all_goals
      rw [CBufferedFile.call, hread] at hnext
      exact Option.some.inj hnext ▸ h.onward hf' honward
  | findByte ch =>
    rcases CBufferedFile.findByte_spec h.file ch with ⟨f', hfind, hf', honward, -⟩ | ⟨-, f', hfind, hf', honward⟩
    all_goals
      rw [CBufferedFile.call, hfind] at hnext
      exact Option.some.inj hnext ▸ h.onward hf' honward
  | getPos => exact Option.some.inj hnext ▸ h.onward h.file (.refl s.file)
  | setLimit nPos =>
    refine Option.some.inj hnext ▸ ?_
    show Synced { file := (s.file.setLimit nPos.1).2, furthest := max s.furthest (s.file.setLimit nPos.1).2.nReadPos }
    unfold CBufferedFile.setLimit
    split_ifs
    · exact h.onward h.file (.refl s.file)
    · have hfile := h.file
      exact ⟨⟨hfile.size, hfile.rewind, hfile.ordered, hfile.source, hfile.kept, hfile.ring, hfile.eof⟩,
        le_max_right _ _, max_le h.source hfile.ordered⟩
  | setPos nPos =>
    have hset := CBufferedFile.setPos_synced h.file nPos.2 hrange
    have hsame : (s.file.setPos nPos.1).2.nSrcPos = s.file.nSrcPos := by
      unfold CBufferedFile.setPos
      split_ifs <;> rfl
    refine Option.some.inj hnext ▸ ⟨hset, le_max_right _ _, max_le ?_ hset.ordered⟩
    exact h.source.trans hsame.ge

/-- One call does what a file does exactly when it does not go back too far. -/
theorem Synced.asFile_iff {s : BufferedState} (h : s.Synced) (c : BufferedCall) : s.AsFile c ↔ s.Near c := by
  cases c with
  | read nSize hsize =>
    refine iff_of_true ?_ trivial
    rcases CBufferedFile.read_spec h.file hsize with
      ⟨⟨-, -, hfits⟩, f', hread, -, -, hreader⟩ | ⟨-, f', hread, -⟩
    · refine ⟨by rw [hread]; exact nofun, fun pch f'' hreturned => ?_⟩
      obtain ⟨rfl, rfl⟩ := BufferedResult.returned.inj (hread.symm.trans hreturned)
      refine ⟨rfl, List.length_take_of_le ?_, hreader⟩
      rw [List.length_drop]
      show nSize ≤ s.file.src.bytes.length - s.file.nReadPos
      omega
    · rw [AsFile, hread]
      exact ⟨nofun, nofun⟩
  | findByte ch =>
    refine iff_of_true ?_ trivial
    rcases CBufferedFile.findByte_spec h.file ch with ⟨f', hfind, -, honward, -, hat, hbefore⟩ | ⟨-, f', hfind, -⟩
    · refine ⟨by rw [hfind]; exact nofun, fun f'' hreturned => ?_⟩
      obtain ⟨-, rfl⟩ := BufferedResult.returned.inj (hfind.symm.trans hreturned)
      exact ⟨honward.reader, hat, hbefore⟩
    · rw [AsFile, hfind]
      exact ⟨nofun, nofun⟩
  | getPos | setLimit nPos => exact Iff.rfl
  | setPos nPos =>
    refine forall_congr' fun hle => forall_congr' fun _ => ?_
    exact CBufferedFile.setPos_iff h.file (hle.trans h.source)

theorem Synced.along_iff {s : BufferedState} (h : s.Synced) {cs : List BufferedCall} (hrange : Along InRange s cs) :
    Along AsFile s cs ↔ Along Near s cs := by
  induction cs generalizing s with
  | nil => exact Iff.rfl
  | cons c cs ih =>
    refine and_congr (h.asFile_iff c) (forall_congr' fun s' => forall_congr' fun hnext => ?_)
    exact ih (h.next hrange.1 hnext) (hrange.2 s' hnext)

theorem start_synced (fileIn : FileBytes) {nBufSize nRewindIn : Nat} (hrewind : nRewindIn < nBufSize)
    (hsize : nBufSize < 2 ^ 32) : (start fileIn nBufSize nRewindIn).Synced := by
  have hlen : (start fileIn nBufSize nRewindIn).file.vchBuf.length = nBufSize := List.length_replicate
  refine ⟨⟨?_, ?_, le_refl _, Nat.zero_le _, Nat.zero_le _, ?_, ?_⟩, le_refl _, le_refl _⟩
  · rw [hlen]
    exact hsize
  · rw [hlen]
    exact hrewind
  · intro q _ hlt
    exact absurd hlt (Nat.not_lt_zero q)
  · intro hmark
    cases hmark

end BufferedState

end Reddcoin
