import Reddcoin.Files.BufferedFile
import Reddcoin.Files.Reindex
import Reddcoin.Serialize.WireRequests

/-!
# Loading blocks from a file

`LoadExternalBlockFile` searches the bytes of a file for records: the magic bytes, a size and a block.  After a record whose
block cannot be read the search goes on behind the first magic byte.
-/

namespace Reddcoin

variable {blkdat : CBufferedFile} {nRewind : Nat} {fileIn : FileBytes}

/-- `operator>>`, with the reads that the object makes. -/
def CBufferedFile.unserialize {α : Type} : CBufferedFile → ByteRequests α → BufferedResult α
  | f, .done a => .returned a f
  | f, .fail => .thrown f
  | f, .ask nSize _ k =>
    match f.read nSize with
    | .stuck => .stuck
    | .thrown f => .thrown f
    | .returned pch f => f.unserialize (k pch)

/-- `Params().MessageStart()`. -/
structure MessageStart where
  bytes : List UInt8
  size : bytes.length = 4

/-- What one turn of the loop over the file comes to. -/
inductive LoadTurn where
  | stuck
  /-- `break`: no valid block header found. -/
  | stop
  /-- No block was read. -/
  | again (blkdat : CBufferedFile) (nRewind : Nat)
  /-- A block was read. -/
  | found (blkdat : CBufferedFile) (nRewind nBlockPos : Nat) (block : CBlock)

/-- A turn, up to where a block has been read. -/
def loadTurn (messageStart : MessageStart) (blkdat : CBufferedFile) (nRewind : Nat) : LoadTurn :=
  let blkdat := (blkdat.setPos nRewind).2
  -- Remove former limit.
  let blkdat := (blkdat.setLimit (2 ^ 64 - 1)).2
  match blkdat.findByte (messageStart.bytes.headD 0) with
  | .stuck => .stuck
  | .thrown _ => .stop
  | .returned _ blkdat =>
    -- Start one byte further next time, in case of failure.
    let nRewind := addUInt64 blkdat.getPos 1
    match blkdat.read 4 with
    | .stuck => .stuck
    | .thrown _ => .stop
    | .returned buf blkdat =>
      if buf ≠ messageStart.bytes then .again blkdat nRewind
      else
        match blkdat.unserialize (ByteRequests.readData 4 (Nat.le_of_ble_eq_true rfl)) with
        | .stuck => .stuck
        | .thrown _ => .stop
        | .returned nSize blkdat =>
          if nSize < 80 ∨ MAX_BLOCK_SIZE < nSize then .again blkdat nRewind
          else
            let nBlockPos := blkdat.getPos
            let blkdat := (blkdat.setLimit (addUInt64 nBlockPos nSize)).2
            let blkdat := (blkdat.setPos nBlockPos).2
            match blkdat.unserialize CBlock.requests with
            | .stuck => .stuck
            | .thrown blkdat => .again blkdat nRewind
            | .returned block blkdat => .found blkdat blkdat.getPos nBlockPos block

section

variable {σ : Type} (messageStart : MessageStart) (onBlock : σ → BlockRecord → Option (σ × Bool))

/-- The loop over the file; `onBlock` is what is done with a block, and whether the loop is left then. -/
def loadLoop : Nat → σ → CBufferedFile → Nat → Option σ
  | 0, _, _, _ => none
  | turns + 1, s, blkdat, nRewind =>
    if blkdat.eof then some s
    else
      match loadTurn messageStart blkdat nRewind with
      | .stuck => none
      | .stop => some s
      | .again blkdat nRewind => loadLoop turns s blkdat nRewind
      | .found blkdat nRewind nBlockPos block =>
        match onBlock s (nBlockPos, block) with
        | none => none
        | some (s, true) => some s
        | some (s, false) => loadLoop turns s blkdat nRewind

/-- The buffer of `LoadExternalBlockFile`. -/
def blkdatOf (fileIn : FileBytes) : CBufferedFile :=
  .new fileIn (2 * MAX_BLOCK_SIZE) (MAX_BLOCK_SIZE + 8)

/-- The loop of `LoadExternalBlockFile`, with more turns than the file has bytes. -/
def loadFile (fileIn : FileBytes) (s : σ) : Option σ :=
  loadLoop messageStart onBlock (fileIn.bytes.length + 1) s (blkdatOf fileIn) (blkdatOf fileIn).getPos

/-- What the loop has when it comes to its head. -/
inductive LoadHead (fileIn : FileBytes) (start : σ) : σ → CBufferedFile → Nat → Prop where
  | start : LoadHead fileIn start start (blkdatOf fileIn) (blkdatOf fileIn).getPos
  | again {s : σ} {blkdat blkdat' : CBufferedFile} {nRewind nRewind' : Nat} (h : LoadHead fileIn start s blkdat nRewind)
      (hopen : blkdat.eof = false) (hturn : loadTurn messageStart blkdat nRewind = .again blkdat' nRewind') :
      LoadHead fileIn start s blkdat' nRewind'
  | found {s s' : σ} {blkdat blkdat' : CBufferedFile} {nRewind nRewind' nBlockPos : Nat} {block : CBlock}
      (h : LoadHead fileIn start s blkdat nRewind) (hopen : blkdat.eof = false)
      (hturn : loadTurn messageStart blkdat nRewind = .found blkdat' nRewind' nBlockPos block)
      (hblock : onBlock s (nBlockPos, block) = some (s', false)) : LoadHead fileIn start s' blkdat' nRewind'

/-! ## The records of a file -/

/-- The block of the record at a place, and how many bytes it takes. -/
def blockAt (bytes : List UInt8) (pos : Nat) : Option (CBlock × Nat) :=
  let nSize := leNat ((bytes.drop (pos + 4)).take 4)
  if (bytes.drop pos).take 4 = messageStart.bytes ∧ pos + 8 ≤ bytes.length ∧ 80 ≤ nSize ∧ nSize ≤ MAX_BLOCK_SIZE then
    (CBlock.unserialize.run ((bytes.drop (pos + 8)).take nSize)).map fun (block, rest) =>
      (block, ((bytes.drop (pos + 8)).take nSize).length - rest.length)
  else none

/-- The records from a place on, found by looking at each place up to one with a record. -/
def recordsFrom (bytes : List UInt8) (pos : Nat) : List BlockRecord :=
  if pos < bytes.length then
    match blockAt messageStart bytes pos with
    | none => recordsFrom bytes (pos + 1)
    | some (block, nBytes) => (pos + 8, block) :: recordsFrom bytes (pos + 8 + nBytes)
  else []
termination_by bytes.length - pos

/-- The blocks one after another, until the loop is left. -/
def foldRecords : σ → List BlockRecord → Option σ
  | s, [] => some s
  | s, record :: records =>
    match onBlock s record with
    | none => none
    | some (s, true) => some s
    | some (s, false) => foldRecords s records

end

section

variable {messageStart : MessageStart} {bytes : List UInt8} {pos : Nat}

theorem recordsFrom_none (h : blockAt messageStart bytes pos = none) :
    recordsFrom messageStart bytes pos = recordsFrom messageStart bytes (pos + 1) := by
  rw [recordsFrom]
  split_ifs with hlt
  · rw [h]
  · rw [recordsFrom, if_neg (by omega)]

theorem recordsFrom_some {block : CBlock} {nBytes : Nat} (h : blockAt messageStart bytes pos = some (block, nBytes)) :
    recordsFrom messageStart bytes pos = (pos + 8, block) :: recordsFrom messageStart bytes (pos + 8 + nBytes) := by
  have hlt : pos < bytes.length := by
    unfold blockAt at h
    dsimp only at h
    split_ifs at h with hrecord
    omega
  rw [recordsFrom, if_pos hlt, h]

/-- No record starts where the first magic byte is not. -/
theorem blockAt_eq_none (h : bytes[pos]? ≠ some (messageStart.bytes.headD 0)) :
    blockAt messageStart bytes pos = none := by
  unfold blockAt
  dsimp only
  refine if_neg fun hrecord => h ?_
  have hsize := messageStart.size
  have hfirst : ((bytes.drop pos).take 4)[0]? = messageStart.bytes[0]? := by rw [hrecord.1]
  rw [List.getElem?_take_of_lt (by decide), List.getElem?_drop, Nat.add_zero] at hfirst
  rw [hfirst]
  cases hbytes : messageStart.bytes with
  | nil => rw [hbytes] at hsize; exact absurd hsize (by decide)
  | cons b rest => rfl

theorem recordsFrom_skip {pos' : Nat} (hle : pos ≤ pos')
    (h : ∀ i, pos ≤ i → i < pos' → bytes[i]? ≠ some (messageStart.bytes.headD 0)) :
    recordsFrom messageStart bytes pos = recordsFrom messageStart bytes pos' := by
  induction pos', hle using Nat.le_induction with
  | base => rfl
  | succ pos' hle ih =>
    rw [ih fun i hi hlt => h i hi (by omega), recordsFrom_none (blockAt_eq_none (h pos' hle (Nat.lt_succ_self pos')))]

/-- The last bytes have no record. -/
theorem recordsFrom_end (h : bytes.length < pos + 8) : recordsFrom messageStart bytes pos = [] := by
  obtain ⟨n, hn⟩ : ∃ n, bytes.length - pos = n := ⟨_, rfl⟩
  induction n generalizing pos with
  | zero => rw [recordsFrom, if_neg (by omega)]
  | succ n ih =>
    have hnone : blockAt messageStart bytes pos = none := by
      unfold blockAt
      dsimp only
      exact if_neg fun hrecord => by omega
    rw [recordsFrom_none hnone, ih (by omega) (by omega)]

/-- A record is met, or lies inside one that is met. -/
theorem recordsFrom_complete {start : Nat} (hstart : start ≤ pos) {block : CBlock} {nBytes : Nat}
    (h : blockAt messageStart bytes pos = some (block, nBytes)) :
    (pos + 8, block) ∈ recordsFrom messageStart bytes start ∨
      ∃ pos' block' nBytes', start ≤ pos' ∧ pos' < pos ∧ pos < pos' + 8 + nBytes' ∧
        blockAt messageStart bytes pos' = some (block', nBytes') ∧
        (pos' + 8, block') ∈ recordsFrom messageStart bytes start := by
  obtain ⟨n, hn⟩ : ∃ n, pos - start = n := ⟨_, rfl⟩
  induction n using Nat.strong_induction_on generalizing start with
  | _ n ih =>
    rcases Nat.eq_or_lt_of_le hstart with rfl | hlt
    · left
      rw [recordsFrom_some h]
      exact List.mem_cons_self
    · cases hfirst : blockAt messageStart bytes start with
      | none =>
        rw [recordsFrom_none hfirst]
        rcases ih (pos - (start + 1)) (by omega) hlt rfl with hmet | ⟨pos', block', nBytes', hle, hinside⟩
        · exact .inl hmet
        · exact .inr ⟨pos', block', nBytes', by omega, hinside⟩
      | some first =>
        obtain ⟨block', nBytes'⟩ := first
        rw [recordsFrom_some hfirst]
        by_cases hcovered : pos < start + 8 + nBytes'
        · exact .inr ⟨start, block', nBytes', le_refl _, hlt, hcovered, hfirst, List.mem_cons_self⟩
        · rcases ih (pos - (start + 8 + nBytes')) (by omega) (by omega) rfl with
            hmet | ⟨pos', block'', nBytes'', hle, hless, hcover, hat, hmem⟩
          · exact .inl (List.mem_cons_of_mem _ hmet)
          · exact .inr ⟨pos', block'', nBytes'', by omega, hless, hcover, hat, List.mem_cons_of_mem _ hmem⟩

end

end Reddcoin

/-!
## Loading every block of a file

As long as every turn of `LoadExternalBlockFile` can set its file back to where it means to go on, it hands on exactly the
records of the file.
-/

namespace Reddcoin

open Stream

/-- An object is read from the next bytes, up to the limit, unless it asks for too many at once. -/
theorem CBufferedFile.unserialize_spec {α : Type} {f : CBufferedFile} (h : f.Synced)
    (hlimit : f.nReadPos ≤ f.nReadLimit) (x : ByteRequests α) :
    (∃ a rest f', f.unserialize x = .returned a f' ∧ f'.Synced ∧ f.Onward f' ∧
        x.runWithin (f.vchBuf.length - f.nRewind)
          ((f.src.bytes.drop f.nReadPos).take (f.nReadLimit - f.nReadPos)) = some (a, rest) ∧
        f'.nReadPos + rest.length =
          f.nReadPos + ((f.src.bytes.drop f.nReadPos).take (f.nReadLimit - f.nReadPos)).length) ∨
      x.runWithin (f.vchBuf.length - f.nRewind)
          ((f.src.bytes.drop f.nReadPos).take (f.nReadLimit - f.nReadPos)) = none ∧
        ∃ f', f.unserialize x = .thrown f' ∧ f'.Synced ∧ f.Onward f' := by
  induction x generalizing f with
  | done a => exact .inl ⟨a, _, f, rfl, h, .refl f, rfl, rfl⟩
  | fail => exact .inr ⟨rfl, f, rfl, h, .refl f⟩
  | ask nSize hsize k ih =>
    have hrewind := h.rewind
    have hlen : ((f.src.bytes.drop f.nReadPos).take (f.nReadLimit - f.nReadPos)).length =
        min (f.nReadLimit - f.nReadPos) (f.src.bytes.length - f.nReadPos) := by
      rw [List.length_take, List.length_drop]
    have hordered := h.ordered
    have hsource := h.source
    rw [CBufferedFile.unserialize, Requests.runWithin]
    rcases CBufferedFile.read_spec h hsize with
      ⟨⟨hin, hmost, hfits⟩, g, hread, hg, honward, hreader⟩ | ⟨hrefused, g, hread, hg, honward⟩
    · rw [hread, if_pos ⟨by omega, by omega⟩]
      dsimp only
      have hbytes : ((f.src.bytes.drop f.nReadPos).take (f.nReadLimit - f.nReadPos)).take nSize =
          (f.src.bytes.drop f.nReadPos).take nSize := by
        rw [List.take_take, Nat.min_eq_left (by omega)]
      have hrest : ((f.src.bytes.drop f.nReadPos).take (f.nReadLimit - f.nReadPos)).drop nSize =
          (g.src.bytes.drop g.nReadPos).take (g.nReadLimit - g.nReadPos) := by
        rw [List.drop_take, List.drop_drop, honward.src, honward.limit, hreader]
        congr 1
        omega
      have hwithin : f.vchBuf.length - f.nRewind = g.vchBuf.length - g.nRewind := by rw [honward.size, honward.rewind]
      have hrestLen : ((g.src.bytes.drop g.nReadPos).take (g.nReadLimit - g.nReadPos)).length + nSize =
          ((f.src.bytes.drop f.nReadPos).take (f.nReadLimit - f.nReadPos)).length := by
        rw [← hrest, List.length_drop]
        omega
      rw [hbytes, hrest, hwithin]
      rcases ih ((f.src.bytes.drop f.nReadPos).take nSize) hg (by rw [hreader, honward.limit]; exact hin) with
        ⟨a, rest, f', hobject, hf', honward', hrun, hend⟩ | ⟨hrun, f', hobject, hf', honward'⟩
      · exact .inl ⟨a, rest, f', hobject, hf', honward.trans honward', hrun, by omega⟩
      · exact .inr ⟨hrun, f', hobject, hf', honward.trans honward'⟩
    · rw [hread, if_neg (by omega)]
      exact .inr ⟨rfl, g, rfl, hg, honward⟩

/-! ## One turn -/

/-- The loop can go on where it means to: the source was not read too far, and the end of the file is not met while there
may be records. -/
def Resumes (blkdat : CBufferedFile) (nRewind : Nat) : Prop :=
  blkdat.nSrcPos ≤ nRewind + blkdat.nRewind ∧ (blkdat.eof = true → blkdat.src.bytes.length < nRewind + 8)

/-- A record has just failed: its magic bytes and its size are right, and its block cannot be read. -/
def Failed (messageStart : MessageStart) (bytes : List UInt8) (nRewind : Nat) : Prop :=
  ∃ pos nSize, nRewind = pos + 1 ∧ (bytes.drop pos).take 4 = messageStart.bytes ∧ pos + 8 ≤ bytes.length ∧
    leNat ((bytes.drop (pos + 4)).take 4) = nSize ∧ 80 ≤ nSize ∧ nSize ≤ MAX_BLOCK_SIZE ∧
    CBlock.unserialize.run ((bytes.drop (pos + 8)).take nSize) = none

/-- What is in order when the loop comes to its head. -/
structure HeadSynced (fileIn : FileBytes) (blkdat : CBufferedFile) (nRewind : Nat) : Prop where
  file : blkdat.Synced
  src : blkdat.src = fileIn
  size : blkdat.vchBuf.length = 2 * MAX_BLOCK_SIZE
  rewind : blkdat.nRewind = MAX_BLOCK_SIZE + 8
  reader : nRewind ≤ blkdat.nSrcPos

theorem HeadSynced.start (fileIn : FileBytes) : HeadSynced fileIn (blkdatOf fileIn) (blkdatOf fileIn).getPos where
  file := (BufferedState.start_synced fileIn (by decide) (by decide)).file
  src := rfl
  size := List.length_replicate
  rewind := rfl
  reader := le_refl _

theorem HeadSynced.onward {blkdat blkdat' : CBufferedFile} {nRewind nRewind' : Nat}
    (h : HeadSynced fileIn blkdat nRewind) (hfile : blkdat'.Synced) (honward : blkdat.Onward blkdat')
    (hreader : nRewind' ≤ blkdat'.nSrcPos) : HeadSynced fileIn blkdat' nRewind' :=
  ⟨hfile, honward.src.trans h.src, honward.size.trans h.size, honward.rewind.trans h.rewind, hreader⟩

theorem HeadSynced.back {nRewind nRewind' : Nat}
    (h : HeadSynced fileIn blkdat nRewind) (hle : nRewind' ≤ nRewind) : HeadSynced fileIn blkdat nRewind' :=
  ⟨h.file, h.src, h.size, h.rewind, hle.trans h.reader⟩

/-- The reader is where the source can be set back to it. -/
structure Placed (fileIn : FileBytes) (f : CBufferedFile) (pos : Nat) : Prop extends HeadSynced fileIn f pos where
  placed : f.nReadPos = pos
  near : f.nSrcPos ≤ pos + f.nRewind

section

variable {fileIn : FileBytes} {f : CBufferedFile} {pos : Nat}

theorem Placed.setPos (h : HeadSynced fileIn f pos) (hnear : f.nSrcPos ≤ pos + f.nRewind) :
    f.setPos pos = (true, { f with nReadPos := pos }) ∧ Placed fileIn { f with nReadPos := pos } pos := by
  have hset := (CBufferedFile.setPos_iff h.file h.reader).mpr hnear
  have hrewind := h.file.rewind
  refine ⟨hset, ⟨⟨h.file.size, h.file.rewind, h.reader, h.file.source, ?_, h.file.ring, h.file.eof⟩, h.src, h.size,
    h.rewind, h.reader⟩, rfl, hnear⟩
  dsimp only
  omega

/-- In any case the reader is set to the place or to the first byte that is kept. -/
theorem HeadSynced.setPos (h : HeadSynced fileIn f pos) :
    Placed fileIn (f.setPos pos).2 (max pos (f.nSrcPos - f.nRewind)) := by
  by_cases hnear : f.nSrcPos ≤ pos + f.nRewind
  · rw [(Placed.setPos h hnear).1, Nat.max_eq_left (by omega)]
    exact (Placed.setPos h hnear).2
  · have hsmall := f.src.small
    have hsource := h.file.source
    have hset : f.setPos pos = (false, { f with nReadPos := f.nSrcPos - f.nRewind }) := by
      unfold CBufferedFile.setPos
      rw [addUInt64_eq (by omega), if_pos (by omega), subUInt64_eq (by omega) (by omega)]
    rw [hset, Nat.max_eq_right (by omega)]
    have hkept : HeadSynced fileIn f (f.nSrcPos - f.nRewind) := ⟨h.file, h.src, h.size, h.rewind, Nat.sub_le _ _⟩
    exact (Placed.setPos hkept (by omega)).2

/-- A limit is set at or behind the reader. -/
theorem Placed.setLimit (h : Placed fileIn f pos) {nPos : Nat} (hle : pos ≤ nPos) :
    Placed fileIn (f.setLimit nPos).2 pos ∧ (f.setLimit nPos).2.nReadLimit = nPos := by
  have hset : f.setLimit nPos = (true, { f with nReadLimit := nPos }) := if_neg (by rw [h.placed]; omega)
  have hfile := h.file
  rw [hset]
  exact ⟨⟨⟨⟨hfile.size, hfile.rewind, hfile.ordered, hfile.source, hfile.kept, hfile.ring, hfile.eof⟩, h.src, h.size,
    h.rewind, h.reader⟩, h.placed, h.near⟩, rfl⟩

end

/-- The reader has gone on, and the source can still be set back to it. -/
theorem Placed.onward {f f' : CBufferedFile} {pos : Nat} (h : Placed fileIn f pos)
    (hf' : f'.Synced) (honward : f.Onward f') : Placed fileIn f' f'.nReadPos := by
  have hahead := honward.ahead
  have hreader := honward.reader
  have hnear := h.near
  have hplaced := h.placed
  have hsize := h.size
  have hrewind := h.rewind
  have hrewind' := honward.rewind
  exact ⟨h.toHeadSynced.onward hf' honward hf'.ordered, rfl, by omega⟩

/-- The loop can go on a few bytes behind the reader. -/
theorem Placed.resumes {f : CBufferedFile} {pos nRewind : Nat} (h : Placed fileIn f pos)
    (hnear : f.nSrcPos ≤ nRewind + f.nRewind) (hless : pos < nRewind + 8) : Resumes f nRewind := by
  refine ⟨hnear, fun heof => ?_⟩
  unfold CBufferedFile.eof at heof
  obtain ⟨hempty, hmark⟩ := (Bool.and_eq_true _ _).mp heof
  have hend := h.file.eof hmark
  have hplaced := h.placed
  have hempty := of_decide_eq_true hempty
  omega

section

variable {fileIn : FileBytes} {messageStart : MessageStart}

/-- The record at a place, when its magic bytes and its size have been read. -/
theorem blockAt_eq {pos nSize : Nat} (hmagic : (fileIn.bytes.drop pos).take 4 = messageStart.bytes)
    (hlen : pos + 8 ≤ fileIn.bytes.length) (hsize : leNat ((fileIn.bytes.drop (pos + 4)).take 4) = nSize)
    (hle : ¬(nSize < 80 ∨ MAX_BLOCK_SIZE < nSize)) :
    blockAt messageStart fileIn.bytes pos =
      (CBlock.unserialize.run ((fileIn.bytes.drop (pos + 8)).take nSize)).map fun (block, rest) =>
        (block, ((fileIn.bytes.drop (pos + 8)).take nSize).length - rest.length) := by
  unfold blockAt
  dsimp only
  rw [hsize]
  exact if_pos ⟨hmagic, hlen, by omega, by omega⟩

/-- The block of a record, read up to the record's size. -/
theorem readBlock_spec {f : CBufferedFile} {pos : Nat} (h : Placed fileIn f pos) {nSize : Nat}
    (hmost : nSize ≤ MAX_BLOCK_SIZE) :
    (∃ block rest f', ((f.setLimit (addUInt64 f.getPos nSize)).2.setPos f.getPos).2.unserialize CBlock.requests =
        .returned block f' ∧ Placed fileIn f' f'.nReadPos ∧
        CBlock.unserialize.run ((fileIn.bytes.drop pos).take nSize) = some (block, rest) ∧
        f'.nReadPos = pos + (((fileIn.bytes.drop pos).take nSize).length - rest.length)) ∨
      CBlock.unserialize.run ((fileIn.bytes.drop pos).take nSize) = none ∧
        ∃ f', ((f.setLimit (addUInt64 f.getPos nSize)).2.setPos f.getPos).2.unserialize CBlock.requests = .thrown f' ∧
          HeadSynced fileIn f' pos := by
  have hmax : MAX_BLOCK_SIZE = 1000000 := rfl
  have hsource := h.file.source
  have hsmall := f.src.small
  have hreader := h.reader
  have hgetPos : f.getPos = pos := h.placed
  rw [hgetPos, addUInt64_eq (by omega)]
  obtain ⟨hlimited, hlimit⟩ := h.setLimit (Nat.le_add_right pos nSize)
  obtain ⟨hset, hplaced⟩ := Placed.setPos hlimited.toHeadSynced hlimited.near
  rw [hset]
  obtain ⟨g, hg⟩ : ∃ g, ({ (f.setLimit (pos + nSize)).2 with nReadPos := pos } : CBufferedFile) = g := ⟨_, rfl⟩
  have hgLimit : g.nReadLimit = pos + nSize := hg ▸ hlimit
  rw [hg] at hplaced ⊢
  have hspec := CBufferedFile.unserialize_spec hplaced.file (by rw [hgLimit, hplaced.placed]; omega) CBlock.requests
  have hlen : ((fileIn.bytes.drop pos).take nSize).length ≤ nSize := List.length_take_le _ _
  rw [hplaced.size, hplaced.rewind, hplaced.src, hgLimit, hplaced.placed, Nat.add_sub_cancel_left,
    CBlock.runWithin_requests (by omega) (by omega)] at hspec
  rcases hspec with ⟨block, rest, f', hobject, hf', honward, hrun, hend⟩ | ⟨hrun, f', hobject, hf', honward⟩
  · obtain ⟨taken, htaken, -⟩ := CBlock.consumes_unserialize _ block rest hrun
    have hrest := congrArg List.length htaken
    rw [List.length_append] at hrest
    exact .inl ⟨block, rest, f', hobject, hplaced.onward hf' honward, hrun, by omega⟩
  · exact .inr ⟨hrun, f', hobject, hplaced.toHeadSynced.onward hf' honward (hplaced.reader.trans honward.source)⟩

/-- Four bytes of a header, with no limit in the way. -/
theorem readFour_spec {f : CBufferedFile} {pos : Nat} (h : Placed fileIn f pos) (hlimit : f.nReadLimit = 2 ^ 64 - 1) :
    (pos + 4 ≤ fileIn.bytes.length ∧ ∃ f', f.read 4 = .returned ((fileIn.bytes.drop pos).take 4) f' ∧
        Placed fileIn f' (pos + 4) ∧ f.Onward f') ∨
      fileIn.bytes.length < pos + 4 ∧ ∃ f', f.read 4 = .thrown f' := by
  have hmax : MAX_BLOCK_SIZE = 1000000 := rfl
  have hsmall := fileIn.small
  have hsize := h.size
  have hrewind := h.rewind
  have hspec := CBufferedFile.read_spec h.file (show 4 < 2 ^ 63 by decide)
  rw [h.src, h.placed, hlimit, hsize, hrewind] at hspec
  rcases hspec with ⟨⟨-, -, hfits⟩, f', hread, hf', honward, hreader⟩ | ⟨hrefused, f', hread, -⟩
  · have hplaced := h.onward hf' honward
    rw [hreader] at hplaced
    exact .inl ⟨hfits, f', hread, hplaced, honward⟩
  · exact .inr ⟨by omega, f', hread⟩

theorem unserialize_readData {f : CBufferedFile} (h : 4 < 2 ^ 63) :
    f.unserialize (ByteRequests.readData 4 h) = (f.read 4).map leNat := by
  show f.unserialize (.ask 4 h fun s => .done (leNat s)) = _
  rw [CBufferedFile.unserialize]
  cases f.read 4 <;> rfl

/-- What a turn does to the records that are still to come.  It searches from where it means to go on, or from the first
byte that the buffer keeps. -/
theorem loadTurn_spec (messageStart : MessageStart) (h : HeadSynced fileIn blkdat nRewind) {start : Nat}
    (hstart : start = max nRewind (blkdat.nSrcPos - blkdat.nRewind)) :
    (loadTurn messageStart blkdat nRewind = .stop ∧ recordsFrom messageStart fileIn.bytes start = []) ∨
      (∃ blkdat' nRewind', loadTurn messageStart blkdat nRewind = .again blkdat' nRewind' ∧
        HeadSynced fileIn blkdat' nRewind' ∧ start < nRewind' ∧
        recordsFrom messageStart fileIn.bytes start = recordsFrom messageStart fileIn.bytes nRewind' ∧
        (Failed messageStart fileIn.bytes nRewind' ∨ Resumes blkdat' nRewind')) ∨
      ∃ blkdat' nRewind' nBlockPos block,
        loadTurn messageStart blkdat nRewind = .found blkdat' nRewind' nBlockPos block ∧
        HeadSynced fileIn blkdat' nRewind' ∧ start < nRewind' ∧
        recordsFrom messageStart fileIn.bytes start =
          (nBlockPos, block) :: recordsFrom messageStart fileIn.bytes nRewind' ∧
        Resumes blkdat' nRewind' := by
  have hsmall := fileIn.small
  have hplaced := h.setPos
  rw [← hstart] at hplaced
  have hsource := hplaced.file.source
  have hreader := hplaced.reader
  rw [hplaced.src] at hsource
  obtain ⟨hopen, hlimit⟩ := hplaced.setLimit (show start ≤ 2 ^ 64 - 1 by omega)
  unfold loadTurn
  dsimp only
  obtain ⟨f, hf⟩ : ∃ f, ((blkdat.setPos nRewind).2.setLimit (2 ^ 64 - 1)).2 = f := ⟨_, rfl⟩
  rw [hf] at hopen hlimit ⊢
  have hfind := CBufferedFile.findByte_spec hopen.file (messageStart.bytes.headD 0)
  rw [hopen.src, hopen.placed] at hfind
  rcases hfind with ⟨f₁, hfind, hf₁, honward₁, hless, -, hbefore⟩ | ⟨hnone, f₁, hfind, -⟩
  · have hfound : Placed fileIn f₁ f₁.nReadPos := hopen.onward hf₁ honward₁
    have hlimit₁ := honward₁.limit.trans hlimit
    have hforward := honward₁.reader
    rw [hopen.placed] at hforward
    have hskip := recordsFrom_skip hforward hbefore
    have hat := hfound.src ▸ hf₁.source
    have hgetPos : f₁.getPos = f₁.nReadPos := rfl
    rw [hfind, hskip]
    dsimp only
    rw [hgetPos]
    obtain ⟨pos, hpos⟩ : ∃ pos, f₁.nReadPos = pos := ⟨_, rfl⟩
    rw [hpos] at hfound hskip hforward hless ⊢
    rw [addUInt64_eq (by omega)]
    rcases readFour_spec hfound hlimit₁ with ⟨hmagicFits, f₂, hmagicRead, hf₂, honward₂⟩ | ⟨hshort, f₂, hmagicRead⟩
    · have hlimit₂ := honward₂.limit.trans hlimit₁
      have hahead₂ := honward₂.ahead
      have hsize₁ := hfound.size
      have hrewind₁ := hfound.rewind
      have hnear₁ := hfound.near
      rw [hmagicRead]
      dsimp only
      by_cases hmagic : (fileIn.bytes.drop pos).take 4 = messageStart.bytes
      · rw [if_neg (not_not.mpr hmagic), unserialize_readData]
        rcases readFour_spec hf₂ hlimit₂ with ⟨hsizeFits, f₃, hsizeRead, hf₃, honward₃⟩ | ⟨hshort, f₃, hsizeRead⟩
        · rw [hsizeRead]
          obtain ⟨nSize, hnSize⟩ : ∃ nSize, leNat ((fileIn.bytes.drop (pos + 4)).take 4) = nSize := ⟨_, rfl⟩
          dsimp only [BufferedResult.map]
          rw [hnSize]
          by_cases hrange : nSize < 80 ∨ MAX_BLOCK_SIZE < nSize
          · rw [if_pos hrange]
            have hnone : blockAt messageStart fileIn.bytes pos = none := by
              unfold blockAt
              dsimp only
              rw [hnSize]
              exact if_neg fun hrecord => by omega
            have hahead₃ := honward₃.ahead
            have hsize₂ := hf₂.size
            have hplaced₂ := hf₂.placed
            have hrewind₂ := hf₂.rewind
            have hrewind₃ := hf₃.rewind
            have hplaced₃ := hf₃.placed
            have hresumes : Resumes f₃ (pos + 1) := hf₃.resumes (by omega) (by omega)
            exact .inr (.inl ⟨f₃, pos + 1, rfl, hf₃.toHeadSynced.back (by omega), by omega, recordsFrom_none hnone,
              .inr hresumes⟩)
          · rw [if_neg hrange]
            have hblock := blockAt_eq hmagic (by omega) hnSize hrange
            have hplaced₃ : Placed fileIn f₃ (pos + 8) := hf₃
            rcases readBlock_spec hplaced₃ (show nSize ≤ MAX_BLOCK_SIZE by omega) with
              ⟨block, rest, f₄, hobject, hf₄, hrun, hend⟩ | ⟨hrun, f₄, hobject, hf₄⟩
            · rw [hobject]
              rw [hrun] at hblock
              have hrecords := recordsFrom_some hblock
              rw [← hend] at hrecords
              have hgetPos₃ : f₃.getPos = pos + 8 := hf₃.placed
              refine .inr (.inr ⟨f₄, f₄.getPos, f₃.getPos, block, rfl, hf₄.toHeadSynced, ?_, ?_,
                hf₄.resumes hf₄.near (show f₄.nReadPos < f₄.nReadPos + 8 by omega)⟩)
              · show start < f₄.nReadPos
                omega
              · rw [hgetPos₃]
                exact hrecords
            · rw [hobject]
              rw [hrun] at hblock
              have hfailed : Failed messageStart fileIn.bytes (pos + 1) :=
                ⟨pos, nSize, rfl, hmagic, by omega, hnSize, by omega, by omega, hrun⟩
              exact .inr (.inl ⟨f₄, pos + 1, rfl, hf₄.back (by omega), by omega, recordsFrom_none hblock,
                .inl hfailed⟩)
        · rw [hsizeRead]
          exact .inl ⟨rfl, recordsFrom_end (by omega)⟩
      · rw [if_pos hmagic]
        have hnone : blockAt messageStart fileIn.bytes pos = none := by
          unfold blockAt
          exact if_neg fun hrecord => hmagic hrecord.1
        have hrewind₂ := hf₂.rewind
        have hplaced₂ := hf₂.placed
        have hresumes : Resumes f₂ (pos + 1) := hf₂.resumes (by omega) (by omega)
        exact .inr (.inl ⟨f₂, pos + 1, rfl, hf₂.toHeadSynced.back (by omega), by omega, recordsFrom_none hnone,
          .inr hresumes⟩)
    · rw [hmagicRead]
      exact .inl ⟨rfl, recordsFrom_end (by omega)⟩
  · rw [hfind]
    refine .inl ⟨rfl, ?_⟩
    rw [recordsFrom_skip (Nat.le_add_right start fileIn.bytes.length) fun i hi _ => hnone i hi]
    exact recordsFrom_end (by omega)

variable {σ : Type} {onBlock : σ → BlockRecord → Option (σ × Bool)} {start : σ}

/-- After every failed record the loop can go on. -/
def AlwaysResumes (messageStart : MessageStart) (onBlock : σ → BlockRecord → Option (σ × Bool)) (fileIn : FileBytes)
    (start : σ) : Prop :=
  ∀ s blkdat nRewind, LoadHead messageStart onBlock fileIn start s blkdat nRewind →
    Failed messageStart fileIn.bytes nRewind → Resumes blkdat nRewind

theorem LoadHead.turn {s : σ} (hhead : LoadHead messageStart onBlock fileIn start s blkdat nRewind) :
    HeadSynced fileIn blkdat nRewind ∧ (Failed messageStart fileIn.bytes nRewind ∨ Resumes blkdat nRewind) := by
  induction hhead with
  | start =>
    refine ⟨.start fileIn, .inr ⟨Nat.zero_le _, fun heof => ?_⟩⟩
    obtain ⟨-, hmark⟩ := (Bool.and_eq_true _ _).mp heof
    cases hmark
  | @again s blkdat blkdat' nRewind nRewind' hhead hopen hturn ih =>
    rcases loadTurn_spec messageStart ih.1 rfl with
      ⟨hstop, -⟩ | ⟨f, n, hagain, hf, -, -, hresumes⟩ | ⟨f, n, p, b, hfound, -⟩
    · rw [hstop] at hturn
      exact LoadTurn.noConfusion hturn
    · obtain ⟨rfl, rfl⟩ := LoadTurn.again.inj (hagain.symm.trans hturn)
      exact ⟨hf, hresumes⟩
    · rw [hfound] at hturn
      exact LoadTurn.noConfusion hturn
  | @found s s' blkdat blkdat' nRewind nRewind' nBlockPos block hhead hopen hturn hblock ih =>
    rcases loadTurn_spec messageStart ih.1 rfl with
      ⟨hstop, -⟩ | ⟨f, n, hagain, -⟩ | ⟨f, n, p, b, hfound, hf, -, -, hresumes⟩
    · rw [hstop] at hturn
      exact LoadTurn.noConfusion hturn
    · rw [hagain] at hturn
      exact LoadTurn.noConfusion hturn
    · obtain ⟨rfl, rfl, -, -⟩ := LoadTurn.found.inj (hfound.symm.trans hturn)
      exact ⟨hf, .inr hresumes⟩

/-- The search starts at `nRewind` exactly when the source was not read too far. -/
theorem LoadHead.setPos_iff {s : σ} (hhead : LoadHead messageStart onBlock fileIn start s blkdat nRewind) :
    blkdat.setPos nRewind = (true, { blkdat with nReadPos := nRewind }) ↔ blkdat.nSrcPos ≤ nRewind + blkdat.nRewind :=
  CBufferedFile.setPos_iff hhead.turn.1.file hhead.turn.1.reader

theorem LoadHead.resumes (h : AlwaysResumes messageStart onBlock fileIn start) {s : σ}
    (hhead : LoadHead messageStart onBlock fileIn start s blkdat nRewind) : Resumes blkdat nRewind :=
  hhead.turn.2.elim (h s blkdat nRewind hhead) id

/-- The loop hands on the records that are still to come. -/
theorem loadLoop_eq (h : AlwaysResumes messageStart onBlock fileIn start) {turns : Nat} {s : σ}
    (hturns : fileIn.bytes.length < nRewind + turns)
    (hhead : LoadHead messageStart onBlock fileIn start s blkdat nRewind) :
    loadLoop messageStart onBlock turns s blkdat nRewind =
      foldRecords onBlock s (recordsFrom messageStart fileIn.bytes nRewind) := by
  induction turns generalizing s blkdat nRewind with
  | zero =>
    have hsynced := hhead.turn.1
    have hreader := hsynced.reader
    have hsource := hsynced.file.source
    rw [hsynced.src] at hsource
    omega
  | succ turns ih =>
    have hsynced := hhead.turn.1
    obtain ⟨hnear, hend⟩ := hhead.resumes h
    rw [loadLoop]
    by_cases heof : blkdat.eof = true
    · have hless := hend heof
      rw [hsynced.src] at hless
      rw [if_pos heof, recordsFrom_end hless]
      rfl
    · rw [if_neg heof]
      have hopen := Bool.eq_false_of_not_eq_true heof
      rcases loadTurn_spec messageStart hsynced (Nat.max_eq_left (by omega)).symm with
        ⟨hstop, hnone⟩ | ⟨f, n, hagain, -, hless, hsame, -⟩ | ⟨f, n, p, b, hfound, -, hless, hmore, -⟩
      · rw [hstop, hnone]
        rfl
      · rw [hagain, hsame]
        exact ih (by omega) (.again hhead hopen hagain)
      · rw [hfound, hmore, foldRecords]
        dsimp only
        rcases hblock : onBlock s (p, b) with _ | ⟨s', _ | _⟩
        · rfl
        · exact ih (by omega) (.found hhead hopen hfound hblock)
        · rfl

end

/-- A buffered file does what a file does in exactly the runs that never set it back to more than `nRewind` bytes before
where the source was read up to.  The loader's search starts where it means to under the same condition, and when it can go
on after every failed record it hands on the records of the file and misses none. -/
theorem bufferedFile_asFile_iff (fileIn : FileBytes) :
    (∀ nBufSize nRewindIn : Nat, nRewindIn < nBufSize → nBufSize < 2 ^ 32 →
      ∀ cs, BufferedState.Along BufferedState.InRange (.start fileIn nBufSize nRewindIn) cs →
        (BufferedState.Along BufferedState.AsFile (.start fileIn nBufSize nRewindIn) cs ↔
          BufferedState.Along BufferedState.Near (.start fileIn nBufSize nRewindIn) cs)) ∧
    ∀ (σ : Type) (messageStart : MessageStart) (onBlock : σ → BlockRecord → Option (σ × Bool)) (start : σ),
      (∀ s blkdat nRewind, LoadHead messageStart onBlock fileIn start s blkdat nRewind →
        (blkdat.setPos nRewind = (true, { blkdat with nReadPos := nRewind }) ↔
          blkdat.nSrcPos ≤ nRewind + blkdat.nRewind)) ∧
      (AlwaysResumes messageStart onBlock fileIn start → loadFile messageStart onBlock fileIn start =
            foldRecords onBlock start (recordsFrom messageStart fileIn.bytes 0) ∧
          ∀ pos block nBytes, blockAt messageStart fileIn.bytes pos = some (block, nBytes) →
            (pos + 8, block) ∈ recordsFrom messageStart fileIn.bytes 0 ∨
              ∃ pos' block' nBytes', pos' < pos ∧ pos < pos' + 8 + nBytes' ∧
                blockAt messageStart fileIn.bytes pos' = some (block', nBytes') ∧
                (pos' + 8, block') ∈ recordsFrom messageStart fileIn.bytes 0) := by
  refine ⟨fun nBufSize nRewindIn hrewind hsize cs hrange =>
    (BufferedState.start_synced fileIn hrewind hsize).along_iff hrange, fun σ messageStart onBlock start =>
    ⟨fun s blkdat nRewind hhead => hhead.setPos_iff, fun hresumes => ⟨?_, fun pos block nBytes hblock => ?_⟩⟩⟩
  · exact loadLoop_eq hresumes (show _ < 0 + _ by omega) .start
  · rcases recordsFrom_complete (Nat.zero_le pos) hblock with hmet | ⟨pos', block', nBytes', -, hinside⟩
    · exact .inl hmet
    · exact .inr ⟨pos', block', nBytes', hinside⟩

namespace Example

def tenBytes : FileBytes where
  bytes := [0, 1, 2, 3, 4, 5, 6, 7, 8, 9]
  small := by decide

def readAndRewind : List BufferedCall :=
  [.read 1 (Nat.le_of_ble_eq_true rfl), .setPos ⟨0, by decide⟩]

def magic : MessageStart where
  bytes := [0xfb, 0xc0, 0xb6, 0xdb]
  size := rfl

/-- A file with one block. -/
def oneBlock : FileBytes where
  bytes := magic.bytes ++ (writeData 4 signedBlock.serialize.length ++ signedBlock.serialize)
  small := by decide +kernel

def countBlock (n : Nat) (_ : BlockRecord) : Option (Nat × Bool) :=
  some (n + 1, false)

theorem oneBlock_run : CBlock.unserialize.run ((oneBlock.bytes.drop 8).take
    (leNat ((oneBlock.bytes.drop (0 + 4)).take 4))) = some (signedBlock, []) := by
  have hbytes : (oneBlock.bytes.drop 8).take (leNat ((oneBlock.bytes.drop (0 + 4)).take 4)) =
      signedBlock.serialize ++ [] := by decide +kernel
  rw [hbytes]
  exact CBlock.reads_unserialize signedBlock_wire []

theorem oneBlock_resumes : AlwaysResumes magic countBlock oneBlock 0 := by
  rintro s blkdat nRewind - ⟨pos, nSize, -, hmagic, hlen, rfl, -, -, hfailed⟩
  have honly : ∀ i : Fin oneBlock.bytes.length, (oneBlock.bytes.drop i).take 4 = magic.bytes → i.1 = 0 := by
    decide +kernel
  obtain rfl : pos = 0 := honly ⟨pos, by omega⟩ hmagic
  rw [oneBlock_run] at hfailed
  exact absurd hfailed (Option.some_ne_none _)

end Example

open Example

theorem bufferedFile_asFile_iff_example :
    BufferedState.Along BufferedState.AsFile (.start tenBytes 10 8) readAndRewind ∧
    loadFile magic countBlock oneBlock 0 = foldRecords countBlock 0 (recordsFrom magic oneBlock.bytes 0) := by
  refine ⟨?_, ((bufferedFile_asFile_iff oneBlock).2 Nat magic countBlock 0).2
    oneBlock_resumes |>.1⟩
  refine ((bufferedFile_asFile_iff tenBytes).1 10 8 (by decide) (by decide) readAndRewind ?_).mpr ?_
  · refine ⟨trivial, fun s' hs' => ⟨?_, fun s'' _ => trivial⟩⟩
    cases hs'
    rintro ⟨-, hwraps, -⟩
    exact absurd hwraps (by decide)
  · refine ⟨trivial, fun s' hs' => ⟨fun _ _ => ?_, fun s'' _ => trivial⟩⟩
    cases hs'
    decide

/-- With a buffer of ten bytes of which two are kept, reading one byte reads eight: the reader cannot be set back. -/
theorem bufferedFile_no_rewind :
    ¬ ∀ (fileIn : FileBytes) (nBufSize nRewindIn : Nat), nRewindIn < nBufSize →
      ∀ cs, BufferedState.Along BufferedState.AsFile (.start fileIn nBufSize nRewindIn) cs := by
  intro h
  have hset := ((h tenBytes 10 2 (by decide) readAndRewind).2 _ rfl).1 (by decide) (by decide)
  exact absurd (congrArg Prod.fst hset) (by decide)

end Reddcoin
