import Reddcoin.Lib.Framing
import Reddcoin.Serialize.Primitive

/-!
# Receiving messages

`CNetMessage` and `CNode::ReceiveMsgBytes`: the bytes of a peer come in pieces of any size and are put together to
messages.
-/

namespace Reddcoin

open Stream

variable {msgs : List CNetMessage} {bytes : List UInt8} {done : List CNetMessage} {hdr : CMessageHeader}

structure CMessageHeader where
  pchMessageStart : List UInt8
  pchCommand : List UInt8
  nMessageSize : Nat
  nChecksum : Nat
deriving DecidableEq

namespace CMessageHeader

/-- The default constructor, with the magic bytes of the network. -/
def new (messageStart : List UInt8) : CMessageHeader :=
  { pchMessageStart := messageStart, pchCommand := List.replicate 12 0, nMessageSize := 2 ^ 32 - 1, nChecksum := 0 }

def serialize (hdr : CMessageHeader) : List UInt8 :=
  hdr.pchMessageStart ++ (hdr.pchCommand ++ (writeData 4 hdr.nMessageSize ++ writeData 4 hdr.nChecksum))

def unserialize : Reader UInt8 CMessageHeader := do
  let pchMessageStart ← symbols 4
  let pchCommand ← symbols 12
  let nMessageSize ← readData 4
  let nChecksum ← readData 4
  pure { pchMessageStart := pchMessageStart, pchCommand := pchCommand, nMessageSize := nMessageSize,
         nChecksum := nChecksum }

end CMessageHeader

structure CNetMessage where
  /-- Parsing header (false) or data (true). -/
  in_data : Bool
  /-- Partially received header, less what was read of it. -/
  hdrbuf : List UInt8
  hdr : CMessageHeader
  nHdrPos : Nat
  vRecv : List UInt8
  nDataPos : Nat
  /-- Time of message receipt. -/
  nTime : Int
  /-- The version of the two streams. -/
  nVersion : Int
deriving DecidableEq

/-- `resize`. -/
def resized (buf : List UInt8) (size : Nat) : List UInt8 :=
  buf.take size ++ List.replicate (size - buf.length) 0

/-- What `readHeader` and `readData` return. -/
inductive Handled where
  /-- A copy would go outside its buffer. -/
  | outside
  /-- -1, with the message as it is then. -/
  | failed (msg : CNetMessage)
  | handled (nCopy : Nat) (msg : CNetMessage)

namespace CNetMessage

def new (messageStart : List UInt8) (nVersion : Int) : CNetMessage where
  in_data := false
  hdrbuf := List.replicate 24 0
  hdr := .new messageStart
  nHdrPos := 0
  vRecv := []
  nDataPos := 0
  nTime := 0
  nVersion := nVersion

def complete (msg : CNetMessage) : Bool :=
  if !msg.in_data then false else decide (msg.hdr.nMessageSize = msg.nDataPos)

def readHeader (msg : CNetMessage) (pch : List UInt8) : Handled :=
  -- Copy data to temporary parsing buffer.
  let nCopy := min (24 - msg.nHdrPos) pch.length
  match copyInto msg.hdrbuf msg.nHdrPos (pch.take nCopy) with
  | none => .outside
  | some hdrbuf =>
    let msg := { msg with hdrbuf := hdrbuf, nHdrPos := msg.nHdrPos + nCopy }
    if msg.nHdrPos < 24 then .handled nCopy msg
    else
      match CMessageHeader.unserialize.run msg.hdrbuf with
      | none => .failed msg
      | some (hdr, rest) =>
        let msg := { msg with hdrbuf := rest, hdr := hdr }
        -- Reject messages larger than `MAX_SIZE`.
        if MAX_SIZE < msg.hdr.nMessageSize then .failed msg else .handled nCopy { msg with in_data := true }

def readData (msg : CNetMessage) (pch : List UInt8) : Handled :=
  let nCopy := min (msg.hdr.nMessageSize - msg.nDataPos) pch.length
  -- Allocate up to 256 KiB ahead, but never more than the total message size.
  let vRecv := if msg.vRecv.length < msg.nDataPos + nCopy then
      resized msg.vRecv (min msg.hdr.nMessageSize (msg.nDataPos + nCopy + 256 * 1024))
    else msg.vRecv
  match copyInto vRecv msg.nDataPos (pch.take nCopy) with
  | none => .outside
  | some vRecv => .handled nCopy { msg with vRecv := vRecv, nDataPos := msg.nDataPos + nCopy }

end CNetMessage

section

variable (messageStart : List UInt8) (nRecvVersion : Int)

/-- The current incomplete message, or a new one, and the messages before it. -/
def currentMessage (vRecvMsg : List CNetMessage) : List CNetMessage × CNetMessage :=
  match vRecvMsg.getLast? with
  | none => (vRecvMsg, .new messageStart nRecvVersion)
  | some back => if back.complete then (vRecvMsg, .new messageStart nRecvVersion) else (vRecvMsg.dropLast, back)

/-- The loop of `ReceiveMsgBytes`; `none` when a copy goes outside its buffer or the turns are not enough.  `now` is
`GetTimeMicros()`. -/
def receiveLoop (now : Int) : Nat → List UInt8 → List CNetMessage → Option (Bool × List CNetMessage)
  | 0, _, _ => none
  | turns + 1, pch, vRecvMsg =>
    if pch.isEmpty then some (true, vRecvMsg)
    else
      let (before, msg) := currentMessage messageStart nRecvVersion vRecvMsg
      -- Absorb network data.
      match (if !msg.in_data then msg.readHeader pch else msg.readData pch) with
      | .outside => none
      | .failed msg => some (false, before ++ [msg])
      | .handled nCopy msg =>
        let msg := if msg.complete then { msg with nTime := now } else msg
        receiveLoop now turns (pch.drop nCopy) (before ++ [msg])

/-- `CNode::ReceiveMsgBytes`. -/
def receiveMsgBytes (now : Int) (pch : List UInt8) (vRecvMsg : List CNetMessage) : Option (Bool × List CNetMessage) :=
  receiveLoop messageStart nRecvVersion now (pch.length + 1) pch vRecvMsg

/-- Pieces that are passed one after another, each at its time, until one is refused. -/
def receiveChunks : List (Int × List UInt8) → List CNetMessage → Option (Bool × List CNetMessage)
  | [], vRecvMsg => some (true, vRecvMsg)
  | (now, pch) :: rest, vRecvMsg =>
    match receiveMsgBytes messageStart nRecvVersion now pch vRecvMsg with
    | none => none
    | some (false, vRecvMsg) => some (false, vRecvMsg)
    | some (true, vRecvMsg) => receiveChunks rest vRecvMsg

end

/-- The messages that are complete. -/
def completed (vRecvMsg : List CNetMessage) : List (CMessageHeader × List UInt8) :=
  (vRecvMsg.filter CNetMessage.complete).map fun msg => (msg.hdr, msg.vRecv)

/-- How many bytes of the stream are in the messages. -/
def absorbed (vRecvMsg : List CNetMessage) : Nat :=
  (vRecvMsg.map fun msg => msg.nHdrPos + msg.nDataPos).sum

end Reddcoin

/-!
## Pieces of a stream of messages

`ReceiveMsgBytes` does to the messages what absorbing the bytes one by one does, so the pieces in which the bytes come do
not matter.
-/

namespace Reddcoin

open Stream

/-! ## Headers -/

theorem reads_unserialize_header (hdr : CMessageHeader) (hstart : hdr.pchMessageStart.length = 4)
    (hcommand : hdr.pchCommand.length = 12) (hsize : hdr.nMessageSize < 256 ^ 4) (hchecksum : hdr.nChecksum < 256 ^ 4) :
    Reads CMessageHeader.unserialize hdr.serialize hdr := by
  have hreadStart := reads_symbols hdr.pchMessageStart
  have hreadCommand := reads_symbols hdr.pchCommand
  rw [hstart] at hreadStart
  rw [hcommand] at hreadCommand
  exact reads_bind hreadStart (reads_bind hreadCommand (reads_bind (reads_readData hsize)
    (reads_last (reads_readData hchecksum) (reads_pure hdr))))

/-- Any 24 bytes are read as a header. -/
theorem unserialize_header (h : bytes.length = 24) :
    ∃ hdr, CMessageHeader.unserialize.run bytes = some (hdr, []) ∧ hdr.serialize = bytes := by
  have hsize : ((bytes.drop 16).take 4).length = 4 := by
    rw [List.length_take, List.length_drop]
    omega
  have hchecksum : (bytes.drop 20).length = 4 := by
    rw [List.length_drop]
    omega
  have hdrop : ∀ k l, (bytes.drop k).take l ++ bytes.drop (k + l) = bytes.drop k := by
    intro k l
    rw [← List.drop_drop, List.take_append_drop]
  have hwriteSize := writeData_leNat ((bytes.drop 16).take 4)
  have hwriteChecksum := writeData_leNat (bytes.drop 20)
  have hsizeLt := leNat_lt ((bytes.drop 16).take 4)
  have hchecksumLt := leNat_lt (bytes.drop 20)
  rw [hsize] at hwriteSize hsizeLt
  rw [hchecksum] at hwriteChecksum hchecksumLt
  have hbytes : (CMessageHeader.mk (bytes.take 4) ((bytes.drop 4).take 12) (leNat ((bytes.drop 16).take 4))
      (leNat (bytes.drop 20))).serialize = bytes := by
    unfold CMessageHeader.serialize
    dsimp only
    rw [hwriteSize, hwriteChecksum, hdrop 16 4, hdrop 4 12, List.take_append_drop]
  have hread : Reads CMessageHeader.unserialize bytes (CMessageHeader.mk (bytes.take 4) ((bytes.drop 4).take 12)
      (leNat ((bytes.drop 16).take 4)) (leNat (bytes.drop 20))) := by
    have hreads := reads_unserialize_header (CMessageHeader.mk (bytes.take 4) ((bytes.drop 4).take 12)
      (leNat ((bytes.drop 16).take 4)) (leNat (bytes.drop 20))) (by simp [h]) (by simp [h]) hsizeLt hchecksumLt
    rwa [hbytes] at hreads
  have hrun := hread []
  rw [List.append_nil] at hrun
  exact ⟨_, hrun, hbytes⟩

/-- The framing of messages: a header of 24 bytes, refused when it announces too much. -/
def messageFormat : Framing.Format UInt8 CMessageHeader where
  headerSize := 24
  headerSize_pos := by decide
  decode bytes :=
    match CMessageHeader.unserialize.run bytes with
    | none => none
    | some (hdr, _) => if MAX_SIZE < hdr.nMessageSize then none else some hdr
  dataSize := CMessageHeader.nMessageSize

theorem decode_eq {bytes rest : List UInt8} (h : CMessageHeader.unserialize.run bytes = some (hdr, rest)) :
    messageFormat.decode bytes = if MAX_SIZE < hdr.nMessageSize then none else some hdr := by
  unfold messageFormat
  dsimp only
  rw [h]

theorem serialize_of_decode (bytes : List UInt8) (hdr : CMessageHeader) (hlen : bytes.length = messageFormat.headerSize)
    (h : messageFormat.decode bytes = some hdr) : hdr.serialize = bytes := by
  obtain ⟨hdr', hrun, hbytes⟩ := unserialize_header hlen
  rw [decode_eq hrun] at h
  split_ifs at h
  exact Option.some.inj h ▸ hbytes

/-! ## Resized buffers -/

theorem length_resized (buf : List UInt8) {size : Nat} (h : buf.length ≤ size) : (resized buf size).length = size := by
  rw [resized, List.length_append, List.length_take, List.length_replicate]
  omega

theorem take_resized {buf : List UInt8} {size n : Nat} (h : buf.length ≤ size) (hn : n ≤ buf.length) :
    (resized buf size).take n = buf.take n := by
  rw [resized, List.take_of_length_le h, List.take_append_of_le_length hn]

/-! ## The messages and the bytes they hold -/

/-- A complete message. -/
structure Done (m : CNetMessage) : Prop where
  in_data : m.in_data = true
  header : m.nHdrPos = 24
  whole : m.hdr.nMessageSize = m.nDataPos
  data : m.vRecv.length = m.nDataPos

/-- A message of which a part of the header is there. -/
structure InHeader (m : CNetMessage) (bytes : List UInt8) : Prop where
  in_data : m.in_data = false
  buffer : m.hdrbuf.length = 24
  header : m.nHdrPos = bytes.length
  part : bytes.length < 24
  copied : m.hdrbuf.take m.nHdrPos = bytes
  data : m.vRecv = [] ∧ m.nDataPos = 0

/-- A message of which the header and a part of the data are there, in a buffer that may be longer. -/
structure InData (m : CNetMessage) (hdr : CMessageHeader) (bytes : List UInt8) : Prop where
  in_data : m.in_data = true
  sameHdr : m.hdr = hdr
  header : m.nHdrPos = 24
  bytesRead : m.nDataPos = bytes.length
  copied : m.vRecv.take bytes.length = bytes
  room : m.vRecv.length ≤ hdr.nMessageSize

/-- A message whose header was refused. -/
structure Refused (m : CNetMessage) (bytes : List UInt8) : Prop where
  in_data : m.in_data = false
  header : m.nHdrPos = 24 ∧ bytes.length = 24
  data : m.nDataPos = 0

def frameOf (m : CNetMessage) : CMessageHeader × List UInt8 :=
  (m.hdr, m.vRecv)

/-- The messages stand for a state of the framing. -/
inductive Represents : List CNetMessage → Framing.State UInt8 CMessageHeader → Prop where
  | settled {done : List CNetMessage} (all : ∀ m ∈ done, Done m) :
      Represents done { messages := done.map frameOf, current := .header [] }
  | header {done : List CNetMessage} {m : CNetMessage} {bytes : List UInt8} (all : ∀ m ∈ done, Done m)
      (current : InHeader m bytes) :
      Represents (done ++ [m]) { messages := done.map frameOf, current := .header bytes }
  | data {done : List CNetMessage} {m : CNetMessage} {hdr : CMessageHeader} {bytes : List UInt8}
      (all : ∀ m ∈ done, Done m) (current : InData m hdr bytes) (part : bytes.length < hdr.nMessageSize) :
      Represents (done ++ [m]) { messages := done.map frameOf, current := .data hdr bytes }
  | refused {done : List CNetMessage} {m : CNetMessage} {bytes : List UInt8} (all : ∀ m ∈ done, Done m)
      (current : Refused m bytes) :
      Represents (done ++ [m]) { messages := done.map frameOf, current := .refused bytes }

section

variable {m : CNetMessage}

theorem Done.complete (h : Done m) : m.complete = true := by
  unfold CNetMessage.complete
  rw [h.in_data]
  exact decide_eq_true h.whole

theorem InHeader.not_complete (h : InHeader m bytes) : m.complete = false := by
  unfold CNetMessage.complete
  rw [h.in_data]
  rfl

theorem InData.not_complete (h : InData m hdr bytes)
    (hpart : bytes.length < hdr.nMessageSize) : m.complete = false := by
  have hne : m.hdr.nMessageSize ≠ m.nDataPos := by
    rw [h.sameHdr, h.bytesRead]
    omega
  unfold CNetMessage.complete
  rw [h.in_data]
  exact decide_eq_false hne

/-- All the data is there: the buffer holds nothing else. -/
theorem InData.done (h : InData m hdr bytes)
    (hfull : bytes.length = hdr.nMessageSize) : Done m ∧ frameOf m = (hdr, bytes) := by
  have hroom := h.room
  have hdata : m.vRecv = bytes := by
    rw [← h.copied, List.take_of_length_le (by omega)]
  refine ⟨⟨h.in_data, h.header, ?_, ?_⟩, Prod.ext h.sameHdr hdata⟩
  · rw [h.sameHdr, h.bytesRead, hfull]
  · rw [hdata, h.bytesRead]

theorem Refused.not_complete (h : Refused m bytes) : m.complete = false := by
  unfold CNetMessage.complete
  rw [h.in_data]
  rfl

end

/-! ## One turn -/

section

variable {m : CNetMessage} {bytes pch : List UInt8} {hdr : CMessageHeader}

theorem inHeader_new (messageStart : List UInt8) (nVersion : Int) :
    InHeader (.new messageStart nVersion) [] :=
  ⟨rfl, rfl, rfl, by decide, rfl, rfl, rfl⟩

/-- The copy that `readHeader` makes. -/
theorem copyInto_header (h : InHeader m bytes) (piece : List UInt8) (hle : bytes.length + piece.length ≤ 24) :
    ∃ buf, copyInto m.hdrbuf m.nHdrPos piece = some buf ∧ buf.length = 24 ∧
      buf.take (m.nHdrPos + piece.length) = bytes ++ piece := by
  have hroom : m.nHdrPos + piece.length ≤ m.hdrbuf.length := by
    rw [h.header, h.buffer]
    exact hle
  obtain ⟨buf, hbuf, hlen, hcopied'⟩ := copyInto_eq hroom
  refine ⟨buf, hbuf, hlen.trans h.buffer, ?_⟩
  rw [hcopied', h.copied]

theorem readHeader_part (h : InHeader m bytes) (hpart : bytes.length + pch.length < 24) :
    ∃ m', m.readHeader pch = .handled pch.length m' ∧ InHeader m' (bytes ++ pch) := by
  have hheader := h.header
  obtain ⟨buf, hbuf, hlen, hcopied'⟩ := copyInto_header h pch (by omega)
  have hcopy : min (24 - m.nHdrPos) pch.length = pch.length := by omega
  unfold CNetMessage.readHeader
  dsimp only
  rw [hcopy, List.take_length, hbuf]
  dsimp only
  rw [if_pos (by omega)]
  refine ⟨_, rfl, h.in_data, hlen, ?_, ?_, hcopied', h.data⟩
  · rw [List.length_append, hheader]
  · rw [List.length_append]
    exact hpart

/-- The header is completed; the message takes it over, or refuses it. -/
theorem readHeader_full (pch : List UInt8) (h : InHeader m bytes) (hfull : 24 ≤ bytes.length + pch.length) :
    (messageFormat.decode (bytes ++ pch.take (24 - bytes.length)) = none ∧
        ∃ m', m.readHeader pch = .failed m' ∧ Refused m' (bytes ++ pch.take (24 - bytes.length))) ∨
      ∃ hdr m', messageFormat.decode (bytes ++ pch.take (24 - bytes.length)) = some hdr ∧
        m.readHeader pch = .handled (24 - bytes.length) m' ∧ InData m' hdr [] := by
  have hpart := h.part
  have hheader := h.header
  have htake : (pch.take (24 - bytes.length)).length = 24 - bytes.length := List.length_take_of_le (by omega)
  obtain ⟨buf, hbuf, hlen, hcopied'⟩ := copyInto_header h (pch.take (24 - bytes.length)) (by omega)
  have hcopy : min (24 - m.nHdrPos) pch.length = 24 - bytes.length := by omega
  have hwhole : buf = bytes ++ pch.take (24 - bytes.length) := by
    rw [← hcopied', List.take_of_length_le (by omega)]
  have hwholeLen : (bytes ++ pch.take (24 - bytes.length)).length = 24 := hwhole ▸ hlen
  obtain ⟨hdr, hrun, -⟩ := unserialize_header hwholeLen
  have hread : m.readHeader pch = if MAX_SIZE < hdr.nMessageSize then
        .failed { m with hdrbuf := [], nHdrPos := m.nHdrPos + (24 - bytes.length), hdr := hdr }
      else
        .handled (24 - bytes.length)
          { m with hdrbuf := [], nHdrPos := m.nHdrPos + (24 - bytes.length), hdr := hdr, in_data := true } := by
    unfold CNetMessage.readHeader
    dsimp only
    rw [hcopy, hbuf]
    dsimp only
    rw [if_neg (by omega), hwhole, hrun]
  rw [decode_eq hrun, hread]
  split_ifs with hsize
  · exact .inl ⟨rfl, _, rfl, h.in_data, ⟨by dsimp only; omega, hwholeLen⟩, h.data.2⟩
  · refine .inr ⟨hdr, _, rfl, rfl, rfl, rfl, by dsimp only; omega, h.data.2, rfl, ?_⟩
    show m.vRecv.length ≤ hdr.nMessageSize
    rw [h.data.1]
    exact Nat.zero_le _

/-- Data is copied to where the data before it ends, in a buffer that grows when it is too short. -/
theorem readData_spec (pch : List UInt8) (h : InData m hdr bytes) (hpart : bytes.length < hdr.nMessageSize) :
    ∃ m', m.readData pch = .handled (min (hdr.nMessageSize - bytes.length) pch.length) m' ∧
      InData m' hdr (bytes ++ pch.take (min (hdr.nMessageSize - bytes.length) pch.length)) := by
  obtain ⟨piece, hpiece⟩ : ∃ piece, pch.take (min (hdr.nMessageSize - bytes.length) pch.length) = piece := ⟨_, rfl⟩
  have hcopy : min (hdr.nMessageSize - bytes.length) pch.length = piece.length := by
    rw [← hpiece, List.length_take_of_le (Nat.min_le_right _ _)]
  have hroom := h.room
  have hbytes : bytes.length ≤ m.vRecv.length := by
    have hlen := congrArg List.length h.copied
    rw [List.length_take] at hlen
    omega
  -- The buffer after it has grown, if it has.
  have hgrown : ∃ buf, (if m.vRecv.length < m.nDataPos + piece.length then
        resized m.vRecv (min m.hdr.nMessageSize (m.nDataPos + piece.length + 256 * 1024)) else m.vRecv) = buf ∧
      buf.take bytes.length = bytes ∧ bytes.length + piece.length ≤ buf.length ∧
      buf.length ≤ hdr.nMessageSize := by
    rw [h.bytesRead, h.sameHdr]
    refine ⟨_, rfl, ?_⟩
    split_ifs with hshort
    · have hsize : m.vRecv.length ≤ min hdr.nMessageSize (bytes.length + piece.length + 256 * 1024) := by omega
      rw [length_resized _ hsize, take_resized hsize hbytes]
      exact ⟨h.copied, by omega, by omega⟩
    · exact ⟨h.copied, by omega, hroom⟩
  obtain ⟨buf, hbuf, hkept, hfits, hsize⟩ := hgrown
  obtain ⟨buf', hcopied, hlen, hcopied'⟩ := copyInto_eq hfits
  have hnCopy : min (m.hdr.nMessageSize - m.nDataPos) pch.length = piece.length := by
    rw [h.sameHdr, h.bytesRead]
    exact hcopy
  have hread : m.readData pch = .handled piece.length { m with vRecv := buf', nDataPos := m.nDataPos + piece.length } := by
    unfold CNetMessage.readData
    dsimp only
    rw [hnCopy, ← hcopy, hpiece, hcopy, hbuf, h.bytesRead, hcopied]
  rw [hpiece, hcopy, hread]
  refine ⟨_, rfl, h.in_data, h.sameHdr, h.header, ?_, ?_, ?_⟩
  · rw [List.length_append, ← h.bytesRead]
  · rw [List.length_append, hcopied', hkept]
  · exact hlen ▸ hsize

/-- What a message holds after its header is put behind the messages. -/
theorem Represents.settle (all : ∀ m ∈ done, Done m) (h : InData m hdr bytes) (hle : bytes.length ≤ hdr.nMessageSize) :
    Represents (done ++ [m]) (.settle messageFormat (done.map frameOf) hdr bytes) := by
  unfold Framing.State.settle
  split_ifs with hfull
  · obtain ⟨hdone, hframe⟩ := h.done hfull
    have hmessages : done.map frameOf ++ [(hdr, bytes)] = (done ++ [m]).map frameOf := by
      rw [List.map_append, List.map_singleton, hframe]
    rw [hmessages]
    refine .settled fun m' hm' => ?_
    rcases List.mem_append.mp hm' with hm' | hm'
    · exact all m' hm'
    · exact List.mem_singleton.mp hm' ▸ hdone
  · exact .data all h (lt_of_le_of_ne hle hfull)

theorem InData.timed (h : InData m hdr bytes) (now : Int) :
    InData (if m.complete then { m with nTime := now } else m) hdr bytes := by
  split_ifs
  · exact ⟨h.in_data, h.sameHdr, h.header, h.bytesRead, h.copied, h.room⟩
  · exact h

end

/-- The message that the next bytes go to. -/
theorem currentMessage_spec (messageStart : List UInt8) (nRecvVersion : Int) {s : Framing.State UInt8 CMessageHeader}
    (h : Represents msgs s)
    (hopen : ¬ ∃ symbols, s.current = .refused symbols) :
    ∃ done m, currentMessage messageStart nRecvVersion msgs = (done, m) ∧ (∀ m' ∈ done, Done m') ∧
      ((∃ bytes, s = { messages := done.map frameOf, current := .header bytes } ∧ InHeader m bytes) ∨
        ∃ hdr bytes, s = { messages := done.map frameOf, current := .data hdr bytes } ∧ InData m hdr bytes ∧
          bytes.length < hdr.nMessageSize) := by
  have hback : ∀ (done : List CNetMessage) (m : CNetMessage), m.complete = false →
      currentMessage messageStart nRecvVersion (done ++ [m]) = (done, m) := by
    intro done m hm
    unfold currentMessage
    rw [List.getLast?_append, List.dropLast_concat]
    exact if_neg (show ¬ m.complete = true by rw [hm]; decide)
  cases h with
  | settled all =>
    refine ⟨msgs, .new messageStart nRecvVersion, ?_, all, .inl ⟨[], rfl, inHeader_new _ _⟩⟩
    unfold currentMessage
    cases hlast : msgs.getLast? with
    | none => rfl
    | some back => exact if_pos (all back (List.mem_of_getLast? hlast)).complete
  | @header done m bytes all current =>
    exact ⟨done, m, hback done m current.not_complete, all, .inl ⟨bytes, rfl, current⟩⟩
  | @data done m hdr bytes all current part =>
    exact ⟨done, m, hback done m (current.not_complete part), all, .inr ⟨hdr, bytes, rfl, current, part⟩⟩
  | @refused done m bytes all current => exact absurd ⟨bytes, rfl⟩ hopen

/-- The call that one turn of the loop makes. -/
def CNetMessage.absorbData (msg : CNetMessage) (pch : List UInt8) : Handled :=
  if !msg.in_data then msg.readHeader pch else msg.readData pch

/-- One turn takes some of the bytes and does what absorbing them one by one does. -/
theorem Represents.absorbData {m : CNetMessage} {s : Framing.State UInt8 CMessageHeader}
    {pch : List UInt8} (now : Int) (hne : pch ≠ []) (all : ∀ m' ∈ done, Done m')
    (h : (∃ bytes, s = { messages := done.map frameOf, current := .header bytes } ∧ InHeader m bytes) ∨
        ∃ hdr bytes, s = { messages := done.map frameOf, current := .data hdr bytes } ∧ InData m hdr bytes ∧
          bytes.length < hdr.nMessageSize) :
    (∃ m', m.absorbData pch = .failed m' ∧ Represents (done ++ [m']) (s.feed messageFormat pch) ∧
        ∃ symbols, (s.feed messageFormat pch).current = .refused symbols) ∨
      ∃ nCopy m', m.absorbData pch = .handled nCopy m' ∧ 0 < nCopy ∧ nCopy ≤ pch.length ∧
        Represents (done ++ [if m'.complete then { m' with nTime := now } else m'])
          (s.feed messageFormat (pch.take nCopy)) ∧
        ¬ ∃ symbols, (s.feed messageFormat (pch.take nCopy)).current = .refused symbols := by
  have hpos := List.length_pos_iff.mpr hne
  rcases h with ⟨bytes, rfl, hm⟩ | ⟨hdr, bytes, rfl, hm, hpart⟩
  · have hcall : m.absorbData pch = m.readHeader pch := if_pos (by rw [hm.in_data]; rfl)
    rw [hcall]
    by_cases hshort : bytes.length + pch.length < 24
    · obtain ⟨m', hread, hm'⟩ := readHeader_part hm hshort
      refine .inr ⟨pch.length, m', hread, hpos, le_refl _, ?_⟩
      rw [List.take_length, Framing.State.feed_header hshort, hm'.not_complete]
      exact ⟨.header all hm', by rintro ⟨_, h⟩; cases h⟩
    · have hpart := hm.part
      obtain ⟨nCopy, hnCopy⟩ : ∃ nCopy, 24 - bytes.length = nCopy := ⟨_, rfl⟩
      have htake : (pch.take nCopy).length = nCopy := List.length_take_of_le (by omega)
      have hfeed : Framing.State.feed messageFormat { messages := done.map frameOf, current := .header bytes }
          (pch.take nCopy) = .settleHeader messageFormat (done.map frameOf) (bytes ++ pch.take nCopy) :=
        Framing.State.feed_header_full (List.length_pos_iff.mp (by omega)) (by rw [htake]; show _ = 24; omega)
      have hfull := readHeader_full pch hm (by omega)
      rw [hnCopy] at hfull
      rcases hfull with ⟨hdecode, m', hread, hm'⟩ | ⟨hdr, m', hdecode, hread, hm'⟩
      · rw [Framing.State.settleHeader, hdecode] at hfeed
        left
        have hall : Framing.State.feed messageFormat { messages := done.map frameOf, current := .header bytes } pch =
            { messages := done.map frameOf, current := .refused (bytes ++ pch.take nCopy) } := by
          rw [← List.take_append_drop nCopy pch, Framing.State.feed_append, hfeed, List.take_append_drop]
          exact Framing.State.feed_refused _
        rw [hall]
        exact ⟨m', hread, .refused all hm', _, rfl⟩
      · rw [Framing.State.settleHeader, hdecode] at hfeed
        refine .inr ⟨nCopy, m', hread, by omega, by omega, ?_⟩
        rw [hfeed]
        exact ⟨.settle all (hm'.timed now) (Nat.zero_le _), Framing.State.settle_open _ _ _⟩
  · have hcall : m.absorbData pch = m.readData pch := if_neg (by rw [hm.in_data]; decide)
    obtain ⟨m', hread, hm'⟩ := readData_spec pch hm hpart
    obtain ⟨nCopy, hnCopy⟩ : ∃ nCopy, min (hdr.nMessageSize - bytes.length) pch.length = nCopy := ⟨_, rfl⟩
    have htake : (pch.take nCopy).length = nCopy := List.length_take_of_le (by omega)
    have hlen : (bytes ++ pch.take nCopy).length = bytes.length + nCopy := by rw [List.length_append, htake]
    rw [hnCopy] at hread hm'
    have hfeed : Framing.State.feed messageFormat { messages := done.map frameOf, current := .data hdr bytes }
        (pch.take nCopy) = .settle messageFormat (done.map frameOf) hdr (bytes ++ pch.take nCopy) :=
      Framing.State.feed_data_settle (List.length_pos_iff.mp (by omega))
        (by rw [htake]; show _ ≤ hdr.nMessageSize; omega)
    refine .inr ⟨nCopy, m', hcall.trans hread, by omega, by omega, ?_⟩
    rw [hfeed]
    exact ⟨.settle all (hm'.timed now) (by omega), Framing.State.settle_open _ _ _⟩

/-! ## Whole pieces -/

section

variable {messageStart : List UInt8} {nRecvVersion : Int}

/-- The loop absorbs its bytes, and fails when a header is refused. -/
theorem receiveLoop_spec (now : Int) {turns : Nat} {pch : List UInt8} (hturns : pch.length < turns)
    {s : Framing.State UInt8 CMessageHeader} (h : Represents msgs s)
    (hopen : ¬ ∃ symbols, s.current = .refused symbols) :
    ∃ ok msgs', receiveLoop messageStart nRecvVersion now turns pch msgs = some (ok, msgs') ∧
      Represents msgs' (s.feed messageFormat pch) ∧
      (ok = false ↔ ∃ symbols, (s.feed messageFormat pch).current = .refused symbols) := by
  induction turns generalizing pch msgs s with
  | zero => exact absurd hturns (Nat.not_lt_zero _)
  | succ turns ih =>
    cases pch with
    | nil =>
      refine ⟨true, msgs, rfl, h, iff_of_false (by decide) hopen⟩
    | cons b pch =>
      obtain ⟨done, m, hcurrent, all, hm⟩ := currentMessage_spec messageStart nRecvVersion h hopen
      rcases Represents.absorbData now (List.cons_ne_nil b pch) all hm with
        ⟨m', hcall, hm', hrefused⟩ | ⟨nCopy, m', hcall, hpos, hle, hm', hstill⟩
      · refine ⟨false, done ++ [m'], ?_, hm', iff_of_true rfl hrefused⟩
        rw [CNetMessage.absorbData] at hcall
        rw [receiveLoop, hcurrent]
        dsimp only
        rw [hcall]
        rfl
      · have hrest : ((b :: pch).drop nCopy).length < turns := by
          rw [List.length_drop]
          omega
        obtain ⟨ok, msgs', hloop, hmsgs', hok⟩ := ih hrest hm' hstill
        rw [← Framing.State.feed_append, List.take_append_drop] at hmsgs' hok
        refine ⟨ok, msgs', ?_, hmsgs', hok⟩
        rw [CNetMessage.absorbData] at hcall
        rw [receiveLoop, hcurrent]
        dsimp only
        rw [hcall]
        exact hloop

end

theorem receiveMsgBytes_spec (messageStart : List UInt8) (nRecvVersion now : Int) (pch : List UInt8)
    {s : Framing.State UInt8 CMessageHeader} (h : Represents msgs s)
    (hopen : ¬ ∃ symbols, s.current = .refused symbols) :
    ∃ ok msgs', receiveMsgBytes messageStart nRecvVersion now pch msgs = some (ok, msgs') ∧
      Represents msgs' (s.feed messageFormat pch) ∧
      (ok = false ↔ ∃ symbols, (s.feed messageFormat pch).current = .refused symbols) :=
  receiveLoop_spec now (Nat.lt_succ_self _) h hopen

/-- Pieces do what their bytes in one piece do. -/
theorem receiveChunks_spec (messageStart : List UInt8) (nRecvVersion : Int) (chunks : List (Int × List UInt8))
    {s : Framing.State UInt8 CMessageHeader} (h : Represents msgs s)
    (hopen : ¬ ∃ symbols, s.current = .refused symbols) :
    ∃ ok msgs', receiveChunks messageStart nRecvVersion chunks msgs = some (ok, msgs') ∧
      Represents msgs' (s.feed messageFormat (chunks.flatMap Prod.snd)) ∧
      (ok = false ↔ ∃ symbols, (s.feed messageFormat (chunks.flatMap Prod.snd)).current = .refused symbols) := by
  induction chunks generalizing msgs s with
  | nil => exact ⟨true, msgs, rfl, h, iff_of_false (by decide) hopen⟩
  | cons chunk chunks ih =>
    obtain ⟨now, pch⟩ := chunk
    obtain ⟨ok, msgs', hreceive, hmsgs', hok⟩ :=
      receiveMsgBytes_spec messageStart nRecvVersion now pch h hopen
    rw [List.flatMap_cons, Framing.State.feed_append]
    cases ok with
    | false =>
      -- The bytes behind a refused header are not looked at.
      have hrefused := hok.mp rfl
      have hsame : (s.feed messageFormat pch).feed messageFormat (chunks.flatMap Prod.snd) =
          s.feed messageFormat pch := by
        obtain ⟨symbols, hsymbols⟩ := hrefused
        rw [Framing.State.eq_refused hsymbols]
        exact Framing.State.feed_refused _
      rw [hsame]
      refine ⟨false, msgs', ?_, hmsgs', hok⟩
      rw [receiveChunks, hreceive]
    | true =>
      have hstill := mt hok.mpr (by decide)
      obtain ⟨ok, msgs'', hchunks, hmsgs'', hok'⟩ := ih hmsgs' hstill
      refine ⟨ok, msgs'', ?_, hmsgs'', hok'⟩
      rw [receiveChunks, hreceive]
      exact hchunks

theorem completed_concat (all : ∀ m ∈ done, Done m) {m : CNetMessage}
    (hm : m.complete = false) : completed (done ++ [m]) = done.map frameOf := by
  have hdone : done.filter CNetMessage.complete = done :=
    List.filter_eq_self.mpr fun m' hm' => (all m' hm').complete
  have hlast : [m].filter CNetMessage.complete = [] := by
    rw [List.filter_cons_of_neg (by rw [hm]; decide), List.filter_nil]
  rw [completed, List.filter_append, hdone, hlast, List.append_nil]
  rfl

/-- The complete messages are the framing's. -/
theorem Represents.completed_eq {s : Framing.State UInt8 CMessageHeader}
    (h : Represents msgs s) : completed msgs = s.messages := by
  cases h with
  | settled all =>
    rw [completed, List.filter_eq_self.mpr fun m' hm' => (all m' hm').complete]
    rfl
  | header all current | refused all current => exact completed_concat all current.not_complete
  | data all current part => exact completed_concat all (current.not_complete part)

/-- How many symbols a state of the framing stands for. -/
def symbolsOf : Framing.Current UInt8 CMessageHeader → Nat
  | .header symbols => symbols.length
  | .data _ symbols => 24 + symbols.length
  | .refused symbols => symbols.length

theorem absorbed_done (all : ∀ m ∈ done, Done m) :
    absorbed done = ((done.map frameOf).map fun m => 24 + m.2.length).sum := by
  rw [absorbed, List.map_map]
  refine congrArg List.sum (List.map_congr_left fun m hm => ?_)
  show m.nHdrPos + m.nDataPos = 24 + m.vRecv.length
  rw [(all m hm).header, (all m hm).data]

theorem absorbed_concat (done : List CNetMessage) (m : CNetMessage) :
    absorbed (done ++ [m]) = absorbed done + (m.nHdrPos + m.nDataPos) := by
  rw [absorbed, List.map_append, List.sum_append, List.map_singleton, List.sum_singleton]
  rfl

theorem Represents.absorbed_eq {s : Framing.State UInt8 CMessageHeader} (h : Represents msgs s) :
    absorbed msgs = (s.messages.map fun m => 24 + m.2.length).sum + symbolsOf s.current := by
  cases h with
  | settled all => exact absorbed_done all
  | header all current =>
    rw [absorbed_concat, absorbed_done all, current.header, current.data.2]
    rfl
  | data all current part =>
    rw [absorbed_concat, absorbed_done all, current.header, current.bytesRead]
    rfl
  | refused all current =>
    rw [absorbed_concat, absorbed_done all, current.header.1, current.data, symbolsOf, current.header.2]

/-- However a stream is cut, it gives the same complete messages, which are the stream's bytes, and is refused at the same
byte; no copy goes outside its buffer, and the loop ends. -/
theorem receiveChunks_eq (messageStart : List UInt8) (nRecvVersion now : Int) (chunks : List (Int × List UInt8)) :
    ∃ ok whole pieces, receiveMsgBytes messageStart nRecvVersion now (chunks.flatMap Prod.snd) [] = some (ok, whole) ∧
      receiveChunks messageStart nRecvVersion chunks [] = some (ok, pieces) ∧
      completed pieces = completed whole ∧ absorbed pieces = absorbed whole ∧
      (∀ m ∈ completed whole, m.2.length = m.1.nMessageSize) ∧
      ∃ rest, chunks.flatMap Prod.snd = ((completed whole).flatMap fun m => m.1.serialize ++ m.2) ++ rest := by
  have hstart : Represents [] (.start : Framing.State UInt8 CMessageHeader) := .settled (by simp)
  have hopen : ¬ ∃ symbols, (Framing.State.start : Framing.State UInt8 CMessageHeader).current = .refused symbols := by
    rintro ⟨_, h⟩
    cases h
  obtain ⟨ok, whole, hwhole, hrepWhole, hok⟩ := receiveMsgBytes_spec messageStart nRecvVersion now
    (chunks.flatMap Prod.snd) hstart hopen
  obtain ⟨ok', pieces, hpieces, hrepPieces, hok'⟩ := receiveChunks_spec messageStart nRecvVersion chunks
    hstart hopen
  have hsame : ok' = ok := by
    cases ok <;> cases ok' <;> simp_all
  obtain ⟨hcomplete, rest, hrest, -⟩ := Framing.State.feed_sound serialize_of_decode
    (s := (.start : Framing.State UInt8 CMessageHeader)) (by simp [Framing.State.start]) (chunks.flatMap Prod.snd)
  rw [hsame] at hpieces
  refine ⟨ok, whole, pieces, hwhole, hpieces, ?_, ?_, ?_, ?_⟩
  · rw [hrepPieces.completed_eq, hrepWhole.completed_eq]
  · rw [hrepPieces.absorbed_eq, hrepWhole.absorbed_eq]
  · rw [hrepWhole.completed_eq]
    exact hcomplete
  · rw [hrepWhole.completed_eq]
    refine ⟨Framing.State.currentSymbols CMessageHeader.serialize
      (Framing.State.feed messageFormat .start (chunks.flatMap Prod.snd)).current ++ rest, ?_⟩
    rw [← List.append_assoc]
    exact hrest

end Reddcoin
