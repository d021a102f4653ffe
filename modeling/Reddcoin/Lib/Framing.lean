import Mathlib.Algebra.BigOperators.Group.List.Basic

/-!
# Framing

A stream of symbols is cut into messages: a header of fixed size, which may be refused, and as much data as the header
says.  The symbols are absorbed one by one, so it does not matter in which pieces they come.
-/

namespace Framing

open List

structure Format (B H : Type) where
  headerSize : Nat
  headerSize_pos : 0 < headerSize
  /-- The header in a full header's symbols; none when it is refused. -/
  decode : List B → Option H
  dataSize : H → Nat

/-- What is there of the message that comes. -/
inductive Current (B H : Type) where
  | header (symbols : List B)
  | data (hdr : H) (symbols : List B)
  | refused (symbols : List B)

structure State (B H : Type) where
  messages : List (H × List B)
  current : Current B H

variable {B H : Type}

def State.start : State B H :=
  { messages := [], current := .header [] }

/-- A message that is complete is put behind the others. -/
def State.settle (F : Format B H) (messages : List (H × List B)) (hdr : H) (symbols : List B) : State B H :=
  if symbols.length = F.dataSize hdr then { messages := messages ++ [(hdr, symbols)], current := .header [] }
  else { messages := messages, current := .data hdr symbols }

/-- The symbols of a full header. -/
def State.settleHeader (F : Format B H) (messages : List (H × List B)) (symbols : List B) : State B H :=
  match F.decode symbols with
  | none => { messages := messages, current := .refused symbols }
  | some hdr => .settle F messages hdr []

namespace State

variable (F : Format B H)

def absorb (s : State B H) (b : B) : State B H :=
  match s.current with
  | .header symbols =>
    if (symbols ++ [b]).length = F.headerSize then settleHeader F s.messages (symbols ++ [b])
    else { s with current := .header (symbols ++ [b]) }
  | .data hdr symbols => settle F s.messages hdr (symbols ++ [b])
  | .refused _ => s

def feed (s : State B H) (stream : List B) : State B H :=
  stream.foldl (absorb F) s

variable {F} {messages : List (H × List B)} {symbols stream : List B} {hdr : H}

theorem feed_append (s : State B H) (a b : List B) : s.feed F (a ++ b) = (s.feed F a).feed F b :=
  foldl_append

theorem feed_refused (stream : List B) :
    feed F { messages := messages, current := .refused symbols } stream =
      { messages := messages, current := .refused symbols } := by
  induction stream with
  | nil => rfl
  | cons b stream ih => exact ih

theorem eq_refused {s : State B H} (h : s.current = .refused symbols) :
    s = { messages := s.messages, current := .refused symbols } := by
  rw [← h]

theorem feed_header (h : symbols.length + stream.length < F.headerSize) :
    feed F { messages := messages, current := .header symbols } stream =
      { messages := messages, current := .header (symbols ++ stream) } := by
  induction stream generalizing symbols with
  | nil => rw [append_nil]; rfl
  | cons b stream ih =>
    rw [length_cons] at h
    have hlen : (symbols ++ [b]).length = symbols.length + 1 := length_append
    have hstep : absorb F { messages := messages, current := .header symbols } b =
        { messages := messages, current := .header (symbols ++ [b]) } := if_neg (by omega)
    rw [feed, foldl_cons, hstep, ← feed, ih (by omega), append_assoc]
    rfl

theorem feed_header_full (hne : stream ≠ []) (h : symbols.length + stream.length = F.headerSize) :
    feed F { messages := messages, current := .header symbols } stream =
      settleHeader F messages (symbols ++ stream) := by
  obtain ⟨front, b, rfl⟩ := (eq_nil_or_concat' stream).resolve_left hne
  have hlen : (front ++ [b]).length = front.length + 1 := length_append
  have hfull : (symbols ++ front ++ [b]).length = F.headerSize := by
    rw [append_assoc, length_append]
    exact h
  rw [feed_append, feed_header (by omega), ← append_assoc]
  exact if_pos hfull

theorem feed_data (h : symbols.length + stream.length < F.dataSize hdr) :
    feed F { messages := messages, current := .data hdr symbols } stream =
      { messages := messages, current := .data hdr (symbols ++ stream) } := by
  induction stream generalizing symbols with
  | nil => rw [append_nil]; rfl
  | cons b stream ih =>
    rw [length_cons] at h
    have hlen : (symbols ++ [b]).length = symbols.length + 1 := length_append
    have hstep : absorb F { messages := messages, current := .data hdr symbols } b =
        { messages := messages, current := .data hdr (symbols ++ [b]) } := if_neg (by omega)
    rw [feed, foldl_cons, hstep, ← feed, ih (by omega), append_assoc]
    rfl

/-- Data up to the end of the message at most. -/
theorem feed_data_settle (hne : stream ≠ []) (h : symbols.length + stream.length ≤ F.dataSize hdr) :
    feed F { messages := messages, current := .data hdr symbols } stream =
      settle F messages hdr (symbols ++ stream) := by
  obtain ⟨front, b, rfl⟩ := (eq_nil_or_concat' stream).resolve_left hne
  have hlen : (front ++ [b]).length = front.length + 1 := length_append
  rw [feed_append, feed_data (by omega), ← append_assoc]
  rfl

theorem settle_open (messages : List (H × List B)) (hdr : H) (symbols : List B) :
    ¬ ∃ symbols', (settle F messages hdr symbols).current = .refused symbols' := by
  rintro ⟨symbols', h⟩
  unfold settle at h
  split_ifs at h

/-! ## What was absorbed -/

variable (encode : H → List B)

/-- The symbols of the message that comes. -/
def currentSymbols : Current B H → List B
  | .header symbols => symbols
  | .data hdr symbols => encode hdr ++ symbols
  | .refused symbols => symbols

/-- The symbols that a state stands for. -/
def spelled (s : State B H) : List B :=
  (s.messages.flatMap fun m => encode m.1 ++ m.2) ++ currentSymbols encode s.current

variable {encode}

theorem settle_spelled (F : Format B H) (encode : H → List B) (messages : List (H × List B)) (hdr : H)
    (symbols : List B) : (settle F messages hdr symbols).spelled encode =
      (messages.flatMap fun m => encode m.1 ++ m.2) ++ (encode hdr ++ symbols) := by
  unfold settle spelled
  split_ifs
  · simp [currentSymbols]
  · rfl

theorem settle_complete (h : ∀ m ∈ messages, m.2.length = F.dataSize m.1) (hdr : H) (symbols : List B) :
    ∀ m ∈ (settle F messages hdr symbols).messages, m.2.length = F.dataSize m.1 := by
  unfold settle
  split_ifs with hfull
  · intro m hm
    rcases mem_append.mp hm with hm | hm
    · exact h m hm
    · rw [mem_singleton.mp hm]
      exact hfull
  · exact h

/-- One symbol is absorbed, unless a header was refused before. -/
theorem absorb_spelled (hdecode : ∀ symbols hdr, symbols.length = F.headerSize → F.decode symbols = some hdr →
    encode hdr = symbols) (s : State B H) (b : B) : (s.absorb F b).spelled encode = s.spelled encode ++ [b] ∨
      (∃ symbols, s.current = .refused symbols) ∧ s.absorb F b = s := by
  obtain ⟨messages, current⟩ := s
  cases current with
  | header symbols =>
    left
    unfold absorb
    dsimp only
    split_ifs with hfull
    · unfold settleHeader
      cases hheader : F.decode (symbols ++ [b]) with
      | none => exact (append_assoc _ _ _).symm
      | some hdr =>
        dsimp only
        rw [settle_spelled, hdecode _ hdr hfull hheader, append_nil]
        exact (append_assoc _ _ _).symm
    · exact (append_assoc _ _ _).symm
  | data hdr symbols =>
    left
    show (settle F messages hdr (symbols ++ [b])).spelled encode = _
    rw [settle_spelled]
    simp [spelled, currentSymbols]
  | refused symbols => exact .inr ⟨⟨symbols, rfl⟩, rfl⟩

theorem absorb_complete {s : State B H} (h : ∀ m ∈ s.messages, m.2.length = F.dataSize m.1) (b : B) :
    ∀ m ∈ (s.absorb F b).messages, m.2.length = F.dataSize m.1 := by
  obtain ⟨messages, current⟩ := s
  cases current with
  | header symbols =>
    unfold absorb
    dsimp only
    split_ifs
    · unfold settleHeader
      cases F.decode (symbols ++ [b]) with
      | none => exact h
      | some hdr => exact settle_complete h hdr []
    · exact h
  | data hdr symbols => exact settle_complete h hdr (symbols ++ [b])
  | refused symbols => exact h

/-- The messages are the stream up to where a header is refused. -/
theorem feed_sound (hdecode : ∀ symbols hdr, symbols.length = F.headerSize → F.decode symbols = some hdr →
    encode hdr = symbols) {s : State B H} (h : ∀ m ∈ s.messages, m.2.length = F.dataSize m.1) (stream : List B) :
    (∀ m ∈ (s.feed F stream).messages, m.2.length = F.dataSize m.1) ∧
      ∃ rest, s.spelled encode ++ stream = (s.feed F stream).spelled encode ++ rest ∧
        (rest = [] ∨ ∃ symbols, (s.feed F stream).current = .refused symbols) := by
  induction stream generalizing s with
  | nil => exact ⟨h, [], rfl, .inl rfl⟩
  | cons b stream ih =>
    obtain ⟨hcomplete, rest, hrest, hend⟩ := ih (absorb_complete h b)
    refine ⟨hcomplete, ?_⟩
    rcases absorb_spelled hdecode s b with hspelled | ⟨⟨symbols, hrefused⟩, hsame⟩
    · refine ⟨rest, ?_, hend⟩
      rw [hspelled, append_assoc] at hrest
      exact hrest
    · have hstay : s.feed F (b :: stream) = s := by
        obtain ⟨messages, current⟩ := s
        obtain rfl := hrefused
        exact feed_refused (b :: stream)
      exact ⟨b :: stream, by rw [hstay], .inr ⟨symbols, by rw [hstay]; exact hrefused⟩⟩

end State

end Framing
