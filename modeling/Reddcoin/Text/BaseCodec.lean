import Mathlib.Tactic.IntervalCases
import Reddcoin.Lib.Regroup
import Reddcoin.Text.CString

/-!
# Base 64 and base 32

`EncodeBase64`, `DecodeBase64`, `EncodeBase32` and `DecodeBase32` of `utilstrencodings.cpp`: in each a `mode` says how
many bits are `left` over, and a `switch` takes the next byte or symbol.
-/

namespace Reddcoin

open List

open Numerals (Digits digits_nil digits_cons)

/-- The locals `mode` and `left`. -/
structure Modes where
  mode : Nat
  left : Nat

/-- What the decoder asks for after the last symbol, by its mode. -/
inductive FinalMode where
  | ok
  | impossible
  | require (n : Nat)

/-- What tells the two encodings apart. -/
structure BaseCodec where
  /-- The bits of a symbol. -/
  width : Nat
  symbols : List UInt8
  table : List Int
  encodeStep : Modes → Nat → List Nat × Modes
  /-- How many `=` follow the last symbol when bits are left over, by the encoder's mode. -/
  padding : Nat → Nat
  decodeStep : Modes → Nat → List Nat × Modes
  finalMode : Nat → FinalMode

namespace BaseCodec

variable (codec : BaseCodec)

/-- `pbase64[i]`, `pbase32[i]`. -/
def symbol (i : Nat) : UInt8 :=
  codec.symbols.getD i 0

/-- `decode64_table[(unsigned char)c]`, `decode32_table[(unsigned char)c]`. -/
def lookup (c : UInt8) : Int :=
  codec.table.getD c.toNat (-1)

def encode (v : List UInt8) : List UInt8 :=
  let out := Regroup.run codec.encodeStep { mode := 0, left := 0 } (v.map UInt8.toNat)
  out.1.map codec.symbol ++ if out.2.mode = 0 then []
    else codec.symbol out.2.left :: List.replicate (codec.padding out.2.mode) (ascii '=')

/-- The loop of the decoder on the memory at `p`: the bytes, the last state and where it stops; `none` when it reads
past the end. -/
def decodeLoop (s : Modes) : List UInt8 → Option (List UInt8 × Modes × List UInt8)
  | [] => none
  | c :: p =>
    let dec := codec.lookup c
    if dec = -1 then some ([], s, c :: p)
    else do
      let next := codec.decodeStep s dec.toNat
      let (vchRet, s, p) ← decodeLoop next.2 p
      some (next.1.map UInt8.ofNat ++ vchRet, s, p)

/-- `p[0] != '=' || .. || p[n-1] != '=' || table[p[n]] != -1`. -/
def badPadding : Nat → List UInt8 → Option Bool
  | _, [] => none
  | 0, c :: _ => some (decide (codec.lookup c ≠ -1))
  | n + 1, c :: p => if c ≠ ascii '=' then some true else badPadding n p

/-- The last `switch (mode)`. -/
def invalid (s : Modes) (p : List UInt8) : Option Bool :=
  match codec.finalMode s.mode with
  | .ok => some false
  | .impossible => some true
  | .require n => if s.left ≠ 0 then some true else codec.badPadding n p

/-- The bytes and `*pfInvalid`. -/
def decode (p : List UInt8) : Option (List UInt8 × Bool) := do
  let (vchRet, s, p) ← codec.decodeLoop { mode := 0, left := 0 } p
  let pfInvalid ← codec.invalid s p
  some (vchRet, pfInvalid)

end BaseCodec

/-! ## Base 64 -/

def encode64Step (s : Modes) (enc : Nat) : List Nat × Modes :=
  match s.mode with
  | 0 => ([enc >>> 2], { mode := 1, left := (enc &&& 3) <<< 4 })
  | 1 => ([s.left ||| (enc >>> 4)], { mode := 2, left := (enc &&& 15) <<< 2 })
  | 2 => ([s.left ||| (enc >>> 6), enc &&& 63], { s with mode := 0 })
  | _ => ([], s)

def decode64Step (s : Modes) (dec : Nat) : List Nat × Modes :=
  match s.mode with
  | 0 => ([], { mode := 1, left := dec })
  | 1 => ([(s.left <<< 2) ||| (dec >>> 4)], { mode := 2, left := dec &&& 15 })
  | 2 => ([(s.left <<< 4) ||| (dec >>> 2)], { mode := 3, left := dec &&& 3 })
  | 3 => ([(s.left <<< 6) ||| dec], { s with mode := 0 })
  | _ => ([], s)

/-- `"ABCDEFGHIJKLMNOPQRSTUVWXYZabcdefghijklmnopqrstuvwxyz0123456789+/"`. -/
def pbase64 : List UInt8 :=
  "ABCDEFGHIJKLMNOPQRSTUVWXYZabcdefghijklmnopqrstuvwxyz0123456789+/".toList.map ascii

/-- `62` stands at `'+'`, `63` at `'/'`, and then the digits, the capitals and the small letters. -/
def decode64_table : List Int :=
  List.replicate 43 (-1) ++ [62] ++ List.replicate 3 (-1) ++ [63] ++ (List.range' 52 10).map Int.ofNat ++
    List.replicate 7 (-1) ++ (List.range 26).map Int.ofNat ++ List.replicate 6 (-1) ++
    (List.range' 26 26).map Int.ofNat ++ List.replicate 133 (-1)

def base64 : BaseCodec where
  width := 6
  symbols := pbase64
  table := decode64_table
  encodeStep := encode64Step
  padding mode := if mode = 1 then 2 else 1
  decodeStep := decode64Step
  finalMode
    | 1 => .impossible
    | 2 => .require 2
    | 3 => .require 1
    | _ => .ok

def encodeBase64 : List UInt8 → List UInt8 :=
  base64.encode

def decodeBase64 : List UInt8 → Option (List UInt8 × Bool) :=
  base64.decode

/-! ## Base 32 -/

def encode32Step (s : Modes) (enc : Nat) : List Nat × Modes :=
  match s.mode with
  | 0 => ([enc >>> 3], { mode := 1, left := (enc &&& 7) <<< 2 })
  | 1 => ([s.left ||| (enc >>> 6), (enc >>> 1) &&& 31], { mode := 2, left := (enc &&& 1) <<< 4 })
  | 2 => ([s.left ||| (enc >>> 4)], { mode := 3, left := (enc &&& 15) <<< 1 })
  | 3 => ([s.left ||| (enc >>> 7), (enc >>> 2) &&& 31], { mode := 4, left := (enc &&& 3) <<< 3 })
  | 4 => ([s.left ||| (enc >>> 5), enc &&& 31], { s with mode := 0 })
  | _ => ([], s)

def decode32Step (s : Modes) (dec : Nat) : List Nat × Modes :=
  match s.mode with
  | 0 => ([], { mode := 1, left := dec })
  | 1 => ([(s.left <<< 3) ||| (dec >>> 2)], { mode := 2, left := dec &&& 3 })
  | 2 => ([], { mode := 3, left := (s.left <<< 5) ||| dec })
  | 3 => ([(s.left <<< 1) ||| (dec >>> 4)], { mode := 4, left := dec &&& 15 })
  | 4 => ([(s.left <<< 4) ||| (dec >>> 1)], { mode := 5, left := dec &&& 1 })
  | 5 => ([], { mode := 6, left := (s.left <<< 5) ||| dec })
  | 6 => ([(s.left <<< 2) ||| (dec >>> 3)], { mode := 7, left := dec &&& 7 })
  | 7 => ([(s.left <<< 5) ||| dec], { s with mode := 0 })
  | _ => ([], s)

def pbase32 : List UInt8 :=
  "abcdefghijklmnopqrstuvwxyz234567".toList.map ascii

/-- The digits `'2'` to `'7'`, the capitals and the small letters. -/
def decode32_table : List Int :=
  List.replicate 50 (-1) ++ (List.range' 26 6).map Int.ofNat ++ List.replicate 9 (-1) ++
    (List.range 26).map Int.ofNat ++ List.replicate 6 (-1) ++ (List.range 26).map Int.ofNat ++
    List.replicate 133 (-1)

/-- `nPadding`. -/
def nPadding : List Nat :=
  [0, 6, 4, 3, 1]

def base32 : BaseCodec where
  width := 5
  symbols := pbase32
  table := decode32_table
  encodeStep := encode32Step
  padding mode := nPadding.getD mode 0
  decodeStep := decode32Step
  finalMode
    | 1 => .impossible
    | 3 => .impossible
    | 6 => .impossible
    | 2 => .require 6
    | 4 => .require 4
    | 5 => .require 3
    | 7 => .require 1
    | _ => .ok

def encodeBase32 : List UInt8 → List UInt8 :=
  base32.encode

def decodeBase32 : List UInt8 → Option (List UInt8 × Bool) :=
  base32.decode

/-- `tolower` of the C locale. -/
def tolower (c : UInt8) : UInt8 :=
  if 65 ≤ c ∧ c ≤ 90 then c + 32 else c

/-! ## The machines keep the bits -/

/-- The encoder has its bits at the top of `left`. -/
def EncodeHolds (width : Nat) (held : List Nat) (s : Modes) (r h : Nat) : Prop :=
  held[s.mode]? = some r ∧ h < 2 ^ r ∧ (r ≠ 0 → s.left = h * 2 ^ (width - r))

/-- The decoder has its bits as they are in `left`. -/
def DecodeHolds (held : List Nat) (s : Modes) (r h : Nat) : Prop :=
  held[s.mode]? = some r ∧ h < 2 ^ r ∧ (r ≠ 0 → s.left = h)

/-- The bits that each mode holds. -/
def encode64Held : List Nat := [0, 2, 4]
def decode64Held : List Nat := [0, 6, 4, 2]
def encode32Held : List Nat := [0, 3, 1, 4, 2]
def decode32Held : List Nat := [0, 5, 2, 7, 4, 1, 6, 3]

section

variable (width : Nat) (held : List Nat) (mode j d : Nat) {r h : Nat} {s' : Modes}

theorem encodeHolds_mask (hmode : held[mode]? = some j) :
    EncodeHolds width held { mode := mode, left := (d &&& (2 ^ j - 1)) <<< (width - j) } j (d % 2 ^ j) := by
  refine ⟨hmode, Nat.mod_lt _ (Nat.two_pow_pos j), fun _ => ?_⟩
  rw [Nat.and_two_pow_sub_one_eq_mod, Nat.shiftLeft_eq]

theorem encodeHolds_zero (left : Nat) (hmode : held[0]? = some 0) :
    EncodeHolds width held { mode := 0, left := left } 0 (d % 2 ^ 0) :=
  ⟨hmode, Nat.mod_lt _ (Nat.two_pow_pos 0), absurd rfl⟩

theorem decodeHolds_mask (hmode : held[mode]? = some j) :
    DecodeHolds held { mode := mode, left := d &&& (2 ^ j - 1) } j (d % 2 ^ j) :=
  ⟨hmode, Nat.mod_lt _ (Nat.two_pow_pos j), fun _ => Nat.and_two_pow_sub_one_eq_mod d j⟩

theorem decodeHolds_zero (left : Nat) (hmode : held[0]? = some 0) :
    DecodeHolds held { mode := 0, left := left } 0 (d % 2 ^ 0) :=
  ⟨hmode, Nat.mod_lt _ (Nat.two_pow_pos 0), absurd rfl⟩

variable {width held d}

/-- One symbol of `width` bits for the held bits and the high bits of a byte. -/
theorem encode_one (hd : d < 2 ^ 8) (hh : h < 2 ^ r) (hr : r ≤ width) (hj : r + 8 = width + j)
    (held' : EncodeHolds width held s' j (d % 2 ^ j)) :
    Digits (2 ^ width) [h * 2 ^ (width - r) ||| d >>> j] ∧ ∃ r' h', EncodeHolds width held s' r' h' ∧
      Regroup.Same 8 width r h [d] [h * 2 ^ (width - r) ||| d >>> j] r' h' := by
  obtain ⟨hlt, same⟩ := Regroup.Same.emit hd hh hr hj
  exact ⟨digits_cons.mpr ⟨hlt, digits_nil⟩, j, _, held', same⟩

/-- The first symbol, from the high bits of a byte alone. -/
theorem encode_first (hd : d < 2 ^ 8) (hh : h < 2 ^ 0) (hj : 0 + 8 = width + j)
    (held' : EncodeHolds width held s' j (d % 2 ^ j)) :
    Digits (2 ^ width) [d >>> j] ∧ ∃ r' h', EncodeHolds width held s' r' h' ∧
      Regroup.Same 8 width 0 h [d] [d >>> j] r' h' := by
  have hstep := encode_one j hd hh (Nat.zero_le width) hj held'
  rw [Nat.lt_one_iff.mp hh, Nat.zero_mul, Nat.zero_or] at hstep
  rw [Nat.lt_one_iff.mp hh]
  exact hstep

theorem encode_two (hd : d < 2 ^ 8) (hh : h < 2 ^ r) (hr : r ≤ width) (hj : r + 8 = 2 * width + j)
    (held' : EncodeHolds width held s' j (d % 2 ^ j)) :
    Digits (2 ^ width) [h * 2 ^ (width - r) ||| d >>> (width + j), (d >>> j) &&& (2 ^ width - 1)] ∧
      ∃ r' h', EncodeHolds width held s' r' h' ∧ Regroup.Same 8 width r h [d]
        [h * 2 ^ (width - r) ||| d >>> (width + j), (d >>> j) &&& (2 ^ width - 1)] r' h' := by
  obtain ⟨hdigits, same⟩ := Regroup.Same.emit_two hd hh hr hj
  exact ⟨hdigits, j, _, held', same⟩

/-- One byte for the held bits and the high bits of a symbol. -/
theorem decode_one (hd : d < 2 ^ width) (hh : h < 2 ^ r) (hr : r ≤ 8) (hj : r + width = 8 + j)
    (held' : DecodeHolds held s' j (d % 2 ^ j)) :
    Digits (2 ^ 8) [h <<< (8 - r) ||| d >>> j] ∧ ∃ r' h', DecodeHolds held s' r' h' ∧
      Regroup.Same width 8 r h [d] [h <<< (8 - r) ||| d >>> j] r' h' := by
  obtain ⟨hlt, same⟩ := Regroup.Same.emit hd hh hr hj
  rw [Nat.shiftLeft_eq]
  exact ⟨digits_cons.mpr ⟨hlt, digits_nil⟩, j, _, held', same⟩

theorem decode_hold (hd : d < 2 ^ width) (hh : h < 2 ^ r) (hmode : held[mode]? = some (r + width)) :
    Digits (2 ^ 8) [] ∧ ∃ r' h', DecodeHolds held { mode := mode, left := h <<< width ||| d } r' h' ∧
      Regroup.Same width 8 r h [d] [] r' h' := by
  obtain ⟨hlt, same⟩ := Regroup.Same.hold (b := 8) hd hh
  exact ⟨digits_nil, r + width, _, ⟨hmode, hlt, fun _ => rfl⟩, same⟩

theorem decode_first (hd : d < 2 ^ width) (hh : h < 2 ^ 0) (hmode : held[1]? = some width) :
    Digits (2 ^ 8) [] ∧ ∃ r' h', DecodeHolds held { mode := 1, left := d } r' h' ∧
      Regroup.Same width 8 0 h [d] [] r' h' := by
  have hstep := decode_hold 1 hd hh (by rw [Nat.zero_add]; exact hmode)
  rw [Nat.lt_one_iff.mp hh, Nat.zero_shiftLeft, Nat.zero_or] at hstep
  rw [Nat.lt_one_iff.mp hh]
  exact hstep

end

theorem encode64_sound : Regroup.Sound 8 6 encode64Step (EncodeHolds 6 encode64Held) where
  bound held := held.2.1
  step := by
    intro s r h d held hd
    obtain ⟨mode, left⟩ := s
    obtain ⟨hmode, hh, hleft⟩ := held
    have hlt : mode < 3 := (List.getElem?_eq_some_iff.mp hmode).1
    interval_cases mode <;> cases hmode
    · exact encode_first 2 hd hh rfl (encodeHolds_mask 6 _ 1 2 d rfl)
    · rw [show left = h * 2 ^ 4 from hleft (by decide)]
      exact encode_one 4 hd hh (by decide) rfl (encodeHolds_mask 6 _ 2 4 d rfl)
    · rw [show left = h * 2 ^ 2 from hleft (by decide)]
      exact encode_two 0 hd hh (by decide) rfl (encodeHolds_zero 6 _ d _ rfl)

theorem encode32_sound : Regroup.Sound 8 5 encode32Step (EncodeHolds 5 encode32Held) where
  bound held := held.2.1
  step := by
    intro s r h d held hd
    obtain ⟨mode, left⟩ := s
    obtain ⟨hmode, hh, hleft⟩ := held
    have hlt : mode < 5 := (List.getElem?_eq_some_iff.mp hmode).1
    interval_cases mode <;> cases hmode
    · exact encode_first 3 hd hh rfl (encodeHolds_mask 5 _ 1 3 d rfl)
    · rw [show left = h * 2 ^ 2 from hleft (by decide)]
      exact encode_two 1 hd hh (by decide) rfl (encodeHolds_mask 5 _ 2 1 d rfl)
    · rw [show left = h * 2 ^ 4 from hleft (by decide)]
      exact encode_one 4 hd hh (by decide) rfl (encodeHolds_mask 5 _ 3 4 d rfl)
    · rw [show left = h * 2 ^ 1 from hleft (by decide)]
      exact encode_two 2 hd hh (by decide) rfl (encodeHolds_mask 5 _ 4 2 d rfl)
    · rw [show left = h * 2 ^ 3 from hleft (by decide)]
      exact encode_two 0 hd hh (by decide) rfl (encodeHolds_zero 5 _ d _ rfl)

theorem decode64_sound : Regroup.Sound 6 8 decode64Step (DecodeHolds decode64Held) where
  bound held := held.2.1
  step := by
    intro s r h d held hd
    obtain ⟨mode, left⟩ := s
    obtain ⟨hmode, hh, hleft⟩ := held
    have hlt : mode < 4 := (List.getElem?_eq_some_iff.mp hmode).1
    interval_cases mode <;> cases hmode
    · exact decode_first hd hh rfl
    all_goals rw [show left = h from hleft (by decide)]
    · exact decode_one 4 hd hh (by decide) rfl (decodeHolds_mask _ 2 4 d rfl)
    · exact decode_one 2 hd hh (by decide) rfl (decodeHolds_mask _ 3 2 d rfl)
    · exact decode_one 0 hd hh (by decide) rfl (decodeHolds_zero _ d _ rfl)

theorem decode32_sound : Regroup.Sound 5 8 decode32Step (DecodeHolds decode32Held) where
  bound held := held.2.1
  step := by
    intro s r h d held hd
    obtain ⟨mode, left⟩ := s
    obtain ⟨hmode, hh, hleft⟩ := held
    have hlt : mode < 8 := (List.getElem?_eq_some_iff.mp hmode).1
    interval_cases mode <;> cases hmode
    · exact decode_first hd hh rfl
    all_goals rw [show left = h from hleft (by decide)]
    · exact decode_one 2 hd hh (by decide) rfl (decodeHolds_mask _ 2 2 d rfl)
    · exact decode_hold 3 hd hh rfl
    · exact decode_one 4 hd hh (by decide) rfl (decodeHolds_mask _ 4 4 d rfl)
    · exact decode_one 1 hd hh (by decide) rfl (decodeHolds_mask _ 5 1 d rfl)
    · exact decode_hold 6 hd hh rfl
    · exact decode_one 3 hd hh (by decide) rfl (decodeHolds_mask _ 7 3 d rfl)
    · exact decode_one 0 hd hh (by decide) rfl (decodeHolds_zero _ d _ rfl)

/-! ## Laws of an encoding -/

/-- What is asked of an encoding: symbols and table fit together, both machines keep the bits, and their last modes ask
for the same padding. -/
structure BaseCodec.Lawful (codec : BaseCodec) (fold : UInt8 → UInt8) (encodeHeld decodeHeld : List Nat)
    (padded : Nat → Nat) : Prop where
  width_pos : 0 < codec.width
  width_lt : codec.width < 8
  lookup_symbol : ∀ d : Nat, d < 2 ^ codec.width → codec.lookup (codec.symbol d) = d
  lookup_cases : ∀ c, codec.lookup c = -1 ∨
    ∃ d : Nat, d < 2 ^ codec.width ∧ codec.lookup c = d ∧ codec.symbol d = fold c
  lookup_pad : codec.lookup (ascii '=') = -1
  lookup_nul : codec.lookup 0 = -1
  fold_pad : fold (ascii '=') = ascii '='
  encode_sound : Regroup.Sound 8 codec.width codec.encodeStep (EncodeHolds codec.width encodeHeld)
  decode_sound : Regroup.Sound codec.width 8 codec.decodeStep (DecodeHolds decodeHeld)
  encode_start : encodeHeld[0]? = some 0
  decode_start : decodeHeld[0]? = some 0
  encode_last : ∀ {mode r}, encodeHeld[mode]? = some r → r < codec.width ∧ (mode = 0 ↔ r = 0) ∧
    (mode ≠ 0 → codec.padding mode = padded (codec.width - r))
  decode_last : ∀ {mode r}, decodeHeld[mode]? = some r → r < 8 ∧ codec.finalMode mode =
    if r = 0 then .ok else if r < codec.width then .require (padded r) else .impossible

section

variable {codec : BaseCodec} {p rest after : List UInt8} {c : UInt8} {n : Nat}

/-- The decoder takes symbols up to the first byte that is none. -/
theorem decodeLoop_eq {digits : List Nat} {taken : List UInt8} (htaken : taken.map codec.lookup = digits.map Int.ofNat)
    (hc : codec.lookup c = -1) (s : Modes) (rest : List UInt8) : codec.decodeLoop s (taken ++ c :: rest) =
      some ((Regroup.run codec.decodeStep s digits).1.map UInt8.ofNat, (Regroup.run codec.decodeStep s digits).2,
        c :: rest) := by
  induction digits generalizing taken s with
  | nil =>
    obtain rfl := map_eq_nil_iff.mp htaken
    rw [nil_append, BaseCodec.decodeLoop]
    dsimp only
    rw [if_pos hc]
    rfl
  | cons d digits ih =>
    cases taken with
    | nil => cases htaken
    | cons b taken =>
      obtain ⟨hb, htaken⟩ := List.cons.inj htaken
      have hlookup : codec.lookup b = (d : Int) := hb
      rw [cons_append, BaseCodec.decodeLoop]
      dsimp only
      rw [hlookup, if_neg (by omega), Int.toNat_natCast, ih htaken]
      simp [Regroup.run]

theorem badPadding_replicate (hc : codec.lookup c = -1) :
    codec.badPadding n (List.replicate n (ascii '=') ++ c :: rest) = some false := by
  induction n with
  | zero =>
    rw [replicate_zero, nil_append, BaseCodec.badPadding, hc]
    rfl
  | succ n ih =>
    rw [replicate_succ, cons_append, BaseCodec.badPadding, if_neg (fun hne => hne rfl), ih]

/-- Before the terminator there is always an answer, and it is good only after the padding. -/
theorem badPadding_spec (codec : BaseCodec) (str after : List UInt8) (n : Nat) :
    ∃ bad, codec.badPadding n (str ++ 0 :: after) = some bad ∧
    (bad = false → List.replicate n (ascii '=') <+: str ++ 0 :: after) := by
  induction str generalizing n with
  | nil =>
    cases n with
    | zero => exact ⟨_, rfl, fun _ => nil_prefix⟩
    | succ n => exact ⟨true, rfl, nofun⟩
  | cons c str ih =>
    cases n with
    | zero => exact ⟨_, rfl, fun _ => nil_prefix⟩
    | succ n =>
      by_cases hc : c = ascii '='
      · obtain ⟨bad, hbad, hprefixed⟩ := ih n
        refine ⟨bad, ?_, fun hgood => ?_⟩
        · rw [cons_append, BaseCodec.badPadding, if_neg (not_not.mpr hc), hbad]
        · rw [replicate_succ, cons_append, hc]
          exact (prefix_cons_inj _).mpr (hprefixed hgood)
      · refine ⟨true, ?_, nofun⟩
        rw [cons_append, BaseCodec.badPadding, if_pos hc]

/-- What is read without the terminator is in the string. -/
theorem prefix_of_notMem {l str : List UInt8} (h : l <+: str ++ 0 :: after) (hzero : 0 ∉ l) : l <+: str := by
  have hwhole : str ++ [0] <+: str ++ 0 :: after := ⟨after, by simp⟩
  rcases prefix_or_prefix_of_prefix h hwhole with hle | hle
  · rcases prefix_concat_iff.mp hle with heq | hle
    · exact absurd (heq ▸ mem_append_right str (mem_singleton_self 0)) hzero
    · exact hle
  · exact absurd (hle.subset (mem_append_right str (mem_singleton_self 0))) hzero

/-- How many `=` stand for `z` zeros. -/
def padCount (padded : Nat → Nat) (z : Nat) : Nat :=
  if z = 0 then 0 else padded z

end

namespace BaseCodec.Lawful

variable {codec : BaseCodec} {fold : UInt8 → UInt8} {encodeHeld decodeHeld : List Nat} {padded : Nat → Nat}

theorem byteDigits (v : List UInt8) : Digits (2 ^ 8) (v.map UInt8.toNat) := by
  intro d hd
  obtain ⟨b, -, rfl⟩ := mem_map.mp hd
  exact b.toNat_lt

section

variable (lawful : codec.Lawful fold encodeHeld decodeHeld padded)

include lawful

theorem symbol_ne_zero {d : Nat} (hd : d < 2 ^ codec.width) : codec.symbol d ≠ 0 := by
  intro hzero
  have hlookup := lawful.lookup_symbol d hd
  rw [hzero, lawful.lookup_nul] at hlookup
  omega

/-- An encoding is the symbols of the bytes and a few zeros, and the padding for the zeros. -/
theorem encode_spec (v : List UInt8) :
    ∃ digits z, Digits (2 ^ codec.width) digits ∧ Regroup.Padded 8 codec.width (v.map UInt8.toNat) digits z ∧
      z < codec.width ∧
      codec.encode v = digits.map codec.symbol ++ List.replicate (padCount padded z) (ascii '=') := by
  have hstart : EncodeHolds codec.width encodeHeld { mode := 0, left := 0 } 0 0 :=
    ⟨lawful.encode_start, Nat.one_pos, absurd rfl⟩
  obtain ⟨hdigits, r, h, ⟨hmode, hh, hleft⟩, same⟩ := lawful.encode_sound.run hstart (byteDigits v)
  obtain ⟨hr, hzero, hpad⟩ := lawful.encode_last hmode
  rw [encode]
  generalize Regroup.run codec.encodeStep { mode := 0, left := 0 } (v.map UInt8.toNat) = out at *
  by_cases hr0 : r = 0
  · subst hr0
    refine ⟨out.1, 0, hdigits, same.padded_zero hh, lawful.width_pos, ?_⟩
    rw [if_pos (hzero.mpr rfl)]
    rfl
  · have hmode0 : out.2.mode ≠ 0 := fun hm => hr0 (hzero.mp hm)
    have hlast : h * 2 ^ (codec.width - r) < 2 ^ codec.width := by
      have hpow : 2 ^ codec.width = 2 ^ r * 2 ^ (codec.width - r) := by
        rw [← Nat.pow_add, Nat.add_sub_cancel' (Nat.le_of_lt hr)]
      rw [hpow]
      exact Nat.mul_lt_mul_of_pos_right hh (Nat.two_pow_pos _)
    refine ⟨_, codec.width - r, hdigits.concat hlast, same.padded (Nat.le_of_lt hr), by omega, ?_⟩
    have hcount : padCount padded (codec.width - r) = padded (codec.width - r) := if_neg (by omega)
    rw [if_neg hmode0, hpad hmode0, hleft hr0, hcount, map_append, append_assoc]
    rfl

/-- What is encoded is decoded. -/
theorem decode_encode (v after : List UInt8) :
    codec.decode (cStr (codec.encode v) ++ 0 :: after) = some (v, false) := by
  obtain ⟨digits, z, hdigits, hpadded, hz, hencode⟩ := lawful.encode_spec v
  have hplain : cStr (codec.encode v) = codec.encode v := by
    apply cStr_of_notMem
    rw [hencode]
    intro hmem
    rcases mem_append.mp hmem with hmem | hmem
    · obtain ⟨d, hd, hzero⟩ := mem_map.mp hmem
      exact lawful.symbol_ne_zero (hdigits d hd) hzero
    · have hpad := eq_of_mem_replicate hmem
      exact absurd hpad (by decide)
  have hlookup : (digits.map codec.symbol).map codec.lookup = digits.map Int.ofNat := by
    rw [map_map]
    exact map_congr_left fun d hd => lawful.lookup_symbol d (hdigits d hd)
  obtain ⟨c, rest, hc, hrest⟩ : ∃ c rest, codec.lookup c = -1 ∧
      List.replicate (padCount padded z) (ascii '=') ++ 0 :: after = c :: rest := by
    cases padCount padded z with
    | zero => exact ⟨0, after, lawful.lookup_nul, rfl⟩
    | succ n => exact ⟨ascii '=', _, lawful.lookup_pad, rfl⟩
  have hstart : DecodeHolds decodeHeld { mode := 0, left := 0 } 0 0 :=
    ⟨lawful.decode_start, Nat.one_pos, absurd rfl⟩
  obtain ⟨hbytes, r, h, ⟨hmode, hh, hleft⟩, same⟩ := lawful.decode_sound.run hstart hdigits
  obtain ⟨hr, hfinal⟩ := lawful.decode_last hmode
  obtain ⟨hout, rfl, rfl⟩ :=
    hpadded.unique same (by have hwidth := lawful.width_lt; omega) hr hh (byteDigits v) hbytes
  rw [hplain, hencode, append_assoc, hrest, decode, decodeLoop_eq hlookup hc]
  generalize Regroup.run codec.decodeStep { mode := 0, left := 0 } digits = out at *
  have hvalid : codec.invalid out.2 (c :: rest) = some false := by
    rw [invalid, hfinal]
    by_cases hzero : r = 0
    · rw [if_pos hzero]
    · have hcount : padCount padded r = padded r := if_neg hzero
      rw [if_neg hzero, if_pos hz]
      dsimp only
      rw [if_neg (not_not.mpr (hleft hzero)), ← hrest, hcount]
      exact badPadding_replicate lawful.lookup_nul
  have hback : out.1.map UInt8.ofNat = v := by
    rw [hout, map_map]
    conv_rhs => rw [← map_id v]
    exact map_congr_left fun b _ => UInt8.ofNat_toNat
  simp [hvalid, hback]

/-- The symbols that a string begins with. -/
theorem split_symbols (str after : List UInt8) :
    ∃ taken str' digits c rest, str = taken ++ str' ∧ str' ++ 0 :: after = c :: rest ∧ codec.lookup c = -1 ∧
      taken.map codec.lookup = digits.map Int.ofNat ∧ Digits (2 ^ codec.width) digits ∧
      digits.map codec.symbol = taken.map fold := by
  induction str with
  | nil => exact ⟨[], [], [], 0, after, rfl, rfl, lawful.lookup_nul, rfl, digits_nil, rfl⟩
  | cons b str ih =>
    rcases lawful.lookup_cases b with hb | ⟨d, hd, hb, hsymbol⟩
    · exact ⟨[], b :: str, [], b, str ++ 0 :: after, rfl, rfl, hb, rfl, digits_nil, rfl⟩
    · obtain ⟨taken, str', digits, c, rest, rfl, hrest, hc, hlookup, hdigits, hsymbols⟩ := ih
      refine ⟨b :: taken, str', d :: digits, c, rest, rfl, hrest, hc, ?_, digits_cons.mpr ⟨hd, hdigits⟩, ?_⟩
      · rw [map_cons, map_cons, hb, hlookup]
        rfl
      · rw [map_cons, map_cons, hsymbol, hsymbols]

/-- What is decoded without complaint is the encoding of the bytes, up to letter case. -/
theorem encode_decode (str after : List UInt8) :
    ∃ v pfInvalid, codec.decode (cStr str ++ 0 :: after) = some (v, pfInvalid) ∧
      (pfInvalid = false → codec.encode v <+: (cStr str).map fold) := by
  obtain ⟨taken, str', digits, c, rest, hsplit, hrest, hc, hlookup, hdigits, hsymbols⟩ :=
    lawful.split_symbols (cStr str) after
  have hstart : DecodeHolds decodeHeld { mode := 0, left := 0 } 0 0 :=
    ⟨lawful.decode_start, Nat.one_pos, absurd rfl⟩
  obtain ⟨hbytes, r, h, ⟨hmode, hh, hleft⟩, same⟩ := lawful.decode_sound.run hstart hdigits
  obtain ⟨-, hfinal⟩ := lawful.decode_last hmode
  have hloop := decodeLoop_eq hlookup hc { mode := 0, left := 0 } rest
  generalize Regroup.run codec.decodeStep { mode := 0, left := 0 } digits = out at *
  -- the last mode is good only when no bits are left but zeros, and their padding follows
  obtain ⟨pfInvalid, hinvalid, hgood⟩ : ∃ pfInvalid, codec.invalid out.2 (c :: rest) = some pfInvalid ∧
      (pfInvalid = false → h = 0 ∧ r < codec.width ∧
        List.replicate (padCount padded r) (ascii '=') <+: str' ++ 0 :: after) := by
    rw [invalid, hfinal]
    by_cases hr0 : r = 0
    · subst hr0
      rw [if_pos rfl]
      exact ⟨false, rfl, fun _ => ⟨Nat.lt_one_iff.mp hh, lawful.width_pos, nil_prefix⟩⟩
    rw [if_neg hr0]
    by_cases hr : r < codec.width
    · rw [if_pos hr, ← hrest, hleft hr0]
      dsimp only
      by_cases hh0 : h = 0
      · obtain ⟨bad, hbad, hpad⟩ := badPadding_spec codec str' after (padded r)
        have hcount : padCount padded r = padded r := if_neg hr0
        rw [if_neg (not_not.mpr hh0), hcount]
        exact ⟨bad, hbad, fun hfalse => ⟨hh0, hr, hpad hfalse⟩⟩
      · rw [if_pos hh0]
        exact ⟨true, rfl, nofun⟩
    · rw [if_neg hr]
      exact ⟨true, rfl, nofun⟩
  refine ⟨out.1.map UInt8.ofNat, pfInvalid, ?_, fun hfalse => ?_⟩
  · rw [decode, hsplit, append_assoc, hrest, hloop]
    simp [hinvalid]
  · obtain ⟨rfl, hr, hpad⟩ := hgood hfalse
    obtain ⟨digits', z, hdigits', hpadded', hz, hencode⟩ := lawful.encode_spec (out.1.map UInt8.ofNat)
    have hback : (out.1.map UInt8.ofNat).map UInt8.toNat = out.1 := by
      rw [map_map]
      conv_rhs => rw [← map_id out.1]
      exact map_congr_left fun d hd => UInt8.toNat_ofNat_of_lt' (hbytes d hd)
    have hpadded : Regroup.Padded 8 codec.width out.1 digits r := by
      have hbits := same.bits
      have hnumber := same.number
      constructor
      · omega
      · rw [Nat.zero_mul, Nat.zero_add, Nat.add_zero] at hnumber
        exact hnumber
    rw [hback] at hpadded'
    obtain ⟨rfl, rfl⟩ := hpadded.same hpadded' hr hz hdigits hdigits'
    have hwithin : taken ++ List.replicate (padCount padded r) (ascii '=') <+: cStr str := by
      rw [hsplit]
      apply (prefix_append_right_inj taken).mpr
      apply prefix_of_notMem hpad
      intro hmem
      exact absurd (eq_of_mem_replicate hmem) (by decide)
    have hfold := hwithin.map fold
    rw [map_append, map_replicate, lawful.fold_pad, ← hsymbols] at hfold
    rw [hencode]
    exact hfold

end

end BaseCodec.Lawful

/-- A table is checked entry by entry. -/
theorem lookup_cases_of_table {codec : BaseCodec} {fold : UInt8 → UInt8}
    (hall : ∀ n < 256, codec.table.getD n (-1) = -1 ∨ (codec.table.getD n (-1)).toNat < 2 ^ codec.width ∧
      codec.table.getD n (-1) = ((codec.table.getD n (-1)).toNat : Nat) ∧
      codec.symbol (codec.table.getD n (-1)).toNat = fold (UInt8.ofNat n)) (c : UInt8) :
    codec.lookup c = -1 ∨ ∃ d : Nat, d < 2 ^ codec.width ∧ codec.lookup c = d ∧ codec.symbol d = fold c := by
  rcases hall c.toNat c.toNat_lt with hnone | ⟨hd, hlookup, hsymbol⟩
  · exact .inl hnone
  · rw [UInt8.ofNat_toNat] at hsymbol
    exact .inr ⟨_, hd, hlookup, hsymbol⟩

theorem base64_lawful : base64.Lawful id encode64Held decode64Held (fun z => z / 2) where
  width_pos := by decide
  width_lt := by decide
  lookup_symbol := by decide +kernel
  lookup_cases := lookup_cases_of_table (by decide +kernel)
  lookup_pad := by decide
  lookup_nul := by decide
  fold_pad := rfl
  encode_sound := encode64_sound
  decode_sound := decode64_sound
  encode_start := rfl
  decode_start := rfl
  encode_last := by
    intro mode r hmode
    have hlt : mode < 3 := (List.getElem?_eq_some_iff.mp hmode).1
    interval_cases mode <;> cases hmode <;> decide
  decode_last := by
    intro mode r hmode
    have hlt : mode < 4 := (List.getElem?_eq_some_iff.mp hmode).1
    interval_cases mode <;> cases hmode <;> exact ⟨by decide, rfl⟩

/-- The padding of `z` zeros after five-bit symbols. -/
def padded32 (z : Nat) : Nat :=
  [0, 3, 6, 1, 4].getD z 0

theorem base32_lawful : base32.Lawful tolower encode32Held decode32Held padded32 where
  width_pos := by decide
  width_lt := by decide
  lookup_symbol := by decide +kernel
  lookup_cases := lookup_cases_of_table (by decide +kernel)
  lookup_pad := by decide
  lookup_nul := by decide
  fold_pad := rfl
  encode_sound := encode32_sound
  decode_sound := decode32_sound
  encode_start := rfl
  decode_start := rfl
  encode_last := by
    intro mode r hmode
    have hlt : mode < 5 := (List.getElem?_eq_some_iff.mp hmode).1
    interval_cases mode <;> cases hmode <;> decide
  decode_last := by
    intro mode r hmode
    have hlt : mode < 8 := (List.getElem?_eq_some_iff.mp hmode).1
    interval_cases mode <;> cases hmode <;> exact ⟨by decide, rfl⟩

/-- Bytes are decoded from their encodings, and a string that is decoded without complaint begins with the encoding of
what it is decoded to, for base 32 in small letters. -/
theorem decodeBase_encodeBase (after : List UInt8) :
    (∀ v, decodeBase64 (cStr (encodeBase64 v) ++ 0 :: after) = some (v, false)) ∧
    (∀ v, decodeBase32 (cStr (encodeBase32 v) ++ 0 :: after) = some (v, false)) ∧
    (∀ str, ∃ v pfInvalid, decodeBase64 (cStr str ++ 0 :: after) = some (v, pfInvalid) ∧
      (pfInvalid = false → encodeBase64 v <+: cStr str)) ∧
    ∀ str, ∃ v pfInvalid, decodeBase32 (cStr str ++ 0 :: after) = some (v, pfInvalid) ∧
      (pfInvalid = false → encodeBase32 v <+: (cStr str).map tolower) := by
  refine ⟨fun v => base64_lawful.decode_encode v after, fun v => base32_lawful.decode_encode v after, fun str => ?_,
    fun str => base32_lawful.encode_decode str after⟩
  obtain ⟨v, pfInvalid, hdecode, hencode⟩ := base64_lawful.encode_decode str after
  rw [map_id] at hencode
  exact ⟨v, pfInvalid, hdecode, hencode⟩

end Reddcoin
