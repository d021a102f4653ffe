import Reddcoin.Lib.Numerals
import Reddcoin.Text.CString

/-!
# Base 58

`EncodeBase58` and `DecodeBase58` of `base58.cpp`: bytes as digits and letters, each leading zero byte as a `1`.  Both
convert a number from one base to another in a buffer of a size fixed in advance.
-/

namespace Reddcoin

open List (replicate)

open Numerals List

/-- All alphanumeric characters except for "0", "I", "O", and "l". -/
def pszBase58 : List UInt8 :=
  "123456789ABCDEFGHJKLMNPQRSTUVWXYZabcdefghijkmnopqrstuvwxyz".toList.map ascii

/-- How the functions end without a result. -/
inductive Base58Stop
  /-- `return false`. -/
  | refused
  /-- `assert(carry == 0)` fails. -/
  | assertion
  /-- The `int` called `zeroes` is counted beyond what it can hold. -/
  | overflow
deriving DecidableEq

/-- `zeroes++`, `n` times. -/
def countZeroes (n : Nat) : Except Base58Stop Nat :=
  if n < 2 ^ 31 then .ok n else .error .overflow

/-! ## Encoding -/

/-- `b58 = b58 * 256 + ch`. -/
def encodeByte (b58 : List Nat) (ch : UInt8) : Except Base58Stop (List Nat) :=
  let s := mulAdd 58 256 ch.toNat b58
  if s.1 = 0 then .ok s.2 else .error .assertion

def base58Char (d : Nat) : UInt8 :=
  pszBase58.getD d 0

def encodeBase58 (vch : List UInt8) : Except Base58Stop (List UInt8) := do
  -- Skip & count leading zeroes.
  let zeroes ← countZeroes (vch.takeWhile (· == 0)).length
  let vch := vch.dropWhile (· == 0)
  let b58 ← vch.foldlM encodeByte (replicate (vch.length * 138 / 100 + 1) 0)
  -- Skip leading zeroes in base58 result.
  .ok (replicate zeroes (ascii '1') ++ (b58.dropWhile (· == 0)).map base58Char)

/-! ## Decoding -/

/-- The loop over the characters: `b256 = b256 * 58 + ch` for each.  What follows the first space is left. -/
def decodeChars : List UInt8 → List Nat → Except Base58Stop (List UInt8 × List Nat)
  | [], b256 => .ok ([], b256)
  | c :: psz, b256 =>
    if isspace c then .ok (c :: psz, b256)
    else
      match pszBase58.idxOf? c with
      | none => .error .refused
      | some ch =>
        let s := mulAdd 256 58 ch b256
        if s.1 = 0 then decodeChars psz s.2 else .error .assertion

def decodeBase58 (str : List UInt8) : Except Base58Stop (List UInt8) := do
  -- Skip leading spaces.
  let psz := (cStr str).dropWhile isspace
  -- Skip and count leading '1's.
  let zeroes ← countZeroes (psz.takeWhile (· == ascii '1')).length
  let psz := psz.dropWhile (· == ascii '1')
  let (psz, b256) ← decodeChars psz (replicate (psz.length * 733 / 1000 + 1) 0)
  -- Skip trailing spaces.
  if psz.dropWhile isspace ≠ [] then .error .refused
  -- Skip leading zeroes in b256.
  else .ok (replicate zeroes 0 ++ (b256.dropWhile (· == 0)).map UInt8.ofNat)

/-! ## Characters -/

theorem base58Char_lookup : ∀ d < 58, pszBase58.idxOf? (base58Char d) = some d := by
  decide

theorem base58Char_plain : ∀ d < 58, isspace (base58Char d) = false ∧ base58Char d ≠ 0 := by
  decide

theorem base58Char_zero : base58Char 0 = ascii '1' := by
  decide

variable {c : UInt8} {d : Nat} {ds pre : List Nat} {psz rest vch : List UInt8} {buf : List Nat}

theorem base58Char_of_lookup (h : pszBase58.idxOf? c = some d) : d < 58 ∧ base58Char d = c := by
  obtain ⟨hlt, hget, -⟩ := idxOf?_eq_some_iff.mp h
  have hlength : pszBase58.length = 58 := by decide
  refine ⟨hlength ▸ hlt, ?_⟩
  unfold base58Char
  rw [getD_eq_getElem?_getD, getElem?_eq_getElem hlt, hget]
  rfl

/-- Different digits have different characters. -/
theorem base58Char_injective {e : Nat} (hd : d < 58) (he : e < 58) (h : base58Char d = base58Char e) : d = e := by
  have hlook := base58Char_lookup d hd
  rw [h, base58Char_lookup e he] at hlook
  exact (Option.some.inj hlook).symm

/-! ## The conversions -/

/-- The bytes as digits. -/
def byteDigits (vch : List UInt8) : List Nat :=
  vch.map UInt8.toNat

theorem digits_byteDigits (vch : List UInt8) : Digits 256 (byteDigits vch) := by
  intro d hd
  obtain ⟨c, -, rfl⟩ := mem_map.mp hd
  exact c.toNat_lt

/-- 138 characters hold 100 bytes. -/
theorem encode_room (n : Nat) : 256 ^ n < 58 ^ (n * 138 / 100 + 1) :=
  pow_lt_pow_div (by omega) (by omega) (by decide) n

/-- 733 bytes hold 1000 characters. -/
theorem decode_room (n : Nat) : 58 ^ n < 256 ^ (n * 733 / 1000 + 1) :=
  pow_lt_pow_div (by omega) (by omega) (by decide +kernel) n

/-- The buffer says the number of the bytes read so far, and nothing is ever carried out of it. -/
theorem encode_run (hdigits : Digits 256 pre) (hbuf : Digits 58 buf) (hsame : value 58 buf = value 256 pre)
    (hroom : 256 ^ (pre.length + vch.length) ≤ 58 ^ buf.length) :
    ∃ buf', vch.foldlM encodeByte buf = .ok buf' ∧ Digits 58 buf' ∧ value 58 buf' = value 256 (pre ++ byteDigits vch) := by
  induction vch generalizing pre buf with
  | nil => exact ⟨buf, rfl, hbuf, by rw [hsame]; exact congrArg _ (append_nil pre).symm⟩
  | cons ch vch ih =>
    have hpre : Digits 256 (pre ++ [ch.toNat]) := hdigits.concat ch.toNat_lt
    rw [length_cons] at hroom
    have hstep : 256 ^ (pre.length + 1) ≤ 58 ^ buf.length :=
      (Nat.pow_le_pow_right (by omega) (by omega)).trans hroom
    obtain ⟨hcarry, hvalue⟩ := convert_step (by omega) hsame hpre hstep
    have hrest : 256 ^ ((pre ++ [ch.toNat]).length + vch.length) ≤ 58 ^ (mulAdd 58 256 ch.toNat buf).2.length := by
      rw [length_mulAdd, length_append, length_singleton, Nat.add_assoc, Nat.add_comm 1]
      exact hroom
    obtain ⟨buf', hrun, hbuf', hend⟩ := ih hpre (digits_mulAdd (by omega) buf) hvalue hrest
    refine ⟨buf', ?_, hbuf', ?_⟩
    · rw [foldlM_cons, encodeByte, if_pos hcarry]
      exact hrun
    · rw [hend, append_assoc]
      rfl

/-- The characters of digits, up to the first space. -/
theorem decode_run (hds : Digits 58 ds) (hrest : EndsWord rest) (hpre : Digits 58 pre) (hbuf : Digits 256 buf)
    (hsame : value 256 buf = value 58 pre) (hroom : 58 ^ (pre.length + ds.length) ≤ 256 ^ buf.length) :
    ∃ buf', decodeChars (ds.map base58Char ++ rest) buf = .ok (rest, buf') ∧ Digits 256 buf' ∧
      value 256 buf' = value 58 (pre ++ ds) := by
  induction ds generalizing pre buf with
  | nil =>
    refine ⟨buf, ?_, hbuf, by rw [append_nil, hsame]⟩
    cases rest with
    | nil => rfl
    | cons c rest =>
      rw [map_nil, nil_append, decodeChars, if_pos (hrest c rfl)]
  | cons d ds ih =>
    obtain ⟨hd, hds⟩ := digits_cons.mp hds
    have hpre' : Digits 58 (pre ++ [d]) := hpre.concat hd
    rw [length_cons] at hroom
    have hstep : 58 ^ (pre.length + 1) ≤ 256 ^ buf.length :=
      (Nat.pow_le_pow_right (by omega) (by omega)).trans hroom
    obtain ⟨hcarry, hvalue⟩ := convert_step (by omega) hsame hpre' hstep
    have hnext : 58 ^ ((pre ++ [d]).length + ds.length) ≤ 256 ^ (mulAdd 256 58 d buf).2.length := by
      rw [length_mulAdd, length_append, length_singleton, Nat.add_assoc, Nat.add_comm 1]
      exact hroom
    obtain ⟨buf', hrun, hbuf', hend⟩ := ih hds hpre' (digits_mulAdd (by omega) buf)
      hvalue hnext
    refine ⟨buf', ?_, hbuf', by rw [hend, append_assoc]; rfl⟩
    rw [map_cons, cons_append, decodeChars, (base58Char_plain d hd).1, base58Char_lookup d hd]
    simp only [Bool.false_eq_true, if_false, if_pos hcarry]
    exact hrun

/-- What is decoded are characters of digits, up to the first space. -/
theorem decodeChars_ok {buf' : List Nat} (h : decodeChars psz buf = .ok (rest, buf')) :
    ∃ ds, Digits 58 ds ∧ EndsWord rest ∧ psz = ds.map base58Char ++ rest := by
  induction psz generalizing buf with
  | nil =>
    cases h
    exact ⟨[], digits_nil, endsWord_nil, rfl⟩
  | cons c psz ih =>
    rw [decodeChars] at h
    by_cases hspace : isspace c = true
    · rw [if_pos hspace] at h
      cases h
      refine ⟨[], digits_nil, fun c' hc' => ?_, rfl⟩
      rw [← Option.mem_some_iff.mp hc']
      exact hspace
    · rw [if_neg hspace] at h
      cases hlook : pszBase58.idxOf? c with
      | none =>
        rw [hlook] at h
        cases h
      | some d =>
        rw [hlook] at h
        obtain ⟨hd, hchar⟩ := base58Char_of_lookup hlook
        by_cases hcarry : (mulAdd 256 58 d buf).1 = 0
        · simp only [if_pos hcarry] at h
          obtain ⟨ds, hds, hrest, rfl⟩ := ih h
          exact ⟨d :: ds, digits_cons.mpr ⟨hd, hds⟩, hrest, by rw [map_cons, cons_append, hchar]⟩
        · simp only [if_neg hcarry] at h
          cases h

/-- The assertion holds as long as there is room. -/
theorem decodeChars_assertion (hpre : Digits 58 pre) (hsame : value 256 buf = value 58 pre)
    (hroom : 58 ^ (pre.length + psz.length) ≤ 256 ^ buf.length) : decodeChars psz buf ≠ .error .assertion := by
  induction psz generalizing pre buf with
  | nil => exact fun h => by cases h
  | cons c psz ih =>
    rw [decodeChars]
    by_cases hspace : isspace c = true
    · rw [if_pos hspace]
      exact fun h => by cases h
    · rw [if_neg hspace]
      cases hlook : pszBase58.idxOf? c with
      | none => exact fun h => by cases h
      | some d =>
        have hpre' : Digits 58 (pre ++ [d]) := hpre.concat (base58Char_of_lookup hlook).1
        rw [length_cons] at hroom
        have hstep : 58 ^ (pre.length + 1) ≤ 256 ^ buf.length :=
          (Nat.pow_le_pow_right (by omega) (by omega)).trans hroom
        obtain ⟨hcarry, hvalue⟩ := convert_step (by omega) hsame hpre' hstep
        simp only [if_pos hcarry]
        refine ih hpre' hvalue ?_
        rw [length_mulAdd, length_append, length_singleton, Nat.add_assoc, Nat.add_comm 1]
        exact hroom

/-! ## Leading zeroes -/

section

variable {α : Type} [DecidableEq α] {a : α} {l : List α}

/-- A run of one element, and what follows it. -/
theorem split_run (a : α) (l : List α) :
    l = replicate (l.takeWhile (· == a)).length a ++ l.dropWhile (· == a) ∧
      (l.dropWhile (· == a)).head? ≠ some a := by
  constructor
  · have hrun : l.takeWhile (· == a) = replicate (l.takeWhile (· == a)).length a := by
      refine eq_replicate_iff.mpr ⟨rfl, fun b hb => ?_⟩
      simpa using mem_takeWhile_imp hb
    rw [← hrun]
    exact takeWhile_append_dropWhile.symm
  · intro hhead
    have hnot := head?_dropWhile_not (fun b : α => b == a) l
    rw [hhead] at hnot
    simp at hnot

theorem takeWhile_run (n : Nat) (h : l.head? ≠ some a) :
    ((replicate n a ++ l).takeWhile (· == a)).length = n ∧ (replicate n a ++ l).dropWhile (· == a) = l := by
  have hrest : l.takeWhile (· == a) = [] ∧ l.dropWhile (· == a) = l := by
    cases l with
    | nil => exact ⟨rfl, rfl⟩
    | cons b l =>
      have hb : ¬ (b == a) = true := by
        intro heq
        apply h
        rw [head?_cons, eq_of_beq heq]
      exact ⟨takeWhile_cons_of_neg hb, dropWhile_cons_of_neg hb⟩
  have hall : ∀ b ∈ replicate n a, (b == a) = true := by
    intro b hb
    rw [eq_of_mem_replicate hb]
    exact beq_self_eq_true a
  rw [takeWhile_append_of_pos hall, dropWhile_append_of_pos hall, hrest.1, hrest.2, append_nil, length_replicate]
  exact ⟨rfl, rfl⟩

end

theorem trimmed_byteDigits : Trimmed (byteDigits vch) ↔ vch.head? ≠ some 0 := by
  unfold Trimmed byteDigits
  rw [head?_map]
  refine not_congr ⟨fun h => ?_, fun h => by rw [h]; rfl⟩
  obtain ⟨c, hc, hzero⟩ := Option.map_eq_some_iff.mp h
  rw [hc, UInt8.toNat_inj.mp (hzero.trans UInt8.toNat_zero.symm)]

theorem byteDigits_ofNat (h : Digits 256 ds) : byteDigits (ds.map UInt8.ofNat) = ds := by
  unfold byteDigits
  rw [map_map]
  refine (map_congr_left fun d hd => ?_).trans (map_id ds)
  exact UInt8.toNat_ofNat_of_lt (h d hd)

theorem byteDigits_injective {vch' : List UInt8} (h : byteDigits vch = byteDigits vch') : vch = vch' :=
  map_injective_iff.mpr (fun _ _ => UInt8.toNat_inj.mp) h

/-! ## The two functions -/

section

variable {zeroes : Nat}

/-- What is encoded: the digits of the number, with a `1` for each zero in front. -/
theorem encodeBase58_eq (hzeroes : zeroes < 2 ^ 31) (hhead : vch.head? ≠ some 0) :
    ∃ ds, Digits 58 ds ∧ Trimmed ds ∧ value 58 ds = value 256 (byteDigits vch) ∧
      encodeBase58 (replicate zeroes 0 ++ vch) =
        .ok (replicate zeroes (ascii '1') ++ ds.map base58Char) := by
  obtain ⟨hrun, hrest⟩ := takeWhile_run zeroes hhead
  have hroom : 256 ^ (([] : List Nat).length + vch.length) ≤
      58 ^ (replicate (vch.length * 138 / 100 + 1) 0).length := by
    rw [length_nil, Nat.zero_add, length_replicate]
    exact (encode_room vch.length).le
  obtain ⟨b58, hloop, hb58, hvalue⟩ := encode_run digits_nil (digits_replicate_zero (by omega) _)
    (by rw [value_replicate_zero, value_nil]) hroom
  refine ⟨b58.dropWhile (· == 0), hb58.dropWhile _, trimmed_dropWhile b58, ?_, ?_⟩
  · rw [value_dropWhile, hvalue, nil_append]
  · simp only [encodeBase58, hrun, hrest, countZeroes, if_pos hzeroes, hloop]
    rfl

/-- The first character after the leading `1`s is another one. -/
theorem head_decoded (htrimmed : Trimmed ds) (hds : Digits 58 ds) (hrest : EndsWord rest) :
    (ds.map base58Char ++ rest).head? ≠ some (ascii '1') := by
  rw [← base58Char_zero]
  cases ds with
  | nil =>
    intro hhead
    have hspace := hrest _ hhead
    rw [(base58Char_plain 0 (by omega)).1] at hspace
    cases hspace
  | cons d ds =>
    intro hhead
    apply htrimmed
    have hd := (digits_cons.mp hds).1
    exact congrArg some (base58Char_injective hd (by omega) (Option.some.inj hhead))

/-- The characters of an encoded number. -/
theorem word_plain (zeroes : Nat) (hds : Digits 58 ds) : ∀ c ∈ replicate zeroes (ascii '1') ++ ds.map base58Char,
    isspace c = false ∧ c ≠ 0 := by
  intro c hc
  rcases mem_append.mp hc with hc | hc
  · rw [eq_of_mem_replicate hc, ← base58Char_zero]
    exact base58Char_plain 0 (by omega)
  · obtain ⟨d, hd, rfl⟩ := mem_map.mp hc
    exact base58Char_plain d (hds d hd)

theorem space_ne_zero (h : isspace c) : c ≠ 0 := by
  rintro rfl
  cases h

/-- What is decoded: the bytes of the number, with a zero for each `1` in front. -/
theorem decodeBase58_eq {before after : List UInt8} (hzeroes : zeroes < 2 ^ 31) (hds : Digits 58 ds)
    (htrimmed : Trimmed ds) (hbefore : ∀ c ∈ before, isspace c) (hafter : ∀ c ∈ after, isspace c) :
    ∃ vch, vch.head? ≠ some 0 ∧ value 256 (byteDigits vch) = value 58 ds ∧
      decodeBase58 (before ++ (replicate zeroes (ascii '1') ++ ds.map base58Char) ++ after) =
        .ok (replicate zeroes 0 ++ vch) := by
  have hword := word_plain zeroes hds
  -- the string has no NUL of its own
  have hstr : cStr (before ++ (replicate zeroes (ascii '1') ++ ds.map base58Char) ++ after) =
      before ++ (replicate zeroes (ascii '1') ++ ds.map base58Char) ++ after := by
    refine cStr_of_notMem fun hmem => ?_
    rcases mem_append.mp hmem with hmem | hmem
    · rcases mem_append.mp hmem with hmem | hmem
      · exact space_ne_zero (hbefore _ hmem) rfl
      · exact (hword _ hmem).2 rfl
    · exact space_ne_zero (hafter _ hmem) rfl
  obtain ⟨rest, hskip, hspaces⟩ := dropWhile_word hafter fun c hc => (hword c hc).1
  have hskipped : (before ++ (replicate zeroes (ascii '1') ++ ds.map base58Char) ++ after).dropWhile isspace =
      replicate zeroes (ascii '1') ++ (ds.map base58Char ++ rest) := by
    rw [append_assoc, dropWhile_append_of_pos hbefore, hskip, append_assoc]
  have hends : EndsWord rest := fun c hc => hspaces c (mem_of_mem_head? hc)
  obtain ⟨hrun, hrest⟩ := takeWhile_run zeroes (head_decoded htrimmed hds hends)
  have hroom : 58 ^ (([] : List Nat).length + ds.length) ≤
      256 ^ (replicate ((ds.map base58Char ++ rest).length * 733 / 1000 + 1) 0).length := by
    rw [length_nil, Nat.zero_add, length_replicate]
    refine (Nat.pow_le_pow_right (by omega) ?_).trans (decode_room (ds.map base58Char ++ rest).length).le
    rw [length_append, length_map]
    omega
  obtain ⟨b256, hloop, hb256, hvalue⟩ := decode_run hds hends digits_nil (digits_replicate_zero (by omega) _)
    (by rw [value_replicate_zero, value_nil]) hroom
  have hbytes := byteDigits_ofNat (hb256.dropWhile (· == 0))
  refine ⟨(b256.dropWhile (· == 0)).map UInt8.ofNat, ?_, ?_, ?_⟩
  · rw [← trimmed_byteDigits, hbytes]
    exact trimmed_dropWhile b256
  · rw [hbytes, value_dropWhile, hvalue, nil_append]
  · have hend : rest.dropWhile isspace = [] := dropWhile_eq_nil_iff.mpr hspaces
    simp only [decodeBase58, hstr, hskipped, hrun, hrest, countZeroes, if_pos hzeroes, hloop, bind, Except.bind, hend]
    rfl

/-- A string that is accepted is the encoding of a number between white space. -/
theorem decodeBase58_ok {str : List UInt8} (hnul : 0 ∉ str) (h : decodeBase58 str = .ok vch) :
    ∃ before zeroes ds after, str = before ++ (replicate zeroes (ascii '1') ++ ds.map base58Char) ++ after ∧
      zeroes < 2 ^ 31 ∧ Digits 58 ds ∧ Trimmed ds ∧ (∀ c ∈ before, isspace c) ∧
        ∀ c ∈ after, isspace c = true := by
  rw [decodeBase58, cStr_of_notMem hnul] at h
  let psz := str.dropWhile isspace
  let zeroes := (psz.takeWhile (· == ascii '1')).length
  obtain ⟨hsplit, hhead⟩ := split_run (ascii '1') psz
  by_cases hzeroes : zeroes < 2 ^ 31
  swap
  · rw [countZeroes, if_neg hzeroes] at h
    cases h
  rw [countZeroes, if_pos hzeroes] at h
  cases hloop : decodeChars (psz.dropWhile (· == ascii '1'))
      (replicate ((psz.dropWhile (· == ascii '1')).length * 733 / 1000 + 1) 0) with
  | error stop =>
    simp only [bind, Except.bind, psz] at h hloop
    rw [hloop] at h
    cases h
  | ok r =>
    obtain ⟨rest, b256⟩ := r
    obtain ⟨ds, hds, hends, hchars⟩ := decodeChars_ok hloop
    simp only [bind, Except.bind, psz] at h hloop
    rw [hloop] at h
    by_cases hend : rest.dropWhile isspace = []
    · refine ⟨str.takeWhile isspace, zeroes, ds, rest, ?_, hzeroes, hds, ?_, ?_, dropWhile_eq_nil_iff.mp hend⟩
      · rw [append_assoc, append_assoc, ← hchars, ← hsplit]
        exact takeWhile_append_dropWhile.symm
      · -- a zero digit would have been one more `1`
        intro hzero
        apply hhead
        cases ds with
        | nil => cases hzero
        | cons d ds =>
          rw [hchars, map_cons, cons_append, head?_cons, Option.some.inj hzero, base58Char_zero]
      · exact fun c hc => mem_takeWhile_imp hc
    · simp only [ne_eq, hend, not_false_eq_true, if_true] at h
      cases h

end

/-! ## Round trips -/

/-- Bytes that begin with fewer than 2^31 zeroes are encoded and decoded again, and so is every string that is
accepted, up to white space around it.  The buffers are never too small. -/
theorem base58_roundTrip :
    (∀ vch : List UInt8, (vch.takeWhile (· == 0)).length < 2 ^ 31 →
      ∃ str, encodeBase58 vch = .ok str ∧ decodeBase58 str = .ok vch) ∧
    (∀ str vch : List UInt8, 0 ∉ str → decodeBase58 str = .ok vch → encodeBase58 vch = .ok (trim str)) ∧
    (∀ vch : List UInt8, encodeBase58 vch ≠ .error .assertion) ∧
    ∀ str : List UInt8, decodeBase58 str ≠ .error .assertion := by
  refine ⟨fun vch hzeroes => ?_, fun str vch hnul h => ?_, fun vch h => ?_, fun str h => ?_⟩
  · obtain ⟨hsplit, hhead⟩ := split_run 0 vch
    obtain ⟨ds, hds, htrimmed, hvalue, hencode⟩ := encodeBase58_eq hzeroes hhead
    rw [← hsplit] at hencode
    refine ⟨_, hencode, ?_⟩
    obtain ⟨vch', hhead', hvalue', hdecode⟩ := decodeBase58_eq hzeroes hds htrimmed
      (fun c hc => (not_mem_nil hc).elim) (fun c hc => (not_mem_nil hc).elim)
    rw [nil_append, append_nil] at hdecode
    have hsame := Trimmed.unique (by omega) (trimmed_byteDigits.mpr hhead') (trimmed_byteDigits.mpr hhead)
      (digits_byteDigits _) (digits_byteDigits _) (hvalue'.trans hvalue)
    rw [hdecode, byteDigits_injective hsame, ← hsplit]
  · obtain ⟨before, zeroes, ds, after, rfl, hzeroes, hds, htrimmed, hbefore, hafter⟩ := decodeBase58_ok hnul h
    obtain ⟨vch', hhead, hvalue, hdecode⟩ := decodeBase58_eq hzeroes hds htrimmed hbefore hafter
    rw [hdecode] at h
    cases h
    rw [trim_eq hbefore hafter fun c hc => (word_plain zeroes hds c hc).1]
    obtain ⟨ds', hds', htrimmed', hvalue', hencode⟩ := encodeBase58_eq hzeroes hhead
    rw [hencode, htrimmed'.unique (by omega) htrimmed hds' hds (hvalue'.trans hvalue)]
  · by_cases hzeroes : (vch.takeWhile (· == 0)).length < 2 ^ 31
    · obtain ⟨hsplit, hhead⟩ := split_run 0 vch
      obtain ⟨ds, -, -, -, hencode⟩ := encodeBase58_eq hzeroes hhead
      rw [← hsplit, h] at hencode
      cases hencode
    · rw [encodeBase58, countZeroes, if_neg hzeroes] at h
      cases h
  · rw [decodeBase58] at h
    let psz := ((cStr str).dropWhile isspace).dropWhile (· == ascii '1')
    have hroom : 58 ^ (([] : List Nat).length + psz.length) ≤
        256 ^ (replicate (psz.length * 733 / 1000 + 1) 0).length := by
      rw [length_nil, Nat.zero_add, length_replicate]
      exact (decode_room psz.length).le
    have hholds := decodeChars_assertion digits_nil (by rw [value_replicate_zero, value_nil]) hroom
    by_cases hzeroes : (((cStr str).dropWhile isspace).takeWhile (· == ascii '1')).length < 2 ^ 31
    · rw [countZeroes, if_pos hzeroes] at h
      cases hloop : decodeChars psz (replicate (psz.length * 733 / 1000 + 1) 0) with
      | error stop =>
        have hloop' := hloop
        simp only [bind, Except.bind, psz] at h hloop'
        rw [hloop'] at h
        exact hholds (hloop.trans (congrArg Except.error (Except.error.inj h)))
      | ok r =>
        have hloop' := hloop
        simp only [bind, Except.bind, psz] at h hloop'
        rw [hloop'] at h
        by_cases hend : r.1.dropWhile isspace = []
        · simp only [ne_eq, hend, not_true_eq_false, if_false] at h
          cases h
        · simp only [ne_eq, hend, not_false_eq_true, if_true] at h
          cases h
    · rw [countZeroes, if_neg hzeroes] at h
      cases h

/-- 2^31 zeroes are more than `zeroes` can count. -/
theorem encodeBase58_overflow : encodeBase58 (replicate (2 ^ 31) 0) = .error .overflow ∧
    ¬ ∃ str, encodeBase58 (replicate (2 ^ 31) 0) = .ok str ∧
      decodeBase58 str = .ok (replicate (2 ^ 31) 0) := by
  have hcount := (takeWhile_run (a := (0 : UInt8)) (l := []) (2 ^ 31) (by decide)).1
  rw [append_nil] at hcount
  have hstop : encodeBase58 (replicate (2 ^ 31) 0) = .error .overflow := by
    rw [encodeBase58, hcount, countZeroes, if_neg (Nat.lt_irrefl _)]
    rfl
  refine ⟨hstop, ?_⟩
  rintro ⟨str, hok, -⟩
  rw [hstop] at hok
  cases hok

end Reddcoin
