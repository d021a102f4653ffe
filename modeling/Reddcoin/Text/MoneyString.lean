import Mathlib.Data.Nat.Digits.Lemmas
import Reddcoin.Lib.Numerals
import Reddcoin.Primitives.Transaction
import Reddcoin.Text.CString

/-!
# Amounts of money as text

`FormatMoney` and `ParseMoney` of `utilmoneystr.cpp`.
-/

namespace Reddcoin

open Numerals List

/-! ## Formatting -/

def digitChar (d : Nat) : UInt8 :=
  UInt8.ofNat (48 + d)

def digitsText (ds : List Nat) : List UInt8 :=
  ds.map digitChar

/-- The decimal digits of a number, at least one. -/
def decimalDigits (n : Nat) : List Nat :=
  if n = 0 then [0] else (Nat.digits 10 n).reverse

/-- The decimal digits of a number, at least `width`. -/
def paddedDigits (width n : Nat) : List Nat :=
  List.replicate (width - (decimalDigits n).length) 0 ++ decimalDigits n

/-- `%d`. -/
def formatInt (i : Int) : List UInt8 :=
  if i < 0 then ascii '-' :: digitsText (decimalDigits i.natAbs) else digitsText (decimalDigits i.natAbs)

/-- `%08d`: the sign counts, and comes before the zeroes. -/
def formatPadded (i : Int) : List UInt8 :=
  if i < 0 then ascii '-' :: digitsText (paddedDigits 7 i.natAbs) else digitsText (paddedDigits 8 i.natAbs)

/-- The loop from the `i`th character down: how many zeroes are trimmed.  A character outside the string cannot be
read. -/
def countTrim (str : List UInt8) : Nat → Option Nat
  | i + 2 => do
    let c ← str[i + 2]?
    if c = ascii '0' then do
      let before ← str[i]?
      if isdigit before then do
        let nTrim ← countTrim str (i + 1)
        pure (nTrim + 1)
      else pure 0
    else pure 0
  | i => do
    let c ← str[i]?
    if c = ascii '0' then none else pure 0

def formatMoney (n : Int) (fPlus : Bool) : Option (List UInt8) := do
  let n_abs := if 0 < n then n else wrap64 (-n)
  let quotient := n_abs.tdiv COIN
  let remainder := n_abs.tmod COIN
  let str := formatInt quotient ++ ascii '.' :: formatPadded remainder
  -- Right-trim excess zeros before the decimal point
  let nTrim ← countTrim str (str.length - 1)
  let str := str.take (str.length - nTrim)
  if n < 0 then pure (ascii '-' :: str)
  else if fPlus ∧ 0 < n then pure (ascii '+' :: str)
  else pure str

/-! ## Parsing -/

/-- `strtoll(str, NULL, 10)`: what does not fit is cut off at the ends of the range. -/
def atoi64 (str : List UInt8) : Int :=
  let p := (cStr str).dropWhile isspace
  let digits := if p.head? = some (ascii '-') ∨ p.head? = some (ascii '+') then p.tail else p
  let n := value 10 ((digits.takeWhile isdigit).map fun c => c.toNat - 48)
  if p.head? = some (ascii '-') then max (-2 ^ 63) (-n) else min (2 ^ 63 - 1) n

/-- The digits after the point: the units, and what follows. -/
def parseUnits : List UInt8 → Int → Int → Int × List UInt8
  | [], nUnits, _ => (nUnits, [])
  | c :: p, nUnits, nMult =>
    if isdigit c ∧ 0 < nMult then parseUnits p (nUnits + nMult * (c.toNat - 48)) (nMult / 10)
    else (nUnits, c :: p)

/-- The digits before the point, the units, and what follows. -/
def parseWhole : List UInt8 → List UInt8 → Option (List UInt8 × Int × List UInt8)
  | [], strWhole => some (strWhole, 0, [])
  | c :: p, strWhole =>
    if c = ascii '.' then some (strWhole, parseUnits p 0 (CENT * 10))
    else if isspace c then some (strWhole, 0, c :: p)
    else if !isdigit c then none
    else parseWhole p (strWhole ++ [c])

def parseMoney (str : List UInt8) : Option Int := do
  let p := (cStr str).dropWhile isspace
  let (strWhole, nUnits, p) ← parseWhole p []
  if !p.all isspace then none
  -- guard against 63 bit overflow
  else if 10 < strWhole.length then none
  else if nUnits < 0 ∨ COIN < nUnits then none
  else
    let nWhole := atoi64 strWhole
    pure (wrap64 (nWhole * COIN + nUnits))

/-! ## What a string says -/

/-- The string says an amount: white space, digits, perhaps a point with up to eight digits more, white space. -/
def SaysMoney (str : List UInt8) (n : Int) : Prop :=
  ∃ before whole frac tail after, str = before ++ digitsText whole ++ tail ++ after ∧
    (∀ c ∈ before, isspace c = true) ∧ (∀ c ∈ after, isspace c = true) ∧ Digits 10 whole ∧ Digits 10 frac ∧
    frac.length ≤ 8 ∧ (tail = [] ∧ frac = [] ∨ tail = ascii '.' :: digitsText frac) ∧
    n = value 10 whole * COIN + value 10 frac * 10 ^ (8 - frac.length)

variable {c : UInt8} {d : Nat} {ds frac whole : List Nat} {p rest str strWhole : List UInt8} {n : Int}

/-! ## Digits -/

theorem digitChar_plain : ∀ d < 10, isdigit (digitChar d) ∧ isspace (digitChar d) = false ∧
    digitChar d ≠ ascii '.' ∧ digitChar d ≠ ascii '-' ∧ digitChar d ≠ ascii '+' ∧ digitChar d ≠ 0 ∧
    (digitChar d).toNat = 48 + d := by
  decide

theorem digitChar_of_isdigit (h : isdigit c) : c.toNat - 48 < 10 ∧ digitChar (c.toNat - 48) = c := by
  simp only [isdigit, Bool.and_eq_true, decide_eq_true_eq, UInt8.le_iff_toNat_le] at h
  have hlow : 48 ≤ c.toNat := h.1
  have hhigh : c.toNat ≤ 57 := h.2
  refine ⟨by omega, ?_⟩
  unfold digitChar
  rw [Nat.add_sub_cancel' hlow]
  exact UInt8.ofNat_toNat

theorem digitsText_plain (hds : Digits 10 ds) : ∀ c ∈ digitsText ds, isdigit c ∧ isspace c = false ∧ c ≠ 0 := by
  intro c hc
  obtain ⟨d, hd, rfl⟩ := mem_map.mp hc
  obtain ⟨hdigit, hspace, -, -, -, hzero, -⟩ := digitChar_plain d (hds d hd)
  exact ⟨hdigit, hspace, hzero⟩

theorem digits_value (hds : Digits 10 ds) : (digitsText ds).map (fun c => c.toNat - 48) = ds := by
  unfold digitsText
  rw [map_map]
  refine (map_congr_left fun d hd => ?_).trans (map_id ds)
  show (digitChar d).toNat - 48 = d
  rw [(digitChar_plain d (hds d hd)).2.2.2.2.2.2]
  omega

theorem atoi64_digitsText (hds : Digits 10 ds) (hlength : ds.length ≤ 10) : atoi64 (digitsText ds) = value 10 ds := by
  have hplain := digitsText_plain hds
  have hstr : cStr (digitsText ds) = digitsText ds := cStr_of_notMem fun hmem => (hplain 0 hmem).2.2 rfl
  have hskip := dropWhile_plain fun c hc => (hplain c hc).2.1
  have hsign : ∀ c, (digitsText ds).head? = some c → c ≠ ascii '-' ∧ c ≠ ascii '+' := by
    intro c hc
    obtain ⟨d, hd, rfl⟩ := mem_map.mp (mem_of_mem_head? hc)
    obtain ⟨-, -, -, hminus, hplus, -⟩ := digitChar_plain d (hds d hd)
    exact ⟨hminus, hplus⟩
  have hminus : (digitsText ds).head? ≠ some (ascii '-') := fun h => (hsign _ h).1 rfl
  have hplus : (digitsText ds).head? ≠ some (ascii '+') := fun h => (hsign _ h).2 rfl
  have hall : (digitsText ds).takeWhile isdigit = digitsText ds :=
    takeWhile_eq_self_iff.mpr fun c hc => (hplain c hc).1
  have hlt := value_lt (by omega) hds
  have hpow : 10 ^ ds.length ≤ 10 ^ 10 := Nat.pow_le_pow_right (by omega) hlength
  simp only [atoi64, hstr, hskip, hminus, hplus, or_self, if_false, hall, digits_value hds]
  omega

/-! ## Parsing -/

/-- `nMult` with `k` digits to go. -/
def unitMult (k : Nat) : Int :=
  if k = 0 then 0 else 10 ^ (k - 1)

theorem unitMult_succ (k : Nat) : unitMult (k + 1) = 10 ^ k :=
  if_neg (Nat.succ_ne_zero k)

theorem unitMult_div (k : Nat) : unitMult (k + 1) / 10 = unitMult k := by
  rw [unitMult_succ]
  cases k with
  | zero => rfl
  | succ k =>
    rw [unitMult_succ, pow_succ]
    exact Int.mul_ediv_cancel _ (by decide)

/-- The units that digits after the point add: those of the first digit and of the rest. -/
theorem units_cons {k : Nat} (d : Nat) (ds : List Nat) (hlength : ds.length ≤ k) :
    (value 10 (d :: ds) : Int) * 10 ^ (k + 1 - (ds.length + 1)) = 10 ^ k * d + value 10 ds * 10 ^ (k - ds.length) := by
  have hpow : (10 : Int) ^ k = 10 ^ ds.length * 10 ^ (k - ds.length) := by
    rw [← pow_add, Nat.add_sub_cancel' hlength]
  rw [value_cons, Nat.add_sub_add_right, hpow]
  push_cast
  ring

theorem parseUnits_digits {k : Nat} (hds : Digits 10 ds) (hlength : ds.length ≤ k)
    (hrest : ds.length = k ∨ ∀ c ∈ rest.head?, isdigit c = false) (nUnits : Int) :
    parseUnits (digitsText ds ++ rest) nUnits (unitMult k) = (nUnits + value 10 ds * 10 ^ (k - ds.length), rest) := by
  induction ds generalizing k nUnits with
  | nil =>
    have hsum : nUnits + value 10 [] * 10 ^ (k - ([] : List Nat).length) = nUnits := by simp
    rw [hsum]
    cases rest with
    | nil => rfl
    | cons c rest =>
      show parseUnits (c :: rest) nUnits (unitMult k) = _
      rw [parseUnits, if_neg]
      rintro ⟨hdigit, hpos⟩
      rcases hrest with hk | hrest
      · rw [← hk] at hpos
        exact absurd hpos (by decide)
      · rw [hrest c rfl] at hdigit
        cases hdigit
  | cons d ds ih =>
    obtain ⟨hd, hds⟩ := digits_cons.mp hds
    obtain ⟨k, rfl⟩ : ∃ j, k = j + 1 := ⟨k - 1, by rw [length_cons] at hlength; omega⟩
    have hlength : ds.length ≤ k := Nat.le_of_succ_le_succ hlength
    obtain ⟨hdigit, -, -, -, -, -, hchar⟩ := digitChar_plain d hd
    have hpos : 0 < unitMult (k + 1) := by
      rw [unitMult_succ]
      exact Int.pow_pos (by decide)
    show parseUnits (digitChar d :: (digitsText ds ++ rest)) nUnits _ = _
    rw [parseUnits, if_pos ⟨hdigit, hpos⟩, unitMult_div, ih hds hlength (hrest.imp_left Nat.succ.inj), hchar,
      length_cons, units_cons d ds hlength, unitMult_succ]
    refine Prod.ext ?_ rfl
    show nUnits + 10 ^ k * (((48 + d : Nat) : Int) - 48) + _ = _
    push_cast
    ring

/-- The units are those of the digits at the front, up to eight of them. -/
theorem parseUnits_split (k : Nat) (p : List UInt8) : ∃ ds rest, p = digitsText ds ++ rest ∧ Digits 10 ds ∧
    ds.length ≤ k ∧ (ds.length = k ∨ ∀ c ∈ rest.head?, isdigit c = false) := by
  induction k generalizing p with
  | zero => exact ⟨[], p, rfl, digits_nil, Nat.le_refl 0, .inl rfl⟩
  | succ k ih =>
    cases p with
    | nil => exact ⟨[], [], rfl, digits_nil, Nat.zero_le _, .inr fun c hc => by cases hc⟩
    | cons c p =>
      cases hdigit : isdigit c with
      | false =>
        refine ⟨[], c :: p, rfl, digits_nil, Nat.zero_le _, .inr fun c' hc' => ?_⟩
        rw [← Option.mem_some_iff.mp hc']
        exact hdigit
      | true =>
        obtain ⟨hd, hchar⟩ := digitChar_of_isdigit hdigit
        obtain ⟨ds, rest, rfl, hds, hlength, hrest⟩ := ih p
        refine ⟨(c.toNat - 48) :: ds, rest, ?_, digits_cons.mpr ⟨hd, hds⟩, Nat.succ_le_succ hlength,
          hrest.imp_left (congrArg Nat.succ)⟩
        show _ = digitChar _ :: (digitsText ds ++ rest)
        rw [hchar]

theorem unitMult_start : CENT * 10 = unitMult 8 := by
  decide

/-- The units of up to eight digits are less than a coin. -/
theorem units_range (hfrac : Digits 10 frac) (hlength : frac.length ≤ 8) :
    (0 : Int) ≤ value 10 frac * 10 ^ (8 - frac.length) ∧ (value 10 frac * 10 ^ (8 - frac.length) : Int) < COIN := by
  have hlt := value_lt (by omega) hfrac
  have hpow : 10 ^ frac.length * 10 ^ (8 - frac.length) = 10 ^ 8 := by
    rw [← Nat.pow_add, Nat.add_sub_cancel' hlength]
  have hmul := Nat.mul_lt_mul_of_pos_right hlt (Nat.pow_pos (by omega) : 0 < 10 ^ (8 - frac.length))
  rw [hpow] at hmul
  have hcoin : COIN = ((10 ^ 8 : Nat) : Int) := by decide
  rw [hcoin]
  exact ⟨by positivity, by exact_mod_cast hmul⟩

/-- What the amount comes to: nothing overflows with up to ten digits before the point. -/
theorem amount_range (hwhole : Digits 10 whole) (hlength : whole.length ≤ 10) (hfrac : Digits 10 frac)
    (hunits : frac.length ≤ 8) :
    0 ≤ value 10 whole * COIN + value 10 frac * 10 ^ (8 - frac.length) ∧
      value 10 whole * COIN + value 10 frac * 10 ^ (8 - frac.length) < 2 ^ 63 := by
  have hrange := units_range hfrac hunits
  have hlt := value_lt (by omega) hwhole
  have hpow : 10 ^ whole.length ≤ 10 ^ 10 := Nat.pow_le_pow_right (by omega) hlength
  unfold COIN at hrange ⊢
  omega

theorem parseWhole_digits (hds : Digits 10 ds) (p strWhole : List UInt8) :
    parseWhole (digitsText ds ++ p) strWhole = parseWhole p (strWhole ++ digitsText ds) := by
  induction ds generalizing strWhole with
  | nil => exact congrArg (parseWhole p) (append_nil strWhole).symm
  | cons d ds ih =>
    obtain ⟨hd, hds⟩ := digits_cons.mp hds
    obtain ⟨hdigit, hspace, hpoint, -⟩ := digitChar_plain d hd
    show parseWhole (digitChar d :: (digitsText ds ++ p)) strWhole = _
    rw [parseWhole, if_neg hpoint, hspace, hdigit]
    simp only [Bool.false_eq_true, if_false, Bool.not_true]
    rw [ih hds, append_assoc]
    rfl

/-- What the first loop has read. -/
theorem parseWhole_ok {nUnits : Int} (h : parseWhole p strWhole = some (str, nUnits, rest)) :
    ∃ whole frac tail, p = digitsText whole ++ tail ++ rest ∧ str = strWhole ++ digitsText whole ∧ Digits 10 whole ∧
      Digits 10 frac ∧ frac.length ≤ 8 ∧ (tail = [] ∧ frac = [] ∨ tail = ascii '.' :: digitsText frac) ∧
        nUnits = value 10 frac * 10 ^ (8 - frac.length) := by
  induction p generalizing strWhole with
  | nil =>
    obtain ⟨rfl, hrest⟩ := Prod.mk.inj (Option.some.inj h)
    cases hrest
    exact ⟨[], [], [], rfl, (append_nil _).symm, digits_nil, digits_nil, Nat.zero_le _, .inl ⟨rfl, rfl⟩, rfl⟩
  | cons c p ih =>
    rw [parseWhole] at h
    by_cases hpoint : c = ascii '.'
    · rw [if_pos hpoint] at h
      obtain ⟨rfl, hunits⟩ := Prod.mk.inj (Option.some.inj h)
      obtain ⟨frac, rest', rfl, hfrac, hlength, hends⟩ := parseUnits_split 8 p
      rw [unitMult_start, parseUnits_digits hfrac hlength hends, Int.zero_add] at hunits
      cases hunits
      refine ⟨[], frac, c :: digitsText frac, rfl, (append_nil _).symm, digits_nil, hfrac, hlength, ?_, rfl⟩
      exact .inr (by rw [hpoint])
    · rw [if_neg hpoint] at h
      by_cases hspace : isspace c = true
      · rw [if_pos hspace] at h
        obtain ⟨rfl, hrest⟩ := Prod.mk.inj (Option.some.inj h)
        cases hrest
        exact ⟨[], [], [], rfl, (append_nil _).symm, digits_nil, digits_nil, Nat.zero_le _, .inl ⟨rfl, rfl⟩, rfl⟩
      · rw [if_neg hspace] at h
        cases hdigit : isdigit c with
        | false =>
          rw [hdigit, Bool.not_false, if_pos rfl] at h
          cases h
        | true =>
          rw [hdigit, Bool.not_true, if_neg Bool.false_ne_true] at h
          obtain ⟨hd, hchar⟩ := digitChar_of_isdigit hdigit
          obtain ⟨whole, frac, tail, rfl, rfl, hwhole, hrest⟩ := ih h
          refine ⟨(c.toNat - 48) :: whole, frac, tail, ?_, ?_, digits_cons.mpr ⟨hd, hwhole⟩, hrest⟩
          · show _ = digitChar _ :: _
            rw [hchar]
            rfl
          · rw [append_assoc]
            show _ = strWhole ++ digitChar _ :: digitsText whole
            rw [hchar]
            rfl

/-- What is accepted is an amount, and the result is the one that it says. -/
theorem parseMoney_ok (h : parseMoney str = some n) : SaysMoney (cStr str) n ∧ 0 ≤ n ∧ n < 2 ^ 63 := by
  unfold parseMoney at h
  obtain ⟨⟨strWhole, nUnits, rest⟩, hwhole, h⟩ := Option.bind_eq_some_iff.mp h
  obtain ⟨whole, frac, tail, hsplit, rfl, hdigits, hfrac, hlength, htail, rfl⟩ := parseWhole_ok hwhole
  dsimp only at h
  split_ifs at h with hrest hguard hunits
  rw [nil_append] at h hguard
  rw [digitsText, length_map] at hguard
  have hrange := amount_range hdigits (Nat.le_of_not_lt hguard) hfrac hlength
  rw [atoi64_digitsText hdigits (Nat.le_of_not_lt hguard), wrap64_of_range (by omega) (by omega)] at h
  cases h
  refine ⟨⟨(cStr str).takeWhile isspace, whole, frac, tail, rest, ?_, fun c hc => mem_takeWhile_imp hc, ?_,
    hdigits, hfrac, hlength, htail, rfl⟩, hrange⟩
  · rw [append_assoc, append_assoc, ← append_assoc (digitsText whole), ← hsplit]
    exact takeWhile_append_dropWhile.symm
  · rw [Bool.not_eq_true', Bool.not_eq_false, all_eq_true] at hrest
    exact hrest

/-- Digits, a point and up to eight digits more are read, unless there are too many before the point. -/
theorem parseMoney_digits (hwhole : Digits 10 whole) (hfrac : Digits 10 frac) (hunits : frac.length ≤ 8) :
    parseMoney (digitsText whole ++ ascii '.' :: digitsText frac) = if 10 < whole.length then none
      else some (value 10 whole * COIN + value 10 frac * 10 ^ (8 - frac.length)) := by
  have hplain : ∀ c ∈ digitsText whole ++ ascii '.' :: digitsText frac, isspace c = false ∧ c ≠ 0 := by
    intro c hc
    rcases mem_append.mp hc with hc | hc
    · exact (digitsText_plain hwhole c hc).2
    · rcases mem_cons.mp hc with rfl | hc
      · decide
      · exact (digitsText_plain hfrac c hc).2
  have hstr := cStr_of_notMem fun hmem => (hplain 0 hmem).2 rfl
  have hskip := dropWhile_plain fun c hc => (hplain c hc).1
  have hends : ∀ c ∈ ([] : List UInt8).head?, isdigit c = false := by
    intro c hc
    cases hc
  have hread := parseUnits_digits hfrac hunits (.inr hends) 0
  rw [append_nil, Int.zero_add, ← unitMult_start] at hread
  obtain ⟨hlow, hhigh⟩ := units_range hfrac hunits
  have hfits : ¬ ((value 10 frac * 10 ^ (8 - frac.length) : Int) < 0 ∨
      COIN < value 10 frac * 10 ^ (8 - frac.length)) := by omega
  have hlength : (digitsText whole).length = whole.length := length_map ..
  have hloop : parseWhole (digitsText whole ++ ascii '.' :: digitsText frac) [] =
      some (digitsText whole, (value 10 frac : Int) * 10 ^ (8 - frac.length), []) := by
    rw [parseWhole_digits hwhole, parseWhole, if_pos rfl, hread, nil_append]
  simp only [parseMoney, hstr, hskip, hloop, Option.bind_eq_bind, Option.bind_some, all_nil, Bool.not_true,
    Bool.false_eq_true, if_false, hlength, hfits]
  by_cases hguard : 10 < whole.length
  · rw [if_pos hguard, if_pos hguard]
  · rw [if_neg hguard, if_neg hguard]
    have hrange := amount_range hwhole (Nat.le_of_not_lt hguard) hfrac hunits
    rw [atoi64_digitsText hwhole (Nat.le_of_not_lt hguard), wrap64_of_range (by omega) (by omega)]
    rfl

/-! ## Formatting -/

theorem value_decimalDigits (n : Nat) : value 10 (decimalDigits n) = n := by
  unfold decimalDigits
  split_ifs with hzero
  · rw [hzero]
    rfl
  · rw [value, reverse_reverse]
    exact Nat.ofDigits_digits 10 n

theorem digits_decimalDigits (n : Nat) : Digits 10 (decimalDigits n) := by
  unfold decimalDigits
  split_ifs
  · exact digits_cons.mpr ⟨by omega, digits_nil⟩
  · exact fun d hd => Nat.digits_lt_base (by omega) (mem_reverse.mp hd)

theorem length_decimalDigits {n k : Nat} (hk : 0 < k) : (decimalDigits n).length ≤ k ↔ n < 10 ^ k := by
  unfold decimalDigits
  split_ifs with hzero
  · rw [hzero]
    exact ⟨fun _ => Nat.pow_pos (by omega), fun _ => hk⟩
  · rw [length_reverse]
    exact Nat.digits_length_le_iff (by omega) n

theorem length_paddedDigits {n width : Nat} (h : n < 10 ^ width) (hwidth : 0 < width) :
    (paddedDigits width n).length = width := by
  have hle := (length_decimalDigits hwidth).mpr h
  unfold paddedDigits
  rw [length_append, length_replicate]
  omega

theorem digits_paddedDigits (width n : Nat) : Digits 10 (paddedDigits width n) := by
  intro d hd
  rcases mem_append.mp hd with hd | hd
  · exact digits_replicate_zero (by omega) _ d hd
  · exact digits_decimalDigits n d hd

theorem value_paddedDigits (width n : Nat) : value 10 (paddedDigits width n) = n := by
  unfold paddedDigits
  rw [value_append, value_replicate_zero, Nat.zero_mul, Nat.zero_add, value_decimalDigits]

/-- The text of a number of digits with a point in it, read at a place behind the point. -/
theorem getElem?_point (ws fs : List UInt8) (j : Nat) :
    (ws ++ ascii '.' :: fs)[ws.length + 1 + j]? = fs[j]? := by
  rw [getElem?_append_right (by omega), Nat.add_assoc, Nat.add_sub_cancel_left, Nat.add_comm 1, getElem?_cons_succ]

theorem digitChar_eq_zero (hd : d < 10) : digitChar d = ascii '0' ↔ d = 0 := by
  constructor
  · intro h
    have hnat := congrArg UInt8.toNat h
    rw [(digitChar_plain d hd).2.2.2.2.2.2] at hnat
    have hzero : (ascii '0').toNat = 48 := by decide
    omega
  · rintro rfl
    rfl

/-- Zeroes are trimmed up to two digits after the point. -/
theorem countTrim_digits (ws : List UInt8) {j : Nat} (hfrac : Digits 10 frac) (hj : j + 1 < frac.length) :
    ∃ nTrim, countTrim (ws ++ ascii '.' :: digitsText frac) (ws.length + 1 + (j + 1)) = some nTrim ∧ nTrim ≤ j ∧
      ∀ i, j + 1 < i + nTrim → i ≤ j + 1 → frac[i]? = some 0 := by
  have hread : ∀ i (hi : i < frac.length),
      (ws ++ ascii '.' :: digitsText frac)[ws.length + 1 + i]? = some (digitChar frac[i]) := by
    intro i hi
    rw [getElem?_point, digitsText, getElem?_map, getElem?_eq_getElem hi]
    rfl
  have hdigit : ∀ i (hi : i < frac.length), frac[i] < 10 := fun i hi => hfrac _ (getElem_mem hi)
  induction j with
  | zero =>
    -- the place two before is the point
    refine ⟨0, ?_, Nat.le_refl 0, fun i hi hle => absurd hi (by omega)⟩
    have hpoint : (ws ++ ascii '.' :: digitsText frac)[ws.length]? = some (ascii '.') := by
      rw [getElem?_append_right (Nat.le_refl _), Nat.sub_self]
      rfl
    have hnot : isdigit (ascii '.') = false := by decide
    rw [show ws.length + 1 + (0 + 1) = ws.length + 2 from rfl, countTrim,
      show ws.length + 2 = ws.length + 1 + (0 + 1) from rfl, hread _ hj]
    simp only [Option.bind_eq_bind, Option.bind_some, hpoint, hnot, Bool.false_eq_true, if_false, ite_self]
    rfl
  | succ j ih =>
    obtain ⟨nTrim, htrim, hle, hzeroes⟩ := ih (by omega)
    have hbefore := hread j (by omega)
    have hisdigit := (digitChar_plain _ (hdigit j (by omega))).1
    rw [show ws.length + 1 + (j + 1 + 1) = ws.length + 1 + j + 2 from rfl, countTrim,
      show ws.length + 1 + j + 2 = ws.length + 1 + (j + 1 + 1) from rfl, hread _ hj]
    simp only [Option.bind_eq_bind, Option.bind_some, digitChar_eq_zero (hdigit _ hj), hbefore, hisdigit, if_true]
    by_cases hzero : frac[j + 1 + 1] = 0
    · refine ⟨nTrim + 1, ?_, Nat.succ_le_succ hle, fun i hi hile => ?_⟩
      · rw [if_pos hzero, show ws.length + 1 + j + 1 = ws.length + 1 + (j + 1) from rfl, htrim]
        rfl
      · by_cases hlast : i = j + 1 + 1
        · rw [hlast, getElem?_eq_getElem hj, hzero]
        · exact hzeroes i (by omega) (by omega)
    · refine ⟨0, if_neg hzero, Nat.zero_le _, fun i hi hile => absurd hi (by omega)⟩

/-- Zeroes at the end of the digits behind the point do not count. -/
theorem value_take {m : Nat} (frac : List Nat) (hm : m ≤ frac.length)
    (hzeroes : ∀ i, m ≤ i → i < frac.length → frac[i]? = some 0) :
    value 10 (frac.take m) * 10 ^ (frac.length - m) = value 10 frac := by
  have hdrop : frac.drop m = List.replicate (frac.length - m) 0 := by
    refine eq_replicate_iff.mpr ⟨length_drop .., fun d hd => ?_⟩
    obtain ⟨i, hi, rfl⟩ := getElem_of_mem hd
    rw [length_drop] at hi
    have hzero := hzeroes (m + i) (Nat.le_add_right m i) (by omega)
    rw [getElem?_eq_getElem (by omega)] at hzero
    rw [getElem_drop]
    exact Option.some.inj hzero
  calc value 10 (frac.take m) * 10 ^ (frac.length - m)
      = value 10 (frac.take m ++ frac.drop m) := by
        rw [hdrop, value_append, value_replicate_zero, length_replicate, Nat.add_zero]
    _ = value 10 frac := by rw [take_append_drop]

/-- What an amount is formatted to: its digits with a point, and up to eight digits behind it. -/
theorem formatMoney_eq (hn : moneyRange n) : ∃ frac, Digits 10 frac ∧ frac.length ≤ 8 ∧
    formatMoney n false = some (digitsText (decimalDigits (n / COIN).toNat) ++ ascii '.' :: digitsText frac) ∧
      (value 10 frac : Int) * 10 ^ (8 - frac.length) = n % COIN := by
  have hrange := moneyRange_iff.mp hn
  have hcoin : (0 : Int) < COIN := by decide
  let ws := digitsText (decimalDigits (n / COIN).toNat)
  let fs := paddedDigits 8 (n % COIN).toNat
  have hquotient : 0 ≤ n / COIN := Int.ediv_nonneg hrange.1 hcoin.le
  have hremainder : 0 ≤ n % COIN ∧ n % COIN < COIN := ⟨Int.emod_nonneg n hcoin.ne', Int.emod_lt_of_pos n hcoin⟩
  have hlength : fs.length = 8 := by
    refine length_paddedDigits ?_ (by omega)
    have heq : COIN = 10 ^ 8 := by decide
    omega
  have hdigits : Digits 10 fs := digits_paddedDigits _ _
  obtain ⟨nTrim, htrim, hle, hzeroes⟩ := countTrim_digits ws (j := 6) hdigits (by rw [hlength]; decide)
  refine ⟨fs.take (8 - nTrim), fun d hd => hdigits d (mem_of_mem_take hd), ?_, ?_, ?_⟩
  · rw [length_take]
    omega
  · -- the string before it is trimmed
    have hn_abs : (if 0 < n then n else wrap64 (-n)) = n := by
      split_ifs with hpos
      · rfl
      · have hzero : n = 0 := by omega
        rw [hzero]
        rfl
    have hwhole : formatInt (n.tdiv COIN) = ws := by
      have habs : (n / COIN).natAbs = (n / COIN).toNat := by omega
      rw [Int.tdiv_eq_ediv_of_nonneg hrange.1, formatInt, if_neg (by omega), habs]
    have hunits : formatPadded (n.tmod COIN) = digitsText fs := by
      have habs : (n % COIN).natAbs = (n % COIN).toNat := by omega
      rw [Int.tmod_eq_emod_of_nonneg hrange.1, formatPadded, if_neg (by omega), habs]
    have hsize : (ws ++ ascii '.' :: digitsText fs).length = ws.length + 1 + 8 := by
      rw [length_append, length_cons, digitsText, length_map, hlength]
    have hplace : ws.length + 1 + 8 - 1 = ws.length + 1 + (6 + 1) := by omega
    have hkeep : ws.length + 1 + 8 - nTrim = ws.length + (8 - nTrim + 1) := by omega
    have htake : (ws ++ ascii '.' :: digitsText fs).take (ws.length + 1 + 8 - nTrim) =
        ws ++ ascii '.' :: digitsText (fs.take (8 - nTrim)) := by
      rw [hkeep, take_length_add_append, take_succ_cons, digitsText, digitsText, map_take]
    simp only [formatMoney, hn_abs, hwhole, hunits, hsize, hplace, htrim, htake, Option.bind_eq_bind, Option.bind_some,
      if_neg (Int.not_lt.mpr hrange.1), Bool.false_eq_true, false_and, if_false]
    rfl
  · have hvalue := value_take fs (m := 8 - nTrim) (by omega) fun i hi hlt => by
      rw [hlength] at hlt
      exact hzeroes i (by omega) (by omega)
    rw [hlength] at hvalue
    have hpad : value 10 fs = (n % COIN).toNat := value_paddedDigits _ _
    have hlen : (fs.take (8 - nTrim)).length = 8 - nTrim := by
      rw [length_take, hlength]
      omega
    rw [hlen]
    have hcast : ((value 10 fs : Nat) : Int) = n % COIN := by
      rw [hpad, Int.toNat_of_nonneg hremainder.1]
    rw [← hcast, ← hvalue]
    push_cast
    rfl

/-! ## Round trips -/

/-- Amounts are formatted and parsed again below 10^10 coins.  What is accepted is an amount of less than 2^63 units,
and the string says it, unless something is hidden behind a NUL. -/
theorem money_roundTrip_iff (n : Int) :
    (moneyRange n = true →
      ((∃ str, formatMoney n false = some str ∧ parseMoney str = some n) ↔ n < 10 ^ 10 * COIN)) ∧
    ∀ str, parseMoney str = some n → (0 ≤ n ∧ n < 2 ^ 63) ∧ (SaysMoney str n ↔ 0 ∉ str) := by
  refine ⟨fun hn => ?_, fun str h => ?_⟩
  · have hrange := moneyRange_iff.mp hn
    have hcoin : (0 : Int) < COIN := by decide
    have hquotient : 0 ≤ n / COIN := Int.ediv_nonneg hrange.1 hcoin.le
    obtain ⟨frac, hfrac, hunits, hformat, hvalue⟩ := formatMoney_eq hn
    have hparse := parseMoney_digits (digits_decimalDigits (n / COIN).toNat) hfrac hunits
    have hcast : ((value 10 (decimalDigits (n / COIN).toNat) : Nat) : Int) = n / COIN := by
      rw [value_decimalDigits, Int.toNat_of_nonneg hquotient]
    rw [hcast, hvalue, Int.ediv_mul_add_emod] at hparse
    have hguard : 10 < (decimalDigits (n / COIN).toNat).length ↔ ¬ n < 10 ^ 10 * COIN := by
      rw [← Nat.not_le, length_decimalDigits (by omega)]
      unfold COIN at hquotient ⊢
      omega
    constructor
    · rintro ⟨str, hstr, hok⟩
      rw [hformat] at hstr
      cases hstr
      rw [hparse] at hok
      by_contra hlarge
      rw [if_pos (hguard.mpr hlarge)] at hok
      cases hok
    · intro hsmall
      refine ⟨_, hformat, ?_⟩
      rw [hparse, if_neg fun hlong => hguard.mp hlong hsmall]
  · obtain ⟨hmeans, hrange⟩ := parseMoney_ok h
    refine ⟨hrange, ?_, fun hnul => ?_⟩
    · rintro ⟨before, whole, frac, tail, after, rfl, hbefore, hafter, hwhole, hfrac, -, htail, -⟩ hmem
      have hspace : isspace 0 = false := by decide
      simp only [mem_append] at hmem
      rcases hmem with ((hmem | hmem) | hmem) | hmem
      · rw [hbefore 0 hmem] at hspace
        cases hspace
      · exact (digitsText_plain hwhole 0 hmem).2.2 rfl
      · rcases htail with ⟨rfl, -⟩ | rfl
        · cases hmem
        · rcases mem_cons.mp hmem with hpoint | hmem
          · exact absurd hpoint (by decide)
          · exact (digitsText_plain hfrac 0 hmem).2.2 rfl
      · rw [hafter 0 hmem] at hspace
        cases hspace
    · rwa [cStr_of_notMem hnul] at hmeans

/-- The largest amount has eleven digits before the point, and cannot be read. -/
theorem parseMoney_formatMoney_max : moneyRange MAX_MONEY = true ∧
    formatMoney MAX_MONEY false = some ("92233720368.00".toList.map ascii) ∧
    parseMoney ("92233720368.00".toList.map ascii) = none ∧
    ¬ ∃ str, formatMoney MAX_MONEY false = some str ∧ parseMoney str = some MAX_MONEY := by
  have hformat : formatMoney MAX_MONEY false = some ("92233720368.00".toList.map ascii) := by
    decide +kernel
  have hparse : parseMoney ("92233720368.00".toList.map ascii) = none := by decide +kernel
  refine ⟨by decide, hformat, hparse, ?_⟩
  rintro ⟨str, hstr, hok⟩
  rw [hformat] at hstr
  cases hstr
  rw [hparse] at hok
  cases hok

end Reddcoin
