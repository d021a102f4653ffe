import Reddcoin.Lib.BigEndian
import Reddcoin.Script.Encoding

/-!
# DER signatures

`IsDERSignature` as it reads its argument, and the grammar that it accepts.
-/

namespace Reddcoin

open List

/-! ## The reads -/

/-- The checks on the integer at `&vchSig[pos]`: `none` is a read outside the signature. -/
def readingIsDERInteger (vchSig : Valtype) (pos nLen : Nat) : Option Bool :=
  -- the pointer itself
  vchSig[pos]?.bind fun _ =>
  vchSig[pos - 2]?.bind fun type =>
    if type ≠ 0x02 then some false
    else if nLen = 0 then some false
    else
      vchSig[pos]?.bind fun first =>
        if 0x80 ≤ first.toNat then some false
        else if 1 < nLen ∧ first = 0 then
          vchSig[pos + 1]?.bind fun second => some (decide (0x80 ≤ second.toNat))
        else some true

/-- `IsDERSignature` with its reads: `none` is a read outside the signature. -/
def readingIsDERSignature (vchSig : Valtype) : Option Bool :=
  if vchSig.length < 9 then some false
  else if 73 < vchSig.length then some false
  else
    vchSig[0]?.bind fun type =>
      if type ≠ 0x30 then some false
      else
        vchSig[1]?.bind fun len =>
          if len.toNat ≠ vchSig.length - 3 then some false
          else
            vchSig[3]?.bind fun nLenR =>
              if vchSig.length ≤ 5 + nLenR.toNat then some false
              else
                vchSig[5 + nLenR.toNat]?.bind fun nLenS =>
                  if nLenR.toNat + nLenS.toNat + 7 ≠ vchSig.length then some false
                  else
                    (readingIsDERInteger vchSig 4 nLenR.toNat).bind fun fR =>
                      if fR = false then some false
                      else readingIsDERInteger vchSig (6 + nLenR.toNat) nLenS.toNat

theorem getElem?_byteAt {vch : Valtype} {i : Nat} (h : i < vch.length) :
    ∃ b, vch[i]? = some b ∧ byteAt vch i = b.toNat := by
  refine ⟨vch[i], getElem?_eq_getElem h, ?_⟩
  rw [byteAt, getD_eq_getElem?_getD, getElem?_eq_getElem h]
  rfl

theorem readingIsDERInteger_eq {vchSig : Valtype} {pos nLen : Nat} (hpos : pos < vchSig.length)
    (hlen : pos + nLen ≤ vchSig.length) :
    readingIsDERInteger vchSig pos nLen = some (isDERInteger vchSig pos nLen) := by
  obtain ⟨first, hfirst, hbyte⟩ := getElem?_byteAt hpos
  obtain ⟨type, htype, htbyte⟩ := getElem?_byteAt (by omega : pos - 2 < vchSig.length)
  have htwo : type = 0x02 ↔ type.toNat = 2 := UInt8.toNat_inj.symm
  have hzero : first = 0 ↔ first.toNat = 0 := UInt8.toNat_inj.symm
  rw [readingIsDERInteger, hfirst, htype, Option.bind_some, Option.bind_some, isDERInteger, hbyte, htbyte]
  by_cases h2 : type = 0x02
  · rw [if_neg (not_not_intro h2), htwo.mp h2]
    by_cases h0 : nLen = 0
    · simp [h0]
    · rw [if_neg h0, Option.bind_some]
      by_cases hsign : 0x80 ≤ first.toNat
      · rw [if_pos hsign]
        simp [Nat.not_lt.mpr hsign]
      · rw [if_neg hsign]
        by_cases hpad : 1 < nLen ∧ first = 0
        · obtain ⟨second, hsecond, hsbyte⟩ := getElem?_byteAt (by omega : pos + 1 < vchSig.length)
          rw [if_pos hpad, hsecond, Option.bind_some, hsbyte, hzero.mp hpad.2]
          by_cases hhigh : 0x80 ≤ second.toNat
          · simp [h0, hpad.1, hhigh, Nat.not_lt.mpr hhigh]
          · simp [h0, hpad.1, hhigh, Nat.not_le.mp hhigh]
        · rw [if_neg hpad]
          rw [hzero] at hpad
          simp only [Nat.not_le.mp hsign, h0, ne_eq, not_false_eq_true, decide_true, Bool.true_and]
          rw [← Bool.decide_and, decide_eq_false hpad]
          rfl
  · rw [if_pos h2, decide_eq_false (fun h => h2 (htwo.mpr h))]
    rfl

/-- No read is outside the signature. -/
theorem readingIsDERSignature_eq (vchSig : Valtype) :
    readingIsDERSignature vchSig = some (isDERSignature vchSig) := by
  rw [readingIsDERSignature, isDERSignature]
  by_cases hshort : vchSig.length < 9
  · rw [if_pos hshort, if_pos (.inl hshort)]
  by_cases hlong : 73 < vchSig.length
  · rw [if_neg hshort, if_pos hlong, if_pos (.inr hlong)]
  obtain ⟨type, htype, htbyte⟩ := getElem?_byteAt (by omega : 0 < vchSig.length)
  obtain ⟨len, hlen, hlbyte⟩ := getElem?_byteAt (by omega : 1 < vchSig.length)
  obtain ⟨nLenR, hR, hRbyte⟩ := getElem?_byteAt (by omega : 3 < vchSig.length)
  have hthirty : type = 0x30 ↔ type.toNat = 0x30 := UInt8.toNat_inj.symm
  rw [if_neg hshort, if_neg hlong, if_neg (by omega), htype, hlen, hR, htbyte, hlbyte]
  simp only [Option.bind_some, hRbyte]
  by_cases h30 : type = 0x30
  · rw [if_neg (not_not_intro h30), if_neg (not_not_intro (hthirty.mp h30))]
    by_cases hmarker : len.toNat = vchSig.length - 3
    · rw [if_neg (not_not_intro hmarker), if_neg (not_not_intro hmarker)]
      by_cases hplace : vchSig.length ≤ 5 + nLenR.toNat
      · rw [if_pos hplace, if_pos hplace]
      · obtain ⟨nLenS, hS, hSbyte⟩ := getElem?_byteAt (by omega : 5 + nLenR.toNat < vchSig.length)
        rw [if_neg hplace, if_neg hplace, hS, hSbyte, Option.bind_some]
        by_cases hsum : nLenR.toNat + nLenS.toNat + 7 = vchSig.length
        · rw [if_neg (not_not_intro hsum), if_neg (not_not_intro hsum), readingIsDERInteger_eq (by omega) (by omega),
            readingIsDERInteger_eq (by omega) (by omega), Option.bind_some]
          cases isDERInteger vchSig 4 nLenR.toNat with
          | false => rfl
          | true => rfl
        · rw [if_pos hsum, if_pos hsum]
    · rw [if_pos hmarker, if_pos hmarker]
  · rw [if_pos h30, if_pos (fun h => h30 (hthirty.mpr h))]

/-! ## The grammar -/

/-- `30 len 02 lenR R 02 lenS S hashtype`, with `R` and `S` the minimal encodings of `r` and `s`. -/
def DEREncodes (vchSig : Valtype) (r s : Nat) (nHashType : UInt8) : Prop :=
  ∃ (len lenR lenS : UInt8) (R S : List UInt8),
    vchSig = 0x30 :: len :: 0x02 :: lenR :: (R ++ 0x02 :: lenS :: (S ++ [nHashType])) ∧
    9 ≤ vchSig.length ∧ vchSig.length ≤ 73 ∧ len.toNat = vchSig.length - 3 ∧
    lenR.toNat = R.length ∧ lenS.toNat = S.length ∧ BigEndian.Minimal R r ∧ BigEndian.Minimal S s

/-- The integer behind its type and its length. -/
theorem isDERInteger_at {pre post I : List UInt8} {type lenI : UInt8} :
    isDERInteger (pre ++ type :: lenI :: (I ++ post)) (pre.length + 2) I.length ↔
      type = 0x02 ∧ ∃ n : Nat, BigEndian.Minimal I n := by
  have hbyte : ∀ k, byteAt (pre ++ type :: lenI :: (I ++ post)) (pre.length + k) =
      byteAt (type :: lenI :: (I ++ post)) k := by
    intro k
    rw [byteAt, byteAt, getD_eq_getElem?_getD, getD_eq_getElem?_getD,
      getElem?_append_right (Nat.le_add_right _ _), Nat.add_sub_cancel_left]
  have htype : byteAt (pre ++ type :: lenI :: (I ++ post)) (pre.length + 2 - 2) = type.toNat := by
    have h := hbyte 0
    exact h
  have htwo : type = 0x02 ↔ type.toNat = 2 := UInt8.toNat_inj.symm
  have hfirst := hbyte 2
  have hsecond := hbyte 3
  rw [isDERInteger, htype, hfirst, hsecond]
  cases I with
  | nil =>
    simp only [length_nil, ne_eq, not_true_eq_false, decide_false, Bool.and_false, Bool.false_and,
      Bool.false_eq_true, false_iff]
    rintro ⟨-, n, h⟩
    exact h.ne_nil rfl
  | cons b bs =>
    have hb : byteAt (type :: lenI :: (b :: bs ++ post)) 2 = b.toNat := rfl
    have hmin : (∃ n : Nat, BigEndian.Minimal (b :: bs) n) ↔ b.toNat < 0x80 ∧ BigEndian.Unpadded b bs := by
      constructor
      · rintro ⟨n, h⟩
        obtain ⟨hsign, hpad, -⟩ := BigEndian.minimal_iff.mp h
        exact ⟨hsign, hpad⟩
      · rintro ⟨hsign, hpad⟩
        exact ⟨_, BigEndian.minimal_iff.mpr ⟨hsign, hpad, rfl⟩⟩
    have hzero : b = 0 ↔ b.toNat = 0 := UInt8.toNat_inj.symm
    rw [hmin, hb]
    simp only [Bool.and_eq_true, decide_eq_true_eq, Bool.not_eq_true', Bool.and_eq_false_iff, decide_eq_false_iff_not,
      length_cons, ← htwo, ← hzero]
    have hpad : BigEndian.Unpadded b bs ↔ (¬ 1 < bs.length + 1 ∨ ¬ b = 0) ∨
        ¬ byteAt (type :: lenI :: (b :: bs ++ post)) 3 < 0x80 := by
      cases bs with
      | nil => simp [BigEndian.Unpadded]
      | cons c cs =>
        have hc : byteAt (type :: lenI :: (b :: c :: cs ++ post)) 3 = c.toNat := rfl
        rw [hc]
        constructor
        · intro h
          by_cases h0 : b = 0
          · exact .inr (Nat.not_lt.mpr (h c cs rfl h0))
          · exact .inl (.inr h0)
        · rintro ((hshort | hne) | hhigh) c' cs' heq h0
          · exact absurd (by rw [length_cons]; omega) hshort
          · exact absurd h0 hne
          · obtain ⟨rfl, rfl⟩ := List.cons.inj heq
            exact Nat.not_lt.mp hhigh
    rw [hpad]
    constructor
    · rintro ⟨⟨⟨h2, -⟩, hsign⟩, hrest⟩
      exact ⟨h2, hsign, hrest⟩
    · rintro ⟨h2, hsign, hrest⟩
      exact ⟨⟨⟨h2, by omega⟩, hsign⟩, hrest⟩

section

variable {a b c d e f nHashType : UInt8} {R S : List UInt8}

theorem byteAt_lenS : byteAt (a :: b :: c :: d :: (R ++ e :: f :: (S ++ [nHashType]))) (5 + R.length) = f.toNat := by
  have hindex : 5 + R.length = R.length + 1 + 4 := by omega
  rw [byteAt, hindex]
  show ((R ++ e :: f :: (S ++ [nHashType])).getD (R.length + 1) 0).toNat = _
  rw [getD_eq_getElem?_getD, getElem?_append_right (Nat.le_add_right _ _), Nat.add_sub_cancel_left]
  rfl

/-- A signature that has two integers of the lengths it says. -/
theorem isDERSignature_parts (hR : d.toNat = R.length) (hS : f.toNat = S.length) :
    isDERSignature (a :: b :: c :: d :: (R ++ e :: f :: (S ++ [nHashType]))) ↔
      9 ≤ R.length + S.length + 7 ∧ R.length + S.length + 7 ≤ 73 ∧ a = 0x30 ∧ b.toNat = R.length + S.length + 4 ∧
      (c = 0x02 ∧ ∃ r : Nat, BigEndian.Minimal R r) ∧ e = 0x02 ∧ ∃ s : Nat, BigEndian.Minimal S s := by
  have hlen : (a :: b :: c :: d :: (R ++ e :: f :: (S ++ [nHashType]))).length = R.length + S.length + 7 := by
    simp only [length_cons, length_append, length_nil]
    omega
  have hthirty : a.toNat = 0x30 ↔ a = 0x30 := (UInt8.toNat_inj (b := 0x30))
  have hintR := @isDERInteger_at [a, b] (e :: f :: (S ++ [nHashType])) R c d
  have hintS := @isDERInteger_at (a :: b :: c :: d :: R) [nHashType] S e f
  have hpos : (a :: b :: c :: d :: R).length + 2 = 6 + R.length := by
    simp only [length_cons]
    omega
  rw [hpos] at hintS
  have h0 : byteAt (a :: b :: c :: d :: (R ++ e :: f :: (S ++ [nHashType]))) 0 = a.toNat := rfl
  have h1 : byteAt (a :: b :: c :: d :: (R ++ e :: f :: (S ++ [nHashType]))) 1 = b.toNat := rfl
  have h3 : byteAt (a :: b :: c :: d :: (R ++ e :: f :: (S ++ [nHashType]))) 3 = d.toNat := rfl
  rw [isDERSignature, hlen, h0, h1]
  simp only [h3, hR, byteAt_lenS, hS]
  by_cases hsize : R.length + S.length + 7 < 9 ∨ 73 < R.length + S.length + 7
  · rw [if_pos hsize]
    constructor
    · intro h
      cases h
    · rintro ⟨h9, h73, -⟩
      omega
  rw [if_neg hsize]
  by_cases ha : a.toNat = 0x30
  · by_cases hb : b.toNat = R.length + S.length + 7 - 3
    · rw [if_neg (not_not_intro ha), if_neg (not_not_intro hb), if_neg (by omega), if_neg (not_not_intro rfl),
        Bool.and_eq_true]
      rw [hthirty] at ha
      constructor
      · rintro ⟨hr, hs⟩
        exact ⟨by omega, by omega, ha, by omega, hintR.mp hr, hintS.mp hs⟩
      · rintro ⟨-, -, -, -, hr, hs⟩
        exact ⟨hintR.mpr hr, hintS.mpr hs⟩
    · rw [if_neg (not_not_intro ha), if_pos hb]
      constructor
      · intro h
        cases h
      · rintro ⟨-, -, -, h, -⟩
        omega
  · rw [if_pos ha]
    constructor
    · intro h
      cases h
    · rintro ⟨-, -, h, -⟩
      exact absurd (hthirty.mpr h) ha

end

/-- What has the lengths that it says has two integers. -/
theorem exists_parts {vchSig : Valtype} (h9 : 9 ≤ vchSig.length)
    (hsum : byteAt vchSig 3 + byteAt vchSig (5 + byteAt vchSig 3) + 7 = vchSig.length) :
    ∃ a b c d e f nHashType R S, vchSig = a :: b :: c :: d :: (R ++ e :: f :: (S ++ [nHashType])) ∧
      d.toNat = R.length ∧ f.toNat = S.length := by
  rcases vchSig with _ | ⟨a, _ | ⟨b, _ | ⟨c, _ | ⟨d, rest⟩⟩⟩⟩
  · cases h9
  · simp at h9
  · simp at h9
  · simp at h9
  have h3 : byteAt (a :: b :: c :: d :: rest) 3 = d.toNat := rfl
  rw [h3] at hsum
  simp only [length_cons] at hsum
  have hR : (rest.take d.toNat).length = d.toNat := by
    rw [length_take]
    omega
  have hrest : rest = rest.take d.toNat ++ rest.drop d.toNat := (take_append_drop _ _).symm
  rcases hdrop : rest.drop d.toNat with _ | ⟨e, _ | ⟨f, tail⟩⟩
  · have hlen := congrArg List.length hdrop
    rw [length_drop, length_nil] at hlen
    omega
  · have hlen := congrArg List.length hdrop
    rw [length_drop, length_singleton] at hlen
    omega
  have hlen := congrArg List.length hdrop
  rw [length_drop, length_cons, length_cons] at hlen
  have hf : byteAt (a :: b :: c :: d :: rest) (5 + d.toNat) = f.toNat := by
    have hindex : 5 + d.toNat = d.toNat + 1 + 4 := by omega
    rw [byteAt, hindex]
    show (rest.getD (d.toNat + 1) 0).toNat = _
    rw [getD_eq_getElem?_getD, ← getElem?_drop, hdrop]
    rfl
  rw [hf] at hsum
  have htail : tail ≠ [] := by
    intro hnil
    rw [hnil, length_nil] at hlen
    omega
  have hlast := dropLast_append_getLast htail
  refine ⟨a, b, c, d, e, f, tail.getLast htail, rest.take d.toNat, tail.dropLast, ?_, hR.symm, ?_⟩
  · rw [hlast, ← hdrop, ← hrest]
  · rw [length_dropLast]
    omega

/-- `IsDERSignature` reads inside its argument only, accepts what is in the grammar, and the grammar has one word for
two numbers and a hash type. -/
theorem isDERSignature_grammar (vchSig : Valtype) :
    readingIsDERSignature vchSig = some (isDERSignature vchSig) ∧
    (isDERSignature vchSig = true ↔ ∃ r s nHashType, DEREncodes vchSig r s nHashType) ∧
    ∀ r s nHashType, DEREncodes vchSig r s nHashType →
      ∀ vchSig', DEREncodes vchSig' r s nHashType → vchSig' = vchSig := by
  refine ⟨readingIsDERSignature_eq vchSig, ⟨?_, ?_⟩, ?_⟩
  · intro h
    have hguards : 9 ≤ vchSig.length ∧ byteAt vchSig 3 + byteAt vchSig (5 + byteAt vchSig 3) + 7 = vchSig.length := by
      by_contra hnot
      have hfalse := h
      unfold isDERSignature at hfalse
      simp only at hfalse
      split_ifs at hfalse
      · exact hnot ⟨by omega, by omega⟩
    obtain ⟨a, b, c, d, e, f, nHashType, R, S, rfl, hR, hS⟩ := exists_parts hguards.1 hguards.2
    obtain ⟨h9, h73, rfl, hb, ⟨rfl, r, hr⟩, rfl, s, hs⟩ := (isDERSignature_parts hR hS).mp h
    refine ⟨r, s, nHashType, b, d, f, R, S, rfl, ?_, ?_, ?_, hR, hS, hr, hs⟩
    all_goals
      simp only [length_cons, length_append, length_nil]
      omega
  · rintro ⟨r, s, nHashType, len, lenR, lenS, R, S, rfl, h9, h73, hlen, hR, hS, hr, hs⟩
    simp only [length_cons, length_append, length_nil] at h9 h73 hlen
    exact (isDERSignature_parts hR hS).mpr ⟨by omega, by omega, rfl, by omega, ⟨rfl, r, hr⟩, rfl, s, hs⟩
  · rintro r s nHashType ⟨len, lenR, lenS, R, S, rfl, -, -, hlen, hR, hS, hr, hs⟩
      vchSig' ⟨len', lenR', lenS', R', S', rfl, -, -, hlen', hR', hS', hr', hs'⟩
    obtain rfl := hr.unique hr'
    obtain rfl := hs.unique hs'
    obtain rfl := UInt8.toNat_inj.mp (hR.trans hR'.symm)
    obtain rfl := UInt8.toNat_inj.mp (hS.trans hS'.symm)
    simp only [length_cons, length_append, length_nil] at hlen hlen'
    obtain rfl := UInt8.toNat_inj.mp (hlen.trans hlen'.symm)
    rfl

end Reddcoin
