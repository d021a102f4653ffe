import Mathlib.Data.Int.ModEq
import Reddcoin.Primitives.Transaction
import Reddcoin.Serialize.VarInt

/-!
# The amount compressor

`CompressAmount` and `DecompressAmount` of `compressor.cpp`, through which the value of an output goes into the
chainstate and the undo data.  Both compute in a `uint64_t`.
-/

namespace Reddcoin

open UInt64 (ofInt ofNat reduceToNat toNat_add toNat_div toNat_mod toNat_mul toNat_sub)

/-! ## The two functions -/

/-- The loop of `CompressAmount` with the turns that are left: while the amount ends in a zero, drop it and count it
in `e`. -/
def dropZeros : Nat → UInt64 → Nat → UInt64 × Nat
  | 0, n, e => (n, e)
  | turns + 1, n, e => if n % 10 = 0 then dropZeros turns (n / 10) (e + 1) else (n, e)

def compressAmount (n : UInt64) : UInt64 :=
  if n = 0 then 0
  else
    let (n, e) := dropZeros 9 n 0
    if e < 9 then
      let d := n % 10
      let n := n / 10
      1 + (n * 9 + d - 1) * 10 + ofNat e
    else 1 + (n - 1) * 10 + 9

/-- The loop of `DecompressAmount`. -/
def appendZeros : Nat → UInt64 → UInt64
  | 0, n => n
  | e + 1, n => appendZeros e (n * 10)

def decompressAmount (x : UInt64) : UInt64 :=
  if x = 0 then 0
  else
    let x := x - 1
    let e := (x % 10).toNat
    let x := x / 10
    if e < 9 then
      let d := x % 9 + 1
      let x := x / 9
      appendZeros e (x * 10 + d)
    else appendZeros e (x + 1)

/-- The value of a `CTxOut` as `CTxOutCompressor` writes it. -/
def serializeAmount (nValue : Int) : List UInt8 :=
  writeVarInt (compressAmount (ofInt nValue)).toNat

def unserializeAmount (bytes : List UInt8) : Option (Int × List UInt8) :=
  (readVarInt bytes).map fun (nVal, rest) => (wrap64 (decompressAmount (ofNat nVal)).toNat, rest)

/-! ## On natural numbers -/

theorem appendZeros_toNat (e : Nat) (n : UInt64) : (appendZeros e n).toNat = n.toNat * 10 ^ e % 2 ^ 64 := by
  induction e generalizing n with
  | zero =>
    have hlt := n.toNat_lt
    show n.toNat = _
    omega
  | succ e ih =>
    show (appendZeros e (n * 10)).toNat = _
    rw [ih, toNat_mul, Nat.mod_mul_mod, Nat.mul_assoc, Nat.pow_succ' (n := e)]
    rfl

/-- What the zero-dropping loop leaves. -/
theorem dropZeros_spec {turns e e' : Nat} {n m : UInt64} (h : dropZeros turns n e = (m, e')) :
    e ≤ e' ∧ e' ≤ e + turns ∧ n.toNat = m.toNat * 10 ^ (e' - e) ∧ (e' < e + turns → m.toNat % 10 ≠ 0) := by
  induction turns generalizing n e with
  | zero =>
    cases h
    simp
  | succ turns ih =>
    rw [dropZeros] at h
    have hmod : (n % 10).toNat = n.toNat % 10 := toNat_mod n 10
    have hdiv : (n / 10).toNat = n.toNat / 10 := toNat_div n 10
    split_ifs at h with hzero
    · obtain ⟨hle, hturns, hn, hlast⟩ := ih h
      have hz : n.toNat % 10 = 0 := by rw [← hmod, hzero]; rfl
      refine ⟨by omega, by omega, ?_, fun hlt => hlast (by omega)⟩
      calc n.toNat = n.toNat / 10 * 10 := by omega
        _ = m.toNat * 10 ^ (e' - (e + 1)) * 10 := by rw [← hdiv, hn]
        _ = m.toNat * 10 ^ (e' - e) := by
          rw [Nat.mul_assoc, ← Nat.pow_succ]
          congr 2
          omega
    · cases h
      refine ⟨Nat.le_refl _, by omega, by simp, fun _ hz => hzero ?_⟩
      exact UInt64.toNat_inj.mp (hmod.trans hz)

theorem compressAmount_toNat {n m : UInt64} {e : Nat} (hn : n ≠ 0) (h : dropZeros 9 n 0 = (m, e)) :
    (compressAmount n).toNat = (if e < 9 then 9 * m.toNat + m.toNat % 10 + e - 9 else 10 * m.toNat) % 2 ^ 64 := by
  obtain ⟨-, he, hvalue, hlast⟩ := dropZeros_spec h
  have hlt := m.toNat_lt
  rw [compressAmount, if_neg hn, h]
  show (if e < 9 then 1 + (m / 10 * 9 + m % 10 - 1) * 10 + ofNat e else 1 + (m - 1) * 10 + 9).toNat = _
  split_ifs with hlt9
  · have hd := hlast (by omega)
    simp only [toNat_add, toNat_mul, toNat_sub, toNat_div, toNat_mod,
      UInt64.toNat_ofNat', reduceToNat]
    omega
  · simp only [toNat_add, toNat_mul, toNat_sub, reduceToNat]
    omega

/-- The amount that `DecompressAmount` reads off `y + 1`, before the reduction to 64 bits. -/
def expand (y : Nat) : Nat :=
  (if y % 10 < 9 then y / 10 / 9 * 10 + y / 10 % 9 + 1 else y / 10 + 1) * 10 ^ (y % 10)

theorem decompressAmount_toNat {x : UInt64} {y : Nat} (h : x.toNat = y + 1) :
    (decompressAmount x).toNat = expand y % 2 ^ 64 := by
  have hlt := x.toNat_lt
  have hx : x ≠ 0 := by
    rintro rfl
    simp at h
  have hy : (x - 1).toNat = y := by
    simp only [toNat_sub, h, reduceToNat]
    omega
  have hmod : ((x - 1) % 10).toNat = y % 10 := by
    rw [toNat_mod, hy]
    rfl
  rw [decompressAmount, if_neg hx]
  show (if ((x - 1) % 10).toNat < 9 then
      appendZeros ((x - 1) % 10).toNat ((x - 1) / 10 / 9 * 10 + ((x - 1) / 10 % 9 + 1))
    else appendZeros ((x - 1) % 10).toNat ((x - 1) / 10 + 1)).toNat = _
  rw [hmod, expand]
  split_ifs with hlt9
  · rw [appendZeros_toNat]
    congr 2
    simp only [toNat_add, toNat_mul, toNat_div, toNat_mod, hy, reduceToNat]
    omega
  · rw [appendZeros_toNat]
    congr 2
    simp only [toNat_add, toNat_div, hy, reduceToNat]
    omega

/-! ## Amounts that come back -/

/-- The compressed amount fits 64 bits: the amount ends in a zero, or `9 * n + d - 9` fits for its last digit `d`. -/
def CompressesExactly (n : Nat) : Prop :=
  n % 10 = 0 ∨ 9 * n + n % 10 < 2 ^ 64 + 9

theorem expand_digits {m e : Nat} (hm : m % 10 ≠ 0) (he : e < 9) :
    expand (9 * m + m % 10 + e - 10) = m * 10 ^ e := by
  have hmod : (9 * m + m % 10 + e - 10) % 10 = e := by omega
  have hdiv : (9 * m + m % 10 + e - 10) / 10 = 9 * (m / 10) + (m % 10 - 1) := by omega
  rw [expand, hmod, if_pos he, hdiv]
  congr 1
  omega

theorem expand_billions {m : Nat} (hm : m ≠ 0) : expand (10 * m - 1) = m * 10 ^ 9 := by
  have hmod : (10 * m - 1) % 10 = 9 := by omega
  have hdiv : (10 * m - 1) / 10 + 1 = m := by omega
  rw [expand, hmod, if_neg (by omega), hdiv]

theorem decompress_compress_of_exact {n : UInt64} (hmax : n.toNat ≤ MAX_MONEY.toNat)
    (hexact : CompressesExactly n.toNat) : decompressAmount (compressAmount n) = n := by
  by_cases hn : n = 0
  · rw [hn]
    rfl
  have hmoney : MAX_MONEY.toNat = 9223372036800000000 := rfl
  rcases h : dropZeros 9 n 0 with ⟨m, e⟩
  obtain ⟨-, he, hvalue, hlast⟩ := dropZeros_spec h
  have hlt := n.toNat_lt
  have hcompress := compressAmount_toNat hn h
  rw [Nat.sub_zero] at hvalue
  apply UInt64.toNat_inj.mp
  by_cases hlt9 : e < 9
  · have hd := hlast (by omega)
    -- Only an amount without trailing zeros can be too large.
    have hfits : 9 * m.toNat + m.toNat % 10 + e - 9 < 2 ^ 64 := by
      cases e with
      | zero =>
        rw [Nat.pow_zero, Nat.mul_one] at hvalue
        rw [hvalue] at hexact
        rcases hexact with hzero | hfits
        · exact absurd hzero hd
        · omega
      | succ e =>
        have hten : m.toNat * 10 ≤ n.toNat := by
          rw [hvalue, Nat.pow_succ', ← Nat.mul_assoc]
          exact Nat.le_mul_of_pos_right _ (Nat.pow_pos (by omega))
        omega
    rw [if_pos hlt9, Nat.mod_eq_of_lt hfits] at hcompress
    rw [decompressAmount_toNat (y := 9 * m.toNat + m.toNat % 10 + e - 10) (by omega), expand_digits hd hlt9, ← hvalue,
      Nat.mod_eq_of_lt hlt]
  · have hnine : e = 9 := by omega
    subst hnine
    have hm : m.toNat ≠ 0 := by
      intro hm
      rw [hm, Nat.zero_mul] at hvalue
      exact hn (UInt64.toNat_inj.mp hvalue)
    rw [if_neg hlt9, Nat.mod_eq_of_lt (by omega)] at hcompress
    rw [decompressAmount_toNat (y := 10 * m.toNat - 1) (by omega), expand_billions hm, ← hvalue, Nat.mod_eq_of_lt hlt]

/-! ## Amounts that do not come back

An amount whose compressed form wraps around `k` times comes back with `k`-dependent zeros appended to an amount that is
smaller by about `k * 2 ^ 64 / 9`.  Equality with the amount itself is a linear congruence modulo `2 ^ 64` with an odd
coefficient, so that it has one solution, which is never among the amounts that wrap `k` times. -/

/-- Subtraction in the mixed base of the compressed form. -/
theorem mixed_sub {t a d q r : Nat} (hd : d < 9) (hr : r < 9) (h : t + (9 * q + r) = 9 * a + d) :
    t / 9 * 10 + t % 9 + 1 + (10 * q + r) = 10 * a + d + 1 ∨ t / 9 * 10 + t % 9 + 1 + (10 * q + r) = 10 * a + d := by
  have hsplit := Nat.div_add_mod t 9
  have hlt := Nat.mod_lt t (by omega : 9 > 0)
  generalize t / 9 = u at *
  generalize t % 9 = v at *
  omega

theorem expand_wrapped {n y k e q r : Nat} (hd : n % 10 ≠ 0) (hy : y + k * 2 ^ 64 + 10 = 9 * n + n % 10)
    (he : e < 9) (hr : r < 9) (hk : 10 * (9 * q + r) = k * 2 ^ 64 + e) :
    ∃ m, expand y = m * 10 ^ e ∧ (m + (10 * q + r) = n ∨ m + (10 * q + r + 1) = n) := by
  have hmod : y % 10 = e := by omega
  have hdiv : y / 10 + (9 * q + r) = 9 * (n / 10) + (n % 10 - 1) := by omega
  refine ⟨y / 10 / 9 * 10 + y / 10 % 9 + 1, ?_, ?_⟩
  · rw [expand, hmod, if_pos he]
  · rcases mixed_sub (by omega) hr hdiv with h | h <;> omega

/-- The only amount that could come back. -/
theorem eq_residue {n m R p inv : Int} (hinv : inv * (p - 1) ≡ 1 [ZMOD 2 ^ 64]) (hm : m + R = n)
    (h : m * p ≡ n [ZMOD 2 ^ 64]) : n ≡ inv * (p * R) [ZMOD 2 ^ 64] := by
  calc n = 1 * n := (Int.one_mul n).symm
    _ ≡ inv * (p - 1) * n [ZMOD 2 ^ 64] := hinv.symm.mul_right n
    _ = inv * (p * n - n) := by ring
    _ ≡ inv * (p * n - m * p) [ZMOD 2 ^ 64] := (h.symm.sub_left _).mul_left inv
    _ = inv * (p * R) := by
      rw [← hm]
      ring

/-- An amount that wraps `k` times, for constants with `10 * (9 * q + r) = k * 2 ^ 64 + e` and the inverse `inv` of
`10 ^ e - 1`, when both solutions of the congruence are too large or wrap less often. -/
theorem decompress_compress_ne_of_wraps {n : UInt64} {x k e q r : Nat} {inv : Int} (hmax : n.toNat ≤ MAX_MONEY.toNat)
    (hd : n.toNat % 10 ≠ 0) (hx : (compressAmount n).toNat = x)
    (hwraps : x + k * 2 ^ 64 + 9 = 9 * n.toNat + n.toNat % 10) (he : e < 9) (hr : r < 9)
    (hk : 10 * (9 * q + r) = k * 2 ^ 64 + e) (hinv : inv * (10 ^ e - 1) ≡ 1 [ZMOD 2 ^ 64])
    (hmiss : ∀ R ∈ [10 * q + r, 10 * q + r + 1],
      MAX_MONEY < inv * (10 ^ e * R) % 2 ^ 64 ∨ 9 * (inv * (10 ^ e * R) % 2 ^ 64) < k * 2 ^ 64) :
    decompressAmount (compressAmount n) ≠ n := by
  have hmoney : MAX_MONEY = 9223372036800000000 := rfl
  intro hback
  cases x with
  | zero =>
    have hzero : compressAmount n = 0 := UInt64.toNat_inj.mp hx
    rw [hzero] at hback
    rw [← hback] at hd
    exact hd rfl
  | succ y =>
    obtain ⟨m, hm, hR⟩ := expand_wrapped hd (by omega : y + k * 2 ^ 64 + 10 = _) he hr hk
    have hvalue := decompressAmount_toNat hx
    rw [hback, hm] at hvalue
    have hcongr : (m : Int) * 10 ^ e ≡ n.toNat [ZMOD 2 ^ 64] := by
      have hnat : m * 10 ^ e % 2 ^ 64 = n.toNat % 2 ^ 64 := by omega
      exact_mod_cast Int.natCast_modEq_iff.mpr hnat
    obtain ⟨R, hmem, hsum⟩ : ∃ R, R ∈ [10 * q + r, 10 * q + r + 1] ∧ m + R = n.toNat := by
      rcases hR with h | h
      · exact ⟨_, by simp, h⟩
      · exact ⟨_, by simp, h⟩
    have hres : (n.toNat : Int) % 2 ^ 64 = inv * (10 ^ e * R) % 2 ^ 64 :=
      eq_residue hinv (by exact_mod_cast hsum) hcongr
    have hbound : n.toNat ≤ 9223372036800000000 := hmax
    rw [Int.emod_eq_of_lt (by omega) (by omega)] at hres
    rcases hmiss R hmem with hlarge | hfew
    · rw [← hres, hmoney] at hlarge
      omega
    · rw [← hres] at hfew
      omega

theorem decompress_compress_ne {n : UInt64} (hmax : n.toNat ≤ MAX_MONEY.toNat) (hexact : ¬ CompressesExactly n.toNat) :
    decompressAmount (compressAmount n) ≠ n := by
  have hmoney : MAX_MONEY.toNat = 9223372036800000000 := rfl
  obtain ⟨hd, hlarge⟩ := not_or.mp hexact
  have hn : n ≠ 0 := by
    rintro rfl
    exact hd rfl
  have hdrop : dropZeros 9 n 0 = (n, 0) := by
    refine if_neg fun hzero => hd ?_
    have hmod : (n % 10).toNat = n.toNat % 10 := toNat_mod n 10
    rw [← hmod, hzero]
    rfl
  have hcompress := compressAmount_toNat hn hdrop
  rw [if_pos (by omega), Nat.add_zero] at hcompress
  obtain ⟨k, hk⟩ : ∃ k, k = (9 * n.toNat + n.toNat % 10 - 9) / 2 ^ 64 := ⟨_, rfl⟩
  have hrange : k = 1 ∨ k = 2 ∨ k = 3 ∨ k = 4 := by omega
  have hwraps : (9 * n.toNat + n.toNat % 10 - 9) % 2 ^ 64 + k * 2 ^ 64 + 9 = 9 * n.toNat + n.toNat % 10 := by omega
  rcases hrange with rfl | rfl | rfl | rfl
  · exact decompress_compress_ne_of_wraps (e := 4) (q := 204963823041217240) (r := 2) hmax hd hcompress hwraps
      (by decide) (by decide) (by decide) (by decide : 13458245626333751279 * (10 ^ 4 - 1) ≡ 1 [ZMOD 2 ^ 64]) (by decide)
  · exact decompress_compress_ne_of_wraps (e := 8) (q := 409927646082434480) (r := 4) hmax hd hcompress hwraps
      (by decide) (by decide) (by decide) (by decide : 300153063250403071 * (10 ^ 8 - 1) ≡ 1 [ZMOD 2 ^ 64]) (by decide)
  · exact decompress_compress_ne_of_wraps (e := 2) (q := 614891469123651720) (r := 5) hmax hd hcompress hwraps
      (by decide) (by decide) (by decide) (by decide : 12670490878911611211 * (10 ^ 2 - 1) ≡ 1 [ZMOD 2 ^ 64]) (by decide)
  · exact decompress_compress_ne_of_wraps (e := 6) (q := 819855292164868960) (r := 7) hmax hd hcompress hwraps
      (by decide) (by decide) (by decide) (by decide : 1672254362768354751 * (10 ^ 6 - 1) ≡ 1 [ZMOD 2 ^ 64]) (by decide)

/-! ## Stored outputs -/

/-- Each amount of `S` comes back from the compressor and from what is stored, and no two share a compressed form. -/
structure AmountsComeBack (S : Set Int) : Prop where
  decompress_compress : ∀ v ∈ S, decompressAmount (compressAmount (ofInt v)) = ofInt v
  stored : ∀ v ∈ S, ∀ rest, unserializeAmount (serializeAmount v ++ rest) = some (v, rest)
  injective : Set.InjOn (fun v => compressAmount (ofInt v)) S

theorem ofInt_toNat {v : Int} (hv : moneyRange v) : (ofInt v).toNat = v.toNat := by
  have hmax := MAX_MONEY_lt
  rw [moneyRange_iff] at hv
  show (v % 2 ^ 64).toNat % 2 ^ 64 = v.toNat
  omega

theorem unserialize_serialize {v : Int} (hv : moneyRange v)
    (hback : decompressAmount (compressAmount (ofInt v)) = ofInt v) (rest : List UInt8) :
    unserializeAmount (serializeAmount v ++ rest) = some (v, rest) := by
  have hmax := MAX_MONEY_lt
  have hrange := moneyRange_iff.mp hv
  rw [unserializeAmount, serializeAmount, readVarInt_writeVarInt, Option.map_some]
  show some (wrap64 (decompressAmount (ofNat (compressAmount (ofInt v)).toNat)).toNat, rest) = _
  rw [UInt64.ofNat_toNat, hback, ofInt_toNat hv, Int.toNat_of_nonneg hrange.1, wrap64_of_range (by omega) (by omega)]

/-- Amounts in the money range come back exactly when their compressed forms fit 64 bits. -/
theorem amountsComeBack_iff {S : Set Int} (hS : ∀ v ∈ S, moneyRange v = true) :
    AmountsComeBack S ↔ ∀ v ∈ S, CompressesExactly v.toNat := by
  have hle : ∀ v ∈ S, (ofInt v).toNat ≤ MAX_MONEY.toNat := by
    intro v hv
    rw [ofInt_toNat (hS v hv)]
    exact Int.toNat_le_toNat (moneyRange_iff.mp (hS v hv)).2
  constructor
  · intro h v hv
    by_contra hexact
    rw [← ofInt_toNat (hS v hv)] at hexact
    exact decompress_compress_ne (hle v hv) hexact (h.decompress_compress v hv)
  · intro h
    have hback : ∀ v ∈ S, decompressAmount (compressAmount (ofInt v)) = ofInt v := by
      intro v hv
      refine decompress_compress_of_exact (hle v hv) ?_
      rw [ofInt_toNat (hS v hv)]
      exact h v hv
    refine ⟨hback, fun v hv => unserialize_serialize (hS v hv) (hback v hv), ?_⟩
    intro v hv w hw hsame
    have hbits : ofInt v = ofInt w := by
      rw [← hback v hv, ← hback w hw]
      exact congrArg decompressAmount hsame
    have hv' := moneyRange_iff.mp (hS v hv)
    have hw' := moneyRange_iff.mp (hS w hw)
    have hnat : v.toNat = w.toNat := by rw [← ofInt_toNat (hS v hv), ← ofInt_toNat (hS w hw), hbits]
    omega

/-- Every amount up to 20496382304.12172402 coins comes back. -/
theorem amountsComeBack_below : AmountsComeBack {v | 0 ≤ v ∧ v ≤ 2049638230412172402} := by
  refine (amountsComeBack_iff fun v hv => ?_).mpr fun v hv => ?_
  · have hmax : MAX_MONEY = 9223372036800000000 := rfl
    rw [moneyRange_iff]
    exact ⟨hv.1, by have := hv.2; omega⟩
  · have hle : v ≤ 2049638230412172402 := hv.2
    show v.toNat % 10 = 0 ∨ 9 * v.toNat + v.toNat % 10 < 2 ^ 64 + 9
    omega

/-- The next amount has the compressed form of 0.0001 coins. -/
theorem compress_collision :
    moneyRange 2049638230412172403 = true ∧
    compressAmount (ofInt 2049638230412172403) = compressAmount (ofInt 10000) ∧
    decompressAmount (compressAmount (ofInt 2049638230412172403)) = 10000 ∧
    ¬ AmountsComeBack {v | moneyRange v = true} := by
  refine ⟨by decide, by decide, by decide, fun h => ?_⟩
  exact absurd (h.decompress_compress 2049638230412172403 (by decide)) (by decide)

end Reddcoin
