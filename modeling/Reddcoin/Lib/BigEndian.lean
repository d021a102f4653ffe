import Mathlib.Tactic.Ring

/-!
# Integers in bytes, the most significant first

`value` is the number that bytes say, `signed` the integer in two's complement.  An encoding is minimal when no
shorter string of bytes says the same integer.
-/

namespace BigEndian

variable {b : UInt8}

def value : List UInt8 → Nat
  | [] => 0
  | b :: bs => b.toNat * 256 ^ bs.length + value bs

/-- Two's complement: the highest bit of the first byte is the sign. -/
def signed : List UInt8 → Int
  | [] => 0
  | b :: bs => if 0x80 ≤ b.toNat then (value (b :: bs) : Int) - 256 ^ (bs.length + 1) else value (b :: bs)

/-- The bytes are an encoding of `n`, and no shorter ones are. -/
structure Minimal (bytes : List UInt8) (n : Int) : Prop where
  ne_nil : bytes ≠ []
  signed_eq : signed bytes = n
  shortest : ∀ other ≠ [], signed other = n → bytes.length ≤ other.length

theorem value_lt (bytes : List UInt8) : value bytes < 256 ^ bytes.length := by
  induction bytes with
  | nil => exact Nat.one_pos
  | cons b bs ih =>
    have hb := b.toNat_lt
    have hle : b.toNat * 256 ^ bs.length ≤ 255 * 256 ^ bs.length := Nat.mul_le_mul_right _ (by omega)
    rw [value, List.length_cons, Nat.pow_succ]
    omega

/-- Bytes of one length say different numbers. -/
theorem value_injective {bytes other : List UInt8} (hlen : bytes.length = other.length)
    (h : value bytes = value other) : bytes = other := by
  induction bytes generalizing other with
  | nil => exact (List.length_eq_zero_iff.mp hlen.symm).symm
  | cons b bs ih =>
    cases other with
    | nil => cases hlen
    | cons c cs =>
      have hlen : bs.length = cs.length := Nat.succ.inj hlen
      have hbs := value_lt bs
      have hcs := value_lt cs
      rw [value, value, hlen] at h
      rw [hlen] at hbs
      have hhead : b.toNat = c.toNat := by
        have hdiv := congrArg (· / 256 ^ cs.length) h
        simp only [Nat.mul_comm _ (256 ^ cs.length)] at hdiv
        rwa [Nat.mul_add_div (Nat.pow_pos (by omega)), Nat.mul_add_div (Nat.pow_pos (by omega)),
          Nat.div_eq_of_lt hbs, Nat.div_eq_of_lt hcs] at hdiv
      have htail : value bs = value cs := by
        rw [hhead] at h
        omega
      rw [UInt8.toNat_inj.mp hhead, ih hlen htail]

theorem signed_of_lt (h : b.toNat < 0x80) (bs : List UInt8) : signed (b :: bs) = value (b :: bs) := by
  rw [signed, if_neg (by omega)]

theorem signed_nonneg_iff {bs : List UInt8} : 0 ≤ signed (b :: bs) ↔ b.toNat < 0x80 := by
  constructor
  · intro h
    by_contra hge
    have hlt := value_lt (b :: bs)
    rw [signed, if_pos (by omega)] at h
    rw [List.length_cons] at hlt
    have hcast : (value (b :: bs) : Int) < 256 ^ (bs.length + 1) := by exact_mod_cast hlt
    omega
  · intro h
    rw [signed_of_lt h]
    exact Int.natCast_nonneg _

/-- A number that begins without a sign takes half the range at most. -/
theorem value_lt_of_lt (h : b.toNat < 0x80) (bs : List UInt8) : value (b :: bs) < 0x80 * 256 ^ bs.length := by
  have hlt := value_lt bs
  have hle : b.toNat * 256 ^ bs.length ≤ 0x7f * 256 ^ bs.length := Nat.mul_le_mul_right _ (by omega)
  rw [value]
  omega

/-- The first byte is needed: it is not zero, or the second one has the highest bit. -/
def Unpadded (b : UInt8) (bs : List UInt8) : Prop :=
  ∀ c cs, bs = c :: cs → b = 0 → 0x80 ≤ c.toNat

theorem le_value_of_unpadded {b c : UInt8} {cs : List UInt8} (h : Unpadded b (c :: cs)) :
    0x80 * 256 ^ cs.length ≤ value (b :: c :: cs) := by
  rw [value, value, List.length_cons, Nat.pow_succ]
  by_cases hb : b = 0
  · have hle : 0x80 * 256 ^ cs.length ≤ c.toNat * 256 ^ cs.length := Nat.mul_le_mul_right _ (h c cs rfl hb)
    omega
  · have hpos : b.toNat ≠ 0 := fun h0 => hb (UInt8.toNat_inj.mp h0)
    have hle : 1 * (256 ^ cs.length * 256) ≤ b.toNat * (256 ^ cs.length * 256) := Nat.mul_le_mul_right _ (by omega)
    omega

/-- An encoding of a number is minimal when its first byte has no sign and is needed. -/
theorem minimal_iff {bs : List UInt8} {n : Nat} :
    Minimal (b :: bs) n ↔ b.toNat < 0x80 ∧ Unpadded b bs ∧ value (b :: bs) = n := by
  constructor
  · intro h
    have hsigned := h.signed_eq
    have hb : b.toNat < 0x80 := signed_nonneg_iff.mp (by rw [hsigned]; exact Int.natCast_nonneg n)
    rw [signed_of_lt hb] at hsigned
    refine ⟨hb, ?_, by exact_mod_cast hsigned⟩
    intro c cs hbs hzero
    by_contra hlow
    -- without its first byte the encoding says the same
    have hsame : value (b :: bs) = value (c :: cs) := by
      rw [hbs, hzero, value]
      show 0 * _ + _ = _
      rw [Nat.zero_mul, Nat.zero_add]
    have hshort := h.shortest (c :: cs) (List.cons_ne_nil c cs) (by
      rw [signed_of_lt (by omega), ← hsigned, hsame])
    rw [hbs, List.length_cons] at hshort
    omega
  · rintro ⟨hb, hpad, hvalue⟩
    refine ⟨List.cons_ne_nil b bs, by rw [signed_of_lt hb, hvalue], ?_⟩
    intro other hother hsame
    cases other with
    | nil => exact absurd rfl hother
    | cons c cs =>
      have hc : c.toNat < 0x80 := signed_nonneg_iff.mp (by rw [hsame]; exact Int.natCast_nonneg n)
      have hsame' : value (c :: cs) = n := by
        rw [signed_of_lt hc] at hsame
        exact_mod_cast hsame
      cases bs with
      | nil =>
        rw [List.length_singleton, List.length_cons]
        omega
      | cons d ds =>
        have hlow := le_value_of_unpadded hpad
        have hhigh := value_lt_of_lt hc cs
        have hpow : 256 ^ ds.length < 256 ^ cs.length := by omega
        have hlen := (Nat.pow_lt_pow_iff_right (by omega : 1 < 256)).mp hpow
        rw [List.length_cons, List.length_cons, List.length_cons]
        omega

/-- A number has one minimal encoding. -/
theorem Minimal.unique {bytes other : List UInt8} {n : Nat} (h : Minimal bytes n) (h' : Minimal other n) :
    bytes = other := by
  have hlen : bytes.length = other.length :=
    Nat.le_antisymm (h.shortest other h'.ne_nil h'.signed_eq) (h'.shortest bytes h.ne_nil h.signed_eq)
  cases bytes with
  | nil => exact absurd rfl h.ne_nil
  | cons b bs =>
    cases other with
    | nil => exact absurd rfl h'.ne_nil
    | cons c cs =>
      have hvalue := (minimal_iff.mp h).2.2
      have hvalue' := (minimal_iff.mp h').2.2
      exact value_injective hlen (hvalue.trans hvalue'.symm)

end BigEndian
