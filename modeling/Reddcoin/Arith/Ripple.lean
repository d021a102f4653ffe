import Reddcoin.Arith.BaseUint

/-!
# Sums and products of limbs

The operators of `base_uint` that run through the limbs with a carry.
-/

namespace Reddcoin

namespace BaseUint

variable {w : Nat}

/-! ## Sums and products -/

/-- A turn of a loop that adds up columns: the column and the carry leave `n & 0xffffffff` as the limb and
`n >> 32` as the carry. -/
def carryTurn (i : Nat) (h : i < w) (column : UInt32 → UInt64) (s : BaseUint w × UInt64) : BaseUint w × UInt64 :=
  let n := s.2 + column (s.1.get i h)
  (s.1.set i h (n &&& 0xffffffff).toUInt32, n >>> 32)

theorem carryTurn_value (i : Nat) (h : i < w) (column : UInt32 → UInt64) (s : BaseUint w × UInt64)
    (hcol : (column (s.1.get i h)).toNat ≤ 2 ^ 64 - 2 ^ 32) (hcarry : s.2.toNat < 2 ^ 32) :
    (carryTurn i h column s).1.value + (carryTurn i h column s).2.toNat * 2 ^ (32 * (i + 1)) +
        s.1.limb i * 2 ^ (32 * i) =
      s.1.value + s.2.toNat * 2 ^ (32 * i) + (column (s.1.get i h)).toNat * 2 ^ (32 * i) ∧
    (carryTurn i h column s).2.toNat < 2 ^ 32 := by
  have hn : (s.2 + column (s.1.get i h)).toNat = s.2.toNat + (column (s.1.get i h)).toNat := by
    rw [UInt64.toNat_add, Nat.mod_eq_of_lt (by omega)]
  have hlimb : ((s.2 + column (s.1.get i h)) &&& 0xffffffff).toUInt32.toNat =
      (s.2.toNat + (column (s.1.get i h)).toNat) % 2 ^ 32 := by
    have hmask := Nat.and_two_pow_sub_one_eq_mod (s.2 + column (s.1.get i h)).toNat 32
    rw [UInt64.toNat_toUInt32, UInt64.toNat_and, ← hn]
    show ((s.2 + column (s.1.get i h)).toNat &&& (2 ^ 32 - 1)) % 2 ^ 32 = _
    rw [hmask, Nat.mod_mod]
  have hout : ((s.2 + column (s.1.get i h)) >>> 32).toNat = (s.2.toNat + (column (s.1.get i h)).toNat) / 2 ^ 32 := by
    rw [UInt64.toNat_shiftRight, hn, Nat.shiftRight_eq_div_pow]
    rfl
  have hset := value_set s.1 h ((s.2 + column (s.1.get i h)) &&& 0xffffffff).toUInt32
  have hcarryEq := Limbs.carry_eq 32 (s.2.toNat + (column (s.1.get i h)).toNat) i
  rw [hlimb] at hset
  constructor
  · show (s.1.set i h _).value + ((s.2 + column (s.1.get i h)) >>> 32).toNat * _ + _ = _
    rw [hout]
    rw [Nat.add_mul] at hcarryEq
    omega
  · show ((s.2 + column (s.1.get i h)) >>> 32).toNat < _
    rw [hout]
    omega

theorem carryTurn_limb (i : Nat) (h : i < w) (column : UInt32 → UInt64) (s : BaseUint w × UInt64) {k : Nat}
    (hk : k ≠ i) : (carryTurn i h column s).1.limb k = s.1.limb k := by
  rw [carryTurn, limb_set, Function.update_of_ne hk]

/-- What a loop of such turns from the limb `j` on does: `column` says what is added at each place. -/
theorem carryLoop_value (j count : Nat)
    (turn : (i : Nat) → i < count → BaseUint w × UInt64 → BaseUint w × UInt64) (pn : BaseUint w) (column : Nat → Nat)
    (hturn : ∀ i (h : i < count) s, (∀ k, j + i ≤ k → s.1.limb k = pn.limb k) →
      ∃ (p : Nat) (hp : p < w) (c : UInt32 → UInt64),
        p = j + i ∧ turn i h s = carryTurn p hp c s ∧ (c (s.1.get p hp)).toNat = column i)
    (hcol : ∀ i < count, column i ≤ 2 ^ 64 - 2 ^ 32) :
    ∃ carry, (Nat.fold count turn (pn, 0)).1.value + carry * 2 ^ (32 * (j + count)) +
        2 ^ (32 * j) * Limbs.value 32 (fun i => pn.limb (j + i)) count =
      pn.value + 2 ^ (32 * j) * Limbs.value 32 column count := by
  have hinv := Limbs.fold_invariant (fun i (s : BaseUint w × UInt64) =>
    (∀ k, j + i ≤ k → s.1.limb k = pn.limb k) ∧ s.2.toNat < 2 ^ 32 ∧
      s.1.value + s.2.toNat * 2 ^ (32 * (j + i)) + 2 ^ (32 * j) * Limbs.value 32 (fun i => pn.limb (j + i)) i =
        pn.value + 2 ^ (32 * j) * Limbs.value 32 column i) count turn (pn, 0)
    ⟨fun _ _ => rfl, Nat.two_pow_pos 32, by simp⟩ ?_
  · exact ⟨_, hinv.2.2⟩
  · intro i h s ⟨hkeep, hcarry, hsum⟩
    obtain ⟨_, hp, c, rfl, hc, hcv⟩ := hturn i h s hkeep
    obtain ⟨hvalue, hlt⟩ := carryTurn_value (j + i) hp c s (by rw [hcv]; exact hcol i h) hcarry
    have hpow : (2 : Nat) ^ (32 * (j + i)) = 2 ^ (32 * j) * 2 ^ (32 * i) := by
      rw [Nat.mul_add, Nat.pow_add]
    have hold : 2 ^ (32 * j) * Limbs.value 32 (fun i => pn.limb (j + i)) (i + 1) =
        2 ^ (32 * j) * Limbs.value 32 (fun i => pn.limb (j + i)) i + pn.limb (j + i) * 2 ^ (32 * (j + i)) := by
      rw [Limbs.value_succ, hpow]
      ring
    have hnew : 2 ^ (32 * j) * Limbs.value 32 column (i + 1) =
        2 ^ (32 * j) * Limbs.value 32 column i + column i * 2 ^ (32 * (j + i)) := by
      rw [Limbs.value_succ, hpow]
      ring
    rw [hc]
    refine ⟨fun k hk => ?_, hlt, ?_⟩
    · rw [carryTurn_limb _ _ _ _ (by omega)]
      exact hkeep k (by omega)
    · rw [hcv, hkeep (j + i) (by omega)] at hvalue
      rw [hold, hnew, ← Nat.add_assoc j i 1]
      omega

/-- `operator+=`. -/
def add (a b : BaseUint w) : BaseUint w :=
  (Nat.fold w (fun i h s => carryTurn i h (fun limb => limb.toUInt64 + (b.get i h).toUInt64) s) (a, 0)).1

/-- `operator*=` by a word. -/
def mulWord (a : BaseUint w) (b32 : UInt32) : BaseUint w :=
  (Nat.fold w (fun i h s => carryTurn i h (fun limb => b32.toUInt64 * limb.toUInt64) s) (a, 0)).1

/-- What the reference that an operator takes is bound to: the object that is assigned to, or another one. -/
inductive Operand (w : Nat) where
  | self
  | other (b : BaseUint w)

def Operand.read (this : BaseUint w) : Operand w → BaseUint w
  | .self => this
  | .other b => b

/-- `operator*=`.  The product is built in `*this`, after `*this = 0`. -/
def mulAssign (this : BaseUint w) (b : Operand w) : BaseUint w :=
  let a := this
  Nat.fold w (fun j hj this =>
    (Nat.fold (w - j) (fun i hi s =>
      carryTurn (j + i) (by omega)
        (fun limb => limb.toUInt64 + (a.get j hj).toUInt64 * ((b.read s.1).get i (by omega)).toUInt64) s)
      (this, 0)).1) zero

/-- `operator*`, which multiplies a copy. -/
def mul (a b : BaseUint w) : BaseUint w :=
  a.mulAssign (.other b)

theorem column_add (x y : UInt32) : (x.toUInt64 + y.toUInt64).toNat = x.toNat + y.toNat := by
  have hx := x.toNat_lt
  have hy := y.toNat_lt
  rw [UInt64.toNat_add, UInt32.toNat_toUInt64, UInt32.toNat_toUInt64, Nat.mod_eq_of_lt (by omega)]

theorem column_mul (x y : UInt32) : (x.toUInt64 * y.toUInt64).toNat = x.toNat * y.toNat ∧
    x.toNat * y.toNat ≤ (2 ^ 32 - 1) * (2 ^ 32 - 1) := by
  have hx := x.toNat_lt
  have hy := y.toNat_lt
  have hle : x.toNat * y.toNat ≤ (2 ^ 32 - 1) * (2 ^ 32 - 1) := Nat.mul_le_mul (by omega) (by omega)
  rw [UInt64.toNat_mul, UInt32.toNat_toUInt64, UInt32.toNat_toUInt64, Nat.mod_eq_of_lt (by omega)]
  exact ⟨rfl, hle⟩

/-- A loop over all limbs leaves the sum of the columns, less what is carried out. -/
theorem carryLoop_mod (turn : (i : Nat) → i < w → BaseUint w × UInt64 → BaseUint w × UInt64) (pn : BaseUint w)
    (column : Nat → Nat)
    (hturn : ∀ i (h : i < w) s, (∀ k, i ≤ k → s.1.limb k = pn.limb k) →
      ∃ c : UInt32 → UInt64, turn i h s = carryTurn i h c s ∧ (c (s.1.get i h)).toNat = column i)
    (hcol : ∀ i < w, column i ≤ 2 ^ 64 - 2 ^ 32) :
    (Nat.fold w turn (pn, 0)).1.value = Limbs.value 32 column w % 2 ^ (32 * w) := by
  have hloop := carryLoop_value 0 w turn pn column ?_ hcol
  · obtain ⟨carry, h⟩ := hloop
    have hlt := (Nat.fold w turn (pn, 0)).1.value_lt
    have hold : Limbs.value 32 (fun i => pn.limb (0 + i)) w = pn.value := by
      apply Limbs.value_congr
      intro i _
      rw [Nat.zero_add]
    rw [hold, Nat.zero_add, Nat.mul_zero, Nat.pow_zero, Nat.one_mul, Nat.one_mul, Nat.mul_comm _ (2 ^ (32 * w))] at h
    have hsum : Limbs.value 32 column w = (Nat.fold w turn (pn, 0)).1.value + 2 ^ (32 * w) * carry := by omega
    rw [hsum, Nat.add_mul_mod_self_left, Nat.mod_eq_of_lt hlt]
  · intro i h s hkeep
    obtain ⟨c, hc⟩ := hturn i h s fun k hk => hkeep k (by omega)
    exact ⟨i, h, c, by omega, hc⟩

theorem value_add (a b : BaseUint w) : (a.add b).value = (a.value + b.value) % 2 ^ (32 * w) := by
  have hsum : a.value + b.value = Limbs.value 32 (fun i => a.limb i + b.limb i) w := (Limbs.value_add _ _ _ _).symm
  rw [hsum]
  apply carryLoop_mod
  · intro i h s hkeep
    refine ⟨_, rfl, ?_⟩
    rw [column_add, ← limb_of_lt s.1 h, hkeep i (Nat.le_refl i), ← limb_of_lt b h]
  · intro i _
    have ha := a.limb_lt i
    have hb := b.limb_lt i
    omega

theorem value_mulWord (a : BaseUint w) (b32 : UInt32) :
    (a.mulWord b32).value = a.value * b32.toNat % 2 ^ (32 * w) := by
  have hprod : a.value * b32.toNat = Limbs.value 32 (fun i => b32.toNat * a.limb i) w := by
    rw [Limbs.value_mul_left, Nat.mul_comm]
    rfl
  rw [hprod]
  apply carryLoop_mod
  · intro i h s hkeep
    refine ⟨_, rfl, ?_⟩
    rw [(column_mul _ _).1, ← limb_of_lt s.1 h, hkeep i (Nat.le_refl i)]
  · intro i hi
    have hle := (column_mul b32 (a.get i hi)).2
    rw [limb_of_lt a hi]
    omega

/-- The columns of one row of the product. -/
theorem mulRow_value (a b pn : BaseUint w) (j : Nat) (hj : j < w) :
    ∃ c, (Nat.fold (w - j) (fun i hi s =>
        carryTurn (j + i) (by omega) (fun limb => limb.toUInt64 + (a.get j hj).toUInt64 * (b.get i (by omega)).toUInt64) s)
        (pn, 0)).1.value + 2 ^ (32 * w) * c = pn.value + 2 ^ (32 * j) * a.limb j * Limbs.value 32 b.limb (w - j) := by
  have hloop := carryLoop_value j (w - j) (fun i hi s =>
    carryTurn (j + i) (by omega) (fun limb => limb.toUInt64 + (a.get j hj).toUInt64 * (b.get i (by omega)).toUInt64) s)
    pn (fun i => pn.limb (j + i) + a.limb j * b.limb i) ?_ ?_
  · obtain ⟨carry, h⟩ := hloop
    rw [Limbs.value_add, Limbs.value_mul_left, Nat.add_sub_cancel' hj.le, Nat.mul_add,
      Nat.mul_comm _ (2 ^ (32 * w)), ← Nat.mul_assoc] at h
    exact ⟨carry, by omega⟩
  · intro i hi s hkeep
    refine ⟨j + i, by omega, _, rfl, rfl, ?_⟩
    obtain ⟨hmul, hle⟩ := column_mul (a.get j hj) (b.get i (by omega))
    have hlimb := (s.1.get (j + i) (by omega)).toNat_lt
    rw [UInt64.toNat_add, UInt32.toNat_toUInt64, hmul, Nat.mod_eq_of_lt (by omega), ← limb_of_lt s.1 (by omega),
      hkeep (j + i) (Nat.le_refl _), limb_of_lt a hj, limb_of_lt b (by omega)]
  · intro i hi
    have hle := (column_mul (a.get j hj) (b.get i (by omega))).2
    have hlimb := pn.limb_lt (j + i)
    rw [limb_of_lt a hj, limb_of_lt b (by omega)]
    omega

theorem value_mulAssign_other (a b : BaseUint w) :
    (a.mulAssign (.other b)).value = a.value * b.value % 2 ^ (32 * w) := by
  have hinv := Limbs.fold_invariant (fun j (this : BaseUint w) =>
    ∃ c, this.value + 2 ^ (32 * w) * c = Limbs.value 32 a.limb j * b.value) w
    (fun j hj this => (Nat.fold (w - j) (fun i hi s =>
      carryTurn (j + i) (by omega)
        (fun limb => limb.toUInt64 + (a.get j hj).toUInt64 * (b.get i (by omega)).toUInt64) s)
      (this, 0)).1) zero ⟨0, by simp⟩ ?_
  · obtain ⟨c, hc⟩ := hinv
    show (a.mulAssign (.other b)).value = Limbs.value 32 a.limb w * b.value % 2 ^ (32 * w)
    rw [← hc, Nat.add_mul_mod_self_left]
    exact (Nat.mod_eq_of_lt (value_lt _)).symm
  · intro j hj this ⟨c, hc⟩
    obtain ⟨d, hd⟩ := mulRow_value a b this j hj
    -- The limbs of the factor that the row leaves out would be beyond the width.
    have hsplit := Limbs.value_split 32 b.limb (w - j) j
    have hpow : (2 : Nat) ^ (32 * w) = 2 ^ (32 * j) * 2 ^ (32 * (w - j)) := by
      rw [← Nat.pow_add]
      congr 1
      omega
    rw [Nat.sub_add_cancel (by omega)] at hsplit
    refine ⟨c + d + a.limb j * Limbs.value 32 (fun i => b.limb (w - j + i)) j, ?_⟩
    rw [Limbs.value_succ, Nat.add_mul, ← hc, Nat.mul_add, Nat.mul_add]
    have hrow : a.limb j * 2 ^ (32 * j) * b.value = 2 ^ (32 * j) * a.limb j * Limbs.value 32 b.limb (w - j) +
        2 ^ (32 * w) * (a.limb j * Limbs.value 32 (fun i => b.limb (w - j + i)) j) := by
      rw [value, hsplit, hpow]
      ring
    omega

@[simp] theorem get_zero (i : Nat) (h : i < w) : (zero : BaseUint w).get i h = 0 := by
  simp [get, zero]

@[simp] theorem set_zero (i : Nat) (h : i < w) : (zero : BaseUint w).set i h 0 = zero := by
  simp [set, zero]

/-- The cleared operand leaves nothing to multiply by. -/
theorem mulAssign_self (a : BaseUint w) : a.mulAssign .self = zero := by
  have hinv := Limbs.fold_invariant (fun _ (this : BaseUint w) => this = zero) w
    (fun j hj this => (Nat.fold (w - j) (fun i hi s =>
      carryTurn (j + i) (by omega)
        (fun limb => limb.toUInt64 + (a.get j hj).toUInt64 * (s.1.get i (by omega)).toUInt64) s)
      (this, 0)).1) zero rfl ?_
  · exact hinv
  · intro j hj this hthis
    have hrow := Limbs.fold_invariant (fun _ (s : BaseUint w × UInt64) => s = (zero, 0)) (w - j)
      (fun i hi s => carryTurn (j + i) (by omega)
        (fun limb => limb.toUInt64 + (a.get j hj).toUInt64 * (s.1.get i (by omega)).toUInt64) s) (this, 0)
      (by rw [hthis]) ?_
    · rw [hrow]
    · intro i hi s hs
      rw [hs, carryTurn]
      simp

/-! ## Complement and difference -/

/-- `operator~`. -/
def compl (a : BaseUint w) : BaseUint w :=
  ⟨a.pn.map fun limb => ~~~limb⟩

/-- The loop of `operator++` from the limb `i` on. -/
def incrementLoop (a : BaseUint w) (i : Nat) : (turns : Nat) → i + turns = w → BaseUint w
  | 0, _ => a
  | turns + 1, h =>
    let pn := a.set i (by omega) (a.get i (by omega) + 1)
    if pn.get i (by omega) = 0 ∧ i < w - 1 then incrementLoop pn (i + 1) turns (by omega) else pn

/-- `operator++`. -/
def increment (a : BaseUint w) : BaseUint w :=
  incrementLoop a 0 w (by omega)

/-- `operator-` of one operand. -/
def neg (a : BaseUint w) : BaseUint w :=
  a.compl.increment

/-- `operator-=`. -/
def sub (a b : BaseUint w) : BaseUint w :=
  a.add b.neg

theorem value_compl (a : BaseUint w) : a.compl.value + a.value + 1 = 2 ^ (32 * w) := by
  have hlimb : ∀ i < w, a.compl.limb i + a.limb i = 2 ^ 32 - 1 := by
    intro i hi
    have hlt := (a.get i hi).toNat_lt
    rw [limb_of_lt _ hi, limb_of_lt a hi]
    have hget : a.compl.get i hi = ~~~(a.get i hi) := by simp [compl, get]
    rw [hget, UInt32.toNat_not]
    show 2 ^ 32 - 1 - _ + _ = _
    omega
  have hmax : ∀ n, Limbs.value 32 (fun _ => 2 ^ 32 - 1) n + 1 = 2 ^ (32 * n) := by
    intro n
    induction n with
    | zero => rfl
    | succ n ih =>
      rw [Limbs.value_succ, Nat.mul_succ, Nat.pow_add]
      omega
  rw [value, value, ← Limbs.value_add, Limbs.value_congr hlimb, hmax]

theorem incrementLoop_value : ∀ (turns i : Nat) (a : BaseUint w) (h : i + turns = w), 0 < turns →
    (incrementLoop a i turns h).value = (a.value + 2 ^ (32 * i)) % 2 ^ (32 * w) := by
  intro turns
  induction turns with
  | zero => intro i a h hpos; omega
  | succ turns ih =>
    intro i a h _
    have hi : i < w := by omega
    have hset := value_set a hi (a.get i hi + 1)
    have hget : (a.set i hi (a.get i hi + 1)).get i hi = a.get i hi + 1 := by simp [get, set]
    have hsucc : (a.get i hi + 1).toNat = (a.limb i + 1) % 2 ^ 32 := by
      rw [UInt32.toNat_add, limb_of_lt a hi]
      rfl
    have hlimb := a.limb_lt i
    rw [hsucc] at hset
    rw [incrementLoop, hget]
    by_cases hz : a.get i hi + 1 = 0
    · have hfull : a.limb i + 1 = 2 ^ 32 := by
        have : (a.limb i + 1) % 2 ^ 32 = 0 := by rw [← hsucc, hz]; rfl
        omega
      have hpow : a.limb i * 2 ^ (32 * i) + 2 ^ (32 * i) = 2 ^ (32 * (i + 1)) := by
        rw [← Nat.succ_mul, Nat.succ_eq_add_one, hfull, ← Nat.pow_add]
        congr 1
        omega
      rw [hfull, Nat.mod_self, Nat.zero_mul] at hset
      have hcarry : a.value + 2 ^ (32 * i) = (a.set i hi (a.get i hi + 1)).value + 2 ^ (32 * (i + 1)) := by omega
      by_cases hlast : i < w - 1
      · rw [if_pos ⟨hz, hlast⟩, ih (i + 1) _ (by omega) (by omega), hcarry]
      · have hw : i + 1 = w := by omega
        rw [if_neg (fun hc => hlast hc.2), hcarry, hw, Nat.add_mod_right, Nat.mod_eq_of_lt (value_lt _)]
    · have hnot : a.limb i + 1 < 2 ^ 32 := by
        apply Nat.lt_of_le_of_ne (by omega)
        intro hfull
        apply hz
        apply UInt32.toNat_inj.mp
        rw [hsucc, hfull]
        rfl
      rw [Nat.mod_eq_of_lt hnot, Nat.add_mul, Nat.one_mul] at hset
      rw [if_neg (fun hc => hz hc.1), ← Nat.mod_eq_of_lt (value_lt _)]
      congr 1
      omega

theorem value_increment (hw : 0 < w) (a : BaseUint w) : a.increment.value = (a.value + 1) % 2 ^ (32 * w) := by
  rw [increment, incrementLoop_value w 0 a (by omega) hw, Nat.mul_zero, Nat.pow_zero]

theorem value_sub (hw : 0 < w) (a b : BaseUint w) (hle : b.value ≤ a.value) : (a.sub b).value = a.value - b.value := by
  have hcompl := b.value_compl
  have hlt := a.value_lt
  rw [sub, value_add, neg, value_increment hw, Nat.add_mod_mod]
  have hsum : a.value + (b.compl.value + 1) = a.value - b.value + 2 ^ (32 * w) := by omega
  rw [hsum, Nat.add_mod_right, Nat.mod_eq_of_lt (by omega)]

end BaseUint

end Reddcoin
