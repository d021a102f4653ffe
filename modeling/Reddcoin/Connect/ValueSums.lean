import Mathlib.Algebra.Order.BigOperators.Group.List
import Reddcoin.Connect.RoundTrip

/-!
# The running sums of values

`CheckTransaction`, `GetValueOut` and `CheckInputs` add up values in an `int64_t` and look at the sum after each
addition.  `MAX_MONEY` is more than half of what an `int64_t` holds, so the addition itself can overflow first.
-/

namespace Reddcoin

open List

/-- The value fits an `int64_t`. -/
def FitsInt64 (x : Int) : Prop :=
  -(2 ^ 63) ≤ x ∧ x < 2 ^ 63

instance (x : Int) : Decidable (FitsInt64 x) :=
  inferInstanceAs (Decidable (_ ∧ _))

/-! ## One loop -/

section

variable {α : Type}

/-- The exact results of the additions that a loop makes from the total `acc` on: an element that does not pass the
checks before the addition ends the loop, and so does one at which `next` fails. -/
def additions (before : α → Bool) (value : α → Int) (next : Int → α → Option Int) : Int → List α → List Int
  | _, [] => []
  | acc, a :: l =>
    if before a then
      (acc + value a) :: match next acc a with
        | some acc => additions before value next acc l
        | none => []
    else []

/-- A turn of the loop passes its checks exactly when the value and the wrapped total are in the money range. -/
def SumsInRange (before : α → Bool) (value : α → Int) (next : Int → α → Option Int) : Prop :=
  ∀ acc a, next acc a =
    if before a && moneyRange (value a) && moneyRange (wrap64 (acc + value a)) then some (wrap64 (acc + value a))
    else none

/-- The first total above the money range, if there is one, still fits an `int64_t`. -/
def FirstExcessFits (values : List Int) : Prop :=
  ∀ i, (values.take i).sum ≤ MAX_MONEY → (values.take (i + 1)).sum < 2 ^ 63

variable {before : α → Bool} {value : α → Int} {next : Int → α → Option Int} {acc v : Int} {a : α} {l : List α}

/-- Of two values in the money range, the wrapped sum is in the range exactly when the exact one is. -/
theorem moneyRange_wrap64_add (hacc : moneyRange acc) (hv : moneyRange v) :
    moneyRange (wrap64 (acc + v)) = decide (acc + v ≤ MAX_MONEY) := by
  rw [moneyRange_iff] at hacc hv
  have hmax := MAX_MONEY_lt
  by_cases hle : acc + v ≤ MAX_MONEY
  · rw [wrap64_of_range (by omega) (by omega), decide_eq_true hle, moneyRange_iff]
    omega
  · rw [decide_eq_false hle, ← Bool.not_eq_true, moneyRange_iff]
    obtain ⟨k, hk⟩ := wrap64_eq_add (acc + v)
    have hrange := wrap64_range (acc + v)
    omega

theorem SumsInRange.next_eq (h : SumsInRange before value next) (hacc : moneyRange acc)
    (hv : moneyRange (value a)) :
    next acc a = if before a ∧ acc + value a ≤ MAX_MONEY then some (acc + value a) else none := by
  rw [h acc a, hv, moneyRange_wrap64_add hacc hv]
  simp only [Bool.and_true, Bool.and_eq_true, decide_eq_true_eq]
  rw [moneyRange_iff] at hacc hv
  have hmax := MAX_MONEY_lt
  split_ifs with hpass
  · rw [wrap64_of_range (by omega) (by omega)]
  · rfl

theorem moneyRange_add (hacc : moneyRange acc) (hv : moneyRange v) (hle : acc + v ≤ MAX_MONEY) :
    moneyRange (acc + v) = true := by
  rw [moneyRange_iff] at hacc hv ⊢
  omega

/-- The loop comes to its end exactly when every element passes the other checks and the exact sum is in the range. -/
theorem SumsInRange.passes_iff (h : SumsInRange before value next) (hacc : moneyRange acc)
    (hvalues : ∀ a ∈ l, moneyRange (value a)) :
    (l.foldlM next acc).isSome ↔ (∀ a ∈ l, before a) ∧ acc + (l.map value).sum ≤ MAX_MONEY := by
  induction l generalizing acc with
  | nil =>
    rw [moneyRange_iff] at hacc
    simp [hacc.2]
  | cons a l ih =>
    have hv := hvalues a mem_cons_self
    have hrest : ∀ b ∈ l, moneyRange (value b) = true := fun b hb => hvalues b (mem_cons_of_mem _ hb)
    have hsum : 0 ≤ (l.map value).sum := by
      refine sum_nonneg fun x hx => ?_
      obtain ⟨b, hb, rfl⟩ := mem_map.mp hx
      exact (moneyRange_iff.mp (hrest b hb)).1
    rw [foldlM_cons, h.next_eq hacc hv, map_cons, sum_cons, ← Int.add_assoc, forall_mem_cons]
    split_ifs with hpass
    · show (l.foldlM next (acc + value a)).isSome = true ↔ _
      rw [ih (moneyRange_add hacc hv hpass.2) hrest]
      simp [hpass.1]
    · simp only [Option.bind_eq_bind, Option.bind_none, Option.isSome_none, Bool.false_eq_true, false_iff]
      rintro ⟨⟨hbefore, -⟩, hle⟩
      exact hpass ⟨hbefore, by omega⟩

/-- The additions of the loop fit exactly when the first total above the range does. -/
theorem SumsInRange.additions_fit_iff (h : SumsInRange before value next) (hacc : moneyRange acc)
    (hvalues : ∀ a ∈ l, moneyRange (value a)) :
    (∀ x ∈ additions before value next acc l, FitsInt64 x) ↔
      ∀ i, acc + (((l.takeWhile before).map value).take i).sum ≤ MAX_MONEY →
        acc + (((l.takeWhile before).map value).take (i + 1)).sum < 2 ^ 63 := by
  have hmax := MAX_MONEY_lt
  induction l generalizing acc with
  | nil =>
    simp only [additions, not_mem_nil, false_implies, implies_true, true_iff, takeWhile_nil, map_nil,
      take_nil, sum_nil, Int.add_zero]
    intro _ hle
    omega
  | cons a l ih =>
    have hv := hvalues a mem_cons_self
    have hrest : ∀ b ∈ l, moneyRange (value b) = true := fun b hb => hvalues b (mem_cons_of_mem _ hb)
    have hrange := moneyRange_iff.mp hacc
    have hvrange := moneyRange_iff.mp hv
    rw [additions, takeWhile_cons]
    by_cases hbefore : before a = true
    · rw [if_pos hbefore, if_pos hbefore, h.next_eq hacc hv, forall_mem_cons, map_cons]
      have hstep : ∀ i, acc + ((value a :: (l.takeWhile before).map value).take (i + 1)).sum =
          (acc + value a) + (((l.takeWhile before).map value).take i).sum := by
        intro i
        rw [take_succ_cons, sum_cons, Int.add_assoc]
      by_cases hle : acc + value a ≤ MAX_MONEY
      · rw [if_pos ⟨hbefore, hle⟩]
        show FitsInt64 (acc + value a) ∧ (∀ x ∈ additions before value next (acc + value a) l, FitsInt64 x) ↔ _
        have hrun := ih (moneyRange_add hacc hv hle) hrest
        constructor
        · rintro ⟨-, hfits⟩ i hi
          cases i with
          | zero =>
            rw [hstep, take_zero, sum_nil]
            omega
          | succ i =>
            rw [hstep] at hi ⊢
            exact hrun.mp hfits i hi
        · intro hall
          refine ⟨⟨by omega, by omega⟩, hrun.mpr fun i hi => ?_⟩
          rw [← hstep] at hi ⊢
          exact hall (i + 1) hi
      · rw [if_neg fun hpass => hle hpass.2]
        constructor
        · rintro ⟨⟨-, hfits⟩, -⟩ i hi
          cases i with
          | zero =>
            rw [hstep, take_zero, sum_nil]
            omega
          | succ i =>
            -- No total beyond the first excess is in the range again.
            have hnonneg : 0 ≤ (((l.takeWhile before).map value).take i).sum := by
              refine sum_nonneg fun x hx => ?_
              obtain ⟨b, hb, rfl⟩ := mem_map.mp (mem_of_mem_take hx)
              exact (moneyRange_iff.mp (hrest b (takeWhile_subset _ hb))).1
            rw [hstep] at hi
            omega
        · intro hall
          have hfirst := hall 0 (by simpa using hrange.2)
          rw [hstep, take_zero, sum_nil] at hfirst
          exact ⟨⟨by omega, by omega⟩, by simp⟩
    · rw [if_neg hbefore, if_neg hbefore]
      simp only [not_mem_nil, false_implies, implies_true, true_iff, map_nil, take_nil, sum_nil, Int.add_zero]
      intro _ hle
      omega

end

/-- Fewer values keep the condition. -/
theorem FirstExcessFits.take {values : List Int} (h : FirstExcessFits values) (k : Nat) :
    FirstExcessFits (values.take k) := by
  intro i hle
  have hmax := MAX_MONEY_lt
  by_cases hi : i < k
  · rw [take_take, Nat.min_eq_left (by omega)] at hle ⊢
    exact h i hle
  · have hsame : (values.take k).take (i + 1) = (values.take k).take i := by
      rw [take_take, take_take, Nat.min_eq_right (by omega), Nat.min_eq_right (by omega)]
    rw [hsame]
    omega

/-! ## The three loops -/

/-- The value that an input spends, 0 when the coin is not there. -/
def spentValue (view : CoinsView) (txin : CTxIn) : Int :=
  match (view.accessCoins txin.prevout.hash).bind fun coins => coins.vout[txin.prevout.n]? with
  | some out => out.nValue
  | none => 0

/-- The output loop of `CheckTransaction` does not add up an empty output of a user transaction. -/
def countsOutput (tx : CTransaction) (txout : CTxOut) : Bool :=
  !(txout.isEmpty && !tx.isCoinBase && !tx.isCoinStake)

/-- The checks that `CheckInputs` makes on a coin before it adds the coin's value. -/
def countsInput (view : CoinsView) (nSpendHeight : Nat) (tx : CTransaction) (txin : CTxIn) : Bool :=
  match view.accessCoins txin.prevout.hash with
  | some coins =>
    !((coins.fCoinBase || coins.fCoinStake) &&
        decide ((nSpendHeight : Int) - coins.nHeight < COINBASE_MATURITY)) &&
      decide (coins.nTime % 2 ^ 32 ≤ tx.nTime) && (coins.vout[txin.prevout.n]?).isSome
  | none => false

section

variable (view : CoinsView) (nSpendHeight : Nat) (tx : CTransaction)

theorem toOption_foldlM {α : Type} (f : Int → α → Check Int) (l : List α) (acc : Int) :
    (l.foldlM f acc).toOption = l.foldlM (fun acc a => (f acc a).toOption) acc := by
  induction l generalizing acc with
  | nil => rfl
  | cons a l ih =>
    rw [foldlM_cons, foldlM_cons]
    cases h : f acc a with
    | error stop => rfl
    | ok acc' => exact ih acc'

theorem toOption_require_bind {b : Bool} {stop : Stop} {f : Unit → Check Int} :
    (require b stop >>= f).toOption = if b then (f ()).toOption else none := by
  cases b <;> rfl

theorem toOption_pure {v : Int} : (pure v : Check Int).toOption = some v := rfl

theorem toOption_orCrash_bind {α : Type} {x : Option α} {f : α → Check Int} :
    (orCrash x >>= f).toOption = x.bind fun a => (f a).toOption := by
  cases x <;> rfl

/-- Checks made one after the other. -/
theorem ite_ite_none {b c : Bool} {x : Option Int} :
    (if b then if c then x else none else none) = if b && c then x else none := by
  cases b <;> rfl

theorem checkTxOut_sumsInRange :
    SumsInRange (countsOutput tx) CTxOut.nValue fun nValueOut txout => (checkTxOut tx nValueOut txout).toOption := by
  intro nValueOut txout
  show (checkTxOut tx nValueOut txout).toOption = _
  unfold checkTxOut countsOutput
  simp only [toOption_require_bind, toOption_pure, ite_ite_none, moneyRange, Bool.and_assoc]

theorem addValueOut_sumsInRange :
    SumsInRange (fun _ => true) CTxOut.nValue CTransaction.addValueOut := by
  intro nValueOut txout
  show (if !moneyRange txout.nValue || !moneyRange (wrap64 (nValueOut + txout.nValue)) then none
    else some (wrap64 (nValueOut + txout.nValue))) = _
  cases moneyRange txout.nValue <;> cases moneyRange (wrap64 (nValueOut + txout.nValue)) <;> rfl

theorem checkInput_sumsInRange :
    SumsInRange (countsInput view nSpendHeight tx) (spentValue view) fun nValueIn txin =>
      (checkInput view nSpendHeight tx nValueIn txin).toOption := by
  intro nValueIn txin
  show (checkInput view nSpendHeight tx nValueIn txin).toOption = _
  unfold checkInput countsInput spentValue
  simp only [toOption_orCrash_bind, toOption_require_bind, toOption_pure]
  cases view.accessCoins txin.prevout.hash with
  | none => rfl
  | some coins =>
    cases hout : coins.vout[txin.prevout.n]? with
    | none => simp [hout]
    | some out => simp only [Option.bind_some, hout, ite_ite_none, Option.isSome_some, Bool.and_true, Bool.and_assoc]

/-! ## A transaction -/

/-- No addition of the three loops leaves the range of an `int64_t`, and each loop passes exactly when the exact sum is
in the money range and no other check of the loop fails. -/
structure SumsExact : Prop where
  checkTxOut_fits : ∀ x ∈ additions (countsOutput tx) CTxOut.nValue
    (fun nValueOut txout => (checkTxOut tx nValueOut txout).toOption) 0 tx.vout, FitsInt64 x
  getValueOut_fits : ∀ x ∈ additions (fun _ => true) CTxOut.nValue CTransaction.addValueOut 0 tx.vout, FitsInt64 x
  checkInput_fits : ∀ x ∈ additions (countsInput view nSpendHeight tx) (spentValue view)
    (fun nValueIn txin => (checkInput view nSpendHeight tx nValueIn txin).toOption) 0 tx.vin, FitsInt64 x
  checkTxOut_passes : (tx.vout.foldlM (checkTxOut tx) 0).toOption.isSome = true ↔
    (∀ txout ∈ tx.vout, countsOutput tx txout = true) ∧ valueOf tx.vout ≤ MAX_MONEY
  getValueOut_passes : tx.getValueOut.isSome = true ↔ valueOf tx.vout ≤ MAX_MONEY
  checkInput_passes : (tx.vin.foldlM (checkInput view nSpendHeight tx) 0).toOption.isSome = true ↔
    (∀ txin ∈ tx.vin, countsInput view nSpendHeight tx txin = true) ∧ (tx.vin.map (spentValue view)).sum ≤ MAX_MONEY

variable {view nSpendHeight tx}

theorem moneyRange_zero : moneyRange 0 = true := rfl

theorem SumsInRange.additions_zero_fit_iff {α : Type} {before : α → Bool} {value : α → Int}
    {next : Int → α → Option Int} {l : List α} (h : SumsInRange before value next)
    (hvalues : ∀ a ∈ l, moneyRange (value a)) :
    (∀ x ∈ additions before value next 0 l, FitsInt64 x) ↔ FirstExcessFits ((l.takeWhile before).map value) := by
  rw [h.additions_fit_iff moneyRange_zero hvalues]
  simp only [Int.zero_add]
  exact Iff.rfl

/-- For values in the money range, the sums are exact unless the first total above `MAX_MONEY` is also above what an
`int64_t` holds. -/
theorem sumsExact_iff (hvout : ∀ out ∈ tx.vout, moneyRange out.nValue = true)
    (hvin : ∀ txin ∈ tx.vin, moneyRange (spentValue view txin) = true) :
    SumsExact view nSpendHeight tx ↔ FirstExcessFits (tx.vout.map CTxOut.nValue) ∧
        FirstExcessFits ((tx.vin.takeWhile (countsInput view nSpendHeight tx)).map (spentValue view)) := by
  have houtputs := (checkTxOut_sumsInRange tx).additions_zero_fit_iff hvout
  have hvalueOut := addValueOut_sumsInRange.additions_zero_fit_iff hvout
  have hinputs := (checkInput_sumsInRange view nSpendHeight tx).additions_zero_fit_iff hvin
  have hall : tx.vout.takeWhile (fun _ => true) = tx.vout := by
    rw [takeWhile_eq_self_iff]
    intro _ _
    rfl
  rw [hall] at hvalueOut
  constructor
  · intro h
    exact ⟨hvalueOut.mp h.getValueOut_fits, hinputs.mp h.checkInput_fits⟩
  · rintro ⟨hfits, hfitsIn⟩
    have hcounted : FirstExcessFits ((tx.vout.takeWhile (countsOutput tx)).map CTxOut.nValue) := by
      have hprefix := takeWhile_prefix (l := tx.vout) (countsOutput tx)
      rw [prefix_iff_eq_take.mp hprefix, map_take]
      exact hfits.take _
    refine ⟨houtputs.mpr hcounted, hvalueOut.mpr hfits, hinputs.mpr hfitsIn, ?_, ?_, ?_⟩
    · rw [toOption_foldlM, (checkTxOut_sumsInRange tx).passes_iff moneyRange_zero hvout, Int.zero_add]
      exact Iff.rfl
    · show (tx.vout.foldlM CTransaction.addValueOut 0).isSome = true ↔ _
      rw [addValueOut_sumsInRange.passes_iff moneyRange_zero hvout, Int.zero_add]
      simp only [implies_true, true_and]
      exact Iff.rfl
    · rw [toOption_foldlM, (checkInput_sumsInRange view nSpendHeight tx).passes_iff moneyRange_zero hvin, Int.zero_add]

end

/-- Values whose sum is in the money range. -/
theorem firstExcessFits_of_sum_le {values : List Int} (hnonneg : ∀ v ∈ values, 0 ≤ v)
    (hle : values.sum ≤ MAX_MONEY) : FirstExcessFits values := by
  intro i _
  have hmax := MAX_MONEY_lt
  have hrest : 0 ≤ (values.drop (i + 1)).sum := sum_nonneg fun v hv => hnonneg v (mem_of_mem_drop hv)
  have hsplit := sum_take_add_sum_drop values (i + 1)
  omega

theorem sumsExact_iff_example :
    SumsExact (Example.view Example.coins) 10 (Example.spendTx 500 0 [Example.keyOut 10, Example.keyOut 20]) := by
  refine (sumsExact_iff (by decide) (by decide)).mpr ⟨?_, ?_⟩
  · exact firstExcessFits_of_sum_le (by decide) (by decide)
  · exact firstExcessFits_of_sum_le (by decide) (by decide)

/-- Two outputs of `MAX_MONEY` each: the second addition overflows before the total is looked at. -/
theorem sums_overflow :
    (∀ out ∈ [Example.keyOut MAX_MONEY, Example.keyOut MAX_MONEY], moneyRange out.nValue = true) ∧
    ¬ FitsInt64 (MAX_MONEY + MAX_MONEY) ∧
    ¬ SumsExact (Example.view Example.coins) 10
      (Example.spendTx 500 0 [Example.keyOut MAX_MONEY, Example.keyOut MAX_MONEY]) := by
  refine ⟨by decide, by decide, fun h => ?_⟩
  have hfits := h.getValueOut_fits (MAX_MONEY + MAX_MONEY) (by decide)
  exact absurd hfits (by decide)

end Reddcoin
