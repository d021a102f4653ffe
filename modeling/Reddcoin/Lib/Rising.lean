import Mathlib.Data.Finset.Card

/-!
# Loops with a rising value

A loop that goes on only with a larger value out of a finite set ends, whatever else happens in its turns.
-/

namespace Rising

variable {V R : Type}

/-- At most so many turns of a loop; each ends it or goes on with another value.  `none` when it has not ended. -/
def run (turn : Nat → V → R ⊕ V) : Nat → Nat → V → Option R
  | 0, _, _ => none
  | turns + 1, k, v =>
    match turn k v with
    | .inl r => some r
    | .inr v => run turn turns (k + 1) v

/-- What every value keeps holds in the turn that ends the loop. -/
theorem run_invariant (turn : Nat → V → R ⊕ V) {P : V → Prop} {Q : R → Prop}
    (hnext : ∀ k v v', P v → turn k v = .inr v' → P v') (hlast : ∀ k v r, P v → turn k v = .inl r → Q r)
    {turns k : Nat} {v : V} {r : R} (hv : P v) (h : run turn turns k v = some r) : Q r := by
  induction turns generalizing k v with
  | zero => cases h
  | succ turns ih =>
    rw [run] at h
    cases hturn : turn k v with
    | inl r' =>
      rw [hturn] at h
      exact Option.some.inj h ▸ hlast k v r' hv hturn
    | inr v' =>
      rw [hturn] at h
      exact ih (hnext k v v' hv hturn) h

variable [LinearOrder V]

/-- More turns than there are larger values are enough. -/
theorem run_ends {turn : Nat → V → R ⊕ V} {range : Finset V}
    (h : ∀ k v v', turn k v = .inr v' → v < v' ∧ v' ∈ range) {turns k : Nat} {v : V}
    (hturns : (range.filter fun w => v < w).card < turns) : ∃ r, run turn turns k v = some r := by
  induction turns generalizing k v with
  | zero => exact absurd hturns (Nat.not_lt_zero _)
  | succ turns ih =>
    rw [run]
    cases hturn : turn k v with
    | inl r => exact ⟨r, rfl⟩
    | inr v' =>
      obtain ⟨hlt, hmem⟩ := h k v v' hturn
      refine ih ?_
      have hfewer : (range.filter fun w => v' < w).card < (range.filter fun w => v < w).card := by
        refine Finset.card_lt_card (Finset.ssubset_iff_of_subset ?_ |>.mpr ⟨v', ?_, ?_⟩)
        · intro w hw
          obtain ⟨hin, hw⟩ := Finset.mem_filter.mp hw
          exact Finset.mem_filter.mpr ⟨hin, hlt.trans hw⟩
        · exact Finset.mem_filter.mpr ⟨hmem, hlt⟩
        · exact fun hself => absurd (Finset.mem_filter.mp hself).2 (lt_irrefl v')
      omega

end Rising
