import Mathlib.Data.Finsupp.Weight

/-!
# Ledgers

A ledger gives a value to finitely many accounts; its degree is the sum of the values.  Accounts are closed one
after another, and the values they had are recorded.
-/

namespace Reddcoin
namespace Lib
namespace Ledger

variable {ι A : Type*} [AddCommGroup A]

theorem degree_erase (B : ι →₀ A) (i : ι) : (B.erase i).degree = B.degree - B i := by
  have hsplit := congrArg Finsupp.degree (Finsupp.erase_add_single i B)
  rw [map_add, Finsupp.degree_single] at hsplit
  exact eq_sub_of_add_eq hsplit

noncomputable def closeAll (B : ι →₀ A) (accounts : List ι) : ι →₀ A :=
  accounts.foldl (fun B i => B.erase i) B

theorem closeAll_apply (B : ι →₀ A) (accounts : List ι) (i : ι) :
    closeAll B accounts i = 0 ∨ closeAll B accounts i = B i := by
  induction accounts generalizing B with
  | nil => exact .inr rfl
  | cons j accounts ih =>
    rcases ih (B.erase j) with hzero | hsame
    · exact .inl hzero
    · by_cases hij : i = j
      · rw [hij, Finsupp.erase_same] at hsame
        rw [hij]
        exact .inl hsame
      · rw [Finsupp.erase_ne hij] at hsame
        exact .inr hsame

theorem closeAll_eq_zero {B : ι →₀ A} {i : ι} (h : B i = 0) (accounts : List ι) :
    closeAll B accounts i = 0 := by
  rcases closeAll_apply B accounts i with hzero | hsame
  · exact hzero
  · exact hsame.trans h

/-- Closing different accounts takes out what they held at the start. -/
theorem degree_closeAll (B : ι →₀ A) {accounts : List ι} (h : accounts.Nodup) :
    (closeAll B accounts).degree = B.degree - (accounts.map B).sum := by
  induction accounts generalizing B with
  | nil => simp [closeAll]
  | cons i accounts ih =>
    obtain ⟨hi, hrest⟩ := List.nodup_cons.mp h
    have hkeep : accounts.map (B.erase i) = accounts.map B := by
      apply List.map_congr_left
      intro j hj
      exact Finsupp.erase_ne fun heq => hi (heq ▸ hj)
    show (closeAll (B.erase i) accounts).degree = _
    rw [ih (B.erase i) hrest, degree_erase, hkeep, List.map_cons, List.sum_cons, sub_sub]

/-- The values that accounts held when they were closed. -/
inductive Recorded : (ι →₀ A) → List ι → List A → Prop where
  | nil (B : ι →₀ A) : Recorded B [] []
  | cons {B : ι →₀ A} {i : ι} {a : A} {accounts : List ι} {values : List A} (head : B i = a)
      (tail : Recorded (B.erase i) accounts values) : Recorded B (i :: accounts) (a :: values)

/-- A ledger made of a list of entries. -/
noncomputable def ofEntries (entries : List (ι × A)) : ι →₀ A :=
  (entries.map fun entry => Finsupp.single entry.1 entry.2).sum

theorem ofEntries_cons (entry : ι × A) (entries : List (ι × A)) :
    ofEntries (entry :: entries) = Finsupp.single entry.1 entry.2 + ofEntries entries := by
  simp [ofEntries]

theorem degree_ofEntries (entries : List (ι × A)) :
    (ofEntries entries).degree = (entries.map Prod.snd).sum := by
  induction entries with
  | nil => simp [ofEntries]
  | cons entry entries ih =>
    rw [ofEntries_cons, map_add, Finsupp.degree_single, ih, List.map_cons, List.sum_cons]

theorem ofEntries_eq_zero {entries : List (ι × A)} {i : ι} (h : ∀ entry ∈ entries, entry.1 ≠ i) :
    ofEntries entries i = 0 := by
  induction entries with
  | nil => simp [ofEntries]
  | cons entry entries ih =>
    rw [ofEntries_cons, Finsupp.add_apply, Finsupp.single_eq_of_ne
      (fun heq => h entry List.mem_cons_self heq.symm),
      ih fun e he => h e (List.mem_cons_of_mem _ he), add_zero]

/-- With the accounts apart, each has the value of its entry. -/
theorem ofEntries_apply {entries : List (ι × A)} (hnodup : (entries.map Prod.fst).Nodup)
    {entry : ι × A} (h : entry ∈ entries) : ofEntries entries entry.1 = entry.2 := by
  induction entries with
  | nil => simp at h
  | cons e entries ih =>
    rw [List.map_cons, List.nodup_cons] at hnodup
    rw [ofEntries_cons, Finsupp.add_apply]
    rcases List.mem_cons.mp h with rfl | h
    · have hrest : ofEntries entries entry.1 = 0 :=
        ofEntries_eq_zero fun e he heq => hnodup.1 (heq ▸ List.mem_map_of_mem he)
      rw [hrest, Finsupp.single_eq_same, add_zero]
    · have hne : e.1 ≠ entry.1 := fun heq => hnodup.1 (heq ▸ List.mem_map_of_mem h)
      rw [ih hnodup.2 h, Finsupp.single_eq_of_ne hne.symm, zero_add]

end Ledger
end Lib
end Reddcoin
