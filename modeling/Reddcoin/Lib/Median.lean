import Mathlib.Data.List.Count
import Mathlib.Data.List.Sort

/-!
# The middle of a list

What more than half of the entries satisfy bounds the one in the middle of the sorted list.
-/

namespace Median

open List

variable {α : Type*} [LinearOrder α] {l : List α} {a m : α}

/-- The entry in the middle of the sorted list, the upper one of two. -/
def median (l : List α) : Option α :=
  (l.insertionSort (· ≤ ·))[l.length / 2]?

/-- The entries before the middle are at most the median, those behind it at least. -/
theorem split_at (hm : median l = some m) :
    ∃ low high, (low ++ m :: high).Perm l ∧ low.length = l.length / 2 ∧ (∀ x ∈ low, x ≤ m) ∧ ∀ x ∈ high, m ≤ x := by
  have hperm := perm_insertionSort (· ≤ ·) l
  have hsorted := pairwise_insertionSort (· ≤ ·) l
  rw [median] at hm
  generalize l.insertionSort (· ≤ ·) = s at hm hperm hsorted
  obtain ⟨hlt, rfl⟩ := List.getElem?_eq_some_iff.mp hm
  have hsplit : s.take (l.length / 2) ++ s[l.length / 2] :: s.drop (l.length / 2 + 1) = s := by
    rw [← drop_eq_getElem_cons hlt, take_append_drop]
  have hpair := hsorted
  rw [← hsplit, pairwise_append, pairwise_cons] at hpair
  exact ⟨_, _, (List.Perm.of_eq hsplit).trans hperm, length_take_of_le hlt.le, fun x hx => hpair.2.2 x hx _ mem_cons_self,
    hpair.2.1.1⟩

theorem le_median (hm : median l = some m) (hmost : l.length < 2 * l.countP (a ≤ ·)) : a ≤ m := by
  obtain ⟨low, high, hperm, hlow, hle, -⟩ := split_at hm
  by_contra hless
  have hnone : low.countP (a ≤ ·) = 0 :=
    countP_eq_zero.mpr fun x hx h => hless ((of_decide_eq_true h).trans (hle x hx))
  have hrest := countP_le_length (p := fun x => decide (a ≤ x)) (l := high)
  have hlength := hperm.length_eq
  rw [length_append, length_cons] at hlength
  rw [← hperm.countP_eq, countP_append, hnone, countP_cons, decide_eq_false hless] at hmost
  simp only [Bool.false_eq_true, if_false] at hmost
  omega

theorem median_le (hm : median l = some m) (hmost : l.length < 2 * l.countP (· ≤ a)) : m ≤ a := by
  obtain ⟨low, high, hperm, hlow, -, hle⟩ := split_at hm
  by_contra hless
  have hnone : high.countP (· ≤ a) = 0 :=
    countP_eq_zero.mpr fun x hx h => hless ((hle x hx).trans (of_decide_eq_true h))
  have hrest := countP_le_length (p := fun x => decide (x ≤ a)) (l := low)
  rw [← hperm.countP_eq, countP_append, countP_cons, hnone, decide_eq_false hless] at hmost
  simp only [Bool.false_eq_true, if_false] at hmost
  omega

/-- The least possible entry is the median of an odd number of entries only if more than half of them are this entry. -/
theorem median_least_iff (hm : median l = some m) (hodd : l.length % 2 = 1) (hleast : ∀ x ∈ l, a ≤ x) :
    m = a ↔ l.length < 2 * l.count a := by
  obtain ⟨low, high, hperm, hlow, hle, -⟩ := split_at hm
  constructor
  · rintro rfl
    have hall : low.count m = low.length := by
      refine count_eq_length.mpr fun x hx => le_antisymm ?_ (hle x hx)
      exact hleast x (hperm.mem_iff.mp (mem_append_left _ hx))
    rw [← hperm.count_eq, count_append, hall, count_cons_self]
    omega
  · intro hmost
    have hmem : m ∈ l := hperm.mem_iff.mp (mem_append_right _ mem_cons_self)
    have hcount : l.count a ≤ l.countP (· ≤ a) :=
      countP_mono_left fun x _ h => decide_eq_true (le_of_eq (beq_iff_eq.mp h))
    exact le_antisymm (median_le hm (by omega)) (hleast m hmem)

end Median
