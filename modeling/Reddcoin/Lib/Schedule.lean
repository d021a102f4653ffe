import Mathlib.Algebra.Order.BigOperators.Group.List
import Mathlib.Data.List.Perm.Subperm

/-!
# Schedules

A schedule is a list of different tasks, taken out of a larger one.  What a task needs is asked of the tasks before it,
and what the tasks cost together is no more than all of them cost.
-/

namespace Schedule

variable {α : Type} {P Q : List α → α → Prop} {l l' : List α} {a : α}

/-- Every element has the property with respect to the elements before it. -/
def EachAfter (P : List α → α → Prop) (l : List α) : Prop :=
  ∀ before a after, l = before ++ a :: after → P before a

theorem eachAfter_nil : EachAfter P [] := by
  intro before a after h
  simp at h

theorem EachAfter.head (h : EachAfter P (a :: l)) : P [] a :=
  h [] a l rfl

theorem EachAfter.tail (h : EachAfter P (a :: l)) : EachAfter (fun before => P (a :: before)) l := by
  intro before b after hsplit
  exact h (a :: before) b after (by rw [hsplit, List.cons_append])

/-- A task is put at the end. -/
theorem EachAfter.concat (h : EachAfter P l) (ha : P l a) : EachAfter P (l ++ [a]) := by
  intro before b after hsplit
  rcases List.eq_nil_or_concat after with rfl | ⟨after', c, rfl⟩
  · obtain ⟨rfl, hb⟩ := List.append_inj' hsplit rfl
    obtain rfl := List.singleton_inj.mp hb
    exact ha
  · have hlast : l ++ [a] = (before ++ b :: after') ++ [c] := by simpa using hsplit
    exact h before b after' (List.append_inj' hlast rfl).1

/-- What different elements of a list add up to. -/
theorem sum_map_le {M : Type} [AddCommMonoid M] [PartialOrder M] [IsOrderedAddMonoid M] {cost : α → M}
    (hnodup : l.Nodup) (hsub : ∀ a ∈ l, a ∈ l') (hnonneg : ∀ a ∈ l', 0 ≤ cost a) :
    (l.map cost).sum ≤ (l'.map cost).sum := by
  obtain ⟨m, hperm, hsublist⟩ := hnodup.subperm hsub
  rw [← (hperm.map cost).sum_eq]
  refine (hsublist.map cost).sum_le_sum fun x hx => ?_
  obtain ⟨b, hb, rfl⟩ := List.mem_map.mp hx
  exact hnonneg b hb

end Schedule
