import Mathlib.Algebra.Order.BigOperators.Group.List
import Mathlib.Tactic.Linarith

/-!
# Choices by a mask

The elements of a list whose places in a mask are set, and the weight of the choice when one place
changes.
-/

namespace Mask

variable {α : Type}

def pick : List α → List Bool → List α
  | a :: l, b :: mask => if b then a :: pick l mask else pick l mask
  | _, _ => []

theorem pick_sublist (l : List α) (mask : List Bool) : (pick l mask).Sublist l := by
  induction l generalizing mask with
  | nil => exact List.Sublist.refl _
  | cons a l ih =>
    cases mask with
    | nil => exact List.nil_sublist _
    | cons b mask =>
      cases b
      · exact (ih mask).cons a
      · exact (ih mask).cons_cons a

theorem pick_true (l : List α) : pick l (List.replicate l.length true) = l := by
  induction l with
  | nil => rfl
  | cons a l ih => exact congrArg (a :: ·) ih

theorem pick_false (l : List α) (n : Nat) : pick l (List.replicate n false) = [] := by
  induction l generalizing n with
  | nil => rfl
  | cons a l ih =>
    cases n with
    | zero => rfl
    | succ n => exact ih n

variable (weight : α → Int)

/-- The weight of a choice. -/
def total (l : List α) (mask : List Bool) : Int :=
  ((pick l mask).map weight).sum

theorem total_cons (a : α) (l : List α) (b : Bool) (mask : List Bool) :
    total weight (a :: l) (b :: mask) = (if b then weight a else 0) + total weight l mask := by
  unfold total
  cases b
  · exact (Int.zero_add _).symm
  · rfl

theorem total_set {l : List α} {mask : List Bool} {i : Nat} {a : α} {b : Bool} (hl : l[i]? = some a)
    (hmask : mask[i]? = some b) (b' : Bool) :
    total weight l (mask.set i b') =
      total weight l mask - (if b then weight a else 0) + (if b' then weight a else 0) := by
  induction l generalizing mask i with
  | nil => simp at hl
  | cons x l ih =>
    cases mask with
    | nil => simp at hmask
    | cons y mask =>
      cases i with
      | zero =>
        obtain rfl : x = a := by simpa using hl
        obtain rfl : y = b := by simpa using hmask
        rw [List.set_cons_zero, total_cons, total_cons]
        omega
      | succ i =>
        have hrest := @ih mask i (by simpa using hl) (by simpa using hmask)
        rw [List.set_cons_succ, total_cons, total_cons, hrest]
        omega

theorem total_nonneg {l : List α} (hw : ∀ a ∈ l, 0 ≤ weight a) (mask : List Bool) :
    0 ≤ total weight l mask := by
  refine List.sum_nonneg fun w hmem => ?_
  obtain ⟨a, ha, rfl⟩ := List.mem_map.mp hmem
  exact hw a ((pick_sublist l mask).mem ha)

theorem total_le {l : List α} (hw : ∀ a ∈ l, 0 ≤ weight a) (mask : List Bool) :
    total weight l mask ≤ (l.map weight).sum := by
  refine ((pick_sublist l mask).map weight).sum_le_sum fun w hmem => ?_
  obtain ⟨a, ha, rfl⟩ := List.mem_map.mp hmem
  exact hw a ha

end Mask
