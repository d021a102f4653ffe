import Mathlib.Data.List.Perm.Basic

/-!
# Loops that answer

A loop over a list whose body goes on to the next element or answers for the whole list.  When every element was let
through, the answer is true.
-/

namespace Verdicts

variable {α : Type*} (check : α → Except Bool Unit)

def verdict : List α → Bool
  | [] => true
  | a :: l =>
    match check a with
    | .error answer => answer
    | .ok () => verdict l

variable {check} {l : List α} {a : α}

theorem verdict_answer {answer : Bool} (h : check a = .error answer) (l : List α) :
    verdict check (a :: l) = answer := by
  rw [verdict, h]

theorem verdict_goOn (h : check a = .ok ()) (l : List α) : verdict check (a :: l) = verdict check l := by
  rw [verdict, h]

/-- Nobody refuses. -/
theorem verdict_of_forall (h : ∀ a ∈ l, check a ≠ .error false) : verdict check l = true := by
  induction l with
  | nil => rfl
  | cons a l ih =>
    have hrest := ih fun b hb => h b (List.mem_cons_of_mem a hb)
    cases hcheck : check a with
    | ok => rwa [verdict_goOn hcheck]
    | error answer =>
      have hhead := h a List.mem_cons_self
      rw [verdict_answer hcheck]
      cases answer with
      | true => rfl
      | false => exact absurd hcheck hhead

/-- Nobody accepts for the others. -/
theorem verdict_iff_of_no_accept (h : ∀ a ∈ l, check a ≠ .error true) :
    verdict check l ↔ ∀ a ∈ l, check a ≠ .error false := by
  induction l with
  | nil => simp [verdict]
  | cons a l ih =>
    have hrest := ih fun b hb => h b (List.mem_cons_of_mem a hb)
    cases hcheck : check a with
    | ok => simp [verdict_goOn hcheck, hrest, hcheck]
    | error answer =>
      have hhead := h a List.mem_cons_self
      cases answer with
      | true => exact absurd hcheck hhead
      | false => simp [verdict_answer hcheck, hcheck]

/-- What is asked first answers. -/
theorem verdict_erase {answer : Bool} [DecidableEq α] (ha : a ∈ l) (h : check a = .error answer) :
    ∃ l', l'.Perm l ∧ verdict check l' = answer :=
  ⟨a :: l.erase a, (List.perm_cons_erase ha).symm, verdict_answer h _⟩

/-- The loop is the conjunction over the elements, in every order, exactly when nobody refuses or nobody accepts for
the others. -/
theorem verdict_conjunction_iff [DecidableEq α] :
    ((verdict check l ↔ ∀ a ∈ l, check a ≠ .error false) ∧
        ∀ l', l'.Perm l → verdict check l' = verdict check l) ↔
      (∀ a ∈ l, check a ≠ .error false) ∨ ∀ a ∈ l, check a ≠ .error true := by
  constructor
  · rintro ⟨hall, hperm⟩
    by_contra hboth
    rw [not_or] at hboth
    obtain ⟨hrefuses, haccepts⟩ := hboth
    push Not at haccepts
    obtain ⟨a, ha, hcheck⟩ := haccepts
    -- The one that accepts is asked first.
    obtain ⟨l', hl', htrue⟩ := verdict_erase ha hcheck
    exact hrefuses (hall.mp ((hperm l' hl').symm.trans htrue))
  · rintro (hall | hnone)
    · have htrue := verdict_of_forall hall
      refine ⟨iff_of_true htrue hall, fun l' hl' => ?_⟩
      rw [htrue]
      exact verdict_of_forall fun a ha => hall a (hl'.mem_iff.mp ha)
    · have hiff := verdict_iff_of_no_accept hnone
      refine ⟨hiff, fun l' hl' => Bool.eq_iff_iff.mpr ?_⟩
      rw [hiff, verdict_iff_of_no_accept fun a ha => hnone a (hl'.mem_iff.mp ha)]
      exact forall_congr' fun a => by rw [hl'.mem_iff]

end Verdicts
