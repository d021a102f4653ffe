import Mathlib.Algebra.BigOperators.Group.List.Basic
import Mathlib.Algebra.GroupWithZero.Nat
import Mathlib.Data.List.AList

/-!
# Folds over the entries of a finite map

Sums over the entries, and a loop over the entries of one association list that updates another map, where the step for key
`a` reads and writes the target at `a` only.  Since the keys are distinct, such a loop acts
pointwise, whatever the order of the entries.
-/

namespace Reddcoin
namespace Lib

section Sums

variable {α β : Type} [DecidableEq α]

theorem entries_perm_erase {m : AList fun _ : α => β} {a : α} {b : β} (h : m.lookup a = some b) :
    m.entries.Perm (⟨a, b⟩ :: (m.erase a).entries) := by
  have hins : (m.insert a b).entries = ⟨a, b⟩ :: (m.erase a).entries := rfl
  rw [← hins]
  apply List.lookup_ext m.nodupKeys (m.insert a b).nodupKeys
  intro x y
  show m.lookup x = some y ↔ (m.insert a b).lookup x = some y
  by_cases hx : x = a
  · subst hx
    rw [AList.lookup_insert, h]
  · rw [AList.lookup_insert_ne hx]

theorem sum_entries_erase {m : AList fun _ : α => β} {a : α} {b : β} (h : m.lookup a = some b)
    (f : (Sigma fun _ : α => β) → Nat) :
    (m.entries.map f).sum = f ⟨a, b⟩ + ((m.erase a).entries.map f).sum := by
  rw [((entries_perm_erase h).map f).sum_eq, List.map_cons, List.sum_cons]

end Sums

section PointwiseFold

variable {α β γ : Type} [DecidableEq α]

/-- `upd a b` says what the step for the entry `(a, b)` does to the target's value at `a`; where it is
`some`, the step succeeds and touches no other key. -/
structure PointwiseStep (step : AList (fun _ : α => γ) → α → β → Option (AList fun _ : α => γ))
    (upd : α → β → Option γ → Option (Option γ)) : Prop where
  succeeds : ∀ m a b v, upd a b (m.lookup a) = some v →
    ∃ m', step m a b = some m' ∧ m'.lookup a = v ∧ ∀ a', a' ≠ a → m'.lookup a' = m.lookup a'

variable {step : AList (fun _ : α => γ) → α → β → Option (AList fun _ : α => γ)}
  {upd : α → β → Option γ → Option (Option γ)}

theorem PointwiseStep.foldlM_list (hstep : PointwiseStep step upd)
    {entries : List (Sigma fun _ : α => β)} (hnodup : entries.NodupKeys)
    {m : AList fun _ : α => γ}
    (hok : ∀ a b, entries.dlookup a = some b → upd a b (m.lookup a) ≠ none) :
    ∃ m', entries.foldlM (fun m e => step m e.1 e.2) m = some m' ∧ ∀ a, some (m'.lookup a) =
        (entries.dlookup a).elim (some (m.lookup a)) fun b => upd a b (m.lookup a) := by
  induction entries generalizing m with
  | nil => exact ⟨m, rfl, fun a => rfl⟩
  | cons e entries ih =>
    obtain ⟨a, b⟩ := e
    obtain ⟨hfresh, hnodup'⟩ := List.nodupKeys_cons.mp hnodup
    have hnone : entries.dlookup a = none := List.dlookup_eq_none.mpr hfresh
    have hhead : upd a b (m.lookup a) ≠ none := hok a b (List.dlookup_cons_eq entries a b)
    obtain ⟨v, hv⟩ := Option.ne_none_iff_exists'.mp hhead
    obtain ⟨m₁, hm₁, hat, hother⟩ := hstep.succeeds m a b v hv
    have hok' : ∀ a' b', entries.dlookup a' = some b' → upd a' b' (m₁.lookup a') ≠ none := by
      intro a' b' hlook
      have hne : a' ≠ a := by
        rintro rfl
        rw [hnone] at hlook
        simp at hlook
      rw [hother a' hne]
      exact hok a' b' (by rw [List.dlookup_cons_ne entries _ hne]; exact hlook)
    obtain ⟨m₂, hm₂, hpoint⟩ := ih hnodup' hok'
    refine ⟨m₂, ?_, ?_⟩
    · rw [List.foldlM_cons, hm₁]
      exact hm₂
    · intro a'
      rw [hpoint a']
      by_cases hne : a' = a
      · subst hne
        rw [hnone, List.dlookup_cons_eq, hat]
        exact hv.symm
      · rw [List.dlookup_cons_ne entries _ hne, hother a' hne]

/-- A loop of pointwise steps over a map succeeds when no step fails on the initial target, and its
result is then known at every key. -/
theorem PointwiseStep.foldlM_entries (hstep : PointwiseStep step upd)
    (child : AList fun _ : α => β) {m : AList fun _ : α => γ}
    (hok : ∀ a b, child.lookup a = some b → upd a b (m.lookup a) ≠ none) :
    ∃ m', child.entries.foldlM (fun m e => step m e.1 e.2) m = some m' ∧ ∀ a, some (m'.lookup a) =
        (child.lookup a).elim (some (m.lookup a)) fun b => upd a b (m.lookup a) :=
  hstep.foldlM_list child.nodupKeys hok

/-- The same for a loop whose steps cannot fail. -/
theorem foldl_entries_lookup {step : AList (fun _ : α => γ) → α → β → AList fun _ : α => γ}
    {upd : α → β → Option γ → Option γ}
    (hat : ∀ m a b, (step m a b).lookup a = upd a b (m.lookup a))
    (hother : ∀ m a b a', a' ≠ a → (step m a b).lookup a' = m.lookup a')
    (child : AList fun _ : α => β) (m : AList fun _ : α => γ) (a : α) :
    (child.entries.foldl (fun m e => step m e.1 e.2) m).lookup a =
      (child.lookup a).elim (m.lookup a) fun b => upd a b (m.lookup a) := by
  have hstep : PointwiseStep (fun m a b => some (step m a b)) fun a b v => some (upd a b v) := by
    refine ⟨fun m a b v hv => ⟨step m a b, rfl, ?_, hother m a b⟩⟩
    rw [hat, Option.some.inj hv]
  obtain ⟨m', hm', hpoint⟩ := hstep.foldlM_entries child (m := m) fun a b _ => by simp
  have hfold : child.entries.foldl (fun m e => step m e.1 e.2) m = m' := by
    have hpure := List.foldlM_pure (m := Option) (f := fun m (e : Sigma fun _ : α => β) =>
      step m e.1 e.2) (b := m) (l := child.entries)
    rw [show (fun m (e : Sigma fun _ : α => β) => (pure (step m e.1 e.2) : Option _)) =
      fun m e => some (step m e.1 e.2) from rfl, hm'] at hpure
    exact (Option.some.inj hpure).symm
  rw [hfold]
  have ha := hpoint a
  cases hlook : child.lookup a <;> simpa [hlook] using ha

end PointwiseFold

end Lib
end Reddcoin
