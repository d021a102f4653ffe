import Mathlib.Data.List.MinMax
import Mathlib.Data.List.Nodup

/-!
# Drawing the first few of a list

A partial shuffle: at each turn one of the entries that are left is exchanged with the first of them, and the turn goes on
behind it.  An entry is drawn from the position where it lies, which is not where it is at the end.
-/

namespace Draw

open List

variable {α β : Type*} {rand : Nat → Nat} {turns i : Nat} {l : List α}

/-- The entries drawn, each with the position from which it is drawn, and the entries left.  The first entry of the list
is at position `i`. -/
def draw (rand : Nat → Nat) : Nat → Nat → List α → List (α × Nat) × List α
  | 0, _, l => ([], l)
  | _ + 1, _, [] => ([], [])
  | turns + 1, i, a :: l =>
    let n := rand 0 % (l.length + 1)
    let next := draw (fun k => rand (k + 1)) turns (i + 1) ((a :: l).set n a).tail
    (((a :: l).getD n a, n + i) :: next.1, next.2)

/-- The list after the draw. -/
def drawn (d : List (α × Nat) × List α) : List α :=
  d.1.map Prod.fst ++ d.2

/-- What the first turn exchanges. -/
theorem exchange_perm {n : Nat} (a : α) (l : List α) (hn : n < (a :: l).length) :
    ((a :: l).getD n a :: ((a :: l).set n a).tail).Perm (a :: l) := by
  have hswap := @set_set_perm _ (a :: l) _ _ hn (Nat.zero_lt_succ l.length)
  have hget : (a :: l).getD n a = (a :: l)[n] := by
    rw [getD_eq_getElem?_getD, getElem?_eq_getElem hn]
    rfl
  rw [getElem_cons_zero, ← hget] at hswap
  cases n with
  | zero => exact hswap
  | succ n => exact hswap

theorem length_exchange (a : α) (l : List α) (n : Nat) : ((a :: l).set n a).tail.length = l.length := by
  rw [length_tail, length_set]
  rfl

theorem drawn_perm (rand : Nat → Nat) (turns i : Nat) (l : List α) : (drawn (draw rand turns i l)).Perm l := by
  induction turns generalizing rand i l with
  | zero => exact .refl _
  | succ turns ih =>
    cases l with
    | nil => exact .refl _
    | cons a l =>
      have hn : rand 0 % (l.length + 1) < (a :: l).length := Nat.mod_lt _ (Nat.succ_pos _)
      exact ((ih _ _ _).cons _).trans (exchange_perm a l hn)

theorem position_lt {p : α × Nat} (hp : p ∈ (draw rand turns i l).1) : p.2 < i + l.length := by
  induction turns generalizing rand i l with
  | zero => cases hp
  | succ turns ih =>
    cases l with
    | nil => cases hp
    | cons a l =>
      have hn : rand 0 % (l.length + 1) < l.length + 1 := Nat.mod_lt _ (Nat.succ_pos _)
      rw [length_cons]
      rcases mem_cons.mp hp with rfl | hp
      · show rand 0 % (l.length + 1) + i < _
        omega
      · have hlt := ih hp
        rw [length_exchange] at hlt
        omega

theorem draw_ne_nil (hturns : 0 < turns) (hl : l ≠ []) : (draw rand turns i l).1 ≠ [] := by
  cases turns with
  | zero => cases hturns
  | succ turns =>
    cases l with
    | nil => exact absurd rfl hl
    | cons a l => exact cons_ne_nil _ _

section Least

variable [LinearOrder β] {key : α → β} {d : List (α × Nat) × List α} {p : α × Nat}

/-- The entry at a position is one of those drawn, and none of these is less. -/
def LeastAt (key : α → β) (d : List (α × Nat) × List α) (n : Nat) : Prop :=
  ∃ a, (drawn d)[n]? = some a ∧ a ∈ d.1.map Prod.fst ∧ ∀ b ∈ d.1.map Prod.fst, key a ≤ key b

/-- The position from which the first least entry is drawn is one of a turn, and what that turn draws is as little. -/
def Returns (key : α → β) (d : List (α × Nat) × List α) : Prop :=
  ∃ p ∈ List.argmin (fun x => key x.1) d.1, ∃ a, (d.1.map Prod.fst)[p.2]? = some a ∧ key a = key p.1

/-- The position from which the first least entry is drawn holds a least entry at the end only then. -/
theorem leastAt_iff (hnodup : (drawn d).Nodup) (hp : p ∈ List.argmin (fun x => key x.1) d.1) :
    LeastAt key d p.2 ↔ Returns key d := by
  have hmem : p.1 ∈ d.1.map Prod.fst := mem_map_of_mem (argmin_mem hp)
  have hleast : ∀ b ∈ d.1.map Prod.fst, key p.1 ≤ key b := by
    intro b hb
    obtain ⟨q, hq, rfl⟩ := mem_map.mp hb
    exact le_of_mem_argmin (f := fun x : α × Nat => key x.1) hq hp
  constructor
  · rintro ⟨a, hat, hdrawn, ha⟩
    refine ⟨p, hp, a, ?_, le_antisymm (ha p.1 hmem) (hleast a hdrawn)⟩
    rcases Nat.lt_or_ge p.2 (d.1.map Prod.fst).length with hturn | hturn
    · rw [drawn, getElem?_append_left hturn] at hat
      exact hat
    · -- what is left at a position behind the turns has not been drawn
      rw [drawn, getElem?_append_right hturn] at hat
      exact absurd hdrawn (disjoint_right.mp (disjoint_of_nodup_append hnodup) (mem_of_getElem? hat))
  · rintro ⟨q, hq, a, hat, hkey⟩
    cases hp.symm.trans hq
    have hturn := (List.getElem?_eq_some_iff.mp hat).1
    refine ⟨a, ?_, List.mem_of_getElem? hat, hkey ▸ hleast⟩
    rw [drawn, getElem?_append_left hturn]
    exact hat

end Least

end Draw
