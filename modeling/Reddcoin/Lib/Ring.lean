import Mathlib.Data.List.Basic
import Mathlib.Data.Nat.ModEq

/-!
# Ring buffers

The last symbols of a long content lie in a buffer of fixed length, each at its position modulo the length.
-/

namespace Ring

open List

variable {B : Type} {cells content written : List B} {pos lo hi k : Nat}

/-- The cells after symbols were copied to a place. -/
def overwrite (cells : List B) (pos : Nat) (written : List B) : List B :=
  cells.take pos ++ (written ++ cells.drop (pos + written.length))

theorem length_overwrite (h : pos + written.length ≤ cells.length) :
    (overwrite cells pos written).length = cells.length := by
  simp only [overwrite, length_append, length_take, length_drop]
  omega

theorem getElem?_overwrite_inside (h : pos ≤ cells.length) {i : Nat} (hi : i < written.length) :
    (overwrite cells pos written)[pos + i]? = written[i]? := by
  have hfront : (cells.take pos).length = pos := length_take_of_le h
  rw [overwrite, getElem?_append_right (by omega), hfront, Nat.add_sub_cancel_left, getElem?_append_left hi]

theorem getElem?_overwrite_outside (h : pos ≤ cells.length) {i : Nat} (hi : i < pos ∨ pos + written.length ≤ i) :
    (overwrite cells pos written)[i]? = cells[i]? := by
  have hfront : (cells.take pos).length = pos := length_take_of_le h
  rcases hi with hi | hi
  · rw [overwrite, getElem?_append_left (by omega), getElem?_take_of_lt hi]
  · rw [overwrite, getElem?_append_right (by omega), getElem?_append_right (by omega), getElem?_drop, hfront]
    congr 1
    omega

/-! ## Positions -/

theorem add_mod_of_lt {q i n : Nat} (h : q % n + i < n) : (q + i) % n = q % n + i := by
  have hi : i % n = i := Nat.mod_eq_of_lt (by omega)
  rw [Nat.add_mod_of_add_mod_lt (by omega), hi]

/-- Positions less than a length apart lie in different cells. -/
theorem mod_ne {p q n : Nat} (hlt : p < q) (hnear : q < p + n) : p % n ≠ q % n := by
  intro h
  have hzero := Nat.sub_mod_eq_zero_of_mod_eq h.symm
  rw [Nat.mod_eq_of_lt (by omega)] at hzero
  omega

/-! ## What the cells hold -/

/-- The cells hold the content from `lo` on and before `hi`. -/
def Holds (cells content : List B) (lo hi : Nat) : Prop :=
  ∀ q, lo ≤ q → q < hi → cells[q % cells.length]? = content[q]?

/-- The symbols that come next are written over the oldest ones. -/
theorem Holds.write (h : Holds cells content (hi - cells.length) hi)
    (hwritten : written = (content.drop hi).take k) (hk : written.length = k)
    (hroom : hi % cells.length + k ≤ cells.length) :
    Holds (overwrite cells (hi % cells.length) written) content (hi + k - cells.length) (hi + k) := by
  intro q hlo hhi
  rw [length_overwrite (by omega)]
  by_cases hnew : hi ≤ q
  · obtain ⟨i, rfl⟩ := Nat.exists_eq_add_of_le hnew
    rw [add_mod_of_lt (by omega), getElem?_overwrite_inside (by omega) (by omega), hwritten,
      getElem?_take_of_lt (by omega), getElem?_drop]
  · rw [getElem?_overwrite_outside (by omega)]
    · exact h q (by omega) (by omega)
    · by_contra hinside
      have hcell : hi % cells.length + (q % cells.length - hi % cells.length) < cells.length := by omega
      have hsame := add_mod_of_lt hcell
      have hne := mod_ne (p := q) (q := hi + (q % cells.length - hi % cells.length)) (n := cells.length)
        (by omega) (by omega)
      omega

/-- Symbols that lie in a row in the cells. -/
theorem Holds.read (h : Holds cells content lo hi) {p : Nat} (hlo : lo ≤ p) (hhi : p + k ≤ hi)
    (hroom : p % cells.length + k ≤ cells.length) :
    (cells.drop (p % cells.length)).take k = (content.drop p).take k := by
  refine ext_getElem? fun i => ?_
  by_cases hi : i < k
  · rw [getElem?_take_of_lt hi, getElem?_take_of_lt hi, getElem?_drop, getElem?_drop,
      ← h (p + i) (by omega) (by omega), add_mod_of_lt (by omega)]
  · rw [getElem?_take_eq_none (by omega), getElem?_take_eq_none (by omega)]

end Ring
