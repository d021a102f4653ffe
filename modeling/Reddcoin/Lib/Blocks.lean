import Mathlib.Data.List.Basic
import Mathlib.Tactic.Ring

/-!
# Data in blocks

A machine compresses its data block by block and keeps what is left of a block.  The symbols are absorbed one by one, so it
does not matter in which pieces they come.
-/

namespace Blocks

open List

variable {B S : Type}

/-- The first `n` blocks of `size` symbols. -/
def blocksOf (size : Nat) : Nat → List B → List (List B)
  | 0, _ => []
  | n + 1, data => data.take size :: blocksOf size n (data.drop size)

/-- The state after the whole blocks, and the symbols since then. -/
structure Held (S B : Type) where
  state : S
  rest : List B

variable (f : S → List B → S) (size : Nat)

def absorb (h : Held S B) (b : B) : Held S B :=
  if (h.rest ++ [b]).length = size then ⟨f h.state (h.rest ++ [b]), []⟩ else ⟨h.state, h.rest ++ [b]⟩

def feed (h : Held S B) (data : List B) : Held S B :=
  data.foldl (absorb f size) h

variable {f size}

theorem feed_append (h : Held S B) (a b : List B) : feed f size h (a ++ b) = feed f size (feed f size h a) b :=
  foldl_append

theorem feed_part {s : S} {rest data : List B} (h : rest.length + data.length < size) :
    feed f size ⟨s, rest⟩ data = ⟨s, rest ++ data⟩ := by
  induction data generalizing rest with
  | nil => rw [append_nil]; rfl
  | cons b data ih =>
    rw [length_cons] at h
    have hlen : (rest ++ [b]).length = rest.length + 1 := length_append
    have hstep : absorb f size ⟨s, rest⟩ b = ⟨s, rest ++ [b]⟩ :=
      if_neg (show ¬ (rest ++ [b]).length = size by omega)
    rw [feed, foldl_cons, hstep, ← feed, ih (by omega), append_assoc]
    rfl

theorem feed_block {s : S} {rest data : List B} (hne : data ≠ []) (h : rest.length + data.length = size) :
    feed f size ⟨s, rest⟩ data = ⟨f s (rest ++ data), []⟩ := by
  obtain ⟨front, b, rfl⟩ := (eq_nil_or_concat' data).resolve_left hne
  have hlen : (front ++ [b]).length = front.length + 1 := length_append
  have hfull : (rest ++ front ++ [b]).length = size := by
    rw [append_assoc, length_append]
    exact h
  have hpart : rest.length + front.length < size := by omega
  rw [feed_append, feed_part hpart, ← append_assoc]
  exact if_pos hfull

theorem feed_blocks (hsize : 0 < size) (s : S) {n : Nat} {data : List B} (h : n * size ≤ data.length) :
    feed f size ⟨s, []⟩ data = feed f size ⟨(blocksOf size n data).foldl f s, []⟩ (data.drop (n * size)) := by
  induction n generalizing s data with
  | zero => rw [Nat.zero_mul]; rfl
  | succ n ih =>
    rw [Nat.succ_mul] at h ⊢
    have hone : (data.take size).length = size := length_take_of_le (by omega)
    have hne : data.take size ≠ [] := ne_nil_of_length_pos (by omega)
    have hdrop : n * size ≤ (data.drop size).length := by
      rw [length_drop]
      omega
    have hfirst : feed f size ⟨s, []⟩ data = feed f size ⟨f s (data.take size), []⟩ (data.drop size) := by
      conv_lhs => rw [← take_append_drop size data]
      rw [feed_append, feed_block hne (by rw [length_nil, Nat.zero_add, hone]), nil_append]
    rw [hfirst, ih (f s (data.take size)) hdrop, drop_drop, Nat.add_comm size]
    rfl

/-- Data that end with a block are compressed. -/
theorem feed_whole (hsize : 0 < size) (s : S) {n : Nat} {data : List B} (h : data.length = n * size) :
    feed f size ⟨s, []⟩ data = ⟨(blocksOf size n data).foldl f s, []⟩ := by
  rw [feed_blocks hsize s (Nat.le_of_eq h.symm), drop_eq_nil_of_le (Nat.le_of_eq h)]
  rfl

end Blocks
