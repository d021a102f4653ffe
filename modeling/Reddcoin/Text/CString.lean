import Mathlib.Data.List.DropRight

/-!
# C strings

The bytes before the NUL of a C string, and the character classes of the C locale.
-/

namespace Reddcoin

open List

/-- The code of an ASCII character. -/
def ascii (c : Char) : UInt8 :=
  UInt8.ofNat c.toNat

/-- What a function that takes `str.c_str()` sees of a string. -/
def cStr (str : List UInt8) : List UInt8 :=
  str.takeWhile (· != 0)

def isspace (c : UInt8) : Bool :=
  c == 32 || (9 ≤ c && c ≤ 13)

def isdigit (c : UInt8) : Bool :=
  48 ≤ c && c ≤ 57

/-- Without white space at either end. -/
def trim (str : List UInt8) : List UInt8 :=
  (str.dropWhile isspace).rdropWhile isspace

variable {str : List UInt8} {c : UInt8}

theorem cStr_of_notMem (h : 0 ∉ str) : cStr str = str := by
  refine takeWhile_eq_self_iff.mpr fun c hc => ?_
  have hne : c ≠ 0 := fun hzero => h (hzero ▸ hc)
  simpa using hne

/-- `str` begins with white space, unless it is empty. -/
def EndsWord (str : List UInt8) : Prop :=
  ∀ c ∈ str.head?, isspace c = true

theorem endsWord_nil : EndsWord [] := by
  intro c hc
  cases hc

theorem dropWhile_plain {word : List UInt8} (hword : ∀ c ∈ word, isspace c = false) :
    word.dropWhile isspace = word := by
  cases word with
  | nil => rfl
  | cons c word =>
    refine dropWhile_cons_of_neg ?_
    rw [hword c mem_cons_self]
    exact Bool.false_ne_true

/-- White space is skipped up to a word; without a word all of it is. -/
theorem dropWhile_word {word after : List UInt8} (hafter : ∀ c ∈ after, isspace c)
    (hword : ∀ c ∈ word, isspace c = false) :
    ∃ rest, (word ++ after).dropWhile isspace = word ++ rest ∧ ∀ c ∈ rest, isspace c = true := by
  cases word with
  | nil => exact ⟨[], dropWhile_eq_nil_iff.mpr hafter, fun c hc => (not_mem_nil hc).elim⟩
  | cons c word =>
    refine ⟨after, dropWhile_cons_of_neg ?_, hafter⟩
    rw [hword c mem_cons_self]
    exact Bool.false_ne_true

/-- A word between white space. -/
theorem trim_eq {before word after : List UInt8} (hbefore : ∀ c ∈ before, isspace c)
    (hafter : ∀ c ∈ after, isspace c) (hword : ∀ c ∈ word, isspace c = false) :
    trim (before ++ word ++ after) = word := by
  have hleft : (before ++ word ++ after).dropWhile isspace = (word ++ after).dropWhile isspace := by
    rw [append_assoc, dropWhile_append_of_pos hbefore]
  unfold trim
  rw [hleft]
  cases word with
  | nil =>
    rw [nil_append, dropWhile_eq_nil_iff.mpr hafter]
    rfl
  | cons c word =>
    have hc := hword c mem_cons_self
    rw [cons_append, dropWhile_cons_of_neg (by rw [hc]; exact Bool.false_ne_true), ← cons_append]
    have hright : (c :: word ++ after).rdropWhile isspace = (c :: word).rdropWhile isspace := by
      unfold List.rdropWhile
      rw [reverse_append, dropWhile_append_of_pos fun c' hc' => hafter c' (mem_reverse.mp hc')]
    rw [hright]
    refine rdropWhile_eq_self_iff.mpr fun hne => ?_
    rw [hword _ (getLast_mem hne)]
    exact Bool.false_ne_true

end Reddcoin
