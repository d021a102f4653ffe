import Mathlib.Data.List.Basic
import Mathlib.Data.Nat.Basic

/-!
# Reading from a stream

A reader takes what it needs from the front of a list of symbols.  `Reads x written a` says that `x`
recovers `a` from what was written, whatever follows; `Consumes x P` says what `x` has taken when it
succeeds.  The rules for sequences and repetitions are those of a format that is read field by field.
-/

namespace Stream

open List

variable {σ α β : Type}

abbrev Reader (σ α : Type) := StateT (List σ) Option α

def Reads (x : Reader σ α) (written : List σ) (a : α) : Prop :=
  ∀ rest, x.run (written ++ rest) = some (a, rest)

def Consumes (x : Reader σ α) (P : α → List σ → Prop) : Prop :=
  ∀ s a rest, x.run s = some (a, rest) → ∃ taken, s = taken ++ rest ∧ P a taken

/-! ## Sequences -/

theorem run_bind_eq_some {x : Reader σ α} {f : α → Reader σ β} {s rest : List σ} {b : β} :
    (x >>= f).run s = some (b, rest) ↔ ∃ a mid, x.run s = some (a, mid) ∧ (f a).run mid = some (b, rest) := by
  rw [StateT.run_bind]
  show (x.run s).bind _ = _ ↔ _
  rw [Option.bind_eq_some_iff]
  constructor
  · rintro ⟨⟨a, mid⟩, hx, hf⟩
    exact ⟨a, mid, hx, hf⟩
  · rintro ⟨a, mid, hx, hf⟩
    exact ⟨(a, mid), hx, hf⟩

theorem reads_pure (a : α) : Reads (pure a : Reader σ α) [] a :=
  fun _ => rfl

theorem reads_bind {x : Reader σ α} {f : α → Reader σ β} {u v : List σ} {a : α} {b : β}
    (hx : Reads x u a) (hf : Reads (f a) v b) : Reads (x >>= f) (u ++ v) b := by
  intro rest
  rw [run_bind_eq_some]
  refine ⟨a, v ++ rest, ?_, hf rest⟩
  rw [append_assoc]
  exact hx (v ++ rest)

/-- The last step, which reads nothing more. -/
theorem reads_last {x : Reader σ α} {f : α → Reader σ β} {u : List σ} {a : α} {b : β}
    (hx : Reads x u a) (hf : Reads (f a) [] b) : Reads (x >>= f) u b := by
  have h := reads_bind hx hf
  rw [append_nil] at h
  exact h

/-- What can be read back is determined by any longer sequence that starts with it. -/
theorem Reads.unique {x : Reader σ α} {u v r r' : List σ} {a b : α} (hu : Reads x u a) (hv : Reads x v b)
    (h : u ++ r = v ++ r') : a = b ∧ r = r' := by
  have hrun := hu r
  rw [h, hv r'] at hrun
  cases hrun
  exact ⟨rfl, rfl⟩

theorem consumes_pure (a : α) : Consumes (pure a : Reader σ α) fun b taken => b = a ∧ taken = [] := by
  intro s b rest h
  cases h
  exact ⟨[], rfl, rfl, rfl⟩

theorem consumes_bind {x : Reader σ α} {f : α → Reader σ β} {P : α → List σ → Prop}
    {Q : α → β → List σ → Prop} (hx : Consumes x P) (hf : ∀ a, Consumes (f a) (Q a)) :
    Consumes (x >>= f) fun b taken => ∃ a u v, taken = u ++ v ∧ P a u ∧ Q a b v := by
  intro s b rest h
  obtain ⟨a, mid, ha, hb⟩ := run_bind_eq_some.mp h
  obtain ⟨u, rfl, hu⟩ := hx s a mid ha
  obtain ⟨v, rfl, hv⟩ := hf a mid b rest hb
  exact ⟨u ++ v, (append_assoc u v rest).symm, a, u, v, rfl, hu, hv⟩

theorem Consumes.mono {x : Reader σ α} {P Q : α → List σ → Prop} (h : Consumes x P)
    (hPQ : ∀ a taken, P a taken → Q a taken) : Consumes x Q := by
  intro s a rest hrun
  obtain ⟨taken, hs, hP⟩ := h s a rest hrun
  exact ⟨taken, hs, hPQ a taken hP⟩

theorem consumes_failure (P : α → List σ → Prop) : Consumes (failure : Reader σ α) P := by
  intro s a rest h
  simp [failure, Alternative.failure, StateT.failure, StateT.run] at h

/-! ## Symbols and repetitions -/

/-- The next `n` symbols. -/
def symbols (n : Nat) : Reader σ (List σ) := fun s =>
  if n ≤ s.length then some (s.take n, s.drop n) else none

theorem reads_symbols (written : List σ) : Reads (symbols written.length) written written := by
  intro rest
  show (if _ then _ else _) = _
  rw [if_pos (by simp), take_left, drop_left]

theorem consumes_symbols (n : Nat) :
    Consumes (symbols n : Reader σ (List σ)) fun a taken => a = taken ∧ taken.length = n := by
  intro s a rest h
  have h : (if n ≤ s.length then some (s.take n, s.drop n) else none) = some (a, rest) := h
  split_ifs at h with hn
  cases h
  exact ⟨s.take n, (take_append_drop n s).symm, rfl, by simp [hn]⟩

/-- `n` items. -/
def many (x : Reader σ α) : Nat → Reader σ (List α)
  | 0 => pure []
  | n + 1 => do
    let a ← x
    let as ← many x n
    pure (a :: as)

theorem reads_many {x : Reader σ α} {write : α → List σ} {as : List α}
    (h : ∀ a ∈ as, Reads x (write a) a) : Reads (many x as.length) (as.flatMap write) as := by
  induction as with
  | nil => exact reads_pure []
  | cons a as ih =>
    have ha := h a mem_cons_self
    have has := ih fun b hb => h b (mem_cons_of_mem a hb)
    rw [flatMap_cons]
    exact reads_bind ha (reads_last has (reads_pure (a :: as)))

theorem consumes_many {x : Reader σ α} {write : α → List σ} {P : α → Prop}
    (h : Consumes x fun a taken => P a ∧ taken = write a) (n : Nat) :
    Consumes (many x n) fun as taken => as.length = n ∧ (∀ a ∈ as, P a) ∧ taken = as.flatMap write := by
  induction n with
  | zero =>
    refine (consumes_pure []).mono ?_
    rintro as taken ⟨rfl, rfl⟩
    exact ⟨rfl, fun a ha => by simp at ha, rfl⟩
  | succ n ih =>
    refine (consumes_bind h fun a => consumes_bind ih fun as => consumes_pure (a :: as)).mono ?_
    rintro as taken ⟨a, u, v, rfl, ⟨ha, rfl⟩, as', u', v', rfl, ⟨hlen, has, rfl⟩, rfl, rfl⟩
    refine ⟨by simp [hlen], ?_, by simp⟩
    intro b hb
    rcases mem_cons.mp hb with rfl | hb
    · exact ha
    · exact has b hb

/-- One item from each of the readers. -/
def each : List (Reader σ α) → Reader σ (List α)
  | [] => pure []
  | x :: xs => do
    let a ← x
    let as ← each xs
    pure (a :: as)

theorem reads_each {ι : Type} {x : ι → Reader σ α} {write : ι → List σ} {value : ι → α} {is : List ι}
    (h : ∀ i ∈ is, Reads (x i) (write i) (value i)) :
    Reads (each (is.map x)) (is.flatMap write) (is.map value) := by
  induction is with
  | nil => exact reads_pure []
  | cons i is ih =>
    have hi := h i mem_cons_self
    have his := ih fun j hj => h j (mem_cons_of_mem i hj)
    rw [flatMap_cons]
    exact reads_bind hi (reads_last his (reads_pure _))

/-! ## What follows -/

/-- A reader that has found what it needs does not look at what follows. -/
def Extends (x : Reader σ α) : Prop :=
  ∀ s t a rest, x.run s = some (a, rest) → x.run (s ++ t) = some (a, rest ++ t)

theorem Extends.reads {x : Reader σ α} (hx : Extends x) {written : List σ} {a : α}
    (h : x.run written = some (a, [])) : Reads x written a := by
  intro rest
  rw [hx written rest a [] h, nil_append]

theorem extends_pure (a : α) : Extends (pure a : Reader σ α) := by
  intro s t b rest h
  cases h
  rfl

theorem extends_failure : Extends (failure : Reader σ α) := by
  intro s t a rest h
  simp [failure, Alternative.failure, StateT.failure, StateT.run] at h

theorem extends_bind {x : Reader σ α} {f : α → Reader σ β} (hx : Extends x) (hf : ∀ a, Extends (f a)) :
    Extends (x >>= f) := by
  intro s t b rest h
  obtain ⟨a, mid, ha, hb⟩ := run_bind_eq_some.mp h
  exact run_bind_eq_some.mpr ⟨a, mid ++ t, hx s t a mid ha, hf a mid t b rest hb⟩

theorem extends_symbols (n : Nat) : Extends (symbols n : Reader σ (List σ)) := by
  intro s t a rest h
  have h : (if n ≤ s.length then some (s.take n, s.drop n) else none) = some (a, rest) := h
  show (if n ≤ (s ++ t).length then some ((s ++ t).take n, (s ++ t).drop n) else none) = some (a, rest ++ t)
  split_ifs at h with hn
  cases h
  rw [if_pos (by rw [length_append]; omega), take_append_of_le_length hn, drop_append_of_le_length hn]

/-! ## Reading in chunks -/

/-- A way to read any number of items, where reading some and then more is reading all of them. -/
structure Splits (read : Nat → Reader σ (List α)) : Prop where
  zero : read 0 = pure []
  add : ∀ m n, read (m + n) = do
    let as ← read m
    let bs ← read n
    pure (as ++ bs)

theorem splits_symbols : Splits (symbols : Nat → Reader σ (List σ)) where
  zero := by
    funext s
    show (if 0 ≤ s.length then some (s.take 0, s.drop 0) else none) = some ([], s)
    rw [if_pos (Nat.zero_le _)]
    rfl
  add m n := by
    funext s
    show (if m + n ≤ s.length then some (s.take (m + n), s.drop (m + n)) else none) =
      (if m ≤ s.length then some (s.take m, s.drop m) else none).bind fun p =>
        (if n ≤ p.2.length then some (p.2.take n, p.2.drop n) else none).bind fun q =>
          some (p.1 ++ q.1, q.2)
    by_cases hm : m ≤ s.length
    · rw [if_pos hm, Option.bind_some, length_drop]
      by_cases hn : m + n ≤ s.length
      · rw [if_pos hn, if_pos (by omega), Option.bind_some, drop_drop, take_add]
      · rw [if_neg hn, if_neg (by omega), Option.bind_none]
    · rw [if_neg hm, if_neg (by omega), Option.bind_none]

theorem splits_many (x : Reader σ α) : Splits (many x) where
  zero := rfl
  add m n := by
    induction m with
    | zero =>
      rw [Nat.zero_add]
      simp [many]
    | succ m ih =>
      rw [Nat.succ_add]
      simp only [many, ih, bind_assoc, pure_bind, cons_append]

/-- The items from `mid` on of `size` in all, at most `chunk` of them at a time. -/
def chunks (read : Nat → Reader σ (List α)) (chunk size : Nat) : Nat → Nat → Reader σ (List α)
  | turns + 1, mid =>
    if mid < size then do
      let next := min (mid + chunk) size
      let as ← read (next - mid)
      let bs ← chunks read chunk size turns next
      pure (as ++ bs)
    else pure []
  | 0, _ => pure []

/-- The chunks make no difference to what is read. -/
theorem chunks_eq {read : Nat → Reader σ (List α)} (hread : Splits read) {chunk : Nat} (hchunk : 0 < chunk)
    {size turns mid : Nat} (hturns : size - mid ≤ turns) :
    chunks read chunk size turns mid = read (size - mid) := by
  induction turns generalizing mid with
  | zero =>
    rw [chunks, show size - mid = 0 by omega, hread.zero]
  | succ turns ih =>
    rw [chunks]
    split_ifs with hmid
    · have hnext : size - min (mid + chunk) size ≤ turns := by omega
      have hsum : size - mid = (min (mid + chunk) size - mid) + (size - min (mid + chunk) size) := by
        omega
      simp only [ih hnext]
      rw [hsum, hread.add]
    · rw [show size - mid = 0 by omega, hread.zero]

end Stream
