import Reddcoin.Lib.Stream

/-!
# Readers as requests

A reader that runs against any source of symbols is the requests that it makes, each for a number of symbols below a
bound.  Against a list it is a `Reader`; a source that refuses long requests makes no difference when it has not as many
symbols.
-/

namespace Stream

variable {σ α β : Type} {bound most : Nat}

inductive Requests (σ : Type) (bound : Nat) (α : Type) : Type where
  | done (a : α)
  | fail
  | ask (n : Nat) (h : n < bound) (k : List σ → Requests σ bound α)

namespace Requests

protected def bind : Requests σ bound α → (α → Requests σ bound β) → Requests σ bound β
  | done a, f => f a
  | fail, _ => fail
  | ask n h k, f => ask n h fun s => (k s).bind f

instance : Monad (Requests σ bound) where
  pure := done
  bind := Requests.bind

/-- The next `n` symbols. -/
def symbols (n : Nat) (h : n < bound) : Requests σ bound (List σ) :=
  ask n h done

/-- `n` items. -/
def many (x : Requests σ bound α) : Nat → Requests σ bound (List α)
  | 0 => pure []
  | n + 1 => do
    let a ← x
    let as ← many x n
    pure (a :: as)

theorem chunk_le (chunk size mid : Nat) : min (mid + chunk) size - mid ≤ chunk := by
  omega

/-- The items from `mid` on of `size` in all, at most `chunk` of them at a time. -/
def chunks (chunk : Nat) (read : (n : Nat) → n ≤ chunk → Requests σ bound (List α)) (size : Nat) :
    Nat → Nat → Requests σ bound (List α)
  | turns + 1, mid =>
    if mid < size then do
      let as ← read (min (mid + chunk) size - mid) (chunk_le chunk size mid)
      let bs ← chunks chunk read size turns (min (mid + chunk) size)
      pure (as ++ bs)
    else pure []
  | 0, _ => pure []

/-! ## Against a list -/

def toReader : Requests σ bound α → Reader σ α
  | done a => pure a
  | fail => failure
  | ask n _ k => Stream.symbols n >>= fun s => (k s).toReader

@[simp]
theorem toReader_pure (a : α) : (pure a : Requests σ bound α).toReader = pure a :=
  rfl

@[simp]
theorem toReader_fail : (fail : Requests σ bound α).toReader = failure :=
  rfl

@[simp]
theorem toReader_symbols (n : Nat) (h : n < bound) :
    (symbols n h : Requests σ bound (List σ)).toReader = Stream.symbols n :=
  bind_pure (Stream.symbols n)

@[simp]
theorem toReader_bind (x : Requests σ bound α) (f : α → Requests σ bound β) :
    (x >>= f).toReader = x.toReader >>= fun a => (f a).toReader := by
  induction x with
  | done a => exact (pure_bind a fun a => (f a).toReader).symm
  | fail => rfl
  | ask n h k ih =>
    show (Stream.symbols n >>= fun s => (k s >>= f).toReader) = _
    simp only [ih, toReader, bind_assoc]

theorem toReader_many {x : Requests σ bound α} (n : Nat) : (many x n).toReader = Stream.many x.toReader n := by
  induction n with
  | zero => rfl
  | succ n ih => simp [many, Stream.many, ih]

theorem toReader_chunks {chunk : Nat} {read : (n : Nat) → n ≤ chunk → Requests σ bound (List α)}
    {reader : Nat → Reader σ (List α)} (h : ∀ n hn, (read n hn).toReader = reader n) (size turns mid : Nat) :
    (chunks chunk read size turns mid).toReader = Stream.chunks reader chunk size turns mid := by
  induction turns generalizing mid with
  | zero => rfl
  | succ turns ih =>
    rw [chunks, Stream.chunks]
    split_ifs
    · simp [h, ih]
    · rfl

/-! ## Against a source that refuses long requests -/

/-- The requests are answered from a list, those for more than `most` symbols are refused. -/
def runWithin (most : Nat) : Requests σ bound α → List σ → Option (α × List σ)
  | done a, s => some (a, s)
  | fail, _ => none
  | ask n _ k, s => if n ≤ most ∧ n ≤ s.length then (k (s.take n)).runWithin most (s.drop n) else none

/-- No request is for more than `most` symbols. -/
def Modest (most : Nat) : Requests σ bound α → Prop
  | done _ => True
  | fail => True
  | ask n _ k => n ≤ most ∧ ∀ s, (k s).Modest most

theorem modest_bind {x : Requests σ bound α} {f : α → Requests σ bound β} (hx : x.Modest most)
    (hf : ∀ a, (f a).Modest most) : (x >>= f).Modest most := by
  induction x with
  | done a => exact hf a
  | fail => trivial
  | ask n h k ih => exact ⟨hx.1, fun s => ih s (hx.2 s)⟩

theorem modest_symbols {n : Nat} (h : n < bound) (hn : n ≤ most) :
    (symbols n h : Requests σ bound (List σ)).Modest most :=
  ⟨hn, fun _ => trivial⟩

theorem run_ask (n : Nat) (h : n < bound) (k : List σ → Requests σ bound α) (s : List σ) :
    (ask n h k).toReader.run s = if n ≤ s.length then (k (s.take n)).toReader.run (s.drop n) else none := by
  show ((if n ≤ s.length then some (s.take n, s.drop n) else none : Option (List σ × List σ)).bind _) = _
  split_ifs <;> rfl

theorem runWithin_eq_of_modest {x : Requests σ bound α} (hx : x.Modest most) (s : List σ) :
    x.runWithin most s = x.toReader.run s := by
  induction x generalizing s with
  | done a => rfl
  | fail => rfl
  | ask n h k ih =>
    rw [run_ask, runWithin, ih _ (hx.2 _)]
    simp only [hx.1, true_and]

/-- A request for more than there is fails in any case. -/
theorem runWithin_eq_of_short (x : Requests σ bound α) {s : List σ} (hs : s.length ≤ most) :
    x.runWithin most s = x.toReader.run s := by
  induction x generalizing s with
  | done a => rfl
  | fail => rfl
  | ask n h k ih =>
    have hrest : (s.drop n).length ≤ most := by
      rw [List.length_drop]
      omega
    rw [run_ask, runWithin, ih _ hrest]
    refine if_congr ?_ rfl rfl
    omega

theorem runWithin_bind (x : Requests σ bound α) (f : α → Requests σ bound β) (s : List σ) :
    (x >>= f).runWithin most s = (x.runWithin most s).bind fun p => (f p.1).runWithin most p.2 := by
  induction x generalizing s with
  | done a => rfl
  | fail => rfl
  | ask n h k ih =>
    show (if n ≤ most ∧ n ≤ s.length then (k (s.take n) >>= f).runWithin most (s.drop n) else none) = _
    rw [runWithin]
    split_ifs
    · exact ih _ _
    · rfl

end Requests

end Stream
