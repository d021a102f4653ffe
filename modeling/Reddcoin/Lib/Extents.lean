import Mathlib.Data.List.Basic
import Mathlib.Order.Basic

/-!
# Packed extents

Half-open ranges of bytes that are handed out one behind the other.  `Packed n rs` says that they lie apart and
fill the first `n` bytes.  The only range that keeps them packed starts at `n`.
-/

namespace Reddcoin
namespace Lib

variable {rs : List Extent}

structure Extent where
  start : Nat
  stop : Nat
deriving DecidableEq, Repr

namespace Extent

/-- The two ranges share no byte. -/
def Apart (a b : Extent) : Prop :=
  a.stop ≤ b.start ∨ b.stop ≤ a.start

instance (a b : Extent) : Decidable (a.Apart b) :=
  inferInstanceAs (Decidable (_ ∨ _))

/-- No two ranges share a byte, and all lie in the first `n` bytes. -/
structure Within (n : Nat) (rs : List Extent) : Prop where
  apart : rs.Pairwise Apart
  le : ∀ r ∈ rs, r.stop ≤ n

/-- The ranges also fill the first `n` bytes. -/
structure Packed (n : Nat) (rs : List Extent) : Prop extends Within n rs where
  covers : ∀ x, x < n → ∃ r ∈ rs, r.start ≤ x ∧ x < r.stop

theorem packed_nil : Packed 0 [] where
  apart := List.Pairwise.nil
  le := by simp
  covers := by
    intro x hx
    omega

theorem Packed.append {n : Nat} (h : Packed n rs) (k : Nat) :
    Packed (n + k) (rs ++ [{ start := n, stop := n + k }]) where
  apart := by
    rw [List.pairwise_append]
    refine ⟨h.apart, List.pairwise_singleton _ _, ?_⟩
    intro r hr t ht
    rw [List.mem_singleton.mp ht]
    exact .inl (h.le r hr)
  le := by
    intro r hr
    rcases List.mem_append.mp hr with hr | hr
    · have hle := h.le r hr
      omega
    · cases List.mem_singleton.mp hr
      exact Nat.le_refl _
  covers := by
    intro x hx
    by_cases hlow : x < n
    · obtain ⟨r, hr, hin⟩ := h.covers x hlow
      exact ⟨r, List.mem_append_left _ hr, hin⟩
    · refine ⟨_, List.mem_append_right _ (List.mem_singleton.mpr rfl), ?_, hx⟩
      show n ≤ x
      omega

/-- A range that may follow packed ones starts where they end. -/
theorem Packed.start_eq {n start k : Nat} (h : Packed n rs) (hk : 0 < k)
    (hnext : Within (n + k) (rs ++ [{ start := start, stop := start + k }])) : start = n := by
  have hle : start + k ≤ n + k :=
    hnext.le _ (List.mem_append_right _ (List.mem_singleton.mpr rfl))
  by_contra hne
  have hlt : start < n := by
    omega
  obtain ⟨r, hr, hlow, hhigh⟩ := h.covers start hlt
  obtain ⟨-, -, hcross⟩ := List.pairwise_append.mp hnext.apart
  rcases hcross r hr _ (List.mem_singleton.mpr rfl) with hleft | hright
  · have hleft : r.stop ≤ start := hleft
    omega
  · have hright : start + k ≤ r.start := hright
    omega

theorem Within.mono {n m : Nat} (h : Within n rs) (hle : n ≤ m) : Within m rs :=
  ⟨h.apart, fun r hr => Nat.le_trans (h.le r hr) hle⟩

end Extent

end Lib
end Reddcoin
