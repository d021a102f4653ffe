import Mathlib.Algebra.BigOperators.Group.Finset.Piecewise
import Mathlib.Data.Fintype.Basic


/-!
# Sums over a pool of threads

A pool is a function from a finite type of threads to their states.  A counter that the threads keep together is a sum
over the pool of what each thread contributes, and a step of one thread changes one term of it.
-/

namespace Pool

variable {ι α M : Type} [Fintype ι] [AddCommMonoid M]

/-- What the threads contribute together. -/
def total (m : α → M) (f : ι → α) : M :=
  ∑ i, m (f i)

/-- A step of thread `i` replaces its contribution. -/
theorem total_update [DecidableEq ι] (m : α → M) (f : ι → α) (i : ι) (a : α) :
    total m (Function.update f i a) + m (f i) = total m f + m a := by
  have hrest : ∑ j ∈ Finset.univ.erase i, m (Function.update f i a j) = ∑ j ∈ Finset.univ.erase i, m (f j) := by
    refine Finset.sum_congr rfl fun j hj => ?_
    rw [Function.update_of_ne (Finset.ne_of_mem_erase hj)]
  rw [total, total, ← Finset.add_sum_erase _ _ (Finset.mem_univ i), ← Finset.add_sum_erase _ _ (Finset.mem_univ i),
    hrest, Function.update_self, add_right_comm, add_comm (m a), add_right_comm, add_comm (m (f i))]

/-- Steps that change no contribution. -/
theorem total_congr {m m' : α → M} {f g : ι → α} (h : ∀ i, m (f i) = m' (g i)) : total m f = total m' g :=
  Finset.sum_congr rfl fun i _ => h i

/-- A pool in which nobody contributes. -/
theorem total_eq_zero {m : α → M} {f : ι → α} (h : ∀ i, m (f i) = 0) : total m f = 0 :=
  Finset.sum_eq_zero fun i _ => h i

end Pool
