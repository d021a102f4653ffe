import Mathlib.Data.Set.Insert

/-!
# Leases

Records are kept under numbers.  A number is free, or leased to a holder who knows the value of its record; a value that
is retired is not given out again.
-/

namespace Leases

open Function (update)

open Function

variable {I V H : Type*}

@[ext]
structure Pool (I V H : Type*) where
  free : Set I
  record : I → Option V
  held : H → Option (I × V)
  retired : Set V

/-- No two parties have a claim on one record. -/
structure Exclusive (p : Pool I V H) : Prop where
  free_stored : ∀ i ∈ p.free, ∃ v, p.record i = some v
  held_stored : ∀ h i v, p.held h = some (i, v) → p.record i = some v
  held_apart : ∀ h i v, p.held h = some (i, v) → i ∉ p.free
  held_once : ∀ h h' i v v', p.held h = some (i, v) → p.held h' = some (i, v') → h = h'
  record_injective : ∀ i j v, p.record i = some v → p.record j = some v → i = j
  record_live : ∀ i v, p.record i = some v → v ∉ p.retired

/-- Nobody has leased the number. -/
def Pool.Vacant (p : Pool I V H) (i : I) : Prop :=
  ∀ h v, p.held h ≠ some (i, v)

namespace Pool

variable [DecidableEq I] [DecidableEq H]

/-- A new record, free. -/
def store (p : Pool I V H) (i : I) (v : V) : Pool I V H :=
  { p with free := insert i p.free, record := update p.record i (some v) }

def lease (p : Pool I V H) (h : H) (i : I) (v : V) : Pool I V H :=
  { p with free := p.free \ {i}, held := update p.held h (some (i, v)) }

def giveBack (p : Pool I V H) (h : H) (i : I) : Pool I V H :=
  { p with free := insert i p.free, held := update p.held h none }

/-- The record of a free number is used up. -/
def consume (p : Pool I V H) (i : I) (v : V) : Pool I V H :=
  { p with free := p.free \ {i}, record := update p.record i none, retired := insert v p.retired }

/-- A holder uses up what it has leased. -/
def keep (p : Pool I V H) (h : H) (i : I) (v : V) : Pool I V H :=
  { p with record := update p.record i none, held := update p.held h none,
           retired := insert v p.retired }

/-- A value without a record is used up. -/
def retire (p : Pool I V H) (v : V) : Pool I V H :=
  { p with retired := insert v p.retired }

/-- The free records are dropped. -/
noncomputable def clear (p : Pool I V H) : Pool I V H :=
  open Classical in { p with free := ∅, record := fun i => if i ∈ p.free then none else p.record i }

end Pool

namespace Exclusive

variable {p : Pool I V H} {h : H} {i : I} {v : V}

/-- A number that nobody has leased takes a new record, also in place of another one. -/
theorem store [DecidableEq I] (hp : Exclusive p) (hvacant : p.Vacant i) (hrecord : ∀ j, p.record j ≠ some v)
    (hlive : v ∉ p.retired) : Exclusive (p.store i v) where
  free_stored j hj := by
    by_cases hji : j = i
    · exact ⟨v, by rw [hji]; exact update_self _ _ _⟩
    · obtain ⟨w, hw⟩ := hp.free_stored j (hj.resolve_left hji)
      exact ⟨w, (update_of_ne hji _ _).trans hw⟩
  held_stored h j w hheld := by
    have hji : j ≠ i := by
      rintro rfl
      exact hvacant h w hheld
    exact (update_of_ne hji _ _).trans (hp.held_stored h j w hheld)
  held_apart h j w hheld hj := by
    rcases hj with rfl | hj
    · exact hvacant h w hheld
    · exact hp.held_apart h j w hheld hj
  held_once := hp.held_once
  record_injective j k w hj hk := by
    simp only [Pool.store, update_apply] at hj hk
    split_ifs at hj hk with hji hki hki
    · exact hji.trans hki.symm
    · exact absurd (hk.trans hj.symm) (hrecord k)
    · exact absurd (hj.trans hk.symm) (hrecord j)
    · exact hp.record_injective j k w hj hk
  record_live j w hj := by
    simp only [Pool.store, update_apply] at hj
    split_ifs at hj with hji
    · exact Option.some.inj hj ▸ hlive
    · exact hp.record_live j w hj

theorem lease [DecidableEq H] (hp : Exclusive p) (hi : i ∈ p.free) (hv : p.record i = some v) :
    Exclusive (p.lease h i v) where
  free_stored j hj := hp.free_stored j hj.1
  held_stored k j w hheld := by
    simp only [Pool.lease, update_apply] at hheld
    split_ifs at hheld
    · cases hheld
      exact hv
    · exact hp.held_stored k j w hheld
  held_apart k j w hheld hj := by
    simp only [Pool.lease, update_apply] at hheld
    split_ifs at hheld
    · cases hheld
      exact hj.2 rfl
    · exact hp.held_apart k j w hheld hj.1
  held_once k k' j w w' hheld hheld' := by
    simp only [Pool.lease, update_apply] at hheld hheld'
    split_ifs at hheld hheld' with hk hk' hk'
    · exact hk.trans hk'.symm
    · cases hheld
      exact absurd hi (hp.held_apart k' i w' hheld')
    · cases hheld'
      exact absurd hi (hp.held_apart k i w hheld)
    · exact hp.held_once k k' j w w' hheld hheld'
  record_injective := hp.record_injective
  record_live := hp.record_live

/-- What is left when a lease ends. -/
theorem held_of_update [DecidableEq H] {k : H} {j : I} {w : V} (hheld : update p.held h none k = some (j, w)) :
    k ≠ h ∧ p.held k = some (j, w) := by
  rw [update_apply] at hheld
  split_ifs at hheld with hkh
  exact ⟨hkh, hheld⟩

theorem giveBack [DecidableEq H] (hp : Exclusive p) (hh : p.held h = some (i, v)) : Exclusive (p.giveBack h i) where
  free_stored j hj := by
    rcases hj with rfl | hj
    · exact ⟨v, hp.held_stored h j v hh⟩
    · exact hp.free_stored j hj
  held_stored k j w hheld := hp.held_stored k j w (held_of_update hheld).2
  held_apart k j w hheld hj := by
    obtain ⟨hkh, hold⟩ := held_of_update hheld
    rcases hj with rfl | hj
    · exact hkh (hp.held_once k h j w v hold hh)
    · exact hp.held_apart k j w hold hj
  held_once k k' j w w' hheld hheld' := hp.held_once k k' j w w' (held_of_update hheld).2 (held_of_update hheld').2
  record_injective := hp.record_injective
  record_live := hp.record_live

/-- Records besides one that is erased. -/
theorem record_of_update [DecidableEq I] {j : I} {w : V} (hj : update p.record i none j = some w) :
    j ≠ i ∧ p.record j = some w := by
  rw [update_apply] at hj
  split_ifs at hj with hji
  exact ⟨hji, hj⟩

theorem consume [DecidableEq I] (hp : Exclusive p) (hi : i ∈ p.free) (hv : p.record i = some v) :
    Exclusive (p.consume i v) where
  free_stored j hj := by
    obtain ⟨w, hw⟩ := hp.free_stored j hj.1
    exact ⟨w, (update_of_ne hj.2 _ _).trans hw⟩
  held_stored k j w hheld := by
    have hji : j ≠ i := by
      rintro rfl
      exact hp.held_apart k j w hheld hi
    exact (update_of_ne hji _ _).trans (hp.held_stored k j w hheld)
  held_apart k j w hheld hj := hp.held_apart k j w hheld hj.1
  held_once := hp.held_once
  record_injective j k w hj hk := hp.record_injective j k w (record_of_update hj).2 (record_of_update hk).2
  record_live j w hj hretired := by
    obtain ⟨hji, hold⟩ := record_of_update hj
    rcases hretired with rfl | hretired
    · exact hji (hp.record_injective j i w hold hv)
    · exact hp.record_live j w hold hretired

theorem keep [DecidableEq I] [DecidableEq H] (hp : Exclusive p) (hh : p.held h = some (i, v)) :
    Exclusive (p.keep h i v) where
  free_stored j hj := by
    have hji : j ≠ i := by
      rintro rfl
      exact hp.held_apart h j v hh hj
    obtain ⟨w, hw⟩ := hp.free_stored j hj
    exact ⟨w, (update_of_ne hji _ _).trans hw⟩
  held_stored k j w hheld := by
    obtain ⟨hkh, hold⟩ := held_of_update hheld
    have hji : j ≠ i := by
      rintro rfl
      exact hkh (hp.held_once k h j w v hold hh)
    exact (update_of_ne hji _ _).trans (hp.held_stored k j w hold)
  held_apart k j w hheld hj := hp.held_apart k j w (held_of_update hheld).2 hj
  held_once k k' j w w' hheld hheld' := hp.held_once k k' j w w' (held_of_update hheld).2 (held_of_update hheld').2
  record_injective j k w hj hk := hp.record_injective j k w (record_of_update hj).2 (record_of_update hk).2
  record_live j w hj hretired := by
    obtain ⟨hji, hold⟩ := record_of_update hj
    rcases hretired with rfl | hretired
    · exact hji (hp.record_injective j i w hold (hp.held_stored h i w hh))
    · exact hp.record_live j w hold hretired

theorem retire (hp : Exclusive p) (hrecord : ∀ j, p.record j ≠ some v) : Exclusive (p.retire v) where
  free_stored := hp.free_stored
  held_stored := hp.held_stored
  held_apart := hp.held_apart
  held_once := hp.held_once
  record_injective := hp.record_injective
  record_live j w hj hretired := by
    rcases hretired with rfl | hretired
    · exact hrecord j hj
    · exact hp.record_live j w hj hretired

theorem clear (hp : Exclusive p) : Exclusive p.clear where
  free_stored j hj := absurd hj (Set.notMem_empty j)
  held_stored k j w hheld := (if_neg (hp.held_apart k j w hheld)).trans (hp.held_stored k j w hheld)
  held_apart k j w _ := Set.notMem_empty j
  held_once := hp.held_once
  record_injective j k w hj hk := by
    simp only [Pool.clear] at hj hk
    split_ifs at hj hk
    exact hp.record_injective j k w hj hk
  record_live j w hj := by
    simp only [Pool.clear] at hj
    split_ifs at hj
    exact hp.record_live j w hj

end Exclusive

end Leases
