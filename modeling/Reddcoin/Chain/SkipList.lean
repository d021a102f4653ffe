import Reddcoin.Chain.BlockIndex

/-!
# Growing the skip list

A new entry goes into the next slot.  It stands on an entry that is already there, or on none, and takes its jump from
the entry below it.  Every map that grows in this way is a forest in which each jump of `GetAncestor` leads where the
same number of steps along `pprev` leads, and no null pointer is followed.
-/

namespace Reddcoin

open Forest (Anc Graded path)

namespace BlockMap

variable (m : BlockMap) {p : Ptr}

def push (e : CBlockIndex) : BlockMap :=
  { size := m.size + 1, entry := fun q => if q = m.size then e else m.entry q }

/-- `k` steps along `pprev`. -/
def walkBack : Nat → Ptr → Option Ptr
  | 0, p => some p
  | k + 1, p => (m.par p).bind (walkBack k)

/-- The loop of `GetAncestor` as it reads memory: `none` when it reads through a null pointer, and when it is not done
after `turns` turns. -/
def readingWalk (height : Nat) : Nat → Option Ptr → Nat → Option (Option Ptr)
  | 0, _, _ => none
  | turns + 1, pindexWalk, heightWalk =>
    if height < heightWalk then
      match pindexWalk with
      | none => none
      | some p =>
        if followSkip heightWalk height then
          readingWalk height turns (m.entry p).pskip (getSkipHeight heightWalk)
        else readingWalk height turns (m.entry p).pprev (heightWalk - 1)
    else some pindexWalk

/-- `GetAncestor` of an `int`, as it reads memory. -/
def readingGetAncestor (p : Ptr) (height : Int) : Option (Option Ptr) :=
  if (m.ht p : Int) < height ∨ height < 0 then some none
  else m.readingWalk height.toNat (m.ht p + 1) (some p) (m.ht p)

variable {m}

/-! ## A new entry -/

section

variable (e : CBlockIndex)

theorem entry_push_old (hp : p < m.size) : (m.push e).entry p = m.entry p :=
  if_neg (Nat.ne_of_lt hp)

theorem entry_push_new : (m.push e).entry m.size = e :=
  if_pos rfl

theorem par_push_old (hp : p < m.size) : (m.push e).par p = m.par p :=
  congrArg CBlockIndex.pprev (entry_push_old e hp)

theorem ht_push_old (hp : p < m.size) : (m.push e).ht p = m.ht p :=
  congrArg CBlockIndex.nHeight (entry_push_old e hp)

theorem par_push_new : (m.push e).par m.size = e.pprev :=
  congrArg CBlockIndex.pprev (entry_push_new e)

theorem ht_push_new : (m.push e).ht m.size = e.nHeight :=
  congrArg CBlockIndex.nHeight (entry_push_new e)

variable {e} in
theorem push_cases (hp : p < (m.push e).size) : p < m.size ∨ p = m.size :=
  Nat.lt_succ_iff_lt_or_eq.mp hp

end

/-- An entry that `BuildSkip` has been called for, after its `pprev` and its height were set. -/
structure Placed (m : BlockMap) (e : CBlockIndex) : Prop where
  root : e.pprev = none → e.nHeight = 0
  child : ∀ q, e.pprev = some q → q < m.size ∧ e.nHeight = m.ht q + 1 ∧ e.pskip = m.buildSkip q e.nHeight

theorem Forested.anc_push (hm : m.Forested) (e : CBlockIndex) {a p : Ptr} (hp : p < m.size) :
    Anc (m.push e).par a p ↔ Anc m.par a p :=
  hm.graded.anc_congr (fun _ hr => par_push_old e hr) hp

section

variable (hm : m.Forested) {e : CBlockIndex} (he : m.Placed e)

include hm he

theorem Forested.graded_push : Graded (fun p => p < (m.push e).size) (m.push e).par (m.push e).ht := by
  constructor
  · intro p q hp hpar
    rcases push_cases hp with hlt | rfl
    · rw [par_push_old e hlt] at hpar
      exact Nat.lt_succ_of_lt (hm.graded.closed hlt hpar)
    · rw [par_push_new] at hpar
      exact Nat.lt_succ_of_lt (he.child q hpar).1
  · intro p q hp hpar
    rcases push_cases hp with hlt | rfl
    · rw [par_push_old e hlt] at hpar
      rw [ht_push_old e hlt, ht_push_old e (hm.graded.closed hlt hpar)]
      exact hm.graded.height hlt hpar
    · rw [par_push_new] at hpar
      obtain ⟨hq, hheight, -⟩ := he.child q hpar
      rw [ht_push_new, ht_push_old e hq, hheight]
  · intro p hp hpar
    rcases push_cases hp with hlt | rfl
    · rw [par_push_old e hlt] at hpar
      rw [ht_push_old e hlt]
      exact hm.graded.root hlt hpar
    · rw [par_push_new] at hpar
      rw [ht_push_new]
      exact he.root hpar

theorem Forested.skip_push : (m.push e).Skips fun p => p < (m.push e).size := by
  intro p hp hpar
  rcases push_cases hp with hlt | rfl
  · rw [par_push_old e hlt] at hpar
    obtain ⟨a, ha, hanc, hheight⟩ := hm.skip p hlt hpar
    refine ⟨a, ?_, (hm.anc_push e hlt).mpr hanc, ?_⟩
    · rw [entry_push_old e hlt]
      exact ha
    · rw [ht_push_old e (hm.graded.anc_mem hlt hanc), ht_push_old e hlt]
      exact hheight
  · obtain ⟨q, hq⟩ := Option.ne_none_iff_exists'.mp hpar
    have hprev := (par_push_new e).symm.trans hq
    obtain ⟨hqs, hnew, hskip⟩ := he.child q hprev
    have hlow := getSkipHeight_lt (show 0 < e.nHeight by omega)
    obtain ⟨a, hanc, hheight⟩ := hm.graded.exists_anc hqs (show getSkipHeight e.nHeight ≤ m.ht q by omega)
    refine ⟨a, ?_, .step hq ((hm.anc_push e hqs).mpr hanc), ?_⟩
    · rw [entry_push_new, hskip]
      exact (hm.getAncestor_eq_some hqs).mpr ⟨hanc, hheight⟩
    · rw [ht_push_old e (hm.graded.anc_mem hqs hanc), ht_push_new, hheight]

theorem Forested.push : (m.push e).Forested :=
  ⟨hm.graded_push he, hm.skip_push he⟩

end

/-! ## Walking -/

theorem Forested.walkBack_eq (hm : m.Forested) (hp : p < m.size) {k : Nat} (hk : k ≤ m.ht p) :
    ∃ a, m.walkBack k p = some a ∧ Anc m.par a p ∧ m.ht a = m.ht p - k := by
  induction k generalizing p with
  | zero => exact ⟨p, rfl, .refl p, rfl⟩
  | succ k ih =>
    cases hpar : m.par p with
    | none =>
      have hroot := hm.graded.root hp hpar
      omega
    | some q =>
      have hstep := hm.graded.height hp hpar
      obtain ⟨a, ha, hanc, hheight⟩ := ih (hm.graded.closed hp hpar) (by omega)
      refine ⟨a, ?_, .step hpar hanc, by omega⟩
      rw [walkBack, hpar]
      exact ha

/-- What the loop returns without reading through a null pointer, it returns. -/
theorem walk_of_readingWalk {height turns heightWalk : Nat} {pindexWalk r : Option Ptr}
    (h : m.readingWalk height turns pindexWalk heightWalk = some r) :
    m.walk height turns pindexWalk heightWalk = r := by
  induction turns generalizing pindexWalk heightWalk with
  | zero => simp [readingWalk] at h
  | succ turns ih =>
    cases pindexWalk with
    | none =>
      rw [readingWalk] at h
      split_ifs at h
      exact Option.some.inj h
    | some p =>
      rw [readingWalk] at h
      rw [walk]
      split_ifs at h ⊢ with hlow hfollow
      · exact ih h
      · exact ih h
      · exact Option.some.inj h

/-- The invariant of the walk: it stands on an ancestor of the start, not below the target. -/
theorem Forested.readingWalk_eq (hm : m.Forested) {a p w : Ptr} {turns : Nat} (hp : p < m.size)
    (ha : Anc m.par a p) (hw : Anc m.par w p) (hle : m.ht a ≤ m.ht w) (hturns : m.ht w < turns) :
    m.readingWalk (m.ht a) turns (some w) (m.ht w) = some (some a) := by
  induction turns generalizing w with
  | zero => omega
  | succ turns ih =>
    have hwS := hm.graded.anc_mem hp hw
    rw [readingWalk]
    by_cases hlt : m.ht a < m.ht w
    · have hnotroot : m.par w ≠ none := fun hroot => by
        have := hm.graded.root hwS hroot
        omega
      rw [if_pos hlt]
      by_cases hfollow : followSkip (m.ht w) (m.ht a) = true
      · obtain ⟨b, hb, hbw, hbheight⟩ := hm.skip w hwS hnotroot
        have hbound := getSkipHeight_lt (show 0 < m.ht w by omega)
        have hge : m.ht a ≤ getSkipHeight (m.ht w) := by
          simp only [followSkip, Bool.or_eq_true, decide_eq_true_eq, Bool.and_eq_true] at hfollow
          omega
        rw [if_pos hfollow, hb, ← hbheight]
        exact ih (hbw.trans hw) (by omega) (by omega)
      · obtain ⟨q, hq⟩ := Option.ne_none_iff_exists'.mp hnotroot
        have hstep := hm.graded.height hwS hq
        have hprev : (m.entry w).pprev = some q := hq
        have hdown : m.ht w - 1 = m.ht q := by omega
        rw [if_neg hfollow, hprev, hdown]
        exact ih ((Anc.of_parent hq).trans hw) (by omega) (by omega)
    · rw [if_neg hlt, hm.graded.anc_eq_of_height hp hw ha (by omega)]

/-- `GetAncestor` returns, reads through no null pointer, and returns what walking back along `pprev` returns. -/
theorem Forested.readingGetAncestor_eq (hm : m.Forested) (hp : p < m.size) (height : Int) :
    m.readingGetAncestor p height =
      some (if 0 ≤ height ∧ height ≤ m.ht p then m.walkBack (m.ht p - height.toNat) p else none) := by
  unfold readingGetAncestor
  by_cases hrange : 0 ≤ height ∧ height ≤ m.ht p
  · obtain ⟨h, rfl⟩ := Int.eq_ofNat_of_zero_le hrange.1
    obtain ⟨a, hback, hanc, hheight⟩ := hm.walkBack_eq hp (Nat.sub_le (m.ht p) h)
    have hat : m.ht a = h := by omega
    rw [if_neg (by omega), if_pos hrange, Int.toNat_natCast, hback, ← hat]
    exact hm.readingWalk_eq hp hanc (.refl p) (by omega) (by omega)
  · rw [if_pos (by omega), if_neg hrange]

/-- The model of `GetAncestor` for heights from 0 on agrees. -/
theorem Forested.getAncestor_eq_reading (hm : m.Forested) (hp : p < m.size) (height : Nat) :
    m.readingGetAncestor p height = some (m.getAncestor p height) := by
  have h := hm.readingGetAncestor_eq hp height
  rw [h]
  unfold readingGetAncestor at h
  unfold getAncestor
  by_cases hlow : m.ht p < height
  · rw [if_pos hlow, if_neg (by omega)]
  · rw [if_neg (by omega), Int.toNat_natCast] at h
    rw [if_neg hlow, walk_of_readingWalk h, Int.toNat_natCast]

end BlockMap

end Reddcoin
