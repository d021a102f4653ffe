import Mathlib.Data.List.Nodup

/-!
# Forests given by parent pointers

Nodes point to their parents, and a height drops by one at each step.  Ancestors, the path from a
root down to a node, and stretches of it.
-/

namespace Forest

open List

variable {α : Type}

/-- `a` is `p` or one of its ancestors. -/
inductive Anc (par : α → Option α) : α → α → Prop where
  | refl (p : α) : Anc par p p
  | step {a p q : α} (parent : par p = some q) (above : Anc par a q) : Anc par a p

/-- A set of nodes closed under parents, with heights: 0 at the roots, one more at each child. -/
structure Graded (S : α → Prop) (par : α → Option α) (ht : α → Nat) : Prop where
  closed : ∀ {p q}, S p → par p = some q → S q
  height : ∀ {p q}, S p → par p = some q → ht p = ht q + 1
  root : ∀ {p}, S p → par p = none → ht p = 0

section

variable {par par' : α → Option α} {a b p q : α}

theorem Anc.trans (hab : Anc par a b) (hbp : Anc par b p) : Anc par a p := by
  induction hbp with
  | refl => exact hab
  | step parent _ ih => exact .step parent ih

theorem Anc.of_parent (h : par p = some q) : Anc par q p :=
  .step h (.refl q)

/-- Below a proper descendant there is a child on the way to it. -/
theorem Anc.child (h : Anc par a p) (hne : a ≠ p) : ∃ c, par c = some a ∧ Anc par c p := by
  induction h with
  | refl => exact absurd rfl hne
  | @step p q parent above ih =>
    by_cases heq : a = q
    · rw [heq]
      exact ⟨p, parent, .refl p⟩
    · obtain ⟨c, hc, hanc⟩ := ih heq
      exact ⟨c, hc, .step parent hanc⟩

/-- An ancestor is the node itself or an ancestor of its parent. -/
theorem anc_iff : Anc par a p ↔ a = p ∨ ∃ q, par p = some q ∧ Anc par a q := by
  constructor
  · intro h
    cases h with
    | refl => exact .inl rfl
    | step parent above => exact .inr ⟨_, parent, above⟩
  · rintro (rfl | ⟨q, parent, above⟩)
    · exact .refl a
    · exact .step parent above

theorem anc_of_root (h : par p = none) : Anc par a p ↔ a = p := by
  rw [anc_iff, h]
  simp

theorem anc_of_parent (h : par p = some q) : Anc par a p ↔ a = p ∨ Anc par a q := by
  rw [anc_iff, h]
  simp

end

namespace Graded

variable {S : α → Prop} {par par' : α → Option α} {ht : α → Nat} {a b p q : α}

/-- Parents and heights are looked at inside the set only. -/
theorem congr {ht' : α → Nat} (hg : Graded S par ht) (hpar : ∀ p, S p → par' p = par p)
    (hht : ∀ p, S p → ht' p = ht p) : Graded S par' ht' where
  closed := fun hp hq => hg.closed hp ((hpar _ hp).symm.trans hq)
  height := fun hp hq => by
    have hq' := (hpar _ hp).symm.trans hq
    rw [hht _ hp, hht _ (hg.closed hp hq')]
    exact hg.height hp hq'
  root := fun hp hq => (hht _ hp).trans (hg.root hp ((hpar _ hp).symm.trans hq))

section

variable (hg : Graded S par ht) (hp : S p)

include hg hp

theorem parent_ne (h : par p = some q) : q ≠ p := by
  have hheight := hg.height hp h
  rintro rfl
  omega

theorem anc_mem (h : Anc par a p) : S a := by
  induction h with
  | refl => exact hp
  | step parent _ ih => exact ih (hg.closed hp parent)

theorem anc_height (h : Anc par a p) : ht a ≤ ht p ∧ (ht a = ht p → a = p) := by
  induction h with
  | refl => exact ⟨Nat.le_refl _, fun _ => rfl⟩
  | step parent _ ih =>
    have hstep := hg.height hp parent
    have hle := (ih (hg.closed hp parent)).1
    exact ⟨by omega, fun heq => by omega⟩

theorem anc_antisymm (ha : Anc par a p) (hp' : Anc par p a) : a = p := by
  have h₁ := hg.anc_height hp ha
  have h₂ := hg.anc_height (hg.anc_mem hp ha) hp'
  exact h₁.2 (by omega)

/-- Of two ancestors of a node the lower one is an ancestor of the higher one. -/
theorem anc_of_height_le (ha : Anc par a p) (hb : Anc par b p) (hle : ht a ≤ ht b) : Anc par a b := by
  induction hb with
  | refl => exact ha
  | step parent above ih =>
    have hstep := hg.height hp parent
    have hbound := (hg.anc_height (hg.closed hp parent) above).1
    rcases (anc_of_parent parent).mp ha with rfl | ha
    · omega
    · exact ih (hg.closed hp parent) ha

theorem anc_eq_of_height (ha : Anc par a p) (hb : Anc par b p) (heq : ht a = ht b) : a = b :=
  (hg.anc_height (hg.anc_mem hp hb) (hg.anc_of_height_le hp ha hb (by omega))).2 heq

end

/-- The ancestors of a node are decided by the parents of the closed set it lies in. -/
theorem anc_congr (hg : Graded S par ht) (hsame : ∀ p, S p → par' p = par p) (hp : S p) :
    Anc par' a p ↔ Anc par a p := by
  constructor
  · intro h
    induction h with
    | refl => exact .refl _
    | step parent _ ih =>
      rw [hsame _ hp] at parent
      exact .step parent (ih (hg.closed hp parent))
  · intro h
    induction h with
    | refl => exact .refl _
    | step parent _ ih =>
      refine .step ?_ (ih (hg.closed hp parent))
      rw [hsame _ hp]
      exact parent

end Graded

/-! ## Paths -/

/-- The path from a root to `p`, of at most `n` steps. -/
def path (par : α → Option α) : Nat → α → List α
  | 0, p => [p]
  | n + 1, p =>
    match par p with
    | none => [p]
    | some q => path par n q ++ [p]

/-- A path is decided by the parents of the ancestors. -/
theorem path_congr {par par' : α → Option α} {n : Nat} {p : α}
    (h : ∀ a, Anc par a p → par' a = par a) : path par' n p = path par n p := by
  induction n generalizing p with
  | zero => rfl
  | succ n ih =>
    have hp := h p (.refl p)
    unfold path
    rw [hp]
    cases hpar : par p with
    | none => rfl
    | some q => simp only [ih fun a ha => h a (.step hpar ha)]

namespace Graded

variable {S : α → Prop} {par : α → Option α} {ht : α → Nat} {a p q : α}

section

variable (hg : Graded S par ht) (hp : S p)

include hg hp

theorem path_child (h : par p = some q) : path par (ht p) p = path par (ht q) q ++ [p] := by
  rw [hg.height hp h, path, h]

theorem length_path : (path par (ht p) p).length = ht p + 1 := by
  induction hn : ht p generalizing p with
  | zero => rfl
  | succ n ih =>
    cases h : par p with
    | none => rw [hg.root hp h] at hn; omega
    | some q =>
      have hstep := hg.height hp h
      have hq : ht q = n := by omega
      have hlen := ih (hg.closed hp h) hq
      rw [← hn, hg.path_child hp h, length_append, hq, hlen, hn]
      rfl

/-- The path holds the ancestors, each at its height. -/
theorem getElem?_path (i : Nat) : (path par (ht p) p)[i]? = some a ↔ Anc par a p ∧ ht a = i := by
  induction hn : ht p generalizing p with
  | zero =>
    have hroot : par p = none := by
      cases h : par p with
      | none => rfl
      | some q => have := hg.height hp h; omega
    rw [anc_of_root hroot]
    show [p][i]? = some a ↔ _
    cases i with
    | zero =>
      constructor
      · intro h
        have : p = a := by simpa using h
        subst this
        exact ⟨rfl, hn⟩
      · rintro ⟨rfl, -⟩
        rfl
    | succ i =>
      constructor
      · intro h; simp at h
      · rintro ⟨rfl, h⟩; omega
  | succ n ih =>
    cases h : par p with
    | none => rw [hg.root hp h] at hn; omega
    | some q =>
      have hstep := hg.height hp h
      have hqS := hg.closed hp h
      have hq : ht q = n := by omega
      have hlen := hg.length_path hqS
      rw [← hn, hg.path_child hp h, anc_of_parent h]
      rcases Nat.lt_trichotomy i (ht q + 1) with hlt | heq | hgt
      · rw [getElem?_append_left (by omega), hq, ih hqS hq]
        constructor
        · rintro ⟨hanc, hi⟩
          exact ⟨.inr hanc, hi⟩
        · rintro ⟨rfl | hanc, hi⟩
          · omega
          · exact ⟨hanc, hi⟩
      · rw [getElem?_append_right (by omega), show i - (path par (ht q) q).length = 0 by omega]
        constructor
        · intro hsome
          have : p = a := by simpa using hsome
          subst this
          exact ⟨.inl rfl, by omega⟩
        · rintro ⟨rfl | hanc, hi⟩
          · rfl
          · have := (hg.anc_height hqS hanc).1; omega
      · rw [getElem?_eq_none (by rw [length_append, hlen]; simp; omega)]
        constructor
        · intro hnone; simp at hnone
        · rintro ⟨rfl | hanc, hi⟩
          · omega
          · have := (hg.anc_height hqS hanc).1; omega

theorem mem_path : a ∈ path par (ht p) p ↔ Anc par a p := by
  rw [mem_iff_getElem?]
  constructor
  · rintro ⟨i, h⟩
    exact ((hg.getElem?_path hp i).mp h).1
  · intro h
    exact ⟨ht a, (hg.getElem?_path hp _).mpr ⟨h, rfl⟩⟩

theorem nodup_path : (path par (ht p) p).Nodup := by
  rw [nodup_iff_getElem?_ne_getElem?]
  intro i j hij hj heq
  have hj' := getElem?_eq_getElem hj
  have hi' := heq.trans hj'
  rw [hg.getElem?_path hp] at hi' hj'
  omega

/-- There is an ancestor at every height up to a node's own. -/
theorem exists_anc {i : Nat} (hi : i ≤ ht p) : ∃ a, Anc par a p ∧ ht a = i := by
  have hlen := hg.length_path hp
  exact ⟨_, (hg.getElem?_path hp i).mp (getElem?_eq_getElem (by omega))⟩

theorem getLast?_path : (path par (ht p) p).getLast? = some p := by
  have hlen := hg.length_path hp
  rw [getLast?_eq_getElem?, hlen, Nat.add_sub_cancel]
  exact (hg.getElem?_path hp _).mpr ⟨.refl p, rfl⟩

end

end Graded

/-! ## Stretches -/

/-- The ancestors of `p` above the height `lo` up to the height `hi`, from the lowest upwards. -/
def stretch (par : α → Option α) (ht : α → Nat) (p : α) (lo hi : Nat) : List α :=
  ((path par (ht p) p).take (hi + 1)).drop (lo + 1)

theorem stretch_self (par : α → Option α) (ht : α → Nat) (p : α) (lo : Nat) : stretch par ht p lo lo = [] := by
  unfold stretch
  rw [drop_eq_nil_iff, length_take]
  omega

namespace Graded

variable {S : α → Prop} {par : α → Option α} {ht : α → Nat} {a p q : α} {lo mid hi : Nat}

section

variable (hg : Graded S par ht) (hp : S p)

include hg hp

theorem getElem?_stretch (i : Nat) :
    (stretch par ht p lo hi)[i]? = some a ↔ Anc par a p ∧ ht a = lo + 1 + i ∧ ht a ≤ hi := by
  unfold stretch
  rw [getElem?_drop, getElem?_take]
  split_ifs with hlt
  · rw [hg.getElem?_path hp]
    constructor
    · rintro ⟨ha, hheight⟩
      exact ⟨ha, hheight, by omega⟩
    · rintro ⟨ha, hheight, -⟩
      exact ⟨ha, hheight⟩
  · constructor
    · intro h
      simp at h
    · rintro ⟨-, hheight, hle⟩
      omega

theorem mem_stretch : a ∈ stretch par ht p lo hi ↔ Anc par a p ∧ lo < ht a ∧ ht a ≤ hi := by
  rw [mem_iff_getElem?]
  constructor
  · rintro ⟨i, h⟩
    obtain ⟨ha, hheight, hle⟩ := (hg.getElem?_stretch hp i).mp h
    exact ⟨ha, by omega, hle⟩
  · rintro ⟨ha, hlo, hle⟩
    exact ⟨ht a - (lo + 1), (hg.getElem?_stretch hp _).mpr ⟨ha, by omega, hle⟩⟩

theorem pairwise_stretch : (stretch par ht p lo hi).Pairwise fun a b => ht a < ht b := by
  rw [pairwise_iff_getElem]
  intro i j hi' hj hij
  have hai := (hg.getElem?_stretch hp i).mp (getElem?_eq_getElem hi')
  have haj := (hg.getElem?_stretch hp j).mp (getElem?_eq_getElem hj)
  omega

theorem stretch_append (hlo : lo ≤ mid) (hmid : mid ≤ hi) (hhi : hi ≤ ht p) :
    stretch par ht p lo mid ++ stretch par ht p mid hi = stretch par ht p lo hi := by
  have hlen := hg.length_path hp
  have hsplit := take_append_drop (mid + 1) ((path par (ht p) p).take (hi + 1))
  rw [take_take, Nat.min_eq_left (by omega)] at hsplit
  unfold stretch
  conv => rhs; rw [← hsplit]
  rw [drop_append_of_le_length (by rw [length_take]; omega)]

theorem stretch_succ (hlo : lo ≤ hi) (ha : Anc par a p) (hheight : ht a = hi + 1) :
    stretch par ht p lo (hi + 1) = stretch par ht p lo hi ++ [a] := by
  have hle := (hg.anc_height hp ha).1
  rw [← hg.stretch_append hp hlo (Nat.le_succ hi) (by omega)]
  have hlast : stretch par ht p hi (hi + 1) = [a] := by
    refine ext_getElem? fun i => Option.ext fun b => ?_
    rw [hg.getElem?_stretch hp]
    cases i with
    | zero =>
      constructor
      · rintro ⟨hb, hbheight, -⟩
        rw [hg.anc_eq_of_height hp hb ha (by omega)]
        rfl
      · intro h
        cases h
        exact ⟨ha, by omega, by omega⟩
    | succ i =>
      constructor
      · rintro ⟨-, hbheight, hble⟩
        omega
      · intro h
        simp at h
  rw [hlast]

end

end Graded
end Forest
