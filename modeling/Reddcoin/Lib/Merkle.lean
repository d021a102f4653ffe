import Mathlib.Data.List.Basic
import Mathlib.Tactic.Ring

/-!
# Hash trees that duplicate an odd last node

The levels of a hash tree over a list, each half as long as the one below; the last node of an odd
level is its own partner.  Padding makes the root ambiguous, and a level that ends in two equal nodes
is where it can show.
-/

namespace Merkle

open List

variable {α : Type} (h : α → α → α) {l : List α}

def pairUp : List α → List α
  | [] => []
  | [a] => [h a a]
  | a :: b :: rest => h a b :: pairUp rest

def level : Nat → List α → List α
  | 0, l => l
  | k + 1, l => pairUp h (level k l)

def endsInPair [DecidableEq α] : List α → Bool
  | a :: b :: [] => decide (a = b)
  | _ :: _ :: c :: rest => endsInPair (c :: rest)
  | _ => false

theorem length_pairUp (l : List α) : (pairUp h l).length = (l.length + 1) / 2 := by
  induction l using pairUp.induct with
  | case1 | case2 a => simp [pairUp]
  | case3 a b rest ih =>
    simp only [pairUp, length_cons, ih]
    omega

theorem level_pairUp (k : Nat) (l : List α) : level h k (pairUp h l) = level h (k + 1) l := by
  induction k with
  | zero => rfl
  | succ k ih => exact congrArg (pairUp h) ih

/-- The list at the top, of at most one node. -/
def root (l : List α) : List α :=
  if 1 < l.length then root (pairUp h l) else l
termination_by l.length
decreasing_by
  rw [length_pairUp]
  omega

def mutated [DecidableEq α] (l : List α) : Bool :=
  if 1 < l.length then endsInPair l || mutated (pairUp h l) else false
termination_by l.length
decreasing_by
  rw [length_pairUp]
  omega

/-! ## Prefixes -/

theorem pairUp_take (c : Nat) (l : List α) : pairUp h (l.take (2 * c)) = (pairUp h l).take c := by
  induction l using pairUp.induct generalizing c with
  | case1 => simp [pairUp]
  | case2 a =>
    cases c with
    | zero => rfl
    | succ c =>
      rw [show 2 * (c + 1) = 2 * c + 1 + 1 by omega]
      simp [pairUp]
  | case3 a b rest ih =>
    cases c with
    | zero => rfl
    | succ c =>
      rw [show 2 * (c + 1) = 2 * c + 1 + 1 by omega]
      simp only [take_succ_cons, pairUp]
      rw [ih c]

theorem level_take (k c : Nat) (l : List α) :
    level h k (l.take (2 ^ k * c)) = (level h k l).take c := by
  induction k generalizing c with
  | zero => simp [level]
  | succ k ih =>
    rw [show 2 ^ (k + 1) * c = 2 ^ k * (2 * c) by ring]
    show pairUp h (level h k _) = _
    rw [ih, pairUp_take]
    rfl

theorem length_level_le {k c : Nat} (hl : l.length ≤ 2 ^ k * c) : (level h k l).length ≤ c := by
  rw [← take_of_length_le hl, level_take]
  exact length_take_le c _

theorem length_level_mono {l l' : List α} (hl : l.length ≤ l'.length) (k : Nat) :
    (level h k l).length ≤ (level h k l').length := by
  induction k with
  | zero => exact hl
  | succ k ih =>
    show (pairUp h _).length ≤ (pairUp h _).length
    rw [length_pairUp, length_pairUp]
    omega

theorem length_level_pos (hl : l ≠ []) (k : Nat) : 0 < (level h k l).length := by
  induction k with
  | zero => exact length_pos_of_ne_nil hl
  | succ k ih =>
    show 0 < (pairUp h _).length
    rw [length_pairUp]
    omega

theorem getD_pairUp {i : Nat} (hi : 2 * i < l.length) (d : α) : (pairUp h l).getD i d =
      h (l.getD (2 * i) d) (if 2 * i + 1 < l.length then l.getD (2 * i + 1) d else l.getD (2 * i) d) := by
  induction l using pairUp.induct generalizing i with
  | case1 => simp at hi
  | case2 a =>
    obtain rfl : i = 0 := by
      simp only [length_cons, length_nil] at hi
      omega
    rfl
  | case3 a b rest ih =>
    cases i with
    | zero => simp [pairUp]
    | succ i =>
      have hstep := ih (i := i) (by simp only [length_cons] at hi; omega)
      have htwo : 2 * (i + 1) = 2 * i + 1 + 1 := by omega
      rw [htwo]
      simp only [pairUp, getD_cons_succ, length_cons, hstep, Nat.add_lt_add_iff_right]

/-! ## Reaching the top -/

theorem root_pairUp (hl : 1 < l.length) : root h (pairUp h l) = root h l := by
  rw [root.eq_def h l, if_pos hl]

theorem root_of_length_le (hl : l.length ≤ 1) : root h l = l := by
  rw [root, if_neg (by omega)]

/-- Up to the first level of one node, all levels have the same root. -/
theorem root_level {k : Nat} (hk : ∀ i < k, 1 < (level h i l).length) : root h (level h k l) = root h l := by
  induction k with
  | zero => rfl
  | succ k ih =>
    show root h (pairUp h (level h k l)) = root h l
    rw [root_pairUp h (hk k (Nat.lt_succ_self k))]
    exact ih fun i hi => hk i (Nat.lt_succ_of_lt hi)

theorem length_level_antitone {i k : Nat} (hik : i ≤ k) (hk : 1 < (level h k l).length) : 1 < (level h i l).length := by
  induction hik with
  | refl => exact hk
  | @step m _ ih =>
    apply ih
    change 1 < (pairUp h (level h m l)).length at hk
    rw [length_pairUp] at hk
    omega

theorem root_level_of_length {k : Nat} (hk : 1 < (level h k l).length) : root h (level h k l) = root h l :=
  root_level h fun _ hi => length_level_antitone h (Nat.le_of_lt hi) hk

/-- The root is the first level of at most one node. -/
theorem root_eq_level (l : List α) :
    ∃ d, root h l = level h d l ∧ (level h d l).length ≤ 1 ∧ ∀ i < d, 1 < (level h i l).length := by
  induction l using root.induct (h := h) with
  | case1 l hl ih =>
    obtain ⟨d, hroot, htop, hbelow⟩ := ih
    refine ⟨d + 1, ?_, ?_, ?_⟩
    · rw [← root_pairUp h hl, hroot, level_pairUp]
    · rw [← level_pairUp]
      exact htop
    · intro i hi
      cases i with
      | zero => exact hl
      | succ i =>
        rw [← level_pairUp]
        exact hbelow i (by omega)
  | case2 l hl => exact ⟨0, root_of_length_le h (by omega), by simpa [level] using hl, by simp⟩

theorem root_ne_nil (hl : l ≠ []) : root h l ≠ [] := by
  obtain ⟨d, hroot, -, -⟩ := root_eq_level h l
  rw [hroot]
  exact ne_nil_of_length_pos (length_level_pos h hl d)

/-! ## Levels that end in a pair -/

section Pair

variable [DecidableEq α]

theorem endsInPair_length (hl : endsInPair l) : 1 < l.length ∧ l.length % 2 = 0 := by
  induction l using endsInPair.induct with
  | case1 a b => simp
  | case2 a b c rest ih =>
    have := ih hl
    simp only [length_cons] at this ⊢
    omega
  | case3 l hpair hlong => simp [endsInPair] at hl

theorem pairUp_dropLast (hl : endsInPair l) : pairUp h l.dropLast = pairUp h l := by
  induction l using endsInPair.induct with
  | case1 a b =>
    have hab : a = b := of_decide_eq_true hl
    subst hab
    rfl
  | case2 a b c rest ih =>
    show h a b :: pairUp h (c :: rest).dropLast = h a b :: pairUp h (c :: rest)
    rw [ih hl]
  | case3 l hpair hlong => simp [endsInPair] at hl

theorem mutated_iff : mutated h l ↔ ∃ k, endsInPair (level h k l) = true := by
  induction l using mutated.induct (h := h) with
  | case1 l hl ih =>
    rw [mutated, if_pos hl, Bool.or_eq_true, ih]
    constructor
    · rintro (hend | ⟨k, hend⟩)
      · exact ⟨0, hend⟩
      · exact ⟨k + 1, by rw [← level_pairUp]; exact hend⟩
    · rintro ⟨k, hend⟩
      cases k with
      | zero => exact .inl hend
      | succ k =>
        rw [← level_pairUp] at hend
        exact .inr ⟨k, hend⟩
  | case2 l hl =>
    rw [mutated, if_neg hl]
    constructor
    · intro hfalse
      cases hfalse
    · rintro ⟨k, hend⟩
      have hlen := length_level_le h (k := k) (c := 1) (l := l) (by have := Nat.one_le_two_pow (n := k); omega)
      have := (endsInPair_length hend).1
      omega

/-! ## Two lists with one root -/

variable (hinj : ∀ a b a' b', h a b = h a' b' → a = a' ∧ b = b')

include hinj

/-- Two lists below one level are the same, or the longer one spells out the padding. -/
theorem pairUp_eq_cases {l l' : List α} (hle : l.length ≤ l'.length)
    (heq : pairUp h l = pairUp h l') :
    l = l' ∨ (l.length < l'.length ∧ endsInPair l') := by
  induction l using pairUp.induct generalizing l' with
  | case1 =>
    have hlen := congrArg List.length heq
    rw [length_pairUp, length_pairUp] at hlen
    cases l' with
    | nil => exact .inl rfl
    | cons b rest =>
      simp only [length_nil, length_cons] at hlen
      omega
  | case2 a =>
    match l' with
    | [] => simp at hle
    | [b] =>
      have hb := hinj _ _ _ _ (List.cons.inj heq).1
      exact .inl (by rw [hb.1])
    | [b, c] =>
      obtain ⟨hb, hc⟩ := hinj _ _ _ _ (List.cons.inj heq).1
      refine .inr ⟨by simp, ?_⟩
      exact decide_eq_true (hb.symm.trans hc)
    | b :: c :: d :: rest =>
      have hlen := congrArg List.length heq
      rw [length_pairUp, length_pairUp] at hlen
      simp only [length_cons, length_nil] at hlen
      omega
  | case3 a b rest ih =>
    match l' with
    | [] => simp at hle
    | [c] => simp at hle
    | c :: d :: rest' =>
      obtain ⟨hhead, htail⟩ := List.cons.inj heq
      obtain ⟨rfl, rfl⟩ := hinj _ _ _ _ hhead
      rcases ih (by simpa using hle) htail with rfl | ⟨hlt, hend⟩
      · exact .inl rfl
      · refine .inr ⟨by simpa using hlt, ?_⟩
        cases rest' with
        | nil => simp [endsInPair] at hend
        | cons e rest' => exact hend

/-- How many times a hash can be opened on the left before a leaf is reached. -/
def LeftDepth : Nat → α → Prop
  | 0, x => ∀ a b, h a b ≠ x
  | d + 1, x => ∃ a b, x = h a b ∧ LeftDepth d a

omit [DecidableEq α] in
theorem leftDepth_unique {d d' : Nat} {x : α} (hd : LeftDepth h d x) (hd' : LeftDepth h d' x) :
    d = d' := by
  induction d generalizing d' x with
  | zero =>
    cases d' with
    | zero => rfl
    | succ d' =>
      obtain ⟨a, b, hx, -⟩ := hd'
      exact absurd hx.symm (hd a b)
  | succ d ih =>
    obtain ⟨a, b, hx, ha⟩ := hd
    cases d' with
    | zero => exact absurd hx.symm (hd' a b)
    | succ d' =>
      obtain ⟨a', b', hx', ha'⟩ := hd'
      obtain ⟨rfl, -⟩ := hinj _ _ _ _ (hx.symm.trans hx')
      rw [ih ha ha']

omit hinj [DecidableEq α] in
theorem leftDepth_level {l : List α} (hleaf : ∀ x ∈ l, ∀ a b, h a b ≠ x) (k : Nat) :
    ∀ x ∈ (level h k l).head?, LeftDepth h k x := by
  induction k with
  | zero =>
    intro x hx
    exact hleaf x (mem_of_mem_head? hx)
  | succ k ih =>
    intro x hx
    change x ∈ (pairUp h (level h k l)).head? at hx
    match hl : level h k l with
    | [] =>
      rw [hl] at hx
      simp [pairUp] at hx
    | [a] =>
      rw [hl] at hx ih
      exact ⟨a, a, (Option.some.inj hx).symm, ih a rfl⟩
    | a :: b :: rest =>
      rw [hl] at hx ih
      exact ⟨a, b, (Option.some.inj hx).symm, ih a rfl⟩

/-- Different lists with one root have different lengths, and the longer one spells out padding of the
shorter one at some level. -/
theorem mutated_of_root_eq {l l' : List α} (hl : l ≠ [])
    (hleaf : ∀ x ∈ l, ∀ a b, h a b ≠ x) (hleaf' : ∀ x ∈ l', ∀ a b, h a b ≠ x)
    (hroot : root h l = root h l') (hne : l ≠ l') :
    (l.length < l'.length ∧ mutated h l') ∨ (l'.length < l.length ∧ mutated h l) := by
  obtain ⟨d, hd, -, -⟩ := root_eq_level h l
  obtain ⟨d', hd', -, -⟩ := root_eq_level h l'
  -- the leaves tell the depth from the root
  have hdepth : d = d' := by
    obtain ⟨x, rest, hx⟩ := exists_cons_of_ne_nil (root_ne_nil h hl)
    refine leftDepth_unique h hinj (leftDepth_level h hleaf d x ?_) (leftDepth_level h hleaf' d' x ?_)
    · rw [← hd, hx]
      rfl
    · rw [← hd', ← hroot, hx]
      rfl
  subst hdepth
  have hsome : ∃ k, level h k l = level h k l' := ⟨d, by rw [← hd, ← hd', hroot]⟩
  classical
  -- the lowest level at which the two trees agree
  cases hk : Nat.find hsome with
  | zero =>
    have hspec := Nat.find_spec hsome
    rw [hk] at hspec
    exact absurd hspec hne
  | succ k =>
    have hspec := Nat.find_spec hsome
    rw [hk] at hspec
    have hlow : level h k l ≠ level h k l' := Nat.find_min hsome (by omega)
    rcases Nat.le_total (level h k l).length (level h k l').length with hle | hle
    · rcases pairUp_eq_cases h hinj hle hspec with heq | ⟨hlt, hend⟩
      · exact absurd heq hlow
      · refine .inl ⟨?_, (mutated_iff h).mpr ⟨k, hend⟩⟩
        by_contra hge
        have := length_level_mono h (Nat.le_of_not_lt hge) k
        omega
    · rcases pairUp_eq_cases h hinj hle hspec.symm with heq | ⟨hlt, hend⟩
      · exact absurd heq.symm hlow
      · refine .inr ⟨?_, (mutated_iff h).mpr ⟨k, hend⟩⟩
        by_contra hge
        have := length_level_mono h (Nat.le_of_not_lt hge) k
        omega

omit hinj in
/-- A level that ends in a pair below other nodes is the padding of a prefix. -/
theorem exists_shorter {k : Nat} {l : List α} (hend : endsInPair (level h k l))
    (hlen : 2 < (level h k l).length) :
    ∃ n, 0 < n ∧ n < l.length ∧ root h (l.take n) = root h l := by
  obtain ⟨-, heven⟩ := endsInPair_length hend
  have hshort : 2 ^ k * ((level h k l).length - 1) < l.length := by
    by_contra hge
    have := length_level_le h (Nat.le_of_not_lt hge)
    omega
  refine ⟨2 ^ k * ((level h k l).length - 1), ?_, hshort, ?_⟩
  · exact Nat.mul_pos (Nat.two_pow_pos k) (by omega)
  · have hlevel : level h k (l.take (2 ^ k * ((level h k l).length - 1))) = (level h k l).dropLast := by
      rw [level_take, dropLast_eq_take]
    have hdrop : 1 < ((level h k l).dropLast).length := by
      rw [length_dropLast]
      omega
    calc root h (l.take (2 ^ k * ((level h k l).length - 1)))
        = root h (level h k l).dropLast := by
          rw [← hlevel]
          exact (root_level_of_length h (by rw [hlevel]; exact hdrop)).symm
      _ = root h (pairUp h (level h k l).dropLast) := (root_pairUp h hdrop).symm
      _ = root h (pairUp h (level h k l)) := by rw [pairUp_dropLast h hend]
      _ = root h (level h k l) := root_pairUp h (by omega)
      _ = root h l := root_level_of_length h (by omega)

theorem mutated_iff_shorter (hleaf : ∀ x ∈ l, ∀ a b, h a b ≠ x) :
    mutated h l ↔ (∃ n, 0 < n ∧ n < l.length ∧ root h (l.take n) = root h l) ∨ ∃ k a, level h k l = [a, a] := by
  constructor
  · intro hmut
    obtain ⟨k, hend⟩ := (mutated_iff h).mp hmut
    obtain ⟨hlong, -⟩ := endsInPair_length hend
    by_cases hlen : 2 < (level h k l).length
    · exact .inl (exists_shorter h hend hlen)
    · obtain ⟨a, b, hab⟩ := length_eq_two.mp (show (level h k l).length = 2 by omega)
      rw [hab] at hend
      have hEq : a = b := of_decide_eq_true hend
      exact .inr ⟨k, a, by rw [hab, hEq]⟩
  · rintro (⟨n, hpos, hlt, hroot⟩ | ⟨k, a, hpair⟩)
    · have hlen : (l.take n).length = n := length_take_of_le (by omega)
      have hprefix : l.take n ≠ [] := ne_nil_of_length_pos (by omega)
      have hne : l.take n ≠ l := fun heq => by
        rw [heq] at hlen
        omega
      rcases mutated_of_root_eq h hinj hprefix
        (fun x hx => hleaf x (mem_of_mem_take hx)) hleaf hroot hne with ⟨-, hmut⟩ | ⟨hlt', -⟩
      · exact hmut
      · omega
    · refine (mutated_iff h).mpr ⟨k, ?_⟩
      rw [hpair]
      exact decide_eq_true rfl

end Pair

/-! ## Branches -/

/-- The nodes of the tree, level after level from the leaves to the root. -/
def tower (l : List α) : List α :=
  if 1 < l.length then l ++ tower (pairUp h l) else l
termination_by l.length
decreasing_by
  rw [length_pairUp]
  omega

/-- The partners of the nodes above leaf `i`; the last node of an odd level is its own. -/
def siblings (d : α) (l : List α) (i : Nat) : List α :=
  if 1 < l.length then l.getD (min (i ^^^ 1) (l.length - 1)) d :: siblings d (pairUp h l) (i / 2)
  else []
termination_by l.length
decreasing_by
  rw [length_pairUp]
  omega

/-- From a node and the partners above it to the top. -/
def climb (x : α) : List α → Nat → α
  | [], _ => x
  | s :: rest, i => climb (if i % 2 = 1 then h s x else h x s) rest (i / 2)

theorem xor_one (i : Nat) : i ^^^ 1 = if i % 2 = 1 then i - 1 else i + 1 := by
  apply Nat.eq_of_testBit_eq
  intro j
  rw [Nat.testBit_xor]
  rcases Nat.mod_two_eq_zero_or_one i with heven | hodd
  · rw [if_neg (by omega)]
    cases j with
    | zero => simp [heven, Nat.add_mod]
    | succ j =>
      rw [Nat.testBit_succ, Nat.testBit_succ, Nat.testBit_succ, show (i + 1) / 2 = i / 2 by omega]
      simp
  · rw [if_pos hodd]
    cases j with
    | zero =>
      have hpred : (i - 1) % 2 = 0 := by omega
      simp [hodd, hpred]
    | succ j =>
      rw [Nat.testBit_succ, Nat.testBit_succ, Nat.testBit_succ, show (i - 1) / 2 = i / 2 by omega]
      simp

theorem tower_ne_nil (hl : l ≠ []) : tower h l ≠ [] := by
  rw [tower]
  split_ifs
  · exact append_ne_nil_of_left_ne_nil hl _
  · exact hl

theorem getLastD_tower (d : α) (hl : l ≠ []) : (tower h l).getLastD d = (root h l).headD d := by
  induction l using tower.induct (h := h) with
  | case1 l hlong ih =>
    have habove : pairUp h l ≠ [] := ne_nil_of_length_pos (by rw [length_pairUp]; omega)
    rw [tower, if_pos hlong, ← root_pairUp h hlong, ← ih habove, getLastD_eq_getLast?,
      getLastD_eq_getLast?, getLast?_append_of_ne_nil _ (tower_ne_nil h habove)]
  | case2 l hshort =>
    rw [tower, if_neg hshort, root_of_length_le h (by omega)]
    obtain ⟨x, rfl⟩ := length_eq_one_iff.mp (show l.length = 1 by
      have := length_pos_of_ne_nil hl
      omega)
    rfl

/-- A node and its partner, in the order their places ask for, give the node above. -/
theorem join_sibling (d : α) {i : Nat} (hi : i < l.length) :
    (if i % 2 = 1 then h (l.getD (min (i ^^^ 1) (l.length - 1)) d) (l.getD i d)
      else h (l.getD i d) (l.getD (min (i ^^^ 1) (l.length - 1)) d)) = (pairUp h l).getD (i / 2) d := by
  rw [getD_pairUp h (show 2 * (i / 2) < l.length by omega), xor_one]
  rcases Nat.mod_two_eq_zero_or_one i with heven | hodd
  · rw [if_neg (by omega), if_neg (by omega), show 2 * (i / 2) = i by omega]
    split_ifs with hright
    · rw [Nat.min_eq_left (by omega)]
    · rw [Nat.min_eq_right (by omega), show l.length - 1 = i by omega]
  · rw [if_pos hodd, if_pos hodd, Nat.min_eq_left (by omega), if_pos (by omega),
      show 2 * (i / 2) + 1 = i by omega, show 2 * (i / 2) = i - 1 by omega]

theorem climb_siblings (d : α) {i : Nat} (hi : i < l.length) :
    climb h (l.getD i d) (siblings h d l i) i = (root h l).headD d := by
  induction l using tower.induct (h := h) generalizing i with
  | case1 l hlong ih =>
    have hup : i / 2 < (pairUp h l).length := by
      rw [length_pairUp]
      omega
    rw [siblings, if_pos hlong, climb, join_sibling h d hi, ih hup, root_pairUp h hlong]
  | case2 l hshort =>
    obtain ⟨x, rfl⟩ := length_eq_one_iff.mp (show l.length = 1 by omega)
    obtain rfl : i = 0 := by simpa using hi
    rw [siblings, if_neg hshort, root_of_length_le h (by simp)]
    rfl

/-- Two climbs of one length from one place end differently unless they are the same climb. -/
theorem climb_inj (hinj : ∀ a b a' b', h a b = h a' b' → a = a' ∧ b = b') {branch branch' : List α}
    (hlen : branch.length = branch'.length) {x x' : α} {i : Nat}
    (heq : climb h x branch i = climb h x' branch' i) : x = x' ∧ branch = branch' := by
  induction branch generalizing branch' x x' i with
  | nil =>
    obtain rfl : branch' = [] := length_eq_zero_iff.mp hlen.symm
    exact ⟨heq, rfl⟩
  | cons s rest ih =>
    cases branch' with
    | nil => simp at hlen
    | cons s' rest' =>
      obtain ⟨hnode, rfl⟩ := ih (by simpa using hlen) heq
      split_ifs at hnode with hodd
      · obtain ⟨rfl, rfl⟩ := hinj _ _ _ _ hnode
        exact ⟨rfl, rfl⟩
      · obtain ⟨rfl, rfl⟩ := hinj _ _ _ _ hnode
        exact ⟨rfl, rfl⟩

end Merkle
