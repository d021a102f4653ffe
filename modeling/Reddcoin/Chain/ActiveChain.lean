import Mathlib.Data.List.Induction
import Reddcoin.Chain.BlockIndex

/-!
# The active chain and the order of the candidates

`CChain` of `chain.h`, with `SetTip` and `FindFork`, and `CBlockIndexWorkComparator` of `main.cpp`.
-/

namespace Reddcoin

open List

open Forest (Anc Graded path)

/-- `vChain`: the entry at each height. -/
abbrev CChain := List (Option Ptr)

namespace CChain

def tip (v : CChain) : Option Ptr :=
  v.getLast?.join

def contains (m : BlockMap) (v : CChain) (p : Ptr) : Bool :=
  decide (v[m.ht p]? = some (some p))

/-- `CChain::Next`. -/
def next (m : BlockMap) (v : CChain) (p : Ptr) : Option Ptr :=
  if v.contains m p then (v[m.ht p + 1]?).join else none

def resize (v : CChain) (n : Nat) : CChain :=
  v.take n ++ List.replicate (n - v.length) none

/-- The loop of `SetTip`, downwards until it meets an entry that is already there. -/
def setTipLoop (m : BlockMap) : Nat → CChain → Option Ptr → CChain
  | turns + 1, v, some p =>
    if v[m.ht p]? = some (some p) then v
    else setTipLoop m turns (v.set (m.ht p) (some p)) (m.par p)
  | _, v, _ => v

def setTip (m : BlockMap) (v : CChain) : Option Ptr → CChain
  | none => []
  | some p => setTipLoop m (m.ht p + 1) (v.resize (m.ht p + 1)) (some p)

def findForkLoop (m : BlockMap) (v : CChain) : Nat → Option Ptr → Option Ptr
  | turns + 1, some p => if v.contains m p then some p else findForkLoop m v turns (m.par p)
  | _, p => p

def findFork (m : BlockMap) (v : CChain) (p : Ptr) : Option Ptr :=
  findForkLoop m v (m.ht p + 1)
    (if v.length ≤ m.ht p then
      if v.isEmpty then none else m.getAncestor p (v.length - 1)
    else some p)

/-- The chain is the path to `t`. -/
def EndsAt (m : BlockMap) (v : CChain) (t : Ptr) : Prop :=
  v = (path m.par (m.ht t) t).map some

instance (m : BlockMap) (v : CChain) (t : Ptr) : Decidable (EndsAt m v t) :=
  inferInstanceAs (Decidable (_ = _))

section

variable {m : BlockMap} {v : CChain} {t p q : Ptr}

section

variable (h : EndsAt m v t) (hm : m.Tree) (ht : t < m.size)

include h hm ht

theorem EndsAt.getElem? (i : Nat) {a : Ptr} : v[i]? = some (some a) ↔ Anc m.par a t ∧ m.ht a = i := by
  rw [h, getElem?_map, ← hm.graded.getElem?_path ht i]
  simp

theorem EndsAt.contains_iff : v.contains m p ↔ Anc m.par p t := by
  unfold contains
  rw [decide_eq_true_eq, h.getElem? hm ht]
  exact and_iff_left rfl

theorem EndsAt.next_eq_some : v.next m p = some q ↔ Anc m.par q t ∧ m.par q = some p := by
  unfold next
  constructor
  · intro hnext
    split_ifs at hnext with hcontains
    have hp : Anc m.par p t := (h.contains_iff hm ht).mp hcontains
    rw [Option.join_eq_some_iff, h.getElem? hm ht] at hnext
    obtain ⟨hq, hheight⟩ := hnext
    have hqsize := hm.graded.anc_mem ht hq
    cases hpar : m.par q with
    | none =>
      have hroot := hm.graded.root hqsize hpar
      omega
    | some r =>
      have hr := hm.graded.height hqsize hpar
      have hrt : Anc m.par r t := .trans (.of_parent hpar) hq
      rw [hm.graded.anc_eq_of_height ht hrt hp (by omega)]
      exact ⟨hq, rfl⟩
  · rintro ⟨hq, hpar⟩
    have hqsize := hm.graded.anc_mem ht hq
    have hheight := hm.graded.height hqsize hpar
    have hp : Anc m.par p t := .trans (.of_parent hpar) hq
    rw [if_pos ((h.contains_iff hm ht).mpr hp), Option.join_eq_some_iff, h.getElem? hm ht]
    exact ⟨hq, hheight⟩

theorem EndsAt.length : v.length = m.ht t + 1 := by
  rw [h, length_map, hm.graded.length_path ht]

theorem EndsAt.tip : v.tip = some t := by
  unfold CChain.tip
  rw [h, getLast?_map, hm.graded.getLast?_path ht]
  rfl

end

/-- The loop of `SetTip` fills in the path, provided that wherever an entry is already the right one, all
those below it are. -/
theorem setTipLoop_eq (hm : m.Tree) (hp : p < m.size) {turns : Nat} {w : Ptr} (hw : Anc m.par w p)
    (hturns : m.ht w < turns) (hlen : v.length = m.ht p + 1)
    (habove : ∀ i, m.ht w < i → v[i]? = ((path m.par (m.ht p) p).map some)[i]?)
    (hbelow : ∀ i j, i ≤ j → j ≤ m.ht w → v[j]? = ((path m.par (m.ht p) p).map some)[j]? →
      v[i]? = ((path m.par (m.ht p) p).map some)[i]?) :
    setTipLoop m turns v (some w) = (path m.par (m.ht p) p).map some := by
  have hat : ∀ w, Anc m.par w p → ((path m.par (m.ht p) p).map some)[m.ht w]? = some (some w) := by
    intro w hw
    rw [getElem?_map, (hm.graded.getElem?_path hp _).mpr ⟨hw, rfl⟩]
    rfl
  induction turns generalizing v w with
  | zero => omega
  | succ turns ih =>
    have hwS := hm.graded.anc_mem hp hw
    have hwle := (hm.graded.anc_height hp hw).1
    by_cases hmatch : v[m.ht w]? = some (some w)
    · rw [setTipLoop, if_pos hmatch]
      refine ext_getElem? fun i => ?_
      rcases Nat.lt_or_ge (m.ht w) i with hi | hi
      · exact habove i hi
      · exact hbelow i _ hi (Nat.le_refl _) (hmatch.trans (hat w hw).symm)
    · rw [setTipLoop, if_neg hmatch]
      have hset : ∀ i, (v.set (m.ht w) (some w))[i]? = if i = m.ht w then some (some w) else v[i]? := by
        intro i
        by_cases hi : i = m.ht w
        · subst hi
          rw [getElem?_set_self (by omega), if_pos rfl]
        · rw [getElem?_set_ne (Ne.symm hi), if_neg hi]
      have habove' : ∀ i, m.ht w ≤ i → (v.set (m.ht w) (some w))[i]? = ((path m.par (m.ht p) p).map some)[i]? := by
        intro i hi
        rw [hset]
        split_ifs with heq
        · rw [heq, hat w hw]
        · exact habove i (by omega)
      cases hpar : m.par w with
      | none =>
        have hroot := hm.graded.root hwS hpar
        have hdone : setTipLoop m turns (v.set (m.ht w) (some w)) none = v.set (m.ht w) (some w) := by
          cases turns <;> rfl
        rw [hdone]
        exact ext_getElem? fun i => habove' i (by omega)
      | some q =>
        have hstep := hm.graded.height hwS hpar
        refine ih ((Anc.of_parent hpar).trans hw) (by omega) (by rw [length_set, hlen])
          (fun i hi => habove' i (by omega)) fun i j hij hj heq => ?_
        rw [hset, if_neg (by omega)] at heq ⊢
        exact hbelow i j hij (by omega) heq

theorem setTip_eq (hm : m.Tree) (hp : p < m.size)
    (hbelow : ∀ i j, i ≤ j → j ≤ m.ht p → (v.resize (m.ht p + 1))[j]? = ((path m.par (m.ht p) p).map some)[j]? →
      (v.resize (m.ht p + 1))[i]? = ((path m.par (m.ht p) p).map some)[i]?) :
    EndsAt m (v.setTip m (some p)) p := by
  have hlen : (v.resize (m.ht p + 1)).length = m.ht p + 1 := by
    unfold resize
    rw [length_append, length_take, length_replicate]
    omega
  refine setTipLoop_eq hm hp (.refl p) (by omega) hlen (fun i hi => ?_) hbelow
  rw [getElem?_eq_none (by omega), getElem?_eq_none]
  rw [length_map, hm.graded.length_path hp]
  omega

theorem EndsAt.setTip_child (h : EndsAt m v t) (hm : m.Tree) (hp : p < m.size)
    (hpar : m.par p = some t) : EndsAt m (v.setTip m (some p)) p := by
  have ht := hm.graded.closed hp hpar
  have hstep := hm.graded.height hp hpar
  have hlen := h.length hm ht
  have hpath : (path m.par (m.ht p) p).map some = v ++ [some p] := by
    rw [hm.graded.path_child hp hpar, map_append, ← h]
    rfl
  have hres : v.resize (m.ht p + 1) = v ++ [none] := by
    unfold resize
    rw [take_of_length_le (by omega), show m.ht p + 1 - v.length = 1 by omega]
    rfl
  refine setTip_eq hm hp fun i j hij hj heq => ?_
  rw [hpath, hres] at heq ⊢
  rcases Nat.lt_or_ge j v.length with hjl | hjl
  · rw [getElem?_append_left (by omega), getElem?_append_left (by omega)]
  · have hj' : j = v.length := by omega
    subst hj'
    simp at heq

/-- Setting the tip to the parent of the old tip. -/
theorem EndsAt.setTip_parent (h : EndsAt m v t) (hm : m.Tree) (ht : t < m.size)
    (hpar : m.par t = some q) : EndsAt m (v.setTip m (some q)) q := by
  have hq := hm.graded.closed ht hpar
  have hlen := hm.graded.length_path hq
  have hv : v = (path m.par (m.ht q) q).map some ++ [some t] := by
    rw [h, hm.graded.path_child ht hpar, map_append]
    rfl
  have hres : v.resize (m.ht q + 1) = (path m.par (m.ht q) q).map some := by
    unfold resize
    rw [hv, take_left' (by rw [length_map, hlen]), length_append, length_map, hlen]
    simp
  refine setTip_eq hm hq fun i j _ _ _ => ?_
  rw [hres]

theorem setTip_nil (hm : m.Tree) (hp : p < m.size) : EndsAt m (setTip m [] (some p)) p := by
  refine setTip_eq hm hp fun i j _ hj heq => ?_
  have hlen := hm.graded.length_path hp
  have hnone : (resize [] (m.ht p + 1))[j]? = some none := by
    unfold resize
    rw [take_nil, nil_append]
    exact getElem?_replicate_of_lt (by simp; omega)
  rw [hnone, getElem?_map, getElem?_eq_getElem (by omega)] at heq
  simp at heq

theorem findForkLoop_eq (h : EndsAt m v t) (hm : m.Tree) (ht : t < m.size) {turns : Nat} {w : Ptr}
    (hw : w < m.size) (hturns : m.ht w < turns) :
    ∃ f, findForkLoop m v turns (some w) = some f ∧ Anc m.par f w ∧ Anc m.par f t ∧
      ∀ a, Anc m.par a w → Anc m.par a t → Anc m.par a f := by
  induction turns generalizing w with
  | zero => omega
  | succ turns ih =>
    by_cases hc : v.contains m w = true
    · exact ⟨w, by rw [findForkLoop, if_pos hc], .refl w, (h.contains_iff hm ht).mp hc, fun a ha _ => ha⟩
    · have hnot : ¬ Anc m.par w t := fun hanc => hc ((h.contains_iff hm ht).mpr hanc)
      cases hpar : m.par w with
      | none =>
        obtain ⟨r, hr, hr0⟩ := hm.graded.exists_anc ht (Nat.zero_le _)
        have hrS := hm.graded.anc_mem ht hr
        have hrroot : m.par r = none := by
          cases hrp : m.par r with
          | none => rfl
          | some x => have := hm.graded.height hrS hrp; omega
        exact absurd (hm.root w hw r hrS hpar hrroot ▸ hr) hnot
      | some q =>
        have hstep := hm.graded.height hw hpar
        obtain ⟨f, hf, hfq, hft, hmax⟩ := ih (hm.graded.closed hw hpar) (by omega)
        refine ⟨f, by rw [findForkLoop, if_neg hc, hpar]; exact hf, .step hpar hfq, hft, fun a ha hat => ?_⟩
        rcases (Forest.anc_of_parent hpar).mp ha with rfl | ha
        · exact absurd hat hnot
        · exact hmax a ha hat

/-- `FindFork` returns the last common entry. -/
theorem EndsAt.findFork_eq (h : EndsAt m v t) (hm : m.Tree) (ht : t < m.size) (hp : p < m.size) :
    ∃ f, v.findFork m p = some f ∧ Anc m.par f p ∧ Anc m.par f t ∧
      ∀ a, Anc m.par a p → Anc m.par a t → Anc m.par a f := by
  have hlen := h.length hm ht
  unfold findFork
  by_cases hlong : v.length ≤ m.ht p
  · have hne : v.isEmpty = false := by
      cases v with
      | nil => simp at hlen
      | cons x xs => rfl
    obtain ⟨w, hwp, hwh⟩ := hm.graded.exists_anc hp (i := v.length - 1) (by omega)
    have hw := (hm.getAncestor_eq_some hp).mpr ⟨hwp, hwh⟩
    rw [if_pos hlong, hne, if_neg (by simp), hw]
    obtain ⟨f, hf, hfw, hft, hmax⟩ := findForkLoop_eq h hm ht (hm.graded.anc_mem hp hwp)
      (show m.ht w < m.ht p + 1 by omega)
    refine ⟨f, hf, hfw.trans hwp, hft, fun a ha hat => hmax a ?_ hat⟩
    have hale := (hm.graded.anc_height ht hat).1
    exact hm.graded.anc_of_height_le hp ha hwp (by omega)
  · rw [if_neg hlong]
    exact findForkLoop_eq h hm ht hp (by omega)

end

end CChain

/-! ## The work comparator -/

/-- Where the entries lie in memory. -/
structure Addresses where
  addr : Ptr → Nat
  injective : Function.Injective addr

/-- `CBlockIndexWorkComparator`: less work, then received later, then at a higher address. -/
def worse (A : Addresses) (m : BlockMap) (pa pb : Ptr) : Bool :=
  let a := m.entry pa
  let b := m.entry pb
  if b.nChainWork < a.nChainWork then false
  else if a.nChainWork < b.nChainWork then true
  else if a.nSequenceId < b.nSequenceId then false
  else if b.nSequenceId < a.nSequenceId then true
  else if A.addr pa < A.addr pb then false
  else if A.addr pb < A.addr pa then true
  else false

section

variable {A : Addresses} {m : BlockMap} {a b c : Ptr}

theorem worse_iff : worse A m a b ↔ (m.entry a).nChainWork < (m.entry b).nChainWork ∨
    ((m.entry a).nChainWork = (m.entry b).nChainWork ∧ ((m.entry b).nSequenceId < (m.entry a).nSequenceId ∨
        ((m.entry a).nSequenceId = (m.entry b).nSequenceId ∧ A.addr b < A.addr a))) := by
  unfold worse
  simp only
  split_ifs <;> simp <;> omega

theorem worse_irrefl (a : Ptr) : worse A m a a = false := by
  rw [← Bool.not_eq_true, worse_iff]
  omega

theorem worse_trans (hab : worse A m a b) (hbc : worse A m b c) :
    worse A m a c = true := by
  rw [worse_iff] at *
  omega

theorem worse_total (hne : a ≠ b) : worse A m a b ∨ worse A m b a = true := by
  have haddr : A.addr a ≠ A.addr b := fun h => hne (A.injective h)
  rw [worse_iff, worse_iff]
  omega

theorem worse_of_worse_of_not (hab : worse A m a b) (hcb : worse A m c b = false) :
    worse A m a c = true := by
  rw [← Bool.not_eq_true, worse_iff] at hcb
  rw [worse_iff] at *
  by_cases hac : a = c
  · subst hac
    omega
  · have haddr : A.addr a ≠ A.addr c := fun h => hac (A.injective h)
    omega

theorem not_worse_trans (hba : worse A m b a = false) (hcb : worse A m c b = false) :
    worse A m c a = false := by
  by_contra h
  rw [Bool.not_eq_false] at h
  have := worse_of_worse_of_not h hba
  simp [hcb] at this

end

/-- The last element of the candidate set in the order of the comparator. -/
def bestCandidate (A : Addresses) (m : BlockMap) : List Ptr → Option Ptr
  | [] => none
  | p :: ps =>
    match bestCandidate A m ps with
    | none => some p
    | some q => if worse A m p q then some q else some p

theorem bestCandidate_eq_none {A : Addresses} {m : BlockMap} {ps : List Ptr} :
    bestCandidate A m ps = none ↔ ps = [] := by
  cases ps with
  | nil => simp [bestCandidate]
  | cons p ps =>
    simp only [bestCandidate, reduceCtorEq, iff_false]
    split
    · simp
    · split_ifs <;> simp

theorem bestCandidate_eq_some {A : Addresses} {m : BlockMap} {ps : List Ptr} {p : Ptr}
    (h : bestCandidate A m ps = some p) : p ∈ ps ∧ ∀ q ∈ ps, worse A m p q = false := by
  induction ps generalizing p with
  | nil => simp [bestCandidate] at h
  | cons x ps ih =>
    cases hrest : bestCandidate A m ps with
    | none =>
      rw [bestCandidate_eq_none] at hrest
      subst hrest
      obtain rfl : x = p := by simpa [bestCandidate] using h
      exact ⟨mem_cons_self, fun q hq => by
        rw [mem_singleton.mp hq]
        exact worse_irrefl _⟩
    | some y =>
      obtain ⟨hy, hbest⟩ := ih hrest
      simp only [bestCandidate, hrest] at h
      split_ifs at h with hxy
      · obtain rfl : y = p := by simpa using h
        refine ⟨mem_cons_of_mem _ hy, fun q hq => ?_⟩
        rcases mem_cons.mp hq with rfl | hq
        · by_contra hyq
          rw [Bool.not_eq_false] at hyq
          have := worse_trans hxy hyq
          simp [worse_irrefl] at this
        · exact hbest q hq
      · obtain rfl : x = p := by simpa using h
        rw [Bool.not_eq_true] at hxy
        refine ⟨mem_cons_self, fun q hq => ?_⟩
        rcases mem_cons.mp hq with rfl | hq
        · exact worse_irrefl _
        · exact not_worse_trans (hbest q hq) hxy

end Reddcoin

/-!
## Moving the tip

`SetTip` from any chain to any entry, and the lookups of `CChain` afterwards.  The loop of `SetTip` stops at the first
entry that is in its place: the chain was the path to an entry before, so that everything below is in its place too.
`LastCommonAncestor` of `main.cpp` needs no chain.
-/

namespace Reddcoin

open Forest (Anc Graded path)

namespace CChain

def genesis (v : CChain) : Option Ptr :=
  v[0]?.join

/-- `operator[]`, for heights from 0 on. -/
def at? (v : CChain) (nHeight : Nat) : Option Ptr :=
  v[nHeight]?.join

/-- The chain after calls of `SetTip`, from the empty one. -/
def setTips (m : BlockMap) (calls : List (Option Ptr)) : CChain :=
  calls.foldl (fun v p => v.setTip m p) []

end CChain

/-! ## `LastCommonAncestor` -/

namespace BlockMap

variable (m : BlockMap)

/-- The loop of `LastCommonAncestor`.  Both heights drop in each turn. -/
def lastCommonLoop : Nat → Option Ptr → Option Ptr → Option Ptr × Option Ptr
  | turns + 1, some pa, some pb =>
    if pa ≠ pb then lastCommonLoop turns (m.par pa) (m.par pb) else (some pa, some pb)
  | _, pa, pb => (pa, pb)

/-- `none` where the assertion fails. -/
def lastCommonAncestor (pa pb : Ptr) : Option (Option Ptr) :=
  let levelled :=
    if m.ht pb < m.ht pa then (m.getAncestor pa (m.ht pb), some pb)
    else if m.ht pa < m.ht pb then (some pa, m.getAncestor pb (m.ht pa))
    else (some pa, some pb)
  let met := m.lastCommonLoop (m.ht pa + 1) levelled.1 levelled.2
  if met.1 = met.2 then some met.1 else none

variable {m}

theorem Tree.par_eq_none (hm : m.Tree) {p : Ptr} (hp : p < m.size) (h0 : m.ht p = 0) : m.par p = none := by
  cases hpar : m.par p with
  | none => rfl
  | some q =>
    have hstep := hm.graded.height hp hpar
    omega

theorem Tree.eq_of_height_zero (hm : m.Tree) {a b : Ptr} (ha : a < m.size) (hb : b < m.size) (h0 : m.ht a = 0)
    (h0' : m.ht b = 0) : a = b :=
  hm.root a ha b hb (hm.par_eq_none ha h0) (hm.par_eq_none hb h0')

/-- Two entries of one height go down together until they meet. -/
theorem Tree.lastCommonLoop_eq (hm : m.Tree) {turns : Nat} {a b : Ptr} (ha : a < m.size) (hb : b < m.size)
    (heq : m.ht a = m.ht b) (hturns : m.ht a < turns) :
    ∃ f, m.lastCommonLoop turns (some a) (some b) = (some f, some f) ∧ Anc m.par f a ∧ Anc m.par f b ∧
      ∀ c, Anc m.par c a → Anc m.par c b → Anc m.par c f := by
  induction turns generalizing a b with
  | zero => omega
  | succ turns ih =>
    rw [lastCommonLoop]
    by_cases hab : a = b
    · subst hab
      exact ⟨a, if_neg (fun h => h rfl), .refl a, .refl a, fun c hc _ => hc⟩
    · rw [if_pos hab]
      have hnotzero : m.ht a ≠ 0 := fun h0 => hab (hm.eq_of_height_zero ha hb h0 (by omega))
      have hpara : m.par a ≠ none := fun hroot => hnotzero (hm.graded.root ha hroot)
      have hparb : m.par b ≠ none := fun hroot => by
        have := hm.graded.root hb hroot
        omega
      obtain ⟨a', ha'⟩ := Option.ne_none_iff_exists'.mp hpara
      obtain ⟨b', hb'⟩ := Option.ne_none_iff_exists'.mp hparb
      have hstepa := hm.graded.height ha ha'
      have hstepb := hm.graded.height hb hb'
      rw [ha', hb']
      obtain ⟨f, hf, hfa, hfb, hmax⟩ :=
        ih (hm.graded.closed ha ha') (hm.graded.closed hb hb') (by omega) (by omega)
      refine ⟨f, hf, .step ha' hfa, .step hb' hfb, fun c hca hcb => ?_⟩
      -- A common ancestor of two entries of one height is neither of them.
      rcases (Forest.anc_of_parent ha').mp hca with rfl | hca'
      · exact absurd ((hm.graded.anc_height hb hcb).2 heq) hab
      rcases (Forest.anc_of_parent hb').mp hcb with rfl | hcb'
      · exact absurd ((hm.graded.anc_height ha hca).2 heq.symm).symm hab
      exact hmax c hca' hcb'

theorem Tree.lastCommonAncestor_eq (hm : m.Tree) {p q : Ptr} (hp : p < m.size) (hq : q < m.size) :
    ∃ f, m.lastCommonAncestor p q = some (some f) ∧ Anc m.par f p ∧ Anc m.par f q ∧
      ∀ c, Anc m.par c p → Anc m.par c q → Anc m.par c f := by
  have hlevel : ∃ a b, (if m.ht q < m.ht p then (m.getAncestor p (m.ht q), some q)
        else if m.ht p < m.ht q then (some p, m.getAncestor q (m.ht p)) else (some p, some q)) = (some a, some b) ∧
      Anc m.par a p ∧ Anc m.par b q ∧ m.ht a = min (m.ht p) (m.ht q) ∧ m.ht b = min (m.ht p) (m.ht q) := by
    split_ifs with hlt hgt
    · obtain ⟨a, ha, hheight⟩ := hm.graded.exists_anc hp (show m.ht q ≤ m.ht p by omega)
      rw [(hm.getAncestor_eq_some hp).mpr ⟨ha, hheight⟩]
      exact ⟨a, q, rfl, ha, .refl q, by omega, by omega⟩
    · obtain ⟨b, hb, hheight⟩ := hm.graded.exists_anc hq (show m.ht p ≤ m.ht q by omega)
      rw [(hm.getAncestor_eq_some hq).mpr ⟨hb, hheight⟩]
      exact ⟨p, b, rfl, .refl p, hb, by omega, by omega⟩
    · exact ⟨p, q, rfl, .refl p, .refl q, by omega, by omega⟩
  obtain ⟨a, b, heq, hap, hbq, hha, hhb⟩ := hlevel
  have hturns : m.ht a < m.ht p + 1 := by omega
  obtain ⟨f, hf, hfa, hfb, hmax⟩ := hm.lastCommonLoop_eq (hm.graded.anc_mem hp hap)
    (hm.graded.anc_mem hq hbq) (by omega) hturns
  refine ⟨f, ?_, hfa.trans hap, hfb.trans hbq, fun c hcp hcq => ?_⟩
  · unfold lastCommonAncestor
    dsimp only
    rw [heq, hf]
    exact if_pos rfl
  · have hcheight : m.ht c ≤ m.ht p ∧ m.ht c ≤ m.ht q :=
      ⟨(hm.graded.anc_height hp hcp).1, (hm.graded.anc_height hq hcq).1⟩
    exact hmax c (hm.graded.anc_of_height_le hp hcp hap (by omega))
      (hm.graded.anc_of_height_le hq hcq hbq (by omega))

end BlockMap

/-! ## Any move of the tip -/

namespace CChain

section

variable {m : BlockMap} {v : CChain} {t p : Ptr}

theorem getElem?_resize {n j : Nat} (hj : j < n) :
    (v.resize n)[j]? = if j < v.length then v[j]? else some none := by
  unfold resize
  split_ifs with hlt
  · rw [List.getElem?_append_left (by rw [List.length_take]; omega), List.getElem?_take_of_lt hj]
  · rw [List.take_of_length_le (by omega), List.getElem?_append_right (by omega),
      List.getElem?_replicate_of_lt (by omega)]

theorem EndsAt.setTip (h : EndsAt m v t) (hm : m.Tree) (ht : t < m.size) (hp : p < m.size) :
    EndsAt m (v.setTip m (some p)) p := by
  have hpath : EndsAt m ((path m.par (m.ht p) p).map some) p := rfl
  refine setTip_eq hm hp fun i j hij hj heq => ?_
  obtain ⟨b, hb, hbj⟩ := hm.graded.exists_anc hp hj
  -- What is in its place is an ancestor of the old tip as well, and so is everything below it.
  rw [(hpath.getElem? hm hp j).mpr ⟨hb, hbj⟩, getElem?_resize (by omega)] at heq
  split_ifs at heq with hjv
  · obtain ⟨hbt, -⟩ := (h.getElem? hm ht j).mp heq
    obtain ⟨a, ha, hai⟩ := hm.graded.exists_anc (hm.graded.anc_mem hp hb) (show i ≤ m.ht b by omega)
    rw [getElem?_resize (by omega), if_pos (by omega), (h.getElem? hm ht i).mpr ⟨ha.trans hbt, hai⟩,
      (hpath.getElem? hm hp i).mpr ⟨ha.trans hb, hai⟩]
  · simp at heq

/-- The chain is empty after `SetTip(NULL)`, and the path to the tip after any other call. -/
def Follows (m : BlockMap) (v : CChain) : Option Ptr → Prop
  | none => v = []
  | some t => t < m.size ∧ EndsAt m v t

theorem Follows.setTip {call : Option Ptr} (h : Follows m v call) (hm : m.Tree) {next : Option Ptr}
    (hnext : ∀ p, next = some p → p < m.size) : Follows m (v.setTip m next) next := by
  cases next with
  | none => rfl
  | some p =>
    refine ⟨hnext p rfl, ?_⟩
    cases call with
    | none =>
      obtain rfl : v = [] := h
      exact setTip_nil hm (hnext p rfl)
    | some t => exact h.2.setTip hm h.1 (hnext p rfl)

theorem follows_setTips (hm : m.Tree) {calls : List (Option Ptr)} (hcalls : ∀ p, some p ∈ calls → p < m.size) :
    Follows m (setTips m calls) calls.getLast?.join := by
  induction calls using List.reverseRecOn with
  | nil => rfl
  | append_singleton calls call ih =>
    have hbefore := ih fun p hp => hcalls p (List.mem_append_left _ hp)
    rw [setTips, List.foldl_append, List.getLast?_concat]
    refine hbefore.setTip hm fun p hp => hcalls p ?_
    rw [← hp]
    exact List.mem_append_right _ List.mem_cons_self

end

end CChain

end Reddcoin
