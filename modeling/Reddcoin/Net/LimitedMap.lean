import Mathlib.Data.List.Sort

/-!
# The limited map

`limitedmap` of `limitedmap.h`: `map` holds the elements, `rmap` their positions in the order of their values, and an
element that fills `map` up to its limit evicts a least one. A failed `assert(0)` and a read of what is not there are
`none`.
-/

namespace Reddcoin
namespace LimitedMap

variable {K V : Type}

/-- An element of `map`. The position stands for the iterator to it: no two elements ever get the same. -/
structure Element (K V : Type) where
  position : Nat
  key : K
  value : V
  deriving DecidableEq

/-- What `rmap` holds of an element. -/
def Element.ref (e : Element K V) : V × Nat := (e.value, e.position)

/-! ## The two containers -/

variable [LinearOrder V]

/-- `rmap.insert` puts an entry behind those of its value. -/
def insertRef (r : V × Nat) (rmap : List (V × Nat)) : List (V × Nat) :=
  rmap.orderedInsert (·.1 < ·.1) r

def equalRange (v : V) (rmap : List (V × Nat)) : List (V × Nat) :=
  rmap.filter (·.1 = v)

/-- The loop of `erase` and `update` over the equal range, up to `rmap.erase(it)`. -/
def eraseRef (target : Element K V) (rmap : List (V × Nat)) : Option (List (V × Nat)) := do
  let it ← (equalRange target.value rmap).find? (·.2 = target.position)
  return rmap.erase it

/-- `rmap` has one entry for each element, in the order of the values. -/
structure Matched (map : List (Element K V)) (rmap : List (V × Nat)) : Prop where
  nodup : (map.map Element.position).Nodup
  perm : rmap.Perm (map.map Element.ref)
  sorted : rmap.Pairwise (·.1 ≤ ·.1)

section

variable {map : List (Element K V)} {rmap : List (V × Nat)} {e : Element K V}

theorem pairwise_insertRef (r : V × Nat) (h : rmap.Pairwise (·.1 ≤ ·.1)) :
    (insertRef r rmap).Pairwise (·.1 ≤ ·.1) := by
  induction rmap with
  | nil => simp [insertRef]
  | cons a rmap ih =>
    obtain ⟨ha, hrmap⟩ := List.pairwise_cons.mp h
    simp only [insertRef, List.orderedInsert_cons]
    split_ifs with hlt
    · exact h.cons (List.forall_mem_cons.mpr ⟨hlt.le, fun b hb => hlt.le.trans (ha b hb)⟩)
    · refine (ih hrmap).cons fun b hb => ?_
      obtain rfl | hb := (List.mem_orderedInsert _).mp hb
      · exact not_lt.mp hlt
      · exact ha b hb

namespace Matched

theorem add (h : Matched map rmap) (hnew : ∀ o ∈ map, o.position ≠ e.position) :
    Matched (e :: map) (insertRef e.ref rmap) := by
  refine ⟨List.nodup_cons.mpr ⟨by simpa using hnew, h.nodup⟩, ?_, pairwise_insertRef e.ref h.sorted⟩
  exact (List.perm_orderedInsert _ e.ref rmap).trans (h.perm.cons _)

theorem mem_ref (h : Matched map rmap) (he : e ∈ map) : e.ref ∈ rmap :=
  h.perm.mem_iff.mpr (List.mem_map_of_mem he)

/-- The first entry of `rmap` is that of a least element. -/
theorem first (h : Matched map rmap) (hne : map ≠ []) :
    ∃ e ∈ map, rmap.head? = some e.ref ∧ rmap.tail = rmap.erase e.ref ∧ ∀ o ∈ map, e.value ≤ o.value := by
  cases rmap with
  | nil => exact absurd (by simpa using h.perm.symm.eq_nil) hne
  | cons r rmap =>
    obtain ⟨e, he, rfl⟩ := List.mem_map.mp (h.perm.mem_iff.mp List.mem_cons_self)
    refine ⟨e, he, rfl, by simp, fun o ho => ?_⟩
    obtain heq | hmem := List.mem_cons.mp (h.mem_ref ho)
    · exact (congrArg Prod.fst heq).ge
    · exact (List.pairwise_cons.mp h.sorted).1 _ hmem

theorem eraseRef (h : Matched map rmap) (he : e ∈ map) : eraseRef e rmap = some (rmap.erase e.ref) := by
  have hmem : e.ref ∈ equalRange e.value rmap := by
    simpa [equalRange] using ⟨h.mem_ref he, rfl⟩
  cases hit : (equalRange e.value rmap).find? (·.2 = e.position) with
  | none => exact absurd (List.find?_eq_none.mp hit _ hmem) (by simp [Element.ref])
  | some it =>
    have hvalue : it.1 = e.value := by
      simpa using (List.mem_filter.mp (List.mem_of_find?_eq_some hit)).2
    have hposition : it.2 = e.position := by simpa using List.find?_some hit
    simp [LimitedMap.eraseRef, hit, show it = e.ref from Prod.ext hvalue hposition]

theorem erase [DecidableEq K] (h : Matched map rmap) (he : e ∈ map) : Matched (map.erase e) (rmap.erase e.ref) := by
  refine ⟨h.nodup.sublist (List.erase_sublist.map _), ?_, h.sorted.sublist List.erase_sublist⟩
  exact ((List.perm_cons_erase (h.mem_ref he)).symm.trans
    (h.perm.trans ((List.perm_cons_erase he).map _))).cons_inv

end Matched
end
end LimitedMap

open LimitedMap (Element)

/-- The lists stand for `map`, in any order, and for `rmap`, in its own. -/
structure LimitedMap (K V : Type) where
  map : List (Element K V)
  rmap : List (V × Nat)
  nMaxSize : Nat
  /-- how many positions have been given out -/
  positions : Nat
  /-- what has been evicted, each with the elements there were but the one being inserted -/
  evictions : List (Element K V × List (Element K V))

namespace LimitedMap

/-- The constructor. -/
def new (K V : Type) (nMaxSizeIn : Nat) : LimitedMap K V := ⟨[], [], nMaxSizeIn, 0, []⟩

inductive Op (K V : Type) where
  | insert (k : K) (v : V)
  | erase (k : K)
  | update (k : K) (v : V)
  | maxSize (s : Nat)

variable {K V : Type} [DecidableEq K] [LinearOrder V]

/-- `map.erase(rmap.begin()->second); rmap.erase(rmap.begin());` -/
def evictFirst (others : List (Element K V)) (m : LimitedMap K V) : Option (LimitedMap K V) := do
  let first ← m.rmap.head?
  let e ← m.map.find? (·.position = first.2)
  return { m with map := m.map.erase e, rmap := m.rmap.tail, evictions := (e, others) :: m.evictions }

def insert (k : K) (v : V) (m : LimitedMap K V) : Option (LimitedMap K V) :=
  if m.map.any (·.key = k) then some m
  else do
    let added := { m with map := ⟨m.positions, k, v⟩ :: m.map, positions := m.positions + 1 }
    let kept ← if added.nMaxSize ≠ 0 ∧ added.map.length = added.nMaxSize then added.evictFirst m.map else some added
    return { kept with rmap := insertRef (v, m.positions) kept.rmap }

def erase (k : K) (m : LimitedMap K V) : Option (LimitedMap K V) :=
  match m.map.find? (·.key = k) with
  | none => some m
  | some target => do
    let rmap ← eraseRef target m.rmap
    return { m with map := m.map.erase target, rmap }

def update (k : K) (v : V) (m : LimitedMap K V) : Option (LimitedMap K V) :=
  match m.map.find? (·.key = k) with
  | none => some m
  | some target => do
    let rmap ← eraseRef target m.rmap
    let changed := { target with value := v }
    return { m with map := changed :: m.map.erase target, rmap := insertRef changed.ref rmap }

/-- The loop of `max_size`, which takes an element out of `map` in every turn: there are at most as many as elements. -/
def shrink (s : Nat) : Nat → LimitedMap K V → Option (LimitedMap K V)
  | 0, m => some m
  | turns + 1, m => if s < m.map.length then m.evictFirst m.map >>= shrink s turns else some m

def maxSize (s : Nat) (m : LimitedMap K V) : Option (LimitedMap K V) := do
  let shrunk ← if s ≠ 0 then m.shrink s m.map.length else some m
  return { shrunk with nMaxSize := s }

def step (m : LimitedMap K V) : Op K V → Option (LimitedMap K V)
  | .insert k v => m.insert k v
  | .erase k => m.erase k
  | .update k v => m.update k v
  | .maxSize s => m.maxSize s

/-! ## What is kept -/

structure Inv (m : LimitedMap K V) : Prop where
  matched : Matched m.map m.rmap
  fresh : ∀ e ∈ m.map, e.position < m.positions
  least : ∀ r ∈ m.evictions, r.1 ∈ r.2 ∧ ∀ o ∈ r.2, r.1.value ≤ o.value

def Bounded (m : LimitedMap K V) : Prop := 0 < m.nMaxSize → m.map.length ≤ m.nMaxSize

variable {m : LimitedMap K V}

theorem evictFirst_spec {others : List (Element K V)} (h : Matched others m.rmap) (hne : others ≠ [])
    (hnodup : (m.map.map Element.position).Nodup) (hsub : others ⊆ m.map) :
    ∃ e ∈ others, (∀ o ∈ others, e.value ≤ o.value) ∧ m.evictFirst others = some
      { m with map := m.map.erase e, rmap := m.rmap.erase e.ref, evictions := (e, others) :: m.evictions } := by
  obtain ⟨e, he, hhead, htail, hleast⟩ := h.first hne
  refine ⟨e, he, hleast, ?_⟩
  cases hfind : m.map.find? (·.position = e.position) with
  | none => exact absurd (List.find?_eq_none.mp hfind e (hsub he)) (by simp)
  | some o =>
    have hposition : o.position = e.position := by simpa using List.find?_some hfind
    obtain rfl := List.inj_on_of_nodup_map hnodup (List.mem_of_find?_eq_some hfind) (hsub he) hposition
    simp [evictFirst, hhead, htail, Element.ref, hfind]

theorem shrink_spec (s turns : Nat) (h : m.Inv) (hturns : m.map.length ≤ s + turns) :
    ∃ m', m.shrink s turns = some m' ∧ m'.Inv ∧ m'.map.length ≤ s := by
  induction turns generalizing m with
  | zero => exact ⟨m, rfl, h, hturns⟩
  | succ turns ih =>
    simp only [shrink]
    split_ifs with hlt
    · obtain ⟨e, he, hleast, hevict⟩ := evictFirst_spec h.matched (List.length_pos_iff.mp (by omega)) h.matched.nodup
        (List.Subset.refl _)
      rw [hevict, Option.bind_eq_bind, Option.bind_some]
      refine ih ⟨h.matched.erase he, fun o ho => h.fresh o (List.mem_of_mem_erase ho), ?_⟩ ?_
      · exact List.forall_mem_cons.mpr ⟨⟨he, hleast⟩, h.least⟩
      · show (m.map.erase e).length ≤ s + turns
        rw [List.length_erase_of_mem he]
        omega
    · exact ⟨m, rfl, h, by omega⟩

theorem maxSize_spec (h : m.Inv) (s : Nat) : ∃ m', m.maxSize s = some m' ∧ m'.Inv ∧ m'.Bounded := by
  by_cases hs : s = 0
  · exact ⟨{ m with nMaxSize := s }, by simp [maxSize, hs], ⟨h.matched, h.fresh, h.least⟩,
      fun hpos => absurd hs hpos.ne'⟩
  · obtain ⟨m', hm', hinv, hle⟩ := shrink_spec s m.map.length h (by omega)
    exact ⟨{ m' with nMaxSize := s }, by simp [maxSize, hs, hm'], ⟨hinv.matched, hinv.fresh, hinv.least⟩, fun _ => hle⟩

theorem erase_spec (h : m.Inv) (hb : m.Bounded) (k : K) : ∃ m', m.erase k = some m' ∧ m'.Inv ∧ m'.Bounded := by
  unfold erase
  split
  · exact ⟨m, rfl, h, hb⟩
  · rename_i target hfind
    have hmem := List.mem_of_find?_eq_some hfind
    rw [h.matched.eraseRef hmem]
    refine ⟨_, rfl, ⟨h.matched.erase hmem, ?_, h.least⟩, fun hpos => ?_⟩
    · exact fun o ho => h.fresh o (List.mem_of_mem_erase ho)
    · exact List.erase_sublist.length_le.trans (hb hpos)

theorem update_spec (h : m.Inv) (hb : m.Bounded) (k : K) (v : V) :
    ∃ m', m.update k v = some m' ∧ m'.Inv ∧ m'.Bounded := by
  unfold update
  split
  · exact ⟨m, rfl, h, hb⟩
  · rename_i target hfind
    have hmem := List.mem_of_find?_eq_some hfind
    have hperm := List.perm_cons_erase hmem
    have hother : ∀ o ∈ m.map.erase target, o.position ≠ target.position := by
      simpa using (List.nodup_cons.mp ((hperm.map Element.position).nodup_iff.mp h.matched.nodup)).1
    rw [h.matched.eraseRef hmem]
    refine ⟨_, rfl, ⟨(h.matched.erase hmem).add hother, ?_, h.least⟩, fun hpos => ?_⟩
    · exact List.forall_mem_cons.mpr ⟨h.fresh target hmem, fun o ho => h.fresh o (List.mem_of_mem_erase ho)⟩
    · exact hperm.length_eq.ge.trans (hb hpos)

/-- There is no limit, or one other than 1 that the elements are below. -/
def HasRoom (m : LimitedMap K V) : Op K V → Prop
  | .insert k _ => (∀ e ∈ m.map, e.key ≠ k) → m.nMaxSize = 0 ∨ m.nMaxSize ≠ 1 ∧ m.map.length < m.nMaxSize
  | _ => True

theorem insert_iff (h : m.Inv) (hb : m.Bounded) (k : K) (v : V) :
    (∃ m', m.insert k v = some m' ∧ m'.Inv ∧ m'.Bounded) ↔ m.HasRoom (.insert k v) := by
  unfold insert
  by_cases hk : m.map.any (·.key = k)
  · rw [if_pos hk]
    exact iff_of_true ⟨m, rfl, h, hb⟩ fun hnew => absurd hk (by simpa using hnew)
  have hroom : m.HasRoom (.insert k v) ↔ m.nMaxSize = 0 ∨ m.nMaxSize ≠ 1 ∧ m.map.length < m.nMaxSize :=
    forall_prop_of_true (by simpa using hk)
  rw [if_neg hk, hroom]
  have hnew : ∀ o ∈ m.map, o.position ≠ m.positions := fun o ho => (h.fresh o ho).ne
  have hfresh : ∀ o ∈ (⟨m.positions, k, v⟩ :: m.map : List (Element K V)), o.position < m.positions + 1 :=
    List.forall_mem_cons.mpr ⟨Nat.lt_succ_self _, fun o ho => (h.fresh o ho).trans (Nat.lt_succ_self _)⟩
  have hadd : Matched (⟨m.positions, k, v⟩ :: m.map) (insertRef (v, m.positions) m.rmap) := h.matched.add hnew
  by_cases hfull : m.nMaxSize ≠ 0 ∧ m.map.length + 1 = m.nMaxSize
  · simp only [List.length_cons, if_pos hfull]
    by_cases hempty : m.map = []
    · have hrmap : m.rmap = [] := by simpa [hempty] using h.matched.perm
      have hone : m.nMaxSize = 1 := by simpa [hempty] using hfull.2.symm
      simp [evictFirst, hrmap, hone]
    -- the new element is not in `rmap` yet, so another one is evicted
    · obtain ⟨e, he, hleast, hevict⟩ := evictFirst_spec
        (m := { m with map := ⟨m.positions, k, v⟩ :: m.map, positions := m.positions + 1 }) h.matched hempty
        hadd.nodup (List.subset_cons_self _ _)
      rw [hevict]
      have hpos := List.length_pos_iff.mpr hempty
      have herase : (⟨m.positions, k, v⟩ :: m.map).erase e = ⟨m.positions, k, v⟩ :: m.map.erase e :=
        List.erase_cons_tail (by simpa using fun heq => hnew e he (congrArg Element.position heq).symm)
      refine iff_of_true ⟨_, rfl, ⟨?_, ?_, ?_⟩, fun _ => ?_⟩ (by omega)
      · show Matched ((⟨m.positions, k, v⟩ :: m.map).erase e) (insertRef (v, m.positions) (m.rmap.erase e.ref))
        rw [herase]
        exact (h.matched.erase he).add fun o ho => hnew o (List.mem_of_mem_erase ho)
      · exact fun o ho => hfresh o (List.mem_of_mem_erase ho)
      · exact List.forall_mem_cons.mpr ⟨⟨he, hleast⟩, h.least⟩
      · show ((⟨m.positions, k, v⟩ :: m.map).erase e).length ≤ m.nMaxSize
        exact List.erase_sublist.length_le.trans hfull.2.le
  · simp only [List.length_cons, if_neg hfull]
    constructor
    · rintro ⟨m', hm', -, hbounded⟩
      obtain rfl := Option.some.inj hm'
      simp only [Bounded, List.length_cons] at hbounded
      omega
    · intro hroom
      refine ⟨_, rfl, ⟨hadd, hfresh, h.least⟩, fun (hpos : 0 < m.nMaxSize) => ?_⟩
      show m.map.length + 1 ≤ m.nMaxSize
      omega

theorem step_iff (h : m.Inv) (hb : m.Bounded) (op : Op K V) :
    (∃ m', m.step op = some m' ∧ m'.Inv ∧ m'.Bounded) ↔ m.HasRoom op := by
  cases op with
  | insert k v => exact insert_iff h hb k v
  | erase k => exact iff_of_true (erase_spec h hb k) trivial
  | update k v => exact iff_of_true (update_spec h hb k v) trivial
  | maxSize s => exact iff_of_true (maxSize_spec h s) trivial

/-- Every operation ends, and the two containers match, the limit is kept and the evicted were least all along. -/
def Keeps (m : LimitedMap K V) : List (Op K V) → Prop
  | [] => m.Inv ∧ m.Bounded
  | op :: ops => (m.Inv ∧ m.Bounded) ∧ ∃ m', m.step op = some m' ∧ m'.Keeps ops

def AllHaveRoom (m : LimitedMap K V) : List (Op K V) → Prop
  | [] => True
  | op :: ops => m.HasRoom op ∧ ∀ m', m.step op = some m' → m'.AllHaveRoom ops

theorem Keeps.start {ops : List (Op K V)} (h : m.Keeps ops) : m.Inv ∧ m.Bounded := by
  cases ops with
  | nil => exact h
  | cons op ops => exact h.1

theorem keeps_iff_of_inv (h : m.Inv) (hb : m.Bounded) (ops : List (Op K V)) : m.Keeps ops ↔ m.AllHaveRoom ops := by
  induction ops generalizing m with
  | nil => exact iff_of_true ⟨h, hb⟩ trivial
  | cons op ops ih =>
    constructor
    · rintro ⟨-, m', hstep, hkeeps⟩
      obtain ⟨hinv, hbounded⟩ := hkeeps.start
      refine ⟨(step_iff h hb op).mp ⟨m', hstep, hinv, hbounded⟩, fun m'' hstep' => ?_⟩
      obtain rfl := Option.some.inj (hstep.symm.trans hstep')
      exact (ih hinv hbounded).mp hkeeps
    · rintro ⟨hroom, hrest⟩
      obtain ⟨m', hstep, hinv, hbounded⟩ := (step_iff h hb op).mpr hroom
      exact ⟨⟨h, hb⟩, m', hstep, (ih hinv hbounded).mpr (hrest m' hstep)⟩

theorem keeps_iff (nMaxSizeIn : Nat) (ops : List (Op K V)) :
    (new K V nMaxSizeIn).Keeps ops ↔ (new K V nMaxSizeIn).AllHaveRoom ops := by
  refine keeps_iff_of_inv ⟨⟨?_, ?_, ?_⟩, ?_, ?_⟩ (fun _ => Nat.zero_le _) ops <;> simp [new]

/-- With a limit of 1 the first element inserted already takes `rmap.begin()` of an empty `rmap`. -/
theorem limit_one_stops :
    ¬ ∀ (nMaxSizeIn : Nat) (ops : List (Op Nat Nat)), (new Nat Nat nMaxSizeIn).Keeps ops := by
  intro h
  obtain ⟨-, m', hstep, -⟩ := h 1 [.insert 0 0]
  cases hstep

end LimitedMap
end Reddcoin
