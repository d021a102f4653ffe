import Mathlib.Algebra.BigOperators.Fin
import Reddcoin.Net.AddrManTried

/-!
# `Check_`

The checker of the address manager, and that it has nothing to report after any sequence of calls.
-/

namespace Reddcoin

open List

namespace CAddrMan

/-- The ids of `mapInfo` in order. -/
def ids (s : CAddrMan) : List Nat :=
  s.mapInfo.keys.insertionSort (· ≤ ·)

structure CheckState where
  setTried : Finset Nat
  mapNew : AList fun _ : Nat => Int

/-- The first part of the loop over `mapInfo`. -/
def checkTable (n : Nat) (info : CAddrInfo) (c : CheckState) : Except Int CheckState :=
  if info.fInTried then
    if info.nLastSuccess = 0 then .error (-1)
    else if info.nRefCount ≠ 0 then .error (-2)
    else .ok { c with setTried := insert n c.setTried }
  else if info.nRefCount < 0 ∨ ADDRMAN_NEW_BUCKETS_PER_ADDRESS < info.nRefCount then .error (-3)
  else if info.nRefCount = 0 then .error (-4)
  else .ok { c with mapNew := c.mapNew.insert n info.nRefCount }

/-- The loop over `mapInfo`.  An address that is not in `mapAddr` is given the id 0. -/
def checkInfos (s : CAddrMan) : List Nat → CheckState → Except Int CheckState
  | [], c => .ok c
  | n :: ids, c =>
    match s.mapInfo.lookup n with
    | none => checkInfos s ids c
    | some info =>
      match checkTable n info c with
      | .error e => .error e
      | .ok c =>
        if (s.mapAddr.lookup info.service.addr).getD 0 ≠ n then .error (-5)
        else if info.nRandomPos < 0 ∨ (s.vRandom.length : Int) ≤ info.nRandomPos ∨
            s.vRandom[info.nRandomPos.toNat]? ≠ some n then .error (-14)
        else if info.nLastTry < 0 then .error (-6)
        else if info.nLastSuccess < 0 then .error (-8)
        else checkInfos s ids c

/-- The loop over the tried buckets, one id at a time. -/
def checkTriedId (setTried : Finset Nat) (n : Nat) : Except Int (Finset Nat) :=
  if n ∉ setTried then .error (-11) else .ok (setTried.erase n)

/-- The loop over the new buckets, one id at a time. -/
def checkNewId (mapNew : AList fun _ : Nat => Int) (n : Nat) : Except Int (AList fun _ : Nat => Int) :=
  match mapNew.lookup n with
  | none => .error (-12)
  | some k => .ok (if k - 1 = 0 then mapNew.erase n else mapNew.insert n (k - 1))

def checkAll (s : CAddrMan) : Except Int Unit := do
  if (s.vRandom.length : Int) ≠ s.nTried + s.nNew then throw (-7)
  let c ← s.checkInfos s.ids ⟨∅, ∅⟩
  if (c.setTried.card : Int) ≠ s.nTried then throw (-9)
  if (c.mapNew.keys.length : Int) ≠ s.nNew then throw (-10)
  let setTried ← (List.finRange ADDRMAN_TRIED_BUCKET_COUNT).foldlM (fun c b => (s.vvTried b).foldlM checkTriedId c)
    c.setTried
  let mapNew ← (List.finRange ADDRMAN_NEW_BUCKET_COUNT).foldlM (fun c b => (s.vvNew b).foldlM checkNewId c) c.mapNew
  if setTried.card ≠ 0 then throw (-13)
  if mapNew.keys.length ≠ 0 then throw (-15)

/-- `Check_`. -/
def check (s : CAddrMan) : Int :=
  match s.checkAll with
  | .error e => e
  | .ok () => 0

variable {E : AddrEnv} {s s' : CAddrMan} {id : Nat} {info : CAddrInfo}

/-! ## The loops -/

theorem foldlM_flatMap {α β ε σ : Type} (f : σ → β → Except ε σ) (g : α → List β) (l : List α) (x : σ) :
    l.foldlM (fun x a => (g a).foldlM f x) x = (l.flatMap g).foldlM f x := by
  induction l generalizing x with
  | nil => rfl
  | cons a l ih =>
    rw [foldlM_cons, flatMap_cons, foldlM_append]
    exact bind_congr ih

/-- Every id of the list is taken out of the set. -/
theorem foldlM_checkTriedId (l : List Nat) (set : Finset Nat) (hnodup : l.Nodup) (hmem : ∀ n ∈ l, n ∈ set) :
    l.foldlM checkTriedId set = .ok (set \ l.toFinset) := by
  induction l generalizing set with
  | nil => rw [toFinset_nil, Finset.sdiff_empty, foldlM_nil]; rfl
  | cons n l ih =>
    rw [nodup_cons] at hnodup
    have hn : n ∈ set := hmem n mem_cons_self
    have hrest : ∀ m ∈ l, m ∈ set.erase n := by
      intro m hm
      refine Finset.mem_erase.mpr ⟨?_, hmem m (mem_cons_of_mem n hm)⟩
      rintro rfl
      exact hnodup.1 hm
    have hstep : checkTriedId set n = .ok (set.erase n) := if_neg (not_not_intro hn)
    rw [foldlM_cons, hstep]
    show l.foldlM checkTriedId (set.erase n) = _
    rw [ih (set.erase n) hnodup.2 hrest, toFinset_cons, Finset.sdiff_insert, Finset.erase_sdiff_comm]

/-- The references that are left to an id. -/
def remaining (mapNew : AList fun _ : Nat => Int) (n : Nat) : Int :=
  (mapNew.lookup n).getD 0

/-- Every occurrence of an id in the list takes one reference. -/
theorem foldlM_checkNewId (l : List Nat) (mapNew : AList fun _ : Nat => Int)
    (hpos : ∀ n k, mapNew.lookup n = some k → 0 < k) (henough : ∀ n, (l.count n : Int) ≤ remaining mapNew n) :
    ∃ mapNew', l.foldlM checkNewId mapNew = .ok mapNew' ∧ (∀ n k, mapNew'.lookup n = some k → 0 < k) ∧
      ∀ n, remaining mapNew' n = remaining mapNew n - l.count n := by
  induction l generalizing mapNew with
  | nil => exact ⟨mapNew, rfl, hpos, fun n => by rw [count_nil]; simp⟩
  | cons m l ih =>
    have hm := henough m
    rw [count_cons_self] at hm
    cases hlook : mapNew.lookup m with
    | none =>
      unfold remaining at hm
      rw [hlook] at hm
      push_cast at hm
      simp only [Option.getD_none] at hm
      omega
    | some k =>
      obtain ⟨next, hnext⟩ : ∃ next, (if k - 1 = 0 then mapNew.erase m else mapNew.insert m (k - 1)) = next :=
        ⟨_, rfl⟩
      have hlookNext : ∀ n, next.lookup n =
          if n = m then (if k - 1 = 0 then none else some (k - 1)) else mapNew.lookup n := by
        intro n
        rw [← hnext]
        split_ifs with hzero hn hn
        · rw [hn, AList.lookup_erase]
        · rw [AList.lookup_erase_ne hn]
        · rw [hn, AList.lookup_insert]
        · rw [AList.lookup_insert_ne hn]
      have hremaining : ∀ n, remaining next n = remaining mapNew n - if m = n then 1 else 0 := by
        intro n
        unfold remaining
        rw [hlookNext]
        split_ifs with hn hzero hmn hmn hmn
        · rw [hn, hlook]
          exact hzero.symm
        · exact absurd hn.symm hmn
        · rw [hn, hlook]
          rfl
        · exact absurd hn.symm hmn
        · exact absurd hmn.symm hn
        · rw [Int.sub_zero]
      have hposNext : ∀ n k, next.lookup n = some k → 0 < k := by
        intro n j hj
        rw [hlookNext] at hj
        split_ifs at hj with hn hzero
        · cases hj
          have hkpos := hpos m k hlook
          omega
        · exact hpos n j hj
      obtain ⟨mapNew', heq, hpos', hremaining'⟩ := ih next hposNext (by
        intro n
        have hn := henough n
        rw [count_cons] at hn
        rw [hremaining]
        simp only [beq_iff_eq] at hn
        split_ifs at hn ⊢
        · push_cast at hn
          omega
        · push_cast at hn
          omega)
      refine ⟨mapNew', ?_, hpos', fun n => ?_⟩
      · have hstep : checkNewId mapNew m = .ok next := by
          unfold checkNewId
          simp only [hlook, hnext]
        rw [foldlM_cons, hstep]
        exact heq
      · rw [hremaining', hremaining, count_cons]
        simp only [beq_iff_eq]
        split_ifs
        · push_cast
          omega
        · push_cast
          omega

/-! ## The entries -/

/-- The times of successes are in order: an entry of the tried table has one. -/
def Dated (s : CAddrMan) : Prop :=
  ∀ id info, s.mapInfo.lookup id = some info → 0 ≤ info.nLastSuccess ∧ (info.fInTried = true → info.nLastSuccess ≠ 0)

def Attempted (s : CAddrMan) : Prop :=
  ∀ id info, s.mapInfo.lookup id = some info → 0 ≤ info.nLastTry

/-- What the loop over `mapInfo` has collected of the ids `seen`. -/
structure Collected (s : CAddrMan) (seen : Nat → Prop) (c : CheckState) : Prop where
  tried : ∀ n, n ∈ c.setTried ↔ seen n ∧ ∃ st, s.standing n = some st ∧ st.fInTried = true
  new : ∀ n k, c.mapNew.lookup n = some k ↔
    seen n ∧ ∃ st, s.standing n = some st ∧ st.fInTried = false ∧ st.nRefCount = k

theorem checkTable_spec (ht : s.Tabled E none) (hd : s.Dated) {seen : Nat → Prop} {c : CheckState}
    (hc : s.Collected seen c) (hlook : s.mapInfo.lookup id = some info) :
    ∃ c', checkTable id info c = .ok c' ∧ s.Collected (fun n => n = id ∨ seen n) c' := by
  have hst := standing_of_lookup hlook
  unfold checkTable
  by_cases htried : info.fInTried = true
  · have hrefs : info.nRefCount = 0 := (ht.tried_entry id info.standing hst htried).1
    have hsuccess := (hd id info hlook).2 htried
    rw [if_pos htried, if_neg hsuccess, if_neg (not_not_intro hrefs)]
    refine ⟨_, rfl, fun n => ?_, fun n k => ?_⟩
    · rw [Finset.mem_insert, hc.tried]
      constructor
      · rintro (rfl | ⟨hseen, h⟩)
        · exact ⟨.inl rfl, _, hst, htried⟩
        · exact ⟨.inr hseen, h⟩
      · rintro ⟨rfl | hseen, h⟩
        · exact .inl rfl
        · exact .inr ⟨hseen, h⟩
    · rw [hc.new]
      constructor
      · exact fun h => ⟨.inr h.1, h.2⟩
      · rintro ⟨rfl | hseen, st, hst', hfalse, hk⟩
        · rw [hst] at hst'
          cases hst'
          exact absurd (htried.symm.trans hfalse).symm Bool.false_ne_true
        · exact ⟨hseen, st, hst', hfalse, hk⟩
  · have hfalse : info.fInTried = false := Bool.eq_false_iff.mpr htried
    obtain ⟨-, hpos, hle⟩ := ht.new_entry id info.standing hst hfalse
    have hpos : 1 ≤ info.nRefCount := hpos
    have hle : info.nRefCount ≤ ADDRMAN_NEW_BUCKETS_PER_ADDRESS := hle
    rw [if_neg htried, if_neg (by omega), if_neg (by omega)]
    refine ⟨_, rfl, fun n => ?_, fun n k => ?_⟩
    · rw [hc.tried]
      constructor
      · exact fun h => ⟨.inr h.1, h.2⟩
      · rintro ⟨rfl | hseen, st, hst', hin⟩
        · rw [hst] at hst'
          cases hst'
          exact absurd hin htried
        · exact ⟨hseen, st, hst', hin⟩
    · by_cases hn : n = id
      · rw [hn, AList.lookup_insert]
        constructor
        · exact fun h => ⟨.inl rfl, _, hst, hfalse, Option.some.inj h⟩
        · rintro ⟨-, st, hst', -, hk⟩
          rw [hst] at hst'
          rw [← hk, ← Option.some.inj hst']
          rfl
      · rw [AList.lookup_insert_ne hn, hc.new]
        simp only [hn, false_or]

/-- No entry has anything to report. -/
theorem checkInfos_spec (hi : s.Indexed) (ht : s.Tabled E none) (hd : s.Dated) (ha : s.Attempted) (l : List Nat)
    {seen : Nat → Prop} {c : CheckState} (hc : s.Collected seen c) (hl : ∀ n ∈ l, ∃ info, s.mapInfo.lookup n = some info) :
    ∃ c', s.checkInfos l c = .ok c' ∧ s.Collected (fun n => n ∈ l ∨ seen n) c' := by
  induction l generalizing seen c with
  | nil =>
    refine ⟨c, rfl, ?_⟩
    simp only [not_mem_nil, false_or]
    exact hc
  | cons n l ih =>
    obtain ⟨info, hlook⟩ := hl n mem_cons_self
    obtain ⟨c₁, htable, hc₁⟩ := checkTable_spec ht hd hc hlook
    obtain ⟨c', hrest, hc'⟩ := ih hc₁ fun m hm => hl m (mem_cons_of_mem n hm)
    have haddr := hi.entry_addr n info hlook
    obtain ⟨i, hpos, hat⟩ := hi.entry_random n info hlook
    have hlt := (List.getElem?_eq_some_iff.mp hat).1
    have hplace : ¬ (info.nRandomPos < 0 ∨ (s.vRandom.length : Int) ≤ info.nRandomPos ∨
        s.vRandom[info.nRandomPos.toNat]? ≠ some n) := by
      rw [hpos, Int.toNat_natCast, hat]
      simp only [ne_eq, not_true, or_false]
      omega
    have htry : ¬ info.nLastTry < 0 := Int64.not_lt.mpr (ha n info hlook)
    have hsuccess : ¬ info.nLastSuccess < 0 := Int64.not_lt.mpr (hd n info hlook).1
    refine ⟨c', ?_, ?_⟩
    · unfold checkInfos
      simp only [hlook, htable]
      rw [if_neg (by rw [haddr]; simp), if_neg hplace, if_neg htry, if_neg hsuccess]
      exact hrest
    · have hseen : (fun m => m ∈ n :: l ∨ seen m) = fun m => m ∈ l ∨ m = n ∨ seen m := by
        funext m
        rw [mem_cons, propext or_assoc]
        exact propext or_left_comm
      rw [hseen]
      exact hc'

/-! ## The tables and the counters -/

theorem mem_ids : id ∈ s.ids ↔ ∃ info, s.mapInfo.lookup id = some info := by
  unfold ids
  rw [mem_insertionSort, ← AList.mem_keys, ← AList.lookup_isSome, Option.isSome_iff_exists]

/-- All tried buckets, one after another. -/
def triedIds (s : CAddrMan) : List Nat :=
  (List.finRange ADDRMAN_TRIED_BUCKET_COUNT).flatMap s.vvTried

/-- All new buckets, one after another. -/
def newIds (s : CAddrMan) : List Nat :=
  (List.finRange ADDRMAN_NEW_BUCKET_COUNT).flatMap s.vvNew

theorem Tabled.mem_triedIds (ht : s.Tabled E none) :
    id ∈ s.triedIds ↔ ∃ st, s.standing id = some st ∧ st.fInTried = true := by
  unfold triedIds
  rw [mem_flatMap]
  constructor
  · rintro ⟨b, -, hmem⟩
    obtain ⟨st, hst, hin, -⟩ := ht.tried_id b id hmem
    exact ⟨st, hst, hin⟩
  · rintro ⟨st, hst, hin⟩
    exact ⟨_, mem_finRange _, (ht.tried_entry id st hst hin).2⟩

theorem Tabled.nodup_triedIds (ht : s.Tabled E none) : s.triedIds.Nodup := by
  unfold triedIds
  rw [nodup_flatMap]
  refine ⟨fun b _ => ht.tried_nodup b, (nodup_finRange _).imp fun {b c} hbc => ?_⟩
  intro n hb hc
  obtain ⟨st, hst, -, hbucket⟩ := ht.tried_id b n hb
  obtain ⟨st', hst', -, hbucket'⟩ := ht.tried_id c n hc
  rw [hst] at hst'
  cases hst'
  rw [hbucket] at hbucket'
  exact hbc hbucket'

theorem Tabled.length_triedIds (ht : s.Tabled E none) : (s.triedIds.length : Int) = s.nTried := by
  rw [ht.tried_count]
  unfold triedIds
  rw [length_flatMap, ← Fin.sum_univ_def]
  push_cast
  rfl

theorem Tabled.count_newIds (ht : s.Tabled E none) (id : Nat) : s.newIds.count id = s.references id := by
  unfold newIds references
  rw [count_flatMap]
  generalize List.finRange ADDRMAN_NEW_BUCKET_COUNT = l
  induction l with
  | nil => rfl
  | cons b l ih =>
    have hhead : (List.count id ∘ s.vvNew) b = if decide (id ∈ s.vvNew b) = true then 1 else 0 := by
      rw [Function.comp, (ht.new_nodup b).count]
      simp only [decide_eq_true_eq]
    rw [map_cons, sum_cons, ih, countP_cons, hhead, Nat.add_comm]

theorem Indexed.nodup_vRandom (hi : s.Indexed) : s.vRandom.Nodup := by
  rw [nodup_iff_getElem?_ne_getElem?]
  intro i j hij hj heq
  have hat := getElem?_eq_getElem hj
  exact hi.ne_of_ne (heq.trans hat) hat (Nat.ne_of_lt hij) rfl

theorem Indexed.mem_vRandom (hi : s.Indexed) : id ∈ s.vRandom ↔ ∃ info, s.mapInfo.lookup id = some info := by
  rw [mem_iff_getElem?]
  constructor
  · rintro ⟨i, hat⟩
    obtain ⟨info, hlook, -⟩ := hi.random_entry i id hat
    exact ⟨info, hlook⟩
  · rintro ⟨info, hlook⟩
    obtain ⟨i, -, hat⟩ := hi.entry_random id info hlook
    exact ⟨i, hat⟩

/-- The counters are the numbers of entries in the two tables. -/
theorem Collected.sizes (hi : s.Indexed) (ht : s.Tabled E none) {c : CheckState}
    (hc : s.Collected (fun n => n ∈ s.ids) c) :
    c.setTried = s.triedIds.toFinset ∧ (c.setTried.card : Int) = s.nTried ∧ (c.mapNew.keys.length : Int) = s.nNew := by
  have hset : c.setTried = s.triedIds.toFinset := by
    ext n
    rw [mem_toFinset, ht.mem_triedIds, hc.tried, mem_ids]
    constructor
    · exact fun h => h.2
    · rintro ⟨st, hst, hin⟩
      obtain ⟨info, hlook, -⟩ := lookup_of_standing hst
      exact ⟨⟨info, hlook⟩, st, hst, hin⟩
  have hcard : c.setTried.card = s.triedIds.length := by
    rw [hset, toFinset_card_of_nodup ht.nodup_triedIds]
  have hcard' : (c.setTried.card : Int) = s.nTried := by
    rw [hcard]
    exact ht.length_triedIds
  refine ⟨hset, hcard', ?_⟩
  -- An id is in the vector of all ids just when it is in one of the two collections.
  have hmemNew : ∀ n, n ∈ c.mapNew.keys ↔ ∃ st, s.standing n = some st ∧ st.fInTried = false := by
    intro n
    rw [← AList.mem_keys, ← AList.lookup_isSome, Option.isSome_iff_exists]
    constructor
    · rintro ⟨k, hk⟩
      obtain ⟨-, st, hst, hfalse, -⟩ := (hc.new n k).mp hk
      exact ⟨st, hst, hfalse⟩
    · rintro ⟨st, hst, hfalse⟩
      obtain ⟨info, hlook, -⟩ := lookup_of_standing hst
      exact ⟨st.nRefCount, (hc.new n _).mpr ⟨mem_ids.mpr ⟨info, hlook⟩, st, hst, hfalse, rfl⟩⟩
  have hdisjoint : List.Disjoint s.triedIds c.mapNew.keys := by
    intro n htried hnew
    obtain ⟨st, hst, hin⟩ := ht.mem_triedIds.mp htried
    obtain ⟨st', hst', hfalse⟩ := (hmemNew n).mp hnew
    rw [hst] at hst'
    cases hst'
    rw [hin] at hfalse
    exact Bool.false_ne_true hfalse.symm
  have hperm : (s.triedIds ++ c.mapNew.keys).Perm s.vRandom := by
    rw [perm_ext_iff_of_nodup (ht.nodup_triedIds.append c.mapNew.keys_nodup hdisjoint) hi.nodup_vRandom]
    intro n
    rw [mem_append, ht.mem_triedIds, hmemNew, hi.mem_vRandom]
    constructor
    · rintro (⟨st, hst, -⟩ | ⟨st, hst, -⟩)
      · exact (lookup_of_standing hst).imp fun info h => h.1
      · exact (lookup_of_standing hst).imp fun info h => h.1
    · rintro ⟨info, hlook⟩
      cases hin : info.fInTried with
      | true => exact .inl ⟨_, standing_of_lookup hlook, hin⟩
      | false => exact .inr ⟨_, standing_of_lookup hlook, hin⟩
  have hlength := hperm.length_eq
  rw [length_append] at hlength
  have hcount := ht.count
  omega

/-- A state in order has nothing to report. -/
theorem check_eq_zero (hi : s.Indexed) (ht : s.Tabled E none) (hd : s.Dated) (ha : s.Attempted) : s.check = 0 := by
  have hempty : s.Collected (fun _ => False) ⟨∅, ∅⟩ := ⟨fun n => by simp, fun n k => by simp⟩
  obtain ⟨c, hinfos, hc⟩ := checkInfos_spec hi ht hd ha s.ids hempty fun n hn => mem_ids.mp hn
  simp only [or_false] at hc
  obtain ⟨hset, htried, hnew⟩ := hc.sizes hi ht
  have hloopTried : s.triedIds.foldlM checkTriedId c.setTried = .ok ∅ := by
    rw [foldlM_checkTriedId _ _ ht.nodup_triedIds fun n hn => by rw [hset]; exact mem_toFinset.mpr hn, hset,
      Finset.sdiff_self]
  have hremaining : ∀ n, remaining c.mapNew n = s.newIds.count n := by
    intro n
    rw [ht.count_newIds]
    unfold remaining
    cases hlook : c.mapNew.lookup n with
    | some k =>
      obtain ⟨-, st, hst, hfalse, hk⟩ := (hc.new n k).mp hlook
      have hrefs := (ht.new_entry n st hst hfalse).1
      rw [if_neg (Option.some_ne_none n).symm, hk] at hrefs
      rw [Option.getD_some, hrefs, Int.add_zero]
    | none =>
      have hzero : s.references n = 0 := by
        rw [references_eq_zero]
        intro b hmem
        obtain ⟨st, hst, hfalse⟩ := ht.new_id b n hmem
        obtain ⟨info, hinfo, -⟩ := lookup_of_standing hst
        have hsome := (hc.new n st.nRefCount).mpr ⟨mem_ids.mpr ⟨info, hinfo⟩, st, hst, hfalse, rfl⟩
        rw [hlook] at hsome
        exact absurd hsome.symm (Option.some_ne_none _)
      rw [hzero]
      rfl
  have hpos : ∀ n k, c.mapNew.lookup n = some k → 0 < k := by
    intro n k hk
    obtain ⟨-, st, hst, hfalse, hk⟩ := (hc.new n k).mp hk
    have hone := (ht.new_entry n st hst hfalse).2.1
    omega
  obtain ⟨mapNew, hloopNew, hpos', hremaining'⟩ := foldlM_checkNewId s.newIds c.mapNew hpos fun n =>
    (hremaining n).ge
  have hnone : mapNew.keys.length = 0 := by
    rw [length_eq_zero_iff, eq_nil_iff_forall_not_mem]
    intro n hn
    rw [← AList.mem_keys, ← AList.lookup_isSome, Option.isSome_iff_exists] at hn
    obtain ⟨k, hk⟩ := hn
    have hzero := hremaining' n
    rw [hremaining, Int.sub_self] at hzero
    unfold remaining at hzero
    rw [hk, Option.getD_some] at hzero
    exact absurd (hpos' n k hk) (by rw [hzero]; exact Int.lt_irrefl 0)
  have htriedBuckets := (foldlM_flatMap checkTriedId s.vvTried (List.finRange _) c.setTried).trans hloopTried
  have hnewBuckets := (foldlM_flatMap checkNewId s.vvNew (List.finRange _) c.mapNew).trans hloopNew
  have hall : s.checkAll = .ok () := by
    unfold checkAll
    rw [if_neg (not_not_intro ht.count), hinfos]
    show (if (c.setTried.card : Int) ≠ s.nTried then _ else _) = _
    rw [if_neg (not_not_intro htried), if_neg (not_not_intro hnew), htriedBuckets]
    show (_ >>= fun mapNew => _) = _
    rw [hnewBuckets]
    show (if mapNew.keys.length ≠ 0 then _ else _) = _
    rw [if_neg (not_not_intro hnone)]
    rfl
  unfold check
  rw [hall]

/-! ## Runs -/

theorem Stepped.dated {call : AddrCall} (h : Stepped E call s s') (hd : s.Dated)
    (hgood : ∀ addr nTime, call = .good addr nTime → 0 < nTime) : s'.Dated := by
  intro id e' he'
  cases h.stamped id e' he' with
  | kept e look nLastTry nLastSuccess tried | attempt addr nTime call_eq e look nLastTry nLastSuccess tried =>
    rw [nLastSuccess]
    exact ⟨(hd id e look).1, fun hin => (hd id e look).2 (tried hin)⟩
  | created nLastTry nLastSuccess tried =>
    rw [nLastSuccess, tried]
    exact ⟨Int64.le_refl 0, fun hin => absurd hin Bool.false_ne_true⟩
  | good addr nTime call_eq nLastTry nLastSuccess =>
    have hpos := hgood addr nTime call_eq
    rw [nLastSuccess]
    exact ⟨Int64.le_of_lt hpos, fun _ => (Int64.ne_of_lt hpos).symm⟩

theorem Stepped.attempted {call : AddrCall} (h : Stepped E call s s') (ha : s.Attempted)
    (hgood : ∀ addr nTime, call = .good addr nTime → 0 < nTime)
    (hattempt : ∀ addr nTime, call = .attempt addr nTime → 0 ≤ nTime) : s'.Attempted := by
  intro id e' he'
  cases h.stamped id e' he' with
  | kept e look nLastTry nLastSuccess tried =>
    rw [nLastTry]
    exact ha id e look
  | created nLastTry nLastSuccess tried =>
    rw [nLastTry]
    exact Int64.le_refl 0
  | good addr nTime call_eq nLastTry nLastSuccess =>
    rw [nLastTry]
    exact Int64.le_of_lt (hgood addr nTime call_eq)
  | attempt addr nTime call_eq e look nLastTry nLastSuccess tried =>
    rw [nLastTry]
    exact hattempt addr nTime call_eq

/-- A run never stops, and what every call keeps holds at its end. -/
theorem run_spec {P : CAddrMan → Prop} {A : AddrCall → Prop}
    (hstep : ∀ s s' call, A call → Stepped E call s s' → P s → P s') (calls : List AddrCall)
    (hcalls : ∀ call ∈ calls, A call) (hi : s.Indexed) (ht : s.Tabled E none) (hP : P s) :
    ∃ s', s.run E calls = some s' ∧ s'.Indexed ∧ s'.Tabled E none ∧ P s' := by
  induction calls generalizing s with
  | nil => exact ⟨s, rfl, hi, ht, hP⟩
  | cons call calls ih =>
    obtain ⟨t, hone, hstepped⟩ := step_spec hi ht call
    obtain ⟨s', hrun, hs'⟩ := ih (fun c hc => hcalls c (mem_cons_of_mem call hc)) hstepped.indexed
      hstepped.tabled (hstep s t call (hcalls call mem_cons_self) hstepped hP)
    refine ⟨s', ?_, hs'⟩
    unfold CAddrMan.run
    rw [foldlM_cons, hone]
    exact hrun

/-- Every tried id is in the bucket of its address, and no bucket is too large. -/
def Bucketed (E : AddrEnv) (s : CAddrMan) : Prop :=
  (∀ id info, s.mapInfo.lookup id = some info → ∀ b, id ∈ s.vvTried b ↔
    info.fInTried = true ∧ CAddrInfo.getTriedBucket E s.nKey info.service = b) ∧
  (∀ b, (s.vvTried b).length ≤ ADDRMAN_TRIED_BUCKET_SIZE) ∧ ∀ b, (s.vvNew b).length ≤ ADDRMAN_NEW_BUCKET_SIZE

theorem Tabled.bucketed (ht : s.Tabled E none) : s.Bucketed E := by
  refine ⟨fun id info hlook b => ⟨fun hmem => ?_, ?_⟩, ht.tried_size, ht.new_size⟩
  · obtain ⟨st, hst, hin, hbucket⟩ := ht.tried_id b id hmem
    rw [standing_of_lookup hlook] at hst
    cases hst
    exact ⟨hin, hbucket⟩
  · rintro ⟨hin, rfl⟩
    exact (ht.tried_entry id info.standing (standing_of_lookup hlook) hin).2

/-- No assertion fails in any sequence of calls, and `Check_` has nothing to report after it. -/
theorem run_check (E : AddrEnv) (nKey : List UInt8) (calls : List AddrCall)
    (hgood : ∀ addr nTime, .good addr nTime ∈ calls → 0 < nTime)
    (hattempt : ∀ addr nTime, .attempt addr nTime ∈ calls → 0 ≤ nTime) :
    ∃ s, (new nKey).run E calls = some s ∧ s.check = 0 ∧ s.Bucketed E := by
  obtain ⟨s, hrun, hi, ht, hd, ha⟩ := run_spec (E := E) (s := new nKey) (P := fun s => s.Dated ∧ s.Attempted)
    (A := fun call => (∀ addr nTime, call = .good addr nTime → 0 < nTime) ∧
      ∀ addr nTime, call = .attempt addr nTime → 0 ≤ nTime)
    (fun s s' call hcall h hs => ⟨h.dated hs.1 hcall.1, h.attempted hs.2 hcall.1 hcall.2⟩) calls
    (fun call hmem => ⟨fun addr nTime h => hgood addr nTime (h ▸ hmem), fun addr nTime h =>
      hattempt addr nTime (h ▸ hmem)⟩) (indexed_new nKey) (tabled_new nKey)
    ⟨fun id info h => by simp [new] at h, fun id info h => by simp [new] at h⟩
  exact ⟨s, hrun, check_eq_zero hi ht hd ha, ht.bucketed⟩

namespace AddrManExample

/-- 8.8.8.8 -/
def addr : CNetAddr := ⟨[0, 0, 0, 0, 0, 0, 0, 0, 0, 0, 0xff, 0xff, 8, 8, 8, 8], rfl⟩
def service : CService := ⟨addr, 45444⟩
def address : CAddress := ⟨service, 1, 1000, 0⟩

def env : AddrEnv where
  hash bytes := bytes.foldl (fun h b => (31 * h + b.toNat) % 2 ^ 64) 7
  getRand n := 5 * n
  getAdjustedTime _ := 2000

end AddrManExample

open AddrManExample in
theorem run_check_example :
    ∃ s, (new [1, 2]).run env [.add address addr 0, .good service 1500, .attempt service 1600, .connected service 2500,
      .getAddr] = some s ∧ s.check = 0 ∧ s.Bucketed env :=
  run_check env [1, 2] _ (by simp) (by simp)

open AddrManExample in
/-- An attempt at a negative time is reported. -/
theorem attempt_reported :
    ¬ ∀ (E : AddrEnv) (nKey : List UInt8) (calls : List AddrCall),
      (∀ addr nTime, .good addr nTime ∈ calls → 0 < nTime) →
      ∃ s, (new nKey).run E calls = some s ∧ s.check = 0 ∧ s.Bucketed E := by
  intro h
  obtain ⟨s, hrun, hcheck, -⟩ := h env [1, 2] [.add address addr 0, .attempt service (-1)] (by simp)
  have hreport : ((new [1, 2]).run env [.add address addr 0, .attempt service (-1)]).map check = some (-6) := by
    decide +kernel
  rw [hrun, Option.map_some, hcheck] at hreport
  exact absurd hreport (by decide)

end CAddrMan

end Reddcoin
