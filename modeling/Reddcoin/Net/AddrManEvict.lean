import Reddcoin.Net.AddrManCheck

/-!
# The entry that makes place

`SelectTried` draws a few entries of a bucket to its front and returns the position from which it has drawn the first of
the least recently successful.  `MakeTried` takes what lies at that position after the shuffle.
-/

namespace Reddcoin

namespace CAddrMan

variable {E : AddrEnv} {s s' : CAddrMan} {nId id : Nat} {info : CAddrInfo} {kb : TriedBucket}

/-- The entry is inspected, and no inspected one is less recently successful. -/
def LeastInspected (E : AddrEnv) (s : CAddrMan) (kb : TriedBucket) (id : Nat) : Prop :=
  id ∈ (s.inspected E kb).1.map Prod.fst ∧
    ∀ other ∈ (s.inspected E kb).1.map Prod.fst, s.lastSuccess id ≤ s.lastSuccess other

/-- The bucket is shuffled, and the position of a least recently successful entry is returned. -/
def SelectsLeast (E : AddrEnv) (s : CAddrMan) (kb : TriedBucket) : Prop :=
  ∃ nPos t, s.selectTried E kb = some (some nPos, t) ∧ (t.vvTried kb).Perm (s.vvTried kb) ∧
    ∃ id, (t.vvTried kb)[nPos]? = some id ∧ s.LeastInspected E kb id

/-- The entry `nId` takes the place of a least recently successful one. -/
def EvictsLeast (E : AddrEnv) (s : CAddrMan) (info : CAddrInfo) (nId : Nat) (nOrigin : NewBucket) : Prop :=
  let kb := CAddrInfo.getTriedBucket E s.nKey info.service
  ∃ t id, s.makeTried E info nId nOrigin = some t ∧ (nId :: s.vvTried kb).Perm (id :: t.vvTried kb) ∧
    s.LeastInspected E kb id

/-- The position from which the first least recently successful entry is drawn is the turn's own, or the one of a later
turn that draws an entry as little recently successful. -/
def Retained (E : AddrEnv) (s : CAddrMan) (kb : TriedBucket) : Prop :=
  Draw.Returns s.lastSuccess (s.inspected E kb)

theorem lookup_tried (ht : s.Tabled E none) (hid : id ∈ s.vvTried kb) : ∃ info, s.mapInfo.lookup id = some info := by
  obtain ⟨x, hx, -⟩ := ht.tried_id kb id hid
  obtain ⟨info, hinfo, -⟩ := lookup_of_standing hx
  exact ⟨info, hinfo⟩

theorem nodup_drawn (ht : s.Tabled E none) (kb : TriedBucket) : (Draw.drawn (s.inspected E kb)).Nodup :=
  (Draw.drawn_perm _ _ _ _).nodup_iff.mpr (ht.tried_nodup kb)

theorem selectTried_perm (ht : s.Tabled E none) (kb : TriedBucket) :
    ∃ nPos t, s.selectTried E kb = some (nPos, t) ∧ (t.vvTried kb).Perm (s.vvTried kb) := by
  refine ⟨_, _, selectTried_eq kb s fun id hid => lookup_tried ht hid, ?_⟩
  rw [vvTried_shuffled]
  exact Draw.drawn_perm _ _ _ _

theorem selectsLeast_iff (ht : s.Tabled E none) : SelectsLeast E s kb ↔ Retained E s kb := by
  have hselect := selectTried_eq (E := E) kb s fun id hid => lookup_tried ht hid
  constructor
  · rintro ⟨nPos, t, hsome, -, hleast⟩
    obtain ⟨hpos, rfl⟩ := Prod.mk.inj (Option.mem_unique hselect hsome)
    obtain ⟨p, hp, rfl⟩ := Option.map_eq_some_iff.mp hpos
    rw [vvTried_shuffled] at hleast
    exact (Draw.leastAt_iff (nodup_drawn ht kb) hp).mp hleast
  · intro hreturns
    obtain ⟨p, hp, -⟩ := id hreturns
    obtain ⟨nPos, t, hsome, hperm⟩ := selectTried_perm ht kb
    obtain ⟨hpos, rfl⟩ := Prod.mk.inj (Option.mem_unique hselect hsome)
    refine ⟨p.2, _, by rw [hsome, ← hpos, Option.mem_def.mp hp]; rfl, hperm, ?_⟩
    rw [vvTried_shuffled]
    exact (Draw.leastAt_iff (nodup_drawn ht kb) hp).mpr hreturns

/-- To leave the new buckets changes no time of success. -/
theorem lastSuccess_left (hlook : s.mapInfo.lookup nId = some info) :
    (s.left nId info).lastSuccess = s.lastSuccess := by
  funext id
  rw [lastSuccess, lastSuccess, lookup_left]
  split_ifs with hid
  · rw [hid, hlook]
    rfl
  · rfl

/-- What is set at a position of a permutation of the bucket takes the place of what was there. -/
theorem set_perm_iff {v bucket : List Nat} {n : Nat} (hperm : v.Perm bucket) (hn : n < v.length) :
    (nId :: bucket).Perm (id :: v.set n nId) ↔ v[n]? = some id := by
  have hset : (nId :: bucket).Perm (v[n] :: v.set n nId) :=
    (hperm.symm.cons nId).trans (((List.getElem_cons_eraseIdx_perm hn).symm.cons nId).trans ((List.Perm.swap _ _ _).trans
      ((List.set_perm_cons_eraseIdx hn nId).symm.cons _)))
  rw [List.getElem?_eq_getElem hn, Option.some.injEq]
  constructor
  · intro h
    exact (Multiset.cons_inj_left (v.set n nId : Multiset Nat)).mp (Multiset.coe_eq_coe.mpr (hset.symm.trans h))
  · rintro rfl
    exact hset

theorem evictsLeast_iff {nOrigin : NewBucket} (hi : s.Indexed) (ht : s.Tabled E none)
    (hlook : s.mapInfo.lookup nId = some info) (hnew : info.fInTried = false) (hmem : nId ∈ s.vvNew nOrigin)
    (hfull : (s.vvTried (CAddrInfo.getTriedBucket E s.nKey info.service)).length = ADDRMAN_TRIED_BUCKET_SIZE) :
    EvictsLeast E s info nId nOrigin ↔ Retained E s (CAddrInfo.getTriedBucket E s.nKey info.service) := by
  obtain ⟨nPos, t, s', hselect, hmake, hset, -⟩ := makeTried_evict hi ht hlook hnew hmem hfull
  unfold EvictsLeast
  generalize CAddrInfo.getTriedBucket E s.nKey info.service = kb at hselect hset ⊢
  have hids : ∀ id ∈ s.vvTried kb, ∃ e, (s.left nId info).mapInfo.lookup id = some e := by
    intro id hid
    rw [lookup_left]
    split_ifs
    · exact ⟨_, rfl⟩
    · exact lookup_tried ht hid
  obtain ⟨hpos, rfl⟩ := Prod.mk.inj (Option.some.inj ((selectTried_eq kb _ hids).symm.trans hselect))
  obtain ⟨p, hp, rfl⟩ := Option.map_eq_some_iff.mp hpos
  rw [lastSuccess_left hlook] at hp
  have hperm : (Draw.drawn (s.inspected E kb)).Perm (s.vvTried kb) := Draw.drawn_perm _ _ _ _
  have hlt : p.2 < (Draw.drawn (s.inspected E kb)).length := by
    rw [hperm.length_eq]
    exact Nat.zero_add (s.vvTried kb).length ▸ Draw.position_lt (List.argmin_mem hp)
  have hbucket : s'.vvTried kb = (Draw.drawn (s.inspected E kb)).set p.2 nId := by
    rw [hset, vvTried_shuffled]
    rfl
  rw [Retained, ← Draw.leastAt_iff (nodup_drawn ht kb) hp]
  constructor
  · rintro ⟨t, id, hsome, hexchange, hleast⟩
    cases hmake.symm.trans hsome
    rw [hbucket] at hexchange
    exact ⟨id, (set_perm_iff hperm hlt).mp hexchange, hleast⟩
  · rintro ⟨id, hat, hleast⟩
    refine ⟨s', id, hmake, ?_, hleast⟩
    rw [hbucket]
    exact (set_perm_iff hperm hlt).mpr hat

/-- In a state that is in order, the least recently successful of the inspected entries is selected and evicted only if
what is drawn for it is not moved again. -/
theorem selects_and_evicts_least_iff (hi : s.Indexed) (ht : s.Tabled E none) :
    (∀ kb, SelectsLeast E s kb ↔ Retained E s kb) ∧
      (∀ kb, ∃ nPos t, s.selectTried E kb = some (nPos, t) ∧ (t.vvTried kb).Perm (s.vvTried kb)) ∧
      ∀ nId info nOrigin, s.mapInfo.lookup nId = some info → info.fInTried = false → nId ∈ s.vvNew nOrigin →
        (s.vvTried (CAddrInfo.getTriedBucket E s.nKey info.service)).length = ADDRMAN_TRIED_BUCKET_SIZE →
        (EvictsLeast E s info nId nOrigin ↔ Retained E s (CAddrInfo.getTriedBucket E s.nKey info.service)) :=
  ⟨fun _ => selectsLeast_iff ht, selectTried_perm ht, fun _ _ _ hlook hnew hmem hfull =>
    evictsLeast_iff hi ht hlook hnew hmem hfull⟩

namespace AddrManExample

/-- 9.9.9.9 -/
def other : CAddress := ⟨⟨⟨[0, 0, 0, 0, 0, 0, 0, 0, 0, 0, 0xff, 0xff, 9, 9, 9, 9], rfl⟩, 45444⟩, 1, 1000, 0⟩

/-- All hashes are 7, and the first random number drawn in the shuffle is odd. -/
def oneBucket : AddrEnv where
  hash _ := 7
  getRand n := n + 1
  getAdjustedTime _ := 2000

/-- Two addresses reach one bucket; the second has been tried less recently. -/
def calls : List AddrCall :=
  [.add address addr 0, .good service 1600, .add other addr 0, .good other.service 1500]

/-- The entry at the position 1 goes to the front, and its position is returned. -/
theorem run_calls :
    ∃ s, (new [1, 2]).run oneBucket calls = some s ∧ s.Indexed ∧ s.Tabled oneBucket none ∧
      (s.selectTried oneBucket 7).map (fun r => (r.1, r.2.vvTried 7)) = some (some 1, [1, 0]) ∧
      (s.inspected oneBucket 7).1 = [(1, 1), (0, 1)] ∧ s.lastSuccess 0 = 1600 ∧ s.lastSuccess 1 = 1500 := by
  have hvalues : ((new [1, 2]).run oneBucket calls).map (fun s =>
      ((s.selectTried oneBucket 7).map fun r => (r.1, r.2.vvTried 7), (s.inspected oneBucket 7).1, s.lastSuccess 0,
        s.lastSuccess 1)) = some (some (some 1, [1, 0]), [(1, 1), (0, 1)], 1600, 1500) := by
    decide +kernel
  obtain ⟨s, hrun, hi, ht, -⟩ := run_spec (E := oneBucket) (P := fun _ => True) (A := fun _ => True)
    (fun _ _ _ _ _ _ => trivial) calls (fun _ _ => trivial) (indexed_new [1, 2]) (tabled_new [1, 2]) trivial
  rw [hrun, Option.map_some, Option.some.injEq, Prod.mk.injEq, Prod.mk.injEq, Prod.mk.injEq] at hvalues
  exact ⟨s, hrun, hi, ht, hvalues⟩

end AddrManExample

open AddrManExample in
theorem selects_and_evicts_least_iff_example :
    ∃ s, (new [1, 2]).run oneBucket calls = some s ∧ (SelectsLeast oneBucket s 7 ↔ Retained oneBucket s 7) := by
  obtain ⟨s, hrun, hi, ht, -⟩ := run_calls
  exact ⟨s, hrun, (selects_and_evicts_least_iff hi ht).1 7⟩

open AddrManExample in
/-- The position that is returned holds the more recently successful entry of the two. -/
theorem selects_moved :
    ¬ ∀ (E : AddrEnv) (nKey : List UInt8) (calls : List AddrCall) (s : CAddrMan), (new nKey).run E calls = some s →
      ∀ kb, s.vvTried kb ≠ [] → SelectsLeast E s kb := by
  intro h
  obtain ⟨s, hrun, hi, ht, hselect, hinspected, hfirst, hsecond⟩ := run_calls
  obtain ⟨r, hr, hvalues⟩ := Option.map_eq_some_iff.mp hselect
  have hnonempty : s.vvTried 7 ≠ [] := by
    intro hnil
    rw [inspected, hnil] at hinspected
    cases hinspected
  obtain ⟨nPos, t, hsome, -, id, hat, hleast⟩ := h oneBucket [1, 2] calls s hrun 7 hnonempty
  cases hr.symm.trans hsome
  obtain ⟨hpos, hbucket⟩ := Prod.mk.inj hvalues
  rw [hbucket, ← Option.some.inj hpos.symm] at hat
  obtain rfl : (0 : Nat) = id := Option.some.inj hat
  have hle := hleast.2 1 (by rw [hinspected]; simp)
  rw [hfirst, hsecond] at hle
  exact absurd hle (by decide)

end CAddrMan

end Reddcoin
