import Mathlib.Data.List.GetD
import Reddcoin.Net.AddrManSerialize

/-!
# The address manager after a reload

What `Unserialize` makes of what `Serialize` has written: the same entries in the same buckets, under other ids.
-/

namespace Reddcoin

open Stream List Function

namespace CAddrMan

open Function (update)

variable {E : AddrEnv} {s u v : CAddrMan} {id : Nat} {info : CAddrInfo}

/-! ## The order on disk -/

/-- The entry of an id that is in use. -/
def entry (s : CAddrMan) (id : Nat) : CAddrInfo :=
  (s.mapInfo.lookup id).getD CAddrInfo.empty

def isTried (s : CAddrMan) (id : Nat) : Bool :=
  (s.entry id).fInTried

/-- The ids of the new entries, as they are written. -/
def newList (s : CAddrMan) : List Nat :=
  s.ids.filter fun id => !s.isTried id

/-- The ids of the tried entries, as they are written. -/
def triedList (s : CAddrMan) : List Nat :=
  s.ids.filter s.isTried

/-- All ids as they are written. -/
def diskIds (s : CAddrMan) : List Nat :=
  s.newList ++ s.triedList

/-- The id of an entry after a reload. -/
def renumber (s : CAddrMan) (id : Nat) : Nat :=
  s.diskIds.idxOf id

theorem entry_of_lookup (h : s.mapInfo.lookup id = some info) : s.entry id = info := by
  unfold entry
  rw [h]
  rfl

theorem lookup_entry (h : id ∈ s.ids) : s.mapInfo.lookup id = some (s.entry id) := by
  obtain ⟨info, hlook⟩ := mem_ids.mp h
  rw [entry_of_lookup hlook]
  exact hlook

theorem nodup_ids (s : CAddrMan) : s.ids.Nodup := by
  unfold ids
  rw [(perm_insertionSort _ _).nodup_iff]
  exact s.mapInfo.keys_nodup

theorem diskIds_perm (s : CAddrMan) : s.diskIds.Perm s.ids := by
  unfold diskIds newList triedList
  exact perm_append_comm.trans (filter_append_perm _ _)

theorem nodup_diskIds (s : CAddrMan) : s.diskIds.Nodup :=
  s.diskIds_perm.nodup_iff.mpr s.nodup_ids

theorem Indexed.vRandom_perm (hi : s.Indexed) : s.vRandom.Perm s.diskIds := by
  refine List.Perm.trans ?_ s.diskIds_perm.symm
  rw [perm_ext_iff_of_nodup hi.nodup_vRandom s.nodup_ids]
  intro n
  rw [hi.mem_vRandom, mem_ids]

theorem mem_newList : id ∈ s.newList ↔ ∃ info, s.mapInfo.lookup id = some info ∧ info.fInTried = false := by
  unfold newList
  rw [mem_filter, mem_ids]
  constructor
  · rintro ⟨⟨info, hlook⟩, hnew⟩
    refine ⟨info, hlook, ?_⟩
    unfold isTried at hnew
    rw [entry_of_lookup hlook] at hnew
    simpa using hnew
  · rintro ⟨info, hlook, hnew⟩
    refine ⟨⟨info, hlook⟩, ?_⟩
    unfold isTried
    rw [entry_of_lookup hlook, hnew]
    rfl

theorem mem_triedList : id ∈ s.triedList ↔ ∃ info, s.mapInfo.lookup id = some info ∧ info.fInTried = true := by
  unfold triedList
  rw [mem_filter, mem_ids]
  constructor
  · rintro ⟨⟨info, hlook⟩, htried⟩
    refine ⟨info, hlook, ?_⟩
    unfold isTried at htried
    rw [entry_of_lookup hlook] at htried
    exact htried
  · rintro ⟨info, hlook, htried⟩
    refine ⟨⟨info, hlook⟩, ?_⟩
    unfold isTried
    rw [entry_of_lookup hlook, htried]

theorem Tabled.triedList_perm (ht : s.Tabled E none) : s.triedList.Perm s.triedIds := by
  have hnodup : s.triedList.Nodup := s.nodup_ids.filter s.isTried
  rw [perm_ext_iff_of_nodup hnodup ht.nodup_triedIds]
  intro n
  rw [mem_triedList, ht.mem_triedIds]
  constructor
  · rintro ⟨info, hlook, hin⟩
    exact ⟨_, standing_of_lookup hlook, hin⟩
  · rintro ⟨st, hst, hin⟩
    obtain ⟨info, hlook, rfl⟩ := lookup_of_standing hst
    exact ⟨info, hlook, hin⟩

theorem Tabled.length_triedList (ht : s.Tabled E none) : (s.triedList.length : Int) = s.nTried := by
  rw [ht.triedList_perm.length_eq]
  exact ht.length_triedIds

theorem Tabled.length_newList (hi : s.Indexed) (ht : s.Tabled E none) : (s.newList.length : Int) = s.nNew := by
  have hall := hi.vRandom_perm.length_eq
  unfold diskIds at hall
  rw [length_append] at hall
  have hcount := ht.count
  have htried := ht.length_triedList
  omega

/-- Only a new entry has references. -/
theorem Tabled.nRefCount_ne_zero (ht : s.Tabled E none) (h : id ∈ s.ids) :
    (s.entry id).nRefCount ≠ 0 ↔ s.isTried id = false := by
  have hst := standing_of_lookup (lookup_entry h)
  unfold isTried
  cases htried : (s.entry id).fInTried with
  | true =>
    have hzero : (s.entry id).nRefCount = 0 := (ht.tried_entry id _ hst htried).1
    simp [hzero]
  | false =>
    have hone : 1 ≤ (s.entry id).nRefCount := (ht.new_entry id _ hst htried).2.1
    simp only [iff_true]
    omega

/-! ## Writing -/

theorem writeNewInfos_eq (l : List Nat) (nIds : Nat) (m : Nat → Nat) (hnodup : l.Nodup)
    (hids : ∀ id ∈ l, id ∈ s.ids ∧ ((s.entry id).nRefCount ≠ 0 ↔ s.isTried id = false))
    (hcount : ((nIds + (l.filter fun id => !s.isTried id).length : Nat) : Int) = s.nNew) :
    (s.writeNewInfos l nIds m).1 = (l.filter fun id => !s.isTried id).flatMap (fun id => (s.entry id).write) ∧
      (∀ id ∈ l.filter fun id => !s.isTried id,
        (s.writeNewInfos l nIds m).2 id = nIds + (l.filter fun id => !s.isTried id).idxOf id) ∧
      ∀ id, id ∉ l → (s.writeNewInfos l nIds m).2 id = m id := by
  induction l generalizing nIds m with
  | nil => exact ⟨rfl, fun id h => by simp at h, fun id _ => rfl⟩
  | cons n l ih =>
    obtain ⟨hn, hrefs⟩ := hids n mem_cons_self
    have hids' := fun id hid => hids id (mem_cons_of_mem n hid)
    rw [nodup_cons] at hnodup
    unfold writeNewInfos
    by_cases hend : (nIds : Int) = s.nNew
    · -- All new entries have been written.
      have hnone : (n :: l).filter (fun id => !s.isTried id) = [] := by
        rw [← length_eq_zero_iff]
        omega
      rw [if_pos hend, hnone]
      exact ⟨rfl, fun id h => by simp at h, fun id _ => rfl⟩
    · rw [if_neg hend, lookup_entry hn]
      cases htried : s.isTried n with
      | true =>
        have hzero : ¬ (s.entry n).nRefCount ≠ 0 := by
          rw [hrefs, htried]
          exact Bool.noConfusion
        have hfilter : (n :: l).filter (fun id => !s.isTried id) = l.filter fun id => !s.isTried id :=
          filter_cons_of_neg (by simp [htried])
        rw [hfilter] at hcount ⊢
        simp only [if_neg hzero]
        obtain ⟨hbytes, hindex, hother⟩ := ih nIds (update m n nIds) hnodup.2 hids' hcount
        refine ⟨hbytes, hindex, fun id hid => ?_⟩
        rw [mem_cons, not_or] at hid
        rw [hother id hid.2, update_of_ne hid.1]
      | false =>
        have hnonzero : (s.entry n).nRefCount ≠ 0 := hrefs.mpr htried
        have hfilter : (n :: l).filter (fun id => !s.isTried id) = n :: l.filter fun id => !s.isTried id :=
          filter_cons_of_pos (by simp [htried])
        rw [hfilter] at hcount ⊢
        rw [length_cons] at hcount
        simp only [if_pos hnonzero]
        obtain ⟨hbytes, hindex, hother⟩ := ih (nIds + 1) (update m n nIds) hnodup.2 hids' (by omega)
        refine ⟨?_, fun id hid => ?_, fun id hid => ?_⟩
        · rw [hbytes, flatMap_cons]
        · by_cases hidn : id = n
          · rw [hidn, hother n hnodup.1, update_self, idxOf_cons_self]
            rfl
          · have hmem := (mem_cons.mp hid).resolve_left hidn
            rw [hindex id hmem, idxOf_cons_ne _ (Ne.symm hidn)]
            omega
        · rw [mem_cons, not_or] at hid
          rw [hother id hid.2, update_of_ne hid.1]

theorem writeTriedInfos_eq (l : List Nat) (nIds : Nat) (hids : ∀ id ∈ l, id ∈ s.ids)
    (hcount : ((nIds + (l.filter s.isTried).length : Nat) : Int) = s.nTried) :
    s.writeTriedInfos l nIds = (l.filter s.isTried).flatMap fun id => (s.entry id).write := by
  induction l generalizing nIds with
  | nil => rfl
  | cons n l ih =>
    have hn := hids n mem_cons_self
    have hids' := fun id hid => hids id (mem_cons_of_mem n hid)
    unfold writeTriedInfos
    by_cases hend : (nIds : Int) = s.nTried
    · have hnone : (n :: l).filter s.isTried = [] := by
        rw [← length_eq_zero_iff]
        omega
      rw [if_pos hend, hnone]
      rfl
    · rw [if_neg hend, lookup_entry hn]
      cases htried : s.isTried n with
      | true =>
        have htried' : (s.entry n).fInTried = true := htried
        rw [filter_cons_of_pos htried, length_cons] at hcount
        rw [filter_cons_of_pos htried, flatMap_cons]
        simp only [if_pos htried']
        rw [ih (nIds + 1) hids' (by omega)]
      | false =>
        have hnot : ¬ s.isTried n = true := Bool.eq_false_iff.mp htried
        have htried' : ¬ (s.entry n).fInTried = true := hnot
        rw [filter_cons_of_neg hnot] at hcount
        rw [filter_cons_of_neg hnot]
        simp only [if_neg htried']
        exact ih nIds hids' hcount

/-! ## Loading the entries -/

section Load

variable (f : Nat → CAddrInfo) (m : Nat)

/-- The entry number `j` when it has been loaded; those from `m` on are tried. -/
def loadedInfo (j : Nat) : CAddrInfo :=
  { (f j).stored with nRandomPos := j, fInTried := decide (m ≤ j) }

/-- The numbers below `k` of tried entries in a bucket. -/
def triedBelow (E : AddrEnv) (nKey : List UInt8) (b : TriedBucket) (k : Nat) : List Nat :=
  (List.range k).filter fun j => decide (m ≤ j ∧ CAddrInfo.getTriedBucket E nKey (f j).service = b)

/-- The entries `f 0`, …, `f (k - 1)` have been loaded. -/
structure Loaded (E : AddrEnv) (k : Nat) (v : CAddrMan) : Prop where
  info : ∀ j, v.mapInfo.lookup j = if j < k then some (loadedInfo f m j) else none
  addr : ∀ a j, v.mapAddr.lookup a = some j ↔ j < k ∧ (f j).service.addr = a
  random : v.vRandom = List.range k
  tried : ∀ b, v.vvTried b = triedBelow f m E v.nKey b k
  new : ∀ b, v.vvNew b = []

/-- What is read first stays as it is. -/
structure SameHeader (v v' : CAddrMan) : Prop where
  nKey : v'.nKey = v.nKey
  nNew : v'.nNew = v.nNew
  nTried : v'.nTried = v.nTried

theorem SameHeader.trans {v' v'' : CAddrMan} (h : SameHeader v v') (h' : SameHeader v' v'') : SameHeader v v'' :=
  ⟨h'.nKey.trans h.nKey, h'.nNew.trans h.nNew, h'.nTried.trans h.nTried⟩

variable {f m} {k : Nat}

theorem triedBelow_succ (E : AddrEnv) (nKey : List UInt8) (b : TriedBucket) (k : Nat) :
    triedBelow f m E nKey b (k + 1) = triedBelow f m E nKey b k ++
      if m ≤ k ∧ CAddrInfo.getTriedBucket E nKey (f k).service = b then [k] else [] := by
  unfold triedBelow
  rw [range_succ, filter_append]
  congr 1
  split_ifs with h
  · exact filter_cons_of_pos (decide_eq_true h)
  · exact filter_cons_of_neg (by simpa using h)

/-- The indexes after one more entry. -/
theorem Loaded.lookup_insert (h : v.Loaded f m E k) (j : Nat) :
    (v.mapInfo.insert k (loadedInfo f m k)).lookup j = if j < k + 1 then some (loadedInfo f m j) else none := by
  by_cases hj : j = k
  · rw [hj, AList.lookup_insert, if_pos (Nat.lt_succ_self k)]
  · rw [AList.lookup_insert_ne hj, h.info]
    split_ifs with h₁ h₂ h₂
    · rfl
    · omega
    · omega
    · rfl

theorem Loaded.addr_insert (h : v.Loaded f m E k) (hfresh : ∀ j < k, (f j).service.addr ≠ (f k).service.addr)
    (a : CNetAddr) (j : Nat) :
    (v.mapAddr.insert (f k).service.addr k).lookup a = some j ↔ j < k + 1 ∧ (f j).service.addr = a := by
  by_cases ha : a = (f k).service.addr
  · rw [ha, AList.lookup_insert]
    constructor
    · intro hk
      cases hk
      exact ⟨Nat.lt_succ_self k, rfl⟩
    · rintro ⟨hj, heq⟩
      by_cases hjk : j = k
      · rw [hjk]
      · exact absurd heq (hfresh j (by omega))
  · rw [AList.lookup_insert_ne ha, h.addr]
    constructor
    · exact fun h => ⟨Nat.lt_succ_of_lt h.1, h.2⟩
    · rintro ⟨hj, heq⟩
      refine ⟨?_, heq⟩
      have hjk : j ≠ k := by
        rintro rfl
        exact ha heq.symm
      omega

theorem Loaded.loadNew (h : v.Loaded f m E k) (hk : k < m)
    (hfresh : ∀ j < k, (f j).service.addr ≠ (f k).service.addr) :
    (v.loadNew E ADDRMAN_NEW_BUCKET_COUNT k (f k).stored).Loaded f m E (k + 1) := by
  have hpos : (v.vRandom.length : Int) = k := by
    rw [h.random, length_range]
  have hinfo : { (f k).stored with nRandomPos := (v.vRandom.length : Int) } = loadedInfo f m k := by
    unfold loadedInfo
    rw [hpos, decide_eq_false (Nat.not_le.mpr hk)]
    rfl
  unfold CAddrMan.loadNew
  rw [if_neg (not_not_intro rfl)]
  refine ⟨fun j => ?_, h.addr_insert hfresh, ?_, fun b => ?_, h.new⟩
  · show (v.mapInfo.insert k _).lookup j = _
    rw [hinfo]
    exact h.lookup_insert j
  · show v.vRandom ++ [k] = _
    rw [h.random, range_succ]
  · show v.vvTried b = _
    rw [h.tried, triedBelow_succ, if_neg (fun hm => Nat.not_le.mpr hk hm.1), append_nil]

theorem Loaded.loadTried (h : v.Loaded f m E k) (hk : m ≤ k) (hid : v.nIdCount = k)
    (hfresh : ∀ j < k, (f j).service.addr ≠ (f k).service.addr)
    (hroom : (triedBelow f m E v.nKey (CAddrInfo.getTriedBucket E v.nKey (f k).service) k).length <
      ADDRMAN_TRIED_BUCKET_SIZE) :
    ∃ v', v.loadTried E (f k).stored = some v' ∧ v'.Loaded f m E (k + 1) ∧ SameHeader v v' ∧ v'.nIdCount = k + 1 := by
  have hpos : (v.vRandom.length : Int) = k := by
    rw [h.random, length_range]
  have hinfo : { (f k).stored with nRandomPos := (v.vRandom.length : Int), fInTried := true } = loadedInfo f m k := by
    unfold loadedInfo
    rw [hpos, decide_eq_true hk]
  have hservice : (f k).stored.service = (f k).service := rfl
  unfold CAddrMan.loadTried
  simp only [hservice, h.tried, if_pos hroom, hid]
  refine ⟨_, rfl, ⟨fun j => ?_, h.addr_insert hfresh, ?_, fun b => ?_, h.new⟩, ⟨rfl, rfl, rfl⟩, rfl⟩
  · show (v.mapInfo.insert k _).lookup j = _
    rw [hinfo]
    exact h.lookup_insert j
  · show v.vRandom ++ [k] = _
    rw [h.random, range_succ]
  · show update v.vvTried _ _ b = _
    rw [triedBelow_succ]
    by_cases hb : b = CAddrInfo.getTriedBucket E v.nKey (f k).service
    · rw [hb, update_self, if_pos ⟨hk, rfl⟩]
    · rw [update_of_ne hb, h.tried, if_neg (fun hm => hb hm.2.symm), append_nil]

theorem sameHeader_loadNew (nUBuckets : Int) (n : Nat) (info : CAddrInfo) :
    SameHeader v (v.loadNew E nUBuckets n info) := by
  unfold CAddrMan.loadNew
  split_ifs
  · exact ⟨rfl, rfl, rfl⟩
  · exact ⟨rfl, rfl, rfl⟩

theorem reads_readNewInfos (hfresh : ∀ k < m, ∀ j < k, (f j).service.addr ≠ (f k).service.addr) (turns k : Nat)
    (h : v.Loaded f m E k) (hk : k + turns = m) :
    ∃ v', Reads (readNewInfos E ADDRMAN_NEW_BUCKET_COUNT turns k v)
        ((List.range' k turns).flatMap fun j => (f j).write) v' ∧ v'.Loaded f m E m ∧ SameHeader v v' := by
  induction turns generalizing k v with
  | zero =>
    rw [Nat.add_zero] at hk
    rw [hk] at h
    exact ⟨v, reads_pure v, h, ⟨rfl, rfl, rfl⟩⟩
  | succ turns ih =>
    have hlt : k < m := by omega
    obtain ⟨v', hreads, hv', hheader⟩ := ih (k + 1) (h.loadNew hlt (hfresh k hlt)) (by omega)
    refine ⟨v', ?_, hv', (sameHeader_loadNew _ _ _).trans hheader⟩
    rw [range'_succ, flatMap_cons]
    exact reads_bind (f k).reads_read hreads

theorem reads_readTriedInfos {n : Nat} (hfresh : ∀ k < n, ∀ j < k, (f j).service.addr ≠ (f k).service.addr)
    (turns k : Nat) (h : v.Loaded f m E k) (hm : m ≤ k) (hk : k + turns = n) (hid : v.nIdCount = k)
    (hroom : ∀ k, m ≤ k → k < n → (triedBelow f m E v.nKey (CAddrInfo.getTriedBucket E v.nKey (f k).service) k).length <
      ADDRMAN_TRIED_BUCKET_SIZE) :
    ∃ v', Reads (readTriedInfos E turns 0 v) ((List.range' k turns).flatMap fun j => (f j).write) (0, v') ∧
      v'.Loaded f m E n ∧ SameHeader v v' ∧ v'.nIdCount = n := by
  induction turns generalizing k v with
  | zero =>
    rw [Nat.add_zero] at hk
    rw [hk] at h hid
    exact ⟨v, reads_pure (0, v), h, ⟨rfl, rfl, rfl⟩, hid⟩
  | succ turns ih =>
    have hlt : k < n := by omega
    obtain ⟨v₁, hload, hv₁, hheader₁, hid₁⟩ := h.loadTried hm hid (hfresh k hlt) (hroom k hm hlt)
    obtain ⟨v', hreads, hv', hheader, hid'⟩ := ih (k + 1) hv₁ (by omega) (by omega) hid₁ (by
      rw [hheader₁.nKey]
      exact hroom)
    refine ⟨v', ?_, hv', hheader₁.trans hheader, hid'⟩
    rw [range'_succ, flatMap_cons]
    refine reads_bind (f k).reads_read ?_
    rw [hload]
    exact hreads

end Load

/-! ## Loading the references -/

section References

variable (f : Nat → CAddrInfo) (m n : Nat)

/-- The entries have as many references as have been loaded. -/
structure Referenced (v : CAddrMan) : Prop where
  info : ∀ j, v.mapInfo.lookup j =
    if j < n then some { loadedInfo f m j with nRefCount := (v.references j : Int) } else none
  nodup : ∀ b, (v.vvNew b).Nodup

/-- Only the references are new. -/
structure SameEntries (v v' : CAddrMan) : Prop where
  header : SameHeader v v'
  mapAddr : v'.mapAddr = v.mapAddr
  vRandom : v'.vRandom = v.vRandom
  vvTried : v'.vvTried = v.vvTried
  nIdCount : v'.nIdCount = v.nIdCount

variable {f m n}

theorem SameEntries.trans {v' v'' : CAddrMan} (h : SameEntries v v') (h' : SameEntries v' v'') : SameEntries v v'' :=
  ⟨h.header.trans h'.header, h'.mapAddr.trans h.mapAddr, h'.vRandom.trans h.vRandom, h'.vvTried.trans h.vvTried,
    h'.nIdCount.trans h.nIdCount⟩

theorem Loaded.referenced (h : v.Loaded f m E n) : v.Referenced f m n := by
  refine ⟨fun j => ?_, fun b => by rw [h.new]; exact nodup_nil⟩
  have hzero : v.references j = 0 := references_eq_zero.mpr fun b => by rw [h.new]; exact not_mem_nil
  rw [h.info, hzero]
  rfl

/-- A reference of the entry `j` is loaded. -/
theorem Referenced.loadReference (h : v.Referenced f m n) {b : NewBucket} {j : Nat} (hj : j < n)
    (hnot : j ∉ v.vvNew b) (hmax : v.references j < ADDRMAN_NEW_BUCKETS_PER_ADDRESS) :
    (v.loadReference ADDRMAN_NEW_BUCKET_COUNT b j).Referenced f m n ∧
      SameEntries v (v.loadReference ADDRMAN_NEW_BUCKET_COUNT b j) ∧
      (v.loadReference ADDRMAN_NEW_BUCKET_COUNT b j).vvNew = update v.vvNew b (insertId j (v.vvNew b)) := by
  have hlook : v.mapInfo.lookup j = some { loadedInfo f m j with nRefCount := (v.references j : Int) } := by
    rw [h.info, if_pos hj]
  have hmax' : ((v.references j : Nat) : Int) < ADDRMAN_NEW_BUCKETS_PER_ADDRESS := by omega
  unfold CAddrMan.loadReference
  rw [hlook]
  simp only [Option.getD_some]
  rw [if_pos ⟨trivial, hmax'⟩]
  refine ⟨⟨fun i => ?_, fun c => ?_⟩, ⟨⟨rfl, rfl, rfl⟩, rfl, rfl, rfl, rfl⟩, rfl⟩
  · have hrefs : references { v with vvNew := update v.vvNew b (insertId j (v.vvNew b)) } i =
        v.references i + if i = j then 1 else 0 := references_insert rfl hnot i
    show (((v.setInfo j _).setInfo j _).mapInfo.lookup i) = if i < n then some { loadedInfo f m i with
      nRefCount := ((references { v with vvNew := update v.vvNew b (insertId j (v.vvNew b)) } i : Nat) : Int) }
      else none
    rw [hrefs, lookup_setInfo]
    by_cases hij : i = j
    · rw [if_pos hij, if_pos hij, hij, if_pos hj]
      rfl
    · rw [if_neg hij, if_neg hij, lookup_setInfo, if_neg hij, h.info]
      rfl
  · show (update v.vvNew b _ c).Nodup
    by_cases hc : c = b
    · rw [hc, update_self]
      exact nodup_insertId (h.nodup b)
    · rw [update_of_ne hc]
      exact h.nodup c

theorem reads_readBucket {b : NewBucket} (l : List Nat) (h : v.Referenced f m n) (hl : ∀ j ∈ l, j < n)
    (hsmall : n ≤ 2 ^ 31) (hnodup : l.Nodup) (hnot : ∀ j ∈ l, j ∉ v.vvNew b)
    (hmax : ∀ j ∈ l, v.references j < ADDRMAN_NEW_BUCKETS_PER_ADDRESS) :
    ∃ v', Reads (readBucket ADDRMAN_NEW_BUCKET_COUNT b l.length v) (l.flatMap fun j : Nat => writeSigned 4 (j : Int)) v' ∧
      v'.Referenced f m n ∧ SameEntries v v' ∧ (∀ j, j ∈ v'.vvNew b ↔ j ∈ v.vvNew b ∨ j ∈ l) ∧
      ∀ c, c ≠ b → v'.vvNew c = v.vvNew c := by
  induction l generalizing v with
  | nil => exact ⟨v, reads_pure v, h, ⟨⟨rfl, rfl, rfl⟩, rfl, rfl, rfl, rfl⟩, fun j => by simp, fun c _ => rfl⟩
  | cons j l ih =>
    have hj := hl j mem_cons_self
    rw [nodup_cons] at hnodup
    obtain ⟨h₁, hsame₁, hvvNew₁⟩ := h.loadReference hj (hnot j mem_cons_self) (hmax j mem_cons_self)
    have hrefs := references_insert hvvNew₁ (hnot j mem_cons_self)
    have hmem₁ : ∀ c i, i ∈ (v.loadReference ADDRMAN_NEW_BUCKET_COUNT b j).vvNew c ↔
        i ∈ v.vvNew c ∨ (c = b ∧ i = j) := by
      intro c i
      rw [hvvNew₁]
      exact mem_update_insertId
    have hne : ∀ i ∈ l, i ≠ j := by
      rintro i hi rfl
      exact hnodup.1 hi
    obtain ⟨v', hreads, hv', hsame, hmem, hother⟩ := ih h₁ (fun i hi => hl i (mem_cons_of_mem j hi)) hnodup.2
      (by
        intro i hi
        rw [hmem₁, not_or]
        exact ⟨hnot i (mem_cons_of_mem j hi), fun h => hne i hi h.2⟩)
      (by
        intro i hi
        rw [hrefs, if_neg (hne i hi)]
        exact hmax i (mem_cons_of_mem j hi))
    refine ⟨v', ?_, hv', hsame₁.trans hsame, fun i => ?_, fun c hc => ?_⟩
    · rw [flatMap_cons]
      refine reads_bind (reads_readSigned ⟨by omega, by omega⟩) ?_
      rw [if_neg (by omega), Int.toNat_natCast]
      exact hreads
    · rw [hmem, hmem₁, mem_cons]
      simp only [true_and]
      exact or_assoc
    · rw [hother c hc, hvvNew₁, update_of_ne hc]

/-- The loop over the buckets from `b` on: the bucket `c` becomes `w c`. -/
theorem reads_readBuckets {w : NewBucket → List Nat} (hw : ∀ c, (w c).Nodup) (hlt : ∀ c, ∀ j ∈ w c, j < n)
    (hsmall : n ≤ 2 ^ 31) (hsize : ∀ c, (w c).length < 2 ^ 31)
    (hmax : ∀ j, (Finset.univ.filter fun c => j ∈ w c).card ≤ ADDRMAN_NEW_BUCKETS_PER_ADDRESS)
    (turns b : Nat) (hb : b + turns = ADDRMAN_NEW_BUCKET_COUNT) (h : v.Referenced f m n)
    (hdone : ∀ c j, j ∈ v.vvNew c ↔ c.val < b ∧ j ∈ w c) :
    ∃ v', Reads (readBuckets ADDRMAN_NEW_BUCKET_COUNT turns b v)
        (((List.finRange ADDRMAN_NEW_BUCKET_COUNT).drop b).flatMap fun c =>
          writeSigned 4 (w c).length ++ (w c).flatMap fun j : Nat => writeSigned 4 (j : Int)) v' ∧
      v'.Referenced f m n ∧ SameEntries v v' ∧ ∀ c j, j ∈ v'.vvNew c ↔ j ∈ w c := by
  induction turns generalizing b v with
  | zero =>
    rw [Nat.add_zero] at hb
    refine ⟨v, ?_, h, ⟨⟨rfl, rfl, rfl⟩, rfl, rfl, rfl, rfl⟩, fun c j => ?_⟩
    · rw [hb, drop_of_length_le (by rw [length_finRange])]
      exact reads_pure v
    · rw [hdone, hb]
      exact and_iff_right c.isLt
  | succ turns ih =>
    have hlt' : b < ADDRMAN_NEW_BUCKET_COUNT := by omega
    have hnot : ∀ j ∈ w ⟨b, hlt'⟩, j ∉ v.vvNew ⟨b, hlt'⟩ := by
      intro j _ hj
      exact Nat.lt_irrefl b ((hdone _ j).mp hj).1
    have hfew : ∀ j ∈ w ⟨b, hlt'⟩, v.references j < ADDRMAN_NEW_BUCKETS_PER_ADDRESS := by
      intro j hj
      refine Nat.lt_of_lt_of_le ?_ (hmax j)
      rw [references_eq_card]
      refine Finset.card_lt_card (Finset.ssubset_iff_subset_ne.mpr ⟨fun c hc => ?_, fun heq => ?_⟩)
      · rw [Finset.mem_filter, hdone] at hc
        exact Finset.mem_filter.mpr ⟨hc.1, hc.2.2⟩
      · have hmem : (⟨b, hlt'⟩ : NewBucket) ∈ Finset.univ.filter fun c => j ∈ w c :=
          Finset.mem_filter.mpr ⟨Finset.mem_univ _, hj⟩
        rw [← heq, Finset.mem_filter] at hmem
        exact hnot j hj hmem.2
    obtain ⟨v₁, hreads₁, h₁, hsame₁, hmem₁, hother₁⟩ := reads_readBucket (w ⟨b, hlt'⟩) h (hlt _) hsmall (hw _) hnot hfew
    obtain ⟨v', hreads, hv', hsame, hmem⟩ := ih (b + 1) (by omega) h₁ (by
      intro c j
      by_cases hc : c = ⟨b, hlt'⟩
      · rw [hc, hmem₁, hdone]
        simp
      · rw [hother₁ c hc, hdone]
        have hval : c.val ≠ b := fun heq => hc (Fin.ext heq)
        constructor
        · exact fun h => ⟨Nat.lt_succ_of_lt h.1, h.2⟩
        · exact fun h => ⟨by omega, h.2⟩)
    refine ⟨v', ?_, hv', hsame₁.trans hsame, hmem⟩
    have hdrop : (List.finRange ADDRMAN_NEW_BUCKET_COUNT).drop b =
        ⟨b, hlt'⟩ :: (List.finRange ADDRMAN_NEW_BUCKET_COUNT).drop (b + 1) := by
      rw [drop_eq_getElem_cons (by rw [length_finRange]; exact hlt')]
      simp
    rw [hdrop, flatMap_cons, append_assoc]
    refine reads_bind (reads_readSigned ⟨by omega, by exact_mod_cast hsize _⟩) ?_
    rw [dif_pos hlt', Int.toNat_natCast]
    exact reads_bind hreads₁ hreads

end References

/-! ## Renumbering -/

/-- The entry that is written as number `j`. -/
def diskEntry (s : CAddrMan) (j : Nat) : CAddrInfo :=
  s.entry (s.diskIds.getD j 0)

theorem mem_diskIds : id ∈ s.diskIds ↔ id ∈ s.ids :=
  s.diskIds_perm.mem_iff

theorem renumber_lt (h : id ∈ s.ids) : s.renumber id < s.diskIds.length :=
  idxOf_lt_length_of_mem (mem_diskIds.mpr h)

theorem getD_renumber (h : id ∈ s.ids) : s.diskIds.getD (s.renumber id) 0 = id := by
  rw [getD_eq_getElem _ _ (renumber_lt h)]
  exact getElem_idxOf (renumber_lt h)

theorem diskEntry_renumber (h : id ∈ s.ids) : s.diskEntry (s.renumber id) = s.entry id := by
  unfold diskEntry
  rw [getD_renumber h]

theorem renumber_injective {id' : Nat} (h : id ∈ s.ids) (h' : id' ∈ s.ids) (heq : s.renumber id = s.renumber id') :
    id = id' := by
  rw [← getD_renumber h, heq, getD_renumber h']

/-- Every number is that of an id. -/
theorem exists_renumber {j : Nat} (hj : j < s.diskIds.length) : ∃ id ∈ s.ids, s.renumber id = j := by
  refine ⟨s.diskIds[j], mem_diskIds.mp (getElem_mem hj), ?_⟩
  exact s.nodup_diskIds.idxOf_getElem j hj

/-- The tried entries have the numbers from the number of new entries on. -/
theorem length_newList_le_renumber (h : id ∈ s.ids) : s.newList.length ≤ s.renumber id ↔ s.isTried id = true := by
  unfold renumber diskIds
  by_cases hnew : id ∈ s.newList
  · rw [idxOf_append_of_mem hnew]
    have hlt := idxOf_lt_length_of_mem hnew
    have hfalse : s.isTried id = false := by
      have hfilter := (mem_filter.mp hnew).2
      simpa using hfilter
    rw [hfalse]
    simp only [Bool.false_eq_true, iff_false]
    omega
  · rw [idxOf_append_of_notMem hnew]
    have htried : s.isTried id = true := by
      by_contra hnot
      exact hnew (mem_filter.mpr ⟨h, by simpa using hnot⟩)
    rw [htried]
    simp

theorem renumber_of_new (hnew : id ∈ s.newList) : s.renumber id = s.newList.idxOf id :=
  idxOf_append_of_mem hnew

theorem Indexed.diskEntry_fresh (hi : s.Indexed) {j k : Nat} (hk : k < s.diskIds.length) (hjk : j < k) :
    (s.diskEntry j).service.addr ≠ (s.diskEntry k).service.addr := by
  obtain ⟨id, hid, rfl⟩ := exists_renumber hk
  obtain ⟨id', hid', rfl⟩ := exists_renumber (hjk.trans hk)
  rw [diskEntry_renumber hid, diskEntry_renumber hid']
  intro heq
  have h := hi.entry_addr id _ (lookup_entry hid)
  have h' := hi.entry_addr id' _ (lookup_entry hid')
  rw [heq, h] at h'
  cases h'
  exact Nat.lt_irrefl _ hjk

theorem Tabled.mem_vvTried (ht : s.Tabled E none) {b : TriedBucket} :
    id ∈ s.vvTried b ↔ id ∈ s.ids ∧ s.isTried id ∧
      CAddrInfo.getTriedBucket E s.nKey (s.entry id).service = b := by
  constructor
  · intro hmem
    obtain ⟨st, hst, hin, hbucket⟩ := ht.tried_id b id hmem
    obtain ⟨info, hlook, rfl⟩ := lookup_of_standing hst
    unfold isTried
    rw [entry_of_lookup hlook]
    exact ⟨mem_ids.mpr ⟨info, hlook⟩, hin, hbucket⟩
  · rintro ⟨hid, hin, rfl⟩
    exact (ht.tried_entry id _ (standing_of_lookup (lookup_entry hid)) hin).2

/-- The tried buckets are computed again. -/
theorem Tabled.triedBelow_perm (ht : s.Tabled E none) (b : TriedBucket) :
    (triedBelow s.diskEntry s.newList.length E s.nKey b s.diskIds.length).Perm ((s.vvTried b).map s.renumber) := by
  have hmap : ((s.vvTried b).map s.renumber).Nodup := by
    refine (nodup_map_iff_inj_on (ht.tried_nodup b)).mpr fun id hid id' hid' heq => ?_
    exact renumber_injective (ht.mem_vvTried.mp hid).1 (ht.mem_vvTried.mp hid').1 heq
  have hbelow : (triedBelow s.diskEntry s.newList.length E s.nKey b s.diskIds.length).Nodup :=
    nodup_range.filter _
  rw [perm_ext_iff_of_nodup hbelow hmap]
  intro j
  unfold triedBelow
  rw [mem_filter, mem_range, mem_map, decide_eq_true_iff]
  constructor
  · rintro ⟨hj, hm, hbucket⟩
    obtain ⟨id, hid, rfl⟩ := exists_renumber hj
    rw [diskEntry_renumber hid] at hbucket
    exact ⟨id, ht.mem_vvTried.mpr ⟨hid, (length_newList_le_renumber hid).mp hm, hbucket⟩, rfl⟩
  · rintro ⟨id, hmem, rfl⟩
    obtain ⟨hid, htried, hbucket⟩ := ht.mem_vvTried.mp hmem
    rw [diskEntry_renumber hid]
    exact ⟨renumber_lt hid, (length_newList_le_renumber hid).mpr htried, hbucket⟩

theorem Tabled.triedBelow_room (ht : s.Tabled E none) {k : Nat} (hm : s.newList.length ≤ k)
    (hk : k < s.diskIds.length) :
    (triedBelow s.diskEntry s.newList.length E s.nKey
      (CAddrInfo.getTriedBucket E s.nKey (s.diskEntry k).service) k).length < ADDRMAN_TRIED_BUCKET_SIZE := by
  generalize hb : CAddrInfo.getTriedBucket E s.nKey (s.diskEntry k).service = b
  have hall := (ht.triedBelow_perm b).length_eq
  rw [length_map] at hall
  have hnext := triedBelow_succ (f := s.diskEntry) (m := s.newList.length) E s.nKey b k
  rw [if_pos ⟨hm, hb⟩] at hnext
  have hsub : (triedBelow s.diskEntry s.newList.length E s.nKey b (k + 1)).length ≤
      (triedBelow s.diskEntry s.newList.length E s.nKey b s.diskIds.length).length :=
    ((range_sublist.mpr hk).filter _).length_le
  rw [hnext, length_append, length_singleton] at hsub
  have hsize := ht.tried_size b
  omega

end CAddrMan

end Reddcoin
