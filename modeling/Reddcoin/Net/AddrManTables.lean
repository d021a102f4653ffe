import Mathlib.Algebra.BigOperators.Group.Finset.Piecewise
import Mathlib.Data.Fintype.Fin
import Reddcoin.Net.AddrManIndex

/-!
# The tables of the address manager

Every entry is either in the tried bucket of its address, or referenced by as many new buckets as its counter says.
While an entry is on its way into a new bucket, its counter is one ahead.
-/

namespace Reddcoin

open Function (update update_of_ne update_self)

open List

variable {b : NewBucket}

/-- What the tables depend on. -/
structure Standing where
  service : CService
  nRefCount : Int
  fInTried : Bool

def CAddrInfo.standing (info : CAddrInfo) : Standing where
  service := info.service
  nRefCount := info.nRefCount
  fInTried := info.fInTried

namespace CAddrMan

def standing (s : CAddrMan) (id : Nat) : Option Standing :=
  (s.mapInfo.lookup id).map CAddrInfo.standing

/-- The number of new buckets with the id. -/
def references (s : CAddrMan) (id : Nat) : Nat :=
  (List.finRange ADDRMAN_NEW_BUCKET_COUNT).countP fun b => decide (id ∈ s.vvNew b)

/-- The tables are in order, but for one reference of the id `pending` that is still to be made. -/
structure Tabled (E : AddrEnv) (pending : Option Nat) (s : CAddrMan) : Prop where
  tried_entry : ∀ id st, s.standing id = some st → st.fInTried = true →
    st.nRefCount = 0 ∧ id ∈ s.vvTried (CAddrInfo.getTriedBucket E s.nKey st.service)
  tried_id : ∀ b, ∀ id ∈ s.vvTried b, ∃ st, s.standing id = some st ∧ st.fInTried = true ∧
    CAddrInfo.getTriedBucket E s.nKey st.service = b
  tried_nodup : ∀ b, (s.vvTried b).Nodup
  tried_size : ∀ b, (s.vvTried b).length ≤ ADDRMAN_TRIED_BUCKET_SIZE
  new_entry : ∀ id st, s.standing id = some st → st.fInTried = false →
    st.nRefCount = s.references id + (if pending = some id then 1 else 0) ∧ 1 ≤ st.nRefCount ∧
      st.nRefCount ≤ ADDRMAN_NEW_BUCKETS_PER_ADDRESS
  new_id : ∀ b, ∀ id ∈ s.vvNew b, ∃ st, s.standing id = some st ∧ st.fInTried = false
  new_nodup : ∀ b, (s.vvNew b).Nodup
  new_size : ∀ b, (s.vvNew b).length ≤ ADDRMAN_NEW_BUCKET_SIZE
  tried_count : s.nTried = ∑ b, ((s.vvTried b).length : Int)
  count : (s.vRandom.length : Int) = s.nTried + s.nNew

variable {E : AddrEnv} {pending : Option Nat} {s s' : CAddrMan} {nId id : Nat} {info : CAddrInfo}

theorem tabled_new (nKey : List UInt8) : (new nKey).Tabled E none where
  tried_entry id st h := by simp [new, standing] at h
  tried_id b id h := by simp [new] at h
  tried_nodup b := nodup_nil
  tried_size b := Nat.zero_le _
  new_entry id st h := by simp [new, standing] at h
  new_id b id h := by simp [new] at h
  new_nodup b := nodup_nil
  new_size b := Nat.zero_le _
  tried_count := by simp [new]
  count := rfl

theorem standing_of_unplaced (h : s'.unplaced id = s.unplaced id) : s'.standing id = s.standing id := by
  have hmap : ∀ t : CAddrMan, t.standing id = (t.unplaced id).map CAddrInfo.standing := by
    intro t
    unfold standing unplaced
    rw [Option.map_map]
    rfl
  rw [hmap, hmap, h]

theorem standing_setInfo (s : CAddrMan) (nId : Nat) (info : CAddrInfo) (id : Nat) :
    (s.setInfo nId info).standing id = if id = nId then some info.standing else s.standing id := by
  unfold standing
  rw [lookup_setInfo]
  split_ifs with h
  · rfl
  · rfl

theorem standing_of_lookup (h : s.mapInfo.lookup id = some info) : s.standing id = some info.standing := by
  unfold standing
  rw [h]
  rfl

theorem lookup_of_standing {st : Standing} (h : s.standing id = some st) :
    ∃ info, s.mapInfo.lookup id = some info ∧ info.standing = st :=
  Option.map_eq_some_iff.mp h

theorem Tabled.congr (hs : s.Tabled E pending) (hstanding : s'.standing = s.standing) (htried : s'.vvTried = s.vvTried)
    (hnew : s'.vvNew = s.vvNew) (hkey : s'.nKey = s.nKey) (hnTried : s'.nTried = s.nTried) (hnNew : s'.nNew = s.nNew)
    (hlength : s'.vRandom.length = s.vRandom.length) : s'.Tabled E pending where
  tried_entry := by
    rw [hstanding, htried, hkey]
    exact hs.tried_entry
  tried_id := by
    rw [hstanding, htried, hkey]
    exact hs.tried_id
  tried_nodup := by
    rw [htried]
    exact hs.tried_nodup
  tried_size := by
    rw [htried]
    exact hs.tried_size
  new_entry := by
    unfold references
    rw [hstanding, hnew]
    exact hs.new_entry
  new_id := by
    rw [hstanding, hnew]
    exact hs.new_id
  new_nodup := by
    rw [hnew]
    exact hs.new_nodup
  new_size := by
    rw [hnew]
    exact hs.new_size
  tried_count := by
    rw [hnTried, htried]
    exact hs.tried_count
  count := by
    rw [hlength, hnTried, hnNew]
    exact hs.count

/-- An entry is changed where the tables do not look. -/
theorem Tabled.setInfo (hs : s.Tabled E pending) {info' : CAddrInfo} (hlook : s.mapInfo.lookup nId = some info)
    (hstanding : info'.standing = info.standing) : (s.setInfo nId info').Tabled E pending := by
  refine hs.congr (funext fun id => ?_) rfl rfl rfl rfl rfl rfl
  rw [standing_setInfo]
  split_ifs with hid
  · rw [hid, standing_of_lookup hlook, hstanding]
  · rfl

/-! ## References -/

theorem references_eq_card (s : CAddrMan) (id : Nat) :
    s.references id = (Finset.univ.filter fun b => id ∈ s.vvNew b).card := by
  unfold references
  simp [Finset.card, Finset.filter, Fin.univ_def, countP_eq_length_filter]

theorem references_congr (h : ∀ b, id ∈ s'.vvNew b ↔ id ∈ s.vvNew b) : s'.references id = s.references id := by
  unfold references
  simp only [h]

/-- The id leaves one bucket. -/
theorem references_leave (hmem : id ∈ s.vvNew b) (hnot : id ∉ s'.vvNew b)
    (hother : ∀ c, c ≠ b → (id ∈ s'.vvNew c ↔ id ∈ s.vvNew c)) : s.references id = s'.references id + 1 := by
  rw [references_eq_card, references_eq_card]
  have heq : (Finset.univ.filter fun c => id ∈ s'.vvNew c) = (Finset.univ.filter fun c => id ∈ s.vvNew c).erase b := by
    ext c
    rw [Finset.mem_erase, Finset.mem_filter, Finset.mem_filter]
    by_cases hc : c = b
    · rw [hc]
      simp [hnot]
    · simp [hc, hother c hc]
  rw [heq, Finset.card_erase_add_one]
  simp [hmem]

theorem references_eq_zero : s.references id = 0 ↔ ∀ b, id ∉ s.vvNew b := by
  unfold references
  rw [countP_eq_zero]
  simp

/-- An id leaves a bucket as `update` and `erase` say. -/
theorem mem_update_erase {v : NewBucket → List Nat} (hnodup : ∀ b, (v b).Nodup) {b c : NewBucket} :
    id ∈ update v b ((v b).erase nId) c ↔ id ∈ v c ∧ ¬ (c = b ∧ id = nId) := by
  by_cases hc : c = b
  · rw [hc, update_self, (hnodup b).mem_erase_iff]
    tauto
  · rw [update_of_ne hc]
    tauto

/-! ## Shrinking a new bucket -/

/-- Every entry was there before, with the same times, and only `moved` can have entered the tried table. -/
structure Aged (moved : Option Nat) (s s' : CAddrMan) : Prop where
  nKey : s'.nKey = s.nKey
  entries : ∀ id e', s'.mapInfo.lookup id = some e' → ∃ e, s.mapInfo.lookup id = some e ∧
    e'.nLastTry = e.nLastTry ∧ e'.nLastSuccess = e.nLastSuccess ∧
    (e'.fInTried = true → e.fInTried = true ∨ moved = some id)

theorem Aged.of_unplaced {moved : Option Nat} (hkey : s'.nKey = s.nKey)
    (h : ∀ id e', s'.unplaced id = some e' → ∃ e, s.unplaced id = some e ∧ e'.nLastTry = e.nLastTry ∧
      e'.nLastSuccess = e.nLastSuccess ∧ (e'.fInTried → e.fInTried ∨ moved = some id)) :
    Aged moved s s' := by
  refine ⟨hkey, fun id e' he' => ?_⟩
  obtain ⟨e, he, htry, hsuccess, htried⟩ := h id e'.unplaced (unplaced_eq_some.mpr ⟨e', he', rfl⟩)
  obtain ⟨x, hx, rfl⟩ := unplaced_eq_some.mp he
  exact ⟨x, hx, htry, hsuccess, htried⟩

theorem Aged.refl (moved : Option Nat) (s : CAddrMan) : Aged moved s s :=
  ⟨rfl, fun _ e he => ⟨e, he, rfl, rfl, .inl⟩⟩

theorem Aged.reads (moved : Option Nat) (s : CAddrMan) (n : Nat) : Aged moved s { s with nReads := n } :=
  ⟨rfl, fun _ e he => ⟨e, he, rfl, rfl, .inl⟩⟩

theorem Aged.trans {moved : Option Nat} {t : CAddrMan} (h : Aged moved s t) (h' : Aged moved t s') :
    Aged moved s s' := by
  refine ⟨h'.nKey.trans h.nKey, fun id e'' he'' => ?_⟩
  obtain ⟨e', he', htry', hsuccess', htried'⟩ := h'.entries id e'' he''
  obtain ⟨e, he, htry, hsuccess, htried⟩ := h.entries id e' he'
  refine ⟨e, he, htry'.trans htry, hsuccess'.trans hsuccess, fun h => ?_⟩
  rcases htried' h with h | h
  · exact htried h
  · exact .inr h

/-- An id has left a new bucket, and its entry with the last reference. -/
theorem Tabled.release (hs : s.Tabled E pending) {st : Standing} (hst : s.standing id = some st)
    (hmem : id ∈ s.vvNew b) (hpending : pending ≠ some id)
    (hother : ∀ j, j ≠ id → s'.standing j = s.standing j)
    (hself : s'.standing id = if st.nRefCount - 1 = 0 then none else some { st with nRefCount := st.nRefCount - 1 })
    (hvvNew : s'.vvNew = update s.vvNew b ((s.vvNew b).erase id)) (hvvTried : s'.vvTried = s.vvTried)
    (hkey : s'.nKey = s.nKey) (hnTried : s'.nTried = s.nTried)
    (hcount : (s'.vRandom.length : Int) = s'.nTried + s'.nNew) : s'.Tabled E pending := by
  have hnot : st.fInTried = false := by
    obtain ⟨st', hst', hfalse⟩ := hs.new_id b id hmem
    rw [hst] at hst'
    cases hst'
    exact hfalse
  have hmemNew : ∀ c j, j ∈ s'.vvNew c ↔ j ∈ s.vvNew c ∧ ¬ (c = b ∧ j = id) := by
    intro c j
    rw [hvvNew]
    exact mem_update_erase hs.new_nodup
  have hrefs : s.references id = s'.references id + 1 := by
    refine references_leave hmem ?_ fun c hc => ?_
    · rw [hmemNew]
      exact fun h => h.2 ⟨rfl, rfl⟩
    · rw [hmemNew]
      exact and_iff_left fun h => hc h.1
  have hrefsOther : ∀ j, j ≠ id → s'.references j = s.references j := by
    intro j hj
    refine references_congr fun c => ?_
    rw [hmemNew]
    exact and_iff_left fun h => hj h.2
  obtain ⟨hrefCount, -, hle⟩ := hs.new_entry id st hst hnot
  rw [if_neg hpending, add_zero] at hrefCount
  refine ⟨fun j x hx hin => ?_, fun c j hj => ?_, by rw [hvvTried]; exact hs.tried_nodup,
    by rw [hvvTried]; exact hs.tried_size, fun j x hx hin => ?_, fun c j hj => ?_, fun c => ?_, fun c => ?_,
    by rw [hnTried, hvvTried]; exact hs.tried_count, hcount⟩
  · rw [hvvTried, hkey]
    by_cases hj : j = id
    · rw [hj, hself] at hx
      split_ifs at hx with hzero
      cases hx
      cases hnot.symm.trans hin
    · rw [hother j hj] at hx
      exact hs.tried_entry j x hx hin
  · rw [hvvTried] at hj
    rw [hkey]
    obtain ⟨x, hx, hin, hbucket⟩ := hs.tried_id c j hj
    refine ⟨x, ?_, hin, hbucket⟩
    rw [hother]
    · exact hx
    · rintro rfl
      rw [hst] at hx
      cases hx
      rw [hnot] at hin
      cases hin
  · by_cases hj : j = id
    · rw [hj, hself] at hx
      split_ifs at hx with hzero
      rw [hj, if_neg hpending, ← Option.some.inj hx]
      show st.nRefCount - 1 = s'.references id + 0 ∧ 1 ≤ st.nRefCount - 1 ∧ st.nRefCount - 1 ≤ _
      omega
    · rw [hother j hj] at hx
      rw [hrefsOther j hj]
      exact hs.new_entry j x hx hin
  · rw [hmemNew] at hj
    obtain ⟨x, hx, hin⟩ := hs.new_id c j hj.1
    by_cases hid : j = id
    · -- The id is still in another bucket, so its entry stays.
      have hpos : s'.references id ≠ 0 := by
        rw [Ne, references_eq_zero]
        intro hnone
        rw [hid] at hj
        exact hnone c ((hmemNew c id).mpr hj)
      rw [hid, hself, if_neg (by omega)]
      exact ⟨_, rfl, hnot⟩
    · exact ⟨x, by rw [hother j hid]; exact hx, hin⟩
  · rw [hvvNew]
    by_cases hc : c = b
    · rw [hc, update_self]
      exact (hs.new_nodup b).erase id
    · rw [update_of_ne hc]
      exact hs.new_nodup c
  · rw [hvvNew]
    by_cases hc : c = b
    · rw [hc, update_self]
      exact length_erase_le.trans (hs.new_size b)
    · rw [update_of_ne hc]
      exact hs.new_size c

/-- What removing an id from a new bucket leaves. -/
structure Released (s s' : CAddrMan) (b : NewBucket) (id : Nat) : Prop where
  vvNew : s'.vvNew = update s.vvNew b ((s.vvNew b).erase id)
  others : ∀ j, j ≠ id → s'.unplaced j = s.unplaced j
  aged : Aged none s s'

theorem releaseNew_spec (hi : s.Indexed) (ht : s.Tabled E pending) (hmem : id ∈ s.vvNew b)
    (hpending : pending ≠ some id) :
    ∃ s', s.releaseNew b id = some s' ∧ s'.Indexed ∧ s'.Tabled E pending ∧ Released s s' b id := by
  obtain ⟨st, hst, hfalse⟩ := ht.new_id b id hmem
  obtain ⟨info, hlook, rfl⟩ := lookup_of_standing hst
  have hi₁ : (s.setInfo id { info with nRefCount := info.nRefCount - 1 }).Indexed := hi.setInfo _ hlook rfl rfl
  have hlook₁ : (s.setInfo id { info with nRefCount := info.nRefCount - 1 }).mapInfo.lookup id =
      some { info with nRefCount := info.nRefCount - 1 } := by
    rw [lookup_setInfo, if_pos rfl]
  have hunplaced : ∀ j, j ≠ id → (s.setInfo id { info with nRefCount := info.nRefCount - 1 }).unplaced j =
      s.unplaced j := by
    intro j hj
    rw [unplaced_setInfo, if_neg hj]
  have haged : Aged none s (s.setInfo id { info with nRefCount := info.nRefCount - 1 }) := by
    refine ⟨rfl, fun j e' he' => ?_⟩
    rw [lookup_setInfo] at he'
    split_ifs at he' with hj
    · rw [hj, ← Option.some.inj he']
      exact ⟨info, hlook, rfl, rfl, .inl⟩
    · exact ⟨e', he', rfl, rfl, .inl⟩
  unfold releaseNew
  simp only [hlook]
  by_cases hzero : info.nRefCount - 1 = 0
  · obtain ⟨t, hdelete, hti, hdeleted⟩ := hi₁.deleteNew hlook₁
    rw [if_pos hzero, hdelete]
    refine ⟨_, rfl, hti.congr rfl rfl rfl rfl, ?_, ?_, ?_, ?_⟩
    · refine ht.release hst hmem hpending (fun j hj => ?_) ?_ ?_ ?_ ?_ ?_ ?_
      · refine standing_of_unplaced ?_
        show t.unplaced j = _
        rw [hdeleted.unplaced, if_neg hj, hunplaced j hj]
      · show t.standing id = _
        have hnone := hdeleted.unplaced id
        rw [if_pos rfl] at hnone
        rw [if_pos (show info.standing.nRefCount - 1 = 0 from hzero)]
        unfold standing
        unfold unplaced at hnone
        rw [Option.map_eq_none_iff] at hnone ⊢
        exact hnone
      · show update t.vvNew b _ = _
        rw [hdeleted.rest]
        rfl
      · show t.vvTried = _
        rw [hdeleted.rest]
        rfl
      · show t.nKey = _
        rw [hdeleted.rest]
        rfl
      · show t.nTried = _
        rw [hdeleted.rest]
        rfl
      · show (t.vRandom.length : Int) = t.nTried + t.nNew
        have hlength : t.vRandom.length + 1 = s.vRandom.length := hdeleted.length
        have hnNew : t.nNew = s.nNew - 1 := hdeleted.nNew
        have hnTried : t.nTried = s.nTried := by
          rw [hdeleted.rest]
          rfl
        have hcount := ht.count
        omega
    · show update t.vvNew b _ = _
      rw [hdeleted.rest]
      rfl
    · intro j hj
      show t.unplaced j = _
      rw [hdeleted.unplaced, if_neg hj, hunplaced j hj]
    · refine haged.trans (Aged.of_unplaced (by rw [hdeleted.rest]) fun j e' he' => ?_)
      have he' : t.unplaced j = some e' := he'
      rw [hdeleted.unplaced] at he'
      split_ifs at he'
      exact ⟨e', he', rfl, rfl, .inl⟩
  · rw [if_neg hzero]
    refine ⟨_, rfl, hi₁.congr rfl rfl rfl rfl, ?_, rfl, hunplaced, ⟨haged.nKey, haged.entries⟩⟩
    refine ht.release hst hmem hpending (fun j hj => ?_) ?_ rfl rfl rfl rfl ht.count
    · exact standing_of_unplaced (hunplaced j hj)
    · rw [if_neg (show ¬ info.standing.nRefCount - 1 = 0 from hzero)]
      exact standing_of_lookup hlook₁

theorem findTerrible_spec (ids : List Nat) (s : CAddrMan)
    (hids : ∀ id ∈ ids, ∃ info, s.mapInfo.lookup id = some info) :
    ∃ r n, findTerrible E ids s = some (r, { s with nReads := n }) ∧ ∀ id, r = some id → id ∈ ids := by
  induction ids generalizing s with
  | nil => exact ⟨none, s.nReads, rfl, fun id h => by simp at h⟩
  | cons nId ids ih =>
    obtain ⟨info, hinfo⟩ := hids nId mem_cons_self
    unfold findTerrible
    simp only [hinfo]
    split_ifs with hterrible
    · refine ⟨some nId, s.nReads + 1, rfl, fun id h => ?_⟩
      cases h
      exact mem_cons_self
    · obtain ⟨r, n, heq, hmem⟩ := ih s.read fun id hid => hids id (mem_cons_of_mem _ hid)
      exact ⟨r, n, heq, fun id h => mem_cons_of_mem _ (hmem id h)⟩

/-- One of the ids is selected, if one of the positions is in range or an id has been selected before. -/
theorem selectOldest_spec (n ids : List Nat) (nI : Nat) (nOldest : Option Nat) (s : CAddrMan)
    (hids : ∀ id ∈ ids, ∃ info, s.mapInfo.lookup id = some info)
    (hold : ∀ id, nOldest = some id → ∃ info, s.mapInfo.lookup id = some info)
    (hsome : nOldest ≠ none ∨ ∃ k ∈ n, nI ≤ k ∧ k < nI + ids.length) :
    ∃ id, s.selectOldest n ids nI nOldest = some (some id) ∧ (id ∈ ids ∨ nOldest = some id) := by
  induction ids generalizing nI nOldest with
  | nil =>
    rcases hsome with hsome | ⟨k, -, hlow, hhigh⟩
    · obtain ⟨id, hid⟩ := Option.ne_none_iff_exists'.mp hsome
      exact ⟨id, by rw [selectOldest, hid], .inr hid⟩
    · exact absurd hhigh (Nat.not_lt.mpr hlow)
  | cons nId ids ih =>
    obtain ⟨info, hinfo⟩ := hids nId mem_cons_self
    have hrest : ∀ id ∈ ids, ∃ info, s.mapInfo.lookup id = some info :=
      fun id hid => hids id (mem_cons_of_mem _ hid)
    have hhead : ∀ id, some nId = some id → ∃ info, s.mapInfo.lookup id = some info := by
      intro id h
      cases h
      exact ⟨info, hinfo⟩
    unfold selectOldest
    by_cases hin : nI ∈ n
    · rw [if_pos hin]
      cases hnOldest : nOldest with
      | none =>
        obtain ⟨id, heq, hmem⟩ := ih (nI + 1) (some nId) hrest hhead (.inl (by simp))
        refine ⟨id, heq, .inl ?_⟩
        rcases hmem with hmem | hmem
        · exact mem_cons_of_mem _ hmem
        · cases hmem
          exact mem_cons_self
      | some nOld =>
        obtain ⟨infoOld, hinfoOld⟩ := hold nOld hnOldest
        simp only [hinfo, hinfoOld]
        split_ifs with hless
        · obtain ⟨id, heq, hmem⟩ := ih (nI + 1) (some nId) hrest hhead (.inl (by simp))
          refine ⟨id, heq, .inl ?_⟩
          rcases hmem with hmem | hmem
          · exact mem_cons_of_mem _ hmem
          · cases hmem
            exact mem_cons_self
        · obtain ⟨id, heq, hmem⟩ := ih (nI + 1) (some nOld) hrest
            (fun id h => by rw [← Option.some.inj h]; exact ⟨infoOld, hinfoOld⟩) (.inl (by simp))
          refine ⟨id, heq, ?_⟩
          rcases hmem with hmem | hmem
          · exact .inl (mem_cons_of_mem _ hmem)
          · exact .inr hmem
    · rw [if_neg hin]
      have hsome' : nOldest ≠ none ∨ ∃ k ∈ n, nI + 1 ≤ k ∧ k < nI + 1 + ids.length := by
        rcases hsome with hsome | ⟨k, hk, hlow, hhigh⟩
        · exact .inl hsome
        · refine .inr ⟨k, hk, ?_, ?_⟩
          · have hne : nI ≠ k := by
              rintro rfl
              exact hin hk
            omega
          · rw [length_cons] at hhigh
            omega
      obtain ⟨id, heq, hmem⟩ := ih (nI + 1) nOldest hrest hold hsome'
      refine ⟨id, heq, ?_⟩
      rcases hmem with hmem | hmem
      · exact .inl (mem_cons_of_mem _ hmem)
      · exact .inr hmem

theorem Indexed.reads (hs : s.Indexed) (n : Nat) : Indexed { s with nReads := n } :=
  hs.congr rfl rfl rfl rfl

theorem Tabled.reads (hs : s.Tabled E pending) (n : Nat) : Tabled E pending { s with nReads := n } :=
  hs.congr rfl rfl rfl rfl rfl rfl rfl

theorem randInt_lt {nMax : Nat} (h : 0 < nMax) : s.randInt E nMax < nMax := by
  unfold randInt
  rw [if_neg (Nat.ne_of_gt h)]
  exact Nat.mod_lt _ h

theorem Released.reads {n : Nat} (h : Released { s with nReads := n } s' b id) : Released s s' b id :=
  ⟨h.vvNew, h.others, h.aged.nKey, h.aged.entries⟩

/-- `ShrinkNew` of a bucket that is not empty and does not hold the pending id. -/
theorem shrinkNew_spec (hi : s.Indexed) (ht : s.Tabled E pending) (hne : s.vvNew b ≠ [])
    (hpending : ∀ id ∈ s.vvNew b, pending ≠ some id) :
    ∃ r s' id, s.shrinkNew E b = some (r, s') ∧ s'.Indexed ∧ s'.Tabled E pending ∧ id ∈ s.vvNew b ∧
      Released s s' b id := by
  have hids : ∀ id ∈ s.vvNew b, ∃ info, s.mapInfo.lookup id = some info := by
    intro id hid
    obtain ⟨st, hst, -⟩ := ht.new_id b id hid
    obtain ⟨info, hinfo, -⟩ := lookup_of_standing hst
    exact ⟨info, hinfo⟩
  obtain ⟨found, n, hfind, hfound⟩ := findTerrible_spec (s.vvNew b) s hids
  unfold shrinkNew
  rw [hfind]
  cases found with
  | some id =>
    have hmem := hfound id rfl
    obtain ⟨s', hrelease, hi', ht', hreleased⟩ :=
      releaseNew_spec (hi.reads n) (ht.reads n) hmem (hpending id hmem)
    refine ⟨0, s', id, ?_, hi', ht', hmem, hreleased.reads⟩
    simp only [hrelease]
    rfl
  | none =>
    have hpos : 0 < (s.vvNew b).length := length_pos_of_ne_nil hne
    obtain ⟨id, hselect, hmem⟩ := selectOldest_spec (s := { s with nReads := n })
      [randInt E { s with nReads := n } (s.vvNew b).length, (read { s with nReads := n }).randInt E (s.vvNew b).length,
        (read { s with nReads := n }).read.randInt E (s.vvNew b).length,
        (read { s with nReads := n }).read.read.randInt E (s.vvNew b).length]
      (s.vvNew b) 0 none hids (fun id h => by simp at h)
      (.inr ⟨_, mem_cons_self, Nat.zero_le _, by rw [Nat.zero_add]; exact randInt_lt hpos⟩)
    have hmem : id ∈ s.vvNew b := by
      rcases hmem with hmem | hmem
      · exact hmem
      · simp at hmem
    obtain ⟨s', hrelease, hi', ht', hreleased⟩ :=
      releaseNew_spec (hi.reads (n + 4)) (ht.reads (n + 4)) hmem (hpending id hmem)
    refine ⟨1, s', id, ?_, hi', ht', hmem, hreleased.reads⟩
    simp only [hselect]
    show ((releaseNew { s with nReads := n + 4 } b id).map _) = _
    rw [hrelease]
    rfl

end CAddrMan

end Reddcoin
