import Reddcoin.Lib.OrderedSet
import Reddcoin.Net.AddrManTables

/-!
# Adding an address

An entry on its way into a new bucket is one reference ahead of the buckets.  A full bucket is shrunk before, and never
loses that entry.
-/

namespace Reddcoin

open Function Option

namespace CAddrMan

open Function (update)

variable {E : AddrEnv} {pending : Option Nat} {s s' : CAddrMan} {nId id : Nat} {info : CAddrInfo}

/-! ## Into a new bucket -/

theorem mem_insertId {ids : List Nat} : id ∈ insertId nId ids ↔ id = nId ∨ id ∈ ids :=
  OrderedSet.mem_insert

theorem nodup_insertId {ids : List Nat} (hnodup : ids.Nodup) : (insertId nId ids).Nodup :=
  OrderedSet.nodup_insert hnodup

theorem length_insertId {ids : List Nat} (h : nId ∉ ids) : (insertId nId ids).length = ids.length + 1 :=
  OrderedSet.length_insert h

theorem mem_update_insertId {v : NewBucket → List Nat} {b c : NewBucket} :
    id ∈ update v b (insertId nId (v b)) c ↔ id ∈ v c ∨ (c = b ∧ id = nId) := by
  by_cases hc : c = b
  · rw [hc, update_self, mem_insertId]
    tauto
  · rw [update_of_ne hc]
    tauto

/-- The id `nId` enters one more bucket. -/
theorem references_insert {b : NewBucket} (hvvNew : s'.vvNew = update s.vvNew b (insertId nId (s.vvNew b)))
    (hnot : nId ∉ s.vvNew b) (id : Nat) : s'.references id = s.references id + if id = nId then 1 else 0 := by
  have hmem : ∀ c j, j ∈ s'.vvNew c ↔ j ∈ s.vvNew c ∨ (c = b ∧ j = nId) := by
    intro c j
    rw [hvvNew]
    exact mem_update_insertId
  split_ifs with hid
  · rw [hid]
    refine references_leave ((hmem b nId).mpr (.inr ⟨rfl, rfl⟩)) hnot fun c hc => ?_
    rw [hmem]
    exact (or_iff_left fun h => hc h.1).symm
  · refine references_congr fun c => ?_
    rw [hmem]
    exact or_iff_left fun h => hid h.2

/-- The pending reference is made. -/
theorem Tabled.enter (hs : s.Tabled E (some id)) {b : NewBucket} {st : Standing} (hst : s.standing id = some st)
    (hnew : st.fInTried = false) (hnot : id ∉ s.vvNew b) (hroom : (s.vvNew b).length < ADDRMAN_NEW_BUCKET_SIZE) :
    Tabled E none { s with vvNew := update s.vvNew b (insertId id (s.vvNew b)) } := by
  have hrefs : ∀ j, references { s with vvNew := update s.vvNew b (insertId id (s.vvNew b)) } j =
      s.references j + if j = id then 1 else 0 := references_insert rfl hnot
  refine ⟨hs.tried_entry, hs.tried_id, hs.tried_nodup, hs.tried_size, fun j x hx hin => ?_, fun c j hj => ?_,
    fun c => ?_, fun c => ?_, hs.tried_count, hs.count⟩
  · have hold := hs.new_entry j x hx hin
    by_cases hj : j = id
    · rw [hj, hrefs, if_pos rfl, if_neg (some_ne_none id).symm]
      rw [hj, if_pos rfl] at hold
      refine ⟨?_, hold.2⟩
      rw [hold.1]
      push_cast
      omega
    · rw [hrefs, if_neg hj, if_neg (some_ne_none j).symm]
      rw [if_neg (fun h => hj (Option.some.inj h).symm)] at hold
      exact hold
  · rcases mem_update_insertId.mp hj with hj | ⟨-, rfl⟩
    · exact hs.new_id c j hj
    · exact ⟨st, hst, hnew⟩
  · show (update s.vvNew b _ c).Nodup
    by_cases hc : c = b
    · rw [hc, update_self]
      exact nodup_insertId (hs.new_nodup b)
    · rw [update_of_ne hc]
      exact hs.new_nodup c
  · show (update s.vvNew b _ c).length ≤ _
    by_cases hc : c = b
    · rw [hc, update_self, length_insertId hnot]
      exact hroom
    · rw [update_of_ne hc]
      exact hs.new_size c

/-- The counter of a new entry goes one ahead. -/
theorem Tabled.pend (hs : s.Tabled E none) (hlook : s.mapInfo.lookup nId = some info) (hnew : info.fInTried = false)
    (hmax : info.nRefCount < ADDRMAN_NEW_BUCKETS_PER_ADDRESS) :
    (s.setInfo nId { info with nRefCount := info.nRefCount + 1 }).Tabled E (some nId) := by
  have hst := standing_of_lookup hlook
  have hstanding := standing_setInfo s nId { info with nRefCount := info.nRefCount + 1 }
  refine ⟨fun j x hx hin => ?_, fun c j hj => ?_, hs.tried_nodup, hs.tried_size, fun j x hx hin => ?_,
    fun c j hj => ?_, hs.new_nodup, hs.new_size, hs.tried_count, hs.count⟩
  · rw [hstanding] at hx
    split_ifs at hx with hj
    · cases hx
      cases hnew.symm.trans hin
    · exact hs.tried_entry j x hx hin
  · obtain ⟨x, hx, hin, hbucket⟩ := hs.tried_id c j hj
    rw [hstanding, if_neg]
    · exact ⟨x, hx, hin, hbucket⟩
    · rintro rfl
      rw [hst] at hx
      cases hx
      cases hnew.symm.trans hin
  · show x.nRefCount = s.references j + _ ∧ _
    rw [hstanding] at hx
    split_ifs at hx with hj
    · have hold := hs.new_entry nId info.standing hst hnew
      rw [if_neg (some_ne_none nId).symm] at hold
      rw [hj, if_pos rfl, ← Option.some.inj hx]
      have hcount : info.nRefCount = s.references nId + 0 := hold.1
      show info.nRefCount + 1 = _ ∧ 1 ≤ info.nRefCount + 1 ∧ info.nRefCount + 1 ≤ _
      omega
    · have hold := hs.new_entry j x hx hin
      rw [if_neg (some_ne_none j).symm] at hold
      rw [if_neg (fun h => hj (Option.some.inj h).symm)]
      exact hold
  · obtain ⟨x, hx, hin⟩ := hs.new_id c j hj
    rw [hstanding]
    split_ifs with hid
    · exact ⟨_, rfl, hnew⟩
    · exact ⟨x, hx, hin⟩

/-- What the end of `Add_` needs of the entry: a reference of it can be added. -/
theorem addToBucket_pending (hi : s.Indexed) {b : NewBucket} (hlook : s.mapInfo.lookup id = some info)
    (hnew : info.fInTried = false) (ht : s.Tabled E (some id)) (hnot : id ∉ s.vvNew b) :
    ∃ s', ((if (s.vvNew b).length = ADDRMAN_NEW_BUCKET_SIZE then (s.shrinkNew E b).map Prod.snd else some s).map
        fun s => { s with vvNew := update s.vvNew b (insertId id (s.vvNew b)) }) = some s' ∧
      s'.Indexed ∧ s'.Tabled E none ∧ Aged none s s' := by
  split_ifs with hfull
  · have hne : s.vvNew b ≠ [] := by
      intro h
      rw [h] at hfull
      exact absurd hfull (by decide)
    obtain ⟨r, t, j, hshrink, hti, htt, hj, hreleased⟩ := shrinkNew_spec hi ht hne fun j hj h =>
      hnot (by rw [Option.some.inj h]; exact hj)
    have hne' : id ≠ j := by
      rintro rfl
      exact hnot hj
    have hst : t.standing id = some info.standing := by
      rw [standing_of_unplaced (hreleased.others id hne')]
      exact standing_of_lookup hlook
    have hbucket : t.vvNew b = (s.vvNew b).erase j := by
      rw [hreleased.vvNew, update_self]
    have hnot' : id ∉ t.vvNew b := by
      rw [hbucket]
      exact fun h => hnot (List.mem_of_mem_erase h)
    have hroom : (t.vvNew b).length < ADDRMAN_NEW_BUCKET_SIZE := by
      rw [hbucket, List.length_erase_of_mem hj, hfull]
      decide
    rw [hshrink]
    exact ⟨_, rfl, hti.congr rfl rfl rfl rfl, htt.enter hst hnew hnot' hroom, ⟨hreleased.aged.nKey, hreleased.aged.entries⟩⟩
  · have hroom : (s.vvNew b).length < ADDRMAN_NEW_BUCKET_SIZE :=
      Nat.lt_of_le_of_ne (ht.new_size b) hfull
    exact ⟨_, rfl, hi.congr rfl rfl rfl rfl, ht.enter (standing_of_lookup hlook) hnew hnot hroom,
      ⟨rfl, fun j e he => ⟨e, he, rfl, rfl, .inl⟩⟩⟩

/-! ## `Add_` -/

/-- An entry is changed, but not its times. -/
theorem Aged.setInfo {moved : Option Nat} {info' : CAddrInfo} (hlook : s.mapInfo.lookup nId = some info)
    (htry : info'.nLastTry = info.nLastTry) (hsuccess : info'.nLastSuccess = info.nLastSuccess)
    (htried : info'.fInTried → info.fInTried ∨ moved = some nId) :
    Aged moved s (s.setInfo nId info') := by
  refine ⟨rfl, fun id e' he' => ?_⟩
  rw [lookup_setInfo] at he'
  split_ifs at he' with hid
  · rw [hid, ← Option.some.inj he']
    exact ⟨info, hlook, htry, hsuccess, htried⟩
  · exact ⟨e', he', rfl, rfl, .inl⟩

theorem addToBucket_spec (hi : s.Indexed) (ht : s.Tabled E none) (hlook : s.mapInfo.lookup nId = some info)
    (hnew : info.fInTried = false) (hmax : info.nRefCount < ADDRMAN_NEW_BUCKETS_PER_ADDRESS) (source : CNetAddr) :
    ∃ s', s.addToBucket E nId info source = some s' ∧ s'.Indexed ∧ s'.Tabled E none ∧ Aged none s s' := by
  unfold addToBucket
  by_cases hmem : nId ∈ s.vvNew (CAddrInfo.getNewBucket E s.nKey info.service source)
  · exact ⟨s, by simp only [if_pos hmem], hi, ht, .refl none s⟩
  · have hlook' : (s.setInfo nId { info with nRefCount := info.nRefCount + 1 }).mapInfo.lookup nId =
        some { info with nRefCount := info.nRefCount + 1 } := by
      rw [lookup_setInfo, if_pos rfl]
    have hi' := hi.setInfo { info with nRefCount := info.nRefCount + 1 } hlook rfl rfl
    obtain ⟨s', heq, hs'i, hs't, haged⟩ := addToBucket_pending hi' hlook' hnew (ht.pend hlook hnew hmax) hmem
    have hkeep : Aged none s (s.setInfo nId { info with nRefCount := info.nRefCount + 1 }) :=
      Aged.setInfo hlook rfl rfl .inl
    refine ⟨s', ?_, hs'i, hs't, hkeep.trans haged⟩
    simp only [if_neg hmem]
    exact heq

/-- The entry that `Add_` has found keeps its standing and its times. -/
theorem refresh_spec (s : CAddrMan) (addr : CAddress) (nTimePenalty : Int64) (info : CAddrInfo) :
    (s.refresh E addr nTimePenalty info).1.standing = info.standing ∧
      (s.refresh E addr nTimePenalty info).1.nRandomPos = info.nRandomPos ∧
      (s.refresh E addr nTimePenalty info).1.nLastTry = info.nLastTry ∧
      (s.refresh E addr nTimePenalty info).1.nLastSuccess = info.nLastSuccess ∧
      ((s.refresh E addr nTimePenalty info).2.1 → info.fInTried = false ∧
        info.nRefCount ≠ ADDRMAN_NEW_BUCKETS_PER_ADDRESS) ∧
      ∃ n, (s.refresh E addr nTimePenalty info).2.2 = { s with nReads := n } := by
  unfold refresh
  dsimp only
  -- The time is updated or not, then one of the tests ends the call or none does.
  split_ifs
  all_goals
    refine ⟨rfl, rfl, rfl, rfl, fun h => ?_, _, rfl⟩
    simp_all

/-- Where the times of an entry come from after a call. -/
inductive Stamped (call : AddrCall) (s : CAddrMan) (id : Nat) (e' : CAddrInfo) : Prop
  | kept (e : CAddrInfo) (look : s.mapInfo.lookup id = some e) (nLastTry : e'.nLastTry = e.nLastTry)
      (nLastSuccess : e'.nLastSuccess = e.nLastSuccess) (tried : e'.fInTried = true → e.fInTried = true)
  | created (nLastTry : e'.nLastTry = 0) (nLastSuccess : e'.nLastSuccess = 0) (tried : e'.fInTried = false)
  | good (addr : CService) (nTime : Int64) (call_eq : call = .good addr nTime) (nLastTry : e'.nLastTry = nTime)
      (nLastSuccess : e'.nLastSuccess = nTime)
  | attempt (addr : CService) (nTime : Int64) (call_eq : call = .attempt addr nTime) (e : CAddrInfo)
      (look : s.mapInfo.lookup id = some e) (nLastTry : e'.nLastTry = nTime)
      (nLastSuccess : e'.nLastSuccess = e.nLastSuccess) (tried : e'.fInTried = true → e.fInTried = true)

/-- The state after a call is in order, and every entry has its times from somewhere. -/
structure Stepped (E : AddrEnv) (call : AddrCall) (s s' : CAddrMan) : Prop where
  indexed : s'.Indexed
  tabled : s'.Tabled E none
  nKey : s'.nKey = s.nKey
  stamped : ∀ id e', s'.mapInfo.lookup id = some e' → Stamped call s id e'

theorem Stamped.of_aged {call : AddrCall} (h : Aged none s s') {e' : CAddrInfo}
    (he' : s'.mapInfo.lookup id = some e') : Stamped call s id e' := by
  obtain ⟨e, he, htry, hsuccess, htried⟩ := h.entries id e' he'
  refine .kept e he htry hsuccess fun hin => ?_
  rcases htried hin with hin | hnone
  · exact hin
  · exact absurd hnone.symm (some_ne_none id)

theorem Stepped.of_aged {call : AddrCall} (hi : s'.Indexed) (ht : s'.Tabled E none) (h : Aged none s s') :
    Stepped E call s s' :=
  ⟨hi, ht, h.nKey, fun _ _ he' => .of_aged h he'⟩

/-- An entry with a fresh id, whose first reference is still to be made. -/
theorem Tabled.create (hs : s.Tabled E none) (st : Standing) (hfresh : s.standing nId = none)
    (hstanding : ∀ j, s'.standing j = if j = nId then some st else s.standing j) (hnew : st.fInTried = false)
    (hone : st.nRefCount = 1) (htried : s'.vvTried = s.vvTried) (hvvNew : s'.vvNew = s.vvNew)
    (hkey : s'.nKey = s.nKey) (hnTried : s'.nTried = s.nTried) (hnNew : s'.nNew = s.nNew + 1)
    (hlength : s'.vRandom.length = s.vRandom.length + 1) : s'.Tabled E (some nId) := by
  have hrefs : ∀ j, s'.references j = s.references j := fun j => references_congr fun c => by rw [hvvNew]
  have hold : ∀ j x, s.standing j = some x → s'.standing j = some x := by
    intro j x hx
    rw [hstanding, if_neg]
    · exact hx
    · rintro rfl
      rw [hfresh] at hx
      exact absurd hx.symm (some_ne_none x)
  have hnone : s.references nId = 0 := by
    rw [references_eq_zero]
    intro b hmem
    obtain ⟨x, hx, -⟩ := hs.new_id b nId hmem
    rw [hfresh] at hx
    exact absurd hx.symm (some_ne_none x)
  refine ⟨fun j x hx hin => ?_, fun c j hj => ?_, by rw [htried]; exact hs.tried_nodup,
    by rw [htried]; exact hs.tried_size, fun j x hx hin => ?_, fun c j hj => ?_, by rw [hvvNew]; exact hs.new_nodup,
    by rw [hvvNew]; exact hs.new_size, by rw [hnTried, htried]; exact hs.tried_count, ?_⟩
  · rw [hstanding] at hx
    rw [htried, hkey]
    split_ifs at hx with hj
    · cases hx
      rw [hnew] at hin
      cases hin
    · exact hs.tried_entry j x hx hin
  · rw [htried] at hj
    rw [hkey]
    obtain ⟨x, hx, hrest⟩ := hs.tried_id c j hj
    exact ⟨x, hold j x hx, hrest⟩
  · rw [hrefs]
    rw [hstanding] at hx
    split_ifs at hx with hj
    · rw [hj, if_pos rfl, hnone, ← Option.some.inj hx, hone]
      decide
    · rw [if_neg (fun h => hj (Option.some.inj h).symm)]
      have hentry := hs.new_entry j x hx hin
      rw [if_neg (some_ne_none j).symm] at hentry
      exact hentry
  · rw [hvvNew] at hj
    obtain ⟨x, hx, hin⟩ := hs.new_id c j hj
    exact ⟨x, hold j x hx, hin⟩
  · have hcount := hs.count
    omega

/-- The entry that `Add_` creates, with its time. -/
def createdInfo (s : CAddrMan) (addr : CAddress) (source : CNetAddr) (nTimePenalty : Int64) : CAddrInfo :=
  { (s.create addr source).2.1 with
    nTime := toUInt32 (max 0 ((s.create addr source).2.1.nTime.toNat - nTimePenalty.toInt)) }

/-- The state with it, before it goes into a new bucket. -/
def created (s : CAddrMan) (addr : CAddress) (source : CNetAddr) (nTimePenalty : Int64) : CAddrMan :=
  { (s.create addr source).2.2.setInfo s.nIdCount (s.createdInfo addr source nTimePenalty) with
    nNew := (s.create addr source).2.2.nNew + 1 }

/-- The created entry with its first reference. -/
def referencedInfo (s : CAddrMan) (addr : CAddress) (source : CNetAddr) (nTimePenalty : Int64) : CAddrInfo :=
  { s.createdInfo addr source nTimePenalty with
    nRefCount := (s.createdInfo addr source nTimePenalty).nRefCount + 1 }

section Created

variable (addr : CAddress) (source : CNetAddr) (nTimePenalty : Int64)

theorem lookup_created (j : Nat) : (s.created addr source nTimePenalty).mapInfo.lookup j =
    if j = s.nIdCount then some (s.createdInfo addr source nTimePenalty) else s.mapInfo.lookup j := by
  show ((s.create addr source).2.2.setInfo s.nIdCount (s.createdInfo addr source nTimePenalty)).mapInfo.lookup j = _
  rw [lookup_setInfo]
  split_ifs with hj
  · rfl
  · show (s.mapInfo.insert s.nIdCount _).lookup j = _
    rw [AList.lookup_insert_ne hj]

theorem Indexed.created (hi : s.Indexed) (hnone : s.find addr.service.addr = none) :
    (s.created addr source nTimePenalty).Indexed := by
  have hlook : (s.create addr source).2.2.mapInfo.lookup s.nIdCount = some (s.create addr source).2.1 := by
    show (s.mapInfo.insert s.nIdCount (s.create addr source).2.1).lookup s.nIdCount = _
    rw [AList.lookup_insert]
  have hset := (hi.create hnone source).setInfo (s.createdInfo addr source nTimePenalty) hlook rfl rfl
  exact hset.congr rfl rfl rfl rfl

theorem Tabled.created (hi : s.Indexed) (ht : s.Tabled E none) :
    ((s.created addr source nTimePenalty).setInfo s.nIdCount (s.referencedInfo addr source nTimePenalty)).Tabled E
      (some s.nIdCount) := by
  have hfresh : s.standing s.nIdCount = none := by
    unfold standing
    rw [hi.lookup_nIdCount]
    rfl
  refine ht.create ⟨addr.service, 1, false⟩ hfresh (fun j => ?_) rfl rfl rfl rfl rfl rfl rfl ?_
  · unfold standing
    rw [lookup_setInfo]
    split_ifs with hj
    · rfl
    · rw [lookup_created, if_neg hj]
  · show (s.vRandom ++ [s.nIdCount]).length = _
    rw [List.length_append, List.length_singleton]

theorem addCreated_spec (hi : s.Indexed) (ht : s.Tabled E none) (hnone : s.find addr.service.addr = none) :
    ∃ s', (s.created addr source nTimePenalty).addToBucket E s.nIdCount (s.createdInfo addr source nTimePenalty)
      source = some s' ∧ Stepped E (.add addr source nTimePenalty) s s' := by
  have hlook : ∀ j, ((s.created addr source nTimePenalty).setInfo s.nIdCount
      (s.referencedInfo addr source nTimePenalty)).mapInfo.lookup j =
      if j = s.nIdCount then some (s.referencedInfo addr source nTimePenalty) else s.mapInfo.lookup j := by
    intro j
    rw [lookup_setInfo]
    split_ifs with hj
    · rfl
    · rw [lookup_created, if_neg hj]
  have hindexed : ((s.created addr source nTimePenalty).setInfo s.nIdCount
      (s.referencedInfo addr source nTimePenalty)).Indexed :=
    (hi.created addr source nTimePenalty hnone).setInfo _
      ((lookup_created addr source nTimePenalty s.nIdCount).trans (if_pos rfl)) rfl rfl
  have hnot : s.nIdCount ∉ s.vvNew (CAddrInfo.getNewBucket E s.nKey addr.service source) := by
    intro hmem
    obtain ⟨x, hx, -⟩ := ht.new_id _ _ hmem
    obtain ⟨e, he, -⟩ := lookup_of_standing hx
    rw [hi.lookup_nIdCount] at he
    exact absurd he.symm (some_ne_none e)
  obtain ⟨s', hadd, hs'i, hs't, haged⟩ := addToBucket_pending hindexed ((hlook s.nIdCount).trans (if_pos rfl)) rfl
    (ht.created addr source nTimePenalty hi) hnot
  refine ⟨s', (if_neg hnot).trans hadd, hs'i, hs't, haged.nKey, fun id e' he' => ?_⟩
  obtain ⟨e, he, htry, hsuccess, htried⟩ := haged.entries id e' he'
  have htried : e'.fInTried = true → e.fInTried = true :=
    fun h => (htried h).resolve_right (some_ne_none id).symm
  rw [hlook] at he
  split_ifs at he with hid
  · cases he
    exact .created htry hsuccess (Bool.eq_false_iff.mpr fun h => Bool.false_ne_true (htried h))
  · exact .kept e he htry hsuccess htried

end Created

theorem add_spec (hi : s.Indexed) (ht : s.Tabled E none) (addr : CAddress) (source : CNetAddr) (nTimePenalty : Int64) :
    ∃ s', s.step E (.add addr source nTimePenalty) = some s' ∧ Stepped E (.add addr source nTimePenalty) s s' := by
  show ∃ s', (s.add E addr source nTimePenalty).map Prod.snd = some s' ∧ _
  unfold CAddrMan.add
  by_cases hroutable : (!addr.service.addr.isRoutable) = true
  · rw [if_pos hroutable]
    exact ⟨s, rfl, .of_aged hi ht (.refl none s)⟩
  rw [if_neg hroutable]
  cases hfind : s.find addr.service.addr with
  | some found =>
    obtain ⟨nId, info⟩ := found
    obtain ⟨hlook, -⟩ := hi.find_eq_some hfind
    obtain ⟨hstanding, hpos, htry, hsuccess, hgoOn, n, hreads⟩ := refresh_spec (E := E) s addr nTimePenalty info
    have hservice : (s.refresh E addr nTimePenalty info).1.service = info.service := congrArg Standing.service hstanding
    have htried : (s.refresh E addr nTimePenalty info).1.fInTried = info.fInTried :=
      congrArg Standing.fInTried hstanding
    have hrefCount : (s.refresh E addr nTimePenalty info).1.nRefCount = info.nRefCount :=
      congrArg Standing.nRefCount hstanding
    have hi' := (hi.reads n).setInfo _ hlook hservice hpos
    have ht' := (ht.reads n).setInfo hlook hstanding
    have haged : Aged none s (setInfo { s with nReads := n } nId (s.refresh E addr nTimePenalty info).1) :=
      (Aged.reads none s n).trans
        (Aged.setInfo hlook htry hsuccess fun h => .inl (by rw [← htried]; exact h))
    simp only [hreads]
    split_ifs with hgo
    · obtain ⟨hfalse, hmax⟩ := hgoOn hgo
      have hle := (ht.new_entry nId info.standing (standing_of_lookup hlook) hfalse).2.2
      have hlt : info.nRefCount < ADDRMAN_NEW_BUCKETS_PER_ADDRESS := lt_of_le_of_ne hle hmax
      obtain ⟨s', hadd, hs'i, hs't, haged'⟩ := addToBucket_spec hi' ht'
        (by rw [lookup_setInfo, if_pos rfl]) (by rw [htried]; exact hfalse) (by rw [hrefCount]; exact hlt) source
      rw [hadd]
      exact ⟨s', rfl, .of_aged hs'i hs't (haged.trans haged')⟩
    · exact ⟨_, rfl, .of_aged hi' ht' haged⟩
  | none =>
    obtain ⟨s', hadd, hstepped⟩ := addCreated_spec addr source nTimePenalty hi ht hfind
    refine ⟨s', ?_, hstepped⟩
    show (((s.created addr source nTimePenalty).addToBucket E s.nIdCount
      (s.createdInfo addr source nTimePenalty) source).map fun s => (true, s)).map Prod.snd = _
    rw [hadd]
    rfl

end CAddrMan

end Reddcoin
