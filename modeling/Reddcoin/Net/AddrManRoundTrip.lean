import Reddcoin.Net.AddrManReload

/-!
# The round trip of the address manager

A manager that is saved and loaded has the same entries in the same buckets, and `Check_` has nothing to report.
-/

namespace Reddcoin

open Stream List

namespace CAddrMan

variable {E : AddrEnv} {s u v : CAddrMan} {id : Nat} {info : CAddrInfo}

theorem length_flatMap_le {α : Type} (l : List α) (v : α → List Nat) {size : Nat} (h : ∀ b, (v b).length ≤ size) :
    (l.flatMap v).length ≤ l.length * size := by
  rw [length_flatMap]
  have hsum := sum_le_card_nsmul (l.map fun b => (v b).length) size (by
    intro k hk
    obtain ⟨b, -, rfl⟩ := mem_map.mp hk
    exact h b)
  rw [length_map, smul_eq_mul] at hsum
  exact hsum

theorem Tabled.length_newList_le (ht : s.Tabled E none) :
    s.newList.length ≤ ADDRMAN_NEW_BUCKET_COUNT * ADDRMAN_NEW_BUCKET_SIZE := by
  have hnodup : s.newList.Nodup := s.nodup_ids.filter _
  have hsubset : s.newList ⊆ s.newIds := by
    intro id hid
    obtain ⟨info, hlook, hnew⟩ := mem_newList.mp hid
    obtain ⟨hrefs, hone, -⟩ := ht.new_entry id _ (standing_of_lookup hlook) hnew
    rw [if_neg (Option.some_ne_none id).symm] at hrefs
    have hpos : 0 < s.newIds.count id := by
      rw [ht.count_newIds]
      omega
    exact count_pos_iff.mp hpos
  have hbound := length_flatMap_le (List.finRange ADDRMAN_NEW_BUCKET_COUNT) s.vvNew ht.new_size
  rw [length_finRange] at hbound
  exact (hnodup.subperm hsubset).length_le.trans hbound

theorem Tabled.length_triedList_le (ht : s.Tabled E none) :
    s.triedList.length ≤ ADDRMAN_TRIED_BUCKET_COUNT * ADDRMAN_TRIED_BUCKET_SIZE := by
  rw [ht.triedList_perm.length_eq]
  have hbound := length_flatMap_le (List.finRange ADDRMAN_TRIED_BUCKET_COUNT) s.vvTried ht.tried_size
  rw [length_finRange] at hbound
  exact hbound

theorem Tabled.mem_vvNew (ht : s.Tabled E none) {b : NewBucket} (h : id ∈ s.vvNew b) : id ∈ s.newList := by
  obtain ⟨st, hst, hfalse⟩ := ht.new_id b id h
  obtain ⟨info, hlook, rfl⟩ := lookup_of_standing hst
  exact mem_newList.mpr ⟨info, hlook, hfalse⟩

/-- A part of a list, by positions in the list. -/
theorem flatMap_range' {α : Type} (g : Nat → List α) (before part after : List Nat) :
    (List.range' before.length part.length).flatMap (fun j => g ((before ++ part ++ after).getD j 0)) =
      part.flatMap g := by
  induction part generalizing before with
  | nil => rfl
  | cons n part ih =>
    have hat : (before ++ n :: part ++ after).getD before.length 0 = n := by
      rw [append_assoc, getD_append_right _ _ _ _ (Nat.le_refl _), Nat.sub_self]
      rfl
    have hrest := ih (before ++ [n])
    rw [length_append, length_singleton, append_assoc before [n] part] at hrest
    rw [length_cons, range'_succ, flatMap_cons, flatMap_cons, hat]
    exact congrArg (g n ++ ·) hrest

/-- The bytes of the new entries, by their numbers. -/
theorem flatMap_newList (s : CAddrMan) :
    s.newList.flatMap (fun id => (s.entry id).write) =
      (List.range' 0 s.newList.length).flatMap fun j => (s.diskEntry j).write :=
  (flatMap_range' (fun id => (s.entry id).write) [] s.newList s.triedList).symm

theorem flatMap_triedList (s : CAddrMan) :
    s.triedList.flatMap (fun id => (s.entry id).write) =
      (List.range' s.newList.length s.triedList.length).flatMap fun j => (s.diskEntry j).write := by
  have h := flatMap_range' (fun id => (s.entry id).write) s.newList s.triedList []
  rw [append_nil] at h
  exact h.symm

/-- What `Serialize` writes for a state in order. -/
theorem serialize_eq (hi : s.Indexed) (ht : s.Tabled E none) :
    s.serialize = writeData 1 0 ++ (writeBytes s.nKey ++ (writeSigned 4 s.nNew ++ (writeSigned 4 s.nTried ++
      (writeSigned 4 ADDRMAN_NEW_BUCKET_COUNT ++
        ((List.range' 0 s.newList.length).flatMap (fun j => (s.diskEntry j).write) ++
          ((List.range' s.newList.length s.triedList.length).flatMap (fun j => (s.diskEntry j).write) ++
            (List.finRange ADDRMAN_NEW_BUCKET_COUNT).flatMap fun b =>
              writeSigned 4 ((s.vvNew b).map s.renumber).length ++
                ((s.vvNew b).map s.renumber).flatMap fun j : Nat => writeSigned 4 (j : Int))))))) := by
  have hcount : ((0 + (s.ids.filter fun id => !s.isTried id).length : Nat) : Int) = s.nNew := by
    rw [Nat.zero_add]
    exact ht.length_newList hi
  obtain ⟨hbytes, hindex, -⟩ := writeNewInfos_eq (s := s) s.ids 0 (fun _ => 0) s.nodup_ids
    (fun id hid => ⟨hid, ht.nRefCount_ne_zero hid⟩) hcount
  have hcountTried : ((0 + (s.ids.filter s.isTried).length : Nat) : Int) = s.nTried := by
    rw [Nat.zero_add]
    exact ht.length_triedList
  have htried := writeTriedInfos_eq (s := s) s.ids 0 (fun id hid => hid) hcountTried
  have hbuckets : ∀ b, writeBucket (s.writeNewInfos s.ids 0 fun _ => 0).2 (s.vvNew b) =
      writeSigned 4 ((s.vvNew b).map s.renumber).length ++
        ((s.vvNew b).map s.renumber).flatMap fun j : Nat => writeSigned 4 (j : Int) := by
    intro b
    unfold writeBucket
    rw [length_map, flatMap_map]
    congr 1
    refine flatMap_congr fun id hid => ?_
    have hnew := ht.mem_vvNew hid
    rw [hindex id hnew, Nat.zero_add, renumber_of_new hnew]
    rfl
  unfold serialize
  simp only [hbuckets, append_assoc]
  rw [hbytes, htried, ← flatMap_newList, ← flatMap_triedList]
  rfl

/-- The state `u` has the entries of `s` under other ids. -/
structure Renumbered (s u : CAddrMan) (number : Nat → Nat) : Prop where
  injective : ∀ id id', id ∈ s.ids → id' ∈ s.ids → number id = number id' → id = id'
  /-- Only the last try and the place in `vRandom` differ. -/
  entry : ∀ id info, s.mapInfo.lookup id = some info → ∃ pos, u.mapInfo.lookup (number id) =
    some { info with nLastTry := 0, nRandomPos := pos }
  onto : ∀ j info', u.mapInfo.lookup j = some info' → ∃ id ∈ s.ids, number id = j
  mapAddr : ∀ a, u.mapAddr.lookup a = (s.mapAddr.lookup a).map number
  vRandom : u.vRandom.Perm (s.vRandom.map number)
  vvTried : ∀ b, (u.vvTried b).Perm ((s.vvTried b).map number)
  vvNew : ∀ b, (u.vvNew b).Perm ((s.vvNew b).map number)
  nKey : u.nKey = s.nKey
  nTried : u.nTried = s.nTried
  nNew : u.nNew = s.nNew

theorem signedRange_four {n : Nat} (h : n < 2 ^ 31) : SignedRange 4 (n : Int) := by
  constructor
  · omega
  · exact_mod_cast h

theorem Tabled.mem_ids_of_new (ht : s.Tabled E none) {b : NewBucket} (h : id ∈ s.vvNew b) : id ∈ s.ids :=
  (mem_filter.mp (ht.mem_vvNew h)).1

theorem Tabled.nodup_renumbered (ht : s.Tabled E none) (b : NewBucket) : ((s.vvNew b).map s.renumber).Nodup := by
  refine (nodup_map_iff_inj_on (ht.new_nodup b)).mpr fun id hid id' hid' heq => ?_
  exact renumber_injective (ht.mem_ids_of_new hid) (ht.mem_ids_of_new hid') heq

theorem Tabled.card_renumbered (ht : s.Tabled E none) (j : Nat) :
    (Finset.univ.filter fun b => j ∈ (s.vvNew b).map s.renumber).card ≤ ADDRMAN_NEW_BUCKETS_PER_ADDRESS := by
  by_cases hsome : ∃ b, j ∈ (s.vvNew b).map s.renumber
  · obtain ⟨b, hb⟩ := hsome
    obtain ⟨id, hid, rfl⟩ := mem_map.mp hb
    obtain ⟨info, hlook, hnew⟩ := mem_newList.mp (ht.mem_vvNew hid)
    obtain ⟨hrefs, -, hmax⟩ := ht.new_entry id _ (standing_of_lookup hlook) hnew
    rw [if_neg (Option.some_ne_none id).symm] at hrefs
    have hsame : ∀ c, s.renumber id ∈ (s.vvNew c).map s.renumber ↔ id ∈ s.vvNew c := by
      intro c
      constructor
      · intro hmem
        obtain ⟨id', hid', heq⟩ := mem_map.mp hmem
        rw [← renumber_injective (ht.mem_ids_of_new hid') (mem_ids.mpr ⟨info, hlook⟩) heq]
        exact hid'
      · exact fun hmem => mem_map.mpr ⟨id, hmem, rfl⟩
    simp only [hsame]
    rw [← references_eq_card]
    omega
  · have hempty : (Finset.univ.filter fun b => j ∈ (s.vvNew b).map s.renumber) = ∅ := by
      rw [Finset.filter_eq_empty_iff]
      exact fun b _ hb => hsome ⟨b, hb⟩
    rw [hempty, Finset.card_empty]
    exact Nat.zero_le _

theorem reads_unserialize (hi : s.Indexed) (ht : s.Tabled E none) (hkey : s.nKey.length ≤ MAX_SIZE) (t : CAddrMan) :
    ∃ v u, Reads (unserialize E t) s.serialize u ∧ v.Loaded s.diskEntry s.newList.length E s.diskIds.length ∧
      v.nIdCount = s.diskIds.length ∧ v.nKey = s.nKey ∧ v.nNew = s.nNew ∧ v.nTried = s.nTried ∧
      u.Referenced s.diskEntry s.newList.length s.diskIds.length ∧ SameEntries v u ∧
      ∀ b j, j ∈ u.vvNew b ↔ j ∈ (s.vvNew b).map s.renumber := by
  have hnew := ht.length_newList hi
  have htried := ht.length_triedList
  have hnewLe : s.newList.length ≤ 2 ^ 14 := ht.length_newList_le
  have htriedLe : s.triedList.length ≤ 2 ^ 12 := ht.length_triedList_le
  have hlength : s.newList.length + s.triedList.length = s.diskIds.length := by
    unfold diskIds
    rw [length_append]
  have hnNew : s.nNew.toNat = s.newList.length := by omega
  have hnTried : s.nTried.toNat = s.triedList.length := by omega
  -- The three loops.
  have hempty : Loaded s.diskEntry s.newList.length E 0
      { new s.nKey with nNew := s.nNew, nTried := s.nTried, nReads := t.nReads } :=
    ⟨fun j => rfl, fun a j => by simp [new], rfl, fun b => rfl, fun b => rfl⟩
  obtain ⟨v₁, hreads₁, hv₁, hheader₁⟩ := reads_readNewInfos
    (fun k hk j hj => hi.diskEntry_fresh (by omega) hj) s.newList.length 0 hempty (Nat.zero_add _)
  have hstart : Loaded s.diskEntry s.newList.length E s.newList.length { v₁ with nIdCount := s.newList.length } :=
    ⟨hv₁.info, hv₁.addr, hv₁.random, hv₁.tried, hv₁.new⟩
  obtain ⟨v₂, hreads₂, hv₂, hheader₂, hid₂⟩ := reads_readTriedInfos (n := s.diskIds.length)
    (fun k hk j hj => hi.diskEntry_fresh hk hj) s.triedList.length s.newList.length hstart (Nat.le_refl _) hlength rfl
    (by
      intro k hm hk
      rw [show CAddrMan.nKey { v₁ with nIdCount := s.newList.length } = s.nKey from hheader₁.nKey]
      exact ht.triedBelow_room hm hk)
  have hv₂' : Loaded s.diskEntry s.newList.length E s.diskIds.length { v₂ with nTried := v₂.nTried - (0 : Nat) } :=
    ⟨hv₂.info, hv₂.addr, hv₂.random, hv₂.tried, hv₂.new⟩
  have hsmall : ∀ b, ((s.vvNew b).map s.renumber).length < 2 ^ 31 := by
    intro b
    rw [length_map]
    exact Nat.lt_of_le_of_lt (ht.new_size b) (by decide)
  obtain ⟨u, hreads, hu, hsame, hmem⟩ := reads_readBuckets (w := fun b => (s.vvNew b).map s.renumber) (f := s.diskEntry)
    (m := s.newList.length) (n := s.diskIds.length) ht.nodup_renumbered
    (by
      intro b j hj
      obtain ⟨id, hid, rfl⟩ := mem_map.mp hj
      exact renumber_lt (ht.mem_ids_of_new hid))
    (by omega) hsmall ht.card_renumbered ADDRMAN_NEW_BUCKET_COUNT 0 (Nat.zero_add _) hv₂'.referenced
    (fun c j => by simp [hv₂.new])
  refine ⟨{ v₂ with nTried := v₂.nTried - (0 : Nat) }, u, ?_, hv₂', hid₂, ?_, ?_, ?_, hu, hsame, hmem⟩
  · rw [serialize_eq hi ht]
    refine reads_bind (reads_readData (by decide)) (reads_bind (reads_readBytes hkey)
      (reads_bind (reads_readSigned ?_) (reads_bind (reads_readSigned ?_)
        (reads_bind (reads_readSigned (by decide)) ?_))))
    · rw [← hnew]
      exact signedRange_four (by omega)
    · rw [← htried]
      exact signedRange_four (by omega)
    · rw [if_neg (by omega), hnNew, hnTried, Int.toNat_natCast]
      rw [drop_zero] at hreads
      exact reads_bind hreads₁ (reads_bind hreads₂ hreads)
  · exact hheader₂.nKey.trans hheader₁.nKey
  · exact hheader₂.nNew.trans hheader₁.nNew
  · show v₂.nTried - (0 : Nat) = s.nTried
    rw [hheader₂.nTried, Int.natCast_zero, Int.sub_zero]
    exact hheader₁.nTried

section Reloaded

variable {number : Nat → Nat}

section

variable (h : Renumbered s u number)

include h

/-- A number is in a new bucket just when its id was. -/
theorem Renumbered.mem_vvNew (ht : s.Tabled E none) (hid : id ∈ s.ids) (b : NewBucket) :
    number id ∈ u.vvNew b ↔ id ∈ s.vvNew b := by
  rw [(h.vvNew b).mem_iff, mem_map]
  constructor
  · rintro ⟨id', hmem, heq⟩
    rw [← h.injective id' id (ht.mem_ids_of_new hmem) hid heq]
    exact hmem
  · exact fun hmem => ⟨id, hmem, rfl⟩

theorem Renumbered.standing (hid : id ∈ s.ids) : u.standing (number id) = s.standing id := by
  have hlook := lookup_entry hid
  obtain ⟨pos, hpos⟩ := h.entry id _ hlook
  rw [standing_of_lookup hlook, standing_of_lookup hpos]
  rfl

/-- The tables of the renumbered state are in order. -/
theorem Renumbered.tabled (ht : s.Tabled E none) : u.Tabled E none := by
  have hback : ∀ j st, u.standing j = some st → ∃ id ∈ s.ids, number id = j ∧ s.standing id = some st := by
    intro j st hst
    obtain ⟨info, hlook, -⟩ := lookup_of_standing hst
    obtain ⟨id, hid, rfl⟩ := h.onto j info hlook
    exact ⟨id, hid, rfl, by rw [← h.standing hid]; exact hst⟩
  have hrefs : ∀ id ∈ s.ids, u.references (number id) = s.references id := by
    intro id hid
    unfold references
    simp only [h.mem_vvNew ht hid]
  have hidsTried : ∀ b, ∀ id ∈ s.vvTried b, id ∈ s.ids := fun b id hmem => (ht.mem_vvTried.mp hmem).1
  refine ⟨fun j st hst hin => ?_, fun b j hj => ?_, fun b => ?_, fun b => ?_, fun j st hst hin => ?_, fun b j hj => ?_,
    fun b => ?_, fun b => ?_, ?_, ?_⟩
  · obtain ⟨id, hid, rfl, hst'⟩ := hback j st hst
    obtain ⟨hzero, hmem⟩ := ht.tried_entry id st hst' hin
    refine ⟨hzero, ?_⟩
    rw [h.nKey, (h.vvTried _).mem_iff]
    exact mem_map.mpr ⟨id, hmem, rfl⟩
  · rw [(h.vvTried b).mem_iff] at hj
    obtain ⟨id, hmem, rfl⟩ := mem_map.mp hj
    rw [h.standing (hidsTried b id hmem), h.nKey]
    exact ht.tried_id b id hmem
  · rw [(h.vvTried b).nodup_iff]
    exact (nodup_map_iff_inj_on (ht.tried_nodup b)).mpr fun id hid id' hid' =>
      h.injective id id' (hidsTried b id hid) (hidsTried b id' hid')
  · rw [(h.vvTried b).length_eq, length_map]
    exact ht.tried_size b
  · obtain ⟨id, hid, rfl, hst'⟩ := hback j st hst
    rw [hrefs id hid, if_neg (Option.some_ne_none _).symm]
    have hentry := ht.new_entry id st hst' hin
    rw [if_neg (Option.some_ne_none id).symm] at hentry
    exact hentry
  · rw [(h.vvNew b).mem_iff] at hj
    obtain ⟨id, hmem, rfl⟩ := mem_map.mp hj
    rw [h.standing (ht.mem_ids_of_new hmem)]
    exact ht.new_id b id hmem
  · rw [(h.vvNew b).nodup_iff]
    exact (nodup_map_iff_inj_on (ht.new_nodup b)).mpr fun id hid id' hid' =>
      h.injective id id' (ht.mem_ids_of_new hid) (ht.mem_ids_of_new hid')
  · rw [(h.vvNew b).length_eq, length_map]
    exact ht.new_size b
  · rw [h.nTried, ht.tried_count]
    refine Finset.sum_congr rfl fun b _ => ?_
    rw [(h.vvTried b).length_eq, length_map]
  · rw [h.vRandom.length_eq, length_map, h.nTried, h.nNew]
    exact ht.count

/-- A success that was recorded still is. -/
theorem Renumbered.dated (hd : s.Dated) : u.Dated := by
  intro j info' hlook
  obtain ⟨id, hid, rfl⟩ := h.onto j info' hlook
  obtain ⟨pos, hpos⟩ := h.entry id _ (lookup_entry hid)
  rw [hlook] at hpos
  cases hpos
  exact hd id (s.entry id) (lookup_entry hid)

theorem Renumbered.attempted : u.Attempted := by
  intro j info' hlook
  obtain ⟨id, hid, rfl⟩ := h.onto j info' hlook
  obtain ⟨pos, hpos⟩ := h.entry id _ (lookup_entry hid)
  rw [hlook] at hpos
  cases hpos
  exact Int64.le_refl 0

end

end Reloaded

section Loaded

variable (hi : s.Indexed) (ht : s.Tabled E none) (hv : v.Loaded s.diskEntry s.newList.length E s.diskIds.length)
  (hkey : v.nKey = s.nKey) (hnNew : v.nNew = s.nNew) (hnTried : v.nTried = s.nTried) (hcount : v.nIdCount = s.diskIds.length)
  (hu : u.Referenced s.diskEntry s.newList.length s.diskIds.length) (hsame : SameEntries v u)
  (hmem : ∀ b j, j ∈ u.vvNew b ↔ j ∈ (s.vvNew b).map s.renumber)

include ht hmem in
theorem references_renumber (hid : id ∈ s.ids) : u.references (s.renumber id) = s.references id := by
  unfold references
  simp only [hmem]
  congr 1
  funext b
  refine decide_eq_decide.mpr ⟨fun h => ?_, fun h => mem_map.mpr ⟨id, h, rfl⟩⟩
  obtain ⟨id', hid', heq⟩ := mem_map.mp h
  rw [← renumber_injective (ht.mem_ids_of_new hid') hid heq]
  exact hid'

include ht hu hmem in
/-- The entry under its new number. -/
theorem lookup_renumber {info : CAddrInfo} (hlook : s.mapInfo.lookup id = some info) :
    u.mapInfo.lookup (s.renumber id) = some { info with nLastTry := 0, nRandomPos := s.renumber id } := by
  have hid : id ∈ s.ids := mem_ids.mpr ⟨info, hlook⟩
  have hentry := entry_of_lookup hlook
  have htried : decide (s.newList.length ≤ s.renumber id) = info.fInTried := by
    rw [Bool.eq_iff_iff, decide_eq_true_iff, length_newList_le_renumber hid]
    unfold isTried
    rw [hentry]
  have hrefs : ((u.references (s.renumber id) : Nat) : Int) = info.nRefCount := by
    rw [references_renumber ht hmem hid]
    cases hin : info.fInTried with
    | false =>
      have hnew := (ht.new_entry id _ (standing_of_lookup hlook) hin).1
      rw [if_neg (Option.some_ne_none id).symm] at hnew
      have hnew : info.nRefCount = s.references id + 0 := hnew
      omega
    | true =>
      have hzero : info.nRefCount = 0 := (ht.tried_entry id _ (standing_of_lookup hlook) hin).1
      have hnone : s.references id = 0 := by
        rw [references_eq_zero]
        intro b hmem
        obtain ⟨info', hlook', hfalse⟩ := mem_newList.mp (ht.mem_vvNew hmem)
        rw [hlook] at hlook'
        cases hlook'
        rw [hin] at hfalse
        exact Bool.false_ne_true hfalse.symm
      omega
  rw [hu.info, if_pos (renumber_lt hid)]
  unfold loadedInfo
  rw [diskEntry_renumber hid, hentry, htried, hrefs]
  rfl

include hi ht hv hkey hnNew hnTried hu hsame hmem in
theorem renumbered_of_loaded : Renumbered s u s.renumber where
  injective id id' := renumber_injective
  entry id info hlook := ⟨_, lookup_renumber ht hu hmem hlook⟩
  onto j info' hlook := by
    rw [hu.info] at hlook
    split_ifs at hlook with hj
    exact exists_renumber hj
  mapAddr a := by
    rw [hsame.mapAddr]
    refine Option.ext fun j => ?_
    rw [hv.addr, Option.map_eq_some_iff]
    constructor
    · rintro ⟨hj, rfl⟩
      obtain ⟨id, hid, rfl⟩ := exists_renumber hj
      rw [diskEntry_renumber hid]
      exact ⟨id, hi.entry_addr id _ (lookup_entry hid), rfl⟩
    · rintro ⟨id, hlook, rfl⟩
      obtain ⟨info, hinfo, haddr⟩ := hi.addr_entry a id hlook
      have hid : id ∈ s.ids := mem_ids.mpr ⟨info, hinfo⟩
      rw [diskEntry_renumber hid, entry_of_lookup hinfo]
      exact ⟨renumber_lt hid, haddr⟩
  vRandom := by
    rw [hsame.vRandom, hv.random]
    have hnodup : (s.vRandom.map s.renumber).Nodup :=
      (nodup_map_iff_inj_on hi.nodup_vRandom).mpr fun id hid id' hid' heq =>
        renumber_injective (mem_ids.mpr (hi.mem_vRandom.mp hid)) (mem_ids.mpr (hi.mem_vRandom.mp hid')) heq
    rw [perm_ext_iff_of_nodup nodup_range hnodup]
    intro j
    rw [mem_range, mem_map]
    constructor
    · intro hj
      obtain ⟨id, hid, heq⟩ := exists_renumber hj
      exact ⟨id, hi.mem_vRandom.mpr (mem_ids.mp hid), heq⟩
    · rintro ⟨id, hid, rfl⟩
      exact renumber_lt (mem_ids.mpr (hi.mem_vRandom.mp hid))
  vvTried b := by
    rw [hsame.vvTried, hv.tried, hkey]
    exact ht.triedBelow_perm b
  vvNew b := (perm_ext_iff_of_nodup (hu.nodup b) (ht.nodup_renumbered b)).mpr (hmem b)
  nKey := hsame.header.nKey.trans hkey
  nTried := hsame.header.nTried.trans hnTried
  nNew := hsame.header.nNew.trans hnNew

include hv hcount hu hsame in
theorem indexed_of_loaded : u.Indexed where
  entry_addr j info hlook := by
    rw [hu.info] at hlook
    split_ifs at hlook with hj
    rw [hsame.mapAddr, hv.addr, ← Option.some.inj hlook]
    exact ⟨hj, rfl⟩
  addr_entry a j hlook := by
    rw [hsame.mapAddr, hv.addr] at hlook
    rw [hu.info, if_pos hlook.1]
    exact ⟨_, rfl, hlook.2⟩
  entry_random j info hlook := by
    rw [hu.info] at hlook
    split_ifs at hlook with hj
    refine ⟨j, by rw [← Option.some.inj hlook]; rfl, ?_⟩
    rw [hsame.vRandom, hv.random]
    exact getElem?_range hj
  random_entry i j hat := by
    rw [hsame.vRandom, hv.random] at hat
    obtain ⟨hlt, heq⟩ := List.getElem?_eq_some_iff.mp hat
    rw [List.getElem_range] at heq
    rw [length_range] at hlt
    rw [← heq, hu.info, if_pos hlt]
    exact ⟨_, rfl, rfl⟩
  ids_lt j info hlook := by
    rw [hu.info] at hlook
    split_ifs at hlook with hj
    rw [hsame.nIdCount, hcount]
    exact hj

end Loaded

/-! ## Reachable states -/

/-- The states that calls of a kind and reloads lead to. -/
inductive Reachable (E : AddrEnv) (A : AddrCall → Prop) : CAddrMan → Prop
  | new (nKey : List UInt8) (size : nKey.length = 32) : Reachable E A (new nKey)
  | call {s s' : CAddrMan} (call : AddrCall) (reached : Reachable E A s) (allowed : A call)
      (step : s.step E call = some s') : Reachable E A s'
  | reload {s t u : CAddrMan} (reached : Reachable E A s)
      (loaded : (unserialize E t).run s.serialize = some (u, [])) : Reachable E A u

/-- A state in order, with what it becomes when it is saved and loaded into any manager. -/
theorem reload_of_inOrder (hi : s.Indexed) (ht : s.Tabled E none) (hkey : s.nKey.length = 32) (t : CAddrMan) :
    ∃ u, (unserialize E t).run s.serialize = some (u, []) ∧ Renumbered s u s.renumber ∧ u.Indexed ∧ u.Tabled E none := by
  have hmax : s.nKey.length ≤ MAX_SIZE := by
    rw [hkey]
    decide
  obtain ⟨v, u, hreads, hv, hcount, hkey', hnNew, hnTried, hu, hsame, hmem⟩ := reads_unserialize hi ht hmax t
  have hrenumbered := renumbered_of_loaded hi ht hv hkey' hnNew hnTried hu hsame hmem
  have hrun := hreads []
  rw [append_nil] at hrun
  exact ⟨u, hrun, hrenumbered, indexed_of_loaded hv hcount hu hsame, hrenumbered.tabled ht⟩

/-- What holds in all reachable states. -/
theorem Reachable.inOrder {A : AddrCall → Prop} (h : Reachable E A s) :
    s.Indexed ∧ s.Tabled E none ∧ s.nKey.length = 32 ∧ ((∀ addr nTime, A (.good addr nTime) → 0 < nTime) → s.Dated) := by
  induction h with
  | new nKey size => exact ⟨indexed_new nKey, tabled_new nKey, size, fun _ id info h => by simp [CAddrMan.new] at h⟩
  | @call s s' call reached allowed step ih =>
    obtain ⟨hi, ht, hkey, hdated⟩ := ih
    obtain ⟨s'', hstep, hstepped⟩ := step_spec hi ht call
    rw [step] at hstep
    cases hstep
    refine ⟨hstepped.indexed, hstepped.tabled, by rw [hstepped.nKey]; exact hkey, fun hgood => ?_⟩
    exact hstepped.dated (hdated hgood) fun addr nTime heq => hgood addr nTime (heq ▸ allowed)
  | @reload s t u reached loaded ih =>
    obtain ⟨hi, ht, hkey, hdated⟩ := ih
    obtain ⟨u', hrun, hrenumbered, hui, hut⟩ := reload_of_inOrder hi ht hkey t
    rw [loaded] at hrun
    cases hrun
    exact ⟨hui, hut, by rw [hrenumbered.nKey]; exact hkey, fun hgood => hrenumbered.dated (hdated hgood)⟩

/-- A reload loses nothing, and `Check_` has nothing to report after it. -/
theorem reload_renumbered (E : AddrEnv) (A : AddrCall → Prop) (s t : CAddrMan) (h : Reachable E A s) :
    ∃ u, (unserialize E t).run s.serialize = some (u, []) ∧ (∃ number, Renumbered s u number) ∧
      ((∀ addr nTime, A (.good addr nTime) → 0 < nTime) → u.check = 0) := by
  obtain ⟨hi, ht, hkey, hdated⟩ := h.inOrder
  obtain ⟨u, hrun, hrenumbered, hui, hut⟩ := reload_of_inOrder hi ht hkey t
  exact ⟨u, hrun, ⟨_, hrenumbered⟩, fun hgood =>
    check_eq_zero hui hut (hrenumbered.dated (hdated hgood)) hrenumbered.attempted⟩

theorem Reachable.run {A : AddrCall → Prop} (h : Reachable E A s) {calls : List AddrCall} {s' : CAddrMan}
    (hcalls : ∀ call ∈ calls, A call) (hrun : s.run E calls = some s') : Reachable E A s' := by
  induction calls generalizing s with
  | nil =>
    cases hrun
    exact h
  | cons call calls ih =>
    unfold CAddrMan.run at hrun
    rw [foldlM_cons] at hrun
    obtain ⟨t, hstep, hrest⟩ := Option.bind_eq_some_iff.mp hrun
    exact ih (h.call call (hcalls call mem_cons_self) hstep) (fun c hc => hcalls c (mem_cons_of_mem call hc))
      hrest

namespace AddrManExample

def key : List UInt8 := List.replicate 32 7

/-- An address that is added, and tried at a time. -/
def triedAt (nTime : Int64) : List AddrCall := [.add address addr 0, .good service nTime]

theorem exists_run (calls : List AddrCall) : ∃ s, (new key).run env calls = some s := by
  obtain ⟨s, hrun, -⟩ := run_spec (P := fun _ => True) (A := fun _ => True) (fun _ _ _ _ _ _ => trivial) calls
    (fun _ _ => trivial) (indexed_new key) (tabled_new (E := env) key) trivial
  exact ⟨s, hrun⟩

end AddrManExample

open AddrManExample in
theorem reload_renumbered_example :
    ∃ s u, (new key).run env (triedAt 1500) = some s ∧ (unserialize env (new [])).run s.serialize = some (u, []) ∧
      (∃ number, Renumbered s u number) ∧ u.check = 0 := by
  obtain ⟨s, hrun⟩ := exists_run (triedAt 1500)
  have hreached : Reachable env (fun call => call ∈ triedAt 1500) s :=
    (Reachable.new key rfl).run (fun call h => h) hrun
  obtain ⟨u, hload, hrenumbered, hcheck⟩ := reload_renumbered env (fun call => call ∈ triedAt 1500) s (new []) hreached
  refine ⟨s, u, hrun, hload, hrenumbered, hcheck fun a nTime hmem => ?_⟩
  unfold triedAt at hmem
  simp only [mem_cons, reduceCtorEq, AddrCall.good.injEq, not_mem_nil, or_false, false_or] at hmem
  rw [hmem.2]
  decide

open AddrManExample in
/-- A success at time 0 is reported, before the reload and after it. -/
theorem reload_reported :
    ¬ ∀ (E : AddrEnv) (s t : CAddrMan), Reachable E (fun _ => True) s →
      ∃ u, (unserialize E t).run s.serialize = some (u, []) ∧ (∃ number, Renumbered s u number) ∧ u.check = 0 := by
  intro h
  obtain ⟨s, hrun⟩ := exists_run (triedAt 0)
  obtain ⟨u, hload, -, hcheck⟩ := h env s (new []) ((Reachable.new key rfl).run (fun _ _ => trivial) hrun)
  have hreport : (((new key).run env (triedAt 0)).bind fun s => (unserialize env (new [])).run s.serialize).map
      (fun r => r.1.check) = some (-1) := by
    decide +kernel
  rw [hrun, Option.bind_some, hload, Option.map_some, hcheck] at hreport
  exact absurd hreport (by decide)

end CAddrMan

end Reddcoin
