import Mathlib.Data.Int.ConditionallyCompleteOrder
import Reddcoin.Lib.Draw
import Reddcoin.Net.AddrManAdd

/-!
# Moving an entry to the tried table

The entry that has to make place in a full bucket goes back to a new bucket.  If its own is full, the one that the
moved entry has just left has room.
-/

namespace Reddcoin

open List Function

namespace CAddrMan

open Function (update)

variable {E : AddrEnv} {s s' : CAddrMan} {nId id : Nat} {info : CAddrInfo} {kb : TriedBucket}

/-- `mapInfo[id].nLastSuccess`. -/
def lastSuccess (s : CAddrMan) (id : Nat) : Int :=
  ((s.mapInfo.lookup id).map fun info => info.nLastSuccess.toInt).getD 0

/-- The entries of a bucket that `SelectTried` inspects, in its order, each with the position from which it is taken; and
the others. -/
def inspected (E : AddrEnv) (s : CAddrMan) (kb : TriedBucket) : List (Nat × Nat) × List Nat :=
  Draw.draw (fun k => E.getRand (s.nReads + k)) ADDRMAN_TRIED_ENTRIES_INSPECT_ON_EVICT 0 (s.vvTried kb)

theorem lastSuccess_eq (h : s.mapInfo.lookup id = some info) : s.lastSuccess id = info.nLastSuccess.toInt := by
  rw [lastSuccess, h]
  rfl

/-- The state with a bucket shuffled. -/
def shuffled (s : CAddrMan) (kb : TriedBucket) (v : List Nat) (nReads : Nat) : CAddrMan :=
  { s with vvTried := update s.vvTried kb v, nReads := nReads }

@[simp]
theorem vvTried_shuffled (s : CAddrMan) (kb : TriedBucket) (v : List Nat) (n : Nat) :
    (s.shuffled kb v n).vvTried kb = v :=
  update_self _ _ _

/-- What a turn leaves in the bucket. -/
theorem set_exchange (front l : List Nat) (a n : Nat) (hn : n < (a :: l).length) :
    ((front ++ a :: l).set (n + front.length) a).set front.length ((a :: l).getD n a) =
      front ++ [(a :: l).getD n a] ++ ((a :: l).set n a).tail := by
  rw [set_append_right _ _ (Nat.le_add_left _ _), Nat.add_sub_cancel, set_append_right _ _ le_rfl, Nat.sub_self,
    append_assoc]
  congr 1
  cases n with
  | zero => rfl
  | succ n => rfl

/-- The loop draws from what is left of the bucket, and keeps the first least entry. -/
theorem selectTriedLoop_eq (turns : Nat) (front l : List Nat) (oldest : Option (Nat × Nat)) (s : CAddrMan)
    (hbucket : s.vvTried kb = front ++ l) (hids : ∀ id ∈ l, ∃ info, s.mapInfo.lookup id = some info)
    (hold : ∀ p, oldest = some p → ∃ info, s.mapInfo.lookup p.1 = some info) :
    let d := Draw.draw (fun k => E.getRand (s.nReads + k)) turns front.length l
    selectTriedLoop E kb turns front.length oldest s =
      some (d.1.foldl (List.argAux fun p q => s.lastSuccess p.1 < s.lastSuccess q.1) oldest,
        s.shuffled kb (front ++ Draw.drawn d) (s.nReads + d.1.length)) := by
  have hsame : s.shuffled kb (front ++ l) s.nReads = s := by
    rw [shuffled, ← hbucket, update_eq_self]
  induction turns generalizing front l oldest s with
  | zero => exact congrArg (fun s => some (oldest, s)) hsame.symm
  | succ turns ih =>
    unfold selectTriedLoop
    cases l with
    | nil =>
      simp only [hbucket, append_nil, le_refl, if_true]
      exact congrArg (fun s => some (oldest, s)) hsame.symm
    | cons a l =>
      have hlen : (front ++ a :: l).length - front.length = l.length + 1 := by
        rw [length_append, Nat.add_sub_cancel_left]
        rfl
      have hmore : ¬ (front ++ a :: l).length ≤ front.length := by omega
      have hrand : s.randInt E (l.length + 1) = E.getRand s.nReads % (l.length + 1) := if_neg (Nat.succ_ne_zero _)
      have hn : E.getRand s.nReads % (l.length + 1) < (a :: l).length := Nat.mod_lt _ (Nat.succ_pos _)
      rw [Draw.draw]
      simp only [hbucket, hlen, hrand, if_neg hmore, Nat.add_zero]
      generalize E.getRand s.nReads % (l.length + 1) = n at hn
      have hat : (front ++ a :: l)[n + front.length]? = some ((a :: l).getD n a) := by
        rw [getElem?_append_right (Nat.le_add_left _ _), Nat.add_sub_cancel, getD_eq_getElem?_getD,
          getElem?_eq_getElem hn]
        rfl
      have hfront : (front ++ a :: l)[front.length]? = some a := by
        rw [getElem?_append_right le_rfl, Nat.sub_self]
        rfl
      have hperm := Draw.exchange_perm a l hn
      simp only [hat, hfront, set_exchange front l a n hn]
      generalize (a :: l).getD n a = nTemp at hperm
      obtain ⟨info, hinfo⟩ := hids nTemp (hperm.mem_iff.mp mem_cons_self)
      generalize ((a :: l).set n a).tail = rest at hperm
      have hlength : (front ++ [nTemp]).length = front.length + 1 := length_append
      -- the rest of the loop, on the shuffled bucket
      have hnext : ∀ p : Nat × Nat, (∃ info, s.mapInfo.lookup p.1 = some info) →
          let next := Draw.draw (fun k => E.getRand (s.nReads + (k + 1))) turns (front.length + 1) rest
          selectTriedLoop E kb turns (front.length + 1) (some p)
              { s.read with vvTried := update s.vvTried kb (front ++ [nTemp] ++ rest) } =
            some (next.1.foldl (List.argAux fun p q => s.lastSuccess p.1 < s.lastSuccess q.1) (some p),
              s.shuffled kb (front ++ Draw.drawn ((nTemp, n + front.length) :: next.1, next.2))
                (s.nReads + (next.1.length + 1))) := by
        intro p hp
        have hrest := ih (front ++ [nTemp]) rest (some p) (s.shuffled kb (front ++ [nTemp] ++ rest) (s.nReads + 1))
          (update_self _ _ _) (fun id hid => hids id (hperm.mem_iff.mp (mem_cons_of_mem _ hid)))
          (fun q hq => Option.some.inj hq ▸ hp) (by rw [shuffled, shuffled, update_idem])
        rw [hlength] at hrest
        simp only [shuffled, update_idem, Nat.add_assoc, Nat.add_comm 1, append_assoc] at hrest ⊢
        exact hrest
      cases oldest with
      | none => exact hnext (nTemp, n + front.length) ⟨info, hinfo⟩
      | some old =>
        obtain ⟨infoOld, hinfoOld⟩ := hold old rfl
        have hless : (info.nLastSuccess < infoOld.nLastSuccess) = (s.lastSuccess nTemp < s.lastSuccess old.1) := by
          rw [lastSuccess_eq hinfo, lastSuccess_eq hinfoOld, Int64.lt_iff_toInt_lt]
        have hinfo' : s.read.mapInfo.lookup nTemp = some info := hinfo
        have hinfoOld' : s.read.mapInfo.lookup old.1 = some infoOld := hinfoOld
        simp only [hinfo', hinfoOld', hless, foldl_cons, List.argAux]
        split_ifs
        · exact hnext (nTemp, n + front.length) ⟨info, hinfo⟩
        · exact hnext old ⟨infoOld, hinfoOld⟩

theorem selectTried_eq (kb : TriedBucket) (s : CAddrMan)
    (hids : ∀ id ∈ s.vvTried kb, ∃ info, s.mapInfo.lookup id = some info) :
    s.selectTried E kb = some ((List.argmin (fun p => s.lastSuccess p.1) (s.inspected E kb).1).map Prod.snd,
      s.shuffled kb (Draw.drawn (s.inspected E kb)) (s.nReads + (s.inspected E kb).1.length)) := by
  have hloop := selectTriedLoop_eq (E := E) ADDRMAN_TRIED_ENTRIES_INSPECT_ON_EVICT [] (s.vvTried kb) none s rfl hids
    (fun p hp => by cases hp)
  exact congrArg (Option.map _) hloop

/-- The entry `nId` has gone to the tried table, where it may have taken the place of `retired`, which has gone back to
the new bucket `nTo`. -/
theorem Tabled.moved (hs : s.Tabled E none) {st : Standing} (retired : Option Nat) (nTo : NewBucket)
    (hst : s.standing nId = some st) (hnew : st.fInTried = false)
    (hretired : ∀ j, retired = some j → j ∈ s.vvTried (CAddrInfo.getTriedBucket E s.nKey st.service))
    (hself : s'.standing nId = some { st with nRefCount := 0, fInTried := true })
    (hback : ∀ j x, retired = some j → s.standing j = some x →
      s'.standing j = some { x with nRefCount := 1, fInTried := false })
    (hother : ∀ j, j ≠ nId → retired ≠ some j → s'.standing j = s.standing j)
    (hmemNew : ∀ c j, j ∈ s'.vvNew c ↔ (j ∈ s.vvNew c ∧ j ≠ nId) ∨ (c = nTo ∧ retired = some j))
    (hmemTried : ∀ c j, j ∈ s'.vvTried c ↔ (j ∈ s.vvTried c ∧ retired ≠ some j) ∨
      (c = CAddrInfo.getTriedBucket E s.nKey st.service ∧ j = nId))
    (hnodupNew : ∀ c, (s'.vvNew c).Nodup) (hsizeNew : ∀ c, (s'.vvNew c).length ≤ ADDRMAN_NEW_BUCKET_SIZE)
    (hnodupTried : ∀ c, (s'.vvTried c).Nodup) (hsizeTried : ∀ c, (s'.vvTried c).length ≤ ADDRMAN_TRIED_BUCKET_SIZE)
    (hkey : s'.nKey = s.nKey) (hnTried : s'.nTried = ∑ c, ((s'.vvTried c).length : Int))
    (hcount : (s'.vRandom.length : Int) = s'.nTried + s'.nNew) : s'.Tabled E none := by
  -- A retired entry was tried, so it is another one and in no new bucket.
  have hold : ∀ j, retired = some j → ∃ x, s.standing j = some x ∧ x.fInTried = true := by
    intro j hj
    obtain ⟨x, hx, hin, -⟩ := hs.tried_id _ j (hretired j hj)
    exact ⟨x, hx, hin⟩
  have hne : ∀ j, retired = some j → j ≠ nId := by
    rintro j hj rfl
    obtain ⟨x, hx, hin⟩ := hold j hj
    rw [hst] at hx
    cases hx
    rw [hnew] at hin
    exact Bool.false_ne_true hin
  have hnoNew : ∀ j c, retired = some j → j ∉ s.vvNew c := by
    intro j c hj hmem
    obtain ⟨x, hx, hin⟩ := hold j hj
    obtain ⟨y, hy, hfalse⟩ := hs.new_id c j hmem
    rw [hx] at hy
    cases hy
    rw [hin] at hfalse
    exact Bool.false_ne_true hfalse.symm
  refine ⟨fun j x hx hin => ?_, fun c j hj => ?_, hnodupTried, hsizeTried, fun j x hx hin => ?_, fun c j hj => ?_,
    hnodupNew, hsizeNew, hnTried, hcount⟩
  · rw [hkey, hmemTried]
    by_cases hj : j = nId
    · rw [hj, hself] at hx
      cases hx
      exact ⟨rfl, .inr ⟨rfl, hj⟩⟩
    · by_cases hr : retired = some j
      · obtain ⟨y, hy, -⟩ := hold j hr
        rw [hback j y hr hy] at hx
        cases hx
        cases hin
      · rw [hother j hj hr] at hx
        obtain ⟨hzero, hmem⟩ := hs.tried_entry j x hx hin
        exact ⟨hzero, .inl ⟨hmem, hr⟩⟩
  · rw [hkey]
    rcases (hmemTried c j).mp hj with ⟨hmem, hr⟩ | ⟨hc, rfl⟩
    · obtain ⟨x, hx, hin, hbucket⟩ := hs.tried_id c j hmem
      have hj' : j ≠ nId := by
        rintro rfl
        rw [hst] at hx
        cases hx
        rw [hnew] at hin
        exact Bool.false_ne_true hin
      exact ⟨x, by rw [hother j hj' hr]; exact hx, hin, hbucket⟩
    · exact ⟨_, hself, rfl, hc.symm⟩
  · rw [if_neg (Option.some_ne_none j).symm]
    by_cases hj : j = nId
    · rw [hj, hself] at hx
      cases hx
      cases hin.symm
    · by_cases hr : retired = some j
      · obtain ⟨y, hy, -⟩ := hold j hr
        rw [hback j y hr hy] at hx
        have hzero : s.references j = 0 := references_eq_zero.mpr fun c => hnoNew j c hr
        have hrefs : s'.references j = s.references j + 1 := by
          refine references_leave ((hmemNew nTo j).mpr (.inr ⟨rfl, hr⟩)) (hnoNew j nTo hr) fun c hc => ?_
          rw [hmemNew]
          constructor
          · exact fun h => absurd h (hnoNew j c hr)
          · rintro (h | h)
            · exact h.1
            · exact absurd h.1 hc
        rw [hrefs, hzero, ← Option.some.inj hx]
        exact ⟨rfl, Int.le_refl 1, (by decide : (1 : Int) ≤ ADDRMAN_NEW_BUCKETS_PER_ADDRESS)⟩
      · rw [hother j hj hr] at hx
        have hrefs : s'.references j = s.references j := by
          refine references_congr fun c => ?_
          rw [hmemNew]
          constructor
          · rintro (h | h)
            · exact h.1
            · exact absurd h.2 hr
          · exact fun h => .inl ⟨h, hj⟩
        have hentry := hs.new_entry j x hx hin
        rw [if_neg (Option.some_ne_none j).symm] at hentry
        rw [hrefs]
        exact hentry
  · rcases (hmemNew c j).mp hj with ⟨hmem, hj'⟩ | ⟨-, hr⟩
    · obtain ⟨x, hx, hin⟩ := hs.new_id c j hmem
      have hr : retired ≠ some j := fun hr => hnoNew j c hr hmem
      exact ⟨x, by rw [hother j hj' hr]; exact hx, hin⟩
    · obtain ⟨y, hy, -⟩ := hold j hr
      exact ⟨_, hback j y hr hy, rfl⟩

theorem sum_length_update (v : TriedBucket → List Nat) (b : TriedBucket) (ids : List Nat) :
    ∑ c, ((update v b ids c).length : Int) + (v b).length = ∑ c, ((v c).length : Int) + ids.length := by
  rw [← Finset.add_sum_erase _ _ (Finset.mem_univ b), ← Finset.add_sum_erase _ (fun c => ((v c).length : Int))
    (Finset.mem_univ b), update_self]
  have hrest : ∑ c ∈ Finset.univ.erase b, ((update v b ids c).length : Int) =
      ∑ c ∈ Finset.univ.erase b, ((v c).length : Int) := by
    refine Finset.sum_congr rfl fun c hc => ?_
    rw [update_of_ne (Finset.ne_of_mem_erase hc)]
  omega

/-- One id of a bucket gives its place to another one. -/
theorem mem_set {ids : List Nat} (hnodup : ids.Nodup) {n : Nat} (hn : n < ids.length) :
    id ∈ ids.set n nId ↔ (id ∈ ids ∧ id ≠ ids[n]) ∨ id = nId := by
  have hperm := getElem_cons_eraseIdx_perm hn
  have hnot : ids[n] ∉ ids.eraseIdx n := (nodup_cons.mp (hperm.nodup_iff.mpr hnodup)).1
  rw [(set_perm_cons_eraseIdx hn nId).mem_iff, mem_cons, ← hperm.mem_iff, mem_cons]
  constructor
  · rintro (rfl | h)
    · exact .inr rfl
    · exact .inl ⟨.inr h, fun heq => hnot (by rw [← heq]; exact h)⟩
  · rintro (⟨h | h, hne⟩ | rfl)
    · exact absurd h hne
    · exact .inr h
    · exact .inl rfl

/-- The entry has left all new buckets. -/
def left (s : CAddrMan) (nId : Nat) (info : CAddrInfo) : CAddrMan :=
  { s.setInfo nId { info with nRefCount := 0 } with vvNew := fun b => (s.vvNew b).erase nId, nNew := s.nNew - 1 }

section MakeTried

variable (hi : s.Indexed) (ht : s.Tabled E none) (hlook : s.mapInfo.lookup nId = some info)
  (hnew : info.fInTried = false)

include ht hlook hnew in
/-- The entry that leaves all new buckets has no references any more. -/
theorem leaveNew_eq : s.leaveNew nId info = ({ info with nRefCount := 0 }, s.left nId info) := by
  have hrefs := (ht.new_entry nId info.standing (standing_of_lookup hlook) hnew).1
  rw [if_neg (Option.some_ne_none nId).symm] at hrefs
  have hrefs : info.nRefCount = s.references nId + 0 := hrefs
  have hzero : info.nRefCount - s.references nId = 0 := by
    omega
  show ({ info with nRefCount := info.nRefCount - s.references nId }, { s.setInfo nId
    { info with nRefCount := info.nRefCount - s.references nId } with
      vvNew := fun b => (s.vvNew b).erase nId, nNew := s.nNew - 1 }) = _
  rw [hzero]
  rfl

theorem lookup_left (j : Nat) : (s.left nId info).mapInfo.lookup j =
    if j = nId then some { info with nRefCount := 0 } else s.mapInfo.lookup j :=
  lookup_setInfo s nId _ j

include ht in
theorem mem_left (info : CAddrInfo) (c : NewBucket) (j : Nat) :
    j ∈ (s.left nId info).vvNew c ↔ j ∈ s.vvNew c ∧ j ≠ nId := by
  show j ∈ (s.vvNew c).erase nId ↔ _
  rw [(ht.new_nodup c).mem_erase_iff]
  exact and_comm

include hi hlook in
theorem indexed_left : (s.left nId info).Indexed :=
  (hi.setInfo { info with nRefCount := 0 } hlook rfl rfl).congr rfl rfl rfl rfl

include ht hlook hnew in
theorem not_mem_tried (c : TriedBucket) : nId ∉ s.vvTried c := by
  intro hmem
  obtain ⟨x, hx, hin, -⟩ := ht.tried_id c nId hmem
  rw [standing_of_lookup hlook] at hx
  cases hx
  cases hnew.symm.trans hin

include hi ht hlook hnew in
/-- `MakeTried` when there is place in the bucket. -/
theorem makeTried_push
    (hroom : (s.vvTried (CAddrInfo.getTriedBucket E s.nKey info.service)).length < ADDRMAN_TRIED_BUCKET_SIZE) :
    ∃ s', CAddrMan.markTried { s.left nId info with
        vvTried := update s.vvTried (CAddrInfo.getTriedBucket E s.nKey info.service)
          (s.vvTried (CAddrInfo.getTriedBucket E s.nKey info.service) ++ [nId])
        nTried := s.nTried + 1 } nId = some s' ∧ s'.Indexed ∧ s'.Tabled E none ∧ Aged (some nId) s s' := by
  generalize hkb : CAddrInfo.getTriedBucket E s.nKey info.service = kb at hroom
  have hnot := not_mem_tried ht hlook hnew kb
  have hlookLeft : (s.left nId info).mapInfo.lookup nId = some { info with nRefCount := 0 } := by
    rw [lookup_left, if_pos rfl]
  unfold markTried
  simp only [hlookLeft]
  refine ⟨_, rfl, ?_, ?_, ?_⟩
  · exact ((indexed_left hi hlook).setInfo { info with nRefCount := 0, fInTried := true } hlookLeft rfl
      rfl).congr rfl rfl rfl rfl
  · refine ht.moved none 0 (standing_of_lookup hlook) hnew (fun j h => by simp at h) ?_
      (fun j x h => by simp at h) (fun j hj _ => ?_) (fun c j => ?_) (fun c j => ?_) (fun c => ?_) (fun c => ?_)
      (fun c => ?_) (fun c => ?_) rfl ?_ ?_
    · rw [standing_setInfo, if_pos rfl]
      rfl
    · rw [standing_setInfo, if_neg hj]
      show (s.setInfo nId _).standing j = _
      rw [standing_setInfo, if_neg hj]
    · rw [show (none = some j) = False by simp, and_false, or_false]
      exact mem_left ht info c j
    · show j ∈ update s.vvTried kb _ c ↔ _
      have hkb' : CAddrInfo.getTriedBucket E s.nKey info.standing.service = kb := hkb
      rw [hkb']
      by_cases hc : c = kb
      · rw [hc, update_self, mem_append, mem_singleton]
        simp
      · rw [update_of_ne hc]
        simp [hc]
    · exact (ht.new_nodup c).erase nId
    · exact length_erase_le.trans (ht.new_size c)
    · show (update s.vvTried kb _ c).Nodup
      by_cases hc : c = kb
      · rw [hc, update_self]
        exact (ht.tried_nodup kb).append (nodup_singleton nId) (by simpa using hnot)
      · rw [update_of_ne hc]
        exact ht.tried_nodup c
    · show (update s.vvTried kb _ c).length ≤ _
      by_cases hc : c = kb
      · rw [hc, update_self, length_append, length_singleton]
        exact hroom
      · rw [update_of_ne hc]
        exact ht.tried_size c
    · show s.nTried + 1 = ∑ c, ((update s.vvTried kb _ c).length : Int)
      have hsum := sum_length_update s.vvTried kb (s.vvTried kb ++ [nId])
      have hold := ht.tried_count
      rw [length_append, length_singleton] at hsum
      push_cast at hsum
      omega
    · show (s.vRandom.length : Int) = (s.nTried + 1) + (s.nNew - 1)
      have hcount := ht.count
      omega
  · refine ⟨rfl, fun j e' he' => ?_⟩
    rw [lookup_setInfo] at he'
    split_ifs at he' with hj
    · rw [hj, ← Option.some.inj he']
      exact ⟨info, hlook, rfl, rfl, fun _ => .inr rfl⟩
    · have he' : (s.left nId info).mapInfo.lookup j = some e' := he'
      rw [lookup_left, if_neg hj] at he'
      exact ⟨e', he', rfl, rfl, .inl⟩

/-- The entry `nId` is at position `nPos` of its bucket, and the entry `nOld` that was there is in a new bucket. -/
def evicted (s : CAddrMan) (nId : Nat) (info : CAddrInfo) (nOld : Nat) (infoOld : CAddrInfo) (kb : TriedBucket)
    (ids : List Nat) (nTo : NewBucket) (n : Nat) : CAddrMan :=
  setInfo { (s.left nId info).setInfo nOld { infoOld with fInTried := false, nRefCount := 1 } with
    vvNew := update (s.left nId info).vvNew nTo (insertId nOld ((s.left nId info).vvNew nTo))
    nNew := (s.left nId info).nNew + 1
    vvTried := update s.vvTried kb ids
    nReads := n } nId { info with nRefCount := 0, fInTried := true }

theorem lookup_evicted {nOld n : Nat} {infoOld : CAddrInfo} {kb : TriedBucket} {ids : List Nat} {nTo : NewBucket}
    (j : Nat) : (s.evicted nId info nOld infoOld kb ids nTo n).mapInfo.lookup j =
      if j = nId then some { info with nRefCount := 0, fInTried := true }
      else if j = nOld then some { infoOld with fInTried := false, nRefCount := 1 } else s.mapInfo.lookup j := by
  unfold evicted
  rw [lookup_setInfo]
  split_ifs with hj hold
  · rfl
  · show ((s.left nId info).setInfo nOld _).mapInfo.lookup j = _
    rw [lookup_setInfo, if_pos hold]
  · show ((s.left nId info).setInfo nOld _).mapInfo.lookup j = _
    rw [lookup_setInfo, if_neg hold, lookup_left, if_neg hj]

section Evicted

variable {nOld n nPos : Nat} {infoOld : CAddrInfo} {kb : TriedBucket} {v : List Nat} {nTo : NewBucket}
  (hkb : CAddrInfo.getTriedBucket E s.nKey info.service = kb) (hperm : v.Perm (s.vvTried kb)) (hlt : nPos < v.length)
  (hnOld : v[nPos] = nOld) (hlookOld : s.mapInfo.lookup nOld = some infoOld) (hne : nOld ≠ nId)
  (hnotNew : nOld ∉ (s.left nId info).vvNew nTo)
  (hroom : ((s.left nId info).vvNew nTo).length < ADDRMAN_NEW_BUCKET_SIZE)

include hlookOld hne in
theorem lookup_left_old : (s.left nId info).mapInfo.lookup nOld = some infoOld := by
  rw [lookup_left, if_neg hne]
  exact hlookOld

include hne in
theorem lookup_left_self :
    ((s.left nId info).setInfo nOld { infoOld with fInTried := false, nRefCount := 1 }).mapInfo.lookup nId =
      some { info with nRefCount := 0 } := by
  rw [lookup_setInfo, if_neg (Ne.symm hne), lookup_left, if_pos rfl]

include hi hlook hlookOld hne in
theorem indexed_evicted : (s.evicted nId info nOld infoOld kb (v.set nPos nId) nTo n).Indexed := by
  have hback := (indexed_left hi hlook).setInfo { infoOld with fInTried := false, nRefCount := 1 }
    (lookup_left_old hlookOld hne) rfl rfl
  exact (hback.setInfo { info with nRefCount := 0, fInTried := true } (lookup_left_self hne) rfl rfl).congr
    rfl rfl rfl rfl

include ht hlook hnew hkb hperm hlt hnOld hlookOld hne hnotNew hroom in
theorem tabled_evicted : (s.evicted nId info nOld infoOld kb (v.set nPos nId) nTo n).Tabled E none := by
  have hnot := not_mem_tried ht hlook hnew kb
  have hnodup : v.Nodup := hperm.nodup_iff.mpr (ht.tried_nodup kb)
  refine ht.moved (some nOld) nTo (standing_of_lookup hlook) hnew (fun j h => ?_) ?_
    (fun j x h hx => ?_) (fun j hj hr => ?_) (fun c j => ?_) (fun c j => ?_) (fun c => ?_) (fun c => ?_)
    (fun c => ?_) (fun c => ?_) rfl ?_ ?_
  · cases h
    rw [← hnOld]
    show v[nPos] ∈ s.vvTried (CAddrInfo.getTriedBucket E s.nKey info.service)
    rw [hkb, ← hperm.mem_iff]
    exact getElem_mem hlt
  · unfold standing
    rw [lookup_evicted, if_pos rfl]
    rfl
  · cases h
    rw [standing_of_lookup hlookOld] at hx
    cases hx
    unfold standing
    rw [lookup_evicted, if_neg hne, if_pos rfl]
    rfl
  · unfold standing
    rw [lookup_evicted, if_neg hj, if_neg]
    rintro rfl
    exact hr rfl
  · show j ∈ update (s.left nId info).vvNew nTo _ c ↔ _
    rw [Option.some.injEq]
    by_cases hc : c = nTo
    · rw [hc, update_self, mem_insertId, mem_left ht]
      tauto
    · rw [update_of_ne hc, mem_left ht]
      tauto
  · show j ∈ update s.vvTried kb _ c ↔ (_ ∧ some nOld ≠ some j) ∨
      (c = CAddrInfo.getTriedBucket E s.nKey info.service ∧ j = nId)
    rw [hkb]
    by_cases hc : c = kb
    · rw [hc, update_self, mem_set hnodup hlt, hnOld, hperm.mem_iff]
      simp [eq_comm]
    · rw [update_of_ne hc]
      have hother : j ∈ s.vvTried c → nOld ≠ j := by
        rintro hmem rfl
        obtain ⟨x, hx, -, hbucket⟩ := ht.tried_id c nOld hmem
        obtain ⟨y, hy, -, hbucket'⟩ := ht.tried_id kb nOld (by
          rw [← hperm.mem_iff, ← hnOld]
          exact getElem_mem hlt)
        rw [hx] at hy
        cases hy
        rw [hbucket] at hbucket'
        exact hc hbucket'
      simp only [hc, false_and, or_false, ne_eq, Option.some.injEq]
      exact (and_iff_left_of_imp hother).symm
  · show (update (s.left nId info).vvNew nTo _ c).Nodup
    by_cases hc : c = nTo
    · rw [hc, update_self]
      exact nodup_insertId ((ht.new_nodup nTo).erase nId)
    · rw [update_of_ne hc]
      exact (ht.new_nodup c).erase nId
  · show (update (s.left nId info).vvNew nTo _ c).length ≤ _
    by_cases hc : c = nTo
    · rw [hc, update_self, length_insertId hnotNew]
      exact hroom
    · rw [update_of_ne hc]
      exact length_erase_le.trans (ht.new_size c)
  · show (update s.vvTried kb _ c).Nodup
    by_cases hc : c = kb
    · rw [hc, update_self]
      exact hnodup.set fun h => hnot (hperm.mem_iff.mp h)
    · rw [update_of_ne hc]
      exact ht.tried_nodup c
  · show (update s.vvTried kb _ c).length ≤ _
    by_cases hc : c = kb
    · rw [hc, update_self, length_set, hperm.length_eq]
      exact ht.tried_size kb
    · rw [update_of_ne hc]
      exact ht.tried_size c
  · show s.nTried = ∑ c, ((update s.vvTried kb _ c).length : Int)
    have hsum := sum_length_update s.vvTried kb (v.set nPos nId)
    rw [length_set, hperm.length_eq] at hsum
    have hold := ht.tried_count
    omega
  · show (s.vRandom.length : Int) = s.nTried + (s.nNew - 1 + 1)
    have hcount := ht.count
    omega

include hlook hlookOld in
theorem aged_evicted (htried : infoOld.fInTried) :
    Aged (some nId) s (s.evicted nId info nOld infoOld kb (v.set nPos nId) nTo n) := by
  refine ⟨rfl, fun j e' he' => ?_⟩
  rw [lookup_evicted] at he'
  split_ifs at he' with hj hold
  · rw [hj, ← Option.some.inj he']
    exact ⟨info, hlook, rfl, rfl, fun _ => .inr rfl⟩
  · rw [hold, ← Option.some.inj he']
    exact ⟨infoOld, hlookOld, rfl, rfl, fun _ => .inl htried⟩
  · exact ⟨e', he', rfl, rfl, .inl⟩

include hlt hnOld hlookOld hne in
theorem evictTried_eq {nOrigin : NewBucket}
    (hnTo : (if ((s.left nId info).vvNew (CAddrInfo.getNewBucket E s.nKey infoOld.service infoOld.source)).length <
      ADDRMAN_NEW_BUCKET_SIZE then CAddrInfo.getNewBucket E s.nKey infoOld.service infoOld.source else nOrigin) = nTo) :
    ((evictTried E { s.left nId info with vvTried := update s.vvTried kb v, nReads := n } kb nPos nId
      nOrigin).bind fun s => s.markTried nId) = some (s.evicted nId info nOld infoOld kb (v.set nPos nId) nTo n) := by
  have hat : (update s.vvTried kb v kb)[nPos]? = some nOld := by
    rw [update_self, ← hnOld]
    exact getElem?_eq_getElem hlt
  unfold evictTried
  simp only [hat, lookup_left_old hlookOld hne, Option.bind_some]
  unfold markTried
  have hself' : (setInfo { s.left nId info with vvTried := update s.vvTried kb v, nReads := n } nOld
      { infoOld with fInTried := false, nRefCount := 1 }).mapInfo.lookup nId = some { info with nRefCount := 0 } :=
    lookup_left_self hne
  simp only [hself']
  refine congrArg some ?_
  unfold evicted
  have hbuckets : update (update s.vvTried kb v) kb
      ((update s.vvTried kb v kb).set nPos nId) = update s.vvTried kb (v.set nPos nId) := by
    rw [update_self, update_idem]
  rw [← hbuckets, ← hnTo]
  rfl

end Evicted

include hi ht hlook hnew in
/-- `MakeTried` when an entry of the bucket has to make place: there is room for it in the bucket that the new one
came from. -/
theorem makeTried_evict {nOrigin : NewBucket} (hmem : nId ∈ s.vvNew nOrigin)
    (hfull : (s.vvTried (CAddrInfo.getTriedBucket E s.nKey info.service)).length = ADDRMAN_TRIED_BUCKET_SIZE) :
    ∃ nPos t s', (s.left nId info).selectTried E (CAddrInfo.getTriedBucket E s.nKey info.service) = some (some nPos, t) ∧
      s.makeTried E info nId nOrigin = some s' ∧
      s'.vvTried (CAddrInfo.getTriedBucket E s.nKey info.service) =
        (t.vvTried (CAddrInfo.getTriedBucket E s.nKey info.service)).set nPos nId ∧
      s'.Indexed ∧ s'.Tabled E none ∧ Aged (some nId) s s' := by
  generalize hkb : CAddrInfo.getTriedBucket E s.nKey info.service = kb at hfull
  have hnot := not_mem_tried ht hlook hnew kb
  have hids : ∀ id ∈ s.vvTried kb, ∃ e, (s.left nId info).mapInfo.lookup id = some e := by
    intro id hid
    obtain ⟨x, hx, -⟩ := ht.tried_id kb id hid
    obtain ⟨e, he, -⟩ := lookup_of_standing hx
    rw [lookup_left]
    split_ifs
    · exact ⟨_, rfl⟩
    · exact ⟨e, he⟩
  have hselect := selectTried_eq (E := E) kb (s.left nId info) hids
  generalize hd : (s.left nId info).inspected E kb = d at hselect
  have hsome : d.1 ≠ [] := by
    rw [← hd]
    refine Draw.draw_ne_nil (by decide) fun hnil => ?_
    rw [show s.vvTried kb = [] from hnil] at hfull
    cases hfull
  obtain ⟨⟨nOldest, nPos⟩, hmin⟩ := Option.ne_none_iff_exists'.mp
    (mt (argmin_eq_none (f := fun p => (s.left nId info).lastSuccess p.1)).mp hsome)
  have hperm : (Draw.drawn d).Perm (s.vvTried kb) := hd ▸ Draw.drawn_perm _ _ _ _
  have hlt : nPos < (Draw.drawn d).length := by
    have hlt := Draw.position_lt (hd ▸ argmin_mem hmin)
    rw [hperm.length_eq]
    exact Nat.zero_add (s.vvTried kb).length ▸ hlt
  rw [hmin] at hselect
  -- The entry that has to go.
  obtain ⟨nOld, hnOld⟩ : ∃ nOld, (Draw.drawn d)[nPos] = nOld := ⟨_, rfl⟩
  have hmemOld : nOld ∈ s.vvTried kb := by
    rw [← hperm.mem_iff, ← hnOld]
    exact getElem_mem hlt
  have hne : nOld ≠ nId := by
    rintro rfl
    exact hnot hmemOld
  obtain ⟨x, hx, hin, -⟩ := ht.tried_id kb nOld hmemOld
  obtain ⟨infoOld, hlookOld, rfl⟩ := lookup_of_standing hx
  have hroom : ((s.left nId info).vvNew nOrigin).length < ADDRMAN_NEW_BUCKET_SIZE := by
    show ((s.vvNew nOrigin).erase nId).length < _
    rw [length_erase_of_mem hmem]
    have hsize := ht.new_size nOrigin
    have hone := length_pos_of_mem hmem
    omega
  obtain ⟨nTo, hnTo, hroomTo⟩ : ∃ nTo, (if ((s.left nId info).vvNew (CAddrInfo.getNewBucket E s.nKey infoOld.service
      infoOld.source)).length < ADDRMAN_NEW_BUCKET_SIZE then CAddrInfo.getNewBucket E s.nKey infoOld.service
      infoOld.source else nOrigin) = nTo ∧ ((s.left nId info).vvNew nTo).length < ADDRMAN_NEW_BUCKET_SIZE := by
    split_ifs with hthere
    · exact ⟨_, rfl, hthere⟩
    · exact ⟨_, rfl, hroom⟩
  have hnotNew : nOld ∉ (s.left nId info).vvNew nTo := by
    rw [mem_left ht]
    intro h
    obtain ⟨y, hy, hfalse⟩ := ht.new_id nTo nOld h.1
    rw [hx] at hy
    cases hy
    rw [hin] at hfalse
    exact Bool.false_ne_true hfalse.symm
  refine ⟨nPos, (s.left nId info).shuffled kb (Draw.drawn d) (s.nReads + d.1.length),
    s.evicted nId info nOld infoOld kb ((Draw.drawn d).set nPos nId) nTo (s.nReads + d.1.length), hselect,
    ?_, ?_, indexed_evicted hi hlook hlookOld hne,
    tabled_evicted ht hlook hnew hkb hperm hlt hnOld hlookOld hne hnotNew hroomTo, aged_evicted hlook hlookOld hin⟩
  · unfold makeTried
    rw [if_neg (not_not_intro hmem), leaveNew_eq ht hlook hnew]
    have hkb' : CAddrInfo.getTriedBucket E (s.left nId info).nKey info.service = kb := hkb
    have hno : ¬ ((s.left nId info).vvTried kb).length < ADDRMAN_TRIED_BUCKET_SIZE :=
      Nat.not_lt.mpr (Nat.le_of_eq hfull.symm)
    simp only [ne_eq, not_true, if_false, hkb']
    refine (if_neg hno).trans ?_
    simp only [hselect]
    exact evictTried_eq hlt hnOld hlookOld hne hnTo
  · rw [vvTried_shuffled]
    exact update_self _ _ _

include hi ht hlook hnew in
theorem makeTried_spec {nOrigin : NewBucket} (hmem : nId ∈ s.vvNew nOrigin) :
    ∃ s', s.makeTried E info nId nOrigin = some s' ∧ s'.Indexed ∧ s'.Tabled E none ∧ Aged (some nId) s s' := by
  by_cases hroom : (s.vvTried (CAddrInfo.getTriedBucket E s.nKey info.service)).length < ADDRMAN_TRIED_BUCKET_SIZE
  · obtain ⟨s', hmark, hs'⟩ := makeTried_push hi ht hlook hnew hroom
    unfold makeTried
    rw [if_neg (not_not_intro hmem), leaveNew_eq ht hlook hnew]
    simp only [ne_eq, not_true, if_false]
    exact ⟨s', (if_pos hroom).trans hmark, hs'⟩
  · have hfull : (s.vvTried (CAddrInfo.getTriedBucket E s.nKey info.service)).length = ADDRMAN_TRIED_BUCKET_SIZE :=
      Nat.le_antisymm (ht.tried_size _) (Nat.not_lt.mp hroom)
    obtain ⟨-, -, s', -, hmake, -, hs'⟩ := makeTried_evict hi ht hlook hnew hmem hfull
    exact ⟨s', hmake, hs'⟩

end MakeTried

end CAddrMan

end Reddcoin

/-!
## The operations of the address manager

No assertion fails, and every operation keeps the indexes and the tables in order.
-/

namespace Reddcoin

namespace CAddrMan

variable {E : AddrEnv} {s s' : CAddrMan} {nId id : Nat} {info : CAddrInfo} {kb : TriedBucket}

theorem mem_of_bucketOf {nRnd : Nat} {b : NewBucket} (h : s.bucketOf nId nRnd = some b) : nId ∈ s.vvNew b := by
  have hfound := List.find?_some h
  exact of_decide_eq_true hfound

/-- The times after `Good_`, whether or not the entry goes to the tried table. -/
theorem stamped_good {addr : CService} {nTime : Int64} (hTry : info.nLastTry = nTime)
    (hSuccess : info.nLastSuccess = nTime) (haged : Aged (some nId) (s.setInfo nId info) s') (e' : CAddrInfo)
    (he' : s'.mapInfo.lookup id = some e') : Stamped (.good addr nTime) s id e' := by
  obtain ⟨e, he, htry, hsuccess, htried⟩ := haged.entries id e' he'
  rw [lookup_setInfo] at he
  split_ifs at he with hid
  · cases he
    exact .good addr nTime rfl (htry.trans hTry) (hsuccess.trans hSuccess)
  · refine .kept e he htry hsuccess fun h => (htried h).resolve_right fun heq => ?_
    exact hid (Option.some.inj heq).symm

section

variable (hi : s.Indexed) (ht : s.Tabled E none) (addr : CService) (nTime : Int64)

include hi ht

theorem good_spec : ∃ s', s.step E (.good addr nTime) = some s' ∧ Stepped E (.good addr nTime) s s' := by
  have hsame : Stepped E (.good addr nTime) s s := .of_aged hi ht (.refl none s)
  show ∃ s', s.good E addr nTime = some s' ∧ _
  unfold CAddrMan.good
  cases hfind : s.find addr.addr with
  | none => exact ⟨s, rfl, hsame⟩
  | some found =>
    obtain ⟨nId, info⟩ := found
    obtain ⟨hlook, -⟩ := hi.find_eq_some hfind
    simp only
    split_ifs with hservice htried
    · exact ⟨s, rfl, hsame⟩
    · exact ⟨_, rfl, hi.setInfo _ hlook rfl rfl, ht.setInfo hlook rfl, rfl,
        fun id e' he' => stamped_good rfl rfl (.refl _ _) e' he'⟩
    · generalize hinfo : ({ info with nLastSuccess := nTime, nLastTry := nTime, nAttempts := 0 } : CAddrInfo) = info'
      have hservice : info'.service = info.service := by rw [← hinfo]
      have hpos : info'.nRandomPos = info.nRandomPos := by rw [← hinfo]
      have hstanding : info'.standing = info.standing := by rw [← hinfo]; rfl
      have hTry : info'.nLastTry = nTime := by rw [← hinfo]
      have hSuccess : info'.nLastSuccess = nTime := by rw [← hinfo]
      have hnew : info'.fInTried = false := by
        rw [← hinfo]
        exact Bool.eq_false_iff.mpr htried
      have hi' : (s.setInfo nId info').read.Indexed := (hi.setInfo _ hlook hservice hpos).reads _
      have ht' : (s.setInfo nId info').read.Tabled E none := (ht.setInfo hlook hstanding).reads _
      have hlook' : (s.setInfo nId info').read.mapInfo.lookup nId = some info' := by
        show (s.setInfo nId info').mapInfo.lookup nId = _
        rw [lookup_setInfo, if_pos rfl]
      have hread : Aged (some nId) (s.setInfo nId info') (s.setInfo nId info').read := .reads _ _ _
      cases hbucket : (s.setInfo nId info').read.bucketOf nId
          ((s.setInfo nId info').randInt E ADDRMAN_NEW_BUCKET_COUNT) with
      | none =>
        exact ⟨_, rfl, hi', ht', rfl, fun id e' he' => stamped_good hTry hSuccess hread e' he'⟩
      | some nUBucket =>
        obtain ⟨s', hmake, hs'i, hs't, haged⟩ := makeTried_spec hi' ht' hlook' hnew (mem_of_bucketOf hbucket)
        exact ⟨s', hmake, hs'i, hs't, haged.nKey,
          fun id e' he' => stamped_good hTry hSuccess (hread.trans haged) e' he'⟩

theorem attempt_spec : Stepped E (.attempt addr nTime) s (s.attempt addr nTime) := by
  have hsame : Stepped E (.attempt addr nTime) s s := .of_aged hi ht (.refl none s)
  unfold CAddrMan.attempt
  cases hfind : s.find addr.addr with
  | none => exact hsame
  | some found =>
    obtain ⟨nId, info⟩ := found
    obtain ⟨hlook, -⟩ := hi.find_eq_some hfind
    simp only
    split_ifs with hservice
    · exact hsame
    · refine ⟨hi.setInfo _ hlook rfl rfl, ht.setInfo hlook rfl, rfl, fun id e' he' => ?_⟩
      rw [lookup_setInfo] at he'
      split_ifs at he' with hid
      · cases he'
        rw [← hid] at hlook
        exact .attempt addr nTime rfl info hlook rfl rfl fun h => h
      · exact .kept e' he' rfl rfl fun h => h

theorem connected_spec : Stepped E (.connected addr nTime) s (s.connected addr nTime) := by
  have hsame : Stepped E (.connected addr nTime) s s := .of_aged hi ht (.refl none s)
  unfold CAddrMan.connected
  cases hfind : s.find addr.addr with
  | none => exact hsame
  | some found =>
    obtain ⟨nId, info⟩ := found
    obtain ⟨hlook, -⟩ := hi.find_eq_some hfind
    simp only
    split_ifs with hservice hold
    · exact hsame
    · have haged : Aged none s (s.setInfo nId { info with nTime := toUInt32 nTime.toInt }) :=
        Aged.setInfo hlook rfl rfl .inl
      exact .of_aged (hi.setInfo _ hlook rfl rfl) (ht.setInfo hlook rfl) haged
    · exact hsame

end

/-- A reordering keeps the tables. -/
theorem Reordered.tabled (h : Reordered s s') (ht : s.Tabled E none) : s'.Tabled E none := by
  refine ht.congr (funext fun id => standing_of_unplaced (congrFun h.unplaced id)) ?_ ?_ ?_ ?_ ?_ h.length
  all_goals rw [h.rest]

theorem Reordered.aged (h : Reordered s s') : Aged none s s' := by
  refine Aged.of_unplaced (by rw [h.rest]) fun id e' he' => ?_
  rw [h.unplaced] at he'
  exact ⟨e', he', rfl, rfl, .inl⟩

theorem getAddrLoop_spec (nNodes turns n : Nat) (vAddr : List CAddress) (hi : s.Indexed) (ht : s.Tabled E none)
    (hn : n + turns = s.vRandom.length) :
    ∃ v s', getAddrLoop E nNodes turns n vAddr s = some (v, s') ∧ s'.Indexed ∧ s'.Tabled E none ∧ Aged none s s' := by
  induction turns generalizing n vAddr s with
  | zero => exact ⟨vAddr, s, rfl, hi, ht, .refl none s⟩
  | succ turns ih =>
    unfold getAddrLoop
    split_ifs with henough
    · exact ⟨vAddr, s, rfl, hi, ht, .refl none s⟩
    · have hlt : n < s.read.vRandom.length := by
        show n < s.vRandom.length
        omega
      have hrand := randInt_lt (E := E) (s := s) (Nat.sub_pos_of_lt hlt)
      have hlt' : s.randInt E (s.vRandom.length - n) + n < s.read.vRandom.length := by
        show _ < s.vRandom.length
        have hrand : s.randInt E (s.vRandom.length - n) < s.vRandom.length - n := hrand
        omega
      have hread : s.read.Indexed := hi.reads _
      obtain ⟨t, hswap, hti, hreordered, -⟩ := hread.swapRandom hlt hlt'
      have htt : t.Tabled E none := hreordered.tabled (ht.reads _)
      have hlength : t.vRandom.length = s.vRandom.length := hreordered.length
      have hat := List.getElem?_eq_getElem (show n < t.vRandom.length by rw [hlength]; exact hlt)
      obtain ⟨ai, hai, -⟩ := hti.random_entry n _ hat
      have haged : Aged none s t := (Aged.reads none s _).trans hreordered.aged
      simp only [hswap, hat, Option.bind_some, hai]
      have hnext : ∀ v, ∃ v' s', getAddrLoop E nNodes turns (n + 1) v t.read = some (v', s') ∧ s'.Indexed ∧
          s'.Tabled E none ∧ Aged none s s' := by
        intro v
        obtain ⟨v', s', heq, hs'i, hs't, haged'⟩ := ih (s := t.read) (n + 1) v (hti.reads _) (htt.reads _) (by
          show n + 1 + turns = t.vRandom.length
          omega)
        exact ⟨v', s', heq, hs'i, hs't, haged.trans ((Aged.reads none t _).trans haged')⟩
      split_ifs
      · exact hnext vAddr
      · exact hnext _

/-- No assertion fails in a call, and the state after it is in order. -/
theorem step_spec (hi : s.Indexed) (ht : s.Tabled E none) (call : AddrCall) :
    ∃ s', s.step E call = some s' ∧ Stepped E call s s' := by
  cases call with
  | add addr source nTimePenalty => exact add_spec hi ht addr source nTimePenalty
  | good addr nTime => exact good_spec hi ht addr nTime
  | attempt addr nTime => exact ⟨_, rfl, attempt_spec hi ht addr nTime⟩
  | connected addr nTime => exact ⟨_, rfl, connected_spec hi ht addr nTime⟩
  | getAddr =>
    obtain ⟨v, s', heq, hs'i, hs't, haged⟩ := getAddrLoop_spec (E := E)
      (min (ADDRMAN_GETADDR_MAX_PCT * s.vRandom.length / 100) ADDRMAN_GETADDR_MAX) s.vRandom.length 0 [] hi ht
      (Nat.zero_add _)
    refine ⟨s', ?_, .of_aged hs'i hs't haged⟩
    show (s.getAddr E).map Prod.snd = some s'
    unfold getAddr
    rw [heq]
    rfl

end CAddrMan

end Reddcoin
