import Reddcoin.Net.AddrMan

/-!
# The indexes of the address manager

`mapInfo`, `mapAddr` and `vRandom` describe the same entries: an entry is found under its address, and it knows its
place in the vector of all ids.  The primitive operations keep this.
-/

namespace Reddcoin

open List

/-- The entry without its place in `vRandom`. -/
def CAddrInfo.unplaced (info : CAddrInfo) : CAddrInfo :=
  { info with nRandomPos := 0 }

namespace CAddrMan

variable {s s' : CAddrMan} {nId id : Nat} {info : CAddrInfo}

/-- The three indexes agree. -/
structure Indexed (s : CAddrMan) : Prop where
  entry_addr : ∀ id info, s.mapInfo.lookup id = some info → s.mapAddr.lookup info.service.addr = some id
  addr_entry : ∀ a id, s.mapAddr.lookup a = some id → ∃ info, s.mapInfo.lookup id = some info ∧ info.service.addr = a
  entry_random : ∀ id info, s.mapInfo.lookup id = some info → ∃ i : Nat, info.nRandomPos = i ∧ s.vRandom[i]? = some id
  random_entry : ∀ (i : Nat) id, s.vRandom[i]? = some id → ∃ info, s.mapInfo.lookup id = some info ∧ info.nRandomPos = i
  ids_lt : ∀ id info, s.mapInfo.lookup id = some info → id < s.nIdCount

/-- The entry of an id, without its place. -/
def unplaced (s : CAddrMan) (id : Nat) : Option CAddrInfo :=
  (s.mapInfo.lookup id).map CAddrInfo.unplaced

theorem unplaced_eq_some {e : CAddrInfo} :
    s.unplaced id = some e ↔ ∃ info, s.mapInfo.lookup id = some info ∧ info.unplaced = e := by
  unfold unplaced
  rw [Option.map_eq_some_iff]

theorem indexed_new (nKey : List UInt8) : (new nKey).Indexed where
  entry_addr id info h := by simp [new] at h
  addr_entry a id h := by simp [new] at h
  entry_random id info h := by simp [new] at h
  random_entry i id h := by simp [new] at h
  ids_lt id info h := by simp [new] at h

theorem lookup_setInfo (s : CAddrMan) (nId : Nat) (info : CAddrInfo) (id : Nat) :
    (s.setInfo nId info).mapInfo.lookup id = if id = nId then some info else s.mapInfo.lookup id := by
  show (s.mapInfo.insert nId info).lookup id = _
  split_ifs with h
  · rw [h, AList.lookup_insert]
  · rw [AList.lookup_insert_ne h]

theorem unplaced_setInfo (s : CAddrMan) (nId : Nat) (info : CAddrInfo) (id : Nat) :
    (s.setInfo nId info).unplaced id = if id = nId then some info.unplaced else s.unplaced id := by
  unfold unplaced
  rw [lookup_setInfo]
  split_ifs with h
  · rfl
  · rfl

section

variable (hs : s.Indexed)

include hs

/-- An entry is changed, but not its address or its place. -/
theorem Indexed.setInfo (info' : CAddrInfo) (hlook : s.mapInfo.lookup nId = some info)
    (hservice : info'.service = info.service) (hpos : info'.nRandomPos = info.nRandomPos) :
    (s.setInfo nId info').Indexed where
  entry_addr id e h := by
    rw [lookup_setInfo] at h
    split_ifs at h with hid
    · cases h
      rw [hservice, hid]
      exact hs.entry_addr nId info hlook
    · exact hs.entry_addr id e h
  addr_entry a id h := by
    obtain ⟨e, he, ha⟩ := hs.addr_entry a id h
    rw [lookup_setInfo]
    split_ifs with hid
    · rw [hid, hlook] at he
      refine ⟨info', rfl, ?_⟩
      rw [hservice, Option.some.inj he]
      exact ha
    · exact ⟨e, he, ha⟩
  entry_random id e h := by
    rw [lookup_setInfo] at h
    split_ifs at h with hid
    · cases h
      rw [hpos, hid]
      exact hs.entry_random nId info hlook
    · exact hs.entry_random id e h
  random_entry i id h := by
    obtain ⟨e, he, hi⟩ := hs.random_entry i id h
    rw [lookup_setInfo]
    split_ifs with hid
    · rw [hid, hlook] at he
      refine ⟨info', rfl, ?_⟩
      rw [hpos, Option.some.inj he]
      exact hi
    · exact ⟨e, he, hi⟩
  ids_lt id e h := by
    rw [lookup_setInfo] at h
    split_ifs at h with hid
    · rw [hid]
      exact hs.ids_lt nId info hlook
    · exact hs.ids_lt id e h

/-- Only the three indexes and the number of ids matter. -/
theorem Indexed.congr (hinfo : s'.mapInfo = s.mapInfo) (haddr : s'.mapAddr = s.mapAddr)
    (hrandom : s'.vRandom = s.vRandom) (hcount : s'.nIdCount = s.nIdCount) : s'.Indexed where
  entry_addr := by
    rw [hinfo, haddr]
    exact hs.entry_addr
  addr_entry := by
    rw [hinfo, haddr]
    exact hs.addr_entry
  entry_random := by
    rw [hinfo, hrandom]
    exact hs.entry_random
  random_entry := by
    rw [hinfo, hrandom]
    exact hs.random_entry
  ids_lt := by
    rw [hinfo, hcount]
    exact hs.ids_lt

/-- An address that is not found has no id. -/
theorem Indexed.find_eq_none {addr : CNetAddr} : s.find addr = none ↔ s.mapAddr.lookup addr = none := by
  unfold find
  cases hlook : s.mapAddr.lookup addr with
  | none => simp
  | some id =>
    obtain ⟨info, hinfo, -⟩ := hs.addr_entry addr id hlook
    simp [hinfo]

theorem Indexed.find_eq_some {addr : CNetAddr} (h : s.find addr = some (nId, info)) :
    s.mapInfo.lookup nId = some info ∧ info.service.addr = addr := by
  unfold find at h
  cases hlook : s.mapAddr.lookup addr with
  | none => simp [hlook] at h
  | some id =>
    rw [hlook] at h
    obtain ⟨e, he, heq⟩ := Option.map_eq_some_iff.mp h
    obtain ⟨rfl, rfl⟩ := Prod.mk.inj heq
    obtain ⟨e', he', ha⟩ := hs.addr_entry addr id hlook
    rw [he] at he'
    cases he'
    exact ⟨he, ha⟩

/-- The next id is not in use. -/
theorem Indexed.lookup_nIdCount : s.mapInfo.lookup s.nIdCount = none := by
  cases hlook : s.mapInfo.lookup s.nIdCount with
  | none => rfl
  | some info => exact absurd (hs.ids_lt _ info hlook) (Nat.lt_irrefl _)

theorem Indexed.create {addr : CAddress} (hnone : s.find addr.service.addr = none)
    (addrSource : CNetAddr) : (s.create addr addrSource).2.2.Indexed := by
  have hfresh := hs.lookup_nIdCount
  rw [hs.find_eq_none] at hnone
  have hlook : ∀ id, (s.create addr addrSource).2.2.mapInfo.lookup id =
      if id = s.nIdCount then some (s.create addr addrSource).2.1 else s.mapInfo.lookup id :=
    lookup_setInfo s s.nIdCount _
  have haddr : ∀ a, (s.create addr addrSource).2.2.mapAddr.lookup a =
      if a = addr.service.addr then some s.nIdCount else s.mapAddr.lookup a := by
    intro a
    show (s.mapAddr.insert addr.service.addr s.nIdCount).lookup a = _
    split_ifs with h
    · rw [h, AList.lookup_insert]
    · rw [AList.lookup_insert_ne h]
  have hrandom : ∀ i : Nat, (s.create addr addrSource).2.2.vRandom[i]? =
      if i = s.vRandom.length then some s.nIdCount else s.vRandom[i]? := by
    intro i
    show (s.vRandom ++ [s.nIdCount])[i]? = _
    rw [getElem?_append]
    split_ifs with hlt heq heq
    · omega
    · rfl
    · rw [heq, Nat.sub_self]
      rfl
    · rw [getElem?_eq_none (by rw [length_singleton]; omega), getElem?_eq_none (by omega)]
  refine ⟨fun id e h => ?_, fun a id h => ?_, fun id e h => ?_, fun i id h => ?_, fun id e h => ?_⟩
  · rw [hlook] at h
    rw [haddr]
    split_ifs at h with hid
    · cases h
      rw [hid]
      exact if_pos rfl
    · have hold := hs.entry_addr id e h
      split_ifs with ha
      · rw [ha, hnone] at hold
        exact absurd hold.symm (Option.some_ne_none _)
      · exact hold
  · rw [haddr] at h
    split_ifs at h with ha
    · cases h
      rw [hlook, if_pos rfl]
      exact ⟨_, rfl, ha.symm⟩
    · obtain ⟨e, he, hea⟩ := hs.addr_entry a id h
      rw [hlook]
      split_ifs with hid
      · rw [hid, hfresh] at he
        exact absurd he.symm (Option.some_ne_none _)
      · exact ⟨e, he, hea⟩
  · rw [hlook] at h
    split_ifs at h with hid
    · cases h
      refine ⟨s.vRandom.length, rfl, ?_⟩
      rw [hrandom, if_pos rfl, hid]
    · obtain ⟨i, hi, hat⟩ := hs.entry_random id e h
      refine ⟨i, hi, ?_⟩
      rw [hrandom, if_neg]
      · exact hat
      · rintro rfl
        rw [getElem?_eq_none (Nat.le_refl _)] at hat
        exact absurd hat.symm (Option.some_ne_none _)
  · rw [hrandom] at h
    split_ifs at h with hi
    · cases h
      rw [hlook, if_pos rfl]
      exact ⟨_, rfl, by rw [hi]; rfl⟩
    · obtain ⟨e, he, hei⟩ := hs.random_entry i id h
      rw [hlook, if_neg]
      · exact ⟨e, he, hei⟩
      · rintro rfl
        rw [hfresh] at he
        exact absurd he.symm (Option.some_ne_none _)
  · show id < s.nIdCount + 1
    rw [hlook] at h
    split_ifs at h with hid
    · omega
    · have hlt := hs.ids_lt id e h
      omega

end

/-! ## Swapping two places -/

/-- Nothing but the places of the entries differs. -/
structure Reordered (s s' : CAddrMan) : Prop where
  unplaced : s'.unplaced = s.unplaced
  length : s'.vRandom.length = s.vRandom.length
  rest : s' = { s with mapInfo := s'.mapInfo, vRandom := s'.vRandom }

theorem Reordered.refl (s : CAddrMan) : Reordered s s :=
  ⟨rfl, rfl, rfl⟩

theorem Indexed.ne_of_ne (hs : s.Indexed) {i j : Nat} {a b : Nat} (ha : s.vRandom[i]? = some a)
    (hb : s.vRandom[j]? = some b) (hne : i ≠ j) : a ≠ b := by
  rintro rfl
  obtain ⟨e, he, hi⟩ := hs.random_entry i a ha
  obtain ⟨e', he', hj⟩ := hs.random_entry j a hb
  rw [he] at he'
  cases he'
  rw [hi] at hj
  exact hne (Int.ofNat.inj hj)

theorem Indexed.swap (hs : s.Indexed) {p q a b : Nat} {e f : CAddrInfo} (hpq : p ≠ q)
    (ha : s.vRandom[p]? = some a) (hb : s.vRandom[q]? = some b)
    (he : s.mapInfo.lookup a = some e) (hf : s.mapInfo.lookup b = some f) :
    Indexed { s with
      mapInfo := (s.mapInfo.insert a { e with nRandomPos := q }).insert b { f with nRandomPos := p }
      vRandom := (s.vRandom.set p b).set q a } := by
  have hab := hs.ne_of_ne ha hb hpq
  have hp : p < s.vRandom.length := (List.getElem?_eq_some_iff.mp ha).1
  have hq : q < s.vRandom.length := (List.getElem?_eq_some_iff.mp hb).1
  have hlook : ∀ id, ((s.mapInfo.insert a { e with nRandomPos := (q : Int) }).insert b
      { f with nRandomPos := (p : Int) }).lookup id =
      if id = b then some { f with nRandomPos := (p : Int) }
      else if id = a then some { e with nRandomPos := (q : Int) } else s.mapInfo.lookup id := by
    intro id
    by_cases hb : id = b
    · rw [if_pos hb, hb, AList.lookup_insert]
    · rw [if_neg hb, AList.lookup_insert_ne hb]
      exact lookup_setInfo s a _ id
  have hrandom : ∀ i : Nat, ((s.vRandom.set p b).set q a)[i]? =
      if i = q then some a else if i = p then some b else s.vRandom[i]? := by
    intro i
    by_cases hiq : i = q
    · rw [if_pos hiq, hiq, getElem?_set_self (by rw [length_set]; exact hq)]
    · rw [if_neg hiq, getElem?_set_ne (Ne.symm hiq)]
      by_cases hip : i = p
      · rw [if_pos hip, hip, getElem?_set_self hp]
      · rw [if_neg hip, getElem?_set_ne (Ne.symm hip)]
  refine ⟨fun id x h => ?_, fun addr id h => ?_, fun id x h => ?_, fun i id h => ?_, fun id x h => ?_⟩
  · simp only [hlook] at h
    split_ifs at h with h1 h2
    · rw [h1, ← Option.some.inj h]
      exact hs.entry_addr b f hf
    · rw [h2, ← Option.some.inj h]
      exact hs.entry_addr a e he
    · exact hs.entry_addr id x h
  · obtain ⟨x, hx, hxa⟩ := hs.addr_entry addr id h
    simp only [hlook]
    split_ifs with h1 h2
    · rw [h1, hf] at hx
      exact ⟨_, rfl, by rw [← hxa, ← Option.some.inj hx]⟩
    · rw [h2, he] at hx
      exact ⟨_, rfl, by rw [← hxa, ← Option.some.inj hx]⟩
    · exact ⟨x, hx, hxa⟩
  · simp only [hlook] at h
    simp only [hrandom]
    split_ifs at h with h1 h2
    · refine ⟨p, by rw [← Option.some.inj h], ?_⟩
      rw [if_neg hpq, if_pos rfl, h1]
    · refine ⟨q, by rw [← Option.some.inj h], ?_⟩
      rw [if_pos rfl, h2]
    · obtain ⟨i, hi, hat⟩ := hs.entry_random id x h
      refine ⟨i, hi, ?_⟩
      have hiq : i ≠ q := by
        rintro rfl
        exact h1 (Option.mem_unique hat hb)
      have hip : i ≠ p := by
        rintro rfl
        exact h2 (Option.mem_unique hat ha)
      rw [if_neg hiq, if_neg hip]
      exact hat
  · simp only [hrandom] at h
    simp only [hlook]
    split_ifs at h with h1 h2
    · cases h
      rw [if_neg hab, if_pos rfl]
      exact ⟨_, rfl, by rw [h1]⟩
    · cases h
      rw [if_pos rfl]
      exact ⟨_, rfl, by rw [h2]⟩
    · obtain ⟨x, hx, hi⟩ := hs.random_entry i id h
      have hb' : id ≠ b := by
        rintro rfl
        exact hs.ne_of_ne h hb h1 rfl
      have ha' : id ≠ a := by
        rintro rfl
        exact hs.ne_of_ne h ha h2 rfl
      rw [if_neg hb', if_neg ha']
      exact ⟨x, hx, hi⟩
  · simp only [hlook] at h
    split_ifs at h with h1 h2
    · rw [h1]
      exact hs.ids_lt b f hf
    · rw [h2]
      exact hs.ids_lt a e he
    · exact hs.ids_lt id x h

theorem Indexed.swapRandom (hs : s.Indexed) {p q : Nat} (hp : p < s.vRandom.length) (hq : q < s.vRandom.length) :
    ∃ s', s.swapRandom p q = some s' ∧ s'.Indexed ∧ Reordered s s' ∧ s'.vRandom[q]? = s.vRandom[p]? := by
  unfold CAddrMan.swapRandom
  by_cases hpq : p = q
  · rw [if_pos hpq]
    exact ⟨s, rfl, hs, .refl s, by rw [hpq]⟩
  · have ha := getElem?_eq_getElem hp
    have hb := getElem?_eq_getElem hq
    obtain ⟨e, he, -⟩ := hs.random_entry p _ ha
    obtain ⟨f, hf, -⟩ := hs.random_entry q _ hb
    simp only [if_neg hpq, ha, hb, he, hf]
    refine ⟨_, rfl, hs.swap hpq ha hb he hf, ⟨?_, ?_, rfl⟩, ?_⟩
    · funext id
      unfold unplaced
      by_cases hid : id = s.vRandom[q]
      · rw [hid, AList.lookup_insert, hf]
        rfl
      · rw [AList.lookup_insert_ne hid]
        by_cases hid' : id = s.vRandom[p]
        · rw [hid', AList.lookup_insert, he]
          rfl
        · rw [AList.lookup_insert_ne hid']
    · show ((s.vRandom.set p _).set q _).length = s.vRandom.length
      rw [length_set, length_set]
    · rw [getElem?_set_self (by rw [length_set]; exact hq)]

/-! ## Deleting an entry -/

/-- What deleting an entry leaves. -/
structure Deleted (s s' : CAddrMan) (nId : Nat) : Prop where
  unplaced : ∀ id, s'.unplaced id = if id = nId then none else s.unplaced id
  length : s'.vRandom.length + 1 = s.vRandom.length
  nNew : s'.nNew = s.nNew - 1
  rest : s' = { s with mapInfo := s'.mapInfo, vRandom := s'.vRandom, mapAddr := s'.mapAddr, nNew := s'.nNew }

/-- The last id of the vector is deleted with its entry. -/
theorem Indexed.dropLast (hs : s.Indexed) (hlook : s.mapInfo.lookup nId = some info) {n : Nat}
    (hlength : s.vRandom.length = n + 1) (hlast : s.vRandom[n]? = some nId) :
    Indexed { s with
      vRandom := s.vRandom.dropLast
      mapAddr := s.mapAddr.erase info.service.addr
      mapInfo := s.mapInfo.erase nId
      nNew := s.nNew - 1 } := by
  have hdrop : ∀ i : Nat, s.vRandom.dropLast[i]? = if i < n then s.vRandom[i]? else none := by
    intro i
    rw [getElem?_dropLast, hlength]
    rfl
  have herase : ∀ id, (s.mapInfo.erase nId).lookup id = if id = nId then none else s.mapInfo.lookup id := by
    intro id
    split_ifs with h
    · rw [h, AList.lookup_erase]
    · rw [AList.lookup_erase_ne h]
  refine ⟨fun id x h => ?_, fun addr id h => ?_, fun id x h => ?_, fun i id h => ?_, fun id x h => ?_⟩
  · simp only [herase] at h
    split_ifs at h with hid
    have hx := hs.entry_addr id x h
    have hne : x.service.addr ≠ info.service.addr := by
      intro heq
      rw [heq, hs.entry_addr nId info hlook] at hx
      exact hid (Option.some.inj hx).symm
    show (s.mapAddr.erase _).lookup _ = _
    rw [AList.lookup_erase_ne hne]
    exact hx
  · have h : (s.mapAddr.erase info.service.addr).lookup addr = some id := h
    by_cases haddr : addr = info.service.addr
    · rw [haddr, AList.lookup_erase] at h
      exact absurd h.symm (Option.some_ne_none _)
    · rw [AList.lookup_erase_ne haddr] at h
      obtain ⟨x, hx, hxa⟩ := hs.addr_entry addr id h
      simp only [herase]
      rw [if_neg]
      · exact ⟨x, hx, hxa⟩
      · rintro rfl
        rw [hlook] at hx
        exact haddr (by rw [← hxa, Option.some.inj hx])
  · simp only [herase] at h
    split_ifs at h with hid
    obtain ⟨i, hi, hat⟩ := hs.entry_random id x h
    refine ⟨i, hi, ?_⟩
    simp only [hdrop]
    rw [if_pos]
    · exact hat
    · have hlt := (List.getElem?_eq_some_iff.mp hat).1
      have hne : i ≠ n := by
        rintro rfl
        exact hid (Option.mem_unique hat hlast)
      omega
  · simp only [hdrop] at h
    split_ifs at h with hi
    obtain ⟨x, hx, hxi⟩ := hs.random_entry i id h
    simp only [herase]
    rw [if_neg]
    · exact ⟨x, hx, hxi⟩
    · rintro rfl
      exact hs.ne_of_ne h hlast (Nat.ne_of_lt hi) rfl
  · simp only [herase] at h
    split_ifs at h with hid
    exact hs.ids_lt id x h

theorem Indexed.deleteNew (hs : s.Indexed) (hlook : s.mapInfo.lookup nId = some info) :
    ∃ s', s.deleteNew nId info = some s' ∧ s'.Indexed ∧ Deleted s s' nId := by
  obtain ⟨i, hi, hat⟩ := hs.entry_random nId info hlook
  have hlt := (List.getElem?_eq_some_iff.mp hat).1
  obtain ⟨t, hswap, ht, hsame, hlast⟩ := hs.swapRandom hlt (Nat.sub_lt (by omega) Nat.one_pos)
  have hnonneg : ¬ info.nRandomPos < 0 := by
    omega
  -- The entry itself has been moved, but keeps its address.
  have hentry := congrFun hsame.unplaced nId
  unfold unplaced at hentry
  rw [hlook] at hentry
  obtain ⟨e, he, heq⟩ := Option.map_eq_some_iff.mp hentry
  have hservice : e.service.addr = info.service.addr := by
    have haddr := congrArg (fun x : CAddrInfo => x.service.addr) heq
    exact haddr
  have hlength : t.vRandom.length = (s.vRandom.length - 1) + 1 := by
    rw [hsame.length]
    omega
  have hindexed := ht.dropLast he hlength (hlast.trans hat)
  unfold CAddrMan.deleteNew
  rw [if_neg hnonneg, hi, Int.toNat_natCast, hswap]
  refine ⟨_, rfl, ?_, ?_⟩
  · rw [← hservice]
    exact hindexed
  · refine ⟨fun id => ?_, ?_, ?_, ?_⟩
    · show ((t.mapInfo.erase nId).lookup id).map _ = _
      split_ifs with hid
      · rw [hid, AList.lookup_erase]
        rfl
      · rw [AList.lookup_erase_ne hid]
        exact congrFun hsame.unplaced id
    · show t.vRandom.dropLast.length + 1 = _
      rw [length_dropLast, hsame.length]
      omega
    · show t.nNew - 1 = s.nNew - 1
      rw [hsame.rest]
    · rw [hsame.rest]

end CAddrMan

end Reddcoin
