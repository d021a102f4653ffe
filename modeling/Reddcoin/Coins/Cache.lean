import Reddcoin.Coins.Coins
import Reddcoin.Lib.FiniteMap

/-!
# The coins cache

One `CCoinsViewCache` of `coins.cpp`, with its `DIRTY` and `FRESH` flags.  The view below it is
only ever asked for one transaction at a time, so each operation takes what `base->GetCoins`
answers for its `txid`: `none` when the call returns false.
-/

namespace Reddcoin

structure CCoinsCacheEntry where
  coins : CCoins
  dirty : Bool
  fresh : Bool
deriving DecidableEq

abbrev CCoinsMap := AList fun _ : Uint256 => CCoinsCacheEntry

structure CCoinsViewCache where
  cacheCoins : CCoinsMap
  hashBlock : Uint256

namespace CCoinsViewCache

def new : CCoinsViewCache :=
  { cacheCoins := ∅, hashBlock := 0 }

def setEntry (c : CCoinsViewCache) (txid : Uint256) (entry : CCoinsCacheEntry) : CCoinsViewCache :=
  { c with cacheCoins := c.cacheCoins.insert txid entry }

def eraseEntry (c : CCoinsViewCache) (txid : Uint256) : CCoinsViewCache :=
  { c with cacheCoins := c.cacheCoins.erase txid }

/-- The entry pulled in from below: an empty parent entry counts as fresh. -/
def pulled (coins : CCoins) : CCoinsCacheEntry :=
  { coins := coins, dirty := false, fresh := coins.isPruned }

/-- `FetchCoins`: the cache afterwards. -/
def fetchCoins (c : CCoinsViewCache) (txid : Uint256) (answer : Option CCoins) : CCoinsViewCache :=
  match c.cacheCoins.lookup txid, answer with
  | none, some tmp => c.setEntry txid (pulled tmp)
  | _, _ => c

/-- What `GetCoins` and `AccessCoins` report. -/
def getCoins (c : CCoinsViewCache) (txid : Uint256) (answer : Option CCoins) : Option CCoins :=
  match c.cacheCoins.lookup txid with
  | some entry => some entry.coins
  | none => answer

/-- `HaveCoins` looks at `vout.empty()` rather than `IsPruned`. -/
def haveCoins (c : CCoinsViewCache) (txid : Uint256) (answer : Option CCoins) : Bool :=
  match c.getCoins txid answer with
  | some coins => !coins.vout.isEmpty
  | none => false

/-- The entry that `ModifyCoins` hands out, before it is flagged `DIRTY`. -/
def modifierEntry (c : CCoinsViewCache) (txid : Uint256) (answer : Option CCoins) :
    CCoinsCacheEntry :=
  match c.cacheCoins.lookup txid, answer with
  | some entry, _ => entry
  | none, some coins => pulled coins
  | none, none => { coins := CCoins.new.clear, dirty := false, fresh := true }

/-- `ModifyCoins`, the modification `f` of the entry, and the destructor of `CCoinsModifier`. -/
def modifyCoins (c : CCoinsViewCache) (txid : Uint256) (answer : Option CCoins)
    (f : CCoins → CCoins) : CCoinsViewCache :=
  let entry := c.modifierEntry txid answer
  let coins := (f entry.coins).cleanup
  if entry.fresh && coins.isPruned then c.eraseEntry txid
  else c.setEntry txid { entry with coins := coins, dirty := true }

/-- One turn of the loop in `BatchWrite`; a failed assertion is `none`. -/
def batchWriteEntry (cacheCoins : CCoinsMap) (txid : Uint256) (child : CCoinsCacheEntry) :
    Option CCoinsMap :=
  if !child.dirty then some cacheCoins
  else
    match cacheCoins.lookup txid with
    | none =>
      if child.coins.isPruned then some cacheCoins
      else if child.fresh then
        some (cacheCoins.insert txid { coins := child.coins, dirty := true, fresh := true })
      else none
    | some us =>
      if us.fresh && child.coins.isPruned then some (cacheCoins.erase txid)
      else some (cacheCoins.insert txid { us with coins := child.coins, dirty := true })

def batchWrite (c : CCoinsViewCache) (mapCoins : CCoinsMap) (hashBlockIn : Uint256) :
    Option CCoinsViewCache := do
  let cacheCoins ←
    mapCoins.entries.foldlM (fun cacheCoins e => batchWriteEntry cacheCoins e.1 e.2) c.cacheCoins
  pure { cacheCoins := cacheCoins, hashBlock := hashBlockIn }

/-! ## Lookups -/

@[simp]
theorem lookup_setEntry (c : CCoinsViewCache) (k : Uint256) (e : CCoinsCacheEntry) (k' : Uint256) :
    (c.setEntry k e).cacheCoins.lookup k' = if k' = k then some e else c.cacheCoins.lookup k' := by
  unfold setEntry
  by_cases h : k' = k
  · subst h
    simp
  · simp [h, AList.lookup_insert_ne h]

@[simp]
theorem lookup_eraseEntry (c : CCoinsViewCache) (k k' : Uint256) :
    (c.eraseEntry k).cacheCoins.lookup k' = if k' = k then none else c.cacheCoins.lookup k' := by
  unfold eraseEntry
  by_cases h : k' = k
  · subst h
    simp
  · simp [h, AList.lookup_erase_ne h]

theorem lookup_fetchCoins (c : CCoinsViewCache) (k : Uint256) (answer : Option CCoins)
    (k' : Uint256) :
    (c.fetchCoins k answer).cacheCoins.lookup k' = if k' = k then (c.cacheCoins.lookup k).or (answer.map pulled)
      else c.cacheCoins.lookup k' := by
  unfold fetchCoins
  by_cases h : k' = k
  · subst h
    cases hl : c.cacheCoins.lookup k' <;> cases answer <;> simp [hl]
  · cases hl : c.cacheCoins.lookup k <;> cases answer <;> simp [h]

theorem lookup_modifyCoins (c : CCoinsViewCache) (k : Uint256) (answer : Option CCoins)
    (f : CCoins → CCoins) (k' : Uint256) :
    (c.modifyCoins k answer f).cacheCoins.lookup k' = if k' = k then
        if (c.modifierEntry k answer).fresh && (f (c.modifierEntry k answer).coins).isPruned then
          none
        else some
          { c.modifierEntry k answer with
            coins := (f (c.modifierEntry k answer).coins).cleanup, dirty := true }
      else c.cacheCoins.lookup k' := by
  unfold modifyCoins
  simp only [CCoins.isPruned_cleanup]
  by_cases hp : ((c.modifierEntry k answer).fresh &&
      (f (c.modifierEntry k answer).coins).isPruned) = true
  · simp only [hp, if_true, lookup_eraseEntry]
  · simp only [hp, if_false, Bool.false_eq_true, lookup_setEntry]

/-- What one turn of `BatchWrite` does to the entry of its own `txid`. -/
def batchWriteAt (child : CCoinsCacheEntry) (us? : Option CCoinsCacheEntry) :
    Option (Option CCoinsCacheEntry) :=
  if !child.dirty then some us?
  else
    match us? with
    | none =>
      if child.coins.isPruned then some none
      else if child.fresh then some (some { coins := child.coins, dirty := true, fresh := true })
      else none
    | some us =>
      if us.fresh && child.coins.isPruned then some none
      else some (some { us with coins := child.coins, dirty := true })

theorem batchWriteEntry_pointwise :
    Lib.PointwiseStep batchWriteEntry fun _ child us? => batchWriteAt child us? := by
  refine ⟨fun m k child v hv => ?_⟩
  have herase : ∀ k', k' ≠ k → (m.erase k).lookup k' = m.lookup k' :=
    fun k' h => AList.lookup_erase_ne h
  have hinsert : ∀ e k', k' ≠ k → (m.insert k e).lookup k' = m.lookup k' :=
    fun e k' h => AList.lookup_insert_ne h
  unfold batchWriteAt at hv
  unfold batchWriteEntry
  cases hd : child.dirty with
  | false =>
    have hsame : m.lookup k = v := by simpa [hd] using hv
    exact ⟨m, by simp, hsame, fun _ _ => rfl⟩
  | true =>
    simp only [hd, Bool.not_true, Bool.false_eq_true, if_false] at hv ⊢
    cases hl : m.lookup k with
    | none =>
      rw [hl] at hv
      cases hp : child.coins.isPruned with
      | true =>
        have hgone : none = v := by simpa [hp] using hv
        exact ⟨m, by simp, by rw [hl, hgone], fun _ _ => rfl⟩
      | false =>
        cases hf : child.fresh with
        | false => simp [hp, hf] at hv
        | true =>
          have hnew : some { coins := child.coins, dirty := true, fresh := true } = v := by
            simpa [hp, hf] using hv
          subst hnew
          exact ⟨_, by simp, AList.lookup_insert m, hinsert _⟩
    | some us =>
      rw [hl] at hv
      cases hp : us.fresh && child.coins.isPruned with
      | true =>
        have hgone : none = v := by simpa only [hp, if_true, Option.some.injEq] using hv
        subst hgone
        exact ⟨m.erase k, by simp only [hp, if_true], AList.lookup_erase k m, herase⟩
      | false =>
        have hnew : some { us with coins := child.coins, dirty := true } = v := by
          simpa only [hp, Bool.false_eq_true, if_false, Option.some.injEq] using hv
        subst hnew
        exact ⟨_, by simp only [hp, Bool.false_eq_true, if_false], AList.lookup_insert m, hinsert _⟩

/-- `BatchWrite` succeeds when none of its turns fails on the cache as it was, and then every entry
of the result is known. -/
theorem batchWrite_lookup {c : CCoinsViewCache} {mapCoins : CCoinsMap}
    (hok : ∀ k e, mapCoins.lookup k = some e → batchWriteAt e (c.cacheCoins.lookup k) ≠ none)
    (hashBlockIn : Uint256) :
    ∃ c', c.batchWrite mapCoins hashBlockIn = some c' ∧ c'.hashBlock = hashBlockIn ∧
      ∀ k, some (c'.cacheCoins.lookup k) = (mapCoins.lookup k).elim (some (c.cacheCoins.lookup k)) fun e =>
          batchWriteAt e (c.cacheCoins.lookup k) := by
  obtain ⟨m', hm', hpoint⟩ := batchWriteEntry_pointwise.foldlM_entries mapCoins hok
  refine ⟨{ cacheCoins := m', hashBlock := hashBlockIn }, ?_, rfl, hpoint⟩
  unfold batchWrite
  rw [hm']
  rfl

end CCoinsViewCache

end Reddcoin
