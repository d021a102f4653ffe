import Reddcoin.Coins.Cache
import Reddcoin.Coins.Undo

/-!
# The view of a block being connected

`ConnectBlock` and `DisconnectBlock` work on one `CCoinsViewCache` over a view that does not change
meanwhile.  A `CoinsView` is that cache with the answers of the view below it.  Storing a pulled-in
answer does not change any later one, so reads leave the view as it is here.
-/

namespace Reddcoin

structure CoinsView where
  cache : CCoinsViewCache
  /-- What `base->GetCoins` answers. -/
  base : Uint256 → Option CCoins
  /-- What `base->GetBestBlock` answers. -/
  baseBestBlock : Uint256
  /-- An entry is fresh only when the view below holds nothing unspent for it. -/
  fresh_pruned : ∀ k e, cache.cacheCoins.lookup k = some e → e.fresh = true → ∀ c, base k = some c → c.isPruned = true

/-- An empty cache over a view. -/
def CoinsView.over (base : Uint256 → Option CCoins) (baseBestBlock : Uint256) : CoinsView where
  cache := CCoinsViewCache.new
  base := base
  baseBestBlock := baseBestBlock
  fresh_pruned := by
    intro k e he
    have hnone : CCoinsViewCache.new.cacheCoins.lookup k = none := AList.lookup_empty k
    rw [hnone] at he
    simp at he

namespace CoinsView

variable (v : CoinsView)

def accessCoins (txid : Uint256) : Option CCoins :=
  v.cache.getCoins txid (v.base txid)

/-- The entry `ModifyCoins` finds or makes. -/
def entry (txid : Uint256) : CCoinsCacheEntry :=
  v.cache.modifierEntry txid (v.base txid)

/-- The coins that `ModifyCoins` hands out: what the view holds, or an empty object. -/
def coins (txid : Uint256) : CCoins :=
  (v.entry txid).coins

def getBestBlock : Uint256 :=
  if v.cache.hashBlock = 0 then v.baseBestBlock else v.cache.hashBlock

def setBestBlock (hashBlockIn : Uint256) : CoinsView :=
  { v with cache := { v.cache with hashBlock := hashBlockIn } }

theorem entry_fresh {k : Uint256} (hf : (v.entry k).fresh) :
    ∀ c, v.base k = some c → c.isPruned = true := by
  intro c hc
  unfold entry CCoinsViewCache.modifierEntry at hf
  cases hl : v.cache.cacheCoins.lookup k with
  | some e =>
    rw [hl] at hf
    exact v.fresh_pruned k e hl hf c hc
  | none =>
    rw [hl, hc] at hf
    exact hf

def modifyCoins (txid : Uint256) (f : CCoins → CCoins) : CoinsView :=
  { v with
    cache := v.cache.modifyCoins txid (v.base txid) f
    fresh_pruned := by
      intro k e he hf c hc
      rw [CCoinsViewCache.lookup_modifyCoins] at he
      by_cases hk : k = txid
      · subst hk
        rw [if_pos rfl] at he
        split at he
        · simp at he
        · cases he
          exact v.entry_fresh hf c hc
      · rw [if_neg hk] at he
        exact v.fresh_pruned k e he hf c hc }

/-- `FetchCoins`: the view that has stored what the view below answered. -/
def fetchCoins (txid : Uint256) : CoinsView :=
  { v with
    cache := v.cache.fetchCoins txid (v.base txid)
    fresh_pruned := by
      intro k e he hf c hc
      rw [CCoinsViewCache.lookup_fetchCoins] at he
      by_cases hk : k = txid
      · subst hk
        rw [if_pos rfl, hc] at he
        cases hl : v.cache.cacheCoins.lookup k with
        | some e' =>
          rw [hl] at he
          exact v.fresh_pruned k e (hl.trans he) hf c hc
        | none =>
          rw [hl] at he
          cases he
          exact hf
      · rw [if_neg hk] at he
        exact v.fresh_pruned k e he hf c hc }

/-- The available output at position `n` of transaction `txid`. -/
def out? (txid : Uint256) (n : Nat) : Option CTxOut :=
  (v.coins txid).out? n

/-! ## What a modification does -/

variable {v}

theorem accessCoins_eq (k : Uint256) :
    v.accessCoins k = some (v.coins k) ∨ (v.accessCoins k = none ∧ v.coins k = CCoins.new) := by
  unfold accessCoins coins entry CCoinsViewCache.getCoins CCoinsViewCache.modifierEntry
  cases hl : v.cache.cacheCoins.lookup k with
  | some e => exact .inl rfl
  | none =>
    cases v.base k with
    | some c => exact .inl rfl
    | none => exact .inr ⟨rfl, rfl⟩

theorem entry_modifyCoins_ne {k k' : Uint256} (hk : k' ≠ k) (f : CCoins → CCoins) :
    (v.modifyCoins k f).entry k' = v.entry k' := by
  show (v.cache.modifyCoins k (v.base k) f).modifierEntry k' (v.base k') = _
  unfold entry CCoinsViewCache.modifierEntry
  rw [CCoinsViewCache.lookup_modifyCoins, if_neg hk]

theorem coins_modifyCoins_ne {k k' : Uint256} (hk : k' ≠ k) (f : CCoins → CCoins) :
    (v.modifyCoins k f).coins k' = v.coins k' :=
  congrArg CCoinsCacheEntry.coins (entry_modifyCoins_ne hk f)

/-- After a modification the entry is the cleaned-up result; a fresh one that became pruned is dropped
and is again what the view below says. -/
theorem entry_modifyCoins (k : Uint256) (f : CCoins → CCoins) :
    (v.modifyCoins k f).entry k = if (v.entry k).fresh && (f (v.coins k)).isPruned then
        CCoinsViewCache.new.modifierEntry k (v.base k)
      else { v.entry k with coins := (f (v.coins k)).cleanup, dirty := true } := by
  show (v.cache.modifyCoins k (v.base k) f).modifierEntry k (v.base k) = _
  unfold CCoinsViewCache.modifierEntry
  rw [CCoinsViewCache.lookup_modifyCoins, if_pos rfl]
  have hentry : v.cache.modifierEntry k (v.base k) = v.entry k := rfl
  have hcoins : (v.entry k).coins = v.coins k := rfl
  have hempty : CCoinsViewCache.new.cacheCoins.lookup k = none := AList.lookup_empty k
  rw [hentry, hcoins]
  by_cases hdrop : ((v.entry k).fresh && (f (v.coins k)).isPruned) = true
  · cases v.base k <;> simp only [hdrop, if_true, hempty]
  · simp only [hdrop, if_false, Bool.false_eq_true]

theorem out?_modifyCoins_self (k : Uint256) (f : CCoins → CCoins) (n : Nat) :
    (v.modifyCoins k f).out? k n = (f (v.coins k)).out? n := by
  show ((v.modifyCoins k f).entry k).coins.out? n = _
  rw [entry_modifyCoins]
  by_cases hdrop : ((v.entry k).fresh && (f (v.coins k)).isPruned) = true
  · rw [if_pos hdrop]
    rw [Bool.and_eq_true] at hdrop
    rw [CCoins.isPruned_iff.mp hdrop.2 n]
    have hempty : CCoinsViewCache.new.cacheCoins.lookup k = none := AList.lookup_empty k
    unfold CCoinsViewCache.modifierEntry
    rw [hempty]
    cases hb : v.base k with
    | none => exact CCoins.out?_clear _ n
    | some c => exact CCoins.isPruned_iff.mp (v.entry_fresh hdrop.1 c hb) n
  · rw [if_neg hdrop]
    exact CCoins.out?_cleanup _ n

theorem out?_modifyCoins (k : Uint256) (f : CCoins → CCoins) (k' : Uint256) (n : Nat) :
    (v.modifyCoins k f).out? k' n = if k' = k then (f (v.coins k)).out? n else v.out? k' n := by
  by_cases hk : k' = k
  · subst hk
    rw [if_pos rfl, out?_modifyCoins_self]
  · rw [if_neg hk]
    unfold out?
    rw [coins_modifyCoins_ne hk]

end CoinsView

end Reddcoin
