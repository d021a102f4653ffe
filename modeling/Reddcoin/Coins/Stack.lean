import Reddcoin.Coins.Cache

/-!
# Stacks of coins caches

A stack of `CCoinsViewCache` objects over a base view, as `coins_cache_simulation_test` drives it.
The first cache of the list is the top.  The abstract model is one plain map from transaction ids
to coins; `stack_refines_map` relates the two along every run.
-/

namespace Reddcoin

/-- What the caches rely on in the view at the bottom.  `ω` is whatever decides how the base reports
a fully spent transaction (the random numbers of `CCoinsViewTest`, nothing for the database), and
`coins` is the object last written for a transaction, empty when there is none. -/
structure CoinsBase (β ω : Type) where
  getCoins : ω → β → Uint256 → Option CCoins
  batchWrite : ω → β → CCoinsMap → Uint256 → β
  coins : β → Uint256 → CCoins
  coins_clean : ∀ b k, (coins b k).Clean
  getCoins_unspent : ∀ w b k, (coins b k).isPruned = false → getCoins w b k = some (coins b k)
  getCoins_pruned : ∀ w b k c, (coins b k).isPruned = true → getCoins w b k = some c → c.isPruned = true ∧ c.Clean
  batchWrite_dirty : ∀ w b m h k e, m.lookup k = some e → e.dirty = true → e.coins.Clean →
    (coins (batchWrite w b m h) k).same e.coins = true
  batchWrite_kept : ∀ w b m h k e, m.lookup k = some e → e.dirty = false → e.coins.Clean →
    e.coins.same (coins b k) = true → (coins (batchWrite w b m h) k).same (coins b k) = true
  batchWrite_other : ∀ w b m h k, m.lookup k = none → (coins (batchWrite w b m h) k).same (coins b k) = true

/-! ## The chainstate database -/

/-- The records under `'c'` in the database of `txdb.cpp`. -/
abbrev CoinsDB := AList fun _ : Uint256 => CCoins

namespace CoinsDB

/-- A record comes back as it was written; `Unserialize` ends with `Cleanup`. -/
def getCoins (db : CoinsDB) (txid : Uint256) : Option CCoins :=
  (db.lookup txid).map CCoins.cleanup

/-- `BatchWriteCoins` for a dirty entry. -/
def batchWriteCoins (db : CoinsDB) (txid : Uint256) (entry : CCoinsCacheEntry) : CoinsDB :=
  if entry.dirty then
    if entry.coins.isPruned then db.erase txid else db.insert txid entry.coins
  else db

def batchWrite (db : CoinsDB) (mapCoins : CCoinsMap) : CoinsDB :=
  mapCoins.entries.foldl (fun db e => batchWriteCoins db e.1 e.2) db

def coins (db : CoinsDB) (txid : Uint256) : CCoins :=
  (db.getCoins txid).getD CCoins.new

/-- The record of a transaction after a dirty or clean entry of it was written. -/
def recordAfter (entry : CCoinsCacheEntry) (record : Option CCoins) : Option CCoins :=
  if entry.dirty then
    if entry.coins.isPruned then none else some entry.coins
  else record

theorem lookup_batchWrite (db : CoinsDB) (m : CCoinsMap) (k : Uint256) :
    (db.batchWrite m).lookup k = (m.lookup k).elim (db.lookup k) fun e => recordAfter e (db.lookup k) := by
  have hat : ∀ (db : CoinsDB) (k : Uint256) (e : CCoinsCacheEntry),
      (batchWriteCoins db k e).lookup k = recordAfter e (db.lookup k) := by
    intro db k e
    unfold batchWriteCoins recordAfter
    cases e.dirty <;> cases e.coins.isPruned <;> simp
  have hother : ∀ (db : CoinsDB) (k : Uint256) (e : CCoinsCacheEntry) (k' : Uint256), k' ≠ k →
      (batchWriteCoins db k e).lookup k' = db.lookup k' := by
    intro db k e k' hk
    unfold batchWriteCoins
    cases e.dirty <;> cases e.coins.isPruned <;>
      simp [AList.lookup_erase_ne hk, AList.lookup_insert_ne hk]
  exact Lib.foldl_entries_lookup hat hother m db k

theorem getCoins_batchWrite (db : CoinsDB) (m : CCoinsMap) (k : Uint256) :
    (db.batchWrite m).getCoins k = (m.lookup k).elim (db.getCoins k) fun e =>
        if e.dirty then
          if e.coins.isPruned then none else some e.coins.cleanup
        else db.getCoins k := by
  unfold getCoins
  rw [lookup_batchWrite]
  cases m.lookup k with
  | none => rfl
  | some e =>
    simp only [Option.elim_some, recordAfter]
    cases e.dirty <;> cases e.coins.isPruned <;> rfl

end CoinsDB

/-- `CCoinsViewDB` as the base of a stack. -/
def coinsViewDB : CoinsBase CoinsDB Unit where
  getCoins := fun _ db txid => db.getCoins txid
  batchWrite := fun _ db mapCoins _ => db.batchWrite mapCoins
  coins := CoinsDB.coins
  coins_clean := by
    intro db k
    unfold CoinsDB.coins CoinsDB.getCoins
    cases db.lookup k with
    | none => exact CCoins.clean_new
    | some c => exact CCoins.clean_cleanup c
  getCoins_unspent := by
    intro _ db k hp
    unfold CoinsDB.coins at *
    cases hg : db.getCoins k with
    | none => simp [hg] at hp
    | some c => rfl
  getCoins_pruned := by
    intro _ db k c hp hg
    have hclean : c.Clean := by
      obtain ⟨c', -, rfl⟩ := Option.map_eq_some_iff.mp hg
      exact CCoins.clean_cleanup c'
    refine ⟨?_, hclean⟩
    simpa [CoinsDB.coins, hg] using hp
  batchWrite_dirty := by
    intro _ db m _ k e he hd hclean
    unfold CoinsDB.coins
    rw [CoinsDB.getCoins_batchWrite, he]
    cases hp : e.coins.isPruned with
    | true => simpa [hd, hp] using CCoins.same_of_pruned CCoins.isPruned_new hp
    | false =>
      have hself : e.coins.cleanup = e.coins := hclean
      simp [hd, hp, hself]
  batchWrite_kept := by
    intro _ db m _ k e he hd _ _
    unfold CoinsDB.coins
    rw [CoinsDB.getCoins_batchWrite, he]
    simp [hd]
  batchWrite_other := by
    intro _ db m _ k hk
    unfold CoinsDB.coins
    rw [CoinsDB.getCoins_batchWrite, hk]
    exact CCoins.same_refl _

/-! ## The stack -/

structure CoinsStack (β : Type) where
  base : β
  caches : List CCoinsViewCache

namespace CoinsStack

variable {β ω : Type} (V : CoinsBase β ω)

/-- `GetCoins` on the top of a stack: the answer, and the caches after every level has stored what
it pulled in. -/
def fetch (w : ω) (b : β) : List CCoinsViewCache → Uint256 → Option CCoins × List CCoinsViewCache
  | [], txid => (V.getCoins w b txid, [])
  | c :: cs, txid =>
    match c.cacheCoins.lookup txid with
    | some entry => (some entry.coins, c :: cs)
    | none =>
      let below := fetch w b cs txid
      (c.getCoins txid below.1, c.fetchCoins txid below.1 :: below.2)

def modify (w : ω) (b : β) (cs : List CCoinsViewCache) (txid : Uint256) (f : CCoins → CCoins) :
    List CCoinsViewCache :=
  match cs with
  | [] => []
  | c :: cs =>
    match c.cacheCoins.lookup txid with
    | some _ => c.modifyCoins txid none f :: cs
    | none =>
      let below := fetch V w b cs txid
      c.modifyCoins txid below.1 f :: below.2

/-- `Flush` of the top cache and its removal. -/
def flush (w : ω) (s : CoinsStack β) : Option (CoinsStack β) :=
  match s.caches with
  | [] => some s
  | [c] => some { base := V.batchWrite w s.base c.cacheCoins c.hashBlock, caches := [] }
  | c :: parent :: cs => do
    let parent ← parent.batchWrite c.cacheCoins c.hashBlock
    pure { s with caches := parent :: cs }

inductive Op (ω : Type) where
  | getCoins (w : ω) (txid : Uint256)
  | accessCoins (w : ω) (txid : Uint256)
  | haveCoins (w : ω) (txid : Uint256)
  | modifyCoins (w : ω) (txid : Uint256) (f : CCoins → CCoins)
  | push
  | flush (w : ω)

/-- One operation on the top of the stack; `none` is a failed assertion.  A stack without caches
has no object to modify or flush, and is left as it is. -/
def step (s : CoinsStack β) : Op ω → Option (CoinsStack β)
  | .getCoins w txid => some { s with caches := (fetch V w s.base s.caches txid).2 }
  | .accessCoins w txid => some { s with caches := (fetch V w s.base s.caches txid).2 }
  | .haveCoins w txid => some { s with caches := (fetch V w s.base s.caches txid).2 }
  | .modifyCoins w txid f => some { s with caches := modify V w s.base s.caches txid f }
  | .push => some { s with caches := CCoinsViewCache.new :: s.caches }
  | .flush w => flush V w s

/-- `GetCoins` or `AccessCoins` on the top. -/
def query (w : ω) (s : CoinsStack β) (txid : Uint256) : Option CCoins :=
  (fetch V w s.base s.caches txid).1

/-- `HaveCoins` on the top. -/
def queryHave (w : ω) (s : CoinsStack β) (txid : Uint256) : Bool :=
  match query V w s txid with
  | some coins => !coins.vout.isEmpty
  | none => false

end CoinsStack

/-! ## The plain map

The simulation test keeps a map `result` beside the stack and applies every modification to both. -/

structure CoinsSimulation (β : Type) where
  stack : CoinsStack β
  result : Uint256 → CCoins

namespace CoinsSimulation

open CoinsStack (Op)

variable {β ω : Type} (V : CoinsBase β ω)

/-- The modification `f` of the coins at `txid`, with the `Cleanup` that ends every modification. -/
def modifyMap (m : Uint256 → CCoins) (txid : Uint256) (f : CCoins → CCoins) : Uint256 → CCoins :=
  fun k => if k = txid then (f (m txid)).cleanup else m k

def mapStep (m : Uint256 → CCoins) : Op ω → Uint256 → CCoins
  | .modifyCoins _ txid f => modifyMap m txid f
  | _ => m

/-- A fresh stack over `b`, and the map that holds what `b` holds. -/
def start (b : β) : CoinsSimulation β :=
  { stack := { base := b, caches := [] }, result := V.coins b }

def step (s : CoinsSimulation β) (op : Op ω) : Option (CoinsSimulation β) := do
  let stack ← s.stack.step V op
  pure { stack := stack, result := if s.stack.caches.isEmpty then s.result else mapStep s.result op }

def run (s : CoinsSimulation β) (ops : List (Op ω)) : Option (CoinsSimulation β) :=
  ops.foldlM (step V) s

end CoinsSimulation

namespace CoinsStack

variable {β ω : Type} (V : CoinsBase β ω)

/-- An answer agrees with a map entry, an absent answer standing for a pruned one. -/
def Agrees (answer : Option CCoins) (c : CCoins) : Prop :=
  match answer with
  | some a => a.same c = true
  | none => c.isPruned = true

instance (answer : Option CCoins) (c : CCoins) : Decidable (Agrees answer c) :=
  match answer with
  | some a => inferInstanceAs (Decidable (a.same c = true))
  | none => inferInstanceAs (Decidable (c.isPruned = true))

/-- The modification does not look at what a pruned object still holds. -/
def RespectsPruned (f : CCoins → CCoins) : Prop :=
  ∀ a b : CCoins, a.isPruned = true → b.isPruned = true → (f a).same (f b) = true

def Op.RespectsPruned : Op ω → Prop
  | .modifyCoins _ _ f => CoinsStack.RespectsPruned f
  | _ => True

/-! ## The invariant of a stack -/

/-- The coins a stack stands for: the topmost entry, else what the base holds. -/
def view (b : β) : List CCoinsViewCache → Uint256 → CCoins
  | [], k => V.coins b k
  | c :: cs, k =>
    match c.cacheCoins.lookup k with
    | some entry => entry.coins
    | none => view b cs k

/-- The cache on top, if there is one, holds an entry for `k`. -/
def TopHolds : List CCoinsViewCache → Uint256 → Prop
  | [], _ => True
  | c :: _, k => c.cacheCoins.lookup k ≠ none

/-- What links an entry to the levels `cs` below its cache. -/
structure EntryLinked (b : β) (cs : List CCoinsViewCache) (k : Uint256) (e : CCoinsCacheEntry) :
    Prop where
  clean : e.coins.Clean
  fresh : e.fresh = true → (view V b cs k).isPruned = true
  kept : e.dirty = false → e.coins.same (view V b cs k) = true
  held : e.fresh = false → TopHolds cs k

def Linked (b : β) : List CCoinsViewCache → Prop
  | [] => True
  | c :: cs => Linked b cs ∧ ∀ k e, c.cacheCoins.lookup k = some e → EntryLinked V b cs k e

/-- `cs'` stands for the same coins as `cs`, and its top holds at least as many entries. -/
structure Extends (b : β) (cs cs' : List CCoinsViewCache) : Prop where
  view : ∀ k, (view V b cs' k).same (view V b cs k) = true
  holds : ∀ k, TopHolds cs k → TopHolds cs' k

variable {V} {b : β} {cs cs' : List CCoinsViewCache} {c : CCoinsViewCache} {k : Uint256}

theorem Extends.refl (cs : List CCoinsViewCache) : Extends V b cs cs :=
  ⟨fun _ => CCoins.same_refl _, fun _ h => h⟩

theorem EntryLinked.extend {e : CCoinsCacheEntry} (h : EntryLinked V b cs k e)
    (hext : Extends V b cs cs') : EntryLinked V b cs' k e where
  clean := h.clean
  fresh := fun hf => (CCoins.same_isPruned (hext.view k)).trans (h.fresh hf)
  kept := fun hd => CCoins.same_trans (h.kept hd) (CCoins.same_symm (hext.view k))
  held := fun hf => hext.holds k (h.held hf)

theorem view_cons_some {e : CCoinsCacheEntry} (h : c.cacheCoins.lookup k = some e) :
    view V b (c :: cs) k = e.coins := by
  simp only [view, h]

theorem view_cons_none (h : c.cacheCoins.lookup k = none) :
    view V b (c :: cs) k = view V b cs k := by
  simp only [view, h]

end CoinsStack

end Reddcoin
