import Mathlib.Data.List.Pairwise
import Reddcoin.Wallet.KeyPool

/-!
# Runs of the key pool

The pool and its holders are leases on the records of the wallet file.  As long as no key is generated for an index that
somebody remembers, they stay exclusive.
-/

namespace Reddcoin

open Function (update)

open List Function

/-- The index and the key of a reservation. -/
def CReserveKey.held {K : Type} (reserved : CReserveKey K) : Option (Int × K) :=
  if reserved.nIndex = -1 then none else reserved.vchPubKey.map fun vchPubKey => (reserved.nIndex, vchPubKey)

theorem CReserveKey.held_eq_some {K : Type} {reserved : CReserveKey K} {i : Int} {v : K} :
    reserved.held = some (i, v) ↔ i ≠ -1 ∧ reserved = { nIndex := i, vchPubKey := some v } := by
  obtain ⟨nIndex, vchPubKey⟩ := reserved
  unfold held
  split_ifs with hnone
  · constructor
    · intro h
      cases h
    · rintro ⟨hne, heq⟩
      exact absurd ((congrArg CReserveKey.nIndex heq).symm.trans hnone) hne
  · cases vchPubKey with
    | none => simp
    | some key =>
      simp only [Option.map_some, Option.some.injEq, Prod.mk.injEq, CReserveKey.mk.injEq]
      constructor
      · rintro ⟨rfl, rfl⟩
        exact ⟨hnone, rfl, rfl⟩
      · rintro ⟨-, rfl, rfl⟩
        exact ⟨rfl, rfl⟩

namespace PoolWallet

variable {K : Type}

/-- Those who remember an index. -/
inductive PoolHolder where
  | reserveKey (n : Nat)
  | oldestCall (call : Nat)
deriving DecidableEq

/-- What a holder has, the index and the key. -/
def heldBy (w : PoolWallet K) : PoolHolder → Option (Int × K)
  | .reserveKey n => (w.reserveKeys n).held
  | .oldestCall call => (w.oldestCalls call).map fun held => (held.1, held.2.vchPubKey)

/-- The leases that the pool stands for. -/
def leases (w : PoolWallet K) : Leases.Pool Int K PoolHolder where
  free := {i | i ∈ w.setKeyPool}
  record i := (w.pool i).map CKeyPool.vchPubKey
  held := w.heldBy
  retired := {vchPubKey | vchPubKey ∈ w.kept}

/-- The invariant of the key pool. -/
structure Sound (w : PoolWallet K) : Prop where
  exclusive : Leases.Exclusive w.leases
  ordered : OrderedSet.Ordered (· ≤ ·) w.setKeyPool
  positive : ∀ i keypool, w.pool i = some keypool → 1 ≤ i
  own : ∀ i keypool, w.pool i = some keypool → keypool.vchPubKey ∈ w.keys
  used : ∀ vchPubKey ∈ w.kept, vchPubKey ∈ w.keys
  valid : ∀ n, (w.reserveKeys n).nIndex ≠ -1 → (w.reserveKeys n).vchPubKey.isSome

variable {source : KeySource K} {w : PoolWallet K} {i : Int}

theorem record_eq_some {v : K} :
    w.leases.record i = some v ↔ ∃ keypool, w.pool i = some keypool ∧ keypool.vchPubKey = v :=
  Option.map_eq_some_iff

theorem Sound.stored (h : w.Sound) (hi : i ∈ w.setKeyPool) : ∃ keypool, w.pool i = some keypool := by
  obtain ⟨v, hv⟩ := h.exclusive.free_stored i hi
  obtain ⟨keypool, hpool, -⟩ := record_eq_some.mp hv
  exact ⟨keypool, hpool⟩

theorem vacant_of_not_remembered (h : ¬ w.Remembered i) : w.leases.Vacant i := by
  rintro (n | call) v hheld
  · obtain ⟨-, hreserved⟩ := CReserveKey.held_eq_some.mp hheld
    exact h (.inl ⟨n, congrArg CReserveKey.nIndex hreserved⟩)
  · obtain ⟨⟨j, keypool⟩, hcall, heq⟩ := Option.map_eq_some_iff.mp hheld
    have hj : j = i := congrArg Prod.fst heq
    exact h (.inr ⟨call, keypool, hj ▸ hcall⟩)

/-- The key of a record was not kept. -/
theorem Sound.not_kept {keypool : CKeyPool K} (h : w.Sound) (hpool : w.pool i = some keypool) :
    keypool.vchPubKey ∉ w.kept :=
  h.exclusive.record_live i _ (record_eq_some.mpr ⟨keypool, hpool, rfl⟩)

theorem Sound.fresh (source : KeySource K) (h : w.Sound) (j : Int) :
    w.leases.record j ≠ some (source.makeNewKey w.keys) := by
  intro hj
  obtain ⟨keypool, hpool, hkey⟩ := record_eq_some.mp hj
  exact source.fresh w.keys (hkey ▸ h.own j keypool hpool)

/-- A key is generated and given out at once. -/
theorem Sound.giveNew (source : KeySource K) (h : w.Sound) :
    ({ w with keys := source.makeNewKey w.keys :: w.keys,
              kept := source.makeNewKey w.keys :: w.kept } : PoolWallet K).Sound := by
  refine ⟨?_, h.ordered, h.positive, fun i keypool hpool => mem_cons_of_mem _ (h.own i keypool hpool), ?_, h.valid⟩
  · refine (congrArg Leases.Exclusive ?_).mpr (h.exclusive.retire (h.fresh source))
    refine Leases.Pool.ext rfl rfl rfl ?_
    ext k
    exact mem_cons
  · rintro k hk
    rcases mem_cons.mp hk with rfl | hk
    · exact mem_cons_self
    · exact mem_cons_of_mem _ (h.used k hk)

/-! ## Generating keys -/

/-- A record is written or erased. -/
theorem record_update (pool : Int → Option (CKeyPool K)) (i : Int) (record : Option (CKeyPool K)) :
    (fun j => (update pool i record j).map CKeyPool.vchPubKey) =
      update (fun j => (pool j).map CKeyPool.vchPubKey) i (record.map CKeyPool.vchPubKey) := by
  funext j
  rw [update_apply, update_apply]
  split_ifs <;> rfl

theorem free_insert (i : Int) (set : List Int) :
    ({j | j ∈ OrderedSet.insert (· ≤ ·) i set} : Set Int) = insert i {j | j ∈ set} := by
  ext j
  exact OrderedSet.mem_insert

theorem retired_cons (v : K) (kept : List K) : ({k | k ∈ v :: kept} : Set K) = insert v {k | k ∈ kept} := by
  ext k
  exact mem_cons

theorem leases_addKey : (w.addKey source i).leases = w.leases.store i (source.makeNewKey w.keys) :=
  Leases.Pool.ext (free_insert i w.setKeyPool) (record_update w.pool i _) rfl rfl

/-- A key is generated for an index that nobody remembers. -/
theorem Sound.addKey (h : w.Sound) (hvacant : w.leases.Vacant i) (hpos : 1 ≤ i) : (w.addKey source i).Sound where
  exclusive := by
    rw [leases_addKey]
    exact h.exclusive.store hvacant (h.fresh source) fun hkept => source.fresh w.keys (h.used _ hkept)
  ordered := h.ordered.insert i
  positive j keypool hj := by
    by_cases hji : j = i
    · rw [hji]
      exact hpos
    · exact h.positive j keypool ((update_of_ne hji _ _).symm.trans hj)
  own j keypool hj := by
    by_cases hji : j = i
    · rw [hji] at hj
      have hself := (update_self i _ w.pool).symm.trans hj
      cases hself
      exact mem_cons_self
    · exact mem_cons_of_mem _ (h.own j keypool ((update_of_ne hji _ _).symm.trans hj))
  used vchPubKey hkept := mem_cons_of_mem _ (h.used vchPubKey hkept)
  valid := h.valid

/-- What a call changes that only generates keys. -/
structure Extends (w w' : PoolWallet K) : Prop where
  reserveKeys : w'.reserveKeys = w.reserveKeys
  oldestCalls : w'.oldestCalls = w.oldestCalls
  kept : w'.kept = w.kept
  locked : w'.locked = w.locked
  old : ∀ i ∈ w.setKeyPool, i ∈ w'.setKeyPool ∧ w'.pool i = w.pool i

theorem Extends.refl (w : PoolWallet K) : Extends w w :=
  ⟨rfl, rfl, rfl, rfl, fun _ hi => ⟨hi, rfl⟩⟩

theorem Extends.trans {w₁ w₂ w₃ : PoolWallet K} (h : Extends w₁ w₂) (h' : Extends w₂ w₃) : Extends w₁ w₃ where
  reserveKeys := h'.reserveKeys.trans h.reserveKeys
  oldestCalls := h'.oldestCalls.trans h.oldestCalls
  kept := h'.kept.trans h.kept
  locked := h'.locked.trans h.locked
  old i hi := by
    obtain ⟨hi', hpool⟩ := h.old i hi
    obtain ⟨hi'', hpool'⟩ := h'.old i hi'
    exact ⟨hi'', hpool'.trans hpool⟩

theorem Extends.vacant {w' : PoolWallet K} (h : Extends w w') (hvacant : w.leases.Vacant i) : w'.leases.Vacant i := by
  have hheld : w'.heldBy = w.heldBy := by
    funext holder
    cases holder with
    | reserveKey n => simp only [heldBy, h.reserveKeys]
    | oldestCall call => simp only [heldBy, h.oldestCalls]
  intro holder v hv
  exact hvacant holder v ((congrFun hheld holder).symm.trans hv)

/-- The last index of the set is its largest. -/
theorem lt_nEnd (h : OrderedSet.Ordered (· ≤ ·) w.setKeyPool) (hi : i ∈ w.setKeyPool) : i < w.nEnd := by
  have hne := ne_nil_of_mem hi
  have hlast : i ≤ w.setKeyPool.getLast hne := h.pairwise.rel_getLast hi
  unfold nEnd
  rw [getLast?_eq_getLast_of_ne_nil hne]
  exact Int.lt_add_one_of_le hlast

theorem nEnd_pos (hpos : ∀ i ∈ w.setKeyPool, 1 ≤ i) : 1 ≤ w.nEnd := by
  unfold nEnd
  cases hlast : w.setKeyPool.getLast? with
  | none => exact le_refl 1
  | some last =>
    have hmem := hpos last (mem_of_getLast? hlast)
    dsimp only
    omega

theorem insert_nEnd (h : OrderedSet.Ordered (· ≤ ·) w.setKeyPool) :
    OrderedSet.insert (· ≤ ·) w.nEnd w.setKeyPool = w.setKeyPool ++ [w.nEnd] := by
  refine (h.insert w.nEnd).ext ⟨?_, ?_⟩ fun j => ?_
  · refine pairwise_append.mpr ⟨h.pairwise, pairwise_singleton _ _, fun j hj k hk => ?_⟩
    rw [mem_singleton.mp hk]
    exact le_of_lt (lt_nEnd h hj)
  · exact nodup_append.mpr ⟨h.nodup, nodup_singleton _, fun j hj k hk => by
      rw [mem_singleton.mp hk]
      exact ne_of_lt (lt_nEnd h hj)⟩
  · rw [OrderedSet.mem_insert, mem_append, mem_singleton, or_comm]

/-- The next index goes up by one with each key. -/
theorem nEnd_addKey (source : KeySource K) (h : OrderedSet.Ordered (· ≤ ·) w.setKeyPool) :
    (w.addKey source w.nEnd).nEnd = w.nEnd + 1 ∧
      (w.addKey source w.nEnd).setKeyPool.length = w.setKeyPool.length + 1 := by
  have hset : (w.addKey source w.nEnd).setKeyPool = w.setKeyPool ++ [w.nEnd] := insert_nEnd h
  constructor
  · rw [nEnd.eq_def (w.addKey source w.nEnd), hset, getLast?_concat]
  · rw [hset, length_append, length_singleton]

theorem extends_addKey (source : KeySource K) (h : OrderedSet.Ordered (· ≤ ·) w.setKeyPool) :
    Extends w (w.addKey source w.nEnd) where
  reserveKeys := rfl
  oldestCalls := rfl
  kept := rfl
  locked := rfl
  old i hi := by
    have hne : i ≠ w.nEnd := ne_of_lt (lt_nEnd h hi)
    exact ⟨OrderedSet.mem_insert.mpr (.inr hi), update_of_ne hne _ _⟩

/-- The loop of `TopUpKeyPool`, when nobody remembers an index that it takes. -/
theorem topUpLoop_sound {size turns : Nat} (h : w.Sound)
    (hvacant : ∀ k < size - w.setKeyPool.length, w.leases.Vacant (w.nEnd + k)) :
    (w.topUpLoop source size turns).Sound ∧ Extends w (w.topUpLoop source size turns) := by
  induction turns generalizing w with
  | zero => exact ⟨h, .refl w⟩
  | succ turns ih =>
    rw [topUpLoop]
    split_ifs with hmore
    · obtain ⟨hnext, hlen⟩ := nEnd_addKey source h.ordered
      have hext := extends_addKey source h.ordered
      have hpos : 1 ≤ w.nEnd := nEnd_pos fun i hi => by
        obtain ⟨keypool, hpool⟩ := h.stored hi
        exact h.positive i keypool hpool
      have hfirst : w.leases.Vacant w.nEnd := by
        have hzero := hvacant 0 (by omega)
        rwa [show w.nEnd + ((0 : Nat) : Int) = w.nEnd by omega] at hzero
      have hadd : (w.addKey source w.nEnd).Sound := h.addKey hfirst hpos
      obtain ⟨hsound, hrest⟩ := ih hadd fun k hk => by
        have hlater := hext.vacant (hvacant (k + 1) (by omega))
        have heq : w.nEnd + ((k + 1 : Nat) : Int) = (w.addKey source w.nEnd).nEnd + k := by
          rw [hnext]
          omega
        rwa [heq] at hlater
      exact ⟨hsound, hext.trans hrest⟩
    · exact ⟨h, .refl w⟩

theorem vacant_of_topUpIndices {size : Nat} (hunlocked : w.locked = false)
    (hvacant : ∀ i ∈ w.topUpIndices size, ¬ w.Remembered i) :
    ∀ k < size - w.setKeyPool.length, w.leases.Vacant (w.nEnd + k) := by
  intro k hk
  refine vacant_of_not_remembered (hvacant _ ?_)
  unfold topUpIndices
  rw [hunlocked, if_neg Bool.false_ne_true]
  exact mem_map_of_mem (mem_range.mpr hk)

/-! ## The calls -/

variable {nKeys : Nat}

theorem topUpKeyPool_sound {kpSize : UInt32} (h : w.Sound)
    (hvacant : ∀ i ∈ w.topUpIndices (poolSize nKeys kpSize), ¬ w.Remembered i) :
    (w.topUpKeyPool source nKeys kpSize).2.Sound ∧ Extends w (w.topUpKeyPool source nKeys kpSize).2 := by
  unfold topUpKeyPool
  cases hlocked : w.locked with
  | true => exact ⟨h, .refl w⟩
  | false => exact topUpLoop_sound h (vacant_of_topUpIndices hlocked hvacant)

/-- The index that is taken out, and the others. -/
theorem free_of_cons {nIndex : Int} {rest : List Int} (h : OrderedSet.Ordered (· ≤ ·) w.setKeyPool)
    (hset : w.setKeyPool = nIndex :: rest) :
    ({i | i ∈ rest} : Set Int) = w.leases.free \ {nIndex} ∧ OrderedSet.Ordered (· ≤ ·) rest := by
  rw [hset] at h
  obtain ⟨hnot, hnodup⟩ := nodup_cons.mp h.nodup
  refine ⟨?_, (pairwise_cons.mp h.pairwise).2, hnodup⟩
  ext j
  show j ∈ rest ↔ j ∈ w.setKeyPool ∧ j ≠ nIndex
  rw [hset, mem_cons]
  constructor
  · intro hj
    refine ⟨.inr hj, ?_⟩
    rintro rfl
    exact hnot hj
  · rintro ⟨rfl | hj, hne⟩
    · exact absurd rfl hne
    · exact hj

theorem heldBy_setReserveKey (w : PoolWallet K) (n : Nat) (reserved : CReserveKey K) :
    (w.setReserveKey n reserved).heldBy = update w.heldBy (.reserveKey n) reserved.held := by
  funext holder
  rw [update_apply]
  cases holder with
  | reserveKey m =>
    show (update w.reserveKeys n reserved m).held = _
    rw [update_apply]
    split_ifs with hmn hother hother
    · rfl
    · exact absurd (congrArg PoolHolder.reserveKey hmn) hother
    · exact absurd (PoolHolder.reserveKey.inj hother) hmn
    · rfl
  | oldestCall call => rfl

theorem heldBy_oldestCall (w : PoolWallet K) (call : Nat) (held : Option (Int × CKeyPool K)) :
    (w.setOldestCall call held).heldBy = update w.heldBy (.oldestCall call)
    (held.map fun held => (held.1, held.2.vchPubKey)) := by
  funext holder
  rw [update_apply]
  cases holder with
  | reserveKey m => rfl
  | oldestCall other =>
    show (update w.oldestCalls call held other).map _ = _
    rw [update_apply]
    split_ifs with hmn hother hother
    · rfl
    · exact absurd (congrArg PoolHolder.oldestCall hmn) hother
    · exact absurd (PoolHolder.oldestCall.inj hother) hmn
    · rfl

section

variable {nIndex : Int} {rest : List Int} {keypool : CKeyPool K} (h : w.Sound) (hset : w.setKeyPool = nIndex :: rest)
    (hpool : w.pool nIndex = some keypool)

include h hset hpool

/-- The first index goes to a holder. -/
theorem Sound.leaseTo (n : Nat) : (({ w with setKeyPool := rest } : PoolWallet K).setReserveKey n
      { nIndex := nIndex, vchPubKey := some keypool.vchPubKey }).Sound := by
  obtain ⟨hfree, hordered⟩ := free_of_cons h.ordered hset
  have hpos := h.positive nIndex keypool hpool
  have hne : nIndex ≠ -1 := by omega
  have hmem : nIndex ∈ w.setKeyPool := hset ▸ mem_cons_self
  have hleases : (({ w with setKeyPool := rest } : PoolWallet K).setReserveKey n
      { nIndex := nIndex, vchPubKey := some keypool.vchPubKey }).leases =
        w.leases.lease (.reserveKey n) nIndex keypool.vchPubKey := by
    refine Leases.Pool.ext hfree rfl ?_ rfl
    refine (heldBy_setReserveKey _ n _).trans ?_
    rw [CReserveKey.held, if_neg hne]
    rfl
  refine ⟨?_, hordered, h.positive, h.own, h.used, fun m => ?_⟩
  · rw [hleases]
    exact h.exclusive.lease hmem (record_eq_some.mpr ⟨keypool, hpool, rfl⟩)
  · show (update w.reserveKeys n _ m).nIndex ≠ -1 → (update w.reserveKeys n _ m).vchPubKey.isSome
    rw [update_apply]
    split_ifs
    · exact fun _ => rfl
    · exact h.valid m

theorem Sound.leaseToCall (call : Nat) :
    (({ w with setKeyPool := rest } : PoolWallet K).setOldestCall call (some (nIndex, keypool))).Sound := by
  obtain ⟨hfree, hordered⟩ := free_of_cons h.ordered hset
  have hmem : nIndex ∈ w.setKeyPool := hset ▸ mem_cons_self
  have hleases : (({ w with setKeyPool := rest } : PoolWallet K).setOldestCall call (some (nIndex, keypool))).leases =
      w.leases.lease (.oldestCall call) nIndex keypool.vchPubKey :=
    Leases.Pool.ext hfree rfl (heldBy_oldestCall _ call _) rfl
  refine ⟨?_, hordered, h.positive, h.own, h.used, h.valid⟩
  rw [hleases]
  exact h.exclusive.lease hmem (record_eq_some.mpr ⟨keypool, hpool, rfl⟩)

end

/-- Erasing a record keeps what holds of every record. -/
theorem of_erased {P : Int → CKeyPool K → Prop} (h : ∀ j keypool, w.pool j = some keypool → P j keypool) (i : Int) :
    ∀ j keypool, update w.pool i none j = some keypool → P j keypool := by
  intro j keypool hj
  rw [update_apply] at hj
  split_ifs at hj
  exact h j keypool hj

/-- The record of the first index is used up. -/
theorem Sound.consume {nIndex : Int} {rest : List Int} {keypool : CKeyPool K} (h : w.Sound)
    (hset : w.setKeyPool = nIndex :: rest) (hpool : w.pool nIndex = some keypool) :
    ({ ({ w with setKeyPool := rest } : PoolWallet K).keepKey nIndex with
      kept := keypool.vchPubKey :: w.kept } : PoolWallet K).Sound := by
  obtain ⟨hfree, hordered⟩ := free_of_cons h.ordered hset
  have hmem : nIndex ∈ w.setKeyPool := hset ▸ mem_cons_self
  refine ⟨?_, hordered, of_erased h.positive nIndex, of_erased h.own nIndex, ?_, h.valid⟩
  · have hconsume := h.exclusive.consume hmem (record_eq_some.mpr ⟨keypool, hpool, rfl⟩)
    refine (congrArg Leases.Exclusive ?_).mpr hconsume
    exact Leases.Pool.ext hfree (record_update w.pool nIndex none) rfl (retired_cons keypool.vchPubKey w.kept)
  · rintro v hv
    rcases mem_cons.mp hv with rfl | hv
    · exact h.own nIndex keypool hpool
    · exact h.used v hv

/-- The reservation of a holder is over. -/
theorem valid_setReserveKey (h : w.Sound) (n : Nat) :
    ∀ m, (update w.reserveKeys n .new m).nIndex ≠ -1 →
      (update w.reserveKeys n .new m).vchPubKey.isSome := by
  intro m
  rw [update_apply]
  split_ifs
  · exact absurd rfl
  · exact h.valid m

/-- A holder has nothing, or an index with the key of its record. -/
theorem Sound.reservation (h : w.Sound) (n : Nat) :
    (w.reserveKeys n).nIndex = -1 ∧ (w.reserveKeys n).held = none ∨
      ∃ i v, i ≠ -1 ∧ w.reserveKeys n = { nIndex := i, vchPubKey := some v } ∧
        w.leases.held (.reserveKey n) = some (i, v) := by
  by_cases hnone : (w.reserveKeys n).nIndex = -1
  · exact .inl ⟨hnone, if_pos hnone⟩
  · obtain ⟨v, hv⟩ := Option.isSome_iff_exists.mp (h.valid n hnone)
    have hreserved : w.reserveKeys n = { nIndex := (w.reserveKeys n).nIndex, vchPubKey := some v } := by
      rw [← hv]
    exact .inr ⟨_, v, hnone, hreserved, CReserveKey.held_eq_some.mpr ⟨hnone, hreserved⟩⟩

theorem Sound.forget (h : w.Sound) {n : Nat} (hnone : (w.reserveKeys n).held = none) :
    (w.setReserveKey n .new).Sound := by
  have hheld : (w.setReserveKey n .new).heldBy = w.heldBy := by
    rw [heldBy_setReserveKey]
    exact update_eq_self_iff.mpr hnone.symm
  have hleases : (w.setReserveKey n .new).leases = w.leases := Leases.Pool.ext rfl rfl hheld rfl
  exact ⟨hleases ▸ h.exclusive, h.ordered, h.positive, h.own, h.used, valid_setReserveKey h n⟩

/-- A holder uses up its record. -/
theorem Sound.keepReserved (h : w.Sound) (n : Nat) : (w.keepReserved n).Sound := by
  unfold PoolWallet.keepReserved
  rcases h.reservation n with ⟨hindex, hnone⟩ | ⟨i, v, hne, hreserved, hheld⟩
  · rw [if_pos hindex]
    exact h.forget hnone
  · rw [hreserved, if_neg hne]
    have hkeep := h.exclusive.keep hheld
    obtain ⟨keypool, hpool, hkey⟩ := record_eq_some.mp (h.exclusive.held_stored _ i v hheld)
    refine ⟨?_, h.ordered, of_erased h.positive i, of_erased h.own i, ?_, valid_setReserveKey h n⟩
    · refine (congrArg Leases.Exclusive ?_).mpr hkeep
      exact Leases.Pool.ext rfl (record_update w.pool i none) (heldBy_setReserveKey w n .new) (retired_cons v w.kept)
    · rintro u hu
      rcases mem_cons.mp hu with rfl | hu
      · exact hkey ▸ h.own i keypool hpool
      · exact h.used u hu

theorem Sound.returnReserved (h : w.Sound) (n : Nat) : (w.returnReserved n).Sound := by
  unfold PoolWallet.returnReserved
  rcases h.reservation n with ⟨hindex, hnone⟩ | ⟨i, v, hne, hreserved, hheld⟩
  · rw [if_pos hindex]
    exact h.forget hnone
  · rw [hreserved, if_neg hne]
    have hback := h.exclusive.giveBack hheld
    refine ⟨?_, h.ordered.insert i, h.positive, h.own, h.used, valid_setReserveKey h n⟩
    refine (congrArg Leases.Exclusive ?_).mpr hback
    exact Leases.Pool.ext (free_insert i w.setKeyPool) rfl (heldBy_setReserveKey w n .new) rfl

theorem Sound.endOldestCall (h : w.Sound) (call : Nat) : (w.endOldestCall call).2.Sound := by
  unfold PoolWallet.endOldestCall
  cases hcall : w.oldestCalls call with
  | none => exact h
  | some held =>
    obtain ⟨i, keypool⟩ := held
    have hheld : w.leases.held (.oldestCall call) = some (i, keypool.vchPubKey) := by
      show (w.oldestCalls call).map _ = _
      rw [hcall]
      rfl
    have hback := h.exclusive.giveBack hheld
    refine ⟨?_, h.ordered.insert i, h.positive, h.own, h.used, h.valid⟩
    refine (congrArg Leases.Exclusive ?_).mpr hback
    exact Leases.Pool.ext (free_insert i w.setKeyPool) rfl (heldBy_oldestCall w call none) rfl

theorem foldl_erasePool (l : List Int) (w : PoolWallet K) :
    l.foldl (fun w nIndex => w.erasePool nIndex) w = { w with pool := fun i => if i ∈ l then none else w.pool i } := by
  induction l generalizing w with
  | nil => rfl
  | cons i l ih =>
    rw [foldl_cons, ih]
    have hpool : (fun j => if j ∈ l then none else (w.erasePool i).pool j) =
        fun j => if j ∈ i :: l then none else w.pool j := by
      funext j
      simp only [erasePool, update_apply, mem_cons]
      split_ifs with hl hi hor hor hor <;> first | rfl | simp_all
    rw [hpool]
    rfl

/-- The free records are erased. -/
theorem clearPool_eq (w : PoolWallet K) : w.clearPool =
    { w with setKeyPool := [], pool := fun i => if i ∈ w.setKeyPool then none else w.pool i } := by
  rw [clearPool, foldl_erasePool]

theorem Sound.clearPool (h : w.Sound) : w.clearPool.Sound := by
  have herased : ∀ {P : Int → CKeyPool K → Prop}, (∀ j keypool, w.pool j = some keypool → P j keypool) →
      ∀ j keypool, (if j ∈ w.setKeyPool then none else w.pool j) = some keypool → P j keypool := by
    intro P hP j keypool hj
    split_ifs at hj
    exact hP j keypool hj
  rw [clearPool_eq]
  refine ⟨?_, ⟨List.Pairwise.nil, nodup_nil⟩, herased h.positive, herased h.own, h.used, h.valid⟩
  refine (congrArg Leases.Exclusive ?_).mpr h.exclusive.clear
  refine Leases.Pool.ext ?_ ?_ rfl rfl
  · ext j
    exact iff_of_false not_mem_nil (Set.notMem_empty j)
  · funext j
    show (if j ∈ w.setKeyPool then none else w.pool j).map _ = _
    by_cases hj : j ∈ w.setKeyPool
    · rw [if_pos hj]
      exact (if_pos hj).symm
    · rw [if_neg hj]
      exact (if_neg hj).symm

theorem foldl_addKey_sound {l : List Nat} (h : w.Sound) (hvacant : ∀ i ∈ l, w.leases.Vacant ((i : Int) + 1)) :
    (l.foldl (fun w (i : Nat) => w.addKey source (i + 1)) w).Sound := by
  induction l generalizing w with
  | nil => exact h
  | cons i l ih =>
    have hadd : (w.addKey source (i + 1)).Sound := h.addKey (hvacant i mem_cons_self) (by omega)
    exact ih hadd fun j hj => hvacant j (mem_cons_of_mem i hj)

theorem newKeyPool_sound (h : w.Sound) (hvacant : ∀ i ∈ w.newIndices nKeys .newKeyPool, ¬ w.Remembered i) :
    (w.newKeyPool source nKeys).2.Sound := by
  have hframe := clearPool_eq w
  unfold newKeyPool
  dsimp only
  split_ifs with hlocked
  · exact h.clearPool
  · refine foldl_addKey_sound h.clearPool fun i hi => ?_
    have hunlocked : w.locked = false := by
      rw [hframe] at hlocked
      exact Bool.eq_false_iff.mpr hlocked
    have hfree : w.leases.Vacant ((i : Int) + 1) := by
      refine vacant_of_not_remembered (hvacant _ ?_)
      unfold newIndices
      rw [hunlocked]
      exact mem_map_of_mem hi
    rw [hframe]
    exact hfree

/-- The record that a holder keeps is not one of the pool. -/
theorem keepReserved_unerased (h : w.Sound) (n : Nat) (hi : i ∈ w.setKeyPool) :
    (w.keepReserved n).pool i = w.pool i := by
  unfold keepReserved
  rcases h.reservation n with ⟨hindex, -⟩ | ⟨j, v, hne, hreserved, hheld⟩
  · rw [if_pos hindex]
    rfl
  · rw [hreserved, if_neg hne]
    have hij : i ≠ j := by
      rintro rfl
      exact h.exclusive.held_apart _ i v hheld hi
    exact update_of_ne hij _ _

theorem returnReserved_pool (w : PoolWallet K) (n : Nat) : (w.returnReserved n).pool = w.pool := by
  unfold returnReserved
  dsimp only
  split_ifs <;> rfl

theorem Loaded.sound (h : w.Loaded) : w.Sound := by
  obtain ⟨hreserve, hcalls, hkept⟩ := h.idle
  have hnobody : ∀ holder, w.heldBy holder = none := by
    rintro (n | call)
    · show (w.reserveKeys n).held = none
      rw [hreserve n]
      rfl
    · show (w.oldestCalls call).map _ = none
      rw [hcalls call]
      rfl
  refine ⟨⟨fun i hi => ?_, fun holder i v hv => ?_, fun holder i v hv => ?_, fun holder _ i v _ hv => ?_, ?_, ?_⟩,
    h.ordered, fun i keypool hpool => ?_, h.own, fun v hv => ?_, fun n hn => ?_⟩
  · obtain ⟨keypool, hpool⟩ := Option.isSome_iff_exists.mp ((h.records i).mp hi)
    exact ⟨_, record_eq_some.mpr ⟨keypool, hpool, rfl⟩⟩
  · cases (hnobody holder).symm.trans hv
  · cases (hnobody holder).symm.trans hv
  · cases (hnobody holder).symm.trans hv
  · intro i j v hi hj
    obtain ⟨keypool, hpool, hkey⟩ := record_eq_some.mp hi
    obtain ⟨keypool', hpool', hkey'⟩ := record_eq_some.mp hj
    exact h.apart i j keypool keypool' hpool hpool' (hkey.trans hkey'.symm)
  · intro i v _ hv
    have hnil : v ∈ w.kept := hv
    rw [hkept] at hnil
    cases hnil
  · exact h.positive i ((h.records i).mpr (Option.isSome_iff_exists.mpr ⟨keypool, hpool⟩))
  · rw [hkept] at hv
    cases hv
  · rw [hreserve n] at hn
    exact absurd rfl hn

variable [DecidableEq K]

/-- What `ReserveKeyFromKeyPool` does to a sound pool: keys are added, and the first index is taken out. -/
theorem reserveKeyFromKeyPool_sound (source : KeySource K) (h : w.Sound)
    (hvacant : ∀ i ∈ w.topUpIndices (poolSize nKeys 0), ¬ w.Remembered i) :
    ∃ w₁, w₁.Sound ∧ Extends w w₁ ∧ ((w₁.setKeyPool = [] ∧ w.reserveKeyFromKeyPool source nKeys = (.none, w₁)) ∨
        ∃ nIndex rest keypool, w₁.setKeyPool = nIndex :: rest ∧ w₁.pool nIndex = some keypool ∧
          w.reserveKeyFromKeyPool source nKeys = (.reserved nIndex keypool, { w₁ with setKeyPool := rest })) := by
  obtain ⟨w₁, hw₁, hsound, hext⟩ : ∃ w₁, (if w.locked then w else (w.topUpKeyPool source nKeys 0).2) = w₁ ∧
      w₁.Sound ∧ Extends w w₁ := by
    split_ifs
    · exact ⟨w, rfl, h, .refl w⟩
    · exact ⟨_, rfl, topUpKeyPool_sound h hvacant⟩
  refine ⟨w₁, hsound, hext, ?_⟩
  unfold reserveKeyFromKeyPool
  rw [hw₁]
  cases hset : w₁.setKeyPool with
  | nil => exact .inl ⟨rfl, by simp only [hset]⟩
  | cons nIndex rest =>
    obtain ⟨keypool, hpool⟩ := hsound.stored (hset ▸ mem_cons_self)
    refine .inr ⟨nIndex, rest, keypool, rfl, hpool, ?_⟩
    simp only [hset, hpool, if_pos (hsound.own nIndex keypool hpool)]


/-- What holds of a call besides that the pool stays sound. -/
structure SafeCall (w : PoolWallet K) (r : KeyAnswer K × PoolWallet K) : Prop where
  sound : r.2.Sound
  returns : (∀ what, r.1 ≠ .threw what) ∧ r.1 ≠ .aborts
  fresh : ∀ vchPubKey, r.1 = .key vchPubKey → vchPubKey ∉ w.kept
  unerased : ∀ i ∈ w.setKeyPool, i ∈ r.2.setKeyPool → r.2.pool i = w.pool i

theorem getReservedKey_safe (h : w.Sound) (n : Nat) (hvacates : w.Vacates nKeys (.getReservedKey n)) :
    SafeCall w (w.getReservedKey source nKeys n) := by
  unfold getReservedKey
  rcases h.reservation n with ⟨hindex, -⟩ | ⟨i, v, hne, hreserved, hheld⟩
  · have hvacant : ∀ i ∈ w.topUpIndices (poolSize nKeys 0), ¬ w.Remembered i := by
      intro i hi
      refine hvacates i ?_
      show i ∈ if (w.reserveKeys n).nIndex = -1 then w.topUpIndices (poolSize nKeys 0) else []
      rwa [if_pos hindex]
    obtain ⟨w₁, hsound, hext, hcase⟩ := reserveKeyFromKeyPool_sound source h hvacant
    rw [if_pos hindex]
    rcases hcase with ⟨-, hnone⟩ | ⟨nIndex, rest, keypool, hset, hpool, hreserve⟩
    · rw [hnone]
      exact ⟨hsound, ⟨nofun, nofun⟩, nofun, fun i hi _ => (hext.old i hi).2⟩
    · rw [hreserve]
      refine ⟨hsound.leaseTo hset hpool n, ⟨nofun, nofun⟩, ?_, fun i hi _ => (hext.old i hi).2⟩
      rintro v hv
      obtain rfl := KeyAnswer.key.inj hv
      exact hext.kept ▸ hsound.not_kept hpool
  · rw [hreserved, if_neg hne]
    refine ⟨h, ⟨nofun, nofun⟩, ?_, fun _ _ _ => rfl⟩
    rintro u hu
    obtain rfl := KeyAnswer.key.inj hu
    exact h.exclusive.record_live i v (h.exclusive.held_stored _ i v hheld)

theorem getKeyFromPool_safe (h : w.Sound) (hvacates : w.Vacates nKeys .getKeyFromPool) :
    SafeCall w (w.getKeyFromPool source nKeys) := by
  obtain ⟨w₁, hsound, hext, hcase⟩ := reserveKeyFromKeyPool_sound source h hvacates
  unfold getKeyFromPool
  rcases hcase with ⟨-, hnone⟩ | ⟨nIndex, rest, keypool, hset, hpool, hreserve⟩
  · rw [hnone]
    dsimp only
    split_ifs
    · exact ⟨hsound, ⟨nofun, nofun⟩, nofun, fun i hi _ => (hext.old i hi).2⟩
    · refine ⟨hsound.giveNew source, ⟨nofun, nofun⟩, ?_, fun i hi _ => (hext.old i hi).2⟩
      rintro v hv hkept
      obtain rfl := KeyAnswer.key.inj hv
      exact source.fresh w₁.keys (hsound.used _ (hext.kept ▸ hkept))
  · rw [hreserve]
    refine ⟨hsound.consume hset hpool, ⟨nofun, nofun⟩, ?_, fun i hi hrest => ?_⟩
    · rintro v hv
      obtain rfl := KeyAnswer.key.inj hv
      exact hext.kept ▸ hsound.not_kept hpool
    · have hne : i ≠ nIndex := by
        obtain ⟨hfree, -⟩ := free_of_cons hsound.ordered hset
        exact (hfree.subset hrest).2
      exact (update_of_ne hne _ _).trans (hext.old i hi).2

theorem getOldestKeyPoolTime_safe (h : w.Sound) (call : Nat)
    (hvacant : ∀ i ∈ w.topUpIndices (poolSize nKeys 0), ¬ w.Remembered i) :
    SafeCall w (w.getOldestKeyPoolTime source nKeys call) := by
  obtain ⟨w₁, hsound, hext, hcase⟩ := reserveKeyFromKeyPool_sound source h hvacant
  unfold getOldestKeyPoolTime
  rcases hcase with ⟨-, hnone⟩ | ⟨nIndex, rest, keypool, hset, hpool, hreserve⟩
  · rw [hnone]
    exact ⟨hsound, ⟨nofun, nofun⟩, nofun, fun i hi _ => (hext.old i hi).2⟩
  · rw [hreserve]
    exact ⟨hsound.leaseToCall hset hpool call, ⟨nofun, nofun⟩, nofun, fun i hi _ => (hext.old i hi).2⟩

/-! ## Steps -/

/-- A step for which the condition holds keeps the pool sound, and is safe. -/
theorem step_safe (h : w.Sound) (a : KeyPoolStep) (hvacates : w.Vacates nKeys a) :
    (w.step source nKeys a).2.Sound ∧ w.SafeStep source nKeys a := by
  have hstored : ∀ i ∈ w.setKeyPool, ∃ keypool, w.pool i = some keypool := fun i hi => h.stored hi
  have hcall : SafeCall w (w.step source nKeys a) → (w.step source nKeys a).2.Sound ∧ w.SafeStep source nKeys a :=
    fun hsafe => ⟨hsafe.sound, hstored, hsafe.returns, hsafe.fresh, fun _ => hsafe.unerased⟩
  cases a with
  | lock locked | clock time =>
    exact hcall ⟨⟨h.exclusive, h.ordered, h.positive, h.own, h.used, h.valid⟩, ⟨nofun, nofun⟩, nofun, fun _ _ _ => rfl⟩
  | topUpKeyPool kpSize =>
    obtain ⟨hsound, hext⟩ := topUpKeyPool_sound h hvacates
    exact hcall ⟨hsound, ⟨nofun, nofun⟩, nofun, fun i hi _ => (hext.old i hi).2⟩
  | newKeyPool =>
    exact ⟨newKeyPool_sound h hvacates, hstored, ⟨nofun, nofun⟩, nofun, absurd rfl⟩
  | getReservedKey n => exact hcall (getReservedKey_safe h n hvacates)
  | keepKey n =>
    exact hcall ⟨h.keepReserved n, ⟨nofun, nofun⟩, nofun, fun i hi _ => keepReserved_unerased h n hi⟩
  | returnKey n =>
    exact hcall ⟨h.returnReserved n, ⟨nofun, nofun⟩, nofun, fun i _ _ => congrFun (returnReserved_pool w n) i⟩
  | getKeyFromPool => exact hcall (getKeyFromPool_safe h hvacates)
  | getOldestKeyPoolTime call =>
    by_cases hbusy : (w.oldestCalls call).isSome = true
    · refine hcall ?_
      show SafeCall w (if (w.oldestCalls call).isSome then (.returned false, w)
        else w.getOldestKeyPoolTime source nKeys call)
      rw [if_pos hbusy]
      exact ⟨h, ⟨nofun, nofun⟩, nofun, fun _ _ _ => rfl⟩
    · refine hcall ?_
      show SafeCall w (if (w.oldestCalls call).isSome then (.returned false, w)
        else w.getOldestKeyPoolTime source nKeys call)
      rw [if_neg hbusy]
      refine getOldestKeyPoolTime_safe h call fun i hi => hvacates i ?_
      show i ∈ if (w.oldestCalls call).isSome then [] else w.topUpIndices (poolSize nKeys 0)
      rwa [if_neg hbusy]
  | endOldestCall call =>
    have hpool : (w.endOldestCall call).2.pool = w.pool ∧ ((w.endOldestCall call).1 = .returned false ∨
        ∃ time, (w.endOldestCall call).1 = .time time) := by
      unfold PoolWallet.endOldestCall
      cases w.oldestCalls call with
      | none => exact ⟨rfl, .inl rfl⟩
      | some held => exact ⟨rfl, .inr ⟨_, rfl⟩⟩
    obtain ⟨hsame, hanswer⟩ := hpool
    refine hcall ⟨h.endOldestCall call, ⟨?_, ?_⟩, ?_, fun i _ _ => congrFun hsame i⟩
    all_goals
      show _
      rcases hanswer with hreturned | ⟨time, htime⟩
      · simp [step, hreturned]
      · simp [step, htime]

namespace Example

/-- Keys are numbers here; the next one is larger than those before it. -/
def keySource : KeySource Nat where
  makeNewKey keys := keys.foldr max 0 + 1
  fresh keys hmem := by
    have hle : ∀ (l : List Nat), ∀ k ∈ l, k ≤ l.foldr max 0 := by
      intro l
      induction l with
      | nil => exact fun k hk => absurd hk not_mem_nil
      | cons a l ih =>
        intro k hk
        rw [foldr_cons]
        rcases mem_cons.mp hk with rfl | hk
        · exact Nat.le_max_left _ _
        · exact Nat.le_trans (ih k hk) (Nat.le_max_right _ _)
    exact absurd (hle keys _ hmem) (Nat.not_succ_le_self _)

/-- A locked wallet with one key in its pool. -/
def loadedWallet : PoolWallet Nat where
  keys := [1]
  locked := true
  time := 0
  setKeyPool := [1]
  pool := update (fun _ => none) 1 (some { nTime := 0, vchPubKey := 1 })
  reserveKeys _ := .new
  oldestCalls _ := none
  kept := []

theorem loadedWallet_loaded : loadedWallet.Loaded := by
  have hpool : ∀ i keypool, loadedWallet.pool i = some keypool → i = 1 ∧ keypool = { nTime := 0, vchPubKey := 1 } := by
    intro i keypool hi
    by_cases hone : i = 1
    · rw [hone] at hi
      exact ⟨hone, (Option.some.inj hi).symm⟩
    · have hnone := update_of_ne hone (some ({ nTime := 0, vchPubKey := 1 } : CKeyPool Nat)) (fun _ => none)
      cases hnone.symm.trans hi
  refine ⟨⟨pairwise_singleton _ _, nodup_singleton _⟩, fun i => ?_, fun i hi => ?_, ?_, ?_,
    fun _ => rfl, fun _ => rfl, rfl⟩
  · rw [Option.isSome_iff_exists]
    constructor
    · intro hi
      rw [mem_singleton.mp hi]
      exact ⟨_, rfl⟩
    · rintro ⟨keypool, hi⟩
      exact mem_singleton.mpr (hpool i keypool hi).1
  · exact le_of_eq (mem_singleton.mp hi).symm
  · intro i keypool hi
    rw [(hpool i keypool hi).2]
    exact mem_singleton.mpr rfl
  · intro i j keypool keypool' hi hj _
    exact (hpool i keypool hi).1.trans (hpool j keypool' hj).1.symm

def afterSteps (steps : List KeyPoolStep) : PoolWallet Nat :=
  steps.foldl (fun w a => (w.step keySource 1 a).2) loadedWallet

/-- The key of the holder is not kept yet. -/
def toppedUp : PoolWallet Nat :=
  afterSteps [.getReservedKey 0, .lock false, .topUpKeyPool 1]

def keptOld : PoolWallet Nat :=
  afterSteps [.getReservedKey 0, .lock false, .topUpKeyPool 1, .keepKey 0]

end Example

open Example

end PoolWallet
end Reddcoin
