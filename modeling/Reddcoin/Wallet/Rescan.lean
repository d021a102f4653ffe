import Mathlib.Data.List.ReduceOption
import Reddcoin.Index.Lookups

/-!
# Scanning the chain for the wallet's transactions

`ScanForWalletTransactions` of `wallet.cpp`.  Its cursor moves on in the middle of the loop, before the progress of a long
scan is logged with the height of the entry under it.
-/

namespace Reddcoin

open List

/-- The ways in which the scan does not return. -/
inductive ScanStop where
  /-- The turns are used up. -/
  | unfinished
  /-- A field of a null entry is read. -/
  | nullEntry
  deriving DecidableEq

/-- What the scan works with: the index with the active chain, the blocks that the reads from disk leave, the wallet
and the readings of the clock, one after another. -/
structure ScanNode (Wallet : Type) where
  mapBlockIndex : BlockMap
  chainActive : CChain
  readBlockFromDisk : Ptr → CBlock
  nTimeFirstKey : Int
  addToWalletIfInvolvingMe : Wallet → CTransaction → CBlock → Bool → Bool × Wallet
  getTime : Nat → Int

/-- The variables of the scan; `nReads` counts the readings of the clock, and `calls` lists the calls of
`AddToWalletIfInvolvingMe`. -/
structure ScanState (Wallet : Type) where
  wallet : Wallet
  ret : Nat
  nNow : Int
  nReads : Nat
  calls : List (CTransaction × CBlock)

namespace ScanNode

open Forest (path)

variable {Wallet : Type} (N : ScanNode Wallet)

/-- The block is from before the wallet's birthday. -/
def early (p : Ptr) : Bool :=
  decide (N.nTimeFirstKey ≠ 0 ∧ ((N.mapBlockIndex.entry p).nTime : Int) < N.nTimeFirstKey - 7200)

def skipLoop : Nat → Option Ptr → Except ScanStop (Option Ptr)
  | 0, _ => .error .unfinished
  | _ + 1, none => .ok none
  | turns + 1, some pindex =>
    if N.early pindex then skipLoop turns (N.chainActive.next N.mapBlockIndex pindex) else .ok (some pindex)

def scanTx (fUpdate : Bool) (block : CBlock) (s : ScanState Wallet) (tx : CTransaction) : ScanState Wallet :=
  let (found, wallet) := N.addToWalletIfInvolvingMe s.wallet tx block fUpdate
  { s with
    wallet := wallet
    ret := if found then s.ret + 1 else s.ret
    calls := s.calls ++ [(tx, block)] }

def scanLoop (fUpdate : Bool) : Nat → Option Ptr → ScanState Wallet → Except ScanStop (ScanState Wallet)
  | 0, _, _ => .error .unfinished
  | _ + 1, none, s => .ok s
  | turns + 1, some pindex, s =>
    let block := N.readBlockFromDisk pindex
    let s := block.vtx.foldl (N.scanTx fUpdate block) s
    let pindex := N.chainActive.next N.mapBlockIndex pindex
    if s.nNow + 60 ≤ N.getTime s.nReads then
      -- `pindex->nHeight` is logged, whether or not there is a next entry.
      match pindex with
      | none => .error .nullEntry
      | some _ => scanLoop fUpdate turns pindex { s with nNow := N.getTime (s.nReads + 1), nReads := s.nReads + 2 }
    else scanLoop fUpdate turns pindex { s with nReads := s.nReads + 1 }

def scanForWalletTransactions (turns : Nat) (pindexStart : Option Ptr) (fUpdate : Bool) (wallet : Wallet) :
    Except ScanStop (ScanState Wallet) := do
  let pindex ← N.skipLoop turns pindexStart
  N.scanLoop fUpdate turns pindex ⟨wallet, 0, N.getTime 0, 1, []⟩

/-- The active chain from an entry on. -/
def ahead (pindexStart : Ptr) : List Ptr :=
  (N.chainActive.drop (N.mapBlockIndex.ht pindexStart)).reduceOption

/-- The blocks from the first one at or after the start that is not too old, up to the tip. -/
def due (pindexStart : Ptr) : List Ptr :=
  (N.ahead pindexStart).dropWhile fun p => decide
    (((N.mapBlockIndex.entry p).nTime : Int) < N.nTimeFirstKey - 7200)

/-- The transactions of a block, each with the block. -/
def callsOf (p : Ptr) : List (CTransaction × CBlock) :=
  (N.readBlockFromDisk p).vtx.map fun tx => (tx, N.readBlockFromDisk p)

/-- The scan returns, and has passed every transaction of the blocks that are due to the wallet once, in their order. -/
def ScansDue (turns : Nat) (pindexStart : Ptr) (fUpdate : Bool) (wallet : Wallet) : Prop :=
  ∃ s, N.scanForWalletTransactions turns (some pindexStart) fUpdate wallet = .ok s ∧
    s.calls = (N.due pindexStart).flatMap N.callsOf

/-- After as many blocks, the last of them is done within a minute of the time last noted.  The times are those of the
readings from number `nReads` on. -/
def InTime (getTime : Nat → Int) : Nat → Int → Nat → Prop
  | 0, _, _ => True
  | 1, nNow, nReads => getTime nReads < nNow + 60
  | n + 2, nNow, nReads =>
    if nNow + 60 ≤ getTime nReads then InTime getTime (n + 1) (getTime (nReads + 1)) (nReads + 2)
    else InTime getTime (n + 1) nNow (nReads + 1)

/-- Each entry is followed by the next one of the list. -/
def Linked : List Ptr → Prop
  | [] => True
  | p :: l => N.chainActive.next N.mapBlockIndex p = l.head? ∧ Linked l

variable {N}

section

variable {t : Ptr} (hends : CChain.EndsAt N.mapBlockIndex N.chainActive t) (hm : N.mapBlockIndex.Tree)
  (ht : t < N.mapBlockIndex.size)

include hends hm ht

theorem next_eq {i : Nat} {p : Ptr} (hp : (path N.mapBlockIndex.par (N.mapBlockIndex.ht t) t)[i]? = some p) :
    N.chainActive.next N.mapBlockIndex p = (path N.mapBlockIndex.par (N.mapBlockIndex.ht t) t)[i + 1]? := by
  obtain ⟨hanc, hheight⟩ := (hm.graded.getElem?_path ht i).mp hp
  rw [CChain.next, if_pos ((hends.contains_iff hm ht).mpr hanc), hheight]
  have hat : N.chainActive[i + 1]? = ((path N.mapBlockIndex.par (N.mapBlockIndex.ht t) t)[i + 1]?).map some :=
    (congrArg (fun v : CChain => v[i + 1]?) hends).trans getElem?_map
  rw [hat]
  cases (path N.mapBlockIndex.par (N.mapBlockIndex.ht t) t)[i + 1]? <;> rfl

/-- The rest of the chain from any entry on is walked by `Next`. -/
theorem linked_suffix {l : List Ptr} (hl : l <:+ path N.mapBlockIndex.par (N.mapBlockIndex.ht t) t) : N.Linked l := by
  induction l with
  | nil => trivial
  | cons p l ih =>
    refine ⟨?_, ih ((suffix_cons p l).trans hl)⟩
    obtain ⟨front, hfront⟩ := hl
    have hat (k : Nat) : (path N.mapBlockIndex.par (N.mapBlockIndex.ht t) t)[front.length + k]? = (p :: l)[k]? := by
      rw [← hfront, getElem?_append_right (Nat.le_add_right _ _), Nat.add_sub_cancel_left]
    rw [next_eq hends hm ht (hat 0), hat 1, getElem?_cons_succ, head?_eq_getElem?]

omit hm ht in
theorem ahead_eq (p : Ptr) :
    N.ahead p = (path N.mapBlockIndex.par (N.mapBlockIndex.ht t) t).drop (N.mapBlockIndex.ht p) := by
  rw [ahead, hends, ← map_drop, List.reduceOption, filterMap_map]
  exact filterMap_some

theorem head?_ahead {p : Ptr} (hp : N.chainActive.contains N.mapBlockIndex p) : (N.ahead p).head? = some p := by
  rw [ahead_eq hends, head?_drop, hm.graded.getElem?_path ht]
  exact ⟨(hends.contains_iff hm ht).mp hp, rfl⟩

end

theorem skipLoop_eq {l : List Ptr} (hl : N.Linked l) {turns : Nat} (hturns : l.length < turns) :
    N.skipLoop turns l.head? = .ok (l.dropWhile N.early).head? := by
  induction l generalizing turns with
  | nil =>
    obtain ⟨turns, rfl⟩ := Nat.exists_eq_succ_of_ne_zero (Nat.ne_of_gt hturns)
    rfl
  | cons p l ih =>
    obtain ⟨turns, rfl⟩ := Nat.exists_eq_succ_of_ne_zero (Nat.ne_of_gt (Nat.zero_lt_of_lt hturns))
    rw [head?_cons, skipLoop, dropWhile_cons]
    split_ifs with hearly
    · rw [hl.1]
      exact ih hl.2 (Nat.succ_lt_succ_iff.mp hturns)
    · rfl

/-- The transactions of a block are passed to the wallet, and the clock is not read. -/
theorem foldl_scanTx (fUpdate : Bool) (block : CBlock) (txs : List CTransaction) (s : ScanState Wallet) :
    ∃ wallet ret, txs.foldl (N.scanTx fUpdate block) s =
      ⟨wallet, ret, s.nNow, s.nReads, s.calls ++ txs.map fun tx => (tx, block)⟩ := by
  induction txs generalizing s with
  | nil => exact ⟨s.wallet, s.ret, by rw [map_nil, append_nil]; rfl⟩
  | cons tx txs ih =>
    obtain ⟨wallet, ret, heq⟩ := ih (N.scanTx fUpdate block s tx)
    refine ⟨wallet, ret, heq.trans ?_⟩
    rw [scanTx, append_assoc]
    rfl

theorem scanLoop_spec (fUpdate : Bool) {l : List Ptr} (hl : N.Linked l) {turns : Nat} (hturns : l.length < turns)
    (s : ScanState Wallet) :
    (InTime N.getTime l.length s.nNow s.nReads → ∃ s', N.scanLoop fUpdate turns l.head? s = .ok s' ∧
      s'.calls = s.calls ++ l.flatMap N.callsOf) ∧
    (¬ InTime N.getTime l.length s.nNow s.nReads → N.scanLoop fUpdate turns l.head? s = .error .nullEntry) := by
  induction l generalizing turns s with
  | nil =>
    obtain ⟨turns, rfl⟩ := Nat.exists_eq_succ_of_ne_zero (Nat.ne_of_gt hturns)
    exact ⟨fun _ => ⟨s, rfl, (append_nil _).symm⟩, absurd trivial⟩
  | cons p l ih =>
    obtain ⟨turns, rfl⟩ := Nat.exists_eq_succ_of_ne_zero (Nat.ne_of_gt (Nat.zero_lt_of_lt hturns))
    have hturns := Nat.succ_lt_succ_iff.mp hturns
    obtain ⟨wallet, ret, hblock⟩ := foldl_scanTx (N := N) fUpdate (N.readBlockFromDisk p) (N.readBlockFromDisk p).vtx s
    rw [head?_cons, scanLoop, hblock, hl.1, flatMap_cons, ← append_assoc]
    cases l with
    | nil =>
      obtain ⟨turns, rfl⟩ := Nat.exists_eq_succ_of_ne_zero (Nat.ne_of_gt hturns)
      have hone : InTime N.getTime [p].length s.nNow s.nReads ↔ ¬ s.nNow + 60 ≤ N.getTime s.nReads := Int.not_le.symm
      rw [hone]
      exact ⟨fun h => ⟨_, if_neg h, (append_nil _).symm⟩, fun h => if_pos (not_not.mp h)⟩
    | cons q l =>
      show (InTime N.getTime (l.length + 2) _ _ → _) ∧ (¬ InTime N.getTime (l.length + 2) _ _ → _)
      rw [InTime]
      split_ifs
      · exact ih hl.2 hturns ⟨wallet, ret, N.getTime (s.nReads + 1), s.nReads + 2, s.calls ++ N.callsOf p⟩
      · exact ih hl.2 hturns ⟨wallet, ret, s.nNow, s.nReads + 1, s.calls ++ N.callsOf p⟩

/-- A wallet without a birthday starts with the first block: no block is from before 1970. -/
theorem early_eq (p : Ptr) : N.early p = decide (((N.mapBlockIndex.entry p).nTime : Int) < N.nTimeFirstKey - 7200) := by
  rw [early, Bool.eq_iff_iff, decide_eq_true_eq, decide_eq_true_eq]
  omega

theorem scanForWalletTransactions_spec {t p : Ptr} {turns : Nat} (hm : N.mapBlockIndex.Tree)
    (ht : t < N.mapBlockIndex.size)
    (hends : CChain.EndsAt N.mapBlockIndex N.chainActive t)
    (hp : N.chainActive.contains N.mapBlockIndex p) (hturns : N.chainActive.length < turns) (fUpdate : Bool)
    (wallet : Wallet) :
    (InTime N.getTime (N.due p).length (N.getTime 0) 1 → N.ScansDue turns p fUpdate wallet) ∧
      (¬ InTime N.getTime (N.due p).length (N.getTime 0) 1 →
        N.scanForWalletTransactions turns (some p) fUpdate wallet = .error .nullEntry) := by
  have hlength : (N.ahead p).length < turns :=
    ((reduceOption_length_le _).trans (drop_sublist _ _).length_le).trans_lt hturns
  have hsuffix : N.ahead p <:+ path N.mapBlockIndex.par (N.mapBlockIndex.ht t) t :=
    ahead_eq hends p ▸ drop_suffix _ _
  have hdue : (N.ahead p).dropWhile N.early = N.due p := by
    rw [due, funext (early_eq (N := N))]
  have hskip := skipLoop_eq (linked_suffix hends hm ht hsuffix) hlength
  rw [head?_ahead hends hm ht hp, hdue] at hskip
  have hscan : N.scanForWalletTransactions turns (some p) fUpdate wallet =
      N.scanLoop fUpdate turns (N.due p).head? ⟨wallet, 0, N.getTime 0, 1, []⟩ := by
    rw [scanForWalletTransactions, hskip]
    rfl
  have hrest := dropWhile_suffix (l := N.ahead p) N.early
  rw [hdue] at hrest
  rw [ScansDue, hscan]
  exact scanLoop_spec fUpdate (linked_suffix hends hm ht (hrest.trans hsuffix))
    (hrest.length_le.trans_lt hlength) ⟨wallet, 0, N.getTime 0, 1, []⟩

/-- The scan reaches its end only if no logging is due after the last block. -/
theorem scansDue_iff {t p : Ptr} {turns : Nat} (hm : N.mapBlockIndex.Tree) (ht : t < N.mapBlockIndex.size)
    (hends : CChain.EndsAt N.mapBlockIndex N.chainActive t)
    (hp : N.chainActive.contains N.mapBlockIndex p = true) (hturns : N.chainActive.length < turns) (fUpdate : Bool)
    (wallet : Wallet) :
    (N.ScansDue turns p fUpdate wallet ↔ InTime N.getTime (N.due p).length (N.getTime 0) 1) ∧
      (¬ InTime N.getTime (N.due p).length (N.getTime 0) 1 →
        N.scanForWalletTransactions turns (some p) fUpdate wallet = .error .nullEntry) := by
  obtain ⟨hdone, hstop⟩ := scanForWalletTransactions_spec hm ht hends hp hturns fUpdate wallet
  refine ⟨⟨fun h => ?_, hdone⟩, hstop⟩
  obtain ⟨s, hs, -⟩ := h
  by_contra hlate
  rw [hstop hlate] at hs
  cases hs

namespace RescanExample

open Example

/-- A chain of four blocks, whose times are 100, 101, 102 and 107, and no transaction concerns the wallet. -/
def scanned (nTimeFirstKey : Int) (getTime : Nat → Int) : ScanNode Unit where
  mapBlockIndex := other.mapBlockIndex
  chainActive := CChain.setTip other.mapBlockIndex [] (some 3)
  readBlockFromDisk p := nodeBlock 0 100 p
  nTimeFirstKey := nTimeFirstKey
  addToWalletIfInvolvingMe _ _ _ _ := (false, ())
  getTime := getTime

theorem endsAt_scanned : CChain.EndsAt other.mapBlockIndex (CChain.setTip other.mapBlockIndex [] (some 3)) 3 :=
  CChain.setTip_nil tree_other (by decide)

end RescanExample

open Example RescanExample in
theorem scansDue_iff_example :
    (scanned 7302 fun n => 5 * n).ScansDue 5 0 true () ↔
      InTime (fun n => 5 * n) ((scanned 7302 fun n => 5 * n).due 0).length 0 1 :=
  (scansDue_iff (N := scanned 7302 fun n => 5 * n) (t := 3) tree_other (by decide) endsAt_scanned (by decide)
    (by decide) true ()).1

example : (RescanExample.scanned 7302 fun n => 5 * n).due 0 = [2, 3] := by
  decide

open Example RescanExample in
/-- A minute has passed when the last block is done. -/
theorem scan_reads_null :
    ¬ ∀ (Wallet : Type) (N : ScanNode Wallet) (t p turns : Nat), N.mapBlockIndex.Tree → t < N.mapBlockIndex.size →
      CChain.EndsAt N.mapBlockIndex N.chainActive t → N.chainActive.contains N.mapBlockIndex p = true →
      N.chainActive.length < turns → ∀ fUpdate wallet, N.ScansDue turns p fUpdate wallet := by
  intro h
  obtain ⟨s, hs, -⟩ := h Unit (scanned 0 fun n => 20 * n) 3 1 5 tree_other (by decide) endsAt_scanned (by decide)
    (by decide) true ()
  have hstop : ((scanned 0 fun n => 20 * n).scanForWalletTransactions 5 (some 1) true ()).isOk = false := by
    decide +kernel
  rw [hs] at hstop
  cases hstop

end ScanNode

end Reddcoin
