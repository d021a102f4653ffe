import Mathlib.Data.List.Sort
import Reddcoin.Chain.BlockIndex

/-!
# The stake modifier

`ComputeNextStakeModifier` of `kernel.cpp`.  The walks of the code from `pindexPrev` towards the genesis
block are walks along the list of its entries, from `pindexPrev` down.
-/

namespace Reddcoin

open List

def nModifierInterval : Nat := 13 * 60
def MODIFIER_INTERVAL_RATIO : Nat := 3

def getStakeModifierSelectionIntervalSection (nSection : Nat) : Nat :=
  nModifierInterval * 63 / (63 + (63 - nSection) * ( MODIFIER_INTERVAL_RATIO - 1))

def getStakeModifierSelectionInterval : Nat :=
  ((List.range 64).map getStakeModifierSelectionIntervalSection).sum

/-- `GetLastStakeModifier`: the modifier and the time at which it was generated. -/
def getLastStakeModifier : List CBlockIndex → Option (Nat × Nat)
  | [] => none
  | e :: rest =>
    if e.fStakeModifier then some (e.nStakeModifier, e.nTime) else getLastStakeModifier rest

/-- The order of pairs of a time and a hash. -/
def TimestampLe (a b : Nat × Uint256) : Prop :=
  a.1 < b.1 ∨ (a.1 = b.1 ∧ a.2 ≤ b.2)

instance (a b : Nat × Uint256) : Decidable (TimestampLe a b) :=
  inferInstanceAs (Decidable (_ ∨ _))

/-- The blocks from which a modifier is made, by time and hash. -/
def vSortedByTimestamp (nSelectionIntervalStart : Int) (chain : List CBlockIndex) : List (Nat × Uint256) :=
  ((chain.takeWhile fun e => decide (nSelectionIntervalStart ≤ e.nTime)).map fun e =>
    (e.nTime, e.hash)).reverse.insertionSort TimestampLe

section

variable (C : Crypto) (find : Uint256 → Option CBlockIndex)

/-- The hash by which a block is selected.  It is smaller for proof-of-stake. -/
def selectionHash (nStakeModifierPrev : Nat) (e : CBlockIndex) : Uint256 :=
  if e.fProofOfStake then C.selectionHash e.hashProof nStakeModifierPrev / 2 ^ 32
  else C.selectionHash e.hashProof nStakeModifierPrev

/-- The loop of `SelectBlockFromCandidates`, with the best block so far. -/
def selectLoop (selected : List Uint256) (nSelectionIntervalStop : Int) (nStakeModifierPrev : Nat) :
    List (Nat × Uint256) → Option (Uint256 × CBlockIndex) → Option (Option (Uint256 × CBlockIndex))
  | [], best => some best
  | item :: rest, best =>
    match find item.2 with
    | none => none
    | some e =>
      if best.isSome && decide (nSelectionIntervalStop < e.nTime) then some best
      else if e.hash ∈ selected then
        selectLoop selected nSelectionIntervalStop nStakeModifierPrev rest best
      else
        let hashSelection := selectionHash C nStakeModifierPrev e
        selectLoop selected nSelectionIntervalStop nStakeModifierPrev rest <|
          match best with
          | some (hashBest, _) =>
            if hashSelection < hashBest then some (hashSelection, e) else best
          | none => some (hashSelection, e)

/-- `SelectBlockFromCandidates`; `none` when it returns false. -/
def selectBlockFromCandidates (candidates : List (Nat × Uint256)) (selected : List Uint256)
    (nSelectionIntervalStop : Int) (nStakeModifierPrev : Nat) : Option CBlockIndex :=
  ((selectLoop C find selected nSelectionIntervalStop nStakeModifierPrev candidates none).join).map
    Prod.snd

/-- The rounds of `ComputeNextStakeModifier`, each of which contributes a bit. -/
def modifierRounds (candidates : List (Nat × Uint256)) (nStakeModifierPrev : Nat) :
    List Nat → List Uint256 → Int → Nat → Option Nat
  | [], _, _, nStakeModifierNew => some nStakeModifierNew
  | nRound :: rounds, selected, nSelectionIntervalStop, nStakeModifierNew =>
    let nSelectionIntervalStop :=
      nSelectionIntervalStop + getStakeModifierSelectionIntervalSection nRound
    match selectBlockFromCandidates C find candidates selected nSelectionIntervalStop
        nStakeModifierPrev with
    | none => none
    | some e =>
      modifierRounds candidates nStakeModifierPrev rounds (e.hash :: selected) nSelectionIntervalStop
        (nStakeModifierNew ||| (e.fStakeEntropy.toNat <<< nRound))

/-- `ComputeNextStakeModifier`, given the entries from `pindexPrev` down to the genesis block: the
modifier and whether it is a new one. -/
def computeNextStakeModifier : List CBlockIndex → Option (Nat × Bool)
  | [] => some (0, true)
  | pindexPrev :: rest =>
    match getLastStakeModifier (pindexPrev :: rest) with
    | none => none
    | some (nStakeModifier, nModifierTime) =>
      if pindexPrev.nTime / nModifierInterval ≤ nModifierTime / nModifierInterval then
        some (nStakeModifier, false)
      else
        let nSelectionIntervalStart : Int :=
          (pindexPrev.nTime / nModifierInterval * nModifierInterval : Nat) -
            (getStakeModifierSelectionInterval : Int)
        let candidates := vSortedByTimestamp nSelectionIntervalStart (pindexPrev :: rest)
        (modifierRounds C find candidates nStakeModifier (List.range (min 64 candidates.length)) []
          nSelectionIntervalStart 0).map fun nStakeModifierNew => (nStakeModifierNew, true)

end

/-! ## What the modifier depends on -/

/-- The fields of an entry that `ComputeNextStakeModifier` reads. -/
def CBlockIndex.stakeView (e : CBlockIndex) : CBlockIndex :=
  { CBlockIndex.new with
    hash := e.hash
    nTime := e.nTime
    fProofOfStake := e.fProofOfStake
    fStakeEntropy := e.fStakeEntropy
    fStakeModifier := e.fStakeModifier
    nStakeModifier := e.nStakeModifier
    hashProof := e.hashProof }

/-- The entry of a chain with a hash. -/
def lookup (chain : List CBlockIndex) (hash : Uint256) : Option CBlockIndex :=
  chain.find? fun e => decide (e.hash = hash)

section

variable (C : Crypto) {find find' : Uint256 → Option CBlockIndex} {chain : List CBlockIndex}

theorem getLastStakeModifier_view (chain : List CBlockIndex) :
    getLastStakeModifier (chain.map CBlockIndex.stakeView) = getLastStakeModifier chain := by
  induction chain with
  | nil => rfl
  | cons e chain ih =>
    simp only [map_cons, getLastStakeModifier, ih]
    rfl

theorem vSortedByTimestamp_view (nSelectionIntervalStart : Int) (chain : List CBlockIndex) :
    vSortedByTimestamp nSelectionIntervalStart (chain.map CBlockIndex.stakeView) =
      vSortedByTimestamp nSelectionIntervalStart chain := by
  unfold vSortedByTimestamp
  rw [takeWhile_map, map_map]
  rfl

theorem mem_vSortedByTimestamp {nSelectionIntervalStart : Int} {item : Nat × Uint256}
    (h : item ∈ vSortedByTimestamp nSelectionIntervalStart chain) :
    ∃ e ∈ chain, item = (e.nTime, e.hash) := by
  unfold vSortedByTimestamp at h
  rw [mem_insertionSort, mem_reverse, mem_map] at h
  obtain ⟨e, he, rfl⟩ := h
  exact ⟨e, (List.takeWhile_prefix _).subset he, rfl⟩

theorem selectLoop_view (selected : List Uint256) (stop : Int) (nStakeModifierPrev : Nat)
    (items : List (Nat × Uint256)) (best : Option (Uint256 × CBlockIndex)) :
    selectLoop C (fun hash => (find hash).map CBlockIndex.stakeView) selected stop nStakeModifierPrev items
        (best.map (Prod.map id CBlockIndex.stakeView)) =
      (selectLoop C find selected stop nStakeModifierPrev items best).map
        (Option.map (Prod.map id CBlockIndex.stakeView)) := by
  induction items generalizing best with
  | nil => rfl
  | cons item items ih =>
    cases hfind : find item.2 with
    | none => simp only [selectLoop, hfind, Option.map_none]
    | some e =>
      have htime : e.stakeView.nTime = e.nTime := rfl
      have hhash : e.stakeView.hash = e.hash := rfl
      have hselection : selectionHash C nStakeModifierPrev e.stakeView = selectionHash C nStakeModifierPrev e := rfl
      cases best with
      | none =>
        have hnew := ih (some (selectionHash C nStakeModifierPrev e, e))
        have hnone := ih none
        simp only [Option.map_some, Option.map_none, Prod.map_apply, id_eq] at hnew hnone
        simp only [selectLoop, hfind, Option.map_some, Option.map_none, htime, hhash, hselection,
          Option.isSome_none, Bool.false_and, Bool.false_eq_true, if_false]
        split_ifs
        · exact hnone
        · exact hnew
      | some b =>
        obtain ⟨hashBest, pindexBest⟩ := b
        have hnew := ih (some (selectionHash C nStakeModifierPrev e, e))
        have hold := ih (some (hashBest, pindexBest))
        simp only [Option.map_some, Prod.map_apply, id_eq] at hnew hold
        simp only [selectLoop, hfind, Option.map_some, htime, hhash, hselection, Option.isSome_some,
          Bool.true_and, Prod.map_apply, id_eq]
        split_ifs
        · rfl
        · exact hold
        · exact hnew
        · exact hold

theorem selectLoop_congr (selected : List Uint256) (stop : Int) (nStakeModifierPrev : Nat)
    {items : List (Nat × Uint256)} (hfind : ∀ item ∈ items, find item.2 = find' item.2)
    (best : Option (Uint256 × CBlockIndex)) :
    selectLoop C find selected stop nStakeModifierPrev items best =
      selectLoop C find' selected stop nStakeModifierPrev items best := by
  induction items generalizing best with
  | nil => rfl
  | cons item items ih =>
    have hrest := ih fun x hx => hfind x (mem_cons_of_mem _ hx)
    simp only [selectLoop, ← hfind item mem_cons_self, hrest]

theorem selectBlockFromCandidates_view (candidates : List (Nat × Uint256)) (selected : List Uint256)
    (stop : Int) (nStakeModifierPrev : Nat) :
    selectBlockFromCandidates C (fun hash => (find hash).map CBlockIndex.stakeView) candidates selected stop
        nStakeModifierPrev =
      (selectBlockFromCandidates C find candidates selected stop nStakeModifierPrev).map
        CBlockIndex.stakeView := by
  have h : selectLoop C (fun hash => (find hash).map CBlockIndex.stakeView) selected stop
      nStakeModifierPrev candidates none =
      (selectLoop C find selected stop nStakeModifierPrev candidates none).map
        (Option.map (Prod.map id CBlockIndex.stakeView)) :=
    selectLoop_view C selected stop nStakeModifierPrev candidates none
  unfold selectBlockFromCandidates
  rw [h]
  cases selectLoop C find selected stop nStakeModifierPrev candidates none with
  | none => rfl
  | some best => cases best <;> rfl

theorem modifierRounds_view (candidates : List (Nat × Uint256)) (nStakeModifierPrev : Nat)
    (rounds : List Nat) (selected : List Uint256) (stop : Int) (nStakeModifierNew : Nat) :
    modifierRounds C (fun hash => (find hash).map CBlockIndex.stakeView) candidates nStakeModifierPrev rounds
        selected stop nStakeModifierNew =
      modifierRounds C find candidates nStakeModifierPrev rounds selected stop nStakeModifierNew := by
  induction rounds generalizing selected stop nStakeModifierNew with
  | nil => rfl
  | cons nRound rounds ih =>
    simp only [modifierRounds, selectBlockFromCandidates_view]
    cases selectBlockFromCandidates C find candidates selected
        (stop + getStakeModifierSelectionIntervalSection nRound) nStakeModifierPrev with
    | none => rfl
    | some e => exact ih _ _ _

theorem modifierRounds_congr {candidates : List (Nat × Uint256)}
    (hfind : ∀ item ∈ candidates, find item.2 = find' item.2) (nStakeModifierPrev : Nat)
    (rounds : List Nat) (selected : List Uint256) (stop : Int) (nStakeModifierNew : Nat) :
    modifierRounds C find candidates nStakeModifierPrev rounds selected stop nStakeModifierNew =
      modifierRounds C find' candidates nStakeModifierPrev rounds selected stop nStakeModifierNew := by
  induction rounds generalizing selected stop nStakeModifierNew with
  | nil => rfl
  | cons nRound rounds ih =>
    simp only [modifierRounds, selectBlockFromCandidates, selectLoop_congr C selected _ _ hfind, ih]

/-- Only the fields of `stakeView` are read. -/
theorem computeNextStakeModifier_view (chain : List CBlockIndex) :
    computeNextStakeModifier C (fun hash => (find hash).map CBlockIndex.stakeView)
        (chain.map CBlockIndex.stakeView) = computeNextStakeModifier C find chain := by
  cases chain with
  | nil => rfl
  | cons e chain =>
    have hlast := getLastStakeModifier_view (e :: chain)
    have hsorted := fun start => vSortedByTimestamp_view start (e :: chain)
    have htime : e.stakeView.nTime = e.nTime := rfl
    rw [map_cons] at hlast hsorted ⊢
    simp only [computeNextStakeModifier, hlast, hsorted, htime, modifierRounds_view]

/-- Blocks are looked up by the hashes of the chain only. -/
theorem computeNextStakeModifier_congr (hfind : ∀ e ∈ chain, find e.hash = find' e.hash) :
    computeNextStakeModifier C find chain = computeNextStakeModifier C find' chain := by
  cases chain with
  | nil => rfl
  | cons e chain =>
    have hitems : ∀ start, ∀ item ∈ vSortedByTimestamp start (e :: chain), find item.2 = find' item.2 := by
      intro start item hitem
      obtain ⟨e', he', rfl⟩ := mem_vSortedByTimestamp hitem
      exact hfind e' he'
    simp only [computeNextStakeModifier]
    cases getLastStakeModifier (e :: chain) with
    | none => rfl
    | some last =>
      simp only
      split_ifs
      · rfl
      · rw [modifierRounds_congr C (hitems _)]

theorem lookup_view (chain : List CBlockIndex) (hash : Uint256) :
    lookup (chain.map CBlockIndex.stakeView) hash = (lookup chain hash).map CBlockIndex.stakeView := by
  unfold lookup
  rw [find?_map]
  rfl

/-- The modifier above a chain, as a function of the chain. -/
def modifierAbove (chain : List CBlockIndex) : Option (Nat × Bool) :=
  computeNextStakeModifier C (lookup chain) chain

theorem modifierAbove_view (hfind : ∀ e ∈ chain, find e.hash = some e) :
    computeNextStakeModifier C find chain = modifierAbove C (chain.map CBlockIndex.stakeView) := by
  unfold modifierAbove
  have hlookup : lookup (chain.map CBlockIndex.stakeView) = fun hash =>
      (lookup chain hash).map CBlockIndex.stakeView := funext (lookup_view chain)
  rw [hlookup, computeNextStakeModifier_view]
  refine computeNextStakeModifier_congr C fun e he => ?_
  have hfound : ∀ e', lookup chain e.hash = some e' → e' = e := by
    intro e' he'
    have htest : e'.hash = e.hash := by
      unfold lookup at he'
      simpa using find?_some he'
    have hmem := hfind e' (mem_of_find?_eq_some he')
    rw [htest, hfind e he] at hmem
    exact (Option.some.inj hmem).symm
  cases hres : lookup chain e.hash with
  | none =>
    have hno := find?_eq_none.mp hres e he
    simp at hno
  | some e' => rw [hfind e he, hfound e' hres]

/-! ## It does not fail -/

/-- A block is selected as long as one is left. -/
theorem selectLoop_isSome (selected : List Uint256) (stop : Int) (nStakeModifierPrev : Nat)
    {items : List (Nat × Uint256)} (hfind : ∀ item ∈ items, ∃ e, find item.2 = some e ∧ e.hash = item.2)
    {best : Option (Uint256 × CBlockIndex)}
    (hleft : best.isSome ∨ ∃ item ∈ items, item.2 ∉ selected) :
    ∃ b, selectLoop C find selected stop nStakeModifierPrev items best = some (some b) := by
  induction items generalizing best with
  | nil =>
    rcases hleft with hbest | ⟨item, hitem, -⟩
    · obtain ⟨b, rfl⟩ := Option.isSome_iff_exists.mp hbest
      exact ⟨b, rfl⟩
    · simp at hitem
  | cons item items ih =>
    have hrest : ∀ x ∈ items, ∃ e, find x.2 = some e ∧ e.hash = x.2 := fun x hx =>
      hfind x (mem_cons_of_mem _ hx)
    obtain ⟨e, he, hhash⟩ := hfind item mem_cons_self
    simp only [selectLoop, he]
    split_ifs with hstop hselected
    · rw [Bool.and_eq_true] at hstop
      obtain ⟨b, rfl⟩ := Option.isSome_iff_exists.mp hstop.1
      exact ⟨b, rfl⟩
    · refine ih hrest (hleft.imp_right ?_)
      rintro ⟨x, hx, hnew⟩
      rcases mem_cons.mp hx with rfl | hx
      · rw [hhash] at hselected
        exact absurd hselected hnew
      · exact ⟨x, hx, hnew⟩
    · refine ih hrest (.inl ?_)
      cases best with
      | none => rfl
      | some b =>
        simp only
        split_ifs <;> rfl

/-- Fewer blocks are selected than there are candidates. -/
theorem exists_unselected {α : Type} {hash : α → Uint256} {items : List α} (hnodup : (items.map hash).Nodup)
    {selected : List Uint256} (hlen : selected.length < items.length) : ∃ item ∈ items, hash item ∉ selected := by
  by_contra hall
  push Not at hall
  have hsub : items.map hash ⊆ selected := by
    intro h hmem
    obtain ⟨item, hitem, rfl⟩ := mem_map.mp hmem
    exact hall item hitem
  have hle := (subperm_of_subset hnodup hsub).length_le
  rw [length_map] at hle
  omega

/-- The rounds succeed: each takes one candidate, and there are no more rounds than candidates. -/
theorem modifierRounds_isSome {candidates : List (Nat × Uint256)}
    (hfind : ∀ item ∈ candidates, ∃ e, find item.2 = some e ∧ e.hash = item.2)
    (hnodup : (candidates.map Prod.snd).Nodup) (nStakeModifierPrev : Nat) {rounds : List Nat}
    {selected : List Uint256} (hlen : selected.length + rounds.length ≤ candidates.length) (stop : Int)
    (nStakeModifierNew : Nat) :
    (modifierRounds C find candidates nStakeModifierPrev rounds selected stop nStakeModifierNew).isSome = true := by
  induction rounds generalizing selected stop nStakeModifierNew with
  | nil => rfl
  | cons nRound rounds ih =>
    rw [length_cons] at hlen
    have hleft := exists_unselected hnodup (show selected.length < candidates.length by omega)
    obtain ⟨b, hb⟩ := selectLoop_isSome C selected (stop + getStakeModifierSelectionIntervalSection nRound)
      nStakeModifierPrev hfind (.inr hleft)
    have hselect : selectBlockFromCandidates C find candidates selected
        (stop + getStakeModifierSelectionIntervalSection nRound) nStakeModifierPrev = some b.2 := by
      unfold selectBlockFromCandidates
      rw [hb]
      rfl
    simp only [modifierRounds, hselect]
    refine ih ?_ _ _
    rw [length_cons]
    omega

theorem getLastStakeModifier_isSome (h : ∃ e ∈ chain, e.fStakeModifier) :
    (getLastStakeModifier chain).isSome = true := by
  induction chain with
  | nil => simp at h
  | cons e chain ih =>
    rw [getLastStakeModifier]
    split_ifs with hflag
    · rfl
    · refine ih ?_
      obtain ⟨e', hmem, he'⟩ := h
      rcases mem_cons.mp hmem with rfl | hmem
      · exact absurd he' hflag
      · exact ⟨e', hmem, he'⟩

/-- `ComputeNextStakeModifier` does not fail above a chain that has a modifier. -/
theorem computeNextStakeModifier_isSome (hfind : ∀ e ∈ chain, find e.hash = some e)
    (hnodup : (chain.map CBlockIndex.hash).Nodup) (hflag : chain ≠ [] → ∃ e ∈ chain, e.fStakeModifier) :
    (computeNextStakeModifier C find chain).isSome = true := by
  cases chain with
  | nil => rfl
  | cons e chain =>
    obtain ⟨⟨m, time⟩, hlast⟩ := Option.isSome_iff_exists.mp
      (getLastStakeModifier_isSome (hflag (cons_ne_nil _ _)))
    simp only [computeNextStakeModifier, hlast]
    split_ifs
    · rfl
    · rw [Option.isSome_map]
      refine modifierRounds_isSome C ?_ ?_ _ ?_ _ _
      · intro item hitem
        obtain ⟨e', he', rfl⟩ := mem_vSortedByTimestamp hitem
        exact ⟨e', hfind e' he', rfl⟩
      · unfold vSortedByTimestamp
        refine ((perm_insertionSort _ _).map Prod.snd).nodup_iff.mpr ?_
        rw [map_reverse, nodup_reverse, map_map]
        exact hnodup.sublist ((takeWhile_sublist _).map _)
      · rw [length_nil, length_range]
        omega

end

end Reddcoin
