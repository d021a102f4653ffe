import Mathlib.Data.Nat.Bitwise
import Reddcoin.Kernel.StakeModifier

/-!
# The rounds of a new stake modifier

Which block each round of `ComputeNextStakeModifier` selects, and which bit it contributes.  A round looks at the
candidates in the order of time and hash.  It takes the first one that is left, and from then on stops at the first
candidate later than the end of its section, whether that one is left or not.
-/

namespace Reddcoin

open List Option

section

variable (C : Crypto) (find : Uint256 → Option CBlockIndex)

/-- The blocks that the rounds select. -/
def modifierPicks (candidates : List (Nat × Uint256)) (nStakeModifierPrev : Nat) :
    List Nat → List Uint256 → Int → Option (List CBlockIndex)
  | [], _, _ => some []
  | nRound :: rounds, selected, nSelectionIntervalStop =>
    let nSelectionIntervalStop :=
      nSelectionIntervalStop + getStakeModifierSelectionIntervalSection nRound
    match selectBlockFromCandidates C find candidates selected nSelectionIntervalStop
        nStakeModifierPrev with
    | none => none
    | some e =>
      (modifierPicks candidates nStakeModifierPrev rounds (e.hash :: selected) nSelectionIntervalStop).map
        fun picks => e :: picks

/-- The bits of the selected blocks, written one after the other. -/
def entropyBits : List (Nat × CBlockIndex) → Nat → Nat
  | [], nStakeModifierNew => nStakeModifierNew
  | (nRound, e) :: picks, nStakeModifierNew =>
    entropyBits picks (nStakeModifierNew ||| (e.fStakeEntropy.toNat <<< nRound))

theorem modifierRounds_eq_picks (candidates : List (Nat × Uint256)) (nStakeModifierPrev : Nat) (rounds : List Nat)
    (selected : List Uint256) (stop : Int) (nStakeModifierNew : Nat) :
    modifierRounds C find candidates nStakeModifierPrev rounds selected stop nStakeModifierNew =
      (modifierPicks C find candidates nStakeModifierPrev rounds selected stop).map fun picks =>
        entropyBits (rounds.zip picks) nStakeModifierNew := by
  induction rounds generalizing selected stop nStakeModifierNew with
  | nil => rfl
  | cons nRound rounds ih =>
    rw [modifierRounds, modifierPicks]
    cases selectBlockFromCandidates C find candidates selected
        (stop + getStakeModifierSelectionIntervalSection nRound) nStakeModifierPrev with
    | none => rfl
    | some e =>
      dsimp only
      rw [ih, Option.map_map]
      rfl

/-! ## The choice of a round -/

/-- The time and the hash by which candidates are sorted. -/
def CBlockIndex.timestamp (e : CBlockIndex) : Nat × Uint256 :=
  (e.nTime, e.hash)

/-- `a` has the smaller selection hash, or the same one and comes first. -/
def Better (nStakeModifierPrev : Nat) (a b : CBlockIndex) : Prop :=
  selectionHash C nStakeModifierPrev a < selectionHash C nStakeModifierPrev b ∨
    (selectionHash C nStakeModifierPrev a = selectionHash C nStakeModifierPrev b ∧ TimestampLe a.timestamp b.timestamp)

/-- The block to select of those that are left: the one with the least selection hash of those up to `stop`, or the
earliest one when all are later. -/
structure IsChoice (nStakeModifierPrev : Nat) (left : List CBlockIndex) (stop : Int) (e : CBlockIndex) : Prop where
  mem : e ∈ left
  least : (∃ a ∈ left, a.nTime ≤ stop) → e.nTime ≤ stop ∧ ∀ a ∈ left, a.nTime ≤ stop → Better C nStakeModifierPrev e a
  earliest : (∀ a ∈ left, stop < a.nTime) → ∀ a ∈ left, TimestampLe e.timestamp a.timestamp

theorem TimestampLe.refl (a : Nat × Uint256) : TimestampLe a a :=
  .inr ⟨rfl, Nat.le_refl _⟩

/-- Two comparisons that a first number decides, and a second one where the first is the same. -/
theorem lexicographic_trans {a b c : Nat} {p q r : Prop} (hpq : p → q → r) (hab : a < b ∨ (a = b ∧ p))
    (hbc : b < c ∨ (b = c ∧ q)) : a < c ∨ (a = c ∧ r) := by
  rcases hab with hlt | ⟨heq, hp⟩
  · rcases hbc with hlt' | ⟨heq', -⟩
    · exact .inl (Nat.lt_trans hlt hlt')
    · exact .inl (heq' ▸ hlt)
  · rcases hbc with hlt' | ⟨heq', hq⟩
    · exact .inl (heq ▸ hlt')
    · exact .inr ⟨heq.trans heq', hpq hp hq⟩

theorem TimestampLe.trans {a b c : Nat × Uint256} (hab : TimestampLe a b) (hbc : TimestampLe b c) :
    TimestampLe a c :=
  lexicographic_trans Nat.le_trans hab hbc

theorem TimestampLe.total (a b : Nat × Uint256) : TimestampLe a b ∨ TimestampLe b a := by
  rcases Nat.lt_trichotomy a.1 b.1 with hlt | heq | hgt
  · exact .inl (.inl hlt)
  · rcases Nat.le_total a.2 b.2 with hle | hle
    · exact .inl (.inr ⟨heq, hle⟩)
    · exact .inr (.inr ⟨heq.symm, hle⟩)
  · exact .inr (.inl hgt)

theorem TimestampLe.time_le {a b : Nat × Uint256} (h : TimestampLe a b) : a.1 ≤ b.1 := by
  unfold TimestampLe at h
  omega

variable {nStakeModifierPrev : Nat} {selected : List Uint256} {stop : Int}

theorem Better.refl (a : CBlockIndex) : Better C nStakeModifierPrev a a :=
  .inr ⟨rfl, .refl _⟩

variable {C find}

theorem Better.trans {a b c : CBlockIndex} (hab : Better C nStakeModifierPrev a b)
    (hbc : Better C nStakeModifierPrev b c) : Better C nStakeModifierPrev a c :=
  lexicographic_trans TimestampLe.trans hab hbc

/-- The candidates in order, each of them indexed. -/
structure Ordered (find : Uint256 → Option CBlockIndex) (es : List CBlockIndex) : Prop where
  sorted : es.Pairwise fun a b => TimestampLe a.timestamp b.timestamp
  found : ∀ e ∈ es, find e.hash = some e

theorem Ordered.tail {e : CBlockIndex} {es : List CBlockIndex} (h : Ordered find (e :: es)) : Ordered find es :=
  ⟨(pairwise_cons.mp h.sorted).2, fun a ha => h.found a (mem_cons_of_mem e ha)⟩

section

variable (C : Crypto) (nStakeModifierPrev : Nat) (selected : List Uint256) (stop : Int) {es : List CBlockIndex}
    (hes : Ordered find es)

include hes

/-- With a best block `b` the loop goes on to the end of the section, and the best of all it has seen is left. -/
theorem selectLoop_better {b : CBlockIndex} (hb : ∀ a ∈ es, TimestampLe b.timestamp a.timestamp) :
    ∃ e, selectLoop C find selected stop nStakeModifierPrev (es.map CBlockIndex.timestamp)
        (some (selectionHash C nStakeModifierPrev b, b)) = some (some (selectionHash C nStakeModifierPrev e, e)) ∧
      (e = b ∨ (e ∈ es ∧ e.hash ∉ selected ∧ e.nTime ≤ stop)) ∧ Better C nStakeModifierPrev e b ∧
      ∀ a ∈ es, a.hash ∉ selected → a.nTime ≤ stop → Better C nStakeModifierPrev e a := by
  induction es generalizing b with
  | nil => exact ⟨b, rfl, .inl rfl, .refl C b, fun a ha => by simp at ha⟩
  | cons x es ih =>
    obtain ⟨hx, hsorted⟩ := pairwise_cons.mp hes.sorted
    have hfind : find x.timestamp.2 = some x := hes.found x mem_cons_self
    have hrest : ∀ a ∈ es, TimestampLe b.timestamp a.timestamp := fun a ha => hb a (mem_cons_of_mem x ha)
    rw [map_cons, selectLoop, hfind]
    dsimp only
    rw [isSome_some, Bool.true_and]
    by_cases hstop : stop < x.nTime
    · -- Everything from here on is later.
      refine ⟨b, if_pos (decide_eq_true hstop), .inl rfl, .refl C b, fun a ha _ htime => ?_⟩
      have hle : x.nTime ≤ a.nTime := by
        rcases mem_cons.mp ha with rfl | ha
        · exact Nat.le_refl _
        · exact (hx a ha).time_le
      omega
    rw [if_neg (by simpa using hstop)]
    by_cases hselected : x.hash ∈ selected
    · rw [if_pos hselected]
      obtain ⟨e, hloop, hmem, hbetter, hall⟩ := ih hes.tail hrest
      refine ⟨e, hloop, hmem.imp_right fun h => ⟨mem_cons_of_mem x h.1, h.2⟩, hbetter, fun a ha hleft htime => ?_⟩
      rcases mem_cons.mp ha with rfl | ha
      · exact absurd hselected hleft
      · exact hall a ha hleft htime
    rw [if_neg hselected]
    by_cases hlt : selectionHash C nStakeModifierPrev x < selectionHash C nStakeModifierPrev b
    · rw [if_pos hlt]
      obtain ⟨e, hloop, hmem, hbetter, hall⟩ := ih hes.tail hx
      refine ⟨e, hloop, .inr ?_, hbetter.trans (.inl hlt), fun a ha hleft htime => ?_⟩
      · rcases hmem with rfl | ⟨hmem, hleft, htime⟩
        · exact ⟨mem_cons_self, hselected, by omega⟩
        · exact ⟨mem_cons_of_mem x hmem, hleft, htime⟩
      · rcases mem_cons.mp ha with rfl | ha
        · exact hbetter
        · exact hall a ha hleft htime
    · rw [if_neg hlt]
      obtain ⟨e, hloop, hmem, hbetter, hall⟩ := ih hes.tail hrest
      refine ⟨e, hloop, hmem.imp_right fun h => ⟨mem_cons_of_mem x h.1, h.2⟩, hbetter, fun a ha hleft htime => ?_⟩
      rcases mem_cons.mp ha with rfl | ha
      · refine hbetter.trans ?_
        rcases Nat.lt_or_eq_of_le (Nat.le_of_not_lt hlt) with hlt' | heq
        · exact .inl hlt'
        · exact .inr ⟨heq, hb a mem_cons_self⟩
      · exact hall a ha hleft htime

/-- A round makes its choice as long as a candidate is left. -/
theorem selectLoop_choice (hleft : ∃ a ∈ es, a.hash ∉ selected) :
    ∃ e, selectLoop C find selected stop nStakeModifierPrev (es.map CBlockIndex.timestamp) none =
        some (some (selectionHash C nStakeModifierPrev e, e)) ∧
      IsChoice C nStakeModifierPrev (es.filter fun a => decide (a.hash ∉ selected)) stop e := by
  induction es with
  | nil =>
    obtain ⟨a, ha, -⟩ := hleft
    simp at ha
  | cons x es ih =>
    obtain ⟨hx, hsorted⟩ := pairwise_cons.mp hes.sorted
    have hfind : find x.timestamp.2 = some x := hes.found x mem_cons_self
    rw [map_cons, selectLoop, hfind]
    dsimp only
    rw [isSome_none, Bool.false_and, if_neg Bool.false_ne_true]
    by_cases hselected : x.hash ∈ selected
    · rw [if_pos hselected, filter_cons_of_neg (by simpa using hselected)]
      refine ih hes.tail ?_
      obtain ⟨a, ha, hnot⟩ := hleft
      rcases mem_cons.mp ha with rfl | ha
      · exact absurd hselected hnot
      · exact ⟨a, ha, hnot⟩
    · -- The first candidate that is left is taken whatever its time.
      rw [if_neg hselected, filter_cons_of_pos (by simpa using hselected)]
      obtain ⟨e, hloop, hmem, hbetter, hall⟩ := selectLoop_better C nStakeModifierPrev selected stop hes.tail hx
      refine ⟨e, hloop, ?_, ?_, ?_⟩
      · rcases hmem with rfl | ⟨hmem, hnot, -⟩
        · exact mem_cons_self
        · exact mem_cons_of_mem x (mem_filter.mpr ⟨hmem, decide_eq_true hnot⟩)
      · rintro ⟨a, ha, htime⟩
        have hfirst : x.nTime ≤ a.nTime := by
          rcases mem_cons.mp ha with rfl | ha
          · exact Nat.le_refl _
          · exact (hx a (mem_filter.mp ha).1).time_le
        constructor
        · rcases hmem with rfl | ⟨-, -, htime'⟩
          · omega
          · exact htime'
        · intro a' ha' htime'
          rcases mem_cons.mp ha' with rfl | ha'
          · exact hbetter
          · obtain ⟨hmem', hnot'⟩ := mem_filter.mp ha'
            exact hall a' hmem' (of_decide_eq_true hnot') htime'
      · intro hlate a ha
        have hxe : e = x := by
          rcases hmem with rfl | ⟨hmem, hnot, htime⟩
          · rfl
          · have hlater := hlate e (mem_cons_of_mem x (mem_filter.mpr ⟨hmem, decide_eq_true hnot⟩))
            omega
        rw [hxe]
        rcases mem_cons.mp ha with rfl | ha
        · exact .refl _
        · exact hx a (mem_filter.mp ha).1

theorem selectBlockFromCandidates_choice (hleft : ∃ a ∈ es, a.hash ∉ selected) :
    ∃ e, selectBlockFromCandidates C find (es.map CBlockIndex.timestamp) selected stop nStakeModifierPrev = some e ∧
      IsChoice C nStakeModifierPrev (es.filter fun a => decide (a.hash ∉ selected)) stop e := by
  obtain ⟨e, hloop, hchoice⟩ := selectLoop_choice C nStakeModifierPrev selected stop hes hleft
  refine ⟨e, ?_, hchoice⟩
  rw [selectBlockFromCandidates, hloop]
  rfl

end

theorem IsChoice.congr {left left' : List CBlockIndex} {e : CBlockIndex} (h : IsChoice C nStakeModifierPrev left stop e)
    (hmem : ∀ a, a ∈ left ↔ a ∈ left') : IsChoice C nStakeModifierPrev left' stop e := by
  refine ⟨(hmem e).mp h.mem, ?_, fun hlate a ha => ?_⟩
  · rintro ⟨a, ha, htime⟩
    obtain ⟨htime', hall⟩ := h.least ⟨a, (hmem a).mpr ha, htime⟩
    exact ⟨htime', fun a' ha' => hall a' ((hmem a').mpr ha')⟩
  · exact h.earliest (fun a' ha' => hlate a' ((hmem a').mp ha')) a ((hmem a).mpr ha)

/-! ## All rounds -/

/-- The blocks that are not among the first `r` picks. -/
def leftAfter (es : List CBlockIndex) (picks : List CBlockIndex) (r : Nat) : List CBlockIndex :=
  es.filter fun a => decide (a.hash ∉ (picks.take r).map CBlockIndex.hash)

/-- `nSelectionIntervalStop` in round `nRound`. -/
def sectionEnd (nSelectionIntervalStart : Int) (nRound : Nat) : Int :=
  nSelectionIntervalStart + ((List.range (nRound + 1)).map getStakeModifierSelectionIntervalSection).sum

/-- Each of the rounds from `k` on makes its choice among what the picks before it have left. -/
theorem modifierPicks_choices (C : Crypto) (nStakeModifierPrev : Nat) {es : List CBlockIndex} (hes : Ordered find es)
    (hnodup : (es.map CBlockIndex.hash).Nodup) (n k : Nat) (selected : List Uint256)
    (hlen : selected.length + n ≤ es.length) (stop : Int) :
    ∃ picks, modifierPicks C find (es.map CBlockIndex.timestamp) nStakeModifierPrev (List.range' k n) selected stop =
        some picks ∧ picks.length = n ∧
      ∀ r e, picks[r]? = some e → IsChoice C nStakeModifierPrev
        (es.filter fun a => decide (a.hash ∉ (picks.take r).map CBlockIndex.hash ++ selected))
        (stop + ((List.range' k (r + 1)).map getStakeModifierSelectionIntervalSection).sum) e := by
  induction n generalizing k selected stop with
  | zero => exact ⟨[], rfl, rfl, fun r e h => by simp at h⟩
  | succ n ih =>
    have hleft := exists_unselected hnodup (show selected.length < es.length by omega)
    obtain ⟨e, hselect, hchoice⟩ := selectBlockFromCandidates_choice C nStakeModifierPrev selected
      (stop + getStakeModifierSelectionIntervalSection k) hes hleft
    obtain ⟨picks, hpicks, hcount, hall⟩ := ih (k + 1) (e.hash :: selected)
      (by rw [length_cons]; omega) (stop + getStakeModifierSelectionIntervalSection k)
    refine ⟨e :: picks, ?_, by rw [length_cons, hcount], fun r a ha => ?_⟩
    · rw [range'_succ, modifierPicks, hselect]
      dsimp only
      rw [hpicks]
      rfl
    · cases r with
      | zero =>
        obtain rfl : e = a := by simpa using ha
        simpa using hchoice
      | succ r =>
        have hround := hall r a (by simpa using ha)
        have hstop : stop + ((List.range' k (r + 1 + 1)).map getStakeModifierSelectionIntervalSection).sum =
            stop + getStakeModifierSelectionIntervalSection k +
              ((List.range' (k + 1) (r + 1)).map getStakeModifierSelectionIntervalSection).sum := by
          rw [range'_succ, map_cons, sum_cons, Nat.cast_add, Int.add_assoc]
        rw [hstop]
        refine hround.congr fun a => ?_
        simp only [mem_filter, take_succ_cons, map_cons, cons_append, mem_append, mem_cons, decide_eq_true_eq]
        tauto

/-- A block that was picked is not left. -/
theorem nodup_picks {es picks : List CBlockIndex}
    (h : ∀ r e, picks[r]? = some e → e ∈ leftAfter es picks r) : (picks.map CBlockIndex.hash).Nodup := by
  rw [nodup_iff_getElem?_ne_getElem?]
  intro i j hij hj heq
  rw [length_map] at hj
  rw [getElem?_map, getElem?_map, getElem?_eq_getElem hj,
    getElem?_eq_getElem (Nat.lt_trans hij hj), map_some, map_some] at heq
  have hmem := (mem_filter.mp (h j _ (getElem?_eq_getElem hj))).2
  refine of_decide_eq_true hmem (mem_map.mpr ⟨picks[i], ?_, Option.some.inj heq⟩)
  exact mem_iff_getElem?.mpr ⟨i, by rw [getElem?_take_of_lt hij, getElem?_eq_getElem]⟩

theorem testBit_entropy (b : Bool) (r i : Nat) : (b.toNat <<< r).testBit i = (b && decide (r = i)) := by
  cases b with
  | false =>
    show (0 <<< r).testBit i = _
    rw [Nat.zero_shiftLeft, Nat.zero_testBit, Bool.false_and]
  | true =>
    show (1 <<< r).testBit i = _
    rw [Nat.one_shiftLeft, Nat.testBit_two_pow, Bool.true_and]

theorem testBit_entropyBits (picks : List CBlockIndex) (k new i : Nat) :
    (entropyBits ((List.range' k picks.length).zip picks) new).testBit i =
      (new.testBit i || (decide (k ≤ i) && (picks[i - k]?).any CBlockIndex.fStakeEntropy)) := by
  induction picks generalizing k new with
  | nil => simp [entropyBits]
  | cons e picks ih =>
    rw [length_cons, range'_succ, zip_cons_cons, entropyBits, ih, Nat.testBit_or, testBit_entropy, Bool.or_assoc]
    congr 1
    rcases Nat.lt_trichotomy i k with hlt | rfl | hgt
    · rw [decide_eq_false (by omega : ¬k = i), decide_eq_false (by omega : ¬k + 1 ≤ i),
        decide_eq_false (by omega : ¬k ≤ i)]
      simp
    · rw [decide_eq_false (by omega : ¬i + 1 ≤ i)]
      simp
    · have hindex : i - k = i - (k + 1) + 1 := by omega
      rw [decide_eq_false (by omega : ¬k = i), decide_eq_true (by omega : k + 1 ≤ i),
        decide_eq_true (by omega : k ≤ i), hindex, getElem?_cons_succ]
      simp

/-! ## The new modifier -/

/-- `nSelectionIntervalStart` above `pindexPrev`. -/
def selectionIntervalStart (pindexPrev : CBlockIndex) : Int :=
  (pindexPrev.nTime / nModifierInterval * nModifierInterval : Nat) - (getStakeModifierSelectionInterval : Int)

/-- The candidates: the blocks from `pindexPrev` down to the first one before the selection interval. -/
def candidateBlocks (chain : List CBlockIndex) (nSelectionIntervalStart : Int) : List CBlockIndex :=
  chain.takeWhile fun e => decide (nSelectionIntervalStart ≤ e.nTime)

theorem vSortedByTimestamp_eq (chain : List CBlockIndex) (start : Int) :
    vSortedByTimestamp start chain = ((candidateBlocks chain start).reverse.insertionSort fun a b =>
        TimestampLe a.timestamp b.timestamp).map CBlockIndex.timestamp := by
  rw [map_insertionSort _ TimestampLe CBlockIndex.timestamp _ fun a _ b _ => Iff.rfl, map_reverse]
  rfl

/-- What the rounds of a new modifier `m` do, with the previous modifier `nStakeModifierPrev`. -/
structure MadeInRounds (C : Crypto) (find : Uint256 → Option CBlockIndex) (nStakeModifierPrev : Nat)
    (chain : List CBlockIndex) (start : Int) (picks : List CBlockIndex) (m : Nat) : Prop where
  rounds : modifierPicks C find (vSortedByTimestamp start chain) nStakeModifierPrev
    (List.range (min 64 (candidateBlocks chain start).length)) [] start = some picks
  length : picks.length = min 64 (candidateBlocks chain start).length
  distinct : (picks.map CBlockIndex.hash).Nodup
  choice : ∀ r e, picks[r]? = some e →
    IsChoice C nStakeModifierPrev (leftAfter (candidateBlocks chain start) picks r) (sectionEnd start r) e
  bit : ∀ r e, picks[r]? = some e → m.testBit r = e.fStakeEntropy
  highBits : ∀ r, picks.length ≤ r → m.testBit r = false

theorem modifierRounds_made (C : Crypto) (nStakeModifierPrev : Nat) {chain : List CBlockIndex} (start : Int)
    (hfind : ∀ e ∈ chain, find e.hash = some e)
    (hnodup : (chain.map CBlockIndex.hash).Nodup) :
    ∃ m picks, modifierRounds C find (vSortedByTimestamp start chain) nStakeModifierPrev
        (List.range (min 64 (vSortedByTimestamp start chain).length)) [] start 0 = some m ∧
      MadeInRounds C find nStakeModifierPrev chain start picks m := by
  have hperm : ((candidateBlocks chain start).reverse.insertionSort fun a b =>
      TimestampLe a.timestamp b.timestamp).Perm (candidateBlocks chain start) :=
    (perm_insertionSort _ _).trans (reverse_perm _)
  have hsorted := vSortedByTimestamp_eq chain start
  have hlength : (vSortedByTimestamp start chain).length = (candidateBlocks chain start).length := by
    rw [hsorted, length_map, hperm.length_eq]
  have hordered : Ordered find ((candidateBlocks chain start).reverse.insertionSort fun a b =>
      TimestampLe a.timestamp b.timestamp) := by
    constructor
    · have : Std.Total fun a b : CBlockIndex => TimestampLe a.timestamp b.timestamp := ⟨fun a b => TimestampLe.total _ _⟩
      have : IsTrans CBlockIndex fun a b => TimestampLe a.timestamp b.timestamp := ⟨fun a b c => TimestampLe.trans⟩
      exact pairwise_insertionSort _ _
    · intro e he
      exact hfind e ((List.takeWhile_prefix _).subset (hperm.mem_iff.mp he))
  have hdistinct := (hperm.map CBlockIndex.hash).nodup_iff.mpr (hnodup.sublist ((takeWhile_sublist _).map _))
  obtain ⟨picks, hpicks, hcount, hchoice⟩ := modifierPicks_choices C nStakeModifierPrev hordered hdistinct
    (min 64 (candidateBlocks chain start).length) 0 [] (by rw [length_nil, hperm.length_eq]; omega) start
  rw [← hsorted, ← range_eq_range'] at hpicks
  have hleft : ∀ r e, picks[r]? = some e →
      IsChoice C nStakeModifierPrev (leftAfter (candidateBlocks chain start) picks r) (sectionEnd start r) e := by
    intro r e he
    have h := hchoice r e he
    rw [← range_eq_range', append_nil] at h
    refine h.congr fun a => ?_
    rw [leftAfter, mem_filter, mem_filter, hperm.mem_iff]
  have hbits : ∀ i, (entropyBits ((List.range picks.length).zip picks) 0).testBit i =
      (picks[i]?).any CBlockIndex.fStakeEntropy := by
    intro i
    rw [range_eq_range', testBit_entropyBits, Nat.zero_testBit]
    simp
  refine ⟨entropyBits ((List.range picks.length).zip picks) 0, picks, ?_, hpicks, hcount,
    nodup_picks fun r e he => (hleft r e he).mem, hleft, fun r e he => ?_, fun r hr => ?_⟩
  · rw [modifierRounds_eq_picks, hlength, hpicks, map_some, hcount]
  · rw [hbits, he, any_some]
  · rw [hbits, getElem?_eq_none hr, any_none]

/-- Above an entry whose chain is indexed and has a generated modifier `ComputeNextStakeModifier` does not fail, and a
new modifier is made in `min(64, n)` rounds. -/
theorem new_modifier_in_rounds {pindexPrev : CBlockIndex} {rest : List CBlockIndex}
    (hfind : ∀ e ∈ pindexPrev :: rest, find e.hash = some e)
    (hnodup : ((pindexPrev :: rest).map CBlockIndex.hash).Nodup)
    (hflag : ∃ e ∈ pindexPrev :: rest, e.fStakeModifier = true) :
    ∃ m fGenerated, computeNextStakeModifier C find (pindexPrev :: rest) = some (m, fGenerated) ∧
      (fGenerated = true → ∃ nStakeModifier nModifierTime picks,
        getLastStakeModifier (pindexPrev :: rest) = some (nStakeModifier, nModifierTime) ∧
        MadeInRounds C find nStakeModifier (pindexPrev :: rest) (selectionIntervalStart pindexPrev) picks m) := by
  obtain ⟨⟨nStakeModifier, nModifierTime⟩, hlast⟩ := isSome_iff_exists.mp (getLastStakeModifier_isSome hflag)
  obtain ⟨m, picks, hrounds, hmade⟩ := modifierRounds_made C nStakeModifier (selectionIntervalStart pindexPrev) hfind hnodup
  rw [computeNextStakeModifier, hlast]
  dsimp only
  split_ifs with hrecent
  · exact ⟨nStakeModifier, false, rfl, fun h => absurd h Bool.false_ne_true⟩
  · have hnew := congrArg (Option.map fun nStakeModifierNew => (nStakeModifierNew, true)) hrounds
    exact ⟨m, true, hnew, fun _ => ⟨nStakeModifier, nModifierTime, picks, rfl, hmade⟩⟩

end

namespace Example

def modifierBlock (hash nTime : Nat) (fStakeModifier fStakeEntropy : Bool) : CBlockIndex :=
  { CBlockIndex.new with
    hash := hash
    hashProof := hash % 3
    nTime := nTime
    fStakeModifier := fStakeModifier
    fStakeEntropy := fStakeEntropy }

/-- The blocks below the tip.  The last one is before the selection interval, and two have the same time. -/
def modifierChain : List CBlockIndex :=
  [modifierBlock 4 3911 false true, modifierBlock 5 4611 false false, modifierBlock 3 3911 false false,
    modifierBlock 2 3811 false true, modifierBlock 1 3706 true false]

def modifierCrypto : Crypto where
  txHash _ := 0
  headerHash _ := 0
  powHash _ := 0
  merkleHash a b := a + b
  selectionHash a b := 2 ^ 40 * a + b
  kernelHash a b c d e f := a + b + c + d + e + f
  verifyKey _ _ _ := true
  verifyScript _ _ _ _ _ := none

end Example

open Example

theorem new_modifier_in_rounds_example :
    ∃ m fGenerated, computeNextStakeModifier modifierCrypto
        (lookup (modifierBlock 6 31250 false true :: modifierChain))
        (modifierBlock 6 31250 false true :: modifierChain) = some (m, fGenerated) ∧
      (fGenerated = true → ∃ nStakeModifier nModifierTime picks,
        getLastStakeModifier (modifierBlock 6 31250 false true :: modifierChain) =
          some (nStakeModifier, nModifierTime) ∧
        MadeInRounds modifierCrypto (lookup (modifierBlock 6 31250 false true :: modifierChain))
          nStakeModifier (modifierBlock 6 31250 false true :: modifierChain)
          (selectionIntervalStart (modifierBlock 6 31250 false true)) picks m) :=
  new_modifier_in_rounds (by decide) (by decide) (by decide)

example : computeNextStakeModifier modifierCrypto
    (lookup (modifierBlock 6 31250 false true :: modifierChain))
    (modifierBlock 6 31250 false true :: modifierChain) = some (0b10110, true) := by
  decide

end Reddcoin
