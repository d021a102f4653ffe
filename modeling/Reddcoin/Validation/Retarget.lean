import Reddcoin.Arith.Compact
import Reddcoin.Chain.BlockIndex

/-!
# The target of the next block

`KimotoGravityWell` and `GetNextWorkRequired` of `pow.cpp`.  The entries from `pindexLast` down to the genesis block
are a list.  The test against the event horizon, which the code makes with floating-point numbers, is a parameter.
-/

namespace Reddcoin

variable {s : GravityWell} {read : List CBlockIndex}

/-- The parameters of `CChainParams` that the target depends on, with what they have in common on all networks. -/
structure RetargetParams where
  lastProofOfWorkHeight : Nat
  allowMinDifficultyBlocks : Bool
  proofOfWorkLimit : Nat
  proofOfStakeLimit : Nat
  proofOfStakeReset : Nat
  height_pos : 0 < lastProofOfWorkHeight
  limit_lt : proofOfWorkLimit < 2 ^ 256
  stakeLimit_le : proofOfStakeLimit ≤ proofOfWorkLimit
  stakeReset_le : proofOfStakeReset ≤ proofOfWorkLimit

/-- `CMainParams`, and `CUnitTestParams` after it. -/
def mainRetargetParams : RetargetParams where
  lastProofOfWorkHeight := 260800 - 1
  allowMinDifficultyBlocks := false
  proofOfWorkLimit := (2 ^ 256 - 1) >>> 20
  proofOfStakeLimit := (2 ^ 256 - 1) >>> 20
  proofOfStakeReset := (2 ^ 256 - 1) >>> 32
  height_pos := by decide
  limit_lt := by decide
  stakeLimit_le := by decide
  stakeReset_le := by decide

/-- `CTestNetParams`. -/
def testNetRetargetParams : RetargetParams where
  lastProofOfWorkHeight := 350 - 1
  allowMinDifficultyBlocks := true
  proofOfWorkLimit := (2 ^ 256 - 1) >>> 20
  proofOfStakeLimit := (2 ^ 256 - 1) >>> 20
  proofOfStakeReset := (2 ^ 256 - 1) >>> 32
  height_pos := by decide
  limit_lt := by decide
  stakeLimit_le := by decide
  stakeReset_le := by decide

/-- `CRegTestParams`. -/
def regTestRetargetParams : RetargetParams where
  lastProofOfWorkHeight := 350 - 1
  allowMinDifficultyBlocks := true
  proofOfWorkLimit := (2 ^ 256 - 1) >>> 1
  proofOfStakeLimit := (2 ^ 256 - 1) >>> 1
  proofOfStakeReset := (2 ^ 256 - 1) >>> 32
  height_pos := by decide
  limit_lt := by decide
  stakeLimit_le := by decide
  stakeReset_le := by decide

namespace CBigNum

/-- `operator/`, which truncates; `none` is the error of `BN_div`. -/
def div (a b : Int) : Option Int :=
  if b = 0 then none else some (a.tdiv b)

theorem div_eq {a b : Int} (hb : b ≠ 0) : div a b = some (a.tdiv b) :=
  if_neg hb

end CBigNum

/-! ## The loop -/

/-- The variables of the loop of `KimotoGravityWell`. -/
structure GravityWell where
  i : UInt32
  pastBlocksMass : UInt64
  pastRateActualSeconds : Int
  pastRateTargetSeconds : Int
  pastDifficultyAverage : Int
  pastDifficultyAveragePrev : Int
deriving DecidableEq

def GravityWell.start : GravityWell where
  i := 1
  pastBlocksMass := 0
  pastRateActualSeconds := 0
  pastRateTargetSeconds := 0
  pastDifficultyAverage := 0
  pastDifficultyAveragePrev := 0

section

variable (P : RetargetParams) (eventHorizon : Int → Int → UInt64 → Bool)
  (targetBlocksSpacingSeconds pastBlocksMin pastBlocksMax : UInt64)

/-- `fProofOfStake`. -/
def isProofOfStakeHeight (pindexLast : CBlockIndex) : Bool :=
  decide (P.lastProofOfWorkHeight ≤ pindexLast.nHeight)

/-- The height above which blocks are read. -/
def lowestHeight (blockLastSolved : CBlockIndex) : Nat :=
  if isProofOfStakeHeight P blockLastSolved then P.lastProofOfWorkHeight else 0

/-- The average once a target has been read. -/
def nextAverage (target : Int) (s : GravityWell) : Option Int :=
  if s.i = 1 then some target
  else
    (CBigNum.div (target - s.pastDifficultyAveragePrev) s.i.toNat).map
      fun step => step + s.pastDifficultyAveragePrev

/-- What a turn does with the block `blockReading`. -/
def readBlock (blockLastSolved blockReading : CBlockIndex) (s : GravityWell) : Option GravityWell :=
  let pastBlocksMass := s.pastBlocksMass + 1
  let actual : Int := blockLastSolved.nTime - blockReading.nTime
  (nextAverage (setCompact blockReading.nBits) s).map fun pastDifficultyAverage => {
    i := s.i + 1
    pastBlocksMass := pastBlocksMass
    pastRateActualSeconds := if actual < 0 then 0 else actual
    pastRateTargetSeconds := wrap64 (targetBlocksSpacingSeconds * pastBlocksMass).toNat
    pastDifficultyAverage := pastDifficultyAverage
    pastDifficultyAveragePrev := pastDifficultyAverage }

/-- Whether the blocks that have been read suffice. -/
def leavesWell (s : GravityWell) : Bool :=
  decide (pastBlocksMin ≤ s.pastBlocksMass) &&
    eventHorizon s.pastRateTargetSeconds s.pastRateActualSeconds s.pastBlocksMass

/-- Whether a block is read in a turn. -/
def readsBlock (blockLastSolved blockReading : CBlockIndex) (s : GravityWell) : Bool :=
  decide (lowestHeight P blockLastSolved < blockReading.nHeight) &&
    !(decide (0 < pastBlocksMax) && decide (pastBlocksMax < s.i.toUInt64))

/-- The loop from a block on down. -/
def kimotoLoop (blockLastSolved : CBlockIndex) : List CBlockIndex → GravityWell → Option GravityWell
  | [], s => some s
  | blockReading :: rest, s =>
    if readsBlock P pastBlocksMax blockLastSolved blockReading s then
      (readBlock targetBlocksSpacingSeconds blockLastSolved blockReading s).bind fun s =>
        -- At the genesis block there is nothing left to read.
        if leavesWell eventHorizon pastBlocksMin s || rest.isEmpty then some s
        else kimotoLoop blockLastSolved rest s
    else some s

/-- The average, scaled by how fast the blocks came. -/
def scaledTarget (s : GravityWell) : Option Int :=
  if s.pastRateActualSeconds ≠ 0 ∧ s.pastRateTargetSeconds ≠ 0 then
    CBigNum.div (s.pastDifficultyAverage * s.pastRateActualSeconds) s.pastRateTargetSeconds
  else some s.pastDifficultyAverage

/-- The target, at most the limit. -/
def limitTarget (fProofOfStake : Bool) (bnNew : Int) : Int :=
  if !fProofOfStake && decide ((P.proofOfWorkLimit : Int) < bnNew) then P.proofOfWorkLimit
  else if fProofOfStake && decide ((P.proofOfStakeLimit : Int) < bnNew) then P.proofOfStakeLimit
  else bnNew

/-- `KimotoGravityWell`; `none` is an error of `CBigNum`. -/
def kimotoGravityWell : List CBlockIndex → Option UInt32
  | [] => some (CBigNum.getCompact P.proofOfWorkLimit)
  | blockLastSolved :: rest =>
    let fProofOfStake := isProofOfStakeHeight P blockLastSolved
    if blockLastSolved.nHeight = 0 ∨ blockLastSolved.nHeight < pastBlocksMin.toNat then
      some (CBigNum.getCompact P.proofOfWorkLimit)
    else if fProofOfStake ∧ blockLastSolved.nHeight - P.lastProofOfWorkHeight < pastBlocksMin.toNat then
      if P.allowMinDifficultyBlocks then some (CBigNum.getCompact P.proofOfStakeLimit)
      else some (CBigNum.getCompact P.proofOfStakeReset)
    else
      (kimotoLoop P eventHorizon targetBlocksSpacingSeconds pastBlocksMin pastBlocksMax blockLastSolved
        (blockLastSolved :: rest) GravityWell.start).bind fun s =>
        (scaledTarget s).map fun bnNew => CBigNum.getCompact (limitTarget P fProofOfStake bnNew)

end

/-- `BlocksTargetSpacing`. -/
def blocksTargetSpacing : UInt64 := 60

/-- `PastBlocksMin`: a quarter of a day of blocks, or a hundredth for the first blocks. -/
def pastBlocksMinAt (nHeight : Nat) : UInt64 :=
  if nHeight < 6000 then 864 / blocksTargetSpacing else 21600 / blocksTargetSpacing

/-- `PastBlocksMax`: a week of blocks, or 0.14 days for the first blocks. -/
def pastBlocksMaxAt (nHeight : Nat) : UInt64 :=
  if nHeight < 6000 then 12096 / blocksTargetSpacing else 604800 / blocksTargetSpacing

/-- `GetNextWorkRequired`, given `pindexLast` and its ancestors. -/
def getNextWorkRequired (P : RetargetParams) (eventHorizon : Int → Int → UInt64 → Bool)
    (pindexLast : CBlockIndex) (ancestors : List CBlockIndex) : Option UInt32 :=
  if P.allowMinDifficultyBlocks && decide (pindexLast.nHeight < P.lastProofOfWorkHeight) then
    some (CBigNum.getCompact P.proofOfWorkLimit)
  else
    kimotoGravityWell P eventHorizon blocksTargetSpacing (pastBlocksMinAt pindexLast.nHeight)
      (pastBlocksMaxAt pindexLast.nHeight) (pindexLast :: ancestors)

/-! ## The running average -/

/-- A step of the average goes towards the new value and not beyond it, in both directions. -/
theorem average_step (avg target : Int) {n : Nat} (hn : 0 < n) :
    (avg ≤ target → avg ≤ (target - avg).tdiv n + avg ∧ (target - avg).tdiv n + avg ≤ target) ∧
      (target ≤ avg → target ≤ (target - avg).tdiv n + avg ∧ (target - avg).tdiv n + avg ≤ avg) := by
  constructor
  · intro hle
    have hlow := Int.tdiv_nonneg (by omega : 0 ≤ target - avg) (by omega : (0 : Int) ≤ n)
    have hhigh := Int.tdiv_le_self (n : Int) (by omega : 0 ≤ target - avg)
    omega
  · intro hge
    have hlow := Int.tdiv_nonneg (by omega : 0 ≤ avg - target) (by omega : (0 : Int) ≤ n)
    have hhigh := Int.tdiv_le_self (n : Int) (by omega : 0 ≤ avg - target)
    have hneg : (target - avg).tdiv n = -(avg - target).tdiv n := by
      rw [← Int.neg_tdiv]
      congr 1
      omega
    omega

/-- What the variables say once the blocks `read` have been read. -/
structure GravityWell.Sound (read : List CBlockIndex) (s : GravityWell) : Prop where
  count : s.i.toNat = read.length + 1
  mass : s.pastBlocksMass.toNat = read.length
  actual : 0 ≤ s.pastRateActualSeconds
  target : s.pastRateTargetSeconds = 60 * read.length
  prev : s.pastDifficultyAveragePrev = s.pastDifficultyAverage
  least : read = [] ∨ ∃ b ∈ read, setCompact b.nBits ≤ s.pastDifficultyAverage
  greatest : read = [] ∨ ∃ b ∈ read, s.pastDifficultyAverage ≤ setCompact b.nBits
  nonneg : (∀ b ∈ read, 0 ≤ setCompact b.nBits) → 0 ≤ s.pastDifficultyAverage

theorem GravityWell.sound_start : GravityWell.start.Sound [] where
  count := rfl
  mass := rfl
  actual := Int.le_refl 0
  target := rfl
  prev := rfl
  least := .inl rfl
  greatest := .inl rfl
  nonneg := fun _ => Int.le_refl 0

/-- The average that a turn leaves. -/
theorem nextAverage_between (hs : s.Sound read) (target : Int) :
    ∃ avg, nextAverage target s = some avg ∧ (target ≤ avg ∨ ∃ b ∈ read, setCompact b.nBits ≤ avg) ∧
      (avg ≤ target ∨ ∃ b ∈ read, avg ≤ setCompact b.nBits) := by
  by_cases hone : s.i = 1
  · exact ⟨target, if_pos hone, .inl (Int.le_refl _), .inl (Int.le_refl _)⟩
  · have hne : read ≠ [] := by
      intro hnil
      apply hone
      apply UInt32.toNat_inj.mp
      rw [hs.count, hnil]
      rfl
    have hcount := hs.count
    obtain ⟨lo, hlo, hleast⟩ := hs.least.resolve_left hne
    obtain ⟨hi, hhi, hgreatest⟩ := hs.greatest.resolve_left hne
    obtain ⟨hup, hdown⟩ := average_step s.pastDifficultyAverage target (by omega : 0 < s.i.toNat)
    refine ⟨(target - s.pastDifficultyAverage).tdiv s.i.toNat + s.pastDifficultyAverage, ?_, ?_⟩
    · rw [nextAverage, if_neg hone, CBigNum.div_eq (by omega), hs.prev]
      rfl
    · by_cases hle : s.pastDifficultyAverage ≤ target
      · have hmove := hup hle
        exact ⟨.inr ⟨lo, hlo, by omega⟩, .inl hmove.2⟩
      · have hmove := hdown (by omega)
        exact ⟨.inl hmove.1, .inr ⟨hi, hhi, by omega⟩⟩

/-- A turn returns and keeps what the variables say. -/
theorem readBlock_sound (hs : s.Sound read)
    (hroom : read.length + 2 < 2 ^ 32) (blockLastSolved blockReading : CBlockIndex) :
    ∃ s', readBlock blocksTargetSpacing blockLastSolved blockReading s = some s' ∧
      s'.Sound (read ++ [blockReading]) := by
  obtain ⟨avg, havg, hleast, hgreatest⟩ := nextAverage_between hs (setCompact blockReading.nBits)
  have hcount := hs.count
  have hmass := hs.mass
  have hnextMass : (s.pastBlocksMass + 1).toNat = read.length + 1 := by
    rw [UInt64.toNat_add, hmass]
    show (read.length + 1) % 2 ^ 64 = _
    omega
  have hprod : (blocksTargetSpacing * (s.pastBlocksMass + 1)).toNat = 60 * (read.length + 1) := by
    rw [UInt64.toNat_mul, hnextMass]
    show 60 * (read.length + 1) % 2 ^ 64 = _
    omega
  have hseconds : wrap64 ((blocksTargetSpacing * (s.pastBlocksMass + 1)).toNat : Int) =
      60 * ((read.length + [blockReading].length : Nat) : Int) := by
    rw [hprod, wrap64_of_range (by omega) (by omega), List.length_singleton]
    omega
  have hlow : ∃ b ∈ read ++ [blockReading], setCompact b.nBits ≤ avg := by
    cases hleast with
    | inl hnew => exact ⟨blockReading, by simp, hnew⟩
    | inr hold =>
      obtain ⟨b, hb, hle⟩ := hold
      exact ⟨b, List.mem_append_left _ hb, hle⟩
  have hhigh : ∃ b ∈ read ++ [blockReading], avg ≤ setCompact b.nBits := by
    cases hgreatest with
    | inl hnew => exact ⟨blockReading, by simp, hnew⟩
    | inr hold =>
      obtain ⟨b, hb, hle⟩ := hold
      exact ⟨b, List.mem_append_left _ hb, hle⟩
  rw [readBlock, havg]
  refine ⟨{
    i := s.i + 1
    pastBlocksMass := s.pastBlocksMass + 1
    pastRateActualSeconds :=
      if (blockLastSolved.nTime : Int) - blockReading.nTime < 0 then 0
      else (blockLastSolved.nTime : Int) - blockReading.nTime
    pastRateTargetSeconds := wrap64 ((blocksTargetSpacing * (s.pastBlocksMass + 1)).toNat : Int)
    pastDifficultyAverage := avg
    pastDifficultyAveragePrev := avg }, rfl, ?_, ?_, ?_, ?_, rfl, .inr hlow, .inr hhigh, ?_⟩
  · show (s.i + 1).toNat = _
    rw [UInt32.toNat_add, hcount, List.length_append]
    show (read.length + 1 + 1) % 2 ^ 32 = read.length + 1 + 1
    omega
  · rw [List.length_append]
    exact hnextMass
  · show 0 ≤ if _ < 0 then (0 : Int) else _
    split
    · exact Int.le_refl 0
    · omega
  · rw [List.length_append]
    simp only [hseconds]
  · intro hall
    obtain ⟨b, hb, hle⟩ := hlow
    exact Int.le_trans (hall b hb) hle

section

variable (P : RetargetParams) (eventHorizon : Int → Int → UInt64 → Bool) (pastBlocksMin pastBlocksMax : UInt64)
  (blockLastSolved : CBlockIndex)

/-- The runs of the loop: the blocks that have been read, the variables after them and the entries that are left. -/
inductive Readings (chain : List CBlockIndex) : List CBlockIndex → GravityWell → List CBlockIndex → Prop
  | start : Readings chain [] GravityWell.start chain
  | next {read rest : List CBlockIndex} {s s' : GravityWell} {blockReading : CBlockIndex} :
      Readings chain read s (blockReading :: rest) →
      (read = [] ∨ leavesWell eventHorizon pastBlocksMin s = false) →
      readsBlock P pastBlocksMax blockLastSolved blockReading s = true →
      readBlock blocksTargetSpacing blockLastSolved blockReading s = some s' →
      Readings chain (read ++ [blockReading]) s' rest

/-- The loop counts its readings in 32 bits.  That suffices for every chain whose heights are of type `int`, and for
every bound that `GetNextWorkRequired` passes. -/
def CountsReadings (chain : List CBlockIndex) : Prop :=
  chain.length + 1 < 2 ^ 32 ∨ (0 < pastBlocksMax ∧ pastBlocksMax.toNat + 1 < 2 ^ 32)

variable {P eventHorizon pastBlocksMin pastBlocksMax blockLastSolved} {chain : List CBlockIndex}

theorem Readings.chain_eq {read rest : List CBlockIndex}
    (h : Readings P eventHorizon pastBlocksMin pastBlocksMax blockLastSolved chain read s rest) :
    chain = read ++ rest := by
  induction h with
  | start => rfl
  | next _ _ _ _ ih => rw [ih, List.append_assoc, List.singleton_append]

section

variable (hcount : CountsReadings pastBlocksMax chain)

include hcount

/-- A block that is read does not exhaust the count. -/
theorem CountsReadings.room {read rest : List CBlockIndex}
    {blockReading : CBlockIndex} (hchain : chain = read ++ blockReading :: rest)
    (hs : s.Sound read) (hreads : readsBlock P pastBlocksMax blockLastSolved blockReading s) :
    read.length + 2 < 2 ^ 32 := by
  cases hcount with
  | inl hlen =>
    rw [hchain, List.length_append, List.length_cons] at hlen
    omega
  | inr hmax =>
    have hi := hs.count
    have hnot : ¬ pastBlocksMax < s.i.toUInt64 := by
      intro hlt
      rw [readsBlock, decide_eq_true hmax.1, decide_eq_true hlt] at hreads
      simp at hreads
    rw [UInt64.lt_iff_toNat_lt, UInt32.toNat_toUInt64, hi] at hnot
    omega

theorem Readings.sound {read rest : List CBlockIndex}
    (h : Readings P eventHorizon pastBlocksMin pastBlocksMax blockLastSolved chain read s rest) : s.Sound read := by
  induction h with
  | start => exact GravityWell.sound_start
  | next hprev _ hreads hread ih =>
    obtain ⟨s', hs', hsound⟩ := readBlock_sound ih (hcount.room hprev.chain_eq ih hreads) blockLastSolved _
    rw [hread] at hs'
    cases hs'
    exact hsound

/-- The loop returns, with the variables after some readings. -/
theorem kimotoLoop_returns : ∀ (rest read : List CBlockIndex)
    (s : GravityWell), Readings P eventHorizon pastBlocksMin pastBlocksMax blockLastSolved chain read s rest →
    (read = [] ∨ leavesWell eventHorizon pastBlocksMin s = false) →
    ∃ read' s' rest',
      kimotoLoop P eventHorizon blocksTargetSpacing pastBlocksMin pastBlocksMax blockLastSolved rest s = some s' ∧
      Readings P eventHorizon pastBlocksMin pastBlocksMax blockLastSolved chain read' s' rest' := by
  intro rest
  induction rest with
  | nil =>
    intro read s h _
    exact ⟨read, s, [], rfl, h⟩
  | cons blockReading rest ih =>
    intro read s h hgoes
    rw [kimotoLoop]
    by_cases hreads : readsBlock P pastBlocksMax blockLastSolved blockReading s = true
    · obtain ⟨s', hs', _⟩ := readBlock_sound (h.sound hcount) (hcount.room h.chain_eq (h.sound hcount) hreads)
        blockLastSolved blockReading
      have hnext := Readings.next h hgoes hreads hs'
      rw [if_pos hreads, hs', Option.bind_some]
      by_cases hleaves : (leavesWell eventHorizon pastBlocksMin s' || rest.isEmpty) = true
      · rw [if_pos hleaves]
        exact ⟨_, s', rest, rfl, hnext⟩
      · rw [if_neg hleaves]
        apply ih _ s' hnext
        right
        cases hl : leavesWell eventHorizon pastBlocksMin s' with
        | false => rfl
        | true =>
          rw [hl] at hleaves
          exact absurd rfl hleaves
    · rw [if_neg hreads]
      exact ⟨read, s, _, rfl, h⟩

end

end

/-! ## The target -/

/-- The compact form decodes to a target from 0 to the limit. -/
def TargetWithin (limit : Nat) (nBits : UInt32) : Prop :=
  0 ≤ setCompact nBits.toNat ∧ setCompact nBits.toNat ≤ limit

theorem TargetWithin.mono {limit limit' : Nat} {nBits : UInt32} (h : TargetWithin limit nBits) (hle : limit ≤ limit') :
    TargetWithin limit' nBits :=
  ⟨h.1, Int.le_trans h.2 (Int.ofNat_le.mpr hle)⟩

theorem targetWithin_getCompact {limit : Nat} (hlimit : limit < 2 ^ 256) {bn : Int} (hnonneg : 0 ≤ bn)
    (hle : bn ≤ limit) : TargetWithin limit (CBigNum.getCompact bn) := by
  obtain ⟨x, rfl⟩ := Int.eq_ofNat_of_zero_le hnonneg
  have hkept := compactKept_le x
  rw [TargetWithin, CBigNum.toNat_getCompact (by omega), setCompact_compactOf]
  omega

variable (P : RetargetParams)

theorem stakeLimit_lt : P.proofOfStakeLimit < 2 ^ 256 :=
  Nat.lt_of_le_of_lt P.stakeLimit_le P.limit_lt

/-- The target that is encoded is within the limit of the kind of the block. -/
theorem limitTarget_within (fProofOfStake : Bool) {bnNew : Int} (hnonneg : 0 ≤ bnNew) :
    TargetWithin (if fProofOfStake then P.proofOfStakeLimit else P.proofOfWorkLimit)
      (CBigNum.getCompact (limitTarget P fProofOfStake bnNew)) := by
  cases fProofOfStake with
  | false =>
    apply targetWithin_getCompact P.limit_lt
    · rw [limitTarget]
      by_cases hbig : (P.proofOfWorkLimit : Int) < bnNew
      · simp [hbig]
      · simp [hbig, hnonneg]
    · rw [limitTarget]
      by_cases hbig : (P.proofOfWorkLimit : Int) < bnNew
      · simp [hbig]
      · simp [hbig]
        omega
  | true =>
    apply targetWithin_getCompact (stakeLimit_lt P)
    · rw [limitTarget]
      by_cases hbig : (P.proofOfStakeLimit : Int) < bnNew
      · simp [hbig]
      · simp [hbig, hnonneg]
    · rw [limitTarget]
      by_cases hbig : (P.proofOfStakeLimit : Int) < bnNew
      · simp [hbig]
      · simp [hbig]
        omega

/-- The division by the target seconds does not fail, and does not change the sign. -/
theorem scaledTarget_nonneg (hs : s.Sound read)
    (hbits : ∀ b ∈ read, 0 ≤ setCompact b.nBits) : ∃ bnNew, scaledTarget s = some bnNew ∧ 0 ≤ bnNew := by
  have havg := hs.nonneg hbits
  by_cases hscale : s.pastRateActualSeconds ≠ 0 ∧ s.pastRateTargetSeconds ≠ 0
  · refine ⟨(s.pastDifficultyAverage * s.pastRateActualSeconds).tdiv s.pastRateTargetSeconds, ?_, ?_⟩
    · rw [scaledTarget, if_pos hscale, CBigNum.div_eq hscale.2]
    · apply Int.tdiv_nonneg (Int.mul_nonneg havg hs.actual)
      rw [hs.target]
      omega
  · exact ⟨_, if_neg hscale, havg⟩

variable (eventHorizon : Int → Int → UInt64 → Bool)

/-- Past the first blocks and past the reset the loop decides. -/
theorem kimotoGravityWell_within (pastBlocksMin pastBlocksMax : UInt64) (pindexLast : CBlockIndex)
    (ancestors : List CBlockIndex) (hbits : ∀ e ∈ pindexLast :: ancestors, 0 ≤ setCompact e.nBits)
    (hcount : CountsReadings pastBlocksMax (pindexLast :: ancestors)) :
    ∃ nBits, kimotoGravityWell P eventHorizon blocksTargetSpacing pastBlocksMin pastBlocksMax
        (pindexLast :: ancestors) = some nBits ∧
      TargetWithin P.proofOfWorkLimit nBits ∧
      (P.lastProofOfWorkHeight ≤ pindexLast.nHeight →
        pastBlocksMin.toNat ≤ pindexLast.nHeight - P.lastProofOfWorkHeight →
        TargetWithin P.proofOfStakeLimit nBits) := by
  have hpos := P.height_pos
  have hlimit := P.limit_lt
  have hstake := P.stakeLimit_le
  have hreset := P.stakeReset_le
  rw [kimotoGravityWell]
  by_cases hfirst : pindexLast.nHeight = 0 ∨ pindexLast.nHeight < pastBlocksMin.toNat
  · refine ⟨_, if_pos hfirst, targetWithin_getCompact hlimit (by omega) (Int.le_refl _), fun hheight hpast => ?_⟩
    omega
  · rw [if_neg hfirst]
    by_cases hwindow : isProofOfStakeHeight P pindexLast = true ∧
        pindexLast.nHeight - P.lastProofOfWorkHeight < pastBlocksMin.toNat
    · rw [if_pos hwindow]
      by_cases hmin : P.allowMinDifficultyBlocks = true
      · refine ⟨_, if_pos hmin, targetWithin_getCompact hlimit (by omega) (by omega), fun hheight hpast => ?_⟩
        omega
      · refine ⟨_, if_neg hmin, targetWithin_getCompact hlimit (by omega) (by omega), fun hheight hpast => ?_⟩
        omega
    · have hstart : Readings P eventHorizon pastBlocksMin pastBlocksMax pindexLast (pindexLast :: ancestors) []
          GravityWell.start (pindexLast :: ancestors) := Readings.start
      obtain ⟨read, s, rest, hloop, hrun⟩ := kimotoLoop_returns hcount _ _ _ hstart (.inl rfl)
      have hread : ∀ b ∈ read, 0 ≤ setCompact b.nBits := by
        intro b hb
        apply hbits
        rw [hrun.chain_eq]
        exact List.mem_append_left _ hb
      obtain ⟨bnNew, hscaled, hnonneg⟩ := scaledTarget_nonneg (hrun.sound hcount) hread
      have hwithin := limitTarget_within P (isProofOfStakeHeight P pindexLast) hnonneg
      rw [if_neg hwindow, hloop, Option.bind_some, hscaled]
      refine ⟨_, rfl, ?_, fun hheight _ => ?_⟩
      · apply hwithin.mono
        split
        · exact hstake
        · exact Nat.le_refl _
      · rw [isProofOfStakeHeight, decide_eq_true hheight, if_pos rfl] at hwithin
        rw [isProofOfStakeHeight, decide_eq_true hheight]
        exact hwithin

/-- The bounds on the count that `GetNextWorkRequired` passes. -/
theorem countsReadings_at (nHeight : Nat) (chain : List CBlockIndex) :
    CountsReadings (pastBlocksMaxAt nHeight) chain := by
  right
  rw [pastBlocksMaxAt]
  split
  · decide
  · decide

/-- The running average stays between the targets that have been read, the loop ends after some readings without an
error, and the target that is returned is within the limit. -/
theorem kimoto_average_and_target (pindexLast : CBlockIndex) (ancestors : List CBlockIndex)
    (hbits : ∀ e ∈ pindexLast :: ancestors, 0 ≤ setCompact e.nBits) :
    (∀ pastBlocksMin pastBlocksMax : UInt64, CountsReadings pastBlocksMax (pindexLast :: ancestors) →
      (∀ read s rest, Readings P eventHorizon pastBlocksMin pastBlocksMax pindexLast (pindexLast :: ancestors)
          read s rest → read ≠ [] →
        (∃ b ∈ read, setCompact b.nBits ≤ s.pastDifficultyAverage) ∧
        (∃ b ∈ read, s.pastDifficultyAverage ≤ setCompact b.nBits) ∧ 0 < s.pastRateTargetSeconds) ∧
      (∃ read s rest, kimotoLoop P eventHorizon blocksTargetSpacing pastBlocksMin pastBlocksMax pindexLast
          (pindexLast :: ancestors) GravityWell.start = some s ∧
        Readings P eventHorizon pastBlocksMin pastBlocksMax pindexLast (pindexLast :: ancestors) read s rest) ∧
      ∃ nBits, kimotoGravityWell P eventHorizon blocksTargetSpacing pastBlocksMin pastBlocksMax
          (pindexLast :: ancestors) = some nBits ∧
        TargetWithin P.proofOfWorkLimit nBits ∧
        (P.lastProofOfWorkHeight ≤ pindexLast.nHeight →
          pastBlocksMin.toNat ≤ pindexLast.nHeight - P.lastProofOfWorkHeight →
          TargetWithin P.proofOfStakeLimit nBits)) ∧
    ∃ nBits, getNextWorkRequired P eventHorizon pindexLast ancestors = some nBits ∧
      TargetWithin P.proofOfWorkLimit nBits ∧
      (P.lastProofOfWorkHeight ≤ pindexLast.nHeight →
        (pastBlocksMinAt pindexLast.nHeight).toNat ≤ pindexLast.nHeight - P.lastProofOfWorkHeight →
        TargetWithin P.proofOfStakeLimit nBits) := by
  constructor
  · intro pastBlocksMin pastBlocksMax hcount
    refine ⟨fun read s rest hrun hne => ?_, ?_, ?_⟩
    · have hs := hrun.sound hcount
      have hlen := List.length_pos_of_ne_nil hne
      refine ⟨hs.least.resolve_left hne, hs.greatest.resolve_left hne, ?_⟩
      rw [hs.target]
      omega
    · exact kimotoLoop_returns hcount _ [] GravityWell.start Readings.start (.inl rfl)
    · exact kimotoGravityWell_within P eventHorizon pastBlocksMin pastBlocksMax pindexLast ancestors hbits hcount
  · rw [getNextWorkRequired]
    by_cases hmin : (P.allowMinDifficultyBlocks && decide (pindexLast.nHeight < P.lastProofOfWorkHeight)) = true
    · refine ⟨_, if_pos hmin, targetWithin_getCompact P.limit_lt (by omega) (Int.le_refl _), fun hheight _ => ?_⟩
      rw [Bool.and_eq_true, decide_eq_true_iff] at hmin
      omega
    · rw [if_neg hmin]
      exact kimotoGravityWell_within P eventHorizon _ _ pindexLast ancestors hbits (countsReadings_at _ _)

/-- Three blocks whose times run backwards and whose targets go up and down. -/
theorem kimoto_average_and_target_backwards :
    ∃ nBits, getNextWorkRequired mainRetargetParams (fun _ _ _ => false)
        { CBlockIndex.new with nHeight := 20, nTime := 100, nBits := 0x1e0ffff0 }
        [{ CBlockIndex.new with nHeight := 19, nTime := 160, nBits := 0x1d00ffff },
          { CBlockIndex.new with nHeight := 18, nTime := 40, nBits := 0x1e00ffff }] = some nBits ∧
      TargetWithin mainRetargetParams.proofOfWorkLimit nBits := by
  obtain ⟨nBits, hnBits, hwithin, _⟩ := (kimoto_average_and_target mainRetargetParams (fun _ _ _ => false)
    { CBlockIndex.new with nHeight := 20, nTime := 100, nBits := 0x1e0ffff0 }
    [{ CBlockIndex.new with nHeight := 19, nTime := 160, nBits := 0x1d00ffff },
      { CBlockIndex.new with nHeight := 18, nTime := 40, nBits := 0x1e00ffff }] (by decide)).2
  exact ⟨nBits, hnBits, hwithin⟩

end Reddcoin
