import Reddcoin.Lib.Mask
import Reddcoin.Wallet.CoinStake

/-!
# Choosing coins to spend

`SelectCoinsMinConf` pays a target with one coin or with a subset that `ApproximateBestSubset` finds by
chance.  The order of the shuffle, the order of coins of one value after the sort and the random bits are
left open.
-/

namespace Reddcoin

namespace CoinSelection

/-- An output with the hash under which the wallet has its transaction, and its depth. -/
structure DeepOutput extends COutput where
  hash : Uint256
  nDepth : Int

/-- `pair<CAmount, pair<const CWalletTx*, unsigned int> >`. -/
abbrev Coin := Int × Uint256 × Nat

def DeepOutput.coin (output : DeepOutput) : Coin :=
  (output.txout.nValue, output.hash, output.i)

/-- The outcome of everything that is left to chance. -/
structure Outcome where
  /-- `random_shuffle`. -/
  shuffle : List DeepOutput → List DeepOutput
  shuffle_perm : ∀ l, (shuffle l).Perm l
  /-- `sort` by `CompareValueOnly`, from the largest value down. -/
  sort : List Coin → List Coin
  sort_perm : ∀ l, (sort l).Perm l
  sort_sorted : ∀ l, (sort l).Pairwise fun a b => b.1 ≤ a.1
  /-- The bits of the two calls, by repetition and coin. -/
  bits : Bool → Nat → Nat → Bool

/-! ## The subset -/

/-- The variables of a repetition of `ApproximateBestSubset`. -/
structure Trial where
  nTotal : Int
  vfIncluded : List Bool
  fReachedTarget : Bool
  vfBest : List Bool
  nBest : Int

/-- The body of the inner loop for coin `i`. -/
def tryCoin (nTargetValue : Int) (i : Nat) (value : Int) (t : Trial) : Trial :=
  let nTotal := wrap64 (t.nTotal + value)
  let vfIncluded := t.vfIncluded.set i true
  if nTotal ≥ nTargetValue then
    { nTotal := wrap64 (nTotal - value)
      vfIncluded := vfIncluded.set i false
      fReachedTarget := true
      vfBest := if nTotal < t.nBest then vfIncluded else t.vfBest
      nBest := if nTotal < t.nBest then nTotal else t.nBest }
  else { t with nTotal := nTotal, vfIncluded := vfIncluded }

/-- The inner loop from coin `i` on. -/
def passLoop (nTargetValue : Int) (nPass : Nat) (rand : Nat → Bool) : Nat → List Coin → Trial → Trial
  | _, [], t => t
  | i, coin :: rest, t =>
    if (if nPass = 0 then rand i else !t.vfIncluded.getD i false) then
      passLoop nTargetValue nPass rand (i + 1) rest (tryCoin nTargetValue i coin.1 t)
    else passLoop nTargetValue nPass rand (i + 1) rest t

def repetition (vValue : List Coin) (nTargetValue : Int) (rand : Nat → Bool) (vfBest : List Bool)
    (nBest : Int) : Trial :=
  let t := passLoop nTargetValue 0 rand 0 vValue
    { nTotal := 0
      vfIncluded := List.replicate vValue.length false
      fReachedTarget := false
      vfBest := vfBest
      nBest := nBest }
  if t.fReachedTarget then t else passLoop nTargetValue 1 rand 0 vValue t

def repetitions (vValue : List Coin) (nTargetValue : Int) (bits : Nat → Nat → Bool) :
    Nat → Nat → List Bool → Int → List Bool × Int
  | 0, _, vfBest, nBest => (vfBest, nBest)
  | iterations + 1, nRep, vfBest, nBest =>
    if nBest ≠ nTargetValue then
      let t := repetition vValue nTargetValue (bits nRep) vfBest nBest
      repetitions vValue nTargetValue bits iterations (nRep + 1) t.vfBest t.nBest
    else (vfBest, nBest)

def approximateBestSubset (vValue : List Coin) (nTotalLower nTargetValue : Int)
    (bits : Nat → Nat → Bool) (iterations : Nat) : List Bool × Int :=
  repetitions vValue nTargetValue bits iterations 0 (List.replicate vValue.length true) nTotalLower

/-! ## The selection -/

/-- `setCoinsRet` and `nValueRet`. -/
structure Selected where
  setCoinsRet : List (Uint256 × Nat)
  nValueRet : Int
deriving DecidableEq

def Selected.add (s : Selected) (coin : Coin) : Selected where
  setCoinsRet := if coin.2 ∈ s.setCoinsRet then s.setCoinsRet else s.setCoinsRet ++ [coin.2]
  nValueRet := wrap64 (s.nValueRet + coin.1)

/-- `coinLowestLarger`; its transaction is a null pointer at first. -/
structure LowestLarger where
  value : Int
  outpoint : Option (Uint256 × Nat)

/-- What the loop over the outputs comes to: a coin of the target value, or the coins below the target and
a cent with their sum, and the lowest coin above. -/
inductive Sorted where
  | exact (coin : Coin)
  | apart (vValue : List Coin) (nTotalLower : Int) (coinLowestLarger : LowestLarger)

/-- The transactions for which `IsFromMe(ISMINE_ALL)` holds. -/
abbrev FromMe := CTransaction → Bool

def eligible (isFromMe : FromMe) (nConfMine nConfTheirs : Int) (output : DeepOutput) : Bool :=
  output.fSpendable && !decide (output.nDepth < if isFromMe output.tx then nConfMine else nConfTheirs)

def outputsLoop (isFromMe : FromMe) (nTargetValue nConfMine nConfTheirs : Int) :
    List DeepOutput → List Coin → Int → LowestLarger → Sorted
  | [], vValue, nTotalLower, larger => .apart vValue nTotalLower larger
  | output :: vCoins, vValue, nTotalLower, larger =>
    if eligible isFromMe nConfMine nConfTheirs output then
      let n := output.txout.nValue
      if n = nTargetValue then .exact output.coin
      else if n < wrap64 (nTargetValue + CENT) then
        outputsLoop isFromMe nTargetValue nConfMine nConfTheirs vCoins (vValue ++ [output.coin])
          (wrap64 (nTotalLower + n)) larger
      else if n < larger.value then
        outputsLoop isFromMe nTargetValue nConfMine nConfTheirs vCoins vValue nTotalLower
          ⟨n, some output.coin.2⟩
      else outputsLoop isFromMe nTargetValue nConfMine nConfTheirs vCoins vValue nTotalLower larger
    else outputsLoop isFromMe nTargetValue nConfMine nConfTheirs vCoins vValue nTotalLower larger

/-- The choice between the larger coin and the subset that has been found. -/
def largerOrSubset (nTargetValue : Int) (vValue : List Coin) (larger : LowestLarger)
    (best : List Bool × Int) : Selected :=
  match larger.outpoint with
  | none => (Mask.pick vValue best.1).foldl Selected.add ⟨[], 0⟩
  | some outpoint =>
    if (best.2 ≠ nTargetValue ∧ best.2 < wrap64 (nTargetValue + CENT)) ∨ larger.value ≤ best.2 then
      Selected.add ⟨[], 0⟩ (larger.value, outpoint)
    else (Mask.pick vValue best.1).foldl Selected.add ⟨[], 0⟩

/-- The part of `SelectCoinsMinConf` after the loop. -/
def selectApart (o : Outcome) (nTargetValue : Int) (vValue : List Coin) (nTotalLower : Int)
    (larger : LowestLarger) : Bool × Selected :=
  if nTotalLower = nTargetValue then (true, vValue.foldl Selected.add ⟨[], 0⟩)
  else if nTotalLower < nTargetValue then
    match larger.outpoint with
    | none => (false, ⟨[], 0⟩)
    | some outpoint => (true, Selected.add ⟨[], 0⟩ (larger.value, outpoint))
  else
    let vValue := o.sort vValue
    let best := approximateBestSubset vValue nTotalLower nTargetValue (o.bits false) 1000
    if best.2 ≠ nTargetValue ∧ nTotalLower ≥ wrap64 (nTargetValue + CENT) then
      (true, largerOrSubset nTargetValue vValue larger
        (approximateBestSubset vValue nTotalLower (wrap64 (nTargetValue + CENT)) (o.bits true) 1000))
    else (true, largerOrSubset nTargetValue vValue larger best)

def selectCoinsMinConf (isFromMe : FromMe) (o : Outcome) (nTargetValue nConfMine nConfTheirs : Int)
    (vCoins : List DeepOutput) : Bool × Selected :=
  match outputsLoop isFromMe nTargetValue nConfMine nConfTheirs (o.shuffle vCoins) [] 0
      ⟨2 ^ 63 - 1, none⟩ with
  | .exact coin => (true, Selected.add ⟨[], 0⟩ coin)
  | .apart vValue nTotalLower larger => selectApart o nTargetValue vValue nTotalLower larger

end CoinSelection

end Reddcoin
