import Reddcoin.Wallet.CoinSelection

/-!
# What is selected pays

Whatever comes of the shuffle, the sort and the random bits, the mask of a search and its total belong
together, and the selection pays its target or says that it cannot.
-/

namespace Reddcoin

open List

namespace CoinSelection

/-- Coins of positive value that are apart and no more than all the money. -/
structure Payable (coins : List Coin) : Prop where
  positive : ∀ c ∈ coins, 0 < c.1
  total : (coins.map Prod.fst).sum ≤ MAX_MONEY
  distinct : (coins.map Prod.snd).Nodup

theorem Payable.perm {coins coins' : List Coin} (h : Payable coins) (hperm : coins.Perm coins') :
    Payable coins' where
  positive c hc := h.positive c (hperm.mem_iff.mpr hc)
  total := by
    rw [← (hperm.map Prod.fst).sum_eq]
    exact h.total
  distinct := (hperm.map Prod.snd).nodup_iff.mp h.distinct

theorem Payable.sum_le {coins chosen : List Coin} (h : Payable coins) (hsub : chosen.Sublist coins) :
    (chosen.map Prod.fst).sum ≤ (coins.map Prod.fst).sum := by
  refine (hsub.map Prod.fst).sum_le_sum fun n hn => ?_
  obtain ⟨c, hc, rfl⟩ := mem_map.mp hn
  exact Int.le_of_lt (h.positive c hc)

theorem Payable.sublist {coins chosen : List Coin} (h : Payable coins) (hsub : chosen.Sublist coins) :
    Payable chosen where
  positive c hc := h.positive c (hsub.mem hc)
  total := Int.le_trans (h.sum_le hsub) h.total
  distinct := h.distinct.sublist (hsub.map Prod.snd)

theorem Payable.sum_nonneg {coins : List Coin} (h : Payable coins) : 0 ≤ (coins.map Prod.fst).sum := by
  have hle := h.sum_le (nil_sublist coins)
  exact hle

/-- Sums of coins fit an `int64_t`, with a cent to spare. -/
theorem wrap64_money {n : Int} (hlo : 0 ≤ n) (hhi : n ≤ MAX_MONEY) : wrap64 n = n := by
  have hmax : MAX_MONEY = 9223372036800000000 := rfl
  exact wrap64_of_range (by omega) (by omega)

/-! ## The search -/

section Search

variable {vValue : List Coin} {nTargetValue : Int}

/-- Totals are those of their masks, and the best one reaches the target. -/
structure Trial.Sound (vValue : List Coin) (nTargetValue : Int) (t : Trial) : Prop where
  included : t.vfIncluded.length = vValue.length
  total : t.nTotal = Mask.total Prod.fst vValue t.vfIncluded
  best : t.nBest = Mask.total Prod.fst vValue t.vfBest
  reached : nTargetValue ≤ t.nBest

theorem tryCoin_included {t : Trial} {i k : Nat} {value : Int} (hik : k ≠ i) :
    (tryCoin nTargetValue i value t).vfIncluded[k]? = t.vfIncluded[k]? := by
  unfold tryCoin
  dsimp only
  by_cases hreach : wrap64 (t.nTotal + value) ≥ nTargetValue
  · rw [if_pos hreach]
    exact (getElem?_set_ne hik.symm).trans (getElem?_set_ne hik.symm)
  · rw [if_neg hreach]
    exact getElem?_set_ne hik.symm

section

variable (hpay : Payable vValue)

include hpay

theorem tryCoin_sound {t : Trial} (ht : t.Sound vValue nTargetValue) {i : Nat}
    {coin : Coin} (hcoin : vValue[i]? = some coin) (hout : t.vfIncluded[i]? = some false) :
    (tryCoin nTargetValue i coin.1 t).Sound vValue nTargetValue := by
  have hweight : ∀ c ∈ vValue, 0 ≤ c.1 := fun c hc => Int.le_of_lt (hpay.positive c hc)
  have hnext : Mask.total Prod.fst vValue (t.vfIncluded.set i true) = t.nTotal + coin.1 := by
    rw [Mask.total_set Prod.fst hcoin hout, ← ht.total]
    simp
  have hwith : wrap64 (t.nTotal + coin.1) = Mask.total Prod.fst vValue (t.vfIncluded.set i true) := by
    rw [← hnext]
    exact wrap64_money (Mask.total_nonneg _ hweight _)
      (Int.le_trans (Mask.total_le _ hweight _) hpay.total)
  have hback : (t.vfIncluded.set i true).set i false = t.vfIncluded := by
    obtain ⟨hplace, hvalue⟩ := List.getElem?_eq_some_iff.mp hout
    rw [List.set_set, ← hvalue, List.set_getElem_self]
  have hwithout : wrap64 (Mask.total Prod.fst vValue (t.vfIncluded.set i true) - coin.1) = t.nTotal := by
    rw [hnext, Int.add_sub_cancel, ht.total]
    exact wrap64_money (Mask.total_nonneg _ hweight _)
      (Int.le_trans (Mask.total_le _ hweight _) hpay.total)
  unfold tryCoin
  dsimp only
  rw [hwith, hwithout, hback]
  split_ifs with hreach hbetter
  · exact ⟨ht.included, ht.total, rfl, hreach⟩
  · exact ⟨ht.included, ht.total, ht.best, ht.reached⟩
  · exact ⟨by rw [length_set]; exact ht.included, rfl, ht.best, ht.reached⟩

theorem passLoop_sound {nPass : Nat} {rand : Nat → Bool} {front rest : List Coin}
    (hsplit : vValue = front ++ rest) {t : Trial} (ht : t.Sound vValue nTargetValue)
    (hfresh : nPass = 0 → ∀ k, front.length ≤ k → k < vValue.length → t.vfIncluded[k]? = some false) :
    (passLoop nTargetValue nPass rand front.length rest t).Sound vValue nTargetValue := by
  induction rest generalizing front t with
  | nil => exact ht
  | cons coin rest ih =>
    have hplace : front.length < vValue.length := by
      rw [hsplit, length_append, length_cons]
      omega
    have hcoin : vValue[front.length]? = some coin := by
      rw [hsplit, getElem?_append_right (Nat.le_refl _), Nat.sub_self]
      rfl
    have hmove : vValue = (front ++ [coin]) ++ rest := by
      rw [hsplit, append_assoc]
      rfl
    have hlen : (front ++ [coin]).length = front.length + 1 := by simp
    rw [passLoop]
    by_cases hinclude : (if nPass = 0 then rand front.length else !t.vfIncluded.getD front.length false)
    · rw [if_pos hinclude]
      -- a coin is added only while it is out: on the first pass because none is in from here on
      have hout : t.vfIncluded[front.length]? = some false := by
        by_cases hfirst : nPass = 0
        · exact hfresh hfirst _ (Nat.le_refl _) hplace
        · rw [if_neg hfirst] at hinclude
          have hin : front.length < t.vfIncluded.length := by
            rw [ht.included]
            exact hplace
          rw [getD_eq_getElem?_getD, getElem?_eq_getElem hin] at hinclude
          rw [getElem?_eq_getElem hin]
          simpa using hinclude
      rw [← hlen]
      refine ih hmove (tryCoin_sound hpay ht hcoin hout) fun hfirst k hk hkl => ?_
      rw [hlen] at hk
      rw [tryCoin_included (by omega)]
      exact hfresh hfirst k (by omega) hkl
    · rw [if_neg hinclude, ← hlen]
      refine ih hmove ht fun hfirst k hk hkl => hfresh hfirst k ?_ hkl
      rw [hlen] at hk
      omega

theorem repetition_sound (rand : Nat → Bool) {vfBest : List Bool} {nBest : Int}
    (hbest : nBest = Mask.total Prod.fst vValue vfBest) (hreach : nTargetValue ≤ nBest) :
    (repetition vValue nTargetValue rand vfBest nBest).Sound vValue nTargetValue := by
  have hstart : Trial.Sound vValue nTargetValue
      { nTotal := 0
        vfIncluded := List.replicate vValue.length false
        fReachedTarget := false
        vfBest := vfBest
        nBest := nBest } := by
    refine ⟨length_replicate, ?_, hbest, hreach⟩
    show 0 = Mask.total Prod.fst vValue (List.replicate vValue.length false)
    unfold Mask.total
    rw [Mask.pick_false]
    rfl
  have hfirst := @passLoop_sound vValue nTargetValue hpay 0 rand [] vValue rfl _ hstart fun _ k _ hk => by
    show (List.replicate vValue.length false)[k]? = _
    rw [getElem?_replicate, if_pos hk]
  unfold repetition
  dsimp only
  split_ifs
  · exact hfirst
  · exact @passLoop_sound vValue nTargetValue hpay 1 rand [] vValue rfl _ hfirst fun h => absurd h (by decide)

theorem repetitions_sound (bits : Nat → Nat → Bool) (iterations nRep : Nat)
    {vfBest : List Bool} {nBest : Int} (hbest : nBest = Mask.total Prod.fst vValue vfBest)
    (hreach : nTargetValue ≤ nBest) :
    (repetitions vValue nTargetValue bits iterations nRep vfBest nBest).2 =
        Mask.total Prod.fst vValue (repetitions vValue nTargetValue bits iterations nRep vfBest nBest).1 ∧
      nTargetValue ≤ (repetitions vValue nTargetValue bits iterations nRep vfBest nBest).2 := by
  induction iterations generalizing nRep vfBest nBest with
  | zero => exact ⟨hbest, hreach⟩
  | succ iterations ih =>
    rw [repetitions]
    split_ifs
    · have hsound := repetition_sound hpay (bits nRep) hbest hreach
      exact ih (nRep + 1) hsound.best hsound.reached
    · exact ⟨hbest, hreach⟩

theorem approximateBestSubset_sound {nTotalLower : Int}
    (hlower : nTotalLower = (vValue.map Prod.fst).sum) (hreach : nTargetValue ≤ nTotalLower)
    (bits : Nat → Nat → Bool) (iterations : Nat) :
    (approximateBestSubset vValue nTotalLower nTargetValue bits iterations).2 = Mask.total Prod.fst vValue
          (approximateBestSubset vValue nTotalLower nTargetValue bits iterations).1 ∧
      nTargetValue ≤ (approximateBestSubset vValue nTotalLower nTargetValue bits iterations).2 := by
  refine repetitions_sound hpay bits iterations 0 ?_ hreach
  rw [hlower]
  unfold Mask.total
  rw [Mask.pick_true]

end

end Search

/-! ## The loop over the outputs -/

/-- What the loop has made of the eligible coins that it has seen. -/
structure Apart (nTargetValue : Int) (seen vValue : List Coin) (nTotalLower : Int) (larger : LowestLarger) :
    Prop where
  lower : vValue.Sublist seen
  total : nTotalLower = (vValue.map Prod.fst).sum
  unset : larger.outpoint = none → vValue = seen ∧ larger.value = 2 ^ 63 - 1
  set : ∀ outpoint, larger.outpoint = some outpoint →
    (larger.value, outpoint) ∈ seen ∧ nTargetValue + CENT ≤ larger.value

def Sorted.Spec (nTargetValue : Int) (coins : List Coin) : Sorted → Prop
  | .exact coin => coin ∈ coins ∧ coin.1 = nTargetValue
  | .apart vValue nTotalLower larger => Apart nTargetValue coins vValue nTotalLower larger

/-- The coins that may be spent. -/
def eligibleCoins (isFromMe : FromMe) (nConfMine nConfTheirs : Int) (vCoins : List DeepOutput) : List Coin :=
  (vCoins.filter (eligible isFromMe nConfMine nConfTheirs)).map DeepOutput.coin

section Loop

variable {nTargetValue nTotalLower : Int} {seen vValue : List Coin} {larger : LowestLarger} {coin : Coin}

section

variable (h : Apart nTargetValue seen vValue nTotalLower larger)

include h

theorem Apart.addLower (hpay : Payable (seen ++ [coin])) :
    Apart nTargetValue (seen ++ [coin]) (vValue ++ [coin]) (wrap64 (nTotalLower + coin.1)) larger where
  lower := h.lower.append (List.Sublist.refl _)
  total := by
    have hpay' := hpay.sublist (h.lower.append (List.Sublist.refl [coin]))
    have hsum : ((vValue ++ [coin]).map Prod.fst).sum = nTotalLower + coin.1 := by
      rw [map_append, sum_append, ← h.total]
      simp
    rw [← hsum]
    exact wrap64_money hpay'.sum_nonneg hpay'.total
  unset hnone := ⟨by rw [(h.unset hnone).1], (h.unset hnone).2⟩
  set k hk := ⟨mem_append_left _ (h.set k hk).1, (h.set k hk).2⟩

theorem Apart.setLarger (habove : nTargetValue + CENT ≤ coin.1) :
    Apart nTargetValue (seen ++ [coin]) vValue nTotalLower ⟨coin.1, some coin.2⟩ where
  lower := h.lower.trans (sublist_append_left _ _)
  total := h.total
  unset hnone := absurd hnone (by simp)
  set k hk := by
    obtain rfl : coin.2 = k := Option.some.inj hk
    exact ⟨mem_append_right _ mem_cons_self, habove⟩

theorem Apart.keep (hset : larger.outpoint ≠ none) : Apart nTargetValue (seen ++ [coin]) vValue nTotalLower larger where
  lower := h.lower.trans (sublist_append_left _ _)
  total := h.total
  unset hnone := absurd hnone hset
  set k hk := ⟨mem_append_left _ (h.set k hk).1, (h.set k hk).2⟩

end

variable (isFromMe : FromMe) (nConfMine nConfTheirs : Int)

theorem eligibleCoins_cons (output : DeepOutput) (vCoins : List DeepOutput) :
    eligibleCoins isFromMe nConfMine nConfTheirs (output :: vCoins) =
      if eligible isFromMe nConfMine nConfTheirs output then
        output.coin :: eligibleCoins isFromMe nConfMine nConfTheirs vCoins
      else eligibleCoins isFromMe nConfMine nConfTheirs vCoins := by
  unfold eligibleCoins
  rw [filter_cons]
  split_ifs <;> rfl

theorem outputsLoop_spec (hroom : nTargetValue + CENT < 2 ^ 63) (htarget : 0 ≤ nTargetValue)
    {vCoins : List DeepOutput} (hpay : Payable (seen ++ eligibleCoins isFromMe nConfMine nConfTheirs vCoins))
    (happart : Apart nTargetValue seen vValue nTotalLower larger) :
    (outputsLoop isFromMe nTargetValue nConfMine nConfTheirs vCoins vValue nTotalLower larger).Spec nTargetValue
      (seen ++ eligibleCoins isFromMe nConfMine nConfTheirs vCoins) := by
  have hcent : CENT = 1000000 := rfl
  have hmax : MAX_MONEY = 9223372036800000000 := rfl
  have hwrap : wrap64 (nTargetValue + CENT) = nTargetValue + CENT := wrap64_of_range (by omega) hroom
  induction vCoins generalizing seen vValue nTotalLower larger with
  | nil =>
    show Apart nTargetValue (seen ++ []) vValue nTotalLower larger
    rw [append_nil]
    exact happart
  | cons output vCoins ih =>
    rw [eligibleCoins_cons] at hpay ⊢
    rw [outputsLoop]
    by_cases heligible : eligible isFromMe nConfMine nConfTheirs output = true
    · rw [if_pos heligible] at hpay ⊢
      rw [if_pos heligible]
      have hmove : seen ++ output.coin :: eligibleCoins isFromMe nConfMine nConfTheirs vCoins =
          seen ++ [output.coin] ++ eligibleCoins isFromMe nConfMine nConfTheirs vCoins := by simp
      rw [hmove] at hpay ⊢
      have hseen : Payable (seen ++ [output.coin]) := hpay.sublist (sublist_append_left _ _)
      have hone : Payable [output.coin] := hseen.sublist (sublist_append_right _ _)
      dsimp only
      by_cases hexact : output.txout.nValue = nTargetValue
      · rw [if_pos hexact]
        exact ⟨mem_append_left _ (mem_append_right _ mem_cons_self), hexact⟩
      · rw [if_neg hexact]
        by_cases hlower : output.txout.nValue < wrap64 (nTargetValue + CENT)
        · rw [if_pos hlower]
          exact ih hpay (happart.addLower hseen)
        · rw [if_neg hlower]
          rw [hwrap] at hlower
          have habove : nTargetValue + CENT ≤ output.coin.1 := Int.not_lt.mp hlower
          by_cases hlowest : output.txout.nValue < larger.value
          · rw [if_pos hlowest]
            exact ih hpay (happart.setLarger habove)
          · rw [if_neg hlowest]
            refine ih hpay (happart.keep fun hnone => hlowest ?_)
            -- the value of no coin is as large as the one before the first
            have hvalue : output.txout.nValue + 0 ≤ MAX_MONEY := hone.total
            rw [(happart.unset hnone).2]
            omega
    · rw [if_neg heligible] at hpay ⊢
      rw [if_neg heligible]
      exact ih hpay happart

/-- If adding a cent overflows, any eligible coin is taken for a larger one. -/
theorem outputsLoop_overflow (hroom : 2 ^ 63 ≤ nTargetValue + CENT) (hrange : nTargetValue < 2 ^ 63)
    {vCoins : List DeepOutput} (hpay : Payable (eligibleCoins isFromMe nConfMine nConfTheirs vCoins))
    (hlarger : larger.outpoint = none → larger.value = 2 ^ 63 - 1) :
    ∃ larger', outputsLoop isFromMe nTargetValue nConfMine nConfTheirs vCoins [] 0 larger = .apart [] 0 larger' ∧
      (larger.outpoint ≠ none ∨ eligibleCoins isFromMe nConfMine nConfTheirs vCoins ≠ [] → larger'.outpoint ≠ none) ∧
      (larger.outpoint = none → eligibleCoins isFromMe nConfMine nConfTheirs vCoins = [] →
        larger'.outpoint = none) := by
  have hcent : CENT = 1000000 := rfl
  have hmax : MAX_MONEY = 9223372036800000000 := rfl
  have hwrap : wrap64 (nTargetValue + CENT) < 0 := by
    obtain ⟨k, hk⟩ := wrap64_eq_add (nTargetValue + CENT)
    have hwithin := wrap64_range (nTargetValue + CENT)
    omega
  induction vCoins generalizing larger with
  | nil => exact ⟨larger, rfl, fun h => h.resolve_right fun hne => hne rfl, fun hnone _ => hnone⟩
  | cons output vCoins ih =>
    rw [eligibleCoins_cons] at hpay ⊢
    rw [outputsLoop]
    by_cases heligible : eligible isFromMe nConfMine nConfTheirs output = true
    · rw [if_pos heligible] at hpay ⊢
      rw [if_pos heligible]
      have hrest := hpay.sublist (sublist_cons_self _ _)
      have hpositive : 0 < output.txout.nValue := hpay.positive output.coin mem_cons_self
      have hone := (hpay.sublist (singleton_sublist.mpr mem_cons_self)).total
      have hvalue : output.txout.nValue + 0 ≤ MAX_MONEY := hone
      dsimp only
      rw [if_neg (by omega), if_neg (by omega)]
      by_cases hlowest : output.txout.nValue < larger.value
      · rw [if_pos hlowest]
        obtain ⟨larger', hloop, hset, -⟩ := @ih ⟨output.txout.nValue, some output.coin.2⟩ hrest
          (fun hnone => absurd hnone (by simp))
        exact ⟨larger', hloop, fun _ => hset (Or.inl (by simp)), fun _ hnil => absurd hnil (by simp)⟩
      · rw [if_neg hlowest]
        have hsome : larger.outpoint ≠ none := fun hnone => by
          rw [hlarger hnone] at hlowest
          omega
        obtain ⟨larger', hloop, hset, -⟩ := ih hrest hlarger
        exact ⟨larger', hloop, fun _ => hset (Or.inl hsome), fun _ hnil => absurd hnil (by simp)⟩
    · rw [if_neg heligible] at hpay ⊢
      rw [if_neg heligible]
      exact ih hpay hlarger

end Loop

/-! ## The law -/

/-- What the selection should do for a target and the coins that may be spent. -/
structure Lawful (coins : List Coin) (nTargetValue : Int) (result : Bool × Selected) : Prop where
  refused : result.1 = false ↔ (coins.map Prod.fst).sum < nTargetValue
  chosen : result.1 = true → ∃ chosen : List Coin, chosen.Subperm coins ∧
    result.2.setCoinsRet = chosen.map Prod.snd ∧ result.2.setCoinsRet.Nodup ∧
    result.2.nValueRet = (chosen.map Prod.fst).sum
  enough : result.1 = true → nTargetValue ≤ result.2.nValueRet
  change : result.1 = true → result.2.nValueRet = nTargetValue ∨ nTargetValue + CENT ≤ result.2.nValueRet ∨
    (coins.map Prod.fst).sum < nTargetValue + CENT

theorem Lawful.perm {coins coins' : List Coin} {nTargetValue : Int} {result : Bool × Selected}
    (h : Lawful coins nTargetValue result) (hperm : coins.Perm coins') : Lawful coins' nTargetValue result := by
  have hsum := (hperm.map Prod.fst).sum_eq
  refine ⟨by rw [← hsum]; exact h.refused, fun htrue => ?_, h.enough, by rw [← hsum]; exact h.change⟩
  obtain ⟨chosen, hsub, hrest⟩ := h.chosen htrue
  exact ⟨chosen, hsub.trans hperm.subperm, hrest⟩

theorem foldl_add {chosen : List Coin} {s : Selected}
    (hdistinct : (s.setCoinsRet ++ chosen.map Prod.snd).Nodup) (hpositive : ∀ c ∈ chosen, 0 < c.1)
    (hstart : 0 ≤ s.nValueRet) (htotal : s.nValueRet + (chosen.map Prod.fst).sum ≤ MAX_MONEY) :
    chosen.foldl Selected.add s = ⟨s.setCoinsRet ++ chosen.map Prod.snd, s.nValueRet + (chosen.map Prod.fst).sum⟩ := by
  induction chosen generalizing s with
  | nil => simp
  | cons coin chosen ih =>
    have hcoin := hpositive coin mem_cons_self
    have hsum : 0 ≤ (chosen.map Prod.fst).sum := by
      refine sum_nonneg fun n hn => ?_
      obtain ⟨c, hc, rfl⟩ := mem_map.mp hn
      exact Int.le_of_lt (hpositive c (mem_cons_of_mem _ hc))
    rw [map_cons, sum_cons] at htotal
    have hnew : coin.2 ∉ s.setCoinsRet := by
      intro hmem
      exact (nodup_append.mp hdistinct).2.2 _ hmem _ mem_cons_self rfl
    have hadd : s.add coin = ⟨s.setCoinsRet ++ [coin.2], s.nValueRet + coin.1⟩ := by
      unfold Selected.add
      rw [if_neg hnew, wrap64_money (by omega) (by omega)]
    have hmove : s.setCoinsRet ++ (coin :: chosen).map Prod.snd =
        s.setCoinsRet ++ [coin.2] ++ chosen.map Prod.snd := by simp
    rw [hmove] at hdistinct
    rw [foldl_cons, hadd]
    rw [ih (s := ⟨s.setCoinsRet ++ [coin.2], s.nValueRet + coin.1⟩) hdistinct
      (fun c hc => hpositive c (mem_cons_of_mem _ hc))
      (show 0 ≤ s.nValueRet + coin.1 by omega) (by dsimp only; omega)]
    rw [hmove, map_cons, sum_cons, Int.add_assoc]

theorem lawful_of_chosen {coins chosen : List Coin} (hpay : Payable coins) (hsub : chosen.Subperm coins)
    {nTargetValue : Int} (henough : nTargetValue ≤ (chosen.map Prod.fst).sum)
    (hchange : (chosen.map Prod.fst).sum = nTargetValue ∨ nTargetValue + CENT ≤ (chosen.map Prod.fst).sum ∨
      (coins.map Prod.fst).sum < nTargetValue + CENT) :
    Lawful coins nTargetValue (true, chosen.foldl Selected.add ⟨[], 0⟩) := by
  obtain ⟨chosen', hperm, hsub'⟩ := hsub
  have hpay' : Payable chosen := (hpay.sublist hsub').perm hperm
  have hle := hpay.sum_le hsub'
  rw [(hperm.map Prod.fst).sum_eq] at hle
  have hfold := @foldl_add chosen ⟨[], 0⟩ (by rw [nil_append]; exact hpay'.distinct) hpay'.positive
    (Int.le_refl 0) (by rw [Int.zero_add]; exact hpay'.total)
  rw [nil_append, Int.zero_add] at hfold
  rw [hfold]
  exact ⟨⟨fun h => absurd h (by simp), fun h => absurd henough (by omega)⟩,
    fun _ => ⟨chosen, ⟨chosen', hperm, hsub'⟩, rfl, hpay'.distinct, rfl⟩, fun _ => henough, fun _ => hchange⟩

theorem lawful_of_refused {coins : List Coin} {nTargetValue : Int}
    (hfew : (coins.map Prod.fst).sum < nTargetValue) (s : Selected) : Lawful coins nTargetValue (false, s) :=
  ⟨⟨fun _ => hfew, fun _ => rfl⟩, fun h => absurd h (by simp), fun h => absurd h (by simp),
    fun h => absurd h (by simp)⟩

/-- One larger coin pays, and leaves at least a cent. -/
theorem lawful_of_larger {coins : List Coin} (hpay : Payable coins) {nTargetValue : Int} {coin : Coin}
    (hmem : coin ∈ coins) (hlarger : nTargetValue + CENT ≤ coin.1) :
    Lawful coins nTargetValue (true, Selected.add ⟨[], 0⟩ coin) := by
  have hcent : CENT = 1000000 := rfl
  have hsum : ([coin].map Prod.fst).sum = coin.1 := by simp
  have henough : nTargetValue ≤ ([coin].map Prod.fst).sum := by
    rw [hsum]
    omega
  have hchange : nTargetValue + CENT ≤ ([coin].map Prod.fst).sum := by
    rw [hsum]
    exact hlarger
  exact lawful_of_chosen hpay (singleton_subperm_iff.mpr hmem) henough (Or.inr (Or.inl hchange))

/-- A subset of the coins below a target and a cent pays if its total is the target or leaves a cent, or if
there is no larger coin and too little for that. -/
theorem largerOrSubset_lawful {nTargetValue nTotalLower : Int} {coins vValue sorted : List Coin}
    {larger : LowestLarger} (hroom : nTargetValue + CENT < 2 ^ 63) (htarget : 0 ≤ nTargetValue)
    (hpay : Payable coins) (happart : Apart nTargetValue coins vValue nTotalLower larger)
    (hsort : sorted.Perm vValue) {best : List Bool × Int}
    (hbest : best.2 = Mask.total Prod.fst sorted best.1) (hreach : nTargetValue ≤ best.2)
    (hgood : best.2 = nTargetValue ∨ nTargetValue + CENT ≤ best.2 ∨ nTotalLower < nTargetValue + CENT) :
    Lawful coins nTargetValue (true, largerOrSubset nTargetValue sorted larger best) := by
  have hcent : CENT = 1000000 := rfl
  have hwrap : wrap64 (nTargetValue + CENT) = nTargetValue + CENT := wrap64_of_range (by omega) hroom
  have hsum : ((Mask.pick sorted best.1).map Prod.fst).sum = best.2 := hbest.symm
  have hsub : (Mask.pick sorted best.1).Subperm coins :=
    ((Mask.pick_sublist sorted best.1).subperm.trans hsort.subperm).trans happart.lower.subperm
  have henough : nTargetValue ≤ ((Mask.pick sorted best.1).map Prod.fst).sum := by
    rw [hsum]
    exact hreach
  unfold largerOrSubset
  cases hlarger : larger.outpoint with
  | none =>
    refine lawful_of_chosen hpay hsub henough ?_
    rw [hsum, ← (happart.unset hlarger).1, ← happart.total]
    exact hgood
  | some outpoint =>
    dsimp only
    rw [hwrap]
    by_cases hpoor : (best.2 ≠ nTargetValue ∧ best.2 < nTargetValue + CENT) ∨ larger.value ≤ best.2
    · rw [if_pos hpoor]
      exact lawful_of_larger hpay (happart.set _ hlarger).1 (happart.set _ hlarger).2
    · rw [if_neg hpoor]
      refine lawful_of_chosen hpay hsub henough ?_
      rw [hsum]
      omega

theorem selectApart_lawful (o : Outcome) {nTargetValue nTotalLower : Int} {coins vValue : List Coin}
    {larger : LowestLarger} (hroom : nTargetValue + CENT < 2 ^ 63) (htarget : 0 ≤ nTargetValue)
    (hpay : Payable coins) (happart : Apart nTargetValue coins vValue nTotalLower larger) :
    Lawful coins nTargetValue (selectApart o nTargetValue vValue nTotalLower larger) := by
  have hcent : CENT = 1000000 := rfl
  have hwrap : wrap64 (nTargetValue + CENT) = nTargetValue + CENT := wrap64_of_range (by omega) hroom
  unfold selectApart
  dsimp only
  rw [hwrap]
  by_cases hexact : nTotalLower = nTargetValue
  · rw [if_pos hexact]
    rw [happart.total] at hexact
    exact lawful_of_chosen hpay happart.lower.subperm (Int.le_of_eq hexact.symm) (Or.inl hexact)
  rw [if_neg hexact]
  by_cases hfew : nTotalLower < nTargetValue
  · rw [if_pos hfew]
    cases hlarger : larger.outpoint with
    | none =>
      refine lawful_of_refused ?_ _
      rw [← (happart.unset hlarger).1, ← happart.total]
      exact hfew
    | some outpoint => exact lawful_of_larger hpay (happart.set _ hlarger).1 (happart.set _ hlarger).2
  rw [if_neg hfew]
  -- the subset is one of the sorted coins
  have hsort := o.sort_perm vValue
  have hpaySort : Payable (o.sort vValue) := (hpay.sublist happart.lower).perm hsort.symm
  have hlowerSort : nTotalLower = ((o.sort vValue).map Prod.fst).sum := by
    rw [happart.total, (hsort.map Prod.fst).sum_eq]
  obtain ⟨hfirst, hfirstReach⟩ := approximateBestSubset_sound hpaySort hlowerSort
    (show nTargetValue ≤ nTotalLower by omega) (o.bits false) 1000
  split_ifs with hagain
  · obtain ⟨hsecond, hsecondReach⟩ := approximateBestSubset_sound hpaySort hlowerSort hagain.2 (o.bits true) 1000
    exact largerOrSubset_lawful hroom htarget hpay happart hsort hsecond (by omega)
      (Or.inr (Or.inl hsecondReach))
  · refine largerOrSubset_lawful hroom htarget hpay happart hsort hfirst hfirstReach ?_
    omega

section Selection

variable (isFromMe : FromMe) (o : Outcome) {nTargetValue : Int} (nConfMine nConfTheirs : Int)
  {vCoins : List DeepOutput}

theorem eligibleCoins_perm {vCoins' : List DeepOutput} (h : vCoins.Perm vCoins') :
    (eligibleCoins isFromMe nConfMine nConfTheirs vCoins).Perm
      (eligibleCoins isFromMe nConfMine nConfTheirs vCoins') :=
  (h.filter _).map _

section

variable (hpay : Payable (vCoins.map DeepOutput.coin))

include hpay

theorem payable_eligibleCoins : Payable (eligibleCoins isFromMe nConfMine nConfTheirs vCoins) :=
  hpay.sublist (filter_sublist.map _)

theorem selectCoinsMinConf_lawful (htarget : 0 ≤ nTargetValue) (hroom : nTargetValue + CENT < 2 ^ 63) :
    Lawful (eligibleCoins isFromMe nConfMine nConfTheirs vCoins) nTargetValue
      (selectCoinsMinConf isFromMe o nTargetValue nConfMine nConfTheirs vCoins) := by
  have hperm := eligibleCoins_perm isFromMe nConfMine nConfTheirs (o.shuffle_perm vCoins)
  have hpay' := (payable_eligibleCoins isFromMe nConfMine nConfTheirs hpay).perm hperm.symm
  refine Lawful.perm ?_ hperm
  have hstart : Apart nTargetValue [] [] 0 ⟨2 ^ 63 - 1, none⟩ :=
    ⟨List.Sublist.refl _, rfl, fun _ => ⟨rfl, rfl⟩, fun k hk => absurd hk (by simp)⟩
  have hloop := @outputsLoop_spec nTargetValue 0 [] [] _ isFromMe nConfMine nConfTheirs hroom htarget
    (o.shuffle vCoins) (by rw [nil_append]; exact hpay') hstart
  rw [nil_append] at hloop
  unfold selectCoinsMinConf
  cases hsorted : outputsLoop isFromMe nTargetValue nConfMine nConfTheirs (o.shuffle vCoins) [] 0
      ⟨2 ^ 63 - 1, none⟩ with
  | exact coin =>
    rw [hsorted] at hloop
    obtain ⟨hmem, hexact⟩ := hloop
    have hsum : ([coin].map Prod.fst).sum = nTargetValue := by
      rw [← hexact]
      simp
    exact lawful_of_chosen hpay' (singleton_subperm_iff.mpr hmem) (Int.le_of_eq hsum.symm) (Or.inl hsum)
  | apart vValue nTotalLower larger =>
    rw [hsorted] at hloop
    exact selectApart_lawful o hroom htarget hpay' hloop

theorem selectCoinsMinConf_overflow (hrange : nTargetValue < 2 ^ 63) (hroom : 2 ^ 63 ≤ nTargetValue + CENT) :
    (selectCoinsMinConf isFromMe o nTargetValue nConfMine nConfTheirs vCoins).1 = false ↔
      eligibleCoins isFromMe nConfMine nConfTheirs vCoins = [] := by
  have hcent : CENT = 1000000 := rfl
  have hperm := eligibleCoins_perm isFromMe nConfMine nConfTheirs (o.shuffle_perm vCoins)
  have hpay' := (payable_eligibleCoins isFromMe nConfMine nConfTheirs hpay).perm hperm.symm
  obtain ⟨larger, hloop, hset, hunset⟩ := @outputsLoop_overflow nTargetValue ⟨2 ^ 63 - 1, none⟩ isFromMe
    nConfMine nConfTheirs hroom hrange (o.shuffle vCoins) hpay' fun _ => rfl
  unfold selectCoinsMinConf selectApart
  rw [hloop]
  dsimp only
  rw [if_neg (by omega), if_pos (by omega)]
  constructor
  · intro hfalse
    by_contra hne
    have hne' : eligibleCoins isFromMe nConfMine nConfTheirs (o.shuffle vCoins) ≠ [] := fun hnil => by
      rw [hnil] at hperm
      exact hne hperm.nil_eq.symm
    obtain ⟨outpoint, hlarger⟩ := Option.ne_none_iff_exists'.mp (hset (Or.inr hne'))
    rw [hlarger] at hfalse
    exact absurd hfalse (by simp)
  · intro hnil
    rw [hnil] at hperm
    rw [hunset rfl hperm.eq_nil]

end

/-- Coins are chosen as they should be exactly when a cent can be added to the target, or there are none. -/
theorem selectCoinsMinConf_lawful_iff (hdistinct : (vCoins.map fun output => (output.hash, output.i)).Nodup)
    (hpositive : ∀ output ∈ vCoins, 0 < output.txout.nValue)
    (htotal : (vCoins.map fun output => output.txout.nValue).sum ≤ MAX_MONEY)
    (htarget : 0 < nTargetValue) (hrange : nTargetValue < 2 ^ 63) :
    Lawful (eligibleCoins isFromMe nConfMine nConfTheirs vCoins) nTargetValue
        (selectCoinsMinConf isFromMe o nTargetValue nConfMine nConfTheirs vCoins) ↔
      nTargetValue + CENT < 2 ^ 63 ∨ vCoins.filter (eligible isFromMe nConfMine nConfTheirs) = [] := by
  have hcent : CENT = 1000000 := rfl
  have hmax : MAX_MONEY = 9223372036800000000 := rfl
  have hpay : Payable (vCoins.map DeepOutput.coin) := by
    refine ⟨fun c hc => ?_, ?_, ?_⟩
    · obtain ⟨output, hmem, rfl⟩ := mem_map.mp hc
      exact hpositive output hmem
    · rw [map_map]
      exact htotal
    · rw [map_map]
      exact hdistinct
  have hnil : vCoins.filter (eligible isFromMe nConfMine nConfTheirs) = [] ↔
      eligibleCoins isFromMe nConfMine nConfTheirs vCoins = [] := map_eq_nil_iff.symm
  rw [hnil]
  by_cases hroom : nTargetValue + CENT < 2 ^ 63
  · exact ⟨fun _ => Or.inl hroom, fun _ =>
      selectCoinsMinConf_lawful isFromMe o nConfMine nConfTheirs hpay (Int.le_of_lt htarget) hroom⟩
  · have hover := selectCoinsMinConf_overflow isFromMe o nConfMine nConfTheirs hpay hrange (by omega)
    have hsum := (payable_eligibleCoins isFromMe nConfMine nConfTheirs hpay).total
    constructor
    · intro hlawful
      exact Or.inr (hover.mp (hlawful.refused.mpr (by omega)))
    · intro hnone
      have hresult := hover.mpr (hnone.resolve_left hroom)
      refine ⟨⟨fun _ => by omega, fun _ => hresult⟩, ?_, ?_, ?_⟩
      · exact fun htrue => absurd (hresult.symm.trans htrue) (by simp)
      · exact fun htrue => absurd (hresult.symm.trans htrue) (by simp)
      · exact fun htrue => absurd (hresult.symm.trans htrue) (by simp)

end Selection

namespace Example

/-- No shuffle, a stable sort and no bit set. -/
def stillOutcome : Outcome where
  shuffle l := l
  shuffle_perm l := List.Perm.refl l
  sort l := l.insertionSort fun a b => b.1 ≤ a.1
  sort_perm l := perm_insertionSort _ l
  sort_sorted l :=
    have : Std.Total fun a b : Coin => b.1 ≤ a.1 := ⟨fun a b => Int.le_total b.1 a.1⟩
    have : IsTrans Coin fun a b => b.1 ≤ a.1 := ⟨fun _ _ _ hab hbc => Int.le_trans hbc hab⟩
    pairwise_insertionSort _ l
  bits _ _ _ := false

def paying (n : Int) : CTransaction where
  nVersion := 1
  vin := []
  vout := [⟨n, []⟩]
  nLockTime := 0
  nTime := 0

def coinOf (n : Int) (hash : Uint256) : DeepOutput where
  tx := paying n
  i := 0
  fSpendable := true
  txout := ⟨n, []⟩
  found := rfl
  in_range := by decide
  hash := hash
  nDepth := 10

end Example

open Example

theorem selectCoinsMinConf_lawful_iff_example :
    Lawful (eligibleCoins (fun _ => false) 1 6 [coinOf 5 1, coinOf 7 2]) 6
      (selectCoinsMinConf (fun _ => false) stillOutcome 6 1 6 [coinOf 5 1, coinOf 7 2]) :=
  (selectCoinsMinConf_lawful_iff (fun _ => false) stillOutcome 1 6 (by decide) (by decide) (by decide)
    (by decide) (by decide)).mpr (Or.inl (by decide))

/-- For the largest target a coin of 5 is said to be enough. -/
theorem selectCoinsMinConf_overflow_example :
    [coinOf 5 1].filter (eligible (fun _ => false) 1 6) ≠ [] ∧
    selectCoinsMinConf (fun _ => false) stillOutcome (2 ^ 63 - 1) 1 6 [coinOf 5 1] = (true, ⟨[(1, 0)], 5⟩) ∧
    ¬ Lawful (eligibleCoins (fun _ => false) 1 6 [coinOf 5 1]) (2 ^ 63 - 1)
      (selectCoinsMinConf (fun _ => false) stillOutcome (2 ^ 63 - 1) 1 6 [coinOf 5 1]) := by
  have hresult : selectCoinsMinConf (fun _ => false) stillOutcome (2 ^ 63 - 1) 1 6
      [coinOf 5 1] = (true, ⟨[(1, 0)], 5⟩) := by decide
  refine ⟨by decide, hresult, fun hlawful => ?_⟩
  have henough := hlawful.enough (by rw [hresult])
  rw [hresult] at henough
  exact absurd henough (by decide)

end CoinSelection

end Reddcoin
