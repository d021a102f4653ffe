import Reddcoin.Lib.Median
import Reddcoin.Net.Address
import Reddcoin.Primitives.Transaction

/-!
# Network time

`AddTimeData` of `timedata.cpp` over the `CMedianFilter` of `timedata.h`, whose values are 64-bit numbers.
-/

namespace Reddcoin

open List

def abs64 (n : Int) : Int :=
  if 0 ≤ n then n else wrap64 (-n)

structure CMedianFilter where
  vValues : List Int
  vSorted : List Int
  nSize : Nat

namespace CMedianFilter

def new (size : Nat) (initialValue : Int) : CMedianFilter :=
  ⟨[initialValue], [initialValue], size⟩

def input (f : CMedianFilter) (value : Int) : CMedianFilter :=
  let vValues := (if f.vValues.length = f.nSize then f.vValues.tail else f.vValues) ++ [value]
  { f with vValues := vValues, vSorted := vValues.insertionSort (· ≤ ·) }

/-- `median`; none is the failed assertion. -/
def median (f : CMedianFilter) : Option Int :=
  let size := f.vSorted.length
  if size = 0 then none
  else if size % 2 = 1 then f.vSorted[size / 2]?
  else
    match f.vSorted[size / 2 - 1]?, f.vSorted[size / 2]? with
    | some low, some high => some ((wrap64 (low + high)).tdiv 2)
    | _, _ => none

end CMedianFilter

/-- A call of `AddTimeData` with what the clock says; the difference fits in 64 bits. -/
structure TimeCall where
  ip : CNetAddr
  nTime : Int
  now : Int
  fits : -2 ^ 63 ≤ nTime - now ∧ nTime - now < 2 ^ 63

def TimeCall.sample (c : TimeCall) : Int :=
  c.nTime - c.now

structure TimeData where
  setKnown : List CNetAddr
  vTimeOffsets : CMedianFilter
  nTimeOffset : Int
  fDone : Bool
  strMiscWarning : String

namespace TimeData

def start : TimeData :=
  ⟨[], .new 200 0, 0, false, ""⟩

def clockWarning : String :=
  "Warning: Please check that your computer's date and time are correct! " ++
    "If your clock is wrong Reddcoin Core will not work properly."

/-- The change of the offset. -/
def update (s : TimeData) (nMedian : Int) : TimeData :=
  -- Only let other nodes change our time by so much.
  if abs64 nMedian < 70 * 60 then { s with nTimeOffset := nMedian }
  else
    let fMatch := s.vTimeOffsets.vSorted.any fun nOffset => nOffset ≠ 0 && abs64 nOffset < 5 * 60
    if !s.fDone && !fMatch then { s with nTimeOffset := 0, fDone := true, strMiscWarning := clockWarning }
    else { s with nTimeOffset := 0 }

def addTimeData (s : TimeData) (c : TimeCall) : Option TimeData :=
  if c.ip ∈ s.setKnown then some s
  else
    let s := { s with setKnown := c.ip :: s.setKnown, vTimeOffsets := s.vTimeOffsets.input c.sample }
    let size := s.vTimeOffsets.vValues.length
    if 5 ≤ size ∧ size % 2 = 1 then s.vTimeOffsets.median.map s.update else some s

def run (s : TimeData) (calls : List TimeCall) : Option TimeData :=
  calls.foldlM addTimeData s

/-! ## The offset of a history -/

/-- The samples of the addresses that are not known yet, in the order in which they come. -/
def firsts : List CNetAddr → List TimeCall → List Int
  | _, [] => []
  | known, c :: calls => if c.ip ∈ known then firsts known calls else c.sample :: firsts (c.ip :: known) calls

/-- The samples of the distinct addresses, behind the initial zero. -/
def samples (calls : List TimeCall) : List Int :=
  0 :: firsts [] calls

/-- A number of samples at which the offset is set. -/
def Decides (n : Nat) : Prop :=
  5 ≤ n ∧ n < 200 ∧ n % 2 = 1

/-- The offset for a median. -/
def capped (nMedian : Int) : Int :=
  if abs64 nMedian < 70 * 60 then nMedian else 0

/-- The offset after all samples: that of the greatest odd number of them within the window. -/
def offsetOf (all : List Int) : Int :=
  let n := (min all.length 200 - 1) / 2 * 2 + 1
  if n < 5 then 0 else ((Median.median (all.take n)).map capped).getD 0

variable {s s' : TimeData} {calls : List TimeCall} {c : TimeCall} {all : List Int}

theorem update_eq (s : TimeData) (nMedian : Int) :
    ∃ done text, s.update nMedian = { s with nTimeOffset := capped nMedian, fDone := done, strMiscWarning := text } := by
  unfold update capped
  dsimp only
  split_ifs
  · exact ⟨_, _, rfl⟩
  · exact ⟨_, _, rfl⟩
  · exact ⟨_, _, rfl⟩

/-- The state belongs to the samples of the known addresses. -/
structure Follows (s : TimeData) (all : List Int) : Prop where
  values : s.vTimeOffsets.vValues = all.drop (all.length - 200)
  size : s.vTimeOffsets.nSize = 200
  offset : s.nTimeOffset = offsetOf all

theorem Follows.addTimeData (h : s.Follows all) (hnew : c.ip ∉ s.setKnown) :
    ∃ s', s.addTimeData c = some s' ∧ s'.setKnown = c.ip :: s.setKnown ∧ s'.Follows (all ++ [c.sample]) := by
  have hvalues : (s.vTimeOffsets.input c.sample).vValues =
      (all ++ [c.sample]).drop ((all ++ [c.sample]).length - 200) := by
    have hlength := length_drop (i := all.length - 200) (l := all)
    rw [CMedianFilter.input, h.values, h.size, length_append, length_singleton]
    dsimp only
    rcases Nat.lt_or_ge all.length 200 with hlt | hge
    · have hzero : all.length - 200 = 0 ∧ all.length + 1 - 200 = 0 := by omega
      rw [if_neg (by omega), hzero.1, hzero.2, drop_zero, drop_zero]
    · have hshift : all.length - 200 + 1 = all.length + 1 - 200 := by omega
      rw [if_pos (by omega), tail_drop, hshift, drop_append_of_le_length (by omega)]
  have hsize : (s.vTimeOffsets.input c.sample).vValues.length = min (all.length + 1) 200 := by
    rw [hvalues, length_drop, length_append, length_singleton]
    omega
  rw [TimeData.addTimeData, if_neg hnew]
  dsimp only
  rw [hsize]
  split_ifs with hset
  · -- All samples are in the window, and their median decides.
    have hall : (s.vTimeOffsets.input c.sample).vSorted = (all ++ [c.sample]).insertionSort (· ≤ ·) := by
      show (s.vTimeOffsets.input c.sample).vValues.insertionSort (· ≤ ·) = _
      have hzero : all.length + 1 - 200 = 0 := by omega
      rw [hvalues, length_append, length_singleton, hzero, drop_zero]
    have hlength : ((all ++ [c.sample]).insertionSort (· ≤ ·)).length = all.length + 1 := by
      rw [length_insertionSort, length_append, length_singleton]
    have hmedian : (s.vTimeOffsets.input c.sample).median = Median.median (all ++ [c.sample]) := by
      rw [CMedianFilter.median, hall, Median.median, hlength, if_neg (by omega), if_pos (by omega), length_append,
        length_singleton]
    obtain ⟨m, hm⟩ : ∃ m, Median.median (all ++ [c.sample]) = some m :=
      ⟨_, getElem?_eq_getElem (by rw [hlength, length_append, length_singleton]; omega)⟩
    rw [hmedian, hm]
    obtain ⟨done, text, hupdate⟩ := update_eq
      { s with setKnown := c.ip :: s.setKnown, vTimeOffsets := s.vTimeOffsets.input c.sample } m
    refine ⟨_, congrArg some hupdate, rfl, hvalues, h.size, ?_⟩
    have hcount : (min (all.length + 1) 200 - 1) / 2 * 2 + 1 = all.length + 1 := by omega
    rw [offsetOf, length_append, length_singleton, hcount, if_neg (by omega),
      take_of_length_le (by rw [length_append, length_singleton]), hm]
    rfl
  · refine ⟨_, rfl, rfl, hvalues, h.size, h.offset.trans ?_⟩
    -- The greatest odd number of samples is what it was, or there are too few.
    have hsame : (min (all.length + 1) 200 - 1) / 2 * 2 + 1 = (min all.length 200 - 1) / 2 * 2 + 1 ∧
        (min all.length 200 - 1) / 2 * 2 + 1 ≤ all.length ∨
        (min (all.length + 1) 200 - 1) / 2 * 2 + 1 < 5 ∧ (min all.length 200 - 1) / 2 * 2 + 1 < 5 := by omega
    rw [offsetOf, offsetOf, length_append, length_singleton]
    rcases hsame with ⟨heq, hle⟩ | ⟨hnew, hold⟩
    · rw [heq, take_append_of_le_length hle]
    · rw [if_pos hnew, if_pos hold]

/-- The calls add the first samples of the addresses that are not known yet. -/
theorem Follows.run (h : s.Follows all) (calls : List TimeCall) :
    ∃ s', s.run calls = some s' ∧ s'.Follows (all ++ firsts s.setKnown calls) ∧
      ∀ ip, ip ∈ s'.setKnown ↔ ip ∈ s.setKnown ∨ ip ∈ calls.map TimeCall.ip := by
  induction calls generalizing s all with
  | nil => exact ⟨s, rfl, by rw [firsts, append_nil]; exact h, fun ip => by simp⟩
  | cons c calls ih =>
    rw [firsts, TimeData.run, foldlM_cons]
    split_ifs with hknown
    · obtain ⟨s', hrun, hfollows, hset⟩ := ih h
      rw [TimeData.addTimeData, if_pos hknown]
      refine ⟨s', hrun, hfollows, fun ip => ?_⟩
      rw [hset, map_cons, mem_cons]
      exact ⟨fun h => h.imp id .inr, fun h => h.elim .inl fun h => h.elim (fun h => .inl (h ▸ hknown)) .inr⟩
    · obtain ⟨t, hadd, hknown', ht⟩ := h.addTimeData hknown
      obtain ⟨s', hrun, hfollows, hset⟩ := ih ht
      rw [append_assoc, hknown'] at hfollows
      rw [hadd]
      refine ⟨s', hrun, hfollows, fun ip => ?_⟩
      rw [hset, hknown', mem_cons, map_cons, mem_cons, or_assoc, or_left_comm]

theorem run_start (calls : List TimeCall) :
    ∃ s, start.run calls = some s ∧ s.nTimeOffset = offsetOf (samples calls) ∧
      ∀ ip, ip ∈ s.setKnown ↔ ip ∈ calls.map TimeCall.ip := by
  have hstart : start.Follows [0] := ⟨rfl, rfl, rfl⟩
  obtain ⟨s, hrun, hfollows, hset⟩ := hstart.run calls
  exact ⟨s, hrun, hfollows.offset, fun ip => by rw [hset]; simp [start]⟩

/-! ## What bounds the offset -/

/-- Either too few samples have come, or an odd number of them has decided. -/
theorem offsetOf_cases (all : List Int) :
    offsetOf all = 0 ∨ ∃ n m, Decides n ∧ n ≤ all.length ∧ Median.median (all.take n) = some m ∧
      offsetOf all = capped m := by
  rw [offsetOf]
  generalize hn : (min all.length 200 - 1) / 2 * 2 + 1 = n
  split_ifs with hfew
  · exact .inl rfl
  · have hlength : (all.take n).length = n := length_take_of_le (by omega)
    obtain ⟨m, hm⟩ : ∃ m, Median.median (all.take n) = some m :=
      ⟨_, getElem?_eq_getElem (by rw [length_insertionSort, hlength]; omega)⟩
    rw [hm]
    exact .inr ⟨n, m, ⟨by omega, by omega, by omega⟩, by omega, hm, rfl⟩

/-- At an odd number of samples within the window, all of them decide. -/
theorem offsetOf_take {n : Nat} (hn : Decides n) (hle : n ≤ all.length) :
    ∃ m, Median.median (all.take n) = some m ∧ offsetOf (all.take n) = capped m := by
  obtain ⟨hfew, hmany, hodd⟩ := hn
  have hlength : (all.take n).length = n := length_take_of_le hle
  have hcount : (min n 200 - 1) / 2 * 2 + 1 = n := by omega
  obtain ⟨m, hm⟩ : ∃ m, Median.median (all.take n) = some m :=
    ⟨_, getElem?_eq_getElem (by rw [length_insertionSort, hlength]; omega)⟩
  rw [offsetOf, hlength, hcount, take_take, min_self, if_neg (by omega), hm]
  exact ⟨m, rfl, rfl⟩

theorem mem_firsts {known : List CNetAddr} {x : Int} (hx : x ∈ firsts known calls) : -2 ^ 63 ≤ x ∧ x < 2 ^ 63 := by
  induction calls generalizing known with
  | nil => cases hx
  | cons c calls ih =>
    rw [firsts] at hx
    split_ifs at hx
    · exact ih hx
    · rcases mem_cons.mp hx with rfl | hx
      · exact c.fits
      · exact ih hx

theorem mem_samples {x : Int} (hx : x ∈ samples calls) : -2 ^ 63 ≤ x ∧ x < 2 ^ 63 := by
  rcases mem_cons.mp hx with rfl | hx
  · decide
  · exact mem_firsts hx

/-- The calls up to some point have brought any number of the samples. -/
theorem firsts_take {known : List CNetAddr} {n : Nat} (hn : n ≤ (firsts known calls).length) :
    ∃ k, firsts known (calls.take k) = (firsts known calls).take n := by
  induction calls generalizing known n with
  | nil => exact ⟨0, by rw [Nat.le_zero.mp hn]; rfl⟩
  | cons c calls ih =>
    cases n with
    | zero => exact ⟨0, by rw [take_zero, take_zero, firsts]⟩
    | succ n =>
      rw [firsts] at hn ⊢
      split_ifs at hn ⊢ with hknown
      · obtain ⟨k, hk⟩ := ih hn
        exact ⟨k + 1, by rw [take_succ_cons, firsts, if_pos hknown, hk]⟩
      · obtain ⟨k, hk⟩ := ih (Nat.succ_le_succ_iff.mp hn)
        exact ⟨k + 1, by rw [take_succ_cons, firsts, if_neg hknown, hk, take_succ_cons]⟩

theorem firsts_prefix (known : List CNetAddr) (calls more : List TimeCall) :
    firsts known calls <+: firsts known (calls ++ more) := by
  induction calls generalizing known with
  | nil => exact nil_prefix
  | cons c calls ih =>
    rw [cons_append, firsts, firsts]
    split_ifs
    · exact ih _
    · exact cons_prefix_cons.mpr ⟨rfl, ih _⟩

/-- The one number whose absolute value is none passes for a small one. -/
theorem capped_lt_iff {m : Int} (hm : -2 ^ 63 ≤ m ∧ m < 2 ^ 63) :
    (-(70 * 60) < capped m ∧ capped m < 70 * 60) ↔ m ≠ -2 ^ 63 := by
  unfold capped abs64
  rcases eq_or_ne m (-2 ^ 63) with rfl | hne
  · decide
  · have hneg : m < 0 → wrap64 (-m) = -m := fun h => wrap64_of_range (by omega) (by omega)
    constructor
    · exact fun _ => hne
    · intro _
      split_ifs <;> omega

/-- More than half of the first samples are the least 64-bit number, when their number is odd and within the window. -/
def Stuck (all : List Int) : Prop :=
  ∃ n, Decides n ∧ n ≤ all.length ∧ n < 2 * (all.take n).count (-2 ^ 63)

/-- At every odd number of samples within the window, more than half of them are in the interval. -/
def MostWithin (a b : Int) (all : List Int) : Prop :=
  ∀ n, Decides n → n ≤ all.length → n < 2 * (all.take n).countP fun x => a ≤ x ∧ x ≤ b

theorem offsetOf_within {a b : Int} (ha : a ≤ 0) (hb : 0 ≤ b) (hmost : MostWithin a b all) :
    a ≤ offsetOf all ∧ offsetOf all ≤ b := by
  rcases offsetOf_cases all with h | ⟨n, m, hn, hle, hm, h⟩
  · rw [h]
    exact ⟨ha, hb⟩
  · have hlength : (all.take n).length = n := length_take_of_le hle
    have hcount := hmost n hn hle
    have hlow : (all.take n).countP (fun x => a ≤ x ∧ x ≤ b) ≤ (all.take n).countP (a ≤ ·) :=
      countP_mono_left fun x _ h => decide_eq_true (of_decide_eq_true h).1
    have hhigh : (all.take n).countP (fun x => a ≤ x ∧ x ≤ b) ≤ (all.take n).countP (· ≤ b) :=
      countP_mono_left fun x _ h => decide_eq_true (of_decide_eq_true h).2
    have ham := Median.le_median (a := a) hm (by omega)
    have hmb := Median.median_le (a := b) hm (by omega)
    rw [h, capped]
    split_ifs
    · exact ⟨ham, hmb⟩
    · exact ⟨ha, hb⟩

/-- The offset is small after every part of the samples only if the least number never has the majority. -/
theorem offsetOf_lt_iff (hrange : ∀ x ∈ all, -2 ^ 63 ≤ x ∧ x < 2 ^ 63) :
    (∀ n ≤ all.length, -(70 * 60) < offsetOf (all.take n) ∧ offsetOf (all.take n) < 70 * 60) ↔ ¬ Stuck all := by
  have hiff : ∀ n m, Decides n → n ≤ all.length → Median.median (all.take n) = some m →
      ((-(70 * 60) < capped m ∧ capped m < 70 * 60) ↔ ¬ n < 2 * (all.take n).count (-2 ^ 63)) := by
    intro n m hn hle hm
    have hlength : (all.take n).length = n := length_take_of_le hle
    have hleast := Median.median_least_iff (a := -2 ^ 63) hm (by rw [hlength]; exact hn.2.2)
      fun x hx => (hrange x (mem_of_mem_take hx)).1
    obtain ⟨low, high, hperm, -⟩ := Median.split_at hm
    have hmem : m ∈ all := mem_of_mem_take (hperm.mem_iff.mp (mem_append_right _ mem_cons_self))
    rw [capped_lt_iff (hrange m hmem), Ne, hleast, hlength]
  constructor
  · rintro hsmall ⟨n, hn, hle, hmost⟩
    obtain ⟨m, hm, hoffset⟩ := offsetOf_take hn hle
    have hn' := hsmall n hle
    rw [hoffset] at hn'
    exact (hiff n m hn hle hm).mp hn' hmost
  · intro hfree n hle
    rcases offsetOf_cases (all.take n) with h | ⟨k, m, hk, hkn, hm, h⟩
    · rw [h]
      decide
    · rw [length_take_of_le hle] at hkn
      rw [take_take, Nat.min_eq_left hkn] at hm
      rw [h, hiff k m hk (hkn.trans hle) hm]
      exact fun hmost => hfree ⟨k, hk, hkn.trans hle, hmost⟩

/-- The offset stays small in every history in which the least 64-bit number never has the majority; a majority of the
samples in an interval keeps it there, and a known address changes nothing. -/
theorem networkTime_iff (calls : List TimeCall) :
    ((∀ k, ∃ s, start.run (calls.take k) = some s ∧ -(70 * 60) < s.nTimeOffset ∧ s.nTimeOffset < 70 * 60) ↔
      ¬ Stuck (samples calls)) ∧
    (∀ a b, a ≤ 0 → 0 ≤ b → MostWithin a b (samples calls) →
      ∃ s, start.run calls = some s ∧ a ≤ s.nTimeOffset ∧ s.nTimeOffset ≤ b) ∧
    ∀ c : TimeCall, c.ip ∈ calls.map TimeCall.ip → start.run (calls ++ [c]) = start.run calls := by
  refine ⟨?_, fun a b ha hb hmost => ?_, fun c hc => ?_⟩
  · rw [← offsetOf_lt_iff fun x hx => mem_samples hx]
    constructor
    · intro hruns n hle
      cases n with
      | zero =>
        rw [take_zero]
        decide
      | succ n =>
        obtain ⟨k, hk⟩ := firsts_take (Nat.succ_le_succ_iff.mp hle)
        obtain ⟨s, hrun, hsmall⟩ := hruns k
        obtain ⟨s', hrun', hoffset, -⟩ := run_start (calls.take k)
        cases hrun.symm.trans hrun'
        rw [hoffset, samples, hk] at hsmall
        exact hsmall
    · intro hsmall k
      obtain ⟨s, hrun, hoffset, -⟩ := run_start (calls.take k)
      have hprefix := firsts_prefix [] (calls.take k) (calls.drop k)
      rw [take_append_drop] at hprefix
      have hpart : samples (calls.take k) <+: samples calls := cons_prefix_cons.mpr ⟨rfl, hprefix⟩
      have hk := hsmall _ hpart.length_le
      rw [← prefix_iff_eq_take.mp hpart, ← hoffset] at hk
      exact ⟨s, hrun, hk⟩
  · obtain ⟨s, hrun, hoffset, -⟩ := run_start calls
    exact ⟨s, hrun, hoffset ▸ offsetOf_within ha hb hmost⟩
  · obtain ⟨s, hrun, -, hset⟩ := run_start calls
    have hstay : s.addTimeData c = some s := if_pos ((hset c.ip).mpr hc)
    rw [run, foldlM_append, ← run, hrun]
    exact congrArg (Option.bind · some) hstay

/-- Four peers say that it is 2 ^ 63 seconds earlier. -/
def earlyCalls : List TimeCall :=
  [1, 2, 3, 4].map fun n => ⟨⟨List.replicate 15 0 ++ [n], rfl⟩, -2 ^ 63 + 1400000000, 1400000000, by decide⟩

/-- They set the offset to it. -/
theorem offset_escapes :
    ¬ ∀ calls : List TimeCall,
      ∃ s, start.run calls = some s ∧ -(70 * 60) < s.nTimeOffset ∧ s.nTimeOffset < 70 * 60 := by
  intro h
  obtain ⟨s, hrun, hsmall, -⟩ := h earlyCalls
  have hoffset : (start.run earlyCalls).map nTimeOffset = some (-2 ^ 63) := by
    decide +kernel
  rw [hrun, Option.map_some, Option.some.injEq] at hoffset
  rw [hoffset] at hsmall
  exact absurd hsmall (by decide)

end TimeData

end Reddcoin
