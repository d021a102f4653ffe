import Mathlib.Data.List.GetD
import Mathlib.Data.List.Sort
import Reddcoin.Primitives.Transaction

/-!
# Fee estimates

`CMinerPolicyEstimator` keeps the fee rates of confirmed transactions in buckets by the time they took,
and a sorted list of all of them that `estimateFee` makes when it is asked and finds none.
-/

namespace Reddcoin

/-! ## Fee rates -/

structure CFeeRate where
  nSatoshisPerK : Int
deriving DecidableEq

namespace CFeeRate

/-- The constructor from a fee and a size: the product is an `int64_t`, the quotient a `size_t`. -/
def ofPaid (nFeePaid : Int) (nSize : Nat) : CFeeRate :=
  if 0 < nSize then ⟨wrap64 (wrap64 (nFeePaid * 1000) % 2 ^ 64 / nSize)⟩ else ⟨0⟩

def getFee (rate : CFeeRate) (nSize : Nat) : Int :=
  let nFee := wrap64 (rate.nSatoshisPerK * nSize % 2 ^ 64 / 1000)
  if nFee = 0 ∧ 0 < rate.nSatoshisPerK then rate.nSatoshisPerK else nFee

def getFeePerK (rate : CFeeRate) : Int :=
  rate.getFee 1000

instance : LinearOrder CFeeRate :=
  LinearOrder.lift' nSatoshisPerK fun a b h => by
    cases a
    cases b
    exact congrArg CFeeRate.mk h

end CFeeRate

/-! ## Circular buffers -/

/-- `boost::circular_buffer`, the oldest element first. -/
structure CircularBuffer (α : Type) (capacity : Nat) where
  toList : List α
  fits : toList.length ≤ capacity

namespace CircularBuffer

variable {α : Type} {capacity : Nat}

def empty : CircularBuffer α capacity := ⟨[], Nat.zero_le _⟩

theorem length_drop_sub_le (l : List α) (capacity : Nat) :
    (l.drop (l.length - capacity)).length ≤ capacity := by
  rw [List.length_drop]
  omega

/-- `insert` of a range at the end, and `push_back` for a range of one: the oldest elements give way. -/
def insertEnd (buffer : CircularBuffer α capacity) (xs : List α) : CircularBuffer α capacity :=
  ⟨(buffer.toList ++ xs).drop ((buffer.toList ++ xs).length - capacity), length_drop_sub_le _ _⟩

end CircularBuffer

/-! ## Buckets -/

/-- What the estimator does with priorities, which are of type `double`. -/
structure Priorities (P : Type) where
  allowFree : P → Bool
  negative : P → Bool
  /-- `std::sort` by `std::greater`. -/
  sort : List P → List P
  /-- -1, for no estimate. -/
  none : P

structure CBlockAverage (P : Type) where
  feeSamples : CircularBuffer CFeeRate 100
  prioritySamples : CircularBuffer P 100

namespace CBlockAverage

variable {P : Type}

def new : CBlockAverage P where
  feeSamples := .empty
  prioritySamples := .empty

def recordFee (average : CBlockAverage P) (feeRate : CFeeRate) : CBlockAverage P :=
  { average with feeSamples := average.feeSamples.insertEnd [feeRate] }

def recordPriority (average : CBlockAverage P) (priority : P) : CBlockAverage P :=
  { average with prioritySamples := average.prioritySamples.insertEnd [priority] }

def nFeeSamples (average : CBlockAverage P) : Nat := average.feeSamples.toList.length

def nPrioritySamples (average : CBlockAverage P) : Nat := average.prioritySamples.toList.length

def areSane (vecFee : List CFeeRate) (minRelayFee : CFeeRate) : Bool :=
  vecFee.all fun fee =>
    !decide (fee.nSatoshisPerK < 0) &&
      !decide (fee.getFeePerK > wrap64 (minRelayFee.getFeePerK * 10000))

/-- `Read` of the two vectors of an entry; nothing if it throws. -/
def read (p : Priorities P) (minRelayFee : CFeeRate) (vecs : List CFeeRate × List P) :
    Option (CBlockAverage P) :=
  if areSane vecs.1 minRelayFee then
    if vecs.2.all (fun priority => !p.negative priority) then
      some
        { feeSamples := CircularBuffer.empty.insertEnd vecs.1
          prioritySamples := CircularBuffer.empty.insertEnd vecs.2 }
    else none
  else none

end CBlockAverage

/-! ## The estimator -/

/-- What the estimator reads of a `CTxMemPoolEntry`. -/
structure EstimatorEntry (P : Type) where
  nFee : Int
  nTxSize : Nat
  nHeight : Nat
  /-- `GetPriority(GetHeight())`. -/
  priority : P

/-- The contents of a file of estimates, as far as its bytes go. -/
structure EstimatesFile (P : Type) where
  nBestSeenHeight : Int
  numEntries : Nat
  entries : List (List CFeeRate × List P)

structure CMinerPolicyEstimator (P : Type) where
  history : List (CBlockAverage P)
  sortedFeeSamples : List CFeeRate
  sortedPrioritySamples : List P
  nBestSeenHeight : Int

namespace CMinerPolicyEstimator

variable {P : Type} (p : Priorities P)

def new (nEntries : Nat) : CMinerPolicyEstimator P where
  history := List.replicate nEntries .new
  sortedFeeSamples := []
  sortedPrioritySamples := []
  nBestSeenHeight := 0

/-! ### Estimates -/

def allFeeSamples (history : List (CBlockAverage P)) : List CFeeRate :=
  history.flatMap fun average => average.feeSamples.toList

/-- `estimateFee` fills an empty `sortedFeeSamples`. -/
def sortFeeSamples (e : CMinerPolicyEstimator P) : CMinerPolicyEstimator P :=
  if e.sortedFeeSamples.length = 0 then
    { e with sortedFeeSamples := (allFeeSamples e.history).insertionSort (· ≥ ·) }
  else e

def estimateFee (e : CMinerPolicyEstimator P) (nBlocksToConfirm : Int) :
    CFeeRate × CMinerPolicyEstimator P :=
  let nBlocksToConfirm := nBlocksToConfirm - 1
  if nBlocksToConfirm < 0 ∨ nBlocksToConfirm ≥ e.history.length then (⟨0⟩, e)
  else
    let e := e.sortFeeSamples
    if e.sortedFeeSamples.length < 11 then (⟨0⟩, e)
    else
      let nBucketSize := ((e.history[nBlocksToConfirm.toNat]?).map CBlockAverage.nFeeSamples).getD 0
      let nPrevSize := ((e.history.take nBlocksToConfirm.toNat).map CBlockAverage.nFeeSamples).sum
      let index := min (nPrevSize + nBucketSize / 2) (e.sortedFeeSamples.length - 1)
      (e.sortedFeeSamples.getD index ⟨0⟩, e)

def estimatePriority (e : CMinerPolicyEstimator P) (nBlocksToConfirm : Int) :
    P × CMinerPolicyEstimator P :=
  let nBlocksToConfirm := nBlocksToConfirm - 1
  if nBlocksToConfirm < 0 ∨ nBlocksToConfirm ≥ e.history.length then (p.none, e)
  else
    let sortedPrioritySamples :=
      if e.sortedPrioritySamples.length = 0 then
        p.sort (e.history.flatMap fun average => average.prioritySamples.toList)
      else e.sortedPrioritySamples
    let e := { e with sortedPrioritySamples := sortedPrioritySamples }
    if sortedPrioritySamples.length < 11 then (p.none, e)
    else
      let nBucketSize :=
        ((e.history[nBlocksToConfirm.toNat]?).map CBlockAverage.nPrioritySamples).getD 0
      let nPrevSize :=
        ((e.history.take nBlocksToConfirm.toNat).map CBlockAverage.nPrioritySamples).sum
      let index := min (nPrevSize + nBucketSize / 2) (sortedPrioritySamples.length - 1)
      (sortedPrioritySamples.getD index p.none, e)

/-! ### Blocks -/

def seenTxConfirm (history : List (CBlockAverage P)) (feeRate minRelayFee : CFeeRate) (dPriority : P)
    (nBlocksAgo : Nat) : List (CBlockAverage P) :=
  let nBlocksTruncated := min nBlocksAgo (history.length - 1)
  let sufficientFee := decide (feeRate.nSatoshisPerK > minRelayFee.nSatoshisPerK)
  let sufficientPriority := p.allowFree dPriority
  if sufficientFee && !sufficientPriority then
    history.modify nBlocksTruncated (·.recordFee feeRate)
  else if sufficientPriority && !sufficientFee then
    history.modify nBlocksTruncated (·.recordPriority dPriority)
  else history

/-- The number of the bucket of an entry.  The difference of the heights is computed in 32 bits. -/
def bucketOf (nBuckets : Nat) (nBlockHeight : Int) (entry : EstimatorEntry P) : Option Nat :=
  let delta := Int.bmod (nBlockHeight - entry.nHeight) (2 ^ 32)
  if delta ≤ 0 then none
  else if delta - 1 ≥ nBuckets then some (nBuckets - 1)
  else some (delta - 1).toNat

def entriesByConfirmations (nBuckets : Nat) (nBlockHeight : Int) (entries : List (EstimatorEntry P)) :
    List (List (EstimatorEntry P)) :=
  entries.foldl (fun buckets entry =>
    match bucketOf nBuckets nBlockHeight entry with
    | none => buckets
    | some i => buckets.modify i (· ++ [entry])) (List.replicate nBuckets [])

/-- The loop over the buckets.  `shuffle` is what `random_shuffle` makes of a bucket. -/
def recordEntries (minRelayFee : CFeeRate) (shuffle : Nat → List (EstimatorEntry P) → List (EstimatorEntry P)) :
    Nat → List (List (EstimatorEntry P)) → List (CBlockAverage P) → List (CBlockAverage P)
  | _, [], history => history
  | i, bucket :: buckets, history =>
    let bucket := if bucket.length > 10 then (shuffle i bucket).take 10 else bucket
    let history := bucket.foldl (fun history entry =>
      seenTxConfirm p history (CFeeRate.ofPaid entry.nFee entry.nTxSize) minRelayFee entry.priority i)
      history
    recordEntries minRelayFee shuffle (i + 1) buckets history

/-- The log lines at the end of `seenBlock`: their arguments are evaluated even if nothing is logged. -/
def logEstimates : List Nat → CMinerPolicyEstimator P → CMinerPolicyEstimator P
  | [], e => e
  | i :: rest, e =>
    let nSamples :=
      ((e.history[i]?).map fun average => average.nFeeSamples + average.nPrioritySamples).getD 0
    if nSamples > 0 then
      logEstimates rest ((e.estimateFee (i + 1)).2.estimatePriority p (i + 1)).2
    else logEstimates rest e

def seenBlock (e : CMinerPolicyEstimator P) (entries : List (EstimatorEntry P)) (nBlockHeight : Int)
    (minRelayFee : CFeeRate) (shuffle : Nat → List (EstimatorEntry P) → List (EstimatorEntry P)) :
    CMinerPolicyEstimator P :=
  if nBlockHeight ≤ e.nBestSeenHeight then e
  else
    let history := recordEntries p minRelayFee shuffle 0
      (entriesByConfirmations e.history.length nBlockHeight entries) e.history
    logEstimates p (List.range history.length)
      { history := history
        sortedFeeSamples := []
        sortedPrioritySamples := []
        nBestSeenHeight := nBlockHeight }

/-! ### Files -/

def readHistory (minRelayFee : CFeeRate) :
    Nat → List (List CFeeRate × List P) → Option (List (CBlockAverage P))
  | 0, _ => some []
  | _ + 1, [] => none
  | n + 1, vecs :: rest => do
    let entry ← CBlockAverage.read p minRelayFee vecs
    let fileHistory ← readHistory minRelayFee n rest
    pure (entry :: fileHistory)

/-- What `Read` gets out of a file; nothing if it throws. -/
def fileHistory (file : EstimatesFile P) (minRelayFee : CFeeRate) : Option (List (CBlockAverage P)) :=
  if file.numEntries ≤ 0 ∨ file.numEntries > 10000 then none
  else readHistory p minRelayFee file.numEntries file.entries

def read (e : CMinerPolicyEstimator P) (file : EstimatesFile P) (minRelayFee : CFeeRate) :
    CMinerPolicyEstimator P :=
  match fileHistory p file minRelayFee with
  | none => e
  | some fileHistory => { e with nBestSeenHeight := file.nBestSeenHeight, history := fileHistory }

/-! ### Runs -/

inductive Call (P : Type) where
  | seenBlock (entries : List (EstimatorEntry P)) (nBlockHeight : Int) (minRelayFee : CFeeRate)
      (shuffle : Nat → List (EstimatorEntry P) → List (EstimatorEntry P))
  | read (file : EstimatesFile P) (minRelayFee : CFeeRate)
  | estimateFee (nBlocksToConfirm : Int)
  | estimatePriority (nBlocksToConfirm : Int)

def call (e : CMinerPolicyEstimator P) : Call P → CMinerPolicyEstimator P
  | .seenBlock entries nBlockHeight minRelayFee shuffle =>
    e.seenBlock p entries nBlockHeight minRelayFee shuffle
  | .read file minRelayFee => e.read p file minRelayFee
  | .estimateFee nBlocksToConfirm => (e.estimateFee nBlocksToConfirm).2
  | .estimatePriority nBlocksToConfirm => (e.estimatePriority p nBlocksToConfirm).2

end CMinerPolicyEstimator

end Reddcoin

/-!
## Estimates are of the samples in the history

A block empties the sorted list and a call that finds it empty makes it anew.  A file that is read while
the list is not empty leaves it as it was.
-/

namespace Reddcoin

namespace CMinerPolicyEstimator

variable {P : Type} (p : Priorities P)

/-- The number of samples in the buckets before bucket `n`. -/
def samplesBefore (history : List (CBlockAverage P)) (n : Nat) : Nat :=
  ((history.take (n - 1)).map CBlockAverage.nFeeSamples).sum

def samplesIn (history : List (CBlockAverage P)) (n : Nat) : Nat :=
  ((history[n - 1]?).map CBlockAverage.nFeeSamples).getD 0

/-- What an estimate for `n` blocks should be: a place in the decreasing list of all samples. -/
def Estimates (history : List (CBlockAverage P)) (n : Nat) (rate : CFeeRate) : Prop :=
  ∃ samples : List CFeeRate, samples.Perm (allFeeSamples history) ∧ samples.Pairwise (· ≥ ·) ∧
    rate = if samples.length < 11 then ⟨0⟩
      else samples.getD (min (samplesBefore history n + samplesIn history n / 2) (samples.length - 1)) ⟨0⟩

theorem Estimates.unique {history : List (CBlockAverage P)} {n : Nat} {rate rate' : CFeeRate}
    (h : Estimates history n rate) (h' : Estimates history n rate') : rate = rate' := by
  obtain ⟨samples, hperm, hsorted, rfl⟩ := h
  obtain ⟨samples', hperm', hsorted', rfl⟩ := h'
  have hsame : samples = samples' := (hperm.trans hperm'.symm).eq_of_pairwise' hsorted hsorted'
  rw [hsame]

/-! ## Later buckets are further down the list -/

theorem samplesBefore_succ (history : List (CBlockAverage P)) {n : Nat} (hn : 1 ≤ n) :
    samplesBefore history (n + 1) = samplesBefore history n + samplesIn history n := by
  obtain ⟨k, rfl⟩ : ∃ k, n = k + 1 := ⟨n - 1, by omega⟩
  unfold samplesBefore samplesIn
  rw [Nat.add_sub_cancel, Nat.add_sub_cancel, List.take_add_one, List.map_append, List.sum_append]
  cases history[k]? with
  | none => rfl
  | some average => simp

theorem samplesBefore_mono (history : List (CBlockAverage P)) {m n : Nat} (hm : 1 ≤ m) (hmn : m ≤ n) :
    samplesBefore history m ≤ samplesBefore history n := by
  induction hmn with
  | refl => exact Nat.le_refl _
  | @step k hmk ih =>
    rw [samplesBefore_succ history (Nat.le_trans hm hmk)]
    omega

theorem getD_antitone {samples : List CFeeRate} (hsorted : samples.Pairwise (· ≥ ·)) {i j : Nat}
    (hij : i ≤ j) (hj : j < samples.length) : samples.getD j ⟨0⟩ ≤ samples.getD i ⟨0⟩ := by
  have hi : i < samples.length := by omega
  rw [List.getD_eq_getElem _ _ hi, List.getD_eq_getElem _ _ hj]
  rcases Nat.eq_or_lt_of_le hij with rfl | hlt
  · exact le_refl _
  · exact List.pairwise_iff_getElem.mp hsorted i j hi hj hlt

theorem Estimates.antitone {history : List (CBlockAverage P)} {m n : Nat} (hm : 1 ≤ m) (hmn : m ≤ n)
    {rate rate' : CFeeRate} (h : Estimates history m rate) (h' : Estimates history n rate') :
    rate' ≤ rate := by
  rcases Nat.eq_or_lt_of_le hmn with rfl | hlt
  · exact le_of_eq (h'.unique h)
  · obtain ⟨samples, hperm, hsorted, rfl⟩ := h
    have hplace := samplesBefore_mono history (show 1 ≤ m + 1 by omega) hlt
    rw [samplesBefore_succ history hm] at hplace
    refine le_of_eq_of_le (h'.unique ⟨samples, hperm, hsorted, rfl⟩) ?_
    split_ifs with hfew
    · exact le_refl _
    · exact getD_antitone hsorted (by omega) (by omega)

/-! ## The sorted list -/

def sortedSamples (history : List (CBlockAverage P)) : List CFeeRate :=
  (allFeeSamples history).insertionSort (· ≥ ·)

/-- The sorted list is empty or up to date. -/
def Current (e : CMinerPolicyEstimator P) : Prop :=
  e.sortedFeeSamples = [] ∨ e.sortedFeeSamples = sortedSamples e.history

theorem sortFeeSamples_history (e : CMinerPolicyEstimator P) : e.sortFeeSamples.history = e.history := by
  unfold sortFeeSamples
  split_ifs <;> rfl

section

variable {e : CMinerPolicyEstimator P} (h : e.Current)

include h

theorem Current.sortFeeSamples : e.sortFeeSamples.sortedFeeSamples = sortedSamples e.history := by
  unfold CMinerPolicyEstimator.sortFeeSamples
  split_ifs with hempty
  · rfl
  · exact h.resolve_left fun hnil => hempty (by rw [hnil]; rfl)

theorem Current.estimates {n : Nat} (hn : 1 ≤ n)
    (hlen : n ≤ e.history.length) : Estimates e.history n (e.estimateFee n).1 := by
  refine ⟨sortedSamples e.history, List.perm_insertionSort _ _, List.pairwise_insertionSort _ _, ?_⟩
  have hplace : ((n : Int) - 1).toNat = n - 1 := by omega
  unfold estimateFee
  dsimp only
  rw [if_neg (by omega), hplace, h.sortFeeSamples, sortFeeSamples_history]
  split_ifs <;> rfl

theorem Current.estimateFee (n : Int) : (e.estimateFee n).2.Current := by
  have hsorted : e.sortFeeSamples.Current := by
    refine .inr ?_
    rw [h.sortFeeSamples, sortFeeSamples_history]
  unfold CMinerPolicyEstimator.estimateFee
  dsimp only
  split_ifs
  · exact h
  · exact hsorted
  · exact hsorted

end

/-- An estimate of a priority has its own list. -/
theorem estimatePriority_frame (e : CMinerPolicyEstimator P) (n : Int) :
    (e.estimatePriority p n).2.history = e.history ∧
      (e.estimatePriority p n).2.sortedFeeSamples = e.sortedFeeSamples := by
  unfold estimatePriority
  dsimp only
  split_ifs <;> exact ⟨rfl, rfl⟩

theorem Current.estimatePriority {e : CMinerPolicyEstimator P} (h : e.Current) (n : Int) :
    (e.estimatePriority p n).2.Current := by
  obtain ⟨hhistory, hsorted⟩ := estimatePriority_frame p e n
  unfold Current
  rw [hhistory, hsorted]
  exact h

theorem Current.logEstimates {e : CMinerPolicyEstimator P} (h : e.Current) (buckets : List Nat) :
    (logEstimates p buckets e).Current := by
  induction buckets generalizing e with
  | nil => exact h
  | cons i rest ih =>
    unfold CMinerPolicyEstimator.logEstimates
    dsimp only
    split_ifs
    · exact ih ((h.estimateFee _).estimatePriority p _)
    · exact ih h

/-! ## Runs -/

/-- A file is read into an estimator whose sorted list is empty or already that of the file. -/
def ReadFresh (e : CMinerPolicyEstimator P) : Call P → Prop
  | .read file minRelayFee => ∀ history, fileHistory p file minRelayFee = some history →
      e.sortedFeeSamples = [] ∨ e.sortedFeeSamples = sortedSamples history
  | _ => True

def ReadsFresh : CMinerPolicyEstimator P → List (Call P) → Prop
  | _, [] => True
  | e, c :: rest => e.ReadFresh p c ∧ ReadsFresh (e.call p c) rest

theorem Current.call {e : CMinerPolicyEstimator P} (h : e.Current) {c : Call P} (hc : e.ReadFresh p c) :
    (e.call p c).Current := by
  cases c with
  | seenBlock entries nBlockHeight minRelayFee shuffle =>
    show (e.seenBlock p entries nBlockHeight minRelayFee shuffle).Current
    unfold seenBlock
    split_ifs
    · exact h
    · exact Current.logEstimates p (.inl rfl) _
  | read file minRelayFee =>
    show (e.read p file minRelayFee).Current
    unfold read
    cases hfile : fileHistory p file minRelayFee with
    | none => exact h
    | some history => exact hc history hfile
  | estimateFee n => exact h.estimateFee n
  | estimatePriority n => exact h.estimatePriority p n

theorem Current.calls {e : CMinerPolicyEstimator P} (h : e.Current) {calls : List (Call P)}
    (hcalls : ReadsFresh p e calls) : (calls.foldl (CMinerPolicyEstimator.call p) e).Current := by
  induction calls generalizing e with
  | nil => exact h
  | cons c rest ih => exact ih (h.call p hcalls.1) hcalls.2

/-- In a run whose files are read into an empty list, estimates are those of the history, do not increase
with the number of blocks and are the same for the same history. -/
theorem estimateFee_run (nEntries : Nat) (calls : List (Call P))
    (hcalls : ReadsFresh p (new nEntries) calls) :
    (∀ n : Nat, 1 ≤ n → n ≤ (calls.foldl (call p) (new nEntries)).history.length →
      Estimates (calls.foldl (call p) (new nEntries)).history n
        ((calls.foldl (call p) (new nEntries)).estimateFee n).1) ∧
    (∀ m n : Nat, 1 ≤ m → m ≤ n → n ≤ (calls.foldl (call p) (new nEntries)).history.length →
      ((calls.foldl (call p) (new nEntries)).estimateFee n).1 ≤
        ((calls.foldl (call p) (new nEntries)).estimateFee m).1) ∧
    ∀ (nEntries' : Nat) (calls' : List (Call P)), ReadsFresh p (new nEntries') calls' →
      (calls'.foldl (call p) (new nEntries')).history = (calls.foldl (call p) (new nEntries)).history →
      ∀ n : Nat, 1 ≤ n → n ≤ (calls.foldl (call p) (new nEntries)).history.length →
        ((calls'.foldl (call p) (new nEntries')).estimateFee n).1 =
          ((calls.foldl (call p) (new nEntries)).estimateFee n).1 := by
  have hcurrent : (calls.foldl (call p) (new nEntries)).Current := Current.calls p (.inl rfl) hcalls
  refine ⟨fun n hn hlen => hcurrent.estimates hn hlen, ?_, ?_⟩
  · intro m n hm hmn hlen
    exact (hcurrent.estimates hm (by omega)).antitone hm hmn (hcurrent.estimates (by omega) hlen)
  · intro nEntries' calls' hcalls' hhistory n hn hlen
    have hcurrent' : (calls'.foldl (call p) (new nEntries')).Current :=
      Current.calls p (.inl rfl) hcalls'
    have hestimates := hcurrent'.estimates hn (by rw [hhistory]; exact hlen)
    rw [hhistory] at hestimates
    exact hestimates.unique (hcurrent.estimates hn hlen)

namespace Example

/-- Priorities of which nothing is known. -/
def noPriorities : Priorities Unit where
  allowFree _ := false
  negative _ := false
  sort l := l
  none := ()

def fileOf (rate : Int) : EstimatesFile Unit where
  nBestSeenHeight := 1
  numEntries := 1
  entries := [(List.replicate 11 ⟨rate⟩, [])]

def blockOf (nHeight : Int) : Call Unit :=
  .seenBlock (List.replicate 8 ⟨500, 250, 0, ()⟩) nHeight ⟨1000⟩ fun _ bucket => bucket.reverse

end Example

open Example

/-- A file read at the start, then two blocks that fill one bucket. -/
theorem estimateFee_run_example :
    ∃ e : CMinerPolicyEstimator Unit, e = [.read (fileOf 1000) ⟨1000⟩, blockOf 2, blockOf 3].foldl
        (call noPriorities) (new 25) ∧
      Estimates e.history 1 (e.estimateFee 1).1 := by
  have hreads : ReadsFresh noPriorities (new 25)
      [.read (fileOf 1000) ⟨1000⟩, blockOf 2, blockOf 3] :=
    ⟨fun _ _ => .inl rfl, trivial, trivial, trivial⟩
  exact ⟨_, rfl, (estimateFee_run noPriorities 25 _ hreads).1 1 (by decide) (by decide)⟩

/-- After an estimate, a second file changes the samples and not the estimates. -/
theorem estimateFee_stale :
    ∃ e : CMinerPolicyEstimator Unit,
      e = [.read (fileOf 1000) ⟨1000⟩, .estimateFee 1, .read (fileOf 2000) ⟨1000⟩].foldl
        (call noPriorities) (new 25) ∧
      1 ≤ e.history.length ∧ ¬ Estimates e.history 1 (e.estimateFee 1).1 := by
  refine ⟨_, rfl, by decide, fun hstale => ?_⟩
  have hfresh : Current ([.read (fileOf 2000) ⟨1000⟩].foldl (call noPriorities) (new 25)) :=
    .inl (by decide)
  have hsame := hstale.unique (hfresh.estimates (n := 1) (by decide) (by decide))
  exact absurd hsame (by decide)

end CMinerPolicyEstimator

end Reddcoin
