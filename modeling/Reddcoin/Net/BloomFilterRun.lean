import Reddcoin.Net.BloomFilter

/-!
# Runs of a Bloom filter

What is done to a filter only sets bits, so a key that was inserted stays in it.  The two shortcuts of the filter are
what needs care: a filter that is empty contains nothing, also when no bit is asked for.
-/

namespace Reddcoin

open List

/-! ## Bits -/

theorem bitMask_ne_zero (nIndex : Nat) : bitMask nIndex ≠ 0 := by
  have hall : ∀ k < 8, (1 : UInt8) <<< UInt8.ofNat k ≠ 0 := by decide
  exact hall (nIndex % 8) (Nat.mod_lt _ (by decide))

theorem bitOf_setBitOf_self {vData : List UInt8} {nIndex : Nat} (h : nIndex / 8 < vData.length) :
    bitOf (setBitOf vData nIndex) nIndex = true := by
  have hself : ∀ b m : UInt8, (b ||| m) &&& m = m := by
    intro b m
    rw [← UInt8.toBitVec_inj]
    ext i
    simp only [UInt8.toBitVec_and, UInt8.toBitVec_or, BitVec.getElem_and, BitVec.getElem_or, Bool.and_eq_right_iff_imp,
      Bool.or_eq_true]
    exact .inr
  have hget : (setBitOf vData nIndex).getD (nIndex / 8) 0 = vData.getD (nIndex / 8) 0 ||| bitMask nIndex := by
    rw [getD_eq_getElem?_getD, getD_eq_getElem?_getD, setBitOf, getElem?_modify_eq, getElem?_eq_getElem h]
    rfl
  unfold bitOf
  rw [hget, hself]
  exact decide_eq_true (bitMask_ne_zero nIndex)

theorem bitOf_setBitOf_of_bitOf {vData : List UInt8} {j : Nat} (nIndex : Nat) (h : bitOf vData j) :
    bitOf (setBitOf vData nIndex) j = true := by
  have hmono : ∀ b c m : UInt8, b &&& m ≠ 0 → (b ||| c) &&& m ≠ 0 := by
    intro b c m hb hzero
    have hsplit : (b ||| c) &&& m = (b &&& m) ||| (c &&& m) := by
      rw [← UInt8.toBitVec_inj]
      ext i
      simp [Bool.and_or_distrib_right]
    rw [hsplit, UInt8.or_eq_zero_iff] at hzero
    exact hb hzero.1
  have hbit : vData.getD (j / 8) 0 &&& bitMask j ≠ 0 := of_decide_eq_true h
  refine decide_eq_true ?_
  rw [getD_eq_getElem?_getD] at hbit ⊢
  rw [setBitOf, getElem?_modify]
  cases hget : vData[j / 8]? with
  | none =>
    rw [hget] at hbit
    exact hbit
  | some b =>
    rw [hget] at hbit
    by_cases hsame : nIndex / 8 = j / 8
    · simp only [hsame, if_true]
      exact hmono b (bitMask nIndex) (bitMask j) hbit
    · simp only [hsame, if_false]
      exact hbit

theorem length_setBitOf (vData : List UInt8) (nIndex : Nat) : (setBitOf vData nIndex).length = vData.length :=
  length_modify _ _ _

namespace CBloomFilter

variable {f f' g : CBloomFilter} {vKey : List UInt8}

/-- No modulo by zero is reached: the filter is full, or it has data. -/
def Usable (f : CBloomFilter) : Prop :=
  f.isFull = true ∨ f.vData.length ≠ 0

/-- Each bit of the key is set. -/
def Marked (f : CBloomFilter) (vKey : List UInt8) : Prop :=
  ∀ i < f.nHashFuncs.toNat, ∀ nIndex, f.hash i vKey = .ok nIndex → bitOf f.vData nIndex = true

/-- The key is found, by a shortcut or by its bits. -/
def Covers (f : CBloomFilter) (vKey : List UInt8) : Prop :=
  f.isFull = true ∨ f.isEmpty = false ∧ f.Marked vKey

/-- What is done to a filter once it is loaded. -/
structure Grows (f f' : CBloomFilter) : Prop where
  length : f'.vData.length = f.vData.length
  isFull : f'.isFull = f.isFull
  nHashFuncs : f'.nHashFuncs = f.nHashFuncs
  nTweak : f'.nTweak = f.nTweak
  nFlags : f'.nFlags = f.nFlags
  isEmpty : f.isEmpty = false → f'.isEmpty = false
  bits : ∀ nIndex, bitOf f.vData nIndex = true → bitOf f'.vData nIndex = true

theorem Grows.refl (f : CBloomFilter) : Grows f f :=
  ⟨rfl, rfl, rfl, rfl, rfl, id, fun _ => id⟩

theorem Grows.trans (h : Grows f f') (h' : Grows f' g) : Grows f g where
  length := h'.length.trans h.length
  isFull := h'.isFull.trans h.isFull
  nHashFuncs := h'.nHashFuncs.trans h.nHashFuncs
  nTweak := h'.nTweak.trans h.nTweak
  nFlags := h'.nFlags.trans h.nFlags
  isEmpty hempty := h'.isEmpty (h.isEmpty hempty)
  bits nIndex hbit := h'.bits nIndex (h.bits nIndex hbit)

theorem Grows.hash (h : Grows f f') (i : Nat) (vKey : List UInt8) : f'.hash i vKey = f.hash i vKey := by
  rw [CBloomFilter.hash, CBloomFilter.hash, h.length, h.nTweak]

theorem Grows.usable (h : Grows f f') (husable : f.Usable) : f'.Usable := by
  unfold Usable
  rw [h.isFull, h.length]
  exact husable

theorem Grows.covers (h : Grows f f') (hcovers : f.Covers vKey) : f'.Covers vKey := by
  rcases hcovers with hfull | ⟨hempty, hmarked⟩
  · exact .inl (h.isFull.trans hfull)
  · refine .inr ⟨h.isEmpty hempty, fun i hi nIndex hhash => h.bits nIndex (hmarked i ?_ nIndex ?_)⟩
    · exact h.nHashFuncs ▸ hi
    · exact (h.hash i vKey).symm.trans hhash

theorem hash_eq (h : f.vData.length ≠ 0) (i : Nat) (vKey : List UInt8) :
    ∃ nIndex, f.hash i vKey = .ok nIndex ∧ nIndex / 8 < f.vData.length := by
  have hpos : f.vData.length * 8 ≠ 0 := by omega
  unfold CBloomFilter.hash
  rw [if_neg hpos]
  refine ⟨_, rfl, Nat.div_lt_of_lt_mul ?_⟩
  rw [Nat.mul_comm 8]
  exact Nat.mod_lt _ (Nat.pos_of_ne_zero hpos)

theorem grows_setBit (f : CBloomFilter) (nIndex : Nat) : Grows f { f with vData := setBitOf f.vData nIndex } :=
  ⟨length_setBitOf f.vData nIndex, rfl, rfl, rfl, rfl, id, fun _ hbit => bitOf_setBitOf_of_bitOf nIndex hbit⟩

theorem insertLoop_spec (h : f.vData.length ≠ 0) (vKey : List UInt8) (l : List Nat) :
    ∃ f', f.insertLoop vKey l = .ok f' ∧ Grows f f' ∧
      ∀ i ∈ l, ∀ nIndex, f.hash i vKey = .ok nIndex → bitOf f'.vData nIndex = true := by
  induction l generalizing f with
  | nil => exact ⟨f, rfl, .refl f, fun i hi => absurd hi not_mem_nil⟩
  | cons i l ih =>
    obtain ⟨nIndex, hhash, hinside⟩ := hash_eq h i vKey
    have hgrows := grows_setBit f nIndex
    obtain ⟨f', hloop, hrest, hbits⟩ := @ih { f with vData := setBitOf f.vData nIndex } (hgrows.length ▸ h)
    refine ⟨f', ?_, hgrows.trans hrest, fun k hk nIndex' hhash' => ?_⟩
    · unfold insertLoop at hloop ⊢
      rw [foldlM_cons, hhash]
      exact hloop
    · rcases mem_cons.mp hk with rfl | hk
      · cases hhash.symm.trans hhash'
        exact hrest.bits nIndex (bitOf_setBitOf_self hinside)
      · exact hbits k hk nIndex' ((hgrows.hash k vKey).trans hhash')

/-! ## Inserting and finding -/

theorem insert_spec (h : f.Usable) (vKey : List UInt8) :
    ∃ f', f.insert vKey = .ok f' ∧ Grows f f' ∧ f'.Covers vKey := by
  unfold CBloomFilter.insert
  by_cases hfull : f.isFull = true
  · rw [if_pos hfull]
    exact ⟨f, rfl, .refl f, .inl hfull⟩
  · obtain ⟨f', hloop, hgrows, hbits⟩ := insertLoop_spec (h.resolve_left hfull) vKey (List.range f.nHashFuncs.toNat)
    rw [if_neg hfull, hloop]
    refine ⟨{ f' with isEmpty := false }, rfl, ?_, .inr ⟨rfl, fun i hi nIndex hhash => ?_⟩⟩
    · exact ⟨hgrows.length, hgrows.isFull, hgrows.nHashFuncs, hgrows.nTweak, hgrows.nFlags, fun _ => rfl, hgrows.bits⟩
    · have hi : i < f.nHashFuncs.toNat := hgrows.nHashFuncs ▸ hi
      exact hbits i (mem_range.mpr hi) nIndex ((hgrows.hash i vKey).symm.trans hhash)

theorem containsLoop_spec (h : f.vData.length ≠ 0) (vKey : List UInt8) (l : List Nat) :
    ∃ b, f.containsLoop vKey l = .ok b ∧
      ((∀ i ∈ l, ∀ nIndex, f.hash i vKey = .ok nIndex → bitOf f.vData nIndex) → b) := by
  induction l with
  | nil => exact ⟨true, rfl, fun _ => rfl⟩
  | cons i l ih =>
    obtain ⟨nIndex, hhash, -⟩ := hash_eq h i vKey
    obtain ⟨b, hloop, htrue⟩ := ih
    have hbody : f.containsLoop vKey (i :: l) =
        if bitOf f.vData nIndex then f.containsLoop vKey l else pure false := by
      rw [containsLoop, hhash]
      rfl
    rw [hbody]
    split_ifs with hbit
    · exact ⟨b, hloop, fun hall => htrue fun k hk => hall k (mem_cons_of_mem i hk)⟩
    · exact ⟨false, rfl, fun hall => absurd (hall i mem_cons_self nIndex hhash) hbit⟩

/-- Looking for a key ends, and finds it when it is covered. -/
theorem contains_spec (h : f.Usable) (vKey : List UInt8) :
    ∃ b, f.contains vKey = .ok b ∧ (f.Covers vKey → b) := by
  unfold CBloomFilter.contains
  by_cases hfull : f.isFull = true
  · rw [if_pos hfull]
    exact ⟨true, rfl, fun _ => rfl⟩
  · rw [if_neg hfull]
    split_ifs with hempty
    · refine ⟨false, rfl, ?_⟩
      rintro (hfull' | ⟨hnot, -⟩)
      · exact absurd hfull' hfull
      · exact absurd hempty (Bool.eq_false_iff.mp hnot)
    · obtain ⟨b, hloop, htrue⟩ := containsLoop_spec (h.resolve_left hfull) vKey (List.range f.nHashFuncs.toNat)
      refine ⟨b, hloop, ?_⟩
      rintro (hfull' | ⟨-, hmarked⟩)
      · exact absurd hfull' hfull
      · exact htrue fun i hi => hmarked i (mem_range.mp hi)

theorem contains_of_covers (h : f.Usable) (hcovers : f.Covers vKey) : f.contains vKey = .ok true := by
  obtain ⟨b, hcontains, htrue⟩ := contains_spec h vKey
  rw [hcontains, htrue hcovers]

/-! ## Transactions -/

theorem matchesPush_total (h : f.Usable) (turns : Nat) (pc : CScript) : ∃ b, f.matchesPush turns pc = .ok b := by
  induction turns generalizing pc with
  | zero => exact ⟨false, rfl⟩
  | succ turns ih =>
    unfold matchesPush
    split_ifs
    · exact ⟨false, rfl⟩
    cases getOp2 pc with
    | none => exact ⟨false, rfl⟩
    | some op =>
      dsimp only
      split_ifs
      · exact ih op.pc
      · obtain ⟨b, hcontains, -⟩ := contains_spec h op.vch
        rw [hcontains]
        cases b with
        | true => exact ⟨true, rfl⟩
        | false => exact ih op.pc

section

variable (options : SolverOptions) (hash : Uint256)

/-- The outpoint of an output that matched. -/
def outpointKey (hash : Uint256) (i : Nat) : List UInt8 :=
  COutPoint.serialize { hash := hash, n := i }

theorem addOutput_spec (h : f.Usable) (i : Nat) (txout : CTxOut) :
    ∃ f', f.addOutput options hash i txout = .ok f' ∧ Grows f f' ∧
      (f.nFlags &&& BLOOM_UPDATE_MASK = BLOOM_UPDATE_ALL → f'.Covers (outpointKey hash i)) := by
  obtain ⟨f', hinsert, hgrows, hcovers⟩ := insert_spec h (outpointKey hash i)
  unfold addOutput
  dsimp only
  split_ifs with hall hkeys hsolved
  · exact ⟨f', hinsert, hgrows, fun _ => hcovers⟩
  · exact ⟨f', hinsert, hgrows, fun hflags => absurd hflags hall⟩
  · exact ⟨f, rfl, .refl f, fun hflags => absurd hflags hall⟩
  · exact ⟨f, rfl, .refl f, fun hflags => absurd hflags hall⟩

theorem outputsLoop_spec (h : f.Usable) (i : Nat) (vout : List CTxOut) :
    ∃ matched f', f.outputsLoop options hash i vout = .ok (matched, f') ∧ Grows f f' ∧
      (f.nFlags &&& BLOOM_UPDATE_MASK = BLOOM_UPDATE_ALL → ∀ k ∈ matched, f'.Covers (outpointKey hash k)) := by
  induction vout generalizing f i with
  | nil => exact ⟨[], f, rfl, .refl f, fun _ k hk => absurd hk not_mem_nil⟩
  | cons txout vout ih =>
    obtain ⟨b, hmatches⟩ := matchesPush_total h txout.scriptPubKey.length txout.scriptPubKey
    unfold outputsLoop
    rw [hmatches]
    cases b with
    | false => exact ih h (i + 1)
    | true =>
      obtain ⟨f₁, hadd, hgrows₁, hcovers₁⟩ := addOutput_spec options hash h i txout
      obtain ⟨matched, f₂, hloop, hgrows₂, hcovers₂⟩ := ih (hgrows₁.usable h) (i + 1)
      refine ⟨i :: matched, f₂, ?_, hgrows₁.trans hgrows₂, fun hflags k hk => ?_⟩
      · show (f.addOutput options hash i txout >>= fun f =>
          f.outputsLoop options hash (i + 1) vout >>= fun r => pure (i :: r.1, r.2)) = _
        rw [hadd]
        show (f₁.outputsLoop options hash (i + 1) vout >>= fun r => pure (i :: r.1, r.2)) = _
        rw [hloop]
        rfl
      · rcases mem_cons.mp hk with rfl | hk
        · exact hgrows₂.covers (hcovers₁ hflags)
        · exact hcovers₂ (hgrows₁.nFlags ▸ hflags) k hk

end

/-- The loop over the inputs ends, and finds an outpoint that is covered. -/
theorem inputsLoop_spec (h : f.Usable) (vin : List CTxIn) :
    ∃ b, f.inputsLoop vin = .ok b ∧ ((∃ txin ∈ vin, f.Covers txin.prevout.serialize) → b) := by
  induction vin with
  | nil =>
    refine ⟨false, rfl, ?_⟩
    rintro ⟨txin, htxin, -⟩
    cases htxin
  | cons txin vin ih =>
    obtain ⟨b, hcontains, htrue⟩ := contains_spec h txin.prevout.serialize
    obtain ⟨b', hmatches⟩ := matchesPush_total h txin.scriptSig.length txin.scriptSig
    obtain ⟨b'', hrest, hfound⟩ := ih
    unfold inputsLoop
    rw [hcontains]
    cases b with
    | true => exact ⟨true, rfl, fun _ => rfl⟩
    | false =>
      show ∃ b, (f.matchesPush txin.scriptSig.length txin.scriptSig >>= fun b =>
        if b = true then pure true else f.inputsLoop vin) = .ok b ∧ _
      rw [hmatches]
      cases b' with
      | true => exact ⟨true, rfl, fun _ => rfl⟩
      | false =>
        refine ⟨b'', hrest, ?_⟩
        rintro ⟨other, hother, hcovers⟩
        rcases mem_cons.mp hother with rfl | hother
        · cases htrue hcovers
        · exact hfound ⟨other, hother, hcovers⟩

section

variable (C : Crypto) (options : SolverOptions)

theorem isRelevantAndUpdate_spec (h : f.Usable) (tx : CTransaction) :
    ∃ r, f.isRelevantAndUpdate C options tx = .ok r ∧ Grows f r.filter ∧
      (f.nFlags &&& BLOOM_UPDATE_MASK = BLOOM_UPDATE_ALL →
        ∀ i ∈ r.matched, r.filter.Covers (outpointKey (C.txHash tx) i)) ∧
      ((∃ txin ∈ tx.vin, f.Covers txin.prevout.serialize) → r.relevant) := by
  unfold isRelevantAndUpdate
  by_cases hfull : f.isFull = true
  · rw [if_pos hfull]
    exact ⟨_, rfl, .refl f, fun _ i hi => absurd hi not_mem_nil, fun _ => rfl⟩
  · rw [if_neg hfull]
    by_cases hempty : f.isEmpty = true
    · rw [if_pos hempty]
      refine ⟨_, rfl, .refl f, fun _ i hi => absurd hi not_mem_nil, ?_⟩
      rintro ⟨txin, -, hfull' | ⟨hnot, -⟩⟩
      · exact absurd hfull' hfull
      · exact absurd hempty (Bool.eq_false_iff.mp hnot)
    · obtain ⟨fFound, hcontains, -⟩ := contains_spec h (writeData 32 (C.txHash tx))
      obtain ⟨matched, f', hloop, hgrows, hcovers⟩ := outputsLoop_spec options (C.txHash tx) h 0 tx.vout
      rw [if_neg hempty, hcontains]
      dsimp only [bind, Except.bind]
      rw [hloop]
      dsimp only
      split_ifs
      · exact ⟨_, rfl, hgrows, hcovers, fun _ => rfl⟩
      · obtain ⟨b, hinputs, htrue⟩ := inputsLoop_spec (hgrows.usable h) tx.vin
        rw [hinputs]
        refine ⟨_, rfl, hgrows, hcovers, ?_⟩
        rintro ⟨txin, htxin, hcov⟩
        exact htrue ⟨txin, htxin, hgrows.covers hcov⟩

/-! ## Runs -/

theorem step_spec (h : f.Usable) (a : FilterStep) :
    ∃ f', f.step C options a = .ok f' ∧ Grows f f' ∧ ∀ vKey ∈ a.added, f'.Covers vKey := by
  cases a with
  | filteradd vData =>
    have hadded : (FilterStep.filteradd vData).added =
        if MAX_SCRIPT_ELEMENT_SIZE < vData.length then [] else [vData] := rfl
    show ∃ f', f.filteradd vData = .ok f' ∧ _
    rw [hadded]
    unfold filteradd
    split_ifs
    · exact ⟨f, rfl, .refl f, fun vKey hvKey => absurd hvKey not_mem_nil⟩
    · obtain ⟨f', hinsert, hgrows, hcovers⟩ := insert_spec h vData
      refine ⟨f', hinsert, hgrows, fun vKey hvKey => ?_⟩
      rw [mem_singleton.mp hvKey]
      exact hcovers
  | relevant tx =>
    obtain ⟨r, hrelevant, hgrows, -, -⟩ := isRelevantAndUpdate_spec C options h tx
    refine ⟨r.filter, ?_, hgrows, fun vKey hvKey => absurd hvKey not_mem_nil⟩
    show (f.isRelevantAndUpdate C options tx >>= fun r => pure r.filter) = _
    rw [hrelevant]
    rfl

/-- A run goes through, and what it adds stays. -/
theorem run_spec (h : f.Usable) (steps : List FilterStep) :
    ∃ f', f.run C options steps = .ok f' ∧ Grows f f' ∧ ∀ a ∈ steps, ∀ vKey ∈ a.added, f'.Covers vKey := by
  induction steps generalizing f with
  | nil => exact ⟨f, rfl, .refl f, fun a ha => absurd ha not_mem_nil⟩
  | cons a steps ih =>
    obtain ⟨f₁, hstep, hgrows₁, hadded₁⟩ := step_spec C options h a
    obtain ⟨f₂, hrun, hgrows₂, hadded₂⟩ := ih (hgrows₁.usable h)
    refine ⟨f₂, ?_, hgrows₁.trans hgrows₂, fun b hb vKey hvKey => ?_⟩
    · unfold run at hrun ⊢
      rw [foldlM_cons, hstep]
      exact hrun
    · rcases mem_cons.mp hb with rfl | hb
      · exact hgrows₂.covers (hadded₁ vKey hvKey)
      · exact hadded₂ b hb vKey hvKey

end

/-! ## Loading -/

theorem reads_unserialize (hsize : f.vData.length ≤ MAX_SIZE) :
    Stream.Reads unserialize f.serialize { f with isFull := true, isEmpty := false } := by
  have hfuncs : f.nHashFuncs.toNat < 256 ^ 4 := f.nHashFuncs.toNat_lt
  have htweak : f.nTweak.toNat < 256 ^ 4 := f.nTweak.toNat_lt
  have hflags : f.nFlags.toNat < 256 ^ 1 := f.nFlags.toNat_lt
  refine Stream.reads_bind (reads_readBytes hsize) (Stream.reads_bind (reads_readData hfuncs)
    (Stream.reads_bind (reads_readData htweak) (Stream.reads_last (reads_readData hflags) ?_)))
  rw [UInt32.ofNat_toNat, UInt32.ofNat_toNat, UInt8.ofNat_toNat]
  exact Stream.reads_pure _

/-- The filter of a client is loaded with its shortcuts. -/
theorem filterload_serialize (h : f.isWithinSizeConstraints) :
    filterload f.serialize = .ok (some f.updateEmptyFull) := by
  have hsize : f.vData.length ≤ MAX_SIZE := by
    have hle := (Bool.and_eq_true_iff.mp h).1
    have hmax : MAX_BLOOM_FILTER_SIZE ≤ MAX_SIZE := by decide
    exact Nat.le_trans (of_decide_eq_true hle) hmax
  have hread := reads_unserialize hsize []
  rw [append_nil] at hread
  unfold filterload
  rw [hread]
  dsimp only
  have hwithin : ({ f with isFull := true, isEmpty := false } : CBloomFilter).isWithinSizeConstraints = true := h
  rw [hwithin]
  rfl

theorem insertAll_spec (h : f.Usable) (keys : List (List UInt8)) :
    ∃ f', f.insertAll keys = .ok f' ∧ Grows f f' ∧ ∀ vKey ∈ keys, f'.Covers vKey := by
  induction keys generalizing f with
  | nil => exact ⟨f, rfl, .refl f, fun vKey hvKey => absurd hvKey not_mem_nil⟩
  | cons k keys ih =>
    obtain ⟨f₁, hinsert, hgrows₁, hcovers₁⟩ := insert_spec h k
    obtain ⟨f₂, hrest, hgrows₂, hcovers₂⟩ := ih (hgrows₁.usable h)
    refine ⟨f₂, ?_, hgrows₁.trans hgrows₂, fun vKey hvKey => ?_⟩
    · unfold insertAll at hrest ⊢
      rw [foldlM_cons, hinsert]
      exact hrest
    · rcases mem_cons.mp hvKey with rfl | hvKey
      · exact hgrows₂.covers hcovers₁
      · exact hcovers₂ vKey hvKey

/-- Without hash functions nothing is set. -/
theorem insertAll_noFuncs (hfuncs : f.nHashFuncs = 0) (hempty : f.isEmpty = false) (keys : List (List UInt8)) :
    f.insertAll keys = .ok f := by
  have hinsert : ∀ vKey, f.insert vKey = .ok f := by
    intro vKey
    unfold CBloomFilter.insert
    rw [hfuncs]
    split_ifs
    · rfl
    · show (Except.ok { f with isEmpty := false } : Except FilterStop CBloomFilter) = .ok f
      rw [← hempty]
  induction keys with
  | nil => rfl
  | cons k keys ih =>
    unfold insertAll at ih ⊢
    rw [foldlM_cons, hinsert k]
    exact ih

/-- A client without data divides by zero as soon as it hashes. -/
theorem insertAll_noData (hdata : f.vData = []) (hfull : f.isFull = false) (hfuncs : f.nHashFuncs ≠ 0)
    (vKey : List UInt8) (keys : List (List UInt8)) : f.insertAll (vKey :: keys) = .error .dividesByZero := by
  have hpos : f.nHashFuncs.toNat ≠ 0 := fun hzero => hfuncs (UInt32.toNat_inj.mp hzero)
  obtain ⟨n, hn⟩ := Nat.exists_eq_succ_of_ne_zero hpos
  have hhash : f.hash 0 vKey = .error .dividesByZero := by
    unfold CBloomFilter.hash
    rw [hdata]
    rfl
  have hinsert : f.insert vKey = .error .dividesByZero := by
    unfold CBloomFilter.insert insertLoop
    rw [hfull, if_neg Bool.false_ne_true, hn, range_succ_eq_map, foldlM_cons, hhash]
    rfl
  unfold insertAll
  rw [foldlM_cons, hinsert]
  rfl

/-- A loaded filter can be used. -/
theorem usable_updateEmptyFull (f : CBloomFilter) : f.updateEmptyFull.Usable := by
  by_cases hdata : f.vData = []
  · left
    show f.vData.all _ = true
    rw [hdata]
    rfl
  · exact .inr fun hzero => hdata (length_eq_zero_iff.mp hzero)

/-- A key with a bit is still covered after the shortcuts are computed. -/
theorem covers_updateEmptyFull (hdata : f.vData.length ≠ 0) (hfuncs : f.nHashFuncs ≠ 0) (hfull : f.isFull = false)
    (hcovers : f.Covers vKey) : f.updateEmptyFull.Covers vKey := by
  obtain ⟨-, hmarked⟩ := hcovers.resolve_left (Bool.eq_false_iff.mp hfull)
  refine .inr ⟨?_, hmarked⟩
  have hpos : 0 < f.nHashFuncs.toNat := Nat.pos_of_ne_zero fun hzero => hfuncs (UInt32.toNat_inj.mp hzero)
  obtain ⟨nIndex, hhash, hinside⟩ := hash_eq hdata 0 vKey
  have hbit := hmarked 0 hpos nIndex hhash
  -- The byte of a bit that is set is not zero.
  refine Bool.eq_false_iff.mpr fun hall => ?_
  have hzero := of_decide_eq_true (all_eq_true.mp hall _ (getElem_mem hinside))
  unfold bitOf at hbit
  rw [getD_eq_getElem?_getD, getElem?_eq_getElem hinside, Option.getD_some, hzero, UInt8.zero_and] at hbit
  exact absurd rfl (of_decide_eq_true hbit)

/-! ## What a client can rely on -/

variable (C : Crypto) (options : SolverOptions)

/-- A client builds a filter of the keys and sends it.  No modulo by zero is executed; whatever happens to the filter
afterwards, it contains what was inserted, and the spending transactions of an output that matched are relevant. -/
def WorksFor (size : Nat) (nHashFuncs nTweak : UInt32) (nFlags : UInt8) (keys : List (List UInt8)) : Prop :=
  ∃ inserted loaded, (client size nHashFuncs nTweak nFlags).insertAll keys = .ok inserted ∧
    filterload inserted.serialize = .ok (some loaded) ∧
    ∀ steps, ∃ f, loaded.run C options steps = .ok f ∧
      (∀ vKey, (vKey ∈ keys ∨ ∃ a ∈ steps, vKey ∈ a.added) → f.contains vKey = .ok true) ∧
      (nFlags &&& BLOOM_UPDATE_MASK = BLOOM_UPDATE_ALL → ∀ tx, ∃ r, f.isRelevantAndUpdate C options tx = .ok r ∧
        ∀ i ∈ r.matched, ∀ later, ∃ f', r.filter.run C options later = .ok f' ∧
          ∀ tx' : CTransaction, (∃ txin ∈ tx'.vin, txin.prevout = { hash := C.txHash tx, n := i }) →
            ∃ r', f'.isRelevantAndUpdate C options tx' = .ok r' ∧ r'.relevant = true)

variable {C options} {size : Nat} {nHashFuncs nTweak : UInt32} {nFlags : UInt8} {keys : List (List UInt8)}

/-- A filter works whose keys are covered when it is loaded. -/
theorem worksFor_of_covers {inserted : CBloomFilter}
    (hinsert : (client size nHashFuncs nTweak nFlags).insertAll keys = .ok inserted)
    (hwithin : inserted.isWithinSizeConstraints) (hflags : inserted.nFlags = nFlags)
    (hcovers : ∀ vKey ∈ keys, inserted.updateEmptyFull.Covers vKey) :
    WorksFor C options size nHashFuncs nTweak nFlags keys := by
  have husable := usable_updateEmptyFull inserted
  refine ⟨inserted, inserted.updateEmptyFull, hinsert, filterload_serialize hwithin, fun steps => ?_⟩
  obtain ⟨f, hrun, hgrows, hadded⟩ := run_spec C options husable steps
  refine ⟨f, hrun, fun vKey hvKey => ?_, fun hall tx => ?_⟩
  · refine contains_of_covers (hgrows.usable husable) ?_
    rcases hvKey with hvKey | ⟨a, ha, hvKey⟩
    · exact hgrows.covers (hcovers vKey hvKey)
    · exact hadded a ha vKey hvKey
  · obtain ⟨r, hrelevant, hgrows', hmatched, -⟩ := isRelevantAndUpdate_spec C options (hgrows.usable husable) tx
    refine ⟨r, hrelevant, fun i hi later => ?_⟩
    have husable' := hgrows'.usable (hgrows.usable husable)
    have hfflags : f.nFlags &&& BLOOM_UPDATE_MASK = BLOOM_UPDATE_ALL := by
      rw [hgrows.nFlags]
      exact hflags ▸ hall
    obtain ⟨f', hlater, hgrows'', -⟩ := run_spec C options husable' later
    refine ⟨f', hlater, ?_⟩
    rintro tx' ⟨txin, htxin, hspends⟩
    obtain ⟨r', hrelevant', -, -, htrue⟩ := isRelevantAndUpdate_spec C options (hgrows''.usable husable') tx'
    refine ⟨r', hrelevant', htrue ⟨txin, htxin, ?_⟩⟩
    rw [hspends]
    exact hgrows''.covers (hmatched hfflags i hi)

/-- Clients can rely on a filter exactly when it has data and hash functions, or neither, or no key was inserted. -/
theorem bloomFilter_works_iff (C : Crypto) (options : SolverOptions) (size : Nat) (nHashFuncs nTweak : UInt32)
    (nFlags : UInt8) (keys : List (List UInt8))
    (hwithin : (client size nHashFuncs nTweak nFlags).isWithinSizeConstraints = true) :
    WorksFor C options size nHashFuncs nTweak nFlags keys ↔ keys = [] ∨ (size = 0 ↔ nHashFuncs = 0) := by
  have hlength : (client size nHashFuncs nTweak nFlags).vData.length = size := length_replicate
  constructor
  · rintro ⟨inserted, loaded, hinsert, hload, hsteps⟩
    by_contra hnot
    rw [not_or] at hnot
    obtain ⟨hkeys, hneither⟩ := hnot
    obtain ⟨vKey, rest, rfl⟩ := exists_cons_of_ne_nil hkeys
    by_cases hfuncs : nHashFuncs = 0
    · -- Every byte is zero, so the loaded filter counts as empty.
      have hsize : size ≠ 0 := fun hzero => hneither (iff_of_true hzero hfuncs)
      cases (insertAll_noFuncs hfuncs rfl (vKey :: rest)).symm.trans hinsert
      rw [filterload_serialize hwithin] at hload
      cases Except.ok.inj hload
      obtain ⟨f, hrun, hcontains, -⟩ := hsteps []
      cases hrun
      have hfound := hcontains vKey (.inl mem_cons_self)
      have hempty : (List.replicate size (0 : UInt8)).all (fun b => decide (b = 0)) = true :=
        all_eq_true.mpr fun b hb => decide_eq_true (eq_of_mem_replicate hb)
      have hfull : (List.replicate size (0 : UInt8)).all (fun b => decide (b = 0xff)) = false := by
        obtain ⟨n, rfl⟩ := Nat.exists_eq_succ_of_ne_zero hsize
        rfl
      have hnotFound : (client size nHashFuncs nTweak nFlags).updateEmptyFull.contains vKey = .ok false := by
        unfold CBloomFilter.contains updateEmptyFull client
        dsimp only
        rw [hfull, hempty]
        rfl
      cases hnotFound.symm.trans hfound
    · have hsize : size = 0 := by
        by_contra hsize
        exact hneither (iff_of_false hsize hfuncs)
      have hdata : (client size nHashFuncs nTweak nFlags).vData = [] :=
        length_eq_zero_iff.mp (hlength.trans hsize)
      cases (insertAll_noData hdata rfl hfuncs vKey rest).symm.trans hinsert
  · rintro (rfl | hboth)
    · exact worksFor_of_covers rfl hwithin rfl fun vKey hvKey => absurd hvKey not_mem_nil
    · by_cases hfuncs : nHashFuncs = 0
      · have hdata : (client size nHashFuncs nTweak nFlags).vData = [] :=
          length_eq_zero_iff.mp (hlength.trans (hboth.mpr hfuncs))
        refine worksFor_of_covers (insertAll_noFuncs hfuncs rfl keys) hwithin rfl fun vKey _ => .inl ?_
        show (client size nHashFuncs nTweak nFlags).vData.all _ = true
        rw [hdata]
        rfl
      · have hsize : (client size nHashFuncs nTweak nFlags).vData.length ≠ 0 := by
          rw [hlength]
          exact fun hzero => hfuncs (hboth.mp hzero)
        obtain ⟨f, hinsert, hgrows, hcovers⟩ := insertAll_spec (.inr hsize) keys
        have hwithin' : f.isWithinSizeConstraints = true := by
          unfold isWithinSizeConstraints at hwithin ⊢
          rw [hgrows.length, hgrows.nHashFuncs]
          exact hwithin
        refine worksFor_of_covers hinsert hwithin' hgrows.nFlags fun vKey hvKey => ?_
        refine covers_updateEmptyFull (hgrows.length ▸ hsize) ?_ hgrows.isFull (hcovers vKey hvKey)
        rw [hgrows.nHashFuncs]
        exact hfuncs

/-- A filter of one byte with one hash function works. -/
theorem bloomFilter_works_example :
    WorksFor Example.pairing { datacarrier := true, nMaxDatacarrierBytes := 80 } 1 1 0 1 [[0x2a]] :=
  (bloomFilter_works_iff Example.pairing { datacarrier := true, nMaxDatacarrierBytes := 80 } 1 1 0 1 [[0x2a]]
    (by decide)).mpr (.inr (by decide))

/-- A key that a client inserted is not found when there are no hash functions, and a client without data divides by
zero. -/
theorem bloomFilter_misses_key :
    (client 1 0 0 1).isWithinSizeConstraints = true ∧ (client 1 0 0 1).insertAll [[0x2a]] = .ok (client 1 0 0 1) ∧
      filterload (client 1 0 0 1).serialize = .ok (some (client 1 0 0 1).updateEmptyFull) ∧
      (client 1 0 0 1).updateEmptyFull.contains [0x2a] = .ok false ∧
      (client 0 1 0 1).isWithinSizeConstraints = true ∧
      (client 0 1 0 1).insertAll [[0x2a]] = .error .dividesByZero :=
  ⟨by decide, rfl, rfl, rfl, by decide, rfl⟩

end CBloomFilter

end Reddcoin
