import Reddcoin.Files.BlockFiles
import Mathlib.Data.List.GetD
import Mathlib.Data.List.Induction

/-!
# The regions handed out in block files

New data always goes behind the bytes that the size of its file counts.  Blocks that are found in a file are only
added to that size, so that the regions stay apart and inside it exactly as long as each such block stands directly
behind the bytes counted before.
-/

namespace Reddcoin

open List Function
namespace BlockFiles

open Function (update)

open Lib Extent

variable {s s' t : BlockFiles} {f nFile nAddSize start : Nat} {c : FileCall} {calls : List FileCall}

def blockSize (s : BlockFiles) (nFile : Nat) : Nat :=
  (s.info nFile).nSize

def undoSize (s : BlockFiles) (nFile : Nat) : Nat :=
  (s.info nFile).nUndoSize

/-- The regions in one file are disjoint, they lie within the sizes to which the files are truncated, and no
truncation has cut any of them. -/
structure Sound (s : BlockFiles) : Prop where
  blocks : ∀ f, Within (s.blockSize f) (s.blockRegions f)
  undos : ∀ f, Within (s.undoSize f) (s.undoRegions f)
  whole : s.cut = []

/-- The regions fill the files up to the sizes. -/
structure Filled (s : BlockFiles) : Prop where
  blocks : ∀ f, Packed (s.blockSize f) (s.blockRegions f)
  undos : ∀ f, Packed (s.undoSize f) (s.undoRegions f)
  whole : s.cut = []

theorem Filled.sound (h : s.Filled) : s.Sound :=
  ⟨fun f => (h.blocks f).toWithin, fun f => (h.undos f).toWithin, h.whole⟩

/-- The first file, from the last one in use on, that is not full. -/
def FirstWithRoom (s : BlockFiles) (nAddSize f : Nat) : Prop :=
  s.nLastBlockFile ≤ f ∧ s.full nAddSize f = false ∧ ∀ g, s.nLastBlockFile ≤ g → g < f → s.full nAddSize g = true

/-- The call continues what is in use of its file: a found block stands directly behind it, and the size does not
wrap around. -/
def Fits (s : BlockFiles) : FileCall → Prop
  | .received block _ => ∀ f, s.FirstWithRoom (block.nBlockSize + BLOCK_SERIALIZATION_HEADER_SIZE) f →
      s.blockSize f + block.nBlockSize + BLOCK_SERIALIZATION_HEADER_SIZE < 2 ^ 32
  | .found block nFile start => start = s.blockSize nFile ∧
      s.blockSize nFile + block.nBlockSize + BLOCK_SERIALIZATION_HEADER_SIZE < 2 ^ 32
  | .undo nFile nAddSize _ => s.undoSize nFile + nAddSize < 2 ^ 32

/-! ## The entries -/

theorem info_resize (s : BlockFiles) (n f : Nat) : (s.resize n).info f = s.info f := by
  show (s.vinfoBlockFile ++ List.replicate _ CBlockFileInfo.null).getD f .null = s.vinfoBlockFile.getD f .null
  by_cases hf : f < s.vinfoBlockFile.length
  · rw [getD_append _ _ _ _ hf]
  · have hout : s.vinfoBlockFile.getD f .null = .null := getD_eq_default _ _ (Nat.not_lt.mp hf)
    have hnull : ∀ n k : Nat, (List.replicate n CBlockFileInfo.null).getD k .null = .null := by
      intro n k
      by_cases hk : k < n
      · exact getD_replicate _ hk
      · exact getD_eq_default _ _ (by rw [length_replicate]; omega)
    rw [getD_append_right _ _ _ _ (Nat.not_lt.mp hf), hout, hnull]

theorem lt_length_resize (s : BlockFiles) (n : Nat) : n ≤ (s.resize n).vinfoBlockFile.length := by
  show n ≤ (s.vinfoBlockFile ++ List.replicate _ _).length
  rw [length_append, length_replicate]
  omega

theorem info_setInfo (hf : nFile < s.vinfoBlockFile.length) (info : CBlockFileInfo) :
    (s.setInfo nFile info).info = update s.info nFile info := by
  funext f
  show (s.vinfoBlockFile.set nFile info).getD f .null = _
  by_cases hsame : f = nFile
  · rw [hsame, update_self, getD_eq_getElem?_getD, getElem?_set_self hf]
    rfl
  · rw [update_of_ne hsame, getD_eq_getElem?_getD, getElem?_set_ne (Ne.symm hsame)]
    exact (getD_eq_getElem?_getD ..).symm

/-! ## Leaving full files -/

/-- The same sizes and regions, and no region cut that was not cut before. -/
structure Untouched (s t : BlockFiles) : Prop where
  info : t.info = s.info
  blockRegions : t.blockRegions = s.blockRegions
  undoRegions : t.undoRegions = s.undoRegions
  cut : (∀ f, ∀ r ∈ s.blockRegions f, r.stop ≤ s.blockSize f) →
    (∀ f, ∀ r ∈ s.undoRegions f, r.stop ≤ s.undoSize f) → t.cut = s.cut

theorem untouched_resize (s : BlockFiles) (n : Nat) : Untouched s (s.resize n) :=
  ⟨funext (info_resize s n), rfl, rfl, fun _ _ => rfl⟩

theorem untouched_flushBlockFile (s : BlockFiles) : Untouched s s.flushBlockFile := by
  refine ⟨rfl, rfl, rfl, fun hblocks hundos => ?_⟩
  show s.cut ++ List.filter _ _ ++ List.filter _ _ = s.cut
  have hnoBlock : (s.blockRegions s.nLastBlockFile).filter
      (fun r => decide ((s.info s.nLastBlockFile).nSize < r.stop)) = [] := by
    rw [filter_eq_nil_iff]
    intro r hr
    exact fun h => Nat.not_lt.mpr (hblocks _ r hr) (of_decide_eq_true h)
  have hnoUndo : (s.undoRegions s.nLastBlockFile).filter
      (fun r => decide ((s.info s.nLastBlockFile).nUndoSize < r.stop)) = [] := by
    rw [filter_eq_nil_iff]
    intro r hr
    exact fun h => Nat.not_lt.mpr (hundos _ r hr) (of_decide_eq_true h)
  rw [hnoBlock, hnoUndo, append_nil, append_nil]

theorem Untouched.trans (h : Untouched s t) (h' : Untouched t s') : Untouched s s' := by
  refine ⟨h'.info.trans h.info, h'.blockRegions.trans h.blockRegions, h'.undoRegions.trans h.undoRegions,
    fun hblocks hundos => ?_⟩
  have hcut := h.cut hblocks hundos
  rw [← hcut]
  apply h'.cut
  · unfold blockSize
    rw [h.blockRegions, h.info]
    exact hblocks
  · unfold undoSize
    rw [h.undoRegions, h.info]
    exact hundos

theorem Untouched.full (h : Untouched s t) (nAddSize f : Nat) : t.full nAddSize f = s.full nAddSize f := by
  unfold BlockFiles.full
  rw [h.info]

/-- A file without an entry has room. -/
theorem full_of_length_le (hsmall : nAddSize < MAX_BLOCKFILE_SIZE) (hf : s.vinfoBlockFile.length ≤ f) :
    s.full nAddSize f = false := by
  have hnull : s.info f = .null := getD_eq_default _ _ hf
  have hmax : MAX_BLOCKFILE_SIZE = 0x8000000 := rfl
  unfold full
  rw [hnull]
  refine decide_eq_false ?_
  show ¬ MAX_BLOCKFILE_SIZE ≤ (0 + nAddSize) % 2 ^ 32
  omega

theorem leaveFull_spec (nAddSize turns : Nat) (s : BlockFiles) (nFile : Nat)
    (hfile : nFile < s.vinfoBlockFile.length) (hend : s.full nAddSize (nFile + turns) = false) :
    Untouched s (leaveFull nAddSize turns s nFile).1 ∧
      (leaveFull nAddSize turns s nFile).2 < (leaveFull nAddSize turns s nFile).1.vinfoBlockFile.length ∧
      nFile ≤ (leaveFull nAddSize turns s nFile).2 ∧
      s.full nAddSize (leaveFull nAddSize turns s nFile).2 = false ∧
      ∀ g, nFile ≤ g → g < (leaveFull nAddSize turns s nFile).2 → s.full nAddSize g = true := by
  induction turns generalizing s nFile with
  | zero =>
    refine ⟨⟨rfl, rfl, rfl, fun _ _ => rfl⟩, hfile, Nat.le_refl _, hend, ?_⟩
    intro g hlow hhigh
    exact absurd hhigh (Nat.not_lt.mpr hlow)
  | succ turns ih =>
    unfold leaveFull
    split_ifs with hfull
    · -- One more file is full.  The entries stay the same, so the induction hypothesis speaks of `s`.
      have hsame : Untouched s (s.flushBlockFile.resize (nFile + 2)) :=
        (untouched_flushBlockFile s).trans (untouched_resize _ _)
      have hend' : (s.flushBlockFile.resize (nFile + 2)).full nAddSize (nFile + 1 + turns) = false := by
        rw [hsame.full, show nFile + 1 + turns = nFile + (turns + 1) by omega]
        exact hend
      obtain ⟨huntouched, hlt, hle, hroom, hbefore⟩ := ih _ (nFile + 1) (lt_length_resize _ _) hend'
      rw [hsame.full] at hroom
      refine ⟨hsame.trans huntouched, hlt, Nat.le_of_lt hle, hroom, ?_⟩
      intro g hlow hhigh
      by_cases hg : g = nFile
      · rw [hg]
        exact hfull
      · rw [← hsame.full]
        exact hbefore g (Nat.lt_of_le_of_ne hlow (Ne.symm hg)) hhigh
    · refine ⟨⟨rfl, rfl, rfl, fun _ _ => rfl⟩, hfile, Nat.le_refl _, Bool.eq_false_iff.mpr hfull, ?_⟩
      intro g hlow hhigh
      exact absurd hhigh (Nat.not_lt.mpr hlow)

/-! ## What a call hands out -/

/-- A region for a block is handed out in the file `f`. -/
structure BlockAdded (s s' : BlockFiles) (f start nAddSize : Nat) : Prop where
  blockSize : s'.blockSize = update s.blockSize f (addUInt (s.blockSize f) nAddSize)
  undoSize : s'.undoSize = s.undoSize
  blockRegions : s'.blockRegions = update s.blockRegions f (s.blockRegions f ++ [region start nAddSize])
  undoRegions : s'.undoRegions = s.undoRegions
  cut : (∀ f, ∀ r ∈ s.blockRegions f, r.stop ≤ s.blockSize f) →
    (∀ f, ∀ r ∈ s.undoRegions f, r.stop ≤ s.undoSize f) → s'.cut = s.cut

theorem Untouched.addBlock (h : Untouched s t) (hf : f < t.vinfoBlockFile.length) (nHeight nTime : Nat)
    (hinfo : s'.info = (t.addBlock f nAddSize nHeight nTime).info)
    (hblocks : s'.blockRegions = update t.blockRegions f (t.blockRegions f ++ [region start nAddSize]))
    (hundos : s'.undoRegions = t.undoRegions) (hcut : s'.cut = t.cut) : BlockAdded s s' f start nAddSize := by
  have hset : (t.addBlock f nAddSize nHeight nTime).info = update t.info f
      ({ t.info f with nSize := addUInt (t.info f).nSize nAddSize }.addBlock nHeight nTime) :=
    info_setInfo hf _
  have hone : ∀ g, s'.blockSize g = update s.blockSize f (addUInt (s.blockSize f) nAddSize) g ∧
      s'.undoSize g = s.undoSize g := by
    intro g
    unfold BlockFiles.blockSize BlockFiles.undoSize
    rw [hinfo, hset, h.info]
    by_cases hg : g = f
    · rw [hg, update_self, update_self]
      exact ⟨rfl, rfl⟩
    · rw [update_of_ne hg, update_of_ne hg]
      exact ⟨rfl, rfl⟩
  refine ⟨funext fun g => (hone g).1, funext fun g => (hone g).2, ?_, ?_, ?_⟩
  · rw [hblocks, h.blockRegions]
  · rw [hundos, h.undoRegions]
  · intro hwithin hwithin'
    rw [hcut, h.cut hwithin hwithin']

theorem nAddSize_lt (block : StoredBlock) :
    block.nBlockSize + BLOCK_SERIALIZATION_HEADER_SIZE < MAX_BLOCKFILE_SIZE := by
  have hsize := block.size_le
  have hblock : MAX_BLOCK_SIZE = 1000000 := rfl
  have hheader : BLOCK_SERIALIZATION_HEADER_SIZE = 8 := rfl
  have hmax : MAX_BLOCKFILE_SIZE = 134217728 := rfl
  omega

theorem received_added {block : StoredBlock} {nFree : Nat} (h : s.step (.received block nFree) = some s') :
    ∃ f, s.FirstWithRoom (block.nBlockSize + BLOCK_SERIALIZATION_HEADER_SIZE) f ∧
      BlockAdded s s' f (s.blockSize f) (block.nBlockSize + BLOCK_SERIALIZATION_HEADER_SIZE) := by
  obtain ⟨⟨t, pos⟩, hfind, hstep⟩ := Option.bind_eq_some_iff.mp h
  have hstep := Option.some.inj hstep
  simp only [findBlockPos, Bool.false_eq_true, if_false] at hfind
  split_ifs at hfind
  cases hfind
  have hresize := untouched_resize s (s.nLastBlockFile + 1)
  have hend : (s.resize (s.nLastBlockFile + 1)).full (block.nBlockSize + BLOCK_SERIALIZATION_HEADER_SIZE)
      (s.nLastBlockFile + (s.resize (s.nLastBlockFile + 1)).vinfoBlockFile.length) = false :=
    full_of_length_le (nAddSize_lt block) (Nat.le_add_left _ _)
  obtain ⟨huntouched, hlt, hle, hroom, hbefore⟩ := leaveFull_spec _ _ (s.resize (s.nLastBlockFile + 1))
    s.nLastBlockFile (lt_length_resize s _) hend
  have hsame := hresize.trans huntouched
  refine ⟨_, ⟨hle, ?_, ?_⟩, ?_⟩
  · rw [← hresize.full]
    exact hroom
  · intro g hlow hhigh
    rw [← hresize.full]
    exact hbefore g hlow hhigh
  · refine hsame.addBlock hlt block.nHeight block.nTime ?_ ?_ ?_ ?_
    · rw [← hstep]
      rfl
    · rw [← hstep]
      unfold blockSize
      rw [← hsame.info]
      rfl
    · rw [← hstep]
      rfl
    · rw [← hstep]
      rfl

theorem found_added {block : StoredBlock} (h : s.step (.found block nFile start) = some s') :
    BlockAdded s s' nFile start (block.nBlockSize + BLOCK_SERIALIZATION_HEADER_SIZE) := by
  have hstep := Option.some.inj h
  refine (untouched_resize s (nFile + 1)).addBlock (lt_length_resize s _) block.nHeight block.nTime ?_ ?_ ?_ ?_
  · rw [← hstep]
    rfl
  · rw [← hstep]
    rfl
  · rw [← hstep]
    rfl
  · rw [← hstep]
    rfl

/-- A region for undo data is handed out in the file `f`. -/
structure UndoAdded (s s' : BlockFiles) (f nAddSize : Nat) : Prop where
  undoSize : s'.undoSize = update s.undoSize f (addUInt (s.undoSize f) nAddSize)
  blockSize : s'.blockSize = s.blockSize
  undoRegions : s'.undoRegions = update s.undoRegions f (s.undoRegions f ++ [region (s.undoSize f) nAddSize])
  blockRegions : s'.blockRegions = s.blockRegions
  cut : s'.cut = s.cut

theorem undo_added {nFree : Nat} (h : s.step (.undo nFile nAddSize nFree) = some s') :
    UndoAdded s s' nFile nAddSize := by
  obtain ⟨⟨t, pos⟩, hfind, hstep⟩ := Option.bind_eq_some_iff.mp h
  have hstep := Option.some.inj hstep
  simp only [findUndoPos] at hfind
  split_ifs at hfind with hlt
  cases hfind
  have hset := info_setInfo (Nat.not_le.mp hlt)
    { s.info nFile with nUndoSize := addUInt (s.info nFile).nUndoSize nAddSize }
  have hinfo : s'.info = update s.info nFile
      { s.info nFile with nUndoSize := addUInt (s.info nFile).nUndoSize nAddSize } := by
    rw [← hset, ← hstep]
    rfl
  have hone : ∀ g, s'.undoSize g = update s.undoSize nFile (addUInt (s.undoSize nFile) nAddSize) g ∧
      s'.blockSize g = s.blockSize g := by
    intro g
    unfold BlockFiles.blockSize BlockFiles.undoSize
    rw [hinfo]
    by_cases hg : g = nFile
    · rw [hg, update_self, update_self]
      exact ⟨rfl, rfl⟩
    · rw [update_of_ne hg, update_of_ne hg]
      exact ⟨rfl, rfl⟩
  refine ⟨funext fun g => (hone g).1, funext fun g => (hone g).2, ?_, ?_, ?_⟩
  · rw [← hstep]
    rfl
  · rw [← hstep]
    rfl
  · rw [← hstep]
    rfl

/-! ## One call -/

theorem forall_packed {size size' : Nat → Nat} {regions regions' : Nat → List Extent} {n : Nat}
    (h : ∀ g, Packed (size g) (regions g)) (hsize : size' = update size f (addUInt (size f) n))
    (hregions : regions' = update regions f (regions f ++ [region (size f) n]))
    (hfits : size f + n < 2 ^ 32) (g : Nat) : Packed (size' g) (regions' g) := by
  rw [hsize, hregions]
  by_cases hg : g = f
  · rw [hg, update_self, update_self]
    unfold addUInt
    rw [Nat.mod_eq_of_lt hfits]
    exact (h f).append n
  · rw [update_of_ne hg, update_of_ne hg]
    exact h g

theorem Filled.blockAdded (h : s.Filled) (hadded : BlockAdded s s' f (s.blockSize f) nAddSize)
    (hfits : s.blockSize f + nAddSize < 2 ^ 32) : s'.Filled where
  blocks := forall_packed h.blocks hadded.blockSize hadded.blockRegions hfits
  undos := by
    rw [hadded.undoSize, hadded.undoRegions]
    exact h.undos
  whole := by
    rw [hadded.cut (fun g => (h.blocks g).le) fun g => (h.undos g).le]
    exact h.whole

theorem Filled.undoAdded (h : s.Filled) (hadded : UndoAdded s s' f nAddSize)
    (hfits : s.undoSize f + nAddSize < 2 ^ 32) : s'.Filled where
  undos := forall_packed h.undos hadded.undoSize hadded.undoRegions hfits
  blocks := by
    rw [hadded.blockSize, hadded.blockRegions]
    exact h.blocks
  whole := by
    rw [hadded.cut]
    exact h.whole

theorem Filled.step (h : s.Filled) (hfits : s.Fits c) (hstep : s.step c = some s') : s'.Filled := by
  cases c with
  | received block nFree =>
    obtain ⟨f, hroom, hadded⟩ := received_added hstep
    have hlt := hfits f hroom
    exact h.blockAdded hadded (by omega)
  | found block nFile start =>
    obtain ⟨hstart, hlt⟩ := hfits
    have hadded := found_added hstep
    rw [hstart] at hadded
    exact h.blockAdded hadded (by omega)
  | undo nFile nAddSize nFree => exact h.undoAdded (undo_added hstep) hfits

/-- If the regions are sound after a block was added, it stands behind what was in use. -/
theorem Filled.start_eq (h : s.Filled) (hadded : BlockAdded s s' f start nAddSize) (hpos : 0 < nAddSize)
    (hsound : s'.Sound) : start = s.blockSize f ∧ s.blockSize f + nAddSize < 2 ^ 32 := by
  have hwithin := hsound.blocks f
  rw [hadded.blockSize, hadded.blockRegions, update_self, update_self] at hwithin
  have hle : addUInt (s.blockSize f) nAddSize ≤ s.blockSize f + nAddSize := Nat.mod_le _ _
  have hstart := (h.blocks f).start_eq hpos (hwithin.mono hle)
  refine ⟨hstart, ?_⟩
  have hstop : start + nAddSize ≤ addUInt (s.blockSize f) nAddSize :=
    hwithin.le _ (mem_append_right _ (mem_singleton.mpr rfl))
  have hmod : addUInt (s.blockSize f) nAddSize < 2 ^ 32 := Nat.mod_lt _ (Nat.two_pow_pos _)
  omega

theorem FirstWithRoom.unique {f g : Nat} (hf : s.FirstWithRoom nAddSize f) (hg : s.FirstWithRoom nAddSize g) :
    f = g := by
  rcases Nat.lt_trichotomy f g with hlt | heq | hlt
  · have hfull := hg.2.2 f hf.1 hlt
    rw [hf.2.1] at hfull
    cases hfull
  · exact heq
  · have hfull := hf.2.2 g hg.1 hlt
    rw [hg.2.1] at hfull
    cases hfull

theorem Filled.fits (h : s.Filled) (hstep : s.step c = some s') (hsound : s'.Sound) : s.Fits c := by
  cases c with
  | received block nFree =>
    obtain ⟨f, hroom, hadded⟩ := received_added hstep
    intro g hg
    rw [hg.unique hroom]
    obtain ⟨-, hlt⟩ := h.start_eq hadded (Nat.succ_pos _) hsound
    omega
  | found block nFile start =>
    obtain ⟨hstart, hlt⟩ := h.start_eq (found_added hstep) (Nat.succ_pos _) hsound
    exact ⟨hstart, by omega⟩
  | undo nFile nAddSize nFree =>
    have hadded := undo_added hstep
    have hwithin := hsound.undos nFile
    rw [hadded.undoSize, hadded.undoRegions, update_self, update_self] at hwithin
    have hstop : s.undoSize nFile + nAddSize ≤ addUInt (s.undoSize nFile) nAddSize :=
      hwithin.le _ (mem_append_right _ (mem_singleton.mpr rfl))
    have hmod : addUInt (s.undoSize nFile) nAddSize < 2 ^ 32 := Nat.mod_lt _ (Nat.two_pow_pos _)
    show s.undoSize nFile + nAddSize < 2 ^ 32
    omega

/-! ## Whole runs -/

theorem filled_fresh : fresh.Filled :=
  ⟨fun _ => packed_nil, fun _ => packed_nil, rfl⟩

theorem run_append (hrun : s.run calls = some t) : s.run (calls ++ [c]) = t.step c := by
  unfold run at hrun ⊢
  rw [foldlM_append, hrun]
  show (t.step c).bind some = _
  rw [Option.bind_fun_some]

theorem run_last (hrun : s.run (calls ++ [c]) = some s') : ∃ t, s.run calls = some t ∧ t.step c = some s' := by
  cases hbefore : s.run calls with
  | none =>
    unfold run at hrun hbefore
    rw [foldlM_append, hbefore] at hrun
    exact absurd hrun.symm (Option.some_ne_none _)
  | some t =>
    rw [run_append hbefore] at hrun
    exact ⟨t, rfl, hrun⟩

/-- A run fills its files if each of its calls does so. -/
theorem filled_run
    (hcall : ∀ before c after t t', calls = before ++ c :: after → fresh.run before = some t → t.step c = some t' →
      t.Filled → t'.Filled) {before after : List FileCall} (hsplit : calls = before ++ after)
    (hrun : fresh.run before = some s) : s.Filled := by
  induction before using List.reverseRecOn generalizing s after with
  | nil =>
    cases hrun
    exact filled_fresh
  | append_singleton before c ih =>
    obtain ⟨t, hbefore, hstep⟩ := run_last hrun
    have hsplit : calls = before ++ c :: after := by
      rw [hsplit, append_assoc]
      rfl
    exact hcall before c after t s hsplit hbefore hstep (ih hsplit hbefore)

end BlockFiles

open BlockFiles in
/-- In every run from a node without block files, the regions handed out are sound in every state if and only if each
block found at a known position stands directly behind the bytes its file has in use, and no size wraps around. -/
theorem regions_sound_iff (calls : List FileCall) :
    (∀ before after s, calls = before ++ after → fresh.run before = some s → s.Sound) ↔
    ∀ before c after s s', calls = before ++ c :: after → fresh.run before = some s → s.step c = some s' →
      s.Fits c := by
  constructor
  · intro hsound before c after s s' hsplit hrun hstep
    have hnext : ∀ before c after t t', calls = before ++ c :: after → fresh.run before = some t →
        t.step c = some t' → t'.Sound := by
      intro before c after t t' hsplit hrun hstep
      refine hsound (before ++ [c]) after t' ?_ ?_
      · rw [hsplit, append_assoc]
        rfl
      · rw [run_append hrun]
        exact hstep
    have hfilled : s.Filled := by
      refine filled_run (fun before c after t t' hsplit hrun hstep ht => ?_) hsplit hrun
      exact ht.step (ht.fits hstep (hnext before c after t t' hsplit hrun hstep)) hstep
    exact hfilled.fits hstep (hnext before c after s s' hsplit hrun hstep)
  · intro hfits before after s hsplit hrun
    have hfilled : s.Filled := by
      refine filled_run (fun before c after t t' hsplit hrun hstep ht => ?_) hsplit hrun
      exact ht.step (hfits before c after t t' hsplit hrun hstep) hstep
    exact hfilled.sound

namespace Example

def smallBlock : StoredBlock where
  nBlockSize := 300
  nHeight := 1
  nTime := 1390280400
  size_le := by decide

end Example

open Example

open BlockFiles in
/-- A file holds a block, then 308 bytes that are no new block, then another block.  The size counts the two blocks
only, so that the next block received overlaps the second of them. -/
theorem regions_overlap :
    ∃ s, fresh.run [.found smallBlock 0 0, .found smallBlock 0 616,
      .received smallBlock 1000000000] = some s ∧ ¬ s.Sound ∧
      s.blockRegions 0 = [region 0 308, region 616 308, region 616 308] ∧ s.blockSize 0 = 924 := by
  have hrun : (fresh.run [.found smallBlock 0 0, .found smallBlock 0 616,
      .received smallBlock 1000000000]).map (fun s => (s.blockRegions 0, s.blockSize 0)) =
      some ([region 0 308, region 616 308, region 616 308], 924) := by
    decide
  obtain ⟨s, hs, hvalues⟩ := Option.map_eq_some_iff.mp hrun
  obtain ⟨hregions, hsize⟩ := Prod.mk.inj hvalues
  refine ⟨s, hs, fun hsound => ?_, hregions, hsize⟩
  have hwithin := (hsound.blocks 0).apart
  rw [hregions] at hwithin
  exact absurd hwithin (by decide)

end Reddcoin
