import Reddcoin.Index.Rejection
import Reddcoin.Net.Download

/-!
# Inside the download window

The chunks of `FindNextBlocksToDownload` together are the ancestors of the best known block above the last common one,
from the lowest upwards, and the loops look through them in one go.
-/

namespace Reddcoin

open List

open Forest (Anc Graded path stretch)

/-! ## One chunk -/

/-- A chunk filled from its end is a stretch of the path to the best known block. -/
theorem BlockMap.Tree.fillToFetch_eq {m : BlockMap} (hm : m.Tree) {best w : Ptr} (hbest : best < m.size)
    (hw : Anc m.par w best) {k : Nat} (hk : k < m.ht w) :
    fillToFetch m k w = some (stretch m.par m.ht best (m.ht w - (k + 1)) (m.ht w)) := by
  have hwS := hm.graded.anc_mem hbest hw
  induction k generalizing w with
  | zero =>
    have hend := hm.graded.stretch_succ hbest (Nat.le_refl (m.ht w - 1)) hw (by omega)
    rw [Forest.stretch_self, show m.ht w - 1 + 1 = m.ht w by omega] at hend
    rw [fillToFetch, hend]
    rfl
  | succ k ih =>
    have hnotroot : m.par w ≠ none := fun hroot => by
      have := hm.graded.root hwS hroot
      omega
    obtain ⟨q, hq⟩ := Option.ne_none_iff_exists'.mp hnotroot
    have hstep := hm.graded.height hwS hq
    have hfill := ih ((Anc.of_parent hq).trans hw) (by omega) (hm.graded.closed hwS hq)
    have hend := hm.graded.stretch_succ hbest (Nat.sub_le (m.ht q) (k + 1)) hw hstep
    rw [fillToFetch, hq, Option.bind_some, hfill, hstep, show m.ht q + 1 - (k + 1 + 1) = m.ht q - (k + 1) by omega,
      hend]
    rfl

/-- The next chunk is read from an entry further on, and reaches down to the entry where the last one ended. -/
theorem BlockMap.Tree.nextChunk {m : BlockMap} (hm : m.Tree) {best w : Ptr} (hbest : best < m.size) {n : Nat}
    (hpos : 0 < n) (hle : m.ht w + n ≤ m.ht best) :
    ∃ w', Anc m.par w' best ∧ m.ht w' = m.ht w + n ∧ m.readingGetAncestor best (m.ht w + n : Nat) = some (some w') ∧
      fillToFetch m (n - 1) w' = some (stretch m.par m.ht best (m.ht w) (m.ht w')) := by
  obtain ⟨w', hw', hheight⟩ := hm.graded.exists_anc hbest hle
  have hfill := hm.fillToFetch_eq hbest hw' (show n - 1 < m.ht w' by omega)
  refine ⟨w', hw', hheight, ?_, ?_⟩
  · rw [hm.forested.getAncestor_eq_reading hbest, (hm.getAncestor_eq_some hbest).mpr ⟨hw', hheight⟩]
  · rw [hfill, show m.ht w' - (n - 1 + 1) = m.ht w by omega]

theorem Fetch.nToFetch_pos (count : UInt32) (f : Fetch) {left : Nat} (hleft : 0 < left) :
    0 < f.nToFetch count left ∧ f.nToFetch count left ≤ left := by
  unfold Fetch.nToFetch
  omega

/-! ## Looking through the blocks -/

/-- The locals when the loop is over or has been left. -/
def Fetch.after : Except Fetch Fetch → Fetch
  | .ok f => f
  | .error f => f

section

variable {s : NodeState} {inFlight : BlocksInFlight} {nodeid : NodeId} {count : UInt32} {nWindowEnd : Nat}
  {f f' f'' : Fetch} {xs ys appended appended' : List Ptr} {p best : Ptr}

/-- A block that may be asked for. -/
structure Wanted (s : NodeState) (inFlight : BlocksInFlight) (nWindowEnd : Nat) (p : Ptr) : Prop where
  missing : s.haveData p = false
  idle : inFlight.lookup (s.entry p).hash = none
  window : s.ht p ≤ nWindowEnd

/-- What looking through the blocks `xs` does. -/
structure Gathers (s : NodeState) (inFlight : BlocksInFlight) (nWindowEnd : Nat) (f : Fetch) (xs appended : List Ptr)
    (f' : Fetch) : Prop where
  vBlocks : f'.vBlocks = f.vBlocks ++ appended
  sublist : appended.Sublist xs
  wanted : ∀ p ∈ appended, Wanted s inFlight nWindowEnd p
  common : f'.pindexLastCommonBlock = f.pindexLastCommonBlock ∨
    f'.pindexLastCommonBlock ∈ xs ∧ s.linked f'.pindexLastCommonBlock = true

theorem Gathers.none (xs : List Ptr) (f : Fetch) : Gathers s inFlight nWindowEnd f xs [] f :=
  ⟨(append_nil _).symm, nil_sublist xs, fun _ hp => absurd hp not_mem_nil, .inl rfl⟩

theorem Gathers.append (h : Gathers s inFlight nWindowEnd f xs appended f')
    (h' : Gathers s inFlight nWindowEnd f' ys appended' f'') :
    Gathers s inFlight nWindowEnd f (xs ++ ys) (appended ++ appended') f'' where
  vBlocks := by rw [h'.vBlocks, h.vBlocks, append_assoc]
  sublist := h.sublist.append h'.sublist
  wanted p hp := (mem_append.mp hp).elim (h.wanted p) (h'.wanted p)
  common := by
    rcases h'.common with heq | ⟨hmem, hlinked⟩
    · rw [heq]
      exact h.common.imp_right fun hx => ⟨mem_append_left _ hx.1, hx.2⟩
    · exact .inr ⟨mem_append_right _ hmem, hlinked⟩

theorem visit_gathers (s : NodeState) (inFlight : BlocksInFlight) (nodeid : NodeId) (count : UInt32) (nWindowEnd : Nat)
    (f : Fetch) (p : Ptr) : ∃ appended, Gathers s inFlight nWindowEnd f [p] appended
      (Fetch.after (f.visit s inFlight nodeid count nWindowEnd p)) := by
  unfold Fetch.visit
  by_cases hdata : s.haveData p = true
  · rw [if_pos hdata]
    by_cases hlinked : s.linked p = true
    · rw [if_pos hlinked]
      exact ⟨[], ⟨(append_nil _).symm, nil_sublist _, fun _ hp => absurd hp not_mem_nil,
        .inr ⟨mem_singleton_self p, hlinked⟩⟩⟩
    · rw [if_neg hlinked]
      exact ⟨[], .none _ f⟩
  · rw [if_neg hdata]
    cases hflight : inFlight.lookup (s.entry p).hash with
    | some queued =>
      dsimp only
      split_ifs
      · exact ⟨[], ⟨(append_nil _).symm, nil_sublist _, fun _ hp => absurd hp not_mem_nil, .inl rfl⟩⟩
      · exact ⟨[], .none _ f⟩
    | none =>
      dsimp only
      by_cases hend : nWindowEnd < s.ht p
      · rw [if_pos hend]
        split_ifs
        · exact ⟨[], ⟨(append_nil _).symm, nil_sublist _, fun _ hp => absurd hp not_mem_nil, .inl rfl⟩⟩
        · exact ⟨[], .none _ f⟩
      · rw [if_neg hend]
        have hwanted : ∀ q ∈ [p], Wanted s inFlight nWindowEnd q := by
          intro q hq
          rw [mem_singleton.mp hq]
          exact ⟨Bool.not_eq_true _ ▸ hdata, hflight, Nat.le_of_not_lt hend⟩
        split_ifs
        · exact ⟨[p], ⟨rfl, List.Sublist.refl _, hwanted, .inl rfl⟩⟩
        · exact ⟨[p], ⟨rfl, List.Sublist.refl _, hwanted, .inl rfl⟩⟩

theorem visits_gather (s : NodeState) (inFlight : BlocksInFlight) (nodeid : NodeId) (count : UInt32) (nWindowEnd : Nat)
    (f : Fetch) (xs : List Ptr) : ∃ appended, Gathers s inFlight nWindowEnd f xs appended
      (Fetch.after (xs.foldlM (Fetch.visit s inFlight nodeid count nWindowEnd) f)) := by
  induction xs generalizing f with
  | nil => exact ⟨[], .none _ f⟩
  | cons p xs ih =>
    obtain ⟨first, hfirst⟩ := visit_gathers s inFlight nodeid count nWindowEnd f p
    rw [foldlM_cons]
    cases hvisit : f.visit s inFlight nodeid count nWindowEnd p with
    | error f' =>
      rw [hvisit] at hfirst
      have hstop := hfirst.append (Gathers.none xs f')
      exact ⟨first ++ [], hstop⟩
    | ok f' =>
      rw [hvisit] at hfirst
      obtain ⟨rest, hrest⟩ := ih f'
      exact ⟨first ++ rest, hfirst.append hrest⟩

/-- The blocks stay fewer than asked for, until the last one asked for is found. -/
def Within (count : UInt32) : Except Fetch Fetch → Prop
  | .ok f => f.vBlocks.length < count.toNat
  | .error f => f.vBlocks.length ≤ count.toNat

theorem visit_within (hf : f.vBlocks.length < count.toNat) :
    Within count (f.visit s inFlight nodeid count nWindowEnd p) := by
  unfold Fetch.visit
  by_cases hdata : s.haveData p = true
  · rw [if_pos hdata]
    split_ifs
    · exact hf
    · exact hf
  · rw [if_neg hdata]
    cases hflight : inFlight.lookup (s.entry p).hash with
    | some queued =>
      dsimp only
      split_ifs
      · exact hf
      · exact hf
    | none =>
      dsimp only
      have hlength : (f.vBlocks ++ [p]).length = f.vBlocks.length + 1 := length_append
      split_ifs with hend hempty hlast
      · exact Nat.le_of_lt hf
      · exact Nat.le_of_lt hf
      · exact Nat.le_of_eq hlast
      · show (f.vBlocks ++ [p]).length < count.toNat
        omega

theorem visits_within (s : NodeState) (inFlight : BlocksInFlight) (nodeid : NodeId) (nWindowEnd : Nat)
    (hf : f.vBlocks.length < count.toNat) (xs : List Ptr) :
    Within count (xs.foldlM (Fetch.visit s inFlight nodeid count nWindowEnd) f) := by
  induction xs generalizing f with
  | nil => exact hf
  | cons p xs ih =>
    have hvisit : Within count (f.visit s inFlight nodeid count nWindowEnd p) := visit_within hf
    rw [foldlM_cons]
    cases hfirst : f.visit s inFlight nodeid count nWindowEnd p with
    | error f' =>
      rw [hfirst] at hvisit
      exact hvisit
    | ok f' =>
      rw [hfirst] at hvisit
      exact ih hvisit

theorem Within.length_le {r : Except Fetch Fetch} (h : Within count r) :
    (Fetch.after r).vBlocks.length ≤ count.toNat := by
  cases r with
  | error f => exact h
  | ok f => exact Nat.le_of_lt h

/-! ## All chunks -/

/-- The loop over the chunks ends, and looks through the whole stretch above the start. -/
theorem fetchLoop_eq (hm : s.mapBlockIndex.Tree) (hbest : best < s.size) {nMaxHeight turns : Nat}
    (hmax : nMaxHeight ≤ s.ht best) {w : Ptr} (hw : Anc s.par w best) (hlow : s.ht w ≤ nMaxHeight)
    (hturns : nMaxHeight - s.ht w < turns) (f : Fetch) :
    fetchLoop s inFlight nodeid count best nWindowEnd nMaxHeight turns f w =
      some (Fetch.after ((stretch s.par s.ht best (s.ht w) nMaxHeight).foldlM
        (Fetch.visit s inFlight nodeid count nWindowEnd) f)) := by
  induction turns generalizing f w with
  | zero => omega
  | succ turns ih =>
    unfold fetchLoop
    by_cases hlt : s.ht w < nMaxHeight
    · rw [if_pos hlt]
      dsimp only
      obtain ⟨hpos, hleft⟩ := Fetch.nToFetch_pos count f (Nat.sub_pos_of_lt hlt)
      generalize f.nToFetch count (nMaxHeight - s.ht w) = nToFetch at hpos hleft ⊢
      have hnext : ∃ w', Anc s.par w' best ∧ s.ht w' = s.ht w + nToFetch ∧
          s.mapBlockIndex.readingGetAncestor best (s.ht w + nToFetch : Nat) = some (some w') ∧
          fillToFetch s.mapBlockIndex (nToFetch - 1) w' = some (stretch s.par s.ht best (s.ht w) (s.ht w')) :=
        hm.nextChunk hbest hpos (show s.ht w + nToFetch ≤ s.ht best by omega)
      obtain ⟨w', hw', hheight, hread, hfill⟩ := hnext
      have hsplit : stretch s.par s.ht best (s.ht w) (s.ht w') ++ stretch s.par s.ht best (s.ht w') nMaxHeight =
          stretch s.par s.ht best (s.ht w) nMaxHeight :=
        hm.graded.stretch_append hbest (show s.ht w ≤ s.ht w' by omega) (by omega) hmax
      rw [hread, ← hsplit, foldlM_append]
      dsimp only
      rw [hfill]
      dsimp only
      cases hvisit : (stretch s.par s.ht best (s.ht w) (s.ht w')).foldlM
          (Fetch.visit s inFlight nodeid count nWindowEnd) f with
      | error f' => rfl
      | ok f' => exact ih hw' (by omega) (by omega) f'
    · rw [if_neg hlt, show nMaxHeight = s.ht w by omega, Forest.stretch_self]
      rfl

end

/-! ## The state of a peer -/

section

variable {s : NodeState} {state : PeerBlocks} {p : Ptr}

/-- The pointers of a peer point to entries, and its last common block has all its ancestors' transactions. -/
structure PeerBlocks.Sound (s : NodeState) (state : PeerBlocks) : Prop where
  best : ∀ p, state.pindexBestKnownBlock = some p → p < s.size
  common : ∀ p, state.pindexLastCommonBlock = some p → p < s.size ∧ s.linked p = true

theorem PeerBlocks.Sound.new (s : NodeState) : PeerBlocks.new.Sound s := by
  constructor
  · intro p hp
    cases hp
  · intro p hp
    cases hp

theorem PeerBlocks.announce_cases (s : NodeState) (state : PeerBlocks) (p : Ptr) :
    state.announce s p = state ∨ state.announce s p = { state with pindexBestKnownBlock := some p } := by
  unfold PeerBlocks.announce
  cases state.pindexBestKnownBlock with
  | none => exact .inr rfl
  | some best =>
    dsimp only
    split_ifs
    · exact .inr rfl
    · exact .inl rfl

theorem PeerBlocks.Sound.announce (h : state.Sound s) (hp : p < s.size) : (state.announce s p).Sound s := by
  rcases state.announce_cases s p with heq | heq
  · rw [heq]
    exact h
  · rw [heq]
    refine ⟨fun q hq => ?_, h.common⟩
    cases hq
    exact hp

theorem NodeState.findWithWork_lt {hash : Uint256} (h : s.findWithWork hash = some p) : p < s.size :=
  (BlockMap.find_eq_some (Option.filter_eq_some_iff.mp h).1).1

theorem PeerBlocks.Sound.processBlockAvailability (h : state.Sound s) :
    (processBlockAvailability s state).Sound s := by
  unfold Reddcoin.processBlockAvailability
  split_ifs with hunknown
  · cases hfind : s.findWithWork state.hashLastUnknownBlock with
    | none => exact h
    | some p =>
      have hannounced := h.announce (NodeState.findWithWork_lt hfind)
      exact ⟨hannounced.best, hannounced.common⟩
  · exact h

theorem PeerBlocks.Sound.updateBlockAvailability (h : state.Sound s) (hash : Uint256) :
    (updateBlockAvailability s state hash).Sound s := by
  have hprocessed := h.processBlockAvailability
  unfold Reddcoin.updateBlockAvailability
  dsimp only
  cases hfind : s.findWithWork hash with
  | none => exact ⟨hprocessed.best, hprocessed.common⟩
  | some p => exact hprocessed.announce (NodeState.findWithWork_lt hfind)

theorem announce_common (s : NodeState) (state : PeerBlocks) (p : Ptr) :
    (state.announce s p).pindexLastCommonBlock = state.pindexLastCommonBlock := by
  rcases state.announce_cases s p with heq | heq
  · rw [heq]
  · rw [heq]

theorem processBlockAvailability_common (s : NodeState) (state : PeerBlocks) :
    (processBlockAvailability s state).pindexLastCommonBlock = state.pindexLastCommonBlock := by
  unfold processBlockAvailability
  split_ifs
  · cases s.findWithWork state.hashLastUnknownBlock with
    | none => rfl
    | some p => exact announce_common s state p
  · rfl

end

/-! ## The call -/

/-- `FindNextBlocksToDownload` returns at once: nothing is asked for, or the peer has nothing interesting. -/
def ReturnsAtOnce (s : NodeState) (count : UInt32) (state : PeerBlocks) : Prop :=
  count = 0 ∨ state.pindexBestKnownBlock = none ∨ ∃ best tip, state.pindexBestKnownBlock = some best ∧
    s.tip = some tip ∧ (s.entry best).nChainWork < (s.entry tip).nChainWork

/-- The last common block when the call begins.  For a peer without one it is guessed on the active chain. -/
def commonBefore (s : NodeState) (state : PeerBlocks) (best : Ptr) : Option Ptr :=
  state.pindexLastCommonBlock <|> s.chainActive.at? (min (s.ht best) (s.chainActive.length - 1))

/-- What the call finds otherwise. -/
structure FindsNext (s : NodeState) (inFlight : BlocksInFlight) (count : UInt32) (before best : Ptr)
    (vBlocks appended : List Ptr) (found : Found) : Prop where
  known : found.state.pindexBestKnownBlock = some best
  grown : found.vBlocks = vBlocks ++ appended
  ancestors : ∀ p ∈ appended, Anc s.par p best
  missing : ∀ p ∈ appended, s.haveData p = false
  idle : ∀ p ∈ appended, inFlight.lookup (s.entry p).hash = none
  window : ∀ p ∈ appended, s.ht p ≤ s.ht before + BLOCK_DOWNLOAD_WINDOW
  heights : appended.Pairwise fun p q => s.ht p < s.ht q
  once : appended.Nodup
  few : vBlocks.length < count.toNat → found.vBlocks.length ≤ count.toNat
  common : ∃ a, found.state.pindexLastCommonBlock = some a ∧ Anc s.par a best ∧
    ∀ b, Anc s.par b a → s.haveData b = true

section

variable {N : Node} {s : NodeState} {inFlight : BlocksInFlight} {nodeid : NodeId} {count : UInt32}
  {state : PeerBlocks} {vBlocks : List Ptr} {nodeStaller : Option NodeId} {best before fork t : Ptr}

theorem IndexInv.data_of_linked (hs : IndexInv N s) {a b : Ptr} (ha : a < s.size) (hlinked : s.linked a)
    (hb : Anc s.par b a) : s.haveData b = true :=
  hs.flow.linked_data b (hs.shape.tree.graded.anc_mem ha hb) (hs.linked_anc ha hlinked hb)

/-- The guess on the active chain is linked. -/
theorem IndexInv.guess_linked (hs : IndexInv N s) (best : Ptr) :
    ∃ a, s.chainActive.at? (min (s.ht best) (s.chainActive.length - 1)) = some a ∧ a < s.size ∧ s.linked a = true := by
  obtain ⟨t, htip⟩ := hs.exists_tip
  obtain ⟨ht, hends, hlinked, -⟩ := hs.tip_eq htip
  have hlen := hends.length hs.shape.tree ht
  obtain ⟨a, ha, hheight⟩ := hs.shape.tree.graded.exists_anc ht
    (show min (s.ht best) (s.chainActive.length - 1) ≤ s.mapBlockIndex.ht t by omega)
  refine ⟨a, ?_, hs.shape.tree.graded.anc_mem ht ha, hs.linked_anc ht hlinked ha⟩
  rw [CChain.at?, Option.join_eq_some_iff]
  exact (hends.getElem? hs.shape.tree ht _).mpr ⟨ha, hheight⟩

theorem IndexInv.commonBefore_linked (hs : IndexInv N s) (hstate : state.Sound s) (best : Ptr) :
    ∃ a, commonBefore s state best = some a ∧ a < s.size ∧ s.linked a = true := by
  unfold commonBefore
  cases hcommon : state.pindexLastCommonBlock with
  | none => exact hs.guess_linked best
  | some a => exact ⟨a, rfl, hstate.common a hcommon⟩

/-- From a last common block that is an ancestor of the best known one. -/
theorem IndexInv.fetchFrom_finds (hs : IndexInv N s) (inFlight : BlocksInFlight) (nodeid : NodeId) (count : UInt32)
    (vBlocks : List Ptr) (nodeStaller : Option NodeId) (hstate : state.pindexBestKnownBlock = some best)
    (hbest : best < s.size) (hfork : Anc s.par fork best) (hlinked : s.linked fork)
    (hbefore : s.ht fork ≤ s.ht before) :
    ∃ found appended, fetchFrom s inFlight nodeid count state best fork vBlocks nodeStaller = some found ∧
      found.state.Sound s ∧ FindsNext s inFlight count before best vBlocks appended found := by
  have hm := hs.shape.tree
  have hforkS := hm.graded.anc_mem hbest hfork
  have hle : s.ht fork ≤ s.ht best := (hm.graded.anc_height hbest hfork).1
  have hsound : ∀ a, Anc s.par a best → s.linked a = true →
      ({ state with pindexLastCommonBlock := some a } : PeerBlocks).Sound s := by
    intro a ha hlinked
    constructor
    · intro p hp
      rw [← Option.mem_unique hstate hp]
      exact hbest
    · intro p hp
      cases hp
      exact ⟨hm.graded.anc_mem hbest ha, hlinked⟩
  unfold fetchFrom
  dsimp only
  by_cases hsame : fork = best
  · rw [if_pos hsame]
    refine ⟨_, [], rfl, hsound fork hfork hlinked, hstate, (append_nil _).symm, ?_, ?_, ?_, ?_,
      List.Pairwise.nil, nodup_nil, Nat.le_of_lt, fork, rfl, hfork, fun b hb => hs.data_of_linked hforkS hlinked hb⟩
    all_goals exact fun p hp => absurd hp not_mem_nil
  · rw [if_neg hsame]
    generalize hend : s.ht fork + BLOCK_DOWNLOAD_WINDOW = nWindowEnd
    generalize hmax : min (s.ht best) (nWindowEnd + 1) = nMaxHeight
    rw [fetchLoop_eq hm hbest (by omega) hfork (by omega) (by omega)]
    generalize hstart : Fetch.mk fork vBlocks none nodeStaller = f
    obtain ⟨appended, hgathers⟩ := visits_gather s inFlight nodeid count nWindowEnd f
      (stretch s.par s.ht best (s.ht fork) nMaxHeight)
    have hwithin : f.vBlocks.length < count.toNat → Within count _ := fun hf =>
      visits_within s inFlight nodeid nWindowEnd hf (stretch s.par s.ht best (s.ht fork) nMaxHeight)
    generalize (stretch s.par s.ht best (s.ht fork) nMaxHeight).foldlM
      (Fetch.visit s inFlight nodeid count nWindowEnd) f = r at hgathers hwithin ⊢
    have hf : f.vBlocks = vBlocks := by rw [← hstart]
    have hcommon : f.pindexLastCommonBlock = fork := by rw [← hstart]
    have hmem : ∀ p ∈ stretch s.par s.ht best (s.ht fork) nMaxHeight, Anc s.par p best := fun p hp =>
      ((hm.graded.mem_stretch hbest).mp hp).1
    have hheights : appended.Pairwise fun p q => s.ht p < s.ht q :=
      (hm.graded.pairwise_stretch hbest).sublist hgathers.sublist
    have hafter : Anc s.par (Fetch.after r).pindexLastCommonBlock best ∧
        s.linked (Fetch.after r).pindexLastCommonBlock = true := by
      rcases hgathers.common with heq | ⟨hx, hxlinked⟩
      · rw [heq, hcommon]
        exact ⟨hfork, hlinked⟩
      · exact ⟨hmem _ hx, hxlinked⟩
    refine ⟨_, appended, rfl, hsound _ hafter.1 hafter.2, hstate, ?_, fun p hp => hmem p (hgathers.sublist.subset hp),
      fun p hp => (hgathers.wanted p hp).missing, fun p hp => (hgathers.wanted p hp).idle, fun p hp => ?_, hheights,
      hheights.imp fun hlt heq => ?_, fun hfew => ?_, _, rfl, hafter.1, fun b hb => ?_⟩
    · rw [← hf]
      exact hgathers.vBlocks
    · have hwindow := (hgathers.wanted p hp).window
      omega
    · rw [heq] at hlt
      exact Nat.lt_irrefl _ hlt
    · rw [← hf] at hfew
      exact (hwithin hfew).length_le
    · exact hs.data_of_linked (hm.graded.anc_mem hbest hafter.1) hafter.2 hb

/-- For a peer with sound pointers the call returns, without reading through a null pointer. -/
theorem IndexInv.findNext_spec (hs : IndexInv N s) (inFlight : BlocksInFlight) (nodeid : NodeId)
    (hstate : state.Sound s) (count : UInt32)
    (vBlocks : List Ptr) (nodeStaller : Option NodeId) :
    ∃ found, findNextBlocksToDownload s inFlight nodeid count state vBlocks nodeStaller = some found ∧
      found.state.Sound s ∧
      (ReturnsAtOnce s count (processBlockAvailability s state) →
        found.state.pindexLastCommonBlock = state.pindexLastCommonBlock ∧ found.vBlocks = vBlocks) ∧
      (¬ ReturnsAtOnce s count (processBlockAvailability s state) →
        ∃ before best appended, commonBefore s state best = some before ∧
          FindsNext s inFlight count before best vBlocks appended found) := by
  have hprocessed := hstate.processBlockAvailability
  have hsame := processBlockAvailability_common s state
  obtain ⟨t, htip⟩ := hs.exists_tip
  unfold findNextBlocksToDownload
  by_cases hzero : count = 0
  · rw [if_pos hzero]
    exact ⟨_, rfl, hstate, fun _ => ⟨rfl, rfl⟩, absurd (.inl hzero)⟩
  rw [if_neg hzero]
  dsimp only
  cases hbest : (processBlockAvailability s state).pindexBestKnownBlock with
  | none => exact ⟨_, rfl, hprocessed, fun _ => ⟨hsame, rfl⟩, fun h => absurd (.inr (.inl hbest)) h⟩
  | some best =>
    rw [htip]
    dsimp only
    by_cases hless : (s.entry best).nChainWork < (s.entry t).nChainWork
    · rw [if_pos hless]
      exact ⟨_, rfl, hprocessed, fun _ => ⟨hsame, rfl⟩,
        fun h => absurd (.inr (.inr ⟨best, t, hbest, htip, hless⟩)) h⟩
    · rw [if_neg hless, hsame]
      have hbestS := hprocessed.best best hbest
      obtain ⟨before, hbefore, hbeforeS, hlinked⟩ := hs.commonBefore_linked hstate best
      obtain ⟨fork, hlca, hforkp, hforkbest, -⟩ := hs.shape.tree.lastCommonAncestor_eq hbeforeS hbestS
      obtain ⟨found, appended, hrun, hsound, hfinds⟩ := hs.fetchFrom_finds inFlight nodeid count
        vBlocks nodeStaller hbest hbestS hforkbest
        (hs.linked_anc hbeforeS hlinked hforkp) (hs.shape.tree.graded.anc_height hbeforeS hforkp).1
      have hcommon : (state.pindexLastCommonBlock <|>
          s.chainActive.at? (min (s.ht best) (s.chainActive.length - 1))) = some before := hbefore
      rw [hcommon]
      dsimp only
      rw [hlca]
      refine ⟨found, hrun, hsound, ?_, fun _ => ⟨before, best, appended, hbefore, hfinds⟩⟩
      rintro (h | h | ⟨best', tip, h, htip', hwork⟩)
      · exact absurd h hzero
      · rw [hbest] at h
        cases h
      · cases hbest.symm.trans h
        cases htip.symm.trans htip'
        exact absurd hwork hless

end

/-! ## Every run -/

section

variable {N : Node} {s s' : NodeState} {state : PeerBlocks} {d d' : Downloads}

/-- Entries are never freed, and what is linked stays linked. -/
structure Grows (s s' : NodeState) : Prop where
  size : s.size ≤ s'.size
  linked : ∀ p < s.size, s.linked p = true → s'.linked p = true

theorem Grows.refl (s : NodeState) : Grows s s :=
  ⟨Nat.le_refl _, fun _ _ h => h⟩

theorem Grows.trans {s'' : NodeState} (h : Grows s s') (h' : Grows s' s'') : Grows s s'' :=
  ⟨Nat.le_trans h.size h'.size, fun p hp hlinked =>
    h'.linked p (Nat.lt_of_lt_of_le hp h.size) (h.linked p hp hlinked)⟩

theorem StakeKept.grows (h : StakeKept s s') : Grows s s' :=
  ⟨Nat.le_of_eq h.size.symm, fun p hp hlinked => (h.linked p hp).trans hlinked⟩

theorem Move.grows (hs : IndexInv N s) (move : Move N s s') : Grows s s' := by
  cases move with
  | user move => exact move.stakeKept.grows
  | @add block q =>
    refine ⟨Nat.le_succ _, fun p hp hlinked => ?_⟩
    rw [NodeState.linked, addEntry_entry_old s _ hp]
    exact hlinked
  | @failEmpty p =>
    have hfail : StakeKept s (s.failValid p) :=
      .modify s p (fun _ => rfl) (fun _ => rfl) (fun _ => rfl) fun _ => rfl
    have hdirty : StakeKept (s.failValid p) ((s.failValid p).setDirty p) := .of_map rfl rfl
    exact (hfail.trans hdirty).grows
  | @failQuiet p =>
    have hfail : StakeKept s (s.failValid p) :=
      .modify s p (fun _ => rfl) (fun _ => rfl) (fun _ => rfl) fun _ => rfl
    exact hfail.grows
  | @receive block p size empty =>
    refine ⟨Nat.le_refl _, fun q hq hlinked => ?_⟩
    have hne : q ≠ p := by
      rintro rfl
      rw [hs.linked_of_empty hq empty] at hlinked
      cases hlinked
    rw [receiveData_linked_ne hne]
    exact hlinked
  | @link p size data unlinked =>
    refine ⟨Nat.le_refl _, fun q hq hlinked => ?_⟩
    have hne : q ≠ p := by
      rintro rfl
      rw [unlinked] at hlinked
      cases hlinked
    rw [link_linked_ne hne]
    exact hlinked
  | @stake f p same =>
    refine ⟨Nat.le_refl _, fun q hq hlinked => ?_⟩
    have hkeep : (s.modify p f).linked q = s.linked q :=
      entry_modify_keep CBlockIndex.linked s p f
        (fun e => by unfold CBlockIndex.linked; rw [(same e).nChainTx]) q
    rw [hkeep]
    exact hlinked
  | drain p =>
    have hkept : StakeKept s (s.drain p) := .of_map rfl rfl
    exact hkept.grows
  | wait => exact ⟨Nat.le_refl _, fun _ _ hlinked => hlinked⟩

theorem Moves.grows (hs : IndexInv N s) (moves : Moves N s s') : Grows s s' := by
  induction moves with
  | refl => exact .refl s
  | tail before move ih => exact ih.trans (move.grows (Moves.inv before hs))

theorem PeerBlocks.Sound.grows (h : state.Sound s) (hgrows : Grows s s') : state.Sound s' where
  best p hp := Nat.lt_of_lt_of_le (h.best p hp) hgrows.size
  common p hp := by
    obtain ⟨hlt, hlinked⟩ := h.common p hp
    exact ⟨Nat.lt_of_lt_of_le hlt hgrows.size, hgrows.linked p hlt hlinked⟩

/-- The index is in order, and so are the pointers of every peer. -/
structure DownloadInv (N : Node) (d : Downloads) : Prop where
  index : IndexInv N d.node
  peers : ∀ nodeid state, d.mapNodeState.lookup nodeid = some state → state.Sound d.node

theorem DownloadInv.moves (h : DownloadInv N d) (moves : Moves N d.node s') :
    DownloadInv N { d with node := s' } where
  index := Moves.inv moves h.index
  peers nodeid state hpeer := (h.peers nodeid state hpeer).grows (moves.grows h.index)

theorem DownloadInv.setState (h : DownloadInv N d) (hstate : state.Sound d.node) (nodeid : NodeId) :
    DownloadInv N (d.setState nodeid state) where
  index := h.index
  peers other state' hpeer := by
    by_cases heq : other = nodeid
    · subst heq
      cases (AList.lookup_insert _).symm.trans hpeer
      exact hstate
    · exact h.peers other state' ((AList.lookup_insert_ne heq).symm.trans hpeer)

theorem DownloadInv.empty (hs : IndexInv N s) : DownloadInv N { node := s, mapNodeState := ∅ } := by
  refine ⟨hs, fun nodeid state hpeer => ?_⟩
  rw [AList.lookup_empty] at hpeer
  cases hpeer

theorem DownloadStep.inv (step : DownloadStep N d d') (h : DownloadInv N d) : DownloadInv N d' := by
  cases step with
  | @index s' op stays step =>
    obtain ⟨r, s₁, hrun, -, rfl⟩ := step
    have hmoves := run_moves h.index hrun stays
    exact h.moves (hmoves.tail (.chain (.note s₁ _ _ _ _)))
  | @turn m s₁ s' pblock most step =>
    obtain ⟨hmoves, -, hsome⟩ := findMostWorkChain_spec h.index most
    have hstep := activateBestChainStep_moves (hmoves.inv h.index) (hsome m rfl) (blockOf_fits N s₁ pblock m) step
    exact h.moves (ChainMoves.moves (hmoves.trans hstep))
  | @restart s' A step =>
    obtain ⟨r, s₁, hrun, -, rfl⟩ := step
    exact .empty (tick_inv (run_inv h.index hrun))
  | initializeNode nodeid =>
    refine h.setState ?_ nodeid
    cases hpeer : d.mapNodeState.lookup nodeid with
    | none => exact .new d.node
    | some state => exact h.peers nodeid state hpeer
  | finalizeNode nodeid =>
    refine ⟨h.index, fun other state hpeer => ?_⟩
    by_cases heq : other = nodeid
    · subst heq
      have hgone : (d.mapNodeState.erase other).lookup other = some state := hpeer
      rw [AList.lookup_erase] at hgone
      cases hgone
    · exact h.peers other state ((AList.lookup_erase_ne heq).symm.trans hpeer)
  | @processBlockAvailability nodeid state known =>
    exact h.setState (h.peers nodeid state known).processBlockAvailability nodeid
  | @updateBlockAvailability nodeid state hash known =>
    exact h.setState ((h.peers nodeid state known).updateBlockAvailability hash) nodeid
  | @findNextBlocksToDownload nodeid state found inFlight count vBlocks nodeStaller known run =>
    obtain ⟨found', hrun, hsound, -⟩ := h.index.findNext_spec inFlight nodeid
      (h.peers nodeid state known) count vBlocks nodeStaller
    cases hrun.symm.trans run
    exact h.setState hsound nodeid

theorem DownloadReachable.inv (h : DownloadReachable N d) : DownloadInv N d := by
  induction h with
  | start reachable => exact .empty reachable.inv
  | step before step ih => exact step.inv ih

/-- In every state of a node with peers `FindNextBlocksToDownload` returns.  Unless it returns at once, it appends
ancestors of the best known block that are missing and not in flight, inside the window above the last common block, at
growing heights, and leaves a last common block all of whose ancestors are there. -/
theorem findNextBlocksToDownload_finds (h : DownloadReachable N d) {nodeid : NodeId}
    (known : d.mapNodeState.lookup nodeid = some state) (mapBlocksInFlight : BlocksInFlight) (count : UInt32)
    (vBlocks : List Ptr) (nodeStaller : Option NodeId) :
    ∃ found, findNextBlocksToDownload d.node mapBlocksInFlight nodeid count state vBlocks nodeStaller = some found ∧
      (ReturnsAtOnce d.node count (processBlockAvailability d.node state) →
        found.state.pindexLastCommonBlock = state.pindexLastCommonBlock ∧ found.vBlocks = vBlocks) ∧
      (¬ ReturnsAtOnce d.node count (processBlockAvailability d.node state) →
        ∃ before best appended, commonBefore d.node state best = some before ∧
          FindsNext d.node mapBlocksInFlight count before best vBlocks appended found) := by
  have hinv := h.inv
  obtain ⟨found, hrun, -, hfinds⟩ := hinv.index.findNext_spec mapBlocksInFlight nodeid
    (hinv.peers nodeid state known) count vBlocks nodeStaller
  exact ⟨found, hrun, hfinds⟩

end

/-! ## A worked peer -/

namespace Example

/-- One peer, which has announced one block. -/
def peerWith (s : NodeState) (hash : Uint256) : Downloads :=
  let d := (Downloads.mk s ∅).setState 3 PeerBlocks.new
  d.setState 3 (updateBlockAvailability s PeerBlocks.new hash)

theorem reachable_peerWith {s : NodeState} (hs : Reachable node s) (hash : Uint256) :
    DownloadReachable node (peerWith s hash) := by
  have hstart : DownloadReachable node { node := s, mapNodeState := ∅ } := .start hs
  have hpeer := DownloadReachable.step hstart (.initializeNode _ 3)
  rw [AList.lookup_empty] at hpeer
  exact .step hpeer (.updateBlockAvailability hash (AList.lookup_insert _))

theorem lookup_peerWith (s : NodeState) (hash : Uint256) :
    (peerWith s hash).mapNodeState.lookup 3 = some (updateBlockAvailability s PeerBlocks.new hash) :=
  AList.lookup_insert _

/-- The active chain has one block above the genesis block. -/
def firstConnected : NodeState :=
  after node oneReceived (.activateBestChain none 5)

theorem reachable_firstConnected : Reachable node firstConnected :=
  .step _ sound_oneReceived.reachable (step_after (by decide))

/-- The peer knows the genesis block alone. -/
def lowPeer : PeerBlocks :=
  updateBlockAvailability firstConnected PeerBlocks.new 7000

end Example

open Example in
/-- The peer announces a block of which only the header is known. -/
theorem findNextBlocksToDownload_finds_example :
    ∃ found,
      findNextBlocksToDownload childKnown ∅ 3 16 (updateBlockAvailability childKnown PeerBlocks.new 7002) [] none =
        some found ∧
      (ReturnsAtOnce childKnown 16
          (processBlockAvailability childKnown (updateBlockAvailability childKnown PeerBlocks.new 7002)) →
        found.state.pindexLastCommonBlock =
          (updateBlockAvailability childKnown PeerBlocks.new 7002).pindexLastCommonBlock ∧ found.vBlocks = []) ∧
      (¬ ReturnsAtOnce childKnown 16
          (processBlockAvailability childKnown (updateBlockAvailability childKnown PeerBlocks.new 7002)) →
        ∃ before best appended,
          commonBefore childKnown (updateBlockAvailability childKnown PeerBlocks.new 7002) best = some before ∧
          FindsNext childKnown ∅ 16 before best [] appended found) :=
  findNextBlocksToDownload_finds (reachable_peerWith reachable_childKnown 7002) (lookup_peerWith childKnown 7002) ∅ 16
    [] none

open Example in
/-- The block is asked for, and the last common block is the one that has been received. -/
example : (findNextBlocksToDownload childKnown ∅ 3 16 (updateBlockAvailability childKnown PeerBlocks.new 7002) []
    none).map (fun found => (found.vBlocks, found.state.pindexLastCommonBlock)) = some ([2], some 1) := by
  decide

open Example in
/-- A peer whose best known block has less work than the tip is left without a last common block. -/
theorem findNextBlocksToDownload_uninteresting :
    DownloadReachable node (peerWith firstConnected 7000) ∧
    (peerWith firstConnected 7000).mapNodeState.lookup 3 = some lowPeer ∧
    ∃ found, findNextBlocksToDownload (peerWith firstConnected 7000).node ∅ 3 16 lowPeer [] none = some found ∧
      found.state.pindexBestKnownBlock = some 0 ∧
      ¬ ∃ a, found.state.pindexLastCommonBlock = some a ∧ Anc (peerWith firstConnected 7000).node.par a 0 := by
  refine ⟨reachable_peerWith reachable_firstConnected 7000, lookup_peerWith firstConnected 7000,
    { state := lowPeer, vBlocks := [], nodeStaller := none }, by decide, by decide, ?_⟩
  rintro ⟨a, ha, -⟩
  have hnone : lowPeer.pindexLastCommonBlock = none := by decide
  rw [hnone] at ha
  cases ha

end Reddcoin
