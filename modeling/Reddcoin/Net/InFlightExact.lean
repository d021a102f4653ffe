import Reddcoin.Net.InFlight

/-!
# The in-flight bookkeeping over whole runs

Over any run of the four calls, `mapBlocksInFlight` points to exactly the elements of the peers' lists, and the
length counters are right.  `nQueuedValidatedHeaders` is too large by the elements with validated headers that
were in flight from peers when they left.
-/

namespace Reddcoin

open AList (lookup_erase lookup_erase_ne lookup_insert lookup_insert_ne)

open List Function

variable {blocks : List (Nat × QueuedBlock)} {entry : QueuedBlock}

/-- The number of elements with validated headers. -/
def validatedOf (blocks : List (Nat × QueuedBlock)) : Nat :=
  blocks.countP fun n => n.2.fValidatedHeaders

/-- No two elements of a list share a hash or an iterator. -/
structure Distinct (nElements : Nat) (blocks : List (Nat × QueuedBlock)) : Prop where
  hashes : (blocks.map fun n => n.2.hash).Nodup
  iterators : (blocks.map Prod.fst).Nodup
  elements : ∀ n ∈ blocks, n.1 < nElements

theorem Distinct.filter {n : Nat} (h : Distinct n blocks)
    (keep : Nat × QueuedBlock → Bool) : Distinct n (blocks.filter keep) where
  hashes := h.hashes.sublist (filter_sublist.map _)
  iterators := h.iterators.sublist (filter_sublist.map _)
  elements := fun m hm => h.elements m (mem_of_mem_filter hm)

theorem Distinct.mono {n m : Nat} (h : Distinct n blocks) (hle : n ≤ m) : Distinct m blocks where
  hashes := h.hashes
  iterators := h.iterators
  elements := fun k hk => Nat.lt_of_lt_of_le (h.elements k hk) hle

theorem Distinct.append {n : Nat} {it : Nat} (h : Distinct n blocks) (hit : it < n)
    (hhash : ∀ k ∈ blocks, k.2.hash ≠ entry.hash)
    (hnew : ∀ k ∈ blocks, k.1 ≠ it) : Distinct n (blocks ++ [(it, entry)]) where
  hashes := by
    rw [map_append, map_singleton, nodup_append]
    refine ⟨h.hashes, nodup_singleton _, ?_⟩
    intro x hx y hy
    obtain ⟨k, hk, rfl⟩ := mem_map.mp hx
    rw [mem_singleton.mp hy]
    exact hhash k hk
  iterators := by
    rw [map_append, map_singleton, nodup_append]
    refine ⟨h.iterators, nodup_singleton _, ?_⟩
    intro x hx y hy
    obtain ⟨k, hk, rfl⟩ := mem_map.mp hx
    rw [mem_singleton.mp hy]
    exact hnew k hk
  elements := by
    intro k hk
    rcases mem_append.mp hk with hk | hk
    · exact h.elements k hk
    · rw [mem_singleton.mp hk]
      exact hit

namespace NodeStates

/-- The list of a peer, empty if the peer is not known. -/
def blocksFrom (s : NodeStates) (nodeid : NodeId) : List (Nat × QueuedBlock) :=
  ((s.mapNodeState.lookup nodeid).map CNodeState.vBlocksInFlight).getD []

/-- The number of blocks in flight with validated headers. -/
def validatedInFlight (s : NodeStates) : Nat :=
  (s.mapNodeState.entries.map fun e => validatedOf e.2.vBlocksInFlight).sum

/-- The map, the lists and the length counters agree. -/
structure Listed (s : NodeStates) : Prop where
  located : ∀ hash nodeid it, s.mapBlocksInFlight.lookup hash = some (nodeid, it) ↔
    ∃ entry, (it, entry) ∈ s.blocksFrom nodeid ∧ entry.hash = hash
  distinct : ∀ nodeid, Distinct s.nElements (s.blocksFrom nodeid)
  counted : ∀ nodeid state, s.mapNodeState.lookup nodeid = some state →
    state.nBlocksInFlight = state.vBlocksInFlight.length

/-- The whole bookkeeping agrees. -/
structure Exact (s : NodeStates) : Prop extends Listed s where
  queued : s.nQueuedValidatedHeaders = s.validatedInFlight

variable {s s' : NodeStates} {C : Crypto} {nodeid : NodeId} {state : CNodeState} {hash : Uint256}

/-! ## The lists after an update of one peer -/

theorem blocksFrom_of_lookup (h : s.mapNodeState.lookup nodeid = some state) :
    s.blocksFrom nodeid = state.vBlocksInFlight := by
  unfold blocksFrom
  rw [h]
  rfl

theorem blocksFrom_insert (h : s'.mapNodeState = s.mapNodeState.insert nodeid state) :
    s'.blocksFrom = Function.update s.blocksFrom nodeid state.vBlocksInFlight := by
  funext p
  unfold blocksFrom
  rw [h]
  by_cases hp : p = nodeid
  · rw [hp, lookup_insert, update_self]
    rfl
  · rw [lookup_insert_ne hp, update_of_ne hp]

theorem blocksFrom_erase (h : s'.mapNodeState = s.mapNodeState.erase nodeid) :
    s'.blocksFrom = Function.update s.blocksFrom nodeid [] := by
  funext p
  unfold blocksFrom
  rw [h]
  by_cases hp : p = nodeid
  · rw [hp, lookup_erase, update_self]
    rfl
  · rw [lookup_erase_ne hp, update_of_ne hp]

theorem validatedInFlight_erase (h : s'.mapNodeState = s.mapNodeState.erase nodeid) :
    s.validatedInFlight = validatedOf (s.blocksFrom nodeid) + s'.validatedInFlight := by
  unfold validatedInFlight
  rw [h]
  cases hlook : s.mapNodeState.lookup nodeid with
  | some state =>
    rw [Lib.sum_entries_erase hlook, blocksFrom_of_lookup hlook]
  | none =>
    have hsame : (s.mapNodeState.erase nodeid).entries = s.mapNodeState.entries :=
      kerase_of_notMem_keys (AList.lookup_eq_none.mp hlook)
    have hnone : s.blocksFrom nodeid = [] := by
      unfold blocksFrom
      rw [hlook]
      rfl
    rw [hsame, hnone]
    show _ = 0 + _
    rw [Nat.zero_add]

theorem validatedInFlight_insert (h : s'.mapNodeState = s.mapNodeState.insert nodeid state) :
    s'.validatedInFlight + validatedOf (s.blocksFrom nodeid) =
      s.validatedInFlight + validatedOf state.vBlocksInFlight := by
  have hold : s.validatedInFlight = validatedOf (s.blocksFrom nodeid) +
      validatedInFlight { s with mapNodeState := s.mapNodeState.erase nodeid } := validatedInFlight_erase rfl
  have hnew : s'.validatedInFlight = validatedOf state.vBlocksInFlight +
      validatedInFlight { s with mapNodeState := s.mapNodeState.erase nodeid } := by
    unfold validatedInFlight
    rw [h]
    rfl
  omega

theorem counted_insert (hs : s.Listed) (h : s'.mapNodeState = s.mapNodeState.insert nodeid state)
    (hstate : state.nBlocksInFlight = state.vBlocksInFlight.length) (p : NodeId) (t : CNodeState)
    (ht : s'.mapNodeState.lookup p = some t) : t.nBlocksInFlight = t.vBlocksInFlight.length := by
  rw [h] at ht
  by_cases hp : p = nodeid
  · rw [hp, lookup_insert] at ht
    cases ht
    exact hstate
  · rw [lookup_insert_ne hp] at ht
    exact hs.counted p t ht

theorem distinct_update {n : Nat} (hs : ∀ p, Distinct n (s.blocksFrom p))
    (h : s'.blocksFrom = Function.update s.blocksFrom nodeid blocks) (hblocks : Distinct n blocks) (p : NodeId) :
    Distinct n (s'.blocksFrom p) := by
  rw [h]
  by_cases hp : p = nodeid
  · rw [hp, update_self]
    exact hblocks
  · rw [update_of_ne hp]
    exact hs p

/-! ## One call -/

theorem Listed.initializeNode (hs : s.Listed) (nodeid : NodeId) (pnode : CNode) :
    (s.initializeNode nodeid pnode).Listed ∧
      (s.initializeNode nodeid pnode).validatedInFlight = s.validatedInFlight := by
  have hmap : (s.initializeNode nodeid pnode).mapNodeState = s.mapNodeState.insert nodeid
      { (s.mapNodeState.lookup nodeid).getD CNodeState.new with name := pnode.addrName, address := pnode.addr } := rfl
  have hblocks : s.blocksFrom nodeid = ((s.mapNodeState.lookup nodeid).getD CNodeState.new).vBlocksInFlight := by
    unfold blocksFrom
    cases s.mapNodeState.lookup nodeid <;> rfl
  have hsame : (s.initializeNode nodeid pnode).blocksFrom = s.blocksFrom := by
    rw [blocksFrom_insert hmap, ← hblocks, update_eq_self]
  have hcount : ((s.mapNodeState.lookup nodeid).getD CNodeState.new).nBlocksInFlight =
      ((s.mapNodeState.lookup nodeid).getD CNodeState.new).vBlocksInFlight.length := by
    cases hlook : s.mapNodeState.lookup nodeid with
    | none => rfl
    | some state => exact hs.counted nodeid state hlook
  constructor
  · exact
      { located := by rw [hsame]; exact hs.located
        distinct := by rw [hsame]; exact hs.distinct
        counted := counted_insert hs hmap hcount }
  · have hsum := validatedInFlight_insert hmap
    rw [hblocks] at hsum
    exact Nat.add_right_cancel hsum

theorem lookup_foldl_erase (blocks : List (Nat × QueuedBlock)) (inFlight : AList fun _ : Uint256 => NodeId × Nat)
    (h : Uint256) :
    (blocks.foldl (fun inFlight n => inFlight.erase n.2.hash) inFlight).lookup h =
      if h ∈ blocks.map (fun n => n.2.hash) then none else inFlight.lookup h := by
  induction blocks generalizing inFlight with
  | nil => rfl
  | cons n blocks ih =>
    show (blocks.foldl _ (inFlight.erase n.2.hash)).lookup h = _
    rw [ih]
    by_cases hn : h = n.2.hash
    · rw [hn, lookup_erase]
      simp
    · rw [lookup_erase_ne hn]
      rw [map_cons]
      simp only [mem_cons, hn, false_or]

theorem Listed.finalizeNode (hs : s.Listed) (h : s.finalizeNode C nodeid = some s') :
    s'.Listed ∧ s'.nQueuedValidatedHeaders = s.nQueuedValidatedHeaders ∧
      s.validatedInFlight = validatedOf (s.blocksFrom nodeid) + s'.validatedInFlight := by
  unfold NodeStates.finalizeNode at h
  cases hlook : s.mapNodeState.lookup nodeid with
  | none => simp [hlook] at h
  | some state =>
    rw [hlook] at h
    cases h
    refine ⟨?_, rfl, validatedInFlight_erase rfl⟩
    have hblocks := blocksFrom_of_lookup hlook
    exact
      { located := by
          intro hash p it
          rw [blocksFrom_erase (s := s) rfl]
          show AList.lookup hash (List.foldl _ _ _) = _ ↔ _
          rw [lookup_foldl_erase, ← hblocks]
          by_cases hp : p = nodeid
          · -- Every hash that pointed to the peer is in its list.
            rw [hp, update_self]
            split_ifs with hmem
            · simp
            · rw [hs.located]
              constructor
              · intro ⟨entry, hentry, hhash⟩
                exact absurd (mem_map.mpr ⟨(it, entry), hentry, hhash⟩) hmem
              · simp
          · rw [update_of_ne hp, ← hs.located]
            split_ifs with hmem
            · obtain ⟨n, hn, hhash⟩ := mem_map.mp hmem
              have hhere : s.mapBlocksInFlight.lookup hash = some (nodeid, n.1) :=
                (hs.located _ _ _).mpr ⟨n.2, hn, hhash⟩
              rw [hhere]
              simp [Ne.symm hp]
            · rfl
        distinct := distinct_update hs.distinct (blocksFrom_erase rfl) ⟨nodup_nil, nodup_nil, by simp⟩
        counted := by
          intro p t ht
          have ht : (s.mapNodeState.erase nodeid).lookup p = some t := ht
          by_cases hp : p = nodeid
          · rw [hp, lookup_erase] at ht
            simp at ht
          · rw [lookup_erase_ne hp] at ht
            exact hs.counted p t ht }

/-- The element that an iterator points to. -/
theorem lookup_eq_some_iff (h : (blocks.map Prod.fst).Nodup) {it : Nat} :
    blocks.lookup it = some entry ↔ (it, entry) ∈ blocks := by
  induction blocks with
  | nil => simp
  | cons n blocks ih =>
    obtain ⟨hfresh, hrest⟩ := nodup_cons.mp h
    obtain ⟨i, e⟩ := n
    rw [lookup_cons]
    by_cases hi : it = i
    · have hnot : (i, entry) ∉ blocks := fun hmem => hfresh (mem_map.mpr ⟨_, hmem, rfl⟩)
      simp [hi, hnot, eq_comm]
    · have hne : (it == i) = false := by simpa using hi
      rw [hne]
      simp [ih hrest, hi]

/-- `MarkBlockAsReceived` finds the element that the map points to. -/
theorem Listed.received (hs : s.Listed) (hash : Uint256) :
    (s.mapBlocksInFlight.lookup hash = none ∧ s.markBlockAsReceived hash = some s) ∨
    ∃ nodeid it state entry, s.mapBlocksInFlight.lookup hash = some (nodeid, it) ∧
      s.mapNodeState.lookup nodeid = some state ∧ (it, entry) ∈ state.vBlocksInFlight ∧ entry.hash = hash ∧
      s.markBlockAsReceived hash = some
        { s with
          nQueuedValidatedHeaders := s.nQueuedValidatedHeaders - if entry.fValidatedHeaders then 1 else 0
          mapNodeState := s.mapNodeState.insert nodeid
            { state with
              vBlocksInFlight := state.vBlocksInFlight.filter fun n => decide (n.1 ≠ it)
              nBlocksInFlight := state.nBlocksInFlight - 1
              nStallingSince := 0 }
          mapBlocksInFlight := s.mapBlocksInFlight.erase hash } := by
  unfold markBlockAsReceived
  cases hlook : s.mapBlocksInFlight.lookup hash with
  | none => exact .inl ⟨rfl, rfl⟩
  | some target =>
    obtain ⟨nodeid, it⟩ := target
    obtain ⟨entry, hmem, hhash⟩ := (hs.located hash nodeid it).mp hlook
    cases hstate : s.mapNodeState.lookup nodeid with
    | none =>
      unfold blocksFrom at hmem
      rw [hstate] at hmem
      simp at hmem
    | some state =>
      have hunique := (hs.distinct nodeid).iterators
      rw [blocksFrom_of_lookup hstate] at hmem hunique
      have hentry : state.vBlocksInFlight.lookup it = some entry := (lookup_eq_some_iff hunique).mpr hmem
      refine .inr ⟨nodeid, it, state, entry, rfl, hstate, hmem, hhash, ?_⟩
      simp only [hstate, hentry]

/-- Removing one element of a list. -/
theorem perm_filter_ne (h : (blocks.map Prod.fst).Nodup) {it : Nat} (hmem : (it, entry) ∈ blocks) :
    blocks.Perm ((it, entry) :: blocks.filter fun n => decide (n.1 ≠ it)) := by
  have herase : blocks.filter (fun n => decide (n.1 ≠ it)) = blocks.erase (it, entry) := by
    rw [(List.Nodup.of_map _ h).erase_eq_filter]
    refine filter_congr fun n hn => ?_
    by_cases hn' : n = (it, entry)
    · simp [hn']
    · have hne : n.1 ≠ it := fun heq => hn' (inj_on_of_nodup_map h hn hmem heq)
      simp [hn', hne]
  rw [herase]
  exact perm_cons_erase hmem

theorem Listed.markBlockAsReceived (hs : s.Listed) (h : s.markBlockAsReceived hash = some s') :
    s'.Listed ∧ s'.mapBlocksInFlight.lookup hash = none ∧
      s'.nQueuedValidatedHeaders - s'.validatedInFlight = s.nQueuedValidatedHeaders - s.validatedInFlight ∧
      (∀ p, (s'.mapNodeState.lookup p).isNone = (s.mapNodeState.lookup p).isNone) := by
  rcases hs.received hash with ⟨hnone, hsame⟩ | ⟨nodeid, it, state, entry, hlook, hstate, hmem, hhash, hnew⟩
  · rw [hsame] at h
    cases h
    exact ⟨hs, hnone, rfl, fun _ => rfl⟩
  rw [hnew] at h
  have heq := Option.some.inj h
  have hblocks := blocksFrom_of_lookup hstate
  have hdistinct := hs.distinct nodeid
  rw [hblocks] at hdistinct
  have hperm := perm_filter_ne hdistinct.iterators hmem
  have hnodes : s'.mapNodeState = s.mapNodeState.insert nodeid
      { state with
        vBlocksInFlight := state.vBlocksInFlight.filter fun n => decide (n.1 ≠ it)
        nBlocksInFlight := state.nBlocksInFlight - 1
        nStallingSince := 0 } := by
    rw [← heq]
  have hinFlight : s'.mapBlocksInFlight = s.mapBlocksInFlight.erase hash := by
    rw [← heq]
  have hlists := blocksFrom_insert hnodes
  have hcount : state.nBlocksInFlight - 1 =
      ((state.vBlocksInFlight.filter fun n => decide (n.1 ≠ it)).length : Int) := by
    have hlength := hperm.length_eq
    rw [length_cons] at hlength
    have hstateCount := hs.counted nodeid state hstate
    omega
  refine ⟨⟨?_, ?_, counted_insert hs hnodes hcount⟩, ?_, ?_, ?_⟩
  · intro h p i
    rw [hlists, hinFlight]
    by_cases hh : h = hash
    · -- No element that is left has the hash.
      rw [hh, lookup_erase]
      refine iff_of_false (by simp) ?_
      intro ⟨e, he, hehash⟩
      by_cases hp : p = nodeid
      · rw [hp, update_self] at he
        obtain ⟨he, hi⟩ := mem_filter.mp he
        have hhere := (hs.located hash nodeid i).mpr ⟨e, hblocks ▸ he, hehash⟩
        rw [hlook] at hhere
        simp_all
      · rw [update_of_ne hp] at he
        have hhere := (hs.located hash p i).mpr ⟨e, he, hehash⟩
        rw [hlook] at hhere
        simp_all
    · rw [lookup_erase_ne hh, hs.located]
      by_cases hp : p = nodeid
      · rw [hp, update_self, hblocks]
        refine exists_congr fun e => and_congr_left fun hehash => ?_
        rw [mem_filter]
        refine (and_iff_left_of_imp fun he => ?_).symm
        refine decide_eq_true fun hi => hh ?_
        have hsame : (i, e) = (it, entry) := inj_on_of_nodup_map hdistinct.iterators he hmem hi
        rw [← hehash, (Prod.mk.inj hsame).2, hhash]
      · rw [update_of_ne hp]
  · have hn : s'.nElements = s.nElements := by rw [← heq]
    rw [hn]
    exact distinct_update hs.distinct hlists (hdistinct.filter _)
  · rw [hinFlight, lookup_erase]
  · have hsum := validatedInFlight_insert hnodes
    have hvalid : validatedOf state.vBlocksInFlight = (if entry.fValidatedHeaders then 1 else 0) +
        validatedOf (state.vBlocksInFlight.filter fun n => decide (n.1 ≠ it)) := by
      unfold validatedOf
      rw [hperm.countP_eq, countP_cons, Nat.add_comm]
    have hqueued : s'.nQueuedValidatedHeaders =
        s.nQueuedValidatedHeaders - if entry.fValidatedHeaders then 1 else 0 := by
      rw [← heq]
    rw [hblocks, hvalid] at hsum
    simp only at hsum
    rw [hqueued]
    split_ifs at hsum ⊢ <;> omega
  · intro p
    rw [hnodes]
    by_cases hp : p = nodeid
    · rw [hp, lookup_insert, hstate]
      rfl
    · rw [lookup_insert_ne hp]

theorem Listed.queueBlock (hs : s.Listed) (hnone : s.mapBlocksInFlight.lookup hash = none)
    {pindex : Option Nat} {now : Int} (h : s.queueBlock nodeid hash pindex now = some s') :
    s'.Listed ∧ s'.nQueuedValidatedHeaders - s'.validatedInFlight = s.nQueuedValidatedHeaders - s.validatedInFlight ∧
      ∃ it entry, s'.mapBlocksInFlight.lookup hash = some (nodeid, it) ∧ (it, entry) ∈ s'.blocksFrom nodeid ∧
        entry.nTime = now ∧ entry.fValidatedHeaders = pindex.isSome ∧
        entry.nValidatedQueuedBefore = s.nQueuedValidatedHeaders ∧
        s'.validatedInFlight = s.validatedInFlight + if pindex.isSome then 1 else 0 := by
  unfold NodeStates.queueBlock at h
  cases hstate : s.mapNodeState.lookup nodeid with
  | none => simp [hstate] at h
  | some state =>
    rw [hstate] at h
    have heq := Option.some.inj h
    let newentry : QueuedBlock :=
      { hash := hash, pindex := pindex, nTime := now, nValidatedQueuedBefore := s.nQueuedValidatedHeaders,
        fValidatedHeaders := pindex.isSome }
    have hblocks := blocksFrom_of_lookup hstate
    have hdistinct := hs.distinct nodeid
    rw [hblocks] at hdistinct
    have hnodes : s'.mapNodeState = s.mapNodeState.insert nodeid
        { state with
          vBlocksInFlight := state.vBlocksInFlight ++ [(s.nElements, newentry)]
          nBlocksInFlight := state.nBlocksInFlight + 1 } := by
      rw [← heq]
    have hinFlight : s'.mapBlocksInFlight = s.mapBlocksInFlight.insert hash (nodeid, s.nElements) := by
      rw [← heq]
    have hn : s'.nElements = s.nElements + 1 := by
      rw [← heq]
    have hqueued : s'.nQueuedValidatedHeaders = s.nQueuedValidatedHeaders + if pindex.isSome then 1 else 0 := by
      rw [← heq]
    have hlists := blocksFrom_insert hnodes
    have hcount : state.nBlocksInFlight + 1 = ((state.vBlocksInFlight ++ [(s.nElements, newentry)]).length : Int) := by
      have hstateCount := hs.counted nodeid state hstate
      rw [length_append, length_singleton]
      omega
    have hsum : s'.validatedInFlight = s.validatedInFlight + if pindex.isSome then 1 else 0 := by
      have hsum := validatedInFlight_insert hnodes
      have hvalid : validatedOf (state.vBlocksInFlight ++ [(s.nElements, newentry)]) =
          validatedOf state.vBlocksInFlight + if pindex.isSome then 1 else 0 := by
        unfold validatedOf
        rw [countP_append, countP_singleton]
      rw [hblocks, hvalid] at hsum
      omega
    have habsent : ∀ p i e, (i, e) ∈ s.blocksFrom p → e.hash ≠ hash := by
      intro p i e he hehash
      have hhere := (hs.located hash p i).mpr ⟨e, he, hehash⟩
      rw [hnone] at hhere
      exact Option.some_ne_none _ hhere.symm
    refine ⟨⟨?_, ?_, counted_insert hs hnodes hcount⟩, ?_, s.nElements, newentry, ?_, ?_, rfl, rfl, rfl, hsum⟩
    · intro h p i
      rw [hlists, hinFlight]
      by_cases hh : h = hash
      · rw [hh, lookup_insert, Option.some_inj]
        by_cases hp : p = nodeid
        · rw [hp, update_self]
          constructor
          · intro heq
            exact ⟨newentry, mem_append_right _ (by simp [← (Prod.mk.inj heq).2]), rfl⟩
          · intro ⟨e, he, hehash⟩
            rcases mem_append.mp he with he | he
            · exact absurd hehash (habsent nodeid i e (hblocks ▸ he))
            · rw [(Prod.mk.inj (mem_singleton.mp he)).1]
        · rw [update_of_ne hp]
          refine iff_of_false (fun heq => hp (Prod.mk.inj heq).1.symm) ?_
          intro ⟨e, he, hehash⟩
          exact habsent p i e he hehash
      · rw [lookup_insert_ne hh, hs.located]
        by_cases hp : p = nodeid
        · rw [hp, update_self, hblocks]
          refine exists_congr fun e => and_congr_left fun hehash => ?_
          rw [mem_append, mem_singleton]
          refine (or_iff_left fun heq => hh ?_).symm
          rw [← hehash, (Prod.mk.inj heq).2]
        · rw [update_of_ne hp]
    · rw [hn]
      have hold : ∀ p, Distinct (s.nElements + 1) (s.blocksFrom p) := fun p => (hs.distinct p).mono (Nat.le_succ _)
      refine distinct_update hold hlists ?_
      refine (hdistinct.mono (Nat.le_succ _)).append (Nat.lt_succ_self _) ?_ ?_
      · intro n hmem
        exact habsent nodeid n.1 n.2 (hblocks ▸ hmem)
      · intro n hmem
        exact Nat.ne_of_lt (hdistinct.elements n hmem)
    · rw [hqueued, hsum]
      split_ifs <;> omega
    · rw [hinFlight, lookup_insert]
    · rw [hlists, update_self]
      exact mem_append_right _ (mem_singleton.mpr rfl)

/-- What one request leaves behind: the deadline of the block is set by the other blocks in flight. -/
theorem Exact.markBlockAsInFlight (hs : s.Exact) {pindex : Option Nat} {now : Int}
    (h : s.markBlockAsInFlight nodeid hash pindex now = some s') :
    ∃ it entry, s'.mapBlocksInFlight.lookup hash = some (nodeid, it) ∧ (it, entry) ∈ s'.blocksFrom nodeid ∧
      ∀ targetSpacing nNow, entry.timedOut targetSpacing nNow ↔
        now + 500000 * targetSpacing * (4 + (s'.validatedInFlight - if pindex.isSome then 1 else 0)) < nNow := by
  unfold NodeStates.markBlockAsInFlight at h
  split_ifs at h
  obtain ⟨t, hreceived, hqueue⟩ := Option.bind_eq_some_iff.mp h
  obtain ⟨ht, hnone, hdrift, -⟩ := hs.toListed.markBlockAsReceived hreceived
  obtain ⟨-, -, it, entry, hlook, hmem, htime, -, hbefore, hsum⟩ := ht.queueBlock hnone hqueue
  refine ⟨it, entry, hlook, hmem, fun targetSpacing nNow => ?_⟩
  have hqueued := hs.queued
  have hcount : entry.nValidatedQueuedBefore = s'.validatedInFlight - if pindex.isSome then 1 else 0 := by
    rw [hbefore, hsum]
    split_ifs <;> omega
  unfold QueuedBlock.timedOut
  rw [decide_eq_true_iff, hcount, htime]
  constructor
  · intro hlt
    omega
  · intro hlt
    omega

/-- The elements with validated headers that a call forgets without counting them down. -/
def dropped (s : NodeStates) : NodeCall → Nat
  | .finalizeNode nodeid => validatedOf (s.blocksFrom nodeid)
  | _ => 0

theorem Listed.step (hs : s.Listed) {c : NodeCall} (h : s.step C c = some s') :
    s'.Listed ∧ s'.nQueuedValidatedHeaders - s'.validatedInFlight =
      s.nQueuedValidatedHeaders - s.validatedInFlight + s.dropped c := by
  cases c with
  | initializeNode nodeid pnode =>
    cases h
    obtain ⟨hlisted, hsum⟩ := hs.initializeNode nodeid pnode
    refine ⟨hlisted, ?_⟩
    rw [hsum]
    show s.nQueuedValidatedHeaders - _ = _ + 0
    rw [add_zero]
  | finalizeNode nodeid =>
    obtain ⟨hlisted, hqueued, hsum⟩ := hs.finalizeNode h
    refine ⟨hlisted, ?_⟩
    show _ = _ + (validatedOf (s.blocksFrom nodeid) : Int)
    omega
  | markBlockAsReceived hash =>
    obtain ⟨hlisted, -, hdrift, -⟩ := hs.markBlockAsReceived h
    exact ⟨hlisted, by rw [hdrift]; exact (add_zero _).symm⟩
  | markBlockAsInFlight nodeid hash pindex now =>
    have h : s.markBlockAsInFlight nodeid hash pindex now = some s' := h
    unfold NodeStates.markBlockAsInFlight at h
    split_ifs at h
    obtain ⟨t, hreceived, hqueue⟩ := Option.bind_eq_some_iff.mp h
    obtain ⟨ht, hnone, hdrift, -⟩ := hs.markBlockAsReceived hreceived
    obtain ⟨hlisted, hdrift', -⟩ := ht.queueBlock hnone hqueue
    refine ⟨hlisted, ?_⟩
    rw [hdrift', hdrift]
    exact (add_zero _).symm

/-! ## Whole runs -/

theorem listed_fresh (txs : TxNode) : (fresh txs).Listed where
  located := by
    intro hash nodeid it
    exact iff_of_false (by simp [fresh]) (by simp [fresh, blocksFrom])
  distinct := fun _ => ⟨nodup_nil, nodup_nil, by simp [fresh, blocksFrom]⟩
  counted := by
    intro nodeid state h
    simp [fresh] at h

theorem run_append {calls : List NodeCall} {c : NodeCall} (hrun : s.run C calls = some s') :
    s.run C (calls ++ [c]) = s'.step C c := by
  unfold run at hrun ⊢
  rw [foldlM_append, hrun]
  show (s'.step C c).bind some = _
  rw [Option.bind_fun_some]

theorem Listed.run (hs : s.Listed) (calls : List NodeCall) (h : s.run C calls = some s') : s'.Listed := by
  induction calls generalizing s with
  | nil =>
    cases h
    exact hs
  | cons c calls ih =>
    obtain ⟨t, hstep, hrest⟩ := Option.bind_eq_some_iff.mp h
    exact ih (hs.step hstep).1 hrest

/-- A run whose calls drop nothing stays exact. -/
theorem Exact.run (hs : s.Exact) (calls : List NodeCall)
    (hdropped : ∀ before c after t, calls = before ++ c :: after → s.run C before = some t → t.dropped c = 0)
    (h : s.run C calls = some s') : s'.Exact := by
  induction calls generalizing s with
  | nil =>
    cases h
    exact hs
  | cons c calls ih =>
    obtain ⟨t, hstep, hrest⟩ := Option.bind_eq_some_iff.mp h
    obtain ⟨hlisted, hdrift⟩ := hs.toListed.step hstep
    have hnone : s.dropped c = 0 := hdropped [] c calls s rfl rfl
    have hexact : t.Exact := by
      have hqueued := hs.queued
      exact ⟨hlisted, by omega⟩
    refine ih hexact (fun before d after u hsplit hrun => ?_) hrest
    refine hdropped (c :: before) d after u (by rw [hsplit]; rfl) ?_
    show (s.step C c).bind _ = _
    rw [hstep]
    exact hrun

end NodeStates

open NodeStates in
/-- In every run from a node without peers, the bookkeeping is exact in every state, and every requested block
gets the deadline of the blocks then in flight, if and only if no peer leaves while blocks with validated headers
are in flight from it. -/
theorem inFlight_exact_iff (C : Crypto) (txs : TxNode) (calls : List NodeCall) :
    (∀ before after s, calls = before ++ after → (fresh txs).run C before = some s → s.Exact ∧
      ∀ nodeid hash pindex now s', s.markBlockAsInFlight nodeid hash pindex now = some s' →
        ∃ it entry, s'.mapBlocksInFlight.lookup hash = some (nodeid, it) ∧ (it, entry) ∈ s'.blocksFrom nodeid ∧
          ∀ targetSpacing nNow, entry.timedOut targetSpacing nNow = true ↔
            now + 500000 * targetSpacing * (4 + (s'.validatedInFlight - if pindex.isSome then 1 else 0)) < nNow) ↔
    ∀ before nodeid after s s', calls = before ++ .finalizeNode nodeid :: after →
      (fresh txs).run C before = some s → s.finalizeNode C nodeid = some s' →
      ∀ n ∈ s.blocksFrom nodeid, n.2.fValidatedHeaders = false := by
  have hstart : (fresh txs).Exact := ⟨listed_fresh txs, rfl⟩
  constructor
  · intro hexact before nodeid after s s' hsplit hrun hfinal
    have hsplit' : calls = (before ++ [.finalizeNode nodeid]) ++ after := by
      rw [hsplit, append_assoc]
      rfl
    have hrun' : (fresh txs).run C (before ++ [.finalizeNode nodeid]) = some s' := by
      rw [run_append hrun]
      exact hfinal
    have hbefore := (hexact before _ s hsplit hrun).1.queued
    have hafter := (hexact _ after s' hsplit' hrun').1.queued
    obtain ⟨-, hqueued, hsum⟩ := (hstart.toListed.run before hrun).finalizeNode hfinal
    have hzero : validatedOf (s.blocksFrom nodeid) = 0 := by
      omega
    intro n hn
    exact Bool.eq_false_iff.mpr (countP_eq_zero.mp hzero n hn)
  · intro hnone before after s hsplit hrun
    have hexact : s.Exact := by
      refine hstart.run before (fun earlier c later t hearlier ht => ?_) hrun
      cases c with
      | finalizeNode nodeid =>
        cases hfinal : t.finalizeNode C nodeid with
        | none =>
          -- The run would have stopped here.
          have hstop : (fresh txs).run C before = none := by
            rw [hearlier, NodeStates.run, foldlM_append]
            show ((fresh txs).run C earlier).bind _ = none
            rw [ht]
            show (t.finalizeNode C nodeid).bind _ = none
            rw [hfinal]
            rfl
          rw [hstop] at hrun
          exact absurd hrun.symm (Option.some_ne_none _)
        | some t' =>
          refine countP_eq_zero.mpr fun n hn => ?_
          refine Bool.eq_false_iff.mp (hnone earlier nodeid (later ++ after) t t' ?_ ht hfinal n hn)
          rw [hsplit, hearlier, append_assoc]
          rfl
      | initializeNode _ _ => rfl
      | markBlockAsReceived _ => rfl
      | markBlockAsInFlight _ _ _ _ => rfl
    exact ⟨hexact, fun nodeid hash pindex now s' h => hexact.markBlockAsInFlight h⟩

def Example.remoteNode : CNode where
  addrName := "10.0.0.1"
  addr := { addr := { ip := CNetAddr.pchIPv4 ++ [10, 0, 0, 1], size := rfl }, port := 45444 }

open Example

open NodeStates in
/-- A peer leaves while a block is in flight from it.  The block stays counted, and lengthens the deadline of the
next block that is requested. -/
theorem inFlight_inflated :
    ∃ s s' it entry, (fresh (.fresh (.new false))).run pairing
      [.initializeNode 0 remoteNode, .markBlockAsInFlight 0 7 (some 0) 1000, .finalizeNode 0,
        .initializeNode 1 remoteNode] = some s ∧
      ¬ s.Exact ∧ s.validatedInFlight = 0 ∧
      s.markBlockAsInFlight 1 7 (some 0) 2000 = some s' ∧ (it, entry) ∈ s'.blocksFrom 1 ∧
      entry.timedOut 60 (2000 + 500000 * 60 * 4 + 1) = false := by
  have hrun : ((fresh (.fresh (.new false))).run pairing
      [.initializeNode 0 remoteNode, .markBlockAsInFlight 0 7 (some 0) 1000, .finalizeNode 0,
        .initializeNode 1 remoteNode]).map (fun s => (s.nQueuedValidatedHeaders, s.validatedInFlight,
          (s.markBlockAsInFlight 1 7 (some 0) 2000).map fun s' => s'.blocksFrom 1)) =
      some (1, 0, some [(1, QueuedBlock.mk 7 (some 0) 2000 1 true)]) := by
    decide
  obtain ⟨s, hs, hvalues⟩ := Option.map_eq_some_iff.mp hrun
  obtain ⟨hqueued, hvalues⟩ := Prod.mk.inj hvalues
  obtain ⟨hvalid, hnext⟩ := Prod.mk.inj hvalues
  obtain ⟨s', hs', hblocks⟩ := Option.map_eq_some_iff.mp hnext
  refine ⟨s, s', 1, _, hs, ?_, hvalid, hs', by rw [hblocks]; exact mem_singleton.mpr rfl, by decide⟩
  intro hexact
  have hsame := hexact.queued
  rw [hqueued, hvalid] at hsame
  exact absurd hsame (by decide)

end Reddcoin
