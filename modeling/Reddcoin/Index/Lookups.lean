import Reddcoin.Chain.Locator
import Reddcoin.Index.Init

/-!
# An index that grows

The index as `AddToBlockIndex` alone builds it, from any headers in any order.  A header whose parent is not in the
index starts a tree of its own.
-/

namespace Reddcoin

open Forest (Anc Graded path)

section

variable (N : Node) {m : BlockMap}

/-- The states that calls of `AddToBlockIndex` reach from an empty index. -/
inductive Built : NodeState → Prop where
  | empty {s : NodeState} (none : s.size = 0) : Built s
  | add {s : NodeState} (before : Built s) (block : CBlockHeader) : Built (addToBlockIndex N s block).2

variable {N} {s : NodeState}

/-- What every built index satisfies: its pointers form trees, and a hash has one entry. -/
structure BuiltIndex (m : BlockMap) : Prop where
  forested : m.Forested
  hash : ∀ p < m.size, ∀ q < m.size, (m.entry p).hash = (m.entry q).hash → p = q

theorem builtIndex_empty (h : m.size = 0) : BuiltIndex m := by
  have hno : ∀ p, ¬ p < m.size := fun p => by omega
  refine ⟨⟨⟨?_, ?_, ?_⟩, ?_⟩, ?_⟩
  · intro p q hp
    exact absurd hp (hno p)
  · intro p q hp
    exact absurd hp (hno p)
  · intro p hp
    exact absurd hp (hno p)
  · intro p hp
    exact absurd hp (hno p)
  · intro p hp
    exact absurd hp (hno p)

theorem BuiltIndex.push (hm : BuiltIndex m) {e : CBlockIndex} (he : m.Placed e)
    (hnew : ∀ p < m.size, (m.entry p).hash ≠ e.hash) : BuiltIndex (m.push e) := by
  refine ⟨hm.forested.push he, ?_⟩
  intro p hp q hq heq
  rcases BlockMap.push_cases hp with hplt | rfl
  · rcases BlockMap.push_cases hq with hqlt | rfl
    · rw [BlockMap.entry_push_old e hplt, BlockMap.entry_push_old e hqlt] at heq
      exact hm.hash p hplt q hqlt heq
    · rw [BlockMap.entry_push_old e hplt, BlockMap.entry_push_new] at heq
      exact absurd heq (hnew p hplt)
  · rcases BlockMap.push_cases hq with hqlt | rfl
    · rw [BlockMap.entry_push_new, BlockMap.entry_push_old e hqlt] at heq
      exact absurd heq.symm (hnew q hqlt)
    · rfl

theorem BuiltIndex.addToBlockIndex (hs : BuiltIndex s.mapBlockIndex) (block : CBlockHeader) :
    BuiltIndex (addToBlockIndex N s block).2.mapBlockIndex := by
  unfold Reddcoin.addToBlockIndex
  dsimp only
  cases hfind : s.mapBlockIndex.find (N.C.headerHash block) with
  | some p => exact hs
  | none =>
    have hplaced : s.mapBlockIndex.Placed
        (newEntry s block (N.C.headerHash block) (s.mapBlockIndex.find block.hashPrevBlock)) :=
      newEntry_placed fun q hq => (BlockMap.find_eq_some hq).1
    exact hs.push hplaced (BlockMap.find_eq_none hfind)

theorem Built.index (hs : Built N s) : BuiltIndex s.mapBlockIndex := by
  induction hs with
  | empty h => exact builtIndex_empty h
  | add before block ih => exact ih.addToBlockIndex block

/-- A built index with one root is a tree. -/
theorem Built.tree (hs : Built N s)
    (hroot : ∀ p < s.size, ∀ q < s.size, s.par p = none → s.par q = none → p = q) : s.mapBlockIndex.Tree :=
  ⟨hs.index.forested.graded, hroot, hs.index.forested.skip⟩

/-- In an index built by `AddToBlockIndex`, `GetAncestor` returns without reading through a null pointer.  From 0 to
the height of the entry it returns the entry that as many steps along `pprev` lead to, and for other heights `NULL`. -/
theorem getAncestor_walks_back (hs : Built N s) {p : Ptr} (hp : p < s.size) (height : Int) :
    (0 ≤ height ∧ height ≤ s.ht p → ∃ a, s.mapBlockIndex.readingGetAncestor p height = some (some a) ∧
      s.mapBlockIndex.walkBack (s.ht p - height.toNat) p = some a ∧ s.ht a = height) ∧
    (¬(0 ≤ height ∧ height ≤ s.ht p) → s.mapBlockIndex.readingGetAncestor p height = some none) := by
  have hforest := hs.index.forested
  have heq : s.mapBlockIndex.readingGetAncestor p height = _ := hforest.readingGetAncestor_eq hp height
  constructor
  · intro hrange
    obtain ⟨a, hback, -, hheight⟩ := hforest.walkBack_eq hp (Nat.sub_le (s.ht p) height.toNat)
    have hle : s.ht p - height.toNat ≤ s.ht p := Nat.sub_le _ _
    refine ⟨a, ?_, hback, ?_⟩
    · rw [heq]
      exact congrArg some ((if_pos hrange).trans hback)
    · have hat : s.ht a = s.ht p - (s.ht p - height.toNat) := hheight
      omega
  · intro hrange
    rw [heq]
    exact congrArg some (if_neg hrange)

end

/-! ## A worked index -/

namespace Example

/-- A header with the hash `7000 + nNonce`. -/
def header (hashPrevBlock : Uint256) (nNonce : Nat) : CBlockHeader :=
  (nodeBlock hashPrevBlock (100 + nNonce) nNonce).toCBlockHeader

/-- The index after the headers. -/
def grow (headers : List CBlockHeader) : NodeState :=
  headers.foldl (fun s h => (addToBlockIndex node s h).2) (NodeState.empty addresses)

theorem built_grow (headers : List CBlockHeader) : Built node (grow headers) := by
  induction headers using List.reverseRecOn with
  | nil => exact .empty rfl
  | append_singleton headers h ih =>
    rw [grow, List.foldl_append]
    exact .add ih h

/-- A chain of heights 0 to 4 in the slots 0 to 4, and a branch from height 1 in the slots 5 and 6. -/
def forked : NodeState :=
  grow [header 0 0, header 7000 1, header 7001 2, header 7002 3, header 7003 4, header 7001 5, header 7005 6]

theorem built_forked : Built node forked :=
  built_grow _

end Example

theorem getAncestor_walks_back_forked :
    (0 ≤ (1 : Int) ∧ (1 : Int) ≤ Example.forked.ht 6 →
      ∃ a, Example.forked.mapBlockIndex.readingGetAncestor 6 1 = some (some a) ∧
        Example.forked.mapBlockIndex.walkBack (Example.forked.ht 6 - (1 : Int).toNat) 6 = some a ∧
        Example.forked.ht a = (1 : Int)) ∧
    (¬(0 ≤ (1 : Int) ∧ (1 : Int) ≤ Example.forked.ht 6) →
      Example.forked.mapBlockIndex.readingGetAncestor 6 1 = some none) :=
  getAncestor_walks_back Example.built_forked (by decide) 1

end Reddcoin

/-!
## Lookups in a chain

What the calls of `SetTip` leave behind, and what a locator of one node finds on the chain of another.
-/

namespace Reddcoin

open Forest (Anc Graded path)

/-- The highest entry that is an ancestor of both. -/
structure HighestCommon (m : BlockMap) (f p q : Ptr) : Prop where
  left : Anc m.par f p
  right : Anc m.par f q
  highest : ∀ a, Anc m.par a p → Anc m.par a q → m.ht a ≤ m.ht f

/-- A chain without a tip. -/
structure NoTip (m : BlockMap) (v : CChain) : Prop where
  empty : v = []
  contains : ∀ p, v.contains m p = false
  next : ∀ p, v.next m p = none
  findFork : ∀ p, v.findFork m p = none

/-- A chain with the tip `t`, which holds the ancestors of `t`. -/
structure WithTip (m : BlockMap) (v : CChain) (t : Ptr) : Prop where
  tip : v.tip = some t
  length : v.length = m.ht t + 1
  entry : ∀ i ≤ m.ht t, ∃ a, v[i]? = some (some a) ∧ Anc m.par a t ∧ m.ht a = i
  contains : ∀ p < m.size, v.contains m p = true ↔ Anc m.par p t
  next : ∀ p < m.size, ∀ c, v.next m p = some c ↔ Anc m.par c t ∧ m.par c = some p
  findFork : ∀ p < m.size, ∃ f, v.findFork m p = some f ∧ HighestCommon m f p t

theorem highestCommon_of_last (hm : m.Tree) {f p q : Ptr} (hp : p < m.size) (hfp : Anc m.par f p)
    (hfq : Anc m.par f q) (hmax : ∀ a, Anc m.par a p → Anc m.par a q → Anc m.par a f) : HighestCommon m f p q :=
  ⟨hfp, hfq, fun a hap haq => (hm.graded.anc_height (hm.graded.anc_mem hp hfp) (hmax a hap haq)).1⟩

theorem CChain.EndsAt.withTip {v : CChain} {t : Ptr} (h : CChain.EndsAt m v t) (hm : m.Tree)
    (ht : t < m.size) : WithTip m v t where
  tip := h.tip hm ht
  length := h.length hm ht
  entry i hi := by
    obtain ⟨a, ha, hai⟩ := hm.graded.exists_anc ht hi
    exact ⟨a, (h.getElem? hm ht i).mpr ⟨ha, hai⟩, ha, hai⟩
  contains p _ := h.contains_iff hm ht
  next p _ c := h.next_eq_some hm ht
  findFork p hp := by
    obtain ⟨f, hf, hfp, hft, hmax⟩ := h.findFork_eq hm ht hp
    exact ⟨f, hf, highestCommon_of_last hm hp hfp hft hmax⟩

/-- After any calls of `SetTip` the chain is empty if the last one was `SetTip(NULL)`, and holds the ancestors of the
entry of the last one otherwise; `Contains`, `Next`, `FindFork` and `LastCommonAncestor` answer for the tree. -/
theorem chain_follows_tip {m : BlockMap} (hm : m.Tree) {calls : List (Option Ptr)}
    (hcalls : ∀ p, some p ∈ calls → p < m.size) :
    (calls.getLast?.join = none → NoTip m (CChain.setTips m calls)) ∧
    (∀ t, calls.getLast?.join = some t → WithTip m (CChain.setTips m calls) t) ∧
    (∀ p < m.size, ∀ q < m.size, ∃ f, m.lastCommonAncestor p q = some (some f) ∧ HighestCommon m f p q) := by
  have hfollows := CChain.follows_setTips hm hcalls
  refine ⟨fun hnone => ?_, fun t hlast => ?_, fun p hp q hq => ?_⟩
  · rw [hnone] at hfollows
    have hempty : CChain.setTips m calls = [] := hfollows
    rw [hempty]
    exact ⟨rfl, fun p => rfl, fun p => rfl, fun p => rfl⟩
  · rw [hlast] at hfollows
    exact hfollows.2.withTip hm hfollows.1
  · obtain ⟨f, hf, hfp, hfq, hmax⟩ := hm.lastCommonAncestor_eq hp hq
    exact ⟨f, hf, highestCommon_of_last hm hp hfp hfq hmax⟩

theorem Example.tree_forked : Example.forked.mapBlockIndex.Tree :=
  Example.built_forked.tree (by decide)

/-- From the end of one branch to the end of the other, to nothing, down and up again. -/
def Example.tipCalls : List (Option Ptr) :=
  [some 4, some 6, none, some 1, some 6, some 3]

theorem Example.tipCalls_lt : ∀ p, some p ∈ Example.tipCalls → p < Example.forked.mapBlockIndex.size := by
  intro p hp
  have hall : ∀ call ∈ Example.tipCalls, ∀ q ∈ call, q < Example.forked.mapBlockIndex.size := by decide
  exact hall (some p) hp p rfl

theorem chain_follows_tip_forked :
    (Example.tipCalls.getLast?.join = none →
      NoTip Example.forked.mapBlockIndex (CChain.setTips Example.forked.mapBlockIndex Example.tipCalls)) ∧
    (∀ t, Example.tipCalls.getLast?.join = some t →
      WithTip Example.forked.mapBlockIndex (CChain.setTips Example.forked.mapBlockIndex Example.tipCalls) t) ∧
    (∀ p < Example.forked.mapBlockIndex.size, ∀ q < Example.forked.mapBlockIndex.size, ∃ f,
      Example.forked.mapBlockIndex.lastCommonAncestor p q = some (some f) ∧
      HighestCommon Example.forked.mapBlockIndex f p q) :=
  chain_follows_tip Example.tree_forked Example.tipCalls_lt

/-! ## Locators -/

/-- What another node finds for a locator of the entries `listed`: an entry of its chain with the hash of a listed one,
the highest of those whose hashes are on its chain. -/
def FindsHighestListed (m₁ m₂ : BlockMap) (listed : List Ptr) (t₂ : Ptr) (found : Option Ptr) : Prop :=
  ∃ q a, found = some q ∧ Anc m₂.par q t₂ ∧ a ∈ listed ∧ (m₂.entry q).hash = (m₁.entry a).hash ∧
    ∀ b ∈ listed, ∀ q', Anc m₂.par q' t₂ → (m₂.entry q').hash = (m₁.entry b).hash → m₁.ht b ≤ m₁.ht a

/-- `GetLocator` returns the hashes of ancestors of the entry, at falling heights from the entry itself down to the
genesis block.  Any node whose chain has the same genesis block finds the highest of them that is on its chain. -/
theorem locator_finds_common {m₁ : BlockMap} (hm₁ : m₁.Tree) {calls₁ : List (Option Ptr)}
    (hcalls₁ : ∀ p, some p ∈ calls₁ → p < m₁.size) {p : Ptr} (hp : p < m₁.size) :
    ∃ listed, CChain.getLocator m₁ (CChain.setTips m₁ calls₁) (some p) = listed.map (fun a => (m₁.entry a).hash) ∧
      CChain.Lists m₁ p listed ∧
      ∀ (m₂ : BlockMap) (calls₂ : List (Option Ptr)) (t₂ : Ptr), m₂.Tree →
        (∀ q < m₂.size, ∀ r < m₂.size, (m₂.entry q).hash = (m₂.entry r).hash → q = r) →
        (∀ q, some q ∈ calls₂ → q < m₂.size) → calls₂.getLast?.join = some t₂ →
        (∀ g₁ < m₁.size, ∀ g₂ < m₂.size, m₁.par g₁ = none → m₂.par g₂ = none →
          (m₂.entry g₂).hash = (m₁.entry g₁).hash) →
        FindsHighestListed m₁ m₂ listed t₂ (findForkInGlobalIndex m₂ (CChain.setTips m₂ calls₂)
          (CChain.getLocator m₁ (CChain.setTips m₁ calls₁) (some p))) := by
  obtain ⟨listed, hlocator, hlists⟩ := (CChain.follows_setTips hm₁ hcalls₁).getLocator_eq hm₁ hp
  refine ⟨listed, hlocator, hlists, fun m₂ calls₂ t₂ hm₂ hhash hcalls₂ hlast hgenesis => ?_⟩
  have hfollows := CChain.follows_setTips hm₂ hcalls₂
  rw [hlast] at hfollows
  obtain ⟨ht₂, hends⟩ := hfollows
  -- The genesis block is the last one listed, and the lowest one of the other chain.
  have hsome : ∃ q hash, hash ∈ listed.map (fun a => (m₁.entry a).hash) ∧ Anc m₂.par q t₂ ∧
      (m₂.entry q).hash = hash := by
    obtain ⟨g₁, hg₁, h0⟩ := hlists.last
    obtain ⟨g₂, hg₂, h0'⟩ := hm₂.graded.exists_anc ht₂ (Nat.zero_le _)
    have hmem := List.mem_of_getLast? hg₁
    have hg₁S := hm₁.graded.anc_mem hp (hlists.ancestors g₁ hmem)
    have hg₂S := hm₂.graded.anc_mem ht₂ hg₂
    refine ⟨g₂, (m₁.entry g₁).hash, List.mem_map_of_mem hmem, hg₂, hgenesis g₁ hg₁S g₂ hg₂S ?_ ?_⟩
    · exact hm₁.par_eq_none hg₁S h0
    · exact hm₂.par_eq_none hg₂S h0'
  obtain ⟨q, before, hash, rest, hfound, hsplit, hq, hqhash, hbefore⟩ :=
    findForkInGlobalIndex_eq hm₂ ht₂ hends hhash hsome
  obtain ⟨lower, upper, hlisted, hmaplower, hmapupper⟩ := List.map_eq_append_iff.mp hsplit
  obtain ⟨a, upper, rfl, rfl, -⟩ := List.map_eq_cons_iff.mp hmapupper
  rw [hlocator]
  refine ⟨q, a, hfound, hq, ?_, hqhash, fun b hb q' hq' heq => ?_⟩
  · rw [hlisted]
    exact List.mem_append_right _ List.mem_cons_self
  · have hheights := hlists.heights
    rw [hlisted] at hb hheights
    rcases List.mem_append.mp hb with hb | hb
    · refine absurd heq (hbefore _ ?_ q' hq')
      rw [← hmaplower]
      exact List.mem_map_of_mem hb
    · rcases List.mem_cons.mp hb with rfl | hb
      · exact Nat.le_refl _
      · have hafter := (List.pairwise_append.mp hheights).2.1
        exact Nat.le_of_lt ((List.pairwise_cons.mp hafter).1 b hb)

/-- A node with a branch of its own from height 2 on. -/
def Example.other : NodeState :=
  Example.grow [Example.header 0 0, Example.header 7000 1, Example.header 7001 2, Example.header 7002 7]

theorem Example.tree_other : Example.other.mapBlockIndex.Tree :=
  (Example.built_grow _).tree (by decide)

/-- A locator for the end of the branch, from a node on the longer one, is answered from height 1. -/
theorem locator_finds_common_forked :
    ∃ listed, CChain.getLocator Example.forked.mapBlockIndex
        (CChain.setTips Example.forked.mapBlockIndex Example.tipCalls) (some 6) =
        listed.map (fun a => (Example.forked.mapBlockIndex.entry a).hash) ∧
      CChain.Lists Example.forked.mapBlockIndex 6 listed ∧
      FindsHighestListed Example.forked.mapBlockIndex Example.other.mapBlockIndex listed 3
        (findForkInGlobalIndex Example.other.mapBlockIndex
          (CChain.setTips Example.other.mapBlockIndex [some 3])
          (CChain.getLocator Example.forked.mapBlockIndex
            (CChain.setTips Example.forked.mapBlockIndex Example.tipCalls) (some 6))) := by
  obtain ⟨listed, hlocator, hlists, hfinds⟩ := locator_finds_common Example.tree_forked Example.tipCalls_lt
    (p := 6) (by decide)
  refine ⟨listed, hlocator, hlists, hfinds Example.other.mapBlockIndex [some 3] 3 Example.tree_other (by decide) ?_
    rfl (by decide)⟩
  intro q hq
  obtain rfl : q = 3 := by simpa using hq
  decide

example : findForkInGlobalIndex Example.other.mapBlockIndex (CChain.setTips Example.other.mapBlockIndex [some 3])
    (CChain.getLocator Example.forked.mapBlockIndex
      (CChain.setTips Example.forked.mapBlockIndex Example.tipCalls) (some 6)) = some 1 := by
  decide

end Reddcoin
