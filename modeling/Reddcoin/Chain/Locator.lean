import Reddcoin.Chain.ActiveChain

/-!
# Locators

`GetLocator` of `chain.cpp` and `FindForkInGlobalIndex` of `main.cpp`.  A locator lists the hashes of an entry, of the
ten entries below it, and of entries further and further down to the genesis block.  Another node answers from the
first of them that is on its own chain.
-/

namespace Reddcoin

open Forest (Anc Graded path)

namespace CChain

/-- The loop of `GetLocator`.  The height drops in each turn. -/
def getLocatorLoop (m : BlockMap) (v : CChain) : Nat → Nat → List Uint256 → Option Ptr → List Uint256
  | turns + 1, nStep, vHave, some pindex =>
    let vHave := vHave ++ [(m.entry pindex).hash]
    -- Stop when we have added the genesis block.
    if m.ht pindex = 0 then vHave
    else
      -- Exponentially larger steps back, plus the genesis block.
      let nHeight := m.ht pindex - nStep
      let pindex := if v.contains m pindex then v.at? nHeight else m.getAncestor pindex nHeight
      getLocatorLoop m v turns (if 10 < vHave.length then nStep * 2 else nStep) vHave pindex
  | _, _, vHave, _ => vHave

def getLocator (m : BlockMap) (v : CChain) (pindex : Option Ptr) : List Uint256 :=
  let pindex := pindex <|> v.tip
  getLocatorLoop m v ((pindex.map fun p => m.ht p + 1).getD 0) 1 [] pindex

end CChain

def findForkInGlobalIndex (m : BlockMap) (chain : CChain) : List Uint256 → Option Ptr
  | [] => chain.genesis
  | hash :: vHave =>
    match m.find hash with
    | some pindex => if chain.contains m pindex then some pindex else findForkInGlobalIndex m chain vHave
    | none => findForkInGlobalIndex m chain vHave

namespace CChain

section

variable {m : BlockMap} {v : CChain} {t p : Ptr} {call : Option Ptr}

/-- Both ways down lead to the ancestor at a height. -/
theorem Follows.below (h : Follows m v call) (hm : m.Tree) (hp : p < m.size) {nHeight : Nat}
    (hle : nHeight ≤ m.ht p) :
    ∃ a, (if v.contains m p then v.at? nHeight else m.getAncestor p nHeight) = some a ∧ Anc m.par a p ∧
      m.ht a = nHeight := by
  obtain ⟨a, ha, hheight⟩ := hm.graded.exists_anc hp hle
  refine ⟨a, ?_, ha, hheight⟩
  split_ifs with hc
  · cases call with
    | none =>
      obtain rfl : v = [] := h
      cases hc
    | some t =>
      obtain ⟨ht, hends⟩ := h
      rw [at?, Option.join_eq_some_iff]
      exact (hends.getElem? hm ht nHeight).mpr ⟨ha.trans ((hends.contains_iff hm ht).mp hc), hheight⟩
  · exact (hm.getAncestor_eq_some hp).mpr ⟨ha, hheight⟩

/-- The entries that are listed: ancestors of the first, down to height 0. -/
structure Lists (m : BlockMap) (p : Ptr) (listed : List Ptr) : Prop where
  head : listed.head? = some p
  last : ∃ g, listed.getLast? = some g ∧ m.ht g = 0
  heights : listed.Pairwise fun a b => m.ht b < m.ht a
  ancestors : ∀ a ∈ listed, Anc m.par a p

theorem lists_root (h0 : m.ht p = 0) : Lists m p [p] := by
  refine ⟨rfl, ⟨p, rfl, h0⟩, List.pairwise_singleton _ p, fun a ha => ?_⟩
  obtain rfl := List.mem_singleton.mp ha
  exact .refl a

theorem Lists.cons (hm : m.Tree) (hp : p < m.size) {a : Ptr} {listed : List Ptr} (h : Lists m a listed)
    (ha : Anc m.par a p) (hlt : m.ht a < m.ht p) : Lists m p (p :: listed) := by
  obtain ⟨g, hg, h0⟩ := h.last
  have haS := hm.graded.anc_mem hp ha
  refine ⟨rfl, ⟨g, ?_, h0⟩, List.pairwise_cons.mpr ⟨fun b hb => ?_, h.heights⟩, fun b hb => ?_⟩
  · rw [List.getLast?_cons, hg, Option.getD_some]
  · have hle := (hm.graded.anc_height haS (h.ancestors b hb)).1
    omega
  · rcases List.mem_cons.mp hb with rfl | hb
    · exact .refl b
    · exact (h.ancestors b hb).trans ha

theorem Follows.getLocatorLoop_eq (h : Follows m v call) (hm : m.Tree) (hp : p < m.size) {turns nStep : Nat}
    (hturns : m.ht p < turns) (hstep : 0 < nStep) (vHave : List Uint256) :
    ∃ listed, getLocatorLoop m v turns nStep vHave (some p) = vHave ++ listed.map (fun a => (m.entry a).hash) ∧
      Lists m p listed := by
  induction turns generalizing p nStep vHave with
  | zero => omega
  | succ turns ih =>
    rw [getLocatorLoop]
    dsimp only
    by_cases h0 : m.ht p = 0
    · exact ⟨[p], if_pos h0, lists_root h0⟩
    · obtain ⟨a, hnext, ha, hheight⟩ := h.below hm hp (Nat.sub_le (m.ht p) nStep)
      rw [if_neg h0, hnext]
      have hstep' : 0 < if 10 < (vHave ++ [(m.entry p).hash]).length then nStep * 2 else nStep := by
        split_ifs <;> omega
      obtain ⟨listed, heq, hlists⟩ := ih (hm.graded.anc_mem hp ha) (by omega) hstep' (vHave ++ [(m.entry p).hash])
      refine ⟨p :: listed, ?_, hlists.cons hm hp ha (by omega)⟩
      rw [heq, List.append_assoc]
      rfl

theorem Follows.getLocator_eq (h : Follows m v call) (hm : m.Tree) (hp : p < m.size) :
    ∃ listed, getLocator m v (some p) = listed.map (fun a => (m.entry a).hash) ∧ Lists m p listed :=
  h.getLocatorLoop_eq hm hp (Nat.lt_succ_self _) Nat.one_pos []

end

end CChain

/-- The first hash on the chain is found, when there is one. -/
theorem findForkInGlobalIndex_eq {m : BlockMap} {v : CChain} {t : Ptr} (hm : m.Tree) (ht : t < m.size)
    (hends : CChain.EndsAt m v t) (hhash : ∀ p < m.size, ∀ q < m.size, (m.entry p).hash = (m.entry q).hash → p = q)
    {vHave : List Uint256} (hsome : ∃ q hash, hash ∈ vHave ∧ Anc m.par q t ∧ (m.entry q).hash = hash) :
    ∃ q before hash rest, findForkInGlobalIndex m v vHave = some q ∧ vHave = before ++ hash :: rest ∧
      Anc m.par q t ∧ (m.entry q).hash = hash ∧
      ∀ other ∈ before, ∀ q', Anc m.par q' t → (m.entry q').hash ≠ other := by
  induction vHave with
  | nil =>
    obtain ⟨q, hash, hmem, -⟩ := hsome
    simp at hmem
  | cons hash vHave ih =>
    by_cases hhere : ∃ q, Anc m.par q t ∧ (m.entry q).hash = hash
    · obtain ⟨q, hq, hqhash⟩ := hhere
      have hqS := hm.graded.anc_mem ht hq
      have hfind : m.find hash = some q := by
        cases hf : m.find hash with
        | none => exact absurd hqhash (BlockMap.find_eq_none hf q hqS)
        | some r =>
          obtain ⟨hr, hrhash⟩ := BlockMap.find_eq_some hf
          rw [hhash r hr q hqS (hrhash.trans hqhash.symm)]
      refine ⟨q, [], hash, vHave, ?_, rfl, hq, hqhash, fun other hother => by simp at hother⟩
      rw [findForkInGlobalIndex, hfind]
      exact if_pos ((hends.contains_iff hm ht).mpr hq)
    · have hskip : findForkInGlobalIndex m v (hash :: vHave) = findForkInGlobalIndex m v vHave := by
        rw [findForkInGlobalIndex]
        cases hf : m.find hash with
        | none => rfl
        | some r =>
          refine if_neg fun hc => hhere ⟨r, (hends.contains_iff hm ht).mp hc, ?_⟩
          exact (BlockMap.find_eq_some hf).2
      rw [hskip]
      obtain ⟨q₀, hash₀, hmem₀, hanc₀, heq₀⟩ := hsome
      have hmem : hash₀ ∈ vHave := by
        rcases List.mem_cons.mp hmem₀ with rfl | hmem
        · exact absurd ⟨q₀, hanc₀, heq₀⟩ hhere
        · exact hmem
      obtain ⟨q, before, hash', rest, hfound, hsplit, hq, hqhash, hbefore⟩ := ih ⟨q₀, hash₀, hmem, hanc₀, heq₀⟩
      refine ⟨q, hash :: before, hash', rest, hfound, by rw [hsplit]; rfl, hq, hqhash, ?_⟩
      intro other hother q' hq' heq'
      rcases List.mem_cons.mp hother with rfl | hother
      · exact hhere ⟨q', hq', heq'⟩
      · exact hbefore other hother q' hq' heq'

end Reddcoin
