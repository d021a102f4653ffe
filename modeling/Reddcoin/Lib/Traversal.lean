import Mathlib.Data.List.Perm.Subperm
import Reddcoin.Lib.Forest

/-!
# Depth-first traversal of a forest

The nodes below a node, each before the nodes below it.  In a graded forest with finitely many nodes the
traversal from the only root meets every node once.
-/

namespace Forest

variable {α : Type} [DecidableEq α]

/-- The children of `p` among the given nodes. -/
def children (nodes : List α) (par : α → Option α) (p : α) : List α :=
  nodes.filter fun c => decide (par c = some p)

/-- The nodes below `p`, down to the given depth. -/
def subtree (nodes : List α) (par : α → Option α) : Nat → α → List α
  | 0, _ => []
  | depth + 1, p => p :: (children nodes par p).flatMap (subtree nodes par depth)

section

variable {nodes : List α} {par : α → Option α} {ht : α → Nat} {p q c : α} {depth : Nat}

theorem mem_children : c ∈ children nodes par p ↔ c ∈ nodes ∧ par c = some p := by
  unfold children
  rw [List.mem_filter, decide_eq_true_eq]

theorem anc_of_mem_subtree (h : q ∈ subtree nodes par depth p) : Anc par p q := by
  induction depth generalizing p with
  | zero => simp [subtree] at h
  | succ depth ih =>
    rcases List.mem_cons.mp h with rfl | h
    · exact .refl q
    · obtain ⟨c, hc, hq⟩ := List.mem_flatMap.mp h
      exact (Anc.of_parent (mem_children.mp hc).2).trans (ih hq)

namespace Graded

/-- The traversal meets the nodes below `p`. -/
theorem mem_subtree (hg : Graded (· ∈ nodes) par ht) (hp : p ∈ nodes)
    (hdepth : ∀ a ∈ nodes, ht a < ht p + depth) :
    q ∈ subtree nodes par depth p ↔ q ∈ nodes ∧ Anc par p q := by
  induction depth generalizing p with
  | zero =>
    have := hdepth p hp
    omega
  | succ depth ih =>
    constructor
    · intro h
      refine ⟨?_, anc_of_mem_subtree h⟩
      rcases List.mem_cons.mp h with rfl | h
      · exact hp
      · obtain ⟨c, hc, hq⟩ := List.mem_flatMap.mp h
        obtain ⟨hcn, hcp⟩ := mem_children.mp hc
        have hheight := hg.height hcn hcp
        exact ((ih hcn fun a ha => by have := hdepth a ha; omega).mp hq).1
    · rintro ⟨hq, hanc⟩
      by_cases hpq : p = q
      · rw [hpq]
        exact List.mem_cons_self
      · obtain ⟨c, hcp, hcq⟩ := hanc.child hpq
        have hcn := hg.anc_mem hq hcq
        have hheight := hg.height hcn hcp
        refine List.mem_cons_of_mem _ (List.mem_flatMap.mpr ⟨c, mem_children.mpr ⟨hcn, hcp⟩, ?_⟩)
        exact (ih hcn fun a ha => by have := hdepth a ha; omega).mpr ⟨hq, hcq⟩

/-- Subtrees of two children have nothing in common, so no node is met twice. -/
theorem nodup_subtree (hg : Graded (· ∈ nodes) par ht) (hnodup : nodes.Nodup) (hp : p ∈ nodes)
    (hdepth : ∀ a ∈ nodes, ht a < ht p + depth) : (subtree nodes par depth p).Nodup := by
  induction depth generalizing p with
  | zero => exact List.nodup_nil
  | succ depth ih =>
    have hchild : ∀ c ∈ children nodes par p, c ∈ nodes ∧ ht c = ht p + 1 ∧ ∀ a ∈ nodes, ht a < ht c + depth := by
      intro c hc
      obtain ⟨hcn, hcp⟩ := mem_children.mp hc
      have hheight := hg.height hcn hcp
      exact ⟨hcn, hheight, fun a ha => by have := hdepth a ha; omega⟩
    refine List.nodup_cons.mpr ⟨fun hmem => ?_, List.nodup_flatMap.mpr ⟨fun c hc => ?_, ?_⟩⟩
    · obtain ⟨c, hc, hq⟩ := List.mem_flatMap.mp hmem
      obtain ⟨hcn, hheight, hc⟩ := hchild c hc
      have hle := (hg.anc_height hp (anc_of_mem_subtree hq)).1
      omega
    · obtain ⟨hcn, -, hc⟩ := hchild c hc
      exact ih hcn hc
    · refine List.Pairwise.imp_of_mem ?_ (hnodup.filter fun c => decide (par c = some p))
      intro c c' hc hc' hne q hq hq'
      obtain ⟨hcn, hheight, hcd⟩ := hchild c hc
      obtain ⟨hcn', hheight', hcd'⟩ := hchild c' hc'
      obtain ⟨hqn, hanc⟩ := (hg.mem_subtree hcn hcd).mp hq
      exact hne (hg.anc_eq_of_height hqn hanc (anc_of_mem_subtree hq') (by omega))

omit [DecidableEq α] in
/-- A path down to a node has room among the nodes. -/
theorem height_lt_length (hg : Graded (· ∈ nodes) par ht) (hp : p ∈ nodes) : ht p < nodes.length := by
  have hsub : path par (ht p) p ⊆ nodes := fun a ha => hg.anc_mem hp ((hg.mem_path hp).mp ha)
  have hle := ((hg.nodup_path hp).subperm hsub).length_le
  have hlen := hg.length_path hp
  omega

/-- From the root every node is met once. -/
theorem length_subtree (hg : Graded (· ∈ nodes) par ht) (hnodup : nodes.Nodup) (hp : p ∈ nodes)
    (hroot : ∀ q ∈ nodes, Anc par p q) : (subtree nodes par nodes.length p).length = nodes.length := by
  have hdepth : ∀ a ∈ nodes, ht a < ht p + nodes.length := by
    intro a ha
    have := hg.height_lt_length ha
    omega
  refine ((List.perm_ext_iff_of_nodup (hg.nodup_subtree hnodup hp hdepth) hnodup).mpr fun q => ?_).length_eq
  rw [hg.mem_subtree hp hdepth]
  exact ⟨fun h => h.1, fun hq => ⟨hq, hroot q hq⟩⟩

end Graded

end

end Forest
