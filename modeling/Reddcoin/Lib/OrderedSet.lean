import Mathlib.Data.List.Sort

/-!
# Ordered sets

A set as the list of its elements in their order, each once.
-/

namespace OrderedSet

variable {α : Type} {r : α → α → Prop} {a b : α} {l l' : List α}

/-- The elements are in order, each once. -/
structure Ordered (r : α → α → Prop) (l : List α) : Prop where
  pairwise : l.Pairwise r
  nodup : l.Nodup

/-- The elements determine the list. -/
theorem Ordered.ext [Std.Antisymm r] (h : Ordered r l) (h' : Ordered r l') (hmem : ∀ a, a ∈ l ↔ a ∈ l') : l = l' := by
  have hperm : l.Perm l' := (List.perm_ext_iff_of_nodup h.nodup h'.nodup).mpr hmem
  exact hperm.eq_of_pairwise' h.pairwise h'.pairwise

variable [DecidableEq α] [DecidableRel r]

def insert (r : α → α → Prop) [DecidableRel r] (a : α) (l : List α) : List α :=
  if a ∈ l then l else l.orderedInsert r a

theorem mem_insert : b ∈ insert r a l ↔ b = a ∨ b ∈ l := by
  unfold insert
  split_ifs with h
  · constructor
    · exact .inr
    · rintro (rfl | hmem)
      · exact h
      · exact hmem
  · exact List.mem_orderedInsert _

theorem nodup_insert (hnodup : l.Nodup) : (insert r a l).Nodup := by
  unfold insert
  split_ifs with h
  · exact hnodup
  · rw [(List.perm_orderedInsert _ a l).nodup_iff]
    exact List.nodup_cons.mpr ⟨h, hnodup⟩

theorem length_insert (h : a ∉ l) : (insert r a l).length = l.length + 1 := by
  unfold insert
  rw [if_neg h, List.orderedInsert_length]

theorem Ordered.insert [Std.Total r] [IsTrans α r] (h : Ordered r l) (a : α) : Ordered r (insert r a l) := by
  refine ⟨?_, nodup_insert h.nodup⟩
  unfold OrderedSet.insert
  split_ifs
  · exact h.pairwise
  · exact h.pairwise.orderedInsert a l

/-- The set of the elements of a list. -/
def ofList (r : α → α → Prop) [DecidableRel r] (l : List α) : List α :=
  l.foldl (fun set a => insert r a set) []

theorem mem_foldl_insert (set : List α) : b ∈ l.foldl (fun set a => insert r a set) set ↔ b ∈ set ∨ b ∈ l := by
  induction l generalizing set with
  | nil => simp
  | cons a l ih =>
    rw [List.foldl_cons, ih, mem_insert, List.mem_cons]
    tauto

theorem mem_ofList : b ∈ ofList r l ↔ b ∈ l := by
  unfold ofList
  rw [mem_foldl_insert]
  simp

theorem ordered_foldl_insert [Std.Total r] [IsTrans α r] {set : List α} (h : Ordered r set) :
    Ordered r (l.foldl (fun set a => insert r a set) set) := by
  induction l generalizing set with
  | nil => exact h
  | cons a l ih => exact ih (h.insert a)

theorem ordered_ofList [Std.Total r] [IsTrans α r] : Ordered r (ofList r l) :=
  ordered_foldl_insert ⟨List.Pairwise.nil, List.nodup_nil⟩

/-- The set does not depend on the order in which its elements come. -/
theorem ofList_congr [Std.Total r] [IsTrans α r] [Std.Antisymm r] (h : ∀ a, a ∈ l ↔ a ∈ l') :
    ofList r l = ofList r l' := by
  refine ordered_ofList.ext ordered_ofList fun a => ?_
  rw [mem_ofList, mem_ofList]
  exact h a

end OrderedSet
