import Mathlib.Data.Set.Lattice
import Mathlib.Order.CompletePartialOrder
import Mathlib.Data.List.Pairwise
import Mathlib.Data.List.Dedup

/-!
# Partitions that keep ties together

A list of classes is a **partition** of a set that respects a relation `tied` if
the classes are pairwise disjoint, if together they are the set, and if tied
elements share a class (`IsPartition`).  The classes are given as the images of a
list of indices, so that empty classes and the identity of the indices are not lost.

A program that builds such a partition looks at the classes one after the other and
keeps the union of those it has seen: the next class must be disjoint from that
union and closed under `tied` (`Admits`).  `isPartition_iff_admits` says that this
incremental test, with the comparison of the final union, accepts exactly the
partitions.
-/

universe u v

namespace Leda.Lib

open List

variable {α : Type u} {ι : Type v}

/-- What is tied to an element of the set is in the set. -/
def TieClosed (tied : α → α → Prop) (s : Set α) : Prop := ∀ x ∈ s, ∀ y, tied x y → y ∈ s

/-- The classes `f i`, for `i` in the list, are a partition of `U` that keeps tied
elements together. -/
structure IsPartition (U : Set α) (tied : α → α → Prop) (f : ι → Set α) (l : List ι) : Prop where
  /-- The classes are pairwise disjoint. -/
  disjoint : l.Pairwise fun i j ↦ Disjoint (f i) (f j)
  /-- Their union is the whole. -/
  covers : ⋃ i ∈ l, f i = U
  /-- Tied elements are in one class. -/
  together : ∀ x y, tied x y → ∃ i ∈ l, x ∈ f i ∧ y ∈ f i

/-- The incremental test: each class is disjoint from what was seen before it, and
closed under `tied`. -/
def Admits (tied : α → α → Prop) (f : ι → Set α) : Set α → List ι → Prop
  | _, [] => True
  | seen, i :: l => Disjoint seen (f i) ∧ TieClosed tied (f i) ∧ Admits tied f (seen ∪ f i) l

section

variable {U seen : Set α} {tied : α → α → Prop} {f : ι → Set α} {l : List ι}

/-- What the incremental test accepts, without the order in which it looks. -/
theorem admits_iff :
    Admits tied f seen l ↔ (∀ i ∈ l, Disjoint seen (f i)) ∧
      (l.Pairwise fun i j ↦ Disjoint (f i) (f j)) ∧ ∀ i ∈ l, TieClosed tied (f i) := by
  induction l generalizing seen with
  | nil => simp [Admits]
  | cons i l ih =>
      rw [Admits, ih, pairwise_cons]
      simp only [Set.disjoint_union_left, forall_mem_cons]
      constructor
      · rintro ⟨hi, hc, hd, hp, hcl⟩
        exact ⟨⟨hi, fun j hj ↦ (hd j hj).1⟩, ⟨fun j hj ↦ (hd j hj).2, hp⟩, hc, hcl⟩
      · rintro ⟨⟨hi, hd⟩, ⟨hij, hp⟩, hc, hcl⟩
        exact ⟨hi, hc, fun j hj ↦ ⟨hd j hj, hij j hj⟩, hp, hcl⟩

/-- An element is in one class at most. -/
theorem eq_of_mem (hd : l.Pairwise fun i j ↦ Disjoint (f i) (f j)) {i j : ι} {x : α}
    (hi : i ∈ l) (hj : j ∈ l) (hxi : x ∈ f i) (hxj : x ∈ f j) : i = j := by
  by_contra hne
  have hsymm : Std.Symm fun i j ↦ Disjoint (f i) (f j) := ⟨fun _ _ h ↦ h.symm⟩
  exact Set.disjoint_left.1 (hd.forall hi hj hne) hxi hxj

/-- Where the classes are disjoint and cover, a tie within the classes is a tie that
no class breaks. -/
theorem together_iff_closed (hd : l.Pairwise fun i j ↦ Disjoint (f i) (f j))
    (hU : ∀ x y, tied x y → x ∈ ⋃ i ∈ l, f i) :
    (∀ x y, tied x y → ∃ i ∈ l, x ∈ f i ∧ y ∈ f i) ↔ ∀ i ∈ l, TieClosed tied (f i) := by
  constructor
  · intro h i hi x hx y hxy
    obtain ⟨j, hj, hxj, hyj⟩ := h x y hxy
    obtain rfl := eq_of_mem hd hi hj hx hxj
    exact hyj
  · intro h x y hxy
    obtain ⟨i, hi, hx⟩ := Set.mem_iUnion₂.1 (hU x y hxy)
    exact ⟨i, hi, hx, h i hi x hx y hxy⟩

/-- **The incremental test accepts exactly the partitions.** -/
theorem isPartition_iff_admits (hU : ∀ x y, tied x y → x ∈ U) :
    IsPartition U tied f l ↔ Admits tied f ∅ l ∧ ⋃ i ∈ l, f i = U := by
  rw [admits_iff]
  constructor
  · rintro ⟨hd, hc, ht⟩
    have hcl := (together_iff_closed hd fun x y h ↦ hc ▸ hU x y h).1 ht
    exact ⟨⟨fun i _ ↦ Set.empty_disjoint _, hd, hcl⟩, hc⟩
  · rintro ⟨⟨-, hd, hcl⟩, hc⟩
    exact ⟨hd, hc, (together_iff_closed hd fun x y h ↦ hc ▸ hU x y h).2 hcl⟩

namespace IsPartition

/-- Every element has exactly one class. -/
theorem existsUnique (h : IsPartition U tied f l) {x : α} (hx : x ∈ U) :
    ∃! i, i ∈ l ∧ x ∈ f i := by
  rw [← h.covers] at hx
  obtain ⟨i, hi, hxi⟩ := Set.mem_iUnion₂.1 hx
  refine ⟨i, ⟨hi, hxi⟩, ?_⟩
  rintro j ⟨hj, hxj⟩
  exact eq_of_mem h.disjoint hj hi hxj hxi

/-- Naming a class once is enough. -/
theorem dedup [DecidableEq ι] (h : IsPartition U tied f l) : IsPartition U tied f l.dedup where
  disjoint := h.disjoint.sublist (dedup_sublist l)
  covers := by simpa only [mem_dedup] using h.covers
  together := by simpa only [mem_dedup] using h.together

end IsPartition

end

end Leda.Lib
