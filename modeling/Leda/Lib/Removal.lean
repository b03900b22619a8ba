import Mathlib.Data.List.Basic
import Mathlib.Data.List.Nodup
import Mathlib.Data.List.Perm.Basic

/-!
# Removing elements by their places

Elements are removed from a list one after the other, each by its place in what is left.  If
the places increase, all that was removed before stood in front of the next one, which has
moved down by one place for each: the `k`-th removal, from `0` on, takes the element that stood
`k` places after the one that is named (`removed`).  What is left and what was removed are the
list (`eraseAll_perm`).
-/

namespace Leda.Lib

open List

variable {α : Type}

/-- Remove the elements at these places, one after the other. -/
def eraseAll (l : List α) (is : List Nat) : List α := is.foldl eraseIdx l

/-- The elements at these places, the first of them `k` places further on, and each of the
others one place further than the one before. -/
def removed (l : List α) : Nat → List Nat → List α
  | _, [] => []
  | k, i :: is => (l[i + k]?).toList ++ removed l (k + 1) is

section

variable {l : List α} {is : List Nat} {i k : Nat} {a : α}

/-- What comes after a removed element moves down. -/
theorem removed_eraseIdx (h : ∀ j ∈ is, i ≤ j) :
    removed (l.eraseIdx i) k is = removed l (k + 1) is := by
  induction is generalizing k with
  | nil => rfl
  | cons j is ih =>
      obtain ⟨hj, h⟩ := forall_mem_cons.1 h
      rw [removed, removed, ih h, getElem?_eraseIdx_of_ge (by omega)]
      rfl

/-- One removal. -/
theorem eraseIdx_perm (l : List α) (i : Nat) : ((l[i]?).toList ++ l.eraseIdx i).Perm l := by
  by_cases hi : i < l.length
  · rw [getElem?_eq_getElem hi]
    exact getElem_cons_eraseIdx_perm hi
  · rw [getElem?_eq_none (by omega), eraseIdx_of_length_le (by omega)]
    exact .refl _

/-- **What was removed, and what is left.** -/
theorem eraseAll_perm (h : is.Pairwise (· < ·)) (l : List α) :
    (removed l 0 is ++ eraseAll l is).Perm l := by
  induction is generalizing l with
  | nil => exact .refl _
  | cons i is ih =>
      obtain ⟨hi, h⟩ := pairwise_cons.1 h
      have hrest := ih h (l.eraseIdx i)
      rw [removed_eraseIdx fun j hj ↦ Nat.le_of_lt (hi j hj)] at hrest
      rw [removed, append_assoc]
      exact (hrest.append_left _).trans (eraseIdx_perm l i)

/-- In a list without repetitions, what is left is what was not removed. -/
theorem mem_eraseAll (h : is.Pairwise (· < ·)) (hl : l.Nodup) :
    a ∈ eraseAll l is ↔ a ∈ l ∧ a ∉ removed l 0 is := by
  have hp := eraseAll_perm h l
  have hn := nodup_append.1 (hp.nodup_iff.2 hl)
  constructor
  · intro ha
    exact ⟨hp.mem_iff.1 (mem_append_right _ ha), fun hr ↦ hn.2.2 a hr a ha rfl⟩
  · rintro ⟨ha, hr⟩
    exact (mem_append.1 (hp.mem_iff.2 ha)).resolve_left hr

theorem nodup_eraseAll (h : is.Pairwise (· < ·)) (hl : l.Nodup) : (eraseAll l is).Nodup :=
  (nodup_append.1 ((eraseAll_perm h l).nodup_iff.2 hl)).2.1

theorem nodup_removed (h : is.Pairwise (· < ·)) (hl : l.Nodup) : (removed l 0 is).Nodup :=
  (nodup_append.1 ((eraseAll_perm h l).nodup_iff.2 hl)).1

/-- **Removal by place is removal of these elements exactly if** they are the ones that stand
there. -/
theorem eraseAll_iff (h : is.Pairwise (· < ·)) (hl : l.Nodup) {gone : List α} (hg : gone.Nodup)
    (hsub : ∀ a ∈ gone, a ∈ l) :
    (∀ a, a ∈ eraseAll l is ↔ a ∈ l ∧ a ∉ gone) ↔ gone.Perm (removed l 0 is) := by
  rw [perm_ext_iff_of_nodup hg (nodup_removed h hl)]
  have hrem : ∀ a ∈ removed l 0 is, a ∈ l :=
    fun a ha ↦ (eraseAll_perm h l).mem_iff.1 (mem_append_left _ ha)
  refine forall_congr' fun a ↦ ?_
  rw [mem_eraseAll h hl]
  by_cases hal : a ∈ l
  · simp only [hal, true_and, not_iff_not]
    exact iff_comm
  · have hgone : a ∉ gone := fun ha ↦ hal (hsub a ha)
    have hremoved : a ∉ removed l 0 is := fun ha ↦ hal (hrem a ha)
    simp only [hal, hgone, hremoved, false_and]

end

end Leda.Lib
