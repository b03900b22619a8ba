import Mathlib.Data.List.Nodup
import Mathlib.Data.List.Perm.Subperm

/-!
# Exclusive placement

A *placement* `f : P → List I` says which items sit in which place.  It is
`Exclusive` when every item is in at most one place, and at most once in it:
the shape of every "has one owner" argument about objects that are handed from
queue to queue.

An operation of such a system touches one or two places.  So that nobody has to
argue about all of them, the rules below compare only the contents of the
places that changed, up to reordering and loss (`<+~` is `List.Subperm`):

* `Exclusive.shrink` — one place was reordered or lost items;
* `Exclusive.transfer` — two places exchanged or lost items, and `Exclusive.move`
  for the usual case of a single item;
* `Exclusive.insert_fresh` — one place received an item that was nowhere, and
  `Exclusive.insert_all` for several.
-/

universe u v

namespace Leda.Lib

variable {P : Type u} {I : Type v}

open List

/-- Every item is in at most one place, and at most once in it. -/
structure Exclusive (f : P → List I) : Prop where
  /-- No place holds an item twice. -/
  nodup : ∀ p, (f p).Nodup
  /-- No two places share an item. -/
  disjoint : ∀ p q, p ≠ q → List.Disjoint (f p) (f q)

/-- A list with fewer items than a duplicate-free one is duplicate-free. -/
theorem nodup_of_subperm {l l' : List I} (h : l' <+~ l) (hl : l.Nodup) : l'.Nodup := by
  obtain ⟨m, hm, hsub⟩ := h
  exact hm.nodup_iff.1 (hl.sublist hsub)

/-- Appending is monotone for `<+~`. -/
theorem subperm_append {l₁ l₂ m₁ m₂ : List I} (h : l₁ <+~ l₂) (h' : m₁ <+~ m₂) :
    l₁ ++ m₁ <+~ l₂ ++ m₂ :=
  ((subperm_append_right m₁).2 h).trans ((subperm_append_left l₂).2 h')

namespace Exclusive

variable {f f' : P → List I}

/-- Nothing anywhere is exclusive. -/
theorem empty : Exclusive fun _ : P ↦ ([] : List I) :=
  ⟨fun _ ↦ nodup_nil, fun _ _ _ ↦ disjoint_nil_left _⟩

/-- An item determines the place it is in. -/
theorem place_unique (h : Exclusive f) {p q : P} {i : I} (hp : i ∈ f p) (hq : i ∈ f q) :
    p = q := by
  by_contra hne
  exact h.disjoint p q hne hp hq

/-- Places that only lose items stay exclusive. -/
theorem mono (h : Exclusive f) (hsub : ∀ p, f' p <+~ f p) : Exclusive f' where
  nodup p := nodup_of_subperm (hsub p) (h.nodup p)
  disjoint p q hne _ hp hq := h.disjoint p q hne ((hsub p).subset hp) ((hsub q).subset hq)

/-- One place was reordered or lost items, the others are as before. -/
theorem shrink (h : Exclusive f) {p : P} (hrest : ∀ r, r ≠ p → f' r = f r)
    (hsub : f' p <+~ f p) : Exclusive f' := by
  refine h.mono fun r ↦ ?_
  by_cases hr : r = p
  · subst hr; exact hsub
  · rw [hrest r hr]

/-- Two places exchanged or lost items, the others are as before. -/
theorem transfer (h : Exclusive f) {p q : P} (hpq : p ≠ q)
    (hrest : ∀ r, r ≠ p → r ≠ q → f' r = f r)
    (hsub : f' p ++ f' q <+~ f p ++ f q) : Exclusive f' := by
  have hnd : (f' p ++ f' q).Nodup := nodup_of_subperm hsub <|
    nodup_append'.2 ⟨h.nodup p, h.nodup q, h.disjoint p q hpq⟩
  obtain ⟨hnp, hnq, hdis⟩ := nodup_append'.1 hnd
  -- an item now in `p` or `q` was in `p` or `q` before
  have hmem : ∀ r, r = p ∨ r = q → ∀ i ∈ f' r, i ∈ f p ∨ i ∈ f q := by
    rintro r (rfl | rfl) i hi
    · exact mem_append.1 (hsub.subset (mem_append_left _ hi))
    · exact mem_append.1 (hsub.subset (mem_append_right _ hi))
  have hout : ∀ r s, (r = p ∨ r = q) → ¬ (s = p ∨ s = q) → List.Disjoint (f' r) (f' s) := by
    intro r s hr hs i hi hi'
    have hs' : s ≠ p ∧ s ≠ q := by simpa [not_or] using hs
    rw [hrest s hs'.1 hs'.2] at hi'
    rcases hmem r hr i hi with h₁ | h₁
    · exact hs'.1 (h.place_unique hi' h₁)
    · exact hs'.2 (h.place_unique hi' h₁)
  constructor
  · intro r
    by_cases hrp : r = p
    · rw [hrp]; exact hnp
    · by_cases hrq : r = q
      · rw [hrq]; exact hnq
      · rw [hrest r hrp hrq]; exact h.nodup r
  · intro r s hne
    by_cases hr : r = p ∨ r = q
    · by_cases hs : s = p ∨ s = q
      · rcases hr with rfl | rfl <;> rcases hs with rfl | rfl
        · exact absurd rfl hne
        · exact hdis
        · exact disjoint_symm hdis
        · exact absurd rfl hne
      · exact hout r s hr hs
    · by_cases hs : s = p ∨ s = q
      · exact disjoint_symm (hout s r hs hr)
      · have hr' : r ≠ p ∧ r ≠ q := by simpa [not_or] using hr
        have hs' : s ≠ p ∧ s ≠ q := by simpa [not_or] using hs
        rw [hrest r hr'.1 hr'.2, hrest s hs'.1 hs'.2]
        exact h.disjoint r s hne

/-- One item moved from `q` to `p`, the others are where they were. -/
theorem move (h : Exclusive f) {p q : P} {i : I} (hpq : p ≠ q)
    (hrest : ∀ r, r ≠ p → r ≠ q → f' r = f r) (hq : i :: f' q <+~ f q)
    (hp : f' p <+~ i :: f p) : Exclusive f' := by
  have h₁ : f' p ++ f' q <+~ (i :: f p) ++ f' q := subperm_append hp (Subperm.refl _)
  have h₂ : (i :: f p) ++ f' q <+~ f p ++ i :: f' q := perm_middle.symm.subperm
  exact h.transfer hpq hrest (h₁.trans (h₂.trans (subperm_append (Subperm.refl _) hq)))

/-- One place received an item that was nowhere, the others are as before. -/
theorem insert_fresh (h : Exclusive f) {p : P} {i : I} (hfresh : ∀ r, i ∉ f r)
    (hrest : ∀ r, r ≠ p → f' r = f r) (hsub : f' p <+~ i :: f p) : Exclusive f' := by
  have hnd : (i :: f p).Nodup := nodup_cons.2 ⟨hfresh p, h.nodup p⟩
  have hout : ∀ s, s ≠ p → List.Disjoint (f' p) (f' s) := by
    intro s hs j hj hj'
    rw [hrest s hs] at hj'
    rcases mem_cons.1 (hsub.subset hj) with rfl | hj
    · exact hfresh s hj'
    · exact hs (h.place_unique hj' hj)
  constructor
  · intro r
    by_cases hr : r = p
    · rw [hr]; exact nodup_of_subperm hsub hnd
    · rw [hrest r hr]; exact h.nodup r
  · intro r s hne
    by_cases hr : r = p
    · subst hr; exact hout s (Ne.symm hne)
    · by_cases hs : s = p
      · subst hs; exact disjoint_symm (hout r hr)
      · rw [hrest r hr, hrest s hs]; exact h.disjoint r s hne

/-- One place received several items that were nowhere, the others are as before. -/
theorem insert_all [DecidableEq P] {p : P} {new : List I} (h : Exclusive f) (hnd : new.Nodup)
    (hfresh : ∀ i ∈ new, ∀ r, i ∉ f r) (hrest : ∀ r, r ≠ p → f' r = f r)
    (hsub : f' p <+~ new ++ f p) : Exclusive f' := by
  induction new generalizing f f' with
  | nil => exact h.shrink hrest hsub
  | cons i new ih =>
      obtain ⟨hi, hnd⟩ := nodup_cons.1 hnd
      obtain ⟨hfi, hfresh⟩ := forall_mem_cons.1 hfresh
      -- all but the first are there already
      have hg : Exclusive (Function.update f p (new ++ f p)) := by
        refine ih h hnd hfresh (fun r hr ↦ Function.update_of_ne hr _ _) ?_
        rw [Function.update_self]
      refine hg.insert_fresh (p := p) (i := i) (fun r hr ↦ ?_) (fun r hr ↦ ?_) ?_
      · by_cases hrp : r = p
        · subst hrp
          rw [Function.update_self, mem_append] at hr
          exact hr.elim hi (hfi _)
        · rw [Function.update_of_ne hrp] at hr
          exact hfi _ hr
      · rw [Function.update_of_ne hr, hrest r hr]
      · rw [Function.update_self]
        exact hsub

end Exclusive

end Leda.Lib
