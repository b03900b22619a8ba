import Leda.Lua.Copy
import Mathlib.Data.Fintype.Pigeonhole

/-!
# The length operator

`#` returns a border, and an `int`.  When a table has several borders the manual does not
say which; `Measures` is what is known of the operator.

A table that was filled from a list with `lua_rawseti` has the elements of the list at
their positions (`rawget_arrayEntries`), so that its borders are the positions after which
the list has a `nil` (`border_arrayEntries`).  With a `nil` before another element there is
more than one.

The least border exists, since a table with `n` pairs has no room for `n + 1` positions
(`exists_rawget_eq_nil`).  An operator that returns it measures (`measures_firstBorder`):
this is what an implementation does that looks for a `nil` from the start.
-/

namespace Leda.Lua

/-- What is known of `#`. -/
def Measures (len : List (Value × Value) → Nat) : Prop :=
  ∀ es, es.length < 2 ^ 31 → Border es (len es) ∧ len es < 2 ^ 31

/-- The least border. -/
def firstBorder (es : List (Value × Value)) : Nat :=
  ((List.range (es.length + 1)).find? fun n ↦ rawget es (.ofNat (n + 1)) = .nil).getD 0

section

variable {es es' : List (Value × Value)} {k k' v v' : Value} {m n i : Nat} {vs : List Value}
  {ρ : Nat → Nat → Prop} {d : BitVec 64}

/-! ## Looking up -/

theorem rawget_cons (e : Value × Value) (es : List (Value × Value)) (k : Value) :
    rawget (e :: es) k = if rawEq e.1 k then e.2 else rawget es k := by
  rw [rawget, List.find?_cons]
  split <;> simp_all [rawget]

theorem rawget_of_mem (hw : WellFormed es) (he : (k, v) ∈ es) : rawget es k = v := by
  have hk : isKey k = true := hw.keys _ he
  have hd := hw.distinct
  clear hw
  induction es with
  | nil => cases he
  | cons e es ih =>
      obtain ⟨hhead, htail⟩ := List.pairwise_cons.1 hd
      rw [rawget_cons]
      rcases List.mem_cons.1 he with rfl | he
      · rw [if_pos (rawEq_refl hk)]
      · rw [if_neg (by simp [hhead _ he])]
        exact ih he htail

theorem rawget_eq_nil (h : ∀ e ∈ es, rawEq e.1 k = false) : rawget es k = .nil := by
  have hfind : es.find? (fun e ↦ rawEq e.1 k) = none := by
    rw [List.find?_eq_none]
    exact fun e he ↦ by simp [h e he]
  rw [rawget, hfind]
  rfl

theorem exists_of_rawget_ne_nil (h : rawget es k ≠ .nil) : ∃ e ∈ es, rawEq e.1 k = true := by
  by_contra hn
  refine h (rawget_eq_nil fun e he ↦ ?_)
  by_contra ht
  exact hn ⟨e, he, by simpa using ht⟩

/-- Corresponding tables have corresponding values at a number. -/
theorem rawget_rel (hes : List.Forall₂ (RelPair ρ) es es') :
    RelValue ρ (rawget es (.number d)) (rawget es' (.number d)) := by
  have heq : ∀ {v v' : Value}, RelValue ρ v v' →
      rawEq v' (.number d) = rawEq v (.number d) := by
    intro v v' hv
    cases v with
    | object a =>
        obtain ⟨b, rfl, -⟩ := hv
        rfl
    | nil | boolean | lightuserdata | number | string =>
        obtain rfl : v' = _ := hv
        rfl
  induction hes with
  | nil => exact rfl
  | @cons e e' es es' he _ ih =>
      rw [rawget_cons, rawget_cons, heq he.1]
      split
      · exact he.2
      · exact ih

theorem rawget_rel_ofNat (hes : List.Forall₂ (RelPair ρ) es es') (n : Nat) :
    RelValue ρ (rawget es (.ofNat n)) (rawget es' (.ofNat n)) := by
  rw [ofNat_eq]
  exact rawget_rel hes

theorem border_rel (hes : List.Forall₂ (RelPair ρ) es es') : Border es' n ↔ Border es n := by
  rw [Border, Border, (rawget_rel_ofNat hes (n + 1)).eq_nil_iff, Ne, Ne,
    (rawget_rel_ofNat hes n).eq_nil_iff]

/-! ## Tables filled from a list -/

/-- **The elements are at their positions.** -/
theorem rawget_arrayEntries (hl : vs.length < 2 ^ 53 - 1) (hi : i + 1 < 2 ^ 53) :
    rawget (arrayEntries vs) (.ofNat (i + 1)) = (vs[i]?).getD .nil := by
  by_cases hv : (vs[i]?).getD .nil = .nil
  · rw [hv]
    refine rawget_eq_nil fun e he ↦ ?_
    obtain ⟨j, w, hj, hw, rfl⟩ := mem_arrayEntries_iff.1 he
    have hlt : j < vs.length := (List.getElem?_eq_some_iff.1 hj).1
    refine rawEq_ofNat (by omega) hi fun hij ↦ ?_
    obtain rfl : j = i := by omega
    rw [hj] at hv
    exact hw hv
  · refine rawget_of_mem (wellFormed_arrayEntries hl) (mem_arrayEntries_iff.2 ⟨i, _, ?_, hv, rfl⟩)
    cases hg : vs[i]? with
    | none => exact absurd (by rw [hg]; rfl) hv
    | some v => rfl

theorem length_arrayEntries : (arrayEntries vs).length ≤ vs.length := by
  refine (List.length_filterMap_le _ _).trans ?_
  rw [List.length_zipIdx]

/-- **The borders of a list.** -/
theorem border_arrayEntries (hl : vs.length < 2 ^ 53 - 1) (hn : n + 1 < 2 ^ 53) :
    Border (arrayEntries vs) n ↔
      (n ≠ 0 → (vs[n - 1]?).getD .nil ≠ .nil) ∧ (vs[n]?).getD .nil = .nil := by
  have hprev : n ≠ 0 → rawget (arrayEntries vs) (.ofNat n) = (vs[n - 1]?).getD .nil := by
    intro h0
    have h := rawget_arrayEntries (i := n - 1) hl (by omega)
    rwa [Nat.sub_add_cancel (by omega)] at h
  rw [Border, rawget_arrayEntries hl hn]
  refine and_congr_left fun _ ↦ forall_congr' fun h0 ↦ ?_
  rw [hprev h0]

/-! ## The least border -/

/-- Two keys that equal a third. -/
theorem rawEq_of_rawEq_ofNat (hm : rawEq k (.ofNat m) = true) (hn : rawEq k (.ofNat n) = true) :
    rawEq (.ofNat m) (.ofNat n) = true := by
  rw [ofNat_eq] at hm hn ⊢
  rw [ofNat_eq]
  cases k with
  | number d =>
      simp only [rawEq, numEq, Bool.and_eq_true, Bool.or_eq_true, beq_iff_eq] at hm hn ⊢
      obtain ⟨⟨-, hnm⟩, hm⟩ := hm
      obtain ⟨⟨-, hnn⟩, hn⟩ := hn
      refine ⟨⟨hnm, hnn⟩, ?_⟩
      rcases hm with rfl | ⟨hd, hm⟩
      · exact hn
      · rcases hn with rfl | ⟨-, hn⟩
        · exact .inr ⟨hm, hd⟩
        · exact .inr ⟨hm, hn⟩
  | nil | boolean | lightuserdata | string | object => cases hm

/-- **A table with `n` pairs lacks one of `n + 1` positions.** -/
theorem exists_rawget_eq_nil (h : es.length < 2 ^ 31) :
    ∃ n ≤ es.length, rawget es (.ofNat (n + 1)) = .nil := by
  by_contra hall
  have hget : ∀ n : Fin (es.length + 1), ∃ i : Fin es.length,
      rawEq es[i].1 (.ofNat (n + 1)) = true := by
    intro n
    have hne : rawget es (.ofNat (n + 1)) ≠ .nil :=
      fun he ↦ hall ⟨n, Nat.le_of_lt_succ n.isLt, he⟩
    obtain ⟨e, he, hk⟩ := exists_of_rawget_ne_nil hne
    obtain ⟨i, hi, rfl⟩ := List.getElem_of_mem he
    exact ⟨⟨i, hi⟩, hk⟩
  choose f hf using hget
  obtain ⟨m, n, hne, heq⟩ := Fintype.exists_ne_map_eq_of_card_lt f (by simp)
  have hmn := rawEq_of_rawEq_ofNat (hf m) (heq ▸ hf n)
  have hval : (m : Nat) ≠ n := fun h ↦ hne (Fin.ext h)
  have hdiff : rawEq (.ofNat (m + 1)) (.ofNat (n + 1)) = false :=
    rawEq_ofNat (by omega) (by omega) (by omega)
  rw [hdiff] at hmn
  cases hmn

theorem firstBorder_spec (h : es.length < 2 ^ 31) : firstBorder es ≤ es.length ∧
    rawget es (.ofNat (firstBorder es + 1)) = .nil ∧
      ∀ j < firstBorder es, rawget es (.ofNat (j + 1)) ≠ .nil := by
  unfold firstBorder
  cases hf : (List.range (es.length + 1)).find? fun n ↦ rawget es (.ofNat (n + 1)) = .nil with
  | none =>
      obtain ⟨n, hn, hnil⟩ := exists_rawget_eq_nil h
      have := List.find?_eq_none.1 hf n (List.mem_range.2 (Nat.lt_succ_of_le hn))
      exact absurd (decide_eq_true hnil) this
  | some n =>
      obtain ⟨hp, hm, hlt⟩ := List.find?_range_eq_some.1 hf
      refine ⟨Nat.le_of_lt_succ (List.mem_range.1 hm), of_decide_eq_true hp, fun j hj ↦ ?_⟩
      simpa using hlt j hj

/-- **The operator may return the least border.** -/
theorem measures_firstBorder : Measures firstBorder := by
  intro es h
  obtain ⟨hle, hnil, hlt⟩ := firstBorder_spec h
  refine ⟨⟨fun h0 ↦ ?_, hnil⟩, by omega⟩
  have hprev := hlt (firstBorder es - 1) (by omega)
  rwa [Nat.sub_add_cancel (by omega)] at hprev

end

end Leda.Lua
