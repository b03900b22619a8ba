import Leda.Lib.Run

/-!
# Potentials

Some steps of a system are its own work, the others are what its environment gives it to do.
A potential that every step of work lowers, and every other step raises by at most `c`, bounds
the work by what was given (`Run.work_le`).  So a system that is given nothing more comes to a
state in which no work is possible (`Run.exists_rest`).
-/

universe u v

namespace Leda.Lib

variable {S : Type u} {L : Type v}

/-- No step of work is possible. -/
def AtRest (step : S → L → Option S) (work : L → Bool) (s : S) : Prop :=
  ∀ l, work l = true → step s l = none

namespace Run

variable {step : S → L → Option S} {s₀ s : S} {tr : List (S × L)} {Φ : S → Nat} {work : L → Bool}
  {c : Nat}

/-- **The potential rule.** -/
theorem work_le {C : S → L → Prop}
    (hwork : ∀ s l s', C s l → work l = true → step s l = some s' → Φ s' + 1 ≤ Φ s)
    (hother : ∀ s l s', C s l → work l = false → step s l = some s' → Φ s' ≤ Φ s + c)
    (h : Run step s₀ tr s) (hC : ∀ p ∈ tr, C p.1 p.2) :
    tr.countP (fun p ↦ work p.2) + Φ s ≤ Φ s₀ + c * tr.countP fun p ↦ !work p.2 := by
  induction h with
  | nil => simp
  | @snoc tr s s' l _ hs ih =>
      have ih := ih fun p hp ↦ hC p (List.mem_append_left _ hp)
      have hCl : C s l := hC (s, l) (List.mem_append_right _ (List.mem_singleton.2 rfl))
      simp only [List.countP_append, List.countP_singleton]
      cases hl : work l with
      | true =>
          have := hwork s l s' hCl hl hs
          simp only [Bool.not_true, Bool.false_eq_true, if_true, if_false, Nat.add_zero]
          omega
      | false =>
          have := hother s l s' hCl hl hs
          simp only [Bool.not_false, Bool.false_eq_true, if_true, if_false, Nat.add_zero,
            Nat.mul_add]
          omega

/-- **Work that is bounded ends**: it leads to a state at rest. -/
theorem exists_rest {N : Nat}
    (hN : ∀ tr t, Run step s tr t → (∀ p ∈ tr, work p.2 = true) → tr.length ≤ N) :
    ∃ tr t, Run step s tr t ∧ (∀ p ∈ tr, work p.2 = true) ∧ AtRest step work t := by
  -- a run of work that is not at rest goes on, by one step less that is left
  have hgo : ∀ m tr t, Run step s tr t → (∀ p ∈ tr, work p.2 = true) → N ≤ tr.length + m →
      ∃ tr t, Run step s tr t ∧ (∀ p ∈ tr, work p.2 = true) ∧ AtRest step work t := by
    intro m
    induction m with
    | zero =>
        intro tr t h hw hm
        refine ⟨tr, t, h, hw, fun l hl ↦ ?_⟩
        by_contra hne
        obtain ⟨t', ht'⟩ := Option.ne_none_iff_exists'.1 hne
        have hle := hN _ _ (h.snoc ht') (List.forall_mem_append.2 ⟨hw, by simpa using hl⟩)
        rw [List.length_append, List.length_singleton] at hle
        omega
    | succ m ih =>
        intro tr t h hw hm
        by_cases hrest : AtRest step work t
        · exact ⟨tr, t, h, hw, hrest⟩
        · simp only [AtRest, not_forall] at hrest
          obtain ⟨l, hl, hne⟩ := hrest
          obtain ⟨t', ht'⟩ := Option.ne_none_iff_exists'.1 hne
          refine ih _ _ (h.snoc ht') (List.forall_mem_append.2 ⟨hw, by simpa using hl⟩) ?_
          rw [List.length_append, List.length_singleton]
          omega
  exact hgo N [] s .nil (by simp) (Nat.le_add_left _ _)

end Run

end Leda.Lib
