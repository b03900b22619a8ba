import Mathlib.Data.List.Basic

/-!
# Runs of a step function

A system is given by a step function `step : S → L → Option S`: the label `l`
names who moves and every choice the environment makes, and `none` means that
the step is not enabled.  `Run step s₀ tr s` is a finite run from `s₀` to `s`;
its trace `tr` records each step as the pair of the state *before* the step and
its label, oldest first, so that a condition on steps is a condition on `tr`.

Two rules carry every whole-run result of the development.

* `Run.invariant` is the usual induction, with a condition `C` on the steps:
  an invariant that is preserved by every step meeting `C` holds at the end of
  every run all of whose steps meet `C`.
* `Run.forall_visited_iff` is for a property that holds *exactly* as long as
  `C` does: if moreover every step that violates `C` lands in a state without
  the property, then a run has the property throughout iff all its steps meet
  `C`.
-/

universe u v

namespace Leda.Lib

variable {S : Type u} {L : Type v}

/-- Finite runs from `s₀`, with the state before each step and its label. -/
inductive Run (step : S → L → Option S) (s₀ : S) : List (S × L) → S → Prop
  | /-- The run that has not moved yet. -/
    nil : Run step s₀ [] s₀
  | /-- One more step at the end. -/
    snoc {tr : List (S × L)} {s s' : S} {l : L} :
      Run step s₀ tr s → step s l = some s' → Run step s₀ (tr ++ [(s, l)]) s'

/-- The states a run passes through, the last one included. -/
def visited (tr : List (S × L)) (s : S) : List S := tr.map Prod.fst ++ [s]

/-- Execute a list of labels. -/
def exec (step : S → L → Option S) (s : S) : List L → Option S
  | [] => some s
  | l :: ls => (step s l).bind fun s' ↦ exec step s' ls

/-- The trace left by executing a list of labels. -/
def execTrace (step : S → L → Option S) (s : S) : List L → List (S × L)
  | [] => []
  | l :: ls => (s, l) :: ((step s l).map fun s' ↦ execTrace step s' ls).getD []

namespace Run

variable {step : S → L → Option S} {s₀ s : S} {tr : List (S × L)}

/-- Runs compose. -/
theorem append {t : S} {tr' : List (S × L)} (h : Run step s₀ tr s) (h' : Run step s tr' t) :
    Run step s₀ (tr ++ tr') t := by
  induction h' with
  | nil => simpa using h
  | snoc _ hs ih => rw [← List.append_assoc]; exact ih.snoc hs

/-- One step is a run. -/
theorem single {l : L} {s' : S} (h : step s l = some s') : Run step s [(s, l)] s' :=
  Run.nil.snoc h

/-- Executing labels produces a run with the computed trace. -/
theorem of_exec : ∀ {s s' : S} {ls : List L}, exec step s ls = some s' →
    Run step s (execTrace step s ls) s'
  | s, s', [], h => by
      simp only [exec, Option.some.injEq] at h
      subst h
      exact .nil
  | s, s', l :: ls, h => by
      obtain ⟨t, ht, hrest⟩ := Option.bind_eq_some_iff.1 h
      have htr : execTrace step s (l :: ls) = [(s, l)] ++ execTrace step t ls := by
        simp [execTrace, ht]
      rw [htr]
      exact (single ht).append (of_exec hrest)

/-- The trace of an execution has only the labels that were executed. -/
theorem mem_of_mem_execTrace : ∀ {s : S} {ls : List L} {p : S × L},
    p ∈ execTrace step s ls → p.2 ∈ ls
  | _, [], _, hp => absurd hp List.not_mem_nil
  | s, l :: ls, p, hp => by
      rcases List.mem_cons.1 hp with rfl | hp
      · exact List.mem_cons_self
      · cases hs : step s l with
        | none => simp [hs] at hp
        | some t =>
            rw [hs] at hp
            exact List.mem_cons_of_mem _ (mem_of_mem_execTrace hp)

/-- **The invariant rule.**  What every step meeting `C` preserves holds at the
end of every run whose steps all meet `C`. -/
theorem invariant {I : S → Prop} {C : S → L → Prop} (h₀ : I s₀)
    (hstep : ∀ s l s', I s → C s l → step s l = some s' → I s')
    (h : Run step s₀ tr s) (hC : ∀ p ∈ tr, C p.1 p.2) : I s := by
  induction h with
  | nil => exact h₀
  | @snoc tr s s' l _ hs ih =>
      refine hstep s l s' (ih fun p hp ↦ hC p (List.mem_append_left _ hp)) ?_ hs
      exact hC (s, l) (by simp)

/-- The invariant rule for an unconditional invariant. -/
theorem invariant' {I : S → Prop} (h₀ : I s₀)
    (hstep : ∀ s l s', I s → step s l = some s' → I s') (h : Run step s₀ tr s) : I s :=
  h.invariant (C := fun _ _ ↦ True) h₀ (fun s l s' hI _ ↦ hstep s l s' hI) fun _ _ ↦ trivial

/-- The state before any recorded step is itself reached by a run, whose trace
is the part of the trace before that step. -/
theorem prefix_of_mem {p : S × L} (h : Run step s₀ tr s) (hp : p ∈ tr) :
    ∃ tr₁ tr₂ s', tr = tr₁ ++ p :: tr₂ ∧ Run step s₀ tr₁ p.1 ∧ step p.1 p.2 = some s' := by
  induction h with
  | nil => simp at hp
  | @snoc tr s s' l hr hs ih =>
      rcases List.mem_append.1 hp with hp | hp
      · obtain ⟨tr₁, tr₂, t, rfl, hr₁, ht⟩ := ih hp
        exact ⟨tr₁, tr₂ ++ [(s, l)], t, by simp, hr₁, ht⟩
      · rw [List.mem_singleton] at hp
        subst hp
        exact ⟨tr, [], s', rfl, hr, hs⟩

/-- An invariant of runs meeting `C` holds in every state such a run visits. -/
theorem invariant_visited {I : S → Prop} {C : S → L → Prop} (h₀ : I s₀)
    (hstep : ∀ s l s', I s → C s l → step s l = some s' → I s')
    (h : Run step s₀ tr s) (hC : ∀ p ∈ tr, C p.1 p.2) : ∀ x ∈ visited tr s, I x := by
  intro x hx
  rcases List.mem_append.1 hx with hx | hx
  · obtain ⟨p, hp, rfl⟩ := List.mem_map.1 hx
    obtain ⟨tr₁, tr₂, t, rfl, hr, -⟩ := h.prefix_of_mem hp
    exact hr.invariant h₀ hstep fun q hq ↦ hC q (List.mem_append_left _ hq)
  · rw [List.mem_singleton] at hx
    subst hx
    exact h.invariant h₀ hstep hC

/-- **The exactness rule.**  `I` is what the steps meeting `C` preserve, `P` is
what it guarantees, and a step that violates `C` destroys `P` at once: then a
run keeps `P` in every state it visits iff all its steps meet `C`. -/
theorem forall_visited_iff {I P : S → Prop} {C : S → L → Prop} (h₀ : I s₀)
    (hstep : ∀ s l s', I s → C s l → step s l = some s' → I s')
    (hP : ∀ s, I s → P s)
    (hbreak : ∀ s l s', I s → ¬ C s l → step s l = some s' → ¬ P s')
    (h : Run step s₀ tr s) :
    (∀ x ∈ visited tr s, P x) ↔ ∀ p ∈ tr, C p.1 p.2 := by
  constructor
  · intro hv
    induction h with
    | nil => simp
    | @snoc tr s s' l hr hs ih =>
        have hC : ∀ p ∈ tr, C p.1 p.2 := ih fun x hx ↦ hv x <| by
          rcases List.mem_append.1 hx with hx | hx
          · simp only [visited, List.map_append, List.mem_append]; exact .inl (.inl hx)
          · rw [List.mem_singleton] at hx; subst hx; simp [visited]
        intro p hp
        rcases List.mem_append.1 hp with hp | hp
        · exact hC p hp
        · rw [List.mem_singleton] at hp
          subst hp
          -- the last step is the first that could violate `C`
          by_contra hn
          exact hbreak s l s' (hr.invariant h₀ hstep hC) hn hs (hv s' (by simp [visited]))
  · exact fun hC x hx ↦ hP x (h.invariant_visited h₀ hstep hC x hx)

end Run

end Leda.Lib
