import Leda.Lib.Run

/-!
# Forward simulation

Two systems, each with its own states and labels, and a relation between their states.  When
every step of the first is matched by some run of the second — one step, several, or none —
every run of the first is.  What holds in all reachable states of the second then holds,
through the relation, in all reachable states of the first.

`Matched` is the condition on one step, with a condition `C` on the steps that have to be
matched, and `Run.simulate` the rule for runs.  Where the systems have the same labels and go
step by step, `Run.lockstep` also says that the labels are the same.
-/

universe u v u' v'

namespace Leda.Lib

variable {S : Type u} {L : Type v} {S' : Type u'} {L' : Type v'} {step : S → L → Option S}
  {step' : S' → L' → Option S'} {R : S → S' → Prop} {C : S → L → Prop}

/-- Every step that meets `C`, from a state related to `x`, is matched by a run from `x`. -/
def Matched (step : S → L → Option S) (step' : S' → L' → Option S') (R : S → S' → Prop)
    (C : S → L → Prop) : Prop :=
  ∀ s l s' x, R s x → C s l → step s l = some s' → ∃ tr x', Run step' x tr x' ∧ R s' x'

/-- **The simulation rule.** -/
theorem Run.simulate {s₀ s : S} {x₀ : S'} {tr : List (S × L)} (hm : Matched step step' R C)
    (h₀ : R s₀ x₀) (h : Run step s₀ tr s) (hC : ∀ p ∈ tr, C p.1 p.2) :
    ∃ tr' x, Run step' x₀ tr' x ∧ R s x := by
  induction h with
  | nil => exact ⟨[], x₀, .nil, h₀⟩
  | @snoc tr s s' l _ hs ih =>
      obtain ⟨tr₁, x, hx, hR⟩ := ih fun p hp ↦ hC p (List.mem_append_left _ hp)
      obtain ⟨tr₂, x', hx', hR'⟩ := hm s l s' x hR (hC (s, l) (by simp)) hs
      exact ⟨tr₁ ++ tr₂, x', hx.append hx', hR'⟩

/-- Two systems with the same labels, each step of the one matched by the same step of the
other. -/
theorem Run.lockstep {step' : S' → L → Option S'} {s₀ s : S} {x₀ : S'} {tr : List (S × L)}
    (hm : ∀ s l s' x, R s x → step s l = some s' → ∃ x', step' x l = some x' ∧ R s' x')
    (h₀ : R s₀ x₀) (h : Run step s₀ tr s) :
    ∃ tr' x, Run step' x₀ tr' x ∧ tr'.map Prod.snd = tr.map Prod.snd ∧ R s x := by
  induction h with
  | nil => exact ⟨[], x₀, .nil, rfl, h₀⟩
  | @snoc tr s s' l _ hs ih =>
      obtain ⟨tr', x, hx, hl, hR⟩ := ih
      obtain ⟨x', hx', hR'⟩ := hm s l s' x hR hs
      exact ⟨tr' ++ [(x, l)], x', hx.snoc hx', by simp [hl], hR'⟩

end Leda.Lib
