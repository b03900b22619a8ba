import Mathlib.Tactic.Common

/-!
# Chains of checks

A function that validates its input runs through checks that return nothing or an
error.  The lemmas say when such a chain returns: a sequence does iff both parts do
(`bind_eq_ok`, `seq_eq_ok`), and a loop does iff every round does (`forM_eq_ok`).
-/

universe u v

namespace Leda.Lib

variable {ε : Type u} {α : Type v} {β : Type v}

theorem bind_eq_ok {x : Except ε α} {f : α → Except ε β} {b : β} :
    x >>= f = .ok b ↔ ∃ a, x = .ok a ∧ f a = .ok b := by
  cases x with
  | error e => simp [bind, Except.bind]
  | ok a => simp [bind, Except.bind]

/-- A check in front of a computation. -/
theorem seq_eq_ok {x : Except ε PUnit} {y : Except ε β} {b : β} :
    (do x; y) = .ok b ↔ x = .ok ⟨⟩ ∧ y = .ok b := by
  rw [bind_eq_ok]
  constructor
  · rintro ⟨⟨⟩, h⟩
    exact h
  · intro h
    exact ⟨⟨⟩, h⟩

/-- A loop of checks returns iff every check does. -/
theorem forM_eq_ok {f : β → Except ε PUnit} {l : List β} :
    l.forM f = .ok ⟨⟩ ↔ ∀ x ∈ l, f x = .ok ⟨⟩ := by
  induction l with
  | nil => simp [pure, Except.pure]
  | cons x l ih =>
      rw [List.forall_mem_cons, ← ih]
      exact seq_eq_ok

end Leda.Lib
