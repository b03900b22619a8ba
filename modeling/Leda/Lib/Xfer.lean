import Mathlib.Data.List.Basic

/-!
# Computations that raise or crash

`Xfer α` is how a computation in an embedded interpreter ends: with a value, with an
error that the interpreter's own protected calls catch, or with the process; one that
does not end is counted among the last.  `bind` runs the next computation only after a
value.
-/

universe u

namespace Leda.Lib

/-- How a computation ends. -/
inductive Xfer (α : Type u)
  | ok (a : α)
  | /-- An error of the interpreter. -/
    raised (msg : String)
  | /-- The process ends, or the computation never does: a stack is exhausted, an error was
    raised where nothing catches it, or it runs for ever. -/
    crash
deriving Repr, DecidableEq

namespace Xfer

variable {α β : Type u}

/-- Run the next computation on the value of this one. -/
def bind (x : Xfer α) (f : α → Xfer β) : Xfer β :=
  match x with
  | .ok a => f a
  | .raised m => .raised m
  | .crash => .crash

instance : Monad Xfer where
  pure := .ok
  bind := .bind

@[simp] theorem ok_bind {a : α} {f : α → Xfer β} : (.ok a : Xfer α) >>= f = f a := rfl

theorem bind_assoc {γ : Type u} {x : Xfer α} {f : α → Xfer β} {g : β → Xfer γ} :
    x >>= f >>= g = x >>= fun a ↦ f a >>= g := by
  cases x <;> rfl

theorem bind_eq_ok {x : Xfer α} {f : α → Xfer β} {b : β} :
    x >>= f = .ok b ↔ ∃ a, x = .ok a ∧ f a = .ok b := by
  cases x with
  | ok a =>
      constructor
      · exact fun h ↦ ⟨a, rfl, h⟩
      · rintro ⟨_, ⟨⟩, h⟩
        exact h
  | raised m | crash =>
      constructor
      · intro h
        cases h
      · rintro ⟨_, h, _⟩
        cases h

theorem bind_eq_crash {x : Xfer α} {f : α → Xfer β} :
    x >>= f = .crash ↔ x = .crash ∨ ∃ a, x = .ok a ∧ f a = .crash := by
  cases x with
  | ok a =>
      constructor
      · exact fun h ↦ .inr ⟨a, rfl, h⟩
      · rintro (h | ⟨_, ⟨⟩, h⟩)
        · cases h
        · exact h
  | raised m =>
      constructor
      · intro h
        cases h
      · rintro (h | ⟨_, h, _⟩) <;> cases h
  | crash => exact ⟨fun _ ↦ .inl rfl, fun _ ↦ rfl⟩

theorem bind_eq_raised {x : Xfer α} {f : α → Xfer β} {m : String} :
    x >>= f = .raised m ↔ x = .raised m ∨ ∃ a, x = .ok a ∧ f a = .raised m := by
  cases x with
  | ok a =>
      constructor
      · exact fun h ↦ .inr ⟨a, rfl, h⟩
      · rintro (h | ⟨_, ⟨⟩, h⟩)
        · cases h
        · exact h
  | raised m' =>
      constructor
      · intro h
        cases h
        exact .inl rfl
      · rintro (h | ⟨_, h, _⟩)
        · cases h
          rfl
        · cases h
  | crash =>
      constructor
      · intro h
        cases h
      · rintro (h | ⟨_, h, _⟩) <;> cases h

end Xfer

end Leda.Lib
