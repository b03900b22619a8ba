import Mathlib.Data.List.Basic

/-!
# Computations that keep a log

A `Logged W α` is a value together with the list of what was done on the way to it.  It is
the writer monad on lists, written so that values and entries may live in different
universes.  A property of all entries is established piece by piece (`all_bind`), and
what a computation returns does not depend on the log (`val_bind`): a function that was
written a second time with a log is compared with the first by `simp`.
-/

universe u v

namespace Leda.Lib

/-- A value and a log. -/
@[ext]
structure Logged (W : Type u) (α : Type v) where
  /-- What the computation returns. -/
  val : α
  /-- What it has done, in this order. -/
  log : List W

namespace Logged

variable {W : Type u} {α β : Type v}

instance : Monad (Logged W) where
  pure a := ⟨a, []⟩
  bind x f := ⟨(f x.val).val, x.log ++ (f x.val).log⟩

/-- Log one entry. -/
def tell (w : W) : Logged W PUnit.{v + 1} := ⟨⟨⟩, [w]⟩

@[simp] theorem val_pure (a : α) : (pure a : Logged W α).val = a := rfl

@[simp] theorem log_pure (a : α) : (pure a : Logged W α).log = [] := rfl

@[simp] theorem val_bind (x : Logged W α) (f : α → Logged W β) :
    (x >>= f).val = (f x.val).val := rfl

@[simp] theorem log_bind (x : Logged W α) (f : α → Logged W β) :
    (x >>= f).log = x.log ++ (f x.val).log := rfl

@[simp] theorem log_tell (w : W) : (tell w : Logged W PUnit.{v + 1}).log = [w] := rfl

/-- Every entry of the log has the property. -/
def All (p : W → Prop) (x : Logged W α) : Prop := ∀ w ∈ x.log, p w

variable {p : W → Prop}

theorem all_pure (a : α) : (pure a : Logged W α).All p := fun w hw ↦ by cases hw

theorem all_tell {w : W} : (tell w : Logged W PUnit.{v + 1}).All p ↔ p w := by
  simp [All]

/-- The entries of a sequence are those of its parts. -/
theorem all_bind {x : Logged W α} {f : α → Logged W β} :
    (x >>= f).All p ↔ x.All p ∧ (f x.val).All p := by
  simp only [All, log_bind, List.mem_append]
  constructor
  · exact fun h ↦ ⟨fun w hw ↦ h w (.inl hw), fun w hw ↦ h w (.inr hw)⟩
  · rintro ⟨h, h'⟩ w (hw | hw)
    · exact h w hw
    · exact h' w hw

end Logged

end Leda.Lib
