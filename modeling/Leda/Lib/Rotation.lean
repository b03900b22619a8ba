import Mathlib.Data.List.Rotate

/-!
# Taking turns

A list in which the elements of another one follow each other in turn, from its first one on
and around.  Wherever one looks at it, as many consecutive elements as there are to take turns
are all of these.
-/

universe u

namespace Leda.Lib

open List

variable {α : Type u} {out l : List α} {a : α}

/-- The elements of `out` in turn. -/
def InTurn (out l : List α) : Prop := ∀ k < l.length, l[k]? = out[k % out.length]?

namespace InTurn

theorem nil : InTurn out [] := fun _ hk ↦ absurd hk (Nat.not_lt_zero _)

/-- The next one. -/
theorem snoc (h : InTurn out l) (ha : out[l.length % out.length]? = some a) :
    InTurn out (l ++ [a]) := by
  intro k hk
  rw [length_append, length_singleton] at hk
  rcases Nat.lt_or_eq_of_le (Nat.le_of_lt_succ hk) with hk | rfl
  · rw [getElem?_append_left hk]
    exact h k hk
  · rw [getElem?_append_right (Nat.le_refl _), Nat.sub_self, ha]
    rfl

/-- **One round**, from wherever it starts. -/
theorem round (h : InTurn out l) {i : Nat} (hi : i + out.length ≤ l.length) :
    (l.drop i).take out.length ~ out := by
  have hrot : (l.drop i).take out.length = out.rotate i := by
    apply ext_getElem?
    intro k
    by_cases hk : k < out.length
    · rw [getElem?_take_of_lt hk, getElem?_drop, getElem?_rotate hk, h _ (by omega), Nat.add_comm]
    · rw [getElem?_eq_none (by simp; omega), getElem?_eq_none (by simp; omega)]
  rw [hrot]
  exact rotate_perm out i

end InTurn

end Leda.Lib
