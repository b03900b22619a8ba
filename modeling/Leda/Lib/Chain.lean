import Mathlib.Data.List.Basic
import Mathlib.Logic.Function.Basic
import Mathlib.Data.List.Nodup

/-!
# Singly linked lists in memory

`Chain mem a as` says that following the `next` pointers of the memory `mem` from
the address `a` visits exactly the addresses `as` and ends at the null pointer,
which is `0`.  A chain is determined by its memory and its start
(`Chain.unique`), never visits an address twice (`Chain.nodup`), does not notice
changes elsewhere (`Chain.congr`), and grows by one cell when the `next` pointer of
its last cell is redirected (`Chain.append_cell`).
-/

universe u

namespace Leda.Lib

variable {α : Type u}

/-- A list cell: a value and the address of the next cell. -/
structure Cell (α : Type u) where
  /-- The value. -/
  val : α
  /-- The address of the next cell, `0` for none. -/
  next : Nat
deriving Repr

/-- The addresses visited from a start address, up to the null pointer. -/
inductive Chain (mem : Nat → Cell α) : Nat → List Nat → Prop
  | /-- The null pointer starts the empty chain. -/
    nil : Chain mem 0 []
  | /-- A cell followed by the chain of its `next` pointer. -/
    cons {a : Nat} {as : List Nat} : a ≠ 0 → Chain mem (mem a).next as → Chain mem a (a :: as)

namespace Chain

variable {mem mem' : Nat → Cell α} {a b : Nat} {as bs : List Nat}

/-- The values along a list of addresses. -/
def vals (mem : Nat → Cell α) (as : List Nat) : List α := as.map fun a ↦ (mem a).val

@[simp] theorem vals_nil : vals mem [] = [] := rfl
@[simp] theorem vals_cons : vals mem (a :: as) = (mem a).val :: vals mem as := rfl

/-- Nothing is reachable from the null pointer, and only from it. -/
theorem eq_nil_iff (h : Chain mem a as) : as = [] ↔ a = 0 := by
  cases h with
  | nil => simp
  | cons hne _ => simp [hne]

/-- A chain is determined by its start. -/
theorem unique (h : Chain mem a as) (h' : Chain mem a bs) : as = bs := by
  induction h generalizing bs with
  | nil => exact ((h'.eq_nil_iff).2 rfl).symm
  | cons hne _ ih =>
      cases h' with
      | nil => exact absurd rfl hne
      | cons _ h' => rw [ih h']

/-- The rest of a chain from a visited address is a chain. -/
theorem suffix_of_mem (h : Chain mem a as) (hb : b ∈ as) :
    ∃ pre suf, as = pre ++ b :: suf ∧ Chain mem b (b :: suf) := by
  induction h with
  | nil => simp at hb
  | @cons a as hne hc ih =>
      rcases List.mem_cons.1 hb with rfl | hb
      · exact ⟨[], as, rfl, .cons hne hc⟩
      · obtain ⟨pre, suf, rfl, hs⟩ := ih hb
        exact ⟨a :: pre, suf, rfl, hs⟩

/-- No address is visited twice: a return would make the chain infinite. -/
theorem nodup (h : Chain mem a as) : as.Nodup := by
  induction h with
  | nil => exact List.nodup_nil
  | @cons a as hne hc ih =>
      refine List.nodup_cons.2 ⟨fun hmem ↦ ?_, ih⟩
      obtain ⟨pre, suf, rfl, hs⟩ := hc.suffix_of_mem hmem
      have heq := congrArg List.length ((Chain.cons hne hc).unique hs)
      simp only [List.length_cons, List.length_append] at heq
      omega

/-- A chain sees only the cells it visits. -/
theorem congr (h : Chain mem a as) (heq : ∀ b ∈ as, mem' b = mem b) : Chain mem' a as := by
  induction h with
  | nil => exact .nil
  | @cons a as hne _ ih =>
      refine .cons hne ?_
      rw [heq a List.mem_cons_self]
      exact ih fun b hb ↦ heq b (List.mem_cons_of_mem _ hb)

/-- The chain of one fresh cell. -/
theorem singleton (hne : a ≠ 0) (hnext : (mem a).next = 0) : Chain mem a [a] :=
  .cons hne (hnext ▸ .nil)

/-- Writing a new cell `el` and redirecting the last cell of a chain to it appends
`el` to the chain. -/
theorem append_cell {el : Nat} {v : α} (h : Chain mem a as) (hlast : as.getLast? = some b)
    (hel : el ∉ as) (hne : el ≠ 0) :
    Chain (Function.update (Function.update mem el ⟨v, 0⟩) b ⟨(mem b).val, el⟩) a
      (as ++ [el]) := by
  induction h with
  | nil => simp at hlast
  | @cons a as hne' hc ih =>
      have hnd := (Chain.cons hne' hc).nodup
      have hela : el ≠ a := fun e ↦ hel (by simp [e])
      refine .cons hne' ?_
      cases as with
      | nil =>
          -- the only cell is the one redirected
          simp only [List.getLast?_singleton, Option.some.injEq] at hlast
          subst hlast
          rw [Function.update_self]
          refine singleton hne ?_
          rw [Function.update_of_ne hela, Function.update_self]
      | cons c cs =>
          have hlast' : (c :: cs).getLast? = some b := by simpa using hlast
          have hab : a ≠ b := fun e ↦
            (List.nodup_cons.1 hnd).1 (e ▸ List.mem_of_getLast? hlast')
          rw [Function.update_of_ne hab, Function.update_of_ne (Ne.symm hela)]
          exact ih hlast' fun hm ↦ hel (List.mem_cons_of_mem _ hm)

/-- The appended chain carries the appended value. -/
theorem vals_append_cell {el : Nat} {v : α} (hlast : as.getLast? = some b) (hel : el ∉ as) :
    vals (Function.update (Function.update mem el ⟨v, 0⟩) b ⟨(mem b).val, el⟩) (as ++ [el]) =
      vals mem as ++ [v] := by
  have hb : b ∈ as := List.mem_of_getLast? hlast
  have helb : el ≠ b := fun e ↦ hel (e ▸ hb)
  have hold : ∀ c ∈ as,
      (Function.update (Function.update mem el ⟨v, 0⟩) b ⟨(mem b).val, el⟩ c).val =
        (mem c).val := by
    intro c hc
    by_cases hcb : c = b
    · subst hcb; rw [Function.update_self]
    · have hce : c ≠ el := fun e ↦ hel (e ▸ hc)
      rw [Function.update_of_ne hcb, Function.update_of_ne hce]
  rw [vals, List.map_append, List.map_congr_left hold, List.map_singleton,
    Function.update_of_ne helb, Function.update_self]
  rfl

end Chain

end Leda.Lib
