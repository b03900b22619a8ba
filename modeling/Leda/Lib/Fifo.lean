import Mathlib.Data.List.Basic

/-!
# Bounded FIFO queues

The abstract queue: its contents in order, and a capacity that is unbounded when
negative.  Implementations disagree on one point only, namely when a queue
*above* its capacity (which can be lowered while elements are queued) is full, so
the fullness test is a parameter of the queue.  `FullTest` carries what every
such test agrees on: an unbounded queue is never full, a queue below its capacity
is not full, and a queue at its capacity is.
-/

universe u

namespace Leda.Lib

/-- A test telling whether a queue of a given capacity and length takes no more
elements. -/
structure FullTest where
  /-- `test capacity length` -/
  test : Int → Nat → Bool
  /-- A negative capacity means that the queue is unbounded. -/
  unbounded : ∀ c n, c < 0 → test c n = false
  /-- There is room below the capacity. -/
  below : ∀ (c : Int) (n : Nat), (n : Int) < c → test c n = false
  /-- There is no room at the capacity. -/
  at_capacity : ∀ (c : Int) (n : Nat), 0 ≤ c → (n : Int) = c → test c n = true

namespace FullTest

/-- Full means: exactly at the capacity. -/
def exactly : FullTest where
  test c n := decide (0 ≤ c ∧ (n : Int) = c)
  unbounded c n h := by simp only [decide_eq_false_iff_not]; omega
  below c n h := by simp only [decide_eq_false_iff_not]; omega
  at_capacity c n h h' := by simp only [decide_eq_true_eq]; omega

/-- Full means: at the capacity or above it. -/
def atLeast : FullTest where
  test c n := decide (0 ≤ c ∧ c ≤ (n : Int))
  unbounded c n h := by simp only [decide_eq_false_iff_not]; omega
  below c n h := by simp only [decide_eq_false_iff_not]; omega
  at_capacity c n h h' := by simp only [decide_eq_true_eq]; omega

end FullTest

/-- A bounded FIFO queue, oldest element first. -/
structure Fifo (α : Type u) where
  /-- The queued elements, oldest first. -/
  items : List α
  /-- The capacity; negative means unbounded. -/
  capacity : Int
deriving Repr, DecidableEq

namespace Fifo

variable {α : Type u}

/-- An empty queue. -/
def empty (capacity : Int) : Fifo α := ⟨[], capacity⟩

/-- Whether the queue takes no more elements. -/
def full (ft : FullTest) (q : Fifo α) : Bool := ft.test q.capacity q.items.length

/-- Append at the tail, whatever the capacity. -/
def append (q : Fifo α) (a : α) : Fifo α := { q with items := q.items ++ [a] }

/-- Insert unless full. -/
def tryPush (ft : FullTest) (q : Fifo α) (a : α) : Option (Fifo α) :=
  if q.full ft then none else some (q.append a)

/-- Remove the oldest element, if any. -/
def tryPop (q : Fifo α) : Option (α × Fifo α) :=
  match q.items with
  | [] => none
  | a :: as => some (a, { q with items := as })

/-- Change the capacity; the elements stay. -/
def setCapacity (q : Fifo α) (c : Int) : Fifo α := { q with capacity := c }

@[simp] theorem items_empty (c : Int) : (empty c : Fifo α).items = [] := rfl
@[simp] theorem capacity_empty (c : Int) : (empty c : Fifo α).capacity = c := rfl
@[simp] theorem items_append (q : Fifo α) (a : α) : (q.append a).items = q.items ++ [a] := rfl
@[simp] theorem capacity_append (q : Fifo α) (a : α) : (q.append a).capacity = q.capacity := rfl
@[simp] theorem items_setCapacity (q : Fifo α) (c : Int) : (q.setCapacity c).items = q.items := rfl
@[simp] theorem capacity_setCapacity (q : Fifo α) (c : Int) : (q.setCapacity c).capacity = c := rfl

/-- What a successful removal found. -/
theorem tryPop_eq_some {q q' : Fifo α} {a : α} :
    q.tryPop = some (a, q') ↔ q.items = a :: q'.items ∧ q'.capacity = q.capacity := by
  obtain ⟨items, c⟩ := q
  obtain ⟨items', c'⟩ := q'
  cases items with
  | nil => simp [tryPop]
  | cons b bs =>
      simp only [tryPop, Option.some.injEq, Prod.mk.injEq, Fifo.mk.injEq, List.cons.injEq]
      constructor
      · rintro ⟨rfl, rfl, rfl⟩; exact ⟨⟨rfl, rfl⟩, rfl⟩
      · rintro ⟨⟨rfl, rfl⟩, rfl⟩; exact ⟨rfl, rfl, rfl⟩

/-- A removal fails only on an empty queue. -/
@[simp] theorem tryPop_eq_none {q : Fifo α} : q.tryPop = none ↔ q.items = [] := by
  obtain ⟨items, c⟩ := q
  cases items <;> simp [tryPop]

/-- A successful insertion appends. -/
theorem tryPush_eq_some {ft : FullTest} {q q' : Fifo α} {a : α} :
    q.tryPush ft a = some q' ↔ q.full ft = false ∧ q' = q.append a := by
  unfold tryPush
  by_cases h : q.full ft = true
  · simp [h]
  · simp only [h, Bool.false_eq_true, if_false, Option.some.injEq]
    constructor
    · rintro rfl; exact ⟨trivial, rfl⟩
    · rintro ⟨-, rfl⟩; rfl

/-- An insertion fails only on a full queue. -/
theorem tryPush_eq_none {ft : FullTest} {q : Fifo α} {a : α} :
    q.tryPush ft a = none ↔ q.full ft = true := by
  unfold tryPush
  by_cases h : q.full ft = true <;> simp [h]

/-- There is room in an unbounded queue. -/
theorem full_of_neg {ft : FullTest} {q : Fifo α} (h : q.capacity < 0) : q.full ft = false :=
  ft.unbounded _ _ h

/-- There is room below the capacity. -/
theorem full_of_lt {ft : FullTest} {q : Fifo α} (h : (q.items.length : Int) < q.capacity) :
    q.full ft = false := ft.below _ _ h

end Fifo

end Leda.Lib
