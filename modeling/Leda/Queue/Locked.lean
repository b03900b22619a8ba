import Leda.Lib.Run
import Leda.Lib.Chain
import Mathlib.Data.Finset.Basic

/-!
# The locked queue

`queue.c`: a linked list guarded by one mutex and two condition variables, used
for every queue of the kernel when TBB is disabled.  The critical sections are
atomic here, so every state of the model is one in which the lock is free; a
thread inside `queue_push` or `queue_pop` that found the queue full or empty sits
in the waiting list of the condition variable it called `SIGNAL_WAIT` on, and
re-enters its critical section at some later time after it was woken.  A
`SIGNAL_ONE` is a step of its own, since the code issues it after the unlock.

The list is modelled in memory: `malloc` may return any address that is neither
null nor allocated, `free` gives the address back, and the memory keeps what was
last written to it, freed or not.  That matters because `tail` is not reset when
the list runs empty and then points to freed memory.

`size` counts pops that have *started*: `queue_pop` decrements it before it looks
at the list.  The two insertions test for emptiness differently,
`q->tail==NULL` in `queue_push` and `q->size<=0` in `queue_try_push`.

`inserted` and `removed` are history variables: the values in the order of their
insertions and removals.
-/

universe u v

namespace Leda.Queue

open Leda.Lib

/-- The queue record `struct LFQueue` without its lock and condition variables.
`0` is the null pointer. -/
structure LFQueue where
  head : Nat
  tail : Nat
  size : Int
  capacity : Int
deriving Repr, DecidableEq

/-- The two condition variables. -/
inductive Signal
  | fullQueue
  | emptyQueue
deriving Repr, DecidableEq

/-- A thread inside `SIGNAL_WAIT`. -/
structure Waiter (T : Type u) where
  thread : T
  /-- A wake-up is on its way. -/
  woken : Bool
deriving Repr, DecidableEq

/-- One queue, its memory, and the threads working on it. -/
structure State (T : Type u) (α : Type v) where
  q : LFQueue
  mem : Nat → Cell α
  allocated : Finset Nat
  /-- Threads blocked in `queue_push`, with the value they carry. -/
  fullQueue : List (Waiter T × α)
  /-- Threads blocked in `queue_pop`. -/
  emptyQueue : List (Waiter T)
  /-- Threads that have unlocked and are about to call `SIGNAL_ONE`. -/
  signals : List (T × Signal)
  inserted : List α
  removed : List α
  /-- `q->head` was dereferenced while it was `NULL`. -/
  nullDeref : Bool

/-- What a thread does next, and what its environment answers. -/
inductive Label (T : Type u) (α : Type v)
  | /-- Enter `queue_push`; `el` is what `malloc` returns if it comes to that. -/
    push (t : T) (v : α) (el : Nat)
  | /-- Come back from `SIGNAL_WAIT(&q->full_queue)`. -/
    resumePush (t : T) (el : Nat)
  | /-- Run `queue_try_push`. -/
    tryPush (t : T) (v : α) (el : Nat)
  | /-- Enter `queue_pop`. -/
    pop (t : T)
  | /-- Come back from `SIGNAL_WAIT(&q->empty_queue)`. -/
    resumePop (t : T)
  | /-- Run `queue_try_pop`. -/
    tryPop (t : T)
  | /-- Call `SIGNAL_ONE`, which wakes `w` if anybody. -/
    signalOne (t : T) (w : Option T)
  | /-- A wake-up nobody asked for. -/
    spurious (t : T)
deriving Repr, DecidableEq

variable {T : Type u} {α : Type v} [DecidableEq T]

namespace State

/-- `queue_new`, then `queue_set_capacity`. -/
def queueNew [Inhabited α] (capacity : Int) : State T α where
  q := ⟨0, 0, 0, capacity⟩
  mem := fun _ ↦ ⟨default, 0⟩
  allocated := ∅
  fullQueue := []
  emptyQueue := []
  signals := []
  inserted := []
  removed := []
  nullDeref := false

/-- The thread is in no queue function. -/
def idle (σ : State T α) (t : T) : Bool :=
  (σ.fullQueue.all fun w ↦ w.1.thread ≠ t) && (σ.emptyQueue.all fun w ↦ w.thread ≠ t) &&
    σ.signals.all fun w ↦ w.1 ≠ t

/-- The insertion both pushes end with, after their capacity tests: allocate the
element, link it, count it, and signal `empty_queue` if the list was thought to be
empty.  `empty` is the outcome of the function's own emptiness test. -/
def insertElement (σ : State T α) (empty : Bool) (t : T) (v : α) (el : Nat) :
    Option (State T α) :=
  if el = 0 ∨ el ∈ σ.allocated then none
  else
    let mem := Function.update σ.mem el ⟨v, 0⟩
    let σ := { σ with
      allocated := insert el σ.allocated
      inserted := σ.inserted ++ [v] }
    if empty then
      some { σ with
        mem := mem
        q := { σ.q with head := el, tail := el, size := σ.q.size + 1 }
        signals := (t, .emptyQueue) :: σ.signals }
    else
      some { σ with
        mem := Function.update mem σ.q.tail ⟨(mem σ.q.tail).val, el⟩
        q := { σ.q with tail := el, size := σ.q.size + 1 } }

/-- The removal both pops end with: take the value of the head, unlink and free
its element, and signal `full_queue` if the list was full. -/
def removeHead (σ : State T α) (t : T) : State T α :=
  if σ.q.head = 0 then { σ with nullDeref := true }
  else
    { σ with
      q := { σ.q with head := (σ.mem σ.q.head).next }
      allocated := σ.allocated.erase σ.q.head
      removed := σ.removed ++ [(σ.mem σ.q.head).val]
      signals :=
        if 0 < σ.q.capacity ∧ σ.q.size + 1 = σ.q.capacity then
          (t, .fullQueue) :: σ.signals
        else σ.signals }

/-- `queue_push` up to its `malloc`: the value, if the thread does not block. -/
def queuePush (σ : State T α) (t : T) (v : α) (el : Nat) : Option (State T α) :=
  if 0 ≤ σ.q.capacity ∧ σ.q.size = σ.q.capacity then
    some { σ with fullQueue := σ.fullQueue ++ [(⟨t, false⟩, v)] }
  else σ.insertElement (σ.q.tail = 0) t v el

/-- The waiting loop of `queue_push` after a wake-up; it compares with the
capacity only, the sign was tested on entry. -/
def resumePush (σ : State T α) (t : T) (el : Nat) : Option (State T α) :=
  match σ.fullQueue.find? fun w ↦ w.1 = ⟨t, true⟩ with
  | none => none
  | some (w, v) =>
      if σ.q.size = σ.q.capacity then
        some { σ with
          fullQueue := σ.fullQueue.map fun x ↦ if x.1 = w then (⟨t, false⟩, x.2) else x }
      else
        { σ with fullQueue := σ.fullQueue.filter fun x ↦ x.1 ≠ w }.insertElement
          (σ.q.tail = 0) t v el

/-- `queue_try_push`. -/
def queueTryPush (σ : State T α) (t : T) (v : α) (el : Nat) : Option (State T α) :=
  if 0 ≤ σ.q.capacity ∧ σ.q.size = σ.q.capacity then some σ
  else σ.insertElement (σ.q.size ≤ 0) t v el

/-- `queue_pop` up to its first look at the list. -/
def queuePop (σ : State T α) (t : T) : State T α :=
  let σ := { σ with q := { σ.q with size := σ.q.size - 1 } }
  if σ.q.head = 0 then { σ with emptyQueue := σ.emptyQueue ++ [⟨t, false⟩] }
  else σ.removeHead t

/-- The waiting loop of `queue_pop` after a wake-up. -/
def resumePop (σ : State T α) (t : T) : Option (State T α) :=
  if ⟨t, true⟩ ∈ σ.emptyQueue then
    if σ.q.head = 0 then
      some { σ with
        emptyQueue := σ.emptyQueue.map fun w ↦ if w = ⟨t, true⟩ then ⟨t, false⟩ else w }
    else some ({ σ with emptyQueue := σ.emptyQueue.erase ⟨t, true⟩ }.removeHead t)
  else none

/-- `queue_try_pop`. -/
def queueTryPop (σ : State T α) (t : T) : State T α :=
  if σ.q.size ≤ 0 then σ
  else { σ with q := { σ.q with size := σ.q.size - 1 } }.removeHead t

/-- Mark a blocked thread as woken. -/
def wake (σ : State T α) (t : T) : State T α :=
  { σ with
    fullQueue := σ.fullQueue.map fun w ↦ if w.1.thread = t then (⟨t, true⟩, w.2) else w
    emptyQueue := σ.emptyQueue.map fun w ↦ if w.thread = t then ⟨t, true⟩ else w }

/-- The threads a `SIGNAL_ONE` can wake. -/
def sleepers (σ : State T α) : Signal → List T
  | .fullQueue => (σ.fullQueue.filter fun w ↦ !w.1.woken).map fun w ↦ w.1.thread
  | .emptyQueue => (σ.emptyQueue.filter fun w ↦ !w.woken).map fun w ↦ w.thread

/-- `SIGNAL_ONE`: at most one sleeping thread is woken, and one is if there is one. -/
def signalOne (σ : State T α) (t : T) (w : Option T) : Option (State T α) :=
  match σ.signals.find? fun s ↦ s.1 = t with
  | none => none
  | some s =>
      let σ' := { σ with signals := σ.signals.erase s }
      match w with
      | none => if σ.sleepers s.2 = [] then some σ' else none
      | some u => if u ∈ σ.sleepers s.2 then some (σ'.wake u) else none

end State

/-- One step of one thread. -/
def step (σ : State T α) : Label T α → Option (State T α)
  | .push t v el => if σ.idle t then σ.queuePush t v el else none
  | .resumePush t el => σ.resumePush t el
  | .tryPush t v el => if σ.idle t then σ.queueTryPush t v el else none
  | .pop t => if σ.idle t then some (σ.queuePop t) else none
  | .resumePop t => σ.resumePop t
  | .tryPop t => if σ.idle t then some (σ.queueTryPop t) else none
  | .signalOne t w => σ.signalOne t w
  | .spurious t => some (σ.wake t)

/-- **What a step can be.**  A thread inserts, removes, blocks, or finds that it has nothing to
do. -/
inductive StepKind (σ : State T α) : Label T α → State T α → Prop
  | pushWaits {t : T} {v : α} {el : Nat} (hidle : σ.idle t = true)
      (hfull : 0 ≤ σ.q.capacity ∧ σ.q.size = σ.q.capacity) :
      StepKind σ (.push t v el) { σ with fullQueue := σ.fullQueue ++ [(⟨t, false⟩, v)] }
  | push {t : T} {v : α} {el : Nat} {σ' : State T α}
      (hfull : ¬ (0 ≤ σ.q.capacity ∧ σ.q.size = σ.q.capacity))
      (hs : σ.insertElement (σ.q.tail = 0) t v el = some σ') : StepKind σ (.push t v el) σ'
  | pushWaitsAgain {t : T} {el : Nat} {w : Waiter T} {v : α}
      (hfind : (σ.fullQueue.find? fun w ↦ w.1 = ⟨t, true⟩) = some (w, v))
      (hfull : σ.q.size = σ.q.capacity) : StepKind σ (.resumePush t el) { σ with
        fullQueue := σ.fullQueue.map fun x ↦ if x.1 = w then (⟨t, false⟩, x.2) else x }
  | resumePush {t : T} {el : Nat} {w : Waiter T} {v : α} {σ' : State T α}
      (hfind : (σ.fullQueue.find? fun w ↦ w.1 = ⟨t, true⟩) = some (w, v))
      (hfull : σ.q.size ≠ σ.q.capacity)
      (hs : { σ with fullQueue := σ.fullQueue.filter fun x ↦ x.1 ≠ w }.insertElement
        (σ.q.tail = 0) t v el = some σ') : StepKind σ (.resumePush t el) σ'
  | tryPushFails {t : T} {v : α} {el : Nat}
      (hfull : 0 ≤ σ.q.capacity ∧ σ.q.size = σ.q.capacity) : StepKind σ (.tryPush t v el) σ
  | tryPush {t : T} {v : α} {el : Nat} {σ' : State T α}
      (hfull : ¬ (0 ≤ σ.q.capacity ∧ σ.q.size = σ.q.capacity))
      (hs : σ.insertElement (σ.q.size ≤ 0) t v el = some σ') : StepKind σ (.tryPush t v el) σ'
  | popWaits {t : T} (hhead : σ.q.head = 0) : StepKind σ (.pop t) { σ with
      q := { σ.q with size := σ.q.size - 1 }
      emptyQueue := σ.emptyQueue ++ [⟨t, false⟩] }
  | pop {t : T} (hhead : σ.q.head ≠ 0) :
      StepKind σ (.pop t) ({ σ with q := { σ.q with size := σ.q.size - 1 } }.removeHead t)
  | popWaitsAgain {t : T} (hmem : ⟨t, true⟩ ∈ σ.emptyQueue) (hhead : σ.q.head = 0) :
      StepKind σ (.resumePop t) { σ with
        emptyQueue := σ.emptyQueue.map fun w ↦ if w = ⟨t, true⟩ then ⟨t, false⟩ else w }
  | resumePop {t : T} (hmem : ⟨t, true⟩ ∈ σ.emptyQueue) (hhead : σ.q.head ≠ 0) :
      StepKind σ (.resumePop t)
        ({ σ with emptyQueue := σ.emptyQueue.erase ⟨t, true⟩ }.removeHead t)
  | tryPopFails {t : T} (hempty : σ.q.size ≤ 0) : StepKind σ (.tryPop t) σ
  | tryPop {t : T} (hempty : ¬ σ.q.size ≤ 0) :
      StepKind σ (.tryPop t) ({ σ with q := { σ.q with size := σ.q.size - 1 } }.removeHead t)
  | signalOne {t : T} {w : Option T} {σ' : State T α} (hs : σ.signalOne t w = some σ') :
      StepKind σ (.signalOne t w) σ'
  | spurious {t : T} : StepKind σ (.spurious t) (σ.wake t)

/-- Every step is one of these. -/
theorem step_cases {σ σ' : State T α} {l : Label T α} (hs : step σ l = some σ') :
    StepKind σ l σ' := by
  cases l with
  | push t v el =>
      simp only [step, State.queuePush] at hs
      split at hs
      · rename_i hidle
        split at hs
        · rename_i hfull
          cases hs
          exact .pushWaits hidle hfull
        · rename_i hfull
          exact .push hfull hs
      · cases hs
  | resumePush t el =>
      simp only [step, State.resumePush] at hs
      split at hs
      · cases hs
      · rename_i hfind
        split at hs
        · rename_i hfull
          cases hs
          exact .pushWaitsAgain hfind hfull
        · rename_i hfull
          exact .resumePush hfind hfull hs
  | tryPush t v el =>
      simp only [step, State.queueTryPush] at hs
      split at hs
      · split at hs
        · rename_i hfull
          cases hs
          exact .tryPushFails hfull
        · rename_i hfull
          exact .tryPush hfull hs
      · cases hs
  | pop t =>
      simp only [step, State.queuePop] at hs
      split at hs
      · obtain rfl := Option.some.inj hs
        split
        · rename_i hhead
          exact .popWaits hhead
        · rename_i hhead
          exact .pop hhead
      · cases hs
  | resumePop t =>
      simp only [step, State.resumePop] at hs
      split at hs
      · rename_i hmem
        split at hs
        · rename_i hhead
          cases hs
          exact .popWaitsAgain hmem hhead
        · rename_i hhead
          cases hs
          exact .resumePop hmem hhead
      · cases hs
  | tryPop t =>
      simp only [step, State.queueTryPop] at hs
      split at hs
      · obtain rfl := Option.some.inj hs
        split
        · rename_i hempty
          exact .tryPopFails hempty
        · rename_i hempty
          exact .tryPop hempty
      · cases hs
  | signalOne t w => exact .signalOne hs
  | spurious t =>
      obtain rfl := Option.some.inj hs
      exact .spurious

end Leda.Queue
