import Leda.Kernel.State
import Leda.Lib.Run

/-!
# Counting the workers

`pool_size` is changed in three places: by `thread_new` after a worker is created, by a worker
that has taken a kill request (a null pointer in the ready queue), and by `thread_rawkill`.
The last one subtracts for whatever descriptor it is given.  A cancelled worker goes on up
to its next cancellation point, and on the way it may take a kill request, and subtract as well.

For each worker there should be one subtraction.  Whenever nothing is in progress the counter
is below the number of living workers, by as many as there have been calls of
`thread_rawkill` for a worker that had ended, was ending or was cancelled already, and kill
requests taken by cancelled workers (`poolSize_add_failures`).  So it is exact iff there has
been neither (`accounted_iff`).  Kill requests are answered in any case: the ready queue is
first in, first out, and a worker takes nothing after the null pointer (`Answered`).
-/

namespace Leda.Kernel.Workers

open Leda.Lib List

/-- `enum e_status` -/
inductive Status
  | pending
  | running
  | waiting
  | done
deriving DecidableEq

/-- Where a worker is in `thread_main`. -/
inductive Pc
  | /-- It is created, and has not begun. -/
    start
  | /-- At `wait_ready_queue(i)`. -/
    popping
  | /-- In `thread_resume_instance(i)`. -/
    resuming (i : InstId)
  | /-- It has taken a null pointer, and left the loop. -/
    broken
  | /-- It has subtracted itself from `pool_size`. -/
    counted
  | returned
  | /-- The cancellation was acted upon. -/
    cancelled
deriving DecidableEq

/-- `struct thread_data`, with the state of the thread. -/
structure Thread where
  status : Status
  destroy : Bool
  pc : Pc
  /-- `pthread_cancel` was called before the thread ended. -/
  cancel : Bool
  /-- `thread_new` has returned the descriptor. -/
  known : Bool
  /-- The descriptor was freed. -/
  freed : Bool
deriving DecidableEq

/-- A call that has not returned. -/
inductive Call
  | /-- `thread_new`, after `THREAD_CREATE`. -/
    adding (t : Nat)
  | /-- `thread_rawkill`, after `THREAD_KILL`. -/
    subtracting (t : Nat)
  | /-- `thread_rawkill`, after `ADD`. -/
    marking (t : Nat)
deriving DecidableEq

/-- The workers, in the order of their creation, with the counter and the ready queue. -/
structure State where
  poolSize : Int
  threads : List Thread
  ready : List (Option InstId)
  calls : List Call
deriving DecidableEq

/-- The steps of the callers, and those of the workers. -/
inductive Label
  | /-- `thread_new`, as far as `THREAD_CREATE`. -/
    new
  | /-- `ADD(pool_size,1)` -/
    newAdd (t : Nat)
  | /-- `thread_kill` -/
    kill
  | /-- `push_ready_queue`, by anyone. -/
    push (i : InstId)
  | /-- `thread_rawkill`, as far as `THREAD_KILL`. -/
    rawkill (t : Nat)
  | /-- `ADD(pool_size,-1)`, in `thread_rawkill`. -/
    rawkillAdd (t : Nat)
  | /-- `t->destroy=1` -/
    rawkillMark (t : Nat)
  | /-- The worker enters its loop. -/
    enter (t : Nat)
  | /-- `wait_ready_queue` -/
    take (t : Nat)
  | /-- `thread_resume_instance` returns. -/
    resumed (t : Nat)
  | /-- `ADD(pool_size,-1)`, in `thread_main`. -/
    leave (t : Nat)
  | /-- The end of `thread_main`. -/
    finish (t : Nat)
  | /-- The worker gets to a cancellation point. -/
    die (t : Nat)
deriving DecidableEq

namespace Pc

/-- The worker is at the loop of `thread_main`, or before it. -/
def inLoop : Pc → Bool
  | start | popping | resuming _ => true
  | broken | counted | returned | cancelled => false

/-- The worker has taken a kill request. -/
def gone : Pc → Bool
  | broken | counted | returned => true
  | start | popping | resuming _ | cancelled => false

/-- The worker has subtracted itself. -/
def left : Pc → Bool
  | counted | returned => true
  | start | popping | resuming _ | broken | cancelled => false

/-- The thread is no more. -/
def ended : Pc → Bool
  | returned | cancelled => true
  | start | popping | resuming _ | broken | counted => false

theorem left_of_inLoop {p : Pc} (h : p.inLoop = true) : p.left = false := by
  cases p with
  | start | popping | resuming | broken | cancelled => rfl
  | counted | returned => cases h

theorem gone_of_inLoop {p : Pc} (h : p.inLoop = true) : p.gone = false := by
  cases p with
  | start | popping | resuming | cancelled => rfl
  | broken | counted | returned => cases h

end Pc

namespace State

def setThread (σ : State) (t : Nat) (d : Thread) : State := { σ with threads := σ.threads.set t d }

def start : State := ⟨0, [], [], []⟩

/-- One step; a step of a worker needs the worker to be at the point in question, one of a
caller needs the call. -/
def step (σ : State) : Label → Option State
  | .new => some { σ with
      threads := σ.threads ++ [⟨.pending, false, .start, false, false, false⟩]
      calls := .adding σ.threads.length :: σ.calls }
  | .newAdd t => do
    let d ← σ.threads[t]?
    if .adding t ∈ σ.calls then
      some { σ.setThread t { d with known := true } with
        poolSize := σ.poolSize + 1, calls := σ.calls.erase (.adding t) }
    else none
  | .kill => some { σ with ready := σ.ready ++ [none] }
  | .push i => some { σ with ready := σ.ready ++ [some i] }
  | .rawkill t => do
    let d ← σ.threads[t]?
    if d.known then
      some { σ.setThread t { d with cancel := d.cancel || !d.pc.ended } with
        calls := .subtracting t :: σ.calls }
    else none
  | .rawkillAdd t =>
    if .subtracting t ∈ σ.calls then
      some { σ with
        poolSize := σ.poolSize - 1, calls := .marking t :: σ.calls.erase (.subtracting t) }
    else none
  | .rawkillMark t => do
    let d ← σ.threads[t]?
    if .marking t ∈ σ.calls then
      some { σ.setThread t { d with destroy := true } with
        calls := σ.calls.erase (.marking t) }
    else none
  | .enter t => do
    let d ← σ.threads[t]?
    if d.pc = .start then
      some (σ.setThread t { d with status := .waiting, pc := .popping })
    else none
  | .take t => do
    let d ← σ.threads[t]?
    if d.pc = .popping then
      match σ.ready with
      | [] => none
      | none :: q => some { σ.setThread t { d with pc := .broken } with ready := q }
      | some i :: q =>
        some { σ.setThread t { d with status := .running, pc := .resuming i } with ready := q }
    else none
  | .resumed t => do
    let d ← σ.threads[t]?
    match d.pc with
    | .resuming _ => some (σ.setThread t { d with status := .waiting, pc := .popping })
    | _ => none
  | .leave t => do
    let d ← σ.threads[t]?
    if d.pc = .broken then
      some { σ.setThread t { d with pc := .counted } with poolSize := σ.poolSize - 1 }
    else none
  | .finish t => do
    let d ← σ.threads[t]?
    if d.pc = .counted then
      some (σ.setThread t { d with status := .done, freed := d.destroy, pc := .returned })
    else none
  | .die t => do
    let d ← σ.threads[t]?
    if d.cancel && d.pc.inLoop then
      some (σ.setThread t { d with pc := .cancelled })
    else none

/-- What a step does. -/
inductive Does (σ : State) : Label → State → Prop
  | new : Does σ .new { σ with
      threads := σ.threads ++ [⟨.pending, false, .start, false, false, false⟩]
      calls := .adding σ.threads.length :: σ.calls }
  | newAdd {t : Nat} {d : Thread} (ht : σ.threads[t]? = some d) (hc : .adding t ∈ σ.calls) :
      Does σ (.newAdd t) { σ.setThread t { d with known := true } with
        poolSize := σ.poolSize + 1, calls := σ.calls.erase (.adding t) }
  | kill : Does σ .kill { σ with ready := σ.ready ++ [none] }
  | push (i : InstId) : Does σ (.push i) { σ with ready := σ.ready ++ [some i] }
  | rawkill {t : Nat} {d : Thread} (ht : σ.threads[t]? = some d) :
      Does σ (.rawkill t) { σ.setThread t { d with cancel := d.cancel || !d.pc.ended } with
        calls := .subtracting t :: σ.calls }
  | rawkillAdd {t : Nat} (hc : .subtracting t ∈ σ.calls) : Does σ (.rawkillAdd t) { σ with
      poolSize := σ.poolSize - 1, calls := .marking t :: σ.calls.erase (.subtracting t) }
  | rawkillMark {t : Nat} {d : Thread} (ht : σ.threads[t]? = some d) (hc : .marking t ∈ σ.calls) :
      Does σ (.rawkillMark t) { σ.setThread t { d with destroy := true } with
        calls := σ.calls.erase (.marking t) }
  | enter {t : Nat} {d : Thread} (ht : σ.threads[t]? = some d) (hp : d.pc = .start) :
      Does σ (.enter t) (σ.setThread t { d with status := .waiting, pc := .popping })
  | takeNull {t : Nat} {d : Thread} {q : List (Option InstId)} (ht : σ.threads[t]? = some d)
      (hp : d.pc = .popping) (hr : σ.ready = none :: q) :
      Does σ (.take t) { σ.setThread t { d with pc := .broken } with ready := q }
  | take {t : Nat} {d : Thread} {i : InstId} {q : List (Option InstId)}
      (ht : σ.threads[t]? = some d) (hp : d.pc = .popping) (hr : σ.ready = some i :: q) :
      Does σ (.take t)
        { σ.setThread t { d with status := .running, pc := .resuming i } with ready := q }
  | resumed {t : Nat} {d : Thread} {i : InstId} (ht : σ.threads[t]? = some d)
      (hp : d.pc = .resuming i) :
      Does σ (.resumed t) (σ.setThread t { d with status := .waiting, pc := .popping })
  | leave {t : Nat} {d : Thread} (ht : σ.threads[t]? = some d) (hp : d.pc = .broken) :
      Does σ (.leave t) { σ.setThread t { d with pc := .counted } with poolSize := σ.poolSize - 1 }
  | finish {t : Nat} {d : Thread} (ht : σ.threads[t]? = some d) (hp : d.pc = .counted) :
      Does σ (.finish t)
        (σ.setThread t { d with status := .done, freed := d.destroy, pc := .returned })
  | die {t : Nat} {d : Thread} (ht : σ.threads[t]? = some d) (hc : d.cancel = true)
      (hp : d.pc.inLoop = true) : Does σ (.die t) (σ.setThread t { d with pc := .cancelled })

variable {σ σ' : State} {l : Label} {tr : List (State × Label)}

theorem step_does (h : step σ l = some σ') : Does σ l σ' := by
  cases l with
  | new =>
      cases h
      exact .new
  | kill =>
      cases h
      exact .kill
  | push i =>
      cases h
      exact .push i
  | rawkillAdd t =>
      simp only [step, Option.ite_none_right_eq_some, Option.some.injEq] at h
      obtain ⟨hc, rfl⟩ := h
      exact .rawkillAdd hc
  | take t =>
      obtain ⟨d, ht, h⟩ := Option.bind_eq_some_iff.1 h
      obtain ⟨hp, h⟩ := Option.ite_none_right_eq_some.1 h
      split at h
      · cases h
      · rename_i q hr
        cases h
        exact .takeNull ht hp hr
      · rename_i i q hr
        cases h
        exact .take ht hp hr
  | resumed t =>
      obtain ⟨d, ht, h⟩ := Option.bind_eq_some_iff.1 h
      split at h
      · rename_i i hp
        cases h
        exact .resumed ht hp
      · cases h
  | newAdd t =>
      obtain ⟨d, ht, h⟩ := Option.bind_eq_some_iff.1 h
      obtain ⟨hc, ⟨⟩⟩ := Option.ite_none_right_eq_some.1 h
      exact .newAdd ht hc
  | rawkill t =>
      obtain ⟨d, ht, h⟩ := Option.bind_eq_some_iff.1 h
      obtain ⟨-, ⟨⟩⟩ := Option.ite_none_right_eq_some.1 h
      exact .rawkill ht
  | rawkillMark t =>
      obtain ⟨d, ht, h⟩ := Option.bind_eq_some_iff.1 h
      obtain ⟨hc, ⟨⟩⟩ := Option.ite_none_right_eq_some.1 h
      exact .rawkillMark ht hc
  | enter t =>
      obtain ⟨d, ht, h⟩ := Option.bind_eq_some_iff.1 h
      obtain ⟨hp, ⟨⟩⟩ := Option.ite_none_right_eq_some.1 h
      exact .enter ht hp
  | leave t =>
      obtain ⟨d, ht, h⟩ := Option.bind_eq_some_iff.1 h
      obtain ⟨hp, ⟨⟩⟩ := Option.ite_none_right_eq_some.1 h
      exact .leave ht hp
  | finish t =>
      obtain ⟨d, ht, h⟩ := Option.bind_eq_some_iff.1 h
      obtain ⟨hp, ⟨⟩⟩ := Option.ite_none_right_eq_some.1 h
      exact .finish ht hp
  | die t =>
      obtain ⟨d, ht, h⟩ := Option.bind_eq_some_iff.1 h
      obtain ⟨hc, ⟨⟩⟩ := Option.ite_none_right_eq_some.1 h
      obtain ⟨hc, hp⟩ := Bool.and_eq_true_iff.1 hc
      exact .die ht hc hp

/-! ## The counter -/

/-- The number of living workers. -/
def alive (σ : State) : Nat := σ.threads.countP fun d ↦ !d.pc.ended

/-- **Nothing is in progress**: no call, and no exit of a worker. -/
structure Quiet (σ : State) : Prop where
  calls : σ.calls = []
  exits : ∀ d ∈ σ.threads, d.pc.ended = false → d.pc.gone = false ∧ d.cancel = false

/-- **A proper step**: `thread_rawkill` is called for a worker that is neither ending, ended nor
cancelled, and a kill request is not taken by a cancelled worker. -/
def proper (σ : State) : Label → Bool
  | .rawkill t =>
    match σ.threads[t]? with
    | some d => d.pc.inLoop && !d.cancel
    | none => true
  | .take t =>
    match σ.threads[t]?, σ.ready with
    | some d, none :: _ => !d.cancel
    | _, _ => true
  | _ => true

end State

def Call.isAdding : Call → Bool
  | .adding _ => true
  | .subtracting _ | .marking _ => false

def Call.isSubtracting : Call → Bool
  | .subtracting _ => true
  | .adding _ | .marking _ => false

def Label.isRawkill : Label → Bool
  | .rawkill _ => true
  | _ => false

/-- The thread is cancelled, and has taken no kill request. -/
def Thread.struck (d : Thread) : Bool := d.cancel && !d.pc.gone

/-- The calls of `thread_rawkill` in a run. -/
def rawkills (tr : List (State × Label)) : Nat := tr.countP fun p ↦ p.2.isRawkill

/-- The steps of a run that are not proper. -/
def failures (tr : List (State × Label)) : Nat := tr.countP fun p ↦ !p.1.proper p.2

theorem failures_eq_zero {tr : List (State × Label)} :
    failures tr = 0 ↔ ∀ p ∈ tr, p.1.proper p.2 = true := by
  simp only [failures, countP_eq_zero, Bool.not_eq_true', Bool.not_eq_false]

namespace State

variable {σ σ' : State} {l : Label} {tr : List (State × Label)} {t : Nat} {d e : Thread}

/-- Changing one element changes a count by what the element counts. -/
theorem countP_set_add {p : Thread → Bool} {ts : List Thread} (ht : ts[t]? = some d) :
    (ts.set t e).countP p + (p d).toNat = ts.countP p + (p e).toNat := by
  obtain ⟨hlt, rfl⟩ := List.getElem?_eq_some_iff.1 ht
  have hpos : (p ts[t]).toNat ≤ ts.countP p := by
    cases hp : p ts[t] with
    | false => exact Nat.zero_le _
    | true => exact countP_pos_iff.2 ⟨ts[t], getElem_mem hlt, hp⟩
  rw [countP_set hlt]
  cases hp : p ts[t] <;> cases hp' : p e <;>
    simp only [hp, Bool.toNat_true, Bool.toNat_false, reduceIte, Bool.false_eq_true] at hpos ⊢ <;>
    omega

/-- Removing a call changes a count by what the call counts. -/
theorem countP_erase_add {p : Call → Bool} {cs : List Call} {c : Call} (hc : c ∈ cs) :
    (cs.erase c).countP p + (p c).toNat = cs.countP p := by
  rw [(perm_cons_erase hc).countP_eq p, countP_cons]
  cases p c <;> rfl

/-- The workers that have not subtracted themselves. -/
def unsubtracted (ts : List Thread) : Int := ts.length - (ts.countP fun d ↦ d.pc.left : Nat)

/-- What the calls in progress have still to subtract, less what they have to add. -/
def outstanding (cs : List Call) : Int :=
  (cs.countP Call.isSubtracting : Nat) - (cs.countP Call.isAdding : Nat)

/-- What the counter will lack, when the calls in progress have ended, of the number of the
workers that have not subtracted themselves. -/
def deficit (σ : State) : Int := unsubtracted σ.threads + outstanding σ.calls - σ.poolSize

theorem unsubtracted_set (ht : σ.threads[t]? = some d) (h : e.pc.left = d.pc.left) :
    unsubtracted (σ.threads.set t e) = unsubtracted σ.threads := by
  have hset := countP_set_add (e := e) (p := fun d ↦ d.pc.left) ht
  simp only [h, unsubtracted, length_set] at hset ⊢
  omega

theorem unsubtracted_concat (ts : List Thread) (h : d.pc.left = false) :
    unsubtracted (ts ++ [d]) = unsubtracted ts + 1 := by
  simp only [unsubtracted, length_append, length_singleton, countP_append, countP_singleton, h]
  rw [if_neg Bool.false_ne_true]
  omega

theorem unsubtracted_leave (ht : σ.threads[t]? = some d) (h : d.pc.left = false)
    (h' : e.pc.left = true) :
    unsubtracted (σ.threads.set t e) = unsubtracted σ.threads - 1 := by
  have hset := countP_set_add (e := e) (p := fun d ↦ d.pc.left) ht
  simp only [h, h', Bool.toNat_true, Bool.toNat_false, unsubtracted, length_set] at hset ⊢
  omega

theorem outstanding_cons (c : Call) (cs : List Call) :
    outstanding (c :: cs) = outstanding cs + c.isSubtracting.toNat - c.isAdding.toNat := by
  simp only [outstanding, countP_cons]
  cases c.isSubtracting <;> cases c.isAdding <;> simp <;> omega

theorem outstanding_erase {cs : List Call} {c : Call} (hc : c ∈ cs) :
    outstanding (cs.erase c) = outstanding cs - c.isSubtracting.toNat + c.isAdding.toNat := by
  have hsub := countP_erase_add (p := Call.isSubtracting) hc
  have hadd := countP_erase_add (p := Call.isAdding) hc
  simp only [outstanding]
  omega

/-- Only a call of `thread_rawkill` makes the counter fall behind. -/
theorem deficit_step (h : Does σ l σ') : σ'.deficit = σ.deficit + l.isRawkill.toNat := by
  have hset {t d} (e : Thread) (ht : σ.threads[t]? = some d) (hl : e.pc.left = d.pc.left) :
      unsubtracted (σ.threads.set t e) = unsubtracted σ.threads := unsubtracted_set ht hl
  cases h with
  | new =>
      change unsubtracted (σ.threads ++ _) + outstanding (_ :: σ.calls) - σ.poolSize = deficit σ + 0
      rw [outstanding_cons, unsubtracted_concat _ rfl]
      change _ + 1 + (outstanding σ.calls + 0 - 1) - _ = _
      rw [deficit]
      omega
  | @newAdd t d ht hc =>
      change unsubtracted (σ.threads.set t { d with known := true }) +
        outstanding (σ.calls.erase _) - (σ.poolSize + 1) = deficit σ + 0
      rw [hset { d with known := true } ht rfl, outstanding_erase hc]
      change _ + (outstanding σ.calls - 0 + 1) - _ = _
      rw [deficit]
      omega
  | kill | push i => exact (Int.add_zero _).symm
  | @rawkill t d ht =>
      change unsubtracted (σ.threads.set t { d with cancel := d.cancel || !d.pc.ended }) +
        outstanding (_ :: σ.calls) - σ.poolSize = deficit σ + 1
      rw [hset { d with cancel := d.cancel || !d.pc.ended } ht rfl, outstanding_cons]
      change _ + (outstanding σ.calls + 1 - 0) - _ = _
      rw [deficit]
      omega
  | rawkillAdd hc =>
      change unsubtracted σ.threads + outstanding (_ :: σ.calls.erase _) - (σ.poolSize - 1) =
        deficit σ + 0
      rw [outstanding_cons, outstanding_erase hc]
      change _ + (outstanding σ.calls - 1 + 0 + 0 - 0) - _ = _
      rw [deficit]
      omega
  | @rawkillMark t d ht hc =>
      change unsubtracted (σ.threads.set t { d with destroy := true }) +
        outstanding (σ.calls.erase _) - σ.poolSize = deficit σ + 0
      rw [hset { d with destroy := true } ht rfl, outstanding_erase hc]
      change _ + (outstanding σ.calls - 0 + 0) - _ = _
      rw [deficit]
      omega
  | @leave t d ht hp =>
      change unsubtracted (σ.threads.set t { d with pc := .counted }) + outstanding σ.calls -
        (σ.poolSize - 1) = deficit σ + 0
      rw [unsubtracted_leave ht (hp ▸ rfl) rfl, deficit]
      omega
  | enter ht hp | takeNull ht hp _ | take ht hp _ | resumed ht hp | finish ht hp =>
      change unsubtracted (σ.threads.set _ _) + outstanding σ.calls - σ.poolSize = deficit σ + 0
      rw [hset _ ht (hp ▸ rfl), Int.add_zero, deficit]
  | @die t d ht hc hp =>
      change unsubtracted (σ.threads.set _ _) + outstanding σ.calls - σ.poolSize = deficit σ + 0
      rw [hset { d with pc := .cancelled } ht (Pc.left_of_inLoop hp).symm, Int.add_zero, deficit]

theorem struck_set (ht : σ.threads[t]? = some d) (h : e.struck = d.struck) :
    (σ.threads.set t e).countP Thread.struck = σ.threads.countP Thread.struck := by
  have hset := countP_set_add (e := e) (p := Thread.struck) ht
  rw [h] at hset
  omega

/-- **A call of `thread_rawkill` strikes a new worker**, and it goes on to die of that, except
for the steps that are not proper. -/
theorem struck_step (h : Does σ l σ') :
    σ'.threads.countP Thread.struck + (!σ.proper l).toNat =
      σ.threads.countP Thread.struck + l.isRawkill.toNat := by
  have hsame {t d} (e : Thread) (ht : σ.threads[t]? = some d) (hl : e.struck = d.struck) :
      (σ.threads.set t e).countP Thread.struck + 0 = σ.threads.countP Thread.struck + 0 := by
    rw [struck_set ht hl]
  cases h with
  | new =>
      change (σ.threads ++ [_]).countP Thread.struck + 0 = _ + 0
      rw [countP_append, countP_singleton]
      rfl
  | kill | push i | rawkillAdd hc => rfl
  | @newAdd t d ht hc => exact hsame { d with known := true } ht rfl
  | @rawkillMark t d ht hc => exact hsame { d with destroy := true } ht rfl
  | enter ht hp | resumed ht hp | leave ht hp | finish ht hp =>
      refine hsame _ ht ?_
      rw [Thread.struck, Thread.struck, hp]
      rfl
  | @take t d i q ht hp hr =>
      have hproper : σ.proper (.take t) = true := by rw [proper, ht, hr]
      rw [hproper]
      refine hsame _ ht ?_
      rw [Thread.struck, Thread.struck, hp]
      rfl
  | @takeNull t d q ht hp hr =>
      have hset := countP_set_add (e := { d with pc := .broken }) (p := Thread.struck) ht
      have hproper : σ.proper (.take t) = !d.cancel := by rw [proper, ht, hr]
      rw [hproper, Bool.not_not]
      change (σ.threads.set t { d with pc := .broken }).countP Thread.struck + _ = _ + 0
      have hbefore : d.struck = d.cancel := by rw [Thread.struck, hp]; exact Bool.and_true _
      have hafter : Thread.struck { d with pc := .broken } = false := Bool.and_false _
      rw [hbefore, hafter] at hset
      exact hset
  | @rawkill t d ht =>
      have hset := countP_set_add (e := { d with cancel := d.cancel || !d.pc.ended })
        (p := Thread.struck) ht
      have hproper : σ.proper (.rawkill t) = (d.pc.inLoop && !d.cancel) := by rw [proper, ht]
      rw [hproper]
      change (σ.threads.set t { d with cancel := d.cancel || !d.pc.ended }).countP Thread.struck +
        _ = _ + 1
      have hcount : (!(d.pc.inLoop && !d.cancel)).toNat +
          (Thread.struck { d with cancel := d.cancel || !d.pc.ended }).toNat =
            d.struck.toNat + 1 := by
        unfold Thread.struck
        cases d.pc <;> cases d.cancel <;> rfl
      omega
  | @die t d ht hc hp =>
      refine hsame { d with pc := .cancelled } ht ?_
      rw [Thread.struck, Thread.struck, Pc.gone_of_inLoop hp]
      rfl

/-- A thread that was cancelled has `cancel` set. -/
def Marked (σ : State) : Prop := ∀ d ∈ σ.threads, d.pc = .cancelled → d.cancel = true

theorem Marked.set (h : σ.Marked) (hd : d.pc = .cancelled → d.cancel = true) :
    (σ.setThread t d).Marked := by
  intro e hd' hp
  rcases mem_or_eq_of_mem_set hd' with hd' | rfl
  · exact h e hd' hp
  · exact hd hp

theorem marked_step (hm : σ.Marked) (h : Does σ l σ') : σ'.Marked := by
  have hold {t d} (ht : σ.threads[t]? = some d) := hm d (mem_of_getElem? ht)
  cases h with
  | new =>
      intro d hd hp
      rcases mem_append.1 hd with hd | hd
      · exact hm d hd hp
      · obtain rfl := mem_singleton.1 hd
        cases hp
  | kill | push i | rawkillAdd hc => exact hm
  | newAdd ht hc | rawkillMark ht hc =>
      have hcancel := hold ht
      exact hm.set hcancel
  | rawkill ht => exact hm.set fun hp ↦ by rw [hold ht hp]; rfl
  | enter ht hp | takeNull ht hp hr | take ht hp hr | resumed ht hp | leave ht hp | finish ht hp =>
      exact hm.set fun hc ↦ by cases hc
  | die ht hc hp => exact hm.set fun _ ↦ hc

/-- Each living worker, each that has subtracted itself and each that is struck counts once. -/
theorem length_eq_of_quiet (hm : σ.Marked) (hq : σ.Quiet) :
    σ.alive + σ.threads.countP (fun d ↦ d.pc.left) + σ.threads.countP Thread.struck =
      σ.threads.length := by
  have hone : ∀ d ∈ σ.threads, (!d.pc.ended).toNat + d.pc.left.toNat + d.struck.toNat = 1 := by
    intro d hd
    have hexit := hq.exits d hd
    have hmark := hm d hd
    unfold Thread.struck
    cases hp : d.pc with
    | start | popping | resuming i =>
        rw [hp] at hexit
        rw [(hexit rfl).2]
        rfl
    | broken | counted =>
        rw [hp] at hexit
        cases (hexit rfl).1
    | returned => rw [Pc.gone, Bool.not_true, Bool.and_false]; rfl
    | cancelled => rw [hmark hp]; rfl
  unfold alive
  generalize σ.threads = ts at hone
  induction ts with
  | nil => rfl
  | cons d ts ih =>
      obtain ⟨hd, hts⟩ := forall_mem_cons.1 hone
      have hcons (p : Thread → Bool) : (d :: ts).countP p = ts.countP p + (p d).toNat := by
        rw [countP_cons]
        cases p d <;> rfl
      rw [hcons, hcons, hcons, length_cons, ← ih hts]
      omega

/-- What holds of the counter, in any state of a run. -/
structure Accounts (tr : List (State × Label)) (σ : State) : Prop where
  deficit : σ.deficit = rawkills tr
  struck : σ.threads.countP Thread.struck + failures tr = rawkills tr
  marked : σ.Marked

theorem accounts (h : Run step start tr σ) : Accounts tr σ := by
  induction h with
  | nil => exact ⟨rfl, rfl, fun d hd ↦ by cases hd⟩
  | @snoc tr σ σ' l _ hs ih =>
      have hdoes := step_does hs
      have hstruck := struck_step hdoes
      have hraw : rawkills (tr ++ [(σ, l)]) = rawkills tr + l.isRawkill.toNat := by
        rw [rawkills, countP_append, countP_singleton]
        cases l.isRawkill <;> rfl
      have hfail : failures (tr ++ [(σ, l)]) = failures tr + (!σ.proper l).toNat := by
        rw [failures, countP_append, countP_singleton]
        cases σ.proper l <;> rfl
      refine ⟨?_, ?_, marked_step ih.marked hdoes⟩
      · rw [deficit_step hdoes, ih.deficit, hraw, Int.natCast_add]
      · rw [hraw, hfail, ← ih.struck]
        omega

/-- **Whenever nothing is in progress, the counter lacks one for each step that was not
proper.** -/
theorem poolSize_add_failures (h : Run step start tr σ) (hq : σ.Quiet) :
    σ.poolSize + failures tr = σ.alive := by
  have ha := accounts h
  have hlen := length_eq_of_quiet ha.marked hq
  have hdef := ha.deficit
  have hstruck := ha.struck
  rw [deficit, hq.calls, unsubtracted] at hdef
  change _ + 0 - _ = _ at hdef
  omega

/-! ## The kill requests -/

/-- What a step appends to the ready queue. -/
def pushing : Label → Option (Option InstId)
  | .kill => some none
  | .push i => some (some i)
  | _ => none

/-- The worker that takes something from the ready queue, with what it takes. -/
def taking (σ : State) : Label → Option (Nat × Option InstId)
  | .take t => σ.ready.head?.map fun o ↦ (t, o)
  | _ => none

/-- What was appended to the ready queue in a run. -/
def pushed (tr : List (State × Label)) : List (Option InstId) := tr.filterMap fun p ↦ pushing p.2

/-- What was taken from the ready queue in a run. -/
def taken (tr : List (State × Label)) : List (Nat × Option InstId) :=
  tr.filterMap fun p ↦ p.1.taking p.2

theorem pushed_snoc : pushed (tr ++ [(σ, l)]) = pushed tr ++ (pushing l).toList := by
  rw [pushed, filterMap_append]
  cases h : pushing l <;> simp [h, pushed]

theorem taken_snoc : taken (tr ++ [(σ, l)]) = taken tr ++ (σ.taking l).toList := by
  rw [taken, filterMap_append]
  cases h : σ.taking l <;> simp [h, taken]

theorem ready_step (h : Does σ l σ') :
    σ.ready ++ (pushing l).toList = ((σ.taking l).toList.map Prod.snd) ++ σ'.ready := by
  cases h with
  | kill | push i => rfl
  | takeNull ht hp hr | take ht hp hr =>
      rw [taking, hr]
      exact append_nil _
  | new | newAdd ht hc | rawkill ht | rawkillAdd hc | rawkillMark ht hc | enter ht hp
  | resumed ht hp | leave ht hp | finish ht hp | die ht hc hp => exact append_nil _

/-- **The ready queue is first in, first out.** -/
theorem ready_run {σ₀ : State} (h : Run step σ₀ tr σ) :
    σ₀.ready ++ pushed tr = (taken tr).map Prod.snd ++ σ.ready := by
  induction h with
  | nil => exact append_nil _
  | @snoc tr σ σ' l _ hs ih =>
      rw [pushed_snoc, taken_snoc, ← append_assoc, ih, append_assoc, ready_step (step_does hs),
        map_append, append_assoc]

/-- The worker has taken a kill request. -/
def isGone (σ : State) (t : Nat) : Bool := σ.threads[t]?.any fun d ↦ d.pc.gone

theorem isGone_setThread (ht : σ.threads[t]? = some d) (u : Nat) :
    (σ.setThread t e).isGone u = if t = u then e.pc.gone else σ.isGone u := by
  change (σ.threads.set t e)[u]?.any _ = _
  rw [getElem?_set]
  split
  · rw [if_pos (List.getElem?_eq_some_iff.1 ht).1]
    rfl
  · rfl

theorem isGone_set (ht : σ.threads[t]? = some d) (h : e.pc.gone = d.pc.gone) (u : Nat) :
    (σ.setThread t e).isGone u = σ.isGone u := by
  rw [isGone_setThread ht]
  split
  · rename_i heq
    rw [← heq, isGone, ht, h]
    rfl
  · rfl

/-- Only taking a kill request makes a worker go. -/
theorem isGone_step (h : Does σ l σ') (u : Nat) :
    σ'.isGone u = true ↔ σ.isGone u = true ∨ σ.taking l = some (u, none) := by
  have hsame {t d} (e : Thread) (ht : σ.threads[t]? = some d) (hg : e.pc.gone = d.pc.gone) :
      (σ.setThread t e).isGone u = true ↔
        σ.isGone u = true ∨ (none : Option (Nat × Option InstId)) = some (u, none) := by
    rw [isGone_set ht hg]
    exact ⟨.inl, fun h ↦ h.elim id fun h ↦ by cases h⟩
  cases h with
  | new =>
      change (σ.threads ++ [_])[u]?.any _ = true ↔ _ ∨ none = _
      rw [isGone, getElem?_append]
      split
      · exact ⟨.inl, fun h ↦ h.elim id fun h ↦ by cases h⟩
      · rename_i hge
        rw [getElem?_eq_none_iff.2 (Nat.le_of_not_lt hge)]
        cases u - σ.threads.length with
        | zero => simp [Pc.gone]
        | succ n => simp
  | kill | push i | rawkillAdd hc => exact ⟨.inl, fun h ↦ h.elim id fun h ↦ by cases h⟩
  | @newAdd t d ht hc => exact hsame { d with known := true } ht rfl
  | @rawkillMark t d ht hc => exact hsame { d with destroy := true } ht rfl
  | @rawkill t d ht => exact hsame { d with cancel := d.cancel || !d.pc.ended } ht rfl
  | enter ht hp | resumed ht hp | leave ht hp | finish ht hp => exact hsame _ ht (hp ▸ rfl)
  | @die t d ht hc hp => exact hsame { d with pc := .cancelled } ht (Pc.gone_of_inLoop hp).symm
  | @take t d i q ht hp hr =>
      have hgone := isGone_set (e := { d with status := .running, pc := .resuming i }) ht
        (hp ▸ rfl) u
      rw [taking, hr]
      refine ⟨fun h ↦ .inl (hgone.symm.trans h), fun h ↦ ?_⟩
      rcases h with h | h
      · exact hgone.trans h
      · cases h
  | @takeNull t d q ht hp hr =>
      change (σ.setThread t { d with pc := .broken }).isGone u = true ↔ _
      rw [isGone_setThread ht, taking, hr]
      split
      · rename_i heq
        subst heq
        exact ⟨fun _ ↦ .inr rfl, fun _ ↦ rfl⟩
      · rename_i hne
        refine ⟨.inl, fun h ↦ h.elim id fun h ↦ ?_⟩
        cases h
        exact absurd rfl hne

theorem isGone_of_taking {o : Option InstId} (h : Does σ l σ') (ht : σ.taking l = some (t, o)) :
    σ.isGone t = false := by
  cases h with
  | takeNull hd hp hr | take hd hp hr =>
      rw [taking, hr] at ht
      cases ht
      rw [isGone, hd, Option.any_some, hp]
      rfl
  | new | kill | push i | newAdd _ _ | rawkill _ | rawkillAdd _ | rawkillMark _ _ | enter _ _
  | resumed _ _ | leave _ _ | finish _ _ | die _ _ _ => cases ht

/-- **A worker that takes a kill request takes nothing after it**: what was taken, with the
workers that have taken a kill request. -/
structure Requests (L : List (Nat × Option InstId)) (gone : Nat → Bool) : Prop where
  isGone : ∀ n t : Nat, L[n]? = some (t, none) → gone t = true
  last : ∀ n t : Nat, L[n]? = some (t, none) → ∀ (m : Nat) o, L[m]? = some (t, o) → m ≤ n
  of_gone : ∀ t, gone t = true → ∃ n : Nat, L[n]? = some (t, none)

theorem getElem?_concat_eq_some {A : Type} {L : List A} {p q : A} {n : Nat} :
    (L ++ [p])[n]? = some q ↔ L[n]? = some q ∨ n = L.length ∧ p = q := by
  rw [getElem?_append]
  split
  · rename_i hlt
    exact ⟨.inl, fun h ↦ h.elim id fun h ↦ absurd h.1 (Nat.ne_of_lt hlt)⟩
  · rename_i hge
    have hnone : L[n]? = none := getElem?_eq_none_iff.2 (Nat.le_of_not_lt hge)
    rw [hnone, getElem?_singleton]
    split
    · rename_i hzero
      have heq : n = L.length := by omega
      exact ⟨fun h ↦ .inr ⟨heq, Option.some.inj h⟩, fun h ↦ h.elim (fun h ↦ by cases h)
        fun h ↦ congrArg some h.2⟩
    · rename_i hzero
      exact ⟨fun h ↦ (by cases h), fun h ↦ h.elim id fun h ↦ absurd (by omega) hzero⟩

theorem Requests.concat {L : List (Nat × Option InstId)} {gone gone' : Nat → Bool}
    {o : Option InstId} (h : Requests L gone) (hnot : gone t = false)
    (hg : ∀ u, gone' u = true ↔ gone u = true ∨ (t, o) = (u, none)) :
    Requests (L ++ [(t, o)]) gone' := by
  refine ⟨fun n u hn ↦ ?_, fun n u hn m o' hm ↦ ?_, fun u hu ↦ ?_⟩
  · rcases getElem?_concat_eq_some.1 hn with hn | ⟨-, hn⟩
    · exact (hg u).2 (.inl (h.isGone n u hn))
    · exact (hg u).2 (.inr hn)
  · rcases getElem?_concat_eq_some.1 hn with hn | ⟨hn, -⟩
    · rcases getElem?_concat_eq_some.1 hm with hm | ⟨-, hm⟩
      · exact h.last n u hn m o' hm
      · -- the worker that takes now has not taken a kill request before
        cases hm
        rw [h.isGone n t hn] at hnot
        cases hnot
    · rcases getElem?_concat_eq_some.1 hm with hm | ⟨hm, -⟩
      · exact hn ▸ Nat.le_of_lt (List.getElem?_eq_some_iff.1 hm).1
      · exact Nat.le_of_eq (hm.trans hn.symm)
  · rcases (hg u).1 hu with hu | hu
    · obtain ⟨n, hn⟩ := h.of_gone u hu
      exact ⟨n, getElem?_concat_eq_some.2 (.inl hn)⟩
    · exact ⟨L.length, getElem?_concat_eq_some.2 (.inr ⟨rfl, hu⟩)⟩

theorem requests (h : Run step start tr σ) : Requests (taken tr) σ.isGone := by
  induction h with
  | nil => exact ⟨by simp [taken], by simp [taken], by simp [isGone, start]⟩
  | @snoc tr σ σ' l _ hs ih =>
      have hdoes := step_does hs
      have hgone := isGone_step hdoes
      rw [taken_snoc]
      cases htake : σ.taking l with
      | none =>
          have hsame : σ'.isGone = σ.isGone := by
            funext u
            refine Bool.eq_iff_iff.2 ((hgone u).trans ⟨fun h ↦ h.elim id fun h ↦ ?_, .inl⟩)
            rw [htake] at h
            cases h
          rw [Option.toList_none, append_nil, hsame]
          exact ih
      | some p =>
          obtain ⟨t, o⟩ := p
          refine ih.concat (isGone_of_taking hdoes htake) fun u ↦ ?_
          rw [hgone u, htake, Option.some.injEq]

/-- A step of the worker itself. -/
def ofWorker (t : Nat) : Label → Prop
  | .enter u | .take u | .resumed u | .leave u | .finish u => u = t
  | _ => False

/-- The worker gets from one state to another by itself. -/
def Walks (t : Nat) (σ σ' : State) : Prop :=
  ∃ tr, Run step σ tr σ' ∧ ∀ p ∈ tr, ofWorker t p.2

theorem Walks.refl (t : Nat) (σ : State) : Walks t σ σ := ⟨[], .nil, by simp⟩

theorem Walks.trans {σ₁ σ₂ σ₃ : State} (h : Walks t σ₁ σ₂) (h' : Walks t σ₂ σ₃) :
    Walks t σ₁ σ₃ := by
  obtain ⟨tr, hr, hw⟩ := h
  obtain ⟨tr', hr', hw'⟩ := h'
  exact ⟨tr ++ tr', hr.append hr', fun p hp ↦ (mem_append.1 hp).elim (hw p) (hw' p)⟩

theorem Walks.of_step (hs : step σ l = some σ') (hw : ofWorker t l) : Walks t σ σ' :=
  ⟨_, .single hs, fun p hp ↦ by rwa [mem_singleton.1 hp]⟩

theorem setThread_getElem? (ht : σ.threads[t]? = some d) :
    (σ.setThread t e).threads[t]? = some e := by
  change (σ.threads.set t e)[t]? = _
  rw [getElem?_set_self (List.getElem?_eq_some_iff.1 ht).1]

/-- A worker at its loop gets to the ready queue, if the handler it runs returns. -/
theorem walks_popping (ht : σ.threads[t]? = some d) (hp : d.pc.inLoop = true) :
    ∃ σ' e, Walks t σ σ' ∧ σ'.ready = σ.ready ∧ σ'.threads[t]? = some e ∧ e.pc = .popping := by
  cases hpc : d.pc with
  | popping => exact ⟨σ, d, .refl t σ, rfl, ht, hpc⟩
  | start =>
      refine ⟨σ.setThread t { d with status := .waiting, pc := .popping }, _,
        .of_step (l := .enter t) ?_ rfl, rfl, setThread_getElem? ht, rfl⟩
      rw [step, ht]
      exact if_pos hpc
  | resuming i =>
      refine ⟨σ.setThread t { d with status := .waiting, pc := .popping }, _,
        .of_step (l := .resumed t) ?_ rfl, rfl, setThread_getElem? ht, rfl⟩
      rw [step, ht]
      simp only [Option.bind_eq_bind, Option.bind_some, hpc]
  | broken | counted | returned | cancelled =>
      rw [hpc] at hp
      cases hp

/-- A worker at the ready queue takes what is at its front. -/
theorem walks_take {o : Option InstId} {q : List (Option InstId)} (ht : σ.threads[t]? = some d)
    (hp : d.pc = .popping) (hr : σ.ready = o :: q) :
    ∃ σ' e, Walks t σ σ' ∧ σ'.ready = q ∧ σ'.threads[t]? = some e ∧
      e.pc = o.elim .broken .resuming := by
  cases o with
  | none =>
      refine ⟨{ σ.setThread t { d with pc := .broken } with ready := q }, _,
        .of_step (l := .take t) ?_ rfl, rfl, setThread_getElem? ht, rfl⟩
      rw [step, ht]
      simp only [Option.bind_eq_bind, Option.bind_some, hp, reduceIte, hr]
  | some i =>
      refine ⟨{ σ.setThread t { d with status := .running, pc := .resuming i } with ready := q }, _,
        .of_step (l := .take t) ?_ rfl, rfl, setThread_getElem? ht, rfl⟩
      rw [step, ht]
      simp only [Option.bind_eq_bind, Option.bind_some, hp, reduceIte, hr]

theorem walks_leave (ht : σ.threads[t]? = some d) (hp : d.pc = .broken) :
    ∃ σ' e, Walks t σ σ' ∧ σ'.ready = σ.ready ∧ σ'.threads[t]? = some e ∧ e.pc = .counted := by
  refine ⟨{ σ.setThread t { d with pc := .counted } with poolSize := σ.poolSize - 1 }, _,
    .of_step (l := .leave t) ?_ rfl, rfl, setThread_getElem? ht, rfl⟩
  rw [step, ht]
  exact if_pos hp

theorem walks_finish (ht : σ.threads[t]? = some d) (hp : d.pc = .counted) :
    ∃ σ' e, Walks t σ σ' ∧ σ'.ready = σ.ready ∧ σ'.threads[t]? = some e ∧ e.pc = .returned := by
  refine ⟨σ.setThread t { d with status := .done, freed := d.destroy, pc := .returned }, _,
    .of_step (l := .finish t) ?_ rfl, rfl, setThread_getElem? ht, rfl⟩
  rw [step, ht]
  exact if_pos hp

/-- **A worker at its loop takes what is queued ahead of a kill request, then takes the request,
and ends.** -/
theorem walks_returned {as q : List (Option InstId)} (has : none ∉ as)
    (hr : σ.ready = as ++ none :: q) (ht : σ.threads[t]? = some d) (hp : d.pc.inLoop = true) :
    ∃ σ' e, Walks t σ σ' ∧ σ'.ready = q ∧ σ'.threads[t]? = some e ∧ e.pc = .returned := by
  induction as generalizing σ d with
  | nil =>
      obtain ⟨σ₁, d₁, hw₁, hr₁, ht₁, hp₁⟩ := walks_popping ht hp
      obtain ⟨σ₂, d₂, hw₂, hr₂, ht₂, hp₂⟩ := walks_take ht₁ hp₁ (hr₁.trans hr)
      obtain ⟨σ₃, d₃, hw₃, hr₃, ht₃, hp₃⟩ := walks_leave ht₂ hp₂
      obtain ⟨σ₄, d₄, hw₄, hr₄, hend⟩ := walks_finish ht₃ hp₃
      exact ⟨σ₄, d₄, hw₁.trans (hw₂.trans (hw₃.trans hw₄)), hr₄.trans (hr₃.trans hr₂), hend⟩
  | cons a as ih =>
      obtain ⟨σ₁, d₁, hw₁, hr₁, ht₁, hp₁⟩ := walks_popping ht hp
      obtain ⟨σ₂, d₂, hw₂, hr₂, ht₂, hp₂⟩ := walks_take ht₁ hp₁ (hr₁.trans hr)
      have hp₂ : d₂.pc.inLoop = true := by
        cases a with
        | none => exact absurd mem_cons_self has
        | some i => rw [hp₂]; rfl
      obtain ⟨σ₃, d₃, hw₃, hrest⟩ := ih (fun h ↦ has (mem_cons_of_mem _ h)) hr₂ ht₂ hp₂
      exact ⟨σ₃, d₃, hw₁.trans (hw₂.trans hw₃), hrest⟩

/-! ## Exactness -/

/-- The worker `t` was ended by the `n`th entry of the ready queue, a kill request: it took
nothing after it, and what was ahead of it in the queue was taken before. -/
structure Ended (tr : List (State × Label)) (σ : State) (n t : Nat) : Prop where
  taken : (taken tr)[n]? = some (t, none)
  returned : ∃ d, σ.threads[t]? = some d ∧ d.pc = .returned
  last : ∀ (m : Nat) o, (State.taken tr)[m]? = some (t, o) → m ≤ n
  ahead : ∀ m < n, ∀ o, (pushed tr)[m]? = some o → ∃ w, (State.taken tr)[m]? = some (w, o)

/-- **The accounting is exact.** -/
structure Accounted (tr : List (State × Label)) (σ : State) : Prop where
  poolSize : σ.poolSize = σ.alive
  nonneg : 0 ≤ σ.poolSize
  /-- Each kill request is queued still, or has ended exactly one worker, -/
  request : ∀ n : Nat, (pushed tr)[n]? = some none →
    (taken tr).length ≤ n ∧ σ.ready[n - (taken tr).length]? = some none ∨ ∃ t, Ended tr σ n t
  /-- no two have ended the same worker, -/
  worker : ∀ n m t, Ended tr σ n t → Ended tr σ m t → n = m
  /-- every worker that has returned was ended by one, -/
  returned : ∀ t d, σ.threads[t]? = some d → d.pc = .returned → ∃ n, Ended tr σ n t
  /-- and the next one in the queue ends any living worker that goes on by itself. -/
  next : ∀ t d, σ.threads[t]? = some d → d.pc.ended = false → none ∈ σ.ready →
    ∃ σ' e as, Walks t σ σ' ∧ σ.ready = as ++ none :: σ'.ready ∧ none ∉ as ∧
      σ'.threads[t]? = some e ∧ e.pc = .returned

/-- The entries that were taken are the first that were appended. -/
theorem pushed_getElem? (h : Run step start tr σ) (n : Nat) : (pushed tr)[n]? =
    if n < (taken tr).length then ((taken tr)[n]?).map Prod.snd
      else σ.ready[n - (taken tr).length]? := by
  have hfifo : pushed tr = (taken tr).map Prod.snd ++ σ.ready := ready_run h
  rw [hfifo, getElem?_append, length_map, getElem?_map]

/-- When nothing is in progress, a worker that has taken a kill request has ended by it. -/
theorem ended_of_taken (h : Run step start tr σ) (hq : σ.Quiet) {n : Nat}
    (hn : (taken tr)[n]? = some (t, none)) : Ended tr σ n t := by
  have hreq := requests h
  refine ⟨hn, ?_, hreq.last n t hn, fun m hm o ho ↦ ?_⟩
  · obtain ⟨d, hd, hgone⟩ := (Option.any_eq_true _ _).1 (hreq.isGone n t hn)
    refine ⟨d, hd, ?_⟩
    have hexit := hq.exits d (mem_of_getElem? hd)
    cases hp : d.pc with
    | returned => rfl
    | broken | counted =>
        rw [hp] at hexit
        cases (hexit rfl).1
    | start | popping | resuming i | cancelled =>
        rw [hp] at hgone
        cases hgone
  · have hlt : m < (taken tr).length := Nat.lt_trans hm (List.getElem?_eq_some_iff.1 hn).1
    rw [pushed_getElem? h, if_pos hlt] at ho
    obtain ⟨⟨w, o⟩, hw, rfl⟩ := Option.map_eq_some_iff.1 ho
    exact ⟨w, hw⟩

/-- **The accounting is exact, whenever nothing is in progress, iff each step was proper.** -/
theorem accounted_iff (h : Run step start tr σ) (hq : σ.Quiet) :
    Accounted tr σ ↔ ∀ p ∈ tr, p.1.proper p.2 = true := by
  have hpool := poolSize_add_failures h hq
  rw [← failures_eq_zero]
  refine ⟨fun ha ↦ ?_, fun hf ↦ ?_⟩
  · have hexact := ha.poolSize
    omega
  · rw [hf] at hpool
    have hexact : σ.poolSize = σ.alive := (Int.add_zero _).symm.trans hpool
    refine ⟨hexact, hexact ▸ Int.natCast_nonneg _, fun n hn ↦ ?_, fun n m t hn hm ↦ ?_,
      fun t d hd hp ↦ ?_, fun t d hd hp hnone ↦ ?_⟩
    · rw [pushed_getElem? h] at hn
      split at hn
      · obtain ⟨⟨t, o⟩, ht, rfl⟩ := Option.map_eq_some_iff.1 hn
        exact .inr ⟨t, ended_of_taken h hq ht⟩
      · rename_i hge
        exact .inl ⟨Nat.le_of_not_lt hge, hn⟩
    · exact Nat.le_antisymm (hm.last n none hn.taken) (hn.last m none hm.taken)
    · have hgone : σ.isGone t = true := by
        rw [isGone, hd, Option.any_some, hp]
        rfl
      obtain ⟨n, hn⟩ := (requests h).of_gone t hgone
      exact ⟨n, ended_of_taken h hq hn⟩
    · have hexit := hq.exits d (mem_of_getElem? hd) hp
      have hloop : d.pc.inLoop = true := by
        cases hpc : d.pc with
        | start | popping | resuming i => rfl
        | broken | counted =>
            rw [hpc] at hexit
            cases hexit.1
        | returned | cancelled =>
            rw [hpc] at hp
            cases hp
      obtain ⟨as, q, hr, has⟩ := eq_append_cons_of_mem hnone
      obtain ⟨σ', e, hw, rfl, he, hend⟩ := walks_returned has hr hd hloop
      exact ⟨σ', e, as, hw, hr, has, he, hend⟩

/-- Two workers, one of which takes an instance and a kill request; the other is killed. -/
def killedOnce : List Label :=
  [.new, .newAdd 0, .new, .enter 0, .newAdd 1, .push 7, .kill, .take 0, .kill, .resumed 0, .take 0,
    .leave 0, .rawkill 1, .finish 0, .rawkillAdd 1, .rawkillMark 1, .die 1]

theorem accounted_iff_killedOnce : ∃ σ, exec step start killedOnce = some σ ∧
    (Accounted (execTrace step start killedOnce) σ ↔
      ∀ p ∈ execTrace step start killedOnce, p.1.proper p.2 = true) := by
  have hs : exec step start killedOnce = some ⟨0, [⟨.done, false, .returned, false, true, false⟩,
    ⟨.pending, true, .cancelled, true, true, false⟩], [none], []⟩ := by decide
  exact ⟨_, hs, accounted_iff (.of_exec hs) ⟨rfl, by decide⟩⟩

/-- A worker ends after a kill request, and then is killed. -/
def killedTwice : List Label :=
  [.new, .newAdd 0, .enter 0, .kill, .take 0, .leave 0, .finish 0,
    .rawkill 0, .rawkillAdd 0, .rawkillMark 0]

/-- **The accounting is not exact in general**: the counter gets negative. -/
theorem not_accounted : ¬ ∀ (tr : List (State × Label)) (σ : State),
    Run step start tr σ → σ.Quiet → Accounted tr σ := by
  intro h
  have hs : exec step start killedTwice =
    some ⟨-1, [⟨.done, true, .returned, false, true, false⟩], [], []⟩ := by decide
  exact absurd (h _ _ (.of_exec hs) ⟨rfl, by decide⟩).nonneg (by decide)

end State

end Leda.Kernel.Workers
