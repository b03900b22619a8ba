import Leda.Lib.Bytes
import Leda.Lua.Constructor

/-!
# The time window

In every period the stage takes the events that are pending from its queue, puts them into a
table, and pushes it.  It asks for an event with `leda.debug.get_event`, makes a table of what
this returns, and takes the table for an event if its length is positive.

If the queue is empty, `get_event` returns `nil` and a message.  The table of these two has
two borders, `0` and `2`, and in Lua 5.1 its length is `2`: it passes for an event, the next
one as well, and the loop never ends (`drain_eq_none`, `not_drains`).  If the length is `0`
the loop ends there, but then it also ends at an event whose table has no length, as has that
of an event without arguments.  The queue is drained exactly if the length of the empty answer
is `0` and those of the events are not (`drains_iff`).
-/

namespace Leda.Stage.Window

open List Leda.Lua

/-- The arguments of an event. -/
abbrev Event := List Value

/-- What `get_event` returns if no event is pending. -/
def noEvent : List Value := [.nil, .string (Lib.ascii "No pending events available")]

/-- `instance_peek_for_event`, as `leda.debug.get_event`: what it returns, and the queue. -/
def getEvent : List Event → List Value × List Event
  | [] => (noEvent, [])
  | e :: queue => (e, queue)

/-- The inner loop, with the table `event` and what `buf` holds, for at most `n` tests. -/
def drain (L : ConstructorLength) :
    Nat → List Value → List Event → List (List Value) → Option (List (List Value) × List Event)
  | 0, _, _, _ => none
  | n + 1, event, queue, buf =>
    if L.len event > 0 then drain L n (getEvent queue).1 (getEvent queue).2 (buf ++ [event])
    else some (buf, queue)

/-- One period of the handler, from the end of the sleep to the push: what is pushed, and the
queue. -/
def period (L : ConstructorLength) (n : Nat) (queue : List Event) :
    Option (List (List Value) × List Event) :=
  drain L n (getEvent queue).1 (getEvent queue).2 []

/-- **The queue is drained**: the loop ends, the events were pushed in order, and none is
left. -/
def Drains (L : ConstructorLength) (queue : List Event) : Prop :=
  ∃ n, period L n queue = some (queue, [])

section

variable {L : ConstructorLength} {queue : List Event} {event : List Value}
variable {buf : List (List Value)} {r : List (List Value) × List Event} {n : Nat}

/-- **If the empty answer passes for an event, the loop does not end** at an empty queue. -/
theorem drain_eq_none (h : L.len noEvent > 0) (n : Nat) (buf : List (List Value)) :
    drain L n noEvent [] buf = none := by
  induction n generalizing buf with
  | zero => rfl
  | succ n ih =>
      rw [drain, if_pos h]
      exact ih _

/-- Events that have a length are taken, and then it depends on the empty answer. -/
theorem drain_append (he : ∀ e ∈ queue, L.len e > 0) (n : Nat) (buf : List (List Value)) :
    drain L (n + queue.length) (getEvent queue).1 (getEvent queue).2 buf =
      drain L n noEvent [] (buf ++ queue) := by
  induction queue generalizing buf with
  | nil => rw [append_nil]; rfl
  | cons e queue ih =>
      obtain ⟨hlen, he⟩ := forall_mem_cons.1 he
      change drain L (n + queue.length + 1) e queue buf = _
      rw [drain, if_pos hlen, ih he, append_assoc, singleton_append]

/-- **If the loop has taken all events**, they all had a length, and the empty answer none. -/
theorem drain_eq_some (h : drain L n (getEvent queue).1 (getEvent queue).2 buf = some r)
    (hr : r.1 = buf ++ queue) : L.len noEvent = 0 ∧ ∀ e ∈ queue, L.len e ≠ 0 := by
  induction queue generalizing n buf with
  | nil =>
      refine ⟨?_, by simp⟩
      by_contra h0
      change drain L n noEvent [] buf = some r at h
      rw [drain_eq_none (Nat.pos_of_ne_zero h0)] at h
      cases h
  | cons e queue ih =>
      cases n with
      | zero => cases h
      | succ n =>
          change drain L (n + 1) e queue buf = some r at h
          rw [drain] at h
          split at h
          · rename_i hlen
            obtain ⟨h0, he⟩ := ih h (by rw [hr, append_assoc, singleton_append])
            exact ⟨h0, forall_mem_cons.2 ⟨Nat.pos_iff_ne_zero.1 hlen, he⟩⟩
          · -- the event stops the loop and is lost
            cases h
            simp at hr

/-- A queue that is drained: the empty answer stops the loop, and no event does. -/
theorem Drains.len (h : Drains L queue) : L.len noEvent = 0 ∧ ∀ e ∈ queue, L.len e ≠ 0 := by
  obtain ⟨n, h⟩ := h
  exact drain_eq_some h rfl

/-- **The queue is drained exactly if** the length of the empty answer is `0` and that of every
pending event is not. -/
theorem drains_iff (L : ConstructorLength) (queue : List Event) :
    Drains L queue ↔ L.len noEvent = 0 ∧ ∀ e ∈ queue, L.len e ≠ 0 := by
  constructor
  · exact Drains.len
  · rintro ⟨h0, he⟩
    refine ⟨1 + queue.length, ?_⟩
    rw [period, drain_append (fun e hm ↦ Nat.pos_of_ne_zero (he e hm)), drain, if_neg (by omega),
      nil_append]

/-- An event without arguments is never drained. -/
theorem not_drains_of_nil (h : [] ∈ queue) : ¬ Drains L queue :=
  fun hd ↦ hd.len.2 [] h L.len_nil

/-- **In Lua 5.1 no queue is drained.** -/
theorem not_drains (queue : List Event) : ¬ Drains lua51 queue := by
  intro h
  have h0 := h.len.1
  have h2 : lua51.len noEvent = 2 := by
    change luaH_getn noEvent = 2
    rw [noEvent]
    exact luaH_getn_nil_cons (by simp)
  omega

/-- One event is pending, and the loop goes on without end. -/
theorem not_drains_one : (∀ n, period lua51 n [[.boolean true]] = none) ∧
    ¬ Drains lua51 [[.boolean true]] := by
  have hnone : ∀ n, period lua51 n [[.boolean true]] = none := by
    intro n
    cases n with
    | zero => rfl
    | succ n => exact drain_eq_none (by decide) n _
  refine ⟨hnone, ?_⟩
  rintro ⟨n, hn⟩
  rw [hnone] at hn
  cases hn

end

end Leda.Stage.Window
