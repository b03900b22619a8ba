import Leda.Queue.Order
import Leda.Lib.Wakeup

/-!
# Sleepers of the locked queue

A thread blocked in `queue_pop` is forgotten if elements stand in the list that no
woken thread will come for, and a thread blocked in `queue_push` is forgotten if
slots are free that no woken thread will fill.  `NotForgotten` says that neither
happens; both halves are the same statement about a waiting room, `Wakeups.Cover`,
with the elements of the list as the work of the poppers and the free slots as the
work of the pushers.  A slot is free if `size`, which the pushers compare with the
capacity, is below the capacity; as long as the list is in order, that is every
slot of the list that is empty, and one more for every popper that is being served
(`Linked.free_le_freeSlots`).

`queue.c` signals only when an insertion takes the list for empty and when a
removal takes it for full.  Between the transition and the moment the woken thread
runs, a second insertion or removal adds work without a wake-up.  So the property
holds exactly as long as every such silent step finds a wake-up to spare
(`wakeups_iff`), and two blocked poppers with two pushes are enough to break it
(`popper_forgotten`).
-/

universe u v

namespace Leda.Queue

open Leda.Lib

variable {T : Type u} {α : Type v}

/-! ## The two waiting rooms -/

/-- The waiting room of a condition variable. -/
def room (ws : List (Waiter T)) (pending : Nat) : Wakeups where
  sleeping := ws.countP fun w ↦ !w.woken
  woken := ws.countP fun w ↦ w.woken
  pending := pending

namespace State

/-- The calls of `SIGNAL_ONE` that are still to be made on a condition variable. -/
def pending (σ : State T α) (s : Signal) : Nat := σ.signals.countP fun x ↦ x.2 = s

/-- The waiting room of either condition variable. -/
def waiting (σ : State T α) : Signal → Wakeups
  | .emptyQueue => room σ.emptyQueue (σ.pending .emptyQueue)
  | .fullQueue => room (σ.fullQueue.map Prod.fst) (σ.pending .fullQueue)

/-- The threads blocked in `queue_pop`. -/
def poppers (σ : State T α) : Wakeups := σ.waiting .emptyQueue

/-- The threads blocked in `queue_push`. -/
def pushers (σ : State T α) : Wakeups := σ.waiting .fullQueue

/-- The insertions `queue_push` would let pass before it blocks. -/
def freeSlots (σ : State T α) : Int := σ.q.capacity - σ.q.size

end State

/-- **No sleeper is forgotten**: neither a popper beside an element nor a pusher
beside a free slot. -/
def NotForgotten (σ : State T α) : Prop :=
  (∃ as, Chain σ.mem σ.q.head as ∧ σ.poppers.Cover as.length) ∧ σ.pushers.Cover σ.freeSlots

/-- There is a wake-up to spare for one more element behind those in the list. -/
def SparePopper (σ : State T α) : Prop :=
  ∀ as, Chain σ.mem σ.q.head as → as ≠ [] → σ.poppers.Cover (as.length + 1)

/-- There is a wake-up to spare for one more free slot. -/
def SparePusher (σ : State T α) : Prop := σ.pushers.Cover (σ.freeSlots + 1)

/-- The tests after which a pop calls `SIGNAL_ONE(&q->full_queue)` for the slot it
has just freed. -/
def SignalsFull (σ : State T α) : Prop :=
  σ.q.head ≠ 0 ∧ 0 < σ.q.capacity ∧ σ.q.size = σ.q.capacity

/-- The step signals the work it adds, adds none, or finds a wake-up to spare. -/
def Spare (σ : State T α) : Label T α → Prop
  | .push _ _ _ =>
      (0 ≤ σ.q.capacity ∧ σ.q.size = σ.q.capacity) ∨ σ.q.tail = 0 ∨ SparePopper σ
  | .resumePush _ _ => σ.q.size = σ.q.capacity ∨ σ.q.tail = 0 ∨ SparePopper σ
  | .tryPush _ _ _ =>
      (0 ≤ σ.q.capacity ∧ σ.q.size = σ.q.capacity) ∨ σ.q.size ≤ 0 ∨ SparePopper σ
  | .pop _ => SignalsFull σ ∨ SparePusher σ
  | .tryPop _ => σ.q.size ≤ 0 ∨ SignalsFull σ ∨ SparePusher σ
  | _ => True

/-- As long as the list is in order, the empty places of the list are free slots. -/
theorem Linked.free_le_freeSlots {σ : State T α} {as : List Nat} (h : Linked 0 σ as) :
    σ.q.capacity - as.length ≤ σ.freeSlots := by
  have hsize := h.size_eq
  unfold State.freeSlots
  omega

/-! ## What happens to a room -/

namespace room

variable {ws : List (Waiter T)} {n m : Nat} {work : Int} {t : T}

variable [DecidableEq T]

/-- Waking turns sleepers into woken threads. -/
theorem wake (ws : List (Waiter T)) (t : T) (n : Nat) :
    ∃ k, (room (ws.map fun w ↦ if w.thread = t then ⟨t, true⟩ else w) n).sleeping + k =
        (room ws n).sleeping ∧
      (room (ws.map fun w ↦ if w.thread = t then ⟨t, true⟩ else w) n).woken =
        (room ws n).woken + k ∧
      (⟨t, false⟩ ∈ ws → 0 < k) := by
  induction ws with
  | nil => exact ⟨0, rfl, rfl, by simp⟩
  | cons w ws ih =>
      obtain ⟨k, hs, hw, hk⟩ := ih
      obtain ⟨u, b⟩ := w
      simp only [room, List.map_cons, List.countP_cons] at hs hw ⊢
      by_cases hu : u = t
      · subst hu
        cases b with
        | true =>
            refine ⟨k, ?_, ?_, fun hm ↦ hk (by simpa using hm)⟩
            · simpa using hs
            · simp only [if_true]; omega
        | false =>
            refine ⟨k + 1, ?_, ?_, fun _ ↦ by omega⟩
            · simp only [if_true, Bool.not_true, Bool.false_eq_true, if_false, Bool.not_false]
              omega
            · simp only [if_true, Bool.false_eq_true, if_false]
              omega
      · refine ⟨k, ?_, ?_, fun hm ↦ hk ?_⟩
        · rw [if_neg hu]; simp only; omega
        · rw [if_neg hu]; simp only; omega
        · rcases List.mem_cons.1 hm with hm | hm
          · exact absurd (congrArg Waiter.thread hm).symm hu
          · exact hm

/-- A woken thread leaves. -/
theorem leave (h : ⟨t, true⟩ ∈ ws) (n : Nat) :
    (room (ws.erase ⟨t, true⟩) n).sleeping = (room ws n).sleeping ∧
      (room (ws.erase ⟨t, true⟩) n).woken + 1 = (room ws n).woken := by
  have hperm := List.perm_cons_erase h
  constructor
  · simp only [room, hperm.countP_eq]
    simp
  · simp only [room, hperm.countP_eq]
    simp

end room

/-! ## The invariant -/

/-- Who is blocked in `queue_push`. -/
def blockedPushers (σ : State T α) : List T := (σ.fullQueue.map Prod.fst).map Waiter.thread

/-- What the runs with a wake-up to spare keep. -/
structure Watched (σ : State T α) : Prop where
  poppers : ∃ as, Strung σ as ∧ σ.poppers.Cover as.length
  pushers : σ.pushers.Cover σ.freeSlots
  /-- Nobody is blocked in `queue_push` twice. -/
  nodup : (blockedPushers σ).Nodup

/-- A watched queue forgets nobody. -/
theorem Watched.notForgotten {σ : State T α} (h : Watched σ) : NotForgotten σ := by
  obtain ⟨as, has, hcover⟩ := h.poppers
  exact ⟨⟨as, has.chain, hcover⟩, h.pushers⟩

/-- A fresh queue is watched: nobody sleeps. -/
theorem watched_queueNew [Inhabited α] (c : Int) : Watched (State.queueNew c : State T α) where
  poppers := ⟨[], ⟨.nil, by simp, fun h ↦ absurd rfl h⟩, Wakeups.Cover.lost rfl⟩
  pushers := Wakeups.Cover.lost rfl
  nodup := List.nodup_nil

section Insertion

variable {σ σ' : State T α} {empty : Bool} {t : T} {v : α} {el : Nat}

/-- An insertion leaves the sleeping pushers alone and uses up a slot. -/
theorem insertElement_pushers (hs : σ.insertElement empty t v el = some σ') :
    σ'.pushers = σ.pushers ∧ σ'.freeSlots = σ.freeSlots - 1 := by
  obtain ⟨hsize, hcap, -, -, -, hfull, -, hsig⟩ := State.insertElement_counts hs
  constructor
  · unfold State.pushers State.waiting State.pending
    simp only
    rw [hfull, hsig]
    cases empty <;> simp
  · unfold State.freeSlots
    rw [hsize, hcap]
    omega

/-- It is signalled iff its own test calls the list empty. -/
theorem insertElement_poppers (hs : σ.insertElement empty t v el = some σ') :
    σ'.poppers = ⟨σ.poppers.sleeping, σ.poppers.woken,
      if empty then σ.poppers.pending + 1 else σ.poppers.pending⟩ := by
  obtain ⟨-, -, -, -, hpop, -, -, hsig⟩ := State.insertElement_counts hs
  unfold State.poppers State.waiting State.pending room
  simp only
  rw [hpop, hsig]
  cases empty <;> simp

/-- **Insertion and the poppers**: they stay covered iff the insertion is signalled
or there is a wake-up to spare. -/
theorem insertElement_covers {as : List Nat} (has : Strung σ as)
    (hcover : σ.poppers.Cover as.length) (hs : σ.insertElement empty t v el = some σ') :
    (empty = true ∨ SparePopper σ → ∃ bs, Strung σ' bs ∧ σ'.poppers.Cover bs.length) ∧
      (¬ (empty = true ∨ SparePopper σ) →
        ¬ ∃ bs, Chain σ'.mem σ'.q.head bs ∧ σ'.poppers.Cover bs.length) := by
  have hpop := insertElement_poppers hs
  cases empty with
  | true =>
      refine ⟨fun _ ↦ ⟨[el], Strung.insertElement_alone hs, ?_⟩, fun hn ↦ absurd (.inl rfl) hn⟩
      rw [hpop]
      have hnone : σ.poppers.Cover 0 := hcover.mono (by omega) le_rfl le_rfl le_rfl
      exact hnone.signal rfl rfl rfl
  | false =>
      simp only [Bool.false_eq_true, if_false, false_or] at hpop ⊢
      by_cases hne : as = []
      · subst hne
        have hbs : Strung σ' [] := has.insertElement_unreachable hs
        refine ⟨fun _ ↦ ⟨[], hbs, Wakeups.Cover.of_no_work le_rfl⟩, fun hn ↦ ?_⟩
        exact absurd (fun bs hbs hne ↦ absurd (hbs.unique has.chain) hne) hn
      · have hbs : Strung σ' (as ++ [el]) := (has.insertElement_append hne hs).1
        have hlen : ((as ++ [el]).length : Int) = as.length + 1 := by simp
        constructor
        · intro hspare
          refine ⟨_, hbs, ?_⟩
          rw [hpop, hlen]
          exact hspare as has.chain hne
        · rintro hn ⟨cs, hcs, hcover'⟩
          obtain rfl := hcs.unique hbs.chain
          refine hn fun ds hds _ ↦ ?_
          obtain rfl := hds.unique has.chain
          rw [hpop, hlen] at hcover'
          exact hcover'

end Insertion

/-- A removal changes neither the sleeping poppers nor the slots already counted,
and shortens the list; it adds a signal if its test finds that the list was full. -/
theorem removeHead_rooms (σ : State T α) (t : T) :
    (σ.removeHead t).poppers = σ.poppers ∧
      (σ.removeHead t).freeSlots = σ.freeSlots ∧
      (σ.removeHead t).fullQueue = σ.fullQueue ∧
      (σ.removeHead t).pushers = ⟨σ.pushers.sleeping, σ.pushers.woken,
        if σ.q.head ≠ 0 ∧ 0 < σ.q.capacity ∧ σ.q.size + 1 = σ.q.capacity then
          σ.pushers.pending + 1
        else σ.pushers.pending⟩ := by
  unfold State.removeHead
  by_cases hhead : σ.q.head = 0
  · rw [if_pos hhead, if_neg fun h ↦ h.1 hhead]
    exact ⟨rfl, rfl, rfl, rfl⟩
  · rw [if_neg hhead]
    by_cases hfull : 0 < σ.q.capacity ∧ σ.q.size + 1 = σ.q.capacity
    · rw [if_pos hfull, if_pos ⟨hhead, hfull⟩]
      refine ⟨?_, rfl, rfl, ?_⟩
      · simp [State.poppers, State.waiting, State.pending]
      · simp [State.pushers, State.waiting, State.pending, room]
    · rw [if_neg hfull, if_neg fun h ↦ hfull h.2]
      exact ⟨rfl, rfl, rfl, rfl⟩

/-- The list loses its head if it has one. -/
theorem removeHead_strung {σ : State T α} {as : List Nat} (t : T) (h : Strung σ as) :
    ∃ bs, Strung (σ.removeHead t) bs ∧ bs.length ≤ as.length - 1 := by
  cases as with
  | nil =>
      refine ⟨[], ?_, le_rfl⟩
      rw [State.removeHead, if_pos (h.eq_nil_iff.1 rfl)]
      exact h.frame rfl rfl rfl rfl
  | cons a as => exact ⟨as, (h.removeHead t).1, by simp⟩

/-- The state of a pop that has been counted and has not looked at the list. -/
def State.counted (σ : State T α) : State T α := { σ with q := { σ.q with size := σ.q.size - 1 } }

/-- A counted pop is one more free slot. -/
theorem counted_freeSlots (σ : State T α) : σ.counted.freeSlots = σ.freeSlots + 1 := by
  simp only [State.counted, State.freeSlots]
  omega

/-- **Removal and the pushers**: they stay covered iff the removal is signalled or
there is a wake-up to spare. -/
theorem removeHead_covers {σ : State T α} (t : T) (h : σ.pushers.Cover σ.freeSlots) :
    (σ.counted.removeHead t).pushers.Cover (σ.counted.removeHead t).freeSlots ↔
      SignalsFull σ ∨ SparePusher σ := by
  obtain ⟨-, hfree, -, hpush⟩ := removeHead_rooms σ.counted t
  have hsig : (σ.counted.q.head ≠ 0 ∧ 0 < σ.counted.q.capacity ∧
      σ.counted.q.size + 1 = σ.counted.q.capacity) ↔ SignalsFull σ := by
    simp only [State.counted, SignalsFull]
    constructor
    · rintro ⟨hhead, hcap, hsize⟩
      exact ⟨hhead, hcap, by omega⟩
    · rintro ⟨hhead, hcap, hsize⟩
      exact ⟨hhead, hcap, by omega⟩
  rw [hfree, counted_freeSlots, hpush]
  by_cases hfull : SignalsFull σ
  · rw [if_pos (hsig.2 hfull)]
    exact iff_of_true (h.signal rfl rfl rfl) (.inl hfull)
  · rw [if_neg fun hc ↦ hfull (hsig.1 hc)]
    exact ⟨.inr, fun hc ↦ hc.resolve_left hfull⟩

/-- The sleepers a signal can reach are the ones the room counts. -/
theorem sleeping_eq (σ : State T α) (c : Signal) :
    (σ.waiting c).sleeping = (σ.sleepers c).length := by
  cases c with
  | emptyQueue => simp [State.waiting, room, State.sleepers, List.countP_eq_length_filter]
  | fullQueue =>
      simp [State.waiting, room, State.sleepers, List.countP_eq_length_filter, List.filter_map,
        Function.comp_def]

/-- An insertion when the pushers cover the slots it leaves free. -/
theorem insertElement_watched {σ σ' : State T α} {empty : Bool} {t : T} {v : α} {el : Nat}
    (hs : σ.insertElement empty t v el = some σ')
    (hpop : ∃ as, Strung σ as ∧ σ.poppers.Cover as.length)
    (hpush : σ.pushers.Cover (σ.freeSlots - 1)) (hnodup : (blockedPushers σ).Nodup) :
    (empty = true ∨ SparePopper σ → Watched σ') ∧
      (¬ (empty = true ∨ SparePopper σ) → ¬ NotForgotten σ') := by
  obtain ⟨as, has, hcover⟩ := hpop
  obtain ⟨hkeep, hbreak⟩ := insertElement_covers has hcover hs
  obtain ⟨hsame, hfree⟩ := insertElement_pushers hs
  obtain ⟨-, -, -, -, -, hfull, -⟩ := State.insertElement_counts hs
  refine ⟨fun hc ↦ ⟨hkeep hc, ?_, ?_⟩, fun hn hnf ↦ hbreak hn hnf.1⟩
  · rw [hsame, hfree]
    exact hpush
  · unfold blockedPushers
    rw [hfull]
    exact hnodup

/-- An insertion into a watched queue. -/
theorem Watched.insertElement {σ σ' : State T α} {empty : Bool} {t : T} {v : α} {el : Nat}
    (h : Watched σ) (hs : σ.insertElement empty t v el = some σ') :
    (empty = true ∨ SparePopper σ → Watched σ') ∧
      (¬ (empty = true ∨ SparePopper σ) → ¬ NotForgotten σ') :=
  insertElement_watched hs h.poppers (h.pushers.mono (by omega) le_rfl le_rfl le_rfl) h.nodup

/-- The removal of a counted pop. -/
theorem Watched.removeHead {σ : State T α} (h : Watched σ) (t : T) :
    (SignalsFull σ ∨ SparePusher σ → Watched (σ.counted.removeHead t)) ∧
      (¬ (SignalsFull σ ∨ SparePusher σ) → ¬ NotForgotten (σ.counted.removeHead t)) := by
  obtain ⟨as, has, hcover⟩ := h.poppers
  have has' : Strung σ.counted as := has.frame rfl rfl rfl rfl
  obtain ⟨bs, hbs, hlen⟩ := removeHead_strung t has'
  obtain ⟨hpop, -, hfull, -⟩ := removeHead_rooms σ.counted t
  refine ⟨fun hc ↦ ⟨⟨bs, hbs, ?_⟩, (removeHead_covers t h.pushers).2 hc, ?_⟩, fun hn hnf ↦ ?_⟩
  · rw [hpop]
    exact hcover.mono (by omega) le_rfl le_rfl le_rfl
  · unfold blockedPushers
    rw [hfull]
    exact h.nodup
  · exact hn ((removeHead_covers t h.pushers).1 hnf.2)

/-- A pop of an empty list waits: no element is there to be forgotten, but a slot became free. -/
theorem Watched.popWaits {σ : State T α} (h : Watched σ) (hhead : σ.q.head = 0) (t : T) :
    (SignalsFull σ ∨ SparePusher σ →
        Watched { σ.counted with emptyQueue := σ.emptyQueue ++ [⟨t, false⟩] }) ∧
      (¬ (SignalsFull σ ∨ SparePusher σ) →
        ¬ NotForgotten { σ.counted with emptyQueue := σ.emptyQueue ++ [⟨t, false⟩] }) := by
  have hlist : Strung σ [] := by
    obtain ⟨as, has, -⟩ := h.poppers
    rwa [has.eq_nil_iff.2 hhead] at has
  have hfree := counted_freeSlots σ
  simp only [State.counted] at hfree
  refine ⟨fun hc ↦ ⟨⟨[], hlist.frame rfl rfl rfl rfl, ?_⟩, ?_, h.nodup⟩, fun hn hnf ↦ ?_⟩
  · exact Wakeups.Cover.of_no_work le_rfl
  · have hspare : SparePusher σ := hc.resolve_left fun hf ↦ hf.1 hhead
    unfold SparePusher at hspare
    rw [← hfree] at hspare
    exact hspare
  · have hcover := hnf.2
    refine hn (.inr ?_)
    unfold SparePusher
    rw [← hfree]
    exact hcover

variable [DecidableEq T]

/-- What waking a thread does to either waiting room. -/
theorem wake_waiting (σ : State T α) (t : T) (c : Signal) :
    ∃ k, ((σ.wake t).waiting c).sleeping + k = (σ.waiting c).sleeping ∧
      ((σ.wake t).waiting c).woken = (σ.waiting c).woken + k ∧
      ((σ.wake t).waiting c).pending = (σ.waiting c).pending ∧
      (t ∈ σ.sleepers c → 0 < k) := by
  cases c with
  | emptyQueue =>
      obtain ⟨k, hs, hw, hk⟩ := room.wake σ.emptyQueue t (σ.pending .emptyQueue)
      refine ⟨k, hs, hw, rfl, fun hm ↦ hk ?_⟩
      obtain ⟨⟨u, b⟩, hu, rfl⟩ := List.mem_map.1 hm
      obtain ⟨hu, hb⟩ := List.mem_filter.1 hu
      obtain rfl : b = false := by simpa using hb
      exact hu
  | fullQueue =>
      have hmap : (σ.wake t).fullQueue.map Prod.fst =
          (σ.fullQueue.map Prod.fst).map fun w ↦ if w.thread = t then ⟨t, true⟩ else w := by
        simp only [State.wake, List.map_map]
        refine List.map_congr_left fun w _ ↦ ?_
        simp only [Function.comp_apply]
        split <;> rfl
      obtain ⟨k, hs, hw, hk⟩ :=
        room.wake (σ.fullQueue.map Prod.fst) t (σ.pending .fullQueue)
      rw [← hmap] at hs hw
      refine ⟨k, hs, hw, rfl, fun hm ↦ hk ?_⟩
      obtain ⟨⟨⟨u, b⟩, v⟩, hu, rfl⟩ := List.mem_map.1 hm
      obtain ⟨hu, hb⟩ := List.mem_filter.1 hu
      obtain rfl : b = false := by simpa using hb
      exact List.mem_map.2 ⟨_, hu, rfl⟩

/-- Waking somebody covers no less than before. -/
theorem wake_covers {σ : State T α} (t : T) {c : Signal} {work : Int}
    (h : (σ.waiting c).Cover work) : ((σ.wake t).waiting c).Cover work := by
  obtain ⟨k, hs, hw, hp, -⟩ := wake_waiting σ t c
  exact h.mono le_rfl (by omega) (by omega) (by omega)

/-- **A signal is only spent on a sleeper**, or if nobody sleeps. -/
theorem signalOne_covers {σ σ' : State T α} {t : T} {w : Option T}
    (hs : σ.signalOne t w = some σ') {c : Signal} {work : Int}
    (h : (σ.waiting c).Cover work) : (σ'.waiting c).Cover work := by
  obtain ⟨s, hmem, hcases⟩ := State.signalOne_cases hs
  generalize hσ₁ : { σ with signals := σ.signals.erase s } = σ₁ at hcases
  have hsleep : (σ₁.waiting c).sleeping = (σ.waiting c).sleeping := by
    subst hσ₁; cases c <;> rfl
  have hwoken : (σ₁.waiting c).woken = (σ.waiting c).woken := by
    subst hσ₁; cases c <;> rfl
  have hpend : (σ₁.waiting c).pending + (if s.2 = c then 1 else 0) = (σ.waiting c).pending := by
    have hcount := (List.perm_cons_erase hmem).countP_eq fun x ↦ x.2 = c
    rw [List.countP_cons] at hcount
    subst hσ₁
    cases c <;> simpa [State.waiting, State.pending, room] using hcount.symm
  by_cases hc : s.2 = c
  · -- the signal is for this room
    subst hc
    rw [if_pos rfl] at hpend
    rcases hcases with ⟨hnobody, rfl⟩ | ⟨u, hu, rfl⟩
    · refine Wakeups.Cover.lost ?_
      rw [hsleep, sleeping_eq, hnobody]
      rfl
    · obtain ⟨k, hs, hw, hp, hk⟩ := wake_waiting σ₁ u s.2
      have hu' : u ∈ σ₁.sleepers s.2 := by subst hσ₁; exact hu
      exact h.deliver (hk hu') (by omega) (by omega) (by omega)
  · rw [if_neg hc] at hpend
    have h₁ : (σ₁.waiting c).Cover work := h.mono le_rfl (by omega) (by omega) (by omega)
    rcases hcases with ⟨-, rfl⟩ | ⟨u, -, rfl⟩
    · exact h₁
    · exact wake_covers u h₁

/-- Waking does not change who is blocked. -/
theorem wake_blockedPushers (σ : State T α) (t : T) :
    blockedPushers (σ.wake t) = blockedPushers σ := by
  simp only [blockedPushers, State.wake, List.map_map]
  refine List.map_congr_left fun w _ ↦ ?_
  simp only [Function.comp_apply]
  split <;> simp_all

/-- Waking keeps a queue watched. -/
theorem Watched.wake {σ : State T α} (h : Watched σ) (t : T) : Watched (σ.wake t) where
  poppers := by
    obtain ⟨as, has, hcover⟩ := h.poppers
    exact ⟨as, has.frame rfl rfl rfl rfl, wake_covers t hcover⟩
  pushers := wake_covers t h.pushers
  nodup := by
    rw [wake_blockedPushers]
    exact h.nodup

/-- So does a signal. -/
theorem Watched.signalOne {σ σ' : State T α} {t : T} {w : Option T} (h : Watched σ)
    (hs : σ.signalOne t w = some σ') : Watched σ' := by
  obtain ⟨as, has, hcover⟩ := h.poppers
  have hpop : σ'.poppers.Cover as.length := signalOne_covers hs hcover
  have hpush : σ'.pushers.Cover σ.freeSlots := signalOne_covers hs h.pushers
  obtain ⟨s, -, ⟨-, rfl⟩ | ⟨u, -, rfl⟩⟩ := State.signalOne_cases hs
  · exact ⟨⟨as, has.frame rfl rfl rfl rfl, hpop⟩, hpush, h.nodup⟩
  · refine ⟨⟨as, has.frame rfl rfl rfl rfl, hpop⟩, hpush, ?_⟩
    rw [wake_blockedPushers]
    exact h.nodup

/-- A pusher that comes back and goes through: it takes its own wake-up with it. -/
theorem resumePush_leaves {σ : State T α} {w : Waiter T} {v : α} {t : T}
    (h : Watched σ) (hfind : (σ.fullQueue.find? fun x ↦ x.1 = ⟨t, true⟩) = some (w, v)) :
    let σ₁ := { σ with fullQueue := σ.fullQueue.filter fun x ↦ x.1 ≠ w }
    σ₁.pushers.Cover (σ₁.freeSlots - 1) ∧ (blockedPushers σ₁).Nodup := by
  have hmem : (w, v) ∈ σ.fullQueue := List.mem_of_find?_eq_some hfind
  have hw : w = ⟨t, true⟩ := by simpa using List.find?_some hfind
  have hnodup : (σ.fullQueue.map Prod.fst).Nodup := h.nodup.of_map _
  have hfilter : (σ.fullQueue.filter fun x ↦ x.1 ≠ w).map Prod.fst =
      (σ.fullQueue.map Prod.fst).erase w := by
    rw [hnodup.erase_eq_filter, List.filter_map]
    congr 1
    refine List.filter_congr fun x _ ↦ ?_
    by_cases hx : x.1 = w <;> simp [hx]
  have hleave : ⟨t, true⟩ ∈ σ.fullQueue.map Prod.fst := hw ▸ List.mem_map.2 ⟨_, hmem, rfl⟩
  obtain ⟨hs, hwk⟩ := room.leave hleave (σ.pending .fullQueue)
  intro σ₁
  subst hw
  constructor
  · have hroom : σ₁.pushers =
        room ((σ.fullQueue.map Prod.fst).erase ⟨t, true⟩) (σ.pending .fullQueue) := by
      rw [← hfilter]; rfl
    have hcover : σ.pushers.Cover (σ.freeSlots - 1 + 1) := by simpa using h.pushers
    rw [hroom]
    exact hcover.take hs hwk rfl
  · unfold blockedPushers
    rw [hfilter]
    exact h.nodup.sublist ((List.erase_sublist).map _)

/-- A push that blocks finds no free slot. -/
theorem Watched.block {σ : State T α} (h : Watched σ) {t : T} (v : α) (hidle : σ.idle t = true)
    (hfull : σ.q.size = σ.q.capacity) :
    Watched { σ with fullQueue := σ.fullQueue ++ [(⟨t, false⟩, v)] } where
  poppers := by
    obtain ⟨as, has, hcover⟩ := h.poppers
    exact ⟨as, has.frame rfl rfl rfl rfl, hcover⟩
  pushers := by
    refine Wakeups.Cover.of_no_work ?_
    simp only [State.freeSlots]
    omega
  nodup := by
    have hnew : t ∉ blockedPushers σ := by
      intro hm
      obtain ⟨w, hw, rfl⟩ := List.mem_map.1 hm
      obtain ⟨x, hx, rfl⟩ := List.mem_map.1 hw
      simp only [State.idle, Bool.and_eq_true, List.all_eq_true] at hidle
      exact absurd rfl (of_decide_eq_true (hidle.1.1 x hx))
    simp only [blockedPushers, List.map_append, List.map_cons, List.map_nil]
    exact List.nodup_append.2 ⟨h.nodup, by simp, by
      intro u hu u' hu'
      obtain rfl := List.mem_singleton.1 hu'
      rintro rfl
      exact hnew hu⟩

/-- A woken pusher that finds the queue full again lies down again. -/
theorem Watched.blockAgain {σ : State T α} (h : Watched σ) {w : Waiter T} {t : T}
    (hw : w.thread = t) (hfull : σ.q.size = σ.q.capacity) :
    Watched { σ with
      fullQueue := σ.fullQueue.map fun x ↦ if x.1 = w then (⟨t, false⟩, x.2) else x } where
  poppers := by
    obtain ⟨as, has, hcover⟩ := h.poppers
    exact ⟨as, has.frame rfl rfl rfl rfl, hcover⟩
  pushers := by
    refine Wakeups.Cover.of_no_work ?_
    simp only [State.freeSlots]
    omega
  nodup := by
    have hsame : (((σ.fullQueue.map fun x ↦ if x.1 = w then ((⟨t, false⟩ : Waiter T), x.2)
        else x).map Prod.fst).map Waiter.thread) = blockedPushers σ := by
      simp only [blockedPushers, List.map_map]
      refine List.map_congr_left fun x _ ↦ ?_
      simp only [Function.comp_apply]
      split
      · rename_i hx
        rw [hx, hw]
      · rfl
    unfold blockedPushers
    rw [hsame]
    exact h.nodup

/-- A woken popper takes the head with it. -/
theorem Watched.resumePop {σ : State T α} {t : T} (h : Watched σ)
    (hmem : ⟨t, true⟩ ∈ σ.emptyQueue) (hhead : σ.q.head ≠ 0) :
    Watched ({ σ with emptyQueue := σ.emptyQueue.erase ⟨t, true⟩ }.removeHead t) := by
  obtain ⟨as, has, hcover⟩ := h.poppers
  obtain ⟨a, bs, rfl⟩ := List.exists_cons_of_ne_nil fun e ↦ hhead (has.eq_nil_iff.1 e)
  generalize hσ₁ : { σ with emptyQueue := σ.emptyQueue.erase ⟨t, true⟩ } = σ₁
  have has₁ : Strung σ₁ (a :: bs) := by subst hσ₁; exact has.frame rfl rfl rfl rfl
  obtain ⟨hpop, hfree, hfull, hpush⟩ := removeHead_rooms σ₁ t
  refine ⟨⟨bs, (has₁.removeHead t).1, ?_⟩, ?_, ?_⟩
  · obtain ⟨hsl, hwk⟩ := room.leave hmem (σ.pending .emptyQueue)
    have hroom : σ₁.poppers = room (σ.emptyQueue.erase ⟨t, true⟩) (σ.pending .emptyQueue) := by
      subst hσ₁; rfl
    rw [hpop, hroom]
    have hcover' : σ.poppers.Cover (bs.length + 1) := by simpa using hcover
    exact hcover'.take hsl hwk rfl
  · have hpush₁ : σ₁.pushers.Cover σ₁.freeSlots := by subst hσ₁; exact h.pushers
    rw [hpush, hfree]
    refine hpush₁.mono le_rfl le_rfl le_rfl ?_
    split
    · exact Nat.le_succ _
    · exact le_rfl
  · unfold blockedPushers
    rw [hfull]
    subst hσ₁
    exact h.nodup

/-- **One step of a watched queue**: watched again if it finds a wake-up to spare,
and a sleeper is forgotten at once if it does not. -/
theorem watched_step {σ σ' : State T α} {l : Label T α} (h : Watched σ)
    (hs : step σ l = some σ') :
    (Spare σ l → Watched σ') ∧ (¬ Spare σ l → ¬ NotForgotten σ') := by
  cases step_cases hs with
  | @pushWaits _ v _ hidle hfull =>
      exact ⟨fun _ ↦ h.block v hidle hfull.2, fun hn ↦ absurd (.inl hfull) hn⟩
  | push hfull hs | tryPush hfull hs =>
      obtain ⟨hkeep, hbreak⟩ := h.insertElement hs
      simp only [decide_eq_true_eq] at hkeep hbreak
      exact ⟨fun hc ↦ hkeep (hc.resolve_left hfull), fun hn ↦ hbreak fun hc ↦ hn (.inr hc)⟩
  | @pushWaitsAgain t _ w _ hfind hfull =>
      have hw : w = ⟨t, true⟩ := by simpa using List.find?_some hfind
      refine ⟨fun _ ↦ h.blockAgain (congrArg Waiter.thread hw) hfull, fun hn ↦ ?_⟩
      exact absurd (.inl hfull) hn
  | resumePush hfind hfull hs =>
      obtain ⟨hpush, hnodup⟩ := resumePush_leaves h hfind
      obtain ⟨as, has, hcover⟩ := h.poppers
      obtain ⟨hkeep, hbreak⟩ :=
        insertElement_watched hs ⟨as, has.frame rfl rfl rfl rfl, hcover⟩ hpush hnodup
      simp only [decide_eq_true_eq] at hkeep hbreak
      exact ⟨fun hc ↦ hkeep (hc.resolve_left hfull), fun hn ↦ hbreak fun hc ↦ hn (.inr hc)⟩
  | tryPushFails hfull => exact ⟨fun _ ↦ h, fun hn ↦ absurd (.inl hfull) hn⟩
  | @popWaits t hhead => exact h.popWaits hhead t
  | @pop t => exact h.removeHead t
  | popWaitsAgain _ hhead =>
      obtain ⟨as, has, -⟩ := h.poppers
      obtain rfl := has.eq_nil_iff.2 hhead
      exact ⟨fun _ ↦ ⟨⟨[], has.frame rfl rfl rfl rfl, Wakeups.Cover.of_no_work le_rfl⟩, h.pushers,
        h.nodup⟩, fun hn ↦ absurd trivial hn⟩
  | resumePop hmem hhead => exact ⟨fun _ ↦ h.resumePop hmem hhead, fun hn ↦ absurd trivial hn⟩
  | tryPopFails hempty => exact ⟨fun _ ↦ h, fun hn ↦ absurd (.inl hempty) hn⟩
  | @tryPop t hpos =>
      obtain ⟨hkeep, hbreak⟩ := h.removeHead t
      exact ⟨fun hc ↦ hkeep (hc.resolve_left hpos), fun hn ↦ hbreak fun hc ↦ hn (.inr hc)⟩
  | signalOne hs => exact ⟨fun _ ↦ h.signalOne hs, fun hn ↦ absurd trivial hn⟩
  | @spurious t => exact ⟨fun _ ↦ h.wake t, fun hn ↦ absurd trivial hn⟩

/-- **The locked queue forgets no sleeper exactly as long as every step that adds
work without a signal finds a wake-up to spare.**  For every capacity and every
run. -/
theorem wakeups_iff [Inhabited α] (c : Int) {tr : List (State T α × Label T α)} {σ : State T α}
    (h : Run step (State.queueNew c) tr σ) :
    (∀ x ∈ visited tr σ, NotForgotten x) ↔ ∀ p ∈ tr, Spare p.1 p.2 :=
  h.forall_visited_iff (I := Watched) (watched_queueNew c)
    (fun _ _ _ hI hC hs ↦ (watched_step hI hs).1 hC) (fun _ hI ↦ hI.notForgotten)
    fun _ _ _ hI hC hs ↦ (watched_step hI hs).2 hC

/-- Two poppers block, then two values are pushed; only the first push signals. -/
def twoPushes : List (Label Nat Nat) :=
  [.pop 1, .pop 2, .push 0 7 16, .signalOne 0 (some 1), .push 0 8 24]

/-- **A second push before the woken popper runs forgets the other popper**: the
list holds two elements, one thread has been woken and one sleeps on. -/
theorem popper_forgotten :
    ¬ ∀ (c : Int) (tr : List (State Nat Nat × Label Nat Nat)) (σ : State Nat Nat),
      Run step (State.queueNew c) tr σ → ∀ x ∈ visited tr σ, NotForgotten x := by
  intro h
  obtain ⟨σ, hσ⟩ : ∃ σ, exec step (State.queueNew (-1)) twoPushes = some σ := ⟨_, rfl⟩
  obtain ⟨⟨as, hchain, hcover⟩, -⟩ := h _ _ σ (Run.of_exec hσ) σ (by simp [visited])
  obtain rfl := Option.some.inj hσ
  obtain rfl : as = [16, 24] := hchain.unique (.cons (by decide) (.cons (by decide) .nil))
  exact absurd hcover (by decide)

/-- One popper, one push, and the popper gets up before the next push. -/
def oneAtATime : List (Label Nat Nat) :=
  [.pop 1, .push 0 7 16, .signalOne 0 (some 1), .resumePop 1]

/-- `wakeups_iff` at `oneAtATime`, where the only insertion is signalled. -/
theorem wakeups_iff_oneAtATime :
    ∃ σ : State Nat Nat, exec step (State.queueNew (-1)) oneAtATime = some σ ∧
      ∀ x ∈ visited (execTrace step (State.queueNew (-1)) oneAtATime) σ, NotForgotten x := by
  obtain ⟨σ, hσ⟩ : ∃ σ, exec step (State.queueNew (-1)) oneAtATime = some σ := ⟨_, rfl⟩
  refine ⟨σ, hσ, (wakeups_iff (-1) (Run.of_exec hσ)).2 ?_⟩
  intro p hp
  rcases List.mem_cons.1 hp with rfl | hp
  · exact .inr (Wakeups.Cover.lost rfl)
  · rcases List.mem_cons.1 hp with rfl | hp
    · exact .inr (.inl rfl)
    · rcases List.mem_cons.1 hp with rfl | hp
      · exact trivial
      · obtain rfl := List.mem_singleton.1 hp
        exact trivial

end Leda.Queue
