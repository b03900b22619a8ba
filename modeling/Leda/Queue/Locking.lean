import Leda.Queue.Capacity

/-!
# The lock of the locked queue

The other modules take the critical sections of `queue.c` as atomic.  This is the level
below: a thread calls `MUTEX_LOCK`, runs its critical section up to the next call that
has to do with the lock, and then makes the calls that it still owes.  These are part of
its state (`Pc.leave`), with the number of times it has called `MUTEX_UNLOCK`.
`SIGNAL_WAIT` gives the lock back and takes it again after a wake-up.

`MUTEX_UNLOCK` opens the lock whoever calls it; what POSIX leaves undefined is what the
mutex of the C library does.

`queue_pop` and `queue_try_pop` release the lock before they signal a queue that was
full, and fall through to the `MUTEX_UNLOCK` of the other path.  If another thread got
the lock in between, it loses it inside its critical section, and a third may join it
(`two_inside`).  As long as no pop finds the queue full, each operation unlocks once and
only while it holds the lock, so that there is never more than one thread inside; and
the first pop that does breaks this at once (`proper_iff`).
-/

universe u v

namespace Leda.Queue

open Leda.Lib

/-- The operations. -/
inductive Op (α : Type v)
  | push (v : α)
  | tryPush (v : α)
  | pop
  | tryPop
  | setCapacity (capacity : Int)
deriving Repr, DecidableEq

/-- The calls after the critical section. -/
inductive Act
  | /-- `MUTEX_UNLOCK` -/
    unlock
  | /-- `SIGNAL_ONE` -/
    signal (s : Signal)
deriving Repr, DecidableEq

/-- Where a thread is. -/
inductive Pc (α : Type v)
  | /-- In no operation. -/
    idle
  | /-- In the `MUTEX_LOCK` at the beginning. -/
    enter (op : Op α)
  | /-- It has the lock; `again` if it got it back from `SIGNAL_WAIT`. -/
    inside (op : Op α) (again : Bool)
  | /-- In `SIGNAL_WAIT`. -/
    waiting (op : Op α)
  | /-- It is through with the list, has unlocked `released` times and owes `acts`. -/
    leave (released : Nat) (acts : List Act)
deriving Repr, DecidableEq

namespace Pc

variable {α : Type v}

/-- The thread is in its critical section: it has got the lock and not released it. -/
def Inside : Pc α → Prop
  | inside _ _ => True
  | leave n _ => n = 0
  | _ => False

/-- The thread is about to call `MUTEX_UNLOCK`. -/
def Unlocking : Pc α → Prop
  | leave _ (.unlock :: _) => True
  | _ => False

end Pc

/-- The queue, its lock and its threads. -/
structure Machine (T : Type u) (α : Type v) where
  data : State T α
  /-- Who has the lock. -/
  holder : Option T
  pc : T → Pc α

/-- A step of a thread. -/
inductive Move (T : Type u) (α : Type v)
  | call (t : T) (op : Op α)
  | /-- The thread gets the lock. -/
    lock (t : T)
  | /-- It runs its critical section; `el` is what `malloc` returns. -/
    run (t : T) (el : Nat)
  | unlock (t : T)
  | /-- It wakes `w`, if anybody. -/
    signal (t : T) (w : Option T)
  | ret (t : T)
  | /-- A wake-up nobody asked for. -/
    spurious (t : T)
deriving Repr, DecidableEq

variable {T : Type u} {α : Type v}

/-! ## The critical sections -/

namespace State

/-- What a push owes when it has linked its element. -/
def pushActs (empty : Bool) : List Act :=
  if empty then [.unlock, .signal .emptyQueue] else [.unlock]

/-- `q->capacity>0 && q->size+1==q->capacity`, when the pop has been counted. -/
def WasFull (σ : State T α) (size : Int) : Prop := 0 < σ.q.capacity ∧ size + 1 = σ.q.capacity

instance (σ : State T α) (size : Int) : Decidable (σ.WasFull size) :=
  inferInstanceAs (Decidable (_ ∧ _))

/-- What a pop owes when it has unlinked an element. -/
def popActs (σ : State T α) (size : Int) : List Act :=
  if σ.WasFull size then [.unlock, .signal .fullQueue, .unlock] else [.unlock]

/-- The operation takes an element from a queue that is full. -/
def PopsFull (σ : State T α) : Op α → Bool → Prop
  | .pop, false => σ.q.head ≠ 0 ∧ σ.WasFull (σ.q.size - 1)
  | .pop, true => σ.q.head ≠ 0 ∧ σ.WasFull σ.q.size
  | .tryPop, _ => 0 < σ.q.size ∧ σ.WasFull (σ.q.size - 1)
  | _, _ => False

variable [DecidableEq T]

/-- The critical section of an operation, and where the thread is then. -/
def critical (σ : State T α) (t : T) (el : Nat) : Op α → Bool → Option (State T α × Pc α)
  | .push v, false =>
      (σ.queuePush t v el).map fun σ' ↦ (σ',
        if 0 ≤ σ.q.capacity ∧ σ.q.size = σ.q.capacity then .waiting (.push v)
        else .leave 0 (pushActs (σ.q.tail = 0)))
  | .push v, true =>
      (σ.resumePush t el).map fun σ' ↦ (σ',
        if σ.q.size = σ.q.capacity then .waiting (.push v)
        else .leave 0 (pushActs (σ.q.tail = 0)))
  | .tryPush v, _ =>
      (σ.queueTryPush t v el).map fun σ' ↦ (σ', .leave 0 <|
        if 0 ≤ σ.q.capacity ∧ σ.q.size = σ.q.capacity then [.unlock]
        else pushActs (σ.q.size ≤ 0))
  | .pop, false =>
      some (σ.queuePop t,
        if σ.q.head = 0 then .waiting .pop else .leave 0 (σ.popActs (σ.q.size - 1)))
  | .pop, true =>
      (σ.resumePop t).map fun σ' ↦ (σ',
        if σ.q.head = 0 then .waiting .pop else .leave 0 (σ.popActs σ.q.size))
  | .tryPop, _ =>
      some (σ.queueTryPop t, .leave 0 <|
        if σ.q.size ≤ 0 then [.unlock] else σ.popActs (σ.q.size - 1))
  | .setCapacity capacity, _ => some (σ.queueSetCapacity capacity, .leave 0 [.unlock])

/-- The thread may come back from `SIGNAL_WAIT`. -/
def awake (σ : State T α) (t : T) : Op α → Prop
  | .push _ => ⟨t, true⟩ ∈ σ.fullQueue.map Prod.fst
  | .pop => ⟨t, true⟩ ∈ σ.emptyQueue
  | _ => False

instance (σ : State T α) (t : T) : (op : Op α) → Decidable (σ.awake t op)
  | .push _ => inferInstanceAs (Decidable (_ ∈ _))
  | .pop => inferInstanceAs (Decidable (_ ∈ _))
  | .tryPush _ | .tryPop | .setCapacity _ => inferInstanceAs (Decidable False)

end State

/-! ## The machine -/

namespace Machine

/-- A fresh queue. -/
def start [Inhabited α] (capacity : Int) : Machine T α where
  data := .queueNew capacity
  holder := none
  pc _ := .idle

variable [DecidableEq T]

/-- A thread moves on. -/
def goto (m : Machine T α) (t : T) (pc : Pc α) : Machine T α :=
  { m with pc := Function.update m.pc t pc }

/-- One step of one thread. -/
def step (m : Machine T α) : Move T α → Option (Machine T α)
  | .call t op =>
      match m.pc t with
      | .idle => some (m.goto t (.enter op))
      | _ => none
  | .lock t =>
      if m.holder = none then
        match m.pc t with
        | .enter op => some { m.goto t (.inside op false) with holder := some t }
        | .waiting op =>
            if m.data.awake t op then
              some { m.goto t (.inside op true) with holder := some t }
            else none
        | _ => none
      else none
  | .run t el =>
      match m.pc t with
      | .inside op again =>
          if m.data.nullDeref then none
          else (m.data.critical t el op again).map fun p ↦
            -- `SIGNAL_WAIT` opens the lock
            match p.2 with
            | .waiting op' => { m.goto t (.waiting op') with data := p.1, holder := none }
            | pc => { m.goto t pc with data := p.1 }
      | _ => none
  | .unlock t =>
      match m.pc t with
      | .leave n (.unlock :: acts) =>
          some { m.goto t (.leave (n + 1) acts) with holder := none }
      | _ => none
  | .signal t w =>
      match m.pc t with
      | .leave n (.signal _ :: acts) =>
          (m.data.signalOne t w).map fun σ ↦ { m.goto t (.leave n acts) with data := σ }
      | _ => none
  | .ret t =>
      match m.pc t with
      | .leave _ [] => some (m.goto t .idle)
      | _ => none
  | .spurious t => some { m with data := m.data.wake t }

/-- **The lock is used as it should be.** -/
structure Proper (m : Machine T α) : Prop where
  /-- Whoever unlocks has the lock. -/
  holds : ∀ t, (m.pc t).Unlocking → m.holder = some t
  /-- Each operation unlocks once. -/
  once : ∀ t n acts, m.pc t = .leave n acts → n + acts.count .unlock = 1
  /-- There are never two threads inside. -/
  alone : ∀ t u, (m.pc t).Inside → (m.pc u).Inside → t = u

/-- The step takes no element from a queue that is full. -/
def NotFull (m : Machine T α) : Move T α → Prop
  | .run t _ =>
      match m.pc t with
      | .inside op again => ¬ m.data.PopsFull op again
      | _ => True
  | _ => True

end Machine

/-! ## What is owed after a critical section -/

/-- One call of `MUTEX_UNLOCK`, and it comes first. -/
def Plain (acts : List Act) : Prop := ∃ rest, acts = .unlock :: rest ∧ .unlock ∉ rest

namespace State

theorem pushActs_plain (empty : Bool) : Plain (pushActs empty) := by
  cases empty
  · exact ⟨[], rfl, by simp⟩
  · exact ⟨[.signal .emptyQueue], rfl, by simp⟩

theorem popActs_of_not {σ : State T α} {size : Int} (h : ¬ σ.WasFull size) :
    Plain (σ.popActs size) := by
  rw [popActs, if_neg h]
  exact ⟨[], rfl, by simp⟩

theorem popActs_count {σ : State T α} {size : Int} (h : σ.WasFull size) :
    (σ.popActs size).count .unlock = 2 := by
  rw [popActs, if_pos h]
  rfl

variable [DecidableEq T] {σ σ' : State T α} {t : T} {el : Nat} {op : Op α} {again : Bool}
  {pc : Pc α}

/-- What a thread does after its critical section. -/
inductive Owes (σ : State T α) (op : Op α) (again : Bool) : Pc α → Prop
  | /-- It waits. -/
    waits (op' : Op α) (h : ¬ σ.PopsFull op again) : Owes σ op again (.waiting op')
  | /-- It unlocks, once. -/
    plain {acts : List Act} (hacts : Plain acts) (h : ¬ σ.PopsFull op again) :
      Owes σ op again (.leave 0 acts)
  | /-- It unlocks twice. -/
    twice {acts : List Act} (hacts : acts.count .unlock = 2) (h : σ.PopsFull op again) :
      Owes σ op again (.leave 0 acts)

/-- **A critical section ends with two calls of `MUTEX_UNLOCK` exactly if it has taken an
element from a queue that was full.** -/
theorem critical_owes (hs : σ.critical t el op again = some (σ', pc)) : Owes σ op again pc := by
  cases op with
  | push v =>
      cases again with
      | false =>
          obtain ⟨_, -, he⟩ := Option.map_eq_some_iff.1 hs
          obtain ⟨rfl, rfl⟩ := Prod.mk.inj he
          split
          · exact .waits _ id
          · exact .plain (pushActs_plain _) id
      | true =>
          obtain ⟨_, -, he⟩ := Option.map_eq_some_iff.1 hs
          obtain ⟨rfl, rfl⟩ := Prod.mk.inj he
          split
          · exact .waits _ id
          · exact .plain (pushActs_plain _) id
  | tryPush v =>
      obtain ⟨_, -, he⟩ := Option.map_eq_some_iff.1 hs
      obtain ⟨rfl, rfl⟩ := Prod.mk.inj he
      split
      · exact .plain ⟨[], rfl, by simp⟩ id
      · exact .plain (pushActs_plain _) id
  | pop =>
      cases again with
      | false =>
          obtain ⟨rfl, rfl⟩ := Prod.mk.inj (Option.some.inj hs)
          split
          · rename_i hhead
            exact .waits _ fun h ↦ h.1 hhead
          · rename_i hhead
            by_cases hf : σ.WasFull (σ.q.size - 1)
            · exact .twice (popActs_count hf) ⟨hhead, hf⟩
            · exact .plain (popActs_of_not hf) fun h ↦ hf h.2
      | true =>
          obtain ⟨_, -, he⟩ := Option.map_eq_some_iff.1 hs
          obtain ⟨rfl, rfl⟩ := Prod.mk.inj he
          split
          · rename_i hhead
            exact .waits _ fun h ↦ h.1 hhead
          · rename_i hhead
            by_cases hf : σ.WasFull σ.q.size
            · exact .twice (popActs_count hf) ⟨hhead, hf⟩
            · exact .plain (popActs_of_not hf) fun h ↦ hf h.2
  | tryPop =>
      obtain ⟨rfl, rfl⟩ := Prod.mk.inj (Option.some.inj hs)
      split
      · rename_i hsize
        exact .plain ⟨[], rfl, by simp⟩ fun h ↦ absurd h.1 (by omega)
      · rename_i hsize
        by_cases hf : σ.WasFull (σ.q.size - 1)
        · exact .twice (popActs_count hf) ⟨by omega, hf⟩
        · exact .plain (popActs_of_not hf) fun h ↦ hf h.2
  | setCapacity c =>
      obtain ⟨rfl, rfl⟩ := Prod.mk.inj (Option.some.inj hs)
      exact .plain ⟨[], rfl, by simp⟩ id

end State

/-! ## The invariant -/

namespace Machine

/-- What a step does to the thread that takes it, and to the lock; `ok` says that it takes
no element from a queue that is full. -/
inductive Goes (ok : Prop) (t : T) : Pc α → Option T → Pc α → Option T → Prop
  | call (hok : ok) (op : Op α) (h : Option T) : Goes ok t .idle h (.enter op) h
  | lock (hok : ok) {pc : Pc α} (op : Op α) (again : Bool) :
      Goes ok t pc none (.inside op again) (some t)
  | wait (hok : ok) {op op' : Op α} {again : Bool} (h : Option T) :
      Goes ok t (.inside op again) h (.waiting op') none
  | done (hok : ok) {op : Op α} {again : Bool} {acts : List Act} (h : Option T)
      (hacts : Plain acts) : Goes ok t (.inside op again) h (.leave 0 acts) h
  | twice (hok : ¬ ok) {op : Op α} {again : Bool} {acts : List Act} (h : Option T)
      (hacts : acts.count .unlock = 2) : Goes ok t (.inside op again) h (.leave 0 acts) h
  | unlock (hok : ok) (n : Nat) (acts : List Act) (h : Option T) :
      Goes ok t (.leave n (.unlock :: acts)) h (.leave (n + 1) acts) none
  | signal (hok : ok) (n : Nat) (s : Signal) (acts : List Act) (h : Option T) :
      Goes ok t (.leave n (.signal s :: acts)) h (.leave n acts) h
  | ret (hok : ok) (n : Nat) (h : Option T) : Goes ok t (.leave n []) h .idle h

/-- Whoever leaves has unlocked, or will do so next. -/
def Orderly : Pc α → Prop
  | .leave n acts => (n = 0 ∧ Plain acts) ∨ (n = 1 ∧ .unlock ∉ acts)
  | _ => True

/-- What the runs keep in which no pop finds the queue full. -/
structure Guarded (m : Machine T α) : Prop where
  /-- Whoever is inside has the lock. -/
  inside : ∀ t, (m.pc t).Inside → m.holder = some t
  orderly : ∀ t, Orderly (m.pc t)

theorem guarded_start [Inhabited α] (k : Int) : (start k : Machine T α).Guarded :=
  ⟨fun _ h ↦ h.elim, fun _ ↦ trivial⟩

variable {m m' : Machine T α} {t : T}

/-- A guarded lock is used as it should be. -/
theorem Guarded.proper (h : m.Guarded) : m.Proper where
  holds t ht := by
    refine h.inside t ?_
    have ho := h.orderly t
    rcases hpc : m.pc t with _ | _ | _ | _ | ⟨n, acts⟩ <;> rw [hpc] at ht ho
    case leave =>
      rcases acts with _ | ⟨_ | _, acts⟩
      · exact ht.elim
      · rcases ho with ⟨hn, -⟩ | ⟨-, hno⟩
        · exact hn
        · exact absurd List.mem_cons_self hno
      · exact ht.elim
    all_goals exact ht.elim
  once t n acts hpc := by
    have ho := h.orderly t
    rw [hpc] at ho
    rcases ho with ⟨rfl, rest, rfl, hno⟩ | ⟨rfl, hno⟩
    · rw [List.count_cons_self, List.count_eq_zero.2 hno]
    · rw [List.count_eq_zero.2 hno]
  alone t u ht hu := Option.some.inj ((h.inside t ht).symm.trans (h.inside u hu))

/-- The thread that moves has the lock before it gives it away, and gets it if it goes
inside. -/
theorem Goes.holder {ok : Prop} {pc pc' : Pc α} {h h' : Option T} (hg : Goes ok t pc h pc' h')
    (ho : Orderly pc) (hin : pc.Inside → h = some t) :
    (h' = h ∨ h = none ∨ h = some t) ∧ (pc'.Inside → h' = some t) := by
  cases hg with
  | call => exact ⟨.inl rfl, fun hi ↦ hi.elim⟩
  | lock => exact ⟨.inr (.inl rfl), fun _ ↦ rfl⟩
  | wait => exact ⟨.inr (.inr (hin trivial)), fun hi ↦ hi.elim⟩
  | done | twice => exact ⟨.inl rfl, fun _ ↦ hin trivial⟩
  | unlock _ n acts _ =>
      rcases ho with ⟨hn, -⟩ | ⟨-, hno⟩
      · exact ⟨.inr (.inr (hin hn)), fun hi ↦ absurd hi (Nat.succ_ne_zero n)⟩
      · exact absurd List.mem_cons_self hno
  | signal => exact ⟨.inl rfl, hin⟩
  | ret => exact ⟨.inl rfl, fun hi ↦ hi.elim⟩

/-- The thread that moves stays orderly if it takes no element from a full queue. -/
theorem Goes.orderly {ok : Prop} {pc pc' : Pc α} {h h' : Option T} (hg : Goes ok t pc h pc' h')
    (ho : Orderly pc) (hok : ok) : Orderly pc' := by
  cases hg with
  | call | lock | wait | ret => trivial
  | done _ _ hacts => exact .inl ⟨rfl, hacts⟩
  | twice hno => exact absurd hok hno
  | unlock _ n acts _ =>
      rcases ho with ⟨rfl, rest, he, hno⟩ | ⟨-, hno⟩
      · obtain rfl := (List.cons.inj he).2
        exact .inr ⟨rfl, hno⟩
      · exact absurd List.mem_cons_self hno
  | signal _ n s acts _ =>
      rcases ho with ⟨-, rest, he, -⟩ | ⟨hn, hno⟩
      · cases he
      · exact .inr ⟨hn, fun hm ↦ hno (List.mem_cons_of_mem _ hm)⟩

variable [DecidableEq T] {l : Move T α}

/-- **One thread moves**, if any. -/
theorem step_goes (hs : step m l = some m') :
    (m.NotFull l ∧ m'.pc = m.pc ∧ m'.holder = m.holder) ∨
      ∃ t pc, m'.pc = Function.update m.pc t pc ∧
        Goes (m.NotFull l) t (m.pc t) m.holder pc m'.holder := by
  cases l with
  | call t op =>
      simp only [step] at hs
      split at hs
      · rename_i hpc
        cases hs
        exact .inr ⟨t, _, rfl, hpc ▸ .call trivial op _⟩
      · cases hs
  | lock t =>
      simp only [step] at hs
      split at hs
      · rename_i hfree
        split at hs
        · cases hs
          exact .inr ⟨t, _, rfl, hfree ▸ .lock trivial _ _⟩
        · split at hs
          · cases hs
            exact .inr ⟨t, _, rfl, hfree ▸ .lock trivial _ _⟩
          · cases hs
        · cases hs
      · cases hs
  | run t el =>
      simp only [step] at hs
      split at hs
      · rename_i op again hpc
        split at hs
        · cases hs
        · obtain ⟨⟨σ, pc⟩, hc, rfl⟩ := Option.map_eq_some_iff.1 hs
          have ho := State.critical_owes hc
          have hfull : m.NotFull (.run t el) ↔ ¬ m.data.PopsFull op again := by
            simp only [NotFull, hpc]
          refine .inr ⟨t, pc, by cases ho <;> rfl, ?_⟩
          rw [hpc]
          cases ho with
          | waits op' hp => exact .wait (hfull.2 hp) _
          | plain hacts hp => exact .done (hfull.2 hp) _ hacts
          | twice hacts hp => exact .twice (fun h ↦ hfull.1 h hp) _ hacts
      · cases hs
  | unlock t =>
      simp only [step] at hs
      split at hs
      · rename_i hpc
        cases hs
        exact .inr ⟨t, _, rfl, hpc ▸ .unlock trivial _ _ _⟩
      · cases hs
  | signal t w =>
      simp only [step] at hs
      split at hs
      · rename_i hpc
        obtain ⟨σ, -, rfl⟩ := Option.map_eq_some_iff.1 hs
        exact .inr ⟨t, _, rfl, hpc ▸ .signal trivial _ _ _ _⟩
      · cases hs
  | ret t =>
      simp only [step] at hs
      split at hs
      · rename_i hpc
        cases hs
        exact .inr ⟨t, _, rfl, hpc ▸ .ret trivial _ _⟩
      · cases hs
  | spurious t =>
      cases hs
      exact .inl ⟨trivial, rfl, rfl⟩

/-- **Only a pop from a full queue breaks the guard**, and it does so at once. -/
theorem guarded_step (h : m.Guarded) (hs : step m l = some m') :
    (m.NotFull l → m'.Guarded) ∧ (¬ m.NotFull l → ¬ m'.Proper) := by
  obtain ⟨hok, hpc, hh⟩ | ⟨t, pc, hpc, hg⟩ := step_goes hs
  · refine ⟨fun _ ↦ ⟨fun u hu ↦ ?_, fun u ↦ ?_⟩, fun hno ↦ absurd hok hno⟩
    · rw [hh]
      exact h.inside u (by rwa [hpc] at hu)
    · rw [hpc]
      exact h.orderly u
  · obtain ⟨hholder, hinside⟩ := hg.holder (h.orderly t) (h.inside t)
    constructor
    · refine fun hok ↦ ⟨fun u hu ↦ ?_, fun u ↦ ?_⟩
      · by_cases hut : u = t
        · subst hut
          rw [hpc, Function.update_self] at hu
          exact hinside hu
        · rw [hpc, Function.update_of_ne hut] at hu
          have hu := h.inside u hu
          -- nobody else can be inside if the lock is free, or changes hands
          rcases hholder with he | he | he
          · exact he.trans hu
          · rw [hu] at he
            cases he
          · rw [hu] at he
            exact absurd (Option.some.inj he) hut
      · by_cases hut : u = t
        · subst hut
          rw [hpc, Function.update_self]
          exact hg.orderly (h.orderly u) hok
        · rw [hpc, Function.update_of_ne hut]
          exact h.orderly u
    · intro hno hp
      generalize m.pc t = pc₀, m.holder = h₀ at hg
      generalize hh' : m'.holder = h₁ at hg
      cases hg with
      | twice _ _ hacts =>
          have hone := hp.once t 0 _ (by rw [hpc, Function.update_self])
          rw [hacts] at hone
          cases hone
      | call hok | lock hok | wait hok | done hok | unlock hok | signal hok | ret hok =>
          exact hno hok

/-- **When the lock is used as it should be.**  For every capacity, any number of threads and
every interleaving. -/
theorem proper_iff [Inhabited α] (k : Int) {tr : List (Machine T α × Move T α)}
    (h : Run step (start k) tr m) :
    (∀ x ∈ visited tr m, Proper x) ↔ ∀ p ∈ tr, NotFull p.1 p.2 :=
  h.forall_visited_iff (I := Guarded) (guarded_start k)
    (fun _ _ _ hI hC hs ↦ (guarded_step hI hs).1 hC) (fun _ hI ↦ hI.proper)
    fun _ _ _ hI hC hs ↦ (guarded_step hI hs).2 hC

/-! ## A lock that is opened twice -/

/-- Thread `0` pops from a full queue, and thread `1` gets the lock between its two calls of
`MUTEX_UNLOCK`. -/
def slipIn : List (Move Nat Nat) :=
  [.call 0 (.push 7), .lock 0, .run 0 16, .unlock 0, .signal 0 none, .ret 0,
    .call 0 .tryPop, .call 1 .tryPop, .call 2 .tryPop, .lock 0, .run 0 0, .unlock 0,
    .signal 0 none, .lock 1]

/-- **Two threads are inside**: the second call of `MUTEX_UNLOCK` of thread `0` opens the
lock that thread `1` has, and thread `2` takes it. -/
theorem two_inside : ∃ (tr : List (Machine Nat Nat × Move Nat Nat)) (m m₁ m₂ : Machine Nat Nat),
    Run step (start 1) tr m ∧ m.holder = some 1 ∧ step m (.unlock 0) = some m₁ ∧
      step m₁ (.lock 2) = some m₂ ∧ (m₂.pc 1).Inside ∧ (m₂.pc 2).Inside ∧ ¬ m.Proper := by
  obtain ⟨m, hm⟩ : ∃ m, exec step (start 1) slipIn = some m := ⟨_, rfl⟩
  obtain ⟨m₁, h₁⟩ : ∃ m₁, step m (.unlock 0) = some m₁ := by
    obtain rfl := Option.some.inj hm
    exact ⟨_, rfl⟩
  obtain ⟨m₂, h₂⟩ : ∃ m₂, step m₁ (.lock 2) = some m₂ := by
    obtain rfl := Option.some.inj hm
    obtain rfl := Option.some.inj h₁
    exact ⟨_, rfl⟩
  refine ⟨_, m, m₁, m₂, Run.of_exec hm, ?_, h₁, h₂, ?_⟩
  · obtain rfl := Option.some.inj hm
    rfl
  · obtain rfl := Option.some.inj hm
    obtain rfl := Option.some.inj h₁
    obtain rfl := Option.some.inj h₂
    refine ⟨trivial, trivial, fun hp ↦ ?_⟩
    have hholder := hp.holds 0 trivial
    cases hholder

/-- Thread `0` pushes, and thread `1` pops, in a queue with room for two. -/
def takeTurns : List (Move Nat Nat) :=
  [.call 0 (.push 7), .call 1 .pop, .lock 0, .run 0 16, .unlock 0, .lock 1, .run 1 0]

/-- `proper_iff` at `takeTurns`. -/
theorem proper_iff_takeTurns : ∃ m : Machine Nat Nat, exec step (start 2) takeTurns = some m ∧
    ∀ x ∈ visited (execTrace step (start 2) takeTurns) m, Proper x := by
  obtain ⟨m, hm⟩ : ∃ m, exec step (start 2) takeTurns = some m := ⟨_, rfl⟩
  refine ⟨m, hm, (proper_iff 2 (Run.of_exec hm)).2 ?_⟩
  intro p hp
  iterate 6
    rcases List.mem_cons.1 hp with rfl | hp
    · first | exact trivial | exact id
  obtain rfl := List.mem_singleton.1 hp
  exact fun h ↦ absurd h.2 (by decide)

end Machine

end Leda.Queue
