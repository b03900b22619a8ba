import Leda.Lib.Fifo
import Mathlib.Data.Finset.Card
import Mathlib.Logic.Function.Basic

/-!
# The state of the kernel

The vectors that `instance.c` indexes by stage id, the ready queue, the instances
and their Lua states, the callbacks registered with libevent and aio, and the
counters of `stats.c`.  Vectors are total functions of the stage id.

An instance's Lua state is modelled by its stack and by whether its coroutine is
suspended *inside* the handler (it then waits for resume values) or at the top of
`main_coroutine` (it then waits for an event).

Everything shared is changed by the primitives below, one for each atomic access:
`TRY_POP`, `TRY_PUSH`, `READ`, `ADD` and `SUB` on one queue or counter.  The
functions of the next modules are compositions of them, and the interleaving
machine runs them one at a time.
-/

universe u

namespace Leda.Kernel

open Leda.Lib

/-- `typedef int stage_id`. -/
abbrev StageId := Int

/-- `typedef int connector_id`; `-1` when the connector is not known. -/
abbrev ConnectorId := Int

/-- An instance, named by the order of its creation. -/
abbrev InstId := Nat

/-- One slot of an instance's Lua stack. -/
inductive Slot (V : Type u)
  | /-- The function `GET_HANDLER` pushes. -/
    handler
  | nil
  | boolean (b : Bool)
  | string (s : String)
  | integer (n : Int)
  | /-- An argument of an event. -/
    value (v : V)
deriving Repr, DecidableEq

/-- `struct instance_data`, the fields the modelled functions use. -/
structure Instance (V : Type u) where
  stage : StageId
  /-- The stack of `i->L`, bottom first. -/
  stack : List (Slot V) := []
  args : Nat := 0
  /-- The event `packed_event` while `packed` is set. -/
  packedEvent : Option (List V) := none
  /-- The coroutine waits inside the handler, not for an event. -/
  suspended : Bool := false
deriving Repr, DecidableEq

/-- What `lua_tointeger` returns, in a variable of type `int`. -/
def toInt32 (n : Int) : Int := (BitVec.ofInt 32 n).toInt

/-- What the kernel reads of the compiled graph. -/
structure Graph where
  /-- `main_graph->n_s`. -/
  nS : Int
  /-- `STAGE(s)->name`. -/
  name : StageId → String
  /-- `STAGE(s)->serial`. -/
  serial : StageId → Bool
  /-- `CLUSTER(STAGE(s)->cluster)->local`. -/
  isLocal : StageId → Bool
  /-- `CONNECTOR(c)->p`. -/
  producer : ConnectorId → StageId

/-- `s>main_graph->n_s`.  The comparison is one of `size_t`: there a negative id is larger
than the number of stages. -/
def Graph.Beyond (g : Graph) (s : StageId) : Prop := s < 0 ∨ g.nS < s

instance (g : Graph) (s : StageId) : Decidable (g.Beyond s) :=
  inferInstanceAs (Decidable (_ ∨ _))

/-- A graph of one local stage, whose connectors all start at it. -/
def Graph.single (serial : Bool) : Graph where
  nS := 1
  name _ := "stage"
  serial _ := serial
  isLocal _ := true
  producer _ := 0

/-- The counters of a stage, `struct __s_stats`, without the times. -/
structure StageStats where
  executed : Int := 0
  events : Int := 0
  error : Int := 0
  active : Int := 0
deriving Repr, DecidableEq

/-- The kind of a registered callback. -/
inductive Completion
  | /-- `event_base_once` on a descriptor. -/
    io
  | /-- A timer event. -/
    timer
  | /-- An aio read. -/
    pread
  | /-- An aio write. -/
    pwrite
  | /-- The acknowledgement of an asynchronous remote event. -/
    ack
deriving Repr, DecidableEq

instance : LawfulBEq (InstId × Completion) := inferInstance

/-- The kernel's state. -/
structure State (V : Type u) where
  graph : Graph
  /-- When a queue is full: the locked queue and the TBB queue differ. -/
  fullTest : FullTest
  /-- `NULL` is a request to end a worker. -/
  readyQueue : Fifo (Option InstId)
  recycleQueues : StageId → Fifo InstId
  eventQueues : StageId → Fifo (List V)
  recycleQueueLimits : StageId → Int
  numberOfInstances : StageId → Int
  /-- The instances created and not destroyed. -/
  live : Finset InstId
  inst : InstId → Instance V
  nextInst : InstId
  /-- Instances whose completion libevent or aio will deliver. -/
  registered : List (InstId × Completion)
  sstats : StageId → StageStats
  /-- `cstats[c].events`. -/
  cstats : ConnectorId → Int

namespace State

variable {V : Type u}

/-- The stage of an instance. -/
def stageOf (k : State V) (i : InstId) : StageId := (k.inst i).stage

/-- The live instances of a stage. -/
def liveOf (k : State V) (s : StageId) : Finset InstId := k.live.filter fun i ↦ k.stageOf i = s

theorem liveOf_eq_empty {k : State V} {s : StageId} (hl : k.live = ∅) : k.liveOf s = ∅ := by
  unfold liveOf
  rw [hl]
  rfl

theorem mem_liveOf {k : State V} {s : StageId} {i : InstId} :
    i ∈ k.liveOf s ↔ i ∈ k.live ∧ k.stageOf i = s := Finset.mem_filter

/-- `ADD(number_of_instances[s],n)`. -/
@[simp] def addInstances (k : State V) (s : StageId) (n : Int) : State V :=
  { k with numberOfInstances :=
      Function.update k.numberOfInstances s (k.numberOfInstances s + n) }

/-- Change the counters of a stage. -/
@[simp] def updateStats (k : State V) (s : StageId) (f : StageStats → StageStats) : State V :=
  { k with sstats := Function.update k.sstats s (f (k.sstats s)) }

/-- `STATS_ACTIVE`. -/
@[simp] def statsActive (k : State V) (s : StageId) : State V :=
  k.updateStats s fun c ↦ { c with executed := c.executed + 1, active := c.active + 1 }

/-- `STATS_INACTIVE`. -/
@[simp] def statsInactive (k : State V) (s : StageId) : State V :=
  k.updateStats s fun c ↦ { c with active := c.active - 1 }

/-- `STATS_UPDATE_ERROR(s,1)`. -/
@[simp] def statsUpdateError (k : State V) (s : StageId) : State V :=
  k.updateStats s fun c ↦ { c with error := c.error + 1 }

/-- `if(con_id>=0) STATS_UPDATE_EVENTS(s,1,con_id,..)`. -/
@[simp] def statsUpdateEvents (k : State V) (s : StageId) (con : ConnectorId) : State V :=
  { k with
    sstats := fun s' ↦
      if 0 ≤ con ∧ s' = s then { k.sstats s with events := (k.sstats s).events + 1 }
      else k.sstats s'
    cstats := fun c ↦ if 0 ≤ con ∧ c = con then k.cstats con + 1 else k.cstats c }

/-- `TRY_POP(recycle_queues[s],..)`. -/
def tryPopRecycle (k : State V) (s : StageId) : Option (InstId × State V) :=
  (k.recycleQueues s).tryPop.map fun p ↦
    (p.1, { k with recycleQueues := Function.update k.recycleQueues s p.2 })

/-- `TRY_PUSH(recycle_queues[s],i)`. -/
def tryPushRecycle (k : State V) (s : StageId) (i : InstId) : Option (State V) :=
  ((k.recycleQueues s).tryPush k.fullTest i).map fun q ↦
    { k with recycleQueues := Function.update k.recycleQueues s q }

/-- `TRY_POP(event_queues[s],..)`. -/
def tryPopEvent (k : State V) (s : StageId) : Option (List V × State V) :=
  (k.eventQueues s).tryPop.map fun p ↦
    (p.1, { k with eventQueues := Function.update k.eventQueues s p.2 })

/-- `TRY_PUSH(event_queues[s],e)`. -/
def tryPushEvent (k : State V) (s : StageId) (e : List V) : Option (State V) :=
  ((k.eventQueues s).tryPush k.fullTest e).map fun q ↦
    { k with eventQueues := Function.update k.eventQueues s q }

/-- The insertion of `push_ready_queue`, once there is room. -/
@[simp] def pushReady (k : State V) (i : Option InstId) : State V :=
  { k with readyQueue := k.readyQueue.append i }

/-- The removal of `wait_ready_queue`, once there is something. -/
def popReady (k : State V) : Option (Option InstId × State V) :=
  k.readyQueue.tryPop.map fun p ↦ (p.1, { k with readyQueue := p.2 })

/-- `calloc` of an instance of stage `s`. -/
def newInstance (k : State V) (s : StageId) : State V :=
  { k with
    live := insert k.nextInst k.live
    inst := Function.update k.inst k.nextInst { stage := s }
    nextInst := k.nextInst + 1 }

/-- `free` of an instance. -/
@[simp] def freeInstance (k : State V) (i : InstId) : State V := { k with live := k.live.erase i }

/-- Change the Lua state of an instance; its stage is fixed for life. -/
def modifyInst (k : State V) (i : InstId) (f : Instance V → Instance V) : State V :=
  { k with inst :=
      Function.update k.inst i { f (k.inst i) with stage := (k.inst i).stage } }

/-- Register a completion for an instance. -/
@[simp] def register (k : State V) (i : InstId) (c : Completion) : State V :=
  { k with registered := k.registered ++ [(i, c)] }

/-- `lua_settop(L,0)`, `GET_HANDLER(L)`, push the given values and set `args`. -/
@[simp] def prepare (k : State V) (i : InstId) (vals : List (Slot V)) : State V :=
  k.modifyInst i fun d ↦ { d with stack := .handler :: vals, args := vals.length }

/-- `GET_HANDLER(L)`, push the arguments of an event and set `args`; the stack is
not cleared first. -/
@[simp] def load (k : State V) (i : InstId) (e : List V) : State V :=
  k.modifyInst i fun d ↦
    { d with stack := d.stack ++ .handler :: e.map .value, args := e.length }

/-! ## What an access found -/

variable {k k' : State V} {s : StageId} {i : InstId} {e : List V}

theorem tryPopRecycle_eq_some :
    k.tryPopRecycle s = some (i, k') ↔ ∃ q, (k.recycleQueues s).items = i :: q.items ∧
      q.capacity = (k.recycleQueues s).capacity ∧
      k' = { k with recycleQueues := Function.update k.recycleQueues s q } := by
  simp only [tryPopRecycle, Option.map_eq_some_iff, Prod.exists, Fifo.tryPop_eq_some,
    Prod.mk.injEq]
  constructor
  · rintro ⟨j, q, ⟨hi, hc⟩, rfl, rfl⟩; exact ⟨q, hi, hc, rfl⟩
  · rintro ⟨q, hi, hc, rfl⟩; exact ⟨i, q, ⟨hi, hc⟩, rfl, rfl⟩

@[simp] theorem tryPopRecycle_eq_none :
    k.tryPopRecycle s = none ↔ (k.recycleQueues s).items = [] := by
  simp [tryPopRecycle]

theorem tryPushRecycle_eq_some :
    k.tryPushRecycle s i = some k' ↔ (k.recycleQueues s).full k.fullTest = false ∧
      k' = { k with recycleQueues :=
        Function.update k.recycleQueues s ((k.recycleQueues s).append i) } := by
  simp only [tryPushRecycle, Option.map_eq_some_iff, Fifo.tryPush_eq_some]
  constructor
  · rintro ⟨q, ⟨hf, rfl⟩, rfl⟩; exact ⟨hf, rfl⟩
  · rintro ⟨hf, rfl⟩; exact ⟨_, ⟨hf, rfl⟩, rfl⟩

@[simp] theorem tryPushRecycle_eq_none :
    k.tryPushRecycle s i = none ↔ (k.recycleQueues s).full k.fullTest = true := by
  simp [tryPushRecycle, Fifo.tryPush_eq_none]

theorem tryPopEvent_eq_some :
    k.tryPopEvent s = some (e, k') ↔ ∃ q, (k.eventQueues s).items = e :: q.items ∧
      q.capacity = (k.eventQueues s).capacity ∧
      k' = { k with eventQueues := Function.update k.eventQueues s q } := by
  simp only [tryPopEvent, Option.map_eq_some_iff, Prod.exists, Fifo.tryPop_eq_some,
    Prod.mk.injEq]
  constructor
  · rintro ⟨j, q, ⟨hi, hc⟩, rfl, rfl⟩; exact ⟨q, hi, hc, rfl⟩
  · rintro ⟨q, hi, hc, rfl⟩; exact ⟨e, q, ⟨hi, hc⟩, rfl, rfl⟩

@[simp] theorem tryPopEvent_eq_none :
    k.tryPopEvent s = none ↔ (k.eventQueues s).items = [] := by
  simp [tryPopEvent]

theorem tryPushEvent_eq_some :
    k.tryPushEvent s e = some k' ↔ (k.eventQueues s).full k.fullTest = false ∧
      k' = { k with eventQueues :=
        Function.update k.eventQueues s ((k.eventQueues s).append e) } := by
  simp only [tryPushEvent, Option.map_eq_some_iff, Fifo.tryPush_eq_some]
  constructor
  · rintro ⟨q, ⟨hf, rfl⟩, rfl⟩; exact ⟨hf, rfl⟩
  · rintro ⟨hf, rfl⟩; exact ⟨_, ⟨hf, rfl⟩, rfl⟩

@[simp] theorem tryPushEvent_eq_none :
    k.tryPushEvent s e = none ↔ (k.eventQueues s).full k.fullTest = true := by
  simp [tryPushEvent, Fifo.tryPush_eq_none]

theorem popReady_eq_some {o : Option InstId} :
    k.popReady = some (o, k') ↔ ∃ q, k.readyQueue.items = o :: q.items ∧
      q.capacity = k.readyQueue.capacity ∧ k' = { k with readyQueue := q } := by
  simp only [popReady, Option.map_eq_some_iff, Prod.exists, Fifo.tryPop_eq_some,
    Prod.mk.injEq]
  constructor
  · rintro ⟨j, q, ⟨hi, hc⟩, rfl, rfl⟩; exact ⟨q, hi, hc, rfl⟩
  · rintro ⟨q, hi, hc, rfl⟩; exact ⟨o, q, ⟨hi, hc⟩, rfl, rfl⟩

/-! ## Changing a Lua state changes nothing shared -/

section ModifyInst

variable {f : Instance V → Instance V} {j : InstId}

@[simp] theorem graph_modifyInst : (k.modifyInst i f).graph = k.graph := rfl
@[simp] theorem fullTest_modifyInst : (k.modifyInst i f).fullTest = k.fullTest := rfl
@[simp] theorem readyQueue_modifyInst : (k.modifyInst i f).readyQueue = k.readyQueue := rfl
@[simp] theorem recycleQueues_modifyInst :
    (k.modifyInst i f).recycleQueues = k.recycleQueues := rfl
@[simp] theorem eventQueues_modifyInst : (k.modifyInst i f).eventQueues = k.eventQueues := rfl
@[simp] theorem recycleQueueLimits_modifyInst :
    (k.modifyInst i f).recycleQueueLimits = k.recycleQueueLimits := rfl
@[simp] theorem numberOfInstances_modifyInst :
    (k.modifyInst i f).numberOfInstances = k.numberOfInstances := rfl
@[simp] theorem live_modifyInst : (k.modifyInst i f).live = k.live := rfl
@[simp] theorem nextInst_modifyInst : (k.modifyInst i f).nextInst = k.nextInst := rfl
@[simp] theorem registered_modifyInst : (k.modifyInst i f).registered = k.registered := rfl

@[simp] theorem stage_modifyInst : ((k.modifyInst i f).inst j).stage = (k.inst j).stage := by
  unfold modifyInst
  by_cases h : j = i
  · subst h; simp
  · simp [h]

@[simp] theorem stageOf_modifyInst : (k.modifyInst i f).stageOf j = k.stageOf j :=
  stage_modifyInst

@[simp] theorem liveOf_modifyInst : (k.modifyInst i f).liveOf s = k.liveOf s := by
  simp [liveOf]

theorem inst_modifyInst_self :
    (k.modifyInst i f).inst i = { f (k.inst i) with stage := k.stageOf i } := by
  simp [modifyInst, stageOf]

/-- Two changes of one Lua state are one. -/
theorem modifyInst_modifyInst {g : Instance V → Instance V} :
    (k.modifyInst i f).modifyInst i g =
      k.modifyInst i fun d ↦ g { f d with stage := d.stage } := by
  simp [modifyInst]

theorem inst_modifyInst_of_ne (h : j ≠ i) : (k.modifyInst i f).inst j = k.inst j := by
  simp [modifyInst, h]

end ModifyInst

/-! ## Creating and freeing -/

/-- A new instance is of its stage. -/
theorem stageOf_newInstance_self : (k.newInstance s).stageOf k.nextInst = s := by
  simp [stageOf, newInstance]

/-- The other instances keep theirs. -/
theorem stageOf_newInstance_of_ne (h : i ≠ k.nextInst) :
    (k.newInstance s).stageOf i = k.stageOf i := by
  simp [stageOf, newInstance, h]

end State

end Leda.Kernel
