import Leda.Kernel.State

/-!
# Instances

`instance.c`: creating, acquiring, releasing and destroying the instances of a
stage, and the limit on their number.  Each function is written as the sequence of
accesses the source makes, for a caller that is not interrupted; the interleaving
machine of `Leda.Kernel.Interleave` runs the same accesses one by one.
-/

universe u

namespace Leda.Kernel

open Leda.Lib

variable {V : Type u}

/-- How the creation of a new instance goes: whether `instance_chunk` loads, and
whether the chunk, with the stage's `init` in it, runs without an error. -/
inductive Creation
  | ok
  | initFails
  | loadFails
deriving Repr, DecidableEq

namespace State

/-- `instance_destroy`. -/
def instanceDestroy (k : State V) (i : InstId) : State V :=
  (k.addInstances (k.stageOf i) (-1)).freeInstance i

/-- `instance_init`: the queues and counters of a graph.  A serial stage gets the
limit and the recycle capacity `1`, any other stage `recycleLimit`. -/
def instanceInit (g : Graph) (ft : FullTest) (recycleLimit pendingLimit : Int) : State V where
  graph := g
  fullTest := ft
  readyQueue := .empty (-1)
  recycleQueues s := .empty (if g.serial s then 1 else recycleLimit)
  eventQueues _ := .empty pendingLimit
  recycleQueueLimits s := if g.serial s then 1 else recycleLimit
  numberOfInstances _ := 0
  live := ∅
  inst _ := { stage := 0 }
  nextInst := 0
  registered := []
  sstats _ := {}
  cstats _ := 0

/-- `instance_try_push_pending_event`. -/
def instanceTryPushPendingEvent (k : State V) (dst : StageId) (e : List V) : Option (State V) :=
  k.tryPushEvent dst e

/-- `push_ready_queue`.  When the ready queue is full the source blocks in `PUSH`
until there is room. -/
def pushReadyQueue (k : State V) (i : InstId) : State V := k.pushReady (some i)

/-- The creation at the end of `instance_aquire`, after the limit was checked. -/
def instanceCreate (k : State V) (s : StageId) : Creation → State V × Option InstId
  | .ok => (((k.statsActive s).addInstances s 1).newInstance s, some k.nextInst)
  -- the chunk failed: the instance is destroyed, `STATS_ACTIVE` stays
  | .initFails => ((((k.statsActive s).addInstances s 1).newInstance s).instanceDestroy k.nextInst,
      none)
  -- `luaL_loadbuffer` failed: returned without undoing anything
  | .loadFails => (((k.statsActive s).addInstances s 1).newInstance s, none)

/-- `instance_aquire`. -/
def instanceAquire (k : State V) (s : StageId) (c : Creation) : State V × Option InstId :=
  if k.graph.Beyond s then (k, none)
  else
    match k.tryPopRecycle s with
    | some (i, k') => (k'.statsActive (k'.stageOf i), some i)
    | none =>
        if k.numberOfInstances s = k.recycleQueueLimits s then (k, none)
        else k.instanceCreate s c

/-- `instance_release`: `0`, or `-1` after the branch that cannot push the
instance. -/
def instanceRelease (k : State V) (i : InstId) : State V × Int :=
  let s := k.stageOf i
  let k := k.modifyInst i fun d ↦ { d with stack := [] }
  match k.tryPopEvent s with
  | some (e, k') => ((((k'.statsInactive s).statsActive s).load i e).pushReadyQueue i, 0)
  | none =>
      match (k.statsInactive s).tryPushRecycle s i with
      | none => ((k.statsInactive s).instanceDestroy i, -1)
      | some k' => (k', 0)

/-- Change the limit and the recycle capacity of the stages in `p`. -/
def storeLimits (k : State V) (p : StageId → Bool) (cap : Int) : State V :=
  { k with
    recycleQueues := fun s ↦
      if p s then (k.recycleQueues s).setCapacity cap else k.recycleQueues s
    recycleQueueLimits := fun s ↦ if p s then cap else k.recycleQueueLimits s }

/-- `instance_set_maxpar`, called as `maxpar(cap)` or `maxpar(id,cap)`.  The arguments are
stored in variables of type `int`. -/
def instanceSetMaxpar (k : State V) (arg₁ : Int) (arg₂ : Option Int) :
    State V × Except String Unit :=
  let i := toInt32 arg₁
  match arg₂ with
  | none =>
      if i < -1 then (k, .error "Invalid value")
      else (k.storeLimits (fun s ↦ 0 ≤ s && s < k.graph.nS && !k.graph.serial s) i, .ok ())
  | some arg₂ =>
      let cap := toInt32 arg₂
      if cap < -1 then (k, .error "Invalid value")
      else if i < 0 ∨ k.graph.nS ≤ i then (k, .error "Invalid stage id")
      else if k.graph.serial i then (k, .error "Cannot change maxpar of a serial stage")
      else (k.storeLimits (fun s ↦ s = i) cap, .ok ())

/-- `leda_set_capacity`: the ready queue for a negative id, else the pending queue of
the stage. -/
def ledaSetCapacity (k : State V) (arg₁ arg₂ : Int) : State V × Except String Unit :=
  let i := toInt32 arg₁
  let cap := toInt32 arg₂
  if i < 0 then ({ k with readyQueue := k.readyQueue.setCapacity cap }, .ok ())
  else if k.graph.nS ≤ i then (k, .error "Invalid stage id")
  else
    ({ k with eventQueues :=
        Function.update k.eventQueues i ((k.eventQueues i).setCapacity cap) }, .ok ())

end State

end Leda.Kernel
