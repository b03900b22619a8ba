import Leda.Kernel.Scheduler
import Leda.Lib.Run
import Mathlib.Data.Fintype.Defs
import Mathlib.Data.Finset.Insert

/-!
# Interleaved threads

Any number of threads — workers, the event thread, the main thread — execute the
functions of `instance.c` and `scheduler.c` at the same time.  A thread is a stack of
frames, the calls it is in the middle of, innermost first; each frame names the access
it makes next.  One step of a thread makes one access to one shared object: a
`TRY_POP`, a `TRY_PUSH`, a `READ`, an `ADD` or a `SUB`.  What a thread does to the Lua
state of an instance it has in its hands nobody else can see, so that goes into the
step before it.

User code runs in two places, the handler of an instance and the chunk of a new one,
and both can call `emmit`, which pushes a new frame.  `emmit_cohort` ends by resuming
its callee, so the frame of the caller is gone by then.

The order in which threads move, what their user code does and how their system calls
end are in the labels of the run.
-/

universe u v

namespace Leda.Kernel

open Leda.Lib

variable {U V : Type u} {T : Type v}

/-- What an instance is acquired for. -/
inductive Purpose (U V : Type u)
  | emmit (con : ConnectorId) (args : List U)
  | packed (e : List V)
  | cohort (caller : InstId) (con : ConnectorId) (args : List U)
deriving Repr, DecidableEq

/-- A call in progress, at its next access. -/
inductive Frame (U V : Type u)
  | /-- The handler of `i` runs. -/
    handler (i : InstId)
  | /-- `instance_aquire`: `TRY_POP(recycle_queues[s])`. -/
    aquire (s : StageId) (p : Purpose U V)
  | /-- `READ(number_of_instances[s])`. -/
    readCount (s : StageId) (p : Purpose U V)
  | /-- `READ(recycle_queue_limits[s])`, to be compared with `n`. -/
    readLimit (s : StageId) (n : Int) (p : Purpose U V)
  | /-- `ADD(number_of_instances[s],1)`. -/
    add (s : StageId) (p : Purpose U V)
  | /-- The chunk of the new instance `i` runs. -/
    chunk (s : StageId) (i : InstId) (p : Purpose U V)
  | /-- Its chunk failed: `instance_destroy`. -/
    abandon (s : StageId) (i : InstId) (p : Purpose U V)
  | /-- `TRY_PUSH(event_queues[s],e)`. -/
    pushEvent (s : StageId) (e : List V) (con : ConnectorId)
  | /-- `push_ready_queue(i)`. -/
    pushReady (i : InstId)
  | /-- `emmit_cohort`: `push_ready_queue(caller)`, then `callee` is resumed. -/
    pushCaller (caller callee : InstId) (con : ConnectorId)
  | /-- `instance_release`: `TRY_POP(event_queues[i->stage])`. -/
    popEvent (i : InstId)
  | /-- `instance_release`: `TRY_PUSH(recycle_queues[i->stage],i)`. -/
    recycle (i : InstId)
  | /-- `instance_destroy`. -/
    destroy (i : InstId)
deriving Repr, DecidableEq

/-- What a thread does when user code, the event loop or a system call decides. -/
inductive Act (U V : Type u)
  | /-- `wait_ready_queue` -/
    wait
  | emmit (con : ConnectorId) (dst : StageId) (args : List U)
  | packed (dst : StageId) (e : List V)
  | /-- `thread_kill` -/
    kill
  | callback (i : InstId) (c : Completion) (o : Outcome)
  | /-- The running handler leaves. -/
    ret (y : Yield U)
  | /-- The running chunk ends. -/
    chunkEnds (c : Creation)
  | /-- The next access of the innermost frame. -/
    run
deriving Repr, DecidableEq

section ThreadStep

variable (xf : Transfer U V) (k : State V)

/-- `instance_aquire` returned `i`: up to the next access of its caller. -/
def granted (i : InstId) : Purpose U V → Option (State V × List (Frame U V))
  | .emmit con args =>
      match xf.copy args with
      | .ok e => some ((k.load i e).statsUpdateEvents (k.graph.producer con) con, [.pushReady i])
      | .raised _ => some (k.modifyInst i fun d ↦ { d with stack := d.stack ++ [.handler] }, [])
      | .crash => none
  | .packed e => some (k.modifyInst i fun d ↦ { d with packedEvent := some e }, [.pushReady i])
  | .cohort caller con args =>
      match xf.copy args with
      | .ok e => some ((k.load i e).prepare caller [.boolean true], [.pushCaller caller i con])
      -- outside `lua_pcall`: the process is gone
      | .raised _ | .crash => none

/-- `instance_aquire` returned `NULL`. -/
def refused (s : StageId) : Purpose U V → Option (State V × List (Frame U V))
  | .emmit con args =>
      match xf.extract args with
      | .ok e => some (k, [.pushEvent s e con])
      | .raised _ => some (k, [])
      | .crash => none
  | .packed e => some (k, [.pushEvent s e (-1)])
  | .cohort caller _ _ =>
      some (k.prepare caller [.nil, .string (k.cohortMessage s)], [.pushReady caller])

/-- The fate of an instance that yielded, up to the next access. -/
def settled (i : InstId) : Fate V → Option (State V × List (Frame U V))
  | .resume vals => some (k.prepare i vals, [.pushReady i])
  | .register c => some (k.register i c, [])
  | .lost => some (k, [])
  | .panic _ | .crash => none

/-- `thread_resume_instance` from the end of `lua_pcall` on, up to the next access. -/
def returned (i : InstId) (y : Yield U) : Option (State V × List (Frame U V)) :=
  let k := k.modifyInst i fun d ↦ { d with suspended := y.inside }
  match y with
  | .ended => some (k.modifyInst i fun d ↦ { d with stack := [] }, [.popEvent i])
  | .pcallError =>
      some ((k.statsUpdateError (k.stageOf i)).statsInactive (k.stageOf i), [.destroy i])
  | .destroy => some (k.statsInactive (k.stageOf i), [.destroy i])
  | .cohort dst con args _ => some (k, [.aquire dst (.cohort i con args)])
  | .remote args written => settled k i (State.emmitRemote xf args written)
  | .waitIo fd mode armed => settled k i (State.eventWaitIo fd mode armed)
  | .fileIo file mode arg submitted =>
      settled k i (State.eventDoFileAio file mode arg submitted)
  | .sleep t armed => settled k i (State.eventSleep t armed)
  | .nice => settled k i State.emmitSelf
  | .unknown => some (k, [.destroy i])

/-- The next access of a frame, and what the frame is replaced by. -/
def frameStep : Frame U V → Option (State V × List (Frame U V))
  | .handler _ => none
  | .aquire s p =>
      if k.graph.Beyond s then refused xf k s p
      else
        match k.tryPopRecycle s with
        | some (i, k') => granted xf (k'.statsActive (k'.stageOf i)) i p
        | none => some (k, [.readCount s p])
  | .readCount s p => some (k, [.readLimit s (k.numberOfInstances s) p])
  | .readLimit s n p =>
      if n = k.recycleQueueLimits s then refused xf k s p else some (k, [.add s p])
  | .add s p =>
      some (((k.statsActive s).addInstances s 1).newInstance s, [.chunk s k.nextInst p])
  | .chunk .. => none
  | .abandon s i p => refused xf (k.instanceDestroy i) s p
  | .pushEvent s e con =>
      match k.instanceTryPushPendingEvent s e with
      | none => some (k, [])
      | some k' => some (k'.statsUpdateEvents (k'.graph.producer con) con, [])
  | .pushReady i => some (k.pushReadyQueue i, [])
  | .pushCaller caller callee con =>
      let k := (k.pushReadyQueue caller).statsUpdateEvents (k.stageOf caller) con
      some ((k.resumeInstance callee).1, [.handler callee])
  | .popEvent i =>
      match k.tryPopEvent (k.stageOf i) with
      | some (e, k') =>
          some (((k'.statsInactive (k.stageOf i)).statsActive (k.stageOf i)).load i e,
            [.pushReady i])
      | none => some (k.statsInactive (k.stageOf i), [.recycle i])
  | .recycle i =>
      match k.tryPushRecycle (k.stageOf i) i with
      | none => some (k, [.destroy i])
      | some k' => some (k', [])
  | .destroy i => some (k.instanceDestroy i, [])

/-- User code or the event loop has control, and may call into the kernel. -/
def mayCall : List (Frame U V) → Bool
  | [] | .handler _ :: _ | .chunk .. :: _ => true
  | _ => false

/-- Replace the innermost frame. -/
def replace (fs : List (Frame U V)) (r : Option (State V × List (Frame U V))) :
    Option (State V × List (Frame U V)) := r.map fun p ↦ (p.1, p.2 ++ fs)

/-- One step of a thread: the new kernel state and the new stack of the thread. -/
def threadStep : List (Frame U V) → Act U V → Option (State V × List (Frame U V))
  | [], .wait =>
      match k.popReady with
      | some (some i, k') => some ((k'.resumeInstance i).1, [.handler i])
      | some (none, k') => some (k', [])
      | none => none
  | fs, .emmit con dst args =>
      if mayCall fs then
        if k.graph.isLocal dst then some (k, .aquire dst (.emmit con args) :: fs)
        else some (k.statsUpdateEvents (k.graph.producer con) con, fs)
      else none
  | [], .packed dst e => some (k, [.aquire dst (.packed e)])
  | fs, .kill => if mayCall fs then some (k.pushReady none, fs) else none
  | [], .callback i c o =>
      if (i, c) ∈ k.registered then
        some (({ k with registered := k.registered.erase (i, c) } : State V).prepare i
          (State.completionValues c o), [.pushReady i])
      else none
  | .handler i :: fs, .ret y => replace fs (returned xf k i y)
  | .chunk _ i p :: fs, .chunkEnds .ok => replace fs (granted xf k i p)
  | .chunk s i p :: fs, .chunkEnds .initFails => some (k, .abandon s i p :: fs)
  | .chunk s _ p :: fs, .chunkEnds .loadFails => replace fs (refused xf k s p)
  | f :: fs, .run => replace fs (frameStep xf k f)
  | _, _ => none

end ThreadStep

/-- Two threads, for runs that need no more. -/
inductive TwoThreads
  | one
  | two
deriving DecidableEq

instance : Fintype TwoThreads where
  elems := {.one, .two}
  complete t := by cases t <;> decide

/-- The kernel and what each thread is doing. -/
structure Machine (T : Type v) (U V : Type u) where
  kernel : State V
  stack : T → List (Frame U V)

namespace Machine

variable [DecidableEq T]

/-- After `instance_init`, with every thread idle. -/
def init (g : Graph) (ft : FullTest) (recycleLimit pendingLimit : Int) : Machine T U V :=
  ⟨.instanceInit g ft recycleLimit pendingLimit, fun _ ↦ []⟩

/-- One thread makes one step. -/
def step (xf : Transfer U V) (σ : Machine T U V) (l : T × Act U V) :
    Option (Machine T U V) :=
  (threadStep xf σ.kernel (σ.stack l.1) l.2).map fun p ↦
    ⟨p.1, Function.update σ.stack l.1 p.2⟩

theorem step_eq_some {xf : Transfer U V} {σ σ' : Machine T U V} {l : T × Act U V} :
    step xf σ l = some σ' ↔ ∃ k fs, threadStep xf σ.kernel (σ.stack l.1) l.2 = some (k, fs) ∧
      σ' = ⟨k, Function.update σ.stack l.1 fs⟩ := by
  simp only [step, Option.map_eq_some_iff, Prod.exists]
  constructor
  · rintro ⟨k, fs, h, rfl⟩; exact ⟨k, fs, h, rfl⟩
  · rintro ⟨k, fs, h, rfl⟩; exact ⟨k, fs, h, rfl⟩

end Machine

/-- **What the next access of a frame can be**: how it ends, and what the frame is replaced by. -/
inductive AccessKind (xf : Transfer U V) (k : State V) :
    Frame U V → State V → List (Frame U V) → Prop
  | beyond {s : StageId} {p : Purpose U V} {k' : State V} {new : List (Frame U V)}
      (hs : k.graph.Beyond s) (h : refused xf k s p = some (k', new)) :
      AccessKind xf k (.aquire s p) k' new
  | recycled {s : StageId} {p : Purpose U V} {i : InstId} {k₁ k' : State V}
      {new : List (Frame U V)} (hs : ¬ k.graph.Beyond s) (hp : k.tryPopRecycle s = some (i, k₁))
      (h : granted xf (k₁.statsActive (k₁.stageOf i)) i p = some (k', new)) :
      AccessKind xf k (.aquire s p) k' new
  | noRecycled {s : StageId} {p : Purpose U V} (hs : ¬ k.graph.Beyond s)
      (hp : k.tryPopRecycle s = none) : AccessKind xf k (.aquire s p) k [.readCount s p]
  | readCount {s : StageId} {p : Purpose U V} :
      AccessKind xf k (.readCount s p) k [.readLimit s (k.numberOfInstances s) p]
  | atLimit {s : StageId} {n : Int} {p : Purpose U V} {k' : State V} {new : List (Frame U V)}
      (hn : n = k.recycleQueueLimits s) (h : refused xf k s p = some (k', new)) :
      AccessKind xf k (.readLimit s n p) k' new
  | belowLimit {s : StageId} {n : Int} {p : Purpose U V} (hn : n ≠ k.recycleQueueLimits s) :
      AccessKind xf k (.readLimit s n p) k [.add s p]
  | add {s : StageId} {p : Purpose U V} :
      AccessKind xf k (.add s p) (((k.statsActive s).addInstances s 1).newInstance s)
        [.chunk s k.nextInst p]
  | abandon {s : StageId} {i : InstId} {p : Purpose U V} {k' : State V} {new : List (Frame U V)}
      (h : refused xf (k.instanceDestroy i) s p = some (k', new)) :
      AccessKind xf k (.abandon s i p) k' new
  | eventsFull {s : StageId} {e : List V} {con : ConnectorId} (hp : k.tryPushEvent s e = none) :
      AccessKind xf k (.pushEvent s e con) k []
  | pushEvent {s : StageId} {e : List V} {con : ConnectorId} {k₁ : State V}
      (hp : k.tryPushEvent s e = some k₁) : AccessKind xf k (.pushEvent s e con)
        (k₁.statsUpdateEvents (k₁.graph.producer con) con) []
  | pushReady {i : InstId} : AccessKind xf k (.pushReady i) (k.pushReadyQueue i) []
  | pushCaller {caller callee : InstId} {con : ConnectorId} :
      AccessKind xf k (.pushCaller caller callee con)
        (((k.pushReadyQueue caller).statsUpdateEvents (k.stageOf caller) con).resumeInstance
          callee).1 [.handler callee]
  | popEvent {i : InstId} {e : List V} {k₁ : State V}
      (hp : k.tryPopEvent (k.stageOf i) = some (e, k₁)) : AccessKind xf k (.popEvent i)
        (((k₁.statsInactive (k.stageOf i)).statsActive (k.stageOf i)).load i e) [.pushReady i]
  | noEvent {i : InstId} (hp : k.tryPopEvent (k.stageOf i) = none) :
      AccessKind xf k (.popEvent i) (k.statsInactive (k.stageOf i)) [.recycle i]
  | recycleFull {i : InstId} (hp : k.tryPushRecycle (k.stageOf i) i = none) :
      AccessKind xf k (.recycle i) k [.destroy i]
  | recycle {i : InstId} {k' : State V} (hp : k.tryPushRecycle (k.stageOf i) i = some k') :
      AccessKind xf k (.recycle i) k' []
  | destroy {i : InstId} : AccessKind xf k (.destroy i) (k.instanceDestroy i) []

/-- Every access is one of these. -/
theorem frameStep_cases {xf : Transfer U V} {k k' : State V} {f : Frame U V}
    {new : List (Frame U V)} (h : frameStep xf k f = some (k', new)) :
    AccessKind xf k f k' new := by
  cases f with
  | handler | chunk => cases h
  | aquire s p =>
      simp only [frameStep] at h
      split at h
      · rename_i hs
        exact .beyond hs h
      · rename_i hs
        split at h
        · rename_i hp
          exact .recycled hs hp h
        · rename_i hp
          cases h
          exact .noRecycled hs hp
  | readLimit s n p =>
      simp only [frameStep] at h
      split at h
      · rename_i hn
        exact .atLimit hn h
      · rename_i hn
        cases h
        exact .belowLimit hn
  | abandon s i p => exact .abandon h
  | pushEvent s e con =>
      simp only [frameStep, State.instanceTryPushPendingEvent] at h
      split at h
      · rename_i hp
        cases h
        exact .eventsFull hp
      · rename_i hp
        cases h
        exact .pushEvent hp
  | popEvent i =>
      simp only [frameStep] at h
      split at h
      · rename_i hp
        cases h
        exact .popEvent hp
      · rename_i hp
        cases h
        exact .noEvent hp
  | recycle i =>
      simp only [frameStep] at h
      split at h
      · rename_i hp
        cases h
        exact .recycleFull hp
      · rename_i hp
        cases h
        exact .recycle hp
  | readCount | add | pushReady | pushCaller | destroy =>
      cases h
      constructor

/-- **What a step of a thread can be.**  It takes the next instance from the ready
queue, starts a call, runs a callback, returns from user code, or makes the next access
of its innermost frame. -/
inductive StepKind (xf : Transfer U V) (k : State V) :
    List (Frame U V) → Act U V → State V → List (Frame U V) → Prop
  | wait {i : InstId} {k' : State V} (h : k.popReady = some (some i, k')) :
      StepKind xf k [] .wait (k'.resumeInstance i).1 [.handler i]
  | waitNull {k' : State V} (h : k.popReady = some (none, k')) : StepKind xf k [] .wait k' []
  | emmit {fs : List (Frame U V)} {con : ConnectorId} {dst : StageId} {args : List U}
      (h : mayCall fs = true) :
      StepKind xf k fs (.emmit con dst args) k (.aquire dst (.emmit con args) :: fs)
  | remote {fs : List (Frame U V)} {con : ConnectorId} {dst : StageId} {args : List U}
      (h : mayCall fs = true) :
      StepKind xf k fs (.emmit con dst args)
        (k.statsUpdateEvents (k.graph.producer con) con) fs
  | packed {dst : StageId} {e : List V} :
      StepKind xf k [] (.packed dst e) k [.aquire dst (.packed e)]
  | kill {fs : List (Frame U V)} (h : mayCall fs = true) :
      StepKind xf k fs .kill (k.pushReady none) fs
  | callback {i : InstId} {c : Completion} {o : Outcome} (h : (i, c) ∈ k.registered) :
      StepKind xf k [] (.callback i c o)
        (({ k with registered := k.registered.erase (i, c) } : State V).prepare i
          (State.completionValues c o)) [.pushReady i]
  | ret {i : InstId} {fs new : List (Frame U V)} {y : Yield U} {k' : State V}
      (h : returned xf k i y = some (k', new)) :
      StepKind xf k (.handler i :: fs) (.ret y) k' (new ++ fs)
  | chunkOk {s : StageId} {i : InstId} {p : Purpose U V} {fs new : List (Frame U V)}
      {k' : State V} (h : granted xf k i p = some (k', new)) :
      StepKind xf k (.chunk s i p :: fs) (.chunkEnds .ok) k' (new ++ fs)
  | initFails {s : StageId} {i : InstId} {p : Purpose U V} {fs : List (Frame U V)} :
      StepKind xf k (.chunk s i p :: fs) (.chunkEnds .initFails) k (.abandon s i p :: fs)
  | loadFails {s : StageId} {i : InstId} {p : Purpose U V} {fs new : List (Frame U V)}
      {k' : State V} (h : refused xf k s p = some (k', new)) :
      StepKind xf k (.chunk s i p :: fs) (.chunkEnds .loadFails) k' (new ++ fs)
  | run {f : Frame U V} {fs new : List (Frame U V)} {k' : State V}
      (h : frameStep xf k f = some (k', new)) : StepKind xf k (f :: fs) .run k' (new ++ fs)

/-- Every step is one of these. -/
theorem threadStep_cases {xf : Transfer U V} {k k' : State V} {fs fs' : List (Frame U V)}
    {a : Act U V} (h : threadStep xf k fs a = some (k', fs')) : StepKind xf k fs a k' fs' := by
  unfold threadStep at h
  split at h
  · split at h
    · rename_i hp
      simp only [Option.some.injEq, Prod.mk.injEq] at h
      obtain ⟨rfl, rfl⟩ := h
      exact .wait hp
    · rename_i hp
      simp only [Option.some.injEq, Prod.mk.injEq] at h
      obtain ⟨rfl, rfl⟩ := h
      exact .waitNull hp
    · cases h
  · split at h
    · rename_i hm
      split at h <;>
        (simp only [Option.some.injEq, Prod.mk.injEq] at h; obtain ⟨rfl, rfl⟩ := h)
      · exact .emmit hm
      · exact .remote hm
    · cases h
  · simp only [Option.some.injEq, Prod.mk.injEq] at h
    obtain ⟨rfl, rfl⟩ := h
    exact .packed
  · split at h
    · rename_i hm
      simp only [Option.some.injEq, Prod.mk.injEq] at h
      obtain ⟨rfl, rfl⟩ := h
      exact .kill hm
    · cases h
  · split at h
    · rename_i hm
      simp only [Option.some.injEq, Prod.mk.injEq] at h
      obtain ⟨rfl, rfl⟩ := h
      exact .callback hm
    · cases h
  · obtain ⟨⟨k₁, new⟩, hr, he⟩ := Option.map_eq_some_iff.1 h
    simp only [Prod.mk.injEq] at he
    obtain ⟨rfl, rfl⟩ := he
    exact .ret hr
  · obtain ⟨⟨k₁, new⟩, hr, he⟩ := Option.map_eq_some_iff.1 h
    simp only [Prod.mk.injEq] at he
    obtain ⟨rfl, rfl⟩ := he
    exact .chunkOk hr
  · simp only [Option.some.injEq, Prod.mk.injEq] at h
    obtain ⟨rfl, rfl⟩ := h
    exact .initFails
  · obtain ⟨⟨k₁, new⟩, hr, he⟩ := Option.map_eq_some_iff.1 h
    simp only [Prod.mk.injEq] at he
    obtain ⟨rfl, rfl⟩ := he
    exact .loadFails hr
  · obtain ⟨⟨k₁, new⟩, hr, he⟩ := Option.map_eq_some_iff.1 h
    simp only [Prod.mk.injEq] at he
    obtain ⟨rfl, rfl⟩ := he
    exact .run hr
  · cases h

/-- A thread about to push an event can only do that. -/
theorem run_of_pushEvent {xf : Transfer U V} {k k' : State V} {s : StageId} {e : List V}
    {con : ConnectorId} {rest fs' : List (Frame U V)} {a : Act U V}
    (h : threadStep xf k (.pushEvent s e con :: rest) a = some (k', fs')) : a = .run := by
  cases threadStep_cases h with
  | run => rfl
  | emmit hm | remote hm | kill hm => cases hm

end Leda.Kernel
