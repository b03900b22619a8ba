import Leda.Kernel.Instance
import Leda.Lib.Xfer

/-!
# The scheduler

`scheduler.c`, and the functions of `event.c` that move instances: sending an event
to a stage, resuming an instance, and what becomes of it when its handler returns
or yields.  As in the previous module, each function is written for a caller that
is not interrupted.

What the code does not decide is a parameter.  How arguments cross from one Lua
state to another is a `Transfer`; how a handler leaves the processor is a `Yield`,
which carries what the kernel then reads from the instance's stack and how the
system calls it makes turn out; the answer of a remote process is a
`Except String Unit`.  What the kernel decides about an instance that yielded is a
`Fate`.

A value an event carries is identified with the value `restore_event_to_lua_state`
pushes for it.
-/

universe u

namespace Leda.Kernel

open Leda.Lib

variable {U V : Type u}

/-- The three ways the arguments of a send leave the sender's Lua state. -/
structure Transfer (U V : Type u) where
  /-- `copy_values_directly` -/
  copy : List U → Xfer (List V)
  /-- `extract_event_from_lua_state` -/
  extract : List U → Xfer (List V)
  /-- `mar_encode` on the table of all arguments, wrappers not permitted. -/
  remote : List U → Xfer (List UInt8)

/-- Arguments that are sent as they are. -/
def Transfer.plain (V : Type u) : Transfer V V := ⟨.ok, .ok, fun _ ↦ .ok []⟩

/-- What `emmit` returns to the sending handler. -/
inductive Sent
  | /-- `true` -/
    yes
  | /-- `nil` or `false`, and a message. -/
    refused (msg : String)
  | /-- A Lua error. -/
    raised (msg : String)
  | crash
deriving Repr, DecidableEq

/-- What the thread that served an instance does next. -/
inductive Passed
  | /-- It returns to its loop. -/
    done
  | /-- It resumes the callee of a cohort. -/
    resume (callee : InstId)
  | /-- A Lua error outside `lua_pcall`: the process ends. -/
    panic (msg : String)
  | crash
deriving Repr, DecidableEq

/-- What becomes of an instance whose handler yielded. -/
inductive Fate (V : Type u)
  | /-- It is queued, to be resumed with these values. -/
    resume (vals : List (Slot V))
  | /-- A callback gets it. -/
    register (c : Completion)
  | /-- A system call failed and nobody was told: nobody has it. -/
    lost
  | panic (msg : String)
  | crash
deriving Repr, DecidableEq

/-- The first stack slot of a request to sleep. -/
inductive Timer
  | notNumber
  | negative
  | valid
deriving Repr, DecidableEq

/-- How a handler leaves the processor. -/
inductive Yield (U : Type u)
  | ended
  | pcallError
  | destroy
  | /-- Any other status. -/
    unknown
  | nice
  | cohort (dst : StageId) (con : ConnectorId) (args : List U) (c : Creation)
  | /-- `written`: all bytes of the frame were written to the other process. -/
    remote (args : List U) (written : Bool)
  | /-- `none` for a slot that is not a number; `armed`: `event_base_once` succeeded. -/
    waitIo (fd mode : Option Int) (armed : Bool)
  | /-- `file`: slot 1 is a file; `arg`: slot 3 has the type the mode wants;
    `submitted`: `io_submit` succeeded. -/
    fileIo (file : Bool) (mode : Option Int) (arg : Bool) (submitted : Bool)
  | /-- `armed`: `event_add` succeeded. -/
    sleep (t : Timer) (armed : Bool)
deriving Repr, DecidableEq

/-- Whether the coroutine is left inside the handler, not waiting for an event. -/
def Yield.inside : Yield U → Bool
  | .ended => false
  | _ => true

/-- How the operation behind a completion went. -/
inductive Outcome
  | ok
  | /-- A positive byte count. -/
    bytes (data : String) (n : Int)
  | failed (msg : String)
deriving Repr, DecidableEq

namespace State

/-! ## Sending -/

/-- `emmit_remote_sync`: the destination is in another process. -/
def emmitRemoteSync (xf : Transfer U V) (k : State V) (con : ConnectorId) (args : List U)
    (reply : Except String Unit) : State V × Sent :=
  match xf.remote args with
  | .raised m => (k, .raised m)
  | .crash => (k, .crash)
  | .ok _ =>
      (k.statsUpdateEvents (k.graph.producer con) con,
        match reply with
        | .ok _ => .yes
        | .error m => .refused m)

/-- `emmit`. -/
def emmit (xf : Transfer U V) (k : State V) (con : ConnectorId) (dst : StageId)
    (args : List U) (c : Creation) (reply : Except String Unit) : State V × Sent :=
  if !k.graph.isLocal dst then k.emmitRemoteSync xf con args reply
  else
    match k.instanceAquire dst c with
    | (k, none) =>
        match xf.extract args with
        | .raised m => (k, .raised m)
        | .crash => (k, .crash)
        | .ok e =>
            match k.instanceTryPushPendingEvent dst e with
            | none =>
                (k, .refused ("Event queue for the stage '" ++ k.graph.name dst ++ "' is full."))
            | some k => (k.statsUpdateEvents (k.graph.producer con) con, .yes)
    | (k, some i) =>
        match xf.copy args with
        -- raised with the handler, and perhaps some values, on the stack of `i`
        | .raised m => (k.modifyInst i fun d ↦ { d with stack := d.stack ++ [.handler] }, .raised m)
        | .crash => (k, .crash)
        | .ok e =>
            (((k.load i e).pushReadyQueue i).statsUpdateEvents (k.graph.producer con) con, .yes)

/-- `emmit_packed_event`. -/
def emmitPackedEvent (k : State V) (dst : StageId) (e : List V) (c : Creation) :
    State V × Int :=
  match k.instanceAquire dst c with
  | (k, none) =>
      match k.instanceTryPushPendingEvent dst e with
      | none => (k, -1)
      | some k => (k, 0)
  | (k, some i) =>
      ((k.modifyInst i fun d ↦ { d with packedEvent := some e }).pushReadyQueue i, 0)

/-! ## Yielding -/

/-- Resume later with `nil` and a message. -/
def refuse (msg : String) : Fate V := .resume [.nil, .string msg]

/-- `emmit_self`. -/
def emmitSelf : Fate V := .resume [.boolean true]

/-- `event_wait_io`.  The result of `event_base_once` is ignored. -/
def eventWaitIo (fd mode : Option Int) (armed : Bool) : Fate V :=
  match fd, mode with
  | some _, some m =>
      if m = 1 ∨ m = 2 ∨ m = 3 then if armed then .register .io else .lost
      else refuse "Invalid argument"
  | _, _ => refuse "Invalid argument"

/-- `event_do_file_aio`.  The results of `aio_submit_read` and `aio_submit_write`
are ignored; `luaL_checkudata` is called outside `lua_pcall`. -/
def eventDoFileAio (file : Bool) (mode : Option Int) (arg submitted : Bool) : Fate V :=
  if !file then .panic "FILE* expected"
  else
    match mode with
    | none => refuse "Invalid argument"
    | some m =>
        if m = 1 ∨ m = 2 then
          if !arg then refuse "Invalid argument"
          else if submitted then .register (if m = 1 then .pread else .pwrite)
          else .lost
        else refuse "Invalid argument"

/-- `event_sleep`. -/
def eventSleep (t : Timer) (armed : Bool) : Fate V :=
  match t with
  | .notNumber => refuse "Invalid argument"
  | .negative => refuse "Invalid timer"
  | .valid => if armed then .register .timer else refuse "Error setting timer event"

/-- `emmit_remote` and `send_async_event`, outside `lua_pcall`.  After a failed write the
instance is left alone.  When `event_get_process_sock` fails, the number of results that it
returns, 2, is taken for a descriptor: the frame is written to the standard error, and the
instance waits there for an acknowledgement that no process sends. -/
def emmitRemote (xf : Transfer U V) (args : List U) (written : Bool) : Fate V :=
  match xf.remote args with
  | .raised m => .panic m
  | .crash => .crash
  | .ok _ => if written then .register .ack else .lost

/-- The fate of an instance that yielded with one of the statuses that keep it. -/
def settle (k : State V) (i : InstId) : Fate V → State V × Passed
  | .resume vals => ((k.prepare i vals).pushReadyQueue i, .done)
  | .register c => (k.register i c, .done)
  | .lost => (k, .done)
  | .panic m => (k, .panic m)
  | .crash => (k, .crash)

/-- The message of a refused cohort. -/
def cohortMessage (k : State V) (dst : StageId) : String :=
  "Cannot get a parallel instance of the stage '" ++ k.graph.name dst ++ "'."

/-- `emmit_cohort`.  The stage of the caller is read, for the statistics, after the
caller was queued: a stale read, the caller is not touched otherwise. -/
def emmitCohort (xf : Transfer U V) (k : State V) (caller : InstId) (dst : StageId)
    (con : ConnectorId) (args : List U) (c : Creation) : State V × Passed :=
  match k.instanceAquire dst c with
  | (k, none) =>
      k.settle caller (refuse (k.cohortMessage dst))
  | (k, some callee) =>
      match xf.copy args with
      | .raised m =>
          (k.modifyInst callee fun d ↦ { d with stack := d.stack ++ [.handler] }, .panic m)
      | .crash => (k, .crash)
      | .ok e =>
          ((((k.load callee e).prepare caller [.boolean true]).pushReadyQueue
            caller).statsUpdateEvents (k.stageOf caller) con, .resume callee)

/-! ## Running an instance -/

/-- The values `lua_pcall(L,args,..)` passes to the function below them. -/
def callArgs (d : Instance V) : List (Slot V) := d.stack.drop (d.stack.length - d.args)

/-- `thread_resume_instance` up to `lua_pcall`: unpack a packed event.  The call takes
the handler and its arguments off the stack. -/
def resumeInstance (k : State V) (i : InstId) : State V × List (Slot V) :=
  let k := match (k.inst i).packedEvent with
    | none => k
    | some e => (k.modifyInst i fun d ↦ { d with packedEvent := none }).load i e
  (k.modifyInst i fun d ↦ { d with stack := d.stack.take (d.stack.length - d.args - 1) },
    callArgs (k.inst i))

/-- Up to `lua_pcall` only the Lua state of the instance changes. -/
theorem resumeInstance_eq (k : State V) (i : InstId) :
    ∃ f, (k.resumeInstance i).1 = k.modifyInst i f := by
  simp only [resumeInstance]
  split
  · exact ⟨_, rfl⟩
  · simp only [load, modifyInst_modifyInst]
    exact ⟨_, rfl⟩

/-- `thread_resume_instance` from the end of `lua_pcall` on.  A handler that returned
left its coroutine waiting for the next event, one that yielded waits inside. -/
def threadReturn (xf : Transfer U V) (k : State V) (i : InstId) (y : Yield U) :
    State V × Passed :=
  let k := k.modifyInst i fun d ↦ { d with suspended := y.inside }
  match y with
  | .ended => ((k.instanceRelease i).1, .done)
  | .pcallError =>
      (((k.statsUpdateError (k.stageOf i)).statsInactive (k.stageOf i)).instanceDestroy i, .done)
  | .destroy => ((k.statsInactive (k.stageOf i)).instanceDestroy i, .done)
  | .cohort dst con args c => k.emmitCohort xf i dst con args c
  | .remote args written => k.settle i (emmitRemote xf args written)
  | .waitIo fd mode armed => k.settle i (eventWaitIo fd mode armed)
  | .fileIo file mode arg submitted => k.settle i (eventDoFileAio file mode arg submitted)
  | .sleep t armed => k.settle i (eventSleep t armed)
  | .nice => k.settle i emmitSelf
  | .unknown => (k.instanceDestroy i, .done)

/-! ## Completions -/

/-- The values `io_ready`, `event_aio_op_ready` and `do_read_ack` resume an instance
with. -/
def completionValues : Completion → Outcome → List (Slot V)
  | .io, _ | .timer, _ => [.boolean true]
  | .pread, .bytes data _ => [.string data]
  | .pread, _ => [.nil, .string "EOF"]
  | .pwrite, .bytes _ n => [.integer n]
  | .pwrite, _ => [.nil, .string "Write error"]
  | .ack, .failed msg => [.boolean false, .string msg]
  | .ack, _ => [.boolean true]

/-- A registered callback runs, once. -/
def complete (k : State V) (i : InstId) (c : Completion) (o : Outcome) : Option (State V) :=
  if (i, c) ∈ k.registered then
    some ((({ k with registered := k.registered.erase (i, c) } : State V).prepare i
      (completionValues c o)).pushReadyQueue i)
  else none

/-! ## Restoring events

Above, an event is what it is restored to.  `restore_event_to_lua_state` may also fail: it
decodes what was encoded, and no protected call is in progress.  Here it is a parameter,
`enter` and `leave` are `thread_resume_instance` and `instance_release` with it, and with an
event that is restored as it is they are what they were (`enter_ok`, `leave_ok`). -/

section Restoring

variable (restore : InstId → List V → Xfer (List V)) (k : State V) (i : InstId)

/-- `thread_resume_instance` up to `lua_pcall`. -/
def enter : Xfer (State V × List (Slot V)) :=
  match (k.inst i).packedEvent with
  | none => .ok (k.resumeInstance i)
  | some e => do
      let vals ← restore i e
      .ok ((k.modifyInst i fun d ↦ { d with packedEvent := some vals }).resumeInstance i)

/-- `instance_release`. -/
def leave : Xfer (State V × Int) :=
  let s := k.stageOf i
  match (k.modifyInst i fun d ↦ { d with stack := [] }).tryPopEvent s with
  | none => .ok (k.instanceRelease i)
  | some (e, k') => do
      let vals ← restore i e
      .ok ((((k'.statsInactive s).statsActive s).load i vals).pushReadyQueue i, 0)

variable {restore k i} {e vals : List V}

/-- What is restored as it is. -/
theorem enter_ok (h : ∀ e, (k.inst i).packedEvent = some e → restore i e = .ok e) :
    k.enter restore i = .ok (k.resumeInstance i) := by
  unfold enter
  cases he : (k.inst i).packedEvent with
  | none => rfl
  | some e =>
      simp only [h e he, Xfer.ok_bind]
      congr 2
      have hinst : Function.update k.inst i { k.inst i with packedEvent := some e } = k.inst := by
        rw [← he]
        exact Function.update_eq_self i k.inst
      rw [modifyInst, hinst]

theorem leave_ok (h : ∀ e, (k.eventQueues (k.stageOf i)).items.head? = some e →
    restore i e = .ok e) : k.leave restore i = .ok (k.instanceRelease i) := by
  unfold leave instanceRelease
  dsimp only
  cases hp : (k.modifyInst i fun d ↦ { d with stack := [] }).tryPopEvent (k.stageOf i) with
  | none => rfl
  | some p =>
      obtain ⟨e, k'⟩ := p
      obtain ⟨q, hq, -, -⟩ := tryPopEvent_eq_some.1 hp
      have he : restore i e = .ok e := h e (by rw [← eventQueues_modifyInst, hq]; rfl)
      simp only [he, Xfer.ok_bind]

/-- A thread gets on with an event exactly if it can be restored. -/
theorem enter_returns_iff (he : (k.inst i).packedEvent = some e) :
    (∃ r, k.enter restore i = .ok r ∧ r.1.live = k.live) ↔ ∃ vals, restore i e = .ok vals := by
  have henter : k.enter restore i = restore i e >>= fun vals ↦
      .ok ((k.modifyInst i fun d ↦ { d with packedEvent := some vals }).resumeInstance i) := by
    rw [enter, he]
  rw [henter]
  constructor
  · rintro ⟨r, hr, -⟩
    obtain ⟨vals, hvals, -⟩ := Xfer.bind_eq_ok.1 hr
    exact ⟨vals, hvals⟩
  · rintro ⟨vals, hvals⟩
    rw [hvals, Xfer.ok_bind]
    refine ⟨_, rfl, ?_⟩
    obtain ⟨f, hf⟩ := resumeInstance_eq
      (k.modifyInst i fun d ↦ { d with packedEvent := some vals }) i
    rw [hf]
    rfl

variable (restore) in
/-- `instance_release` with an event in the queue. -/
theorem leave_eq (he : (k.eventQueues (k.stageOf i)).items.head? = some e) :
    ∃ k' : State V, k'.live = k.live ∧ k.leave restore i = restore i e >>= fun vals ↦
      .ok ((k'.load i vals).pushReadyQueue i, 0) := by
  unfold leave
  dsimp only
  cases hp : (k.modifyInst i fun d ↦ { d with stack := [] }).tryPopEvent (k.stageOf i) with
  | none =>
      have hnil := tryPopEvent_eq_none.1 hp
      rw [eventQueues_modifyInst] at hnil
      rw [hnil] at he
      cases he
  | some p =>
      obtain ⟨e', k'⟩ := p
      obtain ⟨q, hq, hc, hk⟩ := tryPopEvent_eq_some.1 hp
      rw [eventQueues_modifyInst] at hq
      rw [hq] at he
      cases he
      exact ⟨(k'.statsInactive (k.stageOf i)).statsActive (k.stageOf i), hk ▸ rfl, rfl⟩

/-- It returns exactly if the event can be restored. -/
theorem leave_eq_ok_iff (he : (k.eventQueues (k.stageOf i)).items.head? = some e) :
    (∃ r, k.leave restore i = .ok r) ↔ ∃ vals, restore i e = .ok vals := by
  obtain ⟨k', -, hleave⟩ := leave_eq restore he
  rw [hleave]
  constructor
  · rintro ⟨r, hr⟩
    obtain ⟨vals, hvals, -⟩ := Xfer.bind_eq_ok.1 hr
    exact ⟨vals, hvals⟩
  · rintro ⟨vals, hvals⟩
    exact ⟨_, by rw [hvals, Xfer.ok_bind]⟩

theorem leave_returns_iff (he : (k.eventQueues (k.stageOf i)).items.head? = some e) :
    (∃ r, k.leave restore i = .ok r ∧ some i ∈ r.1.readyQueue.items ∧ r.1.live = k.live) ↔
      ∃ vals, restore i e = .ok vals := by
  rw [← leave_eq_ok_iff he]
  refine exists_congr fun r ↦ ⟨And.left, fun hr ↦ ⟨hr, ?_⟩⟩
  obtain ⟨k', hlive, hleave⟩ := leave_eq restore he
  obtain ⟨vals, -, hvals⟩ := Xfer.bind_eq_ok.1 (hleave.symm.trans hr)
  cases hvals
  exact ⟨by simp [pushReadyQueue, Fifo.append], hlive⟩

end Restoring

end State

end Leda.Kernel
