import Leda.Kernel.System

/-!
# Lua stacks rebuilt by hand

Wherever the kernel makes an instance ready it rebuilds the stack of its Lua state
itself: clear it or not, push the handler, push the values, store their number in
`args`.  Here each of these places is the sequence of its operations on the stack, in
the order of the source and with the number the source writes into `args`, so that a
missing `lua_settop` or a wrong count would show.  Run on *any* stack, an answer
leaves the handler and its values and nothing else (`run_answer`); the fates and
completions of the previous modules are what these sequences compute
(`Yield.run_program`, `run_completionProgram`), and `State.load` is the sequence of
a send (`run_loadProgram`).

The stack of a new instance is the one its creation leaves.  `creationCalls` lists
what `instance_aquire` and the functions it calls do to the height of that stack, for
any number of output ports; it ends where it began (`creation_balanced`).
-/

universe u

namespace Leda.Kernel

variable {U V : Type u}

/-- An operation of the kernel on an instance. -/
inductive StackOp (V : Type u)
  | /-- `lua_settop(L,0)` -/
    settop0
  | /-- `GET_HANDLER(L)` -/
    getHandler
  | /-- `lua_pushnil`, `lua_pushboolean`, `lua_pushlstring`, … -/
    push (v : Slot V)
  | /-- `i->args=n` -/
    setArgs (n : Nat)
deriving Repr, DecidableEq

namespace StackOp

/-- The effect of an operation. -/
def exec (d : Instance V) : StackOp V → Instance V
  | settop0 => { d with stack := [] }
  | getHandler => { d with stack := d.stack ++ [.handler] }
  | push v => { d with stack := d.stack ++ [v] }
  | setArgs n => { d with args := n }

/-- The effect of a sequence of operations. -/
def run (ops : List (StackOp V)) (d : Instance V) : Instance V := ops.foldl exec d

@[simp] theorem run_nil (d : Instance V) : run [] d = d := rfl

@[simp] theorem run_cons (op : StackOp V) (ops : List (StackOp V)) (d : Instance V) :
    run (op :: ops) d = run ops (exec d op) := rfl

@[simp] theorem run_append (ops ops' : List (StackOp V)) (d : Instance V) :
    run (ops ++ ops') d = run ops' (run ops d) := List.foldl_append ..

/-- Pushing several values. -/
theorem run_push (vals : List (Slot V)) (d : Instance V) :
    run (vals.map push) d = { d with stack := d.stack ++ vals } := by
  induction vals generalizing d with
  | nil => simp
  | cons v vals ih =>
      simp only [List.map_cons, run_cons, ih, exec, List.append_assoc, List.singleton_append]

/-! ## The places that answer a handler -/

/-- Clear the stack, push the handler and the values, and store `n`. -/
def answer (vals : List (Slot V)) (n : Nat) : List (StackOp V) :=
  [settop0, getHandler] ++ vals.map push ++ [setArgs n]

/-- **An answer does not depend on what was on the stack.** -/
theorem run_answer (vals : List (Slot V)) (n : Nat) (d : Instance V) :
    run (answer vals n) d = { d with stack := .handler :: vals, args := n } := by
  unfold answer
  rw [run_append, run_append, run_push]
  rfl

/-- `emmit_self` -/
def emmitSelf : List (StackOp V) := answer [.boolean true] 1

/-- `emmit_cohort`: the caller of a cohort that was passed on. -/
def emmitCohortCaller : List (StackOp V) := answer [.boolean true] 1

/-- `emmit_cohort`: the caller of a cohort that got no instance. -/
def emmitCohortRefused (msg : String) : List (StackOp V) := answer [.nil, .string msg] 2

/-- `event_wait_io`, at its three tests. -/
def eventWaitIoInvalid : List (StackOp V) := answer [.nil, .string "Invalid argument"] 2

/-- `event_do_file_aio`, at its four tests. -/
def eventDoFileAioInvalid : List (StackOp V) := answer [.nil, .string "Invalid argument"] 2

/-- `event_sleep`: the time is not a number. -/
def eventSleepInvalid : List (StackOp V) := answer [.nil, .string "Invalid argument"] 2

/-- `event_sleep`: the time is negative. -/
def eventSleepNegative : List (StackOp V) := answer [.nil, .string "Invalid timer"] 2

/-- `event_sleep`: `event_add` failed. -/
def eventSleepNotAdded : List (StackOp V) := answer [.nil, .string "Error setting timer event"] 2

/-- `io_ready`, for descriptors and timers. -/
def ioReady : List (StackOp V) := answer [.boolean true] 1

/-- `event_aio_op_ready`: a read. -/
def aioRead (data : String) : List (StackOp V) := answer [.string data] 1

/-- `event_aio_op_ready`: a read of nothing. -/
def aioReadEof : List (StackOp V) := answer [.nil, .string "EOF"] 2

/-- `event_aio_op_ready`: a write. -/
def aioWrite (n : Int) : List (StackOp V) := answer [.integer n] 1

/-- `event_aio_op_ready`: a write that failed. -/
def aioWriteError : List (StackOp V) := answer [.nil, .string "Write error"] 2

/-- `do_read_ack`: accepted. -/
def ackAccepted : List (StackOp V) := answer [.boolean true] 1

/-- `do_read_ack`: closed, or not accepted. -/
def ackFailed (msg : String) : List (StackOp V) := answer [.boolean false, .string msg] 2

/-- What a completion does. -/
def completionProgram : Completion → Outcome → List (StackOp V)
  | .io, _ | .timer, _ => ioReady
  | .pread, .bytes data _ => aioRead data
  | .pread, _ => aioReadEof
  | .pwrite, .bytes _ n => aioWrite n
  | .pwrite, _ => aioWriteError
  | .ack, .failed msg => ackFailed msg
  | .ack, _ => ackAccepted

/-- Every completion leaves its values. -/
theorem run_completionProgram (c : Completion) (o : Outcome) (d : Instance V) :
    run (completionProgram c o) d =
      { d with
        stack := .handler :: State.completionValues c o
        args := (State.completionValues c o : List (Slot V)).length } := by
  cases c <;> cases o <;> exact run_answer ..

/-- What the kernel does when a handler that waits is answered at once. -/
def yieldProgram : Yield U → List (StackOp V)
  | .nice => emmitSelf
  | .waitIo .. => eventWaitIoInvalid
  | .fileIo .. => eventDoFileAioInvalid
  | .sleep .notNumber _ => eventSleepInvalid
  | .sleep .negative _ => eventSleepNegative
  | .sleep .valid _ => eventSleepNotAdded
  | .ended | .pcallError | .destroy | .unknown | .cohort .. | .remote .. => []

/-- Every immediate answer leaves its values. -/
theorem run_yieldProgram {xf : Transfer U V} {y : Yield U} {vals : List (Slot V)}
    (hy : y.fate xf = some (.resume vals)) (d : Instance V) :
    run (yieldProgram y) d = { d with stack := .handler :: vals, args := vals.length } := by
  cases y with
  | ended | pcallError | destroy | unknown | cohort => simp [Yield.fate] at hy
  | nice =>
      obtain rfl : [.boolean true] = vals := by simpa [Yield.fate, State.emmitSelf] using hy
      exact run_answer ..
  | remote args written =>
      simp only [Yield.fate, State.emmitRemote, Option.some.injEq] at hy
      split at hy
      · cases hy
      · cases hy
      · split at hy <;> cases hy
  | waitIo fd mode armed =>
      simp only [Yield.fate, State.eventWaitIo, State.refuse, Option.some.injEq] at hy
      have hvals : vals = [.nil, .string "Invalid argument"] := by
        split at hy
        · split at hy
          · split at hy <;> cases hy
          · exact (Fate.resume.inj hy).symm
        · exact (Fate.resume.inj hy).symm
      rw [hvals]
      exact run_answer ..
  | fileIo file mode arg submitted =>
      simp only [Yield.fate, State.eventDoFileAio, State.refuse, Option.some.injEq] at hy
      have hvals : vals = [.nil, .string "Invalid argument"] := by
        split at hy
        · cases hy
        · split at hy
          · exact (Fate.resume.inj hy).symm
          · split at hy
            · split at hy
              · exact (Fate.resume.inj hy).symm
              · split at hy <;> cases hy
            · exact (Fate.resume.inj hy).symm
      rw [hvals]
      exact run_answer ..
  | sleep t armed =>
      cases t with
      | notNumber =>
          obtain rfl := Fate.resume.inj (Option.some.inj hy)
          exact run_answer ..
      | negative =>
          obtain rfl := Fate.resume.inj (Option.some.inj hy)
          exact run_answer ..
      | valid =>
          cases armed with
          | true => cases hy
          | false =>
              obtain rfl := Fate.resume.inj (Option.some.inj hy)
              exact run_answer ..

/-! ## The places that load an event -/

/-- `emmit`, `emmit_cohort` and `thread_resume_instance`: the handler, the values of
the event and their number, on the stack as it is. -/
def loadProgram (e : List V) : List (StackOp V) :=
  [getHandler] ++ (e.map Slot.value).map push ++ [setArgs e.length]

/-- `instance_release` with a pending event: the same on a cleared stack. -/
def releaseProgram (e : List V) : List (StackOp V) := settop0 :: loadProgram e

theorem run_loadProgram (e : List V) (d : Instance V) :
    run (loadProgram e) d =
      { d with stack := d.stack ++ .handler :: e.map .value, args := e.length } := by
  unfold loadProgram
  rw [run_append, run_append, run_push]
  simp [exec]

theorem run_releaseProgram (e : List V) (d : Instance V) :
    run (releaseProgram e) d = { d with stack := .handler :: e.map .value, args := e.length } := by
  rw [releaseProgram, run_cons, run_loadProgram]
  rfl

/-- `State.prepare` is the sequence of an answer. -/
theorem prepare_eq_run (k : State V) (i : InstId) (vals : List (Slot V)) :
    k.prepare i vals = k.modifyInst i (run (answer vals vals.length)) := by
  have hrun : run (answer vals vals.length) = fun d ↦
      { d with stack := .handler :: vals, args := vals.length } := funext fun d ↦ run_answer ..
  rw [hrun]
  rfl

/-- `State.load` is the sequence of a send. -/
theorem load_eq_run (k : State V) (i : InstId) (e : List V) :
    k.load i e = k.modifyInst i (run (loadProgram e)) := by
  have hrun : run (loadProgram e) = fun d ↦
      { d with stack := d.stack ++ .handler :: e.map .value, args := e.length } :=
    funext fun d ↦ run_loadProgram ..
  rw [hrun]
  rfl

end StackOp

/-! ## The stack of a new instance -/

/-- What a call of the Lua API does to the height of the stack. -/
inductive LuaCall
  | /-- A push, `lua_newtable`, `lua_getfield`, `lua_getglobal`, `luaL_loadbuffer`. -/
    push
  | /-- `lua_setfield` and `lua_setglobal` take the value. -/
    setfield
  | /-- `lua_settable` takes the key and the value. -/
    settable
  | /-- `lua_pop(L,n)` -/
    pop (n : Nat)
  | /-- `lua_pcall(L,args,results,0)` takes the function and its arguments. -/
    pcall (args results : Nat)
deriving Repr, DecidableEq

namespace LuaCall

/-- The height after a call; `none` if the stack is not that high. -/
def exec (h : Nat) : LuaCall → Option Nat
  | push => some (h + 1)
  | setfield => if 1 ≤ h then some (h - 1) else none
  | settable => if 2 ≤ h then some (h - 2) else none
  | pop n => if n ≤ h then some (h - n) else none
  | pcall args results => if args + 1 ≤ h then some (h - (args + 1) + results) else none

/-- The height after a sequence of calls. -/
def run (calls : List LuaCall) (h : Nat) : Option Nat := calls.foldlM exec h

theorem run_append (calls calls' : List LuaCall) (h : Nat) :
    run (calls ++ calls') h = (run calls h).bind (run calls') := List.foldlM_append ..

/-- `registerlib` -/
def registerlib : List LuaCall := [push, push, push, setfield, pop 2]

/-- `new_lua_state`, which calls `openlibs`. -/
def newLuaState : List LuaCall :=
  [push, pcall 0 0, push, pcall 0 1, setfield] ++ (List.replicate 8 registerlib).flatten

/-- A table entry set with `lua_setfield`. -/
def field : List LuaCall := [push, setfield]

/-- A table entry set with `lua_settable`. -/
def entry : List LuaCall := [push, push, settable]

/-- The entry of an output port in `__output`: `__sendf`, `__id` and `__consumer`. -/
def outputPort : List LuaCall := [push, push] ++ entry ++ entry ++ entry ++ [settable]

/-- `register_connector_api` -/
def registerConnectorApi : List LuaCall := field ++ field ++ field

/-- `register_debug_api` -/
def registerDebugApi : List LuaCall :=
  (List.replicate 7 field).flatten ++ [push] ++ field ++ field ++ [setfield]

/-- `register_io_api` -/
def registerIoApi : List LuaCall := [push] ++ field ++ field ++ [setfield]

/-- `register_aio_api` -/
def registerAioApi : List LuaCall := [push] ++ field ++ field ++ field ++ [setfield]

/-- `register_marshal_api` -/
def registerMarshalApi : List LuaCall := field ++ field ++ field

/-- `instance_aquire` up to the loop over the output ports: the chunk, the table of the
library, the table of the stage, the key `__output` and its table are on the stack. -/
def beforePorts : List LuaCall :=
  newLuaState ++ field ++ [push, push, push] ++ entry ++ entry ++ entry ++ [push, push]

/-- `instance_aquire` after that loop. -/
def afterPorts : List LuaCall :=
  [settable] ++ field ++ [setfield] ++ registerConnectorApi ++ field ++ field ++ field ++
    registerDebugApi ++ registerIoApi ++ registerAioApi ++ registerMarshalApi ++ field ++
    [setfield] ++ [pcall 0 1, setfield]

/-- What `instance_aquire` does to the stack of a new instance of a stage with `n`
output ports, when the chunk loads and runs without an error. -/
def creationCalls (n : Nat) : List LuaCall :=
  beforePorts ++ (List.replicate n outputPort).flatten ++ afterPorts

/-- Calls that leave the height alone can be repeated. -/
theorem run_replicate {calls : List LuaCall} {h : Nat} (hc : run calls h = some h) (n : Nat) :
    run (List.replicate n calls).flatten h = some h := by
  induction n with
  | zero => rfl
  | succ n ih => rw [List.replicate_succ, List.flatten_cons, run_append, hc, Option.bind_some, ih]

/-- **A new instance starts with an empty stack**, however many output ports its stage
has. -/
theorem creation_balanced (n : Nat) : run (creationCalls n) 0 = some 0 := by
  have hbefore : run beforePorts 0 = some 5 := rfl
  have hports : run (List.replicate n outputPort).flatten 5 = some 5 := run_replicate rfl n
  have hafter : run afterPorts 5 = some 0 := rfl
  unfold creationCalls
  rw [run_append, run_append, hbefore, Option.bind_some, hports, Option.bind_some, hafter]

/-- So `State.newInstance` starts it with the stack it has. -/
theorem creation_height (k : State V) (s : StageId) (n : Nat) :
    run (creationCalls n) 0 = some ((k.newInstance s).inst k.nextInst).stack.length := by
  rw [creation_balanced]
  simp [State.newInstance]

end LuaCall

end Leda.Kernel
