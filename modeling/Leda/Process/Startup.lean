import Mathlib.Data.List.Nodup
import Mathlib.Logic.Function.Basic
import Leda.Lib.Run

/-!
# Starting a distributed run

The launching process runs `run`: it ships the graph to the remote processes, one after the
other (`send_graph`), and waits for each to answer `ACCEPTED`; then it binds its own
socket and starts the graph itself (`start` with `has_graph`, then `init`).  A remote
process waits in `start` for a connection.  It takes the first that comes for the one
that brings the graph, and fails with `Invalid request` if that is not so; once it has
the graph it builds it, answers, and starts it at once (`init`).

Starting the graph means to emit an event for *every* stage with an `autostart` value,
wherever that stage runs, and in the launching process for the pending events as well
(`prepare_graph` ships stages without them).  This happens in the main thread, before
there are threads that run handlers.  Then handlers run for the events that arrive, and
send along the connectors of their stage.

`emmit` keeps an event in the process if the cluster of its stage is local; otherwise
`send_sync_event` takes the next process of the cluster in turn.  Its `READ` and
`STORE` of the turn are two operations, so that among several threads what was read may
be old by the time of the `STORE`.

The model fixes for every stage, and every event that a handler of the stage gets, what
that handler may send.  A process listens for events from the moment it has taken the
connection with the graph, or has bound its socket with the graph in its hands; what
arrives before it runs waits in the socket.  The list `tooEarly` remembers who tried to
send to whom when the other was not listening.
-/

universe u

namespace Leda.Process

open Leda.Lib List

/-! ## What is run -/

/-- A graph that is partitioned and mapped, and the processes of the run. -/
structure Config (P Cl S K V : Type u) where
  /-- The process that calls `run`. -/
  launcher : P
  /-- The other processes, as `pairs(d_list)` visits them. -/
  order : List P
  /-- `cluster.process_addr`. -/
  processes : Cl → List P
  /-- The cluster of a stage. -/
  cluster : S → Cl
  /-- The stages of the graph, as `leda_run` visits them in each process. -/
  stages : P → List S
  /-- `stage.autostart`. -/
  autostart : S → Option V
  /-- `stage.pending`, when `run` is called. -/
  pending : S → List V
  /-- The consumer of the connector at an output port. -/
  consumer : S → K → Option S
  /-- What the handler of a stage may send when it gets an event. -/
  handler : S → V → List (K × V)
  launcher_remote : launcher ∉ order
  order_nodup : order.Nodup
  /-- `d_list` has the processes of the clusters. -/
  processes_mem : ∀ k, ∀ p ∈ processes k, p = launcher ∨ p ∈ order
  order_mem : ∀ p ∈ order, ∃ k, p ∈ processes k
  /-- `run`: no cluster is without process. -/
  processes_ne : ∀ k, processes k ≠ []
  /-- `run`: no process is running two clusters. -/
  processes_inj : ∀ k k' p, p ∈ processes k → p ∈ processes k' → k = k'
  processes_nodup : ∀ k, (processes k).Nodup
  /-- Every process has the same stages. -/
  stages_perm : ∀ p q, (stages p).Perm (stages q)

variable {P Cl S K V : Type u}

namespace Config

/-- The events of the stages with an `autostart` value. -/
def autostarts (c : Config P Cl S K V) (p : P) : List (S × V) :=
  (c.stages p).filterMap fun s ↦ (c.autostart s).map fun v ↦ (s, v)

/-- What `leda_run` emits in the launching process. -/
def launched (c : Config P Cl S K V) : List (S × V) :=
  (c.stages c.launcher).flatMap fun s ↦
    (c.pending s ++ (c.autostart s).toList).map fun v ↦ (s, v)

/-- The events that the `autostart` values may lead to. -/
inductive Arises (c : Config P Cl S K V) : S → V → Prop
  | autostart {s : S} {v : V} (h : (s, v) ∈ c.autostarts c.launcher) : Arises c s v
  | sent {s s' : S} {v v' : V} {key : K} (h : Arises c s v) (hh : (key, v') ∈ c.handler s v)
      (hc : c.consumer s key = some s') : Arises c s' v'

/-- **A start without a race.**  All that the `autostart` values may lead to happens in
the cluster of the process that gets its graph first; and the processes of that cluster
which another process turns to, one for each `autostart` event, have their graph before
it. -/
def Ordered (c : Config P Cl S K V) : Prop :=
  ∀ d₁ rest, c.order = d₁ :: rest → ∀ k, d₁ ∈ c.processes k →
    (∀ s v, c.Arises s v → c.cluster s = k) ∧
    ∀ pre d post, c.order = pre ++ d :: post → d ∉ c.processes k →
      ∀ q ∈ (c.processes k).take (c.autostarts c.launcher).length, q ∈ pre

end Config

/-! ## The machine -/

/-- Where a process is. -/
inductive Status
  | /-- The launching process, before it binds its socket. -/
    closed
  | /-- Waiting for the graph. -/
    waiting
  | /-- A connection with the graph is there. -/
    offered
  | /-- It has the graph, and a socket where events may wait. -/
    bound
  | running
  | /-- `Invalid request`. -/
    failed
deriving Repr, DecidableEq

/-- The process is listening for events. -/
def Status.Listening (s : Status) : Prop := s = bound ∨ s = running

instance (s : Status) : Decidable s.Listening := inferInstanceAs (Decidable (_ ∨ _))

/-- All processes. -/
structure Startup (P Cl S V : Type u) where
  status : P → Status
  /-- Where `send_graph` has still to go. -/
  toShip : List P
  /-- Where `send_graph` waits for an answer. -/
  awaiting : Option P
  /-- What `leda_run` has still to emit. -/
  todo : P → List (S × V)
  /-- `cur_process`. -/
  cur : P → Cl → Nat
  /-- The events that have got to a process. -/
  delivered : List (P × S × V)
  tooEarly : List (P × P)

/-- A step. -/
inductive Move (P S K V : Type u)
  | /-- The launching process connects and sends the graph. -/
    ship
  | /-- A process takes the connection and builds the graph. -/
    accept (d : P)
  | /-- It sends `ACCEPTED`, and starts. -/
    answer (d : P)
  | /-- `send_graph` returns. -/
    acknowledge
  | /-- The launching process binds its socket. -/
    bind
  | /-- It starts. -/
    init
  | /-- `leda_run` emits the next event. -/
    emit (p : P)
  | /-- A handler sends; `READ` has returned `r`. -/
    handle (p : P) (s : S) (v : V) (key : K) (v' : V) (r : Nat)

namespace Startup

variable [DecidableEq P]

/-- Before anything has happened. -/
def start (c : Config P Cl S K V) : Startup P Cl S V where
  status p := if p = c.launcher then .closed else .waiting
  toShip := c.order
  awaiting := none
  todo _ := []
  cur _ _ := 0
  delivered := []
  tooEarly := []

/-- Change the status of a process. -/
def setStatus (σ : Startup P Cl S V) (p : P) (s : Status) : Startup P Cl S V :=
  { σ with status := Function.update σ.status p s }

/-- `init`: a process starts the graph. -/
def run (σ : Startup P Cl S V) (p : P) (es : List (S × V)) : Startup P Cl S V :=
  { σ.setStatus p .running with todo := Function.update σ.todo p es }

section

variable {σ : Startup P Cl S V} {p q : P} {x : Status} {l : List (S × V)}

@[simp] theorem status_setStatus_self : (σ.setStatus p x).status p = x :=
  Function.update_self ..

theorem status_setStatus_of_ne (h : q ≠ p) : (σ.setStatus p x).status q = σ.status q :=
  Function.update_of_ne h ..

@[simp] theorem status_run_self : (σ.run p l).status p = .running := Function.update_self ..

theorem status_run_of_ne (h : q ≠ p) : (σ.run p l).status q = σ.status q :=
  Function.update_of_ne h ..

@[simp] theorem todo_run_self : (σ.run p l).todo p = l := Function.update_self ..

theorem todo_run_of_ne (h : q ≠ p) : (σ.run p l).todo q = σ.todo q := Function.update_of_ne h ..

end

/-- An event gets to a process. -/
def deliver (σ : Startup P Cl S V) (p : P) (s : S) (v : V) : Startup P Cl S V :=
  { σ with delivered := σ.delivered ++ [(p, s, v)] }

/-- An event of `p` comes to the socket of `q`. -/
def arrive (σ : Startup P Cl S V) (p q : P) (s : S) (v : V) : Startup P Cl S V :=
  match σ.status q with
  | .bound | .running => σ.deliver q s v
  | .offered =>
      -- it waits behind the connection with the graph
      { σ.deliver q s v with tooEarly := σ.tooEarly ++ [(p, q)] }
  | .waiting => { σ.setStatus q .failed with tooEarly := σ.tooEarly ++ [(p, q)] }
  | .closed | .failed => { σ with tooEarly := σ.tooEarly ++ [(p, q)] }

variable [DecidableEq Cl]

/-- `emmit` and `send_sync_event`, when `READ` returns `r`: the `STORE` returns the old
turn. -/
def emmit (c : Config P Cl S K V) (σ : Startup P Cl S V) (p : P) (s : S) (v : V) (r : Nat) :
    Startup P Cl S V :=
  let k := c.cluster s
  if p ∈ c.processes k then σ.deliver p s v
  else
    let turns := Function.update (σ.cur p) k ((r + 1) % (c.processes k).length)
    let σ' := { σ with cur := Function.update σ.cur p turns }
    match (c.processes k)[σ.cur p k]? with
    | some q => σ'.arrive p q s v
    | none => σ'

variable [DecidableEq S] [DecidableEq K] [DecidableEq V]

/-- One step. -/
def step (c : Config P Cl S K V) (σ : Startup P Cl S V) :
    Move P S K V → Option (Startup P Cl S V)
  | .ship =>
      match σ.awaiting, σ.toShip with
      | none, d :: rest =>
          if σ.status d = .waiting then
            some { σ.setStatus d .offered with toShip := rest, awaiting := some d }
          else none
      | _, _ => none
  | .accept d => if σ.status d = .offered then some (σ.setStatus d .bound) else none
  | .answer d =>
      if σ.awaiting = some d ∧ σ.status d = .bound then some (σ.run d (c.autostarts d)) else none
  | .acknowledge =>
      match σ.awaiting with
      | some d => if σ.status d = .running then some { σ with awaiting := none } else none
      | none => none
  | .bind =>
      if σ.awaiting = none ∧ σ.toShip = [] ∧ σ.status c.launcher = .closed then
        some (σ.setStatus c.launcher .bound)
      else none
  | .init =>
      if σ.status c.launcher = .bound then some (σ.run c.launcher c.launched) else none
  | .emit p =>
      match σ.status p, σ.todo p with
      | .running, (s, v) :: es =>
          some (emmit c { σ with todo := Function.update σ.todo p es } p s v
            (σ.cur p (c.cluster s)))
      | _, _ => none
  | .handle p s v key v' r =>
      match c.consumer s key with
      | some s' =>
          if σ.status p = .running ∧ σ.todo p = [] ∧ (p, s, v) ∈ σ.delivered ∧
              (key, v') ∈ c.handler s v ∧ r < (c.processes (c.cluster s')).length then
            some (emmit c σ p s' v' r)
          else none
      | none => none

/-- **What a step can be.** -/
inductive StepKind (c : Config P Cl S K V) (σ : Startup P Cl S V) :
    Move P S K V → Startup P Cl S V → Prop
  | ship {d : P} {rest : List P} (ha : σ.awaiting = none) (hsh : σ.toShip = d :: rest)
      (hd : σ.status d = .waiting) :
      StepKind c σ .ship { σ.setStatus d .offered with toShip := rest, awaiting := some d }
  | accept {d : P} (hd : σ.status d = .offered) :
      StepKind c σ (.accept d) (σ.setStatus d .bound)
  | answer {d : P} (ha : σ.awaiting = some d) (hd : σ.status d = .bound) :
      StepKind c σ (.answer d) (σ.run d (c.autostarts d))
  | acknowledge {d : P} (ha : σ.awaiting = some d) (hd : σ.status d = .running) :
      StepKind c σ .acknowledge { σ with awaiting := none }
  | bind (ha : σ.awaiting = none) (hsh : σ.toShip = [])
      (hl : σ.status c.launcher = .closed) : StepKind c σ .bind (σ.setStatus c.launcher .bound)
  | init (hl : σ.status c.launcher = .bound) : StepKind c σ .init (σ.run c.launcher c.launched)
  | emit {p : P} {s : S} {v : V} {es : List (S × V)} (hp : σ.status p = .running)
      (ht : σ.todo p = (s, v) :: es) : StepKind c σ (.emit p)
        (emmit c { σ with todo := Function.update σ.todo p es } p s v (σ.cur p (c.cluster s)))
  | handle {p : P} {s s' : S} {v v' : V} {key : K} {r : Nat} (hc : c.consumer s key = some s')
      (hp : σ.status p = .running) (hd : (p, s, v) ∈ σ.delivered)
      (hh : (key, v') ∈ c.handler s v) : StepKind c σ (.handle p s v key v' r) (emmit c σ p s' v' r)

/-- Every step is one of these. -/
theorem step_cases {c : Config P Cl S K V} {σ σ' : Startup P Cl S V} {m : Move P S K V}
    (hs : step c σ m = some σ') : StepKind c σ m σ' := by
  cases m with
  | ship =>
      simp only [step] at hs
      split at hs
      · rename_i ha hsh
        split at hs
        · rename_i hd
          cases hs
          exact .ship ha hsh hd
        · cases hs
      · cases hs
  | accept d =>
      simp only [step] at hs
      split at hs
      · rename_i hd
        cases hs
        exact .accept hd
      · cases hs
  | answer d =>
      simp only [step] at hs
      split at hs
      · rename_i hd
        cases hs
        exact .answer hd.1 hd.2
      · cases hs
  | acknowledge =>
      simp only [step] at hs
      split at hs
      · rename_i ha
        split at hs
        · rename_i hd
          cases hs
          exact .acknowledge ha hd
        · cases hs
      · cases hs
  | bind =>
      simp only [step] at hs
      split at hs
      · rename_i hb
        cases hs
        exact .bind hb.1 hb.2.1 hb.2.2
      · cases hs
  | init =>
      simp only [step] at hs
      split at hs
      · rename_i hl
        cases hs
        exact .init hl
      · cases hs
  | emit p =>
      simp only [step] at hs
      split at hs
      · rename_i hp ht
        cases hs
        exact .emit hp ht
      · cases hs
  | handle p s v key v' r =>
      simp only [step] at hs
      split at hs
      · rename_i hc
        split at hs
        · rename_i hg
          cases hs
          exact .handle hc hg.1 hg.2.2.1 hg.2.2.2.1
        · cases hs
      · cases hs

/-- **Nothing comes too early**: no event was sent to a process that was not listening,
and no process has taken an event for the graph. -/
def Safe (σ : Startup P Cl S V) : Prop := σ.tooEarly = [] ∧ ∀ p, σ.status p ≠ .failed

end Startup

end Leda.Process
