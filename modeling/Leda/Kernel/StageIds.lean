import Leda.Kernel.Scheduler
import Mathlib.Algebra.Group.Int.Defs
import Leda.Lib.Logged

/-!
# Stage ids and the vectors they index

A stage id comes into a process from two sides: in the header of an event frame, and as
the first argument of `kernel.send`.  Here the functions it then passes through are
written once more, with a log of every element of a per-stage vector they touch; apart
from the log they are the functions of the previous modules (`val_emmitPackedEvent`,
`val_emmit`).

The id is looked at in two places.  `instance_aquire` returns `NULL` for an id beyond
`n_s`, and `n_s` itself is not beyond: the comparison should have been `>=`.  And the
`NULL` it returns for the others means "no instance" to its callers, which then push the
event into the pending queue *of that stage*.  `leda_send` makes the comparison again,
with the same boundary, but refuses the ids beyond it before anything is indexed.  So
(`stage_ids_checked_iff`) a frame is harmless exactly if it names a stage, and a send
exactly if it does not name `n_s`.

What the kernel does after an access outside a vector is undefined; the logs go on as if
the vectors had no end, and it does not matter how.
-/

universe u

namespace Leda.Kernel

open Leda.Lib

variable {U V : Type u}

/-- The vectors that are indexed by a stage id. -/
inductive StageVector
  | /-- `main_graph->s` -/
    s
  | recycleQueues
  | eventQueues
  | numberOfInstances
  | recycleQueueLimits
deriving Repr, DecidableEq

/-- An element of a vector. -/
abbrev Access := StageVector × StageId

/-- The id names a stage. -/
def Graph.Valid (g : Graph) (s : StageId) : Prop := 0 ≤ s ∧ s < g.nS

instance (g : Graph) (s : StageId) : Decidable (g.Valid s) := inferInstanceAs (Decidable (_ ∧ _))

/-- The comparison `s>main_graph->n_s` of an `int` and a `size_t`, as C makes it. -/
theorem Graph.beyond_iff_size_t {g : Graph} {s : Int} (hs : -2 ^ 31 ≤ s) (hs' : s < 2 ^ 31)
    (hn : 0 ≤ g.nS) (hn' : g.nS < 2 ^ 63) : g.Beyond s ↔ g.nS < s % 2 ^ 64 := by
  change (s < 0 ∨ g.nS < s) ↔ _
  omega

namespace State

variable (xf : Transfer U V) (k : State V)

/-- Touch an element of a vector. -/
def touch (v : StageVector) (s : StageId) : Logged Access PUnit.{u + 1} := .tell (v, s)

/-- `instance_destroy`, of an instance of stage `s`. -/
def instanceDestroyLogged (i : InstId) (s : StageId) : Logged Access (State V) := do
  touch .numberOfInstances s
  return k.instanceDestroy i

/-- The creation at the end of `instance_aquire`. -/
def instanceCreateLogged (s : StageId) (c : Creation) :
    Logged Access (State V × Option InstId) := do
  touch .numberOfInstances s
  let k' := ((k.statsActive s).addInstances s 1).newInstance s
  match c with
  | .loadFails => return (k', none)
  | .ok =>
      -- the name, the environment and the outputs of the stage
      touch .s s
      return (k', some k.nextInst)
  | .initFails =>
      touch .s s
      let k' ← k'.instanceDestroyLogged k.nextInst s
      return (k', none)

/-- `instance_aquire`. -/
def instanceAquireLogged (s : StageId) (c : Creation) :
    Logged Access (State V × Option InstId) :=
  if k.graph.Beyond s then return (k, none)
  else do
    touch .recycleQueues s
    match k.tryPopRecycle s with
    | some (i, k') => return (k'.statsActive (k'.stageOf i), some i)
    | none => do
        touch .numberOfInstances s
        touch .recycleQueueLimits s
        if k.numberOfInstances s = k.recycleQueueLimits s then return (k, none)
        else k.instanceCreateLogged s c

/-- `instance_try_push_pending_event`. -/
def instanceTryPushPendingEventLogged (dst : StageId) (e : List V) :
    Logged Access (Option (State V)) := do
  touch .eventQueues dst
  return k.instanceTryPushPendingEvent dst e

/-- `emmit_packed_event`. -/
def emmitPackedEventLogged (dst : StageId) (e : List V) (c : Creation) :
    Logged Access (State V × Int) := do
  match ← k.instanceAquireLogged dst c with
  | (k, none) =>
      match ← k.instanceTryPushPendingEventLogged dst e with
      | none => return (k, -1)
      | some k => return (k, 0)
  | (k, some i) =>
      return ((k.modifyInst i fun d ↦ { d with packedEvent := some e }).pushReadyQueue i, 0)

/-- `emmit_remote_sync`; `send_sync_event` looks for the cluster of the stage again. -/
def emmitRemoteSyncLogged (con : ConnectorId) (dst : StageId) (args : List U)
    (reply : Except String Unit) : Logged Access (State V × Sent) :=
  match xf.remote args with
  | .raised _ | .crash => return k.emmitRemoteSync xf con args reply
  | .ok _ => do
      touch .s dst
      return k.emmitRemoteSync xf con args reply

/-- `emmit`. -/
def emmitLogged (con : ConnectorId) (dst : StageId) (args : List U) (c : Creation)
    (reply : Except String Unit) : Logged Access (State V × Sent) := do
  -- `CLUSTER(STAGE(dst_id)->cluster)->local`
  touch .s dst
  if !k.graph.isLocal dst then k.emmitRemoteSyncLogged xf con dst args reply
  else
    match ← k.instanceAquireLogged dst c with
    | (k, none) =>
        match xf.extract args with
        | .raised m => return (k, .raised m)
        | .crash => return (k, .crash)
        | .ok e =>
            match ← k.instanceTryPushPendingEventLogged dst e with
            | none =>
                touch .s dst
                return (k, .refused ("Event queue for the stage '" ++ k.graph.name dst ++
                  "' is full."))
            | some k => return (k.statsUpdateEvents (k.graph.producer con) con, .yes)
    | (k, some i) =>
        match xf.copy args with
        | .raised m =>
            return (k.modifyInst i fun d ↦ { d with stack := d.stack ++ [.handler] }, .raised m)
        | .crash => return (k, .crash)
        | .ok e =>
            return (((k.load i e).pushReadyQueue i).statsUpdateEvents (k.graph.producer con) con,
              .yes)

/-- `leda_send`.  The connector is not known. -/
def ledaSendLogged (id : StageId) (args : List U) (c : Creation) (reply : Except String Unit) :
    Logged Access (State V × Sent) :=
  if id < 0 ∨ k.graph.Beyond id then return (k, .refused "Invalid stage id")
  else k.emmitLogged xf (-1) id args c reply

/-! ## The logged functions are the functions -/

variable {xf k} {s dst : StageId} {c : Creation}

theorem val_instanceCreate : (k.instanceCreateLogged s c).val = k.instanceCreate s c := by
  cases c <;> rfl

theorem val_instanceAquire : (k.instanceAquireLogged s c).val = k.instanceAquire s c := by
  unfold instanceAquireLogged instanceAquire
  by_cases hs : k.graph.Beyond s
  · rw [if_pos hs, if_pos hs]
    rfl
  · rw [if_neg hs, if_neg hs, Logged.val_bind]
    cases k.tryPopRecycle s with
    | some p => rfl
    | none =>
        simp only [Logged.val_bind]
        split
        · rfl
        · exact val_instanceCreate

theorem val_emmitPackedEvent {e : List V} :
    (k.emmitPackedEventLogged dst e c).val = k.emmitPackedEvent dst e c := by
  unfold emmitPackedEventLogged emmitPackedEvent
  rw [Logged.val_bind, val_instanceAquire]
  rcases k.instanceAquire dst c with ⟨k₁, _ | i⟩
  · simp only [Logged.val_bind, instanceTryPushPendingEventLogged, Logged.val_pure]
    cases k₁.instanceTryPushPendingEvent dst e <;> rfl
  · rfl

theorem val_emmitRemoteSync {con : ConnectorId} {args : List U} {reply : Except String Unit} :
    (k.emmitRemoteSyncLogged xf con dst args reply).val =
      k.emmitRemoteSync xf con args reply := by
  unfold emmitRemoteSyncLogged
  cases xf.remote args <;> rfl

theorem val_emmit {con : ConnectorId} {args : List U} {reply : Except String Unit} :
    (k.emmitLogged xf con dst args c reply).val = k.emmit xf con dst args c reply := by
  unfold emmitLogged emmit
  rw [Logged.val_bind]
  cases k.graph.isLocal dst with
  | false => exact val_emmitRemoteSync
  | true =>
      simp only [Bool.not_true, Bool.false_eq_true, if_false, Logged.val_bind, val_instanceAquire]
      rcases k.instanceAquire dst c with ⟨k₁, _ | i⟩
      · simp only
        cases xf.extract args with
        | raised m | crash => rfl
        | ok e =>
            simp only [Logged.val_bind, instanceTryPushPendingEventLogged, Logged.val_pure]
            cases k₁.instanceTryPushPendingEvent dst e <;> rfl
      · simp only
        cases xf.copy args <;> rfl

/-! ## What they touch -/

/-- Everything that is touched is at this index. -/
def At (s : StageId) {α : Type u} (x : Logged Access α) : Prop := x.All fun a ↦ a.2 = s

theorem at_touch {v : StageVector} : At s (touch v s) := Logged.all_tell.2 rfl

theorem at_instanceCreate : At s (k.instanceCreateLogged s c) := by
  unfold instanceCreateLogged
  refine Logged.all_bind.2 ⟨at_touch, ?_⟩
  cases c with
  | loadFails => exact Logged.all_pure _
  | ok => exact Logged.all_bind.2 ⟨at_touch, Logged.all_pure _⟩
  | initFails =>
      refine Logged.all_bind.2 ⟨at_touch, Logged.all_bind.2 ⟨?_, Logged.all_pure _⟩⟩
      exact Logged.all_bind.2 ⟨at_touch, Logged.all_pure _⟩

theorem at_instanceAquire : At s (k.instanceAquireLogged s c) := by
  unfold instanceAquireLogged
  split
  · exact Logged.all_pure _
  · refine Logged.all_bind.2 ⟨at_touch, ?_⟩
    cases k.tryPopRecycle s with
    | some p => exact Logged.all_pure _
    | none =>
        refine Logged.all_bind.2 ⟨at_touch, Logged.all_bind.2 ⟨at_touch, ?_⟩⟩
        split
        · exact Logged.all_pure _
        · exact at_instanceCreate

theorem at_instanceTryPushPendingEvent {e : List V} :
    At dst (k.instanceTryPushPendingEventLogged dst e) :=
  Logged.all_bind.2 ⟨at_touch, Logged.all_pure _⟩

theorem at_emmitPackedEvent {e : List V} : At dst (k.emmitPackedEventLogged dst e c) := by
  refine Logged.all_bind.2 ⟨at_instanceAquire, ?_⟩
  rcases (k.instanceAquireLogged dst c).val with ⟨k₁, _ | i⟩
  · refine Logged.all_bind.2 ⟨at_instanceTryPushPendingEvent, ?_⟩
    cases (k₁.instanceTryPushPendingEventLogged dst e).val <;> exact Logged.all_pure _
  · exact Logged.all_pure _

theorem at_emmit {con : ConnectorId} {args : List U} {reply : Except String Unit} :
    At dst (k.emmitLogged xf con dst args c reply) := by
  refine Logged.all_bind.2 ⟨at_touch, ?_⟩
  split
  · unfold emmitRemoteSyncLogged
    cases xf.remote args with
    | raised m | crash => exact Logged.all_pure _
    | ok b => exact Logged.all_bind.2 ⟨at_touch, Logged.all_pure _⟩
  · refine Logged.all_bind.2 ⟨at_instanceAquire, ?_⟩
    rcases (k.instanceAquireLogged dst c).val with ⟨k₁, _ | i⟩
    · simp only
      cases xf.extract args with
      | raised m | crash => exact Logged.all_pure _
      | ok e =>
          refine Logged.all_bind.2 ⟨at_instanceTryPushPendingEvent, ?_⟩
          cases (k₁.instanceTryPushPendingEventLogged dst e).val with
          | none => exact Logged.all_bind.2 ⟨at_touch, Logged.all_pure _⟩
          | some k₂ => exact Logged.all_pure _
    · simp only
      cases xf.copy args <;> exact Logged.all_pure _

/-- A frame touches a vector whatever its id is: the pending queue when there is no
instance, the recycle queue before. -/
theorem emmitPackedEvent_touches {e : List V} : (k.emmitPackedEventLogged dst e c).log ≠ [] := by
  intro hnil
  rw [emmitPackedEventLogged, Logged.log_bind, List.append_eq_nil_iff] at hnil
  obtain ⟨haquire, hpush⟩ := hnil
  unfold instanceAquireLogged at haquire hpush
  by_cases hs : k.graph.Beyond dst
  · rw [if_pos hs] at hpush
    simp [instanceTryPushPendingEventLogged, touch] at hpush
  · rw [if_neg hs] at haquire
    simp [touch] at haquire

end State

/-! ## Checked ids -/

/-- The call was answered with an error before anything was indexed, or it has touched
nothing but elements of stages of the graph. -/
def Checked (g : Graph) {α : Type u} (isError : α → Prop) (x : Logged Access α) : Prop :=
  x.log = [] ∧ isError x.val ∨ x.All fun a ↦ g.Valid a.2

/-- A call that indexes something, always at the same place, is checked if that is the
place of a stage. -/
theorem checked_iff_of_at {g : Graph} {s : StageId} {α : Type u} {isError : α → Prop}
    {x : Logged Access α} (hat : State.At s x) (hne : x.log ≠ []) :
    Checked g isError x ↔ g.Valid s := by
  obtain ⟨a, ha⟩ := List.exists_mem_of_ne_nil _ hne
  constructor
  · rintro (⟨hnil, -⟩ | hall)
    · exact absurd hnil hne
    · exact hat a ha ▸ hall a ha
  · intro hs
    refine .inr fun b hb ↦ ?_
    have hbs : b.2 = s := hat b hb
    change g.Valid b.2
    rwa [hbs]

/-- `emmit_packed_event` has failed; `read_event` answers `2`. -/
def frameFailed (r : State V × Int) : Prop := r.2 ≠ 0

/-- `leda_send` returns an error. -/
def sendFailed (r : State V × Sent) : Prop := ∃ msg, r.2 = .refused msg

/-- An id that `leda_send` refuses is not `n_s`. -/
theorem ne_nS_of_refused {g : Graph} {id : StageId} (hn : 0 ≤ g.nS)
    (h : id < 0 ∨ g.Beyond id) : id ≠ g.nS := by
  rcases h with hneg | hneg | hbeyond
  · exact (hneg.trans_le hn).ne
  · exact (hneg.trans_le hn).ne
  · exact hbeyond.ne'

/-- An id that it lets through names a stage, or is `n_s`. -/
theorem valid_iff_of_passed {g : Graph} {id : StageId} (h : ¬ (id < 0 ∨ g.Beyond id)) :
    g.Valid id ↔ id ≠ g.nS := by
  obtain ⟨hneg, hbeyond⟩ := not_or.1 h
  have hle : id ≤ g.nS := not_lt.1 (not_or.1 hbeyond).2
  exact ⟨fun hv ↦ hv.2.ne, fun hne ↦ ⟨not_lt.1 hneg, lt_of_le_of_ne hle hne⟩⟩

/-- **When a stage id is checked before it indexes a vector.**  In every state, with every
event and whatever `instance_aquire` finds: the id of a frame is checked iff it names a
stage of the graph, the id of a `kernel.send` iff it is not the number of stages. -/
theorem stage_ids_checked_iff (xf : Transfer U V) (k : State V) (id : StageId) (e : List V)
    (args : List U) (c : Creation) (reply : Except String Unit) (hn : 0 ≤ k.graph.nS) :
    (Checked k.graph frameFailed (k.emmitPackedEventLogged id e c) ↔ k.graph.Valid id) ∧
    (Checked k.graph sendFailed (k.ledaSendLogged xf id args c reply) ↔ id ≠ k.graph.nS) := by
  refine ⟨checked_iff_of_at State.at_emmitPackedEvent State.emmitPackedEvent_touches, ?_⟩
  unfold State.ledaSendLogged
  by_cases hid : id < 0 ∨ k.graph.Beyond id
  · rw [if_pos hid]
    exact iff_of_true (.inl ⟨rfl, _, rfl⟩) (ne_nS_of_refused hn hid)
  · rw [if_neg hid, checked_iff_of_at State.at_emmit (by simp [State.emmitLogged, State.touch])]
    exact valid_iff_of_passed hid

/-- **An id that is not checked**: a frame for the stage `-1` touches the pending queue of
that stage. -/
theorem stage_ids_unchecked :
    ¬ ∀ (xf : Transfer Nat Nat) (k : State Nat) (id : StageId) (e : List Nat) (args : List Nat)
      (c : Creation) (reply : Except String Unit), 0 ≤ k.graph.nS →
      Checked k.graph frameFailed (k.emmitPackedEventLogged id e c) ∧
      Checked k.graph sendFailed (k.ledaSendLogged xf id args c reply) := by
  intro h
  have hk := h (.plain Nat) (.instanceInit (.single false) .exactly (-1) (-1))
  have hframe := (hk (-1) [] [] .ok (.ok ()) (by decide)).1
  rw [checked_iff_of_at State.at_emmitPackedEvent State.emmitPackedEvent_touches] at hframe
  exact absurd hframe (by decide)

/-- The only stage of a graph is checked on both routes. -/
theorem stage_ids_checked_zero :
    let k : State Nat := .instanceInit (.single false) .exactly (-1) (-1)
    Checked k.graph frameFailed (k.emmitPackedEventLogged 0 [] .ok) ∧
      Checked k.graph sendFailed (k.ledaSendLogged (.plain Nat) 0 [] .ok (.ok ())) := by
  have h := stage_ids_checked_iff (.plain Nat)
    (.instanceInit (.single false) .exactly (-1) (-1)) 0 [] [] .ok (.ok ()) (by decide)
  exact ⟨h.1.2 (by decide), h.2.2 (by decide)⟩

end Leda.Kernel
