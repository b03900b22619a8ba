import Leda.Kernel.OneOwner
import Leda.Kernel.LuaStack

/-!
# What a worker finds on the stack

Whoever makes an instance ready owes its handler certain values: the arguments of an
event, or the values a waiting call is to return.  A `Ledger` is the interleaving
machine with these promises written down when they are made; the values a handler
leaves on the stack of its instance when it returns or yields are arbitrary and part
of the run.

`Due d vals` is what a worker relies on when it takes an instance: the handler and
exactly the promised values on the stack, with their number in `args`, or the promised
event packed beside an empty stack.  It holds of every instance on the ready queue in
every run (`resumable`), because every place an instance can be in has its own shape
(`Shape`): idle instances have an empty stack, waiting and running ones no packed
event, and what a thread holds has the shape its frame says.  The moves between these
places are the ones of `Owned`; as no instance is in two of them, what a step does to
one stack leaves all other promises alone.
-/

universe u v

namespace Leda.Kernel

open Leda.Lib List

variable {U V : Type u} {T : Type v}

/-! ## Shapes -/

/-- The instance is ready for a call of its handler with `vals`. -/
def Due (d : Instance V) (vals : List (Slot V)) : Prop :=
  (d.packedEvent = none ∧ d.stack = .handler :: vals ∧ d.args = vals.length) ∨
    ∃ e, d.packedEvent = some e ∧ d.stack = [] ∧ vals = e.map .value

/-- What is known of an instance. -/
inductive Shape
  | due
  | idle
  | unpacked
  | any
deriving Repr, DecidableEq

/-- `vals` is what was promised to the handler of the instance. -/
def Shape.Holds : Shape → Instance V → List (Slot V) → Prop
  | due, d, vals => Due d vals
  | idle, d, _ => d.stack = [] ∧ d.packedEvent = none
  | unpacked, d, _ => d.packedEvent = none
  | any, _, _ => True

/-- The shapes of the instances held for a purpose. -/
def Purpose.shapes : Purpose U V → List (InstId × Shape)
  | .cohort caller .. => [(caller, .unpacked)]
  | _ => []

/-- The shapes of the instances a frame holds. -/
def Frame.shapes : Frame U V → List (InstId × Shape)
  | .handler i => [(i, .unpacked)]
  | .aquire _ p | .readCount _ p | .readLimit _ _ p | .add _ p => p.shapes
  | .chunk _ i p => (i, .idle) :: p.shapes
  | .abandon _ i p => (i, .any) :: p.shapes
  | .pushEvent .. => []
  | .pushReady i => [(i, .due)]
  | .pushCaller caller callee _ => [(caller, .due), (callee, .due)]
  | .popEvent i | .recycle i => [(i, .idle)]
  | .destroy i => [(i, .any)]

/-- The shapes of the instances a stack of frames holds. -/
def shapesOf (fs : List (Frame U V)) : List (InstId × Shape) := fs.flatMap Frame.shapes

@[simp] theorem shapesOf_nil : shapesOf ([] : List (Frame U V)) = [] := rfl

@[simp] theorem shapesOf_cons (f : Frame U V) (fs : List (Frame U V)) :
    shapesOf (f :: fs) = f.shapes ++ shapesOf fs := rfl

theorem shapesOf_singleton (f : Frame U V) : shapesOf [f] = f.shapes := append_nil _

@[simp] theorem shapesOf_append (fs gs : List (Frame U V)) :
    shapesOf (fs ++ gs) = shapesOf fs ++ shapesOf gs := flatMap_append

/-- **Every instance has the shape of its place.**  `sh t` lists what thread `t` holds,
`due i` is what was promised to the handler of `i`. -/
structure Shaped (k : State V) (sh : T → List (InstId × Shape))
    (due : InstId → List (Slot V)) : Prop where
  owned : Owned k fun t ↦ (sh t).map Prod.fst
  ready : ∀ i, some i ∈ k.readyQueue.items → Shape.due.Holds (k.inst i) (due i)
  recycle : ∀ s, ∀ i ∈ (k.recycleQueues s).items, Shape.idle.Holds (k.inst i) (due i)
  registered : ∀ p ∈ k.registered, Shape.unpacked.Holds (k.inst p.1) (due p.1)
  hands : ∀ t, ∀ p ∈ sh t, p.2.Holds (k.inst p.1) (due p.1)

/-- `thread_resume_instance` up to its call of `lua_pcall`: a packed event is
unpacked. -/
def State.unpackEvent (k : State V) (i : InstId) : State V :=
  match (k.inst i).packedEvent with
  | none => k
  | some e => (k.modifyInst i fun d ↦ { d with packedEvent := none }).load i e

/-- **Before the call** the stack is the handler and the promised values. -/
theorem Due.unpackEvent {k : State V} {i : InstId} {vals : List (Slot V)}
    (h : Due (k.inst i) vals) :
    ((k.unpackEvent i).inst i).stack = .handler :: vals ∧
      ((k.unpackEvent i).inst i).args = vals.length ∧
      ((k.unpackEvent i).inst i).packedEvent = none := by
  rcases h with ⟨hp, hs, ha⟩ | ⟨e, hp, hs, rfl⟩
  · simp only [State.unpackEvent, hp]
    exact ⟨hs, ha, trivial⟩
  · simp [State.unpackEvent, hp, State.load, State.inst_modifyInst_self, hs]

/-- **The call** passes exactly the promised values and leaves nothing below them. -/
theorem Due.resume {k : State V} {i : InstId} {vals : List (Slot V)} (h : Due (k.inst i) vals) :
    (k.resumeInstance i).2 = vals ∧ ((k.resumeInstance i).1.inst i).stack = [] ∧
      ((k.resumeInstance i).1.inst i).packedEvent = none := by
  obtain ⟨hs, ha, hp⟩ := h.unpackEvent
  have hr : k.resumeInstance i = ((k.unpackEvent i).modifyInst i fun d ↦
      { d with stack := d.stack.take (d.stack.length - d.args - 1) },
      State.callArgs ((k.unpackEvent i).inst i)) := rfl
  rw [hr]
  simp only [State.callArgs, State.inst_modifyInst_self, hs, ha, hp]
  simp

/-! ## Rules -/

namespace Shaped

variable {k k' : State V} {sh : T → List (InstId × Shape)}
  {due due' : InstId → List (Slot V)} {t : T} {i : InstId} {s : StageId}
  {l : List (InstId × Shape)}

/-- What a thread holds is nowhere else. -/
theorem elsewhere (h : Shaped k sh due) (hi : i ∈ (sh t).map Prod.fst) :
    some i ∉ k.readyQueue.items ∧ (∀ s, i ∉ (k.recycleQueues s).items) ∧
      i ∉ k.registered.map Prod.fst ∧ ∀ r, r ≠ t → i ∉ (sh r).map Prod.fst := by
  have hx := h.owned.exclusive
  have hout : ∀ q : Place T, q ≠ .hands t → i ∉ places k (fun t ↦ (sh t).map Prod.fst) q :=
    fun q hq hm ↦ hq (hx.place_unique (q := .hands t) hm hi)
  refine ⟨fun hm ↦ hout .ready (by simp) ?_, fun s ↦ hout (.recycle s) (by simp),
    hout .registered (by simp), fun r hr ↦ hout (.hands r) (by simp [hr])⟩
  exact mem_filterMap.2 ⟨_, hm, rfl⟩

/-- The instance of a running or waiting handler has no packed event. -/
theorem unpacked (h : Shaped k sh due) (ht : (i, Shape.unpacked) ∈ sh t) :
    (k.inst i).packedEvent = none := h.hands t _ ht

/-- A change that moves no instance and touches no stack. -/
theorem same (h : Shaped k sh due) (hs : Same k k') (hi : k'.inst = k.inst) :
    Shaped k' sh due where
  owned := h.owned.same hs
  ready := by rw [hs.ready, hi]; exact h.ready
  recycle := by
    intro s
    rw [hs.recycle s, hi]
    exact h.recycle s
  registered := by rw [hs.registered, hi]; exact h.registered
  hands := by rw [hi]; exact h.hands

variable [DecidableEq T]

/-- The instances held after the shapes of one thread changed. -/
theorem map_update (sh : T → List (InstId × Shape)) (t : T) (l : List (InstId × Shape)) :
    (fun r ↦ (Function.update sh t l r).map Prod.fst) =
      Function.update (fun r ↦ (sh r).map Prod.fst) t (l.map Prod.fst) := by
  funext r
  by_cases hr : r = t
  · subst hr; simp
  · simp [hr]

/-- **The frame rule**: a thread works on the stacks of instances it holds, and may drop
some of them. -/
theorem touch (h : Shaped k sh due) (touched : List InstId) (hs : Same k k')
    (hin : ∀ i ∈ touched, i ∈ (sh t).map Prod.fst)
    (hout : ∀ i, i ∉ touched → k'.inst i = k.inst i ∧ due' i = due i)
    (hsub : l.map Prod.fst <+~ (sh t).map Prod.fst)
    (hl : ∀ p ∈ l, p.2.Holds (k'.inst p.1) (due' p.1)) :
    Shaped k' (Function.update sh t l) due' where
  owned := by
    rw [map_update]
    exact (h.owned.drop hsub).same hs
  ready i hi := by
    rw [hs.ready] at hi
    obtain ⟨h₁, h₂⟩ := hout i fun hm ↦ (h.elsewhere (hin i hm)).1 hi
    rw [h₁, h₂]
    exact h.ready i hi
  recycle s i hi := by
    rw [hs.recycle s] at hi
    obtain ⟨h₁, h₂⟩ := hout i fun hm ↦ (h.elsewhere (hin i hm)).2.1 s hi
    rw [h₁, h₂]
    exact h.recycle s i hi
  registered p hp := by
    rw [hs.registered] at hp
    obtain ⟨h₁, h₂⟩ := hout p.1 fun hm ↦
      (h.elsewhere (hin p.1 hm)).2.2.1 (mem_map.2 ⟨p, hp, rfl⟩)
    rw [h₁, h₂]
    exact h.registered p hp
  hands r p hp := by
    by_cases hr : r = t
    · subst hr
      rw [Function.update_self] at hp
      exact hl p hp
    · rw [Function.update_of_ne hr] at hp
      obtain ⟨h₁, h₂⟩ := hout p.1 fun hm ↦
        (h.elsewhere (hin p.1 hm)).2.2.2 r hr (mem_map.2 ⟨p, hp, rfl⟩)
      rw [h₁, h₂]
      exact h.hands r p hp

/-- A thread looks at what it holds in another way. -/
theorem hold (h : Shaped k sh due) (hsub : l.map Prod.fst <+~ (sh t).map Prod.fst)
    (hl : ∀ p ∈ l, p.2.Holds (k.inst p.1) (due p.1)) : Shaped k (Function.update sh t l) due :=
  h.touch [] (.refl k) (by simp) (fun _ _ ↦ ⟨rfl, rfl⟩) hsub hl

/-- A thread goes on with what it holds. -/
theorem keep (h : Shaped k sh due) (ht : sh t = l) : Shaped k (Function.update sh t l) due :=
  h.hold (by rw [ht]) fun p hp ↦ h.hands t p (ht ▸ hp)

/-- The usual case: the stack of one instance it holds. -/
theorem setHead (h : Shaped k sh due) {κ : Shape} (κ' : Shape) (ht : sh t = (i, κ) :: l)
    (hs : Same k k')
    (hi : ∀ j, j ≠ i → k'.inst j = k.inst j) (hd : ∀ j, j ≠ i → due' j = due j)
    (hκ : κ'.Holds (k'.inst i) (due' i)) :
    Shaped k' (Function.update sh t ((i, κ') :: l)) due' := by
  have hmem : i ∈ (sh t).map Prod.fst := by rw [ht]; exact mem_cons_self
  refine h.touch [i] hs ?_ ?_ (by rw [ht]; exact Subperm.refl _) ?_
  · intro j hj
    obtain rfl := mem_singleton.1 hj
    exact hmem
  · intro j hj
    have hne : j ≠ i := fun e ↦ hj (e ▸ mem_singleton_self _)
    exact ⟨hi j hne, hd j hne⟩
  · intro p hp
    rcases mem_cons.1 hp with rfl | hrest
    · exact hκ
    · -- no instance is held twice
      have hnd : ((i, κ) :: l).map Prod.fst |>.Nodup := by
        have := h.owned.exclusive.nodup (.hands t)
        rwa [places, ht] at this
      have hne : p.1 ≠ i := by
        rintro rfl
        exact (nodup_cons.1 hnd).1 (mem_map.2 ⟨p, hrest, rfl⟩)
      rw [hi _ hne, hd _ hne]
      exact h.hands t p (by rw [ht]; exact mem_cons_of_mem _ hrest)

/-- The shapes in the hands of the threads after one of them gave something away. -/
theorem hands_update (h : Shaped k sh due) (hl : ∀ p ∈ l, p ∈ sh t) :
    ∀ r, ∀ p ∈ Function.update sh t l r, p.2.Holds (k.inst p.1) (due p.1) := by
  intro r p hp
  by_cases hr : r = t
  · subst hr
    rw [Function.update_self] at hp
    exact h.hands r p (hl p hp)
  · rw [Function.update_of_ne hr] at hp
    exact h.hands r p hp

/-- The shapes after one of them took something. -/
theorem hands_cons (h : Shaped k sh due) {p : InstId × Shape}
    (hp : p.2.Holds (k.inst p.1) (due p.1)) :
    ∀ r, ∀ q ∈ Function.update sh t (p :: sh t) r, q.2.Holds (k.inst q.1) (due q.1) := by
  intro r q hq
  by_cases hr : r = t
  · subst hr
    rw [Function.update_self] at hq
    rcases mem_cons.1 hq with rfl | hq
    · exact hp
    · exact h.hands r q hq
  · rw [Function.update_of_ne hr] at hq
    exact h.hands r q hq

/-- `push_ready_queue` of an instance that is due. -/
theorem giveReady (h : Shaped k sh due) (ht : sh t = (i, .due) :: l) :
    Shaped (k.pushReadyQueue i) (Function.update sh t l) due where
  owned := by
    rw [map_update]
    exact h.owned.giveReady (by rw [ht]; exact Subperm.refl _)
  ready j hj := by
    rcases mem_append.1 hj with hj | hj
    · exact h.ready j hj
    · obtain rfl := Option.some.inj (mem_singleton.1 hj)
      exact h.hands t (j, .due) (by rw [ht]; exact mem_cons_self)
  recycle := h.recycle
  registered := h.registered
  hands := h.hands_update fun p hp ↦ by rw [ht]; exact mem_cons_of_mem _ hp

/-- An idle instance goes back to the recycle queue of its stage. -/
theorem giveRecycle (h : Shaped k sh due) (hp : k.tryPushRecycle (k.stageOf i) i = some k')
    (ht : sh t = (i, .idle) :: l) : Shaped k' (Function.update sh t l) due := by
  have ho := h.owned.giveRecycle (t := t) (l := l.map Prod.fst) hp (by
    rw [ht]; exact Subperm.refl _)
  rw [← map_update] at ho
  obtain ⟨-, rfl⟩ := State.tryPushRecycle_eq_some.1 hp
  refine ⟨ho, h.ready, fun s j hj ↦ ?_, h.registered,
    h.hands_update fun p hp ↦ by rw [ht]; exact mem_cons_of_mem _ hp⟩
  by_cases hs : s = k.stageOf i
  · subst hs
    simp only [Function.update_self] at hj
    rcases mem_append.1 hj with hj | hj
    · exact h.recycle _ j hj
    · obtain rfl := mem_singleton.1 hj
      exact h.hands t (j, .idle) (by rw [ht]; exact mem_cons_self)
  · simp only [Function.update_of_ne hs] at hj
    exact h.recycle s j hj

/-- An instance is left to a callback. -/
theorem giveRegistered (h : Shaped k sh due) (c : Completion)
    (ht : sh t = (i, .unpacked) :: l) :
    Shaped (k.register i c) (Function.update sh t l) due where
  owned := by
    rw [map_update]
    exact h.owned.giveRegistered c (by rw [ht]; exact Subperm.refl _)
  ready := h.ready
  recycle := h.recycle
  registered p hp := by
    rcases mem_append.1 hp with hp | hp
    · exact h.registered p hp
    · obtain rfl := mem_singleton.1 hp
      exact h.hands t (i, .unpacked) (by rw [ht]; exact mem_cons_self)
  hands := h.hands_update fun p hp ↦ by rw [ht]; exact mem_cons_of_mem _ hp

/-- A worker takes an instance. -/
theorem takeReady (h : Shaped k sh due) (hp : k.popReady = some (some i, k')) :
    Shaped k' (Function.update sh t ((i, .due) :: sh t)) due := by
  have ho := h.owned.takeReady (t := t) (l := ((i, Shape.due) :: sh t).map Prod.fst) hp
    (Subperm.refl _)
  rw [← map_update] at ho
  obtain ⟨q, hi, -, rfl⟩ := State.popReady_eq_some.1 hp
  refine ⟨ho, fun j hj ↦ h.ready j (hi ▸ mem_cons_of_mem _ hj), h.recycle, h.registered, ?_⟩
  exact h.hands_cons (h.ready i (hi ▸ mem_cons_self))

/-- `instance_aquire` takes an idle instance. -/
theorem takeRecycle (h : Shaped k sh due) (hp : k.tryPopRecycle s = some (i, k')) :
    Shaped k' (Function.update sh t ((i, .idle) :: sh t)) due := by
  have ho := h.owned.takeRecycle (t := t) (l := ((i, Shape.idle) :: sh t).map Prod.fst) hp
    (Subperm.refl _)
  rw [← map_update] at ho
  obtain ⟨q, hi, -, rfl⟩ := State.tryPopRecycle_eq_some.1 hp
  refine ⟨ho, h.ready, fun s' j hj ↦ ?_, h.registered, ?_⟩
  · by_cases hs : s' = s
    · subst hs
      simp only [Function.update_self] at hj
      exact h.recycle s' j (hi ▸ mem_cons_of_mem _ hj)
    · simp only [Function.update_of_ne hs] at hj
      exact h.recycle s' j hj
  · exact h.hands_cons (h.recycle s i (hi ▸ mem_cons_self))

/-- A callback takes its instance. -/
theorem takeRegistered (h : Shaped k sh due) {c : Completion} (hi : (i, c) ∈ k.registered) :
    Shaped { k with registered := k.registered.erase (i, c) }
      (Function.update sh t ((i, .unpacked) :: sh t)) due := by
  have ho := h.owned.takeRegistered (t := t) (l := ((i, Shape.unpacked) :: sh t).map Prod.fst) hi
    (Subperm.refl _)
  rw [← map_update] at ho
  refine ⟨ho, h.ready, h.recycle, fun p hp ↦ h.registered p (mem_of_mem_erase hp), ?_⟩
  exact h.hands_cons (h.registered _ hi)

/-- A new instance is idle: its stack is empty. -/
theorem create (h : Shaped k sh due) (s : StageId) :
    Shaped (((k.statsActive s).addInstances s 1).newInstance s)
      (Function.update sh t ((k.nextInst, .idle) :: sh t)) due := by
  have ho := h.owned.create (t := t) (l := ((k.nextInst, Shape.idle) :: sh t).map Prod.fst) s
    (Subperm.refl _)
  rw [← map_update] at ho
  have hnew := h.owned.nextInst_notMem
  have hold : ∀ j, j ≠ k.nextInst →
      (((k.statsActive s).addInstances s 1).newInstance s).inst j = k.inst j := fun j hj ↦
    Function.update_of_ne hj _ _
  refine ⟨ho, fun j hj ↦ ?_, fun s' j hj ↦ ?_, fun p hp ↦ ?_, fun r p hp ↦ ?_⟩
  · rw [hold j fun e ↦ hnew .ready (e ▸ mem_filterMap.2 ⟨_, hj, rfl⟩)]
    exact h.ready j hj
  · rw [hold j fun e ↦ hnew (.recycle s') (e ▸ hj)]
    exact h.recycle s' j hj
  · rw [hold p.1 fun e ↦ hnew .registered (e ▸ mem_map.2 ⟨p, hp, rfl⟩)]
    exact h.registered p hp
  · have hother : ∀ r, ∀ p ∈ sh r, p.2.Holds
        ((((k.statsActive s).addInstances s 1).newInstance s).inst p.1) (due p.1) := by
      intro r p hp
      rw [hold p.1 fun e ↦ hnew (.hands r) (e ▸ mem_map.2 ⟨p, hp, rfl⟩)]
      exact h.hands r p hp
    by_cases hr : r = t
    · subst hr
      rw [Function.update_self] at hp
      rcases mem_cons.1 hp with rfl | hp
      · simp [Shape.Holds, State.newInstance]
      · exact hother r p hp
    · rw [Function.update_of_ne hr] at hp
      exact hother r p hp

/-- `instance_destroy` -/
theorem destroy (h : Shaped k sh due) {κ : Shape} (ht : sh t = (i, κ) :: l) :
    Shaped (k.instanceDestroy i) (Function.update sh t l) due where
  owned := by
    rw [map_update]
    exact h.owned.destroy (by rw [ht]; exact Subperm.refl _)
  ready := h.ready
  recycle := h.recycle
  registered := h.registered
  hands := h.hands_update fun p hp ↦ by rw [ht]; exact mem_cons_of_mem _ hp

end Shaped

/-! ## Promises -/

/-- Write promises down, the last one for an instance counts. -/
def record (ps : List (InstId × List (Slot V))) (due : InstId → List (Slot V)) :
    InstId → List (Slot V) :=
  ps.foldl (fun due p ↦ Function.update due p.1 p.2) due

/-- What is promised when `instance_aquire` returned `i`: the arguments of the event to
its handler, and `true` to the caller of a cohort. -/
def Purpose.granted (xf : Transfer U V) (i : InstId) :
    Purpose U V → List (InstId × List (Slot V))
  | .emmit _ args =>
      match xf.copy args with
      | .ok e => [(i, e.map .value)]
      | .raised _ | .crash => []
  | .packed e => [(i, e.map .value)]
  | .cohort caller _ args =>
      match xf.copy args with
      | .ok e => [(i, e.map .value), (caller, [.boolean true])]
      | .raised _ | .crash => []

/-- What is promised when it returned `NULL`: an error to the caller of a cohort. -/
def Purpose.refused (k : State V) (s : StageId) : Purpose U V → List (InstId × List (Slot V))
  | .cohort caller .. => [(caller, [.nil, .string (k.cohortMessage s)])]
  | _ => []

/-- What is promised to a handler that waits. -/
def Fate.promise (i : InstId) : Fate V → List (InstId × List (Slot V))
  | .resume vals => [(i, vals)]
  | _ => []

/-- What is promised at the next access of a frame. -/
def Frame.promise (xf : Transfer U V) (k : State V) : Frame U V → List (InstId × List (Slot V))
  | .aquire s p =>
      if k.graph.Beyond s then p.refused k s
      else
        match k.tryPopRecycle s with
        | some (i, _) => p.granted xf i
        | none => []
  | .readLimit s n p => if n = k.recycleQueueLimits s then p.refused k s else []
  | .abandon s _ p => p.refused k s
  | .popEvent i =>
      match k.tryPopEvent (k.stageOf i) with
      | some (e, _) => [(i, e.map .value)]
      | none => []
  | _ => []

/-- What is promised in a step of a thread. -/
def promise (xf : Transfer U V) (k : State V) (fs : List (Frame U V)) :
    Act U V → List (InstId × List (Slot V))
  | .callback i c o => [(i, State.completionValues c o)]
  | .ret y =>
      match fs with
      | .handler i :: _ => ((y.fate xf).map (Fate.promise i)).getD []
      | _ => []
  | .chunkEnds c =>
      match fs, c with
      | .chunk _ i p :: _, .ok => p.granted xf i
      | .chunk s _ p :: _, .loadFails => p.refused k s
      | _, _ => []
  | .run =>
      match fs with
      | f :: _ => f.promise xf k
      | [] => []
  | .wait | .emmit .. | .packed .. | .kill => []

/-- The machine with the promises. -/
structure Ledger (T : Type v) (U V : Type u) where
  machine : Machine T U V
  due : InstId → List (Slot V)

namespace Ledger

variable [DecidableEq T]

/-- After `instance_init`, with nothing promised. -/
def init (g : Graph) (ft : FullTest) (recycleLimit pendingLimit : Int) : Ledger T U V :=
  ⟨.init g ft recycleLimit pendingLimit, fun _ ↦ []⟩

/-- `lua_pcall` leaves the values `results` on the stack of the instance whose handler
thread `t` runs. -/
def leave (m : Machine T U V) (t : T) (results : List (Slot V)) : Machine T U V :=
  match m.stack t with
  | .handler i :: _ =>
      { m with kernel := m.kernel.modifyInst i fun d ↦ { d with stack := d.stack ++ results } }
  | _ => m

/-- One step of one thread; `results` is what a handler that leaves returns or yields. -/
def step (xf : Transfer U V) (σ : Ledger T U V) (l : (T × Act U V) × List (Slot V)) :
    Option (Ledger T U V) :=
  let m := leave σ.machine l.1.1 l.2
  (Machine.step xf m l.1).map fun m' ↦
    ⟨m', record (promise xf m.kernel (m.stack l.1.1) l.1.2) σ.due⟩

end Ledger

/-! ## Steps -/

section Steps

variable [DecidableEq T] {xf : Transfer U V} {k k' : State V}
  {sh : T → List (InstId × Shape)} {due : InstId → List (Slot V)} {t : T} {i : InstId}
  {s : StageId} {p : Purpose U V} {new : List (Frame U V)} {rest : List (InstId × Shape)}

/-- An event loaded into an idle instance. -/
theorem Shaped.load (h : Shaped k sh due) (ht : sh t = (i, .idle) :: rest) (e : List V) :
    Shaped (k.load i e) (Function.update sh t ((i, .due) :: rest))
      (record [(i, e.map .value)] due) := by
  obtain ⟨hs, hp⟩ := h.hands t (i, .idle) (by rw [ht]; exact mem_cons_self)
  refine h.setHead _ ht (.modifyInst ..) (fun j hj ↦ State.inst_modifyInst_of_ne hj)
    (fun j hj ↦ Function.update_of_ne hj _ _) (.inl ?_)
  simp [State.load, State.inst_modifyInst_self, hs, hp, record]

/-- An answer prepared for an instance that holds no packed event, whatever is on its
stack. -/
theorem Shaped.prepare (h : Shaped k sh due) {κ : Shape} (ht : sh t = (i, κ) :: rest)
    (hp : (k.inst i).packedEvent = none) (vals : List (Slot V)) :
    Shaped (k.prepare i vals) (Function.update sh t ((i, .due) :: rest))
      (record [(i, vals)] due) := by
  refine h.setHead _ ht (.modifyInst ..) (fun j hj ↦ State.inst_modifyInst_of_ne hj)
    (fun j hj ↦ Function.update_of_ne hj _ _) (.inl ?_)
  simp [State.prepare, State.inst_modifyInst_self, hp, record]

/-- A worker calls the handler of an instance that is due. -/
theorem Shaped.resume (h : Shaped k sh due) (ht : sh t = (i, .due) :: rest) :
    Shaped (k.resumeInstance i).1 (Function.update sh t ((i, .unpacked) :: rest)) due := by
  have hdue : Due (k.inst i) (due i) := h.hands t (i, .due) (by rw [ht]; exact mem_cons_self)
  obtain ⟨f, hf⟩ := k.resumeInstance_eq i
  refine h.setHead _ ht (.resumeInstance ..) (fun j hj ↦ ?_) (fun _ _ ↦ rfl) hdue.resume.2.2
  rw [hf]
  exact State.inst_modifyInst_of_ne hj

/-- Nothing need be known of an instance that is about to be destroyed. -/
theorem Shaped.forget (h : Shaped k sh due) {κ : Shape} (ht : sh t = (i, κ) :: rest) :
    Shaped k (Function.update sh t ((i, .any) :: rest)) due :=
  h.setHead _ ht (.refl k) (fun _ _ ↦ rfl) (fun _ _ ↦ rfl) trivial

/-- What a caller does with an instance it was granted. -/
theorem granted_shaped (h : Shaped k sh due) (ht : sh t = (i, .idle) :: p.shapes ++ rest)
    (hg : granted xf k i p = some (k', new)) :
    Shaped k' (Function.update sh t (shapesOf new ++ rest)) (record (p.granted xf i) due) := by
  have hidle := h.hands t (i, .idle) (by rw [ht]; exact mem_cons_self)
  cases p with
  | emmit con args =>
      rcases hx : xf.copy args with e | m | _ <;>
        simp only [granted, hx, Option.some.injEq, Prod.mk.injEq, reduceCtorEq] at hg <;>
        simp only [Purpose.granted, hx] <;> obtain ⟨rfl, rfl⟩ := hg
      · exact (h.load ht _).same (.statsUpdateEvents ..) rfl
      · -- the sender gets an error and the instance is lost
        have h₁ := h.setHead .any ht (.modifyInst k i fun d ↦
          { d with stack := d.stack ++ [.handler] })
          (fun j hj ↦ State.inst_modifyInst_of_ne hj) (fun j _ ↦ rfl) trivial
        have h₂ := h₁.hold (t := t) (l := rest) (by
          rw [Function.update_self]
          exact (sublist_cons_self ..).subperm) fun p hp ↦ h₁.hands t p (by
            rw [Function.update_self]
            exact mem_cons_of_mem _ hp)
        rwa [Function.update_idem] at h₂
  | packed e =>
      simp only [granted, Option.some.injEq, Prod.mk.injEq] at hg
      obtain ⟨rfl, rfl⟩ := hg
      refine h.setHead _ ht (.modifyInst ..) (fun j hj ↦ State.inst_modifyInst_of_ne hj)
        (fun j hj ↦ Function.update_of_ne hj _ _) (.inr ⟨e, ?_⟩)
      simp [State.inst_modifyInst_self, hidle.1, record, Purpose.granted]
  | cohort caller con args =>
      rcases hx : xf.copy args with e | m | _ <;>
        simp only [granted, hx, Option.some.injEq, Prod.mk.injEq, reduceCtorEq] at hg
      simp only [Purpose.granted, hx]
      obtain ⟨rfl, rfl⟩ := hg
      have h₁ := h.load ht e
      -- the caller in front
      have h₂ := h₁.hold (t := t) (l := (caller, .unpacked) :: (i, .due) :: rest) (by
        rw [Function.update_self]
        exact (Perm.swap ..).subperm) fun p hp ↦ h₁.hands t p (by
          rw [Function.update_self]
          exact (Perm.swap _ _ _).subset hp)
      have h₃ := h₂.prepare (Function.update_self ..) (h₂.unpacked (t := t) (by
        rw [Function.update_self]
        exact mem_cons_self)) [.boolean true]
      rwa [Function.update_idem, Function.update_idem] at h₃

/-- What a caller does when it was refused an instance. -/
theorem refused_shaped (h : Shaped k sh due) (ht : sh t = p.shapes ++ rest)
    (hr : refused xf k s p = some (k', new)) :
    Shaped k' (Function.update sh t (shapesOf new ++ rest)) (record (p.refused k s) due) := by
  cases p with
  | emmit con args =>
      simp only [refused] at hr
      split at hr <;> simp only [Option.some.injEq, Prod.mk.injEq, reduceCtorEq] at hr <;>
        (obtain ⟨rfl, rfl⟩ := hr; exact h.keep ht)
  | packed e =>
      simp only [refused, Option.some.injEq, Prod.mk.injEq] at hr
      obtain ⟨rfl, rfl⟩ := hr
      exact h.keep ht
  | cohort caller con args =>
      simp only [refused, Option.some.injEq, Prod.mk.injEq] at hr
      obtain ⟨rfl, rfl⟩ := hr
      exact h.prepare ht (h.unpacked (t := t) (by rw [ht]; exact mem_cons_self)) _

/-- What becomes of an instance that yielded. -/
theorem settled_shaped {φ : Fate V} (h : Shaped k sh due) (ht : sh t = (i, .unpacked) :: rest)
    (hs : (settled k i φ : Option (State V × List (Frame U V))) = some (k', new)) :
    Shaped k' (Function.update sh t (shapesOf new ++ rest)) (record (φ.promise i) due) := by
  cases φ with
  | resume vals =>
      simp only [settled, Option.some.injEq, Prod.mk.injEq] at hs
      obtain ⟨rfl, rfl⟩ := hs
      exact h.prepare ht (h.unpacked (t := t) (by rw [ht]; exact mem_cons_self)) vals
  | register c =>
      simp only [settled, Option.some.injEq, Prod.mk.injEq] at hs
      obtain ⟨rfl, rfl⟩ := hs
      exact h.giveRegistered c ht
  | lost =>
      simp only [settled, Option.some.injEq, Prod.mk.injEq] at hs
      obtain ⟨rfl, rfl⟩ := hs
      exact h.hold (by rw [ht]; exact (sublist_cons_self ..).subperm) fun p hp ↦
        h.hands t p (by rw [ht]; exact mem_cons_of_mem _ hp)
  | panic m => simp [settled] at hs
  | crash => simp [settled] at hs

/-- What becomes of an instance whose handler left the processor. -/
theorem returned_shaped {y : Yield U} (h : Shaped k sh due)
    (ht : sh t = (i, .unpacked) :: rest) (hr : returned xf k i y = some (k', new)) :
    Shaped k' (Function.update sh t (shapesOf new ++ rest))
      (record (((y.fate xf).map (Fate.promise i)).getD []) due) := by
  have hp := h.unpacked (t := t) (i := i) (by rw [ht]; exact mem_cons_self)
  -- whether the coroutine is suspended is no part of a shape
  set k₁ := k.modifyInst i fun d ↦ { d with suspended := y.inside } with hk₁
  have h₁ : Shaped k₁ (Function.update sh t ((i, .unpacked) :: rest)) due :=
    h.setHead _ ht (.modifyInst ..) (fun j hj ↦ State.inst_modifyInst_of_ne hj) (fun _ _ ↦ rfl) (by
      simp [Shape.Holds, hk₁, State.inst_modifyInst_self, hp])
  have hself : Function.update sh t ((i, .unpacked) :: rest) t = (i, .unpacked) :: rest :=
    Function.update_self ..
  cases y with
  | ended =>
      simp only [returned, Option.some.injEq, Prod.mk.injEq] at hr
      obtain ⟨rfl, rfl⟩ := hr
      have h₂ := h₁.setHead .idle hself (.modifyInst k₁ i fun d ↦ { d with stack := [] })
        (fun j hj ↦ State.inst_modifyInst_of_ne hj) (fun _ _ ↦ rfl) (by
          simp [Shape.Holds, hk₁, State.inst_modifyInst_self, hp])
      rwa [Function.update_idem] at h₂
  | pcallError =>
      simp only [returned, Option.some.injEq, Prod.mk.injEq] at hr
      obtain ⟨rfl, rfl⟩ := hr
      have hs : Same k₁ ((k₁.statsUpdateError (k₁.stageOf i)).statsInactive (k₁.stageOf i)) :=
        (Same.updateStats ..).trans (.updateStats ..)
      have h₂ := (h₁.forget hself).same hs rfl
      rwa [Function.update_idem] at h₂
  | destroy =>
      simp only [returned, Option.some.injEq, Prod.mk.injEq] at hr
      obtain ⟨rfl, rfl⟩ := hr
      have h₂ := (h₁.forget hself).same (.statsInactive k₁ (k₁.stageOf i)) rfl
      rwa [Function.update_idem] at h₂
  | unknown =>
      simp only [returned, Option.some.injEq, Prod.mk.injEq] at hr
      obtain ⟨rfl, rfl⟩ := hr
      have h₂ := h₁.forget hself
      rwa [Function.update_idem] at h₂
  | cohort dst con args c =>
      simp only [returned, Option.some.injEq, Prod.mk.injEq] at hr
      obtain ⟨rfl, rfl⟩ := hr
      exact h₁
  | nice | remote args written | waitIo fd mode armed | fileIo file mode arg submitted
  | sleep timer armed =>
      simp only [returned] at hr
      have h₂ := settled_shaped h₁ hself hr
      rwa [Function.update_idem] at h₂

/-- **Each access of a frame keeps the shapes.** -/
theorem frameStep_shaped {f : Frame U V} (h : Shaped k sh due) (ht : sh t = f.shapes ++ rest)
    (hf : frameStep xf k f = some (k', new)) :
    Shaped k' (Function.update sh t (shapesOf new ++ rest)) (record (f.promise xf k) due) := by
  cases frameStep_cases hf with
  | beyond hs hr =>
      simp only [Frame.promise, if_pos hs]
      exact refused_shaped h ht hr
  | @recycled s p i k₁ _ _ hs hp hg =>
      simp only [Frame.promise, if_neg hs, hp]
      have h₁ := (h.takeRecycle (t := t) hp).same (.statsActive k₁ (k₁.stageOf i)) rfl
      have h₂ := granted_shaped h₁ (by rw [Function.update_self, ht]; rfl) hg
      rwa [Function.update_idem] at h₂
  | noRecycled hs hp =>
      simp only [Frame.promise, if_neg hs, hp]
      exact h.keep (by rw [ht, shapesOf_singleton]; rfl)
  | atLimit hn hr =>
      simp only [Frame.promise, if_pos hn]
      exact refused_shaped h ht hr
  | belowLimit hn =>
      simp only [Frame.promise, if_neg hn]
      exact h.keep (by rw [ht, shapesOf_singleton]; rfl)
  | readCount => exact h.keep (by rw [ht, shapesOf_singleton]; rfl)
  | @add s =>
      have h₁ := h.create (t := t) s
      rw [ht] at h₁
      rw [shapesOf_singleton]
      exact h₁
  | @abandon s i p _ _ hr =>
      have h₁ := h.destroy (t := t) (i := i) (l := p.shapes ++ rest) (by rw [ht]; rfl)
      have h₂ := refused_shaped h₁ (Function.update_self ..) hr
      rwa [Function.update_idem] at h₂
  | eventsFull => exact h.keep ht
  | pushEvent hp =>
      have hsame := Same.tryPushEvent hp
      obtain ⟨-, rfl⟩ := State.tryPushEvent_eq_some.1 hp
      exact ((h.keep ht).same hsame rfl).same (.statsUpdateEvents ..) rfl
  | pushReady => exact h.giveReady ht
  | @pushCaller caller callee con =>
      have h₁ := (h.giveReady (l := (callee, .due) :: rest) ht).same
        (.statsUpdateEvents _ ((k.pushReadyQueue caller).stageOf caller) con) rfl
      have h₂ := h₁.resume (Function.update_self ..)
      rwa [Function.update_idem] at h₂
  | @popEvent i e k₁ hp =>
      simp only [Frame.promise, hp]
      have hs : Same k ((k₁.statsInactive (k.stageOf i)).statsActive (k.stageOf i)) :=
        (Same.tryPopEvent hp).trans ((Same.statsInactive ..).trans (.statsActive ..))
      have h₁ := h.same hs (by
        obtain ⟨q, -, -, rfl⟩ := State.tryPopEvent_eq_some.1 hp
        rfl)
      exact h₁.load ht e
  | noEvent hp =>
      simp only [Frame.promise, hp]
      exact (h.keep ht).same (.statsInactive ..) rfl
  | recycleFull => exact h.forget ht
  | recycle hp => exact h.giveRecycle hp ht
  | destroy => exact h.destroy ht

/-- **Each step of a thread keeps the shapes.** -/
theorem threadStep_shaped {fs fs' : List (Frame U V)} {a : Act U V} (h : Shaped k sh due)
    (ht : sh t = shapesOf fs) (hs : threadStep xf k fs a = some (k', fs')) :
    Shaped k' (Function.update sh t (shapesOf fs')) (record (promise xf k fs a) due) := by
  cases threadStep_cases hs with
  | wait hp =>
      have h₁ := (h.takeReady (t := t) hp).resume (Function.update_self ..)
      rw [Function.update_idem, ht] at h₁
      exact h₁
  | waitNull hp =>
      have hs' : Shaped k' sh due := by
        obtain ⟨q, hi, -, rfl⟩ := State.popReady_eq_some.1 hp
        exact ⟨h.owned.takeNull hp, fun j hj ↦ h.ready j (hi ▸ mem_cons_of_mem _ hj), h.recycle,
          h.registered, h.hands⟩
      exact hs'.keep ht
  | emmit hm => exact h.keep ht
  | remote hm => exact (h.keep ht).same (.statsUpdateEvents ..) rfl
  | packed => exact h.keep ht
  | kill hm =>
      have hs' : Shaped (k.pushReady none) sh due :=
        ⟨h.owned.giveNull, fun j hj ↦ h.ready j (by simpa using hj), h.recycle, h.registered,
          h.hands⟩
      exact hs'.keep ht
  | @callback i c o hm =>
      have h₁ := h.takeRegistered (t := t) hm
      have h₂ := h₁.prepare (Function.update_self ..) (h₁.unpacked (t := t) (by
        rw [Function.update_self]
        exact mem_cons_self)) (State.completionValues c o)
      rw [Function.update_idem, ht] at h₂
      exact h₂
  | ret hr =>
      rw [shapesOf_append]
      exact returned_shaped h ht hr
  | chunkOk hg =>
      rw [shapesOf_append]
      exact granted_shaped h (by rw [ht]; rfl) hg
  | initFails =>
      exact h.forget (by rw [ht]; rfl)
  | loadFails hr =>
      rw [shapesOf_append]
      have h₁ := h.hold (t := t) (l := Purpose.shapes _ ++ shapesOf _)
        (by rw [ht]; exact (sublist_cons_self ..).subperm) fun p hp ↦
          h.hands t p (by rw [ht]; exact mem_cons_of_mem _ hp)
      have h₂ := refused_shaped (t := t) h₁ (Function.update_self ..) hr
      rwa [Function.update_idem] at h₂
  | run hf =>
      rw [shapesOf_append]
      exact frameStep_shaped h ht hf

end Steps

/-! ## Whole runs -/

namespace Ledger

variable {xf : Transfer U V} {σ σ' : Ledger T U V}

/-- Every instance has the shape of its place. -/
def Kept (σ : Ledger T U V) : Prop :=
  Shaped σ.machine.kernel (fun t ↦ shapesOf (σ.machine.stack t)) σ.due

/-- Nothing is anywhere at the start. -/
theorem kept_init (g : Graph) (ft : FullTest) (L pend : Int) :
    (init g ft L pend : Ledger T U V).Kept where
  owned := .instanceInit g ft L pend
  ready i hi := by cases hi
  recycle s i hi := by cases hi
  registered p hp := by cases hp
  hands t p hp := by cases hp

variable [DecidableEq T]

/-- What a handler leaves on the stack of its instance is of no concern. -/
theorem kept_leave (h : σ.Kept) (t : T) (results : List (Slot V)) :
    Kept ⟨leave σ.machine t results, σ.due⟩ := by
  unfold leave
  split
  · rename_i i fs hfs
    have hsh : shapesOf (σ.machine.stack t) = (i, .unpacked) :: shapesOf fs := by rw [hfs]; rfl
    have hp := h.unpacked (t := t) (i := i) (by rw [hsh]; exact mem_cons_self)
    have hsame : ∀ j, j ≠ i → σ.due j = σ.due j := fun _ _ ↦ rfl
    have h₁ := h.setHead (t := t) .unpacked hsh
      (.modifyInst _ i fun d ↦ { d with stack := d.stack ++ results })
      (fun j hj ↦ State.inst_modifyInst_of_ne hj) hsame (by
        simp [Shape.Holds, State.inst_modifyInst_self, hp])
    rw [← hsh, Function.update_eq_self] at h₁
    exact h₁
  · exact h

/-- Every step keeps the shapes. -/
theorem kept_step {l : (T × Act U V) × List (Slot V)} (h : σ.Kept)
    (hs : step xf σ l = some σ') : σ'.Kept := by
  obtain ⟨m', hm, rfl⟩ := Option.map_eq_some_iff.1 hs
  have h₁ : Shaped _ _ _ := kept_leave h l.1.1 l.2
  obtain ⟨k, fs, hstep, rfl⟩ := Machine.step_eq_some.1 hm
  have h₂ := threadStep_shaped (t := l.1.1) h₁ rfl hstep
  have hsh : (fun t ↦ shapesOf (Function.update (leave σ.machine l.1.1 l.2).stack l.1.1 fs t)) =
      Function.update (fun t ↦ shapesOf ((leave σ.machine l.1.1 l.2).stack t)) l.1.1
        (shapesOf fs) := by
    funext r
    by_cases hr : r = l.1.1
    · subst hr; simp
    · simp [hr]
  unfold Kept
  rw [hsh]
  exact h₂

/-- Every run keeps the shapes. -/
theorem kept_run {g : Graph} {ft : FullTest} {L pend : Int}
    {tr : List (Ledger T U V × ((T × Act U V) × List (Slot V)))}
    (h : Run (step xf) (init g ft L pend) tr σ) : σ.Kept :=
  h.invariant' (kept_init g ft L pend) fun _ _ _ hk hs ↦ kept_step hk hs

end Ledger

/-- **Every instance on the ready queue is resumable as intended**, in every run of any
number of threads and whatever handlers leave on their stacks.  It has its handler and
exactly the promised values on the stack, with their number in `args` and no packed
event, or the promised event packed and an empty stack; and a worker that takes an
instance calls the handler with exactly the promised values, with nothing left below
them. -/
theorem resumable [DecidableEq T] (xf : Transfer U V) (g : Graph) (ft : FullTest) (L pend : Int)
    {tr : List (Ledger T U V × ((T × Act U V) × List (Slot V)))} {σ : Ledger T U V}
    (h : Run (Ledger.step xf) (Ledger.init g ft L pend) tr σ) :
    (∀ i, some i ∈ σ.machine.kernel.readyQueue.items →
      Due (σ.machine.kernel.inst i) (σ.due i)) ∧
    ∀ i k, σ.machine.kernel.popReady = some (some i, k) →
      ((k.unpackEvent i).inst i).stack = .handler :: σ.due i ∧
      ((k.unpackEvent i).inst i).args = (σ.due i).length ∧
      (k.resumeInstance i).2 = σ.due i ∧ ((k.resumeInstance i).1.inst i).stack = [] := by
  have hk := Ledger.kept_run h
  refine ⟨hk.ready, fun i k hp ↦ ?_⟩
  obtain ⟨q, hi, -, rfl⟩ := State.popReady_eq_some.1 hp
  have hdue : Due (({ σ.machine.kernel with readyQueue := q } : State V).inst i) (σ.due i) :=
    hk.ready i (hi ▸ mem_cons_self)
  exact ⟨hdue.unpackEvent.1, hdue.unpackEvent.2.1, hdue.resume.1, hdue.resume.2.1⟩

/-- A packed event arrives, its handler yields with two values on the stack, and is
queued again. -/
def packedThenNice : List ((Nat × Act Nat Nat) × List (Slot Nat)) :=
  let arrival : List (Nat × Act Nat Nat) :=
    [(0, .packed 0 [7]), (0, .run), (0, .run), (0, .run), (0, .run), (0, .chunkEnds .ok),
      (0, .run), (1, .wait)]
  arrival.map (fun l ↦ (l, [])) ++
    [((1, .ret .nice), [.integer 5, .string "left over"]), ((1, .run), [])]

/-- `resumable` at `packedThenNice`: the second call gets `true` and nothing else. -/
theorem resumable_packedThenNice :
    ∃ (σ : Ledger Nat Nat Nat) (k : State Nat), exec (Ledger.step (.plain Nat))
        (.init (.single false) .exactly (-1) (-1)) packedThenNice = some σ ∧
      σ.machine.kernel.popReady = some (some 0, k) ∧ σ.due 0 = [.boolean true] ∧
      ((k.unpackEvent 0).inst 0).stack = [.handler, .boolean true] := by
  obtain ⟨σ, hσ⟩ : ∃ σ, exec (Ledger.step (.plain Nat))
      (.init (.single false) .exactly (-1) (-1)) packedThenNice = some σ := ⟨_, rfl⟩
  have hmain := resumable _ _ _ _ _ (Run.of_exec hσ)
  obtain ⟨k, hk⟩ : ∃ k, σ.machine.kernel.popReady = some (some 0, k) := by
    obtain rfl := Option.some.inj hσ
    exact ⟨_, rfl⟩
  have hdue : σ.due 0 = [.boolean true] := by
    obtain rfl := Option.some.inj hσ
    rfl
  refine ⟨σ, k, hσ, hk, hdue, ?_⟩
  rw [(hmain.2 0 k hk).1, hdue]

end Leda.Kernel
