import Leda.Kernel.Ownership
import Leda.Lib.Run

/-!
# The system, one operation at a time

The same kernel with whole operations as steps: a send, the arrival of an event from
another process, taking the next instance from the ready queue, a handler that returns
or yields, a completion.  Handlers overlap as they do in the interleaving machine — an
instance is `running` from the step that resumes it to the step in which its handler
leaves, and any operation can come between — but no operation is interrupted.

Two logs record what senders were promised and what handlers saw: `accepted s` lists
the events whose emission to `s` returned success, `handled s` what was passed to the
handler of `s` by each call that started it on an event.
-/

universe u v

namespace Leda.Kernel

open Leda.Lib List

variable {U V : Type u} {T : Type v}

/-- The kernel, the instances whose handlers run, and the logs. -/
structure System (V : Type u) where
  kernel : State V
  running : List InstId
  handled : StageId → List (List (Slot V))
  accepted : StageId → List (List V)

/-- An operation. -/
inductive Op (U V : Type u)
  | emmit (con : ConnectorId) (dst : StageId) (args : List U) (c : Creation)
      (reply : Except String Unit)
  | packed (dst : StageId) (e : List V) (c : Creation)
  | /-- A worker takes the head of the ready queue and calls its handler. -/
    dispatch
  | /-- The handler of a running instance leaves. -/
    ret (i : InstId) (y : Yield U)
  | callback (i : InstId) (c : Completion) (o : Outcome)
  | kill
  | setMaxpar (a : Int) (b : Option Int)
  | setCapacity (i cap : Int)

/-- The event a send carries: on the direct route a copy of the arguments, on the queued
route the extracted event. -/
def sentEvent (xf : Transfer U V) (args : List U) (direct : Bool) : List V :=
  match (if direct then xf.copy args else xf.extract args) with
  | .ok e => e
  | .raised _ | .crash => []

namespace System

/-- Log an accepted event. -/
def accept (σ : System V) (s : StageId) (e : List V) : System V :=
  { σ with accepted := Function.update σ.accepted s (σ.accepted s ++ [e]) }

/-- Call the handler of `i`; a call that does not resume a suspended handler starts it
on an event. -/
def call (σ : System V) (i : InstId) : System V :=
  let r := σ.kernel.resumeInstance i
  let s := σ.kernel.stageOf i
  { σ with
    kernel := r.1
    running := i :: σ.running
    handled := if (σ.kernel.inst i).suspended then σ.handled
      else Function.update σ.handled s (σ.handled s ++ [r.2]) }

/-- One operation. -/
def step (xf : Transfer U V) (σ : System V) : Op U V → Option (System V)
  | .emmit con dst args c reply =>
      let r := σ.kernel.emmit xf con dst args c reply
      let σ' : System V := { σ with kernel := r.1 }
      match r.2 with
      | .crash => none
      | .raised _ | .refused _ => some σ'
      | .yes =>
          if σ.kernel.graph.isLocal dst then
            some (σ'.accept dst (sentEvent xf args (σ.kernel.instanceAquire dst c).2.isSome))
          else some σ'
  | .packed dst e c =>
      let r := σ.kernel.emmitPackedEvent dst e c
      let σ' : System V := { σ with kernel := r.1 }
      some (if r.2 = 0 then σ'.accept dst e else σ')
  | .dispatch =>
      match σ.kernel.popReady with
      | some (some i, k) => some (call { σ with kernel := k } i)
      | some (none, k) => some { σ with kernel := k }
      | none => none
  | .ret i y =>
      if i ∈ σ.running then
        let r := σ.kernel.threadReturn xf i y
        let σ' : System V := { σ with kernel := r.1, running := σ.running.erase i }
        match r.2 with
        | .done => some σ'
        | .resume callee =>
            match y with
            | .cohort dst _ args _ => some ((σ'.accept dst (sentEvent xf args true)).call callee)
            | _ => none
        | .panic _ | .crash => none
      else none
  | .callback i c o => (σ.kernel.complete i c o).map fun k ↦ { σ with kernel := k }
  | .kill => some { σ with kernel := σ.kernel.pushReady none }
  | .setMaxpar a b => some { σ with kernel := (σ.kernel.instanceSetMaxpar a b).1 }
  | .setCapacity i cap => some { σ with kernel := (σ.kernel.ledaSetCapacity i cap).1 }

/-- After `instance_init`. -/
def init (g : Graph) (ft : FullTest) (recycleLimit pendingLimit : Int) : System V where
  kernel := .instanceInit g ft recycleLimit pendingLimit
  running := []
  handled _ := []
  accepted _ := []

end System

/-! ## What a send does -/

section Sends

/-- The two ways an event is put into an instance that was acquired for it: its values
on the stack, above the handler, or packed beside it. -/
inductive Loads (e : List V) : (Instance V → Instance V) → Prop
  | values : Loads e fun d ↦
      { d with stack := d.stack ++ .handler :: e.map .value, args := e.length }
  | packed : Loads e fun d ↦ { d with packedEvent := some e }

/-- **What a send to a local stage can do**: leave the event in the pending queue of the
stage, fail to, hand it to the instance it acquired, or fail to and lose that.  `ok`
says whether the event can be extracted, the option is the event that was accepted. -/
inductive Delivery (k : State V) (dst : StageId) (c : Creation) (ok : Prop) :
    State V → Option (List V) → Prop
  | queued {k₁ k₂ : State V} {e : List V} (p : StageId) (con : ConnectorId) (hok : ok)
      (ha : k.instanceAquire dst c = (k₁, none)) (hp : k₁.tryPushEvent dst e = some k₂) :
      Delivery k dst c ok (k₂.statsUpdateEvents p con) (some e)
  | notQueued {k₁ : State V} (ha : k.instanceAquire dst c = (k₁, none))
      (h : ¬ ok ∨ (k₁.eventQueues dst).full k₁.fullTest = true) : Delivery k dst c ok k₁ none
  | handed {k₁ : State V} {i : InstId} {e : List V} {f : Instance V → Instance V}
      (p : StageId) (con : ConnectorId) (ha : k.instanceAquire dst c = (k₁, some i))
      (hf : Loads e f) : Delivery k dst c ok
        (((k₁.modifyInst i f).pushReadyQueue i).statsUpdateEvents p con) (some e)
  | wasted {k₁ : State V} {i : InstId} (f : Instance V → Instance V)
      (ha : k.instanceAquire dst c = (k₁, some i)) :
      Delivery k dst c ok (k₁.modifyInst i f) none

/-- A send that does not belong to a connector counts nothing. -/
theorem statsUpdateEvents_neg (k : State V) (s : StageId) : k.statsUpdateEvents s (-1) = k := by
  simp [State.statsUpdateEvents]

/-- What `emmit` to a local stage does. -/
theorem emmit_delivery (xf : Transfer U V) (k : State V) (con : ConnectorId) (dst : StageId)
    (args : List U) (c : Creation) (reply : Except String Unit)
    (hloc : k.graph.isLocal dst = true) :
    ∃ o, Delivery k dst c (∃ e, xf.extract args = .ok e)
        (k.emmit xf con dst args c reply).1 o ∧
      (o = none ∧ (k.emmit xf con dst args c reply).2 ≠ .yes ∨
        o = some (sentEvent xf args (k.instanceAquire dst c).2.isSome) ∧
          (k.emmit xf con dst args c reply).2 = .yes) := by
  unfold State.emmit
  rw [hloc]
  simp only [Bool.not_true, Bool.false_eq_true, if_false]
  rcases ha : k.instanceAquire dst c with ⟨k₁, _ | i⟩
  · simp only
    split
    · rename_i hx
      exact ⟨none, .notQueued ha (.inl fun ⟨e, he⟩ ↦ by rw [hx] at he; cases he),
        .inl ⟨rfl, by simp⟩⟩
    · rename_i hx
      exact ⟨none, .notQueued ha (.inl fun ⟨e, he⟩ ↦ by rw [hx] at he; cases he),
        .inl ⟨rfl, by simp⟩⟩
    · rename_i e hx
      unfold State.instanceTryPushPendingEvent
      split
      · rename_i hp
        exact ⟨none, .notQueued ha (.inr (State.tryPushEvent_eq_none.1 hp)), .inl ⟨rfl, by simp⟩⟩
      · exact ⟨some e, .queued _ con ⟨e, hx⟩ ha ‹_›, .inr ⟨by simp [sentEvent, hx], rfl⟩⟩
  · simp only
    split
    · have h : Delivery k dst c (∃ e, xf.extract args = .ok e) _ none :=
        .wasted (fun d ↦ { d with stack := d.stack ++ [.handler] }) ha
      exact ⟨none, h, .inl ⟨rfl, by simp⟩⟩
    · have hid : k₁.modifyInst i id = k₁ := by simp [State.modifyInst]
      have h : Delivery k dst c (∃ e, xf.extract args = .ok e) _ none := .wasted id ha
      rw [hid] at h
      exact ⟨none, h, .inl ⟨rfl, by simp⟩⟩
    · rename_i e hx
      exact ⟨some e, .handed _ con ha .values, .inr ⟨by simp [sentEvent, hx], rfl⟩⟩

/-- What `emmit_packed_event` does. -/
theorem emmitPackedEvent_delivery (k : State V) (dst : StageId) (e : List V) (c : Creation) :
    ∃ o, Delivery k dst c True (k.emmitPackedEvent dst e c).1 o ∧
      (o = none ∧ (k.emmitPackedEvent dst e c).2 ≠ 0 ∨
        o = some e ∧ (k.emmitPackedEvent dst e c).2 = 0) := by
  unfold State.emmitPackedEvent
  rcases ha : k.instanceAquire dst c with ⟨k₁, _ | i⟩
  · simp only [State.instanceTryPushPendingEvent]
    split
    · rename_i hp
      exact ⟨none, .notQueued ha (.inr (State.tryPushEvent_eq_none.1 hp)), .inl ⟨rfl, by simp⟩⟩
    · have h : Delivery k dst c True _ (some e) := .queued 0 (-1) trivial ha ‹_›
      rw [statsUpdateEvents_neg] at h
      exact ⟨some e, h, .inr ⟨rfl, rfl⟩⟩
  · have h : Delivery k dst c True _ (some e) := .handed 0 (-1) ha .packed
    rw [statsUpdateEvents_neg] at h
    exact ⟨some e, h, .inr ⟨rfl, rfl⟩⟩

/-- What `instance_aquire` leaves alone; only an instance it creates is new. -/
structure Untouched (k k' : State V) : Prop where
  graph : k'.graph = k.graph
  fullTest : k'.fullTest = k.fullTest
  ready : k'.readyQueue = k.readyQueue
  registered : k'.registered = k.registered
  events : k'.eventQueues = k.eventQueues
  limits : k'.recycleQueueLimits = k.recycleQueueLimits
  inst : ∀ i, i ≠ k.nextInst → k'.inst i = k.inst i

/-- Destroying an instance touches nothing more. -/
theorem Untouched.destroy {k k' : State V} (h : Untouched k k') (i : InstId) :
    Untouched k (k'.instanceDestroy i) :=
  ⟨h.graph, h.fullTest, h.ready, h.registered, h.events, h.limits, h.inst⟩

theorem instanceAquire_untouched (k : State V) (s : StageId) (c : Creation) :
    Untouched k (k.instanceAquire s c).1 := by
  have hc := k.instanceAquire_cases s c
  generalize k.instanceAquire s c = r at hc ⊢
  cases hc with
  | refused => exact ⟨rfl, rfl, rfl, rfl, rfl, rfl, fun _ _ ↦ rfl⟩
  | recycled _ hp =>
      obtain ⟨q, -, -, rfl⟩ := State.tryPopRecycle_eq_some.1 hp
      exact ⟨rfl, rfl, rfl, rfl, rfl, rfl, fun _ _ ↦ rfl⟩
  | created =>
      have hnew : Untouched k (((k.statsActive s).addInstances s 1).newInstance s) :=
        ⟨rfl, rfl, rfl, rfl, rfl, rfl, fun _ hi ↦ Function.update_of_ne hi _ _⟩
      cases c with
      | ok | loadFails => exact hnew
      | initFails => exact hnew.destroy _

/-- The live instances keep their stage when others are created. -/
theorem Untouched.stageOf {k k' : State V} (h : Untouched k k') (ha : Accounted k) :
    ∀ i ∈ k.live, k'.stageOf i = k.stageOf i := fun i hi ↦ by
  unfold State.stageOf
  rw [h.inst i fun e ↦ ha.nextInst_notMem (e ▸ hi)]

/-- `instance_aquire` leaves what a send builds on alone. -/
theorem untouched_of_aquire {k k₁ : State V} {dst : StageId} {c : Creation} {o : Option InstId}
    (ha : k.instanceAquire dst c = (k₁, o)) : Untouched k k₁ := by
  have h := instanceAquire_untouched k dst c
  rwa [ha] at h

/-- A send moves no instance but the one it acquired, which was idle or is new. -/
theorem Delivery.stage {k k' : State V} {dst : StageId} {c : Creation} {ok : Prop}
    {o : Option (List V)} (hd : Delivery k dst c ok k' o) (ha : Accounted k) :
    ∀ i ∈ k.live, k'.stageOf i = k.stageOf i := by
  intro i hi
  cases hd with
  | queued p con _ haq hp =>
      obtain ⟨-, rfl⟩ := State.tryPushEvent_eq_some.1 hp
      exact (untouched_of_aquire haq).stageOf ha i hi
  | notQueued haq => exact (untouched_of_aquire haq).stageOf ha i hi
  | handed p con haq hf =>
      exact State.stageOf_modifyInst.trans ((untouched_of_aquire haq).stageOf ha i hi)
  | wasted f haq =>
      exact State.stageOf_modifyInst.trans ((untouched_of_aquire haq).stageOf ha i hi)

end Sends

/-! ## What becomes of an instance whose handler leaves -/

section Leaving

variable {xf : Transfer U V} {k : State V} {i : InstId}

/-- The statuses that destroy the instance. -/
def Yield.dies : Yield U → Bool
  | .pcallError | .destroy | .unknown => true
  | _ => false

/-- What the kernel decides about an instance whose handler waits for something. -/
def Yield.fate (xf : Transfer U V) : Yield U → Option (Fate V)
  | .nice => some State.emmitSelf
  | .remote args written => some (State.emmitRemote xf args written)
  | .waitIo fd mode armed => some (State.eventWaitIo fd mode armed)
  | .fileIo file mode arg submitted => some (State.eventDoFileAio file mode arg submitted)
  | .sleep t armed => some (State.eventSleep t armed)
  | .ended | .pcallError | .destroy | .unknown | .cohort .. => none

/-- The coroutine of the instance waits inside the handler. -/
def State.suspend (k : State V) (i : InstId) : State V :=
  k.modifyInst i fun d ↦ { d with suspended := true }

/-- **What a handler that leaves can do with its instance**, when it leaves its thread
with nothing. -/
inductive Left (xf : Transfer U V) (k : State V) (i : InstId) : Yield U → State V → Prop
  | released : Left xf k i .ended
      ((k.modifyInst i fun d ↦ { d with suspended := false }).instanceRelease i).1
  | destroyed {y : Yield U} (hy : y.dies = true) (st : StageId → StageStats) :
      Left xf k i y (({ k.suspend i with sstats := st } : State V).instanceDestroy i)
  | lost {y : Yield U} (hy : y.fate xf = some .lost) : Left xf k i y (k.suspend i)
  | resumed {y : Yield U} {vals : List (Slot V)} (hy : y.fate xf = some (.resume vals)) :
      Left xf k i y (((k.suspend i).prepare i vals).pushReadyQueue i)
  | registered {y : Yield U} {c : Completion} (hy : y.fate xf = some (.register c)) :
      Left xf k i y ((k.suspend i).register i c)
  | refused {dst : StageId} {con : ConnectorId} {args : List U} {c : Creation} {k₁ : State V}
      (ha : (k.suspend i).instanceAquire dst c = (k₁, none)) :
      Left xf k i (.cohort dst con args c)
        ((k₁.prepare i [.nil, .string (k₁.cohortMessage dst)]).pushReadyQueue i)

/-- A handler that waits is settled by its fate. -/
theorem threadReturn_fate {y : Yield U} {φ : Fate V} (hy : y.fate xf = some φ) :
    k.threadReturn xf i y = (k.suspend i).settle i φ := by
  cases y <;> simp only [Yield.fate, Option.some.injEq, reduceCtorEq] at hy <;> subst hy <;> rfl

/-- A settled instance that leaves its thread with nothing is lost, queued or
registered. -/
theorem left_of_fate {y : Yield U} {φ : Fate V} (hy : y.fate xf = some φ)
    (h : (k.threadReturn xf i y).2 = .done) : Left xf k i y (k.threadReturn xf i y).1 := by
  rw [threadReturn_fate hy] at h ⊢
  cases φ with
  | resume vals => exact .resumed hy
  | register c => exact .registered hy
  | lost => exact .lost hy
  | panic m => cases h
  | crash => cases h

theorem threadReturn_left (y : Yield U) (h : (k.threadReturn xf i y).2 = .done) :
    Left xf k i y (k.threadReturn xf i y).1 := by
  cases y with
  | ended => exact .released
  | pcallError | destroy | unknown => exact .destroyed rfl _
  | nice | remote args written | waitIo fd mode armed | fileIo file mode arg submitted
  | sleep timer armed => exact left_of_fate rfl h
  | cohort dst con args c =>
      simp only [State.threadReturn, State.emmitCohort] at h ⊢
      split
      · exact .refused ‹_›
      · rename_i k₁ callee ha
        rw [ha] at h
        simp only at h
        split at h <;> cases h

/-- What a cohort that passes its thread on has done: it acquired the callee, loaded a copy
of the arguments and queued the caller. -/
theorem threadReturn_pass {callee : InstId} {dst : StageId} {con : ConnectorId} {args : List U}
    {c : Creation} (h : (k.threadReturn xf i (.cohort dst con args c)).2 = .resume callee) :
    ∃ k₁ e, (k.suspend i).instanceAquire dst c = (k₁, some callee) ∧
      xf.copy args = .ok e ∧ (k.threadReturn xf i (.cohort dst con args c)).1 =
        (((k₁.load callee e).prepare i [.boolean true]).pushReadyQueue i).statsUpdateEvents
          (k₁.stageOf i) con := by
  simp only [State.threadReturn, State.emmitCohort, Yield.inside] at h ⊢
  split
  · rename_i k₁ ha
    rw [ha] at h
    cases h
  · rename_i k₁ i' ha
    rw [ha] at h
    simp only at h ⊢
    split
    · rename_i m hx
      rw [hx] at h
      cases h
    · rename_i hx
      rw [hx] at h
      cases h
    · rename_i e hx
      rw [hx] at h
      obtain rfl : i' = callee := by simpa using h
      exact ⟨k₁, e, ha, hx, rfl⟩

end Leaving

/-! ## Ownership of whole operations -/

section Owned

variable [DecidableEq T] {xf : Transfer U V} {k : State V} {h : T → List InstId} {t : T}
  {i : InstId} {s : StageId} {rest : List InstId}

/-- `instance_aquire` leaves an instance it returns in the hands of the caller. -/
theorem instanceAquire_owned (ho : Owned k h) (t : T) (s : StageId) (c : Creation) :
    Owned (k.instanceAquire s c).1
      (Function.update h t ((k.instanceAquire s c).2.toList ++ h t)) := by
  have hc := k.instanceAquire_cases s c
  generalize k.instanceAquire s c = r at hc ⊢
  have hnone : ∀ k' : State V, Owned k' h → Owned k' (Function.update h t ([] ++ h t)) := by
    intro k' ho'
    rw [nil_append, Function.update_eq_self]
    exact ho'
  cases hc with
  | refused => exact hnone k ho
  | recycled _ hp => exact (ho.takeRecycle hp (Subperm.refl _)).same (.statsActive ..)
  | created =>
      cases c with
      | ok => exact ho.create s (Subperm.refl _)
      | loadFails =>
          have h₁ := ho.create (t := t) s (l := h t) (sublist_cons_self ..).subperm
          rw [Function.update_eq_self] at h₁
          exact hnone _ h₁
      | initFails =>
          have h₁ := ho.create (t := t) s (l := k.nextInst :: h t) (Subperm.refl _)
          have h₂ := h₁.destroy (t := t) (i := k.nextInst) (l := h t)
            (by rw [Function.update_self])
          rw [Function.update_idem, Function.update_eq_self] at h₂
          exact hnone _ h₂

/-- `instance_release` takes the instance from the hands of the caller. -/
theorem instanceRelease_owned (ho : Owned k h) (ht : i :: rest <+~ h t) :
    Owned (k.instanceRelease i).1 (Function.update h t rest) := by
  have h₀ := ho.same (.modifyInst k i fun d ↦ { d with stack := [] })
  -- the state when the instance has become inactive
  set k₁ := (k.modifyInst i fun d ↦ { d with stack := [] }).statsInactive (k.stageOf i) with hk₁
  have h₁ : Owned k₁ h := h₀.same (.statsInactive ..)
  have hst : k₁.stageOf i = k.stageOf i := by simp [hk₁, State.stageOf]
  rcases k.instanceRelease_cases i with ⟨e, k', hp, he⟩ | ⟨-, -, he⟩ | ⟨-, k', hp, he⟩ <;>
    simp only [he]
  · have h₂ : Owned (((k'.statsInactive (k.stageOf i)).statsActive (k.stageOf i)).load i e) h :=
      (h₀.same (.tryPopEvent hp)).same
        ⟨rfl, fun _ ↦ rfl, rfl, rfl, rfl, rfl, fun _ ↦ by simp [State.stageOf]⟩
    exact h₂.giveReady ht
  · exact h₁.destroy ht
  · exact h₁.giveRecycle (by rw [hst]; exact hp) ht

/-- An instance that yielded leaves the hands of its thread. -/
theorem settle_owned {φ : Fate V} (ho : Owned k h) (ht : i :: rest <+~ h t) :
    Owned (k.settle i φ).1 (Function.update h t rest) := by
  cases φ with
  | resume vals => exact (ho.same (.modifyInst ..)).giveReady ht
  | register c => exact ho.giveRegistered c ht
  | lost | panic m | crash => exact ho.drop ((sublist_cons_self i rest).subperm.trans ht)

theorem update_restore (h : T → List InstId) (t : T) (l : List InstId) :
    Function.update (Function.update h t l) t (h t) = h := by
  rw [Function.update_idem, Function.update_eq_self]

/-- A thread that queues, or drops, the instance it acquired has what it had before. -/
theorem giveBack (ho : Owned k (Function.update h t (i :: h t))) :
    Owned (k.pushReadyQueue i) h := by
  have h₁ := ho.giveReady (t := t) (i := i) (l := h t) (by rw [Function.update_self])
  rwa [update_restore] at h₁

theorem dropBack (ho : Owned k (Function.update h t (i :: h t))) : Owned k h := by
  have h₁ := ho.drop (t := t) (l := h t)
    (by rw [Function.update_self]; exact (sublist_cons_self ..).subperm)
  rwa [update_restore] at h₁

/-- A send leaves the sender with what it had. -/
theorem delivery_owned {dst : StageId} {c : Creation} {ok : Prop} {k' : State V}
    {o : Option (List V)} (ho : Owned k h) (t : T) (hd : Delivery k dst c ok k' o) :
    Owned k' h := by
  have hnone : ∀ {k₁ : State V}, k.instanceAquire dst c = (k₁, none) → Owned k₁ h := by
    intro k₁ ha
    simpa [ha] using instanceAquire_owned ho t dst c
  have hsome : ∀ {k₁ : State V} {i : InstId}, k.instanceAquire dst c = (k₁, some i) →
      Owned k₁ (Function.update h t (i :: h t)) := by
    intro k₁ i ha
    simpa [ha] using instanceAquire_owned ho t dst c
  cases hd with
  | queued p con _ ha hp => exact ((hnone ha).same (.tryPushEvent hp)).same (.statsUpdateEvents ..)
  | notQueued ha => exact hnone ha
  | handed p con ha =>
      exact (giveBack ((hsome ha).same (.modifyInst ..))).same (.statsUpdateEvents ..)
  | wasted f ha => exact dropBack ((hsome ha).same (.modifyInst _ _ f))

/-- What a thread holds after a handler left. -/
def Passed.held : Passed → List InstId
  | .resume callee => [callee]
  | _ => []

/-- `emmit_cohort` passes the thread from the caller to the callee. -/
theorem emmitCohort_owned (ho : Owned k h) (ht : i :: rest <+~ h t) (dst : StageId)
    (con : ConnectorId) (args : List U) (c : Creation) :
    Owned (k.emmitCohort xf i dst con args c).1
      (Function.update h t ((k.emmitCohort xf i dst con args c).2.held ++ rest)) := by
  unfold State.emmitCohort
  have ha := instanceAquire_owned ho t dst c
  generalize k.instanceAquire dst c = r at ha ⊢
  obtain ⟨k₁, _ | callee⟩ := r
  · have ha : Owned k₁ h := by simpa using ha
    exact settle_owned ha ht
  · have ha : Owned k₁ (Function.update h t (callee :: h t)) := ha
    have hall : callee :: i :: rest <+~ callee :: h t := (subperm_cons callee).2 ht
    -- the caller is given to the ready queue, or stays behind with the callee
    have hdrop : ∀ k' : State V, Owned k' (Function.update h t (callee :: h t)) →
        Owned k' (Function.update h t rest) := fun k' ho' ↦ by
      have h₁ := ho'.drop (t := t) (l := rest) (by
        rw [Function.update_self]
        exact ((sublist_cons_self i rest).subperm.trans ht).cons_right callee)
      rwa [Function.update_idem] at h₁
    simp only
    split
    · have h₁ := ha.same
        (.modifyInst k₁ callee fun d ↦ { d with stack := d.stack ++ [.handler] })
      exact hdrop _ h₁
    · exact hdrop _ ha
    · rename_i e _
      have h₁ : Owned ((k₁.load callee e).prepare i [.boolean true])
          (Function.update h t (callee :: h t)) := (ha.same (.modifyInst ..)).same (.modifyInst ..)
      have h₂ := h₁.giveReady (t := t) (i := i) (l := callee :: rest) (by
        rw [Function.update_self]
        exact (Perm.swap callee i rest).subperm.trans hall)
      rw [Function.update_idem] at h₂
      exact h₂.same (.statsUpdateEvents ..)

/-- A handler that left gives its instance away, and may leave its thread with the callee
of a cohort. -/
theorem threadReturn_owned (ho : Owned k h) (ht : i :: rest <+~ h t) (y : Yield U) :
    Owned (k.threadReturn xf i y).1
      (Function.update h t ((k.threadReturn xf i y).2.held ++ rest)) := by
  have h₀ := ho.same (.modifyInst k i fun d ↦ { d with suspended := y.inside })
  have hsettle : ∀ φ : Fate V, (((k.modifyInst i fun d ↦
      { d with suspended := y.inside }).settle i φ).2.held) = [] := fun φ ↦ by cases φ <;> rfl
  cases y with
  | ended => exact instanceRelease_owned h₀ ht
  | pcallError => exact ((h₀.same (.updateStats ..)).same (.statsInactive ..)).destroy ht
  | destroy => exact (h₀.same (.statsInactive ..)).destroy ht
  | unknown => exact h₀.destroy ht
  | cohort dst con args c => exact emmitCohort_owned h₀ ht dst con args c
  | nice | remote args written | waitIo fd mode armed | fileIo file mode arg submitted
  | sleep timer armed =>
      simp only [State.threadReturn]
      rw [hsettle]
      exact settle_owned h₀ ht

/-- A completion moves its instance to the ready queue. -/
theorem complete_owned {k' : State V} {c : Completion} {o : Outcome} (ho : Owned k h) (t : T)
    (hc : k.complete i c o = some k') : Owned k' h := by
  unfold State.complete at hc
  split at hc
  · rename_i hm
    simp only [Option.some.injEq] at hc
    subst hc
    have h₁ := ho.takeRegistered (t := t) hm (Subperm.refl _)
    exact giveBack (h₁.same (.modifyInst ..))
  · cases hc

end Owned

/-! ## Ownership of whole runs -/

namespace System

variable {xf : Transfer U V} {σ σ' : System V}

/-- The threads taken together hold the running instances. -/
def Owns (σ : System V) : Prop := Owned σ.kernel fun _ : Unit ↦ σ.running

theorem update_unit (l l' : List InstId) :
    Function.update (fun _ : Unit ↦ l) () l' = fun _ ↦ l' := funext fun _ ↦ by simp

/-- Calling a handler only unpacks its event. -/
theorem call_kernel (σ : System V) (i : InstId) :
    ∃ f, (σ.call i).kernel = σ.kernel.modifyInst i f := σ.kernel.resumeInstance_eq i

theorem call_owns {i : InstId} (ho : Owned σ.kernel fun _ : Unit ↦ i :: σ.running) :
    (σ.call i).Owns := by
  obtain ⟨f, hf⟩ := σ.call_kernel i
  unfold Owns
  rw [hf]
  exact ho.same (.modifyInst ..)

/-- Setting a capacity moves no instance. -/
theorem same_ledaSetCapacity (k : State V) (i cap : Int) : Same k (k.ledaSetCapacity i cap).1 := by
  unfold State.ledaSetCapacity
  dsimp only
  split
  · exact ⟨rfl, fun _ ↦ rfl, rfl, rfl, rfl, rfl, fun _ ↦ rfl⟩
  · split
    · exact .refl k
    · exact ⟨rfl, fun _ ↦ rfl, rfl, rfl, rfl, rfl, fun _ ↦ rfl⟩

/-- Nor does it change an event, a limit or an instance. -/
theorem ledaSetCapacity_frame (k : State V) (i cap : Int) :
    (k.ledaSetCapacity i cap).1.graph = k.graph ∧
    (k.ledaSetCapacity i cap).1.recycleQueueLimits = k.recycleQueueLimits ∧
    (k.ledaSetCapacity i cap).1.inst = k.inst ∧
    ∀ s, ((k.ledaSetCapacity i cap).1.eventQueues s).items = (k.eventQueues s).items := by
  unfold State.ledaSetCapacity
  dsimp only
  split
  · exact ⟨rfl, rfl, rfl, fun _ ↦ rfl⟩
  · split
    · exact ⟨rfl, rfl, rfl, fun _ ↦ rfl⟩
    · refine ⟨rfl, rfl, rfl, fun s ↦ ?_⟩
      by_cases hs : s = toInt32 i
      · subst hs
        simp only [Function.update_self]
        rfl
      · simp only [Function.update_of_ne hs]

/-- Changing limits moves no instance. -/
theorem same_instanceSetMaxpar (k : State V) (a : Int) (b : Option Int) :
    Same k (k.instanceSetMaxpar a b).1 := by
  rcases k.instanceSetMaxpar_cases a b with he | ⟨p, -, -, he⟩ <;> rw [he]
  · exact .refl k
  · refine ⟨rfl, fun s ↦ ?_, rfl, rfl, rfl, rfl, fun _ ↦ rfl⟩
    simp only [State.storeLimits]
    split <;> rfl

/-- The effect of a send: the kernel it leaves, and the log of what was accepted. -/
def deliver (σ : System V) (dst : StageId) (k : State V) : Option (List V) → System V
  | none => { σ with kernel := k }
  | some e => accept { σ with kernel := k } dst e

/-- **What an operation can be.** -/
inductive Kind (xf : Transfer U V) (σ : System V) : Op U V → System V → Prop
  | emmit {con : ConnectorId} {dst : StageId} {args : List U} {c : Creation}
      {reply : Except String Unit} {k : State V} {o : Option (List V)}
      (hloc : σ.kernel.graph.isLocal dst = true)
      (h : Delivery σ.kernel dst c (∃ e, xf.extract args = .ok e) k o) :
      Kind xf σ (.emmit con dst args c reply) (σ.deliver dst k o)
  | remote {con : ConnectorId} {dst : StageId} {args : List U} {c : Creation}
      {reply : Except String Unit} {k : State V} (hloc : σ.kernel.graph.isLocal dst = false)
      (h : k = σ.kernel ∨ k = σ.kernel.statsUpdateEvents (σ.kernel.graph.producer con) con) :
      Kind xf σ (.emmit con dst args c reply) { σ with kernel := k }
  | packed {dst : StageId} {e : List V} {c : Creation} {k : State V} {o : Option (List V)}
      (h : Delivery σ.kernel dst c True k o) : Kind xf σ (.packed dst e c) (σ.deliver dst k o)
  | dispatch {i : InstId} {k : State V} (h : σ.kernel.popReady = some (some i, k)) :
      Kind xf σ .dispatch (call { σ with kernel := k } i)
  | dispatchNull {k : State V} (h : σ.kernel.popReady = some (none, k)) :
      Kind xf σ .dispatch { σ with kernel := k }
  | ret {i : InstId} {y : Yield U} (hi : i ∈ σ.running)
      (h : (σ.kernel.threadReturn xf i y).2 = .done) :
      Kind xf σ (.ret i y)
        { σ with kernel := (σ.kernel.threadReturn xf i y).1, running := σ.running.erase i }
  | pass {i callee : InstId} {dst : StageId} {con : ConnectorId} {args : List U} {c : Creation}
      (hi : i ∈ σ.running)
      (h : (σ.kernel.threadReturn xf i (.cohort dst con args c)).2 = .resume callee) :
      Kind xf σ (.ret i (.cohort dst con args c))
        ((accept { σ with
          kernel := (σ.kernel.threadReturn xf i (.cohort dst con args c)).1
          running := σ.running.erase i } dst (sentEvent xf args true)).call callee)
  | callback {i : InstId} {c : Completion} {o : Outcome} {k : State V}
      (h : σ.kernel.complete i c o = some k) : Kind xf σ (.callback i c o) { σ with kernel := k }
  | kill : Kind xf σ .kill { σ with kernel := σ.kernel.pushReady none }
  | setMaxpar {a : Int} {b : Option Int} : Kind xf σ (.setMaxpar a b)
      { σ with kernel := (σ.kernel.instanceSetMaxpar a b).1 }
  | setCapacity {i cap : Int} : Kind xf σ (.setCapacity i cap)
      { σ with kernel := (σ.kernel.ledaSetCapacity i cap).1 }

/-- Every step is one of these. -/
theorem step_cases {op : Op U V} (hs : step xf σ op = some σ') : Kind xf σ op σ' := by
  cases op with
  | emmit con dst args c reply =>
      cases hloc : σ.kernel.graph.isLocal dst with
      | true =>
          obtain ⟨o, hd, ho⟩ := emmit_delivery xf σ.kernel con dst args c reply hloc
          have hσ : σ' = σ.deliver dst (σ.kernel.emmit xf con dst args c reply).1 o := by
            simp only [step] at hs
            rcases ho with ⟨rfl, hr⟩ | ⟨rfl, hr⟩
            · split at hs
              · cases hs
              · exact (Option.some.inj hs).symm
              · exact (Option.some.inj hs).symm
              · exact absurd ‹_› hr
            · rw [hr] at hs
              simp only [hloc, if_true, Option.some.injEq] at hs
              exact hs.symm
          exact hσ ▸ .emmit hloc hd
      | false =>
          have hk : (σ.kernel.emmit xf con dst args c reply).1 = σ.kernel ∨
              (σ.kernel.emmit xf con dst args c reply).1 =
                σ.kernel.statsUpdateEvents (σ.kernel.graph.producer con) con := by
            simp only [State.emmit, hloc, Bool.not_false, if_true, State.emmitRemoteSync]
            split
            · exact .inl rfl
            · exact .inl rfl
            · exact .inr rfl
          have hσ : σ' = { σ with kernel := (σ.kernel.emmit xf con dst args c reply).1 } := by
            simp only [step, hloc, Bool.false_eq_true, if_false] at hs
            split at hs
            · cases hs
            all_goals exact (Option.some.inj hs).symm
          exact hσ ▸ .remote hloc hk
  | packed dst e c =>
      obtain ⟨o, hd, ho⟩ := emmitPackedEvent_delivery σ.kernel dst e c
      have hσ : σ' = σ.deliver dst (σ.kernel.emmitPackedEvent dst e c).1 o := by
        simp only [step, Option.some.injEq] at hs
        rcases ho with ⟨rfl, hr⟩ | ⟨rfl, hr⟩
        · rw [if_neg hr] at hs
          exact hs.symm
        · rw [if_pos hr] at hs
          exact hs.symm
      exact hσ ▸ .packed hd
  | dispatch =>
      simp only [step] at hs
      split at hs
      · obtain rfl := Option.some.inj hs
        exact .dispatch ‹_›
      · obtain rfl := Option.some.inj hs
        exact .dispatchNull ‹_›
      · cases hs
  | ret i y =>
      simp only [step] at hs
      split at hs
      · rename_i hi
        split at hs
        · obtain rfl := Option.some.inj hs
          exact .ret hi ‹_›
        · split at hs
          · obtain rfl := Option.some.inj hs
            exact .pass hi ‹_›
          · cases hs
        · cases hs
        · cases hs
      · cases hs
  | callback i c o =>
      obtain ⟨k, hk, rfl⟩ := Option.map_eq_some_iff.1 hs
      exact .callback hk
  | kill =>
      obtain rfl := Option.some.inj hs
      exact .kill
  | setMaxpar a b =>
      obtain rfl := Option.some.inj hs
      exact .setMaxpar
  | setCapacity i cap =>
      obtain rfl := Option.some.inj hs
      exact .setCapacity

/-- The running instances without the one whose handler left. -/
theorem erase_subperm {i : InstId} (hi : i ∈ σ.running) :
    i :: σ.running.erase i <+~ σ.running := (perm_cons_erase hi).symm.subperm

/-- **Every operation keeps ownership.** -/
theorem owns_step {op : Op U V} (ho : σ.Owns) (hs : step xf σ op = some σ') : σ'.Owns := by
  cases step_cases hs with
  | @emmit _ _ _ _ _ k o _ h =>
      cases o <;> exact delivery_owned ho () h
  | remote hloc h =>
      rcases h with rfl | rfl
      · exact ho
      · exact ho.same (.statsUpdateEvents ..)
  | @packed _ _ _ k o h =>
      cases o <;> exact delivery_owned ho () h
  | dispatch h =>
      have h₁ := ho.takeReady (t := ()) h (Subperm.refl _)
      rw [update_unit] at h₁
      exact call_owns h₁
  | dispatchNull h => exact ho.takeNull h
  | @ret i y hi h =>
      have h₁ : Owned (σ.kernel.threadReturn xf i y).1 _ :=
        threadReturn_owned (t := ()) ho (erase_subperm hi) y
      rw [h, update_unit] at h₁
      exact h₁
  | @pass i callee dst con args c hi h =>
      have h₁ : Owned (σ.kernel.threadReturn xf i (.cohort dst con args c)).1 _ :=
        threadReturn_owned (t := ()) ho (erase_subperm hi) (.cohort dst con args c)
      rw [h, update_unit] at h₁
      exact call_owns h₁
  | callback h => exact complete_owned ho () h
  | kill => exact ho.giveNull
  | setMaxpar => exact ho.same (same_instanceSetMaxpar ..)
  | setCapacity => exact ho.same (same_ledaSetCapacity ..)

theorem owns_init (g : Graph) (ft : FullTest) (L pend : Int) :
    (init g ft L pend : System V).Owns := .instanceInit g ft L pend

end System

end Leda.Kernel
