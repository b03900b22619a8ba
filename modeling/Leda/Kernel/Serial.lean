import Leda.Kernel.System

/-!
# A serial stage handles events in order

An event accepted for a serial stage is handed to the one instance of the stage when
that is idle, or can be created, and waits in the event queue otherwise.  The argument
that the two routes never reorder events is an equation between logs:

  handled ++ events loaded into queued instances ++ pending events = accepted

`pipeline` is the middle part and the right of it.  A send appends its event at the right
of the pipeline and to `accepted`: on the queued route this is what `TRY_PUSH` does, and
on the direct route it holds because the pipeline is empty, which is what `Single` is for
— the event queue is empty while the instance is idle or missing, and a stage with one
instance has nothing loaded while that instance is idle.  `instance_release` moves an
event inside the pipeline, and a call that starts a handler takes one from its left.
An instance that waits inside its handler is `suspended` and carries no event, so yields
leave the pipeline alone.
-/

universe u

namespace Leda.Kernel

open Leda.Lib List

variable {U V : Type u}

/-! ## Loaded events -/

/-- What the next call of the instance passes to the function below it. -/
def eventOf (d : Instance V) : List (Slot V) :=
  match d.packedEvent with
  | some e => e.map .value
  | none => State.callArgs d

/-- The event an instance of `s` in the ready queue carries, if it is not suspended. -/
def waiting (s : StageId) (d : Instance V) : Option (List (Slot V)) :=
  if d.stage = s ∧ d.suspended = false then some (eventOf d) else none

namespace State

variable {k k' : State V} {s : StageId} {i : InstId}

/-- The instances in the ready queue. -/
def readied (k : State V) : List InstId := k.readyQueue.items.filterMap id

/-- The events in queued instances of `s`, in the order of the ready queue. -/
def loaded (k : State V) (s : StageId) : List (List (Slot V)) :=
  k.readied.filterMap fun i ↦ waiting s (k.inst i)

/-- Everything accepted for `s` and not yet handled, in order. -/
def pipeline (k : State V) (s : StageId) : List (List (Slot V)) :=
  k.loaded s ++ (k.eventQueues s).items.map (map .value)

/-- The loaded events depend on the queued instances. -/
theorem loaded_congr (hr : k'.readied = k.readied)
    (hi : ∀ i ∈ k.readied, waiting s (k'.inst i) = waiting s (k.inst i)) :
    k'.loaded s = k.loaded s := by
  unfold loaded
  rw [hr]
  exact filterMap_congr hi

theorem loaded_append {l : List InstId} (hr : k'.readied = k.readied ++ l)
    (hi : ∀ i ∈ k.readied, waiting s (k'.inst i) = waiting s (k.inst i)) :
    k'.loaded s = k.loaded s ++ l.filterMap fun i ↦ waiting s (k'.inst i) := by
  unfold loaded
  rw [hr, filterMap_append]
  exact congrArg (· ++ _) (filterMap_congr hi)

/-- A stage none of whose instances is queued has nothing loaded. -/
theorem loaded_eq_nil (h : ∀ i ∈ k.readied, k.stageOf i ≠ s) : k.loaded s = [] := by
  refine filterMap_eq_nil_iff.2 fun i hi ↦ ?_
  exact if_neg fun hs ↦ h i hi hs.1

/-- Queueing an instance. -/
theorem readied_pushReadyQueue : (k.pushReadyQueue i).readied = k.readied ++ [i] := by
  simp [readied, pushReadyQueue]

/-- The arguments of a loaded event are the event. -/
theorem callArgs_append {d : Instance V} {st : List (Slot V)} {e : List V}
    (hs : d.stack = st ++ .handler :: e.map .value) (ha : d.args = e.length) :
    callArgs d = e.map .value := by
  have hl : st.length + (e.length + 1) - e.length = st.length + 1 := by omega
  simp only [callArgs, hs, ha, length_append, length_cons, length_map, hl]
  rw [drop_append, drop_eq_nil_of_le (by omega)]
  simp

/-- What `lua_pcall` is called with is what the instance carried. -/
theorem resumeInstance_snd (k : State V) (i : InstId) :
    (k.resumeInstance i).2 = eventOf (k.inst i) := by
  unfold resumeInstance eventOf
  cases hp : (k.inst i).packedEvent with
  | none => rfl
  | some e =>
      simp only [load, inst_modifyInst_self]
      exact callArgs_append rfl rfl

/-- After the call the instance carries nothing packed. -/
theorem packedEvent_resumeInstance (k : State V) (i : InstId) :
    (((k.resumeInstance i).1.inst i).packedEvent) = none := by
  unfold resumeInstance
  cases hp : (k.inst i).packedEvent with
  | none => simp [inst_modifyInst_self, hp]
  | some e => simp [inst_modifyInst_self]

end State

/-! ## One instance, and where its events are -/

/-- What the state of an instance's coroutine is, by where the instance is. -/
structure Tidy (k : State V) (running : List InstId) : Prop where
  running : ∀ i ∈ running, (k.inst i).packedEvent = none
  recycled : ∀ s, ∀ i ∈ (k.recycleQueues s).items,
    (k.inst i).packedEvent = none ∧ (k.inst i).suspended = false
  registered : ∀ i ∈ k.registered.map Prod.fst, (k.inst i).suspended = true

/-- A serial stage: at most one instance, and no pending event while that is idle or
missing.  (A stage id beyond `n_s` is never given an instance.) -/
structure Single (k : State V) (s : StageId) : Prop where
  serial : k.graph.serial s = true
  limit : k.recycleQueueLimits s = 1
  one : k.numberOfInstances s ≤ 1
  idle : ¬ k.graph.Beyond s → (k.recycleQueues s).items ≠ [] → (k.eventQueues s).items = []
  missing : ¬ k.graph.Beyond s → k.numberOfInstances s = 0 → (k.eventQueues s).items = []

section Aquire

variable {k k₁ : State V} {s dst : StageId} {i : InstId} {o : Option InstId} {r : List InstId}

/-- What `instance_aquire` does to a serial stage when creations succeed. -/
theorem Single.aquire (hs : Single k s) (ha : Accounted k)
    (haq : k.instanceAquire dst .ok = (k₁, o)) : Single k₁ s := by
  have hc := k.instanceAquire_cases dst .ok
  rw [haq] at hc
  generalize hr : (k₁, o) = p at hc
  cases hc with
  | refused =>
      obtain rfl := congrArg Prod.fst hr
      exact hs
  | @recycled j k' hreach hp =>
      obtain rfl := congrArg Prod.fst hr
      obtain ⟨q, hi, -, rfl⟩ := State.tryPopRecycle_eq_some.1 hp
      refine ⟨hs.serial, hs.limit, hs.one, fun h₁ h₂ ↦ hs.idle h₁ fun he ↦ h₂ ?_, hs.missing⟩
      by_cases hd : s = dst
      · subst hd
        rw [hi] at he
        cases he
      · change (Function.update k.recycleQueues dst q s).items = []
        rwa [Function.update_of_ne hd]
  | created hreach hrec hn =>
      obtain rfl : k₁ = _ := congrArg Prod.fst hr
      by_cases hd : s = dst
      · subst hd
        -- the stage had no instance, and has one now
        have h0 : k.numberOfInstances s = 0 := by
          have h₁ := hs.one
          have h₂ := hs.limit
          have h₃ := ha.count s
          omega
        have hnum : (Function.update k.numberOfInstances s (k.numberOfInstances s + 1)) s = 1 := by
          rw [Function.update_self, h0]
          rfl
        exact ⟨hs.serial, hs.limit, le_of_eq hnum, fun _ h ↦ absurd hrec h,
          fun _ h ↦ absurd (hnum.symm.trans h) (by decide)⟩
      · have hnum : (Function.update k.numberOfInstances dst (k.numberOfInstances dst + 1)) s =
            k.numberOfInstances s := Function.update_of_ne hd _ _
        exact ⟨hs.serial, hs.limit, le_of_eq_of_le hnum hs.one, hs.idle,
          fun h₁ h₂ ↦ hs.missing h₁ (hnum.symm.trans h₂)⟩

/-- **The direct route is taken only when nothing is in the pipeline.** -/
theorem Single.empty (hs : Single k s) (ho : Owned k fun _ : Unit ↦ r)
    (haq : k.instanceAquire s .ok = (k₁, some i)) : k.pipeline s = [] := by
  have hc := k.instanceAquire_cases s .ok
  rw [haq] at hc
  have hone := ho.accounted.count s ▸ hs.one
  -- the queued instances of the stage are live
  have hlive : ∀ j ∈ k.readied, k.stageOf j = s → j ∈ k.liveOf s := fun j hj hst ↦
    State.mem_liveOf.2 ⟨ho.live .ready j hj, hst⟩
  suffices h : (k.eventQueues s).items = [] ∧ ∀ j ∈ k.readied, k.stageOf j ≠ s by
    rw [State.pipeline, h.1, State.loaded_eq_nil h.2]
    rfl
  generalize hr : (k₁, some i) = p at hc
  cases hc with
  | refused => cases hr
  | @recycled j k' hreach hp =>
      obtain ⟨q, hi, -, -⟩ := State.tryPopRecycle_eq_some.1 hp
      have hm : j ∈ (k.recycleQueues s).items := by simp [hi]
      refine ⟨hs.idle hreach (by simp [hi]), fun l hl hst ↦ ?_⟩
      have hj : j ∈ k.liveOf s := State.mem_liveOf.2 (ho.accounted.recycled s j hm)
      have hjl : j = l := Finset.card_le_one.1 (by exact_mod_cast hone) j hj l (hlive l hl hst)
      subst hjl
      have := ho.exclusive.place_unique (p := .ready) (q := .recycle s) hl hm
      simp at this
  | created hreach hrec hn =>
      have h0 : k.numberOfInstances s = 0 := by
        have h₁ := hs.one
        have h₂ := hs.limit
        have h₃ := ho.accounted.count s
        omega
      refine ⟨hs.missing hreach h0, fun l hl hst ↦ ?_⟩
      have hcard : (k.liveOf s).card = 0 := by
        have h₃ := ho.accounted.count s
        omega
      rw [Finset.card_eq_zero] at hcard
      simpa [hcard] using hlive l hl hst

/-- What `instance_aquire` returns is an instance of the stage that waits for an event. -/
theorem Tidy.aquire (ht : Tidy k r) (ho : Owned k fun _ : Unit ↦ r)
    (haq : k.instanceAquire dst .ok = (k₁, o)) : Tidy k₁ r ∧ ∀ i, o = some i →
      k₁.stageOf i = dst ∧ (k₁.inst i).packedEvent = none ∧ (k₁.inst i).suspended = false := by
  have hu := untouched_of_aquire haq
  have hinst : ∀ p, ∀ i ∈ places k (fun _ : Unit ↦ r) p, k₁.inst i = k.inst i := fun p i hi ↦
    hu.inst i fun e ↦ ho.nextInst_notMem p (e ▸ hi)
  have hrun : ∀ i ∈ r, (k₁.inst i).packedEvent = none := fun i hi ↦ by
    rw [hinst (.hands ()) i hi]
    exact ht.running i hi
  have hreg : ∀ i ∈ k₁.registered.map Prod.fst, (k₁.inst i).suspended = true := fun i hi ↦ by
    rw [hu.registered] at hi
    rw [hinst .registered i hi]
    exact ht.registered i hi
  have hc := k.instanceAquire_cases dst .ok
  rw [haq] at hc
  generalize hr : (k₁, o) = p at hc
  cases hc with
  | refused =>
      obtain ⟨rfl, rfl⟩ := Prod.mk.injEq .. ▸ hr
      exact ⟨ht, fun i hi ↦ by cases hi⟩
  | @recycled j k' hreach hp =>
      obtain ⟨rfl, rfl⟩ := Prod.mk.injEq .. ▸ hr
      obtain ⟨q, hi, -, rfl⟩ := State.tryPopRecycle_eq_some.1 hp
      have hm : j ∈ (k.recycleQueues dst).items := by simp [hi]
      refine ⟨⟨hrun, fun s i hs ↦ ht.recycled s i ?_, hreg⟩, fun i hji ↦ ?_⟩
      · by_cases hd : s = dst
        · subst hd
          rw [hi]
          refine mem_cons_of_mem _ ?_
          simpa using hs
        · simpa [hd] using hs
      · obtain rfl := Option.some.inj hji
        exact ⟨(ho.accounted.recycled dst _ hm).2, ht.recycled dst _ hm⟩
  | created hreach hrec hn =>
      obtain ⟨rfl, rfl⟩ := Prod.mk.injEq .. ▸ hr
      refine ⟨⟨hrun, fun s i hs ↦ ?_, hreg⟩, fun i hi ↦ ?_⟩
      · rw [hinst (.recycle s) i hs]
        exact ht.recycled s i hs
      · obtain rfl := Option.some.inj hi
        simp [State.newInstance, State.stageOf]

/-- Refused, `instance_aquire` has done nothing: the stage is at its limit. -/
theorem aquire_none (haq : k.instanceAquire dst .ok = (k₁, none)) : k₁ = k ∧
    (¬ k.graph.Beyond dst → (k.recycleQueues dst).items = [] ∧
      k.numberOfInstances dst = k.recycleQueueLimits dst) := by
  have hc := k.instanceAquire_cases dst .ok
  rw [haq] at hc
  generalize hr : (k₁, (none : Option InstId)) = p at hc
  cases hc with
  | refused h =>
      exact ⟨congrArg Prod.fst hr, fun hreach ↦ h.resolve_left hreach⟩
  | recycled | created => cases hr

/-- An instance in the hands of a thread is nowhere else. -/
structure Alone (k : State V) (r : List InstId) (i : InstId) : Prop where
  readied : i ∉ k.readied
  recycled : ∀ s, i ∉ (k.recycleQueues s).items
  registered : i ∉ k.registered.map Prod.fst
  running : i ∉ r

theorem alone_of_owned (ho : Owned k fun _ : Unit ↦ i :: r) : Alone k r i := by
  have hi : i ∈ places k (fun _ : Unit ↦ i :: r) (.hands ()) := mem_cons_self
  have hne : ∀ p, i ∈ places k (fun _ : Unit ↦ i :: r) p → p = .hands () := fun p hp ↦
    ho.exclusive.place_unique hp hi
  refine ⟨fun h ↦ ?_, fun s h ↦ ?_, fun h ↦ ?_,
    (nodup_cons.1 (ho.exclusive.nodup (.hands ()))).1⟩
  · have := hne .ready h
    simp at this
  · have := hne (.recycle s) h
    simp at this
  · have := hne .registered h
    simp at this

/-- A running instance is alone among the others. -/
theorem alone_of_mem (ho : Owned k fun _ : Unit ↦ r) (hi : i ∈ r) : Alone k (r.erase i) i := by
  refine alone_of_owned ?_
  have h := ho.drop (t := ()) (l := i :: r.erase i) (perm_cons_erase hi).symm.subperm
  rwa [System.update_unit] at h

/-- What happens to an instance in the hands of a thread does not concern the others. -/
theorem Tidy.modifyInst (ht : Tidy k r) (ha : Alone k r i) (f : Instance V → Instance V) :
    Tidy (k.modifyInst i f) r := by
  refine ⟨fun j hj ↦ ?_, fun s j hj ↦ ?_, fun j hj ↦ ?_⟩
  · have hne : j ≠ i := fun e ↦ ha.running (e ▸ hj)
    rw [State.inst_modifyInst_of_ne hne]
    exact ht.running j hj
  · have hne : j ≠ i := fun e ↦ ha.recycled s (e ▸ hj)
    rw [State.inst_modifyInst_of_ne hne]
    exact ht.recycled s j hj
  · have hne : j ≠ i := fun e ↦ ha.registered (e ▸ hj)
    rw [State.inst_modifyInst_of_ne hne]
    exact ht.registered j hj

/-- Nor the events loaded into them. -/
theorem loaded_modifyInst (h : i ∉ k.readied) (f : Instance V → Instance V) :
    (k.modifyInst i f).loaded s = k.loaded s :=
  State.loaded_congr rfl fun j hj ↦ by
    have hne : j ≠ i := fun e ↦ h (e ▸ hj)
    rw [State.inst_modifyInst_of_ne hne]

/-- `instance_aquire` leaves the loaded events alone. -/
theorem loaded_aquire {c : Creation} (ho : Owned k fun _ : Unit ↦ r)
    (haq : k.instanceAquire dst c = (k₁, o)) : k₁.loaded s = k.loaded s := by
  have hu := untouched_of_aquire haq
  refine State.loaded_congr ?_ fun j hj ↦ ?_
  · unfold State.readied
    rw [hu.ready]
  · rw [hu.inst j fun e ↦ ho.nextInst_notMem .ready (e ▸ hj)]

/-- Queueing an instance appends what it carries. -/
theorem loaded_push (h : i ∉ k.readied) (f : Instance V → Instance V) :
    ((k.modifyInst i f).pushReadyQueue i).loaded s =
      k.loaded s ++ (waiting s ((k.modifyInst i f).inst i)).toList := by
  have hr : ((k.modifyInst i f).pushReadyQueue i).loaded s = k.loaded s ++
      [i].filterMap fun j ↦ waiting s (((k.modifyInst i f).pushReadyQueue i).inst j) :=
    State.loaded_append State.readied_pushReadyQueue fun j hj ↦ by
      have hj' : ((k.modifyInst i f).pushReadyQueue i).inst j = k.inst j :=
        State.inst_modifyInst_of_ne fun e ↦ h (e ▸ hj)
      rw [hj']
  rw [hr]
  have hi : ((k.modifyInst i f).pushReadyQueue i).inst i = (k.modifyInst i f).inst i := rfl
  simp only [filterMap_cons, filterMap_nil, hi]
  cases waiting s ((k.modifyInst i f).inst i) <;> rfl

/-- An instance of `s` that waited for an event carries the one that is put into it. -/
theorem waiting_loads {d : Instance V} {e : List V} {f : Instance V → Instance V} (hf : Loads e f)
    (hst : d.stage = dst) (hp : d.packedEvent = none) (hsu : d.suspended = false) :
    waiting s { f d with stage := d.stage } = if dst = s then some (e.map .value) else none := by
  unfold waiting
  cases hf with
  | values =>
      have he : eventOf { d with stack := d.stack ++ .handler :: e.map .value, args := e.length } =
          e.map .value := by
        simp only [eventOf, hp]
        exact State.callArgs_append rfl rfl
      simp only [hsu, hst, and_true] at he ⊢
      rw [he]
  | packed => simp [hsu, hst, eventOf]

end Aquire

/-! ## Sends -/

section Sends

variable {k k' : State V} {s dst : StageId} {r : List InstId} {ok : Prop} {o : Option (List V)}

/-- **A send puts the event it is accepted for at the right end of the pipeline**, on
either route. -/
theorem delivery_serial (ho : Owned k fun _ : Unit ↦ r) (ht : Tidy k r) (hs : Single k s)
    (hd : Delivery k dst .ok ok k' o) : Tidy k' r ∧ Single k' s ∧ k'.pipeline s = k.pipeline s ++
      if dst = s then o.toList.map (map .value) else [] := by
  -- an instance that is acquired is alone until it is queued
  have halone : ∀ {k₁ : State V} {i : InstId}, k.instanceAquire dst .ok = (k₁, some i) →
      Alone k₁ r i := fun {k₁ i} haq ↦ by
    have h := instanceAquire_owned ho () dst .ok
    rw [haq, System.update_unit] at h
    exact alone_of_owned h
  cases hd with
  | @queued k₁ k₂ e p con _ haq hp =>
      obtain ⟨rfl, hfull⟩ := aquire_none haq
      obtain ⟨-, rfl⟩ := State.tryPushEvent_eq_some.1 hp
      refine ⟨⟨ht.running, ht.recycled, ht.registered⟩, ?_, ?_⟩
      · by_cases hds : dst = s
        · subst hds
          refine ⟨hs.serial, hs.limit, hs.one, fun h₁ h₂ ↦ absurd (hfull h₁).1 h₂, fun h₁ h₂ ↦ ?_⟩
          have h₂ : k₁.numberOfInstances dst = 0 := h₂
          have h₃ := (hfull h₁).2
          have h₄ := hs.limit
          omega
        · have he : (Function.update k₁.eventQueues dst ((k₁.eventQueues dst).append e) s) =
              k₁.eventQueues s := Function.update_of_ne (Ne.symm hds) _ _
          exact ⟨hs.serial, hs.limit, hs.one,
            fun h₁ h₂ ↦ (congrArg Fifo.items he).trans (hs.idle h₁ h₂),
            fun h₁ h₂ ↦ (congrArg Fifo.items he).trans (hs.missing h₁ h₂)⟩
      · change k₁.loaded s ++ map (map .value)
            (Function.update k₁.eventQueues dst ((k₁.eventQueues dst).append e) s).items = _
        by_cases hds : dst = s
        · subst hds
          simp [State.pipeline]
        · simp [State.pipeline, hds, Ne.symm hds]
  | notQueued haq h =>
      obtain ⟨rfl, -⟩ := aquire_none haq
      exact ⟨ht, hs, by simp⟩
  | @handed k₁ i e f p con haq hf =>
      have ha := halone haq
      obtain ⟨ht₁, hi⟩ := ht.aquire ho haq
      obtain ⟨hst, hpk, hsu⟩ := hi i rfl
      have hs₁ := hs.aquire ho.accounted haq
      have ht₂ := ht₁.modifyInst ha f
      refine ⟨⟨ht₂.running, ht₂.recycled, ht₂.registered⟩,
        ⟨hs₁.serial, hs₁.limit, hs₁.one, hs₁.idle, hs₁.missing⟩, ?_⟩
      have hw : waiting s ((k₁.modifyInst i f).inst i) =
          if dst = s then some (e.map .value) else none := by
        rw [State.inst_modifyInst_self]
        exact waiting_loads hf hst hpk hsu
      have hl := loaded_push (s := s) ha.readied f
      rw [loaded_aquire ho haq, hw] at hl
      have hev := congrArg (fun q ↦ (q s).items) (untouched_of_aquire haq).events
      change ((k₁.modifyInst i f).pushReadyQueue i).loaded s ++
        map (map .value) (k₁.eventQueues s).items = _
      rw [hl, hev]
      by_cases hds : dst = s
      · subst hds
        obtain ⟨h₁, h₂⟩ := append_eq_nil_iff.1 (hs.empty ho haq)
        simp [State.pipeline, h₁, map_eq_nil_iff.1 h₂]
      · simp [State.pipeline, hds]
  | @wasted k₁ i f haq =>
      have ha := halone haq
      obtain ⟨ht₁, -⟩ := ht.aquire ho haq
      have hs₁ := hs.aquire ho.accounted haq
      refine ⟨ht₁.modifyInst ha f, ⟨hs₁.serial, hs₁.limit, hs₁.one, hs₁.idle, hs₁.missing⟩, ?_⟩
      have hev := congrArg (fun q ↦ (q s).items) (untouched_of_aquire haq).events
      change (k₁.modifyInst i f).loaded s ++ map (map .value) (k₁.eventQueues s).items = _
      rw [loaded_modifyInst ha.readied, loaded_aquire ho haq, hev]
      simp [State.pipeline]

end Sends

/-! ## Handlers that leave -/

section Leaving

variable {xf : Transfer U V} {k k' k₁ : State V} {s : StageId} {i : InstId} {r : List InstId}
  {y : Yield U}

/-- A suspended instance carries no event. -/
theorem waiting_suspended {d : Instance V} (h : d.suspended = true) : waiting s d = none :=
  if_neg fun hd ↦ by simp [h] at hd

/-- Suspending, and putting resume values on the stack of, an instance that is alone. -/
theorem Single.modifyInst (hs : Single k s) (f : Instance V → Instance V) :
    Single (k.modifyInst i f) s := ⟨hs.serial, hs.limit, hs.one, hs.idle, hs.missing⟩

/-- An instance that is queued to be resumed carries nothing. -/
theorem requeue_serial (ha : Alone k r i) (ht : Tidy k r) (hs : Single k s)
    (hsu : (k.inst i).suspended = true) (vals : List (Slot V)) :
    Tidy ((k.prepare i vals).pushReadyQueue i) r ∧ Single ((k.prepare i vals).pushReadyQueue i) s ∧
      ((k.prepare i vals).pushReadyQueue i).pipeline s = k.pipeline s := by
  have ht₁ : Tidy (k.prepare i vals) r := ht.modifyInst ha _
  refine ⟨⟨ht₁.running, ht₁.recycled, ht₁.registered⟩,
    ⟨hs.serial, hs.limit, hs.one, hs.idle, hs.missing⟩, ?_⟩
  have hsu' : ((k.prepare i vals).inst i).suspended = true := by
    rw [State.prepare, State.inst_modifyInst_self]
    exact hsu
  have hl : ((k.prepare i vals).pushReadyQueue i).loaded s = k.loaded s := by
    rw [State.prepare, loaded_push ha.readied, ← State.prepare, waiting_suspended hsu']
    simp
  exact congrArg (· ++ _) hl

/-- A suspended instance that is queued with the values it waited for. -/
theorem resume_serial (ha : Alone k r i) (ht : Tidy k r) (hs : Single k s)
    (vals : List (Slot V)) : Tidy (((k.suspend i).prepare i vals).pushReadyQueue i) r ∧
    Single (((k.suspend i).prepare i vals).pushReadyQueue i) s ∧
    (((k.suspend i).prepare i vals).pushReadyQueue i).pipeline s = k.pipeline s := by
  have ha₁ : Alone (k.suspend i) r i := ⟨ha.readied, ha.recycled, ha.registered, ha.running⟩
  have h := requeue_serial (s := s) ha₁ (ht.modifyInst ha _) (hs.modifyInst _)
    (by rw [State.suspend, State.inst_modifyInst_self]) vals
  refine ⟨h.1, h.2.1, h.2.2.trans ?_⟩
  exact congrArg (· ++ _) (loaded_modifyInst ha.readied _)

/-- **`instance_release` moves at most one event**, from the event queue into the instance it
queues. -/
theorem release_serial (ha : Alone k r i) (ht : Tidy k r) (hs : Single k s)
    (hp : (k.inst i).packedEvent = none) (hsu : (k.inst i).suspended = false) :
    Tidy (k.instanceRelease i).1 r ∧ Single (k.instanceRelease i).1 s ∧
      (k.instanceRelease i).1.pipeline s = k.pipeline s := by
  set k₂ := k.modifyInst i fun d ↦ { d with stack := [] } with hk₂
  have hst : k₂.stageOf i = k.stageOf i := State.stageOf_modifyInst
  have ht₂ : Tidy k₂ r := ht.modifyInst ha _
  have hs₂ : Single k₂ s := hs.modifyInst _
  have ha₂ : Alone k₂ r i := ⟨ha.readied, ha.recycled, ha.registered, ha.running⟩
  have hl₂ : k₂.loaded s = k.loaded s := loaded_modifyInst ha.readied _
  have hi₂ : (k₂.inst i).packedEvent = none ∧ (k₂.inst i).suspended = false := by
    rw [hk₂, State.inst_modifyInst_self]
    exact ⟨hp, hsu⟩
  rcases k.instanceRelease_cases i with ⟨e, k', hpop, he⟩ | ⟨hempty, -, he⟩ |
    ⟨hempty, k', hpush, he⟩ <;> simp only [he]
  · rw [← hk₂] at hpop
    obtain ⟨q, hi, -, rfl⟩ := State.tryPopEvent_eq_some.1 hpop
    -- the state in which the event is loaded
    set k₃ := (({ k₂ with eventQueues := Function.update k₂.eventQueues (k.stageOf i) q } :
      State V).statsInactive (k.stageOf i)).statsActive (k.stageOf i) with hk₃
    have ha₃ : Alone k₃ r i := ⟨ha.readied, ha.recycled, ha.registered, ha.running⟩
    have ht₃ : Tidy (k₃.load i e) r :=
      Tidy.modifyInst (k := k₃) ⟨ht₂.running, ht₂.recycled, ht₂.registered⟩ ha₃ _
    have hw : waiting s ((k₃.load i e).inst i) =
        if k.stageOf i = s then some (e.map .value) else none := by
      rw [State.load, State.inst_modifyInst_self]
      exact waiting_loads .values hst hi₂.1 hi₂.2
    have hl : ((k₃.load i e).pushReadyQueue i).loaded s = k.loaded s ++
        (if k.stageOf i = s then some (e.map .value) else none).toList := by
      rw [← hw, ← hl₂]
      exact loaded_push (k := k₃) ha₃.readied _
    have hev : k₃.eventQueues s = if k.stageOf i = s then q else k.eventQueues s := by
      change Function.update k₂.eventQueues (k.stageOf i) q s = _
      by_cases hss : k.stageOf i = s
      · subst hss
        simp
      · simp [hss, Ne.symm hss, hk₂]
    have hnil : (k.eventQueues s).items = [] → (k₃.eventQueues s).items = [] := fun h ↦ by
      rw [hev]
      by_cases hss : k.stageOf i = s
      · subst hss
        have hi : (k.eventQueues (k.stageOf i)).items = e :: q.items := hi
        rw [h] at hi
        cases hi
      · rwa [if_neg hss]
    refine ⟨⟨ht₃.running, ht₃.recycled, ht₃.registered⟩, ⟨hs.serial, hs.limit, hs.one,
      fun h₁ h₂ ↦ hnil (hs.idle h₁ h₂), fun h₁ h₂ ↦ hnil (hs.missing h₁ h₂)⟩, ?_⟩
    · change ((k₃.load i e).pushReadyQueue i).loaded s ++
        map (map .value) (k₃.eventQueues s).items = _
      rw [hl, hev]
      by_cases hss : k.stageOf i = s
      · subst hss
        have hi : (k.eventQueues (k.stageOf i)).items = e :: q.items := hi
        simp [State.pipeline, hi]
      · simp [State.pipeline, hss]
  · refine ⟨⟨ht₂.running, ht₂.recycled, ht₂.registered⟩, ?_, congrArg (· ++ _) hl₂⟩
    have hn : ((k₂.statsInactive (k.stageOf i)).instanceDestroy i).numberOfInstances s =
        if k.stageOf i = s then k.numberOfInstances s - 1 else k.numberOfInstances s := by
      change Function.update k₂.numberOfInstances (k₂.stageOf i) _ s = _
      rw [hst]
      by_cases hss : k.stageOf i = s
      · subst hss
        simp [State.stageOf, hk₂, Int.sub_eq_add_neg]
      · simp [hss, Ne.symm hss, hk₂]
    refine ⟨hs.serial, hs.limit, ?_, hs.idle, fun h₁ h₂ ↦ ?_⟩
    · rw [hn]
      have := hs.one
      split <;> omega
    · rw [hn] at h₂
      by_cases hss : k.stageOf i = s
      · exact hss ▸ hempty
      · rw [if_neg hss] at h₂
        exact hs.missing h₁ h₂
  · obtain ⟨-, rfl⟩ := State.tryPushRecycle_eq_some.1 hpush
    refine ⟨⟨ht₂.running, fun s' j hj ↦ ?_, ht₂.registered⟩, ?_, congrArg (· ++ _) hl₂⟩
    · by_cases hss : s' = k.stageOf i
      · subst hss
        have hj : j ∈ (k.recycleQueues (k.stageOf i)).items ++ [i] := by simpa using hj
        rcases mem_append.1 hj with hj | hj
        · exact ht₂.recycled _ j hj
        · obtain rfl := mem_singleton.1 hj
          exact hi₂
      · refine ht₂.recycled s' j ?_
        change j ∈ (k.recycleQueues s').items
        simpa [hss] using hj
    · refine ⟨hs.serial, hs.limit, hs.one, fun h₁ h₂ ↦ ?_, hs.missing⟩
      by_cases hss : k.stageOf i = s
      · exact hss ▸ hempty
      · refine hs.idle h₁ ?_
        simpa [Ne.symm hss] using h₂

/-- The others are as tidy without the instance that left. -/
theorem Tidy.erase (ht : Tidy k r) (i : InstId) : Tidy k (r.erase i) :=
  ⟨fun j hj ↦ ht.running j (mem_of_mem_erase hj), ht.recycled, ht.registered⟩

/-- **A handler that leaves leaves the pipeline alone**, unless its instance is destroyed. -/
theorem left_serial (ho : Owned k fun _ : Unit ↦ r) (ht : Tidy k r) (hs : Single k s) (hi : i ∈ r)
    (hl : Left xf k i y k') (hy : y.dies = false)
    (hc : ∀ dst con args c, y = .cohort dst con args c → c = .ok) :
    Tidy k' (r.erase i) ∧ Single k' s ∧ k'.pipeline s = k.pipeline s := by
  have ha := alone_of_mem ho hi
  have ht' := ht.erase i
  have ha₁ : ∀ f, Alone (k.modifyInst i f) (r.erase i) i := fun f ↦
    ⟨ha.readied, ha.recycled, ha.registered, ha.running⟩
  cases hl with
  | released =>
      have hp := ht.running i hi
      have h := release_serial (s := s) (ha₁ fun d ↦ { d with suspended := false })
        (ht'.modifyInst ha _) (hs.modifyInst _)
        (by rw [State.inst_modifyInst_self]; exact hp) (by rw [State.inst_modifyInst_self])
      refine ⟨h.1, h.2.1, h.2.2.trans ?_⟩
      exact congrArg (· ++ _) (loaded_modifyInst ha.readied _)
  | destroyed hd => exact absurd hd (by simp [hy])
  | lost =>
      exact ⟨ht'.modifyInst ha _, hs.modifyInst _,
        congrArg (· ++ _) (loaded_modifyInst ha.readied _)⟩
  | resumed => exact resume_serial ha ht' hs _
  | registered =>
      have ht₁ : Tidy (k.suspend i) (r.erase i) := ht'.modifyInst ha _
      refine ⟨⟨ht₁.running, ht₁.recycled, fun j hj ↦ ?_⟩,
        ⟨hs.serial, hs.limit, hs.one, hs.idle, hs.missing⟩,
        congrArg (· ++ _) (loaded_modifyInst (k := k) ha.readied
          fun d ↦ { d with suspended := true })⟩
      simp only [State.register, map_append, map_cons, map_nil, mem_append, mem_singleton] at hj
      rcases hj with hj | rfl
      · exact ht₁.registered j hj
      · change ((k.suspend j).inst j).suspended = true
        simp [State.suspend, State.inst_modifyInst_self]
  | @refused dst con args c k₁ haq =>
      obtain rfl := hc dst con args c rfl
      obtain ⟨rfl, -⟩ := aquire_none haq
      exact resume_serial ha ht' hs _

end Leaving

/-! ## Whole runs -/

/-- Every instance that is asked for can be created, and no handler ends with an error, a
`DESTROY` or an unknown status. -/
def Op.clean : Op U V → Bool
  | .emmit _ _ _ c _ | .packed _ _ c => c = .ok
  | .ret _ y => !y.dies && match y with
      | .cohort _ _ _ c => c = .ok
      | _ => true
  | _ => true

namespace System

variable {xf : Transfer U V} {σ σ' : System V} {s : StageId}

/-- What holds of a serial stage after every operation. -/
structure Orderly (s : StageId) (σ : System V) : Prop where
  owns : σ.Owns
  tidy : Tidy σ.kernel σ.running
  single : Single σ.kernel s
  log : σ.handled s ++ σ.kernel.pipeline s = (σ.accepted s).map (map .value)

/-- **A call takes the event its instance carries** out of the pipeline and into the log. -/
theorem call_serial {i : InstId} (ht : Tidy σ.kernel σ.running) (hs : Single σ.kernel s)
    (ha : Alone σ.kernel σ.running i) : Tidy (σ.call i).kernel (σ.call i).running ∧
    Single (σ.call i).kernel s ∧ (σ.call i).handled s ++ (σ.call i).kernel.pipeline s =
      σ.handled s ++ (waiting s (σ.kernel.inst i)).toList ++ σ.kernel.pipeline s := by
  obtain ⟨f, hf⟩ := σ.call_kernel i
  have hpk : ((σ.call i).kernel.inst i).packedEvent = none :=
    State.packedEvent_resumeInstance σ.kernel i
  have ht₁ : Tidy (σ.call i).kernel σ.running := by
    rw [hf]
    exact ht.modifyInst ha f
  have hs₁ : Single (σ.call i).kernel s := by
    rw [hf]
    exact hs.modifyInst f
  have hpipe : (σ.call i).kernel.pipeline s = σ.kernel.pipeline s := by
    rw [hf]
    exact congrArg (· ++ _) (loaded_modifyInst ha.readied f)
  refine ⟨⟨fun j hj ↦ ?_, ht₁.recycled, ht₁.registered⟩, hs₁, ?_⟩
  · rcases mem_cons.1 hj with rfl | hj
    · exact hpk
    · exact ht₁.running j hj
  · rw [hpipe]
    congr 1
    -- the handler is started on the event, or resumed
    simp only [call, State.resumeInstance_snd]
    unfold waiting
    cases hsu : (σ.kernel.inst i).suspended with
    | true => simp
    | false =>
        by_cases hst : σ.kernel.stageOf i = s
        · subst hst
          simp [State.stageOf]
        · have hst' : (σ.kernel.inst i).stage ≠ s := hst
          simp [hst', Ne.symm hst]

/-- The log of a send that was accepted, or refused. -/
theorem deliver_log (dst : StageId) (k : State V) (o : Option (List V)) :
    ((σ.deliver dst k o).accepted s).map (map Slot.value) = (σ.accepted s).map (map .value) ++
      if dst = s then o.toList.map (map .value) else [] := by
  cases o with
  | none => by_cases hds : dst = s <;> simp [deliver, hds]
  | some e =>
      by_cases hds : dst = s
      · subst hds
        simp [deliver, accept]
      · simp [deliver, accept, hds, Ne.symm hds]

/-- A send keeps the order. -/
theorem Orderly.deliver {dst : StageId} {ok : Prop} {k : State V} {o : Option (List V)}
    (h : σ.Orderly s) (ho' : (σ.deliver dst k o).Owns) (hd : Delivery σ.kernel dst .ok ok k o) :
    (σ.deliver dst k o).Orderly s := by
  obtain ⟨ht, hs, hp⟩ := delivery_serial h.owns h.tidy h.single hd
  have hk : (σ.deliver dst k o).kernel = k ∧ (σ.deliver dst k o).running = σ.running ∧
      (σ.deliver dst k o).handled = σ.handled := by
    cases o <;> exact ⟨rfl, rfl, rfl⟩
  refine ⟨ho', ?_, ?_, ?_⟩
  · rw [hk.1, hk.2.1]
    exact ht
  · rw [hk.1]
    exact hs
  · rw [hk.1, hk.2.2, hp, deliver_log, ← append_assoc, h.log]

/-- A step that changes neither the instances nor what is pending keeps the order. -/
theorem Orderly.frame (h : σ.Orderly s) (ho' : σ'.Owns) (hr : σ'.running = σ.running)
    (hh : σ'.handled = σ.handled) (ha : σ'.accepted = σ.accepted)
    (hg : σ'.kernel.graph = σ.kernel.graph)
    (hl : σ'.kernel.recycleQueueLimits s = σ.kernel.recycleQueueLimits s)
    (hn : σ'.kernel.numberOfInstances = σ.kernel.numberOfInstances)
    (hrec : ∀ s, (σ'.kernel.recycleQueues s).items = (σ.kernel.recycleQueues s).items)
    (hev : (σ'.kernel.eventQueues s).items = (σ.kernel.eventQueues s).items)
    (hreg : σ'.kernel.registered = σ.kernel.registered)
    (hready : σ'.kernel.readied = σ.kernel.readied) (hi : σ'.kernel.inst = σ.kernel.inst) :
    σ'.Orderly s where
  owns := ho'
  tidy := by
    refine ⟨?_, ?_, ?_⟩
    · rw [hr, hi]
      exact h.tidy.running
    · intro s'
      rw [hrec, hi]
      exact h.tidy.recycled s'
    · rw [hreg, hi]
      exact h.tidy.registered
  single := by
    refine ⟨?_, ?_, ?_, ?_, ?_⟩
    · rw [hg]
      exact h.single.serial
    · rw [hl]
      exact h.single.limit
    · rw [hn]
      exact h.single.one
    · rw [hg, hrec, hev]
      exact h.single.idle
    · rw [hg, hn, hev]
      exact h.single.missing
  log := by
    have hp : σ'.kernel.loaded s = σ.kernel.loaded s :=
      State.loaded_congr hready fun i _ ↦ by rw [hi]
    rw [hh, ha, State.pipeline, hp, hev]
    exact h.log

/-- Starting with the event an instance of the ready queue carries. -/
theorem Orderly.dispatch {i : InstId} {k : State V} (h : σ.Orderly s)
    (hp : σ.kernel.popReady = some (some i, k)) (ho' : (call { σ with kernel := k } i).Owns) :
    (call { σ with kernel := k } i).Orderly s := by
  have ho : Owned k fun _ : Unit ↦ i :: σ.running := by
    have h₁ := h.owns.takeReady (t := ()) hp (Subperm.refl _)
    rwa [update_unit] at h₁
  obtain ⟨q, hi, -, rfl⟩ := State.popReady_eq_some.1 hp
  have ha := alone_of_owned ho
  obtain ⟨ht, hs, hlog⟩ := call_serial (s := s)
    (σ := { σ with kernel := { σ.kernel with readyQueue := q } })
    ⟨h.tidy.running, h.tidy.recycled, h.tidy.registered⟩
    ⟨h.single.serial, h.single.limit, h.single.one, h.single.idle, h.single.missing⟩ ha
  refine ⟨ho', ht, hs, hlog.trans ?_⟩
  have hl : σ.kernel.loaded s = (waiting s (σ.kernel.inst i)).toList ++
      ({ σ.kernel with readyQueue := q } : State V).loaded s := by
    simp only [State.loaded, State.readied, hi, filterMap_cons, id]
    cases waiting s (σ.kernel.inst i) <;> rfl
  have hlog₀ := h.log
  rw [State.pipeline, hl] at hlog₀
  simp only [State.pipeline, append_assoc] at hlog₀ ⊢
  exact hlog₀

/-- A cohort to a serial stage goes the direct route. -/
theorem Orderly.pass {i callee : InstId} {dst : StageId} {con : ConnectorId} {args : List U}
    {σ₁ : System V} (h : σ.Orderly s) (hi : i ∈ σ.running)
    (hp : (σ.kernel.threadReturn xf i (.cohort dst con args .ok)).2 = .resume callee)
    (hk : σ₁.kernel = (σ.kernel.threadReturn xf i (.cohort dst con args .ok)).1)
    (hr : σ₁.running = σ.running.erase i) (hh : σ₁.handled = σ.handled)
    (hacc : (σ₁.accepted s).map (map Slot.value) = (σ.accepted s).map (map .value) ++
      if dst = s then [(sentEvent xf args true).map .value] else [])
    (ho' : (σ₁.call callee).Owns) : (σ₁.call callee).Orderly s := by
  obtain ⟨k₁, e, haq, hcopy, hk₁⟩ := threadReturn_pass hp
  rw [hk₁] at hk
  have hsent : sentEvent xf args true = e := by simp [sentEvent, hcopy]
  rw [hsent] at hacc
  -- the caller alone, then the callee in the same hands
  have ha := alone_of_mem h.owns hi
  have hpk : ((σ.kernel.suspend i).inst i).packedEvent = none := by
    rw [State.suspend, State.inst_modifyInst_self]
    exact h.tidy.running i hi
  have ht₀ : Tidy (σ.kernel.suspend i) (σ.running.erase i) := (h.tidy.erase i).modifyInst ha _
  have ht₁ : Tidy (σ.kernel.suspend i) (i :: σ.running.erase i) :=
    ⟨fun j hj ↦ by
      rcases mem_cons.1 hj with rfl | hj
      · exact hpk
      · exact ht₀.running j hj, ht₀.recycled, ht₀.registered⟩
  have ho₁ : Owned (σ.kernel.suspend i) fun _ : Unit ↦ i :: σ.running.erase i := by
    have h₁ := (h.owns.same (.modifyInst σ.kernel i fun d ↦ { d with suspended := true })).drop
      (t := ()) (l := i :: σ.running.erase i) (perm_cons_erase hi).symm.subperm
    rwa [update_unit] at h₁
  have hs₁ : Single (σ.kernel.suspend i) s := h.single.modifyInst _
  obtain ⟨ht₂, hcallee⟩ := ht₁.aquire ho₁ haq
  obtain ⟨hst, hcpk, hcsu⟩ := hcallee callee rfl
  have hs₂ := hs₁.aquire ho₁.accounted haq
  have ho₂ : Owned k₁ fun _ : Unit ↦ callee :: i :: σ.running.erase i := by
    have h₁ := instanceAquire_owned ho₁ () dst .ok
    rwa [haq, update_unit] at h₁
  have hac := alone_of_owned ho₂
  have hne : i ≠ callee := fun e ↦ hac.running (e ▸ mem_cons_self)
  have hai : Alone (k₁.load callee e) (σ.running.erase i) i := by
    have h₁ := alone_of_owned (r := callee :: σ.running.erase i)
      (update_unit _ _ ▸ ho₂.drop (t := ()) (Perm.swap callee i _).subperm)
    exact ⟨h₁.readied, h₁.recycled, h₁.registered, fun hm ↦ h₁.running (mem_cons_of_mem _ hm)⟩
  have ht₃ : Tidy (k₁.load callee e) (i :: σ.running.erase i) := ht₂.modifyInst hac _
  have hsus : ((k₁.load callee e).inst i).suspended = true := by
    rw [State.load, State.inst_modifyInst_of_ne hne, (untouched_of_aquire haq).inst i
      fun he ↦ ho₁.nextInst_notMem (.hands ()) (he ▸ mem_cons_self), State.suspend,
      State.inst_modifyInst_self]
  obtain ⟨ht₄, hs₄, hpipe⟩ := requeue_serial (k := k₁.load callee e) (s := s) hai
    ⟨fun j hj ↦ ht₃.running j (mem_cons_of_mem _ hj), ht₃.recycled, ht₃.registered⟩
    (hs₂.modifyInst _) hsus [.boolean true]
  have hpipe₀ : (k₁.load callee e).pipeline s = (σ.kernel.suspend i).pipeline s := by
    have hev : (k₁.load callee e).eventQueues = (σ.kernel.suspend i).eventQueues :=
      (untouched_of_aquire haq).events
    rw [State.pipeline, hev, State.load, loaded_modifyInst hac.readied, loaded_aquire ho₁ haq]
    rfl
  have hpipe₁ : (σ.kernel.suspend i).pipeline s = σ.kernel.pipeline s :=
    congrArg (· ++ _) (loaded_modifyInst ha.readied _)
  have hw : waiting s (σ₁.kernel.inst callee) =
      if dst = s then some (e.map .value) else none := by
    have hin : σ₁.kernel.inst callee = (k₁.load callee e).inst callee := by
      rw [hk]
      change ((k₁.load callee e).prepare i [.boolean true]).inst callee = _
      exact State.inst_modifyInst_of_ne hne.symm
    rw [hin, State.load, State.inst_modifyInst_self]
    exact waiting_loads .values hst hcpk hcsu
  have hac' : Alone σ₁.kernel σ₁.running callee := by
    rw [hk, hr]
    refine ⟨fun hm ↦ ?_, hac.recycled, hac.registered,
      fun hm ↦ hac.running (mem_cons_of_mem _ hm)⟩
    have hm : callee ∈ ((k₁.load callee e).prepare i [.boolean true]).readied ++ [i] :=
      State.readied_pushReadyQueue ▸ hm
    rcases mem_append.1 hm with hm | hm
    · exact hac.readied hm
    · exact hne (mem_singleton.1 hm).symm
  obtain ⟨ht₅, hs₅, hlog⟩ := call_serial (σ := σ₁) (s := s)
    (by rw [hk, hr]; exact ⟨ht₄.running, ht₄.recycled, ht₄.registered⟩)
    (by rw [hk]; exact ⟨hs₄.serial, hs₄.limit, hs₄.one, hs₄.idle, hs₄.missing⟩) hac'
  refine ⟨ho', ht₅, hs₅, ?_⟩
  have hk' : σ₁.kernel.pipeline s = σ.kernel.pipeline s := by
    rw [hk]
    exact hpipe.trans (hpipe₀.trans hpipe₁)
  have hacc' : (σ₁.call callee).accepted = σ₁.accepted := rfl
  rw [hlog, hacc', hacc, hh, hw, hk', ← h.log]
  by_cases hds : dst = s
  · subst hds
    have hempty := hpipe₁ ▸ hs₁.empty ho₁ haq
    simp [hempty]
  · simp [hds]

/-- **Every clean step keeps the order.** -/
theorem Orderly.step {op : Op U V} (h : σ.Orderly s) (hc : op.clean = true)
    (hstep : System.step xf σ op = some σ') : σ'.Orderly s := by
  have ho' := owns_step h.owns hstep
  cases step_cases hstep with
  | emmit hloc hd =>
      obtain rfl := of_decide_eq_true hc
      exact h.deliver ho' hd
  | remote hloc hk =>
      rcases hk with rfl | rfl
      · exact h
      · exact h.frame ho' rfl rfl rfl rfl rfl rfl (fun _ ↦ rfl) rfl rfl rfl rfl
  | packed hd =>
      obtain rfl := of_decide_eq_true hc
      exact h.deliver ho' hd
  | dispatch hp => exact h.dispatch hp ho'
  | dispatchNull hp =>
      obtain ⟨q, hi, -, rfl⟩ := State.popReady_eq_some.1 hp
      refine h.frame ho' rfl rfl rfl rfl rfl rfl (fun _ ↦ rfl) rfl rfl ?_ rfl
      simp [State.readied, hi]
  | @ret i y hi hl =>
      simp only [Op.clean, Bool.and_eq_true, Bool.not_eq_true'] at hc
      obtain ⟨ht, hs, hp⟩ := left_serial h.owns h.tidy h.single hi (threadReturn_left _ hl) hc.1
        fun dst con args c hy ↦ by
          subst hy
          exact of_decide_eq_true hc.2
      exact ⟨ho', ht, hs, by rw [hp]; exact h.log⟩
  | @pass i callee dst con args c hi hp =>
      simp only [Op.clean, Bool.and_eq_true] at hc
      obtain rfl := of_decide_eq_true hc.2
      refine h.pass hi hp rfl rfl rfl ?_ ho'
      by_cases hds : dst = s
      · subst hds
        simp [accept]
      · simp [accept, hds, Ne.symm hds]
  | @callback i c o k hk =>
      unfold State.complete at hk
      split at hk
      · rename_i hm
        obtain rfl := Option.some.inj hk
        have ho := h.owns.takeRegistered (t := ()) hm (Subperm.refl _)
        rw [update_unit] at ho
        have hsu := h.tidy.registered i (mem_map.2 ⟨_, hm, rfl⟩)
        obtain ⟨ht, hs, hp⟩ := requeue_serial (s := s) (alone_of_owned ho)
          ⟨h.tidy.running, h.tidy.recycled, fun j hj ↦ h.tidy.registered j
            ((erase_sublist.map Prod.fst).subset hj)⟩
          ⟨h.single.serial, h.single.limit, h.single.one, h.single.idle, h.single.missing⟩ hsu
          (State.completionValues c o)
        exact ⟨ho', ht, hs, by rw [hp]; exact h.log⟩
      · cases hk
  | kill =>
      refine h.frame ho' rfl rfl rfl rfl rfl rfl (fun _ ↦ rfl) rfl rfl ?_ rfl
      simp [State.readied]
  | @setMaxpar a b =>
      rcases σ.kernel.instanceSetMaxpar_cases a b with he | ⟨p, -, hp, he⟩
      · rw [he]
        exact h
      · rw [he] at ho' ⊢
        -- the limit of a serial stage cannot be changed
        have hps : p s = false := by
          by_contra hps
          have := (hp s (by simpa using hps)).1
          rw [h.single.serial] at this
          cases this
        refine h.frame ho' rfl rfl rfl rfl ?_ rfl (fun s' ↦ ?_) rfl rfl rfl rfl
        · simp [State.storeLimits, hps]
        · simp only [State.storeLimits]
          split <;> rfl
  | @setCapacity i cap =>
      obtain ⟨hg, hl, hi, hev⟩ := ledaSetCapacity_frame σ.kernel i cap
      have hsame := same_ledaSetCapacity σ.kernel i cap
      exact h.frame ho' rfl rfl rfl hg (congrFun hl s) hsame.number hsame.recycle (hev s)
        hsame.registered (congrArg (filterMap id) hsame.ready) hi

/-- Nothing has been accepted at the start. -/
theorem orderly_init (g : Graph) (ft : FullTest) (L pend : Int) (s : StageId)
    (hserial : g.serial s = true) : (init g ft L pend : System V).Orderly s where
  owns := owns_init g ft L pend
  tidy := by
    refine ⟨fun j hj ↦ ?_, fun s' j hj ↦ ?_, fun j hj ↦ ?_⟩ <;> cases hj
  single := ⟨hserial, by simp [init, State.instanceInit, hserial],
    by simp [init, State.instanceInit], fun _ _ ↦ rfl, fun _ _ ↦ rfl⟩
  log := rfl

/-- **A serial stage handles events in the order they were accepted.**  In every run from
the start in which creations succeed and no handler ends with an error, a `DESTROY` or an
unknown status, whatever else handlers yield with, and for all queue capacities: in every
state of the run, what the handler of a serial stage was called with is a prefix of the
events whose emission to the stage returned success. -/
theorem serial_order (xf : Transfer U V) (g : Graph) (ft : FullTest) (L pend : Int)
    (s : StageId) (hserial : g.serial s = true) {tr : List (System V × Op U V)} {σ : System V}
    (h : Run (step xf) (init g ft L pend) tr σ) (hclean : ∀ p ∈ tr, p.2.clean = true) :
    ∀ x ∈ visited tr σ, x.handled s <+: (x.accepted s).map (map .value) := by
  intro x hx
  have hI : x.Orderly s := h.invariant_visited (C := fun _ op ↦ op.clean = true)
    (orderly_init g ft L pend s hserial)
    (fun _ _ _ hI hC hs ↦ hI.step hC hs) hclean x hx
  rw [← hI.log]
  exact prefix_append _ _

/-- Two events for a serial stage: the first one directly, the second one through the event
queue, with a handler that sleeps in between. -/
def directThenQueued : List (Op Nat Nat) :=
  [.emmit 0 0 [1] .ok (.ok ()), .dispatch, .emmit 0 0 [2] .ok (.ok ()),
    .ret 0 (.sleep .valid true), .callback 0 .timer .ok, .dispatch, .ret 0 .ended, .dispatch]

/-- `serial_order` at `directThenQueued`, where both events are handled. -/
theorem serial_order_directThenQueued :
    ∃ σ : System Nat, exec (step (.plain Nat)) (init (.single true) .exactly (-1) (-1))
        directThenQueued = some σ ∧ σ.handled 0 = [[.value 1], [.value 2]] ∧
      σ.handled 0 <+: (σ.accepted 0).map (map .value) := by
  obtain ⟨σ, hσ⟩ : ∃ σ, exec (step (.plain Nat)) (init (.single true) .exactly (-1) (-1))
      directThenQueued = some σ := ⟨_, rfl⟩
  refine ⟨σ, hσ, ?_, serial_order (.plain Nat) _ _ _ _ 0 rfl (Run.of_exec hσ) (by decide) σ
    (by simp [visited])⟩
  obtain rfl := Option.some.inj hσ
  decide

end System

end Leda.Kernel
