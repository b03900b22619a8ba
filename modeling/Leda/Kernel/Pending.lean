import Leda.Kernel.System

/-!
# Pending events across failures

With whole operations as steps, a pending event is in reach while some instance of its
stage is `Active`: queued, running or waiting for a completion.  `instance_release`
keeps it so, because it hands the event out or has seen that there is none.  Two other
things can happen to a stage with a pending event.

* An instance is lost with its handler: `instance_destroy` after an error, after
  `DESTROY`, or after an unknown status does not look at the event queue, and neither
  does anybody when the system call that should have resumed the handler failed.
* A send is denied an instance and queues its event, but no instance is active.  This
  is so when `instance_aquire` tried to create one and failed; the limit alone denies an
  instance only to a stage that has instances.

`pending_in_reach_iff` says that nothing else matters: a run keeps every event in reach
iff each of its steps is `Safe`.
-/

universe u

namespace Leda.Kernel

open Leda.Lib List

variable {U V : Type u}

/-- `instance_aquire` neither finds nor makes an instance. -/
def State.Denied (k : State V) (s : StageId) (c : Creation) : Prop :=
  k.graph.Beyond s ∨ (k.recycleQueues s).items = [] ∧
    (k.numberOfInstances s = k.recycleQueueLimits s ∨ c ≠ .ok)

instance (k : State V) (s : StageId) (c : Creation) : Decidable (k.Denied s c) :=
  inferInstanceAs (Decidable (_ ∨ _))

/-- `Denied` says when `instance_aquire` returns `NULL`. -/
theorem denied_iff {k : State V} {s : StageId} {c : Creation} :
    k.Denied s c ↔ (k.instanceAquire s c).2 = none := by
  unfold State.Denied State.instanceAquire
  by_cases hs : k.graph.Beyond s
  · simp [hs]
  · rw [if_neg hs]
    split
    · rename_i i k' hp
      have hne : (k.recycleQueues s).items ≠ [] := fun he ↦ by
        rw [State.tryPopRecycle_eq_none.2 he] at hp
        cases hp
      simp [hs, hne]
    · rename_i hp
      rw [State.tryPopRecycle_eq_none] at hp
      by_cases hn : k.numberOfInstances s = k.recycleQueueLimits s
      · simp [hp, hn]
      · cases c <;> simp [hs, hp, hn, State.instanceCreate]

/-- To suspend an instance does not change that. -/
theorem denied_suspend_iff {k : State V} {i : InstId} {s : StageId} {c : Creation} :
    k.Denied s c ↔ ((k.suspend i).instanceAquire s c).2 = none :=
  Iff.trans Iff.rfl (denied_iff (k := k.suspend i))

/-- The handler leaves its instance to nobody. -/
def Yield.Loses (xf : Transfer U V) (y : Yield U) : Prop :=
  y.dies = true ∨ y.fate xf = some .lost

/-- An instance that is destroyed has no fate. -/
theorem Yield.fate_of_dies {xf : Transfer U V} {y : Yield U} (hy : y.dies = true) :
    y.fate xf = none := by
  cases y <;> first | rfl | cases hy

section Leaving

variable {xf : Transfer U V} {k k' : State V} {i : InstId} {y : Yield U}

/-- What a handler that leaves does not disturb, and where its instance is then. -/
structure Leaves (xf : Transfer U V) (k k' : State V) (i : InstId) (y : Yield U) : Prop where
  stage : ∀ j ∈ k.live, k'.stageOf j = k.stageOf j
  ready : ∀ j, some j ∈ k.readyQueue.items → some j ∈ k'.readyQueue.items
  registered : ∀ q ∈ k.registered, q ∈ k'.registered
  events : ∀ s, (k.eventQueues s).items = [] → (k'.eventQueues s).items = []
  self : some i ∈ k'.readyQueue.items ∨ i ∈ k'.registered.map Prod.fst ∨
    (k'.eventQueues (k.stageOf i)).items = [] ∨ y.Loses xf

/-- `instance_release` queues the instance, or has seen that no event is pending. -/
theorem leaves_release (k : State V) (i : InstId) (y : Yield U) :
    Leaves xf k (k.instanceRelease i).1 i y := by
  rcases k.instanceRelease_cases i with ⟨e, k', hp, he⟩ | ⟨hempty, -, he⟩ | ⟨hempty, k', hp, he⟩ <;>
    simp only [he]
  · obtain ⟨q, hi, -, rfl⟩ := State.tryPopEvent_eq_some.1 hp
    refine ⟨fun j _ ↦ ?_, fun j hj ↦ mem_append_left _ hj, fun _ ↦ id, fun s hs ↦ ?_,
      .inl (mem_append_right _ mem_cons_self)⟩
    · simp [State.stageOf, State.pushReadyQueue]
    · by_cases hst : s = k.stageOf i
      · subst hst
        have hi : (k.eventQueues (k.stageOf i)).items = e :: q.items := hi
        rw [hs] at hi
        cases hi
      · change (Function.update k.eventQueues (k.stageOf i) q s).items = []
        rwa [Function.update_of_ne hst]
  · exact ⟨fun j _ ↦ by simp [State.stageOf, State.instanceDestroy], fun _ ↦ id, fun _ ↦ id,
      fun _ ↦ id, .inr (.inr (.inl hempty))⟩
  · obtain ⟨-, rfl⟩ := State.tryPushRecycle_eq_some.1 hp
    exact ⟨fun j _ ↦ by simp [State.stageOf], fun _ ↦ id, fun _ ↦ id, fun _ ↦ id,
      .inr (.inr (.inl hempty))⟩

theorem Left.leaves (ha : Accounted k) (h : Left xf k i y k') : Leaves xf k k' i y := by
  have hsus : ∀ j, (k.suspend i).stageOf j = k.stageOf j := fun j ↦ State.stageOf_modifyInst
  have hqueued : ∀ j (k₁ : State V) vals,
      ((k₁.prepare i vals).pushReadyQueue i).stageOf j = k₁.stageOf j := fun j k₁ vals ↦ by
    simp [State.stageOf, State.pushReadyQueue]
  cases h with
  | released =>
      set k₀ := k.modifyInst i fun d ↦ { d with suspended := false } with hk₀
      have hst : ∀ j, k₀.stageOf j = k.stageOf j := fun j ↦ by rw [hk₀, State.stageOf_modifyInst]
      have h : Leaves xf k₀ (k₀.instanceRelease i).1 i .ended := leaves_release k₀ i .ended
      exact ⟨fun j hj ↦ (h.stage j hj).trans (hst j), h.ready, h.registered, h.events,
        hst i ▸ h.self⟩
  | destroyed hy st =>
      exact ⟨fun j _ ↦ hsus j, fun _ ↦ id, fun _ ↦ id, fun _ ↦ id, .inr (.inr (.inr (.inl hy)))⟩
  | lost hy =>
      exact ⟨fun j _ ↦ hsus j, fun _ ↦ id, fun _ ↦ id, fun _ ↦ id, .inr (.inr (.inr (.inr hy)))⟩
  | resumed hy =>
      exact ⟨fun j _ ↦ (hqueued j _ _).trans (hsus j), fun j hj ↦ mem_append_left _ hj,
        fun _ ↦ id, fun _ ↦ id, .inl (mem_append_right _ mem_cons_self)⟩
  | registered hy =>
      exact ⟨fun j _ ↦ hsus j, fun _ ↦ id, fun q hq ↦ mem_append_left _ hq, fun _ ↦ id,
        .inr (.inl (by simp))⟩
  | @refused dst con args c k₁ haq =>
      have hu := untouched_of_aquire haq
      have ha' : Accounted (k.suspend i) := ha.modifyInst _
      refine ⟨fun j hj ↦ ?_, fun j hj ↦ mem_append_left _ ?_, fun q hq ↦ ?_, fun s hs ↦ ?_,
        .inl (mem_append_right _ mem_cons_self)⟩
      · exact (hqueued j _ _).trans ((hu.stageOf ha' j hj).trans (hsus j))
      · exact hu.ready ▸ hj
      · exact hu.registered ▸ hq
      · exact hu.events ▸ hs

/-- An instance left to nobody is in no queue, and nobody else's position changes. -/
theorem Left.loses (h : Left xf k i y k') (hy : y.Loses xf) :
    k'.readyQueue = k.readyQueue ∧ k'.registered = k.registered ∧
      k'.eventQueues = k.eventQueues := by
  cases h with
  | destroyed | lost => exact ⟨rfl, rfl, rfl⟩
  | released | refused => rcases hy with hy | hy <;> cases hy
  | resumed hφ | registered hφ =>
      rcases hy with hy | hy
      · rw [Yield.fate_of_dies hy] at hφ
        cases hφ
      · rw [hφ] at hy
        cases hy

end Leaving

namespace System

/-- `i` is queued, running or waiting for a completion. -/
def Active (σ : System V) (i : InstId) : Prop :=
  some i ∈ σ.kernel.readyQueue.items ∨ i ∈ σ.running ∨ i ∈ σ.kernel.registered.map Prod.fst

/-- Some instance of `s` is active. -/
def Attended (s : StageId) (σ : System V) : Prop := ∃ i ∈ σ.kernel.liveOf s, σ.Active i

/-- Events pending for `s` are in reach of an active instance. -/
def InReach (s : StageId) (σ : System V) : Prop :=
  (σ.kernel.eventQueues s).items ≠ [] → σ.Attended s

instance (σ : System V) (i : InstId) : Decidable (σ.Active i) :=
  inferInstanceAs (Decidable (_ ∨ _ ∨ _))

instance (s : StageId) (σ : System V) : Decidable (σ.Attended s) :=
  inferInstanceAs (Decidable (∃ _ ∈ _, _))

instance (s : StageId) (σ : System V) : Decidable (σ.InReach s) :=
  inferInstanceAs (Decidable (_ → _))

/-- A send that is denied an instance of `s`, and finds room in the event queue, must
find `s` attended; a handler of `s` that leaves its instance to nobody must leave an
empty event queue or another active instance. -/
def Safe (xf : Transfer U V) (s : StageId) (σ : System V) : Op U V → Prop
  | .emmit _ dst args c _ => dst = s → σ.kernel.graph.isLocal s = true →
      (∃ e, xf.extract args = .ok e) → σ.kernel.Denied s c →
      (σ.kernel.eventQueues s).full σ.kernel.fullTest = false → σ.Attended s
  | .packed dst _ c => dst = s → σ.kernel.Denied s c →
      (σ.kernel.eventQueues s).full σ.kernel.fullTest = false → σ.Attended s
  | .ret i y => σ.kernel.stageOf i = s → y.Loses xf →
      (σ.kernel.eventQueues s).items = [] ∨ ∃ j ∈ σ.kernel.liveOf s, j ≠ i ∧ σ.Active j
  | _ => True

section Steps

variable {xf : Transfer U V} {σ σ' : System V} {s : StageId}

/-- An active instance is owned, so it is live. -/
theorem Owns.live_of_active (ho : σ.Owns) {i : InstId} (hi : σ.Active i) :
    i ∈ σ.kernel.live := by
  rcases hi with hi | hi | hi
  · exact ho.live .ready i (mem_filterMap.2 ⟨some i, hi, rfl⟩)
  · exact ho.live (.hands ()) i hi
  · exact ho.live .registered i hi

/-- A step that leaves every active instance of `s` active, unless the event queue of
`s` is now empty, and adds no event for `s`. -/
structure Calm (s : StageId) (σ σ' : System V) : Prop where
  stage : ∀ i ∈ σ.kernel.live, σ'.kernel.stageOf i = σ.kernel.stageOf i
  active : ∀ i, σ.Active i → σ.kernel.stageOf i = s →
    σ'.Active i ∨ (σ'.kernel.eventQueues s).items = []
  events : (σ.kernel.eventQueues s).items = [] → (σ'.kernel.eventQueues s).items = []

/-- Such a step keeps pending events in reach. -/
theorem InReach.of_calm (h : σ.InReach s) (hc : Calm s σ σ') (ho' : σ'.Owns) : σ'.InReach s := by
  intro hne
  obtain ⟨i, hi, hact⟩ := h fun he ↦ hne (hc.events he)
  obtain ⟨hl, hst⟩ := State.mem_liveOf.1 hi
  rcases hc.active i hact hst with hact' | he
  · exact ⟨i, State.mem_liveOf.2 ⟨ho'.live_of_active hact', (hc.stage i hl).trans hst⟩, hact'⟩
  · exact absurd he hne

/-- A stage is attended as before when the active instances are the same. -/
theorem attended_congr (ho : σ.Owns) (ho' : σ'.Owns)
    (hstage : ∀ i ∈ σ.kernel.live, σ'.kernel.stageOf i = σ.kernel.stageOf i)
    (hact : ∀ i, σ'.Active i ↔ σ.Active i) : σ'.Attended s ↔ σ.Attended s := by
  constructor
  · rintro ⟨i, hi, ha⟩
    have hl := ho.live_of_active ((hact i).1 ha)
    exact ⟨i, State.mem_liveOf.2 ⟨hl, (hstage i hl) ▸ (State.mem_liveOf.1 hi).2⟩, (hact i).1 ha⟩
  · rintro ⟨i, hi, ha⟩
    obtain ⟨hl, hst⟩ := State.mem_liveOf.1 hi
    have ha' := (hact i).2 ha
    exact ⟨i, State.mem_liveOf.2 ⟨ho'.live_of_active ha', (hstage i hl).trans hst⟩, ha'⟩

/-- The instances that are active stay so. -/
theorem active_deliver {dst : StageId} {c : Creation} {ok : Prop} {k : State V}
    {o : Option (List V)} (hd : Delivery σ.kernel dst c ok k o) {i : InstId} (hi : σ.Active i) :
    (σ.deliver dst k o).Active i := by
  cases hd with
  | queued p con _ haq hp =>
      obtain ⟨-, rfl⟩ := State.tryPushEvent_eq_some.1 hp
      have hu := untouched_of_aquire haq
      simp only [Active, ← hu.ready, ← hu.registered] at hi
      exact hi
  | notQueued haq | wasted f haq =>
      have hu := untouched_of_aquire haq
      simp only [Active, ← hu.ready, ← hu.registered] at hi
      exact hi
  | handed p con haq hf =>
      have hu := untouched_of_aquire haq
      simp only [Active, ← hu.ready, ← hu.registered] at hi
      exact hi.imp_left (mem_append_left _)

/-- **A send keeps events in reach** if it is safe: an event that is queued is queued for
a stage that is attended. -/
theorem send_inReach {dst : StageId} {c : Creation} {ok : Prop} {k : State V}
    {o : Option (List V)} (ho : σ.Owns) (ho' : (σ.deliver dst k o).Owns)
    (hd : Delivery σ.kernel dst c ok k o)
    (hsafe : dst = s → ok → σ.kernel.Denied s c →
      (σ.kernel.eventQueues s).full σ.kernel.fullTest = false → σ.Attended s)
    (h : σ.InReach s) : (σ.deliver dst k o).InReach s := by
  have hstage : ∀ i ∈ σ.kernel.live, (σ.deliver dst k o).kernel.stageOf i =
      σ.kernel.stageOf i := by
    have := hd.stage ho.accounted
    cases o <;> exact this
  have hact := fun i (hi : σ.Active i) ↦ active_deliver hd hi
  have hatt : σ.Attended s → (σ.deliver dst k o).Attended s := by
    rintro ⟨i, hi, ha⟩
    obtain ⟨hl, hst⟩ := State.mem_liveOf.1 hi
    exact ⟨i, State.mem_liveOf.2 ⟨ho'.live_of_active (hact i ha), (hstage i hl).trans hst⟩,
      hact i ha⟩
  -- no event is added for `s`, unless one is queued for it
  have hsame : ((σ.deliver dst k o).kernel.eventQueues s).items = (σ.kernel.eventQueues s).items →
      (σ.deliver dst k o).InReach s := fun he hne ↦ hatt (h (he ▸ hne))
  cases hd with
  | @queued k₁ _ e p con hok haq hp =>
      have hu := untouched_of_aquire haq
      obtain ⟨hroom, rfl⟩ := State.tryPushEvent_eq_some.1 hp
      by_cases hs : dst = s
      · subst hs
        rw [hu.events, hu.fullTest] at hroom
        exact fun _ ↦ hatt (hsafe rfl hok (denied_iff.2 (by rw [haq])) hroom)
      · refine hsame ?_
        change (Function.update k₁.eventQueues dst _ s).items = _
        rw [Function.update_of_ne (Ne.symm hs), hu.events]
  | notQueued haq | wasted f haq | handed p con haq hf =>
      exact hsame (congrArg (fun q ↦ (q s).items) (untouched_of_aquire haq).events)

/-- **A send that is denied an instance of an unattended stage strands its event.** -/
theorem send_breaks {c : Creation} {ok : Prop} {k : State V} {o : Option (List V)}
    (ho : σ.Owns) (ho' : (σ.deliver s k o).Owns) (hd : Delivery σ.kernel s c ok k o) (hok : ok)
    (hden : σ.kernel.Denied s c)
    (hroom : (σ.kernel.eventQueues s).full σ.kernel.fullTest = false) (hatt : ¬ σ.Attended s) :
    ¬ (σ.deliver s k o).InReach s := by
  have hnone := denied_iff.1 hden
  have hstage := hd.stage ho.accounted
  cases hd with
  | @queued k₁ _ _ p con _ haq hp =>
      have hu := untouched_of_aquire haq
      obtain ⟨-, rfl⟩ := State.tryPushEvent_eq_some.1 hp
      intro hr
      refine hatt ((attended_congr ho ho' hstage fun i ↦ ?_).1 (hr ?_))
      · simp only [Active, ← hu.ready, ← hu.registered]
        exact Iff.rfl
      · change (Function.update k₁.eventQueues s _ s).items ≠ []
        simp
  | notQueued haq h =>
      have hu := untouched_of_aquire haq
      rw [hu.events, hu.fullTest, hroom] at h
      rcases h with h | h
      · exact absurd hok h
      · cases h
  | handed p con haq hf | wasted f haq =>
      rw [haq] at hnone
      cases hnone

variable {k : State V} {i : InstId} {y : Yield U}

/-- A handler that leaves keeps events in reach, if this is safe. -/
theorem left_inReach (ho : σ.Owns)
    (ho' : ({ σ with kernel := k, running := σ.running.erase i } : System V).Owns)
    (hl : Left xf σ.kernel i y k) (hsafe : Safe xf s σ (.ret i y)) (h : σ.InReach s) :
    InReach s { σ with kernel := k, running := σ.running.erase i } := by
  have hlv := hl.leaves ho.accounted
  have hother : ∀ j, j ≠ i → σ.Active j →
      Active { σ with kernel := k, running := σ.running.erase i } j := by
    intro j hji hj
    rcases hj with hj | hj | hj
    · exact .inl (hlv.ready j hj)
    · exact .inr (.inl ((mem_erase_of_ne hji).2 hj))
    · obtain ⟨q, hq, rfl⟩ := mem_map.1 hj
      exact .inr (.inr (mem_map.2 ⟨q, hlv.registered q hq, rfl⟩))
  by_cases hgone : σ.kernel.stageOf i = s ∧ y.Loses xf
  · -- another instance of `s` takes over, unless there is no event
    intro hne
    rcases hsafe hgone.1 hgone.2 with he | ⟨j, hj, hji, hact⟩
    · exact absurd (hlv.events s he) hne
    · obtain ⟨hlj, hst⟩ := State.mem_liveOf.1 hj
      have hact' := hother j hji hact
      exact ⟨j, State.mem_liveOf.2 ⟨ho'.live_of_active hact', (hlv.stage j hlj).trans hst⟩, hact'⟩
  · refine h.of_calm ⟨hlv.stage, fun j hj hst ↦ ?_, hlv.events s⟩ ho'
    by_cases hji : j = i
    · subst hji
      rcases hlv.self with hr | hr | he | hy
      · exact .inl (.inl hr)
      · exact .inl (.inr (.inr hr))
      · exact .inr (hst ▸ he)
      · exact absurd ⟨hst, hy⟩ hgone
    · exact .inl (hother j hji hj)

/-- **A handler that leaves its instance to nobody strands the events of its stage** if no
other instance is active. -/
theorem left_breaks (ho : σ.Owns) (hi : i ∈ σ.running) (hl : Left xf σ.kernel i y k)
    (hviol : ¬ Safe xf s σ (.ret i y)) :
    ¬ InReach s { σ with kernel := k, running := σ.running.erase i } := by
  simp only [Safe, Classical.not_imp, not_or, not_exists, not_and] at hviol
  obtain ⟨hst, hy, hne, hnone⟩ := hviol
  obtain ⟨hr, hg, he⟩ := hl.loses hy
  have hlv := hl.leaves ho.accounted
  intro hin
  obtain ⟨j, hj, hact⟩ := hin (by change (k.eventQueues s).items ≠ []; rwa [he])
  -- the active instances are the others
  have hact₀ : j ≠ i ∧ σ.Active j := by
    rcases hact with ha | ha | ha
    · have ha : some j ∈ σ.kernel.readyQueue.items := hr ▸ ha
      have hm : j ∈ places σ.kernel (fun _ : Unit ↦ σ.running) .ready :=
        mem_filterMap.2 ⟨some j, ha, rfl⟩
      refine ⟨fun e ↦ ?_, .inl ha⟩
      have := ho.exclusive.place_unique (q := .hands ()) hm (e ▸ hi)
      simp at this
    · have hd : σ.running.Nodup := ho.exclusive.nodup (.hands ())
      exact ⟨fun e ↦ hd.not_mem_erase (e ▸ ha), .inr (.inl (mem_of_mem_erase ha))⟩
    · have ha : j ∈ σ.kernel.registered.map Prod.fst := hg ▸ ha
      have hm : j ∈ places σ.kernel (fun _ : Unit ↦ σ.running) .registered := ha
      refine ⟨fun e ↦ ?_, .inr (.inr ha)⟩
      have := ho.exclusive.place_unique (q := .hands ()) hm (e ▸ hi)
      simp at this
  have hlj := ho.live_of_active hact₀.2
  exact hnone j (State.mem_liveOf.2 ⟨hlj, (hlv.stage j hlj) ▸ (State.mem_liveOf.1 hj).2⟩) hact₀.1
    hact₀.2

/-- Calling a handler makes its instance active, and changes nothing else. -/
theorem active_call {j : InstId} : (σ.call i).Active j ↔ σ.Active j ∨ j = i := by
  obtain ⟨f, hf⟩ := σ.call_kernel i
  have hrun : (σ.call i).running = i :: σ.running := rfl
  simp only [Active, hf, hrun, State.readyQueue_modifyInst, State.registered_modifyInst, mem_cons]
  tauto

theorem calm_call (s : StageId) (σ : System V) (i : InstId) : Calm s σ (σ.call i) := by
  obtain ⟨f, hf⟩ := σ.call_kernel i
  refine ⟨fun j _ ↦ ?_, fun j hj _ ↦ .inl (active_call.2 (.inl hj)), fun he ↦ ?_⟩
  · rw [hf, State.stageOf_modifyInst]
  · rw [hf]
    exact he

/-- The thread of a caller passes to the callee of a cohort, and the caller is queued. -/
theorem pass_inReach {callee : InstId} {dst : StageId} {con : ConnectorId} {args : List U}
    {c : Creation} {σ₁ : System V} (ho : σ.Owns)
    (hk : σ₁.kernel = (σ.kernel.threadReturn xf i (.cohort dst con args c)).1)
    (hr : σ₁.running = σ.running.erase i)
    (h : (σ.kernel.threadReturn xf i (.cohort dst con args c)).2 = .resume callee)
    (ho' : (σ₁.call callee).Owns) (hin : σ.InReach s) : (σ₁.call callee).InReach s := by
  obtain ⟨k₁, e, haq, -, hk₁⟩ := threadReturn_pass h
  rw [hk₁] at hk
  have hu := untouched_of_aquire haq
  have ha : Accounted (σ.kernel.suspend i) := ho.accounted.modifyInst _
  have hcalm : Calm s σ σ₁ := by
    refine ⟨fun j hj ↦ ?_, fun j hj _ ↦ .inl ?_, fun he ↦ ?_⟩
    · have hst := hu.stageOf ha j hj
      rw [hk]
      simp only [State.suspend, State.stageOf_modifyInst] at hst
      simpa [State.stageOf, State.pushReadyQueue] using hst
    · simp only [Active, hk, hr]
      rcases hj with hj | hj | hj
      · exact .inl (mem_append_left _ (hu.ready ▸ hj))
      · by_cases hji : j = i
        · subst hji
          exact .inl (mem_append_right _ mem_cons_self)
        · exact .inr (.inl ((mem_erase_of_ne hji).2 hj))
      · exact .inr (.inr (hu.registered ▸ hj))
    · rw [hk]
      exact hu.events ▸ he
  have hcall := calm_call s σ₁ callee
  refine hin.of_calm
    ⟨fun j hj ↦ ?_, fun j hj hst ↦ ?_, fun he ↦ hcall.events (hcalm.events he)⟩ ho'
  · obtain ⟨f, hf⟩ := σ₁.call_kernel callee
    rw [hf, State.stageOf_modifyInst]
    exact hcalm.stage j hj
  · rcases hcalm.active j hj hst with ha | he
    · exact .inl (active_call.2 (.inl ha))
    · exact .inr (hcall.events he)

/-- Every safe step keeps events in reach. -/
theorem inReach_step {op : Op U V} (ho : σ.Owns) (hsafe : Safe xf s σ op) (hin : σ.InReach s)
    (hs : step xf σ op = some σ') : σ'.InReach s := by
  have ho' := owns_step ho hs
  cases step_cases hs with
  | emmit hloc hd =>
      exact send_inReach ho ho' hd (fun hdst ↦ hsafe hdst (hdst ▸ hloc)) hin
  | remote hloc h =>
      rcases h with rfl | rfl
      · exact hin
      · exact hin.of_calm ⟨fun _ _ ↦ rfl, fun _ hj _ ↦ .inl hj, id⟩ ho'
  | packed hd => exact send_inReach ho ho' hd (fun hdst _ ↦ hsafe hdst) hin
  | @dispatch i k h =>
      obtain ⟨q, hi, -, rfl⟩ := State.popReady_eq_some.1 h
      have hcall := calm_call s ({ σ with kernel := { σ.kernel with readyQueue := q } }) i
      refine hin.of_calm ⟨hcall.stage, fun j hj _ ↦ .inl (active_call.2 ?_), hcall.events⟩ ho'
      rcases hj with hj | hj | hj
      · rw [hi, mem_cons] at hj
        rcases hj with hj | hj
        · exact .inr (Option.some.inj hj)
        · exact .inl (.inl hj)
      · exact .inl (.inr (.inl hj))
      · exact .inl (.inr (.inr hj))
  | dispatchNull h =>
      obtain ⟨q, hi, -, rfl⟩ := State.popReady_eq_some.1 h
      refine hin.of_calm ⟨fun _ _ ↦ rfl, fun j hj _ ↦ .inl ?_, id⟩ ho'
      rcases hj with hj | hj | hj
      · rw [hi, mem_cons] at hj
        rcases hj with hj | hj
        · cases hj
        · exact .inl hj
      · exact .inr (.inl hj)
      · exact .inr (.inr hj)
  | ret hi h => exact left_inReach ho ho' (threadReturn_left _ h) hsafe hin
  | pass hi h => exact pass_inReach ho rfl rfl h ho' hin
  | @callback i c o k h =>
      unfold State.complete at h
      split at h
      · rename_i hm
        obtain rfl := Option.some.inj h
        refine hin.of_calm ⟨fun j _ ↦ ?_, fun j hj _ ↦ .inl ?_, id⟩ ho'
        · simp [State.stageOf, State.pushReadyQueue]
        · by_cases hji : j = i
          · subst hji
            exact .inl (mem_append_right _ mem_cons_self)
          · rcases hj with hj | hj | hj
            · exact .inl (mem_append_left _ hj)
            · exact .inr (.inl hj)
            · obtain ⟨q, hq, rfl⟩ := mem_map.1 hj
              refine .inr (.inr (mem_map.2 ⟨q, ?_, rfl⟩))
              exact (mem_erase_of_ne fun e ↦ hji (congrArg Prod.fst e)).2 hq
      · cases h
  | kill =>
      exact hin.of_calm ⟨fun _ _ ↦ rfl, fun j hj _ ↦ .inl (hj.imp_left (mem_append_left _)), id⟩
        ho'
  | @setMaxpar a b =>
      rcases σ.kernel.instanceSetMaxpar_cases a b with he | ⟨p, -, -, he⟩ <;>
        rw [he] at ho' ⊢ <;>
        exact hin.of_calm ⟨fun _ _ ↦ rfl, fun _ hj _ ↦ .inl hj, id⟩ ho'
  | @setCapacity i cap =>
      have hsame := same_ledaSetCapacity σ.kernel i cap
      have hev := (ledaSetCapacity_frame σ.kernel i cap).2.2.2 s
      refine hin.of_calm ⟨fun j _ ↦ hsame.stage j, fun j hj _ ↦ .inl ?_, fun he ↦ hev ▸ he⟩ ho'
      simpa only [Active, hsame.ready, hsame.registered] using hj

/-- Every unsafe step strands an event. -/
theorem breaks_step {op : Op U V} (ho : σ.Owns) (hviol : ¬ Safe xf s σ op)
    (hs : step xf σ op = some σ') : ¬ σ'.InReach s := by
  have ho' := owns_step ho hs
  cases step_cases hs with
  | emmit hloc hd =>
      simp only [Safe, Classical.not_imp] at hviol
      obtain ⟨rfl, -, hok, hden, hroom, hatt⟩ := hviol
      exact send_breaks ho ho' hd hok hden hroom hatt
  | remote hloc =>
      simp only [Safe, Classical.not_imp] at hviol
      obtain ⟨rfl, hloc', -⟩ := hviol
      rw [hloc] at hloc'
      cases hloc'
  | packed hd =>
      simp only [Safe, Classical.not_imp] at hviol
      obtain ⟨rfl, hden, hroom, hatt⟩ := hviol
      exact send_breaks ho ho' hd trivial hden hroom hatt
  | ret hi h => exact left_breaks ho hi (threadReturn_left _ h) hviol
  | pass hi h =>
      refine absurd (fun _ hy ↦ ?_) hviol
      rcases hy with hy | hy <;> cases hy
  | dispatch | dispatchNull | callback | kill | setMaxpar | setCapacity =>
      exact absurd trivial hviol

/-- **Pending events are in reach exactly as long as every step is safe.**  In a run of
whole operations from the start, events pending for `s` are in reach of an active
instance after every operation, iff no send that is denied an instance of `s` queues its
event while `s` is unattended, and no handler of `s` leaves its instance to nobody while
events are pending and no other instance of `s` is active. -/
theorem pending_in_reach_iff (xf : Transfer U V) (g : Graph) (ft : FullTest) (L pend : Int)
    (s : StageId) {tr : List (System V × Op U V)} {σ : System V}
    (h : Run (step xf) (init g ft L pend) tr σ) :
    (∀ x ∈ visited tr σ, x.InReach s) ↔ ∀ p ∈ tr, Safe xf s p.1 p.2 :=
  h.forall_visited_iff (I := fun σ ↦ σ.Owns ∧ σ.InReach s)
    ⟨owns_init g ft L pend, fun hne ↦ absurd rfl hne⟩
    (fun _ _ _ hI hC hs ↦ ⟨owns_step hI.1 hs, inReach_step hI.1 hC hI.2 hs⟩)
    (fun _ hI ↦ hI.2) (fun _ _ _ hI hC hs ↦ breaks_step hI.1 hC hs)

end Steps

/-- The second event is pending when the handler of the first one fails. -/
def failedHandler : List (Op Nat Nat) :=
  [.emmit 0 0 [1] .ok (.ok ()), .emmit 0 0 [2] .ok (.ok ()), .dispatch, .ret 0 .pcallError]

/-- **An accepted event is out of reach** after `failedHandler`: both sends returned
`true`, the handler of the only instance of the stage raised an error, and the second
event is pending without an instance. -/
theorem pending_out_of_reach :
    ¬ ∀ (xf : Transfer Nat Nat) (g : Graph) (ft : FullTest) (L pend : Int) (s : StageId)
      (tr : List (System Nat × Op Nat Nat)) (σ : System Nat),
      1 ≤ (State.instanceInit g ft L pend : State Nat).recycleQueueLimits s →
      Run (step xf) (init g ft L pend) tr σ → ∀ x ∈ visited tr σ, x.InReach s := by
  intro h
  obtain ⟨σ, hσ⟩ : ∃ σ, exec (step (.plain Nat)) (init (.single true) .exactly (-1) (-1))
      failedHandler = some σ := ⟨_, rfl⟩
  have hx := h _ _ _ _ _ 0 _ σ (by decide) (Run.of_exec hσ) σ (by simp [visited])
  obtain rfl := Option.some.inj hσ
  exact absurd hx (by decide)

/-- The handler ends instead. -/
def endedHandler : List (Op Nat Nat) :=
  [.emmit 0 0 [1] .ok (.ok ()), .emmit 0 0 [2] .ok (.ok ()), .dispatch, .ret 0 .ended]

/-- `pending_in_reach_iff` at `endedHandler`, whose steps are all safe. -/
theorem pending_in_reach_endedHandler :
    ∃ σ : System Nat, exec (step (.plain Nat)) (init (.single true) .exactly (-1) (-1))
      endedHandler = some σ ∧ (∀ p ∈ execTrace (step (.plain Nat))
        (init (.single true) .exactly (-1) (-1)) endedHandler, Safe (.plain Nat) 0 p.1 p.2) := by
  obtain ⟨σ, hσ⟩ : ∃ σ, exec (step (.plain Nat)) (init (.single true) .exactly (-1) (-1))
      endedHandler = some σ := ⟨_, rfl⟩
  refine ⟨σ, hσ, (pending_in_reach_iff (.plain Nat) _ _ _ _ 0 (Run.of_exec hσ)).1 ?_⟩
  obtain rfl := Option.some.inj hσ
  decide

end System

end Leda.Kernel
