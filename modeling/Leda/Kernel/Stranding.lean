import Leda.Kernel.Limits
import Leda.Kernel.OneOwner
import Mathlib.Data.Fintype.Basic

/-!
# Stranded events

A pending event is reached only by `instance_release`, which takes one event after each
handler that ends.  An event is therefore safe as long as its stage is `Covered`: some
instance of the stage will still go through `instance_release` and has not yet looked
at the event queue — it is queued, registered, or in the hands of a thread — or a
thread is about to create one.

No step takes the cover away from a stage with pending events: the only one that could,
the `TRY_POP` of `instance_release`, does so when it has seen the queue empty.  What
remains is the step that adds an event.  `emmit` decides to queue after it found no
instance to acquire, and by the time it pushes, the instance it was counting on may be
past its `TRY_POP` or idle.  `no_stranding` says that nothing else can go wrong, and
`stranded` is a run in which this does.
-/

universe u v

namespace Leda.Kernel

open Leda.Lib List

variable {U V : Type u} {T : Type v}

/-- The instances of a frame that will still look at the event queue of their stage. -/
def Frame.active : Frame U V → List InstId
  | .handler i | .pushReady i | .popEvent i => [i]
  | .aquire _ p | .readCount _ p | .readLimit _ _ p | .add _ p | .abandon _ _ p => p.owned
  | .chunk _ i p => i :: p.owned
  | .pushCaller caller callee _ => [caller, callee]
  | .pushEvent .. | .recycle _ | .destroy _ => []

/-- The frame is about to create an instance of `s`. -/
def Frame.creates (s : StageId) : Frame U V → Bool
  | .add s' _ => s' = s
  | _ => false

/-- Some instance of `s` will still look at the event queue of `s`. -/
def Covered (s : StageId) (σ : Machine T U V) : Prop :=
  (∃ i ∈ σ.kernel.readyQueue.items.filterMap id, σ.kernel.stageOf i = s) ∨
  (∃ q ∈ σ.kernel.registered, σ.kernel.stageOf q.1 = s) ∨
  ∃ t, ∃ f ∈ σ.stack t, f.creates s = true ∨ ∃ i ∈ f.active, σ.kernel.stageOf i = s

/-- The stage a step pushes an event for. -/
def Machine.pushes (σ : Machine T U V) (l : T × Act U V) : Option StageId :=
  match l.2, σ.stack l.1 with
  | .run, .pushEvent s _ _ :: _ => some s
  | _, _ => none

/-- A step that pushes an event for `s` makes its push while `s` is covered. -/
def PushesCovered (s : StageId) (σ : Machine T U V) (l : T × Act U V) : Prop :=
  σ.pushes l = some s → Covered s σ

/-- The instance that a step of `emmit` was granted, and the arguments it copies there. -/
def Machine.copies (σ : Machine T U V) (l : T × Act U V) : Option (InstId × List U) :=
  match l.2, σ.stack l.1 with
  | .run, .aquire s (.emmit _ args) :: _ =>
      if σ.kernel.graph.Beyond s then none
      else (σ.kernel.tryPopRecycle s).map fun p ↦ (p.1, args)
  | .chunkEnds .ok, .chunk _ i (.emmit _ args) :: _ => some (i, args)
  | _, _ => none

/-- A step that copies arguments into an instance of `s` copies them without an error. -/
def CopiesWell (xf : Transfer U V) (s : StageId) (σ : Machine T U V) (l : T × Act U V) : Prop :=
  ∀ i args, σ.copies l = some (i, args) → σ.kernel.stageOf i = s → ∀ m, xf.copy args ≠ .raised m

instance [Fintype T] (s : StageId) (σ : Machine T U V) : Decidable (Covered s σ) :=
  inferInstanceAs (Decidable (_ ∨ _ ∨ _))

instance [Fintype T] (s : StageId) (σ : Machine T U V) (l : T × Act U V) :
    Decidable (PushesCovered s σ l) := inferInstanceAs (Decidable (_ → _))

/-- Neither a handler nor a chunk fails, and the system calls made for a yielding
handler succeed. -/
def Act.clean : Act U V → Bool
  | .chunkEnds c => c = .ok
  | .ret y => match y with
    | .pcallError | .destroy | .unknown => false
    | .remote _ written => written
    | .waitIo _ _ armed => armed
    | .fileIo _ _ _ submitted => submitted
    | _ => true
  | _ => true

/-- User code, not a call of the kernel. -/
def Frame.isHandler : Frame U V → Bool
  | .handler _ => true
  | _ => false

/-- No call of the kernel is in progress: at most handlers run. -/
def Machine.Quiescent (σ : Machine T U V) : Prop := ∀ t, ∀ f ∈ σ.stack t, f.isHandler = true

instance [Fintype T] (σ : Machine T U V) : Decidable σ.Quiescent :=
  inferInstanceAs (Decidable (∀ _, _))

/-- `i` is queued, registered or held by the frames, and will still look at the event
queue of its stage. -/
def Around (k : State V) (fs : List (Frame U V)) (i : InstId) : Prop :=
  some i ∈ k.readyQueue.items ∨ i ∈ k.registered.map Prod.fst ∨ i ∈ fs.flatMap Frame.active

/-- What a clean step keeps: the stages of the live instances; every instance of `s` around,
unless it found the event queue of its stage empty; every creation under way; and every
empty event queue, unless the step pushes to it. -/
structure Keeps (s : StageId) (k k' : State V) (fs fs' : List (Frame U V)) : Prop where
  stage : ∀ i ∈ k.live, k'.stageOf i = k.stageOf i
  around : ∀ i, k.stageOf i = s → Around k fs i →
    Around k' fs' i ∨ (k'.eventQueues (k.stageOf i)).items = []
  creates : ∀ s, (∃ f ∈ fs, f.creates s = true) → (∃ f ∈ fs', f.creates s = true) ∨
    ∃ i, Around k' fs' i ∧ k'.stageOf i = s
  events : ∀ s, (k.eventQueues s).items = [] → (k'.eventQueues s).items = [] ∨
    ∃ e con rest, fs = .pushEvent s e con :: rest

section Steps

variable {xf : Transfer U V} {k k' : State V} {i : InstId} {s₀ s : StageId} {p : Purpose U V}
  {new fs : List (Frame U V)} {f : Frame U V}

/-- What is around stays around when more frames are. -/
theorem Around.append_right (h : Around k new i) (fs : List (Frame U V)) :
    Around k (new ++ fs) i :=
  h.imp_right <| Or.imp_right fun hi ↦ by
    rw [flatMap_append]
    exact mem_append_left _ hi

/-- A part of a step that replaces the frame `f` by frames that leave all its active
instances around, and takes nothing from the shared places. -/
theorem Keeps.of_subset (hready : ∀ i, some i ∈ k.readyQueue.items → some i ∈ k'.readyQueue.items)
    (hreg : ∀ q ∈ k.registered, q ∈ k'.registered)
    (hstage : ∀ i ∈ k.live, k'.stageOf i = k.stageOf i)
    (ha : ∀ i ∈ f.active, Around k' new i)
    (hc : ∀ s, f.creates s = true → ∃ g ∈ new, g.creates s = true)
    (he : ∀ s, (k.eventQueues s).items = [] → (k'.eventQueues s).items = [] ∨
      ∃ e con rest, f :: fs = .pushEvent s e con :: rest) :
    Keeps s₀ k k' (f :: fs) (new ++ fs) where
  stage := hstage
  around i _ hi := by
    left
    rcases hi with hi | hi | hi
    · exact .inl (hready i hi)
    · obtain ⟨q, hq, rfl⟩ := mem_map.1 hi
      exact .inr (.inl (mem_map.2 ⟨q, hreg q hq, rfl⟩))
    · rw [flatMap_cons, mem_append] at hi
      rcases hi with hi | hi
      · exact (ha i hi).append_right fs
      · refine .inr (.inr ?_)
        rw [flatMap_append]
        exact mem_append_right _ hi
  creates s := by
    rintro ⟨g, hg, hcg⟩
    rcases mem_cons.1 hg with rfl | hg
    · obtain ⟨g', hg', hcg'⟩ := hc s hcg
      exact .inl ⟨g', mem_append_left _ hg', hcg'⟩
    · exact .inl ⟨g, mem_append_right _ hg, hcg⟩
  events := he

/-- The callers of `instance_aquire` keep the instance they were granted. -/
theorem granted_keeps (hg : granted xf k i p = some (k', new))
    (hcopy : ∀ con args, p = .emmit con args → k.stageOf i = s₀ → ∀ m, xf.copy args ≠ .raised m)
    (ha : ∀ j ∈ f.active, j ∈ i :: p.owned)
    (hc : ∀ s, f.creates s = false) : Keeps s₀ k k' (f :: fs) (new ++ fs) := by
  have hcr : ∀ s, f.creates s = true → ∃ g ∈ new, g.creates s = true := fun s h ↦ by
    rw [hc s] at h
    cases h
  cases p with
  | emmit con args =>
      simp only [granted] at hg
      split at hg
      · simp only [Option.some.injEq, Prod.mk.injEq] at hg
        obtain ⟨rfl, rfl⟩ := hg
        refine .of_subset (fun _ h ↦ h) (fun _ h ↦ h) (fun _ _ ↦ ?_)
          (fun j hj ↦ .inr (.inr ?_)) hcr fun _ h ↦ .inl h
        · simp [State.stageOf]
        · simpa [Frame.active, Purpose.owned] using ha j hj
      · -- the instance is lost, but it is one of another stage
        have hi : k.stageOf i ≠ s₀ := fun hi ↦ hcopy _ _ rfl hi _ ‹_›
        simp only [Option.some.injEq, Prod.mk.injEq] at hg
        obtain ⟨rfl, rfl⟩ := hg
        refine ⟨fun _ _ ↦ State.stageOf_modifyInst, fun j hst hj ↦ .inl ?_, ?_, fun _ h ↦ .inl h⟩
        · rcases hj with hj | hj | hj
          · exact .inl hj
          · exact .inr (.inl hj)
          · rw [flatMap_cons, mem_append] at hj
            rcases hj with hj | hj
            · obtain rfl := mem_singleton.1 (ha j hj)
              exact absurd hst hi
            · exact .inr (.inr hj)
        · rintro s ⟨g, hg, hcg⟩
          rcases mem_cons.1 hg with rfl | hg
          · rw [hc s] at hcg
            cases hcg
          · exact .inl ⟨g, hg, hcg⟩
      · cases hg
  | packed e =>
      simp only [granted, Option.some.injEq, Prod.mk.injEq] at hg
      obtain ⟨rfl, rfl⟩ := hg
      refine .of_subset (fun _ h ↦ h) (fun _ h ↦ h) (fun _ _ ↦ State.stageOf_modifyInst)
        (fun j hj ↦ .inr (.inr ?_)) hcr fun _ h ↦ .inl h
      simpa [Frame.active, Purpose.owned] using ha j hj
  | cohort caller con args =>
      simp only [granted] at hg
      split at hg <;> simp only [Option.some.injEq, Prod.mk.injEq, reduceCtorEq] at hg
      obtain ⟨rfl, rfl⟩ := hg
      refine .of_subset (fun _ h ↦ h) (fun _ h ↦ h) (fun _ _ ↦ ?_)
        (fun j hj ↦ .inr (.inr ?_)) hcr fun _ h ↦ .inl h
      · simp
      · have := ha j hj
        simp only [Purpose.owned, mem_cons, not_mem_nil, or_false] at this
        simpa [Frame.active] using this.symm

/-- The callers of `instance_aquire` keep what they hold when they are refused. -/
theorem refused_keeps (hr : refused xf k s p = some (k', new)) (ha : ∀ j ∈ f.active, j ∈ p.owned)
    (hc : ∀ s, f.creates s = false) : Keeps s₀ k k' (f :: fs) (new ++ fs) := by
  have hcr : ∀ s, f.creates s = true → ∃ g ∈ new, g.creates s = true := fun s h ↦ by
    rw [hc s] at h
    cases h
  cases p with
  | emmit con args =>
      simp only [refused] at hr
      split at hr <;> simp only [Option.some.injEq, Prod.mk.injEq, reduceCtorEq] at hr <;>
        obtain ⟨rfl, rfl⟩ := hr
      all_goals
        exact .of_subset (fun _ h ↦ h) (fun _ h ↦ h) (fun _ _ ↦ rfl)
          (fun j hj ↦ absurd (ha j hj) (not_mem_nil)) hcr fun _ h ↦ .inl h
  | packed e =>
      simp only [refused, Option.some.injEq, Prod.mk.injEq] at hr
      obtain ⟨rfl, rfl⟩ := hr
      exact .of_subset (fun _ h ↦ h) (fun _ h ↦ h) (fun _ _ ↦ rfl)
        (fun j hj ↦ absurd (ha j hj) (not_mem_nil)) hcr fun _ h ↦ .inl h
  | cohort caller con args =>
      simp only [refused, Option.some.injEq, Prod.mk.injEq] at hr
      obtain ⟨rfl, rfl⟩ := hr
      refine .of_subset (fun _ h ↦ h) (fun _ h ↦ h) (fun _ _ ↦ State.stageOf_modifyInst)
        (fun j hj ↦ .inr (.inr ?_)) hcr fun _ h ↦ .inl h
      simpa [Frame.active, Purpose.owned] using ha j hj

/-- Being refused changes no stage. -/
theorem refused_stage (hr : refused xf k s p = some (k', new)) (j : InstId) :
    k'.stageOf j = k.stageOf j := by
  cases p <;> simp only [refused] at hr
  case emmit =>
    split at hr <;> simp only [Option.some.injEq, Prod.mk.injEq, reduceCtorEq] at hr
    all_goals obtain ⟨rfl, rfl⟩ := hr; rfl
  case packed =>
    simp only [Option.some.injEq, Prod.mk.injEq] at hr
    obtain ⟨rfl, rfl⟩ := hr
    rfl
  case cohort =>
    simp only [Option.some.injEq, Prod.mk.injEq] at hr
    obtain ⟨rfl, rfl⟩ := hr
    exact State.stageOf_modifyInst

/-- An instance that yielded without failing is queued or registered. -/
theorem settled_keeps {φ : Fate V} (hs : settled k i φ = some (k', new)) (hφ : φ ≠ .lost) :
    Keeps s₀ k k' (.handler i :: fs) (new ++ fs) := by
  have hcr : ∀ s, (Frame.handler i : Frame U V).creates s = true →
      ∃ g ∈ new, g.creates s = true := fun s h ↦ by cases h
  cases φ with
  | resume vals =>
      simp only [settled, Option.some.injEq, Prod.mk.injEq] at hs
      obtain ⟨rfl, rfl⟩ := hs
      exact .of_subset (fun _ h ↦ h) (fun _ h ↦ h) (fun _ _ ↦ State.stageOf_modifyInst)
        (fun j hj ↦ .inr (.inr (by simpa [Frame.active] using hj))) hcr fun _ h ↦ .inl h
  | register c =>
      simp only [settled, Option.some.injEq, Prod.mk.injEq] at hs
      obtain ⟨rfl, rfl⟩ := hs
      refine .of_subset (fun _ h ↦ h) (fun _ h ↦ mem_append_left _ h) (fun _ _ ↦ rfl)
        (fun j hj ↦ .inr (.inl ?_)) hcr fun _ h ↦ .inl h
      obtain rfl := mem_singleton.1 hj
      simp
  | lost => exact absurd rfl hφ
  | panic m => simp [settled] at hs
  | crash => simp [settled] at hs

/-- What a clean yield decides is not to lose the instance. -/
theorem eventWaitIo_ne_lost (fd mode : Option Int) :
    (State.eventWaitIo fd mode true : Fate V) ≠ .lost := by
  unfold State.eventWaitIo
  split
  · split <;> simp [State.refuse]
  · simp [State.refuse]

theorem eventDoFileAio_ne_lost (file : Bool) (mode : Option Int) (arg : Bool) :
    (State.eventDoFileAio file mode arg true : Fate V) ≠ .lost := by
  unfold State.eventDoFileAio
  split
  · simp
  · split
    · simp [State.refuse]
    · split
      · split <;> simp [State.refuse]
      · simp [State.refuse]

theorem eventSleep_ne_lost (timer : Timer) (armed : Bool) :
    (State.eventSleep timer armed : Fate V) ≠ .lost := by
  unfold State.eventSleep
  split
  · simp [State.refuse]
  · simp [State.refuse]
  · split <;> simp [State.refuse]

theorem emmitRemote_ne_lost (args : List U) : State.emmitRemote xf args true ≠ .lost := by
  unfold State.emmitRemote
  split <;> simp

/-- An instance whose handler left cleanly stays around. -/
theorem returned_keeps {y : Yield U} (hy : (Act.ret y : Act U V).clean = true)
    (hr : returned xf k i y = some (k', new)) : Keeps s₀ k k' (.handler i :: fs) (new ++ fs) := by
  have hst : ∀ j, (k.modifyInst i fun d ↦ { d with suspended := y.inside }).stageOf j =
      k.stageOf j := fun j ↦ State.stageOf_modifyInst
  -- the kernel the fate is decided on differs from `k` in a Lua state only
  have hsettled : ∀ φ : Fate V, φ ≠ .lost →
      settled (k.modifyInst i fun d ↦ { d with suspended := y.inside }) i φ = some (k', new) →
      Keeps s₀ k k' (.handler i :: fs) (new ++ fs) := by
    intro φ hφ hs
    have h : Keeps s₀ (k.modifyInst i fun d ↦ { d with suspended := y.inside }) k'
        (.handler i :: fs) (new ++ fs) := settled_keeps hs hφ
    exact ⟨fun j hj ↦ (h.stage j hj).trans (hst j),
      fun j hj ha ↦ (h.around j ((hst j).trans hj) ha).imp_right fun he ↦ by rwa [hst] at he,
      h.creates, h.events⟩
  have hcr : ∀ s, (Frame.handler i : Frame U V).creates s = true →
      ∃ g ∈ new, g.creates s = true := fun s h ↦ by cases h
  cases y with
  | pcallError | destroy | unknown => cases hy
  | ended =>
      simp only [returned, Option.some.injEq, Prod.mk.injEq] at hr
      obtain ⟨rfl, rfl⟩ := hr
      exact .of_subset (fun _ h ↦ h) (fun _ h ↦ h) (fun _ _ ↦ by simp)
        (fun j hj ↦ .inr (.inr (by simpa [Frame.active] using hj))) hcr fun _ h ↦ .inl h
  | cohort dst con args c =>
      simp only [returned, Option.some.injEq, Prod.mk.injEq] at hr
      obtain ⟨rfl, rfl⟩ := hr
      exact .of_subset (fun _ h ↦ h) (fun _ h ↦ h) (fun _ _ ↦ State.stageOf_modifyInst)
        (fun j hj ↦ .inr (.inr (by simpa [Frame.active, Purpose.owned] using hj))) hcr
        fun _ h ↦ .inl h
  | nice =>
      simp only [returned] at hr
      exact hsettled _ (by simp [State.emmitSelf]) hr
  | remote args written =>
      simp only [Act.clean] at hy
      subst hy
      simp only [returned] at hr
      exact hsettled _ (emmitRemote_ne_lost args) hr
  | waitIo fd mode armed =>
      simp only [Act.clean] at hy
      subst hy
      simp only [returned] at hr
      exact hsettled _ (eventWaitIo_ne_lost fd mode) hr
  | fileIo file mode arg submitted =>
      simp only [Act.clean] at hy
      subst hy
      simp only [returned] at hr
      exact hsettled _ (eventDoFileAio_ne_lost file mode arg) hr
  | sleep timer armed =>
      simp only [returned] at hr
      exact hsettled _ (eventSleep_ne_lost timer armed) hr

/-- **Each access keeps the cover**, or has seen the event queue empty. -/
theorem frameStep_keeps
    (hcopy : ∀ s con args q, f = .aquire s (.emmit con args) → ¬ k.graph.Beyond s →
      k.tryPopRecycle s = some q → k.stageOf q.1 = s₀ → ∀ m, xf.copy args ≠ .raised m)
    (hfresh : k.nextInst ∉ k.live) (hf : frameStep xf k f = some (k', new)) :
    Keeps s₀ k k' (f :: fs) (new ++ fs) := by
  cases frameStep_cases hf with
  | beyond _ hr | atLimit _ hr => exact refused_keeps hr (fun _ h ↦ h) fun _ ↦ rfl
  | @recycled s p i _ _ _ hs hp hg =>
      obtain ⟨q, -, -, rfl⟩ := State.tryPopRecycle_eq_some.1 hp
      have hgood : ∀ con args, p = .emmit con args → k.stageOf i = s₀ →
          ∀ m, xf.copy args ≠ .raised m := fun con args he ↦
        hcopy s con args _ (by rw [he]) hs hp
      have h : Keeps s₀ _ k' (.aquire s p :: fs) (new ++ fs) :=
        granted_keeps hg hgood (fun _ h ↦ mem_cons_of_mem _ h) fun _ ↦ rfl
      exact ⟨h.stage, h.around, h.creates, h.events⟩
  | noRecycled | readCount | belowLimit =>
      exact .of_subset (fun _ h ↦ h) (fun _ h ↦ h) (fun _ _ ↦ rfl)
        (fun j hj ↦ .inr (.inr (by simpa [Frame.active] using hj))) (fun s h ↦ by cases h)
        fun _ h ↦ .inl h
  | @add s p =>
      refine ⟨fun i hi ↦ State.stageOf_newInstance_of_ne fun e ↦ hfresh (e ▸ hi),
        fun i _ hi ↦ .inl ?_, ?_, fun s h ↦ .inl h⟩
      · rcases hi with hi | hi | hi
        · exact .inl hi
        · exact .inr (.inl hi)
        · refine .inr (.inr ?_)
          simp only [flatMap_cons, Frame.active, cons_append, nil_append] at hi ⊢
          exact mem_cons_of_mem _ hi
      · rintro s' ⟨g, hg, hc⟩
        rcases mem_cons.1 hg with rfl | hg
        · -- the instance under way is the one created
          obtain rfl : s = s' := of_decide_eq_true hc
          refine .inr ⟨k.nextInst, .inr (.inr ?_), State.stageOf_newInstance_self⟩
          simp [Frame.active]
        · exact .inl ⟨g, mem_append_right _ hg, hc⟩
  | @abandon s i p _ _ hr =>
      have h : Keeps s₀ (k.instanceDestroy i) k' (.abandon s i p :: fs) (new ++ fs) :=
        refused_keeps hr (fun _ h ↦ h) fun _ ↦ rfl
      exact ⟨fun j hj ↦ (refused_stage hr j).trans rfl, h.around, h.creates, h.events⟩
  | eventsFull | recycleFull | destroy =>
      exact .of_subset (fun _ h ↦ h) (fun _ h ↦ h) (fun _ _ ↦ rfl)
        (fun j hj ↦ absurd hj not_mem_nil) (fun s h ↦ by cases h) fun _ h ↦ .inl h
  | @pushEvent s e con _ hp =>
      obtain ⟨-, rfl⟩ := State.tryPushEvent_eq_some.1 hp
      refine .of_subset (fun _ h ↦ h) (fun _ h ↦ h) (fun _ _ ↦ rfl)
        (fun j hj ↦ absurd hj not_mem_nil) (fun s h ↦ by cases h) fun s' h ↦ ?_
      by_cases hs : s' = s
      · subst hs
        exact .inr ⟨e, con, fs, rfl⟩
      · exact .inl (by simpa [hs] using h)
  | pushReady =>
      refine .of_subset (fun _ h ↦ mem_append_left _ h) (fun _ h ↦ h) (fun _ _ ↦ rfl)
        (fun j hj ↦ .inl ?_) (fun s h ↦ by cases h) fun _ h ↦ .inl h
      obtain rfl := mem_singleton.1 hj
      simp [State.pushReadyQueue]
  | @pushCaller caller callee con =>
      obtain ⟨g, hg⟩ := ((k.pushReadyQueue caller).statsUpdateEvents
        (k.stageOf caller) con).resumeInstance_eq callee
      rw [hg]
      refine .of_subset (fun _ h ↦ mem_append_left _ h) (fun _ h ↦ h)
        (fun _ _ ↦ State.stageOf_modifyInst) (fun j hj ↦ ?_) (fun s h ↦ by cases h)
        fun _ h ↦ .inl h
      rcases mem_cons.1 hj with rfl | hj
      · exact .inl (by simp [State.pushReadyQueue])
      · exact .inr (.inr (by simpa [Frame.active] using hj))
  | @popEvent i e k₁ hp =>
      obtain ⟨q, hq, -, rfl⟩ := State.tryPopEvent_eq_some.1 hp
      refine .of_subset (fun _ h ↦ h) (fun _ h ↦ h) (fun _ _ ↦ by simp [State.stageOf])
        (fun j hj ↦ .inr (.inr (by simpa [Frame.active] using hj))) (fun s h ↦ by cases h)
        fun s h ↦ .inl ?_
      have hs : s ≠ k.stageOf i := by
        rintro rfl
        rw [hq] at h
        cases h
      simpa [hs] using h
  | @noEvent i hp =>
      have hempty := State.tryPopEvent_eq_none.1 hp
      refine ⟨fun _ _ ↦ rfl, fun j _ hj ↦ ?_, ?_, fun _ h ↦ .inl h⟩
      · rcases hj with hj | hj | hj
        · exact .inl (.inl hj)
        · exact .inl (.inr (.inl hj))
        · rw [flatMap_cons, mem_append] at hj
          rcases hj with hj | hj
          · -- the instance itself has seen the queue empty
            obtain rfl := mem_singleton.1 hj
            exact .inr hempty
          · exact .inl (.inr (.inr (by simpa [Frame.active] using hj)))
      · rintro s ⟨g, hg, hc⟩
        rcases mem_cons.1 hg with rfl | hg
        · cases hc
        · exact .inl ⟨g, mem_append_right _ hg, hc⟩
  | recycle hp =>
      obtain ⟨-, rfl⟩ := State.tryPushRecycle_eq_some.1 hp
      exact .of_subset (fun _ h ↦ h) (fun _ h ↦ h) (fun _ _ ↦ rfl)
        (fun j hj ↦ absurd hj not_mem_nil) (fun s h ↦ by cases h) fun _ h ↦ .inl h

/-- **Each clean step of a thread keeps the cover.** -/
theorem threadStep_keeps {fs' : List (Frame U V)} {a : Act U V}
    (hcopy : CopiesWell xf s₀ ⟨k, fun _ : Unit ↦ fs⟩ ((), a)) (hfresh : k.nextInst ∉ k.live)
    (ha : a.clean = true) (hs : threadStep xf k fs a = some (k', fs')) :
    Keeps s₀ k k' fs fs' := by
  cases threadStep_cases hs with
  | @wait i k₁ hp =>
      obtain ⟨q, hq, -, rfl⟩ := State.popReady_eq_some.1 hp
      obtain ⟨g, hg⟩ := State.resumeInstance_eq { k with readyQueue := q } i
      rw [hg]
      refine ⟨fun _ _ ↦ State.stageOf_modifyInst, fun j _ hj ↦ .inl ?_, fun s ⟨g, hg, _⟩ ↦
        absurd hg not_mem_nil, fun _ h ↦ .inl h⟩
      rcases hj with hj | hj | hj
      · rw [hq] at hj
        rcases mem_cons.1 hj with hj | hj
        · obtain rfl := Option.some.inj hj
          exact .inr (.inr (by simp [Frame.active]))
        · exact .inl hj
      · exact .inr (.inl hj)
      · exact absurd hj not_mem_nil
  | waitNull hp =>
      obtain ⟨q, hq, -, rfl⟩ := State.popReady_eq_some.1 hp
      refine ⟨fun _ _ ↦ rfl, fun j _ hj ↦ .inl ?_, fun s ⟨g, hg, _⟩ ↦ absurd hg not_mem_nil,
        fun _ h ↦ .inl h⟩
      rcases hj with hj | hj | hj
      · rw [hq] at hj
        exact .inl ((mem_cons.1 hj).resolve_left (by simp))
      · exact .inr (.inl hj)
      · exact absurd hj not_mem_nil
  | emmit hm =>
      refine ⟨fun _ _ ↦ rfl, fun j _ hj ↦ .inl (hj.imp_right (Or.imp_right fun h ↦ ?_)),
        fun s ⟨g, hg, hc⟩ ↦ .inl ⟨g, mem_cons_of_mem _ hg, hc⟩, fun _ h ↦ .inl h⟩
      simpa [Frame.active, Purpose.owned] using h
  | remote => exact ⟨fun _ _ ↦ rfl, fun _ _ h ↦ .inl h, fun _ h ↦ .inl h, fun _ h ↦ .inl h⟩
  | packed =>
      refine ⟨fun _ _ ↦ rfl, fun j _ hj ↦ .inl (hj.imp_right (Or.imp_right fun h ↦ ?_)),
        fun s ⟨g, hg, _⟩ ↦ absurd hg not_mem_nil, fun _ h ↦ .inl h⟩
      exact absurd h not_mem_nil
  | kill =>
      exact ⟨fun _ _ ↦ rfl, fun _ _ h ↦ .inl (h.imp_left (mem_append_left _)), fun _ h ↦ .inl h,
        fun _ h ↦ .inl h⟩
  | @callback i c o hm =>
      refine ⟨fun _ _ ↦ by simp [State.stageOf], fun j _ hj ↦ .inl ?_, fun s ⟨g, hg, _⟩ ↦
        absurd hg not_mem_nil, fun _ h ↦ .inl h⟩
      rcases hj with hj | hj | hj
      · exact .inl hj
      · obtain ⟨q, hq, rfl⟩ := mem_map.1 hj
        by_cases hqi : q = (i, c)
        · subst hqi
          exact .inr (.inr (by simp [Frame.active]))
        · exact .inr (.inl (mem_map.2 ⟨q, (mem_erase_of_ne hqi).2 hq, rfl⟩))
      · exact absurd hj not_mem_nil
  | ret hr => exact returned_keeps ha hr
  | @chunkOk s i p fs new k' hg =>
      refine granted_keeps hg (fun con args he ↦ ?_) (fun _ h ↦ h) fun _ ↦ rfl
      subst he
      exact hcopy i args rfl
  | initFails => cases ha
  | loadFails hr => cases ha
  | run hf =>
      refine frameStep_keeps (fun s con args q he hb hp ↦ ?_) hfresh hf
      subst he
      refine hcopy q.1 args ?_
      simp only [Machine.copies]
      rw [if_neg hb, hp]
      rfl

end Steps

/-! ## Whole runs -/

section Runs

variable {xf : Transfer U V} {σ σ' : Machine T U V} {s : StageId}

/-- What is around for one thread covers its stage. -/
theorem Around.covered {t : T} {i : InstId} (h : Around σ.kernel (σ.stack t) i)
    (hs : σ.kernel.stageOf i = s) : Covered s σ := by
  rcases h with h | h | h
  · exact .inl ⟨i, mem_filterMap.2 ⟨_, h, rfl⟩, hs⟩
  · obtain ⟨q, hq, rfl⟩ := mem_map.1 h
    exact .inr (.inl ⟨q, hq, hs⟩)
  · obtain ⟨f, hf, hi⟩ := mem_flatMap.1 h
    exact .inr (.inr ⟨t, f, hf, .inr ⟨i, hi, hs⟩⟩)

/-- The active instances of a frame are in the hands of its thread. -/
theorem Frame.active_subset_owned (f : Frame U V) : ∀ i ∈ f.active, i ∈ f.owned := by
  intro i hi
  cases f with
  | abandon s j p => exact mem_cons_of_mem _ hi
  | _ => first | exact hi | exact absurd hi not_mem_nil

/-- Whoever owns the instances, no stage with pending events is uncovered. -/
structure Unstranded (s : StageId) (σ : Machine T U V) : Prop where
  owned : Owned σ.kernel σ.hands
  covered : (σ.kernel.eventQueues s).items ≠ [] → Covered s σ

variable [DecidableEq T]

/-- **A clean step whose push is covered strands nothing.** -/
theorem Unstranded.step {l : T × Act U V} (h : Unstranded s σ) (hcopy : CopiesWell xf s σ l)
    (hclean : l.2.clean = true) (hpush : PushesCovered s σ l)
    (hs : Machine.step xf σ l = some σ') : Unstranded s σ' := by
  refine ⟨Machine.owned_step h.owned hs, fun hne ↦ ?_⟩
  obtain ⟨k, fs, hstep, rfl⟩ := Machine.step_eq_some.1 hs
  have hk : Keeps s σ.kernel k (σ.stack l.1) fs :=
    threadStep_keeps hcopy h.owned.accounted.nextInst_notMem hclean hstep
  have hlive : ∀ p, ∀ i ∈ places σ.kernel σ.hands p, k.stageOf i = σ.kernel.stageOf i :=
    fun p i hi ↦ hk.stage i (h.owned.live p i hi)
  -- the stage was covered before the step
  have hcov : Covered s σ := by
    by_cases hempty : (σ.kernel.eventQueues s).items = []
    · rcases hk.events s hempty with he | ⟨e, con, rest, hst⟩
      · exact absurd he hne
      · exact hpush (by simp only [Machine.pushes, run_of_pushEvent (hst ▸ hstep), hst])
    · exact h.covered hempty
  -- an instance that is around for the thread stays, unless the queue is now empty
  have hstay : ∀ i, Around σ.kernel (σ.stack l.1) i → k.stageOf i = s → σ.kernel.stageOf i = s →
      Covered s (⟨k, Function.update σ.stack l.1 fs⟩ : Machine T U V) := by
    intro i hi hst hst₀
    rcases hk.around i hst₀ hi with hi | he
    · refine Around.covered (t := l.1) (i := i) ?_ hst
      simpa only [Function.update_self] using hi
    · exact absurd (hst₀ ▸ he) hne
  rcases hcov with ⟨i, hi, hst⟩ | ⟨q, hq, hst⟩ | ⟨t, f, hf, hfs⟩
  · obtain ⟨o, ho, rfl⟩ := mem_filterMap.1 hi
    exact hstay i (.inl ho) ((hlive .ready i hi).trans hst) hst
  · have hm : q.1 ∈ places σ.kernel σ.hands .registered := mem_map.2 ⟨q, hq, rfl⟩
    exact hstay q.1 (.inr (.inl hm)) ((hlive .registered _ hm).trans hst) hst
  · by_cases ht : t = l.1
    · subst ht
      rcases hfs with hc | ⟨i, hi, hst⟩
      · rcases hk.creates s ⟨f, hf, hc⟩ with ⟨g, hg, hc⟩ | ⟨i, hi, hst⟩
        · exact .inr (.inr ⟨l.1, g, by simpa only [Function.update_self] using hg, .inl hc⟩)
        · refine Around.covered (t := l.1) (i := i) ?_ hst
          simpa only [Function.update_self] using hi
      · have hm : i ∈ places σ.kernel σ.hands (.hands l.1) :=
          mem_flatMap.2 ⟨f, hf, f.active_subset_owned i hi⟩
        exact hstay i (.inr (.inr (mem_flatMap.2 ⟨f, hf, hi⟩)))
          ((hlive _ i hm).trans hst) hst
    · -- the frames of the other threads are as before
      refine .inr (.inr ⟨t, f, ?_, hfs.imp_right ?_⟩)
      · simpa only [Function.update_of_ne ht] using hf
      · rintro ⟨i, hi, hst⟩
        have hm : i ∈ places σ.kernel σ.hands (.hands t) :=
          mem_flatMap.2 ⟨f, hf, f.active_subset_owned i hi⟩
        exact ⟨i, hi, (hlive _ i hm).trans hst⟩

/-- **No event is stranded as long as every push is covered.**  Take any clean run in
which each `TRY_PUSH` of an event for `s` happens while some instance of `s` will still
look at the event queue, or is about to be created, and no arguments that are copied into
an instance of `s` are refused.  In every reachable state in which no call is in progress,
if events are pending for `s` then an instance of `s` is queued, registered or running, and
it is not idle. -/
theorem no_stranding (xf : Transfer U V) (g : Graph) (ft : FullTest) (L pend : Int) (s : StageId)
    {tr : List (Machine T U V × (T × Act U V))} {σ : Machine T U V}
    (h : Run (Machine.step xf) (Machine.init g ft L pend) tr σ)
    (hclean : ∀ p ∈ tr, p.2.2.clean = true) (hpush : ∀ p ∈ tr, PushesCovered s p.1 p.2)
    (hcopy : ∀ p ∈ tr, CopiesWell xf s p.1 p.2) :
    ∀ x ∈ visited tr σ, x.Quiescent → (x.kernel.eventQueues s).items ≠ [] →
      ∃ i ∈ x.kernel.liveOf s, (some i ∈ x.kernel.readyQueue.items ∨
        i ∈ x.kernel.registered.map Prod.fst ∨ ∃ t, Frame.handler i ∈ x.stack t) ∧
        i ∉ (x.kernel.recycleQueues s).items := by
  intro x hx hq hne
  have hI : Unstranded s x := h.invariant_visited
    (C := fun σ l ↦ l.2.clean = true ∧ PushesCovered s σ l ∧ CopiesWell xf s σ l)
    ⟨.instanceInit g ft L pend, fun hne ↦ absurd rfl hne⟩
    (fun _ _ _ hI hC hs ↦ hI.step hC.2.2 hC.1 hC.2.1 hs)
    (fun p hp ↦ ⟨hclean p hp, hpush p hp, hcopy p hp⟩) x hx
  -- an owner other than the recycle queue keeps the instance out of it
  have hout : ∀ (p : Place T) i, p ≠ .recycle s → i ∈ places x.kernel x.hands p →
      x.kernel.stageOf i = s → i ∈ x.kernel.liveOf s ∧ i ∉ (x.kernel.recycleQueues s).items :=
    fun p i hp hi hst ↦ ⟨State.mem_liveOf.2 ⟨hI.owned.live p i hi, hst⟩, fun hr ↦
      hp (hI.owned.exclusive.place_unique hi (q := .recycle s) hr)⟩
  rcases hI.covered hne with ⟨i, hi, hst⟩ | ⟨q, hq', hst⟩ | ⟨t, f, hf, hfs⟩
  · obtain ⟨hl, hr⟩ := hout .ready i (by simp) hi hst
    obtain ⟨o, ho, rfl⟩ := mem_filterMap.1 hi
    exact ⟨i, hl, .inl ho, hr⟩
  · have hm : q.1 ∈ places x.kernel x.hands .registered := mem_map.2 ⟨q, hq', rfl⟩
    obtain ⟨hl, hr⟩ := hout .registered q.1 (by simp) hm hst
    exact ⟨q.1, hl, .inr (.inl hm), hr⟩
  · have hf' := hq t f hf
    cases f with
    | handler i =>
        rcases hfs with hc | ⟨j, hj, hst⟩
        · cases hc
        · obtain rfl := mem_singleton.1 hj
          have hm : j ∈ places x.kernel x.hands (.hands t) := mem_flatMap.2 ⟨_, hf, hj⟩
          obtain ⟨hl, hr⟩ := hout (.hands t) j (by simp) hm hst
          exact ⟨j, hl, .inr (.inr ⟨t, hf⟩), hr⟩
    | _ => cases hf'

end Runs

/-- Thread `one` creates the instance of a serial stage with its first event, is refused
it for the second, and pushes that only after thread `two` has recycled the instance. -/
def latePush : List (TwoThreads × Act Nat Nat) :=
  [(.one, .emmit 0 0 [1]), (.one, .run), (.one, .run), (.one, .run), (.one, .run),
    (.one, .chunkEnds .ok), (.one, .run), (.two, .wait),
    -- the second event: nothing idle, and the counter is at the limit
    (.one, .emmit 0 0 [2]), (.one, .run), (.one, .run), (.one, .run),
    -- the handler ends and finds no event
    (.two, .ret .ended), (.two, .run), (.two, .run),
    (.one, .run)]

/-- **An accepted event is stranded** after `latePush`: it is pending, no call is in
progress, and the only instance of the stage is idle. -/
theorem stranded :
    ¬ ∀ (xf : Transfer Nat Nat) (g : Graph) (ft : FullTest) (L pend : Int) (s : StageId)
      (tr : List (Machine TwoThreads Nat Nat × (TwoThreads × Act Nat Nat)))
      (σ : Machine TwoThreads Nat Nat), (∀ args m, xf.copy args ≠ .raised m) →
      1 ≤ initialLimit g L s → Run (Machine.step xf) (Machine.init g ft L pend) tr σ →
      (∀ p ∈ tr, p.2.2.clean = true) →
      ∀ x ∈ visited tr σ, x.Quiescent → (x.kernel.eventQueues s).items ≠ [] →
        ∃ i ∈ x.kernel.liveOf s, (some i ∈ x.kernel.readyQueue.items ∨
          i ∈ x.kernel.registered.map Prod.fst ∨ ∃ t, Frame.handler i ∈ x.stack t) ∧
          i ∉ (x.kernel.recycleQueues s).items := by
  intro h
  obtain ⟨σ, hσ⟩ : ∃ σ, exec (Machine.step (.plain Nat))
      (.init (.single true) .exactly (-1) (-1)) latePush = some σ := ⟨_, rfl⟩
  have hx := h _ _ _ _ _ 0 _ σ (fun _ _ e ↦ by cases e) (by decide) (Run.of_exec hσ)
    (by decide) σ (by simp [visited])
  obtain rfl := Option.some.inj hσ
  exact absurd (hx (by decide) (by decide)) (by decide)

/-- The sender pushes while the handler still runs. -/
def earlyPush : List (TwoThreads × Act Nat Nat) :=
  [(.one, .emmit 0 0 [1]), (.one, .run), (.one, .run), (.one, .run), (.one, .run),
    (.one, .chunkEnds .ok), (.one, .run), (.two, .wait), (.one, .emmit 0 0 [2]), (.one, .run),
    (.one, .run), (.one, .run), (.one, .run)]

/-- `no_stranding` at `earlyPush`: the event is pending and the instance active. -/
theorem no_stranding_earlyPush :
    ∃ σ : Machine TwoThreads Nat Nat, exec (Machine.step (.plain Nat))
        (.init (.single true) .exactly (-1) (-1)) earlyPush = some σ ∧
      (σ.kernel.eventQueues 0).items = [[2]] ∧ ∃ i ∈ σ.kernel.liveOf 0,
        i ∉ (σ.kernel.recycleQueues 0).items := by
  obtain ⟨σ, hσ⟩ : ∃ σ, exec (Machine.step (.plain Nat))
      (.init (.single true) .exactly (-1) (-1)) earlyPush = some σ := ⟨_, rfl⟩
  have hx := no_stranding (.plain Nat) _ _ _ _ 0 (Run.of_exec hσ) (by decide) (by decide)
    (fun _ _ _ _ _ _ _ hm ↦ by cases hm) σ (by simp [visited])
  obtain rfl := Option.some.inj hσ
  obtain ⟨i, hi, -, hr⟩ := hx (by decide) (by decide)
  exact ⟨_, rfl, rfl, i, hi, hr⟩

end Leda.Kernel
