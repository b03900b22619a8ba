import Leda.Kernel.Interleave
import Leda.Kernel.Ownership

/-!
# An instance has one owner

The hands of a thread are the instances its frames hold: the one whose handler it
runs, one it has acquired or is releasing, the caller of a cohort it works on.  Every
step of a thread is one of the primitives `Owned` has a rule for, so `Owned` holds of
the kernel and these hands in every run, whatever the threads do and however their
handlers leave (`one_owner`).
-/

universe u v

namespace Leda.Kernel

open Leda.Lib List

variable {U V : Type u} {T : Type v}

/-- The instances held for a purpose. -/
def Purpose.owned : Purpose U V → List InstId
  | .cohort caller .. => [caller]
  | _ => []

/-- The instances a frame holds. -/
def Frame.owned : Frame U V → List InstId
  | .handler i | .pushReady i | .popEvent i | .recycle i | .destroy i => [i]
  | .aquire _ p | .readCount _ p | .readLimit _ _ p | .add _ p => p.owned
  | .chunk _ i p | .abandon _ i p => i :: p.owned
  | .pushEvent .. => []
  | .pushCaller caller callee _ => [caller, callee]

/-- The instances a stack of frames holds. -/
def held (fs : List (Frame U V)) : List InstId := fs.flatMap Frame.owned

@[simp] theorem held_nil : held ([] : List (Frame U V)) = [] := rfl

@[simp] theorem held_cons (f : Frame U V) (fs : List (Frame U V)) :
    held (f :: fs) = f.owned ++ held fs := rfl

theorem held_singleton (f : Frame U V) : held [f] = f.owned := append_nil _

@[simp] theorem held_append (fs gs : List (Frame U V)) : held (fs ++ gs) = held fs ++ held gs :=
  flatMap_append

/-- What thread `t` holds. -/
def Machine.hands (σ : Machine T U V) (t : T) : List InstId := held (σ.stack t)

section Steps

variable [DecidableEq T] {xf : Transfer U V} {k k' : State V} {h : T → List InstId} {t : T}
  {i : InstId} {s : StageId} {p : Purpose U V} {new : List (Frame U V)} {rest : List InstId}

/-- Rearranging what a thread holds. -/
theorem Owned.hold (ho : Owned k h) {l : List InstId} (ht : h t = l) :
    Owned k (Function.update h t l) := ho.drop (by rw [ht])

/-- What a caller does with an instance it was granted. -/
theorem granted_owned (ho : Owned k h) (ht : h t = i :: p.owned ++ rest)
    (hg : granted xf k i p = some (k', new)) :
    Owned k' (Function.update h t (held new ++ rest)) := by
  cases p with
  | emmit con args =>
      simp only [granted] at hg
      split at hg <;> simp only [Option.some.injEq, Prod.mk.injEq, reduceCtorEq] at hg
      · obtain ⟨rfl, rfl⟩ := hg
        exact ((ho.same (.modifyInst ..)).same (.statsUpdateEvents ..)).hold ht
      · obtain ⟨rfl, rfl⟩ := hg
        -- the sender gets an error and the instance stays behind
        exact (ho.same (.modifyInst ..)).drop (by rw [ht]; exact (sublist_cons_self ..).subperm)
  | packed e =>
      simp only [granted, Option.some.injEq, Prod.mk.injEq] at hg
      obtain ⟨rfl, rfl⟩ := hg
      exact (ho.same (.modifyInst ..)).hold ht
  | cohort caller con args =>
      simp only [granted] at hg
      split at hg <;> simp only [Option.some.injEq, Prod.mk.injEq, reduceCtorEq] at hg
      obtain ⟨rfl, rfl⟩ := hg
      refine ((ho.same (.modifyInst ..)).same (.modifyInst ..)).drop ?_
      rw [ht]
      exact (Perm.swap ..).subperm

/-- What a caller does when it was refused an instance. -/
theorem refused_owned (ho : Owned k h) (ht : h t = p.owned ++ rest)
    (hr : refused xf k s p = some (k', new)) :
    Owned k' (Function.update h t (held new ++ rest)) := by
  cases p with
  | emmit con args =>
      simp only [refused] at hr
      split at hr <;> simp only [Option.some.injEq, Prod.mk.injEq, reduceCtorEq] at hr <;>
        (obtain ⟨rfl, rfl⟩ := hr; exact ho.hold ht)
  | packed e =>
      simp only [refused, Option.some.injEq, Prod.mk.injEq] at hr
      obtain ⟨rfl, rfl⟩ := hr
      exact ho.hold ht
  | cohort caller con args =>
      simp only [refused, Option.some.injEq, Prod.mk.injEq] at hr
      obtain ⟨rfl, rfl⟩ := hr
      exact (ho.same (.modifyInst ..)).hold ht

/-- What becomes of an instance that yielded. -/
theorem settled_owned {φ : Fate V} (ho : Owned k h) (ht : h t = i :: rest)
    (hs : (settled k i φ : Option (State V × List (Frame U V))) = some (k', new)) :
    Owned k' (Function.update h t (held new ++ rest)) := by
  cases φ with
  | resume vals =>
      simp only [settled, Option.some.injEq, Prod.mk.injEq] at hs
      obtain ⟨rfl, rfl⟩ := hs
      exact (ho.same (.modifyInst ..)).hold ht
  | register c =>
      simp only [settled, Option.some.injEq, Prod.mk.injEq] at hs
      obtain ⟨rfl, rfl⟩ := hs
      exact ho.giveRegistered c (by rw [ht]; exact Subperm.refl _)
  | lost =>
      simp only [settled, Option.some.injEq, Prod.mk.injEq] at hs
      obtain ⟨rfl, rfl⟩ := hs
      exact ho.drop (by rw [ht]; exact (sublist_cons_self ..).subperm)
  | panic m => simp [settled] at hs
  | crash => simp [settled] at hs

/-- What becomes of an instance whose handler left the processor. -/
theorem returned_owned {y : Yield U} (ho : Owned k h) (ht : h t = i :: rest)
    (hr : returned xf k i y = some (k', new)) :
    Owned k' (Function.update h t (held new ++ rest)) := by
  have ho' := ho.same (.modifyInst k i fun d ↦ { d with suspended := y.inside })
  cases y with
  | ended =>
      simp only [returned, Option.some.injEq, Prod.mk.injEq] at hr
      obtain ⟨rfl, rfl⟩ := hr
      exact (ho'.same (.modifyInst ..)).hold ht
  | pcallError =>
      simp only [returned, Option.some.injEq, Prod.mk.injEq] at hr
      obtain ⟨rfl, rfl⟩ := hr
      exact ((ho'.same (.updateStats ..)).same (.updateStats ..)).hold ht
  | destroy =>
      simp only [returned, Option.some.injEq, Prod.mk.injEq] at hr
      obtain ⟨rfl, rfl⟩ := hr
      exact (ho'.same (.updateStats ..)).hold ht
  | unknown | cohort dst con args c =>
      simp only [returned, Option.some.injEq, Prod.mk.injEq] at hr
      obtain ⟨rfl, rfl⟩ := hr
      exact ho'.hold ht
  | nice | remote args written | waitIo fd mode armed | fileIo file mode arg submitted
  | sleep timer armed =>
      simp only [returned] at hr
      exact settled_owned ho' ht hr

/-- Unpacking an event and taking the call off the stack move no instance. -/
theorem Same.resumeInstance (k : State V) (i : InstId) : Same k (k.resumeInstance i).1 := by
  obtain ⟨f, hf⟩ := k.resumeInstance_eq i
  rw [hf]
  exact .modifyInst k i f

/-- **Each access of a frame keeps ownership.** -/
theorem frameStep_owned {f : Frame U V} (ho : Owned k h) (ht : h t = f.owned ++ rest)
    (hf : frameStep xf k f = some (k', new)) :
    Owned k' (Function.update h t (held new ++ rest)) := by
  cases frameStep_cases hf with
  | beyond _ hr | atLimit _ hr => exact refused_owned ho ht hr
  | @recycled s p i k₁ _ _ _ hp hg =>
      have h₁ := ho.takeRecycle (t := t) (l := i :: p.owned ++ rest) hp
        (by rw [ht]; exact Subperm.refl _)
      have h₂ := granted_owned (h₁.same (.updateStats ..))
        (Function.update_self t (i :: p.owned ++ rest) h) hg
      rwa [Function.update_idem] at h₂
  | noRecycled | readCount | belowLimit => exact ho.hold (by rw [held_singleton]; exact ht)
  | add => exact ho.create _ (by rw [ht, held_singleton]; exact Subperm.refl _)
  | @abandon s i p _ _ hr =>
      have h₁ := ho.destroy (t := t) (i := i) (l := p.owned ++ rest)
        (by rw [ht]; exact Subperm.refl _)
      have h₂ := refused_owned h₁ (Function.update_self t (p.owned ++ rest) h) hr
      rwa [Function.update_idem] at h₂
  | eventsFull | recycleFull => exact ho.hold ht
  | pushEvent hp => exact ((ho.same (.tryPushEvent hp)).same (.statsUpdateEvents ..)).hold ht
  | pushReady => exact ho.giveReady (by rw [ht]; exact Subperm.refl _)
  | @pushCaller caller callee =>
      have h₁ := ho.giveReady (t := t) (i := caller) (l := callee :: rest)
        (by rw [ht]; exact Subperm.refl _)
      exact (h₁.same (.statsUpdateEvents ..)).same (.resumeInstance ..)
  | popEvent hp =>
      exact ((((ho.same (.tryPopEvent hp)).same (.updateStats ..)).same (.updateStats ..)).same
        (.modifyInst ..)).hold ht
  | noEvent => exact (ho.same (.updateStats ..)).hold ht
  | recycle hp => exact ho.giveRecycle hp (by rw [ht]; exact Subperm.refl _)
  | destroy => exact ho.destroy (by rw [ht]; exact Subperm.refl _)

/-- **Each step of a thread keeps ownership.** -/
theorem threadStep_owned {fs fs' : List (Frame U V)} {a : Act U V} (ho : Owned k h)
    (ht : h t = held fs) (hs : threadStep xf k fs a = some (k', fs')) :
    Owned k' (Function.update h t (held fs')) := by
  cases threadStep_cases hs with
  | wait hp =>
      have h₁ := ho.takeReady (t := t) (l := held [.handler (U := U) (V := V) _]) hp
        (by rw [ht]; exact Subperm.refl _)
      exact h₁.same (.resumeInstance ..)
  | waitNull hp => exact (ho.takeNull hp).hold ht
  | emmit hm => exact ho.hold ht
  | remote hm => exact (ho.same (.statsUpdateEvents ..)).hold ht
  | packed => exact ho.hold ht
  | kill hm => exact ho.giveNull.hold ht
  | callback hm =>
      have h₁ := ho.takeRegistered (t := t) (l := held [.pushReady (U := U) (V := V) _]) hm
        (by rw [ht]; exact Subperm.refl _)
      exact h₁.same (.modifyInst ..)
  | ret hr =>
      rw [held_append]
      exact returned_owned ho ht hr
  | chunkOk hg =>
      rw [held_append]
      exact granted_owned ho ht hg
  | initFails => exact ho.hold ht
  | loadFails hr =>
      rw [held_append]
      have h₁ := ho.drop (t := t) (l := Purpose.owned _ ++ held _)
        (by rw [ht]; exact (sublist_cons_self ..).subperm)
      have h₂ := refused_owned (t := t) h₁ (Function.update_self ..) hr
      rwa [Function.update_idem] at h₂
  | run hf =>
      rw [held_append]
      exact frameStep_owned ho ht hf

end Steps

/-! ## What a step frees -/

section Frees

variable {xf : Transfer U V} {k k' : State V} {i : InstId} {s : StageId} {p : Purpose U V}
  {new : List (Frame U V)}

theorem granted_live (hg : granted xf k i p = some (k', new)) : k'.live = k.live := by
  cases p <;> simp only [granted] at hg
  case packed =>
    simp only [Option.some.injEq, Prod.mk.injEq] at hg
    obtain ⟨rfl, rfl⟩ := hg
    rfl
  all_goals
    split at hg <;> simp only [Option.some.injEq, Prod.mk.injEq, reduceCtorEq] at hg
    all_goals obtain ⟨rfl, rfl⟩ := hg; rfl

theorem refused_live (hr : refused xf k s p = some (k', new)) : k'.live = k.live := by
  cases p <;> simp only [refused] at hr
  case emmit =>
    split at hr <;> simp only [Option.some.injEq, Prod.mk.injEq, reduceCtorEq] at hr
    all_goals obtain ⟨rfl, rfl⟩ := hr; rfl
  all_goals
    simp only [Option.some.injEq, Prod.mk.injEq] at hr
    obtain ⟨rfl, rfl⟩ := hr
    rfl

theorem settled_live {φ : Fate V}
    (hs : (settled k i φ : Option (State V × List (Frame U V))) = some (k', new)) :
    k'.live = k.live := by
  cases φ <;> simp only [settled, Option.some.injEq, Prod.mk.injEq, reduceCtorEq] at hs
  all_goals obtain ⟨rfl, rfl⟩ := hs; rfl

theorem returned_live {y : Yield U} (hr : returned xf k i y = some (k', new)) :
    k'.live = k.live := by
  cases y <;> simp only [returned] at hr
  case nice | remote | waitIo | fileIo | sleep => exact (settled_live hr).trans rfl
  all_goals
    simp only [Option.some.injEq, Prod.mk.injEq] at hr
    obtain ⟨rfl, rfl⟩ := hr
    rfl

/-- An access frees at most an instance the frame holds. -/
theorem frameStep_live {f : Frame U V} (hf : frameStep xf k f = some (k', new)) :
    ∀ j ∈ k.live, j ∈ k'.live ∨ j ∈ f.owned := by
  intro j hj
  cases frameStep_cases hf with
  | beyond _ hr | atLimit _ hr => exact .inl (refused_live hr ▸ hj)
  | recycled _ hp hg =>
      obtain ⟨q, -, -, rfl⟩ := State.tryPopRecycle_eq_some.1 hp
      exact .inl (granted_live hg ▸ hj)
  | add => exact .inl (Finset.mem_insert_of_mem hj)
  | @abandon s i p _ _ hr =>
      by_cases hij : j = i
      · exact .inr (hij ▸ mem_cons_self)
      · rw [refused_live hr]
        exact .inl (Finset.mem_erase.2 ⟨hij, hj⟩)
  | @destroy i =>
      by_cases hij : j = i
      · exact .inr (hij ▸ mem_cons_self)
      · exact .inl (Finset.mem_erase.2 ⟨hij, hj⟩)
  | pushEvent hp =>
      obtain ⟨-, rfl⟩ := State.tryPushEvent_eq_some.1 hp
      exact .inl hj
  | popEvent hp =>
      obtain ⟨q, -, -, rfl⟩ := State.tryPopEvent_eq_some.1 hp
      exact .inl hj
  | recycle hp =>
      obtain ⟨-, rfl⟩ := State.tryPushRecycle_eq_some.1 hp
      exact .inl hj
  | pushCaller =>
      rw [(Same.resumeInstance ..).live]
      exact .inl hj
  | noRecycled | readCount | belowLimit | eventsFull | pushReady | noEvent | recycleFull =>
      exact .inl hj

/-- A thread frees at most an instance it holds. -/
theorem threadStep_live {fs fs' : List (Frame U V)} {a : Act U V}
    (hs : threadStep xf k fs a = some (k', fs')) : ∀ j ∈ k.live, j ∈ k'.live ∨ j ∈ held fs := by
  intro j hj
  cases threadStep_cases hs with
  | wait hp =>
      obtain ⟨q, -, -, rfl⟩ := State.popReady_eq_some.1 hp
      rw [(Same.resumeInstance ..).live]
      exact .inl hj
  | waitNull hp =>
      obtain ⟨q, -, -, rfl⟩ := State.popReady_eq_some.1 hp
      exact .inl hj
  | ret hr => exact .inl (returned_live hr ▸ hj)
  | chunkOk hg => exact .inl (granted_live hg ▸ hj)
  | loadFails hr => exact .inl (refused_live hr ▸ hj)
  | run hf => exact (frameStep_live hf j hj).imp_right (mem_append_left _)
  | _ => exact .inl hj

end Frees

/-! ## Whole runs -/

namespace Machine

variable [DecidableEq T] {xf : Transfer U V} {σ σ' : Machine T U V}

/-- The hands after a step of thread `t`. -/
theorem hands_update (k : State V) (st : T → List (Frame U V)) (t : T) (fs : List (Frame U V)) :
    (⟨k, Function.update st t fs⟩ : Machine T U V).hands =
      Function.update (fun r ↦ held (st r)) t (held fs) := by
  funext r
  by_cases hr : r = t
  · subst hr; simp [hands]
  · simp [hands, hr]

/-- Every step keeps ownership. -/
theorem owned_step {l : T × Act U V} (ho : Owned σ.kernel σ.hands) (hs : step xf σ l = some σ') :
    Owned σ'.kernel σ'.hands := by
  obtain ⟨k, fs, hstep, rfl⟩ := step_eq_some.1 hs
  rw [hands_update]
  exact threadStep_owned ho rfl hstep

/-- Every run keeps ownership. -/
theorem owned_run {g : Graph} {ft : FullTest} {L pend : Int}
    {tr : List (Machine T U V × (T × Act U V))} (h : Run (step xf) (init g ft L pend) tr σ) :
    Owned σ.kernel σ.hands :=
  h.invariant' (I := fun σ ↦ Owned σ.kernel σ.hands) (.instanceInit g ft L pend)
    fun _ _ _ ho hs ↦ owned_step ho hs

end Machine

/-- **An instance has exactly one owner**, in every run of any number of threads.
No instance is in two of the ready queue, the recycle queues, the hands of the threads
and the registered completions, nor twice in one of them, and what is there is live, in
a recycle queue that of its own stage.  Hence no two threads run the handler of the
same instance, and an instance that a step frees was in the hands of the thread that
made the step and nowhere else. -/
theorem one_owner [DecidableEq T] (xf : Transfer U V) (g : Graph) (ft : FullTest) (L pend : Int)
    {tr : List (Machine T U V × (T × Act U V))} {σ : Machine T U V}
    (h : Run (Machine.step xf) (Machine.init g ft L pend) tr σ) :
    Exclusive (places σ.kernel σ.hands) ∧
    (∀ p, ∀ i ∈ places σ.kernel σ.hands p, i ∈ σ.kernel.live) ∧
    (∀ s, ∀ i ∈ (σ.kernel.recycleQueues s).items, σ.kernel.stageOf i = s) ∧
    (∀ t t' i, Frame.handler i ∈ σ.stack t → Frame.handler i ∈ σ.stack t' → t = t') ∧
    ∀ l σ', Machine.step xf σ l = some σ' → ∀ i ∈ σ.kernel.live, i ∉ σ'.kernel.live →
      i ∈ σ.hands l.1 ∧ ∀ p, p ≠ .hands l.1 → i ∉ places σ.kernel σ.hands p := by
  have ho := Machine.owned_run h
  have hhand : ∀ t i, Frame.handler i ∈ σ.stack t → i ∈ σ.hands t := fun t i hi ↦
    mem_flatMap.2 ⟨_, hi, mem_cons_self⟩
  refine ⟨ho.exclusive, ho.live, fun s i hi ↦ (ho.accounted.recycled s i hi).2,
    fun t t' i hi hi' ↦ ?_, fun l σ' hs i hi hi' ↦ ?_⟩
  · have heq := ho.exclusive.place_unique (p := .hands t) (q := .hands t')
      (hhand t i hi) (hhand t' i hi')
    exact Place.hands.inj heq
  · obtain ⟨k, fs, hstep, rfl⟩ := Machine.step_eq_some.1 hs
    have hmem : i ∈ σ.hands l.1 := (threadStep_live hstep i hi).resolve_left hi'
    exact ⟨hmem, fun p hp hip ↦
      hp (ho.exclusive.place_unique hip (q := .hands l.1) hmem)⟩

/-- The acquisition of an instance that has to be created, as thread `t` runs it. -/
def creation (t : Nat) : List (Nat × Act Nat Nat) :=
  [(t, .run), (t, .run), (t, .run), (t, .run), (t, .chunkEnds .ok)]

/-- Thread `0` sends an event; thread `1` runs the instance, which passes its thread on
to a second instance, sleeps and is taken by the timer; the second one fails. -/
def handOver : List (Nat × Act Nat Nat) :=
  [(0, .emmit 0 0 [7])] ++ creation 0 ++ [(0, .run), (1, .wait), (1, .ret (.cohort 0 0 [8] .ok))] ++
    creation 1 ++ [(1, .run), (2, .wait), (2, .ret (.sleep .valid true)), (1, .ret .pcallError)]

/-- `one_owner` at `handOver`: the first instance is with the timer, the second in the
hands of thread `1`, which is about to destroy it. -/
theorem one_owner_handOver :
    ∃ σ : Machine Nat Nat Nat, exec (Machine.step (.plain Nat))
        (.init (.single false) .exactly (-1) (-1)) handOver = some σ ∧
      σ.kernel.registered = [(0, .timer)] ∧ σ.hands 1 = [1] ∧
      Exclusive (places σ.kernel σ.hands) := by
  obtain ⟨σ, hσ⟩ : ∃ σ, exec (Machine.step (.plain Nat))
      (.init (.single false) .exactly (-1) (-1)) handOver = some σ := ⟨_, rfl⟩
  refine ⟨σ, hσ, ?_, ?_, (one_owner _ _ _ _ _ (Run.of_exec hσ)).1⟩
  all_goals
    obtain rfl := Option.some.inj hσ
    rfl

end Leda.Kernel
