import Leda.Kernel.Instance
import Leda.Lib.Run

/-!
# Instance accounting

Three separate objects describe how many instances a stage has: the counter
`number_of_instances`, the limit `recycle_queue_limits` and the capacity of the
recycle queue.  `Accounted` is the invariant that ties the counter to the instances
that exist, whatever happens to the limit; `Bounded` adds what a limit that is never
changed guarantees.

The runs here are sequences of whole operations on the instance subsystem.  An
operation on an instance is possible while the instance is `held`, that is live and
not in its recycle queue.
-/

universe u

namespace Leda.Kernel

open Leda.Lib

variable {V : Type u}

namespace State

/-- Live and outside its recycle queue. -/
def held (k : State V) (i : InstId) : Bool :=
  decide (i ∈ k.live) && decide (i ∉ (k.recycleQueues (k.stageOf i)).items)

end State

/-- The operations on the instance subsystem. -/
inductive InstOp (V : Type u)
  | aquire (s : StageId) (c : Creation)
  | release (i : InstId)
  | destroy (i : InstId)
  | setMaxpar (arg₁ : Int) (arg₂ : Option Int)
  | /-- A sender leaves an event for the stage. -/
    pushEvent (s : StageId) (e : List V)
deriving Repr, DecidableEq

/-- One whole operation. -/
def instStep (k : State V) : InstOp V → Option (State V)
  | .aquire s c => some (k.instanceAquire s c).1
  | .release i => if k.held i then some (k.instanceRelease i).1 else none
  | .destroy i => if k.held i then some (k.instanceDestroy i) else none
  | .setMaxpar a b => some (k.instanceSetMaxpar a b).1
  | .pushEvent s e => k.instanceTryPushPendingEvent s e

/-- The counters count the live instances, and the recycle queues hold live
instances of their stage, each once. -/
structure Accounted (k : State V) : Prop where
  count : ∀ s, k.numberOfInstances s = (k.liveOf s).card
  recycled : ∀ s, ∀ i ∈ (k.recycleQueues s).items, i ∈ k.live ∧ k.stageOf i = s
  nodup : ∀ s, (k.recycleQueues s).items.Nodup
  fresh : ∀ i ∈ k.live, i < k.nextInst

namespace Accounted

variable {k k' : State V} {s : StageId} {i : InstId}

/-- Operations that create and destroy nothing, and at most take instances out of
recycle queues, keep the accounts. -/
theorem frame (h : Accounted k) (hl : k'.live = k.live)
    (hn : k'.numberOfInstances = k.numberOfInstances) (hx : k'.nextInst = k.nextInst)
    (hs : ∀ i, k'.stageOf i = k.stageOf i)
    (hr : ∀ s, (k'.recycleQueues s).items.Sublist (k.recycleQueues s).items) : Accounted k' where
  count s := by
    rw [hn, h.count s]
    have hset : k'.liveOf s = k.liveOf s := by
      ext i
      rw [State.mem_liveOf, State.mem_liveOf, hl, hs]
    rw [hset]
  recycled s i hi := by
    rw [hl, hs]
    exact h.recycled s i ((hr s).subset hi)
  nodup s := (h.nodup s).sublist (hr s)
  fresh := by rw [hl, hx]; exact h.fresh

/-- The next instance is not live yet. -/
theorem nextInst_notMem (h : Accounted k) : k.nextInst ∉ k.live := fun hm ↦
  Nat.lt_irrefl _ (h.fresh _ hm)

/-- The next instance is not idle either. -/
theorem nextInst_notMem_recycle (h : Accounted k) (s : StageId) :
    k.nextInst ∉ (k.recycleQueues s).items := fun hm ↦ h.nextInst_notMem (h.recycled s _ hm).1

/-- Counting up and creating the next instance keeps the accounts. -/
theorem create (h : Accounted k) (hl : k'.live = insert k.nextInst k.live)
    (hn : k'.numberOfInstances =
      Function.update k.numberOfInstances s (k.numberOfInstances s + 1))
    (hx : k'.nextInst = k.nextInst + 1) (hself : k'.stageOf k.nextInst = s)
    (hs : ∀ i, i ≠ k.nextInst → k'.stageOf i = k.stageOf i)
    (hr : k'.recycleQueues = k.recycleQueues) : Accounted k' := by
  have hold : ∀ j ∈ k.live, k'.stageOf j = k.stageOf j := fun j hj ↦
    hs j fun e ↦ h.nextInst_notMem (e ▸ hj)
  refine ⟨fun s' ↦ ?_, fun s' i hi ↦ ?_, by rw [hr]; exact h.nodup, fun i hi ↦ ?_⟩
  · by_cases hss : s' = s
    · subst hss
      have hset : k'.liveOf s' = insert k.nextInst (k.liveOf s') := by
        ext j
        rw [State.mem_liveOf, Finset.mem_insert, State.mem_liveOf, hl, Finset.mem_insert]
        constructor
        · rintro ⟨rfl | hj, hst⟩
          · exact .inl rfl
          · exact .inr ⟨hj, hold j hj ▸ hst⟩
        · rintro (rfl | ⟨hj, hst⟩)
          · exact ⟨.inl rfl, hself⟩
          · exact ⟨.inr hj, (hold j hj).trans hst⟩
      have hnot : k.nextInst ∉ k.liveOf s' := fun hm ↦
        h.nextInst_notMem (State.mem_liveOf.1 hm).1
      rw [hset, Finset.card_insert_of_notMem hnot, hn, Function.update_self, h.count,
        Int.natCast_add, Int.natCast_one]
    · have hset : k'.liveOf s' = k.liveOf s' := by
        ext j
        rw [State.mem_liveOf, State.mem_liveOf, hl, Finset.mem_insert]
        constructor
        · rintro ⟨rfl | hj, hst⟩
          · exact absurd (hst.symm.trans hself) hss
          · exact ⟨hj, hold j hj ▸ hst⟩
        · rintro ⟨hj, hst⟩
          exact ⟨.inr hj, (hold j hj).trans hst⟩
      rw [hset, hn, Function.update_of_ne hss, h.count]
  · rw [hr] at hi
    have hrec := h.recycled s' i hi
    rw [hl, hold i hrec.1]
    exact ⟨Finset.mem_insert_of_mem hrec.1, hrec.2⟩
  · rw [hx]
    rw [hl] at hi
    rcases Finset.mem_insert.1 hi with rfl | hi
    · exact Nat.lt_succ_self _
    · exact Nat.lt_succ_of_lt (h.fresh i hi)

/-- The creation of `instance_aquire` before its chunk runs. -/
theorem newInstance (h : Accounted k) (s : StageId) :
    Accounted (((k.statsActive s).addInstances s 1).newInstance s) :=
  h.create rfl rfl rfl State.stageOf_newInstance_self
    (fun _ hi ↦ State.stageOf_newInstance_of_ne hi) rfl

/-- Counting down and destroying a live instance that is not idle keeps the
accounts. -/
theorem destroy (h : Accounted k) (hl : i ∈ k.live)
    (hr : i ∉ (k.recycleQueues (k.stageOf i)).items) : Accounted (k.instanceDestroy i) := by
  refine ⟨fun s ↦ ?_, fun s j hj ↦ ?_, h.nodup, fun j hj ↦ h.fresh j (Finset.mem_of_mem_erase hj)⟩
  · have hset : (k.instanceDestroy i).liveOf s = (k.liveOf s).erase i := by
      ext j
      rw [State.mem_liveOf, Finset.mem_erase, State.mem_liveOf, ← and_assoc]
      exact and_congr_left fun _ ↦ Finset.mem_erase
    rw [hset]
    by_cases hs : s = k.stageOf i
    · subst hs
      have hmem : i ∈ k.liveOf (k.stageOf i) := State.mem_liveOf.2 ⟨hl, rfl⟩
      have hpos := Finset.card_pos.2 ⟨i, hmem⟩
      rw [Finset.card_erase_of_mem hmem]
      simp only [State.instanceDestroy, State.freeInstance, State.addInstances,
        Function.update_self, h.count]
      omega
    · have hmem : i ∉ k.liveOf s := fun hm ↦ hs (State.mem_liveOf.1 hm).2.symm
      rw [Finset.erase_eq_of_notMem hmem, ← h.count s]
      simp [State.instanceDestroy, hs]
  · have hold := h.recycled s j hj
    have hne : j ≠ i := by
      rintro rfl
      exact hr (hold.2 ▸ hj)
    exact ⟨Finset.mem_erase.2 ⟨hne, hold.1⟩, hold.2⟩

/-- Putting a live instance that is not idle into its recycle queue keeps the
accounts. -/
theorem recycle (h : Accounted k) (hl : i ∈ k.live)
    (hr : i ∉ (k.recycleQueues (k.stageOf i)).items)
    (hp : k.tryPushRecycle (k.stageOf i) i = some k') : Accounted k' := by
  obtain ⟨-, rfl⟩ := State.tryPushRecycle_eq_some.1 hp
  refine ⟨h.count, fun s j hj ↦ ?_, fun s ↦ ?_, h.fresh⟩
  · by_cases hs : s = k.stageOf i
    · subst hs
      simp only [Function.update_self, Fifo.items_append, List.mem_append,
        List.mem_singleton] at hj
      rcases hj with hj | rfl
      · exact h.recycled _ j hj
      · exact ⟨hl, rfl⟩
    · simp only [Function.update_of_ne hs] at hj
      exact h.recycled s j hj
  · by_cases hs : s = k.stageOf i
    · subst hs
      simp only [Function.update_self, Fifo.items_append]
      exact List.nodup_append'.2 ⟨h.nodup _, List.nodup_singleton _,
        List.disjoint_singleton.2 hr⟩
    · simp only [Function.update_of_ne hs]
      exact h.nodup s

/-- Fewer instances are idle than the stage has. -/
theorem recycled_lt (h : Accounted k) (hl : i ∈ k.live)
    (hr : i ∉ (k.recycleQueues (k.stageOf i)).items) :
    ((k.recycleQueues (k.stageOf i)).items.length : Int) < k.numberOfInstances (k.stageOf i) := by
  have hnd : (i :: (k.recycleQueues (k.stageOf i)).items).Nodup :=
    List.nodup_cons.2 ⟨hr, h.nodup _⟩
  have hsub : (i :: (k.recycleQueues (k.stageOf i)).items).toFinset ⊆ k.liveOf (k.stageOf i) := by
    intro j hj
    rcases List.mem_cons.1 (List.mem_toFinset.1 hj) with rfl | hj
    · exact Finset.mem_filter.2 ⟨hl, rfl⟩
    · exact Finset.mem_filter.2 (h.recycled _ j hj)
  have hcard := Finset.card_le_card hsub
  rw [List.toFinset_card_of_nodup hnd, List.length_cons] at hcard
  rw [h.count]
  omega

/-- Taking an idle instance keeps the accounts. -/
theorem tryPopRecycle (h : Accounted k) (hp : k.tryPopRecycle s = some (i, k')) :
    Accounted k' := by
  obtain ⟨q, hi, -, rfl⟩ := State.tryPopRecycle_eq_some.1 hp
  refine h.frame rfl rfl rfl (fun _ ↦ rfl) fun s' ↦ ?_
  by_cases hs : s' = s
  · subst hs; simp [hi]
  · simp [hs]

/-- Storing limits moves no instance. -/
theorem storeLimits (h : Accounted k) (p : StageId → Bool) (cap : Int) :
    Accounted (k.storeLimits p cap) := by
  refine h.frame rfl rfl rfl (fun _ ↦ rfl) fun s ↦ ?_
  by_cases hp : p s = true <;> simp [State.storeLimits, hp]

end Accounted

namespace State

variable {k k' : State V} {s : StageId} {i : InstId}

theorem held_iff :
    k.held i = true ↔ i ∈ k.live ∧ i ∉ (k.recycleQueues (k.stageOf i)).items := by
  simp [held]

/-- **What `instance_aquire` can do**: refuse, hand out an idle instance, or create one
because none was idle and the counter differs from the limit; a creation can fail. -/
inductive Aquired (k : State V) (s : StageId) : Creation → State V × Option InstId → Prop
  | refused {c : Creation} (h : k.graph.Beyond s ∨
      (k.recycleQueues s).items = [] ∧ k.numberOfInstances s = k.recycleQueueLimits s) :
      Aquired k s c (k, none)
  | recycled {c : Creation} {i : InstId} {k' : State V} (hs : ¬ k.graph.Beyond s)
      (h : k.tryPopRecycle s = some (i, k')) :
      Aquired k s c (k'.statsActive (k'.stageOf i), some i)
  | created {c : Creation} (hs : ¬ k.graph.Beyond s) (hr : (k.recycleQueues s).items = [])
      (hn : k.numberOfInstances s ≠ k.recycleQueueLimits s) :
      Aquired k s c (k.instanceCreate s c)

theorem instanceAquire_cases (k : State V) (s : StageId) (c : Creation) :
    Aquired k s c (k.instanceAquire s c) := by
  unfold instanceAquire
  split
  · exact .refused (.inl ‹_›)
  · rename_i hs
    split
    · exact .recycled hs ‹_›
    · rename_i hp
      split
      · exact .refused (.inr ⟨tryPopRecycle_eq_none.1 hp, ‹_›⟩)
      · exact .created hs (tryPopRecycle_eq_none.1 hp) ‹_›

/-- **What `instance_set_maxpar` can do**: nothing, or store the requested limit,
at least `-1`, for stages it was asked for that are not serial. -/
theorem instanceSetMaxpar_cases (k : State V) (a : Int) (b : Option Int) :
    (k.instanceSetMaxpar a b).1 = k ∨
    ∃ p, -1 ≤ toInt32 (b.getD a) ∧
      (∀ s, p s = true → k.graph.serial s = false ∧ (b = none ∨ toInt32 a = s)) ∧
      (k.instanceSetMaxpar a b).1 = k.storeLimits p (toInt32 (b.getD a)) := by
  unfold instanceSetMaxpar
  cases b with
  | none =>
      simp only
      split
      · exact .inl rfl
      · rename_i hcap
        refine .inr ⟨_, Int.not_lt.1 hcap, fun s hs ↦ ?_, rfl⟩
        simp only [Bool.and_eq_true, Bool.not_eq_true'] at hs
        exact ⟨hs.2, .inl trivial⟩
  | some cap =>
      simp only
      split
      · exact .inl rfl
      · rename_i hcap
        split
        · exact .inl rfl
        · split
          · exact .inl rfl
          · rename_i hser
            refine .inr ⟨_, Int.not_lt.1 hcap, fun s hs ↦ ?_, rfl⟩
            obtain rfl := of_decide_eq_true hs
            exact ⟨Bool.eq_false_iff.2 hser, .inr rfl⟩

/-- **What `instance_release` can do** once the stack is cleared: take a pending
event and queue the instance with it; destroy the instance because its recycle
queue is full; or put the instance into its recycle queue. -/
theorem instanceRelease_cases (k : State V) (i : InstId) :
    let k₀ := k.modifyInst i fun d ↦ { d with stack := [] }
    (∃ e k', k₀.tryPopEvent (k.stageOf i) = some (e, k') ∧
      k.instanceRelease i = ((((k'.statsInactive (k.stageOf i)).statsActive
        (k.stageOf i)).load i e).pushReadyQueue i, 0)) ∨
    ((k.eventQueues (k.stageOf i)).items = [] ∧
      (k.recycleQueues (k.stageOf i)).full k.fullTest = true ∧
      k.instanceRelease i = ((k₀.statsInactive (k.stageOf i)).instanceDestroy i, -1)) ∨
    ((k.eventQueues (k.stageOf i)).items = [] ∧
      ∃ k', (k₀.statsInactive (k.stageOf i)).tryPushRecycle (k.stageOf i) i = some k' ∧
        k.instanceRelease i = (k', 0)) := by
  intro k₀
  unfold instanceRelease
  simp only
  split
  · rename_i e k' hp
    exact .inl ⟨e, k', hp, rfl⟩
  · rename_i hp
    have hempty := tryPopEvent_eq_none.1 hp
    split
    · rename_i hr
      have hfull := tryPushRecycle_eq_none.1 hr
      exact .inr (.inl ⟨hempty, hfull, rfl⟩)
    · rename_i k' hr
      exact .inr (.inr ⟨hempty, k', hr, rfl⟩)

end State

namespace Accounted

variable {k k' : State V} {s : StageId} {i : InstId}

/-- Clearing or filling a stack, and counting statistics, keep the accounts. -/
theorem modifyInst (h : Accounted k) (f : Instance V → Instance V) :
    Accounted (k.modifyInst i f) :=
  h.frame rfl rfl rfl (fun _ ↦ State.stageOf_modifyInst) fun _ ↦ .refl _

/-- Taking an event from a pending queue keeps the accounts. -/
theorem tryPopEvent {e : List V} (h : Accounted k) (hp : k.tryPopEvent s = some (e, k')) :
    Accounted k' := by
  obtain ⟨q, -, -, rfl⟩ := State.tryPopEvent_eq_some.1 hp
  exact h.frame rfl rfl rfl (fun _ ↦ rfl) fun _ ↦ .refl _

/-- Leaving an event in a pending queue keeps the accounts. -/
theorem tryPushEvent {e : List V} (h : Accounted k) (hp : k.tryPushEvent s e = some k') :
    Accounted k' := by
  obtain ⟨-, rfl⟩ := State.tryPushEvent_eq_some.1 hp
  exact h.frame rfl rfl rfl (fun _ ↦ rfl) fun _ ↦ .refl _

/-- The three ways a creation goes keep the accounts. -/
theorem instanceCreate (h : Accounted k) (s : StageId) (c : Creation) :
    Accounted (k.instanceCreate s c).1 := by
  have hnew := h.newInstance s
  cases c with
  | ok => exact hnew
  | loadFails => exact hnew
  | initFails =>
      exact hnew.destroy (Finset.mem_insert_self _ _) (h.nextInst_notMem_recycle _)

/-- `instance_aquire` keeps the accounts. -/
theorem instanceAquire (h : Accounted k) (s : StageId) (c : Creation) :
    Accounted (k.instanceAquire s c).1 := by
  have hc := k.instanceAquire_cases s c
  generalize k.instanceAquire s c = r at hc ⊢
  cases hc with
  | refused => exact h
  | recycled hs hp => exact (h.tryPopRecycle hp).frame rfl rfl rfl (fun _ ↦ rfl) fun _ ↦ .refl _
  | created => exact h.instanceCreate s c

/-- `instance_release` of a held instance keeps the accounts. -/
theorem instanceRelease (h : Accounted k) (hi : k.held i = true) :
    Accounted (k.instanceRelease i).1 := by
  obtain ⟨hl, hr⟩ := State.held_iff.1 hi
  have h₀ := h.modifyInst (i := i) fun d ↦ { d with stack := [] }
  -- the state when the instance has become inactive
  set k₁ := (k.modifyInst i fun d ↦ { d with stack := [] }).statsInactive (k.stageOf i) with hk₁
  have h₁ : Accounted k₁ := h₀.frame rfl rfl rfl (fun _ ↦ rfl) fun _ ↦ .refl _
  have hst : k₁.stageOf i = k.stageOf i := by simp [hk₁, State.stageOf]
  rcases k.instanceRelease_cases i with ⟨e, k', hp, he⟩ | ⟨-, -, he⟩ | ⟨-, k', hp, he⟩ <;>
    simp only [he]
  · refine (h₀.tryPopEvent hp).frame rfl rfl rfl (fun j ↦ ?_) fun _ ↦ .refl _
    simp [State.pushReadyQueue, State.stageOf]
  · exact h₁.destroy hl (by rw [hst]; exact hr)
  · rw [← hk₁, ← hst] at hp
    exact h₁.recycle hl (by rw [hst]; exact hr) hp

/-- `instance_set_maxpar` keeps the accounts. -/
theorem instanceSetMaxpar (h : Accounted k) (a : Int) (b : Option Int) :
    Accounted (k.instanceSetMaxpar a b).1 := by
  rcases k.instanceSetMaxpar_cases a b with he | ⟨p, -, -, he⟩ <;> rw [he]
  · exact h
  · exact h.storeLimits p _

/-- **Every operation keeps the accounts**, whatever the limits are. -/
theorem step {op : InstOp V} (h : Accounted k) (hs : instStep k op = some k') :
    Accounted k' := by
  cases op with
  | aquire s c =>
      simp only [instStep, Option.some.injEq] at hs
      exact hs ▸ h.instanceAquire s c
  | release i =>
      simp only [instStep, Option.ite_none_right_eq_some, Option.some.injEq] at hs
      exact hs.2 ▸ h.instanceRelease hs.1
  | destroy i =>
      simp only [instStep, Option.ite_none_right_eq_some, Option.some.injEq] at hs
      obtain ⟨hl, hr⟩ := State.held_iff.1 hs.1
      exact hs.2 ▸ h.destroy hl hr
  | setMaxpar a b =>
      simp only [instStep, Option.some.injEq] at hs
      exact hs ▸ h.instanceSetMaxpar a b
  | pushEvent s e => exact h.tryPushEvent hs

/-- Nothing exists at the start. -/
theorem instanceInit (g : Graph) (ft : FullTest) (L pend : Int) :
    Accounted (State.instanceInit g ft L pend : State V) where
  count s := by
    rw [State.liveOf_eq_empty rfl]
    rfl
  recycled s i hi := by simp [State.instanceInit] at hi
  nodup s := by simp [State.instanceInit]
  fresh i hi := by simp [State.instanceInit] at hi

end Accounted

end Leda.Kernel
