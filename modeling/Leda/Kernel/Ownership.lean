import Leda.Kernel.Accounting
import Leda.Kernel.Scheduler
import Leda.Lib.Placement

/-!
# Who has an instance

An instance is handed around between the ready queue, the recycle queue of its
stage, the threads that work on it and the callbacks registered for it.  `Owned k h`
says that no two of them have the same instance, that none of them has an instance
that was freed, and that the accounts are right; `h t` lists what thread `t` holds.

Every primitive that touches an instance either moves it between the hands of one
thread and one of the shared places, or creates or destroys it in the hands of a
thread.  There is one rule for each, and a system of threads keeps `Owned` by naming,
for each of its steps, the rule that applies.
-/

universe u v

namespace Leda.Kernel

open Leda.Lib List

variable {U V : Type u} {T : Type v}

/-- Where an instance can be. -/
inductive Place (T : Type v)
  | ready
  | recycle (s : StageId)
  | hands (t : T)
  | registered
deriving DecidableEq

/-- The instances in a place; `h` says what is in the hands of each thread. -/
def places (k : State V) (h : T → List InstId) : Place T → List InstId
  | .ready => k.readyQueue.items.filterMap id
  | .recycle s => (k.recycleQueues s).items
  | .hands t => h t
  | .registered => k.registered.map Prod.fst

/-- **Every instance has at most one owner**, nothing that was freed has one, and the
accounts are right. -/
structure Owned (k : State V) (h : T → List InstId) : Prop where
  accounted : Accounted k
  exclusive : Exclusive (places k h)
  live : ∀ p, ∀ i ∈ places k h p, i ∈ k.live

/-- The two states differ in nothing that says where instances are. -/
structure Same (k k' : State V) : Prop where
  ready : k'.readyQueue.items = k.readyQueue.items
  recycle : ∀ s, (k'.recycleQueues s).items = (k.recycleQueues s).items
  registered : k'.registered = k.registered
  live : k'.live = k.live
  number : k'.numberOfInstances = k.numberOfInstances
  next : k'.nextInst = k.nextInst
  stage : ∀ i, k'.stageOf i = k.stageOf i

namespace Same

variable {k k' k'' : State V} {s : StageId} {i : InstId}

theorem refl (k : State V) : Same k k := ⟨rfl, fun _ ↦ rfl, rfl, rfl, rfl, rfl, fun _ ↦ rfl⟩

theorem trans (h : Same k k') (h' : Same k' k'') : Same k k'' :=
  ⟨h'.ready.trans h.ready, fun s ↦ (h'.recycle s).trans (h.recycle s),
    h'.registered.trans h.registered, h'.live.trans h.live, h'.number.trans h.number,
    h'.next.trans h.next, fun i ↦ (h'.stage i).trans (h.stage i)⟩

theorem modifyInst (k : State V) (i : InstId) (f : Instance V → Instance V) :
    Same k (k.modifyInst i f) :=
  ⟨rfl, fun _ ↦ rfl, rfl, rfl, rfl, rfl, fun _ ↦ State.stageOf_modifyInst⟩

theorem updateStats (k : State V) (s : StageId) (f : StageStats → StageStats) :
    Same k (k.updateStats s f) :=
  ⟨rfl, fun _ ↦ rfl, rfl, rfl, rfl, rfl, fun _ ↦ rfl⟩

theorem statsActive (k : State V) (s : StageId) : Same k (k.statsActive s) :=
  updateStats ..

theorem statsInactive (k : State V) (s : StageId) : Same k (k.statsInactive s) :=
  updateStats ..

theorem statsUpdateEvents (k : State V) (s : StageId) (con : ConnectorId) :
    Same k (k.statsUpdateEvents s con) :=
  ⟨rfl, fun _ ↦ rfl, rfl, rfl, rfl, rfl, fun _ ↦ rfl⟩

theorem tryPushEvent {e : List V} (hp : k.tryPushEvent s e = some k') : Same k k' := by
  obtain ⟨-, rfl⟩ := State.tryPushEvent_eq_some.1 hp
  exact ⟨rfl, fun _ ↦ rfl, rfl, rfl, rfl, rfl, fun _ ↦ rfl⟩

theorem tryPopEvent {e : List V} (hp : k.tryPopEvent s = some (e, k')) : Same k k' := by
  obtain ⟨q, -, -, rfl⟩ := State.tryPopEvent_eq_some.1 hp
  exact ⟨rfl, fun _ ↦ rfl, rfl, rfl, rfl, rfl, fun _ ↦ rfl⟩

theorem accounted (h : Same k k') (ha : Accounted k) : Accounted k' :=
  ha.frame h.live h.number h.next h.stage fun s ↦ by rw [h.recycle s]

theorem places {h : T → List InstId} (hs : Same k k') (p : Place T) :
    places k' h p = places k h p := by
  cases p with
  | ready => simp only [Kernel.places, hs.ready]
  | recycle s => exact hs.recycle s
  | hands t => rfl
  | registered => simp only [Kernel.places, hs.registered]

end Same

namespace Owned

variable {k k' : State V} {h h' : T → List InstId} {t : T} {i : InstId} {s : StageId}

/-- A change that moves no instance. -/
theorem same (ho : Owned k h) (hs : Same k k') : Owned k' h := by
  have hp : places k' h = places k h := funext hs.places
  exact ⟨hs.accounted ho.accounted, hp ▸ ho.exclusive, by rw [hp, hs.live]; exact ho.live⟩

/-- One instance moves from place `q` to place `p`. -/
theorem move {p q : Place T} (ho : Owned k h) (ha : Accounted k') (hl : k'.live = k.live)
    (hpq : p ≠ q) (hrest : ∀ r, r ≠ p → r ≠ q → places k' h' r = places k h r)
    (hq : i :: places k' h' q <+~ places k h q) (hp : places k' h' p <+~ i :: places k h p) :
    Owned k' h' := by
  refine ⟨ha, ho.exclusive.move hpq hrest hq hp, fun r j hj ↦ ?_⟩
  rw [hl]
  by_cases hrp : r = p
  · subst hrp
    rcases mem_cons.1 (hp.subset hj) with rfl | hj
    · exact ho.live q j (hq.subset mem_cons_self)
    · exact ho.live r j hj
  · by_cases hrq : r = q
    · subst hrq
      exact ho.live r j (hq.subset (mem_cons_of_mem _ hj))
    · exact ho.live r j (hrest r hrp hrq ▸ hj)

/-- What a thread holds is not idle. -/
theorem notMem_recycle (ho : Owned k h) (hi : i ∈ h t) (s : StageId) :
    i ∉ (k.recycleQueues s).items := fun hm ↦ by
  have := ho.exclusive.place_unique (p := .hands t) (q := .recycle s) hi hm
  simp at this

/-- A worker takes a request to end. -/
theorem takeNull (ho : Owned k h) (hp : k.popReady = some (none, k')) : Owned k' h := by
  obtain ⟨q, hi, -, rfl⟩ := State.popReady_eq_some.1 hp
  have hpl : places { k with readyQueue := q } h = places k h := by
    funext p
    cases p with
    | ready => simp only [places, hi, filterMap_cons, id]
    | _ => rfl
  refine ⟨ho.accounted.frame rfl rfl rfl (fun _ ↦ rfl) fun _ ↦ .refl _, hpl ▸ ho.exclusive, ?_⟩
  rw [hpl]
  exact ho.live

/-- A request to end a worker is queued. -/
theorem giveNull (ho : Owned k h) : Owned (k.pushReady none) h := by
  have hpl : places (k.pushReady none) h = places k h := by
    funext p
    cases p with
    | ready => simp [places]
    | _ => rfl
  refine ⟨ho.accounted.frame rfl rfl rfl (fun _ ↦ rfl) fun _ ↦ .refl _, hpl ▸ ho.exclusive, ?_⟩
  rw [hpl]
  exact ho.live

/-- The next instance is nowhere yet. -/
theorem nextInst_notMem (ho : Owned k h) (p : Place T) : k.nextInst ∉ places k h p :=
  fun hm ↦ ho.accounted.nextInst_notMem (ho.live p _ hm)

section Rules

variable [DecidableEq T] {l : List InstId}

/-- A thread drops instances, or lists them in another order. -/
theorem drop (ho : Owned k h) (ht : l <+~ h t) : Owned k (Function.update h t l) := by
  have hp : ∀ p, places k (Function.update h t l) p <+~ places k h p := by
    intro p
    cases p with
    | hands r =>
        by_cases hrt : r = t
        · subst hrt; simpa only [places, Function.update_self] using ht
        · simp only [places, Function.update_of_ne hrt, Subperm.refl]
    | _ => exact Subperm.refl _
  exact ⟨ho.accounted, ho.exclusive.mono hp, fun p i hi ↦ ho.live p i ((hp p).subset hi)⟩

/-- The places other than the hands of one thread and one shared place. -/
theorem places_update_of_ne {p : Place T}
    (hk : ∀ q : Place T, q ≠ p → (∀ r, q ≠ .hands r) → places k' h q = places k h q) :
    ∀ r, r ≠ .hands t → r ≠ p → places k' (Function.update h t l) r = places k h r := by
  intro r hrt hrp
  cases r with
  | hands r => exact Function.update_of_ne (fun e ↦ hrt (congrArg Place.hands e)) _ _
  | ready => exact hk .ready hrp (by simp)
  | recycle s => exact hk (.recycle s) hrp (by simp)
  | registered => exact hk .registered hrp (by simp)

/-- The hands of the thread itself. -/
theorem places_update_self : places k (Function.update h t l) (.hands t) = l :=
  Function.update_self ..

/-- A thread takes an idle instance. -/
theorem takeRecycle (ho : Owned k h) (hp : k.tryPopRecycle s = some (i, k'))
    (ht : l <+~ i :: h t) : Owned k' (Function.update h t l) := by
  have ha := ho.accounted.tryPopRecycle hp
  obtain ⟨q, hi, -, rfl⟩ := State.tryPopRecycle_eq_some.1 hp
  refine ho.move (i := i) (p := .hands t) (q := .recycle s) ha rfl (by simp)
    (places_update_of_ne fun p hps hph ↦ ?_) ?_ (by rw [places_update_self]; exact ht)
  · cases p with
    | recycle s' =>
        have hne : s' ≠ s := fun e ↦ hps (e ▸ rfl)
        simp only [places, Function.update_of_ne hne]
    | _ => rfl
  · simp only [places, Function.update_self, hi, Subperm.refl]

/-- A thread gives an instance back to the recycle queue of its stage. -/
theorem giveRecycle (ho : Owned k h) (hp : k.tryPushRecycle (k.stageOf i) i = some k')
    (ht : i :: l <+~ h t) : Owned k' (Function.update h t l) := by
  have hi : i ∈ h t := ht.subset mem_cons_self
  have ha := ho.accounted.recycle (ho.live (.hands t) i hi) (ho.notMem_recycle hi _) hp
  obtain ⟨-, rfl⟩ := State.tryPushRecycle_eq_some.1 hp
  refine ho.move (i := i) (p := .recycle (k.stageOf i)) (q := .hands t) ha rfl (by simp)
    (fun r h₁ h₂ ↦ places_update_of_ne (p := .recycle (k.stageOf i)) (fun p hps hph ↦ ?_) r h₂ h₁)
    (by rw [places_update_self]; exact ht) ?_
  · cases p with
    | recycle s' =>
        have hne : s' ≠ k.stageOf i := fun e ↦ hps (e ▸ rfl)
        simp only [places, Function.update_of_ne hne]
    | _ => rfl
  · simp only [places, Function.update_self, Fifo.items_append]
    exact (perm_append_singleton _ _).subperm

/-- A thread takes the instance at the head of the ready queue. -/
theorem takeReady (ho : Owned k h) (hp : k.popReady = some (some i, k'))
    (ht : l <+~ i :: h t) : Owned k' (Function.update h t l) := by
  obtain ⟨q, hi, -, rfl⟩ := State.popReady_eq_some.1 hp
  have ha : Accounted { k with readyQueue := q } :=
    ho.accounted.frame rfl rfl rfl (fun _ ↦ rfl) fun _ ↦ .refl _
  refine ho.move (i := i) (p := .hands t) (q := .ready) ha rfl (by simp)
    (places_update_of_ne fun p hps hph ↦ ?_) ?_ (by rw [places_update_self]; exact ht)
  · cases p with
    | ready => exact absurd rfl hps
    | _ => rfl
  · simp only [places, hi, filterMap_cons, id, Subperm.refl]

/-- A thread puts an instance into the ready queue. -/
theorem giveReady (ho : Owned k h) (ht : i :: l <+~ h t) :
    Owned (k.pushReadyQueue i) (Function.update h t l) := by
  have ha : Accounted (k.pushReadyQueue i) :=
    ho.accounted.frame rfl rfl rfl (fun _ ↦ rfl) fun _ ↦ .refl _
  refine ho.move (i := i) (p := .ready) (q := .hands t) ha rfl (by simp)
    (fun r h₁ h₂ ↦ places_update_of_ne (p := .ready) (fun p hps hph ↦ ?_) r h₂ h₁)
    (by rw [places_update_self]; exact ht) ?_
  · cases p with
    | ready => exact absurd rfl hps
    | _ => rfl
  · simp only [places, State.pushReadyQueue, State.pushReady, Fifo.items_append,
      filterMap_append, filterMap_cons, filterMap_nil, id]
    exact (perm_append_singleton _ _).subperm

/-- A thread leaves an instance to a callback. -/
theorem giveRegistered (ho : Owned k h) (c : Completion) (ht : i :: l <+~ h t) :
    Owned (k.register i c) (Function.update h t l) := by
  have ha : Accounted (k.register i c) :=
    ho.accounted.frame rfl rfl rfl (fun _ ↦ rfl) fun _ ↦ .refl _
  refine ho.move (i := i) (p := .registered) (q := .hands t) ha rfl (by simp)
    (fun r h₁ h₂ ↦ places_update_of_ne (p := .registered) (fun p hps hph ↦ ?_) r h₂ h₁)
    (by rw [places_update_self]; exact ht) ?_
  · cases p with
    | registered => exact absurd rfl hps
    | _ => rfl
  · simp only [places, State.register, map_append, map_cons, map_nil]
    exact (perm_append_singleton _ _).subperm

/-- A callback hands its instance to the thread that runs it. -/
theorem takeRegistered {c : Completion} (ho : Owned k h) (hi : (i, c) ∈ k.registered)
    (ht : l <+~ i :: h t) :
    Owned { k with registered := k.registered.erase (i, c) } (Function.update h t l) := by
  have ha : Accounted { k with registered := k.registered.erase (i, c) } :=
    ho.accounted.frame rfl rfl rfl (fun _ ↦ rfl) fun _ ↦ .refl _
  refine ho.move (i := i) (p := .hands t) (q := .registered) ha rfl (by simp)
    (places_update_of_ne fun p hps hph ↦ ?_) ?_ (by rw [places_update_self]; exact ht)
  · cases p with
    | registered => exact absurd rfl hps
    | _ => rfl
  · exact ((perm_cons_erase hi).map Prod.fst).symm.subperm

/-- A thread creates an instance. -/
theorem create (ho : Owned k h) (s : StageId) (ht : l <+~ k.nextInst :: h t) :
    Owned (((k.statsActive s).addInstances s 1).newInstance s) (Function.update h t l) := by
  have hrest : ∀ r, r ≠ Place.hands t → places (((k.statsActive s).addInstances s 1).newInstance s)
      (Function.update h t l) r = places k h r := by
    intro r hrt
    cases r with
    | hands r => exact Function.update_of_ne (fun e ↦ hrt (congrArg Place.hands e)) _ _
    | _ => rfl
  refine ⟨ho.accounted.newInstance s, ho.exclusive.insert_fresh (p := .hands t)
    ho.nextInst_notMem hrest (by rw [places_update_self]; exact ht), fun r j hj ↦ ?_⟩
  by_cases hrt : r = .hands t
  · subst hrt
    rw [places_update_self] at hj
    rcases mem_cons.1 (ht.subset hj) with rfl | hj
    · exact Finset.mem_insert_self _ _
    · exact Finset.mem_insert_of_mem (ho.live (.hands t) j hj)
  · rw [hrest r hrt] at hj
    exact Finset.mem_insert_of_mem (ho.live r j hj)

/-- A thread destroys an instance it holds. -/
theorem destroy (ho : Owned k h) (ht : i :: l <+~ h t) :
    Owned (k.instanceDestroy i) (Function.update h t l) := by
  have hi : i ∈ h t := ht.subset mem_cons_self
  have hdrop := ho.drop ((sublist_cons_self i l).subperm.trans ht)
  refine ⟨ho.accounted.destroy (ho.live (.hands t) i hi) (ho.notMem_recycle hi _),
    hdrop.exclusive, fun p j hj ↦ ?_⟩
  refine Finset.mem_erase.2 ⟨?_, hdrop.live p j hj⟩
  rintro rfl
  -- the destroyed instance is in no other place, and no longer in the hands
  by_cases hpt : p = .hands t
  · subst hpt
    have hj' : j ∈ l := by simpa only [places, Function.update_self] using hj
    exact (nodup_cons.1 (nodup_of_subperm ht (ho.exclusive.nodup (.hands t)))).1 hj'
  · have hp' : j ∈ places k h p := by
      cases p with
      | hands r =>
          have hne : r ≠ t := fun e ↦ hpt (congrArg Place.hands e)
          simpa only [places, Function.update_of_ne hne] using hj
      | _ => exact hj
    exact hpt (ho.exclusive.place_unique hp' hi)

end Rules

/-- Nothing is anywhere at the start. -/
theorem instanceInit (g : Graph) (ft : FullTest) (L pend : Int) :
    Owned (State.instanceInit g ft L pend : State V) fun _ : T ↦ [] := by
  have hp : places (State.instanceInit g ft L pend : State V) (fun _ : T ↦ []) =
      fun _ ↦ [] := by
    funext p
    cases p <;> rfl
  refine ⟨.instanceInit g ft L pend, hp ▸ .empty, fun p i hi ↦ ?_⟩
  rw [hp] at hi
  cases hi

end Owned

end Leda.Kernel
