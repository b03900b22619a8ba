import Leda.Kernel.System

/-!
# The active counter

`sstats[s].active` goes up inside `instance_aquire` and down wherever an instance is released
or destroyed, by whoever does that.  `drift` is what the counter shows too much.  In the places
that pair the two it does not change; there are two that do not.  An instance whose `init`
chunk fails is destroyed inside `instance_aquire`, after `STATS_ACTIVE`, and an instance that
yields an unknown status is destroyed without `STATS_INACTIVE`.

Nothing ever makes up for a drift: the two resets do not store to `active`.  So the
counter of a stage tells the truth in a state of a run iff neither has happened to an
instance of that stage before (`truthful_iff`).
-/

universe u

namespace Leda.Kernel

open Leda.Lib List

variable {U V : Type u}

namespace State

/-- `stats_reset`.  The counters of the times are not part of the state. -/
def statsReset (k : State V) : State V :=
  { k with
    sstats := fun s ↦
      if 0 ≤ s ∧ s < k.graph.nS then { k.sstats s with executed := 0, events := 0, error := 0 }
      else k.sstats s
    cstats := fun _ ↦ 0 }

/-- The live instances of a stage that are not in its recycle queue. -/
def busy (k : State V) (s : StageId) : Finset InstId :=
  (k.liveOf s).filter fun i ↦ i ∉ (k.recycleQueues s).items

/-- What the active counter of a stage shows too much. -/
def drift (k : State V) (s : StageId) : Int :=
  (k.sstats s).active - k.numberOfInstances s + (k.recycleQueues s).items.length

/-- `instance_aquire` creates an instance. -/
def Creates (k : State V) (s : StageId) : Prop :=
  ¬ k.graph.Beyond s ∧ (k.recycleQueues s).items = [] ∧
    k.numberOfInstances s ≠ k.recycleQueueLimits s

instance (k : State V) (s : StageId) : Decidable (k.Creates s) :=
  inferInstanceAs (Decidable (_ ∧ _))

/-- `instance_aquire` of `dst` creates an instance of `s` whose `init` fails. -/
def initFailure (k : State V) (dst : StageId) (c : Creation) (s : StageId) : Bool :=
  decide (dst = s ∧ k.Creates dst ∧ c = .initFails)

end State

/-! ## What the functions do to the drift -/

section Drift

variable {xf : Transfer U V} {k k' : State V} {s dst : StageId} {c : Creation} {i : InstId}

/-- The accounts give the number of busy instances. -/
theorem Accounted.card_busy (h : Accounted k) (s : StageId) :
    ((k.busy s).card : Int) = k.numberOfInstances s - (k.recycleQueues s).items.length := by
  have hidle : (k.liveOf s).filter (fun i ↦ i ∈ (k.recycleQueues s).items) =
      (k.recycleQueues s).items.toFinset := by
    ext i
    rw [Finset.mem_filter, mem_toFinset, State.mem_liveOf]
    exact ⟨fun hi ↦ hi.2, fun hi ↦ ⟨h.recycled s i hi, hi⟩⟩
  have hsum := Finset.card_filter_add_card_filter_not (s := k.liveOf s)
    fun i ↦ i ∈ (k.recycleQueues s).items
  rw [hidle, toFinset_card_of_nodup (h.nodup s)] at hsum
  rw [h.count, State.busy]
  omega

/-- The counter is right iff there is no drift. -/
theorem Accounted.drift_eq_zero (h : Accounted k) (s : StageId) :
    k.drift s = 0 ↔ (k.sstats s).active = ((k.busy s).card : Int) := by
  rw [h.card_busy, State.drift]
  omega

/-- What moves no instance and does not change the counter. -/
theorem drift_same (h : Same k k') (ha : ∀ s, (k'.sstats s).active = (k.sstats s).active)
    (s : StageId) : k'.drift s = k.drift s := by
  rw [State.drift, State.drift, ha, h.number, h.recycle]

theorem active_statsUpdateEvents (p : StageId) (con : ConnectorId) (s : StageId) :
    ((k.statsUpdateEvents p con).sstats s).active = (k.sstats s).active := by
  simp only [State.statsUpdateEvents]
  split
  · rename_i h
    rw [h.2]
  · rfl

theorem drift_statsUpdateEvents (p : StageId) (con : ConnectorId) (s : StageId) :
    (k.statsUpdateEvents p con).drift s = k.drift s :=
  drift_same (.statsUpdateEvents ..) (active_statsUpdateEvents p con) s

/-- Destroying an instance that has not become inactive leaves the counter too high. -/
theorem drift_instanceDestroy (s : StageId) :
    (k.instanceDestroy i).drift s = k.drift s + (decide (k.stageOf i = s)).toNat := by
  by_cases hs : k.stageOf i = s
  · subst hs
    simp [State.drift, State.instanceDestroy]
    omega
  · simp [State.drift, State.instanceDestroy, Ne.symm hs, hs]

theorem drift_statsInactive (p s : StageId) :
    (k.statsInactive p).drift s = k.drift s - (decide (p = s)).toNat := by
  by_cases hs : p = s
  · subst hs
    simp [State.drift]
    omega
  · simp [State.drift, Ne.symm hs, hs]

theorem drift_statsActive (p s : StageId) :
    (k.statsActive p).drift s = k.drift s + (decide (p = s)).toNat := by
  by_cases hs : p = s
  · subst hs
    simp [State.drift]
    omega
  · simp [State.drift, Ne.symm hs, hs]

/-- An instance that becomes inactive and is destroyed is accounted for. -/
theorem drift_inactive_destroy (s : StageId) :
    ((k.statsInactive (k.stageOf i)).instanceDestroy i).drift s = k.drift s := by
  rw [drift_instanceDestroy, drift_statsInactive]
  exact Int.sub_add_cancel _ _

theorem drift_newInstance (s : StageId) :
    (((k.statsActive dst).addInstances dst 1).newInstance dst).drift s = k.drift s := by
  by_cases hs : dst = s
  · subst hs
    simp [State.drift, State.newInstance, Int.add_sub_add_right]
  · simp [State.drift, State.newInstance, Ne.symm hs]

/-- **`instance_aquire` pairs what it counts**, unless it destroys the instance again. -/
theorem drift_instanceAquire (h : Accounted k) (dst : StageId) (c : Creation) (s : StageId) :
    (k.instanceAquire dst c).1.drift s = k.drift s + (k.initFailure dst c s).toNat := by
  have hc := k.instanceAquire_cases dst c
  generalize k.instanceAquire dst c = r at hc ⊢
  have hnone (hn : ¬ k.Creates dst) : k.drift s + (k.initFailure dst c s).toNat = k.drift s := by
    rw [State.initFailure, decide_eq_false fun hf ↦ hn hf.2.1]
    exact Int.add_zero _
  cases hc with
  | refused hr =>
      rw [hnone]
      rintro ⟨hb, hi, hl⟩
      rcases hr with hr | hr
      · exact hb hr
      · exact hl hr.2
  | @recycled i k' hs hp =>
      obtain ⟨q, hi, -, rfl⟩ := State.tryPopRecycle_eq_some.1 hp
      have hcr : ¬ k.Creates dst := fun hcr ↦ by
        rw [hcr.2.1] at hi
        cases hi
      have hstage : k.stageOf i = dst := (h.recycled dst i (hi ▸ mem_cons_self)).2
      change (State.statsActive { k with recycleQueues := _ } (k.stageOf i)).drift s = _
      rw [hnone hcr, drift_statsActive, hstage]
      by_cases hds : dst = s
      · subst hds
        simp [State.drift, hi]
        omega
      · simp [State.drift, hds, Ne.symm hds]
  | created hs hi hl =>
      have hcr : k.Creates dst := ⟨hs, hi, hl⟩
      cases c with
      | ok | loadFails =>
          rw [State.initFailure, decide_eq_false fun hf ↦ (by cases hf.2.2)]
          exact (drift_newInstance s).trans (Int.add_zero _).symm
      | initFails =>
          change ((((k.statsActive dst).addInstances dst 1).newInstance dst).instanceDestroy
            k.nextInst).drift s = _
          rw [drift_instanceDestroy, drift_newInstance]
          have hself : (((k.statsActive dst).addInstances dst 1).newInstance dst).stageOf
              k.nextInst = dst := State.stageOf_newInstance_self
          have hf : k.initFailure dst .initFails s = decide (dst = s) :=
            decide_eq_decide.2 ⟨fun hf ↦ hf.1, fun hd ↦ ⟨hd, hcr, rfl⟩⟩
          rw [hself, hf]

/-- An instance that becomes idle without becoming inactive leaves the counter too high. -/
theorem drift_tryPushRecycle (hp : k.tryPushRecycle dst i = some k') (s : StageId) :
    k'.drift s = k.drift s + (decide (dst = s)).toNat := by
  obtain ⟨-, rfl⟩ := State.tryPushRecycle_eq_some.1 hp
  by_cases hs : dst = s
  · subst hs
    simp [State.drift]
    omega
  · simp [State.drift, hs, Ne.symm hs]

/-- `instance_release` pairs what it counts. -/
theorem drift_instanceRelease (s : StageId) :
    (k.instanceRelease i).1.drift s = k.drift s := by
  -- the state when the stack is cleared
  set k₀ := k.modifyInst i fun d ↦ { d with stack := [] } with hk₀
  have hst : k₀.stageOf i = k.stageOf i := State.stageOf_modifyInst
  rcases k.instanceRelease_cases i with ⟨e, k', hp, he⟩ | ⟨-, -, he⟩ | ⟨-, k', hp, he⟩ <;> rw [he]
  · obtain ⟨q, -, -, rfl⟩ := State.tryPopEvent_eq_some.1 hp
    change ((State.statsInactive { k₀ with eventQueues := _ } (k.stageOf i)).statsActive
      (k.stageOf i)).drift s = _
    rw [drift_statsActive, drift_statsInactive]
    exact Int.sub_add_cancel _ _
  · change ((k₀.statsInactive (k.stageOf i)).instanceDestroy i).drift s = _
    rw [← hst, drift_inactive_destroy]
    rfl
  · rw [drift_tryPushRecycle hp, drift_statsInactive]
    exact Int.sub_add_cancel _ _

/-- A send counts what `instance_aquire` counts. -/
theorem drift_delivery {ok : Prop} {o : Option (List V)} (h : Accounted k)
    (hd : Delivery k dst c ok k' o) (s : StageId) :
    k'.drift s = k.drift s + (k.initFailure dst c s).toNat := by
  have haq := drift_instanceAquire h dst c s
  cases hd with
  | @queued k₁ k₂ e p con hok ha hp =>
      rw [ha] at haq
      obtain ⟨-, rfl⟩ := State.tryPushEvent_eq_some.1 hp
      rw [drift_statsUpdateEvents]
      exact haq
  | notQueued ha =>
      rw [ha] at haq
      exact haq
  | handed p con ha hf =>
      rw [ha] at haq
      rw [drift_statsUpdateEvents]
      exact haq
  | wasted f ha =>
      rw [ha] at haq
      exact haq

/-- An instance that yielded with a status that keeps it counts as before. -/
theorem drift_settle (φ : Fate V) (s : StageId) : (k.settle i φ).1.drift s = k.drift s := by
  cases φ <;> rfl

/-- `emmit_cohort` counts what `instance_aquire` counts. -/
theorem drift_emmitCohort {con : ConnectorId} {args : List U} (h : Accounted k) (s : StageId) :
    (k.emmitCohort xf i dst con args c).1.drift s =
      k.drift s + (k.initFailure dst c s).toNat := by
  have haq := drift_instanceAquire h dst c s
  unfold State.emmitCohort
  rcases ha : k.instanceAquire dst c with ⟨k₁, _ | callee⟩
  · rw [ha] at haq
    exact haq
  · rw [ha] at haq
    dsimp only
    split
    · exact haq
    · exact haq
    · rw [drift_statsUpdateEvents]
      exact haq

/-- The instance that leaves was of `s` and is destroyed without becoming inactive, or it fails
to create one of `s`. -/
def Yield.strays (k : State V) (i : InstId) (s : StageId) : Yield U → Bool
  | .unknown => decide (k.stageOf i = s)
  | .cohort dst _ _ c => k.initFailure dst c s
  | _ => false

/-- **The dispatcher pairs what it counts**, except for an unknown status. -/
theorem drift_threadReturn (h : Accounted k) (y : Yield U) (s : StageId) :
    (k.threadReturn xf i y).1.drift s = k.drift s + (y.strays k i s).toNat := by
  -- the state when the coroutine has left
  set k₀ := k.modifyInst i fun d ↦ { d with suspended := y.inside } with hk₀
  have hst : k₀.stageOf i = k.stageOf i := State.stageOf_modifyInst
  cases y with
  | ended => exact (drift_instanceRelease (k := k₀) s).trans (Int.add_zero _).symm
  | pcallError =>
      have hk : (k₀.statsUpdateError (k₀.stageOf i)).drift s = k₀.drift s :=
        drift_same (.updateStats ..) (fun s' ↦ by
          by_cases hs : s' = k₀.stageOf i
          · subst hs
            simp
          · simp [hs]) s
      have hd := drift_inactive_destroy (k := k₀.statsUpdateError (k₀.stageOf i)) (i := i) s
      exact (hd.trans hk).trans (Int.add_zero _).symm
  | destroy => exact (drift_inactive_destroy (k := k₀) s).trans (Int.add_zero _).symm
  | unknown =>
      change (k₀.instanceDestroy i).drift s = _
      rw [drift_instanceDestroy, hst]
      rfl
  | cohort dst con args c => exact drift_emmitCohort (h.modifyInst _) s
  | nice | remote args written | waitIo fd mode armed | fileIo file mode arg submitted
  | sleep timer armed => exact (drift_settle (k := k₀) _ s).trans (Int.add_zero _).symm

theorem drift_complete {o : Completion} {r : Outcome} (hc : k.complete i o r = some k')
    (s : StageId) : k'.drift s = k.drift s := by
  unfold State.complete at hc
  obtain ⟨-, hc⟩ := Option.ite_none_right_eq_some.1 hc
  obtain rfl := Option.some.inj hc
  rfl

theorem drift_instanceSetMaxpar (a : Int) (b : Option Int) (s : StageId) :
    (k.instanceSetMaxpar a b).1.drift s = k.drift s := by
  refine drift_same (System.same_instanceSetMaxpar k a b) (fun s ↦ ?_) s
  rcases k.instanceSetMaxpar_cases a b with he | ⟨p, -, -, he⟩ <;> rw [he]
  rfl

theorem drift_ledaSetCapacity (a cap : Int) (s : StageId) :
    (k.ledaSetCapacity a cap).1.drift s = k.drift s := by
  refine drift_same (System.same_ledaSetCapacity k a cap) (fun s ↦ ?_) s
  unfold State.ledaSetCapacity
  dsimp only
  split
  · rfl
  · split <;> rfl

theorem same_statsReset : Same k k.statsReset :=
  ⟨rfl, fun _ ↦ rfl, rfl, rfl, rfl, rfl, fun _ ↦ rfl⟩

/-- `stats_reset` leaves the active counters alone. -/
theorem drift_statsReset (s : StageId) : k.statsReset.drift s = k.drift s := by
  refine drift_same same_statsReset (fun s ↦ ?_) s
  simp only [State.statsReset]
  split <;> rfl

end Drift

/-! ## Runs -/

/-- An operation, or a reset of the statistics. -/
inductive StatsOp (U V : Type u)
  | op (o : Op U V)
  | statsReset
  | statsLatencyReset

namespace System

variable {xf : Transfer U V} {σ σ' : System V} {s : StageId}

/-- One operation or reset; `stats_latency_reset` stores to the counters of the times only,
which are not part of the state. -/
def statsStep (xf : Transfer U V) (σ : System V) : StatsOp U V → Option (System V)
  | .op o => step xf σ o
  | .statsReset => some { σ with kernel := σ.kernel.statsReset }
  | .statsLatencyReset => some σ

/-- **The operation lets the counter of `s` stray**: an instance of `s` is created and its
`init` fails, or one yields an unknown status. -/
def strays (σ : System V) (s : StageId) : StatsOp U V → Bool
  | .op (.emmit _ dst _ c _) => σ.kernel.graph.isLocal dst && σ.kernel.initFailure dst c s
  | .op (.packed dst _ c) => σ.kernel.initFailure dst c s
  | .op (.ret i y) => y.strays σ.kernel i s
  | _ => false

theorem drift_call (σ : System V) (i : InstId) (s : StageId) :
    (σ.call i).kernel.drift s = σ.kernel.drift s := by
  obtain ⟨f, hf⟩ := σ.call_kernel i
  rw [hf]
  rfl

theorem drift_deliver (dst : StageId) (k : State V) (o : Option (List V)) (s : StageId) :
    (σ.deliver dst k o).kernel.drift s = k.drift s := by
  cases o <;> rfl

theorem drift_step {o : Op U V} (ho : σ.Owns) (hs : step xf σ o = some σ') (s : StageId) :
    σ'.kernel.drift s = σ.kernel.drift s + (σ.strays s (.op o)).toNat := by
  have ha := ho.accounted
  cases step_cases hs with
  | @emmit con dst args c reply k e hloc h =>
      rw [drift_deliver, drift_delivery ha h, strays, hloc, Bool.true_and]
  | @remote con dst args c reply k hloc h =>
      rw [strays, hloc, Bool.false_and]
      rcases h with rfl | rfl
      · exact (Int.add_zero _).symm
      · exact (drift_statsUpdateEvents _ con s).trans (Int.add_zero _).symm
  | packed h => rw [drift_deliver, drift_delivery ha h, strays]
  | dispatch h =>
      obtain ⟨q, -, -, rfl⟩ := State.popReady_eq_some.1 h
      rw [drift_call]
      exact (Int.add_zero _).symm
  | dispatchNull h =>
      obtain ⟨q, -, -, rfl⟩ := State.popReady_eq_some.1 h
      exact (Int.add_zero _).symm
  | @ret i y hi h => exact drift_threadReturn ha y s
  | @pass i callee dst con args c hi h =>
      rw [drift_call]
      exact drift_threadReturn ha (.cohort dst con args c) s
  | callback h => exact (drift_complete h s).trans (Int.add_zero _).symm
  | kill => exact (Int.add_zero _).symm
  | setMaxpar => exact (drift_instanceSetMaxpar _ _ s).trans (Int.add_zero _).symm
  | setCapacity => exact (drift_ledaSetCapacity _ _ s).trans (Int.add_zero _).symm

/-- **One step.** -/
theorem drift_statsStep {o : StatsOp U V} (ho : σ.Owns) (hs : statsStep xf σ o = some σ')
    (s : StageId) :
    σ'.Owns ∧ σ'.kernel.drift s = σ.kernel.drift s + (σ.strays s o).toNat := by
  cases o with
  | op o => exact ⟨owns_step ho hs, drift_step ho hs s⟩
  | statsReset =>
      cases hs
      exact ⟨ho.same same_statsReset, (drift_statsReset s).trans (Int.add_zero _).symm⟩
  | statsLatencyReset =>
      cases hs
      exact ⟨ho, (Int.add_zero _).symm⟩

/-- The steps of a run that let the counter of `s` stray. -/
def strayed (s : StageId) (tr : List (System V × StatsOp U V)) : Nat :=
  tr.countP fun p ↦ p.1.strays s p.2

theorem strayed_eq_zero {tr : List (System V × StatsOp U V)} :
    strayed s tr = 0 ↔ ∀ p ∈ tr, p.1.strays s p.2 = false := by
  simp only [strayed, countP_eq_zero, Bool.not_eq_true]

/-- **The counter of a stage shows one too much for each step that let it stray.** -/
theorem drift_eq_strayed {g : Graph} {ft : FullTest} {L pend : Int}
    {tr : List (System V × StatsOp U V)} (h : Run (statsStep xf) (init g ft L pend) tr σ)
    (s : StageId) : σ.Owns ∧ σ.kernel.drift s = strayed s tr := by
  induction h with
  | nil => exact ⟨owns_init g ft L pend, rfl⟩
  | @snoc tr σ σ' o _ hs ih =>
      obtain ⟨ho, hd⟩ := drift_statsStep ih.1 hs s
      refine ⟨ho, ?_⟩
      rw [hd, ih.2, strayed, strayed, countP_append, countP_singleton]
      cases σ.strays s o <;> rfl

/-- **The active counter of a stage tells the truth.** -/
structure Truthful (σ : System V) (s : StageId) : Prop where
  active : (σ.kernel.sstats s).active = ((σ.kernel.busy s).card : Int)
  idle : (∀ i ∈ σ.kernel.liveOf s, i ∈ (σ.kernel.recycleQueues s).items) →
    (σ.kernel.sstats s).active = 0

/-- **The counter tells the truth iff no step let it stray.** -/
theorem truthful_iff (xf : Transfer U V) (g : Graph) (ft : FullTest) (L pend : Int)
    {tr : List (System V × StatsOp U V)} (h : Run (statsStep xf) (init g ft L pend) tr σ)
    (s : StageId) : σ.Truthful s ↔ ∀ p ∈ tr, p.1.strays s p.2 = false := by
  obtain ⟨ho, hd⟩ := drift_eq_strayed h s
  have hzero := ho.accounted.drift_eq_zero s
  rw [← strayed_eq_zero]
  refine ⟨fun ht ↦ ?_, fun hs ↦ ?_⟩
  · have hz := hzero.2 ht.active
    omega
  · have hactive := hzero.1 (by rw [hd, hs]; rfl)
    refine ⟨hactive, fun hidle ↦ ?_⟩
    have hempty : σ.kernel.busy s = ∅ :=
      Finset.filter_eq_empty_iff.2 fun i hi ↦ not_not.2 (hidle i hi)
    rw [hactive, hempty]
    rfl

/-- An instance is created, ends, and waits in the recycle queue; the statistics are reset; then
it takes a second event and fails. -/
def endsAndFails : List (StatsOp Nat Nat) :=
  [.op (.packed 0 [1] .ok), .op .dispatch, .op (.ret 0 .ended), .statsReset,
    .op (.packed 0 [2] .ok), .statsLatencyReset, .op .dispatch, .op (.ret 0 .pcallError)]

theorem truthful_iff_endsAndFails : ∃ σ : System Nat,
    exec (statsStep (.plain Nat)) (init (.single false) .exactly (-1) (-1)) endsAndFails = some σ ∧
    (σ.Truthful 0 ↔ ∀ p ∈ execTrace (statsStep (.plain Nat))
      (init (.single false) .exactly (-1) (-1)) endsAndFails, p.1.strays 0 p.2 = false) := by
  obtain ⟨σ, hσ⟩ : ∃ σ, exec (statsStep (.plain Nat)) (init (.single false) .exactly (-1) (-1))
      endsAndFails = some σ := ⟨_, rfl⟩
  exact ⟨σ, hσ, truthful_iff _ _ _ _ _ (Run.of_exec hσ) 0⟩

/-- **The counter does not tell the truth in general**: after an event for a stage whose `init`
fails it is one, and there is no instance. -/
theorem not_truthful : ¬ ∀ (xf : Transfer Nat Nat) (g : Graph) (ft : FullTest) (L pend : Int)
    (tr : List (System Nat × StatsOp Nat Nat)) (σ : System Nat) (s : StageId),
    Run (statsStep xf) (init g ft L pend) tr σ → σ.Truthful s := by
  intro h
  obtain ⟨σ, hσ⟩ : ∃ σ, exec (statsStep (.plain Nat)) (init (.single false) .exactly (-1) (-1))
      [.op (.packed 0 [1] .initFails)] = some σ := ⟨_, rfl⟩
  have ht := h _ _ _ _ _ _ σ 0 (Run.of_exec hσ)
  obtain rfl := Option.some.inj hσ
  exact absurd (ht.idle (by decide)) (by decide)

end System

end Leda.Kernel
