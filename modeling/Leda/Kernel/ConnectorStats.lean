import Leda.Kernel.Pending

/-!
# The statistics of the connectors

Each way of sending an event counts it by itself, under its connector and under a stage.
`emmit` to a local stage counts what the queue or an instance has taken, `emmit_cohort` what
it was granted, and `do_read_ack` what was acknowledged.  Two things go wrong.
`emmit_remote_sync` does not look at the answer of `send_sync_event` before it counts.  And
while `emmit` counts under the producer of the connector, `emmit_cohort` and `do_read_ack` do so
under the stage of the sender, which need not be the producer.

A machine logs what every send has reported to its handler.  The counters agree with the
log throughout a run iff every step is `Fair`: no send to another process fails after it was
written, and no instance of another stage succeeds on a path that counts under its own
(`exact_iff`).
-/

universe u

namespace Leda.Kernel

open Leda.Lib List

variable {U V : Type u}

/-- What `STATS_UPDATE_EVENTS` is called with, if at all. -/
abbrev Update := Option (StageId × ConnectorId)

namespace Update

/-- What the counter of a stage goes up by. -/
def stage : Update → StageId → Int
  | some (p, con), s => if 0 ≤ con ∧ p = s then 1 else 0
  | none, _ => 0

/-- What the counter of a connector goes up by. -/
def connector : Update → ConnectorId → Int
  | some (_, con), c => if 0 ≤ con ∧ con = c then 1 else 0
  | none, _ => 0

/-- Two updates have the same effect. -/
def Same (u v : Update) : Prop :=
  (∀ s, u.stage s = v.stage s) ∧ ∀ c, u.connector c = v.connector c

theorem connector_of_neg (u : Update) {c : ConnectorId} (h : c < 0) : u.connector c = 0 := by
  cases u with
  | none => rfl
  | some p => exact if_neg fun h' ↦ Int.not_lt.2 (h'.2 ▸ h'.1) h

theorem Same.refl (u : Update) : u.Same u := ⟨fun _ ↦ rfl, fun _ ↦ rfl⟩

/-- Counting has no effect only for a send that does not belong to a connector. -/
theorem same_none {p : StageId} {con : ConnectorId} : Same (some (p, con)) none ↔ con < 0 := by
  refine ⟨fun h ↦ ?_, fun h ↦ ⟨fun s ↦ ?_, fun c ↦ ?_⟩⟩
  · by_contra hcon
    have hc : (if 0 ≤ con ∧ con = con then (1 : Int) else 0) = 0 := h.2 con
    rw [if_pos ⟨Int.not_lt.1 hcon, rfl⟩] at hc
    cases hc
  · exact if_neg fun h' ↦ Int.not_lt.2 h'.1 h
  · exact if_neg fun h' ↦ Int.not_lt.2 h'.1 h

/-- Counting one event of a connector under two stages. -/
theorem same_some {p q : StageId} {con : ConnectorId} :
    Same (some (p, con)) (some (q, con)) ↔ con < 0 ∨ p = q := by
  refine ⟨fun h ↦ ?_, fun h ↦ ?_⟩
  · by_contra hor
    obtain ⟨hcon, hpq⟩ := not_or.1 hor
    have hs : (if 0 ≤ con ∧ p = p then (1 : Int) else 0) = if 0 ≤ con ∧ q = p then 1 else 0 :=
      h.1 p
    rw [if_pos ⟨Int.not_lt.1 hcon, rfl⟩, if_neg fun h' ↦ hpq h'.2.symm] at hs
    cases hs
  · rcases h with h | rfl
    · have hp := same_none (p := p).2 h
      have hq := same_none (p := q).2 h
      exact ⟨fun s ↦ (hp.1 s).trans (hq.1 s).symm, fun c ↦ (hp.2 c).trans (hq.2 c).symm⟩
    · exact .refl _

end Update

/-- The step from `k` to `k'` counts one event, or none. -/
structure Counts (k k' : State V) (u : Update) : Prop where
  graph : k'.graph = k.graph
  events : ∀ s, (k'.sstats s).events = (k.sstats s).events + u.stage s
  cstats : ∀ c, k'.cstats c = k.cstats c + u.connector c

namespace Counts

variable {k k₁ k₂ : State V} {u : Update} {s dst : StageId} {c : Creation} {i : InstId}

/-- What leaves the counters alone. -/
theorem of_eq (hg : k₁.graph = k.graph) (hs : ∀ s, (k₁.sstats s).events = (k.sstats s).events)
    (hc : k₁.cstats = k.cstats) : Counts k k₁ none :=
  ⟨hg, fun s ↦ (hs s).trans (Int.add_zero _).symm,
    fun c ↦ (congrFun hc c).trans (Int.add_zero _).symm⟩

theorem refl (k : State V) : Counts k k none := of_eq rfl (fun _ ↦ rfl) rfl

theorem after (h' : Counts k₁ k₂ u) (h : Counts k k₁ none) : Counts k k₂ u := by
  refine ⟨h'.graph.trans h.graph, fun s ↦ ?_, fun c ↦ ?_⟩
  · rw [h'.events, h.events]
    exact congrArg (· + _) (Int.add_zero _)
  · rw [h'.cstats, h.cstats]
    exact congrArg (· + _) (Int.add_zero _)

theorem before (h : Counts k k₁ u) (h' : Counts k₁ k₂ none) : Counts k k₂ u := by
  refine ⟨h'.graph.trans h.graph, fun s ↦ ?_, fun c ↦ ?_⟩
  · rw [h'.events, h.events]
    exact Int.add_zero _
  · rw [h'.cstats, h.cstats]
    exact Int.add_zero _

theorem statsUpdateEvents (k : State V) (p : StageId) (con : ConnectorId) :
    Counts k (k.statsUpdateEvents p con) (some (p, con)) := by
  refine ⟨rfl, fun s ↦ ?_, fun c ↦ ?_⟩
  · simp only [State.statsUpdateEvents, Update.stage]
    by_cases h : 0 ≤ con ∧ s = p
    · rw [if_pos h, if_pos ⟨h.1, h.2.symm⟩, h.2]
    · rw [if_neg h, if_neg fun h' ↦ h ⟨h'.1, h'.2.symm⟩, Int.add_zero]
  · simp only [State.statsUpdateEvents, Update.connector]
    by_cases h : 0 ≤ con ∧ c = con
    · rw [if_pos h, if_pos ⟨h.1, h.2.symm⟩, h.2]
    · rw [if_neg h, if_neg fun h' ↦ h ⟨h'.1, h'.2.symm⟩, Int.add_zero]

/-- The counters of the events are not those of the instances. -/
theorem updateStats (k : State V) (p : StageId) {f : StageStats → StageStats}
    (hf : ∀ x, (f x).events = x.events) : Counts k (k.updateStats p f) none := by
  refine of_eq rfl (fun s ↦ ?_) rfl
  by_cases hs : s = p
  · subst hs
    simp [hf]
  · simp [hs]

theorem statsActive (k : State V) (p : StageId) : Counts k (k.statsActive p) none :=
  updateStats k p fun _ ↦ rfl

theorem statsInactive (k : State V) (p : StageId) : Counts k (k.statsInactive p) none :=
  updateStats k p fun _ ↦ rfl

theorem statsUpdateError (k : State V) (p : StageId) : Counts k (k.statsUpdateError p) none :=
  updateStats k p fun _ ↦ rfl

/-- The rest of the kernel counts no events. -/
theorem frame {k₁ : State V} (h : k₁.sstats = k.sstats) (hg : k₁.graph = k.graph)
    (hc : k₁.cstats = k.cstats) : Counts k k₁ none :=
  of_eq hg (fun s ↦ by rw [h]) hc

theorem instanceDestroy (k : State V) (i : InstId) : Counts k (k.instanceDestroy i) none :=
  frame rfl rfl rfl

theorem instanceAquire (k : State V) (dst : StageId) (c : Creation) :
    Counts k (k.instanceAquire dst c).1 none := by
  have hc := k.instanceAquire_cases dst c
  generalize k.instanceAquire dst c = r at hc ⊢
  cases hc with
  | refused => exact .refl k
  | recycled hs hp =>
      obtain ⟨q, -, -, rfl⟩ := State.tryPopRecycle_eq_some.1 hp
      exact (statsActive ..).after (frame rfl rfl rfl)
  | created => cases c <;> exact (statsActive k dst).before (frame rfl rfl rfl)

theorem instanceRelease (k : State V) (i : InstId) : Counts k (k.instanceRelease i).1 none := by
  have hin : Counts k ((k.modifyInst i fun d ↦ { d with stack := [] }).statsInactive
      (k.stageOf i)) none := (statsInactive ..).after (frame rfl rfl rfl)
  rcases k.instanceRelease_cases i with ⟨e, k', hp, he⟩ | ⟨-, -, he⟩ | ⟨-, k', hp, he⟩ <;> rw [he]
  · have hpop : Counts k k' none := by
      obtain ⟨q, -, -, rfl⟩ := State.tryPopEvent_eq_some.1 hp
      exact frame rfl rfl rfl
    have hin := (statsInactive k' (k.stageOf i)).after hpop
    exact ((statsActive _ (k.stageOf i)).after hin).before (frame rfl rfl rfl)
  · exact hin.before (frame rfl rfl rfl)
  · obtain ⟨-, rfl⟩ := State.tryPushRecycle_eq_some.1 hp
    exact hin.before (frame rfl rfl rfl)

theorem settle (k : State V) (i : InstId) (φ : Fate V) : Counts k (k.settle i φ).1 none := by
  cases φ <;> exact frame rfl rfl rfl

theorem load (k : State V) (i : InstId) (e : List V) : Counts k (k.load i e) none :=
  frame rfl rfl rfl

end Counts

/-! ## What the sends count -/

section Sends

variable {xf : Transfer U V} {k k₁ : State V} {s dst : StageId} {con : ConnectorId} {c : Creation}
variable {i : InstId} {args : List U} {reply : Except String Unit}

/-- What `emmit` counts: to a local stage, the events that are taken; to another process, those
that can be written, whatever the answer is. -/
def State.emmitUpdate (xf : Transfer U V) (k : State V) (con : ConnectorId) (dst : StageId)
    (args : List U) (c : Creation) (reply : Except String Unit) : Update :=
  match k.graph.isLocal dst, xf.remote args with
  | false, .ok _ => some (k.graph.producer con, con)
  | false, _ => none
  | true, _ =>
    if (k.emmit xf con dst args c reply).2 = .yes then some (k.graph.producer con, con) else none

theorem counts_emmit : Counts k (k.emmit xf con dst args c reply).1
    (k.emmitUpdate xf con dst args c reply) := by
  cases hloc : k.graph.isLocal dst with
  | false =>
      simp only [State.emmitUpdate, hloc, State.emmit, Bool.not_false, if_true,
        State.emmitRemoteSync]
      cases xf.remote args with
      | ok e => exact .statsUpdateEvents ..
      | raised m | crash => exact .refl k
  | true =>
      have haq := Counts.instanceAquire k dst c
      simp only [State.emmitUpdate, State.emmit, hloc, Bool.not_true, Bool.false_eq_true, if_false]
      rcases ha : k.instanceAquire dst c with ⟨k₁, _ | j⟩
      · rw [ha] at haq
        dsimp only
        cases xf.extract args with
        | raised m | crash => exact haq
        | ok e =>
            rcases Option.eq_none_or_eq_some (k₁.instanceTryPushPendingEvent dst e) with
              hp | ⟨k₂, hp⟩
            · simp only [hp]
              exact haq
            · have hpush : Counts k₁ k₂ none := by
                obtain ⟨-, rfl⟩ := State.tryPushEvent_eq_some.1 hp
                exact .frame rfl rfl rfl
              have hk := hpush.after haq
              simp only [hp, ← hk.graph]
              exact (Counts.statsUpdateEvents ..).after hk
      · rw [ha] at haq
        dsimp only
        cases xf.copy args with
        | raised m | crash => exact haq.before (.frame rfl rfl rfl)
        | ok e =>
            have hload : Counts k₁ ((k₁.load j e).pushReadyQueue j) none := .frame rfl rfl rfl
            rw [← haq.graph]
            exact (Counts.statsUpdateEvents ..).after (hload.after haq)

/-- What `emmit_cohort` counts: what is granted, under the stage of the caller. -/
def State.cohortUpdate (k : State V) (i : InstId) (con : ConnectorId) (dst : StageId)
    (c : Creation) : Update :=
  if k.Denied dst c then none else some (k.stageOf i, con)

theorem counts_emmitCohort (ha : Accounted k) (hi : i ∈ k.live)
    (hok : (k.emmitCohort xf i dst con args c).2 = .done ∨
      ∃ callee, (k.emmitCohort xf i dst con args c).2 = .resume callee) :
    Counts k (k.emmitCohort xf i dst con args c).1 (k.cohortUpdate i con dst c) ∧
      ((k.emmitCohort xf i dst con args c).2 = .done ↔ k.Denied dst c) := by
  have hcount := Counts.instanceAquire k dst c
  unfold State.emmitCohort at hok ⊢
  rcases haq : k.instanceAquire dst c with ⟨k₁, _ | callee⟩
  · have hden : k.Denied dst c := denied_iff.2 (by rw [haq])
    rw [haq] at hcount
    rw [State.cohortUpdate, if_pos hden]
    exact ⟨hcount.before (.settle ..), fun _ ↦ hden, fun _ ↦ rfl⟩
  · have hden : ¬ k.Denied dst c := fun hd ↦ by
      have hnone := denied_iff.1 hd
      rw [haq] at hnone
      cases hnone
    have hstage : k₁.stageOf i = k.stageOf i := (untouched_of_aquire haq).stageOf ha i hi
    rw [haq] at hok hcount
    rw [State.cohortUpdate, if_neg hden]
    dsimp only at hok ⊢
    cases hx : xf.copy args with
    | raised m | crash =>
        rw [hx] at hok
        rcases hok with hok | ⟨j, hok⟩ <;> cases hok
    | ok e =>
        have hload : Counts k₁ (((k₁.load callee e).prepare i [.boolean true]).pushReadyQueue i)
            none := .frame rfl rfl rfl
        refine ⟨?_, fun h ↦ (by cases h), fun h ↦ absurd h hden⟩
        rw [← hstage]
        exact (Counts.statsUpdateEvents ..).after (hload.after hcount)

/-- A handler that leaves, other than by a cohort, counts no event. -/
theorem counts_threadReturn {y : Yield U} (hy : ∀ dst con args c, y ≠ .cohort dst con args c) :
    Counts k (k.threadReturn xf i y).1 none := by
  -- the coroutine has left
  have hleft : Counts k (k.modifyInst i fun d ↦ { d with suspended := y.inside }) none :=
    .frame rfl rfl rfl
  cases y with
  | ended => exact (Counts.instanceRelease ..).after hleft
  | pcallError =>
      exact (((Counts.statsUpdateError ..).after hleft).before (.statsInactive ..)).before
        (.instanceDestroy ..)
  | destroy => exact ((Counts.statsInactive ..).after hleft).before (.instanceDestroy ..)
  | unknown => exact hleft.before (.instanceDestroy ..)
  | cohort dst con args c => exact absurd rfl (hy dst con args c)
  | nice | remote args written | waitIo fd mode armed | fileIo file mode arg submitted
  | sleep timer armed => exact hleft.before (.settle ..)

theorem counts_emmitPackedEvent (e : List V) :
    Counts k (k.emmitPackedEvent dst e c).1 none := by
  have haq := Counts.instanceAquire k dst c
  unfold State.emmitPackedEvent
  rcases ha : k.instanceAquire dst c with ⟨k₁, _ | j⟩
  · rw [ha] at haq
    dsimp only
    cases hp : k₁.instanceTryPushPendingEvent dst e with
    | none => exact haq
    | some k₂ =>
        obtain ⟨-, rfl⟩ := State.tryPushEvent_eq_some.1 hp
        exact haq.before (.frame rfl rfl rfl)
  · rw [ha] at haq
    exact haq.before (.frame rfl rfl rfl)

end Sends

/-! ## Runs -/

/-- An operation, with the two ends of an asynchronous send to another process apart. -/
inductive SendOp (U V : Type u)
  | op (o : Op U V)
  | /-- The handler of `i` leaves with `EMMIT_REMOTE`. -/
    remote (i : InstId) (con : ConnectorId) (args : List U) (written : Bool)
  | /-- `do_read_ack` -/
    ack (i : InstId) (o : Outcome)

/-- The operation is one of those ends. -/
def Op.isRemote : Op U V → Bool
  | .ret _ (.remote _ _) => true
  | .callback _ .ack _ => true
  | _ => false

/-- The acknowledgement is positive. -/
def Outcome.acked : Outcome → Bool
  | .failed _ => false
  | .ok | .bytes _ _ => true

namespace System

/-- What an operation reports to a handler about a send: the connector, and success. -/
def report (xf : Transfer U V) (σ : System V) : Op U V → Option (ConnectorId × Bool)
  | .emmit con dst args c reply =>
    some (con, decide ((σ.kernel.emmit xf con dst args c reply).2 = .yes))
  | .ret i (.cohort dst con args c) =>
    some (con, decide ((σ.kernel.threadReturn xf i (.cohort dst con args c)).2 ≠ .done))
  | _ => none

/-- What an operation counts. -/
def update (xf : Transfer U V) (σ : System V) : Op U V → Update
  | .emmit con dst args c reply => σ.kernel.emmitUpdate xf con dst args c reply
  | .ret i (.cohort dst con _ c) => σ.kernel.cohortUpdate i con dst c
  | _ => none

/-- A send with `emmit` or a cohort is fair: one to another process that was written is
acknowledged, and the instance whose cohort is granted is of the producer of the connector. -/
def Fair (xf : Transfer U V) (σ : System V) : Op U V → Prop
  | .emmit con dst args _ reply =>
    0 ≤ con → σ.kernel.graph.isLocal dst = false → (∃ b, xf.remote args = .ok b) → reply = .ok ()
  | .ret i (.cohort dst con _ c) =>
    0 ≤ con → ¬ σ.kernel.Denied dst c → σ.kernel.stageOf i = σ.kernel.graph.producer con
  | _ => True

end System

/-- The system, with `i->con_id` of its instances, and the log of what the sends have reported
to their handlers. -/
structure Reporter (V : Type u) where
  system : System V
  conId : InstId → ConnectorId
  reports : List (ConnectorId × Bool)

namespace Reporter

variable {xf : Transfer U V} {σ σ' : Reporter V}

def kernel (σ : Reporter V) : State V := σ.system.kernel

def init (g : Graph) (ft : FullTest) (L pend : Int) : Reporter V :=
  ⟨.init g ft L pend, fun _ ↦ 0, []⟩

/-- What an operation reports to a handler about a send. -/
def report (xf : Transfer U V) (σ : Reporter V) : SendOp U V → Option (ConnectorId × Bool)
  | .op o => σ.system.report xf o
  | .remote _ _ _ _ => none
  | .ack i o => some (σ.conId i, o.acked)

/-- One operation. -/
def step (xf : Transfer U V) (σ : Reporter V) (l : SendOp U V) : Option (Reporter V) :=
  match l with
  | .op o =>
    if o.isRemote then none
    else (σ.system.step xf o).map fun s ↦
      { σ with system := s, reports := σ.reports ++ (σ.report xf l).toList }
  | .remote i con args written =>
    (σ.system.step xf (.ret i (.remote args written))).map fun s ↦
      { σ with
        system := s
        conId := if written then Function.update σ.conId i con else σ.conId }
  | .ack i o =>
    (σ.system.step xf (.callback i .ack o)).map fun s ↦
      { σ with
        system := if o.acked then
          { s with kernel := s.kernel.statsUpdateEvents (σ.kernel.stageOf i) (σ.conId i) }
          else s
        reports := σ.reports ++ (σ.report xf l).toList }

/-- What an operation counts. -/
def update (xf : Transfer U V) (σ : Reporter V) : SendOp U V → Update
  | .op o => σ.system.update xf o
  | .remote _ _ _ _ => none
  | .ack i o => if o.acked then some (σ.kernel.stageOf i, σ.conId i) else none

/-- What an operation that reports this should count. -/
def due (g : Graph) : Option (ConnectorId × Bool) → Update
  | some (con, true) => some (g.producer con, con)
  | _ => none

/-- **The counters agree with what was reported**: that of a connector with the successes of the
sends through it, that of a stage with those through its connectors. -/
structure Exact (σ : Reporter V) : Prop where
  connector : ∀ c, 0 ≤ c → σ.kernel.cstats c = σ.reports.count (c, true)
  stage : ∀ s, (σ.kernel.sstats s).events =
    σ.reports.countP fun r ↦ r.2 && decide (0 ≤ r.1 ∧ σ.kernel.graph.producer r.1 = s)

/-- **A fair step**: a send to another process that was written is acknowledged, and the
instance that succeeds with a cohort or an asynchronous send is of the producer of the
connector. -/
def Fair (xf : Transfer U V) (σ : Reporter V) : SendOp U V → Prop
  | .op o => σ.system.Fair xf o
  | .remote _ _ _ _ => True
  | .ack i o =>
    0 ≤ σ.conId i → o.acked = true →
      σ.kernel.stageOf i = σ.kernel.graph.producer (σ.conId i)

theorem counts_emmit_step {con : ConnectorId} {dst : StageId} {args : List U} {c : Creation}
    {reply : Except String Unit} {s s' : System V}
    (hs : s.step xf (.emmit con dst args c reply) = some s') :
    s'.kernel = (s.kernel.emmit xf con dst args c reply).1 := by
  simp only [System.step] at hs
  split at hs
  · cases hs
  · exact congrArg System.kernel (Option.some.inj hs).symm
  · exact congrArg System.kernel (Option.some.inj hs).symm
  · split at hs <;> exact congrArg System.kernel (Option.some.inj hs).symm

theorem counts_packed_step {dst : StageId} {e : List V} {c : Creation} {s s' : System V}
    (hs : s.step xf (.packed dst e c) = some s') :
    s'.kernel = (s.kernel.emmitPackedEvent dst e c).1 := by
  simp only [System.step] at hs
  split at hs <;> exact congrArg System.kernel (Option.some.inj hs).symm

theorem counts_call (s : System V) (i : InstId) : Counts s.kernel (s.call i).kernel none := by
  obtain ⟨f, hf⟩ := s.call_kernel i
  rw [hf]
  exact .frame rfl rfl rfl

/-- A cohort that leaves its thread with nothing was refused, one that passes it on was not. -/
theorem counts_cohort {s : System V} (ho : s.Owns) {i : InstId} (hi : i ∈ s.running)
    {dst : StageId} {con : ConnectorId} {args : List U} {c : Creation}
    (hok : (s.kernel.threadReturn xf i (.cohort dst con args c)).2 = .done ∨
      ∃ callee, (s.kernel.threadReturn xf i (.cohort dst con args c)).2 = .resume callee) :
    Counts s.kernel (s.kernel.threadReturn xf i (.cohort dst con args c)).1
        (s.kernel.cohortUpdate i con dst c) ∧
      ((s.kernel.threadReturn xf i (.cohort dst con args c)).2 = .done ↔
        s.kernel.Denied dst c) := by
  have hleft : Counts s.kernel (s.kernel.modifyInst i fun d ↦ { d with suspended := true }) none :=
    .frame rfl rfl rfl
  have hlive : i ∈ s.kernel.live := ho.live (.hands ()) i hi
  obtain ⟨hc, hd⟩ := counts_emmitCohort (ho.accounted.modifyInst _) hlive hok
  have hstage : (s.kernel.modifyInst i fun d ↦ { d with suspended := true }).stageOf i =
    s.kernel.stageOf i := State.stageOf_modifyInst
  have hupdate : (s.kernel.modifyInst i fun d ↦ { d with suspended := true }).cohortUpdate i con
      dst c = s.kernel.cohortUpdate i con dst c := by
    rw [State.cohortUpdate, State.cohortUpdate, hstage]
    rfl
  exact ⟨hupdate ▸ hc.after hleft, hd⟩

theorem counts_complete {k k' : State V} {i : InstId} {c : Completion} {o : Outcome}
    (h : k.complete i c o = some k') : Counts k k' none := by
  unfold State.complete at h
  obtain ⟨-, h⟩ := Option.ite_none_right_eq_some.1 h
  obtain rfl := Option.some.inj h
  exact .frame rfl rfl rfl

theorem counts_instanceSetMaxpar (k : State V) (a : Int) (b : Option Int) :
    Counts k (k.instanceSetMaxpar a b).1 none := by
  rcases k.instanceSetMaxpar_cases a b with he | ⟨p, -, -, he⟩ <;> rw [he]
  · exact .refl k
  · exact .frame rfl rfl rfl

theorem counts_ledaSetCapacity (k : State V) (i cap : Int) :
    Counts k (k.ledaSetCapacity i cap).1 none := by
  unfold State.ledaSetCapacity
  dsimp only
  split
  · exact .frame rfl rfl rfl
  · split
    · exact .refl k
    · exact .frame rfl rfl rfl

/-- **What every operation counts.** -/
theorem counts_step {s s' : System V} {o : Op U V} (ho : s.Owns) (hs : s.step xf o = some s') :
    Counts s.kernel s'.kernel (s.update xf o) := by
  cases o with
  | emmit con dst args c reply =>
      rw [counts_emmit_step hs]
      exact counts_emmit
  | packed dst e c =>
      rw [counts_packed_step hs]
      exact counts_emmitPackedEvent e
  | dispatch =>
      cases System.step_cases hs with
      | dispatch h =>
          obtain ⟨q, -, -, rfl⟩ := State.popReady_eq_some.1 h
          exact (counts_call { s with kernel := _ } _).after (.frame rfl rfl rfl)
      | dispatchNull h =>
          obtain ⟨q, -, -, rfl⟩ := State.popReady_eq_some.1 h
          exact .frame rfl rfl rfl
  | ret i y =>
      cases System.step_cases hs with
      | ret hi h =>
          cases y with
          | cohort dst con args c => exact (counts_cohort ho hi (.inl h)).1
          | ended | pcallError | destroy | unknown | nice | remote args written
          | waitIo fd mode armed | fileIo file mode arg submitted | sleep timer armed =>
              exact counts_threadReturn fun _ _ _ _ hy ↦ by cases hy
      | pass hi h =>
          exact (counts_cohort ho hi (.inr ⟨_, h⟩)).1.before (counts_call { s with kernel := _ } _)
  | callback i c o =>
      cases System.step_cases hs with
      | callback h => exact counts_complete h
  | kill =>
      cases hs
      exact .frame rfl rfl rfl
  | setMaxpar a b =>
      cases hs
      exact counts_instanceSetMaxpar ..
  | setCapacity i cap =>
      cases hs
      exact counts_ledaSetCapacity ..

theorem fair_iff_emmit {s : System V} {con : ConnectorId} {dst : StageId} {args : List U}
    {c : Creation} {reply : Except String Unit} :
    (s.update xf (.emmit con dst args c reply)).Same
      (due s.kernel.graph (s.report xf (.emmit con dst args c reply))) ↔
        s.Fair xf (.emmit con dst args c reply) := by
  simp only [System.update, System.report, System.Fair]
  cases hloc : s.kernel.graph.isLocal dst with
  | true =>
      refine ⟨fun _ _ h ↦ (by cases h), fun _ ↦ ?_⟩
      simp only [State.emmitUpdate, hloc]
      by_cases hy : (s.kernel.emmit xf con dst args c reply).2 = .yes
      · rw [if_pos hy, decide_eq_true hy]
        exact .refl _
      · rw [if_neg hy, decide_eq_false hy]
        exact .refl none
  | false =>
      simp only [State.emmitUpdate, hloc, State.emmit, Bool.not_false, if_true,
        State.emmitRemoteSync]
      cases xf.remote args with
      | raised m | crash =>
          refine ⟨fun _ _ _ h ↦ ?_, fun _ ↦ .refl none⟩
          obtain ⟨b, hb⟩ := h
          cases hb
      | ok b =>
          cases reply with
          | ok u => exact ⟨fun _ _ _ _ ↦ rfl, fun _ ↦ .refl _⟩
          | error m =>
              refine Update.same_none.trans ⟨fun h hcon ↦ absurd h (Int.not_lt.2 hcon), fun h ↦ ?_⟩
              by_contra hcon
              cases h (Int.not_lt.1 hcon) trivial ⟨b, rfl⟩

/-- **A send counts what is due iff it is fair.** -/
theorem fair_iff_op {s s' : System V} {o : Op U V} (ho : s.Owns) (hs : s.step xf o = some s') :
    (s.update xf o).Same (due s.kernel.graph (s.report xf o)) ↔ s.Fair xf o := by
  cases o with
  | emmit con dst args c reply => exact fair_iff_emmit
  | ret i y =>
      cases y with
      | cohort dst con args c =>
          have hsettled : i ∈ s.running ∧
              ((s.kernel.threadReturn xf i (.cohort dst con args c)).2 = .done ∨
                ∃ j, (s.kernel.threadReturn xf i (.cohort dst con args c)).2 = .resume j) := by
            cases System.step_cases hs with
            | ret hi h => exact ⟨hi, .inl h⟩
            | pass hi h => exact ⟨hi, .inr ⟨_, h⟩⟩
          have hden := (counts_cohort ho hsettled.1 hsettled.2).2
          simp only [System.update, System.report, System.Fair, State.cohortUpdate]
          by_cases hd : s.kernel.Denied dst c
          · rw [if_pos hd, decide_eq_false (not_not.2 (hden.2 hd))]
            exact ⟨fun _ _ hnot ↦ absurd hd hnot, fun _ ↦ .refl none⟩
          · rw [if_neg hd, decide_eq_true (mt hden.1 hd)]
            refine Update.same_some.trans ⟨fun h hcon _ ↦ ?_, fun h ↦ ?_⟩
            · exact h.resolve_left (Int.not_lt.2 hcon)
            · exact (Int.lt_or_le con 0).imp_right fun hcon ↦ h hcon hd
      | ended | pcallError | destroy | unknown | nice | remote args written
      | waitIo fd mode armed | fileIo file mode arg submitted | sleep timer armed =>
          exact ⟨fun _ ↦ trivial, fun _ ↦ .refl _⟩
  | packed dst e c | dispatch | callback i c o | kill | setMaxpar a b | setCapacity i cap =>
      exact ⟨fun _ ↦ trivial, fun _ ↦ .refl _⟩

/-- What a step does to the system, to the counters and to the log. -/
theorem step_spec {l : SendOp U V} (ho : σ.system.Owns) (hs : σ.step xf l = some σ') :
    σ'.system.Owns ∧ Counts σ.kernel σ'.kernel (σ.update xf l) ∧
      σ'.reports = σ.reports ++ (σ.report xf l).toList ∧
        ((σ.update xf l).Same (due σ.kernel.graph (σ.report xf l)) ↔ σ.Fair xf l) := by
  cases l with
  | op o =>
      obtain ⟨-, hs⟩ := Option.ite_none_left_eq_some.1 hs
      obtain ⟨s', hop, rfl⟩ := Option.map_eq_some_iff.1 hs
      exact ⟨System.owns_step ho hop, counts_step ho hop, rfl, fair_iff_op ho hop⟩
  | remote i con args written =>
      obtain ⟨s', hop, rfl⟩ := Option.map_eq_some_iff.1 hs
      exact ⟨System.owns_step ho hop, counts_step ho hop, (append_nil _).symm,
        fun _ ↦ trivial, fun _ ↦ .refl none⟩
  | ack i o =>
      obtain ⟨s', hop, rfl⟩ := Option.map_eq_some_iff.1 hs
      have howns := System.owns_step ho hop
      have hcount : Counts σ.kernel s'.kernel none := counts_step ho hop
      simp only [update, report, Fair]
      cases o.acked with
      | true =>
          refine ⟨howns.same (.statsUpdateEvents ..), ?_, trivial, Update.same_some.trans
            ⟨fun h hcon _ ↦ ?_, fun h ↦ ?_⟩⟩
          · exact (Counts.statsUpdateEvents ..).after hcount
          · exact h.resolve_left (Int.not_lt.2 hcon)
          · exact (Int.lt_or_le (σ.conId i) 0).imp_right fun hcon ↦ h hcon rfl
      | false => exact ⟨howns, hcount, trivial, fun _ _ h ↦ (by cases h), fun _ ↦ .refl none⟩

/-- One more report is one more success of its connector if it should be counted. -/
theorem count_due {g : Graph} {c : ConnectorId} (hc : 0 ≤ c) (L : List (ConnectorId × Bool))
    (r : Option (ConnectorId × Bool)) :
    (((L ++ r.toList).count (c, true) : Nat) : Int) =
      (L.count (c, true) : Nat) + (due g r).connector c := by
  rw [count_append, Int.natCast_add]
  refine congrArg (_ + ·) ?_
  match r with
  | none => rfl
  | some (con, false) =>
      rw [Option.toList_some, count_singleton, if_neg (by simp)]
      rfl
  | some (con, true) =>
      rw [Option.toList_some, count_singleton]
      change _ = if 0 ≤ con ∧ con = c then 1 else 0
      by_cases h : con = c
      · subst h
        simp [hc]
      · simp [h]

/-- And it is one more success of a stage. -/
theorem countP_due {g : Graph} (s : StageId) (L : List (ConnectorId × Bool))
    (r : Option (ConnectorId × Bool)) :
    (((L ++ r.toList).countP fun r ↦ r.2 && decide (0 ≤ r.1 ∧ g.producer r.1 = s) : Nat) : Int) =
      (L.countP fun r ↦ r.2 && decide (0 ≤ r.1 ∧ g.producer r.1 = s) : Nat) +
        (due g r).stage s := by
  rw [countP_append, Int.natCast_add]
  refine congrArg (_ + ·) ?_
  match r with
  | none => rfl
  | some (con, false) => rfl
  | some (con, true) =>
      rw [Option.toList_some, countP_singleton]
      change _ = if 0 ≤ con ∧ g.producer con = s then 1 else 0
      by_cases h : 0 ≤ con ∧ g.producer con = s
      · simp [h]
      · simp [h]

/-- **The counters still agree after a step iff it is fair.** -/
theorem exact_step {l : SendOp U V} (ho : σ.system.Owns) (he : σ.Exact)
    (hs : σ.step xf l = some σ') : σ'.Exact ↔ σ.Fair xf l := by
  obtain ⟨-, hcount, hreports, hfair⟩ := step_spec ho hs
  rw [← hfair]
  refine ⟨fun h ↦ ⟨fun s ↦ ?_, fun c ↦ ?_⟩, fun h ↦ ⟨fun c hc ↦ ?_, fun s ↦ ?_⟩⟩
  · have hs' := h.stage s
    rw [hcount.graph, hreports, countP_due, hcount.events, he.stage] at hs'
    omega
  · by_cases hc : 0 ≤ c
    · have hc' := h.connector c hc
      rw [hreports, count_due hc (g := σ.kernel.graph), hcount.cstats, he.connector c hc] at hc'
      omega
    · have hneg := Int.not_le.1 hc
      rw [Update.connector_of_neg _ hneg, Update.connector_of_neg _ hneg]
  · rw [hreports, count_due hc (g := σ.kernel.graph), hcount.cstats, he.connector c hc, h.2]
  · rw [hcount.graph, hreports, countP_due, hcount.events, he.stage, h.1]

/-- **The counters agree with what the sends have reported, throughout a run, iff every step of
it is fair.** -/
theorem exact_iff (xf : Transfer U V) (g : Graph) (ft : FullTest) (L pend : Int)
    {tr : List (Reporter V × SendOp U V)} (h : Run (step xf) (init g ft L pend) tr σ) :
    (∀ x ∈ visited tr σ, x.Exact) ↔ ∀ p ∈ tr, p.1.Fair xf p.2 :=
  h.forall_visited_iff (I := fun σ ↦ σ.system.Owns ∧ σ.Exact)
    ⟨System.owns_init g ft L pend, fun _ _ ↦ rfl, fun _ ↦ rfl⟩
    (fun _ _ _ hI hC hs ↦ ⟨(step_spec hI.1 hs).1, (exact_step hI.1 hI.2 hs).2 hC⟩)
    (fun _ hI ↦ hI.2) fun _ _ _ hI hC hs ↦ mt (exact_step hI.1 hI.2 hs).1 hC

/-- A stage sends to itself: to a new instance, to the pending queue, which is full then, and
by a cohort that is refused. -/
def localSends : List (SendOp Nat Nat) :=
  [.op (.emmit 0 0 [1] .ok (.ok ())), .op .dispatch, .op (.emmit 0 0 [2] .ok (.ok ())),
    .op (.emmit 0 0 [3] .ok (.ok ())), .op (.ret 0 (.cohort 0 0 [4] .ok))]

theorem exact_iff_localSends : ∃ σ : Reporter Nat,
    exec (step (.plain Nat)) (init (.single true) .exactly (-1) 1) localSends = some σ ∧
    σ.reports = [(0, true), (0, true), (0, false), (0, false)] ∧
    ((∀ x ∈ visited (execTrace (step (.plain Nat)) (init (.single true) .exactly (-1) 1)
        localSends) σ, x.Exact) ↔
      ∀ p ∈ execTrace (step (.plain Nat)) (init (.single true) .exactly (-1) 1) localSends,
        p.1.Fair (.plain Nat) p.2) := by
  obtain ⟨σ, hσ⟩ : ∃ σ, exec (step (.plain Nat)) (init (.single true) .exactly (-1) 1)
      localSends = some σ := ⟨_, rfl⟩
  refine ⟨σ, hσ, ?_, exact_iff _ _ _ _ _ (Run.of_exec hσ)⟩
  obtain rfl := Option.some.inj hσ
  decide

/-- A graph whose second stage is in another process. -/
def twoProcesses : Graph := { Graph.single false with nS := 2, isLocal := fun s ↦ s = 0 }

/-- **A send that failed is counted**: the other process answers that its queue is full. -/
theorem not_exact : ¬ ∀ (xf : Transfer Nat Nat) (g : Graph) (ft : FullTest) (L pend : Int)
    (tr : List (Reporter Nat × SendOp Nat Nat)) (σ : Reporter Nat),
    Run (step xf) (init g ft L pend) tr σ → σ.Exact := by
  intro h
  obtain ⟨σ, hσ⟩ : ∃ σ, exec (step (.plain Nat)) (init twoProcesses .exactly (-1) (-1))
      [.op (.emmit 0 1 [1] .ok (.error "Event queue is full"))] = some σ := ⟨_, rfl⟩
  have he := (h _ _ _ _ _ _ σ (Run.of_exec hσ)).connector 0 (Int.le_refl 0)
  obtain rfl := Option.some.inj hσ
  exact absurd he (by decide)

end Reporter

end Leda.Kernel
