import Leda.Kernel.Conservation
import Leda.Lib.Simulation
import Mathlib.Data.Fintype.EquivFin

/-!
# Operations that are not interrupted

`System` executes whole operations, the interleaving machine single accesses.  Here the two
are connected: every run of `System` in which no limit or capacity is changed is a run of
the machine, in which each operation is executed by one thread while the others pause.
A thread that serves no instance takes the sends, the completions and the dispatches, and the
thread that serves an instance what its handler ends with; so there have to be more threads
than instances, and the type of threads is taken to be infinite.

The two levels agree on the state of the kernel and on the books, entry by entry.  What is
proved of every interleaving therefore holds of runs of whole operations, as
`System.exactly_once`.
-/

universe u v

namespace Leda.Kernel

open Leda.Lib List

variable {U V : Type u} {T : Type v}

/-! ## One thread for a while -/

/-- A thread makes steps while the others pause; `a` and `h` are what it accepts and which
handlers it starts. -/
inductive Goes (xf : Transfer U V) : State V × List (Frame U V) → List (StageId × List V) →
    List (StageId × List (Slot V)) → State V × List (Frame U V) → Prop
  | refl (c : State V × List (Frame U V)) : Goes xf c [] [] c
  | head {k k₁ : State V} {fs fs₁ : List (Frame U V)} {act : Act U V}
      {c : State V × List (Frame U V)} {a : List (StageId × List V)}
      {h : List (StageId × List (Slot V))} (hs : threadStep xf k fs act = some (k₁, fs₁))
      (hr : Goes xf (k₁, fs₁) a h c) :
      Goes xf (k, fs) (accepts xf k fs act ++ a) (calls k fs act ++ h) c

namespace Goes

variable {xf : Transfer U V} {k k₁ k' : State V} {fs fs₁ n : List (Frame U V)} {q : Act U V}
  {c c' c'' : State V × List (Frame U V)} {a a' : List (StageId × List V)}
  {h h' : List (StageId × List (Slot V))} {f : Frame U V} {s : StageId} {i : InstId}
  {p : Purpose U V}

/-- A step in which nothing is accepted and no handler is started. -/
theorem quiet (hs : threadStep xf k fs q = some (k₁, fs₁)) (ha : accepts xf k fs q = [])
    (hh : calls k fs q = []) (hr : Goes xf (k₁, fs₁) a h c) : Goes xf (k, fs) a h c := by
  have hg := head hs hr
  rwa [ha, hh] at hg

/-- A step that accepts one event, or some. -/
theorem accepting (hs : threadStep xf k fs q = some (k₁, fs₁)) (ha : accepts xf k fs q = a)
    (hh : calls k fs q = []) (hr : Goes xf (k₁, fs₁) [] h c) : Goes xf (k, fs) a h c := by
  have hg := head hs hr
  rwa [ha, hh, append_nil] at hg

/-- What a thread does first and what it does then. -/
theorem trans (hg : Goes xf c a h c') (hg' : Goes xf c' a' h' c'') :
    Goes xf c (a ++ a') (h ++ h') c'' := by
  induction hg with
  | refl => exact hg'
  | head hs _ ih =>
      rw [append_assoc, append_assoc]
      exact head hs (ih hg')

/-- The next access of a frame. -/
theorem threadStep_run (hf : frameStep xf k f = some (k', n)) :
    threadStep xf k (f :: fs) .run = some (k', n ++ fs) := by
  cases f <;> simp only [threadStep, replace, hf, Option.map_some]

/-! ## Acquiring an instance -/

/-- Up to the chunk of a new instance. -/
theorem create (hs : ¬ k.graph.Beyond s) (hrec : (k.recycleQueues s).items = [])
    (hn : k.numberOfInstances s ≠ k.recycleQueueLimits s)
    (hg : Goes xf (((k.statsActive s).addInstances s 1).newInstance s,
      .chunk s k.nextInst p :: fs) a h c) : Goes xf (k, .aquire s p :: fs) a h c := by
  have hp : k.tryPopRecycle s = none := State.tryPopRecycle_eq_none.2 hrec
  have h₁ : frameStep xf k (.aquire s p) = some (k, [.readCount s p]) := by
    simp only [frameStep, if_neg hs, hp]
  have h₂ : frameStep xf k (.readLimit s (k.numberOfInstances s) p) = some (k, [.add s p]) := by
    simp only [frameStep, if_neg hn]
  refine quiet (threadStep_run h₁) ?_ rfl ?_
  · simp only [accepts, Frame.accepts, if_neg hs, hp]
  · refine quiet (threadStep_run (f := .readCount s p) rfl) rfl rfl ?_
    refine quiet (threadStep_run h₂) rfl rfl ?_
    exact quiet (threadStep_run (f := .add s p) rfl) rfl rfl hg

/-- `instance_aquire` that is refused. -/
theorem refused {c' : Creation} (ha : k.instanceAquire s c' = (k₁, none))
    (hr : Kernel.refused xf k₁ s p = some (k', n)) (hg : Goes xf (k', n ++ fs) a h c) :
    Goes xf (k, .aquire s p :: fs) a h c := by
  have hc := k.instanceAquire_cases s c'
  rw [ha] at hc
  generalize hx : (k₁, (none : Option InstId)) = x at hc
  cases hc with
  | refused hb =>
      obtain rfl : k₁ = k := congrArg Prod.fst hx
      by_cases hs : k₁.graph.Beyond s
      · have h₁ : frameStep xf k₁ (.aquire s p) = some (k', n) := by
          simp only [frameStep, if_pos hs, hr]
        refine quiet (threadStep_run h₁) ?_ rfl hg
        simp only [accepts, Frame.accepts, if_pos hs]
      · obtain ⟨hrec, hn⟩ := hb.resolve_left hs
        have hp : k₁.tryPopRecycle s = none := State.tryPopRecycle_eq_none.2 hrec
        have h₁ : frameStep xf k₁ (.aquire s p) = some (k₁, [.readCount s p]) := by
          simp only [frameStep, if_neg hs, hp]
        have h₂ : frameStep xf k₁ (.readLimit s (k₁.numberOfInstances s) p) = some (k', n) := by
          simp only [frameStep, if_pos hn, hr]
        refine quiet (threadStep_run h₁) ?_ rfl ?_
        · simp only [accepts, Frame.accepts, if_neg hs, hp]
        · refine quiet (threadStep_run (f := .readCount s p) rfl) rfl rfl ?_
          exact quiet (threadStep_run h₂) rfl rfl hg
  | recycled => cases hx
  | created hs hrec hn =>
      refine create hs hrec hn ?_
      cases c' with
      | ok => cases hx
      | initFails =>
          obtain rfl := congrArg Prod.fst hx
          refine quiet (q := .chunkEnds .initFails) rfl rfl rfl ?_
          exact quiet (threadStep_run (f := .abandon s k.nextInst p) hr) rfl rfl hg
      | loadFails =>
          obtain rfl := congrArg Prod.fst hx
          refine quiet (q := .chunkEnds .loadFails) ?_ rfl rfl hg
          exact congrArg (replace fs) hr

variable (xf fs p) in
/-- `instance_aquire` that returns an instance. -/
theorem granted {c' : Creation} (ha : k.instanceAquire s c' = (k₁, some i))
    (hr : Kernel.granted xf k₁ i p = some (k', n)) (hg : Goes xf (k', n ++ fs) [] h c) :
    Goes xf (k, .aquire s p :: fs) (p.accepts xf s) h c := by
  have hc := k.instanceAquire_cases s c'
  rw [ha] at hc
  generalize hx : (k₁, some i) = x at hc
  cases hc with
  | refused => cases hx
  | @recycled j k₂ hs hp =>
      obtain rfl := congrArg Prod.fst hx
      obtain rfl : i = j := Option.some.inj (congrArg Prod.snd hx)
      have h₁ : frameStep xf k (.aquire s p) = some (k', n) := by
        simp only [frameStep, if_neg hs, hp]
        exact hr
      refine accepting (threadStep_run h₁) ?_ rfl hg
      simp only [accepts, Frame.accepts, if_neg hs, hp]
  | created hs hrec hn =>
      refine create hs hrec hn ?_
      cases c' with
      | ok =>
          obtain rfl := congrArg Prod.fst hx
          obtain rfl : i = k.nextInst := Option.some.inj (congrArg Prod.snd hx)
          refine accepting (q := .chunkEnds .ok) ?_ rfl rfl hg
          exact congrArg (replace fs) hr
      | initFails | loadFails => cases hx

/-! ## Operations -/

variable {con : ConnectorId} {dst : StageId} {args : List U} {e : List V}

variable (xf k dst e con) in
/-- Putting an event into an event queue, or failing to. -/
theorem pushEvent : Goes xf (k, [.pushEvent dst e con])
    (if (k.tryPushEvent dst e).isSome then [(dst, e)] else []) []
    ((match k.tryPushEvent dst e with
      | none => k
      | some k' => k'.statsUpdateEvents (k'.graph.producer con) con), []) := by
  cases hp : k.tryPushEvent dst e with
  | none =>
      have h₁ : frameStep xf k (.pushEvent dst e con) = some (k, []) := by
        simp only [frameStep, State.instanceTryPushPendingEvent, hp]
      refine quiet (threadStep_run h₁) ?_ rfl (.refl _)
      simp only [accepts, Frame.accepts, hp]
  | some k₁ =>
      have h₁ : frameStep xf k (.pushEvent dst e con) =
          some (k₁.statsUpdateEvents (k₁.graph.producer con) con, []) := by
        simp only [frameStep, State.instanceTryPushPendingEvent, hp]
      refine accepting (threadStep_run h₁) ?_ rfl (.refl _)
      simp only [accepts, Frame.accepts, hp, Option.isSome_some, if_true]

/-- Queueing an instance. -/
theorem pushReady : Goes xf (k, [.pushReady i]) [] [] (k.pushReadyQueue i, []) :=
  quiet (threadStep_run (f := .pushReady i) rfl) rfl rfl (.refl _)

variable (xf con args) in
/-- `emmit` to a local stage. -/
theorem emmit (c : Creation) (reply : Except String Unit) (hloc : k.graph.isLocal dst = true)
    (hcrash : (k.emmit xf con dst args c reply).2 ≠ .crash) :
    Goes xf (k, []) (if (k.emmit xf con dst args c reply).2 = .yes then
      [(dst, sentEvent xf args (k.instanceAquire dst c).2.isSome)] else []) []
      ((k.emmit xf con dst args c reply).1, []) := by
  have h₀ : threadStep xf k [] (.emmit con dst args) =
      some (k, [.aquire dst (.emmit con args)]) := by
    simp only [threadStep, mayCall, if_true, hloc]
  refine quiet h₀ rfl rfl ?_
  revert hcrash
  unfold State.emmit
  rw [hloc]
  simp only [Bool.not_true, Bool.false_eq_true, if_false]
  rcases ha : k.instanceAquire dst c with ⟨k₁, _ | i⟩
  · rcases hx : xf.extract args with e | m | _ <;> simp only <;> intro hcrash
    · refine refused ha (by simp only [Kernel.refused, hx]; rfl) ?_
      have hpush := pushEvent xf k₁ con dst e
      unfold State.instanceTryPushPendingEvent
      cases hp : k₁.tryPushEvent dst e with
      | none => simpa [hp] using hpush
      | some k₂ => simpa [hp, sentEvent, hx] using hpush
    · exact refused ha (by simp only [Kernel.refused, hx]; rfl) (.refl _)
    · exact absurd rfl hcrash
  · rcases hx : xf.copy args with e | m | _ <;> simp only <;> intro hcrash
    · have hg := granted xf [] (.emmit con args) ha
        (by simp only [Kernel.granted, hx]; rfl) pushReady
      have hsent : sentEvent xf args (some i).isSome = e := by simp [sentEvent, hx]
      simp only [Purpose.accepts, hx] at hg
      rw [if_pos trivial, hsent]
      exact hg
    · have hg := granted xf [] (.emmit con args) ha
        (by simp only [Kernel.granted, hx]; rfl) (.refl _)
      simp only [Purpose.accepts, hx] at hg
      exact hg
    · exact absurd rfl hcrash

variable (xf k dst e) in
/-- `emmit_packed_event`. -/
theorem packed (c : Creation) :
    Goes xf (k, []) (if (k.emmitPackedEvent dst e c).2 = 0 then [(dst, e)] else []) []
      ((k.emmitPackedEvent dst e c).1, []) := by
  refine quiet (q := .packed dst e) rfl rfl rfl ?_
  unfold State.emmitPackedEvent
  rcases ha : k.instanceAquire dst c with ⟨k₁, _ | i⟩ <;> simp only
  · refine refused ha rfl ?_
    have hpush := pushEvent xf k₁ (-1) dst e
    unfold State.instanceTryPushPendingEvent
    rcases Option.eq_none_or_eq_some (k₁.tryPushEvent dst e) with hp | ⟨k₂, hp⟩
    · simpa [hp] using hpush
    · simp only [hp, statsUpdateEvents_neg] at hpush
      simpa [hp] using hpush
  · exact granted xf [] (.packed e) ha rfl pushReady

/-- A worker takes the next instance and calls its handler. -/
theorem dispatch (hp : k.popReady = some (some i, k₁)) :
    Goes xf (k, []) [] (k₁.starts i) ((k₁.resumeInstance i).1, [.handler i]) := by
  have h₀ : threadStep xf k [] .wait = some ((k₁.resumeInstance i).1, [.handler i]) := by
    simp only [threadStep, hp]
  have hg := head h₀ (.refl _)
  simpa [accepts, calls, hp] using hg

/-- A completion. -/
theorem complete {co : Completion} {o : Outcome} (hc : k.complete i co o = some k') :
    Goes xf (k, []) [] [] (k', []) := by
  unfold State.complete at hc
  split at hc
  · rename_i hm
    obtain rfl := Option.some.inj hc
    have h₀ : threadStep xf k [] (.callback i co o) =
        some (({ k with registered := k.registered.erase (i, co) } : State V).prepare i
          (State.completionValues co o), [.pushReady i]) := by
      simp only [threadStep, if_pos hm]
    exact quiet h₀ rfl rfl pushReady
  · cases hc

/-- `instance_release`, once the stack is cleared. -/
theorem release : Goes xf (k.modifyInst i fun d ↦ { d with stack := [] }, [.popEvent i]) [] []
    ((k.instanceRelease i).1, []) := by
  have hst : (k.modifyInst i fun d ↦ { d with stack := [] }).stageOf i = k.stageOf i :=
    State.stageOf_modifyInst
  have hnone : (k.eventQueues (k.stageOf i)).items = [] →
      frameStep xf (k.modifyInst i fun d ↦ { d with stack := [] }) (.popEvent i) =
        some ((k.modifyInst i fun d ↦ { d with stack := [] }).statsInactive (k.stageOf i),
          [.recycle i]) := fun hempty ↦ by
    have hp : (k.modifyInst i fun d ↦ { d with stack := [] }).tryPopEvent (k.stageOf i) = none :=
      State.tryPopEvent_eq_none.2 hempty
    simp only [frameStep, hst, hp]
  rcases k.instanceRelease_cases i with ⟨e, k₁, hp, he⟩ | ⟨hempty, hfull, he⟩ |
    ⟨hempty, k₁, hp, he⟩ <;> rw [he]
  · refine quiet (threadStep_run (f := .popEvent i) (n := [.pushReady i]) ?_) rfl rfl pushReady
    simp only [frameStep, hst, hp]
  · -- there is no event, and no room for the instance
    refine quiet (threadStep_run (hnone hempty)) rfl rfl ?_
    refine quiet (threadStep_run (f := .recycle i) (n := [.destroy i]) ?_) rfl rfl
      (quiet (threadStep_run (f := .destroy i) rfl) rfl rfl (.refl _))
    have hp : ((k.modifyInst i fun d ↦ { d with stack := [] }).statsInactive
        (k.stageOf i)).tryPushRecycle (k.stageOf i) i = none := State.tryPushRecycle_eq_none.2 hfull
    have hst' : ((k.modifyInst i fun d ↦ { d with stack := [] }).statsInactive
        (k.stageOf i)).stageOf i = k.stageOf i := hst
    simp only [frameStep, hst', hp]
  · refine quiet (threadStep_run (hnone hempty)) rfl rfl ?_
    refine quiet (threadStep_run (f := .recycle i) (n := []) ?_) rfl rfl (.refl _)
    have hst' : ((k.modifyInst i fun d ↦ { d with stack := [] }).statsInactive
        (k.stageOf i)).stageOf i = k.stageOf i := hst
    simp only [frameStep, hst', hp]

/-- What a thread does with a handler that waits. -/
theorem returned_fate {y : Yield U} {φ : Fate V} (hy : y.fate xf = some φ) :
    returned xf k i y = settled (k.suspend i) i φ := by
  cases y <;> simp only [Yield.fate, Option.some.injEq, reduceCtorEq] at hy <;> subst hy <;> rfl

/-- A handler waits, and its instance is settled by its fate. -/
theorem settle {y : Yield U} {φ : Fate V} (hy : y.fate xf = some φ)
    (hd : (k.threadReturn xf i y).2 = .done) :
    Goes xf (k, [.handler i]) [] [] ((k.threadReturn xf i y).1, []) := by
  rw [threadReturn_fate hy] at hd ⊢
  have hr := returned_fate (k := k) (i := i) hy
  cases φ with
  | resume vals =>
      exact quiet (q := .ret y) (congrArg (replace []) hr) rfl rfl pushReady
  | register c | lost =>
      exact quiet (q := .ret y) (congrArg (replace []) hr) rfl rfl (.refl _)
  | panic m | crash => cases hd

/-- A handler leaves, and its thread has nothing left to do. -/
theorem ret {y : Yield U} (hd : (k.threadReturn xf i y).2 = .done) :
    Goes xf (k, [.handler i]) [] [] ((k.threadReturn xf i y).1, []) := by
  cases y with
  | ended =>
      refine quiet (q := .ret .ended) rfl rfl rfl ?_
      exact release
  | pcallError =>
      refine quiet (q := .ret .pcallError) rfl rfl rfl ?_
      exact quiet (threadStep_run (f := .destroy i) rfl) rfl rfl (.refl _)
  | destroy =>
      refine quiet (q := .ret .destroy) rfl rfl rfl ?_
      exact quiet (threadStep_run (f := .destroy i) rfl) rfl rfl (.refl _)
  | unknown =>
      refine quiet (q := .ret .unknown) rfl rfl rfl ?_
      exact quiet (threadStep_run (f := .destroy i) rfl) rfl rfl (.refl _)
  | nice | remote args written | waitIo fd mode armed | fileIo file mode arg submitted
  | sleep timer armed => exact settle rfl hd
  | cohort dst con args c =>
      refine quiet (q := .ret (.cohort dst con args c)) rfl rfl rfl ?_
      simp only [State.threadReturn, State.emmitCohort, Yield.inside] at hd ⊢
      rcases ha : (k.modifyInst i fun d ↦ { d with suspended := true }).instanceAquire dst c with
        ⟨k₁, _ | callee⟩
      · exact refused ha rfl pushReady
      · rw [ha] at hd
        simp only at hd
        split at hd <;> cases hd

variable (xf k i con) in
/-- The caller of a cohort is queued, and the thread calls the handler of the callee. -/
theorem pushCaller (callee : InstId) : Goes xf (k, [.pushCaller i callee con]) []
    (((k.pushReadyQueue i).statsUpdateEvents (k.stageOf i) con).starts callee)
    ((((k.pushReadyQueue i).statsUpdateEvents (k.stageOf i) con).resumeInstance callee).1,
      [.handler callee]) := by
  have hcalls : calls k [.pushCaller i callee con] (.run : Act U V) =
      ((k.pushReadyQueue i).statsUpdateEvents (k.stageOf i) con).starts callee := by
    apply Eq.symm
    apply State.starts_congr
    rfl
  have hstep : threadStep xf k [.pushCaller i callee con] .run =
      some ((((k.pushReadyQueue i).statsUpdateEvents (k.stageOf i) con).resumeInstance callee).1,
        [.handler callee]) := rfl
  have hgo := head hstep (.refl _)
  rw [hcalls] at hgo
  simp only [append_nil] at hgo
  exact hgo

/-- A handler passes its thread on to the callee of a cohort. -/
theorem pass {callee : InstId} {c : Creation}
    (hd : (k.threadReturn xf i (.cohort dst con args c)).2 = .resume callee) :
    Goes xf (k, [.handler i]) [(dst, sentEvent xf args true)]
      ((k.threadReturn xf i (.cohort dst con args c)).1.starts callee)
      ((((k.threadReturn xf i (.cohort dst con args c)).1).resumeInstance callee).1,
        [.handler callee]) := by
  obtain ⟨k₁, e, ha, hx, hk⟩ := threadReturn_pass hd
  rw [hk]
  have hsent : sentEvent xf args true = e := by simp [sentEvent, hx]
  rw [hsent]
  refine quiet (q := .ret (.cohort dst con args c)) rfl rfl rfl ?_
  have hst : ((k₁.load callee e).prepare i [.boolean true]).stageOf i = k₁.stageOf i := by
    simp only [State.prepare, State.load, State.stageOf_modifyInst]
  have hg := pushCaller xf ((k₁.load callee e).prepare i [.boolean true]) i con callee
  rw [hst] at hg
  have hgr := granted xf [] (.cohort i con args) ha
    (by simp only [Kernel.granted, hx]; rfl) hg
  simp only [Purpose.accepts, hx] at hgr
  exact hgr

end Goes

/-! ## From one thread to the machine -/

section Lift

variable {xf : Transfer U V} {β : Books T U V} {t : T}

/-- A handler that leaves nothing on its stack. -/
theorem leave_nil (m : Machine T U V) (t : T) : Ledger.leave m t [] = m := by
  unfold Ledger.leave
  split
  · rename_i i fs hfs
    have hk : m.kernel.modifyInst i (fun d ↦ { d with stack := d.stack ++ [] }) = m.kernel := by
      simp [State.modifyInst]
    rw [hk]
  · rfl

/-- What one thread does while the others pause is a run of the machine. -/
theorem Goes.run [DecidableEq T] {c c' : State V × List (Frame U V)} {a : List (StageId × List V)}
    {h : List (StageId × List (Slot V))} (hg : Goes xf c a h c') :
    ∀ β : Books T U V, (β.kernel, β.stack t) = c → ∃ tr β', Run (Books.step xf) β tr β' ∧
      β'.kernel = c'.1 ∧ β'.stack = Function.update β.stack t c'.2 ∧
      β'.accepted = β.accepted ++ a ∧ β'.handled = β.handled ++ h := by
  induction hg with
  | refl c =>
      rintro β rfl
      exact ⟨[], β, .nil, rfl, (Function.update_eq_self t β.stack).symm, (append_nil _).symm,
        (append_nil _).symm⟩
  | @head k k₁ fs fs₁ act c a h hs _ ih =>
      intro β hβ
      obtain ⟨rfl, rfl⟩ := Prod.mk.inj hβ
      obtain ⟨β₁, hstep, hk, hst, ha, hh⟩ : ∃ β₁, Books.step xf β ((t, act), []) = some β₁ ∧
          β₁.kernel = k₁ ∧ β₁.stack = Function.update β.stack t fs₁ ∧
          β₁.accepted = β.accepted ++ accepts xf β.kernel (β.stack t) act ∧
          β₁.handled = β.handled ++ calls β.kernel (β.stack t) act := by
        have hm : Machine.step xf β.ledger.machine (t, act) =
            some ⟨k₁, Function.update β.stack t fs₁⟩ :=
          Machine.step_eq_some.2 ⟨k₁, fs₁, hs, rfl⟩
        unfold Books.step Ledger.step
        simp only [leave_nil, hm, Option.map_some, Option.some.injEq]
        exact ⟨_, rfl, rfl, rfl, rfl, rfl⟩
      obtain ⟨tr, β', hrun, hk', hst', ha', hh'⟩ := ih β₁ (by rw [hk, hst, Function.update_self])
      refine ⟨_, β', (Run.single hstep).append hrun, hk', ?_, ?_, ?_⟩
      · rw [hst', hst, Function.update_idem]
      · rw [ha', ha, append_assoc]
      · rw [hh', hh, append_assoc]

end Lift

/-! ## The two levels -/

/-- What a thread is doing that serves an instance, or none. -/
def serving : Option InstId → List (Frame U V)
  | none => []
  | some i => [.handler i]

/-- **The two levels agree**: on the kernel, on which handlers run, and on the books. -/
structure Agree (σ : System V) (β : Books T U V) : Prop where
  kernel : β.kernel = σ.kernel
  serves : ∃ ts : List (T × InstId), (ts.map Prod.fst).Nodup ∧ ts.map Prod.snd ~ σ.running ∧
    (∀ p ∈ ts, β.stack p.1 = [.handler p.2]) ∧ ∀ t, t ∉ ts.map Prod.fst → β.stack t = []
  accepted : ∀ s, logOf s β.accepted = σ.accepted s
  handled : ∀ s, logOf s β.handled = σ.handled s

namespace Agree

variable {xf : Transfer U V} {σ σ' : System V} {β : Books T U V}

/-- Nothing has happened at the start. -/
theorem init (g : Graph) (ft : FullTest) (L pend : Int) :
    Agree (System.init g ft L pend : System V) (Books.init g ft L pend : Books T U V) :=
  ⟨rfl, ⟨[], nodup_nil, .refl _, fun _ hp ↦ absurd hp not_mem_nil, fun _ _ ↦ rfl⟩, fun _ ↦ rfl,
    fun _ ↦ rfl⟩

/-- There is a thread that serves none, and one for each running instance. -/
theorem exists_thread [DecidableEq T] [Infinite T] (h : Agree σ β) {o : Option InstId}
    {r : List InstId} (hr : σ.running ~ o.toList ++ r) :
    ∃ (t : T) (ts : List (T × InstId)), t ∉ ts.map Prod.fst ∧ (ts.map Prod.fst).Nodup ∧
      ts.map Prod.snd ~ r ∧ β.stack t = serving o ∧ (∀ p ∈ ts, β.stack p.1 = [.handler p.2]) ∧
      ∀ t', t' ≠ t → t' ∉ ts.map Prod.fst → β.stack t' = [] := by
  obtain ⟨ts, hnd, hrun, hserve, hidle⟩ := h.serves
  cases o with
  | none =>
      obtain ⟨t, ht⟩ := Infinite.exists_notMem_finset (ts.map Prod.fst).toFinset
      have ht : t ∉ ts.map Prod.fst := fun hm ↦ ht (mem_toFinset.2 hm)
      exact ⟨t, ts, ht, hnd, hrun.trans hr, hidle t ht, hserve, fun t' _ ht' ↦ hidle t' ht'⟩
  | some i =>
      -- the pair of the instance and the thread that serves it
      obtain ⟨p, hp, rfl⟩ : ∃ p ∈ ts, p.2 = i := by
        have hm : i ∈ ts.map Prod.snd := (hrun.trans hr).mem_iff.2 mem_cons_self
        exact mem_map.1 hm
      have hperm : ts ~ p :: ts.erase p := perm_cons_erase hp
      have hfst := hperm.map Prod.fst
      rw [map_cons] at hfst
      have hnd' := hfst.nodup_iff.1 hnd
      refine ⟨p.1, ts.erase p, (nodup_cons.1 hnd').1, (nodup_cons.1 hnd').2, ?_, hserve p hp,
        fun q hq ↦ hserve q (mem_of_mem_erase hq), fun t' hne ht' ↦ hidle t' fun hm ↦ ?_⟩
      · have hsnd := (hperm.map Prod.snd).symm.trans (hrun.trans hr)
        exact (perm_cons p.2).1 hsnd
      · rcases mem_cons.1 (hfst.mem_iff.1 hm) with rfl | hm
        · exact hne rfl
        · exact ht' hm

/-- **An operation that one thread executes** keeps the agreement. -/
theorem goes [DecidableEq T] [Infinite T] (h : Agree σ β) {o u : Option InstId}
    {r : List InstId} {a : List (StageId × List V)} {hd : List (StageId × List (Slot V))}
    (hr : σ.running ~ o.toList ++ r) (hr' : σ'.running ~ u.toList ++ r)
    (hg : Goes xf (σ.kernel, serving o) a hd (σ'.kernel, serving u))
    (ha : ∀ s, σ'.accepted s = σ.accepted s ++ logOf s a)
    (hh : ∀ s, σ'.handled s = σ.handled s ++ logOf s hd) :
    ∃ tr β', Run (Books.step xf) β tr β' ∧ Agree σ' β' := by
  obtain ⟨t, ts, ht, hnd, hrest, hst, hserve, hidle⟩ := h.exists_thread (T := T) hr
  obtain ⟨tr, β', hrun, hk, hst', ha', hh'⟩ := hg.run (t := t) β (by rw [h.kernel, hst])
  have hne : ∀ p ∈ ts, p.1 ≠ t := fun p hp e ↦ ht (e ▸ mem_map.2 ⟨p, hp, rfl⟩)
  refine ⟨tr, β', hrun, hk, ⟨u.toList.map (fun i ↦ (t, i)) ++ ts, ?_, ?_, ?_, ?_⟩, ?_, ?_⟩
  · cases u with
    | none => exact hnd
    | some i => exact nodup_cons.2 ⟨ht, hnd⟩
  · refine Perm.trans ?_ hr'.symm
    rw [map_append, map_map]
    have hid : u.toList.map (Prod.snd ∘ fun i ↦ (t, i)) = u.toList := map_id _
    rw [hid]
    exact hrest.append_left _
  · intro p hp
    rw [hst']
    rcases mem_append.1 hp with hp | hp
    · obtain ⟨i, hi, rfl⟩ := mem_map.1 hp
      obtain rfl : u = some i := Option.mem_toList.1 hi
      exact Function.update_self ..
    · rw [Function.update_of_ne (hne p hp)]
      exact hserve p hp
  · intro t' ht'
    rw [hst']
    rw [map_append, mem_append, not_or] at ht'
    by_cases hte : t' = t
    · subst hte
      rw [Function.update_self]
      cases u with
      | none => rfl
      | some i => exact absurd mem_cons_self ht'.1
    · rw [Function.update_of_ne hte]
      exact hidle t' hte ht'.2
  · intro s
    rw [ha', logOf_append, h.accepted, ha]
  · intro s
    rw [hh', logOf_append, h.handled, hh]

/-- An operation that no handler has a part in. -/
theorem goes_idle [DecidableEq T] [Infinite T] (h : Agree σ β) {k : State V}
    {a : List (StageId × List V)} (hg : Goes xf (σ.kernel, []) a [] (k, []))
    (hk : σ'.kernel = k) (hr : σ'.running = σ.running)
    (ha : ∀ s, σ'.accepted s = σ.accepted s ++ logOf s a) (hh : σ'.handled = σ.handled) :
    ∃ tr β', Run (Books.step xf) β tr β' ∧ Agree σ' β' := by
  subst hk
  refine h.goes (o := none) (u := none) (r := σ.running) (.refl _) (by rw [hr]; exact .refl _) hg
    ha fun s ↦ ?_
  rw [hh]
  exact (append_nil _).symm

end Agree

/-! ## Runs -/

/-- The operations that change no limit and no capacity: the machine has no step for those. -/
def Op.steady : Op U V → Bool
  | .setMaxpar .. | .setCapacity .. => false
  | _ => true

namespace System

variable {xf : Transfer U V} {σ σ' : System V} {β : Books T U V} [DecidableEq T] [Infinite T]

/-- The log of an operation that may have been accepted. -/
theorem accepted_accept (σ : System V) (dst : StageId) (e : List V) (s : StageId) :
    (σ.accept dst e).accepted s = σ.accepted s ++ logOf s [(dst, e)] := by
  rw [logOf_singleton]
  by_cases hs : dst = s
  · subst hs
    simp [accept]
  · simp [accept, hs, Ne.symm hs]

/-- A send from this process. -/
theorem agree_emmit {con : ConnectorId} {dst : StageId} {args : List U} {c : Creation}
    {reply : Except String Unit} (h : Agree σ β)
    (hs : step xf σ (.emmit con dst args c reply) = some σ') :
    ∃ tr β', Run (Books.step xf) β tr β' ∧ Agree σ' β' := by
  cases hloc : σ.kernel.graph.isLocal dst with
  | true =>
      have hg := Goes.emmit xf con args c reply hloc
      simp only [step, hloc, if_true] at hs
      generalize σ.kernel.emmit xf con dst args c reply = r at hs hg
      obtain ⟨k, out⟩ := r
      cases out with
      | yes =>
          obtain rfl := Option.some.inj hs
          exact h.goes_idle (hg (by simp)) rfl rfl
            (accepted_accept { σ with kernel := k } dst _) rfl
      | refused m | raised m =>
          obtain rfl := Option.some.inj hs
          exact h.goes_idle (hg (by simp)) rfl rfl (fun s ↦ (append_nil _).symm) rfl
      | crash => cases hs
  | false =>
      cases step_cases hs with
      | emmit hloc' => exact absurd (hloc'.symm.trans hloc) (by simp)
      | remote _ hk =>
          have hlog : ∀ s, σ.accepted s = σ.accepted s ++ logOf s [] := fun s ↦ (append_nil _).symm
          rcases hk with rfl | rfl
          · exact h.goes_idle (.refl _) rfl rfl hlog rfl
          · have h₀ : threadStep xf σ.kernel [] (.emmit con dst args) =
                some (σ.kernel.statsUpdateEvents (σ.kernel.graph.producer con) con, []) := by
              simp only [threadStep, mayCall, if_true, hloc, Bool.false_eq_true, if_false]
            exact h.goes_idle (.quiet h₀ rfl rfl (.refl _)) rfl rfl hlog rfl

/-- An event from another process. -/
theorem agree_packed {dst : StageId} {e : List V} {c : Creation} (h : Agree σ β)
    (hs : step xf σ (.packed dst e c) = some σ') :
    ∃ tr β', Run (Books.step xf) β tr β' ∧ Agree σ' β' := by
  have hg := Goes.packed xf σ.kernel dst e c
  simp only [step, Option.some.injEq] at hs
  subst hs
  by_cases hr : (σ.kernel.emmitPackedEvent dst e c).2 = 0
  · rw [if_pos hr] at hg ⊢
    exact h.goes_idle hg rfl rfl
      (accepted_accept { σ with kernel := (σ.kernel.emmitPackedEvent dst e c).1 } dst e) rfl
  · rw [if_neg hr] at hg ⊢
    exact h.goes_idle hg rfl rfl (fun s ↦ (append_nil _).symm) rfl

/-- The log of the handlers that were started. -/
theorem handled_call (σ : System V) (i : InstId) (s : StageId) :
    (σ.call i).handled s = σ.handled s ++ logOf s (σ.kernel.starts i) := by
  unfold State.starts
  simp only [call]
  cases hsu : (σ.kernel.inst i).suspended with
  | true => simp
  | false =>
      simp only [Bool.false_eq_true, if_false, logOf_singleton]
      by_cases hs : σ.kernel.stageOf i = s
      · subst hs
        simp
      · simp [hs, Ne.symm hs]

/-- **Every operation that is not interrupted is a run of the machine.** -/
theorem matched : Matched (step xf) (Books.step xf) (Agree (T := T) (U := U))
    fun _ op ↦ op.steady = true := by
  intro σ op σ' β h hop hs
  have hlog : ∀ s, σ.accepted s = σ.accepted s ++ logOf s [] := fun s ↦ (append_nil _).symm
  have hnil : ∀ s, σ.handled s = σ.handled s ++ logOf s [] := fun s ↦ (append_nil _).symm
  cases step_cases hs with
  | emmit | remote => exact agree_emmit h hs
  | packed => exact agree_packed h hs
  | @dispatch i k hp =>
      exact h.goes (o := none) (u := some i) (r := σ.running) (.refl _) (.refl _)
        (Goes.dispatch hp) hlog (handled_call { σ with kernel := k } i)
  | @dispatchNull k hp =>
      have h₀ : threadStep xf σ.kernel [] .wait = some (k, []) := by
        simp only [threadStep, hp]
      have hc : calls σ.kernel [] (.wait : Act U V) = [] := by
        simp only [calls, hp]
      exact h.goes_idle (.quiet h₀ rfl hc (.refl _)) rfl rfl hlog rfl
  | @ret i y hi hd =>
      exact h.goes (o := some i) (u := none) (perm_cons_erase hi) (.refl _) (Goes.ret hd) hlog hnil
  | @pass i callee dst con args c hi hd =>
      refine h.goes (o := some i) (u := some callee) (perm_cons_erase hi) (.refl _)
        (Goes.pass hd) (accepted_accept _ dst _) fun s ↦ ?_
      exact handled_call _ callee s
  | callback hk => exact h.goes_idle (.complete hk) rfl rfl hlog rfl
  | kill => exact h.goes_idle (.quiet (q := .kill) rfl rfl rfl (.refl _)) rfl rfl hlog rfl
  | setMaxpar | setCapacity => cases hop

/-- **Whole operations are interleavings.**  Every run of operations that are not
interrupted, in which limits and capacities stay, is a run of the machine whose threads make
single accesses: one thread executes each operation while the others pause.  In the end the
two have the same kernel, the handlers that run are run by as many threads, and every
stage has the same events accepted and handled, in the same order. -/
theorem atomic_run (T : Type v) [DecidableEq T] [Infinite T] (xf : Transfer U V) (g : Graph)
    (ft : FullTest) (L pend : Int) {tr : List (System V × Op U V)} {σ : System V}
    (h : Run (step xf) (init g ft L pend) tr σ) (hsteady : ∀ p ∈ tr, p.2.steady = true) :
    ∃ (tr' : List (Books T U V × ((T × Act U V) × List (Slot V)))) (β : Books T U V),
      Run (Books.step xf) (Books.init g ft L pend) tr' β ∧ Agree σ β :=
  h.simulate matched (.init g ft L pend) hsteady

/-- `atomic_run` at `directThenQueued`: the machine handles the two events in the same order. -/
theorem atomic_run_directThenQueued :
    ∃ (tr : List (Books Nat Nat Nat × ((Nat × Act Nat Nat) × List (Slot Nat))))
      (β : Books Nat Nat Nat), Run (Books.step (.plain Nat))
        (Books.init (.single true) .exactly (-1) (-1)) tr β ∧
      logOf 0 β.handled = [[.value 1], [.value 2]] := by
  obtain ⟨σ, hσ⟩ : ∃ σ, exec (step (.plain Nat)) (init (.single true) .exactly (-1) (-1))
      directThenQueued = some σ := ⟨_, rfl⟩
  obtain ⟨tr, β, hrun, ha⟩ := atomic_run Nat _ _ _ _ _ (Run.of_exec hσ) (by decide)
  refine ⟨tr, β, hrun, (ha.handled 0).trans ?_⟩
  obtain rfl := Option.some.inj hσ
  decide

/-- What every interleaving keeps, whole operations keep: no event is handled that was not
accepted, and none more often. -/
theorem handled_le_accepted (xf : Transfer U V) (g : Graph) (ft : FullTest) (L pend : Int)
    {tr : List (System V × Op U V)} {σ : System V}
    (h : Run (step xf) (init g ft L pend) tr σ) (hsteady : ∀ p ∈ tr, p.2.steady = true)
    (s : StageId) :
    (σ.handled s : Multiset (List (Slot V))) ≤ ((σ.accepted s).map (map Slot.value) : List _) := by
  obtain ⟨tr', β, hrun, ha⟩ := h.simulate (matched (T := Nat)) (.init g ft L pend) hsteady
  have hb := Books.balanced_run hrun
  have hle : forStage s β.handled ≤ arrivals s β.accepted := by
    rw [← hb.balance s]
    exact Multiset.le_add_right _ _
  unfold forStage arrivals forStage at hle
  rw [ha.handled, ha.accepted, Multiset.map_coe] at hle
  exact hle

end System

end Leda.Kernel
