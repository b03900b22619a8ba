import Leda.Event.Transfer
import Leda.Kernel.Pending

/-!
# Sends that fail on their arguments

An argument that holds, at any depth, something that cannot be sent makes every route
fail.  What the failure does depends on what the kernel has done before it.

* `emmit` to another process marshals first, and the sender gets the error.
* `emmit` to a stage without an instance for it extracts the event before anything was
  pushed, and the sender gets the error.
* `emmit` to a stage with an instance for it copies into the instance, after
  `instance_aquire` took it out of circulation.  The sender gets the error, and nobody
  has the instance.
* A cohort copies after `instance_aquire`, too, and it does so in the dispatcher, where no
  protected call is in progress: the process ends.  It harms nobody only when it is
  refused an instance, and then it does not look at the arguments.

`send_failure_iff` says that this is all there is to it.
-/

universe u

namespace Leda.Kernel

open Leda.Lib Leda.Lua Leda.Event List

variable {U V : Type u}

/-- The instance is idle or ready. -/
def Available (k : State V) (s : StageId) (i : InstId) : Prop :=
  i ∈ (k.recycleQueues s).items ∨ some i ∈ k.readyQueue.items

instance (k : State V) (s : StageId) (i : InstId) : Decidable (Available k s i) :=
  inferInstanceAs (Decidable (_ ∨ _))

/-- Every instance of the destination that was idle or ready still is, and so is the one
that was taken. -/
def Unharmed (k k' : State V) (dst : StageId) (taken : Option InstId) : Prop :=
  (∀ i ∈ k.liveOf dst, Available k dst i → Available k' dst i) ∧
    ∀ i, taken = some i → Available k' dst i

/-- The sending handler got an error or a failure result. -/
def Sent.Reported : Sent → Prop
  | .raised _ | .refused _ => True
  | .yes | .crash => False

/-- A failing `emmit` is reported to the sender and harms nobody else. -/
def EmmitHarmless (xf : Transfer U V) (k : State V) (con : ConnectorId) (dst : StageId)
    (args : List U) (c : Creation) (reply : Except String Unit) : Prop :=
  (k.emmit xf con dst args c reply).2.Reported ∧
    Unharmed k (k.emmit xf con dst args c reply).1 dst
      (if k.graph.isLocal dst then (k.instanceAquire dst c).2 else none)

/-- A failing cohort resumes the caller with `nil` and a message, and harms nobody else. -/
def CohortHarmless (xf : Transfer U V) (k : State V) (i : InstId) (con : ConnectorId)
    (dst : StageId) (args : List U) (c : Creation) : Prop :=
  let r := k.threadReturn xf i (.cohort dst con args c)
  r.2 = .done ∧ some i ∈ r.1.readyQueue.items ∧
    (∃ m, (r.1.inst i).stack = [.handler, .nil, .string m]) ∧
    Unharmed k r.1 dst (k.instanceAquire dst c).2

section Failure

variable {xf : Transfer U V} {k k₁ : State V} {s dst : StageId} {i : InstId} {c : Creation}
  {args : List U} {running : List InstId}

/-- When `instance_aquire` returns `NULL` it has left the recycle queues alone. -/
theorem recycleQueues_aquire_none (ha : k.instanceAquire s c = (k₁, none)) :
    k₁.recycleQueues = k.recycleQueues := by
  have hc := k.instanceAquire_cases s c
  rw [ha] at hc
  generalize hr : (k₁, (none : Option InstId)) = p at hc
  cases hc with
  | refused =>
      obtain rfl : k₁ = _ := congrArg Prod.fst hr
      rfl
  | recycled => cases hr
  | created =>
      cases c with
      | ok => cases hr
      | initFails | loadFails =>
          obtain rfl : k₁ = _ := congrArg Prod.fst hr
          rfl

/-- What was idle or ready still is when `instance_aquire` returned `NULL`. -/
theorem available_aquire_none (ha : k.instanceAquire s c = (k₁, none))
    (h : Available k dst i) : Available k₁ dst i := by
  unfold Available
  rw [recycleQueues_aquire_none ha, (untouched_of_aquire ha).ready]
  exact h

/-- An instance in the hands of a sender is neither idle nor ready. -/
theorem not_available_aquired (ho : Owned k fun _ : Unit ↦ running)
    (ha : k.instanceAquire s c = (k₁, some i)) (dst : StageId) : ¬ Available k₁ dst i := by
  have h := instanceAquire_owned ho () s c
  rw [ha, System.update_unit] at h
  have hi : i ∈ places k₁ (fun _ : Unit ↦ [i] ++ running) (.hands ()) := by simp [places]
  rintro (hr | hr)
  · have := h.exclusive.place_unique (p := .recycle dst) hr hi
    simp at this
  · have := h.exclusive.place_unique (p := .ready) (mem_filterMap.2 ⟨some i, hr, rfl⟩) hi
    simp at this

/-- To another process: the arguments are marshalled before anything happens. -/
theorem emmitHarmless_remote (hremote : ∀ b, xf.remote args ≠ .ok b)
    (hloc : k.graph.isLocal dst = false) (con : ConnectorId) (c : Creation)
    (reply : Except String Unit) :
    EmmitHarmless xf k con dst args c reply ↔ xf.remote args ≠ .crash := by
  unfold EmmitHarmless State.emmit
  simp only [hloc, Bool.not_false, if_true, State.emmitRemoteSync, Bool.false_eq_true, if_false]
  cases hx : xf.remote args with
  | ok b => exact absurd hx (hremote b)
  | raised m =>
      refine iff_of_true ⟨trivial, fun j _ hj ↦ hj, ?_⟩ (by simp)
      intro j hj
      cases hj
  | crash => exact iff_of_false (fun h ↦ h.1) (fun h ↦ h rfl)

/-- In this process, with no instance for it: the event is extracted before it is pushed. -/
theorem emmitHarmless_denied (hextract : ∀ e, xf.extract args ≠ .ok e)
    (hloc : k.graph.isLocal dst = true) (hden : k.Denied dst c) (con : ConnectorId)
    (reply : Except String Unit) :
    EmmitHarmless xf k con dst args c reply ↔ xf.extract args ≠ .crash := by
  unfold EmmitHarmless State.emmit
  simp only [hloc, Bool.not_true, Bool.false_eq_true, if_false, if_true]
  rw [denied_iff] at hden
  rcases ha : k.instanceAquire dst c with ⟨k₁, _ | i⟩
  · simp only
    cases hx : xf.extract args with
    | ok e => exact absurd hx (hextract e)
    | raised m =>
        refine iff_of_true ⟨trivial, fun j _ hj ↦ available_aquire_none ha hj, ?_⟩ (by simp)
        intro j hj
        cases hj
    | crash => exact iff_of_false (fun h ↦ h.1) (fun h ↦ h rfl)
  · rw [ha] at hden
    cases hden

/-- With an instance for it, the copy fails when the instance is out of circulation. -/
theorem not_emmitHarmless (ho : Owned k fun _ : Unit ↦ running)
    (hcopy : ∀ e, xf.copy args ≠ .ok e) (hloc : k.graph.isLocal dst = true)
    (hden : ¬ k.Denied dst c) (con : ConnectorId) (reply : Except String Unit) :
    ¬ EmmitHarmless xf k con dst args c reply := by
  unfold EmmitHarmless State.emmit
  simp only [hloc, Bool.not_true, Bool.false_eq_true, if_false, if_true]
  rw [denied_iff] at hden
  rcases ha : k.instanceAquire dst c with ⟨k₁, _ | i⟩
  · exact absurd (congrArg Prod.snd ha) hden
  · simp only
    cases hx : xf.copy args with
    | ok e => exact absurd hx (hcopy e)
    | raised m => exact fun h ↦ not_available_aquired ho ha dst (h.2.2 i rfl)
    | crash => exact fun h ↦ h.1

/-- **When a cohort with arguments that cannot be copied harms nobody.** -/
theorem cohortHarmless_iff (hcopy : ∀ e, xf.copy args ≠ .ok e) (k : State V) (i : InstId)
    (con : ConnectorId) (dst : StageId) (c : Creation) :
    CohortHarmless xf k i con dst args c ↔ k.Denied dst c := by
  have hden : k.Denied dst c ↔ _ := denied_suspend_iff (i := i)
  unfold CohortHarmless
  simp only [State.threadReturn, State.emmitCohort, Yield.inside]
  rw [hden]
  rcases ha : (k.suspend i).instanceAquire dst c with ⟨k₁, _ | callee⟩
  · have ha' : (k.modifyInst i fun d ↦ { d with suspended := true }).instanceAquire dst c =
        (k₁, none) := ha
    simp only [ha', iff_true, State.refuse, State.settle, true_and]
    refine ⟨mem_append_right _ mem_cons_self, ⟨k₁.cohortMessage dst, ?_⟩, fun j _ hj ↦ ?_,
      fun j hj ↦ ?_⟩
    · change ((k₁.prepare i _).inst i).stack = _
      simp [State.inst_modifyInst_self]
    · have hj' := available_aquire_none (k := k.suspend i) ha hj
      exact hj'.imp_right (mem_append_left _)
    · have hnone := denied_iff.1 (hden.2 (by rw [ha]))
      rw [hnone] at hj
      cases hj
  · have ha' : (k.modifyInst i fun d ↦ { d with suspended := true }).instanceAquire dst c =
        (k₁, some callee) := ha
    simp only [ha', reduceCtorEq, iff_false]
    cases hx : xf.copy args with
    | ok e => exact absurd hx (hcopy e)
    | raised m => exact fun h ↦ by cases h.1
    | crash => exact fun h ↦ by cases h.1

end Failure

/-- **When sends with arguments that cannot be sent harm nobody.**  In every state a run
reaches, and for every sender whose arguments are or hold something that cannot be sent:
`emmit` reports the failure and leaves the instances of the destination where they were,
iff the destination is in another process, or no instance of it can be acquired, and the
encoder has room on the C stack and on the Lua stack; a cohort does, iff no instance can be
acquired. -/
theorem send_failure_iff {W : Type} (xf₀ : Transfer W Element) (g : Graph) (ft : FullTest)
    (L pend : Int) {tr : List (System Element × Op W Element)} {σ : System Element}
    (h : Run (System.step xf₀) (System.init g ft L pend) tr σ) (S : Sender)
    (decodes : List UInt8 → Bool) {args : List Value} (hs : Spoiled S.lua52 S.heap args)
    (con : ConnectorId) (dst : StageId) (c : Creation) :
    (∀ reply, EmmitHarmless (luaTransfer S decodes) σ.kernel con dst args c reply ↔
      σ.kernel.graph.isLocal dst = false ∧ (luaTransfer S decodes).remote args ≠ .crash ∨
      σ.kernel.graph.isLocal dst = true ∧ σ.kernel.Denied dst c ∧
        (luaTransfer S decodes).extract args ≠ .crash) ∧
    ∀ i, CohortHarmless (luaTransfer S decodes) σ.kernel i con dst args c ↔
      σ.kernel.Denied dst c := by
  obtain ⟨hcopy, hextract, hremote⟩ := luaTransfer_spoiled decodes hs
  have ho : σ.Owns :=
    h.invariant' (System.owns_init g ft L pend) fun _ _ _ ho hstep ↦ System.owns_step ho hstep
  refine ⟨fun reply ↦ ?_, fun i ↦ cohortHarmless_iff hcopy σ.kernel i con dst c⟩
  cases hloc : σ.kernel.graph.isLocal dst with
  | false => simp [emmitHarmless_remote hremote hloc con c reply]
  | true =>
      by_cases hden : σ.kernel.Denied dst c
      · simp [emmitHarmless_denied hextract hloc hden con reply, hden]
      · simp [not_emmitHarmless ho hcopy hloc hden con reply, hden]

/-- A sender whose only object is a coroutine. -/
def coroutineSender : Sender where
  hooks := .none
  lua52 := true
  depth := 200
  heap := [.thread]

/-- The coroutine is what it sends. -/
theorem spoiled_coroutine : Spoiled true coroutineSender.heap [.object 0] :=
  ⟨0, 0, by simp, by decide, .refl, trivial⟩

/-- The instance is idle after the event of `idleInstance`. -/
def idleInstance : List (Op Element Element) :=
  [.emmit 0 0 [.nil] .ok (.ok ()), .dispatch, .ret 0 .ended]

/-- **A coroutine takes an instance with it**: after `idleInstance`, the error of
`emmit` leaves the only instance of the stage neither idle nor ready. -/
theorem send_failure_harms :
    ¬ ∀ (xf₀ : Transfer Element Element) (g : Graph) (ft : FullTest) (L pend : Int)
      (tr : List (System Element × Op Element Element)) (σ : System Element),
      Run (System.step xf₀) (System.init g ft L pend) tr σ →
      ∀ (S : Sender) (decodes : List UInt8 → Bool) (args : List Value),
      Spoiled S.lua52 S.heap args → ∀ con dst c reply i,
        EmmitHarmless (luaTransfer S decodes) σ.kernel con dst args c reply ∧
        CohortHarmless (luaTransfer S decodes) σ.kernel i con dst args c := by
  intro h
  obtain ⟨σ, hσ⟩ : ∃ σ, exec (System.step (.plain Element))
      (System.init (.single true) .exactly (-1) (-1)) idleInstance = some σ := ⟨_, rfl⟩
  have hx := (h _ _ _ _ _ _ σ (Run.of_exec hσ) coroutineSender (fun _ ↦ true) _
    spoiled_coroutine 0 0 .ok (.ok ()) 0).1.2.2 0
  obtain rfl := Option.some.inj hσ
  exact absurd (hx rfl) (by decide)

/-- The instance is running, and it is the only one the stage may have. -/
def runningInstance : List (Op Element Element) :=
  [.emmit 0 0 [.nil] .ok (.ok ()), .dispatch]

/-- `send_failure_iff` after `runningInstance`: the event would be queued, and the error of
extracting it harms nobody; neither would a cohort. -/
theorem send_failure_runningInstance :
    ∃ σ : System Element, exec (System.step (.plain Element))
      (System.init (.single true) .exactly (-1) (-1)) runningInstance = some σ ∧
      EmmitHarmless (luaTransfer coroutineSender fun _ ↦ true) σ.kernel 0 0 [.object 0] .ok
        (.ok ()) ∧
      CohortHarmless (luaTransfer coroutineSender fun _ ↦ true) σ.kernel 0 0 0 [.object 0]
        .initFails := by
  obtain ⟨σ, hσ⟩ : ∃ σ, exec (System.step (.plain Element))
      (System.init (.single true) .exactly (-1) (-1)) runningInstance = some σ := ⟨_, rfl⟩
  have hx := send_failure_iff (.plain Element) _ _ _ _ (Run.of_exec hσ) coroutineSender
    (fun _ ↦ true) spoiled_coroutine 0 0
  obtain rfl := Option.some.inj hσ
  exact ⟨_, rfl, ((hx .ok).1 _).2 (.inr (by decide)), ((hx .initFails).2 0).2 (by decide)⟩

end Leda.Kernel
