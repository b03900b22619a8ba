import Leda.Kernel.Atomic
import Leda.Kernel.Pending
import Leda.Lib.Potential
import Mathlib.Algebra.BigOperators.Group.Finset.Piecewise
import Mathlib.Algebra.Order.BigOperators.Group.Finset

/-!
# Work is finite, and done completely

Workers take instances from the ready queue, handlers end, and completions resume handlers:
that is what the kernel does with what it was given (`Op.serves`).  Everything else gives it
more to do: a send, an event from another process, a handler that sleeps, waits or is nice,
a cohort.

A pending event is worth two operations, its dispatch and the return of its handler; so is a
ready instance, and a registered completion is worth three.  Each operation that serves lowers
this sum by one at least, and every other one raises it by two at most.  So **no more is served
than twice of what was given** (`serves_le`), and if nothing more is given the kernel comes
to rest.  Then **every event that was accepted has been handled** (`drained`), as long as
events stay in reach of an active instance, which `Safe` says operation by operation.
-/

universe u v

namespace Leda.Kernel

open Leda.Lib List

variable {U V : Type u}

/-- The operations that only serve what was given. -/
def Op.serves : Op U V → Bool
  | .dispatch | .ret _ .ended | .callback .. => true
  | _ => false

namespace State

/-- What is left to do, as far as the stages `F` are concerned. -/
def work (F : Finset StageId) (k : State V) : Nat :=
  3 * k.registered.length + 2 * k.readyQueue.items.length +
    2 * ∑ s ∈ F, (k.eventQueues s).items.length

section

variable {F : Finset StageId} {k k' : State V} {i : InstId} {s : StageId} {e : List V}

theorem work_congr (hg : k'.registered = k.registered)
    (hr : k'.readyQueue.items = k.readyQueue.items)
    (he : ∀ s, (k'.eventQueues s).items = (k.eventQueues s).items) : k'.work F = k.work F := by
  simp only [work, hg, hr, he]

theorem work_modifyInst (f : Instance V → Instance V) : (k.modifyInst i f).work F = k.work F := rfl

theorem work_pushReadyQueue : (k.pushReadyQueue i).work F = k.work F + 2 := by
  simp only [work, pushReadyQueue, pushReady, Fifo.append, length_append, length_singleton]
  omega

theorem work_register {c : Completion} : (k.register i c).work F = k.work F + 3 := by
  simp only [work, register, length_append, length_singleton]
  omega

/-- An event that is queued. -/
theorem work_tryPushEvent (hp : k.tryPushEvent s e = some k') : k'.work F ≤ k.work F + 2 := by
  obtain ⟨-, rfl⟩ := tryPushEvent_eq_some.1 hp
  have hle :
      ∑ r ∈ F, (Function.update k.eventQueues s ((k.eventQueues s).append e) r).items.length ≤
        ∑ r ∈ F, (k.eventQueues r).items.length + 1 := by
    calc _ ≤ ∑ r ∈ F, ((k.eventQueues r).items.length + if r = s then 1 else 0) := by
          refine Finset.sum_le_sum fun r _ ↦ ?_
          by_cases hr : r = s
          · subst hr
            simp
          · simp [hr]
      _ ≤ _ := by
          rw [Finset.sum_add_distrib, Finset.sum_ite_eq']
          split <;> omega
  simp only [work]
  omega

/-- An event that is taken out again. -/
theorem work_tryPopEvent (hs : s ∈ F) (hp : k.tryPopEvent s = some (e, k')) :
    k'.work F + 2 = k.work F := by
  obtain ⟨q, hq, -, rfl⟩ := tryPopEvent_eq_some.1 hp
  have hrest : ∑ r ∈ F.erase s, (Function.update k.eventQueues s q r).items.length =
      ∑ r ∈ F.erase s, (k.eventQueues r).items.length := by
    refine Finset.sum_congr rfl fun r hr ↦ ?_
    rw [Function.update_of_ne (Finset.ne_of_mem_erase hr)]
  have hlen := congrArg length hq
  have hold := Finset.add_sum_erase F (fun r ↦ (k.eventQueues r).items.length) hs
  have hnew :=
    Finset.add_sum_erase F (fun r ↦ (Function.update k.eventQueues s q r).items.length) hs
  simp only [length_cons] at hlen
  simp only [Function.update_self, hrest] at hnew
  simp only [work]
  omega

/-- An instance that is released takes the next event, or is idle. -/
theorem work_instanceRelease (hs : (k.eventQueues (k.stageOf i)).items ≠ [] → k.stageOf i ∈ F) :
    (k.instanceRelease i).1.work F ≤ k.work F := by
  rcases k.instanceRelease_cases i with ⟨e, k', hp, he⟩ | ⟨-, -, he⟩ | ⟨-, k', hp, he⟩ <;>
    simp only [he]
  · have hne : (k.eventQueues (k.stageOf i)).items ≠ [] := by
      obtain ⟨q, hq, -, -⟩ := tryPopEvent_eq_some.1 hp
      have hq : (k.eventQueues (k.stageOf i)).items = e :: q.items := hq
      simp [hq]
    have hpop := work_tryPopEvent (hs hne) hp
    rw [work_pushReadyQueue]
    exact Nat.le_of_eq hpop
  · exact Nat.le_refl _
  · obtain ⟨-, rfl⟩ := tryPushRecycle_eq_some.1 hp
    exact Nat.le_refl _

end

end State

/-! ## One operation -/

section

variable {xf : Transfer U V} {F : Finset StageId} {k k' : State V} {i : InstId} {s : StageId}

theorem Untouched.work_eq (h : Untouched k k') : k'.work F = k.work F :=
  State.work_congr h.registered (congrArg _ h.ready) fun s ↦ by rw [h.events]

/-- A send adds an event to a queue or an instance to the ready queue. -/
theorem Delivery.work_le {dst : StageId} {c : Creation} {ok : Prop} {o : Option (List V)}
    (hd : Delivery k dst c ok k' o) : k'.work F ≤ k.work F + 2 := by
  cases hd with
  | queued p con _ haq hp =>
      rw [← (untouched_of_aquire haq).work_eq]
      have hle := State.work_tryPushEvent (F := F) hp
      exact hle
  | notQueued haq =>
      rw [(untouched_of_aquire haq).work_eq]
      exact Nat.le_add_right _ _
  | @handed k₁ i _ f p con haq hf =>
      rw [← (untouched_of_aquire haq).work_eq]
      have heq := State.work_pushReadyQueue (F := F) (k := k₁.modifyInst i f) (i := i)
      exact Nat.le_of_eq heq
  | wasted f haq =>
      rw [← (untouched_of_aquire haq).work_eq]
      exact Nat.le_add_right _ _

/-- A handler that does not end leaves its instance to somebody or to nobody. -/
theorem Left.work_le {y : Yield U} (hl : Left xf k i y k') (hy : y ≠ .ended) :
    k'.work F ≤ k.work F + 3 := by
  cases hl with
  | released => exact absurd rfl hy
  | destroyed | lost => exact Nat.le_add_right _ _
  | resumed =>
      rw [State.work_pushReadyQueue]
      exact Nat.add_le_add_left (by omega) _
  | registered => exact Nat.le_of_eq State.work_register
  | refused haq =>
      rw [State.work_pushReadyQueue]
      have hu := (untouched_of_aquire haq).work_eq (F := F)
      exact Nat.add_le_add (Nat.le_of_eq hu) (by omega)

/-- A completion hands its instance on. -/
theorem State.work_complete {c : Completion} {o : Outcome} (h : k.complete i c o = some k') :
    k'.work F + 1 = k.work F := by
  unfold State.complete at h
  split at h
  · rename_i hm
    obtain rfl := Option.some.inj h
    have hlen := length_erase_of_mem hm
    have hpos := length_pos_of_mem hm
    have hk : ({ k with registered := k.registered.erase (i, c) } : State V).work F + 3 =
        k.work F := by
      simp only [work, hlen]
      omega
    rw [State.work_pushReadyQueue, ← hk]
    rfl
  · cases h

namespace System

variable {σ σ' : System V} {op : Op U V}

/-- What is left to do: what the kernel has to, and the handlers that run. -/
def work (F : Finset StageId) (σ : System V) : Nat := σ.kernel.work F + σ.running.length

theorem work_call (σ : System V) (i : InstId) : (σ.call i).work F = σ.work F + 1 := by
  obtain ⟨f, hf⟩ := σ.call_kernel i
  have hrun : (σ.call i).running = i :: σ.running := rfl
  rw [work, work, hf, hrun, length_cons, State.work_modifyInst]
  rfl

/-- **Serving lowers what is left to do**, if `F` are the stages that have pending events. -/
theorem work_serves (hF : ∀ s, (σ.kernel.eventQueues s).items ≠ [] → s ∈ F)
    (hop : op.serves = true) (hs : step xf σ op = some σ') : σ'.work F + 1 ≤ σ.work F := by
  cases step_cases hs with
  | @dispatch i k hp =>
      obtain ⟨q, hq, -, rfl⟩ := State.popReady_eq_some.1 hp
      rw [work_call]
      simp only [work, State.work, hq, length_cons]
      omega
  | @dispatchNull k hp =>
      obtain ⟨q, hq, -, rfl⟩ := State.popReady_eq_some.1 hp
      simp only [work, State.work, hq, length_cons]
      omega
  | @ret i y hi hd =>
      cases y with
      | ended =>
          have hle : (σ.kernel.threadReturn xf i .ended).1.work F ≤ σ.kernel.work F := by
            refine State.work_instanceRelease (k := σ.kernel.modifyInst i fun d ↦
              { d with suspended := false }) fun hne ↦ hF _ ?_
            exact hne
          have hlen := length_erase_of_mem hi
          have hpos := length_pos_of_mem hi
          simp only [work]
          omega
      | pcallError | destroy | cohort | remote | waitIo | fileIo | sleep | nice | unknown =>
          cases hop
  | callback hc =>
      have := State.work_complete (F := F) hc
      simp only [work]
      omega
  | emmit | remote | packed | pass | kill | setMaxpar | setCapacity => cases hop

/-- **Anything else raises it by two** at most. -/
theorem work_other (hop : op.serves = false) (hs : step xf σ op = some σ') :
    σ'.work F ≤ σ.work F + 2 := by
  cases step_cases hs with
  | @emmit _ _ _ _ _ k o _ hd =>
      have hle := hd.work_le (F := F)
      cases o <;> simp only [work, deliver, accept] <;> omega
  | remote _ hk =>
      rcases hk with rfl | rfl <;> exact Nat.le_add_right _ _
  | @packed _ _ _ k o hd =>
      have hle := hd.work_le (F := F)
      cases o <;> simp only [work, deliver, accept] <;> omega
  | @ret i y hi hd =>
      have hle := (threadReturn_left y hd).work_le (F := F) fun he ↦ by
        subst he
        cases hop
      have hlen := length_erase_of_mem hi
      have hpos := length_pos_of_mem hi
      simp only [work]
      omega
  | @pass i callee dst con args c hi hd =>
      obtain ⟨k₁, e, haq, -, hk⟩ := threadReturn_pass hd
      have hu := (untouched_of_aquire haq).work_eq (F := F)
      have hlen := length_erase_of_mem hi
      have hpos := length_pos_of_mem hi
      have hw : (σ.kernel.threadReturn xf i (.cohort dst con args c)).1.work F =
          (σ.kernel.suspend i).work F + 2 := by
        rw [hk, ← hu]
        have heq := State.work_pushReadyQueue (F := F) (i := i)
          (k := (k₁.load callee e).prepare i [.boolean true])
        exact heq
      have hsus : (σ.kernel.suspend i).work F = σ.kernel.work F := rfl
      rw [work_call]
      simp only [work, accept, hw, hsus]
      omega
  | kill =>
      simp only [work, State.work, State.pushReady, Fifo.append, length_append, length_singleton]
      omega
  | @setMaxpar a b =>
      have h := same_instanceSetMaxpar σ.kernel a b
      have hw : (σ.kernel.instanceSetMaxpar a b).1.work F = σ.kernel.work F :=
        State.work_congr h.registered h.ready fun s ↦ by
          rcases σ.kernel.instanceSetMaxpar_cases a b with he | ⟨p, -, -, he⟩ <;> rw [he]
          rfl
      simp only [work, hw]
      omega
  | @setCapacity j cap =>
      have h := same_ledaSetCapacity σ.kernel j cap
      have hw : (σ.kernel.ledaSetCapacity j cap).1.work F = σ.kernel.work F :=
        State.work_congr h.registered h.ready (ledaSetCapacity_frame σ.kernel j cap).2.2.2
      simp only [work, hw]
      omega
  | dispatch | dispatchNull | callback => cases hop

/-- An operation queues events for one stage at most. -/
theorem pending_step (ho : σ.Owns) (hs : step xf σ op = some σ') : ∃ d, ∀ s,
    (σ'.kernel.eventQueues s).items ≠ [] → s = d ∨ (σ.kernel.eventQueues s).items ≠ [] := by
  have hsend : ∀ {dst : StageId} {c : Creation} {ok : Prop} {k : State V} {o : Option (List V)},
      Delivery σ.kernel dst c ok k o → ∀ s, ((σ.deliver dst k o).kernel.eventQueues s).items ≠ [] →
        s = dst ∨ (σ.kernel.eventQueues s).items ≠ [] := by
    intro dst c ok k o hd s hne
    have hk : (σ.deliver dst k o).kernel = k := by cases o <;> rfl
    rw [hk] at hne
    by_cases hsd : s = dst
    · exact .inl hsd
    · refine .inr ?_
      cases hd with
      | @queued k₁ _ _ p con _ haq hp =>
          obtain ⟨-, rfl⟩ := State.tryPushEvent_eq_some.1 hp
          change (Function.update k₁.eventQueues dst _ s).items ≠ [] at hne
          rwa [Function.update_of_ne hsd, (untouched_of_aquire haq).events] at hne
      | notQueued haq | wasted f haq | handed p con haq hf =>
          have he := congrArg (fun q ↦ (q s).items) (untouched_of_aquire haq).events
          exact fun h0 ↦ hne (he.trans h0)
  have hkeep : (∀ s, (σ.kernel.eventQueues s).items = [] → (σ'.kernel.eventQueues s).items = []) →
      ∃ d, ∀ s, (σ'.kernel.eventQueues s).items ≠ [] →
        s = d ∨ (σ.kernel.eventQueues s).items ≠ [] :=
    fun h ↦ ⟨0, fun s hne ↦ .inr fun h0 ↦ hne (h s h0)⟩
  cases step_cases hs with
  | @emmit _ dst _ _ _ _ _ _ hd => exact ⟨dst, hsend hd⟩
  | @packed dst _ _ _ _ hd => exact ⟨dst, hsend hd⟩
  | remote _ hk => rcases hk with rfl | rfl <;> exact hkeep fun s ↦ id
  | @dispatch i k hp =>
      obtain ⟨q, -, -, rfl⟩ := State.popReady_eq_some.1 hp
      exact hkeep fun s ↦
        (calm_call s { σ with kernel := { σ.kernel with readyQueue := q } } i).events
  | dispatchNull hp =>
      obtain ⟨q, -, -, rfl⟩ := State.popReady_eq_some.1 hp
      exact hkeep fun s ↦ id
  | ret hi hd => exact hkeep ((threadReturn_left _ hd).leaves ho.accounted).events
  | @pass i callee dst con args c hi hd =>
      obtain ⟨k₁, e, haq, -, hk⟩ := threadReturn_pass hd
      refine hkeep fun s he ↦ (calm_call s _ callee).events ?_
      simp only [accept, hk]
      exact (congrArg (fun q ↦ (q s).items) (untouched_of_aquire haq).events).trans he
  | callback hc =>
      unfold State.complete at hc
      split at hc
      · obtain rfl := Option.some.inj hc
        exact hkeep fun s ↦ id
      · cases hc
  | kill => exact hkeep fun s ↦ id
  | @setMaxpar a b =>
      refine hkeep fun s he ↦ ?_
      rcases σ.kernel.instanceSetMaxpar_cases a b with h | ⟨p, -, -, h⟩ <;> simp only [h] <;>
        exact he
  | @setCapacity j cap =>
      exact hkeep fun s he ↦ ((ledaSetCapacity_frame σ.kernel j cap).2.2.2 s).trans he

/-! ## Runs -/

variable {g : Graph} {ft : FullTest} {L pend : Int} {tr : List (System V × Op U V)}

theorem owns_run (h : Run (step xf) (init g ft L pend) tr σ) : σ.Owns :=
  h.invariant' (owns_init g ft L pend) fun _ _ _ ho hs ↦ owns_step ho hs

/-- Few stages have ever had pending events. -/
theorem exists_stages (h : Run (step xf) (init g ft L pend) tr σ) :
    ∃ F : Finset StageId, ∀ x ∈ visited tr σ, ∀ s, (x.kernel.eventQueues s).items ≠ [] → s ∈ F := by
  induction h with
  | nil =>
      refine ⟨∅, fun x hx s hne ↦ ?_⟩
      obtain rfl := mem_singleton.1 hx
      exact absurd rfl hne
  | @snoc tr σ σ' op hrun hs ih =>
      obtain ⟨F, hF⟩ := ih
      obtain ⟨d, hd⟩ := pending_step (owns_run hrun) hs
      refine ⟨insert d F, fun x hx s hne ↦ ?_⟩
      rcases mem_append.1 hx with hx | hx
      · rw [map_append, map_singleton] at hx
        exact Finset.mem_insert_of_mem (hF x hx s hne)
      · obtain rfl := mem_singleton.1 hx
        rcases hd s hne with rfl | hne
        · exact Finset.mem_insert_self s F
        · exact Finset.mem_insert_of_mem (hF σ (mem_append_right _ mem_cons_self) s hne)

theorem work_init (F : Finset StageId) : (init g ft L pend : System V).work F = 0 := by
  unfold work State.work
  simp [init, State.instanceInit, Fifo.empty]

/-- At rest nothing is ready, running or registered. -/
theorem settled_of_atRest (h : AtRest (step xf) Op.serves σ) :
    σ.kernel.readyQueue.items = [] ∧ σ.running = [] ∧ σ.kernel.registered = [] := by
  refine ⟨?_, ?_, ?_⟩
  · have hd := h .dispatch rfl
    cases hp : σ.kernel.popReady with
    | none => simpa [State.popReady, Fifo.tryPop_eq_none] using hp
    | some p =>
        obtain ⟨o, k⟩ := p
        cases o <;> simp [step, hp] at hd
  · refine eq_nil_iff_forall_not_mem.2 fun i hi ↦ ?_
    have hr := h (.ret i .ended) rfl
    simp [step, hi, State.threadReturn] at hr
  · refine eq_nil_iff_forall_not_mem.2 fun x hc ↦ ?_
    obtain ⟨i, c⟩ := x
    have hcb := h (.callback i c .ok) rfl
    simp [step, State.complete, hc] at hcb

/-- Serving accepts nothing. -/
theorem accepted_serves (hop : op.serves = true) (hs : step xf σ op = some σ') :
    σ'.accepted = σ.accepted := by
  cases step_cases hs with
  | dispatch | dispatchNull | ret | callback => rfl
  | emmit | remote | packed | pass | kill | setMaxpar | setCapacity => cases hop

/-- And it strands nothing. -/
theorem safe_serves (hop : op.serves = true) : Safe xf s σ op := by
  cases op with
  | dispatch | callback => exact trivial
  | ret i y =>
      cases y with
      | ended =>
          intro _ hy
          rcases hy with hy | hy <;> cases hy
      | pcallError | destroy | cohort | remote | waitIo | fileIo | sleep | nice | unknown =>
          cases hop
  | emmit | packed | kill | setMaxpar | setCapacity => cases hop

theorem steady_serves (hop : op.serves = true) : op.steady = true := by
  cases op with
  | dispatch | ret | callback => rfl
  | emmit | packed | kill | setMaxpar | setCapacity => cases hop

/-- No more is served than twice of what was given. -/
theorem serves_run (h : Run (step xf) (init g ft L pend) tr σ) :
    tr.countP (fun p ↦ p.2.serves) ≤ 2 * tr.countP fun p ↦ !p.2.serves := by
  obtain ⟨F, hF⟩ := exists_stages h
  have hle := h.work_le (Φ := work F) (c := 2)
    (C := fun σ _ ↦ ∀ s, (σ.kernel.eventQueues s).items ≠ [] → s ∈ F)
    (fun _ _ _ hC hop hs ↦ work_serves hC hop hs) (fun _ _ _ _ hop hs ↦ work_other hop hs)
    fun p hp ↦ hF p.1 (mem_append_left _ (mem_map_of_mem hp))
  rw [work_init] at hle
  omega

/-- **At rest everything that was accepted has been handled.** -/
theorem handled_of_atRest (h : Run (step xf) (init g ft L pend) tr σ)
    (hsteady : ∀ p ∈ tr, p.2.steady = true) (hsafe : ∀ p ∈ tr, Safe xf s p.1 p.2)
    (hrest : AtRest (step xf) Op.serves σ) :
    (σ.handled s : Multiset (List (Slot V))) = ((σ.accepted s).map (map Slot.value) : List _) := by
  obtain ⟨hready, hrunning, hreg⟩ := settled_of_atRest hrest
  have hreach : σ.Owns ∧ σ.InReach s := h.invariant
    (I := fun σ ↦ σ.Owns ∧ σ.InReach s) (C := Safe xf s)
    ⟨owns_init g ft L pend, fun hne ↦ absurd rfl hne⟩
    (fun _ _ _ hI hC hs ↦ ⟨owns_step hI.1 hs, inReach_step hI.1 hC hI.2 hs⟩) hsafe
  have hpending : (σ.kernel.eventQueues s).items = [] := by
    by_contra hne
    obtain ⟨i, -, ha | ha | ha⟩ := hreach.2 hne
    · rw [hready] at ha
      cases ha
    · rw [hrunning] at ha
      cases ha
    · rw [hreg] at ha
      cases ha
  obtain ⟨tr', β, hrun, ha⟩ := h.simulate (matched (T := Nat)) (.init g ft L pend) hsteady
  have hb := (Books.balanced_run hrun).balance s
  have hstack : ∀ t, β.stack t = [] := by
    obtain ⟨ts, -, hts, -, hidle⟩ := ha.serves
    rw [hrunning] at hts
    obtain rfl : ts = [] := by simpa using hts.length_eq
    exact fun t ↦ hidle t not_mem_nil
  rw [Books.underway_eq_zero hstack (by rw [ha.kernel, hready]) (by rw [ha.kernel, hpending]),
    add_zero] at hb
  unfold forStage arrivals forStage at hb
  rw [ha.handled, ha.accepted, Multiset.map_coe] at hb
  exact hb

/-- **No more is served than twice of what was given**, in every run: the dispatches, the
handlers that end and the completions together are at most twice as many as the other
operations.  So the kernel does nothing forever on its own. -/
theorem serves_le (xf : Transfer U V) (g : Graph) (ft : FullTest) (L pend : Int)
    {tr : List (System V × Op U V)} {σ : System V} (h : Run (step xf) (init g ft L pend) tr σ) :
    tr.countP (fun p ↦ p.2.serves) ≤ 2 * tr.countP fun p ↦ !p.2.serves := serves_run h

/-- Two sends, and the first event is handled. -/
def oneOfTwo : List (Op Nat Nat) :=
  [.emmit 0 0 [1] .ok (.ok ()), .emmit 0 0 [2] .ok (.ok ()), .dispatch, .ret 0 .ended]

theorem serves_le_oneOfTwo : ∃ σ : System Nat, exec (step (.plain Nat))
    (init (.single true) .exactly (-1) (-1)) oneOfTwo = some σ ∧
      (execTrace (step (.plain Nat)) (init (.single true) .exactly (-1) (-1)) oneOfTwo).countP
        (fun p ↦ p.2.serves) ≤ 4 := by
  obtain ⟨σ, hσ⟩ : ∃ σ, exec (step (.plain Nat)) (init (.single true) .exactly (-1) (-1))
      oneOfTwo = some σ := ⟨_, rfl⟩
  exact ⟨σ, hσ, serves_le _ _ _ _ _ (Run.of_exec hσ)⟩

end System

end

end Leda.Kernel
