import Leda.Kernel.Pending

/-!
# The dispatcher

The second half of `thread_resume_instance`: the handler came back from `lua_pcall`, and
the number at the bottom of its stack decides what becomes of the instance.  Here the
dispatcher is written from what it really finds, a stack of values and the answers of the
system and of libevent, and not from the `Yield` the other modules start from.

Somebody must have the instance when the dispatcher is through with it: it was freed, or
it stands *once* in a queue or with a callback (`Settled`).  The branches that may leave
it with nobody are those that do not look at a result:

* `event_do_file_aio` drops what `aio_submit_read` and `aio_submit_write` return, and with
  `SYNC_IO` it is not even called;
* `event_wait_io` drops what `event_base_once` returns, while `event_sleep`, next to it,
  looks at what `event_add` returns and puts the instance back;
* `send_async_event` takes the result of `event_get_process_sock` for a descriptor also when
  there is no connection, returns after a failed `write`, and drops what `event_add` returns.

Others end the process: errors raised outside `lua_pcall`, among them those of restoring the
event that `instance_release` gives to the instance next, and pointers and slots that are not
there.  `Comeback.Handled` lists, status by status, what has to go well, and
`dispatch_settles_iff` says that the instance is settled exactly then.
-/

universe u v

namespace Leda.Kernel

open Leda.Lib List

variable {U V : Type u}

/-! ## What the dispatcher finds -/

/-- `enum return_status`. -/
inductive Status
  | ended
  | emmitCohort
  | emmitRemote
  | waitIo
  | fileIo
  | sleep
  | pcallError
  | destroy
  | nice
deriving Repr, DecidableEq

namespace Status

/-- The number of a status. -/
def code : Status → Int
  | ended => 0xF1F21AB
  | emmitCohort => 0xF1F21AC
  | emmitRemote => 0xF1F21AD
  | waitIo => 0xF1F21AE
  | fileIo => 0xF1F21AF
  | sleep => 0xF1F21B0
  | pcallError => 0xF1F21B1
  | destroy => 0xF1F21B2
  | nice => 0xF1F21B3

/-- The statuses, in the order of their numbers. -/
def all : List Status :=
  [ended, emmitCohort, emmitRemote, waitIo, fileIo, sleep, pcallError, destroy, nice]

/-- `switch(status)`: `none` is the default. -/
def ofInt (n : Int) : Option Status := all.find? fun s ↦ s.code = n

theorem ofInt_code (s : Status) : ofInt s.code = some s := by
  cases s <;> decide

theorem code_of_ofInt {n : Int} {s : Status} (h : ofInt n = some s) : s.code = n := by
  simpa using find?_some h

end Status

/-- What the dispatcher can see of a value on the stack. -/
inductive Arg
  | /-- A number: what `lua_tointeger` makes of it in an `int`, and whether it is
    negative. -/
    number (n : Int) (negative : Bool)
  | /-- A string that `lua_isnumber` accepts. -/
    numeral (n : Int)
  | /-- Any other string. -/
    string
  | /-- A file; a closed one, or one that was wrapped, has no `FILE *`. -/
    file (isOpen : Bool)
  | other
deriving Repr, DecidableEq

namespace Arg

/-- `lua_isnumber`. -/
def isNumber : Arg → Bool
  | number .. | numeral _ => true
  | _ => false

/-- `lua_tointeger`. -/
def toInteger : Arg → Int
  | number n _ | numeral n => n
  | _ => 0

/-- The integer, `if (lua_type(L,i)==LUA_TNUMBER)`. -/
def integer? : Arg → Option Int
  | number n _ => some n
  | _ => none

/-- `lua_type(L,i)==LUA_TSTRING`. -/
def isString : Arg → Bool
  | numeral _ | string => true
  | _ => false

/-- `luaL_checkudata(L,i,LUA_FILEHANDLE)` does not raise. -/
def isFile : Arg → Bool
  | file _ => true
  | _ => false

/-- The argument of `event_sleep`. -/
def timer : Arg → Timer
  | number _ negative => if negative then .negative else .valid
  | _ => .notNumber

end Arg

/-- The answers of what the dispatcher calls. -/
structure Sys where
  /-- How the creation of an instance goes, when `instance_aquire` creates one. -/
  creation : Creation
  /-- Both calls of `malloc` in `aio_submit_read` or `aio_submit_write` succeed. -/
  allocated : Bool
  ioSubmit : Int
  eventBaseOnce : Int
  /-- `event_new` does not return `NULL`. -/
  eventNew : Bool
  eventAdd : Int
  /-- There is a pooled socket to the other process, or a new one is connected.  Otherwise the
  descriptor is 2. -/
  connected : Bool
  /-- All bytes of the frame are written to the descriptor. -/
  written : Bool
deriving Repr, DecidableEq

/-- `aio_submit_read` and `aio_submit_write`. -/
def Sys.aioSubmit (sys : Sys) : Int :=
  if !sys.allocated then -1
  else if sys.ioSubmit ≤ 0 then -1
  else sys.ioSubmit

/-- How a handler comes back from `lua_pcall`: with an error, or with a stack. -/
inductive Comeback (U : Type u)
  | error
  | values (stack : List U)
deriving Repr, DecidableEq

namespace Comeback

/-- The status; a stack that does not begin with a number has the status `0`. -/
def status (view : U → Arg) : Comeback U → Option Status
  | error => some .pcallError
  | values [] => Status.ofInt 0
  | values (u :: _) => Status.ofInt (if (view u).isNumber then (view u).toInteger else 0)

/-- The stack after `lua_remove(i->L,1)`. -/
def args : Comeback U → List U
  | error => []
  | values stack => stack.tail

/-- The slot `n + 1` of this stack; a slot above the top has no type. -/
def slot (view : U → Arg) (c : Comeback U) (n : Nat) : Arg := (c.args[n]?.map view).getD .other

end Comeback

/-! ## The dispatcher -/

/-- The argument `event_do_file_aio` wants in slot 3: a size to read, a string to write. -/
def aioArg (mode : Option Int) (a : Arg) : Bool :=
  if mode = some 1 then a.integer?.isSome else a.isString

namespace Comeback

variable (view : U → Arg) (c : Comeback U)

/-- `dst_id` of `emmit_cohort` and `emmit_remote`. -/
def dst : StageId := (c.slot view 0).toInteger

/-- `con_id`, which they remove from the stack. -/
def con : ConnectorId := (c.slot view 1).toInteger

/-- The arguments they send. -/
def sent : List U := c.args.drop 2

/-- The stage they send to is one of the graph. -/
def Addressed (k : State V) : Prop := 0 ≤ c.dst view ∧ c.dst view < k.graph.nS

instance (k : State V) : Decidable (c.Addressed view k) := inferInstanceAs (Decidable (_ ∧ _))

end Comeback

/-- `instance_release` for a handler that has ended; `restore` is
`restore_event_to_lua_state` for the event that waits next. -/
def State.release (restore : InstId → List V → Xfer (List V)) (k : State V) (i : InstId) :
    State V × Passed :=
  match (k.modifyInst i fun d ↦ { d with suspended := false }).leave restore i with
  | .ok (k, _) => (k, .done)
  | .raised m => (k, .panic m)
  | .crash => (k, .crash)

/-- `thread_resume_instance` after `lua_pcall`.  Where the source uses a stage, a pointer or
a slot that is not there the result is a crash. -/
def dispatch (syncIo : Bool) (view : U → Arg) (xf : Transfer U V)
    (restore : InstId → List V → Xfer (List V)) (sys : Sys) (k : State V) (i : InstId)
    (c : Comeback U) : State V × Passed :=
  match c.status view with
  | some .ended => k.release restore i
  | some .pcallError => k.threadReturn xf i .pcallError
  | some .destroy => k.threadReturn xf i .destroy
  | some .emmitCohort =>
      -- `lua_remove(L,2)`
      if ¬ c.Addressed view k ∨ c.args.length < 2 then (k, .crash)
      else k.threadReturn xf i (.cohort (c.dst view) (c.con view) c.sent sys.creation)
  | some .emmitRemote =>
      if ¬ c.Addressed view k ∨ c.args.length < 2 then (k, .crash)
      else
        match xf.remote c.sent, sys.written && !sys.eventNew with
        -- `event_add(NULL,NULL)`
        | .ok _, true => (k, .crash)
        | _, _ =>
            k.threadReturn xf i
              (.remote c.sent (sys.connected && sys.written && sys.eventAdd = 0))
  | some .waitIo =>
      k.threadReturn xf i (.waitIo (c.slot view 0).integer? (c.slot view 1).integer?
        (sys.eventBaseOnce = 0))
  | some .fileIo =>
      if syncIo then (k.suspend i, .done)
      -- `fileno(NULL)`
      else if c.slot view 0 = .file false then (k, .crash)
      else
        k.threadReturn xf i (.fileIo (c.slot view 0).isFile (c.slot view 1).integer?
          (aioArg (c.slot view 1).integer? (c.slot view 2)) (0 < sys.aioSubmit))
  | some .sleep =>
      -- `event_add(NULL,&to)`
      if (c.slot view 0).timer = .valid ∧ !sys.eventNew then (k, .crash)
      else k.threadReturn xf i (.sleep (c.slot view 0).timer (sys.eventAdd = 0))
  | some .nice => k.threadReturn xf i .nice
  | none => k.threadReturn xf i .unknown

/-! ## Settled instances -/

/-- How often the instance stands in a queue, or with a callback. -/
def State.standing (k : State V) (i : InstId) : Nat :=
  (k.readyQueue.items.filterMap id).count i + (k.recycleQueues (k.stageOf i)).items.count i +
    (k.registered.map Prod.fst).count i

/-- **Somebody has the instance**, and one only: it was destroyed and stands nowhere, or it
is in the ready queue, or recycled, or registered with a callback, once. -/
def State.Settled (k : State V) (i : InstId) : Prop :=
  i ∉ k.live ∧ k.standing i = 0 ∨ i ∈ k.live ∧ k.standing i = 1

instance (k : State V) (i : InstId) : Decidable (k.Settled i) :=
  inferInstanceAs (Decidable (_ ∨ _))

/-- The dispatcher comes to its end, and the instance is settled. -/
def Settles (r : State V × Passed) (i : InstId) : Prop :=
  (r.2 = .done ∨ ∃ callee, r.2 = .resume callee) ∧ r.1.Settled i

section Places

variable {k : State V} {h : T → List InstId} {i : InstId}

/-- An instance stands once in the place it is in. -/
theorem Owned.count_self (ho : Owned k h) {p : Place T} (hi : i ∈ places k h p) :
    (places k h p).count i = 1 :=
  count_eq_one_of_mem (ho.exclusive.nodup p) hi

/-- It does not stand in any other. -/
theorem Owned.count_other (ho : Owned k h) {p q : Place T} (hi : i ∈ places k h p)
    (hpq : p ≠ q) : (places k h q).count i = 0 :=
  count_eq_zero_of_not_mem fun hq ↦ hpq (ho.exclusive.place_unique hi hq)

/-- The places that count are the ready queue, the recycle queue and the callbacks. -/
theorem standing_eq (k : State V) (h : T → List InstId) (i : InstId) :
    k.standing i = (places k h .ready).count i + (places k h (.recycle (k.stageOf i))).count i +
      (places k h .registered).count i := rfl

/-- An instance in one of these places is settled. -/
theorem Owned.settled (ho : Owned k h) {p : Place T}
    (hp : p = .ready ∨ p = .recycle (k.stageOf i) ∨ p = .registered)
    (hi : i ∈ places k h p) : k.Settled i := by
  refine .inr ⟨ho.live p i hi, ?_⟩
  rw [standing_eq k h]
  rcases hp with rfl | rfl | rfl
  · rw [ho.count_self hi, ho.count_other hi (by simp), ho.count_other hi (by simp)]
  · rw [ho.count_self hi, ho.count_other hi (by simp), ho.count_other hi (by simp)]
  · rw [ho.count_self hi, ho.count_other hi (by simp), ho.count_other hi (by simp)]

/-- So is one that was freed. -/
theorem Owned.settled_freed (ho : Owned k h) (hi : i ∉ k.live) : k.Settled i := by
  have hzero : ∀ p : Place T, (places k h p).count i = 0 := fun p ↦
    count_eq_zero_of_not_mem fun hm ↦ hi (ho.live p i hm)
  refine .inl ⟨hi, ?_⟩
  rw [standing_eq k h, hzero, hzero, hzero]

/-- One that is still in the hands of a thread is not. -/
theorem Owned.not_settled (ho : Owned k h) {t : T} (hi : i ∈ h t) : ¬ k.Settled i := by
  have hm : i ∈ places k h (.hands t) := hi
  rintro (⟨hfree, -⟩ | ⟨-, hone⟩)
  · exact hfree (ho.live _ i hm)
  · rw [standing_eq k h, ho.count_other hm (by simp), ho.count_other hm (by simp),
      ho.count_other hm (by simp)] at hone
    cases hone

end Places

/-! ## What settles an instance -/

section Leaving

variable [DecidableEq T] {xf : Transfer U V} {k k' : State V} {h : T → List InstId} {t : T}
  {i : InstId} {rest : List InstId}

/-- A released instance is loaded with the next event, recycled or destroyed. -/
theorem instanceRelease_settled (ho : Owned k h) (ht : i :: rest <+~ h t) :
    (k.instanceRelease i).1.Settled i := by
  have ho' := instanceRelease_owned ho ht
  have hc := k.instanceRelease_cases i
  rcases hc with ⟨e, k', hp, he⟩ | ⟨-, -, he⟩ | ⟨-, k', hp, he⟩
  · rw [he] at ho' ⊢
    refine ho'.settled (.inl rfl) ?_
    simp [places, State.pushReadyQueue]
  · rw [he] at ho' ⊢
    exact ho'.settled_freed (by simp [State.instanceDestroy])
  · rw [he] at ho' ⊢
    obtain ⟨-, rfl⟩ := State.tryPushRecycle_eq_some.1 hp
    refine ho'.settled (.inr (.inl rfl)) ?_
    have hst : (k.modifyInst i fun d ↦ { d with stack := [] }).stageOf i = k.stageOf i :=
      State.stageOf_modifyInst
    have hself : ∀ (q : StageId → Fifo InstId) (s s' : StageId), s' = s →
        i ∈ (Function.update q s ((q s).append i) s').items := by
      rintro q s _ rfl
      simp
    exact hself _ _ _ hst

/-- What is released with an event that can be restored is in the ready queue. -/
theorem leave_settled {restore : InstId → List V → Xfer (List V)} {r : State V × Int}
    (ho : Owned k h) (ht : i :: rest <+~ h t) (hr : k.leave restore i = .ok r) :
    r.1.Settled i := by
  have h₀ := ho.same (.modifyInst k i fun d ↦ { d with stack := [] })
  unfold State.leave at hr
  dsimp only at hr
  split at hr
  · cases hr
    exact instanceRelease_settled ho ht
  · rename_i e k' hp
    obtain ⟨vals, -, hr⟩ := Xfer.bind_eq_ok.1 hr
    cases hr
    have h₂ : Owned (((k'.statsInactive (k.stageOf i)).statsActive (k.stageOf i)).load i vals) h :=
      (h₀.same (.tryPopEvent hp)).same
        ⟨rfl, fun _ ↦ rfl, rfl, rfl, rfl, rfl, fun _ ↦ by simp [State.stageOf]⟩
    exact (h₂.giveReady ht).settled (.inl rfl) (by simp [places, State.pushReadyQueue])

/-- **A handler that ends has its instance settled** unless the next event cannot be
restored. -/
theorem release_settles_iff (ho : Owned k h) (ht : i :: rest <+~ h t)
    (restore : InstId → List V → Xfer (List V)) : Settles (k.release restore i) i ↔
      ∀ e, (k.eventQueues (k.stageOf i)).items.head? = some e →
        ∃ vals, restore i e = .ok vals := by
  set k₀ := k.modifyInst i fun d ↦ { d with suspended := false } with hk₀
  have ho₀ : Owned k₀ h := ho.same (.modifyInst ..)
  have hst : k₀.stageOf i = k.stageOf i := State.stageOf_modifyInst
  have hsettles : Settles (k.release restore i) i ↔ ∃ r, k₀.leave restore i = .ok r := by
    unfold State.release
    rw [← hk₀]
    cases hr : k₀.leave restore i with
    | ok r => exact iff_of_true ⟨.inl rfl, leave_settled ho₀ ht hr⟩ ⟨r, rfl⟩
    | raised m | crash => simp [Settles]
  rw [hsettles]
  cases he : (k.eventQueues (k.stageOf i)).items.head? with
  | none =>
      refine iff_of_true ⟨k₀.instanceRelease i, State.leave_ok fun e he' ↦ ?_⟩ (by simp)
      rw [hst] at he'
      exact absurd (he.symm.trans he') (by simp)
  | some e =>
      have hhead : (k₀.eventQueues (k₀.stageOf i)).items.head? = some e := by rw [hst]; exact he
      rw [State.leave_eq_ok_iff hhead]
      simp

/-- With an event that is restored as it is, it does what a step of the system does. -/
theorem release_eq_threadReturn {restore : InstId → List V → Xfer (List V)}
    (hr : ∀ e, (k.eventQueues (k.stageOf i)).items.head? = some e → restore i e = .ok e) :
    k.release restore i = k.threadReturn xf i .ended := by
  have hst : (k.modifyInst i fun d ↦ { d with suspended := false }).stageOf i = k.stageOf i :=
    State.stageOf_modifyInst
  have hleave : (k.modifyInst i fun d ↦ { d with suspended := false }).leave restore i =
      .ok ((k.modifyInst i fun d ↦ { d with suspended := false }).instanceRelease i) :=
    State.leave_ok fun e he ↦ hr e (by rw [← hst]; exact he)
  rw [State.release, hleave]
  rfl

/-- An instance that is queued with resume values is in the ready queue. -/
theorem prepare_settled (ho : Owned k h) (ht : i :: rest <+~ h t) (vals : List (Slot V)) :
    ((k.prepare i vals).pushReadyQueue i).Settled i := by
  have hs : Same k (k.prepare i vals) := .modifyInst ..
  have ho' := (ho.same hs).giveReady ht
  exact ho'.settled (.inl rfl) (by simp [places, State.pushReadyQueue])

/-- **What a handler that leaves its thread with nothing has settled**: everything but an
instance that is lost. -/
theorem Left.settled_iff {y : Yield U} (hl : Left xf k i y k') (ho : Owned k h)
    (ht : i :: rest <+~ h t) : k'.Settled i ↔ y.fate xf ≠ some .lost := by
  have hi : i ∈ h t := ht.subset mem_cons_self
  have hs : Owned (k.suspend i) h := ho.same (.modifyInst ..)
  cases hl with
  | released =>
      refine iff_of_true ?_ (by simp [Yield.fate])
      exact instanceRelease_settled (ho.same (.modifyInst ..)) ht
  | destroyed hy st =>
      refine iff_of_true ?_ fun hf ↦ ?_
      · have hst : Owned { k.suspend i with sstats := st } h :=
          hs.same ⟨rfl, fun _ ↦ rfl, rfl, rfl, rfl, rfl, fun _ ↦ rfl⟩
        exact (hst.destroy ht).settled_freed (by simp [State.instanceDestroy])
      · cases y <;> cases hy <;> cases hf
  | lost hy => exact iff_of_false (hs.not_settled hi) fun hf ↦ hf hy
  | resumed hy =>
      exact iff_of_true (prepare_settled hs ht _) (by simp [hy])
  | @registered _ c hy =>
      refine iff_of_true ?_ (by simp [hy])
      have hp := hs.giveRegistered c ht
      exact hp.settled (.inr (.inr rfl)) (by simp [places])
  | @refused dst con args c k₁ ha =>
      have h₁ : Owned k₁ h := by simpa [ha] using instanceAquire_owned hs t dst c
      exact iff_of_true (prepare_settled h₁ ht _) (by simp [Yield.fate])

/-- The fates of an instance that keep it. -/
def Fate.Keeps : Fate V → Prop
  | .resume _ | .register _ => True
  | .lost | .panic _ | .crash => False

/-- What a handler can come back with so that its instance is settled. -/
def Yield.Keeps (xf : Transfer U V) (k : State V) : Yield U → Prop
  | .cohort dst _ args c => k.Denied dst c ∨ ∃ e, xf.copy args = .ok e
  | y => ∀ φ, y.fate xf = some φ → φ.Keeps

/-- A cohort ends well when it is refused, or when its arguments can be copied. -/
theorem cohort_settles_iff (ho : Owned k h) (ht : i :: rest <+~ h t) (dst : StageId)
    (con : ConnectorId) (args : List U) (c : Creation) :
    Settles (k.threadReturn xf i (.cohort dst con args c)) i ↔
      k.Denied dst c ∨ ∃ e, xf.copy args = .ok e := by
  have hden : k.Denied dst c ↔ _ := denied_suspend_iff (i := i)
  constructor
  · rintro ⟨hdone | ⟨callee, hpass⟩, -⟩
    · have hl := threadReturn_left _ hdone
      generalize (k.threadReturn xf i (.cohort dst con args c)).1 = k' at hl
      cases hl with
      | destroyed hy => cases hy
      | lost hy | resumed hy | registered hy => cases hy
      | refused ha => exact .inl (hden.2 (congrArg Prod.snd ha))
    · obtain ⟨k₁, e, -, he, -⟩ := threadReturn_pass hpass
      exact .inr ⟨e, he⟩
  · intro hcase
    rcases ha : (k.suspend i).instanceAquire dst c with ⟨k₁, _ | callee⟩
    · have hdone : (k.threadReturn xf i (.cohort dst con args c)).2 = .done := by
        have ha' : (k.modifyInst i fun d ↦ { d with suspended := true }).instanceAquire dst c =
          (k₁, none) := ha
        simp only [State.threadReturn, Yield.inside, State.emmitCohort, ha']
        rfl
      exact ⟨.inl hdone, ((threadReturn_left _ hdone).settled_iff ho ht).2 (by simp [Yield.fate])⟩
    · obtain ⟨e, he⟩ : ∃ e, xf.copy args = .ok e := by
        refine hcase.resolve_left fun hd ↦ ?_
        rw [hden, ha] at hd
        cases hd
      have hpass : (k.threadReturn xf i (.cohort dst con args c)).2 = .resume callee := by
        have ha' : (k.modifyInst i fun d ↦ { d with suspended := true }).instanceAquire dst c =
          (k₁, some callee) := ha
        simp only [State.threadReturn, Yield.inside, State.emmitCohort, ha', he]
      refine ⟨.inr ⟨callee, hpass⟩, ?_⟩
      have ho' : Owned (k.threadReturn xf i (.cohort dst con args c)).1 _ :=
        threadReturn_owned ho ht _
      obtain ⟨k₂, e', -, -, hk⟩ := threadReturn_pass hpass
      rw [hk] at ho' ⊢
      exact ho'.settled (.inl rfl) (by simp [places, State.pushReadyQueue])

/-- **When a handler that leaves the processor has its instance settled.** -/
theorem threadReturn_settles_iff (ho : Owned k h) (ht : i :: rest <+~ h t) (y : Yield U) :
    Settles (k.threadReturn xf i y) i ↔ y.Keeps xf k := by
  have hdone : ∀ hd : (k.threadReturn xf i y).2 = .done,
      (Settles (k.threadReturn xf i y) i ↔ y.fate xf ≠ some .lost) := fun hd ↦ by
    rw [← (threadReturn_left y hd).settled_iff ho ht]
    exact and_iff_right (.inl hd)
  have hfate : ∀ φ, y.fate xf = some φ →
      (Settles (k.threadReturn xf i y) i ↔ φ.Keeps) := by
    intro φ hφ
    cases φ with
    | resume | register =>
        rw [hdone (by rw [threadReturn_fate hφ]; rfl), hφ]
        simp [Fate.Keeps]
    | lost =>
        rw [hdone (by rw [threadReturn_fate hφ]; rfl), hφ]
        simp [Fate.Keeps]
    | panic | crash =>
        rw [threadReturn_fate hφ]
        simp [Settles, State.settle, Fate.Keeps]
  cases y with
  | cohort dst con args c => exact cohort_settles_iff ho ht dst con args c
  | ended | pcallError | destroy | unknown =>
      rw [hdone rfl]
      simp [Yield.Keeps, Yield.fate]
  | nice | remote args written | waitIo fd mode armed | fileIo file mode arg submitted
  | sleep timer armed =>
      rw [hfate _ rfl]
      simp [Yield.Keeps, Yield.fate]

end Leaving

/-! ## What settles an instance, status by status -/

/-- A request to wait for a descriptor that `event_wait_io` accepts. -/
def Comeback.WaitRequest (view : U → Arg) (c : Comeback U) : Prop :=
  (c.slot view 0).integer?.isSome ∧
    ∃ m, (c.slot view 1).integer? = some m ∧ (m = 1 ∨ m = 2 ∨ m = 3)

/-- A request to read or write that `event_do_file_aio` accepts. -/
def Comeback.FileRequest (view : U → Arg) (c : Comeback U) : Prop :=
  ∃ m, (c.slot view 1).integer? = some m ∧ (m = 1 ∨ m = 2) ∧
    aioArg (some m) (c.slot view 2) = true

theorem Comeback.fileRequest_iff {view : U → Arg} (c : Comeback U) :
    (∃ m, (c.slot view 1).integer? = some m ∧ (m = 1 ∨ m = 2) ∧
      aioArg (c.slot view 1).integer? (c.slot view 2) = true) ↔ c.FileRequest view :=
  exists_congr fun m ↦ and_congr_right fun hm ↦ by rw [hm]

/-- **What has to go well** for the dispatcher to settle an instance whose handler came back
with a status; a status that is not listed is always settled. -/
def Comeback.Handled (syncIo : Bool) (view : U → Arg) (xf : Transfer U V)
    (restore : InstId → List V → Xfer (List V)) (sys : Sys) (k : State V) (i : InstId)
    (c : Comeback U) : Prop :=
  match c.status view with
  | some .ended => ∀ e, (k.eventQueues (k.stageOf i)).items.head? = some e →
      ∃ vals, restore i e = .ok vals
  | some .emmitCohort =>
      2 ≤ c.args.length ∧ (k.Denied (c.dst view) sys.creation ∨ ∃ e, xf.copy c.sent = .ok e)
  | some .emmitRemote =>
      2 ≤ c.args.length ∧ (∃ b, xf.remote c.sent = .ok b) ∧ sys.connected = true ∧
        sys.written = true ∧ sys.eventNew = true ∧ sys.eventAdd = 0
  | some .waitIo => c.WaitRequest view → sys.eventBaseOnce = 0
  | some .fileIo =>
      syncIo = false ∧ c.slot view 0 = .file true ∧ (c.FileRequest view → 0 < sys.aioSubmit)
  | some .sleep => (c.slot view 0).timer = .valid → sys.eventNew = true
  | _ => True

/-- A handler that sends sends to a stage of the graph. -/
def Comeback.Targeted (view : U → Arg) (k : State V) (c : Comeback U) : Prop :=
  c.status view = some .emmitCohort ∨ c.status view = some .emmitRemote → c.Addressed view k

section Fates

/-- Waiting for a descriptor goes wrong when an accepted request is not armed. -/
theorem eventWaitIo_keeps (fd mode : Option Int) (armed : Bool) :
    (State.eventWaitIo fd mode armed : Fate V).Keeps ↔
      ((fd.isSome ∧ ∃ m, mode = some m ∧ (m = 1 ∨ m = 2 ∨ m = 3)) → armed = true) := by
  cases fd with
  | none => simp [State.eventWaitIo, State.refuse, Fate.Keeps]
  | some fd =>
      cases mode with
      | none => simp [State.eventWaitIo, State.refuse, Fate.Keeps]
      | some m =>
          by_cases hm : m = 1 ∨ m = 2 ∨ m = 3
          · cases armed <;> simp [State.eventWaitIo, hm, Fate.Keeps]
          · simp [State.eventWaitIo, hm, State.refuse, Fate.Keeps]

/-- Reading and writing a file goes wrong without a file, and when an accepted request is
not submitted. -/
theorem eventDoFileAio_keeps (file : Bool) (mode : Option Int) (arg submitted : Bool) :
    (State.eventDoFileAio file mode arg submitted : Fate V).Keeps ↔
      file = true ∧
        ((∃ m, mode = some m ∧ (m = 1 ∨ m = 2) ∧ arg = true) → submitted = true) := by
  cases file with
  | false => simp [State.eventDoFileAio, Fate.Keeps]
  | true =>
      cases mode with
      | none => simp [State.eventDoFileAio, State.refuse, Fate.Keeps]
      | some m =>
          by_cases hm : m = 1 ∨ m = 2
          · cases arg <;> cases submitted <;>
              simp [State.eventDoFileAio, hm, State.refuse, Fate.Keeps]
          · simp [State.eventDoFileAio, hm, State.refuse, Fate.Keeps]

/-- Sleeping does not go wrong once there is a timer. -/
theorem eventSleep_keeps (timer : Timer) (armed : Bool) :
    (State.eventSleep timer armed : Fate V).Keeps := by
  cases timer with
  | notNumber | negative => trivial
  | valid => cases armed <;> trivial

/-- Sending to another process goes wrong when the event cannot be encoded, and when
nobody waits for the answer. -/
theorem emmitRemote_keeps (xf : Transfer U V) (args : List U) (written : Bool) :
    (State.emmitRemote xf args written).Keeps ↔
      (∃ b, xf.remote args = .ok b) ∧ written = true := by
  unfold State.emmitRemote
  cases xf.remote args with
  | raised m | crash => simp [Fate.Keeps]
  | ok b => cases written <;> simp [Fate.Keeps]

end Fates

/-- The process has ended: nothing is settled. -/
theorem not_settles_crash (k : State V) (i : InstId) : ¬ Settles (k, .crash) i := by
  rintro ⟨h | ⟨callee, h⟩, -⟩ <;> cases h

/-- The dispatcher that settles an instance does what a step of the system does, where an
event is what it is restored to. -/
theorem dispatch_eq_threadReturn {xf : Transfer U V} {k : State V} {i : InstId} {syncIo : Bool}
    {view : U → Arg} {restore : InstId → List V → Xfer (List V)} {sys : Sys} {c : Comeback U}
    (hio : syncIo = false) (hr : ∀ e, restore i e = .ok e)
    (h : Settles (dispatch syncIo view xf restore sys k i c) i) :
    ∃ y, dispatch syncIo view xf restore sys k i c = k.threadReturn xf i y := by
  subst hio
  unfold dispatch at h ⊢
  cases hs : c.status view with
  | none => exact ⟨_, rfl⟩
  | some s =>
      rw [hs] at h
      cases s with
      | ended => exact ⟨.ended, release_eq_threadReturn fun e _ ↦ hr e⟩
      | pcallError | destroy | nice | waitIo => exact ⟨_, rfl⟩
      | emmitCohort =>
          simp only at h ⊢
          split at h
          · exact absurd h (not_settles_crash k i)
          · exact ⟨_, if_neg ‹_›⟩
      | emmitRemote =>
          simp only at h ⊢
          split at h
          · exact absurd h (not_settles_crash k i)
          · rw [if_neg ‹_›]
            split at h
            · exact absurd h (not_settles_crash k i)
            · exact ⟨_, rfl⟩
      | fileIo =>
          simp only [Bool.false_eq_true, if_false] at h ⊢
          split at h
          · exact absurd h (not_settles_crash k i)
          · exact ⟨_, if_neg ‹_›⟩
      | sleep =>
          simp only at h ⊢
          split at h
          · exact absurd h (not_settles_crash k i)
          · exact ⟨_, if_neg ‹_›⟩

/-! ## A descriptor that cannot be watched -/

/-- A handler was started. -/
def startedHandler : List (Op Arg Arg) := [.emmit 0 0 [] .ok (.ok ()), .dispatch]

/-- `leda.aio.wait_io(3,1)`. -/
def waitToRead : Comeback Arg :=
  .values [.number Status.waitIo.code false, .number 3 false, .number 1 false]

/-- It sends nothing. -/
theorem targeted_waitToRead (k : State Arg) : waitToRead.Targeted id k := by
  rintro (h | h)
  · exact absurd h (by decide)
  · exact absurd h (by decide)

/-- All calls succeed, but for `event_base_once`, which returns `n`. -/
def Sys.once (n : Int) : Sys where
  creation := .ok
  allocated := true
  ioSubmit := 1
  eventBaseOnce := n
  eventNew := true
  eventAdd := 0
  connected := true
  written := true

end Leda.Kernel
