import Leda.Kernel.Books

/-!
# No event is lost and none is handled twice

What is accepted for a stage is handled or under way.  `threadStep_mail` says so of one step
of one thread, as an equation between multisets: what the step handles, and what is under
way after it, is what was under way before, and what the step accepts.  The lemmas before it
are the parts of a step, and each of them is one or two rules of `Mail` with what they do to
the sum over the bound instances.

`exactly_once` is the equation for whole runs.  It needs no assumption about failures:
instances that are destroyed or left behind carry nothing.
-/

universe u v

namespace Leda.Kernel

open Leda.Lib List

variable {U V : Type u} {T : Type v}

/-! ## Steps -/

section Steps

variable [DecidableEq T] {xf : Transfer U V} {k k' : State V} {ro : T → List (InstId × Role)}
  {B : Finset InstId} {δ δ' : InstId → List (Slot V)} {t : T} {i : InstId} {s : StageId}
  {p : Purpose U V} {new : List (Frame U V)} {rest : List (InstId × Role)}

/-- The events of the books for a stage, as a handler sees them. -/
def arrivals (s : StageId) (l : List (StageId × List V)) : Multiset (List (Slot V)) :=
  (forStage s l).map (map .value)

@[simp] theorem arrivals_nil : arrivals s ([] : List (StageId × List V)) = 0 := rfl

@[simp] theorem arrivals_append (l m : List (StageId × List V)) :
    arrivals s (l ++ m) = arrivals s l + arrivals s m := by
  unfold arrivals
  rw [forStage_append, Multiset.map_add]

/-- What an instance of `s` carries that was loaded with an event. -/
theorem carried_loaded {r : StageId} {e : List V} (hst : k.stageOf i = s)
    (hsu : (k.inst i).suspended = false) (hd : δ i = e.map .value) :
    k.carried δ r i = arrivals r [(s, e)] := by
  unfold State.carried arrivals
  rw [hst, hsu, hd, forStage_singleton]
  by_cases hr : s = r <;> simp [hr]

/-- What is under way when one instance became bound. -/
theorem underway_bind (hB : i ∉ B) (hi : ∀ j, j ≠ i → k'.inst j = k.inst j)
    (hd : ∀ j, j ≠ i → δ' j = δ j) (hq : k'.eventQueues = k.eventQueues) :
    k'.underway δ' (insert i B) s = k'.carried δ' s i + k.underway δ B s := by
  rw [Mail.underway_insert hB]
  congr 1
  refine Mail.underway_congr (fun j hj ↦ ?_) (congrFun hq s)
  have hne : j ≠ i := fun e ↦ hB (e ▸ hj)
  exact ⟨hi j hne, hd j hne⟩

/-- A promise concerns one instance. -/
theorem record_of_ne {j : InstId} {vals : List (Slot V)} (h : j ≠ i) :
    record [(i, vals)] δ j = δ j := Function.update_of_ne h _ _

theorem record_self {vals : List (Slot V)} : record [(i, vals)] δ i = vals :=
  Function.update_self ..

/-- **An instance of `s` that is loaded with an event** is bound, and the event is under
way. -/
theorem Mail.loaded {f : Instance V → Instance V} {e : List V} (h : Mail k ro B)
    (ht : ro t = (i, .created s) :: rest)
    (hf : ∀ d, (f d).suspended = d.suspended) :
    Mail (k.modifyInst i f) (Function.update ro t ((i, .bound) :: rest)) (insert i B) ∧
      ∀ r, (k.modifyInst i f).underway (record [(i, e.map .value)] δ) (insert i B) r =
        k.underway δ B r + arrivals r [(s, e)] := by
  obtain ⟨hst, hsu⟩ : (k.inst i).stage = s ∧ (k.inst i).suspended = false :=
    h.hands t (i, .created s) (by rw [ht]; exact mem_cons_self)
  have hi : ∀ j, j ≠ i → (k.modifyInst i f).inst j = k.inst j := fun j hj ↦
    State.inst_modifyInst_of_ne hj
  refine ⟨h.bindHead ht (.modifyInst ..) hi, fun r ↦ ?_⟩
  rw [underway_bind (h.notMem_bound ht (by simp)) hi (fun j hj ↦ record_of_ne hj) rfl, add_comm]
  congr 1
  apply carried_loaded
  · exact State.stageOf_modifyInst.trans hst
  · rw [State.inst_modifyInst_self]
    exact (hf _).trans hsu
  · exact record_self

/-- **An instance that waits inside its handler** is bound when its values are there, and
carries no event. -/
theorem Mail.answered (h : Mail k ro B) (ht : ro t = (i, .asleep) :: rest)
    (vals : List (Slot V)) :
    Mail (k.prepare i vals) (Function.update ro t ((i, .bound) :: rest)) (insert i B) ∧
      ∀ r, (k.prepare i vals).underway (record [(i, vals)] δ) (insert i B) r =
        k.underway δ B r := by
  have hsu : (k.inst i).suspended = true :=
    h.hands t (i, .asleep) (by rw [ht]; exact mem_cons_self)
  have hi : ∀ j, j ≠ i → (k.prepare i vals).inst j = k.inst j := fun j hj ↦
    State.inst_modifyInst_of_ne hj
  refine ⟨h.bindHead ht (.modifyInst ..) hi, fun r ↦ ?_⟩
  rw [underway_bind (h.notMem_bound ht (by simp)) hi (fun j hj ↦ record_of_ne hj) rfl,
    State.carried_suspended, zero_add]
  rw [State.prepare, State.inst_modifyInst_self]
  exact hsu

/-- Work on an instance that is not bound leaves alone what is under way. -/
theorem Mail.underway_modifyInst (hB : i ∉ B) (f : Instance V → Instance V) (r : StageId) :
    (k.modifyInst i f).underway δ B r = k.underway δ B r := by
  refine Mail.underway_congr (fun j hj ↦ ⟨State.inst_modifyInst_of_ne ?_, rfl⟩) rfl
  rintro rfl
  exact hB hj

/-- What a caller does with an instance it was granted. -/
theorem granted_mail (h : Mail k ro B) (ht : ro t = (i, .created s) :: p.roles ++ rest)
    (hg : granted xf k i p = some (k', new)) :
    ∃ B', Mail k' (Function.update ro t (rolesOf new ++ rest)) B' ∧
      ∀ r, k'.underway (record (p.granted xf i) δ) B' r =
        k.underway δ B r + arrivals r (p.accepts xf s) := by
  cases p with
  | emmit con args =>
      rcases hx : xf.copy args with e | m | _ <;>
        simp only [granted, hx, Option.some.injEq, Prod.mk.injEq, reduceCtorEq] at hg <;>
        simp only [Purpose.granted, Purpose.accepts, hx] <;> obtain ⟨rfl, rfl⟩ := hg
      · obtain ⟨hm, hu⟩ := h.loaded (δ := δ) (e := e) (f := fun d ↦
          { d with stack := d.stack ++ .handler :: e.map .value, args := e.length }) ht
          fun _ ↦ rfl
        exact ⟨_, hm.same (.statsUpdateEvents ..) rfl, hu⟩
      · -- the sender gets an error, and nothing was accepted
        have hB := h.notMem_bound ht (by simp)
        have hk := h.keepHead .other ht (.modifyInst k i fun d ↦
          { d with stack := d.stack ++ [.handler] })
          (fun j hj ↦ State.inst_modifyInst_of_ne hj) trivial (by simp) (by simp)
        have hd := hk.dropHead (Function.update_self ..) (by simp)
        rw [Function.update_idem] at hd
        refine ⟨B, hd, fun r ↦ ?_⟩
        rw [arrivals_nil, add_zero]
        exact Mail.underway_modifyInst hB _ r
  | packed e =>
      simp only [granted, Option.some.injEq, Prod.mk.injEq] at hg
      obtain ⟨rfl, rfl⟩ := hg
      obtain ⟨hm, hu⟩ := h.loaded (δ := δ) (e := e) (f := fun d ↦
        { d with packedEvent := some e }) ht fun _ ↦ rfl
      exact ⟨_, hm, hu⟩
  | cohort caller con args =>
      rcases hx : xf.copy args with e | m | _ <;>
        simp only [granted, hx, Option.some.injEq, Prod.mk.injEq, reduceCtorEq] at hg
      simp only [Purpose.granted, Purpose.accepts, hx]
      obtain ⟨rfl, rfl⟩ := hg
      obtain ⟨hm, hu⟩ := h.loaded (δ := δ) (e := e) (f := fun d ↦
        { d with stack := d.stack ++ .handler :: e.map .value, args := e.length }) ht
        fun _ ↦ rfl
      -- the caller in front
      have hs := hm.swapHead (Function.update_self ..)
      rw [Function.update_idem] at hs
      obtain ⟨hm', hu'⟩ := hs.answered (δ := record [(i, e.map .value)] δ)
        (Function.update_self ..) [.boolean true]
      rw [Function.update_idem] at hm'
      exact ⟨_, hm', fun r ↦ (hu' r).trans (hu r)⟩

/-- What a caller does when it was refused an instance. -/
theorem refused_mail (h : Mail k ro B) (ht : ro t = p.roles ++ rest)
    (hr : refused xf k s p = some (k', new)) :
    ∃ B', Mail k' (Function.update ro t (rolesOf new ++ rest)) B' ∧
      ∀ r, k'.underway (record (p.refused k s) δ) B' r = k.underway δ B r := by
  cases p with
  | emmit con args =>
      simp only [refused] at hr
      split at hr <;> simp only [Option.some.injEq, Prod.mk.injEq, reduceCtorEq] at hr <;>
        (obtain ⟨rfl, rfl⟩ := hr; exact ⟨B, h.keep ht, fun _ ↦ rfl⟩)
  | packed e =>
      simp only [refused, Option.some.injEq, Prod.mk.injEq] at hr
      obtain ⟨rfl, rfl⟩ := hr
      exact ⟨B, h.keep ht, fun _ ↦ rfl⟩
  | cohort caller con args =>
      simp only [refused, Option.some.injEq, Prod.mk.injEq] at hr
      obtain ⟨rfl, rfl⟩ := hr
      obtain ⟨hm, hu⟩ := h.answered (δ := δ) ht
        [.nil, .string (k.cohortMessage s)]
      exact ⟨_, hm, hu⟩

/-- What becomes of an instance that yielded. -/
theorem settled_mail {φ : Fate V} (h : Mail k ro B) (ht : ro t = (i, .asleep) :: rest)
    (hs : (settled k i φ : Option (State V × List (Frame U V))) = some (k', new)) :
    ∃ B', Mail k' (Function.update ro t (rolesOf new ++ rest)) B' ∧
      ∀ r, k'.underway (record (φ.promise i) δ) B' r = k.underway δ B r := by
  cases φ with
  | resume vals =>
      simp only [settled, Option.some.injEq, Prod.mk.injEq] at hs
      obtain ⟨rfl, rfl⟩ := hs
      obtain ⟨hm, hu⟩ := h.answered (δ := δ) ht vals
      exact ⟨_, hm, hu⟩
  | register c =>
      simp only [settled, Option.some.injEq, Prod.mk.injEq] at hs
      obtain ⟨rfl, rfl⟩ := hs
      exact ⟨B, h.giveRegistered c ht, fun _ ↦ rfl⟩
  | lost =>
      simp only [settled, Option.some.injEq, Prod.mk.injEq] at hs
      obtain ⟨rfl, rfl⟩ := hs
      exact ⟨B, h.dropHead ht (by simp), fun _ ↦ rfl⟩
  | panic m => simp [settled] at hs
  | crash => simp [settled] at hs

/-- What becomes of an instance whose handler left the processor. -/
theorem returned_mail {y : Yield U} (h : Mail k ro B) (ht : ro t = (i, .other) :: rest)
    (hr : returned xf k i y = some (k', new)) :
    ∃ B', Mail k' (Function.update ro t (rolesOf new ++ rest)) B' ∧
      ∀ r, k'.underway (record (((y.fate xf).map (Fate.promise i)).getD []) δ) B' r =
        k.underway δ B r := by
  have hB := h.notMem_bound ht (by simp)
  set k₁ := k.modifyInst i fun d ↦ { d with suspended := y.inside } with hk₁
  have hu₁ : ∀ r, k₁.underway δ B r = k.underway δ B r := Mail.underway_modifyInst hB _
  -- the role that goes with the state its coroutine was left in
  have hrole : ∀ κ : Role, κ ≠ .bound → κ.Holds (k₁.inst i) →
      Mail k₁ (Function.update ro t ((i, κ) :: rest)) B := fun κ hb hκ ↦
    h.keepHead κ ht (.modifyInst ..) (fun j hj ↦ State.inst_modifyInst_of_ne hj) hκ (by simp) hb
  have hsu : (k₁.inst i).suspended = y.inside := by rw [hk₁, State.inst_modifyInst_self]
  cases y with
  | ended =>
      simp only [returned, Option.some.injEq, Prod.mk.injEq] at hr
      obtain ⟨rfl, rfl⟩ := hr
      have hm := (hrole .idle (by simp) hsu).keepHead .idle (Function.update_self ..)
        (.modifyInst k₁ i fun d ↦ { d with stack := [] })
        (fun j hj ↦ State.inst_modifyInst_of_ne hj)
        (by rw [State.inst_modifyInst_self]; exact hsu) (by simp) (by simp)
      rw [Function.update_idem] at hm
      exact ⟨B, hm, fun r ↦ (Mail.underway_modifyInst hB _ r).trans (hu₁ r)⟩
  | pcallError =>
      simp only [returned, Option.some.injEq, Prod.mk.injEq] at hr
      obtain ⟨rfl, rfl⟩ := hr
      have hs : Same k₁ ((k₁.statsUpdateError (k₁.stageOf i)).statsInactive (k₁.stageOf i)) :=
        (Same.updateStats ..).trans (.updateStats ..)
      exact ⟨B, (hrole .other (by simp) trivial).same hs rfl, hu₁⟩
  | destroy =>
      simp only [returned, Option.some.injEq, Prod.mk.injEq] at hr
      obtain ⟨rfl, rfl⟩ := hr
      exact ⟨B, (hrole .other (by simp) trivial).same (.statsInactive k₁ (k₁.stageOf i)) rfl, hu₁⟩
  | unknown =>
      simp only [returned, Option.some.injEq, Prod.mk.injEq] at hr
      obtain ⟨rfl, rfl⟩ := hr
      exact ⟨B, hrole .other (by simp) trivial, hu₁⟩
  | cohort dst con args c =>
      simp only [returned, Option.some.injEq, Prod.mk.injEq] at hr
      obtain ⟨rfl, rfl⟩ := hr
      exact ⟨B, hrole .asleep (by simp) hsu, hu₁⟩
  | nice | remote args written | waitIo fd mode armed | fileIo file mode arg submitted
  | sleep timer armed =>
      simp only [returned] at hr
      obtain ⟨B', hm, hu⟩ := settled_mail (δ := δ) (hrole .asleep (by simp) hsu)
        (Function.update_self ..) hr
      rw [Function.update_idem] at hm
      exact ⟨B', hm, fun r ↦ (hu r).trans (hu₁ r)⟩

/-- A worker calls the handler of a bound instance. -/
theorem Mail.call (h : Mail k ro B) (ht : ro t = (i, .bound) :: rest)
    (hd : Due (k.inst i) (δ i)) :
    Mail (k.resumeInstance i).1 (Function.update ro t ((i, .other) :: rest)) (B.erase i) ∧
      ∀ r, forStage r (k.starts i) + (k.resumeInstance i).1.underway δ (B.erase i) r =
        k.underway δ B r := by
  obtain ⟨f, hf⟩ := k.resumeInstance_eq i
  have hi : ∀ j, j ≠ i → (k.resumeInstance i).1.inst j = k.inst j := fun j hj ↦ by
    rw [hf]
    exact State.inst_modifyInst_of_ne hj
  have hB : i ∈ B := (h.bound i).2 (.inr ⟨t, by rw [ht]; exact mem_cons_self⟩)
  refine ⟨h.callHead ht (.resumeInstance ..) hi, fun r ↦ ?_⟩
  rw [State.forStage_starts hd, hf, Mail.underway_modifyInst (Finset.notMem_erase i B),
    Mail.underway_erase hB]

/-- Putting an event into an event queue. -/
theorem underway_pushEvent {e : List V} (hp : k.tryPushEvent s e = some k') (r : StageId) :
    k'.underway δ B r = k.underway δ B r + arrivals r [(s, e)] := by
  obtain ⟨-, rfl⟩ := State.tryPushEvent_eq_some.1 hp
  unfold State.underway State.pendingFor
  rw [add_assoc]
  congr 1
  unfold arrivals
  by_cases hr : s = r
  · subst hr
    simp [← Multiset.coe_add]
  · simp [hr, Ne.symm hr]

/-- Taking one out of it. -/
theorem underway_popEvent {e : List V} (hp : k.tryPopEvent s = some (e, k')) (r : StageId) :
    k'.underway δ B r + arrivals r [(s, e)] = k.underway δ B r := by
  obtain ⟨q, hi, -, rfl⟩ := State.tryPopEvent_eq_some.1 hp
  unfold State.underway State.pendingFor
  rw [add_assoc]
  congr 1
  unfold arrivals
  by_cases hr : s = r
  · subst hr
    simp only [Function.update_self, hi, map_cons, forStage_singleton, if_true,
      Multiset.map_singleton, ← Multiset.cons_coe]
    rw [Multiset.add_comm, Multiset.singleton_add]
  · simp [hr, Ne.symm hr]

/-- An instance out of the recycle queue. -/
theorem recycled_mail {k₁ : State V} (h : Mail k ro B) (ht : ro t = p.roles ++ rest)
    (hp : k.tryPopRecycle s = some (i, k₁))
    (hg : granted xf (k₁.statsActive (k₁.stageOf i)) i p = some (k', new)) :
    ∃ B', Mail k' (Function.update ro t (rolesOf new ++ rest)) B' ∧
      ∀ r, k'.underway (record (p.granted xf i) δ) B' r =
        k.underway δ B r + arrivals r (p.accepts xf s) := by
  have h₁ := (h.takeRecycle (t := t) hp).same (.statsActive k₁ (k₁.stageOf i)) rfl
  obtain ⟨B', hm, hu⟩ := granted_mail (δ := δ) h₁ (by rw [Function.update_self, ht]; rfl) hg
  rw [Function.update_idem] at hm
  refine ⟨B', hm, fun r ↦ (hu r).trans (congrArg (· + _) ?_)⟩
  obtain ⟨q, -, -, rfl⟩ := State.tryPopRecycle_eq_some.1 hp
  rfl

omit [DecidableEq T] in
/-- A new instance has no event. -/
theorem underway_add (h : Mail k ro B) (r : StageId) :
    (((k.statsActive s).addInstances s 1).newInstance s).underway δ B r = k.underway δ B r := by
  refine Mail.underway_congr (fun j hj ↦ ⟨Function.update_of_ne ?_ _ _, rfl⟩) rfl
  rintro rfl
  exact h.owned.accounted.nextInst_notMem (h.live hj)

/-- The caller of a cohort is queued, and the worker calls the callee's handler. -/
theorem pushCaller_mail {caller callee : InstId} {con : ConnectorId} (h : Mail k ro B)
    (ht : ro t = (caller, .bound) :: (callee, .bound) :: rest)
    (hd : Due (k.inst callee) (δ callee)) :
    let k₁ := (k.pushReadyQueue caller).statsUpdateEvents (k.stageOf caller) con
    Mail (k₁.resumeInstance callee).1 (Function.update ro t ((callee, .other) :: rest))
        (B.erase callee) ∧
      ∀ r, forStage r (k.starts callee) +
        (k₁.resumeInstance callee).1.underway δ (B.erase callee) r = k.underway δ B r := by
  intro k₁
  have h₁ : Mail k₁ (Function.update ro t ((callee, .bound) :: rest)) B :=
    (h.giveReady ht).same (.statsUpdateEvents ..) rfl
  obtain ⟨hm, hu⟩ := h₁.call (δ := δ) (Function.update_self ..) hd
  rw [Function.update_idem] at hm
  have hst : k₁.starts callee = k.starts callee := State.starts_congr rfl
  exact ⟨hm, fun r ↦ (congrArg (forStage r · + _) hst.symm).trans (hu r)⟩

/-- A released instance is loaded with the next event of its stage. -/
theorem popEvent_mail {e : List V} {k₁ : State V} (h : Mail k ro B)
    (ht : ro t = (i, .idle) :: rest) (hp : k.tryPopEvent (k.stageOf i) = some (e, k₁)) :
    ∃ B', Mail (((k₁.statsInactive (k.stageOf i)).statsActive (k.stageOf i)).load i e)
        (Function.update ro t ((i, .bound) :: rest)) B' ∧
      ∀ r, (((k₁.statsInactive (k.stageOf i)).statsActive (k.stageOf i)).load i e).underway
        (record [(i, e.map .value)] δ) B' r = k.underway δ B r := by
  have hid : (k.inst i).suspended = false := h.hands t (i, .idle) (by rw [ht]; exact mem_cons_self)
  have hk : k₁.inst = k.inst := by
    obtain ⟨q, -, -, rfl⟩ := State.tryPopEvent_eq_some.1 hp
    rfl
  have hs : Same k ((k₁.statsInactive (k.stageOf i)).statsActive (k.stageOf i)) :=
    (Same.tryPopEvent hp).trans ((Same.statsInactive ..).trans (.statsActive ..))
  -- the instance waits for an event of its stage
  have h₁ := (h.same hs hk).keepHead (.created (k.stageOf i)) ht (.refl _) (fun _ _ ↦ rfl)
    ⟨hs.stage i, (congrArg Instance.suspended (congrFun hk i)).trans hid⟩ (by simp) (by simp)
  obtain ⟨hm, hu⟩ := h₁.loaded (δ := δ) (e := e) (f := fun d ↦
    { d with stack := d.stack ++ .handler :: e.map .value, args := e.length })
    (Function.update_self ..) fun _ ↦ rfl
  rw [Function.update_idem] at hm
  exact ⟨_, hm, fun r ↦ (hu r).trans (underway_popEvent hp r)⟩

omit [DecidableEq T] in
/-- An access that starts no handler, promises nothing and accepts nothing leaves the same
under way. -/
theorem silent_mail {f : Frame U V} {fs : List (Frame U V)} {ro' : T → List (InstId × Role)}
    {B' : Finset InstId} (hc : calls k (f :: fs) (.run : Act U V) = [])
    (hp : f.promise xf k = []) (ha : f.accepts xf k = []) (hm : Mail k' ro' B')
    (hu : ∀ r, k'.underway δ B' r = k.underway δ B r) :
    ∃ B', Mail k' ro' B' ∧ ∀ r, forStage r (calls k (f :: fs) (.run : Act U V)) +
      k'.underway (record (f.promise xf k) δ) B' r =
        k.underway δ B r + arrivals r (f.accepts xf k) := by
  refine ⟨B', hm, fun r ↦ ?_⟩
  rw [hc, hp, ha, forStage_nil, arrivals_nil, zero_add, add_zero]
  exact hu r

/-- **What an access of a frame does with events.** -/
theorem frameStep_mail {f : Frame U V} {fs : List (Frame U V)} (h : Mail k ro B)
    (ht : ro t = f.roles ++ rest)
    (hdue : ∀ caller callee con, f = .pushCaller caller callee con →
      Due (k.inst callee) (δ callee))
    (hf : frameStep xf k f = some (k', new)) :
    ∃ B', Mail k' (Function.update ro t (rolesOf new ++ rest)) B' ∧
      ∀ r, forStage r (calls k (f :: fs) (.run : Act U V)) +
        k'.underway (record (f.promise xf k) δ) B' r =
        k.underway δ B r + arrivals r (f.accepts xf k) := by
  cases frameStep_cases hf with
  | beyond hs hr =>
      obtain ⟨B', hm, hu⟩ := refused_mail (δ := δ) h ht hr
      refine ⟨B', hm, fun r ↦ ?_⟩
      simp only [calls, Frame.promise, Frame.accepts, if_pos hs, forStage_nil, arrivals_nil,
        zero_add, add_zero]
      exact hu r
  | recycled hs hp hg =>
      obtain ⟨B', hm, hu⟩ := recycled_mail (δ := δ) h ht hp hg
      refine ⟨B', hm, fun r ↦ ?_⟩
      simp only [calls, Frame.promise, Frame.accepts, if_neg hs, hp, forStage_nil, zero_add]
      exact hu r
  | noRecycled hs hp =>
      refine silent_mail rfl ?_ ?_ (h.keep (by rw [ht, rolesOf_singleton]; rfl)) fun _ ↦ rfl
      · simp only [Frame.promise, if_neg hs, hp]
      · simp only [Frame.accepts, if_neg hs, hp]
  | atLimit hn hr =>
      obtain ⟨B', hm, hu⟩ := refused_mail (δ := δ) h ht hr
      refine ⟨B', hm, fun r ↦ ?_⟩
      simp only [calls, Frame.promise, Frame.accepts, if_pos hn, forStage_nil, arrivals_nil,
        zero_add, add_zero]
      exact hu r
  | belowLimit hn =>
      exact silent_mail rfl (if_neg hn) rfl (h.keep (by rw [ht, rolesOf_singleton]; rfl))
        fun _ ↦ rfl
  | readCount =>
      exact silent_mail rfl rfl rfl (h.keep (by rw [ht, rolesOf_singleton]; rfl)) fun _ ↦ rfl
  | @add s =>
      have h₁ := h.create (t := t) s
      rw [ht] at h₁
      exact silent_mail rfl rfl rfl (by rw [rolesOf_singleton]; exact h₁) (underway_add h)
  | @abandon s i p _ _ hr =>
      have h₁ := h.destroy (t := t) (i := i) (l := p.roles ++ rest) (by rw [ht]; rfl) (by simp)
      obtain ⟨B', hm, hu⟩ := refused_mail (δ := δ) h₁ (Function.update_self ..) hr
      rw [Function.update_idem] at hm
      refine ⟨B', hm, fun r ↦ ?_⟩
      simp only [calls, Frame.promise, Frame.accepts, forStage_nil, arrivals_nil, zero_add,
        add_zero]
      exact hu r
  | eventsFull hp =>
      exact silent_mail rfl rfl (by simp only [Frame.accepts, hp]) (h.keep ht) fun _ ↦ rfl
  | @pushEvent s e con k₁ hp =>
      have hm : Mail k₁ (Function.update ro t rest) B := (h.keep ht).same (.tryPushEvent hp) (by
        obtain ⟨-, rfl⟩ := State.tryPushEvent_eq_some.1 hp
        rfl)
      refine ⟨B, hm.same (.statsUpdateEvents ..) rfl, fun r ↦ ?_⟩
      simp only [calls, Frame.promise, Frame.accepts, hp, forStage_nil, zero_add]
      exact underway_pushEvent hp r
  | pushReady => exact silent_mail rfl rfl rfl (h.giveReady ht) fun _ ↦ rfl
  | pushCaller =>
      obtain ⟨hm, hu⟩ := pushCaller_mail (δ := δ) h ht (hdue _ _ _ rfl)
      refine ⟨_, hm, fun r ↦ ?_⟩
      simp only [Frame.promise, Frame.accepts, arrivals_nil, add_zero]
      exact hu r
  | popEvent hp =>
      obtain ⟨B', hm, hu⟩ := popEvent_mail (δ := δ) h ht hp
      refine ⟨B', hm, fun r ↦ ?_⟩
      simp only [calls, Frame.promise, Frame.accepts, hp, forStage_nil, arrivals_nil, zero_add,
        add_zero]
      exact hu r
  | noEvent hp =>
      exact silent_mail rfl (by simp only [Frame.promise, hp]) rfl
        ((h.keep ht).same (.statsInactive ..) rfl) fun _ ↦ rfl
  | recycleFull =>
      exact silent_mail rfl rfl rfl
        (h.keepHead .other ht (.refl k) (fun _ _ ↦ rfl) trivial (by simp) (by simp)) fun _ ↦ rfl
  | recycle hp =>
      refine silent_mail rfl rfl rfl (h.giveRecycle hp ht) fun r ↦ ?_
      obtain ⟨-, rfl⟩ := State.tryPushRecycle_eq_some.1 hp
      rfl
  | destroy => exact silent_mail rfl rfl rfl (h.destroy ht (by simp)) fun _ ↦ rfl

/-- **What a step of a thread does with events**: what was under way, and what the step
accepts, is handled in it or under way after it. -/
theorem threadStep_mail {fs fs' : List (Frame U V)} {a : Act U V} {sh : T → List (InstId × Shape)}
    (h : Mail k ro B) (hsh : Shaped k sh δ) (ht : ro t = rolesOf fs) (htsh : sh t = shapesOf fs)
    (hs : threadStep xf k fs a = some (k', fs')) :
    ∃ B', Mail k' (Function.update ro t (rolesOf fs')) B' ∧
      ∀ r, forStage r (calls k fs a) + k'.underway (record (promise xf k fs a) δ) B' r =
        k.underway δ B r + arrivals r (accepts xf k fs a) := by
  cases threadStep_cases hs with
  | @wait i k₁ hp =>
      have hdue : Due (k₁.inst i) (δ i) := by
        obtain ⟨q, hi, -, rfl⟩ := State.popReady_eq_some.1 hp
        exact hsh.ready i (hi ▸ mem_cons_self)
      obtain ⟨hm, hu⟩ := (h.takeReady (t := t) hp).call (δ := δ) (Function.update_self ..) hdue
      rw [Function.update_idem, ht] at hm
      refine ⟨_, hm, fun r ↦ ?_⟩
      simp only [calls, hp, accepts, promise, arrivals_nil, add_zero]
      refine (hu r).trans ?_
      obtain ⟨q, -, -, rfl⟩ := State.popReady_eq_some.1 hp
      rfl
  | waitNull hp =>
      refine ⟨B, (h.takeNull hp).keep ht, fun r ↦ ?_⟩
      simp only [calls, hp, accepts, promise, forStage_nil, arrivals_nil, zero_add, add_zero]
      obtain ⟨q, -, -, rfl⟩ := State.popReady_eq_some.1 hp
      rfl
  | emmit hm | packed =>
      refine ⟨B, h.keep ht, fun r ↦ ?_⟩
      simp [calls, accepts, promise, record]
  | remote hm =>
      refine ⟨B, (h.keep ht).same (.statsUpdateEvents ..) rfl, fun r ↦ ?_⟩
      simp only [calls, accepts, promise, forStage_nil, arrivals_nil, zero_add, add_zero]
      rfl
  | kill hm =>
      refine ⟨B, h.giveNull.keep ht, fun r ↦ ?_⟩
      simp only [calls, accepts, promise, forStage_nil, arrivals_nil, zero_add, add_zero]
      rfl
  | @callback i c o hm =>
      obtain ⟨hM, hu⟩ := (h.takeRegistered (t := t) hm).answered (δ := δ)
        (Function.update_self ..) (State.completionValues c o)
      rw [Function.update_idem, ht] at hM
      refine ⟨_, hM, fun r ↦ ?_⟩
      simp only [calls, accepts, promise, forStage_nil, arrivals_nil, zero_add, add_zero]
      exact hu r
  | ret hr =>
      obtain ⟨B', hm, hu⟩ := returned_mail (δ := δ) h ht hr
      refine ⟨B', by rw [rolesOf_append]; exact hm, fun r ↦ ?_⟩
      simp only [calls, accepts, promise, forStage_nil, arrivals_nil, zero_add, add_zero]
      exact hu r
  | chunkOk hg =>
      obtain ⟨B', hm, hu⟩ := granted_mail (δ := δ) h (by rw [ht]; rfl) hg
      refine ⟨B', by rw [rolesOf_append]; exact hm, fun r ↦ ?_⟩
      simp only [calls, accepts, promise, forStage_nil, zero_add]
      exact hu r
  | initFails =>
      have h₁ := h.keepHead .other (κ := .created _) (by rw [ht]; rfl) (.refl k) (fun _ _ ↦ rfl)
        trivial (by simp) (by simp)
      refine ⟨B, h₁, fun r ↦ ?_⟩
      simp [calls, accepts, promise, record]
  | loadFails hr =>
      have h₁ := h.dropHead (κ := .created _) (by rw [ht]; rfl) (by simp)
      obtain ⟨B', hm, hu⟩ := refused_mail (δ := δ) h₁ (Function.update_self ..) hr
      rw [Function.update_idem] at hm
      refine ⟨B', by rw [rolesOf_append]; exact hm, fun r ↦ ?_⟩
      simp only [calls, accepts, promise, forStage_nil, arrivals_nil, zero_add, add_zero]
      exact hu r
  | @run f fs new _ hf =>
      have hdue : ∀ caller callee con, f = .pushCaller caller callee con →
          Due (k.inst callee) (δ callee) := by
        rintro caller callee con rfl
        refine hsh.hands t (callee, .due) ?_
        rw [htsh]
        exact mem_cons_of_mem _ mem_cons_self
      obtain ⟨B', hm, hu⟩ := frameStep_mail (δ := δ) h ht hdue hf
      exact ⟨B', by rw [rolesOf_append]; exact hm, hu⟩

end Steps

/-! ## Whole runs -/

namespace Books

variable {xf : Transfer U V} {σ σ' : Books T U V}

/-- The kernel. -/
def kernel (σ : Books T U V) : State V := σ.ledger.machine.kernel

/-- What the threads are doing. -/
def stack (σ : Books T U V) : T → List (Frame U V) := σ.ledger.machine.stack

open Classical in
/-- The instances on their way to a call: on the ready queue, or with a thread that is about
to queue or to resume them. -/
noncomputable def bound (σ : Books T U V) : Finset InstId :=
  σ.kernel.live.filter fun i ↦
    some i ∈ σ.kernel.readyQueue.items ∨ ∃ t, (i, .bound) ∈ rolesOf (σ.stack t)

/-- The events for `s` that were accepted and are with a bound instance or in the event
queue. -/
noncomputable def underway (σ : Books T U V) (s : StageId) : Multiset (List (Slot V)) :=
  σ.kernel.underway σ.ledger.due σ.bound s

/-- **The books balance**: every accepted event was handled or is under way. -/
structure Balanced (σ : Books T U V) : Prop where
  kept : σ.ledger.Kept
  mail : Mail σ.kernel (fun t ↦ rolesOf (σ.stack t)) σ.bound
  balance : ∀ s, forStage s σ.handled + σ.underway s = arrivals s σ.accepted

/-- The bound instances are the ones `Mail` counts. -/
theorem eq_bound {B : Finset InstId} (h : Mail σ.kernel (fun t ↦ rolesOf (σ.stack t)) B) :
    B = σ.bound := by
  ext i
  simp only [bound, Finset.mem_filter, ← h.bound]
  constructor
  · exact fun hi ↦ ⟨h.live hi, hi⟩
  · exact fun hi ↦ hi.2

/-- So the balance may be struck with them. -/
theorem balanced_of_mail {B : Finset InstId} (hk : σ.ledger.Kept)
    (h : Mail σ.kernel (fun t ↦ rolesOf (σ.stack t)) B)
    (hb : ∀ s, forStage s σ.handled + σ.kernel.underway σ.ledger.due B s =
      arrivals s σ.accepted) : σ.Balanced := by
  obtain rfl := eq_bound h
  exact ⟨hk, h, hb⟩

/-- Nothing is under way at the start. -/
theorem balanced_init (g : Graph) (ft : FullTest) (L pend : Int) :
    (init g ft L pend : Books T U V).Balanced := by
  have hm : Mail (init g ft L pend : Books T U V).kernel
      (fun t ↦ rolesOf ((init g ft L pend : Books T U V).stack t)) ∅ := by
    refine ⟨.instanceInit g ft L pend, fun i ↦ ?_, fun s i hi ↦ ?_, fun p hp ↦ ?_,
      fun t p hp ↦ ?_⟩
    · constructor
      · intro hi
        cases hi
      · rintro (hi | ⟨t, hi⟩) <;> cases hi
    · cases hi
    · cases hp
    · cases hp
  exact balanced_of_mail (Ledger.kept_init g ft L pend) hm fun s ↦ rfl

/-- When nobody does anything and the queues are empty, nothing is under way. -/
theorem underway_eq_zero {s : StageId} (hstack : ∀ t, σ.stack t = [])
    (hready : σ.kernel.readyQueue.items = []) (hev : (σ.kernel.eventQueues s).items = []) :
    σ.underway s = 0 := by
  have hB : σ.bound = ∅ := by
    unfold bound
    simp [hstack, hready]
  unfold underway State.underway State.pendingFor
  simp [hB, hev]

/-- What a handler leaves on the stack of its instance is no frame of its thread. -/
theorem leave_stack (m : Machine T U V) (t : T) (results : List (Slot V)) :
    (Ledger.leave m t results).stack = m.stack := by
  unfold Ledger.leave
  split <;> rfl

variable [DecidableEq T]

/-- Nor does it carry an event. -/
theorem mail_leave {m : Machine T U V} {B : Finset InstId} {δ : InstId → List (Slot V)}
    (h : Mail m.kernel (fun r ↦ rolesOf (m.stack r)) B) (t : T) (results : List (Slot V)) :
    Mail (Ledger.leave m t results).kernel (fun r ↦ rolesOf (m.stack r)) B ∧
      ∀ s, (Ledger.leave m t results).kernel.underway δ B s = m.kernel.underway δ B s := by
  unfold Ledger.leave
  split
  · rename_i i fs hfs
    have hro : rolesOf (m.stack t) = (i, .other) :: rolesOf fs := by rw [hfs]; rfl
    have hB := h.notMem_bound hro (by simp)
    have hm := h.keepHead .other hro
      (.modifyInst m.kernel i fun d ↦ { d with stack := d.stack ++ results })
      (fun j hj ↦ State.inst_modifyInst_of_ne hj) trivial (by simp) (by simp)
    rw [← hro, Function.update_eq_self] at hm
    refine ⟨hm, fun s ↦ ?_⟩
    exact Mail.underway_modifyInst hB (fun d ↦ { d with stack := d.stack ++ results }) s
  · exact ⟨h, fun _ ↦ rfl⟩

/-- Every step keeps the balance. -/
theorem balanced_step {l : (T × Act U V) × List (Slot V)} (h : σ.Balanced)
    (hs : step xf σ l = some σ') : σ'.Balanced := by
  obtain ⟨x, hx, rfl⟩ := Option.map_eq_some_iff.1 hs
  have hkept := Ledger.kept_step h.kept hx
  obtain ⟨m', hm, rfl⟩ := Option.map_eq_some_iff.1 hx
  obtain ⟨hleave, hul⟩ := mail_leave (δ := σ.ledger.due) h.mail l.1.1 l.2
  have hshape : Shaped _ _ _ := Ledger.kept_leave h.kept l.1.1 l.2
  obtain ⟨k, fs, hstep, rfl⟩ := Machine.step_eq_some.1 hm
  have hst := leave_stack σ.ledger.machine l.1.1 l.2
  obtain ⟨B', hM, hu⟩ := threadStep_mail (t := l.1.1) hleave hshape
    (congrArg (fun st ↦ rolesOf (st l.1.1)) hst.symm) rfl hstep
  have hro : (fun r ↦ rolesOf (Function.update
      (Ledger.leave σ.ledger.machine l.1.1 l.2).stack l.1.1 fs r)) = Function.update
        (fun r ↦ rolesOf (σ.ledger.machine.stack r)) l.1.1 (rolesOf fs) := by
    rw [hst]
    exact Function.comp_update rolesOf _ _ _
  rw [← hro] at hM
  refine balanced_of_mail hkept hM fun s ↦ ?_
  change forStage s (σ.handled ++ _) + k.underway _ B' s = arrivals s (σ.accepted ++ _)
  rw [forStage_append, arrivals_append, add_assoc, hu s, hul s, ← add_assoc]
  exact congrArg (· + _) (h.balance s)

/-- Every run keeps the balance. -/
theorem balanced_run {g : Graph} {ft : FullTest} {L pend : Int}
    {tr : List (Books T U V × ((T × Act U V) × List (Slot V)))}
    (h : Run (step xf) (init g ft L pend) tr σ) : σ.Balanced :=
  h.invariant' (balanced_init g ft L pend) fun _ _ _ hb hs ↦ balanced_step hb hs

end Books

/-- **No event is lost and none is handled twice**, in every run of any number of threads:
at every moment the events accepted for a stage are, with their multiplicity and their
arguments unchanged, the events its handler was started on together with those under way
in instances and in the event queue of the stage.  So no more events are handled than were
accepted, and when every thread is idle and the queues are empty exactly the accepted
events have been handled.  This is so whatever creations fail, handlers raise, `DESTROY` or
yield with, and however small the queues are. -/
theorem exactly_once [DecidableEq T] (xf : Transfer U V) (g : Graph) (ft : FullTest)
    (L pend : Int) {tr : List (Books T U V × ((T × Act U V) × List (Slot V)))}
    {σ : Books T U V} (h : Run (Books.step xf) (Books.init g ft L pend) tr σ) (s : StageId) :
    forStage s σ.handled + σ.underway s = arrivals s σ.accepted ∧
    forStage s σ.handled ≤ arrivals s σ.accepted ∧
    ((∀ t, σ.stack t = []) → σ.kernel.readyQueue.items = [] →
      (σ.kernel.eventQueues s).items = [] → forStage s σ.handled = arrivals s σ.accepted) := by
  have hb := (Books.balanced_run h).balance s
  refine ⟨hb, ?_, fun hstack hready hev ↦ ?_⟩
  · rw [← hb]
    exact Multiset.le_add_right _ _
  · rw [Books.underway_eq_zero hstack hready hev, add_zero] at hb
    exact hb

/-- Thread `0` sends two events to a serial stage; the second one waits in the event queue
while thread `1` runs the first one. -/
def twoSends : List ((Nat × Act Nat Nat) × List (Slot Nat)) :=
  let acts : List (Nat × Act Nat Nat) := [(0, .emmit 0 0 [7])] ++ creation 0 ++
    [(0, .run), (0, .emmit 0 0 [8]), (0, .run), (0, .run), (0, .run), (0, .run), (1, .wait)]
  acts.map fun l ↦ (l, [])

/-- `exactly_once` at `twoSends`: two events were accepted and one of them was handled. -/
theorem exactly_once_twoSends :
    ∃ σ : Books Nat Nat Nat, exec (Books.step (.plain Nat))
        (.init (.single true) .exactly (-1) (-1)) twoSends = some σ ∧
      σ.accepted = [(0, [7]), (0, [8])] ∧ σ.handled = [(0, [.value 7])] ∧
      forStage 0 σ.handled + σ.underway 0 = arrivals 0 σ.accepted := by
  obtain ⟨σ, hσ⟩ : ∃ σ, exec (Books.step (.plain Nat))
      (.init (.single true) .exactly (-1) (-1)) twoSends = some σ := ⟨_, rfl⟩
  refine ⟨σ, hσ, ?_, ?_, (exactly_once _ _ _ _ _ (Run.of_exec hσ) 0).1⟩
  all_goals
    obtain rfl := Option.some.inj hσ
    rfl

end Leda.Kernel
