import Leda.Kernel.Resumable
import Leda.Kernel.Serial
import Mathlib.Algebra.BigOperators.Group.Finset.Basic
import Mathlib.Algebra.Order.Group.Multiset

/-!
# Where the events are

`Books` is the interleaving machine with two lists beside the promises: what was accepted
for which stage, written when an instance that was acquired for an event has it, or when
`TRY_PUSH` has put it into an event queue, and what each call that starts a handler on an
event passed to it.

Between the two an event is in one of two kinds of places: in the event queue of its stage,
or with an instance that is *bound* for a call — on the ready queue, or in the hands of a
thread that is about to put it there or to resume it.  A bound instance whose coroutine
waits inside its handler carries no event, only the values it waits for; so what has to be
known of an instance besides its `Shape` is whether it is suspended, and that follows from
its `Role` in the hands of its thread.

The number of threads is arbitrary, and the bound instances of all of them are one finite
set, because bound instances are live.  `Mail` says which set it is; an instance moves in and
out of it by the few rules below, and everything else a thread does leaves the set alone.
-/

universe u v

namespace Leda.Kernel

open Leda.Lib List

variable {U V : Type u} {T : Type v}

/-! ## The books -/

/-- The entries of a list that concern stage `s`, in order. -/
def logOf {α : Type u} (s : StageId) (l : List (StageId × α)) : List α :=
  l.filterMap fun p ↦ if p.1 = s then some p.2 else none

/-- The same entries, without their order. -/
def forStage {α : Type u} (s : StageId) (l : List (StageId × α)) : Multiset α :=
  (logOf s l : List α)

section ForStage

variable {α : Type u} {s : StageId}

@[simp] theorem logOf_nil : logOf s ([] : List (StageId × α)) = [] := rfl

@[simp] theorem logOf_singleton (p : StageId × α) :
    logOf s [p] = if p.1 = s then [p.2] else [] := by
  unfold logOf
  by_cases h : p.1 = s <;> simp [h]

@[simp] theorem logOf_append (l m : List (StageId × α)) :
    logOf s (l ++ m) = logOf s l ++ logOf s m := filterMap_append

@[simp] theorem forStage_nil : forStage s ([] : List (StageId × α)) = 0 := rfl

@[simp] theorem forStage_singleton (p : StageId × α) :
    forStage s [p] = if p.1 = s then {p.2} else 0 := by
  unfold forStage
  by_cases h : p.1 = s <;> simp [h]

@[simp] theorem forStage_append (l m : List (StageId × α)) :
    forStage s (l ++ m) = forStage s l + forStage s m := by
  unfold forStage
  rw [logOf_append, ← Multiset.coe_add]

end ForStage

/-- What is accepted when `instance_aquire` returned an instance of `s`. -/
def Purpose.accepts (xf : Transfer U V) (s : StageId) : Purpose U V → List (StageId × List V)
  | .emmit _ args | .cohort _ _ args =>
      match xf.copy args with
      | .ok e => [(s, e)]
      | .raised _ | .crash => []
  | .packed e => [(s, e)]

/-- What is accepted at the next access of a frame. -/
def Frame.accepts (xf : Transfer U V) (k : State V) : Frame U V → List (StageId × List V)
  | .aquire s p =>
      if k.graph.Beyond s then []
      else
        match k.tryPopRecycle s with
        | some _ => p.accepts xf s
        | none => []
  | .pushEvent s e _ =>
      match k.tryPushEvent s e with
      | some _ => [(s, e)]
      | none => []
  | _ => []

/-- What is accepted in a step of a thread. -/
def accepts (xf : Transfer U V) (k : State V) (fs : List (Frame U V)) :
    Act U V → List (StageId × List V)
  | .chunkEnds .ok =>
      match fs with
      | .chunk s _ p :: _ => p.accepts xf s
      | _ => []
  | .run =>
      match fs with
      | f :: _ => f.accepts xf k
      | [] => []
  | _ => []

/-- A call that does not resume a suspended handler starts it on an event. -/
def State.starts (k : State V) (i : InstId) : List (StageId × List (Slot V)) :=
  if (k.inst i).suspended then [] else [(k.stageOf i, (k.resumeInstance i).2)]

/-- The handlers that are started on an event in a step of a thread. -/
def calls (k : State V) (fs : List (Frame U V)) : Act U V → List (StageId × List (Slot V))
  | .wait =>
      match fs, k.popReady with
      | [], some (some i, k') => k'.starts i
      | _, _ => []
  | .run =>
      match fs with
      | .pushCaller _ callee _ :: _ => k.starts callee
      | _ => []
  | _ => []

/-- The machine with the promises and the books. -/
structure Books (T : Type v) (U V : Type u) where
  ledger : Ledger T U V
  accepted : List (StageId × List V)
  handled : List (StageId × List (Slot V))

namespace Books

/-- After `instance_init`. -/
def init (g : Graph) (ft : FullTest) (recycleLimit pendingLimit : Int) : Books T U V :=
  ⟨.init g ft recycleLimit pendingLimit, [], []⟩

variable [DecidableEq T]

/-- One step of one thread, written down. -/
def step (xf : Transfer U V) (σ : Books T U V) (l : (T × Act U V) × List (Slot V)) :
    Option (Books T U V) :=
  let m := Ledger.leave σ.ledger.machine l.1.1 l.2
  (Ledger.step xf σ.ledger l).map fun x ↦
    { ledger := x
      accepted := σ.accepted ++ accepts xf m.kernel (m.stack l.1.1) l.1.2
      handled := σ.handled ++ calls m.kernel (m.stack l.1.1) l.1.2 }

end Books

/-! ## Roles -/

/-- What an instance is in the hands of a thread for. -/
inductive Role
  | /-- On its way to a call of its handler. -/
    bound
  | /-- New, of this stage. -/
    created (s : StageId)
  | /-- Its handler returned. -/
    idle
  | /-- Its coroutine waits inside the handler. -/
    asleep
  | other
deriving Repr, DecidableEq

/-- What is known of an instance in this role. -/
def Role.Holds : Role → Instance V → Prop
  | created s, d => d.stage = s ∧ d.suspended = false
  | idle, d => d.suspended = false
  | asleep, d => d.suspended = true
  | bound, _ | other, _ => True

/-- The roles of the instances held for a purpose. -/
def Purpose.roles : Purpose U V → List (InstId × Role)
  | .cohort caller .. => [(caller, .asleep)]
  | _ => []

/-- The roles of the instances a frame holds. -/
def Frame.roles : Frame U V → List (InstId × Role)
  | .handler i | .destroy i => [(i, .other)]
  | .aquire _ p | .readCount _ p | .readLimit _ _ p | .add _ p => p.roles
  | .chunk s i p => (i, .created s) :: p.roles
  | .abandon _ i p => (i, .other) :: p.roles
  | .pushEvent .. => []
  | .pushReady i => [(i, .bound)]
  | .pushCaller caller callee _ => [(caller, .bound), (callee, .bound)]
  | .popEvent i | .recycle i => [(i, .idle)]

/-- The roles of the instances a stack of frames holds. -/
def rolesOf (fs : List (Frame U V)) : List (InstId × Role) := fs.flatMap Frame.roles

@[simp] theorem rolesOf_nil : rolesOf ([] : List (Frame U V)) = [] := rfl

@[simp] theorem rolesOf_cons (f : Frame U V) (fs : List (Frame U V)) :
    rolesOf (f :: fs) = f.roles ++ rolesOf fs := rfl

theorem rolesOf_singleton (f : Frame U V) : rolesOf [f] = f.roles := append_nil _

@[simp] theorem rolesOf_append (fs gs : List (Frame U V)) :
    rolesOf (fs ++ gs) = rolesOf fs ++ rolesOf gs := flatMap_append

/-! ## What is under way -/

/-- The event for `s` that a bound instance carries, if it carries one. -/
def State.carried (k : State V) (due : InstId → List (Slot V)) (s : StageId) (i : InstId) :
    Multiset (List (Slot V)) :=
  if k.stageOf i = s ∧ (k.inst i).suspended = false then {due i} else 0

/-- The events in the event queue of `s`. -/
def State.pendingFor (k : State V) (s : StageId) : Multiset (List (Slot V)) :=
  ((k.eventQueues s).items.map (map .value) : List (List (Slot V)))

/-- The events for `s` under way, when `B` are the bound instances. -/
def State.underway (k : State V) (due : InstId → List (Slot V)) (B : Finset InstId)
    (s : StageId) : Multiset (List (Slot V)) :=
  ∑ i ∈ B, k.carried due s i + k.pendingFor s

/-- An instance that waits inside its handler carries nothing. -/
theorem State.carried_suspended {k : State V} {due : InstId → List (Slot V)} {s : StageId}
    {i : InstId} (h : (k.inst i).suspended = true) : k.carried due s i = 0 := by
  apply if_neg
  rintro ⟨-, h'⟩
  rw [h] at h'
  cases h'

/-- What a call starts with depends on the Lua state of the instance. -/
theorem State.starts_congr {k k' : State V} {i : InstId} (h : k'.inst i = k.inst i) :
    k'.starts i = k.starts i := by
  unfold State.starts State.stageOf
  rw [resumeInstance_snd, resumeInstance_snd, h]

/-- What a call of a bound instance handles is what the instance carried. -/
theorem State.forStage_starts {k : State V} {due : InstId → List (Slot V)} {s : StageId}
    {i : InstId} (h : Due (k.inst i) (due i)) : forStage s (k.starts i) = k.carried due s i := by
  unfold State.starts State.carried
  rw [h.resume.1]
  cases (k.inst i).suspended with
  | true => simp
  | false => simp

/-- **Where the instances are, as far as events are concerned.**  `ro t` says what thread
`t` holds and what for, `B` are the bound instances. -/
structure Mail (k : State V) (ro : T → List (InstId × Role)) (B : Finset InstId) : Prop where
  owned : Owned k fun t ↦ (ro t).map Prod.fst
  bound : ∀ i, i ∈ B ↔ some i ∈ k.readyQueue.items ∨ ∃ t, (i, .bound) ∈ ro t
  recycled : ∀ s, ∀ i ∈ (k.recycleQueues s).items, (k.inst i).suspended = false
  registered : ∀ p ∈ k.registered, (k.inst p.1).suspended = true
  hands : ∀ t, ∀ p ∈ ro t, p.2.Holds (k.inst p.1)

namespace Mail

variable {k k' : State V} {ro : T → List (InstId × Role)} {B : Finset InstId}
  {due due' : InstId → List (Slot V)} {t : T} {i : InstId} {s : StageId} {κ κ' : Role}
  {l : List (InstId × Role)}

/-- What a thread holds is nowhere else. -/
theorem elsewhere (h : Mail k ro B) (hi : i ∈ (ro t).map Prod.fst) :
    some i ∉ k.readyQueue.items ∧ (∀ s, i ∉ (k.recycleQueues s).items) ∧
      i ∉ k.registered.map Prod.fst ∧ ∀ r, r ≠ t → i ∉ (ro r).map Prod.fst := by
  have hx := h.owned.exclusive
  have hout : ∀ q : Place T, q ≠ .hands t → i ∉ places k (fun t ↦ (ro t).map Prod.fst) q :=
    fun q hq hm ↦ hq (hx.place_unique (q := .hands t) hm hi)
  refine ⟨fun hm ↦ hout .ready (by simp) ?_, fun s ↦ hout (.recycle s) (by simp),
    hout .registered (by simp), fun r hr ↦ hout (.hands r) (by simp [hr])⟩
  exact mem_filterMap.2 ⟨_, hm, rfl⟩

/-- The others a thread holds are others. -/
theorem notMem_tail (h : Mail k ro B) (ht : ro t = (i, κ) :: l) : i ∉ l.map Prod.fst := by
  have hnd : ((ro t).map Prod.fst).Nodup := h.owned.exclusive.nodup (.hands t)
  rw [ht] at hnd
  exact (nodup_cons.1 hnd).1

/-- Who is held for something else is not bound. -/
theorem notMem_bound (h : Mail k ro B) (ht : ro t = (i, κ) :: l) (hκ : κ ≠ .bound) : i ∉ B := by
  have hi : i ∈ (ro t).map Prod.fst := by rw [ht]; exact mem_cons_self
  intro hB
  rcases (h.bound i).1 hB with hr | ⟨r, hr⟩
  · exact (h.elsewhere hi).1 hr
  · by_cases hrt : r = t
    · subst hrt
      rw [ht] at hr
      rcases mem_cons.1 hr with he | hr
      · exact hκ (congrArg Prod.snd he).symm
      · exact h.notMem_tail ht (mem_map.2 ⟨_, hr, rfl⟩)
    · exact (h.elsewhere hi).2.2.2 r hrt (mem_map.2 ⟨_, hr, rfl⟩)

/-- Bound instances are live. -/
theorem live (h : Mail k ro B) (hi : i ∈ B) : i ∈ k.live := by
  rcases (h.bound i).1 hi with hr | ⟨r, hr⟩
  · exact h.owned.live .ready i (mem_filterMap.2 ⟨_, hr, rfl⟩)
  · exact h.owned.live (.hands r) i (mem_map.2 ⟨_, hr, rfl⟩)

/-- A change that moves no instance and touches no Lua state. -/
theorem same (h : Mail k ro B) (hs : Same k k') (hi : k'.inst = k.inst) : Mail k' ro B where
  owned := h.owned.same hs
  bound := by rw [hs.ready]; exact h.bound
  recycled := by
    intro s
    rw [hs.recycle s, hi]
    exact h.recycled s
  registered := by rw [hs.registered, hi]; exact h.registered
  hands := by rw [hi]; exact h.hands

/-- What is under way depends on the bound instances and the event queue. -/
theorem underway_congr (hi : ∀ i ∈ B, k'.inst i = k.inst i ∧ due' i = due i)
    (hq : k'.eventQueues s = k.eventQueues s) :
    k'.underway due' B s = k.underway due B s := by
  unfold State.underway State.pendingFor
  rw [hq]
  congr 1
  apply Finset.sum_congr rfl
  intro i hB
  obtain ⟨h₁, h₂⟩ := hi i hB
  unfold State.carried State.stageOf
  rw [h₁, h₂]

/-- One more bound instance. -/
theorem underway_insert (hi : i ∉ B) :
    k.underway due (insert i B) s = k.carried due s i + k.underway due B s := by
  unfold State.underway
  rw [Finset.sum_insert hi, add_assoc]

/-- One less. -/
theorem underway_erase (hi : i ∈ B) :
    k.carried due s i + k.underway due (B.erase i) s = k.underway due B s := by
  rw [← underway_insert (Finset.notMem_erase i B), Finset.insert_erase hi]

/-- Taking and queueing a request to end a worker. -/
theorem takeNull (h : Mail k ro B) (hp : k.popReady = some (none, k')) : Mail k' ro B := by
  have ho := h.owned.takeNull hp
  obtain ⟨q, hi, -, rfl⟩ := State.popReady_eq_some.1 hp
  refine ⟨ho, fun j ↦ ?_, h.recycled, h.registered, h.hands⟩
  rw [h.bound, hi]
  simp

theorem giveNull (h : Mail k ro B) : Mail (k.pushReady none) ro B := by
  refine ⟨h.owned.giveNull, fun j ↦ ?_, h.recycled, h.registered, h.hands⟩
  rw [h.bound]
  simp

section Rules

variable [DecidableEq T]

/-- The instances held after the roles of one thread changed. -/
theorem owned_update (ho : Owned k (Function.update (fun r ↦ (ro r).map Prod.fst) t
    (l.map Prod.fst))) : Owned k fun r ↦ (Function.update ro t l r).map Prod.fst := by
  have hc : (fun r ↦ (Function.update ro t l r).map Prod.fst) = _ :=
    Function.comp_update (List.map Prod.fst) ro t l
  rw [hc]
  exact ho

/-- Whether an instance is bound in the hands of the threads, after those of one changed. -/
theorem exists_update (hl : (i, Role.bound) ∈ l ↔ (i, .bound) ∈ ro t) :
    (∃ r, (i, Role.bound) ∈ Function.update ro t l r) ↔ ∃ r, (i, .bound) ∈ ro r := by
  constructor <;> rintro ⟨r, hr⟩ <;> refine ⟨r, ?_⟩ <;> by_cases hrt : r = t
  · subst hrt
    rw [Function.update_self] at hr
    exact hl.1 hr
  · rwa [Function.update_of_ne hrt] at hr
  · subst hrt
    rw [Function.update_self]
    exact hl.2 hr
  · rwa [Function.update_of_ne hrt]

/-- The roles in the hands of the threads after those of one changed. -/
theorem hands_update (h : Mail k ro B) (hl : ∀ p ∈ l, p.2.Holds (k.inst p.1)) :
    ∀ r, ∀ p ∈ Function.update ro t l r, p.2.Holds (k.inst p.1) := by
  intro r p hp
  by_cases hr : r = t
  · subst hr
    rw [Function.update_self] at hp
    exact hl p hp
  · rw [Function.update_of_ne hr] at hp
    exact h.hands r p hp

/-- **The frame rule**: a thread works on the Lua state of the first instance it holds, and
holds it for something else afterwards. -/
theorem setHead {B' : Finset InstId} (h : Mail k ro B) (κ' : Role) (ht : ro t = (i, κ) :: l)
    (hs : Same k k') (hi : ∀ j, j ≠ i → k'.inst j = k.inst j) (hκ : κ'.Holds (k'.inst i))
    (hB : ∀ j, j ∈ B' ↔ if j = i then κ' = .bound else j ∈ B) :
    Mail k' (Function.update ro t ((i, κ') :: l)) B' := by
  have hmem : i ∈ (ro t).map Prod.fst := by rw [ht]; exact mem_cons_self
  obtain ⟨hready, hrec, hreg, hother⟩ := h.elsewhere hmem
  have htail := h.notMem_tail ht
  -- nobody else has the instance
  have hne : ∀ r, r ≠ t → ∀ p ∈ ro r, p.1 ≠ i := fun r hr p hp e ↦
    hother r hr (e ▸ mem_map.2 ⟨p, hp, rfl⟩)
  constructor
  · apply owned_update
    exact (h.owned.drop (by rw [ht]; exact Subperm.refl _)).same hs
  · intro j
    rw [hB, hs.ready]
    by_cases hj : j = i
    · subst hj
      simp only [if_true, hready, false_or]
      constructor
      · rintro rfl
        exact ⟨t, by rw [Function.update_self]; exact mem_cons_self⟩
      · rintro ⟨r, hr⟩
        by_cases hrt : r = t
        · subst hrt
          rw [Function.update_self] at hr
          rcases mem_cons.1 hr with he | hr
          · exact (congrArg Prod.snd he).symm
          · exact absurd (mem_map.2 ⟨_, hr, rfl⟩) htail
        · rw [Function.update_of_ne hrt] at hr
          exact absurd rfl (hne r hrt _ hr)
    · have hl : (j, Role.bound) ∈ (i, κ') :: l ↔ (j, .bound) ∈ ro t := by
        rw [ht]
        simp [hj]
      rw [if_neg hj, h.bound j, exists_update hl]
  · intro s j hj
    rw [hs.recycle s] at hj
    rw [hi j fun e ↦ hrec s (e ▸ hj)]
    exact h.recycled s j hj
  · intro p hp
    rw [hs.registered] at hp
    rw [hi p.1 fun e ↦ hreg (e ▸ mem_map.2 ⟨p, hp, rfl⟩)]
    exact h.registered p hp
  · intro r p hp
    by_cases hr : r = t
    · subst hr
      rw [Function.update_self] at hp
      rcases mem_cons.1 hp with rfl | hp
      · exact hκ
      · rw [hi p.1 fun e ↦ htail (e ▸ mem_map.2 ⟨p, hp, rfl⟩)]
        exact h.hands r p (by rw [ht]; exact mem_cons_of_mem _ hp)
    · rw [Function.update_of_ne hr] at hp
      rw [hi p.1 (hne r hr p hp)]
      exact h.hands r p hp

/-- It goes on with it for something that is no call. -/
theorem keepHead (h : Mail k ro B) (κ' : Role) (ht : ro t = (i, κ) :: l) (hs : Same k k')
    (hi : ∀ j, j ≠ i → k'.inst j = k.inst j) (hκ : κ'.Holds (k'.inst i)) (hb : κ ≠ .bound)
    (hb' : κ' ≠ .bound) : Mail k' (Function.update ro t ((i, κ') :: l)) B := by
  have hB := h.notMem_bound ht hb
  apply h.setHead κ' ht hs hi hκ
  intro j
  by_cases hj : j = i
  · subst hj
    simp [hB, hb']
  · rw [if_neg hj]

/-- It makes it ready for a call. -/
theorem bindHead (h : Mail k ro B) (ht : ro t = (i, κ) :: l) (hs : Same k k')
    (hi : ∀ j, j ≠ i → k'.inst j = k.inst j) :
    Mail k' (Function.update ro t ((i, .bound) :: l)) (insert i B) := by
  apply h.setHead .bound ht hs hi trivial
  intro j
  rw [Finset.mem_insert]
  by_cases hj : j = i
  · simp [hj]
  · simp [hj]

/-- It calls the handler. -/
theorem callHead (h : Mail k ro B) (ht : ro t = (i, .bound) :: l) (hs : Same k k')
    (hi : ∀ j, j ≠ i → k'.inst j = k.inst j) :
    Mail k' (Function.update ro t ((i, .other) :: l)) (B.erase i) := by
  apply h.setHead .other ht hs hi trivial
  intro j
  rw [Finset.mem_erase]
  by_cases hj : j = i
  · simp [hj]
  · simp [hj]

/-- A thread lists what it holds in another order, or drops what is not bound. -/
theorem hold (h : Mail k ro B) (hsub : l.map Prod.fst <+~ (ro t).map Prod.fst)
    (hl : ∀ p ∈ l, p ∈ ro t) (hb : ∀ i, (i, Role.bound) ∈ ro t → (i, .bound) ∈ l) :
    Mail k (Function.update ro t l) B where
  owned := owned_update (h.owned.drop hsub)
  bound i := by rw [h.bound, exists_update ⟨hl _, hb i⟩]
  recycled := h.recycled
  registered := h.registered
  hands := h.hands_update fun p hp ↦ h.hands t p (hl p hp)

/-- It goes on with what it holds. -/
theorem keep (h : Mail k ro B) (ht : ro t = l) : Mail k (Function.update ro t l) B := by
  subst ht
  rwa [Function.update_eq_self]

/-- It drops an instance that is not bound. -/
theorem dropHead (h : Mail k ro B) (ht : ro t = (i, κ) :: l) (hb : κ ≠ .bound) :
    Mail k (Function.update ro t l) B := by
  refine h.hold ?_ ?_ ?_ <;> rw [ht]
  · exact (sublist_cons_self ..).subperm
  · exact fun p hp ↦ mem_cons_of_mem _ hp
  · intro j hj
    rcases mem_cons.1 hj with he | hj
    · exact absurd (congrArg Prod.snd he).symm hb
    · exact hj

/-- It takes the next instance first. -/
theorem swapHead (h : Mail k ro B) {p q : InstId × Role} (ht : ro t = p :: q :: l) :
    Mail k (Function.update ro t (q :: p :: l)) B := by
  refine h.hold ?_ ?_ ?_ <;> rw [ht]
  · exact ((Perm.swap p q l).map Prod.fst).subperm
  · exact fun r hr ↦ (Perm.swap p q l).subset hr
  · exact fun j hj ↦ (Perm.swap q p l).subset hj

/-- `push_ready_queue` of a bound instance. -/
theorem giveReady (h : Mail k ro B) (ht : ro t = (i, .bound) :: l) :
    Mail (k.pushReadyQueue i) (Function.update ro t l) B where
  owned := owned_update (h.owned.giveReady (by rw [ht]; exact Subperm.refl _))
  bound j := by
    have htail := h.notMem_tail ht
    have hin : some j ∈ (k.pushReadyQueue i).readyQueue.items ↔
        some j ∈ k.readyQueue.items ∨ j = i := by
      simp [State.pushReadyQueue]
    rw [h.bound, hin]
    by_cases hj : j = i
    · subst hj
      simp only [or_true, true_or, iff_true]
      exact .inr ⟨t, by rw [ht]; exact mem_cons_self⟩
    · have hl : (j, Role.bound) ∈ l ↔ (j, .bound) ∈ ro t := by
        rw [ht]
        simp [hj]
      rw [exists_update hl]
      simp [hj]
  recycled := h.recycled
  registered := h.registered
  hands := h.hands_update fun p hp ↦ h.hands t p (by rw [ht]; exact mem_cons_of_mem _ hp)

/-- A worker takes an instance. -/
theorem takeReady (h : Mail k ro B) (hp : k.popReady = some (some i, k')) :
    Mail k' (Function.update ro t ((i, .bound) :: ro t)) B := by
  have ho := h.owned.takeReady (t := t) (l := ((i, Role.bound) :: ro t).map Prod.fst) hp
    (Subperm.refl _)
  obtain ⟨q, hi, -, rfl⟩ := State.popReady_eq_some.1 hp
  refine ⟨owned_update ho, fun j ↦ ?_, h.recycled, h.registered, h.hands_update fun p hp ↦ ?_⟩
  · rw [h.bound, hi]
    by_cases hj : j = i
    · subst hj
      simp only [mem_cons, true_or, true_iff]
      exact .inr ⟨t, by rw [Function.update_self]; exact mem_cons_self⟩
    · have hl : (j, Role.bound) ∈ (i, .bound) :: ro t ↔ (j, .bound) ∈ ro t := by simp [hj]
      rw [exists_update hl]
      simp [hj]
  · rcases mem_cons.1 hp with rfl | hp
    · trivial
    · exact h.hands t p hp

/-- An instance that is taken for something that is no call. -/
theorem take (h : Mail k ro B)
    (ho : Owned k' (Function.update (fun r ↦ (ro r).map Prod.fst) t (i :: (ro t).map Prod.fst)))
    (hκ : κ.Holds (k'.inst i)) (hb : κ ≠ .bound) (hready : k'.readyQueue = k.readyQueue)
    (hrec : ∀ s, ∀ j ∈ (k'.recycleQueues s).items, j ∈ (k.recycleQueues s).items)
    (hreg : ∀ p ∈ k'.registered, p ∈ k.registered)
    (hi : ∀ j, (∃ p, j ∈ places k (fun r ↦ (ro r).map Prod.fst) p) → k'.inst j = k.inst j) :
    Mail k' (Function.update ro t ((i, κ) :: ro t)) B where
  owned := owned_update (l := (i, κ) :: ro t) ho
  bound j := by
    have hl : (j, Role.bound) ∈ (i, κ) :: ro t ↔ (j, .bound) ∈ ro t := by
      simp [hb.symm]
    rw [h.bound, hready, exists_update hl]
  recycled s j hj := by
    rw [hi j ⟨.recycle s, hrec s j hj⟩]
    exact h.recycled s j (hrec s j hj)
  registered p hp := by
    rw [hi p.1 ⟨.registered, mem_map.2 ⟨p, hreg p hp, rfl⟩⟩]
    exact h.registered p (hreg p hp)
  hands r p hp := by
    have hold : ∀ r, ∀ p ∈ ro r, p.2.Holds (k'.inst p.1) := by
      intro r p hp
      rw [hi p.1 ⟨.hands r, mem_map.2 ⟨p, hp, rfl⟩⟩]
      exact h.hands r p hp
    by_cases hr : r = t
    · subst hr
      rw [Function.update_self] at hp
      rcases mem_cons.1 hp with rfl | hp
      · exact hκ
      · exact hold r p hp
    · rw [Function.update_of_ne hr] at hp
      exact hold r p hp

/-- `instance_aquire` takes an idle instance. -/
theorem takeRecycle (h : Mail k ro B) (hp : k.tryPopRecycle s = some (i, k')) :
    Mail k' (Function.update ro t ((i, .created s) :: ro t)) B := by
  have ho := h.owned.takeRecycle (t := t) hp (Subperm.refl _)
  obtain ⟨q, hi, -, rfl⟩ := State.tryPopRecycle_eq_some.1 hp
  have hm : i ∈ (k.recycleQueues s).items := by
    rw [hi]
    exact mem_cons_self
  refine h.take ho ⟨(h.owned.accounted.recycled s i hm).2, h.recycled s i hm⟩ (by simp) rfl
    (fun s' j hj ↦ ?_) (fun _ hp ↦ hp) fun _ _ ↦ rfl
  by_cases hs : s' = s
  · subst hs
    simp only [Function.update_self] at hj
    rw [hi]
    exact mem_cons_of_mem _ hj
  · simp only [Function.update_of_ne hs] at hj
    exact hj

/-- A callback takes its instance. -/
theorem takeRegistered (h : Mail k ro B) {c : Completion} (hm : (i, c) ∈ k.registered) :
    Mail { k with registered := k.registered.erase (i, c) }
      (Function.update ro t ((i, .asleep) :: ro t)) B :=
  h.take (h.owned.takeRegistered hm (Subperm.refl _)) (h.registered _ hm) (by simp) rfl
    (fun _ _ hj ↦ hj) (fun _ hp ↦ mem_of_mem_erase hp) fun _ _ ↦ rfl

/-- A new instance waits for an event. -/
theorem create (h : Mail k ro B) (s : StageId) :
    Mail (((k.statsActive s).addInstances s 1).newInstance s)
      (Function.update ro t ((k.nextInst, .created s) :: ro t)) B := by
  refine h.take (h.owned.create s (Subperm.refl _)) ?_ (by simp) rfl (fun _ _ hj ↦ hj)
    (fun _ hp ↦ hp) ?_
  · simp [Role.Holds, State.newInstance]
  · rintro j ⟨p, hj⟩
    have hne : j ≠ k.nextInst := by
      rintro rfl
      exact h.owned.nextInst_notMem p hj
    exact Function.update_of_ne hne _ _

/-- An instance whose handler returned goes back to the recycle queue of its stage. -/
theorem giveRecycle (h : Mail k ro B) (hp : k.tryPushRecycle (k.stageOf i) i = some k')
    (ht : ro t = (i, .idle) :: l) : Mail k' (Function.update ro t l) B := by
  have ho := h.owned.giveRecycle (t := t) (l := l.map Prod.fst) hp (by
    rw [ht]
    exact Subperm.refl _)
  have hd := h.dropHead ht (by simp)
  obtain ⟨-, rfl⟩ := State.tryPushRecycle_eq_some.1 hp
  refine ⟨owned_update ho, hd.bound, fun s j hj ↦ ?_, h.registered, hd.hands⟩
  by_cases hs : s = k.stageOf i
  · subst hs
    simp only [Function.update_self] at hj
    rcases mem_append.1 hj with hj | hj
    · exact h.recycled _ j hj
    · obtain rfl := mem_singleton.1 hj
      exact h.hands t (j, .idle) (by rw [ht]; exact mem_cons_self)
  · simp only [Function.update_of_ne hs] at hj
    exact h.recycled s j hj

/-- A waiting instance is left to a callback. -/
theorem giveRegistered (h : Mail k ro B) (c : Completion) (ht : ro t = (i, .asleep) :: l) :
    Mail (k.register i c) (Function.update ro t l) B := by
  have hd := h.dropHead ht (by simp)
  refine ⟨owned_update (h.owned.giveRegistered c (by rw [ht]; exact Subperm.refl _)), hd.bound,
    h.recycled, fun p hp ↦ ?_, hd.hands⟩
  rcases mem_append.1 hp with hp | hp
  · exact h.registered p hp
  · obtain rfl := mem_singleton.1 hp
    exact h.hands t (i, .asleep) (by rw [ht]; exact mem_cons_self)

/-- `instance_destroy` of an instance that is not bound. -/
theorem destroy (h : Mail k ro B) (ht : ro t = (i, κ) :: l) (hb : κ ≠ .bound) :
    Mail (k.instanceDestroy i) (Function.update ro t l) B :=
  have hd := h.dropHead ht hb
  ⟨owned_update (h.owned.destroy (by rw [ht]; exact Subperm.refl _)), hd.bound, h.recycled,
    h.registered, hd.hands⟩

end Rules

end Mail

end Leda.Kernel
