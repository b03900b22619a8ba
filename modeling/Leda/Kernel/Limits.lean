import Leda.Kernel.Accounting

/-!
# The limit on the number of instances

`instance_aquire` refuses to create an instance when the counter *equals* the
limit.  As long as the limit is never changed that is as good as "at least the
limit", because the counter cannot get past a limit it meets on its way up:
`Within` is then an invariant, the recycle queue always has room for an instance
that is given back, and the branch of `instance_release` that destroys an instance
for lack of room is dead (`accounting_exact`).

`instance_set_maxpar` can move the limit below the counter.  From then on the two
are never equal and `instance_aquire` creates without bound; `maxpar_respected_iff`
says exactly which runs escape this.
-/

universe u

namespace Leda.Kernel

open Leda.Lib

variable {V : Type u}

/-- The recycle queue of a stage has the limit of the stage as its capacity. -/
def Roomy (k : State V) : Prop :=
  ∀ s, (k.recycleQueues s).capacity = k.recycleQueueLimits s

/-- The counter of a stage has not passed its limit. -/
def Within (k : State V) (s : StageId) : Prop :=
  0 ≤ k.recycleQueueLimits s → k.numberOfInstances s ≤ k.recycleQueueLimits s

/-- Whether an operation can change a limit. -/
def InstOp.changesLimit : InstOp V → Bool
  | .setMaxpar .. => true
  | _ => false

/-- What an operation did to the limits and the counters, when it is not
`instance_set_maxpar`: a counter only grows by one, away from the limit. -/
structure Grows (k k' : State V) : Prop where
  limits : k'.recycleQueueLimits = k.recycleQueueLimits
  capacity : ∀ s, (k'.recycleQueues s).capacity = (k.recycleQueues s).capacity
  number : ∀ s, k'.numberOfInstances s ≤ k.numberOfInstances s ∨
    k'.numberOfInstances s = k.numberOfInstances s + 1 ∧
      k.numberOfInstances s ≠ k.recycleQueueLimits s

namespace Grows

variable {k k' k'' : State V} {s : StageId} {i : InstId}

/-- An operation that touches no counter. -/
theorem of_eq (hl : k'.recycleQueueLimits = k.recycleQueueLimits)
    (hn : k'.numberOfInstances = k.numberOfInstances)
    (hc : ∀ s, (k'.recycleQueues s).capacity = (k.recycleQueues s).capacity) : Grows k k' :=
  ⟨hl, hc, fun s ↦ .inl (by rw [hn])⟩

/-- Destroying counts down. -/
theorem destroy (k : State V) (i : InstId) : Grows k (k.instanceDestroy i) := by
  refine ⟨rfl, fun _ ↦ rfl, fun s ↦ .inl ?_⟩
  by_cases hs : s = k.stageOf i
  · subst hs
    simp only [State.instanceDestroy, State.freeInstance, State.addInstances,
      Function.update_self]
    omega
  · simp [State.instanceDestroy, hs]

/-- Creating counts up, or up and down. -/
theorem create (c : Creation) (hne : k.numberOfInstances s ≠ k.recycleQueueLimits s) :
    Grows k (k.instanceCreate s c).1 := by
  have hnew : Grows k (((k.statsActive s).addInstances s 1).newInstance s) := by
    refine ⟨rfl, fun _ ↦ rfl, fun s' ↦ ?_⟩
    by_cases hs : s' = s
    · subst hs
      exact .inr ⟨by simp [State.newInstance], hne⟩
    · exact .inl (by simp [State.newInstance, hs])
  cases c with
  | ok => exact hnew
  | loadFails => exact hnew
  | initFails =>
      -- counted up and down again
      have hst : (((k.statsActive s).addInstances s 1).newInstance s).stageOf k.nextInst = s :=
        State.stageOf_newInstance_self
      refine ⟨hnew.limits, hnew.capacity, fun s' ↦ .inl ?_⟩
      simp only [State.instanceCreate, State.instanceDestroy, hst]
      by_cases hs : s' = s
      · subst hs
        simp only [State.freeInstance, State.addInstances, Function.update_self,
          State.newInstance]
        simp only [State.statsActive, State.updateStats]
        omega
      · simp [State.newInstance, hs]

/-- `instance_aquire` counts up only away from the limit. -/
theorem aquire (k : State V) (s : StageId) (c : Creation) :
    Grows k (k.instanceAquire s c).1 := by
  have hc := k.instanceAquire_cases s c
  generalize k.instanceAquire s c = r at hc ⊢
  cases hc with
  | refused => exact .of_eq rfl rfl fun _ ↦ rfl
  | recycled _ hp =>
      obtain ⟨q, -, hc, rfl⟩ := State.tryPopRecycle_eq_some.1 hp
      refine .of_eq rfl rfl fun s' ↦ ?_
      by_cases hs : s' = s
      · subst hs; simpa using hc
      · simp [hs]
  | created _ _ hne => exact .create c hne

/-- `instance_release` counts nothing up. -/
theorem release (k : State V) (i : InstId) : Grows k (k.instanceRelease i).1 := by
  rcases k.instanceRelease_cases i with ⟨e, k', hp, he⟩ | ⟨-, -, he⟩ | ⟨-, k', hp, he⟩ <;>
    simp only [he]
  · obtain ⟨q, -, -, rfl⟩ := State.tryPopEvent_eq_some.1 hp
    refine .of_eq ?_ ?_ ?_ <;>
      simp [State.load, State.pushReadyQueue, State.statsActive, State.statsInactive,
        State.updateStats]
  · have hd := destroy
      ((k.modifyInst i fun d ↦ { d with stack := [] }).statsInactive (k.stageOf i)) i
    exact ⟨hd.limits, hd.capacity, hd.number⟩
  · obtain ⟨-, rfl⟩ := State.tryPushRecycle_eq_some.1 hp
    refine .of_eq rfl rfl fun s ↦ ?_
    by_cases hs : s = k.stageOf i
    · subst hs; simp
    · simp [hs]

/-- **Every operation but `instance_set_maxpar` counts up only away from the
limit.** -/
theorem step {op : InstOp V} (hop : op.changesLimit = false) (hs : instStep k op = some k') :
    Grows k k' := by
  cases op with
  | aquire s c =>
      simp only [instStep, Option.some.injEq] at hs
      exact hs ▸ aquire k s c
  | release i =>
      simp only [instStep, Option.ite_none_right_eq_some, Option.some.injEq] at hs
      exact hs.2 ▸ release k i
  | destroy i =>
      simp only [instStep, Option.ite_none_right_eq_some, Option.some.injEq] at hs
      exact hs.2 ▸ destroy k i
  | setMaxpar a b => simp [InstOp.changesLimit] at hop
  | pushEvent s e =>
      obtain ⟨-, rfl⟩ := State.tryPushEvent_eq_some.1 hs
      exact .of_eq rfl rfl fun _ ↦ rfl

theorem roomy (h : Grows k k') (hr : Roomy k) : Roomy k' := fun s ↦ by
  rw [h.capacity, h.limits, hr s]

/-- A counter that meets its limit stops there. -/
theorem within (h : Grows k k') (hw : Within k s) : Within k' s := by
  unfold Within at *
  rw [h.limits]
  intro hl
  have hle := hw hl
  rcases h.number s with hn | ⟨hn, hne⟩ <;> omega

end Grows

/-! ## A limit that is never changed -/

/-- The limit `instance_init` gives a stage. -/
def initialLimit (g : Graph) (L : Int) (s : StageId) : Int := if g.serial s then 1 else L

/-- What a run without `instance_set_maxpar` keeps. -/
structure Settled (g : Graph) (L : Int) (k : State V) : Prop where
  accounted : Accounted k
  roomy : Roomy k
  limits : k.recycleQueueLimits = initialLimit g L
  within : ∀ s, Within k s

theorem Settled.instanceInit (g : Graph) (ft : FullTest) (L pend : Int) :
    Settled g L (State.instanceInit g ft L pend : State V) where
  accounted := .instanceInit g ft L pend
  roomy _ := rfl
  limits := rfl
  within _ := id

theorem Settled.step {g : Graph} {L : Int} {k k' : State V} {op : InstOp V} (h : Settled g L k)
    (hop : op.changesLimit = false) (hs : instStep k op = some k') : Settled g L k' where
  accounted := h.accounted.step hs
  roomy := (Grows.step hop hs).roomy h.roomy
  limits := (Grows.step hop hs).limits.trans h.limits
  within s := (Grows.step hop hs).within (h.within s)

/-- A held instance always fits into its recycle queue. -/
theorem Settled.not_full {g : Graph} {L : Int} {k : State V} {i : InstId} (h : Settled g L k)
    (hi : k.held i = true) : (k.recycleQueues (k.stageOf i)).full k.fullTest = false := by
  obtain ⟨hl, hr⟩ := State.held_iff.1 hi
  have hlt := h.accounted.recycled_lt hl hr
  have hcap := h.roomy (k.stageOf i)
  by_cases hneg : k.recycleQueueLimits (k.stageOf i) < 0
  · exact Fifo.full_of_neg (hcap ▸ hneg)
  · have hle := h.within (k.stageOf i) (Int.not_lt.1 hneg)
    exact Fifo.full_of_lt (by omega)

/-- **Accounting is exact for a fixed limit.**  After every run of operations the
counter of a stage is the number of its instances, within the limit; the idle
instances are among them, each once; and giving back an instance never takes the
branch that destroys it for lack of room. -/
theorem accounting_exact (g : Graph) (ft : FullTest) (L pend : Int)
    {tr : List (State V × InstOp V)} {k : State V}
    (h : Run instStep (State.instanceInit g ft L pend) tr k)
    (hfix : ∀ p ∈ tr, p.2.changesLimit = false) (s : StageId) :
    k.numberOfInstances s = (k.liveOf s).card ∧
    (0 ≤ initialLimit g L s → k.numberOfInstances s ≤ initialLimit g L s) ∧
    (∀ i ∈ (k.recycleQueues s).items, i ∈ k.liveOf s) ∧
    (k.recycleQueues s).items.Nodup ∧
    ∀ i, k.held i = true → k.stageOf i = s →
      (k.instanceRelease i).2 = 0 ∧ (k.instanceRelease i).1.live = k.live := by
  have hk : Settled g L k := h.invariant (C := fun _ op ↦ op.changesLimit = false)
    (.instanceInit g ft L pend) (fun _ _ _ hI hC hs ↦ hI.step hC hs) hfix
  refine ⟨hk.accounted.count s, ?_, fun i hi ↦ State.mem_liveOf.2 (hk.accounted.recycled s i hi),
    hk.accounted.nodup s, fun i hi hst ↦ ?_⟩
  · have hw := hk.within s
    unfold Within at hw
    rwa [hk.limits] at hw
  · rcases k.instanceRelease_cases i with ⟨e, k', hp, he⟩ | ⟨-, hfull, -⟩ | ⟨-, k', hp, he⟩
    · obtain ⟨q, -, -, rfl⟩ := State.tryPopEvent_eq_some.1 hp
      exact ⟨by rw [he], by rw [he]; rfl⟩
    · rw [hk.not_full hi] at hfull
      cases hfull
    · obtain ⟨-, rfl⟩ := State.tryPushRecycle_eq_some.1 hp
      exact ⟨by rw [he], by rw [he]; rfl⟩

/-- Two instances are created, one is recycled and taken again, the other
destroyed, and a creation fails in its `init`. -/
def busyStage : List (InstOp Nat) :=
  [.aquire 0 .ok, .aquire 0 .ok, .aquire 0 .ok, .release 0, .aquire 0 .ok, .destroy 1,
    .aquire 0 .initFails, .release 0]

/-- `accounting_exact` at `busyStage` under the limit `2`. -/
theorem accounting_exact_busyStage :
    ∃ k : State Nat, exec instStep (.instanceInit (.single false) .exactly 2 (-1)) busyStage
        = some k ∧ (k.recycleQueues 0).items = [0] ∧ k.numberOfInstances 0 = (k.liveOf 0).card := by
  obtain ⟨k, hk⟩ : ∃ k, exec instStep (.instanceInit (.single false) .exactly 2 (-1)) busyStage
      = some k := ⟨_, rfl⟩
  refine ⟨k, hk, ?_, (accounting_exact _ _ _ _ (Run.of_exec hk) (by decide) 0).1⟩
  obtain rfl := Option.some.inj hk
  rfl

/-! ## A limit that is changed -/

/-- An acquisition of `s` that creates an instance although the limit is reached. -/
def CreatesBeyond (s : StageId) (k : State V) : InstOp V → Prop
  | .aquire s' c => s' = s ∧ 0 ≤ k.recycleQueueLimits s ∧
      k.recycleQueueLimits s ≤ (k.liveOf s).card ∧ (k.instanceAquire s c).1.nextInst ≠ k.nextInst
  | _ => False

/-- An acquisition of `s` that finds nothing to recycle does not find the counter
strictly above the limit. -/
def FindsWithin (s : StageId) (k : State V) : InstOp V → Prop
  | .aquire s' _ => s' = s → ¬ k.graph.Beyond s → (k.recycleQueues s).items = [] → Within k s
  | _ => True

/-- No request lowers the limit of `s` below the counter. -/
def KeepsAbove (s : StageId) (k : State V) : InstOp V → Prop
  | .setMaxpar a b => b = none ∨ toInt32 a = s →
      toInt32 (b.getD a) < 0 ∨ k.numberOfInstances s ≤ toInt32 (b.getD a)
  | _ => True

instance (s : StageId) (k : State V) : (op : InstOp V) → Decidable (KeepsAbove s k op)
  | .setMaxpar .. => inferInstanceAs (Decidable (_ → _))
  | .aquire .. | .release _ | .destroy _ | .pushEvent .. => inferInstanceAs (Decidable True)

/-- An acquisition creates an instance iff none is idle and the counter is not
equal to the limit. -/
theorem creates_iff {k : State V} {s : StageId} {c : Creation} :
    (k.instanceAquire s c).1.nextInst ≠ k.nextInst ↔
      ¬ k.graph.Beyond s ∧ (k.recycleQueues s).items = [] ∧
        k.numberOfInstances s ≠ k.recycleQueueLimits s := by
  constructor
  · intro hne
    have hc := k.instanceAquire_cases s c
    generalize k.instanceAquire s c = r at hc hne
    cases hc with
    | refused => exact absurd rfl hne
    | recycled _ hp =>
        obtain ⟨q, -, -, rfl⟩ := State.tryPopRecycle_eq_some.1 hp
        exact absurd rfl hne
    | created hs hr hn => exact ⟨hs, hr, hn⟩
  · rintro ⟨hs, hr, hn⟩
    have he : k.instanceAquire s c = k.instanceCreate s c := by
      unfold State.instanceAquire
      rw [if_neg hs, State.tryPopRecycle_eq_none.2 hr, if_neg hn]
    rw [he]
    cases c <;> exact Nat.succ_ne_self _

/-- One acquisition: it creates beyond the limit iff it finds the counter strictly
above it. -/
theorem not_createsBeyond_iff {k : State V} (h : Accounted k) (s : StageId) (op : InstOp V) :
    ¬ CreatesBeyond s k op ↔ FindsWithin s k op := by
  cases op with
  | aquire s' c =>
      simp only [CreatesBeyond, FindsWithin, creates_iff, ← h.count, Within]
      constructor
      · rintro hn rfl hs hr hl
        by_contra hlt
        exact hn ⟨rfl, hl, by omega, hs, hr, by omega⟩
      · rintro hw ⟨rfl, hl, hle, hs, hr, hne⟩
        have := hw rfl hs hr hl
        omega
  | release i => simp [CreatesBeyond, FindsWithin]
  | destroy i => simp [CreatesBeyond, FindsWithin]
  | setMaxpar a b => simp [CreatesBeyond, FindsWithin]
  | pushEvent s e => simp [CreatesBeyond, FindsWithin]

/-- A run that never lowers the limit below the counter keeps the counter within
the limit. -/
theorem within_step {k k' : State V} {s : StageId} {op : InstOp V} (h : Within k s)
    (hk : KeepsAbove s k op) (hs : instStep k op = some k') : Within k' s := by
  by_cases hop : op.changesLimit = false
  · exact (Grows.step hop hs).within h
  · cases op with
    | setMaxpar a b =>
        simp only [instStep, Option.some.injEq] at hs
        subst hs
        rcases k.instanceSetMaxpar_cases a b with he | ⟨p, -, hp, he⟩ <;> rw [he]
        · exact h
        · intro hl
          by_cases hps : p s = true
          · have hcap := hk (hp s hps).2
            simp only [State.storeLimits, hps, if_true] at hl ⊢
            omega
          · simp only [State.storeLimits, hps] at hl ⊢
            exact h hl
    | _ => exact absurd rfl hop

/-- **When `maxpar` is respected.**  A run never creates an instance of `s` at or
above the limit iff no acquisition that finds nothing to recycle finds the counter
strictly above the limit; a run in which `instance_set_maxpar` never lowers the
limit below the counter is one of them. -/
theorem maxpar_respected_iff (g : Graph) (ft : FullTest) (L pend : Int)
    {tr : List (State V × InstOp V)} {k : State V}
    (h : Run instStep (State.instanceInit g ft L pend) tr k) (s : StageId) :
    ((∀ p ∈ tr, ¬ CreatesBeyond s p.1 p.2) ↔ ∀ p ∈ tr, FindsWithin s p.1 p.2) ∧
    ((∀ p ∈ tr, KeepsAbove s p.1 p.2) → ∀ p ∈ tr, FindsWithin s p.1 p.2) := by
  constructor
  · refine forall₂_congr fun p hp ↦ ?_
    obtain ⟨tr₁, tr₂, k', -, hr, -⟩ := h.prefix_of_mem hp
    exact not_createsBeyond_iff
      (hr.invariant' (.instanceInit g ft L pend) fun _ _ _ hI hs ↦ hI.step hs) s p.2
  · intro hC p hp
    obtain ⟨tr₁, tr₂, k', rfl, hr, -⟩ := h.prefix_of_mem hp
    have hw : Within p.1 s := hr.invariant (I := fun k ↦ Within k s) (C := KeepsAbove s)
      (fun hl ↦ hl) (fun _ _ _ hI hk hs ↦ within_step hI hk hs)
      fun q hq ↦ hC q (List.mem_append_left _ hq)
    unfold FindsWithin
    split
    · exact fun _ _ _ ↦ hw
    · trivial

/-- The stage gets two instances while it has no limit, then the limit `1`, and is
acquired again. -/
def loweredLimit : List (InstOp Nat) :=
  [.aquire 0 .ok, .aquire 0 .ok, .setMaxpar 1 none, .aquire 0 .ok]

/-- **A third instance is created above the limit `1`**, because two is not equal
to one. -/
theorem maxpar_exceeded :
    ¬ ∀ (g : Graph) (ft : FullTest) (L pend : Int) (tr : List (State Nat × InstOp Nat))
      (k : State Nat), -1 ≤ L → Run instStep (State.instanceInit g ft L pend) tr k →
      ∀ s, g.serial s = false → ∀ p ∈ tr, ¬ CreatesBeyond s p.1 p.2 := by
  intro h
  obtain ⟨k, hk⟩ : ∃ k, exec instStep (.instanceInit (.single false) .exactly (-1) (-1))
      loweredLimit = some k := ⟨_, rfl⟩
  have hall := h (.single false) .exactly (-1) (-1) _ k (by decide) (Run.of_exec hk) 0 rfl
  refine hall (_, .aquire 0 .ok) (List.mem_of_getElem? (i := 3) rfl) ⟨rfl, ?_, ?_, ?_⟩
  all_goals decide

/-- The limit is lowered to the number of instances there are. -/
def matchedLimit : List (InstOp Nat) :=
  [.aquire 0 .ok, .aquire 0 .ok, .setMaxpar 2 none, .aquire 0 .ok, .release 1, .aquire 0 .ok]

/-- `maxpar_respected_iff` at `matchedLimit`. -/
theorem maxpar_respected_matchedLimit :
    ∃ k : State Nat, exec instStep (.instanceInit (.single false) .exactly (-1) (-1))
        matchedLimit = some k ∧ k.numberOfInstances 0 = 2 ∧
      ∀ p ∈ execTrace instStep (.instanceInit (.single false) .exactly (-1) (-1)) matchedLimit,
        ¬ CreatesBeyond 0 p.1 p.2 := by
  obtain ⟨k, hk⟩ : ∃ k, exec instStep (.instanceInit (.single false) .exactly (-1) (-1))
      matchedLimit = some k := ⟨_, rfl⟩
  obtain ⟨hiff, hlow⟩ := maxpar_respected_iff _ _ _ _ (Run.of_exec hk) 0
  refine ⟨k, hk, ?_, hiff.2 (hlow ?_)⟩
  · obtain rfl := Option.some.inj hk
    rfl
  · decide

end Leda.Kernel
