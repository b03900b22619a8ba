import Leda.Kernel.OneOwner
import Leda.Kernel.Limits
import Mathlib.Algebra.BigOperators.Group.Finset.Basic
import Mathlib.Data.Fintype.Basic

/-!
# The limit under concurrency

`instance_aquire` compares the counter with the limit in one step and counts up in
another.  What keeps the counter within the limit is therefore not the counter alone
but the counter together with the threads that have passed the comparison and not
counted yet: `adding` is their number.  Their sum never grows except when a thread
passes the comparison, so the limit holds in every run in which each thread that
passes it finds the sum below the limit (`parallelism_bound`).  Two threads that read
the same counter before either has counted break this (`parallelism_exceeded`).
-/

universe u v

namespace Leda.Kernel

open Leda.Lib List

variable {U V : Type u} {T : Type v}

/-- A thread that has passed the comparison for `s` and not counted yet. -/
def Frame.isAdd (s : StageId) : Frame U V → Bool
  | .add s' _ => s' = s
  | _ => false

/-- The number of threads about to count up for `s`. -/
def adding [Fintype T] (σ : Machine T U V) (s : StageId) : Nat :=
  ∑ t, (σ.stack t).countP (Frame.isAdd s)

/-- A part of a step that neither counts nor passes the comparison. -/
structure Uncounted (k k' : State V) (new : List (Frame U V)) : Prop where
  number : k'.numberOfInstances = k.numberOfInstances
  limits : k'.recycleQueueLimits = k.recycleQueueLimits
  noAdd : ∀ s, new.countP (Frame.isAdd s) = 0

section Steps

variable {xf : Transfer U V} {k k' : State V} {i : InstId} {s : StageId} {p : Purpose U V}
  {new : List (Frame U V)}

theorem granted_uncounted (hg : granted xf k i p = some (k', new)) : Uncounted k k' new := by
  cases p <;> simp only [granted] at hg
  case packed =>
    simp only [Option.some.injEq, Prod.mk.injEq] at hg
    obtain ⟨rfl, rfl⟩ := hg
    exact ⟨rfl, rfl, fun _ ↦ rfl⟩
  all_goals
    split at hg <;> simp only [Option.some.injEq, Prod.mk.injEq, reduceCtorEq] at hg
    all_goals obtain ⟨rfl, rfl⟩ := hg; exact ⟨rfl, rfl, fun _ ↦ rfl⟩

theorem refused_uncounted (hr : refused xf k s p = some (k', new)) : Uncounted k k' new := by
  cases p <;> simp only [refused] at hr
  case emmit =>
    split at hr <;> simp only [Option.some.injEq, Prod.mk.injEq, reduceCtorEq] at hr
    all_goals obtain ⟨rfl, rfl⟩ := hr; exact ⟨rfl, rfl, fun _ ↦ rfl⟩
  all_goals
    simp only [Option.some.injEq, Prod.mk.injEq] at hr
    obtain ⟨rfl, rfl⟩ := hr
    exact ⟨rfl, rfl, fun _ ↦ rfl⟩

theorem settled_uncounted {φ : Fate V} (hs : settled k i φ = some (k', new)) :
    Uncounted k k' new := by
  cases φ <;> simp only [settled, Option.some.injEq, Prod.mk.injEq, reduceCtorEq] at hs
  all_goals obtain ⟨rfl, rfl⟩ := hs; exact ⟨rfl, rfl, fun _ ↦ rfl⟩

theorem returned_uncounted {y : Yield U} (hr : returned xf k i y = some (k', new)) :
    Uncounted k k' new := by
  cases y <;> simp only [returned] at hr
  case nice | remote | waitIo | fileIo | sleep =>
    have h := settled_uncounted hr
    exact ⟨h.number, h.limits, h.noAdd⟩
  all_goals
    simp only [Option.some.injEq, Prod.mk.injEq] at hr
    obtain ⟨rfl, rfl⟩ := hr
    exact ⟨rfl, rfl, fun _ ↦ rfl⟩

/-- Destroying counts nothing up. -/
theorem number_instanceDestroy_le (k : State V) (i : InstId) (s : StageId) :
    (k.instanceDestroy i).numberOfInstances s ≤ k.numberOfInstances s := by
  rcases (Grows.destroy k i).number s with h | ⟨h, -⟩
  · exact h
  · by_cases hs : s = k.stageOf i
    · subst hs
      simp only [State.instanceDestroy, State.freeInstance, State.addInstances,
        Function.update_self]
      omega
    · simp [State.instanceDestroy, hs]

/-- What an access does to the count of `s` and the frame's share in `adding`: the
limits stay, and the sum only grows when a frame passes the comparison. -/
theorem frameStep_count {f : Frame U V} (hf : frameStep xf k f = some (k', new)) (s : StageId) :
    k'.recycleQueueLimits = k.recycleQueueLimits ∧
    (k'.numberOfInstances s + (new.countP (Frame.isAdd s) : Int) ≤
        k.numberOfInstances s + ([f].countP (Frame.isAdd s) : Int) ∨
      ∃ n p, f = .readLimit s n p ∧ n ≠ k.recycleQueueLimits s ∧
        k'.numberOfInstances s = k.numberOfInstances s ∧
        new.countP (Frame.isAdd s) = 1) := by
  have quiet : ∀ {k₁ : State V}, Uncounted k₁ k' new →
      k₁.numberOfInstances s ≤ k.numberOfInstances s →
      k₁.recycleQueueLimits = k.recycleQueueLimits →
      k'.recycleQueueLimits = k.recycleQueueLimits ∧
      k'.numberOfInstances s + (new.countP (Frame.isAdd s) : Int) ≤
        k.numberOfInstances s + ([f].countP (Frame.isAdd s) : Int) := by
    intro k₁ h hn hl
    refine ⟨h.limits.trans hl, ?_⟩
    rw [h.number, h.noAdd]
    omega
  cases frameStep_cases hf with
  | beyond _ hr => exact (quiet (refused_uncounted hr) le_rfl rfl).imp_right .inl
  | atLimit _ hr => exact (quiet (refused_uncounted hr) le_rfl rfl).imp_right .inl
  | recycled _ hp hg =>
      obtain ⟨q, -, -, rfl⟩ := State.tryPopRecycle_eq_some.1 hp
      exact (quiet (granted_uncounted hg) le_rfl rfl).imp_right .inl
  | @belowLimit s' n p hne =>
      by_cases hs : s' = s
      · subst hs
        exact ⟨rfl, .inr ⟨n, p, rfl, hne, rfl, by simp [Frame.isAdd]⟩⟩
      · exact ⟨rfl, .inl (by simp [Frame.isAdd, hs])⟩
  | @add s' =>
      refine ⟨rfl, .inl ?_⟩
      by_cases hs : s = s'
      · subst hs
        simp [Frame.isAdd, State.newInstance]
      · simp [Frame.isAdd, State.newInstance, hs, Ne.symm hs]
  | abandon hr =>
      exact (quiet (refused_uncounted hr) (number_instanceDestroy_le ..) rfl).imp_right .inl
  | @destroy i =>
      have h := number_instanceDestroy_le k i s
      exact ⟨rfl, .inl (by simpa [Frame.isAdd] using h)⟩
  | pushEvent hp =>
      obtain ⟨-, rfl⟩ := State.tryPushEvent_eq_some.1 hp
      exact ⟨rfl, .inl le_rfl⟩
  | popEvent hp =>
      obtain ⟨q, -, -, rfl⟩ := State.tryPopEvent_eq_some.1 hp
      exact ⟨rfl, .inl le_rfl⟩
  | recycle hp =>
      obtain ⟨-, rfl⟩ := State.tryPushRecycle_eq_some.1 hp
      exact ⟨rfl, .inl le_rfl⟩
  | @pushCaller caller callee con =>
      obtain ⟨f, hf⟩ := ((k.pushReadyQueue caller).statsUpdateEvents
        (k.stageOf caller) con).resumeInstance_eq callee
      rw [hf]
      exact ⟨rfl, .inl le_rfl⟩
  | noRecycled | readCount | eventsFull | pushReady | noEvent | recycleFull =>
      exact ⟨rfl, .inl le_rfl⟩

/-- What a step of a thread does to the count of `s` and the thread's share in
`adding`. -/
theorem threadStep_count {fs fs' : List (Frame U V)} {a : Act U V}
    (hs : threadStep xf k fs a = some (k', fs')) (s : StageId) :
    k'.recycleQueueLimits = k.recycleQueueLimits ∧
    (k'.numberOfInstances s + (fs'.countP (Frame.isAdd s) : Int) ≤
        k.numberOfInstances s + (fs.countP (Frame.isAdd s) : Int) ∨
      ∃ n p rest, a = .run ∧ fs = .readLimit s n p :: rest ∧ n ≠ k.recycleQueueLimits s ∧
        k'.numberOfInstances s = k.numberOfInstances s ∧
        fs'.countP (Frame.isAdd s) = fs.countP (Frame.isAdd s) + 1) := by
  have quiet : ∀ {f : Frame U V} {fs new : List (Frame U V)}, Uncounted k k' new →
      k'.recycleQueueLimits = k.recycleQueueLimits ∧
      k'.numberOfInstances s + ((new ++ fs).countP (Frame.isAdd s) : Int) ≤
        k.numberOfInstances s + ((f :: fs).countP (Frame.isAdd s) : Int) := by
    intro f fs new h
    refine ⟨h.limits, ?_⟩
    rw [h.number, countP_append, h.noAdd, countP_cons]
    omega
  cases threadStep_cases hs with
  | wait hp =>
      obtain ⟨q, -, -, rfl⟩ := State.popReady_eq_some.1 hp
      obtain ⟨f, hf⟩ := State.resumeInstance_eq { k with readyQueue := q } ‹_›
      rw [hf]
      exact ⟨rfl, .inl le_rfl⟩
  | waitNull hp =>
      obtain ⟨q, -, -, rfl⟩ := State.popReady_eq_some.1 hp
      exact ⟨rfl, .inl le_rfl⟩
  | ret hr => exact (quiet (returned_uncounted hr)).imp_right .inl
  | chunkOk hg => exact (quiet (granted_uncounted hg)).imp_right .inl
  | loadFails hr => exact (quiet (refused_uncounted hr)).imp_right .inl
  | initFails => exact ⟨rfl, .inl (by simp [Frame.isAdd])⟩
  | emmit hm => exact ⟨rfl, .inl (by simp [Frame.isAdd])⟩
  | remote hm | kill hm | callback hm => exact ⟨rfl, .inl le_rfl⟩
  | packed => exact ⟨rfl, .inl le_rfl⟩
  | @run f fs new _ hf =>
      obtain ⟨hl, hle | ⟨n, p, rfl, hne, hn, hc⟩⟩ := frameStep_count hf s
      · refine ⟨hl, .inl ?_⟩
        rw [countP_append, countP_cons]
        rw [countP_singleton] at hle
        omega
      · refine ⟨hl, .inr ⟨n, p, fs, rfl, rfl, hne, hn, ?_⟩⟩
        rw [countP_append, countP_cons, hc]
        simp [Frame.isAdd, Nat.add_comm]

end Steps

/-! ## Whole runs -/

section Runs

variable [DecidableEq T] [Fintype T] {xf : Transfer U V} {σ σ' : Machine T U V}

/-- The comparison a step makes: the stage, and the counter that was read for it. -/
def Machine.compares (σ : Machine T U V) (l : T × Act U V) : Option (StageId × Int) :=
  match l.2, σ.stack l.1 with
  | .run, .readLimit s n _ :: _ => some (s, n)
  | _, _ => none

/-- A thread that passes the comparison for `s` finds fewer instances than the limit,
those that other threads are about to count included. -/
def PassesBelow (s : StageId) (σ : Machine T U V) (l : T × Act U V) : Prop :=
  ∀ n, σ.compares l = some (s, n) → n = σ.kernel.recycleQueueLimits s ∨
    σ.kernel.numberOfInstances s + adding σ s < σ.kernel.recycleQueueLimits s

instance (s : StageId) (σ : Machine T U V) (l : T × Act U V) : Decidable (PassesBelow s σ l) :=
  decidable_of_iff (∀ c ∈ (σ.compares l).toList, c.1 = s → c.2 = σ.kernel.recycleQueueLimits s ∨
    σ.kernel.numberOfInstances s + adding σ s < σ.kernel.recycleQueueLimits s) <| by
    unfold PassesBelow
    cases σ.compares l with
    | none => simp
    | some c =>
        obtain ⟨s', n⟩ := c
        simp only [Option.toList_some, mem_singleton, forall_eq, Option.some.injEq,
          Prod.mk.injEq]
        exact ⟨fun h m ⟨hs, hm⟩ ↦ hm ▸ h hs, fun h hs ↦ h n ⟨hs, rfl⟩⟩

/-- Only the share of the thread that moves changes. -/
theorem adding_update (k : State V) (st : T → List (Frame U V)) (t : T) (fs : List (Frame U V))
    (s : StageId) :
    adding (⟨k, Function.update st t fs⟩ : Machine T U V) s + (st t).countP (Frame.isAdd s) =
      adding (⟨k, st⟩ : Machine T U V) s + fs.countP (Frame.isAdd s) := by
  have hsplit : ∀ st : T → List (Frame U V), adding (⟨k, st⟩ : Machine T U V) s =
      (st t).countP (Frame.isAdd s) +
        ∑ r ∈ Finset.univ.erase t, (st r).countP (Frame.isAdd s) := fun st ↦
    (Finset.add_sum_erase _ (fun r ↦ (st r).countP (Frame.isAdd s)) (Finset.mem_univ t)).symm
  have hrest : ∑ r ∈ Finset.univ.erase t, (Function.update st t fs r).countP (Frame.isAdd s) =
      ∑ r ∈ Finset.univ.erase t, (st r).countP (Frame.isAdd s) :=
    Finset.sum_congr rfl fun r hr ↦ by
      rw [Function.update_of_ne (Finset.ne_of_mem_erase hr)]
  rw [hsplit, hsplit st, Function.update_self, hrest]
  omega

/-- What is counted and what is about to be counted stay within the limit. -/
structure Fits (g : Graph) (L : Int) (s : StageId) (σ : Machine T U V) : Prop where
  owned : Owned σ.kernel σ.hands
  limits : σ.kernel.recycleQueueLimits = initialLimit g L
  fits : σ.kernel.numberOfInstances s + adding σ s ≤ initialLimit g L s

theorem Fits.step {g : Graph} {L : Int} {s : StageId} {l : T × Act U V} (h : Fits g L s σ)
    (hC : PassesBelow s σ l) (hs : Machine.step xf σ l = some σ') : Fits g L s σ' := by
  have ho := Machine.owned_step h.owned hs
  obtain ⟨k, fs, hstep, rfl⟩ := Machine.step_eq_some.1 hs
  obtain ⟨hl, hcount⟩ := threadStep_count hstep s
  refine ⟨ho, hl.trans h.limits, ?_⟩
  have hadd := adding_update k σ.stack l.1 fs s
  have hsame : adding (⟨k, σ.stack⟩ : Machine T U V) s = adding σ s := rfl
  have hfits := h.fits
  simp only at ho ⊢
  rcases hcount with hle | ⟨n, p, rest, hrun, hst, hne, hn, hc⟩
  · omega
  · -- the thread passes the comparison: the condition leaves room for it
    rcases hC n (by simp only [Machine.compares, hrun, hst]) with heq | hlt
    · exact absurd heq hne
    · rw [h.limits] at hlt
      omega

/-- **The parallelism bound holds as long as the comparisons see each other.**  In every
run in which a thread passes the comparison for `s` only when the instances of `s` and
the threads about to create one are together fewer than the limit, no reachable state
has more instances than the limit, and with limit `1` no two instances of `s` ever run
at once. -/
theorem parallelism_bound (xf : Transfer U V) (g : Graph) (ft : FullTest) (L pend : Int)
    (s : StageId) (hL : 0 ≤ initialLimit g L s)
    {tr : List (Machine T U V × (T × Act U V))} {σ : Machine T U V}
    (h : Run (Machine.step xf) (Machine.init g ft L pend) tr σ)
    (hC : ∀ p ∈ tr, PassesBelow s p.1 p.2) :
    ∀ x ∈ visited tr σ, ((x.kernel.liveOf s).card : Int) ≤ initialLimit g L s ∧
      (initialLimit g L s = 1 → ∀ t t' i i', Frame.handler i ∈ x.stack t →
        Frame.handler i' ∈ x.stack t' → x.kernel.stageOf i = s → x.kernel.stageOf i' = s →
        i = i' ∧ t = t') := by
  have h₀ : Fits g L s (Machine.init g ft L pend : Machine T U V) :=
    ⟨.instanceInit g ft L pend, rfl, by simpa [Machine.init, adding, State.instanceInit] using hL⟩
  intro x hx
  have hx := h.invariant_visited h₀ (fun _ _ _ hI hc hs ↦ hI.step hc hs) hC x hx
  have hcard : ((x.kernel.liveOf s).card : Int) ≤ initialLimit g L s := by
    rw [← hx.owned.accounted.count s]
    have := hx.fits
    omega
  refine ⟨hcard, fun hone t t' i i' hi hi' hst hst' ↦ ?_⟩
  have hand : ∀ {t i}, Frame.handler i ∈ x.stack t → i ∈ x.hands t := fun hi ↦
    mem_flatMap.2 ⟨_, hi, mem_cons_self⟩
  have hlive : ∀ {t i}, Frame.handler i ∈ x.stack t → x.kernel.stageOf i = s →
      i ∈ x.kernel.liveOf s := fun {t i} hi hst ↦
    State.mem_liveOf.2 ⟨hx.owned.live (.hands t) i (hand hi), hst⟩
  have hle : (x.kernel.liveOf s).card ≤ 1 := by omega
  obtain rfl := Finset.card_le_one.1 hle i (hlive hi hst) i' (hlive hi' hst')
  exact ⟨rfl, Place.hands.inj (hx.owned.exclusive.place_unique (p := .hands t) (q := .hands t')
    (hand hi) (hand hi'))⟩

end Runs

/-- Two threads send to a serial stage: both read the counter before either counts,
both create, and both instances end up running. -/
def bothRead : List (TwoThreads × Act Nat Nat) :=
  [(.one, .emmit 0 0 [1]), (.two, .emmit 0 0 [2]), (.one, .run), (.two, .run), (.one, .run),
    (.two, .run), (.one, .run), (.two, .run), (.one, .run), (.two, .run),
    (.one, .chunkEnds .ok), (.two, .chunkEnds .ok), (.one, .run), (.two, .run), (.one, .wait),
    (.two, .wait)]

/-- **A serial stage runs in two instances at once** after `bothRead`. -/
theorem parallelism_exceeded :
    ¬ ∀ (xf : Transfer Nat Nat) (g : Graph) (ft : FullTest) (L pend : Int) (s : StageId)
      (tr : List (Machine TwoThreads Nat Nat × (TwoThreads × Act Nat Nat)))
      (σ : Machine TwoThreads Nat Nat), 0 ≤ initialLimit g L s →
      Run (Machine.step xf) (Machine.init g ft L pend) tr σ →
      ∀ x ∈ visited tr σ, ((x.kernel.liveOf s).card : Int) ≤ initialLimit g L s ∧
        (initialLimit g L s = 1 → ∀ t t' i i', Frame.handler i ∈ x.stack t →
          Frame.handler i' ∈ x.stack t' → x.kernel.stageOf i = s → x.kernel.stageOf i' = s →
          i = i' ∧ t = t') := by
  intro h
  obtain ⟨σ, hσ⟩ : ∃ σ, exec (Machine.step (.plain Nat))
      (.init (.single true) .exactly (-1) (-1)) bothRead = some σ := ⟨_, rfl⟩
  have hx := h _ _ _ _ _ 0 _ σ (by decide) (Run.of_exec hσ) σ (by simp [visited])
  obtain rfl := Option.some.inj hσ
  -- thread `one` runs instance `0` and thread `two` runs instance `1`
  exact absurd (hx.2 rfl .one .two 0 1 (.head _) (.head _) rfl rfl).1 (by decide)

/-- The second thread reads the counter after the first has counted. -/
def oneAfterTheOther : List (TwoThreads × Act Nat Nat) :=
  [(.one, .emmit 0 0 [1]), (.two, .emmit 0 0 [2]), (.one, .run), (.one, .run), (.one, .run),
    (.two, .run), (.one, .run), (.two, .run), (.two, .run), (.one, .chunkEnds .ok), (.one, .run),
    (.two, .run), (.two, .wait)]

/-- `parallelism_bound` at `oneAfterTheOther`: the second thread is refused an instance
and leaves its event in the queue. -/
theorem parallelism_bound_oneAfterTheOther :
    ∃ σ : Machine TwoThreads Nat Nat, exec (Machine.step (.plain Nat))
        (.init (.single true) .exactly (-1) (-1)) oneAfterTheOther = some σ ∧
      (σ.kernel.eventQueues 0).items = [[2]] ∧ ((σ.kernel.liveOf 0).card : Int) ≤ 1 := by
  obtain ⟨σ, hσ⟩ : ∃ σ, exec (Machine.step (.plain Nat))
      (.init (.single true) .exactly (-1) (-1)) oneAfterTheOther = some σ := ⟨_, rfl⟩
  have hC : ∀ p ∈ execTrace (Machine.step (.plain Nat))
      (.init (.single true) .exactly (-1) (-1)) oneAfterTheOther, PassesBelow 0 p.1 p.2 := by
    decide
  refine ⟨σ, hσ, ?_, (parallelism_bound _ _ _ _ _ 0 (by decide) (Run.of_exec hσ) hC σ
    (by simp [visited])).1⟩
  obtain rfl := Option.some.inj hσ
  rfl

end Leda.Kernel
