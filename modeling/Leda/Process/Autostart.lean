import Mathlib.Algebra.GroupWithZero.Nat
import Mathlib.Data.List.Count
import Leda.Process.Ordered

/-!
# Who emits the autostart events

`prepare_graph` empties the handler, the init chunk and the pending events of a stage that
it ships; its `autostart` value it leaves where it is.  Every process then runs `init`
over all stages of its copy of the graph, and emits one event for each `autostart` value,
wherever the stage runs.

So a run with `n` processes emits each autostart event `n` times.  Here the emissions of
`leda_run` are counted in the trace of a run, process by process (`emitted`).  The
invariant is that what a process has emitted and what it has still to emit make up what
it started with (`Counted`); when everybody is done the events can be counted
(`total_eq`), and **each was emitted once if and only if the process was alone**, or there
were none (`fires_once_iff`).
-/

universe u

namespace Leda.Process

open Leda.Lib List

variable {P Cl S K V : Type u} [DecidableEq P]

/-- What `leda_run` has to emit in a process. -/
def Config.initial (c : Config P Cl S K V) (p : P) : List (S × V) :=
  if p = c.launcher then c.launched else c.autostarts p

namespace Startup

/-- `leda_run` of the process `p` emits the event in this step. -/
def Emits (p : P) (e : S × V) (x : Startup P Cl S V × Move P S K V) : Prop :=
  match x.2 with
  | .emit q => q = p ∧ (x.1.todo p).head? = some e
  | _ => False

variable {c : Config P Cl S K V} {σ σ' : Startup P Cl S V} {p q : P} {m : Move P S K V}
  {s : S} {v : V} {r : Nat}

/-! ## What one step does to a process -/

/-- Sending an event starts nobody, and takes nothing from the lists. -/
structure Frame (σ σ' : Startup P Cl S V) : Prop where
  todo : σ'.todo = σ.todo
  toShip : σ'.toShip = σ.toShip
  awaiting : σ'.awaiting = σ.awaiting
  running : ∀ p, σ'.status p = .running ↔ σ.status p = .running

theorem arrive_frame (σ : Startup P Cl S V) (p q : P) (s : S) (v : V) :
    Frame σ (σ.arrive p q s v) := by
  unfold arrive
  split
  · exact ⟨rfl, rfl, rfl, fun _ ↦ Iff.rfl⟩
  · exact ⟨rfl, rfl, rfl, fun _ ↦ Iff.rfl⟩
  · exact ⟨rfl, rfl, rfl, fun _ ↦ Iff.rfl⟩
  · rename_i hw
    refine ⟨rfl, rfl, rfl, fun x ↦ ?_⟩
    by_cases hx : x = q
    · subst hx
      change (σ.setStatus x .failed).status x = _ ↔ _
      rw [status_setStatus_self, hw]
      simp
    · change (σ.setStatus q .failed).status x = _ ↔ _
      rw [status_setStatus_of_ne hx]
  · exact ⟨rfl, rfl, rfl, fun _ ↦ Iff.rfl⟩
  · exact ⟨rfl, rfl, rfl, fun _ ↦ Iff.rfl⟩

/-- What a step does to the list of a process. -/
inductive Listed (c : Config P Cl S K V) (σ : Startup P Cl S V) (m : Move P S K V)
    (σ' : Startup P Cl S V) (p : P) : Prop
  | /-- Nothing. -/
    same (hs : σ'.status p = .running ↔ σ.status p = .running) (ht : σ'.todo p = σ.todo p)
      (he : ∀ e, ¬ Emits p e (σ, m))
  | /-- The process starts. -/
    starts (hs : σ.status p ≠ .running) (hs' : σ'.status p = .running)
      (ht : σ'.todo p = c.initial p) (he : ∀ e, ¬ Emits p e (σ, m))
  | /-- It emits an event. -/
    emits (e : S × V) (hs : σ.status p = .running) (hs' : σ'.status p = .running)
      (ht : σ.todo p = e :: σ'.todo p) (he : ∀ e', Emits p e' (σ, m) ↔ e' = e)

/-- The graph is only shipped to the processes of the order. -/
def Ships (c : Config P Cl S K V) (σ : Startup P Cl S V) : Prop :=
  ∀ d, d ∈ σ.toShip ∨ σ.awaiting = some d → d ∈ c.order

theorem setStatus_listed {x : Status} (hx : x ≠ .running) (hq : σ.status q ≠ .running)
    (hm : ∀ p e, ¬ Emits p e (σ, m)) (p : P) : Listed c σ m (σ.setStatus q x) p := by
  refine .same ?_ rfl (hm p)
  by_cases hp : p = q
  · subst hp
    rw [status_setStatus_self]
    exact ⟨fun h ↦ absurd h hx, fun h ↦ absurd h hq⟩
  · rw [status_setStatus_of_ne hp]

theorem run_listed {l : List (S × V)} (hq : σ.status q ≠ .running) (hl : l = c.initial q)
    (hm : ∀ p e, ¬ Emits p e (σ, m)) (p : P) : Listed c σ m (σ.run q l) p := by
  by_cases hp : p = q
  · subst hp
    exact .starts hq status_run_self (todo_run_self.trans hl) (hm p)
  · exact .same (by rw [status_run_of_ne hp]) (todo_run_of_ne hp) (hm p)

variable [DecidableEq Cl]

theorem emmit_frame (c : Config P Cl S K V) (σ : Startup P Cl S V) (p : P) (s : S) (v : V)
    (r : Nat) : Frame σ (emmit c σ p s v r) := by
  unfold emmit
  dsimp only
  split
  · exact ⟨rfl, rfl, rfl, fun _ ↦ Iff.rfl⟩
  · split
    · obtain ⟨h₁, h₂, h₃, h₄⟩ := arrive_frame
        { σ with
          cur := Function.update σ.cur p (Function.update (σ.cur p) (c.cluster s)
            ((r + 1) % (c.processes (c.cluster s)).length)) } p _ s v
      exact ⟨h₁, h₂, h₃, h₄⟩
    · exact ⟨rfl, rfl, rfl, fun _ ↦ Iff.rfl⟩

variable [DecidableEq S] [DecidableEq K] [DecidableEq V]

/-- **A step keeps the list of a process, makes it, or takes the first event of it.** -/
theorem step_listed (hsh : Ships c σ) (hs : step c σ m = some σ') :
    Ships c σ' ∧ ∀ p, Listed c σ m σ' p := by
  cases step_cases hs with
  | @ship d rest ha ht hd =>
      have hmem : d ∈ c.order := hsh d (.inl (by rw [ht]; exact mem_cons_self))
      refine ⟨fun x hx ↦ ?_, fun p ↦ ?_⟩
      · rcases hx with hx | hx
        · exact hsh x (.inl (by rw [ht]; exact mem_cons_of_mem _ hx))
        · obtain rfl : d = x := Option.some.inj hx
          exact hmem
      · have hno : σ.status d ≠ .running := by simp [hd]
        have h := setStatus_listed (c := c) (m := (.ship : Move P S K V)) (x := .offered)
          (by simp) hno (fun _ _ ↦ id) p
        cases h with
        | same h₁ h₂ h₃ => exact .same h₁ h₂ h₃
        | starts h₁ h₂ h₃ h₄ => exact .starts h₁ h₂ h₃ h₄
        | emits e h₁ h₂ h₃ h₄ => exact .emits e h₁ h₂ h₃ h₄
  | accept hd => exact ⟨hsh, setStatus_listed (by simp) (by simp [hd]) fun _ _ ↦ id⟩
  | @answer d ha hd =>
      have hne : d ≠ c.launcher := fun he ↦ c.launcher_remote (he ▸ hsh d (.inr ha))
      exact ⟨hsh, run_listed (by simp [hd]) (if_neg hne).symm fun _ _ ↦ id⟩
  | acknowledge =>
      exact ⟨fun x hx ↦ hsh x (hx.imp_right fun h ↦ by cases h), fun p ↦
        .same Iff.rfl rfl fun _ ↦ id⟩
  | bind _ _ hl => exact ⟨hsh, setStatus_listed (by simp) (by simp [hl]) fun _ _ ↦ id⟩
  | init hl => exact ⟨hsh, run_listed (by simp [hl]) (if_pos rfl).symm fun _ _ ↦ id⟩
  | @emit q s v es hq ht =>
      have hf := emmit_frame c { σ with todo := Function.update σ.todo q es } q s v
        (σ.cur q (c.cluster s))
      refine ⟨fun x hx ↦ hsh x (by rwa [hf.toShip, hf.awaiting] at hx), fun p ↦ ?_⟩
      by_cases hp : p = q
      · subst hp
        have htodo : _ = Function.update σ.todo p es p := congrFun hf.todo p
        rw [Function.update_self] at htodo
        refine .emits (s, v) hq ((hf.running p).2 hq) (by rw [ht, htodo]) fun e' ↦ ?_
        change p = p ∧ (σ.todo p).head? = some e' ↔ e' = (s, v)
        rw [ht]
        simp [eq_comm]
      · refine .same (hf.running p) ?_ fun e he ↦ hp he.1.symm
        have htodo : _ = Function.update σ.todo q es p := congrFun hf.todo p
        rwa [Function.update_of_ne hp] at htodo
  | @handle q _ s' _ v' _ r =>
      have hf := emmit_frame c σ q s' v' r
      refine ⟨fun x hx ↦ hsh x (by rwa [hf.toShip, hf.awaiting] at hx), fun p ↦ ?_⟩
      exact .same (hf.running p) (congrFun hf.todo p) fun _ ↦ id

/-! ## What a run does -/

instance (p : P) (e : S × V) (x : Startup P Cl S V × Move P S K V) :
    Decidable (Emits p e x) := by
  unfold Emits
  split <;> infer_instance

/-- How often `leda_run` of the process `p` has emitted an event. -/
def emitted (tr : List (Startup P Cl S V × Move P S K V)) (p : P) (e : S × V) : Nat :=
  tr.countP fun x ↦ Emits p e x

/-- How often it was emitted in all processes. -/
def total (c : Config P Cl S K V) (tr : List (Startup P Cl S V × Move P S K V)) (e : S × V) :
    Nat :=
  ((c.launcher :: c.order).map fun p ↦ emitted tr p e).sum

/-- Every process runs, and has emitted all it had to. -/
def Done (c : Config P Cl S K V) (σ : Startup P Cl S V) : Prop :=
  ∀ p ∈ c.launcher :: c.order, σ.status p = .running ∧ σ.todo p = []

/-- **Autostart fires once**: the event of each stage that has an autostart value was
emitted once, apart from the pending events of the stage, which may be the same. -/
def FiresOnce (c : Config P Cl S K V) (tr : List (Startup P Cl S V × Move P S K V)) : Prop :=
  ∀ s ∈ c.stages c.launcher, ∀ v, c.autostart s = some v →
    total c tr (s, v) = (c.pending s).count v + 1

variable {tr : List (Startup P Cl S V × Move P S K V)} {e : S × V}

/-- What a process has emitted and what it has still to emit make up what it started
with. -/
structure Counted (c : Config P Cl S K V) (tr : List (Startup P Cl S V × Move P S K V))
    (σ : Startup P Cl S V) : Prop where
  ships : Ships c σ
  started : ∀ p, σ.status p = .running →
    ∀ e, emitted tr p e + (σ.todo p).count e = (c.initial p).count e
  waiting : ∀ p, σ.status p ≠ .running → ∀ e, emitted tr p e = 0

omit [DecidableEq Cl] [DecidableEq K] in
theorem emitted_snoc (x : Startup P Cl S V × Move P S K V) :
    emitted (tr ++ [x]) p e = emitted tr p e + if Emits p e x then 1 else 0 := by
  simp [emitted, countP_append, countP_singleton]

theorem counted_step (h : Counted c tr σ) (hs : step c σ m = some σ') :
    Counted c (tr ++ [(σ, m)]) σ' := by
  obtain ⟨hsh, hl⟩ := step_listed h.ships hs
  refine ⟨hsh, fun p hp e ↦ ?_, fun p hp e ↦ ?_⟩
  · rw [emitted_snoc]
    cases hl p with
    | same hst ht he => rw [if_neg (he e), ht, Nat.add_zero, h.started p (hst.1 hp)]
    | starts hst _ ht he => rw [if_neg (he e), ht, h.waiting p hst, Nat.add_zero, Nat.zero_add]
    | emits e' hst _ ht he =>
        have hcount := h.started p hst e
        rw [ht, count_cons] at hcount
        by_cases hee : e = e'
        · subst hee
          rw [if_pos ((he e).2 rfl)]
          simp only [beq_self_eq_true, if_true] at hcount
          omega
        · rw [if_neg fun hx ↦ hee ((he e).1 hx)]
          rw [if_neg (by simpa using Ne.symm hee)] at hcount
          omega
  · rw [emitted_snoc]
    cases hl p with
    | same hst _ he => rw [if_neg (he e), h.waiting p (fun hr ↦ hp (hst.2 hr))]
    | starts _ hst' => exact absurd hst' hp
    | emits _ _ hst' => exact absurd hst' hp

/-- **In every run.** -/
theorem counted_run (hr : Run (step c) (start c) tr σ) : Counted c tr σ := by
  induction hr with
  | nil =>
      refine ⟨fun d hd ↦ ?_, fun p hp ↦ ?_, fun _ _ _ ↦ rfl⟩
      · rcases hd with hd | hd
        · exact hd
        · cases hd
      · simp only [start] at hp
        split at hp <;> cases hp
  | snoc _ hs ih => exact counted_step ih hs

/-! ## How often an autostart event is emitted -/

omit [DecidableEq P] [DecidableEq Cl] [DecidableEq K] in
theorem count_autostarts (hn : (c.stages c.launcher).Nodup) (hs : s ∈ c.stages c.launcher)
    (hv : c.autostart s = some v) (p : P) : (c.autostarts p).count (s, v) = 1 := by
  have hmem : s ∈ c.stages p := (c.stages_perm c.launcher p).mem_iff.1 hs
  have hnp : (c.stages p).Nodup := (c.stages_perm c.launcher p).nodup_iff.1 hn
  have hnd : (c.autostarts p).Nodup := by
    refine hnp.filterMap fun a a' b hb hb' ↦ ?_
    obtain ⟨x, -, rfl⟩ := Option.map_eq_some_iff.1 hb
    obtain ⟨y, -, hy⟩ := Option.map_eq_some_iff.1 hb'
    exact (congrArg Prod.fst hy).symm
  refine count_eq_one_of_mem hnd (mem_filterMap.2 ⟨s, hmem, ?_⟩)
  rw [hv]
  rfl

theorem count_flatMap_of_fst {l : List S} {f : S → List V} (hn : l.Nodup) (hs : s ∈ l) :
    (l.flatMap fun s' ↦ (f s').map fun v' ↦ (s', v')).count (s, v) = (f s).count v := by
  have hself : ∀ {vs : List V}, (vs.map fun v' ↦ (s, v')).count (s, v) = vs.count v := fun {vs} ↦
    count_map_of_injective vs (fun v' ↦ (s, v')) (fun _ _ h ↦ (Prod.mk.inj h).2) v
  have hother : ∀ {s' : S} {vs : List V}, s' ≠ s → (vs.map fun v' ↦ (s', v')).count (s, v) = 0 :=
    fun {s' vs} hne ↦ count_eq_zero.2 fun hm ↦ by
      obtain ⟨_, -, he⟩ := mem_map.1 hm
      exact hne (Prod.mk.inj he).1
  induction l with
  | nil => cases hs
  | cons a l ih =>
      obtain ⟨ha, hl⟩ := nodup_cons.1 hn
      rw [flatMap_cons, count_append]
      by_cases hsa : a = s
      · subst hsa
        have hrest : (l.flatMap fun s' ↦ (f s').map fun v' ↦ (s', v')).count (a, v) = 0 := by
          refine count_eq_zero.2 fun hm ↦ ?_
          obtain ⟨s', hs', hm⟩ := mem_flatMap.1 hm
          obtain ⟨_, -, he⟩ := mem_map.1 hm
          exact ha ((Prod.mk.inj he).1 ▸ hs')
        rw [hself, hrest, Nat.add_zero]
      · rw [hother hsa, Nat.zero_add]
        exact ih hl ((mem_cons.1 hs).resolve_left (Ne.symm hsa))

/-- **Each process emits an autostart event once.** -/
theorem total_eq (hn : (c.stages c.launcher).Nodup) (hr : Run (step c) (start c) tr σ)
    (hd : Done c σ) (hs : s ∈ c.stages c.launcher) (hv : c.autostart s = some v) :
    total c tr (s, v) = (c.pending s).count v + 1 + c.order.length := by
  have hc := counted_run hr
  have hdone : ∀ p ∈ c.launcher :: c.order,
      emitted tr p (s, v) = (c.initial p).count (s, v) := fun p hp ↦ by
    obtain ⟨hrun, htodo⟩ := hd p hp
    have := hc.started p hrun (s, v)
    rwa [htodo, count_nil, Nat.add_zero] at this
  have hlaunch : (c.initial c.launcher).count (s, v) = (c.pending s).count v + 1 := by
    rw [Config.initial, if_pos rfl, Config.launched, count_flatMap_of_fst hn hs, count_append, hv]
    simp
  have horder : c.order.map (fun p ↦ emitted tr p (s, v)) = replicate c.order.length 1 := by
    refine eq_replicate_of_mem ?_ |>.trans (by rw [length_map])
    intro n hm
    obtain ⟨p, hp, rfl⟩ := mem_map.1 hm
    have hne : p ≠ c.launcher := fun he ↦ c.launcher_remote (he ▸ hp)
    rw [hdone p (mem_cons_of_mem _ hp), Config.initial, if_neg hne, count_autostarts hn hs hv]
  rw [total, map_cons, sum_cons, hdone _ mem_cons_self, hlaunch, horder]
  simp

/-- **When autostart fires once.** -/
theorem fires_once_iff (hn : (c.stages c.launcher).Nodup) (hr : Run (step c) (start c) tr σ)
    (hd : Done c σ) :
    FiresOnce c tr ↔ c.order = [] ∨ ∀ s ∈ c.stages c.launcher, c.autostart s = none := by
  constructor
  · intro hf
    by_cases ho : c.order = []
    · exact .inl ho
    · refine .inr fun s hs ↦ ?_
      cases hv : c.autostart s with
      | none => rfl
      | some v =>
          have h₁ := total_eq hn hr hd hs hv
          have h₂ := hf s hs v hv
          have h₃ := length_pos_of_ne_nil ho
          omega
  · intro hcase s hs v hv
    rcases hcase with ho | hnone
    · rw [total_eq hn hr hd hs hv, ho]
      rfl
    · rw [hnone s hs] at hv
      cases hv

/-- A launching process, whose only stage starts by itself. -/
def alone : Config Nat Unit Unit Unit Unit where
  launcher := 0
  order := []
  processes _ := [0]
  cluster _ := ()
  stages _ := [()]
  autostart _ := some ()
  pending _ := []
  consumer _ _ := none
  handler _ _ := []
  launcher_remote := by decide
  order_nodup := nodup_nil
  processes_mem _ _ hp := .inl (mem_singleton.1 hp)
  order_mem _ hp := absurd hp not_mem_nil
  processes_ne _ := by simp
  processes_inj _ _ _ _ _ := rfl
  processes_nodup _ := nodup_singleton 0
  stages_perm := twoRemotes.stages_perm

/-- Alone, the launching process fires once. -/
theorem fires_once_alone : ∃ tr σ,
    Run (step alone) (start alone) tr σ ∧ Done alone σ ∧
      FiresOnce alone tr := by
  obtain ⟨σ, hσ⟩ : ∃ σ, exec (step alone) (start alone)
      [.bind, .init, .emit 0] = some σ := ⟨_, rfl⟩
  have hd : Done alone σ := by
    obtain rfl := Option.some.inj hσ
    intro p hp
    obtain rfl := mem_singleton.1 hp
    exact ⟨rfl, rfl⟩
  have hr := Run.of_exec hσ
  exact ⟨_, σ, hr, hd, (fires_once_iff (by decide) hr hd).2 (.inl rfl)⟩

/-- With two remote processes there are three events. -/
theorem fires_thrice : ∃ tr σ,
    Run (step twoRemotes) (start twoRemotes) tr σ ∧ Done twoRemotes σ ∧
      total twoRemotes tr ((), ()) = 3 ∧ ¬ FiresOnce twoRemotes tr := by
  obtain ⟨σ, hσ⟩ : ∃ σ, exec (step twoRemotes) (start twoRemotes)
      [.ship, .accept 1, .answer 1, .acknowledge, .ship, .accept 2, .answer 2, .acknowledge,
        .bind, .init, .emit 0, .emit 1, .emit 2] = some σ := ⟨_, rfl⟩
  have hd : Done twoRemotes σ := by
    obtain rfl := Option.some.inj hσ
    intro p hp
    rcases mem_cons.1 hp with rfl | hp
    · exact ⟨rfl, rfl⟩
    · rcases mem_cons.1 hp with rfl | hp
      · exact ⟨rfl, rfl⟩
      · obtain rfl := mem_singleton.1 hp
        exact ⟨rfl, rfl⟩
  have hr := Run.of_exec hσ
  have ht := total_eq (by decide) hr hd (s := ()) (v := ()) (mem_singleton.2 rfl) rfl
  refine ⟨_, σ, hr, hd, ht, fun hf ↦ ?_⟩
  rw [hf () (mem_singleton.2 rfl) () rfl] at ht
  cases ht

end Startup

end Leda.Process
