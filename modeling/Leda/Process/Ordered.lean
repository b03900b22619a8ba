import Mathlib.Data.List.Induction
import Leda.Process.Startup

/-!
# When nothing comes too early

While the launching process ships the graph, the processes that run are a beginning of
the shipping order.  The first of them is alone for a while, and it emits the `autostart`
events of all stages; so these, and all that they lead to, must stay in its cluster.
Every other process emits the same events, once each, and turns to the processes of that
cluster one after the other; so those must have their graph by then.  After the last
answer all processes are listening, and the pending events, which only the launching
process has, can do no harm.

`safe_iff` says that this condition, `Config.Ordered`, is exact.  That it is enough is an
invariant of two parts: where the graph has got to (`Shipping`), and, as long as it has
not got everywhere, what is on its way (`Calm`).  That it is necessary takes two
runs: the first process alone, and a process that has just started behind those that were
shipped to before it.
-/

universe u

namespace Leda.Process

open Leda.Lib List

variable {P Cl S K V : Type u} {c : Config P Cl S K V} {σ σ' : Startup P Cl S V}

namespace Config

/-- Every process emits the same `autostart` events, in an order of its own. -/
theorem autostarts_perm (p q : P) : (c.autostarts p).Perm (c.autostarts q) :=
  (c.stages_perm p q).filterMap _

theorem Arises.of_mem {p : P} {s : S} {v : V} (h : (s, v) ∈ c.autostarts p) : c.Arises s v :=
  .autostart ((autostarts_perm p c.launcher).mem_iff.1 h)

end Config

namespace Startup

/-! ## The condition is enough -/

/-- **Where the graph has got to.** -/
structure Shipping (c : Config P Cl S K V) (σ : Startup P Cl S V) (done : List P) : Prop where
  order : c.order = done ++ (σ.awaiting.toList ++ σ.toShip)
  running : ∀ d ∈ done, σ.status d = .running
  awaited : ∀ d, σ.awaiting = some d →
    σ.status d = .offered ∨ σ.status d = .bound ∨ σ.status d = .running
  waiting : ∀ d ∈ σ.toShip, σ.status d = .waiting
  launcher : σ.status c.launcher = .closed ∨
    σ.awaiting = none ∧ σ.toShip = [] ∧ (σ.status c.launcher).Listening
  other : ∀ p, p ≠ c.launcher → p ∉ c.order → σ.status p = .waiting

/-- **What is on its way** as long as the graph has not got everywhere. -/
structure Calm (c : Config P Cl S K V) (σ : Startup P Cl S V) : Prop where
  /-- An event has arisen from the `autostart` values, and is where its stage runs. -/
  arises : ∀ e ∈ σ.delivered, c.Arises e.2.1 e.2.2 ∧ e.1 ∈ c.processes (c.cluster e.2.1)
  /-- The turn of a process outside the cluster counts the events it has emitted. -/
  turns : ∀ p, σ.status p = .running → ∃ sent, c.autostarts p = sent ++ σ.todo p ∧
    ∀ k, (∀ s v, c.Arises s v → c.cluster s = k) → p ∉ c.processes k →
      σ.cur p k = sent.length % (c.processes k).length
  fresh : ∀ p, σ.status p ≠ .running → ∀ k, σ.cur p k = 0

/-- **The invariant.** -/
structure Sound (c : Config P Cl S K V) (σ : Startup P Cl S V) : Prop where
  safe : σ.Safe
  shipping : ∃ done, σ.Shipping c done
  calm : σ.status c.launcher = .closed → σ.Calm c

namespace Shipping

variable {done : List P}

/-- When everybody has answered, all processes of all clusters are listening. -/
theorem all_listening (h : σ.Shipping c done) (hl : σ.status c.launcher ≠ .closed) {k : Cl} {q : P}
    (hq : q ∈ c.processes k) : (σ.status q).Listening := by
  obtain ⟨ha, hs, hlist⟩ := h.launcher.resolve_left hl
  rcases c.processes_mem k q hq with rfl | hmem
  · exact hlist
  · rw [h.order, ha, hs] at hmem
    exact .inr (h.running q (by simpa using hmem))

/-- What runs while the launching process is still shipping has its place in the
order. -/
theorem mem_of_running (h : σ.Shipping c done) (hl : σ.status c.launcher = .closed) {p : P}
    (hp : σ.status p = .running) : ∃ pre post, c.order = pre ++ p :: post ∧ pre ⊆ done := by
  have hne : p ≠ c.launcher := by
    rintro rfl
    cases hl.symm.trans hp
  have hmem : p ∈ c.order := by
    by_contra hmem
    cases hp.symm.trans (h.other p hne hmem)
  rw [h.order, ← append_assoc] at hmem ⊢
  rcases mem_append.1 hmem with hmem | hmem
  · rcases mem_append.1 hmem with hmem | hmem
    · obtain ⟨pre, post, rfl⟩ := append_of_mem hmem
      exact ⟨pre, post ++ (σ.awaiting.toList ++ σ.toShip), by simp, fun x hx ↦ mem_append_left _ hx⟩
    · obtain ⟨rest, hrest⟩ : ∃ rest, σ.awaiting.toList = p :: rest := by
        cases ha : σ.awaiting with
        | none => simp [ha] at hmem
        | some d =>
            rw [ha] at hmem
            exact ⟨[], by rw [mem_singleton.1 hmem]; rfl⟩
      exact ⟨done, _, by rw [hrest, append_assoc]; rfl, fun _ hx ↦ hx⟩
  · cases hp.symm.trans (h.waiting p hmem)

/-- What changes only turns and deliveries keeps the shipping. -/
theorem congr (h : σ.Shipping c done) {cur : P → Cl → Nat} {delivered : List (P × S × V)}
    {todo : P → List (S × V)} : Shipping c { σ with cur, delivered, todo } done := { h with }

variable {d : P}

/-- The process that `send_graph` waits for has its own place in the order. -/
theorem awaited_ne (h : σ.Shipping c done) (ha : σ.awaiting = some d) :
    d ≠ c.launcher ∧ d ∉ done ∧ d ∉ σ.toShip ∧ d ∈ c.order := by
  have hnd := c.order_nodup
  have hord := h.order
  rw [ha] at hord
  change c.order = done ++ d :: σ.toShip at hord
  have hmem : d ∈ c.order := by rw [hord]; simp
  rw [hord, nodup_append, nodup_cons] at hnd
  exact ⟨fun e ↦ c.launcher_remote (e ▸ hmem), fun hd ↦ hnd.2.2 d hd d mem_cons_self rfl,
    hnd.2.1.1, hmem⟩

/-- Only that process has been offered the graph and has not taken it. -/
theorem awaiting_of_offered (h : σ.Shipping c done) (hd : σ.status d = .offered) :
    σ.awaiting = some d := by
  have hne : d ≠ c.launcher := by
    rintro rfl
    rcases h.launcher with hl | ⟨-, -, hl | hl⟩ <;> cases hd.symm.trans hl
  have hmem : d ∈ c.order := by
    by_contra hmem
    cases hd.symm.trans (h.other d hne hmem)
  rw [h.order] at hmem
  rcases mem_append.1 hmem with hmem | hmem
  · cases hd.symm.trans (h.running d hmem)
  · rcases mem_append.1 hmem with hmem | hmem
    · exact Option.mem_toList.1 hmem
    · cases hd.symm.trans (h.waiting d hmem)

end Shipping

/-- Where an event goes that leaves the process. -/
def Turn (c : Config P Cl S K V) (σ : Startup P Cl S V) (p : P) (s : S) (q : P) : Prop :=
  p ∉ c.processes (c.cluster s) ∧ (c.processes (c.cluster s))[σ.cur p (c.cluster s)]? = some q

/-- **As long as the launching process ships**, all that arises has one cluster, and a
process turns only to processes that are listening. -/
theorem Sound.turns_listening (h : σ.Sound c) (hc : c.Ordered)
    (hl : σ.status c.launcher = .closed) {p : P} (hp : σ.status p = .running) :
    ∃ k, (∀ s v, c.Arises s v → c.cluster s = k) ∧
      ∀ s v es q, σ.todo p = (s, v) :: es → Turn c σ p s q → (σ.status q).Listening := by
  obtain ⟨done, hship⟩ := h.shipping
  obtain ⟨pre, post, hpre, hsub⟩ := hship.mem_of_running hl hp
  obtain ⟨d₁, rest, hd₁⟩ : ∃ d₁ rest, c.order = d₁ :: rest := by
    cases hpre' : c.order with
    | nil => simp [hpre'] at hpre
    | cons d₁ rest => exact ⟨d₁, rest, rfl⟩
  obtain ⟨k, hk⟩ := c.order_mem d₁ (by rw [hd₁]; exact mem_cons_self)
  obtain ⟨hall, hturn⟩ := hc d₁ rest hd₁ k hk
  refine ⟨k, hall, fun s v es q htodo hq ↦ .inr (hship.running q (hsub ?_))⟩
  obtain ⟨sent, hsent, hcur⟩ := (h.calm hl).turns p hp
  rw [htodo] at hsent
  obtain rfl : c.cluster s = k := hall s v (.of_mem (p := p) (by rw [hsent]; simp))
  refine hturn pre p post hpre hq.1 q ?_
  have hi := hq.2
  rw [hcur _ hall hq.1] at hi
  have hlt : sent.length % (c.processes (c.cluster s)).length <
      (c.autostarts c.launcher).length := by
    have hlen := (Config.autostarts_perm (c := c) p c.launcher).length_eq
    rw [hsent, length_append, length_cons] at hlen
    have := Nat.mod_le sent.length (c.processes (c.cluster s)).length
    omega
  rw [← getElem?_take_of_lt hlt] at hi
  exact mem_of_getElem? hi

variable [DecidableEq P]

/-- An event for a process that is listening is delivered. -/
theorem arrive_of_listening {p q : P} {s : S} {v : V} (h : (σ.status q).Listening) :
    σ.arrive p q s v = σ.deliver q s v := by
  simp only [arrive]
  rcases h with h | h <;> rw [h]

/-- At the start, nobody is listening. -/
theorem not_listening_start {p : P} : ¬ ((start c).status p).Listening := by
  simp only [start]
  split <;> decide

theorem sound_start : (start c).Sound c where
  safe := by
    refine ⟨rfl, fun p ↦ ?_⟩
    simp only [start]
    split <;> exact Status.noConfusion
  shipping := by
    have hst : ∀ p, p ≠ c.launcher → (start c).status p = .waiting := fun p hp ↦ if_neg hp
    refine ⟨[], rfl, fun _ h ↦ absurd h not_mem_nil, fun _ h ↦ (nomatch h), ?_,
      .inl (if_pos rfl), fun p hp _ ↦ hst p hp⟩
    exact fun d hd ↦ hst d fun e ↦ c.launcher_remote (e ▸ hd)
  calm _ := by
    refine ⟨fun _ h ↦ absurd h not_mem_nil, fun p hp ↦ ?_, fun _ _ _ ↦ rfl⟩
    simp only [start] at hp
    split at hp <;> cases hp

namespace Shipping

variable {done : List P} {d : P}

/-- That process goes on. -/
theorem advance (h : σ.Shipping c done) (ha : σ.awaiting = some d) {x : Status}
    (hst : x = .offered ∨ x = .bound ∨ x = .running) : (σ.setStatus d x).Shipping c done := by
  obtain ⟨hl, hdone, hship, hord⟩ := h.awaited_ne ha
  have hne : ∀ p, p ≠ d → (σ.setStatus d x).status p = σ.status p :=
    fun p hp ↦ status_setStatus_of_ne hp
  refine ⟨h.order, fun p hp ↦ ?_, fun p hp ↦ ?_, fun p hp ↦ ?_, ?_, fun p hp hp' ↦ ?_⟩
  · rw [hne p fun e ↦ hdone (e ▸ hp)]
    exact h.running p hp
  · obtain rfl : d = p := Option.some.inj (ha.symm.trans hp)
    rwa [status_setStatus_self]
  · rw [hne p fun e ↦ hship (e ▸ hp)]
    exact h.waiting p hp
  · rw [hne c.launcher fun e ↦ hl e.symm]
    exact h.launcher
  · rw [hne p fun e ↦ hp' (e ▸ hord)]
    exact h.other p hp hp'

/-- `send_graph` turns to the next process. -/
theorem ship (h : σ.Shipping c done) {rest : List P} (ha : σ.awaiting = none)
    (hs : σ.toShip = d :: rest) : d ≠ c.launcher ∧
      Shipping c { σ.setStatus d .offered with toShip := rest, awaiting := some d } done := by
  have hnd := c.order_nodup
  have hord := h.order
  rw [ha, hs] at hord
  change c.order = done ++ d :: rest at hord
  have hmem : d ∈ c.order := by rw [hord]; simp
  rw [hord, nodup_append, nodup_cons] at hnd
  have hne : ∀ p, p ≠ d → (σ.setStatus d .offered).status p = σ.status p :=
    fun p hp ↦ status_setStatus_of_ne hp
  have hl : d ≠ c.launcher := fun e ↦ c.launcher_remote (e ▸ hmem)
  refine ⟨hl, hord, fun p hp ↦ ?_, fun p hp ↦ ?_, fun p hp ↦ ?_, ?_, fun p hp hp' ↦ ?_⟩
  · exact (hne p fun e ↦ hnd.2.2 p hp d mem_cons_self e).trans (h.running p hp)
  · obtain rfl : d = p := Option.some.inj hp
    exact .inl status_setStatus_self
  · refine (hne p fun e ↦ hnd.2.1.1 (e ▸ hp)).trans (h.waiting p ?_)
    rw [hs]
    exact mem_cons_of_mem d hp
  · refine .inl ((hne _ hl.symm).trans (h.launcher.resolve_right fun hcon ↦ ?_))
    rw [hs] at hcon
    cases hcon.2.1
  · exact (hne p fun e ↦ hp' (e ▸ hmem)).trans (h.other p hp hp')

/-- The launching process goes on when all others have answered. -/
theorem launch (h : σ.Shipping c done) (ha : σ.awaiting = none) (hs : σ.toShip = []) {x : Status}
    (hst : x.Listening) : (σ.setStatus c.launcher x).Shipping c done := by
  have hne : ∀ p ∈ c.order, (σ.setStatus c.launcher x).status p = σ.status p :=
    fun p hp ↦ status_setStatus_of_ne fun e ↦ c.launcher_remote (by rwa [← e])
  have hdone : ∀ p ∈ done, p ∈ c.order := fun p hp ↦ by rw [h.order]; exact mem_append_left _ hp
  refine ⟨h.order, fun p hp ↦ ?_, fun p hp ↦ ?_, fun p hp ↦ ?_, .inr ⟨ha, hs, ?_⟩,
    fun p hp hp' ↦ ?_⟩
  · rw [hne p (hdone p hp)]
    exact h.running p hp
  · cases ha.symm.trans hp
  · exact absurd (hs ▸ hp) not_mem_nil
  · rwa [status_setStatus_self]
  · rw [status_setStatus_of_ne hp]
    exact h.other p hp hp'

end Shipping

/-- A status that does not change who runs keeps the calm. -/
theorem Calm.setStatus (hσ : σ.Calm c) {d : P} {x : Status} (hd : σ.status d ≠ .running)
    (hst : x ≠ .running) : (σ.setStatus d x).Calm c := by
  have hrun : ∀ p, (σ.setStatus d x).status p = .running ↔ σ.status p = .running := by
    intro p
    by_cases hp : p = d
    · subst hp
      rw [status_setStatus_self]
      exact ⟨fun h ↦ absurd h hst, fun h ↦ absurd h hd⟩
    · rw [status_setStatus_of_ne hp]
  exact ⟨hσ.arises, fun p hp ↦ hσ.turns p ((hrun p).1 hp),
    fun p hp ↦ hσ.fresh p fun h ↦ hp ((hrun p).2 h)⟩

/-- A process starts. -/
theorem Calm.run (hσ : σ.Calm c) {d : P} (hd : σ.status d ≠ .running) :
    (σ.run d (c.autostarts d)).Calm c := by
  refine ⟨hσ.arises, fun p hp ↦ ?_, fun p hp k ↦ ?_⟩
  · by_cases hpd : p = d
    · subst hpd
      refine ⟨[], by rw [todo_run_self]; rfl, fun k _ _ ↦ ?_⟩
      rw [length_nil, Nat.zero_mod]
      exact hσ.fresh p hd k
    · rw [status_run_of_ne hpd] at hp
      rw [todo_run_of_ne hpd]
      exact hσ.turns p hp
  · by_cases hpd : p = d
    · subst hpd
      exact absurd status_run_self hp
    · rw [status_run_of_ne hpd] at hp
      exact hσ.fresh p hp k

/-- A status other than `failed` is safe. -/
theorem Safe.setStatus (h : σ.Safe) {d : P} {x : Status} (hst : x ≠ .failed) :
    (σ.setStatus d x).Safe := by
  refine ⟨h.1, fun p ↦ ?_⟩
  by_cases hp : p = d
  · subst hp
    rwa [status_setStatus_self]
  · rw [status_setStatus_of_ne hp]
    exact h.2 p

variable [DecidableEq Cl]

/-! ### Emitting -/

section

variable {p : P} {s : S} {v : V} {r : Nat}

/-- An event that stays in the process. -/
theorem emmit_of_mem (h : p ∈ c.processes (c.cluster s)) : emmit c σ p s v r = σ.deliver p s v := by
  simp only [emmit, if_pos h]

/-- An event that leaves the process for somebody who is listening. -/
theorem emmit_of_turn {q : P} {todo : P → List (S × V)} (hq : Turn c σ p s q)
    (hlist : (σ.status q).Listening) : emmit c { σ with todo } p s v r =
      { σ with
        todo
        cur := Function.update σ.cur p (Function.update (σ.cur p) (c.cluster s)
          ((r + 1) % (c.processes (c.cluster s)).length))
        delivered := σ.delivered ++ [(q, s, v)] } := by
  simp only [emmit, if_neg hq.1, hq.2]
  exact arrive_of_listening hlist

/-- Where the destination is listening, an event changes nothing but the turns of the
process, and is delivered to somebody who is listening. -/
theorem emmit_of_listening (h : ∀ q, Turn c σ p s q → (σ.status q).Listening) :
    ∃ cur delivered, emmit c σ p s v r = { σ with cur, delivered } := by
  by_cases hl : p ∈ c.processes (c.cluster s)
  · rw [emmit_of_mem hl]
    exact ⟨_, _, rfl⟩
  · simp only [emmit, if_neg hl]
    split
    · rename_i q hq
      have hlist := h q ⟨hl, hq⟩
      exact ⟨_, _, arrive_of_listening hlist⟩
    · exact ⟨_, _, rfl⟩

end


/-! ### Steps -/

namespace Sound

/-- An event that goes to somebody who is listening. -/
theorem emmits {p : P} {s : S} {v : V} {r : Nat} (h : σ.Sound c) {todo : P → List (S × V)}
    (hturn : ∀ q, Turn c σ p s q → (σ.status q).Listening)
    (hcalm : σ.status c.launcher = .closed → (emmit c { σ with todo } p s v r).Calm c) :
    (emmit c { σ with todo } p s v r).Sound c := by
  obtain ⟨cur, delivered, he⟩ := emmit_of_listening (c := c) (σ := { σ with todo }) (p := p)
    (s := s) (v := v) (r := r) hturn
  obtain ⟨done, hship⟩ := h.shipping
  rw [he] at hcalm ⊢
  exact ⟨h.safe, ⟨done, hship.congr⟩, hcalm⟩

/-- Where all that arises stays in one cluster, a process inside it keeps an event. -/
theorem calm_local {p : P} {s : S} {v : V} {r : Nat} {todo : P → List (S × V)} (hσ : σ.Calm c)
    (hp : p ∈ c.processes (c.cluster s)) (ha : c.Arises s v)
    (htodo : ∀ q, ∃ sent, σ.todo q = sent ++ todo q ∧ (q ≠ p → sent = [])) :
    (emmit c { σ with todo } p s v r).Calm c := by
  rw [emmit_of_mem hp]
  refine ⟨fun e he ↦ ?_, fun q hq ↦ ?_, hσ.fresh⟩
  · rcases mem_append.1 he with he | he
    · exact hσ.arises e he
    · obtain rfl := mem_singleton.1 he
      exact ⟨ha, hp⟩
  · obtain ⟨sent, hsent, hcur⟩ := hσ.turns q hq
    obtain ⟨sent', hsent', hother⟩ := htodo q
    refine ⟨sent ++ sent', ?_, fun k hk hqk ↦ ?_⟩
    · rw [hsent, hsent', append_assoc]
      rfl
    · have hqp : q ≠ p := by
        rintro rfl
        exact hqk (hk s v ha ▸ hp)
      rw [hother hqp, append_nil]
      exact hcur k hk hqk

/-- Where all that arises stays in one cluster, a process outside it turns to the next
process of the cluster. -/
theorem calm_remote {p q : P} {s : S} {v : V} {es : List (S × V)} (hσ : σ.Calm c)
    (hp : σ.status p = .running) (htodo : σ.todo p = (s, v) :: es) (hq : Turn c σ p s q)
    (hlist : (σ.status q).Listening) :
    (emmit c { σ with todo := Function.update σ.todo p es } p s v
      (σ.cur p (c.cluster s))).Calm c := by
  have ha : c.Arises s v := by
    obtain ⟨sent, hsent, -⟩ := hσ.turns p hp
    exact .of_mem (p := p) (by rw [hsent, htodo]; simp)
  rw [emmit_of_turn hq hlist]
  refine ⟨fun e he ↦ ?_, fun p' hp' ↦ ?_, fun p' hp' k ↦ ?_⟩
  · rcases mem_append.1 he with he | he
    · exact hσ.arises e he
    · obtain rfl := mem_singleton.1 he
      exact ⟨ha, mem_of_getElem? hq.2⟩
  · obtain ⟨sent, hsent, hcur⟩ := hσ.turns p' hp'
    by_cases hpp : p' = p
    · subst hpp
      refine ⟨sent ++ [(s, v)], ?_, fun k hk hpk ↦ ?_⟩
      · simp only [Function.update_self]
        rw [hsent, htodo, append_assoc]
        rfl
      · obtain rfl := hk s v ha
        simp only [Function.update_self]
        rw [hcur _ hk hpk, length_append, length_singleton, Nat.mod_add_mod]
    · refine ⟨sent, ?_, fun k hk hpk ↦ ?_⟩
      · simp only [Function.update_of_ne hpp]
        exact hsent
      · simp only [Function.update_of_ne hpp]
        exact hcur k hk hpk
  · have hpp : p' ≠ p := by
      rintro rfl
      exact hp' hp
    simp only [Function.update_of_ne hpp]
    exact hσ.fresh p' hp' k

omit [DecidableEq Cl] in
/-- The graph is sent to the next process. -/
theorem ship {d : P} {rest : List P} (h : σ.Sound c) (ha : σ.awaiting = none)
    (hsh : σ.toShip = d :: rest) (hd : σ.status d = .waiting) :
    Sound c { σ.setStatus d .offered with toShip := rest, awaiting := some d } := by
  obtain ⟨done, hship⟩ := h.shipping
  obtain ⟨hne, hship'⟩ := hship.ship ha hsh
  refine ⟨h.safe.setStatus (d := d) (x := .offered) Status.noConfusion, ⟨done, hship'⟩,
    fun hl ↦ ?_⟩
  have hl' : σ.status c.launcher = .closed :=
    (status_setStatus_of_ne (σ := σ) (x := .offered) hne.symm).symm.trans hl
  have hσ := (h.calm hl').setStatus (d := d) (x := .offered)
    (by rw [hd]; exact Status.noConfusion) Status.noConfusion
  exact { hσ with }

omit [DecidableEq P] [DecidableEq Cl] in
/-- `send_graph` returns. -/
theorem acknowledge {d : P} (h : σ.Sound c) (ha : σ.awaiting = some d)
    (hd : σ.status d = .running) : Sound c { σ with awaiting := none } := by
  obtain ⟨done, hship⟩ := h.shipping
  refine ⟨h.safe, ⟨done ++ [d], ?_⟩, fun hl ↦ { h.calm hl with }⟩
  refine { hship with
    order := ?_
    running := fun p hp ↦ ?_
    awaited := fun _ hp ↦ (nomatch hp)
    launcher := hship.launcher.imp_right fun hl ↦ ⟨rfl, hl.2⟩ }
  · rw [hship.order, ha, append_assoc]
    rfl
  · rcases mem_append.1 hp with hp | hp
    · exact hship.running p hp
    · rw [mem_singleton.1 hp]
      exact hd

/-- `leda_run` emits the next event. -/
theorem emit {p : P} {s : S} {v : V} {es : List (S × V)} (h : σ.Sound c) (hc : c.Ordered)
    (hp : σ.status p = .running) (htodo : σ.todo p = (s, v) :: es) :
    (emmit c { σ with todo := Function.update σ.todo p es } p s v
      (σ.cur p (c.cluster s))).Sound c := by
  obtain ⟨done, hship⟩ := h.shipping
  by_cases hl : σ.status c.launcher = .closed
  · obtain ⟨k, hall, hlist⟩ := h.turns_listening hc hl hp
    have ha : c.Arises s v := by
      obtain ⟨sent, hsent, -⟩ := (h.calm hl).turns p hp
      exact .of_mem (p := p) (by rw [hsent, htodo]; simp)
    obtain rfl := hall s v ha
    refine h.emmits (fun q hq ↦ hlist s v es q htodo hq) fun _ ↦ ?_
    by_cases hmem : p ∈ c.processes (c.cluster s)
    · refine calm_local (h.calm hl) hmem ha fun q ↦ ?_
      by_cases hqp : q = p
      · subst hqp
        refine ⟨[(s, v)], ?_, fun hne ↦ absurd rfl hne⟩
        rw [htodo, Function.update_self]
        rfl
      · exact ⟨[], by rw [Function.update_of_ne hqp]; rfl, fun _ ↦ rfl⟩
    · obtain ⟨q, hq⟩ : ∃ q, Turn c σ p s q := by
        obtain ⟨sent, -, hcur⟩ := (h.calm hl).turns p hp
        have hpos := length_pos_of_ne_nil (c.processes_ne (c.cluster s))
        have hlt : σ.cur p (c.cluster s) < (c.processes (c.cluster s)).length := by
          rw [hcur _ hall hmem]
          exact Nat.mod_lt _ hpos
        exact ⟨_, hmem, getElem?_eq_getElem hlt⟩
      exact calm_remote (h.calm hl) hp htodo hq (hlist s v es q htodo hq)
  · exact h.emmits (fun q hq ↦ hship.all_listening hl (mem_of_getElem? hq.2)) fun hl' ↦
      absurd hl' hl

/-- A handler sends. -/
theorem handle {p : P} {s s' : S} {v v' : V} {key : K} {r : Nat} (h : σ.Sound c)
    (hc : c.Ordered) (hp : σ.status p = .running) (hd : (p, s, v) ∈ σ.delivered)
    (hh : (key, v') ∈ c.handler s v) (hcon : c.consumer s key = some s') :
    (emmit c σ p s' v' r).Sound c := by
  obtain ⟨done, hship⟩ := h.shipping
  by_cases hl : σ.status c.launcher = .closed
  · obtain ⟨ha, hmem⟩ := (h.calm hl).arises _ hd
    have ha' : c.Arises s' v' := ha.sent hh hcon
    obtain ⟨k, hall, -⟩ := h.turns_listening hc hl hp
    -- all that arises stays in the cluster of the process
    have hmem' : p ∈ c.processes (c.cluster s') := by
      rw [hall s' v' ha', ← hall s v ha]
      exact hmem
    exact h.emmits (fun q hq ↦ absurd hmem' hq.1) fun _ ↦
      calm_local (h.calm hl) hmem' ha' fun q ↦ ⟨[], rfl, fun _ ↦ rfl⟩
  · exact h.emmits (fun q hq ↦ hship.all_listening hl (mem_of_getElem? hq.2)) fun hl' ↦
      absurd hl' hl

variable [DecidableEq S] [DecidableEq K] [DecidableEq V]

/-- **Every step keeps the invariant.** -/
theorem step (h : σ.Sound c) (hc : c.Ordered) {l : Move P S K V} (hs : σ.step c l = some σ') :
    σ'.Sound c := by
  obtain ⟨done, hship⟩ := h.shipping
  cases step_cases hs with
  | ship ha hsh hd => exact h.ship ha hsh hd
  | accept hd =>
      have ha := hship.awaiting_of_offered hd
      obtain ⟨hne, -⟩ := hship.awaited_ne ha
      refine ⟨h.safe.setStatus Status.noConfusion,
        ⟨done, hship.advance ha (.inr (.inl rfl))⟩, fun hl ↦ ?_⟩
      have hl' : σ.status c.launcher = .closed := by
        rwa [status_setStatus_of_ne hne.symm] at hl
      exact (h.calm hl').setStatus (by rw [hd]; exact Status.noConfusion) Status.noConfusion
  | @answer d ha hd =>
      obtain ⟨hne, -⟩ := hship.awaited_ne ha
      have hadv := hship.advance ha (.inr (.inr rfl))
      refine ⟨h.safe.setStatus (d := d) (x := .running) Status.noConfusion,
        ⟨done, hadv.congr⟩, fun hl ↦ ?_⟩
      have hl' : σ.status c.launcher = .closed := by
        rwa [status_run_of_ne hne.symm] at hl
      exact (h.calm hl').run (by rw [hd]; exact Status.noConfusion)
  | acknowledge ha hd => exact h.acknowledge ha hd
  | bind ha hsh hl =>
      refine ⟨h.safe.setStatus Status.noConfusion,
        ⟨done, hship.launch ha hsh (.inl rfl)⟩, fun hl' ↦ ?_⟩
      rw [status_setStatus_self] at hl'
      cases hl'
  | init hb =>
      obtain ⟨ha, hsh, -⟩ := hship.launcher.resolve_left fun e ↦ by cases hb.symm.trans e
      refine ⟨h.safe.setStatus (d := c.launcher) (x := .running) Status.noConfusion,
        ⟨done, (hship.launch ha hsh (.inr rfl)).congr⟩, fun hl ↦ ?_⟩
      rw [status_run_self] at hl
      cases hl
  | emit hp ht => exact h.emit hc hp ht
  | handle hcon hp hd hh => exact h.handle hc hp hd hh hcon

end Sound

/-! ## The condition is necessary -/

/-- An event that leaves the process without harm goes to somebody who is listening. -/
theorem listening_of_safe {p q : P} {s : S} {v : V} {r : Nat} {todo : P → List (S × V)}
    (hq : Turn c σ p s q) (h : (emmit c { σ with todo } p s v r).Safe) :
    (σ.status q).Listening := by
  obtain ⟨h, -⟩ := h
  simp only [emmit, if_neg hq.1, hq.2, arrive] at h
  cases hst : σ.status q with
  | bound => exact .inl rfl
  | running => exact .inr rfl
  | closed => simp [hst] at h
  | waiting => simp [hst] at h
  | offered => simp [hst] at h
  | failed => simp [hst] at h

/-- **The first process is alone**, and has still to emit `es`. -/
structure Alone (σ : Startup P Cl S V) (d : P) (es : List (S × V)) : Prop where
  running : σ.status d = .running
  others : ∀ p, (σ.status p).Listening → p = d
  todo : σ.todo d = es
  cur : ∀ k, σ.cur d k = 0

/-- An event that `d` emits while it is alone stays in the process. -/
theorem Alone.local {d : P} {es : List (S × V)} (h : σ.Alone d es) {s : S} {v : V} {r : Nat}
    {todo : P → List (S × V)} (hsafe : (emmit c { σ with todo } d s v r).Safe) :
    d ∈ c.processes (c.cluster s) := by
  by_contra hmem
  have hpos := length_pos_of_ne_nil (c.processes_ne (c.cluster s))
  have hlt : σ.cur d (c.cluster s) < (c.processes (c.cluster s)).length := by
    rw [h.cur]
    exact hpos
  have hturn : Turn c σ d s _ := ⟨hmem, getElem?_eq_getElem hlt⟩
  have hq := h.others _ (listening_of_safe hturn hsafe)
  exact hmem (by rw [← hq]; exact getElem_mem hlt)

variable [DecidableEq S] [DecidableEq K] [DecidableEq V]

/-- The states a run may come to. -/
def Reached (c : Config P Cl S K V) (σ : Startup P Cl S V) : Prop :=
  ∃ tr, Run (step c) (start c) tr σ

theorem Reached.next (h : Reached c σ) {l : Move P S K V} (hs : σ.step c l = some σ') :
    Reached c σ' := by
  obtain ⟨tr, hr⟩ := h
  exact ⟨_, hr.snoc hs⟩

/-- **The graph has got to the processes of `pre`**, and nobody has emitted anything. -/
structure Front (c : Config P Cl S K V) (σ : Startup P Cl S V) (pre post : List P) : Prop where
  toShip : σ.toShip = post
  awaiting : σ.awaiting = none
  running : ∀ p ∈ pre, σ.status p = .running ∧ σ.todo p = c.autostarts p
  rest : ∀ p ∉ pre, σ.status p = (start c).status p
  cur : ∀ p k, σ.cur p k = 0

/-- One more process. -/
theorem Front.next {pre post : List P} {d : P} (hr : Reached c σ) (h : Front c σ pre (d :: post))
    (hd : d ∉ pre) (hl : d ≠ c.launcher) :
    ∃ σ', Reached c σ' ∧ Front c σ' (pre ++ [d]) post := by
  have hw : σ.status d = .waiting := by
    rw [h.rest d hd]
    exact if_neg hl
  let σ₁ := { σ.setStatus d .offered with toShip := post, awaiting := some d }
  let σ₂ := σ₁.setStatus d .bound
  let σ₃ := σ₂.run d (c.autostarts d)
  let σ₄ := { σ₃ with awaiting := none }
  have h₁ : σ.step c .ship = some σ₁ := by
    simp only [step, h.awaiting, h.toShip, hw, if_true]
    rfl
  have h₂ : σ₁.step c (.accept d) = some σ₂ := if_pos status_setStatus_self
  have h₃ : σ₂.step c (.answer d) = some σ₃ := if_pos ⟨rfl, status_setStatus_self⟩
  have h₄ : σ₃.step c .acknowledge = some σ₄ := by
    have hrun : σ₃.status d = .running := status_run_self
    change (if σ₃.status d = .running then some σ₄ else none) = some σ₄
    rw [if_pos hrun]
  have hst : ∀ p, p ≠ d → σ₄.status p = σ.status p := by
    intro p hp
    calc σ₃.status p = σ₂.status p := status_run_of_ne hp
      _ = σ₁.status p := status_setStatus_of_ne hp
      _ = σ.status p := status_setStatus_of_ne hp
  refine ⟨σ₄, (((hr.next h₁).next h₂).next h₃).next h₄, rfl, rfl, fun p hp ↦ ?_, fun p hp ↦ ?_,
    h.cur⟩
  · by_cases hpd : p = d
    · subst hpd
      exact ⟨status_run_self (σ := σ₂) (l := c.autostarts p), todo_run_self⟩
    · have hmem : p ∈ pre := (mem_append.1 hp).resolve_right fun e ↦ hpd (mem_singleton.1 e)
      exact ⟨(hst p hpd).trans (h.running p hmem).1,
        (todo_run_of_ne hpd).trans (h.running p hmem).2⟩
  · rw [mem_append, mem_singleton, not_or] at hp
    exact (hst p hp.2).trans (h.rest p hp.1)

/-- The graph may get to any beginning of the order. -/
theorem exists_front (pre post : List P) (h : c.order = pre ++ post) :
    ∃ σ, Reached c σ ∧ Front c σ pre post := by
  induction pre using List.reverseRecOn generalizing post with
  | nil =>
      refine ⟨start c, ⟨[], .nil⟩, ?_⟩
      exact ⟨h, rfl, fun _ hp ↦ absurd hp not_mem_nil, fun _ _ ↦ rfl, fun _ _ ↦ rfl⟩
  | append_singleton pre d ih =>
      rw [append_assoc] at h
      obtain ⟨σ, hr, hf⟩ := ih _ h
      have hnd := c.order_nodup
      rw [h, nodup_append] at hnd
      refine hf.next hr
        (fun hmem ↦ hnd.2.2 d hmem d (mem_append_left _ (mem_singleton_self d)) rfl) ?_
      rintro rfl
      exact c.launcher_remote (by rw [h]; simp)

/-! ### The first process alone -/

/-- The next event that a process emits. -/
theorem Reached.emit (hr : Reached c σ) {p : P} (hp : σ.status p = .running) {s : S} {v : V}
    {es : List (S × V)} (htodo : σ.todo p = (s, v) :: es) :
    Reached c (emmit c { σ with todo := Function.update σ.todo p es } p s v
      (σ.cur p (c.cluster s))) := by
  have hs : σ.step c (.emit p) = some (emmit c { σ with todo := Function.update σ.todo p es } p s v
      (σ.cur p (c.cluster s))) := by
    simp only [step, hp, htodo]
  exact hr.next hs

/-- It emits all its events. -/
theorem Alone.emit_all (hsafe : ∀ σ, Reached c σ → σ.Safe) {d : P} {es : List (S × V)}
    (hr : Reached c σ) (h : σ.Alone d es) : ∃ σ', Reached c σ' ∧ σ'.Alone d [] ∧
      σ.delivered ⊆ σ'.delivered ∧
      ∀ e ∈ es, d ∈ c.processes (c.cluster e.1) ∧ (d, e) ∈ σ'.delivered := by
  induction es generalizing σ with
  | nil => exact ⟨σ, hr, h, Subset.refl _, fun _ he ↦ absurd he not_mem_nil⟩
  | cons e es ih =>
      obtain ⟨s, v⟩ := e
      have hr' := hr.emit h.running h.todo
      have hmem := h.local (hsafe _ hr')
      rw [emmit_of_mem hmem] at hr'
      have h' : Alone (deliver { σ with todo := Function.update σ.todo d es } d s v) d es :=
        ⟨h.running, h.others, Function.update_self .., h.cur⟩
      obtain ⟨σ', hσ', halone, hsub, hall⟩ := ih hr' h'
      refine ⟨σ', hσ', halone, fun x hx ↦ hsub (mem_append_left _ hx), fun e he ↦ ?_⟩
      rcases mem_cons.1 he with rfl | he
      · exact ⟨hmem, hsub (mem_append_right _ (mem_singleton_self _))⟩
      · exact hall e he

/-- **What arises can arise in the first process**, before anybody else has the graph. -/
theorem exists_alone (hsafe : ∀ σ, Reached c σ → σ.Safe) {d : P} {rest : List P}
    (hd : c.order = d :: rest) {s : S} {v : V} (h : c.Arises s v) :
    d ∈ c.processes (c.cluster s) ∧
      ∃ σ, Reached c σ ∧ σ.Alone d [] ∧ (d, s, v) ∈ σ.delivered := by
  induction h with
  | @autostart s v hmem =>
      obtain ⟨σ, hr, hf⟩ := exists_front (c := c) [d] rest hd
      obtain ⟨hrun, htodo⟩ := hf.running d (mem_singleton_self d)
      have halone : σ.Alone d (c.autostarts d) := by
        refine ⟨hrun, fun p hp ↦ ?_, htodo, hf.cur d⟩
        by_contra hpd
        have hst := hf.rest p fun e ↦ hpd (mem_singleton.1 e)
        exact not_listening_start (by rwa [← hst])
      obtain ⟨σ', hr', halone', -, hall⟩ := halone.emit_all hsafe hr
      obtain ⟨h₁, h₂⟩ := hall (s, v) ((Config.autostarts_perm c.launcher d).mem_iff.1 hmem)
      exact ⟨h₁, σ', hr', halone', h₂⟩
  | @sent s s' v v' key _ hh hc ih =>
      obtain ⟨-, σ, hr, halone, hmem⟩ := ih
      have hpos := length_pos_of_ne_nil (c.processes_ne (c.cluster s'))
      have hs : σ.step c (.handle d s v key v' 0) = some (emmit c σ d s' v' 0) := by
        simp only [step, hc]
        rw [if_pos ⟨halone.running, halone.todo, hmem, hh, hpos⟩]
      have hr' := hr.next hs
      have hmem' := halone.local (hsafe _ hr')
      rw [emmit_of_mem hmem'] at hr'
      exact ⟨hmem', _, hr', ⟨halone.running, halone.others, halone.todo, halone.cur⟩,
        mem_append_right _ (mem_singleton_self _)⟩

/-! ### A process behind those that were shipped to before it -/

/-- A process outside the cluster emits its first events. -/
theorem exists_turn (hsafe : ∀ σ, Reached c σ → σ.Safe) {d : P} {k : Cl} (hd : d ∉ c.processes k)
    (hall : ∀ s v, c.Arises s v → c.cluster s = k) {σ : Startup P Cl S V} (hr : Reached c σ)
    (hrun : σ.status d = .running) (htodo : σ.todo d = c.autostarts d) (hcur : σ.cur d k = 0)
    {i : Nat} (hi : i ≤ (c.autostarts d).length) :
    ∃ σ', Reached c σ' ∧ σ'.status = σ.status ∧ σ'.todo d = (c.autostarts d).drop i ∧
      σ'.cur d k = i % (c.processes k).length := by
  induction i with
  | zero => exact ⟨σ, hr, rfl, htodo, by rw [hcur, Nat.zero_mod]⟩
  | succ i ih =>
      obtain ⟨σ', hr', hst, htodo', hcur'⟩ := ih (Nat.le_of_succ_le hi)
      have hlt : i < (c.autostarts d).length := hi
      have hnext : σ'.todo d = ((c.autostarts d)[i].1, (c.autostarts d)[i].2) :: drop (i + 1) _ :=
        htodo'.trans (drop_eq_getElem_cons hlt)
      have hk : c.cluster (c.autostarts d)[i].1 = k :=
        hall _ _ (.of_mem (p := d) (getElem_mem hlt))
      have hpos := length_pos_of_ne_nil (c.processes_ne k)
      have hmod : i % (c.processes k).length < (c.processes k).length := Nat.mod_lt _ hpos
      have hturn : Turn c σ' d (c.autostarts d)[i].1
          (c.processes k)[i % (c.processes k).length] := by
        rw [Turn, hk, hcur']
        exact ⟨hd, getElem?_eq_getElem _⟩
      have hr'' := hr'.emit (hst ▸ hrun) hnext
      have hlist := listening_of_safe hturn (hsafe _ hr'')
      rw [emmit_of_turn hturn hlist] at hr''
      refine ⟨_, hr'', hst, Function.update_self .., ?_⟩
      simp [hk, hcur']

/-- **The condition is exact.**  Nothing comes too early in any run iff the start is
ordered. -/
theorem safe_iff (c : Config P Cl S K V) :
    (∀ tr σ, Run (step c) (start c) tr σ → σ.Safe) ↔ c.Ordered := by
  constructor
  · intro h
    have hsafe : ∀ σ, Reached c σ → σ.Safe := fun σ ⟨tr, hr⟩ ↦ h tr σ hr
    intro d₁ rest hd₁ k hk
    have hall : ∀ s v, c.Arises s v → c.cluster s = k := fun s v ha ↦
      c.processes_inj _ _ d₁ (exists_alone hsafe hd₁ ha).1 hk
    refine ⟨hall, fun pre d post hord hdk q hq ↦ ?_⟩
    obtain ⟨σ, hr, hf⟩ := exists_front (c := c) (pre ++ [d]) post (by simp [hord])
    obtain ⟨hrun, htodo⟩ := hf.running d (by simp)
    obtain ⟨i, hi, rfl⟩ := mem_take_iff_getElem.1 hq
    rw [← (Config.autostarts_perm (c := c) d c.launcher).length_eq, Nat.lt_min] at hi
    obtain ⟨σ', hr', hst, htodo', hcur'⟩ :=
      exists_turn hsafe hdk hall hr hrun htodo (hf.cur d k) (Nat.le_of_lt hi.1)
    rw [drop_eq_getElem_cons hi.1] at htodo'
    have hk' : c.cluster (c.autostarts d)[i].1 = k :=
      hall _ _ (.of_mem (p := d) (getElem_mem hi.1))
    have hturn : Turn c σ' d (c.autostarts d)[i].1 (c.processes k)[i] := by
      rw [Turn, hk', hcur', Nat.mod_eq_of_lt hi.2]
      exact ⟨hdk, getElem?_eq_getElem _⟩
    have hlist := listening_of_safe hturn (hsafe _ (hr'.emit (hst ▸ hrun) htodo'))
    rw [hst] at hlist
    -- somebody who is listening has been shipped to
    have hmem : (c.processes k)[i] ∈ pre ++ [d] := by
      by_contra hmem
      rw [hf.rest _ hmem] at hlist
      exact not_listening_start hlist
    refine (mem_append.1 hmem).resolve_right fun e ↦ hdk ?_
    rw [← mem_singleton.1 e]
    exact getElem_mem hi.2
  · intro hc tr σ hr
    exact (hr.invariant' sound_start fun _ _ _ hI hs ↦ hI.step hc hs).safe

/-- The launching process and two remote ones, with a cluster each.  The only stage is in
the cluster of the second, and starts by itself. -/
def twoRemotes : Config Nat Bool Unit Unit Unit where
  launcher := 0
  order := [1, 2]
  processes k := if k then [2] else [1]
  cluster _ := true
  stages _ := [()]
  autostart _ := some ()
  pending _ := []
  consumer _ _ := none
  handler _ _ := []
  launcher_remote := by decide
  order_nodup := by decide
  processes_mem k p hp := by cases k <;> simp_all
  order_mem p hp := by
    rcases mem_cons.1 hp with rfl | hp
    · exact ⟨false, by decide⟩
    · exact ⟨true, hp⟩
  processes_ne := by decide
  processes_inj k k' p hk hk' := by cases k <;> cases k' <;> simp_all
  processes_nodup := by decide
  stages_perm _ _ := .refl _

/-- The first remote process starts before the second has its graph, and sends it the
event that the stage starts with. -/
theorem tooEarly_twoRemotes : ∃ tr σ, Run (step twoRemotes) (start twoRemotes) tr σ ∧
    σ.tooEarly = [(1, 2)] ∧ σ.status 2 = .failed := by
  obtain ⟨σ, hσ⟩ : ∃ σ, exec (step twoRemotes) (start twoRemotes)
      [.ship, .accept 1, .answer 1, .emit 1] = some σ := ⟨_, rfl⟩
  refine ⟨_, σ, Run.of_exec hσ, ?_⟩
  obtain rfl := Option.some.inj hσ
  exact ⟨rfl, rfl⟩

end Startup

end Leda.Process
