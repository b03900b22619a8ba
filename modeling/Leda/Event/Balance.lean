import Leda.Lib.Rotation
import Leda.Lib.Run

/-!
# The processes of a cluster take turns

An event for a stage of another process goes to one of the processes that its cluster is
mapped to.  `send_sync_event` and `send_async_event` read the cursor of the cluster, add one
modulo the number of processes, and store that; what `STORE` returns is the value the cursor
had just before, and that is the process the event goes to.

Each access is atomic, but not the two together, and any number of threads send.  Whatever
happens in between, the value that is stored, and so the value that is returned, is the place
of a process.  The processes take turns exactly as long as nobody stores a value that
another thread's store has made out of date.
-/

universe u v w

namespace Leda.Event

open List Leda.Lib

variable {T : Type u} {C : Type v} {P : Type w} [DecidableEq T] [DecidableEq C]

/-- The cursors, and what threads that are sending have computed. -/
structure Cursors (T : Type u) (C : Type v) (P : Type w) where
  /-- `cur_process` -/
  curProcess : C → Nat
  /-- The cluster that a thread is sending to, and the value it is going to store. -/
  sending : T → Option (C × Nat)
  /-- The processes that events were sent to, for each cluster. -/
  sent : C → List P

/-- What a thread does next. -/
inductive Choose (T : Type u) (C : Type v)
  | /-- `(READ(cur_process[cluster])+1)%n_processes` -/
    read (t : T) (c : C)
  | /-- `processes[STORE(cur_process[cluster],..)]` -/
    store (t : T)

namespace Cursors

/-- When the graph starts. -/
def init : Cursors T C P := ⟨fun _ ↦ 0, fun _ ↦ none, fun _ ↦ []⟩

/-- One access.  A cluster without processes divides by zero, and a place behind the last
process is outside of the array. -/
def step (processes : C → List P) (σ : Cursors T C P) : Choose T C → Option (Cursors T C P)
  | .read t c =>
      if σ.sending t = none ∧ processes c ≠ [] then
        some { σ with sending :=
          Function.update σ.sending t (some (c, (σ.curProcess c + 1) % (processes c).length)) }
      else none
  | .store t =>
      match σ.sending t with
      | none => none
      | some (c, next) =>
          match (processes c)[σ.curProcess c]? with
          | none => none
          | some p => some
              { curProcess := Function.update σ.curProcess c next
                sending := Function.update σ.sending t none
                sent := Function.update σ.sent c (σ.sent c ++ [p]) }

variable {processes : C → List P} {σ σ' : Cursors T C P}

/-- **Cursors are places of processes**, also those that are going to be. -/
structure InRange (processes : C → List P) (σ : Cursors T C P) : Prop where
  cur : ∀ c, processes c ≠ [] → σ.curProcess c < (processes c).length
  next : ∀ t c n, σ.sending t = some (c, n) → processes c ≠ [] ∧ n < (processes c).length

omit [DecidableEq T] [DecidableEq C] in
theorem inRange_init : InRange processes (init : Cursors T C P) :=
  ⟨fun _ hc ↦ length_pos_iff.2 hc, nofun⟩

/-- The cases of a store. -/
theorem step_store {t : T} (h : step processes σ (.store t) = some σ') :
    ∃ c next p, σ.sending t = some (c, next) ∧ (processes c)[σ.curProcess c]? = some p ∧
      σ' = ⟨Function.update σ.curProcess c next, Function.update σ.sending t none,
        Function.update σ.sent c (σ.sent c ++ [p])⟩ := by
  simp only [step] at h
  split at h
  · cases h
  · rename_i c next hs
    split at h
    · cases h
    · rename_i p hp
      exact ⟨c, next, p, hs, hp, (Option.some.inj h).symm⟩

/-- And of a read. -/
theorem step_read {t : T} {c : C} (h : step processes σ (.read t c) = some σ') :
    processes c ≠ [] ∧ σ' = ⟨σ.curProcess, Function.update σ.sending t
      (some (c, (σ.curProcess c + 1) % (processes c).length)), σ.sent⟩ := by
  simp only [step] at h
  split at h
  · rename_i hc
    exact ⟨hc.2, (Option.some.inj h).symm⟩
  · cases h

theorem InRange.step {l : Choose T C} (h : InRange processes σ)
    (hs : step processes σ l = some σ') : InRange processes σ' := by
  cases l with
  | read t c =>
      obtain ⟨hc, rfl⟩ := step_read hs
      refine ⟨h.cur, fun t' c' n hn ↦ ?_⟩
      by_cases ht : t' = t
      · subst ht
        simp only [Function.update_self, Option.some.injEq, Prod.mk.injEq] at hn
        obtain ⟨rfl, rfl⟩ := hn
        exact ⟨hc, Nat.mod_lt _ (length_pos_iff.2 hc)⟩
      · simp only [Function.update_of_ne ht] at hn
        exact h.next t' c' n hn
  | store t =>
      obtain ⟨c, next, p, hsend, -, rfl⟩ := step_store hs
      constructor
      · intro c' hc'
        by_cases hcc : c' = c
        · subst hcc
          simp only [Function.update_self]
          exact (h.next t c' next hsend).2
        · simp only [Function.update_of_ne hcc]
          exact h.cur c' hc'
      · intro t' c' n hn
        by_cases ht : t' = t
        · subst ht
          simp only [Function.update_self, reduceCtorEq] at hn
        · simp only [Function.update_of_ne ht] at hn
          exact h.next t' c' n hn

/-- The processes have taken turns, and the cursor is at the one whose turn it is. -/
def Balanced (processes : C → List P) (σ : Cursors T C P) : Prop :=
  ∀ c, InTurn (processes c) (σ.sent c) ∧
    (processes c ≠ [] → σ.curProcess c = (σ.sent c).length % (processes c).length)

/-- What a thread stores is still one more than what the cursor is. -/
def UpToDate (processes : C → List P) (σ : Cursors T C P) : Choose T C → Prop
  | .read .. => True
  | .store t => ∀ c next, σ.sending t = some (c, next) →
      next = (σ.curProcess c + 1) % (processes c).length

theorem Balanced.step {l : Choose T C} (h : Balanced processes σ) (hr : InRange processes σ)
    (hu : UpToDate processes σ l) (hs : step processes σ l = some σ') :
    Balanced processes σ' := by
  cases l with
  | read t c =>
      obtain ⟨-, rfl⟩ := step_read hs
      exact h
  | store t =>
      obtain ⟨c, next, p, hsend, hp, rfl⟩ := step_store hs
      have hne := (hr.next t c next hsend).1
      intro c'
      by_cases hcc : c' = c
      · subst hcc
        simp only [Function.update_self, length_append, length_singleton]
        obtain ⟨hturn, hcur⟩ := h c'
        have hcur := hcur hne
        refine ⟨hturn.snoc (hcur ▸ hp), fun _ ↦ ?_⟩
        rw [hu c' next hsend, hcur, Nat.mod_add_mod]
      · simp only [Function.update_of_ne hcc]
        exact h c'

/-- **The processes of a cluster take turns** in a run of any number of threads, for as long as
every value that is stored is still one more than the cursor; and not any longer.  Then, of as
many consecutive events as the cluster has processes, each process gets one.  In any case a
thread that has read the cursor finds a process to send to. -/
theorem balanced_iff {tr : List (Cursors T C P × Choose T C)}
    (h : Run (step processes) init tr σ) :
    ((∀ x ∈ visited tr σ, Balanced processes x) ↔ ∀ p ∈ tr, UpToDate processes p.1 p.2) ∧
      (Balanced processes σ → ∀ c i, i + (processes c).length ≤ (σ.sent c).length →
        ((σ.sent c).drop i).take (processes c).length ~ processes c) ∧
      ∀ t, σ.sending t ≠ none → ∃ σ', step processes σ (.store t) = some σ' := by
  have hrange : InRange processes σ :=
    h.invariant' inRange_init fun _ _ _ hI hs ↦ hI.step hs
  refine ⟨?_, fun hb c i hi ↦ (hb c).1.round hi, fun t ht ↦ ?_⟩
  · refine h.forall_visited_iff (I := fun x ↦ Balanced processes x ∧ InRange processes x)
      ⟨fun c ↦ ⟨.nil, fun _ ↦ (Nat.zero_mod _).symm⟩, inRange_init⟩
      (fun σ l σ' hI hC hs ↦ ⟨hI.1.step hI.2 hC hs, hI.2.step hs⟩) (fun _ hI ↦ hI.1) ?_
    -- the cursor is then not at the process whose turn it is
    intro σ l σ' hI hC hs hb
    apply hC
    cases l with
    | read t c => trivial
    | store t =>
        intro c next hsend
        obtain ⟨c', next', p, hsend', -, rfl⟩ := step_store hs
        obtain ⟨rfl, rfl⟩ := Prod.mk.inj (Option.some.inj (hsend'.symm.trans hsend))
        have hne := (hI.2.next t c' next' hsend).1
        have hcur := (hb c').2 hne
        simp only [Function.update_self, length_append, length_singleton] at hcur
        rw [hcur, (hI.1 c').2 hne, Nat.mod_add_mod]
  · obtain ⟨⟨c, next⟩, hsend⟩ := Option.ne_none_iff_exists'.1 ht
    have hlt := hrange.cur c (hrange.next t c next hsend).1
    have hsome : (step processes σ (.store t)).isSome := by
      simp only [step, hsend, getElem?_eq_getElem hlt]
      rfl
    exact Option.isSome_iff_exists.1 hsome

/-- Two threads read the cursor at the same time, and a third event goes to the same process as the
second. -/
theorem balanced_iff_overtaken : ∃ σ, exec (step (fun _ : Unit ↦ ['a', 'b']))
      (init : Cursors Nat Unit Char)
      [.read 0 (), .read 1 (), .store 0, .store 1, .read 0 (), .store 0] = some σ ∧
    σ.sent () = ['a', 'b', 'b'] ∧ ¬ Balanced (fun _ ↦ ['a', 'b']) σ ∧
      ∀ t, σ.sending t ≠ none → ∃ σ', step (fun _ ↦ ['a', 'b']) σ (.store t) = some σ' := by
  obtain ⟨σ, hσ⟩ : ∃ σ, exec (step (fun _ : Unit ↦ ['a', 'b'])) (init : Cursors Nat Unit Char)
      [.read 0 (), .read 1 (), .store 0, .store 1, .read 0 (), .store 0] = some σ := ⟨_, rfl⟩
  have hb := balanced_iff (Run.of_exec hσ)
  obtain rfl := Option.some.inj hσ
  refine ⟨_, rfl, rfl, fun hbal ↦ ?_, hb.2.2⟩
  have hturn := (hbal ()).1 2 (by decide)
  revert hturn
  decide

end Cursors

end Leda.Event
