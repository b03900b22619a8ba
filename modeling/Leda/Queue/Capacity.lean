import Leda.Queue.Order

/-!
# The capacity of the locked queue

`maxpar` and `set_capacity` change the capacity of a queue while the program runs, so
here `queue_set_capacity` is one more thing a thread may call (`Call`).  The elements of
a queue are the values that were inserted and have not been removed (`State.held`).

Both pushes call a queue full if `size` *equals* the capacity.  That is not the same as
to have no room, for two reasons.

* `queue_set_capacity` may leave the capacity below `size`, and then the two never meet
  while elements are added (`overfull_lowered`).
* `size` is lowered by every thread blocked in `queue_pop`, so it counts the blocked
  threads as room (`overfull_blocked`).

`State.Counted` is the relation between `size`, the elements and the blocked threads that
holds in every run.  With it, the pushes respect the capacity **exactly** if each of them
finds `size` at the capacity, or fewer threads blocked than there are slots left
(`capacity_iff`).  The first of the two reasons is the only one for `size` to get beyond
the capacity (`size_le_capacity`).
-/

universe u v

namespace Leda.Queue

open Leda.Lib

/-- What a thread does with a queue. -/
inductive Call (T : Type u) (α : Type v)
  | /-- It works on the list. -/
    list (l : Label T α)
  | /-- It runs `queue_set_capacity`. -/
    setCapacity (t : T) (capacity : Int)
deriving Repr, DecidableEq

variable {T : Type u} {α : Type v}

namespace State

/-- `queue_set_capacity`. -/
def queueSetCapacity (σ : State T α) (capacity : Int) : State T α :=
  { σ with q := { σ.q with capacity := capacity } }

/-- How many elements the queue holds. -/
def held (σ : State T α) : Int := σ.inserted.length - σ.removed.length

/-- `size` counts the elements that no blocked thread has asked for. -/
def Counted (σ : State T α) : Prop :=
  σ.nullDeref = false → σ.q.size + σ.emptyQueue.length = σ.held

/-- As long as the list is in order, the elements are those that one can reach. -/
theorem held_of_inOrder {σ : State T α} {as : List Nat} (h : Linked 0 σ as) :
    σ.held = as.length := by
  have hlen := congrArg List.length h.history
  rw [List.length_append, Chain.vals, List.length_map] at hlen
  unfold held
  omega

end State

/-- The pushes find `size` at the capacity, or more slots left than there are threads
blocked in `queue_pop`. -/
def Roomy (σ : State T α) : Call T α → Prop
  | .list (.push _ _ _) | .list (.resumePush _ _) | .list (.tryPush _ _ _) =>
      σ.q.capacity < 0 ∨ σ.q.size = σ.q.capacity ∨
        (σ.q.size < σ.q.capacity ∧ σ.emptyQueue.length < σ.q.capacity - σ.q.size)
  | _ => True

/-- How a push refuses: `queue_push` waits, and `queue_try_push` returns `FALSE` at once. -/
def Refuses (σ : State T α) (σ' : State T α) : Call T α → Prop
  | .list (.push t v _) => σ'.fullQueue = σ.fullQueue ++ [(⟨t, false⟩, v)]
  | .list (.resumePush t _) => ∃ v, (⟨t, false⟩, v) ∈ σ'.fullQueue
  | .list (.tryPush _ _ _) => σ' = σ
  | _ => True

variable {σ σ' : State T α} {c : Call T α} {t : T} {v : α} {el : Nat}

/-! ## What the steps count -/

namespace State

/-- An insertion counts its element. -/
theorem Counted.insertElement {empty : Bool} (h : σ.Counted)
    (hs : σ.insertElement empty t v el = some σ') : σ'.Counted := by
  obtain ⟨hsize, -, hins, hrem, hempty, -, hnull, -⟩ := insertElement_counts hs
  intro hn
  have := h (hnull.symm.trans hn)
  unfold held at this ⊢
  rw [hsize, hins, hrem, hempty, List.length_append, List.length_singleton]
  omega

/-- A removal counts its element, once `size` has been lowered. -/
theorem removeHead_counted (t : T)
    (h : σ.nullDeref = false → σ.q.size + σ.emptyQueue.length + 1 = σ.held) :
    (σ.removeHead t).Counted := by
  unfold removeHead
  split
  · intro hn
    cases hn
  · intro hn
    have := h hn
    unfold held at this ⊢
    simp only [List.length_append, List.length_singleton]
    omega

end State

/-- An insertion of a queue that has room, and one of a queue that has not. -/
theorem inserts_iff {P : Prop} {σ₀ : State T α} {empty : Bool}
    (hs : σ₀.insertElement empty t v el = some σ') (h₀ : σ₀.inserted = σ.inserted)
    (hc : σ.q.size + σ.emptyQueue.length = σ.held) (hsize : σ.q.size ≠ σ.q.capacity) :
    (0 ≤ σ.q.capacity → σ.q.capacity ≤ σ.held → σ'.inserted = σ.inserted ∧ P) ↔
      σ.q.capacity < 0 ∨ σ.q.size = σ.q.capacity ∨
        (σ.q.size < σ.q.capacity ∧ σ.emptyQueue.length < σ.q.capacity - σ.q.size) := by
  obtain ⟨-, -, hins, -⟩ := State.insertElement_counts hs
  have hne : σ'.inserted ≠ σ.inserted := by
    rw [hins, h₀]
    simp
  constructor
  · intro h
    by_contra hn
    exact hne (h (by omega) (by omega)).1
  · intro h h₁ h₂
    omega

variable [DecidableEq T]

/-- **Every step counts.** -/
theorem counted_step (h : σ.Counted) {l : Label T α} (hs : step σ l = some σ') : σ'.Counted := by
  cases step_cases hs with
  | pushWaits | pushWaitsAgain | tryPushFails | tryPopFails => exact h
  | push _ hs | tryPush _ hs => exact h.insertElement hs
  | @resumePush _ _ w _ _ _ _ hs =>
      have h' : State.Counted { σ with fullQueue := σ.fullQueue.filter fun x ↦ x.1 ≠ w } := h
      exact h'.insertElement hs
  | popWaits =>
      intro hn
      have := h hn
      unfold State.held at this ⊢
      simp only [List.length_append, List.length_singleton]
      omega
  | @pop t | @tryPop t =>
      refine State.removeHead_counted t fun hn ↦ ?_
      have := h hn
      unfold State.held at this ⊢
      simp only
      omega
  | popWaitsAgain =>
      intro hn
      have := h hn
      unfold State.held at this ⊢
      simpa using this
  | @resumePop t hmem =>
      refine State.removeHead_counted t fun hn ↦ ?_
      have := h hn
      have hpos : 0 < σ.emptyQueue.length := List.length_pos_of_mem hmem
      unfold State.held at this ⊢
      simp only [List.length_erase_of_mem hmem]
      omega
  | signalOne hs =>
      obtain ⟨s, -, ⟨-, rfl⟩ | ⟨u, -, rfl⟩⟩ := State.signalOne_cases hs
      · exact h
      · intro hn
        have := h hn
        unfold State.held at this ⊢
        simpa [State.wake] using this
  | spurious =>
      intro hn
      have := h hn
      unfold State.held at this ⊢
      simpa [State.wake] using this

/-- One step of one thread; a process that has dereferenced a null pointer is gone. -/
def callStep (σ : State T α) : Call T α → Option (State T α)
  | .list l => if σ.nullDeref then none else step σ l
  | .setCapacity t capacity =>
      if σ.nullDeref then none
      else if σ.idle t then some (σ.queueSetCapacity capacity) else none

/-- **A queue that is full takes nothing in**, and refuses as it should. -/
def Respects (σ : State T α) (c : Call T α) : Prop :=
  0 ≤ σ.q.capacity → σ.q.capacity ≤ σ.held →
    ∀ σ', callStep σ c = some σ' → σ'.inserted = σ.inserted ∧ Refuses σ σ' c

/-- A step of a run is one of a process that is still there. -/
theorem callStep_list {l : Label T α} (hs : callStep σ (.list l) = some σ') :
    σ.nullDeref = false ∧ step σ l = some σ' := by
  simp only [callStep] at hs
  split at hs
  · cases hs
  · rename_i hn
    exact ⟨by simpa using hn, hs⟩

theorem callStep_setCapacity {k : Int} (hs : callStep σ (.setCapacity t k) = some σ') :
    σ.nullDeref = false ∧ σ' = σ.queueSetCapacity k := by
  simp only [callStep] at hs
  split at hs
  · cases hs
  · rename_i hn
    split at hs
    · exact ⟨by simpa using hn, (Option.some.inj hs).symm⟩
    · cases hs

/-- **`size` counts in every run.** -/
theorem counted_run [Inhabited α] {k : Int} {tr : List (State T α × Call T α)}
    (h : Run callStep (State.queueNew k) tr σ) : σ.Counted := by
  refine h.invariant' (fun _ ↦ rfl) fun σ c σ' hI hs ↦ ?_
  cases c with
  | list l => exact counted_step hI (callStep_list hs).2
  | setCapacity t k' =>
      obtain ⟨-, rfl⟩ := callStep_setCapacity hs
      exact hI

/-! ## The pushes -/

/-- **A push respects the capacity exactly if it finds the room it counts on.** -/
theorem respects_iff (h : σ.Counted) (hs : callStep σ c = some σ') :
    Respects σ c ↔ Roomy σ c := by
  have hall : Respects σ c ↔
      (0 ≤ σ.q.capacity → σ.q.capacity ≤ σ.held →
        σ'.inserted = σ.inserted ∧ Refuses σ σ' c) := by
    refine ⟨fun hr h₁ h₂ ↦ hr h₁ h₂ σ' hs, fun hr h₁ h₂ σ'' hs' ↦ ?_⟩
    obtain rfl : σ' = σ'' := Option.some.inj (hs.symm.trans hs')
    exact hr h₁ h₂
  rw [hall]
  cases c with
  | setCapacity t k =>
      obtain ⟨-, rfl⟩ := callStep_setCapacity hs
      exact ⟨fun _ ↦ trivial, fun _ _ _ ↦ ⟨rfl, trivial⟩⟩
  | list l =>
      obtain ⟨hnull, hs⟩ := callStep_list hs
      have hc := h hnull
      have hsame : ∀ {σ₀ : State T α} (t : T), σ₀.inserted = σ.inserted →
          (σ₀.removeHead t).inserted = σ.inserted := by
        intro σ₀ t h₀
        unfold State.removeHead
        split_ifs <;> exact h₀
      cases step_cases hs with
      | pushWaits _ hfull | tryPushFails hfull =>
          exact ⟨fun _ ↦ .inr (.inl hfull.2), fun _ _ _ ↦ ⟨rfl, rfl⟩⟩
      | push hfull hs | tryPush hfull hs =>
          by_cases hcap : 0 ≤ σ.q.capacity
          · exact inserts_iff hs rfl hc fun he ↦ hfull ⟨hcap, he⟩
          · exact ⟨fun _ ↦ .inl (by omega), fun _ h₁ ↦ absurd h₁ hcap⟩
      | @pushWaitsAgain _ _ _ v hfind hfull =>
          refine ⟨fun _ ↦ .inr (.inl hfull), fun _ _ _ ↦ ⟨rfl, v, ?_⟩⟩
          exact List.mem_map.2 ⟨_, List.mem_of_find?_eq_some hfind, if_pos rfl⟩
      | resumePush _ hfull hs => exact inserts_iff hs rfl hc hfull
      | @pop t | @resumePop t | @tryPop t =>
          exact ⟨fun _ ↦ trivial, fun _ _ _ ↦ ⟨hsame t rfl, trivial⟩⟩
      | signalOne hs =>
          refine ⟨fun _ ↦ trivial, fun _ _ _ ↦ ⟨?_, trivial⟩⟩
          obtain ⟨s, -, ⟨-, rfl⟩ | ⟨u, -, rfl⟩⟩ := State.signalOne_cases hs <;> rfl
      | popWaits | popWaitsAgain | tryPopFails | spurious =>
          exact ⟨fun _ ↦ trivial, fun _ _ _ ↦ ⟨rfl, trivial⟩⟩

/-- **When the pushes respect the capacity**, in every run of any number of threads, with
any capacities. -/
theorem capacity_iff [Inhabited α] (k : Int) {tr : List (State T α × Call T α)}
    (h : Run callStep (State.queueNew k) tr σ) :
    (∀ p ∈ tr, Respects p.1 p.2) ↔ ∀ p ∈ tr, Roomy p.1 p.2 := by
  refine forall₂_congr fun p hp ↦ ?_
  obtain ⟨tr₁, tr₂, s', -, hr, hs⟩ := h.prefix_of_mem hp
  exact respects_iff (counted_run hr) hs

/-! ## The bound on `size` -/

namespace State

/-- `size` is within the capacity, if there is one. -/
def Bounded (σ : State T α) : Prop := σ.q.capacity < 0 ∨ σ.q.size ≤ σ.q.capacity

omit [DecidableEq T] in
/-- A removal lowers nothing but the list. -/
theorem removeHead_counters (σ : State T α) (t : T) :
    (σ.removeHead t).q.size = σ.q.size ∧ (σ.removeHead t).q.capacity = σ.q.capacity := by
  unfold removeHead
  split <;> exact ⟨rfl, rfl⟩

omit [DecidableEq T] in
/-- An insertion in a queue that is not full. -/
theorem Bounded.insertElement {σ₀ : State T α} {empty : Bool} (h : σ.Bounded)
    (hs : σ₀.insertElement empty t v el = some σ') (h₀ : σ₀.q = σ.q)
    (hsize : σ.q.capacity < 0 ∨ σ.q.size ≠ σ.q.capacity) : σ'.Bounded := by
  obtain ⟨h₁, h₂, -⟩ := insertElement_counts hs
  unfold Bounded at h ⊢
  rw [h₁, h₂, h₀]
  omega

end State

/-- The step does not put the capacity below `size`. -/
def KeepsRoom (σ : State T α) : Call T α → Prop
  | .setCapacity _ k => k < 0 ∨ σ.q.size ≤ k
  | .list _ => True

/-- **`size` gets beyond the capacity only when `queue_set_capacity` lowers that.** -/
theorem size_le_capacity [Inhabited α] (k : Int) {tr : List (State T α × Call T α)}
    (h : Run callStep (State.queueNew k) tr σ) (hk : ∀ p ∈ tr, KeepsRoom p.1 p.2) :
    σ.Bounded := by
  have h₀ : (State.queueNew k : State T α).Bounded := lt_or_ge k 0
  refine h.invariant h₀ (fun σ c σ' hI hC hs ↦ ?_) hk
  cases c with
  | setCapacity t k' =>
      obtain ⟨-, rfl⟩ := callStep_setCapacity hs
      exact hC
  | list l =>
      have hs := (callStep_list hs).2
      have hlower : ∀ {σ₀ : State T α} (t : T), σ₀.q.size ≤ σ.q.size →
          σ₀.q.capacity = σ.q.capacity → (σ₀.removeHead t).Bounded := by
        intro σ₀ t h₁ h₂
        obtain ⟨h₃, h₄⟩ := σ₀.removeHead_counters t
        unfold State.Bounded at hI ⊢
        omega
      cases step_cases hs with
      | pushWaits | pushWaitsAgain | tryPushFails | popWaitsAgain | tryPopFails | spurious =>
          exact hI
      | push hfull hs | tryPush hfull hs => exact hI.insertElement hs rfl (by omega)
      | resumePush _ hfull hs => exact hI.insertElement hs rfl (.inr hfull)
      | popWaits =>
          unfold State.Bounded at hI ⊢
          simp only
          omega
      | @pop t | @tryPop t => exact hlower t (by simp only; omega) rfl
      | @resumePop t => exact hlower t (le_refl _) rfl
      | signalOne hs =>
          obtain ⟨s, -, ⟨-, rfl⟩ | ⟨u, -, rfl⟩⟩ := State.signalOne_cases hs <;> exact hI

/-! ## Queues that overflow -/

/-- Two values are pushed, the capacity is lowered to one, and a third is pushed. -/
def loweredTooFar : List (Call Nat Nat) :=
  [.list (.push 0 7 16), .list (.signalOne 0 none), .list (.push 0 8 24), .setCapacity 0 1,
    .list (.push 0 9 32)]

/-- **A queue whose capacity was lowered below `size` takes elements without end**: it
holds two, its capacity is one, and it takes a third. -/
theorem overfull_lowered :
    ¬ ∀ (k : Int) (tr : List (State Nat Nat × Call Nat Nat)) (σ : State Nat Nat),
      Run callStep (State.queueNew k) tr σ → ∀ p ∈ tr, Respects p.1 p.2 := by
  intro h
  obtain ⟨σ, hσ⟩ : ∃ σ, exec callStep (State.queueNew (-1)) (loweredTooFar.take 4) = some σ :=
    ⟨_, rfl⟩
  obtain ⟨σ', hs⟩ : ∃ σ', callStep σ (.list (.push 0 9 32)) = some σ' := by
    obtain rfl := Option.some.inj hσ
    exact ⟨_, rfl⟩
  have hr := (Run.of_exec hσ).snoc hs
  have hfull : Respects σ (.list (.push 0 9 32)) :=
    h _ _ _ hr (σ, .list (.push 0 9 32)) (List.mem_append_right _ List.mem_cons_self)
  obtain rfl := Option.some.inj hσ
  have hgot := (hfull (by decide) (by decide) σ' hs).1
  obtain rfl := Option.some.inj hs
  exact absurd hgot (by decide)

/-- A thread is blocked in `queue_pop` while two values are pushed. -/
def poppedInAdvance : List (Call Nat Nat) :=
  [.list (.pop 1), .list (.push 0 7 16), .list (.signalOne 0 (some 1)), .list (.push 0 8 24)]

/-- **A thread that is blocked in `queue_pop` counts as room**: with a capacity of one the
queue holds two elements. -/
theorem overfull_blocked :
    ∃ σ : State Nat Nat, exec callStep (State.queueNew 1) poppedInAdvance = some σ ∧
      σ.q.capacity = 1 ∧ σ.held = 2 := by
  obtain ⟨σ, hσ⟩ : ∃ σ, exec callStep (State.queueNew 1) poppedInAdvance = some σ := ⟨_, rfl⟩
  refine ⟨σ, hσ, ?_⟩
  obtain rfl := Option.some.inj hσ
  exact ⟨rfl, rfl⟩

/-- A queue of capacity one that is full, and refuses. -/
def refused : List (Call Nat Nat) := [.list (.push 0 7 16), .list (.signalOne 0 none),
  .list (.tryPush 0 8 24), .list (.push 0 8 24)]

/-- `capacity_iff` at `refused`. -/
theorem capacity_iff_refused :
    ∃ σ : State Nat Nat, exec callStep (State.queueNew 1) refused = some σ ∧
      ∀ p ∈ execTrace callStep (State.queueNew 1) refused, Respects p.1 p.2 := by
  obtain ⟨σ, hσ⟩ : ∃ σ, exec callStep (State.queueNew 1) refused = some σ := ⟨_, rfl⟩
  refine ⟨σ, hσ, (capacity_iff 1 (Run.of_exec hσ)).2 ?_⟩
  intro p hp
  rcases List.mem_cons.1 hp with rfl | hp
  · exact .inr (.inr (by decide))
  · rcases List.mem_cons.1 hp with rfl | hp
    · exact trivial
    · rcases List.mem_cons.1 hp with rfl | hp
      · exact .inr (.inl rfl)
      · obtain rfl := List.mem_singleton.1 hp
        exact .inr (.inl rfl)

end Leda.Queue
