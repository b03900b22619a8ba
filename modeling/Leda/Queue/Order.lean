import Leda.Queue.Locked

/-!
# Order and loss in the locked queue

`InOrder σ` is what a FIFO owes its callers: the removed values followed by the
values reachable from `head` are the inserted values, in order, and no null `head`
was dereferenced.  The code keeps it *exactly* as long as neither emptiness test of
the two insertions is wrong about the list (`fifo_iff`):

* `queue_try_push` takes `size<=0` for "list was empty", but `size` is lowered by
  every pop that has started.  With poppers blocked and an element already handed
  in for one of them, the list is not empty, and the insertion overwrites `head`
  (`fifo_fails`: two blocked poppers, two insertions, the first value is lost).
* `queue_push` takes `tail==NULL` for it, but nothing resets `tail`.  After the list
  ran empty, the insertion links the new element behind a freed one, out of reach
  of `head`.

`Linked` is the invariant behind both directions.
-/

universe u v

namespace Leda.Queue

open Leda.Lib

variable {T : Type u} {α : Type v}

/-- Nothing lost, nothing duplicated, nothing reordered, no null dereference. -/
def InOrder (σ : State T α) : Prop :=
  σ.nullDeref = false ∧
    ∃ as, Chain σ.mem σ.q.head as ∧ σ.removed ++ Chain.vals σ.mem as = σ.inserted

/-- `as` is the list that starts at `head`: its elements are allocated, and `tail` is
the last of them if there is any.  Unlike `InOrder` this holds in every run. -/
structure Strung (σ : State T α) (as : List Nat) : Prop where
  chain : Chain σ.mem σ.q.head as
  alloc : ∀ a ∈ as, a ∈ σ.allocated
  last : as ≠ [] → as.getLast? = some σ.q.tail

/-- The list `as` of elements hangs together.  `k` is the number of pops that have
been counted in `size` but neither wait nor have removed anything yet. -/
structure Linked (k : Nat) (σ : State T α) (as : List Nat) : Prop where
  chain : Chain σ.mem σ.q.head as
  alloc : ∀ a ∈ as, a ∈ σ.allocated
  history : σ.removed ++ Chain.vals σ.mem as = σ.inserted
  last : as ≠ [] → as.getLast? = some σ.q.tail
  size_eq : σ.q.size + σ.emptyQueue.length + k = as.length

namespace Strung

variable {σ σ' : State T α} {as : List Nat}

/-- `Strung` looks at the list and its memory only. -/
theorem frame (h : Strung σ as) (hq : σ'.q.head = σ.q.head) (ht : σ'.q.tail = σ.q.tail)
    (hm : σ'.mem = σ.mem) (ha : σ'.allocated = σ.allocated) : Strung σ' as where
  chain := by rw [hm, hq]; exact h.chain
  alloc := by rw [ha]; exact h.alloc
  last := by rw [ht]; exact h.last

/-- The list is empty iff `head` is null. -/
theorem eq_nil_iff (h : Strung σ as) : as = [] ↔ σ.q.head = 0 := h.chain.eq_nil_iff

/-- An insertion that takes the list for empty leaves the new element alone in it. -/
theorem insertElement_alone {t : T} {v : α} {el : Nat}
    (hs : σ.insertElement true t v el = some σ') : Strung σ' [el] := by
  unfold State.insertElement at hs
  split at hs
  · cases hs
  · rename_i hel
    simp only [if_true, Option.some.injEq] at hs
    subst hs
    refine ⟨Chain.singleton (not_or.1 hel).1 (by simp), ?_, fun _ ↦ rfl⟩
    intro a ha
    obtain rfl := List.mem_singleton.1 ha
    exact Finset.mem_insert_self _ _

/-- An insertion that takes the list for nonempty appends to it if it is. -/
theorem insertElement_append {t : T} {v : α} {el : Nat} (h : Strung σ as) (hne : as ≠ [])
    (hs : σ.insertElement false t v el = some σ') :
    Strung σ' (as ++ [el]) ∧ Chain.vals σ'.mem (as ++ [el]) = Chain.vals σ.mem as ++ [v] := by
  unfold State.insertElement at hs
  split at hs
  · cases hs
  · rename_i hel
    obtain ⟨hel0, hfresh⟩ := not_or.1 hel
    have hlast := h.last hne
    have hnotin : el ∉ as := fun hm ↦ hfresh (h.alloc el hm)
    have htail : σ.q.tail ≠ el := fun e ↦ hnotin (e ▸ List.mem_of_getLast? hlast)
    simp only [Bool.false_eq_true, if_false, Option.some.injEq,
      Function.update_of_ne htail] at hs
    subst hs
    refine ⟨⟨h.chain.append_cell hlast hnotin hel0, ?_, fun _ ↦ by simp⟩, ?_⟩
    · intro a ha
      rcases List.mem_append.1 ha with ha | ha
      · exact Finset.mem_insert_of_mem (h.alloc a ha)
      · obtain rfl := List.mem_singleton.1 ha
        exact Finset.mem_insert_self _ _
    · exact Chain.vals_append_cell hlast hnotin

/-- An insertion that takes an empty list for nonempty leaves `head` null. -/
theorem insertElement_unreachable {t : T} {v : α} {el : Nat} (h : Strung σ [])
    (hs : σ.insertElement false t v el = some σ') : Strung σ' [] := by
  have hhead := h.eq_nil_iff.1 rfl
  unfold State.insertElement at hs
  split at hs
  · cases hs
  · simp only [Bool.false_eq_true, if_false, Option.some.injEq] at hs
    subst hs
    refine ⟨?_, fun a ha ↦ absurd ha (by simp), fun hne ↦ absurd rfl hne⟩
    change Chain _ σ.q.head []
    rw [hhead]
    exact .nil

/-- Removing the head of a nonempty list. -/
theorem removeHead {a : Nat} (t : T) (h : Strung σ (a :: as)) :
    Strung (σ.removeHead t) as ∧ (σ.removeHead t).nullDeref = σ.nullDeref ∧
      (σ.removeHead t).removed = σ.removed ++ [(σ.mem a).val] := by
  obtain ⟨hchain, halloc, hlast⟩ := h
  have hnd := hchain.nodup
  have hhead : σ.q.head = a := by
    generalize hh : σ.q.head = b at hchain
    cases hchain with
    | cons _ _ => rfl
  rw [hhead] at hchain
  cases hchain with
  | cons hne hrest =>
      unfold State.removeHead
      rw [hhead, if_neg hne]
      refine ⟨⟨hrest, ?_, ?_⟩, rfl, rfl⟩
      · intro b hb
        refine Finset.mem_erase.2 ⟨fun e ↦ ?_, halloc b (List.mem_cons_of_mem _ hb)⟩
        exact (List.nodup_cons.1 hnd).1 (e ▸ hb)
      · intro hne'
        obtain ⟨b, bs, rfl⟩ := List.exists_cons_of_ne_nil hne'
        simpa using hlast (by simp)

end Strung

namespace Linked

variable {k : Nat} {σ σ' : State T α} {as : List Nat}

/-- `Linked` does not look at the pushers, the signals and the names of the
poppers. -/
theorem frame (h : Linked k σ as) (hq : σ'.q = σ.q) (hm : σ'.mem = σ.mem)
    (ha : σ'.allocated = σ.allocated) (hi : σ'.inserted = σ.inserted)
    (hr : σ'.removed = σ.removed) (hl : σ'.emptyQueue.length = σ.emptyQueue.length) :
    Linked k σ' as where
  chain := by rw [hm, hq]; exact h.chain
  alloc := by rw [ha]; exact h.alloc
  history := by rw [hr, hm, hi]; exact h.history
  last := by rw [hq]; exact h.last
  size_eq := by rw [hq, hl]; exact h.size_eq

/-- The list is empty iff `head` is null. -/
theorem eq_nil_iff (h : Linked k σ as) : as = [] ↔ σ.q.head = 0 := h.chain.eq_nil_iff

/-- Forgetting the history. -/
theorem strung (h : Linked k σ as) : Strung σ as := ⟨h.chain, h.alloc, h.last⟩

/-- A positive `size` is at most the length of the list. -/
theorem ne_nil_of_size_pos (h : Linked 0 σ as) (hs : 0 < σ.q.size) : as ≠ [] := by
  rintro rfl
  have := h.size_eq
  simp only [List.length_nil] at this
  omega

end Linked

namespace State

/-- An insertion counts and records its value, whatever its test says. -/
theorem insertElement_counts {σ σ' : State T α} {empty : Bool} {t : T} {v : α} {el : Nat}
    (hs : σ.insertElement empty t v el = some σ') :
    σ'.q.size = σ.q.size + 1 ∧ σ'.q.capacity = σ.q.capacity ∧
      σ'.inserted = σ.inserted ++ [v] ∧ σ'.removed = σ.removed ∧
      σ'.emptyQueue = σ.emptyQueue ∧ σ'.fullQueue = σ.fullQueue ∧
      σ'.nullDeref = σ.nullDeref ∧
      σ'.signals = if empty then (t, .emptyQueue) :: σ.signals else σ.signals := by
  unfold insertElement at hs
  split at hs
  · cases hs
  · split at hs <;> rename_i he <;> cases hs <;> simp [he]

/-- An insertion into a list taken for empty writes the value. -/
theorem insertElement_val {σ σ' : State T α} {t : T} {v : α} {el : Nat}
    (hs : σ.insertElement true t v el = some σ') : (σ'.mem el).val = v := by
  unfold insertElement at hs
  split at hs
  · cases hs
  · simp only [if_true, Option.some.injEq] at hs
    subst hs
    simp

/-- What `insertElement` needs of its emptiness test. -/
theorem insertElement_linked {σ σ' : State T α} {as : List Nat} {empty : Bool} {t : T} {v : α}
    {el : Nat} (h : Linked 0 σ as) (hempty : empty = true ↔ as = [])
    (hs : σ.insertElement empty t v el = some σ') :
    Linked 0 σ' (as ++ [el]) ∧ σ'.nullDeref = σ.nullDeref := by
  obtain ⟨hsz, -, hins, hrem, hpop, -, hnull, -⟩ := insertElement_counts hs
  have hsize := h.size_eq
  have hlen : (σ'.q.size + σ'.emptyQueue.length + (0 : Nat) : Int) = (as ++ [el]).length := by
    rw [hsz, hpop, List.length_append, List.length_singleton]
    omega
  have hhist : σ'.removed ++ (Chain.vals σ.mem as ++ [v]) = σ'.inserted := by
    rw [hrem, hins, ← h.history, List.append_assoc]
  cases empty with
  | true =>
      obtain rfl := hempty.1 rfl
      have hval : (σ'.mem el).val = v := insertElement_val hs
      obtain ⟨hc, ha, hl⟩ := Strung.insertElement_alone hs
      refine ⟨⟨hc, ha, ?_, hl, hlen⟩, hnull⟩
      simpa [hval] using hhist
  | false =>
      have hne : as ≠ [] := fun e ↦ by simpa using hempty.2 e
      obtain ⟨⟨hc, ha, hl⟩, hvals⟩ := h.strung.insertElement_append hne hs
      exact ⟨⟨hc, ha, by rw [hvals]; exact hhist, hl, hlen⟩, hnull⟩

/-- An insertion whose emptiness test is wrong loses a value at once. -/
theorem insertElement_breaks {σ σ' : State T α} {as : List Nat} {empty : Bool} {t : T} {v : α}
    {el : Nat} (h : Linked 0 σ as) (hwrong : ¬ (empty = true ↔ as = []))
    (hs : σ.insertElement empty t v el = some σ') : ¬ InOrder σ' := by
  rintro ⟨-, bs, hchain, hhist⟩
  have hold := congrArg List.length h.history
  unfold insertElement at hs
  split at hs
  · cases hs
  · rename_i hel
    obtain ⟨hne, -⟩ := not_or.1 hel
    cases empty with
    | true =>
        have hne' : as ≠ [] := fun e ↦ hwrong (by simp [e])
        simp only [if_true, Option.some.injEq] at hs
        subst hs
        -- only the new element is reachable, the old ones are gone
        have hnew : Chain (Function.update σ.mem el ⟨v, 0⟩) el [el] :=
          Chain.singleton hne (by simp)
        obtain rfl := hnew.unique hchain
        have hlen := congrArg List.length hhist
        have hpos : 0 < as.length := List.length_pos_iff.2 hne'
        simp only [Chain.vals, List.length_append, List.length_map, List.length_singleton]
          at hlen hold
        omega
    | false =>
        have hnil : as = [] := by
          by_contra e
          exact hwrong ⟨fun h ↦ by simp at h, fun h ↦ absurd h e⟩
        have hhead := h.eq_nil_iff.1 hnil
        simp only [Bool.false_eq_true, if_false, Option.some.injEq] at hs
        subst hs
        -- `head` is still null, the new element is out of reach
        obtain rfl := (hchain.eq_nil_iff).2 hhead
        have hlen := congrArg List.length hhist
        subst hnil
        simp only [Chain.vals_nil, List.length_append, List.length_nil,
          List.length_singleton] at hlen hold
        omega

/-- Removing the head of a nonempty list. -/
theorem removeHead_linked {σ : State T α} {as : List Nat} (t : T) (h : Linked 1 σ as)
    (hne : as ≠ []) :
    (∃ bs, Linked 0 (σ.removeHead t) bs) ∧ (σ.removeHead t).nullDeref = σ.nullDeref := by
  obtain ⟨a, bs, rfl⟩ := List.exists_cons_of_ne_nil hne
  have hhead : σ.q.head ≠ 0 := fun e ↦ hne (h.eq_nil_iff.2 e)
  obtain ⟨⟨hc, ha, hl⟩, hnull, hrem⟩ := h.strung.removeHead t
  have hsize := h.size_eq
  have hhist := h.history
  simp only [List.length_cons] at hsize
  refine ⟨⟨bs, ⟨hc, ha, ?_, hl, ?_⟩⟩, hnull⟩
  · rw [hrem, removeHead, if_neg hhead]
    simpa using hhist
  · rw [removeHead, if_neg hhead]
    change σ.q.size + σ.emptyQueue.length + (0 : Nat) = bs.length
    push_cast at hsize ⊢
    omega

variable [DecidableEq T]

/-- Waking a thread moves nothing. -/
theorem wake_linked {σ : State T α} {as : List Nat} (t : T) (h : Linked 0 σ as) :
    Linked 0 (σ.wake t) as :=
  h.frame rfl rfl rfl rfl rfl (by simp [wake])

/-- What delivering a signal does: it leaves the signals, and reaches one sleeper or,
if there is none, nobody. -/
theorem signalOne_cases {σ σ' : State T α} {t : T} {w : Option T}
    (hs : σ.signalOne t w = some σ') :
    ∃ s ∈ σ.signals,
      (σ.sleepers s.2 = [] ∧ σ' = { σ with signals := σ.signals.erase s }) ∨
      ∃ u ∈ σ.sleepers s.2, σ' = { σ with signals := σ.signals.erase s }.wake u := by
  unfold signalOne at hs
  split at hs
  · cases hs
  · rename_i s hfind
    refine ⟨s, List.mem_of_find?_eq_some hfind, ?_⟩
    cases w with
    | none =>
        simp only at hs
        split at hs
        · rename_i hnobody
          exact .inl ⟨hnobody, (Option.some.inj hs).symm⟩
        · cases hs
    | some u =>
        simp only at hs
        split at hs
        · rename_i hu
          exact .inr ⟨u, hu, (Option.some.inj hs).symm⟩
        · cases hs

/-- Delivering a signal moves nothing either. -/
theorem signalOne_linked {σ σ' : State T α} {as : List Nat} {t : T} {w : Option T}
    (h : Linked 0 σ as) (hs : σ.signalOne t w = some σ') :
    Linked 0 σ' as ∧ σ'.nullDeref = σ.nullDeref := by
  obtain ⟨s, -, ⟨-, rfl⟩ | ⟨u, -, rfl⟩⟩ := signalOne_cases hs
  · exact ⟨h.frame rfl rfl rfl rfl rfl rfl, rfl⟩
  · exact ⟨wake_linked u (h.frame rfl rfl rfl rfl rfl rfl), rfl⟩

end State

/-- The emptiness test an insertion is about to rely on agrees with the list: it
calls the list empty exactly if `head` is null.  A push that finds the queue full
relies on no test. -/
def TestAgrees (σ : State T α) : Label T α → Prop
  | .push _ _ _ => (0 ≤ σ.q.capacity ∧ σ.q.size = σ.q.capacity) ∨
      (σ.q.tail = 0 ↔ σ.q.head = 0)
  | .resumePush _ _ => σ.q.size = σ.q.capacity ∨ (σ.q.tail = 0 ↔ σ.q.head = 0)
  | .tryPush _ _ _ => (0 ≤ σ.q.capacity ∧ σ.q.size = σ.q.capacity) ∨
      (σ.q.size ≤ 0 ↔ σ.q.head = 0)
  | _ => True

/-- The invariant of the runs whose tests agree. -/
def Sound (σ : State T α) : Prop := σ.nullDeref = false ∧ ∃ as, Linked 0 σ as

/-- A fresh queue is sound. -/
theorem sound_queueNew [Inhabited α] (c : Int) : Sound (State.queueNew c : State T α) :=
  ⟨rfl, [], ⟨.nil, by simp, rfl, fun h ↦ absurd rfl h, rfl⟩⟩

/-- A sound queue is in order. -/
theorem Sound.inOrder {σ : State T α} (h : Sound σ) : InOrder σ := by
  obtain ⟨hnull, as, hl⟩ := h
  exact ⟨hnull, as, hl.chain, hl.history⟩

/-- An insertion of a sound queue: sound again if the test agrees, out of order if
it does not. -/
theorem Sound.insertElement {σ σ' : State T α} {empty : Bool} {t : T} {v : α} {el : Nat}
    (h : Sound σ) (hs : σ.insertElement empty t v el = some σ') :
    ((empty = true ↔ σ.q.head = 0) → Sound σ') ∧
      (¬ (empty = true ↔ σ.q.head = 0) → ¬ InOrder σ') := by
  obtain ⟨hnull, as, hl⟩ := h
  constructor
  · intro hagree
    obtain ⟨hl', hn'⟩ := State.insertElement_linked hl (hagree.trans hl.eq_nil_iff.symm) hs
    exact ⟨hn'.trans hnull, _, hl'⟩
  · intro hwrong
    exact State.insertElement_breaks hl (fun h ↦ hwrong (h.trans hl.eq_nil_iff)) hs

variable [DecidableEq T]

/-- The insertions are the only steps with a test; all others keep a queue sound. -/
theorem sound_step {σ σ' : State T α} {l : Label T α} (h : Sound σ)
    (hs : step σ l = some σ') :
    (TestAgrees σ l → Sound σ') ∧ (¬ TestAgrees σ l → ¬ InOrder σ') := by
  obtain ⟨hnull, as, hl⟩ := h
  have hsize := hl.size_eq
  cases step_cases hs with
  | @pushWaits t v _ _ hfull =>
      have hl' : Linked 0 { σ with fullQueue := σ.fullQueue ++ [(⟨t, false⟩, v)] } as :=
        hl.frame rfl rfl rfl rfl rfl rfl
      exact ⟨fun _ ↦ ⟨hnull, as, hl'⟩, fun hn ↦ absurd (Or.inl hfull) hn⟩
  | push hfull hs | tryPush hfull hs =>
      have hins := Sound.insertElement ⟨hnull, as, hl⟩ hs
      simp only [decide_eq_true_eq] at hins
      exact ⟨fun hc ↦ hins.1 (hc.resolve_left hfull), fun hn ↦ hins.2 fun hc ↦ hn (.inr hc)⟩
  | pushWaitsAgain _ hfull =>
      refine ⟨fun _ ↦ ⟨hnull, as, hl.frame rfl rfl rfl rfl rfl rfl⟩, fun hn ↦ ?_⟩
      exact absurd (Or.inl hfull) hn
  | @resumePush _ _ w _ _ _ hfull hs =>
      have hl' : Linked 0 { σ with fullQueue := σ.fullQueue.filter fun x ↦ x.1 ≠ w } as :=
        hl.frame rfl rfl rfl rfl rfl rfl
      have hsound : Sound { σ with fullQueue := σ.fullQueue.filter fun x ↦ x.1 ≠ w } :=
        ⟨hnull, as, hl'⟩
      have hins := hsound.insertElement hs
      simp only [decide_eq_true_eq] at hins
      exact ⟨fun hc ↦ hins.1 (hc.resolve_left hfull), fun hn ↦ hins.2 fun hc ↦ hn (.inr hc)⟩
  | tryPushFails hfull =>
      exact ⟨fun _ ↦ ⟨hnull, as, hl⟩, fun hn ↦ absurd (Or.inl hfull) hn⟩
  | popWaits hhead =>
      -- the list is empty: the pop is counted and waits
      refine ⟨fun _ ↦ ⟨hnull, as, hl.chain, hl.alloc, hl.history, hl.last, ?_⟩, fun hn ↦
        absurd trivial hn⟩
      simp only [List.length_append, List.length_singleton]
      omega
  | @pop t hhead =>
      have hl' : Linked 1 { σ with q := { σ.q with size := σ.q.size - 1 } } as :=
        ⟨hl.chain, hl.alloc, hl.history, hl.last, by simp only; omega⟩
      obtain ⟨hb, hn⟩ := State.removeHead_linked t hl' fun e ↦ hhead (hl'.eq_nil_iff.1 e)
      exact ⟨fun _ ↦ ⟨hn.trans hnull, hb⟩, fun hn ↦ absurd trivial hn⟩
  | popWaitsAgain =>
      exact ⟨fun _ ↦ ⟨hnull, as, hl.frame rfl rfl rfl rfl rfl (by simp)⟩, fun hn ↦
        absurd trivial hn⟩
  | @resumePop t hmem hhead =>
      have hpos : 0 < σ.emptyQueue.length := List.length_pos_of_mem hmem
      have hl' : Linked 1 { σ with emptyQueue := σ.emptyQueue.erase ⟨t, true⟩ } as := by
        refine ⟨hl.chain, hl.alloc, hl.history, hl.last, ?_⟩
        simp only [List.length_erase_of_mem hmem]
        omega
      obtain ⟨hb, hn⟩ := State.removeHead_linked t hl' fun e ↦ hhead (hl'.eq_nil_iff.1 e)
      exact ⟨fun _ ↦ ⟨hn.trans hnull, hb⟩, fun hn ↦ absurd trivial hn⟩
  | tryPopFails => exact ⟨fun _ ↦ ⟨hnull, as, hl⟩, fun hn ↦ absurd trivial hn⟩
  | @tryPop t hpos =>
      have hl' : Linked 1 { σ with q := { σ.q with size := σ.q.size - 1 } } as :=
        ⟨hl.chain, hl.alloc, hl.history, hl.last, by simp only; omega⟩
      obtain ⟨hb, hn⟩ := State.removeHead_linked t hl' (hl.ne_nil_of_size_pos (by omega))
      exact ⟨fun _ ↦ ⟨hn.trans hnull, hb⟩, fun hn ↦ absurd trivial hn⟩
  | signalOne hs =>
      obtain ⟨hl', hn⟩ := State.signalOne_linked hl hs
      exact ⟨fun _ ↦ ⟨hn.trans hnull, as, hl'⟩, fun hn ↦ absurd trivial hn⟩
  | @spurious t =>
      exact ⟨fun _ ↦ ⟨hnull, as, State.wake_linked t hl⟩, fun hn ↦ absurd trivial hn⟩

/-- **The locked queue is a FIFO exactly as long as the emptiness tests of its
insertions agree with the list.**  For every capacity and every run. -/
theorem fifo_iff [Inhabited α] (c : Int) {tr : List (State T α × Label T α)} {σ : State T α}
    (h : Run step (State.queueNew c) tr σ) :
    (∀ x ∈ visited tr σ, InOrder x) ↔ ∀ p ∈ tr, TestAgrees p.1 p.2 :=
  h.forall_visited_iff (I := Sound) (sound_queueNew c)
    (fun _ _ _ hI hC hs ↦ (sound_step hI hs).1 hC) (fun _ hI ↦ hI.inOrder)
    fun _ _ _ hI hC hs ↦ (sound_step hI hs).2 hC

instance (σ : State T α) : (l : Label T α) → Decidable (TestAgrees σ l)
  | .push .. | .resumePush .. | .tryPush .. => inferInstanceAs (Decidable (_ ∨ _))
  | .pop _ | .resumePop _ | .tryPop _ | .signalOne .. | .spurious _ =>
      inferInstanceAs (Decidable True)

/-- Two poppers block on the empty queue, then two values are inserted. -/
def blockedPoppers : List (Label Nat Nat) :=
  [.pop 1, .pop 2, .tryPush 0 7 16, .signalOne 0 (some 1), .tryPush 0 8 24]

/-- **With two blocked poppers the second insertion overwrites the first**: the
locked queue is not a FIFO in every run. -/
theorem fifo_fails :
    ¬ ∀ (c : Int) (tr : List (State Nat Nat × Label Nat Nat)) (σ : State Nat Nat),
      Run step (State.queueNew c) tr σ → ∀ x ∈ visited tr σ, InOrder x := by
  intro h
  obtain ⟨σ, hσ⟩ : ∃ σ, exec step (State.queueNew (-1)) blockedPoppers = some σ := ⟨_, rfl⟩
  obtain ⟨-, as, hchain, hhist⟩ := h _ _ σ (Run.of_exec hσ) σ (by simp [visited])
  obtain rfl := Option.some.inj hσ
  -- only the second element is reachable
  obtain rfl : as = [24] := hchain.unique (.cons (by decide) .nil)
  exact absurd hhist (by decide)

/-- One insertion for the one popper that waits; the drained queue is then filled
again by the function whose test `size<=0` is right about it. -/
def handover : List (Label Nat Nat) :=
  [.pop 1, .tryPush 0 7 16, .signalOne 0 (some 1), .resumePop 1, .tryPush 0 8 16]

/-- `fifo_iff` at `handover`, where all tests agree. -/
theorem fifo_iff_handover :
    ∃ σ : State Nat Nat, exec step (State.queueNew 3) handover = some σ ∧ σ.removed = [7] ∧
      ∀ x ∈ visited (execTrace step (State.queueNew 3) handover) σ, InOrder x := by
  obtain ⟨σ, hσ⟩ : ∃ σ, exec step (State.queueNew 3) handover = some σ := ⟨_, rfl⟩
  refine ⟨σ, hσ, ?_, (fifo_iff 3 (Run.of_exec hσ)).2 (by decide)⟩
  obtain rfl := Option.some.inj hσ
  rfl

end Leda.Queue
