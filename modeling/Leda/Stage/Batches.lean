import Mathlib.Data.List.Induction

/-!
# The sliding and the spatial window

Both stages collect events in a table and push it when it holds as many as `size` says.  Then
the sliding window takes the oldest event out, and the spatial window starts with an empty
table.  The stages are serial, so the table belongs to one instance at a time.  If the push
raises an error the instance is destroyed, and the next one starts with an empty table as well.

What is pushed are the windows of the stream of events: each begins one event after the last one,
or where that ended, or where a push that failed ended, and no window is left out
(`windows_eq`).  If `size` is not a positive number nothing is ever pushed, and the table
grows with every event.
-/

namespace Leda.Stage.Batches

open List

universe u

variable {E : Type u}

/-- The two stages. -/
inductive Kind
  | sliding
  | spatial
deriving Repr, DecidableEq

/-- What is left in the table after a push: `table.remove(events,1)` or `events={}`. -/
def Kind.advance : Kind → List E → List E
  | .sliding, events => events.tail
  | .spatial, _ => []

/-- How far the next window is from the last one. -/
def Kind.stride (n : Nat) : Kind → Nat
  | .sliding => 1
  | .spatial => n

/-- The upvalue `events` of the handler, and what was pushed. -/
structure Window (E : Type u) where
  events : List E
  pushed : List (List E)
deriving Repr, DecidableEq

/-- The handler, for an event.  `size` is `self.size` if that is a natural number, and `raised`
says which calls of `leda.push` raise an error. -/
def handler (kind : Kind) (size : Option Nat) (raised : Nat → Bool) (σ : Window E) (ev : E) :
    Window E :=
  let events := σ.events ++ [ev]
  if some events.length = size then
    { events := if raised σ.pushed.length then [] else kind.advance events
      pushed := σ.pushed ++ [events] }
  else { σ with events }

/-- A stream of events. -/
def run (kind : Kind) (size : Option Nat) (raised : Nat → Bool) (es : List E) : Window E :=
  es.foldl (handler kind size raised) ⟨[], []⟩

/-- Where the `k`-th window starts. -/
def start (kind : Kind) (n : Nat) (raised : Nat → Bool) : Nat → Nat
  | 0 => 0
  | k + 1 => start kind n raised k + if raised k then n else kind.stride n

/-- **The windows of a stream**, with how many there are. -/
structure Windows (kind : Kind) (n : Nat) (raised : Nat → Bool) (es : List E) (σ : Window E) :
    Prop where
  pushed : σ.pushed = (range σ.pushed.length).map fun k ↦
    (es.drop (start kind n raised k)).take n
  /-- They lie in the stream. -/
  inside : ∀ k < σ.pushed.length, start kind n raised k + n ≤ es.length
  /-- The events after the last one are in the table. -/
  events : σ.events = es.drop (start kind n raised σ.pushed.length)
  le : start kind n raised σ.pushed.length ≤ es.length
  /-- And are too few for another one. -/
  complete : es.length < start kind n raised σ.pushed.length + n

section

variable {kind : Kind} {n : Nat} {raised : Nat → Bool} {es : List E} {σ : Window E}

theorem stride_pos (kind : Kind) (hn : 0 < n) : 0 < kind.stride n := by
  cases kind with
  | sliding => exact Nat.one_pos
  | spatial => exact hn

theorem stride_le (kind : Kind) (hn : 0 < n) : kind.stride n ≤ n := by
  cases kind with
  | sliding => exact hn
  | spatial => exact Nat.le_refl n

theorem advance_eq_drop {events : List E} (h : events.length = n) :
    kind.advance events = events.drop (kind.stride n) := by
  cases kind with
  | sliding => exact drop_one.symm
  | spatial => exact (drop_eq_nil_of_le (Nat.le_of_eq h)).symm

/-- The windows that lie in a stream lie in a longer one. -/
theorem take_drop_append {i : Nat} (ev : E) (h : i + n ≤ es.length) :
    ((es ++ [ev]).drop i).take n = (es.drop i).take n := by
  rw [drop_append_of_le_length (by omega), take_append_of_le_length (by rw [length_drop]; omega)]

/-- One more event. -/
theorem Windows.handler (hn : 0 < n) (h : Windows kind n raised es σ) (ev : E) :
    Windows kind n raised (es ++ [ev]) (handler kind (some n) raised σ ev) := by
  have hevents : σ.events ++ [ev] = (es ++ [ev]).drop (start kind n raised σ.pushed.length) := by
    rw [h.events, drop_append_of_le_length h.le]
  have hlen : (σ.events ++ [ev]).length =
      es.length + 1 - start kind n raised σ.pushed.length := by
    rw [hevents, length_drop, length_append, length_singleton]
  have hle := h.le
  have hlt := h.complete
  -- the windows that were pushed before
  have hold : σ.pushed = (range σ.pushed.length).map fun k ↦
      ((es ++ [ev]).drop (start kind n raised k)).take n := by
    rw [h.pushed, length_map, length_range]
    refine map_congr_left fun k hk ↦ ?_
    rw [take_drop_append ev (h.inside k (mem_range.1 hk))]
  unfold Batches.handler
  by_cases hfull : some (σ.events ++ [ev]).length = some n
  · have hn' : (σ.events ++ [ev]).length = n := Option.some.inj hfull
    have hend : start kind n raised σ.pushed.length + n = es.length + 1 := by omega
    have hpos := stride_pos kind hn
    have hstride := stride_le kind hn
    rw [if_pos hfull]
    refine ⟨?_, fun k hk ↦ ?_, ?_, ?_, ?_⟩
    · rw [length_append, length_singleton, range_succ, map_append, ← hold, map_singleton, ← hevents,
        take_of_length_le (Nat.le_of_eq hn')]
    · rw [length_append, length_singleton] at hk ⊢
      rcases Nat.lt_succ_iff_lt_or_eq.1 hk with hk | rfl
      · exact Nat.le_succ_of_le (h.inside k hk)
      · exact Nat.le_of_eq hend
    · simp only [length_append, length_singleton, start]
      split
      · exact (drop_eq_nil_of_le (by simp only [length_append, length_singleton]; omega)).symm
      · rw [advance_eq_drop hn', hevents, drop_drop]
    all_goals
      simp only [length_append, length_singleton, start]
      split <;> omega
  · rw [if_neg hfull]
    have hne : (σ.events ++ [ev]).length ≠ n := fun he ↦ hfull (congrArg some he)
    refine ⟨hold, fun k hk ↦ ?_, hevents, ?_, ?_⟩
    · rw [length_append]
      exact Nat.le_add_right_of_le (h.inside k hk)
    all_goals
      simp only [length_append, length_singleton]
      omega

theorem windows_run (hn : 0 < n) (es : List E) :
    Windows kind n raised es (run kind (some n) raised es) := by
  induction es using reverseRecOn with
  | nil => exact ⟨rfl, by simp [run], rfl, Nat.le_refl 0, by simpa [run, start] using hn⟩
  | append_singleton es ev ih =>
      rw [run, foldl_append]
      exact ih.handler hn ev

/-- Otherwise nothing is pushed. -/
theorem run_eq (size : Option Nat) (h : ∀ n, size = some n → n = 0) (es : List E) :
    run kind size raised es = ⟨es, []⟩ := by
  induction es using reverseRecOn with
  | nil => rfl
  | append_singleton es ev ih =>
      have hrun : run kind size raised (es ++ [ev]) =
          handler kind size raised (run kind size raised es) ev := by
        rw [run, foldl_append]
        rfl
      rw [hrun, ih, handler, if_neg]
      intro he
      have h0 := h _ he.symm
      simp at h0

/-- **What is pushed are the windows of the stream**, all of them and nothing else, whichever
pushes fail; and nothing if `size` is not a positive number. -/
theorem windows_eq (kind : Kind) (size : Option Nat) (raised : Nat → Bool) (es : List E) :
    (∀ n, 0 < n → size = some n → Windows kind n raised es (run kind size raised es)) ∧
    ((∀ n, size = some n → n = 0) → run kind size raised es = ⟨es, []⟩) := by
  refine ⟨?_, fun h ↦ run_eq size h es⟩
  rintro n hn rfl
  exact windows_run hn es

end

/-- Windows of two events; the second push fails. -/
theorem windows_eq_five : (run .sliding (some 2) (fun k ↦ k == 1) [1, 2, 3, 4, 5]).pushed =
    [[1, 2], [2, 3], [4, 5]] := by
  have h := ((windows_eq .sliding (some 2) (fun k ↦ k == 1) [1, 2, 3, 4, 5]).1 2 (by decide)
    rfl).pushed
  exact h

end Leda.Stage.Batches
