import Mathlib.Data.List.Basic
import Mathlib.Logic.Function.Basic

/-!
# Pending events over several runs

`stage:send` before a run puts its arguments into a list, and the list into the table
`pending` of the stage.  When the graph is run, `run` takes these tables out of the
stages while the graph is compiled and puts them back, `init` sends what the stages have
as `autostart`, and `leda_run` emits one event for each list.  Then it gives the stage a
new table.  So it seems: the loop ends with

    lua_pop(L,1);
    lua_newtable(L);
    lua_setfield(L,-1,"pending");

where `-1` is the new table, not the stage below it.  The new table becomes a field of
itself, the stage keeps the old one (`resetPending_eq`), and the next run emits all
lists again.

The model has the tables as objects and the end of the loop as operations on the Lua
stack.  What the lists are for is said apart from it: a list is `new` until a run, and
`old` from then on (`queue`).  The invariant is that the table of a stage holds the old
lists and the new ones (`Holds`), so a run emits both.  Hence a sequence of runs
consumes the lists, each in the first run after it was queued, if and only if there are
no old lists at any run, and every event is accepted (`consumed_iff`).
-/

namespace Leda.Process.Pending

open List

variable {S V : Type} [DecidableEq S]

/-- A graph: its stages, and what they have as `autostart`, unpacked. -/
structure Script (S V : Type) where
  stages : List S
  nodup : stages.Nodup
  autostart : S → Option V

/-- The tables that are found in `pending` fields. -/
inductive TableRef (S : Type)
  | /-- The table that `new_stage` made for the stage. -/
    ofStage (s : S)
  | /-- A table that `leda_run` made. -/
    made (n : Nat)
deriving DecidableEq

/-- The `pending` fields of the stages and these tables. -/
structure Store (S V : Type) where
  /-- `s.pending`, which may be nil. -/
  pending : S → Option (TableRef S)
  /-- The elements of a table, from `1` on. -/
  array : TableRef S → List V
  /-- The field `pending` of a table. -/
  field : TableRef S → Option (TableRef S)
  /-- How many tables were made. -/
  made : Nat

/-- The stages as `new_stage` makes them. -/
def Store.initial : Store S V where
  pending s := some (.ofStage s)
  array _ := []
  field _ := none
  made := 0

namespace Store

/-- `s.pending=p` -/
def setPending (σ : Store S V) (s : S) (p : Option (TableRef S)) : Store S V :=
  { σ with pending := Function.update σ.pending s p }

/-- `index.send`, which raises an error if `self.pending` is no table. -/
def send (σ : Store S V) (s : S) (v : V) : Store S V :=
  match σ.pending s with
  | none => σ
  | some t => { σ with array := Function.update σ.array t (σ.array t ++ [v]) }

/-! ## `run` and `init` -/

/-- `run` takes the tables out of the stages. -/
def save (σ : Store S V) : List S → List (S × TableRef S) × Store S V
  | [] => ([], σ)
  | s :: ss =>
    let (saved, σ') := save (σ.setPending s none) ss
    ((σ.pending s).toList.map (fun t ↦ (s, t)) ++ saved, σ')

/-- `run` puts them back. -/
def restore (saved : List (S × TableRef S)) (σ : Store S V) : Store S V :=
  saved.foldl (fun σ st ↦ σ.setPending st.1 (some st.2)) σ

/-- `init` sends what the stages have as `autostart`. -/
def start (c : Script S V) (order : List S) (σ : Store S V) : Store S V :=
  order.foldl (fun σ s ↦ (c.autostart s).elim σ (σ.send s)) σ

end Store

/-! ## `leda_run` -/

/-- What the loop of `leda_run` has on its stack. -/
inductive Item (S : Type)
  | stage (s : S)
  | table (t : TableRef S)

/-- An operation on the stack. -/
inductive ApiCall
  | /-- `lua_pop(L,n)` -/
    pop (n : Nat)
  | /-- `lua_newtable(L)` -/
    newtable
  | /-- `lua_setfield(L,-n,"pending")`: the value on the top becomes the field. -/
    setfield (n : Nat)

namespace ApiCall

/-- The effect on the tables and on the stack, whose top comes first. -/
def exec (σ : Store S V) (stack : List (Item S)) : ApiCall → Store S V × List (Item S)
  | pop n => (σ, stack.drop n)
  | newtable =>
    ({ σ with
        array := Function.update σ.array (.made σ.made) []
        field := Function.update σ.field (.made σ.made) none
        made := σ.made + 1 }, .table (.made σ.made) :: stack)
  | setfield n =>
    (match stack.head?, (stack.drop (n - 1)).head? with
      | some (.table v), some (.stage s) => σ.setPending s (some v)
      | some (.table v), some (.table t) => { σ with field := Function.update σ.field t (some v) }
      | _, _ => σ, stack.tail)

/-- One operation after the other. -/
def run (σ : Store S V) (stack : List (Item S)) : List ApiCall → Store S V × List (Item S)
  | [] => (σ, stack)
  | call :: calls => run (exec σ stack call).1 (exec σ stack call).2 calls

end ApiCall

/-- How the loop ends for a stage, after its lists were emitted. -/
def resetPending : List ApiCall := [.pop 1, .newtable, .setfield 1]

/-- An event that was emitted, with connector `-1`. -/
structure Emission (S V : Type) where
  dst : S
  con : Int
  args : V
deriving DecidableEq

/-- How `leda_run` ends, as far as the loop over the stages. -/
inductive Ending
  | /-- It goes on to run the graph. -/
    returned
  | /-- `luaL_error`, since an event was not accepted. -/
    raised
  | /-- `lua_next` on something that is no table. -/
    undefined
deriving DecidableEq

/-- The loop over the lists of a stage, from the list `i` on: what was emitted, and whether
all of it was accepted. -/
def emitLists (accepts : Nat → Bool) (s : S) : Nat → List V → List (Emission S V) × Bool
  | _, [] => ([], true)
  | i, v :: vs =>
    if accepts i then
      let (l, ok) := emitLists accepts s (i + 1) vs
      (⟨s, -1, v⟩ :: l, ok)
    else ([], false)

/-- The loop over the stages.  `continue` leaves the value that is no table on the stack, and
`lua_next` takes it for the key and the stage for the table of stages. -/
def emitPending (accepts : S → Nat → Bool) :
    List S → Store S V → Store S V × List (Emission S V) × Ending
  | [], σ => (σ, [], .returned)
  | s :: ss, σ =>
    match σ.pending s with
    | none => (σ, [], .undefined)
    | some t =>
      match emitLists (accepts s) s 1 (σ.array t) with
      | (l, false) => (σ, l, .raised)
      | (l, true) =>
        let (σ, _) := ApiCall.run σ [.table t, .stage s] resetPending
        let (σ, l', ending) := emitPending accepts ss σ
        (σ, l ++ l', ending)

/-! ## Runs and sends -/

/-- A run: the orders in which the loops visit the stages, and which of the emitted events
`emmit` accepts. -/
structure Launch (c : Script S V) where
  saving : List S
  starting : List S
  emitting : List S
  saving_perm : saving.Perm c.stages
  starting_perm : starting.Perm c.stages
  emitting_perm : emitting.Perm c.stages
  accepts : S → Nat → Bool

/-- What happens to the graph. -/
inductive Op (c : Script S V)
  | send (s : S) (v : V)
  | run (r : Launch c)

variable {c : Script S V}

/-- A run of the graph, up to the events that `leda_run` emits. -/
def Launch.exec (r : Launch c) (σ : Store S V) : Store S V × List (Emission S V) × Ending :=
  let (saved, σ) := σ.save r.saving
  emitPending r.accepts r.emitting ((σ.restore saved).start c r.starting)

/-- What an operation makes of the tables. -/
def exec (σ : Store S V) : Op c → Store S V
  | .send s v => σ.send s v
  | .run r => (r.exec σ).1

/-- The tables after some operations. -/
def after (ops : List (Op c)) : Store S V := ops.foldl exec .initial

/-! ## What the runs should do -/

/-- The lists that were queued, in order: those that a run has met, and the others. -/
structure Queued (S V : Type) where
  old : S → List V
  new : S → List V

/-- A send queues a new list; a run queues what `init` sends, and meets all of them. -/
def Queued.op (q : Queued S V) : Op c → Queued S V
  | .send s v => { q with new := Function.update q.new s (q.new s ++ [v]) }
  | .run _ => {
      old := fun s ↦ q.old s ++ q.new s ++ if s ∈ c.stages then (c.autostart s).toList else []
      new := fun _ ↦ [] }

/-- The lists after some operations. -/
def queue (ops : List (Op c)) : Queued S V := ops.foldl Queued.op ⟨fun _ ↦ [], fun _ ↦ []⟩

/-- What a run after these operations has to emit for a stage: the new lists. -/
def due (ops : List (Op c)) (s : S) : List V := (queue ops).new s ++ (c.autostart s).toList

/-- **Each run consumes the lists that were queued since the one before**: it emits them, for
each stage in the order in which they were queued, and no others. -/
def Consumed (ops : List (Op c)) : Prop :=
  ∀ pre r post, ops = pre ++ Op.run r :: post →
    (r.exec (after pre)).2.2 = .returned ∧ ∀ s ∈ c.stages,
      ((r.exec (after pre)).2.1.filter fun e ↦ e.dst = s).map Emission.args = due pre s

/-- At each run there are no old lists, and all events are accepted. -/
def OnlyNew (ops : List (Op c)) : Prop :=
  ∀ pre r post, ops = pre ++ Op.run r :: post → ∀ s ∈ c.stages,
    (queue pre).old s = [] ∧ ∀ i, 1 ≤ i → i ≤ (due pre s).length → r.accepts s i

/-! ## What the loops do -/

section Loops

variable {σ : Store S V} {s : S} {t : TableRef S} {order : List S}

/-- **The new table becomes a field of itself**: the stage below it is not touched. -/
theorem resetPending_eq : ApiCall.run σ [.table t, .stage s] resetPending =
    ({ σ with
        array := Function.update σ.array (.made σ.made) []
        field := Function.update (Function.update σ.field (.made σ.made) none) (.made σ.made)
          (some (.made σ.made))
        made := σ.made + 1 }, [.stage s]) := rfl

omit [DecidableEq S] in
theorem emitLists_eq {accepts : Nat → Bool} {i : Nat} {l : List V}
    (h : ∀ j, i ≤ j → j < i + l.length → accepts j) :
    emitLists accepts s i l = (l.map (Emission.mk s (-1)), true) := by
  induction l generalizing i with
  | nil => rfl
  | cons v l ih =>
      have hi := h i (Nat.le_refl i) (by simp)
      have hl := ih (i := i + 1) fun j hj hlt ↦ h j (by omega) (by simp at hlt ⊢; omega)
      rw [emitLists, if_pos hi, hl]
      rfl

omit [DecidableEq S] in
/-- If a list is not accepted, the loop says so. -/
theorem emitLists_snd {accepts : Nat → Bool} {i : Nat} {l : List V} :
    (emitLists accepts s i l).2 = true ↔ ∀ j, i ≤ j → j < i + l.length → accepts j := by
  induction l generalizing i with
  | nil =>
      simp only [emitLists, length_nil, Nat.add_zero, true_iff]
      omega
  | cons v l ih =>
      rw [emitLists]
      by_cases hi : accepts i
      · rw [if_pos hi]
        change (emitLists accepts s (i + 1) l).2 = true ↔ _
        rw [ih]
        constructor
        · intro h j hj hlt
          rcases Nat.eq_or_lt_of_le hj with rfl | hj
          · exact hi
          · exact h j hj (by simp at hlt; omega)
        · exact fun h j hj hlt ↦ h j (by omega) (by simp; omega)
      · rw [if_neg hi]
        refine ⟨fun h ↦ by simp at h, fun h ↦ absurd (h i (Nat.le_refl i) (by simp)) hi⟩

/-- Every stage has the table it was made with. -/
def Own (σ : Store S V) : Prop := ∀ s, σ.pending s = some (.ofStage s)

/-- The lists in these tables. -/
def lists (σ : Store S V) (s : S) : List V := σ.array (.ofStage s)

theorem send_eq (h : Own σ) (v : V) : Own (σ.send s v) ∧
    lists (σ.send s v) = Function.update (lists σ) s (lists σ s ++ [v]) := by
  have hs : σ.send s v = { σ with
      array := Function.update σ.array (.ofStage s) (σ.array (.ofStage s) ++ [v]) } := by
    rw [Store.send, h s]
  rw [hs]
  refine ⟨h, funext fun s' ↦ ?_⟩
  by_cases hs' : s' = s
  · subst hs'
    simp [lists]
  · simp [lists, hs']

theorem setPending_setPending (p q : Option (TableRef S)) :
    (σ.setPending s p).setPending s q = σ.setPending s q := by
  simp [Store.setPending]

theorem setPending_self : σ.setPending s (σ.pending s) = σ := by
  simp [Store.setPending]

/-- What is saved of a stage is what it has. -/
theorem pending_of_mem_save (h : (s, t) ∈ (σ.save order).1) : σ.pending s = some t := by
  induction order generalizing σ with
  | nil => cases h
  | cons s' ss ih =>
      rcases mem_append.1 h with h | h
      · obtain ⟨t', ht', heq⟩ := mem_map.1 h
        obtain ⟨rfl, rfl⟩ := Prod.mk.inj heq
        exact Option.mem_toList.1 ht'
      · have hs := ih h
        by_cases hss : s = s'
        · subst hss
          simp [Store.setPending] at hs
        · simpa [Store.setPending, hss] using hs

theorem restore_setPending {saved : List (S × TableRef S)} {p : Option (TableRef S)}
    (h : ∀ t, (s, t) ∉ saved) :
    (σ.setPending s p).restore saved = (σ.restore saved).setPending s p := by
  induction saved generalizing σ with
  | nil => rfl
  | cons st saved ih =>
      have hne : st.1 ≠ s := by
        rintro rfl
        exact h st.2 mem_cons_self
      have hcomm : (σ.setPending s p).setPending st.1 (some st.2) =
          (σ.setPending st.1 (some st.2)).setPending s p := by
        simp only [Store.setPending]
        rw [Function.update_comm hne.symm]
      change Store.restore saved ((σ.setPending s p).setPending st.1 (some st.2)) = _
      rw [hcomm]
      exact ih fun t ht ↦ h t (mem_cons_of_mem _ ht)

/-- What `run` takes out of the stages it puts back. -/
theorem restore_save : (σ.save order).2.restore (σ.save order).1 = σ := by
  induction order generalizing σ with
  | nil => rfl
  | cons s ss ih =>
      have hss := ih (σ := σ.setPending s none)
      have hnot : ∀ t, (s, t) ∉ ((σ.setPending s none).save ss).1 := by
        intro t ht
        have hs := pending_of_mem_save ht
        simp [Store.setPending] at hs
      cases hp : σ.pending s with
      | none =>
          have hself := setPending_self (σ := σ) (s := s)
          rw [hp] at hself
          rw [hself] at hss
          simpa [Store.save, hp, hself] using hss
      | some t =>
          have hself := setPending_self (σ := σ) (s := s)
          rw [hp] at hself
          simp only [Store.save, hp, Option.toList_some, map_cons, map_nil, singleton_append]
          change Store.restore _ (Store.setPending _ s (some t)) = σ
          rw [restore_setPending hnot, hss, setPending_setPending, hself]

/-- `init` queues a list for each stage with an `autostart` field. -/
theorem start_eq (h : Own σ) (hn : order.Nodup) : Own (σ.start c order) ∧
    lists (σ.start c order) = fun s ↦
      lists σ s ++ if s ∈ order then (c.autostart s).toList else [] := by
  induction order generalizing σ with
  | nil => exact ⟨h, by simp [Store.start]⟩
  | cons s ss ih =>
      obtain ⟨hs, hn⟩ := nodup_cons.1 hn
      have hstep : Own ((c.autostart s).elim σ (σ.send s)) ∧
          lists ((c.autostart s).elim σ (σ.send s)) =
            Function.update (lists σ) s (lists σ s ++ (c.autostart s).toList) := by
        cases c.autostart s with
        | none => exact ⟨h, by simp⟩
        | some v => exact send_eq h v
      obtain ⟨hown, hlists⟩ := ih hstep.1 hn
      refine ⟨hown, hlists.trans (funext fun s' ↦ ?_)⟩
      rw [hstep.2]
      by_cases hs' : s' = s
      · subst hs'
        simp [hs]
      · simp [hs']

/-- The store is left with the tables that it had. -/
theorem run_resetPending (h : Own σ) (t : TableRef S) (s : S) :
    Own (ApiCall.run σ [.table t, .stage s] resetPending).1 ∧
      lists (ApiCall.run σ [.table t, .stage s] resetPending).1 = lists σ := by
  rw [resetPending_eq]
  have hne : ∀ s' : S, TableRef.ofStage s' ≠ .made σ.made := by simp
  exact ⟨h, funext fun s' ↦ Function.update_of_ne (hne s') [] σ.array⟩

/-- **The loop emits all lists of the stages, and leaves them where they are.** -/
theorem emitPending_spec (accepts : S → Nat → Bool) (h : Own σ) (order : List S) :
    (Own (emitPending accepts order σ).1 ∧ lists (emitPending accepts order σ).1 = lists σ) ∧
    ((emitPending accepts order σ).2.2 = .returned ↔
      ∀ s ∈ order, ∀ i, 1 ≤ i → i ≤ (lists σ s).length → accepts s i) ∧
    ((emitPending accepts order σ).2.2 = .returned → (emitPending accepts order σ).2.1 =
      order.flatMap fun s ↦ (lists σ s).map (Emission.mk s (-1))) := by
  induction order generalizing σ with
  | nil => exact ⟨⟨h, rfl⟩, by simp [emitPending], fun _ ↦ rfl⟩
  | cons s ss ih =>
      have hlist : σ.array (.ofStage s) = lists σ s := rfl
      have hsnd : (emitLists (accepts s) s 1 (lists σ s)).2 = true ↔
          ∀ i, 1 ≤ i → i ≤ (lists σ s).length → accepts s i := by
        rw [emitLists_snd]
        exact forall₂_congr fun i _ ↦ by rw [Nat.add_comm, Nat.lt_succ_iff]
      rw [emitPending, h s]
      dsimp only
      rw [hlist]
      cases he : emitLists (accepts s) s 1 (lists σ s) with
      | mk l ok =>
          rw [he] at hsnd
          cases ok with
          | false =>
              refine ⟨⟨h, rfl⟩, ⟨fun hr ↦ (by cases hr), fun hall ↦ ?_⟩, fun hr ↦ (by cases hr)⟩
              exact absurd (hsnd.2 (hall s mem_cons_self)) (by simp)
          | true =>
              have hacc := hsnd.1 rfl
              have hl : l = (lists σ s).map (Emission.mk s (-1)) := by
                have heq : emitLists (accepts s) s 1 (lists σ s) = _ :=
                  emitLists_eq fun j hj hlt ↦ hacc j hj (by omega)
                rw [he] at heq
                exact (Prod.mk.inj heq).1
              obtain ⟨hown, hlists⟩ := run_resetPending h (.ofStage s) s
              obtain ⟨hstore, hret, hlog⟩ := ih hown
              rw [hlists] at hstore hret hlog
              refine ⟨hstore, ?_, fun hr ↦ ?_⟩
              · rw [forall_mem_cons]
                exact hret.trans ⟨fun hall ↦ ⟨hacc, hall⟩, And.right⟩
              · rw [flatMap_cons, ← hl, ← hlog hr]

end Loops

/-! ## What a sequence of runs does -/

variable {ops pre : List (Op c)} {σ : Store S V} {q : Queued S V}

/-- **The invariant**: a stage has the table it was made with, and in it all lists that were
ever queued. -/
structure Holds (q : Queued S V) (σ : Store S V) : Prop where
  own : Own σ
  lists : lists σ = fun s ↦ q.old s ++ q.new s

/-- The store that `leda_run` finds. -/
def Launch.prepared (r : Launch c) (σ : Store S V) : Store S V :=
  ((σ.save r.saving).2.restore (σ.save r.saving).1).start c r.starting

theorem Holds.prepared (h : Holds q σ) (r : Launch c) : Own (r.prepared σ) ∧
    Pending.lists (r.prepared σ) = fun s ↦
      q.old s ++ q.new s ++ if s ∈ c.stages then (c.autostart s).toList else [] := by
  have hn : r.starting.Nodup := r.starting_perm.nodup_iff.2 c.nodup
  rw [Launch.prepared, restore_save]
  obtain ⟨hown, hlists⟩ := start_eq (c := c) h.own hn
  refine ⟨hown, hlists.trans (funext fun s ↦ ?_)⟩
  rw [h.lists]
  simp only [r.starting_perm.mem_iff]

theorem Holds.exec (h : Holds q σ) (op : Op c) : Holds (q.op op) (exec σ op) := by
  cases op with
  | send s v =>
      obtain ⟨hown, hlists⟩ := send_eq (s := s) h.own v
      refine ⟨hown, hlists.trans (funext fun s' ↦ ?_)⟩
      rw [h.lists]
      by_cases hs : s' = s
      · subst hs
        simp [Queued.op]
      · simp [Queued.op, hs]
  | run r =>
      obtain ⟨hown, hlists⟩ := h.prepared r
      obtain ⟨hstore, -⟩ := emitPending_spec r.accepts hown r.emitting
      refine ⟨hstore.1, hstore.2.trans (hlists.trans (funext fun s ↦ ?_))⟩
      simp [Queued.op]

/-- A run of operations keeps the invariant. -/
theorem holds_after (ops : List (Op c)) : Holds (queue ops) (after ops) := by
  suffices h : ∀ (q : Queued S V) (σ : Store S V), Holds q σ →
      Holds (ops.foldl Queued.op q) (ops.foldl Pending.exec σ) from
    h _ _ ⟨fun _ ↦ rfl, rfl⟩
  induction ops with
  | nil => exact fun _ _ h ↦ h
  | cons op ops ih => exact fun _ _ h ↦ ih _ _ (h.exec op)

/-- What a loop over different stages emits for one of them. -/
theorem filter_flatMap_emission {order : List S} (hn : order.Nodup) {s : S} (hs : s ∈ order)
    (f : S → List V) :
    ((order.flatMap fun s ↦ (f s).map (Emission.mk s (-1))).filter fun e ↦ e.dst = s).map
      Emission.args = f s := by
  have hother : ∀ l : List S, s ∉ l →
      ((l.flatMap fun s ↦ (f s).map (Emission.mk s (-1))).filter fun e ↦ e.dst = s) = [] := by
    intro l hl
    rw [filter_eq_nil_iff]
    intro e he
    obtain ⟨s', hs', he⟩ := mem_flatMap.1 he
    obtain ⟨v, -, rfl⟩ := mem_map.1 he
    have hne : s' ≠ s := fun heq ↦ hl (heq ▸ hs')
    simpa using hne
  induction order with
  | nil => cases hs
  | cons s' ss ih =>
      obtain ⟨hs', hn⟩ := nodup_cons.1 hn
      rw [flatMap_cons, filter_append, map_append]
      rcases mem_cons.1 hs with rfl | hs
      · rw [hother ss hs', filter_eq_self.2 (by simp)]
        simp [Function.comp_def]
      · have hne : s' ≠ s := fun heq ↦ hs' (heq ▸ hs)
        have hnil : ((f s').map (Emission.mk s' (-1))).filter (fun e ↦ e.dst = s) = [] := by
          simp [filter_eq_nil_iff, hne]
        rw [hnil, map_nil, nil_append]
        exact ih hn hs

/-- **What a run emits**: the old lists and the new ones. -/
theorem exec_spec (pre : List (Op c)) (r : Launch c) :
    ((r.exec (after pre)).2.2 = .returned ↔ ∀ s ∈ c.stages, ∀ i, 1 ≤ i →
      i ≤ ((queue pre).old s ++ due pre s).length → r.accepts s i) ∧
    ((r.exec (after pre)).2.2 = .returned → ∀ s ∈ c.stages,
      ((r.exec (after pre)).2.1.filter fun e ↦ e.dst = s).map Emission.args =
        (queue pre).old s ++ due pre s) := by
  obtain ⟨hown, hlists⟩ := (holds_after pre).prepared r
  obtain ⟨-, hret, hlog⟩ := emitPending_spec r.accepts hown r.emitting
  have hexec : r.exec (after pre) = emitPending r.accepts r.emitting (r.prepared (after pre)) := rfl
  have hl : ∀ s ∈ c.stages, lists (r.prepared (after pre)) s =
      (queue pre).old s ++ due pre s := by
    intro s hs
    rw [hlists]
    simp [due, hs]
  rw [hexec]
  constructor
  · rw [hret]
    constructor
    · intro hall s hs i hi hle
      exact hall s (r.emitting_perm.mem_iff.2 hs) i hi (by rwa [hl s hs])
    · intro hall s hs i hi hle
      have hs := r.emitting_perm.mem_iff.1 hs
      exact hall s hs i hi (by rwa [← hl s hs])
  · intro hr s hs
    rw [hlog hr, filter_flatMap_emission (r.emitting_perm.nodup_iff.2 c.nodup)
      (r.emitting_perm.mem_iff.2 hs), hl s hs]

/-- **The runs consume the lists exactly if** at each of them there are no lists that an
earlier run has met, and all events are accepted. -/
theorem consumed_iff (ops : List (Op c)) : Consumed ops ↔ OnlyNew ops := by
  refine forall_congr' fun pre ↦ forall_congr' fun r ↦ forall₂_congr fun post hops ↦ ?_
  obtain ⟨hret, hlog⟩ := exec_spec pre r
  constructor
  · rintro ⟨hr, hdue⟩ s hs
    have hold : (queue pre).old s = [] := by
      have heq := (hlog hr s hs).symm.trans (hdue s hs)
      simpa using heq
    have hacc := hret.1 hr s hs
    rw [hold, nil_append] at hacc
    exact ⟨hold, hacc⟩
  · intro h
    have hr : (r.exec (after pre)).2.2 = .returned := by
      refine hret.2 fun s hs ↦ ?_
      rw [(h s hs).1, nil_append]
      exact (h s hs).2
    refine ⟨hr, fun s hs ↦ ?_⟩
    rw [hlog hr s hs, (h s hs).1, nil_append]

/-! ## The second run -/

/-- One stage. -/
def single : Script Unit Nat where
  stages := [()]
  nodup := by simp
  autostart _ := none

/-- A run in which all events are accepted. -/
def launch : Launch single where
  saving := [()]
  starting := [()]
  emitting := [()]
  saving_perm := .refl _
  starting_perm := .refl _
  emitting_perm := .refl _
  accepts _ _ := true

/-- **The second run emits the list again.** -/
theorem not_consumed : ¬ Consumed [Op.send () 7, Op.run launch, Op.run launch] := by
  intro h
  have hlast := (h [.send () 7, .run launch] launch [] rfl).2 () (mem_singleton_self _)
  revert hlast
  decide

end Leda.Process.Pending
