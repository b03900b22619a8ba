import Mathlib.Data.List.Count
import Mathlib.Data.List.Nodup

/-!
# Two parties that number the same objects

A writer and a reader go through the same objects, and each of them numbers those it enters
into a table of its own, in the order in which it enters them.  There are objects that both
enter when they are met, objects that the writer enters when it begins them and the reader
when they are complete, and objects that only the reader enters.  A `Step` says what happens
to the tables, or that the writer refers to an object by its number.

The reader understands all references if the two tables are `Aligned`: under the number that
was written it has the object that was meant.  `Consistent` is what a walk through nested
objects guarantees, and under it **the tables are aligned exactly if they are `Balanced`**
(`Consistent.aligned_iff`).  For an object that both enter at once this says that the reader
has entered as many objects by itself as the writer has; for one that the reader enters when
it is complete, what is numbered inside it counts too.
-/

universe u

namespace Leda.Lib.Tandem

/-- What happens to the two tables. -/
inductive Step (α : Type u)
  | /-- Both enter an object. -/
    both (a : α)
  | /-- The writer enters an object. -/
    write (a : α)
  | /-- The reader enters an object. -/
    read (a : α)
  | /-- The writer refers to an object by its number. -/
    again (a : α) (n : Nat)
deriving Repr, DecidableEq

variable {α : Type u}

/-- The object that the writer enters. -/
def Step.entered : Step α → Option α
  | .both a | .write a => some a
  | .read _ | .again _ _ => none

/-- The object that the reader enters. -/
def Step.registered : Step α → Option α
  | .both a | .read a => some a
  | .write _ | .again _ _ => none

/-- The table of the writer. -/
def written (t : List (Step α)) : List α := t.filterMap Step.entered

/-- The table of the reader. -/
def registered (t : List (Step α)) : List α := t.filterMap Step.registered

/-- How many objects the writer alone has entered. -/
def begun : List (Step α) → Nat
  | [] => 0
  | .write _ :: t => begun t + 1
  | _ :: t => begun t

/-- How many objects the reader alone has entered. -/
def completed : List (Step α) → Nat
  | [] => 0
  | .read _ :: t => completed t + 1
  | _ :: t => completed t

/-- **The tables are aligned**: under the number of every reference, the reader has the object
that the writer refers to. -/
def Aligned (t : List (Step α)) : Prop :=
  ∀ l r a n, t = l ++ .again a n :: r → ∃ i, n = i + 1 ∧ (registered l)[i]? = some a

/-- **The tables are balanced** where an object was entered that is referred to: before it as
many objects were completed as begun, where those inside count as completed before an object
that the reader enters when it is complete. -/
def Balanced (t : List (Step α)) : Prop :=
  ∀ l r a n, t = l ++ .again a n :: r →
    (∃ p q, l = p ++ .both a :: q ∧ completed p = begun p) ∨
      ∃ p i q, l = p ++ .write a :: (i ++ .read a :: q) ∧
        completed p + (registered i).length = begun p

/-- The steps of a walk through nested objects; `late` are those that the writer does not
enter. -/
inductive Nested (late : α → Prop) : List (Step α) → Prop
  | nil : Nested late []
  | append {t t'} (h : Nested late t) (h' : Nested late t') : Nested late (t ++ t')
  | both (a) : Nested late [.both a]
  | again (a n) : Nested late [.again a n]
  | /-- An object that both enter, the reader when it is complete. -/
    inside {t} (a) (h : Nested late t) : Nested late (.write a :: (t ++ [.read a]))
  | /-- An object that only the reader enters. -/
    late {t} {a} (ha : late a) (h : Nested late t) : Nested late (t ++ [.read a])

/-- The table of the writer as it is looked up: objects with their numbers, and the next
number. -/
structure Table (α : Type u) where
  seen : List (α × Nat)
  next : Nat

/-- Enter an object. -/
def Table.enter (T : Table α) (a : α) : Table α := ⟨(a, T.next) :: T.seen, T.next + 1⟩

/-- **A writer that looks its objects up**: it enters those that are not in the table, and
refers to an object by the number it finds. -/
inductive Writes [BEq α] : Table α → List (Step α) → Table α → Prop
  | nil (T) : Writes T [] T
  | both {T T' a t} (ha : T.seen.lookup a = none) (h : Writes (T.enter a) t T') :
      Writes T (.both a :: t) T'
  | write {T T' a t} (ha : T.seen.lookup a = none) (h : Writes (T.enter a) t T') :
      Writes T (.write a :: t) T'
  | read {T T' t} (a) (h : Writes T t T') : Writes T (.read a :: t) T'
  | again {T T' a n t} (ha : T.seen.lookup a = some n) (h : Writes T t T') :
      Writes T (.again a n :: t) T'

/-- The steps of a writer that began with an empty table. -/
structure Consistent [BEq α] (late : α → Prop) (t : List (Step α)) : Prop where
  nested : Nested late t
  writes : ∃ T, Writes ⟨[], 1⟩ t T
  /-- It enters no object that only the reader should enter. -/
  timely : ∀ a ∈ written t, ¬ late a

section

variable {t t' l p q i : List (Step α)} {a b : α} {n k : Nat} {late : α → Prop}

@[simp] theorem written_nil : written ([] : List (Step α)) = [] := rfl

@[simp] theorem registered_nil : registered ([] : List (Step α)) = [] := rfl

@[simp] theorem written_append : written (t ++ t') = written t ++ written t' :=
  List.filterMap_append

@[simp] theorem registered_append : registered (t ++ t') = registered t ++ registered t' :=
  List.filterMap_append

@[simp] theorem written_both : written (.both a :: t) = a :: written t := rfl

@[simp] theorem written_write : written (.write a :: t) = a :: written t := rfl

@[simp] theorem written_read : written (.read a :: t) = written t := rfl

@[simp] theorem written_again : written (.again a n :: t) = written t := rfl

@[simp] theorem registered_both : registered (.both a :: t) = a :: registered t := rfl

@[simp] theorem registered_write : registered (.write a :: t) = registered t := rfl

@[simp] theorem registered_read : registered (.read a :: t) = a :: registered t := rfl

@[simp] theorem registered_again : registered (.again a n :: t) = registered t := rfl

theorem mem_written : a ∈ written t ↔ .both a ∈ t ∨ .write a ∈ t := by
  induction t with
  | nil => simp
  | cons s t ih => cases s <;> simp [ih, or_assoc, or_left_comm]

theorem mem_registered : a ∈ registered t ↔ .both a ∈ t ∨ .read a ∈ t := by
  induction t with
  | nil => simp
  | cons s t ih => cases s <;> simp [ih, or_assoc, or_left_comm]

/-- The tables differ in what only one party has entered. -/
theorem length_registered (t : List (Step α)) :
    (registered t).length + begun t = (written t).length + completed t := by
  induction t with
  | nil => rfl
  | cons s t ih =>
      cases s <;>
        simp only [registered_both, registered_write, registered_read, registered_again,
          written_both, written_write, written_read, written_again, begun, completed,
          List.length_cons] <;>
        omega

@[simp] theorem begun_append : begun (t ++ t') = begun t + begun t' := by
  induction t with
  | nil => exact (Nat.zero_add _).symm
  | cons s t ih => cases s <;> simp only [List.cons_append, begun, ih, Nat.add_right_comm]

@[simp] theorem completed_append : completed (t ++ t') = completed t + completed t' := by
  induction t with
  | nil => exact (Nat.zero_add _).symm
  | cons s t ih => cases s <;> simp only [List.cons_append, completed, ih, Nat.add_right_comm]

/-- Where nobody enters anything alone, the tables are the same. -/
theorem registered_eq_written (hb : begun t = 0) (hc : completed t = 0) :
    registered t = written t := by
  induction t with
  | nil => rfl
  | cons s t ih =>
      cases s with
      | both a => rw [registered_both, written_both, ih hb hc]
      | again a n => exact ih hb hc
      | write a => cases hb
      | read a => cases hc

/-- Where the only occurrence of a value is. -/
theorem getElem?_eq_some_iff_length {x y : List α} (hx : a ∉ x) (hy : a ∉ y) :
    (x ++ a :: y)[k]? = some a ↔ k = x.length := by
  constructor
  · intro h
    rcases Nat.lt_trichotomy k x.length with hlt | heq | hlt
    · rw [List.getElem?_append_left hlt] at h
      exact absurd (List.mem_of_getElem? h) hx
    · exact heq
    · rw [List.getElem?_append_right (Nat.le_of_lt hlt)] at h
      obtain ⟨m, hm⟩ : ∃ m, k - x.length = m + 1 := ⟨k - x.length - 1, by omega⟩
      rw [hm, List.getElem?_cons_succ] at h
      exact absurd (List.mem_of_getElem? h) hy
  · rintro rfl
    rw [List.getElem?_append_right (Nat.le_refl _), Nat.sub_self]
    rfl

variable [DecidableEq α]

theorem count_written : (written t).count a = t.count (.both a) + t.count (.write a) := by
  induction t with
  | nil => rfl
  | cons s t ih => cases s <;> simp [List.count_cons, ih] <;> omega

theorem count_registered :
    (registered t).count a = t.count (.both a) + t.count (.read a) := by
  induction t with
  | nil => rfl
  | cons s t ih => cases s <;> simp [List.count_cons, ih] <;> omega

/-- **An object is completed after it was begun**, and as often. -/
theorem Nested.count_read (h : Nested late t) (ha : ¬ late a) :
    t.count (.read a) = t.count (.write a) ∧
      ∀ k, (t.take k).count (.read a) ≤ (t.take k).count (.write a) := by
  induction h with
  | nil => exact ⟨rfl, fun k ↦ by simp⟩
  | @append t t' h h' ih ih' =>
      refine ⟨by rw [List.count_append, List.count_append, ih.1, ih'.1], fun k ↦ ?_⟩
      rw [List.take_append, List.count_append, List.count_append]
      exact Nat.add_le_add (ih.2 k) (ih'.2 _)
  | both b =>
      refine ⟨by simp, fun k ↦ ?_⟩
      cases k <;> simp
  | again b n =>
      refine ⟨by simp, fun k ↦ ?_⟩
      cases k <;> simp
  | @inside t b h ih =>
      refine ⟨by simp [List.count_cons, ih.1], fun k ↦ ?_⟩
      cases k with
      | zero => simp
      | succ k =>
          have hle := ih.2 k
          rw [List.take_succ_cons, List.take_append]
          simp only [List.count_cons, List.count_append]
          by_cases hb : b = a
          · subst hb
            cases k - t.length <;> simp <;> omega
          · cases k - t.length <;> simp [hb] <;> omega
  | @late t b hb h ih =>
      have hne : b ≠ a := by
        rintro rfl
        exact ha hb
      refine ⟨by simp [ih.1, hne], fun k ↦ ?_⟩
      have hle := ih.2 k
      rw [List.take_append, List.count_append, List.count_append]
      cases k - t.length <;> simp [hne, hle]

/-! ## The writer's table -/

section Writes

variable {T T' T'' : Table α}

theorem Writes.append (h : Writes T t T') (h' : Writes T' t' T'') : Writes T (t ++ t') T'' := by
  induction h with
  | nil => exact h'
  | both ha _ ih => exact .both ha (ih h')
  | write ha _ ih => exact .write ha (ih h')
  | read a _ ih => exact .read a (ih h')
  | again ha _ ih => exact .again ha (ih h')

theorem Writes.split : ∀ {t : List (Step α)} {T : Table α}, Writes T (t ++ t') T'' →
    ∃ T', Writes T t T' ∧ Writes T' t' T''
  | [], T, h => ⟨T, .nil T, h⟩
  | _ :: t, T, h => by
      cases h with
      | both ha h =>
          obtain ⟨T', h₁, h₂⟩ := h.split
          exact ⟨T', .both ha h₁, h₂⟩
      | write ha h =>
          obtain ⟨T', h₁, h₂⟩ := h.split
          exact ⟨T', .write ha h₁, h₂⟩
      | read a h =>
          obtain ⟨T', h₁, h₂⟩ := h.split
          exact ⟨T', .read a h₁, h₂⟩
      | again ha h =>
          obtain ⟨T', h₁, h₂⟩ := h.split
          exact ⟨T', .again ha h₁, h₂⟩

/-- What the table holds. -/
theorem Writes.table (h : Writes T t T') :
    T'.seen = ((written t).zipIdx T.next).reverse ++ T.seen ∧
      T'.next = T.next + (written t).length := by
  induction h with
  | nil => exact ⟨rfl, rfl⟩
  | both _ _ ih | write _ _ ih =>
      refine ⟨?_, ?_⟩
      · rw [ih.1]
        simp [Table.enter]
      · rw [ih.2]
        simp [Table.enter]
        omega
  | read _ _ ih | again _ _ ih => exact ih

/-- No object is entered twice. -/
theorem Writes.nodup (h : Writes T t T') (hT : (T.seen.map Prod.fst).Nodup) :
    (T'.seen.map Prod.fst).Nodup := by
  have henter {T : Table α} {a : α} (ha : T.seen.lookup a = none)
      (hT : (T.seen.map Prod.fst).Nodup) : ((T.enter a).seen.map Prod.fst).Nodup := by
    refine List.nodup_cons.2 ⟨fun hm ↦ ?_, hT⟩
    obtain ⟨e, he, rfl⟩ := List.mem_map.1 hm
    simpa using List.lookup_eq_none_iff.1 ha e he
  induction h with
  | nil => exact hT
  | both ha _ ih | write ha _ ih => exact ih (henter ha hT)
  | read _ _ ih | again _ _ ih => exact ih hT

end Writes

/-! ## Aligned and balanced -/

namespace Consistent

theorem nodup (h : Consistent late t) : (written t).Nodup := by
  obtain ⟨T, hT⟩ := h.writes
  have hn := hT.nodup List.nodup_nil
  rw [hT.table.1, List.append_nil, List.map_reverse, List.zipIdx_map_fst] at hn
  exact List.nodup_reverse.1 hn

/-- The number of a reference is that of its object. -/
theorem number (h : Consistent late t) {r : List (Step α)} (ht : t = l ++ .again a n :: r) :
    ∃ k, n = k + 1 ∧ (written l)[k]? = some a := by
  obtain ⟨T, hT⟩ := h.writes
  rw [ht] at hT
  obtain ⟨T', hl, hr⟩ := hT.split
  cases hr with
  | again ha _ =>
      rw [hl.table.1, List.append_nil] at ha
      obtain ⟨x, y, hxy, -⟩ := List.lookup_eq_some_iff.1 ha
      have hm : (a, n) ∈ (written l).zipIdx 1 := by
        rw [← List.mem_reverse, hxy]
        simp
      obtain ⟨hle, hget⟩ := List.mk_mem_zipIdx_iff_le_and_getElem?_sub.1 hm
      exact ⟨n - 1, by omega, hget⟩

/-- The reader too enters an object once, unless it alone enters it. -/
theorem count_registered_le (h : Consistent late t) (ha : ¬ late a) :
    (registered t).count a ≤ 1 := by
  have hle : (written t).count a ≤ 1 := List.nodup_iff_count_le_one.1 h.nodup a
  rw [count_written] at hle
  rw [count_registered, (h.nested.count_read ha).1]
  exact hle

section Reference

variable {r : List (Step α)} (h : Consistent late t) (ht : t = l ++ .again a n :: r)
include h ht

/-- A reference is aligned if both parties had entered as many objects when they entered the
one that is meant. -/
theorem aligned_at {x y u v : List α} (hw : written l = x ++ a :: y)
    (hr : registered l = u ++ a :: v) :
    (∃ k, n = k + 1 ∧ (registered l)[k]? = some a) ↔ x.length = u.length := by
  obtain ⟨k, rfl, hk⟩ := h.number ht
  have hnodup := h.nodup
  have hcount := h.count_registered_le (h.timely a (by simp [ht, hw]))
  rw [ht, written_append, hw, List.nodup_append] at hnodup
  rw [ht, registered_append, hr, List.count_append, List.count_append,
    List.count_cons_self] at hcount
  obtain ⟨-, hay, hne⟩ := List.nodup_append.1 hnodup.1
  have hx : a ∉ x := fun hm ↦ hne a hm a List.mem_cons_self rfl
  have hu : a ∉ u := List.count_eq_zero.1 (by omega)
  have hv : a ∉ v := List.count_eq_zero.1 (by omega)
  rw [hw, getElem?_eq_some_iff_length hx (List.nodup_cons.1 hay).1] at hk
  subst hk
  rw [hr]
  constructor
  · rintro ⟨k, hk, hget⟩
    rw [Nat.succ.inj hk]
    exact (getElem?_eq_some_iff_length hu hv).1 hget
  · exact fun hlen ↦ ⟨_, rfl, (getElem?_eq_some_iff_length hu hv).2 hlen⟩

/-- An object that both parties entered at once. -/
theorem aligned_both (hl : l = p ++ .both a :: q) :
    (∃ k, n = k + 1 ∧ (registered l)[k]? = some a) ↔ completed p = begun p := by
  have hlen := length_registered p
  have hw : written l = written p ++ a :: written q := by simp [hl]
  have hr : registered l = registered p ++ a :: registered q := by simp [hl]
  rw [h.aligned_at ht hw hr]
  omega

/-- An object that the reader entered when it was complete. -/
theorem aligned_write (hl : l = p ++ .write a :: (i ++ .read a :: q)) :
    (∃ k, n = k + 1 ∧ (registered l)[k]? = some a) ↔
      completed p + (registered i).length = begun p := by
  have hlen := length_registered p
  have hw : written l = written p ++ a :: written (i ++ .read a :: q) := by simp [hl]
  have hr : registered l = (registered p ++ registered i) ++ a :: registered q := by simp [hl]
  rw [h.aligned_at ht hw hr, List.length_append]
  omega

/-- Where the reader has an object that the writer alone entered at first. -/
theorem exists_read (hw : .write a ∈ l) (hr : a ∈ registered l) :
    ∃ p i q : List (Step α), l = p ++ .write a :: (i ++ .read a :: q) := by
  have hmt : a ∈ written t := by simp [ht, mem_written.2 (.inr hw)]
  have hone : (written l).count a ≤ 1 := by
    have hn := h.nodup
    rw [ht, written_append, List.nodup_append] at hn
    exact List.nodup_iff_count_le_one.1 hn.1 a
  rw [count_written] at hone
  have hpos := List.count_pos_iff.2 hw
  have hread : .read a ∈ l := (mem_registered.1 hr).resolve_left fun hb ↦ by
    have := List.count_pos_iff.2 hb
    omega
  obtain ⟨p, q, hl⟩ := List.append_of_mem hw
  rw [hl] at hread
  rcases List.mem_append.1 hread with hp | hq
  · -- it would have been complete before it was begun
    exfalso
    obtain ⟨x, y, rfl⟩ := List.append_of_mem hp
    have hle := (h.nested.count_read (h.timely a hmt)).2 (x.length + 1)
    have hsplit : t = (x ++ [.read a]) ++ (y ++ .write a :: q ++ .again a n :: r) := by
      simp [ht, hl]
    have htake : t.take (x.length + 1) = x ++ [.read a] := by
      rw [hsplit]
      exact List.take_left' (by simp)
    rw [htake] at hle
    simp only [List.count_append, List.count_cons, List.count_nil] at hle
    rw [hl] at hone
    simp only [List.count_append, List.count_cons] at hone
    simp at hle hone
    omega
  · rcases List.mem_cons.1 hq with heq | hq
    · cases heq
    · obtain ⟨i, q', rfl⟩ := List.append_of_mem hq
      exact ⟨p, i, q', hl⟩

end Reference

/-- Parties that enter everything at once are aligned. -/
theorem aligned_of_both (h : Consistent late t) (hb : begun t = 0) (hc : completed t = 0) :
    Aligned t := by
  intro l r a n ht
  rw [ht, begun_append] at hb
  rw [ht, completed_append] at hc
  rw [registered_eq_written (Nat.eq_zero_of_add_eq_zero hb).1 (Nat.eq_zero_of_add_eq_zero hc).1]
  exact h.number ht

/-- **The tables are aligned exactly if they are balanced.** -/
theorem aligned_iff (h : Consistent late t) : Aligned t ↔ Balanced t := by
  refine forall_congr' fun l ↦ forall_congr' fun r ↦ forall_congr' fun a ↦ forall_congr' fun n ↦
    forall_congr' fun ht ↦ ⟨fun hal ↦ ?_, ?_⟩
  · obtain ⟨k, hk, hget⟩ := h.number ht
    rcases mem_written.1 (List.mem_of_getElem? hget) with hm | hm
    · obtain ⟨p, q, hl⟩ := List.append_of_mem hm
      exact .inl ⟨p, q, hl, (h.aligned_both ht hl).1 hal⟩
    · have hr : a ∈ registered l := by
        obtain ⟨k', -, hk'⟩ := hal
        exact List.mem_of_getElem? hk'
      obtain ⟨p, i, q, hl⟩ := h.exists_read ht hm hr
      exact .inr ⟨p, i, q, hl, (h.aligned_write ht hl).1 hal⟩
  · rintro (⟨p, q, hl, hb⟩ | ⟨p, i, q, hl, hb⟩)
    · exact (h.aligned_both ht hl).2 hb
    · exact (h.aligned_write ht hl).2 hb

end Consistent

end

end Leda.Lib.Tandem
