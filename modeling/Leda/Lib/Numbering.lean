import Leda.Lib.Xfer
import Mathlib.Data.List.Dedup
import Mathlib.Data.List.Perm.Subperm
import Mathlib.Data.List.Range
import Mathlib.Data.Set.Function
import Mathlib.Order.Interval.Set.Defs
import Mathlib.Algebra.Group.Nat.Defs

/-!
# Numbered objects

A table of ids gives each of some objects a number below their count, and an array
holds one entry for each object, at its number.  `fill` is the loop that builds such
an array: it goes through the objects in any order and either makes the table on the
way, giving the numbers in that order, or takes the numbers from a table it was given.
Writing outside the array crashes, and so does reading a slot that was not written.

The table is right if its keys are the objects and its numbers are `0, …, n - 1`, each
once (`Numbers`).  Both ways of filling then give an array with a right entry for every
object and no empty slot (`fill_new`, `fill_known`).  Two arrays filled from tables that
correspond under a map of the objects agree slot by slot (`Filled.forall₂`).
-/

namespace Leda.Lib

variable {α β E F : Type}

/-- A table from objects to numbers. -/
abbrev Ids (α : Type) := List (α × Nat)

/-- The table gives the objects the numbers below their count, each one. -/
structure Numbers (ids : Ids α) (objs : List α) : Prop where
  /-- The objects have no duplicates. -/
  nodup : objs.Nodup
  /-- The keys of the table. -/
  keys : (ids.map Prod.fst).Perm objs
  /-- Its values. -/
  values : (ids.map Prod.snd).Perm (List.range objs.length)

/-- Fill a slot; outside the array it is undefined what happens. -/
def place (arr : List (Option E)) (i : Nat) (e : E) : Xfer (List (Option E)) :=
  if i < arr.length then .ok (arr.set i (some e)) else .crash

/-- Fill the slots from `i` on with the entries of the objects, numbering them. -/
def fillNew (entry : α → Xfer E) :
    List α → Nat → Ids α → List (Option E) → Xfer (Ids α × List (Option E))
  | [], _, ids, arr => .ok (ids, arr)
  | a :: t, i, ids, arr => do
      let e ← entry a
      let arr ← place arr i e
      fillNew entry t (i + 1) (ids ++ [(a, i)]) arr

namespace Numbers

variable {ids : Ids α} {objs : List α} {a b : α} {i : Nat}

theorem perm {objs' : List α} (h : Numbers ids objs) (hp : objs.Perm objs') :
    Numbers ids objs' where
  nodup := hp.nodup_iff.1 h.nodup
  keys := h.keys.trans hp
  values := by
    rw [← hp.length_eq]
    exact h.values

/-- A table keeps its numbers when the objects are renamed. -/
theorem map {f : α → β} {ids' : Ids β} (h : Numbers ids objs) (hf : (objs.map f).Nodup)
    (hp : ids'.Perm (ids.map (Prod.map f id))) : Numbers ids' (objs.map f) where
  nodup := hf
  keys := by
    refine (hp.map Prod.fst).trans ?_
    have := h.keys.map f
    rwa [List.map_map] at this ⊢
  values := by
    refine (hp.map Prod.snd).trans ?_
    rw [List.map_map, List.length_map]
    exact h.values

variable [DecidableEq α]

/-- With every key once, the table is a function. -/
theorem lookup_eq_some (h : Numbers ids objs) : ids.lookup a = some i ↔ (a, i) ∈ ids := by
  rw [List.lookup_eq_some_iff]
  constructor
  · rintro ⟨l₁, l₂, rfl, -⟩
    simp
  · intro hm
    obtain ⟨l₁, l₂, rfl⟩ := List.append_of_mem hm
    refine ⟨l₁, l₂, rfl, fun p hp ↦ ?_⟩
    have hn := h.keys.nodup_iff.2 h.nodup
    rw [List.map_append, List.nodup_append] at hn
    have hne := hn.2.2 p.1 (List.mem_map_of_mem hp) a (by simp)
    simpa using fun e ↦ hne e.symm

theorem isSome_lookup (h : Numbers ids objs) : (ids.lookup a).isSome ↔ a ∈ objs := by
  rw [Option.isSome_iff_exists, ← h.keys.mem_iff]
  simp [h.lookup_eq_some]

end Numbers

/-! ## Reading the table -/

section Get

variable [DecidableEq α] {ids : Ids α} {objs : List α} {a b : α} {i : Nat}

/-- The number of an object; one that the table does not have counts as `0`. -/
def Ids.get (ids : Ids α) (a : α) : Nat := (ids.lookup a).getD 0

/-- Fill the slots that the table gives with the entries of the objects. -/
def fillKnown (entry : α → Xfer E) (ids : Ids α) :
    List α → List (Option E) → Xfer (List (Option E))
  | [], arr => .ok arr
  | a :: t, arr => do
      let e ← entry a
      let arr ← place arr (ids.get a) e
      fillKnown entry ids t arr

/-- The loop in both modes, on an array of `n` slots: without a table it makes one. -/
def fill (ids : Option (Ids α)) (n : Nat) (entry : α → Xfer E) (objs : List α) :
    Xfer (Ids α × List (Option E)) :=
  match ids with
  | none => fillNew entry objs 0 [] (List.replicate n none)
  | some ids => do
      let arr ← fillKnown entry ids objs (List.replicate n none)
      .ok (ids, arr)

/-- Change the entries of the objects, which have to be there. -/
def revisit (ids : Ids α) (f : α → E → E) :
    List α → List (Option E) → Xfer (List (Option E))
  | [], arr => .ok arr
  | a :: t, arr =>
    match arr[ids.get a]? with
    | some (some e) => do
        let arr ← place arr (ids.get a) (f a e)
        revisit ids f t arr
    | _ => .crash

namespace Numbers

theorem get_eq (h : Numbers ids objs) (hm : (a, i) ∈ ids) : ids.get a = i := by
  rw [Ids.get, h.lookup_eq_some.2 hm]
  rfl

theorem mem_get (h : Numbers ids objs) (ha : a ∈ objs) : (a, ids.get a) ∈ ids := by
  obtain ⟨i, hi⟩ := Option.isSome_iff_exists.1 (h.isSome_lookup.2 ha)
  have hm := h.lookup_eq_some.1 hi
  rwa [h.get_eq hm]

theorem get_lt (h : Numbers ids objs) (ha : a ∈ objs) : ids.get a < objs.length := by
  have hm := List.mem_map_of_mem (f := Prod.snd) (h.mem_get ha)
  exact List.mem_range.1 (h.values.mem_iff.1 hm)

theorem get_inj (h : Numbers ids objs) (ha : a ∈ objs) (hb : b ∈ objs)
    (he : ids.get a = ids.get b) : a = b := by
  have hinj := List.inj_on_of_nodup_map (h.values.nodup_iff.2 List.nodup_range)
  exact congrArg Prod.fst (hinj (h.mem_get ha) (h.mem_get hb) he)

theorem exists_get (h : Numbers ids objs) (hi : i < objs.length) :
    ∃ a ∈ objs, ids.get a = i := by
  have hm := h.values.mem_iff.2 (List.mem_range.2 hi)
  obtain ⟨⟨a, i⟩, hp, rfl⟩ := List.mem_map.1 hm
  exact ⟨a, h.keys.mem_iff.1 (List.mem_map_of_mem hp), h.get_eq hp⟩

/-- **The numbers are a bijection from the objects onto `0, …, n - 1`.** -/
theorem bijOn (h : Numbers ids objs) :
    Set.BijOn ids.get {a | a ∈ objs} (Set.Iio objs.length) :=
  ⟨fun _ ↦ h.get_lt, fun _ ha _ hb ↦ h.get_inj ha hb, fun _ ↦ h.exists_get⟩

/-- Renamed objects have the numbers of the objects. -/
theorem get_map [DecidableEq β] {f : α → β} {ids' : Ids β} (h : Numbers ids objs)
    (hf : (objs.map f).Nodup) (hp : ids'.Perm (ids.map (Prod.map f id))) (ha : a ∈ objs) :
    ids'.get (f a) = ids.get a :=
  (h.map hf hp).get_eq (hp.mem_iff.2 (List.mem_map.2 ⟨_, h.mem_get ha, rfl⟩))

end Numbers

/-! ## Filling an array -/

/-- Every object has an entry at its number that is right for it, and there is no other
slot. -/
structure Filled (ids : Ids α) (R : α → E → Prop) (objs : List α) (arr : List (Option E)) :
    Prop where
  /-- The number of slots. -/
  length : arr.length = objs.length
  /-- The slots. -/
  slot : ∀ a ∈ objs, ∃ e, R a e ∧ arr[ids.get a]? = some (some e)

variable {entry : α → Xfer E} {R Q : α → E → Prop} {s : List (Option E)}

theorem place_eq_ok {e : E} (h : i < s.length) : place s i e = .ok (s.set i (some e)) :=
  if_pos h

/-- Entries that are right in one sense may be so in another. -/
theorem Filled.mono (h : Filled ids R objs s) (hR : ∀ a ∈ objs, ∀ e, R a e → Q a e) :
    Filled ids Q objs s where
  length := h.length
  slot a ha := (h.slot a ha).imp fun e ⟨he, hs⟩ ↦ ⟨hR a ha e he, hs⟩

theorem Filled.perm {objs' : List α} (h : Filled ids R objs s) (hp : objs.Perm objs') :
    Filled ids R objs' s where
  length := h.length.trans hp.length_eq
  slot a ha := h.slot a (hp.mem_iff.2 ha)

/-- Each slot is the slot of an object. -/
theorem Filled.exists_slot (h : Filled ids R objs s) (hn : Numbers ids objs)
    (hi : i < s.length) : ∃ a ∈ objs, ids.get a = i ∧ ∃ e, R a e ∧ s[i]? = some (some e) := by
  obtain ⟨a, ha, rfl⟩ := hn.exists_get (h.length ▸ hi)
  exact ⟨a, ha, rfl, h.slot a ha⟩

/-- No slot is empty. -/
theorem Filled.isSome (h : Filled ids R objs s) (hn : Numbers ids objs) :
    ∀ o ∈ s, o.isSome := by
  intro o ho
  obtain ⟨i, hi, rfl⟩ := List.mem_iff_getElem.1 ho
  obtain ⟨a, -, -, e, -, hs⟩ := h.exists_slot hn hi
  rw [List.getElem?_eq_getElem hi] at hs
  rw [Option.some.inj hs]
  rfl

/-- The loop that makes the table, after the objects of `u`. -/
theorem fillNew_eq_ok {u : List α} (hn : (u ++ objs).Nodup)
    (hbefore : Numbers ids u) (hentry : ∀ a ∈ objs, ∃ e, entry a = .ok e)
    (hlen : s.length = (u ++ objs).length)
    (hslot : ∀ a ∈ u, ∃ e, entry a = .ok e ∧ s[ids.get a]? = some (some e)) :
    ∃ ids' arr', fillNew entry objs u.length ids s = .ok (ids', arr') ∧
      Numbers ids' (u ++ objs) ∧
        Filled ids' (fun a e ↦ entry a = .ok e) (u ++ objs) arr' := by
  induction objs generalizing u ids s with
  | nil =>
      rw [List.append_nil] at hlen ⊢
      exact ⟨ids, s, rfl, hbefore, hlen, hslot⟩
  | cons a t ih =>
      obtain ⟨e, he⟩ := hentry a List.mem_cons_self
      have hlt : u.length < s.length := by
        rw [hlen, List.length_append, List.length_cons]
        omega
      have happ : u ++ a :: t = (u ++ [a]) ++ t := by simp
      rw [happ] at hn hlen ⊢
      have hnew : Numbers (ids ++ [(a, u.length)]) (u ++ [a]) := by
        refine ⟨(List.nodup_append.1 hn).1, ?_, ?_⟩
        · rw [List.map_append]
          exact hbefore.keys.append_right _
        · rw [List.map_append, List.length_append, List.length_singleton, List.range_succ]
          exact hbefore.values.append_right _
      have hstep := ih hn hnew (fun b hb ↦ hentry b (List.mem_cons_of_mem _ hb))
        (s := s.set u.length (some e)) (by rw [List.length_set, hlen]) ?_
      · rw [fillNew, he, Xfer.ok_bind, place_eq_ok hlt, Xfer.ok_bind]
        rwa [List.length_append, List.length_singleton] at hstep
      · intro b hb
        rcases List.mem_append.1 hb with hb | hb
        · -- the objects before keep their number, which is not the new one
          have hget : Ids.get (ids ++ [(a, u.length)]) b = ids.get b :=
            hnew.get_eq (List.mem_append_left _ (hbefore.mem_get hb))
          obtain ⟨e', he', hs⟩ := hslot b hb
          refine ⟨e', he', ?_⟩
          rwa [hget, List.getElem?_set_ne (Nat.ne_of_gt (hbefore.get_lt hb))]
        · obtain rfl := List.mem_singleton.1 hb
          refine ⟨e, he, ?_⟩
          rw [hnew.get_eq (List.mem_append_right _ (List.mem_singleton_self _)),
            List.getElem?_set_self hlt]

/-- **Without a table, the loop numbers the objects and fills the array.** -/
theorem fill_new (hn : objs.Nodup) (hentry : ∀ a ∈ objs, ∃ e, entry a = .ok e) :
    ∃ ids s, fill none objs.length entry objs = .ok (ids, s) ∧ Numbers ids objs ∧
      Filled ids (fun a e ↦ entry a = .ok e) objs s :=
  fillNew_eq_ok (u := []) hn ⟨List.nodup_nil, .nil, .nil⟩ hentry (List.length_replicate)
    (by simp)

/-- The loop that uses a table: slots of other objects stay as they are. -/
theorem fillKnown_eq_ok {all : List α} (h : Numbers ids all) (hsub : ∀ a ∈ objs, a ∈ all)
    (hn : objs.Nodup) (hentry : ∀ a ∈ objs, ∃ e, entry a = .ok e)
    (hlen : s.length = all.length) :
    ∃ arr', fillKnown entry ids objs s = .ok arr' ∧ arr'.length = all.length ∧
      (∀ a ∈ objs, ∃ e, entry a = .ok e ∧ arr'[ids.get a]? = some (some e)) ∧
      ∀ a ∈ all, a ∉ objs → arr'[ids.get a]? = s[ids.get a]? := by
  induction objs generalizing s with
  | nil => exact ⟨s, rfl, hlen, by simp, fun _ _ _ ↦ rfl⟩
  | cons a t ih =>
      obtain ⟨e, he⟩ := hentry a List.mem_cons_self
      have ha := hsub a List.mem_cons_self
      have hlt : ids.get a < s.length := hlen ▸ h.get_lt ha
      have hnt := List.nodup_cons.1 hn
      obtain ⟨arr', hr, hl, hs, hf⟩ := ih (s := s.set (ids.get a) (some e))
        (fun b hb ↦ hsub b (List.mem_cons_of_mem _ hb)) hnt.2
        (fun b hb ↦ hentry b (List.mem_cons_of_mem _ hb)) (by rw [List.length_set, hlen])
      refine ⟨arr', ?_, hl, fun b hb ↦ ?_, fun b hb hbn ↦ ?_⟩
      · rw [fillKnown, he, Xfer.ok_bind, place_eq_ok hlt, Xfer.ok_bind, hr]
      · rcases List.mem_cons.1 hb with rfl | hb
        · exact ⟨e, he, by rw [hf b ha hnt.1, List.getElem?_set_self hlt]⟩
        · exact hs b hb
      · have hbt : b ∉ t := fun hm ↦ hbn (List.mem_cons_of_mem _ hm)
        have hne : ids.get a ≠ ids.get b := by
          intro heq
          obtain rfl := h.get_inj ha hb heq
          exact hbn List.mem_cons_self
        rw [hf b hb hbt, List.getElem?_set_ne hne]

/-- **With a table, the loop fills the array in the order of the table.** -/
theorem fill_known (h : Numbers ids objs) (hentry : ∀ a ∈ objs, ∃ e, entry a = .ok e) :
    ∃ s, fill (some ids) objs.length entry objs = .ok (ids, s) ∧
      Filled ids (fun a e ↦ entry a = .ok e) objs s := by
  obtain ⟨s, hr, hl, hs, -⟩ := fillKnown_eq_ok h (fun _ ↦ id) h.nodup hentry
    (s := List.replicate objs.length none) List.length_replicate
  exact ⟨s, by rw [fill, hr, Xfer.ok_bind], hl, hs⟩

/-- **The loop in either mode**, over the objects in any order: the table is the one it
was given, if any. -/
theorem fill_eq_ok (entry : α → Xfer E) {known : Option (Ids α)} {order : List α}
    (h : ∀ ids, known = some ids → Numbers ids objs) (hp : order.Perm objs) (hn : objs.Nodup)
    (hentry : ∀ a ∈ objs, ∃ e, entry a = .ok e) :
    ∃ ids s, fill known objs.length entry order = .ok (ids, s) ∧ Numbers ids objs ∧
      Filled ids (fun a e ↦ entry a = .ok e) objs s ∧ ∀ ids', known = some ids' → ids = ids' := by
  have hentry' : ∀ a ∈ order, ∃ e, entry a = .ok e := fun a ha ↦ hentry a (hp.mem_iff.1 ha)
  cases known with
  | none =>
      obtain ⟨ids, s, hr, hids, hf⟩ := fill_new (hp.nodup_iff.2 hn) hentry'
      rw [hp.length_eq] at hr
      exact ⟨ids, s, hr, hids.perm hp, hf.perm hp, fun _ h ↦ by cases h⟩
  | some ids =>
      obtain ⟨s, hr, hf⟩ := fill_known ((h ids rfl).perm hp.symm) hentry'
      rw [hp.length_eq] at hr
      exact ⟨ids, s, hr, h ids rfl, hf.perm hp, fun _ h ↦ Option.some.inj h⟩

/-- A second loop over some of the objects changes their entries. -/
theorem revisit_eq_ok {f : α → E → E} {all : List α} (h : Numbers ids all)
    (hsub : ∀ a ∈ objs, a ∈ all) (hn : objs.Nodup) (hlen : s.length = all.length)
    (hslot : ∀ a ∈ objs, ∃ e, R a e ∧ s[ids.get a]? = some (some e)) :
    ∃ arr', revisit ids f objs s = .ok arr' ∧ arr'.length = all.length ∧
      (∀ a ∈ objs, ∃ e, R a e ∧ arr'[ids.get a]? = some (some (f a e))) ∧
      ∀ a ∈ all, a ∉ objs → arr'[ids.get a]? = s[ids.get a]? := by
  induction objs generalizing s with
  | nil => exact ⟨s, rfl, hlen, by simp, fun _ _ _ ↦ rfl⟩
  | cons a t ih =>
      obtain ⟨e, he, hs⟩ := hslot a List.mem_cons_self
      have ha := hsub a List.mem_cons_self
      have hlt : ids.get a < s.length := hlen ▸ h.get_lt ha
      have hnt := List.nodup_cons.1 hn
      have hne : ∀ b ∈ all, b ≠ a → ids.get a ≠ ids.get b :=
        fun b hb hba heq ↦ hba (h.get_inj ha hb heq).symm
      obtain ⟨arr', hr, hl, hs', hf⟩ := ih (s := s.set (ids.get a) (some (f a e)))
        (fun b hb ↦ hsub b (List.mem_cons_of_mem _ hb)) hnt.2 (by rw [List.length_set, hlen])
        fun b hb ↦ by
          have hba : b ≠ a := fun heq ↦ hnt.1 (heq ▸ hb)
          have hb' := List.mem_cons_of_mem a hb
          rw [List.getElem?_set_ne (hne b (hsub b hb') hba)]
          exact hslot b hb'
      refine ⟨arr', ?_, hl, fun b hb ↦ ?_, fun b hb hbn ↦ ?_⟩
      · simp only [Lib.revisit, hs, place_eq_ok hlt, Xfer.ok_bind, hr]
      · rcases List.mem_cons.1 hb with rfl | hb
        · exact ⟨e, he, by rw [hf b ha hnt.1, List.getElem?_set_self hlt]⟩
        · exact hs' b hb
      · have hbt : b ∉ t := fun hm ↦ hbn (List.mem_cons_of_mem _ hm)
        have hba : b ≠ a := by
          rintro rfl
          exact hbn List.mem_cons_self
        rw [hf b hb hbt, List.getElem?_set_ne (hne b hb hba)]

/-- **A second loop over all objects leaves a filled array.** -/
theorem Filled.revisit {f : α → E → E} (hf : Filled ids R objs s) (h : Numbers ids objs)
    (hR : ∀ a ∈ objs, ∀ e, R a e → Q a (f a e)) :
    ∃ arr', Lib.revisit ids f objs s = .ok arr' ∧ Filled ids Q objs arr' := by
  obtain ⟨arr', hr, hl, hs, -⟩ := revisit_eq_ok (f := f) h (fun _ ↦ id) h.nodup hf.length hf.slot
  refine ⟨arr', hr, hl, fun a ha ↦ ?_⟩
  obtain ⟨e, he, hs⟩ := hs a ha
  exact ⟨f a e, hR a ha e he, hs⟩

/-- **Arrays of corresponding objects agree slot by slot**, as far as the entries of an
object and of its image do. -/
theorem Filled.forall₂ [DecidableEq β] {f : α → β} {ids' : Ids β} {Q : β → F → Prop}
    {arr' : List (Option F)} {T : E → F → Prop} (hn : Numbers ids objs)
    (hf : Filled ids R objs s) (hf' : Filled ids' Q (objs.map f) arr')
    (hget : ∀ a ∈ objs, ids'.get (f a) = ids.get a)
    (hT : ∀ a ∈ objs, ∀ e e', R a e → Q (f a) e' → T e e') :
    List.Forall₂ (Option.Rel T) s arr' := by
  have hlen : s.length = arr'.length := by rw [hf.length, hf'.length, List.length_map]
  refine List.forall₂_iff_get.2 ⟨hlen, fun i hi hi' ↦ ?_⟩
  obtain ⟨a, ha, rfl, e, he, hs⟩ := hf.exists_slot hn hi
  obtain ⟨e', he', hs'⟩ := hf'.slot (f a) (List.mem_map_of_mem ha)
  rw [hget a ha] at hs'
  have hget₁ : s.get ⟨ids.get a, hi⟩ = some e := List.getElem_eq_iff hi |>.2 hs
  have hget₂ : arr'.get ⟨ids.get a, hi'⟩ = some e' := List.getElem_eq_iff hi' |>.2 hs'
  rw [hget₁, hget₂]
  exact .some (hT a ha e e' he he')

/-! ## Filling with a table of some of the objects -/

/-- The array has a slot for each object and none of them is empty, and the objects have
different numbers. -/
structure Complete (ids : Ids α) (objs : List α) (arr : List (Option E)) : Prop where
  /-- The number of slots. -/
  length : arr.length = objs.length
  /-- No slot is empty. -/
  full : ∀ o ∈ arr, o.isSome
  /-- No two objects share a slot. -/
  injOn : Set.InjOn ids.get {a | a ∈ objs}

/-- The new objects are old ones, or there was none and there is at most one. -/
def HarmlessGrowth (old objs : List α) : Prop :=
  (∀ a ∈ objs, a ∈ old) ∨ old = [] ∧ objs.length ≤ 1

/-- An object that the table does not have counts as number `0`. -/
theorem Numbers.get_eq_zero (h : Numbers ids objs) (ha : a ∉ objs) : ids.get a = 0 := by
  have hnone : ids.lookup a = none := by
    rw [← Option.not_isSome_iff_eq_none, h.isSome_lookup]
    exact ha
  rw [Ids.get, hnone]
  rfl

/-- **A table of old objects tells the objects apart exactly if the growth is harmless.** -/
theorem Numbers.injOn_iff {old : List α} (h : Numbers ids old) (hsub : ∀ a ∈ old, a ∈ objs)
    (hn : objs.Nodup) : Set.InjOn ids.get {a | a ∈ objs} ↔ HarmlessGrowth old objs := by
  constructor
  · intro hinj
    by_cases hall : ∀ a ∈ objs, a ∈ old
    · exact .inl hall
    · obtain ⟨b, hb⟩ := not_forall.1 hall
      obtain ⟨hb, hbn⟩ := Classical.not_imp.1 hb
      refine .inr ⟨?_, ?_⟩
      · -- otherwise an old object has the number `0` that the new one reads
        by_contra hne
        obtain ⟨a, ha, hzero⟩ := h.exists_get (List.length_pos_iff.2 hne)
        have heq := hinj (hsub a ha) hb (hzero.trans (h.get_eq_zero hbn).symm)
        exact hbn (heq ▸ ha)
      · by_contra hlen
        obtain ⟨a, c, hac, ha, hc⟩ : ∃ a c, a ≠ c ∧ a ∈ objs ∧ c ∈ objs := by
          match objs, hn, hlen with
          | a :: c :: t, hn, _ =>
              refine ⟨a, c, ?_, by simp, by simp⟩
              rintro rfl
              simp at hn
          | [], _, hlen => simp at hlen
          | [_], _, hlen => simp at hlen
        have hne : ∀ d ∈ objs, d ∈ old → False := by
          intro d hd hdo
          obtain ⟨e, he, hzero⟩ := h.exists_get (List.length_pos_of_mem hdo)
          have heq := hinj (hsub e he) hb (hzero.trans (h.get_eq_zero hbn).symm)
          exact hbn (heq ▸ he)
        exact hac (hinj ha hc ((h.get_eq_zero (hne a ha)).trans (h.get_eq_zero (hne c hc)).symm))
  · rintro (hall | ⟨rfl, hlen⟩)
    · exact fun a ha c hc heq ↦ h.get_inj (hall a ha) (hall c hc) heq
    · intro a ha c hc _
      match objs, hlen, ha, hc with
      | [d], _, ha, hc => rw [List.mem_singleton.1 ha, List.mem_singleton.1 hc]

/-- No number is out of the array. -/
theorem Numbers.get_lt_of_mem {old : List α} (h : Numbers ids old)
    (hsub : ∀ a ∈ old, a ∈ objs) (ha : a ∈ objs) : ids.get a < objs.length := by
  by_cases ho : a ∈ old
  · have hle : old.length ≤ objs.length := (List.subperm_of_subset h.nodup hsub).length_le
    exact Nat.lt_of_lt_of_le (h.get_lt ho) hle
  · rw [h.get_eq_zero ho]
    exact List.length_pos_of_mem ha

/-- Setting a slot to an entry leaves the other slots as empty as they were. -/
theorem getElem?_set_eq_none {j : Nat} {e : E} :
    (s.set j (some e))[i]? = some none ↔ s[i]? = some none ∧ j ≠ i := by
  by_cases hj : j = i
  · subst hj
    rw [List.getElem?_set_self']
    cases s[j]? <;> simp
  · rw [List.getElem?_set_ne hj]
    simp [hj]

/-- The loop that uses a table leaves those slots empty that no object has. -/
theorem fillKnown_slots (hentry : ∀ a ∈ objs, ∃ e, entry a = .ok e)
    (hlt : ∀ a ∈ objs, ids.get a < s.length) :
    ∃ arr', fillKnown entry ids objs s = .ok arr' ∧ arr'.length = s.length ∧
      ∀ i : Nat, arr'[i]? = some none ↔ s[i]? = some none ∧ ∀ a ∈ objs, ids.get a ≠ i := by
  induction objs generalizing s with
  | nil => exact ⟨s, rfl, rfl, by simp⟩
  | cons a t ih =>
      obtain ⟨e, he⟩ := hentry a List.mem_cons_self
      obtain ⟨arr', hr, hl, hs⟩ := ih (s := s.set (ids.get a) (some e))
        (fun b hb ↦ hentry b (List.mem_cons_of_mem _ hb))
        fun b hb ↦ by
          rw [List.length_set]
          exact hlt b (List.mem_cons_of_mem _ hb)
      refine ⟨arr', ?_, by rw [hl, List.length_set], fun i ↦ ?_⟩
      · rw [fillKnown, he, Xfer.ok_bind, place_eq_ok (hlt a List.mem_cons_self), Xfer.ok_bind, hr]
      · rw [hs, getElem?_set_eq_none, List.forall_mem_cons, and_assoc]

/-- A second loop empties no slot. -/
theorem revisit_slots {f : α → E → E}
    (hslot : ∀ a ∈ objs, ids.get a < s.length ∧ s[ids.get a]? ≠ some none) :
    ∃ arr', Lib.revisit ids f objs s = .ok arr' ∧ arr'.length = s.length ∧
      ∀ i : Nat, arr'[i]? = some none ↔ s[i]? = some none := by
  induction objs generalizing s with
  | nil => exact ⟨s, rfl, rfl, fun _ ↦ Iff.rfl⟩
  | cons a t ih =>
      obtain ⟨hlt, hne⟩ := hslot a List.mem_cons_self
      obtain ⟨e, he⟩ : ∃ e, s[ids.get a]? = some (some e) := by
        cases hs : s[ids.get a]? with
        | none => exact absurd (List.getElem?_eq_none_iff.1 hs) (Nat.not_le.2 hlt)
        | some o =>
            cases o with
            | none => exact absurd hs hne
            | some e => exact ⟨e, rfl⟩
      obtain ⟨arr', hr, hl, hs⟩ := ih (s := s.set (ids.get a) (some (f a e))) fun b hb ↦ by
        obtain ⟨hltb, hneb⟩ := hslot b (List.mem_cons_of_mem _ hb)
        refine ⟨by rwa [List.length_set], fun hnone ↦ hneb (getElem?_set_eq_none.1 hnone).1⟩
      refine ⟨arr', ?_, by rw [hl, List.length_set], fun i ↦ ?_⟩
      · simp only [Lib.revisit, he, place_eq_ok hlt, Xfer.ok_bind, hr]
      · rw [hs, getElem?_set_eq_none]
        constructor
        · exact And.left
        · refine fun hnone ↦ ⟨hnone, ?_⟩
          rintro rfl
          exact hne hnone

/-- An array whose empty slots are those that no object has is complete exactly if the
objects have different numbers. -/
theorem complete_iff_injOn (hn : objs.Nodup) (hlen : s.length = objs.length)
    (hlt : ∀ a ∈ objs, ids.get a < objs.length)
    (hs : ∀ i < s.length, s[i]? = some none ↔ ∀ a ∈ objs, ids.get a ≠ i) :
    Complete ids objs s ↔ Set.InjOn ids.get {a | a ∈ objs} := by
  refine ⟨Complete.injOn, fun hinj ↦ ⟨hlen, fun o ho ↦ ?_, hinj⟩⟩
  -- as many different numbers as there are slots are all of them
  have hperm : (objs.map ids.get).Perm (List.range objs.length) := by
    refine (List.subperm_of_subset (hn.map_on hinj) ?_).perm_of_length_le (by simp)
    intro i hi
    obtain ⟨a, ha, rfl⟩ := List.mem_map.1 hi
    exact List.mem_range.2 (hlt a ha)
  obtain ⟨i, hi, rfl⟩ := List.mem_iff_getElem.1 ho
  obtain ⟨a, ha, hai⟩ := List.mem_map.1 (hperm.mem_iff.2 (List.mem_range.2 (hlen ▸ hi)))
  cases hnone : s[i] with
  | none =>
      have hempty := (hs i hi).1 (by rw [List.getElem?_eq_getElem hi, hnone])
      exact absurd hai (hempty a ha)
  | some e => rfl

/-- **An array filled with a table of old objects is complete exactly if the growth is
harmless.** -/
theorem Numbers.complete_iff {old : List α} (h : Numbers ids old) (hsub : ∀ a ∈ old, a ∈ objs)
    (hn : objs.Nodup) (hlen : s.length = objs.length)
    (hs : ∀ i < s.length, s[i]? = some none ↔ ∀ a ∈ objs, ids.get a ≠ i) :
    Complete ids objs s ↔ HarmlessGrowth old objs := by
  rw [complete_iff_injOn hn hlen (fun _ ↦ h.get_lt_of_mem hsub) hs, h.injOn_iff hsub hn]

/-- **The loop with a table of old objects** fills the slots that the objects have. -/
theorem fill_grown {old order : List α} (entry : α → Xfer E) (h : Numbers ids old)
    (hsub : ∀ a ∈ old, a ∈ objs) (hp : order.Perm objs)
    (hentry : ∀ a ∈ objs, ∃ e, entry a = .ok e) :
    ∃ arr, fill (some ids) objs.length entry order = .ok (ids, arr) ∧
      arr.length = objs.length ∧
      ∀ i < arr.length, arr[i]? = some none ↔ ∀ a ∈ objs, ids.get a ≠ i := by
  have hlt : ∀ a ∈ order, ids.get a < (List.replicate objs.length (none : Option E)).length := by
    intro a ha
    rw [List.length_replicate]
    exact h.get_lt_of_mem hsub (hp.mem_iff.1 ha)
  obtain ⟨arr, hr, hl, hs⟩ := fillKnown_slots (fun a ha ↦ hentry a (hp.mem_iff.1 ha)) hlt
  rw [List.length_replicate] at hl
  refine ⟨arr, by rw [fill, hr, Xfer.ok_bind], hl, fun i hi ↦ ?_⟩
  rw [hs, List.getElem?_replicate_of_lt (hl ▸ hi)]
  simp [hp.mem_iff]

/-- The loop ends well only if every object has an entry. -/
theorem entry_of_fillKnown {arr : List (Option E)} (h : fillKnown entry ids objs s = .ok arr) :
    ∀ a ∈ objs, ∃ e, entry a = .ok e := by
  induction objs generalizing s with
  | nil => simp
  | cons a t ih =>
      obtain ⟨e, he, h⟩ := Xfer.bind_eq_ok.1 h
      obtain ⟨s', -, h⟩ := Xfer.bind_eq_ok.1 h
      exact List.forall_mem_cons.2 ⟨⟨e, he⟩, ih h⟩

omit [DecidableEq α] in
/-- The table that the loop makes numbers the objects. -/
theorem numbers_of_fillNew {u : List α} {ids' : Ids α} {arr : List (Option E)}
    (h : fillNew entry objs u.length ids s = .ok (ids', arr)) (hu : Numbers ids u)
    (hn : (u ++ objs).Nodup) : Numbers ids' (u ++ objs) := by
  induction objs generalizing u ids s with
  | nil =>
      cases h
      rwa [List.append_nil]
  | cons a t ih =>
      obtain ⟨e, -, h⟩ := Xfer.bind_eq_ok.1 h
      obtain ⟨s', -, h⟩ := Xfer.bind_eq_ok.1 h
      have happ : u ++ a :: t = (u ++ [a]) ++ t := by simp
      rw [happ] at hn ⊢
      have hlen : (u ++ [a]).length = u.length + 1 := List.length_append
      rw [← hlen] at h
      refine ih h ⟨(List.nodup_append.1 hn).1, ?_, ?_⟩ hn
      · rw [List.map_append]
        exact hu.keys.append_right _
      · rw [List.map_append, List.length_append, List.length_singleton, List.range_succ]
        exact hu.values.append_right _

/-- The table of a loop that ended well numbers the objects, if the table it was given does. -/
theorem numbers_of_fill {known : Option (Ids α)} {order : List α} {n : Nat}
    {arr : List (Option E)} (h : fill known n entry order = .ok (ids, arr))
    (hk : ∀ ids, known = some ids → Numbers ids objs) (hp : order.Perm objs)
    (hn : objs.Nodup) : Numbers ids objs := by
  cases known with
  | none => exact (numbers_of_fillNew (u := []) h ⟨List.nodup_nil, .nil, .nil⟩
      (hp.nodup_iff.2 hn)).perm hp
  | some ids' =>
      obtain ⟨arr', -, h⟩ := Xfer.bind_eq_ok.1 h
      cases h
      exact hk ids rfl

end Get

end Leda.Lib
