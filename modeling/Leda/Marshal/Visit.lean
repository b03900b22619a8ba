import Leda.Lib.Tandem
import Leda.Marshal.Written

/-!
# What the encoder visits

`mar_encode_value` and `mar_decode_value` each keep a number for the next object.  The
encoder enters a table or function when it begins to write it, a userdata too, and a table
with a `__persist` hook never; the decoder enters a table or function when it begins to read
it, and whatever a hook has rebuilt when it is complete.

A `Visit` is the tree that is written together with the objects it was written for, and
`VisitOf` says which it is: erasing the objects leaves the tree of the wire format
(`VisitOf.codeOf`), and every tree that is written comes from a visit (`CodeOf.visitOf`).
What happens to the two numberings is `Visit.steps`, and **the steps of an encoding are those
of a writer that looks its objects up** (`VisitOf.consistent`), so the theory of two parties
that number the same objects applies.
-/

namespace Leda.Marshal

open Leda.Lib Leda.Lua

/-- Trees that stand for no object. -/
def Code.isData : Code → Bool
  | .nil _ | .boolean _ | .lightuserdata _ | .number _ | .string _ => true
  | _ => false

mutual

/-- An encoded value, with the objects that were encoded. -/
inductive Visit
  | data (c : {c : Code // c.isData = true})
  | /-- A reference to an object that has this number. -/
    again (k : Kind) (a n : Nat)
  | table (a : Nat) (es : Visits)
  | function (a : Nat) (dump : List UInt8) (ups : Visits)
  | /-- What the hook of an object returned. -/
    hook (k : Kind) (a : Nat) (es : Visits)

/-- An encoded table, with the objects. -/
inductive Visits
  | nil
  | cons (k v : Visit) (rest : Visits)

end

mutual

/-- The tree that is written. -/
def Visit.code : Visit → Code
  | .data c => c.1
  | .again k _ n => .ref k (BitVec.ofNat 32 n)
  | .table _ es => .table es.codes
  | .function _ dump ups => .function tval dump ups.codes
  | .hook k _ es => .hook k es.codes

@[inherit_doc Visit.code]
def Visits.codes : Visits → Codes
  | .nil => .nil
  | .cons k v rest => .cons k.code v.code rest.codes

end

mutual

/-- What happens to the numberings.  A userdata is numbered by the encoder before what its
hook returned is written, and a table with a hook not at all; the decoder numbers both after
they were rebuilt. -/
def Visit.steps : Visit → List (Tandem.Step Nat)
  | .data _ => []
  | .again _ a n => [.again a n]
  | .table a es => .both a :: es.steps
  | .function a _ ups => .both a :: ups.steps
  | .hook .userdata a es => .write a :: (es.steps ++ [.read a])
  | .hook _ a es => es.steps ++ [.read a]

@[inherit_doc Visit.steps]
def Visits.steps : Visits → List (Tandem.Step Nat)
  | .nil => []
  | .cons k v rest => k.steps ++ (v.steps ++ rest.steps)

end

section

variable (hooks : Hooks) (lua52 nowrap : Bool)

mutual

/-- The visit of a value by the encoder. -/
inductive VisitOf : Value → Enc → Visit → Enc → Prop
  | nil {st} : VisitOf .nil st (.data ⟨.nil false, rfl⟩) st
  | boolean {b st} : VisitOf (.boolean b) st (.data ⟨.boolean (if b then 1 else 0), rfl⟩) st
  | lightuserdata {p st} (h : nowrap = false) :
      VisitOf (.lightuserdata p) st (.data ⟨.lightuserdata p, rfl⟩) st
  | number {n st} : VisitOf (.number n) st (.data ⟨.number n, rfl⟩) st
  | string {s st} : VisitOf (.string s) st (.data ⟨.string s, rfl⟩) st
  | dangling {a st} (ho : st.heap[a]? = none) :
      VisitOf (.object a) st (.data ⟨.nil false, rfl⟩) st
  | again {a o k n st} (ho : st.heap[a]? = some o) (hk : kindOf o = some k)
      (hs : st.seen.lookup a = some n) : VisitOf (.object a) st (.again k a n) st
  | table {a t es st st'} (ho : st.heap[a]? = some (.table t)) (hs : st.seen.lookup a = none)
      (hp : t.persist = none) (hes : VisitsOf t.entries (st.record a) es st') :
      VisitOf (.object a) st (.table a es) st'
  | function {a f ups st st'} (ho : st.heap[a]? = some (.function f))
      (hs : st.seen.lookup a = none) (hw : f.what = .lua)
      (hes : VisitsOf (upvalueTable lua52 f) (st.record a) ups st') :
      VisitOf (.object a) st (.function a f.dump ups) st'
  | persist {a t f r es st st₁ st'} (ho : st.heap[a]? = some (.table t))
      (hs : st.seen.lookup a = none) (hp : t.persist = some f)
      (hc : callHook hooks "__persist" f a st = .ok (r, st₁))
      (hes : VisitsOf [(.ofNat 1, r)] st₁ es st') :
      VisitOf (.object a) st (.hook .table a es) st'
  | wrap {a u f r es name st st₁ st'} (ho : st.heap[a]? = some (.userdata u))
      (hs : st.seen.lookup a = none)
      (hu : (if nowrap then none else u.wrap) = some f ∧ name = "__wrap" ∨
        (if nowrap then none else u.wrap) = none ∧ u.persist = some f ∧ name = "__persist")
      (hc : callHook hooks name f a (st.record a) = .ok (r, st₁))
      (hes : VisitsOf [(.ofNat 1, r)] st₁ es st') :
      VisitOf (.object a) st (.hook .userdata a es) st'

/-- The visit of the pairs of a table. -/
inductive VisitsOf : List (Value × Value) → Enc → Visits → Enc → Prop
  | nil {st} : VisitsOf [] st .nil st
  | cons {k v rest wk wv wrest st st₁ st₂ st'} (hk : VisitOf k st wk st₁)
      (hv : VisitOf v st₁ wv st₂) (hrest : VisitsOf rest st₂ wrest st') :
      VisitsOf ((k, v) :: rest) st (.cons wk wv wrest) st'

end

end

section

variable {hooks : Hooks} {lua52 nowrap : Bool} {h : Heap} {st st' : Enc} {v : Value}
  {w : Visit}

mutual

/-- Erasing the objects leaves the tree that is written. -/
theorem VisitOf.codeOf {v : Value} {st : Enc} {w : Visit} {st' : Enc} :
    VisitOf hooks lua52 nowrap v st w st' → CodeOf hooks lua52 nowrap v st w.code st'
  | .nil => .nil
  | .boolean => .boolean
  | .lightuserdata h => .lightuserdata h
  | .number => .number
  | .string => .string
  | .dangling ho => .dangling ho
  | .again ho hk hs => .ref ho hk hs
  | .table ho hs hp hes => .table ho hs hp hes.codesOf
  | .function ho hs hw hes => .function ho hs hw hes.codesOf
  | .persist ho hs hp hc hes => .persist ho hs hp hc hes.codesOf
  | .wrap ho hs hu hc hes => .wrap ho hs hu hc hes.codesOf

theorem VisitsOf.codesOf {entries : List (Value × Value)} {st : Enc} {es : Visits} {st' : Enc} :
    VisitsOf hooks lua52 nowrap entries st es st' →
      CodesOf hooks lua52 nowrap entries st es.codes st'
  | .nil => .nil
  | .cons hk hv hrest => .cons hk.codeOf hv.codeOf hrest.codesOf

end

mutual

/-- Every tree that is written comes from a visit. -/
theorem CodeOf.visitOf {v : Value} {st : Enc} {c : Code} {st' : Enc} :
    CodeOf hooks lua52 nowrap v st c st' →
      ∃ w : Visit, VisitOf hooks lua52 nowrap v st w st' ∧ w.code = c
  | .nil => ⟨_, .nil, rfl⟩
  | .boolean => ⟨_, .boolean, rfl⟩
  | .lightuserdata h => ⟨_, .lightuserdata h, rfl⟩
  | .number => ⟨_, .number, rfl⟩
  | .string => ⟨_, .string, rfl⟩
  | .dangling ho => ⟨_, .dangling ho, rfl⟩
  | .ref ho hk hs => ⟨_, .again ho hk hs, rfl⟩
  | .table ho hs hp hes => by
      obtain ⟨ws, hws, rfl⟩ := hes.visitsOf
      exact ⟨_, .table ho hs hp hws, rfl⟩
  | .function ho hs hw hes => by
      obtain ⟨ws, hws, rfl⟩ := hes.visitsOf
      exact ⟨_, .function ho hs hw hws, rfl⟩
  | .persist ho hs hp hc hes => by
      obtain ⟨ws, hws, rfl⟩ := hes.visitsOf
      exact ⟨_, .persist ho hs hp hc hws, rfl⟩
  | .wrap ho hs hu hc hes => by
      obtain ⟨ws, hws, rfl⟩ := hes.visitsOf
      exact ⟨_, .wrap ho hs hu hc hws, rfl⟩

theorem CodesOf.visitsOf {entries : List (Value × Value)} {st : Enc} {es : Codes} {st' : Enc} :
    CodesOf hooks lua52 nowrap entries st es st' →
      ∃ ws : Visits, VisitsOf hooks lua52 nowrap entries st ws st' ∧ ws.codes = es
  | .nil => ⟨_, .nil, rfl⟩
  | .cons hk hv hrest => by
      obtain ⟨wk, hwk, rfl⟩ := hk.visitOf
      obtain ⟨wv, hwv, rfl⟩ := hv.visitOf
      obtain ⟨ws, hws, rfl⟩ := hrest.visitsOf
      exact ⟨_, .cons hwk hwv hws, rfl⟩

end

/-! ## The numberings of a visit -/

mutual

/-- The encoder's table follows the steps. -/
theorem VisitOf.writes {v : Value} {st : Enc} {w : Visit} {st' : Enc} :
    VisitOf hooks lua52 nowrap v st w st' →
      Tandem.Writes ⟨st.seen, st.idx⟩ w.steps ⟨st'.seen, st'.idx⟩
  | .nil | .boolean | .lightuserdata _ | .number | .string | .dangling _ => .nil _
  | .again _ _ hs => .again hs (.nil _)
  | .table _ hs _ hes => .both hs hes.writes
  | .function _ hs _ hes => .both hs hes.writes
  | .persist _ _ _ hc hes => by
      have hw := hes.writes
      rw [(callHook_eq_ok hc).1, callHook_idx hc] at hw
      exact hw.append (.read _ (.nil _))
  | .wrap _ hs _ hc hes => by
      have hw := hes.writes
      rw [(callHook_eq_ok hc).1, callHook_idx hc] at hw
      exact .write hs (hw.append (.read _ (.nil _)))

theorem VisitsOf.writes {entries : List (Value × Value)} {st : Enc} {es : Visits} {st' : Enc} :
    VisitsOf hooks lua52 nowrap entries st es st' →
      Tandem.Writes ⟨st.seen, st.idx⟩ es.steps ⟨st'.seen, st'.idx⟩
  | .nil => .nil _
  | .cons hk hv hrest => hk.writes.append (hv.writes.append hrest.writes)

end

mutual

/-- The heap only grows. -/
theorem VisitOf.heap {v : Value} {st : Enc} {w : Visit} {st' : Enc} :
    VisitOf hooks lua52 nowrap v st w st' → st.heap <+: st'.heap
  | .nil | .boolean | .lightuserdata _ | .number | .string | .dangling _ | .again .. =>
      List.prefix_refl _
  | .table _ _ _ hes => hes.heap
  | .function _ _ _ hes => hes.heap
  | .persist _ _ _ hc hes => by
      obtain ⟨-, new, hnew⟩ := callHook_eq_ok hc
      exact .trans ⟨new, hnew.symm⟩ hes.heap
  | .wrap _ _ _ hc hes => by
      obtain ⟨-, new, hnew⟩ := callHook_eq_ok hc
      exact .trans ⟨new, hnew.symm⟩ hes.heap

theorem VisitsOf.heap {entries : List (Value × Value)} {st : Enc} {es : Visits} {st' : Enc} :
    VisitsOf hooks lua52 nowrap entries st es st' → st.heap <+: st'.heap
  | .nil => List.prefix_refl _
  | .cons hk hv hrest => hk.heap.trans (hv.heap.trans hrest.heap)

end

/-- The tables with a `__persist` hook. -/
def Persisted (h : Heap) (a : Nat) : Prop := ∃ t, h[a]? = some (.table t) ∧ t.persist ≠ none

/-- What an object is does not change. -/
theorem getElem?_mono {h h' : Heap} {a : Nat} {o : Object} (hp : h <+: h')
    (ho : h[a]? = some o) : h'[a]? = some o := by
  obtain ⟨new, rfl⟩ := hp
  rwa [List.getElem?_append_left (List.getElem?_eq_some_iff.1 ho).1]

/-- The steps of a visit, on the heap that is there in the end. -/
structure Proper (h : Heap) (t : List (Tandem.Step Nat)) : Prop where
  nested : Tandem.Nested (Persisted h) t
  timely : ∀ a ∈ Tandem.written t, ¬ Persisted h a

namespace Proper

variable {a n : Nat} {t t' : List (Tandem.Step Nat)}

theorem nil : Proper h [] := ⟨.nil, fun a ha ↦ by cases ha⟩

theorem append (ht : Proper h t) (ht' : Proper h t') : Proper h (t ++ t') := by
  refine ⟨.append ht.nested ht'.nested, fun a ha ↦ ?_⟩
  rw [Tandem.written_append] at ha
  rcases List.mem_append.1 ha with ha | ha
  · exact ht.timely a ha
  · exact ht'.timely a ha

theorem both (ha : ¬ Persisted h a) (ht : Proper h t) : Proper h (.both a :: t) := by
  refine ⟨.append (.both a) ht.nested, fun b hb ↦ ?_⟩
  rcases List.mem_cons.1 hb with rfl | hb
  · exact ha
  · exact ht.timely b hb

theorem inside (ha : ¬ Persisted h a) (ht : Proper h t) :
    Proper h (.write a :: (t ++ [.read a])) := by
  refine ⟨.inside a ht.nested, fun b hb ↦ ?_⟩
  rw [Tandem.written_write, Tandem.written_append] at hb
  rcases List.mem_cons.1 hb with rfl | hb
  · exact ha
  · exact ht.timely b (by simpa using hb)

theorem late (ha : Persisted h a) (ht : Proper h t) : Proper h (t ++ [.read a]) := by
  refine ⟨.late ha ht.nested, fun b hb ↦ ht.timely b ?_⟩
  simpa using hb

end Proper

/-- A table without a hook, or another object. -/
theorem not_persisted {a : Nat} {o : Object} (ho : h[a]? = some o)
    (hn : ∀ t, o = .table t → t.persist = none) : ¬ Persisted h a := by
  rintro ⟨t, ht, hp⟩
  rw [ho] at ht
  exact hp (hn t (Option.some.inj ht))

mutual

/-- **A visit is a walk through nested objects**, and exactly the tables with a `__persist`
hook are not entered by the encoder. -/
theorem VisitOf.proper {v : Value} {st : Enc} {w : Visit} {st' : Enc} :
    VisitOf hooks lua52 nowrap v st w st' → st'.heap <+: h → Proper h w.steps
  | .nil, _ | .boolean, _ | .lightuserdata _, _ | .number, _ | .string, _ | .dangling _, _ => .nil
  | .again (a := a) (n := n) _ _ _, _ => ⟨.again a n, fun b hb ↦ by cases hb⟩
  | .table ho _ hp hes, hh => by
      have ho := getElem?_mono (hes.heap.trans hh) ho
      refine .both (not_persisted ho fun t ht ↦ ?_) (hes.proper hh)
      cases ht
      exact hp
  | .function ho _ _ hes, hh => by
      have ho := getElem?_mono (hes.heap.trans hh) ho
      exact .both (not_persisted ho fun t ht ↦ by cases ht) (hes.proper hh)
  | .persist (a := a) (t := t) ho _ hp hc hes, hh => by
      obtain ⟨-, new, hnew⟩ := callHook_eq_ok hc
      have ho := getElem?_mono (.trans ⟨new, hnew.symm⟩ (hes.heap.trans hh)) ho
      exact .late ⟨t, ho, by simp [hp]⟩ (hes.proper hh)
  | .wrap ho _ _ hc hes, hh => by
      obtain ⟨-, new, hnew⟩ := callHook_eq_ok hc
      have ho := getElem?_mono (.trans ⟨new, hnew.symm⟩ (hes.heap.trans hh)) ho
      exact .inside (not_persisted ho fun t ht ↦ by cases ht) (hes.proper hh)

theorem VisitsOf.proper {entries : List (Value × Value)} {st : Enc} {es : Visits} {st' : Enc} :
    VisitsOf hooks lua52 nowrap entries st es st' → st'.heap <+: h → Proper h es.steps
  | .nil, _ => .nil
  | .cons hk hv hrest, hh => by
      have hv' := hrest.heap.trans hh
      exact (hk.proper (hv.heap.trans hv')).append ((hv.proper hv').append (hrest.proper hh))

end

/-- **The steps of an encoding.** -/
theorem VisitOf.consistent (hw : VisitOf hooks lua52 nowrap v { heap := h } w st') :
    Tandem.Consistent (Persisted st'.heap) w.steps :=
  have hp := hw.proper (List.prefix_refl _)
  ⟨hp.nested, ⟨_, hw.writes⟩, hp.timely⟩

end

end Leda.Marshal
