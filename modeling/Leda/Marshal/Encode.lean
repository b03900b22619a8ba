import Leda.Lib.Bytes
import Leda.Lib.Explore
import Leda.Lib.Xfer
import Leda.Lua.Value
import Mathlib.Data.Finset.Card
import Mathlib.Data.Finset.Range

/-!
# Marshalling

`mar_encode` of `lmarshal.c`: a value, with everything it refers to, as bytes.  The first
visit of an object writes its contents and enters it into the table at `SEEN_IDX`, with
the next index; later visits write a reference to that index.  What a hook returns is
encoded in place of the object, in a table of its own: a table with a `__persist` hook is
not entered into the table of seen objects, a userdata is, before its hook is called.

The recursion is on the levels of calls that there is room for, on the C stack and on the
stack of `mar_encode`, where every level takes four slots and none is asked for: without room
the process crashes.  `marEncode_returns` says how much room is enough when there are no hooks.  The
main result here is `marEncode_good`: when an encoding succeeds, everything inside the value could
be sent, so that **a value that holds something that cannot be sent is never encoded**.
-/

namespace Leda.Marshal

open Leda.Lib Leda.Lua

/-- What the recursion carries: the heap, which hooks extend, the objects seen so far with
their indices, and the next index. -/
structure Enc where
  heap : Heap
  seen : List (Nat × Nat) := []
  idx : Nat := 1
deriving Repr, DecidableEq

/-- What one part of the encoder writes. -/
abbrev Written := Xfer (List UInt8 × Enc)

/-- `MAR_TREF`, `MAR_TVAL` and `MAR_TUSR`. -/
def tref : UInt8 := 1
def tval : UInt8 := 2
def tusr : UInt8 := 3

/-- Bytes after their number in four bytes; `buf_write` refuses more than
`UINT32_MAX`. -/
def chunk (b : List UInt8) : Xfer (List UInt8) :=
  if 2 ^ 32 - 1 < b.length then .raised "buffer too long" else .ok (le 4 b.length ++ b)

/-- `lua_pushinteger(L, (*idx)++); lua_rawset(L, SEEN_IDX)`. -/
def Enc.record (st : Enc) (a : Nat) : Enc :=
  { st with seen := (a, st.idx) :: st.seen, idx := st.idx + 1 }

/-- Call a hook with the object it belongs to. -/
def callHook (hooks : Hooks) (name : String) (f : Value) (a : Nat) (st : Enc) :
    Xfer (Value × Enc) :=
  match hooks f (.object a) st.heap with
  | .error m => .raised m
  | .ok (r, new) =>
      if isFunction (st.heap ++ new) r then .ok (r, { st with heap := st.heap ++ new })
      else .raised (name ++ " must return a function")

/-- `mar_encode_table`. -/
def encodeTable (enc : Value → Enc → Written) : List (Value × Value) → Enc → Written
  | [], st => .ok ([], st)
  | (k, v) :: rest, st => do
      let (bk, st) ← enc k st
      let (bv, st) ← enc v st
      let (b, st) ← encodeTable enc rest st
      .ok (bk ++ bv ++ b, st)

/-- An encoded table after its tag and length. -/
def encodeBody (enc : Value → Enc → Written) (head : List UInt8) (entries : List (Value × Value))
    (st : Enc) : Written := do
  let (b, st) ← encodeTable enc entries st
  let c ← chunk b
  .ok (head ++ c, st)

/-- What a hook returned, in a table. -/
def encodeHook (enc : Value → Enc → Written) (hooks : Hooks) (type : UInt8) (name : String)
    (f : Value) (a : Nat) (st : Enc) : Written := do
  let (r, st) ← callHook hooks name f a st
  encodeBody enc [type, tusr] [(.ofNat 1, r)] st

/-- `LEDA_ENV_MARKER`, which stands for the environment of a Lua 5.2 function. -/
def envMarker : Value :=
  .string ("__leda-env-5.2-mark".toList.map fun c ↦ UInt8.ofNat c.toNat)

/-- The table of upvalues. -/
def upvalueTable (lua52 : Bool) (f : Closure) : List (Value × Value) :=
  arrayEntries <| f.upvalues.map fun u ↦
    if lua52 && u.1.startsWith "_ENV" then envMarker else u.2

/-- `LUA_TTABLE` in `mar_encode_value`, not seen before. -/
def encodeTableObject (enc : Value → Enc → Written) (hooks : Hooks) (a : Nat) (t : Table)
    (st : Enc) : Written :=
  match t.persist with
  | some f => encodeHook enc hooks 5 "__persist" f a st
  | none => encodeBody enc [5, tval] t.entries (st.record a)

/-- `LUA_TFUNCTION`. -/
def encodeFunction (enc : Value → Enc → Written) (lua52 : Bool) (a : Nat) (f : Closure)
    (st : Enc) : Written :=
  if f.what ≠ .lua then .raised "attempt to persist a C function '(null)'"
  else do
    let code ← chunk f.dump
    encodeBody enc ([6, tval] ++ code) (upvalueTable lua52 f) (st.record a)

/-- `LUA_TUSERDATA`. -/
def encodeUserdata (enc : Value → Enc → Written) (hooks : Hooks) (nowrap : Bool) (a : Nat)
    (u : Userdata) (st : Enc) : Written :=
  match if nowrap then none else u.wrap with
  | some f => encodeHook enc hooks 7 "__wrap" f a (st.record a)
  | none =>
      match u.persist with
      | some f => encodeHook enc hooks 7 "__persist" f a (st.record a)
      | none => .raised
          "attempt to encode userdata (no __wrap hook - or not permited - and no __persist hook)"

/-- An object that may have been seen. -/
def encodeObject (enc : Value → Enc → Written) (hooks : Hooks) (lua52 nowrap : Bool) (a : Nat)
    (o : Object) (st : Enc) : Written :=
  match o, st.seen.lookup a with
  | .thread, _ => .raised "invalid value type (thread)"
  | o, some ref => .ok (UInt8.ofNat o.type :: tref :: le 4 ref, st)
  | .table t, none => encodeTableObject enc hooks a t st
  | .function f, none => encodeFunction enc lua52 a f st
  | .userdata u, none => encodeUserdata enc hooks nowrap a u st

/-- `mar_encode_value`, with room for `depth` levels. -/
def encodeValue (hooks : Hooks) (lua52 nowrap : Bool) : Nat → Value → Enc → Written
  | 0, _, _ => .crash
  | _ + 1, .nil, st => .ok ([0], st)
  | _ + 1, .boolean b, st => .ok ([1, if b then 1 else 0], st)
  | _ + 1, .lightuserdata p, st =>
      if nowrap then .raised "light userdata not permitted" else .ok (2 :: le 8 p.toNat, st)
  | _ + 1, .number d, st => .ok (3 :: le 8 d.toNat, st)
  | _ + 1, .string s, st => do
      let c ← chunk s
      .ok (4 :: c, st)
  | depth + 1, .object a, st =>
      match st.heap[a]? with
      | some o => encodeObject (encodeValue hooks lua52 nowrap depth) hooks lua52 nowrap a o st
      | none => .ok ([0], st)

/-- `mar_encode` without a table of constants: the bytes, and the heap that the hooks
leave. -/
def marEncode (hooks : Hooks) (lua52 nowrap : Bool) (depth : Nat) (v : Value) (h : Heap) :
    Xfer (List UInt8 × Heap) := do
  let (b, st) ← encodeValue hooks lua52 nowrap depth v { heap := h }
  .ok (0x8e :: b, st.heap)

/-! ## A successful encoding has visited everything -/

section Visited

variable {hooks : Hooks} {lua52 nowrap : Bool} {h₀ : Heap} {st st₁ st' : Enc} {a : Nat}
  {enc : Value → Enc → Written} {b : List UInt8} {vs ws : List Value}
  {entries : List (Value × Value)}

/-- The objects of the heap `h₀` that were seen. -/
def Seen (h₀ : Heap) (st : Enc) (a : Nat) : Prop := a < h₀.length ∧ a ∈ st.seen.map Prod.fst

/-- What the part of an encoding that led from `st` to `st'` and wrote the values `vs` has
done to the objects of `h₀`. -/
structure Explored (lua52 : Bool) (h₀ : Heap) (st st' : Enc) (vs : List Value) : Prop where
  heap : ∃ new, st'.heap = h₀ ++ new
  visited : ∃ X, Closed (Inside lua52 h₀) (fun a ↦ ¬ Unsendable h₀ a) (Seen h₀ st) X ∧
    (∀ a, a < h₀.length → .object a ∈ vs → X a ∨ Seen h₀ st a) ∧
    ∀ a, Seen h₀ st' a → Seen h₀ st a ∨ X a

/-- Every value this part of the encoder writes is explored. -/
def Explores (lua52 : Bool) (h₀ : Heap) (enc : Value → Enc → Written) : Prop :=
  ∀ v st b st', (∃ new, st.heap = h₀ ++ new) → enc v st = .ok (b, st') →
    Explored lua52 h₀ st st' [v]

namespace Explored

/-- Writing what refers to nothing. -/
theorem refl (hh : ∃ new, st.heap = h₀ ++ new) (hvs : ∀ a, .object a ∉ vs) :
    Explored lua52 h₀ st st vs :=
  ⟨hh, fun _ ↦ False, .empty, fun a _ hm ↦ absurd hm (hvs a), fun _ ↦ .inl⟩

/-- One part after another. -/
theorem trans (h : Explored lua52 h₀ st st₁ vs) (h' : Explored lua52 h₀ st₁ st' ws) :
    Explored lua52 h₀ st st' (vs ++ ws) := by
  obtain ⟨X, hX, hvs, hseen⟩ := h.visited
  obtain ⟨X', hX', hws, hseen'⟩ := h'.visited
  refine ⟨h'.heap, _, hX.union hX' hseen, fun a ha hm ↦ ?_, fun a ha ↦ ?_⟩
  · rcases List.mem_append.1 hm with hm | hm
    · exact (hvs a ha hm).imp_left .inl
    · rcases hws a ha hm with hx | hs
      · exact .inl (.inr hx)
      · exact (hseen a hs).symm.imp_left .inl
  · rcases hseen' a ha with hs | hx
    · exact (hseen a hs).imp_right .inl
    · exact .inr (.inr hx)

/-- An object is finished: what is inside it was written, and at most the object itself
counted as seen meanwhile. -/
theorem object (h : Explored lua52 h₀ st₁ st' vs)
    (hseen : ∀ b, Seen h₀ st₁ b → Seen h₀ st b ∨ b = a)
    (ha : a < h₀.length → ¬ Unsendable h₀ a ∧ ∀ b, Inside lua52 h₀ a b → .object b ∈ vs) :
    Explored lua52 h₀ st st' [.object a] := by
  obtain ⟨X, hX, hvs, hs⟩ := h.visited
  by_cases hlt : a < h₀.length
  · obtain ⟨hg, hin⟩ := ha hlt
    refine ⟨h.heap, _, hX.insert hseen hg fun b hb ↦ hvs b hb.1 (hin b hb), fun b _ hb ↦ ?_,
      fun b hb ↦ ?_⟩
    · obtain rfl : b = a := by simpa using hb
      exact .inl (.inr rfl)
    · rcases hs b hb with hb | hb
      · exact (hseen b hb).imp_right .inr
      · exact .inr (.inl hb)
  · -- an object that a hook allocated is none of those that are followed
    have hsame : ∀ b, Seen h₀ st₁ b → Seen h₀ st b := fun b hb ↦
      (hseen b hb).resolve_right fun e ↦ hlt (e ▸ hb.1)
    refine ⟨h.heap, X, fun b hb ↦ ⟨(hX b hb).1, fun c hc ↦ ((hX b hb).2 c hc).imp_right (hsame c)⟩,
      fun b hb hm ↦ ?_, fun b hb ↦ (hs b hb).imp_left (hsame b)⟩
    obtain rfl : b = a := by simpa using hm
    exact absurd hb hlt

end Explored

theorem seen_record {b : Nat} (hb : Seen h₀ (st.record a) b) : Seen h₀ st b ∨ b = a := by
  obtain ⟨hlt, hm⟩ := hb
  rcases List.mem_cons.1 hm with rfl | hm
  · exact .inr rfl
  · exact .inl ⟨hlt, hm⟩

/-- A table explores its keys and values. -/
theorem encodeTable_explored (he : Explores lua52 h₀ enc) :
    ∀ {entries : List (Value × Value)} {st st' : Enc} {b : List UInt8},
      (∃ new, st.heap = h₀ ++ new) → encodeTable enc entries st = .ok (b, st') →
        Explored lua52 h₀ st st' (entries.flatMap fun e ↦ [e.1, e.2])
  | [], st, st', b, hh, h => by
      cases h
      exact .refl hh (by simp)
  | (k, v) :: rest, st, st', b, hh, h => by
      obtain ⟨⟨bk, st₁⟩, hk, h⟩ := Xfer.bind_eq_ok.1 h
      obtain ⟨⟨bv, st₂⟩, hv, h⟩ := Xfer.bind_eq_ok.1 h
      obtain ⟨⟨br, st₃⟩, hr, h⟩ := Xfer.bind_eq_ok.1 h
      cases h
      have h₁ := he k st bk st₁ hh hk
      have h₂ := he v st₁ bv st₂ h₁.heap hv
      exact (h₁.trans h₂).trans (encodeTable_explored he h₂.heap hr)

theorem encodeBody_explored {head : List UInt8} (he : Explores lua52 h₀ enc)
    (hh : ∃ new, st.heap = h₀ ++ new) (h : encodeBody enc head entries st = .ok (b, st')) :
    Explored lua52 h₀ st st' (entries.flatMap fun e ↦ [e.1, e.2]) := by
  obtain ⟨⟨bt, st₁⟩, ht, h⟩ := Xfer.bind_eq_ok.1 h
  obtain ⟨c, -, h⟩ := Xfer.bind_eq_ok.1 h
  cases h
  exact encodeTable_explored he hh ht

/-- A hook leaves the objects and what was seen as they were. -/
theorem callHook_eq_ok {name : String} {f r : Value}
    (h : callHook hooks name f a st = .ok (r, st')) :
    st'.seen = st.seen ∧ ∃ new, st'.heap = st.heap ++ new := by
  unfold callHook at h
  split at h
  · cases h
  · split at h
    · cases h
      exact ⟨rfl, _, rfl⟩
    · cases h

theorem encodeHook_explored {type : UInt8} {name : String} {f : Value}
    (he : Explores lua52 h₀ enc) (hh : ∃ new, st.heap = h₀ ++ new)
    (h : encodeHook enc hooks type name f a st = .ok (b, st')) :
    ∃ vs, Explored lua52 h₀ st st' vs := by
  obtain ⟨⟨r, st₁⟩, hc, h⟩ := Xfer.bind_eq_ok.1 h
  obtain ⟨hseen, new', hnew'⟩ := callHook_eq_ok hc
  obtain ⟨new, hnew⟩ := hh
  have hh₁ : ∃ new, st₁.heap = h₀ ++ new := ⟨new ++ new', by rw [hnew', hnew, List.append_assoc]⟩
  obtain ⟨hheap, X, hX, hvs, hs⟩ := encodeBody_explored he hh₁ h
  have heq : Seen h₀ st₁ = Seen h₀ st := by
    funext b
    simp only [Seen, hseen]
  exact ⟨_, hheap, X, heq ▸ hX, heq ▸ hvs, heq ▸ hs⟩

/-- The upvalues that are followed are in the table of upvalues. -/
theorem mem_upvalueTable {f : Closure} {u : String × Value} (hu : u ∈ followed lua52 f)
    (hv : u.2 = .object a) : .object a ∈ (upvalueTable lua52 f).flatMap fun e ↦ [e.1, e.2] := by
  obtain ⟨hm, hf⟩ := List.mem_filter.1 hu
  have hf' : (lua52 && u.1.startsWith "_ENV") = false := by
    rwa [Bool.not_eq_true'] at hf
  have hmem : .object a ∈ f.upvalues.map fun u ↦
      if lua52 && u.1.startsWith "_ENV" then envMarker else u.2 :=
    List.mem_map.2 ⟨u, hm, by rw [hf', hv]; rfl⟩
  obtain ⟨k, hk⟩ := mem_arrayEntries hmem (by simp)
  exact List.mem_flatMap.2 ⟨_, hk, by simp⟩

/-- A table is explored: what its `__persist` hook returned, or its entries. -/
theorem encodeTableObject_explored {t : Table} (he : Explores lua52 h₀ enc)
    (hh : ∃ new, st.heap = h₀ ++ new) (ho : a < h₀.length → h₀[a]? = some (.table t))
    (h : encodeTableObject enc hooks a t st = .ok (b, st')) :
    Explored lua52 h₀ st st' [.object a] := by
  unfold encodeTableObject at h
  split at h
  · rename_i f hp
    obtain ⟨vs, hx⟩ := encodeHook_explored he hh h
    refine hx.object (fun _ ↦ .inl) fun ha ↦ ⟨by simp [Unsendable, ho ha], fun c hc ↦ ?_⟩
    have := hc.2
    simp [ho ha, hp] at this
  · have hhr : ∃ new, (st.record a).heap = h₀ ++ new := hh
    refine (encodeBody_explored he hhr h).object (fun _ ↦ seen_record) fun ha ↦
      ⟨by simp [Unsendable, ho ha], fun c hc ↦ ?_⟩
    have hin := hc.2
    rw [ho ha] at hin
    obtain ⟨-, e, hm, hec⟩ := hin
    refine List.mem_flatMap.2 ⟨e, hm, ?_⟩
    rcases hec with hec | hec <;> simp [hec]

/-- A function is explored: its upvalues. -/
theorem encodeFunction_explored {f : Closure} (he : Explores lua52 h₀ enc)
    (hh : ∃ new, st.heap = h₀ ++ new) (ho : a < h₀.length → h₀[a]? = some (.function f))
    (h : encodeFunction enc lua52 a f st = .ok (b, st')) :
    Explored lua52 h₀ st st' [.object a] := by
  unfold encodeFunction at h
  split at h
  · cases h
  · rename_i hw
    have hhr : ∃ new, (st.record a).heap = h₀ ++ new := hh
    obtain ⟨code, -, h⟩ := Xfer.bind_eq_ok.1 h
    refine (encodeBody_explored he hhr h).object (fun _ ↦ seen_record) fun ha ↦
      ⟨by simpa [Unsendable, ho ha] using hw, fun c hc ↦ ?_⟩
    have hin := hc.2
    rw [ho ha] at hin
    obtain ⟨u, hu, huc⟩ := hin
    exact mem_upvalueTable hu huc

/-- A userdata is explored: what its hook returned. -/
theorem encodeUserdata_explored {u : Userdata} (he : Explores lua52 h₀ enc)
    (hh : ∃ new, st.heap = h₀ ++ new) (ho : a < h₀.length → h₀[a]? = some (.userdata u))
    (h : encodeUserdata enc hooks nowrap a u st = .ok (b, st')) :
    Explored lua52 h₀ st st' [.object a] := by
  have hhr : ∃ new, (st.record a).heap = h₀ ++ new := hh
  have hnone : a < h₀.length → ∀ c, ¬ Inside lua52 h₀ a c := fun ha c hc ↦ by
    have := hc.2
    simp [ho ha] at this
  unfold encodeUserdata at h
  split at h
  · rename_i f hw
    obtain ⟨vs, hx⟩ := encodeHook_explored he hhr h
    refine hx.object (fun _ ↦ seen_record) fun ha ↦ ⟨?_, fun c hc ↦ absurd hc (hnone ha c)⟩
    cases nowrap <;> simp [Unsendable, ho ha] at hw ⊢
    simp [hw]
  · split at h
    · rename_i f hp
      obtain ⟨vs, hx⟩ := encodeHook_explored he hhr h
      refine hx.object (fun _ ↦ seen_record) fun ha ↦ ⟨?_, fun c hc ↦ absurd hc (hnone ha c)⟩
      simp [Unsendable, ho ha, hp]
    · cases h

/-- An object explores itself, and then what is inside it. -/
theorem encodeObject_explored {o : Object} (he : Explores lua52 h₀ enc)
    (hh : ∃ new, st.heap = h₀ ++ new) (ho : st.heap[a]? = some o)
    (h : encodeObject enc hooks lua52 nowrap a o st = .ok (b, st')) :
    Explored lua52 h₀ st st' [.object a] := by
  have ho₀ : a < h₀.length → h₀[a]? = some o := fun ha ↦ by
    obtain ⟨new, hnew⟩ := hh
    rwa [hnew, getElem?_append_of_lt ha] at ho
  unfold encodeObject at h
  split at h
  · cases h
  · -- seen before
    rename_i ref _ hl
    cases h
    refine ⟨hh, fun _ ↦ False, .empty, fun c hc hm ↦ .inr ?_, fun _ ↦ .inl⟩
    obtain rfl : c = a := by simpa using hm
    obtain ⟨l₁, l₂, hs, -⟩ := List.lookup_eq_some_iff.1 hl
    exact ⟨hc, by simp [hs]⟩
  · exact encodeTableObject_explored he hh ho₀ h
  · exact encodeFunction_explored he hh ho₀ h
  · exact encodeUserdata_explored he hh ho₀ h

/-- **Every value is explored**, by induction on the room for the recursion. -/
theorem encodeValue_explores (hooks : Hooks) (lua52 nowrap : Bool) (h₀ : Heap) :
    ∀ depth, Explores lua52 h₀ (encodeValue hooks lua52 nowrap depth)
  | 0 => fun v st b st' _ h ↦ by cases h
  | depth + 1 => fun v st b st' hh h ↦ by
      have he := encodeValue_explores hooks lua52 nowrap h₀ depth
      cases v with
      | nil | boolean | number =>
          cases h
          exact .refl hh (by simp)
      | lightuserdata p =>
          unfold encodeValue at h
          split at h
          · cases h
          · cases h
            exact .refl hh (by simp)
      | string s =>
          obtain ⟨c, -, h⟩ := Xfer.bind_eq_ok.1 h
          cases h
          exact .refl hh (by simp)
      | object a =>
          unfold encodeValue at h
          split at h
          · exact encodeObject_explored he hh ‹_› h
          · rename_i ha
            cases h
            refine ⟨hh, fun _ ↦ False, .empty, fun c hc hm ↦ ?_, fun _ ↦ .inl⟩
            obtain rfl : c = a := by simpa using hm
            obtain ⟨new, hnew⟩ := hh
            rw [hnew, getElem?_append_of_lt hc, List.getElem?_eq_none_iff] at ha
            omega

/-- **What is encoded could be sent**, with everything inside it. -/
theorem marEncode_good {depth : Nat} {h : Heap} {r : List UInt8 × Heap} {b : Nat}
    (hr : marEncode hooks lua52 nowrap depth (.object a) h = .ok r) (ha : a < h.length)
    (hab : Relation.ReflTransGen (Inside lua52 h) a b) : ¬ Unsendable h b := by
  obtain ⟨⟨bs, st'⟩, hv, -⟩ := Xfer.bind_eq_ok.1 hr
  have hx := encodeValue_explores hooks lua52 nowrap h depth _ _ _ _ ⟨[], by simp⟩ hv
  obtain ⟨X, hX, hvs, -⟩ := hx.visited
  have hnone : Seen h { heap := h } = fun _ ↦ False := by
    funext b
    simp [Seen]
  rw [hnone] at hX hvs
  exact hX.good_of_reaches ((hvs a ha (by simp)).resolve_right id) hab

end Visited

/-! ## Room for the recursion -/

section Returns

variable {hooks : Hooks} {lua52 nowrap : Bool} {h : Heap} {st st' : Enc} {a n : Nat}
  {enc : Value → Enc → Written} {b : List UInt8} {entries : List (Value × Value)}

/-- The number of objects not seen yet. -/
def unseen (h : Heap) (st : Enc) : Nat :=
  ((Finset.range h.length).filter fun a ↦ a ∉ st.seen.map Prod.fst).card

theorem unseen_mono (hs : ∀ a ∈ st.seen.map Prod.fst, a ∈ st'.seen.map Prod.fst) :
    unseen h st' ≤ unseen h st :=
  Finset.card_le_card <| Finset.monotone_filter_right _ fun a _ ha hm ↦ ha (hs a hm)

/-- Recording an object for the first time. -/
theorem unseen_record (ha : a < h.length) (hs : a ∉ st.seen.map Prod.fst) :
    unseen h (st.record a) < unseen h st := by
  refine Finset.card_lt_card ((Finset.ssubset_iff_of_subset ?_).2 ⟨a, ?_, fun hm ↦ ?_⟩)
  · exact Finset.monotone_filter_right _ fun c _ hc hm ↦ hc (List.mem_cons_of_mem _ hm)
  · exact Finset.mem_filter.2 ⟨Finset.mem_range.2 ha, hs⟩
  · exact (Finset.mem_filter.1 hm).2 List.mem_cons_self

/-- A part of the encoder that started in `st` comes back, on the same heap, and has
forgotten nothing. -/
structure ComesBack (h : Heap) (st : Enc) (w : Written) : Prop where
  crash : w ≠ .crash
  ok : ∀ b st', w = .ok (b, st') →
    st'.heap = h ∧ ∀ a ∈ st.seen.map Prod.fst, a ∈ st'.seen.map Prod.fst

namespace ComesBack

theorem pure (hh : st.heap = h) (b : List UInt8) : ComesBack h st (.ok (b, st)) := by
  refine ⟨fun hc ↦ ?_, fun b' st' hr ↦ ?_⟩
  · cases hc
  · cases hr
    exact ⟨hh, fun _ ↦ id⟩

theorem raised (m : String) : ComesBack h st (.raised m) := by
  refine ⟨fun hc ↦ ?_, fun b' st' hr ↦ ?_⟩
  · cases hc
  · cases hr

/-- One part after another. -/
theorem bind {x : Written} {f : List UInt8 × Enc → Written} (hx : ComesBack h st x)
    (hf : ∀ b st', st'.heap = h → (∀ a ∈ st.seen.map Prod.fst, a ∈ st'.seen.map Prod.fst) →
      ComesBack h st' (f (b, st'))) : ComesBack h st (x >>= f) := by
  refine ⟨fun hc ↦ ?_, fun b' st' hr ↦ ?_⟩
  · rcases Xfer.bind_eq_crash.1 hc with hc | ⟨⟨b, st₁⟩, h₁, hc⟩
    · exact hx.crash hc
    · obtain ⟨hh, hs⟩ := hx.ok b st₁ h₁
      exact (hf b st₁ hh hs).crash hc
  · obtain ⟨⟨b, st₁⟩, h₁, hr⟩ := Xfer.bind_eq_ok.1 hr
    obtain ⟨hh, hs⟩ := hx.ok b st₁ h₁
    obtain ⟨hh', hs'⟩ := (hf b st₁ hh hs).ok b' st' hr
    exact ⟨hh', fun a ha ↦ hs' a (hs a ha)⟩

/-- A chunk that is too long raises. -/
theorem chunk {f : List UInt8 → Written} (hf : ∀ c, ComesBack h st (f c)) (b : List UInt8) :
    ComesBack h st (chunk b >>= f) := by
  unfold Marshal.chunk
  split
  · exact raised _
  · exact hf _

end ComesBack

/-- With at most `n` objects to be seen, this part of the encoder comes back. -/
def Returns (h : Heap) (n : Nat) (enc : Value → Enc → Written) : Prop :=
  ∀ v st, st.heap = h → unseen h st ≤ n → ComesBack h st (enc v st)

/-- A table returns when its values do. -/
theorem encodeTable_returns (he : Returns h n enc) :
    ∀ (entries : List (Value × Value)) (st : Enc), st.heap = h → unseen h st ≤ n →
      ComesBack h st (encodeTable enc entries st)
  | [], _, hh, _ => .pure hh _
  | (k, v) :: rest, st, hh, hn => (he k st hh hn).bind fun _ st₁ hh₁ hs₁ ↦ by
      have hn₁ := (unseen_mono hs₁).trans hn
      refine (he v st₁ hh₁ hn₁).bind fun _ st₂ hh₂ hs₂ ↦ ?_
      have hn₂ := (unseen_mono hs₂).trans hn₁
      exact (encodeTable_returns he rest st₂ hh₂ hn₂).bind fun _ _ hh₃ _ ↦ .pure hh₃ _

theorem encodeBody_returns (he : Returns h n enc) (head : List UInt8)
    (entries : List (Value × Value)) (hh : st.heap = h) (hn : unseen h st ≤ n) :
    ComesBack h st (encodeBody enc head entries st) :=
  (encodeTable_returns he entries st hh hn).bind fun b _ hh' _ ↦ .chunk (fun _ ↦ .pure hh' _) b

/-- An object is recorded before what is inside it is written. -/
theorem encodeBody_record_returns (he : Returns h (n - 1) enc) (head : List UInt8)
    (entries : List (Value × Value)) (hh : st.heap = h) (ha : a < h.length)
    (hs : a ∉ st.seen.map Prod.fst) (hn : unseen h st ≤ n) :
    ComesBack h st (encodeBody enc head entries (st.record a)) := by
  have hrec := unseen_record ha hs
  have hb : ComesBack h (st.record a) (encodeBody enc head entries (st.record a)) :=
    encodeBody_returns he head entries hh (by omega)
  refine ⟨hb.crash, fun b st' hr ↦ ?_⟩
  obtain ⟨hh', hs'⟩ := hb.ok b st' hr
  exact ⟨hh', fun c hc ↦ hs' c (List.mem_cons_of_mem _ hc)⟩

/-- **Without hooks, room for one level more than there are objects is enough.** -/
theorem encodeValue_returns (hooks : Hooks) (lua52 nowrap : Bool) (hf : HookFree h) :
    ∀ depth n, n < depth → Returns h n (encodeValue hooks lua52 nowrap depth)
  | 0, n, hlt => absurd hlt (Nat.not_lt_zero n)
  | depth + 1, n, hlt => fun v st hh hn ↦ by
      cases v with
      | nil | boolean | number => exact .pure hh _
      | lightuserdata p =>
          unfold encodeValue
          split
          · exact .raised _
          · exact .pure hh _
      | string s => exact .chunk (fun _ ↦ .pure hh _) s
      | object a =>
          unfold encodeValue
          split
          · rename_i o ho
            rw [hh] at ho
            have hmem : o ∈ h := List.mem_of_getElem? ho
            have hlta : a < h.length := (List.getElem?_eq_some_iff.1 ho).1
            have hbody : ∀ head entries, st.seen.lookup a = none → ComesBack h st
                (encodeBody (encodeValue hooks lua52 nowrap depth) head entries (st.record a)) :=
              fun head entries hl ↦ by
                have hs : a ∉ st.seen.map Prod.fst := fun hm ↦ by
                  obtain ⟨p, hp, rfl⟩ := List.mem_map.1 hm
                  simpa using List.lookup_eq_none_iff.1 hl p hp
                have hrec := unseen_record hlta hs
                exact encodeBody_record_returns
                  (encodeValue_returns hooks lua52 nowrap hf depth (n - 1) (by omega)) head entries
                  hh hlta hs hn
            unfold encodeObject
            split
            · exact .raised _
            · exact .pure hh _
            · rename_i t hl
              have ht : t.persist = none := hf _ hmem
              unfold encodeTableObject
              rw [ht]
              exact hbody _ _ hl
            · rename_i f hl
              unfold encodeFunction
              split
              · exact .raised _
              · exact .chunk (fun c ↦ hbody _ _ hl) f.dump
            · rename_i u hl
              have hu : u.wrap = none ∧ u.persist = none := hf _ hmem
              unfold encodeUserdata
              simp only [hu.1, hu.2, ite_self]
              exact .raised _
          · exact .pure hh _

/-- `mar_encode` comes back, on the same heap. -/
theorem marEncode_comesBack {depth : Nat} (hf : HookFree h) (hd : h.length < depth) (v : Value) :
    ComesBack h { heap := h } (encodeValue hooks lua52 nowrap depth v { heap := h }) := by
  have hn : unseen h { heap := h } ≤ h.length := by simp [unseen]
  exact encodeValue_returns hooks lua52 nowrap hf depth h.length hd v _ rfl hn

theorem marEncode_returns {depth : Nat} (hf : HookFree h) (hd : h.length < depth) (v : Value) :
    marEncode hooks lua52 nowrap depth v h ≠ .crash := by
  intro he
  rcases Xfer.bind_eq_crash.1 he with he | ⟨_, _, he⟩
  · exact (marEncode_comesBack hf hd v).crash he
  · cases he

theorem marEncode_heap {depth : Nat} {v : Value} {h' : Heap} (hf : HookFree h)
    (hd : h.length < depth) (hr : marEncode hooks lua52 nowrap depth v h = .ok (b, h')) :
    h' = h := by
  obtain ⟨⟨bs, st⟩, hv, hr⟩ := Xfer.bind_eq_ok.1 hr
  cases hr
  exact ((marEncode_comesBack hf hd v).ok bs st hv).1

end Returns

end Leda.Marshal
