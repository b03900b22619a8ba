import Leda.Marshal.Written

/-!
# Which hooks the encoder calls

A hook is code from outside, and it may do more than return a function: a `__wrap` hook
takes the resource out of its userdata.  So it matters which hooks `mar_encode` calls, in
which order, and also when the encoding fails in the end.  `callsValue` follows the
encoder and lists them.

The list misses nothing: **two programs whose hooks do the same at the calls that are
listed get the same bytes** (`encodeValue_congr`).  In the mode without `__wrap` hooks none
is listed, and no pointer is written (`nowrap_local`).
-/

namespace Leda.Marshal

open Leda.Lib Leda.Lua

/-- A call of a hook. -/
structure Call where
  name : String
  hook : Value
  /-- The object it is called with. -/
  object : Nat
  /-- The objects there are then. -/
  heap : Heap
deriving Repr, DecidableEq

/-- The calls after a part of the encoder has returned. -/
def after (w : Written) (calls : Enc → List Call) : List Call :=
  match w with
  | .ok (_, st) => calls st
  | _ => []

section

variable (enc : Value → Enc → Written) (calls : Value → Enc → List Call)

/-- The calls of `mar_encode_table`. -/
def callsTable : List (Value × Value) → Enc → List Call
  | [], _ => []
  | (k, v) :: rest, st =>
      calls k st ++ after (enc k st) fun st ↦
        calls v st ++ after (enc v st) fun st ↦ callsTable rest st

variable (hooks : Hooks)

/-- A hook, and the calls for what it returns. -/
def callsHook (name : String) (f : Value) (a : Nat) (st : Enc) : List Call :=
  ⟨name, f, a, st.heap⟩ ::
    match callHook hooks name f a st with
    | .ok (r, st) => callsTable enc calls [(.ofNat 1, r)] st
    | _ => []

def callsTableObject (a : Nat) (t : Table) (st : Enc) : List Call :=
  match t.persist with
  | some f => callsHook enc calls hooks "__persist" f a st
  | none => callsTable enc calls t.entries (st.record a)

def callsFunction (lua52 : Bool) (a : Nat) (f : Closure) (st : Enc) : List Call :=
  if f.what ≠ .lua ∨ 2 ^ 32 - 1 < f.dump.length then []
  else callsTable enc calls (upvalueTable lua52 f) (st.record a)

def callsUserdata (nowrap : Bool) (a : Nat) (u : Userdata) (st : Enc) : List Call :=
  match if nowrap then none else u.wrap with
  | some f => callsHook enc calls hooks "__wrap" f a (st.record a)
  | none =>
      match u.persist with
      | some f => callsHook enc calls hooks "__persist" f a (st.record a)
      | none => []

def callsObject (lua52 nowrap : Bool) (a : Nat) (o : Object) (st : Enc) : List Call :=
  match o, st.seen.lookup a with
  | .table t, none => callsTableObject enc calls hooks a t st
  | .function f, none => callsFunction enc calls lua52 a f st
  | .userdata u, none => callsUserdata enc calls hooks nowrap a u st
  | _, _ => []

end

/-- The calls of `mar_encode_value`. -/
def callsValue (hooks : Hooks) (lua52 nowrap : Bool) : Nat → Value → Enc → List Call
  | depth + 1, .object a, st =>
      match st.heap[a]? with
      | some o => callsObject (encodeValue hooks lua52 nowrap depth)
          (callsValue hooks lua52 nowrap depth) hooks lua52 nowrap a o st
      | none => []
  | _, _, _ => []

/-! ## The list is complete -/

section Complete

variable {hooks hooks' : Hooks} {lua52 nowrap : Bool} {enc enc' : Value → Enc → Written}
  {calls : Value → Enc → List Call} {st : Enc} {a : Nat} {f : Value} {name : String}
  {entries : List (Value × Value)} {depth : Nat} {v : Value}

/-- The hooks do the same at these calls. -/
def Agree (hooks hooks' : Hooks) (cs : List Call) : Prop :=
  ∀ c ∈ cs, hooks c.hook (.object c.object) c.heap = hooks' c.hook (.object c.object) c.heap

theorem Agree.left {cs cs' : List Call} (h : Agree hooks hooks' (cs ++ cs')) :
    Agree hooks hooks' cs := fun c hc ↦ h c (List.mem_append_left _ hc)

theorem Agree.right {cs cs' : List Call} (h : Agree hooks hooks' (cs ++ cs')) :
    Agree hooks hooks' cs' := fun c hc ↦ h c (List.mem_append_right _ hc)

/-- A part of the encoder depends only on the calls that are listed for it. -/
def DependsOn (hooks hooks' : Hooks) (enc enc' : Value → Enc → Written)
    (calls : Value → Enc → List Call) : Prop :=
  ∀ v st, Agree hooks hooks' (calls v st) → enc v st = enc' v st

theorem encodeTable_congr (h : DependsOn hooks hooks' enc enc' calls)
    (hc : Agree hooks hooks' (callsTable enc calls entries st)) :
    encodeTable enc entries st = encodeTable enc' entries st := by
  induction entries generalizing st with
  | nil => rfl
  | cons e rest ih =>
      obtain ⟨k, v⟩ := e
      simp only [callsTable] at hc
      simp only [encodeTable, ← h k st hc.left]
      have hc₁ := hc.right
      cases hk : enc k st with
      | ok r =>
          rw [hk] at hc₁
          simp only [Xfer.ok_bind, ← h v r.2 hc₁.left]
          have hc₂ := hc₁.right
          cases hv : enc v r.2 with
          | ok r' =>
              rw [hv] at hc₂
              simp only [Xfer.ok_bind, ih hc₂]
          | raised | crash => rfl
      | raised | crash => rfl

theorem encodeBody_congr {head : List UInt8} (h : DependsOn hooks hooks' enc enc' calls)
    (hc : Agree hooks hooks' (callsTable enc calls entries st)) :
    encodeBody enc head entries st = encodeBody enc' head entries st := by
  simp only [encodeBody, encodeTable_congr h hc]

theorem encodeHook_congr {type : UInt8} (h : DependsOn hooks hooks' enc enc' calls)
    (hc : Agree hooks hooks' (callsHook enc calls hooks name f a st)) :
    encodeHook enc hooks type name f a st = encodeHook enc' hooks' type name f a st := by
  have hcall : callHook hooks name f a st = callHook hooks' name f a st := by
    simp only [callHook, hc ⟨name, f, a, st.heap⟩ List.mem_cons_self]
  have hrest : Agree hooks hooks' (match callHook hooks name f a st with
      | .ok (r, st) => callsTable enc calls [(.ofNat 1, r)] st
      | _ => []) := fun c hm ↦ hc c (List.mem_cons_of_mem _ hm)
  rw [encodeHook, encodeHook, ← hcall]
  cases hr : callHook hooks name f a st with
  | ok r =>
      rw [hr] at hrest
      exact encodeBody_congr h hrest
  | raised | crash => rfl

theorem encodeObject_congr {o : Object} (h : DependsOn hooks hooks' enc enc' calls)
    (hc : Agree hooks hooks' (callsObject enc calls hooks lua52 nowrap a o st)) :
    encodeObject enc hooks lua52 nowrap a o st = encodeObject enc' hooks' lua52 nowrap a o st := by
  unfold encodeObject
  cases o with
  | thread => rfl
  | table t =>
      cases hl : st.seen.lookup a with
      | some => rfl
      | none =>
          simp only [callsObject, hl, callsTableObject] at hc
          simp only [encodeTableObject]
          cases hp : t.persist with
          | some f =>
              rw [hp] at hc
              exact encodeHook_congr h hc
          | none =>
              rw [hp] at hc
              exact encodeBody_congr h hc
  | function f =>
      cases hl : st.seen.lookup a with
      | some => rfl
      | none =>
          simp only [callsObject, hl, callsFunction] at hc
          simp only [encodeFunction]
          by_cases hw : f.what = .lua
          · by_cases hd : 2 ^ 32 - 1 < f.dump.length
            · simp only [hw, chunk, hd, if_true]
              rfl
            · rw [if_neg (by simp only [hw, hd]; simp)] at hc
              simp only [encodeBody_congr h hc]
          · simp only [hw, ne_eq, not_false_eq_true, if_true]
  | userdata u =>
      cases hl : st.seen.lookup a with
      | some => rfl
      | none =>
          simp only [callsObject, hl, callsUserdata] at hc
          simp only [encodeUserdata]
          cases hw : (if nowrap then none else u.wrap) with
          | some f =>
              rw [hw] at hc
              exact encodeHook_congr h hc
          | none =>
              rw [hw] at hc
              cases hp : u.persist with
              | some f =>
                  rw [hp] at hc
                  exact encodeHook_congr h hc
              | none => rfl

/-- **The encoder depends only on the calls that are listed.** -/
theorem encodeValue_congr (hooks hooks' : Hooks) (lua52 nowrap : Bool) :
    ∀ depth, DependsOn hooks hooks' (encodeValue hooks lua52 nowrap depth)
      (encodeValue hooks' lua52 nowrap depth) (callsValue hooks lua52 nowrap depth)
  | 0 => fun v st _ ↦ rfl
  | depth + 1 => fun v st hc ↦ by
      cases v with
      | object a =>
          simp only [callsValue] at hc
          simp only [encodeValue]
          cases ho : st.heap[a]? with
          | some o =>
              rw [ho] at hc
              exact encodeObject_congr (encodeValue_congr hooks hooks' lua52 nowrap depth) hc
          | none => rfl
      | _ => rfl

end Complete

/-! ## The mode without `__wrap` hooks -/

mutual

/-- There is no pointer in the tree. -/
def Code.NoPointers : Code → Prop
  | .lightuserdata _ => False
  | .table es | .function _ _ es | .hook _ es => es.NoPointers
  | _ => True

@[inherit_doc Code.NoPointers]
def Codes.NoPointers : Codes → Prop
  | .nil => True
  | .cons k v rest => k.NoPointers ∧ v.NoPointers ∧ rest.NoPointers

end

section Nowrap

variable {hooks : Hooks} {lua52 : Bool} {enc : Value → Enc → Written}
  {calls : Value → Enc → List Call}

mutual

/-- **No pointer is written in this mode**, wherever it stands. -/
theorem CodeOf.noPointers {v : Value} {st : Enc} {c : Code} {st' : Enc} :
    CodeOf hooks lua52 true v st c st' → c.NoPointers
  | .nil | .boolean | .number | .string | .dangling _ | .ref _ _ _ => trivial
  | .table _ _ _ hes | .function _ _ _ hes | .persist _ _ _ _ hes | .wrap _ _ _ _ hes =>
      hes.noPointers

theorem CodesOf.noPointers {entries : List (Value × Value)} {st : Enc} {es : Codes} {st' : Enc} :
    CodesOf hooks lua52 true entries st es st' → es.NoPointers
  | .nil => trivial
  | .cons hk hv hrest => ⟨hk.noPointers, hv.noPointers, hrest.noPointers⟩

end

/-- No call of a `__wrap` hook. -/
def NoWrap (cs : List Call) : Prop := ∀ c ∈ cs, c.name ≠ "__wrap"

theorem NoWrap.append {cs cs' : List Call} (h : NoWrap cs) (h' : NoWrap cs') :
    NoWrap (cs ++ cs') := fun c hc ↦ (List.mem_append.1 hc).elim (h c) (h' c)

theorem NoWrap.after {w : Written} {calls : Enc → List Call} (h : ∀ st, NoWrap (calls st)) :
    NoWrap (after w calls) := by
  unfold Marshal.after
  split
  · exact h _
  · exact fun _ hc ↦ absurd hc List.not_mem_nil

theorem callsTable_noWrap (h : ∀ v st, NoWrap (calls v st)) :
    ∀ (entries : List (Value × Value)) (st : Enc), NoWrap (callsTable enc calls entries st)
  | [], _ => fun _ hc ↦ absurd hc List.not_mem_nil
  | (k, v) :: rest, st =>
      (h k st).append <| .after fun st ↦ (h v st).append <| .after fun st ↦
        callsTable_noWrap h rest st

theorem callsHook_noWrap (h : ∀ v st, NoWrap (calls v st)) (f : Value) (a : Nat) (st : Enc) :
    NoWrap (callsHook enc calls hooks "__persist" f a st) := by
  intro c hc
  rcases List.mem_cons.1 hc with rfl | hc
  · simp
  · split at hc
    · exact callsTable_noWrap h _ _ c hc
    · exact absurd hc List.not_mem_nil

theorem callsObject_noWrap (h : ∀ v st, NoWrap (calls v st)) (a : Nat) (o : Object) (st : Enc) :
    NoWrap (callsObject enc calls hooks lua52 true a o st) := by
  unfold callsObject
  split
  · unfold callsTableObject
    split
    · exact callsHook_noWrap h _ a st
    · exact callsTable_noWrap h _ _
  · unfold callsFunction
    split
    · exact fun _ hc ↦ absurd hc List.not_mem_nil
    · exact callsTable_noWrap h _ _
  · simp only [callsUserdata, if_true]
    split
    · exact callsHook_noWrap h _ a _
    · exact fun _ hc ↦ absurd hc List.not_mem_nil
  · exact fun _ hc ↦ absurd hc List.not_mem_nil

/-- **No `__wrap` hook is called in this mode**, whether the encoding succeeds or not. -/
theorem callsValue_noWrap (hooks : Hooks) (lua52 : Bool) :
    ∀ depth v st, NoWrap (callsValue hooks lua52 true depth v st)
  | 0 => fun _ _ _ hc ↦ absurd hc List.not_mem_nil
  | depth + 1 => fun v st ↦ by
      cases v with
      | object a =>
          simp only [callsValue]
          split
          · exact callsObject_noWrap (callsValue_noWrap hooks lua52 depth) a _ st
          · exact fun _ hc ↦ absurd hc List.not_mem_nil
      | _ => exact fun _ hc ↦ absurd hc List.not_mem_nil

/-- `mar_encode` once its table of constants was entered. -/
def marEncodeFrom (hooks : Hooks) (lua52 nowrap : Bool) (depth : Nat) (v : Value) (st : Enc) :
    Xfer (List UInt8 × Heap) := do
  let (b, st) ← encodeValue hooks lua52 nowrap depth v st
  .ok (0x8e :: b, st.heap)

theorem marEncodeFrom_empty (hooks : Hooks) (lua52 nowrap : Bool) (depth : Nat) (v : Value)
    (h : Heap) : marEncodeFrom hooks lua52 nowrap depth v { heap := h } =
      marEncode hooks lua52 nowrap depth v h := rfl

/-- **Handles of the process stay at home.**  What `mar_encode` writes in this mode is a tree
of the wire format, and only one; there is no pointer in it; and no `__wrap` hook was
called. -/
theorem nowrap_local {depth : Nat} {v : Value} {st : Enc} {bs : List UInt8} {h' : Heap}
    (he : marEncodeFrom hooks lua52 true depth v st = .ok (bs, h')) :
    (∃ c : Code, c.Fits ∧ bs = 0x8e :: c.print) ∧
      (∀ (c : Code) (junk : List UInt8), c.Fits → bs = 0x8e :: (c.print ++ junk) →
        c.NoPointers) ∧
      ∀ call ∈ callsValue hooks lua52 true depth v st, call.name ≠ "__wrap" := by
  obtain ⟨⟨b, st'⟩, hv, he'⟩ := Xfer.bind_eq_ok.1 he
  cases he'
  obtain ⟨c, hc, hf, -, rfl⟩ := encodeValue_codeOf hooks lua52 true depth _ _ _ _ hv
  refine ⟨⟨c, hf, rfl⟩, fun c' junk hf' hbs ↦ ?_, callsValue_noWrap hooks lua52 depth v st⟩
  have hprint : c.print ++ [] = c'.print ++ junk := by
    rw [List.append_nil]
    exact (List.cons.inj hbs).2
  obtain ⟨rfl, -⟩ := c.print_append_inj c' _ _ hf hf' hprint
  exact hc.noPointers

/-- A userdata with both hooks, in a table: `__persist` returns a function with it as its
upvalue. -/
def bothHooks : Heap :=
  [.table { entries := [(.ofNat 1, .object 1)] },
    .userdata { wrap := some (.object 2), persist := some (.object 3) },
    .function { what := .lua }, .function { what := .lua }]

/-- The `__wrap` hook takes a pointer out of the userdata, the other one does not. -/
def bothHooks.call : Hooks := fun f x h ↦
  .ok (.object h.length, [.function { what := .lua, upvalues := [("ud", x),
    ("ptr", if f = .object 2 then .lightuserdata 0xbeef else .number 7)] }])

/-- `nowrap_local` at `bothHooks`. -/
theorem nowrap_local_bothHooks :
    ∃ bs h', marEncodeFrom bothHooks.call false true 9 (.object 0) { heap := bothHooks } =
        .ok (bs, h') ∧
      ∀ (c : Code) (junk : List UInt8), c.Fits → bs = 0x8e :: (c.print ++ junk) →
        c.NoPointers := by
  obtain ⟨⟨bs, h'⟩, he⟩ : ∃ r, marEncodeFrom bothHooks.call false true 9 (.object 0)
      { heap := bothHooks } = .ok r := ⟨_, rfl⟩
  exact ⟨bs, h', he, (nowrap_local he).2.1⟩

end Nowrap

end Leda.Marshal
