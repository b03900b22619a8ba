import Leda.Marshal.Memory

/-!
# The stack of the decoder

`mar_decode` is a C function that is called from Lua: its frame has the slots that the
interpreter promises, and it never asks for more.  Two are taken by the tables at the
indices `2` and `SEEN_IDX`, and every value that is being built takes one or two, so that
how deep a message may be nested depends on what is nested in what.

`LuaState` is the state in this frame, and `machine` has the calls of the decoder on it.
A push without a free slot is a crash, and so is taking an element of what is no table.
Nothing is done about a function that is given an upvalue too many: `lua_setupvalue` then
leaves the value on the stack, the calls after it find everything one slot further down,
and what `mar_decode` returns in the end is whatever is on top.

Without functions and hooks nothing gets out of step.  The calls for such a tree build its
value if there are as many slots as `Code.width` says, and else they crash (`run_machine`).
-/

namespace Leda.Marshal

open Leda.Lib Leda.Lua

/-- The Lua state while `mar_decode` runs: what `Dec` has, and the stack above `SEEN_IDX`, top
first. -/
structure LuaState extends Dec where
  stack : List Value := []
deriving Repr, DecidableEq

/-- `lua_settable` on the value `t`. -/
def Lua.settableAt (L : Lua) (t k v : Value) (h : Heap) : Xfer Heap :=
  match t with
  | .object a =>
    match h[a]? with
    | some (.table x) =>
        if x.newindex.isSome && rawget x.entries k == .nil && (L.lua52 || isKey k) then
          L.setindex t k v h
        else settable h a k v
    | _ => L.setindex t k v h
  | _ => L.setindex t k v h

/-- `lua_objlen`: of a number it is the length of its text, of which only matters that it is
positive. -/
def Lua.lengthOf (L : Lua) (h : Heap) : Value → Nat
  | .string s => s.length
  | .number _ => if L.lua52 then 0 else 1
  | .object a =>
    match h[a]? with
    | some (.table t) => L.objlen t.entries
    | some (.userdata u) => u.size
    | _ => 0
  | _ => 0

namespace LuaState

/-- What is on top. -/
def top (s : LuaState) : Value := s.stack.headD .nil

/-- The state with something else on top. -/
def withTop (v : Value) (s : LuaState) : LuaState := { s with stack := v :: s.stack.tail }

variable (L : Lua) (room : Nat)

/-- A push: `ci->top` is `room` slots above the argument. -/
def push (v : Value) (s : LuaState) : Xfer LuaState :=
  if s.stack.length + 2 < room then .ok { s with stack := v :: s.stack } else .crash

/-- `lua_rawgeti(L, SEEN_IDX, n)` -/
def pushSeen (n : BitVec 32) (s : LuaState) : Xfer LuaState := s.push room (s.get n)

/-- `lua_newtable` -/
def newtable (s : LuaState) : Xfer LuaState :=
  push room (.object s.heap.length) { s with toDec := s.toDec.newtable }

/-- `lua_pushvalue(L, -1); lua_rawseti(L, SEEN_IDX, (*idx)++)` -/
def enter (s : LuaState) : Xfer LuaState := do
  let _ ← s.push room s.top
  .ok { s with toDec := s.toDec.enter s.top }

/-- `lua_rawgeti(L, -1, n)` -/
def rawgeti (n : Nat) (s : LuaState) : Xfer LuaState :=
  match s.top with
  | .object a =>
    match s.heap[a]? with
    | some (.table t) => s.push room (rawget t.entries (.ofNat n))
    | _ => .crash
  | _ => .crash

/-- `lua_settable(L, -3)` -/
def settable (s : LuaState) : Xfer LuaState :=
  match s.stack with
  | v :: k :: t :: rest => do
      let h ← L.settableAt t k v s.heap
      .ok { s with heap := h, stack := t :: rest }
  | _ => .crash

/-- `lua_rawgeti(L, -1, 1); lua_call(L, 0, 1); lua_remove(L, -2)` -/
def call (s : LuaState) : Xfer LuaState := do
  let f ← s.rawgeti room 1
  let (r, h) ← L.call f.top s.heap
  .ok ({ s with heap := h }.withTop r)

/-- `lua_load`, which pushes a message if it fails. -/
def load (dump : List UInt8) (s : LuaState) : Xfer LuaState :=
  match L.load dump with
  | .ok c => push room (.object s.heap.length) { s with heap := s.heap ++ [.function c] }
  | .error m => s.push room (.string m)

/-- The globals for the marker, which are pushed before that is removed. -/
def unmark (s : LuaState) : Xfer LuaState :=
  if L.lua52 && readsAsMarker s.top then do
    let _ ← s.push room L.globals
    .ok (s.withTop L.globals)
  else .ok s

/-- `lua_setupvalue(L, -3, i)`, which pops the value if there is such an upvalue. -/
def setupvalue (i : Nat) (s : LuaState) : LuaState :=
  match s.stack with
  | v :: x :: .object a :: rest =>
    match s.heap[a]? with
    | some (.function c) =>
        if i ≤ c.upvalues.length then
          { s with
            heap := s.heap.set a
              (.function { c with upvalues := c.upvalues.modify (i - 1) fun u ↦ (u.1, v) })
            stack := x :: .object a :: rest }
        else s
    | _ => s
  | _ => s

/-- `for (i=1; i <= nups; i++)`, with the rounds that are left. -/
def setupvalues : Nat → Nat → LuaState → Xfer LuaState
  | _, 0, s => .ok s
  | i, n + 1, s => do
      let s ← s.rawgeti room i
      let s ← s.unmark L room
      setupvalues (i + 1) n (s.setupvalue i)

/-- `nups = lua_objlen(L, -1)`, the loop, and `lua_pop(L, 1)`. -/
def setUpvalues (s : LuaState) : Xfer LuaState := do
  let s ← setupvalues L room 1 (L.lengthOf s.heap s.top) s
  .ok { s with stack := s.stack.tail }

end LuaState

/-- The calls of `mar_decode`, in a frame with `room` slots. -/
def machine (L : Lua) (room : Nat) : Machine LuaState where
  push := LuaState.push room
  pushSeen := LuaState.pushSeen room
  newtable := LuaState.newtable room
  enter := LuaState.enter room
  settable := LuaState.settable L
  call := LuaState.call L room
  load := LuaState.load L room
  setUpvalues := LuaState.setUpvalues L room

/-- `LUA_MINSTACK` -/
def minStack : Nat := 20

/-- `mar_decode` of the `l` bytes at address `0`, without a table of constants. -/
def Memory.marDecode (m : Nat → UInt8) (l : Nat) (L : Lua) (room depth : Nat) (h : Heap) :
    Traced Fetch (Value × Heap) :=
  if l < 1 then .lift (.raised "bad header")
  else do
    let b ← fetch m ⟨l, []⟩ 0 1
    if b ≠ [0x8e] then .lift (.raised "bad magic")
    else if room < 2 then .lift .crash
    else do
      let (s, _) ← decodeValue m (machine L room) depth ⟨l, []⟩ 1 { heap := h }
      pure (s.top, s.heap)

/-! ## Trees without functions and hooks -/

mutual

/-- Nothing is loaded and nothing called. -/
def Code.Inert : Code → Prop
  | .table es => es.Inert
  | .function .. | .hook .. => False
  | _ => True

@[inherit_doc Code.Inert]
def Codes.Inert : Codes → Prop
  | .nil => True
  | .cons k v rest => k.Inert ∧ v.Inert ∧ rest.Inert

end

mutual

/-- The slots that building it takes. -/
def Code.width : Code → Nat
  | .table es => max 2 (es.width + 1)
  | _ => 1

/-- The slots above the table that is filled: a value has its key below it. -/
def Codes.width : Codes → Nat
  | .nil => 0
  | .cons k v rest => max k.width (max (v.width + 1) rest.width)

end

theorem Code.width_pos (c : Code) : 0 < c.width := by
  cases c with
  | table es => exact Nat.lt_of_lt_of_le Nat.zero_lt_two (Nat.le_max_left 2 _)
  | nil | boolean | lightuserdata | number | string | ref | function | hook | userdata =>
      exact Nat.zero_lt_one

/-- A table that is filled without looking for a metamethod. -/
def IsBare (h : Heap) (a : Nat) : Prop := ∃ t : Table, h[a]? = some (.table t) ∧ t.newindex = none

section

variable {L : Lua} {room a : Nat} {h h' : Heap} {k v w : Value} {d d' : Dec} {st : List Value}

theorem IsBare.lt (hb : IsBare h a) : a < h.length := by
  obtain ⟨t, ht, -⟩ := hb
  exact (List.getElem?_eq_some_iff.1 ht).1

theorem isBare_newtable : IsBare (d.newtable.enter v).heap d.heap.length :=
  ⟨{}, by simp [Dec.newtable, Dec.enter], rfl⟩

theorem IsBare.newtable (hb : IsBare d.heap a) : IsBare d.newtable.heap a := by
  have hlt := hb.lt
  obtain ⟨t, ht, hn⟩ := hb
  exact ⟨t, by rw [Dec.newtable, getElem?_append_of_lt hlt, ht], hn⟩

/-- Filling a table leaves the metatables alone. -/
theorem IsBare.settable {b : Nat} (hb : IsBare h b) (hs : Leda.Lua.settable h a k v = .ok h') :
    IsBare h' b := by
  unfold Leda.Lua.settable at hs
  split at hs
  · rename_i t ht
    split at hs
    · cases hs
      by_cases hab : a = b
      · subst hab
        obtain ⟨t', ht', hn⟩ := hb
        cases ht.symm.trans ht'
        have hlt := (List.getElem?_eq_some_iff.1 ht).1
        exact ⟨{ t with entries := rawset t.entries k v }, List.getElem?_set_self hlt, hn⟩
      · obtain ⟨t', ht', hn⟩ := hb
        exact ⟨t', by rw [List.getElem?_set_ne hab, ht'], hn⟩
    · cases hs
  · cases hs

theorem settableAt_of_isBare (hb : IsBare h a) :
    L.settableAt (.object a) k v h = Leda.Lua.settable h a k v := by
  obtain ⟨t, ht, hn⟩ := hb
  simp [Lua.settableAt, ht, hn]

mutual

/-- Building a value leaves the metatables alone. -/
theorem Code.isBare_eval : ∀ (c : Code) {d : Dec} {r : Value × Dec}, c.Inert →
    c.eval L d = .ok r → ∀ a, IsBare d.heap a → IsBare r.2.heap a
  | .nil _, _, _, _, he, _, hb | .boolean _, _, _, _, he, _, hb
  | .lightuserdata _, _, _, _, he, _, hb | .number _, _, _, _, he, _, hb
  | .string _, _, _, _, he, _, hb | .ref _ _, _, _, _, he, _, hb
  | .userdata _, _, _, _, he, _, hb => by
      cases he
      exact hb
  | .table es, d, r, hc, he, a, hb => by
      obtain ⟨d', hes, he⟩ := Xfer.bind_eq_ok.1 he
      cases he
      exact es.isBare_eval hc hes a hb.newtable

theorem Codes.isBare_eval : ∀ (es : Codes) {b : Nat} {d d' : Dec}, es.Inert →
    es.eval L b d = .ok d' → ∀ a, IsBare d.heap a → IsBare d'.heap a
  | .nil, _, _, _, _, he, _, hb => by
      cases he
      exact hb
  | .cons k v rest, b, d, d', ⟨hk, hv, hr⟩, he, a, hb => by
      obtain ⟨⟨vk, d₁⟩, hek, he⟩ := Xfer.bind_eq_ok.1 he
      obtain ⟨⟨vv, d₂⟩, hev, he⟩ := Xfer.bind_eq_ok.1 he
      obtain ⟨h, hset, he⟩ := Xfer.bind_eq_ok.1 he
      have hb₂ := v.isBare_eval hv hev a (k.isBare_eval hk hek a hb)
      exact rest.isBare_eval hr he a (hb₂.settable hset)

end

/-- A push, with the slots counted from the bottom of the frame. -/
theorem push_machine : (machine L room).push v ⟨d, st⟩ =
    if st.length + 3 ≤ room then .ok ⟨d, v :: st⟩ else .crash := rfl

/-- A table that is opened takes two slots, one of them only for a moment. -/
theorem openTable_machine : (machine L room).openTable ⟨d, st⟩ =
    if st.length + 4 ≤ room then
      .ok ⟨d.newtable.enter (.object d.heap.length), .object d.heap.length :: st⟩
    else .crash := by
  change (LuaState.push room _ _ >>= LuaState.enter room) = _
  by_cases hroom : st.length + 4 ≤ room
  · rw [if_pos hroom, LuaState.push, if_pos (by dsimp only; omega), Xfer.ok_bind, LuaState.enter,
      LuaState.push, if_pos (by simp only [List.length_cons]; omega)]
    rfl
  · rw [if_neg hroom, LuaState.push]
    split
    · rw [Xfer.ok_bind, LuaState.enter, LuaState.push,
        if_neg (by simp only [List.length_cons]; omega)]
      rfl
    · rfl

theorem settable_machine (hb : IsBare d.heap a) :
    (machine L room).settable ⟨d, v :: k :: .object a :: st⟩ =
      Leda.Lua.settable d.heap a k v >>= fun h ↦ .ok ⟨{ d with heap := h }, .object a :: st⟩ := by
  simp only [machine, LuaState.settable, settableAt_of_isBare hb]

mutual

/-- **The calls for a tree build its value**, if there are slots for it. -/
theorem Code.run_machine : ∀ (c : Code) {d d' : Dec} {v : Value} (st : List Value), c.Inert →
    c.eval L d = .ok (v, d') → c.run (machine L room) ⟨d, st⟩ =
      if st.length + 2 + c.width ≤ room then .ok ⟨d', v :: st⟩ else .crash
  | .nil _, _, _, _, _, _, he | .boolean _, _, _, _, _, _, he
  | .lightuserdata _, _, _, _, _, _, he | .number _, _, _, _, _, _, he
  | .string _, _, _, _, _, _, he | .ref _ _, _, _, _, _, _, he
  | .userdata _, _, _, _, _, _, he => by
      cases he
      exact push_machine (L := L)
  | .table es, d, d', v, st, hc, he => by
      obtain ⟨d₁, hes, he⟩ := Xfer.bind_eq_ok.1 he
      cases he
      rw [Code.run, openTable_machine, Code.width]
      by_cases hroom : st.length + 4 ≤ room
      · rw [if_pos hroom, Xfer.ok_bind, es.run_machine st hc isBare_newtable hes (by omega)]
        congr 1
        simp only [eq_iff_iff]
        omega
      · rw [if_neg hroom, if_neg (by omega)]
        rfl

theorem Codes.run_machine : ∀ (es : Codes) {a : Nat} {d d' : Dec} (st : List Value), es.Inert →
    IsBare d.heap a → es.eval L a d = .ok d' → st.length + 3 ≤ room →
      es.run (machine L room) ⟨d, .object a :: st⟩ =
        if st.length + 3 + es.width ≤ room then .ok ⟨d', .object a :: st⟩ else .crash
  | .nil, _, _, _, _, _, _, he, hroom => by
      cases he
      rw [if_pos (by rw [Codes.width]; omega)]
      rfl
  | .cons k v rest, a, d, d', st, ⟨hk, hv, hr⟩, hb, he, hroom => by
      obtain ⟨⟨vk, d₁⟩, hek, he⟩ := Xfer.bind_eq_ok.1 he
      obtain ⟨⟨vv, d₂⟩, hev, he⟩ := Xfer.bind_eq_ok.1 he
      obtain ⟨h, hset, he⟩ := Xfer.bind_eq_ok.1 he
      have hb₂ := v.isBare_eval hv hev a (k.isBare_eval hk hek a hb)
      rw [Codes.run, k.run_machine _ hk hek, Codes.width]
      by_cases hwk : st.length + 3 + k.width ≤ room
      · rw [if_pos (by simp only [List.length_cons]; omega), Xfer.ok_bind, v.run_machine _ hv hev]
        by_cases hwv : st.length + 3 + (v.width + 1) ≤ room
        · rw [if_pos (by simp only [List.length_cons]; omega), Xfer.ok_bind, settable_machine hb₂]
          have hset' : Leda.Lua.settable d₂.heap a vk vv = .ok h := hset
          rw [hset', Xfer.ok_bind, Xfer.ok_bind,
            rest.run_machine st hr (hb₂.settable hset) he hroom]
          congr 1
          simp only [eq_iff_iff]
          omega
        · rw [if_neg (by simp only [List.length_cons]; omega), if_neg (by omega)]
          rfl
      · rw [if_neg (by simp only [List.length_cons]; omega), if_neg (by omega)]
        rfl

end

end

end Leda.Marshal
