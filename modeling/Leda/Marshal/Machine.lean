import Leda.Marshal.Code

/-!
# The calls of the decoder

For what `mar_decode_value` reads it calls the API of Lua, and of a tree it makes the same
calls, whatever they do.  `Machine` is the API as far as the decoder uses it, over any type
of states: each of its operations is a few calls that stand together in the source, and
any of them may raise an error or crash.  `Code.run` makes the calls for a tree.

`Code.eval` is the same for a state that is only the objects and the array at `SEEN_IDX`,
where no slot is ever missing.
-/

namespace Leda.Marshal

open Leda.Lib Leda.Lua

/-- The API of Lua, as far as it is called by `mar_decode_value`. -/
structure Machine (σ : Type) where
  /-- `lua_pushnil`, `lua_pushboolean`, … -/
  push : Value → σ → Xfer σ
  /-- `lua_rawgeti(L, SEEN_IDX, ref)` -/
  pushSeen : BitVec 32 → σ → Xfer σ
  newtable : σ → Xfer σ
  /-- `lua_pushvalue(L, -1); lua_rawseti(L, SEEN_IDX, (*idx)++)` -/
  enter : σ → Xfer σ
  /-- `lua_settable(L, -3)` -/
  settable : σ → Xfer σ
  /-- `lua_rawgeti(L, -1, 1); lua_call(L, 0, 1); lua_remove(L, -2)` -/
  call : σ → Xfer σ
  load : List UInt8 → σ → Xfer σ
  /-- `lua_objlen`, the loop that sets the upvalues, and `lua_pop`. -/
  setUpvalues : σ → Xfer σ

namespace Machine

variable {σ : Type} (M : Machine σ)

/-- A table, before it is filled. -/
def openTable (s : σ) : Xfer σ := M.newtable s >>= M.enter

/-- A function, before the table of its upvalues. -/
def loadFunction (dump : List UInt8) (s : σ) : Xfer σ := M.load dump s >>= M.enter

/-- What the table of a hook is used for. -/
def callHook (s : σ) : Xfer σ := M.call s >>= M.enter

end Machine

variable {σ : Type}

mutual

/-- The calls for a tree. -/
def Code.run (M : Machine σ) : Code → σ → Xfer σ
  | .nil _, s => M.push .nil s
  | .boolean b, s => M.push (.boolean (b ≠ 0)) s
  | .lightuserdata p, s => M.push (.lightuserdata p) s
  | .number d, s => M.push (.number d) s
  | .string b, s => M.push (.string b) s
  | .ref _ n, s => M.pushSeen n s
  | .table es, s => do es.run M (← M.openTable s)
  | .function _ dump ups, s => do
      let s ← M.loadFunction dump s
      let s ← M.newtable s
      M.setUpvalues (← ups.run M s)
  | .hook _ es, s => do
      let s ← M.newtable s
      M.callHook (← es.run M s)
  | .userdata _, s => M.push .nil s

/-- The calls for the pairs of a table. -/
def Codes.run (M : Machine σ) : Codes → σ → Xfer σ
  | .nil, s => .ok s
  | .cons k v rest, s => do
      let s ← k.run M s
      let s ← v.run M s
      rest.run M (← M.settable s)

end

end Leda.Marshal
