import Leda.Lib.Bytes
import Leda.Lib.Xfer
import Leda.Lua.Table

/-!
# Unmarshalling

`mar_decode` of `lmarshal.c`, in the Lua state of the receiver.  It reads a value and
builds it: a table or function is entered into the array at `SEEN_IDX` before what is
inside it is read, what a hook rebuilds is entered after it was rebuilt, and a reference
takes a value out of that array again.

A table is read from the bytes of its own length.  `decodeValue` is given the bytes up to
the end of the innermost of these buffers, and gives back those it did not read.  It is
made for what `mar_encode` has written, all of it: where bytes are missing it raises `bad
code`, and the code looks behind them first; where a function is sent more upvalues than it
has it crashes, and the code goes on one slot out of step; and the slots of its Lua stack
are not counted, but are in `depth`, with the C stack.  On other messages `mar_decode` is
followed byte by byte and call by call elsewhere, over the memory they are in and on the
stack it has.

What the rest of the Lua state does is a parameter (`Lua`): loading a function, calling
one without arguments, which is what a hook left behind, and the operator `#`.
-/

namespace Leda.Marshal

open Leda.Lib Leda.Lua

/-- The Lua state that decodes. -/
structure Lua where
  /-- Lua 5.2. -/
  lua52 : Bool
  /-- The table of globals. -/
  globals : Value
  /-- `lua_load`: a function, or the message it leaves in its place. -/
  load : List UInt8 → Except (List UInt8) Closure
  /-- `lua_call` without arguments and with one result; a call that does not return is a
  crash. -/
  call : Value → Heap → Xfer (Value × Heap)
  /-- `lua_objlen`, on the pairs of a table. -/
  objlen : List (Value × Value) → Nat
  /-- `lua_settable` where it is up to a metatable: on what is no table, and for a new key of a
  table with `__newindex`. -/
  setindex : Value → Value → Value → Heap → Xfer Heap :=
    fun _ _ _ _ ↦ .raised "attempt to index a value"

/-- What decoding carries: the objects, and the values entered at `SEEN_IDX`, which are
numbered from `1`. -/
structure Dec where
  heap : Heap
  seen : List Value := []
deriving Repr, DecidableEq

/-- `lua_pushvalue(L, -1); lua_rawseti(L, SEEN_IDX, (*idx)++)`. -/
def Dec.enter (d : Dec) (v : Value) : Dec := { d with seen := d.seen ++ [v] }

/-- `lua_rawgeti(L, SEEN_IDX, ref)`. -/
def Dec.get (d : Dec) (ref : BitVec 32) : Value :=
  if 0 < ref.toInt then (d.seen[ref.toNat - 1]?).getD .nil else .nil

/-- `lua_newtable`. -/
def Dec.newtable (d : Dec) : Dec := { d with heap := d.heap ++ [.table {}] }

/-- What one part of the decoder returns: a value, and the bytes it leaves. -/
abbrev Decoded := Xfer ((Value × Dec) × List UInt8)

/-- `mar_incr_ptr(n)`, with the bytes passed over. -/
def take (n : Nat) (p : List UInt8) : Xfer (List UInt8 × List UInt8) :=
  if p.length < n then .raised "bad code" else .ok (p.take n, p.drop n)

/-- `mar_next_len(l, uint32_t)`. -/
def nextLen (p : List UInt8) : Xfer (Nat × List UInt8) := do
  let (b, p) ← take 4 p
  .ok (ofLe b, p)

/-- The bytes of the length that is read first. -/
def takeChunk (p : List UInt8) : Xfer (List UInt8 × List UInt8) := do
  let (l, p) ← nextLen p
  take l p

/-- `MAR_TREF`: the number in `int ref`, and what is entered under it. -/
def decodeRef (d : Dec) (p : List UInt8) : Decoded := do
  let (n, p) ← nextLen p
  .ok ((d.get (BitVec.ofNat 32 n), d), p)

/-- `mar_decode_table`, into the table at an address; the number bounds the rounds. -/
def decodeTable (dec : List UInt8 → Dec → Decoded) (a : Nat) :
    Nat → List UInt8 → Dec → Xfer Dec
  | _, [], d => .ok d
  | 0, _ :: _, _ => .crash
  | n + 1, b :: p, d => do
      let ((k, d), p) ← dec (b :: p) d
      let ((v, d), p) ← dec p d
      let h ← settable d.heap a k v
      decodeTable dec a n p { d with heap := h }

/-- The pairs of the table at an address. -/
def entriesOf (h : Heap) (a : Nat) : List (Value × Value) :=
  match h[a]? with
  | some (.table t) => t.entries
  | _ => []

/-- A string that reads as `LEDA_ENV_MARKER`: `strncmp` stops at the zero that ends it. -/
def readsAsMarker : Value → Bool
  | .string s => s.takeWhile (· ≠ 0) == "__leda-env-5.2-mark".toList.map fun c ↦
      UInt8.ofNat c.toNat
  | _ => false

/-- An upvalue as it is set: the marker stands for the globals. -/
def Lua.upvalue (L : Lua) (v : Value) : Value :=
  if L.lua52 && readsAsMarker v then L.globals else v

/-- The upvalues of a function after as many were set from a table as it counts. -/
def Lua.filled (L : Lua) (es : List (Value × Value)) (ups : List (String × Value)) :
    List (String × Value) :=
  (ups.zipIdx 1).map fun u ↦
    if u.2 ≤ L.objlen es then (u.1.1, L.upvalue (rawget es (.ofNat u.2))) else u.1

/-- The loop that sets the upvalues of the function `f`.  The code leaves an upvalue that the
function does not have on the stack, and is out of step from then on: no function that was
encoded is sent one, and here it is a crash. -/
def Lua.setUpvalues (L : Lua) (f : Value) (es : List (Value × Value)) (h : Heap) : Xfer Heap :=
  match f with
  | .object a =>
    match h[a]? with
    | some (.function c) =>
        if c.upvalues.length < L.objlen es then .crash
        else .ok (h.set a (.function { c with upvalues := L.filled es c.upvalues }))
    | _ => .crash
  | _ => if 0 < L.objlen es then .crash else .ok h

/-- `lua_load`, and the function is entered; where loading fails it is the message. -/
def Lua.loadFunction (L : Lua) (dump : List UInt8) (d : Dec) : Value × Dec :=
  match L.load dump with
  | .ok c => (.object d.heap.length,
      Dec.enter { d with heap := d.heap ++ [.function c] } (.object d.heap.length))
  | .error m => (.string m, d.enter (.string m))

/-- `MAR_TVAL` of a table, which is entered first. -/
def decodeTableObject (dec : List UInt8 → Dec → Decoded) (d : Dec) (p : List UInt8) :
    Decoded := do
  let (b, p) ← takeChunk p
  let d' ← decodeTable dec d.heap.length b.length b (d.newtable.enter (.object d.heap.length))
  .ok ((.object d.heap.length, d'), p)

/-- `MAR_TUSR`: a table with a function that rebuilds the object, which is entered last. -/
def decodeHook (dec : List UInt8 → Dec → Decoded) (L : Lua) (d : Dec)
    (p : List UInt8) : Decoded := do
  let (b, p) ← takeChunk p
  let d' ← decodeTable dec d.heap.length b.length b d.newtable
  let (r, h) ← L.call (rawget (entriesOf d'.heap d.heap.length) (.ofNat 1)) d'.heap
  .ok ((r, Dec.enter { d' with heap := h } r), p)

/-- A function: its code, and a table of its upvalues. -/
def decodeFunction (dec : List UInt8 → Dec → Decoded) (L : Lua) (d : Dec)
    (p : List UInt8) : Decoded := do
  let (code, p) ← takeChunk p
  let (f, d) := L.loadFunction code d
  let (b, p) ← takeChunk p
  let d' ← decodeTable dec d.heap.length b.length b d.newtable
  let h ← L.setUpvalues f (entriesOf d'.heap d.heap.length) d'.heap
  .ok ((f, { d' with heap := h }), p)

/-- `mar_decode_value`, with room for `depth` levels. -/
def decodeValue (L : Lua) : Nat → List UInt8 → Dec → Decoded
  | 0, _, _ => .crash
  | _ + 1, [], _ => .raised "bad code"
  | depth + 1, type :: p, d =>
    match type.toNat with
    | 0 | 8 => .ok ((.nil, d), p)
    | 1 => do
        let (b, p) ← take 1 p
        .ok ((.boolean (b ≠ [0]), d), p)
    | 2 => do
        let (b, p) ← take 8 p
        .ok ((.lightuserdata (BitVec.ofNat 64 (ofLe b)), d), p)
    | 3 => do
        let (b, p) ← take 8 p
        .ok ((.number (BitVec.ofNat 64 (ofLe b)), d), p)
    | 4 => do
        let (s, p) ← takeChunk p
        .ok ((.string s, d), p)
    | 5 => do
        let (tag, p) ← take 1 p
        if tag = [1] then decodeRef d p
        else if tag = [2] then decodeTableObject (decodeValue L depth) d p
        else if tag = [3] then decodeHook (decodeValue L depth) L d p
        else .raised "bad encoded data"
    | 6 => do
        let (tag, p) ← take 1 p
        if tag = [1] then decodeRef d p else decodeFunction (decodeValue L depth) L d p
    | 7 => do
        let (tag, p) ← take 1 p
        if tag = [1] then decodeRef d p
        else if tag = [3] then decodeHook (decodeValue L depth) L d p
        else .ok ((.nil, d), p)
    | _ => .raised "bad code"

/-- `mar_decode` without a table of constants. -/
def marDecode (L : Lua) (depth : Nat) (s : List UInt8) (h : Heap) : Xfer (Value × Heap) :=
  match s with
  | [] => .raised "bad header"
  | magic :: p =>
    if magic ≠ 0x8e then .raised "bad magic"
    else do
      let ((v, d), _) ← decodeValue L depth p { heap := h }
      .ok (v, d.heap)

end Leda.Marshal
