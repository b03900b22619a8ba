import Mathlib.Algebra.Group.Nat.Defs
import Mathlib.Data.List.Basic
import Mathlib.Logic.Relation

/-!
# Lua values

The part of a Lua state that the kernel looks at when it sends values: the values
themselves, and the tables, functions, userdata and coroutines they refer to.  These
live in a `Heap`, a list whose positions are the references, because they can be shared
and cyclic.  A number is its eight bytes of memory, a string its bytes.

A metamethod of a table or userdata is a Lua function, that is, code from outside.  What
calling it does is a parameter: a `Hooks` says what it returns, or the error it raises,
and which objects it allocates.  It can only append to the heap, so that a traversal that
calls hooks finds the objects it has still to visit as they were.
-/

namespace Leda.Lua

/-- A value; tables, functions, userdata and coroutines are references. -/
inductive Value
  | nil
  | boolean (b : Bool)
  | lightuserdata (p : BitVec 64)
  | number (d : BitVec 64)
  | string (s : List UInt8)
  | object (a : Nat)
deriving Repr, DecidableEq

/-- The number an integer is converted to by `lua_pushinteger`, for `n < 2^53`. -/
def Value.ofNat (n : Nat) : Value :=
  .number <|
    if n = 0 then 0
    else
      let e := n.log2
      BitVec.ofNat 64 ((1023 + e) * 2 ^ 52 + (n - 2 ^ e) * 2 ^ (52 - e))

/-- `ar.what` of `lua_getinfo`. -/
inductive What
  | lua
  | c
  | main
deriving Repr, DecidableEq

/-- A table: its pairs in the order of `lua_next`, and the fields `__persist` and
`__newindex` of its metatable. -/
structure Table where
  entries : List (Value × Value) := []
  persist : Option Value := none
  newindex : Option Value := none
deriving Repr, DecidableEq

/-- A function: what `lua_dump` writes, and its upvalues with their names. -/
structure Closure where
  what : What
  dump : List UInt8 := []
  upvalues : List (String × Value) := []
deriving Repr, DecidableEq

/-- A userdata: the fields `__wrap` and `__persist` of its metatable, and its size. -/
structure Userdata where
  wrap : Option Value := none
  persist : Option Value := none
  size : Nat := 0
deriving Repr, DecidableEq

/-- What a reference refers to. -/
inductive Object
  | table (t : Table)
  | function (f : Closure)
  | userdata (u : Userdata)
  | thread
deriving Repr, DecidableEq

/-- The objects, by reference. -/
abbrev Heap := List Object

/-- Calling a metamethod with one argument: the error it raises, or its result and the
objects it allocated.  It adds objects, it does not change those of the sender; the handle
that a hook takes out of a userdata is not part of these objects. -/
abbrev Hooks := Value → Value → Heap → Except String (Value × List Object)

/-- Metamethods that return `nil`. -/
def Hooks.none : Hooks := fun _ _ _ ↦ .ok (.nil, [])

/-- `LUA_TTABLE`, `LUA_TFUNCTION`, `LUA_TUSERDATA` and `LUA_TTHREAD`. -/
def Object.type : Object → Nat
  | .table _ => 5
  | .function _ => 6
  | .userdata _ => 7
  | .thread => 8

/-- The pairs of a table filled with `lua_rawseti`, from `1` on; `nil` leaves no pair. -/
def arrayEntries (vs : List Value) : List (Value × Value) :=
  (vs.zipIdx 1).filterMap fun v ↦ if v.1 = .nil then none else some (.ofNat v.2, v.1)

/-- `lua_isfunction`. -/
def isFunction (h : Heap) : Value → Bool
  | .object a => match h[a]? with
    | some (.function _) => true
    | _ => false
  | _ => false

/-- The upvalues of a function that are followed when it is marshalled: Lua 5.2 has its
environment among them, which is not. -/
def followed (lua52 : Bool) (f : Closure) : List (String × Value) :=
  f.upvalues.filter fun u ↦ !(lua52 && u.1.startsWith "_ENV")

/-- **`b` is directly inside `a`**: a key or value of a table, or an upvalue of a Lua
function.  What is inside a table that has a `__persist` hook, or a userdata, is up to the
hook. -/
def Inside (lua52 : Bool) (h : Heap) (a b : Nat) : Prop :=
  b < h.length ∧ match h[a]? with
    | some (.table t) => t.persist = none ∧
        ∃ e ∈ t.entries, e.1 = .object b ∨ e.2 = .object b
    | some (.function f) => ∃ u ∈ followed lua52 f, u.2 = .object b
    | _ => False

/-- An object that cannot be sent: a coroutine, a function that is not a Lua function, a
userdata without a hook. -/
def Unsendable (h : Heap) (a : Nat) : Prop :=
  match h[a]? with
  | some .thread => True
  | some (.function f) => f.what ≠ .lua
  | some (.userdata u) => u.wrap = none ∧ u.persist = none
  | _ => False

/-- Some argument is, or holds at any depth, an object that cannot be sent. -/
def Spoiled (lua52 : Bool) (h : Heap) (args : List Value) : Prop :=
  ∃ a b, .object a ∈ args ∧ a < h.length ∧
    Relation.ReflTransGen (Inside lua52 h) a b ∧ Unsendable h b

/-- No table and no userdata has a hook. -/
def HookFree (h : Heap) : Prop :=
  ∀ o ∈ h, match o with
    | .table t => t.persist = none
    | .userdata u => u.wrap = none ∧ u.persist = none
    | _ => True

section

variable {lua52 : Bool} {h : Heap} {a b : Nat} {new : List Object}

/-- Objects stay what they are when others are allocated. -/
theorem getElem?_append_of_lt (ha : a < h.length) : (h ++ new)[a]? = h[a]? :=
  List.getElem?_append_left ha

theorem mem_arrayEntries {vs : List Value} {v : Value} (hv : v ∈ vs) (hn : v ≠ .nil) :
    ∃ k, (k, v) ∈ arrayEntries vs := by
  obtain ⟨i, hi⟩ := List.mem_iff_getElem?.1 hv
  refine ⟨.ofNat (1 + i), List.mem_filterMap.2 ⟨(v, 1 + i), ?_, if_neg hn⟩⟩
  exact List.mk_add_mem_zipIdx_iff_getElem?.2 hi

theorem Inside.lt (hi : Inside lua52 h a b) : a < h.length := by
  by_contra hn
  have hnone : h[a]? = none := List.getElem?_eq_none (Nat.le_of_not_lt hn)
  have := hi.2
  rw [hnone] at this
  exact this

theorem Inside.append (hi : Inside lua52 h a b) (new : List Object) :
    Inside lua52 (h ++ new) a b := by
  refine ⟨Nat.lt_of_lt_of_le hi.1 (by simp), ?_⟩
  rw [getElem?_append_of_lt hi.lt]
  exact hi.2

theorem Unsendable.append (hu : Unsendable h a) (new : List Object) :
    Unsendable (h ++ new) a := by
  have ha : a < h.length := by
    by_contra hn
    have hnone : h[a]? = none := List.getElem?_eq_none (Nat.le_of_not_lt hn)
    simp [Unsendable, hnone] at hu
  unfold Unsendable
  rw [getElem?_append_of_lt ha]
  exact hu

end

end Leda.Lua
