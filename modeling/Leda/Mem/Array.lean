import Leda.Lib.Bytes
import Leda.Lib.Heap
import Leda.Lib.Xfer

/-!
# Arrays of numbers in memory

`memarray.c`: a userdata that holds a block of memory of a C type, its length and its size in
bytes.  An array either owns its memory, which it then frees, or has inherited it from
somebody else (`MEMARRAY_INHERITED`).  `to_ptr` takes the memory out of an array, to be
adopted by another one with `from_ptr`, in this process or in another Lua state of it.

What `size_t` holds is a `UInt64`, with its arithmetic.  An element is modelled by its bits; the
conversion between these and a Lua number is the C compiler's.  The sizes of the types
are those of the usual machines, where only `long` differs.  `crash` is undefined
behaviour: memory is accessed that is not there, or a division is by zero.
-/

namespace Leda.Mem

open Leda.Lib

/-- The machine a process runs on. -/
structure Host where
  /-- `little_endian`, found out when the module is opened. -/
  littleEndian : Bool
  /-- `sizeof(long)` -/
  long : Nat
  long_eq : long = 4 ∨ long = 8

/-- The types of elements, in the order of `m_types`. -/
inductive MemType
  | char
  | uchar
  | short
  | ushort
  | int
  | uint
  | long
  | ulong
  | float
  | double
deriving Repr, DecidableEq

namespace MemType

/-- `m_types` -/
def all : List MemType :=
  [char, uchar, short, ushort, int, uint, long, ulong, float, double]

/-- `m_types[type].name` -/
def name : MemType → String
  | char => "char"
  | uchar => "uchar"
  | short => "short"
  | ushort => "ushort"
  | int => "int"
  | uint => "uint"
  | long => "long"
  | ulong => "ulong"
  | float => "float"
  | double => "double"

/-- `m_types[type].size` -/
def size (w : Host) : MemType → Nat
  | char | uchar => 1
  | short | ushort => 2
  | int | uint | float => 4
  | long | ulong => w.long
  | double => 8

/-- The sizes the loops of `to_netstr` and `from_netstr` are written for. -/
theorem size_cases (w : Host) (t : MemType) :
    t.size w = 1 ∨ t.size w = 2 ∨ t.size w = 4 ∨ t.size w = 8 := by
  cases t with
  | long | ulong => rcases w.long_eq with h | h <;> simp [size, h]
  | _ => simp [size]

theorem size_pos (w : Host) (t : MemType) : 0 < t.size w := by
  rcases t.size_cases w with h | h | h | h <;> rw [h] <;> exact Nat.succ_pos _

theorem size_le (w : Host) (t : MemType) : t.size w ≤ 8 := by
  rcases t.size_cases w with h | h | h | h <;> rw [h] <;> omega

end MemType

/-- `get_memtype` -/
def getMemtype (typename : String) : Option MemType :=
  MemType.all.find? fun t ↦ typename = t.name

/-- A type is found under its own name. -/
theorem getMemtype_name (t : MemType) : getMemtype t.name = some t := by
  cases t <;> rfl

/-- `memarray_t` -/
structure Memarray where
  size : UInt64
  length : UInt64
  type : MemType
  inherited : Bool
  data : Option Addr
deriving Repr, DecidableEq

/-- What the functions return to Lua. -/
inductive Value
  | none
  | /-- The array itself, or the new one. -/
    array
  | number (n : UInt64)
  | /-- The number whose representation in the type of the array is `bits`. -/
    element (bits : Nat)
  | string (s : List UInt8)
  | name (s : String)
  | lightuserdata (p : Option Addr)
deriving Repr, DecidableEq

/-- The bytes of an element in the memory of the host. -/
def Host.bytes (w : Host) (size bits : Nat) : List UInt8 :=
  if w.littleEndian then le size bits else (le size bits).reverse

/-- The element that bytes of its memory are. -/
def Host.element (w : Host) (bs : List UInt8) : Nat :=
  if w.littleEndian then ofLe bs else ofLe bs.reverse

/-- Memory is read at a pointer; nothing is, where no bytes are asked for. -/
def readAt (h : Blocks) (p : Option Addr) (n : Nat) : Option (List UInt8) :=
  if n = 0 then some [] else p.bind fun a ↦ h.read a n

/-- Memory is written at a pointer. -/
def writeAt (h : Blocks) (p : Option Addr) (v : List UInt8) : Option Blocks :=
  if v = [] then some h else p.bind fun a ↦ h.write a v

/-! ## Life and death -/

/-- `memarray_new` -/
def memarrayNew : Memarray := ⟨0, 0, .char, true, none⟩

/-- `memarray_get`, for a userdata of the right kind. -/
def memarrayGet (m : Memarray) : Xfer Memarray :=
  if m.inherited = false ∧ m.data = none then .raised "Data was invalidated" else .ok m

/-- `memarray_delete`: the heap it leaves; the array is then a new one. -/
def memarrayDelete (h : Blocks) (m : Memarray) : Option Blocks :=
  if m.inherited then some h
  else
    match m.data with
    | none => some h
    | some p => h.free p

/-- The second argument of `memarray` and `realloc`. -/
inductive TypeArg
  | absent
  | name (s : String)
  | /-- A number, and what `luaL_optstring` makes of it. -/
    number (n : UInt64) (text : String)
deriving Repr, DecidableEq

/-- The arguments of `memarray` and `realloc`; `address` is `some` when there are four, and
then `lua_touserdata` of the fourth. -/
structure ReallocArgs where
  type : TypeArg
  length : Option UInt64 := none
  address : Option (Option Addr) := none
deriving Repr, DecidableEq

/-- The name of the type and the length that are meant. -/
def ReallocArgs.request : ReallocArgs → String × UInt64
  | ⟨.number n _, none, none⟩ => ("double", n)
  | ⟨.absent, l, _⟩ => ("uchar", l.getD 0)
  | ⟨.name s, l, _⟩ => (s, l.getD 0)
  | ⟨.number _ t, l, _⟩ => (t, l.getD 0)

/-- `length * m_types[type].size` -/
def byteSize (w : Host) (t : MemType) (length : UInt64) : UInt64 :=
  length * UInt64.ofNat (t.size w)

/-- `Lrealloc`.  `mem` is what `malloc` returns: `NULL`, or memory with this in it. -/
def realloc (w : Host) (h : Blocks) (m : Memarray) (args : ReallocArgs)
    (mem : Option (Nat → UInt8)) : Blocks × Memarray × Xfer Value :=
  match memarrayGet m with
  | .raised e => (h, m, .raised e)
  | .crash => (h, m, .crash)
  | .ok _ =>
      let (typename, length) := args.request
      match getMemtype typename with
      | none => (h, m, .raised ("memarray:realloc(): unknown type '" ++ typename ++ "'"))
      | some t =>
          let size := byteSize w t length
          match memarrayDelete h m with
          | none => (h, m, .crash)
          | some h =>
              match args.address, mem with
              | some p, _ => (h, ⟨size, length, t, true, p⟩, .ok .array)
              | none, some fill =>
                  (h.alloc ((List.range size.toNat).map fill),
                    ⟨size, length, t, false, some ⟨h.next, 0⟩⟩, .ok .array)
              | none, none =>
                  if size ≠ 0 then
                    (h, { memarrayNew with type := t },
                      .raised ("memarray:__call(): memory allocation failure for " ++
                        toString size.toInt64 ++ " bytes (" ++ typename ++ " x " ++
                        toString length.toInt64 ++ ")\n"))
                  else (h, ⟨size, length, t, false, none⟩, .ok .array)

/-- `Lfrom_ptr`: the new array, if there is one.  A type that is no string is a `NULL`
for `strcmp`. -/
def fromPtr (w : Host) (p : Option Addr) (typename : Option String) (length : UInt64) :
    Option Memarray × Xfer Value :=
  match typename with
  | none => (none, .crash)
  | some typename =>
      match getMemtype typename with
      | none => (none, .raised ("memarray:realloc(): unknown type '" ++ typename ++ "'"))
      | some t => (some ⟨byteSize w t length, length, t, false, p⟩, .ok .array)

/-! ## Access -/

/-- `L__index` with a number; `n` is the number as a `size_t`. -/
def index (w : Host) (h : Blocks) (m : Memarray) (n : UInt64) : Xfer Value :=
  memarrayGet m >>= fun _ ↦
    let index := n - 1
    if m.length ≤ index then .raised "index out of range"
    else
      match readAt h (m.data.map fun p ↦ p.add (index.toNat * m.type.size w)) (m.type.size w) with
      | none => .crash
      | some bs => .ok (.element (w.element bs))

/-- `L__newindex` with a number as its key; `bits` represents the value. -/
def newindex (w : Host) (h : Blocks) (m : Memarray) (n : UInt64) (bits : Nat) :
    Blocks × Xfer Value :=
  match memarrayGet m with
  | .raised e => (h, .raised e)
  | .crash => (h, .crash)
  | .ok _ =>
      let index := n - 1
      if m.length ≤ index then (h, .raised "index out of range")
      else
        match writeAt h (m.data.map fun p ↦ p.add (index.toNat * m.type.size w))
            (w.bytes (m.type.size w) bits) with
        | none => (h, .crash)
        | some h => (h, .ok .none)

/-- `Lptr` -/
def ptr (w : Host) (m : Memarray) (n : Option UInt64) : Xfer Value :=
  memarrayGet m >>= fun _ ↦
    let index := n.getD 0
    if m.length ≤ index then .raised "index out of range"
    else .ok (.lightuserdata (m.data.map fun p ↦ p.add (index.toNat * m.type.size w)))

/-- `Lto_ptr` -/
def toPtr (m : Memarray) : Memarray × Xfer Value :=
  match memarrayGet m with
  | .raised e => (m, .raised e)
  | .crash => (m, .crash)
  | .ok _ => ({ m with data := none }, .ok (.lightuserdata m.data))

/-- `Lto_str` -/
def toStr (h : Blocks) (m : Memarray) : Xfer Value :=
  memarrayGet m >>= fun _ ↦
    match readAt h m.data m.size.toNat with
    | none => .crash
    | some bs => .ok (.string bs)

/-- `Lfrom_str` -/
def fromStr (h : Blocks) (m : Memarray) (s : List UInt8) : Blocks × Xfer Value :=
  match memarrayGet m with
  | .raised e => (h, .raised e)
  | .crash => (h, .crash)
  | .ok _ =>
      if m.size.toNat ≠ s.length then (h, .raised "memarray:to_str size mismatch")
      else
        match writeAt h m.data s with
        | none => (h, .crash)
        | some h => (h, .ok .array)

/-- The loops over `PUT_SWAP_..` and `COPY_SWAP_..`: the bytes of each of `n` items in the
opposite order. -/
def swapItems (item : Nat) : Nat → List UInt8 → List UInt8
  | 0, _ => []
  | n + 1, bs => (bs.take item).reverse ++ swapItems item n (bs.drop item)

/-- How often a loop runs that ends when `size` bytes are done. -/
def rounds (item size : Nat) : Nat := (size + item - 1) / item

/-- `Lto_netstr`.  An array of no elements divides by zero. -/
def toNetstr (w : Host) (h : Blocks) (m : Memarray) : Xfer Value :=
  memarrayGet m >>= fun _ ↦
    if m.length = 0 then .crash
    else
      let item := m.size.toNat / m.length.toNat
      if w.littleEndian ∧ item ≠ 1 then
        if item = 2 ∨ item = 4 ∨ item = 8 then
          let n := rounds item m.size.toNat
          match readAt h m.data (n * item) with
          | none => .crash
          | some bs => .ok (.string (swapItems item n bs))
        else .raised "memarray:to_netstr(): unsupported item_size"
      else
        match readAt h m.data m.size.toNat with
        | none => .crash
        | some bs => .ok (.string bs)

/-- `Lfrom_netstr` -/
def fromNetstr (w : Host) (h : Blocks) (m : Memarray) (s : List UInt8) : Blocks × Xfer Value :=
  match memarrayGet m with
  | .raised e => (h, .raised e)
  | .crash => (h, .crash)
  | .ok _ =>
      if m.size.toNat ≠ s.length then (h, .raised "memarray:to_netstr size mismatch")
      else if m.length = 0 then (h, .crash)
      else
        let item := m.size.toNat / m.length.toNat
        if w.littleEndian ∧ item ≠ 1 then
          if item = 2 ∨ item = 4 ∨ item = 8 then
            let n := rounds item m.size.toNat
            -- the loop reads whole items of the string
            if n * item ≠ s.length then (h, .crash)
            else
              match writeAt h m.data (swapItems item n s) with
              | none => (h, .crash)
              | some h => (h, .ok .none)
          else (h, .raised "memarray:from_netstr(): unsupported item_size")
        else
          match writeAt h m.data s with
          | none => (h, .crash)
          | some h => (h, .ok .none)

end Leda.Mem
