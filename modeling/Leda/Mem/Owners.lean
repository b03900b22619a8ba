import Leda.Lib.Placement
import Leda.Lib.Run
import Leda.Mem.Array

/-!
# Who owns the memory of an array

A `World` is the heap of a process with all its arrays, in whatever Lua states they are, and
the memory that is on its way from one array to another: `to_ptr` has taken it out of an
array, to be given to `from_ptr` with the type and the length of the array, which is what the
`__wrap` hook of `memarray.lua` does.

Nothing in `memarray.c` checks that.  `Fair` says what a program has to see to for it: it
asks for sizes that a `size_t` holds, gives no address of its own, adopts with `from_ptr`
what was sent, once, and asks for no network string of an array without elements.
`memory_safe` is what it gets: no operation leaves defined behaviour, which includes that
nothing is freed twice and nothing freed is accessed, and every live block is in the hands
of one array, or on its way.

The argument is the one of every "has one owner": `holds` is a placement of the live blocks
(`Leda.Lib.Placement`), and an operation creates a block, destroys one, or moves one.
-/

namespace Leda.Mem

open Leda.Lib List

/-- The name of an array, by the order of creation. -/
abbrev ArrayId := Nat

/-- Memory taken out of an array, with the type and length it had. -/
structure Sent where
  addr : Addr
  type : MemType
  length : UInt64
deriving Repr, DecidableEq

/-- The arrays of a process and its heap. -/
structure World where
  heap : Blocks
  array : ArrayId → Option Memarray
  next : ArrayId
  /-- What `to_ptr` took out of arrays and `from_ptr` has not adopted. -/
  sent : List Sent

/-- A call of the module. -/
inductive Op
  | /-- `memarray(..)` -/
    call (args : ReallocArgs) (mem : Option (Nat → UInt8))
  | realloc (a : ArrayId) (args : ReallocArgs) (mem : Option (Nat → UInt8))
  | index (a : ArrayId) (n : UInt64)
  | newindex (a : ArrayId) (n : UInt64) (bits : Nat)
  | ptr (a : ArrayId) (n : Option UInt64)
  | toPtr (a : ArrayId)
  | fromPtr (p : Option Addr) (typename : Option String) (length : UInt64)
  | toStr (a : ArrayId)
  | fromStr (a : ArrayId) (s : List UInt8)
  | toNetstr (a : ArrayId)
  | fromNetstr (a : ArrayId) (s : List UInt8)
  | /-- `__gc` -/
    gc (a : ArrayId)

namespace World

/-- No arrays, and nothing allocated. -/
def empty : World := ⟨.empty, fun _ ↦ none, 0, []⟩

/-- Change an array and the heap. -/
def put (σ : World) (a : ArrayId) (h : Blocks) (m : Memarray) : World :=
  { σ with heap := h, array := Function.update σ.array a (some m) }

/-- A new array. -/
def insert (σ : World) (m : Memarray) : World :=
  { σ with array := Function.update σ.array σ.next (some m), next := σ.next + 1 }

/-- What `to_ptr` hands out, if the array owns memory. -/
def handOut (m : Memarray) : List Sent :=
  if m.inherited then [] else (m.data.map fun p ↦ ⟨p, m.type, m.length⟩).toList

/-- What is left of the memory on its way when `from_ptr` was called. -/
def adopt (sent : List Sent) (p : Option Addr) (m : Memarray) : List Sent :=
  match p with
  | some p => sent.erase ⟨p, m.type, m.length⟩
  | none => sent

/-- A call on an array; `luaL_checkudata` fails on anything else. -/
def on (σ : World) (a : ArrayId) (f : Memarray → World × Xfer Value) : World × Xfer Value :=
  match σ.array a with
  | some m => f m
  | none => (σ, .raised "leda_memarray* expected")

/-- A call: the world it leaves, and how it ends. -/
def act (w : Host) (σ : World) : Op → World × Xfer Value
  | .call args mem =>
      let r := Mem.realloc w σ.heap memarrayNew args mem
      ((σ.insert r.2.1).put σ.next r.1 r.2.1, r.2.2)
  | .realloc a args mem => σ.on a fun m ↦
      let r := Mem.realloc w σ.heap m args mem
      (σ.put a r.1 r.2.1, r.2.2)
  | .index a n => σ.on a fun m ↦ (σ, Mem.index w σ.heap m n)
  | .newindex a n bits => σ.on a fun m ↦
      let r := Mem.newindex w σ.heap m n bits
      (σ.put a r.1 m, r.2)
  | .ptr a n => σ.on a fun m ↦ (σ, Mem.ptr w m n)
  | .toPtr a => σ.on a fun m ↦
      let r := Mem.toPtr m
      ({ σ.put a σ.heap r.1 with sent := handOut m ++ σ.sent }, r.2)
  | .fromPtr p typename length =>
      match Mem.fromPtr w p typename length with
      | (some m, r) => ({ σ.insert m with sent := adopt σ.sent p m }, r)
      | (none, r) => (σ, r)
  | .toStr a => σ.on a fun m ↦ (σ, Mem.toStr σ.heap m)
  | .fromStr a s => σ.on a fun m ↦
      let r := Mem.fromStr σ.heap m s
      (σ.put a r.1 m, r.2)
  | .toNetstr a => σ.on a fun m ↦ (σ, Mem.toNetstr w σ.heap m)
  | .fromNetstr a s => σ.on a fun m ↦
      let r := Mem.fromNetstr w σ.heap m s
      (σ.put a r.1 m, r.2)
  | .gc a => σ.on a fun m ↦
      match memarrayDelete σ.heap m with
      | none => (σ, .crash)
      | some h => ({ σ with heap := h, array := Function.update σ.array a none }, .ok .none)

/-- A call that does not end the process. -/
def step (w : Host) (σ : World) (op : Op) : Option World :=
  if (σ.act w op).2 = .crash then none else some (σ.act w op).1

end World

/-! ## What a program has to see to -/

/-- The size that is asked for fits into a `size_t`, and no address is given. -/
def ReallocArgs.Fair (w : Host) (args : ReallocArgs) : Prop :=
  args.address = none ∧
    ∀ t, getMemtype args.request.1 = some t → args.request.2.toNat * t.size w < 2 ^ 64

/-- **What a program has to see to** for a call. -/
def Op.Fair (w : Host) (σ : World) : Op → Prop
  | .call args _ | .realloc _ args _ => args.Fair w
  | .fromPtr p typename length => ∃ s, typename = some s ∧
      ∀ t, getMemtype s = some t → ∀ q, p = some q → ⟨q, t, length⟩ ∈ σ.sent
  | .toNetstr a | .fromNetstr a _ => ∀ m, σ.array a = some m → m.length ≠ 0
  | _ => True

/-! ## The invariant -/

/-- The block an array has to free. -/
def Memarray.owned (m : Memarray) : List BlockId :=
  if m.inherited then [] else (m.data.map Addr.block).toList

/-- An array has the memory it says it has. -/
structure Memarray.Fits (w : Host) (h : Blocks) (m : Memarray) : Prop where
  borrowed : m.inherited = true → m.data = none ∧ m.size = 0 ∧ m.length = 0
  own : m.inherited = false → ∀ p, m.data = some p → p.offset = 0 ∧
    m.size.toNat = m.length.toNat * m.type.size w ∧
    ∃ bytes, h.block p.block = some bytes ∧ bytes.length = m.size.toNat

/-- And so has what is on its way. -/
structure Sent.Fits (w : Host) (h : Blocks) (x : Sent) : Prop where
  offset : x.addr.offset = 0
  lt : x.length.toNat * x.type.size w < 2 ^ 64
  block : ∃ bytes, h.block x.addr.block = some bytes ∧
    bytes.length = x.length.toNat * x.type.size w

/-- Who has which blocks: the arrays, and, as `none`, what is on its way. -/
def World.holds (σ : World) : Option ArrayId → List BlockId
  | none => σ.sent.map fun x ↦ x.addr.block
  | some a => ((σ.array a).map Memarray.owned).getD []

/-- **Every live block has one owner**, and every owner the memory it counts on. -/
structure Sound (w : Host) (σ : World) : Prop where
  fits : ∀ a m, σ.array a = some m → m.Fits w σ.heap
  sentFits : ∀ x ∈ σ.sent, x.Fits w σ.heap
  exclusive : Exclusive σ.holds
  held : ∀ b, σ.heap.Live b → ∃ p, b ∈ σ.holds p
  fresh : ∀ a, σ.next ≤ a → σ.array a = none

/-- A block has the same length in two heaps, or is live in none. -/
def SameAt (h h' : Blocks) (b : BlockId) : Prop :=
  (h'.block b).map List.length = (h.block b).map List.length

namespace SameAt

variable {h h' : Blocks} {b : BlockId}

theorem of_eq (hb : h'.block b = h.block b) : SameAt h h' b := congrArg _ hb

theorem live (hs : SameAt h h' b) : h'.Live b ↔ h.Live b := by
  have hb := congrArg Option.isSome hs
  simp only [Option.isSome_map] at hb
  unfold Blocks.Live
  rw [hb]

/-- Memory of a length is still there. -/
theorem exists_block (hs : SameAt h h' b) {n : Nat}
    (hb : ∃ bytes, h.block b = some bytes ∧ bytes.length = n) :
    ∃ bytes, h'.block b = some bytes ∧ bytes.length = n := by
  obtain ⟨bytes, hb, hn⟩ := hb
  unfold SameAt at hs
  rw [hb, Option.map_some, hn] at hs
  exact Option.map_eq_some_iff.1 hs

/-- Writing changes no length. -/
theorem write {p : Addr} {v : List UInt8} (hw : h.write p v = some h') : SameAt h h' b := by
  unfold Blocks.write at hw
  split at hw
  · cases hw
  · rename_i bytes hb
    split at hw
    · rename_i hv
      obtain rfl := Option.some.inj hw
      by_cases hbp : b = p.block
      · subst hbp
        simp [SameAt, Blocks.set, hb, Blocks.length_patch hv]
      · simp [SameAt, Blocks.set, hbp]
    · cases hw

theorem writeAt {p : Option Addr} {v : List UInt8} (hw : writeAt h p v = some h') :
    SameAt h h' b := by
  unfold Mem.writeAt at hw
  split at hw
  · obtain rfl := Option.some.inj hw
    exact of_eq rfl
  · obtain ⟨q, -, hw⟩ := Option.bind_eq_some_iff.1 hw
    exact write hw

end SameAt

namespace Memarray

variable {w : Host} {h h' : Blocks} {m : Memarray} {b : BlockId}

/-- An array owns at most one block. -/
theorem nodup_owned (m : Memarray) : m.owned.Nodup := by
  unfold owned
  split
  · exact nodup_nil
  · cases m.data with
    | none => exact nodup_nil
    | some p => exact nodup_singleton _

theorem mem_owned : b ∈ m.owned ↔ m.inherited = false ∧ ∃ p, m.data = some p ∧ p.block = b := by
  unfold owned
  cases m.inherited <;> simp [Option.map_eq_some_iff]

/-- A new array owns nothing. -/
theorem owned_of_inherited (hi : m.inherited = true) : m.owned = [] := if_pos hi

/-- What counts for an array is the length of its block. -/
theorem Fits.congr (hm : m.Fits w h) (hb : ∀ b ∈ m.owned, SameAt h h' b) : m.Fits w h' :=
  ⟨hm.borrowed, fun hi p hp ↦ by
    obtain ⟨ho, hn, hblock⟩ := hm.own hi p hp
    exact ⟨ho, hn, (hb _ (mem_owned.2 ⟨hi, p, hp, rfl⟩)).exists_block hblock⟩⟩

/-- What an array owns is live. -/
theorem Fits.live (hm : m.Fits w h) (hb : b ∈ m.owned) : h.Live b := by
  obtain ⟨hi, p, hp, rfl⟩ := mem_owned.1 hb
  obtain ⟨-, -, bytes, hb, -⟩ := hm.own hi p hp
  unfold Blocks.Live
  rw [hb]
  rfl

/-- An array without memory. -/
theorem Fits.blank (t : MemType) : ({ memarrayNew with type := t } : Memarray).Fits w h :=
  ⟨fun _ ↦ ⟨rfl, rfl, rfl⟩, nofun⟩

end Memarray

theorem Sent.Fits.congr {w : Host} {h h' : Blocks} {x : Sent} (hx : x.Fits w h)
    (hb : SameAt h h' x.addr.block) : x.Fits w h' :=
  ⟨hx.offset, hx.lt, hb.exists_block hx.block⟩

theorem Sent.Fits.live {w : Host} {h : Blocks} {x : Sent} (hx : x.Fits w h) :
    h.Live x.addr.block := by
  obtain ⟨bytes, hb, -⟩ := hx.block
  unfold Blocks.Live
  rw [hb]
  rfl

/-! ## What the operations do to it -/

namespace World

variable {σ : World} {a c : ArrayId} {h h' : Blocks} {m m' : Memarray}

/-- What an array holds. -/
theorem holds_some (ha : σ.array a = some m) : σ.holds (some a) = m.owned := by
  simp [holds, ha]

/-- Who holds what after an array changed. -/
theorem holds_put (σ : World) (a : ArrayId) (h : Blocks) (m : Memarray) :
    (σ.put a h m).holds = Function.update σ.holds (some a) m.owned := by
  funext p
  cases p with
  | none => rfl
  | some c =>
      by_cases hc : c = a
      · subst hc
        simp [holds, put]
      · simp [holds, put, hc]

@[simp] theorem put_put : (σ.put a h m).put a h' m' = σ.put a h' m' := by
  simp [put]

theorem put_self (ha : σ.array a = some m) : σ.put a σ.heap m = σ := by
  simp [put, ← ha]

/-- The first thing that is done with a new array. -/
theorem insert_put : (σ.insert m).put σ.next h m' = (σ.insert memarrayNew).put σ.next h m' := by
  simp [insert, put]

end World

namespace Sound

variable {w : Host} {σ : World} {a : ArrayId} {m m' : Memarray} {h' : Blocks} {b : BlockId}
  {p : Option ArrayId} {bytes : List UInt8}

/-- What is held is live. -/
theorem live (hs : Sound w σ) (hb : b ∈ σ.holds p) : σ.heap.Live b := by
  cases p with
  | none =>
      obtain ⟨x, hx, rfl⟩ := mem_map.1 hb
      exact (hs.sentFits x hx).live
  | some a =>
      cases ha : σ.array a with
      | none => simp [World.holds, ha] at hb
      | some m => exact (hs.fits a m ha).live (World.holds_some ha ▸ hb)

/-- Nobody holds a block that has not been allocated. -/
theorem next_notMem (hs : Sound w σ) (p : Option ArrayId) : σ.heap.next ∉ σ.holds p := by
  intro hb
  have hl := hs.live hb
  unfold Blocks.Live at hl
  rw [σ.heap.fresh _ (Nat.le_refl _)] at hl
  cases hl

/-- **One array was changed.**  It has given up blocks, which were freed, or has got a new
one, and nothing happened to the blocks that it has nothing to do with. -/
theorem change (hs : Sound w σ) (ha : σ.array a = some m) (hm : m'.Fits w h')
    (hown : m'.owned ⊆ σ.heap.next :: m.owned)
    (hsame : ∀ b, b ∉ m.owned → b ∉ m'.owned → SameAt σ.heap h' b)
    (hdead : ∀ b ∈ m.owned, b ∉ m'.owned → ¬ h'.Live b) : Sound w (σ.put a h' m') := by
  -- what others hold is none of its business
  have hother : ∀ p, p ≠ some a → ∀ b ∈ σ.holds p, SameAt σ.heap h' b := by
    intro p hp b hb
    have hnm : b ∉ m.owned := fun hb' ↦
      hp (hs.exclusive.place_unique hb (World.holds_some ha ▸ hb'))
    refine hsame b hnm fun hb' ↦ ?_
    rcases mem_cons.1 (hown hb') with rfl | hb'
    · exact hs.next_notMem p hb
    · exact hnm hb'
  constructor
  · intro c n hc
    by_cases hca : c = a
    · subst hca
      simp only [World.put, Function.update_self, Option.some.injEq] at hc
      exact hc ▸ hm
    · simp only [World.put, Function.update_of_ne hca] at hc
      refine (hs.fits c n hc).congr fun b hb ↦ hother (some c) ?_ b ?_
      · exact fun he ↦ hca (Option.some.inj he)
      · rw [World.holds_some hc]
        exact hb
  · intro x hx
    exact (hs.sentFits x hx).congr (hother none (by simp) _ (mem_map_of_mem hx))
  · rw [World.holds_put]
    refine hs.exclusive.insert_fresh (p := some a) hs.next_notMem
      (fun r hr ↦ Function.update_of_ne hr _ _) ?_
    rw [Function.update_self, World.holds_some ha]
    exact subperm_of_subset m'.nodup_owned hown
  · intro b hb
    rw [World.holds_put]
    by_cases hm' : b ∈ m'.owned
    · exact ⟨some a, by rwa [Function.update_self]⟩
    by_cases hbm : b ∈ m.owned
    · exact absurd hb (hdead b hbm hm')
    · obtain ⟨p, hp⟩ := hs.held b ((hsame b hbm hm').live.1 hb)
      have hpa : p ≠ some a := by
        rintro rfl
        exact hbm (World.holds_some ha ▸ hp)
      exact ⟨p, by rwa [Function.update_of_ne hpa]⟩
  · intro c hc
    have hca : c ≠ a := by
      rintro rfl
      rw [hs.fresh c hc] at ha
      cases ha
    simp only [World.put, Function.update_of_ne hca]
    exact hs.fresh c hc

/-- **Writing** moves nothing. -/
theorem write (hs : Sound w σ) (ha : σ.array a = some m) (hh : ∀ b, SameAt σ.heap h' b) :
    Sound w (σ.put a h' m) :=
  hs.change ha ((hs.fits a m ha).congr fun b _ ↦ hh b) (subset_cons_self _ _) (fun b _ _ ↦ hh b)
    fun _ hb hn ↦ absurd hb hn

/-- **Freeing**: `memarray_delete` succeeds, and leaves an array that owns nothing. -/
theorem delete (hs : Sound w σ) (ha : σ.array a = some m) (t : MemType) :
    ∃ h', memarrayDelete σ.heap m = some h' ∧
      Sound w (σ.put a h' { memarrayNew with type := t }) := by
  have hm := hs.fits a m ha
  have hnil : ({ memarrayNew with type := t } : Memarray).owned = [] := rfl
  have hkeep : m.owned = [] → Sound w (σ.put a σ.heap { memarrayNew with type := t }) :=
    fun ho ↦ hs.change ha (Memarray.Fits.blank t) (hnil ▸ nil_subset _)
      (fun _ _ _ ↦ .of_eq rfl) fun b hb ↦ by
        rw [ho] at hb
        cases hb
  unfold memarrayDelete
  cases hi : m.inherited with
  | true => exact ⟨σ.heap, rfl, hkeep (Memarray.owned_of_inherited hi)⟩
  | false =>
      cases hd : m.data with
      | none => exact ⟨σ.heap, rfl, hkeep (by simp [Memarray.owned, hi, hd])⟩
      | some p =>
          obtain ⟨ho, -, bytes, hb, -⟩ := hm.own hi p hd
          have hp : p = ⟨p.block, 0⟩ := by rw [← ho]
          obtain ⟨h', hf⟩ := Blocks.exists_free hb
          rw [← hp] at hf
          obtain ⟨-, -, hgone, hrest, -⟩ := Blocks.free_spec hf
          have hown : m.owned = [p.block] := by simp [Memarray.owned, hi, hd]
          refine ⟨h', by simpa using hf, hs.change ha (Memarray.Fits.blank t)
            (hnil ▸ nil_subset _) (fun b hb _ ↦ .of_eq (hrest b ?_)) fun b hb _ ↦ ?_⟩
          · rwa [hown, mem_singleton] at hb
          · rw [hown, mem_singleton] at hb
            subst hb
            unfold Blocks.Live
            rw [hgone]
            exact Bool.false_ne_true

/-- **Allocating**, for an array that owns nothing. -/
theorem fill (hs : Sound w σ) (ha : σ.array a = some m) (ho : m.owned = [])
    {size length : UInt64} {t : MemType} (hn : size.toNat = length.toNat * t.size w)
    (hb : bytes.length = size.toNat) :
    Sound w (σ.put a (σ.heap.alloc bytes)
      ⟨size, length, t, false, some ⟨σ.heap.next, 0⟩⟩) := by
  have hnew : (⟨size, length, t, false, some ⟨σ.heap.next, 0⟩⟩ : Memarray).owned =
      [σ.heap.next] := rfl
  refine hs.change ha ⟨nofun, fun _ p hp ↦ ?_⟩ ?_ (fun b _ hb' ↦ ?_) ?_
  · obtain rfl := Option.some.inj hp
    exact ⟨rfl, hn, bytes, Blocks.block_alloc_self, hb⟩
  · rw [hnew, ho]
    exact Subset.refl _
  · rw [hnew, mem_singleton] at hb'
    exact .of_eq (Blocks.block_alloc_of_ne hb')
  · intro b hb
    rw [ho] at hb
    cases hb

/-- An array that owns nothing becomes another one that owns nothing. -/
theorem vacate (hs : Sound w σ) (ha : σ.array a = some m) (ho : m.owned = [])
    (hm : m'.Fits w σ.heap) (ho' : m'.owned = []) : Sound w (σ.put a σ.heap m') := by
  refine hs.change ha hm ?_ (fun _ _ _ ↦ .of_eq rfl) ?_
  · rw [ho']
    exact nil_subset _
  · intro b hb
    rw [ho] at hb
    cases hb

/-- **Passing on**: an array and what is on its way share out what they held. -/
theorem pass (hs : Sound w σ) {σ' : World} (hheap : σ'.heap = σ.heap)
    (harray : σ'.array = Function.update σ.array a (some m'))
    (hfresh : ∀ c, σ'.next ≤ c → σ'.array c = none) (hm : m'.Fits w σ.heap)
    (hsent : ∀ x ∈ σ'.sent, x.Fits w σ.heap)
    (hp : m'.owned ++ σ'.holds none ~ σ.holds (some a) ++ σ.holds none) : Sound w σ' := by
  have hself : σ'.holds (some a) = m'.owned := World.holds_some (by simp [harray])
  have hrest : ∀ p, p ≠ some a → p ≠ none → σ'.holds p = σ.holds p := by
    rintro (_ | c) hpa hpn
    · exact absurd rfl hpn
    · have hca : c ≠ a := fun he ↦ hpa (he ▸ rfl)
      simp only [World.holds, harray, Function.update_of_ne hca]
  constructor
  · intro c n hc
    rw [harray] at hc
    rw [hheap]
    by_cases hca : c = a
    · subst hca
      rw [Function.update_self] at hc
      exact Option.some.inj hc ▸ hm
    · rw [Function.update_of_ne hca] at hc
      exact hs.fits c n hc
  · intro x hx
    rw [hheap]
    exact hsent x hx
  · refine hs.exclusive.transfer (p := some a) (q := none) (by simp) hrest ?_
    rw [hself]
    exact hp.subperm
  · intro b hb
    rw [hheap] at hb
    obtain ⟨p, hbp⟩ := hs.held b hb
    by_cases hpp : p = some a ∨ p = none
    · have hmem : b ∈ σ.holds (some a) ++ σ.holds none := by
        rcases hpp with rfl | rfl
        · exact mem_append_left _ hbp
        · exact mem_append_right _ hbp
      rcases mem_append.1 (hp.mem_iff.2 hmem) with h | h
      · exact ⟨some a, hself ▸ h⟩
      · exact ⟨none, h⟩
    · rw [not_or] at hpp
      exact ⟨p, by rwa [hrest p hpp.1 hpp.2]⟩
  · exact hfresh

/-- A new array. -/
theorem insert (hs : Sound w σ) : Sound w (σ.insert memarrayNew) := by
  have hnone : σ.holds (some σ.next) = [] := by
    simp [World.holds, hs.fresh σ.next (Nat.le_refl _)]
  refine hs.pass (a := σ.next) rfl rfl (fun c hc ↦ ?_) (Memarray.Fits.blank .char) hs.sentFits ?_
  · have hne : c ≠ σ.next := Nat.ne_of_gt hc
    simp only [World.insert, Function.update_of_ne hne]
    exact hs.fresh c (Nat.le_of_succ_le hc)
  · rw [hnone]
    exact Perm.refl _

/-- An array that owns nothing is gone. -/
theorem remove (hs : Sound w σ) (ha : σ.array a = some m) (ho : m.owned = []) :
    Sound w { σ with array := Function.update σ.array a none } := by
  have hold : World.holds { σ with array := Function.update σ.array a none } = σ.holds := by
    funext p
    cases p with
    | none => rfl
    | some c =>
        by_cases hc : c = a
        · subst hc
          rw [World.holds_some ha, ho]
          simp [World.holds]
        · simp [World.holds, hc]
  refine ⟨fun c n hc ↦ ?_, hs.sentFits, hold ▸ hs.exclusive, hold ▸ hs.held, fun c hc ↦ ?_⟩
  · by_cases hca : c = a
    · subst hca
      simp at hc
    · simp only [Function.update_of_ne hca] at hc
      exact hs.fits c n hc
  · by_cases hca : c = a
    · subst hca
      simp
    · simp only [Function.update_of_ne hca]
      exact hs.fresh c hc

end Sound

/-! ## No call leaves defined behaviour -/

/-- The size of an array in bytes is what it says. -/
theorem toNat_byteSize {w : Host} {t : MemType} {length : UInt64}
    (h : length.toNat * t.size w < 2 ^ 64) :
    (byteSize w t length).toNat = length.toNat * t.size w := by
  have ht := t.size_le w
  have hs : (UInt64.ofNat (t.size w)).toNat = t.size w := by
    rw [UInt64.toNat_ofNat']
    omega
  unfold byteSize
  rw [UInt64.toNat_mul, hs]
  exact Nat.mod_eq_of_lt h

namespace Memarray.Fits

variable {w : Host} {h : Blocks} {m : Memarray} {off n : Nat}

/-- **What is inside an array is inside a live block.** -/
theorem inside (hm : m.Fits w h) (hg : memarrayGet m = .ok m) (hn : off + n ≤ m.size.toNat)
    (hn0 : n ≠ 0) : ∃ p bytes, m.data = some p ∧ p.offset = 0 ∧ h.block p.block = some bytes ∧
      bytes.length = m.size.toNat := by
  cases hi : m.inherited with
  | true =>
      have hz := (hm.borrowed hi).2.1
      rw [hz] at hn
      have : (0 : UInt64).toNat = 0 := rfl
      omega
  | false =>
      cases hd : m.data with
      | none => simp [memarrayGet, hi, hd] at hg
      | some p =>
          obtain ⟨ho, -, bytes, hb, hl⟩ := hm.own hi p hd
          exact ⟨p, bytes, rfl, ho, hb, hl⟩

/-- Reading inside an array. -/
theorem readAt (hm : m.Fits w h) (hg : memarrayGet m = .ok m) (hn : off + n ≤ m.size.toNat) :
    ∃ bs, readAt h (m.data.map fun p ↦ p.add off) n = some bs ∧ bs.length = n := by
  unfold Mem.readAt
  by_cases hn0 : n = 0
  · subst hn0
    exact ⟨[], rfl, rfl⟩
  · obtain ⟨p, bytes, hd, ho, hb, hl⟩ := hm.inside hg hn hn0
    have hle : (p.add off).offset + n ≤ bytes.length := by
      simp only [Addr.add, ho]
      omega
    rw [if_neg hn0, hd, Option.map_some, Option.bind_some]
    refine ⟨_, Blocks.read_eq (p := p.add off) hb hle, ?_⟩
    rw [length_take, length_drop]
    omega

/-- Writing inside an array. -/
theorem writeAt (hm : m.Fits w h) (hg : memarrayGet m = .ok m) {v : List UInt8}
    (hn : off + v.length ≤ m.size.toNat) :
    ∃ h', writeAt h (m.data.map fun p ↦ p.add off) v = some h' := by
  unfold Mem.writeAt
  by_cases hv : v = []
  · exact ⟨h, if_pos hv⟩
  · have hv0 : v.length ≠ 0 := fun h ↦ hv (length_eq_zero_iff.1 h)
    obtain ⟨p, bytes, hd, ho, hb, hl⟩ := hm.inside hg hn hv0
    have hle : (p.add off).offset + v.length ≤ bytes.length := by
      simp only [Addr.add, ho]
      omega
    rw [if_neg hv, hd, Option.map_some, Option.bind_some]
    obtain ⟨h', hw, -⟩ := Blocks.write_eq (p := p.add off) hb hle
    exact ⟨h', hw⟩

/-- An element is inside. -/
theorem element_le (hm : m.Fits w h) {i : UInt64} (hi : ¬ m.length ≤ i)
    (hg : memarrayGet m = .ok m) :
    i.toNat * m.type.size w + m.type.size w ≤ m.size.toNat := by
  have hlt : i.toNat + 1 ≤ m.length.toNat := by
    rw [UInt64.le_iff_toNat_le] at hi
    omega
  cases hb : m.inherited with
  | true =>
      have hz := (hm.borrowed hb).2.2
      rw [hz] at hlt
      have : (0 : UInt64).toNat = 0 := rfl
      omega
  | false =>
      cases hd : m.data with
      | none => simp [memarrayGet, hb, hd] at hg
      | some p =>
          obtain ⟨-, hn, -⟩ := hm.own hb p hd
          calc i.toNat * m.type.size w + m.type.size w
              = (i.toNat + 1) * m.type.size w := (Nat.succ_mul _ _).symm
            _ ≤ m.length.toNat * m.type.size w := Nat.mul_le_mul_right _ hlt
            _ = m.size.toNat := hn.symm

end Memarray.Fits

/-- `memarray_get` is of the array it is given. -/
theorem memarrayGet_cases (m : Memarray) :
    memarrayGet m = .ok m ∨ ∃ e, memarrayGet m = .raised e := by
  unfold memarrayGet
  split
  · exact .inr ⟨_, rfl⟩
  · exact .inl rfl

namespace Sound

variable {w : Host} {σ : World} {a : ArrayId} {m : Memarray}

/-- `realloc` of an array frees what it had. -/
theorem realloc (hs : Sound w σ) (ha : σ.array a = some m) {args : ReallocArgs}
    (hf : args.Fair w) (mem : Option (Nat → UInt8)) :
    (Mem.realloc w σ.heap m args mem).2.2 ≠ .crash ∧
      Sound w (σ.put a (Mem.realloc w σ.heap m args mem).1
        (Mem.realloc w σ.heap m args mem).2.1) := by
  have hsame : Sound w (σ.put a σ.heap m) := by
    rw [World.put_self ha]
    exact hs
  unfold Mem.realloc
  rcases memarrayGet_cases m with hg | ⟨e, hg⟩
  · cases ht : getMemtype args.request.1 with
    | none =>
        simp only [hg, ht]
        exact ⟨nofun, hsame⟩
    | some t =>
        obtain ⟨h, hd, hs'⟩ := hs.delete ha t
        have hself : (σ.put a h { memarrayNew with type := t }).array a =
            some { memarrayNew with type := t } := by simp [World.put]
        have hn := toNat_byteSize (hf.2 t ht)
        simp only [hg, ht, hd, hf.1]
        cases mem with
        | some fill =>
            refine ⟨nofun, ?_⟩
            have hlen : ((range (byteSize w t args.request.2).toNat).map fill).length =
                (byteSize w t args.request.2).toNat := by simp
            have hfill := hs'.fill hself rfl hn hlen
            rwa [World.put_put] at hfill
        | none =>
            by_cases hz : byteSize w t args.request.2 = 0
            · simp only [hz, ne_eq, not_true_eq_false, if_false]
              refine ⟨nofun, ?_⟩
              have hfit : (⟨0, args.request.2, t, false, none⟩ : Memarray).Fits w h :=
                ⟨nofun, nofun⟩
              have hv := hs'.vacate hself rfl hfit rfl
              rwa [World.put_put] at hv
            · simp only [ne_eq, hz, not_false_eq_true, if_true]
              exact ⟨nofun, hs'⟩
  · simp only [hg]
    exact ⟨nofun, hsame⟩

/-- `memarray(..)` makes an array and allocates for it. -/
theorem call (hs : Sound w σ) {args : ReallocArgs} (hf : args.Fair w)
    (mem : Option (Nat → UInt8)) :
    (σ.act w (.call args mem)).2 ≠ .crash ∧ Sound w (σ.act w (.call args mem)).1 := by
  have hself : (σ.insert memarrayNew).array σ.next = some memarrayNew := by
    simp [World.insert]
  have hr := hs.insert.realloc hself hf mem
  simp only [World.act, World.insert_put]
  exact hr

/-- What an array can hand out fits. -/
theorem fits_handOut (hs : Sound w σ) (ha : σ.array a = some m) :
    (∀ x ∈ World.handOut m, x.Fits w σ.heap) ∧
      (World.handOut m).map (fun x ↦ x.addr.block) = m.owned := by
  have hm := hs.fits a m ha
  unfold World.handOut Memarray.owned
  cases hi : m.inherited with
  | true => simp
  | false =>
      cases hd : m.data with
      | none => simp
      | some p =>
          obtain ⟨ho, hn, hb⟩ := hm.own hi p hd
          refine ⟨?_, rfl⟩
          intro x hx
          have hx : x = ⟨p, m.type, m.length⟩ := by simpa using hx
          subst hx
          exact ⟨ho, hn ▸ m.size.toNat_lt, hn ▸ hb⟩

/-- `to_ptr` puts the memory on its way. -/
theorem toPtr (hs : Sound w σ) (ha : σ.array a = some m) :
    (σ.act w (.toPtr a)).2 ≠ .crash ∧ Sound w (σ.act w (.toPtr a)).1 := by
  have hm := hs.fits a m ha
  obtain ⟨hfits, hblocks⟩ := hs.fits_handOut ha
  -- what is left of the array owns nothing
  have hpass : ∀ m' : Memarray, m'.owned = [] → m'.Fits w σ.heap →
      Sound w { σ.put a σ.heap m' with sent := World.handOut m ++ σ.sent } := by
    intro m' ho' hm'
    refine hs.pass (a := a) rfl rfl (fun c hc ↦ ?_) hm' (fun x hx ↦ ?_) ?_
    · have hca : c ≠ a := by
        rintro rfl
        rw [hs.fresh c hc] at ha
        cases ha
      simp only [World.put, Function.update_of_ne hca]
      exact hs.fresh c hc
    · exact (mem_append.1 hx).elim (hfits x) (hs.sentFits x)
    · simp only [World.holds, ho', ha, map_append, hblocks]
      exact Perm.refl _
  simp only [World.act, World.on, ha]
  unfold Mem.toPtr
  rcases memarrayGet_cases m with hg | ⟨e, hg⟩
  · rw [hg]
    refine ⟨nofun, hpass _ (by simp [Memarray.owned]) ⟨fun hi ↦ ?_, nofun⟩⟩
    exact ⟨rfl, (hm.borrowed hi).2⟩
  · rw [hg]
    refine ⟨nofun, hpass m ?_ hm⟩
    unfold memarrayGet at hg
    split at hg
    · rename_i hn
      simp [Memarray.owned, hn.2]
    · cases hg

/-- `from_ptr` of what is on its way makes an array of it. -/
theorem fromPtr (hs : Sound w σ) {p : Option Addr} {typename : Option String} {length : UInt64}
    (hf : (Op.fromPtr p typename length).Fair w σ) :
    (σ.act w (.fromPtr p typename length)).2 ≠ .crash ∧
      Sound w (σ.act w (.fromPtr p typename length)).1 := by
  obtain ⟨s, rfl, hf⟩ := hf
  have hnone : σ.holds (some σ.next) = [] := by
    simp [World.holds, hs.fresh σ.next (Nat.le_refl _)]
  have hfresh : ∀ (m : Memarray) c, σ.next + 1 ≤ c →
      Function.update σ.array σ.next (some m) c = none := by
    intro m c hc
    rw [Function.update_of_ne (Nat.ne_of_gt hc)]
    exact hs.fresh c (Nat.le_of_succ_le hc)
  unfold World.act Mem.fromPtr
  cases ht : getMemtype s with
  | none =>
      simp only [ht]
      exact ⟨nofun, hs⟩
  | some t =>
      simp only [ht]
      refine ⟨nofun, ?_⟩
      cases p with
      | none =>
          refine hs.pass (a := σ.next) rfl rfl (hfresh _) ⟨nofun, nofun⟩ hs.sentFits ?_
          rw [hnone]
          exact Perm.refl _
      | some q =>
          have hq := hf t ht q rfl
          have hx := hs.sentFits _ hq
          refine hs.pass (a := σ.next) rfl rfl (hfresh _) ⟨nofun, fun _ p hp ↦ ?_⟩
            (fun x hx ↦ hs.sentFits x (mem_of_mem_erase hx)) ?_
          · obtain rfl := Option.some.inj hp
            have hn := toNat_byteSize hx.lt
            exact ⟨hx.offset, hn, hn ▸ hx.block⟩
          · rw [hnone]
            exact (Perm.map (fun x : Sent ↦ x.addr.block) (perm_cons_erase hq)).symm

/-- The garbage collector frees what is left. -/
theorem gc (hs : Sound w σ) (ha : σ.array a = some m) :
    (σ.act w (.gc a)).2 ≠ .crash ∧ Sound w (σ.act w (.gc a)).1 := by
  obtain ⟨h, hd, hs'⟩ := hs.delete ha .char
  have hr := hs'.remove (a := a) (by simp [World.put]; rfl) rfl
  have heq : ({ σ with heap := h, array := Function.update σ.array a none } : World) =
      { σ.put a h { memarrayNew with type := .char } with
        array := Function.update (σ.put a h { memarrayNew with type := .char }).array a none } := by
    simp [World.put]
  simp only [World.act, World.on, ha, hd]
  rw [heq]
  exact ⟨nofun, hr⟩

/-- What only looks at an array changes nothing. -/
theorem look (hs : Sound w σ) (f : Memarray → Xfer Value)
    (hf : ∀ m, σ.array a = some m → m.Fits w σ.heap → f m ≠ .crash) :
    (σ.on a fun m ↦ (σ, f m)).2 ≠ .crash ∧ Sound w (σ.on a fun m ↦ (σ, f m)).1 := by
  unfold World.on
  cases ha : σ.array a with
  | none => exact ⟨nofun, hs⟩
  | some m => exact ⟨hf m ha (hs.fits a m ha), hs⟩

/-- What only writes into an array moves nothing. -/
theorem fillIn (hs : Sound w σ) (f : Memarray → Blocks × Xfer Value)
    (hf : ∀ m, σ.array a = some m → m.Fits w σ.heap →
      (f m).2 ≠ .crash ∧ ∀ b, SameAt σ.heap (f m).1 b) :
    (σ.on a fun m ↦ (σ.put a (f m).1 m, (f m).2)).2 ≠ .crash ∧
      Sound w (σ.on a fun m ↦ (σ.put a (f m).1 m, (f m).2)).1 := by
  unfold World.on
  cases ha : σ.array a with
  | none => exact ⟨nofun, hs⟩
  | some m =>
      obtain ⟨hc, hb⟩ := hf m ha (hs.fits a m ha)
      exact ⟨hc, hs.write ha hb⟩

end Sound

/-! Each access, of an array that has the memory it says it has. -/

namespace Memarray.Fits

variable {w : Host} {h : Blocks} {m : Memarray}

theorem index_ne (hm : m.Fits w h) (n : UInt64) : Mem.index w h m n ≠ .crash := by
  unfold Mem.index
  rcases memarrayGet_cases m with hg | ⟨e, hg⟩
  · rw [hg, Xfer.ok_bind]
    dsimp only
    by_cases hi : m.length ≤ n - 1
    · rw [if_pos hi]
      exact nofun
    · obtain ⟨bs, hr, -⟩ := hm.readAt hg (hm.element_le hi hg)
      rw [if_neg hi, hr]
      exact nofun
  · rw [hg]
    exact nofun

theorem newindex_ne (hm : m.Fits w h) (n : UInt64) (bits : Nat) :
    (Mem.newindex w h m n bits).2 ≠ .crash ∧
      ∀ b, SameAt h (Mem.newindex w h m n bits).1 b := by
  unfold Mem.newindex
  rcases memarrayGet_cases m with hg | ⟨e, hg⟩
  · simp only [hg]
    by_cases hi : m.length ≤ n - 1
    · rw [if_pos hi]
      exact ⟨nofun, fun _ ↦ .of_eq rfl⟩
    · have hl : (w.bytes (m.type.size w) bits).length = m.type.size w := by
        unfold Host.bytes
        split <;> simp
      have hle : (n - 1).toNat * m.type.size w + (w.bytes (m.type.size w) bits).length ≤
          m.size.toNat := by
        rw [hl]
        exact hm.element_le hi hg
      obtain ⟨h', hw⟩ := hm.writeAt hg hle
      rw [if_neg hi, hw]
      exact ⟨nofun, fun _ ↦ .writeAt hw⟩
  · simp only [hg]
    exact ⟨nofun, fun _ ↦ .of_eq rfl⟩

theorem ptr_ne (n : Option UInt64) : Mem.ptr w m n ≠ .crash := by
  unfold Mem.ptr
  rcases memarrayGet_cases m with hg | ⟨e, hg⟩
  · rw [hg, Xfer.ok_bind]
    dsimp only
    split <;> exact nofun
  · rw [hg]
    exact nofun

/-- All of an array. -/
theorem readAll (hm : m.Fits w h) (hg : memarrayGet m = .ok m) :
    ∃ bs, Mem.readAt h m.data m.size.toNat = some bs ∧ bs.length = m.size.toNat := by
  have hr := hm.readAt hg (Nat.le_of_eq (Nat.zero_add m.size.toNat))
  simpa [Addr.add] using hr

theorem writeAll (hm : m.Fits w h) (hg : memarrayGet m = .ok m) {v : List UInt8}
    (hv : v.length = m.size.toNat) : ∃ h', Mem.writeAt h m.data v = some h' := by
  have hw := hm.writeAt hg (Nat.le_of_eq ((Nat.zero_add v.length).trans hv))
  simpa [Addr.add] using hw

theorem toStr_ne (hm : m.Fits w h) : Mem.toStr h m ≠ .crash := by
  unfold Mem.toStr
  rcases memarrayGet_cases m with hg | ⟨e, hg⟩
  · obtain ⟨bs, hr, -⟩ := hm.readAll hg
    rw [hg, Xfer.ok_bind, hr]
    exact nofun
  · rw [hg]
    exact nofun

theorem fromStr_ne (hm : m.Fits w h) (s : List UInt8) :
    (Mem.fromStr h m s).2 ≠ .crash ∧ ∀ b, SameAt h (Mem.fromStr h m s).1 b := by
  unfold Mem.fromStr
  rcases memarrayGet_cases m with hg | ⟨e, hg⟩
  · simp only [hg]
    split
    · exact ⟨nofun, fun _ ↦ .of_eq rfl⟩
    · rename_i hl
      obtain ⟨h', hw⟩ := hm.writeAll hg (v := s) (by omega)
      simp only [hw]
      exact ⟨nofun, fun _ ↦ .writeAt hw⟩
  · simp only [hg]
    exact ⟨nofun, fun _ ↦ .of_eq rfl⟩

/-- A loop over whole items runs once for each. -/
theorem rounds_mul {item n : Nat} (h : 0 < item) : rounds item (n * item) = n := by
  unfold rounds
  have hsplit : n * item + item - 1 = (item - 1) + item * n := by
    rw [Nat.mul_comm item]
    omega
  rw [hsplit, Nat.add_mul_div_left _ _ h, Nat.div_eq_of_lt (by omega), Nat.zero_add]

/-- The items of an array with elements are elements. -/
theorem item_eq (hm : m.Fits w h) (hg : memarrayGet m = .ok m) (hl : m.length ≠ 0) :
    m.size.toNat = m.length.toNat * m.type.size w ∧
      m.size.toNat / m.length.toNat = m.type.size w ∧
      rounds (m.type.size w) m.size.toNat = m.length.toNat := by
  have hpos : 0 < m.length.toNat := by
    rw [Nat.pos_iff_ne_zero]
    exact fun h0 ↦ hl (UInt64.toNat_inj.1 h0)
  have hn : m.size.toNat = m.length.toNat * m.type.size w := by
    cases hi : m.inherited with
    | true => exact absurd (hm.borrowed hi).2.2 hl
    | false =>
        cases hd : m.data with
        | none => simp [memarrayGet, hi, hd] at hg
        | some p => exact (hm.own hi p hd).2.1
  refine ⟨hn, ?_, ?_⟩
  · rw [hn, Nat.mul_div_cancel_left _ hpos]
  · rw [hn, rounds_mul (m.type.size_pos w)]

/-- Items other than bytes have a size the loops are written for. -/
theorem item_cases {t : MemType} (h1 : t.size w ≠ 1) :
    t.size w = 2 ∨ t.size w = 4 ∨ t.size w = 8 := by
  rcases t.size_cases w with h | h
  · exact absurd h h1
  · exact h

theorem toNetstr_ne (hm : m.Fits w h) (hl : m.length ≠ 0) : Mem.toNetstr w h m ≠ .crash := by
  unfold Mem.toNetstr
  rcases memarrayGet_cases m with hg | ⟨e, hg⟩
  · obtain ⟨hn, hitem, hr⟩ := hm.item_eq hg hl
    obtain ⟨bs, hread, -⟩ := hm.readAll hg
    rw [hg, Xfer.ok_bind, if_neg hl, hitem]
    dsimp only
    by_cases hsw : w.littleEndian ∧ m.type.size w ≠ 1
    · rw [if_pos hsw, if_pos (item_cases hsw.2), hr, ← hn, hread]
      exact nofun
    · rw [if_neg hsw, hread]
      exact nofun
  · rw [hg]
    exact nofun

theorem length_swapItems (item : Nat) : ∀ (n : Nat) (bs : List UInt8),
    n * item ≤ bs.length → (swapItems item n bs).length = n * item
  | 0, _, _ => by simp [swapItems]
  | n + 1, bs, hn => by
      have hs : (n + 1) * item = n * item + item := Nat.succ_mul _ _
      have hd : n * item ≤ (bs.drop item).length := by
        rw [length_drop]
        omega
      simp only [swapItems, length_append, length_reverse, length_take,
        length_swapItems item n _ hd]
      omega

theorem fromNetstr_ne (hm : m.Fits w h) (hl : m.length ≠ 0) (s : List UInt8) :
    (Mem.fromNetstr w h m s).2 ≠ .crash ∧ ∀ b, SameAt h (Mem.fromNetstr w h m s).1 b := by
  unfold Mem.fromNetstr
  rcases memarrayGet_cases m with hg | ⟨e, hg⟩
  · obtain ⟨hn, hitem, hr⟩ := hm.item_eq hg hl
    simp only [hg]
    by_cases hsize : m.size.toNat ≠ s.length
    · rw [if_pos hsize]
      exact ⟨nofun, fun _ ↦ .of_eq rfl⟩
    · have hsize : m.size.toNat = s.length := Decidable.of_not_not hsize
      rw [if_neg (not_not.2 hsize), if_neg hl, hitem]
      by_cases hsw : w.littleEndian ∧ m.type.size w ≠ 1
      · rw [if_pos hsw, if_pos (item_cases hsw.2), hr, if_neg (by omega)]
        have hlen := length_swapItems (m.type.size w) m.length.toNat s (by omega)
        obtain ⟨h', hw⟩ := hm.writeAll hg
          (v := swapItems (m.type.size w) m.length.toNat s) (by omega)
        rw [hw]
        exact ⟨nofun, fun _ ↦ .writeAt hw⟩
      · rw [if_neg hsw]
        obtain ⟨h', hw⟩ := hm.writeAll hg (v := s) hsize.symm
        rw [hw]
        exact ⟨nofun, fun _ ↦ .writeAt hw⟩
  · simp only [hg]
    exact ⟨nofun, fun _ ↦ .of_eq rfl⟩

end Memarray.Fits

/-! ## Runs -/

namespace Sound

variable {w : Host} {σ σ' : World} {op : Op}

/-- Nothing is there, and nothing is wrong. -/
theorem empty : Sound w .empty := by
  refine ⟨nofun, nofun, ?_, fun b hb ↦ ?_, fun _ _ ↦ rfl⟩
  · have hnil : World.empty.holds = fun _ ↦ [] := by
      funext p
      cases p <;> rfl
    rw [hnil]
    exact Exclusive.empty
  · cases hb

/-- **A call that a program has seen to** does not end the process, and keeps everything in
the hands of one owner. -/
theorem act (hs : Sound w σ) (hf : op.Fair w σ) :
    (σ.act w op).2 ≠ .crash ∧ Sound w (σ.act w op).1 := by
  -- a call on what is no array raises an error
  have hon : ∀ a f, (∀ m, σ.array a = some m → (f m).2 ≠ .crash ∧ Sound w (f m).1) →
      (σ.on a f).2 ≠ .crash ∧ Sound w (σ.on a f).1 := by
    intro a f h
    unfold World.on
    cases ha : σ.array a with
    | none => exact ⟨nofun, hs⟩
    | some m => exact h m ha
  cases op with
  | call args mem => exact hs.call hf mem
  | realloc a args mem => exact hon a _ fun m ha ↦ hs.realloc ha hf mem
  | index a n => exact hs.look _ fun m _ hm ↦ hm.index_ne n
  | newindex a n bits => exact hs.fillIn _ fun m _ hm ↦ hm.newindex_ne n bits
  | ptr a n => exact hs.look _ fun m _ _ ↦ Memarray.Fits.ptr_ne n
  | toPtr a =>
      cases ha : σ.array a with
      | none =>
          simp only [World.act, World.on, ha]
          exact ⟨nofun, hs⟩
      | some m => exact hs.toPtr ha
  | fromPtr p typename length => exact hs.fromPtr hf
  | toStr a => exact hs.look _ fun m _ hm ↦ hm.toStr_ne
  | fromStr a s => exact hs.fillIn _ fun m _ hm ↦ hm.fromStr_ne s
  | toNetstr a => exact hs.look _ fun m ha hm ↦ hm.toNetstr_ne (hf m ha)
  | fromNetstr a s => exact hs.fillIn _ fun m ha hm ↦ hm.fromNetstr_ne (hf m ha) s
  | gc a =>
      cases ha : σ.array a with
      | none =>
          simp only [World.act, World.on, ha]
          exact ⟨nofun, hs⟩
      | some m => exact hs.gc ha

/-- And so does a run of such calls. -/
theorem run {tr : List (World × Op)} (h : Run (World.step w) .empty tr σ)
    (hf : ∀ p ∈ tr, p.2.Fair w p.1) : Sound w σ := by
  refine h.invariant (C := fun σ op ↦ op.Fair w σ) empty (fun σ op σ' hs hf hstep ↦ ?_) hf
  unfold World.step at hstep
  split at hstep
  · cases hstep
  · obtain rfl := Option.some.inj hstep
    exact (hs.act hf).2

end Sound

/-- **No access outside of live memory, no double free, no leak.**  After any run of calls
that a program has seen to, no such call ends the process; every live block is owned by one
array, or on its way from one to another, and nothing else is; so nothing is left of arrays
that have been collected. -/
theorem memory_safe {w : Host} {σ : World} {tr : List (World × Op)}
    (h : Run (World.step w) .empty tr σ) (hf : ∀ p ∈ tr, p.2.Fair w p.1) :
    (∀ op : Op, op.Fair w σ → ∃ σ', World.step w σ op = some σ') ∧ Exclusive σ.holds ∧
      (∀ b, σ.heap.Live b ↔ ∃ p, b ∈ σ.holds p) ∧
      ((∀ a, σ.array a = none) → σ.sent = [] → ∀ b, ¬ σ.heap.Live b) := by
  have hs := Sound.run h hf
  refine ⟨fun op hop ↦ ⟨_, if_neg (hs.act hop).1⟩, hs.exclusive, fun b ↦ ?_, ?_⟩
  · constructor
    · exact hs.held b
    · rintro ⟨p, hp⟩
      exact hs.live hp
  · intro harray hsent b hb
    obtain ⟨p, hp⟩ := hs.held b hb
    cases p with
    | none => simp [World.holds, hsent] at hp
    | some a => simp [World.holds, harray] at hp

/-- A usual machine. -/
def usual : Host := ⟨true, 8, .inr rfl⟩

/-- `memarray("uint", 2)` -/
def uints : Op := .call ⟨.name "uint", some 2, none⟩ (some fun _ ↦ 0)

/-- The first array of a process. -/
def World.first (w : Host) : World := (World.empty.act w uints).1

theorem uints_fair (w : Host) (σ : World) : uints.Fair w σ := by
  refine ⟨rfl, fun t ht ↦ ?_⟩
  obtain rfl : MemType.uint = t := Option.some.inj ht
  show 2 * 4 < 2 ^ 64
  decide

theorem World.first_array (w : Host) :
    (World.first w).array 0 = some ⟨8, 2, .uint, false, some ⟨0, 0⟩⟩ := rfl

theorem World.run_uints (w : Host) (σ : World) :
    Run (World.step w) σ [(σ, uints)] (σ.act w uints).1 := by
  have hok : (σ.act w uints).2 = .ok .array := rfl
  refine Run.single (if_neg ?_)
  rw [hok]
  exact nofun

theorem World.run_first (w : Host) :
    Run (World.step w) .empty [(.empty, uints)] (World.first w) :=
  World.run_uints w .empty

theorem World.run_first_fair (w : Host) :
    ∀ p ∈ [(World.empty, uints)], p.2.Fair w p.1 := by
  intro p hp
  rw [mem_singleton.1 hp]
  exact uints_fair w _

theorem memory_safe_uints : ∃ σ, World.step usual (World.first usual) (.toPtr 0) = some σ :=
  (memory_safe (World.run_first usual) (World.run_first_fair usual)).1 (.toPtr 0) trivial

end Leda.Mem
