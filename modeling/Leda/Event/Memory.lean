import Leda.Event.Transfer
import Leda.Lib.Heap
import Leda.Lib.Placement
import Leda.Lib.Simulation
import Leda.Lua.Copy

/-!
# Events in memory

An event that has to wait consists of blocks from `malloc`: the struct, the vector of its
elements, and the bytes of each element that is a string or was encoded.  An event from another
process is a struct and the bytes that were received.  `destroy_event` frees these blocks, and
`restore_event_to_lua_state` ends with it.

The other modules say that an event is a list of elements.  This one says why they may: **the
memory cannot be noticed** (`refines`).  In every run of sends and receptions, whatever is
allocated and freed in between, each operation ends as it does with lists of elements in place of
pointers.  So nothing is accessed that is not live, nothing is freed twice, and what an instance
is given is what was copied.

But nobody frees an event that the queue does not take, or that an error leaves half copied or
half restored.  Only these are lost: **there is no leak** as long as none of this happens, and
not any longer (`tidy_iff`).

An allocation always succeeds here; `malloc` is not asked in the source whether it did, but for
the struct of a packed event.
-/

namespace Leda.Event.Memory

open Leda.Lib Leda.Lua Leda.Kernel List

/-- `struct _element`: a value, or a pointer to bytes. -/
inductive Cell
  | inline (e : Element)
  | /-- A string, or what was encoded of a value of the type `type`. -/
    bytes (type : Option Nat) (str : Addr) (len : Nat)
deriving Repr, DecidableEq

/-- What the pointers of `struct event_data` lead to. -/
inductive Content
  | packed (data : Addr) (len : Nat)
  | payload (p : Addr) (cells : List Cell)
deriving Repr, DecidableEq

/-- `event`: where the struct is, and its fields. -/
structure EventData where
  self : Addr
  content : Content
deriving Repr, DecidableEq

/-- `sizeof(struct event_data)` -/
abbrev sizeofEvent : Nat := 40

/-- `sizeof(struct _element)` -/
abbrev sizeofElement : Nat := 24

/-- The element that has these bytes. -/
def ofBytes : Option Nat → List UInt8 → Element
  | none, s => .string s
  | some type, s => .encoded type s

/-- The end of `copy_event_element`: `malloc` and `memcpy`.  Behind a string is a zero. -/
def store (h : Blocks) : Element → Blocks × Cell
  | .string s => (h.alloc (s ++ [0]), .bytes none ⟨h.next, 0⟩ s.length)
  | .encoded type b => (h.alloc b, .bytes (some type) ⟨h.next, 0⟩ b.length)
  | e => (h, .inline e)

/-- The loop of `extract_event_from_lua_state`: the elements that were written, and how it ends;
`false` for a type that `copy_event_element` does not know. -/
def copyLoop (S : Sender) : List Value → Heap → Blocks → Blocks × List Cell × Xfer Bool
  | [], _, h => (h, [], .ok true)
  | v :: vs, l, h =>
      match copyEventElement S v l with
      | .ok (some (e, l)) =>
          let r := copyLoop S vs l (store h e).1
          (r.1, (store h e).2 :: r.2.1, r.2.2)
      | .ok none => (h, [], .ok false)
      | .raised m => (h, [], .raised m)
      | .crash => (h, [], .crash)

/-- The loop of `destroy_event`, from the `i`-th element on. -/
def freeLoop (self payload : Addr) : Nat → List Cell → Blocks → Option Blocks
  | _, [], h => some h
  | i, c :: cells, h => do
      let _ ← h.read self sizeofEvent
      let _ ← h.read (payload.add (i * sizeofElement)) sizeofElement
      match c with
      | .inline _ => freeLoop self payload (i + 1) cells h
      | .bytes _ str _ =>
          let h ← h.free str
          freeLoop self payload (i + 1) cells h

/-- `destroy_event` -/
def destroyEvent (h : Blocks) (e : EventData) : Option Blocks := do
  let _ ← h.read e.self sizeofEvent
  match e.content with
  | .packed data _ =>
      let h ← h.free data
      h.free e.self
  | .payload p cells =>
      let h ← freeLoop e.self p 0 cells h
      let h ← h.free p
      h.free e.self

/-- `extract_event_from_lua_state`.  The elements that were not written are zero, which is the
type of `nil`. -/
def extract (S : Sender) (h : Blocks) (args : List Value) : Blocks × Xfer EventData :=
  let self : Addr := ⟨h.next, 0⟩
  let h := h.alloc (replicate sizeofEvent 0)
  let payload : Addr := ⟨h.next, 0⟩
  let h := h.alloc (replicate (args.length * sizeofElement) 0)
  match copyLoop S args S.heap h with
  | (h, cells, .ok true) => (h, .ok ⟨self, .payload payload cells⟩)
  | (h, cells, .ok false) =>
      let zero := replicate (args.length - cells.length) (Cell.inline .nil)
      match destroyEvent h ⟨self, .payload payload (cells ++ zero)⟩ with
      | some h => (h, .raised "Value type 'thread' not supported")
      | none => (h, .crash)
  | (h, _, .raised m) => (h, .raised m)
  | (h, _, .crash) => (h, .crash)

/-- A Lua state that events are restored to. -/
structure Target (L : Type) where
  /-- What pushing an element does to it; an error of `mar_decode` is raised. -/
  push : Element → L → Xfer L
  /-- What decoding bytes and unpacking the table does. -/
  unpack : List UInt8 → L → Xfer L
  start : L

variable {L : Type}

/-- The element that is read from memory. -/
def Cell.load (h : Blocks) : Cell → Option Element
  | .inline e => some e
  | .bytes type str len => (h.read str len).map (ofBytes type)

/-- The loop of `restore_event_to_lua_state`, from the `i`-th element on. -/
def restoreLoop (T : Target L) (h : Blocks) (self payload : Addr) :
    Nat → List Cell → L → Xfer L
  | _, [], s => .ok s
  | i, c :: cells, s =>
      match h.read self sizeofEvent, h.read (payload.add (i * sizeofElement)) sizeofElement,
        c.load h with
      | some _, some _, some e => T.push e s >>= restoreLoop T h self payload (i + 1) cells
      | _, _, _ => .crash

/-- `restore_event_to_lua_state`: the heap it leaves, and the Lua state.  A packed event is
destroyed before it is decoded. -/
def restore (T : Target L) (h : Blocks) (e : EventData) : Blocks × Xfer L :=
  match e.content with
  | .packed data len =>
      match h.read e.self sizeofEvent, h.read data len, destroyEvent h e with
      | some _, some b, some h => (h, T.unpack b T.start)
      | _, _, _ => (h, .crash)
  | .payload p cells =>
      match restoreLoop T h e.self p 0 cells T.start with
      | .ok s =>
          match destroyEvent h e with
          | some h => (h, .ok s)
          | none => (h, .crash)
      | .raised m => (h, .raised m)
      | .crash => (h, .crash)

/-! ## The process -/

/-- Where events wait. -/
inductive Place
  | /-- `event_queues[s]` -/
    queue (s : StageId)
  | /-- `packed_event` of the instances that are on the ready queue with one. -/
    instances
deriving Repr, DecidableEq

/-- Which events wait where. -/
abbrev Waiting (E : Type) := Place → List E

namespace Waiting

variable {E : Type}

def add (w : Waiting E) (p : Place) (e : E) : Waiting E := Function.update w p (w p ++ [e])

def remove (w : Waiting E) (p : Place) (i : Nat) : Waiting E :=
  Function.update w p ((w p).eraseIdx i)

end Waiting

/-- What becomes of a packed event. -/
inductive Fate
  | idle
  | queued
  | /-- The event queue is full. -/
    refused
deriving Repr, DecidableEq

/-- An operation. -/
inductive Op (L : Type)
  | /-- `emmit` without an idle instance; the event queue may be full. -/
    emmit (s : StageId) (S : Sender) (args : List Value) (full : Bool)
  | /-- `read_event` has received these bytes, and calls `emmit_packed_event`. -/
    packed (s : StageId) (data : List UInt8) (fate : Fate)
  | /-- The first event of a queue is taken, by `instance_release` or by a handler
    (`instance_peek_for_event`, `instance_wait_for_event`); only of a handler errors are caught. -/
    take (s : StageId) (T : Target L) (handler : Bool)
  | /-- `thread_resume_instance`, for the `i`-th instance with a packed event. -/
    resume (i : Nat) (T : Target L)

/-- How an operation ends. -/
inductive Result (L : Type)
  | sent
  | refused
  | restored (s : L)
  | /-- There is no event. -/
    empty

/-- If an error of the operation is caught. -/
def Op.caught : Op L → Bool
  | .emmit .. | .packed .. => true
  | .take _ _ handler => handler
  | .resume .. => false

/-- The state after an operation; an error that is not caught ends the process. -/
def next {W : Type} (op : Op L) (r : W × Xfer (Result L)) : Option W :=
  match r.2 with
  | .ok _ => some r.1
  | .raised _ => if op.caught then some r.1 else none
  | .crash => none

/-- The heap, with the events in it. -/
structure World where
  heap : Blocks
  waiting : Waiting EventData

namespace World

def empty : World := ⟨.empty, fun _ ↦ []⟩

/-- Restore the `i`-th event of a place. -/
def restoreAt (σ : World) (p : Place) (i : Nat) (T : Target L) : World × Xfer (Result L) :=
  match (σ.waiting p)[i]? with
  | none => (σ, .ok .empty)
  | some e =>
      let r := restore T σ.heap e
      (⟨r.1, σ.waiting.remove p i⟩, r.2 >>= fun s ↦ .ok (.restored s))

/-- `event_new_packed_event`, for bytes that were received. -/
def newPacked (h : Blocks) (data : List UInt8) : Blocks × EventData :=
  let buf : Addr := ⟨h.next, 0⟩
  let h := h.alloc data
  (h.alloc (replicate sizeofEvent 0), ⟨⟨h.next, 0⟩, .packed buf data.length⟩)

def act (σ : World) : Op L → World × Xfer (Result L)
  | .emmit s S args full =>
      match extract S σ.heap args with
      | (h, .ok e) =>
          if full then (⟨h, σ.waiting⟩, .ok .refused)
          else (⟨h, σ.waiting.add (.queue s) e⟩, .ok .sent)
      | (h, .raised m) => (⟨h, σ.waiting⟩, .raised m)
      | (h, .crash) => (⟨h, σ.waiting⟩, .crash)
  | .packed s data fate =>
      let r := newPacked σ.heap data
      match fate with
      | .idle => (⟨r.1, σ.waiting.add .instances r.2⟩, .ok .sent)
      | .queued => (⟨r.1, σ.waiting.add (.queue s) r.2⟩, .ok .sent)
      | .refused => (⟨r.1, σ.waiting⟩, .ok .refused)
  | .take s T _ => σ.restoreAt (.queue s) 0 T
  | .resume i T => σ.restoreAt .instances i T

def step (σ : World) (op : Op L) : Option World := next op (σ.act op)

end World

/-! ## Without memory -/

/-- What an event is. -/
inductive Stored
  | packed (b : List UInt8)
  | elements (es : List Element)
deriving Repr, DecidableEq

/-- The elements one after the other. -/
def pushAll (T : Target L) : List Element → L → Xfer L
  | [], s => .ok s
  | e :: es, s => T.push e s >>= pushAll T es

def Stored.restore (T : Target L) : Stored → Xfer L
  | .packed b => T.unpack b T.start
  | .elements es => pushAll T es T.start

namespace Waiting

def restoreAt (w : Waiting Stored) (p : Place) (i : Nat) (T : Target L) :
    Waiting Stored × Xfer (Result L) :=
  match (w p)[i]? with
  | none => (w, .ok .empty)
  | some v => (w.remove p i, v.restore T >>= fun s ↦ .ok (.restored s))

/-- The same operations, on events without memory. -/
def act (w : Waiting Stored) : Op L → Waiting Stored × Xfer (Result L)
  | .emmit s S args full =>
      match extractEvent S args with
      | .ok es =>
          if full then (w, .ok .refused) else (w.add (.queue s) (.elements es), .ok .sent)
      | .raised m => (w, .raised m)
      | .crash => (w, .crash)
  | .packed s data fate =>
      match fate with
      | .idle => (w.add .instances (.packed data), .ok .sent)
      | .queued => (w.add (.queue s) (.packed data), .ok .sent)
      | .refused => (w, .ok .refused)
  | .take s T _ => w.restoreAt (.queue s) 0 T
  | .resume i T => w.restoreAt .instances i T

def step (w : Waiting Stored) (op : Op L) : Option (Waiting Stored) := next op (w.act op)

end Waiting

/-! ## Events and their blocks -/

/-- The start of a block of at least `n` bytes. -/
def Room (h : Blocks) (p : Addr) (n : Nat) : Prop :=
  p.offset = 0 ∧ ∃ bs, h.block p.block = some bs ∧ n ≤ bs.length

/-- The start of a block that starts with these bytes. -/
def Bytes (h : Blocks) (p : Addr) (s : List UInt8) : Prop :=
  p.offset = 0 ∧ ∃ t, h.block p.block = some (s ++ t)

/-- The block that belongs to an element. -/
def Cell.blocks : Cell → List BlockId
  | .inline _ => []
  | .bytes _ str _ => [str.block]

/-- The blocks that belong to an event. -/
def EventData.blocks (e : EventData) : List BlockId :=
  e.self.block ::
    match e.content with
    | .packed data _ => [data.block]
    | .payload p cells => p.block :: cells.flatMap Cell.blocks

/-- What an element is. -/
inductive Cell.Holds (h : Blocks) : Cell → Element → Prop
  | inline (e : Element) : Cell.Holds h (.inline e) e
  | bytes {type : Option Nat} {str : Addr} {s : List UInt8} (hs : Bytes h str s) :
      Cell.Holds h (.bytes type str s.length) (ofBytes type s)

/-- What an event is. -/
inductive EventData.Holds (h : Blocks) : EventData → Stored → Prop
  | packed {self data : Addr} {b : List UInt8} (hself : Room h self sizeofEvent)
      (hb : Bytes h data b) : EventData.Holds h ⟨self, .packed data b.length⟩ (.packed b)
  | payload {self p : Addr} {cells : List Cell} {es : List Element}
      (hself : Room h self sizeofEvent) (hp : Room h p (cells.length * sizeofElement))
      (hc : Forall₂ (Cell.Holds h) cells es) :
      EventData.Holds h ⟨self, .payload p cells⟩ (.elements es)

section

variable {h h' : Blocks} {p self : Addr} {n : Nat} {s : List UInt8} {c : Cell} {el : Element}
  {cells : List Cell} {es : List Element} {e : EventData} {v : Stored}

theorem Room.congr (hr : Room h p n) (hb : h'.block p.block = h.block p.block) : Room h' p n := by
  obtain ⟨h0, bs, hbs, hn⟩ := hr
  exact ⟨h0, bs, hb.trans hbs, hn⟩

theorem Bytes.congr (hs : Bytes h p s) (hb : h'.block p.block = h.block p.block) :
    Bytes h' p s := by
  obtain ⟨h0, t, ht⟩ := hs
  exact ⟨h0, t, hb.trans ht⟩

/-- A part of it can be read. -/
theorem Room.read (hr : Room h p n) {k m : Nat} (hk : k + m ≤ n) :
    ∃ bs, h.read (p.add k) m = some bs := by
  obtain ⟨h0, bs, hbs, hn⟩ := hr
  refine ⟨_, Blocks.read_eq (p := p.add k) hbs ?_⟩
  change p.offset + k + m ≤ bs.length
  omega

theorem Room.read_self (hr : Room h p n) : ∃ bs, h.read p n = some bs :=
  hr.read (k := 0) (Nat.le_of_eq (Nat.zero_add n))

theorem Bytes.read (hs : Bytes h p s) : h.read p s.length = some s := by
  obtain ⟨h0, t, ht⟩ := hs
  rw [Blocks.read_eq ht (by rw [h0, length_append]; omega), h0, drop_zero, take_left' rfl]

theorem Room.live (hr : Room h p n) : h.Live p.block := by
  obtain ⟨-, bs, hbs, -⟩ := hr
  exact Option.isSome_iff_exists.2 ⟨bs, hbs⟩

theorem Bytes.live (hs : Bytes h p s) : h.Live p.block := by
  obtain ⟨-, t, ht⟩ := hs
  exact Option.isSome_iff_exists.2 ⟨_, ht⟩

/-- The start of a live block can be given to `free`. -/
theorem exists_free (hl : h.Live p.block) (h0 : p.offset = 0) :
    ∃ h', h.free p = some h' ∧ h.Freed [p.block] h' := by
  obtain ⟨bs, hbs⟩ := Option.isSome_iff_exists.1 hl
  obtain ⟨h', hf⟩ := Blocks.exists_free hbs
  have hp : p = ⟨p.block, 0⟩ := by
    rw [← h0]
  rw [← hp] at hf
  exact ⟨h', hf, .free hf⟩

theorem Cell.Holds.congr (hc : c.Holds h el) (hb : ∀ b ∈ c.blocks, h'.block b = h.block b) :
    c.Holds h' el := by
  cases hc with
  | inline => exact .inline _
  | bytes hs => exact .bytes (hs.congr (hb _ (mem_singleton_self _)))

theorem Cell.Holds.live (hc : c.Holds h el) {b : BlockId} (hb : b ∈ c.blocks) : h.Live b := by
  cases hc with
  | inline => exact absurd hb not_mem_nil
  | bytes hs =>
      obtain rfl := mem_singleton.1 hb
      exact hs.live

theorem holds_congr (hc : Forall₂ (Cell.Holds h) cells es)
    (hb : ∀ b ∈ cells.flatMap Cell.blocks, h'.block b = h.block b) :
    Forall₂ (Cell.Holds h') cells es := by
  induction hc with
  | nil => exact .nil
  | @cons c el cells es hc _ ih =>
      rw [flatMap_cons] at hb
      exact .cons (hc.congr fun b hm ↦ hb b (mem_append_left _ hm))
        (ih fun b hm ↦ hb b (mem_append_right _ hm))

/-- An event that nothing happens to. -/
theorem EventData.Holds.congr (he : e.Holds h v) (hb : ∀ b ∈ e.blocks, h'.block b = h.block b) :
    e.Holds h' v := by
  obtain ⟨hself, hrest⟩ := forall_mem_cons.1 hb
  cases he with
  | packed hs hd => exact .packed (hs.congr hself) (hd.congr (hrest _ (mem_singleton_self _)))
  | payload hs hp hc =>
      obtain ⟨hpay, hcells⟩ := forall_mem_cons.1 hrest
      exact .payload (hs.congr hself) (hp.congr hpay) (holds_congr hc hcells)

theorem EventData.Holds.live (he : e.Holds h v) {b : BlockId} (hb : b ∈ e.blocks) : h.Live b := by
  cases he with
  | packed hs hd =>
      rcases mem_cons.1 hb with rfl | hb
      · exact hs.live
      · obtain rfl := mem_singleton.1 hb
        exact hd.live
  | payload hs hp hc =>
      rcases mem_cons.1 hb with rfl | hb
      · exact hs.live
      rcases mem_cons.1 hb with rfl | hb
      · exact hp.live
      · obtain ⟨c, hm, hb⟩ := mem_flatMap.1 hb
        obtain ⟨k, hk⟩ := getElem?_of_mem hm
        obtain ⟨el, -, hel⟩ := exists_of_forall₂ hc hk
        exact hel.live hb

/-! ## Destroying and restoring -/

/-- The `i`-th element is in the vector. -/
theorem Room.element {i k : Nat} (hp : Room h p ((i + (k + 1)) * sizeofElement)) :
    ∃ bs, h.read (p.add (i * sizeofElement)) sizeofElement = some bs := by
  refine hp.read ?_
  simp only [sizeofElement]
  omega

/-- The loop of `destroy_event` frees the bytes of the elements. -/
theorem freeLoop_spec {i : Nat} (hc : Forall₂ (Cell.Holds h) cells es)
    (hself : Room h self sizeofEvent) (hp : Room h p ((i + cells.length) * sizeofElement))
    (hn : (self.block :: p.block :: cells.flatMap Cell.blocks).Nodup) :
    ∃ h', freeLoop self p i cells h = some h' ∧ h.Freed (cells.flatMap Cell.blocks) h' := by
  induction cells generalizing i h es with
  | nil => exact ⟨h, rfl, .refl h⟩
  | cons c cells ih =>
      obtain ⟨_, hr₁⟩ := hself.read_self
      obtain ⟨_, hr₂⟩ := hp.element
      have hp' : i + (c :: cells).length = i + 1 + cells.length := by
        rw [length_cons]
        omega
      rw [hp'] at hp
      rw [flatMap_cons] at hn ⊢
      obtain ⟨el, es, hel, hcs, rfl⟩ := forall₂_cons_left_iff.1 hc
      cases hel with
      | inline =>
          obtain ⟨h', hloop, hfreed⟩ := ih hcs hself hp hn
          refine ⟨h', ?_, hfreed⟩
          simp only [freeLoop, hr₁, hr₂, Option.bind_eq_bind, Option.bind_some, hloop]
      | @bytes type str s hs =>
          obtain ⟨h₁, hfree, hfreed⟩ := exists_free hs.live hs.1
          simp only [Cell.blocks, singleton_append, nodup_cons, mem_cons, not_or] at hn
          obtain ⟨⟨hsp, hss, hsc⟩, ⟨hps, hpc⟩, hsn, hcn⟩ := hn
          have hold : ∀ b, b ≠ str.block → h₁.block b = h.block b := fun b hb ↦
            hfreed.old b fun hm ↦ hb (mem_singleton.1 hm)
          obtain ⟨h₂, hloop, hfreed₂⟩ := ih (h := h₁)
            (holds_congr hcs fun b hb ↦ hold b fun he ↦ hsn (he ▸ hb))
            (hself.congr (hold _ hss)) (hp.congr (hold _ hps))
            (nodup_cons.2 ⟨by rw [mem_cons, not_or]; exact ⟨hsp, hsc⟩, nodup_cons.2 ⟨hpc, hcn⟩⟩)
          refine ⟨h₂, ?_, hfreed.trans hfreed₂⟩
          simp only [freeLoop, hr₁, hr₂, hfree, Option.bind_eq_bind, Option.bind_some, hloop]

/-- **`destroy_event` frees the blocks of the event**, each of them once. -/
theorem destroyEvent_spec (he : e.Holds h v) (hn : e.blocks.Nodup) :
    ∃ h', destroyEvent h e = some h' ∧ h.Freed e.blocks h' := by
  cases he with
  | @packed self data b hs hd =>
      obtain ⟨_, hr⟩ := hs.read_self
      obtain ⟨h₁, hfree₁, hfreed₁⟩ := exists_free hd.live hd.1
      have hne : self.block ≠ data.block := fun he ↦ (nodup_cons.1 hn).1 (mem_singleton.2 he)
      have hs₁ := hs.congr (hfreed₁.old _ fun hm ↦ hne (mem_singleton.1 hm))
      obtain ⟨h₂, hfree₂, hfreed₂⟩ := exists_free hs₁.live hs₁.1
      refine ⟨h₂, ?_, (hfreed₁.trans hfreed₂).congr fun b ↦ ?_⟩
      · simp only [destroyEvent, hr, Option.bind_eq_bind, Option.bind_some, hfree₁]
        exact hfree₂
      · simp only [EventData.blocks, mem_append, mem_cons, not_mem_nil, or_false]
        exact or_comm
  | @payload self p cells es hs hp hc =>
      obtain ⟨_, hr⟩ := hs.read_self
      obtain ⟨h₁, hloop, hfreed₁⟩ := freeLoop_spec (i := 0) hc hs
        (by rw [Nat.zero_add]; exact hp) hn
      simp only [EventData.blocks, nodup_cons, mem_cons, not_or] at hn
      obtain ⟨⟨hsp, hsc⟩, hpc, -⟩ := hn
      have hp₁ := hp.congr (hfreed₁.old _ hpc)
      obtain ⟨h₂, hfree₂, hfreed₂⟩ := exists_free hp₁.live hp₁.1
      have hs₂ := (hs.congr (hfreed₁.old _ hsc)).congr
        (hfreed₂.old _ fun hm ↦ hsp (mem_singleton.1 hm))
      obtain ⟨h₃, hfree₃, hfreed₃⟩ := exists_free hs₂.live hs₂.1
      refine ⟨h₃, ?_, ((hfreed₁.trans hfreed₂).trans hfreed₃).congr fun b ↦ ?_⟩
      · simp only [destroyEvent, hr, Option.bind_eq_bind, Option.bind_some, hloop, hfree₂]
        exact hfree₃
      · simp only [EventData.blocks, mem_append, mem_cons, not_mem_nil, or_false]
        tauto

/-- An element is read as what it is. -/
theorem Cell.Holds.load (hc : c.Holds h el) : c.load h = some el := by
  cases hc with
  | inline => rfl
  | bytes hs => rw [Cell.load, hs.read, Option.map_some]

/-- The elements are pushed in order. -/
theorem restoreLoop_eq (T : Target L) {i : Nat} {s : L} (hc : Forall₂ (Cell.Holds h) cells es)
    (hself : Room h self sizeofEvent) (hp : Room h p ((i + cells.length) * sizeofElement)) :
    restoreLoop T h self p i cells s = pushAll T es s := by
  induction hc generalizing i s with
  | nil => rfl
  | @cons c el cells es hc _ ih =>
      obtain ⟨_, hr₁⟩ := hself.read_self
      obtain ⟨_, hr₂⟩ := hp.element
      have hp' : i + (c :: cells).length = i + 1 + cells.length := by
        rw [length_cons]
        omega
      rw [hp'] at hp
      rw [restoreLoop, hr₁, hr₂, hc.load, pushAll]
      exact congrArg (T.push el s >>= ·) (funext fun s ↦ ih hp)

/-- The restoration of an event by elements stops at an error. -/
def Stored.Fails (T : Target L) : Stored → Prop
  | .packed _ => False
  | .elements es => ∀ s, pushAll T es T.start ≠ .ok s

/-- **`restore_event_to_lua_state`** gives what the event is, and destroys it, if it comes to
that. -/
theorem restore_spec (T : Target L) (he : e.Holds h v) (hn : e.blocks.Nodup) :
    (restore T h e).2 = v.restore T ∧ (v.Fails T → (restore T h e).1 = h) ∧
      (¬ v.Fails T → h.Freed e.blocks (restore T h e).1) := by
  obtain ⟨h', hd, hf⟩ := destroyEvent_spec he hn
  cases he with
  | packed hs hb =>
      obtain ⟨_, hr⟩ := hs.read_self
      simp only [restore, hr, hb.read, hd]
      exact ⟨rfl, False.elim, fun _ ↦ hf⟩
  | @payload self p cells es hs hp hc =>
      have hloop := restoreLoop_eq T (i := 0) (s := T.start) hc hs
        (by rw [Nat.zero_add]; exact hp)
      simp only [restore, hloop, Stored.restore, Stored.Fails]
      cases hx : pushAll T es T.start with
      | ok s =>
          simp only [hd]
          exact ⟨trivial, fun hall ↦ absurd rfl (hall s), fun _ ↦ hf⟩
      | raised m | crash =>
          exact ⟨rfl, fun _ ↦ rfl, fun hno ↦ absurd (fun s hs ↦ by cases hs) hno⟩

/-! ## Making an event -/

/-- The error of the first argument that cannot be encoded. -/
def encodeError (S : Sender) : List Value → Heap → Option String
  | [], _ => none
  | v :: vs, l =>
      match copyEventElement S v l with
      | .ok (some (_, l)) => encodeError S vs l
      | .ok none => none
      | .raised m => some m
      | .crash => none

/-- What the loop of `extract_event_from_lua_state` has to do with copying the arguments: they are
these, if it comes to its end. -/
def Agrees (S : Sender) (args : List Value) (l : Heap) (es : List Element) : Xfer Bool → Prop
  | .ok true => copyArgs (copyElement S) args l = .ok es ∧ encodeError S args l = none
  | .ok false => copyArgs (copyElement S) args l = .raised "Value type 'thread' not supported" ∧
      encodeError S args l = none
  | .raised m => copyArgs (copyElement S) args l = .raised m ∧ encodeError S args l = some m
  | .crash => copyArgs (copyElement S) args l = .crash

/-- One more argument. -/
theorem Agrees.cons {S : Sender} {v : Value} {vs : List Value} {l l' : Heap} {r : Xfer Bool}
    (hv : copyEventElement S v l = .ok (some (el, l'))) (ha : Agrees S vs l' es r) :
    Agrees S (v :: vs) l (el :: es) r := by
  have hcopy : copyArgs (copyElement S) (v :: vs) l =
      copyArgs (copyElement S) vs l' >>= fun es ↦ .ok (el :: es) := by
    rw [copyArgs, copyElement, hv]
    rfl
  have herr : encodeError S (v :: vs) l = encodeError S vs l' := by
    simp only [encodeError, hv]
  cases r with
  | ok b =>
      cases b <;> exact ⟨by rw [hcopy, ha.1]; rfl, herr.trans ha.2⟩
  | raised m => exact ⟨by rw [hcopy, ha.1]; rfl, herr.trans ha.2⟩
  | crash =>
      change _ = Xfer.crash
      rw [hcopy, show copyArgs (copyElement S) vs l' = .crash from ha]
      rfl

theorem store_spec (h : Blocks) (el : Element) :
    h.Grown (store h el).2.blocks (store h el).1 ∧ (store h el).2.Holds (store h el).1 el := by
  cases el with
  | string s => exact ⟨.alloc h _, .bytes ⟨rfl, [0], Blocks.block_alloc_self⟩⟩
  | encoded type b =>
      refine ⟨.alloc h _, .bytes ⟨rfl, [], ?_⟩⟩
      rw [append_nil]
      exact Blocks.block_alloc_self
  | _ => exact ⟨.refl h, .inline _⟩

/-- One argument after the other gets what it needs. -/
theorem copyLoop_spec (S : Sender) (args : List Value) (l : Heap) (h : Blocks) :
    ∃ h' cells r es, copyLoop S args l h = (h', cells, r) ∧ cells.length ≤ args.length ∧
      h.Grown (cells.flatMap Cell.blocks) h' ∧ Forall₂ (Cell.Holds h') cells es ∧
      Agrees S args l es r := by
  induction args generalizing l h with
  | nil => exact ⟨h, [], .ok true, [], rfl, Nat.le_refl _, .refl h, .nil, rfl, rfl⟩
  | cons v vs ih =>
      have hstop : ∀ r, copyLoop S (v :: vs) l h = (h, [], r) → Agrees S (v :: vs) l [] r →
          ∃ h' cells r es, copyLoop S (v :: vs) l h = (h', cells, r) ∧
            cells.length ≤ (v :: vs).length ∧ h.Grown (cells.flatMap Cell.blocks) h' ∧
            Forall₂ (Cell.Holds h') cells es ∧ Agrees S (v :: vs) l es r :=
        fun r hr ha ↦ ⟨h, [], r, [], hr, Nat.zero_le _, .refl h, .nil, ha⟩
      cases hv : copyEventElement S v l with
      | ok o =>
          cases o with
          | none =>
              refine hstop (.ok false) (by simp only [copyLoop, hv]) ⟨?_, ?_⟩
              · rw [copyArgs, copyElement, hv]
                rfl
              · simp only [encodeError, hv]
          | some x =>
              obtain ⟨el, l₁⟩ := x
              obtain ⟨hg, hel⟩ := store_spec h el
              obtain ⟨h', cells, r, es, hloop, hlen, hg', hcs, ha⟩ := ih l₁ (store h el).1
              refine ⟨h', (store h el).2 :: cells, r, el :: es, by simp only [copyLoop, hv, hloop],
                Nat.succ_le_succ hlen, ?_, ?_, ha.cons hv⟩
              · rw [flatMap_cons]
                exact hg.trans hg'
              · exact .cons (hel.congr fun b hb ↦ (hg'.keeps (hel.live hb)).2) hcs
      | raised m =>
          refine hstop (.raised m) (by simp only [copyLoop, hv]) ⟨?_, ?_⟩
          · rw [copyArgs, copyElement, hv]
            rfl
          · simp only [encodeError, hv]
      | crash =>
          refine hstop .crash (by simp only [copyLoop, hv]) ?_
          change _ = Xfer.crash
          rw [copyArgs, copyElement, hv]
          rfl

theorem Room.grown {bs : List BlockId} (hr : Room h p n) (hg : h.Grown bs h') : Room h' p n :=
  hr.congr (hg.keeps hr.live).2

/-- A block that was just allocated. -/
theorem Room.alloc (h : Blocks) (n : Nat) : Room (h.alloc (replicate n 0)) ⟨h.next, 0⟩ n :=
  ⟨rfl, _, Blocks.block_alloc_self, Nat.le_of_eq length_replicate.symm⟩

/-- The elements that were not written are `nil`. -/
theorem holds_zero (h : Blocks) (k : Nat) :
    Forall₂ (Cell.Holds h) (replicate k (.inline .nil)) (replicate k .nil) := by
  induction k with
  | zero => exact .nil
  | succ k ih => exact .cons (.inline .nil) ih

theorem blocks_zero (k : Nat) : (replicate k (Cell.inline .nil)).flatMap Cell.blocks = [] := by
  refine flatMap_eq_nil_iff.2 fun c hc ↦ ?_
  rw [eq_of_mem_replicate hc]
  rfl

/-- What becomes of the memory of an event that is made of arguments. -/
inductive Extracted (S : Sender) (args : List Value) (h : Blocks) : Blocks × Xfer EventData → Prop
  | ok {h' : Blocks} {e : EventData} {es : List Element} (hx : extractEvent S args = .ok es)
      (hn : encodeError S args S.heap = none) (hg : h.Grown e.blocks h')
      (he : e.Holds h' (.elements es)) : Extracted S args h (h', .ok e)
  | /-- The event was destroyed. -/
    refused {h' : Blocks} {m : String} (hx : extractEvent S args = .raised m)
      (hn : encodeError S args S.heap = none) (hg : h.Grown [] h') :
      Extracted S args h (h', .raised m)
  | left {h' : Blocks} {bs : List BlockId} {m : String} (hx : extractEvent S args = .raised m)
      (hm : encodeError S args S.heap = some m) (hne : bs ≠ []) (hg : h.Grown bs h') :
      Extracted S args h (h', .raised m)
  | crash {h' : Blocks} {bs : List BlockId} (hx : extractEvent S args = .crash)
      (hg : h.Grown bs h') : Extracted S args h (h', .crash)

/-- **`extract_event_from_lua_state`** makes an event of what the arguments are copied to. -/
theorem extract_spec (S : Sender) (h : Blocks) (args : List Value) :
    Extracted S args h (extract S h args) := by
  have hself := Room.alloc h sizeofEvent
  have hp := Room.alloc (h.alloc (replicate sizeofEvent 0)) (args.length * sizeofElement)
  have hg₂ := (Blocks.Grown.alloc h (replicate sizeofEvent 0)).trans
    (.alloc (h.alloc (replicate sizeofEvent 0)) (replicate (args.length * sizeofElement) 0))
  obtain ⟨h', cells, r, es, hloop, hlen, hg, hcs, ha⟩ := copyLoop_spec S args S.heap
    ((h.alloc (replicate sizeofEvent 0)).alloc (replicate (args.length * sizeofElement) 0))
  have hself' := (hself.grown (.alloc _ (replicate (args.length * sizeofElement) 0))).grown hg
  have hp' := hp.grown hg
  cases r with
  | ok b =>
      cases b with
      | true =>
          simp only [extract, hloop]
          refine .ok ha.1 ha.2 (hg₂.trans hg) (.payload hself' ⟨hp'.1, ?_⟩ hcs)
          obtain ⟨-, bs, hbs, hle⟩ := hp'
          exact ⟨bs, hbs, Nat.le_trans (Nat.mul_le_mul_right _ hlen) hle⟩
      | false =>
          have hzero : Forall₂ (Cell.Holds h')
              (cells ++ replicate (args.length - cells.length) (.inline .nil))
              (es ++ replicate (args.length - cells.length) .nil) :=
            rel_append hcs (holds_zero h' _)
          have hblocks : (cells ++ replicate (args.length - cells.length)
              (Cell.inline .nil)).flatMap Cell.blocks = cells.flatMap Cell.blocks := by
            rw [flatMap_append, blocks_zero, append_nil]
          have hp'' : Room h' ⟨(h.alloc (replicate sizeofEvent 0)).next, 0⟩
              ((cells ++ replicate (args.length - cells.length)
                (Cell.inline .nil)).length * sizeofElement) := by
            rwa [length_append, length_replicate, Nat.add_sub_cancel' hlen]
          have hhold := EventData.Holds.payload hself' hp'' hzero
          have hall := hg₂.trans hg
          rw [← hblocks] at hall
          obtain ⟨h'', hd, hf⟩ := destroyEvent_spec hhold hall.nodup
          simp only [extract, hloop, hd]
          exact .refused ha.1 ha.2 (hall.freed hf)
  | raised m =>
      simp only [extract, hloop]
      exact .left ha.1 ha.2 (cons_ne_nil _ _) (hg₂.trans hg)
  | crash =>
      simp only [extract, hloop]
      exact .crash ha (hg₂.trans hg)

/-- A packed event is made of the bytes and a struct. -/
theorem newPacked_spec (h : Blocks) (data : List UInt8) :
    h.Grown (World.newPacked h data).2.blocks (World.newPacked h data).1 ∧
      (World.newPacked h data).2.Holds (World.newPacked h data).1 (.packed data) := by
  have hg := Blocks.Grown.alloc (h.alloc data) (replicate sizeofEvent 0)
  refine ⟨((Blocks.Grown.alloc h data).trans hg).perm (.swap _ _ _), .packed (.alloc _ _) ?_⟩
  refine ⟨rfl, [], ?_⟩
  rw [append_nil]
  exact Blocks.block_alloc Blocks.block_alloc_self

end

/-! ## Who owns what -/

namespace World

/-- The blocks of the events that wait at a place. -/
def owned (σ : World) (p : Place) : List BlockId := (σ.waiting p).flatMap EventData.blocks

/-- **There is no leak**: what is live belongs to an event that waits. -/
def Tidy (σ : World) : Prop := ∀ b, σ.heap.Live b → ∃ p, b ∈ σ.owned p

/-- The `i`-th event of a place consists of elements, and restoring it raises an error. -/
def Spoils (σ : World) (p : Place) (i : Nat) (T : Target L) : Prop :=
  ∃ e q cells m, (σ.waiting p)[i]? = some e ∧ e.content = .payload q cells ∧
    (restore T σ.heap e).2 = .raised m

/-- **What loses memory.** -/
def Loses (σ : World) : Op L → Prop
  | .emmit _ S args full =>
      encodeError S args S.heap ≠ none ∨ full = true ∧ ∃ es, extractEvent S args = .ok es
  | .packed _ _ fate => fate = .refused
  | .take s T _ => σ.Spoils (.queue s) 0 T
  | .resume i T => σ.Spoils .instances i T

end World

/-- The events are what they are without memory, and each block is in one of them. -/
structure Sound (σ : World) (w : Waiting Stored) : Prop where
  holds : ∀ p, Forall₂ (EventData.Holds σ.heap) (σ.waiting p) (w p)
  exclusive : Exclusive σ.owned

/-- What an operation does: `lost` are the blocks that nobody has any more. -/
inductive Effect (σ : World) (w : Waiting Stored) :
    World → Waiting Stored → List BlockId → Prop
  | add {h' : Blocks} {e : EventData} {v : Stored} (p : Place)
      (hg : σ.heap.Grown e.blocks h') (he : e.Holds h' v) :
      Effect σ w ⟨h', σ.waiting.add p e⟩ (w.add p v) []
  | leave {h' : Blocks} {lost : List BlockId} (hg : σ.heap.Grown lost h') :
      Effect σ w ⟨h', σ.waiting⟩ w lost
  | destroy {h' : Blocks} {e : EventData} {p : Place} {i : Nat}
      (hi : (σ.waiting p)[i]? = some e) (hf : σ.heap.Freed e.blocks h') :
      Effect σ w ⟨h', σ.waiting.remove p i⟩ (w.remove p i) []
  | drop {e : EventData} {p : Place} {i : Nat} (hi : (σ.waiting p)[i]? = some e) :
      Effect σ w ⟨σ.heap, σ.waiting.remove p i⟩ (w.remove p i) e.blocks

section

variable {σ σ' : World} {w w' : Waiting Stored} {h' : Blocks} {e : EventData} {v : Stored}
  {p q : Place} {i : Nat} {b : BlockId} {lost : List BlockId} {op : Op L}

theorem owned_add (σ : World) (h' : Blocks) (p : Place) (e : EventData) :
    World.owned ⟨h', σ.waiting.add p e⟩ = Function.update σ.owned p (σ.owned p ++ e.blocks) := by
  funext q
  by_cases hq : q = p
  · subst hq
    simp [World.owned, Waiting.add]
  · simp [World.owned, Waiting.add, Function.update_of_ne hq]

/-- The blocks of an event, and those that are left when it is removed. -/
theorem owned_remove (hi : (σ.waiting p)[i]? = some e) (h' : Blocks) :
    (∀ q, q ≠ p → World.owned ⟨h', σ.waiting.remove p i⟩ q = σ.owned q) ∧
      e.blocks ++ World.owned ⟨h', σ.waiting.remove p i⟩ p ~ σ.owned p := by
  refine ⟨fun q hq ↦ ?_, ?_⟩
  · simp [World.owned, Waiting.remove, Function.update_of_ne hq]
  · obtain ⟨hlt, rfl⟩ := List.getElem?_eq_some_iff.1 hi
    have hperm := (getElem_cons_eraseIdx_perm hlt).flatMap_right EventData.blocks
    rw [flatMap_cons] at hperm
    simpa [World.owned, Waiting.remove] using hperm

/-- Where nothing happens to the blocks of the events, they are what they were. -/
theorem events_congr {h : Blocks} {es : List EventData} {vs : List Stored}
    (he : Forall₂ (EventData.Holds h) es vs)
    (hb : ∀ b ∈ es.flatMap EventData.blocks, h'.block b = h.block b) :
    Forall₂ (EventData.Holds h') es vs := by
  induction he with
  | nil => exact .nil
  | cons he _ ih =>
      rw [flatMap_cons] at hb
      exact .cons (he.congr fun b hm ↦ hb b (mem_append_left _ hm))
        (ih fun b hm ↦ hb b (mem_append_right _ hm))

theorem forall₂_eraseIdx {α β : Type} {R : α → β → Prop} {l : List α} {l' : List β}
    (hl : Forall₂ R l l') (i : Nat) : Forall₂ R (l.eraseIdx i) (l'.eraseIdx i) := by
  induction hl generalizing i with
  | nil => exact .nil
  | cons hr hl ih =>
      cases i with
      | zero => exact hl
      | succ i => exact .cons hr (ih i)

namespace Sound

/-- The blocks of the events that wait are live. -/
theorem live (hs : Sound σ w) (hb : b ∈ σ.owned p) : σ.heap.Live b := by
  obtain ⟨e, he, hb⟩ := mem_flatMap.1 hb
  obtain ⟨k, hk⟩ := getElem?_of_mem he
  obtain ⟨v, -, hv⟩ := exists_of_forall₂ (hs.holds p) hk
  exact hv.live hb

theorem mem_owned (hi : (σ.waiting p)[i]? = some e) (hb : b ∈ e.blocks) : b ∈ σ.owned p :=
  mem_flatMap.2 ⟨e, mem_of_getElem? hi, hb⟩

/-- An event that waits has each of its blocks once. -/
theorem nodup (hs : Sound σ w) (hi : (σ.waiting p)[i]? = some e) : e.blocks.Nodup := by
  have hn := (owned_remove hi σ.heap).2.nodup_iff.2 (hs.exclusive.nodup p)
  exact (nodup_append'.1 hn).1

/-- What is left when an event is removed has nothing to do with it. -/
theorem apart (hs : Sound σ w) (hi : (σ.waiting p)[i]? = some e) (h' : Blocks)
    (hb : b ∈ World.owned ⟨h', σ.waiting.remove p i⟩ q) : b ∉ e.blocks ∧ b ∈ σ.owned q := by
  obtain ⟨hother, hperm⟩ := owned_remove hi h'
  by_cases hq : q = p
  · subst hq
    have hn := hperm.nodup_iff.2 (hs.exclusive.nodup q)
    exact ⟨fun he ↦ (nodup_append'.1 hn).2.2 he hb, hperm.subset (mem_append_right _ hb)⟩
  · rw [hother q hq] at hb
    exact ⟨fun he ↦ hq (hs.exclusive.place_unique hb (mem_owned hi he)), hb⟩

/-- An event is removed. -/
theorem remove (hs : Sound σ w) (hi : (σ.waiting p)[i]? = some e)
    (hold : ∀ b, b ∉ e.blocks → h'.block b = σ.heap.block b) :
    Sound ⟨h', σ.waiting.remove p i⟩ (w.remove p i) := by
  obtain ⟨hother, hperm⟩ := owned_remove hi h'
  refine ⟨fun q ↦ ?_, hs.exclusive.shrink hother ?_⟩
  · have hq : Forall₂ (EventData.Holds σ.heap) (σ.waiting.remove p i q) (w.remove p i q) := by
      by_cases hq : q = p
      · subst hq
        simp only [Waiting.remove, Function.update_self]
        exact forall₂_eraseIdx (hs.holds q) i
      · simp only [Waiting.remove, Function.update_of_ne hq]
        exact hs.holds q
    exact events_congr hq fun b hb ↦ hold b (hs.apart hi h' hb).1
  · exact (sublist_append_right _ _).subperm.trans hperm.subperm

/-- **What an operation does keeps it.** -/
theorem effect (hs : Sound σ w) (he : Effect σ w σ' w' lost) : Sound σ' w' := by
  cases he with
  | @add h' e v p hg he =>
      have hkeep : ∀ q, ∀ b ∈ σ.owned q, h'.block b = σ.heap.block b :=
        fun q b hb ↦ (hg.keeps (hs.live hb)).2
      refine ⟨fun q ↦ ?_, ?_⟩
      · by_cases hq : q = p
        · subst hq
          simp only [Waiting.add, Function.update_self]
          exact rel_append (events_congr (hs.holds q) (hkeep q)) (.cons he .nil)
        · simp only [Waiting.add, Function.update_of_ne hq]
          exact events_congr (hs.holds q) (hkeep q)
      · rw [owned_add]
        refine hs.exclusive.insert_all hg.nodup (fun b hb r hr ↦ (hg.keeps (hs.live hr)).1 hb)
          (fun r hr ↦ Function.update_of_ne hr _ _) ?_
        rw [Function.update_self]
        exact perm_append_comm.subperm
  | leave hg =>
      exact ⟨fun p ↦ events_congr (hs.holds p) fun b hb ↦ (hg.keeps (hs.live hb)).2, hs.exclusive⟩
  | destroy hi hf => exact hs.remove hi hf.old
  | drop hi => exact hs.remove hi fun b _ ↦ rfl

/-- **And there is still no leak if nothing is lost.** -/
theorem tidy_effect (hs : Sound σ w) (ht : σ.Tidy) (he : Effect σ w σ' w' lost) :
    σ'.Tidy ↔ lost = [] := by
  cases he with
  | @add h' e v p hg he =>
      refine ⟨fun _ ↦ rfl, fun _ b hb ↦ ?_⟩
      rw [owned_add]
      by_cases hbe : b ∈ e.blocks
      · exact ⟨p, by rw [Function.update_self]; exact mem_append_right _ hbe⟩
      · obtain ⟨q, hq⟩ := ht b (hb.of_eq (hg.old b hbe).symm)
        refine ⟨q, ?_⟩
        by_cases hqp : q = p
        · subst hqp
          rw [Function.update_self]
          exact mem_append_left _ hq
        · rwa [Function.update_of_ne hqp]
  | leave hg =>
      refine ⟨fun htidy ↦ eq_nil_iff_forall_not_mem.2 fun b hb ↦ ?_, ?_⟩
      · obtain ⟨p, hp⟩ := htidy b (hg.new b hb).2
        exact (hg.keeps (hs.live hp)).1 hb
      · rintro rfl b hb
        exact ht b (hb.of_eq (hg.old b not_mem_nil).symm)
  | @destroy h' e p i hi hf =>
      refine ⟨fun _ ↦ rfl, fun _ b hb ↦ ?_⟩
      have hbe : b ∉ e.blocks := fun hm ↦ hf.not_live hm hb
      obtain ⟨q, hq⟩ := ht b (hb.of_eq (hf.old b hbe).symm)
      obtain ⟨hother, hperm⟩ := owned_remove hi h'
      refine ⟨q, ?_⟩
      by_cases hqp : q = p
      · subst hqp
        exact (mem_append.1 (hperm.symm.subset hq)).resolve_left hbe
      · rwa [hother q hqp]
  | drop hi =>
      refine ⟨fun htidy ↦ ?_, fun hnil ↦ absurd hnil (cons_ne_nil _ _)⟩
      obtain ⟨q, hq⟩ := htidy _ (hs.live (mem_owned hi mem_cons_self))
      exact absurd mem_cons_self (hs.apart hi σ.heap hq).1

/-- A place is empty where it is without memory. -/
theorem getElem?_none (hs : Sound σ w) (hi : (σ.waiting p)[i]? = none) : (w p)[i]? = none := by
  rw [getElem?_eq_none_iff] at hi ⊢
  rwa [← (hs.holds p).length_eq]

/-- Taking an event out. -/
theorem restoreAt (hs : Sound σ w) (p : Place) (i : Nat) (T : Target L) :
    ∃ lost, Effect σ w (σ.restoreAt p i T).1 (w.restoreAt p i T).1 lost ∧
      (σ.restoreAt p i T).2 = (w.restoreAt p i T).2 ∧
      ((σ.restoreAt p i T).2 ≠ .crash → (lost ≠ [] ↔ σ.Spoils p i T)) := by
  cases hi : (σ.waiting p)[i]? with
  | none =>
      have hi' := hs.getElem?_none hi
      refine ⟨[], ?_, ?_, fun _ ↦ ⟨fun h ↦ absurd rfl h, ?_⟩⟩
      · simp only [World.restoreAt, Waiting.restoreAt, hi, hi']
        exact .leave (.refl _)
      · simp only [World.restoreAt, Waiting.restoreAt, hi, hi']
      · rintro ⟨e, q, cells, m, he, -⟩
        rw [hi] at he
        cases he
  | some e =>
      obtain ⟨v, hi', hv⟩ := exists_of_forall₂ (hs.holds p) hi
      obtain ⟨hr, hfail, hgone⟩ := restore_spec T hv (hs.nodup hi)
      have hact : σ.restoreAt p i T = (⟨(restore T σ.heap e).1, σ.waiting.remove p i⟩,
          v.restore T >>= fun s ↦ .ok (.restored s)) := by
        simp only [World.restoreAt, hi, hr]
      have hact' : w.restoreAt p i T =
          (w.remove p i, v.restore T >>= fun s ↦ .ok (.restored s)) := by
        simp only [Waiting.restoreAt, hi']
      rw [hact, hact']
      by_cases hf : v.Fails T
      · refine ⟨e.blocks, ?_, rfl, fun hc ↦ ⟨fun _ ↦ ?_, fun _ ↦ cons_ne_nil _ _⟩⟩
        · rw [hfail hf]
          exact .drop hi
        · cases hv with
          | packed => exact False.elim hf
          | @payload self q cells es =>
              refine ⟨⟨self, .payload q cells⟩, q, cells, ?_⟩
              cases hx : pushAll T es T.start with
              | ok s => exact absurd hx (hf s)
              | raised m => exact ⟨m, hi, rfl, hr.trans hx⟩
              | crash => exact absurd (by rw [Stored.restore, hx]; rfl) hc
      · refine ⟨[], .destroy hi (hgone hf), rfl, fun _ ↦ ⟨fun h ↦ absurd rfl h, ?_⟩⟩
        rintro ⟨e', q, cells, m, he', hq, hm⟩
        obtain rfl := Option.some.inj (hi.symm.trans he')
        rw [hr] at hm
        cases hv with
        | packed => cases hq
        | payload => exact absurd (fun s hs ↦ by rw [Stored.restore, hs] at hm; cases hm) hf

/-- **An operation ends as without memory**, and loses blocks where it is said to. -/
theorem act (hs : Sound σ w) (op : Op L) :
    ∃ lost, Effect σ w (σ.act op).1 (w.act op).1 lost ∧ (σ.act op).2 = (w.act op).2 ∧
      ((σ.act op).2 ≠ .crash → (lost ≠ [] ↔ σ.Loses op)) := by
  cases op with
  | emmit s S args full =>
      have hx := extract_spec S σ.heap args
      simp only [World.act, Waiting.act, World.Loses]
      generalize extract S σ.heap args = r at hx
      cases hx with
      | @ok h' e es hx hn hg he =>
          rw [hx, hn]
          cases full with
          | true =>
              refine ⟨e.blocks, .leave hg, rfl, fun _ ↦ ?_⟩
              exact ⟨fun _ ↦ .inr ⟨rfl, es, rfl⟩, fun _ ↦ cons_ne_nil _ _⟩
          | false =>
              refine ⟨[], .add _ hg he, rfl, fun _ ↦ ⟨fun h ↦ absurd rfl h, ?_⟩⟩
              rintro (h | ⟨h, -⟩)
              · exact absurd rfl h
              · cases h
      | refused hx hn hg =>
          rw [hx, hn]
          refine ⟨[], .leave hg, rfl, fun _ ↦ ⟨fun h ↦ absurd rfl h, ?_⟩⟩
          rintro (h | ⟨-, es, h⟩)
          · exact absurd rfl h
          · cases h
      | @left h' bs m hx hm hne hg =>
          rw [hx, hm]
          exact ⟨bs, .leave hg, rfl, fun _ ↦ ⟨fun _ ↦ .inl (Option.some_ne_none m), fun _ ↦ hne⟩⟩
      | crash hx hg =>
          rw [hx]
          exact ⟨_, .leave hg, rfl, fun h ↦ absurd rfl h⟩
  | packed s data fate =>
      obtain ⟨hg, he⟩ := newPacked_spec σ.heap data
      cases fate with
      | idle => exact ⟨[], .add _ hg he, rfl, fun _ ↦ ⟨fun h ↦ absurd rfl h, fun h ↦ by cases h⟩⟩
      | queued => exact ⟨[], .add _ hg he, rfl, fun _ ↦ ⟨fun h ↦ absurd rfl h, fun h ↦ by cases h⟩⟩
      | refused => exact ⟨_, .leave hg, rfl, fun _ ↦ ⟨fun _ ↦ rfl, fun _ ↦ cons_ne_nil _ _⟩⟩
  | take s T handler => exact hs.restoreAt (.queue s) 0 T
  | resume i T => exact hs.restoreAt .instances i T

end Sound

/-! ## Runs -/

theorem next_eq_some {W : Type} {r : W × Xfer (Result L)} {x : W} (h : next op r = some x) :
    r.1 = x ∧ r.2 ≠ .crash := by
  unfold next at h
  split at h
  · rename_i hr
    exact ⟨Option.some.inj h, by simp [hr]⟩
  · rename_i hr
    split at h
    · exact ⟨Option.some.inj h, by simp [hr]⟩
    · cases h
  · cases h

/-- The operations that the process survives are the same. -/
theorem next_congr {W W' : Type} {r : W × Xfer (Result L)} {r' : W' × Xfer (Result L)} {x : W}
    (hr : r.2 = r'.2) (h : next op r = some x) : next op r' = some r'.1 := by
  unfold next at h ⊢
  rw [← hr]
  split at h
  · rfl
  · split at h
    · rename_i hc
      rw [if_pos hc]
    · cases h
  · cases h

theorem Sound.empty : Sound .empty fun _ ↦ [] :=
  ⟨fun _ ↦ .nil, .empty⟩

theorem Sound.step (hs : Sound σ w) (h : σ.step op = some σ') :
    ∃ w', w.step op = some w' ∧ Sound σ' w' := by
  obtain ⟨lost, he, hr, -⟩ := hs.act op
  obtain ⟨rfl, -⟩ := next_eq_some h
  exact ⟨_, next_congr hr h, hs.effect he⟩

/-- **The memory of events cannot be noticed.**  To every run there is one without memory, of the
same operations; and in the states they lead to each operation ends as without memory, with the
same error, the same values in the Lua state, and with undefined behaviour only where the
functions of the Lua state have it. -/
theorem refines {tr : List (World × Op L)} (h : Run World.step .empty tr σ) :
    ∃ tr' w, Run Waiting.step (fun _ ↦ []) tr' w ∧ tr'.map Prod.snd = tr.map Prod.snd ∧
      ∀ op : Op L, (σ.act op).2 = (w.act op).2 := by
  have hm : ∀ x (op : Op L) x' u, Sound x u → World.step x op = some x' →
      ∃ u', Waiting.step u op = some u' ∧ Sound x' u' := fun _ _ _ _ hs h ↦ hs.step h
  obtain ⟨tr', w, hw, hl, hs⟩ := h.lockstep hm Sound.empty
  refine ⟨tr', w, hw, hl, fun op ↦ ?_⟩
  obtain ⟨-, -, hr, -⟩ := hs.act op
  exact hr

/-- **There is no leak** as long as no event is refused by its queue, and no error leaves one half
copied or half restored; and not any longer. -/
theorem tidy_iff {tr : List (World × Op L)} (h : Run World.step .empty tr σ) :
    (∀ x ∈ visited tr σ, x.Tidy) ↔ ∀ p ∈ tr, ¬ p.1.Loses p.2 := by
  refine h.forall_visited_iff (I := fun x ↦ (∃ w, Sound x w) ∧ x.Tidy)
    (C := fun x op ↦ ¬ x.Loses op) ⟨⟨_, Sound.empty⟩, ?_⟩ ?_ (fun _ hI ↦ hI.2) ?_
  · intro b hb
    cases hb
  · rintro x op x' ⟨⟨w, hs⟩, ht⟩ hC hstep
    obtain ⟨lost, he, -, hl⟩ := hs.act op
    obtain ⟨rfl, hc⟩ := next_eq_some hstep
    have hnil : lost = [] := by
      by_contra hne
      exact hC ((hl hc).1 hne)
    exact ⟨⟨_, hs.effect he⟩, (hs.tidy_effect ht he).2 hnil⟩
  · rintro x op x' ⟨⟨w, hs⟩, ht⟩ hC hstep htidy
    obtain ⟨lost, he, -, hl⟩ := hs.act op
    obtain ⟨rfl, hc⟩ := next_eq_some hstep
    exact (hl hc).2 (not_not.1 hC) ((hs.tidy_effect ht he).1 htidy)

end

/-- A Lua state that keeps what is pushed. -/
def keeper : Target (List Element) :=
  ⟨fun e s ↦ .ok (s ++ [e]), fun b s ↦ .ok (s ++ [.string b]), []⟩

/-- An event that waits and one that arrives behind it; the first one is taken. -/
def twoEvents : List (Op (List Element)) :=
  [.emmit 0 ⟨.none, false, 9, []⟩ [.string [65], .nil] false, .packed 0 [66] .queued,
    .take 0 keeper true]

theorem refines_twoEvents : ∃ σ, exec World.step .empty twoEvents = some σ ∧ ∃ tr' w,
    Run Waiting.step (fun _ ↦ []) tr' w ∧ tr'.map Prod.snd = twoEvents ∧
      ∀ op : Op (List Element), (σ.act op).2 = (w.act op).2 := by
  obtain ⟨σ, hσ⟩ : ∃ σ, exec World.step .empty twoEvents = some σ := ⟨_, rfl⟩
  obtain ⟨tr', w, hw, hl, hop⟩ := refines (Run.of_exec hσ)
  exact ⟨σ, hσ, tr', w, hw, hl, hop⟩

/-- The queue has room for one event only. -/
def oneRefused : List (Op (List Element)) := [.packed 0 [65] .queued, .packed 0 [66] .refused]

/-- The other one is lost. -/
theorem tidy_iff_oneRefused : ∃ σ, exec World.step .empty oneRefused = some σ ∧
    ¬ ∀ x ∈ visited (execTrace World.step .empty oneRefused) σ, x.Tidy := by
  obtain ⟨σ, hσ⟩ : ∃ σ, exec World.step .empty oneRefused = some σ := ⟨_, rfl⟩
  refine ⟨σ, hσ, fun hall ↦ ?_⟩
  exact (tidy_iff (Run.of_exec hσ)).1 hall _ (mem_cons_of_mem _ mem_cons_self) rfl

end Leda.Event.Memory
