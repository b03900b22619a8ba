import Leda.Event.Transfer
import Leda.Marshal.RoundTrip

/-!
# Direct and queued delivery

A send to a local stage takes one of two routes, depending on load.  If an instance is
idle, `copy_values_directly` pushes the arguments into its Lua state at once; if none is,
`extract_event_from_lua_state` stores them in an event, and whoever takes that event out of
the queue later pushes them with `restore_event_to_lua_state`.  Here both are followed to
the end, the stack on which the handler is resumed.

A push needs a free slot.  The interpreter promises a few, and more after a
`lua_checkstack` that succeeds; a push beyond them writes where it should not, which is a
crash here (`Arrival.room`).  Only the direct route asks for room, and it does not look at
the answer.  An error of `mar_decode` is raised in the state of the instance, where no
protected call is in progress: it ends the process on both routes.

The routes were meant to be the same, and are, as long as nobody runs out of slots: **they
refuse the same arguments, and otherwise deliver isomorphic ones** (`agree_iff`).
-/

namespace Leda.Event.Delivery

open Leda.Lib Leda.Lua Leda.Marshal Leda.Kernel

/-- An instance that is about to be given arguments: its Lua state, with the handler on the
stack. -/
structure Receiver where
  env : Marshal.Lua
  /-- The levels of calls that there is room for: on its C stack, and on the stack of
  `mar_decode`, unless the slots of that are counted. -/
  depth : Nat
  /-- The slots of the stack that may be used: `ci->top`. -/
  room : Nat
  /-- `LUAI_MAXCSTACK` -/
  maxStack : Nat
  heap : Heap

/-- The Lua state while arguments arrive; the stack is bottom first. -/
structure Arrival where
  heap : Heap
  stack : List (Slot Value)
  room : Nat
deriving DecidableEq

/-- After `GET_HANDLER`. -/
def Receiver.start (R : Receiver) : Arrival :=
  { heap := R.heap, stack := [.handler], room := R.room }

namespace Arrival

/-- `lua_pushnil`, `lua_pushnumber`, … -/
def push (v : Value) (s : Arrival) : Xfer Arrival :=
  if s.stack.length < s.room then .ok { s with stack := s.stack ++ [.value v] } else .crash

/-- `lua_pushcfunction(L,mar_decode)`, `lua_pushlstring` and `lua_call(L,1,1)`. -/
def decode (R : Receiver) (b : List UInt8) (s : Arrival) : Xfer Arrival :=
  if s.room < s.stack.length + 2 then .crash
  else
    match marDecode R.env R.depth b s.heap with
    | .ok (v, h) => .ok { s with heap := h, stack := s.stack ++ [.value v] }
    | _ => .crash

/-- `lua_checkstack`, which does nothing if it fails. -/
def checkstack (maxStack n : Nat) (s : Arrival) : Arrival :=
  if s.stack.length + n ≤ maxStack then { s with room := max s.room (s.stack.length + n) } else s

end Arrival

/-- What an instance is resumed with. -/
structure Delivered where
  heap : Heap
  stack : List (Slot Value)
  /-- `i->args` -/
  args : Nat
deriving DecidableEq

variable (S : Sender) (R : Receiver)

/-! ## The direct route -/

/-- The switch of `copy_values_directly`. -/
def copyValue : Value → Heap → Arrival → Xfer (Heap × Arrival)
  | .number d, h, s => do .ok (h, ← s.push (.number d))
  | .boolean b, h, s => do .ok (h, ← s.push (.boolean b))
  | .string b, h, s => do .ok (h, ← s.push (.string b))
  | .lightuserdata p, h, s => do .ok (h, ← s.push (.lightuserdata p))
  | .nil, h, s => do .ok (h, ← s.push .nil)
  | .object a, h, s =>
      match h[a]? with
      | some .thread => .raised "Value type 'thread' not supported"
      | some _ => do
          let (b, h) ← marEncode S.hooks S.lua52 false S.depth (.object a) h
          .ok (h, ← s.decode R b)
      | none => do .ok (h, ← s.push .nil)

/-- Its loop. -/
def copyLoop : List Value → Heap → Arrival → Xfer Arrival
  | [], _, s => .ok s
  | v :: vs, h, s => do
      let (h, s) ← copyValue S R v h s
      copyLoop vs h s

/-- `copy_values_directly`, with the first argument at `first`. -/
def copyValuesDirectly (first : Nat) (args : List Value) (s : Arrival) : Xfer Arrival :=
  if args.length = 0 then .ok s
  else copyLoop S R args S.heap (s.checkstack R.maxStack (first + args.length))

/-- `emmit` with an idle instance. -/
def direct (args : List Value) : Xfer Delivered := do
  let s ← copyValuesDirectly S R 2 args R.start
  .ok { heap := s.heap, stack := s.stack, args := args.length }

/-! ## The queued route -/

/-- The switch of `restore_event_to_lua_state`. -/
def restoreElement : Element → Arrival → Xfer Arrival
  | .nil, s => s.push .nil
  | .boolean b, s => s.push (.boolean b)
  | .number d, s => s.push (.number d)
  | .string b, s => s.push (.string b)
  | .lightuserdata p, s => s.push (.lightuserdata p)
  | .encoded _ b, s => s.decode R b

/-- Its loop. -/
def restoreLoop : List Element → Arrival → Xfer Arrival
  | [], s => .ok s
  | e :: es, s => do
      let s ← restoreElement R e s
      restoreLoop es s

/-- `emmit` without an idle instance, and `instance_release` when it takes the event. -/
def queued (args : List Value) : Xfer Delivered := do
  let es ← extractEvent S args
  let s ← restoreLoop R es R.start
  .ok { heap := s.heap, stack := s.stack, args := es.length }

/-! ## The slots -/

/-- The slots an element takes meanwhile. -/
def slots : Element → Nat
  | .encoded .. => 2
  | _ => 1

/-- There are slots for the elements, above `n` others. -/
def Fits (room : Nat) : Nat → List Element → Prop
  | _, [] => True
  | n, e :: es => n + slots e ≤ room ∧ Fits room (n + 1) es

/-- No error is raised when the elements are decoded, one after the other. -/
def Decodes : List Element → Heap → Prop
  | [], _ => True
  | .encoded _ b :: es, h =>
      ∃ v h', marDecode R.env R.depth b h = .ok (v, h') ∧ Decodes es h'
  | _ :: es, h => Decodes es h

/-- The arguments are stored as elements; meanwhile hooks extend the heap. -/
inductive Copied : List Value → Heap → List Element → Heap → Prop
  | nil {h} : Copied [] h [] h
  | cons {v vs e es h h₁ h'} (hv : copyElement S v h = .ok (e, h₁)) (hvs : Copied vs h₁ es h') :
      Copied (v :: vs) h (e :: es) h'

section

variable {S R} {h h' h₁ : Heap} {s s' : Arrival} {v : Value} {vs ws args : List Value}
  {e : Element} {es : List Element} {m : String}

/-- **The switches agree**: copying is storing and restoring. -/
theorem copyValue_eq (v : Value) (h : Heap) (s : Arrival) : copyValue S R v h s =
    copyElement S v h >>= fun r ↦ restoreElement R r.1 s >>= fun s ↦ .ok (r.2, s) := by
  cases v with
  | nil | boolean | number | string | lightuserdata => rfl
  | object a =>
      simp only [copyValue, copyElement, copyEventElement]
      cases ho : h[a]? with
      | none => rfl
      | some o =>
          cases o with
          | thread => rfl
          | table | function | userdata => simp only [Xfer.bind_assoc, Xfer.ok_bind, restoreElement]

theorem copyArgs_append (hc : Copied S vs h es h') (ws : List Value) :
    copyArgs (copyElement S) (vs ++ ws) h =
      copyArgs (copyElement S) ws h' >>= fun es' ↦ .ok (es ++ es') := by
  induction hc with
  | nil =>
      rw [List.nil_append]
      cases copyArgs (copyElement S) ws _ <;> rfl
  | cons hv _ ih =>
      simp only [List.cons_append, copyArgs, hv, Xfer.ok_bind, ih, Xfer.bind_assoc]

theorem copyArgs_eq_ok_iff :
    copyArgs (copyElement S) vs h = .ok es ↔ ∃ h', Copied S vs h es h' := by
  constructor
  · intro hr
    induction vs generalizing h es with
    | nil =>
        cases hr
        exact ⟨h, .nil⟩
    | cons v vs ih =>
        obtain ⟨⟨e, h₁⟩, he, hr⟩ := Xfer.bind_eq_ok.1 hr
        obtain ⟨es', hes, hr⟩ := Xfer.bind_eq_ok.1 hr
        cases hr
        obtain ⟨h', hc⟩ := ih hes
        exact ⟨h', .cons he hc⟩
  · rintro ⟨h', hc⟩
    have := copyArgs_append hc []
    simpa [copyArgs] using this

/-- The first argument that is refused decides. -/
theorem copyArgs_eq_raised_iff : copyArgs (copyElement S) vs h = .raised m ↔
    ∃ pre v post es h', vs = pre ++ v :: post ∧ Copied S pre h es h' ∧
      copyElement S v h' = .raised m := by
  constructor
  · intro hr
    induction vs generalizing h with
    | nil => cases hr
    | cons v vs ih =>
        rcases Xfer.bind_eq_raised.1 hr with hv | ⟨⟨e, h₁⟩, hv, hr⟩
        · exact ⟨[], v, vs, [], h, rfl, .nil, hv⟩
        · rcases Xfer.bind_eq_raised.1 hr with hvs | ⟨_, _, hr⟩
          · obtain ⟨pre, w, post, es, h', rfl, hc, hw⟩ := ih hvs
            exact ⟨v :: pre, w, post, e :: es, h', rfl, .cons hv hc, hw⟩
          · cases hr
  · rintro ⟨pre, v, post, es, h', rfl, hc, hv⟩
    rw [copyArgs_append hc, copyArgs, hv]
    rfl

/-- What was stored can be restored before the rest is copied. -/
theorem copyLoop_append (hc : Copied S vs h es h') (ws : List Value) (s : Arrival) :
    copyLoop S R (vs ++ ws) h s = restoreLoop R es s >>= fun s ↦ copyLoop S R ws h' s := by
  induction hc generalizing s with
  | nil => rfl
  | cons hv _ ih =>
      simp only [List.cons_append, copyLoop, copyValue_eq, hv, Xfer.ok_bind, Xfer.bind_assoc,
        restoreLoop, ih]

/-! ## When arguments arrive -/

theorem restoreElement_eq_ok_iff : (∃ s', restoreElement R e s = .ok s') ↔
    s.stack.length + slots e ≤ s.room ∧ Decodes R [e] s.heap := by
  have hpush : ∀ v, (∃ s', s.push v = .ok s') ↔ s.stack.length + 1 ≤ s.room := fun v ↦ by
    unfold Arrival.push
    split
    · exact ⟨fun _ ↦ by omega, fun _ ↦ ⟨_, rfl⟩⟩
    · refine ⟨?_, fun _ ↦ by omega⟩
      rintro ⟨_, hs⟩
      cases hs
  cases e with
  | nil | boolean | number | string | lightuserdata =>
      simpa [restoreElement, slots, Decodes] using hpush _
  | encoded type b =>
      simp only [restoreElement, Arrival.decode, slots, Decodes, and_true]
      by_cases hlt : s.room < s.stack.length + 2
      · rw [if_pos hlt]
        refine ⟨?_, fun hn ↦ absurd hn.1 (by omega)⟩
        rintro ⟨_, hs⟩
        cases hs
      · rw [if_neg hlt]
        rcases marDecode R.env R.depth b s.heap with ⟨v, h⟩ | m | _
        · exact ⟨fun _ ↦ ⟨by omega, v, h, rfl⟩, fun _ ↦ ⟨_, rfl⟩⟩
        · refine ⟨?_, ?_⟩
          · rintro ⟨_, hs⟩
            cases hs
          · rintro ⟨-, _, _, hs⟩
            cases hs
        · refine ⟨?_, ?_⟩
          · rintro ⟨_, hs⟩
            cases hs
          · rintro ⟨-, _, _, hs⟩
            cases hs

/-- One more slot is taken, and the rest is decoded in the heap that is left. -/
theorem restoreElement_eq_ok (hr : restoreElement R e s = .ok s') :
    s'.stack.length = s.stack.length + 1 ∧ s'.room = s.room ∧
      ∀ es, Decodes R (e :: es) s.heap ↔ Decodes R es s'.heap := by
  have hpush : ∀ v, s.push v = .ok s' →
      s'.stack.length = s.stack.length + 1 ∧ s'.room = s.room ∧ s'.heap = s.heap := fun v hv ↦ by
    unfold Arrival.push at hv
    split at hv
    · cases hv
      simp
    · cases hv
  cases e with
  | nil | boolean | number | string | lightuserdata =>
      obtain ⟨hl, hroom, hh⟩ := hpush _ hr
      exact ⟨hl, hroom, fun es ↦ by rw [hh]; rfl⟩
  | encoded type b =>
      simp only [restoreElement, Arrival.decode] at hr
      split at hr
      · cases hr
      · split at hr
        · rename_i v h hd
          cases hr
          exact ⟨by simp, rfl, fun es ↦ by simp [Decodes, hd]⟩
        · cases hr

/-- **What it takes to restore an event**: slots, and no error of `mar_decode`. -/
theorem restoreLoop_eq_ok_iff (es : List Element) (s : Arrival) :
    (∃ s', restoreLoop R es s = .ok s') ↔
      Fits s.room s.stack.length es ∧ Decodes R es s.heap := by
  induction es generalizing s with
  | nil => exact ⟨fun _ ↦ ⟨trivial, trivial⟩, fun _ ↦ ⟨s, rfl⟩⟩
  | cons e es ih =>
      have hstep : ∀ s₁, restoreElement R e s = .ok s₁ →
          ((∃ s', restoreLoop R (e :: es) s = .ok s') ↔
            Fits s.room (s.stack.length + 1) es ∧ Decodes R (e :: es) s.heap) := fun s₁ h₁ ↦ by
        obtain ⟨hl, hroom, hd⟩ := restoreElement_eq_ok h₁
        rw [restoreLoop, h₁, Xfer.ok_bind, ih, hl, hroom, hd es]
      constructor
      · rintro ⟨s', hs'⟩
        obtain ⟨s₁, h₁, -⟩ := Xfer.bind_eq_ok.1 hs'
        obtain ⟨hf, hd⟩ := (hstep s₁ h₁).1 ⟨s', hs'⟩
        exact ⟨⟨(restoreElement_eq_ok_iff.1 ⟨s₁, h₁⟩).1, hf⟩, hd⟩
      · rintro ⟨⟨he, hf⟩, hd⟩
        have hone : Decodes R [e] s.heap := by
          cases e with
          | encoded type b =>
              obtain ⟨v, h, hv, -⟩ := hd
              exact ⟨v, h, hv, trivial⟩
          | nil | boolean | number | string | lightuserdata => trivial
        obtain ⟨s₁, h₁⟩ := restoreElement_eq_ok_iff.2 ⟨he, hone⟩
        exact (hstep s₁ h₁).2 ⟨hf, hd⟩

/-- Restoring does not raise what a sender could catch. -/
theorem restoreElement_ne_raised : restoreElement R e s ≠ .raised m := by
  have hpush : ∀ v, s.push v ≠ .raised m := fun v hv ↦ by
    unfold Arrival.push at hv
    split at hv <;> cases hv
  cases e with
  | nil | boolean | number | string | lightuserdata => exact hpush _
  | encoded type b =>
      intro hd
      simp only [restoreElement, Arrival.decode] at hd
      split at hd
      · cases hd
      · split at hd <;> cases hd

theorem restoreLoop_ne_raised : restoreLoop R es s ≠ .raised m := by
  intro hr
  induction es generalizing s with
  | nil => cases hr
  | cons e es ih =>
      rcases Xfer.bind_eq_raised.1 hr with he | ⟨s₁, -, hr⟩
      · exact restoreElement_ne_raised he
      · exact ih hr

/-! ## The routes agree on what they refuse -/

theorem copyLoop_eq_raised (hr : copyLoop S R vs h s = .raised m) :
    copyArgs (copyElement S) vs h = .raised m := by
  induction vs generalizing h s with
  | nil => cases hr
  | cons v vs ih =>
      rw [copyLoop, copyValue_eq] at hr
      rcases Xfer.bind_eq_raised.1 hr with hv | ⟨⟨h₁, s₁⟩, hv, hr⟩
      · rcases Xfer.bind_eq_raised.1 hv with hv | ⟨⟨e, h₁⟩, hv, he⟩
        · exact Xfer.bind_eq_raised.2 (.inl hv)
        · rcases Xfer.bind_eq_raised.1 he with he | ⟨_, _, he⟩
          · exact absurd he restoreElement_ne_raised
          · cases he
      · obtain ⟨⟨e, h₂⟩, hcopy, he⟩ := Xfer.bind_eq_ok.1 hv
        obtain ⟨s₂, -, he⟩ := Xfer.bind_eq_ok.1 he
        cases he
        exact Xfer.bind_eq_raised.2 (.inr ⟨_, hcopy, Xfer.bind_eq_raised.2 (.inl (ih hr))⟩)

/-- The state on the direct route when the first argument is pushed. -/
def Receiver.ready (R : Receiver) (n : Nat) : Arrival := R.start.checkstack R.maxStack (2 + n)

@[simp] theorem ready_heap (n : Nat) : (R.ready n).heap = R.heap := by
  simp only [Receiver.ready, Arrival.checkstack]
  split <;> rfl

@[simp] theorem ready_stack (n : Nat) : (R.ready n).stack = [.handler] := by
  simp only [Receiver.ready, Arrival.checkstack]
  split <;> rfl

theorem room_le_ready (n : Nat) : R.room ≤ (R.ready n).room := by
  simp only [Receiver.ready, Arrival.checkstack]
  split
  · exact Nat.le_max_left _ _
  · exact Nat.le_refl _

theorem direct_eq (hne : args ≠ []) : direct S R args =
    copyLoop S R args S.heap (R.ready args.length) >>= fun s ↦
      .ok { heap := s.heap, stack := s.stack, args := args.length } := by
  rw [direct, copyValuesDirectly, if_neg (by simpa using hne)]
  rfl

theorem queued_eq_raised_iff : queued S R args = .raised m ↔
    copyArgs (copyElement S) args S.heap = .raised m := by
  constructor
  · intro hq
    rcases Xfer.bind_eq_raised.1 hq with hq | ⟨es, -, hq⟩
    · exact hq
    · rcases Xfer.bind_eq_raised.1 hq with hq | ⟨_, _, hq⟩
      · exact absurd hq restoreLoop_ne_raised
      · cases hq
  · exact fun hr ↦ Xfer.bind_eq_raised.2 (.inl hr)

/-- Up to the first argument that is refused, the direct route has delivered. -/
theorem direct_eq_raised_iff {pre post : List Value} (hc : Copied S pre S.heap es h)
    (hv : copyElement S v h = .raised m) : direct S R (pre ++ v :: post) = .raised m ↔
      Fits (R.ready (pre ++ v :: post).length).room 1 es ∧ Decodes R es R.heap := by
  rw [direct_eq (by simp), copyLoop_append hc]
  have hready := restoreLoop_eq_ok_iff (R := R) es (R.ready (pre ++ v :: post).length)
  rw [ready_heap, ready_stack, List.length_singleton] at hready
  rw [← hready]
  rcases hr : restoreLoop R es (R.ready (pre ++ v :: post).length) with s | m' | _
  · refine ⟨fun _ ↦ ⟨s, rfl⟩, fun _ ↦ ?_⟩
    rw [Xfer.ok_bind, copyLoop, copyValue_eq, hv]
    rfl
  · exact absurd hr restoreLoop_ne_raised
  · refine ⟨fun hd ↦ ?_, ?_⟩
    · cases hd
    · rintro ⟨s, hs⟩
      cases hs

/-- An error of the direct route is one of the queued route. -/
theorem queued_of_direct_raised (hd : direct S R args = .raised m) :
    queued S R args = .raised m := by
  have hne : args ≠ [] := by
    rintro rfl
    cases hd
  rw [direct_eq hne] at hd
  refine queued_eq_raised_iff.2 (copyLoop_eq_raised (R := R) (s := R.ready args.length) ?_)
  rcases Xfer.bind_eq_raised.1 hd with hd | ⟨_, _, hd⟩
  · exact hd
  · cases hd

/-! ## They deliver copies -/

theorem fits_iff {room n : Nat} : Fits room n es ↔
    ∀ k e, es[k]? = some e → n + k + slots e ≤ room := by
  induction es generalizing n with
  | nil => simp [Fits]
  | cons e es ih =>
      rw [Fits, ih]
      constructor
      · rintro ⟨he, hes⟩ k e' hk
        cases k with
        | zero =>
            obtain rfl : e = e' := by simpa using hk
            simpa using he
        | succ k =>
            have := hes k e' (by simpa using hk)
            omega
      · intro hall
        refine ⟨by simpa using hall 0 e rfl, fun k e' hk ↦ ?_⟩
        have := hall (k + 1) e' (by simpa using hk)
        omega

/-- The slots an argument takes meanwhile. -/
def needs : Value → Nat
  | .object _ => 2
  | _ => 1

/-- The tree of the argument fits, in lengths and in depth. -/
def Sendable (S : Sender) : Value → Prop
  | .object a => ∃ c st', CodeOf S.hooks S.lua52 false (.object a) { heap := S.heap } c st' ∧
      c.Fits ∧ c.height ≤ S.depth
  | _ => True

/-- An element from which a copy of the value is restored. -/
structure Carries (S : Sender) (R : Receiver) (v : Value) (e : Element) : Prop where
  slots : slots e = needs v
  restore : ∀ s : Arrival, s.stack.length + needs v ≤ s.room → ∃ v' h',
    restoreElement R e s = .ok { s with heap := h', stack := s.stack ++ [.value v'] } ∧
      Iso S.heap v h' v' ∧ ∀ b, b < s.heap.length → h'[b]? = s.heap[b]?

theorem iso_scalar (hv : ∀ a, v ≠ .object a) (h h' : Heap) : Iso h v h' v := by
  refine ⟨fun _ _ ↦ False, ⟨fun _ _ _ hf ↦ hf.elim, fun _ _ _ hf ↦ hf.elim,
    fun _ _ hf ↦ hf.elim⟩, ?_⟩
  cases v with
  | object a => exact absurd rfl (hv a)
  | nil | boolean | lightuserdata | number | string => exact rfl

/-- **What is stored of a plain value carries it.** -/
theorem copyElement_plain (hS : WellFormedHeap S.heap) (hd : S.depth ≤ R.depth)
    (hp : Plain S.lua52 S.heap v) (hr : copyElement S v S.heap = .ok (e, h')) :
    h' = S.heap ∧ Sendable S v ∧ Carries S R v e := by
  have hscalar : ∀ w : Value, (∀ a, w ≠ .object a) → ∀ s : Arrival, s.stack.length + 1 ≤ s.room →
      ∃ v' h', s.push w = .ok { s with heap := h', stack := s.stack ++ [.value v'] } ∧
        Iso S.heap w h' v' ∧ ∀ b, b < s.heap.length → h'[b]? = s.heap[b]? :=
    fun w hw s hs ↦ ⟨w, s.heap, if_pos (by omega), iso_scalar hw _ _, fun _ _ ↦ rfl⟩
  cases v with
  | nil | boolean | number | string | lightuserdata =>
      cases hr
      exact ⟨rfl, trivial, rfl, hscalar _ (by simp)⟩
  | object a =>
      obtain ⟨t, ht, -⟩ := hp a rfl a .refl
      obtain ⟨r, hr, hm⟩ := Xfer.bind_eq_ok.1 hr
      simp only [copyEventElement, ht] at hr
      obtain ⟨⟨b, h₁⟩, he, hr⟩ := Xfer.bind_eq_ok.1 hr
      cases hr
      cases hm
      obtain ⟨c, st', hc, hf, hheight, -, -⟩ := marEncode_eq_ok_iff.1 he
      have hheap := (marDecode_marEncode (L := R.env) [] hS hp hd he).1
      refine ⟨hheap, ⟨c, st', hc, hf, hheight⟩, rfl, fun s hs ↦ ?_⟩
      obtain ⟨-, v', h'', hdec, hiso, -, hframe⟩ :=
        marDecode_marEncode (L := R.env) s.heap hS hp hd he
      refine ⟨v', h'', ?_, hiso, hframe⟩
      simp only [needs] at hs
      rw [restoreElement, Arrival.decode, if_neg (by omega), hdec]

theorem copyElement_sendable (hp : Plain S.lua52 S.heap v) (hs : Sendable S v) :
    ∃ e h', copyElement S v S.heap = .ok (e, h') := by
  cases v with
  | nil | boolean | number | string | lightuserdata => exact ⟨_, _, rfl⟩
  | object a =>
      obtain ⟨t, ht, -⟩ := hp a rfl a .refl
      obtain ⟨c, st', hc, hf, hd⟩ := hs
      refine ⟨.encoded 5 (0x8e :: c.print), st'.heap, ?_⟩
      have he := marEncode_eq_ok_iff.2 ⟨c, st', hc, hf, hd, rfl, rfl⟩
      simp only [copyElement, copyEventElement, ht, he, Xfer.ok_bind]
      rfl

/-- The elements of plain arguments carry them. -/
theorem copied_plain (hS : WellFormedHeap S.heap) (hd : S.depth ≤ R.depth)
    (hc : Copied S args h es h') (hh : h = S.heap) (hp : ∀ v ∈ args, Plain S.lua52 S.heap v) :
    (∀ v ∈ args, Sendable S v) ∧ List.Forall₂ (Carries S R) args es := by
  induction hc with
  | nil => exact ⟨by simp, .nil⟩
  | cons hv _ ih =>
      subst hh
      obtain ⟨hh₁, hs, he⟩ := copyElement_plain hS hd (hp _ List.mem_cons_self) hv
      obtain ⟨hss, hes⟩ := ih hh₁ fun v hm ↦ hp v (List.mem_cons_of_mem _ hm)
      exact ⟨List.forall_mem_cons.2 ⟨hs, hss⟩, .cons he hes⟩

theorem copied_of_sendable (hS : WellFormedHeap S.heap) (hd : S.depth ≤ R.depth)
    (hp : ∀ v ∈ args, Plain S.lua52 S.heap v) (hs : ∀ v ∈ args, Sendable S v) :
    ∃ es h', Copied S args S.heap es h' := by
  induction args with
  | nil => exact ⟨[], _, .nil⟩
  | cons v vs ih =>
      obtain ⟨e, h₁, hv⟩ := copyElement_sendable (hp v List.mem_cons_self) (hs v List.mem_cons_self)
      obtain rfl := (copyElement_plain hS hd (hp v List.mem_cons_self) hv).1
      obtain ⟨es, h', hvs⟩ := ih (fun w hm ↦ hp w (List.mem_cons_of_mem _ hm))
        fun w hm ↦ hs w (List.mem_cons_of_mem _ hm)
      exact ⟨e :: es, h', .cons hv hvs⟩

/-- **Elements that carry values deliver copies of them**, one after the other. -/
theorem restoreLoop_carries (hc : List.Forall₂ (Carries S R) args es)
    (hf : Fits s.room s.stack.length es) : ∃ s' vs, restoreLoop R es s = .ok s' ∧
      s'.stack = s.stack ++ vs.map .value ∧
      List.Forall₂ (fun v v' ↦ Iso S.heap v s'.heap v') args vs ∧
      ∀ b, b < s.heap.length → s'.heap[b]? = s.heap[b]? := by
  induction hc generalizing s with
  | nil => exact ⟨s, [], rfl, by simp, .nil, fun _ _ ↦ rfl⟩
  | @cons v e args es he _ ih =>
      obtain ⟨v', h', hr, hiso, hframe⟩ := he.restore s (he.slots ▸ hf.1)
      have hf' : Fits s.room (s.stack ++ [Slot.value v']).length es := by
        simpa using hf.2
      obtain ⟨s', vs, hs', hst, hvs, hframe'⟩ := ih (s := ⟨h', s.stack ++ [.value v'], s.room⟩) hf'
      have hlen : s.heap.length ≤ h'.length := by
        by_contra hlt
        have := hframe h'.length (by omega)
        rw [List.getElem?_eq_none (Nat.le_refl _)] at this
        exact absurd (List.getElem?_eq_none_iff.1 this.symm) (by omega)
      refine ⟨s', v' :: vs, ?_, by simp [hst], .cons (hiso.mono fun b t hb ↦ ?_) hvs,
        fun b hb ↦ ?_⟩
      · rw [restoreLoop, hr, Xfer.ok_bind, hs']
      · rw [hframe' b (List.getElem?_eq_some_iff.1 hb).1, hb]
      · rw [hframe' b (by simpa using Nat.lt_of_lt_of_le hb hlen), hframe b hb]

end

/-! ## The two routes -/

/-- The handler is given isomorphic copies of the arguments, and their number. -/
structure Received (args : List Value) (r : Delivered) : Prop where
  count : r.args = args.length
  values : ∃ vs, r.stack = .handler :: vs.map .value ∧
    List.Forall₂ (fun v v' ↦ Iso S.heap v r.heap v') args vs

/-- **The routes agree** on a list of arguments. -/
structure Agree (args : List Value) : Prop where
  /-- Scalars and tables without hooks are delivered by both, as copies. -/
  delivers : (∀ v ∈ args, Plain S.lua52 S.heap v) →
    (∃ r, direct S R args = .ok r ∧ Received S args r) ∧
      ∃ r, queued S R args = .ok r ∧ Received S args r
  /-- What the one refuses the other refuses, with the same error. -/
  raises : ∀ m, direct S R args = .raised m ↔ queued S R args = .raised m

/-- When they do. -/
structure Roomy (args : List Value) : Prop where
  /-- Plain arguments can be written, and there are slots for them without asking. -/
  plain : (∀ v ∈ args, Plain S.lua52 S.heap v) → ∀ k v, args[k]? = some v →
    Sendable S v ∧ 1 + k + needs v ≤ R.room
  /-- Arguments before the first one that is refused do no harm to the instance: there are
  slots for them after asking, and they are decoded without an error. -/
  refused : ∀ pre v post es h m, args = pre ++ v :: post → Copied S pre S.heap es h →
    copyElement S v h = .raised m →
      Fits (R.ready args.length).room 1 es ∧ Decodes R es R.heap

variable {S R} {args : List Value}

/-- Plain arguments are delivered by both routes if and only if the queued one has slots. -/
theorem delivers_iff (hS : WellFormedHeap S.heap) (hd : S.depth ≤ R.depth)
    (hp : ∀ v ∈ args, Plain S.lua52 S.heap v) :
    ((∃ r, direct S R args = .ok r ∧ Received S args r) ∧
      ∃ r, queued S R args = .ok r ∧ Received S args r) ↔
    ∀ k v, args[k]? = some v → Sendable S v ∧ 1 + k + needs v ≤ R.room := by
  -- the elements and the arguments take the same slots
  have hneeds : ∀ {es : List Element} {room : Nat}, List.Forall₂ (Carries S R) args es →
      (Fits room 1 es ↔ ∀ k v, args[k]? = some v → 1 + k + needs v ≤ room) :=
    fun {es room} hes ↦ by
      rw [fits_iff]
      constructor
      · intro hf k v hk
        obtain ⟨hk', rfl⟩ := List.getElem?_eq_some_iff.1 hk
        have hk'' : k < es.length := hes.length_eq ▸ hk'
        have hc : Carries S R args[k] es[k] := hes.get hk' hk''
        rw [← hc.slots]
        exact hf k es[k] (List.getElem?_eq_getElem hk'')
      · intro hf k e hk
        obtain ⟨hk', rfl⟩ := List.getElem?_eq_some_iff.1 hk
        have hk'' : k < args.length := hes.length_eq ▸ hk'
        have hc : Carries S R args[k] es[k] := hes.get hk'' hk'
        rw [hc.slots]
        exact hf k args[k] (List.getElem?_eq_getElem hk'')
  constructor
  · rintro ⟨-, r, hq, -⟩ k v hk
    obtain ⟨es, hes, hq⟩ := Xfer.bind_eq_ok.1 hq
    obtain ⟨s, hs, -⟩ := Xfer.bind_eq_ok.1 hq
    obtain ⟨h', hc⟩ := copyArgs_eq_ok_iff.1 hes
    obtain ⟨hsend, hcar⟩ := copied_plain hS hd hc rfl hp
    exact ⟨hsend v (List.mem_of_getElem? hk),
      (hneeds hcar).1 ((restoreLoop_eq_ok_iff es _).1 ⟨s, hs⟩).1 k v hk⟩
  · intro hall
    have hsend : ∀ v ∈ args, Sendable S v := fun v hm ↦ by
      obtain ⟨k, hk⟩ := List.getElem?_of_mem hm
      exact (hall k v hk).1
    obtain ⟨es, h', hc⟩ := copied_of_sendable hS hd hp hsend
    have hcar := (copied_plain hS hd hc rfl hp).2
    have hlen : es.length = args.length := hcar.length_eq.symm
    have hreceived : ∀ {s s' : Arrival} {vs : List Value}, s.stack = [.handler] →
        s'.stack = s.stack ++ vs.map .value →
        List.Forall₂ (fun v v' ↦ Iso S.heap v s'.heap v') args vs →
          Received S args ⟨s'.heap, s'.stack, args.length⟩ := fun hs hs' hvs ↦
      ⟨rfl, _, by simp [hs', hs], hvs⟩
    constructor
    · have hready : Fits (R.ready args.length).room (R.ready args.length).stack.length es := by
        rw [ready_stack]
        exact (hneeds hcar).2 fun k v hk ↦ (hall k v hk).2.trans (room_le_ready _)
      obtain ⟨s', vs, hs', hst, hvs, -⟩ := restoreLoop_carries hcar hready
      refine ⟨⟨s'.heap, s'.stack, args.length⟩, ?_, hreceived (ready_stack _) hst hvs⟩
      by_cases hne : args = []
      · subst hne
        cases hcar
        cases hs'
        simp only [ready_heap, ready_stack]
        rfl
      · have hloop := copyLoop_append (R := R) hc [] (R.ready args.length)
        rw [List.append_nil, hs', Xfer.ok_bind] at hloop
        rw [direct_eq hne, hloop]
        rfl
    · have hstart : Fits R.start.room R.start.stack.length es :=
        (hneeds hcar).2 fun k v hk ↦ (hall k v hk).2
      obtain ⟨s', vs, hs', hst, hvs, -⟩ := restoreLoop_carries hcar hstart
      refine ⟨⟨s'.heap, s'.stack, args.length⟩, ?_, hreceived rfl hst hvs⟩
      have hext : extractEvent S args = .ok es := copyArgs_eq_ok_iff.2 ⟨h', hc⟩
      rw [queued, hext, Xfer.ok_bind, hs', Xfer.ok_bind, hlen]

/-- The routes refuse the same arguments if and only if those before do no harm. -/
theorem raises_iff : (∀ m, direct S R args = .raised m ↔ queued S R args = .raised m) ↔
    ∀ pre v post es h m, args = pre ++ v :: post → Copied S pre S.heap es h →
      copyElement S v h = .raised m →
        Fits (R.ready args.length).room 1 es ∧ Decodes R es R.heap := by
  constructor
  · rintro hall pre v post es h m rfl hc hv
    have hq : queued S R (pre ++ v :: post) = .raised m :=
      queued_eq_raised_iff.2 (copyArgs_eq_raised_iff.2 ⟨pre, v, post, es, h, rfl, hc, hv⟩)
    exact (direct_eq_raised_iff hc hv).1 ((hall m).2 hq)
  · refine fun hall m ↦ ⟨queued_of_direct_raised, fun hq ↦ ?_⟩
    obtain ⟨pre, v, post, es, h, rfl, hc, hv⟩ :=
      copyArgs_eq_raised_iff.1 (queued_eq_raised_iff.1 hq)
    exact (direct_eq_raised_iff hc hv).2 (hall pre v post es h m rfl hc hv)

/-- **When the two routes agree.**  The queued route restores an event without asking for
slots, so it delivers as many arguments as there happen to be slots for; and the direct
route has pushed the first arguments when it refuses another one. -/
theorem agree_iff (hS : WellFormedHeap S.heap) (hd : S.depth ≤ R.depth) :
    Agree S R args ↔ Roomy S R args := by
  constructor
  · exact fun ha ↦ ⟨fun hp ↦ (delivers_iff hS hd hp).1 (ha.delivers hp), raises_iff.1 ha.raises⟩
  · exact fun hr ↦ ⟨fun hp ↦ (delivers_iff hS hd hp).2 (hr.plain hp), raises_iff.2 hr.refused⟩

/-- A Lua state that has nothing to load or to call. -/
def emptyLua : Marshal.Lua where
  lua52 := false
  globals := .nil
  load _ := .error []
  call v h := .ok (v, h)
  objlen := List.length

/-- The heap of a table that holds itself. -/
def knot : Heap := [.table { entries := [(.ofNat 1, .object 0)] }]

theorem wellFormedHeap_knot : WellFormedHeap knot where
  tables a t ht := by
    obtain rfl : a = 0 := by
      have := (List.getElem?_eq_some_iff.1 ht).1
      simp only [knot, List.length_singleton] at this
      omega
    cases ht
    exact ⟨by decide, by decide, by decide⟩
  refs a t ht := by
    obtain rfl : a = 0 := by
      have := (List.getElem?_eq_some_iff.1 ht).1
      simp only [knot, List.length_singleton] at this
      omega
    cases ht
    rintro e he b hb
    obtain rfl := List.mem_singleton.1 he
    rcases hb with hb | hb <;> cases hb
    decide
  functions a f hf := by
    have := (List.getElem?_eq_some_iff.1 hf).1
    obtain rfl : a = 0 := by
      simp only [knot, List.length_singleton] at this
      omega
    cases hf
  upvalues a f hf := by
    have := (List.getElem?_eq_some_iff.1 hf).1
    obtain rfl : a = 0 := by
      simp only [knot, List.length_singleton] at this
      omega
    cases hf

/-- The table that holds itself is delivered. -/
theorem agree_knot :
    Agree ⟨.none, false, 9, knot⟩ ⟨emptyLua, 9, 20, 8000, []⟩ [.object 0] := by
  refine (agree_iff wellFormedHeap_knot (Nat.le_refl _)).2 ⟨fun _ k v hk ↦ ?_, ?_⟩
  · cases k with
    | succ k => simp at hk
    | zero =>
        cases hk
        obtain ⟨b, h, he⟩ : ∃ b h, marEncode .none false false 9 (.object 0) knot = .ok (b, h) :=
          ⟨_, _, rfl⟩
        obtain ⟨c, st', hc, hf, hd, -⟩ := marEncode_eq_ok_iff.1 he
        exact ⟨⟨c, st', hc, hf, hd⟩, by decide⟩
  · rintro pre v post es h m hargs hc hv
    cases pre with
    | cons w pre => simp at hargs
    | nil =>
        cases hargs
        cases hc
        cases hv

set_option maxRecDepth 4000 in
/-- **A hundred numbers** are delivered to an idle instance, and ruin one that is busy. -/
theorem not_agree_hundred :
    (∃ r, direct ⟨.none, false, 9, []⟩ ⟨emptyLua, 9, 20, 8000, []⟩
      (.replicate 100 (.number 0)) = .ok r ∧ r.args = 100 ∧ r.stack.length = 101) ∧
    queued ⟨.none, false, 9, []⟩ ⟨emptyLua, 9, 20, 8000, []⟩
      (.replicate 100 (.number 0)) = .crash ∧
    ¬ Agree ⟨.none, false, 9, []⟩ ⟨emptyLua, 9, 20, 8000, []⟩ (.replicate 100 (.number 0)) := by
  have hq : queued ⟨.none, false, 9, []⟩ ⟨emptyLua, 9, 20, 8000, []⟩
      (.replicate 100 (.number 0)) = .crash := rfl
  refine ⟨⟨_, rfl, rfl, rfl⟩, hq, fun ha ↦ ?_⟩
  have hplain : ∀ v ∈ List.replicate 100 (Value.number 0), Plain false [] v := by
    rintro v hv a rfl
    cases List.eq_of_mem_replicate hv
  obtain ⟨r, hr, -⟩ := (ha.delivers hplain).2
  rw [hq] at hr
  cases hr

end Leda.Event.Delivery
