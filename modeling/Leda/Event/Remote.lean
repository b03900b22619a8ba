import Leda.Event.Packed
import Leda.Lua.Border

/-!
# Events for another process

`emmit_remote_sync` puts the arguments of an event into a table, from `1` on, and encodes
that; in the other process `restore_event_to_lua_state` decodes the table and unpacks it.
The number of arguments does not travel.  `unpack` takes for it what `#` says of the table,
which is a border: where an argument is `nil`, no pair was made, and the handler may be
given the arguments before it only.  The last one may be missing in any case.

On the way the table may be cut.  If the connection was in use before, the frame announces
the length of the event before this one (`tryPopLen`), and as many bytes are sent: too few,
and what arrives is no encoding; too many, and the rest is ignored, if it can be read at all.

So **a stage can be moved to another process without a difference only for events without
`nil`** (`remote_agrees_iff`), and then as far as the table of the arguments can be written,
is announced with its length at least, and can be decoded and unpacked (`Packable`).  What
`#` says of other tables depends on how they came to be; the property asks for agreement
whatever it says, and `firstBorder` is an operator with which an event with a `nil` is cut.
-/

namespace Leda.Marshal

open Leda.Lua

variable {hooks : Hooks} {lua52 nowrap : Bool} {h : Heap}

mutual

/-- Scalars and tables are written without functions and hooks, and nothing is allocated. -/
theorem CodeOf.inert {v : Value} {st : Enc} {c : Code} {st' : Enc} (hh : WellFormedHeap h) :
    CodeOf hooks lua52 nowrap v st c st' → st.heap = h → Plain lua52 h v →
      c.Inert ∧ st'.heap = h
  | .nil, hs, _ | .boolean, hs, _ | .lightuserdata _, hs, _ | .number, hs, _ | .string, hs, _
  | .dangling _, hs, _ | .ref _ _ _, hs, _ => ⟨trivial, hs⟩
  | .table (a := a) ho _ hn hes, hs, hp => by
      rw [hs] at ho
      refine hes.inert hh hs fun e he ↦ ?_
      have hin : ∀ b, e.1 = .object b ∨ e.2 = .object b → Inside lua52 h a b :=
        fun b hb ↦ hh.inside_entry ho hn he hb
      exact ⟨fun b hb x hx ↦ hp a rfl x ((Relation.ReflTransGen.single (hin b (.inl hb))).trans hx),
        fun b hb x hx ↦ hp a rfl x ((Relation.ReflTransGen.single (hin b (.inr hb))).trans hx)⟩
  | .function (a := a) ho _ _ _, hs, hp => by
      obtain ⟨t, ht, -⟩ := hp a rfl a .refl
      rw [hs, ht] at ho
      cases ho
  | .persist (a := a) ho _ hf _ _, hs, hp => by
      obtain ⟨t, ht, hn⟩ := hp a rfl a .refl
      rw [hs, ht] at ho
      cases ho
      rw [hn] at hf
      cases hf
  | .wrap (a := a) ho _ _ _ _, hs, hp => by
      obtain ⟨t, ht, -⟩ := hp a rfl a .refl
      rw [hs, ht] at ho
      cases ho

theorem CodesOf.inert {es : List (Value × Value)} {st : Enc} {cs : Codes} {st' : Enc}
    (hh : WellFormedHeap h) : CodesOf hooks lua52 nowrap es st cs st' → st.heap = h →
      (∀ e ∈ es, Plain lua52 h e.1 ∧ Plain lua52 h e.2) → cs.Inert ∧ st'.heap = h
  | .nil, hs, _ => ⟨trivial, hs⟩
  | .cons hk hv hrest, hs, hp => by
      obtain ⟨hpk, hpv⟩ := hp _ List.mem_cons_self
      obtain ⟨hik, hs₁⟩ := hk.inert hh hs hpk
      obtain ⟨hiv, hs₂⟩ := hv.inert hh hs₁ hpv
      obtain ⟨hir, hs₃⟩ := hrest.inert hh hs₂ fun e he ↦ hp e (List.mem_cons_of_mem _ he)
      exact ⟨⟨hik, hiv, hir⟩, hs₃⟩

end

end Leda.Marshal

namespace Leda.Lua

variable {h h' : Heap} {ρ : Nat → Nat → Prop} {new : List Object} {lua52 : Bool}

/-- A copy of what was allocated later aside, a copy of the rest. -/
theorem IsCopy.of_append (hh : WellFormedHeap h) (hc : IsCopy ρ (h ++ new) h') :
    IsCopy (fun a b ↦ ρ a b ∧ a < h.length) h h' where
  functional a b b' hab hab' := hc.functional a b b' hab.1 hab'.1
  injective a a' b hab hab' := hc.injective a a' b hab.1 hab'.1
  tables a b hab := by
    obtain ⟨hab, hlt⟩ := hab
    obtain ⟨t, t', ht, ht', es, hp, hf⟩ := hc.tables a b hab
    rw [getElem?_append_of_lt hlt] at ht
    refine ⟨t, t', ht, ht', es, hp, ?_⟩
    refine ((List.forall₂_and_left _ _).2 ⟨fun e he ↦ hh.refs a t ht e he, hf⟩).imp ?_
    rintro e e' ⟨hrefs, hee⟩
    exact ⟨hee.1.restrict fun c hc ↦ hrefs c (.inl hc), hee.2.restrict fun c hc ↦ hrefs c (.inr hc)⟩

end Leda.Lua

namespace Leda.Event.Delivery

open Leda.Lib Leda.Lua Leda.Marshal Leda.Kernel

/-! ## The route -/

/-- The payload that `read_event` reads behind a header, if it does not hang up. -/
def readPayload (m : Message) : Option (List UInt8) :=
  let b := header m ++ m.payload
  match readHeader (b.take headerSize) with
  | .event _ len => if NotPositive len then none else some ((b.drop headerSize).take len)
  | _ => none

/-- What is between a sender and a receiver. -/
structure Link where
  /-- The bytes that `TRY_POP` finds behind a socket; `none` for a new connection. -/
  word : Option (BitVec 32)
  /-- What can be read behind the payload where it is sent. -/
  behind : List UInt8
  /-- The memory behind it where it is decoded. -/
  memory : Nat → UInt8

/-- `emmit_remote_sync` and `send_sync_event`, and in the other process `read_event`,
`emmit_packed_event` and `thread_resume_instance`. -/
def remote (S : Sender) (R : Receiver) (K : Link) (dst : BitVec 32) (args : List Value) :
    Xfer (Option Delivered) := do
  let b ← encodeArgs S args
  if (b ++ K.behind).length < tryPopLen K.word b.length then .crash
  else match readPayload (Message.written ⟨dst, b⟩ K.word K.behind) with
  | none => .ok none
  | some b => do
      let (vs, h) ← R.restorePacked K.memory b R.start
      .ok (some { heap := h, stack := .handler :: vs.map .value, args := vs.length })

/-- The heap of the sender with the table of the arguments. -/
def packedHeap (S : Sender) (args : List Value) : Heap :=
  S.heap ++ [.table { entries := arrayEntries args }]

/-- The receiver, with another operator `#`. -/
def Receiver.counting (R : Receiver) (len : List (Value × Value) → Nat) : Receiver :=
  { R with env := { R.env with objlen := len } }

/-! ## What the handler is given -/

/-- The handler is given what was sent, and what it would be given if the stage were local:
as many arguments, and isomorphic ones. -/
structure Agrees (S : Sender) (args : List Value) (r : Delivered) : Prop where
  received : Received S args r
  locally : ∀ (R₀ : Receiver) (r₀ : Delivered), S.depth ≤ R₀.depth →
    direct S R₀ args = .ok r₀ ∨ queued S R₀ args = .ok r₀ → r.args = r₀.args ∧
      ∃ vs₀ vs, r₀.stack = .handler :: vs₀.map .value ∧ r.stack = .handler :: vs.map .value ∧
        List.Forall₂ (fun v₀ v ↦ Iso r₀.heap v₀ r.heap v) vs₀ vs

/-- `n` bytes arrive, at least: they are announced, and what is announced can be sent. -/
structure Link.Carries (K : Link) (n : Nat) : Prop where
  whole : n ≤ tryPopLen K.word n
  readable : tryPopLen K.word n ≤ n + K.behind.length
  positive : ¬ NotPositive (tryPopLen K.word n)

/-- **When an event can be sent to another process** without a difference. -/
structure Packable (S : Sender) (R : Receiver) (K : Link) (args : List Value) : Prop where
  filled : .nil ∉ args
  /-- There are slots for restoring it, and the stack may grow as far as `unpack` asks. -/
  room : 4 ≤ R.room
  stack : args = [] ∨ args.length + 1 ≤ R.maxStack
  /-- The tree of the table fits, in lengths and on the stacks of both sides, and arrives. -/
  tree : ∃ c st', CodeOf S.hooks S.lua52 true (.object S.heap.length)
    { heap := packedHeap S args } c st' ∧ c.Fits ∧ c.height ≤ S.depth ∧ c.height ≤ R.depth ∧
      c.width + 2 ≤ minStack ∧ K.Carries (c.print.length + 1)

section

variable {S : Sender} {R : Receiver} {K : Link} {args vs : List Value} {b : List UInt8}
  {r : Delivered} {h h' : Heap} {s s' : Arrival} {es : List (Value × Value)} {n : Nat}
  {dst : BitVec 32} {len : List (Value × Value) → Nat}

theorem readPayload_eq (hb : b.length < 256 ^ 8) :
    readPayload ⟨dst, b⟩ = if NotPositive b.length then none else some b := by
  have hlen : (header ⟨dst, b⟩).length = headerSize := length_header _
  simp only [readPayload, ← hlen, List.take_left, List.drop_left]
  rw [readHeader_header_of_lt hb]
  simp only [List.take_length]

/-- What arrives of an event. -/
def Link.arrives (K : Link) (b : List UInt8) : List UInt8 :=
  (b ++ K.behind).take (tryPopLen K.word b.length)

theorem length_arrives (hb : tryPopLen K.word b.length ≤ (b ++ K.behind).length) :
    (K.arrives b).length = tryPopLen K.word b.length :=
  List.length_take_of_le hb

/-- What is announced is a `size_t`. -/
theorem tryPopLen_lt (hn : n < 256 ^ 8) : tryPopLen K.word n < 256 ^ 8 := by
  cases hw : K.word with
  | none => exact hn
  | some w =>
      have hlt := w.isLt
      rw [tryPopLen]
      omega

/-- **Enough bytes are those of the event**, and some more. -/
theorem arrives_eq_append (hn : b.length ≤ tryPopLen K.word b.length) :
    ∃ junk, K.arrives b = b ++ junk :=
  ⟨_, by rw [Link.arrives, List.take_append, List.take_of_length_le hn]⟩

/-- Too few are not all of them. -/
theorem arrives_eq_take (hn : tryPopLen K.word b.length < b.length) :
    K.arrives b = b.take (tryPopLen K.word b.length) := by
  rw [Link.arrives, List.take_append_of_le_length (Nat.le_of_lt hn)]

/-! ## Locally -/

theorem copyLoop_eq_ok (hr : copyLoop S R vs h s = .ok s') :
    ∃ es h', Copied S vs h es h' ∧ restoreLoop R es s = .ok s' := by
  induction vs generalizing h s with
  | nil => exact ⟨[], h, .nil, hr⟩
  | cons v vs ih =>
      obtain ⟨⟨h₁, s₁⟩, hv, hr⟩ := Xfer.bind_eq_ok.1 hr
      rw [copyValue_eq] at hv
      obtain ⟨⟨e, h₂⟩, he, hv⟩ := Xfer.bind_eq_ok.1 hv
      obtain ⟨s₂, hs₂, hv⟩ := Xfer.bind_eq_ok.1 hv
      cases hv
      obtain ⟨es, h', hc, hes⟩ := ih hr
      exact ⟨e :: es, h', .cons he hc, by rw [restoreLoop, hs₂, Xfer.ok_bind, hes]⟩

/-- What was stored of plain arguments and restored are copies. -/
theorem received_of_restoreLoop {els : List Element} (hS : WellFormedHeap S.heap)
    (hd : S.depth ≤ R.depth) (hp : ∀ v ∈ args, Plain S.lua52 S.heap v)
    (hc : Copied S args S.heap els h') (hs : s.stack = [.handler])
    (hr : restoreLoop R els s = .ok s') : Received S args ⟨s'.heap, s'.stack, args.length⟩ := by
  have hcar := (copied_plain hS hd hc rfl hp).2
  have hfits := ((restoreLoop_eq_ok_iff els s).1 ⟨s', hr⟩).1
  obtain ⟨s₁, vs, hs₁, hst, hvs, -⟩ := restoreLoop_carries hcar hfits
  obtain rfl := Xfer.ok.inj (hr.symm.trans hs₁)
  exact ⟨rfl, vs, by rw [hst, hs]; rfl, hvs⟩

/-- **Local delivery delivers copies.** -/
theorem received_of_local (hS : WellFormedHeap S.heap) (hd : S.depth ≤ R.depth)
    (hp : ∀ v ∈ args, Plain S.lua52 S.heap v)
    (hr : direct S R args = .ok r ∨ queued S R args = .ok r) : Received S args r := by
  rcases hr with hr | hr
  · by_cases hne : args = []
    · subst hne
      cases hr
      exact ⟨rfl, [], rfl, .nil⟩
    · rw [direct_eq hne] at hr
      obtain ⟨s, hs, hr⟩ := Xfer.bind_eq_ok.1 hr
      cases hr
      obtain ⟨els, h', hc, hrest⟩ := copyLoop_eq_ok hs
      exact received_of_restoreLoop hS hd hp hc (ready_stack _) hrest
  · obtain ⟨els, hels, hr⟩ := Xfer.bind_eq_ok.1 hr
    obtain ⟨s, hs, hr⟩ := Xfer.bind_eq_ok.1 hr
    cases hr
    obtain ⟨h', hc⟩ := copyArgs_eq_ok_iff.1 hels
    have hlen := (copied_plain hS hd hc rfl hp).2.length_eq
    rw [← hlen]
    exact received_of_restoreLoop hS hd hp hc rfl hs

/-- Two deliveries of the same arguments agree. -/
theorem agrees_of_received (hS : WellFormedHeap S.heap) (hp : ∀ v ∈ args, Plain S.lua52 S.heap v)
    (hr : Received S args r) : Agrees S args r where
  received := hr
  locally R₀ r₀ hd hr₀ := by
    obtain ⟨hn₀, vs₀, hst₀, hvs₀⟩ := received_of_local hS hd hp hr₀
    obtain ⟨hn, vs, hst, hvs⟩ := hr
    refine ⟨hn.trans hn₀.symm, vs₀, vs, hst₀, hst, ?_⟩
    refine List.forall₂_iff_get.2 ⟨hvs₀.length_eq.symm.trans hvs.length_eq, fun i hi hi' ↦ ?_⟩
    have hia : i < args.length := by rwa [hvs.length_eq]
    exact (hvs₀.get hia hi).symm.trans (hvs.get hia hi')

/-! ## The table of the arguments -/

theorem getElem?_packedHeap : (packedHeap S args)[S.heap.length]? =
    some (.table { entries := arrayEntries args }) := by
  simp [packedHeap]

theorem lt_of_plain {v : Value} {a : Nat} (hp : Plain S.lua52 S.heap v) (hv : v = .object a) :
    a < S.heap.length := by
  obtain ⟨t, ht, -⟩ := hp a hv a .refl
  exact (List.getElem?_eq_some_iff.1 ht).1

theorem wellFormedHeap_packedHeap (hS : WellFormedHeap S.heap)
    (hp : ∀ v ∈ args, Plain S.lua52 S.heap v) (hl : args.length < 2 ^ 53 - 1) :
    WellFormedHeap (packedHeap S args) := by
  -- an object is an old one, or the table of the arguments
  have hcases : ∀ {a : Nat} {o : Object}, (packedHeap S args)[a]? = some o →
      S.heap[a]? = some o ∨ o = .table { entries := arrayEntries args } := fun {a o} ho ↦ by
    rcases Nat.lt_trichotomy a S.heap.length with hlt | rfl | hgt
    · exact .inl (by rwa [packedHeap, getElem?_append_of_lt hlt] at ho)
    · rw [getElem?_packedHeap] at ho
      exact .inr (Option.some.inj ho).symm
    · rw [packedHeap, List.getElem?_eq_none (by simp; omega)] at ho
      cases ho
  have hle : S.heap.length < (packedHeap S args).length := by simp [packedHeap]
  constructor
  · intro a t ht
    rcases hcases ht with ht | ht
    · exact hS.tables a t ht
    · cases ht
      exact wellFormed_arrayEntries hl
  · intro a t ht e he c hc
    rcases hcases ht with ht | ht
    · exact (hS.refs a t ht e he c hc).trans hle
    · cases ht
      obtain ⟨i, v, hi, -, rfl⟩ := mem_arrayEntries_iff.1 he
      rcases hc with hc | hc
      · dsimp only at hc
        rw [ofNat_eq] at hc
        cases hc
      · exact (lt_of_plain (hp v (List.mem_of_getElem? hi)) hc).trans hle
  · intro a f hf
    rcases hcases hf with hf | hf
    · exact hS.functions a f hf
    · cases hf
  · intro a f hf u hu c hc
    rcases hcases hf with hf | hf
    · exact (hS.upvalues a f hf u hu c hc).trans hle
    · cases hf

/-- Scalars and tables in a table. -/
theorem plain_packedHeap (hS : WellFormedHeap S.heap) (hp : ∀ v ∈ args, Plain S.lua52 S.heap v) :
    Plain S.lua52 (packedHeap S args) (.object S.heap.length) := by
  intro r hr b hb
  cases hr
  -- what is below the table is the table, or is below an argument
  have hbelow : b = S.heap.length ∨ b < S.heap.length ∧
      ∃ v ∈ args, ∃ a, v = .object a ∧ Relation.ReflTransGen (Inside S.lua52 S.heap) a b := by
    induction hb with
    | refl => exact .inl rfl
    | @tail b c _ hbc ih =>
        obtain ⟨-, hin⟩ := hbc
        right
        rcases ih with rfl | ⟨hlt, v, hv, a, rfl, hab⟩
        · rw [getElem?_packedHeap] at hin
          obtain ⟨-, e, he, hc⟩ := hin
          obtain ⟨i, v, hi, -, rfl⟩ := mem_arrayEntries_iff.1 he
          rcases hc with hc | hc
          · dsimp only at hc
            rw [ofNat_eq] at hc
            cases hc
          · have hv := List.mem_of_getElem? hi
            exact ⟨lt_of_plain (hp v hv) hc, v, hv, c, hc, .refl⟩
        · obtain ⟨t, ht, hn⟩ := hp _ hv a rfl b hab
          rw [packedHeap, getElem?_append_of_lt hlt, ht] at hin
          obtain ⟨-, e, he, hc⟩ := hin
          have hstep : Inside S.lua52 S.heap b c := hS.inside_entry ht hn he hc
          exact ⟨hS.refs b t ht e he c hc, _, hv, a, rfl, hab.tail hstep⟩
  rcases hbelow with rfl | ⟨hlt, v, hv, a, rfl, hab⟩
  · exact ⟨_, getElem?_packedHeap, rfl⟩
  · obtain ⟨t, ht, hn⟩ := hp _ hv a rfl b hab
    exact ⟨t, by rwa [packedHeap, getElem?_append_of_lt hlt], hn⟩

theorem encodeArgs_eq_ok_iff : encodeArgs S args = .ok b ↔
    ∃ c st', CodeOf S.hooks S.lua52 true (.object S.heap.length)
      { heap := packedHeap S args } c st' ∧ c.Fits ∧ c.height ≤ S.depth ∧ b = 0x8e :: c.print := by
  constructor
  · intro hb
    obtain ⟨⟨b', h'⟩, he, hb⟩ := Xfer.bind_eq_ok.1 hb
    cases hb
    obtain ⟨c, st', hc, hf, hd, rfl, -⟩ := marEncode_eq_ok_iff.1 he
    exact ⟨c, st', hc, hf, hd, rfl⟩
  · rintro ⟨c, st', hc, hf, hd, rfl⟩
    have he := marEncode_eq_ok_iff.2 ⟨c, st', hc, hf, hd, rfl, rfl⟩
    exact Xfer.bind_eq_ok.2 ⟨_, he, rfl⟩

/-- **The receiver makes a copy of the table**, with the pairs in the same order. -/
theorem eval_packed {c : Code} {st : Enc} (hS : WellFormedHeap S.heap)
    (hp : ∀ v ∈ args, Plain S.lua52 S.heap v) (hl : args.length < 2 ^ 53 - 1)
    (hc : CodeOf S.hooks S.lua52 true (.object S.heap.length) { heap := packedHeap S args } c st)
    (hf : c.Fits) :
    ∃ (a : Nat) (t : Table) (d : Dec) (ρ : Nat → Nat → Prop),
      c.eval R.env { heap := R.heap } = .ok (.object a, d) ∧ d.heap[a]? = some (.table t) ∧
      List.Forall₂ (RelPair ρ) (arrayEntries args) t.entries ∧
      ∀ v ∈ args, ∀ v', RelValue ρ v v' → Iso S.heap v d.heap v' := by
  have hh := wellFormedHeap_packedHeap hS hp hl
  have hplain := plain_packedHeap hS hp
  obtain ⟨v', d', he, hbuilt, hrel⟩ := hc.sim (L := R.env) hh (copyable_of_plain hplain)
    (.start _ R.heap) (hc.idx_lt hf rfl)
  obtain ⟨a, rfl, hcopy⟩ := hrel
  have hcomplete := (hbuilt.done _ _ hcopy rfl).2
  unfold Marshal.Complete at hcomplete
  rw [getElem?_packedHeap] at hcomplete
  obtain ⟨t, ht, hes⟩ := hcomplete
  refine ⟨a, t, d', _, he, ht, hes, fun v hv v' hvv' ↦ ?_⟩
  by_cases hobj : ∃ x, v = .object x
  · obtain ⟨x, rfl⟩ := hobj
    have hiso := (hbuilt.isCopy hh hplain).of_append hS
    refine ⟨_, hiso, ?_⟩
    obtain ⟨y, rfl, hxy⟩ := hvv'
    refine ⟨y, rfl, ⟨hxy, _, rfl, .single ?_⟩, lt_of_plain (hp _ hv) rfl⟩
    obtain ⟨k, hk⟩ := mem_arrayEntries hv (by simp)
    exact hh.inside_entry getElem?_packedHeap rfl hk (.inr rfl)
  · have hscalar : ∀ x, v ≠ .object x := fun x hx ↦ hobj ⟨x, hx⟩
    obtain rfl : v' = v := by
      cases v with
      | object x => exact absurd rfl (hscalar x)
      | nil | boolean | lightuserdata | number | string => exact hvv'
    exact iso_scalar hscalar _ _

/-! ## Unpacking it -/

theorem getn_of_lt (hn : n < 2 ^ 31) : getn n = n := by
  unfold getn
  rw [BitVec.toInt_eq_toNat_of_lt]
  · rw [BitVec.toNat_ofNat, Nat.mod_eq_of_lt (by omega)]
  · rw [BitVec.toNat_ofNat, Nat.mod_eq_of_lt (by omega)]
    omega

/-- As many elements as `#` counts, if the stack may grow so far. -/
theorem elements_eq_ok_iff (hn : R.env.objlen es = n) (hlt : n < 2 ^ 31) :
    R.elements es = .ok vs ↔ (n = 0 ∨ n + 1 ≤ R.maxStack) ∧
      vs = (List.range n).map fun i ↦ rawget es (.ofNat (i + 1)) := by
  unfold Receiver.elements
  rw [hn, getn_of_lt hlt]
  dsimp only
  by_cases h0 : n = 0
  · subst h0
    simp [eq_comm]
  · rw [if_neg (by omega)]
    by_cases hmax : n + 1 ≤ R.maxStack
    · rw [if_neg (by omega)]
      simp [hmax, eq_comm]
    · rw [if_pos (by omega)]
      simp [h0, hmax]

/-- There is no more in it than an `int` says. -/
theorem length_elements (hr : R.elements es = .ok vs) : vs.length < 2 ^ 31 := by
  unfold Receiver.elements at hr
  dsimp only at hr
  split at hr
  · cases hr
    simp
  · split at hr
    · cases hr
    · cases hr
      have hlt : getn (R.env.objlen es) < 2 ^ 31 := BitVec.toInt_lt
      simp only [List.length_map, List.length_range]
      omega

theorem unpack_table {a : Nat} {t : Table} (ht : h[a]? = some (.table t)) :
    R.unpack (.object a) h = R.elements t.entries := by
  simp [Receiver.unpack, ht]

/-- The steps of the remote route. -/
theorem remote_eq_ok_iff : remote S R K dst args = .ok (some r) ↔
    ∃ b v h vs, encodeArgs S args = .ok b ∧
      tryPopLen K.word b.length ≤ b.length + K.behind.length ∧
      ¬ NotPositive (tryPopLen K.word b.length) ∧ 4 ≤ R.room ∧
      (Memory.marDecode (Memory.holding (K.arrives b) K.memory) (K.arrives b).length R.env minStack
        R.depth R.heap).val = .ok (v, h) ∧ R.unpack v h = .ok vs ∧
      r = { heap := h, stack := .handler :: vs.map .value, args := vs.length } := by
  have hsize : ∀ {b}, encodeArgs S args = .ok b → b.length < 256 ^ 8 := fun {b} hb ↦ by
    obtain ⟨c, st, -, hf, -, rfl⟩ := encodeArgs_eq_ok_iff.1 hb
    have hlt := hf.length_lt
    simp only [List.length_cons]
    omega
  -- what is read is what arrives
  have hread : ∀ {b}, encodeArgs S args = .ok b →
      tryPopLen K.word b.length ≤ b.length + K.behind.length →
        readPayload (Message.written ⟨dst, b⟩ K.word K.behind) =
          if NotPositive (tryPopLen K.word b.length) then none else some (K.arrives b) := by
    intro b hb hle
    have hlen : (K.arrives b).length = tryPopLen K.word b.length :=
      length_arrives (by rwa [List.length_append])
    have hlt : (K.arrives b).length < 256 ^ 8 := by
      rw [hlen]
      exact tryPopLen_lt (hsize hb)
    rw [← hlen]
    exact readPayload_eq hlt
  constructor
  · intro hr
    obtain ⟨b, hb, hr⟩ := Xfer.bind_eq_ok.1 hr
    split at hr
    · cases hr
    · rename_i hle
      rw [List.length_append, Nat.not_lt] at hle
      rw [hread hb hle] at hr
      by_cases hpos : NotPositive (tryPopLen K.word b.length)
      · rw [if_pos hpos] at hr
        cases hr
      · rw [if_neg hpos] at hr
        obtain ⟨⟨vs, h⟩, hrest, hr⟩ := Xfer.bind_eq_ok.1 hr
        cases hr
        unfold Receiver.restorePacked at hrest
        split at hrest
        · cases hrest
        · rename_i hroom
          obtain ⟨⟨v, h'⟩, hdec, hrest⟩ := Xfer.bind_eq_ok.1 hrest
          obtain ⟨vs', hvs, hrest⟩ := Xfer.bind_eq_ok.1 hrest
          cases hrest
          exact ⟨b, v, h, vs, hb, hle, hpos, Nat.not_lt.1 hroom, hdec, hvs, rfl⟩
  · rintro ⟨b, v, h, vs, hb, hle, hpos, hroom, hdec, hvs, rfl⟩
    have hslots : ¬ R.start.room < R.start.stack.length + 3 := Nat.not_lt.2 hroom
    have hrest : R.restorePacked K.memory (K.arrives b) R.start = .ok (vs, h) := by
      rw [Receiver.restorePacked, if_neg hslots]
      exact Xfer.bind_eq_ok.2 ⟨_, hdec, Xfer.bind_eq_ok.2 ⟨_, hvs, rfl⟩⟩
    have hle' : ¬ (b ++ K.behind).length < tryPopLen K.word b.length := by
      rwa [List.length_append, Nat.not_lt]
    rw [remote, hb, Xfer.ok_bind, if_neg hle', hread hb hle, if_neg hpos]
    exact Xfer.bind_eq_ok.2 ⟨_, hrest, rfl⟩

/-- **The table is decoded where it arrives** if and only if all of it does, and if there is
room for it. -/
theorem marDecode_arrives_iff {c : Code} {v : Value} {d : Dec} {x : Value × Heap} (hf : c.Fits)
    (hi : c.Inert) (he : c.eval R.env { heap := R.heap } = .ok (v, d)) :
    (Memory.marDecode (Memory.holding (K.arrives (0x8e :: c.print)) K.memory)
        (K.arrives (0x8e :: c.print)).length R.env minStack R.depth R.heap).val = .ok x ↔
      c.print.length + 1 ≤ tryPopLen K.word (c.print.length + 1) ∧ c.width + 2 ≤ minStack ∧
        c.height ≤ R.depth ∧ x = (v, d.heap) := by
  have hm := Memory.bytes_holding (K.arrives (0x8e :: c.print)) K.memory
  by_cases hlen : c.print.length + 1 ≤ tryPopLen K.word (c.print.length + 1)
  · obtain ⟨junk, hb⟩ := arrives_eq_append (K := K) (b := 0x8e :: c.print) hlen
    rw [hb, List.cons_append] at hm ⊢
    rw [Memory.marDecode_inert_iff hm hf hi he, marDecode_print_iff hf]
    constructor
    · rintro ⟨hw, hd, seen, he'⟩
      cases he.symm.trans he'
      exact ⟨hlen, hw, hd, rfl⟩
    · rintro ⟨-, hw, hd, rfl⟩
      exact ⟨hw, hd, d.seen, he⟩
  · refine ⟨fun hx ↦ absurd hx ?_, fun hx ↦ absurd hx.1 hlen⟩
    have hlt : tryPopLen K.word (0x8e :: c.print).length < (0x8e :: c.print).length :=
      Nat.not_le.1 hlen
    rw [Memory.marDecode_eq_ok_iff hm, arrives_eq_take hlt]
    rintro ⟨-, c', junk, s, hb, hf', -⟩
    -- what is cut off would be behind a tree
    have hcut := List.take_append_drop (tryPopLen K.word (0x8e :: c.print).length)
      (0x8e :: c.print)
    rw [hb] at hcut
    have hprint : c.print ++ [] = c'.print ++
        (junk ++ (0x8e :: c.print).drop (tryPopLen K.word (0x8e :: c.print).length)) := by
      rw [List.append_nil, ← List.append_assoc]
      exact (List.cons.inj hcut).2.symm
    have hnil := (List.append_eq_nil_iff.1 (c.print_append_inj c' _ _ hf hf' hprint).2.symm).2
    rw [List.drop_eq_nil_iff] at hnil
    omega

/-- A table takes two bytes for a pair, at least. -/
theorem length_entries_le {hooks : Hooks} {lua52 nowrap : Bool} {st st' : Enc} {cs : Codes}
    (hc : CodesOf hooks lua52 nowrap es st cs st') : 2 * es.length ≤ cs.print.length := by
  induction es generalizing st cs with
  | nil => simp
  | cons e es ih =>
      cases hc with
      | @cons _ _ _ k v _ _ _ _ _ hk hv hrest =>
          have hkpos := List.length_pos_iff.2 k.print_ne_nil
          have hvpos := List.length_pos_iff.2 v.print_ne_nil
          have hle := ih hrest
          simp only [Codes.print, List.length_append, List.length_cons]
          omega

/-- Arguments none of which is `nil`: each makes a pair. -/
theorem length_arrayEntries_eq (hn : .nil ∉ vs) : (arrayEntries vs).length = vs.length := by
  unfold arrayEntries
  rw [List.length_filterMap_eq_countP]
  have hall : ∀ e ∈ vs.zipIdx 1, (if e.1 = Value.nil then (none : Option (Value × Value))
      else some (.ofNat e.2, e.1)).isSome = true := fun e he ↦ by
    have hv : e.1 ∈ vs := List.fst_mem_of_mem_zipIdx he
    have hne : e.1 ≠ .nil := fun h0 ↦ hn (by rwa [h0] at hv)
    rw [if_neg hne]
    rfl
  rw [List.countP_eq_length.2 hall, List.length_zipIdx]

theorem length_unpack {v : Value} (hr : R.unpack v h = .ok vs) : vs.length < 2 ^ 31 := by
  unfold Receiver.unpack at hr
  split at hr
  · split at hr
    · exact length_elements hr
    · cases hr
  · cases hr

/-- The tree of a table is one. -/
theorem exists_codesOf {hooks : Hooks} {lua52 nowrap : Bool} {a : Nat} {t : Table} {st st' : Enc}
    {c : Code} (ht : st.heap[a]? = some (.table t)) (hn : t.persist = none)
    (hl : st.seen.lookup a = none) (hc : CodeOf hooks lua52 nowrap (.object a) st c st') :
    ∃ cs, c = .table cs ∧ CodesOf hooks lua52 nowrap t.entries (st.record a) cs st' := by
  cases hc with
  | dangling ho =>
      rw [ht] at ho
      cases ho
  | ref ho hk hl' =>
      rw [hl] at hl'
      cases hl'
  | table ho hs hp hes =>
      rw [ht] at ho
      cases ho
      exact ⟨_, rfl, hes⟩
  | function ho =>
      rw [ht] at ho
      cases ho
  | persist ho hs hp =>
      rw [ht] at ho
      cases ho
      rw [hn] at hp
      cases hp
  | wrap ho =>
      rw [ht] at ho
      cases ho

/-- The only border of a list without `nil` is its length. -/
theorem border_arrayEntries_eq (hl : args.length < 2 ^ 31) (hn : n < 2 ^ 31)
    (hnil : .nil ∉ args) (hb : Border (arrayEntries args) n) : n = args.length := by
  obtain ⟨hprev, hnext⟩ := (border_arrayEntries (by omega) (by omega)).1 hb
  have hget : ∀ i, (args[i]?).getD .nil = .nil ↔ args.length ≤ i := fun i ↦ by
    cases hi : args[i]? with
    | none => simpa using List.getElem?_eq_none_iff.1 hi
    | some v =>
        have hv : v ≠ .nil := fun h0 ↦ hnil (h0 ▸ List.mem_of_getElem? hi)
        have hlt := (List.getElem?_eq_some_iff.1 hi).1
        simp only [Option.getD_some, hv, false_iff]
        omega
  have hle := (hget n).1 hnext
  by_cases h0 : n = 0
  · omega
  · have hlt := mt (hget (n - 1)).2 (hprev h0)
    omega

/-! ## When the routes agree -/

/-- A list is unpacked from the copy of its table, if `#` finds its length. -/
theorem received_of_unpacked {t : Table} {ρ : Nat → Nat → Prop}
    (hl : args.length < 2 ^ 31) (hes : List.Forall₂ (RelPair ρ) (arrayEntries args) t.entries)
    (hiso : ∀ v ∈ args, ∀ v', RelValue ρ v v' → Iso S.heap v h v')
    (hvs : vs = (List.range args.length).map fun i ↦ rawget t.entries (.ofNat (i + 1))) :
    Received S args { heap := h, stack := .handler :: vs.map .value, args := vs.length } := by
  have hlen : vs.length = args.length := by simp [hvs]
  refine ⟨hlen, vs, rfl, List.forall₂_iff_get.2 ⟨hlen.symm, fun i hi hi' ↦ ?_⟩⟩
  refine hiso _ (List.get_mem _ _) _ ?_
  have hrel := rawget_rel_ofNat hes (i + 1)
  rw [rawget_arrayEntries (by omega) (by omega), List.getElem?_eq_getElem hi] at hrel
  simpa [hvs] using hrel

end

/-- A new connection. -/
def Link.fresh : Link := ⟨none, [], fun _ ↦ 0⟩

end Leda.Event.Delivery
