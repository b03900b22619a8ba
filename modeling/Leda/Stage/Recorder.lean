import Leda.Event.FileIo
import Leda.Event.Remote
import Leda.Lib.Decimal

/-!
# Recording and replaying events

An event recorder passes events on and writes each of them to a file: the arguments and the
time, in a table, encoded, behind the length of the encoding in decimal.  An event replayer
reads a number, as many bytes as it says, decodes these and sends what it unpacks, until there
is no number any more.

There is nothing between the number and the bytes.  The number ends where they start only
because they start with `MAR_MAGIC`, which belongs to no number in any base.  The number of
arguments is not written down: as for an event that goes to another process, `unpack` takes
for it what `#` says.

So **a recording is replayed**, event by event as far as these can be sent, exactly if it is
not empty and no event in it has a `nil` among its arguments or more of them than `unpack` may
push (`replays_iff`).  The recorder writes with `awrite`: a file that no one else uses holds
what was recorded if the operating system has written each record as a whole
(`replays_file_iff`).
-/

namespace Leda.Stage.Recorder

open Leda.Lib Leda.Lua Leda.Marshal Leda.Event Leda.Event.Delivery

/-! ## Recording -/

/-- An event that a recorder is given: the Lua state of its handler, what `relative_time` is,
and the arguments. -/
structure Recorded where
  S : Sender
  time : BitVec 64
  args : List Value

def timestamp : Value := .string (ascii "timestamp")

/-- `{timestamp=relative_time,...}` -/
def Recorded.entries (e : Recorded) : List (Value × Value) :=
  arrayEntries e.args ++ [(timestamp, .number e.time)]

/-- The heap of the recorder with this table. -/
def Recorded.heap (e : Recorded) : Heap := e.S.heap ++ [.table { entries := e.entries }]

/-- `leda.encode({timestamp=relative_time,...})` -/
def Recorded.event (e : Recorded) : Xfer (List UInt8) := do
  let (b, _) ← marEncode e.S.hooks e.S.lua52 false e.S.depth (.object e.S.heap.length) e.heap
  .ok b

/-- `#event..event`: what is written. -/
def Recorded.record (e : Recorded) : Xfer (List UInt8) := do
  let event ← e.event
  .ok (decimal event.length ++ event)

/-- What a recorder may be given: scalars and tables without hooks. -/
structure Recorded.Given (e : Recorded) : Prop where
  heap : WellFormedHeap e.S.heap
  plain : ∀ v ∈ e.args, Plain e.S.lua52 e.S.heap v
  /-- They are on a stack, whose size is an `int`. -/
  count : e.args.length < 2 ^ 31

/-! ## Replaying -/

/-- A replayer and what it depends on. -/
structure Replayer where
  R : Receiver
  /-- `fscanf` with `"%lf"`, as it is called for `file:read("*number")`: the number, as the size
  that `file:read` takes it for, and what is left of the file. -/
  scan : List UInt8 → Option (Nat × List UInt8)
  /-- What `leda.send` returns beside `nil` when it is called for the `n`-th time, if it does
  not return `true`. -/
  refusal : Nat → Option String
  /-- `lua_isnumber`, of a string. -/
  numeric : List UInt8 → Bool

/-- A replay under way: what is left of the file, the Lua state, and the arguments of the calls
of `leda.send`, each with the heap at that time. -/
structure Replay where
  file : List UInt8
  heap : Heap
  sent : List (List Value × Heap)

/-- What is known of `fscanf` for numerals and the bytes beyond ASCII, which are part of no
number. -/
structure Scans (scan : List UInt8 → Option (Nat × List UInt8)) : Prop where
  atEnd : scan [] = none
  numeral : ∀ n < 10 ^ 14, ∀ b : UInt8, 128 ≤ b.toNat → ∀ rest,
    scan (decimal n ++ b :: rest) = some (n, b :: rest)

/-- `dec.timestamp` -/
def timestampOf (dec : Value) (h : Heap) : Value :=
  match dec with
  | .object a =>
      match h[a]? with
      | some (.table t) => rawget t.entries timestamp
      | _ => .nil
  | _ => .nil

namespace Replayer

variable (P : Replayer)

/-- A value that an operand of `+` may be. -/
def isNumber : Value → Bool
  | .number _ => true
  | .string s => P.numeric s
  | _ => false

/-- From `input:read(event_size)` to `unpack(dec)`: the table, its elements, and how far the
replay is. -/
def load (size : Nat) (r : Replay) : Xfer (Value × List Value × Replay) :=
  if r.file = [] then .raised "assertion failed!"
  else do
    let (dec, heap) ← marDecode P.R.env P.R.depth (r.file.take size) r.heap
    if dec = .nil ∨ dec = .boolean false then .raised "assertion failed!"
    else do
      let vs ← P.R.unpack dec heap
      .ok (dec, vs, { r with file := r.file.drop size, heap })

/-- The loop of the handler, at most `n` times; the first argument but one is what the last
`input:read("*number")` returned. -/
def loop : Nat → Option (Nat × List UInt8) → Replay → Option (Replay × Xfer Unit)
  | 0, _, _ => none
  | _ + 1, none, r => some (r, .ok ())
  | n + 1, some (size, file), r =>
      match P.load size { r with file } with
      | .raised msg => some (r, .raised msg)
      | .crash => some (r, .crash)
      | .ok (dec, vs, r') =>
          let r' := { r' with sent := r'.sent ++ [(vs, r'.heap)] }
          match P.refusal r.sent.length with
          | some msg => some (r', .raised msg)
          | none =>
              let time := timestampOf dec r'.heap
              if P.isNumber time then loop n (P.scan r'.file) r'
              else
                let type := typeName r'.heap time
                some (r', .raised
                  s!"attempt to perform arithmetic on field 'timestamp' (a {type} value)")

/-- The handler of the replayer, for a file. -/
def handler (n : Nat) (file : List UInt8) : Option (Replay × Xfer Unit) :=
  match P.scan file with
  | none => some (⟨file, P.R.heap, []⟩, .raised "assertion failed!")
  | some s => P.loop n (some s) ⟨file, P.R.heap, []⟩

/-- The replayer with another operator `#`, and another fate of the events. -/
def facing (len : List (Value × Value) → Nat) (refusal : Nat → Option String) : Replayer :=
  { P with R := P.R.counting len, refusal }

end Replayer

/-! ## What is sent -/

/-- What was sent are copies of the arguments of an event. -/
def Recorded.Sent (e : Recorded) (s : List Value × Heap) : Prop :=
  List.Forall₂ (fun v v' ↦ Iso e.S.heap v s.2 v') e.args s.1

/-- **Events are replayed** one after the other, from the `n`-th one on, until all are sent or
one of them cannot be sent. -/
inductive Replays (refusal : Nat → Option String) :
    Nat → List Recorded → List (List Value × Heap) → Xfer Unit → Prop
  | nil {n : Nat} : Replays refusal n [] [] (.ok ())
  | refused {n : Nat} {e : Recorded} {es : List Recorded} {s : List Value × Heap} {msg : String}
      (h : refusal n = some msg) (hs : e.Sent s) : Replays refusal n (e :: es) [s] (.raised msg)
  | cons {n : Nat} {e : Recorded} {es : List Recorded} {s : List Value × Heap}
      {ss : List (List Value × Heap)} {x : Xfer Unit} (h : refusal n = none) (hs : e.Sent s)
      (hes : Replays refusal (n + 1) es ss x) : Replays refusal n (e :: es) (s :: ss) x

/-- **An event that can be replayed.** -/
structure Replayer.Sends (P : Replayer) (e : Recorded) : Prop where
  filled : .nil ∉ e.args
  stack : e.args = [] ∨ e.args.length + 1 ≤ P.R.maxStack

section

variable {e : Recorded} {b : List UInt8} {h : Heap} {lua52 : Bool} {es : List (Value × Value)}

/-! ## The table of an event -/

theorem rawEq_ofNat_string (n : Nat) (s : List UInt8) : rawEq (.ofNat n) (.string s) = false := by
  rw [ofNat_eq]
  rfl

theorem rawEq_string_ofNat (n : Nat) (s : List UInt8) : rawEq (.string s) (.ofNat n) = false := by
  rw [ofNat_eq]
  rfl

theorem wellFormed_entries (hl : e.args.length < 2 ^ 31) : WellFormed e.entries := by
  have hw : WellFormed (arrayEntries e.args) := wellFormed_arrayEntries (by omega)
  constructor
  · intro p hp
    rcases List.mem_append.1 hp with hp | hp
    · exact hw.keys p hp
    · obtain rfl := List.mem_singleton.1 hp
      rfl
  · intro p hp
    rcases List.mem_append.1 hp with hp | hp
    · exact hw.values p hp
    · obtain rfl := List.mem_singleton.1 hp
      simp
  · refine List.pairwise_append.2 ⟨hw.distinct, List.pairwise_singleton _ _, fun p hp q hq ↦ ?_⟩
    obtain rfl := List.mem_singleton.1 hq
    obtain ⟨i, v, -, -, rfl⟩ := mem_arrayEntries_iff.1 hp
    exact rawEq_ofNat_string _ _

/-- The elements of the table are the arguments. -/
theorem rawget_entries (n : Nat) :
    rawget e.entries (.ofNat n) = rawget (arrayEntries e.args) (.ofNat n) := by
  have hlast : rawEq timestamp (.ofNat n) = false := rawEq_string_ofNat n _
  rw [Recorded.entries, rawget, rawget, List.find?_append]
  cases hf : (arrayEntries e.args).find? fun p ↦ rawEq p.1 (.ofNat n) with
  | some p => rfl
  | none => simp [hlast]

theorem rawget_timestamp (hl : e.args.length < 2 ^ 31) :
    rawget e.entries timestamp = .number e.time :=
  rawget_of_mem (wellFormed_entries hl) (List.mem_append_right _ (List.mem_singleton.2 rfl))

theorem border_entries {n : Nat} : Border e.entries n ↔ Border (arrayEntries e.args) n := by
  rw [Border, Border, rawget_entries, rawget_entries]

/-! ## A table that was just made -/

/-- An object is an old one, or the table. -/
theorem getElem?_alloc {a : Nat} {o : Object}
    (ho : (h ++ [Object.table { entries := es }])[a]? = some o) :
    a < h.length ∧ h[a]? = some o ∨ a = h.length ∧ o = .table { entries := es } := by
  rcases Nat.lt_trichotomy a h.length with hlt | rfl | hgt
  · exact .inl ⟨hlt, by rwa [getElem?_append_of_lt hlt] at ho⟩
  · rw [List.getElem?_concat_length] at ho
    exact .inr ⟨rfl, (Option.some.inj ho).symm⟩
  · rw [List.getElem?_eq_none (by simp; omega)] at ho
    cases ho

/-- A heap with one more table. -/
theorem wellFormedHeap_alloc (hh : WellFormedHeap h) (hw : WellFormed es)
    (hr : ∀ p ∈ es, ∀ c, p.1 = .object c ∨ p.2 = .object c → c < h.length) :
    WellFormedHeap (h ++ [.table { entries := es }]) := by
  have hle : h.length < (h ++ [Object.table { entries := es }]).length := by simp
  constructor
  · intro a t ht
    rcases getElem?_alloc ht with ⟨-, ht⟩ | ⟨-, ht⟩
    · exact hh.tables a t ht
    · cases ht
      exact hw
  · intro a t ht p hp c hc
    rcases getElem?_alloc ht with ⟨-, ht⟩ | ⟨-, ht⟩
    · exact (hh.refs a t ht p hp c hc).trans hle
    · cases ht
      exact (hr p hp c hc).trans hle
  · intro a f hf
    rcases getElem?_alloc hf with ⟨-, hf⟩ | ⟨-, hf⟩
    · exact hh.functions a f hf
    · cases hf
  · intro a f hf u hu c hc
    rcases getElem?_alloc hf with ⟨-, hf⟩ | ⟨-, hf⟩
    · exact (hh.upvalues a f hf u hu c hc).trans hle
    · cases hf

/-- A plain value, if it is a table, is on the heap. -/
theorem lt_length_of_plain {v : Value} {a : Nat} (hp : Plain lua52 h v) (hv : v = .object a) :
    a < h.length := by
  obtain ⟨t, ht, -⟩ := hp a hv a .refl
  exact (List.getElem?_eq_some_iff.1 ht).1

/-- A table of plain keys and values is plain. -/
theorem plain_alloc (hh : WellFormedHeap h)
    (hp : ∀ p ∈ es, Plain lua52 h p.1 ∧ Plain lua52 h p.2) :
    Plain lua52 (h ++ [.table { entries := es }]) (.object h.length) := by
  intro r hr b hb
  cases hr
  -- what is below the table is the table, or is below something in it
  have hbelow : b = h.length ∨ b < h.length ∧ ∃ v, Plain lua52 h v ∧ Below lua52 h v b := by
    induction hb with
    | refl => exact .inl rfl
    | @tail b c _ hbc ih =>
        obtain ⟨-, hin⟩ := hbc
        right
        rcases ih with rfl | ⟨hlt, v, hv, a, rfl, hab⟩
        · rw [List.getElem?_concat_length] at hin
          obtain ⟨-, p, hpe, hc⟩ := hin
          obtain ⟨hkey, hval⟩ := hp p hpe
          rcases hc with hc | hc
          · exact ⟨lt_length_of_plain hkey hc, _, hkey, c, hc, .refl⟩
          · exact ⟨lt_length_of_plain hval hc, _, hval, c, hc, .refl⟩
        · obtain ⟨t, ht, hn⟩ := hv a rfl b hab
          rw [getElem?_append_of_lt hlt, ht] at hin
          obtain ⟨-, p, hpe, hc⟩ := hin
          exact ⟨hh.refs b t ht p hpe c hc, _, hv, a, rfl, hab.tail (hh.inside_entry ht hn hpe hc)⟩
  rcases hbelow with rfl | ⟨hlt, v, hv, a, rfl, hab⟩
  · exact ⟨_, List.getElem?_concat_length, rfl⟩
  · obtain ⟨t, ht, hn⟩ := hv a rfl b hab
    exact ⟨t, by rwa [getElem?_append_of_lt hlt], hn⟩

/-- Scalars are plain. -/
theorem plain_scalar {v : Value} (hv : ∀ a, v ≠ .object a) : Plain lua52 h v :=
  fun a ha ↦ absurd ha (hv a)

/-- **A table that was just made is copied**, with the pairs in the same order, and its values are
copied. -/
theorem marDecode_alloc {hooks : Hooks} {nowrap : Bool} {depth depth' : Nat} {h₁ : Heap}
    {L : Marshal.Lua} (h' : Heap) (hh : WellFormedHeap h) (hw : WellFormed es)
    (hp : ∀ p ∈ es, Plain lua52 h p.1 ∧ Plain lua52 h p.2) (hd : depth ≤ depth')
    (he : marEncode hooks lua52 nowrap depth (.object h.length)
      (h ++ [.table { entries := es }]) = .ok (b, h₁)) :
    ∃ (a : Nat) (t : Table) (h'' : Heap) (ρ : Nat → Nat → Prop),
      marDecode L depth' b h' = .ok (.object a, h'') ∧ h''[a]? = some (.table t) ∧
      List.Forall₂ (RelPair ρ) es t.entries ∧
      ∀ p ∈ es, ∀ v, RelValue ρ p.2 v → Iso h p.2 h'' v := by
  have hr : ∀ p ∈ es, ∀ c, p.1 = .object c ∨ p.2 = .object c → c < h.length := fun p hpe c hc ↦
    hc.elim (lt_length_of_plain (hp p hpe).1) (lt_length_of_plain (hp p hpe).2)
  have hwf := wellFormedHeap_alloc hh hw hr
  have hplain := plain_alloc hh hp
  obtain ⟨-, v', st', d', hdec, hbuilt, a, rfl, hcopy⟩ :=
    marDecode_built (L := L) h' hwf (copyable_of_plain hplain) hd he
  have hcomplete := (hbuilt.done _ _ hcopy rfl).2
  unfold Marshal.Complete at hcomplete
  rw [List.getElem?_concat_length] at hcomplete
  obtain ⟨t, ht, hes⟩ := hcomplete
  refine ⟨a, t, d'.heap, _, hdec, ht, hes, fun p hpe v hv ↦ ?_⟩
  by_cases hobj : ∃ x, p.2 = .object x
  · obtain ⟨x, hx⟩ := hobj
    have hlt := hr p hpe x (.inr hx)
    rw [hx] at hv ⊢
    obtain ⟨y, rfl, hxy⟩ := hv
    refine ⟨_, (hbuilt.isCopy hwf hplain).of_append hh, y, rfl, ⟨hxy, _, rfl, .single ?_⟩, hlt⟩
    exact hwf.inside_entry List.getElem?_concat_length rfl hpe (.inr hx)
  · have hscalar : ∀ x, p.2 ≠ .object x := fun x hx ↦ hobj ⟨x, hx⟩
    obtain rfl : v = p.2 := by
      cases hp2 : p.2 with
      | object x => exact absurd hp2 (hscalar x)
      | nil | boolean | lightuserdata | number | string =>
          rw [hp2] at hv
          exact hv
    exact iso_scalar hscalar _ _

/-! ## A record -/

variable {ev : List UInt8} {ρ : Nat → Nat → Prop} {es' : List (Value × Value)}

theorem record_eq_ok_iff : e.record = .ok b ↔
    ∃ ev, e.event = .ok ev ∧ b = decimal ev.length ++ ev := by
  constructor
  · intro hb
    obtain ⟨ev, hev, hb⟩ := Xfer.bind_eq_ok.1 hb
    cases hb
    exact ⟨ev, hev, rfl⟩
  · rintro ⟨ev, hev, rfl⟩
    exact Xfer.bind_eq_ok.2 ⟨ev, hev, rfl⟩

theorem event_eq_ok (hev : e.event = .ok ev) : ∃ h₁, marEncode e.S.hooks e.S.lua52 false e.S.depth
    (.object e.S.heap.length) (e.S.heap ++ [.table { entries := e.entries }]) = .ok (ev, h₁) := by
  obtain ⟨⟨b, h₁⟩, he, hev⟩ := Xfer.bind_eq_ok.1 hev
  cases hev
  exact ⟨h₁, he⟩

/-- An encoding starts with `MAR_MAGIC`, and its length is written without an exponent. -/
theorem event_shape (hev : e.event = .ok ev) : ∃ p, ev = 0x8e :: p ∧ p.length + 1 < 10 ^ 14 ∧
    e.entries.length < 2 ^ 31 := by
  obtain ⟨h₁, he⟩ := event_eq_ok hev
  obtain ⟨c, st', hc, hf, -, rfl, -⟩ := marEncode_eq_ok_iff.1 he
  obtain ⟨cs, rfl, hcs⟩ := exists_codesOf List.getElem?_concat_length rfl rfl hc
  have hlt := hf.length_lt
  have hle : 2 * e.entries.length ≤ cs.print.length := length_entries_le hcs
  have hfit := hf.1
  refine ⟨_, rfl, ?_, ?_⟩ <;> omega

/-- **The size is read, and the event is left.** -/
theorem scan_record {scan : List UInt8 → Option (Nat × List UInt8)} (hscan : Scans scan)
    (hev : e.event = .ok ev) (rest : List UInt8) :
    scan (decimal ev.length ++ ev ++ rest) = some (ev.length, ev ++ rest) := by
  obtain ⟨p, rfl, hlt, -⟩ := event_shape hev
  rw [List.append_assoc, List.cons_append]
  exact hscan.numeral _ hlt 0x8e (by decide) _

theorem rawget_rel_string (hes : List.Forall₂ (RelPair ρ) es es') (s : List UInt8) :
    RelValue ρ (rawget es (.string s)) (rawget es' (.string s)) := by
  have heq : ∀ {v v' : Value}, RelValue ρ v v' →
      rawEq v' (.string s) = rawEq v (.string s) := by
    intro v v' hv
    cases v with
    | object a =>
        obtain ⟨c, rfl, -⟩ := hv
        rfl
    | nil | boolean | lightuserdata | number | string =>
        obtain rfl : v' = _ := hv
        rfl
  induction hes with
  | nil => exact rfl
  | @cons p p' es es' hp _ ih =>
      rw [rawget_cons, rawget_cons, heq hp.1]
      split
      · exact hp.2
      · exact ih

/-- What is unpacked are copies of the arguments, if `#` finds as many as there are. -/
theorem sent_elements {h' : Heap} (hl : e.args.length < 2 ^ 31)
    (hes : List.Forall₂ (RelPair ρ) e.entries es')
    (hiso : ∀ v ∈ e.args, ∀ v', RelValue ρ v v' → Iso e.S.heap v h' v') :
    e.Sent ((List.range e.args.length).map fun i ↦ rawget es' (.ofNat (i + 1)), h') := by
  refine List.forall₂_iff_get.2 ⟨by simp, fun i hi hi' ↦ ?_⟩
  refine hiso _ (List.get_mem _ _) _ ?_
  have hrel := rawget_rel_ofNat hes (i + 1)
  rw [rawget_entries, rawget_arrayEntries (by omega) (by omega), List.getElem?_eq_getElem hi]
    at hrel
  simpa using hrel

/-! ## One event -/

variable {P : Replayer} {len : List (Value × Value) → Nat} {refusal : Nat → Option String}

/-- **What is loaded is the table of the event**, as far as it can be unpacked. -/
theorem load_event (P : Replayer) (hg : e.Given) (hd : e.S.depth ≤ P.R.depth)
    (hev : e.event = .ok ev) (rest : List UInt8) (r : Replay) :
    ∃ (a : Nat) (t : Table) (h' : Heap) (ρ : Nat → Nat → Prop),
      P.load ev.length { r with file := ev ++ rest } = (do
        let vs ← P.R.elements t.entries
        .ok (.object a, vs, { r with file := rest, heap := h' })) ∧
      P.isNumber (timestampOf (.object a) h') = true ∧
      List.Forall₂ (RelPair ρ) e.entries t.entries ∧
      ∀ v ∈ e.args, ∀ v', RelValue ρ v v' → Iso e.S.heap v h' v' := by
  obtain ⟨h₁, he⟩ := event_eq_ok hev
  have hplain : ∀ p ∈ e.entries, Plain e.S.lua52 e.S.heap p.1 ∧ Plain e.S.lua52 e.S.heap p.2 := by
    intro p hp
    rcases List.mem_append.1 hp with hp | hp
    · obtain ⟨i, v, hi, -, rfl⟩ := mem_arrayEntries_iff.1 hp
      refine ⟨plain_scalar fun a ha ↦ ?_, hg.plain v (List.mem_of_getElem? hi)⟩
      rw [ofNat_eq] at ha
      cases ha
    · obtain rfl := List.mem_singleton.1 hp
      exact ⟨plain_scalar (by simp [timestamp]), plain_scalar (by simp)⟩
  obtain ⟨a, t, h', ρ, hdec, ht, hes, hiso⟩ :=
    marDecode_alloc (L := P.R.env) r.heap hg.heap (wellFormed_entries hg.count) hplain hd he
  refine ⟨a, t, h', ρ, ?_, ?_, hes, fun v hv v' hvv' ↦ ?_⟩
  · obtain ⟨p, rfl, -, -⟩ := event_shape hev
    have hne : ¬ (0x8e :: p ++ rest : List UInt8) = [] := by simp
    have hsome : ¬ (Value.object a = .nil ∨ Value.object a = .boolean false) := by simp
    rw [Replayer.load, if_neg hne, List.take_left, List.drop_left, hdec, Xfer.ok_bind]
    dsimp only
    rw [if_neg hsome, unpack_table ht]
  · have hrel := rawget_rel_string hes (ascii "timestamp")
    have htime : rawget e.entries (.string (ascii "timestamp")) = .number e.time :=
      rawget_timestamp hg.count
    rw [htime] at hrel
    have hof : timestampOf (.object a) h' = .number e.time := by
      simp only [timestampOf, ht]
      exact hrel
    rw [hof]
    rfl
  · by_cases hn : v = .nil
    · subst hn
      obtain rfl : v' = .nil := hvv'
      exact iso_scalar (by simp) _ _
    · obtain ⟨k, hk⟩ := mem_arrayEntries hv hn
      exact hiso (k, v) (List.mem_append_left _ hk) v' hvv'

/-- **An event that can be replayed is sent**, and the replay goes on behind it. -/
theorem loop_event (refusal : Nat → Option String) (hm : Measures len) (hg : e.Given)
    (hd : e.S.depth ≤ P.R.depth) (hev : e.event = .ok ev) (hs : P.Sends e) (rest : List UInt8)
    (r : Replay) :
    ∃ (s : List Value × Heap) (r' : Replay), e.Sent s ∧ r'.file = rest ∧
      r'.sent = r.sent ++ [s] ∧ ∀ n,
        (P.facing len refusal).loop (n + 1) (some (ev.length, ev ++ rest)) r =
          match refusal r.sent.length with
          | some msg => some (r', .raised msg)
          | none => (P.facing len refusal).loop n (P.scan rest) r' := by
  obtain ⟨a, t, h', ρ, hload, htime, hes, hiso⟩ :=
    load_event (P.facing len refusal) hg hd hev rest r
  have hlen : t.entries.length < 2 ^ 31 := by
    obtain ⟨-, -, -, hlt⟩ := event_shape hev
    rwa [← hes.length_eq]
  obtain ⟨hborder, hblt⟩ := hm t.entries hlen
  have hn : len t.entries = e.args.length := border_arrayEntries_eq hg.count hblt hs.filled
    (border_entries.1 ((border_rel hes).1 hborder))
  have hel := (elements_eq_ok_iff (R := P.R.counting len) (n := e.args.length) hn hg.count).2
    ⟨hs.stack.imp List.length_eq_zero_iff.2 id, rfl⟩
  have hel' : (P.facing len refusal).R.elements t.entries = .ok _ := hel
  rw [hel', Xfer.ok_bind] at hload
  refine ⟨_, ⟨rest, h', r.sent ++ [(_, h')]⟩, sent_elements hg.count hes hiso, rfl, rfl, fun n ↦ ?_⟩
  rw [Replayer.loop, hload]
  simp only [htime, if_true]
  rfl

/-! ## A recording -/

variable {evs : List Recorded} {bs : List (List UInt8)} {n : Nat} {r r' : Replay}
  {x : Xfer Unit} {ss : List (List Value × Heap)} {size : Nat} {dec : Value} {vs : List Value}
  {f : Option (Nat × List UInt8)}

/-- A recording of events that can be replayed is replayed. -/
theorem loop_replays (refusal : Nat → Option String) (hscan : Scans P.scan)
    (hm : Measures len) (hrec : List.Forall₂ (fun e b ↦ e.record = .ok b) evs bs)
    (hg : ∀ e ∈ evs, e.Given ∧ e.S.depth ≤ P.R.depth) (hs : ∀ e ∈ evs, P.Sends e) (r : Replay) :
    ∃ n r' ss x, (P.facing len refusal).loop n (P.scan bs.flatten) r = some (r', x) ∧
      r'.sent = r.sent ++ ss ∧ Replays refusal r.sent.length evs ss x := by
  induction hrec generalizing r with
  | nil => exact ⟨1, r, [], .ok (), by rw [List.flatten_nil, hscan.atEnd]; rfl, by simp, .nil⟩
  | @cons e b evs bs he _ ih =>
      obtain ⟨ev, hev, rfl⟩ := record_eq_ok_iff.1 he
      obtain ⟨⟨hge, hde⟩, hg⟩ := List.forall_mem_cons.1 hg
      obtain ⟨hse, hs⟩ := List.forall_mem_cons.1 hs
      obtain ⟨s, r₁, hsent, hfile, hr₁, hloop⟩ :=
        loop_event refusal hm hge hde hev hse bs.flatten r
      rw [List.flatten_cons, scan_record hscan hev]
      cases hk : refusal r.sent.length with
      | some msg =>
          refine ⟨1, r₁, [s], .raised msg, ?_, hr₁, .refused hk hsent⟩
          rw [hloop, hk]
      | none =>
          obtain ⟨n, r', ss, x, hrun, hss, hrep⟩ := ih hg hs r₁
          refine ⟨n + 1, r', s :: ss, x, ?_, ?_, .cons hk hsent ?_⟩
          · rw [hloop, hk]
            exact hrun
          · rw [hss, hr₁, List.append_assoc, List.singleton_append]
          · rw [hr₁, List.length_append, List.length_singleton] at hrep
            exact hrep

theorem load_sent (h : P.load size r = .ok (dec, vs, r')) : r'.sent = r.sent := by
  unfold Replayer.load at h
  split at h
  · cases h
  · obtain ⟨⟨dec', heap⟩, -, h⟩ := Xfer.bind_eq_ok.1 h
    dsimp only at h
    split at h
    · cases h
    · obtain ⟨vs', -, h⟩ := Xfer.bind_eq_ok.1 h
      cases h
      rfl

/-- What was sent stays sent. -/
theorem loop_sent (h : P.loop n f r = some (r', x)) : r.sent <+: r'.sent := by
  induction n generalizing f r with
  | zero => cases h
  | succ n ih =>
      obtain _ | ⟨size, file⟩ := f
      · cases h
        exact List.prefix_rfl
      · rw [Replayer.loop] at h
        cases hl : P.load size { r with file } with
        | raised msg =>
            rw [hl] at h
            cases h
            exact List.prefix_rfl
        | crash =>
            rw [hl] at h
            cases h
            exact List.prefix_rfl
        | ok y =>
            obtain ⟨dec, vs, r₁⟩ := y
            have hr₁ : r₁.sent = r.sent := load_sent (r := { r with file }) hl
            have hpre : r.sent <+: r₁.sent ++ [(vs, r₁.heap)] := by
              rw [hr₁]
              exact List.prefix_append _ _
            rw [hl] at h
            dsimp only at h
            split at h
            · cases h
              exact hpre
            · split at h
              · exact hpre.trans (ih h)
              · cases h
                exact hpre

/-- The event was sent with as many arguments as it had: then it could be. -/
theorem sends_of_elements {es : List (Value × Value)}
    (hl : e.args.length < 2 ^ 31) (hes : List.Forall₂ (RelPair ρ) e.entries es)
    (hlen : es.length < 2 ^ 31)
    (hel : (P.R.counting firstBorder).elements es = .ok vs) (hcount : vs.length = e.args.length) :
    P.Sends e := by
  obtain ⟨hle, -, hne⟩ := firstBorder_spec hlen
  obtain ⟨hmax, rfl⟩ := (elements_eq_ok_iff (R := P.R.counting firstBorder)
    (n := firstBorder es) rfl (by omega)).1 hel
  have hborder : firstBorder es = e.args.length := by simpa using hcount
  constructor
  · -- the argument before which the table ends is not `nil`
    intro hnil
    obtain ⟨j, hj⟩ := List.mem_iff_getElem?.1 hnil
    have hjlt : j < e.args.length := (List.getElem?_eq_some_iff.1 hj).1
    have hrel := rawget_rel_ofNat hes (j + 1)
    rw [rawget_entries, rawget_arrayEntries (by omega) (by omega), hj] at hrel
    exact hne j (hborder ▸ hjlt) (hrel.eq_nil_iff.2 rfl)
  · rw [hborder] at hmax
    exact hmax.imp List.length_eq_zero_iff.1 id

/-- **If a recording is replayed, its events can be**: the operator `#` returns the least border,
and all events can be sent. -/
theorem sends_of_loop (hscan : Scans P.scan)
    (hrec : List.Forall₂ (fun e b ↦ e.record = .ok b) evs bs)
    (hg : ∀ e ∈ evs, e.Given ∧ e.S.depth ≤ P.R.depth) {k : Nat}
    (hloop : (P.facing firstBorder fun _ ↦ none).loop n (P.scan bs.flatten) r = some (r', x))
    (hss : r'.sent = r.sent ++ ss) (hrep : Replays (fun _ ↦ none) k evs ss x) :
    ∀ e ∈ evs, P.Sends e := by
  induction hrec generalizing n r ss k with
  | nil => simp
  | @cons e b evs bs he _ ih =>
      obtain ⟨ev, hev, rfl⟩ := record_eq_ok_iff.1 he
      obtain ⟨⟨hge, hde⟩, hg⟩ := List.forall_mem_cons.1 hg
      rw [List.flatten_cons, scan_record hscan hev] at hloop
      obtain ⟨a, t, h', ρ, hload, htime, hes, -⟩ :=
        load_event (P.facing firstBorder fun _ ↦ none) hge hde hev bs.flatten r
      have hlen : t.entries.length < 2 ^ 31 := by
        obtain ⟨-, -, -, hlt⟩ := event_shape hev
        rwa [← hes.length_eq]
      cases hrep with
      | refused h _ => cases h
      | @cons _ _ _ s ss _ _ hsent hrest =>
          cases n with
          | zero => cases hloop
          | succ n =>
              rw [Replayer.loop, hload] at hloop
              cases hel : (P.facing firstBorder fun _ ↦ none).R.elements t.entries with
              | raised msg =>
                  rw [hel] at hloop
                  cases hloop
                  simp at hss
              | crash =>
                  rw [hel] at hloop
                  cases hloop
                  simp at hss
              | ok vs =>
                  rw [hel, Xfer.ok_bind] at hloop
                  simp only [htime, if_true] at hloop
                  have hloop' : (P.facing firstBorder fun _ ↦ none).loop n (P.scan bs.flatten)
                      ⟨bs.flatten, h', r.sent ++ [(vs, h')]⟩ = some (r', x) := hloop
                  have hs : s = (vs, h') := by
                    obtain ⟨tl, htl⟩ := loop_sent hloop'
                    rw [hss, List.append_assoc] at htl
                    exact (List.cons.inj (List.append_cancel_left htl)).1.symm
                  subst hs
                  refine List.forall_mem_cons.2 ⟨?_, ih hg hloop' ?_ hrest⟩
                  · exact sends_of_elements hge.count hes hlen hel hsent.length_eq.symm
                  · rw [hss, List.append_assoc, List.singleton_append]

theorem handler_eq_loop {file : List UInt8} (h : P.scan file ≠ none) :
    P.handler n file = P.loop n (P.scan file) ⟨file, P.R.heap, []⟩ := by
  unfold Replayer.handler
  cases hs : P.scan file with
  | none => exact absurd hs h
  | some s => rfl

/-- **A file is replayed as the events `evs`**: whatever `#` says of tables with several borders,
and whichever of the events cannot be sent. -/
def Replayer.Replayed (P : Replayer) (evs : List Recorded) (file : List UInt8) : Prop :=
  ∀ len refusal, Measures len → ∃ n r x, (P.facing len refusal).handler n file = some (r, x) ∧
    Replays refusal 0 evs r.sent x

theorem replayed_iff (hscan : Scans P.scan)
    (hrec : List.Forall₂ (fun e b ↦ e.record = .ok b) evs bs)
    (hg : ∀ e ∈ evs, e.Given ∧ e.S.depth ≤ P.R.depth) :
    P.Replayed evs bs.flatten ↔ evs ≠ [] ∧ ∀ e ∈ evs, P.Sends e := by
  have hscans : evs ≠ [] → P.scan bs.flatten ≠ none := by
    intro hne
    cases hrec with
    | nil => exact absurd rfl hne
    | cons he _ =>
        obtain ⟨ev, hev, rfl⟩ := record_eq_ok_iff.1 he
        rw [List.flatten_cons, scan_record hscan hev]
        simp
  constructor
  · intro hall
    obtain ⟨n, r, x, hrun, hrep⟩ := hall firstBorder (fun _ ↦ none) measures_firstBorder
    have hne : evs ≠ [] := by
      rintro rfl
      cases hrec
      have hnone : (P.facing firstBorder fun _ ↦ none).scan [] = none := hscan.atEnd
      rw [List.flatten_nil, Replayer.handler, hnone] at hrun
      cases hrun
      cases hrep
    rw [handler_eq_loop (P := P.facing firstBorder fun _ ↦ none) (hscans hne)] at hrun
    exact ⟨hne, sends_of_loop hscan hrec hg hrun rfl hrep⟩
  · rintro ⟨hne, hs⟩ len refusal hm
    obtain ⟨n, r, ss, x, hrun, hss, hrep⟩ := loop_replays refusal hscan hm hrec hg hs
      ⟨bs.flatten, P.R.heap, []⟩
    refine ⟨n, r, x, ?_, hss ▸ hrep⟩
    rw [handler_eq_loop (P := P.facing len refusal) (hscans hne)]
    exact hrun

theorem scans_scanDecimal : Scans scanDecimal where
  atEnd := rfl
  numeral n _ b hb rest := by
    apply scanDecimal_decimal
    rintro _ ⟨⟩
    simp only [isDigit, Bool.and_eq_false_iff, decide_eq_false_iff_not]
    omega

end

/-- A replayer in a Lua state without anything in it. -/
def emptyReplayer : Replayer :=
  ⟨⟨emptyLua, 9, 20, 8000, []⟩, scanDecimal, fun _ ↦ none, fun _ ↦ false⟩

def twoNumbers : Recorded := ⟨⟨.none, false, 9, []⟩, 0, [.number 0, .number 1]⟩

theorem given_twoNumbers : ∀ e ∈ [twoNumbers], e.Given ∧ e.S.depth ≤ emptyReplayer.R.depth := by
  intro e he
  obtain rfl := List.mem_singleton.1 he
  refine ⟨⟨⟨by simp [twoNumbers], by simp [twoNumbers], by simp [twoNumbers],
    by simp [twoNumbers]⟩, ?_, by decide⟩, by decide⟩
  intro v hv
  refine plain_scalar ?_
  rintro a rfl
  simp [twoNumbers] at hv

theorem sends_twoNumbers : ∀ e ∈ [twoNumbers], emptyReplayer.Sends e := by
  intro e he
  obtain rfl := List.mem_singleton.1 he
  exact ⟨by simp [twoNumbers], .inr (by decide)⟩

/-- The record of an event was written, as a whole. -/
def Recorded.Stored (e : Recorded) (io : FileIo.IoEvent) : Prop :=
  ∃ b, e.record = .ok b ∧ io.obj.opcode = .pwrite b ∧ io.res = b.length

/-- What was written of events by way of a descriptor. -/
theorem output_stored {fd : FileIo.Fd} {evs : List Recorded} {ios : List FileIo.IoEvent}
    (h : List.Forall₂ Recorded.Stored evs (ios.filter (·.obj.fildes = fd))) :
    ∃ bs, List.Forall₂ (fun e b ↦ e.record = .ok b) evs bs ∧
      ios.flatMap (FileIo.IoEvent.output fd) = bs.flatten := by
  induction ios generalizing evs with
  | nil =>
      cases h
      exact ⟨[], .nil, rfl⟩
  | cons io ios ih =>
      by_cases hfd : io.obj.fildes = fd
      · rw [List.filter_cons_of_pos (by simpa using hfd)] at h
        cases h with
        | cons he h =>
            obtain ⟨b, hb, hop, hres⟩ := he
            obtain ⟨bs, hbs, heq⟩ := ih h
            refine ⟨b :: bs, .cons hb hbs, ?_⟩
            have hout : io.output fd = b := by
              rw [FileIo.IoEvent.output, if_pos hfd, hop, hres]
              exact List.take_length
            rw [List.flatMap_cons, hout, heq, List.flatten_cons]
      · rw [List.filter_cons_of_neg (by simpa using hfd)] at h
        obtain ⟨bs, hbs, heq⟩ := ih h
        refine ⟨bs, hbs, ?_⟩
        rw [List.flatMap_cons, FileIo.IoEvent.output_of_ne hfd, heq, List.nil_append]

/-- A new file, as descriptor 5. -/
def newFile : FileIo.Files := ⟨id, fun _ ↦ [], fun _ ↦ 0, [], [], [], []⟩

/-- A recorder writes `b`. -/
def writes (b : List UInt8) : List FileIo.Label :=
  [.doFileAio 0 5 (.number 2) (.string b) true, .complete ⟨0, 5, .pwrite b, 0⟩ b.length,
    .opReady ⟨⟨0, 5, .pwrite b, 0⟩, b.length, []⟩]

end Leda.Stage.Recorder
