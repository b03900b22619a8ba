import Leda.Event.Connection

/-!
# When framing survives

`read_event` reads the payload in a loop, and that loop puts up with anything.  It reads
the header with one call of `read`, and takes whatever that returns for a header.

* The call returns less than a header: the rest is what was on the stack.
* It returns `EAGAIN`, or there is no memory for the payload: the connection is closed.
  That does no harm as long as no event has been written that was not read.

And the sender announces all events of a connection with the length of the first one, as the
pooled socket brings that length along (`Lengths`), so that an event of another length is cut
or gets bytes that are not its own.

`framed_iff` says that this is all that can go wrong.  The invariant behind it is that at
most one event is on its way, because the sender waits for an answer, and that the bytes
of it that were not read are on the wire or have still to be written.
-/

namespace Leda.Event.Connection

open Leda.Lib List

/-! ## What framing means -/

/-- The buffer of the payload. -/
def buffered (σ : Connection) : List Octet :=
  match σ.reader with
  | .reading _ _ buf => buf
  | _ => []

/-- The receiver has nothing more to read: it has closed the connection, or everything that
was written has been read. -/
def Spent (σ : Connection) : Prop := σ.reader = .closed ∨ σ.reader = .listening ∧ σ.wire = []

instance (σ : Connection) : Decidable σ.Spent := inferInstanceAs (Decidable (_ ∨ _))

/-- **The events arrive as they were sent.** -/
structure Framed (σ : Connection) : Prop where
  /-- No byte of a header was left undefined. -/
  defined : σ.undefined = false
  /-- No byte of a header is taken for one of a payload. -/
  payload : ∀ b ∈ σ.buffered, b.header = false
  /-- The calls are those that were sent, in order. -/
  calls : σ.calls <+: σ.sent
  /-- All of them, when there is no more to read. -/
  all : σ.Spent → σ.calls = σ.sent

/-- What the sender has still to write. -/
def unwritten (σ : Connection) : List Octet :=
  match σ.writer with
  | .writing _ _ rest => rest
  | _ => []

/-- The length of the first event of the connection, once it was written. -/
def first? (σ : Connection) : Option Nat := σ.sent.head?.map fun m ↦ m.payload.length

/-- The event written last is as long as the first one. -/
def SameLength (σ : Connection) : Prop :=
  (σ.sent.getLast?.map fun m ↦ m.payload.length) = σ.first?

instance (σ : Connection) : Decidable σ.SameLength := inferInstanceAs (Decidable (_ = _))

/-- **A step that keeps the frames apart.**  The header is read in full, and there is
memory for the payload; when the receiver gives up instead, no event is waiting for it, and
none is written to the end afterwards.  An event that was read has the length of the first
one of the connection. -/
def Whole (σ : Connection) : Call → Prop
  | .write (.bytes n) => σ.reader = .closed → n < σ.unwritten.length
  | .readHeader .again _ _ _ => σ.Writing ∨ σ.wire = []
  | .readHeader (.bytes n) _ alloc _ => n = 0 ∨ n = headerSize ∧ (alloc = true ∨ σ.Writing)
  | .emmitPacked .. => σ.SameLength
  | .send .. | .write .again | .writeFails | .readAck .. | .readPayload _ => True

instance (σ : Connection) : (c : Call) → Decidable (σ.Whole c)
  | .write (.bytes _) => inferInstanceAs (Decidable (_ → _))
  | .readHeader .again .. => inferInstanceAs (Decidable (_ ∨ _))
  | .readHeader (.bytes _) .. => inferInstanceAs (Decidable (_ ∨ _ ∧ (_ ∨ _)))
  | .emmitPacked .. => inferInstanceAs (Decidable σ.SameLength)
  | .send .. | .write .again | .writeFails | .readAck .. | .readPayload _ => .isTrue trivial

/-! ## The invariant -/

/-- `m` is what is written for `e`: it has the length of the first event, and is `e` if `e`
has that length too. -/
structure Stands (σ : Connection) (e m : SentEvent) : Prop where
  length : m.payload.length = σ.first?.getD e.payload.length
  eq : m.payload.length = e.payload.length → m.toMessage = e.toMessage

/-- Where the sender is with `e`, of which it writes `m`, and the bytes it has still to
write. -/
inductive Writes (σ : Connection) (e m : SentEvent) : List Octet → Prop
  | writing {rest : List Octet} (hw : σ.writer = .writing e m.toMessage rest) (hn : rest ≠ [])
      (hc : σ.calls = σ.sent) : Writes σ e m rest
  | written (hw : (∃ len, σ.writer = .awaitAck len) ∨ σ.writer = .closed)
      (hc : σ.calls ++ [e.toMessage] = σ.sent) : Writes σ e m []

/-- Where the receiver is with `m`, and the bytes it has still to read. -/
inductive Reads (σ : Connection) (m : SentEvent) (unread : List Octet) : Prop
  | header (hr : σ.reader = .listening) (hb : unread = frame m.toMessage)
  | payload {buf : List Octet} (hr : σ.reader = .reading m.stage m.payload.length buf)
      (hb : buf ++ unread = octets false m.payload)

/-- **Where a connection can be** when all steps were whole. -/
inductive Placed (σ : Connection) : Prop
  | /-- The receiver has given up, and nothing that was written is missing. -/
    dead (hr : σ.reader = .closed) (hc : σ.calls = σ.sent)
  | /-- Everything that was written has been read; there is at most one answer. -/
    quiet (hr : σ.reader = .listening) (hc : σ.calls = σ.sent) (hw : σ.wire = [])
      (hs : ¬ σ.Writing) (ha : σ.acks.length ≤ 1) (hi : ∀ word, σ.writer = .idle word → σ.acks = [])
  | /-- One event is on its way. -/
    transit (e m : SentEvent) (rest : List Octet) (hm : σ.Stands e m) (hw : σ.Writes e m rest)
      (hr : σ.Reads m (σ.wire ++ rest)) (ha : σ.acks = [])

/-- **`len` is the length of the first event**, and the bytes beside the socket are. -/
def Lengths (σ : Connection) : Prop :=
  match σ.writer with
  | .idle word => word.map BitVec.toNat = σ.first?
  | .writing e m _ => m.payload.length = σ.first?.getD e.payload.length
  | .awaitAck len => σ.first? = some len
  | .leaked | .closed => True

/-- The connection is well placed, and no header was interpreted that was not read in
full. -/
structure Sound (σ : Connection) : Prop where
  defined : σ.undefined = false
  placed : σ.Placed
  lengths : σ.Lengths
  bounds : ∀ n ∈ σ.first?, 0 < n ∧ n < 2 ^ 31

theorem sound_accepted : Sound accepted where
  defined := rfl
  placed := .quiet rfl rfl rfl nofun (Nat.zero_le 1) fun _ _ ↦ rfl
  lengths := rfl
  bounds := nofun

section Octets

variable {b : List UInt8} {hd : Bool} {m : Message} {o : Octet}

@[simp] theorem length_octets : (octets hd b).length = b.length := length_map _

@[simp] theorem octets_value : (octets hd b).map Octet.value = b := by
  simp [octets, Function.comp_def]

theorem header_of_mem_octets (ho : o ∈ octets hd b) : o.header = hd := by
  obtain ⟨v, -, rfl⟩ := mem_map.1 ho
  rfl

theorem frame_ne_nil : frame m ≠ [] := nofun

/-- The header is the first `headerSize` bytes of a frame. -/
theorem take_frame : (frame m).take headerSize = octets true (header m) := by
  rw [frame, take_append_of_le_length (by simp), take_of_length_le (by simp)]

theorem drop_frame : (frame m).drop headerSize = octets false m.payload := by
  have h : (octets true (header m)).length = headerSize := by simp
  rw [frame, ← h, drop_left]

end Octets

/-- **Sound connections are framed.** -/
theorem Sound.framed {σ : Connection} (h : σ.Sound) : σ.Framed := by
  refine ⟨h.defined, fun o ho ↦ ?_, ?_, fun hs ↦ ?_⟩
  · rcases h.placed with ⟨hr, -⟩ | ⟨hr, -⟩ | ⟨e, m, rest, -, -, hr, -⟩
    · simp [buffered, hr] at ho
    · simp [buffered, hr] at ho
    · cases hr with
      | header hr => simp [buffered, hr] at ho
      | payload hr hb =>
          simp only [buffered, hr] at ho
          exact header_of_mem_octets (hb ▸ mem_append_left _ ho)
  · rcases h.placed with ⟨-, hc⟩ | ⟨-, hc, -⟩ | ⟨e, m, rest, -, hw, -, -⟩
    · exact hc ▸ prefix_rfl
    · exact hc ▸ prefix_rfl
    · cases hw with
      | writing _ _ hc => exact hc ▸ prefix_rfl
      | written _ hc => exact ⟨_, hc⟩
  · rcases h.placed with ⟨-, hc⟩ | ⟨-, hc, -⟩ | ⟨e, m, rest, -, hw, hr, -⟩
    · exact hc
    · exact hc
    · cases hw with
      | writing _ _ hc => exact hc
      | written =>
          -- a whole event would be unread
          cases hr with
          | header hr hb => simp_all [Spent, frame_ne_nil]
          | payload hr => simp [Spent, hr] at hs

variable {σ σ' : Connection} {c : Call}

/-! ## Reading a header -/

section Header

variable {m : SentEvent} {rest : List Octet} {garbage : List UInt8} {alloc replied : Bool}
  {n : Nat}

/-- What was read of a frame starts with `EVENT_TYPE`. -/
theorem take_unread (hb : σ.wire ++ rest = frame m.toMessage) (hn : n + 1 ≤ σ.wire.length) :
    ∃ b, (σ.wire.take (n + 1)).map Octet.value = eventType :: b := by
  have h : σ.wire.take (n + 1) = (frame m.toMessage).take (n + 1) := by
    rw [← hb, take_append_of_le_length hn]
  exact ⟨_, by rw [h]; rfl⟩

/-- A short header is interpreted all the same. -/
theorem readEvent_short (hb : σ.wire ++ rest = frame m.toMessage) (hn : n + 1 ≤ σ.wire.length)
    (hs : n + 1 < headerSize) : (σ.readEvent garbage alloc replied (n + 1)).undefined = true := by
  obtain ⟨b, h⟩ := take_unread hb hn
  simp only [readEvent, h, cons_append, readHeader_eventType, hs, decide_true, Bool.or_true]
  split
  · rfl
  · split <;> rfl

/-- **A header that is read in full is read back.** -/
theorem readEvent_whole (hb : σ.wire ++ rest = frame m.toMessage)
    (hn : headerSize ≤ σ.wire.length) :
    σ.readEvent [] alloc replied headerSize = { σ with
      wire := σ.wire.drop headerSize
      reader := if alloc then .reading m.stage m.payload.length [] else .closed } := by
  have h : σ.wire.take headerSize = octets true (header m.toMessage) := by
    rw [← take_frame, ← hb, take_append_of_le_length hn]
  have hp := readHeader_header m
  have hs : headerSize = 12 + 1 := rfl
  rw [hs] at h ⊢
  simp only [readEvent, h, octets_value, append_nil, hp, m.not_notPositive, if_false]
  cases alloc <;> simp [hangUp, headerSize]

/-- What is left of the frame is the payload. -/
theorem drop_unread (hb : σ.wire ++ rest = frame m.toMessage)
    (hn : headerSize ≤ σ.wire.length) :
    σ.wire.drop headerSize ++ rest = octets false m.payload := by
  rw [← drop_frame, ← hb, drop_append_of_le_length hn]

end Header

/-! ## What steps preserve -/

section Preserve

variable {e m : SentEvent} {rest unread : List Octet}

/-- Only the reader's own steps change where it is. -/
theorem Reads.congr (h : σ.Reads m unread) (hr : σ'.reader = σ.reader) : σ'.Reads m unread := by
  cases h with
  | header h hb => exact .header (hr.trans h) hb
  | payload h hb => exact .payload (hr.trans h) hb

/-- Only the writer's own steps change where it is. -/
theorem Writes.congr (h : σ.Writes e m rest) (hw : σ'.writer = σ.writer)
    (hc : σ'.calls = σ.calls) (hs : σ'.sent = σ.sent) : σ'.Writes e m rest := by
  cases h with
  | writing h hn h' => exact .writing (hw.trans h) hn (by rw [hc, hs, h'])
  | written h h' => exact .written (by rw [hw]; exact h) (by rw [hc, hs, h'])

theorem Stands.congr (h : σ.Stands e m) (hs : σ'.first? = σ.first?) : σ'.Stands e m where
  length := by rw [hs, h.length]
  eq := h.eq

/-- When `e` is written, the first event is still as long. -/
theorem first?_append (σ : Connection) (e : Message) (n : Nat)
    (hn : n = σ.first?.getD e.payload.length) :
    (σ.sent ++ [e]).head?.map (fun m ↦ m.payload.length) = some n := by
  rw [hn, first?]
  cases σ.sent <;> rfl

/-- What is written is as long after the event was counted. -/
theorem Stands.finished (h : σ.Stands e m) (hs : σ'.sent = σ.sent ++ [e.toMessage]) :
    σ'.Stands e m where
  length := by
    rw [first?, hs, first?_append σ e.toMessage _ h.length]
    rfl
  eq := h.eq

/-- A writer that is not writing has written it all. -/
theorem Writes.eq_nil (h : σ.Writes e m rest) (hw : ¬ σ.Writing) :
    rest = [] ∧ σ.calls ++ [e.toMessage] = σ.sent := by
  cases h with
  | writing h => exact absurd ⟨_, _, _, h⟩ hw
  | written _ hc => exact ⟨rfl, hc⟩

theorem Writes.eq_of_writing (h : σ.Writes e m rest) (hw : σ.Writing) : σ.calls = σ.sent := by
  cases h with
  | writing _ _ hc => exact hc
  | written hw' =>
      obtain ⟨e', m', rest', hw⟩ := hw
      rw [hw] at hw'
      rcases hw' with ⟨_, hw'⟩ | hw' <;> cases hw'

/-- What is unread of an event that is on its way is not nothing while the receiver waits
for it. -/
theorem Reads.ne_nil (h : σ.Reads m unread) (hr : σ.reader = .listening) : unread ≠ [] := by
  cases h with
  | header _ hb => exact hb ▸ frame_ne_nil
  | payload h => rw [h] at hr; cases hr

theorem Writes.ne_idle (h : σ.Writes e m rest) (word : Option (BitVec 32)) :
    σ.writer ≠ .idle word := by
  intro hw
  cases h with
  | writing h => rw [hw] at h; cases h
  | written h => rw [hw] at h; rcases h with ⟨_, h⟩ | h <;> cases h

/-- The writer writes this event. -/
theorem Writes.writing_eq {e₁ : SentEvent} {m₁ : Message} {rest₁ : List Octet}
    (h : σ.Writes e m rest) (hw : σ.writer = .writing e₁ m₁ rest₁) :
    e₁ = e ∧ m₁ = m.toMessage ∧ rest₁ = rest ∧ σ.calls = σ.sent := by
  cases h with
  | written h => rw [hw] at h; rcases h with ⟨_, h⟩ | h <;> cases h
  | writing h _ hc =>
      rw [hw] at h
      cases h
      exact ⟨rfl, rfl, rfl, hc⟩

/-- What `send_sync_event` starts to write for an event. -/
theorem stands_written {word : Option (BitVec 32)} {behind : List UInt8} (h : σ.Sound)
    (hw : σ.writer = .idle word)
    (hb : behind.length = tryPopLen word e.payload.length - e.payload.length) :
    ∃ m : SentEvent, m.toMessage = e.written word behind ∧ σ.Stands e m := by
  have hlen : (e.written word behind).payload.length = σ.first?.getD e.payload.length := by
    have hl := h.lengths
    rw [Lengths, hw] at hl
    rw [Message.length_written hb, tryPopLen_of_lt (Nat.lt_trans e.bound (by decide)), ← hl]
  have hbounds : 0 < (e.written word behind).payload.length ∧
      (e.written word behind).payload.length < 2 ^ 31 := by
    rw [hlen]
    cases hf : σ.first? with
    | none => exact ⟨e.pos, e.bound⟩
    | some n => exact h.bounds n hf
  refine ⟨⟨e.written word behind, hbounds.1, hbounds.2⟩, rfl, hlen, fun heq ↦ ?_⟩
  exact Message.written_eq_self ((Message.length_written hb).symm.trans heq)

/-- An event starts on its way. -/
theorem placed_send {word : Option (BitVec 32)} {behind : List UInt8} (h : σ.Sound)
    (hw : σ.writer = .idle word)
    (hb : behind.length = tryPopLen word e.payload.length - e.payload.length) :
    Placed { σ with
      writer := .writing e (e.written word behind) (frame (e.written word behind)) } := by
  rcases h.placed with ⟨hr, hc⟩ | ⟨hr, hc, hwire, -, -, hi⟩ | ⟨_, _, _, -, hw', -, -⟩
  · exact .dead hr hc
  · obtain ⟨m, hm, hstands⟩ := stands_written h hw hb
    refine .transit e m (frame m.toMessage) (hstands.congr rfl) ?_ (.header hr ?_) (hi word hw)
    · exact .writing (by rw [hm]) frame_ne_nil hc
    · rw [hwire, nil_append]
  · exact absurd hw (hw'.ne_idle word)

/-- The bytes that `write` moved are unread. -/
theorem placed_wrote {e₁ : SentEvent} {m₁ : Message} {n : Nat} (h : σ.Placed)
    (hw : σ.writer = .writing e₁ m₁ rest) (hn : n < rest.length) :
    Placed { σ with
      writer := .writing e₁ m₁ (rest.drop n), wire := σ.wire ++ rest.take n } := by
  rcases h with ⟨hr, hc⟩ | ⟨-, -, -, hs, -, -⟩ | ⟨e, m, rest', hm, hw', hr, ha⟩
  · exact .dead hr hc
  · exact absurd ⟨_, _, _, hw⟩ hs
  · obtain ⟨rfl, rfl, rfl, hc⟩ := hw'.writing_eq hw
    refine .transit e₁ m (rest.drop n) (hm.congr rfl) (.writing rfl ?_ hc) ?_ ha
    · exact fun hnil ↦ by rw [drop_eq_nil_iff] at hnil; omega
    · rw [append_assoc, take_append_drop]
      exact hr.congr rfl

/-- Now all of them are. -/
theorem placed_finished {e₁ : SentEvent} {m₁ : Message} (h : σ.Placed)
    (hw : σ.writer = .writing e₁ m₁ rest) (hopen : σ.reader ≠ .closed) :
    Placed { σ with
      writer := .awaitAck m₁.payload.length
      wire := σ.wire ++ rest
      sent := σ.sent ++ [e₁.toMessage] } := by
  rcases h with ⟨hr, -⟩ | ⟨-, -, -, hs, -, -⟩ | ⟨e, m, rest', hm, hw', hr, ha⟩
  · exact absurd hr hopen
  · exact absurd ⟨_, _, _, hw⟩ hs
  · obtain ⟨rfl, rfl, rfl, hc⟩ := hw'.writing_eq hw
    refine .transit e₁ m [] (hm.finished rfl) (.written (.inl ⟨_, rfl⟩) ?_) ?_ ha
    · exact congrArg (· ++ [e₁.toMessage]) hc
    · rw [append_nil]
      exact hr.congr rfl

/-- `send_sync_event` has read an answer, or found none. -/
theorem placed_ack {len : Nat} {acks : List UInt8} {w : Writer} (h : σ.Placed)
    (hw : σ.writer = .awaitAck len)
    (hw' : w = .idle (some (lowHalf len)) ∨ w = .closed ∨ w = .leaked)
    (ha' : (∃ b, σ.acks = b :: acks) ∨ w = .closed ∧ acks = σ.acks) :
    Placed { σ with writer := w, acks } := by
  have hnot : ¬ Writing { σ with writer := w, acks } := by
    rintro ⟨e, m, rest, h⟩
    obtain rfl : w = _ := h
    rcases hw' with h | h | h <;> cases h
  rcases h with ⟨hr, hc⟩ | ⟨hr, hc, hwire, -, ha, hi⟩ | ⟨e, m, rest', hm, hwr, hr, ha⟩
  · exact .dead hr hc
  · refine .quiet hr hc hwire hnot ?_ ?_
    · rcases ha' with ⟨b, hb⟩ | ⟨-, rfl⟩
      · rw [hb] at ha
        exact Nat.le_of_succ_le ha
      · exact ha
    · rcases ha' with ⟨b, hb⟩ | ⟨rfl, -⟩
      · rw [hb] at ha
        intro _ _
        exact length_eq_zero_iff.1 (Nat.le_zero.1 (Nat.le_of_succ_le_succ ha))
      · exact nofun
  · rcases ha' with ⟨b, hb⟩ | ⟨rfl, rfl⟩
    · rw [ha] at hb
      cases hb
    · have hnw : ¬ σ.Writing := by
        rintro ⟨_, _, _, h⟩
        rw [hw] at h
        cases h
      obtain ⟨rfl, hc⟩ := hwr.eq_nil hnw
      exact .transit e m [] (hm.congr rfl) (.written (.inr rfl) hc) (hr.congr rfl) ha

/-- A receiver that gives up when no event is waiting misses nothing. -/
theorem placed_hangUp (h : σ.Placed) (hr : σ.reader = .listening)
    (hC : σ.Writing ∨ σ.wire = []) : σ.hangUp.Placed := by
  rcases h with ⟨-, hc⟩ | ⟨-, hc, -⟩ | ⟨e, m, rest, -, hw, hu, -⟩
  · exact .dead rfl hc
  · exact .dead rfl hc
  · refine .dead rfl (hw.eq_of_writing ?_)
    rcases hC with hC | hC
    · exact hC
    · by_contra hn
      obtain ⟨rfl, -⟩ := hw.eq_nil hn
      exact hu.ne_nil hr (by rw [hC, append_nil])

/-- When bytes are there, an event is on its way. -/
theorem Placed.transit_of_wire (h : σ.Placed) (hr : σ.reader = .listening) (hw : σ.wire ≠ []) :
    ∃ e m rest, σ.Stands e m ∧ σ.Writes e m rest ∧ σ.wire ++ rest = frame m.toMessage ∧
      σ.acks = [] := by
  rcases h with ⟨hr', -⟩ | ⟨-, -, hw', -⟩ | ⟨e, m, rest, hm, hw, hu, ha⟩
  · rw [hr] at hr'
    cases hr'
  · exact absurd hw' hw
  · cases hu with
    | header _ hb => exact ⟨e, m, rest, hm, hw, hb, ha⟩
    | payload hr' => rw [hr] at hr'; cases hr'

/-- A header that was read in full leaves the payload to be read. -/
theorem placed_header {alloc replied : Bool} (h : σ.Placed) (hr : σ.reader = .listening)
    (hn : headerSize ≤ σ.wire.length) (hC : alloc = true ∨ σ.Writing) :
    (σ.readEvent [] alloc replied headerSize).Placed := by
  have hne : σ.wire ≠ [] := fun hnil ↦ by
    rw [hnil] at hn
    exact absurd hn (by decide)
  obtain ⟨e, m, rest, hm, hw, hb, ha⟩ := h.transit_of_wire hr hne
  rw [readEvent_whole hb hn]
  cases alloc with
  | true =>
      exact .transit e m rest (hm.congr rfl) (hw.congr rfl rfl rfl)
        (.payload rfl (drop_unread hb hn)) ha
  | false => exact .dead rfl (hw.eq_of_writing (hC.resolve_left nofun))

/-- The loop reads on in the payload. -/
theorem placed_payload {s_id : BitVec 32} {len n : Nat} {buf : List Octet} (h : σ.Placed)
    (hr : σ.reader = .reading s_id len buf) :
    Placed { σ with
      wire := σ.wire.drop n, reader := .reading s_id len (buf ++ σ.wire.take n) } := by
  rcases h with ⟨hr', -⟩ | ⟨hr', -⟩ | ⟨e, m, rest, hm, hw, hu, ha⟩
  · rw [hr] at hr'
    cases hr'
  · rw [hr] at hr'
    cases hr'
  · cases hu with
    | header hr' => rw [hr] at hr'; cases hr'
    | payload hr' hb =>
        rw [hr] at hr'
        cases hr'
        refine .transit e m rest (hm.congr rfl) (hw.congr rfl rfl rfl) (.payload rfl ?_) ha
        calc (buf ++ σ.wire.take n) ++ (σ.wire.drop n ++ rest)
            = buf ++ ((σ.wire.take n ++ σ.wire.drop n) ++ rest) := by simp only [append_assoc]
          _ = octets false m.payload := by rw [take_append_drop, hb]

/-- The loop does not find the end of the stream: what is missing of the event is on the
wire, or has still to be written. -/
theorem Placed.not_ended {s_id : BitVec 32} {len : Nat} {buf : List Octet} (h : σ.Placed)
    (hr : σ.reader = .reading s_id len buf) (hb : buf.length < len) (hw : σ.wire = []) :
    σ.writer ≠ .closed := by
  intro hc
  rcases h with ⟨hr', -⟩ | ⟨hr', -⟩ | ⟨e, m, rest, -, hwr, hu, ha⟩
  · rw [hr] at hr'
    cases hr'
  · rw [hr] at hr'
    cases hr'
  · cases hu with
    | header hr' => rw [hr] at hr'; cases hr'
    | payload hr' hb' =>
        rw [hr] at hr'
        cases hr'
        have hnw : ¬ σ.Writing := by
          rintro ⟨_, _, _, h⟩
          rw [hc] at h
          cases h
        obtain ⟨rfl, -⟩ := hwr.eq_nil hnw
        have hlen := congrArg length hb'
        simp [hw] at hlen
        omega

/-- A full buffer is the payload of what was written, and nothing else is unread. -/
theorem Placed.called {s_id : BitVec 32} {len : Nat} {buf : List Octet} (h : σ.Placed)
    (hr : σ.reader = .reading s_id len buf) (hb : buf.length = len) :
    ∃ e m : SentEvent, σ.Stands e m ∧ (⟨s_id, buf.map Octet.value⟩ : Message) = m.toMessage ∧
      σ.calls ++ [e.toMessage] = σ.sent ∧ σ.wire = [] ∧ σ.acks = [] ∧
      ¬ σ.Writing ∧ ∀ word, σ.writer ≠ .idle word := by
  rcases h with ⟨hr', -⟩ | ⟨hr', -⟩ | ⟨e, m, rest, hm, hwr, hu, ha⟩
  · rw [hr] at hr'
    cases hr'
  · rw [hr] at hr'
    cases hr'
  · cases hu with
    | header hr' => rw [hr] at hr'; cases hr'
    | payload hr' hb' =>
        rw [hr] at hr'
        cases hr'
        have hnil : σ.wire ++ rest = [] := by
          have hlen := congrArg length hb'
          rw [length_append, length_octets] at hlen
          exact length_eq_zero_iff.1 (by omega)
        obtain ⟨hwire, rfl⟩ := append_eq_nil_iff.1 hnil
        have hbuf : buf = octets false m.payload := by rw [← hb', hnil, append_nil]
        have hidle := hwr.ne_idle
        cases hwr with
        | writing _ hn => exact absurd rfl hn
        | written hw hc =>
            refine ⟨e, m, hm, by rw [hbuf, octets_value], hc, hwire, ha, ?_, hidle⟩
            rintro ⟨_, _, _, h⟩
            rw [h] at hw
            rcases hw with ⟨_, hw⟩ | hw <;> cases hw

/-- **What was read is the event exactly if** it is as long as the first one. -/
theorem Stands.eq_iff {calls : List Message} (h : σ.Stands e m)
    (hc : calls ++ [e.toMessage] = σ.sent) : m.toMessage = e.toMessage ↔ σ.SameLength := by
  have hne : σ.sent ≠ [] := by
    rw [← hc]
    exact append_ne_nil_of_right_ne_nil _ (cons_ne_nil _ _)
  obtain ⟨n, hn⟩ : ∃ n, σ.first? = some n := by
    rw [first?, head?_eq_some_head hne]
    exact ⟨_, rfl⟩
  have hlast : σ.sent.getLast? = some e.toMessage := by rw [← hc, getLast?_concat]
  have hlen : m.payload.length = n := by rw [h.length, hn, Option.getD_some]
  rw [SameLength, hlast, hn, Option.map_some, Option.some_inj]
  constructor
  · intro heq
    rw [← hlen, heq]
  · intro heq
    exact h.eq (hlen.trans heq.symm)

/-- What is known of the length of the first event stays true. -/
theorem lengths_step (h : σ.Sound) (hs : σ.step c = some σ') :
    σ'.Lengths ∧ ∀ n ∈ σ'.first?, 0 < n ∧ n < 2 ^ 31 := by
  have hl := h.lengths
  have hb := h.bounds
  cases steps_of_step hs with
  | writeAgain | payloadAgain | payload | payloadEnds | call | callEnds | headerAgain =>
      exact ⟨hl, hb⟩
  | writeFails | unanswered => exact ⟨trivial, hb⟩
  | send hw hbehind =>
      obtain ⟨m, hm, hstands⟩ := stands_written h hw hbehind
      exact ⟨hm ▸ hstands.length, hb⟩
  | wrote hw =>
      rw [Lengths, hw] at hl
      exact ⟨hl, hb⟩
  | @finished e m rest hw =>
      rw [Lengths, hw] at hl
      refine ⟨first?_append σ e.toMessage _ hl, fun n hn ↦ ?_⟩
      obtain rfl : m.payload.length = n :=
        Option.some.inj ((first?_append σ e.toMessage _ hl).symm.trans hn)
      rw [hl]
      cases hf : σ.first? with
      | none => exact ⟨e.pos, e.bound⟩
      | some n => exact hb n hf
  | @answered len n pooled b acks w hw ha hw' =>
      rw [Lengths, hw] at hl
      refine ⟨?_, hb⟩
      rcases hw' with rfl | rfl | rfl
      · have hlt : len < 2 ^ 32 := Nat.lt_trans (hb len hl).2 (by decide)
        exact (congrArg some (toNat_lowHalf hlt)).trans hl.symm
      · trivial
      · trivial
  | @header n garbage alloc replied hr hn hrest =>
      cases n with
      | zero => exact ⟨hl, hb⟩
      | succ n =>
          rw [readEvent]
          split
          · cases replied <;> exact ⟨hl, hb⟩
          · cases replied <;> exact ⟨hl, hb⟩
          · split
            · exact ⟨hl, hb⟩
            · cases alloc <;> exact ⟨hl, hb⟩

/-- **Whole steps keep a connection well placed.** -/
theorem placed_step (h : σ.Sound) (hC : σ.Whole c) (hs : σ.step c = some σ') :
    σ'.undefined = false ∧ σ'.Placed := by
  have hd := h.defined
  have hp := h.placed
  cases steps_of_step hs with
  | writeAgain | payloadAgain => exact ⟨hd, hp⟩
  | send hw hb => exact ⟨hd, placed_send h hw hb⟩
  | wrote hw hn => exact ⟨hd, placed_wrote hp hw hn⟩
  | finished hw =>
      refine ⟨hd, placed_finished hp hw fun hr ↦ ?_⟩
      have := hC hr
      rw [unwritten, hw] at this
      exact Nat.lt_irrefl _ this
  | writeFails hw hr =>
      refine ⟨hd, .dead hr ?_⟩
      rcases hp with ⟨-, hc⟩ | ⟨hr', -⟩ | ⟨e, m, rest, -, hw', -, -⟩
      · exact hc
      · rw [hr] at hr'
        cases hr'
      · exact hw'.eq_of_writing hw
  | answered hw ha hw' => exact ⟨hd, placed_ack hp hw hw' (.inl ⟨_, ha⟩)⟩
  | unanswered hw => exact ⟨hd, placed_ack hp hw (.inr (.inl rfl)) (.inr ⟨rfl, rfl⟩)⟩
  | headerAgain hr => exact ⟨hd, placed_hangUp hp hr hC⟩
  | header hr hn hrest =>
      rcases hC with rfl | ⟨rfl, hC⟩
      · exact ⟨hd, placed_hangUp hp hr (.inr (hn.2.2 rfl).1)⟩
      · obtain rfl := length_eq_zero_iff.1 (hrest.trans (Nat.sub_self _))
        refine ⟨?_, placed_header hp hr hn.2.1 hC⟩
        obtain ⟨e, m, rest, -, -, hb, -⟩ := hp.transit_of_wire hr fun hnil ↦ by
          have := hn.2.1
          rw [hnil] at this
          exact absurd this (by decide)
        rw [readEvent_whole hb hn.2.1]
        exact hd
  | payload hr => exact ⟨hd, placed_payload hp hr⟩
  | payloadEnds hr hb hw hc => exact absurd hc (hp.not_ended hr hb hw)
  | call hr hb =>
      obtain ⟨e, m, hm, heq, hc, hwire, ha, hnw, hw⟩ := hp.called hr hb
      have hcalls := heq.trans ((hm.eq_iff hc).2 hC)
      exact ⟨hd, .quiet rfl (hcalls ▸ hc) hwire hnw (by simp [ha])
        fun word hi ↦ absurd hi (hw word)⟩
  | callEnds hr hb =>
      obtain ⟨e, m, hm, heq, hc, -⟩ := hp.called hr hb
      exact ⟨hd, .dead rfl (heq.trans ((hm.eq_iff hc).2 hC) ▸ hc)⟩

/-- **Whole steps keep a connection sound.** -/
theorem sound_step (h : σ.Sound) (hC : σ.Whole c) (hs : σ.step c = some σ') : σ'.Sound :=
  ⟨(placed_step h hC hs).1, (placed_step h hC hs).2, (lengths_step h hs).1, (lengths_step h hs).2⟩

/-- What was read instead of the event is not it. -/
theorem not_prefix_of_called {s_id : BitVec 32} {len : Nat} {buf : List Octet} (h : σ.Placed)
    (hr : σ.reader = .reading s_id len buf) (hb : buf.length = len) (hC : ¬ σ.SameLength) :
    ¬ σ.calls ++ [⟨s_id, buf.map Octet.value⟩] <+: σ.sent := by
  obtain ⟨e, m, hm, heq, hc, -⟩ := h.called hr hb
  intro hpre
  rw [← hc, heq, prefix_append_right_inj] at hpre
  exact hC ((hm.eq_iff hc).1 (cons_prefix_cons.1 hpre).1)

/-- **A step that is not whole breaks the framing**, at once. -/
theorem breaks_step (h : σ.Sound) (hC : ¬ σ.Whole c) (hs : σ.step c = some σ') :
    ¬ σ'.Framed := by
  have hp := h.placed
  cases steps_of_step hs with
  | writeAgain | payloadAgain | send | writeFails | answered | unanswered | payload
  | payloadEnds => exact absurd trivial hC
  | call hr hb | callEnds hr hb =>
      exact fun hf ↦ not_prefix_of_called hp hr hb hC hf.calls
  | wrote hw hn => exact absurd (fun _ ↦ by rw [unwritten, hw]; exact hn) hC
  | @finished e m rest hw =>
      have hr : σ.reader = .closed := by
        by_contra hr
        exact hC fun hr' ↦ absurd hr' hr
      intro hf
      rcases hp with ⟨-, hc⟩ | ⟨hr', -⟩ | ⟨_, _, _, -, -, hu, -⟩
      · have := hf.all (.inl hr)
        simp [hc] at this
      · rw [hr] at hr'
        cases hr'
      · cases hu with
        | header hr' | payload hr' => rw [hr] at hr'; cases hr'
  | headerAgain hr =>
      obtain ⟨hnw, hwire⟩ := not_or.1 hC
      obtain ⟨e, m, rest, -, hw, -, -⟩ := hp.transit_of_wire hr hwire
      intro hf
      have := hf.all (.inl rfl)
      simp [hangUp, ← (hw.eq_nil hnw).2] at this
  | @header n garbage alloc replied hr hn hrest =>
      obtain ⟨hn₀, hC'⟩ := not_or.1 hC
      obtain ⟨k, rfl⟩ := Nat.exists_eq_succ_of_ne_zero hn₀
      have hne : σ.wire ≠ [] := fun hnil ↦ by
        have := hn.2.1
        simp [hnil] at this
      obtain ⟨e, m, rest, -, hw, hb, -⟩ := hp.transit_of_wire hr hne
      intro hf
      rcases Nat.lt_or_eq_of_le hn.1 with hlt | heq
      · have := hf.defined
        rw [readEvent_short hb hn.2.1 hlt] at this
        cases this
      · -- the header is whole, and there was no memory for the payload of a whole event
        rw [heq] at hf hn hrest hC'
        obtain rfl := length_eq_zero_iff.1 (hrest.trans (Nat.sub_self _))
        rw [readEvent_whole hb hn.2.1] at hf
        obtain ⟨halloc, hnw⟩ := not_or.1 fun h' ↦ hC' ⟨rfl, h'⟩
        have := hf.all (.inl (by simp [halloc]))
        simp [← (hw.eq_nil hnw).2] at this

end Preserve

/-! ## The result -/

/-- **When framing survives.**  Over a run of a connection, the calls of
`emmit_packed_event` are the events that were written, in order, with no byte of a header
undefined or in a payload, iff every step is whole. -/
theorem framed_iff {tr : List (Connection × Call)} {σ : Connection}
    (h : Run step accepted tr σ) :
    (∀ x ∈ visited tr σ, x.Framed) ↔ ∀ p ∈ tr, p.1.Whole p.2 :=
  h.forall_visited_iff (I := Sound) sound_accepted (fun _ _ _ hI hC hs ↦ sound_step hI hC hs)
    (fun _ hI ↦ hI.framed) (fun _ _ _ hI hC hs ↦ breaks_step hI hC hs)

/-- One byte for stage 3. -/
def oneByte : SentEvent := ⟨⟨3, [65]⟩, by decide, by decide⟩

/-- The first `read` of the receiver returns when one byte has arrived. -/
def shortHeader : List Call :=
  [.send oneByte [], .write (.bytes 1),
    .readHeader (.bytes 1) [0, 0, 0, 0, 1, 0, 0, 0, 0, 0, 0, 0] true true, .write (.bytes 13),
    .readPayload (.bytes 1), .emmitPacked 0 true]

/-- **A header that arrives in two parts is a header twice**: after `shortHeader`, stage 0
has been called with a byte of the header, and stage 3 has not. -/
theorem framing_fails :
    ¬ ∀ (tr : List (Connection × Call)) (σ : Connection), Run step accepted tr σ →
      ∀ x ∈ visited tr σ, x.Framed := by
  intro h
  obtain ⟨σ, hσ⟩ : ∃ σ, exec step accepted shortHeader = some σ := ⟨_, rfl⟩
  have hx := (h _ σ (Run.of_exec hσ) σ (by simp [visited])).calls
  obtain rfl := Option.some.inj hσ
  exact absurd hx (by decide)

/-- Two bytes for stage 3. -/
def twoBytes : SentEvent := ⟨⟨3, [66, 67]⟩, by decide, by decide⟩

/-- Over the socket of an event of one byte, an event of two bytes is cut, though every header
is read in full. -/
example : (exec step accepted
    [.send oneByte [], .write (.bytes 14), .readHeader (.bytes 13) [] true true,
      .readPayload (.bytes 1), .emmitPacked 0 true, .readAck (.bytes 1) true,
      .send twoBytes [], .write (.bytes 14), .readHeader (.bytes 13) [] true true,
      .readPayload (.bytes 1), .emmitPacked 0 true]).map Connection.calls =
    some [⟨3, [65]⟩, ⟨3, [66]⟩] := by
  decide

/-- Another byte, for stage 5. -/
def otherByte : SentEvent := ⟨⟨5, [66]⟩, by decide, by decide⟩

/-- The writes are partial, and each header is there when it is read; the second event goes
over the socket of the first. -/
def wholeHeader : List Call :=
  [.send oneByte [], .write (.bytes 1), .write .again, .write (.bytes 12),
    .readHeader (.bytes 13) [] true true, .readPayload .again, .write (.bytes 1),
    .readPayload (.bytes 1), .emmitPacked 0 true, .readAck (.bytes 1) true,
    .send otherByte [], .write (.bytes 14), .readHeader (.bytes 13) [] true true,
    .readPayload (.bytes 1), .emmitPacked 0 true]

/-- `framed_iff` at `wholeHeader`. -/
theorem framed_wholeHeader :
    ∃ σ, exec step accepted wholeHeader = some σ ∧ σ.calls = [⟨3, [65]⟩, ⟨5, [66]⟩] ∧
      ∀ x ∈ visited (execTrace step accepted wholeHeader) σ, x.Framed := by
  obtain ⟨σ, hσ⟩ : ∃ σ, exec step accepted wholeHeader = some σ := ⟨_, rfl⟩
  have hx := (framed_iff (Run.of_exec hσ)).2
  obtain rfl := Option.some.inj hσ
  exact ⟨_, rfl, rfl, hx (by decide)⟩

end Leda.Event.Connection
