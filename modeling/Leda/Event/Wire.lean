import Leda.Lib.Bytes

/-!
# The frame of an event

What `send_sync_event` and `send_async_event` write for an event: a header, that is, the
type of the message, the `stage_id` and the `size_t` length of the payload as they are in
memory, and the payload.  `readHeader` is the part of `read_event` that takes a header
apart again.  `readHeader_header` is the round trip.

`send_sync_event` takes its socket from a queue of pointers, with `TRY_POP`, which stores
eight bytes at the address of `sockfd`, an `int`.  As it is compiled, the four bytes behind
are the low half of `len`, and `TRY_PUSH` has taken them from there.  So over a connection
that was in use before, an event is announced with the length of the event before it
(`tryPopLen`, `Message.written`).
-/

namespace Leda.Event

open Leda.Lib

/-- `EVENT_TYPE`. -/
def eventType : UInt8 := 28

/-- `INIT_TYPE`. -/
def initType : UInt8 := 27

/-- `sizeof(stage_id)+sizeof(size_t)+1`. -/
def headerSize : Nat := 4 + 8 + 1

/-- An event as the peers see it: a `stage_id`, and a payload. -/
structure Message where
  stage : BitVec 32
  payload : List UInt8
deriving Repr, DecidableEq

/-- An event that can be sent: its length fits a positive `int`. -/
structure SentEvent extends Message where
  pos : 0 < payload.length
  bound : payload.length < 2 ^ 31
deriving DecidableEq

/-- The header of an event. -/
def header (m : Message) : List UInt8 :=
  eventType :: (le 4 m.stage.toNat ++ le 8 m.payload.length)

/-- What `read_event` makes of the `header_size` bytes of its buffer. -/
inductive Header
  | init
  | notAnEvent
  | event (s_id : BitVec 32) (len : Nat)
deriving Repr, DecidableEq

/-- The part of `read_event` that looks at the header. -/
def readHeader (b : List UInt8) : Header :=
  if b.head? = some initType then .init
  else if b.head? ≠ some eventType then .notAnEvent
  else .event (.ofNat 32 (ofLe ((b.drop 1).take 4))) (ofLe ((b.drop 5).take 8))

/-- `(int)len<=0`. -/
def NotPositive (len : Nat) : Prop := (BitVec.ofNat 32 len).toInt ≤ 0

instance (len : Nat) : Decidable (NotPositive len) := inferInstanceAs (Decidable (_ ≤ _))

@[simp] theorem length_header (m : Message) : (header m).length = headerSize := by
  simp [header, headerSize]

/-- Every buffer that starts with `EVENT_TYPE` is taken for the header of an event. -/
theorem readHeader_eventType (b : List UInt8) :
    readHeader (eventType :: b) = .event (.ofNat 32 (ofLe (b.take 4))) (ofLe ((b.drop 4).take 8)) :=
  rfl

/-- **A header is read back** as it was written, if the length is a `size_t`. -/
theorem readHeader_header_of_lt {m : Message} (hlen : m.payload.length < 256 ^ 8) :
    readHeader (header m) = .event m.stage m.payload.length := by
  have hid : ofLe (le 4 m.stage.toNat) = m.stage.toNat := ofLe_le_of_lt m.stage.isLt
  rw [header, readHeader_eventType]
  simp [List.take_of_length_le, hid, ofLe_le_of_lt hlen]

/-! ## Sockets that were in use -/

/-- The bytes behind `sockfd`, which `TRY_PUSH` takes along. -/
def lowHalf (len : Nat) : BitVec 32 := .ofNat 32 len

/-- `len` behind `TRY_POP`, which has found no socket, or one with these bytes. -/
def tryPopLen (word : Option (BitVec 32)) (len : Nat) : Nat :=
  match word with
  | none => len
  | some w => len / 2 ^ 32 * 2 ^ 32 + w.toNat

/-- What is written for an event: `memcpy` copies `len` bytes, those `behind` the payload in
memory if these are more. -/
def Message.written (m : Message) (word : Option (BitVec 32)) (behind : List UInt8) : Message :=
  { m with payload := (m.payload ++ behind).take (tryPopLen word m.payload.length) }

section Written

variable {m : Message} {word : Option (BitVec 32)} {behind : List UInt8} {len : Nat}

theorem tryPopLen_of_lt (h : len < 2 ^ 32) :
    tryPopLen word len = (word.map BitVec.toNat).getD len := by
  cases word with
  | none => rfl
  | some w =>
      rw [tryPopLen, Nat.div_eq_of_lt h, Nat.zero_mul, Nat.zero_add]
      rfl

theorem toNat_lowHalf (h : len < 2 ^ 32) : (lowHalf len).toNat = len := by
  rw [lowHalf, BitVec.toNat_ofNat, Nat.mod_eq_of_lt h]

/-- The header announces as many bytes as are written behind it. -/
theorem Message.length_written
    (h : behind.length = tryPopLen word m.payload.length - m.payload.length) :
    (m.written word behind).payload.length = tryPopLen word m.payload.length := by
  rw [written, List.length_take, List.length_append]
  omega

/-- **An event that is announced with its own length is written as it is.** -/
theorem Message.written_eq_self (h : tryPopLen word m.payload.length = m.payload.length) :
    m.written word behind = m := by
  rw [written, h, List.take_left]

end Written

/-- The header of an event that can be sent is read back. -/
theorem readHeader_header (e : SentEvent) :
    readHeader (header e.toMessage) = .event e.stage e.payload.length :=
  readHeader_header_of_lt (Nat.lt_trans e.bound (by decide))

/-- The length of an event that can be sent is not taken for a wrong one. -/
theorem SentEvent.not_notPositive (e : SentEvent) : ¬ NotPositive e.payload.length := by
  have hp := e.pos
  have hb := e.bound
  have hmod : e.payload.length % 2 ^ 32 = e.payload.length := Nat.mod_eq_of_lt (by omega)
  have hi : (BitVec.ofNat 32 e.payload.length).toInt = e.payload.length := by
    rw [BitVec.toInt_eq_toNat_of_lt]
    · rw [BitVec.toNat_ofNat, hmod]
    · rw [BitVec.toNat_ofNat, hmod]
      omega
  unfold NotPositive
  omega

end Leda.Event
