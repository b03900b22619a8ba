import Leda.Event.Wire
import Leda.Lib.Run

/-!
# One connection

A process that sends events over a socket with `send_sync_event`, one after the other,
and the process that reads them with `read_event`.  Every call of `write` and `read` is a
step, and an oracle says how many bytes it moved, or that it returned `EAGAIN`.  The
bytes in between are a list; nothing is lost or reordered there.

From the second event on the socket is one that was in the pool, and the bytes that were
kept beside it have become the low half of `len`: what is written is then
`Message.written`, which need not be the event.

A byte on the wire remembers whether it is one of a header, and the connection remembers
whether a header was interpreted that was not read in full.  Nobody looks at either.

`Steps` says what a step can do, and `steps_of_step` that it does nothing else.
-/

namespace Leda.Event

open Leda.Lib List

/-! ## The machine -/

/-- A byte on the wire. -/
structure Octet where
  value : UInt8
  header : Bool
deriving Repr, DecidableEq

/-- Bytes of a header, or of a payload. -/
def octets (header : Bool) (b : List UInt8) : List Octet := b.map fun v ↦ ⟨v, header⟩

/-- The `buffer` of `send_sync_event`. -/
def frame (m : Message) : List Octet := octets true (header m) ++ octets false m.payload

/-- What a `read` or `write` returned. -/
inductive IoResult
  | bytes (n : Nat)
  | again
deriving Repr, DecidableEq

/-- Where the sending process is with this socket. -/
inductive Writer
  | /-- It is in `sockets[dst_id]`, for the next call, with the bytes `word` beside it; there
    are none if the next call is the one that connects. -/
    idle (word : Option (BitVec 32))
  | /-- `e` is sent, as `m`. -/
    writing (e : SentEvent) (m : Message) (rest : List Octet)
  | /-- `len` is what the variable of that name holds. -/
    awaitAck (len : Nat)
  | /-- The last call returned an error, and nobody has the socket. -/
    leaked
  | closed
deriving DecidableEq

/-- Where the receiving process is. -/
inductive Reader
  | /-- In the event loop: `do_read` will be called. -/
    listening
  | /-- In the loop of `read_event`. -/
    reading (s_id : BitVec 32) (len : Nat) (buf : List Octet)
  | closed
deriving DecidableEq

/-- The connection, the events that were written to it in full, and the calls of
`emmit_packed_event`. -/
structure Connection where
  writer : Writer
  wire : List Octet
  reader : Reader
  /-- The bytes of the receiver, on their way back. -/
  acks : List UInt8
  sent : List Message
  calls : List Message
  /-- A header was interpreted that was not read in full. -/
  undefined : Bool
deriving DecidableEq

/-- A step. -/
inductive Call
  | /-- `send_sync_event` gets hold of the socket; `behind` is what `memcpy` reads behind the
    payload. -/
    send (e : SentEvent) (behind : List UInt8)
  | write (r : IoResult)
  | /-- `write` fails, because the receiver has closed the connection. -/
    writeFails
  | /-- `send_sync_event` reads the answer; `pooled` says whether the socket fits in
    `sockets[dst_id]` again. -/
    readAck (r : IoResult) (pooled : Bool)
  | /-- `read_event` reads the header; `rest` is what the array held, `alloc` says whether
    `malloc` returns a buffer, `replied` whether an answer could be written. -/
    readHeader (r : IoResult) (rest : List UInt8) (alloc replied : Bool)
  | readPayload (r : IoResult)
  | /-- `emmit_packed_event` returns `res`. -/
    emmitPacked (res : Int) (replied : Bool)
deriving DecidableEq

namespace Connection

/-- Write an answer. -/
def reply (σ : Connection) (b : UInt8) (replied : Bool) : Connection :=
  if replied then { σ with acks := σ.acks ++ [b] } else σ

/-- `do_read` closes the connection when `read_event` does not return `0`. -/
def hangUp (σ : Connection) : Connection := { σ with reader := .closed }

/-- `read` with a buffer for `asked` bytes: at least one byte, or none when nothing is left
and the sender has closed the connection. -/
def CanRead (σ : Connection) (asked n : Nat) : Prop :=
  n ≤ asked ∧ n ≤ σ.wire.length ∧ (n = 0 → σ.wire = [] ∧ σ.writer = .closed)

instance (σ : Connection) (asked n : Nat) : Decidable (σ.CanRead asked n) :=
  inferInstanceAs (Decidable (_ ∧ _))

/-- `read_event` up to the loop. -/
def readEvent (σ : Connection) (rest : List UInt8) (alloc replied : Bool) : Nat → Connection
  | 0 => σ.hangUp
  | n + 1 =>
      let σ' := { σ with wire := σ.wire.drop (n + 1) }
      match Leda.Event.readHeader ((σ.wire.take (n + 1)).map Octet.value ++ rest) with
      | .init => (σ'.reply 4 replied).hangUp
      | .notAnEvent => (σ'.reply 3 replied).hangUp
      | .event s_id len =>
          let σ' := { σ' with undefined := σ.undefined || decide (n + 1 < headerSize) }
          if NotPositive len then σ'.hangUp
          else if alloc then { σ' with reader := .reading s_id len [] }
          else σ'.hangUp

/-- One step. -/
def step (σ : Connection) : Call → Option Connection
  | .send e behind =>
      match σ.writer with
      | .idle word =>
          if behind.length = tryPopLen word e.payload.length - e.payload.length then
            let m := e.written word behind
            some { σ with writer := .writing e m (frame m) }
          else none
      | _ => none
  | .write .again =>
      match σ.writer with
      | .writing .. => some σ
      | _ => none
  | .write (.bytes n) =>
      match σ.writer with
      | .writing e m rest =>
          if n < rest.length then
            some { σ with writer := .writing e m (rest.drop n), wire := σ.wire ++ rest.take n }
          else if n = rest.length then
            some { σ with
              writer := .awaitAck m.payload.length
              wire := σ.wire ++ rest
              sent := σ.sent ++ [e.toMessage] }
          else none
      | _ => none
  | .writeFails =>
      match σ.writer, σ.reader with
      | .writing .., .closed => some { σ with writer := .closed }
      | _, _ => none
  | .readAck .again _ =>
      match σ.writer with
      | .awaitAck _ => some { σ with writer := .closed }
      | _ => none
  | .readAck (.bytes n) pooled =>
      match σ.writer with
      | .awaitAck len =>
          match n, σ.acks with
          | 1, b :: acks =>
              let writer : Writer :=
                if b = 1 then (if pooled then .idle (some (lowHalf len)) else .closed)
                else .leaked
              some { σ with writer, acks }
          | 0, [] => if σ.reader = .closed then some { σ with writer := .closed } else none
          | _, _ => none
      | _ => none
  | .readHeader .again _ _ _ =>
      if σ.reader = .listening then some σ.hangUp else none
  | .readHeader (.bytes n) rest alloc replied =>
      if σ.reader = .listening ∧ σ.CanRead headerSize n ∧ rest.length = headerSize - n then
        some (σ.readEvent rest alloc replied n)
      else none
  | .readPayload r =>
      match σ.reader with
      | .reading s_id len buf =>
          if buf.length < len then
            match r with
            | .again => some σ
            | .bytes n =>
                -- `readed` is an `int`: past its range the behaviour is undefined
                if σ.CanRead (len - buf.length) n ∧ buf.length + n < 2 ^ 31 then
                  if n = 0 then some σ.hangUp
                  else some { σ with
                    wire := σ.wire.drop n
                    reader := .reading s_id len (buf ++ σ.wire.take n) }
                else none
          else none
      | _ => none
  | .emmitPacked res replied =>
      match σ.reader with
      | .reading s_id len buf =>
          if buf.length = len then
            let e : Message := ⟨s_id, buf.map Octet.value⟩
            let σ' := { σ with calls := σ.calls ++ [e] }
            some { σ'.reply (if res = 0 then 1 else 2) replied with
              reader := if replied then .listening else .closed }
          else none
      | _ => none

/-- A connection that was accepted. -/
def accepted : Connection where
  writer := .idle none
  wire := []
  reader := .listening
  acks := []
  sent := []
  calls := []
  undefined := false

/-! ## Steps -/

/-- The sender is in the loop that writes an event. -/
def Writing (σ : Connection) : Prop := ∃ e m rest, σ.writer = .writing e m rest

instance (σ : Connection) : Decidable σ.Writing :=
  match h : σ.writer with
  | .writing e m rest => .isTrue ⟨e, m, rest, h⟩
  | .idle _ | .awaitAck _ | .leaked | .closed => .isFalse <| by
      rintro ⟨_, _, _, h'⟩
      rw [h] at h'
      cases h'

/-- **What a step can do.** -/
inductive Steps (σ : Connection) : Call → Connection → Prop
  | send {e : SentEvent} {word : Option (BitVec 32)} {behind : List UInt8}
      (hw : σ.writer = .idle word)
      (hb : behind.length = tryPopLen word e.payload.length - e.payload.length) :
      Steps σ (.send e behind)
        { σ with writer := .writing e (e.written word behind) (frame (e.written word behind)) }
  | wrote {e : SentEvent} {m : Message} {rest : List Octet} {n : Nat}
      (hw : σ.writer = .writing e m rest) (hn : n < rest.length) : Steps σ (.write (.bytes n))
        { σ with writer := .writing e m (rest.drop n), wire := σ.wire ++ rest.take n }
  | finished {e : SentEvent} {m : Message} {rest : List Octet}
      (hw : σ.writer = .writing e m rest) :
      Steps σ (.write (.bytes rest.length)) { σ with
        writer := .awaitAck m.payload.length
        wire := σ.wire ++ rest
        sent := σ.sent ++ [e.toMessage] }
  | writeAgain (hw : σ.Writing) : Steps σ (.write .again) σ
  | writeFails (hw : σ.Writing) (hr : σ.reader = .closed) :
      Steps σ .writeFails { σ with writer := .closed }
  | answered {len n : Nat} {pooled : Bool} {b : UInt8} {acks : List UInt8} {w : Writer}
      (hw : σ.writer = .awaitAck len) (ha : σ.acks = b :: acks)
      (hw' : w = .idle (some (lowHalf len)) ∨ w = .closed ∨ w = .leaked) :
      Steps σ (.readAck (.bytes n) pooled) { σ with writer := w, acks }
  | unanswered {len : Nat} {r : IoResult} {pooled : Bool} (hw : σ.writer = .awaitAck len) :
      Steps σ (.readAck r pooled) { σ with writer := .closed }
  | headerAgain {rest : List UInt8} {alloc replied : Bool} (hr : σ.reader = .listening) :
      Steps σ (.readHeader .again rest alloc replied) σ.hangUp
  | header {n : Nat} {rest : List UInt8} {alloc replied : Bool} (hr : σ.reader = .listening)
      (hn : σ.CanRead headerSize n) (hrest : rest.length = headerSize - n) :
      Steps σ (.readHeader (.bytes n) rest alloc replied) (σ.readEvent rest alloc replied n)
  | payloadAgain {s_id : BitVec 32} {len : Nat} {buf : List Octet}
      (hr : σ.reader = .reading s_id len buf) : Steps σ (.readPayload .again) σ
  | payload {s_id : BitVec 32} {len n : Nat} {buf : List Octet}
      (hr : σ.reader = .reading s_id len buf) (hn : σ.CanRead (len - buf.length) n) :
      Steps σ (.readPayload (.bytes n)) { σ with
        wire := σ.wire.drop n, reader := .reading s_id len (buf ++ σ.wire.take n) }
  | payloadEnds {s_id : BitVec 32} {len : Nat} {buf : List Octet}
      (hr : σ.reader = .reading s_id len buf) (hb : buf.length < len) (hw : σ.wire = [])
      (hc : σ.writer = .closed) : Steps σ (.readPayload (.bytes 0)) σ.hangUp
  | call {s_id : BitVec 32} {len : Nat} {buf : List Octet} {res : Int} {b : UInt8}
      (hr : σ.reader = .reading s_id len buf) (hb : buf.length = len) :
      Steps σ (.emmitPacked res true) { σ with
        calls := σ.calls ++ [⟨s_id, buf.map Octet.value⟩]
        acks := σ.acks ++ [b]
        reader := .listening }
  | callEnds {s_id : BitVec 32} {len : Nat} {buf : List Octet} {res : Int}
      (hr : σ.reader = .reading s_id len buf) (hb : buf.length = len) :
      Steps σ (.emmitPacked res false) { σ with
        calls := σ.calls ++ [⟨s_id, buf.map Octet.value⟩], reader := .closed }

variable {σ σ' : Connection} {c : Call}

theorem steps_send {e : SentEvent} {behind : List UInt8}
    (h : σ.step (.send e behind) = some σ') : σ.Steps (.send e behind) σ' := by
  simp only [step] at h
  split at h
  · split at h
    · cases h
      exact .send ‹_› ‹_›
    · cases h
  · cases h

theorem steps_write {r : IoResult} (h : σ.step (.write r) = some σ') :
    σ.Steps (.write r) σ' := by
  cases r with
  | again =>
      simp only [step] at h
      split at h
      · cases h
        exact .writeAgain ⟨_, _, _, ‹_›⟩
      · cases h
  | bytes n =>
      simp only [step] at h
      split at h
      · split at h
        · cases h
          exact .wrote ‹_› ‹_›
        · split at h
          · subst n
            cases h
            exact .finished ‹_›
          · cases h
      · cases h

theorem steps_writeFails (h : σ.step .writeFails = some σ') : σ.Steps .writeFails σ' := by
  simp only [step] at h
  split at h
  · cases h
    exact .writeFails ⟨_, _, _, ‹_›⟩ ‹_›
  · cases h

theorem steps_readAck {r : IoResult} {pooled : Bool} (h : σ.step (.readAck r pooled) = some σ') :
    σ.Steps (.readAck r pooled) σ' := by
  cases r with
  | again =>
      simp only [step] at h
      split at h
      · cases h
        exact .unanswered ‹_›
      · cases h
  | bytes n =>
      simp only [step] at h
      split at h
      · split at h
        · cases h
          refine .answered ‹_› ‹_› ?_
          split
          · split
            · exact .inl rfl
            · exact .inr (.inl rfl)
          · exact .inr (.inr rfl)
        · split at h
          · cases h
            exact .unanswered ‹_›
          · cases h
        · cases h
      · cases h

theorem steps_readHeader {r : IoResult} {rest : List UInt8} {alloc replied : Bool}
    (h : σ.step (.readHeader r rest alloc replied) = some σ') :
    σ.Steps (.readHeader r rest alloc replied) σ' := by
  cases r with
  | again =>
      simp only [step] at h
      split at h
      · cases h
        exact .headerAgain ‹_›
      · cases h
  | bytes n =>
      simp only [step] at h
      split at h
      · rename_i hg
        cases h
        exact .header hg.1 hg.2.1 hg.2.2
      · cases h

theorem steps_readPayload {r : IoResult} (h : σ.step (.readPayload r) = some σ') :
    σ.Steps (.readPayload r) σ' := by
  simp only [step] at h
  split at h
  · rename_i s_id len buf hr
    split at h
    · rename_i hb
      cases r with
      | again =>
          cases h
          exact .payloadAgain hr
      | bytes n =>
          simp only at h
          split at h
          · rename_i hg
            split at h
            · subst n
              cases h
              obtain ⟨hw, hc⟩ := hg.1.2.2 rfl
              exact .payloadEnds hr hb hw hc
            · cases h
              exact .payload hr hg.1
          · cases h
    · cases h
  · cases h

theorem steps_emmitPacked {res : Int} {replied : Bool}
    (h : σ.step (.emmitPacked res replied) = some σ') : σ.Steps (.emmitPacked res replied) σ' := by
  simp only [step] at h
  split at h
  · rename_i s_id len buf hr
    split at h
    · rename_i hb
      cases h
      cases replied with
      | true => exact .call hr hb
      | false => exact .callEnds hr hb
    · cases h
  · cases h

/-- `step` does nothing else. -/
theorem steps_of_step (h : σ.step c = some σ') : σ.Steps c σ' := by
  cases c with
  | send => exact steps_send h
  | write => exact steps_write h
  | writeFails => exact steps_writeFails h
  | readAck => exact steps_readAck h
  | readHeader => exact steps_readHeader h
  | readPayload => exact steps_readPayload h
  | emmitPacked => exact steps_emmitPacked h

end Connection

end Leda.Event
