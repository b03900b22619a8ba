import Mathlib.Logic.Function.Basic
import Leda.Event.Wire
import Leda.Lib.Run

/-!
# A pool of connections

Any number of threads call `send_sync_event` for one process.  They share the queue
`sockets[dst_id]`: a call takes a connection out of it or opens a new one, writes its
frame in as many calls of `write` as it takes, waits for one byte, and puts the
connection back if that byte is `1`.  At the other end `do_read` runs `read_event` on a
connection whenever there is something to read, and closes it when `read_event` does not
return `0`.

Connections break when they like: every `write` and every `read`, at either end, may
fail or find the end of the stream, whatever is on its way.  What does arrive arrives in
order.

The queue holds pointers, and `TRY_PUSH` and `TRY_POP` move eight bytes: the descriptor and
the low half of `len` behind it.  So a call that takes a connection out of the queue goes on
with a `len` whose low half is that of the call that put it there (`Message.written`).

Every byte on the wire remembers the call that wrote it, every answer the bytes it
answers, and a log keeps what was passed to `emmit_packed_event`, with its result, what
the calls returned, and which answer they went by.  The code does not look at any of this.
A connection remembers the last call that got hold of it.

A descriptor is closed by `send_sync_event` only where that call holds it and nobody
else, so connections stand for themselves, and not for numbers.
-/

universe u

namespace Leda.Event

open Leda.Lib List

/-! ## The state -/

/-- A message whose length is a `size_t`. -/
structure Packed extends Message where
  bound : payload.length < 256 ^ 8
deriving DecidableEq

/-- A call of `send_sync_event`. -/
structure SyncCall where
  /-- The number of the call. -/
  id : Nat
  /-- The arguments. -/
  message : Packed
deriving DecidableEq

/-- A byte, and the call that wrote it. -/
structure Written where
  value : UInt8
  call : SyncCall
deriving DecidableEq

namespace SyncCall

/-- Bytes that the call writes. -/
def wrote (f : SyncCall) (b : List UInt8) : List Written := b.map fun v ↦ ⟨v, f⟩

/-- Its `buffer`, if it writes `m`. -/
def buffer (f : SyncCall) (m : Message) : List Written := f.wrote (header m ++ m.payload)

end SyncCall

/-- How a `write` or `read` ended. -/
inductive Outcome
  | /-- It moved so many bytes; for `read`, `0` is the end of the stream. -/
    bytes (n : Nat)
  | /-- `EAGAIN`. -/
    again
  | /-- Any other error. -/
    error
deriving Repr, DecidableEq

/-- An answer of the receiver, and what it answers. -/
structure Answer where
  value : UInt8
  /-- Who wrote the bytes of the frame. -/
  writers : List SyncCall
deriving DecidableEq

/-- Where `do_read` is with a connection. -/
inductive PoolReader
  | /-- In the event loop. -/
    listening
  | /-- In the loop of `read_event`, with a header behind it. -/
    reading (s_id : BitVec 32) (len : Nat) (header buf : List Written)
  | closed
deriving DecidableEq

/-- A connection to the process. -/
structure Conn where
  /-- Written, and not read. -/
  wire : List Written
  reader : PoolReader
  /-- The answers, on their way back. -/
  acks : List Answer
  /-- The last call that got hold of the connection. -/
  user : Option SyncCall
deriving DecidableEq

/-- A call of `emmit_packed_event`. -/
structure Emmitted where
  message : Message
  /-- Who wrote the bytes of the frame. -/
  writers : List SyncCall
  /-- What it returned. -/
  res : Int
deriving DecidableEq

/-- How a call of `send_sync_event` ends. -/
inductive Result
  | true
  | false
  | /-- The error of `write` is the number of results. -/
    fails
deriving Repr, DecidableEq

/-- Where a thread is. -/
inductive Point
  | /-- Not in `send_sync_event`. -/
    out
  | /-- At `TRY_POP`. -/
    start (f : SyncCall)
  | /-- `TRY_POP` has found nothing. -/
    connecting (f : SyncCall)
  | /-- `len` is what the variable of that name holds. -/
    writing (f : SyncCall) (c len : Nat) (rest : List Written)
  | awaitAck (f : SyncCall) (c len : Nat)
deriving DecidableEq

/-- The call that is at `TRY_POP`. -/
def Point.starting? : Point → Option SyncCall
  | .start f => some f
  | _ => none

/-- The senders, the connections, and the logs. -/
structure Net (T : Type u) where
  thread : T → Point
  /-- `sockets[dst_id]`: the connections, and the bytes that were behind `sockfd`. -/
  pool : List (Nat × BitVec 32)
  conn : Nat → Conn
  /-- The number of connections that were opened. -/
  opened : Nat
  /-- The number of calls of `send_sync_event`. -/
  begun : Nat
  emmitted : List Emmitted
  returned : List (SyncCall × Result)
  /-- Who went by which answer. -/
  credited : List (SyncCall × Answer)

/-! ## The receiver -/

/-- A step of the receiver on one connection. -/
inductive Receive
  | /-- `read_event` reads the header; `rest` is what the array held, `alloc` says whether
    `malloc` returns a buffer, `replied` whether an answer could be written. -/
    header (r : Outcome) (rest : List UInt8) (alloc replied : Bool)
  | /-- Once around the loop of `read_event`. -/
    payload (r : Outcome)
  | /-- `emmit_packed_event` returns `res`. -/
    emmitPacked (res : Int) (replied : Bool)
deriving DecidableEq

namespace Conn

/-- A connection that has just been opened. -/
def fresh : Conn := ⟨[], .listening, [], none⟩

/-- `do_read` closes the connection. -/
def hangUp (k : Conn) : Conn := { k with reader := .closed }

/-- Write an answer to the bytes of a frame. -/
def reply (k : Conn) (b : UInt8) (frame : List Written) (replied : Bool) : Conn :=
  if replied then { k with acks := k.acks ++ [⟨b, frame.map Written.call⟩] } else k

/-- `read_event` up to the loop, when `n + 1` bytes were read. -/
def readEvent (k : Conn) (rest : List UInt8) (alloc replied : Bool) (n : Nat) : Conn :=
  let hdr := k.wire.take (n + 1)
  let k' := { k with wire := k.wire.drop (n + 1) }
  match readHeader (hdr.map Written.value ++ rest) with
  | .init => (k'.reply 4 hdr replied).hangUp
  | .notAnEvent => (k'.reply 3 hdr replied).hangUp
  | .event s_id len =>
      if NotPositive len then k'.hangUp
      else if alloc then { k' with reader := .reading s_id len hdr [] }
      else k'.hangUp

/-- What the receiver does with one connection: the connection, and the calls of
`emmit_packed_event`. -/
def receive (k : Conn) : Receive → Option (Conn × List Emmitted)
  | .header r rest alloc replied =>
      if k.reader = .listening then
        match r with
        | .bytes (n + 1) =>
            if n + 1 ≤ headerSize ∧ n + 1 ≤ k.wire.length ∧ rest.length = headerSize - (n + 1) then
              some (k.readEvent rest alloc replied n, [])
            else none
        | _ => some (k.hangUp, [])
      else none
  | .payload r =>
      match k.reader with
      | .reading s_id len hdr buf =>
          if buf.length < len then
            match r with
            | .bytes (n + 1) =>
                -- `readed` is an `int`: past its range the behaviour is undefined
                if n + 1 ≤ len - buf.length ∧ n + 1 ≤ k.wire.length ∧
                    buf.length + (n + 1) < 2 ^ 31 then
                  some ({ k with
                    wire := k.wire.drop (n + 1)
                    reader := .reading s_id len hdr (buf ++ k.wire.take (n + 1)) }, [])
                else none
            | .again => some (k, [])
            | _ => some (k.hangUp, [])
          else none
      | _ => none
  | .emmitPacked res replied =>
      match k.reader with
      | .reading s_id len hdr buf =>
          if buf.length = len then
            let k' := k.reply (if res = 0 then 1 else 2) (hdr ++ buf) replied
            some ({ k' with reader := if replied then .listening else .closed },
              [⟨⟨s_id, buf.map Written.value⟩, (hdr ++ buf).map Written.call, res⟩])
          else none
      | _ => none

end Conn

/-! ## All steps -/

/-- A step. -/
inductive NetStep (T : Type u)
  | call (t : T) (m : Packed)
  | /-- `behind` is what `memcpy` reads behind the payload. -/
    tryPop (t : T) (behind : List UInt8)
  | /-- `socket` and `connect`. -/
    connect (t : T) (ok : Bool)
  | write (t : T) (r : Outcome)
  | /-- `pooled` says whether the connection fits in the queue again. -/
    readAck (t : T) (r : Outcome) (pooled : Bool)
  | receive (c : Nat) (r : Receive)
deriving DecidableEq

/-- A header arrives in one read, if it arrives. -/
def Receive.OneRead : Receive → Prop
  | .header (.bytes n) .. => n = 0 ∨ n = headerSize
  | _ => True

/-- The same for all steps. -/
def NetStep.OneRead {T : Type u} : NetStep T → Prop
  | .receive _ r => r.OneRead
  | _ => True

namespace Net

variable {T : Type u}

/-- Before anything has happened. -/
def init : Net T := ⟨fun _ ↦ .out, [], fun _ ↦ .fresh, 0, 0, [], [], []⟩

/-- Change one connection. -/
def setConn (σ : Net T) (c : Nat) (k : Conn) : Net T :=
  { σ with conn := Function.update σ.conn c k }

variable [DecidableEq T]

/-- Move one thread. -/
def goto (σ : Net T) (t : T) (p : Point) : Net T :=
  { σ with thread := Function.update σ.thread t p }

/-- A call of `send_sync_event` has a connection, and fills its `buffer` with `m`. -/
def use (σ : Net T) (t : T) (f : SyncCall) (c : Nat) (m : Message) : Net T :=
  (σ.setConn c { σ.conn c with user := some f }).goto t
    (.writing f c m.payload.length (f.buffer m))

/-- A call of `send_sync_event` returns. -/
def ret (σ : Net T) (t : T) (f : SyncCall) (r : Result) : Net T :=
  { σ.goto t .out with returned := σ.returned ++ [(f, r)] }

/-- A call of `send_sync_event` has read an answer. -/
def answered (σ : Net T) (t : T) (f : SyncCall) (c len : Nat) (a : Answer) (pooled : Bool) :
    Net T :=
  let σ' := { σ with credited := σ.credited ++ [(f, a)] }
  if a.value = 1 then
    (if pooled then { σ' with pool := σ.pool ++ [(c, lowHalf len)] } else σ').ret t f .true
  else σ'.ret t f .false

/-- One step. -/
def step (σ : Net T) : NetStep T → Option (Net T)
  | .call t m =>
      if σ.thread t = .out then
        some { σ.goto t (.start ⟨σ.begun, m⟩) with begun := σ.begun + 1 }
      else none
  | .tryPop t behind =>
      match σ.thread t, σ.pool with
      | .start f, [] => some (σ.goto t (.connecting f))
      | .start f, (c, word) :: pool =>
          let len := f.message.payload.length
          if behind.length = tryPopLen (some word) len - len then
            some ({ σ with pool }.use t f c (f.message.written (some word) behind))
          else none
      | _, _ => none
  | .connect t ok =>
      match σ.thread t with
      | .connecting f =>
          if ok then
            some ({ σ with opened := σ.opened + 1 }.use t f σ.opened f.message.toMessage)
          else some (σ.ret t f .false)
      | _ => none
  | .write t r =>
      match σ.thread t with
      | .writing f c len rest =>
          match r with
          | .bytes n =>
              if n ≤ rest.length then
                let σ' := σ.setConn c { σ.conn c with wire := (σ.conn c).wire ++ rest.take n }
                if n < rest.length then some (σ'.goto t (.writing f c len (rest.drop n)))
                else some (σ'.goto t (.awaitAck f c len))
              else none
          | .again => some σ
          | .error => some (σ.ret t f .fails)
      | _ => none
  | .readAck t r pooled =>
      match σ.thread t with
      | .awaitAck f c len =>
          match r with
          | .bytes 1 =>
              match (σ.conn c).acks with
              | a :: acks =>
                  some ((σ.setConn c { σ.conn c with acks }).answered t f c len a pooled)
              | [] => none
          | .bytes 0 | .again | .error => some (σ.ret t f .false)
          | _ => none
      | _ => none
  | .receive c r =>
      if c < σ.opened then
        ((σ.conn c).receive r).map fun p ↦
          { σ.setConn c p.1 with emmitted := σ.emmitted ++ p.2 }
      else none

/-- **A call that takes a connection out of the pool keeps its `len`**: the bytes that come
with the connection are the low half of the length of its own event. -/
def SameLength (σ : Net T) : NetStep T → Prop
  | .tryPop t _ => ∀ f ∈ (σ.thread t).starting?, ∀ p ∈ σ.pool.head?,
      tryPopLen (some p.2) f.message.payload.length = f.message.payload.length
  | _ => True

instance (σ : Net T) : (l : NetStep T) → Decidable (σ.SameLength l)
  | .tryPop .. => inferInstanceAs (Decidable (∀ _ ∈ _, ∀ _ ∈ _, _ = _))
  | .call .. | .connect .. | .write .. | .readAck .. | .receive .. => .isTrue trivial

end Net

end Leda.Event
