import Leda.Event.Pool

/-!
# What an answer is worth

A sender trusts one byte.  That byte is right if it answers the frame the sender has just
written, so no answer and no part of a frame may be left on a connection when it goes back
into the pool.  `send_sync_event` sees to it by putting back only a connection on which it
has read a `1`, and `read_event` by answering a frame it has read to the end, and by
closing the connection otherwise.

What it does not see to is the length of the frame: over a pooled connection `len` is that of
the event before, and the receiver takes what is written for the event.  So all this holds of
runs in which no pooled connection changes a length (`SameLength`).

The invariant describes a connection from the side of whoever holds it (`View`): in the
pool it is idle at both ends, while a call writes the rest of its frame the receiver has
the part before it, and while a call waits the frame is in flight, answered or lost.
`Placed.loose` is what remains when nobody looks at the connection any more: the receiver
may still read the frame of the last call, but it reads it once.  The receiver preserves
every view (`Placed.receives`), whatever it does; so each step of a sender only has to
produce its next view.
-/

universe u

namespace Leda.Event

open Leda.Lib List

/-! ## One connection -/

namespace SyncCall

/-- The header of its event. -/
def header (f : SyncCall) : List Written := f.wrote (Leda.Event.header f.message.toMessage)

/-- The payload of its event. -/
def payload (f : SyncCall) : List Written := f.wrote f.message.payload

/-- The frame of its event. -/
def frame (f : SyncCall) : List Written := f.header ++ f.payload

/-- Such is the `buffer` if the event is written as it is. -/
theorem buffer_eq (f : SyncCall) : f.buffer f.message.toMessage = f.frame := map_append ..

end SyncCall

/-- The calls of `emmit_packed_event` for a frame. -/
def frames (L : List Emmitted) (f : SyncCall) : Nat := L.countP fun e ↦ f ∈ e.writers

/-- Who looks at a connection. -/
inductive View
  | pooled
  | writing (f : SyncCall) (rest : List Written)
  | awaiting (f : SyncCall)
  | loose

namespace Conn

variable {k k' : Conn} {L es : List Emmitted} {f : SyncCall} {rest : List Written} {v : View}

/-- Everything that was written has been read, or nobody will read any more. -/
def Idle (k : Conn) : Prop := k.wire = [] ∧ (k.reader = .listening ∨ k.reader = .closed)

/-- The receiver has what comes before the rest of the frame, or will find it. -/
inductive InFlight (k : Conn) (f : SyncCall) (rest : List Written) : Prop
  | header (hr : k.reader = .listening) (hb : k.wire ++ rest = f.frame)
  | payload {buf : List Written}
      (hr : k.reader = .reading f.message.stage f.message.payload.length f.header buf)
      (hb : buf ++ (k.wire ++ rest) = f.payload)

/-- **Where a connection can be**, as seen by whoever holds it. -/
inductive Placed (k : Conn) (L : List Emmitted) : View → Prop
  | pooled (hi : k.Idle) (ha : k.acks = []) : Placed k L .pooled
  | writing {f : SyncCall} {rest : List Written} (hu : k.user = some f) (hn : rest ≠ [])
      (ha : k.acks = []) (hL : frames L f = 0) (h : k.reader = .closed ∨ k.InFlight f rest) :
      Placed k L (.writing f rest)
  | waiting {f : SyncCall} (hu : k.user = some f) (ha : k.acks = []) (hL : frames L f = 0)
      (h : k.reader = .closed ∨ k.InFlight f []) : Placed k L (.awaiting f)
  | answered {f : SyncCall} {e : Emmitted} (hu : k.user = some f) (he : e ∈ L)
      (hw : f ∈ e.writers) (hi : k.Idle)
      (ha : k.acks = [⟨if e.res = 0 then 1 else 2, e.writers⟩]) : Placed k L (.awaiting f)
  | lost {f : SyncCall} (hu : k.user = some f) (ha : k.acks = []) (hr : k.reader = .closed) :
      Placed k L (.awaiting f)
  | dead (hr : k.reader = .closed) : Placed k L .loose
  | idle (hi : k.Idle) : Placed k L .loose
  | inFlight {f : SyncCall} {rest : List Written} (hu : k.user = some f) (hL : frames L f = 0)
      (h : k.InFlight f rest) : Placed k L .loose

/-! ## The receiver keeps every view -/

/-- **What the receiver can do** when headers arrive in one read. -/
inductive Receives (k : Conn) : Conn → List Emmitted → Prop
  | hungUp (hr : k.reader ≠ .closed) : Receives k k.hangUp []
  | again : Receives k k []
  | header {alloc replied : Bool} (hr : k.reader = .listening) (hn : headerSize ≤ k.wire.length) :
      Receives k (k.readEvent [] alloc replied 12) []
  | payload {s_id : BitVec 32} {len n : Nat} {hdr buf : List Written}
      (hr : k.reader = .reading s_id len hdr buf) (hn : n ≤ k.wire.length) :
      Receives k { k with
        wire := k.wire.drop n, reader := .reading s_id len hdr (buf ++ k.wire.take n) } []
  | emmitted {s_id : BitVec 32} {len : Nat} {hdr buf : List Written} {res : Int} {replied : Bool}
      (hr : k.reader = .reading s_id len hdr buf) (hb : buf.length = len) :
      Receives k { k.reply (if res = 0 then 1 else 2) (hdr ++ buf) replied with
          reader := if replied then .listening else .closed }
        [⟨⟨s_id, buf.map Written.value⟩, (hdr ++ buf).map Written.call, res⟩]

theorem receives_of_receive {r : Receive} (h : k.receive r = some (k', es)) (hone : r.OneRead) :
    k.Receives k' es := by
  cases r with
  | header r rest alloc replied =>
      simp only [receive] at h
      split at h
      · rename_i hr
        have hne : k.reader ≠ .closed := by rw [hr]; exact PoolReader.noConfusion
        cases r with
        | bytes n =>
            cases n with
            | zero =>
                cases h
                exact .hungUp hne
            | succ n =>
                simp only at h
                split at h
                · rename_i hg
                  obtain rfl : n = 12 := by
                    have := hone.resolve_left n.succ_ne_zero
                    simpa [headerSize] using this
                  obtain rfl : rest = [] := by
                    rw [← length_eq_zero_iff, hg.2.2]
                    rfl
                  cases h
                  exact .header hr hg.2.1
                · cases h
        | again =>
            cases h
            exact .hungUp hne
        | error =>
            cases h
            exact .hungUp hne
      · cases h
  | payload r =>
      simp only [receive] at h
      split at h
      · rename_i s_id len hdr buf hr
        have hne : k.reader ≠ .closed := by rw [hr]; exact PoolReader.noConfusion
        split at h
        · cases r with
          | bytes n =>
              cases n with
              | zero =>
                  cases h
                  exact .hungUp hne
              | succ n =>
                  simp only at h
                  split at h
                  · rename_i hg
                    cases h
                    exact .payload hr hg.2.1
                  · cases h
          | again =>
              cases h
              exact .again
          | error =>
              cases h
              exact .hungUp hne
        · cases h
      · cases h
  | emmitPacked res replied =>
      simp only [receive] at h
      split at h
      · rename_i s_id len hdr buf hr
        split at h
        · rename_i hb
          cases h
          exact .emmitted hr hb
        · cases h
      · cases h

theorem length_header (f : SyncCall) : f.header.length = headerSize := by
  simp [SyncCall.header, SyncCall.wrote]

theorem frame_ne_nil (f : SyncCall) : f.frame ≠ [] := by
  intro hnil
  have hlen := congrArg length hnil
  rw [SyncCall.frame, length_append, length_header] at hlen
  simp [headerSize] at hlen

/-- A whole header of the frame is taken off the wire. -/
theorem readEvent_of_inFlight {alloc replied : Bool} (hn : headerSize ≤ k.wire.length)
    (hb : k.wire ++ rest = f.frame) :
    k.wire.drop headerSize ++ rest = f.payload ∧
      (k.readEvent [] alloc replied 12 =
          { k with wire := k.wire.drop headerSize, reader := .closed } ∨
        k.readEvent [] alloc replied 12 = { k with
          wire := k.wire.drop headerSize
          reader := .reading f.message.stage f.message.payload.length f.header [] }) := by
  have htake : k.wire.take headerSize = f.header := by
    have hlen : headerSize ≤ f.header.length := Nat.le_of_eq (length_header f).symm
    rw [← take_append_of_le_length hn, hb, SyncCall.frame,
      take_append_of_le_length hlen, take_of_length_le (Nat.le_of_eq (length_header f))]
  have hdrop : k.wire.drop headerSize ++ rest = f.payload := by
    rw [← drop_append_of_le_length hn, hb, SyncCall.frame, ← length_header f, drop_left]
  refine ⟨hdrop, ?_⟩
  have hval : f.header.map Written.value = Leda.Event.header f.message.toMessage := by
    rw [SyncCall.header, SyncCall.wrote, map_map]
    exact map_id _
  have hread : readHeader (f.header.map Written.value ++ []) =
      .event f.message.stage f.message.payload.length := by
    rw [append_nil, hval]
    exact readHeader_header_of_lt f.message.bound
  have h13 : 12 + 1 = headerSize := rfl
  simp only [readEvent, h13, htake, hread]
  split
  · exact .inl rfl
  · split
    · exact .inr rfl
    · exact .inl rfl

/-- The receiver takes a step towards the end of the frame, or gives up. -/
theorem InFlight.receives (h : k.InFlight f rest) (hs : k.Receives k' es) :
    es = [] ∧ k'.acks = k.acks ∧ k'.user = k.user ∧ (k'.reader = .closed ∨ k'.InFlight f rest) ∨
    ∃ e, es = [e] ∧ e.message = f.message.toMessage ∧ (∀ w ∈ e.writers, w = f) ∧ f ∈ e.writers ∧
      rest = [] ∧ k'.wire = [] ∧ k'.user = k.user ∧ (k'.reader = .closed ∧ k'.acks = k.acks ∨
        k'.reader = .listening ∧
          k'.acks = k.acks ++ [⟨if e.res = 0 then 1 else 2, e.writers⟩]) := by
  cases hs with
  | hungUp => exact .inl ⟨rfl, rfl, rfl, .inl rfl⟩
  | again => exact .inl ⟨rfl, rfl, rfl, .inr h⟩
  | @header alloc replied hr hn =>
      left
      cases h with
      | header _ hb =>
          obtain ⟨hrest, hk | hk⟩ := readEvent_of_inFlight hn hb
          · rw [hk]
            exact ⟨rfl, rfl, rfl, .inl rfl⟩
          · rw [hk]
            exact ⟨rfl, rfl, rfl, .inr (.payload rfl hrest)⟩
      | payload hr' => cases hr.symm.trans hr'
  | @payload s_id len n hdr buf hr hn =>
      left
      cases h with
      | header hr' => cases hr.symm.trans hr'
      | payload hr' hb =>
          cases hr.symm.trans hr'
          refine ⟨rfl, rfl, rfl, .inr (.payload rfl ?_)⟩
          rw [← hb, append_assoc, ← append_assoc (take n k.wire), take_append_drop]
  | @emmitted s_id len hdr buf res replied hr hbuf =>
      right
      cases h with
      | header hr' => cases hr.symm.trans hr'
      | payload hr' hb =>
          cases hr.symm.trans hr'
          -- the buffer is full, so nothing is left of the frame
          have hlen := congrArg length hb
          rw [length_append, hbuf, SyncCall.payload, SyncCall.wrote, length_map] at hlen
          have hnil : k.wire ++ rest = [] := length_eq_zero_iff.1 (by omega)
          obtain ⟨hw, hrest⟩ := append_eq_nil_iff.1 hnil
          rw [hnil, append_nil] at hb
          subst hb
          have hwr : ∀ w ∈ (f.header ++ f.payload).map Written.call, w = f := by
            simp only [SyncCall.header, SyncCall.payload, SyncCall.wrote, ← map_append, map_map]
            intro w hw
            obtain ⟨v, -, rfl⟩ := mem_map.1 hw
            rfl
          refine ⟨_, rfl, ?_, hwr, ?_, hrest, ?_, ?_, ?_⟩
          · simp only [SyncCall.payload, SyncCall.wrote, map_map]
            exact congrArg (Message.mk f.message.stage) (map_id _)
          · have hne : f.header ≠ [] := fun h ↦ by simpa [h, headerSize] using length_header f
            obtain ⟨w, hw'⟩ := exists_mem_of_ne_nil _ hne
            have hmem : w.call ∈ (f.header ++ f.payload).map Written.call :=
              mem_map_of_mem (mem_append_left _ hw')
            exact hwr _ hmem ▸ hmem
          · cases replied <;> exact hw
          · cases replied <;> rfl
          · cases replied with
            | true => exact .inr ⟨rfl, rfl⟩
            | false => exact .inl ⟨rfl, rfl⟩

/-- A connection that was closed stays as it is. -/
theorem Receives.of_closed (hs : k.Receives k' es) (hr : k.reader = .closed) :
    es = [] ∧ k' = k := by
  cases hs with
  | hungUp hne => exact absurd hr hne
  | again => exact ⟨rfl, rfl⟩
  | header hr' => cases hr.symm.trans hr'
  | payload hr' => cases hr.symm.trans hr'
  | emmitted hr' => cases hr.symm.trans hr'

theorem Receives.user (hs : k.Receives k' es) : k'.user = k.user := by
  cases hs with
  | hungUp => rfl
  | again => rfl
  | payload => rfl
  | @header alloc replied =>
      simp only [readEvent, reply, hangUp]
      split
      · split <;> rfl
      · split <;> rfl
      · split
        · rfl
        · split <;> rfl
  | @emmitted _ _ _ _ _ replied => cases replied <;> rfl

/-- An idle connection has nothing to read. -/
theorem Idle.receives (hi : k.Idle) (hs : k.Receives k' es) :
    es = [] ∧ k'.Idle ∧ k'.acks = k.acks ∧ k'.user = k.user := by
  obtain ⟨hw, hr⟩ := hi
  cases hs with
  | hungUp => exact ⟨rfl, ⟨hw, .inr rfl⟩, rfl, rfl⟩
  | again => exact ⟨rfl, ⟨hw, hr⟩, rfl, rfl⟩
  | header _ hn =>
      rw [hw] at hn
      exact absurd hn (by decide)
  | payload hr' => rcases hr with hr | hr <;> cases hr.symm.trans hr'
  | emmitted hr' => rcases hr with hr | hr <;> cases hr.symm.trans hr'

namespace Placed

/-- **Every view survives what the receiver does.** -/
theorem receives (h : k.Placed L v) (hs : k.Receives k' es) : k'.Placed (L ++ es) v := by
  cases h with
  | pooled hi ha =>
      obtain ⟨rfl, hi', ha', -⟩ := hi.receives hs
      exact .pooled hi' (ha'.trans ha)
  | writing hu hn ha hL h =>
      rcases h with hr | h
      · obtain ⟨rfl, rfl⟩ := hs.of_closed hr
        rw [append_nil]
        exact .writing hu hn ha hL (.inl hr)
      · rcases h.receives hs with ⟨rfl, ha', hu', h'⟩ | ⟨e, -, -, -, -, hrest, -⟩
        · rw [append_nil]
          exact .writing (hu'.trans hu) hn (ha'.trans ha) hL h'
        · exact absurd hrest hn
  | waiting hu ha hL h =>
      rcases h with hr | h
      · obtain ⟨rfl, rfl⟩ := hs.of_closed hr
        rw [append_nil]
        exact .waiting hu ha hL (.inl hr)
      · rcases h.receives hs with ⟨rfl, ha', hu', h'⟩ |
          ⟨e, rfl, -, -, hmem, -, hw, hu', ⟨hr, ha'⟩ | ⟨hr, ha'⟩⟩
        · rw [append_nil]
          exact .waiting (hu'.trans hu) (ha'.trans ha) hL h'
        · exact .lost (hu'.trans hu) (ha'.trans ha) hr
        · rw [ha, nil_append] at ha'
          exact .answered (hu'.trans hu) (mem_append_right _ (mem_singleton_self e)) hmem
            ⟨hw, .inl hr⟩ ha'
  | answered hu he hw hi ha =>
      obtain ⟨rfl, hi', ha', hu'⟩ := hi.receives hs
      exact .answered (hu'.trans hu) (mem_append_left _ he) hw hi' (ha'.trans ha)
  | lost hu ha hr =>
      obtain ⟨rfl, rfl⟩ := hs.of_closed hr
      exact .lost hu ha hr
  | dead hr =>
      obtain ⟨rfl, rfl⟩ := hs.of_closed hr
      exact .dead hr
  | idle hi =>
      obtain ⟨rfl, hi', -⟩ := hi.receives hs
      exact .idle hi'
  | inFlight hu hL h =>
      rcases h.receives hs with ⟨rfl, -, hu', hr | h'⟩ |
        ⟨e, rfl, -, -, -, -, hw, -, ⟨hr, -⟩ | ⟨hr, -⟩⟩
      · exact .dead hr
      · rw [append_nil]
        exact .inFlight (hu'.trans hu) hL h'
      · exact .dead hr
      · exact .idle ⟨hw, .inl hr⟩

/-- What the receiver emits is the frame of the last call on the connection, which it
has not emitted before. -/
theorem emmits (h : k.Placed L .loose) (hs : k.Receives k' es) :
    es = [] ∨ ∃ e f, es = [e] ∧ k.user = some f ∧ frames L f = 0 ∧
      e.message = f.message.toMessage ∧ (∀ w ∈ e.writers, w = f) ∧ f ∈ e.writers := by
  cases h with
  | dead hr => exact .inl (hs.of_closed hr).1
  | idle hi => exact .inl (hi.receives hs).1
  | inFlight hu hL h =>
      rcases h.receives hs with ⟨rfl, -⟩ | ⟨e, rfl, hm, hw, hmem, -⟩
      · exact .inl rfl
      · exact .inr ⟨e, _, rfl, hu, hL, hm, hw, hmem⟩

/-- A view does not change with what is emitted for another call. -/
theorem of_other (h : k.Placed L v) (hf : ∀ f, k.user = some f → frames (L ++ es) f = frames L f) :
    k.Placed (L ++ es) v := by
  cases h with
  | pooled hi ha => exact .pooled hi ha
  | writing hu hn ha hL h => exact .writing hu hn ha ((hf _ hu).trans hL) h
  | waiting hu ha hL h => exact .waiting hu ha ((hf _ hu).trans hL) h
  | answered hu he hw hi ha => exact .answered hu (mem_append_left _ he) hw hi ha
  | lost hu ha hr => exact .lost hu ha hr
  | dead hr => exact .dead hr
  | idle hi => exact .idle hi
  | inFlight hu hL h => exact .inFlight hu ((hf _ hu).trans hL) h

/-- A call of `send_sync_event` takes the connection. -/
theorem use (h : k.Placed L .pooled) (hL : frames L f = 0) :
    Placed { k with user := some f } L (.writing f f.frame) := by
  cases h with
  | pooled hi ha =>
      obtain ⟨hw, hr | hr⟩ := hi
      · refine .writing rfl (frame_ne_nil f) ha hL (.inr (.header hr ?_))
        change k.wire ++ f.frame = f.frame
        rw [hw, nil_append]
      · exact .writing rfl (frame_ne_nil f) ha hL (.inl hr)

/-- The sender writes a part of the frame. -/
theorem wrote (h : k.Placed L (.writing f rest)) (n : Nat) :
    Placed { k with wire := k.wire ++ rest.take n } L
      (if n < rest.length then .writing f (rest.drop n) else .awaiting f) := by
  cases h with
  | writing hu hn ha hL h =>
      have h' : k.reader = .closed ∨
          InFlight { k with wire := k.wire ++ rest.take n } f (rest.drop n) := by
        rcases h with hr | h
        · exact .inl hr
        · have happ : (k.wire ++ rest.take n) ++ rest.drop n = k.wire ++ rest := by
            rw [append_assoc, take_append_drop]
          cases h with
          | header hr hb => exact .inr (.header hr (happ.trans hb))
          | payload hr hb => exact .inr (.payload hr ((congrArg _ happ).trans hb))
      split
      · rename_i hlt
        exact .writing hu (fun hnil ↦ absurd (drop_eq_nil_iff.1 hnil) (Nat.not_le.2 hlt)) ha hL h'
      · rename_i hge
        rw [drop_eq_nil_iff.2 (Nat.le_of_not_lt hge)] at h'
        exact .waiting hu ha hL h'

/-- What remains of any view when nobody looks any more. -/
theorem loose (h : k.Placed L v) : k.Placed L .loose := by
  cases h with
  | pooled hi => exact .idle hi
  | writing hu hn ha hL h =>
      rcases h with hr | h
      · exact .dead hr
      · exact .inFlight hu hL h
  | waiting hu ha hL h =>
      rcases h with hr | h
      · exact .dead hr
      · exact .inFlight hu hL h
  | answered hu he hw hi => exact .idle hi
  | lost hu ha hr => exact .dead hr
  | dead hr => exact .dead hr
  | idle hi => exact .idle hi
  | inFlight hu hL h => exact .inFlight hu hL h

end Placed

end Conn

/-! ## All connections -/

namespace Point

/-- The call a thread is in. -/
def call? : Point → Option SyncCall
  | out => none
  | start f | connecting f | writing f _ _ _ | awaitAck f _ _ => some f

/-- The connection a thread holds. -/
def conn? : Point → Option Nat
  | out | start _ | connecting _ => none
  | writing _ c _ _ | awaitAck _ c _ => some c

end Point

namespace Net

variable {T : Type u} {σ σ' : Net T} {t : T} {c : Nat} {f : SyncCall}

/-- What holds for a thread: as long as it has no connection, nobody has seen its call;
afterwards, it sees the connection in the right state. -/
def PointOk (conn : Nat → Conn) (L : List Emmitted) : Point → Prop
  | .out => True
  | .start f | .connecting f => frames L f = 0 ∧ ∀ c, (conn c).user ≠ some f
  | .writing f c _ rest => (conn c).Placed L (.writing f rest)
  | .awaitAck f c _ => (conn c).Placed L (.awaiting f)

/-- The connections in the pool. -/
def sockets (σ : Net T) : List Nat := σ.pool.map Prod.fst

/-- **The invariant.** -/
structure Sound (σ : Net T) : Prop where
  loose : ∀ c, (σ.conn c).Placed σ.emmitted .loose
  pooled : ∀ c ∈ σ.sockets, (σ.conn c).Placed σ.emmitted .pooled
  thread : ∀ t, PointOk σ.conn σ.emmitted (σ.thread t)
  /-- A connection is in the pool once, or held by one thread. -/
  pool_nodup : σ.sockets.Nodup
  held_pool : ∀ t c, (σ.thread t).conn? = some c → c ∉ σ.sockets
  held : ∀ t t' c, (σ.thread t).conn? = some c → (σ.thread t').conn? = some c → t = t'
  /-- Connections that were not opened are fresh, and nobody has them. -/
  unopened : ∀ c, σ.opened ≤ c → σ.conn c = .fresh ∧ c ∉ σ.sockets ∧
    ∀ t, (σ.thread t).conn? ≠ some c
  /-- Calls are numbered, and every call has one thread and one connection. -/
  call_id : ∀ t f, (σ.thread t).call? = some f → f.id < σ.begun
  call_inj : ∀ t t' f, (σ.thread t).call? = some f → (σ.thread t').call? = some f → t = t'
  user_id : ∀ c f, (σ.conn c).user = some f → f.id < σ.begun
  user_inj : ∀ c c' f, (σ.conn c).user = some f → (σ.conn c').user = some f → c = c'
  writer_id : ∀ e ∈ σ.emmitted, ∀ f ∈ e.writers, f.id < σ.begun
  /-- What was emitted is the frame of one call. -/
  emmitted : ∀ e ∈ σ.emmitted, ∀ f ∈ e.writers, e.message = f.message.toMessage ∧
    ∀ w ∈ e.writers, w = f
  /-- Every frame is emitted once. -/
  once : ∀ f, frames σ.emmitted f ≤ 1
  /-- A call that returns `TRUE` was accepted. -/
  returned : ∀ p ∈ σ.returned, p.2 = .true → ∃ e ∈ σ.emmitted, e.res = 0 ∧ p.1 ∈ e.writers
  /-- A call returns once. -/
  returned_id : ∀ p ∈ σ.returned, p.1.id < σ.begun
  returned_out : ∀ p ∈ σ.returned, ∀ t, (σ.thread t).call? ≠ some p.1
  returned_nodup : (σ.returned.map Prod.fst).Nodup
  /-- A call goes by the answer to its own frame. -/
  credited : ∀ p ∈ σ.credited, p.1 ∈ p.2.writers ∧ ∀ w ∈ p.2.writers, w = p.1

theorem sound_init : (init : Net T).Sound where
  loose _ := .idle ⟨rfl, .inl rfl⟩
  pooled _ hc := absurd hc not_mem_nil
  thread _ := trivial
  pool_nodup := nodup_nil
  held_pool _ _ h := by cases h
  held _ _ _ h _ := by cases h
  unopened _ _ := ⟨rfl, not_mem_nil, fun _ h ↦ by cases h⟩
  call_id _ _ h := by cases h
  call_inj _ _ _ h _ := by cases h
  user_id _ _ h := by cases h
  user_inj _ _ _ h _ := by cases h
  writer_id _ he := absurd he not_mem_nil
  emmitted _ he := absurd he not_mem_nil
  once _ := Nat.zero_le 1
  returned _ hp := absurd hp not_mem_nil
  returned_id _ hp := absurd hp not_mem_nil
  returned_out _ hp := absurd hp not_mem_nil
  returned_nodup := nodup_nil
  credited _ hp := absurd hp not_mem_nil

namespace Sound

/-- What the receiver emits on one connection does not concern the calls that are
not its last user. -/
theorem frames_eq (h : σ.Sound) {k : Conn} {es : List Emmitted}
    (hs : (σ.conn c).Receives k es) (hf : (σ.conn c).user ≠ some f) :
    frames (σ.emmitted ++ es) f = frames σ.emmitted f := by
  rcases (h.loose c).emmits hs with rfl | ⟨e, g, rfl, hu, -, -, hw, -⟩
  · rw [append_nil]
  · have hne : f ∉ e.writers := fun hmem ↦ hf (by rw [hu, hw f hmem])
    simp [frames, countP_append, hne]

/-- The receiver changes no view of any connection. -/
theorem view (h : σ.Sound) {k : Conn} {es : List Emmitted} (hs : (σ.conn c).Receives k es)
    {c' : Nat} {v : View} (hv : (σ.conn c').Placed σ.emmitted v) :
    (Function.update σ.conn c k c').Placed (σ.emmitted ++ es) v := by
  by_cases hc : c' = c
  · subst hc
    rw [Function.update_self]
    exact hv.receives hs
  · rw [Function.update_of_ne hc]
    exact hv.of_other fun f hf ↦ h.frames_eq hs fun hf' ↦ hc (h.user_inj _ _ f hf hf')

/-- **The receiver** keeps the invariant. -/
theorem receive (h : σ.Sound) (hc : c < σ.opened) {k : Conn} {es : List Emmitted}
    (hs : (σ.conn c).Receives k es) :
    Sound { σ.setConn c k with emmitted := σ.emmitted ++ es } := by
  have huser : ∀ c', (Function.update σ.conn c k c').user = (σ.conn c').user := by
    intro c'
    by_cases hc : c' = c
    · subst hc
      rw [Function.update_self, hs.user]
    · rw [Function.update_of_ne hc]
  have hnew : ∀ e ∈ es, ∃ g, (σ.conn c).user = some g ∧ frames σ.emmitted g = 0 ∧
      e.message = g.message.toMessage ∧ (∀ w ∈ e.writers, w = g) ∧ g ∈ e.writers := by
    intro e he
    rcases (h.loose c).emmits hs with rfl | ⟨e', g, rfl, hg⟩
    · exact absurd he not_mem_nil
    · obtain rfl := mem_singleton.1 he
      exact ⟨g, hg⟩
  refine ⟨fun c' ↦ h.view hs (h.loose c'), fun c' hc' ↦ h.view hs (h.pooled c' hc'), ?_,
    h.pool_nodup, h.held_pool, h.held, ?_, h.call_id, h.call_inj, ?_, ?_, ?_, ?_, ?_, ?_,
    h.returned_id, h.returned_out, h.returned_nodup, h.credited⟩
  · intro t
    have ht := h.thread t
    change PointOk (Function.update σ.conn c k) (σ.emmitted ++ es) (σ.thread t)
    cases hp : σ.thread t with
    | out => trivial
    | start f =>
        rw [hp] at ht
        exact ⟨(h.frames_eq hs (ht.2 c)).trans ht.1, fun c' ↦ huser c' ▸ ht.2 c'⟩
    | connecting f =>
        rw [hp] at ht
        exact ⟨(h.frames_eq hs (ht.2 c)).trans ht.1, fun c' ↦ huser c' ▸ ht.2 c'⟩
    | writing f c' len rest =>
        rw [hp] at ht
        exact h.view hs ht
    | awaitAck f c' len =>
        rw [hp] at ht
        exact h.view hs ht
  · intro c' hc'
    obtain ⟨hfresh, hrest⟩ := h.unopened c' hc'
    have hne : c' ≠ c := fun e ↦ absurd (e ▸ hc') (Nat.not_le.2 hc)
    exact ⟨(Function.update_of_ne hne ..).trans hfresh, hrest⟩
  · exact fun c' f hf ↦ h.user_id c' f ((huser c').symm.trans hf)
  · exact fun c₁ c₂ f h₁ h₂ ↦
      h.user_inj c₁ c₂ f ((huser c₁).symm.trans h₁) ((huser c₂).symm.trans h₂)
  · intro e he f hf
    rcases mem_append.1 he with he | he
    · exact h.writer_id e he f hf
    · obtain ⟨g, hu, -, -, hw, -⟩ := hnew e he
      exact h.user_id c f (by rw [hu, hw f hf])
  · intro e he f hf
    rcases mem_append.1 he with he | he
    · exact h.emmitted e he f hf
    · obtain ⟨g, -, -, hm, hw, -⟩ := hnew e he
      obtain rfl := hw f hf
      exact ⟨hm, hw⟩
  · intro f
    change frames (σ.emmitted ++ es) f ≤ 1
    by_cases hf : (σ.conn c).user = some f
    · rcases (h.loose c).emmits hs with rfl | ⟨e, g, rfl, hu, hL, -⟩
      · rw [append_nil]
        exact h.once f
      · obtain rfl : g = f := Option.some.inj (hu.symm.trans hf)
        rw [frames, countP_append, ← frames, hL, Nat.zero_add]
        exact countP_le_length
    · rw [h.frames_eq hs hf]
      exact h.once f
  · intro p hp hres
    obtain ⟨e, he, h₁, h₂⟩ := h.returned p hp hres
    exact ⟨e, mem_append_left _ he, h₁, h₂⟩

/-- A call returns. -/
theorem log (h : σ.Sound) {r : Result}
    (hr : r = .true → ∃ e ∈ σ.emmitted, e.res = 0 ∧ f ∈ e.writers) (hid : f.id < σ.begun)
    (hout : ∀ t, (σ.thread t).call? ≠ some f) (hnew : ∀ p ∈ σ.returned, p.1 ≠ f) :
    Sound { σ with returned := σ.returned ++ [(f, r)] } := by
  have hmem : ∀ p ∈ σ.returned ++ [(f, r)], p ∈ σ.returned ∨ p = (f, r) :=
    fun p hp ↦ (mem_append.1 hp).imp_right mem_singleton.1
  refine { h with
    returned := fun p hp hres ↦ ?_
    returned_id := fun p hp ↦ ?_
    returned_out := fun p hp t ↦ ?_
    returned_nodup := ?_ }
  · rcases hmem p hp with hp | rfl
    · exact h.returned p hp hres
    · exact hr hres
  · rcases hmem p hp with hp | rfl
    · exact h.returned_id p hp
    · exact hid
  · rcases hmem p hp with hp | rfl
    · exact h.returned_out p hp t
    · exact hout t
  · rw [map_append, nodup_append]
    refine ⟨h.returned_nodup, by simp, ?_⟩
    rintro g hg _ hf rfl
    obtain ⟨p, hp, rfl⟩ := mem_map.1 hg
    exact hnew p hp (mem_singleton.1 hf)

/-- A call goes by an answer to its own frame. -/
theorem credit (h : σ.Sound) {a : Answer} (hf : f ∈ a.writers) (ha : ∀ w ∈ a.writers, w = f) :
    Sound { σ with credited := σ.credited ++ [(f, a)] } := by
  refine { h with credited := fun p hp ↦ ?_ }
  rcases mem_append.1 hp with hp | hp
  · exact h.credited p hp
  · obtain rfl := mem_singleton.1 hp
    exact ⟨hf, ha⟩

variable [DecidableEq T]

/-- One thread goes on, the others stay. -/
theorem update_cases (thread : T → Point) (t : T) (p : Point) (r : T) :
    (r = t ∧ Function.update thread t p r = p) ∨
      r ≠ t ∧ Function.update thread t p r = thread r := by
  by_cases hr : r = t
  · exact .inl ⟨hr, by rw [hr, Function.update_self]⟩
  · exact .inr ⟨hr, Function.update_of_ne hr ..⟩

/-- A thread that goes on without a connection gives none to the others. -/
theorem conn_of_update {thread : T → Point} {p : Point} {r : T} (hp : p.conn? = none)
    (hr : (Function.update thread t p r).conn? = some c) : (thread r).conn? = some c := by
  rcases update_cases thread t p r with ⟨-, he⟩ | ⟨-, he⟩
  · rw [he, hp] at hr
    cases hr
  · rwa [he] at hr

/-- A thread that goes on with its own call leaves the calls as they are. -/
theorem call_of_update {thread : T → Point} {p : Point} {r : T}
    (hcall : ∀ f, p.call? = some f → (thread t).call? = some f)
    (hr : (Function.update thread t p r).call? = some f) : (thread r).call? = some f := by
  rcases update_cases thread t p r with ⟨rfl, he⟩ | ⟨-, he⟩
  · rw [he] at hr
    exact hcall f hr
  · rwa [he] at hr

/-- A thread without a connection in its hands goes on, or leaves. -/
theorem goto (h : σ.Sound) {p : Point} (hcall : ∀ f, p.call? = some f → (σ.thread t).call? = some f)
    (hconn : p.conn? = none) (hp : PointOk σ.conn σ.emmitted p) : (σ.goto t p).Sound := by
  have hheld : ∀ r c, ((σ.goto t p).thread r).conn? = some c → (σ.thread r).conn? = some c :=
    fun _ _ ↦ conn_of_update hconn
  have hcalls : ∀ r f, ((σ.goto t p).thread r).call? = some f → (σ.thread r).call? = some f :=
    fun _ _ ↦ call_of_update hcall
  refine { h with
    thread := fun r ↦ ?_
    held_pool := fun r c hr ↦ h.held_pool r c (hheld r c hr)
    held := fun r r' c hr hr' ↦ h.held r r' c (hheld r c hr) (hheld r' c hr')
    unopened := fun c hc ↦ ?_
    call_id := fun r f hr ↦ h.call_id r f (hcalls r f hr)
    call_inj := fun r r' f hr hr' ↦ h.call_inj r r' f (hcalls r f hr) (hcalls r' f hr')
    returned_out := fun q hq r hr ↦ h.returned_out q hq r (hcalls r _ hr) }
  · change PointOk σ.conn σ.emmitted (Function.update σ.thread t p r)
    rcases update_cases σ.thread t p r with ⟨-, he⟩ | ⟨-, he⟩
    · rw [he]
      exact hp
    · rw [he]
      exact h.thread r
  · obtain ⟨h₁, h₂, h₃⟩ := h.unopened c hc
    exact ⟨h₁, h₂, fun r hr ↦ h₃ r (hheld r c hr)⟩

/-- A thread without a call begins one. -/
theorem call (h : σ.Sound) (ht : σ.thread t = .out) (m : Packed) :
    Sound { σ.goto t (.start ⟨σ.begun, m⟩) with begun := σ.begun + 1 } := by
  have hthread := update_cases σ.thread t (.start ⟨σ.begun, m⟩)
  have hheld : ∀ r c, ((σ.goto t (.start ⟨σ.begun, m⟩)).thread r).conn? = some c →
      (σ.thread r).conn? = some c := fun _ _ ↦ conn_of_update rfl
  have hcalls : ∀ r f, ((σ.goto t (.start ⟨σ.begun, m⟩)).thread r).call? = some f →
      r = t ∧ f.id = σ.begun ∨ r ≠ t ∧ (σ.thread r).call? = some f := by
    intro r f hr
    change (Function.update σ.thread t _ r).call? = some f at hr
    rcases hthread r with ⟨hrt, he⟩ | ⟨hrt, he⟩
    · rw [he] at hr
      cases hr
      exact .inl ⟨hrt, rfl⟩
    · rw [he] at hr
      exact .inr ⟨hrt, hr⟩
  refine { h with
    thread := fun r ↦ ?_
    held_pool := fun r c hr ↦ h.held_pool r c (hheld r c hr)
    held := fun r r' c hr hr' ↦ h.held r r' c (hheld r c hr) (hheld r' c hr')
    unopened := fun c hc ↦ ?_
    call_id := fun r f hr ↦ ?_
    call_inj := fun r r' f hr hr' ↦ ?_
    user_id := fun c f hf ↦ Nat.lt_succ_of_lt (h.user_id c f hf)
    writer_id := fun e he f hf ↦ Nat.lt_succ_of_lt (h.writer_id e he f hf)
    returned_id := fun p hp ↦ Nat.lt_succ_of_lt (h.returned_id p hp)
    returned_out := fun p hp r hr ↦ ?_ }
  · rcases hthread r with ⟨-, he⟩ | ⟨-, he⟩
    · change PointOk _ _ (Function.update σ.thread t _ r)
      rw [he]
      refine ⟨countP_eq_zero.2 fun e he' ↦ ?_, fun c hc ↦ ?_⟩
      · simpa using fun hmem ↦ Nat.lt_irrefl _ (h.writer_id e he' _ hmem)
      · exact Nat.lt_irrefl _ (h.user_id c _ hc)
    · change PointOk _ _ (Function.update σ.thread t _ r)
      rw [he]
      exact h.thread r
  · obtain ⟨h₁, h₂, h₃⟩ := h.unopened c hc
    exact ⟨h₁, h₂, fun r hr ↦ h₃ r (hheld r c hr)⟩
  · rcases hcalls r f hr with ⟨-, hid⟩ | ⟨-, hf⟩
    · rw [hid]
      exact Nat.lt_succ_self _
    · exact Nat.lt_succ_of_lt (h.call_id r f hf)
  · rcases hcalls r f hr with ⟨rfl, hid⟩ | ⟨-, hf⟩
    · rcases hcalls r' f hr' with ⟨rfl, -⟩ | ⟨-, hf'⟩
      · rfl
      · exact absurd (h.call_id r' f hf') (by omega)
    · rcases hcalls r' f hr' with ⟨rfl, hid⟩ | ⟨-, hf'⟩
      · exact absurd (h.call_id r f hf) (by omega)
      · exact h.call_inj r r' f hf hf'
  · rcases hcalls r p.1 hr with ⟨-, hid⟩ | ⟨-, hf⟩
    · exact absurd (h.returned_id p hp) (by omega)
    · exact h.returned_out p hp r hf

omit [DecidableEq T] in
/-- Nobody else has a connection that is a thread's own, or in the pool, or not opened yet. -/
theorem not_held (h : σ.Sound) (hc : c ∈ σ.sockets ∨ (σ.thread t).conn? = some c ∨ c = σ.opened)
    {r : T} (hr : r ≠ t) : (σ.thread r).conn? ≠ some c := by
  intro hrc
  rcases hc with hc | hc | rfl
  · exact h.held_pool r c hrc hc
  · exact hr (h.held r t c hrc hc)
  · exact (h.unopened _ (Nat.le_refl _)).2.2 r hrc

/-- Who has which connection, when a thread goes on with this one. -/
theorem held_cases (h : σ.Sound) {p : Point} {r : T} {c' : Nat}
    (hc : c ∈ σ.sockets ∨ (σ.thread t).conn? = some c ∨ c = σ.opened)
    (hconn : ∀ c', p.conn? = some c' → c' = c)
    (hr : (Function.update σ.thread t p r).conn? = some c') :
    r = t ∧ c' = c ∨ r ≠ t ∧ c' ≠ c ∧ (σ.thread r).conn? = some c' := by
  rcases update_cases σ.thread t p r with ⟨hrt, he⟩ | ⟨hrt, he⟩
  · rw [he] at hr
    exact .inl ⟨hrt, hconn c' hr⟩
  · rw [he] at hr
    refine .inr ⟨hrt, ?_, hr⟩
    rintro rfl
    exact h.not_held hc hrt hr

/-- The last user of a connection, when one connection has got a new one. -/
theorem user_cases {conn : Nat → Conn} {k : Conn} {own : Option SyncCall} {c' : Nat}
    (huser : k.user = (conn c).user ∨
      ∃ f, k.user = some f ∧ own = some f ∧ ∀ c', (conn c').user ≠ some f)
    (hf : (Function.update conn c k c').user = some f) :
    (conn c').user = some f ∨ c' = c ∧ own = some f ∧ ∀ c'', (conn c'').user ≠ some f := by
  by_cases hc' : c' = c
  · subst hc'
    rw [Function.update_self] at hf
    rcases huser with hk | ⟨g, hg, hrest⟩
    · exact .inl (hk.symm.trans hf)
    · obtain rfl := Option.some.inj (hg.symm.trans hf)
      exact .inr ⟨rfl, hrest⟩
  · rw [Function.update_of_ne hc'] at hf
    exact .inl hf

/-- A thread stays where it is, if its connection does, and no other has been used by its call. -/
theorem pointOk_congr {conn conn' : Nat → Conn} {L : List Emmitted} {p : Point}
    (hp : PointOk conn L p) (hconn : ∀ c, p.conn? = some c → conn' c = conn c)
    (huser : ∀ f c, p.call? = some f → (conn' c).user = some f → (conn c).user = some f) :
    PointOk conn' L p := by
  cases p with
  | out => trivial
  | start f => exact ⟨hp.1, fun c hc ↦ hp.2 c (huser f c rfl hc)⟩
  | connecting f => exact ⟨hp.1, fun c hc ↦ hp.2 c (huser f c rfl hc)⟩
  | writing f c len rest =>
      change (conn' c).Placed _ _
      rw [hconn c rfl]
      exact hp
  | awaitAck f c len =>
      change (conn' c).Placed _ _
      rw [hconn c rfl]
      exact hp

/-- **A thread and a connection** that is its own, or comes from the pool, or has just
been opened, go on together. -/
theorem move (h : σ.Sound) {p : Point} {k : Conn} {pool : List (Nat × BitVec 32)}
    {opened : Nat}
    (hc : c ∈ σ.sockets ∨ (σ.thread t).conn? = some c ∨ c = σ.opened)
    (hcall : ∀ f, p.call? = some f → (σ.thread t).call? = some f)
    (hconn : ∀ c', p.conn? = some c' → c' = c ∧ c ∉ pool.map Prod.fst)
    (hp : PointOk (Function.update σ.conn c k) σ.emmitted p)
    (huser : k.user = (σ.conn c).user ∨ ∃ f, k.user = some f ∧ (σ.thread t).call? = some f ∧
      ∀ c', (σ.conn c').user ≠ some f)
    (hloose : k.Placed σ.emmitted .loose) (hnd : (pool.map Prod.fst).Nodup)
    (hpool : ∀ c' ∈ pool.map Prod.fst,
      c' ∈ σ.sockets ∧ c' ≠ c ∨ c' = c ∧ k.Placed σ.emmitted .pooled)
    (hopened : σ.opened ≤ opened) (hlt : c < opened) :
    Sound { σ with
      thread := Function.update σ.thread t p
      conn := Function.update σ.conn c k, pool, opened } := by
  have hself : Function.update σ.conn c k c = k := Function.update_self ..
  have hne : ∀ c', c' ≠ c → Function.update σ.conn c k c' = σ.conn c' :=
    fun c' hc' ↦ Function.update_of_ne hc' ..
  have hheld : ∀ r c', (Function.update σ.thread t p r).conn? = some c' →
      r = t ∧ c' = c ∨ r ≠ t ∧ c' ≠ c ∧ (σ.thread r).conn? = some c' :=
    fun _ _ ↦ h.held_cases hc fun c' hc' ↦ (hconn c' hc').1
  have hu : ∀ c' f, (Function.update σ.conn c k c').user = some f → (σ.conn c').user = some f ∨
      c' = c ∧ (σ.thread t).call? = some f ∧ ∀ c'', (σ.conn c'').user ≠ some f :=
    fun _ _ ↦ user_cases huser
  have hcalls : ∀ r f, (Function.update σ.thread t p r).call? = some f →
      (σ.thread r).call? = some f := fun _ _ ↦ call_of_update hcall
  refine { h with
    loose := fun c' ↦ ?_
    pooled := fun c' hc' ↦ ?_
    thread := fun r ↦ ?_
    pool_nodup := hnd
    held_pool := fun r c' hr hmem ↦ ?_
    held := fun r r' c' hr hr' ↦ ?_
    unopened := fun c' hc' ↦ ?_
    call_id := fun r f hr ↦ h.call_id r f (hcalls r f hr)
    call_inj := fun r r' f hr hr' ↦ h.call_inj r r' f (hcalls r f hr) (hcalls r' f hr')
    user_id := fun c' f hf ↦ ?_
    user_inj := fun c₁ c₂ f h₁ h₂ ↦ ?_
    returned_out := fun q hq r hr ↦ h.returned_out q hq r (hcalls r _ hr) }
  · change Conn.Placed (Function.update σ.conn c k c') _ _
    by_cases hc' : c' = c
    · subst hc'
      rw [hself]
      exact hloose
    · rw [hne c' hc']
      exact h.loose c'
  · change Conn.Placed (Function.update σ.conn c k c') _ _
    rcases hpool c' hc' with ⟨hmem, hcc⟩ | ⟨rfl, hk⟩
    · rw [hne c' hcc]
      exact h.pooled c' hmem
    · rw [hself]
      exact hk
  · change PointOk (Function.update σ.conn c k) _ (Function.update σ.thread t p r)
    rcases update_cases σ.thread t p r with ⟨-, hr⟩ | ⟨hrt, hr⟩
    · rw [hr]
      exact hp
    · rw [hr]
      refine pointOk_congr (h.thread r) (fun c' hc' ↦ hne c' ?_) fun f c' hf hc' ↦ ?_
      · rintro rfl
        exact h.not_held hc hrt hc'
      · exact (hu c' f hc').resolve_right fun ⟨_, hcall', _⟩ ↦ hrt (h.call_inj r t f hf hcall')
  · rcases hheld r c' hr with ⟨rfl, rfl⟩ | ⟨-, hcc, hr'⟩
    · change (Function.update σ.thread r p r).conn? = _ at hr
      rw [Function.update_self] at hr
      exact (hconn _ hr).2 hmem
    · exact h.held_pool r c' hr' ((hpool c' hmem).resolve_right fun he ↦ hcc he.1).1
  · rcases hheld r c' hr with ⟨rfl, rfl⟩ | ⟨-, hcc, he⟩
    · exact ((hheld r' _ hr').resolve_right fun he' ↦ he'.2.1 rfl).1.symm
    · exact h.held r r' c' he ((hheld r' c' hr').resolve_left fun he' ↦ hcc he'.2).2.2
  · have hcc : c' ≠ c := fun e ↦ absurd (e ▸ hc') (Nat.not_le.2 hlt)
    obtain ⟨h₁, h₂, h₃⟩ := h.unopened c' (Nat.le_trans hopened hc')
    refine ⟨(hne c' hcc).trans h₁, fun hmem ↦ ?_, fun r hr ↦ ?_⟩
    · exact h₂ ((hpool c' hmem).resolve_right fun he ↦ hcc he.1).1
    · exact h₃ r ((hheld r c' hr).resolve_left fun he ↦ hcc he.2).2.2
  · rcases hu c' f hf with hf | ⟨-, hf, -⟩
    · exact h.user_id c' f hf
    · exact h.call_id t f hf
  · rcases hu c₁ f h₁ with h₁ | ⟨rfl, -, hun⟩
    · rcases hu c₂ f h₂ with h₂ | ⟨-, -, hun⟩
      · exact h.user_inj c₁ c₂ f h₁ h₂
      · exact absurd h₁ (hun c₁)
    · rcases hu c₂ f h₂ with h₂ | ⟨rfl, -⟩
      · exact absurd h₂ (hun c₂)
      · rfl

/-- A call of `send_sync_event` gets a connection that is idle. -/
theorem use (h : σ.Sound) {pool : List (Nat × BitVec 32)} {opened : Nat}
    (hf : (σ.thread t).call? = some f) (hL : frames σ.emmitted f = 0)
    (hun : ∀ c, (σ.conn c).user ≠ some f) (hk : (σ.conn c).Placed σ.emmitted .pooled)
    (hc : c ∈ σ.sockets ∨ c = σ.opened) (hpool : (pool.map Prod.fst).Nodup)
    (hsub : ∀ c' ∈ pool.map Prod.fst, c' ∈ σ.sockets)
    (hnot : c ∉ pool.map Prod.fst) (hopened : σ.opened ≤ opened) (hlt : c < opened) :
    (use { σ with pool, opened } t f c f.message.toMessage).Sound := by
  have hw := hk.use hL
  refine h.move (hc.imp_right .inr) (fun _ hg ↦ ?_) (fun _ hc' ↦ ?_) ?_ ?_ hw.loose hpool ?_ hopened
    hlt
  · rw [hf]
    exact hg
  · obtain rfl := Option.some.inj hc'
    exact ⟨rfl, hnot⟩
  · change Conn.Placed (Function.update σ.conn c _ c) _ _
    rw [Function.update_self, SyncCall.buffer_eq]
    exact hw
  · exact .inr ⟨f, rfl, hf, hun⟩
  · exact fun c' hc' ↦ .inl ⟨hsub c' hc', fun e ↦ hnot (e ▸ hc')⟩

/-- A call takes a connection out of the pool, and its length stays. -/
theorem takePooled (h : σ.Sound) {word : BitVec 32} {pool : List (Nat × BitVec 32)}
    {behind : List UInt8} (ht : σ.thread t = .start f) (hp : σ.pool = (c, word) :: pool)
    (hsame : tryPopLen (some word) f.message.payload.length = f.message.payload.length) :
    ({ σ with pool }.use t f c (f.message.written (some word) behind)).Sound := by
  have hok := h.thread t
  rw [ht] at hok
  have hsockets : σ.sockets = c :: pool.map Prod.fst := by rw [sockets, hp, map_cons]
  have hnd := hsockets ▸ h.pool_nodup
  have hmem : c ∈ σ.sockets := hsockets ▸ mem_cons_self
  rw [Message.written_eq_self hsame]
  refine h.use (by rw [ht]; rfl) hok.1 hok.2 (h.pooled c hmem) (.inl hmem)
    (nodup_cons.1 hnd).2 (fun c' hc' ↦ hsockets ▸ mem_cons_of_mem _ hc')
    (nodup_cons.1 hnd).1 (Nat.le_refl _)
    (Nat.lt_of_not_le fun hle ↦ (h.unopened c hle).2.1 hmem)

/-- A call opens a connection. -/
theorem newConnection (h : σ.Sound) (ht : σ.thread t = .connecting f) :
    ({ σ with opened := σ.opened + 1 }.use t f σ.opened f.message.toMessage).Sound := by
  have hok := h.thread t
  rw [ht] at hok
  obtain ⟨hfresh, hnot, -⟩ := h.unopened _ (Nat.le_refl _)
  have hk : (σ.conn σ.opened).Placed σ.emmitted .pooled := by
    rw [hfresh]
    exact .pooled ⟨rfl, .inl rfl⟩ rfl
  exact h.use (by rw [ht]; rfl) hok.1 hok.2 hk (.inr rfl) h.pool_nodup (fun _ hc ↦ hc) hnot
    (Nat.le_succ _) (Nat.lt_succ_self _)

/-- A call has written a part of its frame. -/
theorem wrote (h : σ.Sound) {len : Nat} {rest : List Written} (n : Nat)
    (ht : σ.thread t = .writing f c len rest) :
    ((σ.setConn c { σ.conn c with wire := (σ.conn c).wire ++ rest.take n }).goto t
      (if n < rest.length then .writing f c len (rest.drop n) else .awaitAck f c len)).Sound := by
  have hok := h.thread t
  rw [ht] at hok
  have hcon : (σ.thread t).conn? = some c := by rw [ht]; rfl
  have hnot := h.held_pool t c hcon
  have hw : Conn.Placed _ _ _ := Conn.Placed.wrote hok n
  refine h.move (.inr (.inl hcon)) ?_ ?_ ?_ (.inl rfl) hw.loose h.pool_nodup ?_ (Nat.le_refl _) ?_
  · intro g hg
    rw [ht]
    split at hg <;> exact hg
  · intro c' hc'
    split at hc' <;> exact ⟨(Option.some.inj hc').symm, hnot⟩
  · split at hw
    · rename_i hlt
      rw [if_pos hlt]
      change Conn.Placed (Function.update σ.conn c _ c) _ _
      rw [Function.update_self]
      exact hw
    · rename_i hlt
      rw [if_neg hlt]
      change Conn.Placed (Function.update σ.conn c _ c) _ _
      rw [Function.update_self]
      exact hw
  · exact fun c' hc' ↦ .inl ⟨hc', fun e ↦ hnot (e ▸ hc')⟩
  · exact Nat.lt_of_not_le fun hle ↦ (h.unopened c hle).2.2 t hcon

/-- A call that returns has not returned before, and nobody else is in it. -/
theorem leaving (h : σ.Sound) (hf : (σ.thread t).call? = some f) :
    f.id < σ.begun ∧ (∀ r, (Function.update σ.thread t .out r).call? ≠ some f) ∧
      ∀ p ∈ σ.returned, p.1 ≠ f := by
  refine ⟨h.call_id t f hf, fun r hr ↦ ?_, fun p hp e ↦ ?_⟩
  · by_cases hrt : r = t
    · rw [hrt, Function.update_self] at hr
      cases hr
    · rw [Function.update_of_ne hrt] at hr
      exact hrt (h.call_inj r t f hr hf)
  · subst e
    exact h.returned_out p hp t hf

/-- A call returns without an answer. -/
theorem ret (h : σ.Sound) {r : Result} (hf : (σ.thread t).call? = some f) (hr : r ≠ .true) :
    (σ.ret t f r).Sound := by
  obtain ⟨h₁, h₂, h₃⟩ := h.leaving hf
  exact log (h.goto (p := .out) (fun _ hg ↦ by cases hg) rfl trivial) (fun e ↦ absurd e hr) h₁ h₂ h₃

/-- A call reads the answer to its frame, and returns. -/
theorem answered (h : σ.Sound) {len : Nat} (ht : σ.thread t = .awaitAck f c len) {a : Answer}
    {acks : List Answer} (ha : (σ.conn c).acks = a :: acks) (pooled : Bool) :
    ((σ.setConn c { σ.conn c with acks }).answered t f c len a pooled).Sound := by
  have hok := h.thread t
  rw [ht] at hok
  have hcon : (σ.thread t).conn? = some c := by rw [ht]; rfl
  have hnot := h.held_pool t c hcon
  have hlt := Nat.lt_of_not_le fun hle ↦ (h.unopened c hle).2.2 t hcon
  have hok' : (σ.conn c).Placed σ.emmitted (.awaiting f) := hok
  obtain ⟨h₁, h₂, h₃⟩ := h.leaving (f := f) (by rw [ht]; rfl)
  cases hok' with
  | waiting _ ha' => cases ha.symm.trans ha'
  | lost _ ha' => cases ha.symm.trans ha'
  | @answered _ e hu he hmem hi ha' =>
      obtain ⟨rfl, rfl⟩ := cons.inj (ha.symm.trans ha')
      have hk : Conn.Placed { σ.conn c with acks := [] } σ.emmitted .pooled := .pooled hi rfl
      have hmove : ∀ pool : List (Nat × BitVec 32), (pool.map Prod.fst).Nodup →
          (∀ c' ∈ pool.map Prod.fst, c' ∈ σ.sockets ∨ c' = c) →
          Sound { σ with
            thread := Function.update σ.thread t .out
            conn := Function.update σ.conn c { σ.conn c with acks := [] }, pool
            credited := σ.credited ++ [(f, ⟨if e.res = 0 then 1 else 2, e.writers⟩)] } := by
        intro pool hnd hpool
        have hout := h.move (p := .out) (k := { σ.conn c with acks := [] })
          (.inr (.inl hcon)) nofun nofun trivial (.inl rfl) hk.loose hnd
          (fun c' hc' ↦ ?_) (Nat.le_refl _) hlt
        · exact hout.credit hmem (h.emmitted e he f hmem).2
        by_cases hcc : c' = c
        · exact .inr ⟨hcc, hk⟩
        · exact .inl ⟨(hpool c' hc').resolve_right hcc, hcc⟩
      have hkeep := hmove σ.pool h.pool_nodup fun _ hc' ↦ .inl hc'
      by_cases hres : e.res = 0
      · have hret : Result.true = .true → ∃ e ∈ σ.emmitted, e.res = 0 ∧ f ∈ e.writers :=
          fun _ ↦ ⟨e, he, hres, hmem⟩
        simp only [Net.answered, hres, if_true]
        cases pooled with
        | true =>
            have happ : (σ.pool ++ [(c, lowHalf len)]).map Prod.fst = σ.sockets ++ [c] :=
              map_append
            have hnd : (σ.sockets ++ [c]).Nodup :=
              nodup_append.2 ⟨h.pool_nodup, by simp, fun c' hc' _ hc e ↦
                hnot (mem_singleton.1 hc ▸ e ▸ hc')⟩
            have hpush := hmove (σ.pool ++ [(c, lowHalf len)]) (happ ▸ hnd)
              fun c' hc' ↦ (mem_append.1 (happ ▸ hc')).imp_right mem_singleton.1
            simp only [hres, if_true] at hpush
            exact hpush.log hret h₁ h₂ h₃
        | false =>
            simp only [hres, if_true] at hkeep
            exact hkeep.log hret h₁ h₂ h₃
      · have hne : (2 : UInt8) ≠ 1 := by decide
        simp only [Net.answered, hres, if_false, if_neg hne]
        simp only [hres, if_false] at hkeep
        exact hkeep.log (fun e ↦ by cases e) h₁ h₂ h₃

/-- **Every step** whose header arrives in one read, and whose length stays, keeps the
invariant. -/
theorem step (h : σ.Sound) {l : NetStep T} (hone : l.OneRead) (hlen : σ.SameLength l)
    (hs : σ.step l = some σ') : σ'.Sound := by
  cases l with
  | call t m =>
      simp only [Net.step] at hs
      split at hs
      · rename_i ht
        cases hs
        exact h.call ht m
      · cases hs
  | tryPop t behind =>
      simp only [Net.step] at hs
      split at hs
      · rename_i f ht hp
        cases hs
        refine h.goto (fun _ hf ↦ ?_) rfl ?_
        · rw [ht]
          exact hf
        · have hok := h.thread t
          rwa [ht] at hok
      · rename_i f c word pool ht hp
        split at hs
        · cases hs
          exact h.takePooled ht hp (hlen f (by rw [ht]; rfl) (c, word) (by rw [hp]; rfl))
        · cases hs
      · cases hs
  | connect t ok =>
      simp only [Net.step] at hs
      split at hs
      · rename_i f ht
        split at hs
        · cases hs
          exact h.newConnection ht
        · cases hs
          exact h.ret (by rw [ht]; rfl) nofun
      · cases hs
  | write t r =>
      simp only [Net.step] at hs
      split at hs
      · rename_i f c len rest ht
        cases r with
        | again =>
            cases hs
            exact h
        | error =>
            cases hs
            exact h.ret (by rw [ht]; rfl) nofun
        | bytes n =>
            simp only at hs
            split at hs
            · split at hs
              · rename_i hlt
                cases hs
                have hw := h.wrote n ht
                rwa [if_pos hlt] at hw
              · rename_i hlt
                cases hs
                have hw := h.wrote n ht
                rwa [if_neg hlt] at hw
            · cases hs
      · cases hs
  | readAck t r pooled =>
      simp only [Net.step] at hs
      split at hs
      · rename_i f c len ht
        split at hs
        · split at hs
          · rename_i a acks ha
            cases hs
            exact h.answered ht ha pooled
          · cases hs
        · cases hs
          exact h.ret (by rw [ht]; rfl) nofun
        · cases hs
          exact h.ret (by rw [ht]; rfl) nofun
        · cases hs
          exact h.ret (by rw [ht]; rfl) nofun
        · cases hs
      · cases hs
  | receive c r =>
      simp only [Net.step] at hs
      split at hs
      · rename_i hc
        obtain ⟨⟨k, es⟩, hr, rfl⟩ := Option.map_eq_some_iff.1 hs
        exact h.receive hc (Conn.receives_of_receive hr hone)
      · cases hs

end Sound

/-! ## The protocol -/

/-- The calls of `emmit_packed_event` that accepted the frame of a call. -/
def accepted (σ : Net T) (f : SyncCall) : List Emmitted :=
  σ.emmitted.filter fun e ↦ e.res = 0 ∧ f ∈ e.writers

/-- Every frame is accepted at most once. -/
theorem Sound.length_accepted (h : σ.Sound) : (σ.accepted f).length ≤ 1 := by
  rw [accepted, ← countP_eq_length_filter]
  refine Nat.le_trans (countP_mono_left fun e _ he ↦ ?_) (h.once f)
  exact decide_eq_true (of_decide_eq_true he).2

/-- **What the protocol promises**: every call returns once; one that returns `TRUE` was
accepted exactly once, and any other at most once; what is accepted for a call is its message;
a connection in the pool has nothing left of an earlier call; and a call goes by the answer to
its own frame. -/
structure Acknowledged (σ : Net T) : Prop where
  returned : (σ.returned.map Prod.fst).Nodup
  accepted : ∀ p ∈ σ.returned, (p.2 = .true → ∃ e, σ.accepted p.1 = [e]) ∧
    (σ.accepted p.1).length ≤ 1
  message : ∀ f, ∀ e ∈ σ.accepted f, e.message = f.message.toMessage ∧ ∀ w ∈ e.writers, w = f
  pool : ∀ p ∈ σ.pool, (σ.conn p.1).acks = [] ∧ (σ.conn p.1).wire = [] ∧
    ((σ.conn p.1).reader = .listening ∨ (σ.conn p.1).reader = .closed)
  credited : ∀ p ∈ σ.credited, p.1 ∈ p.2.writers ∧ ∀ w ∈ p.2.writers, w = p.1

theorem Sound.acknowledged_of_sound (h : σ.Sound) : σ.Acknowledged where
  returned := h.returned_nodup
  accepted p hp := by
    refine ⟨fun hres ↦ ?_, h.length_accepted⟩
    obtain ⟨e, he, h₁, h₂⟩ := h.returned p hp hres
    have hmem : e ∈ σ.accepted p.1 := mem_filter.2 ⟨he, decide_eq_true ⟨h₁, h₂⟩⟩
    have hlen : (σ.accepted p.1).length = 1 :=
      Nat.le_antisymm h.length_accepted (length_pos_of_mem hmem)
    exact length_eq_one_iff.1 hlen
  message f e he := by
    obtain ⟨hmem, hacc⟩ := mem_filter.1 he
    exact h.emmitted e hmem f (of_decide_eq_true hacc).2
  pool p hp := by
    cases h.pooled p.1 (mem_map_of_mem hp) with
    | pooled hi ha => exact ⟨ha, hi⟩
  credited := h.credited

variable [DecidableEq T]

/-- **The acknowledgement protocol is sound** if no pooled connection changes a length: for any
threads and any order of their steps and those of the receiver, with connections that break at
any point. -/
theorem acknowledged {tr : List (Net T × NetStep T)} {σ : Net T} (h : Run step init tr σ)
    (hone : ∀ p ∈ tr, p.2.OneRead) (hlen : ∀ p ∈ tr, p.1.SameLength p.2) : σ.Acknowledged := by
  refine (h.invariant (C := fun σ l ↦ l.OneRead ∧ σ.SameLength l) sound_init ?_ ?_
    : σ.Sound).acknowledged_of_sound
  · exact fun _ _ _ hI hC hst ↦ hI.step hC.1 hC.2 hst
  · exact fun p hp ↦ ⟨hone p hp, hlen p hp⟩

/-- A message of one byte. -/
def letter : Packed := ⟨⟨3, [65]⟩, by decide⟩

/-- A message of two bytes. -/
def letters : Packed := ⟨⟨3, [66, 67]⟩, by decide⟩

/-- Two calls share a connection, the second with a longer message. -/
def cutShort : List (NetStep Nat) :=
  [.call 0 letter, .tryPop 0 [], .connect 0 true, .write 0 (.bytes 14),
    .receive 0 (.header (.bytes 13) [] true true), .receive 0 (.payload (.bytes 1)),
    .receive 0 (.emmitPacked 0 true), .readAck 0 (.bytes 1) true,
    .call 1 letters, .tryPop 1 [], .write 1 (.bytes 14),
    .receive 0 (.header (.bytes 13) [] true true), .receive 0 (.payload (.bytes 1)),
    .receive 0 (.emmitPacked 0 true), .readAck 1 (.bytes 1) true]

/-- **A call returns `TRUE` though its message was not accepted**: behind `cutShort`, one byte
of the two was. -/
theorem not_acknowledged :
    ¬ ∀ (tr : List (Net Nat × NetStep Nat)) (σ : Net Nat), Run step init tr σ →
      (∀ p ∈ tr, p.2.OneRead) → σ.Acknowledged := by
  intro h
  obtain ⟨σ, hσ⟩ : ∃ σ, exec step init cutShort = some σ := ⟨_, rfl⟩
  have hone : ∀ p ∈ execTrace step init cutShort, p.2.OneRead := by
    have hall : ∀ l ∈ cutShort, l.OneRead := by
      simp [cutShort, NetStep.OneRead, Receive.OneRead, headerSize]
    exact fun p hp ↦ hall _ (Run.mem_of_mem_execTrace hp)
  have hx := (h _ σ (Run.of_exec hσ) hone).message ⟨1, letters⟩
  obtain rfl := Option.some.inj hσ
  exact absurd hx (by decide)

/-- Two threads share a connection, for messages of one length.  The frame of the first is
accepted, that of the second refused. -/
def sharedConnection : List (NetStep Nat) :=
  [.call 0 letter, .tryPop 0 [], .connect 0 true, .write 0 (.bytes 5), .write 0 .again,
    .write 0 (.bytes 9), .receive 0 (.header (.bytes 13) [] true true),
    .receive 0 (.payload (.bytes 1)), .receive 0 (.emmitPacked 0 true), .readAck 0 (.bytes 1) true,
    .call 1 letter, .tryPop 1 [], .write 1 (.bytes 14),
    .receive 0 (.header (.bytes 13) [] true true), .receive 0 (.payload (.bytes 1)),
    .receive 0 (.emmitPacked (-1) true), .readAck 1 (.bytes 1) true]

theorem acknowledged_sharedConnection :
    ∃ σ : Net Nat, σ.returned = [(⟨0, letter⟩, .true), (⟨1, letter⟩, .false)] ∧
      (∃ e, σ.accepted ⟨0, letter⟩ = [e]) ∧ (σ.accepted ⟨1, letter⟩).length ≤ 1 := by
  obtain ⟨σ, hσ⟩ : ∃ σ, exec step init sharedConnection = some σ := ⟨_, rfl⟩
  have hone : ∀ p ∈ execTrace step init sharedConnection, p.2.OneRead := by
    have hall : ∀ l ∈ sharedConnection, l.OneRead := by
      simp [sharedConnection, NetStep.OneRead, Receive.OneRead, headerSize]
    exact fun p hp ↦ hall _ (Run.mem_of_mem_execTrace hp)
  have hlen : ∀ p ∈ execTrace step init sharedConnection, p.1.SameLength p.2 := by decide
  have h := (acknowledged (Run.of_exec hσ) hone hlen).accepted
  obtain rfl := Option.some.inj hσ
  refine ⟨_, rfl, (h (⟨0, letter⟩, .true) (by decide)).1 rfl,
    (h (⟨1, letter⟩, .false) (by decide)).2⟩

end Net

end Leda.Event
