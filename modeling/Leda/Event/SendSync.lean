import Leda.Event.Pool

/-!
# How `send_sync_event` ends

One call of `send_sync_event`, as a function of what the system calls answer: whether the
pool has a socket, `inet_aton`, `socket`, `connect`, every `write`, the `read` of the
acknowledgement, and whether the pool takes the socket back.  The result is what the
function hands to Lua, with the number of results that it claims, and what it did to its
socket.

A call ends well if it returns `TRUE` and has given its socket back or closed it, or
`FALSE` with a message and has closed it.  Three exits do not (`ill_formed`): after a
failed `connect` the new socket is forgotten; an error of `write` is returned as the
number of results; and when the receiver refuses the event the socket is neither closed
nor given back.  **All others do** (`wellFormed_iff`).

The function returns as soon as the frame is out or a `write` fails
(`sendSyncEvent_eq_none_iff`).
-/

namespace Leda.Event

open List

/-! ## The function -/

/-- The process an event is sent to. -/
structure Destination where
  host : String
  port : Nat
deriving Repr, DecidableEq

/-- `read(sockfd,&res,1)`. -/
inductive AckRead
  | byte (b : UInt8)
  | /-- End of the stream, or an error. -/
    failed (strerror : String)
deriving Repr, DecidableEq

/-- What the system calls answer. -/
structure Answers where
  /-- `TRY_POP` -/
  popped : Option Nat
  inetAton : Bool
  socket : Option Nat
  connect : Bool
  writes : List Outcome
  ack : AckRead
  /-- `TRY_PUSH` -/
  pushed : Bool
deriving Repr, DecidableEq

/-- What is pushed on the stack. -/
inductive Pushed
  | boolean (b : Bool)
  | message (s : String)
deriving Repr, DecidableEq

/-- What happens to a socket. -/
inductive SocketOp
  | popped (fd : Nat)
  | opened (fd : Nat)
  | closed (fd : Nat)
  | pooled (fd : Nat)
deriving Repr, DecidableEq

/-- The end of a call. -/
structure Sent where
  /-- What the C function returns: the number of results. -/
  results : Int
  pushed : List Pushed
  sockets : List SocketOp
deriving Repr, DecidableEq

/-- `lua_pushboolean(L,FALSE)` and a message. -/
def refused (message : String) (sockets : List SocketOp) : Sent :=
  ⟨2, [.boolean false, .message message], sockets⟩

/-- The loop that writes what is left of `buffer`, as far as there are answers: whether it
gets to the end. -/
def writeAll : List UInt8 → List Outcome → Option Bool
  | [], _ => some true
  | _ :: _, [] => none
  | b :: rest, .bytes n :: ws => writeAll ((b :: rest).drop n) ws
  | b :: rest, .again :: ws => writeAll (b :: rest) ws
  | _ :: _, .error :: _ => some false

/-- `send_sync_event` once it has a socket. -/
def transmit (dst : Destination) (m : Message) (a : Answers) (fd : Nat) (op : SocketOp) :
    Option Sent :=
  match writeAll (header m ++ m.payload) a.writes with
  | none => none
  | some false => some ⟨-1, [], [op, .closed fd]⟩
  | some true =>
      match a.ack with
      | .failed e => some <| refused
          s!"Error sending event to process '{dst.host}:{dst.port}': {e}" [op, .closed fd]
      | .byte b =>
          if b = 1 then
            some ⟨1, [.boolean true], [op, if a.pushed then .pooled fd else .closed fd]⟩
          else some <| refused
            s!"Error sending event to process '{dst.host}:{dst.port}': {b.toInt8}" [op]

/-- `send_sync_event`, if the answers suffice for it to return.  The `len` that `TRY_POP` leaves
on a pooled socket is that of the message here; `Net.step` has the store that overwrites it, and
with another `len` the frame has other bytes, but the exits are the same. -/
def sendSyncEvent (dst : Destination) (m : Message) (a : Answers) : Option Sent :=
  match a.popped with
  | some fd => transmit dst m a fd (.popped fd)
  | none =>
      if a.inetAton then
        match a.socket with
        | some fd =>
            if a.connect then transmit dst m a fd (.opened fd)
            else some <| refused
              s!"Could not establish connection with process '{dst.host}:{dst.port}'" [.opened fd]
        | none => some <| refused "Could not create socket" []
      else some <| refused s!"Bad address '{dst.host}'" []

/-! ## How it should end -/

namespace Sent

/-- The call had this socket. -/
def Had (r : Sent) (fd : Nat) : Prop := .popped fd ∈ r.sockets ∨ .opened fd ∈ r.sockets

/-- **A call ends well.** -/
inductive WellFormed (r : Sent) : Prop
  | /-- With `TRUE`, and its socket closed or in the pool. -/
    true (hn : r.results = 1) (hp : r.pushed = [.boolean true])
      (hs : ∀ fd, r.Had fd → .closed fd ∈ r.sockets ∨ .pooled fd ∈ r.sockets)
  | /-- With `FALSE` and a message, and its socket closed. -/
    false (hn : r.results = 2) (m : String) (hp : r.pushed = [.boolean false, .message m])
      (hs : ∀ fd, r.Had fd → .closed fd ∈ r.sockets)

end Sent

/-- The bytes that some calls of `write` have moved. -/
def moved : List Outcome → Nat
  | [] => 0
  | .bytes n :: ws => n + moved ws
  | _ :: ws => moved ws

/-- A call of `write` fails before so many bytes were moved. -/
def Breaks (total : Nat) (ws : List Outcome) : Prop :=
  ∃ pre post, ws = pre ++ .error :: post ∧ .error ∉ pre ∧ moved pre < total

namespace Answers

/-- There is a connected socket. -/
def Connected (a : Answers) : Prop :=
  a.popped ≠ none ∨ (a.inetAton = true ∧ a.socket ≠ none ∧ a.connect = true)

/-- `connect` fails. -/
def Unreachable (a : Answers) : Prop :=
  a.popped = none ∧ a.inetAton = true ∧ a.socket ≠ none ∧ a.connect = false

end Answers

variable {dst : Destination} {m : Message} {a : Answers} {r : Sent} {fd : Nat} {op : SocketOp}
  {ws : List Outcome} {buffer : List UInt8}

/-! ## The loop -/

theorem not_breaks_nil {total : Nat} : ¬ Breaks total [] := by
  rintro ⟨pre, post, h, -⟩
  cases pre <;> cases h

theorem breaks_bytes {n total : Nat} :
    Breaks total (.bytes n :: ws) ↔ Breaks (total - n) ws := by
  constructor
  · rintro ⟨_ | ⟨w, pre⟩, post, h, hno, hm⟩
    · cases h
    · obtain ⟨rfl, rfl⟩ := cons.inj h
      exact ⟨pre, post, rfl, fun hp ↦ hno (mem_cons_of_mem _ hp), by simp only [moved] at hm; omega⟩
  · rintro ⟨pre, post, rfl, hno, hm⟩
    exact ⟨.bytes n :: pre, post, rfl, by simpa using hno, by simp only [moved]; omega⟩

theorem breaks_again {total : Nat} : Breaks total (.again :: ws) ↔ Breaks total ws := by
  constructor
  · rintro ⟨_ | ⟨w, pre⟩, post, h, hno, hm⟩
    · cases h
    · obtain ⟨rfl, rfl⟩ := cons.inj h
      exact ⟨pre, post, rfl, fun hp ↦ hno (mem_cons_of_mem _ hp), hm⟩
  · rintro ⟨pre, post, rfl, hno, hm⟩
    exact ⟨.again :: pre, post, rfl, by simpa using hno, hm⟩

/-- The loop fails exactly if a `write` does before the frame is out. -/
theorem writeAll_eq_false_iff : writeAll buffer ws = some false ↔ Breaks buffer.length ws := by
  induction ws generalizing buffer with
  | nil =>
      refine ⟨fun h ↦ ?_, fun h ↦ absurd h not_breaks_nil⟩
      cases buffer <;> cases h
  | cons w ws ih =>
      cases buffer with
      | nil =>
          refine ⟨fun h ↦ (by cases h), ?_⟩
          rintro ⟨pre, post, -, -, hm⟩
          exact absurd hm (Nat.not_lt_zero _)
      | cons b rest =>
          cases w with
          | bytes n =>
              rw [writeAll, ih, length_drop, breaks_bytes]
          | again => rw [writeAll, ih, breaks_again]
          | error =>
              exact ⟨fun _ ↦ ⟨[], ws, rfl, not_mem_nil, by simp [moved]⟩, fun _ ↦ rfl⟩

/-- The loop is not through exactly if no `write` has failed and there is something left. -/
theorem writeAll_eq_none_iff :
    writeAll buffer ws = none ↔ ¬ Breaks buffer.length ws ∧ moved ws < buffer.length := by
  induction ws generalizing buffer with
  | nil =>
      cases buffer with
      | nil => exact ⟨fun h ↦ (by cases h), fun h ↦ absurd h.2 (Nat.not_lt_zero _)⟩
      | cons b rest => exact ⟨fun _ ↦ ⟨not_breaks_nil, by simp [moved]⟩, fun _ ↦ rfl⟩
  | cons w ws ih =>
      cases buffer with
      | nil => exact ⟨fun h ↦ (by cases h), fun h ↦ absurd h.2 (Nat.not_lt_zero _)⟩
      | cons b rest =>
          cases w with
          | bytes n =>
              rw [writeAll, ih, length_drop, breaks_bytes, moved]
              refine and_congr_right fun _ ↦ ?_
              omega
          | again =>
              rw [writeAll, ih, breaks_again]
              exact Iff.rfl
          | error =>
              refine ⟨fun h ↦ (by cases h), fun h ↦ absurd ⟨[], ws, rfl, not_mem_nil, ?_⟩ h.1⟩
              simp [moved]

/-! ## The exits -/

/-- How a call with a socket ends. -/
theorem transmit_wellFormed_iff (hop : op = .popped fd ∨ op = .opened fd)
    (h : transmit dst m a fd op = some r) :
    r.WellFormed ↔ ¬ Breaks (header m ++ m.payload).length a.writes ∧
      ∀ b, a.ack = .byte b → b = 1 := by
  have hhad : ∀ {r : Sent} {fd' : Nat} (ops : List SocketOp), r.sockets = op :: ops →
      (∀ o ∈ ops, o = .closed fd ∨ o = .pooled fd) → r.Had fd' → fd' = fd := by
    rintro r fd' ops hr ho (hm | hm) <;> rw [hr] at hm <;> rcases mem_cons.1 hm with he | hm
    · rcases hop with rfl | rfl <;> cases he
      rfl
    · rcases ho _ hm with he | he <;> cases he
    · rcases hop with rfl | rfl <;> cases he
      rfl
    · rcases ho _ hm with he | he <;> cases he
  unfold transmit at h
  rw [← writeAll_eq_false_iff]
  split at h
  · cases h
  · rename_i hw
    cases h
    refine ⟨fun hr ↦ ?_, fun hr ↦ absurd hw hr.1⟩
    rcases hr with ⟨hn, -, -⟩ | ⟨hn, -, -, -⟩ <;> cases hn
  · rename_i hw
    have hno : writeAll (header m ++ m.payload) a.writes ≠ some false := by
      rw [hw]
      simp
    split at h
    · rename_i e hack
      cases h
      refine ⟨fun _ ↦ ⟨hno, fun b hb ↦ ?_⟩, fun _ ↦ .false rfl _ rfl fun fd' hf ↦ ?_⟩
      · rw [hack] at hb
        cases hb
      · obtain rfl := hhad [.closed fd] rfl (by simp) hf
        simp [refused]
    · rename_i b hack
      split at h
      · rename_i hb
        cases h
        refine ⟨fun _ ↦ ⟨hno, fun b' hb' ↦ ?_⟩, fun _ ↦ .true rfl rfl fun fd' hf ↦ ?_⟩
        · rw [hack] at hb'
          obtain rfl := AckRead.byte.inj hb'
          exact hb
        · obtain rfl := hhad [if a.pushed then .pooled fd else .closed fd] rfl
            (by cases a.pushed <;> simp) hf
          cases a.pushed <;> simp
      · rename_i hb
        cases h
        refine ⟨fun hr ↦ ?_, fun hr ↦ absurd (hr.2 b hack) hb⟩
        rcases hr with ⟨hn, -, -⟩ | ⟨-, -, -, hs⟩
        · cases hn
        · have hclosed := hs fd (by rcases hop with rfl | rfl <;> simp [Sent.Had, refused])
          rcases hop with rfl | rfl <;> simp [refused] at hclosed

/-- **When `send_sync_event` ends well**: `connect` does not fail, and once there is a
connected socket no `write` fails before the frame is out and the answer, if one is read,
is `1`. -/
theorem wellFormed_iff (h : sendSyncEvent dst m a = some r) :
    r.WellFormed ↔ ¬ a.Unreachable ∧
      (a.Connected → ¬ Breaks (header m ++ m.payload).length a.writes ∧
        ∀ b, a.ack = .byte b → b = 1) := by
  unfold sendSyncEvent at h
  split at h
  · rename_i fd hp
    have hun : ¬ a.Unreachable := fun hu ↦ by cases hp.symm.trans hu.1
    have hcon : a.Connected := .inl (by rw [hp]; simp)
    rw [transmit_wellFormed_iff (.inl rfl) h]
    exact ⟨fun hr ↦ ⟨hun, fun _ ↦ hr⟩, fun hr ↦ hr.2 hcon⟩
  · rename_i hp
    split at h
    · rename_i ha
      split at h
      · rename_i fd hs
        split at h
        · rename_i hc
          have hun : ¬ a.Unreachable := fun hu ↦ by cases hc.symm.trans hu.2.2.2
          have hcon : a.Connected := .inr ⟨ha, by rw [hs]; simp, hc⟩
          rw [transmit_wellFormed_iff (.inr rfl) h]
          exact ⟨fun hr ↦ ⟨hun, fun _ ↦ hr⟩, fun hr ↦ hr.2 hcon⟩
        · rename_i hc
          cases h
          refine ⟨fun hr ↦ ?_, fun hr ↦ absurd ⟨hp, ha, by rw [hs]; simp, by simpa using hc⟩ hr.1⟩
          rcases hr with ⟨hn, -, -⟩ | ⟨-, -, -, hclosed⟩
          · cases hn
          · have := hclosed fd (by simp [Sent.Had, refused])
            simp [refused] at this
      · rename_i hs
        cases h
        refine ⟨fun _ ↦ ⟨fun hu ↦ hu.2.2.1 hs, fun hcon ↦ ?_⟩, fun _ ↦ ?_⟩
        · rcases hcon with hcon | hcon
          · exact absurd hp hcon
          · exact absurd hs hcon.2.1
        · exact .false rfl _ rfl fun fd hf ↦ by simp [Sent.Had, refused] at hf
    · rename_i ha
      cases h
      refine ⟨fun _ ↦ ⟨fun hu ↦ ha hu.2.1, fun hcon ↦ ?_⟩, fun _ ↦ ?_⟩
      · rcases hcon with hcon | hcon
        · exact absurd hp hcon
        · exact absurd hcon.1 ha
      · exact .false rfl _ rfl fun fd hf ↦ by simp [Sent.Had, refused] at hf

/-- **When it returns**: it is still at work exactly if it has a connected socket, no `write`
has failed, and part of the frame is left. -/
theorem sendSyncEvent_eq_none_iff : sendSyncEvent dst m a = none ↔
    a.Connected ∧ ¬ Breaks (header m ++ m.payload).length a.writes ∧
      moved a.writes < (header m ++ m.payload).length := by
  have htrans : ∀ fd op, transmit dst m a fd op = none ↔
      ¬ Breaks (header m ++ m.payload).length a.writes ∧
        moved a.writes < (header m ++ m.payload).length := by
    intro fd op
    rw [← writeAll_eq_none_iff, transmit]
    split
    · rename_i hw
      simp only [hw]
    · rename_i hw
      simp [hw]
    · rename_i hw
      rw [hw]
      split
      · simp
      · split <;> simp
  unfold sendSyncEvent Answers.Connected
  rcases hp : a.popped with _ | fd
  · rcases ha : a.inetAton with _ | _
    · simp
    · rcases hs : a.socket with _ | fd
      · simp
      · rcases hc : a.connect with _ | _
        · simp
        · simp [htrans]
  · simp [htrans]

/-! ## The exits that forget something -/

/-- A process, an event and answers: a new socket, the frame in two parts, and an answer. -/
def newSocket (connect : Bool) (writes : List Outcome) (ack : UInt8) : Option Sent :=
  sendSyncEvent ⟨"10.0.0.2", 9999⟩ ⟨3, [0x8e, 0]⟩
    { popped := none, inetAton := true, socket := some 7, connect, writes, ack := .byte ack,
      pushed := true }

/-- **Three exits do not end well**: the socket stays open after a failed `connect` and after
an answer other than `1`, and an error of `write` makes the number of results negative. -/
theorem ill_formed :
    (∃ r, newSocket false [] 1 = some r ∧ ¬ r.WellFormed ∧ r.sockets = [.opened 7]) ∧
      (∃ r, newSocket true [.bytes 5, .error] 1 = some r ∧ ¬ r.WellFormed ∧ r.results = -1) ∧
      ∃ r, newSocket true [.bytes 5, .again, .bytes 10] 2 = some r ∧ ¬ r.WellFormed ∧
        r.sockets = [.opened 7] := by
  refine ⟨⟨_, rfl, fun h ↦ ?_, rfl⟩, ⟨_, rfl, fun h ↦ ?_, rfl⟩, _, rfl, fun h ↦ ?_, rfl⟩
  · rcases h with ⟨hn, -, -⟩ | ⟨-, _, -, hs⟩
    · cases hn
    · exact absurd (hs 7 (.inr (by decide))) (by decide)
  · rcases h with ⟨hn, -, -⟩ | ⟨hn, -, -, -⟩ <;> cases hn
  · rcases h with ⟨hn, -, -⟩ | ⟨-, _, -, hs⟩
    · cases hn
    · exact absurd (hs 7 (.inr (by decide))) (by decide)

/-- `wellFormed_iff` for an event that is accepted. -/
theorem wellFormed_iff_accepted :
    ∃ r, newSocket true [.bytes 5, .again, .bytes 10] 1 = some r ∧ r.WellFormed := by
  obtain ⟨r, hr⟩ : ∃ r, newSocket true [.bytes 5, .again, .bytes 10] 1 = some r := ⟨_, rfl⟩
  refine ⟨r, hr, (wellFormed_iff hr).2 ⟨fun hu ↦ (by cases hu.2.2.2), fun _ ↦ ⟨?_, ?_⟩⟩⟩
  · exact (not_congr writeAll_eq_false_iff).1 (by decide)
  · intro b hb
    exact (AckRead.byte.inj hb).symm

end Leda.Event
