import Leda.Lib.Run
import Mathlib.Data.List.Basic

/-!
# Reading lines from a socket

A handler must not block its thread, so `leda.utils.socket` makes the sockets return at once:
`receive` tries to read a line, and if that fails it waits until there is something to read and
tries again.  LuaSocket returns the part of a line that it has read beside the error, and does
not read it again.  `receive` drops it, at the first try as at the second; and when the second
try fails, the stage that reads from the socket stops.

So **the lines that are sent are those of the stream** as long as each try finds a whole line,
or nothing (`faithful_iff`).  A line that arrives in two segments loses the first one if the
stage looks in between, and if it comes to that twice the stage takes it for the end.
-/

namespace Leda.Stage.Receive

open List Leda.Lib

/-- Bytes of a stream. -/
abbrev Bytes := List UInt8

/-- `'\n'` -/
abbrev newline : UInt8 := 10

/-- `'\r'` -/
abbrev ret : UInt8 := 13

/-- The error of a try. -/
inductive Err
  | timeout
  | closed
deriving Repr, DecidableEq

/-- What a try of LuaSocket returns: a line, with what is left to be read, or `nil`, an error and
the part of a line that was read. -/
inductive Received
  | line (l rest : Bytes)
  | failed (err : Err) (part : Bytes)
deriving Repr, DecidableEq

/-- What the manual says of `receive("*l")` after `settimeout(0)`: for what has arrived, and
whether the other side has closed the connection.  A line ends with a newline, which is not
returned, and `'\r'` is ignored. -/
structure ReadsLines (receive : Bytes → Bool → Received) : Prop where
  line : ∀ l rest closed, newline ∉ l →
    receive (l ++ newline :: rest) closed = .line (l.filter (· ≠ ret)) rest
  part : ∀ p closed, newline ∉ p →
    receive p closed = .failed (if closed then .closed else .timeout) (p.filter (· ≠ ret))

/-- Where the handler is. -/
inductive Place
  | /-- It calls `sock:receive()`. -/
    reading
  | /-- In `leda.aio.wait_io`. -/
    waiting
  | /-- The loop is over, and the error was sent. -/
    done (err : Err)
deriving Repr, DecidableEq

/-- A socket and the handler that reads from it. -/
structure Reader where
  /-- What has arrived and was not read. -/
  pending : Bytes
  closed : Bool
  place : Place
  /-- The lines that were sent on the port `data`. -/
  sent : List Bytes
  /-- All that has arrived. -/
  arrived : Bytes
deriving Repr, DecidableEq

/-- What happens. -/
inductive Label
  | arrive (segment : Bytes)
  | close
  | /-- The first `old_receive`. -/
    receive
  | /-- The socket is ready to be read, and the second `old_receive`. -/
    ready
deriving Repr, DecidableEq

namespace Reader

/-- The beginning. -/
def start : Reader := ⟨[], false, .reading, [], []⟩

/-- A line was read, and is sent. -/
def send (σ : Reader) (l rest : Bytes) : Reader :=
  { σ with pending := rest, place := .reading, sent := σ.sent ++ [l] }

/-- All that had arrived was read, and the handler goes on elsewhere. -/
def leave (σ : Reader) (p : Place) : Reader := { σ with pending := [], place := p }

def step (receive : Bytes → Bool → Received) (σ : Reader) : Label → Option Reader
  | .arrive segment =>
      if σ.closed then none
      else some { σ with pending := σ.pending ++ segment, arrived := σ.arrived ++ segment }
  | .close => some { σ with closed := true }
  | .receive =>
      if σ.place = .reading then
        match receive σ.pending σ.closed with
        | .line l rest => some (σ.send l rest)
        | .failed _ _ => some (σ.leave .waiting)
      else none
  | .ready =>
      if σ.place = .waiting ∧ (σ.pending ≠ [] ∨ σ.closed = true) then
        match receive σ.pending σ.closed with
        | .line l rest => some (σ.send l rest)
        | .failed err _ => some (σ.leave (.done err))
      else none

/-- **Nothing was lost**: what has arrived are lines, which were sent, and what is pending. -/
def Faithful (σ : Reader) : Prop :=
  ∃ ls : List Bytes, (∀ l ∈ ls, newline ∉ l) ∧ σ.sent = ls.map (·.filter (· ≠ ret)) ∧
    σ.arrived = ls.flatMap (· ++ [newline]) ++ σ.pending

/-- A try finds a whole line, or nothing. -/
def Whole (σ : Reader) : Label → Prop
  | .receive | .ready => σ.pending = [] ∨ newline ∈ σ.pending
  | _ => True

instance (σ : Reader) (l : Label) : Decidable (Whole σ l) := by
  unfold Whole
  split <;> infer_instance

end Reader

section

variable {receive : Bytes → Bool → Received} {σ σ' : Reader} {l : Label}

/-- The cases of a step. -/
inductive Stepped (receive : Bytes → Bool → Received) (σ : Reader) : Label → Reader → Prop
  | arrive {segment : Bytes} : Stepped receive σ (.arrive segment)
      { σ with pending := σ.pending ++ segment, arrived := σ.arrived ++ segment }
  | close : Stepped receive σ .close { σ with closed := true }
  | sent {t : Label} {l rest : Bytes} (ht : t = .receive ∨ t = .ready)
      (h : receive σ.pending σ.closed = .line l rest) : Stepped receive σ t (σ.send l rest)
  | left {t : Label} {err : Err} {part : Bytes} (p : Place) (ht : t = .receive ∨ t = .ready)
      (h : receive σ.pending σ.closed = .failed err part) : Stepped receive σ t (σ.leave p)

theorem step_cases (h : σ.step receive l = some σ') : Stepped receive σ l σ' := by
  cases l with
  | arrive segment =>
      simp only [Reader.step] at h
      split at h
      · cases h
      · obtain rfl := Option.some.inj h
        exact .arrive
  | close =>
      obtain rfl := Option.some.inj h
      exact .close
  | receive =>
      simp only [Reader.step] at h
      split at h
      · split at h <;> obtain rfl := Option.some.inj h
        · exact .sent (.inl rfl) ‹_›
        · exact .left _ (.inl rfl) ‹_›
      · cases h
  | ready =>
      simp only [Reader.step] at h
      split at h
      · split at h <;> obtain rfl := Option.some.inj h
        · exact .sent (.inr rfl) ‹_›
        · exact .left _ (.inr rfl) ‹_›
      · cases h

theorem whole_iff (hl : l = .receive ∨ l = .ready) :
    σ.Whole l ↔ σ.pending = [] ∨ newline ∈ σ.pending := by
  rcases hl with rfl | rfl <;> exact Iff.rfl

/-- Lines end with a newline. -/
theorem getLast?_lines {ls : List Bytes} (h : ls.flatMap (· ++ [newline]) ≠ []) :
    (ls.flatMap (· ++ [newline])).getLast? = some newline := by
  rcases eq_nil_or_concat ls with rfl | ⟨init, l, rfl⟩
  · exact absurd rfl h
  · simp

/-- A try that finds a whole line, or nothing, loses nothing. -/
theorem faithful_step (hr : ReadsLines receive) (h : σ.Faithful) (hw : σ.Whole l)
    (hs : σ.step receive l = some σ') : σ'.Faithful := by
  obtain ⟨ls, hls, hsent, harr⟩ := h
  cases step_cases hs with
  | arrive =>
      refine ⟨ls, hls, hsent, ?_⟩
      simp only [harr, append_assoc]
  | close => exact ⟨ls, hls, hsent, harr⟩
  | @sent t l rest ht hrec =>
      rw [whole_iff ht] at hw
      rcases hw with hnil | hmem
      · rw [hnil, hr.part [] _ not_mem_nil] at hrec
        cases hrec
      · obtain ⟨raw, rest', hp, hraw⟩ := eq_append_cons_of_mem hmem
        rw [hp, hr.line raw rest' _ hraw] at hrec
        obtain ⟨rfl, rfl⟩ := Received.line.inj hrec
        refine ⟨ls ++ [raw], forall_mem_append.2 ⟨hls, by simpa using hraw⟩, ?_, ?_⟩
        · rw [Reader.send, map_append, hsent]
          rfl
        · simp [Reader.send, harr, hp]
  | left p ht hrec =>
      rw [whole_iff ht] at hw
      rcases hw with hnil | hmem
      · refine ⟨ls, hls, hsent, ?_⟩
        rw [hnil] at harr
        exact harr
      · obtain ⟨raw, rest', hp, hraw⟩ := eq_append_cons_of_mem hmem
        rw [hp, hr.line raw rest' _ hraw] at hrec
        cases hrec

/-- **A part of a line that is read is lost.** -/
theorem not_faithful_step (hr : ReadsLines receive) (h : σ.Faithful) (hw : ¬ σ.Whole l)
    (hs : σ.step receive l = some σ') : ¬ σ'.Faithful := by
  obtain ⟨ls, -, -, harr⟩ := h
  cases step_cases hs with
  | arrive | close => exact absurd trivial hw
  | @sent t l rest ht hrec =>
      rw [whole_iff ht, not_or] at hw
      rw [hr.part _ _ hw.2] at hrec
      cases hrec
  | left p ht hrec =>
      rw [whole_iff ht, not_or] at hw
      rintro ⟨ls', -, -, harr'⟩
      simp only [Reader.leave, append_nil] at harr'
      -- the last byte that has arrived ends a line
      have hne : ls'.flatMap (· ++ [newline]) ≠ [] := by
        rw [← harr', harr]
        exact append_ne_nil_of_right_ne_nil _ hw.1
      have hlast := getLast?_lines hne
      rw [← harr', harr, getLast?_append_of_ne_nil _ hw.1] at hlast
      exact hw.2 (mem_of_getLast? hlast)

/-- **The lines that are sent are those of the stream** exactly as long as each try to read one
finds a whole line, or nothing at all. -/
theorem faithful_iff (receive : Bytes → Bool → Received) (hr : ReadsLines receive)
    {tr : List (Reader × Label)} {σ : Reader} (h : Run (Reader.step receive) .start tr σ) :
    (∀ x ∈ visited tr σ, x.Faithful) ↔ ∀ p ∈ tr, p.1.Whole p.2 :=
  h.forall_visited_iff (I := Reader.Faithful) ⟨[], by simp, rfl, rfl⟩
    (fun _ _ _ hI hC hs ↦ faithful_step hr hI hC hs) (fun _ hI ↦ hI)
    fun _ _ _ hI hC hs ↦ not_faithful_step hr hI hC hs

end

/-- A function with that behaviour. -/
def receiveLine (p : Bytes) (closed : Bool) : Received :=
  if newline ∈ p then
    .line ((p.takeWhile (· ≠ newline)).filter (· ≠ ret)) (p.dropWhile (· ≠ newline)).tail
  else .failed (if closed then .closed else .timeout) (p.filter (· ≠ ret))

theorem readsLines_receiveLine : ReadsLines receiveLine where
  line l rest closed hl := by
    have hpos : ∀ b ∈ l, decide (b ≠ newline) = true := by
      intro b hb
      simp only [decide_eq_true_eq]
      rintro rfl
      exact hl hb
    rw [receiveLine, if_pos (by simp), takeWhile_append_of_pos hpos, dropWhile_append_of_pos hpos]
    simp
  part p closed hp := if_neg hp

/-- A line that arrives in two segments. -/
def segments : List Label := [.arrive [65], .receive, .arrive [66, 10], .ready]

/-- The first segment is lost. -/
theorem faithful_iff_segments : ∃ σ, exec (Reader.step receiveLine) .start segments = some σ ∧
    σ.sent = [[66]] ∧
      ¬ ∀ x ∈ visited (execTrace (Reader.step receiveLine) .start segments) σ, x.Faithful := by
  obtain ⟨σ, hσ⟩ : ∃ σ, exec (Reader.step receiveLine) .start segments = some σ := ⟨_, rfl⟩
  refine ⟨σ, hσ, ?_, fun hall ↦ ?_⟩
  · obtain rfl := Option.some.inj hσ
    rfl
  · have hw := (faithful_iff receiveLine readsLines_receiveLine (Run.of_exec hσ)).1 hall
    exact absurd hw (by decide)

end Leda.Stage.Receive
