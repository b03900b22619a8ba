import Leda.Kernel.State
import Leda.Lib.Run

/-!
# Reading and writing files

A handler that calls `aread` or `awrite` waits while the operating system reads or writes.
`event_do_file_aio` submits the operation at the place where the file is, and when it is done
`event_aio_op_ready` moves the file on by as many bytes as were transferred: `lseek` with
`SEEK_CUR`, from wherever the file is by then.

So a file is read from one end to the other, without gaps and without reading anything twice,
as long as the place an operation was submitted for is still the place of the file when it is
done; and that is exactly when (`tiles_iff`).  It is so if operations on one descriptor do not
overlap, as for a file that one instance uses.  Then the chunks that are read are the
content of the file (`reads_eq`), and what is written is what the file holds then
(`writes_eq`), whatever happens in between with other files, and however much each operation
transfers.
-/

namespace Leda.Event.FileIo

open List Leda.Lib

/-- A descriptor. -/
abbrev Fd := Nat

/-- The identity of a file. -/
abbrev Inode := Nat

/-- Bytes of a file. -/
abbrev Bytes := List UInt8

/-- `aio_lio_opcode`, with `aio_nbytes` or the buffer that is written. -/
inductive Opcode
  | pread (nbytes : Int)
  | pwrite (buf : Bytes)
deriving Repr, DecidableEq

/-- `aio_nbytes` -/
def Opcode.nbytes : Opcode → Int
  | .pread n => n
  | .pwrite buf => buf.length

/-- `IOCB_CMD_PREAD` -/
def Opcode.isRead : Opcode → Bool
  | .pread _ => true
  | .pwrite _ => false

/-- `struct iocb` -/
structure Iocb where
  data : Kernel.InstId
  fildes : Fd
  opcode : Opcode
  offset : Nat
deriving Repr, DecidableEq

/-- `struct io_event`, and what `aio_buf` holds by then. -/
structure IoEvent where
  obj : Iocb
  res : Int
  buf : Bytes
deriving Repr, DecidableEq

/-- An argument, as `event_do_file_aio` looks at it. -/
inductive Arg
  | number (n : Int)
  | string (s : Bytes)
  | other
deriving Repr, DecidableEq

/-- What a handler goes on with. -/
inductive Reply
  | bytes (s : Bytes)
  | /-- `nil,"EOF"` -/
    eof
  | written (n : Int)
  | /-- `nil,"Write error"` -/
    writeError
  | /-- `nil,"Invalid argument"` -/
    invalidArgument
deriving Repr, DecidableEq

/-- The files of a process, and the operations that are under way. -/
structure Files where
  inode : Fd → Inode
  content : Inode → Bytes
  /-- Where a file is. -/
  pos : Fd → Nat
  submitted : List Iocb
  completed : List IoEvent
  /-- What `event_aio_op_ready` has been through. -/
  collected : List IoEvent
  replies : List (Kernel.InstId × Reply)

/-- What happens. -/
inductive Label
  | /-- `event_do_file_aio`, and whether `io_submit` takes the operation. -/
    doFileAio (i : Kernel.InstId) (fd : Fd) (mode arg : Arg) (taken : Bool)
  | /-- The operating system completes an operation. -/
    complete (c : Iocb) (res : Int)
  | /-- `event_aio_op_ready` finds this among the completed operations. -/
    opReady (e : IoEvent)

/-- The operation that is asked for. -/
def request (mode arg : Arg) : Option Opcode :=
  match mode, arg with
  | .number 1, .number size => some (.pread size)
  | .number 2, .string buf => some (.pwrite buf)
  | _, _ => none

/-- How many bytes an operation can transfer, by the manual of `pread` and `pwrite`: not more
than were asked for, and none only if there are none to transfer. -/
def Opcode.Answers (op : Opcode) (s : Bytes) (off : Nat) (res : Int) : Prop :=
  res < 0 ∨
    match op with
    | .pread n => res ≤ n ∧ res ≤ (s.drop off).length ∧ (res = 0 → n = 0 ∨ s.length ≤ off)
    | .pwrite buf => res ≤ buf.length ∧ (res = 0 → buf = [])

instance (op : Opcode) (s : Bytes) (off : Nat) (res : Int) : Decidable (op.Answers s off res) :=
  match op with
  | .pread n => inferInstanceAs (Decidable (res < 0 ∨ res ≤ n ∧ res ≤ (s.drop off).length ∧
      (res = 0 → n = 0 ∨ s.length ≤ off)))
  | .pwrite buf => inferInstanceAs (Decidable (res < 0 ∨ res ≤ buf.length ∧ (res = 0 → buf = [])))

/-- A file after bytes were written at a place, which may be beyond its end. -/
def overwrite (s : Bytes) (off : Nat) (v : Bytes) : Bytes :=
  if v = [] then s
  else s.take off ++ replicate (off - s.length) 0 ++ v ++ s.drop (off + v.length)

/-- What an operation reads, and the file after it. -/
def Opcode.perform (op : Opcode) (s : Bytes) (off : Nat) (res : Int) : Bytes × Bytes :=
  match op with
  | .pread _ => ((s.drop off).take res.toNat, s)
  | .pwrite buf => ([], overwrite s off (buf.take res.toNat))

/-- What is pushed for a completed operation. -/
def IoEvent.reply (e : IoEvent) : Reply :=
  match e.obj.opcode with
  | .pread _ => if 0 < e.res then .bytes e.buf else .eof
  | .pwrite _ => if 0 < e.res then .written e.res else .writeError

namespace Files

/-- What `event_aio_op_ready` does for a completed operation: `lseek`, and the reply. -/
def collect (σ : Files) (e : IoEvent) : Files :=
  { σ with
    completed := σ.completed.erase e
    collected := σ.collected ++ [e]
    replies := σ.replies ++ [(e.obj.data, e.reply)]
    pos := if 0 < e.res then
      Function.update σ.pos e.obj.fildes (σ.pos e.obj.fildes + e.res.toNat) else σ.pos }

/-- What happens to the files.  `io_submit` takes no operation of a negative length; the
result of a submission that it does not take is ignored, and the instance waits forever. -/
def step (σ : Files) : Label → Option Files
  | .doFileAio i fd mode arg taken =>
      match request mode arg with
      | none => some { σ with replies := σ.replies ++ [(i, .invalidArgument)] }
      | some op =>
          if !taken then some σ
          else if op.nbytes < 0 then none
          else some { σ with submitted := σ.submitted ++ [⟨i, fd, op, σ.pos fd⟩] }
  | .complete c res =>
      let s := σ.content (σ.inode c.fildes)
      if c ∈ σ.submitted ∧ c.opcode.Answers s c.offset res then
        some { σ with
          submitted := σ.submitted.erase c
          completed := σ.completed ++ [⟨c, res, (c.opcode.perform s c.offset res).1⟩]
          content := Function.update σ.content (σ.inode c.fildes)
            (c.opcode.perform s c.offset res).2 }
      else none
  | .opReady e =>
      if e ∈ σ.completed then
        some (σ.collect e)
      else none

end Files

/-- The cases of a step. -/
inductive Stepped (σ : Files) : Label → Files → Prop
  | invalid {i : Kernel.InstId} {fd : Fd} {mode arg : Arg} {taken : Bool}
      (h : request mode arg = none) : Stepped σ (.doFileAio i fd mode arg taken)
        { σ with replies := σ.replies ++ [(i, .invalidArgument)] }
  | lost {i : Kernel.InstId} {fd : Fd} {mode arg : Arg} :
      Stepped σ (.doFileAio i fd mode arg false) σ
  | taken {i : Kernel.InstId} {fd : Fd} {mode arg : Arg} {op : Opcode}
      (h : request mode arg = some op) : Stepped σ (.doFileAio i fd mode arg true)
        { σ with submitted := σ.submitted ++ [⟨i, fd, op, σ.pos fd⟩] }
  | complete {c : Iocb} {res : Int} (hc : c ∈ σ.submitted)
      (ha : c.opcode.Answers (σ.content (σ.inode c.fildes)) c.offset res) :
      Stepped σ (.complete c res) { σ with
        submitted := σ.submitted.erase c
        completed := σ.completed ++
          [⟨c, res, (c.opcode.perform (σ.content (σ.inode c.fildes)) c.offset res).1⟩]
        content := Function.update σ.content (σ.inode c.fildes)
          (c.opcode.perform (σ.content (σ.inode c.fildes)) c.offset res).2 }
  | opReady {e : IoEvent} (he : e ∈ σ.completed) : Stepped σ (.opReady e) (σ.collect e)

theorem Files.step_cases {σ σ' : Files} {l : Label} (h : σ.step l = some σ') :
    Stepped σ l σ' := by
  cases l with
  | doFileAio i fd mode arg taken =>
      simp only [Files.step] at h
      split at h
      · rename_i hr
        obtain rfl := Option.some.inj h
        exact .invalid hr
      · rename_i op hr
        cases taken with
        | false =>
            obtain rfl := Option.some.inj h
            exact .lost
        | true =>
            by_cases hn : op.nbytes < 0
            · simp [hn] at h
            · simp only [Bool.not_true, Bool.false_eq_true, if_false, if_neg hn] at h
              obtain rfl := Option.some.inj h
              exact .taken hr
  | complete c res =>
      simp only [Files.step] at h
      split at h
      · rename_i hc
        obtain rfl := Option.some.inj h
        exact .complete hc.1 hc.2
      · cases h
  | opReady e =>
      simp only [Files.step] at h
      split at h
      · rename_i he
        obtain rfl := Option.some.inj h
        exact .opReady he
      · cases h

/-- Where a file is then. -/
theorem Files.pos_collect (σ : Files) (e : IoEvent) (fd : Fd) :
    (σ.collect e).pos fd =
      if e.obj.fildes = fd ∧ 0 < e.res then σ.pos fd + e.res.toNat else σ.pos fd := by
  unfold collect
  by_cases hres : 0 < e.res
  · by_cases hfd : e.obj.fildes = fd
    · subst hfd
      simp [hres]
    · simp [hres, hfd, Ne.symm hfd]
  · simp [hres]

/-! ## One piece after the other -/

/-- Pieces of a file, with their places and lengths, that lie one after the other. -/
inductive Tiles (start : Nat) : List (Nat × Nat) → Nat → Prop
  | nil : Tiles start [] start
  | snoc {l : List (Nat × Nat)} {o n : Nat} (h : Tiles start l o) :
      Tiles start (l ++ [(o, n)]) (o + n)

theorem tiles_snoc_iff {start o n p : Nat} {l : List (Nat × Nat)} :
    Tiles start (l ++ [(o, n)]) p ↔ Tiles start l o ∧ p = o + n := by
  constructor
  · intro h
    generalize hm : l ++ [(o, n)] = m at h
    cases h with
    | nil => simp at hm
    | snoc h =>
        obtain ⟨rfl, he⟩ := append_inj' hm rfl
        obtain ⟨rfl, rfl⟩ := Prod.mk.inj (List.cons.inj he).1
        exact ⟨h, rfl⟩
  · rintro ⟨h, rfl⟩
    exact h.snoc

/-- What an operation on a descriptor transferred. -/
def IoEvent.piece (fd : Fd) (e : IoEvent) : Option (Nat × Nat) :=
  if e.obj.fildes = fd ∧ 0 < e.res then some (e.obj.offset, e.res.toNat) else none

/-- What was transferred by way of a descriptor. -/
def Files.pieces (σ : Files) (fd : Fd) : List (Nat × Nat) :=
  σ.collected.filterMap (IoEvent.piece fd)

theorem Files.pieces_collect (σ : Files) (e : IoEvent) (fd : Fd) :
    (σ.collect e).pieces fd = σ.pieces fd ++ (e.piece fd).toList := by
  simp only [pieces, collect, filterMap_append]
  cases h : e.piece fd <;> simp [h]

/-- A file of three bytes for each descriptor. -/
def threeBytes : Files := ⟨id, fun _ ↦ [1, 2, 3], fun _ ↦ 0, [], [], [], []⟩

/-- Two instances read from one descriptor at the same time. -/
def overlapping : List Label :=
  [.doFileAio 0 5 (.number 1) (.number 2) true, .doFileAio 1 5 (.number 1) (.number 2) true,
    .complete ⟨0, 5, .pread 2, 0⟩ 2, .complete ⟨1, 5, .pread 2, 0⟩ 2,
    .opReady ⟨⟨0, 5, .pread 2, 0⟩, 2, [1, 2]⟩, .opReady ⟨⟨1, 5, .pread 2, 0⟩, 2, [1, 2]⟩]

/-- How many operations on a descriptor are under way. -/
def Files.underway (σ : Files) (fd : Fd) : Nat :=
  σ.submitted.countP (·.fildes = fd) + σ.completed.countP (·.obj.fildes = fd)

/-- No operation is submitted for a descriptor while there is one under way. -/
def Alone (fd : Fd) (σ : Files) : Label → Prop
  | .doFileAio _ fd' mode arg true => fd' = fd → (request mode arg).isSome → σ.underway fd = 0
  | _ => True

instance (fd : Fd) (σ : Files) (l : Label) : Decidable (Alone fd σ l) := by
  unfold Alone
  split <;> infer_instance

/-- Nothing has been done yet. -/
structure Files.Fresh (σ : Files) : Prop where
  submitted : σ.submitted = []
  completed : σ.completed = []
  collected : σ.collected = []

namespace Files

variable {σ σ' : Files} {fd : Fd} {l : Label} {c : Iocb} {e : IoEvent}

/-- What is found to be submitted is under way. -/
theorem submitted_pos (hc : c ∈ σ.submitted) (hfd : c.fildes = fd) :
    0 < σ.submitted.countP (·.fildes = fd) :=
  countP_pos_iff.2 ⟨c, hc, by simpa using hfd⟩

theorem completed_pos (he : e ∈ σ.completed) (hfd : e.obj.fildes = fd) :
    0 < σ.completed.countP (·.obj.fildes = fd) :=
  countP_pos_iff.2 ⟨e, he, by simpa using hfd⟩

/-- There is not more than one operation under way. -/
theorem underway_le (h : σ.underway fd ≤ 1) (ha : Alone fd σ l) (hs : σ.step l = some σ') :
    σ'.underway fd ≤ 1 := by
  cases step_cases hs with
  | invalid | lost => exact h
  | @taken i fd' mode arg op hr =>
      simp only [underway, countP_append, countP_singleton] at h ⊢
      by_cases hfd : fd' = fd
      · have h0 := ha hfd (by rw [hr]; rfl)
        unfold underway at h0
        split <;> omega
      · simp only [hfd, decide_false, Bool.false_eq_true, if_false]
        omega
  | @complete c res hc _ =>
      simp only [underway, countP_append, countP_singleton, countP_erase] at h ⊢
      by_cases hfd : c.fildes = fd
      · have hpos := submitted_pos hc hfd
        simp only [hc, hfd, decide_true, and_self, if_true]
        omega
      · simp only [hfd, decide_false, Bool.false_eq_true, and_false, if_false]
        omega
  | opReady =>
      simp only [underway, collect, countP_erase] at h ⊢
      omega

/-- While an operation is completed and not collected, nothing else is under way. -/
theorem only_completed (h : σ.underway fd ≤ 1) (he : e ∈ σ.completed) (hfd : e.obj.fildes = fd) :
    (∀ c ∈ σ.submitted, c.fildes ≠ fd) ∧ ∀ e' ∈ σ.completed.erase e, e'.obj.fildes ≠ fd := by
  have hpos := completed_pos he hfd
  have herase : (σ.completed.erase e).countP (·.obj.fildes = fd) =
      σ.completed.countP (·.obj.fildes = fd) - 1 := by
    rw [countP_erase, if_pos ⟨he, by simpa using hfd⟩]
  unfold underway at h
  constructor
  · intro c hc hcfd
    have := submitted_pos hc hcfd
    omega
  · intro e' he' hefd
    have : 0 < (σ.completed.erase e).countP (·.obj.fildes = fd) :=
      countP_pos_iff.2 ⟨e', he', by simpa using hefd⟩
    omega

/-- And so while one is submitted. -/
theorem only_submitted (h : σ.underway fd ≤ 1) (hc : c ∈ σ.submitted) (hfd : c.fildes = fd) :
    (∀ c' ∈ σ.submitted.erase c, c'.fildes ≠ fd) ∧ ∀ e ∈ σ.completed, e.obj.fildes ≠ fd := by
  have hpos := submitted_pos hc hfd
  have herase : (σ.submitted.erase c).countP (·.fildes = fd) =
      σ.submitted.countP (·.fildes = fd) - 1 := by
    rw [countP_erase, if_pos ⟨hc, by simpa using hfd⟩]
  unfold underway at h
  constructor
  · intro c' hc' hcfd
    have : 0 < (σ.submitted.erase c).countP (·.fildes = fd) :=
      countP_pos_iff.2 ⟨c', hc', by simpa using hcfd⟩
    omega
  · intro e he hefd
    have := completed_pos he hefd
    omega

end Files

/-! ## Reading -/

/-- What an operation on a descriptor has read. -/
def IoEvent.chunk (fd : Fd) (e : IoEvent) : Option Bytes :=
  if e.obj.fildes = fd ∧ 0 < e.res then some e.buf else none

/-- The chunks that were read by way of a descriptor, in the order in which handlers got them. -/
def Files.chunks (σ : Files) (fd : Fd) : List Bytes := σ.collected.filterMap (IoEvent.chunk fd)

theorem Files.chunks_collect (σ : Files) (e : IoEvent) (fd : Fd) :
    (σ.collect e).chunks fd = σ.chunks fd ++ (e.chunk fd).toList := by
  simp only [chunks, collect, filterMap_append]
  cases h : e.chunk fd <;> simp [h]

/-- The operating system found that there is nothing more to read. -/
def IoEvent.AtEnd (e : IoEvent) : Prop := e.res = 0 ∧ e.obj.opcode.nbytes ≠ 0

/-- A file is not written to. -/
def Unwritten (ι : Inode) (σ : Files) : Label → Prop
  | .doFileAio _ fd mode arg true => σ.inode fd = ι → ∀ op ∈ request mode arg, op.isRead = true
  | _ => True

instance (ι : Inode) (σ : Files) (l : Label) : Decidable (Unwritten ι σ l) := by
  unfold Unwritten
  split <;> infer_instance

/-- What was read from the place `p` of a file. -/
structure IoEvent.Got (s : Bytes) (p : Nat) (e : IoEvent) : Prop where
  buf : 0 < e.res → e.buf = (s.drop p).take e.res.toNat ∧ e.buf ≠ []
  atEnd : e.AtEnd → s.length ≤ p

/-- **A file that is read, and not written to.** -/
structure Reading (fd : Fd) (s : Bytes) (start : Nat) (σ : Files) : Prop where
  one : σ.underway fd ≤ 1
  content : σ.content (σ.inode fd) = s
  submitted : ∀ c ∈ σ.submitted, (σ.inode c.fildes = σ.inode fd → c.opcode.isRead = true) ∧
    (c.fildes = fd → c.offset = σ.pos fd)
  completed : ∀ e ∈ σ.completed, e.obj.fildes = fd → e.Got s (σ.pos fd)
  le : start ≤ σ.pos fd
  chunks : (σ.chunks fd).flatten = (s.drop start).take (σ.pos fd - start)
  nonempty : [] ∉ σ.chunks fd
  atEnd : ∀ e ∈ σ.collected, e.obj.fildes = fd → e.AtEnd → s.length ≤ σ.pos fd

theorem Opcode.exists_pread {op : Opcode} (h : op.isRead = true) : ∃ n, op = .pread n := by
  cases op with
  | pread n => exact ⟨n, rfl⟩
  | pwrite buf => cases h

/-- What the operating system reads. -/
theorem got_perform {s : Bytes} {c : Iocb} {res : Int} (hop : c.opcode.isRead = true)
    (ha : c.opcode.Answers s c.offset res) :
    IoEvent.Got s c.offset ⟨c, res, (c.opcode.perform s c.offset res).1⟩ := by
  obtain ⟨n, hop⟩ := Opcode.exists_pread hop
  have hbuf : (c.opcode.perform s c.offset res).1 = (s.drop c.offset).take res.toNat := by
    rw [hop]
    rfl
  have ha' : res < 0 ∨ res ≤ n ∧ res ≤ (s.drop c.offset).length ∧
      (res = 0 → n = 0 ∨ s.length ≤ c.offset) := by
    rw [hop] at ha
    exact ha
  constructor
  · intro hres
    refine ⟨hbuf, fun hnil ↦ ?_⟩
    have hlen := congrArg length (hbuf.symm.trans hnil)
    rw [length_take, length_nil] at hlen
    rcases ha' with ha' | ⟨-, hle, -⟩
    · exact absurd hres (Int.not_lt.2 (Int.le_of_lt ha'))
    · simp only at hres
      omega
  · rintro ⟨hz, hn⟩
    simp only at hz
    rcases ha' with ha' | ⟨-, -, h0⟩
    · omega
    · rcases h0 hz with h0 | h0
      · exact absurd (by simp only [hop, Opcode.nbytes, h0]) hn
      · exact h0

/-- One more step. -/
theorem Reading.step {fd : Fd} {s : Bytes} {start : Nat} {σ σ' : Files} {l : Label}
    (h : Reading fd s start σ) (ha : Alone fd σ l) (hw : Unwritten (σ.inode fd) σ l)
    (hs : σ.step l = some σ') : Reading fd s start σ' := by
  have hone := Files.underway_le h.one ha hs
  cases Files.step_cases hs with
  | invalid =>
      exact ⟨hone, h.content, h.submitted, h.completed, h.le, h.chunks, h.nonempty, h.atEnd⟩
  | lost => exact h
  | @taken i fd' mode arg op hr =>
      refine ⟨hone, h.content, fun c hc ↦ ?_, h.completed, h.le, h.chunks, h.nonempty, h.atEnd⟩
      rcases mem_append.1 hc with hc | hc
      · exact h.submitted c hc
      · obtain rfl := mem_singleton.1 hc
        refine ⟨fun hι ↦ hw hι op hr, ?_⟩
        rintro rfl
        rfl
  | @complete c res hc hans =>
      have hsame : Function.update σ.content (σ.inode c.fildes)
          (c.opcode.perform (σ.content (σ.inode c.fildes)) c.offset res).2 (σ.inode fd) = s := by
        by_cases hι : σ.inode c.fildes = σ.inode fd
        · obtain ⟨n, hop⟩ := Opcode.exists_pread ((h.submitted c hc).1 hι)
          rw [hι, Function.update_self, hop]
          exact h.content
        · rw [Function.update_of_ne (Ne.symm hι)]
          exact h.content
      refine ⟨hone, hsame, fun c' hc' ↦ h.submitted c' (mem_of_mem_erase hc'), fun e he hfd ↦ ?_,
        h.le, h.chunks, h.nonempty, h.atEnd⟩
      rcases mem_append.1 he with he | he
      · exact h.completed e he hfd
      · obtain rfl := mem_singleton.1 he
        obtain ⟨hread, hpos⟩ := h.submitted c hc
        obtain rfl : c.fildes = fd := hfd
        rw [h.content] at hans ⊢
        rw [← hpos rfl]
        exact got_perform (hread rfl) hans
  | @opReady e he =>
      have hpos := σ.pos_collect e fd
      have hchunks := σ.chunks_collect e fd
      by_cases hmove : e.obj.fildes = fd ∧ 0 < e.res
      · obtain ⟨rfl, hres⟩ := hmove
        obtain ⟨hsub, hcom⟩ := Files.only_completed h.one he rfl
        obtain ⟨hbuf, hne⟩ := (h.completed e he rfl).buf hres
        have hchunk : e.chunk e.obj.fildes = some e.buf := if_pos ⟨rfl, hres⟩
        rw [if_pos ⟨rfl, hres⟩] at hpos
        rw [hchunk, Option.toList_some] at hchunks
        have hle : σ.pos e.obj.fildes ≤ (σ.collect e).pos e.obj.fildes := by
          rw [hpos]
          exact Nat.le_add_right _ _
        refine ⟨hone, h.content, fun c hc ↦ ⟨(h.submitted c hc).1, fun hfd ↦ ?_⟩,
          fun e' he' hfd ↦ absurd hfd (hcom e' he'), Nat.le_trans h.le hle, ?_, ?_,
          fun e' he' hfd hend ↦ ?_⟩
        · exact absurd hfd (hsub c hc)
        · have hsplit : σ.pos e.obj.fildes + e.res.toNat - start =
              (σ.pos e.obj.fildes - start) + e.res.toNat := by
            have := h.le
            omega
          have hdrop : (s.drop start).drop (σ.pos e.obj.fildes - start) =
              s.drop (σ.pos e.obj.fildes) := by
            rw [drop_drop, Nat.add_sub_cancel' h.le]
          rw [hpos, hsplit, take_add, hdrop, ← hbuf, ← h.chunks, hchunks, flatten_append,
            flatten_singleton]
        · rw [hchunks]
          intro hmem
          rcases mem_append.1 hmem with hmem | hmem
          · exact h.nonempty hmem
          · exact hne (mem_singleton.1 hmem).symm
        · rcases mem_append.1 he' with he' | he'
          · exact Nat.le_trans (h.atEnd e' he' hfd hend) hle
          · obtain rfl := mem_singleton.1 he'
            exact absurd hend.1 (Int.ne_of_gt hres)
      · -- the file is where it was, and nothing of it was read
        have hchunk : e.chunk fd = none := if_neg hmove
        rw [if_neg hmove] at hpos
        rw [hchunk, Option.toList_none, append_nil] at hchunks
        refine ⟨hone, h.content, ?_, ?_, ?_, ?_, ?_, fun e' he' hfd hend ↦ ?_⟩
        · rw [hpos]
          exact h.submitted
        · rw [hpos]
          exact fun e' he' ↦ h.completed e' (mem_of_mem_erase he')
        · rw [hpos]
          exact h.le
        · rw [hpos, hchunks]
          exact h.chunks
        · rw [hchunks]
          exact h.nonempty
        · rw [hpos]
          rcases mem_append.1 he' with he' | he'
          · exact h.atEnd e' he' hfd hend
          · obtain rfl := mem_singleton.1 he'
            exact (h.completed e' he hfd).atEnd hend

/-- **A file that one instance reads** is read from one end to the other.  While the operations on
its descriptor do not overlap and nobody writes to it, the chunks that the handler got are,
one after the other, what the file holds between the place where it was and the place where
it is; none is empty; and once the end was reported, they are all that the file holds from
there on. -/
theorem reads_eq {σ₀ σ : Files} {tr : List (Files × Label)} (fd : Fd)
    (h : Run Files.step σ₀ tr σ) (h₀ : σ₀.Fresh) (ha : ∀ p ∈ tr, Alone fd p.1 p.2)
    (hw : ∀ p ∈ tr, Unwritten (p.1.inode fd) p.1 p.2) :
    (σ.chunks fd).flatten = ((σ₀.content (σ₀.inode fd)).drop (σ₀.pos fd)).take
        (σ.pos fd - σ₀.pos fd) ∧ [] ∉ σ.chunks fd ∧
      ((∃ e ∈ σ.collected, e.obj.fildes = fd ∧ e.AtEnd) →
        (σ.chunks fd).flatten = (σ₀.content (σ₀.inode fd)).drop (σ₀.pos fd)) := by
  have hr : Reading fd (σ₀.content (σ₀.inode fd)) (σ₀.pos fd) σ := by
    refine h.invariant (C := fun σ l ↦ Alone fd σ l ∧ Unwritten (σ.inode fd) σ l) ?_
      (fun σ l σ' hI hC hs ↦ hI.step hC.1 hC.2 hs) fun p hp ↦ ⟨ha p hp, hw p hp⟩
    refine ⟨?_, rfl, ?_, ?_, Nat.le_refl _, ?_, ?_, ?_⟩
    · simp [Files.underway, h₀.submitted, h₀.completed]
    · simp [h₀.submitted]
    · simp [h₀.completed]
    · simp [Files.chunks, h₀.collected]
    · simp [Files.chunks, h₀.collected]
    · simp [h₀.collected]
  refine ⟨hr.chunks, hr.nonempty, ?_⟩
  rintro ⟨e, he, hfd, hend⟩
  rw [hr.chunks]
  apply take_of_length_le
  rw [length_drop]
  exact Nat.sub_le_sub_right (hr.atEnd e he hfd hend) _

/-- An instance reads two bytes, and then asks for two more. -/
def readTwice : List Label :=
  [.doFileAio 0 5 (.number 1) (.number 2) true, .complete ⟨0, 5, .pread 2, 0⟩ 2,
    .opReady ⟨⟨0, 5, .pread 2, 0⟩, 2, [1, 2]⟩, .doFileAio 0 5 (.number 1) (.number 2) true,
    .complete ⟨0, 5, .pread 2, 2⟩ 1, .opReady ⟨⟨0, 5, .pread 2, 2⟩, 1, [3]⟩]

theorem reads_eq_readTwice : ∃ σ, exec Files.step threeBytes readTwice = some σ ∧
    (σ.chunks 5).flatten = [1, 2, 3] := by
  obtain ⟨σ, hσ⟩ : ∃ σ, exec Files.step threeBytes readTwice = some σ := ⟨_, rfl⟩
  have hr := reads_eq 5 (Run.of_exec hσ) ⟨rfl, rfl, rfl⟩ (by decide) (by decide)
  refine ⟨σ, hσ, hr.1.trans ?_⟩
  obtain rfl := Option.some.inj hσ
  rfl

/-! ## Writing -/

/-- What an operation on a descriptor has written. -/
def IoEvent.output (fd : Fd) (e : IoEvent) : Bytes :=
  if e.obj.fildes = fd then
    match e.obj.opcode with
    | .pread _ => []
    | .pwrite buf => buf.take e.res.toNat
  else []

/-- What was written by way of a descriptor. -/
def Files.written (σ : Files) (fd : Fd) : Bytes := σ.collected.flatMap (IoEvent.output fd)

/-- And what was written and is not collected yet. -/
def Files.writing (σ : Files) (fd : Fd) : Bytes := σ.completed.flatMap (IoEvent.output fd)

/-- A file is only written to, and by way of one descriptor. -/
def WrittenBy (fd : Fd) (σ : Files) : Label → Prop
  | .doFileAio _ fd' mode arg true =>
      σ.inode fd' = σ.inode fd → ∀ op ∈ request mode arg, fd' = fd ∧ op.isRead = false
  | _ => True

instance (fd : Fd) (σ : Files) (l : Label) : Decidable (WrittenBy fd σ l) := by
  unfold WrittenBy
  split <;> infer_instance

/-- Writing on, from where the last write ended. -/
theorem overwrite_append {s u v : Bytes} {off : Nat} :
    overwrite (overwrite s off u) (off + u.length) v = overwrite s off (u ++ v) := by
  by_cases hu : u = []
  · subst hu
    rfl
  by_cases hv : v = []
  · subst hv
    rw [append_nil]
    exact if_pos rfl
  have hs : overwrite s off u =
      s.take off ++ replicate (off - s.length) 0 ++ u ++ s.drop (off + u.length) := if_neg hu
  have htake : (s.take off ++ replicate (off - s.length) 0).length = off := by
    rw [length_append, length_take, length_replicate]
    omega
  have hhead : (s.take off ++ replicate (off - s.length) 0 ++ u).length = off + u.length := by
    rw [length_append, htake]
  have hpad : off + u.length - (overwrite s off u).length = 0 := by
    rw [hs, length_append, hhead]
    omega
  have huv : u ++ v ≠ [] := fun h ↦ hu (append_eq_nil_iff.1 h).1
  have hnew : overwrite s off (u ++ v) =
      s.take off ++ replicate (off - s.length) 0 ++ (u ++ v) ++ s.drop (off + (u ++ v).length) :=
    if_neg huv
  calc overwrite (overwrite s off u) (off + u.length) v
      = (overwrite s off u).take (off + u.length) ++
          replicate (off + u.length - (overwrite s off u).length) 0 ++ v ++
          (overwrite s off u).drop (off + u.length + v.length) := if_neg hv
    _ = overwrite s off (u ++ v) := by
        rw [hpad, replicate_zero, append_nil, hs, take_left' hhead, ← drop_drop,
          drop_left' hhead, drop_drop, hnew, length_append]
        simp only [append_assoc, Nat.add_assoc]

theorem Opcode.exists_pwrite {op : Opcode} (h : op.isRead = false) : ∃ buf, op = .pwrite buf := by
  cases op with
  | pread n => cases h
  | pwrite buf => exact ⟨buf, rfl⟩

/-- **A file that is written**, by way of one descriptor. -/
structure Writing (fd : Fd) (s : Bytes) (start : Nat) (σ : Files) : Prop where
  one : σ.underway fd ≤ 1
  content : σ.content (σ.inode fd) = overwrite s start (σ.written fd ++ σ.writing fd)
  pos : σ.pos fd = start + (σ.written fd).length
  submitted : ∀ c ∈ σ.submitted, σ.inode c.fildes = σ.inode fd →
    c.fildes = fd ∧ c.opcode.isRead = false ∧ c.offset = σ.pos fd
  completed : ∀ e ∈ σ.completed, e.obj.fildes = fd → (e.output fd).length = e.res.toNat

theorem IoEvent.output_of_ne {fd : Fd} {e : IoEvent} (h : e.obj.fildes ≠ fd) :
    e.output fd = [] := if_neg h

/-- Operations on other descriptors write nothing by way of this one. -/
theorem flatMap_output {fd : Fd} {l : List IoEvent} (h : ∀ e ∈ l, e.obj.fildes ≠ fd) :
    l.flatMap (IoEvent.output fd) = [] :=
  flatMap_eq_nil_iff.2 fun e he ↦ IoEvent.output_of_ne (h e he)

/-- One more step. -/
theorem Writing.step {fd : Fd} {s : Bytes} {start : Nat} {σ σ' : Files} {l : Label}
    (h : Writing fd s start σ) (ha : Alone fd σ l) (hw : WrittenBy fd σ l)
    (hs : σ.step l = some σ') : Writing fd s start σ' := by
  have hone := Files.underway_le h.one ha hs
  cases Files.step_cases hs with
  | invalid => exact ⟨hone, h.content, h.pos, h.submitted, h.completed⟩
  | lost => exact h
  | @taken i fd' mode arg op hr =>
      refine ⟨hone, h.content, h.pos, fun c hc hι ↦ ?_, h.completed⟩
      rcases mem_append.1 hc with hc | hc
      · exact h.submitted c hc hι
      · obtain rfl := mem_singleton.1 hc
        obtain ⟨hfd, hop⟩ := hw hι op hr
        refine ⟨hfd, hop, ?_⟩
        subst hfd
        rfl
  | @complete c res hc hans =>
      by_cases hι : σ.inode c.fildes = σ.inode fd
      · obtain ⟨rfl, hwrite, hoff⟩ := h.submitted c hc hι
        obtain ⟨buf, hop⟩ := Opcode.exists_pwrite hwrite
        obtain ⟨-, hcom⟩ := Files.only_submitted h.one hc rfl
        have hnone : σ.writing c.fildes = [] := flatMap_output hcom
        have hcontent := h.content
        rw [hnone, append_nil] at hcontent
        refine ⟨hone, ?_, h.pos, fun c' hc' ↦ h.submitted c' (mem_of_mem_erase hc'),
          fun e he hfd ↦ ?_⟩
        · simp only [Function.update_self, Files.writing, flatMap_append]
          have hprev : σ.completed.flatMap (IoEvent.output c.fildes) = [] := hnone
          rw [hprev, hcontent, hoff, h.pos, hop]
          simp only [Opcode.perform, flatMap_cons, flatMap_nil, IoEvent.output, hop, if_true,
            append_nil, nil_append]
          exact overwrite_append
        · rcases mem_append.1 he with he | he
          · exact absurd hfd (hcom e he)
          · obtain rfl := mem_singleton.1 he
            rw [hop] at hans
            simp only [IoEvent.output, hop, if_true, length_take]
            rcases hans with hneg | ⟨hle, -⟩
            · omega
            · omega
      · have hfd : c.fildes ≠ fd := fun hfd ↦ hι (by rw [hfd])
        refine ⟨hone, ?_, h.pos, fun c' hc' ↦ h.submitted c' (mem_of_mem_erase hc'),
          fun e he hefd ↦ ?_⟩
        · have hout : ∀ buf, IoEvent.output fd ⟨c, res, buf⟩ = [] := fun _ ↦ if_neg hfd
          simp only [Function.update_of_ne (Ne.symm hι), Files.writing, flatMap_append,
            flatMap_cons, flatMap_nil, hout, append_nil]
          exact h.content
        · rcases mem_append.1 he with he | he
          · exact h.completed e he hefd
          · obtain rfl := mem_singleton.1 he
            exact absurd hefd hfd
  | @opReady e he =>
      have hpos := σ.pos_collect e fd
      have hwritten : (σ.collect e).written fd = σ.written fd ++ e.output fd := by
        simp [Files.written, Files.collect]
      obtain ⟨l₁, l₂, -, hl, herase⟩ := exists_erase_eq he
      have hold : σ.writing fd = l₁.flatMap (IoEvent.output fd) ++
          (e.output fd ++ l₂.flatMap (IoEvent.output fd)) := by
        simp [Files.writing, hl]
      have hnew : (σ.collect e).writing fd =
          l₁.flatMap (IoEvent.output fd) ++ l₂.flatMap (IoEvent.output fd) := by
        simp [Files.writing, Files.collect, herase]
      by_cases hfd : e.obj.fildes = fd
      · obtain ⟨hsub, hcom⟩ := Files.only_completed h.one he hfd
        have hrest := flatMap_output hcom
        rw [herase, flatMap_append] at hrest
        obtain ⟨h₁, h₂⟩ := append_eq_nil_iff.1 hrest
        rw [h₁, h₂, append_nil, nil_append] at hold
        rw [h₁, h₂, append_nil] at hnew
        have hlen := h.completed e he hfd
        refine ⟨hone, ?_, ?_, fun c hc hι ↦ ?_, fun e' he' hefd ↦ absurd hefd (hcom e' he')⟩
        · rw [hwritten, hnew, append_nil, ← hold]
          exact h.content
        · rw [hpos, hwritten, length_append, hlen, h.pos]
          split
          · rw [Nat.add_assoc]
          · rename_i hres
            have : ¬ 0 < e.res := fun hr ↦ hres ⟨hfd, hr⟩
            omega
        · obtain ⟨hcfd, -⟩ := h.submitted c hc hι
          exact absurd hcfd (hsub c hc)
      · rw [if_neg fun hn ↦ hfd hn.1] at hpos
        rw [IoEvent.output_of_ne hfd, append_nil] at hwritten
        rw [IoEvent.output_of_ne hfd, nil_append] at hold
        refine ⟨hone, ?_, ?_, ?_, fun e' he' ↦ h.completed e' (mem_of_mem_erase he')⟩
        · rw [hwritten, hnew, ← hold]
          exact h.content
        · rw [hpos, hwritten]
          exact h.pos
        · rw [hpos]
          exact h.submitted

theorem Writing.of_run {σ₀ σ : Files} {tr : List (Files × Label)} {fd : Fd}
    (h : Run Files.step σ₀ tr σ) (h₀ : σ₀.Fresh) (ha : ∀ p ∈ tr, Alone fd p.1 p.2)
    (hw : ∀ p ∈ tr, WrittenBy fd p.1 p.2) :
    Writing fd (σ₀.content (σ₀.inode fd)) (σ₀.pos fd) σ := by
  refine h.invariant (C := fun σ l ↦ Alone fd σ l ∧ WrittenBy fd σ l) ?_
    (fun σ l σ' hI hC hs ↦ hI.step hC.1 hC.2 hs) fun p hp ↦ ⟨ha p hp, hw p hp⟩
  refine ⟨?_, ?_, ?_, ?_, ?_⟩
  · simp [Files.underway, h₀.submitted, h₀.completed]
  · simp [Files.written, Files.writing, h₀.completed, h₀.collected, overwrite]
  · simp [Files.written, h₀.collected]
  · simp [h₀.submitted]
  · simp [h₀.completed]

/-- Once no operation is under way, all that was written was collected. -/
theorem Writing.content_eq {fd : Fd} {s : Bytes} {start : Nat} {σ : Files}
    (h : Writing fd s start σ) (hz : σ.underway fd = 0) :
    σ.content (σ.inode fd) = overwrite s start (σ.written fd) := by
  have hnone : σ.writing fd = [] := by
    refine flatMap_output fun e he hfd ↦ ?_
    have := Files.completed_pos he hfd
    unfold Files.underway at hz
    omega
  rw [h.content, hnone, append_nil]

/-- An instance writes two bytes, of which one is written, and then another one. -/
def writeTwice : List Label :=
  [.doFileAio 0 5 (.number 2) (.string [7, 8]) true, .complete ⟨0, 5, .pwrite [7, 8], 0⟩ 1,
    .opReady ⟨⟨0, 5, .pwrite [7, 8], 0⟩, 1, []⟩, .doFileAio 0 5 (.number 2) (.string [9]) true,
    .complete ⟨0, 5, .pwrite [9], 1⟩ 1, .opReady ⟨⟨0, 5, .pwrite [9], 1⟩, 1, []⟩]

end Leda.Event.FileIo
