import Mathlib.Data.List.Basic
import Mathlib.Data.List.Nodup
import Mathlib.Data.List.Infix

/-!
# Sending a response

`send` of the HTTP controller hands the response to a socket with a time limit.  The socket
may accept a part only; it then returns, after `nil` and the error, the place of the last byte
it has accepted *in the string it was given*.  The loop adds these numbers up in `sent`, and
gives the socket what `string.sub(resp,sent)` leaves.

That string begins with the byte at the place `sent`, which was accepted already, except if
`sent` is `0`: then it is the whole response.  So the first part that is accepted is followed
by its own last byte (`not_prefix_of_repeated`).  And the loop is left only by a call that
returns no number, or if `sent` has grown to the length: a socket that is closed returns a
number each time, so that the loop goes on calling it (`not_over_of_closed`).

What is accepted is kept together with its places in the response, so that a byte that is
accepted twice is seen although the next one may equal it.  The loop delivers the response
exactly if there is none, or nothing was accepted before the call that accepts it all
(`delivers_exactly`).
-/

namespace Leda.Http

open List

/-- The errors of a socket that `send` meets. -/
inductive SocketError
  | timeout
  | closed
deriving DecidableEq, Repr

/-- What a socket does with a string. -/
inductive Answer
  | /-- All of it is accepted. -/
    full
  | /-- The first `k` bytes are accepted, and then there is an error. -/
    part (err : SocketError) (k : Nat)
deriving DecidableEq, Repr

namespace Answer

/-- How many bytes of a string of this length are accepted. -/
def count (n : Nat) : Answer → Nat
  | full => n
  | part _ k => k

/-- What `clt:send` returns for a string of this length: the place of the last byte, or `nil`,
the error and the place of the last byte. -/
def results (n : Nat) : Answer → Option Nat × Option SocketError × Option Nat
  | full => (some n, none, none)
  | part err k => (none, some err, some k)

/-- A part is not everything. -/
def Fits (n : Nat) : Answer → Prop
  | full => True
  | part _ k => k < n

instance (n : Nat) : (ans : Answer) → Decidable (ans.Fits n)
  | full => isTrue trivial
  | part _ k => inferInstanceAs (Decidable (k < n))

end Answer

/-- `string.sub(s,i)`, for `i ≥ 0`; there is no place `0`, which counts as `1`. -/
def sub {α : Type} (s : List α) (i : Nat) : List α := s.drop (i - 1)

/-- The local variables of `send`, and what the socket has accepted. -/
structure Loop where
  sent : Nat
  /-- The loop was left by `break`. -/
  broken : Bool
  /-- The bytes, with their places in the response, from `0` on. -/
  accepted : List (UInt8 × Nat)
deriving DecidableEq, Repr

namespace Loop

/-- At the first test of the loop. -/
def start : Loop := ⟨0, false, []⟩

/-- The loop is left. -/
def Over (resp : List UInt8) (l : Loop) : Prop := l.broken = true ∨ resp.length ≤ l.sent

instance (resp : List UInt8) (l : Loop) : Decidable (l.Over resp) :=
  inferInstanceAs (Decidable (_ ∨ _))

/-- One turn of the loop, which calls `clt:send` and gets this answer; after the loop there is
no call. -/
def turn (resp : List UInt8) (l : Loop) (ans : Answer) : Loop :=
  if l.Over resp then l
  else
    let given := sub resp.zipIdx l.sent
    let (_, err, lsent) := ans.results given.length
    let l := { l with accepted := l.accepted ++ given.take (ans.count given.length) }
    if lsent = none ∧ err ≠ some .timeout then { l with broken := true }
    else
      match lsent with
      | some k => { l with sent := l.sent + k }
      | none => l

/-- The loop, with these answers one after the other. -/
def run (resp : List UInt8) (l : Loop) (answers : List Answer) : Loop :=
  answers.foldl (turn resp) l

/-- The answers that the loop gets are possible for the strings that it hands over. -/
def Feasible (resp : List UInt8) : Loop → List Answer → Prop
  | _, [] => True
  | l, ans :: answers =>
    (¬ l.Over resp → ans.Fits (sub resp.zipIdx l.sent).length) ∧
      Feasible resp (l.turn resp ans) answers

instance decidableFeasible (resp : List UInt8) :
    (l : Loop) → (answers : List Answer) → Decidable (Feasible resp l answers)
  | _, [] => isTrue trivial
  | l, ans :: answers =>
    have := decidableFeasible resp (l.turn resp ans) answers
    inferInstanceAs (Decidable (_ ∧ _))

end Loop

/-- The end of a sequence of answers: after some that time out, the rest is accepted or the
connection is closed. -/
inductive Last
  | success
  | closed (k : Nat)
deriving DecidableEq, Repr

/-- The answers that time out accept these numbers of bytes. -/
def answers (parts : List Nat) (last : Last) : List Answer :=
  parts.map (.part .timeout) ++ [match last with
    | .success => .full
    | .closed k => .part .closed k]

/-- **The response is delivered**: the loop ends, the socket has accepted the response if the
last answer is a success, and a beginning of it otherwise, each byte once. -/
structure Delivers (resp : List UInt8) (parts : List Nat) (last : Last) : Prop where
  ended : (Loop.start.run resp (answers parts last)).Over resp
  all : last = .success → (Loop.start.run resp (answers parts last)).accepted = resp.zipIdx
  beginning : (Loop.start.run resp (answers parts last)).accepted <+: resp.zipIdx

/-! ## A byte that is repeated -/

/-- **A byte is repeated** if what follows begins with the last byte that was accepted. -/
theorem not_prefix_of_repeated {α : Type} {l : List α} {k j : Nat} (hl : l.Nodup) (hk : 0 < k)
    (hkl : k < l.length) (hj : 0 < j) : ¬ l.take k ++ (sub l k).take j <+: l := by
  rintro ⟨t, ht⟩
  have hlen : k - 1 < l.length := by omega
  -- the element at the place `k` would be the one at `k - 1`
  have hat : (l.take k ++ (sub l k).take j ++ t)[k]? = l[k - 1]? := by
    have hleft : (l.take k).length = k := length_take_of_le (by omega)
    rw [append_assoc, getElem?_append_right (by omega), hleft, Nat.sub_self,
      getElem?_append_left (by simp [sub]; omega), getElem?_take_of_lt hj, sub,
      List.getElem?_drop, Nat.add_zero]
  rw [ht, List.getElem?_eq_getElem hlen, List.getElem?_eq_getElem hkl] at hat
  have heq := (hl.getElem_inj_iff).1 (Option.some.inj hat)
  omega

theorem nodup_zipIdx (resp : List UInt8) : resp.zipIdx.Nodup := by
  refine Nodup.of_map Prod.snd ?_
  rw [zipIdx_map_snd]
  exact nodup_range' _

namespace Loop

variable {resp : List UInt8} {l : Loop} {ans : Answer} {k : Nat} {as : List Answer}

/-- A first part of the response is accepted, and nothing else. -/
structure Begun (resp : List UInt8) (l : Loop) : Prop where
  pos : 0 < l.sent
  lt : l.sent < resp.length
  running : l.broken = false
  accepted : l.accepted = resp.zipIdx.take l.sent

/-- What is accepted is no beginning of the response. -/
def Spoiled (resp : List UInt8) (l : Loop) : Prop := ¬ l.accepted <+: resp.zipIdx

theorem not_over_start (h : resp ≠ []) : ¬ start.Over resp := by
  have := length_pos_iff.2 h
  rintro (hb | hs)
  · cases hb
  · change resp.length ≤ 0 at hs
    omega

/-- While a part only is accepted, the loop goes on. -/
theorem Begun.not_over (h : l.Begun resp) : ¬ l.Over resp := by
  have := h.lt
  rintro (hb | hs)
  · rw [h.running] at hb
    cases hb
  · omega

/-- A turn only adds to what is accepted. -/
theorem accepted_turn (l : Loop) (ans : Answer) : l.accepted <+: (l.turn resp ans).accepted := by
  unfold turn
  split
  · exact prefix_rfl
  · cases ans with
    | full => exact prefix_append _ _
    | part err k => exact prefix_append _ _

theorem Spoiled.turn (h : l.Spoiled resp) (ans : Answer) : (l.turn resp ans).Spoiled resp :=
  fun hp ↦ h ((accepted_turn l ans).trans hp)

/-! ## The turns of the loop -/

/-- An error before anything is accepted changes nothing. -/
theorem turn_start_zero (err : SocketError) : start.turn resp (.part err 0) = start := by
  unfold turn
  split
  · rfl
  · simp [start, Answer.results, Answer.count]

/-- The first part that is accepted. -/
theorem turn_start_part (err : SocketError) (hk : 0 < k) (hlt : k < resp.length) :
    (start.turn resp (.part err k)).Begun resp := by
  have hne : resp ≠ [] := length_pos_iff.1 (by omega)
  rw [turn, if_neg (not_over_start hne)]
  refine ⟨?_, ?_, rfl, ?_⟩
  · change 0 < 0 + k
    omega
  · change 0 + k < resp.length
    omega
  · change [] ++ (resp.zipIdx.drop 0).take k = resp.zipIdx.take (0 + k)
    rw [nil_append, drop_zero, Nat.zero_add]

/-- The response is accepted at once. -/
theorem turn_start_full (h : resp ≠ []) :
    start.turn resp .full = ⟨0, true, resp.zipIdx⟩ := by
  rw [turn, if_neg (not_over_start h)]
  simp [start, Answer.results, Answer.count, sub]

/-- **After a first part, a turn changes nothing or repeats a byte.** -/
theorem Begun.turn (h : l.Begun resp) (ans : Answer) :
    (l.turn resp ans).Begun resp ∨ (l.turn resp ans).Spoiled resp := by
  have hlen : l.sent < resp.zipIdx.length := by simpa using h.lt
  -- whatever is accepted now begins with a byte that was accepted
  have hspoil : ∀ j, 0 < j → ¬ l.accepted ++ (sub resp.zipIdx l.sent).take j <+: resp.zipIdx := by
    intro j hj
    rw [h.accepted]
    exact not_prefix_of_repeated (nodup_zipIdx resp) h.pos hlen hj
  rw [Loop.turn, if_neg h.not_over]
  cases ans with
  | full =>
      refine .inr (hspoil _ ?_)
      simp only [Answer.count, sub, length_drop]
      omega
  | part err j =>
      by_cases hj : j = 0
      · subst hj
        refine .inl ⟨h.pos, h.lt, h.running, ?_⟩
        change l.accepted ++ (sub resp.zipIdx l.sent).take 0 = _
        rw [take_zero, append_nil]
        exact h.accepted
      · exact .inr (hspoil j (by omega))

theorem Begun.run (h : l.Begun resp ∨ l.Spoiled resp) (as : List Answer) :
    (l.run resp as).Begun resp ∨ (l.run resp as).Spoiled resp := by
  induction as generalizing l with
  | nil => exact h
  | cons ans as ih => exact ih (h.elim (fun hb ↦ hb.turn ans) fun hs ↦ .inr (hs.turn ans))

/-- **A socket that is closed is called again and again**, if the response was not accepted
whole. -/
theorem not_over_of_closed (h : l.Begun resp ∨ l = start ∧ resp ≠ []) (n : Nat) :
    ¬ (l.run resp (replicate n (.part .closed 0))).Over resp := by
  have hturn : l.turn resp (.part .closed 0) = l := by
    rcases h with h | ⟨rfl, -⟩
    · rw [turn, if_neg h.not_over]
      simp [Answer.results, Answer.count]
    · exact turn_start_zero _
  have hrun : l.run resp (replicate n (.part .closed 0)) = l := by
    induction n with
    | zero => rfl
    | succ n ih =>
        rw [replicate_succ, run, foldl_cons, hturn]
        exact ih
  rw [hrun]
  rcases h with h | ⟨rfl, h⟩
  · exact h.not_over
  · exact not_over_start h

end Loop

/-! ## Delivery -/

section

variable {resp : List UInt8} {parts : List Nat} {last : Last} {k : Nat}

theorem not_delivers (h : (Loop.start.run resp (answers parts last)).Begun resp ∨
    (Loop.start.run resp (answers parts last)).Spoiled resp) : ¬ Delivers resp parts last :=
  fun hd ↦ h.elim (fun hb ↦ hb.not_over hd.ended) fun hs ↦ hs hd.beginning

/-- An answer that accepts nothing does not matter. -/
theorem delivers_zero : Delivers resp (0 :: parts) last ↔ Delivers resp parts last := by
  have hrun : Loop.start.run resp (answers (0 :: parts) last) =
      Loop.start.run resp (answers parts last) := by
    change (Loop.start.turn resp (.part .timeout 0)).run resp (answers parts last) = _
    rw [Loop.turn_start_zero]
  constructor
  · rintro ⟨ho, ha, hb⟩
    rw [hrun] at ho ha hb
    exact ⟨ho, ha, hb⟩
  · rintro ⟨ho, ha, hb⟩
    exact ⟨by rwa [hrun], by rwa [hrun], by rwa [hrun]⟩

/-- Nothing is to be delivered. -/
theorem delivers_nil : Delivers [] parts last := by
  have hrun : ∀ as, Loop.start.run [] as = Loop.start := by
    intro as
    induction as with
    | nil => rfl
    | cons ans as ih => exact ih
  refine ⟨.inr (Nat.zero_le _), fun _ ↦ ?_, ?_⟩
  · rw [hrun]
    rfl
  · rw [hrun]
    exact nil_prefix

/-- The socket accepts the whole response. -/
theorem delivers_success (hr : resp ≠ []) : Delivers resp [] .success := by
  have hrun : Loop.start.run resp (answers [] .success) = ⟨0, true, resp.zipIdx⟩ :=
    Loop.turn_start_full hr
  refine ⟨.inl ?_, fun _ ↦ ?_, ?_⟩
  · rw [hrun]
  · rw [hrun]
  · rw [hrun]

/-- **The loop does not end** if the connection is closed. -/
theorem not_delivers_closed (hr : resp ≠ []) (hk : k < resp.length) :
    ¬ Delivers resp [] (.closed k) := by
  by_cases h0 : k = 0
  · subst h0
    intro hd
    have hover := hd.ended
    change (Loop.start.turn resp (.part .closed 0)).Over resp at hover
    rw [Loop.turn_start_zero] at hover
    exact Loop.not_over_start hr hover
  · exact not_delivers (.inl (Loop.turn_start_part .closed (by omega) hk))

/-- **The response is delivered exactly if** there is none, or the socket accepts nothing before
it accepts the whole response. -/
theorem delivers_exactly (resp : List UInt8) (parts : List Nat) (last : Last)
    (hf : Loop.start.Feasible resp (answers parts last)) :
    Delivers resp parts last ↔ resp = [] ∨ last = .success ∧ ∀ k ∈ parts, k = 0 := by
  by_cases hr : resp = []
  · subst hr
    exact iff_of_true delivers_nil (.inl rfl)
  rw [or_iff_right hr]
  -- the strings handed over first are the response
  have hfit : ∀ err k, (¬ Loop.start.Over resp →
      (Answer.part err k).Fits (sub resp.zipIdx 0).length) → k < resp.length := by
    intro err k h
    simpa [Answer.Fits, sub] using h (Loop.not_over_start hr)
  induction parts with
  | nil =>
      cases last with
      | success => exact iff_of_true (delivers_success hr) ⟨rfl, by simp⟩
      | closed k => exact iff_of_false (not_delivers_closed hr (hfit _ _ hf.1)) (by simp)
  | cons k parts ih =>
      obtain ⟨hk, hf⟩ := hf
      rw [forall_mem_cons]
      by_cases h0 : k = 0
      · subst h0
        rw [Loop.turn_start_zero] at hf
        exact (delivers_zero.trans (ih hf)).trans (by simp)
      · refine iff_of_false (not_delivers ?_) fun h ↦ h0 h.2.1
        exact Loop.Begun.run (.inl (Loop.turn_start_part .timeout (by omega) (hfit _ _ hk))) _

/-- A response of three bytes, at a socket that is busy at first. -/
theorem delivers_exactly_busy : Delivers [79, 75, 10] [0, 0] .success ↔
    [79, 75, 10] = ([] : List UInt8) ∨ Last.success = .success ∧ ∀ k ∈ [0, 0], k = 0 :=
  delivers_exactly [79, 75, 10] [0, 0] .success (by decide)

/-- **One byte is accepted twice** if the first call accepts two of three. -/
theorem not_delivers_two : Loop.start.Feasible [79, 75, 10] (answers [2] .success) ∧
    (Loop.start.run [79, 75, 10] (answers [2] .success)).accepted.map Prod.fst =
      [79, 75, 75, 10] ∧
    ¬ Delivers [79, 75, 10] [2] .success := by
  refine ⟨by decide, by decide, fun hd ↦ ?_⟩
  have hall := hd.all rfl
  revert hall
  decide

end

end Leda.Http
