import Leda.Lib.Bytes
import Leda.Lib.Pattern
import Leda.Lib.Removal

/-!
# The clients of the controller

The HTTP controller keeps the clients in `server.list`.  In every turn of its loop
`socket.select` gives it those that can be read, in a list of their own, and it visits this list
with `ipairs`.  A client that it closes, because of an error, of a request that is neither `GET`
nor `POST`, or at its own wish, is removed from `server.list`.

But it is removed by its place in the list of those that can be read.  So what goes is whatever
client has this place in `server.list`, and after the first removal one that came later: the
clients that go are those of `Lib.removed` (`run_list`).  Exactly if they are, in some order, the
ones that were closed, the list is as it should be (`dropsClosed_iff`).  That every client is
visited is no problem, as the list that is visited does not change (`run_visited`).
-/

namespace Leda.Http

open List Leda.Lib

/-- What is received. -/
abbrev Bytes := List UInt8

/-! ## Requests -/

/-- What a client is found to have sent: the first line, or an error, and then the lines up to
the first `nil`. -/
structure Received where
  line : Except Bytes Bytes
  header : List Bytes

/-- `%s` -/
def isSpace (b : UInt8) : Bool := b = 32 || (9 ≤ b && b ≤ 13)

/-- `([^%s]+)` -/
def word : Pattern.Piece UInt8 := ⟨fun b ↦ !isSpace b, .plus, true⟩

/-- ` +` -/
def blanks : Pattern.Piece UInt8 := ⟨(· = 32), .plus, false⟩

/-- `([^%s]+) +([^%s]+) +([^%s]+)` -/
def requestLine : List (Pattern.Piece UInt8) := [word, blanks, word, blanks, word]

/-- `([^:]+)%s*:%s*(.+)` -/
def headerLine : List (Pattern.Piece UInt8) :=
  [⟨(· ≠ 58), .plus, true⟩, ⟨isSpace, .star, false⟩, ⟨(· = 58), .one, false⟩,
    ⟨isSpace, .star, false⟩, ⟨fun _ ↦ true, .plus, true⟩]

/-- `{string.match(line,pattern)}` -/
def captures (pattern : List (Pattern.Piece UInt8)) (line : Bytes) : List Bytes :=
  ((Pattern.find? pattern line).map fun r ↦ r.1).getD []

/-- `req.type`, if it is one that is served. -/
def method (line : Bytes) : Option Bytes :=
  (captures requestLine line)[0]?.filter fun m ↦ m = ascii "GET" || m = ascii "POST"

/-- `req.header[name]`: the last line with this name. -/
def header (lines : List Bytes) (name : Bytes) : Option Bytes :=
  (lines.filterMap fun line ↦
    match captures headerLine line with
    | [n, v] => if n = name then some v else none
    | _ => none).getLast?

/-- How the visit of a client ends. -/
inductive Outcome
  | /-- There was an error, and the client is closed. -/
    failed
  | /-- The method is not allowed: the client is closed, and the pass is over. -/
    refused
  | /-- The request is answered, and the client is closed if it wants it. -/
    served (close : Bool)
deriving DecidableEq

/-- What the request of a client leads to; `auth` is set if a password is required. -/
def outcome (auth : Option Bytes) (r : Received) : Outcome :=
  match r.line with
  | .error _ => .failed
  | .ok line =>
    match method line with
    | none => .refused
    | some _ =>
      -- what is not authorized is answered, and the header is not looked at further
      if auth.any fun a ↦ header r.header (ascii "Authorization") ≠ some (ascii "Basic " ++ a) then
        .served false
      else .served (header r.header (ascii "Connection") = some (ascii "close"))

example : outcome none ⟨.ok (ascii "GET  /graph HTTP/1.1"), [ascii "Connection : close"]⟩ =
    .served false := by decide

example : outcome none ⟨.ok (ascii "GET /graph HTTP/1.1"), [ascii "Connection: close"]⟩ =
    .served true := by decide

example : outcome none ⟨.ok (ascii "PUT /graph HTTP/1.1"), []⟩ = .refused := by decide

/-! ## A pass over the clients -/

/-- `server.list`, the clients that were closed, and those that were visited. -/
structure Pass (C : Type) where
  list : List C
  closed : List C
  visited : List C

variable {C : Type}

/-- `table.remove(t,pos)`, which does nothing for a place that the table does not have. -/
def tableRemove (t : List C) (pos : Nat) : List C :=
  if 1 ≤ pos ∧ pos ≤ t.length then t.eraseIdx (pos - 1) else t

/-- `clt:close()` and `table.remove(server.list,i)`. -/
def Pass.drop (σ : Pass C) (i : Nat) (clt : C) : Pass C :=
  ⟨tableRemove σ.list i, σ.closed ++ [clt], σ.visited ++ [clt]⟩

/-- The loop over the clients that can be read, from the place `i` on. -/
def passFrom (out : C → Outcome) : Nat → List C → Pass C → Pass C
  | _, [], σ => σ
  | i, clt :: rest, σ =>
    match out clt with
    | .failed | .served true => passFrom out (i + 1) rest (σ.drop i clt)
    | .refused => σ.drop i clt
    | .served false => passFrom out (i + 1) rest { σ with visited := σ.visited ++ [clt] }

/-- The clients, and those of them that `socket.select` finds readable, in its order. -/
structure Selected (C : Type) where
  list : List C
  readable : List C
  nodup : list.Nodup
  readable_nodup : readable.Nodup
  subset : ∀ c ∈ readable, c ∈ list

/-- The pass, for what the clients have sent. -/
def pass (auth : Option Bytes) (received : C → Received) (s : Selected C) : Pass C :=
  passFrom (fun c ↦ outcome auth (received c)) 1 s.readable ⟨s.list, [], []⟩

/-- **The clients that were closed are dropped, and no other**; each that can be read was
visited, unless a request before ended the pass. -/
structure DropsClosed (auth : Option Bytes) (received : C → Received) (s : Selected C) : Prop where
  list : ∀ c, c ∈ (pass auth received s).list ↔ c ∈ s.list ∧ c ∉ (pass auth received s).closed
  once : (pass auth received s).list.Nodup
  visited : ∀ (i : Nat) (c : C), s.readable[i]? = some c → c ∈ (pass auth received s).visited ∨
    ∃ (j : Nat) (d : C), j < i ∧ s.readable[j]? = some d ∧ outcome auth (received d) = .refused

/-- The clients that are closed before the pass is over, with their places, the first of which
is `i`. -/
def closing (out : C → Outcome) : Nat → List C → List (C × Nat)
  | _, [] => []
  | i, clt :: rest =>
    match out clt with
    | .failed | .served true => (clt, i) :: closing out (i + 1) rest
    | .refused => [(clt, i)]
    | .served false => closing out (i + 1) rest

section

variable {out : C → Outcome} {rest : List C} {i k : Nat} {σ : Pass C} {c : C}

/-- A place from `1` on. -/
theorem tableRemove_succ (t : List C) (i : Nat) : tableRemove t (i + 1) = t.eraseIdx i := by
  rw [tableRemove]
  split
  · rfl
  · rw [eraseIdx_of_length_le (by omega)]

theorem le_of_mem_closing (h : i ∈ (closing out k rest).map Prod.snd) : k ≤ i := by
  induction rest generalizing k with
  | nil => cases h
  | cons clt rest ih =>
      rw [closing] at h
      split at h
      · rcases mem_cons.1 h with rfl | h
        · exact Nat.le_refl _
        · exact Nat.le_of_succ_le (ih h)
      · rcases mem_cons.1 h with rfl | h
        · exact Nat.le_refl _
        · exact Nat.le_of_succ_le (ih h)
      · exact Nat.le_of_eq (mem_singleton.1 h).symm
      · exact Nat.le_of_succ_le (ih h)

/-- The places increase. -/
theorem pairwise_closing (out : C → Outcome) (k : Nat) (rest : List C) :
    ((closing out k rest).map Prod.snd).Pairwise (· < ·) := by
  induction rest generalizing k with
  | nil => exact .nil
  | cons clt rest ih =>
      have hcons : (((clt, k) :: closing out (k + 1) rest).map Prod.snd).Pairwise (· < ·) :=
        pairwise_cons.2 ⟨fun j hj ↦ le_of_mem_closing hj, ih (k + 1)⟩
      rw [closing]
      split
      · exact hcons
      · exact hcons
      · exact pairwise_singleton _ _
      · exact ih (k + 1)

/-- The clients that are closed are among those that can be read, in the same order. -/
theorem closing_sublist (out : C → Outcome) (k : Nat) (rest : List C) :
    ((closing out k rest).map Prod.fst).Sublist rest := by
  induction rest generalizing k with
  | nil => exact .slnil
  | cons clt rest ih =>
      rw [closing]
      split
      · exact (ih (k + 1)).cons_cons clt
      · exact (ih (k + 1)).cons_cons clt
      · exact (nil_sublist rest).cons_cons clt
      · exact (ih (k + 1)).cons clt

/-! ## What a pass does -/

/-- **What a pass leaves of `server.list`.** -/
theorem passFrom_list : (passFrom out (k + 1) rest σ).list =
    eraseAll σ.list ((closing out k rest).map Prod.snd) := by
  induction rest generalizing k σ with
  | nil => rfl
  | cons clt rest ih =>
      rw [passFrom, closing]
      split
      · rw [ih, Pass.drop, tableRemove_succ]
        rfl
      · rw [ih, Pass.drop, tableRemove_succ]
        rfl
      · rw [Pass.drop, tableRemove_succ]
        rfl
      · rw [ih]

theorem passFrom_closed : (passFrom out (k + 1) rest σ).closed =
    σ.closed ++ (closing out k rest).map Prod.fst := by
  induction rest generalizing k σ with
  | nil => exact (append_nil _).symm
  | cons clt rest ih =>
      rw [passFrom, closing]
      split
      · rw [ih, Pass.drop, append_assoc]
        rfl
      · rw [ih, Pass.drop, append_assoc]
        rfl
      · rfl
      · rw [ih]

/-- A client that was visited stays so. -/
theorem visited_subset (h : c ∈ σ.visited) : c ∈ (passFrom out k rest σ).visited := by
  induction rest generalizing k σ with
  | nil => exact h
  | cons clt rest ih =>
      rw [passFrom]
      split
      · exact ih (mem_append_left _ h)
      · exact ih (mem_append_left _ h)
      · exact mem_append_left _ h
      · exact ih (mem_append_left _ h)

/-- **Every client is visited**, unless one before it ends the pass. -/
theorem passFrom_visited (hc : rest[i]? = some c) : c ∈ (passFrom out k rest σ).visited ∨
    ∃ (j : Nat) (d : C), j < i ∧ rest[j]? = some d ∧ out d = .refused := by
  induction rest generalizing k i σ with
  | nil => cases hc
  | cons clt rest ih =>
      rw [passFrom]
      cases i with
      | zero =>
          obtain rfl : clt = c := Option.some.inj hc
          left
          split
          · exact visited_subset (mem_append_right _ (mem_singleton_self _))
          · exact visited_subset (mem_append_right _ (mem_singleton_self _))
          · exact mem_append_right _ (mem_singleton_self _)
          · exact visited_subset (mem_append_right _ (mem_singleton_self _))
      | succ i =>
          have hrest : ∀ σ', c ∈ (passFrom out (k + 1) rest σ').visited ∨
              ∃ (j : Nat) (d : C), j < i + 1 ∧ (clt :: rest)[j]? = some d ∧ out d = .refused := by
            intro σ'
            refine (ih hc).imp_right ?_
            rintro ⟨j, d, hj, hd, hr⟩
            exact ⟨j + 1, d, Nat.succ_lt_succ hj, hd, hr⟩
          split
          · exact hrest _
          · exact hrest _
          · rename_i hr
            exact .inr ⟨0, clt, Nat.succ_pos i, rfl, hr⟩
          · exact hrest _

/-- **The clients that were closed are dropped, and no other, exactly if** they are, in some
order, those that have their places in `server.list`, each of the places one further on for
every client closed before. -/
theorem dropsClosed_iff (auth : Option Bytes) (received : C → Received) (s : Selected C) :
    DropsClosed auth received s ↔
      ((closing (fun c ↦ outcome auth (received c)) 0 s.readable).map Prod.fst).Perm
        (removed s.list 0
          ((closing (fun c ↦ outcome auth (received c)) 0 s.readable).map Prod.snd)) := by
  have hpair := pairwise_closing (fun c ↦ outcome auth (received c)) 0 s.readable
  have hsub := closing_sublist (fun c ↦ outcome auth (received c)) 0 s.readable
  have hlist : (pass auth received s).list = eraseAll s.list
      ((closing (fun c ↦ outcome auth (received c)) 0 s.readable).map Prod.snd) := passFrom_list
  have hclosed : (pass auth received s).closed =
      (closing (fun c ↦ outcome auth (received c)) 0 s.readable).map Prod.fst := passFrom_closed
  rw [← eraseAll_iff hpair s.nodup (s.readable_nodup.sublist hsub)
    fun c hc ↦ s.subset c (hsub.subset hc)]
  constructor
  · intro h c
    rw [← hlist, ← hclosed]
    exact h.list c
  · intro h
    refine ⟨fun c ↦ ?_, ?_, fun i c hc ↦ passFrom_visited hc⟩
    · rw [hlist, hclosed]
      exact h c
    · rw [hlist]
      exact nodup_eraseAll hpair s.nodup

/-- Three clients, which can all be read. -/
def three : Selected Nat := ⟨[1, 2, 3], [1, 2, 3], by decide, by decide, by simp⟩

/-- The first two of them have errors. -/
def twoErrors (c : Nat) : Received :=
  if c = 3 then ⟨.ok (ascii "GET / HTTP/1.1"), []⟩ else ⟨.error (ascii "closed"), []⟩

/-- **A client stays that was closed, and one goes that was not.** -/
theorem not_dropsClosed_two : (pass none twoErrors three).list = [2] ∧
    (pass none twoErrors three).closed = [1, 2] ∧ ¬ DropsClosed none twoErrors three := by
  have hlist : (pass none twoErrors three).list = [2] := by decide
  have hclosed : (pass none twoErrors three).closed = [1, 2] := by decide
  refine ⟨hlist, hclosed, fun h ↦ ?_⟩
  have h2 := (h.list 2).1 (by rw [hlist]; exact mem_singleton_self _)
  rw [hclosed] at h2
  exact h2.2 (by simp)

end

end Leda.Http
