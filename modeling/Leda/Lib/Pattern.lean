import Mathlib.Data.List.Basic
import Mathlib.Data.List.Infix
import Mathlib.Data.List.TakeWhile

/-!
# Patterns without alternatives

A pattern is a list of pieces: a class of elements, how often it is repeated, and whether what
it matches is captured.  A piece takes as many elements as it can and gives them back one by
one while the rest of the pattern does not match.  `matchHere` matches at the beginning of a
list, `find?` at the first place where the pattern matches, and `gmatch` finds one match after
the other: after an empty match it goes on one place further, and there may be an empty match
at the end of the list.

Mostly nothing is given back.  If the longest run leaves a rest that matches, it is taken
(`matchHere_longest`); and after a run that is not the longest comes an element of its class,
so that a piece that needs another element does not match there (`matchHere_separated`).

`gmatch` is a recursion with as much fuel as there are places; more does not matter
(`gmatchFrom_stable`), so that it can be unfolded from match to match (`gmatch_cons`).
-/

namespace Leda.Lib.Pattern

open List

variable {α : Type}

/-- How often a class is matched. -/
inductive Rep
  | one
  | optional
  | star
  | plus
deriving DecidableEq

namespace Rep

/-- The least number of elements. -/
def least : Rep → Nat
  | one | plus => 1
  | optional | star => 0

/-- At most this many of the elements that could be matched. -/
def most (n : Nat) : Rep → Nat
  | one | optional => min n 1
  | star | plus => n

end Rep

/-- A piece of a pattern. -/
structure Piece (α : Type) where
  cls : α → Bool
  rep : Rep
  capture : Bool

namespace Piece

/-- The longest run that the piece may take. -/
def longest (p : Piece α) (s : List α) : Nat := p.rep.most (s.takeWhile p.cls).length

/-- The lengths that are tried, the longest first. -/
def lengths (p : Piece α) (s : List α) : List Nat :=
  (range' p.rep.least (p.longest s + 1 - p.rep.least)).reverse

end Piece

/-- The captures, with that of a piece that took `i` elements. -/
def captured (p : Piece α) (s : List α) (i : Nat) (caps : List (List α)) : List (List α) :=
  if p.capture then s.take i :: caps else caps

/-- Match at the beginning of a list: the captures and the rest. -/
def matchHere : List (Piece α) → List α → Option (List (List α) × List α)
  | [], s => some ([], s)
  | p :: ps, s => (p.lengths s).findSome? fun i ↦
    (matchHere ps (s.drop i)).map fun r ↦ (captured p s i r.1, r.2)

/-- Match at the first place where it is possible: the captures, the list from this place on,
and the rest. -/
def find? (ps : List (Piece α)) : List α → Option (List (List α) × List α × List α)
  | [] => (matchHere ps []).map fun r ↦ (r.1, [], r.2)
  | a :: s =>
    match matchHere ps (a :: s) with
    | some r => some (r.1, a :: s, r.2)
    | none => find? ps s

/-- The captures of one match after the other, at most `n` of them. -/
def gmatchFrom (ps : List (Piece α)) : Nat → List α → List (List (List α))
  | 0, _ => []
  | n + 1, s =>
    match find? ps s with
    | none => []
    | some (caps, src, e) =>
      caps ::
        if e.length < src.length then gmatchFrom ps n e
        else
          match src with
          | [] => []
          | _ :: t => gmatchFrom ps n t

/-- The captures of all matches; there is at most one for each place, the end included. -/
def gmatch (ps : List (Piece α)) (s : List α) : List (List (List α)) :=
  gmatchFrom ps (s.length + 1) s

section

variable {p q : Piece α} {ps : List (Piece α)} {s t e src : List α} {caps : List (List α)}
variable {r : List (List α) × List α} {i n : Nat}

/-! ## One piece -/

theorem mem_lengths : i ∈ p.lengths s ↔ p.rep.least ≤ i ∧ i ≤ p.longest s := by
  simp only [Piece.lengths, mem_reverse, mem_range'_1]
  omega

theorem longest_le : p.longest s ≤ (s.takeWhile p.cls).length := by
  unfold Piece.longest
  cases p.rep with
  | one | optional => exact Nat.min_le_left _ _
  | star | plus => exact Nat.le_refl _

/-- The longest run is tried first. -/
theorem lengths_eq_cons (h : p.rep.least ≤ p.longest s) :
    p.lengths s = p.longest s ::
      (range' p.rep.least (p.longest s - p.rep.least)).reverse := by
  have hsucc : p.longest s + 1 - p.rep.least = (p.longest s - p.rep.least) + 1 := by omega
  rw [Piece.lengths, hsucc, range'_concat, reverse_append, reverse_singleton, singleton_append]
  congr 1
  omega

theorem matchHere_nil : matchHere ([] : List (Piece α)) s = some ([], s) := rfl

/-- **The longest run is taken** if the rest of the pattern matches after it. -/
theorem matchHere_longest (h : p.rep.least ≤ p.longest s)
    (hr : matchHere ps (s.drop (p.longest s)) = some r) :
    matchHere (p :: ps) s = some (captured p s (p.longest s) r.1, r.2) := by
  rw [matchHere, lengths_eq_cons h, findSome?_cons, hr]
  rfl

/-- A run that is too short. -/
theorem matchHere_short (h : p.longest s < p.rep.least) : matchHere (p :: ps) s = none := by
  have hnil : p.lengths s = [] := by
    rw [Piece.lengths, show p.longest s + 1 - p.rep.least = 0 by omega]
    rfl
  rw [matchHere, hnil]
  rfl

/-- A piece that needs an element does not match before one of another class. -/
theorem matchHere_of_not (hq : q.rep.least = 1) (ht : ∀ a ∈ t.head?, q.cls a = false) :
    matchHere (q :: ps) t = none := by
  refine matchHere_short ?_
  rw [hq]
  refine Nat.lt_of_le_of_lt longest_le ?_
  cases t with
  | nil => exact Nat.zero_lt_one
  | cons a t =>
      rw [takeWhile_cons_of_neg (by simp [ht a rfl])]
      exact Nat.zero_lt_one

/-- **Nothing is given back** to a piece that needs an element of another class. -/
theorem matchHere_separated (hp : p.rep = .star ∨ p.rep = .plus) (hq : q.rep.least = 1)
    (hd : ∀ a, p.cls a = true → q.cls a = false) (h : p.rep.least ≤ p.longest s) :
    matchHere (p :: q :: ps) s = (matchHere (q :: ps) (s.dropWhile p.cls)).map fun r ↦
      (captured p s (s.takeWhile p.cls).length r.1, r.2) := by
  have hlong : p.longest s = (s.takeWhile p.cls).length := by
    rcases hp with hp | hp <;> rw [Piece.longest, hp] <;> rfl
  have hdrop : s.drop (s.takeWhile p.cls).length = s.dropWhile p.cls := by
    have happ : (s.takeWhile p.cls ++ s.dropWhile p.cls).drop (s.takeWhile p.cls).length =
        s.dropWhile p.cls := drop_left
    rwa [takeWhile_append_dropWhile] at happ
  rw [← hdrop, ← hlong]
  cases hr : matchHere (q :: ps) (s.drop (p.longest s)) with
  | some r => exact matchHere_longest h hr
  | none =>
      rw [matchHere, findSome?_eq_none_iff.2]
      · rfl
      intro i hi
      rw [Option.map_eq_none_iff]
      obtain ⟨-, hle⟩ := mem_lengths.1 hi
      rcases Nat.eq_or_lt_of_le hle with rfl | hlt
      · exact hr
      -- the element after a shorter run is of the class of the run
      refine matchHere_of_not hq fun a ha ↦ hd a ?_
      rw [hlong] at hlt
      rw [head?_drop] at ha
      have hget : (s.takeWhile p.cls)[i]? = some a := by
        rw [← takeWhile_append_dropWhile (p := p.cls) (l := s), getElem?_append_left hlt] at ha
        exact ha
      exact mem_takeWhile_imp (List.mem_of_getElem? hget)

/-- A single element. -/
theorem matchHere_one (hq : q.rep = .one) (hc : q.capture = false) (a : α) (t : List α) :
    matchHere (q :: ps) (a :: t) = if q.cls a = true then matchHere ps t else none := by
  split
  · rename_i ha
    have hlong : q.longest (a :: t) = 1 := by
      rw [Piece.longest, hq, takeWhile_cons_of_pos ha, length_cons]
      exact Nat.min_eq_right (Nat.succ_pos _)
    have hlengths : q.lengths (a :: t) = [1] := by
      rw [Piece.lengths, hlong, hq]
      rfl
    rw [matchHere, hlengths, findSome?_singleton, drop_one, tail_cons]
    simp [captured, hc]
  · rename_i ha
    exact matchHere_of_not (by rw [hq]; rfl) (by simpa using ha)

/-- The last piece takes all it can. -/
theorem matchHere_plus (hp : p.rep = .plus) (s : List α) : matchHere [p] s =
    if s.takeWhile p.cls = [] then none
    else some (captured p s (s.takeWhile p.cls).length [], s.drop (s.takeWhile p.cls).length) := by
  have hlong : p.longest s = (s.takeWhile p.cls).length := by rw [Piece.longest, hp]; rfl
  have hleast : p.rep.least = 1 := by rw [hp]; rfl
  split
  · rename_i h
    refine matchHere_short ?_
    rw [hlong, h, hleast]
    exact Nat.zero_lt_one
  · rename_i h
    rw [matchHere_longest (by rw [hlong, hleast]; exact length_pos_iff.2 h) matchHere_nil, hlong]

/-! ## One match after the other -/

theorem matchHere_suffix (h : matchHere ps s = some r) : r.2 <:+ s := by
  induction ps generalizing s r with
  | nil =>
      cases h
      exact suffix_rfl
  | cons p ps ih =>
      obtain ⟨i, -, hi⟩ := exists_of_findSome?_eq_some h
      obtain ⟨r', hr', rfl⟩ := Option.map_eq_some_iff.1 hi
      exact (ih hr').trans (drop_suffix i s)

theorem find?_suffix (h : find? ps s = some (caps, src, e)) : src <:+ s ∧ e <:+ src := by
  induction s with
  | nil =>
      obtain ⟨r, hr, heq⟩ := Option.map_eq_some_iff.1 h
      cases heq
      exact ⟨suffix_rfl, matchHere_suffix hr⟩
  | cons a s ih =>
      rw [find?] at h
      split at h
      · rename_i r hr
        cases h
        exact ⟨suffix_rfl, matchHere_suffix hr⟩
      · obtain ⟨hsrc, he⟩ := ih h
        exact ⟨hsrc.trans (suffix_cons a s), he⟩

/-- A match at the beginning is the first one. -/
theorem find?_of_matchHere (h : matchHere ps s = some r) : find? ps s = some (r.1, s, r.2) := by
  cases s with
  | nil => rw [find?, h]; rfl
  | cons a s => rw [find?, h]

/-- **There is enough fuel.** -/
theorem gmatchFrom_stable (h : s.length < n) : gmatchFrom ps n s = gmatch ps s := by
  suffices hs : ∀ m, s.length < m → gmatchFrom ps n s = gmatchFrom ps m s from
    hs _ (Nat.lt_succ_self _)
  intro m hm
  induction n generalizing s m with
  | zero => exact absurd h (Nat.not_lt_zero _)
  | succ n ih =>
      cases m with
      | zero => exact absurd hm (Nat.not_lt_zero _)
      | succ m =>
          rw [gmatchFrom, gmatchFrom]
          cases hf : find? ps s with
          | none => rfl
          | some r =>
              obtain ⟨caps, src, e⟩ := r
              obtain ⟨hsrc, he⟩ := find?_suffix hf
              have hsl := hsrc.length_le
              dsimp only
              split
              · rw [ih (by omega) m (by omega)]
              · cases src with
                | nil => rfl
                | cons a t =>
                    rw [length_cons] at hsl
                    dsimp only
                    rw [ih (by omega) m (by omega)]

/-- **The first match, and the others.** -/
theorem gmatch_cons (h : matchHere ps s = some r) (hlt : r.2.length < s.length) :
    gmatch ps s = r.1 :: gmatch ps r.2 := by
  rw [gmatch, gmatchFrom, find?_of_matchHere h]
  dsimp only
  rw [if_pos hlt, gmatchFrom_stable hlt]

/-- A match at the end is the last one. -/
theorem gmatch_nil (h : matchHere ps [] = some r) : gmatch ps [] = [r.1] := by
  rw [gmatch, gmatchFrom, find?_of_matchHere h]
  simp

end

end Leda.Lib.Pattern
