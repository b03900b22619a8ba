import Leda.Lib.Bytes
import Leda.Lib.Pattern
import Leda.Lua.Value
import Mathlib.Algebra.BigOperators.Group.List.Basic
import Mathlib.Algebra.GroupWithZero.Nat

/-!
# The line feeder

The stage reads a file in chunks and splits each with `string.gmatch` and a pattern for what
comes before a newline and the newline, if there is one.  What precedes a newline is pushed,
after the pieces of the same line that earlier chunks ended with, which are kept in `t`.

The pattern also matches where there is nothing: at the end of every chunk there is one more
match, and before it one for a line that goes on in the next chunk.  The texts of the lines
do not depend on the chunks (`texts_run`), but every match counts (`number_feed`), so the
numbers of the lines and the number of lines do.  And what is left in `t` after the last chunk
is not pushed.  The stage does what it is for exactly if the file is empty, or is read in one
chunk and ends with a newline (`feeds_iff`).
-/

namespace Leda.Stage.Lines

open List Leda.Lib Leda.Lua

/-- The bytes of a file. -/
abbrev Bytes := List UInt8

/-- `'\n'` -/
abbrev newline : UInt8 := 10

/-- What a read returns before the end of the file. -/
abbrev Chunk := {c : Bytes // c ≠ []}

/-- A value that the stage sends: a string, an integer, or a value it was given. -/
inductive Arg
  | string (s : Bytes)
  | number (n : Nat)
  | given (v : Value)
deriving DecidableEq

/-- A call of `leda.send`. -/
structure Sent where
  key : Arg
  args : List Arg
deriving DecidableEq

/-- `([^\n]*)` -/
def text : Pattern.Piece UInt8 := ⟨(· ≠ newline), .star, true⟩

/-- `([\n]?)` -/
def ending : Pattern.Piece UInt8 := ⟨(· = newline), .optional, true⟩

/-- The pattern `([^\n]*)([\n]?)`. -/
def pattern : List (Pattern.Piece UInt8) := [text, ending]

/-- The local variables of the handler, and what it has sent. -/
structure Feeder where
  i : Nat
  t : List Bytes
  sent : List Sent
deriving DecidableEq

/-- Before the first chunk. -/
def Feeder.start : Feeder := ⟨0, [], []⟩

/-- `leda.push(line,i,file,...)` -/
def push (rest : List Value) (line : Bytes) (i : Nat) : Sent :=
  ⟨.number 1, .string line :: .number i :: rest.map .given⟩

/-- `leda.send("EOF",'EOF',n,file,...)` -/
def sendEof (rest : List Value) (n : Nat) : Sent :=
  ⟨.string (ascii "EOF"), .string (ascii "EOF") :: .number n :: rest.map .given⟩

/-- The body of the loop over the matches of a chunk, for the captures `k` and `v`. -/
def onMatch (rest : List Value) (st : Feeder) (k v : Bytes) : Feeder :=
  if v = [newline] then
    ⟨st.i + 1, [], st.sent ++ [push rest (st.t ++ [k]).flatten (st.i + 1)]⟩
  else if k ≠ [] then ⟨st.i + 1, st.t ++ [k], st.sent⟩
  else ⟨st.i + 1, st.t, st.sent⟩

/-- The loop over the matches of a chunk. -/
def feed (rest : List Value) (st : Feeder) (buf : Bytes) : Feeder :=
  (Pattern.gmatch pattern buf).foldl
    (fun st caps ↦ onMatch rest st (caps.getD 0 []) (caps.getD 1 [])) st

/-- `stage.handler`, for the file name and what follows it, and what `io.open` returns: an
error, or a file that is read in these chunks. -/
def handler (rest : List Value) : Except Bytes (List Chunk) → List Sent × Except Bytes Unit
  | .error err => ([⟨.string (ascii "error"), [.string err]⟩], .error err)
  | .ok chunks =>
    let st := chunks.foldl (fun st c ↦ feed rest st c.1) .start
    (st.sent ++ [sendEof rest (if st.i > 0 then st.i - 1 else 0)], .ok ())

/-! ## What the stage is for -/

/-- The content of the file. -/
def content (chunks : List Chunk) : Bytes := (chunks.map Subtype.val).flatten

/-- The lines of a file: those that end with a newline, and what follows the last newline. -/
def linesOf (s : Bytes) : List Bytes :=
  (s.splitOn newline).dropLast ++ ((s.splitOn newline).getLast?.filter (· ≠ [])).toList

/-- **The lines in order, each with its number, and then how many there are.** -/
def expected (rest : List Value) (s : Bytes) : List Sent :=
  (linesOf s).zipIdx 1
    |>.map (fun l ↦ push rest l.1 l.2)
    |>.concat (sendEof rest (linesOf s).length)

/-- **The stage feeds the lines of the file**, however it is read. -/
def Feeds (rest : List Value) (chunks : List Chunk) : Prop :=
  handler rest (.ok chunks) = (expected rest (content chunks), .ok ())

/-- The last line has no newline. -/
def Unterminated (s : Bytes) : Prop := (s.splitOn newline).getLast? ≠ some []

instance (s : Bytes) : Decidable (Unterminated s) := inferInstanceAs (Decidable (_ ≠ _))

section

variable {rest : List Value} {st : Feeder} {k s c : Bytes} {chunks : List Chunk}

/-- **Line by line.** -/
theorem line_induction {P : Bytes → Prop} (last : ∀ k, newline ∉ k → P k)
    (line : ∀ k s, newline ∉ k → P s → P (k ++ newline :: s)) (s : Bytes) : P s := by
  induction hn : s.length using Nat.strong_induction_on generalizing s with
  | _ n ih =>
      by_cases hs : newline ∈ s
      · obtain ⟨k, t, rfl, hk⟩ := eq_append_cons_of_mem hs
        refine line k t hk (ih t.length ?_ t rfl)
        rw [← hn, length_append, length_cons]
        omega
      · exact last s hs

theorem splitOn_line (hk : newline ∉ k) :
    (k ++ newline :: s).splitOn newline = k :: s.splitOn newline :=
  splitOn_append_cons_self_of_not_mem hk s

/-- What follows continues the last line. -/
theorem splitOn_append {l : List Bytes} (h : s.splitOn newline = l ++ [k]) :
    (s ++ c).splitOn newline = l ++ (k ++ c).splitOn newline := by
  induction s using line_induction generalizing l with
  | last s hs =>
      rw [splitOn_eq_singleton hs] at h
      obtain ⟨rfl, rfl⟩ : l = [] ∧ k = s := by
        cases l with
        | nil => exact ⟨rfl, (singleton_inj.1 h).symm⟩
        | cons a l => simp at h
      rfl
  | line k' s hk' ih =>
      rw [splitOn_line hk'] at h
      rw [append_assoc, cons_append, splitOn_line hk']
      cases l with
      | nil => exact absurd (cons.inj h).2 (splitOn_ne_nil _ _)
      | cons a l =>
          obtain ⟨rfl, htail⟩ := cons.inj h
          exact congrArg (k' :: ·) (ih htail)

/-! ## The matches of a chunk -/

/-- The first piece takes what comes before a newline. -/
theorem takeWhile_line (hk : newline ∉ k) (hs : ∀ a ∈ s.head?, a = newline) :
    (k ++ s).takeWhile (· ≠ newline) = k := by
  have hall : ∀ a ∈ k, (decide (a ≠ newline)) = true :=
    fun a ha ↦ decide_eq_true fun h ↦ hk (h ▸ ha)
  rw [takeWhile_append_of_pos hall]
  cases s with
  | nil => simp
  | cons a s => simp [hs a rfl]

theorem matchHere_line (hk : newline ∉ k) (hs : ∀ a ∈ s.head?, a = newline) :
    Pattern.matchHere pattern (k ++ s) = some ([k, s.take 1], s.drop 1) := by
  have hending : ending.longest s = (s.take 1).length := by
    cases s with
    | nil => rfl
    | cons a s => simp [ending, Pattern.Piece.longest, Pattern.Rep.most, hs a rfl]
  have hsecond : Pattern.matchHere [ending] s = some ([s.take 1], s.drop 1) := by
    have h := Pattern.matchHere_longest (p := ending) (s := s) (Nat.zero_le _) Pattern.matchHere_nil
    rw [h, hending]
    cases s <;> rfl
  have htext : text.longest (k ++ s) = k.length := congrArg length (takeWhile_line hk hs)
  have hrest : Pattern.matchHere [ending] ((k ++ s).drop (text.longest (k ++ s))) =
      some ([s.take 1], s.drop 1) := by
    rw [htext, drop_left]
    exact hsecond
  have h := Pattern.matchHere_longest (Nat.zero_le _) hrest
  rw [htext, Pattern.captured, if_pos (by rfl), take_left] at h
  exact h

theorem gmatch_line (hk : newline ∉ k) : Pattern.gmatch pattern (k ++ newline :: s) =
    [k, [newline]] :: Pattern.gmatch pattern s := by
  refine Pattern.gmatch_cons (matchHere_line hk (by simp)) ?_
  simp only [drop_succ_cons, drop_zero, length_append, length_cons]
  omega

theorem gmatch_open (hk : newline ∉ k) (hne : k ≠ []) :
    Pattern.gmatch pattern k = [[k, []], [[], []]] := by
  have h := matchHere_line (s := []) hk (by simp)
  rw [append_nil] at h
  exact Pattern.gmatch_cons h (length_pos_iff.2 hne)

theorem gmatch_nil : Pattern.gmatch pattern [] = [[[], []]] := rfl

/-- A line that ends is pushed. -/
theorem feed_line (hk : newline ∉ k) : feed rest st (k ++ newline :: s) = feed rest
    ⟨st.i + 1, [], st.sent ++ [push rest (st.t.flatten ++ k) (st.i + 1)]⟩ s := by
  rw [feed, gmatch_line hk, foldl_cons]
  congr 1
  simp [onMatch]

/-- A line that goes on is kept; two matches are counted. -/
theorem feed_open (hk : newline ∉ k) (hne : k ≠ []) :
    feed rest st k = ⟨st.i + 2, st.t ++ [k], st.sent⟩ := by
  rw [feed, gmatch_open hk hne]
  simp [onMatch, hne]

/-- At the end of a chunk one match is counted. -/
theorem feed_nil : feed rest st [] = ⟨st.i + 1, st.t, st.sent⟩ := by
  rw [feed, gmatch_nil]
  simp [onMatch]

/-! ## What does not depend on the chunks -/

/-- The texts that were pushed. -/
def texts (sent : List Sent) : List Bytes :=
  sent.filterMap fun e ↦
    match e.args.head? with
    | some (.string s) => some s
    | _ => none

/-- **After this content**, its lines were pushed, and what follows the last newline is kept. -/
def Fed (s : Bytes) (st : Feeder) : Prop :=
  s.splitOn newline = texts st.sent ++ [st.t.flatten]

@[simp] theorem texts_push (sent : List Sent) (line : Bytes) (i : Nat) :
    texts (sent ++ [push rest line i]) = texts sent ++ [line] := by
  simp [texts, push]

theorem not_mem_of_mem_splitOn (h : k ∈ s.splitOn newline) : newline ∉ k := by
  induction s using line_induction with
  | last s hs =>
      rw [splitOn_eq_singleton hs] at h
      obtain rfl := mem_singleton.1 h
      exact hs
  | line k' s hk' ih =>
      rw [splitOn_line hk'] at h
      rcases mem_cons.1 h with rfl | h
      · exact hk'
      · exact ih h

/-- **A chunk continues the line that is kept.** -/
theorem fed_feed (h : Fed s st) (c : Bytes) : Fed (s ++ c) (feed rest st c) := by
  have hkept : newline ∉ st.t.flatten := not_mem_of_mem_splitOn (s := s) (by rw [h]; simp)
  rw [Fed, splitOn_append h]
  clear h
  induction c using line_induction generalizing st with
  | last c hc =>
      have hnone : newline ∉ st.t.flatten ++ c := by simp [hkept, hc]
      rw [splitOn_eq_singleton hnone]
      by_cases hne : c = []
      · subst hne
        rw [feed_nil, append_nil]
      · rw [feed_open hc hne, flatten_append, flatten_singleton]
  | line k c hk ih =>
      have hnone : newline ∉ st.t.flatten ++ k := by simp [hkept, hk]
      rw [← append_assoc, splitOn_line hnone, feed_line hk, ← ih (by simp), texts_push,
        append_assoc]
      rfl

/-- **The lines that are pushed do not depend on the chunks.** -/
theorem texts_run (rest : List Value) (chunks : List Chunk) :
    texts (chunks.foldl (fun st c ↦ feed rest st c.1) .start).sent =
      ((content chunks).splitOn newline).dropLast := by
  suffices h : ∀ s st, Fed s st →
      Fed (s ++ content chunks) (chunks.foldl (fun st c ↦ feed rest st c.1) st) by
    have hrun := h [] .start rfl
    rw [nil_append, Fed] at hrun
    rw [hrun, dropLast_concat]
  induction chunks with
  | nil =>
      intro s st h
      rw [content, map_nil, flatten_nil, append_nil]
      exact h
  | cons c chunks ih =>
      intro s st h
      have hrun := ih (s ++ c.1) (feed rest st c.1) (fed_feed h c.1)
      rwa [append_assoc] at hrun

/-! ## What is counted -/

/-- The matches of a chunk that are not the end of a line. -/
def idle (c : Bytes) : Nat := if Unterminated c then 2 else 1

theorem unterminated_line (hk : newline ∉ k) :
    Unterminated (k ++ newline :: s) ↔ Unterminated s := by
  rw [Unterminated, splitOn_line hk, getLast?_cons_of_ne_nil (splitOn_ne_nil _ _)]
  rfl

theorem unterminated_open (hk : newline ∉ k) : Unterminated k ↔ k ≠ [] := by
  rw [Unterminated, splitOn_eq_singleton hk]
  simp

theorem count_line (hk : newline ∉ k) :
    (k ++ newline :: s).count newline = s.count newline + 1 := by
  rw [count_append, count_eq_zero_of_not_mem hk, count_cons_self, Nat.zero_add]

/-- **Every match counts.** -/
theorem number_feed (c : Bytes) :
    (feed rest st c).i = st.i + c.count newline + idle c := by
  induction c using line_induction generalizing st with
  | last c hc =>
      rw [count_eq_zero_of_not_mem hc]
      by_cases hne : c = []
      · subst hne
        rw [feed_nil]
        rfl
      · rw [feed_open hc hne, idle, if_pos ((unterminated_open hc).2 hne)]
  | line k c hk ih =>
      have hidle : idle (k ++ newline :: c) = idle c := by
        simp only [idle, unterminated_line hk]
      rw [feed_line hk, ih, count_line hk, hidle]
      dsimp only
      omega

theorem length_sent_feed (c : Bytes) :
    (feed rest st c).sent.length = st.sent.length + c.count newline := by
  induction c using line_induction generalizing st with
  | last c hc =>
      rw [count_eq_zero_of_not_mem hc]
      by_cases hne : c = []
      · subst hne
        rw [feed_nil]
        rfl
      · rw [feed_open hc hne]
        rfl
  | line k c hk ih =>
      rw [feed_line hk, ih, count_line hk, length_append, length_singleton]
      omega

/-- What the chunks leave of both numbers. -/
theorem run_numbers (rest : List Value) (chunks : List Chunk) (st : Feeder) :
    (chunks.foldl (fun st c ↦ feed rest st c.1) st).i =
        st.i + (content chunks).count newline + (chunks.map fun c ↦ idle c.1).sum ∧
      (chunks.foldl (fun st c ↦ feed rest st c.1) st).sent.length =
        st.sent.length + (content chunks).count newline := by
  induction chunks generalizing st with
  | nil => exact ⟨rfl, rfl⟩
  | cons c chunks ih =>
      obtain ⟨hi, hs⟩ := ih (feed rest st c.1)
      have hcount : (content (c :: chunks)).count newline =
          c.1.count newline + (content chunks).count newline := by
        rw [content, map_cons, flatten_cons, count_append]
        rfl
      rw [foldl_cons, hi, hs, number_feed, length_sent_feed, hcount, map_cons, sum_cons]
      exact ⟨by omega, by omega⟩

theorem linesOf_line (hk : newline ∉ k) : linesOf (k ++ newline :: s) = k :: linesOf s := by
  rw [linesOf, splitOn_line hk, dropLast_cons_of_ne_nil (splitOn_ne_nil _ _),
    getLast?_cons_of_ne_nil (splitOn_ne_nil _ _)]
  rfl

theorem linesOf_open (hk : newline ∉ k) : linesOf k = if k = [] then [] else [k] := by
  rw [linesOf, splitOn_eq_singleton hk]
  by_cases hne : k = [] <;> simp [hne]

/-- The lines, counted. -/
theorem length_linesOf (s : Bytes) :
    (linesOf s).length = s.count newline + if Unterminated s then 1 else 0 := by
  induction s using line_induction with
  | last s hs =>
      rw [linesOf_open hs, count_eq_zero_of_not_mem hs]
      simp only [unterminated_open hs]
      by_cases hne : s = [] <;> simp [hne]
  | line k s hk ih =>
      rw [linesOf_line hk, length_cons, ih, count_line hk]
      simp only [unterminated_line hk]
      omega

/-! ## When the stage does what it is for -/

/-- The last byte of a file whose last line has a newline. -/
theorem not_unterminated_iff (hs : s ≠ []) :
    ¬ Unterminated s ↔ s.getLast? = some newline := by
  induction s using line_induction with
  | last s h =>
      rw [unterminated_open h]
      exact iff_of_false (not_not.2 hs) fun hlast ↦ h (mem_of_getLast? hlast)
  | line k s hk ih =>
      rw [unterminated_line hk, getLast?_append_of_ne_nil _ (cons_ne_nil _ _)]
      by_cases hs : s = []
      · subst hs
        exact iff_of_true (by decide) rfl
      · rw [ih hs, getLast?_cons_of_ne_nil hs]

/-- **One chunk that ends with a newline** is fed line by line. -/
theorem feed_whole (hc : ¬ Unterminated c) (n : Nat) (sent : List Sent) :
    feed rest ⟨n, [], sent⟩ c = ⟨n + c.count newline + 1, [], sent ++
      ((linesOf c).zipIdx (n + 1)).map fun l ↦ push rest l.1 l.2⟩ := by
  induction c using line_induction generalizing n sent with
  | last c h =>
      obtain rfl : c = [] := by
        rw [unterminated_open h] at hc
        exact not_not.1 hc
      rw [feed_nil, linesOf_open h]
      simp
  | line k c hk ih =>
      rw [unterminated_line hk] at hc
      rw [feed_line hk, ih hc, linesOf_line hk, count_line hk, zipIdx_cons, map_cons,
        append_assoc]
      congr 1
      dsimp only
      omega

theorem content_singleton (c : Chunk) : content [c] = c.1 := flatten_singleton

theorem one_le_idle (c : Bytes) : 1 ≤ idle c := by
  unfold idle
  split <;> omega

/-- As many lines are pushed as the file has, so the last one has a newline. -/
theorem Feeds.terminated (h : Feeds rest chunks) : ¬ Unterminated (content chunks) := by
  have hsent := congrArg Prod.fst h
  rw [handler, expected, concat_eq_append] at hsent
  have hpushed := congrArg length (append_inj' hsent rfl).1
  rw [(run_numbers rest chunks .start).2, length_map, length_zipIdx, length_linesOf] at hpushed
  intro hu
  rw [if_pos hu] at hpushed
  simp [Feeder.start] at hpushed

/-- The number that is sent at the end is right, so there was one match more than lines. -/
theorem Feeds.number (h : Feeds rest chunks) :
    (chunks.foldl (fun st c ↦ feed rest st c.1) .start).i - 1 =
      (content chunks).count newline := by
  have hsent := congrArg Prod.fst h
  rw [handler, expected, concat_eq_append] at hsent
  have heof := singleton_inj.1 (append_inj' hsent rfl).2
  have hn := (Sent.mk.inj heof).2
  simp only [cons.injEq, Arg.number.injEq, true_and, and_true] at hn
  rw [length_linesOf, if_neg h.terminated] at hn
  split at hn <;> omega

/-- Every chunk has a match that is not the end of a line. -/
theorem Feeds.length_le_one (h : Feeds rest chunks) : chunks.length ≤ 1 := by
  have hcount := h.number
  have hidle : (chunks.map fun c ↦ idle c.1).length ≤ (chunks.map fun c ↦ idle c.1).sum := by
    refine length_le_sum_of_one_le _ fun n hn ↦ ?_
    obtain ⟨c, -, rfl⟩ := mem_map.1 hn
    exact one_le_idle c.1
  rw [(run_numbers rest chunks .start).1, Feeder.start] at hcount
  rw [length_map] at hidle
  omega

/-- A file that is read in one chunk, which ends with a newline. -/
theorem feeds_singleton {c : Chunk} (hc : c.1.getLast? = some newline) : Feeds rest [c] := by
  have hterm := (not_unterminated_iff c.2).2 hc
  have hlines : (linesOf c.1).length = c.1.count newline := by
    rw [length_linesOf, if_neg hterm, Nat.add_zero]
  rw [Feeds, handler, foldl_cons, foldl_nil, Feeder.start, feed_whole hterm, expected,
    content_singleton, concat_eq_append, hlines]
  simp

/-- **The stage feeds the lines of the file exactly if** it is empty, or is read in one chunk and
ends with a newline. -/
theorem feeds_iff (rest : List Value) (chunks : List Chunk) :
    Feeds rest chunks ↔
      chunks = [] ∨ ∃ c, chunks = [c] ∧ c.1.getLast? = some newline := by
  constructor
  · intro h
    have hterm := h.terminated
    rcases chunks with _ | ⟨c, _ | ⟨d, chunks⟩⟩
    · exact .inl rfl
    · rw [content_singleton] at hterm
      exact .inr ⟨c, rfl, (not_unterminated_iff c.2).1 hterm⟩
    · have hlen := h.length_le_one
      simp at hlen
  · rintro (rfl | ⟨c, rfl, hc⟩)
    · rfl
    · exact feeds_singleton hc

/-- **The numbers depend on the chunks**: a file of two lines that is read in two chunks, the
first of which ends inside a line. -/
theorem not_feeds_two : content [⟨[97, 10, 98], by decide⟩, ⟨[10], by decide⟩] = [97, 10, 98, 10] ∧
    ((handler [] (.ok [⟨[97, 10, 98], by decide⟩, ⟨[10], by decide⟩])).1.map fun e ↦ e.args) =
      [[.string [97], .number 1], [.string [98], .number 4],
        [.string (ascii "EOF"), .number 4]] ∧
    ¬ Feeds [] [⟨[97, 10, 98], by decide⟩, ⟨[10], by decide⟩] := by
  refine ⟨rfl, by decide, fun h ↦ ?_⟩
  have hargs := congrArg (fun r ↦ r.1.map fun e ↦ e.args) h
  revert hargs
  decide

end

end Leda.Stage.Lines
