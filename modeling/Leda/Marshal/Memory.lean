import Leda.Lib.Traced
import Leda.Marshal.Machine

/-!
# Reading memory

`mar_decode` once more, now as it goes over memory and calls the API of Lua.  It has a
pointer into a string that lies somewhere, with anything behind it, and for every table
that it is inside of the end of the bytes that the table announced.  `mar_incr_ptr`, which
moves the pointer, checks it against the innermost of these ends; but it does so after the
bytes were looked at.  Only the four bytes of a length are checked first.  An announced
length is not checked at all before the table is read, but after.

Everything that is read is recorded, with the ends that should not be passed (`Fetch`).
The bytes that are given to `lua_load` count as read.  The calls are those of a `Machine`,
each where it stands in the source.

On the memory of a tree that fits, the decoder makes the calls of the tree
(`decodeValue_print`); and where it returns, it has read a tree (`exists_tree`).
-/

namespace Leda.Marshal.Memory

open Leda.Lib Leda.Lua

/-- `count` bytes from `pos` on are read, in buffers that end at `ends`. -/
structure Fetch where
  pos : Nat
  count : Nat
  ends : List Nat
deriving DecidableEq, Repr

/-- Every byte is inside every buffer. -/
def Fetch.Inside (f : Fetch) : Prop := ∀ i < f.count, ∀ e ∈ f.ends, f.pos + i < e

/-- Where the innermost buffer ends, `buf+len`, and those around it. -/
structure Frame where
  stop : Nat
  outer : List Nat := []

def Frame.ends (fr : Frame) : List Nat := fr.stop :: fr.outer

/-- A buffer in a buffer. -/
def Frame.nest (fr : Frame) (stop : Nat) : Frame := ⟨stop, fr.ends⟩

/-- A part of the decoder: given the state of the machine and the pointer, it returns new
ones. -/
abbrev Decoder (σ : Type) := Frame → Nat → σ → Traced Fetch (σ × Nat)

/-- The bytes at an address. -/
def bytes (m : Nat → UInt8) (pos n : Nat) : List UInt8 := (List.range n).map fun i ↦ m (pos + i)

/-- A memory with a string at address `0`, and anything behind it. -/
def holding (b : List UInt8) (behind : Nat → UInt8) (i : Nat) : UInt8 :=
  (b[i]?).getD (behind i)

section

variable (m : Nat → UInt8) (fr : Frame)

/-- Read memory. -/
def fetch (pos n : Nat) : Traced Fetch (List UInt8) := .step ⟨pos, n, fr.ends⟩ (bytes m pos n)

/-- `mar_incr_ptr(n)` -/
def incrPtr (pos n : Nat) : Traced Fetch Nat :=
  if fr.stop < pos + n then .lift (.raised "bad code") else pure (pos + n)

/-- `char tag = *(char*)*p; mar_incr_ptr(MAR_CHR)` -/
def takeChar (pos : Nat) : Traced Fetch (UInt8 × Nat) := do
  let b ← fetch m fr pos 1
  let pos ← incrPtr fr pos 1
  pure (b.headD 0, pos)

/-- `mar_next_len(l, uint32_t)`, which checks first. -/
def nextLen (pos : Nat) : Traced Fetch (Nat × Nat) := do
  let next ← incrPtr fr pos 4
  let b ← fetch m fr pos 4
  pure (ofLe b, next)

variable {σ : Type} (M : Machine σ)

/-- A call, for which nothing is read. -/
def call (x : Xfer σ) (pos : Nat) : Traced Fetch (σ × Nat) := do
  let s ← Traced.lift x
  pure (s, pos)

/-- Bytes are looked at, and used for a call, and then passed over. -/
def takeFor (op : List UInt8 → σ → Xfer σ) (s : σ) (pos n : Nat) :
    Traced Fetch (σ × Nat) := do
  let b ← fetch m fr pos n
  let s ← Traced.lift (op b s)
  let pos ← incrPtr fr pos n
  pure (s, pos)

/-- The same with as many bytes as the length before them says. -/
def takeChunkFor (op : List UInt8 → σ → Xfer σ) (s : σ) (pos : Nat) :
    Traced Fetch (σ × Nat) := do
  let (l, pos) ← nextLen m fr pos
  takeFor m fr op s pos l

/-- `MAR_TREF` -/
def decodeRef (s : σ) (pos : Nat) : Traced Fetch (σ × Nat) := do
  let (n, pos) ← nextLen m fr pos
  call (M.pushSeen (BitVec.ofNat 32 n) s) pos

/-- `mar_decode_table`: `while (p - buf < len)`. -/
def decodeTable (dec : Decoder σ) : Nat → Nat → σ → Traced Fetch σ
  | 0, pos, s => if fr.stop ≤ pos then pure s else .lift .crash
  | n + 1, pos, s =>
    if fr.stop ≤ pos then pure s
    else do
      let (s, pos) ← dec fr pos s
      let (s, pos) ← dec fr pos s
      let s ← Traced.lift (M.settable s)
      decodeTable dec n pos s

/-- A table after its length is announced: what is done before it is filled, and after. -/
def decodeBody (dec : Decoder σ) (before after : σ → Xfer σ) (s : σ)
    (pos : Nat) : Traced Fetch (σ × Nat) := do
  let (l, pos) ← nextLen m fr pos
  let s ← Traced.lift (before s)
  let s ← decodeTable (fr.nest (pos + l)) M dec l pos s
  let s ← Traced.lift (after s)
  let pos ← incrPtr fr pos l
  pure (s, pos)

/-- `MAR_TVAL` of a table. -/
def decodeTableObject (dec : Decoder σ) (s : σ) (pos : Nat) :
    Traced Fetch (σ × Nat) :=
  decodeBody m fr M dec M.openTable .ok s pos

/-- `MAR_TUSR` -/
def decodeHook (dec : Decoder σ) (s : σ) (pos : Nat) :
    Traced Fetch (σ × Nat) :=
  decodeBody m fr M dec M.newtable M.callHook s pos

/-- A function. -/
def decodeFunction (dec : Decoder σ) (s : σ) (pos : Nat) : Traced Fetch (σ × Nat) := do
  let (s, pos) ← takeChunkFor m fr M.load s pos
  let s ← Traced.lift (M.enter s)
  decodeBody m fr M dec M.newtable M.setUpvalues s pos

/-- `LUA_TTABLE`, `LUA_TFUNCTION` and `LUA_TUSERDATA`, after the tag. -/
def decodeTagged (dec : Decoder σ) (type : Nat) (tag : UInt8) (s : σ)
    (pos : Nat) : Traced Fetch (σ × Nat) :=
  if tag = 1 then decodeRef m fr M s pos
  else match type with
  | 5 =>
      if tag = 2 then decodeTableObject m fr M dec s pos
      else if tag = 3 then decodeHook m fr M dec s pos
      else .lift (.raised "bad encoded data")
  | 6 => decodeFunction m fr M dec s pos
  | _ =>
      if tag = 3 then decodeHook m fr M dec s pos
      else call (M.push .nil s) pos

/-- `switch (val_type)` -/
def decodeSwitch (dec : Decoder σ) (type : UInt8) (s : σ) (pos : Nat) : Traced Fetch (σ × Nat) :=
  match type.toNat with
  | 0 | 8 => call (M.push .nil s) pos
  | 1 => takeFor m fr (fun b ↦ M.push (.boolean (b ≠ [0]))) s pos 1
  | 2 => takeFor m fr (fun b ↦ M.push (.lightuserdata (BitVec.ofNat 64 (ofLe b)))) s pos 8
  | 3 => takeFor m fr (fun b ↦ M.push (.number (BitVec.ofNat 64 (ofLe b)))) s pos 8
  | 4 => takeChunkFor m fr (fun b ↦ M.push (.string b)) s pos
  | 5 => do
      let (tag, pos) ← takeChar m fr pos
      decodeTagged m fr M dec 5 tag s pos
  | 6 => do
      let (tag, pos) ← takeChar m fr pos
      decodeTagged m fr M dec 6 tag s pos
  | 7 => do
      let (tag, pos) ← takeChar m fr pos
      decodeTagged m fr M dec 7 tag s pos
  | _ => .lift (.raised "bad code")

end

/-- `mar_decode_value`, with room for `depth` levels on the C stack. -/
def decodeValue {σ : Type} (m : Nat → UInt8) (M : Machine σ) : Nat → Decoder σ
  | 0, _, _, _ => .lift .crash
  | depth + 1, fr, pos, s => do
    let (type, pos) ← takeChar m fr pos
    decodeSwitch m fr M (decodeValue m M depth) type s pos

/-! ## Views of memory -/

/-- **What is left**: the pointer is at `pos`, the innermost buffer has `n` more bytes, and
`p` are the bytes that are inside all buffers. -/
structure View (m : Nat → UInt8) (fr : Frame) (pos n : Nat) (p : List UInt8) : Prop where
  bytes : bytes m pos p.length = p
  stop : fr.stop = pos + n
  inside : ∀ e ∈ fr.ends, pos + p.length ≤ e
  /-- The next byte is outside one of them. -/
  tight : pos + p.length ∈ fr.ends

section

variable {σ : Type} {m : Nat → UInt8} {fr : Frame} {pos n k l depth : Nat} {p q b : List UInt8}
  {M : Machine σ} {s s' : σ} {op : List UInt8 → σ → Xfer σ}

@[simp] theorem length_bytes : (bytes m pos n).length = n := by simp [bytes]

theorem bytes_holding (b : List UInt8) (behind : Nat → UInt8) :
    bytes (holding b behind) 0 b.length = b := by
  refine List.ext_getElem (by simp) fun i hi hi' ↦ ?_
  simp [bytes, holding, List.getElem?_eq_getElem hi']

theorem bytes_append : bytes m pos (n + k) = bytes m pos n ++ bytes m (pos + n) k := by
  simp only [bytes, List.range_add, List.map_append, List.map_map]
  congr 2
  funext i
  simp only [Function.comp, Nat.add_assoc]

/-- The bytes at an address, with more behind them. -/
theorem bytes_eq_append (h : bytes m pos (b ++ p).length = b ++ p) :
    bytes m pos b.length = b ∧ bytes m (pos + b.length) p.length = p := by
  rw [List.length_append, bytes_append] at h
  exact List.append_inj h (by simp)

namespace View

theorem room (hv : View m fr pos n p) : p.length ≤ n := by
  have h := hv.inside fr.stop List.mem_cons_self
  have hs := hv.stop
  omega

/-- The pointer moves on. -/
theorem advance (hv : View m fr pos n (b ++ p)) :
    View m fr (pos + b.length) (n - b.length) p where
  bytes := (bytes_eq_append hv.bytes).2
  stop := by
    have h := hv.room
    have hs := hv.stop
    rw [List.length_append] at h
    omega
  inside e he := by
    have h := hv.inside e he
    rw [List.length_append] at h
    omega
  tight := by
    have h := hv.tight
    rwa [List.length_append, ← Nat.add_assoc] at h

theorem advance_of_length (hv : View m fr pos n (b ++ p)) (hb : b.length = k) :
    View m fr (pos + k) (n - k) p :=
  hb ▸ hv.advance

/-- A table announces its length. -/
theorem nest (hv : View m fr pos n p) (l : Nat) :
    View m (fr.nest (pos + l)) pos l (p.take l) where
  bytes := by
    rw [← List.take_append_drop l p] at hv
    exact (bytes_eq_append hv.bytes).1
  stop := rfl
  inside e he := by
    have hle : (p.take l).length ≤ p.length := by
      rw [List.length_take]
      omega
    rcases List.mem_cons.1 he with he | he
    · have hl : (p.take l).length ≤ l := by
        rw [List.length_take]
        omega
      rw [he]
      exact Nat.add_le_add_left hl pos
    · have := hv.inside e he
      omega
  tight := by
    rw [List.length_take]
    by_cases hl : l ≤ p.length
    · rw [Nat.min_eq_left hl]
      exact List.mem_cons_self
    · rw [Nat.min_eq_right (by omega)]
      exact List.mem_cons_of_mem _ hv.tight

theorem head {t : UInt8} (hv : View m fr pos n (t :: p)) : View m fr (pos + 1) (n - 1) p := by
  have hv' : View m fr pos n ([t] ++ p) := hv
  exact hv'.advance_of_length rfl

/-- What may be read. -/
theorem inside_fetch (hv : View m fr pos n p) : Fetch.Inside ⟨pos, k, fr.ends⟩ ↔ k ≤ p.length := by
  constructor
  · intro hi
    by_contra hlt
    have hlt' : p.length < k := by omega
    have := hi p.length hlt' _ hv.tight
    exact Nat.lt_irrefl _ this
  · intro hk i hik e he
    have := hv.inside e he
    have hik' : i < k := hik
    exact Nat.lt_of_lt_of_le (Nat.add_lt_add_left hik' pos) (by omega)

end View

/-- A whole string. -/
theorem view_start (hm : Memory.bytes m 0 b.length = b) :
    View m ⟨b.length, []⟩ 0 b.length b where
  bytes := hm
  stop := (Nat.zero_add _).symm
  inside e he := by
    rw [List.mem_singleton.1 he]
    exact Nat.le_of_eq (Nat.zero_add _)
  tight := by
    rw [Nat.zero_add]
    exact List.mem_singleton_self _

/-! ### Reading inside -/

theorem incrPtr_of_le (h : pos + k ≤ fr.stop) : incrPtr fr pos k = pure (pos + k) :=
  if_neg (Nat.not_lt.2 h)

theorem View.stop_le (hv : View m fr pos n (b ++ p)) : pos + b.length ≤ fr.stop := by
  have := hv.inside fr.stop List.mem_cons_self
  rw [List.length_append] at this
  omega

@[simp] theorem val_call (x : Xfer σ) : (call x pos).val = x >>= fun s ↦ .ok (s, pos) := by
  simp [call]

/-- Bytes that are there are used. -/
theorem val_takeFor (hv : View m fr pos n (b ++ p)) :
    (takeFor m fr op s pos b.length).val = op b s >>= fun s ↦ .ok (s, pos + b.length) := by
  rw [takeFor, Traced.val_bind, fetch, Traced.val_step, Xfer.ok_bind, Traced.val_bind,
    (bytes_eq_append hv.bytes).1, incrPtr_of_le hv.stop_le]
  rfl

theorem val_takeFor_of_length (hv : View m fr pos n (b ++ p)) (hb : b.length = k) :
    (takeFor m fr op s pos k).val = op b s >>= fun s ↦ .ok (s, pos + k) :=
  hb ▸ val_takeFor hv

theorem val_takeChar {t : UInt8} (hv : View m fr pos n (t :: p)) :
    (takeChar m fr pos).val = .ok (t, pos + 1) := by
  have hv' : View m fr pos n ([t] ++ p) := hv
  have hb : bytes m pos 1 = [t] := (bytes_eq_append hv'.bytes).1
  have hle : pos + 1 ≤ fr.stop := hv'.stop_le
  rw [takeChar, Traced.val_bind, fetch, Traced.val_step, Xfer.ok_bind, Traced.val_bind,
    incrPtr_of_le hle, hb]
  rfl

theorem val_nextLen (hv : View m fr pos n (le 4 l ++ p)) (hl : l < 2 ^ 32) :
    (nextLen m fr pos).val = .ok (l, pos + 4) := by
  have hle : pos + 4 ≤ fr.stop := by
    have := hv.stop_le
    rwa [length_le] at this
  have hb : bytes m pos 4 = le 4 l := by
    have := (bytes_eq_append hv.bytes).1
    rwa [length_le] at this
  rw [nextLen, Traced.val_bind, incrPtr_of_le hle, Traced.val_pure, Xfer.ok_bind,
    Traced.val_bind, fetch, Traced.val_step, Xfer.ok_bind, hb, ofLe_le_of_lt (w := 4) hl]
  rfl

theorem View.afterLen (hv : View m fr pos n (le 4 l ++ p)) : View m fr (pos + 4) (n - 4) p :=
  hv.advance_of_length (length_le 4 l)

theorem val_takeChunkFor (hv : View m fr pos n (printChunk b ++ p)) (hb : b.length < 2 ^ 32) :
    (takeChunkFor m fr op s pos).val = op b s >>= fun s ↦ .ok (s, pos + 4 + b.length) := by
  rw [printChunk, List.append_assoc] at hv
  rw [takeChunkFor, Traced.val_bind, val_nextLen hv hb, Xfer.ok_bind]
  exact val_takeFor hv.afterLen

theorem val_decodeRef (hv : View m fr pos n (le 4 l ++ p)) (hl : l < 2 ^ 32) :
    (decodeRef m fr M s pos).val =
      M.pushSeen (BitVec.ofNat 32 l) s >>= fun s ↦ .ok (s, pos + 4) := by
  rw [decodeRef, Traced.val_bind, val_nextLen hv hl, Xfer.ok_bind, val_call]

/-- The bytes of an announced length, all of them there. -/
theorem View.nest_append (hv : View m fr pos n (b ++ p)) :
    View m (fr.nest (pos + b.length)) pos b.length b := by
  have := hv.nest b.length
  rwa [List.take_left' rfl] at this

theorem View.nest_chunk (hv : View m fr pos n (printChunk b ++ p)) :
    View m (fr.nest (pos + 4 + b.length)) (pos + 4) b.length b := by
  rw [printChunk, List.append_assoc] at hv
  exact hv.afterLen.nest_append

theorem View.afterChunk (hv : View m fr pos n (printChunk b ++ p)) :
    View m fr (pos + 4 + b.length) (n - 4 - b.length) p := by
  rw [printChunk, List.append_assoc] at hv
  exact hv.afterLen.advance

theorem val_nextLen_chunk (hv : View m fr pos n (printChunk b ++ p)) (hb : b.length < 2 ^ 32) :
    (nextLen m fr pos).val = .ok (b.length, pos + 4) := by
  rw [printChunk, List.append_assoc] at hv
  exact val_nextLen hv hb

theorem View.chunk_le (hv : View m fr pos n (printChunk b ++ p)) :
    pos + 4 + b.length ≤ fr.stop := by
  have := hv.stop_le
  rw [length_printChunk] at this
  omega

/-! ### Complete trees -/

theorem val_decodeValue_succ {t : UInt8} (hv : View m fr pos n (t :: p)) :
    (decodeValue m M (depth + 1) fr pos s).val =
      (decodeSwitch m fr M (decodeValue m M depth) t s (pos + 1)).val := by
  rw [decodeValue, Traced.val_bind, val_takeChar hv]
  rfl

theorem val_decodeSwitch_tag {t tag : UInt8} (ht : t = 5 ∨ t = 6 ∨ t = 7)
    (hv : View m fr pos n (tag :: p)) (dec : Decoder σ) :
    (decodeSwitch m fr M dec t s pos).val =
      (decodeTagged m fr M dec t.toNat tag s (pos + 1)).val := by
  rcases ht with rfl | rfl | rfl
  all_goals
    rw [decodeSwitch]
    change (takeChar m fr pos >>= _).val = _
    rw [Traced.val_bind, val_takeChar hv]
    rfl

section

variable {dec : Decoder σ} {tag : UInt8}

theorem decodeTagged_ref (t : Nat) :
    decodeTagged m fr M dec t 1 s pos = decodeRef m fr M s pos := by
  unfold decodeTagged
  exact if_pos rfl

theorem decodeTagged_table :
    decodeTagged m fr M dec 5 2 s pos = decodeTableObject m fr M dec s pos := rfl

theorem decodeTagged_bad (h₁ : tag ≠ 1) (h₂ : tag ≠ 2) (h₃ : tag ≠ 3) :
    decodeTagged m fr M dec 5 tag s pos = .lift (.raised "bad encoded data") := by
  unfold decodeTagged
  rw [if_neg h₁]
  change (if tag = 2 then _ else if tag = 3 then _ else _) = _
  rw [if_neg h₂, if_neg h₃]

theorem decodeTagged_hook {k : Kind} (hk : k ≠ .function) :
    decodeTagged m fr M dec k.type.toNat 3 s pos = decodeHook m fr M dec s pos := by
  cases k with
  | table | userdata => rfl
  | function => exact absurd rfl hk

theorem decodeTagged_function (ht : tag ≠ 1) :
    decodeTagged m fr M dec 6 tag s pos = decodeFunction m fr M dec s pos := by
  unfold decodeTagged
  exact if_neg ht

theorem decodeTagged_userdata (h₁ : tag ≠ 1) (h₃ : tag ≠ 3) :
    decodeTagged m fr M dec 7 tag s pos = call (M.push .nil s) pos := by
  unfold decodeTagged
  rw [if_neg h₁]
  exact if_neg h₃

end

theorem type_mem (k : Kind) : k.type = 5 ∨ k.type = 6 ∨ k.type = 7 := by
  cases k <;> simp [Kind.type]

/-- A table after its length, if its pairs are read. -/
theorem val_decodeBody {dec : Decoder σ} {before after : σ → Xfer σ}
    {es : Codes} (hv : View m fr pos n (printChunk es.print ++ p)) (hl : es.print.length < 2 ^ 32)
    (hes : ∀ s, (decodeTable (fr.nest (pos + 4 + es.print.length)) M dec es.print.length (pos + 4)
      s).val = es.run M s) :
    (decodeBody m fr M dec before after s pos).val =
      before s >>= fun s ↦ es.run M s >>= fun s ↦ after s >>= fun s ↦
        .ok (s, pos + 4 + es.print.length) := by
  rw [decodeBody, Traced.val_bind, val_nextLen_chunk hv hl, Xfer.ok_bind]
  simp only [Traced.val_bind, Traced.val_lift, hes, incrPtr_of_le hv.chunk_le, Traced.val_pure,
    Xfer.ok_bind]

mutual

/-- **A complete tree is read**, and its calls are made. -/
theorem decodeValue_print : ∀ (c : Code) (depth : Nat) (fr : Frame) (pos n : Nat)
    (p : List UInt8) (s : σ), c.Fits → c.height ≤ depth → View m fr pos n (c.print ++ p) →
      (decodeValue m M depth fr pos s).val =
        c.run M s >>= fun s ↦ .ok (s, pos + c.print.length)
  | c, 0, _, _, _, _, _, _, hd, _ => absurd hd (Nat.not_le.2 c.height_pos)
  | .nil thread, depth + 1, fr, pos, n, p, s, _, _, hv => by
      cases thread <;> exact (val_decodeValue_succ hv).trans (val_call _)
  | .boolean b, depth + 1, fr, pos, n, p, s, _, _, hv => by
      have hv₁ : View m fr (pos + 1) (n - 1) ([b] ++ p) := hv.head
      rw [val_decodeValue_succ hv]
      refine (val_takeFor_of_length hv₁ rfl).trans ?_
      simp [Code.run, Code.print, Nat.add_assoc]
  | .lightuserdata q, depth + 1, fr, pos, n, p, s, _, _, hv => by
      rw [val_decodeValue_succ hv]
      refine (val_takeFor_of_length hv.head (length_le 8 q.toNat)).trans ?_
      simp [Code.run, Code.print, Nat.add_assoc, ofLe_toNat]
  | .number q, depth + 1, fr, pos, n, p, s, _, _, hv => by
      rw [val_decodeValue_succ hv]
      refine (val_takeFor_of_length hv.head (length_le 8 q.toNat)).trans ?_
      simp [Code.run, Code.print, Nat.add_assoc, ofLe_toNat]
  | .string b, depth + 1, fr, pos, n, p, s, hf, _, hv => by
      rw [val_decodeValue_succ hv]
      refine (val_takeChunkFor hv.head hf).trans ?_
      simp only [Code.run, Code.print, List.length_cons, length_printChunk, Nat.add_assoc,
        Nat.add_comm, Nat.add_left_comm]
  | .ref k r, depth + 1, fr, pos, n, p, s, _, _, hv => by
      rw [val_decodeValue_succ hv, val_decodeSwitch_tag (type_mem k) hv.head, decodeTagged_ref,
        val_decodeRef hv.head.head r.isLt]
      simp [Code.run, Code.print, Nat.add_assoc]
  | .table es, depth + 1, fr, pos, n, p, s, ⟨hl, hf⟩, hd, hv => by
      have hes := fun s ↦ decodeTable_print es depth es.print.length _ _ s hf
        (Nat.le_of_succ_le_succ hd) (Nat.le_refl _) hv.head.head.nest_chunk
      have hlen : pos + (Code.table es).print.length = pos + 1 + 1 + 4 + es.print.length := by
        simp only [Code.print, List.length_cons, length_printChunk]
        omega
      rw [val_decodeValue_succ hv, val_decodeSwitch_tag (.inl rfl) hv.head]
      change (decodeTagged m fr M _ 5 2 s (pos + 1 + 1)).val = _
      rw [decodeTagged_table, decodeTableObject, val_decodeBody hv.head.head hl hes, Code.run, hlen,
        Xfer.bind_assoc]
      rfl
  | .function tag dump ups, depth + 1, fr, pos, n, p, s, ⟨htag, hd₁, hl, hf⟩, hd, hv => by
      have hv₂ : View m fr (pos + 1 + 1) (n - 1 - 1)
          (printChunk dump ++ (printChunk ups.print ++ p)) :=
        List.append_assoc _ _ p ▸ hv.head.head
      have hes := fun s ↦ decodeTable_print ups depth ups.print.length _ _ s hf
        (Nat.le_of_succ_le_succ hd) (Nat.le_refl _) hv₂.afterChunk.nest_chunk
      have hlen : pos + (Code.function tag dump ups).print.length =
          pos + 1 + 1 + 4 + dump.length + 4 + ups.print.length := by
        simp only [Code.print, List.length_cons, List.length_append, length_printChunk]
        omega
      rw [val_decodeValue_succ hv, val_decodeSwitch_tag (.inr (.inl rfl)) hv.head]
      change (decodeTagged m fr M _ 6 tag s (pos + 1 + 1)).val = _
      rw [decodeTagged_function htag, decodeFunction, Traced.val_bind, val_takeChunkFor hv₂ hd₁]
      simp only [Traced.val_bind, Traced.val_lift, val_decodeBody hv₂.afterChunk hl hes, Code.run,
        Machine.loadFunction, Xfer.bind_assoc, Xfer.ok_bind, hlen]
  | .hook k es, depth + 1, fr, pos, n, p, s, ⟨hk, hl, hf⟩, hd, hv => by
      have hes := fun s ↦ decodeTable_print es depth es.print.length _ _ s hf
        (Nat.le_of_succ_le_succ hd) (Nat.le_refl _) hv.head.head.nest_chunk
      have hlen : pos + (Code.hook k es).print.length = pos + 1 + 1 + 4 + es.print.length := by
        simp only [Code.print, List.length_cons, length_printChunk]
        omega
      rw [val_decodeValue_succ hv, val_decodeSwitch_tag (type_mem k) hv.head, decodeTagged_hook hk,
        decodeHook, val_decodeBody hv.head.head hl hes]
      simp only [Code.run, Xfer.bind_assoc, hlen]
  | .userdata tag, depth + 1, fr, pos, n, p, s, ⟨h₁, h₃⟩, _, hv => by
      rw [val_decodeValue_succ hv, val_decodeSwitch_tag (.inr (.inr rfl)) hv.head]
      change (decodeTagged m fr M _ 7 tag s (pos + 1 + 1)).val = _
      rw [decodeTagged_userdata h₁ h₃, val_call]
      rfl

theorem decodeTable_print : ∀ (es : Codes) (depth rounds : Nat) (fr : Frame) (pos : Nat)
    (s : σ), es.Fits → es.height ≤ depth → es.print.length ≤ rounds →
      View m fr pos es.print.length es.print →
        (decodeTable fr M (decodeValue m M depth) rounds pos s).val = es.run M s
  | .nil, depth, rounds, fr, pos, s, _, _, _, hv => by
      have hstop : fr.stop ≤ pos := Nat.le_of_eq hv.stop
      cases rounds <;> rw [decodeTable, if_pos hstop] <;> rfl
  | .cons k v rest, depth, rounds, fr, pos, s, ⟨hk, hv, hr⟩, hd, hn, hview => by
      obtain ⟨hdk, hdv, hdr⟩ : k.height ≤ depth ∧ v.height ≤ depth ∧ rest.height ≤ depth := by
        simpa only [Codes.height, Nat.max_le] using hd
      have hlen : (Codes.cons k v rest).print.length =
          k.print.length + v.print.length + rest.print.length := by
        simp only [Codes.print, List.length_append]
      have hpos : 0 < k.print.length := List.length_pos_iff.2 k.print_ne_nil
      have hstop : ¬ fr.stop ≤ pos := by
        rw [hview.stop]
        omega
      obtain ⟨rounds, rfl⟩ : ∃ r, rounds = r + 1 := ⟨rounds - 1, by omega⟩
      rw [Codes.print, List.append_assoc] at hview
      have hview₂ := hview.advance
      have hview₃ := hview₂.advance
      have hn₃ : (k.print ++ (v.print ++ rest.print)).length - k.print.length - v.print.length =
          rest.print.length := by
        simp only [List.length_append]
        omega
      rw [hn₃] at hview₃
      rw [decodeTable, if_neg hstop, Traced.val_bind, Codes.run,
        decodeValue_print k depth fr pos _ _ s hk hdk hview, Xfer.bind_assoc]
      congr 1
      funext s₁
      simp only [Xfer.ok_bind, Traced.val_bind]
      rw [decodeValue_print v depth fr _ _ _ s₁ hv hdv hview₂, Xfer.bind_assoc]
      congr 1
      funext s₂
      simp only [Xfer.ok_bind, Traced.val_lift]
      congr 1
      funext s₃
      exact decodeTable_print rest depth rounds fr _ _ hr hdr (by omega) hview₃

end

/-- The calls go well. -/
theorem val_decodeValue {c : Code} (hv : View m fr pos n (c.print ++ p)) (hf : c.Fits)
    (hd : c.height ≤ depth) (hc : c.run M s = .ok s') :
    (decodeValue m M depth fr pos s).val = .ok (s', pos + c.print.length) := by
  rw [decodeValue_print c depth fr pos n p s hf hd hv, hc]
  rfl

end

/-! ## What was read -/

section

variable {σ : Type} {m : Nat → UInt8} {fr : Frame} {pos pos' n k l depth : Nat} {p b : List UInt8}
  {M : Machine σ} {s s' : σ} {op : List UInt8 → σ → Xfer σ} {dec : Decoder σ}

/-- The bytes at an address, and those behind them. -/
theorem bytes_append_eq (hb : bytes m pos b.length = b)
    (hp : bytes m (pos + b.length) p.length = p) :
    bytes m pos (b ++ p).length = b ++ p := by
  rw [List.length_append, bytes_append, hb, hp]

theorem bytes_one {t : UInt8} (h : (bytes m pos 1).headD 0 = t) : bytes m pos [t].length = [t] := by
  have hlen : (bytes m pos 1).length = 1 := length_bytes
  obtain ⟨x, hx⟩ := List.length_eq_one_iff.1 hlen
  rw [hx] at h
  obtain rfl : x = t := h
  exact hx

/-- A tree was read, inside the innermost buffer, and its calls were made. -/
structure ReadsTree (m : Nat → UInt8) (M : Machine σ) (depth : Nat) (fr : Frame) (pos : Nat)
    (s : σ) (c : Code) (r : σ × Nat) : Prop where
  fits : c.Fits
  height : c.height ≤ depth
  bytes : bytes m pos c.print.length = c.print
  pos : r.2 = pos + c.print.length
  stop : r.2 ≤ fr.stop
  run : c.run M s = .ok r.1

/-- A part of the decoder that reads trees. -/
def ReadsTrees (m : Nat → UInt8) (M : Machine σ) (depth : Nat) (dec : Decoder σ) : Prop :=
  ∀ fr pos s r, (dec fr pos s).val = .ok r → ∃ c, ReadsTree m M depth fr pos s c r

theorem incrPtr_eq_ok (h : (incrPtr fr pos k).val = .ok pos') :
    pos' = pos + k ∧ pos' ≤ fr.stop := by
  unfold incrPtr at h
  split at h
  · cases h
  · cases h
    exact ⟨rfl, by omega⟩

theorem takeFor_eq_ok {r : σ × Nat} (h : (takeFor m fr op s pos k).val = .ok r) :
    op (bytes m pos k) s = .ok r.1 ∧ r.2 = pos + k ∧ r.2 ≤ fr.stop := by
  rw [takeFor, Traced.val_bind, fetch, Traced.val_step, Xfer.ok_bind, Traced.val_bind] at h
  obtain ⟨s', hs, h⟩ := Xfer.bind_eq_ok.1 h
  rw [Traced.val_bind] at h
  obtain ⟨pos', hpos, h⟩ := Xfer.bind_eq_ok.1 h
  cases h
  exact ⟨hs, incrPtr_eq_ok hpos⟩

theorem takeChar_eq_ok {r : UInt8 × Nat} (h : (takeChar m fr pos).val = .ok r) :
    bytes m pos [r.1].length = [r.1] ∧ r.2 = pos + 1 ∧ r.2 ≤ fr.stop := by
  rw [takeChar, Traced.val_bind, fetch, Traced.val_step, Xfer.ok_bind, Traced.val_bind] at h
  obtain ⟨pos', hpos, h⟩ := Xfer.bind_eq_ok.1 h
  cases h
  exact ⟨bytes_one rfl, incrPtr_eq_ok hpos⟩

theorem nextLen_eq_ok {r : Nat × Nat} (h : (nextLen m fr pos).val = .ok r) :
    r.1 < 2 ^ 32 ∧ bytes m pos (le 4 r.1).length = le 4 r.1 ∧ r.2 = pos + 4 ∧ r.2 ≤ fr.stop := by
  rw [nextLen, Traced.val_bind] at h
  obtain ⟨pos', hpos, h⟩ := Xfer.bind_eq_ok.1 h
  rw [Traced.val_bind, fetch, Traced.val_step, Xfer.ok_bind] at h
  cases h
  have hlt := ofLe_lt (bytes m pos 4)
  have hle := le_ofLe (bytes m pos 4)
  rw [length_bytes] at hlt hle
  refine ⟨hlt, ?_, incrPtr_eq_ok hpos⟩
  rw [length_le, hle]

theorem takeChunkFor_eq_ok {r : σ × Nat} (h : (takeChunkFor m fr op s pos).val = .ok r) :
    ∃ b, b.length < 2 ^ 32 ∧ bytes m pos (printChunk b).length = printChunk b ∧
      op b s = .ok r.1 ∧ r.2 = pos + (printChunk b).length ∧ r.2 ≤ fr.stop := by
  rw [takeChunkFor, Traced.val_bind] at h
  obtain ⟨⟨l, pos'⟩, hl, h⟩ := Xfer.bind_eq_ok.1 h
  obtain ⟨hlt, hb, rfl, -⟩ := nextLen_eq_ok hl
  obtain ⟨hop, hpos, hstop⟩ := takeFor_eq_ok h
  refine ⟨bytes m (pos + 4) l, by rwa [length_bytes], ?_, hop, ?_, hstop⟩
  · refine bytes_append_eq (by rwa [length_bytes]) ?_
    rw [length_bytes, length_le]
  · rw [hpos, length_printChunk, length_bytes, Nat.add_assoc]

theorem call_eq_ok {x : Xfer σ} {r : σ × Nat} (h : (call x pos).val = .ok r) :
    x = .ok r.1 ∧ r.2 = pos := by
  rw [val_call] at h
  obtain ⟨s', hs, h⟩ := Xfer.bind_eq_ok.1 h
  cases h
  exact ⟨hs, rfl⟩

variable (fr) in
/-- A table is read pair by pair, to its end. -/
theorem decodeTable_eq_ok (hdec : ReadsTrees m M depth dec) (hpos : pos ≤ fr.stop)
    (h : (decodeTable fr M dec n pos s).val = .ok s') :
    ∃ es : Codes, es.Fits ∧ es.height ≤ depth ∧ bytes m pos es.print.length = es.print ∧
      fr.stop = pos + es.print.length ∧ es.run M s = .ok s' := by
  -- at the end of the bytes no pair is left
  have hend : fr.stop ≤ pos → (pure s : Traced Fetch σ).val = .ok s' → ∃ es : Codes, es.Fits ∧
      es.height ≤ depth ∧ bytes m pos es.print.length = es.print ∧
      fr.stop = pos + es.print.length ∧ es.run M s = .ok s' := by
    intro hle hs
    exact ⟨.nil, trivial, Nat.zero_le _, rfl, Nat.le_antisymm hle hpos, hs⟩
  induction n generalizing pos s with
  | zero =>
      rw [decodeTable] at h
      split at h
      · rename_i hle
        exact hend hle h
      · cases h
  | succ n ih =>
      rw [decodeTable] at h
      split at h
      · rename_i hle
        exact hend hle h
      · rw [Traced.val_bind] at h
        obtain ⟨⟨s₁, pos₁⟩, hk, h⟩ := Xfer.bind_eq_ok.1 h
        rw [Traced.val_bind] at h
        obtain ⟨⟨s₂, pos₂⟩, hv, h⟩ := Xfer.bind_eq_ok.1 h
        rw [Traced.val_bind] at h
        obtain ⟨s₃, hset, h⟩ := Xfer.bind_eq_ok.1 h
        obtain ⟨k, hk⟩ := hdec _ _ _ _ hk
        obtain ⟨v, hv⟩ := hdec _ _ _ _ hv
        obtain rfl : pos₁ = pos + k.print.length := hk.pos
        obtain rfl : pos₂ = pos + k.print.length + v.print.length := hv.pos
        obtain ⟨rest, hf, hd, hb, hstop, hrun⟩ := ih hv.stop h fun hle hs ↦
          ⟨.nil, trivial, Nat.zero_le _, rfl, Nat.le_antisymm hle hv.stop, hs⟩
        refine ⟨.cons k v rest, ⟨hk.fits, hv.fits, hf⟩,
          Nat.max_le.2 ⟨hk.height, Nat.max_le.2 ⟨hv.height, hd⟩⟩, ?_, ?_, ?_⟩
        · refine bytes_append_eq (bytes_append_eq hk.bytes hv.bytes) ?_
          rwa [List.length_append, ← Nat.add_assoc]
        · rw [hstop, Codes.print, List.length_append, List.length_append]
          omega
        · have hset' : M.settable s₂ = .ok s₃ := hset
          rw [Codes.run, hk.run, Xfer.ok_bind, hv.run, Xfer.ok_bind, hset', Xfer.ok_bind, hrun]

/-- A table after its length. -/
theorem decodeBody_eq_ok (hdec : ReadsTrees m M depth dec) {before after : σ → Xfer σ}
    {r : σ × Nat} (h : (decodeBody m fr M dec before after s pos).val = .ok r) :
    ∃ es : Codes, es.Fits ∧ es.height ≤ depth ∧ es.print.length < 2 ^ 32 ∧
      bytes m pos (printChunk es.print).length = printChunk es.print ∧
      r.2 = pos + (printChunk es.print).length ∧ r.2 ≤ fr.stop ∧
      (before s >>= fun s ↦ es.run M s >>= after) = .ok r.1 := by
  rw [decodeBody, Traced.val_bind] at h
  obtain ⟨⟨l, pos'⟩, hl, h⟩ := Xfer.bind_eq_ok.1 h
  obtain ⟨hlt, hb, rfl, -⟩ := nextLen_eq_ok hl
  rw [Traced.val_bind] at h
  obtain ⟨s₁, hbefore, h⟩ := Xfer.bind_eq_ok.1 h
  rw [Traced.val_bind] at h
  obtain ⟨s₂, htable, h⟩ := Xfer.bind_eq_ok.1 h
  rw [Traced.val_bind] at h
  obtain ⟨s₃, hafter, h⟩ := Xfer.bind_eq_ok.1 h
  rw [Traced.val_bind] at h
  obtain ⟨next, hnext, h⟩ := Xfer.bind_eq_ok.1 h
  cases h
  obtain ⟨rfl, hstop⟩ := incrPtr_eq_ok hnext
  obtain ⟨es, hf, hd, hes, hlen, hrun⟩ :=
    decodeTable_eq_ok (fr.nest (pos + 4 + l)) hdec (Nat.le_add_right _ _) htable
  obtain rfl : l = es.print.length := Nat.add_left_cancel hlen
  refine ⟨es, hf, hd, hlt, ?_, ?_, hstop, ?_⟩
  · refine bytes_append_eq hb ?_
    rwa [length_le]
  · rw [length_printChunk, Nat.add_assoc]
  · have hbefore' : before s = .ok s₁ := hbefore
    rw [hbefore', Xfer.ok_bind, hrun, Xfer.ok_bind]
    exact hafter

/-- A tree that ends with a table. -/
theorem exists_of_body (hdec : ReadsTrees m M depth dec) {c : Codes → Code} (head : List UInt8)
    {before after : σ → Xfer σ} {r : σ × Nat} (hhead : bytes m pos head.length = head)
    (hfits : ∀ es : Codes, es.Fits → es.print.length < 2 ^ 32 → (c es).Fits)
    (hheight : ∀ es : Codes, (c es).height = es.height + 1)
    (hprint : ∀ es : Codes, (c es).print = head ++ printChunk es.print)
    (hrun : ∀ es : Codes, (c es).run M s = before s' >>= fun s ↦ es.run M s >>= after)
    (h : (decodeBody m fr M dec before after s' (pos + head.length)).val = .ok r) :
    ∃ c, ReadsTree m M (depth + 1) fr pos s c r := by
  obtain ⟨es, hf, hd, hlt, hb, hpos, hle, hr⟩ := decodeBody_eq_ok hdec h
  refine ⟨c es, hfits es hf hlt, ?_, ?_, ?_, hle, (hrun es).trans hr⟩
  · rw [hheight]
    exact Nat.succ_le_succ hd
  · rw [hprint]
    exact bytes_append_eq hhead hb
  · rw [hpos, hprint, List.length_append, Nat.add_assoc]

/-- The code of a function, and then a table. -/
theorem decodeFunction_eq_ok (hdec : ReadsTrees m M depth dec) {tag : UInt8} {r : σ × Nat}
    (htag : tag ≠ 1) (hhead : bytes m pos [6, tag].length = [6, tag])
    (h : (decodeFunction m fr M dec s (pos + 2)).val = .ok r) :
    ∃ c, ReadsTree m M (depth + 1) fr pos s c r := by
  rw [decodeFunction, Traced.val_bind] at h
  obtain ⟨⟨s₁, pos₁⟩, hdump, h⟩ := Xfer.bind_eq_ok.1 h
  obtain ⟨dump, hlt, hb, hload, hpos, -⟩ := takeChunkFor_eq_ok hdump
  obtain rfl : pos₁ = pos + 2 + (printChunk dump).length := hpos
  rw [Traced.val_bind] at h
  obtain ⟨s₂, henter, h⟩ := Xfer.bind_eq_ok.1 h
  have hopen : M.loadFunction dump s = .ok s₂ := Xfer.bind_eq_ok.2 ⟨s₁, hload, henter⟩
  refine exists_of_body hdec (c := .function tag dump) ([6, tag] ++ printChunk dump)
    (bytes_append_eq hhead hb) (fun _ hf hl ↦ ⟨htag, hlt, hl, hf⟩) (fun _ ↦ rfl) (fun _ ↦ rfl)
    (fun es ↦ ?_) (by rwa [List.length_append, ← Nat.add_assoc])
  rw [Code.run, hopen]
  rfl

/-- After the type and the tag. -/
theorem decodeTagged_eq_ok (hdec : ReadsTrees m M depth dec) {k : Kind} {tag : UInt8} {r : σ × Nat}
    (hhead : bytes m pos [k.type, tag].length = [k.type, tag]) (hstop : pos + 2 ≤ fr.stop)
    (h : (decodeTagged m fr M dec k.type.toNat tag s (pos + 2)).val = .ok r) :
    ∃ c, ReadsTree m M (depth + 1) fr pos s c r := by
  -- the two kinds that may have a hook
  have hhook : k ≠ .function → tag = 3 → ∃ c, ReadsTree m M (depth + 1) fr pos s c r := by
    rintro hk rfl
    rw [decodeTagged_hook hk] at h
    exact exists_of_body hdec (c := .hook k) _ hhead (fun _ hf hl ↦ ⟨hk, hl, hf⟩) (fun _ ↦ rfl)
      (fun _ ↦ rfl) (fun _ ↦ rfl) h
  by_cases h1 : tag = 1
  · subst h1
    rw [decodeTagged_ref, decodeRef, Traced.val_bind] at h
    obtain ⟨⟨n, pos'⟩, hn, h⟩ := Xfer.bind_eq_ok.1 h
    obtain ⟨hlt, hb, rfl, hle⟩ := nextLen_eq_ok hn
    obtain ⟨hop, hpos⟩ := call_eq_ok h
    have hprint : (Code.ref k (BitVec.ofNat 32 n)).print = [k.type, 1] ++ le 4 n := by
      rw [Code.print, BitVec.toNat_ofNat, Nat.mod_eq_of_lt hlt]
      rfl
    refine ⟨.ref k (BitVec.ofNat 32 n), trivial, Nat.succ_le_succ (Nat.zero_le _), ?_, ?_, ?_, hop⟩
    · rw [hprint]
      exact bytes_append_eq hhead hb
    · rw [hpos, hprint, List.length_append, length_le]
      rfl
    · rwa [hpos]
  · cases k with
    | table =>
        by_cases h2 : tag = 2
        · subst h2
          refine exists_of_body hdec (c := .table) _ hhead (fun _ hf hl ↦ ⟨hl, hf⟩) (fun _ ↦ rfl)
            (fun _ ↦ rfl) (fun es ↦ ?_) h
          rw [Code.run]
          congr 1
          funext s₁
          cases es.run M s₁ <;> rfl
        · by_cases h3 : tag = 3
          · exact hhook (by simp) h3
          · change (decodeTagged m fr M dec 5 tag s (pos + 2)).val = _ at h
            rw [decodeTagged_bad h1 h2 h3] at h
            cases h
    | function =>
        change (decodeTagged m fr M dec 6 tag s (pos + 2)).val = _ at h
        rw [decodeTagged_function h1] at h
        exact decodeFunction_eq_ok hdec h1 hhead h
    | userdata =>
        by_cases h3 : tag = 3
        · exact hhook (by simp) h3
        · change (decodeTagged m fr M dec 7 tag s (pos + 2)).val = _ at h
          rw [decodeTagged_userdata h1 h3] at h
          obtain ⟨hop, hpos⟩ := call_eq_ok h
          refine ⟨.userdata tag, ⟨h1, h3⟩, Nat.succ_le_succ (Nat.zero_le _), hhead, hpos, ?_, hop⟩
          rwa [hpos]

/-- Eight bytes. -/
theorem exists_of_eight {f : BitVec 64 → Value} {c : BitVec 64 → Code} {t : UInt8} {r : σ × Nat}
    (ht : bytes m pos [t].length = [t]) (hf : ∀ x, (c x).Fits) (hh : ∀ x, (c x).height = 1)
    (hprint : ∀ x, (c x).print = [t] ++ le 8 x.toNat) (hrun : ∀ x, (c x).run M s = M.push (f x) s)
    (h : (takeFor m fr (fun b ↦ M.push (f (BitVec.ofNat 64 (ofLe b)))) s (pos + 1) 8).val = .ok r) :
    ∃ c, ReadsTree m M (depth + 1) fr pos s c r := by
  obtain ⟨hop, hpos, hle⟩ := takeFor_eq_ok h
  refine ⟨c (.ofNat 64 (ofLe (bytes m (pos + 1) 8))), hf _, ?_, ?_, ?_, hle, (hrun _).trans hop⟩
  · rw [hh]
    exact Nat.succ_le_succ (Nat.zero_le _)
  · rw [hprint, le_toNat_ofLe length_bytes]
    refine bytes_append_eq ht ?_
    rw [length_bytes, List.length_singleton]
  · rw [hpos, hprint, List.length_append, length_le, Nat.add_assoc]
    rfl

/-- **What was read is a tree**, by induction on the room for the recursion. -/
theorem exists_tree (m : Nat → UInt8) (M : Machine σ) (depth : Nat) :
    ReadsTrees m M depth (decodeValue m M depth) := by
  induction depth with
  | zero =>
      intro fr pos s r h
      cases h
  | succ depth ih =>
      intro fr pos s r h
      rw [decodeValue, Traced.val_bind] at h
      obtain ⟨⟨t, pos₁⟩, ht, h⟩ := Xfer.bind_eq_ok.1 h
      obtain ⟨hb, rfl, hle⟩ := takeChar_eq_ok ht
      have hd : 1 ≤ depth + 1 := Nat.succ_le_succ (Nat.zero_le _)
      -- a type with a tag
      have htag : ∀ k : Kind, t = k.type → (do
          let (tag, pos) ← takeChar m fr (pos + 1)
          decodeTagged m fr M (decodeValue m M depth) k.type.toNat tag s pos).val = .ok r →
            ∃ c, ReadsTree m M (depth + 1) fr pos s c r := by
        rintro k rfl h
        rw [Traced.val_bind] at h
        obtain ⟨⟨tag, pos₂⟩, htag, h⟩ := Xfer.bind_eq_ok.1 h
        obtain ⟨hb₂, rfl, hle₂⟩ := takeChar_eq_ok htag
        exact decodeTagged_eq_ok ih (bytes_append_eq hb hb₂) hle₂ h
      change (decodeSwitch m fr M _ t s (pos + 1)).val = _ at h
      unfold decodeSwitch at h
      split at h
      · rename_i ht
        obtain rfl : t = 0 := UInt8.toNat_inj.1 ht
        obtain ⟨hop, hpos⟩ := call_eq_ok h
        exact ⟨.nil false, trivial, hd, hb, hpos, hpos ▸ hle, hop⟩
      · rename_i ht
        obtain rfl : t = 8 := UInt8.toNat_inj.1 ht
        obtain ⟨hop, hpos⟩ := call_eq_ok h
        exact ⟨.nil true, trivial, hd, hb, hpos, hpos ▸ hle, hop⟩
      · rename_i ht
        obtain rfl : t = 1 := UInt8.toNat_inj.1 ht
        obtain ⟨hop, hpos, hle₂⟩ := takeFor_eq_ok h
        have hlen : (bytes m (pos + 1) 1).length = 1 := length_bytes
        obtain ⟨x, hx⟩ := List.length_eq_one_iff.1 hlen
        rw [hx] at hop
        refine ⟨.boolean x, trivial, hd, bytes_append_eq hb hx, hpos, hle₂, ?_⟩
        rw [← hop]
        simp [Code.run]
      · rename_i ht
        obtain rfl : t = 2 := UInt8.toNat_inj.1 ht
        exact exists_of_eight (c := .lightuserdata) hb (fun _ ↦ trivial) (fun _ ↦ rfl)
          (fun _ ↦ rfl) (fun _ ↦ rfl) h
      · rename_i ht
        obtain rfl : t = 3 := UInt8.toNat_inj.1 ht
        exact exists_of_eight (c := .number) hb (fun _ ↦ trivial) (fun _ ↦ rfl)
          (fun _ ↦ rfl) (fun _ ↦ rfl) h
      · rename_i ht
        obtain rfl : t = 4 := UInt8.toNat_inj.1 ht
        obtain ⟨b, hlt, hb₂, hop, hpos, hle₂⟩ := takeChunkFor_eq_ok h
        refine ⟨.string b, hlt, hd, bytes_append_eq hb hb₂, ?_, hle₂, hop⟩
        rw [hpos, Code.print, List.length_cons]
        omega
      · rename_i ht
        exact htag .table (UInt8.toNat_inj.1 ht) h
      · rename_i ht
        exact htag .function (UInt8.toNat_inj.1 ht) h
      · rename_i ht
        exact htag .userdata (UInt8.toNat_inj.1 ht) h
      · cases h

end

end Leda.Marshal.Memory
