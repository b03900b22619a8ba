import Leda.Marshal.Decode

/-!
# The wire format

What `mar_decode_value` reads is a tree: `Code` is the grammar, `Code.print` writes it,
and `Code.eval` builds the value, entering objects in the order of the decoder.  The
decoder does both at once.  On the bytes of a tree that fits, in lengths and in depth, it
does what `eval` does and reads exactly these bytes (`decodeValue_print`), and whenever it
returns it has read such a tree (`exists_code`).  So everything about decoding can be said
about trees.  No two trees share their bytes (`Code.print_append_inj`).
-/

namespace Leda.Marshal

open Leda.Lib Leda.Lua

/-- The kinds of objects that are numbered. -/
inductive Kind
  | table
  | function
  | userdata
deriving DecidableEq

/-- `LUA_TTABLE`, `LUA_TFUNCTION`, `LUA_TUSERDATA`. -/
def Kind.type : Kind → UInt8
  | table => 5
  | function => 6
  | userdata => 7

mutual

/-- An encoded value. -/
inductive Code
  | /-- `LUA_TNIL`, or `LUA_TTHREAD`, which is read as `nil`. -/
    nil (thread : Bool)
  | boolean (b : UInt8)
  | lightuserdata (p : BitVec 64)
  | number (d : BitVec 64)
  | string (s : List UInt8)
  | /-- `MAR_TREF`. -/
    ref (k : Kind) (n : BitVec 32)
  | /-- A table, with `MAR_TVAL`. -/
    table (es : Codes)
  | /-- A function, with any tag but `MAR_TREF`. -/
    function (tag : UInt8) (dump : List UInt8) (ups : Codes)
  | /-- A table or userdata, with `MAR_TUSR`. -/
    hook (k : Kind) (es : Codes)
  | /-- A userdata with another tag, which is read as `nil`. -/
    userdata (tag : UInt8)

/-- An encoded table: keys and values in turn. -/
inductive Codes
  | nil
  | cons (k v : Code) (rest : Codes)

end

/-! ## Bytes -/

/-- Bytes after their length. -/
def printChunk (b : List UInt8) : List UInt8 := le 4 b.length ++ b

mutual

/-- The bytes of a tree. -/
def Code.print : Code → List UInt8
  | .nil thread => [if thread then 8 else 0]
  | .boolean b => [1, b]
  | .lightuserdata p => 2 :: le 8 p.toNat
  | .number d => 3 :: le 8 d.toNat
  | .string s => 4 :: printChunk s
  | .ref k n => k.type :: 1 :: le 4 n.toNat
  | .table es => 5 :: 2 :: printChunk es.print
  | .function tag dump ups => 6 :: tag :: (printChunk dump ++ printChunk ups.print)
  | .hook k es => k.type :: 3 :: printChunk es.print
  | .userdata tag => [7, tag]

@[inherit_doc Code.print]
def Codes.print : Codes → List UInt8
  | .nil => []
  | .cons k v rest => k.print ++ v.print ++ rest.print

end

mutual

/-- The lengths fit in four bytes, and no tag means something else. -/
def Code.Fits : Code → Prop
  | .string s => s.length < 2 ^ 32
  | .table es => es.print.length < 2 ^ 32 ∧ es.Fits
  | .function tag dump ups =>
      tag ≠ 1 ∧ dump.length < 2 ^ 32 ∧ ups.print.length < 2 ^ 32 ∧ ups.Fits
  | .hook k es => k ≠ .function ∧ es.print.length < 2 ^ 32 ∧ es.Fits
  | .userdata tag => tag ≠ 1 ∧ tag ≠ 3
  | _ => True

@[inherit_doc Code.Fits]
def Codes.Fits : Codes → Prop
  | .nil => True
  | .cons k v rest => k.Fits ∧ v.Fits ∧ rest.Fits

end

mutual

/-- The levels of calls that decoding takes. -/
def Code.height : Code → Nat
  | .table es => es.height + 1
  | .function _ _ ups => ups.height + 1
  | .hook _ es => es.height + 1
  | _ => 1

@[inherit_doc Code.height]
def Codes.height : Codes → Nat
  | .nil => 0
  | .cons k v rest => max k.height (max v.height rest.height)

end

/-! ## Values -/

mutual

/-- The value of a tree. -/
def Code.eval (L : Lua) : Code → Dec → Xfer (Value × Dec)
  | .nil _, d => .ok (.nil, d)
  | .boolean b, d => .ok (.boolean (b ≠ 0), d)
  | .lightuserdata p, d => .ok (.lightuserdata p, d)
  | .number n, d => .ok (.number n, d)
  | .string s, d => .ok (.string s, d)
  | .ref _ n, d => .ok (d.get n, d)
  | .table es, d => do
      let d' ← es.eval L d.heap.length (d.newtable.enter (.object d.heap.length))
      .ok (.object d.heap.length, d')
  | .function _ dump ups, d => do
      let (f, d) := L.loadFunction dump d
      let d' ← ups.eval L d.heap.length d.newtable
      let h ← L.setUpvalues f (entriesOf d'.heap d.heap.length) d'.heap
      .ok (f, { d' with heap := h })
  | .hook _ es, d => do
      let d' ← es.eval L d.heap.length d.newtable
      let (r, h) ← L.call (rawget (entriesOf d'.heap d.heap.length) (.ofNat 1)) d'.heap
      .ok (r, Dec.enter { d' with heap := h } r)
  | .userdata _, d => .ok (.nil, d)

/-- Fill the table at an address. -/
def Codes.eval (L : Lua) : Codes → Nat → Dec → Xfer Dec
  | .nil, _, d => .ok d
  | .cons k v rest, a, d => do
      let (vk, d) ← k.eval L d
      let (vv, d) ← v.eval L d
      let h ← settable d.heap a vk vv
      rest.eval L a { d with heap := h }

end

/-! ## Reading what was printed -/

section Reading

variable {L : Lua} {depth n : Nat} {b p rest : List UInt8} {d : Dec}

theorem take_append : take b.length (b ++ rest) = .ok (b, rest) := by
  simp [take]

theorem take_append_of_length (h : b.length = n) : take n (b ++ rest) = .ok (b, rest) :=
  h ▸ take_append

theorem length_printChunk (b : List UInt8) : (printChunk b).length = 4 + b.length := by
  simp [printChunk]

theorem nextLen_append (h : n < 2 ^ 32) : nextLen (le 4 n ++ rest) = .ok (n, rest) := by
  rw [nextLen, take_append_of_length (length_le 4 n), Xfer.ok_bind]
  simp only [ofLe_le_of_lt (w := 4) (n := n) h]

theorem takeChunk_append (h : b.length < 2 ^ 32) :
    takeChunk (printChunk b ++ rest) = .ok (b, rest) := by
  rw [takeChunk, printChunk, List.append_assoc, nextLen_append h, Xfer.ok_bind]
  exact take_append

theorem decodeRef_append (r : BitVec 32) :
    decodeRef d (le 4 r.toNat ++ rest) = .ok ((d.get r, d), rest) := by
  rw [decodeRef, nextLen_append r.isLt, Xfer.ok_bind]
  simp

theorem ofLe_toNat (r : BitVec 64) : BitVec.ofNat 64 (ofLe (le 8 r.toNat)) = r := by
  rw [ofLe_le_of_lt (w := 8) r.isLt]
  simp

theorem Code.height_pos (c : Code) : 0 < c.height := by
  cases c <;> simp [Code.height]

theorem Code.print_ne_nil (c : Code) : c.print ≠ [] := by
  cases c <;> simp [Code.print]

mutual

/-- **The decoder reads what was printed**, and makes of it the value of the tree. -/
theorem decodeValue_print : ∀ (c : Code) (depth : Nat) (rest : List UInt8) (d : Dec), c.Fits →
    c.height ≤ depth →
      decodeValue L depth (c.print ++ rest) d = c.eval L d >>= fun r ↦ .ok (r, rest)
  | c, 0, _, _, _, hd => absurd hd (Nat.not_le.2 c.height_pos)
  | .nil thread, depth + 1, rest, d, _, _ => by
      cases thread <;> rfl
  | .boolean b, depth + 1, rest, d, _, _ => by
      simp [Code.print, decodeValue, Code.eval, take]
  | .lightuserdata q, depth + 1, rest, d, _, _ => by
      simp [Code.print, decodeValue, Code.eval, take_append_of_length (length_le 8 _), ofLe_toNat]
  | .number q, depth + 1, rest, d, _, _ => by
      simp [Code.print, decodeValue, Code.eval, take_append_of_length (length_le 8 _), ofLe_toNat]
  | .string s, depth + 1, rest, d, hf, _ => by
      simp [Code.print, decodeValue, Code.eval, takeChunk_append hf]
  | .ref k r, depth + 1, rest, d, _, _ => by
      cases k <;> simp [Code.print, Kind.type, decodeValue, Code.eval, take, decodeRef_append]
  | .table es, depth + 1, rest, d, ⟨hl, hf⟩, hd => by
      have hes := decodeTable_print es depth es.print.length d.heap.length
        (d.newtable.enter (.object d.heap.length)) hf (Nat.le_of_succ_le_succ hd) (Nat.le_refl _)
      have hread : decodeValue L (depth + 1) ((Code.table es).print ++ rest) d =
          decodeTableObject (decodeValue L depth) d (printChunk es.print ++ rest) := by
        simp [Code.print, decodeValue, take]
      rw [hread, decodeTableObject, takeChunk_append hl, Xfer.ok_bind]
      simp only [hes, Code.eval, Xfer.bind_assoc, Xfer.ok_bind]
  | .function tag dump ups, depth + 1, rest, d, ⟨htag, hd₁, hl, hf⟩, hd => by
      have hread : decodeValue L (depth + 1) ((Code.function tag dump ups).print ++ rest) d =
          decodeFunction (decodeValue L depth) L d
            (printChunk dump ++ (printChunk ups.print ++ rest)) := by
        simp [Code.print, decodeValue, take, htag]
      rw [hread, decodeFunction, takeChunk_append hd₁, Xfer.ok_bind]
      simp only [takeChunk_append hl, Xfer.ok_bind]
      rw [decodeTable_print ups depth _ _ _ hf (Nat.le_of_succ_le_succ hd) (Nat.le_refl _),
        Code.eval, Xfer.bind_assoc]
      simp only [Xfer.bind_assoc, Xfer.ok_bind]
  | .hook k es, depth + 1, rest, d, ⟨hk, hl, hf⟩, hd => by
      have hes := decodeTable_print es depth es.print.length d.heap.length d.newtable hf
        (Nat.le_of_succ_le_succ hd) (Nat.le_refl _)
      have hread : decodeValue L (depth + 1) ((Code.hook k es).print ++ rest) d =
          decodeHook (decodeValue L depth) L d (printChunk es.print ++ rest) := by
        cases k with
        | table | userdata => simp [Code.print, Kind.type, decodeValue, take]
        | function => exact absurd rfl hk
      rw [hread, decodeHook, takeChunk_append hl, Xfer.ok_bind]
      simp only [hes, Code.eval, Xfer.bind_assoc, Xfer.ok_bind]
  | .userdata tag, depth + 1, rest, d, ⟨h₁, h₃⟩, _ => by
      simp [Code.print, decodeValue, Code.eval, take, h₁, h₃]

theorem decodeTable_print : ∀ (es : Codes) (depth n a : Nat) (d : Dec), es.Fits →
    es.height ≤ depth → es.print.length ≤ n →
      decodeTable (decodeValue L depth) a n es.print d = es.eval L a d
  | .nil, depth, n, a, d, _, _, _ => by
      cases n <;> rfl
  | .cons k v rest, depth, n, a, d, ⟨hk, hv, hr⟩, hd, hn => by
      obtain ⟨hdk, hdv, hdr⟩ : k.height ≤ depth ∧ v.height ≤ depth ∧ rest.height ≤ depth := by
        simpa only [Codes.height, Nat.max_le] using hd
      obtain ⟨b, q, hbq⟩ := List.exists_cons_of_ne_nil k.print_ne_nil
      have hlen : (Codes.cons k v rest).print.length =
          (q.length + 1) + v.print.length + rest.print.length := by
        simp only [Codes.print, hbq, List.length_append, List.length_cons]
      rw [hlen] at hn
      obtain ⟨m, rfl⟩ : ∃ m, n = m + 1 := ⟨n - 1, by omega⟩
      have hprint : (Codes.cons k v rest).print = b :: (q ++ (v.print ++ rest.print)) := by
        simp [Codes.print, hbq]
      have hread := decodeValue_print k depth (v.print ++ rest.print) d hk hdk
      rw [hbq, List.cons_append] at hread
      rw [hprint, decodeTable, hread, Codes.eval, Xfer.bind_assoc]
      congr 1
      funext ⟨vk, d₁⟩
      simp only [Xfer.ok_bind]
      rw [decodeValue_print v depth rest.print d₁ hv hdv, Xfer.bind_assoc]
      congr 1
      funext ⟨vv, d₂⟩
      simp only [Xfer.ok_bind]
      congr 1
      funext h
      exact decodeTable_print rest depth m a _ hr hdr (by omega)

end

/-! ## What was read was printed -/

theorem take_eq_ok {q : List UInt8} (h : take n p = .ok (b, q)) : b.length = n ∧ p = b ++ q := by
  unfold take at h
  split at h
  · cases h
  · cases h
    exact ⟨by rw [List.length_take]; omega, (List.take_append_drop n p).symm⟩

theorem nextLen_eq_ok {q : List UInt8} (h : nextLen p = .ok (n, q)) :
    n < 2 ^ 32 ∧ p = le 4 n ++ q := by
  obtain ⟨⟨b, q'⟩, hb, h⟩ := Xfer.bind_eq_ok.1 h
  cases h
  obtain ⟨hlen, rfl⟩ := take_eq_ok hb
  have hlt := ofLe_lt b
  have hle := le_ofLe b
  rw [hlen] at hlt hle
  exact ⟨hlt, by rw [hle]⟩

theorem takeChunk_eq_ok {q : List UInt8} (h : takeChunk p = .ok (b, q)) :
    b.length < 2 ^ 32 ∧ p = printChunk b ++ q := by
  obtain ⟨⟨l, q'⟩, hl, hb⟩ := Xfer.bind_eq_ok.1 h
  obtain ⟨hlt, hp⟩ := nextLen_eq_ok hl
  obtain ⟨rfl, rfl⟩ := take_eq_ok hb
  exact ⟨hlt, by rw [hp, printChunk, List.append_assoc]⟩

theorem decodeRef_eq_ok {q : List UInt8} {r : Value × Dec} (h : decodeRef d p = .ok (r, q)) :
    ∃ n : BitVec 32, p = le 4 n.toNat ++ q ∧ r = (d.get n, d) := by
  obtain ⟨⟨n, q'⟩, hn, h⟩ := Xfer.bind_eq_ok.1 h
  cases h
  obtain ⟨hlt, rfl⟩ := nextLen_eq_ok hn
  exact ⟨BitVec.ofNat 32 n, by rw [BitVec.toNat_ofNat, Nat.mod_eq_of_lt hlt], rfl⟩

/-- What a part of the decoder has read. -/
def ReadsCode (L : Lua) (depth : Nat) (dec : List UInt8 → Dec → Decoded) : Prop :=
  ∀ p d r q, dec p d = .ok (r, q) →
    ∃ c : Code, c.Fits ∧ c.height ≤ depth ∧ p = c.print ++ q ∧ c.eval L d = .ok r

/-- A table is read pair by pair. -/
theorem decodeTable_eq_ok {dec : List UInt8 → Dec → Decoded} (hdec : ReadsCode L depth dec)
    {a : Nat} {d' : Dec} (h : decodeTable dec a n p d = .ok d') :
    ∃ es : Codes, es.Fits ∧ es.height ≤ depth ∧ p = es.print ∧ es.eval L a d = .ok d' := by
  induction n generalizing p d with
  | zero =>
      cases p with
      | nil => exact ⟨.nil, trivial, Nat.zero_le _, rfl, h⟩
      | cons => cases h
  | succ n ih =>
      cases p with
      | nil => exact ⟨.nil, trivial, Nat.zero_le _, rfl, h⟩
      | cons b p =>
          obtain ⟨⟨⟨vk, d₁⟩, p₁⟩, hk, h₁⟩ := Xfer.bind_eq_ok.1 h
          obtain ⟨⟨⟨vv, d₂⟩, p₂⟩, hv, h₂⟩ := Xfer.bind_eq_ok.1 h₁
          obtain ⟨heap, hset, h₃⟩ := Xfer.bind_eq_ok.1 h₂
          obtain ⟨k, hfk, hdk, hpk, hek⟩ := hdec _ _ _ _ hk
          obtain ⟨v, hfv, hdv, rfl, hev⟩ := hdec _ _ _ _ hv
          obtain ⟨rest, hfr, hdr, rfl, her⟩ := ih h₃
          refine ⟨.cons k v rest, ⟨hfk, hfv, hfr⟩, ?_, ?_, ?_⟩
          · exact Nat.max_le.2 ⟨hdk, Nat.max_le.2 ⟨hdv, hdr⟩⟩
          · rw [hpk, Codes.print, List.append_assoc]
          · simp only [Codes.eval, hek, hev, hset, her, Xfer.ok_bind]

section Objects

variable {dec : List UInt8 → Dec → Decoded} {q : List UInt8} {r : Value × Dec}

theorem decodeTableObject_eq_ok (hdec : ReadsCode L depth dec)
    (h : decodeTableObject dec d p = .ok (r, q)) :
    ∃ c : Code, c.Fits ∧ c.height ≤ depth + 1 ∧ 5 :: 2 :: p = c.print ++ q ∧
      c.eval L d = .ok r := by
  obtain ⟨⟨b, p₁⟩, hb, h₁⟩ := Xfer.bind_eq_ok.1 h
  obtain ⟨d', ht, h₂⟩ := Xfer.bind_eq_ok.1 h₁
  cases h₂
  obtain ⟨hlt, rfl⟩ := takeChunk_eq_ok hb
  obtain ⟨es, hf, hh, rfl, he⟩ := decodeTable_eq_ok hdec ht
  refine ⟨.table es, ⟨hlt, hf⟩, Nat.succ_le_succ hh, by simp [Code.print], ?_⟩
  rw [Code.eval, he, Xfer.ok_bind]

theorem decodeHook_eq_ok (hdec : ReadsCode L depth dec) {k : Kind} (hk : k ≠ .function)
    (h : decodeHook dec L d p = .ok (r, q)) :
    ∃ c : Code, c.Fits ∧ c.height ≤ depth + 1 ∧ k.type :: 3 :: p = c.print ++ q ∧
      c.eval L d = .ok r := by
  obtain ⟨⟨b, p₁⟩, hb, h₁⟩ := Xfer.bind_eq_ok.1 h
  obtain ⟨d', ht, h₂⟩ := Xfer.bind_eq_ok.1 h₁
  obtain ⟨⟨v, heap⟩, hc, h₃⟩ := Xfer.bind_eq_ok.1 h₂
  cases h₃
  obtain ⟨hlt, rfl⟩ := takeChunk_eq_ok hb
  obtain ⟨es, hf, hh, rfl, he⟩ := decodeTable_eq_ok hdec ht
  refine ⟨.hook k es, ⟨hk, hlt, hf⟩, Nat.succ_le_succ hh, by simp [Code.print], ?_⟩
  rw [Code.eval, he, Xfer.ok_bind, hc, Xfer.ok_bind]

theorem decodeFunction_eq_ok (hdec : ReadsCode L depth dec) {tag : UInt8} (htag : tag ≠ 1)
    (h : decodeFunction dec L d p = .ok (r, q)) :
    ∃ c : Code, c.Fits ∧ c.height ≤ depth + 1 ∧ 6 :: tag :: p = c.print ++ q ∧
      c.eval L d = .ok r := by
  obtain ⟨⟨dump, p₁⟩, hdump, h₁⟩ := Xfer.bind_eq_ok.1 h
  obtain ⟨f, df, hload⟩ : ∃ f df, L.loadFunction dump d = (f, df) := ⟨_, _, rfl⟩
  simp only [hload] at h₁
  obtain ⟨⟨b, p₂⟩, hb, h₂⟩ := Xfer.bind_eq_ok.1 h₁
  obtain ⟨d', ht, h₃⟩ := Xfer.bind_eq_ok.1 h₂
  obtain ⟨heap, hs, h₄⟩ := Xfer.bind_eq_ok.1 h₃
  cases h₄
  obtain ⟨hld, rfl⟩ := takeChunk_eq_ok hdump
  obtain ⟨hlb, rfl⟩ := takeChunk_eq_ok hb
  obtain ⟨ups, hf, hh, rfl, he⟩ := decodeTable_eq_ok hdec ht
  refine ⟨.function tag dump ups, ⟨htag, hld, hlb, hf⟩, Nat.succ_le_succ hh,
    by simp [Code.print], ?_⟩
  simp only [Code.eval, hload, he, hs, Xfer.ok_bind]

theorem decodeRef_code (k : Kind) (h : decodeRef d p = .ok (r, q)) :
    ∃ c : Code, c.Fits ∧ c.height ≤ depth + 1 ∧ k.type :: 1 :: p = c.print ++ q ∧
      c.eval L d = .ok r := by
  obtain ⟨n, rfl, rfl⟩ := decodeRef_eq_ok h
  exact ⟨.ref k n, trivial, Nat.succ_le_succ (Nat.zero_le _), rfl, rfl⟩

end Objects

/-- Eight bytes are those of a number. -/
theorem le_toNat_ofLe (h : b.length = 8) : le 8 (BitVec.ofNat 64 (ofLe b)).toNat = b := by
  have hle := le_ofLe b
  have hlt : ofLe b < 2 ^ 64 := by simpa [h] using ofLe_lt b
  rw [h] at hle
  rw [BitVec.toNat_ofNat, Nat.mod_eq_of_lt hlt, hle]

/-- A pointer or number of eight bytes. -/
theorem take_eight_eq_ok {q : List UInt8} (h : take 8 p = .ok (b, q)) :
    ∃ x : BitVec 64, b = le 8 x.toNat ∧ p = le 8 x.toNat ++ q := by
  obtain ⟨hlen, rfl⟩ := take_eq_ok h
  have hx := le_toNat_ofLe hlen
  exact ⟨_, hx.symm, by rw [hx]⟩

/-- A tag of one byte. -/
theorem take_one_eq_ok {q : List UInt8} (h : take 1 p = .ok (b, q)) :
    ∃ tag, b = [tag] ∧ p = tag :: q := by
  obtain ⟨hlen, rfl⟩ := take_eq_ok h
  obtain ⟨tag, rfl⟩ := List.length_eq_one_iff.1 hlen
  exact ⟨tag, rfl, rfl⟩

/-- **Whatever the decoder returns, it has read a tree that fits, and has made of it its
value.** -/
theorem exists_code (L : Lua) : ∀ depth, ReadsCode L depth (decodeValue L depth)
  | 0 => fun p d r q h ↦ by cases h
  | depth + 1 => fun p d r q h ↦ by
      have ih := exists_code L depth
      have hpos : 1 ≤ depth + 1 := Nat.succ_le_succ (Nat.zero_le _)
      cases p with
      | nil => cases h
      | cons type p =>
          rw [decodeValue] at h
          split at h
          · rename_i ht
            obtain rfl : type = 0 := UInt8.toNat_inj.1 ht
            cases h
            exact ⟨.nil false, trivial, hpos, rfl, rfl⟩
          · rename_i ht
            obtain rfl : type = 8 := UInt8.toNat_inj.1 ht
            cases h
            exact ⟨.nil true, trivial, hpos, rfl, rfl⟩
          · rename_i ht
            obtain rfl : type = 1 := UInt8.toNat_inj.1 ht
            obtain ⟨⟨b, p₁⟩, hb, h₁⟩ := Xfer.bind_eq_ok.1 h
            cases h₁
            obtain ⟨x, rfl, rfl⟩ := take_one_eq_ok hb
            exact ⟨.boolean x, trivial, hpos, rfl, by simp [Code.eval]⟩
          · rename_i ht
            obtain rfl : type = 2 := UInt8.toNat_inj.1 ht
            obtain ⟨⟨b, p₁⟩, hb, h₁⟩ := Xfer.bind_eq_ok.1 h
            cases h₁
            obtain ⟨x, rfl, rfl⟩ := take_eight_eq_ok hb
            exact ⟨.lightuserdata x, trivial, hpos, rfl, by rw [ofLe_toNat]; rfl⟩
          · rename_i ht
            obtain rfl : type = 3 := UInt8.toNat_inj.1 ht
            obtain ⟨⟨b, p₁⟩, hb, h₁⟩ := Xfer.bind_eq_ok.1 h
            cases h₁
            obtain ⟨x, rfl, rfl⟩ := take_eight_eq_ok hb
            exact ⟨.number x, trivial, hpos, rfl, by rw [ofLe_toNat]; rfl⟩
          · rename_i ht
            obtain rfl : type = 4 := UInt8.toNat_inj.1 ht
            obtain ⟨⟨b, p₁⟩, hb, h₁⟩ := Xfer.bind_eq_ok.1 h
            cases h₁
            obtain ⟨hlt, rfl⟩ := takeChunk_eq_ok hb
            exact ⟨.string b, hlt, hpos, rfl, rfl⟩
          · rename_i ht
            obtain rfl : type = 5 := UInt8.toNat_inj.1 ht
            obtain ⟨⟨b, p₁⟩, hb, h₁⟩ := Xfer.bind_eq_ok.1 h
            obtain ⟨tag, rfl, rfl⟩ := take_one_eq_ok hb
            dsimp only at h₁
            split at h₁
            · rename_i htag
              cases htag
              exact decodeRef_code .table h₁
            · split at h₁
              · rename_i htag
                cases htag
                exact decodeTableObject_eq_ok ih h₁
              · split at h₁
                · rename_i htag
                  cases htag
                  exact decodeHook_eq_ok ih (k := .table) (by simp) h₁
                · cases h₁
          · rename_i ht
            obtain rfl : type = 6 := UInt8.toNat_inj.1 ht
            obtain ⟨⟨b, p₁⟩, hb, h₁⟩ := Xfer.bind_eq_ok.1 h
            obtain ⟨tag, rfl, rfl⟩ := take_one_eq_ok hb
            dsimp only at h₁
            split at h₁
            · rename_i htag
              cases htag
              exact decodeRef_code .function h₁
            · rename_i htag
              exact decodeFunction_eq_ok ih (by simpa using htag) h₁
          · rename_i ht
            obtain rfl : type = 7 := UInt8.toNat_inj.1 ht
            obtain ⟨⟨b, p₁⟩, hb, h₁⟩ := Xfer.bind_eq_ok.1 h
            obtain ⟨tag, rfl, rfl⟩ := take_one_eq_ok hb
            dsimp only at h₁
            split at h₁
            · rename_i htag
              cases htag
              exact decodeRef_code .userdata h₁
            · split at h₁
              · rename_i htag
                cases htag
                exact decodeHook_eq_ok ih (k := .userdata) (by simp) h₁
              · rename_i h1 h3
                cases h₁
                exact ⟨.userdata tag, ⟨by simpa using h1, by simpa using h3⟩, hpos, rfl, rfl⟩
          · cases h

/-- **A message is decoded if and only if it starts with a tree that has a value.** -/
theorem marDecode_eq_ok_iff {v : Value} {h h' : Heap} : marDecode L depth b h = .ok (v, h') ↔
    ∃ (c : Code) (junk : List UInt8), b = 0x8e :: (c.print ++ junk) ∧ c.Fits ∧
      c.height ≤ depth ∧ ∃ seen, c.eval L { heap := h } = .ok (v, ⟨h', seen⟩) := by
  constructor
  · intro hb
    cases b with
    | nil => cases hb
    | cons magic p =>
        unfold marDecode at hb
        dsimp only at hb
        split at hb
        · cases hb
        · rename_i hmagic
          obtain rfl : magic = 0x8e := not_not.1 hmagic
          obtain ⟨⟨⟨v', d⟩, junk⟩, hdec, hb⟩ := Xfer.bind_eq_ok.1 hb
          cases hb
          obtain ⟨c, hf, hd, rfl, he⟩ := exists_code L depth _ _ _ _ hdec
          exact ⟨c, junk, rfl, hf, hd, d.seen, he⟩
  · rintro ⟨c, junk, rfl, hf, hd, seen, he⟩
    have hread := decodeValue_print (L := L) c depth junk { heap := h } hf hd
    rw [he, Xfer.ok_bind] at hread
    simp [marDecode, hread]

end Reading

/-! ## The grammar is unambiguous -/

/-- A chunk ends where its length says. -/
theorem printChunk_append_inj {b b' r r' : List UInt8} (hb : b.length < 2 ^ 32)
    (hb' : b'.length < 2 ^ 32) (h : printChunk b ++ r = printChunk b' ++ r') :
    b = b' ∧ r = r' := by
  have hread : takeChunk (printChunk b ++ r) = .ok (b, r) := takeChunk_append hb
  rw [h, takeChunk_append hb'] at hread
  obtain ⟨rfl, rfl⟩ := Prod.mk.inj (Xfer.ok.inj hread)
  exact ⟨rfl, rfl⟩

section

/-! The first bytes say of what kind a tree is, and the lengths how far it goes. -/

variable {c' : Code} {r r' : List UInt8}

theorem Code.nil_append_inj {thread : Bool} (h : (Code.nil thread).print ++ r = c'.print ++ r') :
    Code.nil thread = c' ∧ r = r' := by
  cases c' with
  | nil thread' => cases thread <;> cases thread' <;> simp_all [Code.print]
  | ref k | hook k => cases thread <;> cases k <;> simp [Code.print, Kind.type] at h
  | _ => cases thread <;> simp [Code.print] at h

theorem Code.boolean_append_inj {b : UInt8} (h : (Code.boolean b).print ++ r = c'.print ++ r') :
    Code.boolean b = c' ∧ r = r' := by
  cases c' with
  | nil thread' => cases thread' <;> simp [Code.print] at h
  | boolean b' => simpa [Code.print] using h
  | ref k | hook k => cases k <;> simp [Code.print, Kind.type] at h
  | _ => simp [Code.print] at h

theorem Code.lightuserdata_append_inj {p : BitVec 64}
    (h : (Code.lightuserdata p).print ++ r = c'.print ++ r') :
    Code.lightuserdata p = c' ∧ r = r' := by
  cases c' with
  | nil thread' => cases thread' <;> simp [Code.print] at h
  | lightuserdata p' =>
      simp only [Code.print, List.cons_append, List.cons.injEq, true_and] at h
      obtain ⟨he, hr⟩ := le_append_inj p.isLt p'.isLt h
      exact ⟨congrArg _ (BitVec.eq_of_toNat_eq he), hr⟩
  | ref k | hook k => cases k <;> simp [Code.print, Kind.type] at h
  | _ => simp [Code.print] at h

theorem Code.number_append_inj {p : BitVec 64} (h : (Code.number p).print ++ r = c'.print ++ r') :
    Code.number p = c' ∧ r = r' := by
  cases c' with
  | nil thread' => cases thread' <;> simp [Code.print] at h
  | number p' =>
      simp only [Code.print, List.cons_append, List.cons.injEq, true_and] at h
      obtain ⟨he, hr⟩ := le_append_inj p.isLt p'.isLt h
      exact ⟨congrArg _ (BitVec.eq_of_toNat_eq he), hr⟩
  | ref k | hook k => cases k <;> simp [Code.print, Kind.type] at h
  | _ => simp [Code.print] at h

theorem Code.string_append_inj {s : List UInt8} (hf : (Code.string s).Fits) (hf' : c'.Fits)
    (h : (Code.string s).print ++ r = c'.print ++ r') :
    Code.string s = c' ∧ r = r' := by
  cases c' with
  | nil thread' => cases thread' <;> simp [Code.print] at h
  | string s' =>
      simp only [Code.print, List.cons_append, List.cons.injEq, true_and] at h
      obtain ⟨rfl, hr⟩ := printChunk_append_inj hf hf' h
      exact ⟨rfl, hr⟩
  | ref k | hook k => cases k <;> simp [Code.print, Kind.type] at h
  | _ => simp [Code.print] at h

theorem Code.ref_append_inj {k : Kind} {n : BitVec 32} (hf : (Code.ref k n).Fits) (hf' : c'.Fits)
    (h : (Code.ref k n).print ++ r = c'.print ++ r') :
    Code.ref k n = c' ∧ r = r' := by
  cases c' with
  | nil thread' => cases k <;> cases thread' <;> simp [Code.print, Kind.type] at h
  | ref k' n' =>
      have hk : k = k' := by
        cases k <;> cases k' <;> simp [Code.print, Kind.type] at h <;> rfl
      subst hk
      simp only [Code.print, List.cons_append, List.cons.injEq, true_and] at h
      obtain ⟨he, hr⟩ := le_append_inj n.isLt n'.isLt h
      exact ⟨congrArg _ (BitVec.eq_of_toNat_eq he), hr⟩
  | hook k' => cases k <;> cases k' <;> simp [Code.print, Kind.type] at h
  | function tag =>
      have htag := hf'.1
      cases k <;> simp [Code.print, Kind.type] at h
      exact absurd h.1.symm htag
  | userdata tag =>
      have htag := hf'.1
      cases k <;> simp [Code.print, Kind.type] at h
      exact absurd h.1.symm htag
  | _ => cases k <;> simp [Code.print, Kind.type] at h

theorem Code.table_append_inj {es : Codes} (hf : (Code.table es).Fits) (hf' : c'.Fits)
    (ih : ∀ es' : Codes, es.Fits → es'.Fits → es.print = es'.print → es = es')
    (h : (Code.table es).print ++ r = c'.print ++ r') :
    Code.table es = c' ∧ r = r' := by
  cases c' with
  | nil thread' => cases thread' <;> simp [Code.print] at h
  | table es' =>
      simp only [Code.print, List.cons_append, List.cons.injEq, true_and] at h
      obtain ⟨he, hr⟩ := printChunk_append_inj hf.1 hf'.1 h
      exact ⟨congrArg _ (ih es' hf.2 hf'.2 he), hr⟩
  | ref k | hook k => cases k <;> simp [Code.print, Kind.type] at h
  | _ => simp [Code.print] at h

theorem Code.function_append_inj {tag : UInt8} {dump : List UInt8} {ups : Codes}
    (hf : (Code.function tag dump ups).Fits) (hf' : c'.Fits)
    (ih : ∀ es' : Codes, ups.Fits → es'.Fits → ups.print = es'.print → ups = es')
    (h : (Code.function tag dump ups).print ++ r = c'.print ++ r') :
    Code.function tag dump ups = c' ∧ r = r' := by
  obtain ⟨htag, hdump, hlen, hups⟩ := hf
  cases c' with
  | nil thread' => cases thread' <;> simp [Code.print] at h
  | function tag' dump' ups' =>
      simp only [Code.print, List.cons_append, List.cons.injEq, true_and,
        List.append_assoc] at h
      obtain ⟨rfl, h₁⟩ := h
      obtain ⟨rfl, h₂⟩ := printChunk_append_inj hdump hf'.2.1 h₁
      obtain ⟨he, hr⟩ := printChunk_append_inj hlen hf'.2.2.1 h₂
      exact ⟨congrArg _ (ih ups' hups hf'.2.2.2 he), hr⟩
  | ref k =>
      cases k <;> simp [Code.print, Kind.type] at h
      exact absurd h.1 htag
  | hook k =>
      have hk := hf'.1
      cases k <;> simp [Code.print, Kind.type] at h
      exact absurd rfl hk
  | _ => simp [Code.print] at h

theorem Code.hook_append_inj {k : Kind} {es : Codes} (hf : (Code.hook k es).Fits) (hf' : c'.Fits)
    (ih : ∀ es' : Codes, es.Fits → es'.Fits → es.print = es'.print → es = es')
    (h : (Code.hook k es).print ++ r = c'.print ++ r') :
    Code.hook k es = c' ∧ r = r' := by
  obtain ⟨hk, hlen, hes⟩ := hf
  cases c' with
  | nil thread' => cases k <;> cases thread' <;> simp [Code.print, Kind.type] at h
  | ref k' => cases k <;> cases k' <;> simp [Code.print, Kind.type] at h
  | hook k' es' =>
      have hkk : k = k' := by
        cases k <;> cases k' <;> simp [Code.print, Kind.type] at h <;> rfl
      subst hkk
      simp only [Code.print, List.cons_append, List.cons.injEq, true_and] at h
      obtain ⟨he, hr⟩ := printChunk_append_inj hlen hf'.2.1 h
      exact ⟨congrArg _ (ih es' hes hf'.2.2 he), hr⟩
  | function =>
      cases k <;> simp [Code.print, Kind.type] at h
      exact absurd rfl hk
  | userdata tag =>
      have htag := hf'.2
      cases k <;> simp [Code.print, Kind.type] at h
      exact absurd h.1.symm htag
  | _ => cases k <;> simp [Code.print, Kind.type] at h

theorem Code.userdata_append_inj {tag : UInt8} (hf : (Code.userdata tag).Fits)
    (h : (Code.userdata tag).print ++ r = c'.print ++ r') :
    Code.userdata tag = c' ∧ r = r' := by
  cases c' with
  | nil thread' => cases thread' <;> simp [Code.print] at h
  | userdata tag' => simpa [Code.print] using h
  | ref k =>
      have htag := hf.1
      cases k <;> simp [Code.print, Kind.type] at h
      exact absurd h.1 htag
  | hook k =>
      have htag := hf.2
      cases k <;> simp [Code.print, Kind.type] at h
      exact absurd h.1 htag
  | _ => simp [Code.print] at h

end

mutual

/-- **No two trees have the same bytes**, and none begins with those of another. -/
theorem Code.print_append_inj : ∀ (c c' : Code) (r r' : List UInt8), c.Fits → c'.Fits →
    c.print ++ r = c'.print ++ r' → c = c' ∧ r = r'
  | .nil _, _, _, _, _, _, h => Code.nil_append_inj h
  | .boolean _, _, _, _, _, _, h => Code.boolean_append_inj h
  | .lightuserdata _, _, _, _, _, _, h => Code.lightuserdata_append_inj h
  | .number _, _, _, _, _, _, h => Code.number_append_inj h
  | .string _, _, _, _, hf, hf', h => Code.string_append_inj hf hf' h
  | .ref _ _, _, _, _, hf, hf', h => Code.ref_append_inj hf hf' h
  | .table es, _, _, _, hf, hf', h => Code.table_append_inj hf hf' es.print_inj h
  | .function _ _ ups, _, _, _, hf, hf', h => Code.function_append_inj hf hf' ups.print_inj h
  | .hook _ es, _, _, _, hf, hf', h => Code.hook_append_inj hf hf' es.print_inj h
  | .userdata _, _, _, _, hf, _, h => Code.userdata_append_inj hf h

theorem Codes.print_inj : ∀ es es' : Codes, es.Fits → es'.Fits → es.print = es'.print → es = es'
  | .nil, .nil, _, _, _ => rfl
  | .nil, .cons k v rest, _, _, h => by
      have hk := k.print_ne_nil
      simp [Codes.print, hk] at h
  | .cons k v rest, .nil, _, _, h => by
      have hk := k.print_ne_nil
      simp [Codes.print, hk] at h
  | .cons k v rest, .cons k' v' rest', ⟨hk, hv, hr⟩, ⟨hk', hv', hr'⟩, h => by
      simp only [Codes.print, List.append_assoc] at h
      obtain ⟨rfl, h₁⟩ := k.print_append_inj k' _ _ hk hk' h
      obtain ⟨rfl, h₂⟩ := v.print_append_inj v' _ _ hv hv' h₁
      rw [rest.print_inj rest' hr hr' h₂]

end

/-- The message of a tree, whatever is behind it. -/
theorem marDecode_print_iff {L : Lua} {depth : Nat} {c : Code} {junk : List UInt8} {v : Value}
    {h h' : Heap} (hf : c.Fits) :
    marDecode L depth (0x8e :: (c.print ++ junk)) h = .ok (v, h') ↔
      c.height ≤ depth ∧ ∃ seen, c.eval L { heap := h } = .ok (v, ⟨h', seen⟩) := by
  rw [marDecode_eq_ok_iff]
  constructor
  · rintro ⟨c', junk', hb, hf', hd, he⟩
    obtain ⟨rfl, -⟩ := c.print_append_inj c' _ _ hf hf' (List.cons.inj hb).2
    exact ⟨hd, he⟩
  · rintro ⟨hd, he⟩
    exact ⟨c, junk, rfl, hf, hd, he⟩

end Leda.Marshal
