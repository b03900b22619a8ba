import Leda.Marshal.Stack

/-!
# Staying inside the message

When does `mar_decode` read only the string that it was given, and of it only what the
tables it is inside of announced, and does it come to an end?  `Derails` describes the
strings on which it does not, by where it goes wrong:

* the bytes end, the string's or those of an enclosing table, in an item that is looked at
  before the pointer is checked: a type, a tag, a boolean, a number, the bytes of a string
  or of a function;
* they end in a length, in a table that announced more bytes than there are, so that the
  check passes;
* the C stack is exhausted;
* a call of the Lua API crashes or does not return.

To get there, what comes before must be complete and raise no error.  Nothing is assumed of
the API: `Derails` is about any `Machine`.  With the calls on the stack of `mar_decode`
(`machine`) a call fails for want of a slot, in a hook that fails, or in what is left on the
stack by an upvalue too many.  The main result is `decode_inside_iff`: **the decoder stays
inside the message and ends, with a value or an error, if and only if the message does not
derail it**.
-/

namespace Leda.Marshal.Memory

open Leda.Lib Leda.Lua

/-- The bytes after the type that are looked at before they are checked. -/
def ahead (type : UInt8) : Nat :=
  match type.toNat with
  | 1 | 5 | 6 | 7 => 1
  | 2 | 3 => 8
  | _ => 0

/-- What comes before the length of a string, or of the code of a function. -/
inductive OpensBytes : List UInt8 → Prop
  | string : OpensBytes [4]
  | code {tag : UInt8} (ht : tag ≠ 1) : OpensBytes [6, tag]

section

variable {σ : Type} (M : Machine σ)

/-- What comes before the length of a table, and what the calls until the table is filled come
to. -/
inductive OpensTable (s : σ) : List UInt8 → Xfer σ → Prop
  | table : OpensTable s [5, 2] (M.openTable s)
  | hook {k : Kind} (hk : k ≠ .function) : OpensTable s [k.type, 3] (M.newtable s)
  | function {tag : UInt8} {dump : List UInt8} {s₁ : σ} (ht : tag ≠ 1) (hd : dump.length < 2 ^ 32)
      (hl : M.loadFunction dump s = .ok s₁) :
      OpensTable s (6 :: tag :: printChunk dump) (M.newtable s₁)

/-- What comes before a length, or the number of a reference. -/
inductive Header (s : σ) : List UInt8 → Prop
  | bytes {head : List UInt8} (h : OpensBytes head) : Header s head
  | table {head : List UInt8} {x : Xfer σ} (h : OpensTable M s head x) : Header s head
  | ref (k : Kind) : Header s [k.type, 1]

mutual

/-- **Where a value makes the decoder leave the message, or crash.**  There is room for
`depth` levels; the innermost table has announced `n` more bytes, and `p` are there. -/
inductive Derails : Nat → Nat → List UInt8 → σ → Prop
  | /-- The C stack is exhausted. -/
    room {n p s} : Derails 0 n p s
  | /-- The type is missing. -/
    type {depth n s} : Derails (depth + 1) n [] s
  | /-- A tag, a boolean or a number is cut. -/
    short {depth n t p s} (hp : p.length < ahead t) : Derails (depth + 1) n (t :: p) s
  | /-- A length is cut, and the check does not see it. -/
    length {depth n head p s} (hh : Header M s head) (hp : p.length < 4)
      (hn : head.length + 4 ≤ n) : Derails (depth + 1) n (head ++ p) s
  | /-- The bytes of a string or of a function are cut. -/
    bytes {depth n head l p s} (hh : OpensBytes head) (hl : l < 2 ^ 32) (hp : p.length < l) :
      Derails (depth + 1) n (head ++ (le 4 l ++ p)) s
  | /-- A function cannot be loaded. -/
    load {depth n dump p s} {tag : UInt8} (ht : tag ≠ 1) (hd : dump.length < 2 ^ 32)
      (hc : M.loadFunction dump s = .crash) :
      Derails (depth + 1) n (6 :: tag :: (printChunk dump ++ p)) s
  | /-- A table cannot be made. -/
    opened {depth n head l p s} (ho : OpensTable M s head .crash) (hl : l < 2 ^ 32) :
      Derails (depth + 1) n (head ++ (le 4 l ++ p)) s
  | table {depth n head l p s s'} (ho : OpensTable M s head (.ok s')) (hl : l < 2 ^ 32)
      (h : DerailsIn depth l (p.take l) s') : Derails (depth + 1) n (head ++ (le 4 l ++ p)) s
  | /-- The value is complete, and one of its calls crashes. -/
    run {depth n p s} {c : Code} (hf : c.Fits) (hd : c.height ≤ depth + 1)
      (hc : c.run M s = .crash) : Derails (depth + 1) n (c.print ++ p) s

/-- **Where a table makes the decoder leave the message, or crash.**  The table has `n` more
bytes, of which `p` are there. -/
inductive DerailsIn : Nat → Nat → List UInt8 → σ → Prop
  | key {depth n p s} (hn : 0 < n) (h : Derails depth n p s) : DerailsIn depth n p s
  | value {depth n p s s₁} {k : Code} (hf : k.Fits) (hd : k.height ≤ depth)
      (hk : k.run M s = .ok s₁) (h : Derails depth (n - k.print.length) p s₁) :
      DerailsIn depth n (k.print ++ p) s
  | /-- The pair crashes when it is set. -/
    set {depth n p s s₁ s₂} {k v : Code} (hfk : k.Fits) (hfv : v.Fits)
      (hdk : k.height ≤ depth) (hdv : v.height ≤ depth) (hk : k.run M s = .ok s₁)
      (hv : v.run M s₁ = .ok s₂) (hc : M.settable s₂ = .crash) :
      DerailsIn depth n (k.print ++ (v.print ++ p)) s
  | rest {depth n p s s₁ s₂ s₃} {k v : Code} (hfk : k.Fits) (hfv : v.Fits)
      (hdk : k.height ≤ depth) (hdv : v.height ≤ depth) (hk : k.run M s = .ok s₁)
      (hv : v.run M s₁ = .ok s₂) (hs : M.settable s₂ = .ok s₃)
      (h : DerailsIn depth (n - k.print.length - v.print.length) p s₃) :
      DerailsIn depth n (k.print ++ (v.print ++ p)) s

end

end

section

variable {σ : Type} {m : Nat → UInt8} {fr : Frame} {pos n k l depth : Nat}
  {p q b head : List UInt8} {M : Machine σ} {s s' : σ} {dec : Decoder σ} {x : Xfer σ}
  {op : List UInt8 → σ → Xfer σ}

/-- A table with bytes left goes on. -/
theorem View.not_stop_le (hv : View m fr pos n p) (hn : 0 < n) : ¬ fr.stop ≤ pos := by
  rw [hv.stop]
  omega

theorem View.pos_of_print {c : Code} (hv : View m fr pos n (c.print ++ p)) : 0 < n := by
  have hpos := List.length_pos_iff.2 c.print_ne_nil
  have hroom := hv.room
  rw [List.length_append] at hroom
  omega

/-! ## It goes wrong -/

section

open Traced

theorem takeChar_fails (hv : View m fr pos n []) : Fails Fetch.Inside (takeChar m fr pos) :=
  .of_left (.step fun hi ↦ Nat.not_lt.2 (hv.inside_fetch.1 hi) Nat.zero_lt_one)

theorem takeFor_fails (hv : View m fr pos n p) (hk : p.length < k) :
    Fails Fetch.Inside (takeFor m fr op s pos k) :=
  .of_left (.step fun hi ↦ Nat.not_lt.2 (hv.inside_fetch.1 hi) hk)

theorem nextLen_fails (hv : View m fr pos n p) (hp : p.length < 4) (hn : 4 ≤ n) :
    Fails Fetch.Inside (nextLen m fr pos) := by
  have hle : pos + 4 ≤ fr.stop := by
    have := hv.stop
    omega
  rw [nextLen, incrPtr_of_le hle]
  exact .of_right rfl (.of_left (.step fun hi ↦ Nat.not_lt.2 (hv.inside_fetch.1 hi) hp))

/-- The first byte leads to what the rest does. -/
theorem decodeValue_fails {t : UInt8} (hv : View m fr pos n (t :: p))
    (h : Fails Fetch.Inside (decodeSwitch m fr M (decodeValue m M depth) t s (pos + 1))) :
    Fails Fetch.Inside (decodeValue m M (depth + 1) fr pos s) :=
  .of_right (val_takeChar hv) h

/-- The tag leads to what the rest does. -/
theorem decodeTagged_fails {k : Kind} {tag : UInt8} (hv : View m fr pos n (k.type :: tag :: p))
    (h : Fails Fetch.Inside
      (decodeTagged m fr M (decodeValue m M depth) k.type.toNat tag s (pos + 2))) :
    Fails Fetch.Inside (decodeValue m M (depth + 1) fr pos s) := by
  refine decodeValue_fails hv ?_
  cases k <;> exact .of_right (val_takeChar hv.head) h

theorem short_fails {t : UInt8} (hv : View m fr pos n (t :: p)) (hp : p.length < ahead t) :
    Fails Fetch.Inside (decodeValue m M (depth + 1) fr pos s) := by
  refine decodeValue_fails hv ?_
  have hnil : p.length < 1 → View m fr (pos + 1) (n - 1) [] := fun hlt ↦ by
    have hv' := hv.head
    rwa [List.length_eq_zero_iff.1 (Nat.lt_one_iff.1 hlt)] at hv'
  unfold ahead at hp
  split at hp
  · rename_i ht
    obtain rfl : t = 1 := UInt8.toNat_inj.1 ht
    exact takeFor_fails hv.head hp
  · rename_i ht
    obtain rfl : t = 5 := UInt8.toNat_inj.1 ht
    exact .of_left (takeChar_fails (hnil hp))
  · rename_i ht
    obtain rfl : t = 6 := UInt8.toNat_inj.1 ht
    exact .of_left (takeChar_fails (hnil hp))
  · rename_i ht
    obtain rfl : t = 7 := UInt8.toNat_inj.1 ht
    exact .of_left (takeChar_fails (hnil hp))
  · rename_i ht
    obtain rfl : t = 2 := UInt8.toNat_inj.1 ht
    exact takeFor_fails hv.head hp
  · rename_i ht
    obtain rfl : t = 3 := UInt8.toNat_inj.1 ht
    exact takeFor_fails hv.head hp
  · exact absurd hp (Nat.not_lt_zero _)

/-- Bytes that follow a length are reached. -/
theorem OpensBytes.reaches (hh : OpensBytes head) (hv : View m fr pos n (head ++ p)) :
    ∃ op, ∀ depth, Fails Fetch.Inside (takeChunkFor m fr op s (pos + head.length)) →
      Fails Fetch.Inside (decodeValue m M (depth + 1) fr pos s) := by
  cases hh with
  | string => exact ⟨_, fun _ h ↦ decodeValue_fails hv h⟩
  | @code tag ht =>
      refine ⟨M.load, fun depth h ↦ decodeTagged_fails (k := .function) hv ?_⟩
      change Fails _ (decodeTagged m fr M _ 6 _ s _)
      rw [decodeTagged_function ht]
      exact .of_left h

/-- The code of a function is read, and the machine has loaded it. -/
theorem function_fails {tag : UInt8} {dump : List UInt8} (ht : tag ≠ 1) (hd : dump.length < 2 ^ 32)
    (hv : View m fr pos n (6 :: tag :: (printChunk dump ++ p)))
    (h : Fails Fetch.Inside (do
      let s ← Traced.lift (M.loadFunction dump s)
      decodeBody m fr M (decodeValue m M depth) M.newtable M.setUpvalues s
        (pos + (6 :: tag :: printChunk dump).length))) :
    Fails Fetch.Inside (decodeValue m M (depth + 1) fr pos s) := by
  refine decodeTagged_fails (k := .function) hv ?_
  change Fails _ (decodeTagged m fr M _ 6 _ s _)
  rw [decodeTagged_function ht, decodeFunction]
  have hread : (takeChunkFor m fr M.load s (pos + 1 + 1)).val =
      M.load dump s >>= fun s ↦ .ok (s, pos + 1 + 1 + 4 + dump.length) :=
    val_takeChunkFor hv.head.head hd
  have hpos : pos + 1 + 1 + 4 + dump.length = pos + (6 :: tag :: printChunk dump).length := by
    simp only [List.length_cons, length_printChunk]
    omega
  rw [hpos] at hread
  cases hl : M.load dump s with
  | ok s₁ =>
      rw [hl] at hread
      rw [Machine.loadFunction, hl, Xfer.ok_bind] at h
      exact .of_right hread h
  | raised msg =>
      rw [Machine.loadFunction, hl] at h
      rcases h with ⟨w, hw, -⟩ | hc
      · cases hw
      · cases hc
  | crash =>
      rw [hl] at hread
      exact .of_left (.inr hread)

/-- A table that follows its length is reached. -/
theorem OpensTable.reaches (ho : OpensTable M s head x) (hv : View m fr pos n (head ++ p)) :
    ∃ (before after : σ → Xfer σ) (s₁ : σ), before s₁ = x ∧ ∀ depth, Fails Fetch.Inside
      (decodeBody m fr M (decodeValue m M depth) before after s₁ (pos + head.length)) →
        Fails Fetch.Inside (decodeValue m M (depth + 1) fr pos s) := by
  cases ho with
  | table =>
      exact ⟨M.openTable, .ok, s, rfl, fun _ h ↦ decodeTagged_fails (k := .table) hv h⟩
  | @hook k hk =>
      refine ⟨M.newtable, M.callHook, s, rfl, fun _ h ↦ decodeTagged_fails hv ?_⟩
      rwa [decodeTagged_hook hk]
  | @function tag dump s₁ ht hd hl =>
      refine ⟨M.newtable, M.setUpvalues, s₁, rfl, fun _ h ↦ function_fails ht hd hv ?_⟩
      rw [hl]
      exact .of_right rfl h

/-- A length that is cut, whatever it is of. -/
theorem Header.fails (hh : Header M s head) (hv : View m fr pos n (head ++ p)) (hp : p.length < 4)
    (hn : head.length + 4 ≤ n) : Fails Fetch.Inside (decodeValue m M (depth + 1) fr pos s) := by
  have hlen : Fails Fetch.Inside (nextLen m fr (pos + head.length)) :=
    nextLen_fails hv.advance hp (by omega)
  cases hh with
  | bytes h =>
      obtain ⟨op, hr⟩ := h.reaches (M := M) (s := s) hv
      exact hr depth (.of_left hlen)
  | table h =>
      obtain ⟨before, after, s₁, -, hr⟩ := h.reaches hv
      exact hr depth (.of_left hlen)
  | ref k =>
      refine decodeTagged_fails hv ?_
      rw [decodeTagged_ref]
      exact .of_left hlen

mutual

/-- **A message that derails the decoder**, whatever is behind it. -/
theorem Derails.fails {depth n : Nat} {p : List UInt8} {s : σ} : Derails M depth n p s →
    ∀ {fr : Frame} {pos : Nat}, View m fr pos n p →
      Fails Fetch.Inside (decodeValue m M depth fr pos s)
  | .room, _, _, _ => .crash
  | .type, _, _, hv => .of_left (takeChar_fails hv)
  | .short hp, _, _, hv => short_fails hv hp
  | .length hh hp hn, _, _, hv => hh.fails hv hp hn
  | .bytes hh hl hp, _, _, hv => by
      obtain ⟨op, hr⟩ := hh.reaches hv
      exact hr _ (.of_right (val_nextLen hv.advance hl) (takeFor_fails hv.advance.afterLen hp))
  | .load ht hd hc, _, _, hv => by
      refine function_fails ht hd hv ?_
      rw [hc]
      exact .of_left .crash
  | .opened ho hl, _, _, hv => by
      obtain ⟨before, after, s₁, hx, hr⟩ := ho.reaches hv
      refine hr _ (.of_right (val_nextLen hv.advance hl) ?_)
      rw [hx]
      exact .of_left .crash
  | .table ho hl h, _, _, hv => by
      obtain ⟨before, after, s₁, hx, hr⟩ := ho.reaches hv
      refine hr _ (.of_right (val_nextLen hv.advance hl) (.of_right hx ?_))
      exact .of_left (h.fails (hv.advance.afterLen.nest _) (Nat.le_refl _))
  | .run (c := c) hf hd hc, fr, pos, hv => by
      refine .inr ?_
      rw [decodeValue_print c _ fr pos _ _ _ hf hd hv, hc]
      rfl

theorem DerailsIn.fails {depth n : Nat} {p : List UInt8} {s : σ} : DerailsIn M depth n p s →
    ∀ {fr : Frame} {pos rounds : Nat}, View m fr pos n p → n ≤ rounds →
      Fails Fetch.Inside (decodeTable fr M (decodeValue m M depth) rounds pos s)
  | .key hn h, _, _, rounds, hv, hr => by
      obtain ⟨rounds, rfl⟩ : ∃ r, rounds = r + 1 := ⟨rounds - 1, by omega⟩
      rw [decodeTable, if_neg (hv.not_stop_le hn)]
      exact .of_left (h.fails hv)
  | .value (k := k) hf hd hk h, _, _, rounds, hv, hr => by
      have hn := hv.pos_of_print
      obtain ⟨rounds, rfl⟩ : ∃ r, rounds = r + 1 := ⟨rounds - 1, by omega⟩
      rw [decodeTable, if_neg (hv.not_stop_le hn)]
      exact .of_right (val_decodeValue hv hf hd hk) (.of_left (h.fails hv.advance))
  | .set hfk hfv hdk hdv hk hv' hc, _, _, rounds, hv, hr => by
      have hn := hv.pos_of_print
      obtain ⟨rounds, rfl⟩ : ∃ r, rounds = r + 1 := ⟨rounds - 1, by omega⟩
      have hread := val_decodeValue hv hfk hdk hk
      have hread' := val_decodeValue hv.advance hfv hdv hv'
      rw [decodeTable, if_neg (hv.not_stop_le hn)]
      refine .of_right hread (.of_right hread' ?_)
      dsimp only
      rw [hc]
      exact .of_left .crash
  | .rest (k := k) hfk hfv hdk hdv hk hv' hs h, _, _, rounds, hv, hr => by
      have hn := hv.pos_of_print
      obtain ⟨rounds, rfl⟩ : ∃ r, rounds = r + 1 := ⟨rounds - 1, by omega⟩
      have hread := val_decodeValue hv hfk hdk hk
      have hread' := val_decodeValue hv.advance hfv hdv hv'
      have hpos := List.length_pos_iff.2 k.print_ne_nil
      rw [decodeTable, if_neg (hv.not_stop_le hn)]
      refine .of_right hread (.of_right hread' ?_)
      dsimp only
      rw [hs]
      exact .of_right rfl (h.fails hv.advance.advance (by omega))

end

end

/-! ## It goes right -/

section

open Traced

theorem fetch_ensures (hv : View m fr pos n p) (hk : k ≤ p.length) :
    Ensures Fetch.Inside (fetch m fr pos k) fun b ↦ ∃ q, b.length = k ∧ p = b ++ q := by
  have hlen : (p.take k).length = k := List.length_take_of_le hk
  have hbytes : bytes m pos k = p.take k := by
    have hb := hv.bytes
    rw [← List.take_append_drop k p] at hb
    have := (bytes_eq_append hb).1
    rwa [hlen] at this
  refine .step (hv.inside_fetch.2 hk) ⟨p.drop k, length_bytes, ?_⟩
  rw [hbytes, List.take_append_drop]

theorem incrPtr_ensures : Ensures Fetch.Inside (incrPtr fr pos k)
    fun next ↦ next = pos + k ∧ pos + k ≤ fr.stop := by
  unfold incrPtr
  split
  · exact .raised _
  · exact .pure ⟨rfl, by omega⟩

theorem takeChar_ensures {t : UInt8} (hv : View m fr pos n (t :: p)) :
    Ensures Fetch.Inside (takeChar m fr pos) (· = (t, pos + 1)) := by
  refine (fetch_ensures hv (Nat.succ_le_succ (Nat.zero_le _))).bind fun b _ hb ↦
    incrPtr_ensures.bind fun next _ hnext ↦ ?_
  obtain ⟨q, hlen, hp⟩ := hb
  obtain ⟨hpos, -⟩ := hnext
  obtain ⟨t', rfl⟩ := List.length_eq_one_iff.1 hlen
  cases hp
  cases hpos
  exact .pure rfl

/-- A call that does not crash. -/
theorem call_ensures (hx : x ≠ .crash) :
    Ensures Fetch.Inside (call x pos) fun r ↦ x = .ok r.1 ∧ r.2 = pos :=
  (Ensures.lift hx fun _ h ↦ h).bind fun _ _ h ↦ .pure ⟨h, rfl⟩

theorem takeFor_ensures (hv : View m fr pos n p) (hk : k ≤ p.length)
    (hop : ∀ b q, b.length = k → p = b ++ q → op b s ≠ .crash) :
    Ensures Fetch.Inside (takeFor m fr op s pos k) fun r ↦
      ∃ b q, b.length = k ∧ p = b ++ q ∧ op b s = .ok r.1 ∧ r.2 = pos + k := by
  refine (fetch_ensures hv hk).bind fun b _ hb ↦ ?_
  obtain ⟨q, hlen, hp⟩ := hb
  refine (Ensures.lift (hop b q hlen hp) fun _ h ↦ h).bind fun _ _ hs ↦ ?_
  exact incrPtr_ensures.bind fun _ _ hnext ↦ .pure ⟨b, q, hlen, hp, hs, hnext.1⟩

/-- A length is read, or its check fails. -/
theorem nextLen_ensures (hv : View m fr pos n p) (h : ¬ (p.length < 4 ∧ 4 ≤ n)) :
    Ensures Fetch.Inside (nextLen m fr pos)
      fun r ↦ ∃ q, r.1 < 2 ^ 32 ∧ p = le 4 r.1 ++ q ∧ r.2 = pos + 4 := by
  refine incrPtr_ensures.bind fun next _ hnext ↦ ?_
  obtain ⟨hnext, hle⟩ := hnext
  have hk : 4 ≤ p.length := by
    have := hv.stop
    omega
  refine (fetch_ensures hv hk).bind fun b _ hb ↦ ?_
  obtain ⟨q, hlen, hp⟩ := hb
  refine .pure ⟨q, ?_, ?_, hnext⟩
  · have := ofLe_lt b
    rwa [hlen] at this
  · have := le_ofLe b
    rw [hlen] at this
    rw [this, hp]

theorem takeChunkFor_ensures (hv : View m fr pos n p) (h : ¬ (p.length < 4 ∧ 4 ≤ n))
    (hcut : ∀ l q, l < 2 ^ 32 → p = le 4 l ++ q → l ≤ q.length)
    (hop : ∀ b q, b.length < 2 ^ 32 → p = printChunk b ++ q → op b s ≠ .crash) :
    Ensures Fetch.Inside (takeChunkFor m fr op s pos) fun r ↦
      ∃ b q, b.length < 2 ^ 32 ∧ p = printChunk b ++ q ∧ op b s = .ok r.1 ∧
        r.2 = pos + 4 + b.length := by
  refine (nextLen_ensures hv h).bind fun r _ hr ↦ ?_
  obtain ⟨q, hl, hp, hpos⟩ := hr
  obtain ⟨l, next⟩ := r
  cases hpos
  subst hp
  -- as bytes after their length
  have hchunk : ∀ b q', b.length = l → q = b ++ q' → le 4 l ++ q = printChunk b ++ q' := by
    rintro b q' rfl rfl
    rw [printChunk, List.append_assoc]
  refine (takeFor_ensures hv.afterLen (hcut l q hl rfl) fun b q' hlen hq ↦
    hop b q' (hlen ▸ hl) (hchunk b q' hlen hq)).mono fun r hr ↦ ?_
  obtain ⟨b, q', hlen, hq, hs, hpos⟩ := hr
  exact ⟨b, q', hlen ▸ hl, hchunk b q' hlen hq, hs, hlen ▸ hpos⟩

/-- A tree was read, and its calls went well. -/
def Reads (M : Machine σ) (depth pos : Nat) (p : List UInt8) (s : σ) (r : σ × Nat) : Prop :=
  ∃ (c : Code) (q : List UInt8), c.Fits ∧ c.height ≤ depth ∧ p = c.print ++ q ∧
    r.2 = pos + c.print.length ∧ c.run M s = .ok r.1

/-- A part of the decoder that goes right unless the message derails it. -/
def GoesRight (m : Nat → UInt8) (M : Machine σ) (depth : Nat) (dec : Decoder σ) : Prop :=
  ∀ {fr pos n p s}, View m fr pos n p → ¬ Derails M depth n p s →
    Ensures Fetch.Inside (dec fr pos s) (Reads M depth pos p s)

/-- A table goes right if its keys and values do. -/
theorem decodeTable_ensures (hdec : GoesRight m M depth dec) : ∀ (rounds : Nat) {pos n : Nat}
    {p : List UInt8} {s : σ}, n ≤ rounds → View m fr pos n p → ¬ DerailsIn M depth n p s →
      Ensures Fetch.Inside (decodeTable fr M dec rounds pos s) fun s' ↦
        ∃ es : Codes, es.Fits ∧ es.height ≤ depth ∧ p = es.print ∧ n = p.length ∧
          es.run M s = .ok s' := by
  intro rounds
  -- at the end of the bytes no pair is left
  have hend : ∀ {rounds pos : Nat} {p : List UInt8} {s : σ}, View m fr pos 0 p →
      Ensures Fetch.Inside (decodeTable fr M dec rounds pos s) fun s' ↦
        ∃ es : Codes, es.Fits ∧ es.height ≤ depth ∧ p = es.print ∧ 0 = p.length ∧
          es.run M s = .ok s' := by
    intro rounds pos p s hv
    obtain rfl : p = [] := List.length_eq_zero_iff.1 (Nat.le_zero.1 hv.room)
    have hstop : fr.stop ≤ pos := Nat.le_of_eq hv.stop
    cases rounds <;>
    · rw [decodeTable, if_pos hstop]
      exact .pure ⟨.nil, trivial, Nat.zero_le _, rfl, rfl, rfl⟩
  induction rounds with
  | zero =>
      intro pos n p s hr hv _
      obtain rfl : n = 0 := by omega
      exact hend hv
  | succ rounds ih =>
      intro pos n p s hr hv hn
      by_cases h0 : n = 0
      · subst h0
        exact hend hv
      · rw [decodeTable, if_neg (hv.not_stop_le (Nat.pos_of_ne_zero h0))]
        have hkey : ¬ Derails M depth n p s := fun hd ↦ hn (.key (Nat.pos_of_ne_zero h0) hd)
        refine (hdec hv hkey).bind fun r _ hr ↦ ?_
        obtain ⟨k, q, hfk, hdk, hp, hpos, hk⟩ := hr
        obtain ⟨s₁, next⟩ := r
        cases hpos
        subst hp
        have hval : ¬ Derails M depth (n - k.print.length) q s₁ :=
          fun hd ↦ hn (.value hfk hdk hk hd)
        refine (hdec hv.advance hval).bind fun r _ hr ↦ ?_
        obtain ⟨v, q', hfv, hdv, hq, hpos, hv'⟩ := hr
        obtain ⟨s₂, next⟩ := r
        cases hpos
        subst hq
        have hset : M.settable s₂ ≠ .crash := fun hc ↦ hn (.set hfk hfv hdk hdv hk hv' hc)
        refine (Ensures.lift hset fun _ hs ↦ hs).bind fun s₃ _ hs ↦ ?_
        have hrest : ¬ DerailsIn M depth (n - k.print.length - v.print.length) q' s₃ :=
          fun hd ↦ hn (.rest hfk hfv hdk hdv hk hv' hs hd)
        have hpos := List.length_pos_iff.2 k.print_ne_nil
        have hroom := hv.room
        refine (ih (by omega) hv.advance.advance hrest).mono fun s' hs' ↦ ?_
        obtain ⟨es, hfe, hde, hq, hlen, he⟩ := hs'
        refine ⟨.cons k v es, ⟨hfk, hfv, hfe⟩, Nat.max_le.2 ⟨hdk, Nat.max_le.2 ⟨hdv, hde⟩⟩, ?_, ?_,
          ?_⟩
        · rw [Codes.print, List.append_assoc, hq]
        · simp only [List.length_append] at hroom ⊢
          omega
        · have hk' : k.run M s = .ok s₁ := hk
          have hv'' : v.run M s₁ = .ok s₂ := hv'
          rw [Codes.run, hk', Xfer.ok_bind, hv'', Xfer.ok_bind, hs, Xfer.ok_bind, he]

variable (head) in
/-- No length is cut unseen. -/
theorem not_cut (hn : ¬ Derails M (depth + 1) n (head ++ p) s) (hh : Header M s head) :
    ¬ (p.length < 4 ∧ 4 ≤ n - head.length) := by
  rintro ⟨hp, hle⟩
  exact hn (.length hh hp (by omega))

variable (head) in
/-- A tree that ends with a table, after what comes before its length. -/
theorem decodeBody_ensures (hdec : GoesRight m M depth dec) {c : Codes → Code}
    {before after : σ → Xfer σ} {s₁ : σ} (hv : View m fr pos n (head ++ p))
    (hn : ¬ Derails M (depth + 1) n (head ++ p) s) (ho : OpensTable M s head (before s₁))
    (hfits : ∀ es : Codes, es.Fits → es.print.length < 2 ^ 32 → (c es).Fits)
    (hheight : ∀ es : Codes, (c es).height = es.height + 1)
    (hprint : ∀ es : Codes, (c es).print = head ++ printChunk es.print)
    (hrun : ∀ es : Codes, (c es).run M s = before s₁ >>= fun s ↦ es.run M s >>= after) :
    Ensures Fetch.Inside (decodeBody m fr M dec before after s₁ (pos + head.length))
      (Reads M (depth + 1) pos (head ++ p) s) := by
  refine (nextLen_ensures hv.advance (not_cut head hn (.table ho))).bind fun r _ hr ↦ ?_
  obtain ⟨q, hl, hp, hpos⟩ := hr
  obtain ⟨l, next⟩ := r
  obtain rfl : next = pos + head.length + 4 := hpos
  obtain rfl : p = le 4 l ++ q := hp
  have hbefore : before s₁ ≠ .crash := fun hc ↦ hn (.opened (hc ▸ ho) hl)
  refine (Ensures.lift hbefore fun _ h ↦ h).bind fun s₂ _ hs₂ ↦ ?_
  have hin : ¬ DerailsIn M depth l (q.take l) s₂ := fun hd ↦ hn (.table (hs₂ ▸ ho) hl hd)
  refine (decodeTable_ensures hdec l (Nat.le_refl l) (hv.advance.afterLen.nest l) hin).bind
    fun s₃ _ htable ↦ ?_
  obtain ⟨es, hf, hd, hes, hlen, hr⟩ := htable
  rw [hes] at hlen
  have hchunk : le 4 l ++ q = printChunk es.print ++ q.drop l := by
    rw [printChunk, List.append_assoc, ← hlen, ← hes, List.take_append_drop]
  have hfc := hfits es hf (hlen ▸ hl)
  have hdc : (c es).height ≤ depth + 1 := by
    rw [hheight]
    exact Nat.succ_le_succ hd
  have hpc : head ++ (le 4 l ++ q) = (c es).print ++ q.drop l := by
    rw [hprint, hchunk, List.append_assoc]
  have hrc : (c es).run M s = after s₃ := by
    rw [hrun, hs₂, Xfer.ok_bind, hr, Xfer.ok_bind]
  have hafter : after s₃ ≠ .crash := fun hc ↦ hn (hpc ▸ .run hfc hdc (hrc.trans hc))
  refine (Ensures.lift hafter fun _ h ↦ h).bind fun s₄ _ hs₄ ↦
    incrPtr_ensures.bind fun next _ hnext ↦ ?_
  obtain ⟨hnext, -⟩ := hnext
  refine .pure ⟨c es, q.drop l, hfc, hdc, hpc, ?_, hrc.trans hs₄⟩
  rw [hnext, hprint, List.length_append, length_printChunk, hlen]
  omega

theorem decodeFunction_ensures (hdec : GoesRight m M depth dec) {tag : UInt8} (ht : tag ≠ 1)
    (hv : View m fr pos n (6 :: tag :: p)) (hn : ¬ Derails M (depth + 1) n (6 :: tag :: p) s) :
    Ensures Fetch.Inside (decodeFunction m fr M dec s (pos + 2))
      (Reads M (depth + 1) pos (6 :: tag :: p) s) := by
  have hcut : ∀ l q, l < 2 ^ 32 → p = le 4 l ++ q → l ≤ q.length := by
    rintro l q hl rfl
    by_contra hlt
    exact hn (.bytes (.code ht) hl (Nat.not_le.1 hlt))
  have hload : ∀ b q, b.length < 2 ^ 32 → p = printChunk b ++ q → M.load b s ≠ .crash := by
    rintro b q hb rfl hc
    exact hn (.load ht hb (by rw [Machine.loadFunction, hc]; rfl))
  have hhead : ¬ (p.length < 4 ∧ 4 ≤ n - 1 - 1) := by
    rw [Nat.sub_sub]
    exact not_cut [6, tag] hn (.bytes (.code ht))
  refine (takeChunkFor_ensures hv.head.head hhead hcut hload).bind fun r _ hr ↦ ?_
  obtain ⟨dump, q, hd, hp, hs₁, hpos⟩ := hr
  obtain ⟨s₁, next⟩ := r
  obtain rfl : next = pos + 1 + 1 + 4 + dump.length := hpos
  subst hp
  have hs₁' : M.load dump s = .ok s₁ := hs₁
  have henter : M.enter s₁ ≠ .crash := fun hc ↦
    hn (.load ht hd (by rw [Machine.loadFunction, hs₁', Xfer.ok_bind, hc]))
  refine (Ensures.lift henter fun _ h ↦ h).bind fun s₂ _ hs₂ ↦ ?_
  have hl : M.loadFunction dump s = .ok s₂ := Xfer.bind_eq_ok.2 ⟨s₁, hs₁, hs₂⟩
  have hpos : pos + 1 + 1 + 4 + dump.length = pos + (6 :: tag :: printChunk dump).length := by
    simp only [List.length_cons, length_printChunk]
    omega
  rw [hpos]
  refine decodeBody_ensures (6 :: tag :: printChunk dump) hdec
    (c := .function tag dump) hv hn (.function ht hd hl) (fun _ hf hl ↦ ⟨ht, hd, hl, hf⟩)
    (fun _ ↦ rfl) (fun _ ↦ rfl) fun es ↦ ?_
  rw [Code.run, hl]
  rfl

/-- The number of a reference. -/
theorem decodeRef_ensures {k : Kind} (hv : View m fr pos n (k.type :: 1 :: p))
    (hn : ¬ Derails M (depth + 1) n (k.type :: 1 :: p) s) :
    Ensures Fetch.Inside (decodeRef m fr M s (pos + 2))
      (Reads M (depth + 1) pos (k.type :: 1 :: p) s) := by
  have hhead : ¬ (p.length < 4 ∧ 4 ≤ n - 1 - 1) := by
    rw [Nat.sub_sub]
    exact not_cut [k.type, 1] hn (.ref k)
  refine (nextLen_ensures hv.head.head hhead).bind fun r _ hr ↦ ?_
  obtain ⟨q, hl, hp, hpos⟩ := hr
  obtain ⟨l, next⟩ := r
  obtain rfl : next = pos + 1 + 1 + 4 := hpos
  subst hp
  have hprint : k.type :: 1 :: (le 4 l ++ q) = (Code.ref k (.ofNat 32 l)).print ++ q := by
    rw [Code.print, BitVec.toNat_ofNat, Nat.mod_eq_of_lt hl]
    rfl
  have hd : (Code.ref k (.ofNat 32 l)).height ≤ depth + 1 := Nat.succ_le_succ (Nat.zero_le _)
  have hop : M.pushSeen (.ofNat 32 l) s ≠ .crash := fun hc ↦
    hn (hprint ▸ .run (c := .ref k (.ofNat 32 l)) trivial hd hc)
  refine (call_ensures hop).mono fun r hr ↦
    ⟨.ref k (.ofNat 32 l), q, trivial, hd, hprint, ?_, hr.1⟩
  rw [hr.2]
  simp [Code.print]

/-- A complete value that is one call. -/
theorem call_reads {c : Code} (hf : c.Fits) (hh : c.height ≤ depth + 1)
    (hn : ¬ Derails M (depth + 1) n (c.print ++ q) s) (hc : c.run M s = x)
    (hlen : k = pos + c.print.length) :
    Ensures Fetch.Inside (call x k) (Reads M (depth + 1) pos (c.print ++ q) s) :=
  (call_ensures fun hx ↦ hn (.run hf hh (hc.trans hx))).mono
    fun _ hr ↦ ⟨c, q, hf, hh, rfl, hr.2.trans hlen, hc.trans hr.1⟩

/-- Bytes that are used for a call. -/
theorem takeFor_reads {t : UInt8} (hv : View m fr pos n (t :: p))
    (hn : ¬ Derails M (depth + 1) n (t :: p) s) (hk : k ≤ p.length)
    (hc : ∀ b, b.length = k → ∃ c : Code, c.Fits ∧ c.height = 1 ∧ c.print = t :: b ∧
      c.run M s = op b s) :
    Ensures Fetch.Inside (takeFor m fr op s (pos + 1) k) (Reads M (depth + 1) pos (t :: p) s) := by
  have hd : 1 ≤ depth + 1 := Nat.succ_le_succ (Nat.zero_le _)
  refine (takeFor_ensures hv.head hk fun b q hlen hp hx ↦ ?_).mono fun r hr ↦ ?_
  · obtain ⟨c, hf, hh, hprint, hrun⟩ := hc b hlen
    have hpc : t :: p = c.print ++ q := by
      rw [hprint, hp]
      rfl
    exact hn (hpc ▸ .run hf (hh ▸ hd) (hrun.trans hx))
  · obtain ⟨b, q, hlen, hp, hs, hpos⟩ := hr
    obtain ⟨c, hf, hh, hprint, hrun⟩ := hc b hlen
    refine ⟨c, q, hf, hh ▸ hd, ?_, ?_, hrun.trans hs⟩
    · rw [hprint, hp]
      rfl
    · rw [hpos, hprint, List.length_cons, hlen]
      omega

/-- After the type and the tag. -/
theorem decodeTagged_ensures (hdec : GoesRight m M depth dec) {k : Kind} {tag : UInt8}
    (hv : View m fr pos n (k.type :: tag :: p))
    (hn : ¬ Derails M (depth + 1) n (k.type :: tag :: p) s) :
    Ensures Fetch.Inside (decodeTagged m fr M dec k.type.toNat tag s (pos + 2))
      (Reads M (depth + 1) pos (k.type :: tag :: p) s) := by
  -- the two kinds that may have a hook
  have hhook : k ≠ .function → tag = 3 →
      Ensures Fetch.Inside (decodeTagged m fr M dec k.type.toNat tag s (pos + 2))
        (Reads M (depth + 1) pos (k.type :: tag :: p) s) := by
    rintro hk rfl
    rw [decodeTagged_hook hk]
    exact decodeBody_ensures [k.type, 3] hdec (c := .hook k) hv hn (.hook hk)
      (fun _ hf hl ↦ ⟨hk, hl, hf⟩) (fun _ ↦ rfl) (fun _ ↦ rfl) fun _ ↦ rfl
  by_cases h1 : tag = 1
  · subst h1
    rw [decodeTagged_ref]
    exact decodeRef_ensures hv hn
  · cases k with
    | table =>
        by_cases h2 : tag = 2
        · subst h2
          refine decodeBody_ensures [5, 2] hdec (c := .table) hv hn .table
            (fun _ hf hl ↦ ⟨hl, hf⟩) (fun _ ↦ rfl) (fun _ ↦ rfl) fun es ↦ ?_
          rw [Code.run]
          congr 1
          funext s₁
          cases es.run M s₁ <;> rfl
        · by_cases h3 : tag = 3
          · exact hhook (by simp) h3
          · change Ensures _ (decodeTagged m fr M dec 5 tag s (pos + 2)) _
            rw [decodeTagged_bad h1 h2 h3]
            exact .raised _
    | function =>
        change Ensures _ (decodeTagged m fr M dec 6 tag s (pos + 2)) _
        rw [decodeTagged_function h1]
        exact decodeFunction_ensures hdec h1 hv hn
    | userdata =>
        by_cases h3 : tag = 3
        · exact hhook (by simp) h3
        · change Ensures _ (decodeTagged m fr M dec 7 tag s (pos + 2)) _
          rw [decodeTagged_userdata h1 h3]
          exact call_reads (c := .userdata tag) ⟨h1, h3⟩ (Nat.succ_le_succ (Nat.zero_le _)) hn rfl
            rfl

/-- **Nothing goes wrong if the message does not derail the decoder**, by induction on the
room for the recursion. -/
theorem decodeValue_ensures (m : Nat → UInt8) (M : Machine σ) (depth : Nat) :
    GoesRight m M depth (decodeValue m M depth) := by
  induction depth with
  | zero => exact fun _ hn ↦ absurd .room hn
  | succ depth ih =>
      intro fr pos n p s hv hn
      have hd : 1 ≤ depth + 1 := Nat.succ_le_succ (Nat.zero_le _)
      cases p with
      | nil => exact absurd .type hn
      | cons t p =>
          have hshort : ahead t ≤ p.length := by
            by_contra hlt
            exact hn (.short (Nat.not_le.1 hlt))
          -- a type with a tag
          have htag : ∀ k : Kind, t = k.type → 1 ≤ p.length → Ensures Fetch.Inside
              (takeChar m fr (pos + 1) >>= fun r ↦
                decodeTagged m fr M (decodeValue m M depth) k.type.toNat r.1 s r.2)
              (Reads M (depth + 1) pos (t :: p) s) := by
            rintro k rfl hlen
            obtain ⟨tag, q, rfl⟩ : ∃ tag q, p = tag :: q := List.exists_cons_of_length_pos hlen
            refine (takeChar_ensures hv.head).bind fun r _ hr ↦ ?_
            subst hr
            exact decodeTagged_ensures ih hv hn
          refine (takeChar_ensures hv).bind fun r _ hr ↦ ?_
          subst hr
          dsimp only
          unfold decodeSwitch
          split
          · rename_i ht
            obtain rfl : t = 0 := UInt8.toNat_inj.1 ht
            exact call_reads (c := .nil false) trivial hd hn rfl rfl
          · rename_i ht
            obtain rfl : t = 8 := UInt8.toNat_inj.1 ht
            exact call_reads (c := .nil true) trivial hd hn rfl rfl
          · rename_i ht
            obtain rfl : t = 1 := UInt8.toNat_inj.1 ht
            refine takeFor_reads hv hn hshort fun b hlen ↦ ?_
            obtain ⟨x, rfl⟩ := List.length_eq_one_iff.1 hlen
            exact ⟨.boolean x, trivial, rfl, rfl, by simp [Code.run]⟩
          · rename_i ht
            obtain rfl : t = 2 := UInt8.toNat_inj.1 ht
            refine takeFor_reads hv hn hshort fun b hlen ↦ ?_
            exact ⟨.lightuserdata _, trivial, rfl, by rw [Code.print, le_toNat_ofLe hlen], rfl⟩
          · rename_i ht
            obtain rfl : t = 3 := UInt8.toNat_inj.1 ht
            refine takeFor_reads hv hn hshort fun b hlen ↦ ?_
            exact ⟨.number _, trivial, rfl, by rw [Code.print, le_toNat_ofLe hlen], rfl⟩
          · rename_i ht
            obtain rfl : t = 4 := UInt8.toNat_inj.1 ht
            have hcut : ∀ l q, l < 2 ^ 32 → p = le 4 l ++ q → l ≤ q.length := by
              rintro l q hl rfl
              by_contra hlt
              exact hn (.bytes .string hl (Nat.not_le.1 hlt))
            refine (takeChunkFor_ensures hv.head (not_cut [4] hn (.bytes .string)) hcut
              ?_).mono fun r hr ↦ ?_
            · rintro b q hlt rfl hc
              exact hn (.run (c := .string b) hlt hd hc)
            · obtain ⟨b, q, hlt, hq, hs, hpos⟩ := hr
              refine ⟨.string b, q, hlt, hd, by rw [hq]; rfl, ?_, hs⟩
              rw [hpos, Code.print, List.length_cons, length_printChunk]
              omega
          · rename_i ht
            obtain rfl : t = 5 := UInt8.toNat_inj.1 ht
            exact htag .table rfl hshort
          · rename_i ht
            obtain rfl : t = 6 := UInt8.toNat_inj.1 ht
            exact htag .function rfl hshort
          · rename_i ht
            obtain rfl : t = 7 := UInt8.toNat_inj.1 ht
            exact htag .userdata rfl hshort
          · exact .raised _

end

/-! ## A whole message -/

/-- **The decoder stays inside the message and comes to an end**, whatever is behind it in
memory, if and only if there are slots for its two tables and the message does not derail it. -/
theorem decode_inside_iff (L : Lua) (room depth : Nat) (s : List UInt8) (h : Heap) :
    (∀ m, bytes m 0 s.length = s →
      (∀ f ∈ (marDecode m s.length L room depth h).trace, f.Inside) ∧
        (marDecode m s.length L room depth h).val ≠ .crash) ↔
      ∀ p, s = 0x8e :: p →
        2 ≤ room ∧ ¬ Derails (machine L room) depth p.length p { heap := h } := by
  constructor
  · rintro hall p rfl
    have hm := bytes_holding (0x8e :: p) fun _ ↦ 0
    have hgood := Traced.not_fails_iff.2 (hall _ hm)
    have hv := view_start hm
    have hb : bytes _ 0 1 = [0x8e] := (bytes_eq_append (b := [0x8e]) hv.bytes).1
    rw [marDecode, if_neg (by simp)] at hgood
    by_cases hroom : room < 2
    · refine absurd (.of_right rfl ?_) hgood
      rw [if_neg (by simp [hb]), if_pos hroom]
      exact .crash
    · refine ⟨Nat.not_lt.1 hroom, fun hd ↦ hgood (.of_right rfl ?_)⟩
      rw [if_neg (by simp [hb]), if_neg hroom]
      exact .of_left (hd.fails hv.head)
  · intro hn m hm
    have hv := view_start hm
    have hgood : Traced.Ensures Fetch.Inside (marDecode m s.length L room depth h)
        fun _ ↦ True := by
      unfold marDecode
      split
      · exact .raised _
      · obtain ⟨t, p, rfl⟩ : ∃ t p, s = t :: p := List.exists_cons_of_length_pos (by omega)
        refine (fetch_ensures hv (Nat.succ_le_succ (Nat.zero_le p.length))).bind fun b _ hb ↦ ?_
        obtain ⟨q, hlen, hq⟩ := hb
        obtain ⟨x, rfl⟩ := List.length_eq_one_iff.1 hlen
        cases hq
        split
        · exact .raised _
        · rename_i hmagic
          obtain rfl : t = 0x8e := by simpa using hmagic
          obtain ⟨hroom, hn⟩ := hn q rfl
          rw [if_neg (Nat.not_lt.2 hroom)]
          exact (decodeValue_ensures m _ depth hv.head hn).bind fun _ _ _ ↦ .pure trivial
    exact Traced.not_fails_iff.1 hgood.not_fails

/-- A Lua state that loads and calls nothing. -/
def bareLua : Lua where
  lua52 := false
  globals := .nil
  load _ := .error []
  call _ _ := .raised ""
  objlen _ := 0

/-- **A string that announces more than there is.**  One byte is announced, none is there,
and one is read behind the message. -/
theorem string_outside : ∃ m, bytes m 0 6 = [0x8e, 4, 1, 0, 0, 0] ∧
    ∃ f ∈ (marDecode m 6 bareLua minStack 1 []).trace, ¬ f.Inside := by
  refine ⟨fun i ↦ [0x8e, 4, 1, 0, 0, 0].getD i 0, rfl, ⟨6, 1, [6]⟩, ?_, ?_⟩
  · decide
  · intro hf
    exact Nat.lt_irrefl 6 (hf 0 Nat.zero_lt_one 6 (List.mem_singleton_self 6))

end

end Leda.Marshal.Memory
