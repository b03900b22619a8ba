import Leda.Marshal.Code
import Leda.Marshal.Encode

/-!
# What the encoder writes

`mar_encode_value` writes a tree of the wire format.  `CodeOf` says which, case by case,
and what becomes of the numbers meanwhile: it is the encoder without the bytes.
`encodeValue_codeOf` is the connection: whenever the encoder returns, its bytes are those
of a tree that fits and that takes no more levels of calls to read than it took to write.
Conversely every such tree is written, so that the trees say exactly when `mar_encode`
succeeds (`marEncode_eq_ok_iff`).

Every object that is entered takes six bytes at least, and no chunk is longer than four
bytes can say, so the numbers stay far below `2 ^ 31`, where `int ref` would turn negative
(`CodeOf.idx_lt`).
-/

namespace Leda.Marshal

open Leda.Lib Leda.Lua

/-- The kind of an object; coroutines have none. -/
def kindOf : Object → Option Kind
  | .table _ => some .table
  | .function _ => some .function
  | .userdata _ => some .userdata
  | .thread => none

section

variable (hooks : Hooks) (lua52 nowrap : Bool)

mutual

/-- The tree that is written for a value. -/
inductive CodeOf : Value → Enc → Code → Enc → Prop
  | nil {st} : CodeOf .nil st (.nil false) st
  | boolean {b st} : CodeOf (.boolean b) st (.boolean (if b then 1 else 0)) st
  | lightuserdata {p st} (h : nowrap = false) :
      CodeOf (.lightuserdata p) st (.lightuserdata p) st
  | number {n st} : CodeOf (.number n) st (.number n) st
  | string {s st} : CodeOf (.string s) st (.string s) st
  | /-- A reference to nothing. -/
    dangling {a st} (ho : st.heap[a]? = none) : CodeOf (.object a) st (.nil false) st
  | /-- An object that was seen. -/
    ref {a o k n st} (ho : st.heap[a]? = some o) (hk : kindOf o = some k)
      (hs : st.seen.lookup a = some n) :
      CodeOf (.object a) st (.ref k (BitVec.ofNat 32 n)) st
  | table {a t es st st'} (ho : st.heap[a]? = some (.table t)) (hs : st.seen.lookup a = none)
      (hp : t.persist = none) (hes : CodesOf t.entries (st.record a) es st') :
      CodeOf (.object a) st (.table es) st'
  | function {a f ups st st'} (ho : st.heap[a]? = some (.function f))
      (hs : st.seen.lookup a = none) (hw : f.what = .lua)
      (hes : CodesOf (upvalueTable lua52 f) (st.record a) ups st') :
      CodeOf (.object a) st (.function tval f.dump ups) st'
  | /-- A table with a hook is not entered. -/
    persist {a t f r es st st₁ st'} (ho : st.heap[a]? = some (.table t))
      (hs : st.seen.lookup a = none) (hp : t.persist = some f)
      (hc : callHook hooks "__persist" f a st = .ok (r, st₁))
      (hes : CodesOf [(.ofNat 1, r)] st₁ es st') :
      CodeOf (.object a) st (.hook .table es) st'
  | /-- A userdata is entered before its hook is called. -/
    wrap {a u f r es name st st₁ st'} (ho : st.heap[a]? = some (.userdata u))
      (hs : st.seen.lookup a = none)
      (hu : (if nowrap then none else u.wrap) = some f ∧ name = "__wrap" ∨
        (if nowrap then none else u.wrap) = none ∧ u.persist = some f ∧ name = "__persist")
      (hc : callHook hooks name f a (st.record a) = .ok (r, st₁))
      (hes : CodesOf [(.ofNat 1, r)] st₁ es st') :
      CodeOf (.object a) st (.hook .userdata es) st'

/-- The tree that is written for the pairs of a table. -/
inductive CodesOf : List (Value × Value) → Enc → Codes → Enc → Prop
  | nil {st} : CodesOf [] st .nil st
  | cons {k v rest ck cv crest st st₁ st₂ st'} (hk : CodeOf k st ck st₁)
      (hv : CodeOf v st₁ cv st₂) (hrest : CodesOf rest st₂ crest st') :
      CodesOf ((k, v) :: rest) st (.cons ck cv crest) st'

end

end

section

variable {hooks : Hooks} {lua52 nowrap : Bool} {depth : Nat} {v : Value} {st st' : Enc}
  {b : List UInt8} {a : Nat} {enc : Value → Enc → Written} {entries : List (Value × Value)}

theorem le_mod (n : Nat) : le 4 (BitVec.ofNat 32 n).toNat = le 4 n := by
  have h : ofLe (le 4 n) = (BitVec.ofNat 32 n).toNat := by
    rw [ofLe_le, BitVec.toNat_ofNat]
    rfl
  rw [← h]
  exact le_ofLe (le 4 n)

/-- All objects but coroutines are of a kind. -/
theorem kindOf_of_ne_thread {o : Object} (h : o ≠ .thread) :
    ∃ k, kindOf o = some k ∧ UInt8.ofNat o.type = k.type := by
  cases o with
  | table => exact ⟨.table, rfl, rfl⟩
  | function => exact ⟨.function, rfl, rfl⟩
  | userdata => exact ⟨.userdata, rfl, rfl⟩
  | thread => exact absurd rfl h

theorem chunk_eq_ok {s : List UInt8} (h : chunk s = .ok b) :
    s.length < 2 ^ 32 ∧ b = printChunk s := by
  unfold chunk at h
  split at h
  · cases h
  · cases h
    exact ⟨by omega, rfl⟩

/-- What a part of the encoder writes. -/
def WritesCode (hooks : Hooks) (lua52 nowrap : Bool) (depth : Nat)
    (enc : Value → Enc → Written) : Prop :=
  ∀ v st b st', enc v st = .ok (b, st') →
    ∃ c : Code, CodeOf hooks lua52 nowrap v st c st' ∧ c.Fits ∧ c.height ≤ depth ∧ c.print = b

/-- A table is written pair by pair. -/
theorem encodeTable_codesOf (he : WritesCode hooks lua52 nowrap depth enc)
    (h : encodeTable enc entries st = .ok (b, st')) :
    ∃ es : Codes, CodesOf hooks lua52 nowrap entries st es st' ∧ es.Fits ∧ es.height ≤ depth ∧
      es.print = b := by
  induction entries generalizing st b with
  | nil =>
      cases h
      exact ⟨.nil, .nil, trivial, Nat.zero_le _, rfl⟩
  | cons e rest ih =>
      obtain ⟨k, v⟩ := e
      obtain ⟨⟨bk, st₁⟩, hk, h₁⟩ := Xfer.bind_eq_ok.1 h
      obtain ⟨⟨bv, st₂⟩, hv, h₂⟩ := Xfer.bind_eq_ok.1 h₁
      obtain ⟨⟨br, st₃⟩, hr, h₃⟩ := Xfer.bind_eq_ok.1 h₂
      cases h₃
      obtain ⟨ck, hck, hfk, hdk, rfl⟩ := he k st bk st₁ hk
      obtain ⟨cv, hcv, hfv, hdv, rfl⟩ := he v st₁ bv st₂ hv
      obtain ⟨cr, hcr, hfr, hdr, rfl⟩ := ih hr
      exact ⟨.cons ck cv cr, .cons hck hcv hcr, ⟨hfk, hfv, hfr⟩,
        Nat.max_le.2 ⟨hdk, Nat.max_le.2 ⟨hdv, hdr⟩⟩, rfl⟩

theorem encodeBody_codesOf {head : List UInt8} (he : WritesCode hooks lua52 nowrap depth enc)
    (h : encodeBody enc head entries st = .ok (b, st')) :
    ∃ es : Codes, CodesOf hooks lua52 nowrap entries st es st' ∧ es.Fits ∧ es.height ≤ depth ∧
      es.print.length < 2 ^ 32 ∧ b = head ++ printChunk es.print := by
  obtain ⟨⟨bt, st₁⟩, ht, h₁⟩ := Xfer.bind_eq_ok.1 h
  obtain ⟨c, hc, h₂⟩ := Xfer.bind_eq_ok.1 h₁
  cases h₂
  obtain ⟨es, hes, hf, hd, rfl⟩ := encodeTable_codesOf he ht
  obtain ⟨hlt, rfl⟩ := chunk_eq_ok hc
  exact ⟨es, hes, hf, hd, hlt, rfl⟩

/-- An object is written as one of the trees. -/
theorem encodeObject_codeOf {o : Object} (he : WritesCode hooks lua52 nowrap depth enc)
    (ho : st.heap[a]? = some o)
    (h : encodeObject enc hooks lua52 nowrap a o st = .ok (b, st')) :
    ∃ c : Code, CodeOf hooks lua52 nowrap (.object a) st c st' ∧ c.Fits ∧ c.height ≤ depth + 1 ∧
      c.print = b := by
  unfold encodeObject at h
  split at h
  · cases h
  · rename_i ref hthread hl
    cases h
    obtain ⟨k, hk, htype⟩ := kindOf_of_ne_thread fun e ↦ hthread e
    refine ⟨.ref k (BitVec.ofNat 32 ref), .ref ho hk hl, trivial, by simp [Code.height], ?_⟩
    rw [Code.print, le_mod, htype]
    rfl
  · rename_i t hl
    unfold encodeTableObject at h
    split at h
    · rename_i f hp
      obtain ⟨⟨r, st₁⟩, hc, h₁⟩ := Xfer.bind_eq_ok.1 h
      obtain ⟨es, hes, hf, hd, hlt, rfl⟩ := encodeBody_codesOf he h₁
      exact ⟨.hook .table es, .persist ho hl hp hc hes, ⟨by simp, hlt, hf⟩,
        Nat.succ_le_succ hd, rfl⟩
    · rename_i hp
      obtain ⟨es, hes, hf, hd, hlt, rfl⟩ := encodeBody_codesOf he h
      exact ⟨.table es, .table ho hl hp hes, ⟨hlt, hf⟩, Nat.succ_le_succ hd, rfl⟩
  · rename_i f hl
    unfold encodeFunction at h
    split at h
    · cases h
    · rename_i hw
      obtain ⟨code, hcode, h₁⟩ := Xfer.bind_eq_ok.1 h
      obtain ⟨hld, rfl⟩ := chunk_eq_ok hcode
      obtain ⟨es, hes, hf, hd, hlt, rfl⟩ := encodeBody_codesOf he h₁
      refine ⟨.function tval f.dump es, .function ho hl (by simpa using hw) hes,
        ⟨by decide, hld, hlt, hf⟩, Nat.succ_le_succ hd, ?_⟩
      simp [Code.print]
  · rename_i u hl
    unfold encodeUserdata at h
    split at h
    · rename_i f hw
      obtain ⟨⟨r, st₁⟩, hc, h₁⟩ := Xfer.bind_eq_ok.1 h
      obtain ⟨es, hes, hf, hd, hlt, rfl⟩ := encodeBody_codesOf he h₁
      exact ⟨.hook .userdata es, .wrap ho hl (.inl ⟨hw, rfl⟩) hc hes, ⟨by simp, hlt, hf⟩,
        Nat.succ_le_succ hd, rfl⟩
    · rename_i hw
      split at h
      · rename_i f hp
        obtain ⟨⟨r, st₁⟩, hc, h₁⟩ := Xfer.bind_eq_ok.1 h
        obtain ⟨es, hes, hf, hd, hlt, rfl⟩ := encodeBody_codesOf he h₁
        exact ⟨.hook .userdata es, .wrap ho hl (.inr ⟨hw, hp, rfl⟩) hc hes, ⟨by simp, hlt, hf⟩,
          Nat.succ_le_succ hd, rfl⟩
      · cases h

/-- **The encoder writes a tree of the wire format.** -/
theorem encodeValue_codeOf (hooks : Hooks) (lua52 nowrap : Bool) :
    ∀ depth, WritesCode hooks lua52 nowrap depth (encodeValue hooks lua52 nowrap depth)
  | 0 => fun v st b st' h ↦ by cases h
  | depth + 1 => fun v st b st' h ↦ by
      have hpos : 1 ≤ depth + 1 := Nat.succ_le_succ (Nat.zero_le _)
      cases v with
      | nil =>
          cases h
          exact ⟨_, .nil, trivial, hpos, rfl⟩
      | boolean x =>
          cases h
          exact ⟨_, .boolean, trivial, hpos, rfl⟩
      | number n =>
          cases h
          exact ⟨_, .number, trivial, hpos, rfl⟩
      | lightuserdata p =>
          unfold encodeValue at h
          split at h
          · cases h
          · rename_i hn
            cases h
            exact ⟨_, .lightuserdata (by simpa using hn), trivial, hpos, rfl⟩
      | string s =>
          obtain ⟨c, hc, h₁⟩ := Xfer.bind_eq_ok.1 h
          cases h₁
          obtain ⟨hlt, rfl⟩ := chunk_eq_ok hc
          exact ⟨_, .string, hlt, hpos, rfl⟩
      | object a =>
          unfold encodeValue at h
          split at h
          · exact encodeObject_codeOf (encodeValue_codeOf hooks lua52 nowrap depth) ‹_› h
          · cases h
            exact ⟨_, .dangling ‹_›, trivial, hpos, rfl⟩

/-! ## Every tree that fits is written -/

theorem chunk_of_lt {s : List UInt8} (h : s.length < 2 ^ 32) : chunk s = .ok (printChunk s) :=
  if_neg (by omega)

theorem encodeBody_of_table (head : List UInt8) {es : Codes}
    (h : encodeTable enc entries st = .ok (es.print, st')) (hl : es.print.length < 2 ^ 32) :
    encodeBody enc head entries st = .ok (head ++ printChunk es.print, st') := by
  simp only [encodeBody, h, chunk_of_lt hl, Xfer.ok_bind]

mutual

/-- **The encoder writes every tree that fits**, if it has room for its levels. -/
theorem CodeOf.encodeValue {v : Value} {st : Enc} {c : Code} {st' : Enc} {depth : Nat} :
    CodeOf hooks lua52 nowrap v st c st' → c.Fits → c.height ≤ depth →
      encodeValue hooks lua52 nowrap depth v st = .ok (c.print, st') := by
  intro hc hf hd
  obtain ⟨depth, rfl⟩ : ∃ m, depth = m + 1 := ⟨depth - 1, by have := c.height_pos; omega⟩
  match hc with
  | .nil | .boolean | .number => rfl
  | .lightuserdata hn => simp [Marshal.encodeValue, hn, Code.print]
  | .string => simp [Marshal.encodeValue, chunk_of_lt hf, Code.print]
  | .dangling ho => simp [Marshal.encodeValue, ho, Code.print]
  | .ref (o := o) ho hk hl =>
      cases o with
      | thread => cases hk
      | table | function | userdata =>
          cases hk
          simp only [Marshal.encodeValue, ho, encodeObject, hl, Code.print, le_mod]
          rfl
  | .table ho hl hp hes =>
      have htab := encodeBody_of_table [5, tval]
        (hes.encodeTable hf.2 (Nat.le_of_succ_le_succ hd)) hf.1
      simp only [Marshal.encodeValue, ho, encodeObject, hl, encodeTableObject, hp, htab]
      rfl
  | .function (f := f) ho hl hw hes =>
      have htab := encodeBody_of_table ([6, tval] ++ printChunk f.dump)
        (hes.encodeTable hf.2.2.2 (Nat.le_of_succ_le_succ hd)) hf.2.2.1
      simp only [Marshal.encodeValue, ho, encodeObject, hl, encodeFunction, hw, ne_eq,
        not_true_eq_false, if_false, chunk_of_lt hf.2.1, Xfer.ok_bind, htab]
      simp [Code.print]
  | .persist ho hl hp hcall hes =>
      have htab := encodeBody_of_table [5, tusr]
        (hes.encodeTable hf.2.2 (Nat.le_of_succ_le_succ hd)) hf.2.1
      simp only [Marshal.encodeValue, ho, encodeObject, hl, encodeTableObject, hp, encodeHook,
        hcall, Xfer.ok_bind, htab]
      rfl
  | .wrap ho hl (.inl ⟨hw, hname⟩) hcall hes =>
      subst hname
      have htab := encodeBody_of_table [7, tusr]
        (hes.encodeTable hf.2.2 (Nat.le_of_succ_le_succ hd)) hf.2.1
      simp only [Marshal.encodeValue, ho, encodeObject, hl, encodeUserdata, hw, encodeHook,
        hcall, Xfer.ok_bind, htab]
      rfl
  | .wrap ho hl (.inr ⟨hw, hp, hname⟩) hcall hes =>
      subst hname
      have htab := encodeBody_of_table [7, tusr]
        (hes.encodeTable hf.2.2 (Nat.le_of_succ_le_succ hd)) hf.2.1
      simp only [Marshal.encodeValue, ho, encodeObject, hl, encodeUserdata, hw, hp, encodeHook,
        hcall, Xfer.ok_bind, htab]
      rfl

theorem CodesOf.encodeTable {entries : List (Value × Value)} {st : Enc} {es : Codes} {st' : Enc}
    {depth : Nat} : CodesOf hooks lua52 nowrap entries st es st' → es.Fits → es.height ≤ depth →
      encodeTable (Marshal.encodeValue hooks lua52 nowrap depth) entries st =
        .ok (es.print, st')
  | .nil, _, _ => rfl
  | .cons hk hv hrest, hf, hd => by
      obtain ⟨hdk, hd'⟩ := Nat.max_le.1 hd
      obtain ⟨hdv, hdr⟩ := Nat.max_le.1 hd'
      simp only [Marshal.encodeTable, hk.encodeValue hf.1 hdk, hv.encodeValue hf.2.1 hdv,
        hrest.encodeTable hf.2.2 hdr, Xfer.ok_bind]
      rfl

end

/-- **`mar_encode` succeeds on the trees that fit**, and on nothing else. -/
theorem marEncode_eq_ok_iff {h h' : Heap} :
    marEncode hooks lua52 nowrap depth v h = .ok (b, h') ↔
      ∃ c st', CodeOf hooks lua52 nowrap v { heap := h } c st' ∧ c.Fits ∧ c.height ≤ depth ∧
        b = 0x8e :: c.print ∧ h' = st'.heap := by
  constructor
  · intro he
    obtain ⟨⟨bs, st'⟩, hv, he'⟩ := Xfer.bind_eq_ok.1 he
    cases he'
    obtain ⟨c, hc, hf, hd, rfl⟩ := encodeValue_codeOf hooks lua52 nowrap depth _ _ _ _ hv
    exact ⟨c, st', hc, hf, hd, rfl, rfl⟩
  · rintro ⟨c, st', hc, hf, hd, rfl, rfl⟩
    rw [marEncode, hc.encodeValue hf hd, Xfer.ok_bind]

/-! ## The numbers -/

theorem callHook_idx {name : String} {f r : Value}
    (h : callHook hooks name f a st = .ok (r, st')) : st'.idx = st.idx := by
  unfold callHook at h
  split at h
  · cases h
  · split at h
    · cases h
      rfl
    · cases h

mutual

/-- An object that is entered takes at least six bytes. -/
theorem CodeOf.idx_bound {v : Value} {st : Enc} {c : Code} {st' : Enc} :
    CodeOf hooks lua52 nowrap v st c st' →
      st.idx ≤ st'.idx ∧ 6 * st'.idx ≤ 6 * st.idx + c.print.length
  | .nil | .boolean | .lightuserdata _ | .number | .string | .dangling _ | .ref .. =>
      ⟨Nat.le_refl _, by omega⟩
  | .table ho hs hp hes => by
      have h := hes.idx_bound
      simp only [Enc.record, Code.print, List.length_cons, length_printChunk] at h ⊢
      omega
  | .function ho hs hw hes => by
      have h := hes.idx_bound
      simp only [Enc.record, Code.print, List.length_cons, List.length_append,
        length_printChunk] at h ⊢
      omega
  | .persist ho hs hp hc hes => by
      have h := hes.idx_bound
      have hi := callHook_idx hc
      simp only [Code.print, List.length_cons, length_printChunk] at h ⊢
      omega
  | .wrap ho hs hu hc hes => by
      have h := hes.idx_bound
      have hi := callHook_idx hc
      simp only [Enc.record, Code.print, List.length_cons, length_printChunk] at h hi ⊢
      omega

theorem CodesOf.idx_bound {entries : List (Value × Value)} {st : Enc} {es : Codes} {st' : Enc} :
    CodesOf hooks lua52 nowrap entries st es st' →
      st.idx ≤ st'.idx ∧ 6 * st'.idx ≤ 6 * st.idx + es.print.length
  | .nil => ⟨Nat.le_refl _, by omega⟩
  | .cons hk hv hrest => by
      have h₁ := hk.idx_bound
      have h₂ := hv.idx_bound
      have h₃ := hrest.idx_bound
      simp only [Codes.print, List.length_append]
      omega

end

/-- What fits is not much longer than two chunks. -/
theorem Code.Fits.length_lt {c : Code} (h : c.Fits) : c.print.length < 2 ^ 33 + 10 := by
  cases c with
  | nil | boolean | lightuserdata | number | ref | userdata => simp [Code.print]
  | string s =>
      have hs : s.length < 2 ^ 32 := h
      simp only [Code.print, List.length_cons, length_printChunk]
      omega
  | table es =>
      have hes := h.1
      simp only [Code.print, List.length_cons, length_printChunk]
      omega
  | function tag dump ups =>
      have hd := h.2.1
      have hu := h.2.2.1
      simp only [Code.print, List.length_cons, List.length_append, length_printChunk]
      omega
  | hook k es =>
      have hes := h.2.1
      simp only [Code.print, List.length_cons, length_printChunk]
      omega

/-- **The numbers of one encoding are positive as an `int`.** -/
theorem CodeOf.idx_lt {c : Code} (h : CodeOf hooks lua52 nowrap v st c st') (hf : c.Fits)
    (hi : st.idx = 1) : st'.idx ≤ 2 ^ 31 := by
  have hb := h.idx_bound.2
  have hl := hf.length_lt
  omega

end

end Leda.Marshal
