import Leda.Lib.Xfer
import Leda.Lua.Value

/-!
# Reading and writing tables

The raw operations on the pairs of a table.  Keys are compared as Lua compares them:
numbers by value, so that the two zeros are one key and `NaN` equals nothing, everything
else by identity.  Assigning `nil` removes a pair, and `nil` and `NaN` are no keys.

A table is **well-formed** if its keys are keys, each once, and no value is `nil`
(`WellFormed`); these are the tables a Lua program can make.  Filling an empty table with
the pairs of one that is well-formed lists the pairs in the order they came
(`rawset_append`).

`Border` is what the manual says of the operator `#`: it may return any border.
-/

namespace Leda.Lua

/-- A number that is not one: above infinity, the sign apart. -/
def isNaN (d : BitVec 64) : Bool := (0xFFE0000000000000#64).ult (d <<< 1)

/-- Equality of numbers. -/
def numEq (d e : BitVec 64) : Bool :=
  !isNaN d && !isNaN e && (d == e || (d <<< 1 == 0#64 && e <<< 1 == 0#64))

/-- `lua_rawequal`. -/
def rawEq : Value → Value → Bool
  | .number d, .number e => numEq d e
  | v, w => v == w

/-- What can be the key of a pair. -/
def isKey : Value → Bool
  | .nil => false
  | .number d => !isNaN d
  | _ => true

/-- `lua_rawget`. -/
def rawget (es : List (Value × Value)) (k : Value) : Value :=
  ((es.find? fun e ↦ rawEq e.1 k).map Prod.snd).getD .nil

/-- `lua_rawset`, for a key. -/
def rawset (es : List (Value × Value)) (k v : Value) : List (Value × Value) :=
  (if es.any fun e ↦ rawEq e.1 k then es.map fun e ↦ if rawEq e.1 k then (e.1, v) else e
    else es ++ [(k, v)]).filter fun e ↦ e.2 ≠ .nil

/-- A table that a program can make. -/
structure WellFormed (es : List (Value × Value)) : Prop where
  /-- The keys are keys. -/
  keys : ∀ e ∈ es, isKey e.1
  /-- No pair has the value `nil`. -/
  values : ∀ e ∈ es, e.2 ≠ .nil
  /-- A key occurs once. -/
  distinct : es.Pairwise fun e f ↦ rawEq e.1 f.1 = false

/-- All tables are well-formed, functions have at most as many upvalues as the compiler
allows, and all references lead somewhere. -/
structure WellFormedHeap (h : Heap) : Prop where
  tables : ∀ (a : Nat) (t : Table), h[a]? = some (.table t) → WellFormed t.entries
  refs : ∀ (a : Nat) (t : Table), h[a]? = some (.table t) → ∀ e ∈ t.entries, ∀ b,
    e.1 = .object b ∨ e.2 = .object b → b < h.length
  functions : ∀ (a : Nat) (f : Closure), h[a]? = some (.function f) → f.upvalues.length < 256
  upvalues : ∀ (a : Nat) (f : Closure), h[a]? = some (.function f) → ∀ u ∈ f.upvalues, ∀ b,
    u.2 = .object b → b < h.length

/-- `n` is a border: the last of the elements from `1` on, as far as a `nil` tells. -/
def Border (es : List (Value × Value)) (n : Nat) : Prop :=
  (n ≠ 0 → rawget es (.ofNat n) ≠ .nil) ∧ rawget es (.ofNat (n + 1)) = .nil

section

variable {es : List (Value × Value)} {k v w : Value}

theorem rawEq_refl (h : isKey k) : rawEq k k = true := by
  cases k with
  | number d =>
      have hn : isNaN d = false := by simpa [isKey] using h
      simp [rawEq, numEq, hn]
  | nil | boolean | lightuserdata | string | object => simp [rawEq]

/-- A new key is added at the end. -/
theorem rawset_append (hne : ∀ e ∈ es, rawEq e.1 k = false) (hes : ∀ e ∈ es, e.2 ≠ .nil)
    (hv : v ≠ .nil) : rawset es k v = es ++ [(k, v)] := by
  have hany : (es.any fun e ↦ rawEq e.1 k) = false := by
    rw [List.any_eq_false]
    exact fun e he ↦ by simp [hne e he]
  rw [rawset, hany, if_neg (by simp), List.filter_eq_self]
  intro e he
  rcases List.mem_append.1 he with he | he
  · simpa using hes e he
  · obtain rfl := List.mem_singleton.1 he
    simpa using hv

end

/-! ## Integer keys -/

section

variable {m n : Nat}

/-- The memory of the number that an integer is converted to. -/
def bits (n : Nat) : Nat :=
  if n = 0 then 0 else (1023 + n.log2) * 2 ^ 52 + (n - 2 ^ n.log2) * 2 ^ (52 - n.log2)

theorem ofNat_eq (n : Nat) : Value.ofNat n = .number (BitVec.ofNat 64 (bits n)) := by
  unfold Value.ofNat bits
  split <;> rfl

/-- The exponent and the mantissa of a positive integer. -/
theorem bits_eq (hn : n ≠ 0) (h : n < 2 ^ 53) : ∃ e r, e ≤ 52 ∧ r < 2 ^ e ∧ n = 2 ^ e + r ∧
    r * 2 ^ (52 - e) < 2 ^ 52 ∧ bits n = (1023 + e) * 2 ^ 52 + r * 2 ^ (52 - e) := by
  have hlo : 2 ^ n.log2 ≤ n := Nat.log2_self_le hn
  have hhi : n < 2 ^ (n.log2 + 1) := Nat.lt_log2_self
  have he : n.log2 < 53 := (Nat.log2_lt hn).2 h
  have hpow : 2 ^ (n.log2 + 1) = 2 ^ n.log2 + 2 ^ n.log2 := by rw [Nat.pow_succ, Nat.mul_two]
  have hr : n - 2 ^ n.log2 < 2 ^ n.log2 := by omega
  refine ⟨n.log2, n - 2 ^ n.log2, by omega, hr, by omega, ?_, if_neg hn⟩
  calc (n - 2 ^ n.log2) * 2 ^ (52 - n.log2)
      < 2 ^ n.log2 * 2 ^ (52 - n.log2) := Nat.mul_lt_mul_of_pos_right hr (Nat.two_pow_pos _)
    _ = 2 ^ 52 := by rw [← Nat.pow_add]; congr 1; omega

theorem bits_lt (h : n < 2 ^ 53) : bits n < 2047 * 2 ^ 52 := by
  by_cases hn : n = 0
  · simp [bits, hn]
  · obtain ⟨e, r, he, -, -, hr, hb⟩ := bits_eq hn h
    rw [hb]
    omega

theorem bits_inj (hm : m < 2 ^ 53) (hn : n < 2 ^ 53) (h : bits m = bits n) : m = n := by
  by_cases hm0 : m = 0
  · by_cases hn0 : n = 0
    · omega
    · obtain ⟨e, r, he, -, -, hr, hb⟩ := bits_eq hn0 hn
      rw [hb, hm0, bits, if_pos rfl] at h
      omega
  · by_cases hn0 : n = 0
    · obtain ⟨e, r, he, -, -, hr, hb⟩ := bits_eq hm0 hm
      rw [hb, hn0, bits, if_pos rfl] at h
      omega
    · obtain ⟨e, r, he, -, hmr, hr, hb⟩ := bits_eq hm0 hm
      obtain ⟨e', r', he', -, hnr, hr', hb'⟩ := bits_eq hn0 hn
      rw [hb, hb'] at h
      obtain rfl : e = e' := by omega
      have hmul : r * 2 ^ (52 - e) = r' * 2 ^ (52 - e) := by omega
      have hrr : r = r' := Nat.eq_of_mul_eq_mul_right (Nat.two_pow_pos _) hmul
      omega

theorem isKey_ofNat (h : n < 2 ^ 53) : isKey (.ofNat n) = true := by
  have hb := bits_lt h
  rw [ofNat_eq, isKey, isNaN]
  simp only [BitVec.ult, BitVec.toNat_shiftLeft, BitVec.toNat_ofNat, Bool.not_eq_eq_eq_not,
    Bool.not_true, decide_eq_false_iff_not]
  omega

/-- Different integers are different keys. -/
theorem rawEq_ofNat (hm : m < 2 ^ 53) (hn : n < 2 ^ 53) (hne : m ≠ n) :
    rawEq (.ofNat m) (.ofNat n) = false := by
  have hbm := bits_lt hm
  have hbn := bits_lt hn
  have hbits : bits m ≠ bits n := fun h ↦ hne (bits_inj hm hn h)
  have hvec : BitVec.ofNat 64 (bits m) ≠ BitVec.ofNat 64 (bits n) := by
    intro h
    have := congrArg BitVec.toNat h
    simp only [BitVec.toNat_ofNat] at this
    omega
  have hzero : ¬ (BitVec.ofNat 64 (bits m) <<< 1 = 0#64 ∧
      BitVec.ofNat 64 (bits n) <<< 1 = 0#64) := by
    rintro ⟨h₁, h₂⟩
    have h₁' := congrArg BitVec.toNat h₁
    have h₂' := congrArg BitVec.toNat h₂
    simp only [BitVec.toNat_shiftLeft, BitVec.toNat_ofNat] at h₁' h₂'
    omega
  rw [ofNat_eq, ofNat_eq, rawEq, numEq]
  simp only [Bool.and_eq_false_iff, Bool.or_eq_false_iff, beq_eq_false_iff_ne]
  refine .inr ⟨hvec, ?_⟩
  by_cases h₁ : BitVec.ofNat 64 (bits m) <<< 1 = 0#64
  · exact .inr fun h₂ ↦ hzero ⟨h₁, h₂⟩
  · exact .inl h₁

end

/-! ## Tables filled from `1` on -/

section

variable {vs : List Value} {e : Value × Value}

/-- The pairs are those of the values that are not `nil`. -/
theorem mem_arrayEntries_iff : e ∈ arrayEntries vs ↔
    ∃ i v, vs[i]? = some v ∧ v ≠ .nil ∧ e = (.ofNat (i + 1), v) := by
  simp only [arrayEntries, List.mem_filterMap, Prod.exists]
  constructor
  · rintro ⟨v, i, hm, he⟩
    split at he
    · cases he
    · rename_i hv
      cases he
      obtain ⟨hle, hget⟩ := List.mk_mem_zipIdx_iff_le_and_getElem?_sub.1 hm
      exact ⟨i - 1, v, hget, hv, by rw [Nat.sub_add_cancel hle]⟩
  · rintro ⟨i, v, hget, hv, rfl⟩
    refine ⟨v, 1 + i, List.mk_add_mem_zipIdx_iff_getElem?.2 hget, ?_⟩
    rw [if_neg hv, Nat.add_comm]

/-- A table that was filled so is well-formed. -/
theorem wellFormed_arrayEntries (h : vs.length < 2 ^ 53 - 1) : WellFormed (arrayEntries vs) where
  keys e he := by
    obtain ⟨i, v, hget, -, rfl⟩ := mem_arrayEntries_iff.1 he
    have hi : i < vs.length := (List.getElem?_eq_some_iff.1 hget).1
    exact isKey_ofNat (by omega)
  values e he := by
    obtain ⟨i, v, -, hv, rfl⟩ := mem_arrayEntries_iff.1 he
    exact hv
  distinct := by
    rw [arrayEntries, List.pairwise_filterMap, List.pairwise_iff_getElem]
    intro i j hi hj hij b hb b' hb'
    simp only [List.length_zipIdx] at hi hj
    simp only [List.getElem_zipIdx] at hb hb'
    split at hb
    · cases hb
    · split at hb'
      · cases hb'
      · cases hb
        cases hb'
        exact rawEq_ofNat (by omega) (by omega) (by omega)

end

/-- `lua_settable` on a table without a metatable. -/
def settable (h : Heap) (a : Nat) (k v : Value) : Lib.Xfer Heap :=
  match h[a]? with
  | some (.table t) =>
      if isKey k then .ok (h.set a (.table { t with entries := rawset t.entries k v }))
      else .raised (if k = .nil then "table index is nil" else "table index is NaN")
  | _ => .raised "attempt to index a value"

end Leda.Lua
