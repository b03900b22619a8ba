import Leda.Lua.Border

/-!
# The length of a table from a constructor

The constructor `{f()}` makes a table of all values that `f` returns, at the places from `1`
on.  It holds them in an array of just this size, also those that are `nil`.

`ConstructorLength` is what the manual says of `#` for such a table: some border, which may
depend on more than the pairs of the table.  An event without values has the length `0`
(`len_nil`).

`luaH_getn` is what Lua 5.1 does.  If the last value is not `nil` the length is the size of the
array, whatever comes before it; otherwise there is a binary search.
-/

namespace Leda.Lua

open List

/-- What is known of `#`, for tables from constructors. -/
structure ConstructorLength where
  len : List Value → Nat
  border : ∀ vs : List Value, vs.length < 2 ^ 31 → Border (arrayEntries vs) (len vs)
  small : ∀ vs : List Value, vs.length < 2 ^ 31 → len vs < 2 ^ 31

/-- The value at a place, from `1` on, is `nil`. -/
def isNilAt (vs : List Value) (i : Nat) : Bool := (vs[i - 1]?).getD .nil = .nil

/-- The binary search of `luaH_getn`; `n` bounds the number of turns. -/
def searchBorder (vs : List Value) : Nat → Nat → Nat → Nat
  | 0, i, _ => i
  | n + 1, i, j =>
    if j - i > 1 then
      let m := (i + j) / 2
      if isNilAt vs m then searchBorder vs n i m else searchBorder vs n m j
    else i

/-- `luaH_getn`, of a table with this array and no other pairs. -/
def luaH_getn (vs : List Value) : Nat :=
  if vs.length > 0 ∧ isNilAt vs vs.length then searchBorder vs vs.length 0 vs.length
  else vs.length

section

variable {vs : List Value} {v : Value} {i j n : Nat}

/-- The borders, by places. -/
theorem border_iff_isNilAt (hl : vs.length < 2 ^ 31) (hn : n < 2 ^ 31) :
    Border (arrayEntries vs) n ↔ (n ≠ 0 → isNilAt vs n = false) ∧ isNilAt vs (n + 1) = true := by
  rw [border_arrayEntries (by omega) (by omega)]
  simp [isNilAt]

theorem isNilAt_of_lt (h : vs.length < i) : isNilAt vs i = true := by
  rw [isNilAt, List.getElem?_eq_none (by omega)]
  rfl

/-- **The binary search finds a border**: it keeps a `nil` above and none below. -/
theorem searchBorder_spec (hi : i ≠ 0 → isNilAt vs i = false) (hj : isNilAt vs j = true)
    (hlt : i < j) (hn : j - i ≤ n) :
    (searchBorder vs n i j ≠ 0 → isNilAt vs (searchBorder vs n i j) = false) ∧
      isNilAt vs (searchBorder vs n i j + 1) = true ∧ searchBorder vs n i j < j := by
  induction n generalizing i j with
  | zero => omega
  | succ n ih =>
      rw [searchBorder]
      split
      · have hm : i < (i + j) / 2 ∧ (i + j) / 2 < j := by omega
        dsimp only
        split
        · rename_i hnil
          obtain ⟨h₁, h₂, h₃⟩ := ih hi hnil hm.1 (by omega)
          exact ⟨h₁, h₂, by omega⟩
        · rename_i hsome
          exact ih (fun _ ↦ by simpa using hsome) hj hm.2 (by omega)
      · obtain rfl : j = i + 1 := by omega
        exact ⟨hi, hj, hlt⟩

theorem luaH_getn_le (vs : List Value) : luaH_getn vs ≤ vs.length := by
  unfold luaH_getn
  split
  · rename_i h
    exact Nat.le_of_lt (searchBorder_spec (fun h0 ↦ absurd rfl h0) h.2 h.1 (Nat.le_refl _)).2.2
  · exact Nat.le_refl _

/-- **What Lua 5.1 does is a border.** -/
theorem border_luaH_getn (hl : vs.length < 2 ^ 31) :
    Border (arrayEntries vs) (luaH_getn vs) := by
  rw [border_iff_isNilAt hl (Nat.lt_of_le_of_lt (luaH_getn_le vs) hl)]
  unfold luaH_getn
  split
  · rename_i h
    obtain ⟨h₁, h₂, -⟩ := searchBorder_spec (fun h0 ↦ absurd rfl h0) h.2 h.1 (Nat.le_refl _)
    exact ⟨h₁, h₂⟩
  · rename_i h
    refine ⟨fun h0 ↦ ?_, isNilAt_of_lt (Nat.lt_succ_self _)⟩
    cases hnil : isNilAt vs vs.length with
    | false => rfl
    | true => exact absurd ⟨Nat.pos_of_ne_zero h0, hnil⟩ h

/-- The length in Lua 5.1. -/
def lua51 : ConstructorLength where
  len := luaH_getn
  border _ := border_luaH_getn
  small vs h := Nat.lt_of_le_of_lt (luaH_getn_le vs) h

namespace ConstructorLength

variable (L : ConstructorLength)

/-- No values have no length. -/
@[simp] theorem len_nil : L.len [] = 0 := by
  have hsmall := L.small [] (by decide)
  have hb := (border_iff_isNilAt (by decide) hsmall).1 (L.border [] (by decide))
  by_contra h0
  have hnil : isNilAt [] (L.len []) = true := isNilAt_of_lt (Nat.pos_of_ne_zero h0)
  rw [hb.1 h0] at hnil
  cases hnil

end ConstructorLength

end

/-- The length of `{nil,x}` in Lua 5.1. -/
theorem luaH_getn_nil_cons {x : Value} (hx : x ≠ .nil) : luaH_getn [.nil, x] = 2 := by
  rw [luaH_getn, if_neg]
  · rfl
  · simp [isNilAt, hx]

end Leda.Lua
