import Leda.Lib.Bytes

/-!
# Decimal numerals

What a program writes of a natural number in base ten, and what it reads back: the longest
run of digits, up to a byte that is none (`scanDecimal_decimal`).  A numeral is not empty, so
that nothing is read where there is no digit.
-/

namespace Leda.Lib

/-- The digits of a number, the first one first. -/
def decimal (n : Nat) : List UInt8 := ascii (toString n)

/-- `isdigit` -/
def isDigit (b : UInt8) : Bool := 48 ≤ b.toNat && b.toNat ≤ 57

/-- The number that a run of digits stands for. -/
def ofDecimal (bs : List UInt8) : Nat := bs.foldl (fun n b ↦ 10 * n + (b.toNat - 48)) 0

/-- Reading a number: the number, and what is behind it. -/
def scanDecimal (bs : List UInt8) : Option (Nat × List UInt8) :=
  if bs.takeWhile isDigit = [] then none
  else some (ofDecimal (bs.takeWhile isDigit), bs.dropWhile isDigit)

section

variable {n : Nat} {b : UInt8} {rest : List UInt8}

theorem decimal_eq (n : Nat) :
    decimal n = (Nat.toDigits 10 n).map fun c ↦ UInt8.ofNat c.toNat := by
  rw [decimal, ascii, Nat.toString_eq_repr, Nat.toList_repr]

theorem decimal_ne_nil (n : Nat) : decimal n ≠ [] := by
  rw [decimal_eq]
  simp [Nat.toDigits_ne_nil]

/-- The memory of a digit. -/
theorem toNat_ofNat_digit {c : Char} (hc : c.isDigit = true) :
    (UInt8.ofNat c.toNat).toNat = c.toNat ∧ 48 ≤ c.toNat ∧ c.toNat ≤ 57 := by
  have hle : 48 ≤ c.toNat ∧ c.toNat ≤ 57 := by
    simpa [Char.isDigit, UInt32.le_iff_toNat_le] using hc
  refine ⟨?_, hle⟩
  rw [UInt8.toNat_ofNat']
  omega

theorem isDigit_of_mem_decimal (hb : b ∈ decimal n) : isDigit b = true := by
  rw [decimal_eq] at hb
  obtain ⟨c, hc, rfl⟩ := List.mem_map.1 hb
  obtain ⟨heq, hlo, hhi⟩ :=
    toNat_ofNat_digit (Nat.isDigit_of_mem_toDigits (by omega) (Nat.le_refl 10) hc)
  simp [isDigit, heq, hlo, hhi]

/-- **The number that was written is read.** -/
theorem ofDecimal_decimal (n : Nat) : ofDecimal (decimal n) = n := by
  have hfold : ∀ (cs : List Char) (m : Nat), (∀ c ∈ cs, c.isDigit = true) →
      (cs.map fun c ↦ UInt8.ofNat c.toNat).foldl (fun n b ↦ 10 * n + (b.toNat - 48)) m =
        Nat.ofDigitChars 10 cs m := by
    intro cs
    induction cs with
    | nil => exact fun m _ ↦ rfl
    | cons c cs ih =>
        intro m hcs
        obtain ⟨hc, hcs⟩ := List.forall_mem_cons.1 hcs
        rw [List.map_cons, List.foldl_cons, (toNat_ofNat_digit hc).1, ih _ hcs,
          Nat.ofDigitChars_cons]
        rfl
  rw [decimal_eq, ofDecimal, hfold _ 0 fun c hc ↦
    Nat.isDigit_of_mem_toDigits (by omega) (Nat.le_refl 10) hc]
  exact Nat.ofDigitChars_toDigits (by omega) (Nat.le_refl 10)

/-- **A numeral is read up to its end**, if what is behind it is no digit. -/
theorem scanDecimal_decimal (h : ∀ b ∈ rest.head?, isDigit b = false) :
    scanDecimal (decimal n ++ rest) = some (n, rest) := by
  have hnot : rest.takeWhile isDigit = [] ∧ rest.dropWhile isDigit = rest := by
    cases rest with
    | nil => exact ⟨rfl, rfl⟩
    | cons b rest =>
        have hb := h b rfl
        exact ⟨List.takeWhile_cons_of_neg (by simp [hb]),
          List.dropWhile_cons_of_neg (by simp [hb])⟩
  have hall : ∀ b ∈ decimal n, isDigit b = true := fun b ↦ isDigit_of_mem_decimal
  rw [scanDecimal, List.takeWhile_append_of_pos hall, List.dropWhile_append_of_pos hall, hnot.1,
    hnot.2, List.append_nil, if_neg (decimal_ne_nil n), ofDecimal_decimal]

end

end Leda.Lib
