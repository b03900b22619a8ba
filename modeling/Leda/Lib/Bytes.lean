import Mathlib.Algebra.Group.Nat.Defs
import Mathlib.Data.List.Basic

/-!
# Bytes

A C program that writes the memory of an unsigned integer writes its bytes, least
significant first on the machines meant here, and what reads them back gets the number
modulo the width.
-/

namespace Leda.Lib

/-- The bytes of a string without other characters than those of ASCII. -/
def ascii (s : String) : List UInt8 := s.toList.map fun c ↦ UInt8.ofNat c.toNat

/-- The `w` lowest bytes of `n`. -/
def le (w n : Nat) : List UInt8 := (List.range w).map fun i ↦ UInt8.ofNat (n / 256 ^ i)

/-- The number that bytes are the memory of. -/
def ofLe (bs : List UInt8) : Nat := bs.foldr (fun b n ↦ b.toNat + 256 * n) 0

@[simp] theorem length_le (w n : Nat) : (le w n).length = w := by simp [le]

theorem le_succ (w n : Nat) : le (w + 1) n = UInt8.ofNat n :: le w (n / 256) := by
  simp only [le, List.range_succ_eq_map, List.map_cons, List.map_map, Nat.pow_zero, Nat.div_one]
  congr 2
  funext i
  simp only [Function.comp_apply, Nat.pow_succ', Nat.div_div_eq_div_mul]

/-- Reading back what was written. -/
theorem ofLe_le (w n : Nat) : ofLe (le w n) = n % 256 ^ w := by
  induction w generalizing n with
  | zero => simp [le, ofLe, Nat.mod_one]
  | succ w ih =>
      have hp : 256 ^ (w + 1) = 256 * 256 ^ w := Nat.pow_succ'
      have hb : (UInt8.ofNat n).toNat = n % 256 := UInt8.toNat_ofNat'
      calc ofLe (le (w + 1) n)
          = (UInt8.ofNat n).toNat + 256 * ofLe (le w (n / 256)) := by rw [le_succ]; rfl
        _ = n % 256 ^ (w + 1) := by rw [ih, hb, hp, Nat.mod_mul]

/-- Nothing is lost below the width. -/
theorem ofLe_le_of_lt {w n : Nat} (h : n < 256 ^ w) : ofLe (le w n) = n := by
  rw [ofLe_le, Nat.mod_eq_of_lt h]

theorem ofLe_lt (bs : List UInt8) : ofLe bs < 256 ^ bs.length := by
  induction bs with
  | nil => simp [ofLe]
  | cons b bs ih =>
      have hb : b.toNat < 256 := b.toNat_lt
      have hp : 256 ^ (bs.length + 1) = 256 * 256 ^ bs.length := Nat.pow_succ'
      change b.toNat + 256 * ofLe bs < 256 ^ (bs.length + 1)
      omega

/-- Writing what was read. -/
theorem le_ofLe (bs : List UInt8) : le bs.length (ofLe bs) = bs := by
  induction bs with
  | nil => rfl
  | cons b bs ih =>
      have hb : b.toNat < 256 := b.toNat_lt
      have hdiv : (b.toNat + 256 * ofLe bs) / 256 = ofLe bs := by omega
      change le (bs.length + 1) (b.toNat + 256 * ofLe bs) = b :: bs
      rw [le_succ, hdiv, ih]
      congr 1
      rw [← UInt8.toNat_inj, UInt8.toNat_ofNat']
      omega

/-- A number of fixed width ends where it should. -/
theorem le_append_inj {w n n' : Nat} {r r' : List UInt8} (hn : n < 256 ^ w) (hn' : n' < 256 ^ w)
    (h : le w n ++ r = le w n' ++ r') : n = n' ∧ r = r' := by
  obtain ⟨he, hr⟩ := List.append_inj h (by simp)
  exact ⟨by rw [← ofLe_le_of_lt hn, he, ofLe_le_of_lt hn'], hr⟩

end Leda.Lib
