import Mathlib.Tactic.Ring

namespace CInt

def asInt (n : Nat) : Int := if n%2^32 < 2^31 then (n%2^32 : Nat) else (n%2^32 : Nat)-2^32

def asSize (i : Int) : Nat := (i%2^64).toNat

theorem asInt_le (n : Nat) : asInt n ≤ n := by
  rw [asInt]
  split <;> omega

theorem asInt_bounds (n : Nat) : -2^31 ≤ asInt n ∧ asInt n < 2^31 := by
  rw [asInt]
  split <;> omega

variable {n : Nat}

theorem asInt_of_lt (h : n < 2^31) : asInt n = n := by
  rw [asInt]
  split <;> omega

theorem asSize_asInt (h : n < 2^31) : asSize (asInt n) = n := by
  rw [asInt_of_lt h,asSize]
  omega

theorem asSize_asInt_wrapped (h : 2^31 ≤ n) (hl : n < 2^32) : asSize (asInt n) = 2^64-2^32+n := by
  rw [asInt,asSize]
  split <;> omega

def asUnsigned (w : Nat) (i : Int) : Nat := (i%2^w).toNat

theorem asUnsigned_asInt {w : Nat} (h : n < 2^31) (hw : 31 ≤ w) : asUnsigned w (asInt n) = n := by
  have hl : n < 2^w := Nat.lt_of_lt_of_le h (Nat.pow_le_pow_right (by omega) hw)
  have hc : ((n : Nat) : Int)%2^w = ((n%2^w : Nat) : Int) := by push_cast; rfl
  rw [asInt_of_lt h,asUnsigned,hc,Int.toNat_natCast,Nat.mod_eq_of_lt hl]

end CInt
