import Mathlib.Data.Nat.Bitwise

namespace BitField

open Nat

variable {width mask lo n w u v : Nat}

def complement (width x : Nat) : Nat := 2^width-(x+1)

def clear (width mask w : Nat) : Nat := w &&& complement width mask

def get (lo n w : Nat) : Nat := (w >>> lo) &&& (2^n-1)

def put (width lo n w v : Nat) : Nat := clear width ((2^n-1) <<< lo) w ||| (v <<< lo)%2^width

def replace (lo n w v : Nat) : Nat := 2^(lo+n)*(w/2^(lo+n))+(2^lo*v+w%2^lo)

theorem testBit_of_le (h : w < 2^n) {i : Nat} (hi : n ≤ i) : w.testBit i = false :=
  Nat.testBit_lt_two_pow (h.trans_le (Nat.pow_le_pow_right (by omega) hi))

theorem testBit_clear (hm : mask < 2^width) (hw : w < 2^width) (i : Nat) :
  (clear width mask w).testBit i = (w.testBit i && !mask.testBit i) := by
  rw [clear,complement,testBit_and,testBit_two_pow_sub_succ hm]
  rcases lt_or_ge i width with hi | hi
  · simp [hi]
  · simp [testBit_of_le hw hi]

theorem testBit_mask (lo n i : Nat) : ((2^n-1) <<< lo).testBit i = decide (lo ≤ i ∧ i < lo+n) := by
  rw [testBit_shiftLeft,testBit_two_pow_sub_one,← Bool.decide_and]
  exact decide_eq_decide.mpr (by omega)

theorem mask_lt (h : lo+n ≤ width) : (2^n-1) <<< lo < 2^width := by
  apply lt_pow_two_of_testBit
  intro i hi
  rw [testBit_mask]
  exact decide_eq_false (by omega)

theorem testBit_replace (hv : v < 2^n) (i : Nat) : (replace lo n w v).testBit i =
    if lo ≤ i ∧ i < lo+n then v.testBit (i-lo) else w.testBit i := by
  have hl : w%2^lo < 2^lo := Nat.mod_lt _ (Nat.two_pow_pos lo)
  have hm : 2^lo*v+w%2^lo < 2^(lo+n) := by
    have he : 2^lo*(v+1) ≤ 2^lo*2^n := mul_le_mul_left _ hv
    rw [pow_add]
    rw [mul_succ] at he
    omega
  rw [replace,testBit_two_pow_mul_add _ hm,testBit_two_pow_mul_add _ hl]
  rcases lt_or_ge i lo with h1 | h1
  · rw [if_pos (by omega),if_pos h1,if_neg (by omega),testBit_mod_two_pow]
    simp [h1]
  rcases lt_or_ge i (lo+n) with h2 | h2
  · rw [if_pos h2,if_neg (by omega),if_pos ⟨h1,h2⟩]
  rw [if_neg (by omega),if_neg (by omega),testBit_div_two_pow]
  congr 1
  omega

theorem put_eq_replace (hl : lo+n ≤ width) (hw : w < 2^width) (hv : v < 2^n) :
  put width lo n w v = replace lo n w v := by
  apply eq_of_testBit_eq
  intro i
  rw [put,testBit_or,testBit_clear (mask_lt hl) hw,testBit_mask,testBit_replace hv,
    testBit_mod_two_pow,testBit_shiftLeft]
  by_cases hi : lo ≤ i ∧ i < lo+n
  · have ht : i < width := by omega
    simp [hi,ht]
  rw [if_neg hi,decide_eq_false hi]
  rcases lt_or_ge i lo with h1 | h1
  · simp [not_le.mpr h1]
  · have hb : v.testBit (i-lo) = false := testBit_of_le hv (by omega)
    simp [hb]

theorem get_replace (hv : v < 2^n) : get lo n (replace lo n w v) = v := by
  apply eq_of_testBit_eq
  intro i
  rw [get,testBit_and,testBit_shiftRight,testBit_two_pow_sub_one,testBit_replace hv]
  rcases lt_or_ge i n with hi | hi
  · rw [if_pos (by omega),Nat.add_sub_cancel_left]
    simp [hi]
  · simp [not_lt.mpr hi,testBit_of_le hv hi]

theorem replace_replace (hu : u < 2^n) (hv : v < 2^n) : replace lo n (replace lo n w u) v = replace lo n w v := by
  apply eq_of_testBit_eq
  intro i
  rw [testBit_replace hv,testBit_replace hu,testBit_replace hv]
  split <;> rfl

theorem replace_lt {k : Nat} (hw : w < 2^k) (hv : v < 2^n) (hf : v < 2^(k-lo)) : replace lo n w v < 2^k := by
  apply lt_pow_two_of_testBit
  intro i hi
  rw [testBit_replace hv]
  split
  · exact testBit_of_le hf (by omega)
  · exact testBit_of_le hw hi

theorem replace_mod_two (hl : 0 < lo) (hv : v < 2^n) : replace lo n w v%2 = w%2 := by
  have h : (replace lo n w v).testBit 0 = _ := testBit_replace hv 0
  rw [if_neg (by omega),testBit_zero,testBit_zero] at h
  have h1 := decide_eq_decide.mp h
  omega

theorem clear_le (width mask w : Nat) : clear width mask w ≤ w := and_le_left

theorem clear_of_disjoint (hm : mask < 2^width) (hw : w < 2^width) (h : w &&& mask = 0) : clear width mask w = w := by
  apply eq_of_testBit_eq
  intro i
  have hb := congrArg (Nat.testBit · i) h
  rw [testBit_clear hm hw]
  cases hi : w.testBit i with
  | false => rfl
  | true => simpa [hi] using hb

theorem clear_replace (hm : mask < 2^lo) (hl : lo+n ≤ width) (hw : w < 2^width) (hv : v < 2^n) :
  clear width mask (replace lo n w v) = replace lo n (clear width mask w) v := by
  have ha : mask < 2^width := hm.trans_le (Nat.pow_le_pow_right (by omega) (by omega))
  have hp : replace lo n w v < 2^width :=
    replace_lt hw hv (hv.trans_le (Nat.pow_le_pow_right (by omega) (by omega)))
  apply eq_of_testBit_eq
  intro i
  rw [testBit_clear ha hp,testBit_replace hv,testBit_replace hv,testBit_clear ha hw]
  split_ifs with hi
  · simp [testBit_of_le hm hi.1]
  · rfl

end BitField
