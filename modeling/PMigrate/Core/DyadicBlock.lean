import Mathlib.Data.Nat.Bitwise
import Mathlib.Data.Nat.Log
import Mathlib.Order.Interval.Set.Nat

namespace DyadicBlock

open Nat

def Mem (h k m : Nat) : Prop := h ≤ m ∧ m < h+2^k

instance (h k m : Nat) : Decidable (Mem h k m) := inferInstanceAs (Decidable (_ ∧ _))

variable {g h j k m x : Nat}

theorem mem_head (h k : Nat) : Mem h k h := ⟨Nat.le_refl h,Nat.lt_add_of_pos_right (Nat.two_pow_pos k)⟩

theorem mem_iff_div (ha : 2^k ∣ h) : Mem h k m ↔ m/2^k = h/2^k := by
  obtain ⟨c,rfl⟩ := ha
  have hp := Nat.two_pow_pos k
  rw [Mem,Nat.mul_div_cancel_left c hp,Nat.div_eq_iff hp]
  rw [mul_comm c (2^k)]
  omega

theorem mem_mono (ha : 2^k ∣ h) (hg : 2^j ∣ g) (hk : k ≤ j) (hm : Mem h k m) (hb : Mem g j m) (hx : Mem h k x) :
  Mem g j x := by
  rw [mem_iff_div ha] at hm hx
  rw [mem_iff_div hg] at hb ⊢
  obtain ⟨d,rfl⟩ := Nat.exists_eq_add_of_le hk
  rw [Nat.pow_add,← Nat.div_div_eq_div_mul] at hb ⊢
  rw [hx,← hm,hb]

theorem head_eq (hh : 2^j ∣ h) (hx : 2^j ∣ x) (hm : Mem h j x) : x = h := by
  rw [mem_iff_div hh] at hm
  rw [← Nat.div_mul_cancel hx,hm,Nat.div_mul_cancel hh]

theorem mem_succ : Mem h (k+1) m ↔ Mem h k m ∨ Mem (h+2^k) k m := by
  simp only [Mem,pow_succ]
  omega

theorem aligned_half (ha : 2^(k+1) ∣ h) : 2^k ∣ h ∧ 2^k ∣ h+2^k := by
  have hh : 2^k ∣ h := (pow_dvd_pow 2 (le_succ k)).trans ha
  exact ⟨hh,Nat.dvd_add hh (Nat.dvd_refl _)⟩

theorem and_two_pow_ne_zero : h &&& 2^k ≠ 0 ↔ h/2^k%2 = 1 := by
  rw [and_two_pow,testBit_eq_decide_div_mod_eq]
  by_cases hb : h/2^k%2 = 1 <;> simp [hb]

theorem lower_aligned (ha : 2^k ∣ h) (hb : h/2^k%2 = 0) : 2^(k+1) ∣ h := by
  obtain ⟨c,rfl⟩ := ha
  rw [Nat.mul_div_cancel_left c (Nat.two_pow_pos k)] at hb
  rw [pow_succ]
  exact mul_dvd_mul_left _ (dvd_of_mod_eq_zero hb)

theorem upper_aligned (ha : 2^k ∣ h) (hb : h/2^k%2 = 1) : 2^(k+1) ∣ h-2^k ∧ 2^k ≤ h := by
  obtain ⟨c,rfl⟩ := ha
  rw [Nat.mul_div_cancel_left c (Nat.two_pow_pos k)] at hb
  have hc : 1 ≤ c := by omega
  have hs : 2^k*c-2^k = 2^k*(c-1) := by rw [Nat.mul_sub,Nat.mul_one]
  refine ⟨?_,Nat.le_mul_of_pos_right _ hc⟩
  rw [hs,pow_succ]
  exact mul_dvd_mul_left _ (dvd_of_mod_eq_zero (by omega))

theorem log2_const (ha : 2^k ∣ h) (hp : 0 < h) (hm : Mem h k m) : m.log2 = h.log2 := by
  have hm0 : m ≠ 0 := by
    have := hm.1
    omega
  have hk : 2^k ≤ h := le_of_dvd hp ha
  obtain ⟨hl,hh⟩ := (log2_eq_iff (by omega)).mp (rfl : h.log2 = h.log2)
  have hf : k ≤ h.log2 := (le_log2 (by omega)).mpr hk
  have hv : 2^k ∣ 2^(h.log2+1) := pow_dvd_pow 2 (by omega)
  have he : h+2^k ≤ 2^(h.log2+1) := by
    obtain ⟨c,hc⟩ := ha
    obtain ⟨d,hd⟩ := hv
    rw [hd] at hh ⊢
    have hb : c < d := by
      rw [hc] at hh
      exact Nat.lt_of_mul_lt_mul_left hh
    calc h+2^k = 2^k*(c+1) := by rw [mul_add,Nat.mul_one,← hc]
      _ ≤ 2^k*d := mul_le_mul_left _ hb
  exact (log2_eq_iff hm0).mpr ⟨hl.trans hm.1,hm.2.trans_le he⟩

theorem finite_block (h k : Nat) : {m | Mem h k m}.Finite := Set.finite_Ico h (h+2^k)

theorem ncard_block (h k : Nat) : {m | Mem h k m}.ncard = 2^k := by
  change (Set.Ico h (h+2^k)).ncard = 2^k
  rw [← Nat.card_coe_set_eq,Nat.card_eq_fintype_card,Fintype.card_Ico,Nat.card_Ico,Nat.add_sub_cancel_left]

section

variable {f f' Q : Nat → Prop}

variable (hadd : ∀ m, f' m ↔ f m ∨ Mem h k m)
include hadd

theorem finite_add_block (hf : {m | f m}.Finite) : {m | f' m}.Finite := by
  have he : {m | f' m} = {m | f m} ∪ {m | Mem h k m} := by
    ext m
    exact hadd m
  rw [he]
  exact hf.union (finite_block h k)

theorem ncard_add_block (ho : ∀ m, f m → ¬Mem h k m)
  (hi : {m | f m}.Finite) (hQ : ∀ m, Mem h k m → Q m) : {m | f' m ∧ Q m}.ncard = {m | f m ∧ Q m}.ncard+2^k := by
  have he : {m | f' m ∧ Q m} = {m | f m ∧ Q m} ∪ {m | Mem h k m} := by
    ext m
    simp only [Set.mem_ofPred_eq,Set.mem_union,hadd m]
    constructor
    · rintro ⟨hf | hm,hq⟩
      · exact .inl ⟨hf,hq⟩
      · exact .inr hm
    rintro (⟨hf,hq⟩ | hm)
    · exact ⟨.inl hf,hq⟩
    · exact ⟨.inr hm,hQ m hm⟩
  have hd : Disjoint {m | f m ∧ Q m} {m | Mem h k m} := Set.disjoint_left.mpr fun m hf hm => ho m hf.1 hm
  rw [he,Set.ncard_union_eq hd (hi.subset fun m hm => hm.1) (finite_block h k),ncard_block]

theorem ncard_skip_block (hQ : ∀ m, Mem h k m → ¬Q m) : {m | f' m ∧ Q m}.ncard = {m | f m ∧ Q m}.ncard := by
  congr 1
  ext m
  simp only [Set.mem_ofPred_eq,hadd m]
  constructor
  · rintro ⟨hf | hm,hq⟩
    · exact ⟨hf,hq⟩
    · exact absurd hq (hQ m hm)
  · exact fun ⟨hf,hq⟩ => ⟨.inl hf,hq⟩

end

end DyadicBlock
